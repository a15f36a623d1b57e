import Lycancoin.Coins.UtxoView
import Lycancoin.Data.Verdict
import Lycancoin.Script.RunSafety
import Lycancoin.Script.Standard

namespace Lycancoin

open Lycancoin.Data CScript

def MAX_P2SH_SIGOPS : Nat := 15

/-- `BaseSignatureChecker()`, to which no signature is good. -/
def BaseSignatureChecker.base : BaseSignatureChecker where
  checkSig _ _ _ := false

/-- What `AreInputsStandard` rests on: the templates that are in use and the hash functions. -/
structure StandardRules where
  policy : StandardPolicy
  hashes : Hashes

namespace StandardRules

variable (rules : StandardRules) (mapInputs : UtxoView)

/-- `EvalScript` of a `scriptSig` with `SCRIPT_VERIFY_NONE` from the empty stack. -/
def evalScriptSig (scriptSig : CScript) : Except Stop Stack :=
  (evalScript rules.hashes BaseSignatureChecker.base 0 [] scriptSig).result

/-- The loop of `AreInputsStandard`.  No result stands for an assertion that fails. -/
def inputsStandardFrom : List CTxIn → Option Bool
  | [] => some true
  | txin :: rest => do
      let prev ← mapInputs.output txin.prevout
      match solver rules.policy prev.scriptPubKey with
      | none => some false
      | some (whichType, vSolutions) =>
          let nArgsExpected := scriptSigArgsExpected whichType vSolutions
          if nArgsExpected < 0 then some false
          else
            match rules.evalScriptSig txin.scriptSig with
            | .error (.fail _) => some false
            | .error _ => none
            | .ok stack =>
                if whichType = .TX_SCRIPTHASH then
                  match stack with
                  | [] => some false
                  | subscript :: _ =>
                      match solver rules.policy subscript with
                      | some (whichType2, vSolutions2) =>
                          let tmpExpected := scriptSigArgsExpected whichType2 vSolutions2
                          if tmpExpected < 0 then some false
                          else if (stack.length : Int) ≠ nArgsExpected + tmpExpected then some false
                          else inputsStandardFrom rest
                      | none =>
                          -- Any other script with few signature operations ends the whole loop.
                          some (decide (getSigOpCount subscript true ≤ MAX_P2SH_SIGOPS))
                else if (stack.length : Int) ≠ nArgsExpected then some false
                else inputsStandardFrom rest

def areInputsStandard (tx : CTransaction) : Option Bool :=
  if tx.isCoinBase then some true else rules.inputsStandardFrom mapInputs tx.vin

/-- The redeem script on top of a stack is of no template and has few signature operations. -/
def FewSigOps (stack : Stack) : Prop :=
  ∃ subscript rest, stack = subscript :: rest ∧ solver rules.policy subscript = none ∧
    getSigOpCount subscript true ≤ MAX_P2SH_SIGOPS

/-- The redeem script on top of a stack is of a template, and its arguments make up the stack. -/
def RedeemArgs (stack : Stack) : Prop :=
  ∃ subscript rest whichType vSolutions, stack = subscript :: rest ∧
    solver rules.policy subscript = some (whichType, vSolutions) ∧
    0 ≤ scriptSigArgsExpected whichType vSolutions ∧
    (stack.length : Int) = 1 + scriptSigArgsExpected whichType vSolutions

/-- What is asked of an input that spends an output of a type: the arguments of the type, or those
of the redeem script, or a redeem script with few signature operations. -/
def InputStandard (txin : CTxIn) : Prop :=
  ∃ prev whichType vSolutions stack,
    mapInputs.output txin.prevout = some prev ∧
    solver rules.policy prev.scriptPubKey = some (whichType, vSolutions) ∧
    0 ≤ scriptSigArgsExpected whichType vSolutions ∧
    rules.evalScriptSig txin.scriptSig = .ok stack ∧
    if whichType = .TX_SCRIPTHASH then rules.RedeemArgs stack ∨ rules.FewSigOps stack
    else (stack.length : Int) = scriptSigArgsExpected whichType vSolutions

/-- The input spends by a redeem script of no template with few signature operations. -/
def OtherRedeemScript (txin : CTxIn) : Prop :=
  ∃ prev vSolutions stack,
    mapInputs.output txin.prevout = some prev ∧
    solver rules.policy prev.scriptPubKey = some (.TX_SCRIPTHASH, vSolutions) ∧
    rules.evalScriptSig txin.scriptSig = .ok stack ∧ rules.FewSigOps stack

/-- What the redeem script on top of a stack makes of its input. -/
def judgeRedeemScript (stack : Stack) : Verdict :=
  match stack with
  | [] => .reject
  | subscript :: _ =>
      match solver rules.policy subscript with
      | some (whichType, vSolutions) =>
          if 0 ≤ scriptSigArgsExpected whichType vSolutions ∧
              (stack.length : Int) = 1 + scriptSigArgsExpected whichType vSolutions then .pass
          else .reject
      | none => if getSigOpCount subscript true ≤ MAX_P2SH_SIGOPS then .settle else .reject

/-- What the loop makes of an input that spends the output. -/
def judgeSpend (prev : CTxOut) (scriptSig : CScript) : Verdict :=
  match solver rules.policy prev.scriptPubKey, rules.evalScriptSig scriptSig with
  | some (whichType, vSolutions), .ok stack =>
      if scriptSigArgsExpected whichType vSolutions < 0 then .reject
      else if whichType = .TX_SCRIPTHASH then rules.judgeRedeemScript stack
      else if (stack.length : Int) = scriptSigArgsExpected whichType vSolutions then .pass
      else .reject
  | _, _ => .reject

def judgeInput (txin : CTxIn) : Verdict :=
  match mapInputs.output txin.prevout with
  | none => .reject
  | some prev => rules.judgeSpend prev txin.scriptSig

variable {rules mapInputs}

theorem judgeRedeemScript_ne_reject {stack : Stack} :
    rules.judgeRedeemScript stack ≠ .reject ↔ rules.RedeemArgs stack ∨ rules.FewSigOps stack := by
  unfold judgeRedeemScript RedeemArgs FewSigOps
  cases stack with
  | nil => simp
  | cons subscript rest =>
      cases solved : solver rules.policy subscript with
      | none =>
          simp only [List.cons.injEq, exists_and_left]
          simp [solved]
      | some typed =>
          obtain ⟨whichType, vSolutions⟩ := typed
          simp [solved]

theorem judgeRedeemScript_eq_settle {stack : Stack} :
    rules.judgeRedeemScript stack = .settle ↔ rules.FewSigOps stack := by
  unfold judgeRedeemScript FewSigOps
  cases stack with
  | nil => simp
  | cons subscript rest =>
      cases solved : solver rules.policy subscript with
      | none => simp [solved]
      | some typed =>
          obtain ⟨whichType, vSolutions⟩ := typed
          simp only [solved]
          split <;> simp [solved]

theorem judgeInput_ne_reject {txin : CTxIn} :
    rules.judgeInput mapInputs txin ≠ .reject ↔ rules.InputStandard mapInputs txin := by
  unfold judgeInput InputStandard judgeSpend
  cases found : mapInputs.output txin.prevout with
  | none => simp
  | some prev =>
      cases solved : solver rules.policy prev.scriptPubKey with
      | none => simp [solved]
      | some typed =>
          obtain ⟨whichType, vSolutions⟩ := typed
          cases evaluated : rules.evalScriptSig txin.scriptSig with
          | error stop => simp [solved]
          | ok stack =>
              by_cases toHash : whichType = .TX_SCRIPTHASH
              · simp [solved, toHash, judgeRedeemScript_ne_reject, scriptSigArgsExpected]
              · simp [solved, toHash]

theorem judgeInput_ne_settle {txin : CTxIn} :
    rules.judgeInput mapInputs txin ≠ .settle ↔ ¬rules.OtherRedeemScript mapInputs txin := by
  rw [not_iff_not]
  unfold judgeInput OtherRedeemScript judgeSpend
  cases found : mapInputs.output txin.prevout with
  | none => simp
  | some prev =>
      cases solved : solver rules.policy prev.scriptPubKey with
      | none => simp [solved]
      | some typed =>
          obtain ⟨whichType, vSolutions⟩ := typed
          cases evaluated : rules.evalScriptSig txin.scriptSig with
          | error stop => simp [solved]
          | ok stack =>
              by_cases toHash : whichType = .TX_SCRIPTHASH
              · simp [solved, toHash, judgeRedeemScript_eq_settle, scriptSigArgsExpected]
              · simp only [solved, if_neg toHash]
                split
                · simp [solved, toHash]
                · split <;> simp [solved, toHash]

/-- A `scriptSig` that does not evaluate fails with an error of its own. -/
theorem evalScriptSig_error {scriptSig : CScript} {stop : Stop}
    (stops : rules.evalScriptSig scriptSig = .error stop) : ∃ serror, stop = .fail serror := by
  have expected := @meets_evalScriptBody rules.hashes BaseSignatureChecker.base 0 [] (by simp)
    (fun _ member => by cases member) scriptSig
  unfold evalScriptSig evalScript at stops
  cases body : (evalScriptBody rules.hashes BaseSignatureChecker.base 0 [] scriptSig).result with
  | ok machine =>
      simp [body, Except.mapError, Except.map] at stops
  | error inner =>
      simp only [body, Except.mapError, Except.map, Except.error.injEq] at stops
      rw [body] at expected
      cases inner with
      | fail serror => exact ⟨serror, stops.symm⟩
      | scriptNum => exact ⟨.UNKNOWN_ERROR, stops.symm⟩
      | _ => exact False.elim expected

theorem inputsStandardFrom_cons {txin : CTxIn} {rest : List CTxIn}
    (held : (mapInputs.output txin.prevout).isSome = true) :
    rules.inputsStandardFrom mapInputs (txin :: rest) =
      match rules.judgeInput mapInputs txin with
      | .pass => rules.inputsStandardFrom mapInputs rest
      | .reject => some false
      | .settle => some true := by
  obtain ⟨prev, found⟩ := Option.isSome_iff_exists.1 held
  simp only [inputsStandardFrom, judgeInput, judgeSpend, found, Option.bind_eq_bind,
    Option.bind_some]
  cases solved : solver rules.policy prev.scriptPubKey with
  | none => rfl
  | some typed =>
      obtain ⟨whichType, vSolutions⟩ := typed
      cases evaluated : rules.evalScriptSig txin.scriptSig with
      | error stop =>
          obtain ⟨serror, rfl⟩ := evalScriptSig_error evaluated
          simp
      | ok stack =>
          by_cases negative : scriptSigArgsExpected whichType vSolutions < 0
          · simp [negative]
          · by_cases toHash : whichType = .TX_SCRIPTHASH
            · subst toHash
              cases stack with
              | nil => rfl
              | cons subscript below =>
                  cases solved2 : solver rules.policy subscript with
                  | none =>
                      simp only [if_neg negative, if_true, judgeRedeemScript, solved2]
                      by_cases few : getSigOpCount subscript true ≤ MAX_P2SH_SIGOPS
                      · rw [if_pos few, decide_eq_true few]
                      · rw [if_neg few, decide_eq_false few]
                  | some typed2 =>
                      obtain ⟨whichType2, vSolutions2⟩ := typed2
                      simp only [if_neg negative, if_true, judgeRedeemScript, solved2]
                      by_cases negative2 : scriptSigArgsExpected whichType2 vSolutions2 < 0
                      · have refused : ¬0 ≤ scriptSigArgsExpected whichType2 vSolutions2 := by omega
                        rw [if_pos negative2, if_neg fun both => refused both.1]
                      · have admitted : 0 ≤ scriptSigArgsExpected whichType2 vSolutions2 := by omega
                        have one : scriptSigArgsExpected .TX_SCRIPTHASH vSolutions = 1 := rfl
                        rw [if_neg negative2, one]
                        simp only [admitted, true_and, ne_eq, ite_not]
                        split <;> rfl
            · simp only [if_neg negative, if_neg toHash, ne_eq, ite_not]
              split <;> rfl

theorem inputsStandardFrom_eq {vin : List CTxIn}
    (held : ∀ txin ∈ vin, (mapInputs.output txin.prevout).isSome = true) :
    rules.inputsStandardFrom mapInputs vin =
      some (Verdict.judge (rules.judgeInput mapInputs) vin) := by
  induction vin with
  | nil => rfl
  | cons txin rest ih =>
      rw [inputsStandardFrom_cons (held txin List.mem_cons_self), Verdict.judge]
      cases rules.judgeInput mapInputs txin with
      | pass => exact ih fun other member => held other (List.mem_cons_of_mem txin member)
      | reject => rfl
      | settle => rfl

theorem isCoinBase_perm {tx : CTransaction} {vin : List CTxIn} (order : vin.Perm tx.vin) :
    ({ tx with vin } : CTransaction).isCoinBase = tx.isCoinBase := by
  unfold CTransaction.isCoinBase
  cases found : tx.vin with
  | nil =>
      rw [found, List.perm_nil] at order
      simp [order]
  | cons first rest =>
      cases rest with
      | nil =>
          rw [found, List.perm_singleton] at order
          simp [order]
      | cons second rest =>
          have length := order.length_eq
          rw [found] at length
          cases vin with
          | nil => simp at length
          | cons first' rest' =>
              cases rest' with
              | nil => simp at length
              | cons second' rest' => rfl

/-- `AreInputsStandard` says whether all inputs are standard, in whatever order they come, if and
only if they are, or no input of a transaction that is no coinbase has another redeem script. -/
theorem areInputsStandard_exact {tx : CTransaction}
    (held : ∀ txin ∈ tx.vin, (mapInputs.output txin.prevout).isSome = true) :
    ((rules.areInputsStandard mapInputs tx = some true ↔
        ∀ txin ∈ tx.vin, rules.InputStandard mapInputs txin) ∧
      ∀ vin : List CTxIn, vin.Perm tx.vin →
        rules.areInputsStandard mapInputs { tx with vin } =
          rules.areInputsStandard mapInputs tx) ↔
      (∀ txin ∈ tx.vin, rules.InputStandard mapInputs txin) ∨
        tx.isCoinBase = false ∧ ∀ txin ∈ tx.vin, ¬rules.OtherRedeemScript mapInputs txin := by
  cases coinBase : tx.isCoinBase with
  | true =>
      have same : ∀ vin : List CTxIn, vin.Perm tx.vin →
          rules.areInputsStandard mapInputs { tx with vin } =
            rules.areInputsStandard mapInputs tx := by
        intro vin order
        simp [areInputsStandard, isCoinBase_perm order, coinBase]
      have accepted : rules.areInputsStandard mapInputs tx = some true := by
        simp [areInputsStandard, coinBase]
      simp only [accepted, true_iff, Bool.true_eq_false, false_and, or_false]
      constructor
      · exact And.left
      · intro standard
        exact ⟨standard, fun vin order => (same vin order).trans accepted⟩
  | false =>
      have loop : ∀ vin : List CTxIn, vin.Perm tx.vin →
          rules.areInputsStandard mapInputs { tx with vin } =
            some (Verdict.judge (rules.judgeInput mapInputs) vin) := by
        intro vin order
        simp only [areInputsStandard, isCoinBase_perm order, coinBase, Bool.false_eq_true, if_false]
        exact inputsStandardFrom_eq fun txin member => held txin (order.mem_iff.1 member)
      have whole : rules.areInputsStandard mapInputs tx =
          some (Verdict.judge (rules.judgeInput mapInputs) tx.vin) := loop tx.vin (List.Perm.refl _)
      have exact := @Verdict.judge_exact CTxIn (rules.judgeInput mapInputs) tx.vin
      simp only [judgeInput_ne_reject, judgeInput_ne_settle] at exact
      rw [whole, Option.some.injEq]
      simp only [true_and]
      rw [← exact]
      apply and_congr_right
      intro _
      constructor
      · intro same vin order
        have both := same vin order
        rw [loop vin order] at both
        exact Option.some.inj both
      · intro same vin order
        rw [loop vin order, same vin order]

/-- A transaction of two inputs: the first spends by a redeem script of no template, the script of
the second is empty where a signature is expected. -/
def escaping (first second : CTxIn) : CTransaction :=
  { hash := 9, nVersion := 1, vin := [first, second]
    vout := [{ nValue := 1, scriptPubKey := [] }], nLockTime := 0 }

/-- The output of a script hash, and one of a key. -/
def escapingView : UtxoView :=
  { coins := fun hash =>
      if hash = 1 then
        some { fCoinBase := false
               vout := [{ nValue := 5, scriptPubKey := OP_HASH160 :: 0x14 ::
                            (List.replicate 20 0 ++ [OP_EQUAL]) },
                        { nValue := 5, scriptPubKey := 0x21 ::
                            (List.replicate 33 2 ++ [OP_CHECKSIG]) }]
               nHeight := 3, nVersion := 1 }
      else none
    hashBestBlock := 2 }

def plainRules : StandardRules :=
  { policy := { fDataCarrier := true, nMaxDatacarrierBytes := 80 }, hashes := plainHashes }

/-- Pushes the redeem script `OP_NOP`. -/
def spendsHash : CTxIn :=
  { prevout := { hash := 1, n := 0 }, scriptSig := [1, 0x61], nSequence := 0xffffffff }

def spendsKey : CTxIn :=
  { prevout := { hash := 1, n := 1 }, scriptSig := [], nSequence := 0xffffffff }

/-- The same inputs are standard in one order and not in the other. -/
theorem otherRedeemScript_first :
    plainRules.areInputsStandard escapingView (escaping spendsHash spendsKey) = some true ∧
      plainRules.areInputsStandard escapingView (escaping spendsKey spendsHash) = some false ∧
      ¬plainRules.InputStandard escapingView spendsKey := by
  have judged : plainRules.judgeInput escapingView spendsKey = .reject := by decide
  apply And.intro (by decide)
  apply And.intro (by decide)
  intro standard
  exact judgeInput_ne_reject.2 standard judged

/-- Inputs of three types: a redeem script that pays to a key, a key, and the hash of a key. -/
def spendsRedeemKey : CTxIn :=
  { spendsHash with scriptSig := 1 :: 0x30 :: 35 :: 0x21 :: (List.replicate 33 2 ++ [OP_CHECKSIG]) }

def spendsKeySigned : CTxIn := { spendsKey with scriptSig := [1, 0x30] }

def spendsKeyHash (scriptSig : CScript) : CTxIn :=
  { prevout := { hash := 3, n := 0 }, scriptSig := scriptSig, nSequence := 0xffffffff }

/-- The view with the output of a key hash besides. -/
def mixedView : UtxoView :=
  { escapingView with
    coins := fun hash =>
      if hash = 3 then
        some { fCoinBase := true
               vout := [{ nValue := 7, scriptPubKey := OP_DUP :: OP_HASH160 :: 0x14 ::
                            (List.replicate 20 0 ++ [OP_EQUALVERIFY, OP_CHECKSIG]) }]
               nHeight := 2, nVersion := 1 }
      else escapingView.coins hash }

def mixed (vin : List CTxIn) : CTransaction := { escaping spendsHash spendsKey with vin }

/-- Standard inputs of all types, and a transaction with an argument too many for a key hash: the
result is the same in every order. -/
theorem areInputsStandard_exact_mixed :
    let standard := mixed [spendsKeySigned, spendsHash, spendsKeyHash [1, 0x30, 1, 2], spendsRedeemKey]
    let extra := mixed [spendsRedeemKey, spendsKeyHash [1, 0x30, 1, 2, 0x51], spendsKeySigned]
    ((plainRules.areInputsStandard mixedView standard = some true ↔
        ∀ txin ∈ standard.vin, plainRules.InputStandard mixedView txin) ∧
      ∀ vin : List CTxIn, vin.Perm standard.vin →
        plainRules.areInputsStandard mixedView { standard with vin } =
          plainRules.areInputsStandard mixedView standard) ∧
    ((plainRules.areInputsStandard mixedView extra = some true ↔
        ∀ txin ∈ extra.vin, plainRules.InputStandard mixedView txin) ∧
      ∀ vin : List CTxIn, vin.Perm extra.vin →
        plainRules.areInputsStandard mixedView { extra with vin } =
          plainRules.areInputsStandard mixedView extra) := by
  intro standard extra
  constructor
  · apply (areInputsStandard_exact (by decide)).2
    left
    intro txin member
    apply judgeInput_ne_reject.1
    have judged : ∀ txin ∈ standard.vin, plainRules.judgeInput mixedView txin ≠ .reject := by
      decide
    exact judged txin member
  · apply (areInputsStandard_exact (by decide)).2
    right
    apply And.intro (by decide)
    intro txin member
    apply judgeInput_ne_settle.1
    have judged : ∀ txin ∈ extra.vin, plainRules.judgeInput mixedView txin ≠ .settle := by
      decide
    exact judged txin member

end StandardRules

end Lycancoin
