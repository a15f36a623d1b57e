import Lycancoin.Data.OrderedMatch
import Lycancoin.Script.SigOpBound

namespace Lycancoin.Machine

open Lycancoin.Data

/-- What `OP_CHECKMULTISIG` has read when it comes to its loop. -/
structure MultiSigArguments where
  nKeysCount : Nat
  nSigsCount : Nat
  nOpCount : Int
  scriptCode : CScript

/-- `OP_CHECKMULTISIG` up to its loop. -/
def multiSigArguments (flags : UInt32) (machine : Machine) : Except Stop MultiSigArguments := do
  let fRequireMinimal := hasFlag flags SCRIPT_VERIFY_MINIMALDATA
  machine.stack.needs 1
  let bn ← machine.stack.number 1 fRequireMinimal
  let nKeysCount := CScriptNum.getint bn
  failIf (nKeysCount < 0 || nKeysCount > 20) .PUBKEY_COUNT
  let nOpCount := machine.nOpCount + nKeysCount
  failIf (nOpCount > 201) .OP_COUNT
  let i := 2 + nKeysCount.toNat
  machine.stack.needs i
  let bn ← machine.stack.number i fRequireMinimal
  let nSigsCount := CScriptNum.getint bn
  failIf (nSigsCount < 0 || nSigsCount > nKeysCount) .SIG_COUNT
  machine.stack.needs (i + 1 + nSigsCount.toNat)
  let scriptCode ←
    dropSignatures machine.stack (i + 1) nSigsCount.toNat 0 machine.pbegincodehash
  pure { nKeysCount := nKeysCount.toNat, nSigsCount := nSigsCount.toNat, nOpCount, scriptCode }

def runMultiSigLoop (checker : BaseSignatureChecker) (flags : UInt32) (machine : Machine)
    (arguments : MultiSigArguments) : Metered Stop Bool :=
  multiSigLoop checker flags arguments.scriptCode machine.stack arguments.nKeysCount 2
    (2 + arguments.nKeysCount + 1) arguments.nSigsCount

/-- `OP_CHECKMULTISIG` after its loop. -/
def finishMultiSig (flags : UInt32) (fVerify : Bool) (machine : Machine)
    (arguments : MultiSigArguments) (fSuccess : Bool) : Except Stop Machine := do
  let stack ← popMany machine.stack (2 + arguments.nKeysCount + 1 + arguments.nSigsCount - 1)
  stack.needs 1
  let dummy ← stack.stacktop 1
  failIf (hasFlag flags SCRIPT_VERIFY_NULLDUMMY && !dummy.isEmpty) .SIG_NULLDUMMY
  let stack ← stack.popstack
  let stack : Stack := vchBool fSuccess :: stack
  let stack ← (if fVerify then stack.verify fSuccess .CHECKMULTISIGVERIFY else .ok stack)
  pure { machine with stack, nOpCount := arguments.nOpCount }

/-- `CheckSig` accepts the signature for the key. -/
def Accepts (checker : BaseSignatureChecker) (scriptCode : CScript) (vchSig vchPubKey : Valtype) :
    Prop :=
  checker.checkSig vchSig vchPubKey scriptCode = true

variable {checker : BaseSignatureChecker} {flags : UInt32} {machine : Machine}
  {arguments : MultiSigArguments} {stack : Stack}

theorem opCheckMultiSig_result (fVerify : Bool) :
    (machine.opCheckMultiSig checker flags fVerify).result =
      machine.multiSigArguments flags >>= fun arguments =>
        (machine.runMultiSigLoop checker flags arguments).result >>= fun fSuccess =>
          machine.finishMultiSig flags fVerify arguments fSuccess := by
  simp only [opCheckMultiSig, multiSigArguments, runMultiSigLoop, finishMultiSig,
    Metered.result_bind, Metered.result_free, Metered.result_pure, bind_assoc, pure_bind]
  rfl

theorem needs_eq_ok {depth : Nat} (checked : stack.needs depth = .ok ()) :
    depth ≤ stack.length :=
  (Stack.meets_needs stack depth).of_ok checked

/-- Both counts are in range and everything up to the dummy lies on the stack. -/
theorem multiSigArguments_spec (reached : machine.multiSigArguments flags = .ok arguments) :
    arguments.nSigsCount ≤ arguments.nKeysCount ∧ arguments.nKeysCount ≤ 20 ∧
      arguments.nKeysCount + arguments.nSigsCount + 3 ≤ machine.stack.length := by
  simp only [multiSigArguments, bind_eq_ok] at reached
  obtain ⟨_, -, keys, -, _, keysInRange, _, -, _, -, sigs, -, _, sigsInRange, _, deep, _, -,
    ⟨⟩⟩ := reached
  have keysInRange := (meets_failIf _ _).of_ok keysInRange
  have sigsInRange := (meets_failIf _ _).of_ok sigsInRange
  have deep := needs_eq_ok deep
  simp only [Bool.or_eq_false_iff, decide_eq_false_iff_not, not_lt, gt_iff_lt]
    at keysInRange sigsInRange
  dsimp only
  omega

theorem checkSignatureEncoding_error {vchSig : Valtype} {stop : Stop}
    (raised : checkSignatureEncoding vchSig flags = .error stop) :
    ∃ serror, stop = .fail serror := by
  have allowed : Meets (fun stop : Stop => ∃ serror, stop = .fail serror) (fun _ => True)
      (checkSignatureEncoding vchSig flags) := by
    have fails : ∀ condition serror, Meets (fun stop : Stop => ∃ serror, stop = .fail serror)
        (fun _ => True) (failIf condition serror) := by
      intro condition serror
      cases condition with
      | true => exact ⟨serror, rfl⟩
      | false => exact trivial
    unfold checkSignatureEncoding isLowDERSignature
    exact Meets.ite (fun _ => trivial) fun _ => Meets.bind (fails _ _) fun _ _ =>
      Meets.bind (Meets.ite (fun _ => Meets.bind (fails _ _) fun _ _ => fails _ _)
        fun _ => trivial) fun _ _ => fails _ _
  exact allowed.of_error raised

theorem checkPubKeyEncoding_error {vchPubKey : Valtype} {stop : Stop}
    (raised : checkPubKeyEncoding vchPubKey flags = .error stop) :
    ∃ serror, stop = .fail serror := by
  unfold checkPubKeyEncoding failIf at raised
  split at raised
  · exact ⟨_, (Except.error.inj raised).symm⟩
  · contradiction

theorem stacktop_succ {depth : Nat} (deep : depth < stack.length) :
    ∃ vch, stack.stacktop (depth + 1) = .ok vch ∧
      ∀ count, (stack.drop depth).take (count + 1) = vch :: (stack.drop (depth + 1)).take count := by
  refine ⟨stack[depth], ?_, ?_⟩
  · simp [Stack.stacktop, List.getElem?_eq_getElem deep]
  · intro count
    rw [List.drop_eq_getElem_cons deep, List.take_succ_cons]

/-- The loop finds out whether the signatures that are left fit the keys that are left. -/
theorem multiSigLoop_spec (scriptCode : CScript) {nKeysCount ikey isig nSigsCount : Nat}
    (keys : ikey + nKeysCount ≤ stack.length) (sigs : isig + nSigsCount ≤ stack.length)
    (enough : nSigsCount ≤ nKeysCount)
    (quiet : ∀ serror, (multiSigLoop checker flags scriptCode stack nKeysCount (ikey + 1)
      (isig + 1) nSigsCount).result ≠ .error (.fail serror)) :
    ∃ fSuccess, (multiSigLoop checker flags scriptCode stack nKeysCount (ikey + 1) (isig + 1)
        nSigsCount).result = .ok fSuccess ∧
      (fSuccess = true ↔
        Matches (Accepts checker scriptCode) ((stack.drop isig).take nSigsCount)
          ((stack.drop ikey).take nKeysCount)) := by
  induction nKeysCount generalizing ikey isig nSigsCount with
  | zero =>
      obtain rfl := Nat.le_zero.1 enough
      exact ⟨true, rfl, iff_of_true rfl matches_nil⟩
  | succ nKeysCount ih =>
      cases nSigsCount with
      | zero => exact ⟨true, rfl, iff_of_true rfl matches_nil⟩
      | succ nSigsCount =>
          obtain ⟨vchSig, topSig, splitSigs⟩ := @stacktop_succ stack isig (by omega)
          obtain ⟨vchPubKey, topKey, splitKeys⟩ := @stacktop_succ stack ikey (by omega)
          rw [splitSigs, splitKeys]
          simp only [multiSigLoop, topSig, topKey, Metered.result_free, checkSig, Bind.bind] at quiet ⊢
          cases encodedSig : checkSignatureEncoding vchSig flags with
          | error stop =>
              obtain ⟨serror, rfl⟩ := checkSignatureEncoding_error encodedSig
              simp [encodedSig] at quiet
          | ok _ =>
          cases encodedKey : checkPubKeyEncoding vchPubKey flags with
          | error stop =>
              obtain ⟨serror, rfl⟩ := checkPubKeyEncoding_error encodedKey
              simp [encodedSig, encodedKey] at quiet
          | ok _ =>
          simp only [encodedSig, encodedKey] at quiet ⊢
          cases accepted : checker.checkSig vchSig vchPubKey scriptCode with
          | true =>
              simp only [accepted, if_true] at quiet ⊢
              rw [if_neg (by omega)] at quiet ⊢
              have accepts : Accepts checker scriptCode vchSig vchPubKey := accepted
              rw [matches_cons_of_accept accepts]
              exact ih (by omega) (by omega) (by omega) quiet
          | false =>
              simp only [accepted, Bool.false_eq_true, if_false] at quiet ⊢
              rw [matches_cons_of_not (by simp [Accepts, accepted]), ← splitSigs]
              by_cases hopeless : nSigsCount + 1 > nKeysCount
              · rw [if_pos hopeless]
                refine ⟨false, rfl, ?_⟩
                simp only [Bool.false_eq_true, false_iff]
                intro found
                have few := found.length_le
                simp at few
                omega
              · rw [if_neg hopeless] at quiet ⊢
                exact ih (by omega) sigs (by omega) quiet

theorem popMany_eq {count : Nat} (deep : count ≤ stack.length) :
    popMany stack count = .ok (stack.drop count) := by
  induction count generalizing stack with
  | zero => rfl
  | succ count ih =>
      cases stack with
      | nil => simp at deep
      | cons vch rest => exact ih (by simpa using deep)

def multiSigSignatures (machine : Machine) (arguments : MultiSigArguments) : List Valtype :=
  (machine.stack.drop (2 + arguments.nKeysCount)).take arguments.nSigsCount

/-- The public keys, the top one first. -/
def multiSigKeys (machine : Machine) (arguments : MultiSigArguments) : List Valtype :=
  (machine.stack.drop 1).take arguments.nKeysCount

/-- The element below the signatures. -/
def multiSigDummy (machine : Machine) (arguments : MultiSigArguments) : Valtype :=
  machine.stack.getD (arguments.nKeysCount + arguments.nSigsCount + 2) []

theorem finishMultiSig_eq (fVerify fSuccess : Bool)
    (deep : arguments.nKeysCount + arguments.nSigsCount + 3 ≤ machine.stack.length) :
    machine.finishMultiSig flags fVerify arguments fSuccess =
      if hasFlag flags SCRIPT_VERIFY_NULLDUMMY ∧ machine.multiSigDummy arguments ≠ [] then
        .error (.fail .SIG_NULLDUMMY)
      else if fVerify = true ∧ fSuccess = false then .error (.fail .CHECKMULTISIGVERIFY)
      else .ok { machine with
        stack := (if fVerify then [] else [vchBool fSuccess]) ++
          machine.stack.drop (arguments.nKeysCount + arguments.nSigsCount + 3)
        nOpCount := arguments.nOpCount } := by
  have inside : arguments.nKeysCount + arguments.nSigsCount + 2 < machine.stack.length := by omega
  have popped := @popMany_eq machine.stack
    (2 + arguments.nKeysCount + 1 + arguments.nSigsCount - 1) (by omega)
  rw [show 2 + arguments.nKeysCount + 1 + arguments.nSigsCount - 1 =
      arguments.nKeysCount + arguments.nSigsCount + 2 by omega,
    List.drop_eq_getElem_cons inside] at popped
  have bottom : machine.multiSigDummy arguments =
      machine.stack[arguments.nKeysCount + arguments.nSigsCount + 2] := by
    simp [multiSigDummy, inside]
  rw [bottom]
  generalize machine.stack[arguments.nKeysCount + arguments.nSigsCount + 2] = dummy at popped
  simp only [finishMultiSig, show 2 + arguments.nKeysCount + 1 + arguments.nSigsCount - 1 =
    arguments.nKeysCount + arguments.nSigsCount + 2 by omega, popped, Stack.needs, failIf,
    Stack.stacktop, Stack.popstack, Stack.verify, Bind.bind, Except.bind, List.length_cons]
  cases hasFlag flags SCRIPT_VERIFY_NULLDUMMY <;> cases dummy <;> cases fVerify <;>
    cases fSuccess <;> simp <;> rfl

/-- `OP_CHECKMULTISIG` that raises no encoding error finds out whether the signatures, in order,
fit the keys.  It makes one call for each key at most, removes what it was given and pushes the
result. -/
theorem opCheckMultiSig_exact (fVerify : Bool)
    (reached : machine.multiSigArguments flags = .ok arguments)
    (quiet : ∀ serror,
      (machine.runMultiSigLoop checker flags arguments).result ≠ .error (.fail serror)) :
    arguments.nKeysCount + arguments.nSigsCount + 3 ≤ machine.stack.length ∧
    ∃ fSuccess, (machine.runMultiSigLoop checker flags arguments).result = .ok fSuccess ∧
      (fSuccess = true ↔
        Matches (Accepts checker arguments.scriptCode) (machine.multiSigSignatures arguments)
          (machine.multiSigKeys arguments)) ∧
      (machine.runMultiSigLoop checker flags arguments).cost ≤ arguments.nKeysCount ∧
      (machine.opCheckMultiSig checker flags fVerify).result =
        if hasFlag flags SCRIPT_VERIFY_NULLDUMMY ∧ machine.multiSigDummy arguments ≠ [] then
          .error (.fail .SIG_NULLDUMMY)
        else if fVerify = true ∧ fSuccess = false then .error (.fail .CHECKMULTISIGVERIFY)
        else .ok { machine with
          stack := (if fVerify then [] else [vchBool fSuccess]) ++
            machine.stack.drop (arguments.nKeysCount + arguments.nSigsCount + 3)
          nOpCount := arguments.nOpCount } := by
  obtain ⟨enough, -, deep⟩ := multiSigArguments_spec reached
  obtain ⟨fSuccess, ran, found⟩ := @multiSigLoop_spec checker flags machine.stack
    arguments.scriptCode arguments.nKeysCount 1 (2 + arguments.nKeysCount) arguments.nSigsCount
    (by omega) (by omega) enough quiet
  refine ⟨deep, fSuccess, ran, found, cost_multiSigLoop_le _ _ _ _ _ _, ?_⟩
  rw [opCheckMultiSig_result, reached]
  exact (congrArg (fun loop => loop >>= fun fSuccess =>
    machine.finishMultiSig flags fVerify arguments fSuccess) ran).trans
      (finishMultiSig_eq fVerify fSuccess deep)

def twoKeysMachine : Machine := start [[2], [3], [2], [1], [0x30], []] []

theorem opCheckMultiSig_exact_twoKeys :
    ∃ fSuccess, (twoKeysMachine.runMultiSigLoop oneSignatureChecker 0 ⟨2, 1, 2, []⟩).result =
        .ok fSuccess ∧
      (fSuccess = true ↔
        Matches (Accepts oneSignatureChecker []) [[0x30]] [[3], [2]]) := by
  obtain ⟨-, fSuccess, ran, found, -, -⟩ :=
    @opCheckMultiSig_exact oneSignatureChecker 0 twoKeysMachine ⟨2, 1, 2, []⟩ false rfl
      (fun _ failed => nomatch failed)
  exact ⟨fSuccess, ran, found⟩

end Lycancoin.Machine
