import Lycancoin.Script.Interpreter
import Lycancoin.Validation.ConnectBlock

namespace Lycancoin

open Lycancoin.Data

/-! What a script does under some flags, it does under fewer flags. -/

/-- Every flag of `fewer` is a flag of `more`. -/
def FlagsIncluded (fewer more : UInt32) : Prop := fewer &&& more = fewer

instance (fewer more : UInt32) : Decidable (FlagsIncluded fewer more) :=
  inferInstanceAs (Decidable (_ = _))

variable {fewer more : UInt32} {hashes : Hashes} {checker : BaseSignatureChecker}

theorem FlagsIncluded.hasFlag (included : FlagsIncluded fewer more) {mask : UInt32}
    (set : hasFlag fewer mask = true) : hasFlag more mask = true := by
  unfold Lycancoin.hasFlag at set ⊢
  rw [bne_iff_ne] at set ⊢
  intro unset
  apply set
  rw [← included, UInt32.and_assoc, unset, UInt32.and_zero]

theorem covers_failIf {wide narrow : Bool} {serror other : ScriptError}
    (implies : wide = true → narrow = true) :
    Covers (failIf wide serror) (failIf narrow other) := by
  cases narrow with
  | true => exact Covers.error _ _
  | false =>
      cases wide with
      | true => exact absurd (implies rfl) Bool.false_ne_true
      | false => exact Covers.refl _

theorem covers_ofVch {wide narrow : Bool} (implies : wide = true → narrow = true) (vch : Valtype) :
    Covers (CScriptNum.ofVch vch wide) (CScriptNum.ofVch vch narrow) := by
  unfold CScriptNum.ofVch
  refine Covers.ite (Covers.refl _) ?_
  cases wide with
  | true =>
      rw [implies rfl]
      exact Covers.refl _
  | false =>
      cases narrow with
      | false => exact Covers.refl _
      | true =>
          intro value returns
          split at returns
          · contradiction
          · exact returns

namespace Stack

variable {wide narrow : Bool} (implies : wide = true → narrow = true)

include implies

theorem covers_number (stack : Stack) (depth : Nat) :
    Covers (stack.number depth wide) (stack.number depth narrow) :=
  Covers.bind (Covers.refl _) fun vch => covers_ofVch implies vch

theorem covers_opPickRoll (roll : Bool) (stack : Stack) :
    Covers (stack.opPickRoll wide roll) (stack.opPickRoll narrow roll) :=
  Covers.bind (Covers.refl _) fun _ =>
    Covers.bind (covers_number implies stack 1) fun _ => Covers.refl _

theorem covers_opUnary (op : UnaryOp) (stack : Stack) :
    Covers (stack.opUnary wide op) (stack.opUnary narrow op) :=
  Covers.bind (Covers.refl _) fun _ =>
    Covers.bind (covers_number implies stack 1) fun _ => Covers.refl _

theorem covers_opBinary (op : BinaryOp) (stack : Stack) :
    Covers (stack.opBinary wide op) (stack.opBinary narrow op) :=
  Covers.bind (Covers.refl _) fun _ =>
    Covers.bind (covers_number implies stack 2) fun _ =>
      Covers.bind (covers_number implies stack 1) fun _ => Covers.refl _

theorem covers_opWithin (stack : Stack) :
    Covers (stack.opWithin wide) (stack.opWithin narrow) :=
  Covers.bind (Covers.refl _) fun _ =>
    Covers.bind (covers_number implies stack 3) fun _ =>
      Covers.bind (covers_number implies stack 2) fun _ =>
        Covers.bind (covers_number implies stack 1) fun _ => Covers.refl _

theorem covers_run (op : StackOp) (stack : Stack) :
    Covers (stack.run hashes wide op) (stack.run hashes narrow op) := by
  cases op with
  | OP_PICK => exact covers_opPickRoll implies false stack
  | OP_ROLL => exact covers_opPickRoll implies true stack
  | unary op => exact covers_opUnary implies op stack
  | binary op => exact covers_opBinary implies op stack
  | OP_WITHIN => exact covers_opWithin implies stack
  | _ => exact Covers.refl _

end Stack

section

variable (included : FlagsIncluded fewer more)

include included

theorem covers_checkSignatureEncoding (vchSig : Valtype) :
    Covers (checkSignatureEncoding vchSig fewer) (checkSignatureEncoding vchSig more) := by
  unfold checkSignatureEncoding
  refine Covers.ite (Covers.refl _) (Covers.bind ?_ fun _ => ?_)
  · refine covers_failIf fun refused => ?_
    rw [Bool.and_eq_true] at refused ⊢
    exact ⟨included.hasFlag refused.1, refused.2⟩
  · refine Covers.bind ?_ fun _ => covers_failIf fun refused => ?_
    · cases low : hasFlag fewer SCRIPT_VERIFY_LOW_S with
      | true =>
          rw [included.hasFlag low]
          exact Covers.refl _
      | false =>
          intro value _
          rfl
    · rw [Bool.and_eq_true] at refused ⊢
      exact ⟨included.hasFlag refused.1, refused.2⟩

theorem covers_checkPubKeyEncoding (vchPubKey : Valtype) :
    Covers (checkPubKeyEncoding vchPubKey fewer) (checkPubKeyEncoding vchPubKey more) := by
  refine covers_failIf fun refused => ?_
  rw [Bool.and_eq_true] at refused ⊢
  exact ⟨included.hasFlag refused.1, refused.2⟩

end

namespace Machine

section

variable (included : FlagsIncluded fewer more)

include included

theorem covers_opCheckSig (fVerify : Bool) (machine : Machine) :
    Covers (machine.opCheckSig checker fewer fVerify).result
      (machine.opCheckSig checker more fVerify).result := by
  simp only [opCheckSig, Metered.result_bind, Metered.result_free]
  exact Covers.bind (Covers.refl _) fun _ => Covers.bind (Covers.refl _) fun vchSig =>
    Covers.bind (Covers.refl _) fun vchPubKey =>
      Covers.bind (covers_checkSignatureEncoding included vchSig) fun _ =>
        Covers.bind (covers_checkPubKeyEncoding included vchPubKey) fun _ => Covers.refl _

theorem covers_multiSigLoop (scriptCode : CScript) (stack : Stack)
    (nKeysCount ikey isig nSigsCount : Nat) :
    Covers (multiSigLoop checker fewer scriptCode stack nKeysCount ikey isig nSigsCount).result
      (multiSigLoop checker more scriptCode stack nKeysCount ikey isig nSigsCount).result := by
  induction nKeysCount generalizing ikey isig nSigsCount with
  | zero => cases nSigsCount <;> exact Covers.refl _
  | succ nKeysCount ih =>
      cases nSigsCount with
      | zero => exact Covers.refl _
      | succ nSigsCount =>
          simp only [multiSigLoop, Metered.result_bind, Metered.result_free]
          refine Covers.bind (Covers.refl _) fun vchSig => Covers.bind (Covers.refl _)
            fun vchPubKey => Covers.bind (covers_checkSignatureEncoding included vchSig) fun _ =>
              Covers.bind (covers_checkPubKeyEncoding included vchPubKey) fun _ =>
                Covers.bind (Covers.refl _) fun fOk => ?_
          generalize (if fOk = true then nSigsCount else nSigsCount + 1) = remaining
          by_cases hopeless : remaining > nKeysCount
          · rw [if_pos hopeless, if_pos hopeless]
            exact Covers.refl _
          · rw [if_neg hopeless, if_neg hopeless]
            exact ih _ _ _

theorem covers_opCheckMultiSig (fVerify : Bool) (machine : Machine) :
    Covers (machine.opCheckMultiSig checker fewer fVerify).result
      (machine.opCheckMultiSig checker more fVerify).result := by
  have minimal : hasFlag fewer SCRIPT_VERIFY_MINIMALDATA = true →
      hasFlag more SCRIPT_VERIFY_MINIMALDATA = true := included.hasFlag
  simp only [opCheckMultiSig, Metered.result_bind, Metered.result_free]
  refine Covers.bind (Covers.refl _) fun _ =>
    Covers.bind (Stack.covers_number minimal machine.stack 1) fun keys =>
      Covers.bind (Covers.refl _) fun _ => Covers.bind (Covers.refl _) fun _ =>
        Covers.bind (Covers.refl _) fun _ =>
          Covers.bind (Stack.covers_number minimal machine.stack _) fun sigs =>
            Covers.bind (Covers.refl _) fun _ => Covers.bind (Covers.refl _) fun _ =>
              Covers.bind (Covers.refl _) fun scriptCode =>
                Covers.bind (covers_multiSigLoop included scriptCode machine.stack _ _ _ _)
                  fun fSuccess => ?_
  refine Covers.bind (Covers.refl _) fun stack => Covers.bind (Covers.refl _) fun _ =>
    Covers.bind (Covers.refl _) fun dummy => Covers.bind (covers_failIf fun refused => ?_)
      fun _ => Covers.refl _
  rw [Bool.and_eq_true] at refused ⊢
  exact ⟨included.hasFlag refused.1, refused.2⟩

theorem covers_execute (machine : Machine) (opcode : Opcode) :
    Covers (machine.execute hashes checker fewer opcode).result
      (machine.execute hashes checker more opcode).result := by
  cases opcode with
  | onStack op =>
      exact Covers.bind (Stack.covers_run (fun set => included.hasFlag set) op machine.stack)
        fun _ => Covers.refl _
  | OP_NOP1_NOP10 =>
      exact Covers.bind (covers_failIf fun refused => included.hasFlag refused)
        fun _ => Covers.refl _
  | OP_CHECKSIG => exact covers_opCheckSig included false machine
  | OP_CHECKSIGVERIFY => exact covers_opCheckSig included true machine
  | OP_CHECKMULTISIG => exact covers_opCheckMultiSig included false machine
  | OP_CHECKMULTISIGVERIFY => exact covers_opCheckMultiSig included true machine
  | _ => exact Covers.refl _

theorem covers_perform (opcode : UInt8) (vchPushValue : Valtype) (machine : Machine) :
    Covers (machine.perform hashes checker fewer opcode vchPushValue).result
      (machine.perform hashes checker more opcode vchPushValue).result := by
  unfold perform
  split
  · refine Covers.bind (covers_failIf fun refused => ?_) fun _ => Covers.refl _
    rw [Bool.and_eq_true] at refused ⊢
    exact ⟨included.hasFlag refused.1, refused.2⟩
  · split
    · exact covers_execute included machine (Opcode.ofByte opcode)
    · exact Covers.refl _

theorem covers_step (machine : Machine) :
    Covers (machine.step hashes checker fewer).result
      (machine.step hashes checker more).result := by
  unfold step
  cases CScript.getOp machine.pc with
  | none => exact Covers.refl _
  | some read =>
      simp only [Metered.result_bind, Metered.result_free]
      exact Covers.bind (Covers.refl _) fun admitted =>
        Covers.bind (covers_perform included read.1 read.2.1 admitted) fun _ => Covers.refl _

theorem covers_loop (passes : Nat) (machine : Machine) :
    Covers (machine.loop hashes checker fewer passes).result
      (machine.loop hashes checker more passes).result := by
  induction passes generalizing machine with
  | zero =>
      exact Covers.refl _
  | succ passes ih =>
      by_cases ended : machine.pc = []
      · rw [loop_of_nil _ ended, loop_of_nil _ ended]
        exact Covers.refl _
      · rw [loop_of_ne_nil _ ended, loop_of_ne_nil _ ended, Metered.result_bind,
          Metered.result_bind]
        exact Covers.bind (covers_step included machine) fun next => ih next

end

end Machine

section

variable (included : FlagsIncluded fewer more)

include included

theorem covers_evalScript (stack : Stack) (script : CScript) :
    Covers (evalScript hashes checker fewer stack script).result
      (evalScript hashes checker more stack script).result := by
  have body : Covers (evalScriptBody hashes checker fewer stack script).result
      (evalScriptBody hashes checker more stack script).result := by
    simp only [evalScriptBody, Metered.result_bind, Metered.result_free]
    exact Covers.bind (Covers.refl _) fun _ =>
      Covers.bind (Machine.covers_loop included script.length (Machine.start stack script))
        fun _ => Covers.refl _
  intro value returns
  simp only [evalScript] at returns ⊢
  cases run : (evalScriptBody hashes checker more stack script).result with
  | error stop =>
      rw [run] at returns
      contradiction
  | ok machine =>
      rw [run] at returns
      rw [body machine run]
      exact returns

theorem covers_verifyOutputScript (scriptSig scriptPubKey : CScript) :
    Covers (verifyOutputScript hashes checker fewer scriptSig scriptPubKey).result
      (verifyOutputScript hashes checker more scriptSig scriptPubKey).result := by
  simp only [verifyOutputScript, Metered.result_bind, Metered.result_free]
  refine Covers.bind (covers_failIf fun refused => ?_) fun _ =>
    Covers.bind (covers_evalScript included [] scriptSig) fun stackCopy =>
      Covers.bind (covers_evalScript included stackCopy scriptPubKey) fun _ => Covers.refl _
  rw [Bool.and_eq_true] at refused ⊢
  exact ⟨included.hasFlag refused.1, refused.2⟩

theorem covers_verifyRedeemScript (stackCopy : Stack) :
    Covers (verifyRedeemScript hashes checker fewer stackCopy).result
      (verifyRedeemScript hashes checker more stackCopy).result := by
  cases stackCopy with
  | nil => exact Covers.refl _
  | cons pubKeySerialized stack =>
      simp only [verifyRedeemScript, Metered.result_bind, Metered.result_free]
      exact Covers.bind (covers_evalScript included stack pubKeySerialized) fun _ => Covers.refl _

theorem covers_verifyP2SH (p2sh : hasFlag fewer SCRIPT_VERIFY_P2SH = true)
    (scriptSig scriptPubKey : CScript) (stackCopy stack : Stack) :
    Covers (verifyP2SH hashes checker fewer scriptSig scriptPubKey stackCopy stack).result
      (verifyP2SH hashes checker more scriptSig scriptPubKey stackCopy stack).result := by
  unfold verifyP2SH runsRedeemScript
  rw [p2sh, included.hasFlag p2sh]
  cases scriptPubKey.isPayToScriptHash with
  | false =>
      simp only [Bool.and_false, Bool.false_eq_true, if_false]
      exact Covers.refl _
  | true =>
      simp only [Bool.and_self, if_true, Metered.result_bind, Metered.result_free]
      exact Covers.bind (Covers.refl _) fun _ => covers_verifyRedeemScript included stackCopy

theorem covers_checkCleanStack (p2sh : hasFlag fewer SCRIPT_VERIFY_P2SH = true) (stack : Stack) :
    Covers (checkCleanStack fewer stack) (checkCleanStack more stack) := by
  unfold checkCleanStack
  rw [p2sh, included.hasFlag p2sh]
  cases clean : hasFlag fewer SCRIPT_VERIFY_CLEANSTACK with
  | true =>
      rw [included.hasFlag clean]
      exact Covers.refl _
  | false => exact fun _ _ => rfl

end

/-- `CLEANSTACK` never comes without `P2SH`. -/
def CleanStackRule (flags : UInt32) : Prop :=
  hasFlag flags SCRIPT_VERIFY_CLEANSTACK = true → hasFlag flags SCRIPT_VERIFY_P2SH = true

instance (flags : UInt32) : Decidable (CleanStackRule flags) :=
  inferInstanceAs (Decidable (_ → _))

theorem mandatory_included :
    FlagsIncluded MANDATORY_SCRIPT_VERIFY_FLAGS STANDARD_SCRIPT_VERIFY_FLAGS := by decide

theorem mandatory_cleanStackRule : CleanStackRule MANDATORY_SCRIPT_VERIFY_FLAGS := by decide

theorem verifyScript_of_more_flags (included : FlagsIncluded fewer more)
    (rule : CleanStackRule fewer) {scriptSig scriptPubKey : CScript}
    (succeeds : (verifyScript hashes checker more scriptSig scriptPubKey).result = .ok ()) :
    (verifyScript hashes checker fewer scriptSig scriptPubKey).result = .ok () := by
  simp only [verifyScript, Metered.result_bind, Metered.result_free] at succeeds ⊢
  obtain ⟨pair, outputPasses, rest⟩ := bind_eq_ok.mp succeeds
  obtain ⟨stack, redeemPasses, clean⟩ := bind_eq_ok.mp rest
  refine bind_eq_ok.mpr
    ⟨pair, covers_verifyOutputScript included scriptSig scriptPubKey pair outputPasses, ?_⟩
  cases p2sh : hasFlag fewer SCRIPT_VERIFY_P2SH with
  | true =>
      exact bind_eq_ok.mpr
        ⟨stack, covers_verifyP2SH included p2sh scriptSig scriptPubKey _ _ stack redeemPasses,
          covers_checkCleanStack included p2sh stack () clean⟩
  | false =>
      -- Without `P2SH` neither the redeem script nor the size of the stack matters.
      have unclean : hasFlag fewer SCRIPT_VERIFY_CLEANSTACK = false := by
        cases cleanFlag : hasFlag fewer SCRIPT_VERIFY_CLEANSTACK with
        | false => rfl
        | true =>
            rw [rule cleanFlag] at p2sh
            contradiction
      refine bind_eq_ok.mpr ⟨pair.2, ?_, ?_⟩
      · unfold verifyP2SH runsRedeemScript
        rw [p2sh]
        rfl
      · unfold checkCleanStack
        rw [unclean]
        rfl

/-- `CheckInputs` without threads and under some flags: the amounts are in
order and every `CScriptCheck` passes. -/
def InputsAccepted (hashes : Hashes) (checkerOf : Nat → BaseSignatureChecker) (view : UtxoView)
    (nSpendHeight : Nat) (flags : UInt32) (tx : CTransaction) : Prop :=
  tx.isCoinBase = true ∨
    checkInputAmounts view nSpendHeight tx = .ok () ∧
      ∀ input ∈ tx.vin.zipIdx,
        (verifyScript hashes (checkerOf input.2) flags input.1.scriptSig
          (spentScript view input.1)).result = .ok ()

/-- Flags only ever make `VerifyScript` fail, so a transaction that is accepted
under the standard flags is accepted under the mandatory ones. -/
theorem flags_only_restrict (included : FlagsIncluded fewer more)
    (rule : CleanStackRule fewer) (hashes : Hashes) :
    (∀ (checker : BaseSignatureChecker) (scriptSig scriptPubKey : CScript),
      (verifyScript hashes checker more scriptSig scriptPubKey).result = .ok () →
        (verifyScript hashes checker fewer scriptSig scriptPubKey).result = .ok ()) ∧
    ∀ (checkerOf : Nat → BaseSignatureChecker) (view : UtxoView) (nSpendHeight : Nat)
      (tx : CTransaction),
      InputsAccepted hashes checkerOf view nSpendHeight STANDARD_SCRIPT_VERIFY_FLAGS tx →
        InputsAccepted hashes checkerOf view nSpendHeight MANDATORY_SCRIPT_VERIFY_FLAGS tx := by
  refine ⟨fun checker scriptSig scriptPubKey => verifyScript_of_more_flags included rule, ?_⟩
  intro checkerOf view nSpendHeight tx accepted
  rcases accepted with coinbase | ⟨amounts, scripts⟩
  · exact Or.inl coinbase
  · exact Or.inr ⟨amounts, fun input member =>
      verifyScript_of_more_flags mandatory_included mandatory_cleanStackRule
        (scripts input member)⟩

/-- `1 2 OP_ADD` against `3 OP_EQUAL`. -/
theorem flags_only_restrict_sum :
    (verifyScript plainHashes oneSignatureChecker MANDATORY_SCRIPT_VERIFY_FLAGS [0x51, 0x52, 0x93]
      [0x53, 0x87]).result = .ok () :=
  (flags_only_restrict mandatory_included mandatory_cleanStackRule plainHashes).1
    oneSignatureChecker _ _ (by decide)

end Lycancoin
