import Lycancoin.Script.StackSafety

namespace Lycancoin

open Lycancoin.Data

namespace CScript

theorem pushSize_length {opcode : UInt8} {script rest : CScript} {nSize : Nat}
    (read : pushSize opcode script = some (nSize, rest)) : rest.length ≤ script.length := by
  unfold pushSize at read
  split at read
  · simp only [Option.some.injEq, Prod.mk.injEq] at read
    exact Nat.le_of_eq (congrArg List.length read.2.symm)
  · split at read
    · split at read
      · simp only [Option.some.injEq, Prod.mk.injEq] at read
        rw [← read.2, List.length_cons]
        omega
      · contradiction
    · split at read
      · split at read
        · simp only [Option.some.injEq, Prod.mk.injEq] at read
          rw [← read.2, List.length_cons, List.length_cons]
          omega
        · contradiction
      · split at read
        · simp only [Option.some.injEq, Prod.mk.injEq] at read
          rw [← read.2]
          simp only [List.length_cons]
          omega
        · contradiction

/-- Every instruction takes at least one byte. -/
theorem getOp_length {script rest : CScript} {opcode : UInt8} {data : List UInt8}
    (read : getOp script = some (opcode, data, rest)) : rest.length < script.length := by
  cases script with
  | nil => contradiction
  | cons first tail =>
      simp only [getOp] at read
      split at read
      · cases operand : pushSize first tail with
        | none =>
            rw [operand] at read
            contradiction
        | some sized =>
            have shorter := pushSize_length operand
            rw [operand] at read
            simp only at read
            split at read
            · contradiction
            · cases read
              simp only [List.length_cons, List.length_drop]
              omega
      · cases read
        simp

end CScript

instance decidablePushable (op : StackOp) : Decidable (Stack.StackOp.Pushable op) := by
  cases op <;> (dsimp only [Stack.StackOp.Pushable]; infer_instance)

theorem pushable_ofByte {byte : UInt8} {op : StackOp} (decoded : StackOp.ofByte byte = some op) :
    Stack.StackOp.Pushable op := by
  have all : ∀ n < 256, ∀ op ∈ StackOp.ofByte (UInt8.ofNat n), Stack.StackOp.Pushable op := by
    decide +kernel
  have known := all byte.toNat byte.toNat_lt op
  rw [UInt8.ofNat_toNat] at known
  exact known decoded

theorem ofByte_eq_onStack {byte : UInt8} {op : StackOp}
    (decoded : Opcode.ofByte byte = .onStack op) : StackOp.ofByte byte = some op := by
  unfold Opcode.ofByte at decoded
  cases onStack : StackOp.ofByte byte with
  | some other =>
      rw [onStack] at decoded
      cases decoded
      rfl
  | none =>
      rw [onStack] at decoded
      simp only at decoded
      split at decoded <;> first
        | contradiction
        | split at decoded <;> contradiction

namespace Machine

/-- The limits that hold within a pass of the loop. -/
structure Fits (machine : Machine) : Prop where
  stack : Small machine.stack
  altstack : Small machine.altstack
  nOpCount : machine.nOpCount ≤ 201

structure Limits (machine : Machine) : Prop extends Fits machine where
  size : machine.stack.length + machine.altstack.length ≤ 1000

variable {hashes : Hashes} {checker : BaseSignatureChecker} {flags : UInt32} {machine : Machine}

def Keeps (machine after : Machine) : Prop := after.Fits ∧ after.pc = machine.pc

theorem meets_opIf (fits : machine.Fits) (negated : Bool) :
    Meets Stop.Expected machine.Keeps (machine.opIf negated) :=
  Meets.ite
    (fun _ => Meets.bind (meets_failIf _ _) fun _ enough => by
      have deep : 1 ≤ machine.stack.length := not_lt.mp (of_decide_eq_false enough)
      exact Meets.bind (Stack.meets_stacktop fits.stack (by omega) deep) fun _ _ =>
        Meets.bind (Stack.meets_popstack fits.stack deep) fun _ next =>
          Meets.pure ⟨⟨next.1, fits.altstack, fits.nOpCount⟩, rfl⟩)
    fun _ => Meets.pure ⟨⟨fits.stack, fits.altstack, fits.nOpCount⟩, rfl⟩

theorem meets_opElse (fits : machine.Fits) :
    Meets Stop.Expected machine.Keeps machine.opElse := by
  unfold opElse
  cases machine.vfExec with
  | nil => exact trivial
  | cons back rest => exact ⟨⟨fits.stack, fits.altstack, fits.nOpCount⟩, rfl⟩

theorem meets_opEndIf (fits : machine.Fits) :
    Meets Stop.Expected machine.Keeps machine.opEndIf := by
  unfold opEndIf
  cases machine.vfExec with
  | nil => exact trivial
  | cons back rest => exact ⟨⟨fits.stack, fits.altstack, fits.nOpCount⟩, rfl⟩

theorem meets_opToAltStack (fits : machine.Fits) :
    Meets Stop.Expected machine.Keeps machine.opToAltStack :=
  Meets.bind (Stack.meets_needs machine.stack 1) fun _ deep =>
    Meets.bind (Stack.meets_stacktop fits.stack (by omega) deep) fun _ small =>
      Meets.bind (Stack.meets_popstack fits.stack deep) fun _ next =>
        Meets.pure ⟨⟨next.1, fits.altstack.cons small, fits.nOpCount⟩, rfl⟩

theorem meets_opFromAltStack (fits : machine.Fits) :
    Meets Stop.Expected machine.Keeps machine.opFromAltStack :=
  Meets.bind (meets_failIf _ _) fun _ enough => by
    have deep : 1 ≤ machine.altstack.length := not_lt.mp (of_decide_eq_false enough)
    exact Meets.bind (Stack.meets_stacktop fits.altstack (by omega) deep) fun _ small =>
      Meets.bind (Stack.meets_popstack fits.altstack deep) fun _ next =>
        Meets.pure ⟨⟨fits.stack.cons small, next.1, fits.nOpCount⟩, rfl⟩

theorem meets_isLowDERSignature (vchSig : Valtype) :
    Meets Stop.Expected (fun _ => True) (isLowDERSignature vchSig) :=
  Meets.bind (meets_failIf _ _) fun _ _ => (meets_failIf _ _).mono fun _ _ => trivial

theorem meets_checkSignatureEncoding (vchSig : Valtype) (flags : UInt32) :
    Meets Stop.Expected (fun _ => True) (checkSignatureEncoding vchSig flags) := by
  have lowS : Meets Stop.Expected (fun _ => True)
      (if hasFlag flags SCRIPT_VERIFY_LOW_S then isLowDERSignature vchSig else .ok ()) :=
    Meets.ite (fun _ => meets_isLowDERSignature vchSig) fun _ => trivial
  exact Meets.ite (fun _ => trivial) fun _ => Meets.bind (meets_failIf _ _) fun _ _ =>
    Meets.bind lowS fun _ _ => (meets_failIf _ _).mono fun _ _ => trivial

theorem meets_checkPubKeyEncoding (vchPubKey : Valtype) (flags : UInt32) :
    Meets Stop.Expected (fun _ => True) (checkPubKeyEncoding vchPubKey flags) :=
  (meets_failIf _ _).mono fun _ _ => trivial

theorem meets_checkSig (vchSig vchPubKey : Valtype) (scriptCode : CScript) :
    Meets Stop.Expected (fun _ => True) (checkSig checker vchSig vchPubKey scriptCode).result :=
  trivial

theorem meets_opCheckSig (fits : machine.Fits) (fVerify : Bool) :
    Meets Stop.Expected machine.Keeps (machine.opCheckSig checker flags fVerify).result := by
  simp only [opCheckSig, Metered.result_bind, Metered.result_free]
  exact Meets.bind (Stack.meets_needs machine.stack 2) fun _ deep =>
    Meets.bind (Stack.meets_stacktop fits.stack (by omega) deep) fun vchSig _ =>
      Meets.bind (Stack.meets_stacktop fits.stack (by omega) (by omega)) fun vchPubKey _ =>
        Meets.bind (meets_checkSignatureEncoding vchSig flags) fun _ _ =>
          Meets.bind (meets_checkPubKeyEncoding vchPubKey flags) fun _ _ =>
            Meets.bind (meets_checkSig vchSig vchPubKey _) fun _ _ =>
              Meets.bind (Stack.meets_popstack fits.stack (by omega)) fun _ next =>
                Meets.bind (Stack.meets_popstack next.1 (by omega)) fun _ rest =>
                  Meets.bind (Stack.meets_result rest.1 fVerify _ _) fun _ after =>
                    Meets.pure ⟨⟨after, fits.altstack, fits.nOpCount⟩, rfl⟩

theorem meets_dropSignatures {stack : Stack} (small : Small stack) {isig nSigs k : Nat}
    (positive : 1 ≤ isig) (deep : isig + k + nSigs ≤ stack.length + 1) (scriptCode : CScript) :
    Meets Stop.Expected (fun _ => True) (dropSignatures stack isig nSigs k scriptCode) := by
  induction nSigs generalizing k scriptCode with
  | zero => exact trivial
  | succ nSigs ih =>
      exact Meets.bind (Stack.meets_stacktop small (by omega) (by omega)) fun _ _ =>
        ih (by omega) _

theorem meets_multiSigLoop {stack : Stack} (small : Small stack) (scriptCode : CScript)
    {nKeysCount ikey isig nSigsCount : Nat} (keyPositive : 1 ≤ ikey) (sigPositive : 1 ≤ isig)
    (keys : ikey + nKeysCount ≤ stack.length + 1) (sigs : isig + nSigsCount ≤ stack.length + 1)
    (enough : nSigsCount ≤ nKeysCount) :
    Meets Stop.Expected (fun _ => True)
      (multiSigLoop checker flags scriptCode stack nKeysCount ikey isig nSigsCount).result := by
  induction nKeysCount generalizing ikey isig nSigsCount with
  | zero =>
      obtain rfl := Nat.le_zero.mp enough
      exact trivial
  | succ nKeysCount ih =>
      cases nSigsCount with
      | zero => exact trivial
      | succ nSigsCount =>
          simp only [multiSigLoop, Metered.result_bind, Metered.result_free]
          refine Meets.bind (Stack.meets_stacktop small sigPositive (by omega)) fun vchSig _ =>
            Meets.bind (Stack.meets_stacktop small keyPositive (by omega)) fun vchPubKey _ =>
              Meets.bind (meets_checkSignatureEncoding vchSig flags) fun _ _ =>
                Meets.bind (meets_checkPubKeyEncoding vchPubKey flags) fun _ _ =>
                  Meets.bind (meets_checkSig vchSig vchPubKey scriptCode) fun fOk _ => ?_
          by_cases hopeless : (if fOk then nSigsCount else nSigsCount + 1) > nKeysCount
          · rw [if_pos hopeless]
            exact trivial
          · rw [if_neg hopeless]
            refine ih (by omega) ?_ (by omega) ?_ (not_lt.mp hopeless)
            · split <;> omega
            · split <;> omega

theorem meets_popMany {stack : Stack} (small : Small stack) {count : Nat}
    (deep : count ≤ stack.length) : Meets Stop.Expected Small (popMany stack count) := by
  induction count generalizing stack with
  | zero => exact small
  | succ count ih =>
      exact Meets.bind (Stack.meets_popstack small (by omega)) fun _ next =>
        ih next.1 (by omega)

theorem meets_opCheckMultiSig (fits : machine.Fits) (fVerify : Bool) :
    Meets Stop.Expected machine.Keeps (machine.opCheckMultiSig checker flags fVerify).result := by
  simp only [opCheckMultiSig, Metered.result_bind, Metered.result_free]
  refine Meets.bind (Stack.meets_needs machine.stack 1) fun _ deep =>
    Meets.bind (Stack.meets_number fits.stack _ (by omega) deep) fun keys _ =>
      Meets.bind (meets_failIf _ _) fun _ keysInRange =>
        Meets.bind (meets_failIf _ _) fun _ opsInRange =>
          Meets.bind (Stack.meets_needs machine.stack _) fun _ deepKeys =>
            Meets.bind (Stack.meets_number fits.stack _ (by omega) deepKeys) fun sigs _ =>
              Meets.bind (meets_failIf _ _) fun _ sigsInRange =>
                Meets.bind (Stack.meets_needs machine.stack _) fun _ deepSigs => ?_
  simp only [Bool.or_eq_false_iff, decide_eq_false_iff_not, not_lt] at keysInRange sigsInRange
  simp only [decide_eq_false_iff_not, gt_iff_lt, not_lt] at opsInRange
  refine Meets.bind (meets_dropSignatures fits.stack (by omega) (by omega) _) fun scriptCode _ =>
    Meets.bind (meets_multiSigLoop fits.stack scriptCode (by omega) (by omega) (by omega)
      (by omega) (by omega)) fun fSuccess _ =>
        Meets.bind (meets_popMany fits.stack (by omega)) fun stack small =>
          Meets.bind (Stack.meets_needs stack 1) fun _ dummyDeep =>
            Meets.bind (Stack.meets_stacktop small (by omega) dummyDeep) fun dummy _ =>
              Meets.bind (meets_failIf _ _) fun _ _ =>
                Meets.bind (Stack.meets_popstack small dummyDeep) fun rest next =>
                  Meets.bind (Stack.meets_result next.1 fVerify fSuccess _) fun _ after =>
                    Meets.pure ⟨⟨after, fits.altstack, opsInRange⟩, rfl⟩

theorem meets_execute (fits : machine.Fits) (byte : UInt8) :
    Meets Stop.Expected machine.Keeps
      (machine.execute hashes checker flags (Opcode.ofByte byte)).result := by
  have kept : machine.Keeps machine := ⟨fits, rfl⟩
  cases opcode : Opcode.ofByte byte with
  | onStack op =>
      have pushable := pushable_ofByte (ofByte_eq_onStack opcode)
      exact Meets.bind (Stack.meets_run fits.stack hashes _ op pushable)
        fun _ after => Meets.pure ⟨⟨after, fits.altstack, fits.nOpCount⟩, rfl⟩
  | OP_NOP => exact kept
  | OP_NOP1_NOP10 => exact Meets.bind (meets_failIf _ _) fun _ _ => Meets.pure kept
  | OP_IF => exact meets_opIf fits false
  | OP_NOTIF => exact meets_opIf fits true
  | OP_ELSE => exact meets_opElse fits
  | OP_ENDIF => exact meets_opEndIf fits
  | OP_RETURN => exact trivial
  | OP_TOALTSTACK => exact meets_opToAltStack fits
  | OP_FROMALTSTACK => exact meets_opFromAltStack fits
  | OP_CODESEPARATOR => exact Meets.pure ⟨⟨fits.stack, fits.altstack, fits.nOpCount⟩, rfl⟩
  | OP_CHECKSIG => exact meets_opCheckSig fits false
  | OP_CHECKSIGVERIFY => exact meets_opCheckSig fits true
  | OP_CHECKMULTISIG => exact meets_opCheckMultiSig fits false
  | OP_CHECKMULTISIGVERIFY => exact meets_opCheckMultiSig fits true
  | unknown => exact trivial

theorem meets_enter (fits : machine.Fits) (opcode : UInt8) (vchPushValue : Valtype)
    (rest : CScript) :
    Meets Stop.Expected
      (fun after => after.Fits ∧ after.pc = rest ∧
        vchPushValue.length ≤ CScript.MAX_SCRIPT_ELEMENT_SIZE)
      (machine.enter opcode vchPushValue rest) :=
  Meets.bind (meets_failIf _ _) fun _ small => Meets.bind (meets_failIf _ _) fun _ counted =>
    Meets.bind (meets_failIf _ _) fun _ _ => by
      simp only [Bool.and_eq_false_iff, decide_eq_false_iff_not, not_lt] at small counted
      refine Meets.pure ⟨⟨fits.stack, fits.altstack, ?_⟩, rfl, small⟩
      have before := fits.nOpCount
      simp only
      split
      · rename_i isCounted
        rw [if_pos isCounted] at counted
        exact counted.resolve_left (not_not.mpr isCounted)
      · exact before

theorem meets_perform (fits : machine.Fits) (opcode : UInt8) {vchPushValue : Valtype}
    (small : vchPushValue.length ≤ CScript.MAX_SCRIPT_ELEMENT_SIZE) :
    Meets Stop.Expected machine.Keeps
      (machine.perform hashes checker flags opcode vchPushValue).result := by
  unfold perform
  split
  · exact Meets.bind (meets_failIf _ _) fun _ _ =>
      Meets.pure ⟨⟨fits.stack.cons small, fits.altstack, fits.nOpCount⟩, rfl⟩
  · split
    · exact meets_execute fits opcode
    · exact Meets.pure ⟨fits, rfl⟩

/-- One pass keeps the limits and reads on. -/
theorem meets_step (fits : machine.Fits) :
    Meets Stop.Expected (fun after => after.Limits ∧ after.pc.length < machine.pc.length)
      (machine.step hashes checker flags).result := by
  unfold step
  cases read : CScript.getOp machine.pc with
  | none => exact trivial
  | some instruction =>
      obtain ⟨opcode, vchPushValue, rest⟩ := instruction
      have shorter := CScript.getOp_length read
      simp only [Metered.result_bind, Metered.result_free]
      refine Meets.bind (meets_enter fits opcode vchPushValue rest) fun admitted ⟨ready, pc, small⟩ =>
        Meets.bind (meets_perform ready opcode small) fun after ⟨done, same⟩ =>
          Meets.bind (meets_failIf _ _) fun _ sized => Meets.pure ⟨⟨done, ?_⟩, ?_⟩
      · simpa using sized
      · rw [same, pc]
        exact shorter

/-- With a pass for every byte the loop ends at the end of the script. -/
theorem meets_loop (limits : machine.Limits) {passes : Nat}
    (enough : machine.pc.length ≤ passes) :
    Meets Stop.Expected (fun after => after.Limits ∧ after.pc = [])
      (machine.loop hashes checker flags passes).result := by
  induction passes generalizing machine with
  | zero =>
      have ended : machine.pc = [] := List.length_eq_zero_iff.mp (Nat.le_zero.mp enough)
      rw [loop_of_nil _ ended]
      exact Meets.pure ⟨limits, ended⟩
  | succ passes ih =>
      by_cases ended : machine.pc = []
      · rw [loop_of_nil _ ended]
        exact Meets.pure ⟨limits, ended⟩
      · rw [loop_of_ne_nil _ ended, Metered.result_bind]
        exact Meets.bind (meets_step limits.toFits) fun after ⟨kept, shorter⟩ =>
          ih kept (by omega)

/-- The states between the passes of the loop. -/
def Reaches (hashes : Hashes) (checker : BaseSignatureChecker) (flags : UInt32) :
    Machine → Machine → Prop :=
  Relation.ReflTransGen fun before after =>
    before.pc ≠ [] ∧ (before.step hashes checker flags).result = .ok after

theorem Limits.reaches {after : Machine} (limits : machine.Limits)
    (reaches : Reaches hashes checker flags machine after) : after.Limits := by
  induction reaches with
  | refl => exact limits
  | tail _ pass ih => exact ((meets_step ih.toFits).of_ok pass.2).1

theorem reaches_of_loop {after : Machine} {passes : Nat}
    (returns : (machine.loop hashes checker flags passes).result = .ok after) :
    Reaches hashes checker flags machine after ∧ after.pc = [] := by
  induction passes generalizing machine with
  | zero =>
      by_cases ended : machine.pc = []
      · rw [loop_of_nil _ ended] at returns
        cases returns
        exact ⟨.refl, ended⟩
      · rw [loop, if_neg ended] at returns
        contradiction
  | succ passes ih =>
      by_cases ended : machine.pc = []
      · rw [loop_of_nil _ ended] at returns
        cases returns
        exact ⟨.refl, ended⟩
      · rw [loop_of_ne_nil _ ended, Metered.result_bind] at returns
        obtain ⟨next, pass, rest⟩ := bind_eq_ok.mp returns
        obtain ⟨reaches, atEnd⟩ := ih rest
        exact ⟨.head ⟨ended, pass⟩ reaches, atEnd⟩

theorem limits_start {stack : Stack} (short : stack.length ≤ 1000) (small : Small stack)
    (script : CScript) : (start stack script).Limits where
  stack := small
  altstack := by simp [start, Small]
  nOpCount := by simp [start]
  size := by simpa [start] using short

end Machine

theorem meets_evalScriptBody {hashes : Hashes} {checker : BaseSignatureChecker} {flags : UInt32}
    {stack : Stack} (short : stack.length ≤ 1000) (small : Small stack) (script : CScript) :
    Meets Stop.Expected Machine.Limits
      (evalScriptBody hashes checker flags stack script).result := by
  simp only [evalScriptBody, Metered.result_bind, Metered.result_free]
  exact Meets.bind (meets_failIf _ _) fun _ _ =>
    Meets.bind (Machine.meets_loop (Machine.limits_start short small script) (Nat.le_refl _))
      fun machine ⟨limits, _⟩ => Meets.bind (meets_failIf _ _) fun _ _ => Meets.pure limits

/-- From a stack within the limits no access leaves the stack, no assertion
fails and nothing overflows; the limits hold between all instructions and when
`EvalScript` returns true. -/
theorem evalScript_stays_in_range (hashes : Hashes) (checker : BaseSignatureChecker)
    (flags : UInt32) {stack : Stack} (short : stack.length ≤ 1000)
    (small : ∀ vch ∈ stack, vch.length ≤ 520) (script : CScript) :
    (∀ stop, (evalScriptBody hashes checker flags stack script).result = .error stop →
      stop = .scriptNum ∨ ∃ serror, stop = .fail serror) ∧
    (∀ machine, Machine.Reaches hashes checker flags (Machine.start stack script) machine →
      machine.stack.length + machine.altstack.length ≤ 1000 ∧ machine.nOpCount ≤ 201 ∧
        (∀ vch ∈ machine.stack, vch.length ≤ 520) ∧ ∀ vch ∈ machine.altstack, vch.length ≤ 520) ∧
    ∀ after, (evalScript hashes checker flags stack script).result = .ok after →
      ∃ machine, machine.stack = after ∧ machine.pc = [] ∧
        Machine.Reaches hashes checker flags (Machine.start stack script) machine := by
  refine ⟨fun stop fails => ?_, fun machine reaches => ?_, fun after returns => ?_⟩
  · have expected := (meets_evalScriptBody short small script).of_error fails
    cases stop with
    | fail serror => exact Or.inr ⟨serror, rfl⟩
    | scriptNum => exact Or.inl rfl
    | _ => exact False.elim expected
  · have limits := (Machine.limits_start short small script).reaches reaches
    exact ⟨limits.size, limits.nOpCount, limits.stack, limits.altstack⟩
  · simp only [evalScript] at returns
    cases body : (evalScriptBody hashes checker flags stack script).result with
    | error stop =>
        rw [body] at returns
        contradiction
    | ok machine =>
        rw [body] at returns
        cases returns
        simp only [evalScriptBody, Metered.result_bind, Metered.result_free] at body
        obtain ⟨_, _, rest⟩ := bind_eq_ok.mp body
        obtain ⟨last, run, close⟩ := bind_eq_ok.mp rest
        obtain ⟨_, _, done⟩ := bind_eq_ok.mp close
        cases done
        obtain ⟨reaches, atEnd⟩ := Machine.reaches_of_loop run
        exact ⟨_, rfl, atEnd, reaches⟩

theorem evalScript_stays_in_range_roll :
    ∃ machine, machine.stack = [[8], [7]] ∧ machine.pc = [] ∧
      Machine.Reaches plainHashes oneSignatureChecker 0
        (Machine.start [[1], [7], [8]] [0x7a]) machine :=
  (evalScript_stays_in_range plainHashes oneSignatureChecker 0 (by decide) (by decide)
    [0x7a]).2.2 [[8], [7]] (by decide)

end Lycancoin
