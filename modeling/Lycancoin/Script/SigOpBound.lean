import Lycancoin.Script.RunSafety

namespace Lycancoin

open Lycancoin.Data CScript

variable {hashes : Hashes} {checker : BaseSignatureChecker} {flags : UInt32}

namespace CScript

/-- Up to twenty keys are counted for each `OP_CHECKMULTISIG`, sixteen when
they are counted accurately. -/
theorem sigOpLoop_accurate_le (passes : Nat) (lastOpcode : UInt8) (script : CScript) :
    sigOpLoop true passes lastOpcode script ≤ sigOpLoop false passes lastOpcode script := by
  induction passes generalizing lastOpcode script with
  | zero => exact Nat.le_refl _
  | succ passes ih =>
      simp only [sigOpLoop]
      cases getOp script with
      | none => exact Nat.le_refl _
      | some read =>
          refine Nat.add_le_add ?_ (ih read.1 read.2.2)
          split
          · exact Nat.le_refl _
          · split
            · split
              · rename_i small
                have sixteen : lastOpcode.toNat ≤ OP_16.toNat := small.2.2
                have limit : OP_16.toNat = 96 := rfl
                have first : OP_1.toNat = 81 := rfl
                simp only [Bool.false_eq_true, false_and, if_false]
                omega
              · simp
            · exact Nat.le_refl _

theorem getSigOpCount_accurate_le (script : CScript) :
    getSigOpCount script true ≤ getSigOpCount script false :=
  sigOpLoop_accurate_le script.length OP_INVALIDOPCODE script

end CScript

theorem ofByte_small {opcode : UInt8} (low : OP_1 ≤ opcode) (high : opcode ≤ OP_16) :
    Opcode.ofByte opcode = .onStack (.OP_N (opcode.toNat - 0x50)) := by
  have lower : 0x51 ≤ opcode.toNat := low
  have upper : opcode.toNat ≤ 0x60 := high
  unfold Opcode.ofByte StackOp.ofByte
  generalize opcode.toNat = n at *
  interval_cases n <;> rfl

/-- The numbers of the opcodes that call `CheckSig`. -/
theorem byte_of_ofByte (opcode : UInt8) :
    (Opcode.ofByte opcode = .OP_CHECKSIG → opcode = OP_CHECKSIG) ∧
    (Opcode.ofByte opcode = .OP_CHECKSIGVERIFY → opcode = OP_CHECKSIGVERIFY) ∧
    (Opcode.ofByte opcode = .OP_CHECKMULTISIG → opcode = OP_CHECKMULTISIG) ∧
    (Opcode.ofByte opcode = .OP_CHECKMULTISIGVERIFY → opcode = OP_CHECKMULTISIGVERIFY) := by
  unfold Opcode.ofByte
  cases StackOp.ofByte opcode with
  | some op => simp
  | none =>
      simp only
      split <;> rename_i number
      case h_14 => split <;> simp
      all_goals
        simp only [reduceCtorEq, false_implies, true_implies, true_and, and_true, and_self]
      all_goals exact UInt8.toNat_inj.mp number

/-- The byte that `OP_1` to `OP_16` push reads back as their number. -/
theorem serialize_small {opcode : UInt8} (low : OP_1 ≤ opcode) (high : opcode ≤ OP_16) :
    CScriptNum.serialize (opcode.toNat - 0x50) = .ok [opcode - 0x50] ∧
      ∀ fRequireMinimal,
        CScriptNum.ofVch [opcode - 0x50] fRequireMinimal = .ok (opcode.toNat - 0x50) := by
  have lower : 0x51 ≤ opcode.toNat := low
  have upper : opcode.toNat ≤ 0x60 := high
  have isByte : opcode = UInt8.ofNat opcode.toNat := by simp
  rw [isByte]
  generalize opcode.toNat = n at *
  interval_cases n <;> exact ⟨by decide, by decide⟩

namespace Machine

variable {machine : Machine}

/-- A small number that was the last instruction, and was executed, is on top
of the stack. -/
def Remembers (lastOpcode : UInt8) (machine : Machine) : Prop :=
  OP_1 ≤ lastOpcode → lastOpcode ≤ OP_16 → machine.fExec = true →
    ∃ rest, machine.stack = [lastOpcode - 0x50] :: rest

theorem cost_opCheckSig_le (fVerify : Bool) (machine : Machine) :
    (machine.opCheckSig checker flags fVerify).cost ≤ 1 := by
  unfold opCheckSig
  refine Metered.cost_free_bind_le fun _ _ => Metered.cost_free_bind_le fun vchSig _ =>
    Metered.cost_free_bind_le fun vchPubKey _ => Metered.cost_free_bind_le fun _ _ =>
      Metered.cost_free_bind_le fun _ _ => ?_
  refine Metered.cost_bind_free_le (Nat.le_refl 1) fun fSuccess _ => ?_
  exact Metered.cost_free_bind_le fun _ _ => Metered.cost_free_bind_le fun _ _ =>
    Metered.cost_free_bind_le fun _ _ => Nat.le_refl 0

theorem cost_multiSigLoop_le (scriptCode : CScript) (stack : Stack)
    (nKeysCount ikey isig nSigsCount : Nat) :
    (multiSigLoop checker flags scriptCode stack nKeysCount ikey isig nSigsCount).cost ≤
      nKeysCount := by
  induction nKeysCount generalizing ikey isig nSigsCount with
  | zero => cases nSigsCount <;> exact Nat.le_refl 0
  | succ nKeysCount ih =>
      cases nSigsCount with
      | zero => exact Nat.zero_le _
      | succ nSigsCount =>
          unfold multiSigLoop
          refine Metered.cost_free_bind_le fun vchSig _ => Metered.cost_free_bind_le
            fun vchPubKey _ => Metered.cost_free_bind_le fun _ _ =>
              Metered.cost_free_bind_le fun _ _ => ?_
          refine (Metered.cost_bind_le (Nat.le_refl 1) fun fOk _ => ?_).trans
            (Nat.le_of_eq (Nat.add_comm 1 nKeysCount))
          by_cases hopeless : (if fOk then nSigsCount else nSigsCount + 1) > nKeysCount
          · simp only [if_pos hopeless]
            exact Nat.zero_le _
          · simp only [if_neg hopeless]
            exact ih _ _ _

/-- The calls of `OP_CHECKMULTISIG` are bounded by the number of keys that it
reads off the stack. -/
theorem cost_opCheckMultiSig_le {bound : Nat} (fVerify : Bool) (machine : Machine)
    (enough : ∀ bn, machine.stack.number 1 (hasFlag flags SCRIPT_VERIFY_MINIMALDATA) = .ok bn →
      CScriptNum.getint bn ≤ 20 → (CScriptNum.getint bn).toNat ≤ bound) :
    (machine.opCheckMultiSig checker flags fVerify).cost ≤ bound := by
  unfold opCheckMultiSig
  refine Metered.cost_free_bind_le fun _ _ => Metered.cost_free_bind_le fun keys read =>
    Metered.cost_free_bind_le fun _ inRange => ?_
  have limited : CScriptNum.getint keys ≤ 20 := by
    have both := (meets_failIf _ _).of_ok inRange
    simp only [Bool.or_eq_false_iff, decide_eq_false_iff_not, gt_iff_lt, not_lt] at both
    exact both.2
  refine Metered.cost_free_bind_le fun _ _ => Metered.cost_free_bind_le fun _ _ =>
    Metered.cost_free_bind_le fun sigs _ => Metered.cost_free_bind_le fun _ _ =>
      Metered.cost_free_bind_le fun _ _ => Metered.cost_free_bind_le fun scriptCode _ => ?_
  refine Metered.cost_bind_free_le
    ((cost_multiSigLoop_le _ _ _ _ _ _).trans (enough keys read limited)) fun fSuccess _ => ?_
  exact Metered.cost_free_bind_le fun _ _ => Metered.cost_free_bind_le fun _ _ =>
    Metered.cost_free_bind_le fun _ _ => Metered.cost_free_bind_le fun _ _ =>
      Metered.cost_free_bind_le fun _ _ => Metered.cost_free_bind_le fun _ _ => Nat.le_refl 0

/-- What an instruction may add to the count: `GetSigOpCount` after
`lastOpcode`. -/
def counted (lastOpcode opcode : UInt8) : Nat :=
  if opcode = OP_CHECKSIG ∨ opcode = OP_CHECKSIGVERIFY then 1
  else if opcode = OP_CHECKMULTISIG ∨ opcode = OP_CHECKMULTISIGVERIFY then
    if OP_1 ≤ lastOpcode ∧ lastOpcode ≤ OP_16 then lastOpcode.toNat - (OP_1.toNat - 1) else 20
  else 0

theorem sigOpLoop_of_getOp {script rest : CScript} {opcode lastOpcode : UInt8} {data : List UInt8}
    (passes : Nat) (read : getOp script = some (opcode, data, rest)) :
    sigOpLoop true (passes + 1) lastOpcode script =
      counted lastOpcode opcode + sigOpLoop true passes opcode rest := by
  simp only [sigOpLoop, read, counted, true_and]

/-- With a small number on top, `OP_CHECKMULTISIG` has that many keys. -/
theorem cost_opCheckMultiSig_le_counted {lastOpcode : UInt8} (fVerify : Bool)
    (remembers : machine.Remembers lastOpcode) (executed : machine.fExec = true) :
    (machine.opCheckMultiSig checker flags fVerify).cost ≤ counted lastOpcode OP_CHECKMULTISIG := by
  refine cost_opCheckMultiSig_le fVerify machine fun bn read limited => ?_
  have multi : counted lastOpcode OP_CHECKMULTISIG =
      if OP_1 ≤ lastOpcode ∧ lastOpcode ≤ OP_16 then lastOpcode.toNat - 80 else 20 := rfl
  rw [multi]
  split
  · rename_i small
    obtain ⟨rest, top⟩ := remembers small.1 small.2 executed
    have lower : 81 ≤ lastOpcode.toNat := small.1
    have upper : lastOpcode.toNat ≤ 96 := small.2
    rw [Stack.number, top] at read
    have value : bn = lastOpcode.toNat - 80 := by
      have exact := (serialize_small small.1 small.2).2 (hasFlag flags SCRIPT_VERIFY_MINIMALDATA)
      exact Except.ok.inj (read.symm.trans exact)
    have int : CScriptNum.getint bn = bn := by
      unfold CScriptNum.getint CScriptNum.intMax CScriptNum.intMin
      split
      · omega
      · split <;> omega
    rw [int]
    omega
  · omega

/-- The opcodes that call `CheckSig` have the numbers that are counted. -/
theorem cost_execute_le {lastOpcode : UInt8} (opcode : UInt8)
    (remembers : machine.Remembers lastOpcode) (executed : machine.fExec = true) :
    (machine.execute hashes checker flags (Opcode.ofByte opcode)).cost ≤
      counted lastOpcode opcode := by
  have byte := byte_of_ofByte opcode
  cases decoded : Opcode.ofByte opcode with
  | OP_CHECKSIG =>
      rw [byte.1 decoded]
      exact cost_opCheckSig_le false machine
  | OP_CHECKSIGVERIFY =>
      rw [byte.2.1 decoded]
      exact cost_opCheckSig_le true machine
  | OP_CHECKMULTISIG =>
      rw [byte.2.2.1 decoded]
      exact cost_opCheckMultiSig_le_counted false remembers executed
  | OP_CHECKMULTISIGVERIFY =>
      rw [byte.2.2.2 decoded]
      exact cost_opCheckMultiSig_le_counted true remembers executed
  | _ => exact Nat.zero_le _

/-- Conditionals that run while nothing is executed cost nothing. -/
theorem cost_execute_conditional {opcode : UInt8} (high : opcode ≤ OP_ENDIF) :
    (machine.execute hashes checker flags (Opcode.ofByte opcode)).cost = 0 := by
  have byte := byte_of_ofByte opcode
  have upper : opcode.toNat ≤ 104 := high
  cases decoded : Opcode.ofByte opcode with
  | OP_CHECKSIG =>
      rw [byte.1 decoded] at upper
      exact absurd upper (by decide)
  | OP_CHECKSIGVERIFY =>
      rw [byte.2.1 decoded] at upper
      exact absurd upper (by decide)
  | OP_CHECKMULTISIG =>
      rw [byte.2.2.1 decoded] at upper
      exact absurd upper (by decide)
  | OP_CHECKMULTISIGVERIFY =>
      rw [byte.2.2.2 decoded] at upper
      exact absurd upper (by decide)
  | _ => rfl

theorem cost_perform_le {lastOpcode : UInt8} (opcode : UInt8) (vchPushValue : Valtype)
    (remembers : machine.Remembers lastOpcode) :
    (machine.perform hashes checker flags opcode vchPushValue).cost ≤
      counted lastOpcode opcode := by
  unfold perform
  split
  · exact Nat.zero_le _
  · split
    · rename_i runs
      cases executed : machine.fExec with
      | true => exact cost_execute_le opcode remembers executed
      | false =>
          rw [executed, Bool.false_or, Bool.and_eq_true, decide_eq_true_eq,
            decide_eq_true_eq] at runs
          rw [cost_execute_conditional runs.2]
          exact Nat.zero_le _
    · exact Nat.zero_le _

theorem pc_of_opIf (negated : Bool) :
    Meets (fun _ => True) (fun after : Machine => after.pc = machine.pc)
      (machine.opIf negated) :=
  Meets.ite
    (fun _ => Meets.any fun _ => Meets.any fun _ => Meets.any fun _ => Meets.pure rfl)
    fun _ => Meets.pure rfl

theorem pc_of_opCheckSig (fVerify : Bool) :
    Meets (fun _ => True) (fun after : Machine => after.pc = machine.pc)
      (machine.opCheckSig checker flags fVerify).result := by
  simp only [opCheckSig, Metered.result_bind, Metered.result_free]
  exact Meets.any fun _ => Meets.any fun _ => Meets.any fun _ => Meets.any fun _ =>
    Meets.any fun _ => Meets.any fun _ => Meets.any fun _ => Meets.any fun _ =>
      Meets.any fun _ => Meets.pure rfl

theorem pc_of_opCheckMultiSig (fVerify : Bool) :
    Meets (fun _ => True) (fun after : Machine => after.pc = machine.pc)
      (machine.opCheckMultiSig checker flags fVerify).result := by
  simp only [opCheckMultiSig, Metered.result_bind, Metered.result_free]
  exact Meets.any fun _ => Meets.any fun _ => Meets.any fun _ => Meets.any fun _ =>
    Meets.any fun _ => Meets.any fun _ => Meets.any fun _ => Meets.any fun _ =>
      Meets.any fun _ => Meets.any fun _ => Meets.any fun _ => Meets.any fun _ =>
        Meets.any fun _ => Meets.any fun _ => Meets.any fun _ => Meets.any fun _ => Meets.pure rfl

/-- Whatever an instruction does, it leaves the place in the script alone. -/
theorem pc_of_execute {after : Machine} {opcode : Opcode}
    (returns : (machine.execute hashes checker flags opcode).result = .ok after) :
    after.pc = machine.pc := by
  have kept : Meets (fun _ => True) (fun after : Machine => after.pc = machine.pc)
      (machine.execute hashes checker flags opcode).result := by
    cases opcode with
    | onStack op => exact Meets.any fun _ => Meets.pure rfl
    | OP_NOP => exact Meets.pure rfl
    | OP_NOP1_NOP10 => exact Meets.any fun _ => Meets.pure rfl
    | OP_IF => exact pc_of_opIf false
    | OP_NOTIF => exact pc_of_opIf true
    | OP_ELSE =>
        unfold execute opElse
        cases machine.vfExec <;> trivial
    | OP_ENDIF =>
        unfold execute opEndIf
        cases machine.vfExec <;> trivial
    | OP_RETURN => exact trivial
    | OP_TOALTSTACK =>
        exact Meets.any fun _ => Meets.any fun _ => Meets.any fun _ => Meets.pure rfl
    | OP_FROMALTSTACK =>
        exact Meets.any fun _ => Meets.any fun _ => Meets.any fun _ => Meets.pure rfl
    | OP_CODESEPARATOR => exact Meets.pure rfl
    | OP_CHECKSIG => exact pc_of_opCheckSig false
    | OP_CHECKSIGVERIFY => exact pc_of_opCheckSig true
    | OP_CHECKMULTISIG => exact pc_of_opCheckMultiSig false
    | OP_CHECKMULTISIGVERIFY => exact pc_of_opCheckMultiSig true
    | unknown => exact trivial
  exact kept.of_ok returns

theorem pc_of_perform {after : Machine} {opcode : UInt8} {vchPushValue : Valtype}
    (returns : (machine.perform hashes checker flags opcode vchPushValue).result = .ok after) :
    after.pc = machine.pc := by
  unfold perform at returns
  split at returns
  · obtain ⟨_, _, done⟩ := bind_eq_ok.mp returns
    cases done
    rfl
  · split at returns
    · exact pc_of_execute returns
    · cases returns
      rfl

theorem enter_eq_ok {after : Machine} {opcode : UInt8} {vchPushValue : Valtype} {rest : CScript}
    (returns : machine.enter opcode vchPushValue rest = .ok after) :
    after.pc = rest ∧ after.stack = machine.stack ∧ after.vfExec = machine.vfExec := by
  obtain ⟨_, _, counted⟩ := bind_eq_ok.mp returns
  obtain ⟨_, _, enabled⟩ := bind_eq_ok.mp counted
  obtain ⟨_, _, done⟩ := bind_eq_ok.mp enabled
  cases done
  exact ⟨rfl, rfl, rfl⟩

/-- A pass that returns: what was read, admitted and performed. -/
theorem step_eq_ok {after : Machine}
    (returns : (machine.step hashes checker flags).result = .ok after) :
    ∃ opcode data rest admitted, getOp machine.pc = some (opcode, data, rest) ∧
      machine.enter opcode data rest = .ok admitted ∧
      (admitted.perform hashes checker flags opcode data).result = .ok after := by
  unfold step at returns
  cases read : getOp machine.pc with
  | none =>
      rw [read] at returns
      contradiction
  | some instruction =>
      obtain ⟨opcode, data, rest⟩ := instruction
      rw [read] at returns
      simp only [Metered.result_bind, Metered.result_free] at returns
      obtain ⟨admitted, admits, performed⟩ := bind_eq_ok.mp returns
      obtain ⟨last, performs, sized⟩ := bind_eq_ok.mp performed
      obtain ⟨_, _, done⟩ := bind_eq_ok.mp sized
      cases done
      exact ⟨opcode, data, rest, admitted, rfl, admits, performs⟩

theorem fExec_eq_of_vfExec {other : Machine} (same : other.vfExec = machine.vfExec) :
    other.fExec = machine.fExec := by
  rw [fExec, fExec, same]

/-- `OP_1` to `OP_16` leave their number on top when they are executed. -/
theorem remembers_of_perform {after : Machine} {opcode : UInt8} {data : Valtype}
    (returns : (machine.perform hashes checker flags opcode data).result = .ok after) :
    after.Remembers opcode := by
  intro low high executed
  have afterPushes : OP_PUSHDATA4 < OP_1 := by decide
  have beforeIf : OP_16 < OP_IF := by decide
  have notData : ¬opcode ≤ OP_PUSHDATA4 := UInt8.not_le.mpr (UInt8.lt_of_lt_of_le afterPushes low)
  have notConditional : ¬OP_IF ≤ opcode := UInt8.not_le.mpr (UInt8.lt_of_le_of_lt high beforeIf)
  unfold perform at returns
  simp only [notData, notConditional, decide_false, Bool.and_false, Bool.false_and,
    Bool.or_false, Bool.false_eq_true, if_false] at returns
  cases runs : machine.fExec with
  | false =>
      rw [runs] at returns
      cases returns
      rw [runs] at executed
      contradiction
  | true =>
      rw [runs, if_pos rfl, ofByte_small low high] at returns
      obtain ⟨stack, pushed, done⟩ := bind_eq_ok.mp returns
      cases done
      obtain ⟨vch, serialized, isStack⟩ := bind_eq_ok.mp pushed
      rw [(serialize_small low high).1] at serialized
      cases serialized
      cases isStack
      exact ⟨machine.stack, rfl⟩

theorem cost_step_le {opcode lastOpcode : UInt8} {data : List UInt8} {rest : CScript}
    (read : getOp machine.pc = some (opcode, data, rest))
    (remembers : machine.Remembers lastOpcode) :
    (machine.step hashes checker flags).cost ≤ counted lastOpcode opcode := by
  unfold step
  rw [read]
  refine Metered.cost_free_bind_le fun admitted admits => ?_
  obtain ⟨_, sameStack, sameExec⟩ := enter_eq_ok admits
  have still : admitted.Remembers lastOpcode := by
    intro low high executed
    rw [fExec_eq_of_vfExec sameExec] at executed
    rw [sameStack]
    exact remembers low high executed
  exact Metered.cost_bind_free_le (cost_perform_le opcode data still) fun _ _ =>
    Metered.cost_free_bind_le fun _ _ => Nat.le_refl 0

/-- The calls of the loop are bounded by the count over what is left of the
script. -/
theorem cost_loop_le (passes : Nat) {lastOpcode : UInt8}
    (remembers : machine.Remembers lastOpcode) :
    (machine.loop hashes checker flags passes).cost ≤
      sigOpLoop true passes lastOpcode machine.pc := by
  induction passes generalizing machine lastOpcode with
  | zero =>
      unfold loop
      split <;> exact Nat.le_refl 0
  | succ passes ih =>
      by_cases ended : machine.pc = []
      · rw [loop_of_nil _ ended]
        exact Nat.zero_le _
      · rw [loop_of_ne_nil _ ended]
        cases read : getOp machine.pc with
        | none =>
            have stops : machine.step hashes checker flags =
                Metered.free (.error (.fail .BAD_OPCODE)) := by
              unfold step
              rw [read]
            rw [stops]
            exact Metered.cost_free_bind_le fun _ returns => by cases returns
        | some instruction =>
            obtain ⟨opcode, data, rest⟩ := instruction
            rw [sigOpLoop_of_getOp passes read]
            refine Metered.cost_bind_le (cost_step_le read remembers) fun after returns => ?_
            obtain ⟨opcode', data', rest', admitted, read', admits, performs⟩ := step_eq_ok returns
            rw [read] at read'
            cases read'
            have place : after.pc = rest := by
              rw [pc_of_perform performs, (enter_eq_ok admits).1]
            rw [← place]
            exact ih (remembers_of_perform performs)

end Machine

/-- `EvalScript` calls `CheckSig` at most as often as the script counts. -/
theorem cost_evalScript_le (stack : Stack) (script : CScript) :
    (evalScript hashes checker flags stack script).cost ≤ getSigOpCount script true := by
  have forgets : (Machine.start stack script).Remembers OP_INVALIDOPCODE :=
    fun _ high => absurd high (by decide)
  have body : (evalScriptBody hashes checker flags stack script).cost ≤
      getSigOpCount script true := by
    unfold evalScriptBody
    exact Metered.cost_free_bind_le fun _ _ =>
      Metered.cost_bind_free_le (Machine.cost_loop_le script.length forgets) fun _ _ =>
        Metered.cost_free_bind_le fun _ _ => Nat.le_refl 0
  exact body

end Lycancoin
