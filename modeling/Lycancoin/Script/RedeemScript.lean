import Lycancoin.Script.SigOpBound

namespace Lycancoin

open Lycancoin.Data CScript

variable {hashes : Hashes} {checker : BaseSignatureChecker} {flags : UInt32}

/-- What the last push of a script has left on the stack: its operand, or the
one byte of a small number, which is a script without signature operations. -/
def TopIs (data : List UInt8) (stack : Stack) : Prop :=
  stack = [] ∨ (∃ rest, stack = data :: rest) ∨
    data = [] ∧ ∃ byte rest, stack = [byte] :: rest ∧ getSigOpCount [byte] true = 0

theorem getOp_data_of_small {script rest : CScript} {opcode : UInt8} {data : List UInt8}
    (read : getOp script = some (opcode, data, rest)) (notData : ¬opcode ≤ OP_PUSHDATA4) :
    data = [] := by
  cases script with
  | nil => contradiction
  | cons first tail =>
      simp only [getOp] at read
      split at read
      · rename_i isData
        cases operand : pushSize first tail with
        | none =>
            rw [operand] at read
            contradiction
        | some sized =>
            rw [operand] at read
            simp only at read
            split at read
            · contradiction
            · cases read
              exact absurd isData notData
      · cases read
        rfl

/-- The small numbers that a script can push, with `OP_RESERVED` among them. -/
theorem ofByte_number {opcode : UInt8} (notData : ¬opcode ≤ OP_PUSHDATA4)
    (high : opcode ≤ OP_16) :
    Opcode.ofByte opcode = .unknown ∨
      ∃ value byte, Opcode.ofByte opcode = .onStack (.OP_N value) ∧
        CScriptNum.serialize value = .ok [byte] ∧ getSigOpCount [byte] true = 0 := by
  have lower : 78 < opcode.toNat := UInt8.not_le.mp notData
  have upper : opcode.toNat ≤ 96 := high
  have isByte : opcode = UInt8.ofNat opcode.toNat := by simp
  rw [isByte]
  generalize opcode.toNat = n at *
  by_cases reserved : n = 80
  · subst reserved
    exact Or.inl rfl
  · interval_cases n <;> first
      | exact absurd rfl reserved
      | exact Or.inr ⟨_, _, rfl, rfl, by decide⟩

namespace Machine

variable {machine : Machine}

theorem topIs_of_step {after : Machine} {opcode : UInt8} {data : List UInt8} {rest : CScript}
    (outside : machine.vfExec = []) (read : getOp machine.pc = some (opcode, data, rest))
    (isPush : opcode ≤ OP_16)
    (returns : (machine.step hashes checker flags).result = .ok after) :
    after.vfExec = [] ∧ after.pc = rest ∧ TopIs data after.stack := by
  obtain ⟨opcode', data', rest', admitted, read', admits, performs⟩ := step_eq_ok returns
  rw [read] at read'
  cases read'
  obtain ⟨place, _, sameExec⟩ := enter_eq_ok admits
  have placed : after.pc = rest := (pc_of_perform performs).trans place
  rw [outside] at sameExec
  have executed : admitted.fExec = true := by
    rw [fExec, sameExec]
    rfl
  unfold perform at performs
  rw [executed] at performs
  by_cases isData : opcode ≤ OP_PUSHDATA4
  · rw [if_pos (by simpa using isData)] at performs
    obtain ⟨_, _, done⟩ := bind_eq_ok.mp performs
    cases done
    exact ⟨sameExec, placed, Or.inr (Or.inl ⟨admitted.stack, rfl⟩)⟩
  · rw [if_neg (by simpa using isData), Bool.true_or, if_pos rfl] at performs
    rcases ofByte_number isData isPush with unknown | ⟨value, byte, decoded, serialized, free⟩
    · rw [unknown] at performs
      contradiction
    · rw [decoded] at performs
      obtain ⟨stack, pushed, done⟩ := bind_eq_ok.mp performs
      obtain ⟨vch, isVch, isStack⟩ := bind_eq_ok.mp pushed
      rw [serialized] at isVch
      cases isVch
      cases isStack
      cases done
      exact ⟨sameExec, placed,
        Or.inr (Or.inr ⟨getOp_data_of_small read isData, byte, admitted.stack, rfl, free⟩)⟩

/-- Running a script of pushes leaves what `GetSigOpCount` finds in it. -/
theorem lastPush_of_loop (passes : Nat) {data : List UInt8} {after : Machine}
    (outside : machine.vfExec = []) (top : TopIs data machine.stack)
    (pushes : isPushOnlyLoop passes machine.pc = true)
    (returns : (machine.loop hashes checker flags passes).result = .ok after) :
    ∃ last, lastPush passes data machine.pc = some last ∧ TopIs last after.stack := by
  induction passes generalizing machine data with
  | zero =>
      by_cases ended : machine.pc = []
      · rw [loop_of_nil _ ended] at returns
        cases returns
        exact ⟨data, rfl, top⟩
      · rw [loop, if_neg ended] at returns
        contradiction
  | succ passes ih =>
      by_cases ended : machine.pc = []
      · rw [loop_of_nil _ ended] at returns
        cases returns
        exact ⟨data, by rw [ended, lastPush], top⟩
      · rw [loop_of_ne_nil _ ended, Metered.result_bind] at returns
        obtain ⟨next, pass, rest⟩ := bind_eq_ok.mp returns
        obtain ⟨opcode, operand, script, _, read, _, _⟩ := step_eq_ok pass
        obtain ⟨byte, tail, isCons⟩ := List.exists_cons_of_ne_nil ended
        rw [isCons] at pushes read ⊢
        simp only [isPushOnlyLoop, read, Bool.and_eq_true, Bool.not_eq_true',
          decide_eq_false_iff_not] at pushes
        have isPush : opcode ≤ OP_16 := UInt8.not_lt.mp pushes.1
        obtain ⟨outside', placed, top'⟩ :=
          topIs_of_step outside (isCons ▸ read) isPush pass
        rw [← placed] at pushes
        obtain ⟨last, found, isTop⟩ := ih outside' top' pushes.2 rest
        refine ⟨last, ?_, isTop⟩
        simp only [lastPush, read]
        rw [if_neg pushes.1, ← placed]
        exact found

end Machine

theorem lastPush_of_evalScript {scriptSig : CScript} {stack : Stack}
    (pushes : scriptSig.isPushOnly = true)
    (returns : (evalScript hashes checker flags [] scriptSig).result = .ok stack) :
    ∃ last, lastPush scriptSig.length [] scriptSig = some last ∧ TopIs last stack := by
  simp only [evalScript] at returns
  cases body : (evalScriptBody hashes checker flags [] scriptSig).result with
  | error stop =>
      rw [body] at returns
      contradiction
  | ok machine =>
      rw [body] at returns
      cases returns
      simp only [evalScriptBody, Metered.result_bind, Metered.result_free] at body
      obtain ⟨_, _, rest⟩ := bind_eq_ok.mp body
      obtain ⟨last, run, close⟩ := bind_eq_ok.mp rest
      obtain ⟨_, _, done⟩ := bind_eq_ok.mp close
      cases done
      have pushes' : isPushOnlyLoop scriptSig.length (Machine.start [] scriptSig).pc = true :=
        pushes
      exact Machine.lastPush_of_loop scriptSig.length rfl (Or.inl rfl) pushes' run

/-- The `CheckSig` calls of `VerifyScript` while the redeem script runs. -/
def redeemChecks (hashes : Hashes) (checker : BaseSignatureChecker) (flags : UInt32)
    (scriptSig scriptPubKey : CScript) : Nat :=
  match (verifyOutputScript hashes checker flags scriptSig scriptPubKey).result with
  | .error _ => 0
  | .ok pair => (verifyP2SH hashes checker flags scriptSig scriptPubKey pair.1 pair.2).cost

theorem cost_verifyScript (scriptSig scriptPubKey : CScript) :
    (verifyScript hashes checker flags scriptSig scriptPubKey).cost =
      (verifyOutputScript hashes checker flags scriptSig scriptPubKey).cost +
        redeemChecks hashes checker flags scriptSig scriptPubKey := by
  unfold verifyScript redeemChecks
  cases output : (verifyOutputScript hashes checker flags scriptSig scriptPubKey).result with
  | error stop => exact Metered.cost_bind_of_error output
  | ok pair =>
      rw [Metered.cost_bind_of_ok output]
      congr 1
      cases redeem : (verifyP2SH hashes checker flags scriptSig scriptPubKey pair.1 pair.2).result with
      | error stop => exact Metered.cost_bind_of_error redeem
      | ok stack => exact Metered.cost_bind_of_ok redeem

theorem cost_verifyRedeemScript_le {last : List UInt8} {stackCopy : Stack}
    (top : TopIs last stackCopy) :
    (verifyRedeemScript hashes checker flags stackCopy).cost ≤ getSigOpCount last true := by
  have run : ∀ (stack : Stack) (script : CScript),
      (verifyRedeemScript hashes checker flags (script :: stack)).cost ≤
        getSigOpCount script true := fun stack script =>
    Metered.cost_bind_free_le (cost_evalScript_le stack script) fun _ _ =>
      Metered.cost_free_bind_le fun _ _ => Nat.le_refl 0
  rcases top with empty | ⟨rest, isData⟩ | ⟨_, byte, rest, isByte, free⟩
  · rw [empty]
    exact Nat.zero_le _
  · rw [isData]
    exact run rest last
  · rw [isByte]
    exact (run rest [byte]).trans (free.trans_le (Nat.zero_le _))

theorem redeemChecks_le {scriptSig scriptPubKey : CScript}
    (toHash : scriptPubKey.isPayToScriptHash = true) (pushes : scriptSig.isPushOnly = true) :
    redeemChecks hashes checker flags scriptSig scriptPubKey ≤
      getSigOpCountFor scriptPubKey scriptSig := by
  unfold redeemChecks
  cases output : (verifyOutputScript hashes checker flags scriptSig scriptPubKey).result with
  | error stop => exact Nat.zero_le _
  | ok pair =>
      simp only [verifyOutputScript, Metered.result_bind, Metered.result_free] at output
      obtain ⟨_, _, evaluated⟩ := bind_eq_ok.mp output
      obtain ⟨stackCopy, sigRun, evaluatedKey⟩ := bind_eq_ok.mp evaluated
      obtain ⟨stack, _, checked⟩ := bind_eq_ok.mp evaluatedKey
      obtain ⟨_, _, done⟩ := bind_eq_ok.mp checked
      cases done
      obtain ⟨last, found, top⟩ := lastPush_of_evalScript pushes sigRun
      have count : getSigOpCountFor scriptPubKey scriptSig = getSigOpCount last true := by
        unfold getSigOpCountFor
        rw [toHash, if_pos rfl, found]
      rw [count]
      change (verifyP2SH hashes checker flags scriptSig scriptPubKey stackCopy stack).cost ≤ _
      unfold verifyP2SH
      by_cases runs : runsRedeemScript flags scriptPubKey = true
      · rw [if_pos runs]
        exact Metered.cost_free_bind_le fun _ _ => cost_verifyRedeemScript_le top
      · rw [if_neg runs]
        exact Nat.zero_le _

/-- `EvalScript` calls `CheckSig` at most as often as the script counts, however
it ends; the redeem script of an output that pays to its hash does so at most
as often as the output counts with the `scriptSig`. -/
theorem checkSig_calls_le_sigOpCount (hashes : Hashes) (checker : BaseSignatureChecker)
    (flags : UInt32) :
    (∀ stack script, (evalScript hashes checker flags stack script).cost ≤
        getSigOpCount script true ∧
      getSigOpCount script true ≤ getSigOpCount script false) ∧
    ∀ scriptSig scriptPubKey,
      (verifyScript hashes checker flags scriptSig scriptPubKey).cost =
        (verifyOutputScript hashes checker flags scriptSig scriptPubKey).cost +
          redeemChecks hashes checker flags scriptSig scriptPubKey ∧
      (scriptPubKey.isPayToScriptHash = true → scriptSig.isPushOnly = true →
        redeemChecks hashes checker flags scriptSig scriptPubKey ≤
          getSigOpCountFor scriptPubKey scriptSig) :=
  ⟨fun stack script => ⟨cost_evalScript_le stack script, getSigOpCount_accurate_le script⟩,
    fun scriptSig scriptPubKey =>
      ⟨cost_verifyScript scriptSig scriptPubKey, redeemChecks_le⟩⟩

/-- Two signatures against three keys take three calls; the count is three. -/
example :
    (evalScript plainHashes oneSignatureChecker 0 [[], [1], [0x30], [2], [7], [8], [9]].reverse
      [0x53, 0xae]).cost = 3 ∧ getSigOpCount [0x53, 0xae] true = 3 := by
  decide

end Lycancoin
