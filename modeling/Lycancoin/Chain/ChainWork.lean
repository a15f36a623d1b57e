import Lycancoin.Chain.Retarget

namespace Lycancoin

open Data Std

section Proof

variable {block : CBlockIndex}

/-- The targets that `GetBlockProof` counts no work for. -/
def Unusable (nBits : UInt32) : Prop :=
  (setCompact nBits).fNegative = true ∨ (setCompact nBits).fOverflow = true ∨ targetOf nBits = 0

theorem targetOf_succ_lt (nBits : UInt32) : targetOf nBits + 1 < 2 ^ 256 := by
  have room := (wordOf_le nBits).trans_lt (mantissaOf_lt nBits)
  rw [targetOf, setCompact_value, magnitudeOf_eq]
  by_cases short : exponentOf nBits ≤ 3
  · rw [Nat.sub_eq_zero_of_le short, Nat.mul_zero, pow_zero, Nat.mul_one,
      Nat.mod_eq_of_lt (by omega)]
    omega
  · obtain ⟨shift, known⟩ := Nat.exists_eq_add_one_of_ne_zero
      (show exponentOf nBits - 3 ≠ 0 by omega)
    have even : 2 ∣ wordOf nBits * 2 ^ (8 * (exponentOf nBits - 3)) % 2 ^ 256 :=
      (Nat.dvd_mod_iff (by decide)).mpr
        ((dvd_pow_self 2 (by omega)).mul_left (wordOf nBits))
    have below := Nat.mod_lt (wordOf nBits * 2 ^ (8 * (exponentOf nBits - 3))) (Nat.two_pow_pos 256)
    omega

theorem getBlockProof_of_unusable (unusable : Unusable block.nBits) : getBlockProof block = 0 := by
  have flagged : ((setCompact block.nBits).fNegative || (setCompact block.nBits).fOverflow ||
      (setCompact block.nBits).value == 0) = true := by
    rcases unusable with negative | overflow | zero
    · simp [negative]
    · simp [overflow]
    · have value : (setCompact block.nBits).value = 0 := BitVec.eq_of_toNat_eq zero
      simp [value]
  rw [getBlockProof]
  exact if_pos flagged

/-- The complement gives the quotient that cannot be computed directly. -/
theorem getBlockProof_of_usable (usable : ¬ Unusable block.nBits) :
    (getBlockProof block).toNat = 2 ^ 256 / (targetOf block.nBits + 1) := by
  simp only [Unusable, not_or, Bool.not_eq_true] at usable
  obtain ⟨negative, overflow, positive⟩ := usable
  have room := targetOf_succ_lt block.nBits
  have value : ((setCompact block.nBits).value == 0) = false := by
    rw [beq_eq_false_iff_ne]
    intro zero
    exact positive (by rw [targetOf, zero]; rfl)
  have known : getBlockProof block =
      ~~~(setCompact block.nBits).value / ((setCompact block.nBits).value + 1) + 1 := by
    rw [getBlockProof]
    exact if_neg (by rw [negative, overflow, value]; decide)
  have successor : ((setCompact block.nBits).value + 1).toNat = targetOf block.nBits + 1 := by
    rw [BitVec.toNat_add]
    exact Nat.mod_eq_of_lt room
  have rest : 2 ^ 256 - 1 - targetOf block.nBits + (targetOf block.nBits + 1) = 2 ^ 256 := by omega
  have quotient : (2 ^ 256 - 1 - targetOf block.nBits) / (targetOf block.nBits + 1) + 1 =
      2 ^ 256 / (targetOf block.nBits + 1) := by
    rw [← Nat.add_div_right _ (Nat.succ_pos _), rest]
  have half : 2 ^ 256 / (targetOf block.nBits + 1) ≤ 2 ^ 256 / 2 :=
    Nat.div_le_div_left (by omega) (by decide)
  rw [known, BitVec.toNat_add, BitVec.toNat_udiv, successor, BitVec.toNat_not]
  change ((2 ^ 256 - 1 - targetOf block.nBits) / (targetOf block.nBits + 1) + 1) % 2 ^ 256 = _
  rw [quotient]
  exact Nat.mod_eq_of_lt (by omega)

theorem getBlockProof_pos (usable : ¬ Unusable block.nBits) : 0 < (getBlockProof block).toNat := by
  have room := targetOf_succ_lt block.nBits
  rw [getBlockProof_of_usable usable]
  exact Nat.div_pos (by omega) (Nat.succ_pos _)

theorem not_unusable_of_inRange {params : Consensus.Params} {nBits : UInt32}
    (inRange : TargetInRange params nBits) : ¬ Unusable nBits := by
  have positive := targetOf_pos inRange
  rintro (negative | overflow | zero)
  · simp [inRange.1] at negative
  · simp [inRange.2.1] at overflow
  · omega

/-- `GetBlockProof` of a target, on limbs. -/
def blockProofLimbs (bnTarget : BaseUint 8) : Option (BaseUint 8) :=
  (BaseUint.div (BaseUint.complement bnTarget)
    (BaseUint.add bnTarget (BaseUint.ofUInt64 8 1))).map
      fun quotient => BaseUint.add quotient (BaseUint.ofUInt64 8 1)

/-- The limbs give the proof, without a division by zero. -/
theorem blockProofLimbs_eq (usable : ¬ Unusable block.nBits) :
    ∃ proof, blockProofLimbs (BaseUint.setCompact block.nBits).value = some proof ∧
      proof.toNat = (getBlockProof block).toNat := by
  have value : (BaseUint.setCompact block.nBits).value.toNat = targetOf block.nBits :=
    (limbs_setCompact block.nBits).1
  have room := targetOf_succ_lt block.nBits
  have one : (BaseUint.ofUInt64 8 1).toNat = 1 := BaseUint.toNat_ofUInt64 (by decide) 1
  have successor : (BaseUint.add (BaseUint.setCompact block.nBits).value
      (BaseUint.ofUInt64 8 1)).toNat = targetOf block.nBits + 1 := by
    rw [BaseUint.toNat_add, value, one]
    exact Nat.mod_eq_of_lt room
  have whole := BaseUint.toNat_complement (BaseUint.setCompact block.nBits).value
  rw [value] at whole
  have quotients := BaseUint.div_spec (BaseUint.complement (BaseUint.setCompact block.nBits).value)
    (BaseUint.add (BaseUint.setCompact block.nBits).value (BaseUint.ofUInt64 8 1))
  rw [successor] at quotients
  obtain ⟨_, quotient, divided, exact⟩ := quotients.resolve_left fun zero => by omega
  refine ⟨_, by rw [blockProofLimbs, divided]; rfl, ?_⟩
  have rest : (BaseUint.complement (BaseUint.setCompact block.nBits).value).toNat +
      (targetOf block.nBits + 1) = 2 ^ 256 := by omega
  have below := (getBlockProof block).isLt
  rw [BaseUint.toNat_add, one, exact, ← Nat.add_div_right _ (Nat.succ_pos _), rest,
    ← getBlockProof_of_usable usable]
  exact Nat.mod_eq_of_lt below

end Proof

/-- The work that the proofs of some blocks are worth together. -/
def sumProofs (chain : List CBlockIndex) : Nat :=
  (chain.map fun entry => (getBlockProof entry).toNat).sum

@[simp] theorem sumProofs_cons (entry : CBlockIndex) (chain : List CBlockIndex) :
    sumProofs (entry :: chain) = (getBlockProof entry).toNat + sumProofs chain := List.sum_cons

def WorkAdds : List CBlockIndex → Prop
  | [] => True
  | entry :: chain =>
      entry.nChainWork = (chain.head?.map CBlockIndex.nChainWork).getD 0 + getBlockProof entry ∧
        WorkAdds chain

section Chains

variable {chain : List CBlockIndex} {entry : CBlockIndex}

theorem WorkAdds.nChainWork_eq (adds : WorkAdds (entry :: chain))
    (room : sumProofs (entry :: chain) < 2 ^ 256) :
    entry.nChainWork.toNat = sumProofs (entry :: chain) := by
  induction chain generalizing entry with
  | nil =>
      rw [adds.1, sumProofs_cons]
      simp [sumProofs]
  | cons earlier chain ih =>
      rw [sumProofs_cons] at room ⊢
      have before := ih adds.2 (by omega)
      have added := adds.1
      simp only [List.head?_cons, Option.map_some, Option.getD_some] at added
      rw [added, BitVec.toNat_add, before, Nat.add_comm]
      exact Nat.mod_eq_of_lt room

theorem WorkAdds.le_sumProofs (adds : WorkAdds chain) (room : sumProofs chain < 2 ^ 256) :
    ∀ earlier ∈ chain, earlier.nChainWork.toNat ≤ sumProofs chain := by
  induction chain with
  | nil => simp
  | cons entry chain ih =>
      intro earlier member
      rcases List.mem_cons.mp member with rfl | older
      · exact (adds.nChainWork_eq room).le
      · rw [sumProofs_cons] at room ⊢
        have := ih adds.2 (by omega) earlier older
        omega

/-- Work strictly grows along the blocks whose targets count. -/
theorem WorkAdds.pairwise (adds : WorkAdds chain) (room : sumProofs chain < 2 ^ 256) (count : Nat)
    (usable : ∀ entry ∈ chain.take count, ¬ Unusable entry.nBits) :
    (chain.take count).Pairwise fun later earlier => earlier.nChainWork < later.nChainWork := by
  induction chain generalizing count with
  | nil => simp
  | cons entry chain ih =>
      cases count with
      | zero => simp
      | succ count =>
          have total := adds.nChainWork_eq room
          rw [sumProofs_cons] at room total
          rw [List.take_succ_cons] at usable ⊢
          have proof := getBlockProof_pos (usable entry List.mem_cons_self)
          refine List.Pairwise.cons (fun earlier member => ?_) (ih adds.2 (by omega) count
            fun earlier member => usable earlier (List.mem_cons_of_mem entry member))
          have below := adds.2.le_sumProofs (by omega) earlier (List.mem_of_mem_take member)
          rw [BitVec.lt_def]
          omega

end Chains

structure WorkLinked (index : BlockMap) : Prop where
  indexed : PredecessorsIndexed index
  work : ∀ (hash : Uint256) (entry : CBlockIndex), index[hash]? = some entry →
    entry.nChainWork =
      ((entry.pprev.bind fun prev => index[prev]?).map CBlockIndex.nChainWork).getD 0 +
        getBlockProof entry

section Index

variable {index : BlockMap} {hash : Uint256} {entry : CBlockIndex}

theorem WorkLinked.empty : WorkLinked ∅ :=
  ⟨fun _ _ found => by simp at found, fun _ _ found => by simp at found⟩

theorem newBlockIndex_of_orphan {block : CBlockHeader} (absent : index[block.hashPrevBlock]? = none) :
    newBlockIndex index block =
      { CBlockIndex.ofHeader block with
        nChainWork := 0 + getBlockProof (CBlockIndex.ofHeader block)
        nStatus := BlockStatus.null.raiseValidity .tree } := by
  simp only [newBlockIndex, absent]
  rfl

/-- A new entry counts its own proof on top of the work of its predecessor. -/
theorem WorkLinked.insert (linked : WorkLinked index) {new : Uint256} (unknown : index[new]? = none)
    (block : CBlockHeader) : WorkLinked (index.insert new (newBlockIndex index block)) := by
  generalize built : newBlockIndex index block = value
  have kept : ∀ {hash : Uint256} {entry : CBlockIndex}, index[hash]? = some entry →
      (index.insert new value)[hash]? = some entry := fun present =>
    getElem?_insert_of_present unknown present _
  have entries : ∀ (hash : Uint256) (entry : CBlockIndex),
      (index.insert new value)[hash]? = some entry → entry = value ∨ index[hash]? = some entry := by
    intro hash entry found
    rw [ExtTreeMap.getElem?_insert] at found
    split at found
    · exact .inl (Option.some.inj found).symm
    · exact .inr found
  constructor
  · intro hash entry found
    rcases entries hash entry found with rfl | old
    · cases parent : index[block.hashPrevBlock]? with
      | none =>
          rw [← built, newBlockIndex_of_orphan parent]
          rfl
      | some pindexPrev =>
          have known := newBlockIndex_of_parent parent
          rw [built] at known
          have pprev : entry.pprev = some block.hashPrevBlock := by rw [known]
          simp only [pprev]
          exact ⟨pindexPrev, kept parent, by rw [known]⟩
    · have predecessor := linked.indexed hash entry old
      cases pprev : entry.pprev with
      | none => simpa only [pprev] using predecessor
      | some prev =>
          simp only [pprev] at predecessor
          obtain ⟨parent, present, above⟩ := predecessor
          exact ⟨parent, kept present, above⟩
  · intro hash entry found
    rcases entries hash entry found with rfl | old
    · cases parent : index[block.hashPrevBlock]? with
      | none =>
          rw [← built, newBlockIndex_of_orphan parent]
          rfl
      | some pindexPrev =>
          have known := newBlockIndex_of_parent parent
          rw [built] at known
          have pprev : entry.pprev = some block.hashPrevBlock := by rw [known]
          rw [pprev, Option.bind_some, kept parent]
          rw [known]
          rfl
    · have work := linked.work hash entry old
      have predecessor := linked.indexed hash entry old
      cases pprev : entry.pprev with
      | none =>
          rw [pprev] at work
          exact work
      | some prev =>
          simp only [pprev] at predecessor
          obtain ⟨parent, present, _⟩ := predecessor
          rw [pprev, Option.bind_some, present] at work
          rw [Option.bind_some, kept present]
          exact work

/-- `AddToBlockIndex` links the new entry to the work of its predecessor. -/
theorem WorkLinked.add {env : Environment} {state : HeaderIndex}
    (linked : WorkLinked state.mapBlockIndex) (block : CBlockHeader) :
    WorkLinked (addToBlockIndex env state block).mapBlockIndex := by
  cases unknown : state.mapBlockIndex[env.hashes.getHash block]? with
  | some known =>
      have present : env.hashes.getHash block ∈ state.mapBlockIndex := by
        rw [ExtTreeMap.mem_iff_isSome_getElem?, unknown]
        rfl
      rw [addToBlockIndex, if_pos present]
      exact linked
  | none =>
      have after : (addToBlockIndex env state block).mapBlockIndex =
          state.mapBlockIndex.insert (env.hashes.getHash block)
            (newBlockIndex state.mapBlockIndex block) :=
        @addToBlockIndex_of_unknown env state ⟨0, block⟩ unknown
      rw [after]
      exact linked.insert unknown block

/-- Along the way to genesis the work adds up. -/
theorem WorkLinked.workAdds (linked : WorkLinked index) (present : index[hash]? = some entry) :
    WorkAdds (chainTo index hash) ∧ (chainTo index hash).head? = some entry := by
  simp only [chainTo, present]
  generalize heightEq : entry.nHeight = height
  induction height generalizing hash entry with
  | zero =>
      have predecessor := linked.indexed hash entry present
      have work := linked.work hash entry present
      cases pprev : entry.pprev with
      | none =>
          rw [pprev] at work
          simp only [chainFrom, present, pprev]
          exact ⟨⟨work, trivial⟩, rfl⟩
      | some prev =>
          simp only [pprev] at predecessor
          obtain ⟨parent, _, above⟩ := predecessor
          omega
  | succ height ih =>
      have predecessor := linked.indexed hash entry present
      have work := linked.work hash entry present
      cases pprev : entry.pprev with
      | none =>
          simp only [pprev] at predecessor
          omega
      | some prev =>
          simp only [pprev] at predecessor
          obtain ⟨parent, parentPresent, above⟩ := predecessor
          obtain ⟨adds, head⟩ := ih parentPresent (by omega)
          rw [pprev] at work
          simp only [Option.bind_some, parentPresent] at work
          rw [chainFrom]
          simp only [present, pprev]
          exact ⟨⟨by rw [head]; exact work, adds⟩, rfl⟩

end Index

/-- The index after a sequence of calls of `AddToBlockIndex`. -/
def addedIndex (env : Environment) (blocks : List CBlockHeader) : HeaderIndex :=
  blocks.foldl (addToBlockIndex env) { mapBlockIndex := ∅, pindexBestHeader := none }

theorem workLinked_addedIndex (env : Environment) (blocks : List CBlockHeader) :
    WorkLinked (addedIndex env blocks).mapBlockIndex := by
  induction blocks using List.reverseRecOn with
  | nil => exact WorkLinked.empty
  | append_singleton blocks block ih =>
      rw [addedIndex, List.foldl_append]
      exact ih.add block

/-- `GetBlockProof` is the number of hashes that the target takes, and the work grows
from block to block along every path of the index. -/
theorem blockProof_chainWork (env : Environment) (blocks : List CBlockHeader) (hash : Uint256)
    (count : Nat) :
    (∀ block : CBlockIndex,
      (getBlockProof block = 0 ↔ Unusable block.nBits) ∧
      (¬ Unusable block.nBits →
        (getBlockProof block).toNat = 2 ^ 256 / (targetOf block.nBits + 1) ∧
        1 ≤ (getBlockProof block).toNat)) ∧
    (∀ block other : CBlockIndex, ¬ Unusable block.nBits → ¬ Unusable other.nBits →
      targetOf block.nBits ≤ targetOf other.nBits → getBlockProof other ≤ getBlockProof block) ∧
    ((∀ entry ∈ (chainTo (addedIndex env blocks).mapBlockIndex hash).take count,
        checkProofOfWork (env.hashes.getPoWHash entry.getBlockHeader) entry.nBits
          env.consensus = true) →
      sumProofs (chainTo (addedIndex env blocks).mapBlockIndex hash) < 2 ^ 256 →
      ((chainTo (addedIndex env blocks).mapBlockIndex hash).take count).Pairwise
        fun later earlier => earlier.nChainWork < later.nChainWork) := by
  refine ⟨fun block => ⟨⟨fun none => ?_, getBlockProof_of_unusable⟩, fun usable =>
    ⟨getBlockProof_of_usable usable, getBlockProof_pos usable⟩⟩, ?_, ?_⟩
  · by_contra usable
    have positive := getBlockProof_pos usable
    rw [none] at positive
    exact absurd positive (by decide)
  · intro block other usable usable' order
    rw [BitVec.le_def, getBlockProof_of_usable usable, getBlockProof_of_usable usable']
    exact Nat.div_le_div_left (by omega) (Nat.succ_pos _)
  · intro passed room
    have linked := workLinked_addedIndex env blocks
    cases present : (addedIndex env blocks).mapBlockIndex[hash]? with
    | none => simp [chainTo, present]
    | some entry =>
        refine (linked.workAdds present).1.pairwise room count fun earlier member => ?_
        exact not_unusable_of_inRange (checkProofOfWork_iff.mp (passed earlier member))

end Lycancoin
