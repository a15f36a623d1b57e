import Lycancoin.Chain.Activation

namespace Lycancoin

open Lycancoin.Data

namespace BlockTree

variable {context : NodeContext} {tree after : BlockTree} {best hash : Uint256}

section Disconnect

/-- Blocks that the active chain drops keep their entries. -/
theorem Activating.disconnectTip (activating : Activating context tree best) {pindexDelete : Uint256}
    (isTip : tree.tip = some pindexDelete) (notGenesis : pindexDelete ≠ context.hashGenesisBlock)
    (disconnected : tree.disconnectTip = some after) :
    Activating context after best ∧ Advance tree after ∧
      after.tip = tree.pprev pindexDelete ∧
      after.setBlockIndexCandidates = tree.setBlockIndexCandidates ∧
      after.mapBlockIndex = tree.mapBlockIndex := by
  obtain ⟨tip, isTip', chain⟩ := activating.active
  cases isTip.symm.trans isTip'
  have member : pindexDelete ∈ tree.chainActive := List.mem_of_mem_head? isTip
  have linked := activating.activeLinked pindexDelete member
  cases isParent : tree.pprev pindexDelete with
  | none => exact absurd (activating.root pindexDelete linked isParent) notGenesis
  | some pprev =>
      have path : tree.chainActive = pindexDelete :: tree.ancestry pprev := by
        rw [chain]
        exact activating.graded.path_of_parent isParent
      have stored : (tree.nStatus pindexDelete).haveData = true ∧
          after = { tree with chainActive := tree.ancestry pprev } := by
        rw [BlockTree.disconnectTip, path] at disconnected
        dsimp only at disconnected
        split at disconnected
        · rename_i readable
          exact ⟨(Bool.and_eq_true_iff.mp readable).1, (Option.some.inj disconnected).symm⟩
        · contradiction
      obtain ⟨haveData, rfl⟩ := stored
      obtain ⟨above, prevPath⟩ := activating.exists_ancestry_cons pprev
      have fewer : ∀ place ∈ tree.ancestry pprev, place ∈ tree.chainActive := fun place onPath => by
        rw [path]
        exact List.mem_cons_of_mem _ onPath
      refine ⟨⟨activating.graded, activating.root, activating.linked, activating.candidates,
        ⟨pprev, ?_, rfl⟩, fun place onPath => activating.activeLinked place (fewer place onPath),
        fun place onPath => activating.activeValid place (fewer place onPath), activating.blamed,
        ?_, activating.bestCandidate, ?_, activating.complete⟩, Advance.of_index_eq rfl rfl rfl, ?_, rfl, rfl⟩
      · rw [BlockTree.tip, prevPath]
        rfl
      · intro pair waits
        obtain ⟨isParent, stuck, notCandidate⟩ := activating.waiting pair waits
        refine ⟨isParent, stuck.imp_right ?_, notCandidate⟩
        rintro ⟨place, onPath, outside, missing⟩
        exact ⟨place, onPath, fun active => outside (fewer place active), missing⟩
      · intro place onPath
        obtain ⟨valid, connectable, available⟩ := activating.bestValid place onPath
        refine ⟨valid, connectable, ?_⟩
        rcases available with active | available
        · rw [path] at active
          rcases List.mem_cons.mp active with rfl | kept
          · exact Or.inr haveData
          · exact Or.inl kept
        · exact Or.inr available
      · rw [BlockTree.tip, prevPath]
        rfl

end Disconnect

section Connect

/-- The status that `ConnectTip` gives to a block that it connects. -/
theorem failed_validated (nStatus : BlockStatus) :
    ({ nStatus with haveUndo := true }.raiseValidity .scripts).failed = nStatus.failed ∧
      ({ nStatus with haveUndo := true }.raiseValidity .scripts).failedValid = nStatus.failedValid ∧
      ({ nStatus with haveUndo := true }.raiseValidity .scripts).haveData = nStatus.haveData ∧
      ({ nStatus with haveUndo := true }.raiseValidity .scripts).haveUndo = true := by
  unfold BlockStatus.raiseValidity
  split
  · exact ⟨rfl, rfl, rfl, rfl⟩
  · split <;> exact ⟨rfl, rfl, rfl, rfl⟩

theorem connectTip_of_rejected (isParent : tree.pprev hash = tree.tip)
    (haveData : (tree.nStatus hash).haveData = true) (rejected : context.rejected hash = true) :
    tree.connectTip context hash = some (false,
      (tree.editStatus hash fun nStatus => { nStatus with failedValid := true }).eraseCandidate
        hash) := by
  rw [connectTip, if_neg (not_not.mpr isParent), haveData]
  simp only [Bool.not_true, Bool.false_eq_true, if_false, if_pos rejected]

/-- A connected block gets its undo data and the status that goes with them. -/
def validated (context : NodeContext) (tree : BlockTree) (hash : Uint256) : BlockTree :=
  if hash = context.hashGenesisBlock then tree
  else
    tree.editStatus hash fun nStatus =>
      { nStatus with haveUndo := true }.raiseValidity .scripts

theorem connectTip_of_not_rejected (isParent : tree.pprev hash = tree.tip)
    (haveData : (tree.nStatus hash).haveData = true) (accepted : context.rejected hash = false) :
    tree.connectTip context hash =
      some (true, { validated context tree hash with chainActive := hash :: tree.chainActive }) := by
  rw [connectTip, if_neg (not_not.mpr isParent), haveData]
  simp only [Bool.not_true, Bool.false_eq_true, if_false, accepted]
  rfl

theorem advance_validated (known : hash ∈ tree.mapBlockIndex) :
    Advance tree (validated context tree hash) := by
  unfold validated
  split
  · exact Advance.refl tree
  · obtain ⟨failed, failedValid, haveData, haveUndo⟩ := failed_validated (tree.nStatus hash)
    exact Advance.editStatus known haveData (fun _ => haveUndo) (fun old => failedValid.trans old)
      fun old => failed.trans old

theorem failed_of_validated (tree : BlockTree) (hash other : Uint256) :
    ((validated context tree hash).nStatus other).failed = (tree.nStatus other).failed ∧
      ((validated context tree hash).nStatus other).failedValid =
        (tree.nStatus other).failedValid := by
  unfold validated
  split
  · exact ⟨rfl, rfl⟩
  · rw [nStatus_editStatus]
    split
    · rename_i same
      rw [same]
      exact ⟨(failed_validated _).1, (failed_validated _).2.1⟩
    · exact ⟨rfl, rfl⟩

/-- A block that `ConnectBlock` rejects is marked, and the chain stays. -/
theorem Activating.connectTip_rejected (activating : Activating context tree best)
    {tip : Uint256} (isTip : tree.tip = some tip) (isParent : tree.pprev hash = some tip)
    (connectable : Connectable tree hash) (outside : hash ∉ tree.chainActive)
    (rejected : context.rejected hash = true) :
    ∃ after, tree.connectTip context hash = some (false, after) ∧
      Activating context after best ∧ Advance tree after ∧ after.tip = tree.tip ∧
      (tree.nStatus hash).failedValid = false ∧ (after.nStatus hash).failedValid = true := by
  have known := mem_of_nChainTx_ne_zero connectable.linked
  have unmarked : (tree.nStatus hash).failedValid = false :=
    (Bool.or_eq_false_iff.mp connectable.valid).1
  set after := (tree.editStatus hash fun nStatus =>
    { nStatus with failedValid := true }).eraseCandidate hash with isAfter
  have statuses : ∀ other, after.nStatus other =
      if other = hash then { tree.nStatus hash with failedValid := true } else tree.nStatus other :=
    fun other => nStatus_editStatus tree hash other fun nStatus =>
      { nStatus with failedValid := true }
  have advance : Advance tree after := by
    have edited : Advance tree (tree.editStatus hash fun nStatus =>
        { nStatus with failedValid := true }) := by
      apply Advance.editStatus known rfl id
      · exact fun _ => rfl
      · exact fun _ => rfl
    exact edited.trans (Advance.of_index_eq rfl rfl rfl)
  have sameActive : after.chainActive = tree.chainActive := rfl
  have remaining : ∀ other, other ∈ after.setBlockIndexCandidates ↔
      other ∈ tree.setBlockIndexCandidates ∧ other ≠ hash := fun other =>
    mem_eraseCandidate (tree.editStatus hash _) hash other
  have others : ∀ other, other ≠ hash → after.nStatus other = tree.nStatus other := by
    intro other different
    rw [statuses, if_neg different]
  have notActive : ∀ other ∈ tree.chainActive, other ≠ hash := by
    intro other active same
    exact outside (same ▸ active)
  have notBest : ∀ place ∈ tree.ancestry best, place ≠ hash := by
    intro place member same
    have accepted := (activating.bestValid place member).2.1
    rw [same, rejected] at accepted
    contradiction
  have own : (after.nStatus hash).failedValid = true := by
    rw [statuses, if_pos rfl]
  refine ⟨after, connectTip_of_rejected (isParent.trans isTip.symm) connectable.haveData rejected,
    ?_, advance, rfl, unmarked, own⟩
  constructor
  · rw [advance.pprev, advance.nHeight]
    exact activating.graded
  · rw [advance.pprev, advance.nChainTx]
    exact activating.root
  · rw [advance.pprev, advance.nChainTx]
    exact activating.linked
  · intro other candidate
    rw [advance.nChainTx]
    exact activating.candidates other ((remaining other).mp candidate).1
  · rw [BlockTree.tip, sameActive, advance.ancestry]
    exact activating.active
  · rw [sameActive, advance.nChainTx]
    exact activating.activeLinked
  · intro other active
    rw [others other (notActive other active)]
    exact activating.activeValid other active
  · intro other failed
    rw [advance.ancestry]
    by_cases same : other = hash
    · rw [same]
      exact ⟨hash, activating.self_mem_ancestry hash, own⟩
    · rw [others other same] at failed
      obtain ⟨place, member, guilty⟩ := activating.blamed other failed
      exact ⟨place, member, advance.failedValid place guilty⟩
  · intro pair waits
    obtain ⟨isParent, stuck, notCandidate⟩ := activating.waiting pair waits
    simp only [Stuck, advance.pprev, advance.nChainTx, advance.ancestry, advance.haveData]
    exact ⟨isParent, stuck, fun candidate => notCandidate ((remaining _).mp candidate).1⟩
  · exact (remaining best).mpr
      ⟨activating.bestCandidate, notBest best (activating.self_mem_ancestry best)⟩
  · intro place member
    rw [advance.ancestry] at member
    rw [others place (notBest place member)]
    exact activating.bestValid place member
  · intro other linked haveData valid order
    rw [advance.nChainTx] at linked
    rw [advance.sortKey] at order
    have different : other ≠ hash := by
      intro same
      rw [same, BlockStatus.failed, own] at valid
      contradiction
    rw [others other different] at haveData valid
    rcases activating.complete other linked haveData valid order with candidate | waits
    · exact Or.inl ((remaining other).mpr ⟨candidate, different⟩)
    · exact Or.inr waits

/-- A block with data on top of the tip is a candidate unless it sorts below
the best one. -/
theorem Activating.candidate_of_connectable (activating : Activating context tree best)
    {tip : Uint256} (isTip : tree.tip = some tip) (isParent : tree.pprev hash = some tip)
    (connectable : Connectable tree hash)
    (order : tree.sortKey context best ≤ tree.sortKey context hash) :
    hash ∈ tree.setBlockIndexCandidates := by
  rcases activating.complete hash connectable.linked connectable.haveData connectable.valid order with
    candidate | ⟨pair, waits, rfl⟩
  · exact candidate
  · have tipActive : tip ∈ tree.chainActive := List.mem_of_mem_head? isTip
    rcases (activating.waiting pair waits).2.1 with unlinked | ⟨place, member, outside, missing⟩
    · exact absurd unlinked connectable.linked
    · rcases (activating.graded.mem_path_of_parent isParent).mp member with rfl | higher
      · rw [connectable.haveData] at missing
        contradiction
      · exact absurd (activating.active_of_mem_ancestry tipActive higher) outside

structure Connected (context : NodeContext) (tree after : BlockTree) (hash : Uint256) : Prop where
  advance : Advance tree after
  chainActive : after.chainActive = hash :: tree.chainActive
  candidates : ∀ other, other ∈ after.setBlockIndexCandidates ↔
    other ∈ tree.setBlockIndexCandidates ∧
      tree.sortKey context hash ≤ tree.sortKey context other
  failed : ∀ other, (after.nStatus other).failed = (tree.nStatus other).failed
  failedValid : ∀ other, (after.nStatus other).failedValid = (tree.nStatus other).failedValid

theorem Activating.connected (activating : Activating context tree best) {tip : Uint256}
    (isTip : tree.tip = some tip) (isParent : tree.pprev hash = some tip)
    (connectable : Connectable tree hash) (accepted : context.rejected hash = false)
    (unlinked : after.mapBlocksUnlinked = tree.mapBlocksUnlinked)
    (connected : Connected context tree after hash) :
    ∃ better, Activating context after better := by
  obtain ⟨advance, chain, candidates, failed, _⟩ := connected
  have newTip : after.tip = some hash := by
    rw [BlockTree.tip, chain]
    rfl
  obtain ⟨tip', isTip', oldChain⟩ := activating.active
  cases isTip.symm.trans isTip'
  have path : after.chainActive = tree.ancestry hash := by
    rw [chain, oldChain]
    exact (activating.graded.path_of_parent isParent).symm
  have tipActive : tip ∈ tree.chainActive := List.mem_of_mem_head? isTip
  have ownPath : ∀ place ∈ after.chainActive, place = hash ∨ place ∈ tree.chainActive := by
    intro place active
    rw [chain] at active
    exact List.mem_cons.mp active
  have valid : ∀ place ∈ after.chainActive,
      (tree.nStatus place).failed = false ∧ context.rejected place = false := by
    intro place active
    rcases ownPath place active with rfl | old
    · exact ⟨connectable.valid, accepted⟩
    · exact activating.activeValid place old
  -- the better one of the new tip and the block that was best so far
  have better : ∃ better ∈ after.setBlockIndexCandidates,
      tree.sortKey context best ≤ tree.sortKey context better ∧
        ∀ place ∈ tree.ancestry better, (tree.nStatus place).failed = false ∧
          context.rejected place = false ∧
          (place ∈ after.chainActive ∨ (tree.nStatus place).haveData = true) := by
    by_cases order : tree.sortKey context hash ≤ tree.sortKey context best
    · refine ⟨best, (candidates best).mpr ⟨activating.bestCandidate, order⟩, le_refl _, ?_⟩
      intro place member
      obtain ⟨valid, accepted, available⟩ := activating.bestValid place member
      rw [chain]
      exact ⟨valid, accepted, available.imp_left (List.mem_cons_of_mem hash)⟩
    · have above := (not_le.mp order).le
      have candidate := activating.candidate_of_connectable isTip isParent connectable above
      refine ⟨hash, (candidates hash).mpr ⟨candidate, le_refl _⟩, above, ?_⟩
      intro place member
      rw [← path] at member
      exact ⟨(valid place member).1, (valid place member).2, Or.inl member⟩
  obtain ⟨better, isCandidate, atLeast, betterValid⟩ := better
  refine ⟨better, ?_⟩
  constructor
  · rw [advance.pprev, advance.nHeight]
    exact activating.graded
  · rw [advance.pprev, advance.nChainTx]
    exact activating.root
  · rw [advance.pprev, advance.nChainTx]
    exact activating.linked
  · intro other candidate
    rw [advance.nChainTx]
    exact activating.candidates other ((candidates other).mp candidate).1
  · rw [advance.ancestry]
    exact ⟨hash, newTip, path⟩
  · intro place active
    rw [advance.nChainTx]
    rcases ownPath place active with rfl | old
    · exact connectable.linked
    · exact activating.activeLinked place old
  · intro place active
    rw [failed]
    exact valid place active
  · intro other isFailed
    rw [failed] at isFailed
    rw [advance.ancestry]
    obtain ⟨place, member, guilty⟩ := activating.blamed other isFailed
    exact ⟨place, member, advance.failedValid place guilty⟩
  · intro pair waits
    rw [unlinked] at waits
    obtain ⟨parent, stuck, notCandidate⟩ := activating.waiting pair waits
    rw [advance.pprev, advance.nChainTx]
    refine ⟨parent, stuck.imp_right ?_, fun candidate =>
      notCandidate ((candidates _).mp candidate).1⟩
    intro isStuck
    obtain ⟨place, member, outside, missing⟩ := isStuck
    rw [Stuck, advance.ancestry]
    refine ⟨place, member, fun active => ?_, (advance.haveData place).trans missing⟩
    rcases ownPath place active with rfl | old
    · rw [connectable.haveData] at missing
      contradiction
    · exact outside old
  · exact isCandidate
  · intro place member
    rw [advance.ancestry] at member
    rw [failed, advance.haveData]
    exact betterValid place member
  · intro other linked haveData unfailed order
    rw [advance.nChainTx] at linked
    rw [advance.haveData] at haveData
    rw [failed] at unfailed
    rw [advance.sortKey] at order
    rw [unlinked]
    rcases activating.complete other linked haveData unfailed (atLeast.trans order) with
      candidate | waits
    · have top := ((candidates better).mp isCandidate).2
      exact Or.inl ((candidates other).mpr ⟨candidate, top.trans order⟩)
    · exact Or.inr waits

theorem pruneBlockIndexCandidates_of_mem (isTip : tree.tip = some hash) {kept : Uint256}
    (candidate : kept ∈ tree.setBlockIndexCandidates)
    (order : tree.sortKey context hash ≤ tree.sortKey context kept) :
    ∃ after, tree.pruneBlockIndexCandidates context = some after ∧
      after = { tree with setBlockIndexCandidates := after.setBlockIndexCandidates } ∧
      ∀ other, other ∈ after.setBlockIndexCandidates ↔
        other ∈ tree.setBlockIndexCandidates ∧
          tree.sortKey context hash ≤ tree.sortKey context other := by
  have spared : ∀ other, other ∈ tree.setBlockIndexCandidates.filter (fun pindex =>
      !tree.worseThanTip context pindex) ↔
      other ∈ tree.setBlockIndexCandidates ∧
        tree.sortKey context hash ≤ tree.sortKey context other := by
    intro other
    rw [List.mem_filter, Bool.not_eq_true', ← Bool.not_eq_true, worseThanTip_iff isTip, not_lt]
  have nonempty : (tree.setBlockIndexCandidates.filter fun pindex =>
      !tree.worseThanTip context pindex).isEmpty = false := by
    rw [List.isEmpty_eq_false_iff]
    exact List.ne_nil_of_mem ((spared kept).mpr ⟨candidate, order⟩)
  refine ⟨{ tree with
    setBlockIndexCandidates := tree.setBlockIndexCandidates.filter fun pindex =>
      !tree.worseThanTip context pindex }, ?_, rfl, spared⟩
  rw [pruneBlockIndexCandidates, nonempty]
  rfl

/-- A block that `ConnectBlock` accepts becomes the tip, and the candidates
below it go. -/
theorem Activating.connectTip_accepted (activating : Activating context tree best)
    {tip : Uint256} (isTip : tree.tip = some tip) (isParent : tree.pprev hash = some tip)
    (connectable : Connectable tree hash) (accepted : context.rejected hash = false) :
    ∃ extended after better, tree.connectTip context hash = some (true, extended) ∧
      extended.pruneBlockIndexCandidates context = some after ∧
      Activating context after better ∧ Connected context tree after hash := by
  have known := mem_of_nChainTx_ne_zero connectable.linked
  set extended := { validated context tree hash with chainActive := hash :: tree.chainActive }
    with isExtended
  have advance : Advance tree extended :=
    (advance_validated known).trans (Advance.of_index_eq rfl rfl rfl)
  have sameCandidates : extended.setBlockIndexCandidates = tree.setBlockIndexCandidates := by
    change (validated context tree hash).setBlockIndexCandidates = _
    unfold validated
    split <;> rfl
  have sameUnlinked : extended.mapBlocksUnlinked = tree.mapBlocksUnlinked := by
    change (validated context tree hash).mapBlocksUnlinked = _
    unfold validated
    split <;> rfl
  have newTip : extended.tip = some hash := rfl
  have spared : ∃ kept ∈ extended.setBlockIndexCandidates,
      extended.sortKey context hash ≤ extended.sortKey context kept := by
    rw [sameCandidates, advance.sortKey]
    by_cases order : tree.sortKey context hash ≤ tree.sortKey context best
    · exact ⟨best, activating.bestCandidate, order⟩
    · exact ⟨hash, activating.candidate_of_connectable isTip isParent connectable
        (not_le.mp order).le, le_refl _⟩
  obtain ⟨kept, candidate, order⟩ := spared
  obtain ⟨after, pruned, rest, remaining⟩ :=
    pruneBlockIndexCandidates_of_mem newTip candidate order
  have connected : Connected context tree after hash := by
    refine ⟨advance.trans (Advance.of_index_eq (by rw [rest]) (by rw [rest]) (by rw [rest])), by rw [rest], ?_, ?_, ?_⟩
    · intro other
      rw [remaining, sameCandidates, advance.sortKey]
    · intro other
      rw [rest]
      exact (failed_of_validated tree hash other).1
    · intro other
      rw [rest]
      exact (failed_of_validated tree hash other).2
  obtain ⟨better, next⟩ := activating.connected isTip isParent connectable accepted
    (by rw [rest]; exact sameUnlinked) connected
  exact ⟨extended, after, better, connectTip_of_not_rejected (isParent.trans isTip.symm)
    connectable.haveData accepted, pruned, next, connected⟩

end Connect

end BlockTree

end Lycancoin
