import Lycancoin.Chain.ActivationRun
import Lycancoin.Chain.HeaderRun
import Mathlib

namespace Lycancoin

open Lycancoin.Data

theorem BlockStatus.level_raiseValidity (status : BlockStatus) (nUpTo : BlockValidity) :
    (status.raiseValidity nUpTo).validity.level =
      if status.failed then status.validity.level
      else max status.validity.level nUpTo.level := by
  unfold raiseValidity
  split_ifs with failed lower
  · rfl
  · exact (max_eq_right lower.le).symm
  · exact (max_eq_left (not_lt.mp lower)).symm

theorem BlockValidity.level_le (validity : BlockValidity) : validity.level ≤ 5 := by
  cases validity <;> decide

namespace BlockTree

variable {context : NodeContext} {tree after : BlockTree} {best hash : Uint256}

/-- How far an entry is validated. -/
def level (tree : BlockTree) (hash : Uint256) : Nat := (tree.nStatus hash).validity.level

/-- What holds of a tree from which no block file is pruned, while the entries of `queue` are
about to be linked to the blocks above them. -/
structure Unpruned (context : NodeContext) (tree : BlockTree) (queue : List Uint256) : Prop where
  known : ∀ hash pprev, tree.pprev hash = some pprev → pprev ∈ tree.mapBlockIndex
  rooted : ∀ hash ∈ tree.mapBlockIndex, tree.pprev hash = none → hash = context.hashGenesisBlock
  placed : ∀ hash ∈ tree.mapBlockIndex, BlockValidity.tree.level ≤ tree.level hash
  received : ∀ hash, (tree.nStatus hash).haveData = true ↔ tree.nTx hash ≠ 0
  checked : ∀ hash, BlockValidity.transactions.level ≤ tree.level hash ↔ tree.nTx hash ≠ 0
  stored : ∀ hash, tree.nChainTx hash ≠ 0 → (tree.nStatus hash).haveData = true
  unnumbered : ∀ hash, tree.nChainTx hash = 0 → (tree.entry hash).nSequenceId = 0
  undoStored : ∀ hash, (tree.nStatus hash).haveUndo = true → (tree.nStatus hash).haveData = true
  unfailed : ∀ hash, (tree.nStatus hash).haveData = true → tree.nChainTx hash = 0 →
    (tree.nStatus hash).failed = false
  validated : ∀ hash, BlockValidity.chain.level ≤ tree.level hash → ∀ place ∈ tree.ancestry hash,
    place = context.hashGenesisBlock ∨ BlockValidity.scripts.level ≤ tree.level place
  active : ∀ hash ∈ tree.chainActive, hash = context.hashGenesisBlock ∨
    (BlockValidity.scripts.level ≤ tree.level hash ∧ (tree.nStatus hash).haveUndo = true)
  waits : ∀ hash, (tree.nStatus hash).haveData = true → tree.nChainTx hash = 0 →
    hash ∈ queue ∨ ∃ pprev, tree.pprev hash = some pprev ∧ tree.nChainTx pprev = 0 ∧
      ((pprev, hash) ∈ tree.mapBlocksUnlinked ∨ (tree.nStatus pprev).failed = true)
  pending : ∀ pair ∈ tree.mapBlocksUnlinked,
    (tree.nStatus pair.2).haveData = true ∧ tree.nChainTx pair.2 = 0
  queued : ∀ hash ∈ queue, (tree.nStatus hash).haveData = true ∧ tree.nChainTx hash = 0 ∧
    ∀ pprev, tree.pprev hash = some pprev → tree.nChainTx pprev ≠ 0
  distinct : (queue ++ tree.mapBlocksUnlinked.map Prod.snd).Nodup

section Moves

/-- What `ActivateBestChain` may do to the flags of entries without a block file getting lost. -/
structure Raised (context : NodeContext) (tree after : BlockTree) : Prop where
  advance : Advance tree after
  unlinked : after.mapBlocksUnlinked = tree.mapBlocksUnlinked
  haveUndo : ∀ hash, (after.nStatus hash).haveUndo = true →
    (tree.nStatus hash).haveUndo = true ∨ (tree.nStatus hash).haveData = true
  failed : ∀ hash, (after.nStatus hash).failed = true →
    (tree.nStatus hash).failed = true ∨ tree.nChainTx hash ≠ 0 ∨
      (tree.nStatus hash).haveData = false
  level : ∀ hash, after.level hash = tree.level hash ∨
    (tree.level hash ≤ after.level hash ∧ (tree.nStatus hash).haveData = true ∧
      ∀ place ∈ tree.ancestry hash,
        place = context.hashGenesisBlock ∨ BlockValidity.scripts.level ≤ after.level place)
  active : ∀ hash ∈ after.chainActive, hash = context.hashGenesisBlock ∨
    (BlockValidity.scripts.level ≤ after.level hash ∧ (after.nStatus hash).haveUndo = true)

theorem Raised.level_le (raised : Raised context tree after) (hash : Uint256) :
    tree.level hash ≤ after.level hash := by
  rcases raised.level hash with same | ⟨higher, _⟩
  · exact same.ge
  · exact higher

theorem Unpruned.raised (unpruned : Unpruned context tree []) (raised : Raised context tree after) :
    Unpruned context after [] := by
  have advance := raised.advance
  constructor
  · intro hash pprev isParent
    rw [advance.pprev] at isParent
    exact advance.known.mpr (unpruned.known hash pprev isParent)
  · intro hash member
    rw [advance.pprev]
    exact unpruned.rooted hash (advance.known.mp member)
  · intro hash member
    exact (unpruned.placed hash (advance.known.mp member)).trans (raised.level_le hash)
  · intro hash
    rw [advance.haveData, advance.nTx]
    exact unpruned.received hash
  · intro hash
    rw [advance.nTx]
    rcases raised.level hash with same | ⟨higher, haveData, _⟩
    · rw [same]
      exact unpruned.checked hash
    · have received := (unpruned.received hash).mp haveData
      exact iff_of_true (((unpruned.checked hash).mpr received).trans higher) received
  · intro hash
    rw [advance.nChainTx, advance.haveData]
    exact unpruned.stored hash
  · intro hash unlinked
    rw [advance.nChainTx] at unlinked
    rw [advance.entries]
    exact unpruned.unnumbered hash unlinked
  · intro hash haveUndo
    rw [advance.haveData]
    rcases raised.haveUndo hash haveUndo with old | haveData
    · exact unpruned.undoStored hash old
    · exact haveData
  · intro hash haveData unlinked
    rw [advance.haveData] at haveData
    rw [advance.nChainTx] at unlinked
    by_contra failed
    rcases raised.failed hash (Bool.eq_true_of_not_eq_false failed) with old | linked | missing
    · rw [unpruned.unfailed hash haveData unlinked] at old
      contradiction
    · exact linked unlinked
    · rw [haveData] at missing
      contradiction
  · intro hash high place onPath
    rw [advance.ancestry] at onPath
    rcases raised.level hash with same | ⟨_, _, above⟩
    · rw [same] at high
      exact (unpruned.validated hash high place onPath).imp_right fun scripts =>
        scripts.trans (raised.level_le place)
    · exact above place onPath
  · exact raised.active
  · intro hash haveData unlinked
    rw [advance.haveData] at haveData
    rw [advance.nChainTx] at unlinked
    obtain ⟨pprev, isParent, parentUnlinked, why⟩ :=
      (unpruned.waits hash haveData unlinked).resolve_left List.not_mem_nil
    rw [advance.pprev, advance.nChainTx, raised.unlinked]
    exact Or.inr ⟨pprev, isParent, parentUnlinked, why.imp_right (advance.failed pprev)⟩
  · intro pair member
    rw [raised.unlinked] at member
    rw [advance.haveData, advance.nChainTx]
    exact unpruned.pending pair member
  · intro hash member
    contradiction
  · rw [raised.unlinked]
    exact unpruned.distinct

theorem Unpruned.removed (unpruned : Unpruned context tree [])
    (activating : Activating context tree best) {pindexNew pindexTest : Uint256}
    {passed rest : List Uint256} (candidate : pindexNew ∈ tree.setBlockIndexCandidates)
    (split : tree.ancestry pindexNew = passed ++ pindexTest :: rest)
    (unusable : (tree.nStatus pindexTest).failed = true ∨
      (tree.nStatus pindexTest).haveData = false)
    (removed : ChainRemoved tree after (tree.nStatus pindexTest).failed pindexTest passed) :
    Raised context tree after := by
  have linked : ∀ place ∈ tree.ancestry pindexNew, tree.nChainTx place ≠ 0 := fun place onPath =>
    activating.linked_of_mem_ancestry (activating.candidates pindexNew candidate) onPath
  -- a linked entry has its data, so the chain can only be failed
  have failed : (tree.nStatus pindexTest).failed = true := by
    rcases unusable with failed | missing
    · exact failed
    · have stored := unpruned.stored pindexTest (linked pindexTest (by rw [split]; simp))
      rw [missing] at stored
      contradiction
  have sameLevel : ∀ hash, after.level hash = tree.level hash := by
    intro hash
    rw [level, removed.status]
    rfl
  have sameUndo : ∀ hash, (after.nStatus hash).haveUndo = (tree.nStatus hash).haveUndo := by
    intro hash
    rw [removed.status]
  refine ⟨removed.advance, removed.kept failed, fun hash haveUndo => Or.inl ?_,
    fun hash isFailed => ?_, fun hash => Or.inl (sameLevel hash), ?_⟩
  · rw [← sameUndo]
    exact haveUndo
  · refine ((removed.failed hash).mp isFailed).imp_right fun marked => Or.inl ?_
    exact linked hash (by rw [split]; exact List.mem_append_left _ marked.2)
  · rw [removed.chainActive]
    intro hash active
    rw [sameLevel, sameUndo]
    exact unpruned.active hash active

theorem Unpruned.disconnected (unpruned : Unpruned context tree [])
    (disconnected : tree.disconnectTip = some after) : Raised context tree after := by
  cases chain : tree.chainActive with
  | nil =>
      rw [disconnectTip, chain] at disconnected
      contradiction
  | cons pindexDelete rest =>
      simp only [disconnectTip, chain] at disconnected
      split at disconnected
      · cases disconnected
        refine ⟨Advance.of_index_eq rfl rfl rfl, rfl, fun _ => Or.inl, fun _ => Or.inl,
          fun _ => Or.inl rfl, fun hash active => unpruned.active hash ?_⟩
        rw [chain]
        exact List.mem_cons_of_mem _ active
      · contradiction

theorem Unpruned.rejected (unpruned : Unpruned context tree [])
    (isParent : tree.pprev hash = tree.tip) (connectable : Connectable tree hash)
    (rejected : tree.connectTip context hash = some (false, after)) :
    Raised context tree after := by
  have isAfter : after = (tree.editStatus hash fun nStatus =>
      { nStatus with failedValid := true }).eraseCandidate hash := by
    cases verdict : context.rejected hash with
    | true =>
        rw [connectTip_of_rejected isParent connectable.haveData verdict] at rejected
        simpa using rejected.symm
    | false =>
        rw [connectTip_of_not_rejected isParent connectable.haveData verdict] at rejected
        simp at rejected
  have statuses : ∀ other, after.nStatus other =
      if other = hash then { tree.nStatus hash with failedValid := true }
      else tree.nStatus other := by
    intro other
    rw [isAfter]
    exact nStatus_editStatus tree hash other fun nStatus => { nStatus with failedValid := true }
  have advance : Advance tree after := by
    rw [isAfter]
    have edited : Advance tree (tree.editStatus hash fun nStatus =>
        { nStatus with failedValid := true }) :=
      Advance.editStatus (mem_of_nChainTx_ne_zero connectable.linked) rfl id (fun _ => rfl)
        fun _ => rfl
    exact edited.trans (Advance.of_index_eq rfl rfl rfl)
  have sameLevel : ∀ other, after.level other = tree.level other := by
    intro other
    rw [level, statuses]
    split
    · rename_i same
      rw [same]
      rfl
    · rfl
  have sameUndo : ∀ other, (after.nStatus other).haveUndo = (tree.nStatus other).haveUndo := by
    intro other
    rw [statuses]
    split
    · rename_i same
      rw [same]
    · rfl
  refine ⟨advance, by rw [isAfter]; rfl, fun other haveUndo => Or.inl ?_, fun other failed => ?_,
    fun other => Or.inl (sameLevel other), fun other active => ?_⟩
  · rw [← sameUndo]
    exact haveUndo
  · by_cases same : other = hash
    · exact Or.inr (Or.inl (same ▸ connectable.linked))
    · rw [statuses, if_neg same] at failed
      exact Or.inl failed
  · rw [sameLevel, sameUndo]
    refine unpruned.active other ?_
    rw [isAfter] at active
    exact active

theorem nStatus_validated (context : NodeContext) (tree : BlockTree) (hash other : Uint256) :
    (BlockTree.validated context tree hash).nStatus other =
      if other = hash ∧ hash ≠ context.hashGenesisBlock then
        { tree.nStatus hash with haveUndo := true }.raiseValidity .scripts
      else tree.nStatus other := by
  unfold BlockTree.validated
  by_cases genesis : hash = context.hashGenesisBlock
  · rw [if_pos genesis, if_neg fun both => both.2 genesis]
  · rw [if_neg genesis, nStatus_editStatus]
    simp only [genesis, ne_eq, not_false_eq_true, and_true]

theorem Unpruned.connected (unpruned : Unpruned context tree [])
    (activating : Activating context tree best) {tip : Uint256} {extended : BlockTree}
    (isTip : tree.tip = some tip) (isParent : tree.pprev hash = some tip)
    (connectable : Connectable tree hash)
    (connected : tree.connectTip context hash = some (true, extended))
    (pruned : extended.pruneBlockIndexCandidates context = some after) :
    Raised context tree after := by
  have isExtended : extended =
      { BlockTree.validated context tree hash with chainActive := hash :: tree.chainActive } := by
    cases verdict : context.rejected hash with
    | true =>
        rw [connectTip_of_rejected (isParent.trans isTip.symm) connectable.haveData verdict]
          at connected
        simp at connected
    | false =>
        rw [connectTip_of_not_rejected (isParent.trans isTip.symm) connectable.haveData verdict]
          at connected
        simpa using connected.symm
  have rest : after =
      { extended with setBlockIndexCandidates := after.setBlockIndexCandidates } := by
    rw [pruneBlockIndexCandidates] at pruned
    split at pruned
    · contradiction
    · cases pruned
      rfl
  have sameIndex : after.mapBlockIndex = (BlockTree.validated context tree hash).mapBlockIndex := by
    rw [rest, isExtended]
  have statuses : ∀ other, after.nStatus other =
      if other = hash ∧ hash ≠ context.hashGenesisBlock then
        { tree.nStatus hash with haveUndo := true }.raiseValidity .scripts
      else tree.nStatus other := by
    intro other
    rw [← nStatus_validated, nStatus, entry, sameIndex]
    rfl
  have others : ∀ {other}, ¬ (other = hash ∧ hash ≠ context.hashGenesisBlock) →
      after.nStatus other = tree.nStatus other := by
    intro other kept
    rw [statuses, if_neg kept]
  have advance : Advance tree after := by
    have marked : Advance tree (BlockTree.validated context tree hash) :=
      advance_validated (mem_of_nChainTx_ne_zero connectable.linked)
    refine marked.trans (Advance.of_index_eq sameIndex ?_ ?_)
    all_goals rw [rest, isExtended]
  obtain ⟨failed, _, _, haveUndo⟩ := failed_validated (tree.nStatus hash)
  have raised : hash ≠ context.hashGenesisBlock → after.level hash = BlockValidity.scripts.level ∧
      (after.nStatus hash).haveUndo = true := by
    intro notGenesis
    have status : after.nStatus hash =
        { tree.nStatus hash with haveUndo := true }.raiseValidity .scripts := by
      rw [statuses, if_pos ⟨rfl, notGenesis⟩]
    have unfailed : ({ tree.nStatus hash with haveUndo := true } : BlockStatus).failed = false :=
      connectable.valid
    refine ⟨?_, by rw [status]; exact haveUndo⟩
    rw [level, status, BlockStatus.level_raiseValidity, unfailed]
    exact max_eq_right (BlockValidity.level_le _)
  -- the active chain below the new tip, and the tip itself
  have active : ∀ place ∈ after.chainActive, place = context.hashGenesisBlock ∨
      (BlockValidity.scripts.level ≤ after.level place ∧
        (after.nStatus place).haveUndo = true) := by
    intro place isActive
    by_cases genesis : place = context.hashGenesisBlock
    · exact Or.inl genesis
    · right
      by_cases own : place = hash
      · subst own
        obtain ⟨high, undo⟩ := raised genesis
        exact ⟨high.ge, undo⟩
      · have kept : after.nStatus place = tree.nStatus place := others fun both => own both.1
        have below : place ∈ tree.chainActive := by
          have chain : after.chainActive = hash :: tree.chainActive := by
            rw [rest, isExtended]
          rw [chain] at isActive
          exact (List.mem_cons.mp isActive).resolve_left own
        rw [level, kept]
        exact (unpruned.active place below).resolve_left genesis
  refine ⟨advance, ?_, fun other undo => ?_, fun other isFailed => Or.inl ?_, fun other => ?_,
    active⟩
  · rw [rest, isExtended]
    change (BlockTree.validated context tree hash).mapBlocksUnlinked = _
    unfold BlockTree.validated
    split <;> rfl
  · by_cases own : other = hash ∧ hash ≠ context.hashGenesisBlock
    · rw [own.1]
      exact Or.inr connectable.haveData
    · rw [others own] at undo
      exact Or.inl undo
  · by_cases own : other = hash ∧ hash ≠ context.hashGenesisBlock
    · rw [statuses, if_pos own, failed] at isFailed
      rw [own.1]
      exact isFailed
    · rw [others own] at isFailed
      exact isFailed
  · by_cases own : other = hash ∧ hash ≠ context.hashGenesisBlock
    · right
      rw [own.1, (raised own.2).1]
      refine ⟨BlockValidity.level_le _, connectable.haveData, fun place onPath => ?_⟩
      have onChain : place ∈ after.chainActive := by
        obtain ⟨tip', isTip', chain⟩ := activating.active
        cases isTip.symm.trans isTip'
        rw [rest, isExtended]
        change place ∈ hash :: tree.chainActive
        rw [chain]
        exact List.mem_cons.mpr ((activating.graded.mem_path_of_parent isParent).mp onPath)
      exact (active place onChain).imp_right And.left
    · left
      rw [level, others own]
      rfl

/-- What `ActivateBestChain` does to a tree that is not pruned. -/
theorem Unpruned.move (unpruned : Unpruned context tree []) (move : Move context tree after) :
    Unpruned context after [] := by
  cases move with
  | remove activating candidate split usable outside unusable removed =>
      exact unpruned.raised (unpruned.removed activating candidate split unusable removed)
  | disconnect activating isTip notGenesis disconnected =>
      exact unpruned.raised (unpruned.disconnected disconnected)
  | connect activating isTip isParent connectable connected pruned =>
      exact unpruned.raised
        (unpruned.connected activating isTip isParent connectable connected pruned)
  | reject activating isTip isParent connectable rejected =>
      exact unpruned.raised
        (unpruned.rejected (isParent.trans isTip.symm) connectable rejected)

theorem Unpruned.moves (unpruned : Unpruned context tree []) (moves : Moves context tree after) :
    Unpruned context after [] := by
  induction moves with
  | refl => exact unpruned
  | tail _ last ih => exact ih.move last

/-- The active chain can be disconnected down to the genesis block. -/
theorem Unpruned.readable (unpruned : Unpruned context tree []) : Readable context tree := by
  intro hash active notGenesis
  obtain ⟨_, haveUndo⟩ := (unpruned.active hash active).resolve_left notGenesis
  exact ⟨unpruned.undoStored hash haveUndo, haveUndo⟩

end Moves

end BlockTree

end Lycancoin
