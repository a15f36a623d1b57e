import Lycancoin.Chain.CandidateOrder
import Lycancoin.Data.KeyedBatch

namespace Lycancoin

open Lycancoin.Data

namespace BlockTree

variable {context : NodeContext} {tree after : BlockTree} {tip hash new pprev : Uint256}

theorem nChainTx_eq_zero (absent : hash ∉ tree.mapBlockIndex) : tree.nChainTx hash = 0 := by
  rw [nChainTx, entry_eq_null absent]
  rfl

theorem mem_of_pprev (isParent : tree.pprev hash = some pprev) : hash ∈ tree.mapBlockIndex := by
  by_contra absent
  rw [BlockTree.pprev, entry_eq_null absent] at isParent
  contradiction

section Header

/-- A header that was unknown gets an entry behind the one of its predecessor. -/
structure Grown (tree after : BlockTree) (new pprev : Uint256) : Prop where
  unknown : new ∉ tree.mapBlockIndex
  parentKnown : pprev ∈ tree.mapBlockIndex
  members : ∀ hash, hash ∈ after.mapBlockIndex ↔ hash = new ∨ hash ∈ tree.mapBlockIndex
  others : ∀ hash, hash ≠ new → after.entry hash = tree.entry hash
  parent : after.pprev new = some pprev
  height : after.nHeight new = tree.nHeight pprev + 1
  status : after.nStatus new = BlockStatus.null.raiseValidity .tree
  counts : after.nTx new = 0 ∧ after.nChainTx new = 0 ∧ (after.entry new).nSequenceId = 0
  chainActive : after.chainActive = tree.chainActive
  candidates : after.setBlockIndexCandidates = tree.setBlockIndexCandidates
  unlinked : after.mapBlocksUnlinked = tree.mapBlocksUnlinked

variable (grown : Grown tree after new pprev)
include grown

namespace Grown

theorem pprev_of_ne (different : hash ≠ new) : after.pprev hash = tree.pprev hash := by
  rw [BlockTree.pprev, grown.others hash different]
  rfl

/-- The new entry has no transactions yet, and no entry had them before. -/
theorem nChainTx : after.nChainTx hash = tree.nChainTx hash := by
  by_cases own : hash = new
  · rw [own, grown.counts.2.1, nChainTx_eq_zero grown.unknown]
  · rw [BlockTree.nChainTx, grown.others hash own]
    rfl

theorem nTx : after.nTx hash = tree.nTx hash := by
  by_cases own : hash = new
  · rw [own, grown.counts.1, BlockTree.nTx, entry_eq_null grown.unknown]
    rfl
  · rw [BlockTree.nTx, grown.others hash own]
    rfl

theorem nSequenceId : (after.entry hash).nSequenceId = (tree.entry hash).nSequenceId := by
  by_cases own : hash = new
  · rw [own, grown.counts.2.2, entry_eq_null grown.unknown]
    rfl
  · rw [grown.others hash own]

/-- Nothing but the validity of the new entry is new in a status. -/
theorem nStatus : after.nStatus hash =
    { tree.nStatus hash with validity := (after.nStatus hash).validity } := by
  by_cases own : hash = new
  · rw [own, grown.status, BlockTree.nStatus, entry_eq_null grown.unknown]
    rfl
  · rw [BlockTree.nStatus, grown.others hash own]
    rfl

theorem failed : (after.nStatus hash).failed = (tree.nStatus hash).failed := by
  rw [grown.nStatus]
  rfl

theorem haveData : (after.nStatus hash).haveData = (tree.nStatus hash).haveData := by
  rw [grown.nStatus]

theorem haveUndo : (after.nStatus hash).haveUndo = (tree.nStatus hash).haveUndo := by
  rw [grown.nStatus]

theorem level_of_ne (different : hash ≠ new) : after.level hash = tree.level hash := by
  rw [level, BlockTree.nStatus, grown.others hash different]
  rfl

theorem ne_of_mem (member : hash ∈ tree.mapBlockIndex) : hash ≠ new := by
  rintro rfl
  exact grown.unknown member

theorem nHeight_of_ne (different : hash ≠ new) : after.nHeight hash = tree.nHeight hash := by
  rw [BlockTree.nHeight, grown.others hash different]
  rfl

theorem graded (graded : Forest.Graded tree.pprev tree.nHeight)
    (known : ∀ hash pprev, tree.pprev hash = some pprev → pprev ∈ tree.mapBlockIndex) :
    Forest.Graded after.pprev after.nHeight := by
  constructor
  · intro node isRoot
    have different : node ≠ new := by
      rintro rfl
      rw [grown.parent] at isRoot
      contradiction
    rw [grown.pprev_of_ne different] at isRoot
    rw [grown.nHeight_of_ne different]
    exact graded.root node isRoot
  · intro node above isParent
    by_cases own : node = new
    · subst own
      cases grown.parent.symm.trans isParent
      rw [grown.height, grown.nHeight_of_ne (grown.ne_of_mem grown.parentKnown)]
    · rw [grown.pprev_of_ne own] at isParent
      rw [grown.nHeight_of_ne own,
        grown.nHeight_of_ne (grown.ne_of_mem (known node above isParent))]
      exact graded.step node above isParent

theorem ancestry_of_ne (graded : Forest.Graded tree.pprev tree.nHeight)
    (known : ∀ hash pprev, tree.pprev hash = some pprev → pprev ∈ tree.mapBlockIndex)
    (different : hash ≠ new) : after.ancestry hash = tree.ancestry hash := by
  refine graded.path_congr (grown.graded graded known) fun place onPath => ?_
  apply grown.pprev_of_ne
  -- a place above another one is known
  induction hash using graded.induction with
  | root node isRoot =>
      rw [(graded.mem_path_of_root isRoot).mp onPath]
      exact different
  | step node above isParent ih =>
      rcases (graded.mem_path_of_parent isParent).mp onPath with rfl | higher
      · exact different
      · exact ih (grown.ne_of_mem (known node above isParent)) higher

theorem ancestry_of_linked (activating : Activating context tree tip)
    (known : ∀ hash pprev, tree.pprev hash = some pprev → pprev ∈ tree.mapBlockIndex)
    (linked : tree.nChainTx hash ≠ 0) : after.ancestry hash = tree.ancestry hash :=
  grown.ancestry_of_ne activating.graded known (grown.ne_of_mem (mem_of_nChainTx_ne_zero linked))

theorem sortKey_of_linked (linked : tree.nChainTx hash ≠ 0) :
    after.sortKey context hash = tree.sortKey context hash := by
  rw [sortKey, grown.others hash (grown.ne_of_mem (mem_of_nChainTx_ne_zero linked))]
  rfl

end Grown

theorem Activating.grow (activating : Activating context tree tip)
    (unpruned : Unpruned context tree []) : Activating context after tip := by
  have tipLinked := activating.candidates tip activating.bestCandidate
  constructor
  · exact grown.graded activating.graded unpruned.known
  · intro hash linked isRoot
    rw [grown.nChainTx] at linked
    rw [grown.pprev_of_ne (grown.ne_of_mem (mem_of_nChainTx_ne_zero linked))] at isRoot
    exact activating.root hash linked isRoot
  · intro hash pprev linked isParent
    rw [grown.nChainTx] at linked ⊢
    rw [grown.pprev_of_ne (grown.ne_of_mem (mem_of_nChainTx_ne_zero linked))] at isParent
    exact activating.linked hash pprev linked isParent
  · rw [grown.candidates]
    intro hash candidate
    rw [grown.nChainTx]
    exact activating.candidates hash candidate
  · obtain ⟨top, isTip, chain⟩ := activating.active
    have linked := activating.activeLinked top (List.mem_of_mem_head? isTip)
    refine ⟨top, by rw [BlockTree.tip, grown.chainActive]; exact isTip, ?_⟩
    rw [grown.chainActive, grown.ancestry_of_linked activating unpruned.known linked, chain]
  · rw [grown.chainActive]
    intro hash active
    rw [grown.nChainTx]
    exact activating.activeLinked hash active
  · rw [grown.chainActive]
    intro hash active
    rw [grown.failed]
    exact activating.activeValid hash active
  · intro hash failed
    rw [grown.failed] at failed
    obtain ⟨place, onPath, guilty⟩ := activating.blamed hash failed
    rw [grown.ancestry_of_ne activating.graded unpruned.known
      (grown.ne_of_mem (mem_of_failed failed))]
    refine ⟨place, onPath, ?_⟩
    rw [grown.nStatus]
    exact guilty
  · rw [grown.unlinked]
    intro pair member
    obtain ⟨isParent, _, notCandidate⟩ := activating.waiting pair member
    rw [grown.pprev_of_ne (grown.ne_of_mem (mem_of_pprev isParent)), grown.nChainTx,
      grown.candidates]
    exact ⟨isParent, Or.inl (unpruned.pending pair member).2, notCandidate⟩
  · rw [grown.candidates]
    exact activating.bestCandidate
  · intro place onPath
    rw [grown.ancestry_of_linked activating unpruned.known tipLinked] at onPath
    rw [grown.failed, grown.haveData, grown.chainActive]
    exact activating.bestValid place onPath
  · intro hash linked haveData valid order
    rw [grown.nChainTx] at linked
    rw [grown.haveData] at haveData
    rw [grown.failed] at valid
    rw [grown.sortKey_of_linked tipLinked, grown.sortKey_of_linked linked] at order
    rw [grown.candidates, grown.unlinked]
    exact activating.complete hash linked haveData valid order

theorem Unpruned.grow (activating : Activating context tree tip)
    (unpruned : Unpruned context tree []) : Unpruned context after [] := by
  have newLevel : after.level new = BlockValidity.tree.level := by
    rw [level, grown.status]
    rfl
  constructor
  · intro hash above isParent
    rw [grown.members]
    by_cases own : hash = new
    · subst own
      cases grown.parent.symm.trans isParent
      exact Or.inr grown.parentKnown
    · rw [grown.pprev_of_ne own] at isParent
      exact Or.inr (unpruned.known hash above isParent)
  · intro hash member isRoot
    by_cases own : hash = new
    · subst own
      rw [grown.parent] at isRoot
      contradiction
    · rw [grown.pprev_of_ne own] at isRoot
      exact unpruned.rooted hash (((grown.members hash).mp member).resolve_left own) isRoot
  · intro hash member
    by_cases own : hash = new
    · rw [own, newLevel]
    · rw [grown.level_of_ne own]
      exact unpruned.placed hash (((grown.members hash).mp member).resolve_left own)
  · intro hash
    rw [grown.haveData, grown.nTx]
    exact unpruned.received hash
  · intro hash
    by_cases own : hash = new
    · rw [own, newLevel, grown.counts.1]
      decide
    · rw [grown.level_of_ne own, grown.nTx]
      exact unpruned.checked hash
  · intro hash
    rw [grown.nChainTx, grown.haveData]
    exact unpruned.stored hash
  · intro hash
    rw [grown.nChainTx, grown.nSequenceId]
    exact unpruned.unnumbered hash
  · intro hash
    rw [grown.haveUndo, grown.haveData]
    exact unpruned.undoStored hash
  · intro hash
    rw [grown.haveData, grown.nChainTx, grown.failed]
    exact unpruned.unfailed hash
  · intro hash high place onPath
    by_cases own : hash = new
    · rw [own, newLevel] at high
      contradiction
    · rw [grown.level_of_ne own] at high
      rw [grown.ancestry_of_ne activating.graded unpruned.known own] at onPath
      refine (unpruned.validated hash high place onPath).imp_right fun scripts => ?_
      rw [grown.level_of_ne]
      · exact scripts
      · rintro rfl
        rw [level, nStatus, entry_eq_null grown.unknown] at scripts
        contradiction
  · rw [grown.chainActive]
    intro hash active
    have member := mem_of_nChainTx_ne_zero (activating.activeLinked hash active)
    rw [grown.level_of_ne (grown.ne_of_mem member), grown.haveUndo]
    exact unpruned.active hash active
  · intro hash haveData unlinked
    rw [grown.haveData] at haveData
    rw [grown.nChainTx] at unlinked
    obtain ⟨above, isParent, parentUnlinked, why⟩ :=
      (unpruned.waits hash haveData unlinked).resolve_left List.not_mem_nil
    right
    refine ⟨above, ?_, grown.nChainTx.trans parentUnlinked, ?_⟩
    · rw [grown.pprev_of_ne (grown.ne_of_mem (mem_of_pprev isParent))]
      exact isParent
    · rw [grown.unlinked, grown.failed]
      exact why
  · rw [grown.unlinked]
    intro pair member
    rw [grown.haveData, grown.nChainTx]
    exact unpruned.pending pair member
  · intro hash member
    contradiction
  · rw [grown.unlinked]
    exact unpruned.distinct

theorem Trimmed.grow (activating : Activating context tree tip)
    (unpruned : Unpruned context tree []) (trimmed : Trimmed context tree) :
    Trimmed context after := by
  intro rises newTip isNewTip hash candidate
  rw [BlockTree.tip, grown.chainActive] at isNewTip
  rw [grown.candidates] at candidate
  have risesBefore : tree.WorkRises := by
    intro hash pprev isParent
    have own := grown.ne_of_mem (mem_of_pprev isParent)
    have above := grown.ne_of_mem (unpruned.known hash pprev isParent)
    have more := rises hash pprev (by rw [grown.pprev_of_ne own]; exact isParent)
    rwa [grown.others hash own, grown.others pprev above] at more
  have tipLinked := activating.activeLinked newTip (List.mem_of_mem_head? isNewTip)
  rw [grown.sortKey_of_linked tipLinked,
    grown.sortKey_of_linked (activating.candidates hash candidate)]
  exact trimmed risesBefore newTip isNewTip hash candidate

omit grown in
/-- A header that `AcceptBlockHeader` accepts is known and not failed. -/
theorem known_of_acceptHeader {nAdjustedTime : Int} {block : CBlockHeader}
    (accepted : (tree.acceptHeader context nAdjustedTime block).1 = .ok ()) :
    context.env.hashes.getHash block ∈ (tree.acceptHeader context nAdjustedTime block).2.mapBlockIndex ∧
      ((tree.acceptHeader context nAdjustedTime block).2.nStatus
        (context.env.hashes.getHash block)).failed = false := by
  simp only [acceptHeader, nStatus, entry, acceptBlockHeader] at accepted ⊢
  cases found : tree.mapBlockIndex[context.env.hashes.getHash block]? with
  | some pindex =>
      simp only [found] at accepted ⊢
      by_cases failed : pindex.nStatus.failed = true
      · rw [if_pos failed] at accepted
        contradiction
      · rw [if_neg failed]
        rw [Bool.not_eq_true] at failed
        simp only [found, Option.getD_some, failed, and_true]
        rw [Std.ExtTreeMap.mem_iff_isSome_getElem?, found]
        rfl
  | none =>
      simp only [found] at accepted ⊢
      cases checked : checkNewHeader context.env nAdjustedTime block tree.mapBlockIndex with
      | error failure =>
          rw [checked] at accepted
          contradiction
      | ok value =>
          simp only
          have added : (addToBlockIndex context.env tree.toHeaderIndex block).mapBlockIndex =
              tree.mapBlockIndex.insert (context.env.hashes.getHash block)
                (newBlockIndex tree.mapBlockIndex block) :=
            @addToBlockIndex_of_unknown context.env _ ⟨nAdjustedTime, block⟩ found
          rw [added]
          refine ⟨Std.ExtTreeMap.mem_insert_self, ?_⟩
          rw [Std.ExtTreeMap.getElem?_insert_self, Option.getD_some, newBlockIndex]
          cases tree.mapBlockIndex[block.hashPrevBlock]? <;> rfl

omit grown in
/-- A call of `AcceptBlockHeader` leaves the tree as it is or adds one entry. -/
theorem acceptHeader_cases (genesisKnown : context.hashGenesisBlock ∈ tree.mapBlockIndex)
    (nAdjustedTime : Int) (block : CBlockHeader) :
    (tree.acceptHeader context nAdjustedTime block).2 = tree ∨
      ∃ new pprev, Grown tree (tree.acceptHeader context nAdjustedTime block).2 new pprev := by
  by_cases passes : PassesChecks context.env tree.toHeaderIndex ⟨nAdjustedTime, block⟩
  · right
    have inserted := acceptBlockHeader_of_passesChecks genesisKnown passes
    obtain ⟨pindexPrev, found, _⟩ := passes.parent
    have built := newBlockIndex_of_parent found
    have unknown : context.env.hashes.getHash block ∉ tree.mapBlockIndex := by
      rw [Std.ExtTreeMap.mem_iff_isSome_getElem?, passes.unknown]
      simp
    have parentKnown : block.hashPrevBlock ∈ tree.mapBlockIndex := by
      rw [Std.ExtTreeMap.mem_iff_isSome_getElem?, found]
      rfl
    have index : (tree.acceptHeader context nAdjustedTime block).2.mapBlockIndex =
        tree.mapBlockIndex.insert (context.env.hashes.getHash block)
          (newBlockIndex tree.mapBlockIndex block) := inserted
    have own : (tree.acceptHeader context nAdjustedTime block).2.entry
        (context.env.hashes.getHash block) = newBlockIndex tree.mapBlockIndex block := by
      rw [entry, index, Std.ExtTreeMap.getElem?_insert_self, Option.getD_some]
    have parentEntry : tree.entry block.hashPrevBlock = pindexPrev := by
      rw [entry, found, Option.getD_some]
    refine ⟨context.env.hashes.getHash block, block.hashPrevBlock, unknown, parentKnown,
      fun hash => ?_, fun hash different => ?_, ?_, ?_, ?_, ?_, rfl, rfl, rfl⟩
    · rw [index, Std.ExtTreeMap.mem_insert, Std.compare_eq_iff_eq, eq_comm]
    · rw [entry, index, KeyedBatch.getElem?_insert_eq, if_neg different]
      rfl
    · rw [BlockTree.pprev, own, built]
    · rw [nHeight, own, built, nHeight, parentEntry]
    · rw [nStatus, own, built]
    · rw [nTx, nChainTx, own, built]
      exact ⟨rfl, rfl, rfl⟩
  · left
    have same := acceptBlockHeader_of_not_passesChecks genesisKnown passes
    simp only at same
    rw [acceptHeader, same]

end Header

end BlockTree

end Lycancoin
