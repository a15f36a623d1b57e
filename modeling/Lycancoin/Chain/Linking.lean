import Lycancoin.Chain.Arrival

namespace Lycancoin

open Lycancoin.Data

namespace BlockTree

variable {context : NodeContext} {tree : BlockTree} {tip hash : Uint256}

section Store

variable {nTx nFile : Nat} {unlinked : List (Uint256 × Uint256)}

/-- The block files as they are when the data of a block is stored, with what then waits for
earlier blocks. -/
def stored (tree : BlockTree) (nTx nFile : Nat) (hash : Uint256)
    (unlinked : List (Uint256 × Uint256)) : BlockTree :=
  { tree.storeBlock nTx nFile hash with mapBlocksUnlinked := unlinked }

theorem entry_stored (tree : BlockTree) (nTx nFile : Nat) (hash other : Uint256)
    (unlinked : List (Uint256 × Uint256)) :
    (tree.stored nTx nFile hash unlinked).entry other =
      if other = hash then
        { tree.entry hash with
          nTx
          nChainTx := 0
          nFile
          nStatus := { tree.nStatus hash with haveData := true }.raiseValidity .transactions }
      else tree.entry other := by
  change (tree.storeBlock nTx nFile hash).entry other = _
  rw [storeBlock, entry_edit]
  rfl

theorem pprev_stored : (tree.stored nTx nFile hash unlinked).pprev = tree.pprev := by
  funext other
  rw [pprev, entry_stored]
  split
  · rename_i same
    rw [same]
    rfl
  · rfl

theorem nHeight_stored : (tree.stored nTx nFile hash unlinked).nHeight = tree.nHeight := by
  funext other
  rw [nHeight, entry_stored]
  split
  · rename_i same
    rw [same]
    rfl
  · rfl

theorem ancestry_stored : (tree.stored nTx nFile hash unlinked).ancestry = tree.ancestry := by
  funext other
  rw [ancestry, pprev_stored, nHeight_stored]
  rfl

theorem sortKey_stored :
    (tree.stored nTx nFile hash unlinked).sortKey context = tree.sortKey context := by
  funext other
  rw [sortKey, entry_stored]
  split
  · rename_i same
    rw [same]
    rfl
  · rfl

theorem nChainWork_stored (other : Uint256) :
    ((tree.stored nTx nFile hash unlinked).entry other).nChainWork =
      (tree.entry other).nChainWork := by
  rw [entry_stored]
  split
  · rename_i same
    rw [same]
  · rfl

theorem nSequenceId_stored (other : Uint256) :
    ((tree.stored nTx nFile hash unlinked).entry other).nSequenceId =
      (tree.entry other).nSequenceId := by
  rw [entry_stored]
  split
  · rename_i same
    rw [same]
  · rfl

theorem nTx_stored (other : Uint256) :
    (tree.stored nTx nFile hash unlinked).nTx other = if other = hash then nTx else tree.nTx other := by
  rw [BlockTree.nTx, entry_stored]
  split <;> rfl

theorem nStatus_stored (other : Uint256) :
    (tree.stored nTx nFile hash unlinked).nStatus other =
      if other = hash then
        { tree.nStatus hash with haveData := true }.raiseValidity .transactions
      else tree.nStatus other := by
  rw [nStatus, entry_stored]
  split <;> rfl

theorem mem_stored (known : hash ∈ tree.mapBlockIndex) (other : Uint256) :
    other ∈ (tree.stored nTx nFile hash unlinked).mapBlockIndex ↔ other ∈ tree.mapBlockIndex := by
  change other ∈ (tree.storeBlock nTx nFile hash).mapBlockIndex ↔ _
  rw [storeBlock, mem_edit]
  refine ⟨fun member => ?_, Or.inr⟩
  exact member.elim (fun same => same ▸ known) id

/-- A block whose data may be stored: it is known, not failed and not linked yet. -/
structure Storable (tree : BlockTree) (hash : Uint256) : Prop where
  known : hash ∈ tree.mapBlockIndex
  noData : (tree.nStatus hash).haveData = false
  unfailed : (tree.nStatus hash).failed = false
  unlinked : tree.nChainTx hash = 0

variable (storable : Storable tree hash)
include storable

theorem nChainTx_stored (other : Uint256) :
    (tree.stored nTx nFile hash unlinked).nChainTx other = tree.nChainTx other := by
  rw [nChainTx, entry_stored]
  split
  · rename_i same
    rw [same]
    exact storable.unlinked.symm
  · rfl

theorem nStatus_of_storable :
    ({ tree.nStatus hash with haveData := true }.raiseValidity .transactions) =
      { tree.nStatus hash with
        haveData := true
        validity := ({ tree.nStatus hash with haveData := true }.raiseValidity
          .transactions).validity } := by
  have unfailed : ({ tree.nStatus hash with haveData := true } : BlockStatus).failed = false :=
    storable.unfailed
  rw [BlockStatus.raiseValidity, unfailed]
  split_ifs <;> rfl

theorem failed_stored (other : Uint256) :
    ((tree.stored nTx nFile hash unlinked).nStatus other).failed = (tree.nStatus other).failed := by
  rw [nStatus_stored]
  split
  · rename_i same
    rw [nStatus_of_storable storable, same]
    rfl
  · rfl

theorem failedValid_stored (other : Uint256) :
    ((tree.stored nTx nFile hash unlinked).nStatus other).failedValid =
      (tree.nStatus other).failedValid := by
  rw [nStatus_stored]
  split
  · rename_i same
    rw [nStatus_of_storable storable, same]
  · rfl

theorem haveUndo_stored (other : Uint256) :
    ((tree.stored nTx nFile hash unlinked).nStatus other).haveUndo =
      (tree.nStatus other).haveUndo := by
  rw [nStatus_stored]
  split
  · rename_i same
    rw [nStatus_of_storable storable, same]
  · rfl

theorem haveData_stored (other : Uint256) :
    ((tree.stored nTx nFile hash unlinked).nStatus other).haveData = true ↔
      other = hash ∨ (tree.nStatus other).haveData = true := by
  rw [nStatus_stored]
  split
  · rename_i same
    rw [nStatus_of_storable storable]
    exact iff_of_true rfl (Or.inl same)
  · rename_i different
    exact (or_iff_right different).symm

theorem level_stored (other : Uint256) :
    (tree.stored nTx nFile hash unlinked).level other =
      if other = hash then max (tree.level hash) BlockValidity.transactions.level
      else tree.level other := by
  have unfailed : ({ tree.nStatus hash with haveData := true } : BlockStatus).failed = false :=
    storable.unfailed
  rw [level, nStatus_stored]
  split
  · rw [BlockStatus.level_raiseValidity, unfailed]
    rfl
  · rfl

theorem Activating.store (activating : Activating context tree tip)
    (pairs : ∀ pair ∈ unlinked, pair ∈ tree.mapBlocksUnlinked ∨
      (pair.2 = hash ∧ tree.pprev hash = some pair.1))
    (kept : ∀ pair ∈ tree.mapBlocksUnlinked, pair ∈ unlinked)
    (pending : ∀ pair ∈ tree.mapBlocksUnlinked, tree.nChainTx pair.2 = 0) :
    Activating context (tree.stored nTx nFile hash unlinked) tip := by
  have notCandidate : hash ∉ tree.setBlockIndexCandidates := fun candidate =>
    activating.candidates hash candidate storable.unlinked
  constructor
  · rw [pprev_stored, nHeight_stored]
    exact activating.graded
  · intro other
    rw [nChainTx_stored storable, pprev_stored]
    exact activating.root other
  · intro other above
    rw [nChainTx_stored storable, nChainTx_stored storable, pprev_stored]
    exact activating.linked other above
  · intro other
    rw [nChainTx_stored storable]
    exact activating.candidates other
  · rw [ancestry_stored]
    exact activating.active
  · intro other
    rw [nChainTx_stored storable]
    exact activating.activeLinked other
  · intro other
    rw [failed_stored storable]
    exact activating.activeValid other
  · intro other
    simp only [failed_stored storable, failedValid_stored storable, ancestry_stored]
    exact activating.blamed other
  · intro pair member
    rw [pprev_stored, nChainTx_stored storable]
    rcases pairs pair member with old | ⟨own, isParent⟩
    · obtain ⟨isParent, _, outside⟩ := activating.waiting pair old
      exact ⟨isParent, Or.inl (pending pair old), outside⟩
    · rw [own]
      exact ⟨isParent, Or.inl storable.unlinked, notCandidate⟩
  · exact activating.bestCandidate
  · intro place onPath
    rw [ancestry_stored] at onPath
    rw [failed_stored storable, haveData_stored storable]
    obtain ⟨valid, accepted, available⟩ := activating.bestValid place onPath
    exact ⟨valid, accepted, available.imp_right Or.inr⟩
  · intro other linked haveData valid order
    rw [nChainTx_stored storable] at linked
    rw [failed_stored storable] at valid
    rw [sortKey_stored] at order
    have different : other ≠ hash := by
      rintro rfl
      exact linked storable.unlinked
    have stored := ((haveData_stored storable other).mp haveData).resolve_left different
    refine (activating.complete other linked stored valid order).imp_right ?_
    rintro ⟨pair, member, same⟩
    exact ⟨pair, kept pair member, same⟩

theorem Unpruned.store (activating : Activating context tree tip)
    (unpruned : Unpruned context tree []) {queue : List Uint256} (positive : 0 < nTx)
    (pairs : ∀ pair ∈ unlinked, pair ∈ tree.mapBlocksUnlinked ∨
      (pair.2 = hash ∧ tree.pprev hash = some pair.1))
    (kept : ∀ pair ∈ tree.mapBlocksUnlinked, pair ∈ unlinked)
    (own : hash ∈ queue ∨ ∃ pprev, tree.pprev hash = some pprev ∧ tree.nChainTx pprev = 0 ∧
      ((pprev, hash) ∈ unlinked ∨ (tree.nStatus pprev).failed = true))
    (queued : ∀ other ∈ queue, other = hash ∧
      ∀ pprev, tree.pprev hash = some pprev → tree.nChainTx pprev ≠ 0)
    (distinct : (queue ++ unlinked.map Prod.snd).Nodup) :
    Unpruned context (tree.stored nTx nFile hash unlinked) queue := by
  constructor
  · intro other above
    rw [pprev_stored, mem_stored storable.known]
    exact unpruned.known other above
  · intro other
    rw [pprev_stored, mem_stored storable.known]
    exact unpruned.rooted other
  · intro other member
    rw [mem_stored storable.known] at member
    rw [level_stored storable]
    split
    · rename_i same
      rw [same] at member
      exact (unpruned.placed hash member).trans (Nat.le_max_left _ _)
    · exact unpruned.placed other member
  · intro other
    rw [haveData_stored storable, nTx_stored]
    split
    · rename_i same
      exact iff_of_true (Or.inl same) positive.ne'
    · rename_i different
      rw [or_iff_right different]
      exact unpruned.received other
  · intro other
    rw [level_stored storable, nTx_stored]
    split
    · exact iff_of_true (Nat.le_max_right _ _) positive.ne'
    · exact unpruned.checked other
  · intro other
    rw [nChainTx_stored storable, haveData_stored storable]
    exact fun linked => Or.inr (unpruned.stored other linked)
  · intro other
    rw [nChainTx_stored storable, nSequenceId_stored]
    exact unpruned.unnumbered other
  · intro other
    rw [haveUndo_stored storable, haveData_stored storable]
    exact fun haveUndo => Or.inr (unpruned.undoStored other haveUndo)
  · intro other
    rw [haveData_stored storable, nChainTx_stored storable, failed_stored storable]
    rintro (same | haveData) notLinked
    · rw [same]
      exact storable.unfailed
    · exact unpruned.unfailed other haveData notLinked
  · intro other high place onPath
    rw [ancestry_stored] at onPath
    have notOwn : other ≠ hash := by
      rintro rfl
      rw [level_stored storable, if_pos rfl] at high
      -- the block had no data, so it was not validated beyond its header
      have low : ¬ BlockValidity.transactions.level ≤ tree.level other := fun checked => by
        have received := (unpruned.received other).mpr ((unpruned.checked other).mp checked)
        rw [storable.noData] at received
        contradiction
      rw [max_eq_right (not_le.mp low).le] at high
      contradiction
    rw [level_stored storable, if_neg notOwn] at high
    refine (unpruned.validated other high place onPath).imp_right fun scripts => ?_
    rw [level_stored storable]
    split
    · rename_i same
      rw [same] at scripts
      exact scripts.trans (Nat.le_max_left _ _)
    · exact scripts
  · intro other active
    have notOwn : other ≠ hash := by
      rintro rfl
      exact activating.activeLinked other active storable.unlinked
    rw [level_stored storable, if_neg notOwn, haveUndo_stored storable]
    exact unpruned.active other active
  · intro other
    rw [haveData_stored storable, nChainTx_stored storable, pprev_stored]
    simp only [nChainTx_stored storable, failed_stored storable]
    rintro (same | haveData) notLinked
    · rw [same]
      exact own
    · obtain ⟨above, isParent, aboveUnlinked, why⟩ :=
        (unpruned.waits other haveData notLinked).resolve_left List.not_mem_nil
      exact Or.inr ⟨above, isParent, aboveUnlinked, why.imp_left (kept _)⟩
  · intro pair member
    rw [haveData_stored storable, nChainTx_stored storable]
    rcases pairs pair member with old | ⟨same, _⟩
    · obtain ⟨haveData, notLinked⟩ := unpruned.pending pair old
      exact ⟨Or.inr haveData, notLinked⟩
    · rw [same]
      exact ⟨Or.inl rfl, storable.unlinked⟩
  · intro other member
    obtain ⟨same, above⟩ := queued other member
    rw [haveData_stored storable, nChainTx_stored storable, pprev_stored, same]
    simp only [nChainTx_stored storable]
    exact ⟨Or.inl trivial, storable.unlinked, above⟩
  · exact distinct

omit storable in
theorem Trimmed.store (trimmed : Trimmed context tree) :
    Trimmed context (tree.stored nTx nFile hash unlinked) := by
  intro rises tip isTip other candidate
  rw [sortKey_stored]
  refine trimmed (fun place pprev isParent => ?_) tip isTip other candidate
  have more := rises place pprev (by rw [pprev_stored]; exact isParent)
  rwa [nChainWork_stored, nChainWork_stored] at more

end Store

theorem Unpruned.not_waiting {queue : List Uint256} (unpruned : Unpruned context tree queue)
    (noData : (tree.nStatus hash).haveData = false) :
    hash ∉ tree.mapBlocksUnlinked.map Prod.snd := by
  intro member
  obtain ⟨pair, isPair, rfl⟩ := List.mem_map.mp member
  rw [(unpruned.pending pair isPair).1] at noData
  contradiction

section Link

variable {pindex : Uint256} {queue : List Uint256}

def waiting (tree : BlockTree) (pindex : Uint256) : List Uint256 :=
  (tree.mapBlocksUnlinked.filter fun pair => pair.1 == pindex).map Prod.snd

/-- An entry gets its place in the order of arrival. -/
def number (tree : BlockTree) (pindex : Uint256) : BlockTree :=
  { tree.edit pindex fun entry =>
      { entry with
        nChainTx := (entry.pprev.map tree.nChainTx).getD 0 + entry.nTx
        nSequenceId := tree.nBlockSequenceId } with
    nBlockSequenceId := tree.nBlockSequenceId + 1 }

/-- One pass of the loop of `ReceivedBlockTransactions`. -/
def linkBlock (context : NodeContext) (tree : BlockTree) (pindex : Uint256) : BlockTree :=
  { if (tree.number pindex).worseThanTip context pindex then tree.number pindex
    else (tree.number pindex).insertCandidate pindex with
    mapBlocksUnlinked := tree.mapBlocksUnlinked.filter fun pair => pair.1 != pindex }

theorem linkBlocks_cons (fuel : Nat) (fresh : pindex ∉ tree.setBlockIndexCandidates) :
    linkBlocks context (fuel + 1) (pindex :: queue) tree =
      linkBlocks context fuel (queue ++ tree.waiting pindex) (tree.linkBlock context pindex) := by
  rw [linkBlocks, if_neg fresh]
  rfl

theorem entry_linkBlock (tree : BlockTree) (pindex other : Uint256) :
    (tree.linkBlock context pindex).entry other =
      if other = pindex then
        { tree.entry pindex with
          nChainTx := ((tree.pprev pindex).map tree.nChainTx).getD 0 + tree.nTx pindex
          nSequenceId := tree.nBlockSequenceId }
      else tree.entry other := by
  have sameIndex : (tree.linkBlock context pindex).mapBlockIndex =
      (tree.number pindex).mapBlockIndex := by
    unfold linkBlock
    split <;> rfl
  have edited := entry_edit tree pindex other fun entry =>
    { entry with
      nChainTx := (entry.pprev.map tree.nChainTx).getD 0 + entry.nTx
      nSequenceId := tree.nBlockSequenceId }
  rw [entry, sameIndex]
  exact edited

theorem pprev_linkBlock : (tree.linkBlock context pindex).pprev = tree.pprev := by
  funext other
  rw [pprev, entry_linkBlock]
  split
  · rename_i same
    rw [same]
    rfl
  · rfl

theorem nHeight_linkBlock : (tree.linkBlock context pindex).nHeight = tree.nHeight := by
  funext other
  rw [nHeight, entry_linkBlock]
  split
  · rename_i same
    rw [same]
    rfl
  · rfl

theorem nTx_linkBlock : (tree.linkBlock context pindex).nTx = tree.nTx := by
  funext other
  rw [nTx, entry_linkBlock]
  split
  · rename_i same
    rw [same]
    rfl
  · rfl

theorem nStatus_linkBlock : (tree.linkBlock context pindex).nStatus = tree.nStatus := by
  funext other
  rw [nStatus, entry_linkBlock]
  split
  · rename_i same
    rw [same]
    rfl
  · rfl

theorem ancestry_linkBlock : (tree.linkBlock context pindex).ancestry = tree.ancestry := by
  funext other
  rw [ancestry, pprev_linkBlock, nHeight_linkBlock]
  rfl

theorem level_linkBlock : (tree.linkBlock context pindex).level = tree.level := by
  funext other
  rw [level, nStatus_linkBlock]
  rfl

theorem nChainTx_linkBlock (other : Uint256) : (tree.linkBlock context pindex).nChainTx other =
    if other = pindex then ((tree.pprev pindex).map tree.nChainTx).getD 0 + tree.nTx pindex
    else tree.nChainTx other := by
  rw [nChainTx, entry_linkBlock]
  split <;> rfl

theorem sortKey_linkBlock_of_ne {other : Uint256} (different : other ≠ pindex) :
    (tree.linkBlock context pindex).sortKey context other = tree.sortKey context other := by
  rw [sortKey, entry_linkBlock, if_neg different]
  rfl

theorem nChainWork_linkBlock (other : Uint256) :
    ((tree.linkBlock context pindex).entry other).nChainWork = (tree.entry other).nChainWork := by
  rw [entry_linkBlock]
  split
  · rename_i same
    rw [same]
  · rfl

theorem chainActive_linkBlock :
    (tree.linkBlock context pindex).chainActive = tree.chainActive := by
  unfold linkBlock
  split <;> rfl

theorem mem_linkBlock (known : pindex ∈ tree.mapBlockIndex) (other : Uint256) :
    other ∈ (tree.linkBlock context pindex).mapBlockIndex ↔ other ∈ tree.mapBlockIndex := by
  have sameIndex : (tree.linkBlock context pindex).mapBlockIndex =
      (tree.number pindex).mapBlockIndex := by
    unfold linkBlock
    split <;> rfl
  have edited := mem_edit tree pindex other fun entry =>
    { entry with
      nChainTx := (entry.pprev.map tree.nChainTx).getD 0 + entry.nTx
      nSequenceId := tree.nBlockSequenceId }
  rw [sameIndex]
  refine edited.trans ⟨fun member => ?_, Or.inr⟩
  exact member.elim (fun same => same ▸ known) id

theorem mem_candidates_linkBlock (isTip : tree.tip = some tip) (other : Uint256) :
    other ∈ (tree.linkBlock context pindex).setBlockIndexCandidates ↔
      other ∈ tree.setBlockIndexCandidates ∨ (other = pindex ∧
        (tree.linkBlock context pindex).sortKey context tip ≤
          (tree.linkBlock context pindex).sortKey context pindex) := by
  have sameKey : (tree.linkBlock context pindex).sortKey context =
      (tree.number pindex).sortKey context := by
    unfold linkBlock
    split <;> rfl
  have numberTip : (tree.number pindex).tip = some tip := isTip
  have decides : (tree.number pindex).worseThanTip context pindex = true ↔
      (tree.number pindex).sortKey context pindex < (tree.number pindex).sortKey context tip :=
    worseThanTip_iff numberTip
  rw [sameKey, ← not_lt, ← decides]
  by_cases worse : (tree.number pindex).worseThanTip context pindex = true
  · have same : (tree.linkBlock context pindex).setBlockIndexCandidates =
        tree.setBlockIndexCandidates := by
      rw [linkBlock, if_pos worse]
      rfl
    rw [same]
    simp [worse]
  · have grown : (tree.linkBlock context pindex).setBlockIndexCandidates =
        tree.setBlockIndexCandidates.insert pindex := by
      rw [linkBlock, if_neg worse]
      rfl
    rw [grown, List.mem_insert_iff]
    simp only [worse, Bool.false_eq_true, not_false_eq_true, and_true]
    exact or_comm

theorem linked_of_linkBlock {other : Uint256}
    (linked : (tree.linkBlock context pindex).nChainTx other ≠ 0) :
    other = pindex ∨ tree.nChainTx other ≠ 0 := by
  rw [nChainTx_linkBlock] at linked
  split at linked
  · rename_i same
    exact Or.inl same
  · exact Or.inr linked

section Queued

variable (unpruned : Unpruned context tree (pindex :: queue))
include unpruned

theorem Unpruned.linked_self : (tree.linkBlock context pindex).nChainTx pindex ≠ 0 := by
  have received := (unpruned.received pindex).mp (unpruned.queued pindex List.mem_cons_self).1
  rw [nChainTx_linkBlock, if_pos rfl]
  omega

theorem Unpruned.ne_of_linked {other : Uint256} (linked : tree.nChainTx other ≠ 0) :
    other ≠ pindex := by
  rintro rfl
  exact linked (unpruned.queued other List.mem_cons_self).2.1

theorem Unpruned.linked_of_linked {other : Uint256} (linked : tree.nChainTx other ≠ 0) :
    (tree.linkBlock context pindex).nChainTx other ≠ 0 := by
  rw [nChainTx_linkBlock, if_neg (unpruned.ne_of_linked linked)]
  exact linked

/-- What waits for other entries is neither linked nor queued. -/
theorem Unpruned.pending_of_mem {pair : Uint256 × Uint256} (member : pair ∈ tree.mapBlocksUnlinked) :
    pair.2 ≠ pindex ∧ (tree.linkBlock context pindex).nChainTx pair.2 = 0 := by
  have different : pair.2 ≠ pindex := by
    rintro rfl
    exact (List.nodup_cons.mp unpruned.distinct).1
      (List.mem_append_right _ (List.mem_map_of_mem member))
  refine ⟨different, ?_⟩
  rw [nChainTx_linkBlock, if_neg different]
  exact (unpruned.pending pair member).2

variable (activating : Activating context tree tip) (isTip : tree.tip = some tip)
include activating

theorem Unpruned.fresh : pindex ∉ tree.setBlockIndexCandidates := fun candidate =>
  activating.candidates pindex candidate (unpruned.queued pindex List.mem_cons_self).2.1

include isTip

theorem Activating.link : Activating context (tree.linkBlock context pindex) tip := by
  obtain ⟨ownData, ownUnlinked, parentLinked⟩ := unpruned.queued pindex List.mem_cons_self
  have known : pindex ∈ tree.mapBlockIndex := by
    by_contra absent
    rw [nStatus, entry_eq_null absent] at ownData
    contradiction
  have tipLinked := activating.activeLinked tip (List.mem_of_mem_head? isTip)
  have tipOther := unpruned.ne_of_linked tipLinked
  constructor
  · rw [pprev_linkBlock, nHeight_linkBlock]
    exact activating.graded
  · intro hash linked isRoot
    rw [pprev_linkBlock] at isRoot
    rcases linked_of_linkBlock linked with same | old
    · rw [same] at isRoot ⊢
      exact unpruned.rooted pindex known isRoot
    · exact activating.root hash old isRoot
  · intro hash above linked isParent
    rw [pprev_linkBlock] at isParent
    apply unpruned.linked_of_linked
    rcases linked_of_linkBlock linked with same | old
    · rw [same] at isParent
      exact parentLinked above isParent
    · exact activating.linked hash above old isParent
  · intro hash candidate
    rcases (mem_candidates_linkBlock isTip hash).mp candidate with old | ⟨same, _⟩
    · exact unpruned.linked_of_linked (activating.candidates hash old)
    · rw [same]
      exact unpruned.linked_self
  · rw [BlockTree.tip, chainActive_linkBlock, ancestry_linkBlock]
    exact activating.active
  · rw [chainActive_linkBlock]
    intro hash active
    exact unpruned.linked_of_linked (activating.activeLinked hash active)
  · rw [chainActive_linkBlock, nStatus_linkBlock]
    exact activating.activeValid
  · rw [nStatus_linkBlock, ancestry_linkBlock]
    exact activating.blamed
  · intro pair member
    have old : pair ∈ tree.mapBlocksUnlinked := List.mem_of_mem_filter member
    obtain ⟨different, notLinked⟩ := unpruned.pending_of_mem old
    obtain ⟨isParent, _, outside⟩ := activating.waiting pair old
    rw [pprev_linkBlock, mem_candidates_linkBlock isTip]
    exact ⟨isParent, Or.inl notLinked, fun candidate =>
      candidate.elim outside fun own => different own.1⟩
  · exact (mem_candidates_linkBlock isTip tip).mpr (Or.inl activating.bestCandidate)
  · rw [ancestry_linkBlock, nStatus_linkBlock, chainActive_linkBlock]
    exact activating.bestValid
  · intro hash linked haveData valid order
    rw [nStatus_linkBlock] at haveData valid
    left
    rw [mem_candidates_linkBlock isTip]
    rcases linked_of_linkBlock linked with same | old
    · rw [same] at order
      exact Or.inr ⟨same, order⟩
    · rw [sortKey_linkBlock_of_ne tipOther,
        sortKey_linkBlock_of_ne (unpruned.ne_of_linked old)] at order
      rcases activating.complete hash old haveData valid order with
        candidate | ⟨pair, member, same⟩
      · exact Or.inl candidate
      · rw [← same] at old
        exact absurd (unpruned.pending pair member).2 old

omit isTip in
theorem Unpruned.link : Unpruned context (tree.linkBlock context pindex)
    (queue ++ tree.waiting pindex) := by
  obtain ⟨ownData, ownUnlinked, parentLinked⟩ := unpruned.queued pindex List.mem_cons_self
  have known : pindex ∈ tree.mapBlockIndex := by
    by_contra absent
    rw [nStatus, entry_eq_null absent] at ownData
    contradiction
  have others : ∀ {hash}, (tree.linkBlock context pindex).nChainTx hash = 0 →
      hash ≠ pindex ∧ tree.nChainTx hash = 0 := by
    intro hash notLinked
    have different : hash ≠ pindex := by
      rintro rfl
      exact unpruned.linked_self notLinked
    rw [nChainTx_linkBlock, if_neg different] at notLinked
    exact ⟨different, notLinked⟩
  have sameWaiting : (tree.linkBlock context pindex).mapBlocksUnlinked =
      tree.mapBlocksUnlinked.filter fun pair => pair.1 != pindex := rfl
  constructor
  · intro hash above isParent
    rw [pprev_linkBlock] at isParent
    exact (mem_linkBlock known above).mpr (unpruned.known hash above isParent)
  · intro hash member
    rw [pprev_linkBlock]
    exact unpruned.rooted hash ((mem_linkBlock known hash).mp member)
  · intro hash member
    rw [level_linkBlock]
    exact unpruned.placed hash ((mem_linkBlock known hash).mp member)
  · rw [nStatus_linkBlock, nTx_linkBlock]
    exact unpruned.received
  · rw [level_linkBlock, nTx_linkBlock]
    exact unpruned.checked
  · intro hash linked
    rw [nStatus_linkBlock]
    rcases linked_of_linkBlock linked with same | old
    · rw [same]
      exact ownData
    · exact unpruned.stored hash old
  · intro hash notLinked
    obtain ⟨different, old⟩ := others notLinked
    rw [entry_linkBlock, if_neg different]
    exact unpruned.unnumbered hash old
  · rw [nStatus_linkBlock]
    exact unpruned.undoStored
  · intro hash haveData notLinked
    rw [nStatus_linkBlock] at haveData ⊢
    exact unpruned.unfailed hash haveData (others notLinked).2
  · rw [level_linkBlock, ancestry_linkBlock]
    exact unpruned.validated
  · rw [chainActive_linkBlock, level_linkBlock, nStatus_linkBlock]
    exact unpruned.active
  · intro hash haveData notLinked
    rw [nStatus_linkBlock] at haveData
    obtain ⟨different, old⟩ := others notLinked
    rw [pprev_linkBlock, nStatus_linkBlock, sameWaiting]
    rcases unpruned.waits hash haveData old with inQueue | ⟨above, isParent, aboveUnlinked, why⟩
    · exact Or.inl (List.mem_append_left _ ((List.mem_cons.mp inQueue).resolve_left different))
    · by_cases own : above = pindex
      · -- an entry with data that is not linked is not failed
        subst own
        have member : (above, hash) ∈ tree.mapBlocksUnlinked := by
          refine why.resolve_right fun failed => ?_
          rw [unpruned.unfailed above ownData ownUnlinked] at failed
          contradiction
        refine Or.inl (List.mem_append_right _ (List.mem_map.mpr ⟨(above, hash), ?_, rfl⟩))
        rw [List.mem_filter]
        exact ⟨member, beq_self_eq_true above⟩
      · refine Or.inr ⟨above, isParent, ?_, why.imp_left fun member => ?_⟩
        · rw [nChainTx_linkBlock, if_neg own]
          exact aboveUnlinked
        · rw [List.mem_filter]
          exact ⟨member, by simpa using own⟩
  · intro pair member
    rw [sameWaiting] at member
    have old : pair ∈ tree.mapBlocksUnlinked := List.mem_of_mem_filter member
    rw [nStatus_linkBlock]
    exact ⟨(unpruned.pending pair old).1, (unpruned.pending_of_mem old).2⟩
  · intro hash member
    rw [nStatus_linkBlock, pprev_linkBlock]
    rcases List.mem_append.mp member with inQueue | isWaiting
    · obtain ⟨haveData, notLinked, above⟩ := unpruned.queued hash (List.mem_cons_of_mem _ inQueue)
      have different : hash ≠ pindex := by
        rintro rfl
        exact (List.nodup_cons.mp unpruned.distinct).1 (List.mem_append_left _ inQueue)
      refine ⟨haveData, ?_, fun pprev isParent => unpruned.linked_of_linked (above pprev isParent)⟩
      rw [nChainTx_linkBlock, if_neg different]
      exact notLinked
    · obtain ⟨pair, kept, rfl⟩ := List.mem_map.mp isWaiting
      obtain ⟨old, isOwn⟩ := List.mem_filter.mp kept
      obtain ⟨isParent, _, _⟩ := activating.waiting pair old
      refine ⟨(unpruned.pending pair old).1, (unpruned.pending_of_mem old).2, fun pprev other => ?_⟩
      cases isParent.symm.trans other
      rw [eq_of_beq isOwn]
      exact unpruned.linked_self
  · have parts : (tree.waiting pindex ++
        (tree.mapBlocksUnlinked.filter fun pair => pair.1 != pindex).map Prod.snd).Perm
        (tree.mapBlocksUnlinked.map Prod.snd) := by
      rw [waiting, ← List.map_append]
      exact (List.filter_append_perm (fun pair => pair.1 == pindex) tree.mapBlocksUnlinked).map _
    rw [sameWaiting, List.append_assoc]
    exact ((parts.append_left queue).nodup_iff).mpr (List.nodup_cons.mp unpruned.distinct).2

/-- What is linked becomes a candidate only if it does not sort below the tip. -/
theorem Trimmed.link (trimmed : Trimmed context tree) :
    Trimmed context (tree.linkBlock context pindex) := by
  intro rises newTip isNewTip other candidate
  rw [BlockTree.tip, chainActive_linkBlock] at isNewTip
  cases isTip.symm.trans isNewTip
  have risesBefore : tree.WorkRises := by
    intro place pprev isParent
    have more := rises place pprev (by rw [pprev_linkBlock]; exact isParent)
    rwa [nChainWork_linkBlock, nChainWork_linkBlock] at more
  have tipLinked := activating.activeLinked tip (List.mem_of_mem_head? isTip)
  rcases (mem_candidates_linkBlock isTip other).mp candidate with old | ⟨rfl, order⟩
  · rw [sortKey_linkBlock_of_ne (unpruned.ne_of_linked tipLinked),
      sortKey_linkBlock_of_ne (unpruned.ne_of_linked (activating.candidates other old))]
    exact trimmed risesBefore tip isTip other old
  · exact order

end Queued

/-- The loop of `ReceivedBlockTransactions` links everything that waited, and renumbers no
candidate on the way. -/
theorem linkBlocks_spec {fuel : Nat} (activating : Activating context tree tip)
    (isTip : tree.tip = some tip) (unpruned : Unpruned context tree queue)
    (trimmed : Trimmed context tree)
    (enough : queue.length + tree.mapBlocksUnlinked.length < fuel) :
    ∃ after, linkBlocks context fuel queue tree = some after ∧
      Activating context after tip ∧ after.tip = some tip ∧ Unpruned context after [] ∧
      Trimmed context after := by
  induction fuel generalizing tree queue with
  | zero => contradiction
  | succ fuel ih =>
      cases queue with
      | nil => exact ⟨tree, rfl, activating, isTip, unpruned, trimmed⟩
      | cons pindex queue =>
          rw [linkBlocks_cons fuel (unpruned.fresh activating)]
          have sameTip : (tree.linkBlock context pindex).tip = some tip := by
            rw [BlockTree.tip, chainActive_linkBlock]
            exact isTip
          have counts : (tree.waiting pindex).length +
              (tree.mapBlocksUnlinked.filter fun pair => pair.1 != pindex).length =
              tree.mapBlocksUnlinked.length := by
            rw [waiting, List.length_map, ← List.length_append]
            exact (List.filter_append_perm (fun pair => pair.1 == pindex)
              tree.mapBlocksUnlinked).length_eq
          refine ih (activating.link unpruned isTip) sameTip (unpruned.link activating)
            (trimmed.link unpruned activating isTip) ?_
          rw [List.length_append]
          change queue.length + (tree.waiting pindex).length +
            (tree.mapBlocksUnlinked.filter fun pair => pair.1 != pindex).length < fuel
          rw [List.length_cons] at enough
          omega

end Link

end BlockTree

end Lycancoin
