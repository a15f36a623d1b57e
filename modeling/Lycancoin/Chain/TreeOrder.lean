import Lycancoin.Chain.BlockTree

namespace Lycancoin

open Lycancoin.Data

namespace BlockTree

variable {context : NodeContext} {tree before after : BlockTree} {hash other : Uint256}

section Edit

variable {change : CBlockIndex → CBlockIndex} {changeStatus : BlockStatus → BlockStatus}

theorem entry_edit (tree : BlockTree) (hash other : Uint256)
    (change : CBlockIndex → CBlockIndex) :
    (tree.edit hash change).entry other =
      if other = hash then change (tree.entry hash) else tree.entry other := by
  by_cases same : other = hash
  · subst same
    simp [entry, edit]
  · have different : ¬ hash = other := fun equal => same equal.symm
    simp [entry, edit, Std.ExtTreeMap.getElem?_insert, different, same]

theorem mem_edit (tree : BlockTree) (hash other : Uint256) (change : CBlockIndex → CBlockIndex) :
    other ∈ (tree.edit hash change).mapBlockIndex ↔ other = hash ∨ other ∈ tree.mapBlockIndex := by
  simp only [edit, Std.ExtTreeMap.mem_insert, Std.compare_eq_iff_eq]
  rw [eq_comm]

theorem entry_eq_null (absent : hash ∉ tree.mapBlockIndex) : tree.entry hash = CBlockIndex.null := by
  rw [entry, Std.ExtTreeMap.getElem?_eq_none absent, Option.getD_none]

theorem mem_of_nChainTx_ne_zero (linked : tree.nChainTx hash ≠ 0) : hash ∈ tree.mapBlockIndex := by
  by_contra absent
  rw [nChainTx, entry_eq_null absent] at linked
  exact linked rfl

theorem mem_of_failed (failed : (tree.nStatus hash).failed = true) : hash ∈ tree.mapBlockIndex := by
  by_contra absent
  rw [nStatus, entry_eq_null absent] at failed
  contradiction

theorem nStatus_editStatus (tree : BlockTree) (hash other : Uint256)
    (changeStatus : BlockStatus → BlockStatus) :
    (tree.editStatus hash changeStatus).nStatus other =
      if other = hash then changeStatus (tree.nStatus hash) else tree.nStatus other := by
  rw [nStatus, editStatus, entry_edit]
  split <;> rfl

end Edit

/-- The place of an entry in the order of `CBlockIndexWorkComparator`. -/
def sortKey (context : NodeContext) (tree : BlockTree) (hash : Uint256) : ℕ ×ₗ ℕᵒᵈ ×ₗ ℕᵒᵈ :=
  toLex ((tree.entry hash).nChainWork.toNat,
    toLex (OrderDual.toDual (tree.entry hash).nSequenceId, OrderDual.toDual (context.address hash)))

theorem sortKey_injective (context : NodeContext) (tree : BlockTree) :
    Function.Injective (tree.sortKey context) := by
  intro left right same
  have parts := congrArg ofLex same
  simp only [sortKey, ofLex_toLex, Prod.mk.injEq, toLex_inj, OrderDual.toDual_inj] at parts
  exact context.address_injective parts.2.2

theorem workComparator_iff (pa pb : Uint256) :
    tree.workComparator context pa pb = true ↔ tree.sortKey context pa < tree.sortKey context pb := by
  simp only [workComparator, sortKey, Prod.Lex.toLex_lt_toLex, OrderDual.toDual_lt_toDual,
    OrderDual.toDual_inj, gt_iff_lt, BitVec.lt_def]
  split_ifs <;> simp <;> omega

theorem worseThanTip_iff {pindexTip : Uint256} (isTip : tree.tip = some pindexTip) :
    tree.worseThanTip context hash = true ↔
      tree.sortKey context hash < tree.sortKey context pindexTip := by
  rw [worseThanTip, isTip, Option.any_some, workComparator_iff]

theorem lastCandidate_spec (context : NodeContext) (tree : BlockTree) (candidates : List Uint256) :
    (tree.lastCandidate context candidates = none ↔ candidates = []) ∧
      ∀ best, tree.lastCandidate context candidates = some best →
        best ∈ candidates ∧
          ∀ pindex ∈ candidates, tree.sortKey context pindex ≤ tree.sortKey context best := by
  induction candidates with
  | nil => simp [lastCandidate]
  | cons pindex rest ih =>
      obtain ⟨ihNone, ihSome⟩ := ih
      unfold lastCandidate
      cases last : tree.lastCandidate context rest with
      | none =>
          have empty := ihNone.mp last
          subst empty
          simp
      | some old =>
          obtain ⟨member, best⟩ := ihSome old last
          by_cases better : tree.workComparator context old pindex = true
          · simp only [if_pos better]
            rw [workComparator_iff] at better
            refine ⟨by simp, fun chosen equal => ?_⟩
            cases equal
            refine ⟨by simp, fun place placeMember => ?_⟩
            rcases List.mem_cons.mp placeMember with rfl | later
            · exact le_refl _
            · exact (best place later).trans better.le
          · simp only [if_neg better]
            rw [workComparator_iff, not_lt] at better
            refine ⟨by simp, fun chosen equal => ?_⟩
            cases equal
            refine ⟨by simp [member], fun place placeMember => ?_⟩
            rcases List.mem_cons.mp placeMember with rfl | later
            · exact better
            · exact best place later

/-- What stays as it is while chains are disconnected and connected: the tree,
its order and the stored data.  Failure bits and undo data are only added. -/
structure Advance (before after : BlockTree) : Prop where
  keys : after.mapBlockIndex.keys.toFinset = before.mapBlockIndex.keys.toFinset
  entries : ∀ hash, after.entry hash = { before.entry hash with nStatus := after.nStatus hash }
  nBlockSequenceId : after.nBlockSequenceId = before.nBlockSequenceId
  fHavePruned : after.fHavePruned = before.fHavePruned
  haveData : ∀ hash, (after.nStatus hash).haveData = (before.nStatus hash).haveData
  haveUndo : ∀ hash, (before.nStatus hash).haveUndo = true → (after.nStatus hash).haveUndo = true
  failedValid : ∀ hash, (before.nStatus hash).failedValid = true →
    (after.nStatus hash).failedValid = true
  failed : ∀ hash, (before.nStatus hash).failed = true → (after.nStatus hash).failed = true

namespace Advance

theorem of_index_eq (same : after.mapBlockIndex = before.mapBlockIndex)
    (nBlockSequenceId : after.nBlockSequenceId = before.nBlockSequenceId)
    (fHavePruned : after.fHavePruned = before.fHavePruned) : Advance before after := by
  have entries : after.entry = before.entry := by
    funext hash
    rw [entry, entry, same]
  refine ⟨by rw [same], fun hash => by rw [nStatus, entries], nBlockSequenceId, fHavePruned,
    fun hash => ?_, fun hash => ?_, fun hash => ?_, fun hash => ?_⟩
  all_goals
    rw [nStatus, nStatus, entries]
    try exact id

theorem refl (tree : BlockTree) : Advance tree tree :=
  of_index_eq rfl rfl rfl

theorem trans {middle : BlockTree} (first : Advance before middle)
    (second : Advance middle after) : Advance before after where
  keys := second.keys.trans first.keys
  entries hash := by rw [second.entries, first.entries]
  nBlockSequenceId := second.nBlockSequenceId.trans first.nBlockSequenceId
  fHavePruned := second.fHavePruned.trans first.fHavePruned
  haveData hash := (second.haveData hash).trans (first.haveData hash)
  haveUndo hash old := second.haveUndo hash (first.haveUndo hash old)
  failedValid hash old := second.failedValid hash (first.failedValid hash old)
  failed hash old := second.failed hash (first.failed hash old)

section Fields

variable (advance : Advance before after)
include advance

theorem pprev : after.pprev = before.pprev := by
  funext hash
  rw [BlockTree.pprev, advance.entries]
  rfl

theorem nHeight : after.nHeight = before.nHeight := by
  funext hash
  rw [BlockTree.nHeight, advance.entries]
  rfl

theorem nTx : after.nTx = before.nTx := by
  funext hash
  rw [BlockTree.nTx, advance.entries]
  rfl

theorem nChainTx : after.nChainTx = before.nChainTx := by
  funext hash
  rw [BlockTree.nChainTx, advance.entries]
  rfl

theorem sortKey : after.sortKey context = before.sortKey context := by
  funext hash
  rw [BlockTree.sortKey, advance.entries]
  rfl

theorem ancestry : after.ancestry = before.ancestry := by
  funext hash
  rw [BlockTree.ancestry, BlockTree.ancestry, advance.pprev, advance.nHeight]

theorem known : hash ∈ after.mapBlockIndex ↔ hash ∈ before.mapBlockIndex := by
  rw [← Std.ExtTreeMap.mem_keys, ← Std.ExtTreeMap.mem_keys, ← List.mem_toFinset, advance.keys,
    List.mem_toFinset]

end Fields

/-- A change of the status that keeps the data and drops no other bit. -/
theorem editStatus {change : BlockStatus → BlockStatus} (known : hash ∈ before.mapBlockIndex)
    (haveData : (change (before.nStatus hash)).haveData = (before.nStatus hash).haveData)
    (haveUndo : (before.nStatus hash).haveUndo = true →
      (change (before.nStatus hash)).haveUndo = true)
    (failedValid : (before.nStatus hash).failedValid = true →
      (change (before.nStatus hash)).failedValid = true)
    (failed : (before.nStatus hash).failed = true →
      (change (before.nStatus hash)).failed = true) :
    Advance before (before.editStatus hash change) := by
  refine ⟨?_, fun other => ?_, rfl, rfl, fun other => ?_, fun other => ?_, fun other => ?_,
    fun other => ?_⟩
  · ext other
    rw [List.mem_toFinset, List.mem_toFinset, Std.ExtTreeMap.mem_keys, Std.ExtTreeMap.mem_keys,
      BlockTree.editStatus, mem_edit]
    exact ⟨fun member => member.elim (fun same => same ▸ known) id, Or.inr⟩
  · rw [BlockTree.nStatus, BlockTree.editStatus, entry_edit]
    split
    · rename_i same
      rw [same]
    · rfl
  all_goals
    rw [nStatus_editStatus]
    split
    · rename_i same
      subst same
      assumption
    · first
        | rfl
        | exact id

end Advance

end BlockTree

end Lycancoin
