import Lycancoin.Wallet.ReorderRun

namespace Lycancoin

namespace OrderedItem

/-- The highest old position of some items, -1 when none has one. -/
def highest (items : List OrderedItem) : Int :=
  items.foldr (fun item top => max item.nOrderPos top) (-1)

/-- How many of some items have no position. -/
def unordered (items : List OrderedItem) : Int :=
  items.countP fun item => decide (item.nOrderPos = -1)

/-- How many items without a position come before every item with `position` or a higher one. -/
def unorderedBelow (position : Int) (items : List OrderedItem) : Int :=
  unordered (items.takeWhile fun item => decide (item.nOrderPos < position))

/-- Every item of a list and the items before it, behind some `before`. -/
def EachAfter (holds : List OrderedItem → OrderedItem → Prop) :
    List OrderedItem → List OrderedItem → Prop
  | _, [] => True
  | before, item :: items => holds before item ∧ EachAfter holds (before ++ [item]) items

instance EachAfter.instDecidable (holds : List OrderedItem → OrderedItem → Prop)
    [∀ before item, Decidable (holds before item)] :
    (before items : List OrderedItem) → Decidable (EachAfter holds before items)
  | _, [] => isTrue trivial
  | before, item :: items =>
      have := instDecidable holds (before ++ [item]) items
      inferInstanceAs (Decidable (holds before item ∧ EachAfter holds (before ++ [item]) items))

/-- An old position is not right above the old positions before an item without one, closer than
there are such items before that one. -/
def Clears (position : Int) (before : List OrderedItem) : Prop :=
  EachAfter (fun earlier item => item.nOrderPos = -1 →
    position ≤ highest earlier ∨ highest earlier + unordered earlier < position) [] before

instance (position : Int) (before : List OrderedItem) : Decidable (Clears position before) :=
  inferInstanceAs (Decidable (EachAfter _ _ _))

section

variable {before items : List OrderedItem} {item : OrderedItem} {position : Int}
  {holds : List OrderedItem → OrderedItem → Prop}

theorem EachAfter.append_singleton :
    EachAfter holds before (items ++ [item]) ↔
      EachAfter holds before items ∧ holds (before ++ items) item := by
  induction items generalizing before with
  | nil => simp [EachAfter]
  | cons first items ih => simp [EachAfter, ih, and_assoc]

@[simp] theorem clears_append_singleton :
    Clears position (before ++ [item]) ↔ Clears position before ∧ (item.nOrderPos = -1 →
      position ≤ highest before ∨ highest before + unordered before < position) := by
  simp [Clears, EachAfter.append_singleton]

theorem EachAfter.of_forall (all : ∀ before item, holds before item) :
    EachAfter holds before items := by
  induction items generalizing before with
  | nil => trivial
  | cons item items ih => exact ⟨all before item, ih⟩

theorem neg_one_le_highest (items : List OrderedItem) : -1 ≤ highest items := by
  induction items with
  | nil => rfl
  | cons item items ih => exact ih.trans (le_max_right _ _)

@[simp] theorem highest_append_singleton :
    highest (before ++ [item]) = max item.nOrderPos (highest before) := by
  induction before with
  | nil => simp [highest]
  | cons first before ih =>
      simp only [highest, List.cons_append, List.foldr_cons] at ih ⊢
      rw [ih]
      exact max_left_comm _ _ _

theorem clears_unordered (unordered : item.nOrderPos = -1) : Clears item.nOrderPos before :=
  EachAfter.of_forall fun earlier _ _ => Or.inl (unordered ▸ neg_one_le_highest earlier)

theorem highest_lt_iff (positionNonneg : 0 ≤ position) :
    highest items < position ↔ ∀ item ∈ items, item.nOrderPos < position := by
  induction items with
  | nil =>
      simp only [highest, List.foldr_nil, List.not_mem_nil, false_imp_iff, implies_true, iff_true]
      omega
  | cons item items ih =>
      have both : highest (item :: items) = max item.nOrderPos (highest items) := rfl
      rw [both, max_lt_iff, ih, List.forall_mem_cons]

@[simp] theorem unordered_append_singleton :
    unordered (before ++ [item]) =
      unordered before + if item.nOrderPos = -1 then 1 else 0 := by
  unfold unordered
  rw [List.countP_append, List.countP_singleton]
  split <;> simp_all

theorem unorderedBelow_le : unorderedBelow position items ≤ unordered items := by
  unfold unorderedBelow unordered
  exact_mod_cast (List.takeWhile_sublist _).countP_le

theorem unorderedBelow_of_highest_lt (positionNonneg : 0 ≤ position)
    (above : highest items < position) : unorderedBelow position items = unordered items := by
  unfold unorderedBelow
  rw [List.takeWhile_eq_self_iff.2]
  simpa using (highest_lt_iff positionNonneg).1 above

theorem unorderedBelow_append_singleton (positionNonneg : 0 ≤ position) :
    unorderedBelow position (before ++ [item]) = unorderedBelow position before +
      if item.nOrderPos = -1 ∧ highest before < position then 1 else 0 := by
  by_cases above : highest before < position
  · have all := (highest_lt_iff positionNonneg).1 above
    have whole : before.takeWhile (fun item => decide (item.nOrderPos < position)) = before :=
      List.takeWhile_eq_self_iff.2 (by simpa using all)
    unfold unorderedBelow
    rw [List.takeWhile_append, whole, if_pos rfl]
    by_cases below : item.nOrderPos < position
    · simp [List.takeWhile, below, above]
    · have ordered : item.nOrderPos ≠ -1 := by omega
      simp [List.takeWhile, below, ordered]
  · have stops : (before.takeWhile fun item => decide (item.nOrderPos < position)).length ≠
        before.length := by
      intro same
      apply above
      rw [highest_lt_iff positionNonneg]
      have whole := (List.takeWhile_sublist _).eq_of_length same
      simpa using List.takeWhile_eq_self_iff.1 whole
    unfold unorderedBelow
    rw [List.takeWhile_append, if_neg stops]
    simp [above]

end

end OrderedItem

namespace ReorderState

open OrderedItem

variable {state last : ReorderState} {before items unlisted : List OrderedItem}
  {item : OrderedItem} {position : Int}

/-- `nOrderPosOff` where a position is moved by what was counted before it is compared. -/
def movedOff (state : ReorderState) (position : Int) : Int :=
  state.nOrderPosOffsets.foldl
    (fun nOrderPosOff nOffsetStart =>
      if position + nOrderPosOff ≥ nOffsetStart then nOrderPosOff + 1 else nOrderPosOff) 0

/-- Every visit counts what it would count with the moved position. -/
def CountsMoved : List OrderedItem → ReorderState → Prop
  | [], _ => True
  | item :: items, state =>
      (item.nOrderPos ≠ -1 →
        state.nOrderPosOff item.nOrderPos = state.movedOff item.nOrderPos) ∧
      CountsMoved items (state.next item)

theorem movedOff_next_unordered (unordered : item.nOrderPos = -1) :
    (state.next item).movedOff position = state.movedOff position +
      if state.nOrderPosNext ≤ position + state.movedOff position then 1 else 0 := by
  unfold next movedOff
  rw [if_pos unordered, List.foldl_append]
  simp only [List.foldl_cons, List.foldl_nil, ge_iff_le]
  split <;> simp

theorem movedOff_next_ordered (ordered : item.nOrderPos ≠ -1) :
    (state.next item).movedOff position = state.movedOff position := by
  simp [next, ordered, movedOff]

/-- The loop after `before`, when every visit counted with the moved position: an item is moved by
the unordered items before all higher ones, which does not put it onto one of them. -/
structure Straight (before : List OrderedItem) (state : ReorderState) : Prop where
  next : state.nOrderPosNext = highest before + 1 + unordered before
  offsets : ∀ offset ∈ state.nOrderPosOffsets, offset < state.nOrderPosNext
  moved : ∀ position, 0 ≤ position → state.movedOff position = unorderedBelow position before
  free : ∀ position, 0 ≤ position →
    position + state.movedOff position ∉ state.nOrderPosOffsets
  counted_le : ∀ position, 0 ≤ position → state.nOrderPosOff position ≤ state.movedOff position
  counted_iff : ∀ position, 0 ≤ position →
    (state.nOrderPosOff position = state.movedOff position ↔ Clears position before)

theorem Straight.start : Straight [] ⟨0, []⟩ := by
  constructor <;>
    simp [highest, unordered, unorderedBelow, movedOff, nOrderPosOff, Clears, EachAfter]

/-- An unordered item is above a moved position just when an old position before it is. -/
theorem Straight.next_le_iff (straight : Straight before state) (positionNonneg : 0 ≤ position) :
    state.nOrderPosNext ≤ position + state.movedOff position ↔ highest before < position := by
  rw [straight.next, straight.moved position positionNonneg]
  constructor
  · intro reaches
    have most := @unorderedBelow_le before position
    omega
  · intro above
    rw [unorderedBelow_of_highest_lt positionNonneg above]
    omega

theorem Straight.next_unordered (straight : Straight before state)
    (unordered : item.nOrderPos = -1) : Straight (before ++ [item]) (state.next item) := by
  have nextEq : (state.next item).nOrderPosNext = state.nOrderPosNext + 1 := by
    simp [ReorderState.next, unordered]
  have offsetsEq : (state.next item).nOrderPosOffsets =
      state.nOrderPosOffsets ++ [state.nOrderPosNext] := by
    simp [ReorderState.next, unordered]
  have movedEq : ∀ position, 0 ≤ position → (state.next item).movedOff position =
      state.movedOff position + if highest before < position then 1 else 0 := by
    intro position nonneg
    rw [movedOff_next_unordered unordered]
    simp only [straight.next_le_iff nonneg]
  constructor
  · have top := neg_one_le_highest before
    rw [nextEq, straight.next, highest_append_singleton, unordered_append_singleton,
      if_pos unordered, unordered, max_eq_right top]
    omega
  · intro offset member
    rw [offsetsEq, List.mem_append, List.mem_singleton] at member
    rw [nextEq]
    rcases member with earlier | rfl
    · have below := straight.offsets offset earlier
      omega
    · omega
  · intro position nonneg
    rw [movedEq position nonneg, straight.moved position nonneg,
      unorderedBelow_append_singleton nonneg]
    simp [unordered]
  · intro position nonneg
    have reaches := straight.next_le_iff nonneg
    rw [movedEq position nonneg, offsetsEq, List.mem_append, List.mem_singleton, not_or]
    split
    · next above =>
      -- past all offsets and the new one
      have far := reaches.2 above
      refine ⟨fun earlier => ?_, by omega⟩
      have below := straight.offsets _ earlier
      omega
    · next above =>
      have short := mt reaches.1 above
      rw [add_zero]
      exact ⟨straight.free position nonneg, by omega⟩
  · intro position nonneg
    have least := straight.counted_le position nonneg
    have reaches := straight.next_le_iff nonneg
    have none := @nOrderPosOff_nonneg state position
    rw [movedEq position nonneg, nOrderPosOff_next_unordered unordered]
    split <;> split <;> omega
  · intro position nonneg
    have least := straight.counted_le position nonneg
    have reaches := straight.next_le_iff nonneg
    have none := @nOrderPosOff_nonneg state position
    have next := straight.next
    rw [movedEq position nonneg, nOrderPosOff_next_unordered unordered, clears_append_singleton,
      ← straight.counted_iff position nonneg]
    simp only [unordered, true_imp_iff]
    split <;> split <;> omega

theorem Straight.next_ordered (straight : Straight before state) (ordered : item.nOrderPos ≠ -1)
    (positionNonneg : 0 ≤ item.nOrderPos)
    (counts : state.nOrderPosOff item.nOrderPos = state.movedOff item.nOrderPos) :
    Straight (before ++ [item]) (state.next item) := by
  have nextEq : (state.next item).nOrderPosNext =
      max state.nOrderPosNext (item.nOrderPos + state.movedOff item.nOrderPos + 1) := by
    simp [ReorderState.next, ordered, counts]
  have offsetsEq : (state.next item).nOrderPosOffsets = state.nOrderPosOffsets := by
    simp [ReorderState.next, ordered]
  constructor
  · have reaches := straight.next_le_iff positionNonneg
    have next := straight.next
    have moved := straight.moved item.nOrderPos positionNonneg
    rw [nextEq, highest_append_singleton, unordered_append_singleton, if_neg ordered]
    by_cases above : highest before < item.nOrderPos
    · rw [unorderedBelow_of_highest_lt positionNonneg above] at moved
      omega
    · omega
  · intro offset member
    rw [offsetsEq] at member
    have below := straight.offsets offset member
    omega
  · intro position nonneg
    rw [movedOff_next_ordered ordered, straight.moved position nonneg,
      unorderedBelow_append_singleton nonneg]
    simp [ordered]
  · intro position nonneg
    rw [movedOff_next_ordered ordered, offsetsEq]
    exact straight.free position nonneg
  · intro position nonneg
    rw [movedOff_next_ordered ordered, nOrderPosOff_next_ordered ordered]
    exact straight.counted_le position nonneg
  · intro position nonneg
    rw [movedOff_next_ordered ordered, nOrderPosOff_next_ordered ordered,
      straight.counted_iff position nonneg, clears_append_singleton]
    simp [ordered]

/-- What some entries leave free for an item: its position afterwards, when each visit counts with
the moved position, is not that of an entry, nor beyond one with a higher position. -/
def LeaveFree (entries before : List OrderedItem) (item : OrderedItem) : Prop :=
  if item.nOrderPos = -1 then
    ∀ entry ∈ entries, entry.nOrderPos ≠ highest before + 1 + unordered before
  else
    ∀ entry ∈ entries, item.nOrderPos < entry.nOrderPos →
      item.nOrderPos + unorderedBelow item.nOrderPos before < entry.nOrderPos

instance (entries before : List OrderedItem) (item : OrderedItem) :
    Decidable (LeaveFree entries before item) := by
  unfold LeaveFree
  infer_instance

/-- The visits count with the moved positions just when every item clears those before it. -/
theorem Straight.countsMoved_iff (straight : Straight before state)
    (range : ∀ item ∈ items, item.nOrderPos = -1 ∨ 0 ≤ item.nOrderPos) :
    EachAfter (fun before item => Clears item.nOrderPos before) before items ↔
      CountsMoved items state := by
  induction items generalizing before state with
  | nil => exact Iff.rfl
  | cons item items ih =>
      have ranges := List.forall_mem_cons.1 range
      unfold EachAfter CountsMoved
      by_cases unordered : item.nOrderPos = -1
      · rw [ih (straight.next_unordered unordered) ranges.2]
        exact ⟨fun both => ⟨fun ordered => absurd unordered ordered, both.2⟩,
          fun both => ⟨clears_unordered unordered, both.2⟩⟩
      · have nonneg : 0 ≤ item.nOrderPos := ranges.1.resolve_left unordered
        rw [← straight.counted_iff item.nOrderPos nonneg]
        refine ⟨fun both => ⟨fun _ => both.1, ?_⟩, fun both => ⟨both.1 unordered, ?_⟩⟩
        · exact (ih (straight.next_ordered unordered nonneg both.1) ranges.2).1 both.2
        · exact (ih (straight.next_ordered unordered nonneg (both.1 unordered)) ranges.2).2 both.2

/-- Where a visit counts with the moved position, only an entry that is not loaded can be in its
way. -/
theorem Straight.clashes_iff (straight : Straight before state)
    (range : item.nOrderPos = -1 ∨ 0 ≤ item.nOrderPos) (clears : Clears item.nOrderPos before) :
    ¬state.Clashes unlisted item ↔ LeaveFree unlisted before item := by
  unfold Clashes LeaveFree
  split
  · rw [straight.next]
    push Not
    rfl
  · next ordered =>
      have nonneg : 0 ≤ item.nOrderPos := range.resolve_left ordered
      rw [(straight.counted_iff item.nOrderPos nonneg).2 clears, not_or,
        ← straight.moved item.nOrderPos nonneg]
      push Not
      exact and_iff_right (straight.free item.nOrderPos nonneg)

theorem Straight.clear_iff (straight : Straight before state)
    (range : ∀ item ∈ items, item.nOrderPos = -1 ∨ 0 ≤ item.nOrderPos)
    (clears : EachAfter (fun before item => Clears item.nOrderPos before) before items) :
    Clear unlisted items state ↔ EachAfter (LeaveFree unlisted) before items := by
  induction items generalizing before state with
  | nil => exact Iff.rfl
  | cons item items ih =>
      have ranges := List.forall_mem_cons.1 range
      unfold Clear EachAfter
      rw [straight.clashes_iff ranges.1 clears.1]
      apply and_congr_right
      intro _
      by_cases unordered : item.nOrderPos = -1
      · exact ih (straight.next_unordered unordered) ranges.2 clears.2
      · have nonneg : 0 ≤ item.nOrderPos := ranges.1.resolve_left unordered
        have counts := (straight.counted_iff item.nOrderPos nonneg).2 clears.1
        exact ih (straight.next_ordered unordered nonneg counts) ranges.2 clears.2

end ReorderState

namespace OrderedWallet

open OrderedItem

/-- Every loaded item, in the order of times, clears the unordered ones before it. -/
def ItemsClear (wallet : OrderedWallet) : Prop :=
  EachAfter (fun before item => Clears item.nOrderPos before) [] wallet.txByTime

/-- The entries that are not loaded have positions, each below that of a loaded item, and leave the
positions free that the loaded items get. -/
structure EntriesClear (wallet : OrderedWallet) : Prop where
  given : ∀ entry ∈ wallet.unlisted, entry.nOrderPos ≠ -1
  above : ∀ entry ∈ wallet.unlisted, ∃ item ∈ wallet.txByTime, entry.nOrderPos < item.nOrderPos
  free : EachAfter (ReorderState.LeaveFree wallet.unlisted) [] wallet.txByTime

/-- **Reordering.**  Where every item clears the unordered ones before it, the positions are in
order afterwards just when the entries outside the account `""` are out of the way; where one does
not, the loop compares a position with offsets it is not moved by. -/
theorem reorderTransactions_inOrder (wallet : OrderedWallet) (write : OrderedItem → Bool)
    (positions : List (OrderedItem × Int)) (nOrderPosNext : Int)
    (sound : PositionsSound (wallet.mapWallet ++ wallet.acentries.map Prod.snd))
    (run : wallet.reorderTransactions write = some (positions, nOrderPosNext)) :
    (wallet.ItemsClear → (InOrder positions nOrderPosNext ↔ wallet.EntriesClear)) ∧
      (wallet.ItemsClear ↔ ReorderState.CountsMoved wallet.txByTime ⟨0, []⟩) := by
  have range : ∀ item ∈ wallet.txByTime, item.nOrderPos = -1 ∨ 0 ≤ item.nOrderPos := by
    intro item member
    exact (sound.perm wallet.txByTime_append_unlisted_perm).range item
      (List.mem_append_left _ member)
  refine ⟨fun clears => ?_, ReorderState.Straight.start.countsMoved_iff range⟩
  have clearIff : ReorderState.Clear wallet.unlisted wallet.txByTime ⟨0, []⟩ ↔
      EachAfter (ReorderState.LeaveFree wallet.unlisted) [] wallet.txByTime :=
    ReorderState.Straight.start.clear_iff range clears
  rw [inOrder_iff_staysClear wallet write positions nOrderPosNext sound run]
  constructor
  · intro stays
    exact ⟨stays.given, stays.above, clearIff.1 stays.clear⟩
  · intro entries
    exact ⟨entries.given, entries.above, clearIff.2 entries.free⟩

/-- Transactions and entries with and without positions, also in another account. -/
def mixedOrderedWallet : OrderedWallet :=
  { mapWallet := [⟨4, 9⟩, ⟨1, 0⟩, ⟨3, -1⟩, ⟨2, -1⟩]
    acentries := [("", ⟨5, -1⟩), ("", ⟨6, 2⟩), ("savings", ⟨3, 5⟩)] }

theorem reorderTransactions_inOrder_mixed :
    InOrder [(⟨1, 0⟩, 0), (⟨2, -1⟩, 1), (⟨3, -1⟩, 2), (⟨4, 9⟩, 11), (⟨5, -1⟩, 12), (⟨6, 2⟩, 4),
      (⟨3, 5⟩, 5)] 13 :=
  ((reorderTransactions_inOrder mixedOrderedWallet (fun _ => true) _ 13
    ⟨by decide, by decide⟩ (by decide)).1 (by unfold ItemsClear; decide)).2
    ⟨by decide, by decide, by decide⟩

/-- An item that does not clear an unordered one may still end on a free position. -/
example : ¬ItemsClear ⟨[⟨1, 0⟩, ⟨2, -1⟩, ⟨3, -1⟩, ⟨4, -1⟩, ⟨5, 2⟩], []⟩ ∧
    (reorderTransactions ⟨[⟨1, 0⟩, ⟨2, -1⟩, ⟨3, -1⟩, ⟨4, -1⟩, ⟨5, 2⟩], []⟩ fun _ => true) =
      some ([(⟨1, 0⟩, 0), (⟨2, -1⟩, 1), (⟨3, -1⟩, 2), (⟨4, -1⟩, 3), (⟨5, 2⟩, 4)], 5) :=
  ⟨by unfold ItemsClear; decide, by decide⟩

end OrderedWallet

end Lycancoin
