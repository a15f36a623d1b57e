import Lycancoin.Primitives.Amount
import Mathlib.Data.List.Pairwise
import Mathlib.Tactic.Linarith

namespace Lycancoin

/-- A `CWalletTx` or a `CAccountingEntry`, as far as `ReorderTransactions` looks at it. -/
structure OrderedItem where
  nTime : Int
  nOrderPos : Int
deriving DecidableEq, Repr

/-- `insert` of a multimap by time, which puts an item after those of the same time. -/
def OrderedItem.insertByTime (item : OrderedItem) : List OrderedItem → List OrderedItem
  | [] => [item]
  | other :: items =>
      if item.nTime < other.nTime then item :: other :: items
      else other :: item.insertByTime items

theorem OrderedItem.insertByTime_perm (item : OrderedItem) (items : List OrderedItem) :
    (item.insertByTime items).Perm (item :: items) := by
  induction items with
  | nil => rfl
  | cons other items ih =>
      unfold insertByTime
      split
      · rfl
      · exact (ih.cons other).trans (List.Perm.swap item other items)

/-- The transactions of a wallet in the order of `mapWallet`, and the accounting entries of its
database in the order of their keys, each with its account. -/
structure OrderedWallet where
  mapWallet : List OrderedItem
  acentries : List (String × OrderedItem)

namespace OrderedWallet

variable (wallet : OrderedWallet)

/-- `ListAccountCreditDebit`: the entries of one account, which stand together, or all of them. -/
def listAccountCreditDebit (strAccount : String) : List OrderedItem :=
  let fAllAccounts := strAccount == "*"
  (wallet.acentries.filter fun acentry => fAllAccounts || acentry.1 == strAccount).map Prod.snd

/-- `txByTime`, with everything inserted in turn. -/
def txByTime : List OrderedItem :=
  (wallet.mapWallet ++ wallet.listAccountCreditDebit "").foldl
    (fun items item => item.insertByTime items) []

/-- The entries that `ListAccountCreditDebit` does not load for the account `""`. -/
def unlisted : List OrderedItem :=
  (wallet.acentries.filter fun acentry => acentry.1 != "").map Prod.snd

end OrderedWallet

structure ReorderState where
  nOrderPosNext : Int
  nOrderPosOffsets : List Int

namespace ReorderState

def nOrderPosOff (state : ReorderState) (nOrderPos : Int) : Int :=
  state.nOrderPosOffsets.countP fun nOffsetStart => decide (nOrderPos ≥ nOffsetStart)

/-- Where the item that is visited next is put. -/
def place (state : ReorderState) (item : OrderedItem) : Int :=
  if item.nOrderPos = -1 then state.nOrderPosNext
  else item.nOrderPos + state.nOrderPosOff item.nOrderPos

def next (state : ReorderState) (item : OrderedItem) : ReorderState :=
  if item.nOrderPos = -1 then
    { nOrderPosNext := state.nOrderPosNext + 1
      nOrderPosOffsets := state.nOrderPosOffsets ++ [state.nOrderPosNext] }
  else
    { state with nOrderPosNext := max state.nOrderPosNext (state.place item + 1) }

/-- The item is written back unless its position stays. -/
def writes (state : ReorderState) (item : OrderedItem) : Bool :=
  decide (item.nOrderPos = -1) || decide (state.nOrderPosOff item.nOrderPos ≠ 0)

/-- The loop of `ReorderTransactions` over the items by time: each with its new position.  It ends
early when a record cannot be written, and has no result when a position overflows. -/
def visits (write : OrderedItem → Bool) :
    List OrderedItem → ReorderState → Option (List (OrderedItem × Int) × ReorderState)
  | [], state => some ([], state)
  | item :: items, state => do
      let nOrderPos ← int64 (state.place item)
      let _ ← int64 (nOrderPos + 1)
      if state.writes item && !write { item with nOrderPos := nOrderPos } then none
      else do
        let (placed, last) ← visits write items (state.next item)
        pure ((item, nOrderPos) :: placed, last)

end ReorderState

/-- `CWalletDB::ReorderTransactions`, where it succeeds: every transaction and entry with its
position afterwards, and `nOrderPosNext`. -/
def OrderedWallet.reorderTransactions (wallet : OrderedWallet) (write : OrderedItem → Bool) :
    Option (List (OrderedItem × Int) × Int) := do
  let (placed, last) ← ReorderState.visits write wallet.txByTime ⟨0, []⟩
  pure (placed ++ wallet.unlisted.map fun item => (item, item.nOrderPos), last.nOrderPosNext)

/-- All positions are given and distinct, those that were given before keep their order, and the
next position is above them. -/
structure InOrder (positions : List (OrderedItem × Int)) (nOrderPosNext : Int) : Prop where
  nonneg : ∀ item ∈ positions, 0 ≤ item.2
  distinct : (positions.map Prod.snd).Nodup
  kept : ∀ first ∈ positions, ∀ second ∈ positions, first.1.nOrderPos ≠ -1 →
    second.1.nOrderPos ≠ -1 → first.1.nOrderPos < second.1.nOrderPos → first.2 < second.2
  below : ∀ item ∈ positions, item.2 < nOrderPosNext

/-- Positions that a wallet can have: -1, or one that no other item has. -/
structure PositionsSound (items : List OrderedItem) : Prop where
  range : ∀ item ∈ items, item.nOrderPos = -1 ∨ 0 ≤ item.nOrderPos
  distinct : (items.filter fun item => item.nOrderPos ≠ -1).Pairwise fun first second =>
    first.nOrderPos ≠ second.nOrderPos

namespace ReorderState

/-- The visit goes wrong: the item gets the position of an unordered item before it, or gets onto
or past an entry that is not loaded. -/
def Clashes (state : ReorderState) (unlisted : List OrderedItem) (item : OrderedItem) : Prop :=
  if item.nOrderPos = -1 then ∃ entry ∈ unlisted, entry.nOrderPos = state.nOrderPosNext
  else item.nOrderPos + state.nOrderPosOff item.nOrderPos ∈ state.nOrderPosOffsets ∨
    ∃ entry ∈ unlisted, item.nOrderPos < entry.nOrderPos ∧
      entry.nOrderPos ≤ item.nOrderPos + state.nOrderPosOff item.nOrderPos

/-- No visit goes wrong. -/
def Clear (unlisted : List OrderedItem) : List OrderedItem → ReorderState → Prop
  | [], _ => True
  | item :: items, state =>
      ¬state.Clashes unlisted item ∧ Clear unlisted items (state.next item)

end ReorderState

/-- The entries that are not loaded have positions, each below that of a loaded item, and no visit
goes wrong. -/
structure OrderedWallet.StaysClear (wallet : OrderedWallet) : Prop where
  given : ∀ entry ∈ wallet.unlisted, entry.nOrderPos ≠ -1
  above : ∀ entry ∈ wallet.unlisted, ∃ item ∈ wallet.txByTime, entry.nOrderPos < item.nOrderPos
  clear : ReorderState.Clear wallet.unlisted wallet.txByTime ⟨0, []⟩

namespace ReorderState

variable {state : ReorderState} {placed : List (OrderedItem × Int)} {item : OrderedItem}

theorem nOrderPosOff_nonneg (position : Int) : 0 ≤ state.nOrderPosOff position := by
  simp [nOrderPosOff]

/-- More offsets are at or below a higher position. -/
theorem nOrderPosOff_mono {low high : Int} (le : low ≤ high) :
    state.nOrderPosOff low ≤ state.nOrderPosOff high := by
  unfold nOrderPosOff
  exact_mod_cast List.countP_mono_left fun offset _ below => by
    simp only [ge_iff_le, decide_eq_true_eq] at below ⊢
    omega

@[simp] theorem place_unordered (unordered : item.nOrderPos = -1) :
    state.place item = state.nOrderPosNext := by
  simp [place, unordered]

@[simp] theorem place_ordered (ordered : item.nOrderPos ≠ -1) :
    state.place item = item.nOrderPos + state.nOrderPosOff item.nOrderPos := by
  simp [place, ordered]

theorem nOrderPosOff_next_unordered (unordered : item.nOrderPos = -1) (position : Int) :
    (state.next item).nOrderPosOff position =
      state.nOrderPosOff position + if state.nOrderPosNext ≤ position then 1 else 0 := by
  unfold next nOrderPosOff
  rw [if_pos unordered]
  split <;> simp_all

theorem nOrderPosOff_next_ordered (ordered : item.nOrderPos ≠ -1) (position : Int) :
    (state.next item).nOrderPosOff position = state.nOrderPosOff position := by
  simp [next, ordered, nOrderPosOff]

/-- Two items that had positions are in the order of these positions. -/
def Keeps (first second : OrderedItem × Int) : Prop :=
  first.1.nOrderPos ≠ -1 → second.1.nOrderPos ≠ -1 →
    (first.1.nOrderPos < second.1.nOrderPos → first.2 < second.2) ∧
    (second.1.nOrderPos < first.1.nOrderPos → second.2 < first.2)

/-- What the loop knows of the items it has placed: they are below the next position, the offsets
are the positions of the unordered ones, and an ordered one parts the positions that the others
would get now. -/
structure Placed (state : ReorderState) (placed : List (OrderedItem × Int)) : Prop where
  next_nonneg : 0 ≤ state.nOrderPosNext
  range : ∀ done ∈ placed, 0 ≤ done.2 ∧ done.2 < state.nOrderPosNext
  offsets : ∀ offset, offset ∈ state.nOrderPosOffsets ↔
    ∃ done ∈ placed, done.1.nOrderPos = -1 ∧ done.2 = offset
  parts : ∀ done ∈ placed, done.1.nOrderPos ≠ -1 → done.1.nOrderPos ≤ done.2 ∧
    ∀ position, (position < done.1.nOrderPos → position + state.nOrderPosOff position < done.2) ∧
      (done.1.nOrderPos < position → done.2 < position + state.nOrderPosOff position)
  kept : placed.Pairwise Keeps

theorem Placed.start : Placed ⟨0, []⟩ [] := by
  constructor <;> simp

theorem Placed.next_unordered (known : Placed state placed) (unordered : item.nOrderPos = -1) :
    Placed (state.next item) (placed ++ [(item, state.place item)]) := by
  have nonneg := known.next_nonneg
  have nextEq : (state.next item).nOrderPosNext = state.nOrderPosNext + 1 := by
    simp [next, unordered]
  rw [place_unordered unordered]
  constructor
  · omega
  · intro done member
    rcases List.mem_append.1 member with before | last
    · have range := known.range done before
      omega
    · obtain rfl := List.mem_singleton.1 last
      dsimp only
      omega
  · intro offset
    have offsetsEq : (state.next item).nOrderPosOffsets =
        state.nOrderPosOffsets ++ [state.nOrderPosNext] := by
      simp [next, unordered]
    rw [offsetsEq, List.mem_append, known.offsets, List.mem_singleton]
    constructor
    · rintro (⟨done, member, facts⟩ | rfl)
      · exact ⟨done, List.mem_append_left _ member, facts⟩
      · exact ⟨_, List.mem_append_right _ (List.mem_singleton_self _), unordered, rfl⟩
    · rintro ⟨done, member, facts⟩
      rcases List.mem_append.1 member with before | last
      · exact Or.inl ⟨done, before, facts⟩
      · obtain rfl := List.mem_singleton.1 last
        exact Or.inr facts.2.symm
  · intro done member ordered
    rcases List.mem_append.1 member with before | last
    · have range := known.range done before
      obtain ⟨up, parts⟩ := known.parts done before ordered
      refine ⟨up, fun position => ?_⟩
      have part := parts position
      rw [nOrderPosOff_next_unordered unordered]
      -- the new offset is above every position so far
      split <;> constructor <;> intro <;> omega
    · obtain rfl := List.mem_singleton.1 last
      exact absurd unordered ordered
  · rw [List.pairwise_append]
    refine ⟨known.kept, List.pairwise_singleton _ _, ?_⟩
    intro done _ other last
    obtain rfl := List.mem_singleton.1 last
    exact fun _ ordered => absurd unordered ordered

theorem Placed.next_ordered (known : Placed state placed) (ordered : item.nOrderPos ≠ -1)
    (positionNonneg : 0 ≤ item.nOrderPos) :
    Placed (state.next item) (placed ++ [(item, state.place item)]) := by
  have nonneg := known.next_nonneg
  have offNonneg := @nOrderPosOff_nonneg state item.nOrderPos
  have nextEq : (state.next item).nOrderPosNext =
      max state.nOrderPosNext (item.nOrderPos + state.nOrderPosOff item.nOrderPos + 1) := by
    simp [next, ordered]
  rw [place_ordered ordered]
  constructor
  · omega
  · intro done member
    rcases List.mem_append.1 member with before | last
    · have range := known.range done before
      omega
    · obtain rfl := List.mem_singleton.1 last
      dsimp only
      omega
  · intro offset
    have offsetsEq : (state.next item).nOrderPosOffsets = state.nOrderPosOffsets := by
      simp [next, ordered]
    rw [offsetsEq, known.offsets]
    constructor
    · rintro ⟨done, member, facts⟩
      exact ⟨done, List.mem_append_left _ member, facts⟩
    · rintro ⟨done, member, facts⟩
      rcases List.mem_append.1 member with before | last
      · exact ⟨done, before, facts⟩
      · obtain rfl := List.mem_singleton.1 last
        exact absurd facts.1 ordered
  · intro done member doneOrdered
    simp only [nOrderPosOff_next_ordered ordered]
    rcases List.mem_append.1 member with before | last
    · exact known.parts done before doneOrdered
    · obtain rfl := List.mem_singleton.1 last
      dsimp only
      refine ⟨by omega, fun position => ⟨fun below => ?_, fun above => ?_⟩⟩
      · have mono := @nOrderPosOff_mono state _ _ below.le
        omega
      · have mono := @nOrderPosOff_mono state _ _ above.le
        omega
  · rw [List.pairwise_append]
    refine ⟨known.kept, List.pairwise_singleton _ _, ?_⟩
    intro done before other last doneOrdered _
    obtain rfl := List.mem_singleton.1 last
    have part := (known.parts done before doneOrdered).2 item.nOrderPos
    exact ⟨part.2, part.1⟩

theorem visits_cons {write : OrderedItem → Bool} {items : List OrderedItem}
    {placedNow : List (OrderedItem × Int)} {last : ReorderState}
    (run : visits write (item :: items) state = some (placedNow, last)) :
    ∃ rest, placedNow = (item, state.place item) :: rest ∧
      visits write items (state.next item) = some (rest, last) := by
  simp only [visits, Option.bind_eq_bind, Option.bind_eq_some_iff] at run
  obtain ⟨position, fits, _, _, run⟩ := run
  obtain ⟨_, rfl⟩ := int64_eq_some.1 fits
  split at run
  · simp at run
  · obtain ⟨⟨rest, end_⟩, later, done⟩ := Option.bind_eq_some_iff.1 run
    simp only [Option.pure_def, Option.some.injEq, Prod.mk.injEq] at done
    obtain ⟨rfl, rfl⟩ := done
    exact ⟨rest, rfl, later⟩

end ReorderState

theorem PositionsSound.apart {before after : List OrderedItem}
    (sound : PositionsSound (before ++ after)) {first second : OrderedItem} (left : first ∈ before)
    (right : second ∈ after) (ordered : first.nOrderPos ≠ -1) :
    first.nOrderPos ≠ second.nOrderPos := by
  intro same
  have distinct := sound.distinct
  rw [List.filter_append, List.pairwise_append] at distinct
  exact distinct.2.2 first (List.mem_filter.2 ⟨left, by simpa using ordered⟩) second
    (List.mem_filter.2 ⟨right, by simpa [← same] using ordered⟩) same

namespace ReorderState

variable {state last : ReorderState} {placed new : List (OrderedItem × Int)}
  {items unlisted : List OrderedItem} {item : OrderedItem} {write : OrderedItem → Bool}

/-- One visit keeps what the loop knows. -/
theorem Placed.next_of_sound (known : Placed state placed)
    (sound : PositionsSound (placed.map Prod.fst ++ item :: items)) :
    Placed (state.next item) (placed ++ [(item, state.place item)]) := by
  by_cases unordered : item.nOrderPos = -1
  · exact known.next_unordered unordered
  · apply known.next_ordered unordered
    have range := sound.range item (by simp)
    omega

theorem visits_placed (known : Placed state placed)
    (sound : PositionsSound (placed.map Prod.fst ++ items))
    (run : visits write items state = some (new, last)) :
    Placed last (placed ++ new) ∧ new.map Prod.fst = items := by
  induction items generalizing state placed new with
  | nil =>
      simp only [visits, Option.some.injEq, Prod.mk.injEq] at run
      obtain ⟨rfl, rfl⟩ := run
      simpa using known
  | cons item items ih =>
      obtain ⟨rest, rfl, later⟩ := visits_cons run
      obtain ⟨after, names⟩ := ih (known.next_of_sound sound) (by simpa using sound) later
      exact ⟨by simpa using after, by simp [names]⟩

/-- The items that are placed have positions of their own, also beside the entries that are not
loaded. -/
structure Apart (unlisted : List OrderedItem) (placed : List (OrderedItem × Int)) : Prop where
  distinct : (placed.map Prod.snd).Nodup
  free : ∀ done ∈ placed, ∀ entry ∈ unlisted, done.2 ≠ entry.nOrderPos
  below : ∀ done ∈ placed, ∀ entry ∈ unlisted, done.1.nOrderPos ≠ -1 →
    done.1.nOrderPos < entry.nOrderPos → done.2 < entry.nOrderPos

theorem Apart.next (apart : Apart unlisted placed) (known : Placed state placed)
    (clear : ¬state.Clashes unlisted item)
    (sound : PositionsSound (placed.map Prod.fst ++ item :: items))
    (others : PositionsSound (item :: items ++ unlisted)) :
    Apart unlisted (placed ++ [(item, state.place item)]) := by
  unfold Clashes at clear
  have fresh : ∀ done ∈ placed, done.2 ≠ state.place item := by
    intro done member
    by_cases unordered : item.nOrderPos = -1
    · have range := known.range done member
      rw [place_unordered unordered]
      omega
    · rw [if_neg unordered, not_or] at clear
      rw [place_ordered unordered]
      by_cases doneOrdered : done.1.nOrderPos = -1
      · intro same
        exact clear.1 ((known.offsets _).2 ⟨done, member, doneOrdered, same⟩)
      · have different := sound.apart (List.mem_map_of_mem member) List.mem_cons_self doneOrdered
        have part := (known.parts done member doneOrdered).2 item.nOrderPos
        omega
  have mine : ∀ entry ∈ unlisted, state.place item ≠ entry.nOrderPos ∧
      (item.nOrderPos ≠ -1 → item.nOrderPos < entry.nOrderPos →
        state.place item < entry.nOrderPos) := by
    intro entry member
    by_cases unordered : item.nOrderPos = -1
    · rw [if_pos unordered] at clear
      rw [place_unordered unordered]
      exact ⟨fun same => clear ⟨entry, member, same.symm⟩, fun ordered => absurd unordered ordered⟩
    · rw [if_neg unordered, not_or] at clear
      rw [place_ordered unordered]
      have different := others.apart List.mem_cons_self member unordered
      have nonneg := @nOrderPosOff_nonneg state item.nOrderPos
      have passes : ¬(item.nOrderPos < entry.nOrderPos ∧
          entry.nOrderPos ≤ item.nOrderPos + state.nOrderPosOff item.nOrderPos) :=
        fun both => clear.2 ⟨entry, member, both⟩
      constructor
      · omega
      · intro _ lower
        omega
  constructor
  · rw [List.map_append, List.nodup_append]
    refine ⟨apart.distinct, List.nodup_singleton _, ?_⟩
    rintro position listed other last rfl
    obtain ⟨done, member, rfl⟩ := List.mem_map.1 listed
    exact fresh done member (by simpa using last)
  · intro done member entry entryIn
    rcases List.mem_append.1 member with before | now
    · exact apart.free done before entry entryIn
    · obtain rfl := List.mem_singleton.1 now
      exact (mine entry entryIn).1
  · intro done member entry entryIn
    rcases List.mem_append.1 member with before | now
    · exact apart.below done before entry entryIn
    · obtain rfl := List.mem_singleton.1 now
      exact (mine entry entryIn).2

theorem visits_apart (apart : Apart unlisted placed) (known : Placed state placed)
    (clear : Clear unlisted items state) (sound : PositionsSound (placed.map Prod.fst ++ items))
    (others : PositionsSound (items ++ unlisted))
    (run : visits write items state = some (new, last)) :
    Apart unlisted (placed ++ new) := by
  induction items generalizing state placed new with
  | nil =>
      simp only [visits, Option.some.injEq, Prod.mk.injEq] at run
      obtain ⟨rfl, rfl⟩ := run
      simpa using apart
  | cons item items ih =>
      obtain ⟨rest, rfl, later⟩ := visits_cons run
      have fewer : PositionsSound (items ++ unlisted) :=
        ⟨fun other member => others.range other (by simp [List.mem_append.1 member]),
          others.distinct.sublist ((List.sublist_cons_self item _).filter _)⟩
      have after := ih (apart.next known clear.1 sound others) (known.next_of_sound sound)
        clear.2 (by simpa using sound) fewer later
      simpa using after

theorem clear_of_visits (known : Placed state placed)
    (sound : PositionsSound (placed.map Prod.fst ++ items))
    (run : visits write items state = some (new, last)) (apart : Apart unlisted (placed ++ new)) :
    Clear unlisted items state := by
  induction items generalizing state placed new with
  | nil => trivial
  | cons item items ih =>
      obtain ⟨rest, rfl, later⟩ := visits_cons run
      have here : (item, state.place item) ∈ placed ++ (item, state.place item) :: rest := by simp
      constructor
      · unfold Clashes
        split
        · next unordered =>
          rintro ⟨entry, member, same⟩
          apply apart.free _ here entry member
          rw [place_unordered unordered, same]
        · next ordered =>
          rintro (landed | ⟨entry, member, lower, passes⟩)
          · obtain ⟨done, doneIn, _, same⟩ := (known.offsets _).1 landed
            have distinct := apart.distinct
            rw [List.map_append, List.nodup_append] at distinct
            apply distinct.2.2 done.2 (List.mem_map_of_mem doneIn) (state.place item) (by simp)
            rw [place_ordered ordered, same]
          · have below := apart.below _ here entry member ordered lower
            rw [place_ordered ordered] at below
            omega
      · exact ih (known.next_of_sound sound) (by simpa using sound) later (by simpa using apart)

/-- Without an ordered item above it, an entry that is not loaded stays above the next position. -/
theorem visits_le {entry : OrderedItem} (entryIn : entry ∈ unlisted)
    (low : ∀ item ∈ items, item.nOrderPos < entry.nOrderPos)
    (clear : Clear unlisted items state) (start : state.nOrderPosNext ≤ entry.nOrderPos)
    (run : visits write items state = some (new, last)) :
    last.nOrderPosNext ≤ entry.nOrderPos := by
  induction items generalizing state new with
  | nil =>
      simp only [visits, Option.some.injEq, Prod.mk.injEq] at run
      obtain ⟨_, rfl⟩ := run
      exact start
  | cons item items ih =>
      obtain ⟨rest, _, later⟩ := visits_cons run
      have free := clear.1
      have lower := low item List.mem_cons_self
      refine ih (fun other member => low other (List.mem_cons_of_mem item member)) clear.2 ?_ later
      unfold Clashes at free
      by_cases unordered : item.nOrderPos = -1
      · rw [if_pos unordered] at free
        have different : entry.nOrderPos ≠ state.nOrderPosNext :=
          fun same => free ⟨entry, entryIn, same⟩
        simp only [next, unordered, if_true]
        omega
      · rw [if_neg unordered, not_or] at free
        have passes : ¬(item.nOrderPos < entry.nOrderPos ∧
            entry.nOrderPos ≤ item.nOrderPos + state.nOrderPosOff item.nOrderPos) :=
          fun both => free.2 ⟨entry, entryIn, both⟩
        simp only [next, unordered, if_false, place_ordered unordered]
        omega

/-- Two placed items that had positions keep their order. -/
theorem Placed.keeps (known : Placed state placed) {first second : OrderedItem × Int}
    (firstIn : first ∈ placed) (secondIn : second ∈ placed) (firstOrdered : first.1.nOrderPos ≠ -1)
    (secondOrdered : second.1.nOrderPos ≠ -1) (lower : first.1.nOrderPos < second.1.nOrderPos) :
    first.2 < second.2 := by
  obtain ⟨i, iBound, rfl⟩ := List.getElem_of_mem firstIn
  obtain ⟨j, jBound, rfl⟩ := List.getElem_of_mem secondIn
  have kept := List.pairwise_iff_getElem.1 known.kept
  rcases lt_trichotomy i j with before | rfl | after
  · exact (kept i j iBound jBound before firstOrdered secondOrdered).1 lower
  · omega
  · exact (kept j i jBound iBound after secondOrdered firstOrdered).2 lower

/-- Placed items that are apart from the entries that are not loaded are in order with them, where
each of these is below an item. -/
theorem Placed.inOrder (known : Placed state placed) (apart : Apart unlisted placed)
    (rest : PositionsSound unlisted) (given : ∀ entry ∈ unlisted, entry.nOrderPos ≠ -1)
    (higher : ∀ entry ∈ unlisted, ∃ done ∈ placed, entry.nOrderPos < done.1.nOrderPos) :
    InOrder (placed ++ unlisted.map fun entry => (entry, entry.nOrderPos))
      state.nOrderPosNext := by
  have nonneg : ∀ entry ∈ unlisted, 0 ≤ entry.nOrderPos := by
    intro entry member
    exact (rest.range entry member).resolve_left (given entry member)
  constructor
  · intro item member
    rcases List.mem_append.1 member with now | later
    · exact (known.range item now).1
    · obtain ⟨entry, entryIn, rfl⟩ := List.mem_map.1 later
      exact nonneg entry entryIn
  · have distinct := rest.distinct
    rw [List.filter_eq_self.2 (by simpa using given)] at distinct
    rw [List.map_append, List.nodup_append]
    refine ⟨apart.distinct, ?_, ?_⟩
    · simpa [Function.comp_def, List.Nodup, List.pairwise_map] using distinct
    · intro position placedIn other restIn
      obtain ⟨item, itemIn, rfl⟩ := List.mem_map.1 placedIn
      simp only [List.map_map, List.mem_map, Function.comp_apply] at restIn
      obtain ⟨entry, entryIn, rfl⟩ := restIn
      exact apart.free item itemIn entry entryIn
  · intro first firstIn second secondIn firstOrdered secondOrdered lower
    rcases List.mem_append.1 firstIn with now | later
    · rcases List.mem_append.1 secondIn with secondNow | secondLater
      · exact known.keeps now secondNow firstOrdered secondOrdered lower
      · obtain ⟨entry, entryIn, rfl⟩ := List.mem_map.1 secondLater
        exact apart.below first now entry entryIn firstOrdered lower
    · obtain ⟨entry, entryIn, rfl⟩ := List.mem_map.1 later
      rcases List.mem_append.1 secondIn with secondNow | secondLater
      · -- a placed item stays above what its old position was above
        have up := (known.parts second secondNow secondOrdered).1
        dsimp only at lower ⊢
        omega
      · obtain ⟨other, _, rfl⟩ := List.mem_map.1 secondLater
        exact lower
  · intro item member
    rcases List.mem_append.1 member with now | later
    · exact (known.range item now).2
    · obtain ⟨entry, entryIn, rfl⟩ := List.mem_map.1 later
      obtain ⟨done, doneIn, above⟩ := higher entry entryIn
      have range := known.range done doneIn
      have positive := nonneg entry entryIn
      have up := (known.parts done doneIn (by omega)).1
      dsimp only
      omega

end ReorderState

section Unlisted

variable {unlisted : List OrderedItem} {placed : List (OrderedItem × Int)} {nOrderPosNext : Int}

theorem InOrder.unlisted_nonneg
    (order : InOrder (placed ++ unlisted.map fun entry => (entry, entry.nOrderPos)) nOrderPosNext) :
    ∀ entry ∈ unlisted, 0 ≤ entry.nOrderPos := by
  intro entry member
  exact order.nonneg (entry, entry.nOrderPos)
    (List.mem_append_right _ (List.mem_map_of_mem member))

theorem InOrder.apart
    (order : InOrder (placed ++ unlisted.map fun entry => (entry, entry.nOrderPos)) nOrderPosNext) :
    ReorderState.Apart unlisted placed := by
  have distinct := order.distinct
  rw [List.map_append, List.nodup_append] at distinct
  refine ⟨distinct.1, ?_, ?_⟩
  · intro item itemIn entry entryIn
    exact distinct.2.2 item.2 (List.mem_map_of_mem itemIn) entry.nOrderPos
      (by simpa using ⟨entry, entryIn, rfl⟩)
  · intro item itemIn entry entryIn ordered lower
    have given := order.unlisted_nonneg entry entryIn
    exact order.kept item (List.mem_append_left _ itemIn) (entry, entry.nOrderPos)
      (List.mem_append_right _ (List.mem_map_of_mem entryIn)) ordered (by simp; omega) lower

end Unlisted

theorem PositionsSound.left {before after : List OrderedItem}
    (sound : PositionsSound (before ++ after)) : PositionsSound before :=
  ⟨fun item member => sound.range item (List.mem_append_left _ member),
    sound.distinct.sublist ((List.sublist_append_left _ _).filter _)⟩

theorem PositionsSound.right {before after : List OrderedItem}
    (sound : PositionsSound (before ++ after)) : PositionsSound after :=
  ⟨fun item member => sound.range item (List.mem_append_right _ member),
    sound.distinct.sublist ((List.sublist_append_right _ _).filter _)⟩

theorem PositionsSound.perm {items others : List OrderedItem} (sound : PositionsSound items)
    (perm : items.Perm others) : PositionsSound others := by
  constructor
  · intro item member
    exact sound.range item (perm.mem_iff.2 member)
  · exact ((perm.filter _).pairwise_iff fun different => different.symm).1 sound.distinct

namespace OrderedWallet

variable {wallet : OrderedWallet}

/-- The loaded items by time and the entries that are not loaded are all there are. -/
theorem txByTime_append_unlisted_perm (wallet : OrderedWallet) :
    (wallet.mapWallet ++ wallet.acentries.map Prod.snd).Perm
      (wallet.txByTime ++ wallet.unlisted) := by
  have loaded : wallet.listAccountCreditDebit "" =
      (wallet.acentries.filter fun acentry => acentry.1 == "").map Prod.snd := by
    simp [listAccountCreditDebit]
  have inserted : ∀ items start : List OrderedItem,
      (items.foldl (fun items item => item.insertByTime items) start).Perm (start ++ items) := by
    intro items
    induction items with
    | nil => simp
    | cons item items ih =>
        intro start
        apply (ih (item.insertByTime start)).trans
        apply ((item.insertByTime_perm start).append_right items).trans
        exact List.perm_middle.symm
  have sorted : wallet.txByTime.Perm (wallet.mapWallet ++ wallet.listAccountCreditDebit "") := by
    have all := inserted (wallet.mapWallet ++ wallet.listAccountCreditDebit "") []
    rwa [List.nil_append] at all
  have parts : (wallet.listAccountCreditDebit "" ++ wallet.unlisted).Perm
      (wallet.acentries.map Prod.snd) := by
    rw [loaded, unlisted, ← List.map_append]
    exact (List.filter_append_perm _ _).map _
  apply (parts.symm.append_left wallet.mapWallet).trans
  rw [← List.append_assoc]
  exact sorted.symm.append_right wallet.unlisted

/-- In terms of the loop: the positions are in order afterwards just when no visit goes wrong. -/
theorem inOrder_iff_staysClear (wallet : OrderedWallet) (write : OrderedItem → Bool)
    (positions : List (OrderedItem × Int)) (nOrderPosNext : Int)
    (sound : PositionsSound (wallet.mapWallet ++ wallet.acentries.map Prod.snd))
    (run : wallet.reorderTransactions write = some (positions, nOrderPosNext)) :
    InOrder positions nOrderPosNext ↔ wallet.StaysClear := by
  have whole := sound.perm wallet.txByTime_append_unlisted_perm
  have loaded : PositionsSound (([] : List (OrderedItem × Int)).map Prod.fst ++ wallet.txByTime) :=
    whole.left
  obtain ⟨⟨placed, last⟩, visited, done⟩ := Option.bind_eq_some_iff.1 run
  simp only [Option.pure_def, Option.some.injEq, Prod.mk.injEq] at done
  obtain ⟨rfl, rfl⟩ := done
  obtain ⟨known, names⟩ := ReorderState.visits_placed ReorderState.Placed.start loaded visited
  constructor
  · intro order
    have clear := ReorderState.clear_of_visits ReorderState.Placed.start loaded visited order.apart
    refine ⟨fun entry member => ?_, fun entry member => ?_, clear⟩
    · have given := order.unlisted_nonneg entry member
      omega
    · -- without an item above the entry, the next position does not get past it
      by_contra none
      push Not at none
      have given := order.unlisted_nonneg entry member
      have low : ∀ item ∈ wallet.txByTime, item.nOrderPos < entry.nOrderPos := by
        intro item itemIn
        have atMost := none item itemIn
        by_cases unordered : item.nOrderPos = -1
        · omega
        · have different := whole.apart itemIn member unordered
          omega
      have below := order.below (entry, entry.nOrderPos)
        (List.mem_append_right _ (List.mem_map_of_mem member))
      have stays := ReorderState.visits_le member low clear (by simpa using given) visited
      dsimp only at below
      omega
  · intro clear
    have none : ReorderState.Apart wallet.unlisted [] := ⟨by simp, by simp, by simp⟩
    have apart := ReorderState.visits_apart none ReorderState.Placed.start clear.clear loaded whole
      visited
    refine known.inOrder apart whole.right clear.given fun entry member => ?_
    obtain ⟨higher, higherIn, above⟩ := clear.above entry member
    rw [← names] at higherIn
    obtain ⟨item, itemIn, rfl⟩ := List.mem_map.1 higherIn
    exact ⟨item, itemIn, above⟩

/-- Two transactions without a position between two that have one. -/
def plainOrderedWallet : OrderedWallet :=
  { mapWallet := [⟨1, 0⟩, ⟨2, -1⟩, ⟨3, -1⟩, ⟨4, 1⟩], acentries := [] }

/-- The second unordered transaction and the last one get the same position. -/
theorem reorderTransactions_repeats_position :
    PositionsSound (plainOrderedWallet.mapWallet ++ plainOrderedWallet.acentries.map Prod.snd) ∧
      plainOrderedWallet.reorderTransactions (fun _ => true) =
        some ([(⟨1, 0⟩, 0), (⟨2, -1⟩, 1), (⟨3, -1⟩, 2), (⟨4, 1⟩, 2)], 3) ∧
      ¬InOrder [(⟨1, 0⟩, 0), (⟨2, -1⟩, 1), (⟨3, -1⟩, 2), (⟨4, 1⟩, 2)] 3 := by
  refine ⟨⟨by decide, by decide⟩, by decide, ?_⟩
  intro order
  exact absurd order.distinct (by decide)

end OrderedWallet

end Lycancoin
