import Mathlib

namespace Lycancoin.Data

/-! Tables of slots, each of which holds one item or none. -/

variable {κ ι : Type} [Fintype κ] [DecidableEq κ] [DecidableEq ι] {table : κ → Option ι}
  {slot other : κ} {item : ι}

def occupied (table : κ → Option ι) (item : ι) : Finset κ :=
  Finset.univ.filter fun slot => table slot = some item

omit [DecidableEq κ] in
@[simp] theorem mem_occupied : slot ∈ occupied table item ↔ table slot = some item := by
  simp [occupied]

omit [DecidableEq κ] in
theorem occupied_eq_empty_iff : occupied table item = ∅ ↔ ∀ slot, table slot ≠ some item := by
  simp [Finset.eq_empty_iff_forall_notMem]

theorem card_occupied_place (free : table slot = none) (item found : ι) :
    (occupied (Function.update table slot (some item)) found).card =
      (occupied table found).card + if found = item then 1 else 0 := by
  have absent : slot ∉ occupied table found := by
    rw [mem_occupied, free]
    exact nofun
  by_cases same : found = item
  · subst same
    have grown : occupied (Function.update table slot (some found)) found =
        insert slot (occupied table found) := by
      ext other
      rw [mem_occupied, Function.update_apply, Finset.mem_insert, mem_occupied]
      by_cases here : other = slot
      · simp [here]
      · simp [here]
    rw [grown, Finset.card_insert_of_notMem absent, if_pos rfl]
  · have kept : occupied (Function.update table slot (some item)) found = occupied table found := by
      ext other
      rw [mem_occupied, Function.update_apply, mem_occupied]
      by_cases here : other = slot
      · simp [here, free, Ne.symm same]
      · simp [here]
    rw [kept, if_neg same, Nat.add_zero]

theorem card_occupied_clear (held : table slot = some item) (found : ι) :
    (occupied (Function.update table slot none) found).card + (if found = item then 1 else 0) =
      (occupied table found).card := by
  have free : Function.update table slot none slot = none := Function.update_self ..
  have placed := card_occupied_place free item found
  rw [Function.update_idem, ← held, Function.update_eq_self] at placed
  exact placed.symm

end Lycancoin.Data

namespace Lycancoin.Data

/-! Lists of items that know their own places. -/

variable {ι : Type} {items : List ι} {place : ι → Option Nat} {item other : ι} {m n : Nat}

/-- Each item stands at its own place, and nothing else stands in the list. -/
def Placed (items : List ι) (place : ι → Option Nat) : Prop :=
  ∀ (n : Nat) (item : ι), items[n]? = some item ↔ place item = some n

namespace Placed

theorem nil : Placed ([] : List ι) fun _ => none := by
  intro n item
  simp

theorem congr (placed : Placed items place) {place' : ι → Option Nat}
    (same : ∀ item, place' item = place item) : Placed items place' := by
  intro n item
  rw [same]
  exact placed n item

theorem nodup (placed : Placed items place) : items.Nodup := by
  rw [List.nodup_iff_injective_getElem]
  intro left right same
  have first := (placed left items[left.val]).mp (List.getElem?_eq_getElem left.isLt)
  have second := (placed right items[right.val]).mp (List.getElem?_eq_getElem right.isLt)
  rw [show items[left.val] = items[right.val] from same] at first
  exact Fin.ext (Option.some.inj (first.symm.trans second))

theorem mem_iff (placed : Placed items place) : item ∈ items ↔ (place item).isSome := by
  rw [List.mem_iff_getElem?, Option.isSome_iff_exists]
  exact exists_congr fun n => placed n item

theorem lt_length (placed : Placed items place) (found : place item = some n) :
    n < items.length :=
  (List.getElem?_eq_some_iff.mp ((placed n item).mpr found)).1

variable [DecidableEq ι]

theorem append (placed : Placed items place) (absent : place item = none) :
    Placed (items ++ [item]) (Function.update place item (some items.length)) := by
  intro n found
  rw [Function.update_apply]
  by_cases inside : n < items.length
  · rw [List.getElem?_append_left inside]
    by_cases same : found = item
    · subst same
      rw [if_pos rfl, placed n found, absent]
      constructor
      · intro impossible
        contradiction
      · intro last
        have := Option.some.inj last
        omega
    · rw [if_neg same]
      exact placed n found
  · rw [List.getElem?_append_right (Nat.le_of_not_lt inside)]
    by_cases same : found = item
    · subst same
      rw [if_pos rfl, Option.some.injEq]
      constructor
      · intro only
        obtain ⟨bound, _⟩ := List.getElem?_eq_some_iff.mp only
        rw [List.length_singleton] at bound
        omega
      · intro last
        subst last
        rw [Nat.sub_self]
        rfl
    · rw [if_neg same]
      constructor
      · intro only
        have member := List.mem_of_getElem? only
        exact absurd (List.mem_singleton.mp member) same
      · intro earlier
        exact absurd (placed.lt_length earlier) inside

theorem swap (placed : Placed items place) (first : items[m]? = some item)
    (second : items[n]? = some other) :
    Placed ((items.set m other).set n item)
      (Function.update (Function.update place item (some n)) other (some m)) := by
  have itemPlace := (placed m item).mp first
  have otherPlace := (placed n other).mp second
  have mInside := placed.lt_length itemPlace
  have nInside := placed.lt_length otherPlace
  intro k found
  rw [Function.update_apply, Function.update_apply, List.getElem?_set, List.getElem?_set,
    List.length_set]
  by_cases atSecond : n = k
  · subst atSecond
    rw [if_pos rfl, if_pos nInside, Option.some.injEq]
    by_cases isOther : found = other
    · subst isOther
      rw [if_pos rfl, Option.some.injEq]
      constructor
      · intro same
        subst same
        exact Option.some.inj (itemPlace.symm.trans otherPlace)
      · intro same
        subst same
        exact Option.some.inj (first.symm.trans second)
    · rw [if_neg isOther]
      by_cases isItem : found = item
      · rw [if_pos isItem]
        exact iff_of_true isItem.symm rfl
      · rw [if_neg isItem, ← placed n found, second, Option.some.injEq]
        exact iff_of_false (Ne.symm isItem) (Ne.symm isOther)
  · rw [if_neg atSecond]
    by_cases atFirst : m = k
    · subst atFirst
      rw [if_pos rfl, if_pos mInside, Option.some.injEq]
      by_cases isOther : found = other
      · rw [if_pos isOther]
        exact iff_of_true isOther.symm rfl
      · rw [if_neg isOther]
        by_cases isItem : found = item
        · rw [if_pos isItem, Option.some.injEq]
          exact iff_of_false (Ne.symm isOther) atSecond
        · rw [if_neg isItem, ← placed m found, first, Option.some.injEq]
          exact iff_of_false (Ne.symm isOther) (Ne.symm isItem)
    · rw [if_neg atFirst]
      by_cases isOther : found = other
      · subst isOther
        rw [if_pos rfl, placed k found, otherPlace, Option.some.injEq, Option.some.injEq]
        exact iff_of_false atSecond atFirst
      · rw [if_neg isOther]
        by_cases isItem : found = item
        · subst isItem
          rw [if_pos rfl, placed k found, itemPlace, Option.some.injEq, Option.some.injEq]
          exact iff_of_false atFirst atSecond
        · rw [if_neg isItem]
          exact placed k found

theorem dropLast (placed : Placed items place) (last : place item = some (items.length - 1)) :
    Placed items.dropLast (Function.update place item none) := by
  have inside := placed.lt_length last
  intro n found
  rw [Function.update_apply, List.getElem?_dropLast]
  by_cases isItem : found = item
  · subst isItem
    rw [if_pos rfl]
    constructor
    · intro earlier
      split at earlier
      · rename_i bound
        have same := Option.some.inj (((placed n found).mp earlier).symm.trans last)
        omega
      · contradiction
    · intro impossible
      contradiction
  · rw [if_neg isItem, ← placed n found]
    split
    · exact Iff.rfl
    · rename_i bound
      constructor
      · intro impossible
        contradiction
      · intro stands
        have below := (List.getElem?_eq_some_iff.mp stands).1
        have final : n = items.length - 1 := by omega
        rw [final, (placed _ item).mpr last] at stands
        exact absurd (Option.some.inj stands).symm isItem

end Placed

end Lycancoin.Data
