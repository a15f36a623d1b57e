import Mathlib.Data.List.Induction
import Mathlib.Data.List.Sort

namespace Lycancoin.Data

/-! The latest items of a list, and the place of its least ones when it is sorted. -/

section Latest

variable {α : Type} {size : Nat} {items : List α}

/-- So many items from the end. -/
def latest (size : Nat) (items : List α) : List α := items.drop (items.length - size)

/-- A new item drives out the oldest one where there is no room. -/
def pushLatest (size : Nat) (kept : List α) (item : α) : List α :=
  (if kept.length = size then kept.drop 1 else kept) ++ [item]

theorem length_latest (size : Nat) (items : List α) :
    (latest size items).length = min size items.length := by
  rw [latest, List.length_drop]
  omega

theorem latest_of_length_le (fits : items.length ≤ size) : latest size items = items := by
  rw [latest, Nat.sub_eq_zero_of_le fits, List.drop_zero]

theorem pushLatest_latest (positive : 0 < size) (items : List α) (item : α) :
    pushLatest size (latest size items) item = latest size (items ++ [item]) := by
  unfold pushLatest
  rw [length_latest]
  by_cases full : size ≤ items.length
  · have dropped : items.length - size + 1 = (items ++ [item]).length - size := by
      rw [List.length_append, List.length_singleton]
      omega
    rw [if_pos (by omega), latest, List.drop_drop, dropped, latest,
      List.drop_append_of_le_length (by rw [List.length_append, List.length_singleton]; omega)]
  · have shorter : (items ++ [item]).length ≤ size := by
      rw [List.length_append, List.length_singleton]
      omega
    rw [if_neg (by omega), latest_of_length_le (by omega), latest_of_length_le shorter]

theorem length_pushLatest_le {kept : List α} (positive : 0 < size) (within : kept.length ≤ size)
    (item : α) : (pushLatest size kept item).length ≤ size := by
  unfold pushLatest
  split_ifs with full
  · rw [List.length_append, List.length_drop, List.length_singleton]
    omega
  · rw [List.length_append, List.length_singleton]
    omega

end Latest

section Least

variable {α : Type} [LinearOrder α] {items : List α} {least : α} {i : Nat}

theorem getElem?_eq_least_iff (sorted : items.Pairwise (· ≤ ·)) (bound : ∀ item ∈ items, least ≤ item) :
    items[i]? = some least ↔ i < items.count least := by
  induction items generalizing i with
  | nil => simp
  | cons item rest ih =>
      obtain ⟨lowest, sortedRest⟩ := List.pairwise_cons.mp sorted
      have boundRest : ∀ other ∈ rest, least ≤ other := fun other member =>
        bound other (List.mem_cons_of_mem item member)
      by_cases same : item = least
      · rw [same, List.count_cons_self]
        cases i with
        | zero => simp
        | succ i => rw [List.getElem?_cons_succ, ih sortedRest boundRest, Nat.add_lt_add_iff_right]
      · have above : ∀ other ∈ item :: rest, other ≠ least := by
          intro other member isLeast
          cases member with
          | head => exact same isLeast
          | tail _ later =>
              have order := lowest other later
              rw [isLeast] at order
              exact same (le_antisymm order (bound item List.mem_cons_self))
        have none : (item :: rest).count least = 0 :=
          List.count_eq_zero.mpr fun member => above least member rfl
        rw [none]
        constructor
        · intro found
          exact absurd rfl (above least (List.mem_of_getElem? found))
        · omega

theorem median_eq_least_iff (odd : items.length % 2 = 1) (bound : ∀ item ∈ items, least ≤ item) :
    (items.insertionSort (· ≤ ·))[items.length / 2]? = some least ↔
      items.length < 2 * items.count least := by
  have sameCount := (List.perm_insertionSort (· ≤ ·) items).count_eq least
  rw [getElem?_eq_least_iff (List.pairwise_insertionSort (· ≤ ·) items)
    (fun item member => bound item ((List.mem_insertionSort (· ≤ ·)).mp member)), sameCount]
  omega

end Least

end Lycancoin.Data
