import Mathlib.Data.Set.Defs
import Mathlib.Data.Set.Basic

namespace Lycancoin.Data

/-! Values in memory whose changes are marked, and are written to a store later. -/

variable {Key Value Record : Type} {marked marked' marked'' : Set Key}
  {value value' value'' : Key → Value}

/-- From one state to the next, what is not marked was not marked before and did not
change. -/
def Marks (marked : Set Key) (value : Key → Value) (marked' : Set Key) (value' : Key → Value) :
    Prop :=
  ∀ key ∉ marked', key ∉ marked ∧ value' key = value key

theorem Marks.refl (marked : Set Key) (value : Key → Value) : Marks marked value marked value :=
  fun _ unmarked => ⟨unmarked, rfl⟩

theorem Marks.trans (first : Marks marked value marked' value')
    (second : Marks marked' value' marked'' value'') : Marks marked value marked'' value'' := by
  intro key unmarked
  obtain ⟨unmarkedMiddle, sameSecond⟩ := second key unmarked
  obtain ⟨unmarkedBefore, sameFirst⟩ := first key unmarkedMiddle
  exact ⟨unmarkedBefore, sameSecond.trans sameFirst⟩

theorem Marks.of_changed (changed : Set Key)
    (isMarked : ∀ key, key ∈ marked' ↔ key ∈ changed ∨ key ∈ marked)
    (same : ∀ key ∉ changed, value' key = value key) : Marks marked value marked' value' := by
  intro key unmarked
  rw [isMarked, not_or] at unmarked
  exact ⟨unmarked.2, same key unmarked.1⟩

def Backed (value : Key → Option Record) (marked : Set Key) (store : Key → Option Record) : Prop :=
  ∀ key record, value key = some record → key ∉ marked → store key = some record

variable {record record' : Key → Option Record} {store store' : Key → Option Record}

theorem Backed.marks (backed : Backed record marked store)
    (marks : Marks marked record marked' record') : Backed record' marked' store := by
  intro key found present unmarked
  obtain ⟨unmarkedBefore, same⟩ := marks key unmarked
  rw [same] at present
  exact backed key found present unmarkedBefore

theorem Backed.write (backed : Backed record marked store) (store' : Key → Option Record)
    (written : ∀ key ∈ marked, ∀ found, record key = some found → store' key = some found)
    (kept : ∀ key ∉ marked, store' key = store key) : Backed record ∅ store' := by
  intro key found present _
  by_cases isMarked : key ∈ marked
  · exact written key isMarked found present
  · rw [kept key isMarked]
    exact backed key found present isMarked

/-- Nothing is marked, so that everything is in the store. -/
theorem Backed.stored (backed : Backed record ∅ store) {key : Key} {found : Record}
    (present : record key = some found) : store key = some found :=
  backed key found present (Set.notMem_empty key)

end Lycancoin.Data
