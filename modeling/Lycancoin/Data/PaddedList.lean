import Mathlib

namespace Lycancoin.Data

/-! Lists read as infinite sequences that are blank from some position on.

A position past the end reads as the blank.  Dropping blanks at the end and
padding with blanks change no slot, and among the lists that do not end in a
blank the slots determine the list.
-/

namespace PaddedList

variable {α : Type} {blank : α} {isBlank : α → Bool} {items other : List α}

def slot (blank : α) (items : List α) (position : Nat) : α := items[position]?.getD blank

theorem slot_of_length_le {position : Nat} (past : items.length ≤ position) :
    slot blank items position = blank := by
  rw [slot, List.getElem?_eq_none past, Option.getD_none]

theorem slot_eq_getElem {position : Nat} (within : position < items.length) :
    slot blank items position = items[position] := by
  rw [slot, List.getElem?_eq_getElem within, Option.getD_some]

theorem slot_set {position : Nat} (within : position < items.length) (value : α) :
    slot blank (items.set position value) = Function.update (slot blank items) position value := by
  funext place
  by_cases same : place = position
  · subst same
    simp [slot, within]
  · rw [Function.update_of_ne same, slot, slot, List.getElem?_set_ne (Ne.symm same)]

theorem slot_append_replicate (count : Nat) :
    slot blank (items ++ List.replicate count blank) = slot blank items := by
  funext place
  by_cases within : place < items.length
  · rw [slot, slot, List.getElem?_append_left within]
  · have past := Nat.le_of_not_lt within
    rw [slot_of_length_le past, slot, List.getElem?_append_right past, List.getElem?_replicate]
    split <;> rfl

def Canonical (blank : α) (isBlank : α → Bool) (items : List α) : Prop :=
  ∀ item ∈ items, isBlank item = true → item = blank

theorem slot_rdropWhile (canonical : Canonical blank isBlank items) :
    slot blank (items.rdropWhile isBlank) = slot blank items := by
  have padding : ∀ item ∈ items.rtakeWhile isBlank, item = blank := fun item member =>
    canonical item ((List.rtakeWhile_suffix isBlank items).subset member)
      (List.mem_rtakeWhile_imp member)
  have split : items = items.rdropWhile isBlank ++
      List.replicate (items.rtakeWhile isBlank).length blank := by
    rw [← List.eq_replicate_of_mem padding, List.rdropWhile_append_rtakeWhile]
  conv_rhs => rw [split, slot_append_replicate]

def Trimmed (isBlank : α → Bool) (items : List α) : Prop :=
  ∀ item, items.getLast? = some item → isBlank item = false

private theorem length_le_of_slot_eq (isBlankBlank : isBlank blank = true)
    (trimmed : Trimmed isBlank other) (same : slot blank items = slot blank other) :
    other.length ≤ items.length := by
  by_contra longer
  have nonempty : other ≠ [] := by
    rintro rfl
    simp at longer
  have last := trimmed _ (List.getLast?_eq_some_getLast nonempty)
  have position : other.length - 1 < other.length := by
    have := List.length_pos_iff.mpr nonempty
    omega
  have value : slot blank other (other.length - 1) = other.getLast nonempty := by
    rw [slot_eq_getElem position, List.getLast_eq_getElem]
  rw [← same, slot_of_length_le (by omega)] at value
  rw [← value, isBlankBlank] at last
  contradiction

theorem eq_of_slot_eq (isBlankBlank : isBlank blank = true)
    (trimmed : Trimmed isBlank items) (otherTrimmed : Trimmed isBlank other)
    (same : slot blank items = slot blank other) : items = other := by
  have length : items.length = other.length :=
    le_antisymm (length_le_of_slot_eq isBlankBlank trimmed same.symm)
      (length_le_of_slot_eq isBlankBlank otherTrimmed same)
  apply List.ext_getElem length
  intro position within otherWithin
  have value : slot blank items position = items[position] := slot_eq_getElem within
  rw [← value, same, slot_eq_getElem otherWithin]

end PaddedList

end Lycancoin.Data
