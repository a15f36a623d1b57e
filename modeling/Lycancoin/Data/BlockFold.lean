import Mathlib.Data.List.Basic
import Mathlib.Tactic.Linarith

namespace Lycancoin.Data

/-! A state that takes in blocks of one size, and the items behind the whole blocks. -/

namespace BlockFold

variable {σ τ : Type} (size : Nat) (absorb : σ → List τ → σ)

/-- The state after all whole blocks, and the rest. -/
def absorbAll (state : σ) (items : List τ) : σ × List τ :=
  if 0 < size ∧ size ≤ items.length then
    absorbAll (absorb state (items.take size)) (items.drop size)
  else (state, items)
termination_by items.length
decreasing_by
  rw [List.length_drop]
  omega

variable {size absorb} {state : σ} {items more : List τ}

theorem absorbAll_of_lt (short : items.length < size) :
    absorbAll size absorb state items = (state, items) := by
  rw [absorbAll, if_neg (by omega)]

theorem absorbAll_of_le (positive : 0 < size) (long : size ≤ items.length) :
    absorbAll size absorb state items =
      absorbAll size absorb (absorb state (items.take size)) (items.drop size) := by
  rw [absorbAll, if_pos ⟨positive, long⟩]

theorem absorbAll_block_append (positive : 0 < size) (full : items.length = size) :
    absorbAll size absorb state (items ++ more) =
      absorbAll size absorb (absorb state items) more := by
  have long : size ≤ (items ++ more).length := by
    rw [List.length_append]
    omega
  rw [absorbAll_of_le positive long, ← full, List.take_left, List.drop_left]

/-- What is taken in later goes behind the rest. -/
theorem absorbAll_append (positive : 0 < size) (state : σ) (items more : List τ) :
    absorbAll size absorb state (items ++ more) =
      absorbAll size absorb (absorbAll size absorb state items).1
        ((absorbAll size absorb state items).2 ++ more) := by
  by_cases long : size ≤ items.length
  · rw [absorbAll_of_le positive long, ← absorbAll_append positive _ (items.drop size) more]
    have parts : items ++ more = items.take size ++ (items.drop size ++ more) := by
      rw [← List.append_assoc, List.take_append_drop]
    rw [parts, absorbAll_block_append positive (List.length_take_of_le long)]
  · rw [absorbAll_of_lt (Nat.lt_of_not_le long)]
termination_by items.length
decreasing_by
  rw [List.length_drop]
  omega

theorem length_absorbAll (positive : 0 < size) (state : σ) (items : List τ) :
    (absorbAll size absorb state items).2.length = items.length % size := by
  by_cases long : size ≤ items.length
  · rw [absorbAll_of_le positive long, length_absorbAll positive, List.length_drop]
    exact (Nat.mod_eq_sub_mod long).symm
  · have short := Nat.lt_of_not_le long
    rw [absorbAll_of_lt short, Nat.mod_eq_of_lt short]
termination_by items.length
decreasing_by
  rw [List.length_drop]
  omega

end BlockFold

end Lycancoin.Data
