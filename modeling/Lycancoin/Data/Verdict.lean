import Mathlib.Data.List.Perm.Basic

namespace Lycancoin.Data

/-! A loop that judges the elements of a list in their order.  An element lets the loop go on, ends
it with false, or settles it: then it ends with true and the elements behind are not judged. -/

inductive Verdict where
  | pass
  | reject
  | settle
deriving DecidableEq, Repr

namespace Verdict

variable {α : Type*} (verdict : α → Verdict)

def judge : List α → Bool
  | [] => true
  | x :: rest =>
      match verdict x with
      | .pass => judge rest
      | .reject => false
      | .settle => true

variable {verdict}

theorem judge_of_forall {xs : List α} (accepted : ∀ x ∈ xs, verdict x ≠ .reject) :
    judge verdict xs = true := by
  induction xs with
  | nil => rfl
  | cons x rest ih =>
      cases judged : verdict x with
      | pass =>
          simp only [judge, judged]
          exact ih fun y member => accepted y (List.mem_cons_of_mem x member)
      | reject => exact absurd judged (accepted x List.mem_cons_self)
      | settle => simp only [judge, judged]

theorem judge_iff_of_unsettled {xs : List α} (unsettled : ∀ x ∈ xs, verdict x ≠ .settle) :
    judge verdict xs = true ↔ ∀ x ∈ xs, verdict x ≠ .reject := by
  induction xs with
  | nil => simp [judge]
  | cons x rest ih =>
      have behind := ih fun y member => unsettled y (List.mem_cons_of_mem x member)
      cases judged : verdict x with
      | pass => simp [judge, judged, behind]
      | reject => simp [judge, judged]
      | settle => exact absurd judged (unsettled x List.mem_cons_self)

/-- The loop judges all elements, in whatever order they come, if and only if none settles it or
there is nothing to reject. -/
theorem judge_exact {xs : List α} :
    ((judge verdict xs = true ↔ ∀ x ∈ xs, verdict x ≠ .reject) ∧
      ∀ ys, ys.Perm xs → judge verdict ys = judge verdict xs) ↔
      (∀ x ∈ xs, verdict x ≠ .reject) ∨ ∀ x ∈ xs, verdict x ≠ .settle := by
  constructor
  · intro right
    by_cases accepted : ∀ x ∈ xs, verdict x ≠ .reject
    · exact Or.inl accepted
    · right
      intro x member settled
      obtain ⟨front, back, rfl⟩ := List.append_of_mem member
      have moved := right.2 (x :: (front ++ back)) List.perm_middle.symm
      simp only [judge, settled] at moved
      exact accepted (right.1.1 moved.symm)
  · intro clean
    cases clean with
    | inl accepted =>
        have whole := judge_of_forall accepted
        constructor
        · exact ⟨fun _ => accepted, fun _ => whole⟩
        · intro ys order
          rw [whole]
          exact judge_of_forall fun y member => accepted y (order.mem_iff.1 member)
    | inr unsettled =>
        apply And.intro (judge_iff_of_unsettled unsettled)
        intro ys order
        rw [Bool.eq_iff_iff, judge_iff_of_unsettled unsettled,
          judge_iff_of_unsettled fun y member => unsettled y (order.mem_iff.1 member)]
        simp only [order.mem_iff]

end Verdict

end Lycancoin.Data
