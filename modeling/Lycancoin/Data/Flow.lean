import Mathlib.Algebra.BigOperators.Group.Finset.Piecewise
import Mathlib.Tactic.Ring

namespace Lycancoin.Data

/-! Transactions that take places which others have made. -/

/-- The name of a transaction, the places that it takes, and the name of what makes a place. -/
structure Flow (τ ι π : Type) where
  name : τ → ι
  takes : τ → List π
  maker : π → ι

namespace Flow

section History

variable {τ ι π : Type}

/-- A history, the newest transaction first: a place that is taken has an older maker and no older
taker. -/
def TakesOnce (flow : Flow τ ι π) : List τ → Prop
  | [] => True
  | tx :: older =>
      (∀ place ∈ flow.takes tx, (∃ other ∈ older, flow.name other = flow.maker place) ∧
        ∀ other ∈ older, place ∉ flow.takes other) ∧ TakesOnce flow older

variable {flow : Flow τ ι π} {history newer : List τ} {tx other : τ} {place : π}

theorem TakesOnce.older (once : flow.TakesOnce (newer ++ history)) : flow.TakesOnce history := by
  induction newer with
  | nil => exact once
  | cons tx rest ih => exact ih once.2

theorem TakesOnce.maker (once : flow.TakesOnce history) (member : tx ∈ history)
    (taken : place ∈ flow.takes tx) : ∃ other ∈ history, flow.name other = flow.maker place := by
  induction history with
  | nil => contradiction
  | cons newest rest ih =>
      rcases List.mem_cons.mp member with rfl | later
      · obtain ⟨other, inside, made⟩ := (once.1 place taken).1
        exact ⟨other, List.mem_cons_of_mem _ inside, made⟩
      · obtain ⟨other, inside, made⟩ := ih once.2 later
        exact ⟨other, List.mem_cons_of_mem _ inside, made⟩

theorem TakesOnce.not_taken (once : flow.TakesOnce (newer ++ history)) (member : tx ∈ newer)
    (taken : place ∈ flow.takes tx) (old : other ∈ history) : place ∉ flow.takes other := by
  induction newer with
  | nil => contradiction
  | cons newest rest ih =>
      rcases List.mem_cons.mp member with rfl | later
      · exact (once.1 place taken).2 other (List.mem_append_right _ old)
      · exact ih once.2 later

theorem TakesOnce.eq (once : flow.TakesOnce history) (member : tx ∈ history)
    (otherMember : other ∈ history) (taken : place ∈ flow.takes tx)
    (otherTaken : place ∈ flow.takes other) : tx = other := by
  induction history with
  | nil => contradiction
  | cons newest rest ih =>
      rcases List.mem_cons.mp member with rfl | later
      · rcases List.mem_cons.mp otherMember with rfl | otherLater
        · rfl
        · exact absurd otherTaken ((once.1 place taken).2 other otherLater)
      · rcases List.mem_cons.mp otherMember with rfl | otherLater
        · exact absurd taken ((once.1 place otherTaken).2 tx later)
        · exact ih once.2 later otherLater

end History

/-! Two ways to add up what is left: by transactions, and by places that are not taken. -/

section Sums

variable {κ π : Type} [DecidableEq π] {value : π → ℤ} {makes takes : κ → Finset π}
  {counted : Finset κ}

theorem sum_flows (madeApart : (counted : Set κ).PairwiseDisjoint makes)
    (takenApart : (counted : Set κ).PairwiseDisjoint takes) :
    ∑ tx ∈ counted, (∑ place ∈ makes tx, value place - ∑ place ∈ takes tx, value place) =
      ∑ place ∈ counted.biUnion makes, value place -
        ∑ place ∈ counted.biUnion takes, value place := by
  rw [Finset.sum_sub_distrib, Finset.sum_biUnion madeApart, Finset.sum_biUnion takenApart]

/-- The two ways differ by what is gone without a counted taker, and by what is taken without a
counted maker. -/
theorem sum_flows_sub_sum_left {gone : π → Prop} [DecidablePred gone]
    (madeApart : (counted : Set κ).PairwiseDisjoint makes)
    (takenApart : (counted : Set κ).PairwiseDisjoint takes)
    (takenGone : ∀ tx ∈ counted, ∀ place ∈ takes tx, gone place) :
    ∑ tx ∈ counted, (∑ place ∈ makes tx, value place - ∑ place ∈ takes tx, value place) -
        ∑ place ∈ (counted.biUnion makes).filter fun place => ¬gone place, value place =
      ∑ place ∈ (counted.biUnion makes).filter gone \ counted.biUnion takes, value place -
        ∑ place ∈ counted.biUnion takes \ counted.biUnion makes, value place := by
  have split := Finset.sum_filter_add_sum_filter_not (counted.biUnion makes) gone value
  have goneSplit := Finset.sum_inter_add_sum_sdiff ((counted.biUnion makes).filter gone)
    (counted.biUnion takes) value
  have takenSplit := Finset.sum_inter_add_sum_sdiff (counted.biUnion takes)
    (counted.biUnion makes) value
  have common : (counted.biUnion makes).filter gone ∩ counted.biUnion takes =
      counted.biUnion takes ∩ counted.biUnion makes := by
    ext place
    simp only [Finset.mem_inter, Finset.mem_filter]
    constructor
    · exact fun ⟨⟨made, _⟩, taken⟩ => ⟨taken, made⟩
    · rintro ⟨taken, made⟩
      obtain ⟨tx, member, inside⟩ := Finset.mem_biUnion.mp taken
      exact ⟨⟨made, takenGone tx member place inside⟩, taken⟩
  rw [common] at goneSplit
  rw [sum_flows madeApart takenApart, ← split, ← goneSplit, ← takenSplit]
  ring

end Sums

end Flow

end Lycancoin.Data
