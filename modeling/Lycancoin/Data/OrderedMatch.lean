import Mathlib.Data.Fintype.Card
import Mathlib.Data.List.Forall2
import Mathlib.Data.List.NodupEquivFin
import Mathlib.Order.Fin.Basic

namespace Lycancoin.Data

variable {α β : Type*} {accept : α → β → Prop} {item : α} {items : List α} {place : β}
  {places : List β}

def Matches (accept : α → β → Prop) (items : List α) (places : List β) : Prop :=
  ∃ chosen : Fin items.length → Fin places.length,
    StrictMono chosen ∧ ∀ i, accept (items.get i) (places.get (chosen i))

theorem matches_iff_sublist :
    Matches accept items places ↔
      ∃ taken : List β, taken.Sublist places ∧ List.Forall₂ accept items taken := by
  constructor
  · rintro ⟨chosen, ordered, accepts⟩
    refine ⟨List.ofFn fun i => places.get (chosen i), ?_, ?_⟩
    · rw [List.sublist_iff_exists_fin_orderEmbedding_get_eq]
      refine ⟨(Fin.castOrderIso (by simp)).toOrderEmbedding.trans
        (OrderEmbedding.ofStrictMono chosen ordered), ?_⟩
      intro i
      rw [List.get_eq_getElem, List.getElem_ofFn]
      rfl
    · rw [List.forall₂_iff_get]
      refine ⟨by simp, ?_⟩
      intro i inside _
      simpa using accepts ⟨i, inside⟩
  · rintro ⟨taken, sublist, accepts⟩
    obtain ⟨chosen, same⟩ := List.sublist_iff_exists_fin_orderEmbedding_get_eq.1 sublist
    obtain ⟨length, accepts⟩ := List.forall₂_iff_get.1 accepts
    refine ⟨fun i => chosen (i.cast length), ?_, ?_⟩
    · intro i j less
      exact chosen.strictMono less
    · intro i
      rw [← same]
      exact accepts i i.isLt (by rw [← length]; exact i.isLt)

theorem matches_nil : Matches accept [] places :=
  ⟨Fin.elim0, fun i => i.elim0, fun i => i.elim0⟩

theorem Matches.length_le (found : Matches accept items places) : items.length ≤ places.length := by
  obtain ⟨chosen, ordered, -⟩ := found
  simpa using Fintype.card_le_of_injective chosen ordered.injective

theorem matches_cons_of_accept (accepted : accept item place) :
    Matches accept (item :: items) (place :: places) ↔ Matches accept items places := by
  simp only [matches_iff_sublist]
  constructor
  · rintro ⟨taken, sublist, accepts⟩
    cases accepts with
    | cons _ accepts => exact ⟨_, List.Sublist.tail sublist, accepts⟩
  · rintro ⟨taken, sublist, accepts⟩
    exact ⟨place :: taken, sublist.cons_cons place, .cons accepted accepts⟩

theorem matches_cons_of_not (refused : ¬ accept item place) :
    Matches accept (item :: items) (place :: places) ↔ Matches accept (item :: items) places := by
  simp only [matches_iff_sublist]
  constructor
  · rintro ⟨taken, sublist, accepts⟩
    cases sublist with
    | cons _ sublist => exact ⟨taken, sublist, accepts⟩
    | cons_cons _ sublist =>
        cases accepts with
        | cons accepted _ => exact absurd accepted refused
  · rintro ⟨taken, sublist, accepts⟩
    exact ⟨taken, sublist.cons place, accepts⟩

end Lycancoin.Data
