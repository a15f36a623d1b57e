import Mathlib.Algebra.Order.BigOperators.Group.List
import Mathlib.Data.Finset.Lattice.Lemmas
import Mathlib.Data.Finset.Option
import Mathlib.Data.Finset.Union
import Mathlib.Logic.Relation
import Mathlib.Tactic.Linarith

namespace Lycancoin.Data

/-! A list of items with a mark beside each of them, and the items that are marked. -/

namespace Marked

variable {α : Type*}

def picked : List α → List Bool → List α
  | item :: items, true :: marks => item :: picked items marks
  | _ :: items, false :: marks => picked items marks
  | _, _ => []

@[simp] theorem picked_nil (marks : List Bool) : picked ([] : List α) marks = [] := by
  simp [picked]

@[simp] theorem picked_replicate_true (items : List α) :
    picked items (List.replicate items.length true) = items := by
  induction items with
  | nil => simp
  | cons item items ih => simp [List.replicate_succ, picked, ih]

@[simp] theorem picked_replicate_false (items : List α) (count : Nat) :
    picked items (List.replicate count false) = [] := by
  induction items generalizing count with
  | nil => simp
  | cons item items ih =>
      cases count with
      | zero => simp [picked]
      | succ count => simp [List.replicate_succ, picked, ih]

theorem picked_sublist (items : List α) (marks : List Bool) :
    (picked items marks).Sublist items := by
  induction items generalizing marks with
  | nil => simp
  | cons item items ih =>
      cases marks with
      | nil => simp [picked]
      | cons mark marks =>
          cases mark with
          | true => simpa [picked] using ih marks
          | false => simpa [picked] using (ih marks).trans (List.sublist_cons_self item items)

theorem sum_picked_set {weight : α → Int} {items : List α} {marks : List Bool} {i : Nat} {item : α}
    (itemAt : items[i]? = some item) (unmarked : marks[i]? = some false) :
    ((picked items (marks.set i true)).map weight).sum =
      ((picked items marks).map weight).sum + weight item := by
  induction items generalizing marks i with
  | nil => simp at itemAt
  | cons first items ih =>
      cases marks with
      | nil => simp at unmarked
      | cons mark marks =>
          cases i with
          | zero =>
              obtain rfl : first = item := by simpa using itemAt
              obtain rfl : mark = false := by simpa using unmarked
              simp [picked, add_comm]
          | succ i =>
              have rest := @ih marks i (by simpa using itemAt)
                (by simpa using unmarked)
              cases mark with
              | true => simp [picked, rest, add_assoc]
              | false => simp [picked, rest]

theorem set_of_getElem? {marks : List Bool} {i : Nat} {mark : Bool} (markAt : marks[i]? = some mark) :
    marks.set i mark = marks := by
  obtain ⟨bound, rfl⟩ := List.getElem?_eq_some_iff.1 markAt
  exact List.set_getElem_self bound

theorem sum_picked_le {weight : α → Int} {items : List α}
    (nonneg : ∀ item ∈ items, 0 ≤ weight item) (marks : List Bool) :
    ((picked items marks).map weight).sum ≤ (items.map weight).sum := by
  apply List.Sublist.sum_le_sum ((picked_sublist items marks).map weight)
  intro value valueIn
  obtain ⟨item, itemIn, rfl⟩ := List.mem_map.1 valueIn
  exact nonneg item itemIn

theorem sum_picked_nonneg {weight : α → Int} {items : List α}
    (nonneg : ∀ item ∈ items, 0 ≤ weight item) (marks : List Bool) :
    0 ≤ ((picked items marks).map weight).sum := by
  apply List.sum_nonneg
  intro value valueIn
  obtain ⟨item, itemIn, rfl⟩ := List.mem_map.1 valueIn
  exact nonneg item ((picked_sublist items marks).subset itemIn)

end Marked

/-! Groups of elements that overlap, and what becomes of them when the groups that overlap are
merged: the connected components of being together in a group. -/

namespace Merging

variable {α : Type*}

def Together (groups : List (Finset α)) (a b : α) : Prop := ∃ group ∈ groups, a ∈ group ∧ b ∈ group

/-- A chain of groups leads from one element to the other. -/
def Linked (groups : List (Finset α)) : α → α → Prop := Relation.ReflTransGen (Together groups)

theorem Together.symm {groups : List (Finset α)} {a b : α} (together : Together groups a b) :
    Together groups b a := by
  obtain ⟨group, member, left, right⟩ := together
  exact ⟨group, member, right, left⟩

theorem Linked.symm {groups : List (Finset α)} {a b : α} (linked : Linked groups a b) :
    Linked groups b a := by
  induction linked with
  | refl => exact .refl
  | tail _ together ih => exact .head together.symm ih

theorem Linked.mono {groups more : List (Finset α)} (subset : groups ⊆ more) {a b : α}
    (linked : Linked groups a b) : Linked more a b := by
  induction linked with
  | refl => exact .refl
  | tail _ together ih =>
      obtain ⟨group, member, both⟩ := together
      exact ih.tail ⟨group, subset member, both⟩

/-- A set that every group leaves alone or lies in has all that its elements are linked to. -/
theorem Linked.mem {groups : List (Finset α)} {part : Finset α}
    (closed : ∀ group ∈ groups, ∀ a ∈ group, a ∈ part → group ⊆ part) {a b : α}
    (linked : Linked groups a b) (start : a ∈ part) : b ∈ part := by
  induction linked with
  | refl => exact start
  | tail _ together ih =>
      obtain ⟨group, member, left, right⟩ := together
      exact closed group member _ left ih right

structure Components (groups : List (Finset α)) (parts : Finset (Finset α)) : Prop where
  nonempty : ∀ part ∈ parts, part.Nonempty
  covers : ∀ a, (∃ part ∈ parts, a ∈ part) ↔ ∃ group ∈ groups, a ∈ group
  linked : ∀ part ∈ parts, ∀ a ∈ part, ∀ b, b ∈ part ↔ Linked groups a b

namespace Components

variable {groups : List (Finset α)} {parts : Finset (Finset α)}

theorem nil : Components ([] : List (Finset α)) ∅ := by
  constructor <;> simp

theorem eq_of_mem (components : Components groups parts) {first second : Finset α} {a : α}
    (left : first ∈ parts) (right : second ∈ parts) (inFirst : a ∈ first) (inSecond : a ∈ second) :
    first = second := by
  ext b
  rw [components.linked first left a inFirst, components.linked second right a inSecond]

theorem pairwiseDisjoint (components : Components groups parts) {first second : Finset α}
    (left : first ∈ parts) (right : second ∈ parts) (different : first ≠ second) :
    Disjoint first second := by
  rw [Finset.disjoint_left]
  intro a inFirst inSecond
  exact different (components.eq_of_mem left right inFirst inSecond)

theorem group_subset (components : Components groups parts) {group part : Finset α} {a : α}
    (member : group ∈ groups) (partIn : part ∈ parts) (inGroup : a ∈ group) (inPart : a ∈ part) :
    group ⊆ part := by
  intro b other
  rw [components.linked part partIn a inPart]
  exact .single ⟨group, member, inGroup, other⟩

theorem congr {others : List (Finset α)} (components : Components groups parts)
    (same : ∀ group, group ∈ groups ↔ group ∈ others) : Components others parts := by
  have forth : groups ⊆ others := fun group member => (same group).1 member
  have back : others ⊆ groups := fun group member => (same group).2 member
  refine ⟨components.nonempty, fun a => ?_, fun part partIn a inPart b => ?_⟩
  · rw [components.covers]
    constructor
    · rintro ⟨group, member, inGroup⟩
      exact ⟨group, forth member, inGroup⟩
    · rintro ⟨group, member, inGroup⟩
      exact ⟨group, back member, inGroup⟩
  · rw [components.linked part partIn a inPart]
    exact ⟨Linked.mono forth, Linked.mono back⟩

end Components

section

variable [DecidableEq α]

def hits (group : Finset α) (parts : Finset (Finset α)) : Finset (Finset α) :=
  parts.filter fun part => ¬Disjoint part group

def merged (group : Finset α) (parts : Finset (Finset α)) : Finset α :=
  group ∪ (hits group parts).biUnion id

def absorb (group : Finset α) (parts : Finset (Finset α)) : Finset (Finset α) :=
  insert (merged group parts) (parts \ hits group parts)

theorem mem_hits {group : Finset α} {parts : Finset (Finset α)} {part : Finset α} :
    part ∈ hits group parts ↔ part ∈ parts ∧ ∃ a ∈ part, a ∈ group := by
  simp [hits, Finset.not_disjoint_iff]

theorem mem_merged {group : Finset α} {parts : Finset (Finset α)} {a : α} :
    a ∈ merged group parts ↔ a ∈ group ∨ ∃ part ∈ hits group parts, a ∈ part := by
  simp [merged]

theorem Components.absorb {groups : List (Finset α)} {parts : Finset (Finset α)}
    (components : Components groups parts) {group : Finset α} (nonempty : group.Nonempty) :
    Components (group :: groups) (absorb group parts) := by
  have mono : groups ⊆ group :: groups := List.subset_cons_self group groups
  -- an element of the merged part is linked to one of the group
  have reaches : ∀ a ∈ merged group parts, ∃ c ∈ group, Linked (group :: groups) a c := by
    intro a inMerged
    rcases mem_merged.1 inMerged with inGroup | ⟨part, hit, inPart⟩
    · exact ⟨a, inGroup, .refl⟩
    · obtain ⟨partIn, c, cInPart, cInGroup⟩ := mem_hits.1 hit
      have linked := (components.linked part partIn a inPart c).1 cInPart
      exact ⟨c, cInGroup, linked.mono mono⟩
  have closedMerged : ∀ other ∈ group :: groups, ∀ a ∈ other, a ∈ merged group parts →
      other ⊆ merged group parts := by
    intro other otherIn a inOther inMerged
    rcases List.mem_cons.1 otherIn with rfl | old
    · exact fun b inGroup => mem_merged.2 (Or.inl inGroup)
    · obtain ⟨part, partIn, inPart⟩ := (components.covers a).2 ⟨other, old, inOther⟩
      have hit : part ∈ hits group parts := by
        rcases mem_merged.1 inMerged with inGroup | ⟨hitPart, hit, inHit⟩
        · exact mem_hits.2 ⟨partIn, a, inPart, inGroup⟩
        · rwa [components.eq_of_mem partIn (mem_hits.1 hit).1 inPart inHit]
      intro b inOther'
      exact mem_merged.2 (Or.inr ⟨part, hit, components.group_subset old partIn inOther inPart
        inOther'⟩)
  constructor
  · intro part partIn
    rcases Finset.mem_insert.1 partIn with rfl | kept
    · obtain ⟨a, inGroup⟩ := nonempty
      exact ⟨a, mem_merged.2 (Or.inl inGroup)⟩
    · exact components.nonempty part (Finset.mem_sdiff.1 kept).1
  · intro a
    constructor
    · rintro ⟨part, partIn, inPart⟩
      rcases Finset.mem_insert.1 partIn with rfl | kept
      · rcases mem_merged.1 inPart with inGroup | ⟨hitPart, hit, inHit⟩
        · exact ⟨group, List.mem_cons_self, inGroup⟩
        · obtain ⟨other, old, inOther⟩ :=
            (components.covers a).1 ⟨hitPart, (mem_hits.1 hit).1, inHit⟩
          exact ⟨other, mono old, inOther⟩
      · obtain ⟨other, old, inOther⟩ :=
          (components.covers a).1 ⟨part, (Finset.mem_sdiff.1 kept).1, inPart⟩
        exact ⟨other, mono old, inOther⟩
    · rintro ⟨other, otherIn, inOther⟩
      rcases List.mem_cons.1 otherIn with rfl | old
      · exact ⟨_, Finset.mem_insert_self _ _, mem_merged.2 (Or.inl inOther)⟩
      · obtain ⟨part, partIn, inPart⟩ := (components.covers a).2 ⟨other, old, inOther⟩
        by_cases hit : part ∈ hits group parts
        · exact ⟨_, Finset.mem_insert_self _ _, mem_merged.2 (Or.inr ⟨part, hit, inPart⟩)⟩
        · exact ⟨part, Finset.mem_insert_of_mem (Finset.mem_sdiff.2 ⟨partIn, hit⟩), inPart⟩
  · intro part partIn a inPart b
    rcases Finset.mem_insert.1 partIn with rfl | kept
    · constructor
      · intro other
        obtain ⟨c, cIn, toC⟩ := reaches a inPart
        obtain ⟨d, dIn, toD⟩ := reaches b other
        have across : Linked (group :: groups) c d :=
          .single ⟨group, List.mem_cons_self, cIn, dIn⟩
        exact (toC.trans across).trans toD.symm
      · intro linked
        exact linked.mem closedMerged inPart
    · obtain ⟨before, free⟩ := Finset.mem_sdiff.1 kept
      constructor
      · intro other
        exact ((components.linked part before a inPart b).1 other).mono mono
      · intro linked
        refine linked.mem ?_ inPart
        intro other otherIn c inOther inPart'
        rcases List.mem_cons.1 otherIn with rfl | old
        · exact absurd (mem_hits.2 ⟨before, c, inPart', inOther⟩) free
        · exact components.group_subset old before inOther inPart'

end

end Merging

end Lycancoin.Data
