import Mathlib

namespace Lycancoin.Data

/-! Hash trees over lists of any length.

Each level pairs the nodes of the level below.  A node without a partner is
paired with itself, so that different lists can have the same root.  A level
that ends in two equal nodes gives such a list away.
-/

namespace HashTree

variable {α : Type} {node : α → α → α}

def pairs : List α → List (α × α)
  | [] => []
  | [last] => [(last, last)]
  | left :: right :: rest => (left, right) :: pairs rest

def levelUp (node : α → α → α) (nodes : List α) : List α :=
  (pairs nodes).map fun pair => node pair.1 pair.2

/-- A level that ends in two equal nodes which are paired with each other. -/
def EndsDoubled : List α → Prop
  | [] => False
  | [_] => False
  | [left, right] => left = right
  | _ :: _ :: next :: rest => EndsDoubled (next :: rest)

/-- `high` is a level of the tree over `low`. -/
inductive Level (node : α → α → α) (low : List α) : List α → Prop
  | base : Level node low low
  | up {nodes : List α} (below : Level node low nodes) (several : 2 ≤ nodes.length) :
      Level node low (levelUp node nodes)

/-- A pair of nodes that is hashed in the tree over some leaves. -/
def Hashed (node : α → α → α) (leaves : List α) (pair : α × α) : Prop :=
  ∃ nodes, Level node leaves nodes ∧ 2 ≤ nodes.length ∧ pair ∈ pairs nodes

/-- Some level of the tree ends in two equal nodes. -/
def Mutated (node : α → α → α) (leaves : List α) : Prop :=
  ∃ nodes, Level node leaves nodes ∧ EndsDoubled nodes

@[simp] theorem levelUp_cons_cons (left right : α) (rest : List α) :
    levelUp node (left :: right :: rest) = node left right :: levelUp node rest := rfl

theorem two_le_length_of_endsDoubled {nodes : List α} (doubled : EndsDoubled nodes) :
    2 ≤ nodes.length := by
  cases nodes with
  | nil => exact doubled.elim
  | cons first rest =>
      cases rest with
      | nil => exact doubled.elim
      | cons second rest => simp

theorem length_levelUp (nodes : List α) : (levelUp node nodes).length = (nodes.length + 1) / 2 := by
  induction nodes using pairs.induct with
  | case1 => simp [levelUp, pairs]
  | case2 last => simp [levelUp, pairs]
  | case3 left right rest ih =>
      rw [levelUp_cons_cons, List.length_cons, ih, List.length_cons, List.length_cons]
      omega

/-- The node that the node at a place is hashed with. -/
def sibling (fallback : α) (nodes : List α) (place : Nat) : α :=
  nodes.getD (min (place ^^^ 1) (nodes.length - 1)) fallback

theorem xor_one_add_two (place : Nat) : (place + 2) ^^^ 1 = (place ^^^ 1) + 2 := by
  rcases Nat.even_or_odd place with even | odd
  · rw [Nat.xor_one_of_even even, Nat.xor_one_of_even (even.add (by decide))]
  · have positive := odd.pos
    rw [Nat.xor_one_of_odd odd, Nat.xor_one_of_odd (odd.add_even (by decide))]
    omega

theorem getElem?_levelUp (fallback : α) {nodes : List α} {place : Nat} {value : α}
    (found : nodes[place]? = some value) :
    (levelUp node nodes)[place / 2]? = some
      (if place % 2 = 1 then node (sibling fallback nodes place) value
      else node value (sibling fallback nodes place)) := by
  induction nodes using pairs.induct generalizing place with
  | case1 => simp at found
  | case2 last =>
      have within := (List.getElem?_eq_some_iff.mp found).1
      obtain rfl : place = 0 := by simpa using within
      cases found
      rfl
  | case3 left right rest ih =>
      rw [levelUp_cons_cons]
      match place with
      | 0 =>
          cases found
          rfl
      | 1 =>
          cases found
          rfl
      | place + 2 =>
          have within := (List.getElem?_eq_some_iff.mp found).1
          have same : sibling fallback (left :: right :: rest) (place + 2) =
              sibling fallback rest place := by
            have small : place < rest.length := by simpa using within
            have bound : min ((place + 2) ^^^ 1) ((left :: right :: rest).length - 1) =
                min (place ^^^ 1) (rest.length - 1) + 2 := by
              rw [xor_one_add_two, List.length_cons, List.length_cons]
              omega
            rw [sibling, bound]
            rfl
          have half : (place + 2) / 2 = place / 2 + 1 := by omega
          rw [half, List.getElem?_cons_succ, ih found, same, Nat.add_mod_right]

namespace Level

variable {low nodes high : List α}

theorem trans (first : Level node low nodes) (second : Level node nodes high) :
    Level node low high := by
  induction second with
  | base => exact first
  | up below several ih => exact ih.up several

theorem eq_or_above (level : Level node low high) :
    high = low ∨ (2 ≤ low.length ∧ Level node (levelUp node low) high) := by
  induction level with
  | base => exact Or.inl rfl
  | up below several ih =>
      rcases ih with rfl | ⟨lowSeveral, above⟩
      · exact Or.inr ⟨several, .base⟩
      · exact Or.inr ⟨lowSeveral, above.up several⟩

theorem eq_of_singleton {root : α} (level : Level node [root] high) : high = [root] := by
  rcases level.eq_or_above with same | ⟨several, _⟩
  · exact same
  · simp at several

theorem root_above {root : α} (level : Level node low nodes) (top : Level node low [root]) :
    Level node nodes [root] := by
  induction level with
  | base => exact top
  | up below several ih =>
      rcases ih.eq_or_above with same | ⟨_, above⟩
      · rw [← same] at several
        simp at several
      · exact above

theorem nonempty (level : Level node low high) (leaves : low ≠ []) : high ≠ [] := by
  induction level with
  | base => exact leaves
  | up below several ih =>
      intro empty
      have length := congrArg List.length empty
      rw [length_levelUp, List.length_nil] at length
      omega

end Level

theorem Hashed.of_level {leaves nodes : List α} {pair : α × α} (level : Level node leaves nodes)
    (hashed : Hashed node nodes pair) : Hashed node leaves pair := by
  obtain ⟨above, higher, several, member⟩ := hashed
  exact ⟨above, level.trans higher, several, member⟩

theorem Mutated.of_level {leaves nodes : List α} (level : Level node leaves nodes)
    (mutated : Mutated node nodes) : Mutated node leaves := by
  obtain ⟨above, higher, doubled⟩ := mutated
  exact ⟨above, level.trans higher, doubled⟩

section Injective

variable {left right : List α}

theorem endsDoubled_cons_cons {first second : α} {rest : List α} (nonempty : rest ≠ []) :
    EndsDoubled (first :: second :: rest) ↔ EndsDoubled rest := by
  cases rest with
  | nil => exact absurd rfl nonempty
  | cons next rest => rfl

/-- One level determines the level below it, where no two equal nodes end it. -/
theorem eq_of_levelUp_eq (same : levelUp node left = levelUp node right)
    (injective : ∀ first ∈ pairs left, ∀ second ∈ pairs right,
      node first.1 first.2 = node second.1 second.2 → first = second)
    (leftSingle : ¬ EndsDoubled left) (rightSingle : ¬ EndsDoubled right) : left = right := by
  induction left using pairs.induct generalizing right with
  | case1 =>
      have length := congrArg List.length same
      rw [length_levelUp, length_levelUp, List.length_nil] at length
      exact (List.eq_nil_of_length_eq_zero (by omega)).symm
  | case2 last =>
      cases right using pairs.induct_unfolding with
      | case1 => simp [levelUp, pairs] at same
      | case2 other =>
          have equal := injective (last, last) (by simp [pairs]) (other, other) (by simp [pairs])
            (by simpa [levelUp, pairs] using same)
          rw [(Prod.mk.inj equal).1]
      | case3 first second rest =>
          have length := congrArg List.length same
          simp only [length_levelUp, List.length_cons, List.length_nil] at length
          have empty : rest = [] := List.eq_nil_of_length_eq_zero (by omega)
          subst empty
          have equal := injective (last, last) (by simp [pairs]) (first, second) (by simp [pairs])
            (by simpa [levelUp, pairs] using same)
          exact absurd ((Prod.mk.inj equal).1.symm.trans (Prod.mk.inj equal).2) rightSingle
  | case3 first second rest ih =>
      cases right with
      | nil => simp [levelUp, pairs] at same
      | cons third right =>
          cases right with
          | nil =>
              have length := congrArg List.length same
              simp only [length_levelUp, List.length_cons, List.length_nil] at length
              have empty : rest = [] := List.eq_nil_of_length_eq_zero (by omega)
              subst empty
              have equal := injective (first, second) (by simp [pairs]) (third, third)
                (by simp [pairs]) (by simpa [levelUp, pairs] using same)
              exact absurd ((Prod.mk.inj equal).1.trans (Prod.mk.inj equal).2.symm) leftSingle
          | cons fourth right =>
              rw [levelUp_cons_cons, levelUp_cons_cons, List.cons.injEq] at same
              have equal := injective (first, second) (by simp [pairs]) (third, fourth)
                (by simp [pairs]) same.1
              have tails : rest = right := by
                have lengths := congrArg List.length same.2
                rw [length_levelUp, length_levelUp] at lengths
                by_cases empty : rest = []
                · subst empty
                  exact (List.eq_nil_of_length_eq_zero (by simpa using lengths.symm)).symm
                · have other : right ≠ [] := by
                    intro none
                    rw [none, List.length_nil] at lengths
                    exact empty (List.eq_nil_of_length_eq_zero (by omega))
                  refine ih same.2 (fun pair member pair' member' => injective pair ?_ pair' ?_)
                    ?_ ?_
                  · exact List.mem_cons_of_mem _ member
                  · exact List.mem_cons_of_mem _ member'
                  · rwa [endsDoubled_cons_cons empty] at leftSingle
                  · rwa [endsDoubled_cons_cons other] at rightSingle
              rw [(Prod.mk.inj equal).1, (Prod.mk.inj equal).2, tails]

/-- The hash function tells the pairs apart that occur in two trees. -/
def TellsApart (node : α → α → α) (left right : List α) : Prop :=
  Set.InjOn (fun pair => node pair.1 pair.2)
    {pair | Hashed node left pair ∨ Hashed node right pair}

theorem TellsApart.symm (apart : TellsApart node left right) : TellsApart node right left :=
  fun _ first _ second same => apart first.symm second.symm same

theorem level_of_level_up (apart : TellsApart node left right) (several : 2 ≤ left.length)
    (rightSeveral : 2 ≤ right.length) (leftSingle : ¬ Mutated node left)
    (rightSingle : ¬ Mutated node right)
    (above : Level node (levelUp node right) (levelUp node left)) : Level node right left := by
  generalize top : levelUp node left = high at above
  have first : Level node right (levelUp node right) := .up .base rightSeveral
  cases above with
  | base =>
      have same : left = right := by
        refine eq_of_levelUp_eq top (fun pair member other otherMember => ?_)
          (fun doubled => leftSingle ⟨left, .base, doubled⟩)
          (fun doubled => rightSingle ⟨right, .base, doubled⟩)
        exact apart (Or.inl ⟨left, .base, several, member⟩)
          (Or.inr ⟨right, .base, rightSeveral, otherMember⟩)
      rw [same]
      exact .base
  | up below nodesSeveral =>
      rename_i nodes
      have level := first.trans below
      have same : left = nodes := by
        refine eq_of_levelUp_eq top (fun pair member other otherMember => ?_)
          (fun doubled => leftSingle ⟨left, .base, doubled⟩)
          (fun doubled => rightSingle ⟨nodes, level, doubled⟩)
        exact apart (Or.inl ⟨left, .base, several, member⟩)
          (Or.inr ⟨nodes, level, nodesSeveral, otherMember⟩)
      rw [same]
      exact level

/-- Of two trees with one root the one is the upper part of the other. -/
theorem level_or_level {root : α} (apart : TellsApart node left right)
    (leftRoot : Level node left [root]) (rightRoot : Level node right [root])
    (leftSingle : ¬ Mutated node left) (rightSingle : ¬ Mutated node right) :
    Level node right left ∨ Level node left right := by
  generalize size : left.length = n
  induction n using Nat.strong_induction_on generalizing left right with
  | _ n ih =>
      rcases leftRoot.eq_or_above with top | ⟨leftSeveral, leftAbove⟩
      · rw [← top]
        exact Or.inl rightRoot
      · rcases rightRoot.eq_or_above with top | ⟨rightSeveral, rightAbove⟩
        · rw [← top]
          exact Or.inr leftRoot
        · have leftUp : Level node left (levelUp node left) := .up .base leftSeveral
          have rightUp : Level node right (levelUp node right) := .up .base rightSeveral
          have smaller : (levelUp node left).length < n := by
            rw [length_levelUp]
            omega
          have apartAbove : TellsApart node (levelUp node left) (levelUp node right) :=
            fun pair hashed other otherHashed =>
              apart (hashed.imp (Hashed.of_level leftUp) (Hashed.of_level rightUp))
                (otherHashed.imp (Hashed.of_level leftUp) (Hashed.of_level rightUp))
          rcases ih _ smaller apartAbove leftAbove rightAbove
            (fun mutated => leftSingle (mutated.of_level leftUp))
            (fun mutated => rightSingle (mutated.of_level rightUp)) rfl with above | above
          · exact Or.inl (level_of_level_up apart leftSeveral rightSeveral leftSingle rightSingle above)
          · exact Or.inr
              (level_of_level_up apart.symm rightSeveral leftSeveral rightSingle leftSingle above)

/-- A level that holds a leaf is the lowest one. -/
theorem eq_of_level {leaves nodes : List α} (level : Level node leaves nodes) (nonempty : nodes ≠ [])
    (fresh : ∀ pair, Hashed node leaves pair → node pair.1 pair.2 ∉ nodes) : nodes = leaves := by
  cases level with
  | base => rfl
  | up below several =>
      rename_i lower
      obtain ⟨pair, member⟩ : ∃ pair, pair ∈ pairs lower := by
        apply List.exists_mem_of_ne_nil
        intro empty
        exact nonempty (by rw [levelUp, empty, List.map_nil])
      exact absurd (List.mem_map.mpr ⟨pair, member, rfl⟩)
        (fresh pair ⟨lower, below, several, member⟩)

/-- Leaves that no level gives away are determined by the root. -/
theorem eq_of_root_eq {root : α} (apart : TellsApart node left right)
    (fresh : ∀ pair, Hashed node left pair ∨ Hashed node right pair →
      node pair.1 pair.2 ∉ left ∧ node pair.1 pair.2 ∉ right)
    (leftNonempty : left ≠ []) (rightNonempty : right ≠ [])
    (leftRoot : Level node left [root]) (rightRoot : Level node right [root])
    (leftSingle : ¬ Mutated node left) (rightSingle : ¬ Mutated node right) : left = right := by
  rcases level_or_level apart leftRoot rightRoot leftSingle rightSingle with level | level
  · exact eq_of_level level leftNonempty fun pair hashed => (fresh pair (Or.inr hashed)).1
  · exact (eq_of_level level rightNonempty fun pair hashed => (fresh pair (Or.inl hashed)).2).symm

end Injective

section Shorter

variable {leaves nodes : List α}

theorem levelUp_take (nodes : List α) (n : Nat) :
    2 * n ≤ nodes.length → levelUp node (nodes.take (2 * n)) = (levelUp node nodes).take n := by
  induction nodes using pairs.induct generalizing n with
  | case1 =>
      intro bound
      have zero : n = 0 := by simpa using bound
      simp [zero, levelUp, pairs]
  | case2 last =>
      intro bound
      have zero : n = 0 := by
        simp only [List.length_cons, List.length_nil] at bound
        omega
      simp [zero, levelUp, pairs]
  | case3 left right rest ih =>
      intro bound
      cases n with
      | zero => simp [levelUp, pairs]
      | succ n =>
          have double : 2 * (n + 1) = 2 * n + 1 + 1 := by omega
          simp only [List.length_cons] at bound
          rw [double, List.take_succ_cons, List.take_succ_cons, levelUp_cons_cons,
            levelUp_cons_cons, List.take_succ_cons, ih n (by omega)]

/-- A proper initial part of a level is a level over an initial part of the leaves. -/
theorem exists_prefix_level (level : Level node leaves nodes) {initial : List α}
    (isPrefix : initial <+: nodes) (nonempty : initial ≠ [])
    (proper : initial.length < nodes.length) :
    ∃ shorter, shorter <+: leaves ∧ shorter.length < leaves.length ∧ shorter ≠ [] ∧
      Level node shorter initial := by
  induction level generalizing initial with
  | base => exact ⟨initial, isPrefix, proper, nonempty, .base⟩
  | up below several ih =>
      rename_i lower
      have positive := List.length_pos_iff.mpr nonempty
      rw [length_levelUp] at proper
      have size : 2 * initial.length < lower.length := by omega
      have part : levelUp node (lower.take (2 * initial.length)) = initial := by
        rw [levelUp_take lower _ size.le]
        exact (List.prefix_iff_eq_take.mp isPrefix).symm
      have length : (lower.take (2 * initial.length)).length = 2 * initial.length := by
        rw [List.length_take]
        omega
      obtain ⟨shorter, isPrefix, fewer, some, lifted⟩ := ih (List.take_prefix _ _)
        (List.ne_nil_of_length_pos (by rw [length]; omega)) (by rw [length]; exact size)
      refine ⟨shorter, isPrefix, fewer, some, ?_⟩
      rw [← part]
      exact lifted.up (by omega)

theorem levelUp_dropLast (doubled : EndsDoubled nodes) :
    levelUp node nodes.dropLast = levelUp node nodes := by
  induction nodes using EndsDoubled.induct with
  | case1 => exact doubled.elim
  | case2 last => exact doubled.elim
  | case3 left right =>
      have same : left = right := doubled
      rw [same]
      rfl
  | case4 left right next rest ih =>
      have keeps : (left :: right :: next :: rest).dropLast =
          left :: right :: (next :: rest).dropLast := by
        simp [List.dropLast]
      rw [keeps, levelUp_cons_cons, levelUp_cons_cons, ih doubled]

/-- Where a level of more than two nodes ends in two equal ones, an initial part
of the leaves has the same root. -/
theorem exists_shorter {root : α} (top : Level node leaves [root])
    (level : Level node leaves nodes) (doubled : EndsDoubled nodes) (large : 2 < nodes.length) :
    ∃ shorter, shorter <+: leaves ∧ shorter.length < leaves.length ∧ shorter ≠ [] ∧
      Level node shorter [root] := by
  have length : nodes.dropLast.length = nodes.length - 1 := List.length_dropLast
  obtain ⟨shorter, isPrefix, fewer, nonempty, lifted⟩ :=
    exists_prefix_level level (List.dropLast_prefix nodes)
      (List.ne_nil_of_length_pos (by omega)) (by omega)
  refine ⟨shorter, isPrefix, fewer, nonempty, ?_⟩
  rcases (level.root_above top).eq_or_above with same | ⟨_, above⟩
  · rw [← same] at large
    simp at large
  · rw [← levelUp_dropLast doubled] at above
    exact (lifted.up (by omega)).trans above

end Shorter

end HashTree

end Lycancoin.Data
