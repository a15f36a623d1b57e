import Lycancoin.Data.Forest

namespace Lycancoin.Data

/-! The nodes above a node, found by their height.

A search may leave a path and go on from any node of it that is not below the
wanted height: the ancestor at that height stays the same.
-/

namespace Forest

variable {α : Type} {parent : α → Option α} {height : α → Nat}

def ancestor (parent : α → Option α) (height : α → Nat) (node : α) (level : Nat) : Option α :=
  (path parent height node).find? fun place => height place == level

theorem climb_congr {parent' : α → Option α} {fuel : Nat} {node : α}
    (agree : ∀ place ∈ climb parent fuel node, parent' place = parent place) :
    climb parent' fuel node = climb parent fuel node := by
  induction fuel generalizing node with
  | zero => rfl
  | succ fuel ih =>
      have first := agree node (by rw [climb]; split <;> simp)
      rw [climb, climb, first]
      cases isParent : parent node with
      | none => rfl
      | some above =>
          simp only
          rw [ih]
          intro place member
          apply agree
          rw [climb, isParent]
          exact List.mem_cons_of_mem _ member

/-- Paths and ancestors stay the same where the links along the path do. -/
theorem path_congr {parent' : α → Option α} {height' : α → Nat} {node : α}
    (parents : ∀ place ∈ path parent height node, parent' place = parent place)
    (level : height' node = height node) :
    path parent' height' node = path parent height node := by
  rw [path, level]
  exact climb_congr parents

theorem ancestor_congr {parent' : α → Option α} {height' : α → Nat} {node : α}
    (parents : ∀ place ∈ path parent height node, parent' place = parent place)
    (levels : ∀ place ∈ path parent height node, height' place = height place)
    (level : height' node = height node) (wanted : Nat) :
    ancestor parent' height' node wanted = ancestor parent height node wanted := by
  rw [ancestor, path_congr parents level, ancestor]
  apply List.find?_congr
  intro place member
  rw [levels place member]

namespace Graded

variable {node mid place above : α} {level : Nat}

theorem ancestor_eq_some_iff (graded : Graded parent height) :
    ancestor parent height node level = some place ↔
      place ∈ path parent height node ∧ height place = level := by
  constructor
  · intro found
    exact ⟨List.mem_of_find?_eq_some found, by simpa using List.find?_some found⟩
  · intro ⟨onPath, atLevel⟩
    cases found : ancestor parent height node level with
    | none =>
        have missed := List.find?_eq_none.mp found place onPath
        simp [atLevel] at missed
    | some other =>
        have same : height other = level := by simpa using List.find?_some found
        rw [graded.eq_of_height_eq (List.mem_of_find?_eq_some found) onPath
          (same.trans atLevel.symm)]

theorem exists_ancestor (graded : Graded parent height) (within : level ≤ height node) :
    ∃ place, ancestor parent height node level = some place := by
  obtain ⟨place, onPath, atLevel⟩ := graded.exists_mem_path_of_height within
  exact ⟨place, graded.ancestor_eq_some_iff.mpr ⟨onPath, atLevel⟩⟩

theorem ancestor_self (graded : Graded parent height) :
    ancestor parent height node (height node) = some node :=
  graded.ancestor_eq_some_iff.mpr ⟨graded.self_mem_path node, rfl⟩

/-- Nothing on a path is higher than where it starts. -/
theorem ancestor_eq_none (graded : Graded parent height) (beyond : height node < level) :
    ancestor parent height node level = none := by
  cases found : ancestor parent height node level with
  | none => rfl
  | some place =>
      obtain ⟨onPath, atLevel⟩ := graded.ancestor_eq_some_iff.mp found
      have bound := graded.height_le_of_mem_path onPath
      omega

theorem ancestor_of_mem_path (graded : Graded parent height)
    (member : mid ∈ path parent height node) (within : level ≤ height mid) :
    ancestor parent height mid level = ancestor parent height node level := by
  obtain ⟨place, found⟩ := graded.exists_ancestor within
  obtain ⟨onPath, atLevel⟩ := graded.ancestor_eq_some_iff.mp found
  rw [found]
  exact (graded.ancestor_eq_some_iff.mpr ⟨graded.mem_path_trans onPath member, atLevel⟩).symm

theorem ancestor_of_parent (graded : Graded parent height) (isParent : parent node = some above)
    (within : level < height node) :
    ancestor parent height above level = ancestor parent height node level := by
  have rise := graded.step node above isParent
  exact graded.ancestor_of_mem_path (graded.parent_mem_path isParent) (by omega)

theorem exists_parent (graded : Graded parent height) (positive : 0 < height node) :
    ∃ above, parent node = some above := by
  cases isParent : parent node with
  | none =>
      have bottom := graded.root node isParent
      omega
  | some above => exact ⟨above, rfl⟩

theorem mem_path_iff_ancestor (graded : Graded parent height) :
    place ∈ path parent height node ↔
      ancestor parent height node (height place) = some place := by
  rw [graded.ancestor_eq_some_iff]
  exact ⟨fun member => ⟨member, rfl⟩, And.left⟩

end Graded

end Forest

/-! Paths read upwards: from a low node to a high one, some nodes at a time. -/

namespace Forest

variable {α : Type} {parent : α → Option α} {height : α → Nat}

/-- So many nodes of a path from above a level on, the lowest first. -/
def ascent (parent : α → Option α) (height : α → Nat) (node : α) (low count : Nat) : List α :=
  (List.range' (low + 1) count).filterMap (ancestor parent height node)

theorem ascent_add (node : α) (low first second : Nat) :
    ascent parent height node low (first + second) =
      ascent parent height node low first ++ ascent parent height node (low + first) second := by
  rw [ascent, ascent, ascent, ← List.filterMap_append, Nat.add_right_comm low first 1,
    List.range'_append_1]

theorem ascent_one {node place : α} {low : Nat}
    (found : ancestor parent height node (low + 1) = some place) :
    ascent parent height node low 1 = [place] := by
  simp [ascent, found]

theorem ascent_succ {node place : α} {low count : Nat}
    (found : ancestor parent height node (low + count + 1) = some place) :
    ascent parent height node low (count + 1) =
      ascent parent height node low count ++ [place] := by
  rw [ascent_add, ascent_one found]

namespace Graded

variable {node place above : α} {low count : Nat}

theorem mem_ascent_iff (graded : Graded parent height) :
    place ∈ ascent parent height node low count ↔
      place ∈ path parent height node ∧ low < height place ∧ height place ≤ low + count := by
  rw [ascent, List.mem_filterMap]
  constructor
  · intro ⟨level, within, found⟩
    obtain ⟨onPath, atLevel⟩ := graded.ancestor_eq_some_iff.mp found
    rw [List.mem_range'_1] at within
    exact ⟨onPath, by omega, by omega⟩
  · intro ⟨onPath, above, below⟩
    refine ⟨height place, ?_, graded.mem_path_iff_ancestor.mp onPath⟩
    rw [List.mem_range'_1]
    omega

theorem ascent_of_parent (graded : Graded parent height) (isParent : parent node = some above)
    (within : low + count < height node) :
    ascent parent height node low count = ascent parent height above low count := by
  rw [ascent, ascent]
  apply List.filterMap_congr
  intro level member
  rw [List.mem_range'_1] at member
  exact (graded.ancestor_of_parent isParent (by omega)).symm

/-- The whole ascent is the path above the level, turned round. -/
theorem ascent_eq_reverse (graded : Graded parent height) (node : α) (low : Nat) :
    ascent parent height node low (height node - low) =
      ((path parent height node).filter fun place => decide (low < height place)).reverse := by
  induction node using graded.induction with
  | root node isRoot =>
      rw [graded.path_of_root isRoot, graded.root node isRoot]
      simp [ascent, graded.root node isRoot]
  | step node above isParent ih =>
      have rise := graded.step node above isParent
      rw [graded.path_of_parent isParent]
      by_cases reached : low < height node
      · have size : height node - low = height above - low + 1 := by omega
        have top : low + (height above - low) + 1 = height node := by omega
        rw [List.filter_cons_of_pos (by simpa using reached), List.reverse_cons, ← ih, size,
          @ascent_succ _ _ _ node node _ _ (by rw [top]; exact graded.ancestor_self),
          graded.ascent_of_parent isParent (by omega)]
      · have lower : height above - low = 0 := by omega
        have size : height node - low = 0 := by omega
        rw [lower] at ih
        rw [List.filter_cons_of_neg (by simpa using reached), ← ih, size]
        rfl

theorem ascent_pairwise (graded : Graded parent height) :
    (ascent parent height node low count).Pairwise fun below above =>
      height below < height above := by
  rw [ascent, List.pairwise_filterMap]
  apply (@List.pairwise_lt_range' (low + 1) count 1 Nat.one_pos).imp
  intro first second earlier below isBelow above isAbove
  have levelBelow := (graded.ancestor_eq_some_iff.mp isBelow).2
  have levelAbove := (graded.ancestor_eq_some_iff.mp isAbove).2
  omega

end Graded

end Forest

end Lycancoin.Data
