import Mathlib

namespace Lycancoin.Data

/-! Forests given by the parent and the height of each node.

The path of a node lists the node and everything above it, the root last.
Where heights count the steps to the root, the paths are linear orders and
the path of a node ends with the path of every node on it.
-/

namespace Forest

variable {α : Type} {parent : α → Option α} {height : α → Nat}

/-- The first `fuel + 1` nodes on the way from a node to its root. -/
def climb (parent : α → Option α) : Nat → α → List α
  | 0, node => [node]
  | fuel + 1, node =>
      match parent node with
      | none => [node]
      | some above => node :: climb parent fuel above

def path (parent : α → Option α) (height : α → Nat) (node : α) : List α :=
  climb parent (height node) node

/-- A root has height 0 and any other node is one higher than its parent. -/
structure Graded (parent : α → Option α) (height : α → Nat) : Prop where
  root : ∀ node, parent node = none → height node = 0
  step : ∀ node above, parent node = some above → height node = height above + 1

namespace Graded

variable {node above other : α}

theorem path_of_root (graded : Graded parent height) (isRoot : parent node = none) :
    path parent height node = [node] := by
  rw [path, graded.root node isRoot, climb]

theorem path_of_parent (graded : Graded parent height) (isParent : parent node = some above) :
    path parent height node = node :: path parent height above := by
  rw [path, graded.step node above isParent, climb, isParent]
  rfl

theorem induction (graded : Graded parent height) {motive : α → Prop}
    (root : ∀ node, parent node = none → motive node)
    (step : ∀ node above, parent node = some above → motive above → motive node)
    (node : α) : motive node := by
  generalize count : height node = n
  induction n generalizing node with
  | zero =>
      cases isParent : parent node with
      | none => exact root node isParent
      | some above =>
          have higher := graded.step node above isParent
          omega
  | succ n ih =>
      cases isParent : parent node with
      | none => exact root node isParent
      | some above =>
          have higher := graded.step node above isParent
          exact step node above isParent (ih above (by omega))

theorem self_mem_path (graded : Graded parent height) (node : α) :
    node ∈ path parent height node := by
  cases isParent : parent node with
  | none => simp [graded.path_of_root isParent]
  | some above => simp [graded.path_of_parent isParent]

theorem mem_path_of_parent (graded : Graded parent height) (isParent : parent node = some above) :
    other ∈ path parent height node ↔ other = node ∨ other ∈ path parent height above := by
  rw [graded.path_of_parent isParent, List.mem_cons]

theorem mem_path_of_root (graded : Graded parent height) (isRoot : parent node = none) :
    other ∈ path parent height node ↔ other = node := by
  rw [graded.path_of_root isRoot, List.mem_singleton]

theorem parent_mem_path (graded : Graded parent height) (isParent : parent node = some above) :
    above ∈ path parent height node :=
  (graded.mem_path_of_parent isParent).mpr (Or.inr (graded.self_mem_path above))

theorem height_le_of_mem_path (graded : Graded parent height)
    (member : other ∈ path parent height node) : height other ≤ height node := by
  induction node using graded.induction with
  | root node isRoot =>
      rw [(graded.mem_path_of_root isRoot).mp member]
  | step node above isParent ih =>
      rcases (graded.mem_path_of_parent isParent).mp member with rfl | higher
      · exact Nat.le_refl _
      · have rise := graded.step node above isParent
        have bound := ih higher
        omega

theorem mem_path_trans (graded : Graded parent height) {low : α}
    (first : low ∈ path parent height other) (second : other ∈ path parent height node) :
    low ∈ path parent height node := by
  induction node using graded.induction with
  | root node isRoot => rwa [(graded.mem_path_of_root isRoot).mp second] at first
  | step node above isParent ih =>
      rcases (graded.mem_path_of_parent isParent).mp second with rfl | higher
      · exact first
      · exact (graded.mem_path_of_parent isParent).mpr (Or.inr (ih higher))

theorem eq_of_mem_path_of_height_le (graded : Graded parent height)
    (member : other ∈ path parent height node) (level : height node ≤ height other) :
    other = node := by
  cases isParent : parent node with
  | none => exact (graded.mem_path_of_root isParent).mp member
  | some above =>
      rcases (graded.mem_path_of_parent isParent).mp member with same | higher
      · exact same
      · have rise := graded.step node above isParent
        have bound := graded.height_le_of_mem_path higher
        omega

/-- Two nodes on one path lie on each other's way. -/
theorem mem_path_total (graded : Graded parent height) {left right : α}
    (leftMember : left ∈ path parent height node)
    (rightMember : right ∈ path parent height node) :
    left ∈ path parent height right ∨ right ∈ path parent height left := by
  induction node using graded.induction with
  | root node isRoot =>
      rw [(graded.mem_path_of_root isRoot).mp leftMember,
        (graded.mem_path_of_root isRoot).mp rightMember]
      exact Or.inl (graded.self_mem_path node)
  | step node above isParent ih =>
      rcases (graded.mem_path_of_parent isParent).mp leftMember with rfl | leftHigher
      · exact Or.inr rightMember
      · rcases (graded.mem_path_of_parent isParent).mp rightMember with rfl | rightHigher
        · exact Or.inl leftMember
        · exact ih leftHigher rightHigher

theorem eq_of_height_eq (graded : Graded parent height) {left right : α}
    (leftMember : left ∈ path parent height node)
    (rightMember : right ∈ path parent height node) (level : height left = height right) :
    left = right := by
  rcases graded.mem_path_total leftMember rightMember with onRight | onLeft
  · exact graded.eq_of_mem_path_of_height_le onRight level.ge
  · exact (graded.eq_of_mem_path_of_height_le onLeft level.le).symm

theorem exists_append_path (graded : Graded parent height)
    (member : other ∈ path parent height node) :
    ∃ before, path parent height node = before ++ path parent height other ∧
      ∀ place ∈ before, other ∈ path parent height place ∧ height other < height place := by
  induction node using graded.induction with
  | root node isRoot =>
      rw [(graded.mem_path_of_root isRoot).mp member]
      exact ⟨[], rfl, by simp⟩
  | step node above isParent ih =>
      rcases (graded.mem_path_of_parent isParent).mp member with rfl | higher
      · exact ⟨[], rfl, by simp⟩
      · obtain ⟨before, split, passed⟩ := ih higher
        refine ⟨node :: before, by rw [graded.path_of_parent isParent, split, List.cons_append], ?_⟩
        intro place placeMember
        rcases List.mem_cons.mp placeMember with rfl | old
        · have rise := graded.step place above isParent
          have bound := graded.height_le_of_mem_path higher
          exact ⟨member, by omega⟩
        · exact passed place old

/-- What comes later on a path lies above what comes earlier. -/
theorem mem_path_of_append (graded : Graded parent height) {low : α} {front rest : List α}
    (split : path parent height node = front ++ low :: rest) (member : other ∈ front) :
    low ∈ path parent height other := by
  induction node using graded.induction generalizing front with
  | root node isRoot =>
      rw [graded.path_of_root isRoot] at split
      have lengths := congrArg List.length split
      have nonempty := List.length_pos_of_mem member
      simp only [List.length_cons, List.length_nil, List.length_append] at lengths
      omega
  | step node above isParent ih =>
      cases front with
      | nil => contradiction
      | cons first front =>
          have whole : low ∈ path parent height node := by simp [split]
          rw [graded.path_of_parent isParent, List.cons_append, List.cons.injEq] at split
          rcases List.mem_cons.mp member with rfl | later
          · rw [← split.1]
            exact whole
          · exact ih split.2 later

theorem exists_mem_path_of_height (graded : Graded parent height) {level : Nat}
    (within : level ≤ height node) : ∃ place ∈ path parent height node, height place = level := by
  induction node using graded.induction with
  | root node isRoot =>
      have bottom := graded.root node isRoot
      exact ⟨node, graded.self_mem_path node, by omega⟩
  | step node above isParent ih =>
      by_cases top : level = height node
      · exact ⟨node, graded.self_mem_path node, top.symm⟩
      · have rise := graded.step node above isParent
        obtain ⟨place, member, placed⟩ := ih (by omega)
        exact ⟨place, (graded.mem_path_of_parent isParent).mpr (Or.inr member), placed⟩

/-- A search along a path stops at the first hit, so that the other hits are
further up. -/
theorem mem_path_of_find? (graded : Graded parent height) {test : α → Bool} {found : α}
    (search : (path parent height node).find? test = some found)
    (member : other ∈ path parent height node) (hit : test other = true) :
    other ∈ path parent height found := by
  induction node using graded.induction with
  | root node isRoot =>
      rw [(graded.mem_path_of_root isRoot).mp member] at hit ⊢
      rw [graded.path_of_root isRoot, List.find?_cons_of_pos hit] at search
      rw [← Option.some.inj search]
      exact graded.self_mem_path node
  | step node above isParent ih =>
      rw [graded.path_of_parent isParent] at search
      by_cases stops : test node = true
      · rw [List.find?_cons_of_pos stops] at search
        rw [← Option.some.inj search]
        exact member
      · rw [List.find?_cons_of_neg stops] at search
        rcases (graded.mem_path_of_parent isParent).mp member with rfl | higher
        · exact absurd hit stops
        · exact ih search higher

theorem path_congr {parent' : α → Option α} {height' : α → Nat} (graded : Graded parent height)
    (graded' : Graded parent' height')
    (same : ∀ other ∈ path parent height node, parent' other = parent other) :
    path parent' height' node = path parent height node := by
  induction node using graded.induction with
  | root node isRoot =>
      have own := same node (graded.self_mem_path node)
      rw [graded.path_of_root isRoot, graded'.path_of_root (own.trans isRoot)]
  | step node above isParent ih =>
      have own := same node (graded.self_mem_path node)
      rw [graded.path_of_parent isParent, graded'.path_of_parent (own.trans isParent),
        ih fun other higher => same other ((graded.mem_path_of_parent isParent).mpr (Or.inr higher))]

theorem isChain_path (graded : Graded parent height) (node : α) :
    (path parent height node).IsChain fun low high => parent low = some high := by
  induction node using graded.induction with
  | root node isRoot =>
      rw [graded.path_of_root isRoot]
      exact List.isChain_singleton node
  | step node above isParent ih =>
      rw [graded.path_of_parent isParent, List.isChain_cons]
      refine ⟨fun next isNext => ?_, ih⟩
      cases isRoot : parent above with
      | none =>
          rw [graded.path_of_root isRoot] at isNext
          rw [isParent, Option.some.inj isNext]
      | some higher =>
          rw [graded.path_of_parent isRoot] at isNext
          rw [isParent, Option.some.inj isNext]

/-- The part of a path that is higher than a node on it, in the order of the
climb. -/
theorem exists_segment (graded : Graded parent height) (member : other ∈ path parent height node) :
    ∃ segment, path parent height node = segment ++ path parent height other ∧
      (path parent height node).takeWhile (fun place => height place != height other) = segment ∧
      (other :: segment.reverse).IsChain (fun below above => parent above = some below) ∧
      (other :: segment.reverse).getLast? = some node := by
  obtain ⟨segment, split, higher⟩ := graded.exists_append_path member
  have bottom : ∃ rest, path parent height other = other :: rest := by
    cases isParent : parent other with
    | none => exact ⟨[], graded.path_of_root isParent⟩
    | some above => exact ⟨_, graded.path_of_parent isParent⟩
  obtain ⟨rest, bottom⟩ := bottom
  refine ⟨segment, split, ?_, ?_, ?_⟩
  · rw [split, bottom, List.takeWhile_append_of_pos, List.takeWhile_cons_of_neg, List.append_nil]
    · simp
    · intro place isHigher
      have above := (higher place isHigher).2
      simp only [bne_iff_ne]
      omega
  · have whole := graded.isChain_path node
    rw [split, bottom, ← List.singleton_append, ← List.append_assoc] at whole
    have low := List.isChain_reverse.mpr whole.left_of_append
    rwa [List.reverse_append, List.reverse_singleton, List.singleton_append] at low
  · cases segment with
    | nil =>
        rw [List.nil_append] at split
        have same : node = other := by
          have first := graded.eq_of_mem_path_of_height_le member
          have self := graded.self_mem_path node
          rw [split] at self
          exact (first (graded.height_le_of_mem_path self)).symm
        rw [same]
        rfl
    | cons first segment =>
        have same : first = node := by
          cases isParent : parent node with
          | none =>
              rw [graded.path_of_root isParent, List.cons_append, List.cons.injEq] at split
              exact split.1.symm
          | some above =>
              rw [graded.path_of_parent isParent, List.cons_append, List.cons.injEq] at split
              exact split.1.symm
        rw [List.reverse_cons, ← List.cons_append, List.getLast?_concat, same]

end Graded

end Forest

end Lycancoin.Data
