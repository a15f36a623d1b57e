import Lycancoin.Chain.ActiveChain

namespace Lycancoin

open Lycancoin.Data Lycancoin.ActiveChain

namespace BlockLinks

variable {α : Type} [DecidableEq α] (links : BlockLinks α)

/-- The loop of `LastCommonAncestor`, in so many rounds. -/
def commonLoop : Nat → Option α → Option α → Option (Option α × Option α)
  | _, none, pb => some (none, pb)
  | _, some pa, none => some (some pa, none)
  | 0, some _, some _ => none
  | rounds + 1, some pa, some pb =>
      if pa = pb then some (some pa, some pb)
      else commonLoop rounds (links.pprev pa) (links.pprev pb)

/-- The higher one of two entries is brought down to the height of the other. -/
def levelWith (pindex other : α) : Option (Option α) :=
  if links.nHeight pindex > links.nHeight other then
    links.getAncestor pindex (links.nHeight other)
  else some (some pindex)

/-- `LastCommonAncestor`.  There is no result when the assertion fails. -/
def lastCommonAncestor (pa pb : α) : Option (Option α) := do
  let levelA ← links.levelWith pa pb
  let levelB ← links.levelWith pb pa
  let (meetA, meetB) ← links.commonLoop (links.nHeight pa + 1) levelA levelB
  if meetA = meetB then some meetA else none

end BlockLinks

namespace IndexTree

variable {α : Type} {tree : IndexTree α}

def Rooted (tree : IndexTree α) : Prop :=
  ∀ first ∈ tree.entries, ∀ second ∈ tree.entries,
    tree.pprev first = none → tree.pprev second = none → first = second

section Common

variable {pa pb low fork : α}

/-- What two entries have in common does not depend on their order. -/
theorem highestCommon_swap (common : HighestCommon tree.toBlockLinks (some pa) pb fork) :
    HighestCommon tree.toBlockLinks (some pb) pa fork := by
  obtain ⟨_, isTip, onPath⟩ := common.onChain
  cases isTip
  refine ⟨onPath, ⟨pb, rfl, common.ofEntry⟩, ?_⟩
  intro other member onChain
  obtain ⟨_, isTip, below⟩ := onChain
  cases isTip
  exact common.highest other below ⟨pa, rfl, member⟩

/-- The part of a path above the other entry has nothing in common with it. -/
theorem highestCommon_of_level (graded : Forest.Graded tree.pprev tree.nHeight)
    (member : low ∈ tree.ancestry pa) (level : tree.nHeight pb ≤ tree.nHeight low)
    (common : HighestCommon tree.toBlockLinks (some low) pb fork) :
    HighestCommon tree.toBlockLinks (some pa) pb fork := by
  refine ⟨common.ofEntry, ?_, ?_⟩
  · obtain ⟨_, isTip, onPath⟩ := common.onChain
    cases isTip
    exact ⟨pa, rfl, graded.mem_path_trans onPath member⟩
  · intro other ofEntry onChain
    obtain ⟨_, isTip, onPath⟩ := onChain
    cases isTip
    have bound := graded.height_le_of_mem_path ofEntry
    apply common.highest other ofEntry
    refine ⟨low, rfl, ?_⟩
    rw [BlockLinks.ancestry, graded.mem_path_iff_ancestor,
      graded.ancestor_of_mem_path member (by omega)]
    exact graded.mem_path_iff_ancestor.mp onPath

theorem Linked.levelWith (linked : tree.Linked) (pindex other : α) :
    ∃ low ∈ tree.ancestry pindex, tree.levelWith pindex other = some (some low) ∧
      tree.nHeight low = min (tree.nHeight pindex) (tree.nHeight other) := by
  unfold BlockLinks.levelWith
  by_cases higher : tree.nHeight pindex > tree.nHeight other
  · obtain ⟨low, found⟩ := linked.graded.exists_ancestor (Nat.le_of_lt higher)
    obtain ⟨onPath, level⟩ := linked.graded.ancestor_eq_some_iff.mp found
    refine ⟨low, onPath, ?_, by omega⟩
    rw [if_pos higher, linked.getAncestor, if_pos (by omega), Int.toNat_natCast, found]
  · exact ⟨pindex, linked.graded.self_mem_path pindex, by rw [if_neg higher], by omega⟩

variable [DecidableEq α]

/-- Entries of equal height have parents of equal height, and genesis is where they meet at the
latest. -/
theorem Linked.commonLoop (linked : tree.Linked) (rooted : tree.Rooted) {rounds : Nat}
    (inA : pa ∈ tree.entries) (inB : pb ∈ tree.entries)
    (level : tree.nHeight pa = tree.nHeight pb) (enough : tree.nHeight pa < rounds) :
    ∃ fork, tree.commonLoop rounds (some pa) (some pb) = some (some fork, some fork) ∧
      HighestCommon tree.toBlockLinks (some pa) pb fork := by
  have graded := linked.graded
  induction rounds generalizing pa pb with
  | zero => omega
  | succ rounds ih =>
      rw [BlockLinks.commonLoop]
      by_cases same : pa = pb
      · rw [if_pos same, ← same]
        refine ⟨pa, rfl, graded.self_mem_path pa, ⟨pa, rfl, graded.self_mem_path pa⟩, ?_⟩
        intro other member _
        exact graded.height_le_of_mem_path member
      · rw [if_neg same]
        cases isParentA : tree.pprev pa with
        | none =>
            have bottom := graded.root pa isParentA
            cases isParentB : tree.pprev pb with
            | none => exact absurd (rooted pa inA pb inB isParentA isParentB) same
            | some prevB =>
                have rise := graded.step pb prevB isParentB
                omega
        | some prevA =>
            have riseA := graded.step pa prevA isParentA
            obtain ⟨prevB, isParentB⟩ := graded.exists_parent (show 0 < tree.nHeight pb by omega)
            have riseB := graded.step pb prevB isParentB
            rw [isParentB]
            obtain ⟨fork, run, common⟩ := ih (linked.closed pa inA prevA isParentA)
              (linked.closed pb inB prevB isParentB) (by omega) (by omega)
            refine ⟨fork, run, graded.mem_path_trans common.ofEntry
              (graded.parent_mem_path isParentB), ?_, ?_⟩
            · obtain ⟨_, isTip, onPath⟩ := common.onChain
              cases isTip
              exact ⟨pa, rfl, graded.mem_path_trans onPath (graded.parent_mem_path isParentA)⟩
            · intro other member onChain
              obtain ⟨_, isTip, onPath⟩ := onChain
              cases isTip
              have apart : ∀ {first second : α}, other ∈ tree.ancestry second →
                  tree.nHeight first = tree.nHeight second → first ≠ second → other ≠ first := by
                intro first second onSecond sameLevel distinct isFirst
                rw [isFirst] at onSecond
                exact distinct (graded.eq_of_mem_path_of_height_le onSecond sameLevel.ge)
              have notA := apart member level same
              have notB := apart onPath level.symm (Ne.symm same)
              have inPrevA := ((graded.mem_path_of_parent isParentA).mp onPath).resolve_left notA
              have inPrevB := ((graded.mem_path_of_parent isParentB).mp member).resolve_left notB
              exact common.highest other inPrevB ⟨prevA, rfl, inPrevA⟩

/-- Two entries have a highest common ancestor, and `LastCommonAncestor` finds it. -/
theorem Linked.lastCommonAncestor (linked : tree.Linked) (rooted : tree.Rooted)
    (inA : pa ∈ tree.entries) (inB : pb ∈ tree.entries) :
    ∃ fork, tree.lastCommonAncestor pa pb = some (some fork) ∧
      HighestCommon tree.toBlockLinks (some pa) pb fork := by
  have graded := linked.graded
  obtain ⟨lowA, onA, foundA, levelA⟩ := linked.levelWith pa pb
  obtain ⟨lowB, onB, foundB, levelB⟩ := linked.levelWith pb pa
  obtain ⟨fork, run, common⟩ := @Linked.commonLoop _ tree lowA lowB _ linked rooted
    (tree.nHeight pa + 1) (mem_entries_of_ancestry graded linked.closed inA onA)
    (mem_entries_of_ancestry graded linked.closed inB onB) (by omega) (by omega)
  refine ⟨fork, ?_, ?_⟩
  · simp [BlockLinks.lastCommonAncestor, foundA, foundB, run]
  · by_cases higher : tree.nHeight pb ≤ tree.nHeight pa
    · have sameB : lowB = pb := graded.eq_of_mem_path_of_height_le onB (by omega)
      rw [sameB] at common
      exact highestCommon_of_level graded onA (by omega) common
    · have sameA : lowA = pa := graded.eq_of_mem_path_of_height_le onA (by omega)
      rw [sameA] at common
      exact highestCommon_swap
        (highestCommon_of_level graded onB (by omega) (highestCommon_swap common))

end Common

end IndexTree

end Lycancoin
