import Lycancoin.Data.Ancestors

namespace Lycancoin

open Lycancoin.Data

def invertLowestOne (n : Nat) : Nat := n &&& (n - 1)

def getSkipHeight (height : Nat) : Nat :=
  if height < 2 then 0
  else if height &&& 1 ≠ 0 then invertLowestOne (invertLowestOne (height - 1)) + 1
  else invertLowestOne height

theorem invertLowestOne_lt {n : Nat} (positive : 0 < n) : invertLowestOne n < n := by
  have bound : n &&& (n - 1) ≤ n - 1 := Nat.and_le_right
  unfold invertLowestOne
  omega

theorem invertLowestOne_le (n : Nat) : invertLowestOne n ≤ n := Nat.and_le_left

theorem getSkipHeight_lt {height : Nat} (positive : 0 < height) :
    getSkipHeight height < height := by
  unfold getSkipHeight
  split_ifs with low odd
  · exact positive
  · have first : invertLowestOne (height - 1) < height - 1 := invertLowestOne_lt (by omega)
    have second := invertLowestOne_le (invertLowestOne (height - 1))
    omega
  · exact invertLowestOne_lt positive

/-- The links between the entries of `mapBlockIndex`, which are named by their hashes. -/
structure BlockLinks (α : Type) where
  pprev : α → Option α
  pskip : α → Option α
  nHeight : α → Nat

namespace BlockLinks

variable {α : Type} (links : BlockLinks α)

/-- An entry and all that `pprev` leads to. -/
def ancestry (pindex : α) : List α := Forest.path links.pprev links.nHeight pindex

/-- The loop of `GetAncestor`.  To follow a null pointer has no result. -/
def ancestorLoop (height : Nat) (pindexWalk : Option α) (heightWalk : Nat) : Option (Option α) :=
  if _ : height < heightWalk then
    match pindexWalk with
    | none => none
    | some walk =>
        let heightSkip := getSkipHeight heightWalk
        let heightSkipPrev := getSkipHeight (heightWalk - 1)
        if heightSkip = height ∨ height < heightSkip ∧
            ¬ ((heightSkipPrev : Int) < heightSkip - 2 ∧ height ≤ heightSkipPrev) then
          ancestorLoop height (links.pskip walk) heightSkip
        else ancestorLoop height (links.pprev walk) (heightWalk - 1)
  else some pindexWalk
termination_by heightWalk
decreasing_by
  · exact getSkipHeight_lt (by omega)
  · omega

def getAncestor (pindex : α) (height : Int) : Option (Option α) :=
  if height > links.nHeight pindex ∨ height < 0 then some none
  else links.ancestorLoop height.toNat (some pindex) (links.nHeight pindex)

def buildSkip [DecidableEq α] (pindex : α) : Option (BlockLinks α) :=
  match links.pprev pindex with
  | none => some links
  | some pprev =>
      (links.getAncestor pprev (getSkipHeight (links.nHeight pindex))).map fun pskip =>
        { links with pskip := Function.update links.pskip pindex pskip }

end BlockLinks

/-- The entries of `mapBlockIndex` with their links. -/
structure IndexTree (α : Type) extends BlockLinks α where
  entries : List α

/-- What `LoadBlockIndexGuts` leaves: no `pskip` yet, and each height one above the parent's. -/
structure StoredTree (α : Type) where
  pprev : α → Option α
  nHeight : α → Nat
  entries : List α
  graded : Forest.Graded pprev nHeight
  closed : ∀ pindex ∈ entries, ∀ prev, pprev pindex = some prev → prev ∈ entries
  absent : ∀ pindex, pindex ∉ entries → pprev pindex = none ∧ nHeight pindex = 0

namespace IndexTree

variable {α : Type} [DecidableEq α]

/-- The part of `LoadBlockIndexDB` that builds the skip list, over `vSortedByHeight`. -/
def buildSkips : List α → IndexTree α → Option (IndexTree α)
  | [], tree => some tree
  | pindex :: rest, tree => do
      let links ← tree.toBlockLinks.buildSkip pindex
      buildSkips rest { tree with toBlockLinks := links }

def loadBlockIndexDB (stored : StoredTree α) (vSortedByHeight : List α) : Option (IndexTree α) :=
  buildSkips vSortedByHeight
    { pprev := stored.pprev, pskip := fun _ => none, nHeight := stored.nHeight,
      entries := stored.entries }

/-- `AddToBlockIndex`: the new entry is in the map when its predecessor is looked up. -/
def addToBlockIndex (tree : IndexTree α) (hash hashPrevBlock : α) : Option (IndexTree α) :=
  if hash ∈ tree.entries then some tree
  else
    let entries := hash :: tree.entries
    let links : BlockLinks α :=
      if hashPrevBlock ∈ entries then
        { pprev := Function.update tree.pprev hash (some hashPrevBlock)
          pskip := Function.update tree.pskip hash none
          nHeight := Function.update tree.nHeight hash (tree.nHeight hashPrevBlock + 1) }
      else
        { pprev := Function.update tree.pprev hash none
          pskip := Function.update tree.pskip hash none
          nHeight := Function.update tree.nHeight hash 0 }
    do
      let links ← links.buildSkip hash
      pure { toBlockLinks := links, entries }

/-- Blocks, each with the hash of its predecessor, are added one after the other. -/
def addBlocks : List (α × α) → IndexTree α → Option (IndexTree α)
  | [], tree => some tree
  | (hash, hashPrevBlock) :: rest, tree => do
      let tree ← tree.addToBlockIndex hash hashPrevBlock
      addBlocks rest tree

end IndexTree

/-! ## The walk -/

namespace BlockLinks

variable {α : Type} {links : BlockLinks α}

/-- `pskip` leads to the ancestor at the skip height. -/
def SkipBuilt (links : BlockLinks α) (pindex : α) : Prop :=
  ∀ prev, links.pprev pindex = some prev →
    links.pskip pindex =
      Forest.ancestor links.pprev links.nHeight pindex (getSkipHeight (links.nHeight pindex))

/-- The walk passes only entries of the path that are not below the wanted height. -/
theorem ancestorLoop_eq (graded : Forest.Graded links.pprev links.nHeight) {pindex : α}
    (built : ∀ place ∈ links.ancestry pindex, links.SkipBuilt place) {height : Nat}
    (within : height ≤ links.nHeight pindex) :
    links.ancestorLoop height (some pindex) (links.nHeight pindex) =
      some (Forest.ancestor links.pprev links.nHeight pindex height) := by
  generalize level : links.nHeight pindex = heightWalk
  induction heightWalk using Nat.strong_induction_on generalizing pindex with
  | _ heightWalk ih =>
      rw [ancestorLoop]
      by_cases below : height < heightWalk
      · obtain ⟨prev, isParent⟩ := graded.exists_parent (show 0 < links.nHeight pindex by omega)
        have upwards : ∀ place ∈ links.ancestry pindex, ∀ other ∈ links.ancestry place,
            links.SkipBuilt other := fun place member other onPath =>
          built other (graded.mem_path_trans onPath member)
        rw [dif_pos below]
        simp only
        split_ifs with skips
        · have deeper := getSkipHeight_lt (show 0 < heightWalk by omega)
          have reaches : height ≤ getSkipHeight heightWalk := by omega
          have skip := built pindex (graded.self_mem_path pindex) prev isParent
          obtain ⟨place, found⟩ := graded.exists_ancestor
            (show getSkipHeight heightWalk ≤ links.nHeight pindex by omega)
          obtain ⟨onPath, atLevel⟩ := graded.ancestor_eq_some_iff.mp found
          rw [skip, level, found,
            ih _ deeper (upwards place onPath) (by omega) atLevel,
            graded.ancestor_of_mem_path onPath (by omega)]
        · have rise := graded.step pindex prev isParent
          have onPath := graded.parent_mem_path isParent
          rw [isParent, ih _ (by omega) (upwards prev onPath) (by omega) (by omega),
            graded.ancestor_of_parent isParent (by omega)]
      · rw [dif_neg below]
        have top : height = links.nHeight pindex := by omega
        rw [top, graded.ancestor_self]

theorem getAncestor_eq (graded : Forest.Graded links.pprev links.nHeight) {pindex : α}
    (built : ∀ place ∈ links.ancestry pindex, links.SkipBuilt place) {height : Nat}
    (within : height ≤ links.nHeight pindex) :
    links.getAncestor pindex height =
      some (Forest.ancestor links.pprev links.nHeight pindex height) := by
  rw [getAncestor, if_neg (by omega), Int.toNat_natCast, ancestorLoop_eq graded built within]

/-- `BuildSkip` changes the one skip pointer, which it sets to the ancestor. -/
theorem buildSkip_spec [DecidableEq α] (graded : Forest.Graded links.pprev links.nHeight)
    {pindex : α} (built : ∀ prev, links.pprev pindex = some prev →
      ∀ place ∈ links.ancestry prev, links.SkipBuilt place) :
    ∃ pskip, links.buildSkip pindex =
        some { links with pskip := Function.update links.pskip pindex pskip } ∧
      SkipBuilt { links with pskip := Function.update links.pskip pindex pskip } pindex := by
  unfold buildSkip
  cases isParent : links.pprev pindex with
  | none =>
      refine ⟨links.pskip pindex, ?_, ?_⟩
      · simp
      · intro prev contradicted
        simp only [isParent] at contradicted
        cases contradicted
  | some prev =>
      have rise := graded.step pindex prev isParent
      have deeper := getSkipHeight_lt (show 0 < links.nHeight pindex by omega)
      have found := getAncestor_eq graded (built prev isParent)
        (show getSkipHeight (links.nHeight pindex) ≤ links.nHeight prev by omega)
      refine ⟨Forest.ancestor links.pprev links.nHeight prev
        (getSkipHeight (links.nHeight pindex)), by simp only [found, Option.map_some], ?_⟩
      intro other isOther
      simp only [Function.update_self]
      exact graded.ancestor_of_parent isParent deeper

end BlockLinks

namespace IndexTree

variable {α : Type} [DecidableEq α] {tree : IndexTree α}

/-- Parents are entries, heights grow by one from a parent, and `BuildSkip` was called on every
entry. -/
structure Linked (tree : IndexTree α) : Prop where
  graded : Forest.Graded tree.pprev tree.nHeight
  closed : ∀ pindex ∈ tree.entries, ∀ prev, tree.pprev pindex = some prev → prev ∈ tree.entries
  absent : ∀ pindex, pindex ∉ tree.entries → tree.pprev pindex = none ∧ tree.nHeight pindex = 0
  skips : ∀ pindex, tree.SkipBuilt pindex

omit [DecidableEq α] in
theorem mem_entries_of_ancestry {pprev : α → Option α} {nHeight : α → Nat} {entries : List α}
    (graded : Forest.Graded pprev nHeight)
    (closed : ∀ pindex ∈ entries, ∀ prev, pprev pindex = some prev → prev ∈ entries) {pindex place : α}
    (member : pindex ∈ entries) (onPath : place ∈ Forest.path pprev nHeight pindex) :
    place ∈ entries := by
  induction pindex using graded.induction with
  | root pindex isRoot =>
      rw [(graded.mem_path_of_root isRoot).mp onPath]
      exact member
  | step pindex prev isParent ih =>
      cases (graded.mem_path_of_parent isParent).mp onPath with
      | inl same =>
          rw [same]
          exact member
      | inr higher => exact ih (closed pindex member prev isParent) higher

/-- The skip list grows from genesis upwards, so that the walk finds the skips it needs. -/
theorem buildSkips_spec (graded : Forest.Graded tree.pprev tree.nHeight)
    (closed : ∀ pindex ∈ tree.entries, ∀ prev, tree.pprev pindex = some prev → prev ∈ tree.entries)
    {pending : List α} (inside : ∀ pindex ∈ pending, pindex ∈ tree.entries)
    (sorted : pending.Pairwise fun first second => tree.nHeight first ≤ tree.nHeight second)
    (done : ∀ pindex ∈ tree.entries, pindex ∈ pending ∨ tree.SkipBuilt pindex) :
    ∃ pskip, buildSkips pending tree = some { tree with pskip } ∧
      ∀ pindex ∈ tree.entries, BlockLinks.SkipBuilt { tree.toBlockLinks with pskip } pindex := by
  induction pending generalizing tree with
  | nil =>
      refine ⟨tree.pskip, rfl, ?_⟩
      intro pindex member
      cases done pindex member with
      | inl waiting => cases waiting
      | inr built => exact built
  | cons pindex rest ih =>
      have member := inside pindex List.mem_cons_self
      obtain ⟨lowest, sortedRest⟩ := List.pairwise_cons.mp sorted
      have built : ∀ prev, tree.pprev pindex = some prev →
          ∀ place ∈ tree.ancestry prev, tree.SkipBuilt place := by
        intro prev isParent place onPath
        have rise := graded.step pindex prev isParent
        have bound := graded.height_le_of_mem_path onPath
        have entry := mem_entries_of_ancestry graded closed (closed pindex member prev isParent) onPath
        cases done place entry with
        | inr built => exact built
        | inl waiting =>
            cases waiting with
            | head => omega
            | tail _ later =>
                have higher := lowest place later
                omega
      obtain ⟨pskip, built, fresh⟩ := BlockLinks.buildSkip_spec graded built
      obtain ⟨whole, run, skips⟩ := @ih
        { tree with pskip := Function.update tree.pskip pindex pskip } graded closed
        (fun other later => inside other (List.mem_cons_of_mem _ later)) sortedRest (by
          intro other entry
          by_cases same : other = pindex
          · rw [same]
            exact Or.inr fresh
          · cases done other entry with
            | inl waiting =>
                cases waiting with
                | head => contradiction
                | tail _ later => exact Or.inl later
            | inr built =>
                right
                intro prev isParent
                simp only [Function.update_of_ne same]
                exact built prev isParent)
      refine ⟨whole, ?_, skips⟩
      rw [buildSkips, built]
      exact run

theorem loadBlockIndexDB_linked (stored : StoredTree α) {vSortedByHeight : List α}
    (sorted : vSortedByHeight.Pairwise fun first second =>
      stored.nHeight first ≤ stored.nHeight second)
    (complete : ∀ pindex, pindex ∈ vSortedByHeight ↔ pindex ∈ stored.entries) :
    ∃ tree, loadBlockIndexDB stored vSortedByHeight = some tree ∧ tree.Linked := by
  obtain ⟨pskip, run, skips⟩ := @buildSkips_spec _ _
    { pprev := stored.pprev, pskip := fun _ => none, nHeight := stored.nHeight,
      entries := stored.entries } stored.graded stored.closed vSortedByHeight
    (fun pindex => (complete pindex).mp) sorted
    (fun pindex member => Or.inl ((complete pindex).mpr member))
  refine ⟨_, run, stored.graded, stored.closed, stored.absent, ?_⟩
  intro pindex
  by_cases member : pindex ∈ stored.entries
  · exact skips pindex member
  · intro prev isParent
    simp only [(stored.absent pindex member).1] at isParent
    cases isParent

/-- A new entry on top of an entry, or on top of none, keeps all the paths there were. -/
theorem Linked.grow (linked : tree.Linked) {hash : α} (fresh : hash ∉ tree.entries)
    {grown : BlockLinks α} (inside : ∀ prev ∈ grown.pprev hash, prev ∈ tree.entries)
    (level : grown.nHeight hash =
      ((grown.pprev hash).map fun prev => tree.nHeight prev + 1).getD 0)
    (kept : ∀ pindex, pindex ≠ hash → grown.pprev pindex = tree.pprev pindex ∧
      grown.nHeight pindex = tree.nHeight pindex ∧ grown.pskip pindex = tree.pskip pindex) :
    ∃ links, grown.buildSkip hash = some links ∧
      Linked { toBlockLinks := links, entries := hash :: tree.entries } := by
  have apart : ∀ pindex ∈ tree.entries, pindex ≠ hash := by
    intro pindex member same
    exact fresh (same ▸ member)
  have lowEntry : ∀ pindex, pindex ≠ hash → ∀ prev, tree.pprev pindex = some prev →
      pindex ∈ tree.entries ∧ prev ∈ tree.entries := by
    intro pindex other prev isParent
    have member : pindex ∈ tree.entries := by
      by_contra missing
      rw [(linked.absent pindex missing).1] at isParent
      cases isParent
    exact ⟨member, linked.closed pindex member prev isParent⟩
  have graded : Forest.Graded grown.pprev grown.nHeight := by
    constructor
    · intro pindex isRoot
      by_cases same : pindex = hash
      · rw [same] at isRoot
        rw [same, level, isRoot]
        rfl
      · rw [(kept pindex same).1] at isRoot
        rw [(kept pindex same).2.1]
        exact linked.graded.root pindex isRoot
    · intro pindex prev isParent
      by_cases same : pindex = hash
      · rw [same] at isParent
        rw [same, level, isParent, (kept prev (apart prev (inside prev isParent))).2.1]
        rfl
      · rw [(kept pindex same).1] at isParent
        rw [(kept pindex same).2.1,
          (kept prev (apart prev (lowEntry pindex same prev isParent).2)).2.1]
        exact linked.graded.step pindex prev isParent
  have skips : ∀ pindex, pindex ≠ hash → grown.SkipBuilt pindex := by
    intro pindex other prev isParent
    rw [(kept pindex other).1] at isParent
    have entry := (lowEntry pindex other prev isParent).1
    have passed : ∀ place ∈ tree.ancestry pindex, place ≠ hash := fun place onPath =>
      apart place (mem_entries_of_ancestry linked.graded linked.closed entry onPath)
    rw [(kept pindex other).2.2, linked.skips pindex prev isParent, (kept pindex other).2.1]
    exact (Forest.ancestor_congr (fun place onPath => (kept place (passed place onPath)).1)
      (fun place onPath => (kept place (passed place onPath)).2.1) (kept pindex other).2.1 _).symm
  obtain ⟨pskip, built, skip⟩ := @BlockLinks.buildSkip_spec _ grown _ graded hash (by
    intro prev isParent place onPath
    apply skips
    have rise := graded.step hash prev isParent
    have bound := graded.height_le_of_mem_path onPath
    intro same
    rw [same] at bound
    omega)
  refine ⟨_, built, graded, ?_, ?_, ?_⟩
  · intro pindex member prev isParent
    simp only at isParent
    by_cases same : pindex = hash
    · rw [same] at isParent
      exact List.mem_cons_of_mem _ (inside prev isParent)
    · rw [(kept pindex same).1] at isParent
      exact List.mem_cons_of_mem _ (lowEntry pindex same prev isParent).2
  · intro pindex missing
    rw [List.mem_cons, not_or] at missing
    simp only [(kept pindex missing.1).1, (kept pindex missing.1).2.1]
    exact linked.absent pindex missing.2
  · intro pindex
    by_cases same : pindex = hash
    · rw [same]
      exact skip
    · intro prev isParent
      simp only [Function.update_of_ne same]
      exact skips pindex same prev isParent

theorem Linked.addToBlockIndex (linked : tree.Linked) {hash hashPrevBlock : α}
    (apart : hash ≠ hashPrevBlock) :
    ∃ after, tree.addToBlockIndex hash hashPrevBlock = some after ∧ after.Linked := by
  unfold IndexTree.addToBlockIndex
  by_cases old : hash ∈ tree.entries
  · rw [if_pos old]
    exact ⟨tree, rfl, linked⟩
  · rw [if_neg old]
    by_cases known : hashPrevBlock ∈ hash :: tree.entries
    · have inside : hashPrevBlock ∈ tree.entries := by
        cases List.mem_cons.mp known with
        | inl same => exact absurd same.symm apart
        | inr member => exact member
      obtain ⟨links, built, linked⟩ := @Linked.grow _ _ _ linked _ old
        { pprev := Function.update tree.pprev hash (some hashPrevBlock)
          pskip := Function.update tree.pskip hash none
          nHeight := Function.update tree.nHeight hash (tree.nHeight hashPrevBlock + 1) }
        (by simpa using inside) (by simp)
        (fun pindex other => by simp only [Function.update_of_ne other, and_self])
      simp only [known, if_true, built]
      exact ⟨_, rfl, linked⟩
    · obtain ⟨links, built, linked⟩ := @Linked.grow _ _ _ linked _ old
        { pprev := Function.update tree.pprev hash none
          pskip := Function.update tree.pskip hash none
          nHeight := Function.update tree.nHeight hash 0 }
        (by simp) (by simp)
        (fun pindex other => by simp only [Function.update_of_ne other, and_self])
      simp only [known, if_false, built]
      exact ⟨_, rfl, linked⟩

theorem Linked.addBlocks (linked : tree.Linked) {blocks : List (α × α)}
    (apart : ∀ block ∈ blocks, block.1 ≠ block.2) :
    ∃ after, tree.addBlocks blocks = some after ∧ after.Linked := by
  induction blocks generalizing tree with
  | nil => exact ⟨tree, rfl, linked⟩
  | cons block rest ih =>
      obtain ⟨hash, hashPrevBlock⟩ := block
      obtain ⟨next, added, linked⟩ := linked.addToBlockIndex (apart _ List.mem_cons_self)
      obtain ⟨after, run, linked⟩ := ih linked fun block member =>
        apart block (List.mem_cons_of_mem _ member)
      refine ⟨after, ?_, linked⟩
      rw [IndexTree.addBlocks, added]
      exact run

omit [DecidableEq α] in
/-- `GetAncestor` finds what `pprev` leads to at the height, and null outside the heights. -/
theorem Linked.getAncestor (linked : tree.Linked) (pindex : α) (height : Int) :
    tree.getAncestor pindex height =
      some (if 0 ≤ height then
        Forest.ancestor tree.pprev tree.nHeight pindex height.toNat else none) := by
  by_cases within : 0 ≤ height ∧ height ≤ tree.nHeight pindex
  · lift height to Nat using within.1
    rw [BlockLinks.getAncestor_eq linked.graded (fun place _ => linked.skips place) (by omega),
      if_pos within.1, Int.toNat_natCast]
  · rw [BlockLinks.getAncestor, if_pos (by omega)]
    by_cases negative : height < 0
    · rw [if_neg (by omega)]
    · rw [if_pos (by omega), linked.graded.ancestor_eq_none (by omega)]

theorem exists_linked (stored : StoredTree α) {vSortedByHeight : List α}
    (sorted : vSortedByHeight.Pairwise fun first second =>
      stored.nHeight first ≤ stored.nHeight second)
    (complete : ∀ pindex, pindex ∈ vSortedByHeight ↔ pindex ∈ stored.entries)
    {blocks : List (α × α)} (apart : ∀ block ∈ blocks, block.1 ≠ block.2) :
    ∃ tree, ((loadBlockIndexDB stored vSortedByHeight).bind (addBlocks blocks)) = some tree ∧
      tree.Linked := by
  obtain ⟨loaded, load, linked⟩ := loadBlockIndexDB_linked stored sorted complete
  obtain ⟨tree, run, linked⟩ := linked.addBlocks apart
  refine ⟨tree, ?_, linked⟩
  rw [load]
  exact run

/-- Whatever blocks are loaded and added, no null pointer is followed, and `GetAncestor` finds
the ancestor at each height that there is. -/
theorem getAncestor_exact (stored : StoredTree α) {vSortedByHeight : List α}
    (sorted : vSortedByHeight.Pairwise fun first second =>
      stored.nHeight first ≤ stored.nHeight second)
    (complete : ∀ pindex, pindex ∈ vSortedByHeight ↔ pindex ∈ stored.entries)
    {blocks : List (α × α)} (apart : ∀ block ∈ blocks, block.1 ≠ block.2) :
    ∃ tree, ((loadBlockIndexDB stored vSortedByHeight).bind (addBlocks blocks)) = some tree ∧
      Forest.Graded tree.pprev tree.nHeight ∧
      ∀ pindex ∈ tree.entries, ∀ height : Int,
        (0 ≤ height ∧ height ≤ tree.nHeight pindex →
          ∃ place ∈ tree.ancestry pindex, tree.nHeight place = height ∧
            tree.getAncestor pindex height = some (some place)) ∧
        (¬ (0 ≤ height ∧ height ≤ tree.nHeight pindex) →
          tree.getAncestor pindex height = some none) := by
  obtain ⟨tree, run, linked⟩ := exists_linked stored sorted complete apart
  refine ⟨tree, run, linked.graded, ?_⟩
  intro pindex _ height
  constructor
  · intro within
    obtain ⟨place, found⟩ := linked.graded.exists_ancestor
      (show height.toNat ≤ tree.nHeight pindex by omega)
    obtain ⟨onPath, atLevel⟩ := linked.graded.ancestor_eq_some_iff.mp found
    refine ⟨place, onPath, by omega, ?_⟩
    rw [linked.getAncestor, if_pos within.1, found]
  · intro outside
    rw [BlockLinks.getAncestor, if_pos (by omega)]

def emptyIndex : StoredTree Nat where
  pprev := fun _ => none
  nHeight := fun _ => 0
  entries := []
  graded := ⟨fun _ _ => rfl, fun _ _ isParent => by cases isParent⟩
  closed := fun _ member => by cases member
  absent := fun _ _ => ⟨rfl, rfl⟩

theorem getAncestor_exact_fork :
    ∃ tree, ((loadBlockIndexDB emptyIndex []).bind
        (addBlocks [(10, 9), (11, 10), (12, 11), (13, 11)])) = some tree ∧
      Forest.Graded tree.pprev tree.nHeight ∧
      ∀ pindex ∈ tree.entries, ∀ height : Int,
        (0 ≤ height ∧ height ≤ tree.nHeight pindex →
          ∃ place ∈ tree.ancestry pindex, tree.nHeight place = height ∧
            tree.getAncestor pindex height = some (some place)) ∧
        (¬ (0 ≤ height ∧ height ≤ tree.nHeight pindex) →
          tree.getAncestor pindex height = some none) :=
  getAncestor_exact emptyIndex List.Pairwise.nil (by simp [emptyIndex]) (by decide)

end IndexTree

end Lycancoin
