import Lycancoin.Chain.SkipList

namespace Lycancoin

open Lycancoin.Data

/-- `CChain`: a null pointer stands where `resize` made room. -/
structure ActiveChain (α : Type) where
  vChain : List (Option α)

namespace ActiveChain

variable {α : Type} [DecidableEq α] (links : BlockLinks α) (chain : ActiveChain α)

def empty : ActiveChain α := ⟨[]⟩

def genesis : Option α := chain.vChain.head?.join

def tip : Option α := chain.vChain.getLast?.join

/-- `operator[]`. -/
def entryAt (nHeight : Int) : Option α :=
  if nHeight < 0 ∨ nHeight ≥ chain.vChain.length then none
  else chain.vChain[nHeight.toNat]?.join

def contains (pindex : α) : Bool := chain.entryAt (links.nHeight pindex) == some pindex

def next (pindex : α) : Option α :=
  if chain.contains links pindex then chain.entryAt (links.nHeight pindex + 1) else none

def height : Int := chain.vChain.length - 1

def resize (size : Nat) (vChain : List (Option α)) : List (Option α) :=
  vChain.take size ++ List.replicate (size - vChain.length) none

/-- The loop of `SetTip`, in so many rounds.  There is no result behind the end of `vChain`. -/
def setTipLoop : Nat → Option α → List (Option α) → Option (List (Option α))
  | _, none, vChain => some vChain
  | 0, some _, _ => none
  | rounds + 1, some pindex, vChain =>
      match vChain[links.nHeight pindex]? with
      | none => none
      | some place =>
          if place = some pindex then some vChain
          else setTipLoop rounds (links.pprev pindex)
            (vChain.set (links.nHeight pindex) (some pindex))

def setTip : Option α → Option (ActiveChain α)
  | none => some ⟨[]⟩
  | some pindex =>
      (setTipLoop links (links.nHeight pindex + 1) (some pindex)
        (resize (links.nHeight pindex + 1) chain.vChain)).map ActiveChain.mk

/-- The loop of `FindFork`, in so many rounds. -/
def findForkLoop : Nat → Option α → Option (Option α)
  | _, none => some none
  | 0, some _ => none
  | rounds + 1, some pindex =>
      if chain.contains links pindex then some (some pindex)
      else findForkLoop rounds (links.pprev pindex)

def findFork (pindex : α) : Option (Option α) := do
  let start ← if (links.nHeight pindex : Int) > chain.height then
      links.getAncestor pindex chain.height
    else some (some pindex)
  chain.findForkLoop links (links.nHeight pindex + 1) start

/-- Calls of `SetTip`, one after the other. -/
def setTips : List (Option α) → ActiveChain α → Option (ActiveChain α)
  | [], chain => some chain
  | pindex :: rest, chain => do
      let chain ← chain.setTip links pindex
      setTips rest chain

/-- At every index lies the ancestor of the tip at that height, and nothing behind the tip. -/
def Follows (tip : Option α) : Prop :=
  ∀ index : Nat, chain.vChain[index]? = tip.bind fun tip =>
    if index ≤ links.nHeight tip then
      some (Forest.ancestor links.pprev links.nHeight tip index) else none

/-! ## `SetTip` -/

variable {links : BlockLinks α} {chain : ActiveChain α} {tip : Option α}

omit [DecidableEq α] in
theorem getElem?_resize {size index : Nat} (vChain : List (Option α)) (within : index < size) :
    (resize size vChain)[index]? = some vChain[index]?.join := by
  unfold resize
  by_cases old : index < vChain.length
  · rw [List.getElem?_append_left (by rw [List.length_take]; omega),
      List.getElem?_take_of_lt within, List.getElem?_eq_getElem old, Option.join_some]
  · rw [List.getElem?_append_right (by rw [List.length_take]; omega), List.length_take,
      List.getElem?_replicate, if_pos (by omega), List.getElem?_eq_none (by omega)]
    rfl

omit [DecidableEq α] in
theorem length_resize (size : Nat) (vChain : List (Option α)) :
    (resize size vChain).length = size := by
  rw [resize, List.length_append, List.length_take, List.length_replicate]
  omega

/-- Above the walk the vector holds the new path, from there down what the old tip left.  Where
the two agree at one height they agree all the way down. -/
theorem setTipLoop_spec (graded : Forest.Graded links.pprev links.nHeight) {new pindex : α}
    {rounds : Nat} {vChain : List (Option α)} (enough : links.nHeight pindex < rounds)
    (onPath : pindex ∈ links.ancestry new) (size : vChain.length = links.nHeight new + 1)
    (above : ∀ index, links.nHeight pindex < index → index ≤ links.nHeight new →
      vChain[index]? = some (Forest.ancestor links.pprev links.nHeight new index))
    (below : ∀ index, index ≤ links.nHeight pindex → vChain[index]? =
      some (tip.bind fun tip => Forest.ancestor links.pprev links.nHeight tip index)) :
    ∃ whole, setTipLoop links rounds (some pindex) vChain = some whole ∧
      Follows links ⟨whole⟩ (some new) := by
  have bound := graded.height_le_of_mem_path onPath
  have finished : ∀ whole : List (Option α), whole.length = links.nHeight new + 1 →
      (∀ index, index ≤ links.nHeight new →
        whole[index]? = some (Forest.ancestor links.pprev links.nHeight new index)) →
      Follows links ⟨whole⟩ (some new) := by
    intro whole length each index
    simp only [Option.bind_some]
    by_cases within : index ≤ links.nHeight new
    · rw [if_pos within, each index within]
    · rw [if_neg within]
      exact List.getElem?_eq_none (by omega)
  induction rounds generalizing pindex vChain with
  | zero => omega
  | succ rounds ih =>
      rw [setTipLoop, below _ (Nat.le_refl _)]
      simp only
      split_ifs with agrees
      · refine ⟨vChain, rfl, finished vChain size ?_⟩
        intro index within
        by_cases higher : links.nHeight pindex < index
        · exact above index higher within
        · obtain ⟨old, isTip, found⟩ := Option.bind_eq_some_iff.mp agrees
          have onOld := (graded.ancestor_eq_some_iff.mp found).1
          rw [below index (by omega), isTip, Option.bind_some,
            ← graded.ancestor_of_mem_path onOld (by omega),
            graded.ancestor_of_mem_path onPath (by omega)]
      · have placed : Forest.ancestor links.pprev links.nHeight new (links.nHeight pindex) =
            some pindex := graded.mem_path_iff_ancestor.mp onPath
        have written : ∀ index, links.nHeight pindex ≤ index → index ≤ links.nHeight new →
            (vChain.set (links.nHeight pindex) (some pindex))[index]? =
              some (Forest.ancestor links.pprev links.nHeight new index) := by
          intro index high within
          by_cases same : links.nHeight pindex = index
          · rw [← same, List.getElem?_set_self (by omega), placed]
          · rw [List.getElem?_set_ne same, above index (by omega) within]
        cases isParent : links.pprev pindex with
        | none =>
            have bottom := graded.root pindex isParent
            refine ⟨_, by rw [setTipLoop], finished _ (by rw [List.length_set, size]) ?_⟩
            intro index within
            exact written index (by omega) within
        | some prev =>
            have rise := graded.step pindex prev isParent
            have higher := graded.mem_path_trans (graded.parent_mem_path isParent) onPath
            apply ih (by omega) higher (by rw [List.length_set, size])
            · intro index high within
              exact written index (by omega) within
            · intro index low
              rw [List.getElem?_set_ne (by omega), below index (by omega)]
            · exact graded.height_le_of_mem_path higher

theorem setTip_spec (graded : Forest.Graded links.pprev links.nHeight)
    (follows : chain.Follows links tip) (pindex : Option α) :
    ∃ after, chain.setTip links pindex = some after ∧ after.Follows links pindex := by
  cases pindex with
  | none => exact ⟨⟨[]⟩, rfl, fun _ => rfl⟩
  | some pindex =>
      obtain ⟨whole, run, follows⟩ := @setTipLoop_spec _ _ links tip graded pindex pindex
        (links.nHeight pindex + 1) (resize (links.nHeight pindex + 1) chain.vChain)
        (Nat.lt_succ_self _) (graded.self_mem_path pindex) (length_resize _ _)
        (fun index high within => by omega) (by
          intro index within
          rw [getElem?_resize _ (by omega), follows index]
          cases tip with
          | none => rfl
          | some old =>
              simp only [Option.bind_some]
              by_cases reached : index ≤ links.nHeight old
              · rw [if_pos reached, Option.join_some]
              · rw [if_neg reached, graded.ancestor_eq_none (by omega)]
                rfl)
      refine ⟨⟨whole⟩, ?_, follows⟩
      rw [setTip, run]
      rfl

theorem follows_setTips (graded : Forest.Graded links.pprev links.nHeight)
    (follows : chain.Follows links tip) (tips : List (Option α)) :
    ∃ after, setTips links tips chain = some after ∧
      after.Follows links (tips.getLast?.getD tip) := by
  induction tips generalizing chain tip with
  | nil => exact ⟨chain, rfl, follows⟩
  | cons pindex rest ih =>
      obtain ⟨next, set, follows⟩ := setTip_spec graded follows pindex
      obtain ⟨after, run, follows⟩ := ih follows
      refine ⟨after, ?_, ?_⟩
      · rw [setTips, set]
        exact run
      · rw [List.getLast?_cons]
        exact follows

/-! ## Queries -/

def OnChain (links : BlockLinks α) (tip : Option α) (pindex : α) : Prop :=
  ∃ top ∈ tip, pindex ∈ links.ancestry top

omit [DecidableEq α] in
theorem Follows.entryAt_natCast (graded : Forest.Graded links.pprev links.nHeight)
    (follows : chain.Follows links tip) (index : Nat) :
    chain.entryAt index =
      tip.bind fun tip => Forest.ancestor links.pprev links.nHeight tip index := by
  have place : chain.vChain[index]?.join =
      tip.bind fun tip => Forest.ancestor links.pprev links.nHeight tip index := by
    rw [follows index]
    cases tip with
    | none => rfl
    | some top =>
        simp only [Option.bind_some]
        by_cases reached : index ≤ links.nHeight top
        · rw [if_pos reached, Option.join_some]
        · rw [if_neg reached, graded.ancestor_eq_none (by omega)]
          rfl
  unfold entryAt
  by_cases within : index < chain.vChain.length
  · rw [if_neg (by omega), Int.toNat_natCast, place]
  · rw [if_pos (by omega), ← place, List.getElem?_eq_none (by omega)]
    rfl

omit [DecidableEq α] in
theorem Follows.entryAt_eq_some_iff (graded : Forest.Graded links.pprev links.nHeight)
    (follows : chain.Follows links tip) {index : Nat} {pindex : α} :
    chain.entryAt index = some pindex ↔ OnChain links tip pindex ∧ links.nHeight pindex = index := by
  rw [follows.entryAt_natCast graded, Option.bind_eq_some_iff]
  constructor
  · intro ⟨top, isTip, found⟩
    obtain ⟨onPath, level⟩ := graded.ancestor_eq_some_iff.mp found
    exact ⟨⟨top, isTip, onPath⟩, level⟩
  · intro ⟨⟨top, isTip, onPath⟩, level⟩
    exact ⟨top, isTip, graded.ancestor_eq_some_iff.mpr ⟨onPath, level⟩⟩

theorem Follows.contains_iff (graded : Forest.Graded links.pprev links.nHeight)
    (follows : chain.Follows links tip) {pindex : α} :
    chain.contains links pindex = true ↔ OnChain links tip pindex := by
  rw [contains, beq_iff_eq, follows.entryAt_eq_some_iff graded]
  exact and_iff_left rfl

omit [DecidableEq α] in
theorem OnChain.of_mem_ancestry (graded : Forest.Graded links.pprev links.nHeight) {pindex place : α}
    (onChain : OnChain links tip pindex) (member : place ∈ links.ancestry pindex) :
    OnChain links tip place := by
  obtain ⟨top, isTip, onPath⟩ := onChain
  exact ⟨top, isTip, graded.mem_path_trans member onPath⟩

theorem Follows.next_eq_some_iff (graded : Forest.Graded links.pprev links.nHeight)
    (follows : chain.Follows links tip) {pindex child : α} :
    chain.next links pindex = some child ↔
      OnChain links tip child ∧ links.pprev child = some pindex := by
  have level : ((links.nHeight pindex : Int) + 1) = ((links.nHeight pindex + 1 : Nat) : Int) := by
    omega
  unfold next
  constructor
  · intro found
    split_ifs at found with isContained
    rw [level, follows.entryAt_eq_some_iff graded] at found
    obtain ⟨⟨top, isTip, onPath⟩, higher⟩ := found
    obtain ⟨old, isOld, below⟩ := (follows.contains_iff graded).mp isContained
    cases isTip.symm.trans isOld
    obtain ⟨prev, isParent⟩ := graded.exists_parent (show 0 < links.nHeight child by omega)
    have rise := graded.step child prev isParent
    have prevOnPath := graded.mem_path_trans (graded.parent_mem_path isParent) onPath
    refine ⟨⟨top, isTip, onPath⟩, ?_⟩
    rw [isParent, graded.eq_of_height_eq prevOnPath below (by omega)]
  · intro ⟨onChain, isParent⟩
    have rise := graded.step child pindex isParent
    have isContained := (follows.contains_iff graded).mpr
      (onChain.of_mem_ancestry graded (graded.parent_mem_path isParent))
    rw [if_pos isContained, level, follows.entryAt_eq_some_iff graded]
    exact ⟨onChain, rise⟩

theorem findForkLoop_eq (graded : Forest.Graded links.pprev links.nHeight) {rounds : Nat} {pindex : α}
    (enough : links.nHeight pindex < rounds) :
    chain.findForkLoop links rounds (some pindex) =
      some ((links.ancestry pindex).find? (chain.contains links)) := by
  induction rounds generalizing pindex with
  | zero => omega
  | succ rounds ih =>
      rw [findForkLoop]
      cases isParent : links.pprev pindex with
      | none =>
          rw [BlockLinks.ancestry, graded.path_of_root isParent]
          by_cases isContained : chain.contains links pindex = true
          · rw [if_pos isContained, List.find?_cons_of_pos isContained]
          · rw [if_neg isContained, List.find?_cons_of_neg isContained]
            cases rounds <;> rfl
      | some prev =>
          have rise := graded.step pindex prev isParent
          rw [BlockLinks.ancestry, graded.path_of_parent isParent]
          by_cases isContained : chain.contains links pindex = true
          · rw [if_pos isContained, List.find?_cons_of_pos isContained]
          · rw [if_neg isContained, List.find?_cons_of_neg isContained, ih (by omega)]
            rfl

/-- The highest entry that lies on the way to the tip and on the way to `pindex`. -/
structure HighestCommon (links : BlockLinks α) (tip : Option α) (pindex fork : α) : Prop where
  ofEntry : fork ∈ links.ancestry pindex
  onChain : OnChain links tip fork
  highest : ∀ other ∈ links.ancestry pindex, OnChain links tip other →
    links.nHeight other ≤ links.nHeight fork

theorem find?_contains_iff (graded : Forest.Graded links.pprev links.nHeight)
    (follows : chain.Follows links tip) {pindex fork : α} :
    (links.ancestry pindex).find? (chain.contains links) = some fork ↔
      HighestCommon links tip pindex fork := by
  constructor
  · intro search
    refine ⟨List.mem_of_find?_eq_some search, ?_, ?_⟩
    · exact (follows.contains_iff graded).mp (List.find?_some search)
    · intro other member onChain
      exact graded.height_le_of_mem_path (graded.mem_path_of_find? search member
        ((follows.contains_iff graded).mpr onChain))
  · intro common
    have hit := (follows.contains_iff graded).mpr common.onChain
    cases search : (links.ancestry pindex).find? (chain.contains links) with
    | none => exact absurd hit (List.find?_eq_none.mp search fork common.ofEntry)
    | some first =>
        have firstOnPath := List.mem_of_find?_eq_some search
        have lower := common.highest first firstOnPath
          ((follows.contains_iff graded).mp (List.find?_some search))
        have higher := graded.height_le_of_mem_path
          (graded.mem_path_of_find? search common.ofEntry hit)
        rw [graded.eq_of_height_eq firstOnPath common.ofEntry (by omega)]

omit [DecidableEq α] in
theorem Follows.height_eq (follows : chain.Follows links tip) :
    chain.height = (tip.map fun tip => (links.nHeight tip : Int)).getD (-1) := by
  unfold height
  cases tip with
  | none =>
      have first := follows 0
      simp only [Option.bind_none, List.getElem?_eq_none_iff] at first
      simp only [Option.map_none, Option.getD_none]
      omega
  | some top =>
      have last := follows (links.nHeight top)
      have past := follows (links.nHeight top + 1)
      simp only [Option.bind_some, Nat.le_refl, if_true] at last
      simp only [Option.bind_some, Nat.not_succ_le_self, if_false,
        List.getElem?_eq_none_iff] at past
      have within := (List.getElem?_eq_some_iff.mp last).1
      simp only [Option.map_some, Option.getD_some]
      omega

end ActiveChain

namespace IndexTree

open ActiveChain

variable {α : Type} [DecidableEq α] {tree : IndexTree α} {chain : ActiveChain α} {tip : Option α}

/-- `FindFork` starts no higher than the tip, where nothing common is missed. -/
theorem Linked.findFork (linked : tree.Linked) (follows : chain.Follows tree.toBlockLinks tip)
    (pindex : α) :
    ∃ fork, chain.findFork tree.toBlockLinks pindex = some fork ∧
      ∀ place, fork = some place ↔ HighestCommon tree.toBlockLinks tip pindex place := by
  have graded := linked.graded
  have top := follows.height_eq
  unfold ActiveChain.findFork
  by_cases above : (tree.nHeight pindex : Int) > chain.height
  · rw [if_pos above, linked.getAncestor]
    cases tip with
    | none =>
        simp only [Option.map_none, Option.getD_none] at top
        refine ⟨none, ?_, ?_⟩
        · rw [if_neg (by omega)]
          rfl
        · intro place
          constructor
          · intro contradicted
            cases contradicted
          · intro common
            obtain ⟨_, isTip, _⟩ := common.onChain
            cases isTip
    | some top' =>
        simp only [Option.map_some, Option.getD_some] at top
        obtain ⟨start, found⟩ := graded.exists_ancestor
          (show tree.nHeight top' ≤ tree.nHeight pindex by omega)
        obtain ⟨onPath, level⟩ := graded.ancestor_eq_some_iff.mp found
        refine ⟨(tree.ancestry start).find? (chain.contains tree.toBlockLinks), ?_, ?_⟩
        · rw [if_pos (by omega), top, Int.toNat_natCast, found]
          exact findForkLoop_eq graded (by omega)
        · intro place
          rw [find?_contains_iff graded follows]
          have lower : ∀ other ∈ tree.ancestry pindex, OnChain tree.toBlockLinks (some top') other →
              other ∈ tree.ancestry start := by
            intro other member onChain
            obtain ⟨_, isTip, below⟩ := onChain
            cases isTip
            have bound := graded.height_le_of_mem_path below
            rw [BlockLinks.ancestry, graded.mem_path_iff_ancestor,
              graded.ancestor_of_mem_path onPath (by omega)]
            exact graded.mem_path_iff_ancestor.mp member
          constructor
          · intro common
            refine ⟨graded.mem_path_trans common.ofEntry onPath, common.onChain, ?_⟩
            intro other member onChain
            exact common.highest other (lower other member onChain) onChain
          · intro common
            refine ⟨lower place common.ofEntry common.onChain, common.onChain, ?_⟩
            intro other member onChain
            exact common.highest other (graded.mem_path_trans member onPath) onChain
  · rw [if_neg above]
    refine ⟨_, findForkLoop_eq graded (Nat.lt_succ_self _), ?_⟩
    intro place
    exact find?_contains_iff graded follows

/-- After any calls of `SetTip` the vector lists the path of the last tip, and the queries are
answered from that path. -/
theorem Linked.setTips_exact (linked : tree.Linked) (tips : List (Option α)) :
    ∃ chain, setTips tree.toBlockLinks tips ActiveChain.empty = some chain ∧
      chain.Follows tree.toBlockLinks tips.getLast?.join ∧ ∀ pindex,
      (chain.contains tree.toBlockLinks pindex = true ↔
        OnChain tree.toBlockLinks tips.getLast?.join pindex) ∧
      (∀ child, chain.next tree.toBlockLinks pindex = some child ↔
        OnChain tree.toBlockLinks tips.getLast?.join child ∧ tree.pprev child = some pindex) ∧
      ∃ fork, chain.findFork tree.toBlockLinks pindex = some fork ∧
        ∀ place, fork = some place ↔
          HighestCommon tree.toBlockLinks tips.getLast?.join pindex place := by
  obtain ⟨chain, run, follows⟩ := @follows_setTips _ _ tree.toBlockLinks ActiveChain.empty none
    linked.graded (fun _ => rfl) tips
  have last : tips.getLast?.getD none = tips.getLast?.join := by
    cases tips.getLast? <;> rfl
  rw [last] at follows
  refine ⟨chain, run, follows, ?_⟩
  intro pindex
  exact ⟨follows.contains_iff linked.graded, fun child => follows.next_eq_some_iff linked.graded,
    linked.findFork follows pindex⟩

theorem setTips_exact_reorganized :
    ∃ tree, ((loadBlockIndexDB emptyIndex []).bind
        (addBlocks [(10, 9), (11, 10), (12, 11), (13, 10)])) = some tree ∧
      ∃ chain, setTips tree.toBlockLinks [some 12, some 13, none, some 11] ActiveChain.empty =
        some chain ∧ chain.Follows tree.toBlockLinks (some 11) := by
  obtain ⟨tree, run, linked⟩ := @exists_linked _ _ emptyIndex [] List.Pairwise.nil
    (by simp [emptyIndex]) [(10, 9), (11, 10), (12, 11), (13, 10)] (by decide)
  obtain ⟨chain, calls, follows, -⟩ :=
    linked.setTips_exact [some 12, some 13, none, some 11]
  exact ⟨tree, run, chain, calls, follows⟩

end IndexTree

end Lycancoin
