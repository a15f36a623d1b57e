import Lycancoin.Chain.ActiveChain
import Lycancoin.Primitives.RoundTrip

namespace Lycancoin

open Lycancoin.Data

namespace ActiveChain

variable (links : BlockLinks Uint256) (chain : ActiveChain Uint256)

/-- An ancestor through the index of the chain where it holds the entry, else through the skip
list. -/
def ancestorFrom (pindex : Uint256) (nHeight : Int) : Option (Option Uint256) :=
  if chain.contains links pindex then some (chain.entryAt nHeight)
  else links.getAncestor pindex nHeight

/-- `nStep`, which must stay in an `int`, when so many entries are listed. -/
def nextStep (size : Nat) (nStep : Int) : Option Int :=
  if 10 < size then if InInt32 (nStep * 2) then some (nStep * 2) else none
  else some nStep

/-- The loop of `GetLocator`, in so many rounds, over entries that are named by their hashes. -/
def getLocatorLoop : Nat → Option Uint256 → Int → List Uint256 → Option (List Uint256)
  | _, none, _, vHave => some vHave
  | 0, some _, _, _ => none
  | rounds + 1, some pindex, nStep, vHave =>
      let vHave := vHave ++ [pindex]
      if links.nHeight pindex = 0 then some vHave
      else do
        let nHeight := max ((links.nHeight pindex : Int) - nStep) 0
        let pindex ← chain.ancestorFrom links pindex nHeight
        let nStep ← nextStep vHave.length nStep
        getLocatorLoop rounds pindex nStep vHave

def getLocator (pindex : Option Uint256) : Option (List Uint256) :=
  match pindex.or chain.tip with
  | none => some []
  | some pindex => chain.getLocatorLoop links (links.nHeight pindex + 1) (some pindex) 1 []

end ActiveChain

def findForkInGlobalIndex (tree : IndexTree Uint256) (chain : ActiveChain Uint256)
    (vHave : List Uint256) : Option Uint256 :=
  (vHave.find? fun hash =>
    decide (hash ∈ tree.entries) && chain.contains tree.toBlockLinks hash).or chain.genesis

namespace Locator

/-- How far the entry at an index of the locator lies below the first one. -/
def offset (index : Nat) : Nat := if index ≤ 10 then index else 9 + 2 ^ (index - 10)

/-- `nStep` after so many entries. -/
def step (index : Nat) : Nat := if index ≤ 10 then 1 else 2 ^ (index - 10)

theorem offset_succ (index : Nat) : offset (index + 1) = offset index + step index := by
  unfold offset step
  by_cases small : index ≤ 9
  · rw [if_pos (by omega), if_pos (by omega), if_pos (by omega)]
  · by_cases ten : index = 10
    · subst ten
      decide
    · have double : 2 ^ (index + 1 - 10) = 2 * 2 ^ (index - 10) := by
        rw [show index + 1 - 10 = index - 10 + 1 by omega, Nat.pow_succ, Nat.mul_comm]
      rw [if_neg (by omega), if_neg (by omega), if_neg (by omega), double]
      omega

theorem step_succ (index : Nat) :
    step (index + 1) = if 10 < index + 1 then step index * 2 else step index := by
  unfold step
  by_cases small : index ≤ 9
  · rw [if_pos (by omega), if_neg (by omega), if_pos (by omega)]
  · by_cases ten : index = 10
    · subst ten
      decide
    · rw [if_neg (by omega), if_pos (by omega), if_neg (by omega),
        show index + 1 - 10 = index - 10 + 1 by omega, Nat.pow_succ]

theorem step_pos (index : Nat) : 0 < step index := by
  unfold step
  split
  · exact Nat.one_pos
  · exact Nat.two_pow_pos _

/-- A step goes no further than the walk came so far. -/
theorem step_le_offset {index : Nat} (positive : 0 < index) : step index ≤ offset index := by
  unfold step offset
  split <;> omega

theorem step_lt {index bound : Nat} (below : offset index < bound) : step index < bound + 1 := by
  unfold step offset at *
  split_ifs at * <;> omega

theorem offset_strictMono : StrictMono offset := by
  apply strictMono_nat_of_lt_succ
  intro index
  have positive := step_pos index
  rw [offset_succ]
  omega

theorem offset_of_le {index : Nat} (small : index ≤ 11) : offset index = index := by
  interval_cases index <;> decide

/-- The number of entries before genesis is logarithmic. -/
theorem index_le_log {index height : Nat} (below : offset index < height) :
    index ≤ 11 + Nat.log 2 (height + 1) := by
  unfold offset at below
  split_ifs at below with small
  · omega
  · have power : 2 ^ (index - 10) ≤ height + 1 := by omega
    have bound := Nat.le_log_of_pow_le (by decide) power
    omega

theorem exists_first {distance count : Nat} (reached : distance ≤ offset count) :
    ∃ index ≤ count, distance ≤ offset index ∧ (∀ before < index, offset before < distance) ∧
      (distance ≤ 11 → offset index = distance) ∧ (11 < distance → offset index < 2 * distance) := by
  have exists_index : ∃ index, distance ≤ offset index := ⟨count, reached⟩
  refine ⟨Nat.find exists_index, Nat.find_min' exists_index reached, Nat.find_spec exists_index,
    fun before early => Nat.not_le.mp (Nat.find_min exists_index early), ?_, ?_⟩
  · intro near
    have own := offset_of_le near
    have first := Nat.find_min' exists_index own.ge
    have bound := offset_strictMono.monotone first
    have reaches := Nat.find_spec exists_index
    omega
  · intro far
    have reaches := Nat.find_spec exists_index
    generalize found : Nat.find exists_index = index at reaches
    have late : 11 < index := by
      by_contra early
      have own := offset_of_le (Nat.not_lt.mp early)
      omega
    have before := Nat.not_le.mp
      (Nat.find_min exists_index (show index - 1 < Nat.find exists_index by omega))
    have next := offset_succ (index - 1)
    have short := step_le_offset (show 0 < index - 1 by omega)
    rw [show index - 1 + 1 = index by omega] at next
    omega

end Locator

namespace IndexTree

open ActiveChain Locator

variable {tree : IndexTree Uint256} {chain : ActiveChain Uint256} {tip : Option Uint256}
  {pindex : Uint256} {vHave : List Uint256}

/-- A locator lists the ancestors at the offsets, up to the first offset that reaches genesis. -/
structure IsLocator (tree : IndexTree Uint256) (pindex : Uint256) (vHave : List Uint256)
    (count : Nat) : Prop where
  length : vHave.length = count + 1
  entries : ∀ index ≤ count, vHave[index]? =
    Forest.ancestor tree.pprev tree.nHeight pindex (tree.nHeight pindex - offset index)
  reached : tree.nHeight pindex ≤ offset count
  before : ∀ index < count, offset index < tree.nHeight pindex

/-- The walk takes the vector or the skip list, and finds the same entry. -/
theorem Linked.ancestorFrom_eq (linked : tree.Linked) (follows : chain.Follows tree.toBlockLinks tip)
    {walk : Uint256} {level : Nat} (within : level ≤ tree.nHeight walk) :
    chain.ancestorFrom tree.toBlockLinks walk level =
      some (Forest.ancestor tree.pprev tree.nHeight walk level) := by
  unfold ancestorFrom
  by_cases isContained : chain.contains tree.toBlockLinks walk = true
  · obtain ⟨top, isTip, onPath⟩ := (follows.contains_iff linked.graded).mp isContained
    cases isTip
    rw [if_pos isContained, follows.entryAt_natCast linked.graded, Option.bind_some,
      linked.graded.ancestor_of_mem_path onPath within]
  · rw [if_neg isContained, linked.getAncestor, if_pos (by omega), Int.toNat_natCast]

theorem Linked.getLocatorLoop_spec (linked : tree.Linked)
    (follows : chain.Follows tree.toBlockLinks tip) (low : tree.nHeight pindex < 2 ^ 30)
    {rounds count : Nat} {walk : Uint256} (enough : tree.nHeight walk < rounds)
    (place : Forest.ancestor tree.pprev tree.nHeight pindex
      (tree.nHeight pindex - offset count) = some walk)
    (length : vHave.length = count)
    (entries : ∀ index < count, vHave[index]? =
      Forest.ancestor tree.pprev tree.nHeight pindex (tree.nHeight pindex - offset index))
    (before : ∀ index < count, offset index < tree.nHeight pindex) :
    ∃ whole last, chain.getLocatorLoop tree.toBlockLinks rounds (some walk) (step count) vHave =
      some whole ∧ tree.IsLocator pindex whole last := by
  induction rounds generalizing count walk vHave with
  | zero => omega
  | succ rounds ih =>
      obtain ⟨onPath, level⟩ := linked.graded.ancestor_eq_some_iff.mp place
      have pushed : ∀ index ≤ count, (vHave ++ [walk])[index]? =
          Forest.ancestor tree.pprev tree.nHeight pindex (tree.nHeight pindex - offset index) := by
        intro index within
        by_cases last : index = count
        · rw [last, place, ← length]
          simp
        · rw [List.getElem?_append_left (by omega), entries index (by omega)]
      have size : (vHave ++ [walk]).length = count + 1 := by simp [length]
      rw [getLocatorLoop]
      simp only [size]
      by_cases bottom : tree.nHeight walk = 0
      · rw [if_pos bottom]
        exact ⟨_, count, rfl, size, pushed, by omega, before⟩
      · have next : max ((tree.nHeight walk : Int) - step count) 0 =
            ((tree.nHeight pindex - offset (count + 1) : Nat) : Int) := by
          rw [offset_succ]
          omega
        have positive := step_pos count
        have below : offset count < tree.nHeight pindex := by omega
        have fits := step_lt below
        have growth := offset_succ count
        obtain ⟨higher, found⟩ := linked.graded.exists_ancestor
          (show tree.nHeight pindex - offset (count + 1) ≤ tree.nHeight pindex by omega)
        obtain ⟨_, nextLevel⟩ := linked.graded.ancestor_eq_some_iff.mp found
        have walked := linked.ancestorFrom_eq follows
          (show tree.nHeight pindex - offset (count + 1) ≤ tree.nHeight walk by omega)
        rw [linked.graded.ancestor_of_mem_path onPath (by omega), found] at walked
        have doubled : nextStep (count + 1) (step count) = some (step (count + 1) : Int) := by
          have range : InInt32 ((step count : Int) * 2) := by
            unfold InInt32
            omega
          rw [nextStep, step_succ, if_pos range]
          split <;> simp
        rw [if_neg bottom, next, walked, doubled]
        apply ih (by omega) found size
        · intro index within
          exact pushed index (by omega)
        · intro index within
          by_cases last : index = count
          · rw [last]
            exact below
          · exact before index (by omega)

theorem Linked.getLocator_spec (linked : tree.Linked)
    (follows : chain.Follows tree.toBlockLinks tip) (low : tree.nHeight pindex < 2 ^ 30) :
    ∃ vHave count, chain.getLocator tree.toBlockLinks (some pindex) = some vHave ∧
      tree.IsLocator pindex vHave count := by
  have start : Forest.ancestor tree.pprev tree.nHeight pindex
      (tree.nHeight pindex - offset 0) = some pindex := linked.graded.ancestor_self
  obtain ⟨vHave, count, run, isLocator⟩ := linked.getLocatorLoop_spec follows low
    (Nat.lt_succ_self (tree.nHeight pindex)) start (List.length_nil (α := Uint256))
    (fun index within => absurd within (Nat.not_lt_zero index))
    (fun index within => absurd within (Nat.not_lt_zero index))
  exact ⟨vHave, count, run, isLocator⟩

/-! ## What the locator holds -/

namespace IsLocator

variable {count : Nat}

theorem exists_entry (isLocator : tree.IsLocator pindex vHave count)
    (graded : Forest.Graded tree.pprev tree.nHeight) {index : Nat} (within : index ≤ count) :
    ∃ place ∈ tree.ancestry pindex, vHave[index]? = some place ∧
      tree.nHeight place = tree.nHeight pindex - offset index := by
  obtain ⟨place, found⟩ := graded.exists_ancestor
    (show tree.nHeight pindex - offset index ≤ tree.nHeight pindex by omega)
  obtain ⟨onPath, level⟩ := graded.ancestor_eq_some_iff.mp found
  exact ⟨place, onPath, (isLocator.entries index within).trans found, level⟩

theorem mem_ancestry (isLocator : tree.IsLocator pindex vHave count)
    (graded : Forest.Graded tree.pprev tree.nHeight) {place : Uint256} (member : place ∈ vHave) :
    place ∈ tree.ancestry pindex := by
  obtain ⟨index, within, rfl⟩ := List.getElem_of_mem member
  obtain ⟨place, onPath, found, -⟩ := isLocator.exists_entry graded
    (show index ≤ count by have size := isLocator.length; omega)
  rw [List.getElem?_eq_getElem within] at found
  rw [Option.some.inj found]
  exact onPath

theorem heights_decrease (isLocator : tree.IsLocator pindex vHave count)
    (graded : Forest.Graded tree.pprev tree.nHeight) :
    vHave.Pairwise fun above below => tree.nHeight below < tree.nHeight above := by
  rw [List.pairwise_iff_getElem]
  intro first second firstWithin secondWithin earlier
  have size := isLocator.length
  obtain ⟨one, -, found, level⟩ := isLocator.exists_entry graded (show first ≤ count by omega)
  obtain ⟨two, -, found', level'⟩ := isLocator.exists_entry graded (show second ≤ count by omega)
  rw [List.getElem?_eq_getElem firstWithin] at found
  rw [List.getElem?_eq_getElem secondWithin] at found'
  have rise := offset_strictMono earlier
  have high := isLocator.before first (by omega)
  rw [Option.some.inj found, Option.some.inj found', level, level']
  omega

theorem head (isLocator : tree.IsLocator pindex vHave count)
    (graded : Forest.Graded tree.pprev tree.nHeight) : vHave.head? = some pindex := by
  rw [List.head?_eq_getElem?, isLocator.entries 0 (Nat.zero_le _)]
  exact graded.ancestor_self

theorem last (isLocator : tree.IsLocator pindex vHave count)
    (graded : Forest.Graded tree.pprev tree.nHeight) :
    ∃ genesis ∈ tree.ancestry pindex, tree.nHeight genesis = 0 ∧ vHave.getLast? = some genesis := by
  obtain ⟨genesis, onPath, found, level⟩ := isLocator.exists_entry graded (Nat.le_refl count)
  have reached := isLocator.reached
  refine ⟨genesis, onPath, by omega, ?_⟩
  rw [List.getLast?_eq_getElem?, isLocator.length]
  exact found

theorem length_le (isLocator : tree.IsLocator pindex vHave count) :
    vHave.length ≤ 13 + Nat.log 2 (tree.nHeight pindex + 1) := by
  rw [isLocator.length]
  by_cases none : count = 0
  · omega
  · have bound := index_le_log (isLocator.before (count - 1) (by omega))
    omega

end IsLocator

/-! ## Another node -/

variable {other : IndexTree Uint256} {chain' : ActiveChain Uint256} {tip' : Option Uint256}

/-- A hash stands for the same header at both nodes, and the header names the predecessor. -/
def Agree (tree other : IndexTree Uint256) : Prop :=
  ∀ hash ∈ tree.entries, hash ∈ other.entries → other.pprev hash = tree.pprev hash

theorem Agree.ancestry_eq (agree : tree.Agree other) (linked : tree.Linked) (linked' : other.Linked)
    {hash : Uint256} (member : hash ∈ tree.entries) (member' : hash ∈ other.entries) :
    other.ancestry hash = tree.ancestry hash ∧ other.nHeight hash = tree.nHeight hash := by
  induction hash using linked.graded.induction with
  | root hash isRoot =>
      have isRoot' := (agree hash member member').trans isRoot
      rw [linked.graded.root hash isRoot, linked'.graded.root hash isRoot', BlockLinks.ancestry,
        BlockLinks.ancestry, linked.graded.path_of_root isRoot, linked'.graded.path_of_root isRoot']
      exact ⟨rfl, rfl⟩
  | step hash prev isParent ih =>
      have isParent' := (agree hash member member').trans isParent
      obtain ⟨paths, heights⟩ := ih (linked.closed hash member prev isParent)
        (linked'.closed hash member' prev isParent')
      rw [linked.graded.step hash prev isParent, linked'.graded.step hash prev isParent', heights,
        BlockLinks.ancestry, BlockLinks.ancestry, linked.graded.path_of_parent isParent,
        linked'.graded.path_of_parent isParent']
      exact ⟨congrArg (List.cons hash) paths, rfl⟩

/-- An entry of one node and its ancestors are on the active chain of the other. -/
structure Meeting (tree other : IndexTree Uint256) (tip' : Option Uint256) (pindex : Uint256) :
    Prop where
  linked : tree.Linked
  linked' : other.Linked
  agree : tree.Agree other
  member : pindex ∈ tree.entries
  tip : ∀ top ∈ tip', top ∈ other.entries
  genesis : ∃ genesis ∈ tree.ancestry pindex, tree.nHeight genesis = 0 ∧
    OnChain other.toBlockLinks tip' genesis

structure HighestShared (tree other : IndexTree Uint256) (tip' : Option Uint256)
    (pindex top : Uint256) : Prop where
  ofEntry : top ∈ tree.ancestry pindex
  onChain : OnChain other.toBlockLinks tip' top
  highest : ∀ place ∈ tree.ancestry pindex, OnChain other.toBlockLinks tip' place →
    tree.nHeight place ≤ tree.nHeight top

namespace Meeting

theorem mem_entries_of_onChain (meeting : Meeting tree other tip' pindex) {place : Uint256}
    (onChain : OnChain other.toBlockLinks tip' place) : place ∈ other.entries := by
  obtain ⟨top, isTip, onPath⟩ := onChain
  exact mem_entries_of_ancestry meeting.linked'.graded meeting.linked'.closed
    (meeting.tip top isTip) onPath

theorem known_iff (meeting : Meeting tree other tip' pindex)
    (follows' : chain'.Follows other.toBlockLinks tip') {hash : Uint256} :
    (decide (hash ∈ other.entries) && chain'.contains other.toBlockLinks hash) = true ↔
      OnChain other.toBlockLinks tip' hash := by
  rw [Bool.and_eq_true, decide_eq_true_eq, follows'.contains_iff meeting.linked'.graded]
  exact and_iff_right_of_imp meeting.mem_entries_of_onChain

theorem onChain_of_mem_ancestry (meeting : Meeting tree other tip' pindex) {low high : Uint256}
    (ofEntry : high ∈ tree.ancestry pindex)
    (onChain : OnChain other.toBlockLinks tip' high) (member : low ∈ tree.ancestry high) :
    OnChain other.toBlockLinks tip' low := by
  have known := mem_entries_of_ancestry meeting.linked.graded meeting.linked.closed meeting.member
    ofEntry
  have paths := (meeting.agree.ancestry_eq meeting.linked meeting.linked' known
    (meeting.mem_entries_of_onChain onChain)).1
  rw [← paths] at member
  exact onChain.of_mem_ancestry meeting.linked'.graded member

theorem exists_highestShared (meeting : Meeting tree other tip' pindex)
    (follows' : chain'.Follows other.toBlockLinks tip') :
    ∃ top, HighestShared tree other tip' pindex top := by
  obtain ⟨genesis, onPath, -, onChain⟩ := meeting.genesis
  cases search : (tree.ancestry pindex).find? fun hash =>
      decide (hash ∈ other.entries) && chain'.contains other.toBlockLinks hash with
  | none =>
      have missed := List.find?_eq_none.mp search genesis onPath
      exact absurd ((meeting.known_iff follows').mpr onChain) missed
  | some top =>
      refine ⟨top, List.mem_of_find?_eq_some search, ?_, ?_⟩
      · exact (meeting.known_iff follows').mp
          (List.find?_some (p := fun hash => decide (hash ∈ other.entries) &&
            chain'.contains other.toBlockLinks hash) search)
      · intro place member shared
        exact meeting.linked.graded.height_le_of_mem_path
          (meeting.linked.graded.mem_path_of_find? search member
            ((meeting.known_iff follows').mpr shared))

/-- The first known entry of the locator is the first one at or below the highest common one. -/
theorem findForkInGlobalIndex_spec (meeting : Meeting tree other tip' pindex)
    (follows' : chain'.Follows other.toBlockLinks tip') {count : Nat}
    (isLocator : tree.IsLocator pindex vHave count) {top : Uint256}
    (shared : HighestShared tree other tip' pindex top) :
    ∃ fork ∈ tree.ancestry pindex, findForkInGlobalIndex other chain' vHave = some fork ∧
      OnChain other.toBlockLinks tip' fork ∧
      (tree.nHeight pindex - tree.nHeight top ≤ 11 →
        tree.nHeight pindex - tree.nHeight fork = tree.nHeight pindex - tree.nHeight top) ∧
      (11 < tree.nHeight pindex - tree.nHeight top →
        tree.nHeight pindex - tree.nHeight fork <
          2 * (tree.nHeight pindex - tree.nHeight top)) := by
  have graded := meeting.linked.graded
  have bound := graded.height_le_of_mem_path shared.ofEntry
  obtain ⟨index, within, reaches, before, near, far⟩ := exists_first
    (show tree.nHeight pindex - tree.nHeight top ≤ offset count by
      have reached := isLocator.reached
      omega)
  obtain ⟨fork, onPath, found, level⟩ := isLocator.exists_entry graded within
  have below : fork ∈ tree.ancestry top := by
    rw [BlockLinks.ancestry, graded.mem_path_iff_ancestor,
      graded.ancestor_of_mem_path shared.ofEntry (by omega)]
    exact graded.mem_path_iff_ancestor.mp onPath
  have onChain := meeting.onChain_of_mem_ancestry shared.ofEntry shared.onChain below
  have search : (vHave.find? fun hash =>
      decide (hash ∈ other.entries) && chain'.contains other.toBlockLinks hash) = some fork := by
    obtain ⟨inside, place⟩ := List.getElem?_eq_some_iff.mp found
    rw [List.find?_eq_some_iff_getElem]
    refine ⟨(meeting.known_iff follows').mpr onChain, index, inside, place, ?_⟩
    intro earlier isEarlier
    obtain ⟨high, highOnPath, highFound, highLevel⟩ := isLocator.exists_entry graded
      (show earlier ≤ count by omega)
    obtain ⟨_, highPlace⟩ := List.getElem?_eq_some_iff.mp highFound
    have higher := before earlier isEarlier
    rw [highPlace, Bool.not_eq_true', ← Bool.not_eq_true, meeting.known_iff follows']
    intro highOnChain
    have contradicted := shared.highest high highOnPath highOnChain
    omega
  refine ⟨fork, onPath, ?_, onChain, ?_, ?_⟩
  · rw [findForkInGlobalIndex, search]
    rfl
  · intro close
    have exact := near close
    omega
  · intro distant
    have short := far distant
    omega

end Meeting

/-- A locator lists ancestors down to genesis, of which there are few; and a node that shares
genesis finds a fork that is not much lower than the highest common block. -/
theorem Linked.getLocator_exact (linked : tree.Linked)
    (follows : chain.Follows tree.toBlockLinks tip) (low : tree.nHeight pindex < 2 ^ 30) :
    ∃ vHave, chain.getLocator tree.toBlockLinks (some pindex) = some vHave ∧
      (∀ place ∈ vHave, place ∈ tree.ancestry pindex) ∧
      (vHave.Pairwise fun above below => tree.nHeight below < tree.nHeight above) ∧
      vHave.head? = some pindex ∧
      (∃ genesis ∈ tree.ancestry pindex, tree.nHeight genesis = 0 ∧
        vHave.getLast? = some genesis) ∧
      vHave.length ≤ 13 + Nat.log 2 (tree.nHeight pindex + 1) ∧
      ∀ (other : IndexTree Uint256) (chain' : ActiveChain Uint256) (tip' : Option Uint256),
        Meeting tree other tip' pindex → chain'.Follows other.toBlockLinks tip' →
        ∃ top, HighestShared tree other tip' pindex top ∧
          ∃ fork ∈ tree.ancestry pindex, findForkInGlobalIndex other chain' vHave = some fork ∧
            OnChain other.toBlockLinks tip' fork ∧
            (tree.nHeight pindex - tree.nHeight top ≤ 11 →
              tree.nHeight pindex - tree.nHeight fork =
                tree.nHeight pindex - tree.nHeight top) ∧
            (11 < tree.nHeight pindex - tree.nHeight top →
              tree.nHeight pindex - tree.nHeight fork <
                2 * (tree.nHeight pindex - tree.nHeight top)) := by
  obtain ⟨vHave, count, run, isLocator⟩ := linked.getLocator_spec follows low
  refine ⟨vHave, run, fun place => isLocator.mem_ancestry linked.graded,
    isLocator.heights_decrease linked.graded, isLocator.head linked.graded,
    isLocator.last linked.graded, isLocator.length_le, ?_⟩
  intro other chain' tip' meeting follows'
  obtain ⟨top, shared⟩ := meeting.exists_highestShared follows'
  exact ⟨top, shared, meeting.findForkInGlobalIndex_spec follows' isLocator shared⟩

/-- Genesis with two blocks on top of it. -/
def forkedTree : IndexTree Uint256 where
  pprev := fun hash => if hash = 11 ∨ hash = 12 then some 10 else none
  pskip := fun hash => if hash = 11 ∨ hash = 12 then some 10 else none
  nHeight := fun hash => if hash = 11 ∨ hash = 12 then 1 else 0
  entries := [12, 11, 10]

theorem forkedTree_linked : forkedTree.Linked where
  graded := by
    constructor
    · intro hash isRoot
      simp only [forkedTree] at isRoot ⊢
      split_ifs at isRoot ⊢
      rfl
    · intro hash prev isParent
      simp only [forkedTree] at isParent ⊢
      split_ifs at isParent ⊢ <;> cases isParent <;> simp_all +decide
  closed := by
    intro hash _ prev isParent
    simp only [forkedTree] at isParent
    split_ifs at isParent
    cases isParent
    decide
  absent := by
    intro hash missing
    simp only [forkedTree, List.mem_cons, List.not_mem_nil, or_false, not_or] at missing ⊢
    simp [missing]
  skips := by
    intro hash prev isParent
    have cases' : hash = 11 ∨ hash = 12 := by
      by_contra neither
      simp [forkedTree, neither] at isParent
    cases cases' with
    | inl same => rw [same]; decide
    | inr same => rw [same]; decide

theorem getLocator_exact_forked :
    ∃ chain vHave, setTips forkedTree.toBlockLinks [some 11] ActiveChain.empty = some chain ∧
      chain.getLocator forkedTree.toBlockLinks (some 12) = some vHave ∧
      vHave.head? = some 12 ∧ ∃ fork, findForkInGlobalIndex forkedTree chain vHave = some fork := by
  obtain ⟨chain, run, follows, -⟩ := forkedTree_linked.setTips_exact [some 11]
  obtain ⟨vHave, located, -, -, head, -, -, others⟩ :=
    @Linked.getLocator_exact _ _ _ 12 forkedTree_linked follows (by decide)
  have meeting : Meeting forkedTree forkedTree (some 11) 12 := by
    refine ⟨forkedTree_linked, forkedTree_linked, fun _ _ _ => rfl, by decide, ?_, ?_⟩
    · intro top isTip
      cases isTip
      decide
    · exact ⟨10, by decide, by decide, 11, rfl, by decide⟩
  obtain ⟨_, _, fork, _, found, -⟩ := others forkedTree chain (some 11) meeting follows
  exact ⟨chain, vHave, run, located, head, fork, found⟩

end IndexTree

end Lycancoin
