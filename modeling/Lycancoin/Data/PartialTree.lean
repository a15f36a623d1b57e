import Lycancoin.Data.HashTree

namespace Lycancoin.Data

/-! Hash trees of which only some parts are known.

A tree of a height covers at most `2 ^ height` leaves.  Its left half is full,
and a right half without leaves counts as a copy of the left one.  In a partial
tree a part of no interest is replaced by its hash.  Such a tree is written as
one bit for each of its nodes and one hash for each of its ends.
-/

inductive PartialTree (α : Type)
  | leaf (hash : α) (matched : Bool)
  | pruned (hash : α)
  | single (child : PartialTree α)
  | fork (left right : PartialTree α)
deriving DecidableEq, Repr

namespace HashTree

variable {α : Type} {node : α → α → α}

def rootOf [Inhabited α] (node : α → α → α) : Nat → List α → α
  | 0, leaves => leaves.headD default
  | height + 1, leaves =>
      let left := rootOf node height (leaves.take (2 ^ height))
      if leaves.length ≤ 2 ^ height then node left left
      else node left (rootOf node height (leaves.drop (2 ^ height)))

def treePairs [Inhabited α] (node : α → α → α) : Nat → List α → List (α × α)
  | 0, _ => []
  | height + 1, leaves =>
      let left := rootOf node height (leaves.take (2 ^ height))
      if leaves.length ≤ 2 ^ height then
        (left, left) :: treePairs node height (leaves.take (2 ^ height))
      else
        (left, rootOf node height (leaves.drop (2 ^ height))) ::
          (treePairs node height (leaves.take (2 ^ height)) ++
            treePairs node height (leaves.drop (2 ^ height)))

section Levels

theorem pairs_split (nodes : List α) (n : Nat) (enough : 2 * n ≤ nodes.length) :
    pairs nodes = pairs (nodes.take (2 * n)) ++ pairs (nodes.drop (2 * n)) := by
  induction nodes using pairs.induct generalizing n with
  | case1 => simp [pairs]
  | case2 last =>
      have zero : n = 0 := by
        simp only [List.length_cons, List.length_nil] at enough
        omega
      simp [zero, pairs]
  | case3 left right rest ih =>
      cases n with
      | zero => simp [pairs]
      | succ n =>
          have double : 2 * (n + 1) = 2 * n + 1 + 1 := by omega
          simp only [List.length_cons] at enough
          rw [double, List.take_succ_cons, List.take_succ_cons, List.drop_succ_cons,
            List.drop_succ_cons, pairs, pairs, ih n (by omega), List.cons_append]

theorem levelUp_drop (nodes : List α) (n : Nat) (enough : 2 * n ≤ nodes.length) :
    levelUp node (nodes.drop (2 * n)) = (levelUp node nodes).drop n := by
  have front : (levelUp node (nodes.take (2 * n))).length = n := by
    rw [length_levelUp, List.length_take]
    omega
  have split : levelUp node nodes =
      levelUp node (nodes.take (2 * n)) ++ levelUp node (nodes.drop (2 * n)) := by
    rw [levelUp, pairs_split nodes n enough, List.map_append]
    rfl
  rw [split, List.drop_left' front]

theorem length_levelUp_le {nodes : List α} {n : Nat} :
    (levelUp node nodes).length ≤ n ↔ nodes.length ≤ 2 * n := by
  rw [length_levelUp]
  omega

variable [Inhabited α] {leaves : List α} {height : Nat}

theorem rootOf_small (small : leaves.length ≤ 2 ^ height) :
    rootOf node (height + 1) leaves = node (rootOf node height leaves) (rootOf node height leaves) := by
  rw [rootOf, List.take_of_length_le small, if_pos small]

theorem rootOf_large (large : ¬leaves.length ≤ 2 ^ height) :
    rootOf node (height + 1) leaves = node (rootOf node height (leaves.take (2 ^ height)))
      (rootOf node height (leaves.drop (2 ^ height))) := by
  rw [rootOf, if_neg large]

theorem treePairs_small (small : leaves.length ≤ 2 ^ height) :
    treePairs node (height + 1) leaves =
      (rootOf node height leaves, rootOf node height leaves) :: treePairs node height leaves := by
  rw [treePairs, List.take_of_length_le small, if_pos small]

theorem treePairs_large (large : ¬leaves.length ≤ 2 ^ height) :
    treePairs node (height + 1) leaves =
      (rootOf node height (leaves.take (2 ^ height)),
          rootOf node height (leaves.drop (2 ^ height))) ::
        (treePairs node height (leaves.take (2 ^ height)) ++
          treePairs node height (leaves.drop (2 ^ height))) := by
  rw [treePairs, if_neg large]

/-- The lowest level can be hashed first. -/
theorem rootOf_levelUp (nonempty : leaves ≠ []) (bound : leaves.length ≤ 2 ^ (height + 1)) :
    rootOf node (height + 1) leaves = rootOf node height (levelUp node leaves) ∧
      ∀ pair ∈ treePairs node (height + 1) leaves,
        pair ∈ pairs leaves ∨ pair ∈ treePairs node height (levelUp node leaves) := by
  induction height generalizing leaves with
  | zero =>
      cases leaves with
      | nil => exact absurd rfl nonempty
      | cons first rest =>
          cases rest with
          | nil => simp [rootOf, treePairs, levelUp, pairs, List.take]
          | cons second rest =>
              have empty : rest = [] := by simpa using bound
              subst empty
              simp [rootOf, treePairs, levelUp, pairs, List.take]
  | succ height ih =>
      have double : 2 ^ (height + 1) = 2 * 2 ^ height := by rw [pow_succ, Nat.mul_comm]
      by_cases small : leaves.length ≤ 2 ^ (height + 1)
      · have smallUp : (levelUp node leaves).length ≤ 2 ^ height := by
          rw [length_levelUp_le, ← double]
          exact small
        obtain ⟨root, hashed⟩ := ih nonempty small
        rw [rootOf_small small, rootOf_small smallUp, treePairs_small small,
          treePairs_small smallUp, root]
        refine ⟨rfl, fun pair member => ?_⟩
        rcases List.mem_cons.mp member with rfl | below
        · exact Or.inr List.mem_cons_self
        · exact (hashed pair below).imp_right (List.mem_cons_of_mem _)
      · have largeUp : ¬(levelUp node leaves).length ≤ 2 ^ height := by
          rw [length_levelUp_le, ← double]
          exact small
        have enough : 2 * 2 ^ height ≤ leaves.length := by omega
        have takeUp : levelUp node (leaves.take (2 ^ (height + 1))) =
            (levelUp node leaves).take (2 ^ height) := by
          rw [double, levelUp_take leaves _ enough]
        have dropUp : levelUp node (leaves.drop (2 ^ (height + 1))) =
            (levelUp node leaves).drop (2 ^ height) := by
          rw [double, levelUp_drop leaves _ enough]
        have power : 0 < 2 ^ (height + 1) := Nat.two_pow_pos _
        obtain ⟨leftRoot, leftHashed⟩ := @ih (leaves.take (2 ^ (height + 1)))
          (List.ne_nil_of_length_pos (by rw [List.length_take]; omega))
          (List.length_take_le _ _)
        obtain ⟨rightRoot, rightHashed⟩ := @ih (leaves.drop (2 ^ (height + 1)))
          (List.ne_nil_of_length_pos (by rw [List.length_drop]; omega))
          (by rw [List.length_drop]; rw [pow_succ] at bound; omega)
        rw [takeUp] at leftRoot leftHashed
        rw [dropUp] at rightRoot rightHashed
        rw [rootOf_large small, rootOf_large largeUp, treePairs_large small,
          treePairs_large largeUp, leftRoot, rightRoot]
        refine ⟨rfl, fun pair member => ?_⟩
        have split : pairs leaves =
            pairs (leaves.take (2 ^ (height + 1))) ++ pairs (leaves.drop (2 ^ (height + 1))) := by
          rw [double]
          exact pairs_split leaves _ enough
        rw [split]
        rcases List.mem_cons.mp member with rfl | below
        · exact Or.inr List.mem_cons_self
        · rcases List.mem_append.mp below with inLeft | inRight
          · rcases leftHashed pair inLeft with low | high
            · exact Or.inl (List.mem_append_left _ low)
            · exact Or.inr (List.mem_cons_of_mem _ (List.mem_append_left _ high))
          · rcases rightHashed pair inRight with low | high
            · exact Or.inl (List.mem_append_right _ low)
            · exact Or.inr (List.mem_cons_of_mem _ (List.mem_append_right _ high))

/-- The tree of the least height that covers the leaves ends in the root of the
levels, and hashes what they hash. -/
theorem rootOf_level (nonempty : leaves ≠ []) (bound : leaves.length ≤ 2 ^ height)
    (least : height = 0 ∨ 2 ^ (height - 1) < leaves.length) :
    Level node leaves [rootOf node height leaves] ∧
      ∀ pair ∈ treePairs node height leaves, Hashed node leaves pair := by
  induction height generalizing leaves with
  | zero =>
      have positive := List.length_pos_iff.mpr nonempty
      obtain ⟨only, rfl⟩ := List.length_eq_one_iff.mp (by omega : leaves.length = 1)
      exact ⟨.base, fun pair member => by simp [treePairs] at member⟩
  | succ height ih =>
      have large : 2 ^ height < leaves.length := by simpa using least
      have power : 0 < 2 ^ height := Nat.two_pow_pos _
      have several : 2 ≤ leaves.length := by omega
      have up : Level node leaves (levelUp node leaves) := .up .base several
      have leastUp : height = 0 ∨ 2 ^ (height - 1) < (levelUp node leaves).length := by
        rcases Nat.eq_zero_or_pos height with zero | positive
        · exact Or.inl zero
        · have double : 2 ^ height = 2 ^ (height - 1) * 2 := by
            rw [← pow_succ, Nat.sub_add_cancel positive]
          rw [length_levelUp]
          exact Or.inr (by omega)
      obtain ⟨top, hashed⟩ := ih (up.nonempty nonempty)
        (length_levelUp_le.mpr (by rw [pow_succ] at bound; omega)) leastUp
      obtain ⟨root, lower⟩ := @rootOf_levelUp _ node _ leaves height nonempty bound
      rw [root]
      refine ⟨up.trans top, fun pair member => ?_⟩
      rcases lower pair member with low | high
      · exact ⟨leaves, .base, several, low⟩
      · exact (hashed pair high).of_level up

/-- Trees of one height over different leaves have different roots. -/
theorem rootOf_ne {others : List α} (nonempty : leaves ≠ []) (someOther : others ≠ [])
    (disjoint : List.Disjoint leaves others)
    (injective : Set.InjOn (fun pair => node pair.1 pair.2)
      {pair | pair ∈ treePairs node height leaves ∨ pair ∈ treePairs node height others}) :
    rootOf node height leaves ≠ rootOf node height others := by
  induction height generalizing leaves others with
  | zero =>
      intro same
      cases leaves with
      | nil => exact nonempty rfl
      | cons first rest =>
          cases others with
          | nil => exact someOther rfl
          | cons second others =>
              have equal : first = second := same
              rw [equal] at disjoint
              exact disjoint List.mem_cons_self List.mem_cons_self
  | succ height ih =>
      intro same
      have power : 0 < 2 ^ height := Nat.two_pow_pos _
      have first : ∀ values : List α, ∃ right,
          rootOf node (height + 1) values =
              node (rootOf node height (values.take (2 ^ height))) right ∧
            (rootOf node height (values.take (2 ^ height)), right) ∈
              treePairs node (height + 1) values ∧
            ∀ pair ∈ treePairs node height (values.take (2 ^ height)),
              pair ∈ treePairs node (height + 1) values := by
        intro values
        by_cases small : values.length ≤ 2 ^ height
        · rw [rootOf_small small, treePairs_small small, List.take_of_length_le small]
          exact ⟨_, rfl, List.mem_cons_self, fun pair => List.mem_cons_of_mem _⟩
        · rw [rootOf_large small, treePairs_large small]
          exact ⟨_, rfl, List.mem_cons_self, fun pair member =>
            List.mem_cons_of_mem _ (List.mem_append_left _ member)⟩
      obtain ⟨right, root, top, below⟩ := first leaves
      obtain ⟨right', root', top', below'⟩ := first others
      have pairsSame := injective (Or.inl top) (Or.inr top') (by
        change node _ right = node _ right'
        rw [← root, ← root', same])
      refine ih (fun empty => ?_) (fun empty => ?_) ?_ ?_ (Prod.mk.inj pairsSame).1
      · exact nonempty ((List.take_eq_nil_iff.mp empty).resolve_left power.ne')
      · exact someOther ((List.take_eq_nil_iff.mp empty).resolve_left power.ne')
      · exact fun value inLeft inRight =>
          disjoint (List.mem_of_mem_take inLeft) (List.mem_of_mem_take inRight)
      · exact injective.mono fun pair member => member.imp (below pair) (below' pair)

end Levels

end HashTree

namespace PartialTree

open HashTree

variable {α : Type} {node : α → α → α}

def root (node : α → α → α) : PartialTree α → α
  | leaf hash _ => hash
  | pruned hash => hash
  | single child => node (child.root node) (child.root node)
  | fork left right => node (left.root node) (right.root node)

/-- One bit for each node, in depth-first order. -/
def bits : PartialTree α → List Bool
  | leaf _ matched => [matched]
  | pruned _ => [false]
  | single child => true :: child.bits
  | fork left right => true :: (left.bits ++ right.bits)

/-- One hash for each end, in depth-first order. -/
def hashes : PartialTree α → List α
  | leaf hash _ => [hash]
  | pruned hash => [hash]
  | single child => child.hashes
  | fork left right => left.hashes ++ right.hashes

def found : PartialTree α → List α
  | leaf hash matched => if matched then [hash] else []
  | pruned _ => []
  | single child => child.found
  | fork left right => left.found ++ right.found

def pairs (node : α → α → α) : PartialTree α → List (α × α)
  | leaf _ _ => []
  | pruned _ => []
  | single child => (child.root node, child.root node) :: child.pairs node
  | fork left right =>
      (left.root node, right.root node) :: (left.pairs node ++ right.pairs node)

/-- No node has two equal halves. -/
def distinct [DecidableEq α] (node : α → α → α) : PartialTree α → Bool
  | leaf _ _ => true
  | pruned _ => true
  | single child => child.distinct node
  | fork left right =>
      left.distinct node && right.distinct node && right.root node != left.root node

/-- The tree has a height and covers a number of leaves. -/
inductive Fits : Nat → Nat → PartialTree α → Prop
  | leaf (hash : α) (matched : Bool) : Fits 0 1 (.leaf hash matched)
  | pruned {height count : Nat} (hash : α) (positive : 0 < count)
      (bound : count ≤ 2 ^ (height + 1)) : Fits (height + 1) count (.pruned hash)
  | single {height count : Nat} {child : PartialTree α} (small : count ≤ 2 ^ height)
      (below : Fits height count child) : Fits (height + 1) count (.single child)
  | fork {height count : Nat} {left right : PartialTree α} (large : 2 ^ height < count)
      (leftFits : Fits height (2 ^ height) left)
      (rightFits : Fits height (count - 2 ^ height) right) :
      Fits (height + 1) count (.fork left right)

/-- The tree of a height and a number of leaves at the front of some bits and
hashes. -/
def decode : Nat → Nat → List Bool → List α → Option (PartialTree α × List Bool × List α)
  | 0, _, matched :: bits, hash :: hashes => some (.leaf hash matched, bits, hashes)
  | _ + 1, _, false :: bits, hash :: hashes => some (.pruned hash, bits, hashes)
  | height + 1, count, true :: bits, hashes =>
      if count ≤ 2 ^ height then do
        let (child, bits, hashes) ← decode height count bits hashes
        some (.single child, bits, hashes)
      else do
        let (left, bits, hashes) ← decode height (2 ^ height) bits hashes
        let (right, bits, hashes) ← decode height (count - 2 ^ height) bits hashes
        some (.fork left right, bits, hashes)
  | _, _, _, _ => none

def prune [Inhabited α] (node : α → α → α) : Nat → List (α × Bool) → PartialTree α
  | 0, leaves => .leaf ((leaves.map Prod.fst).headD default) (leaves.any Prod.snd)
  | height + 1, leaves =>
      if leaves.any Prod.snd then
        if leaves.length ≤ 2 ^ height then .single (prune node height leaves)
        else .fork (prune node height (leaves.take (2 ^ height)))
          (prune node height (leaves.drop (2 ^ height)))
      else .pruned (rootOf node (height + 1) (leaves.map Prod.fst))

section Sizes

variable {tree : PartialTree α} {height count : Nat}

theorem length_hashes_le_length_bits (tree : PartialTree α) :
    tree.hashes.length ≤ tree.bits.length := by
  induction tree with
  | leaf hash matched => exact le_rfl
  | pruned hash => exact le_rfl
  | single child ih => exact ih.trans (Nat.le_succ _)
  | fork left right leftIH rightIH =>
      simp only [hashes, bits, List.length_append, List.length_cons]
      omega

theorem Fits.length_hashes_le (fits : Fits height count tree) : tree.hashes.length ≤ count := by
  induction fits with
  | leaf => exact le_rfl
  | pruned hash positive bound => exact positive
  | single small below ih => exact ih
  | fork large leftFits rightFits leftIH rightIH =>
      rw [hashes, List.length_append]
      omega

theorem Fits.length_bits_lt (fits : Fits height count tree) :
    tree.bits.length < 2 ^ (height + 1) := by
  induction fits with
  | leaf => simp [bits]
  | pruned hash positive bound => exact Nat.one_lt_two_pow (Nat.succ_ne_zero _)
  | single small below ih =>
      rw [bits, List.length_cons, pow_succ]
      omega
  | fork large leftFits rightFits leftIH rightIH =>
      rw [bits, List.length_cons, List.length_append, pow_succ]
      omega

end Sizes

section Decoding

variable {tree : PartialTree α} {height count : Nat} {bits moreBits : List Bool}
  {hashes moreHashes : List α}

theorem decode_encode (fits : Fits height count tree) (bits : List Bool) (hashes : List α) :
    decode height count (tree.bits ++ bits) (tree.hashes ++ hashes) =
      some (tree, bits, hashes) := by
  induction fits generalizing bits hashes with
  | leaf hash matched => rfl
  | pruned hash positive bound => rfl
  | single small below ih =>
      simp only [PartialTree.bits, PartialTree.hashes, List.cons_append, decode, if_pos small, ih]
      rfl
  | fork large leftFits rightFits leftIH rightIH =>
      simp only [PartialTree.bits, PartialTree.hashes, List.cons_append, List.append_assoc, decode,
        if_neg (Nat.not_le.mpr large), leftIH, rightIH, Option.bind_eq_bind, Option.bind_some]

theorem fits_of_decode (positive : 0 < count) (bound : count ≤ 2 ^ height)
    (decoded : decode height count bits hashes = some (tree, moreBits, moreHashes)) :
    Fits height count tree ∧ bits = tree.bits ++ moreBits ∧
      hashes = tree.hashes ++ moreHashes := by
  induction height generalizing count bits hashes tree moreBits moreHashes with
  | zero =>
      cases bits with
      | nil => simp [decode] at decoded
      | cons matched bits =>
          cases hashes with
          | nil => simp [decode] at decoded
          | cons hash hashes =>
              simp only [decode, Option.some.injEq, Prod.mk.injEq] at decoded
              obtain ⟨rfl, rfl, rfl⟩ := decoded
              have one : count = 1 := by omega
              subst one
              exact ⟨.leaf hash matched, rfl, rfl⟩
  | succ height ih =>
      cases bits with
      | nil => simp [decode] at decoded
      | cons matched bits =>
          cases matched with
          | false =>
              cases hashes with
              | nil => simp [decode] at decoded
              | cons hash hashes =>
                  simp only [decode, Option.some.injEq, Prod.mk.injEq] at decoded
                  obtain ⟨rfl, rfl, rfl⟩ := decoded
                  exact ⟨.pruned hash positive bound, rfl, rfl⟩
          | true =>
              rw [decode] at decoded
              split at decoded
              · rename_i small
                obtain ⟨⟨child, bits', hashes'⟩, below, decoded⟩ :=
                  Option.bind_eq_some_iff.mp decoded
                simp only [Option.some.injEq, Prod.mk.injEq] at decoded
                obtain ⟨rfl, rfl, rfl⟩ := decoded
                obtain ⟨fits, rfl, rfl⟩ := ih positive small below
                exact ⟨.single small fits, rfl, rfl⟩
              · rename_i large
                obtain ⟨⟨left, bits', hashes'⟩, leftPart, decoded⟩ :=
                  Option.bind_eq_some_iff.mp decoded
                obtain ⟨⟨right, bits'', hashes''⟩, rightPart, decoded⟩ :=
                  Option.bind_eq_some_iff.mp decoded
                simp only [Option.some.injEq, Prod.mk.injEq] at decoded
                obtain ⟨rfl, rfl, rfl⟩ := decoded
                obtain ⟨leftFits, rfl, rfl⟩ := ih (Nat.two_pow_pos _) le_rfl leftPart
                obtain ⟨rightFits, rfl, rfl⟩ := ih (by omega)
                  (by rw [pow_succ] at bound; omega) rightPart
                refine ⟨.fork (Nat.not_le.mp large) leftFits rightFits, ?_, ?_⟩
                · simp only [PartialTree.bits, List.cons_append, List.append_assoc]
                · simp only [PartialTree.hashes, List.append_assoc]

end Decoding

section Pruning

variable [Inhabited α] {height : Nat} {leaves : List (α × Bool)}

theorem fits_prune (nonempty : leaves ≠ []) (bound : leaves.length ≤ 2 ^ height) :
    Fits height leaves.length (prune node height leaves) := by
  have positive := List.length_pos_iff.mpr nonempty
  induction height generalizing leaves with
  | zero =>
      have one : leaves.length = 1 := by omega
      rw [one, prune]
      exact .leaf _ _
  | succ height ih =>
      rw [prune]
      split
      · split
        · rename_i small
          exact .single small (ih nonempty small positive)
        · rename_i large
          have power : 0 < 2 ^ height := Nat.two_pow_pos _
          have front : (leaves.take (2 ^ height)).length = 2 ^ height := by
            rw [List.length_take]
            omega
          have back : (leaves.drop (2 ^ height)).length = leaves.length - 2 ^ height :=
            List.length_drop
          rw [pow_succ] at bound
          have left := ih (List.ne_nil_of_length_pos (by omega)) front.le (by omega)
          have right := ih (List.ne_nil_of_length_pos (by omega)) (by omega)
            (by omega : 0 < (leaves.drop (2 ^ height)).length)
          rw [front] at left
          rw [back] at right
          exact .fork (by omega) left right
      · exact .pruned _ positive bound

theorem root_prune (node : α → α → α) (height : Nat) (leaves : List (α × Bool)) :
    (prune node height leaves).root node = rootOf node height (leaves.map Prod.fst) := by
  induction height generalizing leaves with
  | zero => rfl
  | succ height ih =>
      rw [prune]
      split
      · split
        · rename_i small
          rw [rootOf_small (by rwa [List.length_map]), root, ih]
        · rename_i large
          rw [rootOf_large (by rwa [List.length_map]), root, ih, ih, List.map_take, List.map_drop]
      · rfl

theorem found_prune (nonempty : leaves ≠ []) (bound : leaves.length ≤ 2 ^ height) :
    (prune node height leaves).found = (leaves.filter Prod.snd).map Prod.fst := by
  have positive := List.length_pos_iff.mpr nonempty
  induction height generalizing leaves with
  | zero =>
      obtain ⟨⟨hash, matched⟩, rfl⟩ := List.length_eq_one_iff.mp (by omega : leaves.length = 1)
      cases matched <;> rfl
  | succ height ih =>
      rw [prune]
      split
      · split
        · rename_i small
          exact ih nonempty small positive
        · rename_i large
          have power : 0 < 2 ^ height := Nat.two_pow_pos _
          have front : (leaves.take (2 ^ height)).length = 2 ^ height := by
            rw [List.length_take]
            omega
          have back : (leaves.drop (2 ^ height)).length = leaves.length - 2 ^ height :=
            List.length_drop
          rw [pow_succ] at bound
          rw [found, ih (List.ne_nil_of_length_pos (by omega)) front.le (by omega),
            ih (List.ne_nil_of_length_pos (by omega)) (by omega) (by omega), ← List.map_append,
            ← List.filter_append, List.take_append_drop]
      · rename_i unmatched
        have nothing : leaves.filter Prod.snd = [] := by
          simpa using unmatched
        rw [nothing]
        rfl

/-- Over different leaves no two halves of a node have one root. -/
theorem distinct_prune [DecidableEq α] (distinct : (leaves.map Prod.fst).Nodup)
    (nonempty : leaves ≠ []) (bound : leaves.length ≤ 2 ^ height)
    (injective : Set.InjOn (fun pair => node pair.1 pair.2)
      {pair | pair ∈ treePairs node height (leaves.map Prod.fst)}) :
    (prune node height leaves).distinct node = true := by
  have positive := List.length_pos_iff.mpr nonempty
  induction height generalizing leaves with
  | zero => rfl
  | succ height ih =>
      rw [prune]
      split
      · split
        · rename_i small
          have small' : (leaves.map Prod.fst).length ≤ 2 ^ height := by rwa [List.length_map]
          rw [treePairs_small small'] at injective
          exact ih distinct nonempty small
            (injective.mono fun pair => List.mem_cons_of_mem _) positive
        · rename_i large
          have large' : ¬(leaves.map Prod.fst).length ≤ 2 ^ height := by rwa [List.length_map]
          have power : 0 < 2 ^ height := Nat.two_pow_pos _
          have front : (leaves.take (2 ^ height)).length = 2 ^ height := by
            rw [List.length_take]
            omega
          have back : (leaves.drop (2 ^ height)).length = leaves.length - 2 ^ height :=
            List.length_drop
          rw [treePairs_large large', ← List.map_take, ← List.map_drop] at injective
          rw [pow_succ] at bound
          have someLeft : leaves.take (2 ^ height) ≠ [] :=
            List.ne_nil_of_length_pos (by omega)
          have someRight : leaves.drop (2 ^ height) ≠ [] :=
            List.ne_nil_of_length_pos (by omega)
          rw [← List.take_append_drop (2 ^ height) leaves, List.map_append,
            List.nodup_append'] at distinct
          obtain ⟨leftDistinct, rightDistinct, disjoint⟩ := distinct
          have left := ih leftDistinct someLeft front.le
            (injective.mono fun pair member =>
              List.mem_cons_of_mem _ (List.mem_append_left _ member)) (by omega)
          have right := ih rightDistinct someRight (by omega)
            (injective.mono fun pair member =>
              List.mem_cons_of_mem _ (List.mem_append_right _ member)) (by omega)
          have different := rootOf_ne (by simpa using someRight) (by simpa using someLeft)
            disjoint.symm
            (injective.mono fun pair member => List.mem_cons_of_mem _
              (List.mem_append.mpr member.symm))
          rw [PartialTree.distinct, left, right, root_prune, root_prune]
          simpa using different
      · rfl

end Pruning

section Soundness

variable [Inhabited α] {tree : PartialTree α} {height : Nat} {leaves : List α}

/-- A partial tree with the root of a list claims only leaves of the list, in
their order. -/
theorem found_sublist {count : Nat} (fits : Fits height count tree) (length : leaves.length = count)
    (same : tree.root node = rootOf node height leaves)
    (injective : Set.InjOn (fun pair => node pair.1 pair.2)
      {pair | pair ∈ treePairs node height leaves ∨ pair ∈ tree.pairs node}) :
    tree.found.Sublist leaves := by
  induction fits generalizing leaves with
  | leaf hash matched =>
      obtain ⟨only, rfl⟩ := List.length_eq_one_iff.mp length
      have equal : hash = only := same
      rw [equal, found]
      split
      · exact List.Sublist.refl _
      · exact List.nil_sublist _
  | pruned hash positive bound => exact List.nil_sublist _
  | single small below ih =>
      rw [← length] at small
      rw [rootOf_small small, root] at same
      rw [treePairs_small small, pairs] at injective
      have halves := injective (Or.inr List.mem_cons_self) (Or.inl List.mem_cons_self) same
      exact ih length (Prod.mk.inj halves).1 (injective.mono fun pair member =>
        member.imp (List.mem_cons_of_mem _) (List.mem_cons_of_mem _))
  | fork large leftFits rightFits leftIH rightIH =>
      rename_i height count left right
      have large' : ¬leaves.length ≤ 2 ^ height := by omega
      rw [rootOf_large large', root] at same
      rw [treePairs_large large', pairs] at injective
      have halves := injective (Or.inr List.mem_cons_self) (Or.inl List.mem_cons_self) same
      have leftSublist := leftIH (by rw [List.length_take]; omega) (Prod.mk.inj halves).1
        (injective.mono fun pair member =>
          member.imp (fun low => List.mem_cons_of_mem _ (List.mem_append_left _ low))
            (fun low => List.mem_cons_of_mem _ (List.mem_append_left _ low)))
      have rightSublist := rightIH (by rw [List.length_drop]; omega) (Prod.mk.inj halves).2
        (injective.mono fun pair member =>
          member.imp (fun low => List.mem_cons_of_mem _ (List.mem_append_right _ low))
            (fun low => List.mem_cons_of_mem _ (List.mem_append_right _ low)))
      rw [found, ← List.take_append_drop (2 ^ height) leaves]
      exact leftSublist.append rightSublist

end Soundness

end PartialTree

end Lycancoin.Data
