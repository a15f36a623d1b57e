import Lycancoin.Consensus.BlockCheck
import Lycancoin.Data.HashTree

namespace Lycancoin

open Lycancoin.Data

namespace CBlock

/-- The leaves of the merkle tree. -/
def txids (block : CBlock) : List Uint256 := block.vtx.map CTransaction.hash

end CBlock

section Tree

variable {hashPair : Uint256 → Uint256 → Uint256} {hashes : List Uint256}

theorem merkleLevel_eq (hashes : List Uint256) :
    (merkleLevel hashPair hashes).1 = HashTree.levelUp hashPair hashes ∧
      ((merkleLevel hashPair hashes).2 = true ↔ HashTree.EndsDoubled hashes) := by
  induction hashes using HashTree.EndsDoubled.induct with
  | case1 => simp [merkleLevel, HashTree.levelUp, HashTree.pairs, HashTree.EndsDoubled]
  | case2 last => simp [merkleLevel, HashTree.levelUp, HashTree.pairs, HashTree.EndsDoubled]
  | case3 left right => simp [merkleLevel, HashTree.levelUp, HashTree.pairs, HashTree.EndsDoubled]
  | case4 left right next rest ih =>
      rw [HashTree.levelUp_cons_cons, HashTree.endsDoubled_cons_cons (List.cons_ne_nil next rest),
        ← ih.1, ← ih.2]
      exact ⟨rfl, Iff.rfl⟩

theorem mutated_iff (several : 2 ≤ hashes.length) :
    HashTree.Mutated hashPair hashes ↔
      HashTree.EndsDoubled hashes ∨
        HashTree.Mutated hashPair (HashTree.levelUp hashPair hashes) := by
  constructor
  · intro ⟨nodes, level, doubled⟩
    rcases level.eq_or_above with rfl | ⟨_, above⟩
    · exact Or.inl doubled
    · exact Or.inr ⟨nodes, above, doubled⟩
  · intro mutated
    rcases mutated with doubled | above
    · exact ⟨hashes, .base, doubled⟩
    · exact above.of_level (.up .base several)

/-- `BuildMerkleTree` finds the root of the hash tree, and raises the flag where
some level ends in two equal nodes. -/
theorem merkleLoop_spec (nonempty : hashes ≠ []) {fuel : Nat} (enough : hashes.length ≤ fuel + 1) :
    HashTree.Level hashPair hashes [(merkleLoop hashPair fuel hashes).1] ∧
      ((merkleLoop hashPair fuel hashes).2 = true ↔ HashTree.Mutated hashPair hashes) := by
  induction fuel generalizing hashes with
  | zero =>
      obtain ⟨root, rfl⟩ : ∃ root, hashes = [root] := by
        apply List.length_eq_one_iff.mp
        have positive := List.length_pos_iff.mpr nonempty
        omega
      refine ⟨.base, ?_⟩
      simp only [merkleLoop, Bool.false_eq_true, false_iff]
      intro ⟨nodes, level, doubled⟩
      rw [level.eq_of_singleton] at doubled
      exact doubled
  | succ fuel ih =>
      cases hashes with
      | nil => exact absurd rfl nonempty
      | cons first rest =>
          cases rest with
          | nil =>
              refine ⟨.base, ?_⟩
              simp only [merkleLoop, Bool.false_eq_true, false_iff]
              intro ⟨nodes, level, doubled⟩
              rw [level.eq_of_singleton] at doubled
              exact doubled
          | cons second rest =>
              have several : 2 ≤ (first :: second :: rest).length := by simp
              have step : merkleLoop hashPair (fuel + 1) (first :: second :: rest) =
                  ((merkleLoop hashPair fuel (merkleLevel hashPair (first :: second :: rest)).1).1,
                    (merkleLevel hashPair (first :: second :: rest)).2 ||
                      (merkleLoop hashPair fuel
                        (merkleLevel hashPair (first :: second :: rest)).1).2) := rfl
              obtain ⟨level, flag⟩ := @merkleLevel_eq hashPair (first :: second :: rest)
              have up : HashTree.Level hashPair (first :: second :: rest)
                  (HashTree.levelUp hashPair (first :: second :: rest)) := .up .base several
              obtain ⟨above, flagAbove⟩ := ih (up.nonempty nonempty) (by
                rw [HashTree.length_levelUp]
                omega)
              rw [step, level]
              refine ⟨up.trans above, ?_⟩
              rw [Bool.or_eq_true, flag, flagAbove, mutated_iff several]

end Tree

section Binding

variable {hashes : Digests} {left right block : CBlock}

theorem buildMerkleTree_spec (hashes : Digests) (nonempty : block.vtx ≠ []) :
    HashTree.Level hashes.hashPair block.txids [(block.buildMerkleTree hashes).1] ∧
      ((block.buildMerkleTree hashes).2 = true ↔
        HashTree.Mutated hashes.hashPair block.txids) :=
  merkleLoop_spec (by simpa [CBlock.txids] using nonempty) (by simp [CBlock.txids])

/-- The node hash is injective on the pairs that the trees of two blocks hash,
and no node is a leaf of either. -/
structure NodesApart (hashes : Digests) (left right : CBlock) : Prop where
  injective : HashTree.TellsApart hashes.hashPair left.txids right.txids
  fresh : ∀ pair, HashTree.Hashed hashes.hashPair left.txids pair ∨
      HashTree.Hashed hashes.hashPair right.txids pair →
    hashes.hashPair pair.1 pair.2 ∉ left.txids ∧ hashes.hashPair pair.1 pair.2 ∉ right.txids

theorem txids_eq_of_root_eq (apart : NodesApart hashes left right) (leftNonempty : left.vtx ≠ [])
    (rightNonempty : right.vtx ≠ [])
    (same : (left.buildMerkleTree hashes).1 = (right.buildMerkleTree hashes).1)
    (leftFlag : (left.buildMerkleTree hashes).2 = false)
    (rightFlag : (right.buildMerkleTree hashes).2 = false) : left.txids = right.txids := by
  obtain ⟨leftRoot, leftIff⟩ := buildMerkleTree_spec hashes leftNonempty
  obtain ⟨rightRoot, rightIff⟩ := buildMerkleTree_spec hashes rightNonempty
  rw [← same] at rightRoot
  refine HashTree.eq_of_root_eq apart.injective apart.fresh (by simpa [CBlock.txids] using leftNonempty)
    (by simpa [CBlock.txids] using rightNonempty) leftRoot rightRoot ?_ ?_
  · rw [← leftIff, leftFlag]
    exact Bool.false_ne_true
  · rw [← rightIff, rightFlag]
    exact Bool.false_ne_true

theorem endsDoubled_of_length_two {nodes : List Uint256} (doubled : HashTree.EndsDoubled nodes)
    (small : ¬ 2 < nodes.length) : ∃ twin, nodes = [twin, twin] := by
  have several := HashTree.two_le_length_of_endsDoubled doubled
  obtain ⟨first, second, rfl⟩ := List.length_eq_two.mp (by omega : nodes.length = 2)
  have same : first = second := doubled
  exact ⟨first, by rw [same]⟩

/-- A raised flag means a strictly shorter list with the same root, unless the
two nodes below the root are the only equal ones. -/
theorem exists_shorter_of_mutated (flag : (block.buildMerkleTree hashes).2 = true) :
    (∃ shorter : CBlock, shorter.vtx <+: block.vtx ∧ shorter.vtx.length < block.vtx.length ∧
      shorter.vtx ≠ [] ∧
      (shorter.buildMerkleTree hashes).1 = (block.buildMerkleTree hashes).1) ∨
    ∃ twin, HashTree.Level hashes.hashPair block.txids [twin, twin] := by
  have nonempty : block.vtx ≠ [] := by
    intro empty
    rw [CBlock.buildMerkleTree, empty] at flag
    contradiction
  obtain ⟨root, flagIff⟩ := buildMerkleTree_spec hashes nonempty
  obtain ⟨nodes, level, doubled⟩ := flagIff.mp flag
  by_cases large : 2 < nodes.length
  · left
    obtain ⟨shorter, isPrefix, fewer, some, top⟩ :=
      HashTree.exists_shorter root level doubled large
    obtain ⟨rest, split⟩ := isPrefix
    have length : block.txids.length = block.vtx.length := List.length_map _
    have taken : (block.vtx.take shorter.length).map CTransaction.hash = shorter := by
      rw [List.map_take]
      change block.txids.take shorter.length = shorter
      rw [← split, List.take_left]
    have size : (block.vtx.take shorter.length).length = shorter.length := by
      rw [List.length_take]
      omega
    have someLeft : block.vtx.take shorter.length ≠ [] := by
      intro empty
      rw [empty, List.map_nil] at taken
      exact some taken.symm
    refine ⟨{ block with vtx := block.vtx.take shorter.length }, List.take_prefix _ _,
      by rw [size]; omega, someLeft, ?_⟩
    have shorterRoot := (@buildMerkleTree_spec { block with vtx := block.vtx.take shorter.length }
      hashes someLeft).1
    have ids : CBlock.txids { block with vtx := block.vtx.take shorter.length } = shorter := taken
    rw [ids] at shorterRoot
    exact (List.cons.inj (shorterRoot.root_above top).eq_of_singleton).1.symm
  · right
    obtain ⟨twin, rfl⟩ := endsDoubled_of_length_two doubled large
    exact ⟨twin, level⟩

theorem checkBlock_merkle {env : Environment} {nAdjustedTime : Int} {fCheckPOW : Bool}
    (passed : checkBlock env nAdjustedTime block fCheckPOW true = .ok ()) :
    block.vtx ≠ [] ∧ (block.buildMerkleTree env.hashes).1 = block.hashMerkleRoot ∧
      (block.buildMerkleTree env.hashes).2 = false := by
  obtain ⟨_, passed⟩ := check_seq_eq_ok.mp passed
  obtain ⟨merkle, passed⟩ := check_seq_eq_ok.mp passed
  obtain ⟨length, _⟩ := check_seq_eq_ok.mp passed
  obtain ⟨root, flag⟩ := check_seq_eq_ok.mp merkle
  rw [rejectIf_eq_ok] at length root flag
  rw [bne_eq_false_iff_eq] at root
  simp only [Bool.or_eq_false_iff, List.isEmpty_eq_false_iff] at length
  exact ⟨length.1.1, root.symm, flag⟩

theorem eq_of_map_hash_eq {left right : List CTransaction}
    (same : left.map CTransaction.hash = right.map CTransaction.hash)
    (named : ∀ tx ∈ left, ∀ other ∈ right, tx.hash = other.hash → tx = other) : left = right := by
  induction left generalizing right with
  | nil => exact (List.map_eq_nil_iff.mp same.symm).symm
  | cons tx left ih =>
      cases right with
      | nil => contradiction
      | cons other right =>
          obtain ⟨first, rest⟩ := List.cons.inj same
          rw [named tx List.mem_cons_self other List.mem_cons_self first,
            ih rest fun tx member other otherMember => named tx (List.mem_cons_of_mem _ member)
              other (List.mem_cons_of_mem _ otherMember)]

/-- The merkle root binds the list of transactions as far as the flag is not
raised, and a raised flag tells of a shorter list or of two equal halves. -/
theorem merkleRoot_binds_transactions (hashes : Digests) (left right : CBlock)
    (apart : NodesApart hashes left right) :
    (left.vtx ≠ [] → right.vtx ≠ [] →
      (left.buildMerkleTree hashes).1 = (right.buildMerkleTree hashes).1 →
      (left.buildMerkleTree hashes).2 = false → (right.buildMerkleTree hashes).2 = false →
      left.txids = right.txids) ∧
    (∀ block : CBlock, (block.buildMerkleTree hashes).2 = true →
      (∃ shorter : CBlock, shorter.vtx <+: block.vtx ∧ shorter.vtx.length < block.vtx.length ∧
        shorter.vtx ≠ [] ∧
        (shorter.buildMerkleTree hashes).1 = (block.buildMerkleTree hashes).1) ∨
      ∃ twin, HashTree.Level hashes.hashPair block.txids [twin, twin]) ∧
    ∀ (env : Environment) (leftTime rightTime : Int) (leftPOW rightPOW : Bool),
      env.hashes = hashes → left.toCBlockHeader = right.toCBlockHeader →
      checkBlock env leftTime left leftPOW true = .ok () →
      checkBlock env rightTime right rightPOW true = .ok () →
      left.txids = right.txids ∧
        ((∀ tx ∈ left.vtx, ∀ other ∈ right.vtx, tx.hash = other.hash → tx = other) →
          left.vtx = right.vtx) := by
  refine ⟨txids_eq_of_root_eq apart, fun block => exists_shorter_of_mutated, ?_⟩
  intro env leftTime rightTime leftPOW rightPOW sameHashes header leftPassed rightPassed
  obtain ⟨leftNonempty, leftRoot, leftFlag⟩ := checkBlock_merkle leftPassed
  obtain ⟨rightNonempty, rightRoot, rightFlag⟩ := checkBlock_merkle rightPassed
  rw [sameHashes] at leftRoot leftFlag rightRoot rightFlag
  have same : left.txids = right.txids := by
    refine txids_eq_of_root_eq apart leftNonempty rightNonempty ?_ leftFlag rightFlag
    rw [leftRoot, rightRoot, header]
  exact ⟨same, eq_of_map_hash_eq same⟩

end Binding

section Samples

/-- Digests whose inner nodes all have their highest bit set. -/
def taggedHashes : Digests where
  getHash block := ⟨BitVec.ofNat 256 block.nTime.toNat⟩
  getPoWHash _ := 0
  hashPair left right := ⟨left.value * 31 + right.value ||| 1 <<< 255⟩

/-- A block with two transactions of the given names. -/
def blockOfTwo (first second : Uint256) : CBlock where
  nVersion := 3
  hashPrevBlock := 0
  hashMerkleRoot := 0
  nTime := 0
  nBits := 0
  nNonce := 0
  vtx := [{ hash := first, nVersion := 1, vin := [], vout := [], nLockTime := 0 },
    { hash := second, nVersion := 1, vin := [], vout := [], nLockTime := 0 }]

theorem hashed_blockOfTwo {first second : Uint256} {pair : Uint256 × Uint256}
    (hashed : HashTree.Hashed taggedHashes.hashPair (blockOfTwo first second).txids pair) :
    pair = (first, second) := by
  obtain ⟨nodes, level, several, member⟩ := hashed
  rcases level.eq_or_above with rfl | ⟨_, above⟩
  · simpa [CBlock.txids, blockOfTwo, HashTree.pairs] using member
  · have root : HashTree.levelUp taggedHashes.hashPair (blockOfTwo first second).txids =
        [taggedHashes.hashPair first second] := rfl
    rw [root] at above
    rw [above.eq_of_singleton] at several
    simp at several

theorem nodesApart_blockOfTwo {first second : Uint256}
    (fresh : taggedHashes.hashPair first second ≠ first ∧
      taggedHashes.hashPair first second ≠ second) :
    NodesApart taggedHashes (blockOfTwo first second) (blockOfTwo first second) := by
  constructor
  · intro pair hashed other otherHashed _
    rw [hashed_blockOfTwo (hashed.elim id id), hashed_blockOfTwo (otherHashed.elim id id)]
  · intro pair hashed
    rw [hashed_blockOfTwo (hashed.elim id id)]
    simp [CBlock.txids, blockOfTwo, fresh.1, fresh.2]

theorem nodesApart_swapped : NodesApart taggedHashes (blockOfTwo 1 2) (blockOfTwo 2 1) := by
  have either {pair : Uint256 × Uint256}
      (hashed : HashTree.Hashed taggedHashes.hashPair (blockOfTwo 1 2).txids pair ∨
        HashTree.Hashed taggedHashes.hashPair (blockOfTwo 2 1).txids pair) :
      pair = (1, 2) ∨ pair = (2, 1) := hashed.imp hashed_blockOfTwo hashed_blockOfTwo
  constructor
  · intro pair hashed other otherHashed same
    rcases either hashed with rfl | rfl <;> rcases either otherHashed with rfl | rfl
    · rfl
    · exact absurd same (by decide)
    · exact absurd same (by decide)
    · rfl
  · intro pair hashed
    rcases either hashed with rfl | rfl <;> decide

/-- The root tells in which order two transactions stand in a block. -/
theorem merkleRoot_binds_swapped :
    ((blockOfTwo 1 2).buildMerkleTree taggedHashes).1 ≠
      ((blockOfTwo 2 1).buildMerkleTree taggedHashes).1 := by
  intro same
  have ids := (merkleRoot_binds_transactions taggedHashes (blockOfTwo 1 2) (blockOfTwo 2 1)
    nodesApart_swapped).1 (by simp [blockOfTwo]) (by simp [blockOfTwo]) same (by decide) (by decide)
  exact absurd ids (by decide)

/-- Two equal transactions raise the flag, and no shorter list has their root. -/
theorem twinTransactions_have_no_shorter_list :
    NodesApart taggedHashes (blockOfTwo 1 1) (blockOfTwo 1 1) ∧
      ((blockOfTwo 1 1).buildMerkleTree taggedHashes).2 = true ∧
      ¬ ∃ shorter : CBlock, shorter.vtx.length < (blockOfTwo 1 1).vtx.length ∧
        (∀ tx ∈ shorter.vtx, ∀ left right, taggedHashes.hashPair left right ≠ tx.hash) ∧
        (shorter.buildMerkleTree taggedHashes).1 =
          ((blockOfTwo 1 1).buildMerkleTree taggedHashes).1 := by
  refine ⟨nodesApart_blockOfTwo (by decide), by decide, ?_⟩
  intro ⟨shorter, fewer, leaves, same⟩
  have root : ((blockOfTwo 1 1).buildMerkleTree taggedHashes).1 = taggedHashes.hashPair 1 1 := rfl
  rw [root, CBlock.buildMerkleTree] at same
  cases list : shorter.vtx with
  | nil =>
      rw [list] at same
      exact absurd same (by decide)
  | cons tx rest =>
      have empty : rest = [] := by
        rw [list] at fewer
        simpa [blockOfTwo] using fewer
      rw [list, empty] at same
      exact leaves tx (by rw [list]; exact List.mem_cons_self) 1 1 same.symm

end Samples

end Lycancoin
