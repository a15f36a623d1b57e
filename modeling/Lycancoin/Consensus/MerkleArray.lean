import Lycancoin.Consensus.MerkleRoot
import Lycancoin.Primitives.RoundTrip

namespace Lycancoin

open Lycancoin.Data

/-- The loop of `GetMerkleBranch` over the levels of the tree. -/
def merkleBranchLoop (hashPair : Uint256 → Uint256 → Uint256) :
    Nat → List Uint256 → Nat → List Uint256
  | _, [], _ => []
  | _, [_], _ => []
  | 0, _, _ => []
  | fuel + 1, hashes, nIndex =>
      let i := min (nIndex ^^^ 1) (hashes.length - 1)
      hashes.getD i Uint256.null ::
        merkleBranchLoop hashPair fuel (merkleLevel hashPair hashes).1 (nIndex >>> 1)

namespace CBlock

def getMerkleBranch (hashes : Digests) (block : CBlock) (nIndex : Nat) : List Uint256 :=
  merkleBranchLoop hashes.hashPair block.vtx.length block.txids nIndex

/-- The loop of `CheckMerkleBranch`. -/
def foldMerkleBranch (hashes : Digests) (hash : Uint256) : List Uint256 → Int → Uint256
  | [], _ => hash
  | other :: rest, nIndex =>
      foldMerkleBranch hashes
        (if nIndex % 2 = 1 then hashes.hashPair other hash else hashes.hashPair hash other)
        rest (nIndex / 2)

def checkMerkleBranch (hashes : Digests) (hash : Uint256) (vMerkleBranch : List Uint256)
    (nIndex : Int) : Uint256 :=
  if nIndex = -1 then Uint256.null else foldMerkleBranch hashes hash vMerkleBranch nIndex

end CBlock

section Branch

variable {hashes : Digests} {nodes : List Uint256} {fuel nIndex : Nat} {hash : Uint256}

theorem merkleBranchLoop_of_several (hashPair : Uint256 → Uint256 → Uint256)
    (several : 2 ≤ nodes.length) (fuel nIndex : Nat) :
    merkleBranchLoop hashPair (fuel + 1) nodes nIndex =
      HashTree.sibling Uint256.null nodes nIndex ::
        merkleBranchLoop hashPair fuel (HashTree.levelUp hashPair nodes) (nIndex / 2) := by
  match nodes with
  | [] => simp at several
  | [_] => simp at several
  | first :: second :: rest =>
      rw [← (merkleLevel_eq _).1, ← Nat.shiftRight_one]
      rfl

theorem merkleLoop_of_several (hashPair : Uint256 → Uint256 → Uint256)
    (several : 2 ≤ nodes.length) (fuel : Nat) :
    (merkleLoop hashPair (fuel + 1) nodes).1 =
      (merkleLoop hashPair fuel (HashTree.levelUp hashPair nodes)).1 := by
  match nodes with
  | [] => simp at several
  | [_] => simp at several
  | first :: second :: rest =>
      rw [← (merkleLevel_eq _).1]
      rfl

/-- The branch of a leaf leads to the root. -/
theorem foldMerkleBranch_merkleBranchLoop (enough : nodes.length ≤ fuel + 1)
    (found : nodes[nIndex]? = some hash) :
    CBlock.foldMerkleBranch hashes hash (merkleBranchLoop hashes.hashPair fuel nodes nIndex) nIndex =
      (merkleLoop hashes.hashPair fuel nodes).1 := by
  have within := (List.getElem?_eq_some_iff.mp found).1
  induction fuel generalizing nodes nIndex hash with
  | zero =>
      obtain ⟨root, rfl⟩ : ∃ root, nodes = [root] := List.length_eq_one_iff.mp (by omega)
      obtain rfl : nIndex = 0 := by simpa using within
      cases found
      rfl
  | succ fuel ih =>
      by_cases several : 2 ≤ nodes.length
      · have above := @HashTree.getElem?_levelUp _ hashes.hashPair Uint256.null _ _ _ found
        have half : (nIndex : Int) / 2 = ((nIndex / 2 : Nat) : Int) := rfl
        have odd : ((nIndex : Int) % 2 = 1) = (nIndex % 2 = 1) := by
          apply propext
          omega
        have length := @HashTree.length_levelUp _ hashes.hashPair nodes
        rw [merkleBranchLoop_of_several _ several, merkleLoop_of_several _ several,
          CBlock.foldMerkleBranch, half]
        simp only [odd]
        exact ih (by omega) above (by omega)
      · obtain ⟨root, rfl⟩ : ∃ root, nodes = [root] := List.length_eq_one_iff.mp (by omega)
        obtain rfl : nIndex = 0 := by simpa using within
        cases found
        rfl

/-- `CheckMerkleBranch` finds the root for the branch that `GetMerkleBranch` gives. -/
theorem checkMerkleBranch_getMerkleBranch {block : CBlock} (found : block.txids[nIndex]? = some hash) :
    CBlock.checkMerkleBranch hashes hash (block.getMerkleBranch hashes nIndex) nIndex =
      (block.buildMerkleTree hashes).1 := by
  rw [CBlock.checkMerkleBranch, if_neg (by omega)]
  exact foldMerkleBranch_merkleBranchLoop (by simp [CBlock.txids]) found

end Branch

/-- A block with `vMerkleTree`, which is kept in memory only. -/
structure CachedBlock extends CBlock where
  vMerkleTree : List Uint256

namespace CachedBlock

/-- The inner loop of `BuildMerkleTree`, over the level of `nSize` hashes that starts at `j`.
There is no result behind the end of the array. -/
def hashLevel (hashPair : Uint256 → Uint256 → Uint256) (j nSize i : Nat)
    (vMerkleTree : List Uint256) (mutated : Bool) : Option (List Uint256 × Bool) :=
  if i < nSize then do
    let i2 := min (i + 1) (nSize - 1)
    let left ← vMerkleTree[j + i]?
    let right ← vMerkleTree[j + i2]?
    hashLevel hashPair j nSize (i + 2) (vMerkleTree ++ [hashPair left right])
      (mutated || (i2 == i + 1 && i2 + 1 == nSize && left == right))
  else some (vMerkleTree, mutated)
termination_by nSize - i

/-- The outer loop of `BuildMerkleTree`. -/
def hashLevels (hashPair : Uint256 → Uint256 → Uint256) (j nSize : Nat)
    (vMerkleTree : List Uint256) (mutated : Bool) : Option (List Uint256 × Bool) :=
  if 1 < nSize then do
    let (vMerkleTree, mutated) ← hashLevel hashPair j nSize 0 vMerkleTree mutated
    hashLevels hashPair (j + nSize) ((nSize + 1) / 2) vMerkleTree mutated
  else some (vMerkleTree, mutated)
termination_by nSize

/-- `BuildMerkleTree`: the block with the array, the root, and `fMutated`. -/
def buildMerkleTree (hashes : Digests) (block : CachedBlock) :
    Option (CachedBlock × Uint256 × Bool) := do
  let (vMerkleTree, mutated) ← hashLevels hashes.hashPair 0 block.vtx.length block.txids false
  pure ({ block with vMerkleTree }, vMerkleTree.getLast?.getD Uint256.null, mutated)

/-- The loop of `GetMerkleBranch`. -/
def branchLoop (vMerkleTree : List Uint256) (j nSize nIndex : Nat) : Option (List Uint256) :=
  if 1 < nSize then do
    let i := min (nIndex ^^^ 1) (nSize - 1)
    let other ← vMerkleTree[j + i]?
    let rest ← branchLoop vMerkleTree (j + nSize) ((nSize + 1) / 2) (nIndex >>> 1)
    pure (other :: rest)
  else some []
termination_by nSize

/-- The array is built where there is none yet. -/
def withMerkleTree (hashes : Digests) (block : CachedBlock) : Option CachedBlock :=
  if block.vMerkleTree.isEmpty then (block.buildMerkleTree hashes).map Prod.fst else some block

def getMerkleBranch (hashes : Digests) (block : CachedBlock) (nIndex : Nat) :
    Option (List Uint256 × CachedBlock) := do
  let block ← block.withMerkleTree hashes
  let vMerkleBranch ← branchLoop block.vMerkleTree 0 block.vtx.length nIndex
  pure (vMerkleBranch, block)

/-! ## The array lists the levels -/

variable {hashPair : Uint256 → Uint256 → Uint256} {hashes : Digests} {block : CachedBlock}

/-- All the levels over some hashes, one after the other. -/
def levels (hashPair : Uint256 → Uint256 → Uint256) (level : List Uint256) : List Uint256 :=
  if 2 ≤ level.length then level ++ levels hashPair (HashTree.levelUp hashPair level) else level
termination_by level.length
decreasing_by
  rw [HashTree.length_levelUp]
  omega

theorem merkleLevel_snd_cons_cons (left right : Uint256) (rest : List Uint256) :
    (merkleLevel hashPair (left :: right :: rest)).2 =
      ((rest.isEmpty && left == right) || (merkleLevel hashPair rest).2) := by
  cases rest with
  | nil => simp [merkleLevel]
  | cons next rest => rfl

/-- The loop reads the level two by two and appends the hashes of the pairs. -/
theorem hashLevel_eq (front done rest out : List Uint256) (mutated : Bool) :
    hashLevel hashPair front.length (done.length + rest.length) done.length
        (front ++ (done ++ rest) ++ out) mutated =
      some (front ++ (done ++ rest) ++ (out ++ HashTree.levelUp hashPair rest),
        mutated || (merkleLevel hashPair rest).2) := by
  induction rest using HashTree.pairs.induct generalizing done out mutated with
  | case1 =>
      rw [hashLevel, if_neg (by simp)]
      simp [HashTree.levelUp, HashTree.pairs, merkleLevel]
  | case2 last =>
      have place : (front ++ (done ++ [last]) ++ out)[front.length + done.length]? = some last := by
        rw [List.append_assoc, List.getElem?_append_right (by omega), List.append_assoc,
          List.getElem?_append_right (by omega)]
        simp
      have own : min (done.length + 1) (done.length + [last].length - 1) = done.length := by
        rw [List.length_singleton]
        omega
      rw [hashLevel, if_pos (by simp)]
      simp only [own, place, Option.bind_eq_bind, Option.bind_some]
      rw [hashLevel, if_neg (by rw [List.length_singleton]; omega)]
      simp [HashTree.levelUp, HashTree.pairs, merkleLevel]
  | case3 left right rest ih =>
      have whole : done ++ left :: right :: rest = done ++ [left, right] ++ rest := by simp
      have first : (front ++ (done ++ left :: right :: rest) ++ out)[front.length + done.length]? =
          some left := by
        rw [List.append_assoc, List.getElem?_append_right (by omega), List.append_assoc,
          List.getElem?_append_right (by omega)]
        simp
      have second : (front ++ (done ++ left :: right :: rest) ++ out)[front.length +
          (done.length + 1)]? = some right := by
        rw [List.append_assoc, List.getElem?_append_right (by omega), List.append_assoc,
          List.getElem?_append_right (by omega)]
        simp
      have next : min (done.length + 1) (done.length + (left :: right :: rest).length - 1) =
          done.length + 1 := by
        rw [List.length_cons, List.length_cons]
        omega
      have last : (done.length + 1 + 1 == done.length + (left :: right :: rest).length) =
          rest.isEmpty := by
        cases rest with
        | nil => simp
        | cons next tail =>
            simp only [List.length_cons, List.isEmpty_cons, beq_eq_false_iff_ne]
            omega
      have later := ih (done ++ [left, right]) (out ++ [hashPair left right])
        (mutated || (rest.isEmpty && left == right))
      have size : (done ++ [left, right]).length + rest.length =
          done.length + (left :: right :: rest).length := by
        simp only [List.length_append, List.length_cons, List.length_nil]
        omega
      rw [hashLevel, if_pos (by simp)]
      simp only [next, first, second, last, Option.bind_eq_bind, Option.bind_some, beq_self_eq_true,
        Bool.true_and]
      have length : (done ++ [left, right]).length = done.length + 2 := by simp
      rw [size, ← whole, length] at later
      rw [merkleLevel_snd_cons_cons, HashTree.levelUp_cons_cons, List.append_assoc, later]
      simp [Bool.or_assoc]

theorem hashLevels_eq {fuel : Nat} {level : List Uint256} (enough : level.length ≤ fuel + 1)
    (front : List Uint256) (mutated : Bool) :
    hashLevels hashPair front.length level.length (front ++ level) mutated =
        some (front ++ levels hashPair level, mutated || (merkleLoop hashPair fuel level).2) ∧
      (levels hashPair level).getLast?.getD Uint256.null = (merkleLoop hashPair fuel level).1 := by
  induction fuel generalizing level front mutated with
  | zero =>
      rw [hashLevels, if_neg (by omega), levels, if_neg (by omega)]
      cases level with
      | nil => simp [merkleLoop]
      | cons first rest =>
          cases rest with
          | nil => simp [merkleLoop]
          | cons second rest => simp at enough
  | succ fuel ih =>
      by_cases several : 2 ≤ level.length
      · have up := @HashTree.length_levelUp _ hashPair level
        have inner := @hashLevel_eq hashPair front [] level [] mutated
        simp only [List.length_nil, Nat.zero_add, List.nil_append, List.append_nil] at inner
        obtain ⟨outer, root⟩ := ih (show (HashTree.levelUp hashPair level).length ≤ fuel + 1 by omega)
          (front ++ level) (mutated || (merkleLevel hashPair level).2)
        have step : merkleLoop hashPair (fuel + 1) level =
            ((merkleLoop hashPair fuel (HashTree.levelUp hashPair level)).1,
              (merkleLevel hashPair level).2 ||
                (merkleLoop hashPair fuel (HashTree.levelUp hashPair level)).2) := by
          rw [← (merkleLevel_eq level).1]
          cases level with
          | nil => simp at several
          | cons first rest =>
              cases rest with
              | nil => simp at several
              | cons second rest => rfl
        rw [List.length_append, up] at outer
        rw [hashLevels, if_pos (by omega), levels, if_pos several, step]
        simp only [inner, Option.bind_eq_bind, Option.bind_some]
        constructor
        · rw [outer, List.append_assoc, Bool.or_assoc]
        · rw [← root, List.getLast?_append]
          have nonempty : (levels hashPair (HashTree.levelUp hashPair level)).getLast? ≠ none := by
            rw [ne_eq, List.getLast?_eq_none_iff, levels]
            intro empty
            have count := congrArg List.length empty
            split at count
            · rw [List.length_append, List.length_nil, up] at count
              omega
            · rw [up, List.length_nil] at count
              omega
          cases top : (levels hashPair (HashTree.levelUp hashPair level)).getLast? with
          | none => exact absurd top nonempty
          | some root => rfl
      · rw [hashLevels, if_neg (by omega), levels, if_neg several]
        cases level with
        | nil => simp [merkleLoop]
        | cons first rest =>
            cases rest with
            | nil => simp [merkleLoop]
            | cons second rest => simp at several

/-- `BuildMerkleTree` over the array finds the root and the flag of the hash tree. -/
theorem buildMerkleTree_eq (hashes : Digests) (block : CachedBlock) :
    block.buildMerkleTree hashes = some
      ({ block with vMerkleTree := levels hashes.hashPair block.txids },
        block.toCBlock.buildMerkleTree hashes) := by
  have length : block.txids.length = block.vtx.length := by simp [CBlock.txids]
  obtain ⟨run, root⟩ := @hashLevels_eq hashes.hashPair block.vtx.length block.txids (by omega) [] false
  simp only [List.length_nil, List.nil_append, length, Bool.false_or] at run
  rw [buildMerkleTree, run]
  simp only [Option.bind_eq_bind, Option.bind_some, root]
  rfl

theorem branchLoop_eq {fuel : Nat} {level : List Uint256} (enough : level.length ≤ fuel + 1)
    (front : List Uint256) (nIndex : Nat) :
    branchLoop (front ++ levels hashPair level) front.length level.length nIndex =
      some (merkleBranchLoop hashPair fuel level nIndex) := by
  induction fuel generalizing level front nIndex with
  | zero =>
      rw [branchLoop, if_neg (by omega)]
      cases level with
      | nil => simp [merkleBranchLoop]
      | cons first rest =>
          cases rest with
          | nil => simp [merkleBranchLoop]
          | cons second rest => simp at enough
  | succ fuel ih =>
      by_cases several : 2 ≤ level.length
      · have up := @HashTree.length_levelUp _ hashPair level
        have later := ih (show (HashTree.levelUp hashPair level).length ≤ fuel + 1 by omega)
          (front ++ level) (nIndex >>> 1)
        rw [List.length_append, up, List.append_assoc] at later
        have within : min (nIndex ^^^ 1) (level.length - 1) < level.length := by omega
        have place : (front ++ (level ++ levels hashPair (HashTree.levelUp hashPair level)))[
            front.length + min (nIndex ^^^ 1) (level.length - 1)]? =
              some (HashTree.sibling Uint256.null level nIndex) := by
          rw [List.getElem?_append_right (by omega), Nat.add_sub_cancel_left,
            List.getElem?_append_left within, HashTree.sibling, List.getD_eq_getElem?_getD,
            List.getElem?_eq_getElem within, Option.getD_some]
        rw [branchLoop, if_pos (by omega), levels, if_pos several,
          merkleBranchLoop_of_several _ several]
        have half : nIndex / 2 = nIndex >>> 1 := (Nat.shiftRight_one nIndex).symm
        rw [half]
        simp only [place, later, Option.bind_eq_bind, Option.bind_some]
        rfl
      · rw [branchLoop, if_neg (by omega)]
        cases level with
        | nil => simp [merkleBranchLoop]
        | cons first rest =>
            cases rest with
            | nil => simp [merkleBranchLoop]
            | cons second rest => simp at several

/-! ## Branches -/

/-- The array is not built yet, or `BuildMerkleTree` left the block as it is. -/
def Fresh (hashes : Digests) (block : CachedBlock) : Prop :=
  block.vMerkleTree = [] ∨
    ∃ before root mutated, buildMerkleTree hashes before = some (block, root, mutated)

theorem withMerkleTree_of_fresh (fresh : block.Fresh hashes) :
    block.withMerkleTree hashes =
      some { block with vMerkleTree := levels hashes.hashPair block.txids } := by
  unfold withMerkleTree
  cases fresh with
  | inl empty =>
      rw [empty, List.isEmpty_nil, if_pos rfl, buildMerkleTree_eq]
      rfl
  | inr built =>
      obtain ⟨before, root, mutated, run⟩ := built
      rw [buildMerkleTree_eq] at run
      have same := congrArg Prod.fst (Option.some.inj run)
      simp only at same
      rw [← same]
      split
      · rw [buildMerkleTree_eq]
        rfl
      · rfl

theorem getMerkleBranch_of_fresh (fresh : block.Fresh hashes) (nIndex : Nat) :
    block.getMerkleBranch hashes nIndex =
      some (block.toCBlock.getMerkleBranch hashes nIndex,
        { block with vMerkleTree := levels hashes.hashPair block.txids }) := by
  have length : block.txids.length = block.vtx.length := by simp [CBlock.txids]
  have run := @branchLoop_eq hashes.hashPair block.vtx.length block.txids (by omega) [] nIndex
  simp only [List.length_nil, List.nil_append, length] at run
  rw [getMerkleBranch, withMerkleTree_of_fresh fresh]
  simp only [Option.bind_eq_bind, Option.bind_some, run]
  rfl

end CachedBlock

/-- The pairs that `CheckMerkleBranch` hashes. -/
def branchPairs (hashes : Digests) (hash : Uint256) :
    List Uint256 → Int → List (Uint256 × Uint256)
  | [], _ => []
  | other :: rest, nIndex =>
      let pair := if nIndex % 2 = 1 then (other, hash) else (hash, other)
      pair :: branchPairs hashes (hashes.hashPair pair.1 pair.2) rest (nIndex / 2)

/-- No pair hashed for the one hash collides with a pair hashed for the other. -/
def NoCollision (hashes : Digests) (vMerkleBranch : List Uint256) (nIndex : Int)
    (hash hash' : Uint256) : Prop :=
  ∀ pair ∈ branchPairs hashes hash vMerkleBranch nIndex,
    ∀ pair' ∈ branchPairs hashes hash' vMerkleBranch nIndex,
      hashes.hashPair pair.1 pair.2 = hashes.hashPair pair'.1 pair'.2 → pair = pair'

/-- Two hashes that a branch leads to one root are equal, from the root downwards. -/
theorem eq_of_foldMerkleBranch_eq {hashes : Digests} {vMerkleBranch : List Uint256} {nIndex : Int}
    {hash hash' : Uint256} (apart : NoCollision hashes vMerkleBranch nIndex hash hash')
    (same : CBlock.foldMerkleBranch hashes hash vMerkleBranch nIndex =
      CBlock.foldMerkleBranch hashes hash' vMerkleBranch nIndex) : hash = hash' := by
  induction vMerkleBranch generalizing nIndex hash hash' with
  | nil => exact same
  | cons other rest ih =>
      rw [CBlock.foldMerkleBranch, CBlock.foldMerkleBranch] at same
      by_cases odd : nIndex % 2 = 1
      · rw [if_pos odd, if_pos odd] at same
        have above := ih (fun pair member pair' member' => apart pair
          (by rw [branchPairs, if_pos odd]; exact List.mem_cons_of_mem _ member) pair'
          (by rw [branchPairs, if_pos odd]; exact List.mem_cons_of_mem _ member')) same
        have pairs := apart (other, hash) (by rw [branchPairs, if_pos odd]; exact List.mem_cons_self)
          (other, hash') (by rw [branchPairs, if_pos odd]; exact List.mem_cons_self) above
        exact congrArg Prod.snd pairs
      · rw [if_neg odd, if_neg odd] at same
        have above := ih (fun pair member pair' member' => apart pair
          (by rw [branchPairs, if_neg odd]; exact List.mem_cons_of_mem _ member) pair'
          (by rw [branchPairs, if_neg odd]; exact List.mem_cons_of_mem _ member')) same
        have pairs := apart (hash, other) (by rw [branchPairs, if_neg odd]; exact List.mem_cons_self)
          (hash', other) (by rw [branchPairs, if_neg odd]; exact List.mem_cons_self) above
        exact congrArg Prod.fst pairs

/-- The branch of a transaction leads its hash, and no other, to the root. -/
theorem merkleBranch_exact {hashes : Digests} {block : CachedBlock} (fresh : block.Fresh hashes)
    {nIndex : Nat} {tx : CTransaction} (found : block.vtx[nIndex]? = some tx) :
    ∃ vMerkleBranch read built root mutated,
      block.getMerkleBranch hashes nIndex = some (vMerkleBranch, read) ∧
      block.buildMerkleTree hashes = some (built, root, mutated) ∧
      CBlock.checkMerkleBranch hashes tx.hash vMerkleBranch nIndex = root ∧
      ∀ hash, NoCollision hashes vMerkleBranch nIndex hash tx.hash →
        CBlock.checkMerkleBranch hashes hash vMerkleBranch nIndex = root → hash = tx.hash := by
  have leaf : block.txids[nIndex]? = some tx.hash := by
    rw [CBlock.txids, List.getElem?_map, found]
    rfl
  have verified := @checkMerkleBranch_getMerkleBranch hashes nIndex tx.hash block.toCBlock leaf
  refine ⟨block.toCBlock.getMerkleBranch hashes nIndex, _, _,
    (block.toCBlock.buildMerkleTree hashes).1, (block.toCBlock.buildMerkleTree hashes).2,
    CachedBlock.getMerkleBranch_of_fresh fresh nIndex,
    CachedBlock.buildMerkleTree_eq hashes block, verified, ?_⟩
  intro hash apart same
  rw [← verified, CBlock.checkMerkleBranch, CBlock.checkMerkleBranch, if_neg (by omega),
    if_neg (by omega)] at same
  exact eq_of_foldMerkleBranch_eq apart same

def threeTransactions : CachedBlock :=
  { nVersion := 2, hashPrevBlock := 1, hashMerkleRoot := 0, nTime := 0, nBits := 0, nNonce := 0,
    vtx := [3, 4, 5].map fun hash => smallTransaction fun _ => hash
    vMerkleTree := [] }

def addingHashes : Digests where
  getHash := fun _ => 1
  getPoWHash := fun _ => 1
  hashPair := fun left right => ⟨2 * left.value + right.value⟩

theorem merkleBranch_exact_last :
    ∃ vMerkleBranch read built root mutated,
      threeTransactions.getMerkleBranch addingHashes 2 = some (vMerkleBranch, read) ∧
      threeTransactions.buildMerkleTree addingHashes = some (built, root, mutated) ∧
      CBlock.checkMerkleBranch addingHashes 5 vMerkleBranch 2 = root ∧
      ∀ hash, NoCollision addingHashes vMerkleBranch 2 hash 5 →
        CBlock.checkMerkleBranch addingHashes hash vMerkleBranch 2 = root → hash = 5 :=
  @merkleBranch_exact addingHashes threeTransactions (Or.inl rfl) 2 (smallTransaction fun _ => 5) rfl

end Lycancoin
