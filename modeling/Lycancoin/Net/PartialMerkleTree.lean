import Lycancoin.Consensus.MerkleRoot
import Lycancoin.Data.BitBytes
import Lycancoin.Data.PartialTree
import Lycancoin.Primitives.RoundTrip

namespace Lycancoin

open Lycancoin.Data

/-- A subset of the transactions of a block, with the hashes that lead from them
to the merkle root.  Positions in a level and in the two vectors are numbers
without a limit, as none that occurs reaches `2 ^ 32`. -/
structure CPartialMerkleTree where
  nTransactions : UInt32
  vBits : List Bool
  vHash : List Uint256
  fBad : Bool
deriving DecidableEq, Repr

namespace CPartialMerkleTree

section Building

def calcTreeWidth (nTransactions : UInt32) (height : Nat) : UInt32 :=
  (nTransactions + (1 <<< UInt32.ofNat height) - 1) >>> UInt32.ofNat height

def heightLoop (nTransactions : UInt32) : Nat → Nat → Nat
  | 0, nHeight => nHeight
  | fuel + 1, nHeight =>
      if 1 < calcTreeWidth nTransactions nHeight then heightLoop nTransactions fuel (nHeight + 1)
      else nHeight

/-- The height of the tree.  No height above 31 is reached. -/
def treeHeight (nTransactions : UInt32) : Nat := heightLoop nTransactions 32 0

variable (hashes : Digests) (vTxid : List Uint256) (vMatch : List Bool)

/-- `CalcHash`, or nothing where it reads behind the end of the list. -/
def calcHash (nTransactions : UInt32) : Nat → Nat → Option Uint256
  | 0, pos => vTxid[pos]?
  | height + 1, pos => do
      let left ← calcHash nTransactions height (pos * 2)
      if pos * 2 + 1 < (calcTreeWidth nTransactions height).toNat then do
        let right ← calcHash nTransactions height (pos * 2 + 1)
        pure (hashes.hashPair left right)
      else pure (hashes.hashPair left left)

/-- The loop over the transactions below a node. -/
def parentOfMatch (nTransactions : UInt32) (height pos : Nat) : Option Bool :=
  let first := pos <<< height
  let last := min ((pos + 1) <<< height) nTransactions.toNat
  (List.range' first (last - first)).foldlM (fun fParentOfMatch p => do
    let matched ← vMatch[p]?
    pure (fParentOfMatch || matched)) false

def traverseAndBuild : Nat → Nat → CPartialMerkleTree → Option CPartialMerkleTree
  | 0, pos, tree => do
      let fParentOfMatch ← parentOfMatch vMatch tree.nTransactions 0 pos
      let hash ← calcHash hashes vTxid tree.nTransactions 0 pos
      pure { tree with vBits := tree.vBits ++ [fParentOfMatch], vHash := tree.vHash ++ [hash] }
  | height + 1, pos, tree => do
      let fParentOfMatch ← parentOfMatch vMatch tree.nTransactions (height + 1) pos
      if !fParentOfMatch then do
        let hash ← calcHash hashes vTxid tree.nTransactions (height + 1) pos
        pure { tree with vBits := tree.vBits ++ [fParentOfMatch], vHash := tree.vHash ++ [hash] }
      else do
        let tree ← traverseAndBuild height (pos * 2)
          { tree with vBits := tree.vBits ++ [fParentOfMatch] }
        if pos * 2 + 1 < (calcTreeWidth tree.nTransactions height).toNat then
          traverseAndBuild height (pos * 2 + 1) tree
        else pure tree

/-- The constructor from a list of transactions and a mask. -/
def ofMatch : Option CPartialMerkleTree :=
  let nTransactions := UInt32.ofNat vTxid.length
  traverseAndBuild hashes vTxid vMatch (treeHeight nTransactions) 0
    { nTransactions, vBits := [], vHash := [], fBad := false }

end Building

section Serialization

variable (tree : CPartialMerkleTree)

/-- The bits, eight in a byte and the lowest first. -/
def vBytes : List UInt8 := packBits tree.vBits

def serialize : List UInt8 :=
  serializeUInt32 tree.nTransactions ++ serializeVector Uint256.serialize tree.vHash ++
    (writeCompactSize tree.vBytes.length ++ tree.vBytes)

def unserialize (sizeofUint256 : ElementSize) : ByteReader CPartialMerkleTree := do
  let nTransactions ← unserializeUInt32
  let vHash ← unserializeVector sizeofUint256 Uint256.unserialize
  let vBytes ← unserializeBytes
  pure { nTransactions, vBits := vBytes.flatMap bitsOf, vHash, fBad := false }

end Serialization

section Extracting

/-- The variables of the extraction. -/
structure Traversal where
  tree : CPartialMerkleTree
  nBitsUsed : Nat
  nHashUsed : Nat
  vMatch : List Uint256
deriving DecidableEq, Repr

namespace Traversal

def setBad (s : Traversal) : Traversal := { s with tree.fBad := true }

/-- The stored hash of a node whose children are not visited. -/
def useStoredHash (matched : Bool) (s : Traversal) : Option (Uint256 × Traversal) :=
  if s.tree.vHash.length ≤ s.nHashUsed then some (Uint256.null, s.setBad)
  else do
    let hash ← s.tree.vHash[s.nHashUsed]?
    pure (hash, { s with
      nHashUsed := s.nHashUsed + 1
      vMatch := if matched then s.vMatch ++ [hash] else s.vMatch })

end Traversal

variable (hashes : Digests)

/-- `TraverseAndExtract`, or nothing where it reads behind the end of a vector. -/
def traverseAndExtract : Nat → Nat → Traversal → Option (Uint256 × Traversal)
  | height, pos, s =>
      if s.tree.vBits.length ≤ s.nBitsUsed then some (Uint256.null, s.setBad)
      else do
        let fParentOfMatch ← s.tree.vBits[s.nBitsUsed]?
        let s := { s with nBitsUsed := s.nBitsUsed + 1 }
        match height with
        | 0 => s.useStoredHash fParentOfMatch
        | height + 1 =>
            if !fParentOfMatch then s.useStoredHash false
            else do
              let (left, s) ← traverseAndExtract height (pos * 2) s
              if pos * 2 + 1 < (calcTreeWidth s.tree.nTransactions height).toNat then do
                let (right, s) ← traverseAndExtract height (pos * 2 + 1) s
                pure (hashes.hashPair left right, if right == left then s.setBad else s)
              else pure (hashes.hashPair left left, s)

/-- `ExtractMatches`: the root, the matches, and the tree with its flag. -/
def extractMatches (tree : CPartialMerkleTree) :
    Option (Uint256 × List Uint256 × CPartialMerkleTree) :=
  if tree.nTransactions = 0 then some (Uint256.null, [], tree)
  else if MAX_BLOCK_SIZE / 60 < tree.nTransactions.toNat then some (Uint256.null, [], tree)
  else if tree.nTransactions.toNat < tree.vHash.length then some (Uint256.null, [], tree)
  else if tree.vBits.length < tree.vHash.length then some (Uint256.null, [], tree)
  else do
    let (hashMerkleRoot, s) ← traverseAndExtract hashes (treeHeight tree.nTransactions) 0
      { tree, nBitsUsed := 0, nHashUsed := 0, vMatch := [] }
    if s.tree.fBad then pure (Uint256.null, s.vMatch, s.tree)
    else if (s.nBitsUsed + 7) / 8 ≠ (s.tree.vBits.length + 7) / 8 then
      pure (Uint256.null, s.vMatch, s.tree)
    else if s.nHashUsed ≠ s.tree.vHash.length then pure (Uint256.null, s.vMatch, s.tree)
    else pure (hashMerkleRoot, s.vMatch, s.tree)

end Extracting

section Widths

variable {nTransactions : UInt32} {height pos : Nat}

theorem toNat_calcTreeWidth (low : height < 32) :
    (calcTreeWidth nTransactions height).toNat =
      (nTransactions.toNat + 2 ^ height + (2 ^ 32 - 1)) % 2 ^ 32 / 2 ^ height := by
  have shift : (UInt32.ofNat height).toNat % 32 = height := by
    rw [UInt32.toNat_ofNat']
    omega
  have power : 2 ^ height < 2 ^ 32 := Nat.pow_lt_pow_right Nat.one_lt_two low
  have one : ((1 : UInt32) <<< UInt32.ofNat height).toNat = 2 ^ height := by
    rw [UInt32.toNat_shiftLeft, shift, UInt32.toNat_one, Nat.shiftLeft_eq, Nat.one_mul,
      Nat.mod_eq_of_lt power]
  rw [calcTreeWidth, UInt32.toNat_shiftRight, shift, Nat.shiftRight_eq_div_pow, UInt32.toNat_sub,
    UInt32.toNat_add, one, UInt32.toNat_one]
  have sum : (2 ^ 32 - 1 + (nTransactions.toNat + 2 ^ height) % 2 ^ 32) % 2 ^ 32 =
      (nTransactions.toNat + 2 ^ height + (2 ^ 32 - 1)) % 2 ^ 32 := by
    omega
  rw [sum]

/-- Without an overflow the width is the number of nodes of a level. -/
theorem calcTreeWidth_of_small (small : nTransactions.toNat ≤ 2 ^ 31) (low : height < 32) :
    (calcTreeWidth nTransactions height).toNat =
      (nTransactions.toNat + 2 ^ height - 1) / 2 ^ height := by
  have power : 2 ^ height ≤ 2 ^ 31 := Nat.pow_le_pow_right (by decide) (by omega)
  have positive : 0 < 2 ^ height := Nat.two_pow_pos _
  have sum : (nTransactions.toNat + 2 ^ height + (2 ^ 32 - 1)) % 2 ^ 32 =
      nTransactions.toNat + 2 ^ height - 1 := by
    omega
  rw [toNat_calcTreeWidth low, sum]

theorem calcTreeWidth_top (nTransactions : UInt32) : ¬1 < calcTreeWidth nTransactions 31 := by
  rw [UInt32.lt_iff_toNat_lt, toNat_calcTreeWidth (by decide), UInt32.toNat_one]
  omega

theorem heightLoop_spec {fuel nHeight : Nat} (enough : nHeight + fuel = 32) (low : nHeight ≤ 31)
    (wide : ∀ lower < nHeight, 1 < calcTreeWidth nTransactions lower) :
    heightLoop nTransactions fuel nHeight ≤ 31 ∧
      ¬1 < calcTreeWidth nTransactions (heightLoop nTransactions fuel nHeight) ∧
      ∀ lower < heightLoop nTransactions fuel nHeight, 1 < calcTreeWidth nTransactions lower := by
  induction fuel generalizing nHeight with
  | zero => omega
  | succ fuel ih =>
      rw [heightLoop]
      split
      · rename_i more
        have below : nHeight ≠ 31 := by
          intro top
          rw [top] at more
          exact calcTreeWidth_top nTransactions more
        refine ih (by omega) (by omega) fun lower bound => ?_
        rcases Nat.lt_succ_iff_lt_or_eq.mp bound with smaller | rfl
        · exact wide lower smaller
        · exact more
      · rename_i narrow
        exact ⟨low, narrow, wide⟩

/-- The search for the height ends at the first level with one node. -/
theorem treeHeight_spec (nTransactions : UInt32) :
    treeHeight nTransactions ≤ 31 ∧
      ¬1 < calcTreeWidth nTransactions (treeHeight nTransactions) ∧
      ∀ lower < treeHeight nTransactions, 1 < calcTreeWidth nTransactions lower :=
  heightLoop_spec rfl (Nat.zero_le _) fun _ impossible => absurd impossible (Nat.not_lt_zero _)

theorem treeHeight_covers (positive : 0 < nTransactions.toNat)
    (small : nTransactions.toNat ≤ 2 ^ 31) :
    nTransactions.toNat ≤ 2 ^ treeHeight nTransactions ∧
      (treeHeight nTransactions = 0 ∨ 2 ^ (treeHeight nTransactions - 1) < nTransactions.toNat) := by
  obtain ⟨low, narrow, wide⟩ := treeHeight_spec nTransactions
  constructor
  · rw [UInt32.lt_iff_toNat_lt, calcTreeWidth_of_small small (by omega), UInt32.toNat_one,
      Nat.not_lt] at narrow
    have power : 0 < 2 ^ treeHeight nTransactions := Nat.two_pow_pos _
    have quotient := Nat.lt_succ_of_le narrow
    rw [Nat.div_lt_iff_lt_mul power] at quotient
    omega
  · rcases Nat.eq_zero_or_pos (treeHeight nTransactions) with zero | above
    · exact Or.inl zero
    · right
      have more := wide (treeHeight nTransactions - 1) (by omega)
      have power : 0 < 2 ^ (treeHeight nTransactions - 1) := Nat.two_pow_pos _
      rw [UInt32.lt_iff_toNat_lt, calcTreeWidth_of_small small (by omega), UInt32.toNat_one] at more
      have two := Nat.succ_le_of_lt more
      rw [Nat.le_div_iff_mul_le power] at two
      omega

/-- The number of transactions below a node. -/
def covered (count height pos : Nat) : Nat := min (2 ^ height) (count - pos * 2 ^ height)

theorem covered_succ (count height pos : Nat) :
    covered count (height + 1) pos = min (2 ^ height * 2) (count - pos * 2 * 2 ^ height) := by
  have start : pos * (2 ^ height * 2) = pos * 2 * 2 ^ height := by ring
  rw [covered, pow_succ, start]

theorem covered_left (count height pos : Nat) :
    covered count height (pos * 2) = min (2 ^ height) (covered count (height + 1) pos) := by
  rw [covered_succ, covered]
  omega

theorem covered_right (count height pos : Nat) :
    covered count height (pos * 2 + 1) = covered count (height + 1) pos - 2 ^ height := by
  have start : (pos * 2 + 1) * 2 ^ height = pos * 2 * 2 ^ height + 2 ^ height := by ring
  rw [covered_succ, covered, start]
  omega

/-- A node has a right child where its left one is full. -/
theorem right_exists_iff (small : nTransactions.toNat ≤ 2 ^ 31) (low : height < 32) :
    pos * 2 + 1 < (calcTreeWidth nTransactions height).toNat ↔
      ¬covered nTransactions.toNat (height + 1) pos ≤ 2 ^ height := by
  have power : 0 < 2 ^ height := Nat.two_pow_pos _
  have double : (pos * 2 + 1 + 1) * 2 ^ height = pos * 2 * 2 ^ height + 2 ^ height + 2 ^ height := by
    ring
  rw [calcTreeWidth_of_small small low, Nat.lt_iff_add_one_le, Nat.le_div_iff_mul_le power, double,
    covered_succ]
  omega

end Widths

section Traversing

variable {hashes : Digests} {height pos : Nat} {s : Traversal}

theorem read_cases {α : Type} (values : List α) (used : Nat) :
    (values.length ≤ used ∧ values.drop used = []) ∨
      ∃ value, ¬values.length ≤ used ∧ values[used]? = some value ∧
        values.drop used = value :: values.drop (used + 1) := by
  by_cases behind : values.length ≤ used
  · exact Or.inl ⟨behind, List.drop_eq_nil_of_le behind⟩
  · have inside : used < values.length := Nat.lt_of_not_le behind
    exact Or.inr ⟨values[used], behind, List.getElem?_eq_getElem inside,
      List.drop_eq_getElem_cons inside⟩

namespace Traversal

def remainingBits (s : Traversal) : List Bool := s.tree.vBits.drop s.nBitsUsed

def remainingHashes (s : Traversal) : List Uint256 := s.tree.vHash.drop s.nHashUsed

/-- The variables after a part of the tree has been read. -/
def after (hashes : Digests) (s : Traversal) (part : PartialTree Uint256) : Traversal where
  tree := { s.tree with fBad := s.tree.fBad || !part.distinct hashes.hashPair }
  nBitsUsed := s.nBitsUsed + part.bits.length
  nHashUsed := s.nHashUsed + part.hashes.length
  vMatch := s.vMatch ++ part.found

theorem useStoredHash_cases (matched : Bool) (s : Traversal) :
    (s.remainingHashes = [] ∧ s.useStoredHash matched = some (Uint256.null, s.setBad)) ∨
      ∃ hash rest, s.remainingHashes = hash :: rest ∧
        s.useStoredHash matched = some (hash, { s with
          nHashUsed := s.nHashUsed + 1
          vMatch := s.vMatch ++ if matched then [hash] else [] }) := by
  rcases read_cases s.tree.vHash s.nHashUsed with ⟨behind, empty⟩ | ⟨hash, inside, read, rest⟩
  · exact Or.inl ⟨empty, if_pos behind⟩
  · refine Or.inr ⟨hash, _, rest, ?_⟩
    rw [useStoredHash, if_neg inside, read]
    cases matched
    · simp
    · rfl

end Traversal

/-- The traversal never reads behind the end of a vector, and it keeps a raised
flag. -/
theorem exists_traverseAndExtract (hashes : Digests) (height pos : Nat) (s : Traversal) :
    ∃ hash after, traverseAndExtract hashes height pos s = some (hash, after) ∧
      (s.tree.fBad = true → after.tree.fBad = true) := by
  induction height generalizing pos s with
  | zero =>
      rw [traverseAndExtract]
      rcases read_cases s.tree.vBits s.nBitsUsed with ⟨behind, _⟩ | ⟨bit, inside, read, _⟩
      · rw [if_pos behind]
        exact ⟨_, _, rfl, fun _ => rfl⟩
      · rw [if_neg inside, read]
        rcases Traversal.useStoredHash_cases bit { s with nBitsUsed := s.nBitsUsed + 1 } with
          ⟨_, returned⟩ | ⟨hash, _, _, returned⟩
        · exact ⟨_, _, returned, fun _ => rfl⟩
        · exact ⟨_, _, returned, id⟩
  | succ height ih =>
      rw [traverseAndExtract]
      rcases read_cases s.tree.vBits s.nBitsUsed with ⟨behind, _⟩ | ⟨bit, inside, read, _⟩
      · rw [if_pos behind]
        exact ⟨_, _, rfl, fun _ => rfl⟩
      · rw [if_neg inside, read]
        cases bit with
        | false =>
            rcases Traversal.useStoredHash_cases false { s with nBitsUsed := s.nBitsUsed + 1 } with
              ⟨_, returned⟩ | ⟨hash, _, _, returned⟩
            · exact ⟨_, _, returned, fun _ => rfl⟩
            · exact ⟨_, _, returned, id⟩
        | true =>
            obtain ⟨left, leftAfter, leftReturned, leftBad⟩ :=
              ih (pos * 2) { s with nBitsUsed := s.nBitsUsed + 1 }
            simp only [Option.bind_eq_bind, Option.bind_some, Bool.not_true, Bool.false_eq_true,
              if_false, leftReturned]
            split
            · obtain ⟨right, rightAfter, rightReturned, rightBad⟩ := ih (pos * 2 + 1) leftAfter
              simp only [rightReturned, Option.bind_some]
              refine ⟨_, _, rfl, fun bad => ?_⟩
              have kept := rightBad (leftBad bad)
              split
              · rfl
              · exact kept
            · exact ⟨_, _, rfl, leftBad⟩

/-- What one call does: it reads the part of the tree that the remaining bits and
hashes begin with, or it raises the flag. -/
inductive Traversed (hashes : Digests) (height count pos : Nat) (s : Traversal) : Prop
  | read {part : PartialTree Uint256} {bits : List Bool} {rest : List Uint256}
      (decoded : PartialTree.decode height count s.remainingBits s.remainingHashes =
        some (part, bits, rest))
      (returned : traverseAndExtract hashes height pos s =
        some (part.root hashes.hashPair, s.after hashes part))
  | failed {hash : Uint256} {after : Traversal}
      (decoded : PartialTree.decode height count s.remainingBits s.remainingHashes = none)
      (returned : traverseAndExtract hashes height pos s = some (hash, after))
      (bad : after.tree.fBad = true)

theorem remaining_after {part : PartialTree Uint256} {bits : List Bool} {rest : List Uint256}
    (bitsLeft : s.remainingBits = part.bits ++ bits)
    (hashesLeft : s.remainingHashes = part.hashes ++ rest) :
    (s.after hashes part).remainingBits = bits ∧ (s.after hashes part).remainingHashes = rest := by
  constructor
  · change s.tree.vBits.drop (s.nBitsUsed + part.bits.length) = bits
    rw [← List.drop_drop, ← Traversal.remainingBits, bitsLeft, List.drop_left]
  · change s.tree.vHash.drop (s.nHashUsed + part.hashes.length) = rest
    rw [← List.drop_drop, ← Traversal.remainingHashes, hashesLeft, List.drop_left]

theorem traversed_end {count : Nat} {bit matched : Bool} {build : Uint256 → PartialTree Uint256}
    (stored : traverseAndExtract hashes height pos s =
      Traversal.useStoredHash matched { s with nBitsUsed := s.nBitsUsed + 1 })
    (noHash : s.remainingHashes = [] →
      PartialTree.decode height count s.remainingBits s.remainingHashes = none)
    (oneHash : ∀ hash rest, s.remainingHashes = hash :: rest →
      PartialTree.decode height count s.remainingBits s.remainingHashes =
        some (build hash, s.tree.vBits.drop (s.nBitsUsed + 1), rest))
    (built : ∀ hash, (build hash).bits = [bit] ∧ (build hash).hashes = [hash] ∧
      (build hash).found = (if matched then [hash] else []) ∧
      (build hash).distinct hashes.hashPair = true ∧ (build hash).root hashes.hashPair = hash) :
    Traversed hashes height count pos s := by
  rcases Traversal.useStoredHash_cases matched { s with nBitsUsed := s.nBitsUsed + 1 } with
    ⟨none, returned⟩ | ⟨hash, rest, one, returned⟩
  · exact .failed (noHash none) (stored.trans returned) rfl
  · obtain ⟨bits, ends, found, distinct, root⟩ := built hash
    apply Traversed.read (oneHash hash rest one)
    rw [stored, returned, root, Traversal.after, bits, ends, found, distinct]
    simp

/-- The variables after the flag bit of a node. -/
def Traversal.afterBit (s : Traversal) : Traversal := { s with nBitsUsed := s.nBitsUsed + 1 }

theorem Traversal.tree_afterBit (s : Traversal) : s.afterBit.tree = s.tree := rfl

theorem Traversal.nTransactions_after (hashes : Digests) (s : Traversal)
    (part : PartialTree Uint256) :
    (s.after hashes part).tree.nTransactions = s.tree.nTransactions := rfl

/-- The two calls for the children of a node. -/
theorem traverseAndExtract_children
    (bits : s.remainingBits = true :: s.afterBit.remainingBits) :
    traverseAndExtract hashes (height + 1) pos s =
      (traverseAndExtract hashes height (pos * 2) s.afterBit).bind fun left =>
        if pos * 2 + 1 < (calcTreeWidth left.2.tree.nTransactions height).toNat then
          (traverseAndExtract hashes height (pos * 2 + 1) left.2).bind fun right =>
            some (hashes.hashPair left.1 right.1,
              if right.1 == left.1 then right.2.setBad else right.2)
        else some (hashes.hashPair left.1 left.1, left.2) := by
  rw [traverseAndExtract]
  rcases read_cases s.tree.vBits s.nBitsUsed with ⟨_, empty⟩ | ⟨bit, inside, read, rest⟩
  · rw [Traversal.remainingBits, empty] at bits
    contradiction
  · rw [Traversal.remainingBits, rest] at bits
    rw [if_neg inside, read, (List.cons.inj bits).1]
    rfl

theorem failed_of_left {hash : Uint256} {after : Traversal}
    (bits : s.remainingBits = true :: s.afterBit.remainingBits)
    (left : traverseAndExtract hashes height (pos * 2) s.afterBit = some (hash, after))
    (bad : after.tree.fBad = true) :
    ∃ hash after, traverseAndExtract hashes (height + 1) pos s = some (hash, after) ∧
      after.tree.fBad = true := by
  rw [traverseAndExtract_children bits, left, Option.bind_some]
  split
  · obtain ⟨right, rightAfter, returned, kept⟩ :=
      exists_traverseAndExtract hashes height (pos * 2 + 1) after
    rw [returned, Option.bind_some]
    refine ⟨_, _, rfl, ?_⟩
    split
    · rfl
    · exact kept bad
  · exact ⟨_, _, rfl, bad⟩

theorem traversed_single {count : Nat} (fits : count ≤ 2 ^ height)
    (bits : s.remainingBits = true :: s.afterBit.remainingBits)
    (narrow : ¬pos * 2 + 1 < (calcTreeWidth s.tree.nTransactions height).toNat)
    (below : Traversed hashes height count (pos * 2) s.afterBit) :
    Traversed hashes (height + 1) count pos s := by
  have decode : PartialTree.decode (height + 1) count s.remainingBits s.remainingHashes =
      (PartialTree.decode height count s.afterBit.remainingBits
        s.afterBit.remainingHashes).bind fun child => some (.single child.1, child.2) := by
    rw [bits, PartialTree.decode, if_pos fits]
    rfl
  cases below with
  | read decoded returned =>
      rename_i part moreBits rest
      refine @Traversed.read _ _ _ _ _ (.single part) moreBits rest ?_ ?_
      · rw [decode, decoded]
        rfl
      · rw [traverseAndExtract_children bits, returned, Option.bind_some]
        refine (if_neg narrow).trans ?_
        simp [Traversal.after, Traversal.afterBit, PartialTree.root, PartialTree.bits,
          PartialTree.hashes, PartialTree.found, PartialTree.distinct, Nat.add_assoc, Nat.add_comm]
  | failed decoded returned bad =>
      obtain ⟨_, _, returned, bad⟩ := failed_of_left bits returned bad
      refine .failed ?_ returned bad
      rw [decode, decoded]
      rfl

theorem traversed_fork {count : Nat} (large : ¬count ≤ 2 ^ height)
    (bits : s.remainingBits = true :: s.afterBit.remainingBits)
    (wide : pos * 2 + 1 < (calcTreeWidth s.tree.nTransactions height).toNat)
    (left : Traversed hashes height (2 ^ height) (pos * 2) s.afterBit)
    (right : ∀ part, Traversed hashes height (count - 2 ^ height) (pos * 2 + 1)
      (s.afterBit.after hashes part)) :
    Traversed hashes (height + 1) count pos s := by
  have decode : PartialTree.decode (height + 1) count s.remainingBits s.remainingHashes =
      (PartialTree.decode height (2 ^ height) s.afterBit.remainingBits
        s.afterBit.remainingHashes).bind fun left =>
          (PartialTree.decode height (count - 2 ^ height) left.2.1 left.2.2).bind fun right =>
            some (.fork left.1 right.1, right.2) := by
    rw [bits, PartialTree.decode, if_neg large]
    rfl
  cases left with
  | failed decoded returned bad =>
      obtain ⟨_, _, returned, bad⟩ := failed_of_left bits returned bad
      refine .failed ?_ returned bad
      rw [decode, decoded]
      rfl
  | read leftDecoded leftReturned =>
      rename_i part moreBits moreHashes
      obtain ⟨_, bitsLeft, hashesLeft⟩ :=
        PartialTree.fits_of_decode (Nat.two_pow_pos _) le_rfl leftDecoded
      obtain ⟨bitsAfter, hashesAfter⟩ := remaining_after bitsLeft hashesLeft
      have returned : traverseAndExtract hashes (height + 1) pos s =
          (traverseAndExtract hashes height (pos * 2 + 1) (s.afterBit.after hashes part)).bind
            fun right => some (hashes.hashPair (part.root hashes.hashPair) right.1,
              if right.1 == part.root hashes.hashPair then right.2.setBad else right.2) := by
        rw [traverseAndExtract_children bits, leftReturned, Option.bind_some]
        exact if_pos wide
      rw [leftDecoded, Option.bind_some] at decode
      rw [← bitsAfter, ← hashesAfter] at decode
      cases right part with
      | failed decoded rightReturned bad =>
          rw [rightReturned, Option.bind_some] at returned
          refine .failed ?_ returned ?_
          · rw [decode, decoded]
            rfl
          · split
            · rfl
            · exact bad
      | read decoded rightReturned =>
          rename_i other lastBits lastHashes
          refine @Traversed.read _ _ _ _ _ (.fork part other) lastBits lastHashes ?_ ?_
          · rw [decode, decoded]
            rfl
          · rw [returned, rightReturned, Option.bind_some]
            cases equal : other.root hashes.hashPair == part.root hashes.hashPair <;>
              simp [equal, bne, Traversal.after, Traversal.afterBit, Traversal.setBad,
                PartialTree.root, PartialTree.bits, PartialTree.hashes, PartialTree.found,
                PartialTree.distinct, Nat.add_assoc, Nat.add_comm, Bool.or_assoc]

theorem traversed (small : s.tree.nTransactions.toNat ≤ 2 ^ 31) (low : height < 32)
    (positive : 0 < covered s.tree.nTransactions.toNat height pos) :
    Traversed hashes height (covered s.tree.nTransactions.toNat height pos) pos s := by
  induction height generalizing pos s with
  | zero =>
      rcases read_cases s.tree.vBits s.nBitsUsed with ⟨behind, empty⟩ | ⟨bit, inside, read, rest⟩
      · refine .failed ?_ ((traverseAndExtract.eq_def ..).trans (if_pos behind)) rfl
        rw [Traversal.remainingBits, empty, PartialTree.decode]
        all_goals simp
      · refine @traversed_end _ 0 pos s _ bit bit (fun hash => .leaf hash bit) ?_ ?_ ?_ ?_
        · rw [traverseAndExtract, if_neg inside, read]
          rfl
        · intro none
          rw [none, Traversal.remainingBits, rest, PartialTree.decode]
          all_goals simp
        · intro hash others one
          rw [one, Traversal.remainingBits, rest, PartialTree.decode]
        · intro hash
          exact ⟨rfl, rfl, rfl, rfl, rfl⟩
  | succ height ih =>
      rcases read_cases s.tree.vBits s.nBitsUsed with ⟨behind, empty⟩ | ⟨bit, inside, read, rest⟩
      · refine .failed ?_ ((traverseAndExtract.eq_def ..).trans (if_pos behind)) rfl
        rw [Traversal.remainingBits, empty, PartialTree.decode]
        all_goals simp
      · cases bit with
        | false =>
            refine @traversed_end _ (height + 1) pos s _ false false (fun hash => .pruned hash) ?_ ?_
              ?_ ?_
            · rw [traverseAndExtract, if_neg inside, read]
              rfl
            · intro none
              rw [none, Traversal.remainingBits, rest, PartialTree.decode]
              all_goals simp
            · intro hash others one
              rw [one, Traversal.remainingBits, rest, PartialTree.decode]
            · intro hash
              exact ⟨rfl, rfl, rfl, rfl, rfl⟩
        | true =>
            have bits : s.remainingBits = true :: s.afterBit.remainingBits := rest
            have exists_right := @right_exists_iff s.tree.nTransactions height pos small (by omega)
            by_cases fits : covered s.tree.nTransactions.toNat (height + 1) pos ≤ 2 ^ height
            · have child := @ih (pos * 2) s.afterBit small (by omega)
              rw [Traversal.tree_afterBit, covered_left, min_eq_right fits] at child
              exact traversed_single fits bits (fun wide => exists_right.mp wide fits)
                (child positive)
            · have left := @ih (pos * 2) s.afterBit small (by omega)
              rw [Traversal.tree_afterBit, covered_left, min_eq_left (Nat.le_of_not_le fits)] at left
              refine traversed_fork fits bits (exists_right.mpr fits) (left (Nat.two_pow_pos _))
                fun part => ?_
              have right := @ih (pos * 2 + 1) (s.afterBit.after hashes part) small (by omega)
              rw [Traversal.nTransactions_after, Traversal.tree_afterBit, covered_right] at right
              exact right (Nat.sub_pos_of_lt (Nat.lt_of_not_le fits))

end Traversing

section Segments

variable {α : Type}

def segment (leaves : List α) (height pos : Nat) : List α :=
  (leaves.drop (pos * 2 ^ height)).take (2 ^ height)

@[simp] theorem length_segment (leaves : List α) (height pos : Nat) :
    (segment leaves height pos).length = covered leaves.length height pos := by
  rw [segment, List.length_take, List.length_drop, covered]

theorem take_segment (leaves : List α) (height pos : Nat) :
    (segment leaves (height + 1) pos).take (2 ^ height) = segment leaves height (pos * 2) := by
  have start : pos * 2 ^ (height + 1) = pos * 2 * 2 ^ height := by ring
  have least : min (2 ^ height) (2 ^ (height + 1)) = 2 ^ height :=
    min_eq_left (Nat.pow_le_pow_right (by decide) (Nat.le_succ height))
  rw [segment, segment, List.take_take, start, least]

theorem drop_segment (leaves : List α) (height pos : Nat) :
    (segment leaves (height + 1) pos).drop (2 ^ height) = segment leaves height (pos * 2 + 1) := by
  have start : pos * 2 ^ (height + 1) + 2 ^ height = (pos * 2 + 1) * 2 ^ height := by ring
  have rest : 2 ^ (height + 1) - 2 ^ height = 2 ^ height := by
    rw [pow_succ]
    omega
  rw [segment, segment, List.drop_take, List.drop_drop, start, rest]

theorem map_segment {β : Type} (f : α → β) (leaves : List α) (height pos : Nat) :
    (segment leaves height pos).map f = segment (leaves.map f) height pos := by
  rw [segment, segment, List.map_take, List.map_drop]

end Segments

section BuildSpec

variable {hashes : Digests} {vTxid : List Uint256} {vMatch : List Bool} {nTransactions : UInt32}
  {height pos : Nat}

theorem calcHash_eq (size : vTxid.length = nTransactions.toNat)
    (small : nTransactions.toNat ≤ 2 ^ 31) (low : height < 32)
    (positive : 0 < covered nTransactions.toNat height pos) :
    calcHash hashes vTxid nTransactions height pos =
      some (HashTree.rootOf hashes.hashPair height (segment vTxid height pos)) := by
  induction height generalizing pos with
  | zero =>
      have inside : pos < vTxid.length := by
        rw [covered, pow_zero, Nat.mul_one] at positive
        omega
      rw [calcHash, segment, pow_zero, Nat.mul_one, List.getElem?_eq_getElem inside,
        List.drop_eq_getElem_cons inside]
      rfl
  | succ height ih =>
      have exists_right := @right_exists_iff nTransactions height pos small (by omega)
      have power : 0 < 2 ^ height := Nat.two_pow_pos _
      have left := @ih (pos * 2) (by omega) (by rw [covered_left]; omega)
      have length : (segment vTxid (height + 1) pos).length =
          covered nTransactions.toNat (height + 1) pos := by
        rw [length_segment, size]
      rw [calcHash, left]
      by_cases fits : covered nTransactions.toNat (height + 1) pos ≤ 2 ^ height
      · rw [← length] at fits
        rw [HashTree.rootOf_small fits, ← take_segment, List.take_of_length_le fits]
        rw [length] at fits
        exact if_neg fun wide => exists_right.mp wide fits
      · have right := @ih (pos * 2 + 1) (by omega) (by rw [covered_right]; omega)
        have large : ¬(segment vTxid (height + 1) pos).length ≤ 2 ^ height := by rwa [length]
        rw [HashTree.rootOf_large large, take_segment, drop_segment, right]
        exact if_pos (exists_right.mpr fits)

theorem foldlM_or {start count : Nat} {found : Bool} (inside : start + count ≤ vMatch.length) :
    (List.range' start count).foldlM (fun fParentOfMatch p => do
      let matched ← vMatch[p]?
      pure (fParentOfMatch || matched)) found =
        some (found || ((vMatch.drop start).take count).any id) := by
  induction count generalizing start found with
  | zero => simp
  | succ count ih =>
      have here : start < vMatch.length := by omega
      rw [List.range'_succ, List.foldlM_cons, List.getElem?_eq_getElem here,
        List.drop_eq_getElem_cons here, List.take_succ_cons, List.any_cons, ← Bool.or_assoc]
      exact ih (by omega)

theorem parentOfMatch_eq (size : vMatch.length = nTransactions.toNat) :
    parentOfMatch vMatch nTransactions height pos = some ((segment vMatch height pos).any id) := by
  have last : (pos + 1) <<< height = pos * 2 ^ height + 2 ^ height := by
    rw [Nat.shiftLeft_eq, Nat.add_mul, Nat.one_mul]
  rw [parentOfMatch, Nat.shiftLeft_eq, last]
  by_cases behind : vMatch.length ≤ pos * 2 ^ height
  · have none : min (pos * 2 ^ height + 2 ^ height) nTransactions.toNat - pos * 2 ^ height = 0 := by
      omega
    rw [none, segment, List.drop_eq_nil_of_le behind]
    simp
  · have least : (vMatch.drop (pos * 2 ^ height)).take
        (min (pos * 2 ^ height + 2 ^ height) nTransactions.toNat - pos * 2 ^ height) =
          segment vMatch height pos := by
      have power : 0 < 2 ^ height := Nat.two_pow_pos _
      rw [segment, List.take_eq_take_iff, List.length_drop]
      omega
    rw [foldlM_or (by omega), least, Bool.false_or]

theorem traverseAndBuild_eq (idSize : vTxid.length = nTransactions.toNat)
    (matchSize : vMatch.length = nTransactions.toNat) (small : nTransactions.toNat ≤ 2 ^ 31)
    (low : height < 32) (positive : 0 < covered nTransactions.toNat height pos)
    {tree : CPartialMerkleTree} (same : tree.nTransactions = nTransactions) :
    traverseAndBuild hashes vTxid vMatch height pos tree =
      some { tree with
        vBits := tree.vBits ++ (PartialTree.prune hashes.hashPair height
          (segment (vTxid.zip vMatch) height pos)).bits
        vHash := tree.vHash ++ (PartialTree.prune hashes.hashPair height
          (segment (vTxid.zip vMatch) height pos)).hashes } := by
  have ids : ∀ height pos, (segment (vTxid.zip vMatch) height pos).map Prod.fst =
      segment vTxid height pos := by
    intro height pos
    rw [map_segment, List.map_fst_zip (by omega)]
  have marks : ∀ height pos, (segment (vTxid.zip vMatch) height pos).any Prod.snd =
      (segment vMatch height pos).any id := by
    intro height pos
    have second : segment vMatch height pos =
        (segment (vTxid.zip vMatch) height pos).map Prod.snd := by
      rw [map_segment, List.map_snd_zip (by omega)]
    rw [second, List.any_map]
    rfl
  induction height generalizing pos tree with
  | zero =>
      rw [traverseAndBuild, same, parentOfMatch_eq matchSize, calcHash_eq idSize small low positive,
        PartialTree.prune, ids, marks]
      rfl
  | succ height ih =>
      subst same
      have exists_right := @right_exists_iff tree.nTransactions height pos small (by omega)
      have power : 0 < 2 ^ height := Nat.two_pow_pos _
      have length : (segment (vTxid.zip vMatch) (height + 1) pos).length =
          covered tree.nTransactions.toNat (height + 1) pos := by
        rw [length_segment, List.length_zip, idSize, matchSize, min_self]
      rw [traverseAndBuild, parentOfMatch_eq matchSize, PartialTree.prune, marks, ids]
      cases (segment vMatch (height + 1) pos).any id with
      | false =>
          rw [calcHash_eq idSize small low positive]
          rfl
      | true =>
          have left := @ih (pos * 2) (by omega) (by rw [covered_left]; omega)
            { tree with vBits := tree.vBits ++ [true] } rfl
          simp only [Option.bind_eq_bind, Option.bind_some, Bool.not_true, Bool.false_eq_true,
            if_false, if_true]
          rw [left, Option.bind_some]
          by_cases fits : covered tree.nTransactions.toNat (height + 1) pos ≤ 2 ^ height
          · have narrow : ¬pos * 2 + 1 < (calcTreeWidth tree.nTransactions height).toNat :=
              fun wide => exists_right.mp wide fits
            rw [← length] at fits
            refine (if_neg narrow).trans ?_
            rw [if_pos fits, ← take_segment, List.take_of_length_le fits, PartialTree.bits,
              PartialTree.hashes, List.append_assoc]
            rfl
          · have wide : pos * 2 + 1 < (calcTreeWidth tree.nTransactions height).toNat :=
              exists_right.mpr fits
            rw [← length] at fits
            rw [if_neg fits, take_segment, drop_segment, PartialTree.bits, PartialTree.hashes]
            refine ((if_pos wide).trans (ih ?_ ?_ ?_)).trans ?_
            · omega
            · rw [covered_right, ← length]
              omega
            · rfl
            · simp

end BuildSpec

end CPartialMerkleTree

end Lycancoin
