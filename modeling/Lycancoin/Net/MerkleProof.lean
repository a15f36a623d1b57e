import Lycancoin.Net.PartialMerkleTree

namespace Lycancoin

open Lycancoin.Data

namespace CPartialMerkleTree

section Extraction

variable {hashes : Digests} {tree after : CPartialMerkleTree} {root : Uint256}
  {matched : List Uint256}

/-- The part of the hash tree that the bits and hashes describe. -/
def decoded (tree : CPartialMerkleTree) :
    Option (PartialTree Uint256 × List Bool × List Uint256) :=
  PartialTree.decode (treeHeight tree.nTransactions) tree.nTransactions.toNat tree.vBits tree.vHash

/-- The pairs of nodes that the extraction hashes. -/
def combined (hashes : Digests) (tree : CPartialMerkleTree) : List (Uint256 × Uint256) :=
  match tree.decoded with
  | some (part, _) => part.pairs hashes.hashPair
  | none => []

theorem traversed_root (positive : 0 < tree.nTransactions.toNat)
    (small : tree.nTransactions.toNat ≤ 2 ^ 31) :
    Traversed hashes (treeHeight tree.nTransactions) tree.nTransactions.toNat 0
      { tree, nBitsUsed := 0, nHashUsed := 0, vMatch := [] } := by
  have bound := (treeHeight_covers positive small).1
  have low := (treeHeight_spec tree.nTransactions).1
  have all : covered tree.nTransactions.toNat (treeHeight tree.nTransactions) 0 =
      tree.nTransactions.toNat := by
    rw [covered, Nat.zero_mul, Nat.sub_zero, min_eq_right bound]
  have whole := @traversed hashes (treeHeight tree.nTransactions) 0
    { tree, nBitsUsed := 0, nHashUsed := 0, vMatch := [] } small (by omega)
  rw [all] at whole
  exact whole positive

theorem exists_extractMatches (hashes : Digests) (tree : CPartialMerkleTree) :
    ∃ result, tree.extractMatches hashes = some result := by
  obtain ⟨hash, s, returned, _⟩ := exists_traverseAndExtract hashes
    (treeHeight tree.nTransactions) 0 { tree, nBitsUsed := 0, nHashUsed := 0, vMatch := [] }
  rw [extractMatches, returned]
  simp only [Option.bind_eq_bind, Option.bind_some]
  split_ifs <;> exact ⟨_, rfl⟩

theorem extractMatches_spec (returned : tree.extractMatches hashes = some (root, matched, after))
    (notNull : root ≠ Uint256.null) :
    0 < tree.nTransactions.toNat ∧ tree.nTransactions.toNat ≤ MAX_BLOCK_SIZE / 60 ∧
      ∃ part bits rest, tree.decoded = some (part, bits, rest) ∧
        root = part.root hashes.hashPair ∧ matched = part.found := by
  have nothing : ∀ {vMatch : List Uint256} {left : CPartialMerkleTree},
      some (Uint256.null, vMatch, left) ≠ some (root, matched, after) := by
    intro vMatch left same
    exact notNull (Prod.mk.inj (Option.some.inj same)).1.symm
  rw [extractMatches] at returned
  split at returned
  · exact absurd returned nothing
  rename_i some
  split at returned
  · exact absurd returned nothing
  rename_i bounded
  split at returned
  · exact absurd returned nothing
  split at returned
  · exact absurd returned nothing
  have positive : 0 < tree.nTransactions.toNat := by
    apply Nat.pos_of_ne_zero
    intro zero
    exact some (UInt32.toNat_inj.mp zero)
  have small : tree.nTransactions.toNat ≤ 16666 := Nat.le_of_not_lt bounded
  refine ⟨positive, Nat.le_of_not_lt bounded, ?_⟩
  cases @traversed_root hashes tree positive (by omega) with
  | read decoded traversal =>
      rename_i part bits rest
      rw [traversal] at returned
      simp only [Option.bind_eq_bind, Option.bind_some] at returned
      split at returned
      · exact absurd returned nothing
      split at returned
      · exact absurd returned nothing
      split at returned
      · exact absurd returned nothing
      obtain ⟨rfl, rfl, rfl⟩ := returned
      exact ⟨part, bits, rest, decoded, rfl, rfl⟩
  | failed decoded traversal bad =>
      rw [traversal] at returned
      simp only [Option.bind_eq_bind, Option.bind_some, bad, if_true] at returned
      exact absurd returned nothing

/-- The root of the levels is the root of the tree that the two traversals walk. -/
theorem buildMerkleTree_eq_rootOf (hashes : Digests) {block : CBlock} {nTransactions : UInt32}
    (nonempty : block.vtx ≠ []) (size : nTransactions.toNat = block.vtx.length)
    (small : nTransactions.toNat ≤ 2 ^ 31) :
    (block.buildMerkleTree hashes).1 =
        HashTree.rootOf hashes.hashPair (treeHeight nTransactions) block.txids ∧
      ∀ pair ∈ HashTree.treePairs hashes.hashPair (treeHeight nTransactions) block.txids,
        HashTree.Hashed hashes.hashPair block.txids pair := by
  have positive : 0 < nTransactions.toNat := by
    rw [size]
    exact List.length_pos_iff.mpr nonempty
  have length : block.txids.length = nTransactions.toNat := by
    rw [CBlock.txids, List.length_map, size]
  have someIds : block.txids ≠ [] := List.ne_nil_of_length_pos (by omega)
  obtain ⟨bound, least⟩ := treeHeight_covers positive small
  rw [← length] at bound least
  obtain ⟨top, hashed⟩ := @HashTree.rootOf_level _ hashes.hashPair _ block.txids
    (treeHeight nTransactions) someIds bound least
  have built := (@buildMerkleTree_spec block hashes nonempty).1
  exact ⟨(List.cons.inj (built.root_above top).eq_of_singleton).1.symm, hashed⟩

/-- The traversal ends without reading behind the end of a vector, and matches
that come with the merkle root of a list are transactions of the list, in their
order. -/
theorem extractMatches_sound (hashes : Digests) (tree : CPartialMerkleTree) :
    ¬1 < calcTreeWidth tree.nTransactions (treeHeight tree.nTransactions) ∧
    (∀ height pos s, ∃ hash after, traverseAndExtract hashes height pos s = some (hash, after)) ∧
    (∃ result, tree.extractMatches hashes = some result) ∧
    ∀ (block : CBlock) (vMatch : List Uint256) (after : CPartialMerkleTree), block.vtx ≠ [] →
      tree.nTransactions.toNat = block.vtx.length →
      Set.InjOn (fun pair => hashes.hashPair pair.1 pair.2)
        {pair | HashTree.Hashed hashes.hashPair block.txids pair ∨ pair ∈ tree.combined hashes} →
      (block.buildMerkleTree hashes).1 ≠ Uint256.null →
      tree.extractMatches hashes = some ((block.buildMerkleTree hashes).1, vMatch, after) →
      vMatch.Sublist block.txids := by
  refine ⟨(treeHeight_spec tree.nTransactions).2.1, fun height pos s => ?_,
    exists_extractMatches hashes tree, ?_⟩
  · obtain ⟨hash, after, returned, _⟩ := exists_traverseAndExtract hashes height pos s
    exact ⟨hash, after, returned⟩
  intro block vMatch after nonempty size injective notNull returned
  obtain ⟨positive, small, part, bits, rest, decoded, same, rfl⟩ :=
    extractMatches_spec returned notNull
  have small : tree.nTransactions.toNat ≤ 16666 := small
  obtain ⟨root, hashed⟩ := @buildMerkleTree_eq_rootOf hashes block tree.nTransactions nonempty size
    (by omega)
  have fits := (PartialTree.fits_of_decode positive
    (treeHeight_covers positive (by omega)).1 decoded).1
  have pairs : tree.combined hashes = part.pairs hashes.hashPair := by
    rw [combined, decoded]
  rw [pairs] at injective
  apply PartialTree.found_sublist fits
  · rw [CBlock.txids, List.length_map, size]
  · rw [← same, root]
  · exact injective.mono fun pair member => member.imp_left (hashed pair)

def firstOfTwo : CPartialMerkleTree where
  nTransactions := 2
  vBits := [true, true, false, false, false, false, false, false]
  vHash := [1, 2]
  fBad := false

theorem extractMatches_firstOfTwo_sound : [(1 : Uint256)].Sublist (blockOfTwo 1 2).txids := by
  have combined : firstOfTwo.combined taggedHashes = [(1, 2)] := by decide
  apply (extractMatches_sound taggedHashes firstOfTwo).2.2.2 (blockOfTwo 1 2) [1] firstOfTwo
    (by decide) rfl
  · intro pair hashed other otherHashed _
    rw [combined] at hashed otherHashed
    rw [hashed.elim hashed_blockOfTwo List.mem_singleton.mp,
      otherHashed.elim hashed_blockOfTwo List.mem_singleton.mp]
  · decide
  · decide

end Extraction

section RoundTrip

variable {hashes : Digests}

/-- What comes back from the wire: the bits are filled up to whole bytes. -/
def padded (tree : CPartialMerkleTree) : CPartialMerkleTree :=
  { tree with
    vBits := tree.vBits ++
      List.replicate ((tree.vBits.length + 7) / 8 * 8 - tree.vBits.length) false
    fBad := false }

theorem reads_unserialize (sizeofUint256 : ElementSize) {tree : CPartialMerkleTree}
    (fewHashes : tree.vHash.length ≤ MAX_SIZE) (fewBits : tree.vBits.length ≤ MAX_SIZE) :
    Reads (unserialize sizeofUint256) tree.serialize tree.padded := by
  have count := inverse_unserializeUInt32.reads tree.nTransactions trivial
  have vHash := (inverse_unserializeVector sizeofUint256 inverse_unserializeUint256).reads tree.vHash
    ⟨fewHashes, fun _ _ => trivial⟩
  have vBytes : Reads unserializeBytes (writeCompactSize tree.vBytes.length ++ tree.vBytes)
      tree.vBytes := by
    apply inverse_unserializeScript.reads
    rw [vBytes, length_packBits]
    omega
  have received : tree.padded =
      { nTransactions := tree.nTransactions, vBits := tree.vBytes.flatMap bitsOf,
        vHash := tree.vHash, fBad := false } := by
    rw [CPartialMerkleTree.vBytes, flatMap_packBits]
    rfl
  rw [received, serialize, List.append_assoc]
  exact count.bind (vHash.bind vBytes.bind_pure)

/-- The extraction from a tree that holds the bits and hashes of a part, and less
than a byte of further bits. -/
theorem extractMatches_encoded {part : PartialTree Uint256} {tree : CPartialMerkleTree}
    {padding : List Bool} (positive : 0 < tree.nTransactions.toNat)
    (small : tree.nTransactions.toNat ≤ MAX_BLOCK_SIZE / 60)
    (fits : PartialTree.Fits (treeHeight tree.nTransactions) tree.nTransactions.toNat part)
    (bits : tree.vBits = part.bits ++ padding) (ends : tree.vHash = part.hashes)
    (less : (part.bits.length + 7) / 8 = (part.bits.length + padding.length + 7) / 8)
    (good : tree.fBad = false) (distinct : part.distinct hashes.hashPair = true) :
    tree.extractMatches hashes = some (part.root hashes.hashPair, part.found, tree) := by
  have someTransactions : tree.nTransactions ≠ 0 := by
    intro zero
    rw [zero] at positive
    contradiction
  have fewHashes := fits.length_hashes_le
  have fewer := PartialTree.length_hashes_le_length_bits part
  have bound : tree.nTransactions.toNat ≤ 16666 := small
  have decoded : PartialTree.decode (treeHeight tree.nTransactions) tree.nTransactions.toNat
      tree.vBits tree.vHash = some (part, padding, []) := by
    have encoded := PartialTree.decode_encode fits padding []
    rw [List.append_nil, ← bits, ← ends] at encoded
    exact encoded
  have notMore : ¬tree.nTransactions.toNat < tree.vHash.length := by
    rw [ends]
    omega
  have oneEach : ¬tree.vBits.length < tree.vHash.length := by
    rw [bits, ends, List.length_append]
    omega
  rw [extractMatches, if_neg someTransactions, if_neg (Nat.not_lt.mpr small), if_neg notMore,
    if_neg oneEach]
  cases @traversed_root hashes tree positive (by omega) with
  | failed nothing _ _ =>
      have impossible := nothing.symm.trans decoded
      contradiction
  | read other returned =>
      have same := Option.some.inj (other.symm.trans decoded)
      rw [(Prod.mk.inj same).1] at returned
      have allBits : (0 + part.bits.length + 7) / 8 = (tree.vBits.length + 7) / 8 := by
        rw [bits, List.length_append, Nat.zero_add, less]
      have allHashes : 0 + part.hashes.length = tree.vHash.length := by
        rw [ends, Nat.zero_add]
      rw [returned]
      simp only [Option.bind_eq_bind, Option.bind_some, Traversal.after, distinct, good,
        Bool.not_true, Bool.or_false, List.nil_append, allBits, allHashes]
      rw [if_neg Bool.false_ne_true, if_neg (not_not_intro rfl), if_neg (not_not_intro rfl), ← good]
      rfl

theorem treeHeight_le {nTransactions : UInt32} (positive : 0 < nTransactions.toNat)
    (small : nTransactions.toNat ≤ 16666) : treeHeight nTransactions ≤ 15 := by
  by_contra high
  rcases (treeHeight_covers positive (by omega)).2 with zero | least
  · omega
  · have power : 2 ^ 15 ≤ 2 ^ (treeHeight nTransactions - 1) :=
      Nat.pow_le_pow_right (by decide) (by omega)
    omega

theorem exists_built {block : CBlock} {vMatch : List Bool} (nonempty : 1 ≤ block.vtx.length)
    (small : block.vtx.length ≤ 2 ^ 31) (size : vMatch.length = block.vtx.length)
    (different : block.txids.Nodup)
    (injective : Set.InjOn (fun pair => hashes.hashPair pair.1 pair.2)
      {pair | HashTree.Hashed hashes.hashPair block.txids pair}) :
    ∃ built part, ofMatch hashes block.txids vMatch = some built ∧
      built.nTransactions.toNat = block.vtx.length ∧ built.vBits = part.bits ∧
      built.vHash = part.hashes ∧
      PartialTree.Fits (treeHeight built.nTransactions) block.vtx.length part ∧
      part.root hashes.hashPair = (block.buildMerkleTree hashes).1 ∧
      part.found = ((block.txids.zip vMatch).filter Prod.snd).map Prod.fst ∧
      part.distinct hashes.hashPair = true := by
  have length : block.txids.length = block.vtx.length := List.length_map _
  have count : (UInt32.ofNat block.txids.length).toNat = block.vtx.length := by
    rw [UInt32.toNat_ofNat', length]
    omega
  have zipLength : (block.txids.zip vMatch).length = block.vtx.length := by
    rw [List.length_zip, length, size, min_self]
  have ids : (block.txids.zip vMatch).map Prod.fst = block.txids := List.map_fst_zip (by omega)
  have someMarked : block.txids.zip vMatch ≠ [] := List.ne_nil_of_length_pos (by omega)
  rw [ofMatch]
  generalize UInt32.ofNat block.txids.length = nTransactions at count ⊢
  obtain ⟨root, hashed⟩ := @buildMerkleTree_eq_rootOf hashes block nTransactions
    (List.ne_nil_of_length_pos nonempty) count (by omega)
  have covers := (@treeHeight_covers nTransactions (by omega) (by omega)).1
  have low := (treeHeight_spec nTransactions).1
  have bound : (block.txids.zip vMatch).length ≤ 2 ^ treeHeight nTransactions := by omega
  have whole : segment (block.txids.zip vMatch) (treeHeight nTransactions) 0 =
      block.txids.zip vMatch := by
    rw [segment, Nat.zero_mul, List.drop_zero, List.take_of_length_le bound]
  have built := @traverseAndBuild_eq hashes block.txids vMatch nTransactions
    (treeHeight nTransactions) 0 (length.trans count.symm) (size.trans count.symm) (by omega)
    (by omega) (by rw [covered, Nat.zero_mul]; omega)
    { nTransactions, vBits := [], vHash := [], fBad := false } rfl
  have fits := @PartialTree.fits_prune _ hashes.hashPair _ _ _ someMarked bound
  rw [zipLength] at fits
  rw [whole] at built
  refine ⟨_, _, built, count, rfl, rfl, fits, ?_, PartialTree.found_prune someMarked bound, ?_⟩
  · rw [PartialTree.root_prune, ids, root]
  · apply PartialTree.distinct_prune _ someMarked bound
    · rw [ids]
      exact injective.mono hashed
    · rwa [ids]

/-- Every subset of the transactions of a block survives the way over the wire,
and comes with the merkle root. -/
theorem partialMerkleTree_round_trip (hashes : Digests) (sizeofUint256 : ElementSize)
    (block : CBlock) (vMatch : List Bool) (nonempty : 1 ≤ block.vtx.length)
    (few : block.vtx.length ≤ MAX_BLOCK_SIZE / 60) (size : vMatch.length = block.vtx.length)
    (different : block.txids.Nodup)
    (injective : Set.InjOn (fun pair => hashes.hashPair pair.1 pair.2)
      {pair | HashTree.Hashed hashes.hashPair block.txids pair}) :
    ∃ built received, ofMatch hashes block.txids vMatch = some built ∧
      (∀ trailing, (unserialize sizeofUint256).run (built.serialize ++ trailing) =
        .ok (received, trailing)) ∧
      received.fBad = false ∧
      received.extractMatches hashes = some ((block.buildMerkleTree hashes).1,
        ((block.txids.zip vMatch).filter Prod.snd).map Prod.fst, received) := by
  have bound : block.vtx.length ≤ 16666 := few
  obtain ⟨built, part, returned, count, bits, ends, fits, root, found, distinct⟩ :=
    @exists_built hashes block vMatch nonempty (by omega) size different injective
  rw [← count] at nonempty few fits bound
  have power : 2 ^ (treeHeight built.nTransactions + 1) ≤ 2 ^ 16 := by
    apply Nat.pow_le_pow_right (by decide)
    exact Nat.succ_le_succ (treeHeight_le nonempty bound)
  have fewBits := fits.length_bits_lt
  have fewHashes := fits.length_hashes_le
  have limit : MAX_SIZE = 33554432 := rfl
  have reads := @reads_unserialize sizeofUint256 built (by rw [ends]; omega) (by rw [bits]; omega)
  have extracted := @extractMatches_encoded hashes part built.padded
    (List.replicate ((built.vBits.length + 7) / 8 * 8 - built.vBits.length) false) nonempty few
    fits (by rw [← bits]; rfl) ends (by rw [List.length_replicate, bits]; omega) rfl distinct
  rw [root, found] at extracted
  exact ⟨built, built.padded, returned, reads, rfl, extracted⟩

theorem partialMerkleTree_round_trip_blockOfTwo :
    ∃ built received, ofMatch taggedHashes (blockOfTwo 1 2).txids [false, true] = some built ∧
      (unserialize ⟨32, by decide, by decide⟩).run (built.serialize ++ [7]) =
        .ok (received, [7]) ∧
      received.extractMatches taggedHashes =
        some (((blockOfTwo 1 2).buildMerkleTree taggedHashes).1, [2], received) := by
  obtain ⟨built, received, returned, reads, _, extracted⟩ :=
    partialMerkleTree_round_trip taggedHashes ⟨32, by decide, by decide⟩ (blockOfTwo 1 2)
      [false, true] (by decide) (by decide) rfl (by decide) (by
        intro pair hashed other otherHashed _
        rw [hashed_blockOfTwo hashed, hashed_blockOfTwo otherHashed])
  exact ⟨built, received, returned, reads [7], extracted⟩

end RoundTrip

end CPartialMerkleTree

end Lycancoin
