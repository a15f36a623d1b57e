import Lycancoin.Chain.HeaderRun
import Lycancoin.Data.KeyedBatch
import Lycancoin.Wallet.WalletTx

namespace Lycancoin

open Std Data

/-- A chain whose entries are in the index, each the predecessor of the one before. -/
def ChainLinked (index : BlockMap) : CChain → Prop
  | [] => False
  | [hash] => ∃ pindex, index[hash]? = some pindex ∧ pindex.pprev = none
  | hash :: prev :: rest =>
      (∃ pindex, index[hash]? = some pindex ∧ pindex.pprev = some prev) ∧
        ChainLinked index (prev :: rest)

namespace ChainLinked

variable {index after : BlockMap} {chain rest below : CChain} {hash : Uint256}
  {pindex : CBlockIndex} {place nHeight : Nat}

theorem mono (linked : ChainLinked index chain)
    (kept : ∀ (hash : Uint256) (pindex : CBlockIndex), index[hash]? = some pindex →
      after[hash]? = some pindex) : ChainLinked after chain := by
  induction chain using ChainLinked.induct with
  | case1 => exact linked
  | case2 hash =>
      obtain ⟨pindex, found, root⟩ := linked
      exact ⟨pindex, kept _ _ found, root⟩
  | case3 hash prev rest ih =>
      obtain ⟨⟨pindex, found, parent⟩, others⟩ := linked
      exact ⟨⟨pindex, kept _ _ found, parent⟩, ih others⟩

theorem head (linked : ChainLinked index (hash :: rest)) :
    ∃ pindex, index[hash]? = some pindex ∧ pindex.pprev = rest.head? := by
  cases rest with
  | nil => exact linked
  | cons prev rest => exact linked.1

theorem tail (linked : ChainLinked index (hash :: rest)) (more : rest ≠ []) :
    ChainLinked index rest := by
  cases rest with
  | nil => contradiction
  | cons prev rest => exact linked.2

theorem cons (linked : ChainLinked index chain) (found : index[hash]? = some pindex)
    (pprev : pindex.pprev = chain.head?) : ChainLinked index (hash :: chain) := by
  cases chain with
  | nil => exact linked.elim
  | cons prev rest => exact ⟨⟨pindex, found, pprev⟩, linked⟩

theorem unique (linked : ChainLinked index (hash :: rest))
    (other : ChainLinked index (hash :: below)) : below = rest := by
  induction rest generalizing hash below with
  | nil =>
      obtain ⟨pindex, found, root⟩ := linked.head
      obtain ⟨same, again, pprev⟩ := other.head
      rw [found] at again
      cases again
      rw [root] at pprev
      exact List.head?_eq_none_iff.mp pprev.symm
  | cons prev rest ih =>
      obtain ⟨pindex, found, parent⟩ := linked.head
      obtain ⟨same, again, pprev⟩ := other.head
      rw [found] at again
      cases again
      cases below with
      | nil =>
          rw [parent] at pprev
          contradiction
      | cons prevBelow below =>
          rw [parent] at pprev
          cases pprev
          rw [ih (linked.tail (List.cons_ne_nil _ _)) (other.tail (List.cons_ne_nil _ _))]

theorem nHeight_head (linked : ChainLinked index (hash :: rest)) (indexed : PredecessorsIndexed index)
    (found : index[hash]? = some pindex) : pindex.nHeight = rest.length := by
  induction rest generalizing hash pindex with
  | nil =>
      obtain ⟨same, again, root⟩ := linked
      rw [found] at again
      cases again
      have lowest := indexed hash pindex found
      simp only [root] at lowest
      exact lowest
  | cons prev rest ih =>
      obtain ⟨same, again, parent⟩ := linked.1
      rw [found] at again
      cases again
      have above := indexed hash pindex found
      simp only [parent] at above
      obtain ⟨pprev, prevFound, height⟩ := above
      rw [height, ih linked.2 prevFound, List.length_cons]

theorem drop (linked : ChainLinked index chain) (within : place < chain.length) :
    ChainLinked index (chain.drop place) := by
  induction place generalizing chain with
  | zero => exact linked
  | succ place ih =>
      cases chain with
      | nil => contradiction
      | cons hash rest =>
          rw [List.length_cons] at within
          exact ih (linked.tail (List.ne_nil_of_length_pos (by omega))) (by omega)

theorem nHeight_eq (linked : ChainLinked index chain) (indexed : PredecessorsIndexed index)
    (stands : chain.atHeight nHeight = some hash) (found : index[hash]? = some pindex) :
    pindex.nHeight = nHeight := by
  have within := (List.getElem?_eq_some_iff.mp stands).1
  rw [List.length_reverse] at within
  rw [CChain.atHeight, List.getElem?_reverse within] at stands
  obtain ⟨bound, same⟩ := List.getElem?_eq_some_iff.mp stands
  have suffix := linked.drop bound
  rw [List.drop_eq_getElem_cons bound, same] at suffix
  rw [suffix.nHeight_head indexed found, List.length_drop]
  omega

theorem exists_atHeight (member : hash ∈ chain) : ∃ nHeight, chain.atHeight nHeight = some hash := by
  obtain ⟨nHeight, stands⟩ := List.getElem?_of_mem (List.mem_reverse.mpr member)
  exact ⟨nHeight, stands⟩

theorem mem_of_atHeight (stands : chain.atHeight nHeight = some hash) : hash ∈ chain :=
  List.mem_reverse.mp (List.mem_of_getElem? stands)

theorem contains_iff (linked : ChainLinked index chain) (indexed : PredecessorsIndexed index)
    (found : index[hash]? = some pindex) : chain.contains hash pindex = true ↔ hash ∈ chain := by
  rw [CChain.contains, beq_iff_eq]
  constructor
  · exact mem_of_atHeight
  · intro member
    obtain ⟨nHeight, stands⟩ := exists_atHeight member
    rw [linked.nHeight_eq indexed stands found]
    exact stands

end ChainLinked

/-! What a transaction of the wallet says of its block. -/

section Place

variable {hashes : Digests} {read : Uint256 → Option CBlock} {known : Set CTransaction}
  {index after : BlockMap} {chain : CChain} {wtx : CWalletTx} {tx : CTransaction} {block : CBlock}
  {nHeight : Nat}

structure InBlock (hashes : Digests) (read : Uint256 → Option CBlock) (known : Set CTransaction)
    (index : BlockMap) (wtx : CWalletTx) (block : CBlock) : Prop where
  notNull : wtx.hashBlock ≠ Uint256.null
  stored : read wtx.hashBlock = some block
  root : ∃ pindex, index[wtx.hashBlock]? = some pindex ∧
    pindex.hashMerkleRoot = (block.buildMerkleTree hashes).1
  branch : ∃ nIndex : Nat, wtx.nIndex = nIndex ∧ block.txids[nIndex]? = some wtx.tx.hash ∧
    wtx.vMerkleBranch = block.getMerkleBranch hashes nIndex
  known : ∀ tx ∈ block.vtx, tx ∈ known

def Placed (hashes : Digests) (read : Uint256 → Option CBlock) (known : Set CTransaction)
    (index : BlockMap) (wtx : CWalletTx) : Prop :=
  wtx.hashBlock = Uint256.null ∨ ∃ block, InBlock hashes read known index wtx block

theorem Placed.mono (placed : Placed hashes read known index wtx)
    (kept : ∀ (hash : Uint256) (pindex : CBlockIndex), index[hash]? = some pindex →
      after[hash]? = some pindex) : Placed hashes read known after wtx := by
  rcases placed with null | ⟨block, inBlock⟩
  · exact .inl null
  · obtain ⟨pindex, found, root⟩ := inBlock.root
    exact .inr ⟨block, { inBlock with root := ⟨pindex, kept _ _ found, root⟩ }⟩

/-- `GetDepthInMainChainINTERNAL` of a transaction whose block is active. -/
theorem InBlock.depth_of_active (inBlock : InBlock hashes read known index wtx block)
    (linked : ChainLinked index chain) (indexed : PredecessorsIndexed index)
    (stands : chain.atHeight nHeight = some wtx.hashBlock) :
    (wtx.getDepthInMainChainINTERNAL hashes index chain).1 = chain.height - nHeight + 1 := by
  obtain ⟨pindex, found, root⟩ := inBlock.root
  obtain ⟨nIndex, isIndex, member, branch⟩ := inBlock.branch
  have notNull : wtx.hashBlock.isNull = false := by
    rw [Uint256.isNull, beq_eq_false_iff_ne]
    exact inBlock.notNull
  have indexSet : (wtx.nIndex == -1) = false := by
    rw [isIndex, beq_eq_false_iff_ne]
    omega
  have active : chain.contains wtx.hashBlock pindex = true :=
    (linked.contains_iff indexed found).mpr (ChainLinked.mem_of_atHeight stands)
  have verified : CBlock.checkMerkleBranch hashes wtx.tx.hash wtx.vMerkleBranch wtx.nIndex =
      pindex.hashMerkleRoot := by
    rw [isIndex, branch, root]
    exact checkMerkleBranch_getMerkleBranch member
  simp only [CWalletTx.getDepthInMainChainINTERNAL, notNull, indexSet, found, active, verified,
    bne_self_eq_false, Bool.and_false, Bool.or_false, Bool.not_true, Bool.false_eq_true, if_false]
  rw [linked.nHeight_eq indexed stands found]

theorem CWalletTx.depth_of_null (null : wtx.hashBlock = Uint256.null) :
    (wtx.getDepthInMainChainINTERNAL hashes index chain).1 = 0 := by
  simp [CWalletTx.getDepthInMainChainINTERNAL, null, Uint256.isNull]

theorem InBlock.depth_of_not_active (inBlock : InBlock hashes read known index wtx block)
    (linked : ChainLinked index chain) (indexed : PredecessorsIndexed index)
    (inactive : wtx.hashBlock ∉ chain) :
    (wtx.getDepthInMainChainINTERNAL hashes index chain).1 = 0 := by
  obtain ⟨pindex, found, root⟩ := inBlock.root
  have outside : chain.contains wtx.hashBlock pindex = false := by
    rw [← Bool.not_eq_true, linked.contains_iff indexed found]
    exact inactive
  unfold CWalletTx.getDepthInMainChainINTERNAL
  split
  · rfl
  · simp only [found, outside, Bool.not_false, if_true]

theorem CWalletTx.getDepthInMainChainINTERNAL_snd (hashes : Digests) (index : BlockMap)
    (chain : CChain) (wtx : CWalletTx) :
    ∃ fMerkleVerified, (wtx.getDepthInMainChainINTERNAL hashes index chain).2 =
      { wtx with fMerkleVerified } := by
  unfold CWalletTx.getDepthInMainChainINTERNAL
  split
  · exact ⟨wtx.fMerkleVerified, rfl⟩
  · split
    · exact ⟨wtx.fMerkleVerified, rfl⟩
    · split
      · exact ⟨wtx.fMerkleVerified, rfl⟩
      · split
        · exact ⟨wtx.fMerkleVerified, rfl⟩
        · exact ⟨true, rfl⟩

theorem CWalletTx.tx_getDepthInMainChainINTERNAL (hashes : Digests) (index : BlockMap)
    (chain : CChain) (wtx : CWalletTx) :
    (wtx.getDepthInMainChainINTERNAL hashes index chain).2.tx = wtx.tx := by
  obtain ⟨fMerkleVerified, same⟩ := wtx.getDepthInMainChainINTERNAL_snd hashes index chain
  rw [same]

theorem CWalletTx.getDepthInMainChain_snd (hashes : Digests) (index : BlockMap) (chain : CChain)
    (mempool : CTxMemPool) (wtx : CWalletTx) :
    ∃ fMerkleVerified, (wtx.getDepthInMainChain hashes index chain mempool).2 =
      { wtx with fMerkleVerified } := by
  obtain ⟨fMerkleVerified, same⟩ := wtx.getDepthInMainChainINTERNAL_snd hashes index chain
  refine ⟨fMerkleVerified, ?_⟩
  rw [CWalletTx.getDepthInMainChain]
  dsimp only
  split <;> exact same

end Place

/-! What `AddToWallet` leaves. -/

section Add

variable {hashes : Digests} {wtx : CWalletTx} {tx : CTransaction} {block : CBlock}
  {mapWallet : WalletMap} {txid : Uint256}

/-- The entry for a transaction that was found in a block. -/
theorem CWalletTx.ofSync_block (member : tx ∈ block.vtx) :
    ∃ nIndex : Nat, block.txids[nIndex]? = some tx.hash ∧
      CWalletTx.ofSync hashes tx (some block) =
        { tx
          hashBlock := hashes.getHash block.toCBlockHeader
          vMerkleBranch := block.getMerkleBranch hashes nIndex
          nIndex
          fMerkleVerified := false } := by
  cases located : block.vtx.findIdx? fun other => other.hash == tx.hash with
  | none =>
      have missed := List.findIdx?_eq_none_iff.mp located tx member
      simp at missed
  | some nIndex =>
      obtain ⟨bound, same, _⟩ := List.findIdx?_eq_some_iff_getElem.mp located
      refine ⟨nIndex, ?_, ?_⟩
      · rw [CBlock.txids, List.getElem?_map, List.getElem?_eq_getElem bound]
        exact congrArg some (beq_iff_eq.mp same)
      · simp only [CWalletTx.ofSync, CWalletTx.setMerkleBranch, CWalletTx.ofTx, located]

/-- What an entry says of its block after it was found in one. -/
theorem CWalletTx.merge_block (wtx : CWalletTx) {wtxIn : CWalletTx}
    (notNull : wtxIn.hashBlock ≠ Uint256.null) (indexed : wtxIn.nIndex ≠ -1) :
    wtx.merge wtxIn = { wtx with
      hashBlock := wtxIn.hashBlock
      vMerkleBranch := wtxIn.vMerkleBranch
      nIndex := wtxIn.nIndex } := by
  have given : wtxIn.hashBlock.isNull = false := by
    rw [Uint256.isNull, beq_eq_false_iff_ne]
    exact notNull
  have set : (wtxIn.nIndex != -1) = true := bne_iff_ne.mpr indexed
  obtain ⟨tx, hashBlock, vMerkleBranch, nIndex, fMerkleVerified⟩ := wtx
  simp only [CWalletTx.merge, given, set, Bool.not_false, Bool.true_and]
  by_cases sameBlock : wtxIn.hashBlock = hashBlock <;>
    by_cases sameBranch : wtxIn.vMerkleBranch = vMerkleBranch <;>
      by_cases sameIndex : wtxIn.nIndex = nIndex <;> simp [sameBlock, sameBranch, sameIndex]

theorem WalletMap.getElem?_addToWallet (mapWallet : WalletMap) (wtxIn : CWalletTx) (txid : Uint256) :
    (mapWallet.addToWallet wtxIn)[txid]? =
      if txid = wtxIn.tx.hash then
        some ((mapWallet[txid]?).elim wtxIn fun wtx => wtx.merge wtxIn)
      else mapWallet[txid]? := by
  rw [WalletMap.addToWallet]
  split
  · rename_i absent
    rw [KeyedBatch.getElem?_insert_eq]
    split
    · rename_i here
      rw [here, absent]
      rfl
    · rfl
  · rename_i wtx present
    rw [KeyedBatch.getElem?_insert_eq]
    split
    · rename_i here
      rw [here, present]
      rfl
    · rfl

end Add

end Lycancoin
