import Lycancoin.Chain.BlockIndex
import Lycancoin.Consensus.MerkleArray
import Lycancoin.Mempool.TxMemPool

namespace Lycancoin

open Std

/-- `isminetype`. -/
inductive IsMineType where
  | no
  | watchOnly
  | spendable
deriving DecidableEq, Repr

/-- `isminefilter`, bit by bit. -/
structure IsMineFilter where
  watchOnly : Bool
  spendable : Bool
deriving DecidableEq, Repr

namespace IsMineFilter

def ISMINE_SPENDABLE : IsMineFilter := { watchOnly := false, spendable := true }

def ISMINE_ALL : IsMineFilter := { watchOnly := true, spendable := true }

/-- `fIsMine & filter`. -/
def accepts (filter : IsMineFilter) : IsMineType → Bool
  | .no => false
  | .watchOnly => filter.watchOnly
  | .spendable => filter.spendable

end IsMineFilter

/-- A transaction of the wallet and the block that it was last found in.  The times, the order
position and the cached amounts are left out. -/
structure CWalletTx where
  tx : CTransaction
  hashBlock : Uint256
  vMerkleBranch : List Uint256
  nIndex : Int
  fMerkleVerified : Bool
deriving DecidableEq, Repr

abbrev WalletMap := ExtTreeMap Uint256 CWalletTx

/-- `chainActive`, from the tip down to genesis, by the hashes of the blocks. -/
abbrev CChain := List Uint256

namespace CChain

def height (chain : CChain) : Int := (chain.length : Int) - 1

/-- `operator[]`. -/
def atHeight (chain : CChain) (nHeight : Nat) : Option Uint256 := chain.reverse[nHeight]?

/-- `Contains`, of the entry under a hash. -/
def contains (chain : CChain) (hash : Uint256) (pindex : CBlockIndex) : Bool :=
  chain.atHeight pindex.nHeight == some hash

end CChain

namespace CWalletTx

/-- `CMerkleTx(txIn)`. -/
def ofTx (tx : CTransaction) : CWalletTx :=
  { tx
    hashBlock := Uint256.null
    vMerkleBranch := []
    nIndex := -1
    fMerkleVerified := false }

/-- `SetMerkleBranch`.  Its result is the depth, which its caller does not use. -/
def setMerkleBranch (hashes : Digests) (block : CBlock) (wtx : CWalletTx) : CWalletTx :=
  let wtx := { wtx with hashBlock := hashes.getHash block.toCBlockHeader }
  match block.vtx.findIdx? fun tx => tx.hash == wtx.tx.hash with
  | none => { wtx with vMerkleBranch := [], nIndex := -1 }
  | some nIndex => { wtx with vMerkleBranch := block.getMerkleBranch hashes nIndex, nIndex }

/-- What `AddToWallet` takes over from `wtxIn` for a transaction that is there already. -/
def merge (wtx wtxIn : CWalletTx) : CWalletTx :=
  let wtx :=
    if !wtxIn.hashBlock.isNull && wtxIn.hashBlock != wtx.hashBlock then
      { wtx with hashBlock := wtxIn.hashBlock }
    else wtx
  if wtxIn.nIndex != -1 &&
      (wtxIn.vMerkleBranch != wtx.vMerkleBranch || wtxIn.nIndex != wtx.nIndex) then
    { wtx with vMerkleBranch := wtxIn.vMerkleBranch, nIndex := wtxIn.nIndex }
  else wtx

/-- `GetDepthInMainChainINTERNAL`, which also notes that the merkle branch was verified. -/
def getDepthInMainChainINTERNAL (hashes : Digests) (index : BlockMap) (chainActive : CChain)
    (wtx : CWalletTx) : Int × CWalletTx :=
  if wtx.hashBlock.isNull || wtx.nIndex == -1 then (0, wtx)
  else
    match index[wtx.hashBlock]? with
    | none => (0, wtx)
    | some pindex =>
        if !chainActive.contains wtx.hashBlock pindex then (0, wtx)
        else if !wtx.fMerkleVerified &&
            CBlock.checkMerkleBranch hashes wtx.tx.hash wtx.vMerkleBranch wtx.nIndex !=
              pindex.hashMerkleRoot then (0, wtx)
        else (chainActive.height - pindex.nHeight + 1, { wtx with fMerkleVerified := true })

def getDepthInMainChain (hashes : Digests) (index : BlockMap) (chainActive : CChain)
    (mempool : CTxMemPool) (wtx : CWalletTx) : Int × CWalletTx :=
  let (nResult, wtx) := wtx.getDepthInMainChainINTERNAL hashes index chainActive
  if nResult = 0 ∧ mempool.mapTx.contains wtx.tx.hash = false then (-1, wtx) else (nResult, wtx)

end CWalletTx

namespace WalletMap

variable (isMine : CScript → IsMineType) (mapWallet : WalletMap)

def getDebitOf (filter : IsMineFilter) (txin : CTxIn) : Int :=
  match mapWallet[txin.prevout.hash]? with
  | none => 0
  | some prev =>
      match prev.tx.vout[txin.prevout.n.toNat]? with
      | none => 0
      | some txout => if filter.accepts (isMine txout.scriptPubKey) then txout.nValue else 0

/-- The loop of `CWallet::GetDebit`, with `none` when it throws. -/
def sumDebits (filter : IsMineFilter) : Int → List CTxIn → Option Int
  | nDebit, [] => some nDebit
  | nDebit, txin :: rest =>
      let nDebit := nDebit + mapWallet.getDebitOf isMine filter txin
      if moneyRange nDebit then sumDebits filter nDebit rest else none

def getDebit (filter : IsMineFilter) (tx : CTransaction) : Option Int :=
  mapWallet.sumDebits isMine filter 0 tx.vin

def isFromMe (tx : CTransaction) : Option Bool :=
  (mapWallet.getDebit isMine .ISMINE_ALL tx).map fun nDebit => decide (nDebit > 0)

/-- `AddToWallet`, with a wallet file that takes the write. -/
def addToWallet (wtxIn : CWalletTx) : WalletMap :=
  match mapWallet[wtxIn.tx.hash]? with
  | none => mapWallet.insert wtxIn.tx.hash wtxIn
  | some wtx => mapWallet.insert wtxIn.tx.hash (wtx.merge wtxIn)

end WalletMap

def CTransaction.isMine (isMine : CScript → IsMineType) (tx : CTransaction) : Bool :=
  tx.vout.any fun txout => isMine txout.scriptPubKey != .no

/-- What `AddToWalletIfInvolvingMe` passes on to `AddToWallet`. -/
def CWalletTx.ofSync (hashes : Digests) (tx : CTransaction) (pblock : Option CBlock) : CWalletTx :=
  match pblock with
  | none => .ofTx tx
  | some block => (CWalletTx.ofTx tx).setMerkleBranch hashes block

namespace WalletMap

variable (hashes : Digests) (isMine : CScript → IsMineType) (mapWallet : WalletMap)

/-- `SyncTransaction`, which calls `AddToWalletIfInvolvingMe` with `fUpdate` set.  There is no
result when `GetDebit` throws. -/
def syncTransaction (tx : CTransaction) (pblock : Option CBlock) : Option WalletMap :=
  if mapWallet.contains tx.hash || tx.isMine isMine then
    some (mapWallet.addToWallet (.ofSync hashes tx pblock))
  else
    match mapWallet.isFromMe isMine tx with
    | none => none
    | some false => some mapWallet
    | some true => some (mapWallet.addToWallet (.ofSync hashes tx pblock))

/-- `SyncWithWallets` for one transaction after the other. -/
def syncTransactions (pblock : Option CBlock) : WalletMap → List CTransaction → Option WalletMap
  | mapWallet, [] => some mapWallet
  | mapWallet, tx :: rest =>
      match mapWallet.syncTransaction hashes isMine tx pblock with
      | none => none
      | some mapWallet => syncTransactions pblock mapWallet rest

end WalletMap

end Lycancoin
