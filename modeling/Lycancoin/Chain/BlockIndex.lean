import Lycancoin.Primitives.Block
import Lycancoin.Primitives.Uint256

namespace Lycancoin

open Std

/-- The part of `nStatus` under `BLOCK_VALID_MASK`. -/
inductive BlockValidity where
  | unknown
  | header
  | tree
  | transactions
  | chain
  | scripts
deriving DecidableEq, Repr

/-- `BLOCK_VALID_UNKNOWN = 0` up to `BLOCK_VALID_SCRIPTS = 5`. -/
def BlockValidity.level : BlockValidity → Nat
  | .unknown => 0
  | .header => 1
  | .tree => 2
  | .transactions => 3
  | .chain => 4
  | .scripts => 5

/-- `nStatus`, bit field by bit field. -/
structure BlockStatus where
  validity : BlockValidity
  haveData : Bool
  haveUndo : Bool
  failedValid : Bool
  failedChild : Bool
deriving DecidableEq, Repr

namespace BlockStatus

/-- `nStatus = 0`. -/
def null : BlockStatus :=
  { validity := .unknown, haveData := false, haveUndo := false,
    failedValid := false, failedChild := false }

/-- `nStatus & BLOCK_FAILED_MASK`. -/
def failed (status : BlockStatus) : Bool := status.failedValid || status.failedChild

/-- `IsValid(nUpTo)`. -/
def isValid (status : BlockStatus) (nUpTo : BlockValidity) : Bool :=
  !status.failed && decide (nUpTo.level ≤ status.validity.level)

/-- `RaiseValidity(nUpTo)`. -/
def raiseValidity (status : BlockStatus) (nUpTo : BlockValidity) : BlockStatus :=
  if status.failed then status
  else if status.validity.level < nUpTo.level then { status with validity := nUpTo }
  else status

end BlockStatus

/-- An entry of `mapBlockIndex`.  Its predecessor is named by its hash. -/
structure CBlockIndex where
  pprev : Option Uint256
  nHeight : Nat
  nFile : Nat
  nChainWork : ArithUint256
  nTx : Nat
  nChainTx : Nat
  nStatus : BlockStatus
  nVersion : Int
  hashMerkleRoot : Uint256
  nTime : UInt32
  nBits : UInt32
  nNonce : UInt32
  nSequenceId : Nat
deriving DecidableEq, Repr

abbrev BlockMap := ExtTreeMap Uint256 CBlockIndex

namespace CBlockIndex

/-- `CBlockIndex(block)`. -/
def ofHeader (block : CBlockHeader) : CBlockIndex :=
  { pprev := none
    nHeight := 0
    nFile := 0
    nChainWork := 0
    nTx := 0
    nChainTx := 0
    nStatus := BlockStatus.null
    nVersion := block.nVersion
    hashMerkleRoot := block.hashMerkleRoot
    nTime := block.nTime
    nBits := block.nBits
    nNonce := block.nNonce
    nSequenceId := 0 }

def getBlockHeader (entry : CBlockIndex) : CBlockHeader :=
  { nVersion := entry.nVersion
    hashPrevBlock := entry.pprev.getD Uint256.null
    hashMerkleRoot := entry.hashMerkleRoot
    nTime := entry.nTime
    nBits := entry.nBits
    nNonce := entry.nNonce }

def getBlockTime (entry : CBlockIndex) : Int := entry.nTime.toNat

end CBlockIndex

/-- The entries met on the way from an entry to genesis, at most `fuel` of them. -/
def chainFrom (index : BlockMap) : Nat → Uint256 → List CBlockIndex
  | 0, _ => []
  | fuel + 1, hash =>
      match index[hash]? with
      | none => []
      | some entry =>
          match entry.pprev with
          | none => [entry]
          | some prev => entry :: chainFrom index fuel prev

/-- An entry and all its ancestors, the way `pprev` leads.  There are as many
as its height says. -/
def chainTo (index : BlockMap) (hash : Uint256) : List CBlockIndex :=
  match index[hash]? with
  | none => []
  | some entry => chainFrom index (entry.nHeight + 1) hash

def nMedianTimeSpan : Nat := 11

/-- `GetMedianTimePast` of the first entry of a chain. -/
def getMedianTimePast (chain : List CBlockIndex) : Int :=
  let times :=
    ((chain.take nMedianTimeSpan).map CBlockIndex.getBlockTime).insertionSort (· ≤ ·)
  times.getD (times.length / 2) 0

end Lycancoin
