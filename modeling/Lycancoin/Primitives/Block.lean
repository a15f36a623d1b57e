import Lycancoin.Primitives.Amount
import Lycancoin.Primitives.Uint256

namespace Lycancoin

abbrev CScript := List UInt8

/-- An outpoint: a transaction hash and an index into its `vout`. -/
structure COutPoint where
  hash : Uint256
  n : UInt32
deriving DecidableEq, Repr

namespace COutPoint

/-- `SetNull`: the outpoint that only coinbase inputs carry. -/
def null : COutPoint := { hash := Uint256.null, n := 0xffffffff }

def isNull (outpoint : COutPoint) : Bool := outpoint.hash.isNull && outpoint.n == 0xffffffff

def sortKey (outpoint : COutPoint) : Uint256 ×ₗ ℕ := toLex (outpoint.hash, outpoint.n.toNat)

theorem sortKey_injective : Function.Injective sortKey := by
  intro left right same
  simp only [sortKey, EmbeddingLike.apply_eq_iff_eq, Prod.mk.injEq, UInt32.toNat_inj] at same
  cases left
  cases right
  simp_all

/-- `operator<` compares the hashes first. -/
instance : LinearOrder COutPoint :=
  { PartialOrder.lift sortKey sortKey_injective with
    le_total := fun left right => le_total left.sortKey right.sortKey
    toDecidableLE := fun left right => inferInstanceAs (Decidable (left.sortKey ≤ right.sortKey))
    toDecidableEq := inferInstance }

instance : Std.TransOrd COutPoint := inferInstance

instance : Std.LawfulEqOrd COutPoint := Uint256.lawfulEqOrd_of_linearOrder

end COutPoint

structure CTxIn where
  prevout : COutPoint
  scriptSig : CScript
  nSequence : UInt32
deriving DecidableEq, Repr

structure CTxOut where
  nValue : Int
  scriptPubKey : CScript
deriving DecidableEq, Repr

namespace CTxOut

/-- `SetNull`, which also marks an output as spent. -/
def null : CTxOut := { nValue := -1, scriptPubKey := [] }

def isNull (txout : CTxOut) : Bool := txout.nValue == -1

@[simp] theorem isNull_null : null.isNull = true := rfl

end CTxOut

/-- `hash` is the cached value that `UpdateHash` stores and `GetHash` returns. -/
structure CTransaction where
  hash : Uint256
  nVersion : Int
  vin : List CTxIn
  vout : List CTxOut
  nLockTime : UInt32
deriving DecidableEq, Repr

def getSizeOfCompactSize (nSize : Nat) : Nat :=
  if nSize < 253 then 1
  else if nSize ≤ 0xffff then 1 + 2
  else if nSize ≤ 0xffffffff then 1 + 4
  else 1 + 8

def CScript.getSerializeSize (script : CScript) : Nat :=
  getSizeOfCompactSize script.length + script.length

def CTxIn.getSerializeSize (txin : CTxIn) : Nat :=
  (32 + 4) + CScript.getSerializeSize txin.scriptSig + 4

def CTxOut.getSerializeSize (txout : CTxOut) : Nat :=
  8 + CScript.getSerializeSize txout.scriptPubKey

namespace CTransaction

def isCoinBase (tx : CTransaction) : Bool :=
  match tx.vin with
  | [txin] => txin.prevout.isNull
  | _ => false

def getSerializeSize (tx : CTransaction) : Nat :=
  4 + getSizeOfCompactSize tx.vin.length + (tx.vin.map CTxIn.getSerializeSize).sum +
    getSizeOfCompactSize tx.vout.length + (tx.vout.map CTxOut.getSerializeSize).sum + 4

end CTransaction

structure CBlockHeader where
  nVersion : Int
  hashPrevBlock : Uint256
  hashMerkleRoot : Uint256
  nTime : UInt32
  nBits : UInt32
  nNonce : UInt32
deriving DecidableEq, Repr

namespace CBlockHeader

def getBlockTime (header : CBlockHeader) : Int := header.nTime.toNat

end CBlockHeader

structure CBlock extends CBlockHeader where
  vtx : List CTransaction
deriving DecidableEq, Repr

namespace CBlock

def getSerializeSize (block : CBlock) : Nat :=
  80 + getSizeOfCompactSize block.vtx.length + (block.vtx.map CTransaction.getSerializeSize).sum

end CBlock

/-- The digests that the program computes.  They are fixed functions of the
bytes; no definition or result depends on which functions they are. -/
structure Digests where
  /-- `CBlockHeader::GetHash`, double SHA-256. -/
  getHash : CBlockHeader → Uint256
  /-- `CBlockHeader::GetPoWHash`, scrypt. -/
  getPoWHash : CBlockHeader → Uint256
  /-- `Hash` of two nodes of a merkle tree, double SHA-256. -/
  hashPair : Uint256 → Uint256 → Uint256

end Lycancoin
