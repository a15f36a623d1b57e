import Lycancoin.Data.Codec
import Lycancoin.Primitives.Block

namespace Lycancoin

def CLIENT_VERSION : Int := 1000000 * 1 + 10000 * 1 + 100 * 2 + 1 * 13

/-- The low bytes of a word, lowest first: `ser_writedata8` to `ser_writedata64`. -/
def serWriteData (width word : Nat) : List UInt8 :=
  (List.range width).map fun i => UInt8.ofNat (word >>> (8 * i))

@[simp] theorem length_serWriteData (width word : Nat) : (serWriteData width word).length = width := by
  simp [serWriteData]

def writeCompactSize (nSize : Nat) : List UInt8 :=
  if nSize < 253 then serWriteData 1 nSize
  else if nSize ≤ 0xffff then serWriteData 1 253 ++ serWriteData 2 nSize
  else if nSize ≤ 0xffffffff then serWriteData 1 254 ++ serWriteData 4 nSize
  else serWriteData 1 255 ++ serWriteData 8 nSize

@[simp] theorem length_writeCompactSize (nSize : Nat) :
    (writeCompactSize nSize).length = getSizeOfCompactSize nSize := by
  unfold writeCompactSize getSizeOfCompactSize
  split_ifs <;> simp

def serializeInt32 (word : Int) : List UInt8 := serWriteData 4 (BitVec.ofInt 32 word).toNat

def serializeInt64 (word : Int) : List UInt8 := serWriteData 8 (BitVec.ofInt 64 word).toNat

def serializeUInt32 (word : UInt32) : List UInt8 := serWriteData 4 word.toNat

/-- A vector: the count and then the elements. -/
def serializeVector {α : Type} (serialize : α → List UInt8) (v : List α) : List UInt8 :=
  writeCompactSize v.length ++ v.flatMap serialize

theorem length_serializeVector {α : Type} {serialize : α → List UInt8} {size : α → Nat}
    (each : ∀ element, (serialize element).length = size element) (v : List α) :
    (serializeVector serialize v).length = getSizeOfCompactSize v.length + (v.map size).sum := by
  simp [serializeVector, List.length_flatMap, each]

def CScript.serialize (script : CScript) : List UInt8 := writeCompactSize script.length ++ script

theorem CScript.length_serialize (script : CScript) :
    (CScript.serialize script).length = CScript.getSerializeSize script := by
  simp [CScript.serialize, CScript.getSerializeSize]

def Uint256.serialize (blob : Uint256) : List UInt8 := blob.data.map UInt8.ofNat

def COutPoint.serialize (outpoint : COutPoint) : List UInt8 :=
  outpoint.hash.serialize ++ serializeUInt32 outpoint.n

theorem COutPoint.length_serialize (outpoint : COutPoint) : outpoint.serialize.length = 36 := by
  simp [COutPoint.serialize, Uint256.serialize, Uint256.data, serializeUInt32]

def CTxIn.serialize (txin : CTxIn) : List UInt8 :=
  txin.prevout.serialize ++ CScript.serialize txin.scriptSig ++ serializeUInt32 txin.nSequence

theorem CTxIn.length_serialize (txin : CTxIn) : txin.serialize.length = txin.getSerializeSize := by
  simp [CTxIn.serialize, CTxIn.getSerializeSize, COutPoint.length_serialize,
    CScript.length_serialize, serializeUInt32]
  omega

def CTxOut.serialize (txout : CTxOut) : List UInt8 :=
  serializeInt64 txout.nValue ++ CScript.serialize txout.scriptPubKey

theorem CTxOut.length_serialize (txout : CTxOut) :
    txout.serialize.length = txout.getSerializeSize := by
  simp [CTxOut.serialize, CTxOut.getSerializeSize, CScript.length_serialize, serializeInt64]

/-- A transaction that can still be changed; it caches no hash. -/
structure CMutableTransaction where
  nVersion : Int
  vin : List CTxIn
  vout : List CTxOut
  nLockTime : UInt32
deriving DecidableEq, Repr

def CMutableTransaction.serialize (tx : CMutableTransaction) : List UInt8 :=
  serializeInt32 tx.nVersion ++ serializeVector CTxIn.serialize tx.vin ++
    serializeVector CTxOut.serialize tx.vout ++ serializeUInt32 tx.nLockTime

namespace CTransaction

/-- The constructor of `CMutableTransaction`. -/
def toMutable (tx : CTransaction) : CMutableTransaction :=
  { nVersion := tx.nVersion, vin := tx.vin, vout := tx.vout, nLockTime := tx.nLockTime }

def serialize (tx : CTransaction) : List UInt8 := tx.toMutable.serialize

theorem length_serialize (tx : CTransaction) : tx.serialize.length = tx.getSerializeSize := by
  simp [serialize, CMutableTransaction.serialize, toMutable, getSerializeSize, serializeInt32,
    serializeUInt32, length_serializeVector CTxIn.length_serialize,
    length_serializeVector CTxOut.length_serialize]
  omega

end CTransaction

open Lycancoin.Data

/-- No serialized list is longer. -/
def MAX_SIZE : Nat := 0x02000000

/-- What a stream throws. -/
inductive ReadFailure
  | endOfData
  | nonCanonical
  | tooLarge
deriving DecidableEq, Repr

def ReadFailure.what : ReadFailure → String
  | endOfData => "CDataStream::read() : end of data"
  | nonCanonical => "non-canonical ReadCompactSize()"
  | tooLarge => "ReadCompactSize() : size too large"

abbrev ByteReader := Reader ReadFailure UInt8

/-- The word with the given bytes, lowest first. -/
def littleEndian : List UInt8 → Nat
  | [] => 0
  | byte :: bytes => byte.toNat + 256 * littleEndian bytes

/-- `ser_readdata8` to `ser_readdata64`. -/
def serReadData (width : Nat) : ByteReader Nat := do
  let bytes ← Reader.take .endOfData width
  pure (littleEndian bytes)

/-- The number behind one of the markers, which must need its width. -/
def readMarkedSize (width least : Nat) : ByteReader Nat := do
  let nSizeRet ← serReadData width
  if nSizeRet < least then throw .nonCanonical else pure nSizeRet

/-- The part of `ReadCompactSize` that depends on the first byte. -/
def readSizeBehind (chSize : Nat) : ByteReader Nat :=
  if chSize < 253 then pure chSize
  else if chSize = 253 then readMarkedSize 2 253
  else if chSize = 254 then readMarkedSize 4 0x10000
  else readMarkedSize 8 0x100000000

def readCompactSize : ByteReader Nat := do
  let chSize ← serReadData 1
  let nSizeRet ← readSizeBehind chSize
  if MAX_SIZE < nSizeRet then throw .tooLarge else pure nSizeRet

def unserializeInt32 : ByteReader Int := do
  let word ← serReadData 4
  pure (BitVec.ofNat 32 word).toInt

def unserializeInt64 : ByteReader Int := do
  let word ← serReadData 8
  pure (BitVec.ofNat 64 word).toInt

def unserializeUInt32 : ByteReader UInt32 := do
  let word ← serReadData 4
  pure (UInt32.ofNat word)

/-- The size in memory of an element type.  It decides how many elements of a
vector are made room for at once. -/
structure ElementSize where
  bytes : Nat
  positive : 0 < bytes
  small : bytes ≤ 5000000

/-- A vector grows by as many elements as fit in five million bytes. -/
def ElementSize.perBlock (size : ElementSize) : Nat := 5000000 / size.bytes

/-- `Unserialize_impl` for vectors of objects. -/
def unserializeVector {α : Type} (size : ElementSize) (unserialize : ByteReader α) :
    ByteReader (List α) := do
  let nSize ← readCompactSize
  Reader.chunked (Reader.many unserialize) size.perBlock nSize nSize 0

/-- `Unserialize_impl` for vectors of bytes. -/
def unserializeBytes : ByteReader (List UInt8) := do
  let nSize ← readCompactSize
  Reader.chunked (Reader.take .endOfData) (1 + 4999999 / 1) nSize nSize 0

def CScript.unserialize : ByteReader CScript := unserializeBytes

def Uint256.unserialize : ByteReader Uint256 := do
  let bytes ← Reader.take .endOfData 32
  pure ⟨BitVec.ofNat 256 (littleEndian bytes)⟩

def COutPoint.unserialize : ByteReader COutPoint := do
  let hash ← Uint256.unserialize
  let n ← unserializeUInt32
  pure { hash, n }

def CTxIn.unserialize : ByteReader CTxIn := do
  let prevout ← COutPoint.unserialize
  let scriptSig ← CScript.unserialize
  let nSequence ← unserializeUInt32
  pure { prevout, scriptSig, nSequence }

def CTxOut.unserialize : ByteReader CTxOut := do
  let nValue ← unserializeInt64
  let scriptPubKey ← CScript.unserialize
  pure { nValue, scriptPubKey }

/-- The sizes of the element types of the vectors in a block. -/
structure ObjectSizes where
  sizeofCTxIn : ElementSize
  sizeofCTxOut : ElementSize
  sizeofCTransaction : ElementSize

def CMutableTransaction.unserialize (sizes : ObjectSizes) : ByteReader CMutableTransaction := do
  let nVersion ← unserializeInt32
  let vin ← unserializeVector sizes.sizeofCTxIn CTxIn.unserialize
  let vout ← unserializeVector sizes.sizeofCTxOut CTxOut.unserialize
  let nLockTime ← unserializeUInt32
  pure { nVersion, vin, vout, nLockTime }

namespace CTransaction

/-- The conversion of a mutable transaction, with `UpdateHash`. -/
def ofMutable (hash : List UInt8 → Uint256) (tx : CMutableTransaction) : CTransaction :=
  { hash := hash tx.serialize
    nVersion := tx.nVersion
    vin := tx.vin
    vout := tx.vout
    nLockTime := tx.nLockTime }

def unserialize (hash : List UInt8 → Uint256) (sizes : ObjectSizes) :
    ByteReader CTransaction := do
  let tx ← CMutableTransaction.unserialize sizes
  pure (ofMutable hash tx)

end CTransaction

namespace CBlockHeader

def serialize (header : CBlockHeader) : List UInt8 :=
  serializeInt32 header.nVersion ++ header.hashPrevBlock.serialize ++
    header.hashMerkleRoot.serialize ++ serializeUInt32 header.nTime ++
    serializeUInt32 header.nBits ++ serializeUInt32 header.nNonce

def unserialize : ByteReader CBlockHeader := do
  let nVersion ← unserializeInt32
  let hashPrevBlock ← Uint256.unserialize
  let hashMerkleRoot ← Uint256.unserialize
  let nTime ← unserializeUInt32
  let nBits ← unserializeUInt32
  let nNonce ← unserializeUInt32
  pure { nVersion, hashPrevBlock, hashMerkleRoot, nTime, nBits, nNonce }

end CBlockHeader

namespace CBlock

def serialize (block : CBlock) : List UInt8 :=
  block.toCBlockHeader.serialize ++ serializeVector CTransaction.serialize block.vtx

def unserialize (hash : List UInt8 → Uint256) (sizes : ObjectSizes) : ByteReader CBlock := do
  let header ← CBlockHeader.unserialize
  let vtx ← unserializeVector sizes.sizeofCTransaction (CTransaction.unserialize hash sizes)
  pure { header with vtx }

theorem length_serialize (block : CBlock) : block.serialize.length = block.getSerializeSize := by
  rw [serialize, List.length_append, length_serializeVector CTransaction.length_serialize]
  simp [CBlockHeader.serialize, getSerializeSize, serializeInt32, serializeUInt32,
    Uint256.serialize, Uint256.data]
  omega

end CBlock

end Lycancoin
