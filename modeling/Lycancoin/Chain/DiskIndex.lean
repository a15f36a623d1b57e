import Lycancoin.Chain.BlockFiles
import Lycancoin.Chain.Pow
import Lycancoin.Data.KeyRange
import Lycancoin.Primitives.RoundTrip
import Lycancoin.Primitives.VarInt

namespace Lycancoin

open Std Lycancoin.Data

def BLOCK_HAVE_DATA : UInt32 := 8

def BLOCK_HAVE_UNDO : UInt32 := 16

/-- An entry of `mapBlockIndex` with all that is stored of it, in the types of the source.  Its
predecessor is named by its hash. -/
structure IndexEntry where
  pprev : Option Uint256
  nHeight : Int
  nFile : Int
  nDataPos : UInt32
  nUndoPos : UInt32
  nTx : UInt32
  nStatus : UInt32
  nVersion : Int
  hashMerkleRoot : Uint256
  nTime : UInt32
  nBits : UInt32
  nNonce : UInt32
deriving DecidableEq, Repr

namespace IndexEntry

/-- `SetNull`. -/
def null : IndexEntry where
  pprev := none
  nHeight := 0
  nFile := 0
  nDataPos := 0
  nUndoPos := 0
  nTx := 0
  nStatus := 0
  nVersion := 0
  hashMerkleRoot := Uint256.null
  nTime := 0
  nBits := 0
  nNonce := 0

/-- `hashPrev` of `CDiskBlockIndex(pindex)`. -/
def hashPrev (pindex : IndexEntry) : Uint256 := pindex.pprev.getD Uint256.null

/-- The header that `CDiskBlockIndex` stores. -/
def header (pindex : IndexEntry) : CBlockHeader where
  nVersion := pindex.nVersion
  hashPrevBlock := pindex.hashPrev
  hashMerkleRoot := pindex.hashMerkleRoot
  nTime := pindex.nTime
  nBits := pindex.nBits
  nNonce := pindex.nNonce

def hasFile (nStatus : UInt32) : Prop := nStatus &&& (BLOCK_HAVE_DATA ||| BLOCK_HAVE_UNDO) ≠ 0

def hasData (nStatus : UInt32) : Prop := nStatus &&& BLOCK_HAVE_DATA ≠ 0

def hasUndo (nStatus : UInt32) : Prop := nStatus &&& BLOCK_HAVE_UNDO ≠ 0

instance (nStatus : UInt32) : Decidable (hasFile nStatus) := inferInstanceAs (Decidable (_ ≠ _))

instance (nStatus : UInt32) : Decidable (hasData nStatus) := inferInstanceAs (Decidable (_ ≠ _))

instance (nStatus : UInt32) : Decidable (hasUndo nStatus) := inferInstanceAs (Decidable (_ ≠ _))

/-- `CDiskBlockIndex(pindex)`, as it is written to disk. -/
def serialize (pindex : IndexEntry) : List UInt8 :=
  writeVarInt CLIENT_VERSION ++ writeVarInt pindex.nHeight ++ writeVarInt pindex.nStatus.toNat ++
    writeVarInt pindex.nTx.toNat ++
    (if hasFile pindex.nStatus then writeVarInt pindex.nFile else []) ++
    (if hasData pindex.nStatus then writeVarInt pindex.nDataPos.toNat else []) ++
    (if hasUndo pindex.nStatus then writeVarInt pindex.nUndoPos.toNat else []) ++
    pindex.header.serialize

end IndexEntry

/-- `CDiskBlockIndex`. -/
structure DiskIndex extends IndexEntry where
  hashPrev : Uint256
deriving DecidableEq, Repr

namespace DiskIndex

/-- A field that is only there under a condition, and zero where it is not. -/
def unserializeWhere (present : Prop) [Decidable present] {α : Type} (zero : α)
    (read : ByteReader α) : ByteReader α :=
  if present then read else pure zero

/-- `VARINT` of an `unsigned int`. -/
def unserializeVarWord : ByteReader UInt32 := do
  let n ← unserializeVarUInt 32
  pure (UInt32.ofNat n)

def unserialize : ByteReader DiskIndex := do
  let _nVersion ← unserializeVarInt
  let nHeight ← unserializeVarInt
  let nStatus ← unserializeVarWord
  let nTx ← unserializeVarWord
  let nFile ← unserializeWhere (IndexEntry.hasFile nStatus) 0 unserializeVarInt
  let nDataPos ← unserializeWhere (IndexEntry.hasData nStatus) 0 unserializeVarWord
  let nUndoPos ← unserializeWhere (IndexEntry.hasUndo nStatus) 0 unserializeVarWord
  let header ← CBlockHeader.unserialize
  pure {
    pprev := none
    nHeight
    nFile
    nDataPos
    nUndoPos
    nTx
    nStatus
    nVersion := header.nVersion
    hashMerkleRoot := header.hashMerkleRoot
    nTime := header.nTime
    nBits := header.nBits
    nNonce := header.nNonce
    hashPrev := header.hashPrevBlock }

def getBlockHash (hashes : Digests) (diskindex : DiskIndex) : Uint256 :=
  hashes.getHash {
    nVersion := diskindex.nVersion
    hashPrevBlock := diskindex.hashPrev
    hashMerkleRoot := diskindex.hashMerkleRoot
    nTime := diskindex.nTime
    nBits := diskindex.nBits
    nNonce := diskindex.nNonce }

end DiskIndex

/-! ## The database -/

/-- The database: records of bytes, in the order of their keys. -/
abbrev LevelDB := ExtTreeMap (List UInt8) (List UInt8)

def DB_BLOCK_FILES : UInt8 := 0x66

def DB_LAST_BLOCK : UInt8 := 0x6c

def DB_BLOCK_INDEX : UInt8 := 0x62

def CBlockFileInfo.serialize (info : CBlockFileInfo) : List UInt8 :=
  writeVarInt info.nBlocks.toNat ++ writeVarInt info.nSize.toNat ++
    writeVarInt info.nUndoSize.toNat ++ writeVarInt info.nHeightFirst.toNat ++
    writeVarInt info.nHeightLast.toNat ++ writeVarInt info.nTimeFirst.toNat ++
    writeVarInt info.nTimeLast.toNat

/-- The arguments of `WriteBatchSync`. -/
structure IndexBatch where
  fileInfo : List (Int × CBlockFileInfo)
  nLastFile : Int
  blockinfo : List (Uint256 × IndexEntry)

namespace IndexBatch

def records (batch : IndexBatch) : List (List UInt8 × List UInt8) :=
  batch.fileInfo.map (fun file => (DB_BLOCK_FILES :: serializeInt32 file.1, file.2.serialize)) ++
    [([DB_LAST_BLOCK], serializeInt32 batch.nLastFile)] ++
    batch.blockinfo.map fun block => (DB_BLOCK_INDEX :: block.1.serialize, block.2.serialize)

def writeBatchSync (batch : IndexBatch) (db : LevelDB) : LevelDB :=
  batch.records.foldl (fun db record => db.insert record.1 record.2) db

end IndexBatch

def writeBatches (batches : List IndexBatch) (db : LevelDB) : LevelDB :=
  batches.foldl (fun db batch => batch.writeBatchSync db) db

/-! ## Loading -/

abbrev IndexMap := ExtTreeMap Uint256 IndexEntry

/-- `InsertBlockIndex`: what is pointed to, and the map. -/
def insertBlockIndex (hash : Uint256) (mapBlockIndex : IndexMap) : Option Uint256 × IndexMap :=
  if hash.isNull then (none, mapBlockIndex)
  else if mapBlockIndex.contains hash then (some hash, mapBlockIndex)
  else (some hash, mapBlockIndex.insert hash IndexEntry.null)

/-- A record in the loop of `LoadBlockIndexGuts`: whether `CheckProofOfWork` passes, and the map.
There is no result where the pointer is null. -/
def loadRecord (params : Consensus.Params) (hashes : Digests) (diskindex : DiskIndex)
    (mapBlockIndex : IndexMap) : Option (Bool × IndexMap) :=
  let (pindexNew, mapBlockIndex) := insertBlockIndex (diskindex.getBlockHash hashes) mapBlockIndex
  let (pprev, mapBlockIndex) := insertBlockIndex diskindex.hashPrev mapBlockIndex
  match pindexNew with
  | none => none
  | some pindexNew =>
      some (checkProofOfWork pindexNew diskindex.nBits params,
        mapBlockIndex.insert pindexNew { diskindex.toIndexEntry with pprev })

/-- The loop of `LoadBlockIndexGuts`. -/
def loadLoop (params : Consensus.Params) (hashes : Digests) :
    List (List UInt8 × List UInt8) → IndexMap → Option (Bool × IndexMap)
  | [], mapBlockIndex => some (true, mapBlockIndex)
  | ([], _) :: _, mapBlockIndex => some (false, mapBlockIndex)
  | (chType :: _, slValue) :: pcursor, mapBlockIndex =>
      if chType = DB_BLOCK_INDEX then
        match DiskIndex.unserialize slValue with
        | .error _ => some (false, mapBlockIndex)
        | .ok (diskindex, _) => do
            let (passes, mapBlockIndex) ← loadRecord params hashes diskindex mapBlockIndex
            if passes then loadLoop params hashes pcursor mapBlockIndex
            else some (false, mapBlockIndex)
      else some (true, mapBlockIndex)

def loadBlockIndexGuts (params : Consensus.Params) (hashes : Digests) (db : LevelDB)
    (mapBlockIndex : IndexMap) : Option (Bool × IndexMap) :=
  loadLoop params hashes (KeyRange.seek (DB_BLOCK_INDEX :: Uint256.null.serialize) db.toList)
    mapBlockIndex

end Lycancoin
