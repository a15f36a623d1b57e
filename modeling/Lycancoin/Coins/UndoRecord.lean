import Lycancoin.Coins.CoinsRecord
import Lycancoin.Coins.UtxoView
import Lycancoin.Primitives.RoundTrip

namespace Lycancoin

open Lycancoin.Data

abbrev CBlockUndo := List CTxUndo

namespace CTxInUndo

/-- The height and the flag in one `unsigned int`. -/
def nCode (undo : CTxInUndo) : Nat :=
  ((undo.nHeight * 2 + if undo.fCoinBase then 1 else 0) % 2 ^ 32).toNat

def serialize (keys : PubKeys) (undo : CTxInUndo) : List UInt8 :=
  writeVarInt undo.nCode ++ (if undo.nHeight ≠ 0 then writeVarInt undo.nVersion else []) ++
    CTxOutCompressor.serialize keys undo.txout

/-- The version, which stays 0 where the record has none. -/
def unserializeVersion (nHeight : Nat) : ByteReader Int :=
  if 0 < nHeight then unserializeVarInt else pure 0

def unserialize (keys : PubKeys) : ByteReader CTxInUndo := do
  let nCode ← unserializeVarUInt 32
  let nVersion ← unserializeVersion (nCode / 2)
  let txout ← CTxOutCompressor.unserialize keys CTxOut.null
  pure { txout, fCoinBase := nCode &&& 1 != 0, nHeight := (nCode / 2 : Nat), nVersion }

end CTxInUndo

/-- The sizes of the element types of the vectors in undo data. -/
structure UndoSizes where
  sizeofCTxInUndo : ElementSize
  sizeofCTxUndo : ElementSize

namespace CTxUndo

def serialize (keys : PubKeys) (txundo : CTxUndo) : List UInt8 :=
  serializeVector (CTxInUndo.serialize keys) txundo

def unserialize (sizes : UndoSizes) (keys : PubKeys) : ByteReader CTxUndo :=
  unserializeVector sizes.sizeofCTxInUndo (CTxInUndo.unserialize keys)

end CTxUndo

namespace CBlockUndo

def serialize (keys : PubKeys) (blockundo : CBlockUndo) : List UInt8 :=
  serializeVector (CTxUndo.serialize keys) blockundo

def unserialize (sizes : UndoSizes) (keys : PubKeys) : ByteReader CBlockUndo :=
  unserializeVector sizes.sizeofCTxUndo (CTxUndo.unserialize sizes keys)

/-- `GetSerializeSize`: the size computer counts what is written to it, and the
count is returned as an `unsigned int`. -/
def getSerializeSize (keys : PubKeys) (blockundo : CBlockUndo) : UInt32 :=
  UInt32.ofNat (serialize keys blockundo).length

end CBlockUndo

/-- The bytes that one input takes in a record. -/
def CTxInUndo.recordSize (keys : PubKeys) (undo : CTxInUndo) : Nat :=
  getSizeOfVarInt undo.nCode + (if undo.nHeight ≠ 0 then getSizeOfVarInt undo.nVersion else 0) +
    CTxOutCompressor.getSerializeSize keys undo.txout

def CTxUndo.recordSize (keys : PubKeys) (txundo : CTxUndo) : Nat :=
  getSizeOfCompactSize txundo.length + (txundo.map (CTxInUndo.recordSize keys)).sum

/-- The bytes of a record, which no word limits. -/
def CBlockUndo.recordSize (keys : PubKeys) (blockundo : CBlockUndo) : Nat :=
  getSizeOfCompactSize blockundo.length + (blockundo.map (CTxUndo.recordSize keys)).sum

section Sizes

variable {keys : PubKeys}

theorem CTxInUndo.length_serialize (undo : CTxInUndo) :
    (CTxInUndo.serialize keys undo).length = undo.recordSize keys := by
  have version : (if undo.nHeight ≠ 0 then writeVarInt undo.nVersion else []).length =
      if undo.nHeight ≠ 0 then getSizeOfVarInt undo.nVersion else 0 := by
    split_ifs
    · exact length_writeVarInt undo.nVersion
    · rfl
  rw [serialize, List.length_append, List.length_append, length_writeVarInt, version,
    CTxOutCompressor.length_serialize, recordSize]

theorem CTxUndo.length_serialize (txundo : CTxUndo) :
    (CTxUndo.serialize keys txundo).length = CTxUndo.recordSize keys txundo :=
  length_serializeVector CTxInUndo.length_serialize txundo

theorem CBlockUndo.length_serialize (blockundo : CBlockUndo) :
    (CBlockUndo.serialize keys blockundo).length = CBlockUndo.recordSize keys blockundo :=
  length_serializeVector CTxUndo.length_serialize blockundo

theorem CBlockUndo.toNat_getSerializeSize (blockundo : CBlockUndo) :
    (CBlockUndo.getSerializeSize keys blockundo).toNat =
      CBlockUndo.recordSize keys blockundo % 2 ^ 32 := by
  rw [getSerializeSize, UInt32.toNat_ofNat', length_serialize]

end Sizes

/-- What an input that `UpdateCoins` records is like.  The height, the version
and the flag are zero unless the last output of a transaction is spent. -/
structure CTxInUndo.Recordable (undo : CTxInUndo) : Prop where
  txout : undo.txout.Compressible
  nHeight : 0 ≤ undo.nHeight ∧ undo.nHeight < 2 ^ 30
  nVersion : 0 ≤ undo.nVersion ∧ undo.nVersion < 2 ^ 31
  others : undo.nHeight = 0 → undo.fCoinBase = false ∧ undo.nVersion = 0

structure CBlockUndo.Recordable (blockundo : CBlockUndo) : Prop where
  transactions : blockundo.length ≤ MAX_SIZE
  inputs : ∀ txundo ∈ blockundo, txundo.length ≤ MAX_SIZE
  entries : ∀ txundo ∈ blockundo, ∀ undo ∈ txundo, undo.Recordable

section Records

variable {keys : PubKeys}

/-- The code of an input is not cut, and its parts are found in it. -/
theorem CTxInUndo.Recordable.nCode {undo : CTxInUndo} (fits : undo.Recordable) :
    undo.nCode < 2 ^ 32 ∧ ((undo.nCode / 2 : Nat) : Int) = undo.nHeight ∧
      (undo.nCode &&& 1 != 0) = undo.fCoinBase := by
  obtain ⟨lower, upper⟩ := fits.nHeight
  obtain ⟨height, isHeight⟩ := Int.eq_ofNat_of_zero_le lower
  have code : undo.nCode = 2 * height + if undo.fCoinBase then 1 else 0 := by
    rw [CTxInUndo.nCode, isHeight]
    split_ifs <;> omega
  rw [isHeight] at upper ⊢
  rw [code, Nat.and_one_is_mod]
  cases undo.fCoinBase with
  | false =>
      have even : 2 * height % 2 = 0 := by omega
      refine ⟨?_, ?_, ?_⟩
      · simp only [Bool.false_eq_true, if_false]
        omega
      · simp only [Bool.false_eq_true, if_false]
        omega
      · simp [even]
  | true =>
      have odd : (2 * height + 1) % 2 = 1 := by omega
      refine ⟨?_, ?_, ?_⟩
      · simp only [if_true]
        omega
      · simp only [if_true]
        omega
      · simp [odd]

theorem reads_version {undo : CTxInUndo} (fits : undo.Recordable) :
    Reads (CTxInUndo.unserializeVersion (undo.nCode / 2))
      (if undo.nHeight ≠ 0 then writeVarInt undo.nVersion else []) undo.nVersion := by
  have height := fits.nCode.2.1
  by_cases none : undo.nHeight = 0
  · have noVersion := (fits.others none).2
    rw [if_neg (not_not.mpr none), CTxInUndo.unserializeVersion, if_neg (by omega), noVersion]
    exact Reads.pure 0
  · rw [if_pos none, CTxInUndo.unserializeVersion, if_pos (by omega)]
    exact reads_unserializeVarInt fits.nVersion.1 fits.nVersion.2

theorem reads_txInUndo (recover : keys.Recover) {undo : CTxInUndo} (fits : undo.Recordable) :
    Reads (CTxInUndo.unserialize keys) (CTxInUndo.serialize keys undo) undo := by
  obtain ⟨small, height, coinBase⟩ := fits.nCode
  have code := reads_unserializeVarUInt small
  have version := reads_version fits
  have output := reads_txOut recover fits.txout CTxOut.null
  have reads : Reads (CTxInUndo.unserialize keys) (CTxInUndo.serialize keys undo)
      { txout := undo.txout
        fCoinBase := undo.nCode &&& 1 != 0
        nHeight := (undo.nCode / 2 : Nat)
        nVersion := undo.nVersion } := by
    rw [CTxInUndo.serialize, List.append_assoc]
    exact code.bind (version.bind output.bind_pure)
  rwa [height, coinBase] at reads

theorem reads_blockUndo (sizes : UndoSizes) (recover : keys.Recover) {blockundo : CBlockUndo}
    (fits : CBlockUndo.Recordable blockundo) :
    Reads (CBlockUndo.unserialize sizes keys) (CBlockUndo.serialize keys blockundo) blockundo := by
  apply reads_unserializeVector sizes.sizeofCTxUndo fits.transactions
  intro txundo member
  apply reads_unserializeVector sizes.sizeofCTxInUndo (fits.inputs txundo member)
  intro undo inside
  exact reads_txInUndo recover (fits.entries txundo member undo inside)

end Records

end Lycancoin
