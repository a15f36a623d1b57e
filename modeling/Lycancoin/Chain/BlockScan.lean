import Lycancoin.Chain.BufferedFile
import Lycancoin.Consensus.Params
import Lycancoin.Net.NetMessage

namespace Lycancoin

open Lycancoin.Data

def Network.messageStart (network : Network) : MessageStart :=
  ⟨network.pchMessageStart, by cases network <;> rfl⟩

/-- The state of the loop of `LoadExternalBlockFile`, with the offsets whose block it
read and the parts of the file that were unserialized as blocks. -/
structure BlockScan where
  blkdat : CBufferedFile
  nRewind : Nat
  tried : List Nat
  loaded : List (Nat × Nat)

inductive HeaderFound
  | exception
  | mismatch
  | block (nSize : Nat)

inductive ScanRound
  | noHeader (scan : BlockScan)
  | mismatch (scan : BlockScan)
  | failed (scan : BlockScan)
  | loaded (scan : BlockScan)
  | error (scan : BlockScan)

def ScanRound.scan : ScanRound → BlockScan
  | noHeader scan => scan
  | mismatch scan => scan
  | failed scan => scan
  | loaded scan => scan
  | error scan => scan

/-- The state in which the loop goes on. -/
def ScanRound.next? : ScanRound → Option BlockScan
  | noHeader _ => none
  | mismatch scan => some scan
  | failed scan => some scan
  | loaded scan => some scan
  | error _ => none

namespace BlockScan

/-- The state before the loop. -/
def ofFile (fileIn : List UInt8) : BlockScan where
  blkdat := CBufferedFile.ofFile fileIn (2 * MAX_BLOCK_SIZE) (MAX_BLOCK_SIZE + 8)
  nRewind := 0
  tried := []
  loaded := []

/-- The first `try` of a round. -/
def readHeader (messageStart : MessageStart) (scan : BlockScan) :
    Option (BlockScan × HeaderFound) :=
  match scan.blkdat.findByte (messageStart.val.headD 0) with
  | none => none
  | some (blkdat, false) => some ({ scan with blkdat }, .exception)
  | some (blkdat, true) =>
      let scan := { scan with blkdat, nRewind := blkdat.nReadPos + 1 }
      match scan.blkdat.read MESSAGE_START_SIZE with
      | none => none
      | some (blkdat, none) => some ({ scan with blkdat }, .exception)
      | some (blkdat, some buf) =>
          if buf ≠ messageStart.val then some ({ scan with blkdat }, .mismatch)
          else
            match blkdat.read 4 with
            | none => none
            | some (blkdat, none) => some ({ scan with blkdat }, .exception)
            | some (blkdat, some bytes) =>
                let nSize := littleEndian bytes
                if nSize < 80 ∨ MAX_BLOCK_SIZE < nSize then some ({ scan with blkdat }, .mismatch)
                else some ({ scan with blkdat }, .block nSize)

/-- The second `try` of a round up to the block, or to the exception. -/
def readBlock (program : ReadProgram CBlock) (nSize : Nat) (scan : BlockScan) :
    Option (BlockScan × Option CBlock) :=
  let nBlockPos := scan.blkdat.nReadPos
  let blkdat := (scan.blkdat.setLimit (some (nBlockPos + nSize))).2
  let blkdat := (blkdat.setPos nBlockPos).2
  let scan := { scan with tried := scan.tried ++ [nBlockPos - (MESSAGE_START_SIZE + 4)] }
  match blkdat.unserialize program with
  | none => none
  | some (blkdat, none) => some ({ scan with blkdat }, none)
  | some (blkdat, some block) =>
      let nRewind := blkdat.nReadPos
      let loaded := scan.loaded ++ [(nBlockPos, nRewind)]
      some ({ scan with blkdat, nRewind, loaded }, some block)

/-- What a round does behind the header.  `isError` tells by the end of a block whether the
work on it ends with `state.IsError()`. -/
def afterHeader (program : ReadProgram CBlock) (isError : Nat → Bool) (scan : BlockScan) :
    HeaderFound → Option ScanRound
  | .exception => some (.noHeader scan)
  | .mismatch => some (.mismatch scan)
  | .block nSize =>
      match scan.readBlock program nSize with
      | none => none
      | some (scan, none) => some (.failed scan)
      | some (scan, some _) =>
          if isError scan.nRewind then some (.error scan) else some (.loaded scan)

def scanRound (messageStart : MessageStart) (program : ReadProgram CBlock) (isError : Nat → Bool)
    (scan : BlockScan) : Option ScanRound :=
  let blkdat := (scan.blkdat.setPos scan.nRewind).2
  let scan := { scan with blkdat := (blkdat.setLimit none).2, nRewind := scan.nRewind + 1 }
  match scan.readHeader messageStart with
  | none => none
  | some (scan, found) => scan.afterHeader program isError found

/-- The loop with a bound on its rounds, and whether it ended with an error. -/
def scanLoop (messageStart : MessageStart) (program : ReadProgram CBlock) (isError : Nat → Bool) :
    Nat → BlockScan → Option (BlockScan × Bool)
  | 0, _ => none
  | rounds + 1, scan =>
      if scan.blkdat.eof then some (scan, false)
      else
        match scan.scanRound messageStart program isError with
        | none => none
        | some (.noHeader scan) => some (scan, false)
        | some (.error scan) => some (scan, true)
        | some (.mismatch scan) => scanLoop messageStart program isError rounds scan
        | some (.failed scan) => scanLoop messageStart program isError rounds scan
        | some (.loaded scan) => scanLoop messageStart program isError rounds scan

inductive Reaches (messageStart : MessageStart) (program : ReadProgram CBlock)
    (isError : Nat → Bool) (first : BlockScan) : BlockScan → Prop
  | first : Reaches messageStart program isError first first
  | next {scan next : BlockScan} {round : ScanRound} :
      Reaches messageStart program isError first scan → scan.blkdat.eof = false →
      scan.scanRound messageStart program isError = some round → round.next? = some next →
      Reaches messageStart program isError first next

/-- `SetPos` can go back to where the loop goes on, and the end of the file is not
reached while a record may follow there. -/
def Resumable (scan : BlockScan) : Prop :=
  scan.blkdat.nSrcPos ≤ scan.nRewind + scan.blkdat.nRewind ∧
    (scan.blkdat.eof = true →
      scan.blkdat.src.length < scan.nRewind + (MESSAGE_START_SIZE + 4))

end BlockScan

/-- The start bytes and the size of a block, in range, at an offset of a file. -/
def HoldsRecord (messageStart : MessageStart) (file : List UInt8) (offset : Nat) : Prop :=
  offset + (MESSAGE_START_SIZE + 4) ≤ file.length ∧
    (file.drop offset).take MESSAGE_START_SIZE = messageStart.val ∧
    80 ≤ littleEndian ((file.drop (offset + MESSAGE_START_SIZE)).take 4) ∧
    littleEndian ((file.drop (offset + MESSAGE_START_SIZE)).take 4) ≤ MAX_BLOCK_SIZE

section Records

variable {messageStart : MessageStart} {network : Network} {file : List UInt8} {offset : Nat}

/-- No start byte is zero, and the first one does not come again. -/
theorem Network.distinctive (network : Network) {i : Nat} (inside : i < MESSAGE_START_SIZE) :
    network.messageStart.val[i]? ≠ some 0 ∧
      (0 < i → network.messageStart.val[i]? ≠ network.messageStart.val[0]?) := by
  have cases : i = 0 ∨ i = 1 ∨ i = 2 ∨ i = 3 := by
    have size : MESSAGE_START_SIZE = 4 := rfl
    omega
  cases network <;> rcases cases with rfl | rfl | rfl | rfl <;> simp [messageStart, pchMessageStart]

theorem HoldsRecord.start (record : HoldsRecord messageStart file offset) {i : Nat}
    (inside : i < MESSAGE_START_SIZE) : file[offset + i]? = messageStart.val[i]? := by
  have there := congrArg (fun bytes => bytes[i]?) record.2.1
  simp only [List.getElem?_take_of_lt inside, List.getElem?_drop] at there
  exact there

theorem HoldsRecord.first (record : HoldsRecord messageStart file offset) :
    file[offset]? = some (messageStart.val.headD 0) := by
  have first := record.start (by decide : 0 < MESSAGE_START_SIZE)
  rw [Nat.add_zero] at first
  rw [first]
  obtain ⟨bytes, length⟩ := messageStart
  match bytes, length with
  | byte :: rest, _ => rfl

/-- A number below `2 ^ 24` leaves the last of four bytes zero. -/
theorem littleEndian_last {bytes : List UInt8} (length : bytes.length = 4)
    (small : littleEndian bytes < 2 ^ 24) : bytes[3]? = some 0 := by
  match bytes, length with
  | [first, second, third, last], _ =>
      rw [littleEndian, littleEndian, littleEndian, littleEndian, littleEndian] at small
      have zero : last.toNat = 0 := by omega
      rw [UInt8.toNat_inj.mp (zero.trans UInt8.toNat_zero.symm)]
      rfl

theorem HoldsRecord.size (record : HoldsRecord messageStart file offset) :
    file[offset + 7]? = some 0 := by
  obtain ⟨inside, _, _, most⟩ := record
  have start : MESSAGE_START_SIZE = 4 := rfl
  have max : MAX_BLOCK_SIZE = 1000000 := rfl
  have last := littleEndian_last
    (by rw [List.length_take, List.length_drop]; omega :
      ((file.drop (offset + MESSAGE_START_SIZE)).take 4).length = 4) (by omega)
  rw [List.getElem?_take_of_lt (by omega), List.getElem?_drop, Nat.add_assoc] at last
  exact last

/-- Two records do not start within eight bytes. -/
theorem HoldsRecord.apart (record : HoldsRecord network.messageStart file offset) {later : Nat}
    (other : HoldsRecord network.messageStart file later) (behind : offset < later) :
    offset + (MESSAGE_START_SIZE + 4) ≤ later := by
  have start : MESSAGE_START_SIZE = 4 := rfl
  by_contra near
  obtain ⟨back, rfl⟩ := Nat.exists_eq_add_of_le behind.le
  rcases Nat.lt_or_ge back MESSAGE_START_SIZE with inStart | inSize
  · have first := record.start inStart
    rw [← Nat.add_zero (offset + back), other.start (by omega)] at first
    exact (network.distinctive inStart).2 (by omega) first.symm
  · have inStart : 7 - back < MESSAGE_START_SIZE := by omega
    have zero := other.start inStart
    rw [show offset + back + (7 - back) = offset + 7 by omega, record.size] at zero
    exact (network.distinctive inStart).1 zero.symm

end Records

end Lycancoin
