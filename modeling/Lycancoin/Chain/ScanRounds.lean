import Lycancoin.Chain.BlockScan

namespace Lycancoin

open Lycancoin.Data

namespace CBufferedFile

/-- The room and the rewind size of the buffer in `LoadExternalBlockFile`. -/
structure ForBlocks (src : List UInt8) (file : CBufferedFile) : Prop where
  steady : Steady file
  isSrc : file.src = src
  room : file.vchBuf.length = 2 * MAX_BLOCK_SIZE
  rewind : file.nRewind = MAX_BLOCK_SIZE + 8

variable {src : List UInt8} {file after : CBufferedFile}

theorem ForBlocks.readAhead (blocks : ForBlocks src file) :
    file.readAhead = MAX_BLOCK_SIZE - 8 := by
  have max : MAX_BLOCK_SIZE = 1000000 := rfl
  rw [CBufferedFile.readAhead, blocks.room, blocks.rewind]
  omega

theorem ForBlocks.of_sameFile (blocks : ForBlocks src file) (steady : Steady after)
    (same : SameFile file after) : ForBlocks src after where
  steady := steady
  isSrc := same.src.trans blocks.isSrc
  room := same.room.trans blocks.room
  rewind := same.nRewind.trans blocks.rewind

theorem ForBlocks.ofFile (src : List UInt8) :
    ForBlocks src (CBufferedFile.ofFile src (2 * MAX_BLOCK_SIZE) (MAX_BLOCK_SIZE + 8)) := by
  have max : MAX_BLOCK_SIZE = 1000000 := rfl
  have room : (List.replicate (2 * MAX_BLOCK_SIZE) (0 : UInt8)).length = 2 * MAX_BLOCK_SIZE :=
    List.length_replicate
  refine ⟨⟨?_, ?_, ?_, ?_, Nat.zero_le _, le_rfl, Nat.zero_le _, nofun⟩, rfl, room, rfl⟩
  · change MAX_BLOCK_SIZE + 8 < (List.replicate (2 * MAX_BLOCK_SIZE) (0 : UInt8)).length
    omega
  · change (List.replicate (2 * MAX_BLOCK_SIZE) (0 : UInt8)).length ≤ 2 * (MAX_BLOCK_SIZE + 8)
    omega
  · change (List.replicate (2 * MAX_BLOCK_SIZE) (0 : UInt8)).length < 2 ^ 32
    omega
  · intro i earlier
    exact absurd earlier (Nat.not_lt_zero i)

theorem Steady.setLimit (steady : Steady file) (nPos : Option Nat) :
    Steady (file.setLimit nPos).2 ∧ (file.setLimit nPos).2.src = file.src ∧
      (file.setLimit nPos).2.nRewind = file.nRewind ∧
      (file.setLimit nPos).2.vchBuf.length = file.vchBuf.length ∧
      (file.setLimit nPos).2.nReadPos = file.nReadPos ∧
      (file.setLimit nPos).2.nSrcPos = file.nSrcPos := by
  rw [CBufferedFile.setLimit]
  split_ifs
  · exact ⟨steady, rfl, rfl, rfl, rfl, rfl⟩
  · exact ⟨⟨steady.rewind, steady.half, steady.small, steady.holds, steady.inSource, steady.ahead,
      steady.near, steady.ended⟩, rfl, rfl, rfl, rfl, rfl⟩

theorem ForBlocks.setLimit (blocks : ForBlocks src file) (nPos : Option Nat) :
    ForBlocks src (file.setLimit nPos).2 := by
  obtain ⟨steady, isSrc, rewind, room, _⟩ := blocks.steady.setLimit nPos
  exact ⟨steady, isSrc.trans blocks.isSrc, room.trans blocks.room, rewind.trans blocks.rewind⟩

/-- The buffer in which a block is read: it stands behind the header, with the end of the
block as its limit. -/
theorem ForBlocks.framed {file : CBufferedFile} (blocks : ForBlocks src file) (nSize : Nat) :
    ForBlocks src ((file.setLimit (some (file.nReadPos + nSize))).2.setPos file.nReadPos).2 ∧
      ((file.setLimit (some (file.nReadPos + nSize))).2.setPos file.nReadPos).2.nReadPos =
        file.nReadPos ∧
      ((file.setLimit (some (file.nReadPos + nSize))).2.setPos file.nReadPos).2.nReadLimit =
        some (file.nReadPos + nSize) := by
  have limited := blocks.setLimit (some (file.nReadPos + nSize))
  obtain ⟨_, _, sameRewind, _, samePos, sameSrcPos⟩ :=
    blocks.steady.setLimit (some (file.nReadPos + nSize))
  have isLimit : (file.setLimit (some (file.nReadPos + nSize))).2.nReadLimit =
      some (file.nReadPos + nSize) := by
    rw [CBufferedFile.setLimit, Option.any_some, if_neg (by simp)]
  obtain ⟨steady, same, _, _⟩ := limited.steady.setPos
    (by rw [sameSrcPos]; exact blocks.steady.ahead : file.nReadPos ≤ _)
  refine ⟨limited.of_sameFile steady same, ?_, same.nReadLimit.trans isLimit⟩
  refine ((setPos_iff _ file.nReadPos).mpr ?_).2
  rw [sameSrcPos, sameRewind]
  exact ⟨blocks.steady.near, blocks.steady.ahead⟩

theorem eof_iff (file : CBufferedFile) :
    file.eof = true ↔ file.nReadPos = file.nSrcPos ∧ file.feof = true := by
  rw [eof, Bool.and_eq_true, beq_iff_eq]

end CBufferedFile

namespace BlockScan

open CBufferedFile

variable {messageStart : MessageStart} {src : List UInt8} {scan after : BlockScan}

def NoRecord (messageStart : MessageStart) (src : List UInt8) (from' upTo : Nat) : Prop :=
  ∀ offset, from' ≤ offset → offset < upTo → ¬HoldsRecord messageStart src offset

structure HeaderResult (messageStart : MessageStart) (src : List UInt8) (scan after : BlockScan)
    (found : HeaderFound) : Prop where
  blocks : ForBlocks src after.blkdat
  tried : after.tried = scan.tried
  loaded : after.loaded = scan.loaded
  exception : found = .exception →
    ∀ offset, scan.blkdat.nReadPos ≤ offset → ¬HoldsRecord messageStart src offset
  header : found ≠ .exception →
    scan.blkdat.nReadPos < after.nRewind ∧
      NoRecord messageStart src scan.blkdat.nReadPos (after.nRewind - 1) ∧
      after.nRewind ≤ after.blkdat.nReadPos ∧ after.blkdat.nReadPos ≤ after.nRewind + 7 ∧
      after.blkdat.nSrcPos ≤ after.nRewind + after.blkdat.nRewind
  mismatch : found = .mismatch → ¬HoldsRecord messageStart src (after.nRewind - 1)
  block : ∀ nSize, found = .block nSize → HoldsRecord messageStart src (after.nRewind - 1) ∧
    after.blkdat.nReadPos = after.nRewind + 7 ∧
    nSize = littleEndian ((src.drop (after.nRewind - 1 + MESSAGE_START_SIZE)).take 4)

theorem readHeader_spec (messageStart : MessageStart) (blocks : ForBlocks src scan.blkdat)
    (limit : scan.blkdat.nReadLimit = none) :
    ∃ after found, scan.readHeader messageStart = some (after, found) ∧
      HeaderResult messageStart src scan after found := by
  have max : MAX_BLOCK_SIZE = 1000000 := rfl
  have startSize : MESSAGE_START_SIZE = 4 := rfl
  obtain ⟨atByte, found, searched, search⟩ :=
    blocks.steady.findByte (messageStart.val.headD 0)
  have byteBlocks := blocks.of_sameFile search.steady search.same
  have isSrc := blocks.isSrc
  have later := search.later
  have near := search.steady.near
  have noRecord : NoRecord messageStart src scan.blkdat.nReadPos atByte.nReadPos := by
    intro offset first last record
    exact search.passed offset first last (by rw [isSrc]; exact record.first)
  -- A record has room for its header.
  have atEnd : ∀ missing ≤ 8, src.length < atByte.nReadPos + missing →
      ∀ offset, scan.blkdat.nReadPos ≤ offset → ¬HoldsRecord messageStart src offset := by
    intro missing few short offset first record
    rcases Nat.lt_or_ge offset atByte.nReadPos with before | behind
    · exact noRecord offset first before record
    · have inside := record.1
      omega
  rw [readHeader, searched]
  cases found with
  | false =>
      refine ⟨_, _, rfl, byteBlocks, rfl, rfl, fun _ => ?_, nofun, nofun, nofun⟩
      refine atEnd 1 (by omega) ?_
      rw [search.nowhere rfl, isSrc]
      exact Nat.lt_succ_self _
  | true =>
      obtain ⟨afterStart, buf, readStart, startSpec⟩ := search.steady.read
        (search.same.nReadLimit.trans limit)
        (by rw [byteBlocks.rewind, byteBlocks.room]; omega :
          MESSAGE_START_SIZE + atByte.nRewind ≤ atByte.vchBuf.length)
      have startBlocks := byteBlocks.of_sameFile startSpec.steady startSpec.same
      have startAhead := startSpec.srcPos
      have startNear := startSpec.steady.near
      rw [byteBlocks.readAhead] at startAhead
      simp only [readStart]
      cases buf with
      | none =>
          refine ⟨_, _, rfl, startBlocks, rfl, rfl, fun _ => ?_, nofun, nofun, nofun⟩
          refine atEnd MESSAGE_START_SIZE (by omega) ?_
          rw [← byteBlocks.isSrc]
          exact startSpec.of_none
      | some buf =>
          obtain ⟨startInside, rfl, startPos⟩ := startSpec.of_some
          rw [byteBlocks.isSrc] at startInside ⊢
          simp only
          split_ifs with differs
          · refine ⟨_, _, rfl, startBlocks, rfl, rfl, nofun, fun _ => ?_, fun _ record => ?_, nofun⟩
            · have rewind := startBlocks.rewind
              have byteRewind := byteBlocks.rewind
              exact ⟨by simp only; omega, noRecord, by simp only; omega, by simp only; omega,
                by simp only; omega⟩
            · exact differs record.2.1
          · obtain ⟨afterSize, bytes, readSize, sizeSpec⟩ := startSpec.steady.read
              ((startSpec.same.nReadLimit.trans search.same.nReadLimit).trans limit)
              (by rw [startBlocks.rewind, startBlocks.room]; omega :
                4 + afterStart.nRewind ≤ afterStart.vchBuf.length)
            have sizeBlocks := startBlocks.of_sameFile sizeSpec.steady sizeSpec.same
            have sizeAhead := sizeSpec.srcPos
            rw [startBlocks.readAhead] at sizeAhead
            simp only [readSize]
            cases bytes with
            | none =>
                refine ⟨_, _, rfl, sizeBlocks, rfl, rfl, fun _ => ?_, nofun, nofun, nofun⟩
                refine atEnd (MESSAGE_START_SIZE + 4) (by omega) ?_
                have short := sizeSpec.of_none
                rw [startBlocks.isSrc] at short
                omega
            | some bytes =>
                obtain ⟨sizeInside, rfl, sizePos⟩ := sizeSpec.of_some
                rw [startBlocks.isSrc, startPos] at sizeInside ⊢
                have rewind := sizeBlocks.rewind
                have byteRewind := byteBlocks.rewind
                simp only
                split_ifs with outOfRange
                · refine ⟨_, _, rfl, sizeBlocks, rfl, rfl, nofun, fun _ => ?_, fun _ record => ?_,
                    nofun⟩
                  · exact ⟨by simp only; omega, noRecord, by simp only; omega, by simp only; omega,
                      by simp only; omega⟩
                  · obtain ⟨_, _, least, most⟩ := record
                    rcases outOfRange with below | above
                    · exact absurd below (not_lt.mpr least)
                    · exact absurd above (not_lt.mpr most)
                · rw [not_or, not_lt, not_lt] at outOfRange
                  refine ⟨_, _, rfl, sizeBlocks, rfl, rfl, nofun, fun _ => ?_, nofun, ?_⟩
                  · exact ⟨by simp only; omega, noRecord, by simp only; omega, by simp only; omega,
                      by simp only; omega⟩
                  · rintro nSize ⟨⟩
                    exact ⟨⟨by simp only; omega, not_not.mp differs, outOfRange⟩,
                      by simp only; omega, rfl⟩

structure BlockResult (src : List UInt8) (nSize : Nat) (scan after : BlockScan)
    (block : Option CBlock) : Prop where
  blocks : ForBlocks src after.blkdat
  tried : after.tried = scan.tried ++ [scan.blkdat.nReadPos - (MESSAGE_START_SIZE + 4)]
  later : scan.blkdat.nReadPos ≤ after.blkdat.nReadPos
  limited : after.blkdat.nReadPos ≤ scan.blkdat.nReadPos + nSize
  failed : block = none → after.nRewind = scan.nRewind ∧ after.loaded = scan.loaded
  read : block ≠ none → after.nRewind = after.blkdat.nReadPos ∧
    after.loaded = scan.loaded ++ [(scan.blkdat.nReadPos, after.nRewind)]

theorem readBlock_spec (blocks : ForBlocks src scan.blkdat) (program : ReadProgram CBlock)
    (nSize : Nat) :
    ∃ after block, scan.readBlock program nSize = some (after, block) ∧
      BlockResult src nSize scan after block := by
  obtain ⟨framed, position, limit⟩ := blocks.framed nSize
  obtain ⟨after, block, read, readOn⟩ := framed.steady.unserialize program
  have afterBlocks := framed.of_sameFile readOn.steady readOn.same
  have later := readOn.later
  have limited := readOn.limited _ limit
  rw [position] at later limited
  rw [readBlock]
  simp only [read]
  cases block with
  | none =>
      exact ⟨_, _, rfl, afterBlocks, rfl, later, limited (Nat.le_add_right _ _),
        fun _ => ⟨rfl, rfl⟩, fun some => absurd rfl some⟩
  | some block =>
      exact ⟨_, _, rfl, afterBlocks, rfl, later, limited (Nat.le_add_right _ _), nofun,
        fun _ => ⟨rfl, rfl⟩⟩

/-- Every record before where the loop goes on was tried, or a block holds it. -/
def Covered (messageStart : MessageStart) (src : List UInt8) (scan : BlockScan) (upTo : Nat) :
    Prop :=
  ∀ offset < upTo, HoldsRecord messageStart src offset →
    offset ∈ scan.tried ∨ ∃ part ∈ scan.loaded, part.1 ≤ offset ∧ offset < part.2

theorem Covered.of_same (covered : Covered messageStart src scan scan.nRewind)
    (tried : ∀ offset ∈ scan.tried, offset ∈ after.tried)
    (loaded : ∀ part ∈ scan.loaded, part ∈ after.loaded) {upTo : Nat}
    (new : ∀ offset, scan.nRewind ≤ offset → offset < upTo → HoldsRecord messageStart src offset →
      offset ∈ after.tried ∨ ∃ part ∈ after.loaded, part.1 ≤ offset ∧ offset < part.2) :
    Covered messageStart src after upTo := by
  intro offset below record
  rcases Nat.lt_or_ge offset scan.nRewind with old | behind
  · rcases covered offset old record with known | ⟨part, known, inside⟩
    · exact Or.inl (tried offset known)
    · exact Or.inr ⟨part, loaded part known, inside⟩
  · exact new offset behind below record

/-- The state in which a round starts. -/
structure Head (src : List UInt8) (scan : BlockScan) : Prop where
  blocks : ForBlocks src scan.blkdat
  inside : scan.nRewind ≤ scan.blkdat.nSrcPos

/-- Where the next round starts to look. -/
def landing (scan : BlockScan) : Nat := (scan.blkdat.setPos scan.nRewind).2.nReadPos

theorem Head.nRewind_le_landing (head : Head src scan) : scan.nRewind ≤ scan.landing :=
  (head.blocks.steady.setPos head.inside).2.2.1

/-- A round works behind the place where it starts to look, and before the place where
the loop goes on. -/
structure Moves (scan after : BlockScan) : Prop where
  tried : ∀ offset ∈ after.tried,
    offset ∈ scan.tried ∨ (scan.landing ≤ offset ∧ offset < after.nRewind)
  loaded : ∀ part ∈ after.loaded,
    part ∈ scan.loaded ∨ (scan.landing ≤ part.1 ∧ part.2 ≤ after.nRewind)

theorem Moves.of_same (tried : after.tried = scan.tried) (loaded : after.loaded = scan.loaded) :
    Moves scan after := by
  refine ⟨fun offset member => Or.inl ?_, fun part member => Or.inl ?_⟩
  · rwa [← tried]
  · rwa [← loaded]

structure RoundResult (messageStart : MessageStart) (src : List UInt8) (scan : BlockScan)
    (round : ScanRound) : Prop where
  head : ∀ next, round.next? = some next → Head src next ∧ scan.landing < next.nRewind
  moves : Moves scan round.scan
  resumable : ∀ next, round = .mismatch next ∨ round = .loaded next → next.Resumable
  covered : ∀ next, round.next? = some next → NoRecord messageStart src scan.nRewind scan.landing →
    Covered messageStart src scan scan.nRewind → Covered messageStart src next next.nRewind
  noHeader : ∀ last, round = .noHeader last → NoRecord messageStart src scan.nRewind scan.landing →
    Covered messageStart src scan scan.nRewind → Covered messageStart src last src.length

theorem scanRound_header (network : Network) (head : Head src scan)
    (program : ReadProgram CBlock) (isError : Nat → Bool) :
    ∃ before atHeader found, before.blkdat.nReadPos = scan.landing ∧
      before.tried = scan.tried ∧ before.loaded = scan.loaded ∧
      HeaderResult network.messageStart src before atHeader found ∧
      scan.scanRound network.messageStart program isError =
        atHeader.afterHeader program isError found := by
  obtain ⟨steady, same, _, _⟩ := head.blocks.steady.setPos head.inside
  have setBlocks := head.blocks.of_sameFile steady same
  obtain ⟨before, isBefore⟩ : ∃ before : BlockScan, before =
    { scan with
      blkdat := ((scan.blkdat.setPos scan.nRewind).2.setLimit none).2,
      nRewind := scan.nRewind + 1 } := ⟨_, rfl⟩
  have beforeBlocks : ForBlocks src before.blkdat := by
    rw [isBefore]
    exact setBlocks.setLimit none
  have limit : before.blkdat.nReadLimit = none := by
    rw [isBefore]
    rfl
  obtain ⟨atHeader, found, read, header⟩ :=
    readHeader_spec network.messageStart beforeBlocks limit
  refine ⟨before, atHeader, found, ?_, ?_, ?_, header, ?_⟩
  · rw [isBefore]
    rfl
  · rw [isBefore]
  · rw [isBefore]
  · rw [scanRound, ← isBefore, read]

section Outcomes

variable {before atHeader : BlockScan} (position : before.blkdat.nReadPos = scan.landing)
  (isTried : atHeader.tried = scan.tried) (isLoaded : atHeader.loaded = scan.loaded)
include position isTried isLoaded

theorem roundResult_exception
    (header : HeaderResult messageStart src before atHeader .exception) :
    RoundResult messageStart src scan (.noHeader atHeader) := by
  refine ⟨nofun, Moves.of_same isTried isLoaded, nofun, nofun, ?_⟩
  rintro last ⟨⟩ skipped covered
  refine covered.of_same (by rw [isTried]; exact fun _ => id)
    (by rw [isLoaded]; exact fun _ => id) ?_
  intro offset behind _ record
  rcases Nat.lt_or_ge offset scan.landing with passed | here
  · exact absurd record (skipped offset behind passed)
  · exact absurd record (header.exception rfl offset (by rwa [position]))

theorem roundResult_mismatch (header : HeaderResult messageStart src before atHeader .mismatch) :
    RoundResult messageStart src scan (.mismatch atHeader) := by
  have startSize : MESSAGE_START_SIZE = 4 := rfl
  obtain ⟨later, noRecord, read, close, srcPos⟩ := header.header nofun
  rw [position] at later noRecord
  refine ⟨?_, Moves.of_same isTried isLoaded, ?_, ?_, nofun⟩
  · rintro next ⟨⟩
    have ahead := header.blocks.steady.ahead
    exact ⟨⟨header.blocks, by omega⟩, later⟩
  · rintro next (⟨⟨⟩⟩ | impossible)
    · refine ⟨srcPos, fun ended => ?_⟩
      obtain ⟨atSrcPos, feof⟩ := (eof_iff _).mp ended
      have atEnd := header.blocks.steady.ended feof
      omega
    · contradiction
  · rintro next ⟨⟩ skipped covered
    refine covered.of_same (by rw [isTried]; exact fun _ => id)
      (by rw [isLoaded]; exact fun _ => id) ?_
    intro offset behind below record
    rcases Nat.lt_or_ge offset scan.landing with passed | here
    · exact absurd record (skipped offset behind passed)
    · rcases Nat.eq_or_lt_of_le (Nat.le_sub_one_of_lt below) with rfl | passed
      · exact absurd record (header.mismatch rfl)
      · exact absurd record (noRecord offset here passed)

theorem afterHeader_block_spec {network : Network} {nSize : Nat} (program : ReadProgram CBlock)
    (isError : Nat → Bool)
    (header : HeaderResult network.messageStart src before atHeader (.block nSize)) :
    ∃ round, atHeader.afterHeader program isError (.block nSize) = some round ∧
      RoundResult network.messageStart src scan round := by
  have startSize : MESSAGE_START_SIZE = 4 := rfl
  obtain ⟨later, noRecord, _, _, _⟩ := header.header nofun
  rw [position] at later noRecord
  obtain ⟨record, atBlock, _⟩ := header.block nSize rfl
  obtain ⟨next, block, readBlock, result⟩ := readBlock_spec header.blocks program nSize
  have resultLater := result.later
  have ahead := result.blocks.steady.ahead
  have nextTried : next.tried = scan.tried ++ [atHeader.nRewind - 1] := by
    rw [result.tried, isTried, atBlock]
    rfl
  have new : NoRecord network.messageStart src scan.nRewind scan.landing → ∀ offset,
      scan.nRewind ≤ offset → offset < atHeader.nRewind →
        HoldsRecord network.messageStart src offset → offset ∈ next.tried := by
    intro skipped offset behind below record
    rcases Nat.lt_or_ge offset scan.landing with passed | here
    · exact absurd record (skipped offset behind passed)
    · rcases Nat.eq_or_lt_of_le (Nat.le_sub_one_of_lt below) with rfl | passed
      · rw [nextTried]
        exact List.mem_append_right _ (List.mem_singleton_self _)
      · exact absurd record (noRecord offset here passed)
  have triesOne : atHeader.nRewind ≤ next.nRewind → ∀ offset ∈ next.tried,
      offset ∈ scan.tried ∨ (scan.landing ≤ offset ∧ offset < next.nRewind) := by
    intro onward offset member
    rw [nextTried, List.mem_append, List.mem_singleton] at member
    exact member.imp id fun isOffset => ⟨by omega, by omega⟩
  simp only [afterHeader, readBlock]
  cases block with
  | none =>
      obtain ⟨sameRewind, sameLoaded⟩ := result.failed rfl
      refine ⟨_, rfl, ?_, ⟨triesOne sameRewind.ge, fun part member => Or.inl ?_⟩, ?_, ?_, nofun⟩
      · rintro next ⟨⟩
        exact ⟨⟨result.blocks, by omega⟩, by omega⟩
      · rwa [← isLoaded, ← sameLoaded]
      · rintro next (impossible | impossible) <;> contradiction
      · rintro next ⟨⟩ skipped covered
        refine covered.of_same (by rw [nextTried]; exact fun _ => List.mem_append_left _)
          (by rw [sameLoaded, isLoaded]; exact fun _ => id) ?_
        intro offset behind below record
        rw [sameRewind] at below
        exact Or.inl (new skipped offset behind below record)
  | some block =>
      obtain ⟨atPos, nextLoaded⟩ := result.read nofun
      have moves : Moves scan next := by
        refine ⟨triesOne (by omega), fun part member => ?_⟩
        rw [nextLoaded, isLoaded, List.mem_append, List.mem_singleton] at member
        refine member.imp id fun isPart => ?_
        rw [isPart]
        exact ⟨by simp only; omega, le_rfl⟩
      simp only
      split_ifs
      · refine ⟨_, rfl, nofun, moves, ?_, nofun, nofun⟩
        rintro next (impossible | impossible) <;> contradiction
      · refine ⟨_, rfl, ?_, moves, ?_, ?_, nofun⟩
        · rintro next ⟨⟩
          exact ⟨⟨result.blocks, by omega⟩, by omega⟩
        · rintro next (impossible | ⟨⟨⟩⟩)
          · contradiction
          · have near := result.blocks.steady.near
            refine ⟨by omega, fun ended => ?_⟩
            obtain ⟨atSrcPos, feof⟩ := (eof_iff _).mp ended
            have atEnd := result.blocks.steady.ended feof
            omega
        · rintro next ⟨⟩ skipped covered
          refine covered.of_same (by rw [nextTried]; exact fun _ => List.mem_append_left _)
            (by
              rw [nextLoaded, isLoaded]
              exact fun _ => List.mem_append_left _) ?_
          intro offset behind below other
          rcases Nat.lt_or_ge offset atHeader.nRewind with first | inside
          · exact Or.inl (new skipped offset behind first other)
          · have apart := record.apart other (by omega)
            refine Or.inr ⟨(atHeader.blkdat.nReadPos, _), ?_, ?_, below⟩
            · rw [nextLoaded]
              exact List.mem_append_right _ (List.mem_singleton_self _)
            · change atHeader.blkdat.nReadPos ≤ offset
              omega

end Outcomes

theorem scanRound_spec (network : Network) (head : Head src scan)
    (program : ReadProgram CBlock) (isError : Nat → Bool) :
    ∃ round, scan.scanRound network.messageStart program isError = some round ∧
      RoundResult network.messageStart src scan round := by
  obtain ⟨before, atHeader, found, position, beforeTried, beforeLoaded, header, isRound⟩ :=
    scanRound_header network head program isError
  have isTried := header.tried.trans beforeTried
  have isLoaded := header.loaded.trans beforeLoaded
  rw [isRound]
  cases found with
  | exception => exact ⟨_, rfl, roundResult_exception position isTried isLoaded header⟩
  | mismatch => exact ⟨_, rfl, roundResult_mismatch position isTried isLoaded header⟩
  | block nSize => exact afterHeader_block_spec position isTried isLoaded program isError header

/-- A loop has read nothing behind the place where it goes on. -/
structure Behind (scan : BlockScan) : Prop where
  tried : ∀ offset ∈ scan.tried, offset < scan.nRewind
  loaded : ∀ part ∈ scan.loaded, part.2 ≤ scan.nRewind

theorem Behind.moves (behind : Behind scan) (moves : Moves scan after)
    (onward : scan.nRewind ≤ after.nRewind) : Behind after := by
  constructor
  · intro offset member
    rcases moves.tried offset member with old | ⟨_, new⟩
    · exact (behind.tried offset old).trans_le onward
    · exact new
  · intro part member
    rcases moves.loaded part member with old | ⟨_, new⟩
    · exact (behind.loaded part old).trans onward
    · exact new

theorem ScanRound.scan_of_next {round : ScanRound} {next : BlockScan}
    (goesOn : round.next? = some next) : round.scan = next := by
  cases round with
  | noHeader last => contradiction
  | error last => contradiction
  | mismatch scan => exact Option.some.inj goesOn
  | failed scan => exact Option.some.inj goesOn
  | loaded scan => exact Option.some.inj goesOn

theorem Reaches.sound {network : Network} {program : ReadProgram CBlock} {isError : Nat → Bool}
    {first : BlockScan} (reached : Reaches network.messageStart program isError first scan)
    (head : Head src first) (behind : Behind first) : Head src scan ∧ Behind scan := by
  induction reached with
  | first => exact ⟨head, behind⟩
  | next _ _ ran goesOn ih =>
      obtain ⟨scanHead, scanBehind⟩ := ih
      obtain ⟨round, ranAgain, result⟩ := scanRound_spec network scanHead program isError
      cases ran.symm.trans ranAgain
      obtain ⟨nextHead, further⟩ := result.head _ goesOn
      have lands := scanHead.nRewind_le_landing
      have moves := result.moves
      rw [ScanRound.scan_of_next goesOn] at moves
      exact ⟨nextHead, scanBehind.moves moves (by omega)⟩

theorem scanLoop_next {program : ReadProgram CBlock} {isError : Nat → Bool} {round : ScanRound}
    {next : BlockScan} (going : scan.blkdat.eof = false)
    (ran : scan.scanRound messageStart program isError = some round)
    (goesOn : round.next? = some next) (left : Nat) :
    scanLoop messageStart program isError (left + 1) scan =
      scanLoop messageStart program isError left next := by
  rw [scanLoop, going, ran]
  cases round with
  | noHeader last => contradiction
  | error last => contradiction
  | mismatch scan =>
      cases goesOn
      rfl
  | failed scan =>
      cases goesOn
      rfl
  | loaded scan =>
      cases goesOn
      rfl

/-- The loop from a state that it reaches ends as the whole loop does. -/
theorem Reaches.scanLoop {program : ReadProgram CBlock} {isError : Nat → Bool}
    {first final : BlockScan} {fError : Bool} {rounds : Nat}
    (reached : Reaches messageStart program isError first scan)
    (ran : BlockScan.scanLoop messageStart program isError rounds first = some (final, fError)) :
    ∃ left, BlockScan.scanLoop messageStart program isError left scan = some (final, fError) := by
  induction reached with
  | first => exact ⟨rounds, ran⟩
  | next _ going round goesOn ih =>
      obtain ⟨left, rest⟩ := ih
      cases left with
      | zero => contradiction
      | succ left =>
          rw [scanLoop_next going round goesOn] at rest
          exact ⟨left, rest⟩

/-- A place that the loop has not read and does not come to again. -/
structure Lost (scan : BlockScan) (offset : Nat) : Prop where
  untried : offset ∉ scan.tried
  unloaded : ∀ part ∈ scan.loaded, ¬(part.1 ≤ offset ∧ offset < part.2)

theorem Lost.moves {offset : Nat} (lost : Lost scan offset) (moves : Moves scan after)
    (passed : offset < scan.landing) : Lost after offset := by
  constructor
  · intro member
    rcases moves.tried offset member with old | ⟨new, _⟩
    · exact lost.untried old
    · omega
  · intro part member inside
    rcases moves.loaded part member with old | ⟨new, _⟩
    · exact lost.unloaded part old inside
    · omega

section Samples

end Samples

end BlockScan

end Lycancoin
