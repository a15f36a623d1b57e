import Lycancoin.Data.RingBuffer
import Lycancoin.Primitives.Serialize

namespace Lycancoin

open Lycancoin.Data

/-- `CBufferedFile` with the bytes of its source file, of which `nSrcPos` have been
read.  Positions stay far below `2 ^ 64`, and `(uint64_t)(-1)`, which no position
reaches, is `none` as a limit. -/
structure CBufferedFile where
  src : List UInt8
  feof : Bool
  nSrcPos : Nat
  nReadPos : Nat
  nReadLimit : Option Nat
  nRewind : Nat
  vchBuf : List UInt8

/-- What is read while a value is unserialized, with sizes that depend on the bytes
read before. -/
inductive ReadProgram (α : Type)
  | done (value : α)
  | throw
  | read (nSize : Nat) (next : List UInt8 → ReadProgram α)

namespace CBufferedFile

def ofFile (fileIn : List UInt8) (nBufSize nRewindIn : Nat) : CBufferedFile where
  src := fileIn
  feof := false
  nSrcPos := 0
  nReadPos := 0
  nReadLimit := none
  nRewind := nRewindIn
  vchBuf := List.replicate nBufSize 0

def eof (file : CBufferedFile) : Bool := file.nReadPos == file.nSrcPos && file.feof

def setPos (nPos : Nat) (file : CBufferedFile) : Bool × CBufferedFile :=
  if nPos + file.nRewind < file.nSrcPos then
    (false, { file with nReadPos := file.nSrcPos - file.nRewind })
  else if file.nSrcPos < nPos then (false, { file with nReadPos := file.nSrcPos })
  else (true, { file with nReadPos := nPos })

def setLimit (nPos : Option Nat) (file : CBufferedFile) : Bool × CBufferedFile :=
  if nPos.any (· < file.nReadPos) then (false, file) else (true, { file with nReadLimit := nPos })

/-! In what follows, `none` as the value that is returned stands for an exception, and
`none` as a whole for a loop that does not end. -/

/-- `Fill`, with two values of the type `unsigned int`. -/
def fill (file : CBufferedFile) : CBufferedFile × Option Bool :=
  let pos := file.nSrcPos % file.vchBuf.length % 2 ^ 32
  let nAvail :=
    (file.vchBuf.length - (file.nSrcPos - file.nReadPos) - file.nRewind) % 2 ^ 32
  let readNow := min ((file.vchBuf.length - pos) % 2 ^ 32) nAvail
  if readNow = 0 then (file, some false)
  else
    let read := (file.src.drop file.nSrcPos).take readNow
    let feof := file.feof || decide (read.length < readNow)
    if read.isEmpty then ({ file with feof }, none)
    else
      ({ file with
        feof
        vchBuf := overwrite 0 file.vchBuf pos read
        nSrcPos := file.nSrcPos + read.length }, some true)

/-- The call of `Fill` where nothing is left to be read. -/
def fillIfEmpty (file : CBufferedFile) : CBufferedFile × Option Bool :=
  if file.nReadPos = file.nSrcPos then file.fill else (file, some true)

/-- The loop of `read`, with a bound on its rounds. -/
def readLoop : Nat → Nat → CBufferedFile → Option (CBufferedFile × Option (List UInt8))
  | _, 0, file => some (file, some [])
  | 0, _ + 1, _ => none
  | rounds + 1, nSize + 1, file =>
      match file.fillIfEmpty with
      | (file, none) => some (file, none)
      | (file, some _) =>
          let pos := file.nReadPos % file.vchBuf.length
          let nNow := min (min (nSize + 1) (file.vchBuf.length - pos)) (file.nSrcPos - file.nReadPos)
          let copied := (file.vchBuf.drop pos).take nNow
          (readLoop rounds (nSize + 1 - nNow) { file with nReadPos := file.nReadPos + nNow }).map
            fun (file, rest) => (file, rest.map (copied ++ ·))

def read (nSize : Nat) (file : CBufferedFile) : Option (CBufferedFile × Option (List UInt8)) :=
  if file.nReadLimit.any (· < nSize + file.nReadPos) then some (file, none)
  else if file.vchBuf.length < nSize + file.nRewind then some (file, none)
  else readLoop nSize nSize file

/-- The loop of `FindByte`, with a bound on its rounds and whether the byte was found. -/
def findLoop (ch : UInt8) : Nat → CBufferedFile → Option (CBufferedFile × Bool)
  | 0, _ => none
  | rounds + 1, file =>
      match file.fillIfEmpty with
      | (file, none) => some (file, false)
      | (file, some _) =>
          if file.vchBuf[file.nReadPos % file.vchBuf.length]? = some ch then some (file, true)
          else findLoop ch rounds { file with nReadPos := file.nReadPos + 1 }

def findByte (ch : UInt8) (file : CBufferedFile) : Option (CBufferedFile × Bool) :=
  findLoop ch (file.src.length + 1) file

/-- `operator>>`. -/
def unserialize {α : Type} : ReadProgram α → CBufferedFile → Option (CBufferedFile × Option α)
  | .done value, file => some (file, some value)
  | .throw, file => some (file, none)
  | .read nSize next, file =>
      match file.read nSize with
      | none => none
      | some (file, none) => some (file, none)
      | some (file, some bytes) => unserialize (next bytes) file

section Reading

variable {file : CBufferedFile}

/-- A buffer that keeps at least as much as it reads ahead, and holds the last bytes
that were read from the source. -/
structure Steady (file : CBufferedFile) : Prop where
  rewind : file.nRewind < file.vchBuf.length
  half : file.vchBuf.length ≤ 2 * file.nRewind
  small : file.vchBuf.length < 2 ^ 32
  holds : RingHolds file.vchBuf file.src file.nSrcPos
  inSource : file.nSrcPos ≤ file.src.length
  ahead : file.nReadPos ≤ file.nSrcPos
  near : file.nSrcPos ≤ file.nReadPos + file.nRewind
  ended : file.feof = true → file.nSrcPos = file.src.length

/-- The buffer and the file are the same, but for how far they were read. -/
structure SameFile (file after : CBufferedFile) : Prop where
  src : after.src = file.src
  nReadLimit : after.nReadLimit = file.nReadLimit
  nRewind : after.nRewind = file.nRewind
  room : after.vchBuf.length = file.vchBuf.length

theorem SameFile.refl (file : CBufferedFile) : SameFile file file := ⟨rfl, rfl, rfl, rfl⟩

theorem SameFile.trans {middle after : CBufferedFile} (first : SameFile file middle)
    (second : SameFile middle after) : SameFile file after where
  src := second.src.trans first.src
  nReadLimit := second.nReadLimit.trans first.nReadLimit
  nRewind := second.nRewind.trans first.nRewind
  room := second.room.trans first.room

/-- How far a buffer reads ahead at most. -/
def readAhead (file : CBufferedFile) : Nat := file.vchBuf.length - file.nRewind

theorem Steady.fill (steady : Steady file) (empty : file.nReadPos = file.nSrcPos) :
    (file.nSrcPos = file.src.length ∧ file.fill = ({ file with feof := true }, none) ∧
        Steady { file with feof := true }) ∨
      ∃ after, file.fill = (after, some true) ∧ Steady after ∧ SameFile file after ∧
        after.nReadPos = file.nReadPos ∧ file.nSrcPos < after.nSrcPos ∧
        after.nSrcPos ≤ file.nSrcPos + file.readAhead := by
  have rewind := steady.rewind
  have half := steady.half
  have small := steady.small
  have inSource := steady.inSource
  have bound := Nat.mod_lt file.nSrcPos (by omega : 0 < file.vchBuf.length)
  have pos : file.nSrcPos % file.vchBuf.length % 2 ^ 32 = file.nSrcPos % file.vchBuf.length :=
    Nat.mod_eq_of_lt (by omega)
  have room : (file.vchBuf.length - file.nSrcPos % file.vchBuf.length) % 2 ^ 32 =
      file.vchBuf.length - file.nSrcPos % file.vchBuf.length := Nat.mod_eq_of_lt (by omega)
  have avail : (file.vchBuf.length - (file.nSrcPos - file.nReadPos) - file.nRewind) % 2 ^ 32 =
      file.readAhead := by
    rw [readAhead, empty, Nat.sub_self, Nat.sub_zero]
    exact Nat.mod_eq_of_lt (by omega)
  have positive : 0 < file.readAhead := by
    rw [readAhead]
    omega
  have isAhead : file.readAhead = file.vchBuf.length - file.nRewind := rfl
  simp only [CBufferedFile.fill, pos, room, avail]
  generalize isPlace : file.nSrcPos % file.vchBuf.length = place at *
  obtain ⟨readNow, isRead⟩ : ∃ readNow,
      readNow = min (file.vchBuf.length - place) file.readAhead := ⟨_, rfl⟩
  rw [← isRead, if_neg (by omega)]
  have length : ((file.src.drop file.nSrcPos).take readNow).length =
      min readNow (file.src.length - file.nSrcPos) := by
    rw [List.length_take, List.length_drop]
  by_cases atEnd : file.nSrcPos = file.src.length
  · left
    have nothing : (file.src.drop file.nSrcPos).take readNow = [] := by
      rw [List.drop_eq_nil_iff.mpr atEnd.ge, List.take_nil]
    refine ⟨atEnd, ?_, ⟨rewind, half, small, steady.holds, inSource, steady.ahead, steady.near,
      fun _ => atEnd⟩⟩
    rw [nothing, List.isEmpty_nil, if_pos rfl, List.length_nil, decide_eq_true (by omega),
      Bool.or_true]
  · right
    have some : ((file.src.drop file.nSrcPos).take readNow).isEmpty = false := by
      rw [List.isEmpty_eq_false_iff]
      intro nothing
      rw [nothing, List.length_nil] at length
      omega
    have chunk : (file.src.drop file.nSrcPos).take readNow = (file.src.drop file.nSrcPos).take
        (min readNow (file.src.length - file.nSrcPos)) := by
      rw [← List.length_drop]
      exact List.take_eq_take_min
    have holds := steady.holds.write (0 : UInt8)
      (by rw [isPlace]; omega :
        file.nSrcPos % file.vchBuf.length + min readNow (file.src.length - file.nSrcPos) ≤
          file.vchBuf.length) (by omega)
    rw [isPlace, ← chunk] at holds
    have sameRoom := length_overwrite (0 : UInt8)
      (by rw [length]; omega :
        place + ((file.src.drop file.nSrcPos).take readNow).length ≤ file.vchBuf.length)
    rw [if_neg (by rw [some]; exact Bool.false_ne_true)]
    refine ⟨_, rfl, ⟨?_, ?_, ?_, ?_, ?_, ?_, ?_, ?_⟩, ⟨rfl, rfl, rfl, sameRoom⟩, rfl, ?_, ?_⟩
    · exact lt_of_lt_of_eq rewind sameRoom.symm
    · exact le_of_eq_of_le sameRoom half
    · exact lt_of_eq_of_lt sameRoom small
    · rw [length]
      exact holds
    · change file.nSrcPos + _ ≤ file.src.length
      rw [length]
      omega
    · change file.nReadPos ≤ file.nSrcPos + _
      omega
    · change file.nSrcPos + _ ≤ file.nReadPos + file.nRewind
      rw [length]
      omega
    · change (file.feof || decide (_ < readNow)) = true → file.nSrcPos + _ = file.src.length
      rw [length, Bool.or_eq_true, decide_eq_true_eq]
      rintro (before | short)
      · exact absurd (steady.ended before) atEnd
      · omega
    · change file.nSrcPos < file.nSrcPos + _
      rw [length]
      omega
    · change file.nSrcPos + _ ≤ _
      rw [length]
      omega

/-- What a loop of the buffer finds before it takes the next byte. -/
theorem Steady.fillIfEmpty (steady : Steady file) :
    (file.nReadPos = file.src.length ∧
        file.fillIfEmpty = ({ file with feof := true }, none) ∧
        Steady { file with feof := true } ∧ file.nSrcPos = file.nReadPos) ∨
      ∃ after, file.fillIfEmpty = (after, some true) ∧ Steady after ∧ SameFile file after ∧
        after.nReadPos = file.nReadPos ∧ file.nReadPos < after.nSrcPos ∧
        after.nSrcPos ≤ max file.nSrcPos (file.nReadPos + file.readAhead) := by
  rw [CBufferedFile.fillIfEmpty]
  split_ifs with empty
  · rcases steady.fill empty with ⟨atEnd, returned, steadyAfter⟩ |
      ⟨after, returned, steadyAfter, same, position, more, most⟩
    · exact Or.inl ⟨empty.trans atEnd, returned, steadyAfter, empty.symm⟩
    · refine Or.inr ⟨after, returned, steadyAfter, same, position, lt_of_eq_of_lt empty more, ?_⟩
      rw [empty]
      exact most.trans (le_max_right _ _)
  · have ahead := steady.ahead
    exact Or.inr ⟨file, rfl, steady, SameFile.refl file, rfl, by omega, le_max_left _ _⟩

/-- A later reading position up to which the source has been read. -/
theorem Steady.advance (steady : Steady file) {nReadPos : Nat} (later : file.nReadPos ≤ nReadPos)
    (ahead : nReadPos ≤ file.nSrcPos) : Steady { file with nReadPos } where
  rewind := steady.rewind
  half := steady.half
  small := steady.small
  holds := steady.holds
  inSource := steady.inSource
  ahead := ahead
  near := steady.near.trans (Nat.add_le_add_right later _)
  ended := steady.ended

/-- What reading from the buffer comes to: the bytes of the source, or an exception at
its end. -/
structure ReadResult (nSize : Nat) (file after : CBufferedFile) (result : Option (List UInt8)) :
    Prop where
  steady : Steady after
  same : SameFile file after
  later : file.nReadPos ≤ after.nReadPos
  most : after.nReadPos ≤ file.nReadPos + nSize
  srcPos : after.nSrcPos ≤ max file.nSrcPos (file.nReadPos + nSize + file.readAhead)
  enough : file.nReadPos + nSize ≤ file.src.length →
    result = some ((file.src.drop file.nReadPos).take nSize) ∧
      after.nReadPos = file.nReadPos + nSize
  short : file.src.length < file.nReadPos + nSize → result = none

theorem ReadResult.of_some {nSize : Nat} {after : CBufferedFile} {bytes : List UInt8}
    (result : ReadResult nSize file after (some bytes)) :
    file.nReadPos + nSize ≤ file.src.length ∧ bytes = (file.src.drop file.nReadPos).take nSize ∧
      after.nReadPos = file.nReadPos + nSize := by
  have inside : file.nReadPos + nSize ≤ file.src.length := by
    by_contra beyond
    exact Option.some_ne_none _ (result.short (by omega))
  obtain ⟨same, position⟩ := result.enough inside
  exact ⟨inside, Option.some.inj same, position⟩

theorem ReadResult.of_none {nSize : Nat} {after : CBufferedFile}
    (result : ReadResult nSize file after none) : file.src.length < file.nReadPos + nSize := by
  by_contra inside
  exact Option.some_ne_none _ (result.enough (by omega)).1.symm

theorem Steady.readLoop (steady : Steady file) {rounds nSize : Nat} (enough : nSize ≤ rounds) :
    ∃ after result, file.readLoop rounds nSize = some (after, result) ∧
      ReadResult nSize file after result := by
  induction rounds generalizing nSize file with
  | zero =>
      rw [Nat.le_zero] at enough
      subst enough
      refine ⟨file, some [], by rw [CBufferedFile.readLoop], steady, SameFile.refl file, le_rfl,
        le_rfl, le_max_left _ _, fun _ => ⟨by rw [List.take_zero], rfl⟩, fun beyond => ?_⟩
      have inside := steady.ahead.trans steady.inSource
      omega
  | succ rounds ih =>
      cases nSize with
      | zero =>
          refine ⟨file, some [], by rw [CBufferedFile.readLoop], steady, SameFile.refl file, le_rfl,
            le_rfl, le_max_left _ _, fun _ => ⟨by rw [List.take_zero], rfl⟩, fun beyond => ?_⟩
          have inside := steady.ahead.trans steady.inSource
          omega
      | succ nSize =>
          rw [CBufferedFile.readLoop]
          rcases steady.fillIfEmpty with ⟨atEnd, returned, steadyAfter, _⟩ |
            ⟨filled, returned, steadyFilled, same, position, more, most⟩
          · rw [returned]
            refine ⟨{ file with feof := true }, none, rfl, steadyAfter, ⟨rfl, rfl, rfl, rfl⟩, le_rfl,
              Nat.le_add_right _ _, le_max_left _ _, fun inside => ?_, fun _ => rfl⟩
            omega
          · rw [returned]
            simp only
            obtain ⟨nNow, isNow⟩ : ∃ nNow, nNow = min (min (nSize + 1)
                (filled.vchBuf.length - filled.nReadPos % filled.vchBuf.length))
                (filled.nSrcPos - filled.nReadPos) := ⟨_, rfl⟩
            rw [← isNow]
            have rewind := steadyFilled.rewind
            have half := steadyFilled.half
            have near := steadyFilled.near
            have place := Nat.mod_lt filled.nReadPos (by omega : 0 < filled.vchBuf.length)
            have isAhead : file.readAhead = file.vchBuf.length - file.nRewind := rfl
            have copied := steadyFilled.holds.read
              (by omega : filled.nReadPos % filled.vchBuf.length + nNow ≤ filled.vchBuf.length)
              (by omega : filled.nReadPos + nNow ≤ filled.nSrcPos)
              (by omega : filled.nSrcPos ≤ filled.nReadPos + filled.vchBuf.length)
            have advanced := steadyFilled.advance (by omega : filled.nReadPos ≤ filled.nReadPos + nNow)
              (by omega)
            obtain ⟨after, result, ran, rest⟩ := ih advanced (by omega : nSize + 1 - nNow ≤ rounds)
            have sameSrc := same.src
            have sameAhead : filled.readAhead = file.readAhead := by
              rw [readAhead, readAhead, same.room, same.nRewind]
            have srcPos := rest.srcPos
            have later := rest.later
            have most := rest.most
            change after.nReadPos ≤ filled.nReadPos + nNow + (nSize + 1 - nNow) at most
            change after.nSrcPos ≤ max filled.nSrcPos
              (filled.nReadPos + nNow + (nSize + 1 - nNow) + filled.readAhead) at srcPos
            change filled.nReadPos + nNow ≤ after.nReadPos at later
            rw [ran, copied]
            have sameFile : SameFile file after := same.trans
              ⟨rest.same.src, rest.same.nReadLimit, rest.same.nRewind, rest.same.room⟩
            refine ⟨after, _, rfl, rest.steady, sameFile, by omega, by omega, by omega, ?_, ?_⟩
            · intro inside
              obtain ⟨rfl, final⟩ := rest.enough (by
                change filled.nReadPos + nNow + (nSize + 1 - nNow) ≤ filled.src.length
                rw [sameSrc]
                omega)
              constructor
              · change some ((filled.src.drop filled.nReadPos).take nNow ++
                  (filled.src.drop (filled.nReadPos + nNow)).take (nSize + 1 - nNow)) = _
                rw [← List.drop_drop, ← List.take_add, sameSrc, position,
                  show nNow + (nSize + 1 - nNow) = nSize + 1 by omega]
              · rw [final]
                change filled.nReadPos + nNow + (nSize + 1 - nNow) = _
                omega
            · intro beyond
              rw [rest.short (by
                change filled.src.length < filled.nReadPos + nNow + (nSize + 1 - nNow)
                rw [sameSrc]
                omega)]
              rfl

/-- `read` below the limit and within the room of the buffer. -/
theorem Steady.read (steady : Steady file) {nSize : Nat} (limit : file.nReadLimit = none)
    (room : nSize + file.nRewind ≤ file.vchBuf.length) :
    ∃ after result, file.read nSize = some (after, result) ∧ ReadResult nSize file after result := by
  rw [CBufferedFile.read, limit, Option.any_none, if_neg Bool.false_ne_true, if_neg (by omega)]
  exact steady.readLoop le_rfl

/-- What reading does to a buffer, whatever it comes to: it goes on, but not over the limit. -/
structure ReadOn (file after : CBufferedFile) : Prop where
  steady : Steady after
  same : SameFile file after
  later : file.nReadPos ≤ after.nReadPos
  limited : ∀ nPos, file.nReadLimit = some nPos → file.nReadPos ≤ nPos → after.nReadPos ≤ nPos

theorem ReadOn.refl (steady : Steady file) : ReadOn file file :=
  ⟨steady, SameFile.refl file, le_rfl, fun _ _ inside => inside⟩

theorem ReadOn.trans {middle after : CBufferedFile} (first : ReadOn file middle)
    (second : ReadOn middle after) : ReadOn file after := by
  refine ⟨second.steady, first.same.trans second.same, first.later.trans second.later, ?_⟩
  intro nPos limit inside
  exact second.limited nPos (first.same.nReadLimit.trans limit) (first.limited nPos limit inside)

theorem Steady.readOn (steady : Steady file) (nSize : Nat) :
    ∃ after result, file.read nSize = some (after, result) ∧ ReadOn file after := by
  rw [CBufferedFile.read]
  split_ifs with beyond
  · exact ⟨file, none, rfl, ReadOn.refl steady⟩
  · exact ⟨file, none, rfl, ReadOn.refl steady⟩
  · obtain ⟨after, result, returned, spec⟩ := steady.readLoop (le_refl nSize)
    refine ⟨after, result, returned, spec.steady, spec.same, spec.later, fun nPos limit _ => ?_⟩
    have most := spec.most
    rw [limit, Option.any_some, decide_eq_true_eq, not_lt] at beyond
    omega

theorem Steady.unserialize (steady : Steady file) {α : Type} (program : ReadProgram α) :
    ∃ after result, file.unserialize program = some (after, result) ∧ ReadOn file after := by
  induction program generalizing file with
  | done value => exact ⟨file, some value, rfl, ReadOn.refl steady⟩
  | throw => exact ⟨file, none, rfl, ReadOn.refl steady⟩
  | read nSize next ih =>
      obtain ⟨middle, bytes, returned, first⟩ := steady.readOn nSize
      rw [CBufferedFile.unserialize, returned]
      cases bytes with
      | none => exact ⟨middle, none, rfl, first⟩
      | some bytes =>
          obtain ⟨after, result, ran, rest⟩ := ih bytes first.steady
          exact ⟨after, result, ran, first.trans rest⟩

/-- `FindByte` stops at the first place of the byte, or it throws where there is none. -/
structure FindResult (ch : UInt8) (file after : CBufferedFile) (found : Bool) : Prop where
  steady : Steady after
  same : SameFile file after
  later : file.nReadPos ≤ after.nReadPos
  passed : ∀ place, file.nReadPos ≤ place → place < after.nReadPos → file.src[place]? ≠ some ch
  srcPos : after.nSrcPos ≤ max file.nSrcPos (after.nReadPos + file.readAhead)
  there : found = true → file.src[after.nReadPos]? = some ch ∧ after.nReadPos < after.nSrcPos
  nowhere : found = false → after.nReadPos = file.src.length

theorem Steady.findLoop (steady : Steady file) (ch : UInt8) {rounds : Nat}
    (enough : file.src.length < file.nReadPos + rounds) :
    ∃ after found, file.findLoop ch rounds = some (after, found) ∧
      FindResult ch file after found := by
  induction rounds generalizing file with
  | zero =>
      have inside := steady.ahead.trans steady.inSource
      omega
  | succ rounds ih =>
      rw [CBufferedFile.findLoop]
      rcases steady.fillIfEmpty with ⟨atEnd, returned, steadyAfter, _⟩ |
        ⟨filled, returned, steadyFilled, same, position, more, most⟩
      · rw [returned]
        refine ⟨{ file with feof := true }, false, rfl, steadyAfter, ⟨rfl, rfl, rfl, rfl⟩, le_rfl,
          fun place first last => absurd last (not_lt.mpr first), le_max_left _ _, nofun,
          fun _ => atEnd⟩
      · rw [returned]
        simp only
        have near := steadyFilled.near
        have half := steadyFilled.half
        have rewind := steadyFilled.rewind
        have byte := steadyFilled.holds filled.nReadPos (by omega) (by omega)
        have sameSrc := same.src
        have atPlace : filled.vchBuf[filled.nReadPos % filled.vchBuf.length]? =
            file.src[file.nReadPos]? := by rw [byte, sameSrc, position]
        rw [atPlace]
        split_ifs with here
        · refine ⟨filled, true, rfl, steadyFilled, same, position.ge, ?_, by omega, ?_, nofun⟩
          · intro place first last
            omega
          · intro _
            rw [position]
            exact ⟨here, more⟩
        · have advanced := steadyFilled.advance
            (by omega : filled.nReadPos ≤ filled.nReadPos + 1) (by omega)
          obtain ⟨after, found, ran, rest⟩ := ih advanced (by
            change filled.src.length < filled.nReadPos + 1 + rounds
            rw [sameSrc]
            omega)
          have later := rest.later
          have srcPos := rest.srcPos
          have sameAhead : filled.readAhead = file.readAhead := by
            rw [readAhead, readAhead, same.room, same.nRewind]
          change filled.nReadPos + 1 ≤ after.nReadPos at later
          change after.nSrcPos ≤ max filled.nSrcPos (after.nReadPos + filled.readAhead) at srcPos
          refine ⟨after, found, ran, rest.steady, same.trans
            ⟨rest.same.src, rest.same.nReadLimit, rest.same.nRewind, rest.same.room⟩,
            by omega, ?_, by omega, ?_, ?_⟩
          · intro place first last
            rcases Nat.eq_or_lt_of_le first with rfl | behind
            · exact here
            · rw [← sameSrc]
              exact rest.passed place (by
                change filled.nReadPos + 1 ≤ place
                omega) last
          · rw [← sameSrc]
            exact rest.there
          · rw [← sameSrc]
            exact rest.nowhere

theorem Steady.findByte (steady : Steady file) (ch : UInt8) :
    ∃ after found, file.findByte ch = some (after, found) ∧ FindResult ch file after found :=
  steady.findLoop ch (by omega)

/-- `SetPos` to a place before the end of what was read. -/
theorem Steady.setPos (steady : Steady file) {nPos : Nat} (before : nPos ≤ file.nSrcPos) :
    Steady (file.setPos nPos).2 ∧ SameFile file (file.setPos nPos).2 ∧
      nPos ≤ (file.setPos nPos).2.nReadPos ∧ (file.setPos nPos).2.nSrcPos = file.nSrcPos := by
  rw [CBufferedFile.setPos]
  split_ifs with far behind
  · refine ⟨⟨steady.rewind, steady.half, steady.small, steady.holds, steady.inSource, ?_, ?_,
      steady.ended⟩, ⟨rfl, rfl, rfl, rfl⟩, ?_, rfl⟩
    · exact Nat.sub_le _ _
    · change file.nSrcPos ≤ file.nSrcPos - file.nRewind + file.nRewind
      omega
    · change nPos ≤ file.nSrcPos - file.nRewind
      omega
  · omega
  · exact ⟨⟨steady.rewind, steady.half, steady.small, steady.holds, steady.inSource, before,
      by change file.nSrcPos ≤ nPos + file.nRewind; omega, steady.ended⟩, ⟨rfl, rfl, rfl, rfl⟩,
      le_rfl, rfl⟩

/-- `SetPos` goes where it is told if what was read since fits into the part of the
buffer that is kept. -/
theorem setPos_iff (file : CBufferedFile) (nPos : Nat) :
    ((file.setPos nPos).1 = true ∧ (file.setPos nPos).2.nReadPos = nPos) ↔
      file.nSrcPos ≤ nPos + file.nRewind ∧ nPos ≤ file.nSrcPos := by
  rw [CBufferedFile.setPos]
  split_ifs with far behind
  · constructor
    · intro ⟨impossible, _⟩
      contradiction
    · intro ⟨near, _⟩
      omega
  · constructor
    · intro ⟨impossible, _⟩
      contradiction
    · intro ⟨_, before⟩
      omega
  · exact ⟨fun _ => ⟨by omega, by omega⟩, fun _ => ⟨rfl, rfl⟩⟩

end Reading

end CBufferedFile

end Lycancoin
