import Lycancoin.Data.KeyedBatch
import Lycancoin.Primitives.DecimalText
import Lycancoin.Primitives.StringMap

namespace Lycancoin

open Lycancoin.Data

def orderPosKey : StdString := stdString "n"

def i64tostr (n : Int) : StdString := (intText n).map fun c => UInt8.ofNat c.toNat

def atoi64String (str : StdString) : Int := atoi64 (str.map fun byte => Char.ofNat byte.toNat)

def readOrderPos (mapValue : StringMap) : Int :=
  match mapValue[orderPosKey]? with
  | none => -1
  | some text => atoi64String text

def writeOrderPos (nOrderPos : Int) (mapValue : StringMap) : StringMap :=
  if nOrderPos = -1 then mapValue else mapValue.insert orderPosKey (i64tostr nOrderPos)

inductive RecordFailure where
  | stream (failure : ReadFailure)
  | limitExceeded
deriving DecidableEq, Repr

def RecordFailure.what : RecordFailure → String
  | stream failure => failure.what
  | limitExceeded => "String length limit exceeded"

abbrev RecordReader := Reader RecordFailure UInt8

/-- `Unserialize` of a `LIMITED_STRING`.  What is written is not limited. -/
def unserializeLimited (limit : Nat) : RecordReader StdString := do
  let size ← readCompactSize.mapError .stream
  if limit < size then throw .limitExceeded
  else (Reader.take .endOfData size : ByteReader StdString).mapError .stream

/-- `_ssExtra` is what follows the map in a record that was read. -/
structure CAccountingEntry where
  strAccount : StdString
  nCreditDebit : Int
  nTime : Int
  strOtherAccount : StdString
  strComment : StdString
  mapValue : StringMap
  nOrderPos : Int
  nEntryNo : UInt64
  ssExtra : List UInt8

namespace CAccountingEntry

/-- What is put behind the comment: a zero byte, the map with the order position, and the rest. -/
def appended (entry : CAccountingEntry) : List UInt8 :=
  let mapValue := writeOrderPos entry.nOrderPos entry.mapValue
  if mapValue.isEmpty && entry.ssExtra.isEmpty then []
  else 0 :: (serializeMap mapValue ++ entry.ssExtra)

/-- A string up to its first zero byte. -/
def beforeZero (str : StdString) : StdString := str.takeWhile (· ≠ 0)

/-- `SerializationOp` for writing: the bytes, and the entry as it is left. -/
def serialize (entry : CAccountingEntry) : List UInt8 × CAccountingEntry :=
  let strComment := entry.strComment ++ entry.appended
  (serializeInt32 CLIENT_VERSION ++ (serializeInt64 entry.nCreditDebit ++
    (serializeInt64 entry.nTime ++ (serializeString entry.strOtherAccount ++
      serializeString strComment))),
    { entry with
      strComment := beforeZero strComment
      mapValue := (writeOrderPos entry.nOrderPos entry.mapValue).erase orderPosKey })

/-- The map behind the zero byte of a comment, and what follows it. -/
def readAppended (strComment : StdString) : RecordReader (StringMap × List UInt8) :=
  match strComment.dropWhile (· ≠ 0) with
  | [] => pure (∅, [])
  | _ :: tail =>
      match unserializeMap.run tail with
      | .error failure => throw (.stream failure)
      | .ok read => pure read

/-- `SerializationOp` for reading, into a new entry. -/
def unserialize : RecordReader CAccountingEntry := do
  let _ ← unserializeInt32.mapError .stream
  let nCreditDebit ← unserializeInt64.mapError .stream
  let nTime ← unserializeInt64.mapError .stream
  let strOtherAccount ← unserializeLimited 65536
  let strComment ← unserializeLimited 65536
  let (mapValue, ssExtra) ← readAppended strComment
  pure
    { strAccount := [], nCreditDebit, nTime, strOtherAccount
      strComment := beforeZero strComment
      mapValue := mapValue.erase orderPosKey
      nOrderPos := readOrderPos mapValue
      nEntryNo := 0
      ssExtra }

end CAccountingEntry

/-! ## The order position in a map -/

theorem atoi64String_i64tostr {n : Int} (range : InInt64 n) : atoi64String (i64tostr n) = n := by
  have small : ∀ c ∈ intText n, c.toNat < 256 := by
    intro c member
    have digit : ∀ c ∈ Nat.toDigits 10 n.natAbs, c.toNat < 256 := by
      intro c member
      have isDigit := isDigit_of_mem_toDigits member
      simp only [Char.isDigit, Bool.and_eq_true, decide_eq_true_eq] at isDigit
      exact Nat.lt_of_le_of_lt isDigit.2 (by decide)
    unfold intText at member
    split at member
    · cases List.mem_cons.1 member with
      | inl minus => rw [minus]; decide
      | inr behind => exact digit c behind
    · exact digit c member
  have ascii : (intText n).map (fun c => Char.ofNat (UInt8.ofNat c.toNat).toNat) = intText n := by
    rw [List.map_congr_left (g := id), List.map_id]
    intro c member
    rw [UInt8.toNat_ofNat', Nat.mod_eq_of_lt (small c member), Char.ofNat_toNat]
    rfl
  rw [atoi64String, i64tostr, List.map_map, Function.comp_def, ascii, atoi64_intText range]

theorem readOrderPos_writeOrderPos {mapValue : StringMap} {nOrderPos : Int}
    (range : InInt64 nOrderPos) (free : mapValue[orderPosKey]? = none) :
    readOrderPos (writeOrderPos nOrderPos mapValue) = nOrderPos := by
  unfold writeOrderPos
  split
  · rename_i unset
    simp [readOrderPos, free, unset]
  · simp [readOrderPos, atoi64String_i64tostr range]

theorem erase_writeOrderPos {mapValue : StringMap} {nOrderPos : Int}
    (free : mapValue[orderPosKey]? = none) :
    (writeOrderPos nOrderPos mapValue).erase orderPosKey = mapValue := by
  apply Std.ExtTreeMap.ext_getElem?
  intro key
  rw [KeyedBatch.getElem?_erase_eq]
  by_cases own : key = orderPosKey
  · rw [if_pos own, own, free]
  · rw [if_neg own, writeOrderPos]
    split
    · rfl
    · rw [KeyedBatch.getElem?_insert_eq, if_neg own]

theorem unserializeLimited_iff {limit : Nat} (small : limit ≤ MAX_SIZE) {str str' : StdString}
    {stream rest : List UInt8} :
    (unserializeLimited limit).run (serializeString str ++ stream) = .ok (str', rest) ↔
      str.length ≤ limit ∧ str' = str ∧ rest = stream := by
  constructor
  · intro returns
    obtain ⟨size, middle, counted, returns⟩ := Reader.run_bind_eq_ok.mp returns
    rw [Reader.run_mapError_eq_ok, serializeString, List.append_assoc] at counted
    rw [inverse_readCompactSize.reads _ (readCompactSize_back counted)] at counted
    cases counted
    split at returns
    · exact absurd returns Reader.run_throw_ne_ok
    · rename_i within
      rw [Reader.run_mapError_eq_ok, Reads.take ReadFailure.endOfData str] at returns
      cases returns
      exact ⟨Nat.not_lt.1 within, rfl, rfl⟩
  · rintro ⟨within, same, left⟩
    subst same left
    rw [unserializeLimited, serializeString, List.append_assoc, Reader.run_bind_eq_ok]
    refine ⟨str'.length, str' ++ rest, ?_, ?_⟩
    · exact Reader.run_mapError_eq_ok.2 (inverse_readCompactSize.reads _ (within.trans small) _)
    · rw [if_neg (Nat.not_lt.2 within), Reader.run_mapError_eq_ok]
      exact Reads.take ReadFailure.endOfData str' rest

theorem reads_unserializeLimited {limit : Nat} (small : limit ≤ MAX_SIZE) {str : StdString}
    (short : str.length ≤ limit) : Reads (unserializeLimited limit) (serializeString str) str :=
  fun _ => (unserializeLimited_iff small).2 ⟨short, rfl, rfl⟩

namespace CAccountingEntry

/-- The values of the types of the fields, and a map without the key of the order position. -/
structure Creatable (entry : CAccountingEntry) : Prop where
  nCreditDebit : InInt64 entry.nCreditDebit
  nTime : InInt64 entry.nTime
  nOrderPos : InInt64 entry.nOrderPos
  mapValue : entry.mapValue[orderPosKey]? = none

structure SameFields (entry other : CAccountingEntry) : Prop where
  nCreditDebit : other.nCreditDebit = entry.nCreditDebit
  nTime : other.nTime = entry.nTime
  strOtherAccount : other.strOtherAccount = entry.strOtherAccount
  strComment : other.strComment = entry.strComment
  mapValue : other.mapValue = entry.mapValue
  nOrderPos : other.nOrderPos = entry.nOrderPos

/-- The strings are short enough for the reader, and the comment has no zero byte. -/
structure Storable (entry : CAccountingEntry) : Prop where
  strOtherAccount : entry.strOtherAccount.length ≤ 65536
  strComment : (0 : UInt8) ∉ entry.strComment
  record : entry.strComment.length + entry.appended.length ≤ 65536

variable {entry : CAccountingEntry}

theorem appended_cases (entry : CAccountingEntry) :
    (entry.appended = [] ∧ writeOrderPos entry.nOrderPos entry.mapValue = ∅) ∨
      entry.appended =
        0 :: (serializeMap (writeOrderPos entry.nOrderPos entry.mapValue) ++ entry.ssExtra) := by
  by_cases nothing : (writeOrderPos entry.nOrderPos entry.mapValue).isEmpty &&
      entry.ssExtra.isEmpty
  · left
    constructor
    · simp only [appended, nothing, if_true]
    · simp only [Bool.and_eq_true] at nothing
      exact Std.ExtTreeMap.isEmpty_iff.1 nothing.1
  · right
    simp only [appended, nothing, Bool.false_eq_true, if_false]

theorem beforeZero_append_appended (entry : CAccountingEntry) :
    beforeZero (entry.strComment ++ entry.appended) = beforeZero entry.strComment := by
  have shown : entry.appended.takeWhile (· ≠ 0) = [] := by
    cases entry.appended_cases with
    | inl nothing => rw [nothing.1, List.takeWhile_nil]
    | inr something =>
        rw [something]
        rfl
  unfold beforeZero
  rw [List.takeWhile_append, shown, List.append_nil]
  split
  · rename_i whole
    exact ((List.takeWhile_prefix _).eq_of_length whole).symm
  · rfl

theorem beforeZero_eq_iff {str : StdString} : beforeZero str = str ↔ (0 : UInt8) ∉ str := by
  rw [beforeZero, List.takeWhile_eq_self_iff]
  constructor
  · intro each member
    simpa using each 0 member
  · intro absent byte member
    simp only [ne_eq, decide_eq_true_eq]
    intro zero
    exact absent (zero ▸ member)

/-- The bytes behind a comment without zero bytes are read back. -/
theorem readAppended_back (clean : (0 : UInt8) ∉ entry.strComment)
    (short : entry.appended.length ≤ MAX_SIZE) :
    ∃ ssExtra, ∀ stream, (readAppended (entry.strComment ++ entry.appended)).run stream =
      .ok ((writeOrderPos entry.nOrderPos entry.mapValue, ssExtra), stream) := by
  have passed : (entry.strComment ++ entry.appended).dropWhile (· ≠ 0) =
      entry.appended.dropWhile (· ≠ 0) := by
    apply List.dropWhile_append_of_pos
    intro byte member
    simp only [ne_eq, decide_eq_true_eq]
    intro zero
    exact clean (zero ▸ member)
  cases entry.appended_cases with
  | inl nothing =>
      refine ⟨[], ?_⟩
      intro stream
      rw [readAppended, passed, nothing.1, nothing.2]
      rfl
  | inr something =>
      have fits : MapWithinMaxSize (writeOrderPos entry.nOrderPos entry.mapValue) := by
        apply mapWithinMaxSize_of_length
        rw [something, List.length_cons, List.length_append] at short
        omega
      have tail : entry.appended.dropWhile (· ≠ 0) = entry.appended := by
        rw [something]
        rfl
      refine ⟨entry.ssExtra, ?_⟩
      intro stream
      rw [readAppended, passed, tail, something]
      simp only [reads_unserializeMap fits entry.ssExtra]
      rfl

theorem unserialize_of_storable (creatable : entry.Creatable) (storable : entry.Storable) :
    ∃ back, unserialize.run entry.serialize.1 = .ok (back, []) ∧ SameFields entry back := by
  have record := storable.record
  have version := (inverse_unserializeInt32.reads CLIENT_VERSION (by decide)).mapError
    RecordFailure.stream
  have nCreditDebit := (inverse_unserializeInt64.reads _ creatable.nCreditDebit).mapError
    RecordFailure.stream
  have nTime := (inverse_unserializeInt64.reads _ creatable.nTime).mapError RecordFailure.stream
  have strOtherAccount := reads_unserializeLimited (by decide) storable.strOtherAccount
  have short : (entry.strComment ++ entry.appended).length ≤ 65536 := by
    rw [List.length_append]
    omega
  have strComment := reads_unserializeLimited (by decide) short
  have small : entry.appended.length ≤ MAX_SIZE := by
    unfold MAX_SIZE
    omega
  obtain ⟨ssExtra, behind⟩ := readAppended_back storable.strComment small
  refine ⟨
    { strAccount := []
      nCreditDebit := entry.nCreditDebit
      nTime := entry.nTime
      strOtherAccount := entry.strOtherAccount
      strComment := beforeZero (entry.strComment ++ entry.appended)
      mapValue := (writeOrderPos entry.nOrderPos entry.mapValue).erase orderPosKey
      nOrderPos := readOrderPos (writeOrderPos entry.nOrderPos entry.mapValue)
      nEntryNo := 0
      ssExtra }, ?_, ?_⟩
  · rw [unserialize, serialize, Reader.run_bind_eq_ok]
    refine ⟨_, _, version _, ?_⟩
    rw [Reader.run_bind_eq_ok]
    refine ⟨_, _, nCreditDebit _, ?_⟩
    rw [Reader.run_bind_eq_ok]
    refine ⟨_, _, nTime _, ?_⟩
    rw [Reader.run_bind_eq_ok]
    refine ⟨_, _, strOtherAccount _, ?_⟩
    rw [Reader.run_bind_eq_ok]
    refine ⟨entry.strComment ++ entry.appended, [], ?_, ?_⟩
    · simpa only [List.append_nil] using strComment []
    · rw [Reader.run_bind_eq_ok]
      exact ⟨_, _, behind [], rfl⟩
  · constructor
    · rfl
    · rfl
    · rfl
    · change beforeZero (entry.strComment ++ entry.appended) = entry.strComment
      rw [beforeZero_append_appended, beforeZero_eq_iff]
      exact storable.strComment
    · exact erase_writeOrderPos creatable.mapValue
    · exact readOrderPos_writeOrderPos creatable.nOrderPos creatable.mapValue

theorem storable_of_unserialize {back : CAccountingEntry} {rest : List UInt8}
    (creatable : entry.Creatable) (returns : unserialize.run entry.serialize.1 = .ok (back, rest))
    (same : SameFields entry back) : entry.Storable := by
  have version := (inverse_unserializeInt32.reads CLIENT_VERSION (by decide)).mapError
    RecordFailure.stream
  have nCreditDebit := (inverse_unserializeInt64.reads _ creatable.nCreditDebit).mapError
    RecordFailure.stream
  have nTime := (inverse_unserializeInt64.reads _ creatable.nTime).mapError RecordFailure.stream
  obtain ⟨_, _, first, returns⟩ := Reader.run_bind_eq_ok.mp returns
  rw [serialize, version] at first
  cases first
  obtain ⟨_, _, second, returns⟩ := Reader.run_bind_eq_ok.mp returns
  rw [nCreditDebit] at second
  cases second
  obtain ⟨_, _, third, returns⟩ := Reader.run_bind_eq_ok.mp returns
  rw [nTime] at third
  cases third
  obtain ⟨strOtherAccount, _, fourth, returns⟩ := Reader.run_bind_eq_ok.mp returns
  obtain ⟨shortOther, rfl, rfl⟩ := (unserializeLimited_iff (by decide)).1 fourth
  obtain ⟨strComment, _, fifth, returns⟩ := Reader.run_bind_eq_ok.mp returns
  rw [← List.append_nil (serializeString _)] at fifth
  obtain ⟨shortComment, rfl, rfl⟩ := (unserializeLimited_iff (by decide)).1 fifth
  obtain ⟨⟨mapValue, ssExtra⟩, _, sixth, returns⟩ := Reader.run_bind_eq_ok.mp returns
  obtain ⟨rfl, rfl⟩ := Reader.run_pure_eq_ok.mp returns
  have comment := same.strComment
  simp only [beforeZero_append_appended, beforeZero_eq_iff] at comment
  rw [List.length_append] at shortComment
  exact ⟨shortOther, comment, shortComment⟩

/-- An entry is read back as it was, and writing leaves it, if and only if its strings can be
stored. -/
theorem readBack_iff_storable (creatable : entry.Creatable) :
    ((∃ back, unserialize.run entry.serialize.1 = .ok (back, []) ∧ SameFields entry back) ∧
      entry.serialize.2 = entry) ↔ entry.Storable := by
  constructor
  · intro ⟨⟨back, returns, same⟩, _⟩
    exact storable_of_unserialize creatable returns same
  · intro storable
    apply And.intro (unserialize_of_storable creatable storable)
    have comment : beforeZero (entry.strComment ++ entry.appended) = entry.strComment := by
      rw [beforeZero_append_appended, beforeZero_eq_iff]
      exact storable.strComment
    simp only [serialize, comment, erase_writeOrderPos creatable.mapValue]

end CAccountingEntry

end Lycancoin
