import Lycancoin.Data.BaseChange
import Mathlib.Data.List.GetD

namespace Lycancoin

open Lycancoin.Data
open Lycancoin.Data.BitGroups

/-! Texts that have a character for so many bits and are padded. -/

/-- An alphabet with the table that is read back, which ends the text at all other characters, and
the number of padding characters by the number of zero bits behind the last byte. -/
structure PaddedCoding where
  bits : Nat
  alphabet : List Char
  table : List Int
  padding : Nat → Nat
  length_alphabet : alphabet.length = 2 ^ bits
  table_alphabet : ∀ i < 2 ^ bits, table.getD (alphabet.getD i default).toNat (-1) = i
  table_pad : table.getD '='.toNat (-1) = -1
  table_end : table.getD 0 (-1) = -1
  padding_zero : padding 0 = 0

structure EncodeState where
  mode : Nat
  left : Nat
  strRet : List Char

structure DecodeState where
  mode : Nat
  left : Nat
  vchRet : List UInt8

/-- `table[(unsigned char)*p]`. -/
def tableAt (table : List Int) (c : Char) : Int := table.getD c.toNat (-1)

/-- The loop over the characters, and the rest of the text. -/
def decodeChars (table : List Int) (step : DecodeState → Nat → DecodeState) :
    List Char → DecodeState → DecodeState × List Char
  | [], state => (state, [])
  | c :: p, state =>
      if tableAt table c = -1 then (state, c :: p)
      else decodeChars table step p (step state (tableAt table c).toNat)

/-- `left || p[0] != '=' || … || table[(unsigned char)p[count]] != -1`. -/
def wrongPadding (table : List Int) (count left : Nat) (p : List Char) : Bool :=
  left != 0 || (List.range count).any (fun i => p.getD i '\x00' != '=') ||
    tableAt table (p.getD count '\x00') != -1

namespace PaddedCoding

variable (coding : PaddedCoding)

def charAt (group : Nat) : Char := coding.alphabet.getD group default

/-- The text stops here, or goes on with a character that is not in the alphabet. -/
def Stops (text : List Char) : Prop := tableAt coding.table (text.getD 0 '\x00') = -1

def Plain (text : List Char) : Prop := ∀ c ∈ text, c ∈ coding.alphabet ∨ c = '='

def Bounded (groups : List Nat) : Prop := ∀ group ∈ groups, group < 2 ^ coding.bits

def Written (bytes : List UInt8) (text : List Char) : Prop :=
  ∃ groups zeros, zeros < coding.bits ∧ coding.Bounded groups ∧
    Carries coding.bits 8 groups (bytes.map UInt8.toNat) zeros 0 ∧
    text = groups.map coding.charAt ++ List.replicate (coding.padding zeros) '='

def Read (text : List Char) (bytes : List UInt8) (invalid : Bool) : Prop :=
  ∃ groups rest pending left, text = groups.map coding.charAt ++ rest ∧ coding.Stops rest ∧
    coding.Bounded groups ∧ Carries coding.bits 8 groups (bytes.map UInt8.toNat) pending left ∧
    pending < 8 ∧ (invalid = false ↔ left = 0 ∧ pending < coding.bits ∧
      ∃ behind, rest = List.replicate (coding.padding pending) '=' ++ behind ∧
        coding.Stops behind)

variable {coding : PaddedCoding} {bytes : List UInt8} {text : List Char} {groups : List Nat}

theorem tableAt_charAt {group : Nat} (below : group < 2 ^ coding.bits) :
    tableAt coding.table (coding.charAt group) = group := coding.table_alphabet group below

theorem mem_alphabet_iff (c : Char) :
    c ∈ coding.alphabet ↔ ∃ group < 2 ^ coding.bits, coding.charAt group = c := by
  rw [List.mem_iff_getElem]
  constructor
  · rintro ⟨group, inside, rfl⟩
    exact ⟨group, coding.length_alphabet ▸ inside, by
      rw [charAt, List.getD_eq_getElem _ _ inside]⟩
  · rintro ⟨group, below, rfl⟩
    rw [← coding.length_alphabet] at below
    exact ⟨group, below, by rw [charAt, List.getD_eq_getElem _ _ below]⟩

theorem stops_nil : coding.Stops [] := coding.table_end

theorem stops_pad (text : List Char) : coding.Stops ('=' :: text) := coding.table_pad

theorem not_stops_charAt {group : Nat} (below : group < 2 ^ coding.bits) (text : List Char) :
    ¬coding.Stops (coding.charAt group :: text) := by
  intro stops
  rw [Stops, List.getD_cons_zero, tableAt_charAt below] at stops
  omega

theorem stops_replicate {behind : List Char} (count : Nat) (stops : coding.Stops behind) :
    coding.Stops (List.replicate count '=' ++ behind) := by
  cases count with
  | zero => exact stops
  | succ count => exact stops_pad _

/-- What of the alphabet a text begins with is read off it in one way. -/
theorem groups_unique {others : List Nat} {rest behind : List Char}
    (bounded : coding.Bounded groups) (boundedOthers : coding.Bounded others)
    (stops : coding.Stops rest) (stopsOther : coding.Stops behind)
    (same : groups.map coding.charAt ++ rest = others.map coding.charAt ++ behind) :
    groups = others ∧ rest = behind := by
  induction groups generalizing others with
  | nil =>
      cases others with
      | nil => exact ⟨rfl, same⟩
      | cons other others =>
          rw [List.map_nil, List.nil_append, List.map_cons, List.cons_append] at same
          rw [same] at stops
          exact absurd stops (not_stops_charAt (boundedOthers other List.mem_cons_self) _)
  | cons group groups ih =>
      have below := bounded group List.mem_cons_self
      cases others with
      | nil =>
          rw [List.map_nil, List.nil_append, List.map_cons, List.cons_append] at same
          rw [← same] at stopsOther
          exact absurd stopsOther (not_stops_charAt below _)
      | cons other others =>
          simp only [List.map_cons, List.cons_append, List.cons.injEq] at same
          have first := congrArg (tableAt coding.table) same.1
          rw [tableAt_charAt below, tableAt_charAt (boundedOthers other List.mem_cons_self)] at first
          obtain ⟨rfl, later⟩ := ih (fun group member => bounded group (List.mem_cons_of_mem _ member))
            (fun group member => boundedOthers group (List.mem_cons_of_mem _ member)) same.2
          exact ⟨by rw [Int.ofNat.inj first], later⟩

theorem map_toNat_inj {first second : List UInt8}
    (same : first.map UInt8.toNat = second.map UInt8.toNat) : first = second :=
  List.map_injective_iff.mpr (fun _ _ => UInt8.toNat.inj) same

theorem Written.unique {other : List Char} (written : coding.Written bytes text)
    (again : coding.Written bytes other) : text = other := by
  obtain ⟨groups, zeros, few, bounded, carries, rfl⟩ := written
  obtain ⟨others, pending, fewPending, boundedOthers, carriesOthers, rfl⟩ := again
  obtain ⟨rfl, rfl⟩ := taken_unique carries carriesOthers few fewPending bounded boundedOthers
  rfl

theorem Written.plain (written : coding.Written bytes text) : coding.Plain text := by
  obtain ⟨groups, zeros, -, bounded, -, rfl⟩ := written
  intro c member
  rw [List.mem_append] at member
  cases member with
  | inl member =>
      obtain ⟨group, inside, rfl⟩ := List.mem_map.mp member
      exact Or.inl ((mem_alphabet_iff _).mpr ⟨group, bounded group inside, rfl⟩)
  | inr member => exact Or.inr (List.eq_of_mem_replicate member)

/-- A text with the written one in front is accepted if nothing of the alphabet is behind that. -/
theorem Read.of_written {result : List UInt8} {invalid : Bool} {behind : List Char}
    (read : coding.Read (text ++ behind) result invalid) (written : coding.Written bytes text)
    (few : coding.bits ≤ 8) (stops : coding.Stops behind) : result = bytes ∧ invalid = false := by
  obtain ⟨groups, zeros, fewZeros, bounded, carries, rfl⟩ := written
  obtain ⟨others, rest, pending, left, same, ends, boundedOthers, carriesOthers, inside, valid⟩ := read
  rw [List.append_assoc] at same
  obtain ⟨rfl, rfl⟩ := groups_unique bounded boundedOthers (stops_replicate _ stops) ends same
  obtain ⟨sameBytes, rfl, rfl⟩ := given_unique carriesOthers carries inside (by omega)
  exact ⟨map_toNat_inj sameBytes, valid.mpr ⟨rfl, fewZeros, behind, rfl, stops⟩⟩

theorem Read.written (read : coding.Read text bytes false) :
    ∃ front behind, coding.Written bytes front ∧ text = front ++ behind ∧ coding.Stops behind := by
  obtain ⟨groups, rest, pending, left, same, -, bounded, carries, -, valid⟩ := read
  obtain ⟨rfl, few, behind, rfl, stops⟩ := valid.mp rfl
  exact ⟨_, behind, ⟨groups, pending, few, bounded, carries, rfl⟩, by
    rw [same, List.append_assoc], stops⟩

/-- A text of the alphabet and the padding stops at its end or at padding. -/
theorem Plain.stops_iff (plain : coding.Plain text) :
    coding.Stops text ↔ text = [] ∨ text.head? = some '=' := by
  cases text with
  | nil => simp [stops_nil]
  | cons c rest =>
      have known := plain c List.mem_cons_self
      simp only [List.cons_ne_nil, List.head?_cons, Option.some.injEq, false_or]
      constructor
      · intro stops
        refine known.resolve_left fun member => ?_
        obtain ⟨group, below, rfl⟩ := (mem_alphabet_iff c).mp member
        exact not_stops_charAt below _ stops
      · rintro rfl
        exact stops_pad rest

theorem wrongPadding_eq_false_iff (count left : Nat) (p : List Char) :
    wrongPadding coding.table count left p = false ↔
      left = 0 ∧ ∃ behind, p = List.replicate count '=' ++ behind ∧ coding.Stops behind := by
  have padded : ∀ p : List Char,
      ((∀ i < count, p.getD i '\x00' = '=') ∧ tableAt coding.table (p.getD count '\x00') = -1 ↔
        ∃ behind, p = List.replicate count '=' ++ behind ∧ coding.Stops behind) := by
    induction count with
    | zero => simp [Stops]
    | succ count ih =>
        intro p
        cases p with
        | nil =>
            have first : ('\x00' : Char) ≠ '=' := by decide
            simp only [List.replicate_succ, List.cons_append, reduceCtorEq, false_and,
              exists_false, iff_false, not_and]
            intro all
            exact absurd (all 0 (Nat.succ_pos count)) first
        | cons c rest =>
            simp only [Nat.forall_lt_succ_left', List.getD_cons_zero, List.getD_cons_succ,
              List.replicate_succ, List.cons_append, List.cons.injEq, and_assoc, ih rest,
              exists_and_left]
  simp only [wrongPadding, Bool.or_eq_false_iff, bne_eq_false_iff_eq, List.any_eq_false,
    List.mem_range, ← padded p, and_assoc]
  simp

/-- The loop takes in what the text has of the alphabet in front. -/
theorem decodeChars_spec {step : DecodeState → Nat → DecodeState}
    (holds : List Nat → DecodeState → Prop)
    (keeps : ∀ groups state group, holds groups state → group < 2 ^ coding.bits →
      holds (groups ++ [group]) (step state group))
    (plain : coding.Plain text) {state : DecodeState} (start : holds groups state) :
    ∃ more rest, text = more.map coding.charAt ++ rest ∧ coding.Stops rest ∧
      coding.Bounded more ∧ (decodeChars coding.table step text state).2 = rest ∧
      holds (groups ++ more) (decodeChars coding.table step text state).1 := by
  induction text generalizing groups state with
  | nil => exact ⟨[], [], rfl, stops_nil, by simp [Bounded], rfl, by simpa [decodeChars] using start⟩
  | cons c p ih =>
      rw [decodeChars]
      split_ifs with ends
      · exact ⟨[], c :: p, rfl, ends, by simp [Bounded], rfl, by simpa using start⟩
      · have member := (plain c List.mem_cons_self).resolve_right fun pad =>
          ends (by rw [pad]; exact coding.table_pad)
        obtain ⟨group, below, rfl⟩ := (mem_alphabet_iff c).mp member
        rw [tableAt_charAt below, Int.toNat_natCast]
        obtain ⟨more, rest, same, stops, bounded, left, held⟩ :=
          ih (fun c member => plain c (List.mem_cons_of_mem _ member))
            (keeps groups state group start below)
        refine ⟨group :: more, rest, by rw [same]; rfl, stops, ?_, left, ?_⟩
        · intro other member
          cases member with
          | head => exact below
          | tail _ member => exact bounded other member
        · rw [List.append_assoc] at held
          exact held

theorem split_held (bits : Nat) {value high low : Nat} (fits : value < 2 ^ (high + low)) :
    bits * 2 ^ (high + low) + value =
      (bits <<< high ||| value >>> low) * 2 ^ low + (value &&& 2 ^ low - 1) := by
  have upper : value >>> low < 2 ^ high := by
    rw [Nat.shiftRight_eq_div_pow, Nat.div_lt_iff_lt_mul (Nat.two_pow_pos low), ← pow_add]
    exact fits
  have split := Nat.div_add_mod' value (2 ^ low)
  rw [← Nat.shiftLeft_add_eq_or_of_lt upper, Nat.shiftLeft_eq, Nat.shiftRight_eq_div_pow,
    Nat.and_two_pow_sub_one_eq_mod, Nat.add_mul, Nat.mul_assoc, ← pow_add, Nat.add_assoc, split]

theorem and_lt (value low : Nat) : (value &&& 2 ^ low - 1) < 2 ^ low := by
  rw [Nat.and_two_pow_sub_one_eq_mod]
  exact Nat.mod_lt _ (Nat.two_pow_pos low)

theorem split_low (value high low : Nat) :
    (value &&& 2 ^ (high + low) - 1) =
      (value >>> low &&& 2 ^ high - 1) * 2 ^ low + (value &&& 2 ^ low - 1) := by
  rw [Nat.and_two_pow_sub_one_eq_mod, Nat.and_two_pow_sub_one_eq_mod, Nat.and_two_pow_sub_one_eq_mod,
    Nat.shiftRight_eq_div_pow, Nat.add_comm high, pow_add, Nat.mod_mul]
  ring

/-- The bits of the bytes so far that have no character yet, as many as the mode says, stand
where the next ones go behind them. -/
def Encodes (coding : PaddedCoding) (held : Nat → Nat) (bytes : List UInt8)
    (state : EncodeState) : Prop :=
  ∃ groups bits, Carries 8 coding.bits (bytes.map UInt8.toNat) groups (held state.mode) bits ∧
    (state.mode ≠ 0 → state.left = bits <<< (coding.bits - held state.mode)) ∧
    state.strRet = groups.map coding.charAt

/-- The bits of the characters so far that make no byte yet, as many as the mode says, are left. -/
def Decodes (coding : PaddedCoding) (held : Nat → Nat) (groups : List Nat)
    (state : DecodeState) : Prop :=
  ∃ bits, Carries coding.bits 8 groups (state.vchRet.map UInt8.toNat) (held state.mode) bits ∧
    (state.mode ≠ 0 → state.left = bits)

theorem bounded_toNat (bytes : List UInt8) : ∀ group ∈ bytes.map UInt8.toNat, group < 2 ^ 8 := by
  simpa using fun byte (_ : byte ∈ bytes) => byte.toNat_lt

theorem written_of_none {bits : Nat} (positive : 0 < coding.bits)
    (carries : Carries 8 coding.bits (bytes.map UInt8.toNat) groups 0 bits) :
    coding.Written bytes (groups.map coding.charAt) :=
  ⟨groups, 0, positive, carries.bounded, carries.symm (bounded_toNat bytes), by
    rw [coding.padding_zero, List.replicate_zero, List.append_nil]⟩

theorem written_of_some {bits pending zeros : Nat} (positive : 0 < pending)
    (fits : pending + zeros = coding.bits)
    (carries : Carries 8 coding.bits (bytes.map UInt8.toNat) groups pending bits) :
    coding.Written bytes (groups.map coding.charAt ++
      coding.charAt (bits <<< zeros) :: List.replicate (coding.padding zeros) '=') := by
  have last : bits * 2 ^ zeros < 2 ^ coding.bits := by
    rw [← fits, pow_add]
    exact Nat.mul_lt_mul_of_pos_right carries.small (Nat.two_pow_pos zeros)
  have bounded : coding.Bounded (groups ++ [bits * 2 ^ zeros]) := by
    intro group member
    rw [List.mem_append, List.mem_singleton] at member
    cases member with
    | inl member => exact carries.bounded group member
    | inr same => rw [same]; exact last
  exact ⟨_, zeros, by omega, bounded, carries.fill fits (bounded_toNat bytes), by
    simp [Nat.shiftLeft_eq]⟩

theorem map_toNat_push {group : Nat} (below : group < 256) (bytes : List UInt8) :
    (bytes ++ [UInt8.ofNat group]).map UInt8.toNat = bytes.map UInt8.toNat ++ [group] := by
  rw [List.map_append, List.map_singleton, UInt8.toNat_ofNat', Nat.mod_eq_of_lt below]

/-- The bits of a character are taken in behind those that are left. -/
theorem carries_keep {left pending group : Nat}
    (carries : Carries coding.bits 8 groups (bytes.map UInt8.toNat) pending left)
    (below : group < 2 ^ coding.bits) :
    Carries coding.bits 8 (groups ++ [group]) (bytes.map UInt8.toNat) (pending + coding.bits)
      (left <<< coding.bits ||| group) := by
  rw [← Nat.shiftLeft_add_eq_or_of_lt below, Nat.shiftLeft_eq]
  exact carries.take below

theorem carries_push {left pending group high low : Nat}
    (carries : Carries coding.bits 8 groups (bytes.map UInt8.toNat) pending left)
    (below : group < 2 ^ coding.bits) (parts : high + low = coding.bits)
    (fits : pending + high = 8) :
    Carries coding.bits 8 (groups ++ [group])
      ((bytes ++ [UInt8.ofNat (left <<< high ||| group >>> low)]).map UInt8.toNat) low
      (group &&& 2 ^ low - 1) := by
  have taken := carries.take below
  rw [← parts] at below
  rw [show pending + coding.bits = low + 8 by omega, ← parts, split_held left below, parts] at taken
  have given := taken.give (and_lt group low)
  rwa [← map_toNat_push (given.bounded _ (by simp))] at given

/-- They fill a byte, and none are left. -/
theorem carries_push_all {left pending group : Nat}
    (carries : Carries coding.bits 8 groups (bytes.map UInt8.toNat) pending left)
    (below : group < 2 ^ coding.bits) (fits : pending + coding.bits = 8) :
    Carries coding.bits 8 (groups ++ [group])
      ((bytes ++ [UInt8.ofNat (left <<< coding.bits ||| group)]).map UInt8.toNat) 0 0 := by
  have taken := carries_keep carries below
  rw [fits] at taken
  have given := taken.giveAll
  rwa [← map_toNat_push (given.bounded _ (by simp))] at given

/-- A written text is read back, and an accepted one has the text of what is read in front, with
nothing or padding behind it. -/
theorem exact_of {encode : List UInt8 → List Char} {decode : List Char → List UInt8 × Bool}
    (few : coding.bits ≤ 8) (written : ∀ bytes, coding.Written bytes (encode bytes))
    (read : ∀ text, coding.Plain text → coding.Read text (decode text).1 (decode text).2) :
    (∀ bytes, decode (encode bytes) = (bytes, false)) ∧
    ∀ text, coding.Plain text → ((decode text).2 = false ↔
      ∃ behind, text = encode (decode text).1 ++ behind ∧
        (behind = [] ∨ behind.head? = some '=')) := by
  constructor
  · intro bytes
    have here := read _ (written bytes).plain
    rw [← List.append_nil (encode bytes)] at here
    obtain ⟨same, valid⟩ := here.of_written (written bytes) few stops_nil
    rw [List.append_nil] at same valid
    exact Prod.ext same valid
  · intro text plain
    have here := read text plain
    constructor
    · intro valid
      rw [valid] at here
      obtain ⟨front, behind, known, same, stops⟩ := here.written
      have plainBehind : coding.Plain behind := fun c member =>
        plain c (same ▸ List.mem_append_right front member)
      rw [(written _).unique known]
      exact ⟨behind, same, plainBehind.stops_iff.mp stops⟩
    · rintro ⟨behind, same, ends⟩
      have plainBehind : coding.Plain behind := fun c member =>
        plain c (by rw [same]; exact List.mem_append_right _ member)
      rw [same] at here
      rw [same]
      exact (here.of_written (written _) few (plainBehind.stops_iff.mpr ends)).2

end PaddedCoding

end Lycancoin
