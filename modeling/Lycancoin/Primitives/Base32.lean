import Lycancoin.Primitives.Base64

namespace Lycancoin

open Lycancoin.Data.BitGroups

def pbase32 : List Char := "abcdefghijklmnopqrstuvwxyz234567".toList

def decode32Table : List Int :=
  [-1, -1, -1, -1, -1, -1, -1, -1, -1, -1, -1, -1, -1, -1, -1, -1, -1, -1, -1, -1,
   -1, -1, -1, -1, -1, -1, -1, -1, -1, -1, -1, -1, -1, -1, -1, -1, -1, -1, -1, -1,
   -1, -1, -1, -1, -1, -1, -1, -1, -1, -1, 26, 27, 28, 29, 30, 31, -1, -1, -1, -1,
   -1, -1, -1, -1, -1,  0,  1,  2,  3,  4,  5,  6,  7,  8,  9, 10, 11, 12, 13, 14,
   15, 16, 17, 18, 19, 20, 21, 22, 23, 24, 25, -1, -1, -1, -1, -1, -1,  0,  1,  2,
    3,  4,  5,  6,  7,  8,  9, 10, 11, 12, 13, 14, 15, 16, 17, 18, 19, 20, 21, 22,
   23, 24, 25, -1, -1, -1, -1, -1, -1, -1, -1, -1, -1, -1, -1, -1, -1, -1, -1, -1,
   -1, -1, -1, -1, -1, -1, -1, -1, -1, -1, -1, -1, -1, -1, -1, -1, -1, -1, -1, -1,
   -1, -1, -1, -1, -1, -1, -1, -1, -1, -1, -1, -1, -1, -1, -1, -1, -1, -1, -1, -1,
   -1, -1, -1, -1, -1, -1, -1, -1, -1, -1, -1, -1, -1, -1, -1, -1, -1, -1, -1, -1,
   -1, -1, -1, -1, -1, -1, -1, -1, -1, -1, -1, -1, -1, -1, -1, -1, -1, -1, -1, -1,
   -1, -1, -1, -1, -1, -1, -1, -1, -1, -1, -1, -1, -1, -1, -1, -1, -1, -1, -1, -1,
   -1, -1, -1, -1, -1, -1, -1, -1, -1, -1, -1, -1, -1, -1, -1, -1]

def base32 : PaddedCoding where
  bits := 5
  alphabet := pbase32
  table := decode32Table
  padding
    | 2 => 6
    | 4 => 4
    | 1 => 3
    | 3 => 1
    | _ => 0
  length_alphabet := by decide
  table_alphabet := by decide
  table_pad := by decide
  table_end := by decide
  padding_zero := rfl

def encode32Step (state : EncodeState) (byte : UInt8) : EncodeState :=
  let enc := byte.toNat
  match state.mode with
  | 0 => -- no bits
      { mode := 1
        left := (enc &&& 7) <<< 2
        strRet := state.strRet ++ [base32.charAt (enc >>> 3)] }
  | 1 => -- three bits
      { mode := 2
        left := (enc &&& 1) <<< 4
        strRet := state.strRet ++
          [base32.charAt (state.left ||| enc >>> 6), base32.charAt (enc >>> 1 &&& 31)] }
  | 2 => -- one bit
      { mode := 3
        left := (enc &&& 15) <<< 1
        strRet := state.strRet ++ [base32.charAt (state.left ||| enc >>> 4)] }
  | 3 => -- four bits
      { mode := 4
        left := (enc &&& 3) <<< 3
        strRet := state.strRet ++
          [base32.charAt (state.left ||| enc >>> 7), base32.charAt (enc >>> 2 &&& 31)] }
  | 4 => -- two bits
      { mode := 0
        left := state.left
        strRet := state.strRet ++
          [base32.charAt (state.left ||| enc >>> 5), base32.charAt (enc &&& 31)] }
  | _ => state

def nPadding : List Nat := [0, 6, 4, 3, 1]

def encodeBase32 (bytes : List UInt8) : List Char :=
  let state := bytes.foldl encode32Step ⟨0, 0, []⟩
  if state.mode = 0 then state.strRet
  else state.strRet ++ [base32.charAt state.left] ++
    List.replicate (nPadding.getD state.mode 0) '='

def decode32Step (state : DecodeState) (dec : Nat) : DecodeState :=
  match state.mode with
  | 0 => -- no bits
      { state with mode := 1, left := dec }
  | 1 => -- 5 bits, 2 are kept
      { mode := 2
        left := dec &&& 3
        vchRet := state.vchRet ++ [UInt8.ofNat (state.left <<< 3 ||| dec >>> 2)] }
  | 2 => -- 2 bits, 7 are kept
      { state with mode := 3, left := state.left <<< 5 ||| dec }
  | 3 => -- 7 bits, 4 are kept
      { mode := 4
        left := dec &&& 15
        vchRet := state.vchRet ++ [UInt8.ofNat (state.left <<< 1 ||| dec >>> 4)] }
  | 4 => -- 4 bits, 1 is kept
      { mode := 5
        left := dec &&& 1
        vchRet := state.vchRet ++ [UInt8.ofNat (state.left <<< 4 ||| dec >>> 1)] }
  | 5 => -- 1 bit, 6 are kept
      { state with mode := 6, left := state.left <<< 5 ||| dec }
  | 6 => -- 6 bits, 3 are kept
      { mode := 7
        left := dec &&& 7
        vchRet := state.vchRet ++ [UInt8.ofNat (state.left <<< 2 ||| dec >>> 3)] }
  | 7 => -- 3 bits
      { state with
        mode := 0
        vchRet := state.vchRet ++ [UInt8.ofNat (state.left <<< 5 ||| dec)] }
  | _ => state

/-- What is written to `*pfInvalid`, by the mode. -/
def invalid32 (state : DecodeState) (p : List Char) : Bool :=
  match state.mode with
  | 1 => true
  | 3 => true
  | 6 => true
  | 2 => wrongPadding decode32Table 6 state.left p
  | 4 => wrongPadding decode32Table 4 state.left p
  | 5 => wrongPadding decode32Table 3 state.left p
  | 7 => wrongPadding decode32Table 1 state.left p
  | _ => false

/-- `DecodeBase32`, with `*pfInvalid`. -/
def decodeBase32 (p : List Char) : List UInt8 × Bool :=
  let (state, p) := decodeChars decode32Table decode32Step p ⟨0, 0, []⟩
  (state.vchRet, invalid32 state p)

namespace Base32

open PaddedCoding

/-- The bits without a character in each mode of the encoder. -/
def encodeHeld : Nat → Nat
  | 1 => 3
  | 2 => 1
  | 3 => 4
  | 4 => 2
  | _ => 0

/-- The bits without a byte in each mode of the decoder. -/
def decodeHeld : Nat → Nat
  | 1 => 5
  | 2 => 2
  | 3 => 7
  | 4 => 4
  | 5 => 1
  | 6 => 6
  | 7 => 3
  | _ => 0

theorem encode32Step_spec {bytes : List UInt8} {state : EncodeState}
    (encodes : Encodes base32 encodeHeld bytes state) (inside : state.mode < 5) (byte : UInt8) :
    Encodes base32 encodeHeld (bytes ++ [byte]) (encode32Step state byte) ∧
      (encode32Step state byte).mode < 5 := by
  obtain ⟨mode, left, strRet⟩ := state
  obtain ⟨groups, bits, carries, same, written⟩ := encodes
  simp only at written same inside carries
  have below := byte.toNat_lt
  have taken := carries.take below
  rw [← List.map_singleton, ← List.map_append] at taken
  have known : mode = 0 ∨ mode = 1 ∨ mode = 2 ∨ mode = 3 ∨ mode = 4 := by omega
  rcases known with rfl | rfl | rfl | rfl | rfl
  · have none : bits = 0 := Nat.lt_one_iff.mp carries.small
    have taken : Carries 8 5 _ groups (3 + 5) (bits * 2 ^ (5 + 3) + byte.toNat) := taken
    rw [split_held bits below, none, Nat.zero_shiftLeft, Nat.zero_or] at taken
    exact ⟨⟨_, _, taken.give (and_lt _ 3), fun _ => rfl, by
      rw [List.map_append, ← written]; rfl⟩, (by decide : 1 < 5)⟩
  · obtain rfl := same (by decide)
    have taken : Carries 8 5 _ groups (6 + 5) (bits * 2 ^ (2 + 6) + byte.toNat) := taken
    rw [split_held bits below] at taken
    have given : Carries 8 5 _ _ (1 + 5) (byte.toNat &&& 2 ^ (5 + 1) - 1) :=
      taken.give (and_lt _ 6)
    rw [split_low] at given
    exact ⟨⟨_, _, given.give (and_lt _ 1), fun _ => rfl, by
      rw [List.map_append, List.map_append, ← written, List.append_assoc]; rfl⟩,
      (by decide : 2 < 5)⟩
  · obtain rfl := same (by decide)
    have taken : Carries 8 5 _ groups (4 + 5) (bits * 2 ^ (4 + 4) + byte.toNat) := taken
    rw [split_held bits below] at taken
    exact ⟨⟨_, _, taken.give (and_lt _ 4), fun _ => rfl, by
      rw [List.map_append, ← written]; rfl⟩, (by decide : 3 < 5)⟩
  · obtain rfl := same (by decide)
    have taken : Carries 8 5 _ groups (7 + 5) (bits * 2 ^ (1 + 7) + byte.toNat) := taken
    rw [split_held bits below] at taken
    have given : Carries 8 5 _ _ (2 + 5) (byte.toNat &&& 2 ^ (5 + 2) - 1) :=
      taken.give (and_lt _ 7)
    rw [split_low] at given
    exact ⟨⟨_, _, given.give (and_lt _ 2), fun _ => rfl, by
      rw [List.map_append, List.map_append, ← written, List.append_assoc]; rfl⟩,
      (by decide : 4 < 5)⟩
  · obtain rfl := same (by decide)
    have taken : Carries 8 5 _ groups (5 + 5) (bits * 2 ^ (3 + 5) + byte.toNat) := taken
    rw [split_held bits below] at taken
    exact ⟨⟨_, 0, (taken.give (and_lt _ 5)).giveAll, fun mode => absurd rfl mode, by
      rw [List.map_append, List.map_append, ← written, List.append_assoc]; rfl⟩,
      (by decide : 0 < 5)⟩

theorem encodeBase32_written (bytes : List UInt8) : base32.Written bytes (encodeBase32 bytes) := by
  have ends : Encodes base32 encodeHeld bytes (bytes.foldl encode32Step ⟨0, 0, []⟩) ∧
      (bytes.foldl encode32Step ⟨0, 0, []⟩).mode < 5 := by
    induction bytes using List.reverseRecOn with
    | nil => exact ⟨⟨[], 0, Carries.nil, fun mode => absurd rfl mode, rfl⟩, by decide⟩
    | append_singleton bytes byte ih =>
        rw [List.foldl_concat]
        exact encode32Step_spec ih.1 ih.2 byte
  rw [encodeBase32]
  generalize bytes.foldl encode32Step ⟨0, 0, []⟩ = state at ends ⊢
  obtain ⟨mode, left, strRet⟩ := state
  obtain ⟨⟨groups, bits, carries, same, rfl⟩, inside⟩ := ends
  simp only at same inside carries ⊢
  by_cases none : mode = 0
  · subst none
    exact written_of_none (by decide) carries
  · obtain rfl := same none
    have known : mode = 1 ∨ mode = 2 ∨ mode = 3 ∨ mode = 4 := by omega
    rw [if_neg none, List.append_assoc]
    rcases known with rfl | rfl | rfl | rfl <;>
      exact written_of_some (by decide) (by decide) carries

theorem decode32Step_spec {groups : List Nat} {state : DecodeState} {group : Nat}
    (decodes : Decodes base32 decodeHeld groups state ∧ state.mode < 8)
    (below : group < 2 ^ base32.bits) :
    Decodes base32 decodeHeld (groups ++ [group]) (decode32Step state group) ∧
      (decode32Step state group).mode < 8 := by
  obtain ⟨mode, left, vchRet⟩ := state
  obtain ⟨⟨bits, carries, same⟩, inside⟩ := decodes
  simp only at same inside carries
  by_cases first : mode = 0
  · subst first
    have none : bits = 0 := Nat.lt_one_iff.mp carries.small
    have taken := carries.take below
    rw [none, Nat.zero_mul, Nat.zero_add] at taken
    exact ⟨⟨group, taken, fun _ => rfl⟩, (by decide : 1 < 8)⟩
  · obtain rfl := same first
    have known : mode = 1 ∨ mode = 2 ∨ mode = 3 ∨ mode = 4 ∨ mode = 5 ∨ mode = 6 ∨ mode = 7 := by
      omega
    rcases known with rfl | rfl | rfl | rfl | rfl | rfl | rfl
    · exact ⟨⟨_, carries_push carries below rfl rfl, fun _ => rfl⟩, (by decide : 2 < 8)⟩
    · exact ⟨⟨_, carries_keep carries below, fun _ => rfl⟩, (by decide : 3 < 8)⟩
    · exact ⟨⟨_, carries_push carries below rfl rfl, fun _ => rfl⟩, (by decide : 4 < 8)⟩
    · exact ⟨⟨_, carries_push carries below rfl rfl, fun _ => rfl⟩, (by decide : 5 < 8)⟩
    · exact ⟨⟨_, carries_keep carries below, fun _ => rfl⟩, (by decide : 6 < 8)⟩
    · exact ⟨⟨_, carries_push carries below rfl rfl, fun _ => rfl⟩, (by decide : 7 < 8)⟩
    · exact ⟨⟨0, carries_push_all carries below rfl, fun mode => absurd rfl mode⟩,
        (by decide : 0 < 8)⟩

theorem decodeBase32_read {text : List Char} (plain : base32.Plain text) :
    base32.Read text (decodeBase32 text).1 (decodeBase32 text).2 := by
  have start : Decodes base32 decodeHeld [] ⟨0, 0, []⟩ ∧ (⟨0, 0, []⟩ : DecodeState).mode < 8 :=
    ⟨⟨0, Carries.nil, fun mode => absurd rfl mode⟩, by decide⟩
  obtain ⟨groups, rest, same, stops, bounded, after, ends⟩ :=
    decodeChars_spec (fun groups state => Decodes base32 decodeHeld groups state ∧ state.mode < 8)
      (fun _ _ _ => decode32Step_spec) plain start
  have result : decodeBase32 text =
      ((decodeChars decode32Table decode32Step text ⟨0, 0, []⟩).1.vchRet,
        invalid32 (decodeChars decode32Table decode32Step text ⟨0, 0, []⟩).1
          (decodeChars decode32Table decode32Step text ⟨0, 0, []⟩).2) := rfl
  change (decodeChars decode32Table decode32Step text ⟨0, 0, []⟩).2 = rest at after
  change Decodes base32 decodeHeld groups
    (decodeChars decode32Table decode32Step text ⟨0, 0, []⟩).1 ∧
      (decodeChars decode32Table decode32Step text ⟨0, 0, []⟩).1.mode < 8 at ends
  rw [result, after]
  generalize (decodeChars decode32Table decode32Step text ⟨0, 0, []⟩).1 = state at ends ⊢
  obtain ⟨mode, left, vchRet⟩ := state
  obtain ⟨⟨bits, carries, last⟩, inside⟩ := ends
  simp only at last inside carries ⊢
  by_cases first : mode = 0
  · subst first
    have none : bits = 0 := Nat.lt_one_iff.mp carries.small
    exact ⟨groups, rest, 0, bits, same, stops, bounded, carries, by decide,
      iff_of_true rfl ⟨none, by decide, rest, rfl, stops⟩⟩
  · obtain rfl := last first
    have known : mode = 1 ∨ mode = 3 ∨ mode = 6 ∨ mode = 2 ∨ mode = 4 ∨ mode = 5 ∨ mode = 7 := by
      omega
    rcases known with rfl | rfl | rfl | rfl | rfl | rfl | rfl
    · exact ⟨groups, rest, 5, left, same, stops, bounded, carries, by decide,
        iff_of_false (show true ≠ false by decide) fun valid => absurd valid.2.1 (by decide)⟩
    · exact ⟨groups, rest, 7, left, same, stops, bounded, carries, by decide,
        iff_of_false (show true ≠ false by decide) fun valid => absurd valid.2.1 (by decide)⟩
    · exact ⟨groups, rest, 6, left, same, stops, bounded, carries, by decide,
        iff_of_false (show true ≠ false by decide) fun valid => absurd valid.2.1 (by decide)⟩
    · exact ⟨groups, rest, 2, left, same, stops, bounded, carries, by decide,
        (@wrongPadding_eq_false_iff base32 6 left rest).trans (by simp [base32])⟩
    · exact ⟨groups, rest, 4, left, same, stops, bounded, carries, by decide,
        (@wrongPadding_eq_false_iff base32 4 left rest).trans (by simp [base32])⟩
    · exact ⟨groups, rest, 1, left, same, stops, bounded, carries, by decide,
        (@wrongPadding_eq_false_iff base32 3 left rest).trans (by simp [base32])⟩
    · exact ⟨groups, rest, 3, left, same, stops, bounded, carries, by decide,
        (@wrongPadding_eq_false_iff base32 1 left rest).trans (by simp [base32])⟩

end Base32

/-- The texts of bytes are read back in both codings, and an accepted text of the alphabet and the
padding is the text of what is read, but for what may follow a padding character behind it. -/
theorem paddedTexts_exact :
    ((∀ bytes, decodeBase64 (encodeBase64 bytes) = (bytes, false)) ∧
      ∀ str : List Char, (∀ c ∈ str, c ∈ pbase64 ∨ c = '=') →
        ((decodeBase64 str).2 = false ↔ ∃ behind, str = encodeBase64 (decodeBase64 str).1 ++ behind ∧
          (behind = [] ∨ behind.head? = some '='))) ∧
    (∀ bytes, decodeBase32 (encodeBase32 bytes) = (bytes, false)) ∧
      ∀ str : List Char, (∀ c ∈ str, c ∈ pbase32 ∨ c = '=') →
        ((decodeBase32 str).2 = false ↔ ∃ behind, str = encodeBase32 (decodeBase32 str).1 ++ behind ∧
          (behind = [] ∨ behind.head? = some '=')) :=
  ⟨PaddedCoding.exact_of (by decide) Base64.encodeBase64_written fun _ => Base64.decodeBase64_read,
    PaddedCoding.exact_of (by decide) Base32.encodeBase32_written fun _ => Base32.decodeBase32_read⟩

/-- Padding behind the padding is accepted. -/
theorem decode_accepts_more_padding :
    ((∀ c ∈ "QQ===".toList, c ∈ pbase64 ∨ c = '=') ∧ (decodeBase64 "QQ===".toList).2 = false ∧
      encodeBase64 (decodeBase64 "QQ===".toList).1 ≠ "QQ===".toList) ∧
    (∀ c ∈ "ie=======".toList, c ∈ pbase32 ∨ c = '=') ∧
      (decodeBase32 "ie=======".toList).2 = false ∧
      encodeBase32 (decodeBase32 "ie=======".toList).1 ≠ "ie=======".toList := by
  have base64 : decodeBase64 "QQ===".toList = ([0x41], false) := by decide
  have base32 : decodeBase32 "ie=======".toList = ([0x41], false) := by decide
  have again64 : encodeBase64 [0x41] ≠ "QQ===".toList := by decide
  have again32 : encodeBase32 [0x41] ≠ "ie=======".toList := by decide
  have plain64 : ∀ c ∈ "QQ===".toList, c ∈ pbase64 ∨ c = '=' := by
    have letters : "QQ===".toList = ['Q', 'Q', '=', '=', '='] := by decide
    have known : 'Q' ∈ pbase64 := by decide
    rw [letters]
    simp [known]
  have plain32 : ∀ c ∈ "ie=======".toList, c ∈ pbase32 ∨ c = '=' := by
    have letters : "ie=======".toList = ['i', 'e', '=', '=', '=', '=', '=', '=', '='] := by
      decide
    have first : 'i' ∈ pbase32 := by decide
    have second : 'e' ∈ pbase32 := by decide
    rw [letters]
    simp [first, second]
  rw [base64, base32]
  exact ⟨⟨plain64, rfl, again64⟩, plain32, rfl, again32⟩

end Lycancoin
