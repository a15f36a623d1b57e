import Lycancoin.Primitives.PaddedText

namespace Lycancoin

open Lycancoin.Data.BitGroups

def pbase64 : List Char :=
  "ABCDEFGHIJKLMNOPQRSTUVWXYZabcdefghijklmnopqrstuvwxyz0123456789+/".toList

def decode64Table : List Int :=
  [-1, -1, -1, -1, -1, -1, -1, -1, -1, -1, -1, -1, -1, -1, -1, -1, -1, -1, -1, -1,
   -1, -1, -1, -1, -1, -1, -1, -1, -1, -1, -1, -1, -1, -1, -1, -1, -1, -1, -1, -1,
   -1, -1, -1, 62, -1, -1, -1, 63, 52, 53, 54, 55, 56, 57, 58, 59, 60, 61, -1, -1,
   -1, -1, -1, -1, -1,  0,  1,  2,  3,  4,  5,  6,  7,  8,  9, 10, 11, 12, 13, 14,
   15, 16, 17, 18, 19, 20, 21, 22, 23, 24, 25, -1, -1, -1, -1, -1, -1, 26, 27, 28,
   29, 30, 31, 32, 33, 34, 35, 36, 37, 38, 39, 40, 41, 42, 43, 44, 45, 46, 47, 48,
   49, 50, 51, -1, -1, -1, -1, -1, -1, -1, -1, -1, -1, -1, -1, -1, -1, -1, -1, -1,
   -1, -1, -1, -1, -1, -1, -1, -1, -1, -1, -1, -1, -1, -1, -1, -1, -1, -1, -1, -1,
   -1, -1, -1, -1, -1, -1, -1, -1, -1, -1, -1, -1, -1, -1, -1, -1, -1, -1, -1, -1,
   -1, -1, -1, -1, -1, -1, -1, -1, -1, -1, -1, -1, -1, -1, -1, -1, -1, -1, -1, -1,
   -1, -1, -1, -1, -1, -1, -1, -1, -1, -1, -1, -1, -1, -1, -1, -1, -1, -1, -1, -1,
   -1, -1, -1, -1, -1, -1, -1, -1, -1, -1, -1, -1, -1, -1, -1, -1, -1, -1, -1, -1,
   -1, -1, -1, -1, -1, -1, -1, -1, -1, -1, -1, -1, -1, -1, -1, -1]

def base64 : PaddedCoding where
  bits := 6
  alphabet := pbase64
  table := decode64Table
  padding
    | 4 => 2
    | 2 => 1
    | _ => 0
  length_alphabet := by decide
  table_alphabet := by decide
  table_pad := by decide
  table_end := by decide
  padding_zero := rfl

def encode64Step (state : EncodeState) (byte : UInt8) : EncodeState :=
  let enc := byte.toNat
  match state.mode with
  | 0 => -- no bits
      { mode := 1
        left := (enc &&& 3) <<< 4
        strRet := state.strRet ++ [base64.charAt (enc >>> 2)] }
  | 1 => -- two bits
      { mode := 2
        left := (enc &&& 15) <<< 2
        strRet := state.strRet ++ [base64.charAt (state.left ||| enc >>> 4)] }
  | 2 => -- four bits
      { mode := 0
        left := state.left
        strRet := state.strRet ++
          [base64.charAt (state.left ||| enc >>> 6), base64.charAt (enc &&& 63)] }
  | _ => state

def encodeBase64 (bytes : List UInt8) : List Char :=
  let state := bytes.foldl encode64Step ⟨0, 0, []⟩
  if state.mode = 0 then state.strRet
  else state.strRet ++ [base64.charAt state.left] ++ ['='] ++ if state.mode = 1 then ['='] else []

def decode64Step (state : DecodeState) (dec : Nat) : DecodeState :=
  match state.mode with
  | 0 => -- no bits
      { state with mode := 1, left := dec }
  | 1 => -- 6 bits, 4 are kept
      { mode := 2
        left := dec &&& 15
        vchRet := state.vchRet ++ [UInt8.ofNat (state.left <<< 2 ||| dec >>> 4)] }
  | 2 => -- 4 bits, 2 are kept
      { mode := 3
        left := dec &&& 3
        vchRet := state.vchRet ++ [UInt8.ofNat (state.left <<< 4 ||| dec >>> 2)] }
  | 3 => -- 2 bits
      { state with
        mode := 0
        vchRet := state.vchRet ++ [UInt8.ofNat (state.left <<< 6 ||| dec)] }
  | _ => state

/-- What is written to `*pfInvalid`, by the mode. -/
def invalid64 (state : DecodeState) (p : List Char) : Bool :=
  match state.mode with
  | 1 => true
  | 2 => wrongPadding decode64Table 2 state.left p
  | 3 => wrongPadding decode64Table 1 state.left p
  | _ => false

/-- `DecodeBase64`, with `*pfInvalid`. -/
def decodeBase64 (p : List Char) : List UInt8 × Bool :=
  let (state, p) := decodeChars decode64Table decode64Step p ⟨0, 0, []⟩
  (state.vchRet, invalid64 state p)

namespace Base64

open PaddedCoding

/-- The bits without a character in each mode of the encoder. -/
def encodeHeld : Nat → Nat
  | 1 => 2
  | 2 => 4
  | _ => 0

/-- The bits without a byte in each mode of the decoder. -/
def decodeHeld : Nat → Nat
  | 1 => 6
  | 2 => 4
  | 3 => 2
  | _ => 0

theorem encode64Step_spec {bytes : List UInt8} {state : EncodeState}
    (encodes : Encodes base64 encodeHeld bytes state) (inside : state.mode < 3) (byte : UInt8) :
    Encodes base64 encodeHeld (bytes ++ [byte]) (encode64Step state byte) ∧
      (encode64Step state byte).mode < 3 := by
  obtain ⟨mode, left, strRet⟩ := state
  obtain ⟨groups, bits, carries, same, written⟩ := encodes
  simp only at written same inside carries
  have below := byte.toNat_lt
  have taken := carries.take below
  rw [← List.map_singleton, ← List.map_append] at taken
  have known : mode = 0 ∨ mode = 1 ∨ mode = 2 := by omega
  rcases known with rfl | rfl | rfl
  · have none : bits = 0 := Nat.lt_one_iff.mp carries.small
    have taken : Carries 8 6 _ groups (2 + 6) (bits * 2 ^ (6 + 2) + byte.toNat) := taken
    rw [split_held bits below, none, Nat.zero_shiftLeft, Nat.zero_or] at taken
    exact ⟨⟨_, _, taken.give (and_lt _ 2), fun _ => rfl, by
      rw [List.map_append, ← written]; rfl⟩, (by decide : 1 < 3)⟩
  · obtain rfl := same one_ne_zero
    have taken : Carries 8 6 _ groups (4 + 6) (bits * 2 ^ (4 + 4) + byte.toNat) := taken
    rw [split_held bits below] at taken
    exact ⟨⟨_, _, taken.give (and_lt _ 4), fun _ => rfl, by
      rw [List.map_append, ← written]; rfl⟩, (by decide : 2 < 3)⟩
  · obtain rfl := same two_ne_zero
    have taken : Carries 8 6 _ groups (6 + 6) (bits * 2 ^ (2 + 6) + byte.toNat) := taken
    rw [split_held bits below] at taken
    exact ⟨⟨_, 0, (taken.give (and_lt _ 6)).giveAll, fun mode => absurd rfl mode, by
      rw [List.map_append, List.map_append, ← written, List.append_assoc]; rfl⟩, (by decide : 0 < 3)⟩

theorem encodeBase64_written (bytes : List UInt8) : base64.Written bytes (encodeBase64 bytes) := by
  have ends : Encodes base64 encodeHeld bytes (bytes.foldl encode64Step ⟨0, 0, []⟩) ∧
      (bytes.foldl encode64Step ⟨0, 0, []⟩).mode < 3 := by
    induction bytes using List.reverseRecOn with
    | nil => exact ⟨⟨[], 0, Carries.nil, fun mode => absurd rfl mode, rfl⟩, by decide⟩
    | append_singleton bytes byte ih =>
        rw [List.foldl_concat]
        exact encode64Step_spec ih.1 ih.2 byte
  rw [encodeBase64]
  generalize bytes.foldl encode64Step ⟨0, 0, []⟩ = state at ends ⊢
  obtain ⟨mode, left, strRet⟩ := state
  obtain ⟨⟨groups, bits, carries, same, rfl⟩, inside⟩ := ends
  simp only at same inside carries ⊢
  have known : mode = 0 ∨ mode = 1 ∨ mode = 2 := by omega
  rcases known with rfl | rfl | rfl
  · exact written_of_none (by decide) carries
  · obtain rfl := same one_ne_zero
    rw [if_neg one_ne_zero, List.append_assoc, List.append_assoc]
    exact written_of_some (by decide) (by decide) carries
  · obtain rfl := same two_ne_zero
    rw [if_neg two_ne_zero, List.append_assoc, List.append_assoc]
    exact written_of_some (by decide) (by decide) carries

theorem decode64Step_spec {groups : List Nat} {state : DecodeState} {group : Nat}
    (decodes : Decodes base64 decodeHeld groups state ∧ state.mode < 4)
    (below : group < 2 ^ base64.bits) :
    Decodes base64 decodeHeld (groups ++ [group]) (decode64Step state group) ∧
      (decode64Step state group).mode < 4 := by
  obtain ⟨mode, left, vchRet⟩ := state
  obtain ⟨⟨bits, carries, same⟩, inside⟩ := decodes
  simp only at same inside carries
  have known : mode = 0 ∨ mode = 1 ∨ mode = 2 ∨ mode = 3 := by omega
  rcases known with rfl | rfl | rfl | rfl
  · have none : bits = 0 := Nat.lt_one_iff.mp carries.small
    have taken := carries.take below
    rw [none, Nat.zero_mul, Nat.zero_add] at taken
    exact ⟨⟨group, taken, fun _ => rfl⟩, (by decide : 1 < 4)⟩
  · obtain rfl := same one_ne_zero
    exact ⟨⟨_, carries_push carries below rfl rfl, fun _ => rfl⟩, (by decide : 2 < 4)⟩
  · obtain rfl := same two_ne_zero
    exact ⟨⟨_, carries_push carries below rfl rfl, fun _ => rfl⟩, (by decide : 3 < 4)⟩
  · obtain rfl := same three_ne_zero
    exact ⟨⟨0, carries_push_all carries below rfl, fun mode => absurd rfl mode⟩,
      (by decide : 0 < 4)⟩

theorem decodeBase64_read {text : List Char} (plain : base64.Plain text) :
    base64.Read text (decodeBase64 text).1 (decodeBase64 text).2 := by
  have start : Decodes base64 decodeHeld [] ⟨0, 0, []⟩ ∧ (⟨0, 0, []⟩ : DecodeState).mode < 4 :=
    ⟨⟨0, Carries.nil, fun mode => absurd rfl mode⟩, by decide⟩
  obtain ⟨groups, rest, same, stops, bounded, after, ends⟩ :=
    decodeChars_spec (fun groups state => Decodes base64 decodeHeld groups state ∧ state.mode < 4)
      (fun _ _ _ => decode64Step_spec) plain start
  have result : decodeBase64 text =
      ((decodeChars decode64Table decode64Step text ⟨0, 0, []⟩).1.vchRet,
        invalid64 (decodeChars decode64Table decode64Step text ⟨0, 0, []⟩).1
          (decodeChars decode64Table decode64Step text ⟨0, 0, []⟩).2) := rfl
  change (decodeChars decode64Table decode64Step text ⟨0, 0, []⟩).2 = rest at after
  change Decodes base64 decodeHeld groups
    (decodeChars decode64Table decode64Step text ⟨0, 0, []⟩).1 ∧
      (decodeChars decode64Table decode64Step text ⟨0, 0, []⟩).1.mode < 4 at ends
  rw [result, after]
  generalize (decodeChars decode64Table decode64Step text ⟨0, 0, []⟩).1 = state at ends ⊢
  obtain ⟨mode, left, vchRet⟩ := state
  obtain ⟨⟨bits, carries, last⟩, inside⟩ := ends
  simp only at last inside carries ⊢
  have known : mode = 0 ∨ mode = 1 ∨ mode = 2 ∨ mode = 3 := by omega
  rcases known with rfl | rfl | rfl | rfl
  · have none : bits = 0 := Nat.lt_one_iff.mp carries.small
    exact ⟨groups, rest, 0, bits, same, stops, bounded, carries, by decide,
      iff_of_true rfl ⟨none, by decide, rest, rfl, stops⟩⟩
  · exact ⟨groups, rest, 6, bits, same, stops, bounded, carries, by decide,
      iff_of_false (show true ≠ false by decide) fun valid => absurd valid.2.1 (by decide)⟩
  · obtain rfl := last two_ne_zero
    refine ⟨groups, rest, 4, left, same, stops, bounded, carries, by decide, ?_⟩
    exact (@wrongPadding_eq_false_iff base64 2 left rest).trans (by simp [base64])
  · obtain rfl := last three_ne_zero
    refine ⟨groups, rest, 2, left, same, stops, bounded, carries, by decide, ?_⟩
    exact (@wrongPadding_eq_false_iff base64 1 left rest).trans (by simp [base64])

end Base64

end Lycancoin
