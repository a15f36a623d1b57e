import Lycancoin.Primitives.Serialize

namespace Lycancoin

open Lycancoin.Data

/-- The digits of a number from the first to the last; `marker` is the high bit
of the last one. -/
def varIntDigits (n : Int) (marker : UInt8) : List UInt8 :=
  if n ≤ 0x7f then [UInt8.ofNat (n % 128).toNat ||| marker]
  else varIntDigits (n >>> (7 : Nat) - 1) 0x80 ++ [UInt8.ofNat (n % 128).toNat ||| marker]
termination_by n.toNat
decreasing_by
  rw [Int.shiftRight_eq_div_pow]
  omega

/-- `WriteVarInt`.  A value of any integer type is written in the same way. -/
def writeVarInt (n : Int) : List UInt8 := varIntDigits n 0

def getSizeOfVarInt (n : Int) : Nat :=
  if n ≤ 0x7f then 1 else 1 + getSizeOfVarInt (n >>> (7 : Nat) - 1)
termination_by n.toNat
decreasing_by
  rw [Int.shiftRight_eq_div_pow]
  omega

/-- The loop of `ReadVarInt`, in a type of `w` bits. -/
def readVarIntLoop {w : Nat} (n : BitVec w) : ByteReader (BitVec w)
  | [] => .error .endOfData
  | chData :: stream =>
      let n := n <<< 7 ||| (chData &&& 0x7f).toBitVec.setWidth w
      if chData &&& 0x80 ≠ 0 then readVarIntLoop (n + 1) stream else .ok (n, stream)

def readVarInt (w : Nat) : ByteReader (BitVec w) := readVarIntLoop 0

def unserializeVarInt : ByteReader Int := do
  let n ← readVarInt 32
  pure n.toInt

def unserializeVarUInt (w : Nat) : ByteReader Nat := do
  let n ← readVarInt w
  pure n.toNat

section Words

variable {w : Nat}

theorem shiftRight_seven_sub_one {n : Nat} (large : 0x7f < n) :
    (n : Int) >>> (7 : Nat) - 1 = ((n / 128 - 1 : Nat) : Int) := by
  rw [Int.shiftRight_eq_div_pow]
  omega

theorem varIntDigits_natCast (n : Nat) (marker : UInt8) :
    varIntDigits n marker =
      (if n ≤ 0x7f then [] else varIntDigits ((n / 128 - 1 : Nat) : Int) 0x80) ++
        [UInt8.ofNat (n % 128) ||| marker] := by
  have digit : ((n : Int) % 128).toNat = n % 128 := by omega
  rw [varIntDigits, digit]
  by_cases small : n ≤ 0x7f
  · rw [if_pos (by omega), if_pos small, List.nil_append]
  · rw [if_neg (by omega), if_neg small, shiftRight_seven_sub_one (by omega)]

theorem length_varIntDigits (n : Int) (marker : UInt8) :
    (varIntDigits n marker).length = getSizeOfVarInt n := by
  induction n using getSizeOfVarInt.induct generalizing marker with
  | case1 n small => rw [varIntDigits, getSizeOfVarInt, if_pos small, if_pos small, List.length_singleton]
  | case2 n large ih =>
      rw [varIntDigits, getSizeOfVarInt, if_neg large, if_neg large, List.length_append, ih,
        List.length_singleton, Nat.add_comm]

@[simp] theorem length_writeVarInt (n : Int) : (writeVarInt n).length = getSizeOfVarInt n :=
  length_varIntDigits n 0

theorem shiftLeft_or_digit {high digit : Nat} {chData : UInt8} (small : digit < 128)
    (isDigit : (chData &&& 0x7f).toNat = digit) (fits : high * 128 + digit < 2 ^ w) :
    BitVec.ofNat w high <<< 7 ||| (chData &&& 0x7f).toBitVec.setWidth w =
      BitVec.ofNat w (high * 128 + digit) := by
  apply BitVec.eq_of_toNat_eq
  have bits : (chData &&& 0x7f).toBitVec.toNat = digit := isDigit
  rw [BitVec.toNat_or, BitVec.toNat_shiftLeft, BitVec.toNat_ofNat, BitVec.toNat_ofNat,
    BitVec.toNat_setWidth, bits, Nat.mod_eq_of_lt fits, Nat.mod_eq_of_lt (by omega : digit < 2 ^ w),
    Nat.mod_eq_of_lt (by omega : high < 2 ^ w), Nat.shiftLeft_eq,
    Nat.mod_eq_of_lt (by omega : high * 2 ^ 7 < 2 ^ w), ← Nat.shiftLeft_eq,
    ← Nat.shiftLeft_add_eq_or_of_lt (by omega), Nat.shiftLeft_eq]

theorem digit_of_marked {digit : Nat} (small : digit < 128) :
    (UInt8.ofNat digit ||| 0x80) &&& 0x7f = UInt8.ofNat digit ∧
      (UInt8.ofNat digit ||| 0x80) &&& 0x80 ≠ 0 ∧
      (UInt8.ofNat digit ||| 0) &&& 0x7f = UInt8.ofNat digit ∧
      (UInt8.ofNat digit ||| 0) &&& 0x80 = 0 := by
  interval_cases digit <;> decide

theorem toNat_low_digit {n : Nat} {chData : UInt8}
    (low : chData &&& 0x7f = UInt8.ofNat (n % 128)) : (chData &&& 0x7f).toNat = n % 128 := by
  rw [low, UInt8.toNat_ofNat']
  omega

theorem readVarIntLoop_high_digits {n : Nat} (fits : n < 2 ^ w) (stream : List UInt8) :
    readVarIntLoop (0 : BitVec w)
      ((if n ≤ 0x7f then [] else varIntDigits ((n / 128 - 1 : Nat) : Int) 0x80) ++ stream) =
        readVarIntLoop (BitVec.ofNat w (n / 128)) stream := by
  induction n using Nat.strong_induction_on generalizing stream with
  | _ n ih =>
      split_ifs with small
      · rw [show n / 128 = 0 by omega]
        rfl
      · have next := ih (n / 128 - 1) (by omega) (by omega)
        obtain ⟨low, marked, _, _⟩ := digit_of_marked
          (Nat.mod_lt (n / 128 - 1) (by decide : 0 < 128))
        rw [varIntDigits_natCast, List.append_assoc, next, List.singleton_append, readVarIntLoop,
          if_pos marked, shiftLeft_or_digit (Nat.mod_lt _ (by decide)) (toNat_low_digit low)
            (by omega), Nat.div_add_mod']
        congr 1
        apply BitVec.eq_of_toNat_eq
        have one : n / 128 - 1 + 1 = n / 128 := by omega
        rw [← one]
        simp [BitVec.toNat_add]

theorem reads_readVarInt {n : Nat} (fits : n < 2 ^ w) :
    Reads (readVarInt w) (writeVarInt n) (BitVec.ofNat w n) := by
  intro rest
  have split : n / 128 * 128 + n % 128 = n := Nat.div_add_mod' n 128
  obtain ⟨_, _, low, unmarked⟩ := digit_of_marked (Nat.mod_lt n (by decide : 0 < 128))
  change readVarIntLoop 0 (varIntDigits n 0 ++ rest) = _
  rw [varIntDigits_natCast, List.append_assoc, readVarIntLoop_high_digits fits,
    List.singleton_append, readVarIntLoop, if_neg (not_not.mpr unmarked),
    shiftLeft_or_digit (Nat.mod_lt _ (by decide)) (toNat_low_digit low) (by omega), split]

theorem reads_unserializeVarUInt {n : Nat} (fits : n < 2 ^ w) :
    Reads (unserializeVarUInt w) (writeVarInt n) n := by
  have reads : Reads (unserializeVarUInt w) (writeVarInt n) (BitVec.ofNat w n).toNat :=
    (reads_readVarInt fits).bind_pure
  rwa [BitVec.toNat_ofNat, Nat.mod_eq_of_lt fits] at reads

theorem reads_unserializeVarInt {n : Int} (nonnegative : 0 ≤ n) (fits : n < 2 ^ 31) :
    Reads unserializeVarInt (writeVarInt n) n := by
  lift n to Nat using nonnegative
  have reads : Reads unserializeVarInt (writeVarInt n) (BitVec.ofNat 32 n).toInt :=
    (reads_readVarInt (by omega)).bind_pure
  rwa [BitVec.toInt_ofNat', Int.bmod_eq_of_le (by omega) (by omega)] at reads

end Words

/-- The length of `tmp` in `WriteVarInt`, for a type of `w` bits. -/
def varIntBuffer (w : Nat) : Nat := (w + 6) / 7

/-- The first loop of `WriteVarInt` in an unsigned type.  Behind the `len` bytes of `tmp` there
is no place when the buffer is full. -/
def writeVarIntLoop {w : Nat} (n : BitVec w) (tmp : List UInt8) : Option (List UInt8) :=
  if varIntBuffer w ≤ tmp.length then none
  else
    let digit := UInt8.ofNat (n.toNat &&& 0x7f) ||| if tmp.length = 0 then 0 else 0x80
    if n.toNat ≤ 0x7f then some (tmp ++ [digit])
    else writeVarIntLoop (n >>> 7 - 1) (tmp ++ [digit])
termination_by varIntBuffer w - tmp.length

def writeVarIntWord {w : Nat} (n : BitVec w) : Option (List UInt8) :=
  (writeVarIntLoop n []).map List.reverse

/-! ## The buffer -/

variable {w n : Nat}

theorem getSizeOfVarInt_natCast (n : Nat) :
    getSizeOfVarInt n = if n ≤ 0x7f then 1 else 1 + getSizeOfVarInt ((n / 128 - 1 : Nat) : Int) := by
  rw [getSizeOfVarInt]
  by_cases small : n ≤ 0x7f
  · rw [if_pos (by omega), if_pos small]
  · rw [if_neg (by omega), if_neg small, shiftRight_seven_sub_one (by omega)]

theorem getSizeOfVarInt_le_varIntBuffer (positive : 0 < w) (fits : n < 2 ^ w) :
    getSizeOfVarInt n ≤ varIntBuffer w := by
  unfold varIntBuffer
  induction n using Nat.strong_induction_on generalizing w with
  | _ n ih =>
      rw [getSizeOfVarInt_natCast]
      by_cases small : n ≤ 0x7f
      · rw [if_pos small]
        omega
      · have wide : 8 ≤ w := by
          by_contra narrow
          have bound : 2 ^ w ≤ 2 ^ 7 := Nat.pow_le_pow_right (by decide) (by omega)
          omega
        have split : 2 ^ w = 128 * 2 ^ (w - 7) := by
          rw [show (128 : Nat) = 2 ^ 7 from rfl, ← Nat.pow_add]
          congr 1
          omega
        have next := ih (n / 128 - 1) (by omega) (show 0 < w - 7 by omega) (by omega)
        rw [if_neg small]
        omega

theorem toNat_shiftRight_seven_sub_one {n : BitVec w} (large : 0x7f < n.toNat) :
    (n >>> 7 - 1).toNat = n.toNat / 128 - 1 := by
  have bound := n.isLt
  have one : (BitVec.ofNat w 1).toNat = 1 := by
    rw [BitVec.toNat_ofNat]
    exact Nat.mod_eq_of_lt (by omega)
  change (n >>> 7 - BitVec.ofNat w 1).toNat = _
  have shifted : (n >>> 7).toNat = n.toNat / 128 := by
    rw [BitVec.toNat_ushiftRight, Nat.shiftRight_eq_div_pow]
  rw [BitVec.toNat_sub_of_le (by rw [BitVec.le_def, one, shifted]; omega), shifted, one]

theorem writeVarIntLoop_eq {n : BitVec w} {tmp : List UInt8}
    (room : tmp.length + getSizeOfVarInt n.toNat ≤ varIntBuffer w) :
    writeVarIntLoop n tmp =
      some (tmp ++ (varIntDigits n.toNat (if tmp.length = 0 then 0 else 0x80)).reverse) := by
  generalize number : n.toNat = value at room
  induction value using Nat.strong_induction_on generalizing n tmp with
  | _ value ih =>
      have low : value &&& 0x7f = value % 128 := Nat.and_two_pow_sub_one_eq_mod value 7
      rw [getSizeOfVarInt_natCast] at room
      rw [writeVarIntLoop, varIntDigits_natCast, List.reverse_append, List.reverse_singleton]
      by_cases small : value ≤ 0x7f
      · rw [if_pos small] at room
        rw [if_neg (by omega), if_pos (by omega), if_pos small, number, low]
        rfl
      · rw [if_neg small] at room
        have smaller : (n >>> 7 - 1).toNat = value / 128 - 1 := by
          rw [toNat_shiftRight_seven_sub_one (by omega), number]
        rw [if_neg (by omega), if_neg (by omega), if_neg small,
          ih (value / 128 - 1) (by omega) smaller
            (by rw [List.length_append, List.length_singleton]; omega), number, low]
        simp

theorem writeVarIntWord_eq (positive : 0 < w) (n : BitVec w) :
    writeVarIntWord n = some (writeVarInt n.toNat) := by
  have room : ([] : List UInt8).length + getSizeOfVarInt n.toNat ≤ varIntBuffer w := by
    have size := getSizeOfVarInt_le_varIntBuffer positive n.isLt
    simpa using size
  rw [writeVarIntWord, writeVarIntLoop_eq room]
  simp [writeVarInt]

/-! ## The number that the format gives to digits -/

/-- The sum over the digits before the last one. -/
def markedNumber (front : List UInt8) : Nat :=
  front.foldl (fun n chData => n * 128 + (chData &&& 0x7f).toNat + 1) 0

/-- The number that a byte sequence encodes, whatever type it is read into. -/
def varIntNumber (a : List UInt8) : Nat :=
  markedNumber a.dropLast * 128 + ((a.getLast?.getD 0) &&& 0x7f).toNat

/-- The bytes up to the first one without the high bit. -/
def varIntBytes : List UInt8 → List UInt8
  | [] => []
  | chData :: stream => if chData &&& 0x80 ≠ 0 then chData :: varIntBytes stream else [chData]

/-- Every byte but the last has its high bit set. -/
structure IsVarInt (front : List UInt8) (last : UInt8) : Prop where
  marked : ∀ chData ∈ front, chData &&& 0x80 ≠ 0
  unmarked : last &&& 0x80 = 0

@[simp] theorem markedNumber_nil : markedNumber [] = 0 := rfl

@[simp] theorem varIntNumber_concat (front : List UInt8) (last : UInt8) :
    varIntNumber (front ++ [last]) = markedNumber front * 128 + (last &&& 0x7f).toNat := by
  simp [varIntNumber]

theorem markedNumber_concat (front : List UInt8) (chData : UInt8) :
    markedNumber (front ++ [chData]) = markedNumber front * 128 + (chData &&& 0x7f).toNat + 1 := by
  simp [markedNumber]

theorem toNat_and_lt (chData : UInt8) : (chData &&& 0x7f).toNat < 128 := by
  have low : (chData &&& 0x7f).toNat = chData.toNat % 128 :=
    (UInt8.toNat_and chData 0x7f).trans (Nat.and_two_pow_sub_one_eq_mod chData.toNat 7)
  rw [low]
  exact Nat.mod_lt _ (by decide)

theorem marked_digit {chData : UInt8} (marked : chData &&& 0x80 ≠ 0) :
    UInt8.ofNat (chData &&& 0x7f).toNat ||| 0x80 = chData := by
  revert chData
  decide +kernel

theorem unmarked_digit {chData : UInt8} (unmarked : chData &&& 0x80 = 0) :
    UInt8.ofNat (chData &&& 0x7f).toNat ||| 0 = chData := by
  revert chData
  decide +kernel

/-- The digits before the last one are those of their number less one. -/
theorem varIntDigits_markedNumber {front : List UInt8} (nonempty : front ≠ [])
    (marked : ∀ chData ∈ front, chData &&& 0x80 ≠ 0) :
    0 < markedNumber front ∧ varIntDigits ((markedNumber front - 1 : Nat) : Int) 0x80 = front := by
  induction front using List.reverseRecOn with
  | nil => contradiction
  | append_singleton front chData ih =>
      have small := toNat_and_lt chData
      have digit := marked_digit (marked chData (by simp))
      rw [markedNumber_concat, Nat.add_sub_cancel, varIntDigits_natCast]
      apply And.intro (by omega)
      have low : (markedNumber front * 128 + (chData &&& 0x7f).toNat) % 128 =
          (chData &&& 0x7f).toNat := by omega
      rw [low, digit]
      congr 1
      cases front with
      | nil =>
          rw [markedNumber_nil]
          exact if_pos (by omega)
      | cons first rest =>
          obtain ⟨positive, before⟩ := ih (List.cons_ne_nil first rest) fun other member =>
            marked other (List.mem_append_left _ member)
          have high : (markedNumber (first :: rest) * 128 + (chData &&& 0x7f).toNat) / 128 - 1 =
              markedNumber (first :: rest) - 1 := by omega
          rw [if_neg (by omega), high, before]

/-- In the unbounded format every encoding is the one that is written. -/
theorem writeVarInt_varIntNumber {front : List UInt8} {last : UInt8} (isVarInt : IsVarInt front last) :
    writeVarInt (varIntNumber (front ++ [last])) = front ++ [last] := by
  have small := toNat_and_lt last
  have digit := unmarked_digit isVarInt.unmarked
  rw [varIntNumber_concat, writeVarInt, varIntDigits_natCast]
  have low : (markedNumber front * 128 + (last &&& 0x7f).toNat) % 128 = (last &&& 0x7f).toNat := by
    omega
  rw [low, digit]
  congr 1
  by_cases empty : front = []
  · subst empty
    rw [markedNumber_nil]
    exact if_pos (by omega)
  · obtain ⟨positive, before⟩ := varIntDigits_markedNumber empty isVarInt.marked
    have high : (markedNumber front * 128 + (last &&& 0x7f).toNat) / 128 - 1 =
        markedNumber front - 1 := by omega
    rw [if_neg (by omega), high, before]

/-! ## What is read -/

theorem toNat_shiftLeft_or_digit (wide : 8 ≤ w) (n : BitVec w) (chData : UInt8) :
    (n <<< 7 ||| (chData &&& 0x7f).toBitVec.setWidth w).toNat =
      (n.toNat * 128 + (chData &&& 0x7f).toNat) % 2 ^ w := by
  have small := toNat_and_lt chData
  have bits : (chData &&& 0x7f).toBitVec.toNat = (chData &&& 0x7f).toNat := rfl
  have whole : 2 ^ w = 128 * 2 ^ (w - 7) := by
    rw [show (128 : Nat) = 2 ^ 7 from rfl, ← Nat.pow_add]
    congr 1
    omega
  have digitFits : (chData &&& 0x7f).toNat < 2 ^ w := by
    have room : 0 < 2 ^ (w - 7) := Nat.two_pow_pos _
    omega
  have shifted : n.toNat <<< 7 % 2 ^ w = (n.toNat % 2 ^ (w - 7)) <<< 7 := by
    rw [Nat.shiftLeft_eq, Nat.shiftLeft_eq, whole, Nat.mul_comm n.toNat, Nat.mul_mod_mul_left,
      Nat.mul_comm]
  rw [BitVec.toNat_or, BitVec.toNat_shiftLeft, BitVec.toNat_setWidth, bits,
    Nat.mod_eq_of_lt digitFits, shifted, ← Nat.shiftLeft_add_eq_or_of_lt small, Nat.shiftLeft_eq,
    whole]
  have high := Nat.mod_add_div n.toNat (2 ^ (w - 7))
  have below := Nat.mod_lt n.toNat (Nat.two_pow_pos (w - 7))
  generalize n.toNat % 2 ^ (w - 7) = rest at high below ⊢
  generalize n.toNat / 2 ^ (w - 7) = quotient at high
  rw [← high, Nat.add_mul, Nat.mul_right_comm, Nat.mul_comm (2 ^ (w - 7)) 128, Nat.add_right_comm,
    Nat.add_mul_mod_self_left, Nat.mod_eq_of_lt (by omega)]

/-- The loop adds the digits to what was read, and drops what is too high for the type. -/
theorem readVarIntLoop_back (wide : 8 ≤ w) {n v : BitVec w} {bytes rest : List UInt8} {passed : Nat}
    (start : n.toNat = passed % 2 ^ w) (returns : readVarIntLoop n bytes = .ok (v, rest)) :
    ∃ front last, IsVarInt front last ∧ varIntBytes bytes = front ++ [last] ∧
      bytes = front ++ [last] ++ rest ∧
      v.toNat = (front.foldl (fun n chData => n * 128 + (chData &&& 0x7f).toNat + 1) passed * 128 +
        (last &&& 0x7f).toNat) % 2 ^ w := by
  induction bytes generalizing n passed with
  | nil => cases returns
  | cons chData stream ih =>
      have value := toNat_shiftLeft_or_digit wide n chData
      have congruent : (n.toNat * 128 + (chData &&& 0x7f).toNat) % 2 ^ w =
          (passed * 128 + (chData &&& 0x7f).toNat) % 2 ^ w := by
        rw [start, Nat.add_mod, Nat.mod_mul_mod, ← Nat.add_mod]
      rw [congruent] at value
      rw [readVarIntLoop] at returns
      by_cases marked : chData &&& 0x80 ≠ 0
      · rw [if_pos marked] at returns
        have next : ((n <<< 7 ||| (chData &&& 0x7f).toBitVec.setWidth w) + 1).toNat =
            (passed * 128 + (chData &&& 0x7f).toNat + 1) % 2 ^ w := by
          have one : (BitVec.ofNat w 1).toNat = 1 := by
            rw [BitVec.toNat_ofNat]
            exact Nat.mod_eq_of_lt (Nat.one_lt_two_pow (by omega))
          rw [BitVec.toNat_add, value, Nat.mod_add_mod]
          change (_ + (BitVec.ofNat w 1).toNat) % _ = _
          rw [one]
        obtain ⟨front, last, isVarInt, taken, split, number⟩ := ih next returns
        refine ⟨chData :: front, last, ⟨?_, isVarInt.unmarked⟩, ?_, ?_, number⟩
        · intro other member
          cases member with
          | head => exact marked
          | tail _ later => exact isVarInt.marked other later
        · rw [varIntBytes, if_pos marked, taken, List.cons_append]
        · rw [split, List.cons_append, List.cons_append]
      · rw [if_neg marked] at returns
        cases returns
        refine ⟨[], chData, ⟨by simp, not_not.mp marked⟩, ?_, rfl, value⟩
        rw [varIntBytes, if_neg marked, List.nil_append]

theorem readVarInt_back (wide : 8 ≤ w) {v : BitVec w} {bytes rest : List UInt8}
    (returns : (readVarInt w).run bytes = .ok (v, rest)) :
    ∃ front last, IsVarInt front last ∧ varIntBytes bytes = front ++ [last] ∧
      bytes = varIntBytes bytes ++ rest ∧ v.toNat = varIntNumber (varIntBytes bytes) % 2 ^ w := by
  obtain ⟨front, last, isVarInt, taken, split, number⟩ :=
    @readVarIntLoop_back w wide 0 v bytes rest 0 (by simp) returns
  refine ⟨front, last, isVarInt, taken, ?_, ?_⟩
  · rw [taken]
    exact split
  · rw [taken, varIntNumber_concat]
    exact number

theorem writeVarInt_injective {first second : Nat}
    (same : writeVarInt first = writeVarInt second) : first = second := by
  have wide : first < 2 ^ (first + second) ∧ second < 2 ^ (first + second) := by
    have bound := Nat.lt_two_pow_self (n := first + second)
    omega
  have one := reads_readVarInt wide.1 []
  have two := reads_readVarInt wide.2 []
  rw [same, two] at one
  have words := congrArg BitVec.toNat (Prod.mk.inj (Except.ok.inj one)).1
  rwa [BitVec.toNat_ofNat, BitVec.toNat_ofNat, Nat.mod_eq_of_lt wide.1, Nat.mod_eq_of_lt wide.2,
    eq_comm] at words

/-- What is written fits the buffer and is read back; and what is read is what would have been
written for it if and only if the number that the bytes stand for is one of the type. -/
theorem varInt_exact (wide : 8 ≤ w) :
    (∀ n : BitVec w, writeVarIntWord n = some (writeVarInt n.toNat) ∧
      (writeVarInt n.toNat).length = getSizeOfVarInt n.toNat ∧
      Reads (readVarInt w) (writeVarInt n.toNat) n) ∧
    ∀ bytes v rest, (readVarInt w).run bytes = .ok (v, rest) →
      (writeVarInt v.toNat ++ rest = bytes ↔ varIntNumber (varIntBytes bytes) < 2 ^ w) := by
  constructor
  · intro n
    have reads := reads_readVarInt n.isLt
    rw [BitVec.ofNat_toNat, BitVec.setWidth_eq] at reads
    exact ⟨writeVarIntWord_eq (by omega) n, length_writeVarInt n.toNat, reads⟩
  · intro bytes v rest returns
    obtain ⟨front, last, isVarInt, taken, split, number⟩ := readVarInt_back wide returns
    have canonical := writeVarInt_varIntNumber isVarInt
    rw [← taken] at canonical
    constructor
    · intro same
      have written : writeVarInt v.toNat = writeVarInt (varIntNumber (varIntBytes bytes)) := by
        rw [canonical]
        exact List.append_cancel_right (same.trans split)
      rw [← writeVarInt_injective written]
      exact v.isLt
    · intro fits
      rw [number, Nat.mod_eq_of_lt fits, canonical, ← split]

/-- The encoding of `2 ^ 32` is read into 32 bits as 0. -/
theorem encoding_too_long_for_word :
    (readVarInt 32).run [0x8e, 0xfe, 0xfe, 0xff, 0x00] = .ok (0, []) ∧
      writeVarIntWord (0 : BitVec 32) = some [0x00] := by
  constructor
  · rfl
  · rw [writeVarIntWord_eq (by decide)]
    simp [writeVarInt, varIntDigits]

theorem varInt_exact_bytes :
    Reads (readVarInt 8) (writeVarInt (200 : BitVec 8).toNat) 200 ∧
      (writeVarInt (0 : BitVec 8).toNat ++ [] = [0x81, 0x00] ↔
        varIntNumber (varIntBytes [0x81, 0x00]) < 2 ^ 8) := by
  have exact := @varInt_exact 8 (by decide)
  exact ⟨(exact.1 200).2.2, exact.2 [0x81, 0x00] 0 [] rfl⟩

end Lycancoin
