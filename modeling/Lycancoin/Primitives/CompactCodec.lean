import Lycancoin.Data.CompactForm
import Lycancoin.Primitives.Uint256
import Lycancoin.Primitives.BaseUintArith

namespace Lycancoin

open Data

namespace BaseUint

/-- What `arith_uint256::SetCompact` makes of a compact number, by its limbs. -/
structure CompactLimbs where
  value : BaseUint 8
  fNegative : Bool
  fOverflow : Bool

/-- `arith_uint256::SetCompact`, on limbs. -/
def setCompact (nCompact : UInt32) : CompactLimbs :=
  let nSize := (nCompact >>> 24).toNat
  let nWord := nCompact &&& 0x007fffff
  let nWord := if nSize ≤ 3 then nWord >>> UInt32.ofNat (8 * (3 - nSize)) else nWord
  { value :=
      if nSize ≤ 3 then ofUInt64 8 nWord.toUInt64
      else (ofUInt64 8 nWord.toUInt64).shiftLeft (8 * (nSize - 3))
    fNegative := nWord != 0 && nCompact &&& 0x00800000 != 0
    fOverflow := nWord != 0 &&
      (decide (nSize > 34) || decide (nWord > 0xff ∧ nSize > 33) ||
        decide (nWord > 0xffff ∧ nSize > 32)) }

/-- `arith_uint256::GetCompact(fNegative)`, on limbs.  There is no result when an
assertion fails. -/
def getCompact (a : BaseUint 8) (fNegative : Bool) : Option UInt32 :=
  let nSize := (a.bits + 7) / 8
  let nCompact :=
    if nSize ≤ 3 then (a.getLow64 <<< UInt64.ofNat (8 * (3 - nSize))).toUInt32
    else (a.shiftRight (8 * (nSize - 3))).getLow64.toUInt32
  let signed := nCompact &&& 0x00800000 != 0
  let nSize := if signed then nSize + 1 else nSize
  let nCompact := if signed then nCompact >>> 8 else nCompact
  if nCompact &&& ~~~0x007fffff ≠ 0 then none
  else if ¬ nSize < 256 then none
  else
    let nCompact := nCompact ||| UInt32.ofNat nSize <<< 24
    some (nCompact ||| if fNegative && nCompact &&& 0x007fffff != 0 then 0x00800000 else 0)

end BaseUint

def compactWord (exponent mantissa : Nat) (negative : Bool) : UInt32 :=
  UInt32.ofNat (2 ^ 24 * exponent + (2 ^ 23 * negative.toNat + mantissa))

theorem and_mantissa (number : Nat) : number &&& 0x007fffff = number % 2 ^ 23 := by
  rw [← Nat.and_two_pow_sub_one_eq_mod]

theorem and_sign (number : Nat) :
    (number &&& 0x00800000 != 0) = decide (number / 2 ^ 23 % 2 = 1) := by
  have masked : number &&& 0x00800000 = (number.testBit 23).toNat * 2 ^ 23 := by
    rw [← Nat.and_two_pow, show (2 : Nat) ^ 23 = 0x00800000 by norm_num]
  rw [masked, Nat.testBit_eq_decide_div_mod_eq]
  cases decide (number / 2 ^ 23 % 2 = 1) <;> rfl

section Parts

variable {exponent mantissa : Nat} {negative : Bool}

theorem compactWord_toNat (small : exponent < 256) (room : mantissa < 2 ^ 23) :
    (compactWord exponent mantissa negative).toNat =
      2 ^ 24 * exponent + (2 ^ 23 * negative.toNat + mantissa) := by
  rw [compactWord, UInt32.toNat_ofNat', Nat.mod_eq_of_lt]
  cases negative <;> simp <;> omega

/-- The parts of a compact number, put together by `or`. -/
theorem or_parts (exponent : Nat) (negative : Bool) (room : mantissa < 2 ^ 23) :
    mantissa ||| exponent <<< 24 ||| (if negative then 0x00800000 else 0) =
      2 ^ 24 * exponent + (2 ^ 23 * negative.toNat + mantissa) := by
  have sign : (if negative then 0x00800000 else 0) = 2 ^ 23 * negative.toNat := by
    cases negative <;> rfl
  have low : 2 ^ 23 * negative.toNat + mantissa < 2 ^ 24 := by
    cases negative <;> simp <;> omega
  rw [sign, Nat.shiftLeft_eq, Nat.mul_comm exponent, Nat.or_right_comm, Nat.or_comm mantissa,
    ← Nat.two_pow_add_eq_or_of_lt room, Nat.or_comm, ← Nat.two_pow_add_eq_or_of_lt low]

/-- The exponent, the mantissa and the sign are read back from a compact number. -/
theorem compactWord_parts (negative : Bool) (small : exponent < 256) (room : mantissa < 2 ^ 23) :
    (compactWord exponent mantissa negative).toNat >>> 24 = exponent ∧
      (compactWord exponent mantissa negative).toNat &&& 0x007fffff = mantissa ∧
      ((compactWord exponent mantissa negative).toNat &&& 0x00800000 != 0) = negative := by
  rw [compactWord_toNat small room]
  refine ⟨?_, ?_, ?_⟩
  · rw [Nat.shiftRight_eq_div_pow]
    cases negative <;> simp <;> omega
  · rw [and_mantissa]
    cases negative <;> simp <;> omega
  · rw [and_sign]
    cases negative <;> simp <;> omega

end Parts

theorem leadingBytes_eq (magnitude nSize : Nat) :
    leadingBytes magnitude nSize = leadingThree nSize magnitude := by
  rw [leadingBytes, leadingThree, Nat.shiftLeft_eq, Nat.shiftRight_eq_div_pow]

theorem packCompact_eq (magnitude : Nat) (signed : Bool) :
    packCompact (byteLength magnitude) (leadingBytes magnitude (byteLength magnitude)) signed =
      compactWord (compactExponent magnitude) (compactMantissa magnitude) signed := by
  have parts := compact_of_leadingThree magnitude
  have room := compactMantissa_lt magnitude
  have signBit := and_sign (leadingThree (byteLength magnitude) magnitude)
  rw [← Nat.testBit_eq_decide_div_mod_eq] at signBit
  rw [leadingBytes_eq, packCompact, signBit, compactWord, ← or_parts _ _ room]
  by_cases set : (leadingThree (byteLength magnitude) magnitude).testBit 23 = true
  · rw [if_pos set] at parts
    simp [set, parts.1, parts.2, Nat.shiftRight_eq_div_pow]
  · rw [if_neg set] at parts
    simp [set, parts.1, parts.2]

theorem getCompact_eq (target : ArithUint256) :
    getCompact target =
      compactWord (compactExponent target.toNat) (compactMantissa target.toNat) false :=
  packCompact_eq target.toNat false

theorem CBigNum.getCompact_eq (number : CBigNum) :
    CBigNum.getCompact number =
      compactWord (compactExponent number.natAbs) (compactMantissa number.natAbs)
        (decide (number < 0)) :=
  packCompact_eq number.natAbs (decide (number < 0))

section Reading

variable (nCompact : UInt32)

def exponentOf : Nat := nCompact.toNat >>> 24

/-- The mantissa of a compact number, without the sign. -/
def mantissaOf : Nat := nCompact.toNat &&& 0x007fffff

/-- What is left of the mantissa when the exponent is small. -/
def wordOf : Nat :=
  if exponentOf nCompact ≤ 3 then mantissaOf nCompact >>> (8 * (3 - exponentOf nCompact))
  else mantissaOf nCompact

/-- The magnitude that a compact number stands for, however large. -/
def magnitudeOf : Nat := compactValue (exponentOf nCompact) (mantissaOf nCompact)

theorem mantissaOf_lt : mantissaOf nCompact < 2 ^ 23 := by
  rw [mantissaOf, and_mantissa]
  exact Nat.mod_lt _ (by decide)

theorem wordOf_le : wordOf nCompact ≤ mantissaOf nCompact := by
  rw [wordOf, Nat.shiftRight_eq_div_pow]
  split
  · exact Nat.div_le_self _ _
  · exact Nat.le_refl _

theorem magnitudeOf_eq :
    magnitudeOf nCompact = wordOf nCompact * 2 ^ (8 * (exponentOf nCompact - 3)) := by
  rw [magnitudeOf, compactValue, wordOf, Nat.shiftRight_eq_div_pow]
  by_cases short : exponentOf nCompact ≤ 3
  · rw [if_pos short, if_pos short, Nat.sub_eq_zero_of_le short]
    simp
  · rw [if_neg short, if_neg short]

theorem setCompact_value :
    (setCompact nCompact).value.toNat = magnitudeOf nCompact % 2 ^ 256 := by
  have room := mantissaOf_lt nCompact
  have word := wordOf_le nCompact
  have known : (setCompact nCompact).value =
      if exponentOf nCompact ≤ 3 then BitVec.ofNat 256 (wordOf nCompact)
      else BitVec.ofNat 256 (wordOf nCompact) <<< (8 * (exponentOf nCompact - 3)) := rfl
  rw [known, magnitudeOf_eq]
  by_cases short : exponentOf nCompact ≤ 3
  · rw [if_pos short, Nat.sub_eq_zero_of_le short, BitVec.toNat_ofNat]
    simp
  · rw [if_neg short, BitVec.toNat_shiftLeft, BitVec.toNat_ofNat, Nat.shiftLeft_eq,
      Nat.mod_mul_mod]

/-- The overflow is flagged exactly when the magnitude does not fit. -/
theorem setCompact_fOverflow :
    (setCompact nCompact).fOverflow = decide (2 ^ 256 ≤ magnitudeOf nCompact) := by
  have room := (wordOf_le nCompact).trans_lt (mantissaOf_lt nCompact)
  have known : (setCompact nCompact).fOverflow = (wordOf nCompact != 0 &&
      (decide (exponentOf nCompact > 34) ||
        decide (wordOf nCompact > 0xff ∧ exponentOf nCompact > 33) ||
        decide (wordOf nCompact > 0xffff ∧ exponentOf nCompact > 32))) := rfl
  rw [known, magnitudeOf_eq, Bool.eq_iff_iff]
  generalize wordOf nCompact = word at *
  generalize exponentOf nCompact = exponent
  simp only [Bool.and_eq_true, bne_iff_ne, Bool.or_eq_true, decide_eq_true_iff]
  rcases Nat.lt_or_ge 34 exponent with far | near
  · -- Every word but 0 is shifted out.
    have unit : 2 ^ 256 ≤ 2 ^ (8 * (exponent - 3)) := Nat.pow_le_pow_right (by decide) (by omega)
    constructor
    · intro ⟨set, _⟩
      exact unit.trans (Nat.le_mul_of_pos_left _ (Nat.pos_of_ne_zero set))
    · intro large
      exact ⟨by rintro rfl; simp at large, .inl (.inl far)⟩
  · rcases Nat.lt_or_ge 32 exponent with edge | inside
    · obtain rfl | rfl : exponent = 33 ∨ exponent = 34 := by omega
      · simp only [Nat.reduceSub, Nat.reduceMul, Nat.reducePow]
        omega
      · simp only [Nat.reduceSub, Nat.reduceMul, Nat.reducePow]
        omega
    · have unit : 2 ^ (8 * (exponent - 3)) ≤ 2 ^ 232 := Nat.pow_le_pow_right (by decide) (by omega)
      have small : word * 2 ^ (8 * (exponent - 3)) < 2 ^ 256 :=
        calc
          word * 2 ^ (8 * (exponent - 3)) ≤ word * 2 ^ 232 := Nat.mul_le_mul_left _ unit
          _ < 2 ^ 24 * 2 ^ 232 := Nat.mul_lt_mul_of_pos_right (by omega) (by decide)
          _ = 2 ^ 256 := by rw [← pow_add]
      constructor
      · intro ⟨_, flagged⟩
        omega
      · intro large
        omega

theorem setCompact_fNegative :
    (setCompact nCompact).fNegative =
      (wordOf nCompact != 0 && nCompact.toNat &&& 0x00800000 != 0) := rfl

/-- The legacy number has the magnitude and the sign that are written. -/
theorem CBigNum.setCompact_eq :
    CBigNum.setCompact nCompact =
      if nCompact.toNat &&& 0x00800000 != 0 then -(magnitudeOf nCompact : Int)
      else magnitudeOf nCompact := by
  have known : CBigNum.setCompact nCompact =
      if nCompact.toNat &&& 0x00800000 != 0 then
        -((if exponentOf nCompact ≤ 3 then mantissaOf nCompact >>> (8 * (3 - exponentOf nCompact))
          else mantissaOf nCompact <<< (8 * (exponentOf nCompact - 3)) : Nat) : Int)
      else ((if exponentOf nCompact ≤ 3 then mantissaOf nCompact >>> (8 * (3 - exponentOf nCompact))
          else mantissaOf nCompact <<< (8 * (exponentOf nCompact - 3)) : Nat) : Int) := rfl
  rw [known, magnitudeOf, compactValue, Nat.shiftRight_eq_div_pow, Nat.shiftLeft_eq]

/-- Both codecs read a number that is neither negative nor too large. -/
theorem bigNum_setCompact_of_fits {nBits : UInt32} (positive : (setCompact nBits).fNegative = false)
    (fits : (setCompact nBits).fOverflow = false) :
    CBigNum.setCompact nBits = ((setCompact nBits).value.toNat : Int) := by
  rw [setCompact_fNegative] at positive
  rw [setCompact_fOverflow, decide_eq_false_iff_not, Nat.not_le] at fits
  rw [CBigNum.setCompact_eq, setCompact_value, Nat.mod_eq_of_lt fits]
  by_cases sign : (nBits.toNat &&& 0x00800000 != 0) = true
  · have word : wordOf nBits = 0 := by
      rw [sign] at positive
      simpa using positive
    rw [if_pos sign, magnitudeOf_eq, word]
    simp
  · rw [if_neg sign]

/-- The word on limbs, before it is shifted up. -/
def wordOf32 : UInt32 :=
  if (nCompact >>> 24).toNat ≤ 3 then
    (nCompact &&& 0x007fffff) >>> UInt32.ofNat (8 * (3 - (nCompact >>> 24).toNat))
  else nCompact &&& 0x007fffff

theorem wordOf32_toNat : (wordOf32 nCompact).toNat = wordOf nCompact := by
  have size : (nCompact >>> 24).toNat = exponentOf nCompact := UInt32.toNat_shiftRight _ _
  have mantissa : (nCompact &&& 0x007fffff).toNat = mantissaOf nCompact := UInt32.toNat_and _ _
  rw [wordOf32, size, wordOf]
  by_cases short : exponentOf nCompact ≤ 3
  · rw [if_pos short, if_pos short, UInt32.toNat_shiftRight, mantissa, UInt32.toNat_ofNat',
      Nat.mod_eq_of_lt (by omega : 8 * (3 - exponentOf nCompact) < 2 ^ 32),
      Nat.mod_eq_of_lt (by omega : 8 * (3 - exponentOf nCompact) < 32)]
  · rw [if_neg short, if_neg short, mantissa]

theorem limbs_setCompact :
    (BaseUint.setCompact nCompact).value.toNat = (setCompact nCompact).value.toNat ∧
      (BaseUint.setCompact nCompact).fNegative = (setCompact nCompact).fNegative ∧
      (BaseUint.setCompact nCompact).fOverflow = (setCompact nCompact).fOverflow := by
  have size : (nCompact >>> 24).toNat = exponentOf nCompact := UInt32.toNat_shiftRight _ _
  have word := wordOf32_toNat nCompact
  have room := (wordOf_le nCompact).trans_lt (mantissaOf_lt nCompact)
  have set : (wordOf32 nCompact != 0) = (wordOf nCompact != 0) := by
    rw [Bool.eq_iff_iff, bne_iff_ne, bne_iff_ne, ← word, Ne, ← UInt32.toNat_inj]
    rfl
  have sign : (nCompact &&& 0x00800000 != 0) = (nCompact.toNat &&& 0x00800000 != 0) := by
    rw [Bool.eq_iff_iff, bne_iff_ne, bne_iff_ne, Ne, ← UInt32.toNat_inj, UInt32.toNat_and]
    rfl
  have value : (BaseUint.setCompact nCompact).value =
      if exponentOf nCompact ≤ 3 then BaseUint.ofUInt64 8 (wordOf32 nCompact).toUInt64
      else (BaseUint.ofUInt64 8 (wordOf32 nCompact).toUInt64).shiftLeft
        (8 * (exponentOf nCompact - 3)) := by
    rw [← size]
    rfl
  refine ⟨?_, ?_, ?_⟩
  · rw [value, setCompact_value, magnitudeOf_eq]
    by_cases short : exponentOf nCompact ≤ 3
    · rw [if_pos short, BaseUint.toNat_ofUInt64 (by decide), UInt32.toNat_toUInt64, word,
        Nat.sub_eq_zero_of_le short, Nat.mul_zero, pow_zero, Nat.mul_one, Nat.mod_eq_of_lt (by omega)]
    · rw [if_neg short, BaseUint.toNat_shiftLeft, BaseUint.toNat_ofUInt64 (by decide),
        UInt32.toNat_toUInt64, word]
  · rw [setCompact_fNegative, ← set, ← sign]
    rfl
  · have known : (BaseUint.setCompact nCompact).fOverflow = (wordOf32 nCompact != 0 &&
        (decide (exponentOf nCompact > 34) ||
          decide (wordOf32 nCompact > 0xff ∧ exponentOf nCompact > 33) ||
          decide (wordOf32 nCompact > 0xffff ∧ exponentOf nCompact > 32))) := by
      rw [← size]
      rfl
    rw [known, set]
    simp only [gt_iff_lt, UInt32.lt_iff_toNat_lt, word]
    rfl

end Reading

theorem compactExponent_lt {number : Nat} (fits : number < 2 ^ 256) :
    compactExponent number < 256 := by
  have size : number.size ≤ 256 := Nat.size_le.mpr fits
  unfold compactExponent
  split <;> omega

/-- What is read back from a compact number that `GetCompact` wrote. -/
theorem magnitudeOf_compactWord {number : Nat} (fits : number < 2 ^ 256) (negative : Bool) :
    magnitudeOf (compactWord (compactExponent number) (compactMantissa number) negative) =
      truncated number := by
  obtain ⟨exponent, mantissa, _⟩ :=
    compactWord_parts negative (compactExponent_lt fits) (compactMantissa_lt number)
  rw [magnitudeOf, exponentOf, mantissaOf, exponent, mantissa, truncated]

/-- A target in compact form is read back without its low bytes. -/
theorem setCompact_getCompact (target : ArithUint256) :
    (setCompact (getCompact target)).value.toNat = truncated target.toNat ∧
      (setCompact (getCompact target)).fNegative = false ∧
      (setCompact (getCompact target)).fOverflow = false := by
  have read := magnitudeOf_compactWord target.isLt false
  have fits := (truncated_le target.toNat).trans_lt target.isLt
  obtain ⟨_, _, sign⟩ := compactWord_parts false (compactExponent_lt target.isLt)
    (compactMantissa_lt target.toNat)
  rw [getCompact_eq, setCompact_value, setCompact_fNegative, setCompact_fOverflow, read, sign,
    Nat.mod_eq_of_lt fits]
  exact ⟨rfl, Bool.and_false _, by simpa using fits⟩

/-- Targets of one compact form are cut down to the same number. -/
theorem truncated_eq_of_getCompact_eq {target other : ArithUint256}
    (same : getCompact target = getCompact other) :
    truncated target.toNat = truncated other.toNat := by
  rw [← (setCompact_getCompact target).1, ← (setCompact_getCompact other).1, same]

section Writing

variable (a : BaseUint 8)

/-- The leading bytes that `GetCompact` starts with. -/
def leadingWord : UInt32 :=
  if (a.bits + 7) / 8 ≤ 3 then
    (a.getLow64 <<< UInt64.ofNat (8 * (3 - (a.bits + 7) / 8))).toUInt32
  else (a.shiftRight (8 * ((a.bits + 7) / 8 - 3))).getLow64.toUInt32

theorem leadingWord_toNat :
    (leadingWord a).toNat = leadingThree (byteLength a.toNat) a.toNat := by
  have bound := leadingThree_lt a.toNat
  have bytes : (a.bits + 7) / 8 = byteLength a.toNat := by rw [BaseUint.bits_eq_size, byteLength]
  rw [leadingWord, bytes]
  by_cases short : byteLength a.toNat ≤ 3
  · have low : a.toNat < 2 ^ 24 := by
      apply Nat.size_le.mp
      have known : byteLength a.toNat = (a.toNat.size + 7) / 8 := rfl
      omega
    rw [leadingThree, if_pos short] at bound
    rw [if_pos short, leadingThree, if_pos short, UInt64.toNat_toUInt32, UInt64.toNat_shiftLeft,
      BaseUint.toNat_getLow64 a (by decide), UInt64.toNat_ofNat',
      Nat.mod_eq_of_lt (by omega : 8 * (3 - byteLength a.toNat) < 2 ^ 64),
      Nat.mod_eq_of_lt (by omega : 8 * (3 - byteLength a.toNat) < 64),
      Nat.mod_eq_of_lt (by omega : a.toNat < 2 ^ 64), Nat.shiftLeft_eq,
      Nat.mod_eq_of_lt (by omega), Nat.mod_eq_of_lt (by omega)]
  · rw [leadingThree, if_neg short] at bound
    rw [if_neg short, leadingThree, if_neg short, UInt64.toNat_toUInt32,
      BaseUint.toNat_getLow64 _ (by decide), BaseUint.toNat_shiftRight,
      Nat.mod_eq_of_lt (by omega : a.toNat / 2 ^ (8 * (byteLength a.toNat - 3)) < 2 ^ 64),
      Nat.mod_eq_of_lt (by omega)]

theorem and_sign32 (word : UInt32) :
    (word &&& 0x00800000 != 0) = word.toNat.testBit 23 := by
  have sign := and_sign word.toNat
  rw [← Nat.testBit_eq_decide_div_mod_eq] at sign
  rw [← sign, Bool.eq_iff_iff, bne_iff_ne, bne_iff_ne, Ne, ← UInt32.toNat_inj, UInt32.toNat_and]
  rfl

theorem shiftedExponent_toNat {exponent : Nat} (small : exponent < 256) :
    (UInt32.ofNat exponent <<< 24).toNat = exponent <<< 24 := by
  have shift : (24 : UInt32).toNat % 32 = 24 := rfl
  rw [UInt32.toNat_shiftLeft, shift, UInt32.toNat_ofNat', Nat.mod_eq_of_lt (by omega : exponent < 2 ^ 32),
    Nat.shiftLeft_eq]
  exact Nat.mod_eq_of_lt (by omega)

theorem mantissa_of_or {exponent : Nat} {mantissa : UInt32} (room : mantissa.toNat < 2 ^ 23)
    (small : exponent < 256) :
    ((mantissa ||| UInt32.ofNat exponent <<< 24) &&& 0x007fffff).toNat = mantissa.toNat := by
  have joined := or_parts exponent false room
  have masked := and_mantissa (2 ^ 24 * exponent + (2 ^ 23 * false.toNat + mantissa.toNat))
  rw [if_neg Bool.false_ne_true, Nat.or_zero] at joined
  rw [← joined] at masked
  rw [UInt32.toNat_and, UInt32.toNat_or, shiftedExponent_toNat small]
  refine masked.trans ?_
  rw [joined, Bool.toNat_false]
  omega

/-- `GetCompact` gives the exponent and the mantissa; its assertions hold. -/
theorem limbs_getCompact (fNegative : Bool) :
    a.getCompact fNegative =
      some (compactWord (compactExponent a.toNat) (compactMantissa a.toNat)
        (fNegative && a.toNat != 0)) := by
  have bytes : (a.bits + 7) / 8 = byteLength a.toNat := by rw [BaseUint.bits_eq_size, byteLength]
  have parts := compact_of_leadingThree a.toNat
  have room := compactMantissa_lt a.toNat
  have small := compactExponent_lt a.toNat_lt
  rw [← leadingWord_toNat, ← and_sign32] at parts
  have size : (if leadingWord a &&& 0x00800000 != 0 then byteLength a.toNat + 1
      else byteLength a.toNat) = compactExponent a.toNat := by
    split at parts
    · rw [if_pos ‹_›, parts.1]
    · rw [if_neg ‹_›, parts.1]
  have word : (if leadingWord a &&& 0x00800000 != 0 then leadingWord a >>> 8
      else leadingWord a).toNat = compactMantissa a.toNat := by
    split at parts
    · rw [if_pos ‹_›, parts.2, UInt32.toNat_shiftRight, Nat.shiftRight_eq_div_pow]
      rfl
    · rw [if_neg ‹_›, parts.2]
  have known : a.getCompact fNegative =
      (let nSize := if leadingWord a &&& 0x00800000 != 0 then (a.bits + 7) / 8 + 1
        else (a.bits + 7) / 8
      let nCompact := if leadingWord a &&& 0x00800000 != 0 then leadingWord a >>> 8
        else leadingWord a
      if nCompact &&& ~~~0x007fffff ≠ 0 then none
      else if ¬ nSize < 256 then none
      else
        let nCompact := nCompact ||| UInt32.ofNat nSize <<< 24
        some (nCompact |||
          if fNegative && nCompact &&& 0x007fffff != 0 then 0x00800000 else 0)) := rfl
  rw [known, bytes, size]
  generalize (if leadingWord a &&& 0x00800000 != 0 then leadingWord a >>> 8 else leadingWord a) =
    mantissa at word
  have mask : (0x007fffff : UInt32) &&& ~~~0x007fffff = 0 := by decide
  have inside : mantissa &&& 0x007fffff = mantissa := by
    rw [← UInt32.toNat_inj, UInt32.toNat_and]
    have masked := and_mantissa mantissa.toNat
    rw [word, Nat.mod_eq_of_lt room, ← word] at masked
    exact masked
  have exponent := shiftedExponent_toNat small
  have nonzero : ((mantissa ||| UInt32.ofNat (compactExponent a.toNat) <<< 24) &&& 0x007fffff != 0) =
      (a.toNat != 0) := by
    have low := mantissa_of_or (word ▸ room) small
    rw [Bool.eq_iff_iff, bne_iff_ne, bne_iff_ne, Ne, Ne, ← UInt32.toNat_inj, low, word]
    exact not_congr compactMantissa_eq_zero_iff
  rw [if_neg (by rw [← inside, UInt32.and_assoc, mask, UInt32.and_zero]; simp),
    if_neg (not_not.mpr small)]
  dsimp only
  rw [nonzero]
  refine congrArg some (UInt32.toNat_inj.mp ?_)
  rw [UInt32.toNat_or, UInt32.toNat_or, exponent, word, compactWord_toNat small room, ← or_parts _ _ room]
  cases fNegative && a.toNat != 0 <;> rfl

end Writing

theorem pow_256 (count : Nat) : 256 ^ count = 2 ^ (8 * count) := by
  rw [pow_mul]
  norm_num

theorem limbs_setCompact_value (nCompact : UInt32) (fits : magnitudeOf nCompact < 2 ^ 256) :
    (BaseUint.setCompact nCompact).value.toNat = magnitudeOf nCompact ∧
      (BaseUint.setCompact nCompact).fOverflow = false := by
  obtain ⟨value, _, overflow⟩ := limbs_setCompact nCompact
  rw [value, overflow, setCompact_value, setCompact_fOverflow, Nat.mod_eq_of_lt fits]
  exact ⟨rfl, by simpa using fits⟩

/-- A number that is written in compact form and read back is cut down by less than a
unit of the last byte kept, in an order that does not change. -/
theorem compact_round_trip (x y : BaseUint 8) (fNegative fNegative' : Bool) :
    ∃ nCompact nCompact', x.getCompact fNegative = some nCompact ∧
      y.getCompact fNegative' = some nCompact' ∧
      (BaseUint.setCompact nCompact).fOverflow = false ∧
      (BaseUint.setCompact nCompact).value.toNat ≤ x.toNat ∧
      x.toNat - (BaseUint.setCompact nCompact).value.toNat < 256 ^ ((x.toNat.size + 7) / 8 - 2) ∧
      ((x.toNat.size + 7) / 8 ≤ 2 → (BaseUint.setCompact nCompact).value.toNat = x.toNat) ∧
      (BaseUint.setCompact nCompact).value.getCompact fNegative = some nCompact ∧
      (x.toNat ≤ y.toNat → (BaseUint.setCompact nCompact).value.toNat ≤
        (BaseUint.setCompact nCompact').value.toNat) := by
  refine ⟨_, _, limbs_getCompact x fNegative, limbs_getCompact y fNegative', ?_⟩
  have fits (a : BaseUint 8) (negative : Bool) := limbs_setCompact_value
    (compactWord (compactExponent a.toNat) (compactMantissa a.toNat) negative)
    ((magnitudeOf_compactWord a.toNat_lt negative).trans_lt ((truncated_le _).trans_lt a.toNat_lt))
  have read := (fits x (fNegative && x.toNat != 0)).1
  have read' := (fits y (fNegative' && y.toNat != 0)).1
  rw [magnitudeOf_compactWord x.toNat_lt] at read
  rw [magnitudeOf_compactWord y.toNat_lt] at read'
  have lost := sub_truncated_lt x.toNat
  rw [← pow_256, byteLength, ← read] at lost
  refine ⟨(fits x _).2, read.trans_le (truncated_le _), lost, ?_, ?_, ?_⟩
  · intro short
    rw [read]
    apply truncated_of_short
    have := compactExponent_le x.toNat
    unfold byteLength at this
    omega
  · have zero : (truncated x.toNat != 0) = (x.toNat != 0) := by
      rcases Nat.eq_zero_or_pos x.toNat with nothing | positive
      · rw [nothing]
        rfl
      · have stays := truncated_pos positive
        rw [Bool.eq_iff_iff, bne_iff_ne, bne_iff_ne]
        omega
    rw [limbs_getCompact, read, compactExponent_truncated, compactMantissa_truncated, zero]
  · intro order
    rw [read, read']
    exact truncated_mono order

/-- The two codecs of compact numbers agree. -/
theorem compact_codecs_agree (nBits : UInt32) (x : BaseUint 8) :
    ((BaseUint.setCompact nBits).fOverflow = true ↔
      2 ^ 256 * 256 ^ 3 ≤ nBits.toNat % 2 ^ 23 * 256 ^ (nBits.toNat / 2 ^ 24)) ∧
    ((BaseUint.setCompact nBits).fNegative = false → (BaseUint.setCompact nBits).fOverflow = false →
      CBigNum.setCompact nBits = ((BaseUint.setCompact nBits).value.toNat : Int)) ∧
    x.getCompact false = some (CBigNum.getCompact x.toNat) := by
  obtain ⟨_, negative, overflow⟩ := limbs_setCompact nBits
  refine ⟨?_, ?_, ?_⟩
  · have exponent : exponentOf nBits = nBits.toNat / 2 ^ 24 := Nat.shiftRight_eq_div_pow _ _
    have mantissa : mantissaOf nBits = nBits.toNat % 2 ^ 23 := and_mantissa _
    have room := mantissaOf_lt nBits
    rw [overflow, setCompact_fOverflow, decide_eq_true_iff, magnitudeOf, compactValue, ← exponent,
      ← mantissa, pow_256, pow_256]
    by_cases short : exponentOf nBits ≤ 3
    · have unit : 2 ^ (8 * exponentOf nBits) ≤ 2 ^ 24 := Nat.pow_le_pow_right (by decide) (by omega)
      have below := Nat.mul_le_mul_left (mantissaOf nBits) unit
      have part := Nat.div_le_self (mantissaOf nBits) (2 ^ (8 * (3 - exponentOf nBits)))
      rw [if_pos short]
      omega
    · rw [if_neg short, show 8 * exponentOf nBits = 8 * (exponentOf nBits - 3) + 24 by omega,
        pow_add 2 (8 * (exponentOf nBits - 3)) 24, ← Nat.mul_assoc]
      exact (Nat.mul_le_mul_right_iff (Nat.two_pow_pos 24)).symm
  · intro positive fits
    rw [(limbs_setCompact nBits).1]
    exact bigNum_setCompact_of_fits (negative ▸ positive) (overflow ▸ fits)
  · have positive : decide ((x.toNat : Int) < 0) = false := decide_eq_false (by omega)
    rw [limbs_getCompact, CBigNum.getCompact_eq, positive]
    rfl

end Lycancoin
