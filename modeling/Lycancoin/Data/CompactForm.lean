import Lycancoin.Data.Digits
import Mathlib.Tactic.Ring
import Mathlib.Tactic.Zify

namespace Lycancoin.Data

variable {width word other : Nat} {value : Int}

/-- The word has the number's magnitude below its top bit and the sign in that bit. -/
def HoldsSigned (width word : Nat) (value : Int) : Prop :=
  value.natAbs < 2 ^ (width - 1) ∧
    (word = value.natAbs ∧ 0 ≤ value ∨ word = value.natAbs + 2 ^ (width - 1) ∧ value ≤ 0)

def signedValue (width word : Nat) : Int :=
  if 2 ^ (width - 1) ≤ word then -((word : Int) - 2 ^ (width - 1)) else word

theorem holdsSigned_iff (fits : word < 2 ^ width) :
    HoldsSigned width word value ↔ signedValue width word = value := by
  have cast : ((2 ^ (width - 1) : Nat) : Int) = 2 ^ (width - 1) := by norm_cast
  have double : 2 ^ width ≤ 2 * 2 ^ (width - 1) := by
    cases width with
    | zero => decide
    | succ width => rw [Nat.add_sub_cancel, pow_succ, Nat.mul_comm]
  have positive : 1 ≤ 2 ^ (width - 1) := Nat.one_le_two_pow
  rw [HoldsSigned, signedValue, ← cast]
  generalize 2 ^ (width - 1) = sign at *
  split <;> omega

theorem HoldsSigned.unique (one : HoldsSigned width word value)
    (two : HoldsSigned width other value) (nonzero : value ≠ 0) : word = other := by
  obtain ⟨-, one⟩ := one
  obtain ⟨-, two⟩ := two
  omega

end Lycancoin.Data

namespace Lycancoin.Data

/-! A number kept as an exponent of base 256 and a mantissa of three bytes, whose
highest bit is left free for a sign. -/

variable {number other : ℕ}

def byteLength (number : ℕ) : ℕ := (number.size + 7) / 8

/-- The bytes of a number together with a free bit above it. -/
def compactExponent (number : ℕ) : ℕ := if number = 0 then 0 else number.size / 8 + 1

/-- The leading three of `length` bytes. -/
def leadingThree (length number : ℕ) : ℕ :=
  if length ≤ 3 then number * 2 ^ (8 * (3 - length)) else number / 2 ^ (8 * (length - 3))

def compactMantissa (number : ℕ) : ℕ := leadingThree (compactExponent number) number

def compactValue (exponent mantissa : ℕ) : ℕ :=
  if exponent ≤ 3 then mantissa / 2 ^ (8 * (3 - exponent)) else mantissa * 2 ^ (8 * (exponent - 3))

def truncated (number : ℕ) : ℕ := compactValue (compactExponent number) (compactMantissa number)

theorem size_mul_two_pow (positive : 0 < number) (bits : ℕ) :
    (number * 2 ^ bits).size = number.size + bits := by
  have known := size_add_two_pow_mul (Nat.two_pow_pos bits) positive
  rwa [Nat.zero_add, Nat.mul_comm, Nat.add_comm bits] at known

theorem size_div_two_pow (number bits : ℕ) : (number / 2 ^ bits).size = number.size - bits := by
  apply eq_of_forall_ge_iff
  intro bound
  rw [Nat.size_le, Nat.div_lt_iff_lt_mul (Nat.two_pow_pos bits), ← pow_add, ← Nat.size_le]
  omega

theorem size_leadingThree (positive : 0 < number) (length : ℕ) :
    (leadingThree length number).size = number.size + 24 - 8 * length := by
  rw [leadingThree]
  by_cases short : length ≤ 3
  · rw [if_pos short, size_mul_two_pow positive]
    omega
  · rw [if_neg short, size_div_two_pow]
    omega

theorem compactExponent_pos (positive : 0 < number) :
    compactExponent number = number.size / 8 + 1 := if_neg positive.ne'

theorem leadingThree_lt (number : ℕ) : leadingThree (byteLength number) number < 2 ^ 24 := by
  rcases Nat.eq_zero_or_pos number with rfl | positive
  · decide
  · apply Nat.size_le.mp
    rw [size_leadingThree positive, byteLength]
    omega

theorem size_compactMantissa (positive : 0 < number) :
    (compactMantissa number).size = 16 + number.size % 8 := by
  rw [compactMantissa, size_leadingThree positive, compactExponent_pos positive]
  omega

theorem compactMantissa_lt (number : ℕ) : compactMantissa number < 2 ^ 23 := by
  rcases Nat.eq_zero_or_pos number with rfl | positive
  · decide
  · apply Nat.size_le.mp
    rw [size_compactMantissa positive]
    omega

theorem compactMantissa_eq_zero_iff : compactMantissa number = 0 ↔ number = 0 := by
  constructor
  · intro zero
    rcases Nat.eq_zero_or_pos number with nothing | positive
    · exact nothing
    · have known := size_compactMantissa positive
      rw [zero, Nat.size_zero] at known
      omega
  · rintro rfl
    rfl

/-- The leading bytes fill the mantissa unless their highest bit is set: then the
exponent is one more, and the mantissa loses a byte. -/
theorem compact_of_leadingThree (number : ℕ) :
    if (leadingThree (byteLength number) number).testBit 23 then
      compactExponent number = byteLength number + 1 ∧
        compactMantissa number = leadingThree (byteLength number) number / 2 ^ 8
    else compactExponent number = byteLength number ∧
      compactMantissa number = leadingThree (byteLength number) number := by
  rcases Nat.eq_zero_or_pos number with rfl | positive
  · decide
  have size := size_leadingThree positive (byteLength number)
  have bytes : byteLength number = (number.size + 7) / 8 := rfl
  by_cases set : (leadingThree (byteLength number) number).testBit 23 = true
  · rw [if_pos set]
    have full : 23 < (leadingThree (byteLength number) number).size :=
      Nat.lt_size.mpr (Nat.ge_two_pow_of_testBit set)
    have exponent : compactExponent number = byteLength number + 1 := by
      rw [compactExponent_pos positive]
      omega
    refine ⟨exponent, ?_⟩
    rw [compactMantissa, exponent, leadingThree, leadingThree]
    rcases Nat.lt_trichotomy (byteLength number) 3 with short | three | long
    · rw [if_pos (by omega), if_pos (by omega),
        show 8 * (3 - byteLength number) = 8 * (3 - (byteLength number + 1)) + 8 by omega, pow_add,
        ← Nat.mul_assoc, Nat.mul_div_cancel _ (by decide)]
    · rw [if_neg (by omega), if_pos (by omega), three]
      simp
    · rw [if_neg (by omega), if_neg (by omega), Nat.div_div_eq_div_mul, ← pow_add,
        show 8 * (byteLength number + 1 - 3) = 8 * (byteLength number - 3) + 8 by omega]
  · rw [if_neg set]
    have room : (leadingThree (byteLength number) number).size ≤ 23 := by
      apply Nat.size_le.mpr
      apply Nat.lt_of_not_le
      intro large
      have below : leadingThree (byteLength number) number < 2 ^ (23 + 1) :=
        Nat.size_le.mp (by omega)
      exact set (Nat.testBit_of_two_pow_le_and_two_pow_add_one_gt large below)
    have exponent : compactExponent number = byteLength number := by
      have := Nat.size_pos.mpr positive
      rw [compactExponent_pos positive]
      omega
    exact ⟨exponent, by rw [compactMantissa, exponent]⟩

/-- The compact form drops the low bytes that do not fit. -/
theorem truncated_eq (number : ℕ) :
    truncated number =
      number / 2 ^ (8 * (compactExponent number - 3)) * 2 ^ (8 * (compactExponent number - 3)) := by
  rw [truncated, compactValue, compactMantissa, leadingThree]
  by_cases short : compactExponent number ≤ 3
  · rw [if_pos short, if_pos short, Nat.mul_div_cancel _ (Nat.two_pow_pos _),
      Nat.sub_eq_zero_of_le short]
    simp
  · rw [if_neg short, if_neg short]

theorem truncated_le (number : ℕ) : truncated number ≤ number := by
  rw [truncated_eq]
  exact Nat.div_mul_le_self _ _

theorem compactExponent_le (number : ℕ) : compactExponent number ≤ byteLength number + 1 := by
  unfold compactExponent byteLength
  split <;> omega

/-- Less than a unit of the last byte kept is lost. -/
theorem sub_truncated_lt (number : ℕ) :
    number - truncated number < 2 ^ (8 * (byteLength number - 2)) := by
  have split := Nat.div_add_mod number (2 ^ (8 * (compactExponent number - 3)))
  have part := Nat.mod_lt number (Nat.two_pow_pos (8 * (compactExponent number - 3)))
  have exponent := compactExponent_le number
  have unit : 2 ^ (8 * (compactExponent number - 3)) ≤ 2 ^ (8 * (byteLength number - 2)) :=
    Nat.pow_le_pow_right (by decide) (by omega)
  rw [truncated_eq, Nat.mul_comm]
  omega

/-- A power of two that a number reaches is reached after the rounding, when it is no
smaller than what is rounded to. -/
theorem two_pow_le_truncated {bits : ℕ} (large : 8 * (compactExponent number - 3) ≤ bits)
    (reached : 2 ^ bits ≤ number) : 2 ^ bits ≤ truncated number := by
  obtain ⟨rest, rfl⟩ := Nat.exists_eq_add_of_le large
  rw [truncated_eq, pow_add, Nat.mul_comm]
  apply Nat.mul_le_mul_right
  rw [Nat.le_div_iff_mul_le (Nat.two_pow_pos _), Nat.mul_comm, ← pow_add]
  exact reached

theorem size_truncated (number : ℕ) : (truncated number).size = number.size := by
  apply Nat.le_antisymm (Nat.size_le_size (truncated_le number))
  rcases Nat.eq_zero_or_pos number with rfl | positive
  · simp
  obtain ⟨bits, known⟩ := Nat.exists_eq_add_one_of_ne_zero (Nat.size_pos.mpr positive).ne'
  rw [known]
  apply Nat.lt_size.mpr
  refine two_pow_le_truncated ?_ (Nat.lt_size.mp (by omega))
  rw [compactExponent_pos positive, known]
  omega

theorem truncated_pos (positive : 0 < number) : 0 < truncated number :=
  Nat.size_pos.mp (by rw [size_truncated]; exact Nat.size_pos.mpr positive)

theorem compactExponent_truncated (number : ℕ) :
    compactExponent (truncated number) = compactExponent number := by
  rcases Nat.eq_zero_or_pos number with rfl | positive
  · simp [truncated, compactExponent, compactMantissa, leadingThree, compactValue]
  · rw [compactExponent_pos positive, compactExponent_pos (truncated_pos positive), size_truncated]

theorem truncated_of_short (short : compactExponent number ≤ 3) : truncated number = number := by
  rw [truncated_eq, Nat.sub_eq_zero_of_le short]
  simp

theorem compactMantissa_truncated (number : ℕ) :
    compactMantissa (truncated number) = compactMantissa number := by
  rw [compactMantissa, compactExponent_truncated, compactMantissa]
  by_cases short : compactExponent number ≤ 3
  · rw [truncated_of_short short]
  · rw [leadingThree, leadingThree, if_neg short, if_neg short, truncated_eq,
      Nat.mul_div_cancel _ (Nat.two_pow_pos _)]

theorem truncated_mono (order : number ≤ other) : truncated number ≤ truncated other := by
  rcases Nat.eq_zero_or_pos number with rfl | positive
  · exact (truncated_le 0).trans (Nat.zero_le _)
  have exponents : compactExponent number ≤ compactExponent other := by
    rw [compactExponent_pos positive, compactExponent_pos (positive.trans_le order)]
    have := Nat.size_le_size order
    omega
  rcases Nat.lt_or_eq_of_le exponents with less | same
  · -- The greater number reaches a power of two that the smaller one does not.
    rw [compactExponent_pos positive, compactExponent_pos (positive.trans_le order)] at less
    have below : number < 2 ^ (8 * (other.size / 8) - 1) := Nat.size_le.mp (by omega)
    have above : 2 ^ (8 * (other.size / 8) - 1) ≤ truncated other := by
      refine two_pow_le_truncated ?_ (Nat.lt_size.mp (by omega))
      rw [compactExponent_pos (positive.trans_le order)]
      omega
    exact (truncated_le number).trans (below.le.trans above)
  · rw [truncated_eq, truncated_eq, same]
    exact Nat.mul_le_mul_right _ (Nat.div_le_div_right order)

end Lycancoin.Data
