import Lycancoin.Data.Digits
import Mathlib.Data.Nat.Bitwise
import Mathlib.Tactic.SplitIfs

namespace Lycancoin

open Data

/-- `base_uint<BITS>`, whose limbs `pn` stand with the lowest first. -/
structure BaseUint (WIDTH : Nat) where
  pn : Vector UInt32 WIDTH
deriving DecidableEq, Repr

namespace BaseUint

variable {WIDTH : Nat} {a b : BaseUint WIDTH} {i j n : Nat}

/-- `pn[i]`. -/
def limb (a : BaseUint WIDTH) (i : Nat) : UInt32 := a.pn[i]?.getD 0

/-- `pn[i] = word`. -/
def setLimb (a : BaseUint WIDTH) (i : Nat) (word : UInt32) : BaseUint WIDTH :=
  ⟨a.pn.setIfInBounds i word⟩

/-- `pn[i] |= word`. -/
def orLimb (a : BaseUint WIDTH) (i : Nat) (word : UInt32) : BaseUint WIDTH :=
  a.setLimb i (a.limb i ||| word)

/-- `base_uint()`. -/
def zero (WIDTH : Nat) : BaseUint WIDTH := ⟨Vector.replicate WIDTH 0⟩

/-- `base_uint(uint64_t b)`. -/
def ofUInt64 (WIDTH : Nat) (b : UInt64) : BaseUint WIDTH :=
  ((zero WIDTH).setLimb 0 b.toUInt32).setLimb 1 (b >>> 32).toUInt32

def getLow64 (a : BaseUint WIDTH) : UInt64 := (a.limb 0).toUInt64 ||| (a.limb 1).toUInt64 <<< 32

/-- One round of the loop in `operator<<=`. -/
def shiftLeftStep (a : BaseUint WIDTH) (k shift i : Nat) (pn : BaseUint WIDTH) : BaseUint WIDTH :=
  let pn :=
    if i + k + 1 < WIDTH ∧ shift ≠ 0 then
      pn.orLimb (i + k + 1) (a.limb i >>> UInt32.ofNat (32 - shift))
    else pn
  if i + k < WIDTH then pn.orLimb (i + k) (a.limb i <<< UInt32.ofNat shift) else pn

/-- `operator<<=(unsigned int shift)`. -/
def shiftLeft (a : BaseUint WIDTH) (shift : Nat) : BaseUint WIDTH :=
  Nat.fold WIDTH (fun i _ pn => a.shiftLeftStep (shift / 32) (shift % 32) i pn) (zero WIDTH)

/-- One round of the loop in `operator>>=`. -/
def shiftRightStep (a : BaseUint WIDTH) (k shift i : Nat) (pn : BaseUint WIDTH) : BaseUint WIDTH :=
  let pn :=
    if k + 1 ≤ i ∧ shift ≠ 0 then
      pn.orLimb (i - k - 1) (a.limb i <<< UInt32.ofNat (32 - shift))
    else pn
  if k ≤ i then pn.orLimb (i - k) (a.limb i >>> UInt32.ofNat shift) else pn

/-- `operator>>=(unsigned int shift)`. -/
def shiftRight (a : BaseUint WIDTH) (shift : Nat) : BaseUint WIDTH :=
  Nat.fold WIDTH (fun i _ pn => a.shiftRightStep (shift / 32) (shift % 32) i pn) (zero WIDTH)

/-- `CompareTo`, for the limbs below `i`. -/
def compareBelow (a b : BaseUint WIDTH) : Nat → Int
  | 0 => 0
  | i + 1 =>
      if a.limb i < b.limb i then -1
      else if b.limb i < a.limb i then 1
      else compareBelow a b i

def compareTo (a b : BaseUint WIDTH) : Int := compareBelow a b WIDTH

/-- `EqualTo(uint64_t b)`. -/
def equalTo (a : BaseUint WIDTH) (b : UInt64) : Bool :=
  if (List.range WIDTH).any fun i => decide (2 ≤ i) && a.limb i != 0 then false
  else if (a.limb 1).toUInt64 != b >>> 32 then false
  else (a.limb 0).toUInt64 == b &&& 0xffffffff

/-- The inner loop of `bits()`, for the bits of one limb up to `bits`. -/
def limbBits (word : UInt32) : Nat → Nat
  | 0 => 1
  | bits + 1 =>
      if word &&& (1 <<< UInt32.ofNat (bits + 1)) ≠ 0 then bits + 1 + 1 else limbBits word bits

/-- `bits()`, for the limbs below `pos`. -/
def bitsBelow (a : BaseUint WIDTH) : Nat → Nat
  | 0 => 0
  | pos + 1 => if a.limb pos ≠ 0 then 32 * pos + limbBits (a.limb pos) 31 else bitsBelow a pos

def bits (a : BaseUint WIDTH) : Nat := bitsBelow a WIDTH

def digit (a : BaseUint WIDTH) (i : Nat) : Nat := (a.limb i).toNat

/-- The number that the limbs denote. -/
def toNat (a : BaseUint WIDTH) : Nat := digitsValue (2 ^ 32) a.digit WIDTH

theorem limb_setLimb (a : BaseUint WIDTH) (i j : Nat) (word : UInt32) :
    (a.setLimb i word).limb j = if j = i ∧ i < WIDTH then word else a.limb j := by
  simp only [limb, setLimb, Vector.getElem?_setIfInBounds]
  by_cases same : i = j
  · subst same
    by_cases inside : i < WIDTH
    · simp [inside]
    · simp [inside]
  · simp [same, Ne.symm same]

theorem limb_orLimb (a : BaseUint WIDTH) (i j : Nat) (word : UInt32) :
    (a.orLimb i word).limb j = if j = i ∧ i < WIDTH then a.limb j ||| word else a.limb j := by
  rw [orLimb, limb_setLimb]
  by_cases here : j = i ∧ i < WIDTH
  · rw [if_pos here, if_pos here, here.1]
  · rw [if_neg here, if_neg here]

@[simp] theorem limb_zero (WIDTH i : Nat) : (zero WIDTH).limb i = 0 := by
  simp only [limb, zero, Vector.getElem?_replicate]
  split <;> rfl

theorem limb_outside (a : BaseUint WIDTH) (outside : WIDTH ≤ i) : a.limb i = 0 := by
  rw [limb, Vector.getElem?_eq_none outside]
  rfl

theorem digit_lt (a : BaseUint WIDTH) (i : Nat) : a.digit i < 2 ^ 32 := (a.limb i).toNat_lt

theorem digit_setLimb (a : BaseUint WIDTH) (i j : Nat) (word : UInt32) :
    (a.setLimb i word).digit j = if j = i ∧ i < WIDTH then word.toNat else a.digit j := by
  rw [digit, limb_setLimb, apply_ite UInt32.toNat]
  rfl

theorem toNat_lt (a : BaseUint WIDTH) : a.toNat < 2 ^ (32 * WIDTH) := by
  rw [pow_mul]
  exact digitsValue_lt (by decide) fun i _ => a.digit_lt i

theorem testBit_toNat (a : BaseUint WIDTH) (position : Nat) :
    a.toNat.testBit position = (a.limb (position / 32)).toNat.testBit (position % 32) := by
  rw [toNat, testBit_digitsValue (by decide) fun i _ => a.digit_lt i]
  by_cases inside : position / 32 < WIDTH
  · simp [inside, digit]
  · simp [inside, limb_outside a (Nat.le_of_not_lt inside)]

@[simp] theorem toNat_zero (WIDTH : Nat) : (zero WIDTH).toNat = 0 := by
  apply Nat.eq_of_testBit_eq
  intro position
  simp [testBit_toNat]

theorem toNat_setLimb (a : BaseUint WIDTH) (inside : i < WIDTH) (word : UInt32) :
    (a.setLimb i word).toNat + (2 ^ 32) ^ i * a.digit i =
      a.toNat + (2 ^ 32) ^ i * word.toNat := by
  have same (j : Nat) (other : j ≠ i) : (a.setLimb i word).digit j = a.digit j := by
    rw [digit_setLimb, if_neg fun both => other both.1]
  have changed := @digitsValue_update (2 ^ 32) WIDTH i _ _ inside same
  rwa [digit_setLimb, if_pos ⟨rfl, inside⟩] at changed

theorem limb_shiftLeftStep (a pn : BaseUint WIDTH) (k shift i : Nat) (inside : j < WIDTH) :
    (a.shiftLeftStep k shift i pn).limb j =
      if j = i + k then pn.limb j ||| a.limb i <<< UInt32.ofNat shift
      else if j = i + k + 1 ∧ shift ≠ 0 then pn.limb j ||| a.limb i >>> UInt32.ofNat (32 - shift)
      else pn.limb j := by
  have upper : (if i + k + 1 < WIDTH ∧ shift ≠ 0 then
        pn.orLimb (i + k + 1) (a.limb i >>> UInt32.ofNat (32 - shift)) else pn).limb j =
      if j = i + k + 1 ∧ shift ≠ 0 then pn.limb j ||| a.limb i >>> UInt32.ofNat (32 - shift)
      else pn.limb j := by
    by_cases written : i + k + 1 < WIDTH ∧ shift ≠ 0
    · rw [if_pos written, limb_orLimb]
      simp [written.1, written.2]
    · rw [if_neg written, if_neg (by omega)]
  rw [shiftLeftStep]
  by_cases lower : i + k < WIDTH
  · rw [if_pos lower, limb_orLimb, upper]
    by_cases here : j = i + k
    · rw [if_pos ⟨here, lower⟩, if_pos here, if_neg (by omega)]
    · rw [if_neg fun both => here both.1, if_neg here]
  · rw [if_neg lower, upper, if_neg (by omega : j ≠ i + k)]

/-- Limb `j` after `n` rounds of `operator<<=`: what is moved up within a limb, and
what is carried over from the limb below. -/
theorem limb_shiftLeft_fold (a : BaseUint WIDTH) (k shift n : Nat) (inside : j < WIDTH) :
    (Nat.fold n (fun i _ pn => a.shiftLeftStep k shift i pn) (zero WIDTH)).limb j =
      (if k ≤ j ∧ j < n + k then a.limb (j - k) <<< UInt32.ofNat shift else 0) |||
      (if k + 1 ≤ j ∧ j < n + k + 1 ∧ shift ≠ 0 then
        a.limb (j - k - 1) >>> UInt32.ofNat (32 - shift) else 0) := by
  induction n with
  | zero =>
      rw [if_neg (by omega), if_neg (by omega)]
      simp
  | succ n ih =>
      rw [Nat.fold_succ, limb_shiftLeftStep _ _ _ _ _ inside, ih]
      by_cases here : j = n + k
      · rw [if_pos here, if_neg (by omega : ¬ (k ≤ j ∧ j < n + k)),
          if_pos (by omega : k ≤ j ∧ j < n + 1 + k), show j - k = n by omega, UInt32.zero_or,
          UInt32.or_comm]
        congr 1
        exact if_congr (by omega) rfl rfl
      · rw [if_neg here]
        by_cases next : j = n + k + 1 ∧ shift ≠ 0
        · rw [if_pos next, if_neg (by omega : ¬ (k ≤ j ∧ j < n + k)),
            if_neg (by omega : ¬ (k + 1 ≤ j ∧ j < n + k + 1 ∧ shift ≠ 0)),
            if_neg (by omega : ¬ (k ≤ j ∧ j < n + 1 + k)),
            if_pos (by omega : k + 1 ≤ j ∧ j < n + 1 + k + 1 ∧ shift ≠ 0),
            show j - k - 1 = n by omega, UInt32.zero_or]
        · rw [if_neg next]
          congr 1
          · exact if_congr (by omega) rfl rfl
          · exact if_congr (by omega) rfl rfl

theorem testBit_limb_shiftLeft (word : UInt32) {shift bit : Nat} (small : shift < 32)
    (inside : bit < 32) :
    (word <<< UInt32.ofNat shift).toNat.testBit bit =
      (decide (shift ≤ bit) && word.toNat.testBit (bit - shift)) := by
  rw [UInt32.toNat_shiftLeft, UInt32.toNat_ofNat', Nat.mod_eq_of_lt (by omega : shift < 2 ^ 32),
    Nat.mod_eq_of_lt small, Nat.testBit_mod_two_pow, Nat.testBit_shiftLeft]
  simp [inside]

theorem testBit_limb_shiftRight (word : UInt32) {shift : Nat} (small : shift < 32) (bit : Nat) :
    (word >>> UInt32.ofNat shift).toNat.testBit bit = word.toNat.testBit (shift + bit) := by
  rw [UInt32.toNat_shiftRight, UInt32.toNat_ofNat', Nat.mod_eq_of_lt (by omega : shift < 2 ^ 32),
    Nat.mod_eq_of_lt small, Nat.testBit_shiftRight]

/-- `operator<<=` multiplies by a power of two and drops what does not fit. -/
theorem toNat_shiftLeft (a : BaseUint WIDTH) (shift : Nat) :
    (a.shiftLeft shift).toNat = a.toNat * 2 ^ shift % 2 ^ (32 * WIDTH) := by
  apply Nat.eq_of_testBit_eq
  intro position
  rw [testBit_toNat, Nat.testBit_mod_two_pow, Nat.testBit_mul_two_pow, testBit_toNat, shiftLeft]
  by_cases inside : position / 32 < WIDTH
  · have within : position < 32 * WIDTH := by omega
    rw [limb_shiftLeft_fold _ _ _ _ inside, UInt32.toNat_or, Nat.testBit_or]
    rcases Nat.lt_or_ge (position % 32) (shift % 32) with low | high
    · -- The bit comes from the limb below.
      have dropped : (if shift / 32 ≤ position / 32 ∧ position / 32 < WIDTH + shift / 32 then
          a.limb (position / 32 - shift / 32) <<< UInt32.ofNat (shift % 32) else 0).toNat.testBit
            (position % 32) = false := by
        split
        · rw [testBit_limb_shiftLeft _ (by omega) (by omega)]
          simp [show ¬ shift % 32 ≤ position % 32 by omega]
        · simp
      rw [dropped, Bool.false_or]
      by_cases reached : shift ≤ position
      · rw [if_pos (by omega), testBit_limb_shiftRight _ (by omega),
          show position / 32 - shift / 32 - 1 = (position - shift) / 32 by omega,
          show 32 - shift % 32 + position % 32 = (position - shift) % 32 by omega]
        simp [reached, within]
      · rw [if_neg (by omega)]
        simp [reached]
    · have dropped : (if shift / 32 + 1 ≤ position / 32 ∧ position / 32 < WIDTH + shift / 32 + 1 ∧
          shift % 32 ≠ 0 then a.limb (position / 32 - shift / 32 - 1) >>>
            UInt32.ofNat (32 - shift % 32) else 0).toNat.testBit (position % 32) = false := by
        split
        · rw [testBit_limb_shiftRight _ (by omega)]
          exact Nat.testBit_lt_two_pow ((UInt32.toNat_lt _).trans_le
            (Nat.pow_le_pow_right (by decide) (by omega)))
        · simp
      rw [dropped, Bool.or_false]
      by_cases reached : shift ≤ position
      · rw [if_pos (by omega), testBit_limb_shiftLeft _ (by omega) (by omega),
          show position / 32 - shift / 32 = (position - shift) / 32 by omega,
          show position % 32 - shift % 32 = (position - shift) % 32 by omega]
        simp [reached, within, high]
      · rw [if_neg (by omega)]
        simp [reached]
  · rw [limb_outside _ (Nat.le_of_not_lt inside)]
    simp [show ¬ position < 32 * WIDTH by omega]

theorem limb_shiftRightStep (a pn : BaseUint WIDTH) (k shift : Nat) (inside : j < WIDTH) :
    (a.shiftRightStep k shift i pn).limb j =
      if i = j + k then pn.limb j ||| a.limb i >>> UInt32.ofNat shift
      else if i = j + k + 1 ∧ shift ≠ 0 then pn.limb j ||| a.limb i <<< UInt32.ofNat (32 - shift)
      else pn.limb j := by
  have lower : (if k + 1 ≤ i ∧ shift ≠ 0 then
        pn.orLimb (i - k - 1) (a.limb i <<< UInt32.ofNat (32 - shift)) else pn).limb j =
      if i = j + k + 1 ∧ shift ≠ 0 then pn.limb j ||| a.limb i <<< UInt32.ofNat (32 - shift)
      else pn.limb j := by
    by_cases written : k + 1 ≤ i ∧ shift ≠ 0
    · rw [if_pos written, limb_orLimb]
      exact if_congr (by omega) rfl rfl
    · rw [if_neg written, if_neg (by omega)]
  rw [shiftRightStep]
  by_cases upper : k ≤ i
  · rw [if_pos upper, limb_orLimb, lower]
    by_cases here : i = j + k
    · rw [if_pos (by omega), if_pos here, if_neg (by omega)]
    · rw [if_neg (by omega), if_neg here]
  · rw [if_neg upper, lower, if_neg (by omega : i ≠ j + k)]

theorem limb_shiftRight_fold (a : BaseUint WIDTH) (k shift : Nat) (inside : j < WIDTH) :
    (Nat.fold n (fun i _ pn => a.shiftRightStep k shift i pn) (zero WIDTH)).limb j =
      (if j + k < n then a.limb (j + k) >>> UInt32.ofNat shift else 0) |||
      (if j + k + 1 < n ∧ shift ≠ 0 then a.limb (j + k + 1) <<< UInt32.ofNat (32 - shift)
        else 0) := by
  induction n with
  | zero => simp
  | succ n ih =>
      rw [Nat.fold_succ, limb_shiftRightStep _ _ _ _ inside, ih]
      by_cases here : n = j + k
      · rw [if_pos here, if_neg (by omega : ¬ j + k < n), if_neg (by omega : ¬ (j + k + 1 < n ∧ _)),
          if_pos (by omega : j + k < n + 1), if_neg (by omega : ¬ (j + k + 1 < n + 1 ∧ _)), here]
        simp
      · rw [if_neg here]
        by_cases next : n = j + k + 1 ∧ shift ≠ 0
        · rw [if_pos next, if_neg (by omega : ¬ (j + k + 1 < n ∧ shift ≠ 0)),
            if_pos (by omega : j + k + 1 < n + 1 ∧ shift ≠ 0), next.1, UInt32.or_zero]
          congr 1
          exact if_congr (by omega) rfl rfl
        · rw [if_neg next]
          congr 1
          · exact if_congr (by omega) rfl rfl
          · exact if_congr (by omega) rfl rfl

/-- A limb is 0 outside the row, so the bound of the loop makes no difference. -/
theorem limb_shiftRight (a : BaseUint WIDTH) (shift : Nat) (inside : j < WIDTH) :
    (a.shiftRight shift).limb j =
      a.limb (j + shift / 32) >>> UInt32.ofNat (shift % 32) |||
      if shift % 32 ≠ 0 then
        a.limb (j + shift / 32 + 1) <<< UInt32.ofNat (32 - shift % 32) else 0 := by
  rw [shiftRight, limb_shiftRight_fold _ _ _ inside]
  congr 1
  · by_cases within : j + shift / 32 < WIDTH
    · rw [if_pos within]
    · rw [if_neg within, limb_outside a (Nat.le_of_not_lt within), UInt32.zero_shiftRight]
  · by_cases within : j + shift / 32 + 1 < WIDTH
    · exact if_congr (by simp [within]) rfl rfl
    · rw [if_neg (by omega), limb_outside a (Nat.le_of_not_lt within), UInt32.zero_shiftLeft,
        ite_self]

/-- `operator>>=` divides by a power of two. -/
theorem toNat_shiftRight (a : BaseUint WIDTH) (shift : Nat) :
    (a.shiftRight shift).toNat = a.toNat / 2 ^ shift := by
  apply Nat.eq_of_testBit_eq
  intro position
  rw [testBit_toNat, Nat.testBit_div_two_pow, testBit_toNat]
  by_cases inside : position / 32 < WIDTH
  · rw [limb_shiftRight _ _ inside, UInt32.toNat_or, Nat.testBit_or,
      testBit_limb_shiftRight _ (by omega)]
    rcases Nat.lt_or_ge (shift % 32 + position % 32) 32 with low | high
    · have dropped : (if shift % 32 ≠ 0 then
          a.limb (position / 32 + shift / 32 + 1) <<< UInt32.ofNat (32 - shift % 32)
          else 0).toNat.testBit (position % 32) = false := by
        split
        · rw [testBit_limb_shiftLeft _ (by omega) (by omega)]
          simp [show ¬ 32 - shift % 32 ≤ position % 32 by omega]
        · simp
      rw [dropped, Bool.or_false, show (position + shift) / 32 = position / 32 + shift / 32 by omega,
        show (position + shift) % 32 = shift % 32 + position % 32 by omega]
    · -- The bit comes from the limb above.
      rw [Nat.testBit_lt_two_pow ((UInt32.toNat_lt _).trans_le
          (Nat.pow_le_pow_right (by decide) high)), Bool.false_or, if_pos (by omega),
        testBit_limb_shiftLeft _ (by omega) (by omega),
        show (position + shift) / 32 = position / 32 + shift / 32 + 1 by omega,
        show (position + shift) % 32 = position % 32 - (32 - shift % 32) by omega]
      simp [show 32 - shift % 32 ≤ position % 32 by omega]
  · rw [limb_outside _ (Nat.le_of_not_lt inside), limb_outside a (by omega)]
    simp

theorem compareBelow_spec (a b : BaseUint WIDTH) (n : Nat) :
    (compareBelow a b n = -1 ∧
      digitsValue (2 ^ 32) a.digit n < digitsValue (2 ^ 32) b.digit n) ∨
    (compareBelow a b n = 0 ∧
      digitsValue (2 ^ 32) a.digit n = digitsValue (2 ^ 32) b.digit n) ∨
    (compareBelow a b n = 1 ∧
      digitsValue (2 ^ 32) b.digit n < digitsValue (2 ^ 32) a.digit n) := by
  induction n with
  | zero => exact .inr (.inl ⟨rfl, rfl⟩)
  | succ n ih =>
      have top (low high : BaseUint WIDTH) (less : low.digit n < high.digit n) :
          digitsValue (2 ^ 32) low.digit (n + 1) < digitsValue (2 ^ 32) high.digit (n + 1) :=
        digitsValue_lt_of_top (by decide) (fun i _ => low.digit_lt i) (Nat.lt_succ_self n)
          (fun i above inside => by omega) less
      rw [compareBelow]
      by_cases less : a.limb n < b.limb n
      · rw [if_pos less]
        exact .inl ⟨rfl, top a b (UInt32.lt_iff_toNat_lt.mp less)⟩
      · rw [if_neg less]
        by_cases greater : b.limb n < a.limb n
        · rw [if_pos greater]
          exact .inr (.inr ⟨rfl, top b a (UInt32.lt_iff_toNat_lt.mp greater)⟩)
        · have same : a.digit n = b.digit n := by
            rw [UInt32.lt_iff_toNat_lt] at less greater
            exact Nat.le_antisymm (Nat.le_of_not_lt greater) (Nat.le_of_not_lt less)
          rw [if_neg greater, digitsValue_succ, digitsValue_succ, same]
          simpa using ih

/-- `CompareTo` gives the order of the numbers. -/
theorem compareTo_spec (a b : BaseUint WIDTH) :
    (compareTo a b < 0 ↔ a.toNat < b.toNat) ∧ (compareTo a b = 0 ↔ a.toNat = b.toNat) ∧
      (0 < compareTo a b ↔ b.toNat < a.toNat) := by
  have known := compareBelow_spec a b WIDTH
  unfold compareTo toNat
  omega

/-- The two lowest limbs, and what the others are worth. -/
theorem toNat_split (a : BaseUint WIDTH) (wide : 2 ≤ WIDTH) :
    a.toNat = a.digit 0 + 2 ^ 32 * a.digit 1 +
      2 ^ 64 * digitsValue (2 ^ 32) (fun i => a.digit (2 + i)) (WIDTH - 2) := by
  have parts := digitsValue_split (2 ^ 32) a.digit 2 (WIDTH - 2)
  rw [Nat.add_sub_cancel' wide, digitsValue_succ, digitsValue_succ, digitsValue_zero] at parts
  rw [toNat, parts, ← pow_mul]
  omega

theorem digit_eq_zero_iff (a : BaseUint WIDTH) (i : Nat) : a.digit i = 0 ↔ a.limb i = 0 := by
  rw [digit, ← UInt32.toNat_inj]
  rfl

theorem equalTo_iff (a : BaseUint WIDTH) (wide : 2 ≤ WIDTH) (b : UInt64) :
    equalTo a b = true ↔ a.toNat = b.toNat := by
  have upper : digitsValue (2 ^ 32) (fun i => a.digit (2 + i)) (WIDTH - 2) = 0 ↔
      ∀ i, 2 ≤ i → i < WIDTH → a.limb i = 0 := by
    rw [digitsValue_eq_zero_iff (by decide)]
    constructor
    · intro zero i above inside
      have := zero (i - 2) (by omega)
      rwa [Nat.add_sub_cancel' above, digit_eq_zero_iff] at this
    · intro zero i inside
      rw [digit_eq_zero_iff]
      exact zero (2 + i) (by omega) (by omega)
  have small := b.toNat_lt
  have lower0 := a.digit_lt 0
  have lower1 := a.digit_lt 1
  have high : (a.limb 1).toUInt64 = b >>> 32 ↔ a.digit 1 = b.toNat / 2 ^ 32 := by
    rw [← UInt64.toNat_inj, UInt64.toNat_shiftRight, Nat.shiftRight_eq_div_pow]
    rfl
  have low : (a.limb 0).toUInt64 = b &&& 0xffffffff ↔ a.digit 0 = b.toNat % 2 ^ 32 := by
    rw [← UInt64.toNat_inj, UInt64.toNat_and]
    exact iff_of_eq (congrArg _ (Nat.and_two_pow_sub_one_eq_mod b.toNat 32))
  rw [toNat_split a wide, equalTo]
  by_cases above : ∀ i, 2 ≤ i → i < WIDTH → a.limb i = 0
  · rw [if_neg (by simpa using fun i inside above' => above i above' inside), upper.mpr above]
    by_cases second : a.digit 1 = b.toNat / 2 ^ 32
    · rw [if_neg (by simpa using high.mpr second), beq_iff_eq, low]
      omega
    · rw [if_pos (by simpa using fun same => second (high.mp same))]
      simp only [Bool.false_eq_true, false_iff]
      omega
  · have rest : 0 < digitsValue (2 ^ 32) (fun i => a.digit (2 + i)) (WIDTH - 2) :=
      Nat.pos_of_ne_zero fun zero => above (upper.mp zero)
    push Not at above
    obtain ⟨i, large, inside, set⟩ := above
    rw [if_pos (by simpa using ⟨i, inside, large, set⟩)]
    simp only [Bool.false_eq_true, false_iff]
    omega

theorem toNat_bit {bit : Nat} (inside : bit < 32) :
    ((1 : UInt32) <<< UInt32.ofNat bit).toNat = 2 ^ bit := by
  rw [UInt32.toNat_shiftLeft, UInt32.toNat_ofNat', Nat.mod_eq_of_lt (by omega : bit < 2 ^ 32),
    Nat.mod_eq_of_lt inside, UInt32.toNat_one, Nat.one_shiftLeft,
    Nat.mod_eq_of_lt (Nat.pow_lt_pow_right (by decide) inside)]

theorem and_bit_ne_zero_iff (word : UInt32) {bit : Nat} (inside : bit < 32) :
    word &&& (1 <<< UInt32.ofNat bit) ≠ 0 ↔ word.toNat.testBit bit = true := by
  rw [Ne, ← UInt32.toNat_inj, UInt32.toNat_and, toNat_bit inside, UInt32.toNat_zero,
    Nat.and_two_pow]
  cases word.toNat.testBit bit <;> simp

/-- The inner loop of `bits()` finds the highest bit of a limb. -/
theorem limbBits_spec {word : UInt32} {bits : Nat} (inside : bits < 32)
    (positive : 0 < word.toNat) (bound : word.toNat < 2 ^ (bits + 1)) :
    limbBits word bits = word.toNat.size := by
  induction bits with
  | zero =>
      rw [@size_eq_of_bounds _ 0 positive bound]
      rfl
  | succ bits ih =>
      rw [limbBits]
      by_cases set : word.toNat.testBit (bits + 1) = true
      · rw [if_pos ((and_bit_ne_zero_iff word inside).mpr set),
          size_eq_of_bounds (Nat.ge_two_pow_of_testBit set) bound]
      · rw [if_neg fun found => set ((and_bit_ne_zero_iff word inside).mp found)]
        apply ih (by omega)
        exact Nat.lt_of_not_le fun large =>
          set (Nat.testBit_of_two_pow_le_and_two_pow_add_one_gt large bound)

theorem bits_eq_size (a : BaseUint WIDTH) : a.bits = a.toNat.size := by
  suffices below : ∀ n, bitsBelow a n = (digitsValue (2 ^ 32) a.digit n).size from below WIDTH
  intro n
  induction n with
  | zero => rfl
  | succ n ih =>
      rw [bitsBelow, digitsValue_succ, ← pow_mul]
      by_cases empty : a.limb n = 0
      · rw [if_neg (not_not.mpr empty), ih, (digit_eq_zero_iff a n).mpr empty]
        rfl
      · have low := @digitsValue_lt (2 ^ 32) n a.digit (by decide) fun i _ => a.digit_lt i
        have positive : 0 < a.digit n :=
          Nat.pos_of_ne_zero fun zero => empty ((digit_eq_zero_iff a n).mp zero)
        rw [if_pos empty, size_add_two_pow_mul (by rwa [pow_mul]) positive,
          limbBits_spec (by decide) positive (a.limb n).toNat_lt]
        rfl

theorem digit_ofUInt64 (wide : 2 ≤ WIDTH) (b : UInt64) (i : Nat) :
    (ofUInt64 WIDTH b).digit i =
      if i = 0 then b.toNat % 2 ^ 32 else if i = 1 then b.toNat / 2 ^ 32 else 0 := by
  have small := b.toNat_lt
  rw [ofUInt64, digit_setLimb, digit_setLimb]
  by_cases second : i = 1
  · rw [if_pos ⟨second, wide⟩, if_neg (by omega), if_pos second, UInt64.toNat_toUInt32,
      UInt64.toNat_shiftRight, Nat.shiftRight_eq_div_pow]
    exact Nat.mod_eq_of_lt (by simp; omega)
  · rw [if_neg fun both => second both.1, if_neg second, digit, limb_zero]
    exact if_congr (and_iff_left (by omega)) (UInt64.toNat_toUInt32 b) rfl

@[simp] theorem toNat_ofUInt64 (wide : 2 ≤ WIDTH) (b : UInt64) :
    (ofUInt64 WIDTH b).toNat = b.toNat := by
  have upper : digitsValue (2 ^ 32) (fun i => (ofUInt64 WIDTH b).digit (2 + i)) (WIDTH - 2) = 0 := by
    rw [digitsValue_eq_zero_iff (by decide)]
    intro i _
    rw [digit_ofUInt64 wide, if_neg (by omega), if_neg (by omega)]
  rw [toNat_split _ wide, upper, digit_ofUInt64 wide, digit_ofUInt64 wide]
  simp only [if_true, one_ne_zero, if_false]
  omega

theorem toNat_getLow64 (a : BaseUint WIDTH) (wide : 2 ≤ WIDTH) :
    a.getLow64.toNat = a.toNat % 2 ^ 64 := by
  have lower0 := a.digit_lt 0
  have lower1 := a.digit_lt 1
  have joined : a.getLow64.toNat = a.digit 0 + 2 ^ 32 * a.digit 1 := by
    rw [getLow64, UInt64.toNat_or, UInt64.toNat_shiftLeft, Nat.shiftLeft_eq, Nat.add_comm,
      Nat.two_pow_add_eq_or_of_lt lower0, Nat.or_comm]
    congr 1
    exact (Nat.mod_eq_of_lt (by simp [digit] at *; omega)).trans (Nat.mul_comm _ _)
  rw [joined, toNat_split a wide]
  omega

end BaseUint

end Lycancoin
