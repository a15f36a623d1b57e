import Mathlib.Data.Set.Function
import Lycancoin.Data.CompactForm
import Lycancoin.Primitives.RoundTrip
import Lycancoin.Script.StackSafety

namespace Lycancoin.CScriptNum

open Lycancoin.Data

variable {vch other front : Valtype} {back : UInt8} {value : Int}

theorem littleEndian_eq (vch : Valtype) : littleEndian vch = Lycancoin.littleEndian vch := by
  induction vch with
  | nil => rfl
  | cons byte vch ih => rw [littleEndian, Lycancoin.littleEndian, ih]

theorem littleEndian_inj (length : vch.length = other.length)
    (same : littleEndian vch = littleEndian other) : vch = other := by
  rw [← serWriteData_littleEndian vch, ← serWriteData_littleEndian other, length,
    ← littleEndian_eq, ← littleEndian_eq, same]

theorem littleEndian_append (front rest : Valtype) :
    littleEndian (front ++ rest) = littleEndian front + 256 ^ front.length * littleEndian rest := by
  induction front with
  | nil => simp [littleEndian]
  | cons byte front ih =>
      simp only [List.cons_append, littleEndian, ih, List.length_cons, pow_succ]
      ring

theorem littleEndian_concat (front : Valtype) (back : UInt8) :
    littleEndian (front ++ [back]) = littleEndian front + 256 ^ front.length * back.toNat := by
  simp [littleEndian_append, littleEndian]

theorem two_pow_eight_mul (length : Nat) : 2 ^ (8 * length) = 256 ^ length := by
  rw [pow_mul]
  norm_num

theorem two_pow_sign (length : Nat) : 2 ^ (8 * (length + 1) - 1) = 128 * 256 ^ length := by
  rw [show 8 * (length + 1) - 1 = 7 + 8 * length by omega, pow_add, two_pow_eight_mul]
  norm_num

theorem signBit_spec (back : UInt8) :
    (back &&& 0x80 = 0 ↔ back.toNat < 128) ∧ (back &&& 0x7f).toNat = back.toNat % 128 ∧
      (back.toNat < 128 → (back ||| 0x80).toNat = back.toNat + 128) := by
  have all : ∀ n < 256, (UInt8.ofNat n &&& 0x80 = 0 ↔ n < 128) ∧
      (UInt8.ofNat n &&& 0x7f).toNat = n % 128 ∧
      (n < 128 → (UInt8.ofNat n ||| 0x80).toNat = n + 128) := by decide +kernel
  simpa using all back.toNat back.toNat_lt

/-- The string has the number's sign in its top bit and the magnitude below it. -/
def Encodes (vch : Valtype) (value : Int) : Prop :=
  HoldsSigned (8 * vch.length) (littleEndian vch) value

theorem setVch_eq (vch : Valtype) :
    setVch vch = signedValue (8 * vch.length) (littleEndian vch) := by
  obtain rfl | ⟨front, back, rfl⟩ := List.eq_nil_or_concat' vch
  · rfl
  · have bound := littleEndian_lt front
    have concat := littleEndian_concat front back
    have positive : 0 < 256 ^ front.length := by positivity
    have size : (front ++ [back]).length = front.length + 1 := by simp
    rw [setVch, List.getLast?_concat, signedValue, size, two_pow_sign]
    have taken : back &&& 0x80 ≠ 0 ↔
        128 * 256 ^ front.length ≤ littleEndian (front ++ [back]) := by
      rw [ne_eq, (signBit_spec back).1, concat, not_lt]
      constructor
      · intro large
        have := Nat.mul_le_mul_left (256 ^ front.length) large
        omega
      · intro large
        by_contra small
        have := Nat.mul_le_mul_left (256 ^ front.length) (Nat.succ_le_of_lt (not_le.1 small))
        rw [Nat.mul_succ] at this
        nlinarith
    simp only [taken]
    have power : (2 : Int) ^ (8 * (front.length + 1) - 1) = 128 * 256 ^ front.length := by
      exact_mod_cast two_pow_sign front.length
    rw [power, Nat.add_sub_cancel]

theorem encodes_iff : Encodes vch value ↔ setVch vch = value := by
  rw [setVch_eq]
  apply holdsSigned_iff
  rw [two_pow_eight_mul]
  exact littleEndian_lt vch

theorem natAbs_setVch_concat (front : Valtype) (back : UInt8) :
    (setVch (front ++ [back])).natAbs =
      littleEndian front + 256 ^ front.length * (back.toNat % 128) := by
  have held : Encodes (front ++ [back]) (setVch (front ++ [back])) := encodes_iff.2 rfl
  have bound := littleEndian_lt front
  have byte := back.toNat_lt
  obtain ⟨small, held⟩ := held
  simp only [List.length_append, List.length_singleton, two_pow_sign, littleEndian_concat]
    at small held
  have split : 256 ^ front.length * back.toNat =
      256 ^ front.length * (back.toNat % 128) +
        128 * 256 ^ front.length * (back.toNat / 128) := by
    conv_lhs => rw [← Nat.mod_add_div back.toNat 128]
    ring
  have half : back.toNat / 128 = 0 ∨ back.toNat / 128 = 1 := by omega
  have low : littleEndian front + 256 ^ front.length * (back.toNat % 128) <
      128 * 256 ^ front.length := by
    have digit : back.toNat % 128 + 1 ≤ 128 := Nat.mod_lt _ (by decide)
    have := Nat.mul_le_mul_left (256 ^ front.length) digit
    rw [Nat.mul_succ] at this
    nlinarith
  rcases half with half | half <;> rw [half] at split <;> omega

/-- The test of the constructor finds the strings that one byte less would do for. -/
theorem nonMinimal_iff :
    nonMinimal vch = true ↔
      vch ≠ [] ∧ (setVch vch).natAbs < 2 ^ (8 * (vch.length - 1) - 1) := by
  obtain rfl | ⟨front, back, rfl⟩ := List.eq_nil_or_concat' vch
  · simp [nonMinimal]
  have low : back &&& 0x7f = 0 ↔ back.toNat % 128 = 0 := by
    rw [← (signBit_spec back).2.1, ← UInt8.toNat_inj]
    rfl
  rw [natAbs_setVch_concat]
  obtain rfl | ⟨front, previous, rfl⟩ := List.eq_nil_or_concat' front
  · simp [nonMinimal, littleEndian, low]
  have bound := littleEndian_lt front
  have positive : 0 < 256 ^ front.length := by positivity
  simp only [nonMinimal, List.reverse_append, List.reverse_singleton, List.singleton_append,
    List.length_append, List.length_singleton, Nat.add_sub_cancel, two_pow_sign,
    littleEndian_concat, Bool.and_eq_true, beq_iff_eq, low, (signBit_spec previous).1]
  constructor
  · rintro ⟨zero, small⟩
    have := Nat.mul_le_mul_left (256 ^ front.length) (Nat.succ_le_of_lt small)
    rw [Nat.mul_succ] at this
    refine ⟨by simp, ?_⟩
    rw [zero]
    nlinarith
  · rintro ⟨-, small⟩
    have zero : back.toNat % 128 = 0 := by
      by_contra nonzero
      have := Nat.mul_le_mul_left (256 ^ (front.length + 1)) (Nat.pos_of_ne_zero nonzero)
      rw [pow_succ] at this small
      nlinarith
    refine ⟨zero, ?_⟩
    by_contra large
    have := Nat.mul_le_mul_left (256 ^ front.length) (not_lt.1 large)
    rw [zero, Nat.mul_zero] at small
    omega

/-- A string with no byte to spare is shorter than all others of its number. -/
theorem Encodes.shortest (encodes : Encodes vch value) (minimal : nonMinimal vch = false)
    (encodes' : Encodes other value) : other = vch ∨ vch.length < other.length := by
  by_cases empty : vch = []
  · subst empty
    cases other with
    | nil => exact .inl rfl
    | cons byte other => exact .inr (Nat.succ_pos _)
  have tight : 2 ^ (8 * (vch.length - 1) - 1) ≤ value.natAbs := by
    rw [← encodes_iff.1 encodes]
    by_contra loose
    exact Bool.false_ne_true (minimal.symm.trans (nonMinimal_iff.2 ⟨empty, not_le.1 loose⟩))
  have nonempty := List.length_pos_iff.2 empty
  have below : 2 ^ (8 * (vch.length - 1) - 1) < 2 ^ (8 * other.length - 1) :=
    lt_of_le_of_lt tight encodes'.1
  have longer := (Nat.pow_lt_pow_iff_right (by decide)).1 below
  by_cases same : other.length = vch.length
  · left
    apply littleEndian_inj same
    unfold Encodes at encodes encodes'
    rw [same] at encodes'
    apply encodes'.unique encodes
    rintro rfl
    simp at tight
  · right
    omega

theorem littleEndian_absBytes {passes value : Nat} (fits : value < 256 ^ passes) :
    littleEndian (absBytes passes value) = value := by
  induction passes generalizing value with
  | zero =>
      have zero : value = 0 := by simpa using fits
      simp [absBytes, littleEndian, zero]
  | succ passes ih =>
      rw [absBytes]
      split
      · next zero => simp [littleEndian, zero]
      · have high : value / 256 < 256 ^ passes := by
          apply Nat.div_lt_of_lt_mul
          rwa [pow_succ, Nat.mul_comm] at fits
        rw [littleEndian, ih high, UInt8.toNat_ofNat']
        omega

theorem absBytes_back {passes value : Nat} (fits : value < 256 ^ passes)
    (split : absBytes passes value = front ++ [back]) : back.toNat ≠ 0 := by
  induction passes generalizing value front with
  | zero => simp [absBytes] at split
  | succ passes ih =>
      rw [absBytes] at split
      split at split
      · simp at split
      · next nonzero =>
        have high : value / 256 < 256 ^ passes := by
          apply Nat.div_lt_of_lt_mul
          rwa [pow_succ, Nat.mul_comm] at fits
        cases front with
        | cons byte front => exact ih high (List.cons.inj split).2
        | nil =>
            obtain ⟨rfl, rest⟩ := List.cons.inj split
            have whole := littleEndian_absBytes high
            rw [rest, littleEndian] at whole
            rw [UInt8.toNat_ofNat']
            omega

theorem Encodes.minimal (encodes : Encodes vch value)
    (tight : 2 ^ (8 * (vch.length - 1) - 1) ≤ value.natAbs) : nonMinimal vch = false := by
  rw [← Bool.not_eq_true, nonMinimal_iff, encodes_iff.1 encodes]
  rintro ⟨-, loose⟩
  omega

theorem serialize_spec (above : int64Min < value) (below : value ≤ int64Max) :
    ∃ vch, serialize value = .ok vch ∧ Encodes vch value ∧ nonMinimal vch = false := by
  by_cases zero : value = 0
  · subst zero
    exact ⟨[], rfl, encodes_iff.2 rfl, rfl⟩
  have fits : value.natAbs < 256 ^ 8 := by
    unfold int64Min int64Max at *
    omega
  have whole := littleEndian_absBytes fits
  obtain empty | ⟨front, back, split⟩ := List.eq_nil_or_concat' (absBytes 8 value.natAbs)
  · rw [empty] at whole
    exact absurd (Int.natAbs_eq_zero.1 whole.symm) zero
  have nonzero := absBytes_back fits split
  have bound := littleEndian_lt front
  have byte := back.toNat_lt
  have positive : 0 < 256 ^ front.length := by positivity
  rw [split, littleEndian_concat] at whole
  have last : (front ++ [back]).getLastD 0 = back := by simp
  rw [serialize, if_neg zero, if_neg (ne_of_gt above)]
  simp only [split, last]
  by_cases free : back &&& 0x80 = 0
  · -- the sign finds room in the last byte
    have room := (signBit_spec back).1.1 free
    have small : value.natAbs < 128 * 256 ^ front.length := by
      have := Nat.mul_le_mul_left (256 ^ front.length) (Nat.succ_le_of_lt room)
      rw [Nat.mul_succ] at this
      omega
    have tight : 2 ^ (8 * (front.length + 1 - 1) - 1) ≤ value.natAbs := by
      have one := Nat.mul_le_mul_left (256 ^ front.length) (Nat.pos_of_ne_zero nonzero)
      have less : 2 ^ (8 * front.length - 1) ≤ 256 ^ front.length := by
        rw [← two_pow_eight_mul]
        exact Nat.pow_le_pow_right (by decide) (Nat.sub_le _ _)
      rw [Nat.add_sub_cancel]
      omega
    simp only [free, ne_eq, not_true_eq_false, if_false]
    by_cases negative : value < 0
    · have encodes : Encodes (front ++ [back ||| 0x80]) value := by
        refine ⟨?_, .inr ⟨?_, by omega⟩⟩
        · simpa [two_pow_sign] using small
        · rw [littleEndian_concat, (signBit_spec back).2.2 room, List.length_append,
            List.length_singleton, two_pow_sign]
          rw [Nat.mul_add]
          omega
      refine ⟨_, if_pos negative, ?_⟩
      rw [List.dropLast_concat]
      exact ⟨encodes, encodes.minimal (by simpa using tight)⟩
    · have encodes : Encodes (front ++ [back]) value := by
        refine ⟨?_, .inl ⟨?_, by omega⟩⟩
        · simpa [two_pow_sign] using small
        · rw [littleEndian_concat, whole]
      exact ⟨_, if_neg negative, encodes, encodes.minimal (by simpa using tight)⟩
  · -- the sign needs a byte of its own
    have large := not_lt.1 ((signBit_spec back).1.not.1 free)
    have small : value.natAbs < 256 ^ (front.length + 1) := by
      have := Nat.mul_le_mul_left (256 ^ front.length) (Nat.succ_le_of_lt byte)
      rw [Nat.mul_succ] at this
      rw [pow_succ]
      omega
    have tight : 2 ^ (8 * (front.length + 1) - 1) ≤ value.natAbs := by
      have := Nat.mul_le_mul_left (256 ^ front.length) large
      rw [two_pow_sign]
      omega
    have encodes : Encodes (front ++ [back] ++ [if value < 0 then 0x80 else 0]) value := by
      have size : (front ++ [back] ++ [if value < 0 then 0x80 else (0 : UInt8)]).length =
          front.length + 1 + 1 := by simp
      unfold Encodes HoldsSigned
      rw [size, two_pow_sign, littleEndian_concat, littleEndian_concat, whole]
      refine ⟨by omega, ?_⟩
      by_cases negative : value < 0
      · right
        simp only [if_pos negative, List.length_append, List.length_singleton]
        exact ⟨by rw [Nat.mul_comm (256 ^ _)]; rfl, by omega⟩
      · left
        simp only [if_neg negative]
        exact ⟨by simp, by omega⟩
    refine ⟨_, if_pos free, encodes, encodes.minimal ?_⟩
    simpa using tight

theorem ofVch_true_iff :
    (∃ value, ofVch vch true = .ok value) ↔ vch.length ≤ nMaxNumSize ∧ nonMinimal vch = false := by
  unfold ofVch
  by_cases long : vch.length > nMaxNumSize
  · simp [long]
  · cases nonMinimal vch <;> simp [long, not_lt.1 long]

theorem natAbs_setVch_lt (vch : Valtype) : (setVch vch).natAbs < 2 ^ (8 * vch.length - 1) :=
  (encodes_iff.2 rfl : Encodes vch (setVch vch)).1

theorem setVch_inInt64 (short : vch.length ≤ nMaxNumSize) :
    int64Min < setVch vch ∧ setVch vch ≤ int64Max := by
  have bounds := setVch_bounds short
  unfold int64Min int64Max
  omega

/-- The constructor takes the strings that `serialize` gives back. -/
theorem ofVch_iff_serialize (short : vch.length ≤ nMaxNumSize) :
    (∃ value, ofVch vch true = .ok value) ↔ serialize (setVch vch) = .ok vch := by
  obtain ⟨above, below⟩ := setVch_inInt64 short
  obtain ⟨bytes, serialized, encodes, minimal⟩ := serialize_spec above below
  have held : Encodes vch (setVch vch) := encodes_iff.2 rfl
  rw [ofVch_true_iff, serialized, Except.ok.injEq]
  constructor
  · rintro ⟨-, minimal'⟩
    rcases encodes.shortest minimal held with same | longer
    · exact same.symm
    · rcases held.shortest minimal' encodes with same | longer'
      · exact same
      · omega
  · rintro rfl
    exact ⟨short, minimal⟩

def smallNumbers : Set Int := {value | value.natAbs < 2 ^ (8 * nMaxNumSize - 1)}

theorem setVch_bijOn :
    Set.BijOn setVch {vch | ∃ value, ofVch vch true = .ok value} smallNumbers := by
  refine ⟨?_, ?_, ?_⟩
  · intro vch accepted
    obtain ⟨short, -⟩ := ofVch_true_iff.1 accepted
    apply lt_of_lt_of_le (natAbs_setVch_lt vch)
    exact Nat.pow_le_pow_right (by decide) (by omega)
  · intro vch accepted other accepted' same
    rw [Set.mem_ofPred_eq, ofVch_iff_serialize (ofVch_true_iff.1 accepted).1] at accepted
    rw [Set.mem_ofPred_eq, ofVch_iff_serialize (ofVch_true_iff.1 accepted').1, ← same,
      accepted] at accepted'
    exact Except.ok.inj accepted'
  · intro value small
    have bound : value.natAbs < 2 ^ 31 := small
    obtain ⟨vch, -, encodes, minimal⟩ :=
      @serialize_spec value (by unfold int64Min; omega) (by unfold int64Max; omega)
    have decoded := encodes_iff.1 encodes
    refine ⟨vch, ofVch_true_iff.2 ⟨?_, minimal⟩, decoded⟩
    by_contra long
    have longer : 2 ^ 31 ≤ 2 ^ (8 * (vch.length - 1) - 1) :=
      Nat.pow_le_pow_right (by decide) (by unfold nMaxNumSize at long; omega)
    have loose : nonMinimal vch = true := by
      rw [nonMinimal_iff, decoded]
      refine ⟨?_, by omega⟩
      rintro rfl
      simp at long
    exact Bool.false_ne_true (minimal.symm.trans loose)

theorem getint_eq (value : Int) : getint value = max intMin (min intMax value) := by
  unfold getint intMin intMax
  split
  · omega
  · split <;> omega

/-- The encoder gives the one shortest string of a number, the decoder gives the number back, and
the test of the constructor finds just these strings. -/
theorem serialize_exact :
    (∀ value, int64Min < value → value ≤ int64Max →
      ∃ vch, serialize value = .ok vch ∧ setVch vch = value ∧ (value = 0 → vch = []) ∧
        Encodes vch value ∧
        ∀ other, Encodes other value → other = vch ∨ vch.length < other.length) ∧
    (∀ vch : Valtype, vch.length ≤ nMaxNumSize →
      ((∃ value, ofVch vch true = .ok value) ↔ serialize (setVch vch) = .ok vch)) ∧
    Set.BijOn setVch {vch | ∃ value, ofVch vch true = .ok value} smallNumbers ∧
    ∀ value, getint value = max intMin (min intMax value) := by
  refine ⟨?_, fun vch short => ofVch_iff_serialize short, setVch_bijOn, getint_eq⟩
  intro value above below
  obtain ⟨vch, serialized, encodes, minimal⟩ := serialize_spec above below
  refine ⟨vch, serialized, encodes_iff.1 encodes, ?_, encodes, ?_⟩
  · rintro rfl
    exact (Except.ok.inj serialized).symm
  · intro other encodes'
    exact encodes.shortest minimal encodes'

end Lycancoin.CScriptNum
