import Mathlib.Data.Nat.Digits.Defs
import Mathlib.Data.Nat.ModEq
import Mathlib.Data.Nat.Size
import Mathlib.Tactic.Ring
import Mathlib.Tactic.Linarith

namespace Lycancoin.Data

/-! Rows of digits, the lowest first, and the carries of adding them up. -/

variable {base count width place i j : ℕ} {digit other : ℕ → ℕ}

/-- The number that the first `count` digits denote. -/
def digitsValue (base : ℕ) (digit : ℕ → ℕ) (count : ℕ) : ℕ :=
  Nat.ofDigits base ((List.range count).map digit)

@[simp] theorem digitsValue_zero (base : ℕ) (digit : ℕ → ℕ) : digitsValue base digit 0 = 0 := rfl

theorem digitsValue_succ (base : ℕ) (digit : ℕ → ℕ) (count : ℕ) :
    digitsValue base digit (count + 1) =
      digitsValue base digit count + base ^ count * digit count := by
  simp [digitsValue, List.range_succ, Nat.ofDigits_append]

theorem digitsValue_lt (large : 1 < base) (small : ∀ i, i < count → digit i < base) :
    digitsValue base digit count < base ^ count := by
  have bound := Nat.ofDigits_lt_base_pow_length large (l := (List.range count).map digit) (by
    intro d member
    obtain ⟨i, inside, rfl⟩ := List.mem_map.mp member
    exact small i (List.mem_range.mp inside))
  simpa [digitsValue] using bound

theorem digitsValue_congr (same : ∀ i, i < count → digit i = other i) :
    digitsValue base digit count = digitsValue base other count := by
  unfold digitsValue
  congr 1
  exact List.map_congr_left fun i member => same i (List.mem_range.mp member)

theorem digitsValue_eq_zero_iff (positive : 0 < base) :
    digitsValue base digit count = 0 ↔ ∀ i, i < count → digit i = 0 := by
  induction count with
  | zero => simp
  | succ count ih =>
      have weight : base ^ count ≠ 0 := (Nat.pow_pos positive).ne'
      rw [digitsValue_succ, Nat.add_eq_zero_iff, ih, Nat.mul_eq_zero]
      constructor
      · intro ⟨below, here⟩ i inside
        rcases Nat.lt_succ_iff_lt_or_eq.mp inside with inside | rfl
        · exact below i inside
        · exact here.resolve_left weight
      · intro all
        exact ⟨fun i inside => all i (by omega), .inr (all count (Nat.lt_succ_self count))⟩

theorem digitsValue_split (base : ℕ) (digit : ℕ → ℕ) (low high : ℕ) :
    digitsValue base digit (low + high) =
      digitsValue base digit low + base ^ low * digitsValue base (fun i => digit (low + i)) high := by
  induction high with
  | zero => simp
  | succ high ih =>
      rw [← Nat.add_assoc, digitsValue_succ, ih, digitsValue_succ, pow_add]
      ring

theorem digitsValue_add (base : ℕ) (digit other : ℕ → ℕ) (count : ℕ) :
    digitsValue base (fun i => digit i + other i) count =
      digitsValue base digit count + digitsValue base other count := by
  induction count with
  | zero => rfl
  | succ count ih =>
      rw [digitsValue_succ, digitsValue_succ, digitsValue_succ, ih]
      ring

theorem digitsValue_mul (base factor : ℕ) (digit : ℕ → ℕ) (count : ℕ) :
    digitsValue base (fun i => factor * digit i) count =
      factor * digitsValue base digit count := by
  induction count with
  | zero => rfl
  | succ count ih =>
      rw [digitsValue_succ, digitsValue_succ, ih]
      ring

/-- Digits that are all the highest make the number before a power of the base. -/
theorem digitsValue_highest (base count : ℕ) (positive : 0 < base) :
    digitsValue base (fun _ => base - 1) count + 1 = base ^ count := by
  induction count with
  | zero => rfl
  | succ count ih =>
      have step : base ^ count * (base - 1) + base ^ count = base ^ (count + 1) := by
        rw [← Nat.mul_succ, Nat.succ_eq_add_one, Nat.sub_add_cancel positive, pow_succ]
      rw [digitsValue_succ]
      omega

theorem digitsValue_update (inside : place < count) (same : ∀ i, i ≠ place → digit i = other i) :
    digitsValue base digit count + base ^ place * other place =
      digitsValue base other count + base ^ place * digit place := by
  induction count with
  | zero => omega
  | succ count ih =>
      rw [digitsValue_succ, digitsValue_succ]
      rcases Nat.lt_succ_iff_lt_or_eq.mp inside with below | rfl
      · have known := ih below
        rw [same count (by omega)]
        omega
      · have below : digitsValue base digit place = digitsValue base other place :=
          digitsValue_congr fun i inside => same i (by omega)
        omega

theorem digitsValue_modEq (fits : count ≤ width) :
    digitsValue base digit width ≡ digitsValue base digit count [MOD base ^ count] := by
  obtain ⟨high, rfl⟩ := Nat.exists_eq_add_of_le fits
  rw [digitsValue_split]
  exact (Nat.modEq_iff_dvd' (Nat.le_add_right _ _)).mpr (by simp) |>.symm

/-- The highest digit that differs decides the order. -/
theorem digitsValue_lt_of_top (large : 1 < base) (small : ∀ i, i < count → digit i < base)
    (inside : place < count) (above : ∀ i, place < i → i < count → digit i = other i)
    (less : digit place < other place) :
    digitsValue base digit count < digitsValue base other count := by
  induction count with
  | zero => omega
  | succ count ih =>
      rw [digitsValue_succ, digitsValue_succ]
      rcases Nat.lt_succ_iff_lt_or_eq.mp inside with below | rfl
      · have known := ih (fun i inside => small i (by omega)) below
          (fun i higher inside => above i higher (by omega))
        rw [above count below (by omega)]
        omega
      · have low := digitsValue_lt large fun i (inside : i < place) => small i (by omega)
        have step : base ^ place * (digit place + 1) ≤ base ^ place * other place :=
          Nat.mul_le_mul_left _ less
        rw [Nat.mul_succ] at step
        omega

theorem testBit_digitsValue {bits : ℕ} (positive : 0 < bits)
    (small : ∀ i, i < count → digit i < 2 ^ bits) (position : ℕ) :
    (digitsValue (2 ^ bits) digit count).testBit position =
      (decide (position / bits < count) && (digit (position / bits)).testBit (position % bits)) := by
  induction count with
  | zero => simp
  | succ count ih =>
      have low := digitsValue_lt (Nat.one_lt_two_pow (by omega)) fun i (inside : i < count) =>
        small i (by omega)
      rw [← pow_mul] at low
      rw [digitsValue_succ, ← pow_mul, Nat.add_comm, Nat.testBit_two_pow_mul_add _ low]
      have split := Nat.div_add_mod position bits
      have part := Nat.mod_lt position positive
      rcases Nat.lt_trichotomy (position / bits) count with below | here | above
      · have inside : position < bits * count := (Nat.div_lt_iff_lt_mul positive).mp below |>.trans_eq
          (Nat.mul_comm _ _)
        rw [if_pos inside, ih fun i inside => small i (by omega)]
        simp [below, Nat.lt_succ_of_lt below]
      · have outside : ¬ position < bits * count := by
          rw [← here]
          omega
        rw [if_neg outside, ← here, show position - bits * (position / bits) = position % bits by omega]
        simp
      · have outside : bits * count + bits ≤ position := by
          have := Nat.mul_le_mul_left bits (show count + 1 ≤ position / bits from above)
          rw [Nat.mul_succ] at this
          omega
        rw [if_neg (by omega), Nat.testBit_lt_two_pow
          ((small count (by omega)).trans_le (Nat.pow_le_pow_right (by omega) (by omega)))]
        simp [show ¬ position / bits < count + 1 by omega]

theorem size_eq_of_bounds {number bits : ℕ} (lower : 2 ^ bits ≤ number)
    (upper : number < 2 ^ (bits + 1)) : number.size = bits + 1 :=
  Nat.le_antisymm (Nat.size_le.mpr upper) (Nat.lt_size.mpr lower)

/-- The highest bit of a number that is put together is in its upper part. -/
theorem size_add_two_pow_mul {low high bits : ℕ} (small : low < 2 ^ bits) (positive : 0 < high) :
    (low + 2 ^ bits * high).size = bits + high.size := by
  obtain ⟨top, known⟩ : ∃ top, high.size = top + 1 :=
    Nat.exists_eq_add_one_of_ne_zero (Nat.size_pos.mpr positive).ne'
  have lower : 2 ^ top ≤ high := Nat.lt_size.mp (by omega)
  have upper : high + 1 ≤ 2 ^ (top + 1) := Nat.size_le.mp known.le
  rw [known, ← Nat.add_assoc]
  apply size_eq_of_bounds
  · rw [pow_add]
    exact (Nat.mul_le_mul_left _ lower).trans (Nat.le_add_left _ _)
  · rw [Nat.add_assoc, pow_add]
    have := Nat.mul_le_mul_left (2 ^ bits) upper
    rw [Nat.mul_succ] at this
    omega

/-- What is carried into a place when the terms below it are brought to digits. -/
def carryAt (base : ℕ) (term : ℕ → ℕ) : ℕ → ℕ
  | 0 => 0
  | i + 1 => (carryAt base term i + term i) / base

/-- The digit that stays at a place. -/
def carried (base : ℕ) (term : ℕ → ℕ) (i : ℕ) : ℕ := (carryAt base term i + term i) % base

variable {term : ℕ → ℕ}

/-- A term that leaves room for a carry passes on no more than a digit. -/
theorem carryAt_lt (positive : 0 < base) (small : ∀ i, i < count → term i ≤ base * (base - 1)) :
    carryAt base term count < base := by
  induction count with
  | zero => exact positive
  | succ count ih =>
      have before := ih fun i inside => small i (by omega)
      have room := small count (by omega)
      rw [carryAt, Nat.div_lt_iff_lt_mul positive]
      have step : base * (base - 1) + base = base * base := by
        rw [← Nat.mul_succ, Nat.succ_eq_add_one, Nat.sub_add_cancel positive]
      omega

theorem digitsValue_carried (base : ℕ) (term : ℕ → ℕ) (count : ℕ) :
    digitsValue base (carried base term) count + base ^ count * carryAt base term count =
      digitsValue base term count := by
  induction count with
  | zero => simp [carryAt]
  | succ count ih =>
      have split := Nat.mod_add_div (carryAt base term count + term count) base
      rw [digitsValue_succ, digitsValue_succ, ← ih, carryAt, carried, pow_succ]
      calc
        _ = digitsValue base (carried base term) count + base ^ count *
              ((carryAt base term count + term count) % base +
                base * ((carryAt base term count + term count) / base)) := by ring
        _ = _ := by
          rw [split]
          ring

/-- What is left in the row is the sum of the terms, without the last carry. -/
theorem digitsValue_carried_modEq (base : Nat) (term : Nat → Nat) (count : Nat) :
    digitsValue base (carried base term) count ≡ digitsValue base term count [MOD base ^ count] := by
  rw [← digitsValue_carried base term count]
  exact (Nat.modEq_iff_dvd' (Nat.le_add_right _ _)).mpr (by simp)

end Lycancoin.Data
