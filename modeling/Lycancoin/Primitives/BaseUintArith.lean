import Lycancoin.Primitives.BaseUint

namespace Lycancoin

open Data

namespace BaseUint

variable {WIDTH : Nat} {a b : BaseUint WIDTH} {i j n : Nat}

structure Carrying (WIDTH : Nat) where
  pn : BaseUint WIDTH
  carry : UInt64

/-- `pn[i] = n & 0xffffffff; carry = n >> 32;`. -/
def emit (pn : BaseUint WIDTH) (i : Nat) (n : UInt64) : Carrying WIDTH :=
  { pn := pn.setLimb i (n &&& 0xffffffff).toUInt32, carry := n >>> 32 }

/-- One round of the loop in `operator+=(const base_uint& b)`. -/
def addStep (b : BaseUint WIDTH) (i : Nat) (state : Carrying WIDTH) : Carrying WIDTH :=
  emit state.pn i (state.carry + (state.pn.limb i).toUInt64 + (b.limb i).toUInt64)

/-- The first rounds of the loop in `operator+=(const base_uint& b)`. -/
def addRun (a b : BaseUint WIDTH) (rounds : Nat) : Carrying WIDTH :=
  Nat.fold rounds (fun i _ state => addStep b i state) { pn := a, carry := 0 }

/-- `operator+=(const base_uint& b)`. -/
def add (a b : BaseUint WIDTH) : BaseUint WIDTH := (addRun a b WIDTH).pn

/-- One round of the loop in `operator*=(uint32_t b32)`. -/
def mulWordStep (b32 : UInt32) (i : Nat) (state : Carrying WIDTH) : Carrying WIDTH :=
  emit state.pn i (state.carry + b32.toUInt64 * (state.pn.limb i).toUInt64)

/-- The first rounds of the loop in `operator*=(uint32_t b32)`. -/
def mulWordRun (a : BaseUint WIDTH) (b32 : UInt32) (rounds : Nat) : Carrying WIDTH :=
  Nat.fold rounds (fun i _ state => mulWordStep b32 i state) { pn := a, carry := 0 }

/-- `operator*=(uint32_t b32)`. -/
def mulWord (a : BaseUint WIDTH) (b32 : UInt32) : BaseUint WIDTH := (mulWordRun a b32 WIDTH).pn

/-- One round of the inner loop in `operator*=(const base_uint& b)`. -/
def mulStep (a b : BaseUint WIDTH) (j i : Nat) (state : Carrying WIDTH) : Carrying WIDTH :=
  emit state.pn (i + j) (state.carry + (state.pn.limb (i + j)).toUInt64 +
    (a.limb j).toUInt64 * (b.limb i).toUInt64)

/-- The first rounds of the inner loop in `operator*=(const base_uint& b)`. -/
def mulRow (a b : BaseUint WIDTH) (j : Nat) (pn : BaseUint WIDTH) (rounds : Nat) : Carrying WIDTH :=
  Nat.fold rounds (fun i _ state => mulStep a b j i state) { pn, carry := 0 }

/-- The first rounds of the outer loop in `operator*=(const base_uint& b)`. -/
def mulRun (a b : BaseUint WIDTH) (rounds : Nat) : BaseUint WIDTH :=
  Nat.fold rounds (fun j _ pn => (mulRow a b j pn (WIDTH - j)).pn) (zero WIDTH)

/-- `operator*=(const base_uint& b)`. -/
def mul (a b : BaseUint WIDTH) : BaseUint WIDTH := mulRun a b WIDTH

/-- `operator~()`. -/
def complement (a : BaseUint WIDTH) : BaseUint WIDTH := ⟨a.pn.map (~~~ ·)⟩

/-- The loop of `operator++()` from limb `i` on, with `rest` limbs above it. -/
def incrementFrom (pn : BaseUint WIDTH) (i : Nat) : Nat → BaseUint WIDTH
  | 0 => pn.setLimb i (pn.limb i + 1)
  | rest + 1 =>
      let pn := pn.setLimb i (pn.limb i + 1)
      if pn.limb i = 0 then incrementFrom pn (i + 1) rest else pn

/-- `operator++()`. -/
def increment (a : BaseUint WIDTH) : BaseUint WIDTH := incrementFrom a 0 (WIDTH - 1)

/-- `operator-()`. -/
def neg (a : BaseUint WIDTH) : BaseUint WIDTH := increment (complement a)

/-- `operator-=(const base_uint& b)`. -/
def sub (a b : BaseUint WIDTH) : BaseUint WIDTH := add a (neg b)

/-- The variables of the loop in `operator/=`. -/
structure Dividing (WIDTH : Nat) where
  num : BaseUint WIDTH
  div : BaseUint WIDTH
  pn : BaseUint WIDTH

/-- One round of the loop in `operator/=`. -/
def divStep (shift : Nat) (state : Dividing WIDTH) : Dividing WIDTH :=
  let state :=
    if 0 ≤ compareTo state.num state.div then
      { state with
        num := sub state.num state.div
        pn := state.pn.orLimb (shift / 32) (1 <<< UInt32.ofNat (shift &&& 31)) }
    else state
  { state with div := state.div.shiftRight 1 }

/-- The loop in `operator/=`, with the rounds for the shifts below `shifts` ahead. -/
def divLoop : Nat → Dividing WIDTH → Dividing WIDTH
  | 0, state => state
  | shift + 1, state => divLoop shift (divStep shift state)

/-- `operator/=(const base_uint& b)`.  There is no result when it throws
"Division by zero". -/
def div (a b : BaseUint WIDTH) : Option (BaseUint WIDTH) :=
  if b.bits = 0 then none
  else if b.bits > a.bits then some (zero WIDTH)
  else
    let shift := a.bits - b.bits
    some (divLoop (shift + 1) { num := a, div := b.shiftLeft shift, pn := zero WIDTH }).pn

theorem emit_digit (pn : BaseUint WIDTH) (i j : Nat) (n : UInt64) :
    (emit pn i n).pn.digit j = if j = i ∧ i < WIDTH then n.toNat % 2 ^ 32 else pn.digit j := by
  have low : (n &&& 0xffffffff).toUInt32.toNat = n.toNat % 2 ^ 32 := by
    rw [UInt64.toNat_toUInt32, UInt64.toNat_and]
    have masked : n.toNat &&& (0xffffffff : UInt64).toNat = n.toNat % 2 ^ 32 :=
      Nat.and_two_pow_sub_one_eq_mod n.toNat 32
    rw [masked, Nat.mod_mod]
  rw [emit, digit_setLimb, low]

theorem emit_carry (pn : BaseUint WIDTH) (i : Nat) (n : UInt64) :
    (emit pn i n).carry.toNat = n.toNat / 2 ^ 32 := by
  rw [emit, UInt64.toNat_shiftRight, Nat.shiftRight_eq_div_pow]
  rfl

/-- A loop that brings terms to digits from limb `offset` on: after some rounds the
carry and the digits written are those of the terms, and the limbs that are still to be
written are the old ones. -/
theorem carry_run (step : Nat → Carrying WIDTH → Carrying WIDTH) {term : Nat → Nat}
    (offset : Nat) (start : BaseUint WIDTH) (small : ∀ i, term i ≤ 2 ^ 32 * (2 ^ 32 - 1))
    (emits : ∀ i state, i + offset < WIDTH → state.carry.toNat < 2 ^ 32 →
      (∀ j, i + offset ≤ j → state.pn.digit j = start.digit j) →
      ∃ n : UInt64, step i state = emit state.pn (i + offset) n ∧
        n.toNat = state.carry.toNat + term i)
    {rounds : Nat} (inside : rounds + offset ≤ WIDTH) :
    (Nat.fold rounds (fun i _ state => step i state) { pn := start, carry := 0 }).carry.toNat =
        carryAt (2 ^ 32) term rounds ∧
      ∀ j, (Nat.fold rounds (fun i _ state => step i state) { pn := start, carry := 0 }).pn.digit j =
        if offset ≤ j ∧ j < rounds + offset then carried (2 ^ 32) term (j - offset)
        else start.digit j := by
  induction rounds with
  | zero =>
      refine ⟨rfl, fun j => ?_⟩
      rw [if_neg (by omega)]
      rfl
  | succ rounds ih =>
      obtain ⟨carry, digits⟩ := ih (by omega)
      rw [Nat.fold_succ]
      generalize Nat.fold rounds (fun i _ state => step i state)
        { pn := start, carry := 0 } = state at carry digits ⊢
      have bound : carryAt (2 ^ 32) term rounds < 2 ^ 32 :=
        carryAt_lt (by decide) fun i _ => small i
      obtain ⟨n, emitted, value⟩ := emits rounds state (by omega) (by omega) fun j above => by
        rw [digits, if_neg (by omega)]
      rw [carry] at value
      rw [emitted]
      constructor
      · rw [emit_carry, value]
        rfl
      · intro j
        rw [emit_digit, digits, value]
        by_cases here : j = rounds + offset
        · rw [if_pos ⟨here, by omega⟩, if_pos (by omega), here, Nat.add_sub_cancel]
          rfl
        · rw [if_neg fun both => here both.1]
          exact if_congr (by omega) rfl rfl

theorem word_mul_word_le (x y : UInt32) : x.toNat * y.toNat ≤ (2 ^ 32 - 1) * (2 ^ 32 - 1) :=
  Nat.mul_le_mul (Nat.le_sub_one_of_lt x.toNat_lt) (Nat.le_sub_one_of_lt y.toNat_lt)

theorem addRun_spec (a b : BaseUint WIDTH) {rounds : Nat} (inside : rounds ≤ WIDTH) :
    (addRun a b rounds).carry.toNat = carryAt (2 ^ 32) (fun i => a.digit i + b.digit i) rounds ∧
      ∀ j, (addRun a b rounds).pn.digit j =
        if j < rounds then carried (2 ^ 32) (fun i => a.digit i + b.digit i) j
        else a.digit j := by
  have small (i : Nat) : a.digit i + b.digit i ≤ 2 ^ 32 * (2 ^ 32 - 1) := by
    have := a.digit_lt i
    have := b.digit_lt i
    omega
  have run := carry_run (addStep b) 0 a small (by
    intro i state inside carry same
    refine ⟨_, rfl, ?_⟩
    have known : (state.pn.limb i).toNat = a.digit i := same i (Nat.le_refl i)
    have first := a.digit_lt i
    have second := b.digit_lt i
    simp only [digit] at known first second ⊢
    simp only [UInt64.toNat_add, UInt32.toNat_toUInt64, known]
    omega) inside
  simpa [addRun] using run

theorem mulWordRun_spec (a : BaseUint WIDTH) (b32 : UInt32) {rounds : Nat}
    (inside : rounds ≤ WIDTH) :
    (mulWordRun a b32 rounds).carry.toNat =
        carryAt (2 ^ 32) (fun i => b32.toNat * a.digit i) rounds ∧
      ∀ j, (mulWordRun a b32 rounds).pn.digit j =
        if j < rounds then carried (2 ^ 32) (fun i => b32.toNat * a.digit i) j
        else a.digit j := by
  have small (i : Nat) : b32.toNat * a.digit i ≤ 2 ^ 32 * (2 ^ 32 - 1) :=
    (word_mul_word_le b32 (a.limb i)).trans (by decide)
  have run := carry_run (mulWordStep b32) 0 a small (by
    intro i state inside carry same
    refine ⟨_, rfl, ?_⟩
    have known : (state.pn.limb i).toNat = a.digit i := same i (Nat.le_refl i)
    have product := word_mul_word_le b32 (a.limb i)
    simp only [digit] at known ⊢
    simp only [UInt64.toNat_add, UInt64.toNat_mul, UInt32.toNat_toUInt64, known]
    omega) inside
  simpa [mulWordRun] using run

theorem mulRow_spec (a b pn : BaseUint WIDTH) (j : Nat) {rounds : Nat}
    (inside : rounds + j ≤ WIDTH) :
    (mulRow a b j pn rounds).carry.toNat =
        carryAt (2 ^ 32) (fun i => pn.digit (j + i) + a.digit j * b.digit i) rounds ∧
      ∀ m, (mulRow a b j pn rounds).pn.digit m =
        if j ≤ m ∧ m < rounds + j then
          carried (2 ^ 32) (fun i => pn.digit (j + i) + a.digit j * b.digit i) (m - j)
        else pn.digit m := by
  have small (i : Nat) : pn.digit (j + i) + a.digit j * b.digit i ≤ 2 ^ 32 * (2 ^ 32 - 1) := by
    have := pn.digit_lt (j + i)
    have := word_mul_word_le (a.limb j) (b.limb i)
    simp only [digit] at *
    omega
  exact carry_run (mulStep a b j) j pn small (by
    intro i state inside carry same
    refine ⟨_, rfl, ?_⟩
    have known : (state.pn.limb (i + j)).toNat = pn.digit (j + i) := by
      rw [Nat.add_comm j i]
      exact same (i + j) (Nat.le_refl _)
    have first := pn.digit_lt (j + i)
    have product := word_mul_word_le (a.limb j) (b.limb i)
    simp only [digit] at known first ⊢
    simp only [UInt64.toNat_add, UInt64.toNat_mul, UInt32.toNat_toUInt64, known]
    omega) inside

theorem addRun_sum_lt (a b : BaseUint WIDTH) (inside : i < WIDTH) :
    (addRun a b i).carry.toNat + ((addRun a b i).pn.limb i).toNat + (b.limb i).toNat < 2 ^ 64 := by
  obtain ⟨carry, digits⟩ := addRun_spec a b (Nat.le_of_lt inside)
  have bound : carryAt (2 ^ 32) (fun i => a.digit i + b.digit i) i < 2 ^ 32 :=
    carryAt_lt (by decide) fun i _ => by
      have := a.digit_lt i
      have := b.digit_lt i
      omega
  have first := (addRun a b i).pn.digit_lt i
  have second := b.digit_lt i
  simp only [digit] at *
  omega

theorem mulWordRun_sum_lt (a : BaseUint WIDTH) (b32 : UInt32) (inside : i < WIDTH) :
    (mulWordRun a b32 i).carry.toNat + b32.toNat * ((mulWordRun a b32 i).pn.limb i).toNat <
      2 ^ 64 := by
  have carry := (mulWordRun_spec a b32 (Nat.le_of_lt inside)).1
  have bound : carryAt (2 ^ 32) (fun i => b32.toNat * a.digit i) i < 2 ^ 32 :=
    carryAt_lt (by decide) fun i _ => (word_mul_word_le b32 (a.limb i)).trans (by decide)
  have product := word_mul_word_le b32 ((mulWordRun a b32 i).pn.limb i)
  omega

theorem mulRow_sum_lt (a b pn : BaseUint WIDTH) (inside : i + j < WIDTH) :
    (mulRow a b j pn i).carry.toNat + ((mulRow a b j pn i).pn.limb (i + j)).toNat +
      (a.limb j).toNat * (b.limb i).toNat < 2 ^ 64 := by
  have carry := (mulRow_spec a b pn j (Nat.le_of_lt inside)).1
  have bound : carryAt (2 ^ 32) (fun i => pn.digit (j + i) + a.digit j * b.digit i) i < 2 ^ 32 :=
    carryAt_lt (by decide) fun i _ => by
      have := pn.digit_lt (j + i)
      have := word_mul_word_le (a.limb j) (b.limb i)
      simp only [digit] at *
      omega
  have first := (mulRow a b j pn i).pn.digit_lt (i + j)
  have product := word_mul_word_le (a.limb j) (b.limb i)
  simp only [digit] at *
  omega

theorem toNat_add (a b : BaseUint WIDTH) :
    (add a b).toNat = (a.toNat + b.toNat) % 2 ^ (32 * WIDTH) := by
  have digits : (add a b).toNat =
      digitsValue (2 ^ 32) (carried (2 ^ 32) fun i => a.digit i + b.digit i) WIDTH :=
    digitsValue_congr fun i inside => by
      rw [add, (addRun_spec a b (Nat.le_refl WIDTH)).2, if_pos inside]
  have sum := digitsValue_carried_modEq (2 ^ 32) (fun i => a.digit i + b.digit i) WIDTH
  rw [digitsValue_add, ← pow_mul, ← digits] at sum
  exact (Nat.mod_eq_of_lt (toNat_lt _)).symm.trans sum

theorem toNat_mulWord (a : BaseUint WIDTH) (b32 : UInt32) :
    (mulWord a b32).toNat = a.toNat * b32.toNat % 2 ^ (32 * WIDTH) := by
  have digits : (mulWord a b32).toNat =
      digitsValue (2 ^ 32) (carried (2 ^ 32) fun i => b32.toNat * a.digit i) WIDTH :=
    digitsValue_congr fun i inside => by
      rw [mulWord, (mulWordRun_spec a b32 (Nat.le_refl WIDTH)).2, if_pos inside]
  have product := digitsValue_carried_modEq (2 ^ 32) (fun i => b32.toNat * a.digit i) WIDTH
  rw [digitsValue_mul, ← pow_mul, ← digits, Nat.mul_comm b32.toNat] at product
  exact (Nat.mod_eq_of_lt (toNat_lt _)).symm.trans product

/-- A row adds a limb of `a` times `b`, at the limb's place. -/
theorem mulRow_modEq (a b pn : BaseUint WIDTH) {j : Nat} (inside : j ≤ WIDTH) :
    (mulRow a b j pn (WIDTH - j)).pn.toNat ≡
      pn.toNat + (2 ^ 32) ^ j * a.digit j * b.toNat [MOD (2 ^ 32) ^ WIDTH] := by
  obtain ⟨high, rfl⟩ := Nat.exists_eq_add_of_le inside
  have digits := (@mulRow_spec _ a b pn j high (by omega)).2
  rw [Nat.add_sub_cancel_left, toNat, digitsValue_split]
  have below : digitsValue (2 ^ 32) (mulRow a b j pn high).pn.digit j =
      digitsValue (2 ^ 32) pn.digit j :=
    digitsValue_congr fun i lower => by rw [digits, if_neg (by omega)]
  have written : digitsValue (2 ^ 32) (fun i => (mulRow a b j pn high).pn.digit (j + i)) high =
      digitsValue (2 ^ 32)
        (carried (2 ^ 32) fun i => pn.digit (j + i) + a.digit j * b.digit i) high :=
    digitsValue_congr fun i lower => by
      rw [digits, if_pos (by omega), Nat.add_sub_cancel_left]
  have sum := digitsValue_carried_modEq (2 ^ 32)
    (fun i => pn.digit (j + i) + a.digit j * b.digit i) high
  rw [digitsValue_add, digitsValue_mul, ← written] at sum
  have rest : digitsValue (2 ^ 32) b.digit high ≡ b.toNat [MOD (2 ^ 32) ^ high] :=
    (digitsValue_modEq (by omega)).symm
  rw [below, toNat, digitsValue_split, pow_add]
  calc
    _ ≡ digitsValue (2 ^ 32) pn.digit j + (2 ^ 32) ^ j *
          (digitsValue (2 ^ 32) (fun i => pn.digit (j + i)) high + a.digit j * b.toNat)
        [MOD (2 ^ 32) ^ j * (2 ^ 32) ^ high] :=
      Nat.ModEq.add_left _ ((sum.trans ((rest.mul_left _).add_left _)).mul_left' _)
    _ = _ := by ring

theorem mulRun_modEq (a b : BaseUint WIDTH) {rounds : Nat} (inside : rounds ≤ WIDTH) :
    (mulRun a b rounds).toNat ≡ digitsValue (2 ^ 32) a.digit rounds * b.toNat
      [MOD (2 ^ 32) ^ WIDTH] := by
  induction rounds with
  | zero =>
      rw [mulRun, Nat.fold_zero, toNat_zero, digitsValue_zero, Nat.zero_mul]
  | succ rounds ih =>
      rw [mulRun, Nat.fold_succ]
      change (mulRow a b rounds (mulRun a b rounds) (WIDTH - rounds)).pn.toNat ≡ _ [MOD _]
      rw [digitsValue_succ, Nat.add_mul]
      exact (mulRow_modEq a b _ (by omega)).trans ((ih (by omega)).add_right _)

theorem toNat_mul (a b : BaseUint WIDTH) :
    (mul a b).toNat = a.toNat * b.toNat % 2 ^ (32 * WIDTH) := by
  have product := mulRun_modEq a b (Nat.le_refl WIDTH)
  rw [← pow_mul] at product
  exact (Nat.mod_eq_of_lt (toNat_lt _)).symm.trans product

theorem digit_complement (a : BaseUint WIDTH) (inside : i < WIDTH) :
    (complement a).digit i + a.digit i = 2 ^ 32 - 1 := by
  have known : (complement a).limb i = ~~~a.limb i := by
    simp [complement, limb, inside]
  rw [digit, known, UInt32.toNat_not]
  have := a.digit_lt i
  simp only [digit, UInt32.size] at *
  omega

theorem toNat_complement (a : BaseUint WIDTH) :
    (complement a).toNat + a.toNat + 1 = 2 ^ (32 * WIDTH) := by
  rw [toNat, toNat, ← digitsValue_add, digitsValue_congr fun i inside => digit_complement a inside,
    digitsValue_highest _ _ (by decide), pow_mul]

/-- A limb is counted up, and is 0 afterwards when it has to carry. -/
theorem bump_spec (pn : BaseUint WIDTH) (inside : i < WIDTH) :
    ((pn.setLimb i (pn.limb i + 1)).limb i = 0 ∧
      (pn.setLimb i (pn.limb i + 1)).toNat + (2 ^ 32) ^ (i + 1) = pn.toNat + (2 ^ 32) ^ i) ∨
    ((pn.setLimb i (pn.limb i + 1)).limb i ≠ 0 ∧
      (pn.setLimb i (pn.limb i + 1)).toNat = pn.toNat + (2 ^ 32) ^ i) := by
  have changed := toNat_setLimb pn inside (pn.limb i + 1)
  have bound := pn.digit_lt i
  have value : (pn.limb i + 1).toNat = (pn.digit i + 1) % 2 ^ 32 := by
    rw [UInt32.toNat_add]
    rfl
  rw [limb_setLimb, if_pos ⟨rfl, inside⟩, ← UInt32.toNat_inj, value]
  rw [value] at changed
  by_cases full : pn.digit i + 1 = 2 ^ 32
  · left
    rw [full, Nat.mod_self, Nat.mul_zero, Nat.add_zero] at changed
    have carried : (2 ^ 32) ^ (i + 1) = (2 ^ 32) ^ i * pn.digit i + (2 ^ 32) ^ i := by
      rw [pow_succ, ← full, Nat.mul_succ]
    exact ⟨by rw [full]; rfl, by omega⟩
  · right
    rw [Nat.mod_eq_of_lt (by omega)] at changed value
    rw [Nat.mul_succ] at changed
    refine ⟨fun empty => ?_, by omega⟩
    rw [empty, UInt32.toNat_zero] at value
    omega

/-- The carry of `operator++()` runs through the limbs that are all ones. -/
theorem incrementFrom_modEq (pn : BaseUint WIDTH) (i rest : Nat) (row : i + rest + 1 = WIDTH) :
    (incrementFrom pn i rest).toNat ≡ pn.toNat + (2 ^ 32) ^ i [MOD (2 ^ 32) ^ WIDTH] := by
  induction rest generalizing pn i with
  | zero =>
      rw [incrementFrom]
      rcases bump_spec pn (by omega : i < WIDTH) with ⟨_, carry⟩ | ⟨_, done⟩
      · rw [← carry, show i + 1 = WIDTH by omega]
        exact (Nat.modEq_iff_dvd' (Nat.le_add_right _ _)).mpr (by simp)
      · rw [done]
  | succ rest ih =>
      rw [incrementFrom]
      rcases bump_spec pn (by omega : i < WIDTH) with ⟨zero, carry⟩ | ⟨stays, done⟩
      · rw [if_pos zero, ← carry]
        exact ih _ _ (by omega)
      · rw [if_neg stays, done]

theorem toNat_increment (a : BaseUint WIDTH) (positive : 0 < WIDTH) :
    (increment a).toNat = (a.toNat + 1) % 2 ^ (32 * WIDTH) := by
  have sum := incrementFrom_modEq a 0 (WIDTH - 1) (by omega)
  rw [← pow_mul, pow_zero] at sum
  exact (Nat.mod_eq_of_lt (toNat_lt _)).symm.trans sum

/-- `operator-=` is exact when nothing has to be borrowed. -/
theorem toNat_sub (a b : BaseUint WIDTH) (positive : 0 < WIDTH) (enough : b.toNat ≤ a.toNat) :
    (sub a b).toNat = a.toNat - b.toNat := by
  have whole := toNat_complement b
  have bound := a.toNat_lt
  rw [sub, toNat_add, neg, toNat_increment _ positive, Nat.add_mod_mod,
    show a.toNat + ((complement b).toNat + 1) = a.toNat - b.toNat + 2 ^ (32 * WIDTH) by omega,
    Nat.add_mod_right]
  exact Nat.mod_eq_of_lt (by omega)

/-- Setting a bit of a number that has none below it or at it. -/
theorem toNat_setBit (pn : BaseUint WIDTH) {shift : Nat} (inside : shift < 32 * WIDTH)
    (clear : 2 ^ (shift + 1) ∣ pn.toNat) :
    (pn.orLimb (shift / 32) (1 <<< UInt32.ofNat (shift &&& 31))).toNat = pn.toNat + 2 ^ shift := by
  obtain ⟨upper, known⟩ := clear
  rw [known, Nat.two_pow_add_eq_or_of_lt (Nat.pow_lt_pow_right (by decide) (Nat.lt_succ_self _)),
    ← known]
  apply Nat.eq_of_testBit_eq
  intro position
  have masked : shift &&& 31 = shift % 32 := Nat.and_two_pow_sub_one_eq_mod shift 5
  rw [testBit_toNat, limb_orLimb, Nat.testBit_or, testBit_toNat, Nat.testBit_two_pow, masked]
  by_cases here : position / 32 = shift / 32
  · rw [if_pos ⟨here, by omega⟩, UInt32.toNat_or, Nat.testBit_or, toNat_bit (by omega),
      Nat.testBit_two_pow]
    congr 1
    exact decide_eq_decide.mpr (by omega)
  · rw [if_neg fun both => here both.1]
    simp [show shift ≠ position from fun same => here (by rw [same])]

/-- What holds before the rounds for the shifts below `shifts`, when `A` is divided by
`B`: the divisor is aligned, and what is left of the number is less than one more shift
would make of it. -/
structure Aligned (A B shifts : Nat) (state : Dividing WIDTH) : Prop where
  divisor : ∀ shift, shifts = shift + 1 → state.div.toNat = B * 2 ^ shift
  parts : state.num.toNat + B * state.pn.toNat = A
  left : state.num.toNat < B * 2 ^ shifts
  clear : 2 ^ shifts ∣ state.pn.toNat

theorem Aligned.step {A B shift : Nat} {state : Dividing WIDTH}
    (aligned : Aligned A B (shift + 1) state) (inside : shift < 32 * WIDTH) :
    Aligned A B shift (divStep shift state) := by
  have positive : 0 < WIDTH := by omega
  have divisor := aligned.divisor shift rfl
  have lower (next : Nat) (smaller : shift = next + 1) :
      (state.div.shiftRight 1).toNat = B * 2 ^ next := by
    rw [toNat_shiftRight, divisor, smaller, pow_succ, ← Nat.mul_assoc, pow_one,
      Nat.mul_div_cancel _ (by decide)]
  have left := aligned.left
  rw [pow_succ, ← Nat.mul_assoc] at left
  have order := (compareTo_spec state.num state.div).1
  by_cases enough : state.div.toNat ≤ state.num.toNat
  · have subtracts : 0 ≤ compareTo state.num state.div := by omega
    have rest := toNat_sub state.num state.div positive enough
    have set := toNat_setBit state.pn inside aligned.clear
    rw [divStep, if_pos subtracts]
    refine ⟨lower, ?_, ?_, ?_⟩
    · simp only [rest, set, Nat.mul_add]
      have := aligned.parts
      omega
    · simp only [rest]
      omega
    · simp only [set]
      exact Nat.dvd_add ((pow_dvd_pow 2 (Nat.le_succ shift)).trans aligned.clear) (dvd_refl _)
  · have keeps : ¬ 0 ≤ compareTo state.num state.div := by omega
    rw [divStep, if_neg keeps]
    exact ⟨lower, aligned.parts, by simp only; omega,
      (pow_dvd_pow 2 (Nat.le_succ shift)).trans aligned.clear⟩

theorem Aligned.run {A B shifts : Nat} {state : Dividing WIDTH} (aligned : Aligned A B shifts state)
    (inside : shifts ≤ 32 * WIDTH) : Aligned A B 0 (divLoop shifts state) := by
  induction shifts generalizing state with
  | zero => exact aligned
  | succ shift ih => exact ih (aligned.step (by omega)) (by omega)

/-- The divisor is as long as the number after the shift, so that it loses no bits. -/
theorem shiftLeft_aligns (a b : BaseUint WIDTH) (longer : b.bits ≤ a.bits) :
    (b.shiftLeft (a.bits - b.bits)).toNat = b.toNat * 2 ^ (a.bits - b.bits) := by
  rw [toNat_shiftLeft]
  apply Nat.mod_eq_of_lt
  have short : b.toNat < 2 ^ b.bits := by
    rw [bits_eq_size]
    exact Nat.lt_size_self _
  have long : a.bits ≤ 32 * WIDTH := by
    rw [bits_eq_size]
    exact Nat.size_le.mpr a.toNat_lt
  calc
    b.toNat * 2 ^ (a.bits - b.bits) < 2 ^ b.bits * 2 ^ (a.bits - b.bits) :=
      Nat.mul_lt_mul_of_pos_right short (Nat.two_pow_pos _)
    _ = 2 ^ a.bits := by rw [← pow_add, Nat.add_sub_cancel' longer]
    _ ≤ 2 ^ (32 * WIDTH) := Nat.pow_le_pow_right (by decide) long

/-- `operator/=` throws for a divisor 0, and gives the quotient otherwise. -/
theorem div_spec (a b : BaseUint WIDTH) :
    (b.toNat = 0 ∧ div a b = none) ∨
      (b.toNat ≠ 0 ∧ ∃ quotient, div a b = some quotient ∧ quotient.toNat = a.toNat / b.toNat) := by
  have bitsB := bits_eq_size b
  have bitsA := bits_eq_size a
  have long : a.bits ≤ 32 * WIDTH := by
    rw [bits_eq_size]
    exact Nat.size_le.mpr a.toNat_lt
  have below : a.toNat < 2 ^ a.bits := by
    rw [bits_eq_size]
    exact Nat.lt_size_self _
  rw [div]
  by_cases none : b.bits = 0
  · left
    rw [if_pos none]
    exact ⟨Nat.size_eq_zero.mp (bitsB ▸ none), rfl⟩
  right
  rw [if_neg none]
  have nonzero : b.toNat ≠ 0 := fun zero => none (by rw [bitsB, zero, Nat.size_zero])
  refine ⟨nonzero, ?_⟩
  by_cases longer : b.bits > a.bits
  · rw [if_pos longer]
    refine ⟨_, rfl, ?_⟩
    have less : a.toNat < b.toNat := by
      apply Nat.lt_of_not_le
      intro order
      have := Nat.size_le_size order
      omega
    rw [toNat_zero, Nat.div_eq_of_lt less]
  · rw [if_neg longer]
    refine ⟨_, rfl, ?_⟩
    have high : 2 ^ (b.bits - 1) ≤ b.toNat := Nat.lt_size.mp (by omega)
    have start : Aligned a.toNat b.toNat (a.bits - b.bits + 1)
        { num := a, div := b.shiftLeft (a.bits - b.bits), pn := zero WIDTH } := by
      refine ⟨?_, by simp, ?_, by simp⟩
      · intro shift same
        rw [shiftLeft_aligns a b (by omega), Nat.succ_injective same]
      · calc
          a.toNat < 2 ^ a.bits := below
          _ = 2 ^ (b.bits - 1) * 2 ^ (a.bits - b.bits + 1) := by
            rw [← pow_add]
            congr 1
            omega
          _ ≤ b.toNat * 2 ^ (a.bits - b.bits + 1) := Nat.mul_le_mul_right _ high
    obtain ⟨_, parts, left, _⟩ := start.run (by omega)
    rw [pow_zero, Nat.mul_one] at left
    rw [← parts, Nat.add_mul_div_left _ _ (by omega), Nat.div_eq_of_lt left, Nat.zero_add]

/-- The limbs of `base_uint<256>` compute what the integers do. -/
theorem limbs_compute (a b : BaseUint 8) (b32 : UInt32) (b64 : UInt64) (shift : Nat) :
    (mul a b).toNat = a.toNat * b.toNat % 2 ^ 256 ∧
    (mulWord a b32).toNat = a.toNat * b32.toNat % 2 ^ 256 ∧
    (a.shiftLeft shift).toNat = a.toNat * 2 ^ shift % 2 ^ 256 ∧
    (a.shiftRight shift).toNat = a.toNat / 2 ^ shift ∧
    IsLeast {k | a.toNat < 2 ^ k} a.bits ∧
    ((compareTo a b < 0 ↔ a.toNat < b.toNat) ∧ (compareTo a b = 0 ↔ a.toNat = b.toNat) ∧
      (0 < compareTo a b ↔ b.toNat < a.toNat)) ∧
    (equalTo a b64 = true ↔ a.toNat = b64.toNat) ∧
    (div a b = none ↔ b.toNat = 0) ∧
    (∀ quotient, div a b = some quotient → quotient.toNat = a.toNat / b.toNat) ∧
    -- The sums of 64 bits do not overflow.
    (∀ i, i < 8 → (addRun a b i).carry.toNat + ((addRun a b i).pn.limb i).toNat +
      (b.limb i).toNat < 2 ^ 64) ∧
    (∀ i, i < 8 → (mulWordRun a b32 i).carry.toNat +
      b32.toNat * ((mulWordRun a b32 i).pn.limb i).toNat < 2 ^ 64) ∧
    (∀ i j, i + j < 8 → (mulRow a b j (mulRun a b j) i).carry.toNat +
      ((mulRow a b j (mulRun a b j) i).pn.limb (i + j)).toNat +
        (a.limb j).toNat * (b.limb i).toNat < 2 ^ 64) ∧
    -- The shift that aligns the divisor loses no bits.
    (b.bits ≤ a.bits →
      (b.shiftLeft (a.bits - b.bits)).toNat = b.toNat * 2 ^ (a.bits - b.bits)) := by
  have quotients := div_spec a b
  refine ⟨toNat_mul a b, toNat_mulWord a b32, toNat_shiftLeft a shift, toNat_shiftRight a shift, ?_,
    compareTo_spec a b, equalTo_iff a (by decide) b64, ?_, ?_, fun i => addRun_sum_lt a b,
    fun i => mulWordRun_sum_lt a b32, fun i j => mulRow_sum_lt a b _, shiftLeft_aligns a b⟩
  · rw [bits_eq_size]
    exact ⟨Nat.lt_size_self _, fun k above => Nat.size_le.mpr above⟩
  · rcases quotients with ⟨zero, thrown⟩ | ⟨nonzero, quotient, given, _⟩
    · exact ⟨fun _ => zero, fun _ => thrown⟩
    · simp [given, nonzero]
  · intro quotient given
    rcases quotients with ⟨_, thrown⟩ | ⟨_, known, same, value⟩
    · simp [thrown] at given
    · rw [given] at same
      rw [Option.some_injective _ same, value]

end BaseUint

end Lycancoin
