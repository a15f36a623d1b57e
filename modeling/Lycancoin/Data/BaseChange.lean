import Mathlib.Data.List.TakeWhile
import Mathlib.Data.Nat.Digits.Lemmas
import Mathlib.Tactic.Ring

namespace Lycancoin.Data

/-! Changing the base of a number, digit by digit, in a row of fixed length.

Rows have their lowest digit first.  Texts have their highest digit first, and count the zeros that
they begin with.
-/

namespace BaseChange

variable {base factor other : Nat} {row : List Nat} {carry : Nat}

def mulAdd (base factor : Nat) : List Nat → Nat → List Nat × Nat
  | [], carry => ([], carry)
  | digit :: rest, carry =>
      let carry := carry + factor * digit
      let (rest, left) := mulAdd base factor rest (carry / base)
      (carry % base :: rest, left)

@[simp] theorem length_mulAdd : (mulAdd base factor row carry).1.length = row.length := by
  induction row generalizing carry with
  | nil => rfl
  | cons digit rest ih => simp [mulAdd, ih]

theorem mulAdd_lt (positive : 0 < base) : ∀ digit ∈ (mulAdd base factor row carry).1, digit < base := by
  induction row generalizing carry with
  | nil => simp [mulAdd]
  | cons digit rest ih =>
      simp only [mulAdd, List.forall_mem_cons]
      exact ⟨Nat.mod_lt _ positive, ih⟩

/-- What does not fit in the row is left over. -/
theorem mulAdd_value :
    Nat.ofDigits base (mulAdd base factor row carry).1 +
        base ^ row.length * (mulAdd base factor row carry).2 =
      factor * Nat.ofDigits base row + carry := by
  induction row generalizing carry with
  | nil => simp [mulAdd]
  | cons digit rest ih =>
      have later := @ih ((carry + factor * digit) / base)
      have split := Nat.mod_add_div (carry + factor * digit) base
      simp only [mulAdd, Nat.ofDigits_cons, List.length_cons, pow_succ]
      calc _ = (carry + factor * digit) % base +
            base * (Nat.ofDigits base (mulAdd base factor rest ((carry + factor * digit) / base)).1 +
              base ^ rest.length * (mulAdd base factor rest ((carry + factor * digit) / base)).2) := by
            ring
        _ = (carry + factor * digit) % base + base * ((carry + factor * digit) / base) +
              base * (factor * Nat.ofDigits base rest) := by
            rw [later]
            ring
        _ = _ := by
            rw [split]
            ring

/-- Nothing is left over where the result fits. -/
theorem mulAdd_fits (fits : factor * Nat.ofDigits base row + carry < base ^ row.length) :
    (mulAdd base factor row carry).2 = 0 ∧
      Nat.ofDigits base (mulAdd base factor row carry).1 = factor * Nat.ofDigits base row + carry := by
  have value := @mulAdd_value base factor row carry
  have zero : (mulAdd base factor row carry).2 = 0 := by
    by_contra some
    have atLeast := Nat.le_mul_of_pos_right (base ^ row.length) (Nat.pos_of_ne_zero some)
    omega
  rw [zero, Nat.mul_zero, Nat.add_zero] at value
  exact ⟨zero, value⟩

/-- The row has room for so many digits more. -/
def Room (base factor : Nat) (row : List Nat) (count : Nat) : Prop :=
  (Nat.ofDigits base row + 1) * factor ^ count ≤ base ^ row.length

theorem Room.mulAdd {digit count : Nat} (room : Room base factor row (count + 1))
    (small : digit < factor) :
    (mulAdd base factor row digit).2 = 0 ∧
      Nat.ofDigits base (mulAdd base factor row digit).1 = factor * Nat.ofDigits base row + digit ∧
      Room base factor (BaseChange.mulAdd base factor row digit).1 count := by
  have positive : 0 < factor ^ count := Nat.pow_pos (by omega)
  have step : (factor * Nat.ofDigits base row + digit + 1) * factor ^ count ≤ base ^ row.length := by
    calc (factor * Nat.ofDigits base row + digit + 1) * factor ^ count
        ≤ (factor * Nat.ofDigits base row + factor) * factor ^ count :=
          Nat.mul_le_mul_right _ (by omega)
      _ = (Nat.ofDigits base row + 1) * factor ^ (count + 1) := by ring
      _ ≤ base ^ row.length := room
  have fits : factor * Nat.ofDigits base row + digit < base ^ row.length :=
    Nat.lt_of_lt_of_le (Nat.lt_succ_self _) (Nat.le_trans (Nat.le_mul_of_pos_right _ positive) step)
  obtain ⟨nothing, value⟩ := mulAdd_fits fits
  refine ⟨nothing, value, ?_⟩
  rw [Room, value, length_mulAdd]
  exact step

/-- So many digits fit, when a power of the one base is at most a power of the other. -/
theorem pow_lt_pow_of_ratio {p q : Nat} (large : 1 < base) (positive : 0 < q)
    (ratio : other ^ q ≤ base ^ p) (n : Nat) : other ^ n < base ^ (n * p / q + 1) := by
  have more : n * p < (n * p / q + 1) * q := Nat.lt_mul_of_div_lt (Nat.lt_succ_self _) positive
  apply lt_of_pow_lt_pow_left₀ q (Nat.zero_le _)
  calc (other ^ n) ^ q = (other ^ q) ^ n := by rw [← pow_mul, ← pow_mul, Nat.mul_comm]
    _ ≤ (base ^ p) ^ n := Nat.pow_le_pow_left ratio n
    _ = base ^ (n * p) := by rw [← pow_mul, Nat.mul_comm]
    _ < base ^ ((n * p / q + 1) * q) := Nat.pow_lt_pow_right large more
    _ = _ := by rw [pow_mul]

theorem room_zeros {p q : Nat} (large : 1 < base) (positive : 0 < q) (ratio : factor ^ q ≤ base ^ p)
    (n : Nat) : Room base factor (List.replicate (n * p / q + 1) 0) n := by
  rw [Room, Nat.ofDigits_replicate_zero, List.length_replicate, Nat.zero_add, Nat.one_mul]
  exact Nat.le_of_lt (pow_lt_pow_of_ratio large positive ratio n)

/-! ## Texts -/

def valueOf (base : Nat) (text : List Nat) : Nat := Nat.ofDigits base text.reverse

@[simp] theorem valueOf_nil : valueOf base [] = 0 := rfl

theorem valueOf_concat (text : List Nat) (digit : Nat) :
    valueOf base (text ++ [digit]) = valueOf base text * base + digit := by
  rw [valueOf, List.reverse_append, List.reverse_singleton, List.singleton_append,
    Nat.ofDigits_cons, valueOf, Nat.mul_comm, Nat.add_comm]

theorem foldl_eq_valueOf (text : List Nat) :
    text.foldl (fun n digit => factor * n + digit) 0 = valueOf factor text := by
  induction text using List.reverseRecOn with
  | nil => rfl
  | append_singleton text digit ih =>
      rw [List.foldl_append, List.foldl_cons, List.foldl_nil, ih, valueOf_concat, Nat.mul_comm]

/-- The digits of a number without zeros in front. -/
def textOf (base n : Nat) : List Nat := (Nat.digits base n).reverse

theorem valueOf_textOf (n : Nat) : valueOf base (textOf base n) = n := by
  rw [valueOf, textOf, List.reverse_reverse, Nat.ofDigits_digits]

theorem textOf_lt (large : 1 < base) {n : Nat} : ∀ digit ∈ textOf base n, digit < base := by
  intro digit member
  exact Nat.digits_lt_base large (List.mem_reverse.mp member)

/-- A text does not begin with zero. -/
def Significant (text : List Nat) : Prop := ∀ digit, text.head? = some digit → digit ≠ 0

theorem significant_textOf (base n : Nat) : Significant (textOf base n) := by
  intro digit first
  by_cases zero : n = 0
  · simp [zero, textOf] at first
  · have nonempty : Nat.digits base n ≠ [] := Nat.digits_ne_nil_iff_ne_zero.mpr zero
    rw [textOf, List.head?_reverse, List.getLast?_eq_some_getLast nonempty, Option.some.injEq] at first
    rw [← first]
    exact Nat.getLast_digit_ne_zero base zero

theorem textOf_valueOf (large : 1 < base) {text : List Nat} (small : ∀ digit ∈ text, digit < base)
    (significant : Significant text) : textOf base (valueOf base text) = text := by
  have last : ∀ nonempty : text.reverse ≠ [], text.reverse.getLast nonempty ≠ 0 := by
    intro nonempty
    apply significant
    rw [← List.getLast?_reverse]
    exact List.getLast?_eq_some_getLast nonempty
  rw [textOf, valueOf, Nat.digits_ofDigits base large text.reverse
    (fun digit member => small digit (List.mem_reverse.mp member)) last, List.reverse_reverse]

theorem valueOf_zeros (count : Nat) (text : List Nat) :
    valueOf base (List.replicate count 0 ++ text) = valueOf base text := by
  rw [valueOf, List.reverse_append, List.reverse_replicate, Nat.ofDigits_append_replicate_zero, valueOf]

/-- The zeros in front, and what comes behind them. -/
theorem zeros_append (text : List Nat) :
    text = List.replicate (text.takeWhile (· == 0)).length 0 ++ text.dropWhile (· == 0) := by
  have zeros : text.takeWhile (· == 0) = List.replicate (text.takeWhile (· == 0)).length 0 :=
    List.eq_replicate_iff.mpr ⟨rfl, fun digit member => by
      simpa using List.mem_takeWhile_imp member⟩
  rw [← zeros, List.takeWhile_append_dropWhile]

theorem valueOf_dropWhile (text : List Nat) :
    valueOf base (text.dropWhile (· == 0)) = valueOf base text := by
  have behind := @valueOf_zeros base (text.takeWhile (· == 0)).length (text.dropWhile (· == 0))
  rw [← zeros_append] at behind
  exact behind.symm

theorem significant_dropWhile (text : List Nat) : Significant (text.dropWhile (· == 0)) := by
  intro digit first
  have stops := List.head?_dropWhile_not (· == 0) text
  rw [first] at stops
  simpa using stops

/-- Without its zeros in front a text is the one that its number has. -/
theorem textOf_valueOf_dropWhile (large : 1 < base) {text : List Nat}
    (small : ∀ digit ∈ text, digit < base) :
    textOf base (valueOf base text) = text.dropWhile (· == 0) := by
  rw [← valueOf_dropWhile, textOf_valueOf large (fun digit member => small digit
    ((List.dropWhile_sublist _).mem member)) (significant_dropWhile text)]

/-- The text in another base, with as many zeros in front. -/
def rebase (base other : Nat) (text : List Nat) : List Nat :=
  List.replicate (text.takeWhile (· == 0)).length 0 ++ textOf other (valueOf base text)

theorem takeWhile_of_significant {text : List Nat} (significant : Significant text) (count : Nat) :
    (List.replicate count 0 ++ text).takeWhile (· == 0) = List.replicate count 0 := by
  rw [List.takeWhile_append_of_pos (by simp +contextual)]
  cases text with
  | nil => simp
  | cons digit rest => simp [significant digit rfl]

theorem rebase_of_significant {text : List Nat} (significant : Significant text) (count : Nat) :
    rebase base other (List.replicate count 0 ++ text) =
      List.replicate count 0 ++ textOf other (valueOf base text) := by
  rw [rebase, takeWhile_of_significant significant, List.length_replicate, valueOf_zeros]

theorem rebase_rebase (large : 1 < base) {text : List Nat} (small : ∀ digit ∈ text, digit < base) :
    rebase other base (rebase base other text) = text := by
  have forward : rebase base other text =
      List.replicate (text.takeWhile (· == 0)).length 0 ++ textOf other (valueOf base text) := rfl
  rw [forward, rebase_of_significant (significant_textOf other _), valueOf_textOf,
    textOf_valueOf_dropWhile large small, ← zeros_append]

theorem rebase_lt (large : 1 < other) (text : List Nat) :
    ∀ digit ∈ rebase base other text, digit < other := by
  intro digit member
  rw [rebase, List.mem_append] at member
  cases member with
  | inl zero =>
      rw [List.eq_of_mem_replicate zero]
      exact Nat.lt_trans Nat.zero_lt_one large
  | inr member => exact textOf_lt large digit member

end BaseChange

/-! A row of bits in groups of one size and in groups of another, the highest bit first. -/

namespace BitGroups

open BaseChange

variable {width other size pending left : Nat} {taken given : List Nat}

/-- The groups that were taken in are those that were given out and the bits that are left. -/
structure Carries (width other : Nat) (taken given : List Nat) (pending left : Nat) : Prop where
  length : width * taken.length = other * given.length + pending
  value : valueOf (2 ^ width) taken = valueOf (2 ^ other) given * 2 ^ pending + left
  small : left < 2 ^ pending
  bounded : ∀ group ∈ given, group < 2 ^ other

namespace Carries

theorem nil : Carries width other [] [] 0 0 where
  length := rfl
  value := rfl
  small := Nat.one_pos
  bounded := by simp

theorem take (carries : Carries width other taken given pending left) {group : Nat}
    (below : group < 2 ^ width) :
    Carries width other (taken ++ [group]) given (pending + width) (left * 2 ^ width + group) where
  length := by
    rw [List.length_append, List.length_singleton, Nat.mul_add, Nat.mul_one, carries.length,
      Nat.add_assoc]
  value := by
    rw [valueOf_concat, carries.value, pow_add]
    ring
  small := by
    have := Nat.mul_le_mul_right (2 ^ width) carries.small
    rw [Nat.succ_mul] at this
    rw [pow_add]
    omega
  bounded := carries.bounded

theorem give {rest high low : Nat}
    (carries : Carries width other taken given (rest + other) (high * 2 ^ rest + low))
    (below : low < 2 ^ rest) : Carries width other taken (given ++ [high]) rest low where
  length := by
    rw [List.length_append, List.length_singleton, Nat.mul_add, Nat.mul_one, carries.length,
      Nat.add_comm rest, Nat.add_assoc]
  value := by
    rw [valueOf_concat, carries.value, pow_add]
    ring
  small := below
  bounded := by
    have top : high < 2 ^ other := by
      apply Nat.lt_of_mul_lt_mul_right (a := 2 ^ rest)
      rw [← pow_add, Nat.add_comm]
      exact (Nat.le_add_right _ low).trans_lt carries.small
    simpa [or_imp, forall_and] using ⟨carries.bounded, top⟩

theorem giveAll (carries : Carries width other taken given other left) :
    Carries width other taken (given ++ [left]) 0 0 := by
  apply Carries.give _ Nat.one_pos
  simpa using carries

/-- The bits that are left make a last group with zeros behind them; from there the way back
leaves just the zeros. -/
theorem fill (carries : Carries width other taken given pending left) {zeros : Nat}
    (fits : pending + zeros = other) (bounded : ∀ group ∈ taken, group < 2 ^ width) :
    Carries other width (given ++ [left * 2 ^ zeros]) taken zeros 0 where
  length := by
    rw [List.length_append, List.length_singleton, Nat.mul_add, Nat.mul_one, carries.length, ← fits]
    omega
  value := by
    rw [valueOf_concat, carries.value, ← fits, pow_add]
    ring
  small := Nat.two_pow_pos zeros
  bounded := bounded

/-- Where no bits are left the way back is the same. -/
theorem symm (carries : Carries width other taken given 0 left)
    (bounded : ∀ group ∈ taken, group < 2 ^ width) : Carries other width given taken 0 0 where
  length := by rw [carries.length, Nat.add_zero]
  value := by
    have none : left = 0 := by simpa using carries.small
    rw [carries.value, none, pow_zero, Nat.mul_one, Nat.mul_one]
    rfl
  small := Nat.one_pos
  bounded := bounded

end Carries

theorem valueOf_inj (large : 0 < width) {first second : List Nat}
    (length : first.length = second.length) (boundedFirst : ∀ group ∈ first, group < 2 ^ width)
    (boundedSecond : ∀ group ∈ second, group < 2 ^ width)
    (same : valueOf (2 ^ width) first = valueOf (2 ^ width) second) : first = second := by
  have reversed := Nat.ofDigits_inj_of_len_eq (Nat.one_lt_two_pow large.ne')
    (by rw [List.length_reverse, List.length_reverse, length])
    (fun group member => boundedFirst group (List.mem_reverse.mp member))
    (fun group member => boundedSecond group (List.mem_reverse.mp member)) same
  exact List.reverse_injective reversed

theorem given_unique {zeros : Nat} {groups : List Nat}
    (carries : Carries width other taken given pending left)
    (zeroed : Carries width other taken groups zeros 0) (few : pending < other)
    (fewZeros : zeros < other) : given = groups ∧ pending = zeros ∧ left = 0 := by
  have lengths := carries.length.symm.trans zeroed.length
  have samePending : pending = zeros := by
    have known := congrArg (· % other) lengths
    simpa [Nat.mul_add_mod, Nat.mod_eq_of_lt few, Nat.mod_eq_of_lt fewZeros] using known
  subst samePending
  have sameLength : given.length = groups.length :=
    Nat.eq_of_mul_eq_mul_left (by omega : 0 < other) (Nat.add_right_cancel lengths)
  have values := carries.value.symm.trans zeroed.value
  have nothing : left = 0 := by
    have known := congrArg (· % 2 ^ pending) values
    simpa [Nat.mul_add_mod', Nat.mod_eq_of_lt carries.small] using known
  rw [nothing] at values
  have same := Nat.eq_of_mul_eq_mul_right (Nat.two_pow_pos pending) (Nat.add_right_cancel values)
  exact ⟨valueOf_inj (by omega) sameLength carries.bounded zeroed.bounded same, rfl, nothing⟩

/-- Groups with fewer zeros behind them than a group are made in just one way. -/
theorem taken_unique {zeros : Nat} {groups : List Nat}
    (carries : Carries width other taken given pending 0)
    (zeroed : Carries width other groups given zeros 0) (few : pending < width)
    (fewZeros : zeros < width) (bounded : ∀ group ∈ taken, group < 2 ^ width)
    (boundedGroups : ∀ group ∈ groups, group < 2 ^ width) : taken = groups ∧ pending = zeros := by
  have lengths : width * taken.length + zeros = width * groups.length + pending := by
    rw [carries.length, zeroed.length]
    omega
  have samePending : pending = zeros := by
    have known := congrArg (· % width) lengths
    simpa [Nat.mul_add_mod, Nat.mod_eq_of_lt few, Nat.mod_eq_of_lt fewZeros] using known.symm
  subst samePending
  have sameLength : taken.length = groups.length :=
    Nat.eq_of_mul_eq_mul_left (by omega : 0 < width) (Nat.add_right_cancel lengths)
  have same := carries.value.trans zeroed.value.symm
  exact ⟨valueOf_inj (by omega) sameLength bounded boundedGroups same, rfl⟩

end BitGroups

end Lycancoin.Data
