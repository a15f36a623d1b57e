import Mathlib

namespace Lycancoin.Data

/-! Rules for fallible computations: what one returns, which failures it may
end in, when another returns at least as often, and what it costs. -/

variable {ε α β : Type}

theorem bind_eq_ok {first : Except ε α} {next : α → Except ε β} {result : β} :
    first >>= next = .ok result ↔ ∃ value, first = .ok value ∧ next value = .ok result := by
  cases first <;> simp [bind, Except.bind]

/-- The computation returns a value with the property, or fails in an allowed
way. -/
def Meets (allowed : ε → Prop) (post : α → Prop) : Except ε α → Prop
  | .ok value => post value
  | .error failure => allowed failure

namespace Meets

variable {allowed : ε → Prop} {post : α → Prop} {after : β → Prop}

theorem pure {value : α} (holds : post value) : Meets allowed post (.ok value) := holds

theorem of_ok {computation : Except ε α} {value : α} (holds : Meets allowed post computation)
    (returns : computation = .ok value) : post value := by
  rwa [returns] at holds

theorem of_error {computation : Except ε α} {failure : ε}
    (holds : Meets allowed post computation) (fails : computation = .error failure) :
    allowed failure := by
  rwa [fails] at holds

theorem bind {first : Except ε α} {next : α → Except ε β} (start : Meets allowed post first)
    (rest : ∀ value, post value → Meets allowed after (next value)) :
    Meets allowed after (first >>= next) := by
  cases first with
  | error failure => exact start
  | ok value => exact rest value start

/-- Nothing is asked of the first computation. -/
theorem any {first : Except ε α} {next : α → Except ε β}
    (rest : ∀ value, Meets (fun _ => True) after (next value)) :
    Meets (fun _ => True) after (first >>= next) := by
  cases first with
  | error failure => exact trivial
  | ok value => exact rest value

theorem mono {computation : Except ε α} {weaker : α → Prop}
    (holds : Meets allowed post computation) (implies : ∀ value, post value → weaker value) :
    Meets allowed weaker computation := by
  cases computation with
  | error failure => exact holds
  | ok value => exact implies value holds

theorem ite {condition : Prop} [Decidable condition] {yes no : Except ε α}
    (left : condition → Meets allowed post yes) (right : ¬condition → Meets allowed post no) :
    Meets allowed post (if condition then yes else no) := by
  split
  · rename_i holds
    exact left holds
  · rename_i fails
    exact right fails

end Meets

/-- Whatever `narrow` returns, `wide` returns as well. -/
def Covers (wide narrow : Except ε α) : Prop := ∀ value, narrow = .ok value → wide = .ok value

namespace Covers

theorem refl (computation : Except ε α) : Covers computation computation := fun _ => id

theorem error (wide : Except ε α) (failure : ε) : Covers wide (.error failure) :=
  fun _ returns => nomatch returns

theorem bind {wide narrow : Except ε α} {next after : α → Except ε β}
    (start : Covers wide narrow) (rest : ∀ value, Covers (after value) (next value)) :
    Covers (wide >>= after) (narrow >>= next) := by
  intro result returns
  cases first : narrow with
  | error failure => simp [first, Bind.bind, Except.bind] at returns
  | ok value =>
      rw [first] at returns
      rw [start value first]
      exact rest value result returns

theorem ite {condition : Prop} [Decidable condition] {wideYes wideNo yes no : Except ε α}
    (left : Covers wideYes yes) (right : Covers wideNo no) :
    Covers (if condition then wideYes else wideNo) (if condition then yes else no) := by
  split
  · exact left
  · exact right

end Covers

/-- A fallible computation together with what it costs, also when it fails. -/
structure Metered (ε α : Type) where
  cost : Nat
  result : Except ε α

namespace Metered

instance : Monad (Metered ε) where
  pure value := { cost := 0, result := .ok value }
  bind first next :=
    match first.result with
    | .error failure => { cost := first.cost, result := .error failure }
    | .ok value =>
        { cost := first.cost + (next value).cost, result := (next value).result }

def free (computation : Except ε α) : Metered ε α := { cost := 0, result := computation }

variable {first : Metered ε α} {next : α → Metered ε β}

@[simp] theorem cost_free (computation : Except ε α) : (free computation).cost = 0 := rfl

@[simp] theorem result_free (computation : Except ε α) : (free computation).result = computation :=
  rfl

@[simp] theorem cost_pure (value : α) : (pure value : Metered ε α).cost = 0 := rfl

@[simp] theorem result_pure (value : α) : (pure value : Metered ε α).result = .ok value := rfl

@[simp] theorem result_bind (first : Metered ε α) (next : α → Metered ε β) :
    (first >>= next).result = first.result >>= fun value => (next value).result := by
  cases returns : first.result <;> simp [Bind.bind, returns, Except.bind]

theorem cost_bind_of_error {failure : ε} (fails : first.result = .error failure) :
    (first >>= next).cost = first.cost := by
  simp [Bind.bind, fails]

theorem cost_bind_of_ok {value : α} (returns : first.result = .ok value) :
    (first >>= next).cost = first.cost + (next value).cost := by
  simp [Bind.bind, returns]

theorem cost_bind_le {start rest : Nat} (before : first.cost ≤ start)
    (afterwards : ∀ value, first.result = .ok value → (next value).cost ≤ rest) :
    (first >>= next).cost ≤ start + rest := by
  cases returns : first.result with
  | error failure =>
      rw [cost_bind_of_error returns]
      exact before.trans (Nat.le_add_right _ _)
  | ok value =>
      rw [cost_bind_of_ok returns]
      exact Nat.add_le_add before (afterwards value returns)

theorem cost_free_bind_le {computation : Except ε α} {bound : Nat}
    (afterwards : ∀ value, computation = .ok value → (next value).cost ≤ bound) :
    (free computation >>= next).cost ≤ bound := by
  have total : (free computation >>= next).cost ≤ 0 + bound :=
    cost_bind_le (Nat.le_refl 0) afterwards
  omega

theorem cost_bind_free_le {bound : Nat} (before : first.cost ≤ bound)
    (afterwards : ∀ value, first.result = .ok value → (next value).cost ≤ 0) :
    (first >>= next).cost ≤ bound :=
  cost_bind_le before afterwards

end Metered

end Lycancoin.Data
