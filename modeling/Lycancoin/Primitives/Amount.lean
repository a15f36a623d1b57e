import Mathlib

namespace Lycancoin

/-! Amounts (`CAmount`, which is `int64_t`) are integers.  An operation whose
exact result leaves the 64-bit range is undefined behaviour. -/

def COIN : Int := 100000000

def CENT : Int := 1000000

/-- No amount larger than this (in satoshi) is valid. -/
def MAX_MONEY : Int := 4950000000 * COIN

def moneyRange (nValue : Int) : Bool := decide (0 ≤ nValue) && decide (nValue ≤ MAX_MONEY)

@[simp] theorem moneyRange_iff {nValue : Int} :
    moneyRange nValue = true ↔ 0 ≤ nValue ∧ nValue ≤ MAX_MONEY := by
  simp [moneyRange]

/-- The values of `int64_t`. -/
def InInt64 (value : Int) : Prop := -2 ^ 63 ≤ value ∧ value < 2 ^ 63

instance (value : Int) : Decidable (InInt64 value) := by unfold InInt64; infer_instance

/-- The result of a signed 64-bit operation with exact result `value`. -/
def int64 (value : Int) : Option Int := if InInt64 value then some value else none

theorem int64_eq_some {value result : Int} :
    int64 value = some result ↔ InInt64 value ∧ result = value := by
  unfold int64
  split <;> simp_all [eq_comm]

theorem int64_of_inInt64 {value : Int} (fits : InInt64 value) : int64 value = some value :=
  if_pos fits

/-- Signed right shift of a 64-bit value.  A count outside `[0, 64)` is
undefined behaviour. -/
def shiftRight64 (value count : Int) : Option Int :=
  if 0 ≤ count ∧ count < 64 then some (value >>> count.toNat) else none

end Lycancoin
