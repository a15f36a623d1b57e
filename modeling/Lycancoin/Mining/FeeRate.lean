import Lycancoin.Mempool.Accept
import Lycancoin.Wallet.CreateTransaction

namespace Lycancoin

open Lycancoin.Data

namespace CFeeRate

/-- The constructor.  The product is one of `int64_t`, the division by a `size_t` is unsigned. -/
def ofFee (nFeePaid : Int) (nSize : Nat) : Option CFeeRate :=
  if nSize > 0 then
    (int64 (nFeePaid * 1000)).map fun product =>
      { nSatoshisPerK := Int.bmod (product % 2 ^ 64 / nSize) (2 ^ 64) }
  else some { nSatoshisPerK := 0 }

def getFeePerK (rate : CFeeRate) : Int := rate.getFee 1000

/-- The fees for which the rate per 1000 bytes is computed within the machine integers, or beyond
them with no effect. -/
structure Fits (nFeePaid : Int) (nSize : Nat) : Prop where
  nonneg : 0 ≤ nFeePaid
  product : nFeePaid * 1000 < 2 ^ 63
  perK : nFeePaid * 1000 / nSize * 1000 < 2 ^ 64 ∨ nFeePaid * 1000 / nSize * 1000 % 2 ^ 64 < 1000

/-- The rate is the fee for 1000 bytes, rounded toward zero. -/
def Exact (nFeePaid : Int) (nSize : Nat) : Prop :=
  (ofFee nFeePaid nSize).map getFeePerK = some ((nFeePaid * 1000).tdiv nSize)

variable {nFeePaid : Int} {nSize : Nat}

theorem ofFee_of_nonneg (positive : 0 < nSize) (nonneg : 0 ≤ nFeePaid)
    (product : nFeePaid * 1000 < 2 ^ 63) :
    ofFee nFeePaid nSize = some { nSatoshisPerK := nFeePaid * 1000 / nSize } := by
  have fits : InInt64 (nFeePaid * 1000) := ⟨by omega, product⟩
  have rateNonneg : 0 ≤ nFeePaid * 1000 / nSize :=
    Int.ediv_nonneg (by omega) (Int.natCast_nonneg nSize)
  have rateLe : nFeePaid * 1000 / nSize ≤ nFeePaid * 1000 :=
    Int.ediv_le_self _ (by omega)
  have word : nFeePaid * 1000 % 2 ^ 64 = nFeePaid * 1000 :=
    Int.emod_eq_of_lt (by omega) (by omega)
  simp only [ofFee, if_pos positive, int64_of_inInt64 fits, Option.map_some, word]
  rw [Int.bmod_eq_of_le (by omega) (by omega)]

/-- The remainder of the product of a positive rate is its rate again, or is lost. -/
theorem getFeePerK_eq_iff {rate : CFeeRate} (nonneg : 0 ≤ rate.nSatoshisPerK) :
    rate.getFeePerK = rate.nSatoshisPerK ↔
      rate.nSatoshisPerK * 1000 < 2 ^ 64 ∨ rate.nSatoshisPerK * 1000 % 2 ^ 64 < 1000 := by
  simp only [getFeePerK, getFee, Nat.cast_ofNat]
  split <;> omega

/-- A negative fee is made unsigned by the division: what it is rated at is positive, or the fee
itself where the division does nothing. -/
theorem getFeePerK_of_negative {rate : CFeeRate} (positive : 0 < nSize) (small : nSize < 2 ^ 32)
    (negative : nFeePaid < 0) (computed : ofFee nFeePaid nSize = some rate) :
    rate.getFeePerK ≠ (nFeePaid * 1000).tdiv nSize := by
  have nonneg : 0 ≤ rate.nSatoshisPerK * 1000 % 2 ^ 64 / 1000 := by omega
  simp only [ofFee, if_pos positive, Option.map_eq_some_iff, int64_eq_some] at computed
  obtain ⟨product, ⟨fits, rfl⟩, rfl⟩ := computed
  have word : nFeePaid * 1000 % 2 ^ 64 = 2 ^ 64 + nFeePaid * 1000 := by
    unfold InInt64 at fits
    omega
  have flipped : 0 ≤ (-(nFeePaid * 1000)).tdiv nSize := Int.tdiv_nonneg (by omega) (by omega)
  rw [Int.neg_tdiv] at flipped
  by_cases one : nSize = 1
  · have less : (nFeePaid * 1000).tdiv nSize < 0 := by
      rw [one, Nat.cast_one, Int.tdiv_one]
      omega
    simp only [getFeePerK, getFee, Nat.cast_ofNat]
    split <;> omega
  · have low : 1 ≤ (2 ^ 64 + nFeePaid * 1000) / nSize := by
      rw [Int.le_ediv_iff_mul_le (by omega)]
      unfold InInt64 at fits
      omega
    have high : (2 ^ 64 + nFeePaid * 1000) / nSize < 2 ^ 63 := by
      rw [Int.ediv_lt_iff_lt_mul (by omega)]
      omega
    rw [word] at nonneg ⊢
    rw [Int.bmod_eq_of_le (by omega) (by omega)] at nonneg ⊢
    simp only [getFeePerK, getFee, Nat.cast_ofNat]
    split <;> omega

theorem exact_iff (positive : 0 < nSize) (small : nSize < 2 ^ 32) :
    Exact nFeePaid nSize ↔ Fits nFeePaid nSize := by
  unfold Exact
  by_cases nonneg : 0 ≤ nFeePaid
  · by_cases product : nFeePaid * 1000 < 2 ^ 63
    · have rateNonneg : 0 ≤ nFeePaid * 1000 / nSize :=
        Int.ediv_nonneg (by omega) (Int.natCast_nonneg nSize)
      rw [ofFee_of_nonneg positive nonneg product, Option.map_some, Option.some.injEq,
        Int.tdiv_eq_ediv_of_nonneg (by omega)]
      rw [show nFeePaid * 1000 / nSize =
        (CFeeRate.mk (nFeePaid * 1000 / nSize)).nSatoshisPerK from rfl,
        getFeePerK_eq_iff rateNonneg]
      exact ⟨fun perK => ⟨nonneg, product, perK⟩, Fits.perK⟩
    · have overflow : ¬InInt64 (nFeePaid * 1000) := fun fits => product fits.2
      simp only [ofFee, if_pos positive, int64, if_neg overflow, Option.map_none]
      constructor
      · intro impossible
        cases impossible
      · intro fits
        exact absurd fits.product product
  · constructor
    · intro computed
      obtain ⟨rate, made, exact⟩ := Option.map_eq_some_iff.1 computed
      exact absurd exact (getFeePerK_of_negative positive small (by omega) made)
    · intro fits
      exact absurd fits.nonneg nonneg

end CFeeRate

end Lycancoin
