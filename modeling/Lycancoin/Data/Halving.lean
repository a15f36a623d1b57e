import Mathlib

/-! Sums of a quantity that is halved at the end of every period. -/

namespace Lycancoin.Data

open Finset

variable {start period : Nat}

/-- The quantity at `time`, halved once for each complete period. -/
def halved (start period time : Nat) : Nat := start / 2 ^ (time / period)

theorem halved_antitone (start period : Nat) : Antitone (halved start period) := by
  intro earlier later order
  exact Nat.div_le_div_left (Nat.pow_le_pow_right (by decide) (Nat.div_le_div_right order))
    (Nat.two_pow_pos _)

theorem halved_eq_zero {bits time : Nat} (small : start < 2 ^ bits)
    (late : bits * period ≤ time) (positive : 0 < period) :
    halved start period time = 0 := by
  apply Nat.div_eq_of_lt
  apply small.trans_le
  exact Nat.pow_le_pow_right (by decide) ((Nat.le_div_iff_mul_le positive).mpr late)

/-- Halving loses at least half, so twice the next value fits in the present one. -/
theorem two_mul_halved_succ_period (start periods : Nat) :
    2 * (start / 2 ^ (periods + 1)) ≤ start / 2 ^ periods := by
  rw [pow_succ, ← Nat.div_div_eq_div_mul]
  exact Nat.mul_div_le _ _

/-- What is handed out before `time` together with what the current period
still holds and one further period at the current rate never exceeds two
periods at the starting rate. -/
theorem sum_halved_add_remaining (start : Nat) (positive : 0 < period) (time : Nat) :
    ∑ t ∈ range time, halved start period t +
        (period - time % period + period) * halved start period time ≤
      2 * (period * start) := by
  induction time with
  | zero => simp [halved, two_mul, Nat.add_mul]
  | succ time ih =>
      rw [sum_range_succ]
      have within := Nat.mod_lt time positive
      by_cases last : time % period + 1 = period
      · have boundary : time + 1 = period * (time / period + 1) := by
          have division := Nat.div_add_mod time period
          rw [Nat.mul_add]
          omega
        have rollover : (time + 1) % period = 0 := by
          rw [boundary, Nat.mul_mod_right]
        have next : (time + 1) / period = time / period + 1 :=
          Nat.succ_div_of_dvd (Nat.dvd_of_mod_eq_zero rollover)
        have halves := two_mul_halved_succ_period start (time / period)
        have scaled := Nat.mul_le_mul_left period halves
        have unitLeft : period - time % period = 1 := by omega
        have after : halved start period (time + 1) = start / 2 ^ (time / period + 1) := by
          rw [halved, next]
        have now : halved start period time = start / 2 ^ (time / period) := rfl
        rw [rollover, after, now]
        rw [unitLeft, now, Nat.add_mul, Nat.one_mul] at ih
        have doubled : (period - 0 + period) * (start / 2 ^ (time / period + 1)) =
            period * (2 * (start / 2 ^ (time / period + 1))) := by
          rw [Nat.sub_zero]
          ring
        rw [doubled]
        omega
      · have sameRow : (time + 1) % period = time % period + 1 := by
          rw [Nat.add_mod, Nat.mod_eq_of_lt (a := 1) (by omega),
            Nat.mod_eq_of_lt (by omega)]
        have same : (time + 1) / period = time / period := by
          apply Nat.succ_div_of_not_dvd
          intro divides
          have := Nat.mod_eq_zero_of_dvd divides
          omega
        have after : halved start period (time + 1) = halved start period time := by
          rw [halved, halved, same]
        rw [after, sameRow]
        have split : period - time % period + period =
            (period - (time % period + 1) + period) + 1 := by omega
        rw [split, Nat.add_mul, Nat.one_mul] at ih
        omega

theorem sum_halved_le (start : Nat) (positive : 0 < period) (time : Nat) :
    ∑ t ∈ range time, halved start period t ≤ 2 * (period * start) :=
  (Nat.le_add_right _ _).trans (sum_halved_add_remaining start positive time)

end Lycancoin.Data
