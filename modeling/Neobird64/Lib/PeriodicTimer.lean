import Mathlib.Algebra.Order.Floor.Semiring
import Mathlib.Algebra.Order.Field.Basic
import Mathlib.Tactic.Linarith

/-! A timer that counts at a constant rate and starts anew after every `n` counts. Times and rates are in any
    ordered field. -/

namespace PeriodicTimer
variable {K : Type} [Field K] [LinearOrder K] [FloorSemiring K]
variable {rate t d x : K} {n k : Nat}

/-- The periods of `n` counts that are over after `x` counts. -/
def periods (n : Nat) (x : K) : Nat := ⌊x⌋₊ / n

theorem periods_no_counts (x : K) : periods 0 x = 0 := Nat.div_zero _

theorem le_periods_iff (hn : 0 < n) (hx : 0 ≤ x) : k ≤ periods n x ↔ (k : K) * n ≤ x := by
  rw [periods, Nat.le_div_iff_mul_le hn, Nat.le_floor_iff hx, Nat.cast_mul]

theorem periods_lt_iff (hn : 0 < n) (hx : 0 ≤ x) : periods n x < k ↔ x < (k : K) * n := by
  rw [← not_le, le_periods_iff hn hx, not_le]

variable [IsStrictOrderedRing K]

theorem periods_mono {y : K} (h : x ≤ y) : periods n x ≤ periods n y := Nat.div_le_div_right (Nat.floor_mono h)

theorem periods_mul (hn : 0 < n) (k : Nat) : periods n ((k : K) * n) = k := by
  rw [periods, ← Nat.cast_mul, Nat.floor_natCast, Nat.mul_div_cancel k hn]

/-- `k` more periods end while `d` passes exactly when there is room for them after what is left of the current one. -/
theorem periods_add_le_iff (hrate : 0 < rate) (hn : 0 < n) (ht : 0 ≤ t) (hd : 0 ≤ d) :
    periods n (rate * t) + k ≤ periods n (rate * (t + d)) ↔
      ((periods n (rate * t) + k : Nat) : K) * n / rate - t ≤ d := by
  rw [le_periods_iff hn (by positivity), sub_le_iff_le_add', div_le_iff₀' hrate]

/-- More than `k` periods pass until `k + 1` have ended. -/
theorem lt_of_periods_add_le (hrate : 0 < rate) (hn : 0 < n) (ht : 0 ≤ t) (hd : 0 ≤ d)
    (h : periods n (rate * t) + (k + 1) ≤ periods n (rate * (t + d))) : (k : K) * n < rate * d := by
  have hstart : rate * t < ((periods n (rate * t) + 1 : Nat) : K) * n :=
    (periods_lt_iff hn (by positivity)).mp (Nat.lt_succ_self _)
  have hend := (le_periods_iff hn (by positivity)).mp h
  push_cast at hstart hend
  linarith

end PeriodicTimer
