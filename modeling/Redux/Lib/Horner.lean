import Mathlib.Algebra.BigOperators.Group.Finset.Basic
import Mathlib.Algebra.BigOperators.Ring.Finset
import Mathlib.Tactic.Ring

/-!
# Lib.Horner — a polynomial from the ratios of its coefficients

Horner's scheme with a one in place of each coefficient: the sum is scaled by the variable and the ratio of
two coefficients, and one is added.  Scaled by the last coefficient, it is the polynomial.
-/

namespace Redux.Lib

open Finset

variable {R : Type*} [CommSemiring R]

/-- The sum after some terms. -/
def ratioSum (x : R) (ratio : ℕ → R) : ℕ → R
  | 0 => 1
  | t + 1 => ratioSum x ratio t * (x * ratio t) + 1

/-- **The scheme computes the polynomial.** -/
theorem mul_ratioSum {x : R} {ratio c : ℕ → R} : ∀ {t : ℕ}, (∀ s < t, c (s + 1) * ratio s = c s) →
    c t * ratioSum x ratio t = ∑ s ∈ range (t + 1), c s * x ^ (t - s)
  | 0, _ => by rw [ratioSum, sum_range_one, Nat.sub_self, pow_zero]
  | t + 1, h => by
    have ih := @mul_ratioSum x ratio c t fun s hs => h s (Nat.lt_succ_of_lt hs)
    have hscaled : ∑ s ∈ range (t + 1), c s * x ^ (t + 1 - s) = x * ∑ s ∈ range (t + 1), c s * x ^ (t - s) := by
      rw [mul_sum]
      refine sum_congr rfl fun s hs => ?_
      rw [Nat.succ_sub (Nat.lt_succ_iff.1 (mem_range.1 hs)), pow_succ]
      ring
    calc c (t + 1) * ratioSum x ratio (t + 1)
        = x * ((c (t + 1) * ratio t) * ratioSum x ratio t) + c (t + 1) := by rw [ratioSum]; ring
      _ = x * (c t * ratioSum x ratio t) + c (t + 1) := by rw [h t (Nat.lt_succ_self t)]
      _ = x * ∑ s ∈ range (t + 1), c s * x ^ (t - s) + c (t + 1) := by rw [ih]
      _ = ∑ s ∈ range (t + 1 + 1), c s * x ^ (t + 1 - s) := by
        rw [sum_range_succ _ (t + 1), hscaled, Nat.sub_self, pow_zero, mul_one]

end Redux.Lib
