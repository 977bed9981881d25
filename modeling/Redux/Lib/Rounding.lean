import Mathlib.Algebra.Order.Floor.Ring
import Mathlib.Tactic.Linarith
import Mathlib.Tactic.NormNum

/-!
# Lib.Rounding — to the nearest integer, halves away from zero

`lround` of an ordered field.  Which number rounds to which integer depends on its sign for halves only; what
rounds to a positive number is positive.  `lround_sub` is what becomes of the distance of a number from an
integer.
-/

namespace Redux.Lib

section Rounding

variable {R : Type*} [Field R] [LinearOrder R] [IsStrictOrderedRing R] [FloorRing R] {x : R} {n k : ℤ}

/-- `lround`. -/
def lround (x : R) : ℤ := if 0 ≤ x then ⌊x + 1 / 2⌋ else ⌈x - 1 / 2⌉

theorem lround_eq_iff_of_nonneg (hx : 0 ≤ x) : lround x = n ↔ (n : R) - 1 / 2 ≤ x ∧ x < n + 1 / 2 := by
  rw [lround, if_pos hx, Int.floor_eq_iff]
  constructor <;> rintro ⟨h₁, h₂⟩ <;> constructor <;> linarith

theorem lround_eq_iff_of_neg (hx : x < 0) : lround x = n ↔ (n : R) - 1 / 2 < x ∧ x ≤ n + 1 / 2 := by
  rw [lround, if_neg (not_le.2 hx), Int.ceil_eq_iff]
  constructor <;> rintro ⟨h₁, h₂⟩ <;> constructor <;> linarith

theorem lround_zero : lround (0 : R) = 0 := by
  rw [lround_eq_iff_of_nonneg le_rfl, Int.cast_zero]
  constructor <;> norm_num

theorem lround_nonpos (hx : x ≤ 0) : lround x ≤ 0 := by
  rcases hx.eq_or_lt with rfl | hneg
  · exact lround_zero.le
  · rw [lround, if_neg (not_le.2 hneg), Int.ceil_le, Int.cast_zero]
    linarith

/-- What rounds to a positive integer lies around it, and above it only by less than a half. -/
theorem lround_eq_iff_of_pos (hn : 0 < n) : lround x = n ↔ (n : R) - 1 / 2 ≤ x ∧ x < n + 1 / 2 := by
  have hn' : (1 : R) ≤ n := by exact_mod_cast hn
  rcases le_or_gt 0 x with hx | hx
  · exact lround_eq_iff_of_nonneg hx
  · constructor
    · intro h
      have := lround_nonpos hx.le
      omega
    · rintro ⟨h, -⟩
      linarith

/-- **The distance from an integer**: it is rounded to the distance of what the number is rounded to, but for
halves below the integer. -/
theorem lround_sub (hlow : (n : R) - 1 / 2 ≤ x) (hhigh : x < n + 1 / 2) :
    lround (x - k) = if x + 1 / 2 = n ∧ n ≤ k then n - k - 1 else n - k := by
  rcases le_or_gt 0 (x - k) with hx | hx
  · have hnot : ¬(x + 1 / 2 = n ∧ n ≤ k) := by
      rintro ⟨hhalf, hle⟩
      have : (n : R) ≤ k := by exact_mod_cast hle
      linarith
    rw [if_neg hnot, lround_eq_iff_of_nonneg hx, Int.cast_sub]
    constructor <;> linarith
  · have hle : n ≤ k := by
      by_contra hlt
      have : (k : R) + 1 ≤ n := by exact_mod_cast not_le.1 hlt
      linarith
    rw [lround_eq_iff_of_neg hx]
    split
    · next h =>
      rw [Int.cast_sub, Int.cast_sub, Int.cast_one]
      constructor <;> linarith [h.1]
    · next h =>
      have hne : x + 1 / 2 ≠ n := fun heq => h ⟨heq, hle⟩
      have hlt : (n : R) < x + 1 / 2 := lt_of_le_of_ne (by linarith) hne.symm
      rw [Int.cast_sub]
      constructor <;> linarith

end Rounding

end Redux.Lib
