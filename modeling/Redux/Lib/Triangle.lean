import Mathlib.Algebra.Ring.Nat
import Mathlib.Tactic.Ring

/-!
# Lib.Triangle — numbers in rows that grow by one

The positive numbers written in rows of one, two, three and more numbers.  Each has exactly one place, and
who comes later is in a later row, or further on in the same one.
-/

namespace Redux.Lib

/-- How many numbers there are before a row. -/
def before : ℕ → ℕ
  | 0 => 0
  | n + 1 => before n + (n + 1)

/-- A number is the `k`-th of its row. -/
structure Stands (j n k : ℕ) : Prop where
  eq : j = before n + k
  pos : 1 ≤ k
  le : k ≤ n + 1

section Triangle

variable {j j' n n' k k' : ℕ}

theorem before_succ (n : ℕ) : before (n + 1) = before n + (n + 1) := rfl

theorem two_mul_before (n : ℕ) : 2 * before n = n * (n + 1) := by
  induction n with
  | zero => rfl
  | succ n ih =>
    rw [before, Nat.mul_add, ih]
    ring

theorem before_mono (h : n ≤ n') : before n ≤ before n' := by
  induction h with
  | refl => exact le_rfl
  | step _ ih => exact ih.trans (Nat.le_add_right _ _)

namespace Stands

theorem le_before_succ (h : Stands j n k) : j ≤ before (n + 1) := by
  rw [h.eq, before_succ]
  exact Nat.add_le_add_left h.le _

theorem before_lt (h : Stands j n k) : before n < j := by
  have hpos := h.pos
  rw [h.eq]
  omega

/-- **Who comes later is not in an earlier row.** -/
theorem row_le (h : Stands j n k) (h' : Stands j' n' k') (hle : j ≤ j') : n ≤ n' := by
  by_contra hlt
  have hrow := @before_mono (n' + 1) n (by omega)
  have hfirst := h.before_lt
  have hlast := h'.le_before_succ
  omega

theorem pos_of (h : Stands j n k) : 1 ≤ j := by
  have hpos := h.pos
  rw [h.eq]
  omega

end Stands

/-- **Every positive number has a place.** -/
theorem exists_stands (h : 1 ≤ j) : ∃ n k, Stands j n k := by
  induction j with
  | zero => exact absurd h (by decide)
  | succ j ih =>
    by_cases hj : 1 ≤ j
    · obtain ⟨n, k, hat⟩ := ih hj
      have heq := hat.eq
      have hle := hat.le
      by_cases hlast : k = n + 1
      · exact ⟨n + 1, 1, by rw [before_succ]; omega, le_rfl, by omega⟩
      · exact ⟨n, k + 1, by omega, by omega, by omega⟩
    · exact ⟨0, 1, by rw [before]; omega, le_rfl, le_rfl⟩

/-- A number that is not beyond a row stands in it or before it. -/
theorem Stands.row_le_iff (h : Stands j n k) : n ≤ n' ↔ j ≤ before (n' + 1) := by
  constructor
  · intro hn
    exact h.le_before_succ.trans (before_mono (Nat.succ_le_succ hn))
  · intro hj
    by_contra hlt
    have hrow := @before_mono (n' + 1) n (by omega)
    have hfirst := h.before_lt
    omega

end Triangle

end Redux.Lib
