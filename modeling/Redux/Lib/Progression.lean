import Mathlib.Algebra.Group.Basic
import Mathlib.Data.List.Basic
import Mathlib.Tactic.Abel

/-!
# Lib.Progression — loops in equal steps where the steps may wrap

A loop that goes from `f` in steps of `σ` as long as `stays` holds, over a group: nothing is said of
how the steps and the condition fit, so that the numbers may wrap.  `EndsAfter` says how often it runs.
A sequence that is written as its first element, its step and its last element, and read by such a loop
upwards or, turned around, from the last element, is read as far as the three lemmas of the last
section say, when it is read with elements missing before it.
-/

namespace Redux.Lib

section Loop

variable {G : Type*} [AddCommGroup G] {stays : G → Prop} {f σ : G} {d m : ℕ}

/-- The loop from `f` in steps of `σ` ends after `m` rounds. -/
structure EndsAfter (stays : G → Prop) (f σ : G) (m : ℕ) : Prop where
  going : ∀ i < m, stays (f + i • σ)
  ended : ¬stays (f + m • σ)

/-- A loop that comes back to where it was does not end. -/
theorem EndsAfter.nsmul_ne_zero (h : EndsAfter stays f σ m) (hd : 0 < d) (hdm : d ≤ m) : d • σ ≠ 0 := by
  intro hzero
  have hback : f + m • σ = f + (m - d) • σ := by
    conv_lhs => rw [← Nat.sub_add_cancel hdm, add_nsmul, hzero, add_zero]
  have hended := h.ended
  rw [hback] at hended
  exact hended (h.going (m - d) (by omega))

end Loop

section Value

variable {G : Type*} [AddCommGroup G] {a b σ : G}

/-- A sequence that goes on from `a`, `b` in steps of `σ`. -/
def runValue (a b σ : G) : ℕ → G
  | 0 => a
  | i + 1 => b + i • σ

@[simp] theorem runValue_zero : runValue a b σ 0 = a := rfl

@[simp] theorem runValue_one : runValue a b σ 1 = b := by rw [runValue, zero_nsmul, add_zero]

theorem runValue_of_eq (hb : b = a + σ) : ∀ i, runValue a b σ i = a + i • σ
  | 0 => by rw [runValue, zero_nsmul, add_zero]
  | i + 1 => by rw [runValue, hb, succ_nsmul]; abel

theorem runValue_two : runValue a b σ 2 = b + σ := by rw [runValue, one_nsmul]

end Value

/-! ## Reading with elements missing

`d` elements are missing before the sequence, `n` were written, `m` are read. -/

section Caught

variable {G : Type*} [AddCommGroup G] {stays : G → Prop} {a b σ : G} {d n m : ℕ}

/-- Read upwards. -/
theorem caught_upwards (h : EndsAfter stays a σ m) (hlast : stays (runValue a b σ (n - 1)))
    (hn : 3 ≤ n) (hd : d = 0 ∨ 2 ≤ d) (hread : ∀ j < n, d + j < m → a + (d + j) • σ = runValue a b σ j)
    (hstop : d = 0 → n < m → a + n • σ ≠ runValue a b σ n) :
    (d = 0 ∧ m = n) ∨ m + 2 ≤ d + n := by
  by_contra hcon
  have hm : d + n ≤ m + 1 ∧ ¬(d = 0 ∧ m = n) := by omega
  rcases hd with rfl | hd
  · have hb : b = a + σ := by
      have h1 := hread 1 (by omega) (by omega)
      rw [Nat.zero_add, one_nsmul, runValue_one] at h1
      exact h1.symm
    rcases Nat.lt_or_ge n m with hlt | hge
    · exact hstop rfl hlt (runValue_of_eq hb n).symm
    · -- one element too few: the loop would not have ended at the last one
      have hmn : m = n - 1 := by omega
      have hended := h.ended
      rw [hmn, ← runValue_of_eq hb] at hended
      exact hended hlast
  · have h0 := hread 0 (by omega) (by omega)
    rw [Nat.add_zero] at h0
    exact h.nsmul_ne_zero (by omega) (by omega) (add_eq_left.1 h0)

/-- Read from the last element up in steps of `σ`, and turned around. -/
theorem caught_turned (h : EndsAfter stays (runValue a b σ (n - 1)) σ m) (hn : 3 ≤ n)
    (hne : runValue a b σ (n - 1) ≠ a)
    (hread : ∀ j < n, d + j < m → runValue a b σ (n - 1) + (m - 1 - (d + j)) • σ = runValue a b σ j) :
    m + 2 ≤ d + n := by
  by_contra hcon
  have h0 := hread 0 (by omega) (by omega)
  have h1 := hread 1 (by omega) (by omega)
  have hb : a = b + σ := by
    have hsucc : m - 1 - (d + 0) = m - 1 - (d + 1) + 1 := by omega
    rw [hsucc, succ_nsmul, ← add_assoc, h1, runValue_one, runValue_zero] at h0
    exact h0.symm
  rcases Nat.lt_or_ge 3 n with h4 | h3
  · have h2 := hread 2 (by omega) (by omega)
    have hsucc : m - 1 - (d + 0) = m - 1 - (d + 2) + 2 := by omega
    rw [hsucc, add_nsmul, ← add_assoc, h2, runValue_two, ← hb] at h0
    exact h.nsmul_ne_zero (by omega) (by omega) (add_eq_left.1 h0)
  · -- of three elements the last one is the first one
    have hn3 : n = 3 := by omega
    rw [hn3, runValue_two, ← hb] at hne
    exact hne rfl

/-- Read from the last element up in steps of `-σ`, and turned around. -/
theorem caught_downwards (h : EndsAfter stays (runValue a b σ (n - 1)) (-σ) m) (hn : 3 ≤ n)
    (hd : d = 0 ∨ 2 ≤ d)
    (hread : ∀ j < n, d + j < m → runValue a b σ (n - 1) + (m - 1 - (d + j)) • (-σ) = runValue a b σ j)
    (hprev : 2 ≤ d → d < m → b = a + σ →
      runValue a b σ (n - 1) + (m - 1 - (d - 1)) • (-σ) = a - σ →
      runValue a b σ (n - 1) + (m - 1 - (d - 2)) • (-σ) = a - 2 • σ → False) :
    (d = 0 ∧ m = n) ∨ m + 2 ≤ d + n := by
  by_contra hcon
  have hm : d + n ≤ m + 1 ∧ ¬(d = 0 ∧ m = n) := by omega
  have h0 := hread 0 (by omega) (by omega)
  have h1 := hread 1 (by omega) (by omega)
  have hb : b = a + σ := by
    have hsucc : m - 1 - (d + 0) = m - 1 - (d + 1) + 1 := by omega
    rw [hsucc, succ_nsmul, ← add_assoc, h1, runValue_one, runValue_zero] at h0
    rw [← h0]
    abel
  rcases hd with rfl | hd
  · -- the first element is as many steps from the last one as are read
    have hsteps : (n - 1) • σ = (m - 1) • σ := by
      rw [runValue_of_eq hb, neg_nsmul, add_assoc, Nat.add_zero, Nat.sub_zero, runValue_zero,
        add_eq_left, ← sub_eq_add_neg, sub_eq_zero] at h0
      exact h0
    have hperiod : ∀ k, 0 < k → k ≤ m → k • σ = 0 → False := fun k hk hkm hzero =>
      h.nsmul_ne_zero hk hkm (by rw [neg_nsmul, hzero, neg_zero])
    rcases Nat.lt_or_ge n m with hlt' | hge
    · refine hperiod (m - n) (by omega) (by omega) ?_
      have hsum : m - 1 = (m - n) + (n - 1) := by omega
      rw [hsum, add_nsmul] at hsteps
      exact add_eq_right.1 hsteps.symm
    · refine hperiod 1 (by omega) (by omega) ?_
      have hsum : n - 1 = 1 + (m - 1) := by omega
      rw [hsum, add_nsmul] at hsteps
      exact add_eq_right.1 hsteps
  · have ha : runValue a b σ (n - 1) + (m - 1 - (d + 0)) • (-σ) = a := h0
    refine hprev hd (by omega) hb ?_ ?_
    · have hsucc : m - 1 - (d - 1) = m - 1 - (d + 0) + 1 := by omega
      rw [hsucc, succ_nsmul, ← add_assoc, ha, sub_eq_add_neg]
    · have hsucc : m - 1 - (d - 2) = m - 1 - (d + 0) + 2 := by omega
      rw [hsucc, add_nsmul, ← add_assoc, ha, sub_eq_add_neg, neg_nsmul]

end Caught

end Redux.Lib
