import Mathlib.Data.Int.GCD
import Mathlib.Data.Int.ModEq
import Mathlib.Data.Nat.ModEq
import Mathlib.Tactic.Ring

/-!
# Lib.Residues — walks in equal steps around a circle

A walk from `a` in steps of `σ` modulo `N` comes by the numbers that leave the same remainder as `a` by
the greatest common divisor of `σ` and `N`, and by no others (`visits_iff`).  So it gets beyond a number
exactly if that is below the largest one of them (`passes_iff`).
-/

namespace Redux.Lib

section Residues

variable {N a b σ hi i : ℕ}

/-- Where the walk is after `i` steps. -/
def residueAt (N a σ i : ℕ) : ℕ := (a + i * σ) % N

theorem residueAt_zero (h : a < N) : residueAt N a σ 0 = a := by
  rw [residueAt, Nat.zero_mul, Nat.add_zero, Nat.mod_eq_of_lt h]

theorem residueAt_succ : residueAt N a σ (i + 1) = (residueAt N a σ i + σ) % N := by
  rw [residueAt, residueAt, Nat.mod_add_mod, Nat.succ_mul, Nat.add_assoc]

/-- Multiples of `σ` come by every multiple of the greatest common divisor. -/
theorem exists_mul_modEq (hN : 0 < N) (k : ℤ) : ∃ i : ℕ, (i * σ : ℤ) ≡ σ.gcd N * k [ZMOD N] := by
  have hNz : (N : ℤ) ≠ 0 := by exact_mod_cast hN.ne'
  refine ⟨((σ.gcdA N * k) % N).toNat, ?_⟩
  rw [Int.toNat_of_nonneg (Int.emod_nonneg _ hNz)]
  have hmod : (σ.gcdA N * k) % N ≡ σ.gcdA N * k [ZMOD N] := Int.mod_modEq _ _
  refine (hmod.mul_right (σ : ℤ)).trans ?_
  rw [Nat.gcd_eq_gcd_ab σ N, Int.modEq_iff_dvd]
  exact ⟨σ.gcdB N * k, by ring⟩

/-- **The numbers that the walk comes by.** -/
theorem visits_iff (hb : b < N) : (∃ i, residueAt N a σ i = b) ↔ b ≡ a [MOD σ.gcd N] := by
  constructor
  · rintro ⟨i, rfl⟩
    have hdvd : i * σ ≡ 0 [MOD σ.gcd N] :=
      (Nat.modEq_zero_iff_dvd).2 (Dvd.dvd.mul_left (Nat.gcd_dvd_left σ N) i)
    have hmod : residueAt N a σ i ≡ a + i * σ [MOD σ.gcd N] :=
      (Nat.mod_modEq _ N).of_dvd (Nat.gcd_dvd_right σ N)
    exact hmod.trans (hdvd.add_left a)
  · intro h
    obtain ⟨k, hk⟩ := (Nat.modEq_iff_dvd).1 h.symm
    obtain ⟨i, hi⟩ := @exists_mul_modEq N σ (by omega) k
    refine ⟨i, ?_⟩
    have hsum : ((a + i * σ : ℕ) : ℤ) ≡ (b : ℕ) [ZMOD N] := by
      have hshift := hi.add_left (a : ℤ)
      rw [← hk] at hshift
      push_cast
      rwa [add_sub_cancel] at hshift
    exact Nat.mod_eq_of_modEq ((Int.natCast_modEq_iff).1 hsum) hb

/-- The largest number that the walk comes by. -/
def farthest (N a σ : ℕ) : ℕ := N - σ.gcd N + a % σ.gcd N

theorem farthest_lt (hN : 0 < N) : farthest N a σ < N := by
  have hpos : 0 < σ.gcd N := Nat.gcd_pos_of_pos_right σ hN
  have hle : σ.gcd N ≤ N := Nat.le_of_dvd hN (Nat.gcd_dvd_right σ N)
  have hmod := Nat.mod_lt a hpos
  unfold farthest
  omega

theorem le_farthest (hb : b < N) (h : b ≡ a [MOD σ.gcd N]) : b ≤ farthest N a σ := by
  have hN : 0 < N := by omega
  have hpos : 0 < σ.gcd N := Nat.gcd_pos_of_pos_right σ hN
  obtain ⟨q, hq⟩ := Nat.gcd_dvd_right σ N
  have hb' : σ.gcd N * (b / σ.gcd N) + b % σ.gcd N = b := Nat.div_add_mod b _
  have hdiv : b / σ.gcd N + 1 ≤ q := by
    by_contra hge
    have hle : σ.gcd N * q ≤ σ.gcd N * (b / σ.gcd N) := Nat.mul_le_mul_left _ (by omega)
    omega
  have hmul : σ.gcd N * (b / σ.gcd N) + σ.gcd N ≤ σ.gcd N * q := by
    rw [← Nat.mul_succ]
    exact Nat.mul_le_mul_left _ hdiv
  have hrem : b % σ.gcd N = a % σ.gcd N := h
  unfold farthest
  omega

theorem farthest_modEq (hN : 0 < N) : farthest N a σ ≡ a [MOD σ.gcd N] := by
  have hle : σ.gcd N ≤ N := Nat.le_of_dvd hN (Nat.gcd_dvd_right σ N)
  have hdvd : N - σ.gcd N ≡ 0 [MOD σ.gcd N] :=
    (Nat.modEq_zero_iff_dvd).2 (Nat.dvd_sub (Nat.gcd_dvd_right σ N) (dvd_refl _))
  have hsum := hdvd.add (Nat.mod_modEq a (σ.gcd N))
  rwa [Nat.zero_add] at hsum

/-- **The walk gets beyond `hi`** exactly if the largest number that it comes by does. -/
theorem passes_iff (hN : 0 < N) : (∃ i, hi < residueAt N a σ i) ↔ hi < farthest N a σ := by
  constructor
  · rintro ⟨i, hlt⟩
    have hres : residueAt N a σ i < N := Nat.mod_lt _ hN
    exact hlt.trans_le (le_farthest hres ((visits_iff hres).1 ⟨i, rfl⟩))
  · intro h
    obtain ⟨i, hres⟩ := (visits_iff (farthest_lt hN)).2 (farthest_modEq (a := a) (σ := σ) hN)
    exact ⟨i, by rwa [hres]⟩

end Residues

end Redux.Lib
