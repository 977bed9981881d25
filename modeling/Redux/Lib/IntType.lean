import Mathlib.Algebra.Order.Ring.Int
import Mathlib.Data.Int.ModEq
import Mathlib.Tactic.Positivity
import Mathlib.Tactic.Ring

/-!
# Lib.IntType — integer types of a fixed width

The types `uint8_t`, `int`, `int64_t` and so on, with the arithmetic of C: operands narrower than `int` are
promoted to it (`promoted`), a result beyond a signed type is undefined and one beyond an unsigned type is
reduced (`arith`), and a value that is stored in a type is reduced to it (`wrap`).
-/

namespace Redux.Lib

structure IntType where
  bits : ℕ
  signed : Bool
  pos : 0 < bits

namespace IntType

section Model

variable (t : IntType)

def lowest : ℤ := if t.signed then -2 ^ (t.bits - 1) else 0

def highest : ℤ := if t.signed then 2 ^ (t.bits - 1) - 1 else 2 ^ t.bits - 1

def Fits (x : ℤ) : Prop := t.lowest ≤ x ∧ x ≤ t.highest

instance (x : ℤ) : Decidable (t.Fits x) := inferInstanceAs (Decidable (_ ∧ _))

/-- The number of the type that is `x` modulo its size. -/
def wrap (x : ℤ) : ℤ := if t.signed then x.bmod (2 ^ t.bits) else x % 2 ^ t.bits

def int : IntType := ⟨32, true, by decide⟩

/-- The type in which the operands of this one are added, multiplied and so on. -/
def promoted : IntType := if t.bits < 32 then int else t

/-- The result of an operation in the type, if it has one. -/
def arith (x : ℤ) : Option ℤ :=
  if t.Fits x then some x else if t.signed then none else some (t.wrap x)

end Model

section Lemmas

variable {t : IntType} {x : ℤ}

theorem size_eq (t : IntType) : (2 : ℤ) ^ t.bits = 2 * 2 ^ (t.bits - 1) := by
  rw [← pow_succ', Nat.sub_add_cancel t.pos]

theorem half_pos (t : IntType) : (0 : ℤ) < 2 ^ (t.bits - 1) := pow_pos two_pos _

/-- **What is stored fits.** -/
theorem fits_wrap (t : IntType) (x : ℤ) : t.Fits (t.wrap x) := by
  have hsize := t.size_eq
  have hpos := t.half_pos
  have hcast : ((2 ^ t.bits : ℕ) : ℤ) = 2 ^ t.bits := by push_cast; rfl
  unfold Fits lowest highest wrap
  split_ifs
  · have hle := Int.le_bmod (x := x) (m := 2 ^ t.bits) (by positivity)
    have hlt := Int.bmod_lt (x := x) (m := 2 ^ t.bits) (by positivity)
    rw [hcast] at hle hlt
    omega
  · have hnonneg := Int.emod_nonneg x (b := 2 ^ t.bits) (by omega)
    have hlt := Int.emod_lt_of_pos x (b := 2 ^ t.bits) (by omega)
    omega

/-- **What fits is stored as it is.** -/
theorem wrap_of_fits (h : t.Fits x) : t.wrap x = x := by
  have hsize := t.size_eq
  have hpos := t.half_pos
  have hcast : ((2 ^ t.bits : ℕ) : ℤ) = 2 ^ t.bits := by push_cast; rfl
  unfold Fits lowest highest at h
  unfold wrap
  split_ifs at h ⊢
  · refine Int.bmod_eq_of_le ?_ ?_
    · rw [hcast]
      omega
    · rw [hcast]
      omega
  · exact Int.emod_eq_of_lt h.1 (by omega)

theorem wrap_emod (t : IntType) (x : ℤ) : t.wrap x % 2 ^ t.bits = x % 2 ^ t.bits := by
  have hcast : ((2 ^ t.bits : ℕ) : ℤ) = 2 ^ t.bits := by push_cast; rfl
  unfold wrap
  split_ifs
  · rw [← hcast, Int.bmod_emod]
  · exact Int.emod_emod_of_dvd _ dvd_rfl

theorem wrap_congr {y : ℤ} (h : x ≡ y [ZMOD 2 ^ t.bits]) : t.wrap x = t.wrap y := by
  have hcast : ((2 ^ t.bits : ℕ) : ℤ) = 2 ^ t.bits := by push_cast; rfl
  unfold wrap Int.bmod
  rw [hcast, show x % 2 ^ t.bits = y % 2 ^ t.bits from h]

/-- The distance to what is stored is a multiple of the size of the type. -/
theorem exists_wrap (t : IntType) (x : ℤ) : ∃ k : ℤ, x = t.wrap x + k * 2 ^ t.bits := by
  obtain ⟨k, hk⟩ := Int.modEq_iff_dvd.1 (t.wrap_emod x)
  exact ⟨k, by rw [mul_comm, ← hk]; ring⟩

/-- What fits a type fits the one that it is promoted to. -/
theorem Fits.promoted (h : t.Fits x) : t.promoted.Fits x := by
  unfold IntType.promoted
  split_ifs with hlt
  · have hsize := t.size_eq
    have hpos := t.half_pos
    have hle : (2 : ℤ) ^ t.bits ≤ 2 ^ 31 := pow_le_pow_right₀ (by decide) (by omega)
    unfold Fits lowest highest at h
    show -2 ^ 31 ≤ x ∧ x ≤ 2 ^ 31 - 1
    split_ifs at h
    · omega
    · omega
  · exact h

end Lemmas

/-! ## Numbers of a type -/

abbrev Value (t : IntType) := { x : ℤ // t.Fits x }

/-- A number stored in the type. -/
def cast (t : IntType) (x : ℤ) : t.Value := ⟨t.wrap x, t.fits_wrap x⟩

section Cast

variable {t : IntType} {x : ℤ}

theorem cast_value (v : t.Value) : t.cast v = v := Subtype.ext (wrap_of_fits v.2)

theorem promoted_of_unsigned (h : t.promoted.signed = false) : t.promoted = t := by
  unfold promoted at h ⊢
  split_ifs at h ⊢
  · exact absurd h Bool.noConfusion
  · rfl

/-- **The result of an operation, stored in the type of its operands.** -/
theorem arith_cast (t : IntType) (x : ℤ) : (t.promoted.arith x).map t.cast =
    if t.promoted.Fits x ∨ t.promoted.signed = false then some (t.cast x) else none := by
  unfold arith
  by_cases hfits : t.promoted.Fits x
  · rw [if_pos hfits, if_pos (.inl hfits)]
    rfl
  · rw [if_neg hfits]
    cases hsigned : t.promoted.signed with
    | true => simp [hfits]
    | false =>
      rw [promoted_of_unsigned hsigned, if_neg Bool.false_ne_true, if_pos (.inr rfl), Option.map_some]
      exact congrArg some (cast_value (t.cast x))

end Cast

end IntType

end Redux.Lib
