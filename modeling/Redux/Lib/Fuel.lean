import Mathlib.Data.Nat.Basic
import Mathlib.Data.Option.Basic
import Mathlib.Order.Lattice

/-!
# Lib.Fuel — results that enough rounds lead to

A computation whose loops may not end is a function of the rounds that they have, `none` if they are too
few.  It settles on a result if that is what all numbers of rounds from some number on give.
-/

namespace Redux.Lib

section Fuel

variable {α β : Type*} {f : ℕ → Option α} {g : α → ℕ → Option β} {a a' : α} {b : β}

/-- With enough rounds, the result is `a`. -/
def Settles (f : ℕ → Option α) (a : α) : Prop := ∃ n, ∀ fuel, n ≤ fuel → f fuel = some a

theorem settles_some (a : α) : Settles (fun _ => some a) a := ⟨0, fun _ _ => rfl⟩

theorem Settles.unique (h : Settles f a) (h' : Settles f a') : a = a' := by
  obtain ⟨n, hn⟩ := h
  obtain ⟨n', hn'⟩ := h'
  exact Option.some.inj ((hn _ (le_max_left n n')).symm.trans (hn' _ (le_max_right n n')))

/-- No number of rounds is enough. -/
theorem not_settles (h : ∀ fuel, f fuel = none) : ¬Settles f a := by
  rintro ⟨n, hn⟩
  exact absurd ((h n).symm.trans (hn n le_rfl)) (Option.some_ne_none a).symm

/-- **One computation after the other** settles on what the second one does, once the first one has settled. -/
theorem Settles.bind_iff (h : Settles f a) : Settles (fun fuel => (f fuel).bind fun a => g a fuel) b ↔
    Settles (g a) b := by
  obtain ⟨n, hn⟩ := h
  constructor
  · rintro ⟨n', hn'⟩
    refine ⟨max n n', fun fuel hfuel => ?_⟩
    have hbind : (f fuel).bind (fun a => g a fuel) = some b := hn' fuel (le_trans (le_max_right n n') hfuel)
    rwa [hn fuel (le_trans (le_max_left n n') hfuel), Option.bind_some] at hbind
  · rintro ⟨n', hn'⟩
    refine ⟨max n n', fun fuel hfuel => ?_⟩
    show (f fuel).bind (fun a => g a fuel) = some b
    rw [hn fuel (le_trans (le_max_left n n') hfuel), Option.bind_some, hn' fuel (le_trans (le_max_right n n') hfuel)]

theorem Settles.map (h : Settles f a) (k : α → β) : Settles (fun fuel => (f fuel).map k) (k a) := by
  obtain ⟨n, hn⟩ := h
  exact ⟨n, fun fuel hfuel => by simp only [hn fuel hfuel, Option.map_some]⟩

/-- **A result that more rounds do not change.** -/
theorem Settles.of_succ {n : ℕ} (h : f n = some a) (hmore : ∀ fuel, f fuel = some a → f (fuel + 1) = some a) :
    Settles f a := by
  refine ⟨n, fun fuel hfuel => ?_⟩
  induction fuel, hfuel using Nat.le_induction with
  | base => exact h
  | succ fuel _ ih => exact hmore fuel ih

end Fuel

end Redux.Lib
