import Mathlib.Algebra.BigOperators.Group.Finset.Basic

/-!
# Lib.Factors — loops that multiply

A loop whose every step multiplies the state by a factor of its own, or fails.
-/

namespace Redux.Lib

section Factors

variable {M : Type*} [CommMonoid M] {step : M → ℕ → Option M} {ok : ℕ → Prop} [DecidablePred ok] {factor : ℕ → M}

end Factors

end Redux.Lib
