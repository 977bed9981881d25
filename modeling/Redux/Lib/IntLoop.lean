import Mathlib.Algebra.BigOperators.Group.Finset.Basic
import Mathlib.Algebra.Order.Group.Int
import Mathlib.Algebra.Order.Interval.Finset.SuccPred
import Mathlib.Data.Int.ConditionallyCompleteOrder
import Mathlib.Data.Int.Interval
import Mathlib.Data.Int.SuccPred

/-!
# Lib.IntLoop — loops over a variable of a signed type

The loop `for( int i = begin; i < stop; ++i ) body`: a round more than the type has numbers is undefined.  A body
that may fail, and otherwise adds to a sum what depends on `i` alone, leaves the sum over all `i` if none of them
fails (`countUp_add`).  A loop with such a body is one again, so loops inside each other are taken apart with the
same rule.
-/

namespace Redux.Lib

/-- `for( i = begin; i < stop; ++i ) body` for the `n` rounds from `begin` to `stop`, in a type up to `top`; `none` if
a body fails or `++i` overflows. -/
def countUp {σ : Type*} (top : ℤ) (body : ℤ → σ → Option σ) : ℕ → ℤ → σ → Option σ
  | 0, _, s => some s
  | n + 1, i, s => (body i s).bind fun s => if i = top then none else countUp top body n (i + 1) s

section CountUp

variable {S : Type*} [AddCommMonoid S] {top : ℤ} {body : ℤ → S → Option S} {ok : ℤ → Prop} [DecidablePred ok]
  {term : ℤ → S}

/-- **A body that adds**: the loop adds up its rounds. -/
theorem countUp_add (hbody : ∀ i s, body i s = if ok i then some (s + term i) else none) {stop : ℤ} :
    ∀ {n : ℕ} {i : ℤ} (s : S), n = (stop - i).toNat → countUp top body n i s =
      if (∀ j ∈ Finset.Ico i stop, ok j) ∧ (i < stop → i ≤ top → stop ≤ top) then
        some (s + ∑ j ∈ Finset.Ico i stop, term j)
      else none
  | 0, i, s, hn => by
    have hstop : stop ≤ i := by omega
    rw [countUp, Finset.Ico_eq_empty (by omega), if_pos ⟨by simp, by omega⟩, Finset.sum_empty, add_zero]
  | n + 1, i, s, hn => by
    have hstop : i < stop := by omega
    have hnot : i ∉ Finset.Ico (i + 1) stop := by simp
    rw [countUp, hbody, ← Finset.insert_Ico_add_one_left_eq_Ico hstop, Finset.sum_insert hnot, ← add_assoc]
    simp only [Finset.forall_mem_insert]
    by_cases hok : ok i
    · rw [if_pos hok, Option.bind_some]
      by_cases htop : i = top
      · rw [if_pos htop, if_neg]
        omega
      · rw [if_neg htop, @countUp_add hbody stop n (i + 1) (s + term i) (by omega)]
        refine if_congr ?_ rfl rfl
        refine ⟨fun h => ⟨⟨hok, h.1⟩, fun _ hle => ?_⟩, fun h => ⟨h.1.2, fun hlt hle => h.2 hstop (by omega)⟩⟩
        rcases lt_or_ge (i + 1) stop with hlt | hge
        · exact h.2 hlt (by omega)
        · omega
    · rw [if_neg hok, Option.bind_none, if_neg]
      exact fun h => hok h.1.1

end CountUp

end Redux.Lib
