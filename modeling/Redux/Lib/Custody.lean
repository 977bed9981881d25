import Mathlib.Algebra.Order.Monoid.Unbundled.Basic
import Mathlib.Data.List.Basic
import Mathlib.Tactic.SplitIfs

/-!
# Lib.Custody — tokens that at most one place holds

A system hands tokens out, moves them between places and takes them back.  `held i` counts the places
that hold token `i`; `Custody` says that no token is held twice and that only tokens handed out are
held.  A place is usually an entry of a list, so the counts are counts in lists, which the second half
follows through the changes of a list.
-/

namespace Redux.Lib

section Custody

variable {ι : Type*} {held held' : ι → ℕ} {out out' : ι → Prop}

/-- No token is held twice, and a token that is held is out. -/
structure Custody (held : ι → ℕ) (out : ι → Prop) : Prop where
  le_one : ∀ i, held i ≤ 1
  out : ∀ i, held i ≠ 0 → out i

/-- Places are given up, and the tokens still held stay out. -/
theorem Custody.mono (h : Custody held out) (hle : ∀ i, held' i ≤ held i)
    (hout : ∀ i, held' i ≠ 0 → out i → out' i) : Custody held' out' where
  le_one i := (hle i).trans (h.le_one i)
  out i hi := hout i hi (h.out i fun h0 => hi (Nat.le_zero.mp (h0 ▸ hle i)))

/-- A token that is not out is handed out to one place. -/
theorem Custody.hand [DecidableEq ι] (h : Custody held out) {p : ι} (hp : ¬ out p)
    (hheld : ∀ i, held' i = held i + if i = p then 1 else 0) (hout : ∀ i, i = p ∨ out i → out' i) :
    Custody held' out' := by
  have h0 : held p = 0 := by
    by_contra hne
    exact hp (h.out p hne)
  constructor
  · intro i
    have := h.le_one i
    rw [hheld]
    split_ifs with hi
    · subst hi; omega
    · omega
  · intro i hi
    by_cases hip : i = p
    · exact hout i (.inl hip)
    · rw [hheld, if_neg hip, Nat.add_zero] at hi
      exact hout i (.inr (h.out i hi))

/-- The place that holds a token gives it back: no other place holds it. -/
theorem Custody.giveBack [DecidableEq ι] (h : Custody held out) {p : ι}
    (hheld : ∀ i, held' i + (if i = p then 1 else 0) = held i) (hout : ∀ i, i ≠ p → out i → out' i) :
    Custody held' out' := by
  constructor
  · intro i
    have := h.le_one i
    have := hheld i
    omega
  · intro i hi
    have hne : i ≠ p := by
      rintro rfl
      have h₁ := h.le_one i
      have h₂ := hheld i
      rw [if_pos rfl] at h₂
      omega
    have hi' := hheld i
    rw [if_neg hne, Nat.add_zero] at hi'
    exact hout i hne (h.out i (hi' ▸ hi))

end Custody

section Lists

variable {α : Type*} {l : List α} {a b : α} {k : ℕ} (p : α → Bool)

theorem countP_eraseIdx (h : l[k]? = some a) :
    (l.eraseIdx k).countP p + (if p a then 1 else 0) = l.countP p := by
  induction l generalizing k with
  | nil => simp at h
  | cons c l ih =>
    cases k with
    | zero =>
      obtain rfl : c = a := by simpa using h
      rw [List.eraseIdx_cons_zero, List.countP_cons]
    | succ k =>
      have := ih (k := k) (by simpa using h)
      rw [List.eraseIdx_cons_succ, List.countP_cons, List.countP_cons]
      omega

theorem countP_set (h : l[k]? = some a) :
    (l.set k b).countP p + (if p a then 1 else 0) = l.countP p + if p b then 1 else 0 := by
  induction l generalizing k with
  | nil => simp at h
  | cons c l ih =>
    cases k with
    | zero =>
      obtain rfl : c = a := by simpa using h
      rw [List.set_cons_zero, List.countP_cons, List.countP_cons]
      omega
    | succ k =>
      have := ih (k := k) (by simpa using h)
      rw [List.set_cons_succ, List.countP_cons, List.countP_cons]
      omega

theorem countP_snoc : (l ++ [a]).countP p = l.countP p + if p a then 1 else 0 := by
  rw [List.countP_append, List.countP_singleton]

end Lists

end Redux.Lib
