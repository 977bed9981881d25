import Mathlib.Data.List.Infix
import Mathlib.Order.Bounds.Basic

/-!
# Lib.Stretches — how long a list keeps to a predicate

A stretch is a part of a list without gaps, all of whose elements satisfy a predicate.  One that does not satisfy it
ends the stretches before it: the longest stretch is the longer one of those on its two sides (`Longest.append_cons`).
-/

namespace Redux.Lib.Stretches

variable {α : Type*} {p : α → Bool} {l a b data : List α} {x : α} {k k' : ℕ}

structure Stretch (p : α → Bool) (l data : List α) : Prop where
  part : l <:+: data
  all : ∀ y ∈ l, p y = true

/-- `k` is the length of the longest stretch. -/
def Longest (p : α → Bool) (data : List α) (k : ℕ) : Prop := IsGreatest {n | ∃ l, Stretch p l data ∧ l.length = n} k

theorem Stretch.length_le (h : Stretch p l data) (hk : Longest p data k) : l.length ≤ k := hk.2 ⟨l, h, rfl⟩

theorem Longest.unique (h : Longest p data k) (h' : Longest p data k') : k = k' := IsGreatest.unique h h'

/-- Where all elements satisfy the predicate. -/
theorem longest_of_all (h : ∀ y ∈ data, p y = true) : Longest p data data.length := by
  refine ⟨⟨data, ⟨List.infix_refl data, h⟩, rfl⟩, ?_⟩
  rintro _ ⟨l, hl, rfl⟩
  exact hl.part.length_le

/-- **A stretch does not go past an element that does not satisfy the predicate.** -/
theorem stretch_append_cons (hx : p x = false) : Stretch p l (a ++ x :: b) ↔ Stretch p l a ∨ Stretch p l b := by
  have hnot : ∀ {t : List α}, (∀ y ∈ t, p y = true) → t <+: x :: b → t = [] := by
    intro t ht hprefix
    rcases List.prefix_cons_iff.1 hprefix with hnil | ⟨s, rfl, -⟩
    · exact hnil
    · exact absurd (ht x List.mem_cons_self) (by rw [hx]; exact Bool.false_ne_true)
  constructor
  · rintro ⟨hpart, hall⟩
    rcases List.infix_append_iff.1 hpart with hleft | hright | ⟨s, t, rfl, hs, ht⟩
    · exact .inl ⟨hleft, hall⟩
    · rcases List.infix_cons_iff.1 hright with hprefix | hb
      · rw [hnot hall hprefix]
        exact .inl ⟨List.nil_infix, fun _ h => absurd h List.not_mem_nil⟩
      · exact .inr ⟨hb, hall⟩
    · have hnil := hnot (fun y hy => hall y (List.mem_append_right s hy)) ht
      rw [hnil, List.append_nil] at hall ⊢
      exact .inl ⟨hs.isInfix, hall⟩
  · rintro (h | h)
    · exact ⟨h.part.trans (List.prefix_append a (x :: b)).isInfix, h.all⟩
    · exact ⟨h.part.trans ((List.suffix_cons x b).trans (List.suffix_append a (x :: b))).isInfix, h.all⟩

/-- **The longest stretch is on one of the sides of an element that does not satisfy the predicate.** -/
theorem Longest.append_cons (ha : Longest p a k) (hb : Longest p b k') (hx : p x = false) :
    Longest p (a ++ x :: b) (max k k') := by
  have hset : {n | ∃ l, Stretch p l (a ++ x :: b) ∧ l.length = n} =
      {n | ∃ l, Stretch p l a ∧ l.length = n} ∪ {n | ∃ l, Stretch p l b ∧ l.length = n} := by
    ext n
    simp only [Set.mem_ofPred_eq, Set.mem_union, stretch_append_cons hx, or_and_right, exists_or]
  rw [Longest, hset]
  exact IsGreatest.union ha hb

/-- What is behind the last element that does not satisfy the predicate. -/
theorem exists_tail (p : α → Bool) : ∀ data : List α,
    (∀ y ∈ data, p y = true) ∨ ∃ a x b, data = a ++ x :: b ∧ p x = false ∧ ∀ y ∈ b, p y = true
  | [] => .inl fun _ h => absurd h List.not_mem_nil
  | y :: data => by
    rcases exists_tail p data with hall | ⟨a, x, b, rfl, hx, hb⟩
    · cases hy : p y with
      | true => exact .inl (List.forall_mem_cons.2 ⟨hy, hall⟩)
      | false => exact .inr ⟨[], y, data, rfl, hy, hall⟩
    · exact .inr ⟨y :: a, x, b, rfl, hx, hb⟩

end Redux.Lib.Stretches
