import Mathlib.Algebra.Order.BigOperators.Group.List
import Mathlib.Algebra.Order.Ring.Nat
import Mathlib.Data.List.Range
import Mathlib.Data.List.Nodup

/-!
# Lib.Tally — what a list of items of work still owes

Each item owes an amount, and a step of the work changes one item.  `sum_map_set` says what becomes of the
total, `perm_range` when a list of numbers has all of them, and `getElem_iff_lt_countP` which items are the
first ones.
-/

namespace Redux.Lib

section Tally

variable {α M : Type*} [AddCommMonoid M] (f : α → M)

/-- **A step that changes one item changes its part of the total only.** -/
theorem sum_map_set {b : α} : ∀ {items : List α} {k : ℕ}, items[k]? = some b →
    ∃ rest, (items.map f).sum = f b + rest ∧ ∀ b', ((items.set k b').map f).sum = f b' + rest
  | [], k, h => by
    rw [List.getElem?_nil] at h
    exact absurd h.symm (Option.some_ne_none _)
  | item :: items, 0, h => by
    rw [List.getElem?_cons_zero, Option.some_inj] at h
    subst h
    exact ⟨(items.map f).sum, List.sum_cons, fun b' => List.sum_cons⟩
  | item :: items, k + 1, h => by
    rw [List.getElem?_cons_succ] at h
    obtain ⟨rest, hsum, hset⟩ := sum_map_set h
    refine ⟨f item + rest, ?_, fun b' => ?_⟩
    · rw [List.map_cons, List.sum_cons, hsum, add_left_comm]
    · rw [List.set_cons_succ, List.map_cons, List.sum_cons, hset, add_left_comm]

theorem forall_mem_set {P : α → Prop} {items : List α} {k : ℕ} {b : α} (h : ∀ a ∈ items, P a) (hb : P b) :
    ∀ a ∈ items.set k b, P a := fun a ha =>
  (List.mem_or_eq_of_mem_set ha).elim (h a) fun heq => heq ▸ hb

/-- A step that does not change what the item owes. -/
theorem sum_map_set_of_eq {f : α → M} {items : List α} {k : ℕ} {b b' : α} (h : items[k]? = some b)
    (heq : f b' = f b) : ((items.set k b').map f).sum = (items.map f).sum := by
  obtain ⟨rest, hsum, hset⟩ := sum_map_set f h
  rw [hset, heq, hsum]

theorem sum_map_concat {items : List α} {b : α} :
    ((items ++ [b]).map f).sum = (items.map f).sum + f b := by
  rw [List.map_append, List.sum_append, List.map_singleton, List.sum_singleton]

/-- What is owed by one item is no more than the total. -/
theorem le_sum_map {f : α → ℕ} {items : List α} {k : ℕ} {b : α} (h : items[k]? = some b) :
    f b ≤ (items.map f).sum :=
  List.le_sum_of_mem (List.mem_map_of_mem (List.mem_of_getElem? h))

theorem sum_map_eq_zero {f : α → M} {items : List α} (h : ∀ b ∈ items, f b = 0) : (items.map f).sum = 0 := by
  refine List.sum_eq_zero fun m hm => ?_
  obtain ⟨b, hb, rfl⟩ := List.mem_map.1 hm
  exact h b hb

/-- **Different numbers below `n` are all of them as soon as there are `n`.** -/
theorem perm_range {calls : List ℕ} {n : ℕ} (hnodup : calls.Nodup) (hlt : ∀ o ∈ calls, o < n)
    (hlen : calls.length = n) : calls.Perm (List.range n) := by
  refine (List.subperm_of_subset hnodup fun o ho => List.mem_range.2 (hlt o ho)).perm_of_length_le ?_
  rw [List.length_range, hlen]

theorem length_le_of_lt {calls : List ℕ} {n : ℕ} (hnodup : calls.Nodup) (hlt : ∀ o ∈ calls, o < n) :
    calls.length ≤ n := by
  have h := (List.subperm_of_subset hnodup fun o ho => List.mem_range.2 (hlt o ho)).length_le
  rwa [List.length_range] at h

/-- All items of a part are counted. -/
theorem countP_mem [DecidableEq α] {part items : List α} (hpart : part.Nodup) (hsub : part ⊆ items)
    (hitems : items.Nodup) : (items.countP fun b => b ∈ part) = part.length := by
  have hperm : (items.filter fun b => b ∈ part).Perm part := by
    refine (List.perm_ext_iff_of_nodup (hitems.filter _) hpart).2 fun b => ?_
    rw [List.mem_filter, decide_eq_true_iff]
    exact and_iff_right_of_imp fun hb => hsub hb
  rw [List.countP_eq_length_filter, hperm.length_eq]

/-- What is in a list and what is not. -/
theorem length_eq_add_filter [DecidableEq α] {part items : List α} (hpart : part.Nodup) (hsub : part ⊆ items)
    (hitems : items.Nodup) : items.length = part.length + (items.filter fun b => b ∉ part).length := by
  rw [← countP_mem hpart hsub hitems, List.countP_eq_length_filter,
    List.length_eq_length_filter_add fun b => decide (b ∈ part)]
  simp only [decide_not]

/-- **Items that all stand in front are the first ones.** -/
theorem getElem_iff_lt_countP {P : α → Prop} [DecidablePred P] {items : List α}
    (h : items.Pairwise fun a b => P b → P a) (k : ℕ) (hk : k < items.length) : P items[k] ↔ k < items.countP P := by
  induction items generalizing k with
  | nil => exact absurd hk (Nat.not_lt_zero k)
  | cons a items ih =>
    obtain ⟨ha, hitems⟩ := List.pairwise_cons.1 h
    by_cases hP : P a
    · rw [List.countP_cons_of_pos (p := fun b => decide (P b)) (decide_eq_true hP)]
      cases k with
      | zero => exact iff_of_true hP (Nat.succ_pos _)
      | succ k => exact (ih hitems k (Nat.lt_of_succ_lt_succ hk)).trans Nat.succ_lt_succ_iff.symm
    · have hnone : ∀ b ∈ items, ¬ P b := fun b hb hPb => hP (ha b hb hPb)
      rw [List.countP_cons_of_neg (p := fun b => decide (P b)) (by rwa [decide_eq_true_iff]),
        List.countP_eq_zero.2 fun b hb => by rw [decide_eq_true_iff]; exact hnone b hb]
      refine iff_of_false ?_ (Nat.not_lt_zero k)
      cases k with
      | zero => exact hP
      | succ k => exact hnone _ (List.getElem_mem _)

end Tally

end Redux.Lib
