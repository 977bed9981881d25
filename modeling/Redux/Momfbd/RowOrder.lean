import Mathlib.Algebra.Order.Ring.Int
import Redux.Lib.Comparison
import Redux.Momfbd.NullSpaceCache

/-!
# Momfbd.RowOrder — the order of the rows of a group

`sortRows` hands the constraints to `std::sort` with `Constraint::operator>`, which goes through the entries of two
constraints side by side until those of the first one end.  If those of the second one end before, it reads on.  Among
constraints none of which has the columns of another one and more behind them, it compares the columns, and then the
values (`gt_eq`); other constraints cannot be sorted with it (`sortable_iff`).
-/

namespace Redux.Momfbd.Constraints

open Redux.Lib Redux.Lib.Comparison

/-! ## Model -/

namespace Entries

/-- `operator>` from two iterators on; `none` if the one of `rhs` is read at its end. -/
def gtFrom (size rhsSize : ℕ) : Entries → Entries → ℤ → Option Bool
  | [], _, valueOrder =>
    if size ≠ rhsSize then some (decide (size > rhsSize))
    else if valueOrder ≠ 0 then some (decide (valueOrder > 0))
    else some false
  | _ :: _, [], _ => none
  | x :: it, y :: rhsit, valueOrder =>
    if x.1 ≠ y.1 then some (decide (x.1 < y.1))
    else if valueOrder = 0 ∧ x.2 ≠ y.2 then gtFrom size rhsSize it rhsit (if x.2 > y.2 then 1 else -1)
    else gtFrom size rhsSize it rhsit valueOrder

/-- `Constraint::operator>`, of the entries of two constraints. -/
def gt (entries rhs : Entries) : Option Bool := gtFrom entries.length rhs.length entries rhs 0

/-- What `std::sort` asks of the comparison, for the constraints with the entries in `S`. -/
structure Sortable (S : Set Entries) : Prop where
  reads : ∀ a ∈ S, ∀ b ∈ S, (gt a b).isSome = true
  strictWeak : OrderedSet.StrictWeak (fun a b => decide (gt a b = some true)) S

/-- The columns of the entries. -/
def columns (entries : Entries) : List ℤ := entries.map Prod.fst

def values (entries : Entries) : List ℤ := entries.map Prod.snd

/-- The columns of none are those of another one with more behind them. -/
def PrefixFree (S : Set Entries) : Prop := ∀ a ∈ S, ∀ b ∈ S, columns a <+: columns b → columns a = columns b

/-- By the leftmost column in which they differ, then by the first value. -/
def before (a b : Entries) : Bool :=
  byField (lexicographical_compare fun i j => decide (i < j)) columns
    (fun a b => lexicographical_compare (fun x y => decide (y < x)) a.values b.values) a b

/-- All that can be in a `map<int32_t,int8_t>`. -/
def maps : Set Entries :=
  {e | e.Pairwise (fun x y => x.1 < y.1) ∧ ∀ x ∈ e, (-2 ^ 31 ≤ x.1 ∧ x.1 < 2 ^ 31) ∧ -2 ^ 7 ≤ x.2 ∧ x.2 < 2 ^ 7}

end Entries

/-! ## One comparison -/

section Compare

namespace Entries

variable {a b : Entries} {n m : ℕ} {v : ℤ}

/-- **The other entries are read at their end** exactly if all of their columns come first in the entries. -/
theorem gtFrom_eq_none_iff : ∀ {a b : Entries} {v : ℤ},
    gtFrom n m a b v = none ↔ columns b <+: columns a ∧ columns b ≠ columns a
  | [], b, v => by
    refine iff_of_false ?_ fun h => h.2 (List.prefix_nil.1 h.1)
    rw [gtFrom]
    split_ifs <;> simp
  | x :: a, [], v => iff_of_true rfl ⟨List.nil_prefix, List.cons_ne_nil _ _ ∘ Eq.symm⟩
  | x :: a, y :: b, v => by
    have ih : ∀ w, gtFrom n m a b w = none ↔ columns b <+: columns a ∧ columns b ≠ columns a := fun w =>
      gtFrom_eq_none_iff
    rw [gtFrom]
    simp only [columns, List.map_cons, List.cons_prefix_cons, ne_eq, List.cons.injEq]
    by_cases hkey : x.1 = y.1
    · rw [if_neg (not_not.2 hkey)]
      have hrest : (y.1 = x.1 ∧ columns b <+: columns a) ∧ ¬(y.1 = x.1 ∧ columns b = columns a) ↔
          columns b <+: columns a ∧ columns b ≠ columns a := by
        simp [hkey]
      refine Iff.trans ?_ hrest.symm
      split_ifs <;> exact ih _
    · rw [if_pos hkey]
      exact iff_of_false (Option.some_ne_none _) fun h => hkey h.1.1.symm

theorem before_of_ne (h : columns a ≠ columns b) :
    before a b = lexicographical_compare (fun i j : ℤ => decide (i < j)) (columns a) (columns b) := byField_of_ne h

theorem before_of_eq (h : columns a = columns b) :
    before a b = lexicographical_compare (fun x y : ℤ => decide (y < x)) (values a) (values b) := byField_of_eq h

section Cons

variable {x y : ℤ × ℤ}

theorem columns_cons_eq : columns (x :: a) = columns (y :: b) ↔ x.1 = y.1 ∧ columns a = columns b := by
  simp [columns]

theorem before_cons_of_column (h : x.1 ≠ y.1) : before (x :: a) (y :: b) = decide (x.1 < y.1) := by
  rw [before_of_ne fun heq => h (columns_cons_eq.1 heq).1]
  exact lexicographical_compare_of_ne strictTotal_lt h _ _

theorem before_cons_of_value (hkey : x.1 = y.1) (h : columns a = columns b) (hvalue : x.2 ≠ y.2) :
    before (x :: a) (y :: b) = decide (y.2 < x.2) := by
  rw [before_of_eq (columns_cons_eq.2 ⟨hkey, h⟩)]
  exact lexicographical_compare_of_ne strictTotal_gt hvalue _ _

/-- Entries in front that do not differ, or whose values do not matter. -/
theorem before_cons (hkey : x.1 = y.1) (h : columns a = columns b → x.2 = y.2) :
    before (x :: a) (y :: b) = before a b := by
  by_cases heq : columns a = columns b
  · rw [before_of_eq (columns_cons_eq.2 ⟨hkey, heq⟩), before_of_eq heq]
    simp only [values, List.map_cons, h heq]
    exact lexicographical_compare_cons strictTotal_gt _ _ _
  · rw [before_of_ne fun hcons => heq (columns_cons_eq.1 hcons).2, before_of_ne heq]
    simp only [columns, List.map_cons, hkey]
    exact lexicographical_compare_cons strictTotal_lt _ _ _

end Cons

/-- The comparison of what is left, if `v` says how the values have differed before. -/
theorem gtFrom_eq : ∀ {a b : Entries} {v : ℤ}, (a.length = b.length → n = m) →
    (columns a <+: columns b → columns a = columns b) → (columns b <+: columns a → columns b = columns a) →
      gtFrom n m a b v = some (if columns a = columns b ∧ v ≠ 0 then decide (v > 0) else before a b)
  | [], [], v, hsize, _, _ => by
    rw [gtFrom, if_neg (not_not.2 (hsize rfl))]
    by_cases hv : v = 0
    · rw [if_neg (not_not.2 hv), if_neg fun h => h.2 hv]
      rfl
    · rw [if_pos hv, if_pos ⟨rfl, hv⟩]
  | [], y :: b, v, _, hab, _ => absurd (hab List.nil_prefix) (List.cons_ne_nil _ _).symm
  | x :: a, [], v, _, _, hba => absurd (hba List.nil_prefix) (List.cons_ne_nil _ _).symm
  | x :: a, y :: b, v, hsize, hab, hba => by
    rw [gtFrom]
    by_cases hkey : x.1 = y.1
    · have ih : ∀ w, gtFrom n m a b w =
          some (if columns a = columns b ∧ w ≠ 0 then decide (w > 0) else before a b) := by
        intro w
        apply gtFrom_eq
        · intro hlength
          exact hsize (congrArg (· + 1) hlength)
        · intro hpart
          exact (columns_cons_eq.1 (hab (List.cons_prefix_cons.2 ⟨hkey, hpart⟩))).2
        · intro hpart
          exact (columns_cons_eq.1 (hba (List.cons_prefix_cons.2 ⟨hkey.symm, hpart⟩))).2
      rw [if_neg (not_not.2 hkey), ih, ih]
      simp only [columns_cons_eq, hkey, true_and]
      by_cases heq : columns a = columns b
      · by_cases hv : v = 0
        · subst hv
          by_cases hvalue : x.2 = y.2
          · simp [before_cons hkey fun _ => hvalue, hvalue]
          · -- the first value that differs
            rw [before_cons_of_value hkey heq hvalue]
            by_cases hgt : y.2 < x.2
            · simp [heq, hvalue, hgt]
            · simp [heq, hvalue, hgt]
        · simp [heq, hv]
      · rw [before_cons hkey fun h => absurd h heq]
        simp [heq]
    · rw [if_pos hkey, if_neg fun h => hkey (columns_cons_eq.1 h.1).1, before_cons_of_column hkey]

/-- **Where neither constraint has the columns of the other one and more**, `operator>` compares the columns, and
then the values. -/
theorem gt_eq (hab : columns a <+: columns b → columns a = columns b)
    (hba : columns b <+: columns a → columns b = columns a) : gt a b = some (before a b) := by
  rw [gt, gtFrom_eq id hab hba, if_neg fun h => h.2 rfl]

end Entries

end Compare

/-! ## Sorting -/

namespace Entries

theorem strictWeak_before (S : Set Entries) : OrderedSet.StrictWeak before S :=
  (strictWeak_byField_iff strictTotal_lt.lexicographical_compare).2 fun _ =>
    strictWeak_field strictTotal_gt.lexicographical_compare

/-- No two are read at their end, if none has the columns of another one and more. -/
theorem reads_iff {S : Set Entries} : (∀ a ∈ S, ∀ b ∈ S, (gt a b).isSome = true) ↔ PrefixFree S := by
  constructor
  · intro h a ha b hb hpart
    by_contra hne
    have hnone : gt b a = none := gtFrom_eq_none_iff.2 ⟨hpart, hne⟩
    have hsome := h b hb a ha
    rw [hnone] at hsome
    exact Bool.false_ne_true hsome
  · intro h a ha b hb
    rw [gt_eq (h a ha b hb) (h b hb a ha)]
    rfl

/-- **`operator>` can be used to sort constraints** exactly if none has the columns of another one and more behind
them. -/
theorem sortable_iff (S : Set Entries) : Sortable S ↔ PrefixFree S := by
  constructor
  · exact fun h => reads_iff.1 h.reads
  · intro h
    refine ⟨reads_iff.2 h, (strictWeak_before S).congr fun a ha b hb => ?_⟩
    rw [gt_eq (h a ha b hb) (h b hb a ha)]
    simp

/-- A row with two entries, and one with the first of them. -/
theorem maps_not_sortable : ¬Sortable maps := by
  intro h
  have hnone : gt [(1, 1), (2, 1)] [(1, 1)] = none := rfl
  have hsome := h.reads [(1, 1), (2, 1)] ⟨by decide, by decide⟩ [(1, 1)] ⟨by decide, by decide⟩
  rw [hnone] at hsome
  exact Bool.false_ne_true hsome

end Entries

end Redux.Momfbd.Constraints
