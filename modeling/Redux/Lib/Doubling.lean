import Mathlib.Data.List.Basic
import Mathlib.Data.List.Count
import Mathlib.Data.List.DropRight

/-!
# Lib.Doubling — quoted text, with the quote in it doubled

`double q` writes every `q` of a text twice, so that a single one can end it: `upTo q` finds that one
(`upTo_double`).  `single q` takes each pair back to one (`single_double`).  A doubled text that is cut into pieces comes
back from the pieces exactly if no pair is cut in two, that is, if every piece has an even number of `q`s
(`flatMap_single_iff`): the halves of a pair would count as one each.
-/

namespace Redux.Lib.Doubling

section Doubling

variable {α : Type*} [DecidableEq α] (q : α)

/-- Every `q` twice. -/
def double : List α → List α
  | [] => []
  | a :: l => if a = q then q :: q :: double l else a :: double l

/-- Pairs of `q`, from the left, once. -/
def single : List α → List α
  | [] => []
  | [a] => [a]
  | a :: b :: l => if a = q ∧ b = q then q :: single l else a :: single (b :: l)

/-- The text before the first `q` that is not one of a pair, and the text from there on. -/
def upTo : List α → List α × List α
  | [] => ([], [])
  | [a] => if a = q then ([], [a]) else ([a], [])
  | a :: b :: l =>
    if a = q then
      if b = q then (a :: b :: (upTo l).1, (upTo l).2) else ([], a :: b :: l)
    else (a :: (upTo (b :: l)).1, (upTo (b :: l)).2)

variable {q} {a : α} {l r : List α}

theorem double_cons_self (l : List α) : double q (q :: l) = q :: q :: double q l := if_pos rfl

theorem double_cons_of_ne (h : a ≠ q) (l : List α) : double q (a :: l) = a :: double q l := if_neg h

theorem single_pair (l : List α) : single q (q :: q :: l) = q :: single q l := if_pos ⟨rfl, rfl⟩

theorem single_cons_of_ne (h : a ≠ q) : ∀ l : List α, single q (a :: l) = a :: single q l
  | [] => rfl
  | _ :: _ => if_neg fun hpair => h hpair.1

/-- A `q` before another element stays. -/
theorem single_cons_cons_of_ne (h : a ≠ q) (l : List α) : single q (q :: a :: l) = q :: single q (a :: l) :=
  if_neg fun hpair => h hpair.2

/-! ### Back again -/

/-- What is doubled comes back, whatever follows. -/
theorem single_double_append (r : List α) : ∀ l : List α, single q (double q l ++ r) = l ++ single q r
  | [] => rfl
  | a :: l => by
    by_cases h : a = q
    · rw [h, double_cons_self, List.cons_append, List.cons_append, single_pair, single_double_append r l,
        List.cons_append]
    · rw [double_cons_of_ne h, List.cons_append, single_cons_of_ne h, single_double_append r l, List.cons_append]

/-- **What is doubled comes back.** -/
theorem single_double (l : List α) : single q (double q l) = l := by
  have h := single_double_append (q := q) [] l
  rwa [List.append_nil, single, List.append_nil] at h

/-- The halves of two pairs count as one each, if they do not come together. -/
theorem single_halves : ∀ {l : List α}, (∃ a ∈ l, a ≠ q) → single q (q :: (double q l ++ [q])) = q :: (l ++ [q])
  | [], h => by
    obtain ⟨a, ha, -⟩ := h
    exact absurd ha List.not_mem_nil
  | a :: l, h => by
    by_cases hq : a = q
    · have hrest : ∃ b ∈ l, b ≠ q := by
        obtain ⟨b, hb, hne⟩ := h
        exact ⟨b, (List.mem_cons.1 hb).resolve_left fun heq => hne (heq.trans hq), hne⟩
      rw [hq, double_cons_self, List.cons_append, List.cons_append, single_pair, single_halves hrest, List.cons_append]
    · rw [double_cons_of_ne hq, List.cons_append, single_cons_cons_of_ne hq, single_cons_of_ne hq,
        single_double_append]
      rfl

/-- **The end of a doubled text is found.** -/
theorem upTo_double (h : r.head? ≠ some q) : ∀ l : List α, upTo q (double q l ++ q :: r) = (double q l, q :: r)
  | [] => by
    cases r with
    | nil => exact if_pos rfl
    | cons b r =>
      have hb : b ≠ q := fun heq => h (congrArg some heq)
      show upTo q (q :: b :: r) = _
      rw [upTo, if_pos rfl, if_neg hb]
      rfl
  | a :: l => by
    have ih := upTo_double h l
    by_cases hq : a = q
    · rw [hq, double_cons_self, List.cons_append, List.cons_append, upTo, if_pos rfl, if_pos rfl, ih]
    · rw [double_cons_of_ne hq, List.cons_append]
      cases hl : double q l ++ q :: r with
      | nil => exact absurd hl (by simp)
      | cons b l' => rw [upTo, if_neg hq, ← hl, ih]

/-! ### Parts -/

theorem double_append (r : List α) : ∀ l : List α, double q (l ++ r) = double q l ++ double q r
  | [] => rfl
  | a :: l => by
    by_cases h : a = q
    · rw [h, List.cons_append, double_cons_self, double_cons_self, double_append r l, List.cons_append, List.cons_append]
    · rw [List.cons_append, double_cons_of_ne h, double_cons_of_ne h, double_append r l, List.cons_append]

theorem double_of_not_mem : ∀ {l : List α}, q ∉ l → double q l = l
  | [], _ => rfl
  | a :: l, h => by
    have ha : a ≠ q := fun heq => h (by rw [heq]; exact List.mem_cons_self)
    rw [double_cons_of_ne ha, double_of_not_mem fun hmem => h (List.mem_cons_of_mem a hmem)]

theorem single_of_not_mem (h : q ∉ l) : single q l = l := by
  have hdouble := single_double (q := q) l
  rwa [double_of_not_mem h] at hdouble

theorem mem_double (hne : a ≠ q) : ∀ {l : List α}, a ∈ double q l ↔ a ∈ l
  | [] => Iff.rfl
  | b :: l => by
    by_cases h : b = q
    · rw [h, double_cons_self, List.mem_cons, List.mem_cons, List.mem_cons, mem_double hne, or_iff_right hne]
    · rw [double_cons_of_ne h, List.mem_cons, List.mem_cons, mem_double hne]

theorem mem_of_mem_single (h : a ∈ single q l) : a ∈ l := by
  fun_induction single q l with
  | case1 => exact h
  | case2 b => exact h
  | case3 b c l hpair ih =>
    rcases List.mem_cons.1 h with rfl | h
    · exact List.mem_cons.2 (.inl hpair.1.symm)
    · exact List.mem_cons_of_mem _ (List.mem_cons_of_mem _ (ih h))
  | case4 b c l hpair ih =>
    rcases List.mem_cons.1 h with rfl | h
    · exact List.mem_cons_self
    · exact List.mem_cons_of_mem _ (ih h)

/-- A doubled text up to an element that is not doubled. -/
theorem takeWhile_double {p : α → Bool} (hp : p q = true) : ∀ l : List α,
    (double q l).takeWhile p = double q (l.takeWhile p)
  | [] => rfl
  | a :: l => by
    by_cases h : a = q
    · rw [h, double_cons_self, List.takeWhile_cons_of_pos hp, List.takeWhile_cons_of_pos hp,
        List.takeWhile_cons_of_pos hp, double_cons_self, takeWhile_double hp l]
    · rw [double_cons_of_ne h, List.takeWhile_cons, List.takeWhile_cons]
      split
      · rw [double_cons_of_ne h, takeWhile_double hp l]
      · rfl

/-- A doubled text up to its last `q`. -/
theorem rdropWhile_double (l : List α) :
    (double q l).rdropWhile (· ≠ q) = double q (l.rdropWhile (· ≠ q)) := by
  induction l using List.reverseRecOn with
  | nil => rfl
  | append_singleton l a ih =>
    by_cases h : a = q
    · have hdouble : double q (l ++ [a]) = double q l ++ [q] ++ [q] := by
        rw [double_append, h, double_cons_self, List.append_assoc]
        rfl
      rw [List.rdropWhile_concat_neg _ _ _ (by simpa using h), hdouble, List.rdropWhile_concat_neg _ _ _ (by simp)]
    · rw [double_append, double_cons_of_ne h, List.rdropWhile_concat_pos _ _ _ (by simpa using h)]
      exact (List.rdropWhile_concat_pos _ _ _ (by simpa using h)).trans ih

/-- **A text that is not ended** comes back up to its last `q`, of which the first half is left. -/
theorem single_dropLast_rdropWhile (l : List α) :
    single q ((double q l).rdropWhile (· ≠ q)).dropLast = l.rdropWhile (· ≠ q) := by
  rw [rdropWhile_double]
  rcases List.eq_nil_or_concat (l.rdropWhile (· ≠ q)) with h | ⟨r, a, h⟩
  · rw [h]
    rfl
  · have hne : l.rdropWhile (· ≠ q) ≠ [] := by rw [h]; simp
    have hlast := List.rdropWhile_last_not (fun a => decide (a ≠ q)) l hne
    have ha : a = q := by
      simp only [h] at hlast
      simpa using hlast
    have hdouble : double q (r ++ [a]) = double q r ++ [q] ++ [q] := by
      rw [double_append, ha, double_cons_self, List.append_assoc]
      rfl
    rw [h, List.concat_eq_append, hdouble, List.dropLast_concat, single_double_append, ha]
    rfl

/-! ### Numbers of elements -/

theorem count_double : ∀ l : List α, (double q l).count q = 2 * l.count q
  | [] => rfl
  | a :: l => by
    by_cases h : a = q
    · rw [h, double_cons_self, List.count_cons_self, List.count_cons_self, List.count_cons_self, count_double l]
      omega
    · rw [double_cons_of_ne h, List.count_cons_of_ne h, List.count_cons_of_ne h, count_double l]

/-- The other elements are all there. -/
theorem filter_double : ∀ l : List α, (double q l).filter (· ≠ q) = l.filter (· ≠ q)
  | [] => rfl
  | a :: l => by
    by_cases h : a = q
    · rw [h, double_cons_self, List.filter_cons_of_neg (by simp), List.filter_cons_of_neg (by simp),
        List.filter_cons_of_neg (by simp), filter_double l]
    · rw [double_cons_of_ne h, List.filter_cons_of_pos (by simpa using h), List.filter_cons_of_pos (by simpa using h),
        filter_double l]

theorem filter_single (l : List α) : (single q l).filter (· ≠ q) = l.filter (· ≠ q) := by
  fun_induction single q l with
  | case1 => rfl
  | case2 a => rfl
  | case3 a b l h ih =>
    obtain ⟨rfl, rfl⟩ := h
    rw [List.filter_cons_of_neg (by simp), List.filter_cons_of_neg (by simp), List.filter_cons_of_neg (by simp), ih]
  | case4 a b l h ih => rw [List.filter_cons, List.filter_cons, ih]

/-- At most half of the `q`s go. -/
theorem count_le_single (l : List α) : l.count q ≤ 2 * (single q l).count q := by
  fun_induction single q l with
  | case1 => exact Nat.zero_le _
  | case2 a => omega
  | case3 a b l h ih =>
    obtain ⟨rfl, rfl⟩ := h
    rw [List.count_cons_self, List.count_cons_self, List.count_cons_self]
    omega
  | case4 a b l h ih =>
    rw [List.count_cons, List.count_cons (l := single q (b :: l))]
    omega

theorem length_double (l : List α) : (double q l).length = l.length + l.count q := by
  induction l with
  | nil => rfl
  | cons a l ih =>
    by_cases h : a = q
    · subst h
      rw [double_cons_self, List.length_cons, List.length_cons, List.length_cons, List.count_cons_self, ih]
      omega
    · rw [double_cons_of_ne h, List.length_cons, List.length_cons, List.count_cons_of_ne h, ih]
      omega

/-! ### Pieces -/

/-- **Where a doubled text is cut**: between pairs, or in the middle of one. -/
theorem append_eq_double (l : List α) : ∀ {x y : List α}, x ++ y = double q l →
    (x.count q % 2 = 0 ∧ ∃ l₁ l₂, l = l₁ ++ l₂ ∧ x = double q l₁ ∧ y = double q l₂) ∨
    (x.count q % 2 = 1 ∧ ∃ l₁ l₂, l = l₁ ++ q :: l₂ ∧ x = double q l₁ ++ [q] ∧ y = q :: double q l₂) := by
  induction l with
  | nil =>
    intro x y h
    obtain ⟨rfl, rfl⟩ := List.append_eq_nil_iff.1 h
    exact .inl ⟨rfl, [], [], rfl, rfl, rfl⟩
  | cons b l ih =>
    intro x y h
    cases x with
    | nil => exact .inl ⟨rfl, [], b :: l, rfl, rfl, h⟩
    | cons a x =>
      by_cases hq : b = q
      · subst hq
        rw [double_cons_self, List.cons_append, List.cons.injEq] at h
        obtain ⟨rfl, h⟩ := h
        cases x with
        | nil => exact .inr ⟨by simp, [], l, rfl, rfl, h⟩
        | cons a' x =>
          rw [List.cons_append, List.cons.injEq] at h
          obtain ⟨rfl, h⟩ := h
          have hcount : (a' :: a' :: x).count a' % 2 = x.count a' % 2 := by
            rw [List.count_cons_self, List.count_cons_self]
            omega
          rw [hcount]
          rcases ih h with ⟨hx, l₁, l₂, rfl, rfl, rfl⟩ | ⟨hx, l₁, l₂, rfl, rfl, rfl⟩
          · exact .inl ⟨hx, a' :: l₁, l₂, rfl, (double_cons_self l₁).symm, rfl⟩
          · exact .inr ⟨hx, a' :: l₁, l₂, rfl, by rw [double_cons_self]; rfl, rfl⟩
      · rw [double_cons_of_ne hq, List.cons_append, List.cons.injEq] at h
        obtain ⟨rfl, h⟩ := h
        rw [List.count_cons_of_ne hq]
        rcases ih h with ⟨hx, l₁, l₂, rfl, rfl, rfl⟩ | ⟨hx, l₁, l₂, rfl, rfl, rfl⟩
        · exact .inl ⟨hx, a :: l₁, l₂, rfl, (double_cons_of_ne hq l₁).symm, rfl⟩
        · exact .inr ⟨hx, a :: l₁, l₂, rfl, by rw [double_cons_of_ne hq]; rfl, rfl⟩

/-- Pieces with even numbers of `q`s come back. -/
theorem flatMap_single_of_even : ∀ {xs : List (List α)} {l : List α}, xs.flatten = double q l →
    (∀ x ∈ xs, x.count q % 2 = 0) → xs.flatMap (single q) = l
  | [], [], _, _ => rfl
  | [], a :: l, h, _ => by
    by_cases hq : a = q
    · rw [hq, double_cons_self] at h
      exact absurd h (by simp)
    · rw [double_cons_of_ne hq] at h
      exact absurd h (by simp)
  | x :: xs, l, h, heven => by
    rw [List.flatten_cons] at h
    rcases append_eq_double l h with ⟨-, l₁, l₂, rfl, rfl, hrest⟩ | ⟨hodd, -⟩
    · rw [List.flatMap_cons, single_double, flatMap_single_of_even hrest fun y hy => heven y (List.mem_cons_of_mem _ hy)]
    · exact absurd hodd (by rw [heven x List.mem_cons_self]; decide)

/-- The pieces have at least as many `q`s as the text. -/
theorem count_flatMap_single (xs : List (List α)) : xs.flatten.count q ≤ 2 * (xs.flatMap (single q)).count q := by
  induction xs with
  | nil => exact Nat.zero_le _
  | cons x xs ih =>
    have hx := count_le_single (q := q) x
    rw [List.flatten_cons, List.count_append, List.flatMap_cons, List.count_append]
    omega

/-- One more, if one of them has an odd number. -/
theorem count_flatMap_single_of_odd {xs : List (List α)} {x : List α} (hmem : x ∈ xs) (hodd : x.count q % 2 = 1) :
    xs.flatten.count q < 2 * (xs.flatMap (single q)).count q := by
  obtain ⟨before, behind, rfl⟩ := List.append_of_mem hmem
  have hbefore := count_flatMap_single (q := q) before
  have hbehind := count_flatMap_single (q := q) behind
  have hx := count_le_single (q := q) x
  rw [List.flatten_append, List.flatten_cons, List.count_append, List.count_append, List.flatMap_append,
    List.flatMap_cons, List.count_append, List.count_append]
  omega

/-- **A doubled text comes back from its pieces exactly if no pair is cut in two.** -/
theorem flatMap_single_iff {xs : List (List α)} (h : xs.flatten = double q l) :
    xs.flatMap (single q) = l ↔ ∀ x ∈ xs, x.count q % 2 = 0 := by
  refine ⟨fun heq x hx => ?_, flatMap_single_of_even h⟩
  by_contra hodd
  have hcount := count_flatMap_single_of_odd (q := q) hx (by omega)
  rw [h, count_double, heq] at hcount
  omega

theorem count_flatten_even {xs : List (List α)} (h : ∀ x ∈ xs, x.count q % 2 = 0) : xs.flatten.count q % 2 = 0 := by
  induction xs with
  | nil => rfl
  | cons x xs ih =>
    have hx := h x List.mem_cons_self
    have hxs := ih fun y hy => h y (List.mem_cons_of_mem x hy)
    rw [List.flatten_cons, List.count_append]
    omega

/-- The last piece needs not be looked at. -/
theorem flatMap_single_append_iff {xs : List (List α)} (h : xs.flatten ++ r = double q l) :
    xs.flatMap (single q) ++ single q r = l ↔ ∀ x ∈ xs, x.count q % 2 = 0 := by
  have hflatten : (xs ++ [r]).flatten = double q l := by
    rw [List.flatten_append, List.flatten_singleton, h]
  have hiff := flatMap_single_iff hflatten
  rw [List.flatMap_append, List.flatMap_singleton] at hiff
  rw [hiff]
  refine ⟨fun heven x hx => heven x (List.mem_append_left _ hx), fun heven x hx => ?_⟩
  rcases List.mem_append.1 hx with hx | hx
  · exact heven x hx
  · have htotal := congrArg (List.count q) h
    have hxs := count_flatten_even heven
    rw [List.count_append, count_double] at htotal
    rw [List.mem_singleton.1 hx]
    omega

/-! ### A last piece that is not ended -/

theorem single_append_of_ne (h : a ≠ q) (l : List α) : single q (l ++ [a]) = single q l ++ [a] := by
  fun_induction single q l with
  | case1 => rfl
  | case2 b =>
    by_cases hb : b = q
    · rw [hb, List.cons_append, List.nil_append, single_cons_cons_of_ne h]
      rfl
    · rw [List.cons_append, List.nil_append, single_cons_of_ne hb]
      rfl
  | case3 b c l hpair ih =>
    obtain ⟨rfl, rfl⟩ := hpair
    rw [List.cons_append, List.cons_append, single_pair, ih, List.cons_append]
  | case4 b c l hpair ih =>
    rw [List.cons_append, List.cons_append, single, if_neg hpair, ← List.cons_append, ih, List.cons_append]

theorem getLast?_double (l : List α) : (double q l).getLast? = l.getLast? := by
  rcases List.eq_nil_or_concat l with rfl | ⟨l, b, rfl⟩
  · rfl
  · rw [List.concat_eq_append, double_append, List.getLast?_append, List.getLast?_concat]
    by_cases hb : b = q
    · rw [hb, double_cons_self]
      rfl
    · rw [double_cons_of_ne hb]
      rfl

/-- Nothing is lost behind the last `q`, if nothing else but one `q` is. -/
theorem eq_concat_of_filter (hne : r ≠ [])
    (h : (r.rdropWhile (· ≠ q)).dropLast.filter (· ≠ q) = r.filter (· ≠ q)) :
    r = (r.rdropWhile (· ≠ q)).dropLast ++ [q] := by
  have hsplit : r.rdropWhile (· ≠ q) ++ r.rtakeWhile (· ≠ q) = r := List.rdropWhile_append_rtakeWhile
  have hbehind : (r.rtakeWhile (· ≠ q)).filter (· ≠ q) = r.rtakeWhile (· ≠ q) :=
    List.filter_eq_self.2 fun b hb => by simpa using List.mem_rtakeWhile_imp hb
  have hlength : ((r.rdropWhile (· ≠ q)).dropLast.filter (· ≠ q)).length =
      ((r.rdropWhile (· ≠ q)).filter (· ≠ q)).length + (r.rtakeWhile (· ≠ q)).length := by
    rw [h, ← hbehind, ← List.length_append, ← List.filter_append, hsplit]
  have hle : ((r.rdropWhile (· ≠ q)).dropLast.filter (· ≠ q)).length ≤
      ((r.rdropWhile (· ≠ q)).filter (· ≠ q)).length :=
    (List.Sublist.filter _ (List.dropLast_sublist _)).length_le
  have hnil : r.rtakeWhile (· ≠ q) = [] := List.eq_nil_of_length_eq_zero (by omega)
  rw [hnil, List.append_nil] at hsplit
  have hlast := List.rdropWhile_last_not (fun b => decide (b ≠ q)) r (by rwa [hsplit])
  simp only [hsplit] at hlast ⊢
  have heq : r.getLast hne = q := by simpa using hlast
  rw [← heq, List.dropLast_concat_getLast hne]

/-- The second half of a pair before a last `q`: one `q` too many is left. -/
theorem count_single_halves {l' : List α} (h : r ++ [q] = q :: double q l') (heven : (r ++ [q]).length % 2 = 0) :
    r.count q < 2 * (single q r).count q := by
  rcases List.eq_nil_or_concat l' with rfl | ⟨l, b, rfl⟩
  · rw [h] at heven
    exact absurd heven (Nat.one_ne_zero)
  · have hb : b = q := by
      have hlast := congrArg List.getLast? h
      rw [List.getLast?_concat, List.getLast?_cons, getLast?_double, List.concat_eq_append, List.getLast?_concat] at hlast
      exact (Option.some.inj hlast).symm
    rw [List.concat_eq_append, double_append, hb, double_cons_self, double] at h
    have hr : r = q :: (double q l ++ [q]) := by
      have happend : r ++ [q] = q :: (double q l ++ [q]) ++ [q] := by
        rw [h, List.cons_append, List.append_assoc]
        rfl
      exact List.append_cancel_right happend
    have hother : ∃ a ∈ l, a ≠ q := by
      by_contra hall
      have hcount : l.count q = l.length := List.count_eq_length.2 fun a ha => by
        by_contra hne
        exact hall ⟨a, ha, fun heq => hne heq.symm⟩
      rw [hr, List.length_append, List.length_cons, List.length_append, length_double, hcount] at heven
      simp only [List.length_cons, List.length_nil] at heven
      omega
    rw [hr, single_halves hother, List.count_cons_self, List.count_cons_self, List.count_append, List.count_append,
      count_double, List.count_singleton_self]
    omega

/-- **A doubled text of which the last piece has lost its end** comes back up to the last `q`: exactly if no pair is cut in
two, and the text ends with `q` itself. -/
theorem flatMap_single_open_iff {xs : List (List α)} (h : xs.flatten ++ r = double q l) (hne : r ≠ [])
    (hlength : r.length % 2 = 0) : xs.flatMap (single q) ++ single q (r.rdropWhile (· ≠ q)).dropLast = l ↔
      (∀ x ∈ xs, x.count q % 2 = 0) ∧ l.getLast? = some q := by
  refine ⟨fun heq => ?_, fun ⟨heven, hlast⟩ => ?_⟩
  · have hfilter : (r.rdropWhile (· ≠ q)).dropLast.filter (· ≠ q) = r.filter (· ≠ q) := by
      have hall := congrArg (List.filter (· ≠ q)) heq
      have hflat : (xs.flatMap (single q)).filter (· ≠ q) = xs.flatten.filter (· ≠ q) := by
        rw [List.filter_flatMap, List.filter_flatten, List.flatMap]
        exact congrArg List.flatten (List.map_congr_left fun x _ => filter_single x)
      rw [List.filter_append, hflat, filter_single, ← filter_double l, ← h, List.filter_append] at hall
      exact List.append_cancel_left hall
    have hr := eq_concat_of_filter hne hfilter
    have heven : ∀ x ∈ xs, x.count q % 2 = 0 := by
      by_contra hodd
      obtain ⟨x, hx⟩ := not_forall.1 hodd
      obtain ⟨hmem, hx⟩ := Classical.not_imp.1 hx
      have hxs := count_flatMap_single_of_odd hmem (by omega : x.count q % 2 = 1)
      have hlast := count_le_single (q := q) (r.rdropWhile (· ≠ q)).dropLast
      have htotal : xs.flatten.count q + r.count q =
          2 * ((xs.flatMap (single q)).count q + (single q (r.rdropWhile (· ≠ q)).dropLast).count q) := by
        rw [← List.count_append, ← List.count_append, h, heq, count_double]
      have hcount : r.count q = (r.rdropWhile (· ≠ q)).dropLast.count q + 1 := by
        rw [hr, List.count_append, List.count_singleton_self, ← hr]
      rcases append_eq_double l h with ⟨-, l₁, l₂, -, -, hl₂⟩ | ⟨-, l₁, l₂, -, -, hl₂⟩
      · have hpairs : r.count q = 2 * l₂.count q := by rw [hl₂, count_double]
        omega
      · rw [hr] at hl₂
        rw [hr] at hlength
        have hhalves := count_single_halves hl₂ hlength
        omega
    refine ⟨heven, ?_⟩
    rcases append_eq_double l h with ⟨-, l₁, l₂, rfl, -, hl₂⟩ | ⟨hodd, -⟩
    · have hl₂ne : l₂ ≠ [] := fun hnil => hne (by rw [hl₂, hnil]; rfl)
      rw [List.getLast?_append_of_ne_nil _ hl₂ne, ← getLast?_double (q := q), ← hl₂, hr, List.getLast?_concat]
    · exact absurd (count_flatten_even heven) (by omega)
  · rcases append_eq_double l h with ⟨-, l₁, l₂, rfl, hl₁, hl₂⟩ | ⟨hodd, -⟩
    · have hl₂ne : l₂ ≠ [] := fun hnil => hne (by rw [hl₂, hnil]; rfl)
      rw [List.getLast?_append_of_ne_nil _ hl₂ne] at hlast
      have hself : l₂.rdropWhile (· ≠ q) = l₂ := List.rdropWhile_eq_self_iff.2 fun hl => by
        rw [List.getLast?_eq_some_getLast hl, Option.some.injEq] at hlast
        simpa using hlast
      rw [hl₂, single_dropLast_rdropWhile, hself, flatMap_single_of_even hl₁ heven]
    · exact absurd (count_flatten_even heven) (by omega)

end Doubling

end Redux.Lib.Doubling
