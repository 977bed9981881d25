import Redux.Lib.Fuel
import Redux.Lib.Words

/-!
# Util.ReplaceN — replacing the first occurrences in a string

`replace_n` counts the occurrences of a string, and then replaces the first one as often.  What it replaces
the second time is the first occurrence in a text that has changed.  It replaces the occurrences of the
original text if none of the replacements disturbs the next one (`replace_n_iff`), and only then, unless the
replacement is a beginning of what it replaces: texts that only shrink may come to be the same by other
replacements.
-/

namespace Redux.Util.ReplaceN

open Lib

variable {α : Type} [DecidableEq α]

/-- The first position at which a text has `loc`. -/
def search (loc : List α) : List α → Option ℕ
  | [] => if loc = [] then some 0 else none
  | c :: s => if loc.isPrefixOf (c :: s) then some 0 else (search loc s).map (· + 1)

/-- `std::string::find`. -/
def find (input loc : List α) (offset : ℕ) : Option ℕ :=
  if offset ≤ input.length then (search loc (input.drop offset)).map (· + offset) else none

/-- The loop that counts, with at most `fuel` rounds. -/
def countFrom (input loc : List α) : ℕ → Option ℕ → ℕ → Option ℕ
  | _, none, count => some count
  | 0, some _, _ => none
  | fuel + 1, some offset, count =>
    countFrom input loc fuel (find input loc (offset + loc.length)) (count + 1)

/-- `boost::replace_first`; an empty string is not found. -/
def replace_first (input loc replace : List α) : List α :=
  if loc = [] then input else
    match search loc input with
    | none => input
    | some p => input.take p ++ (replace ++ input.drop (p + loc.length))

/-- `while( count-- )`. -/
def replaceLoop (loc replace : List α) : ℕ → List α → List α
  | 0, input => input
  | count + 1, input => replaceLoop loc replace count (replace_first input loc replace)

def replace_n (fuel : ℕ) (input loc replace : List α) (n : ℕ) : Option (List α) :=
  if n = 0 then some input
  else (countFrom input loc fuel (find input loc 0) 0).map fun count =>
    replaceLoop loc replace (min n count) input

/-! ## The occurrences in the original text -/

/-- The occurrences found in at most so many rounds, each behind the one before. -/
def occurrencesIn (loc : List α) : ℕ → List α → ℕ
  | 0, _ => 0
  | rounds + 1, s =>
    match search loc s with
    | none => 0
    | some p => occurrencesIn loc rounds (s.drop (p + loc.length)) + 1

/-- The number of occurrences that do not overlap, found from left to right. -/
def occurrences (loc s : List α) : ℕ := occurrencesIn loc s.length s

/-- The text with the first `k` of its occurrences replaced. -/
def replaced (loc replace : List α) : ℕ → List α → List α
  | 0, s => s
  | k + 1, s =>
    match search loc s with
    | none => s
    | some p => s.take p ++ (replace ++ replaced loc replace k (s.drop (p + loc.length)))

/-- The call ends, and its result is the text with the first `n` occurrences replaced, or with all if they
are fewer. -/
def Bounded (input loc replace : List α) (n : ℕ) : Prop :=
  Settles (fun fuel => replace_n fuel input loc replace n)
    (replaced loc replace (min n (occurrences loc input)) input)

/-- With some of the occurrences replaced, the first one in the text is the next one of the original, or to
replace it comes to the same. -/
def Undisturbed (input loc replace : List α) (n : ℕ) : Prop :=
  ∀ j < min n (occurrences loc input),
    replace_first (replaced loc replace j input) loc replace = replaced loc replace (j + 1) input

instance (input loc replace : List α) (n : ℕ) : Decidable (Undisturbed input loc replace n) :=
  inferInstanceAs (Decidable (∀ j < _, _))

/-! ## Searching -/

section Search

variable {loc replace x y s : List α} {k n : ℕ}

/-- Behind `x`, whatever follows it there, `loc` occurs for the first time. -/
def First (loc x : List α) : Prop := ∀ x' y y', x ++ (loc ++ y) = x' ++ (loc ++ y') → x.length ≤ x'.length

omit [DecidableEq α] in
theorem First.tail {a : α} (h : First loc (a :: x)) : First loc x := fun x' y y' heq =>
  Nat.le_of_succ_le_succ (h (a :: x') y y' (congrArg (a :: ·) heq))

theorem search_append (hloc : loc ≠ []) (h : First loc x) (y : List α) :
    search loc (x ++ (loc ++ y)) = some x.length := by
  induction x with
  | nil =>
    obtain ⟨a, l, rfl⟩ := List.exists_cons_of_ne_nil hloc
    exact if_pos (List.isPrefixOf_iff_prefix.2 (List.prefix_append _ _))
  | cons a x ih =>
    rw [List.cons_append, search, if_neg, ih h.tail]
    · rfl
    · intro hstart
      obtain ⟨y', hy'⟩ := List.isPrefixOf_iff_prefix.1 hstart
      exact absurd (h [] y y' hy'.symm) (by simp)

/-- What is found is the first occurrence. -/
theorem exists_of_search : ∀ {s : List α} {p : ℕ}, search loc s = some p →
    ∃ x y, s = x ++ (loc ++ y) ∧ x.length = p ∧ First loc x
  | [], p, h => by
    rw [search] at h
    split_ifs at h with hnil
    exact ⟨[], [], by rw [hnil]; rfl, Option.some.inj h, fun _ _ _ _ => Nat.zero_le _⟩
  | c :: s, p, h => by
    rw [search] at h
    split_ifs at h with hstart
    · obtain ⟨y, hy⟩ := List.isPrefixOf_iff_prefix.1 hstart
      exact ⟨[], y, hy.symm, Option.some.inj h, fun _ _ _ _ => Nat.zero_le _⟩
    · obtain ⟨q, hq, rfl⟩ := Option.map_eq_some_iff.1 h
      obtain ⟨x, y, rfl, rfl, hx⟩ := exists_of_search hq
      refine ⟨c :: x, y, rfl, rfl, fun x' z z' heq => ?_⟩
      cases x' with
      | nil =>
        -- it would be there already
        refine absurd (List.isPrefixOf_iff_prefix.2 ?_) hstart
        have hle : loc <+: c :: x ++ loc := by
          have hfar : c :: x ++ loc <+: c :: x ++ (loc ++ z) := by
            rw [← List.append_assoc]
            exact List.prefix_append _ _
          exact List.prefix_of_prefix_length_le ⟨z', heq.symm⟩ hfar (by simp; omega)
        rw [List.cons_append, ← List.append_assoc] at *
        exact hle.trans (List.prefix_append (c :: (x ++ loc)) y)
      | cons a x' =>
        exact Nat.succ_le_succ (hx x' z z' (List.cons.inj heq).2)

theorem search_ne_none (x y : List α) : search loc (x ++ (loc ++ y)) ≠ none := by
  induction x with
  | nil =>
    rw [List.nil_append]
    cases hs : loc ++ y with
    | nil =>
      rw [search, if_pos (List.append_eq_nil_iff.1 hs).1]
      exact nofun
    | cons a s =>
      rw [search, if_pos (List.isPrefixOf_iff_prefix.2 ⟨y, hs⟩)]
      exact nofun
  | cons a x ih =>
    rw [List.cons_append, search]
    split_ifs
    · exact nofun
    · rwa [ne_eq, Option.map_eq_none_iff]

theorem exists_first (h : search loc s ≠ none) : ∃ x y, s = x ++ (loc ++ y) ∧ First loc x := by
  obtain ⟨p, hp⟩ := Option.ne_none_iff_exists'.1 h
  obtain ⟨x, y, rfl, -, hx⟩ := exists_of_search hp
  exact ⟨x, y, rfl, hx⟩

omit [DecidableEq α] in
theorem drop_found (x loc y : List α) : (x ++ (loc ++ y)).drop (x.length + loc.length) = y := by
  rw [← List.append_assoc, ← List.length_append, List.drop_left]

theorem replace_first_append (hloc : loc ≠ []) (h : First loc x) (y : List α) :
    replace_first (x ++ (loc ++ y)) loc replace = x ++ (replace ++ y) := by
  rw [replace_first, if_neg hloc, search_append hloc h]
  dsimp only
  rw [List.take_left, drop_found]

theorem replaced_append (hloc : loc ≠ []) (h : First loc x) (k : ℕ) (y : List α) :
    replaced loc replace (k + 1) (x ++ (loc ++ y)) = x ++ (replace ++ replaced loc replace k y) := by
  rw [replaced, search_append hloc h]
  dsimp only
  rw [List.take_left, drop_found]

theorem occurrencesIn_eq (hloc : loc ≠ []) : ∀ {rounds rounds' : ℕ} {s : List α}, s.length ≤ rounds →
    s.length ≤ rounds' → occurrencesIn loc rounds s = occurrencesIn loc rounds' s
  | 0, 0, _, _, _ => rfl
  | rounds, rounds', s, h, h' => by
    cases hs : search loc s with
    | none => cases rounds <;> cases rounds' <;> simp [occurrencesIn, hs]
    | some p =>
      obtain ⟨x, y, rfl, rfl, hx⟩ := exists_of_search hs
      have hpos := List.length_pos_iff.2 hloc
      simp only [List.length_append] at h h'
      obtain ⟨r, rfl⟩ : ∃ r, rounds = r + 1 := ⟨rounds - 1, by omega⟩
      obtain ⟨r', rfl⟩ : ∃ r', rounds' = r' + 1 := ⟨rounds' - 1, by omega⟩
      rw [occurrencesIn, occurrencesIn, hs]
      dsimp only
      rw [drop_found, occurrencesIn_eq hloc (by omega : y.length ≤ r) (by omega : y.length ≤ r')]

theorem occurrences_append (hloc : loc ≠ []) (h : First loc x) (y : List α) :
    occurrences loc (x ++ (loc ++ y)) = occurrences loc y + 1 := by
  have hpos := List.length_pos_iff.2 hloc
  obtain ⟨r, hr⟩ : ∃ r, (x ++ (loc ++ y)).length = r + 1 := ⟨(x ++ (loc ++ y)).length - 1, by
    rw [List.length_append, List.length_append]; omega⟩
  rw [occurrences, hr, occurrencesIn, search_append hloc h]
  dsimp only
  rw [drop_found, occurrences]
  rw [List.length_append, List.length_append] at hr
  rw [occurrencesIn_eq hloc (by omega) le_rfl]

theorem occurrences_of_none (h : search loc s = none) : occurrences loc s = 0 := by
  rw [occurrences]
  cases s.length with
  | zero => rfl
  | succ r => rw [occurrencesIn, h]

/-- A text that has an occurrence has a first one. -/
theorem exists_of_occurrences (hloc : loc ≠ []) (h : k + 1 ≤ occurrences loc s) :
    ∃ x y, s = x ++ (loc ++ y) ∧ First loc x ∧ k ≤ occurrences loc y := by
  have hs : search loc s ≠ none := fun hnone => by
    rw [occurrences_of_none hnone] at h
    omega
  obtain ⟨x, y, rfl, hx⟩ := exists_first hs
  rw [occurrences_append hloc hx] at h
  exact ⟨x, y, rfl, hx, Nat.le_of_succ_le_succ h⟩

end Search

/-! ## The call -/

section Call

variable {input loc replace s : List α} {n : ℕ}

/-- With a round for every character, the loop counts the occurrences behind the offset. -/
theorem countFrom_eq (hloc : loc ≠ []) : ∀ {fuel offset : ℕ} (count : ℕ), offset ≤ input.length →
    input.length - offset ≤ fuel →
      countFrom input loc fuel (find input loc offset) count = some (count + occurrences loc (input.drop offset))
  | fuel, offset, count, hoffset, hfuel => by
    have hpos := List.length_pos_iff.2 hloc
    rw [find, if_pos hoffset]
    cases hs : search loc (input.drop offset) with
    | none =>
      rw [occurrences_of_none hs]
      cases fuel <;> rfl
    | some p =>
      obtain ⟨x, y, hxy, rfl, hx⟩ := exists_of_search hs
      have hlen := congrArg List.length hxy
      rw [List.length_drop, List.length_append, List.length_append] at hlen
      obtain ⟨fuel, rfl⟩ : ∃ f, fuel = f + 1 := ⟨fuel - 1, by omega⟩
      have hrest : input.drop (x.length + offset + loc.length) = y := by
        rw [← drop_found x loc y, ← hxy, List.drop_drop]
        congr 1
        omega
      rw [Option.map_some, countFrom, countFrom_eq hloc (count + 1) (by omega) (by omega), hrest, hxy,
        occurrences_append hloc hx, Nat.add_assoc, Nat.add_comm 1]

/-- **The call ends** for whatever is not empty, with as many first occurrences replaced as were counted. -/
theorem replace_n_settles (hloc : loc ≠ []) (input replace : List α) (n : ℕ) :
    Settles (fun fuel => replace_n fuel input loc replace n)
      (replaceLoop loc replace (min n (occurrences loc input)) input) := by
  refine ⟨input.length, fun fuel hfuel => ?_⟩
  dsimp only
  rw [replace_n]
  split_ifs with hn
  · rw [hn, Nat.zero_min, replaceLoop]
  · rw [countFrom_eq hloc 0 (Nat.zero_le _) (by omega), List.drop_zero, Nat.zero_add, Option.map_some]

theorem replaceLoop_add (loc replace : List α) : ∀ (j m : ℕ) (s : List α),
    replaceLoop loc replace (j + m) s = replaceLoop loc replace m (replaceLoop loc replace j s)
  | 0, m, s => by rw [Nat.zero_add, replaceLoop]
  | j + 1, m, s => by rw [Nat.add_right_comm, replaceLoop, replaceLoop_add loc replace j, replaceLoop]

theorem replaceLoop_succ (j : ℕ) (s : List α) :
    replaceLoop loc replace (j + 1) s = replace_first (replaceLoop loc replace j s) loc replace := by
  rw [replaceLoop_add, replaceLoop, replaceLoop]

/-- The loop makes the texts with the first occurrences replaced exactly if each leads to the next one. -/
theorem replaceLoop_eq_iff (loc replace s : List α) (k : ℕ) :
    (∀ j ≤ k, replaceLoop loc replace j s = replaced loc replace j s) ↔
      ∀ j < k, replace_first (replaced loc replace j s) loc replace = replaced loc replace (j + 1) s := by
  constructor
  · intro h j hj
    rw [← h j hj.le, ← h (j + 1) hj, replaceLoop_succ]
  · intro h j hj
    induction j with
    | zero => rfl
    | succ j ih => rw [replaceLoop_succ, ih (by omega), h j hj]

end Call

/-! ## Replacements that part -/

section Parting

variable {loc replace l L R s x y : List α} {c d : α} {k : ℕ}

/-- The text with `j` occurrences replaced, the next one, and the text with more of them replaced. -/
theorem replaced_next (hloc : loc ≠ []) : ∀ {j k : ℕ} {s : List α}, j < k → k ≤ occurrences loc s →
    ∃ x y z, replaced loc replace j s = x ++ (loc ++ y) ∧ replaced loc replace (j + 1) s = x ++ (replace ++ y) ∧
      replaced loc replace k s = x ++ (replace ++ z)
  | 0, k, s, hj, hk => by
    obtain ⟨k, rfl⟩ : ∃ k', k = k' + 1 := ⟨k - 1, by omega⟩
    obtain ⟨x, y, rfl, hx, -⟩ := exists_of_occurrences hloc hk
    exact ⟨x, y, replaced loc replace k y, rfl, replaced_append hloc hx 0 y, replaced_append hloc hx k y⟩
  | j + 1, k, s, hj, hk => by
    obtain ⟨k, rfl⟩ : ∃ k', k = k' + 1 := ⟨k - 1, by omega⟩
    obtain ⟨x, y, rfl, hx, hky⟩ := exists_of_occurrences hloc hk
    obtain ⟨x', y', z', h, h', h''⟩ := replaced_next hloc (by omega : j < k) hky
    refine ⟨x ++ (replace ++ x'), y', z', ?_, ?_, ?_⟩
    · rw [replaced_append hloc hx, h, List.append_assoc, List.append_assoc]
    · rw [replaced_append hloc hx, h', List.append_assoc, List.append_assoc]
    · rw [replaced_append hloc hx, h'', List.append_assoc, List.append_assoc]

/-- A replacement that parts from what it replaces makes the text part; further replacements do not let it
come back. -/
theorem replaceLoop_parts (hcd : c ≠ d) {t : List α} : ∀ {m n : ℕ} {s : List α}, Parts c d t s n →
    ∃ n' ≤ n, Parts c d t (replaceLoop (l ++ c :: L) (l ++ d :: R) m s) n'
  | 0, n, s, h => ⟨n, le_rfl, h⟩
  | m + 1, n, s, h => by
    have hloc : l ++ c :: L ≠ [] := by simp
    rw [replaceLoop]
    by_cases hs : search (l ++ c :: L) s = none
    · have hsame : replace_first s (l ++ c :: L) (l ++ d :: R) = s := by rw [replace_first, if_neg hloc, hs]
      rw [hsame]
      exact replaceLoop_parts hcd h
    · obtain ⟨x, y, rfl, hx⟩ := exists_first hs
      rw [replace_first_append hloc hx]
      have hstep : Parts c d (x ++ ((l ++ c :: L) ++ y)) (x ++ ((l ++ d :: R) ++ y)) (x.length + l.length) := by
        rw [List.append_assoc, List.append_assoc]
        exact parts_append x l (L ++ y) (R ++ y)
      obtain ⟨n', hn', h'⟩ := replaceLoop_parts hcd (h.trans hcd hstep)
      exact ⟨n', hn'.trans (min_le_left _ _), h'⟩

theorem replaceLoop_eq_of_parting (hcd : c ≠ d) (hk : k ≤ occurrences (l ++ c :: L) s)
    (h : replaceLoop (l ++ c :: L) (l ++ d :: R) k s = replaced (l ++ c :: L) (l ++ d :: R) k s) :
    ∀ j ≤ k, replaceLoop (l ++ c :: L) (l ++ d :: R) j s = replaced (l ++ c :: L) (l ++ d :: R) j s := by
  have hloc : l ++ c :: L ≠ [] := by simp
  intro j hj
  induction j with
  | zero => rfl
  | succ j ih =>
    obtain ⟨X, Y, Z, hX, hX', hZ⟩ := @replaced_next _ _ _ (l ++ d :: R) hloc _ _ _ hj hk
    obtain ⟨x, y, hxy, hx⟩ := exists_first (@search_ne_none _ _ (l ++ c :: L) X Y)
    have hle := hx X y Y hxy.symm
    rw [replaceLoop_succ, ih (by omega), hX, hX', hxy, replace_first_append hloc hx]
    by_cases hlen : x.length = X.length
    · obtain ⟨rfl, heq⟩ := List.append_inj hxy hlen.symm
      rw [List.append_cancel_left heq]
    · -- the text has parted too early
      exfalso
      have hloop := replaceLoop_add (l ++ c :: L) (l ++ d :: R) (j + 1) (k - (j + 1)) s
      rw [Nat.add_sub_cancel' hj, h, hZ, replaceLoop_succ, ih (by omega), hX, hxy,
        replace_first_append hloc hx] at hloop
      have hfirst : Parts c d (x ++ ((l ++ c :: L) ++ y)) (x ++ ((l ++ d :: R) ++ y)) (x.length + l.length) := by
        rw [List.append_assoc, List.append_assoc]
        exact parts_append x l (L ++ y) (R ++ y)
      obtain ⟨n, hn, hparts⟩ := replaceLoop_parts (m := k - (j + 1)) hcd hfirst
      rw [← hloop, ← hxy, List.append_assoc, List.append_assoc] at hparts
      have heq := hparts.unique hcd (parts_append X l (L ++ Y) (R ++ Z))
      omega

end Parting

/-! ## Replacements that begin with what they replace -/

section Growing

variable {loc v s x y : List α} {k : ℕ}

/-- The first occurrence stays where it is. -/
theorem replaceLoop_grows (hloc : loc ≠ []) (hx : First loc x) : ∀ (m : ℕ) (y : List α),
    replaceLoop loc (loc ++ v) m (x ++ (loc ++ y)) = x ++ (loc ++ (power v m ++ y))
  | 0, y => by rw [replaceLoop, power_zero, List.nil_append]
  | m + 1, y => by
    rw [replaceLoop, replace_first_append hloc hx, List.append_assoc loc, replaceLoop_grows hloc hx m, power_succ',
      List.append_assoc (power v m)]

/-- If what is added comes to the same in front of the text, then it does so for fewer occurrences, too: it
commutes with everything up to each of them. -/
theorem replaced_eq_power (hloc : loc ≠ []) : ∀ {m : ℕ} {s : List α}, m ≤ occurrences loc s →
    replaced loc (loc ++ v) m s = power v m ++ s → ∀ i ≤ m, replaced loc (loc ++ v) i s = power v i ++ s
  | 0, s, _, _, i, hi => by
    obtain rfl := Nat.le_zero.1 hi
    rfl
  | m + 1, s, hm, h, i, hi => by
    obtain ⟨x, y, rfl, hx, hmy⟩ := exists_of_occurrences hloc hm
    rw [replaced_append hloc hx, List.append_assoc, ← List.append_assoc x, ← List.append_assoc x] at h
    have hcomm : (x ++ loc) ++ v = v ++ (x ++ loc) := by
      have hleft : x ++ loc ++ v <+: power v (m + 1) ++ (x ++ loc ++ y) :=
        ⟨replaced loc (loc ++ v) m y, by rw [← h, List.append_assoc]⟩
      have hright : power v (m + 1) ++ (x ++ loc) <+: power v (m + 1) ++ (x ++ loc ++ y) :=
        ⟨y, by rw [List.append_assoc]⟩
      refine comm_of_prefix (n := m) (List.prefix_of_prefix_length_le hleft hright ?_)
      rw [power_succ]
      simp only [List.length_append]
      omega
    have hrest : replaced loc (loc ++ v) m y = power v m ++ y := by
      rw [← List.append_assoc (power v (m + 1)), ← append_power_comm hcomm, List.append_assoc (x ++ loc),
        List.append_cancel_left_eq, power_succ, List.append_assoc, List.append_cancel_left_eq] at h
      exact h
    cases i with
    | zero => rfl
    | succ i =>
      rw [replaced_append hloc hx, replaced_eq_power hloc hmy hrest i (by omega), List.append_assoc loc,
        ← List.append_assoc v, ← power_succ, ← List.append_assoc x, ← List.append_assoc (x ++ loc),
        append_power_comm hcomm, List.append_assoc, List.append_assoc x]

theorem replaceLoop_eq_of_growing (hloc : loc ≠ []) (hk : k ≤ occurrences loc s)
    (h : replaceLoop loc (loc ++ v) k s = replaced loc (loc ++ v) k s) :
    ∀ j ≤ k, replaceLoop loc (loc ++ v) j s = replaced loc (loc ++ v) j s := by
  intro j hj
  cases j with
  | zero => rfl
  | succ j =>
    obtain ⟨k, rfl⟩ : ∃ k', k = k' + 1 := ⟨k - 1, by omega⟩
    obtain ⟨x, y, rfl, hx, hky⟩ := exists_of_occurrences hloc hk
    rw [replaceLoop_grows hloc hx, replaced_append hloc hx, power_succ, List.append_assoc loc, List.append_assoc v,
      List.append_cancel_left_eq, List.append_cancel_left_eq, List.append_cancel_left_eq] at h
    rw [replaceLoop_grows hloc hx, replaced_append hloc hx, replaced_eq_power hloc hky h.symm j (by omega), power_succ,
      List.append_assoc loc, List.append_assoc v]

end Growing

/-! ## Replacements that share nothing with what they replace -/

section Apart

variable {loc replace x u t s : List α}

/-- Where it does not begin to occur it is not found. -/
theorem search_skip : ∀ {u : List α}, (∀ i < u.length, ¬loc <+: u.drop i ++ t) →
    search loc (u ++ t) = (search loc t).map (· + u.length)
  | [], _ => by
    rw [List.nil_append, List.length_nil]
    cases search loc t <;> rfl
  | a :: u, h => by
    have hstart : ¬loc.isPrefixOf (a :: (u ++ t)) = true := fun hpre =>
      h 0 (Nat.succ_pos _) (List.isPrefixOf_iff_prefix.1 hpre)
    have hrest := search_skip (u := u) fun i hi => h (i + 1) (Nat.succ_lt_succ hi)
    rw [List.cons_append, search, if_neg hstart, hrest, List.length_cons, Option.map_map]
    rfl

omit [DecidableEq α] in
/-- Before the replacement, and in it, nothing occurs. -/
theorem not_prefix_before (hloc : loc ≠ []) (hx : First loc x) (hne : replace ≠ [])
    (happart : ∀ a ∈ replace, a ∉ loc) (i : ℕ) (hi : i < (x ++ replace).length) :
    ¬loc <+: (x ++ replace).drop i ++ t := by
  intro hpre
  have hpos := List.length_pos_iff.2 hloc
  have hpos' := List.length_pos_iff.2 hne
  rw [List.length_append] at hi
  rcases Nat.lt_or_ge (max i x.length - i) loc.length with hlt | hge
  · -- it would have an element of the replacement
    have hget := List.prefix_iff_getElem?.1 hpre _ hlt
    rw [List.getElem?_append_left (by rw [List.length_drop, List.length_append]; omega), List.getElem?_drop,
      List.getElem?_append_right (by omega)] at hget
    exact happart _ (List.mem_of_getElem? hget) (List.getElem_mem hlt)
  · rw [List.drop_append_of_le_length (by omega), List.append_assoc] at hpre
    obtain ⟨y, hy⟩ := List.prefix_of_prefix_length_le hpre (List.prefix_append _ _)
      (by rw [List.length_drop]; omega)
    have hx' : x ++ (loc ++ []) = x.take i ++ (loc ++ (y ++ loc)) := by
      rw [List.append_nil, ← List.append_assoc loc, hy, ← List.append_assoc, List.take_append_drop]
    have hle := hx _ _ _ hx'
    rw [List.length_take] at hle
    omega

/-- What comes next is replaced behind it. -/
theorem replace_first_skip (hloc : loc ≠ []) (hx : First loc x) (hne : replace ≠ [])
    (happart : ∀ a ∈ replace, a ∉ loc) : replace_first (x ++ (replace ++ t)) loc replace =
      x ++ (replace ++ replace_first t loc replace) := by
  have hsearch : search loc (x ++ replace ++ t) = (search loc t).map (· + (x ++ replace).length) :=
    search_skip (not_prefix_before hloc hx hne happart)
  rw [← List.append_assoc, ← List.append_assoc, replace_first, replace_first, if_neg hloc, if_neg hloc, hsearch]
  cases hs : search loc t with
  | none => rfl
  | some p =>
    rw [Option.map_some]
    dsimp only
    rw [Nat.add_right_comm, Nat.add_comm p, Nat.add_comm (p + loc.length), List.take_length_add_append,
      List.drop_length_add_append, List.append_assoc _ (t.take p)]

/-- **A replacement without the elements of what it replaces does not disturb anything.** -/
theorem undisturbed_of_apart (hloc : loc ≠ []) (hne : replace ≠ []) (happart : ∀ a ∈ replace, a ∉ loc) (n : ℕ) :
    Undisturbed s loc replace n := by
  have hnext : ∀ (j : ℕ) (s : List α),
      replace_first (replaced loc replace j s) loc replace = replaced loc replace (j + 1) s := by
    intro j
    induction j with
    | zero =>
      intro s
      rw [replaced, replace_first, if_neg hloc, replaced]
      rfl
    | succ j ih =>
      intro s
      cases hs : search loc s with
      | none =>
        rw [replaced, replaced, hs]
        dsimp only
        rw [replace_first, if_neg hloc, hs]
      | some p =>
        obtain ⟨x, y, rfl, rfl, hx⟩ := exists_of_search hs
        rw [replaced_append hloc hx, replaced_append hloc hx, replace_first_skip hloc hx hne happart, ih]
  exact fun j _ => hnext j s

end Apart

/-! ## Which occurrences are replaced -/

/-- **The first occurrences of the original text are replaced** if no replacement disturbs the next one.  For
a replacement that is not a proper beginning of what it replaces, there is no other way to come to that
text.  A replacement that shares no element with what it replaces disturbs nothing. -/
theorem replace_n_iff (input loc replace : List α) (n : ℕ) (hloc : loc ≠ []) :
    (Undisturbed input loc replace n → Bounded input loc replace n) ∧
      ((replace <+: loc → replace = loc) → Bounded input loc replace n → Undisturbed input loc replace n) ∧
      (replace ≠ [] → (∀ a ∈ replace, a ∉ loc) → Undisturbed input loc replace n) := by
  have hcall := replace_n_settles hloc input replace n
  have hk : min n (occurrences loc input) ≤ occurrences loc input := min_le_right _ _
  refine ⟨fun h => ?_, fun hproper h => ?_, fun hne happart => undisturbed_of_apart hloc hne happart n⟩
  · rw [Bounded, ← (replaceLoop_eq_iff loc replace input _).2 h _ le_rfl]
    exact hcall
  · have heq := hcall.unique h
    refine (replaceLoop_eq_iff loc replace input _).1 ?_
    by_cases hgrows : loc <+: replace
    · obtain ⟨v, rfl⟩ := hgrows
      exact replaceLoop_eq_of_growing hloc hk heq
    · have hshrinks : ¬replace <+: loc := fun hstart => hgrows (hproper hstart ▸ List.prefix_rfl)
      obtain ⟨l, c, d, L, R, hcd, rfl, rfl⟩ := exists_parting hgrows hshrinks
      exact replaceLoop_eq_of_parting hcd hk heq

/-- A text that shrinks comes to be the same, though the second occurrence that is taken out is another one. -/
example : ¬Undisturbed "aabbaabbab".toList "ab".toList [] 3 ∧
    replaceLoop "ab".toList [] 3 "aabbaabbab".toList = replaced "ab".toList [] 3 "aabbaabbab".toList := by decide

/-- The separators of a date. -/
theorem slashes_to_dashes : Bounded "2016/09/19".toList "/".toList "-".toList 2 :=
  (replace_n_iff "2016/09/19".toList "/".toList "-".toList 2 (by decide)).1 (by decide)

/-- Two separators to double: the first one is tripled. -/
theorem separator_tripled : ¬Bounded "a-b-c".toList "-".toList "--".toList 2 := by
  intro h
  have heq := (replace_n_settles (by decide) "a-b-c".toList "--".toList 2).unique h
  exact absurd heq (by decide)

end Redux.Util.ReplaceN
