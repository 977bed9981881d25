import Mathlib.Data.List.Range
import Mathlib.Logic.Equiv.Basic

/-!
# Lib.Gather — related elements, brought next to each other

What is related to what is given by numbers that are not zero.  One pass, from the end of a row, carries related
elements towards the one at place `i`: each of them stops behind the next one, and the first one next to place `i`.  After
the passes for all places no element is followed by an unrelated one and a related one further on (`gathered_gather`), so
that the elements of a class stand together (`Gathered.contiguous`).  `runs` then finds the classes by comparing
neighbours only.
-/

namespace Redux.Lib.Gather

section Gather

variable {α R : Type*} [Zero R] [DecidableEq R] (c : α → α → R)

/-- The element at place `j`, and the number for the element behind it. -/
def step (i : ℕ) (st : (ℕ → α) × R) (j : ℕ) : (ℕ → α) × R :=
  if c (st.1 i) (st.1 j) = 0 ∧ st.2 ≠ 0 then (st.1 ∘ Equiv.swap j (j + 1), st.2) else (st.1, c (st.1 i) (st.1 j))

/-- The places from `last - 1` down to `i + 1`. -/
def pass (last i : ℕ) (m : ℕ → α) : ℕ → α :=
  ((List.range' (i + 1) (last - 1 - i)).reverse.foldl (step c i) (m, c (m i) (m last))).1

/-- A pass for each place but the last. -/
def gather (first last : ℕ) (m : ℕ → α) : ℕ → α :=
  (List.range' first (last - first)).foldl (fun m i => pass c last i m) m

/-- What has been carried down to place `j`. -/
structure Carried (last i j : ℕ) (m : ℕ → α) (st : (ℕ → α) × R) : Prop where
  moved : ∃ σ : Equiv.Perm ℕ, st.1 = m ∘ σ ∧ ∀ k, k ≤ i ∨ last < k → σ k = k
  value : st.2 = c (st.1 i) (st.1 j)
  none : st.2 = 0 → ∀ k, j ≤ k → k ≤ last → c (st.1 i) (st.1 k) = 0

variable {c} {m : ℕ → α} {last i j : ℕ} {st : (ℕ → α) × R}

/-- **What one place does.** -/
theorem carried_step (h : Carried c last i (j + 1) m st) (hi : i < j) (hj : j < last) :
    Carried c last i j m (step c i st j) := by
  obtain ⟨σ, hσ, hfix⟩ := h.moved
  rw [step]
  by_cases hswap : c (st.1 i) (st.1 j) = 0 ∧ st.2 ≠ 0
  · rw [if_pos hswap]
    have hstay : (st.1 ∘ Equiv.swap j (j + 1)) i = st.1 i := by
      rw [Function.comp_apply, Equiv.swap_apply_of_ne_of_ne (by omega) (by omega)]
    have hhere : (st.1 ∘ Equiv.swap j (j + 1)) j = st.1 (j + 1) := by
      rw [Function.comp_apply, Equiv.swap_apply_left]
    refine ⟨⟨(Equiv.swap j (j + 1)).trans σ, by rw [hσ]; rfl, fun k hk => ?_⟩, ?_, fun hzero => absurd hzero hswap.2⟩
    · rw [Equiv.trans_apply, Equiv.swap_apply_of_ne_of_ne (by omega) (by omega), hfix k hk]
    · show st.2 = c ((st.1 ∘ Equiv.swap j (j + 1)) i) ((st.1 ∘ Equiv.swap j (j + 1)) j)
      rw [hstay, hhere]
      exact h.value
  · rw [if_neg hswap]
    refine ⟨⟨σ, hσ, hfix⟩, rfl, fun hzero k hk hlast => ?_⟩
    rcases Nat.eq_or_lt_of_le hk with rfl | hlt
    · exact hzero
    · by_contra hne
      exact hswap ⟨hzero, fun hnone => hne (h.none hnone k hlt hlast)⟩

theorem carried_foldl (n : ℕ) : ∀ {st : (ℕ → α) × R}, i + 1 + n ≤ last → Carried c last i (i + 1 + n) m st →
    Carried c last i (i + 1) m ((List.range' (i + 1) n).reverse.foldl (step c i) st) := by
  induction n with
  | zero => exact fun _ h => h
  | succ n ih =>
    intro st hn h
    rw [List.range'_concat, List.reverse_append, List.reverse_singleton, List.singleton_append, List.foldl_cons,
      Nat.one_mul]
    exact ih (by omega) (carried_step h (by omega) (by omega))

/-- **What a pass does**: the elements behind place `i` are permuted, and if one of them is related to that at place
`i`, the next one is. -/
theorem pass_spec (m : ℕ → α) (h : i < last) : ∃ σ : Equiv.Perm ℕ, pass c last i m = m ∘ σ ∧
    (∀ k, k ≤ i ∨ last < k → σ k = k) ∧
    (c (m i) (pass c last i m (i + 1)) = 0 → ∀ k, i < k → k ≤ last → c (m i) (pass c last i m k) = 0) := by
  have hstart : Carried c last i (i + 1 + (last - 1 - i)) m (m, c (m i) (m last)) := by
    rw [show i + 1 + (last - 1 - i) = last by omega]
    refine ⟨⟨Equiv.refl ℕ, rfl, fun _ _ => rfl⟩, rfl, fun hzero k hk hlast => ?_⟩
    rw [Nat.le_antisymm hlast hk]
    exact hzero
  have hend := carried_foldl (last - 1 - i) (by omega) hstart
  obtain ⟨σ, hσ, hfix⟩ := hend.moved
  have hstay : pass c last i m i = m i := by
    rw [pass, hσ, Function.comp_apply, hfix i (Or.inl le_rfl)]
  refine ⟨σ, hσ, hfix, fun hzero k hk hlast => ?_⟩
  have hnone := hend.none
  rw [hend.value] at hnone
  change c (pass c last i m i) (pass c last i m (i + 1)) = 0 → ∀ k, i + 1 ≤ k → k ≤ last →
    c (pass c last i m i) (pass c last i m k) = 0 at hnone
  rw [hstay] at hnone
  exact hnone hzero k hk hlast

/-- Up to place `i`, no element is followed by an unrelated one and a related one further on. -/
def GatheredTo (c : α → α → R) (first last i : ℕ) (m : ℕ → α) : Prop :=
  ∀ p, first ≤ p → p < i → c (m p) (m (p + 1)) = 0 → ∀ k, p < k → k ≤ last → c (m p) (m k) = 0

variable {first : ℕ}

/-- A permutation that leaves all places but `i + 1` to `last` leaves these places as a whole. -/
theorem perm_mem {σ : Equiv.Perm ℕ} (hfix : ∀ k, k ≤ i ∨ last < k → σ k = k) {k : ℕ} (hk : i < k) (hlast : k ≤ last) :
    i < σ k ∧ σ k ≤ last := by
  by_contra hout
  have hsame : σ (σ k) = σ k := hfix _ (by omega)
  have heq : σ k = k := σ.injective hsame
  omega

/-- **What a pass preserves, and adds.** -/
theorem gatheredTo_pass (h : GatheredTo c first last i m) (hi : i < last) :
    GatheredTo c first last (i + 1) (pass c last i m) := by
  obtain ⟨σ, hσ, hfix, hpass⟩ := pass_spec (c := c) m hi
  have hstay : ∀ k ≤ i, pass c last i m k = m k := fun k hk => by
    rw [hσ, Function.comp_apply, hfix k (Or.inl hk)]
  intro p hfirst hp hzero k hk hlast
  rcases Nat.eq_or_lt_of_le (Nat.le_of_lt_succ hp) with rfl | hlt
  · rw [hstay p le_rfl] at hzero ⊢
    exact hpass hzero k hk hlast
  · rw [hstay p hlt.le, hstay (p + 1) hlt] at hzero
    rw [hstay p hlt.le]
    by_cases hki : k ≤ i
    · rw [hstay k hki]
      exact h p hfirst hlt hzero k hk hlast
    · obtain ⟨hlow, hhigh⟩ := perm_mem hfix (Nat.lt_of_not_le hki) hlast
      rw [hσ, Function.comp_apply]
      exact h p hfirst hlt hzero _ (hlt.trans hlow) hhigh

/-- **What the passes do.** -/
theorem gather_passes (n : ℕ) (hn : first + n ≤ last) : ∃ σ : Equiv.Perm ℕ,
    (List.range' first n).foldl (fun m i => pass c last i m) m = m ∘ σ ∧ (∀ k, k < first ∨ last < k → σ k = k) ∧
    GatheredTo c first last (first + n) ((List.range' first n).foldl (fun m i => pass c last i m) m) := by
  induction n with
  | zero => exact ⟨Equiv.refl ℕ, rfl, fun _ _ => rfl, fun p hfirst hp => absurd hp (by omega)⟩
  | succ n ih =>
    obtain ⟨σ, hσ, hfix, hgathered⟩ := ih (by omega)
    rw [List.range'_concat, List.foldl_append, List.foldl_cons, List.foldl_nil, Nat.one_mul]
    obtain ⟨τ, hτ, hτfix, -⟩ :=
      pass_spec (c := c) (i := first + n) ((List.range' first n).foldl (fun m i => pass c last i m) m)
        (show first + n < last by omega)
    have hlt : first + n < last := by omega
    refine ⟨τ.trans σ, ?_, fun k hk => ?_, gatheredTo_pass hgathered hlt⟩
    · rw [hτ, hσ]
      rfl
    · rw [Equiv.trans_apply, hτfix k (hk.imp (fun h => by omega) id), hfix k hk]

variable (c) in
/-- **The places from `first` to `last` are permuted, and no element is followed by an unrelated one and a related
one further on.** -/
theorem gathered_gather (m : ℕ → α) (h : first ≤ last) : ∃ σ : Equiv.Perm ℕ, gather c first last m = m ∘ σ ∧
    (∀ k, k < first ∨ last < k → σ k = k) ∧ GatheredTo c first last last (gather c first last m) := by
  obtain ⟨σ, hσ, hfix, hgathered⟩ := gather_passes (c := c) (m := m) (last - first) (show first + _ ≤ last by omega)
  rw [show first + (last - first) = last by omega] at hgathered
  exact ⟨σ, hσ, hfix, hgathered⟩

end Gather

/-! ## Classes -/

section Classes

variable {α R κ : Type*} [Zero R]

/-- Elements at different places are related exactly if they are of the same class. -/
def Classified (c : α → α → R) (cls : α → κ) (first last : ℕ) (m : ℕ → α) : Prop :=
  ∀ p q, first ≤ p → p ≤ last → first ≤ q → q ≤ last → p ≠ q → (c (m p) (m q) ≠ 0 ↔ cls (m p) = cls (m q))

variable {c : α → α → R} {cls : α → κ} {first last p q r : ℕ} {m : ℕ → α}

/-- **Elements of a class stand together.** -/
theorem GatheredTo.contiguous (h : GatheredTo c first last last m) (hc : Classified c cls first last m)
    (hfirst : first ≤ p) (hpq : p ≤ q) (hqr : q ≤ r) (hlast : r ≤ last) (hcls : cls (m p) = cls (m r)) :
    cls (m q) = cls (m p) := by
  induction q, hpq using Nat.le_induction with
  | base => rfl
  | succ q hpq ih =>
    have hq := ih (by omega)
    have hrelated : c (m q) (m r) ≠ 0 :=
      (hc q r (by omega) (by omega) (by omega) hlast (by omega)).2 (hq.trans hcls)
    have hnext : c (m q) (m (q + 1)) ≠ 0 := fun hzero => hrelated (h q (by omega) (by omega) hzero r hqr hlast)
    rw [← hq]
    exact ((hc q (q + 1) (by omega) (by omega) (by omega) (by omega) (by omega)).1 hnext).symm

end Classes

/-! ## Runs -/

section Runs

variable {R : Type*} [Zero R] [DecidableEq R] (values : ℕ → R) (last : ℕ)

/-- `while( n <= last && values[n] ) ++n`. -/
def skip (n : ℕ) : ℕ := if n ≤ last ∧ values n ≠ 0 then skip (n + 1) else n
termination_by last + 1 - n

/-- A number of runs, the first of which begins at `n`: their first and last places. -/
def runs : ℕ → ℕ → List (ℕ × ℕ)
  | 0, _ => []
  | b + 1, n => (n, skip values last (n + 1) - 1) :: runs b (skip values last (n + 1))

/-- How often a new run begins behind place `n`. -/
def breaks (n : ℕ) : ℕ := (List.range' (n + 1) (last - n)).countP fun k => values k = 0

/-- The runs from place `n` on, one behind the other and each as long as it can be. -/
def Tiles : ℕ → List (ℕ × ℕ) → Prop
  | n, [] => n = last + 1
  | n, b :: bs => b.1 = n ∧ n ≤ b.2 ∧ b.2 ≤ last ∧ (∀ k, n < k → k ≤ b.2 → values k ≠ 0) ∧
    (b.2 < last → values (b.2 + 1) = 0) ∧ Tiles (b.2 + 1) bs

theorem skip_spec (n : ℕ) (h : n ≤ last + 1) : n ≤ skip values last n ∧ skip values last n ≤ last + 1 ∧
    (∀ k, n ≤ k → k < skip values last n → values k ≠ 0) ∧
    (skip values last n ≤ last → values (skip values last n) = 0) := by
  fun_induction skip values last n with
  | case1 n hgo ih =>
    obtain ⟨hle, hlast, hall, hend⟩ := ih (by omega)
    refine ⟨by omega, hlast, fun k hk hlt => ?_, hend⟩
    rcases Nat.eq_or_lt_of_le hk with rfl | hk
    · exact hgo.2
    · exact hall k hk hlt
  | case2 n hstop =>
    refine ⟨le_rfl, h, fun k hk hlt => absurd hlt (by omega), fun hle => ?_⟩
    by_contra hne
    exact hstop ⟨hle, hne⟩

/-- **As many runs as there are breaks, and one more, are all there are.** -/
theorem tiles_runs (n : ℕ) (h : n ≤ last) : Tiles values last n (runs values last (breaks values last n + 1) n) := by
  induction hd : last - n using Nat.strong_induction_on generalizing n with
  | _ d ih =>
    obtain ⟨hle, hlast, hall, hend⟩ := skip_spec values last (n + 1) (by omega)
    rw [runs]
    refine ⟨rfl, by dsimp only; omega, by dsimp only; omega, fun k hk hkle => ?_, fun hlt => ?_, ?_⟩
    · exact hall k hk (by dsimp only at hkle; omega)
    · dsimp only at hlt ⊢
      rw [Nat.sub_add_cancel (by omega)]
      exact hend (by omega)
    · dsimp only
      rw [Nat.sub_add_cancel (by omega)]
      have hnone : (List.range' (n + 1) (skip values last (n + 1) - (n + 1))).countP (fun k => values k = 0) = 0 := by
        rw [List.countP_eq_zero]
        intro k hk
        rw [List.mem_range'_1] at hk
        rw [decide_eq_true_eq]
        exact hall k hk.1 (by omega)
      rcases Nat.lt_or_ge last (skip values last (n + 1)) with hover | hin
      · have hzero : breaks values last n = 0 := by
          rw [breaks, show last - n = skip values last (n + 1) - (n + 1) by omega]
          exact hnone
        rw [hzero]
        show skip values last (n + 1) = last + 1
        omega
      · have hbreaks : breaks values last n = breaks values last (skip values last (n + 1)) + 1 := by
          have hlength : last - n = skip values last (n + 1) - (n + 1) + (last - skip values last (n + 1) + 1) := by
            omega
          rw [breaks, hlength, ← List.range'_append_1, List.countP_append, hnone, Nat.zero_add,
            show n + 1 + (skip values last (n + 1) - (n + 1)) = skip values last (n + 1) by omega, List.range'_succ,
            List.countP_cons_of_pos (by rw [decide_eq_true_eq]; exact hend hin), breaks]
        rw [hbreaks]
        exact ih _ (by omega) _ hin rfl

variable {values last}

omit [DecidableEq R] in
/-- **Every place is in a run**, which is the first one that a search finds. -/
theorem Tiles.exists_find {bs : List (ℕ × ℕ)} {n p : ℕ} (h : Tiles values last n bs) (hn : n ≤ p) (hp : p ≤ last) :
    ∃ b, bs.find? (fun b => b.1 ≤ p ∧ p ≤ b.2) = some b ∧ b ∈ bs ∧ b.1 ≤ p ∧ p ≤ b.2 := by
  induction bs generalizing n with
  | nil =>
    have hend : n = last + 1 := h
    omega
  | cons b bs ih =>
    obtain ⟨hfirst, hle, hlast, hall, hbreak, hrest⟩ := h
    by_cases hin : p ≤ b.2
    · exact ⟨b, List.find?_cons_of_pos (by simp; omega), List.mem_cons_self, by omega, hin⟩
    · obtain ⟨b', hfind, hmem, hb'⟩ := ih hrest (by omega)
      refine ⟨b', ?_, List.mem_cons_of_mem _ hmem, hb'⟩
      rw [List.find?_cons_of_neg (by simp; omega)]
      exact hfind

omit [DecidableEq R] in
/-- **A run is as long as it can be.** -/
theorem Tiles.maximal {bs : List (ℕ × ℕ)} {n : ℕ} {b : ℕ × ℕ} (h : Tiles values last n bs) (hb : b ∈ bs) :
    n ≤ b.1 ∧ b.1 ≤ b.2 ∧ b.2 ≤ last ∧ (∀ k, b.1 < k → k ≤ b.2 → values k ≠ 0) ∧
      (b.2 < last → values (b.2 + 1) = 0) ∧ (n < b.1 → values b.1 = 0) := by
  induction bs generalizing n with
  | nil => exact absurd hb List.not_mem_nil
  | cons b' bs ih =>
    obtain ⟨rfl, hle, hlast, hall, hbreak, hrest⟩ := h
    rcases List.mem_cons.1 hb with rfl | hb
    · exact ⟨le_rfl, hle, hlast, hall, hbreak, fun h => absurd h (lt_irrefl _)⟩
    · obtain ⟨hfirst, hle', hlast', hall', hbreak', hstart⟩ := ih hrest hb
      refine ⟨by omega, hle', hlast', hall', hbreak', fun _ => ?_⟩
      rcases Nat.eq_or_lt_of_le hfirst with heq | hlt
      · rw [← heq]
        exact hbreak (by omega)
      · exact hstart hlt

omit [DecidableEq R] in
/-- One run ends before the next begins. -/
theorem Tiles.pairwise {bs : List (ℕ × ℕ)} {n : ℕ} (h : Tiles values last n bs) :
    bs.Pairwise fun b b' => b.2 < b'.1 := by
  induction bs generalizing n with
  | nil => exact List.Pairwise.nil
  | cons b bs ih =>
    obtain ⟨-, -, -, -, -, hrest⟩ := h
    exact List.Pairwise.cons (fun b' hb' => (hrest.maximal hb').1) (ih hrest)

/-- How many places a run has. -/
def size (b : ℕ × ℕ) : ℕ := b.2 - b.1 + 1

omit [DecidableEq R] in
/-- **What is listed run by run is found by the place.** -/
theorem Tiles.getElem?_flatMap {β : Type*} (f : ℕ × ℕ → ℕ → β) {bs : List (ℕ × ℕ)} {n p : ℕ} {b : ℕ × ℕ}
    (h : Tiles values last n bs) (hb : b ∈ bs) (hp : b.1 ≤ p) (hle : p ≤ b.2) :
    (bs.flatMap fun b => (List.range (size b)).map (f b))[p - n]? = some (f b (p - b.1)) := by
  induction bs generalizing n with
  | nil => exact absurd hb List.not_mem_nil
  | cons b' bs ih =>
    obtain ⟨rfl, hle', hlast, hall, hbreak, hrest⟩ := h
    have hlength : ((List.range (size b')).map (f b')).length = b'.2 - b'.1 + 1 := by
      rw [List.length_map, List.length_range, size]
    rw [List.flatMap_cons]
    rcases List.mem_cons.1 hb with rfl | hb
    · rw [List.getElem?_append_left (by omega), List.getElem?_map, List.getElem?_range (by rw [size]; omega),
        Option.map_some]
    · have hfirst := (hrest.maximal hb).1
      rw [List.getElem?_append_right (by omega), hlength, show p - b'.1 - (b'.2 - b'.1 + 1) = p - (b'.2 + 1) by omega]
      exact ih hrest hb

end Runs

/-! ## The runs of a gathered row -/

section Rows

variable {α R κ : Type*} [Zero R] {c : α → α → R} {cls : α → κ} {first last p q : ℕ} {m : ℕ → α} {b : ℕ × ℕ}
  {bs : List (ℕ × ℕ)}

/-- Where neighbours are related, the class stays the same. -/
theorem cls_of_related (hc : Classified c cls first last m) (hfirst : first ≤ b.1) (hlast : b.2 ≤ last)
    (hall : ∀ k, b.1 < k → k ≤ b.2 → c (m (k - 1)) (m k) ≠ 0) (hp : b.1 ≤ p) (hle : p ≤ b.2) :
    cls (m p) = cls (m b.1) := by
  induction p, hp using Nat.le_induction with
  | base => rfl
  | succ p hp ih =>
    rw [← ih (by omega)]
    have hrelated := hall (p + 1) (by omega) hle
    rw [Nat.add_sub_cancel] at hrelated
    exact ((hc p (p + 1) (by omega) (by omega) (by omega) (by omega) (by omega)).1 hrelated).symm

/-- **The runs of related neighbours in a gathered row are the classes.** -/
theorem Tiles.run_iff (h : Tiles (fun k => c (m (k - 1)) (m k)) last first bs) (hg : GatheredTo c first last last m)
    (hc : Classified c cls first last m) (hb : b ∈ bs) (hp : b.1 ≤ p ∧ p ≤ b.2) (hq : first ≤ q ∧ q ≤ last) :
    cls (m q) = cls (m p) ↔ b.1 ≤ q ∧ q ≤ b.2 := by
  obtain ⟨hfirst, hle, hlast, hall, hbreak, hstart⟩ := h.maximal hb
  have hsame : ∀ k, b.1 ≤ k → k ≤ b.2 → cls (m k) = cls (m p) := fun k hk hk' =>
    (cls_of_related hc hfirst hlast hall hk hk').trans (cls_of_related hc hfirst hlast hall hp.1 hp.2).symm
  refine ⟨fun hcls => ⟨?_, ?_⟩, fun hin => hsame q hin.1 hin.2⟩
  · by_contra hlt
    have hbefore := hg.contiguous hc hq.1 (show q ≤ b.1 - 1 by omega) (show b.1 - 1 ≤ p by omega) (by omega) hcls
    have hne := (hc (b.1 - 1) b.1 (by omega) (by omega) (by omega) (by omega) (by omega)).2
      ((hbefore.trans hcls).trans (hsame b.1 le_rfl hle).symm)
    exact hne (hstart (by omega))
  · by_contra hgt
    have hbehind := hg.contiguous hc (show first ≤ p by omega) (show p ≤ b.2 + 1 by omega) (by omega) hq.2 hcls.symm
    have hne := (hc b.2 (b.2 + 1) (by omega) (by omega) (by omega) (by omega) (by omega)).2
      ((hsame b.2 hle le_rfl).trans hbehind.symm)
    have hzero := hbreak (by omega)
    rw [Nat.add_sub_cancel] at hzero
    exact hne hzero

end Rows

end Redux.Lib.Gather
