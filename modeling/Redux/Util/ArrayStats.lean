import Mathlib.Algebra.Order.Field.Basic
import Mathlib.Algebra.Order.Ring.Rat
import Mathlib.Algebra.BigOperators.Group.List.Basic
import Mathlib.Data.List.Sort
import Mathlib.Order.Bounds.Basic
import Redux.Util.ArrayAccess
import Redux.Util.ArrayLimits
import Redux.Util.ArrayPack

/-!
# Util.ArrayStats — minimum, maximum, sums and mean of a view

`getMinMaxMean` goes over the elements from the last to the first, and an element that is a new maximum is not
compared with the minimum: the first element that it visits never is, for it is a new maximum (`minimum_iff`).
Of a dense view it takes as many elements from the beginning of the data block as the view has.  With a
`borderClip`, `getStats` takes the limits of the view in the block for limits inside the view, goes on where twice
the clip is all of a dimension, and doubles the clip in 32 bits.  Together these say when the statistics are those
of the elements in question (`describes_iff`).
-/

namespace Redux.Util.Arrays

open Redux.Lib

/-! ## Model -/

/-- The members of `ArrayStats` that `getMinMaxMean` sets. -/
structure Stats (K : Type*) where
  min : K
  max : K
  sum : K
  sqr_sum : K
  norm : K
  mean : K
  hasInfinity : Bool
  deriving DecidableEq

section Model

variable {K : Type*} [Field K] [LinearOrder K]

/-- `std::numeric_limits<double>::max()`; `lowest()` is its negative. -/
def DBL_MAX (K : Type*) [Field K] : K := ((2 ^ 53 - 1) * 2 ^ 971 : ℕ)

/-- The loop of `getMinMaxMean` for one value, which is finite, with `count`. -/
def addValue (s : Stats K × ℕ) (tmp : K) : Stats K × ℕ :=
  let st := s.1
  let st := if tmp > st.max then { st with max := tmp } else if tmp < st.min then { st with min := tmp } else st
  ({ st with sum := st.sum + tmp, norm := st.norm + |tmp|, sqr_sum := st.sqr_sum + tmp * tmp }, s.2 + 1)

/-- The members that the loop begins with. -/
def Stats.start (st : Stats K) : Stats K :=
  { st with min := DBL_MAX K, max := -DBL_MAX K, sum := 0, sqr_sum := 0, norm := 0, hasInfinity := false }

/-- `getMinMaxMean( data, n )`: the values from the last one to the first. -/
def getMinMaxMean (values : List K) (st : Stats K) : Stats K :=
  let (st, count) := values.reverse.foldl addValue (st.start, 0)
  let st := { st with mean := st.sum }
  if count ≠ 0 then { st with mean := st.mean / count } else st

namespace Array

variable (a : Array)

/-- The places in the data block that `getMinMaxMean( data )` takes the values from: of a dense view from `data.ptr()`
on, of another one by the iterator. -/
def statCells : Option (List ℤ) :=
  if a.dense_ then (a.ptr []).map fun offset => (List.range a.nElements_).map fun i : ℕ => offset + i
  else a.forwards (a.nElements_ + 1)

/-- The loop of `getStats( borderClip, data )` over the dimensions: the limits, or nothing if all is clipped. -/
def clipLimits (borderClip : ℕ) : List Dim → Option (List (ℤ × ℤ))
  | [] => some []
  | d :: ds =>
    if d.current = 1 then (clipLimits borderClip ds).map ((d.first, d.last) :: ·)
    else if 2 * borderClip % 2 ^ 32 > d.current then none
    else (clipLimits borderClip ds).map ((d.first + borderClip, d.last - borderClip) :: ·)

/-- `getStats( borderClip, data )` for `ST_VALUES`: the places that it takes values from, and the statistics. -/
def getStats (borderClip : ℕ) (value : ℤ → K) (st : Stats K) : Option (List ℤ × Stats K) :=
  let stats (a : Array) := a.statCells.map fun cells => (cells, getMinMaxMean (cells.map value) st)
  if borderClip = 0 then stats a
  else
    match clipLimits borderClip a.dims with
    | none => some ([], st)
    | some limits => (a.setLimits (limits.map Prod.fst) (limits.map Prod.snd)).bind stats

end Array

end Model

/-! ## What is to hold -/

section Spec

variable {K : Type*} [Field K] [LinearOrder K]

/-- An index is at least `c` from the borders, in every dimension of more than one. -/
def Inner (c : ℕ) : List Dim → ℤ → Prop
  | [], _ => True
  | d :: ds, p => (d.current = 1 ∨ d.first + c ≤ p / d.stride ∧ p / d.stride ≤ d.last - c) ∧ Inner c ds (p % d.stride)

instance decidableInner (c : ℕ) : ∀ (ds : List Dim) (p : ℤ), Decidable (Inner c ds p)
  | [], _ => inferInstanceAs (Decidable True)
  | d :: ds, p =>
    have := decidableInner c ds (p % d.stride)
    inferInstanceAs (Decidable (_ ∧ _))

/-- The elements that are at least `c` from the borders of the view. -/
def Array.inner (a : Array) (c : ℕ) : List ℤ := a.elements.filter fun p => Inner c a.dims p

/-- The statistics are those of the values. -/
structure Describes (values : List K) (st : Stats K) : Prop where
  min : IsLeast {x | x ∈ values} st.min
  max : IsGreatest {x | x ∈ values} st.max
  sum : st.sum = values.sum
  norm : st.norm = (values.map fun x => |x|).sum
  sqr_sum : st.sqr_sum = (values.map fun x => x * x).sum
  mean : st.mean = values.sum / values.length

/-- The statistics are taken from exactly the elements away from the borders, and describe them; without such elements
they are left as they are. -/
def Array.Describes (a : Array) (borderClip : ℕ) (value : ℤ → K) (st : Stats K) : Prop :=
  ∃ cells st', a.getStats borderClip value st = some (cells, st') ∧ cells = a.inner borderClip ∧
    if a.inner borderClip = [] then st' = st else Arrays.Describes ((a.inner borderClip).map value) st'

/-- The least value is not that of the last element alone, or the limit of the type. -/
def MinimumSeen (values : List K) : Prop :=
  ∃ m, IsLeast {x | x ∈ values} m ∧ (m ∈ values.dropLast ∨ m = DBL_MAX K ∨ m = -DBL_MAX K)

/-- The loop takes the dimension to be clipped away. -/
def AllClipped (c : ℕ) (d : Dim) : Prop := d.current ≠ 1 ∧ 2 * c % 2 ^ 32 > d.current

instance (c : ℕ) (d : Dim) : Decidable (AllClipped c d) := inferInstanceAs (Decidable (_ ∧ _))

/-- The elements in question are the ones that are visited. -/
structure Array.Found (a : Array) (borderClip : ℕ) : Prop where
  none_left : a.inner borderClip = [] → ∃ d ∈ a.dims, AllClipped borderClip d
  relative : borderClip ≠ 0 → a.inner borderClip ≠ [] → ∀ d ∈ a.dims, d.current ≠ 1 → d.first = 0
  apart : (a.inner borderClip).IsChain (fun p q => q = p + 1) → ∀ p ∈ (a.inner borderClip).head?, p = 0

end Spec

/-! ## The values -/

section Values

variable {K : Type*} [Field K] [LinearOrder K] {values : List K} {m : K}

/-- The minimum is seen unless it is a new maximum. -/
theorem foldl_min : ∀ {l : List K} (s : Stats K × ℕ), (∀ x ∈ l, m ≤ x) → m ≤ s.1.max → m ≤ s.1.min →
    ((l.foldl addValue s).1.min = m ↔ m ∈ l ∨ s.1.min = m)
  | [], s, _, _, _ => by simp
  | x :: l, s, hle, hmax, hmin => by
    obtain ⟨hx, hl⟩ := List.forall_mem_cons.1 hle
    rw [List.foldl_cons, List.mem_cons]
    by_cases hnew : x > s.1.max
    · have hne : m ≠ x := (hmax.trans_lt hnew).ne
      have hs : (addValue s x).1.min = s.1.min ∧ (addValue s x).1.max = x := by simp [addValue, hnew]
      rw [foldl_min _ hl (by rwa [hs.2]) (by rwa [hs.1]), hs.1, or_iff_right hne]
    · by_cases hless : x < s.1.min
      · have hne : s.1.min ≠ m := (hx.trans_lt hless).ne'
        have hs : (addValue s x).1.min = x ∧ (addValue s x).1.max = s.1.max := by simp [addValue, hnew, hless]
        rw [foldl_min _ hl (by rwa [hs.2]) (by rwa [hs.1]), hs.1, or_iff_left hne, or_comm, eq_comm]
      · have hs : (addValue s x).1.min = s.1.min ∧ (addValue s x).1.max = s.1.max := by simp [addValue, hnew, hless]
        have hsame : m = x → s.1.min = m := fun h => le_antisymm (h ▸ le_of_not_gt hless) hmin
        rw [foldl_min _ hl (by rwa [hs.2]) (by rwa [hs.1]), hs.1]
        tauto

theorem addValue_max (s : Stats K × ℕ) (x : K) : (addValue s x).1.max = Max.max s.1.max x := by
  unfold addValue
  dsimp only
  split_ifs with hnew hless
  · exact (max_eq_right hnew.le).symm
  · exact (max_eq_left (le_of_not_gt hnew)).symm
  · exact (max_eq_left (le_of_not_gt hnew)).symm

theorem addValue_sums (s : Stats K × ℕ) (x : K) : (addValue s x).1.sum = s.1.sum + x ∧
    (addValue s x).1.norm = s.1.norm + |x| ∧ (addValue s x).1.sqr_sum = s.1.sqr_sum + x * x := by
  unfold addValue
  dsimp only
  split_ifs <;> exact ⟨rfl, rfl, rfl⟩

/-- The maximum after the loop. -/
theorem foldl_max : ∀ (l : List K) (s : Stats K × ℕ),
    IsGreatest {x | x = s.1.max ∨ x ∈ l} (l.foldl addValue s).1.max
  | [], s => by
    refine ⟨.inl rfl, ?_⟩
    rintro x (rfl | hx)
    · exact le_rfl
    · exact absurd hx List.not_mem_nil
  | x :: l, s => by
    obtain ⟨hmem, hle⟩ := foldl_max l (addValue s x)
    rw [List.foldl_cons]
    have hmax : (addValue s x).1.max ≤ (l.foldl addValue (addValue s x)).1.max := hle (.inl rfl)
    rw [addValue_max, max_le_iff] at hmax
    refine ⟨?_, ?_⟩
    · rcases hmem with heq | hmem
      · rw [addValue_max] at heq
        rcases max_choice s.1.max x with h | h
        · exact .inl (heq.trans h)
        · exact .inr (List.mem_cons.2 (.inl (heq.trans h)))
      · exact .inr (List.mem_cons_of_mem x hmem)
    · rintro y (rfl | hy)
      · exact hmax.1
      · rcases List.mem_cons.1 hy with rfl | hy
        · exact hmax.2
        · exact hle (.inr hy)

/-- The sums after the loop. -/
theorem foldl_sums : ∀ (l : List K) (s : Stats K × ℕ), (l.foldl addValue s).1.sum = s.1.sum + l.sum ∧
    (l.foldl addValue s).1.norm = s.1.norm + (l.map fun x => |x|).sum ∧
      (l.foldl addValue s).1.sqr_sum = s.1.sqr_sum + (l.map fun x => x * x).sum ∧
        (l.foldl addValue s).2 = s.2 + l.length
  | [], s => by simp
  | x :: l, s => by
    obtain ⟨hsum, hnorm, hsqr, hcount⟩ := foldl_sums l (addValue s x)
    obtain ⟨hsum', hnorm', hsqr'⟩ := addValue_sums s x
    have hcount' : (addValue s x).2 = s.2 + 1 := rfl
    rw [List.foldl_cons, hsum, hnorm, hsqr, hcount, hsum', hnorm', hsqr', hcount']
    simp only [List.sum_cons, List.map_cons, List.length_cons, add_assoc, true_and]
    omega

/-- The members after the loop, from the last value to the first. -/
def afterLoop (values : List K) (st : Stats K) : Stats K × ℕ :=
  values.reverse.foldl addValue (st.start, 0)

theorem getMinMaxMean_eq (hne : values ≠ []) (st : Stats K) :
    getMinMaxMean values st = { (afterLoop values st).1 with mean := values.sum / values.length } := by
  obtain ⟨hsum, -, -, hcount⟩ := foldl_sums values.reverse (st.start, 0)
  have hcount' : (afterLoop values st).2 = values.length := by
    rw [afterLoop, hcount, List.length_reverse, Nat.zero_add]
  have hsum' : (afterLoop values st).1.sum = values.sum := by
    rw [afterLoop, hsum, List.sum_reverse]
    exact zero_add _
  have heq : getMinMaxMean values st =
      if (afterLoop values st).2 ≠ 0 then
        { (afterLoop values st).1 with mean := (afterLoop values st).1.sum / (afterLoop values st).2 }
      else { (afterLoop values st).1 with mean := (afterLoop values st).1.sum } := rfl
  rw [heq, hcount', hsum', if_pos fun h => hne (List.length_eq_zero_iff.1 h)]

variable [IsStrictOrderedRing K]

theorem DBL_MAX_pos : 0 < DBL_MAX K := by
  have h : 0 < 2 ^ 53 - 1 := by norm_num
  exact Nat.cast_pos.2 (Nat.mul_pos h (pow_pos two_pos 971))

/-- All but the minimum is always right. -/
theorem describes_iff_min (hne : values ≠ []) (hfinite : ∀ x ∈ values, |x| ≤ DBL_MAX K) (st : Stats K) :
    Describes values (getMinMaxMean values st) ↔ IsLeast {x | x ∈ values} (getMinMaxMean values st).min := by
  refine ⟨Describes.min, fun hmin => ?_⟩
  rw [getMinMaxMean_eq hne] at hmin ⊢
  obtain ⟨hsum, hnorm, hsqr, -⟩ := foldl_sums values.reverse (st.start, 0)
  obtain ⟨hmem, hle⟩ := foldl_max values.reverse (st.start, 0)
  have hle' : ∀ x ∈ values, x ≤ (afterLoop values st).1.max := fun x hx => hle (.inr (List.mem_reverse.2 hx))
  refine ⟨hmin, ⟨?_, hle'⟩, ?_, ?_, ?_, rfl⟩
  · rcases hmem with heq | hmem
    · -- all values are the lowest of the type
      obtain ⟨x, hx⟩ := List.exists_mem_of_ne_nil values hne
      have hx' : x = (afterLoop values st).1.max :=
        le_antisymm (hle' x hx) (heq.trans_le (abs_le.1 (hfinite x hx)).1)
      exact hx' ▸ hx
    · exact List.mem_reverse.1 hmem
  · exact hsum.trans (by rw [List.sum_reverse]; exact zero_add _)
  · exact hnorm.trans (by rw [List.map_reverse, List.sum_reverse]; exact zero_add _)
  · exact hsqr.trans (by rw [List.map_reverse, List.sum_reverse]; exact zero_add _)

/-- The loop finds the least value, or it does not. -/
theorem afterLoop_min (hne : values ≠ []) (hfinite : ∀ x ∈ values, |x| ≤ DBL_MAX K) (st : Stats K)
    (hm : IsLeast {x | x ∈ values} m) :
    (afterLoop values st).1.min = m ↔ m ∈ values.dropLast ∨ m = DBL_MAX K ∨ m = -DBL_MAX K := by
  have hsplit := List.dropLast_append_getLast hne
  have hreverse : values.reverse = values.getLast hne :: values.dropLast.reverse := by
    conv_lhs => rw [← hsplit, List.reverse_append]
    rfl
  have hlast := List.getLast_mem hne
  have hleast := hm.2 hlast
  have hrest : ∀ x ∈ values.dropLast.reverse, m ≤ x := fun x hx => hm.2 (List.dropLast_subset _ (List.mem_reverse.1 hx))
  have hbounds := abs_le.1 (hfinite _ hm.1)
  rw [afterLoop, hreverse, List.foldl_cons]
  by_cases hnew : values.getLast hne > -DBL_MAX K
  · have hstate : (addValue (st.start, 0) (values.getLast hne)).1.min = DBL_MAX K ∧
        (addValue (st.start, 0) (values.getLast hne)).1.max = values.getLast hne := by
      simp [addValue, Stats.start, hnew]
    rw [foldl_min _ hrest (by rwa [hstate.2]) (by rw [hstate.1]; exact hbounds.2), hstate.1, List.mem_reverse]
    constructor
    · rintro (h | h)
      · exact .inl h
      · exact .inr (.inl h.symm)
    · rintro (h | h | h)
      · exact .inl h
      · exact .inr h.symm
      · -- the lowest value of the type is not the last one
        have hmem : m ∈ values.dropLast ++ [values.getLast hne] := hsplit.symm ▸ hm.1
        rcases List.mem_append.1 hmem with hmem | hmem
        · exact .inl hmem
        · rw [← List.mem_singleton.1 hmem, h] at hnew
          exact absurd hnew (lt_irrefl _)
  · have heq : values.getLast hne = m := le_antisymm ((le_of_not_gt hnew).trans hbounds.1) hleast
    have hless : values.getLast hne < DBL_MAX K :=
      (le_of_not_gt hnew).trans_lt (neg_lt_self DBL_MAX_pos)
    have hstate : (addValue (st.start, 0) (values.getLast hne)).1.min = values.getLast hne ∧
        (addValue (st.start, 0) (values.getLast hne)).1.max = -DBL_MAX K := by
      simp [addValue, Stats.start, hnew, hless]
    rw [foldl_min _ hrest (by rw [hstate.2, ← heq]; exact le_of_not_gt hnew) (by rw [hstate.1, heq]), hstate.1]
    exact iff_of_true (.inr heq) (.inr (.inr (le_antisymm (heq ▸ le_of_not_gt hnew) hbounds.1)))

/-- **The minimum is right** exactly if it is seen. -/
theorem describes_getMinMaxMean_iff (hne : values ≠ []) (hfinite : ∀ x ∈ values, |x| ≤ DBL_MAX K) (st : Stats K) :
    Describes values (getMinMaxMean values st) ↔ MinimumSeen values := by
  have hmin : (getMinMaxMean values st).min = (afterLoop values st).1.min := by rw [getMinMaxMean_eq hne]
  rw [describes_iff_min hne hfinite, hmin]
  constructor
  · intro h
    exact ⟨_, h, (afterLoop_min hne hfinite st h).1 rfl⟩
  · rintro ⟨m, hm, hseen⟩
    rwa [(afterLoop_min hne hfinite st hm).2 hseen]

end Values

/-! ## The elements away from the borders -/

section Borders

variable {c : ℕ} {d : Dim} {ds : List Dim} {p : ℤ}

/-- The dimension without its borders. -/
def clipped (c : ℕ) (d : Dim) : Dim :=
  if d.current = 1 then d
  else { d with first := d.first + c, last := d.last - c, current := d.current - 2 * c }

/-- Something is left in the dimension. -/
def Remains (c : ℕ) (d : Dim) : Prop := d.current = 1 ∨ 2 * c < d.current

theorem reshaped_clipped (hd : d.Ok) (hleft : Remains c d) : Reshaped d (clipped c d) := by
  have h₁ := hd.first_nonneg
  have h₂ := hd.first_le
  have h₃ := hd.last_lt
  have h₄ := hd.current_eq
  unfold clipped Remains at *
  split_ifs with hone
  · exact .refl hd
  · refine ⟨rfl, rfl, ?_⟩
    constructor <;> dsimp only <;> omega

/-- An index is between the borders of a dimension. -/
theorem clipped_iff {i : ℤ} (hi : d.first ≤ i ∧ i ≤ d.last) :
    ((clipped c d).first ≤ i ∧ i ≤ (clipped c d).last) ↔ d.current = 1 ∨ d.first + c ≤ i ∧ i ≤ d.last - c := by
  unfold clipped
  split_ifs with hone
  · exact iff_of_true hi (.inl hone)
  · rw [or_iff_right hone]

theorem forall₂_clipped : ∀ {ds : List Dim}, Valid ds → (∀ d ∈ ds, Remains c d) →
    List.Forall₂ Reshaped ds (ds.map (clipped c))
  | [], _, _ => .nil
  | d :: ds, h, hleft => by
    obtain ⟨hd, hds⟩ := List.forall_mem_cons.1 hleft
    exact .cons (reshaped_clipped h.1 hd) (forall₂_clipped h.2.2 hds)

/-- **The offsets without the borders** are the ones away from them. -/
theorem mem_offsets_clipped : ∀ {ds : List Dim} {p : ℤ}, Valid ds → (∀ d ∈ ds, Remains c d) →
    (p ∈ offsets (ds.map (clipped c)) ↔ p ∈ offsets ds ∧ Inner c ds p)
  | [], p, _, _ => by simp [Inner]
  | d :: ds, p, h, hleft => by
    have hclipped := h.reshaped (forall₂_clipped h hleft)
    obtain ⟨hd, hds⟩ := List.forall_mem_cons.1 hleft
    have hstride := (reshaped_clipped h.1 hd).stride_eq
    have hnested : (clipped c d).first ≤ p / d.stride ∧ p / d.stride ≤ (clipped c d).last →
        d.first ≤ p / d.stride ∧ p / d.stride ≤ d.last := by
      unfold clipped
      split_ifs
      · exact id
      · dsimp only
        omega
    rw [List.map_cons] at hclipped ⊢
    rw [hclipped.mem_offsets_cons, h.mem_offsets_cons, hstride, mem_offsets_clipped h.2.2 hds, Inner]
    constructor
    · rintro ⟨hi, hmem, hinner⟩
      exact ⟨⟨hnested hi, hmem⟩, (clipped_iff (hnested hi)).1 hi, hinner⟩
    · rintro ⟨⟨hi, hmem⟩, hinner, hrest⟩
      exact ⟨(clipped_iff hi).2 hinner, hmem, hrest⟩

/-- Where twice the clip is all of a dimension, nothing is left. -/
theorem not_inner : ∀ {ds : List Dim} {p : ℤ}, Valid ds → (∃ d ∈ ds, ¬Remains c d) → p ∈ offsets ds → ¬Inner c ds p
  | d :: ds, p, h, ⟨e, hmem, hout⟩, hp => by
    rw [h.mem_offsets_cons] at hp
    rintro ⟨hinner, hrest⟩
    rcases List.mem_cons.1 hmem with rfl | hmem
    · have hcurrent := h.1.current_eq
      unfold Remains at hout
      omega
    · exact not_inner h.2.2 ⟨e, hmem, hout⟩ hp.2 hrest

namespace Array

variable {a : Array}

theorem Good.inner_eq (h : a.Good) (hleft : ∀ d ∈ a.dims, Remains c d) :
    a.inner c = offsets (a.dims.map (clipped c)) := by
  have hclipped := h.valid.reshaped (forall₂_clipped h.valid hleft)
  apply List.Pairwise.eq_of_mem_iff (r := (· < ·))
  · exact (List.isChain_iff_pairwise.1 h.sorted).filter _
  · exact List.isChain_iff_pairwise.1 hclipped.sorted
  · intro p
    rw [inner, List.mem_filter, decide_eq_true_iff, mem_offsets_clipped h.valid hleft, h.elements_eq]

theorem Good.inner_nil_iff (h : a.Good) : a.inner c = [] ↔ ∃ d ∈ a.dims, ¬Remains c d := by
  constructor
  · intro hnil
    by_contra hall
    have hleft : ∀ d ∈ a.dims, Remains c d := by
      simpa using hall
    rw [h.inner_eq hleft] at hnil
    exact (h.valid.reshaped (forall₂_clipped h.valid hleft)).offsets_ne_nil hnil
  · intro hout
    refine List.filter_eq_nil_iff.2 fun p hp => ?_
    rw [h.elements_eq] at hp
    simpa using not_inner h.valid hout hp

theorem Good.inner_zero (h : a.Good) : a.inner 0 = a.elements := by
  have hleft : ∀ d ∈ a.dims, Remains 0 d := fun d hmem => .inr (h.dim_ok d hmem).current_pos
  have hsame : a.dims.map (clipped 0) = a.dims := by
    refine List.map_id'' (fun d => ?_) _
    unfold clipped
    split_ifs <;> simp
  rw [h.inner_eq hleft, hsame, h.elements_eq]

theorem Good.count_pos (h : a.Good) : 0 < a.nElements_ := by
  rw [← h.length_elements]
  exact List.length_pos_iff.2 (h.elements_eq ▸ h.valid.offsets_ne_nil)

/-- What the statistics of a view are taken from: its elements, or as many from the beginning of the block. -/
theorem Good.statCells_eq (h : a.Good) : a.statCells =
    some (if a.dense_ then (List.range a.nElements_).map fun i : ℕ => (0 : ℤ) + i else a.elements) := by
  have hptr : a.ptr [] = some 0 := by
    simp [ptr, getOffsetFirst, getOffset]
  rw [statCells, hptr]
  by_cases hdense : a.dense_ = true
  · rw [if_pos hdense, if_pos hdense, Option.map_some]
  · rw [if_neg hdense, if_neg hdense, h.exact.forwards_eq]

/-- **The elements of a view are the ones that the statistics are taken from**, if they do not lie next to one another
or if they begin the data block. -/
theorem Good.statCells_iff (h : a.Good) : a.statCells = some a.elements ↔
    (a.elements.IsChain (fun p q => q = p + 1) → ∀ p ∈ a.elements.head?, p = 0) := by
  rw [h.statCells_eq, Option.some.injEq, h.head?_elements, ← h.dense_iff]
  by_cases hdense : a.dense_ = true
  · rw [if_pos hdense, h.elements_of_dense hdense, imp_iff_right hdense]
    simp only [Option.mem_some_iff, forall_eq']
    constructor
    · intro heq
      have hhead := List.map_inj_left.1 heq 0 (List.mem_range.2 h.count_pos)
      omega
    · intro hbegin
      rw [hbegin]
  · rw [if_neg hdense]
    exact iff_of_true rfl fun hd => absurd hd hdense

theorem Good.statCells_ne_nil (h : a.Good) : a.statCells ≠ some [] := by
  rw [h.statCells_eq, Ne, Option.some.injEq]
  split_ifs
  · rw [List.map_eq_nil_iff, List.range_eq_nil]
    exact h.count_pos.ne'
  · rw [h.elements_eq]
    exact h.valid.offsets_ne_nil

end Array

/-! ## The limits -/

/-- The limits that are asked for. -/
def askedFor (c : ℕ) (d : Dim) : ℤ × ℤ := if d.current = 1 then (d.first, d.last) else (d.first + c, d.last - c)

theorem clipLimits_none : ∀ {ds : List Dim}, (∃ d ∈ ds, AllClipped c d) → Array.clipLimits c ds = none
  | d :: ds, ⟨e, hmem, he⟩ => by
    rw [Array.clipLimits]
    rcases List.mem_cons.1 hmem with rfl | hmem
    · rw [if_neg he.1, if_pos he.2]
    · rw [clipLimits_none ⟨e, hmem, he⟩]
      split_ifs <;> rfl

theorem clipLimits_some : ∀ {ds : List Dim}, (∀ d ∈ ds, ¬AllClipped c d) →
    Array.clipLimits c ds = some (ds.map (askedFor c))
  | [], _ => rfl
  | d :: ds, h => by
    obtain ⟨hd, hds⟩ := List.forall_mem_cons.1 h
    rw [Array.clipLimits, clipLimits_some hds, List.map_cons, askedFor]
    by_cases hone : d.current = 1
    · rw [if_pos hone, if_pos hone, Option.map_some]
    · rw [if_neg hone, if_neg hone, if_neg fun hlt => hd ⟨hone, hlt⟩, Option.map_some]

/-- The limits inside the view are the ones away from the borders exactly if the view begins at zero there. -/
theorem limit_askedFor_iff (hd : d.Ok) (hleft : Remains c d) :
    ((Array.limit d (askedFor c d).1 (askedFor c d).2).first = (clipped c d).first ∧
      (Array.limit d (askedFor c d).1 (askedFor c d).2).last = (clipped c d).last) ↔ (d.current ≠ 1 → d.first = 0) := by
  have hfirst := hd.first_nonneg
  have hle := hd.first_le
  have hcurrent := hd.current_eq
  unfold askedFor clipped
  by_cases hone : d.current = 1
  · -- a single index, which is asked for as it is
    rw [if_pos hone, if_pos hone]
    obtain ⟨hlow, hhigh⟩ := Array.limit_of_le (d := d) hle
    rw [hlow, hhigh, min_eq_right (by omega), min_eq_right (by omega)]
    exact iff_of_true ⟨by omega, rfl⟩ fun hne => absurd hone hne
  · have hleft := hleft.resolve_left hone
    rw [if_neg hone, if_neg hone]
    obtain ⟨hlow, hhigh⟩ := Array.limit_of_le (d := d) (show d.first + (c : ℤ) ≤ d.last - c by omega)
    dsimp only
    rw [hlow, hhigh, max_eq_left (by omega), max_eq_left (by omega)]
    omega

theorem eq_of_limits {d' d'' : Dim} (h' : Reshaped d d') (h'' : Reshaped d d'') (hfirst : d'.first = d''.first)
    (hlast : d'.last = d''.last) : d' = d'' := by
  have hsize := h'.size_eq.trans h''.size_eq.symm
  have hstride := h'.stride_eq.trans h''.stride_eq.symm
  have hcurrent' := h'.ok.current_eq
  have hcurrent'' := h''.ok.current_eq
  cases d'
  cases d''
  simp only [Dim.mk.injEq] at *
  omega

/-- Views of one block with the same elements have the same limits. -/
theorem limits_of_offsets_eq {f g : Dim → Dim} (h : Valid ds) (hf : ∀ d ∈ ds, Reshaped d (f d))
    (hg : ∀ d ∈ ds, Reshaped d (g d)) (heq : offsets (ds.map f) = offsets (ds.map g)) :
    ∀ d ∈ ds, (f d).first = (g d).first ∧ (f d).last = (g d).last := by
  have hpair : ∀ {f g : Dim → Dim}, (∀ d ∈ ds, Reshaped d (f d)) → (∀ d ∈ ds, Reshaped d (g d)) →
      Valid (ds.map f) ∧ List.Forall₂ Reshaped (ds.map f) (ds.map g) := by
    intro f g hf hg
    refine ⟨h.reshaped (List.forall₂_map_right_iff.2 (List.forall₂_same.2 hf)), ?_⟩
    rw [List.forall₂_map_left_iff, List.forall₂_map_right_iff, List.forall₂_same]
    intro d hd
    exact ⟨(hg d hd).size_eq.trans (hf d hd).size_eq.symm, (hg d hd).stride_eq.trans (hf d hd).stride_eq.symm,
      (hg d hd).ok⟩
  have hfg := ((hpair hf hg).1.nested_iff (hpair hf hg).2).1 fun p hp => heq ▸ hp
  have hgf := ((hpair hg hf).1.nested_iff (hpair hg hf).2).1 fun p hp => heq ▸ hp
  rw [List.forall₂_map_left_iff, List.forall₂_map_right_iff, List.forall₂_same] at hfg hgf
  intro d hd
  have hd₁ := hfg d hd
  have hd₂ := hgf d hd
  omega

theorem zipWith_limit_askedFor (ds : List Dim) : List.zipWith (fun d l => Array.limit d l.1 l.2) ds
    (((ds.map (askedFor c)).map Prod.fst).zip ((ds.map (askedFor c)).map Prod.snd)) =
      ds.map fun d => Array.limit d (askedFor c d).1 (askedFor c d).2 := by
  induction ds with
  | nil => rfl
  | cons d ds ih =>
    simp only [List.map_cons, List.zip_cons_cons, List.zipWith_cons_cons, ih]

namespace Array

variable {a a' : Array}

/-- **The view that is made has the elements away from the borders** exactly if its view begins at zero in every
dimension that is clipped. -/
theorem Good.elements_setLimits_iff (h : a.Good) (hleft : ∀ d ∈ a.dims, Remains c d)
    (hs : a.setLimits ((a.dims.map (askedFor c)).map Prod.fst) ((a.dims.map (askedFor c)).map Prod.snd) = some a') :
    a'.elements = a.inner c ↔ ∀ d ∈ a.dims, d.current ≠ 1 → d.first = 0 := by
  have hdims := (setLimits_eq hs).2.2
  rw [zipWith_limit_askedFor] at hdims
  have hlimit : ∀ d ∈ a.dims, Reshaped d (limit d (askedFor c d).1 (askedFor c d).2) :=
    fun d hd => limit_ok (h.dim_ok d hd) _ _
  have hclipped : ∀ d ∈ a.dims, Reshaped d (clipped c d) := fun d hd => reshaped_clipped (h.dim_ok d hd) (hleft d hd)
  rw [(h.setLimits hs).elements_eq, h.inner_eq hleft, hdims]
  constructor
  · intro heq d hd
    have hsame := limits_of_offsets_eq h.valid hlimit hclipped heq d hd
    exact (limit_askedFor_iff (h.dim_ok d hd) (hleft d hd)).1 hsame
  · intro hfirst
    congr 1
    refine List.map_congr_left fun d hd => ?_
    obtain ⟨hfirst', hlast'⟩ := (limit_askedFor_iff (h.dim_ok d hd) (hleft d hd)).2 (hfirst d hd)
    exact eq_of_limits (hlimit d hd) (hclipped d hd) hfirst' hlast'

/-- The statistics of a view, where they are to be those of some elements. -/
theorem describes_stats_iff {K : Type*} [Field K] [LinearOrder K] [IsStrictOrderedRing K] {value : ℤ → K}
    {st : Stats K} {w : List ℤ} (hne : w ≠ []) (hfinite : ∀ p ∈ w, |value p| ≤ DBL_MAX K) :
    (∃ cells st', (a'.statCells.map fun cells => (cells, getMinMaxMean (cells.map value) st)) = some (cells, st') ∧
      cells = w ∧ if w = [] then st' = st else Arrays.Describes (w.map value) st') ↔
        a'.statCells = some w ∧ MinimumSeen (w.map value) := by
  have hne' : w.map value ≠ [] := mt List.map_eq_nil_iff.1 hne
  have hfinite' : ∀ x ∈ w.map value, |x| ≤ DBL_MAX K := by
    intro x hx
    obtain ⟨p, hp, rfl⟩ := List.mem_map.1 hx
    exact hfinite p hp
  simp only [if_neg hne, Option.map_eq_some_iff, Prod.mk.injEq]
  constructor
  · rintro ⟨cells, st', ⟨cells', hcells, rfl, rfl⟩, rfl, hdescribes⟩
    exact ⟨hcells, (describes_getMinMaxMean_iff hne' hfinite' st).1 hdescribes⟩
  · rintro ⟨hcells, hseen⟩
    exact ⟨w, _, ⟨w, hcells, rfl, rfl⟩, rfl, (describes_getMinMaxMean_iff hne' hfinite' st).2 hseen⟩

/-- A view that does not begin at zero in some dimension does not begin the data block. -/
theorem lo_pos : ∀ {ds : List Dim}, Valid ds → (∃ d ∈ ds, 0 < d.first) → 0 < lo ds
  | d :: ds, h, ⟨e, hmem, he⟩ => by
    have hfirst := h.1.first_nonneg
    have hstride : (0 : ℤ) < d.stride := Int.natCast_pos.2 h.stride_head_pos
    have hlo := h.2.2.lo_nonneg
    rw [lo_cons]
    rcases List.mem_cons.1 hmem with rfl | hmem
    · have := Int.mul_pos he hstride
      omega
    · have := lo_pos h.2.2 ⟨e, hmem, he⟩
      have := Int.mul_nonneg hfirst hstride.le
      omega

/-- The elements away from the borders are taken exactly if the limits are the ones inside the view, and they do not lie
next to one another or begin the block. -/
theorem Good.statCells_setLimits_iff (h : a.Good) (hleft : ∀ d ∈ a.dims, Remains c d)
    (hs : a.setLimits ((a.dims.map (askedFor c)).map Prod.fst) ((a.dims.map (askedFor c)).map Prod.snd) = some a') :
    a'.statCells = some (a.inner c) ↔ (∀ d ∈ a.dims, d.current ≠ 1 → d.first = 0) ∧
      ((a.inner c).IsChain (fun p q => q = p + 1) → ∀ p ∈ (a.inner c).head?, p = 0) := by
  have h' := h.setLimits hs
  have helements := h.elements_setLimits_iff hleft hs
  by_cases hrelative : ∀ d ∈ a.dims, d.current ≠ 1 → d.first = 0
  · rw [← helements.2 hrelative, h'.statCells_iff, and_iff_right hrelative]
  · refine iff_of_false (fun hcells => ?_) fun hfound => hrelative hfound.1
    rw [h'.statCells_eq, Option.some.injEq] at hcells
    by_cases hdense : a'.dense_ = true
    · -- the elements away from the borders do not begin the block
      have hvalid := h.valid.reshaped (forall₂_clipped h.valid hleft)
      have hpos : 0 < lo (a.dims.map (clipped c)) := by
        push Not at hrelative
        obtain ⟨d, hd, hone, hfirst⟩ := hrelative
        refine lo_pos hvalid ⟨clipped c d, List.mem_map_of_mem hd, ?_⟩
        have hnonneg := (h.dim_ok d hd).first_nonneg
        rw [clipped, if_neg hone]
        dsimp only
        omega
      obtain ⟨n, hn⟩ := Nat.exists_eq_add_one.2 h'.count_pos
      rw [if_pos hdense, h.inner_eq hleft, hn, List.range_succ_eq_map] at hcells
      have hhead := hvalid.head?_offsets
      rw [← hcells, List.map_cons, List.head?_cons, Option.some.injEq] at hhead
      simp at hhead
      omega
    · rw [if_neg hdense] at hcells
      exact hrelative (helements.1 hcells)

section Cases

variable {K : Type*} [Field K] [LinearOrder K] [IsStrictOrderedRing K] {borderClip : ℕ} {value : ℤ → K}

/-- Without a clip, all elements are in question. -/
theorem Good.describes_zero_iff (h : a.Good) (hfinite : ∀ p ∈ a.inner 0, |value p| ≤ DBL_MAX K) (st : Stats K) :
    a.Describes 0 value st ↔ a.Found 0 ∧ (a.inner 0 ≠ [] → MinimumSeen ((a.inner 0).map value)) := by
  have hne : a.inner 0 ≠ [] := by
    rw [h.inner_zero, h.elements_eq]
    exact h.valid.offsets_ne_nil
  rw [Describes, getStats, if_pos rfl, describes_stats_iff hne hfinite, imp_iff_right hne]
  refine and_congr_left fun _ => ?_
  rw [h.inner_zero, h.statCells_iff, ← h.inner_zero]
  exact ⟨fun hapart => ⟨fun hnil => absurd hnil hne, fun h0 => absurd rfl h0, hapart⟩, Found.apart⟩

omit [IsStrictOrderedRing K] in
/-- Where all of a dimension is clipped, there are no elements, and none is looked at. -/
theorem Good.describes_of_allClipped (h : a.Good) (hc : borderClip ≠ 0)
    (hreturn : ∃ d ∈ a.dims, AllClipped borderClip d) (st : Stats K) :
    a.Describes borderClip value st ↔
      a.Found borderClip ∧ (a.inner borderClip ≠ [] → MinimumSeen ((a.inner borderClip).map value)) := by
  have hnil : a.inner borderClip = [] := by
    obtain ⟨d, hd, hone, hlt⟩ := hreturn
    have hle := Nat.mod_le (2 * borderClip) (2 ^ 32)
    refine h.inner_nil_iff.2 ⟨d, hd, fun hleft => ?_⟩
    unfold Remains at hleft
    omega
  rw [Describes, getStats, if_neg hc, clipLimits_none hreturn, hnil]
  refine iff_of_true ⟨[], st, rfl, rfl, by simp⟩ ⟨⟨fun _ => hreturn, ?_, ?_⟩, fun h0 => absurd rfl h0⟩
  · exact fun _ h0 => absurd hnil h0
  · rw [hnil]
    exact fun _ p hp => nomatch hp

/-- Otherwise the elements of a view with other limits are looked at. -/
theorem Good.describes_clipped_iff (h : a.Good) (hc : borderClip ≠ 0)
    (hfinite : ∀ p ∈ a.inner borderClip, |value p| ≤ DBL_MAX K)
    (hreturn : ¬∃ d ∈ a.dims, AllClipped borderClip d) (st : Stats K) :
    a.Describes borderClip value st ↔
      a.Found borderClip ∧ (a.inner borderClip ≠ [] → MinimumSeen ((a.inner borderClip).map value)) := by
  obtain ⟨a', hs⟩ : ∃ a', a.setLimits ((a.dims.map (askedFor borderClip)).map Prod.fst)
      ((a.dims.map (askedFor borderClip)).map Prod.snd) = some a' := ⟨_, if_neg (by simp)⟩
  rw [Describes, getStats, if_neg hc, clipLimits_some (by push Not at hreturn; exact hreturn)]
  dsimp only
  rw [hs, Option.bind_some]
  by_cases hleft : ∀ d ∈ a.dims, Remains borderClip d
  · have hne : a.inner borderClip ≠ [] := by
      rw [Ne, h.inner_nil_iff]
      push Not
      exact hleft
    rw [describes_stats_iff hne hfinite, imp_iff_right hne, h.statCells_setLimits_iff hleft hs]
    refine and_congr_left fun _ => ⟨fun hfound => ⟨fun hnil => absurd hnil hne, fun _ _ => hfound.1, hfound.2⟩, ?_⟩
    exact fun hfound => ⟨hfound.relative hc hne, hfound.apart⟩
  · have hnil : a.inner borderClip = [] := h.inner_nil_iff.2 (by push Not at hleft; exact hleft)
    refine iff_of_false ?_ fun hfound => hreturn (hfound.1.none_left hnil)
    rintro ⟨cells, st', hstats, hcells, -⟩
    obtain ⟨cells', hcells', heq⟩ := Option.map_eq_some_iff.1 hstats
    rw [hnil] at hcells
    rw [(Prod.mk.inj heq).1, hcells] at hcells'
    exact (h.setLimits hs).statCells_ne_nil hcells'

end Cases

/-- **The statistics are those of the elements away from the borders** exactly if these are found and their minimum is
seen. -/
theorem Good.describes_iff {K : Type*} [Field K] [LinearOrder K] [IsStrictOrderedRing K] (h : a.Good) (borderClip : ℕ)
    {value : ℤ → K} (hfinite : ∀ p ∈ a.elements, |value p| ≤ DBL_MAX K) (st : Stats K) :
    a.Describes borderClip value st ↔
      a.Found borderClip ∧ (a.inner borderClip ≠ [] → MinimumSeen ((a.inner borderClip).map value)) := by
  have hfinite' : ∀ p ∈ a.inner borderClip, |value p| ≤ DBL_MAX K := fun p hp => hfinite p (List.mem_filter.1 hp).1
  by_cases hc : borderClip = 0
  · subst hc
    exact h.describes_zero_iff hfinite' st
  · by_cases hreturn : ∃ d ∈ a.dims, AllClipped borderClip d
    · exact h.describes_of_allClipped hc hreturn st
    · exact h.describes_clipped_iff hc hfinite' hreturn st

/-- The smallest of three values is neither the last nor away from them. -/
theorem three_described :
    (construct [3]).Describes 0 (fun p => if p = 1 then (1 : ℚ) else 2) ⟨0, 0, 0, 0, 0, 0, false⟩ := by
  have h : (construct [3]).Good := (@construct_good [3] (by decide)).resolve_right (by decide)
  have hmax : (2 : ℚ) ≤ DBL_MAX ℚ := by
    have hfactor : 2 ≤ 2 ^ 53 - 1 := by norm_num
    exact Nat.ofNat_le_cast.2 (hfactor.trans (Nat.le_mul_of_pos_right _ (pow_pos two_pos 971)))
  refine (h.describes_iff 0 (fun p _ => ?_) _).2 ⟨⟨by decide, by decide, by decide⟩, fun _ => ⟨1, ?_, .inl (by decide)⟩⟩
  · split_ifs
    · rw [abs_one]
      exact one_le_two.trans hmax
    · rwa [abs_two]
  · have hle : ∀ x ∈ ((construct [3]).inner 0).map (fun p => if p = 1 then (1 : ℚ) else 2), 1 ≤ x := by decide
    exact ⟨by decide, fun x hx => hle x hx⟩

/-- The values 3 and 1: 1 is visited first, as a new maximum. -/
theorem descending_not_described :
    ¬(construct [2]).Describes 0 (fun p => if p = 0 then (3 : ℚ) else 1) ⟨0, 0, 0, 0, 0, 0, false⟩ := by
  rintro ⟨cells, st', hstats, hcells, hdescribes⟩
  have hvalue : (construct [2]).getStats 0 (fun p => if p = 0 then (3 : ℚ) else 1) ⟨0, 0, 0, 0, 0, 0, false⟩ =
      some ([0, 1], ⟨DBL_MAX ℚ, 3, 4, 10, 4, 2, false⟩) := by decide +kernel
  rw [hvalue] at hstats
  obtain ⟨rfl, rfl⟩ := Prod.mk.inj (Option.some.inj hstats)
  rw [← hcells, if_neg (by decide)] at hdescribes
  exact absurd hdescribes.min.1 (by decide +kernel)

end Array

end Borders

end Redux.Util.Arrays
