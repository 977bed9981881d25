import Redux.Util.ArrayPack

/-!
# Util.ArrayAccess — elements by their indices

`operator()` and `ptr` take as many indices as there are dimensions or fewer, `at` checks them first.  All
of them add the first indices of the view, the one of the slowest dimension to the first index, whatever
dimension that index is for; and `at` compares the first index with the size of the fastest dimension.  So
`at` is right for sizes that read the same from both ends (`checked_iff`), and an index for the faster
dimensions only is one of the view if the first indices agree with those beside them (`partial_iff`).
-/

namespace Redux.Util.Arrays

open Redux.Lib

/-! ## Model -/

namespace Array

/-- `getOffset( indices, offsets )` with `dimFirst`, which throws if there are more indices than dimensions. -/
def getOffsetFirst (a : Array) (indices : List ℤ) : Option ℤ :=
  if a.dims.length < indices.length then none
  else some (getOffset (a.dims.drop (a.dims.length - indices.length))
    (List.zipWith (· + ·) indices (a.dims.map Dim.first)))

/-- `ptr( indices )`, as an offset in the data block; it throws if that is out of range.  `operator()`
takes what is there. -/
def ptr (a : Array) (indices : List ℤ) : Option ℤ :=
  (a.getOffsetFirst indices).bind fun offset => if offset < 0 ∨ a.dataSize < offset then none else some offset

end Array

/-- `at( indices )`, as an offset in the data block. -/
def Array.at (a : Array) (indices : List ℤ) : Option ℤ :=
  if a.dims.length < indices.length then none
  else if indices = [] then some 0
  else if ∃ p ∈ indices.zip (a.dims.map Dim.current).reverse, p.1 < 0 ∨ (p.2 : ℤ) ≤ p.1 then none
  else a.getOffsetFirst indices

/-! ## What it stands for -/

/-- The indices are those of an element, for the sizes. -/
def InRange (sizes : List ℕ) (indices : List ℤ) : Prop := List.Forall₂ (fun (i : ℤ) (n : ℕ) => 0 ≤ i ∧ i < n)
    indices sizes

/-- The offset of the element with these indices of the view. -/
def position (ds : List Dim) (indices : List ℤ) : ℤ :=
  Array.getOffset ds (List.zipWith (· + ·) indices (ds.map Dim.first))

/-- The sizes of a view. -/
abbrev Array.sizes (a : Array) : List ℕ := a.dims.map Dim.current

/-- `at` throws for indices out of range, and finds the element for others. -/
structure Array.Checks (a : Array) (indices : List ℤ) : Prop where
  inside : InRange a.sizes indices → a.at indices = some (position a.dims indices)
  outside : ¬InRange a.sizes indices → a.at indices = none

/-! ## Arrays as they are constructed -/

namespace Array

theorem construct_eq (sizes : List ℕ) : construct sizes =
    if sizes.filter (· ≠ 0) = [] then ⟨[], 0, 0, true, 0, 0⟩
    else ⟨setSizes (sizes.filter (· ≠ 0)) [], (sizes.filter (· ≠ 0)).prod,
      countElements (setSizes (sizes.filter (· ≠ 0)) []), true, 0, (sizes.filter (· ≠ 0)).prod⟩ := by
  unfold construct resize
  dsimp only
  rw [List.map_nil]
  refine if_congr ?_ rfl rfl
  cases sizes.filter (· ≠ 0) with
  | nil => exact iff_of_true rfl rfl
  | cons n ns => exact iff_of_false (List.cons_ne_nil _ _) (List.cons_ne_nil _ _)

theorem sizes_construct (sizes : List ℕ) : (construct sizes).sizes = sizes.filter (· ≠ 0) := by
  rw [construct_eq, Array.sizes]
  split_ifs with h
  · rw [h]
    rfl
  · exact (setSizes_spans _ []).1

theorem nElements_construct {sizes : List ℕ} (h : (sizes.filter (· ≠ 0)).prod < 2 ^ 64) :
    (construct sizes).nElements_ = if sizes.filter (· ≠ 0) = [] then 0 else (sizes.filter (· ≠ 0)).prod := by
  rw [construct_eq]
  split_ifs with hnil
  · rfl
  · exact countElements_eq hnil h

/-- The first element of a slice. -/
theorem ptr_construct {n m k : ℕ} (hn : 0 < n) (hm : 0 < m) (i j : ℕ) : (construct [n, m, k]).ptr [i, j, 0] =
    if k = 0 ∨ n * m * k < (i * m + j) * k then none else some (((i * m + j) * k : ℕ) : ℤ) := by
  by_cases hk : k = 0
  · subst hk
    rw [if_pos (.inl rfl), construct_eq]
    have hfilter : [n, m, 0].filter (· ≠ 0) = [n, m] := by simp [hn.ne', hm.ne']
    rw [hfilter, if_neg (List.cons_ne_nil _ _)]
    rfl
  · have hfilter : [n, m, k].filter (· ≠ 0) = [n, m, k] := by simp [hn.ne', hm.ne', hk]
    rw [construct_eq, hfilter, if_neg (List.cons_ne_nil _ _)]
    have hoffset : getOffset (setSizes [n, m, k] []) (List.zipWith (· + ·) [(i : ℤ), j, 0] [0, 0, 0]) =
        (((i * m + j) * k : ℕ) : ℤ) := by
      simp only [getOffset, setSizes, extent, List.zipWith_cons_cons, List.zipWith_nil_right, List.sum_cons,
        List.sum_nil]
      push_cast
      ring
    change (some (getOffset (setSizes [n, m, k] []) (List.zipWith (· + ·) [(i : ℤ), j, 0] [0, 0, 0]))).bind
      (fun offset : ℤ => if offset < 0 ∨ ([n, m, k].prod : ℤ) < offset then none else some offset) = _
    have hprod : [n, m, k].prod = n * m * k := by simp [Nat.mul_assoc]
    rw [hoffset, hprod, Option.bind_some]
    refine if_congr ?_ rfl rfl
    omega

end Array

/-! ## Checked access -/

section Checked

variable {sizes : List ℕ} {indices : List ℤ}

theorem inRange_iff (h : indices.length = sizes.length) :
    InRange sizes indices ↔ ¬∃ p ∈ indices.zip sizes, p.1 < 0 ∨ (p.2 : ℤ) ≤ p.1 := by
  rw [InRange, List.forall₂_iff_zip, and_iff_right h]
  constructor
  · rintro hall ⟨p, hp, hout⟩
    obtain ⟨hnonneg, hlt⟩ := @hall p.1 p.2 hp
    omega
  · intro hnone i n hp
    by_contra hout
    exact hnone ⟨(i, n), hp, by omega⟩

/-- The first indices are the last ones of the sizes and so on, to the loop. -/
theorem Array.at_eq {a : Array} (h : indices.length = a.dims.length) :
    (InRange a.sizes.reverse indices → a.at indices = some (position a.dims indices)) ∧
      (¬InRange a.sizes.reverse indices → a.at indices = none) := by
  have hlen : indices.length = a.sizes.reverse.length := by rw [List.length_reverse, List.length_map, h]
  have hoffset : a.getOffsetFirst indices = some (position a.dims indices) := by
    rw [getOffsetFirst, if_neg (by omega), h, Nat.sub_self, List.drop_zero]
    rfl
  rw [Array.at, if_neg (by omega)]
  by_cases hnil : indices = []
  · subst hnil
    have hdims : a.dims = [] := List.length_eq_zero_iff.1 h.symm
    rw [if_pos rfl, position, hdims, sizes, hdims]
    exact ⟨fun _ => rfl, fun hout => absurd .nil hout⟩
  · rw [if_neg hnil, inRange_iff hlen, hoffset]
    exact ⟨fun hin => if_neg hin, fun hout => if_pos (not_not.1 hout)⟩

/-- `at` is right about indices if they are in range for both orders of the sizes or for none. -/
theorem Array.checks_iff {a : Array} (h : indices.length = a.dims.length) :
    a.Checks indices ↔ (InRange a.sizes indices ↔ InRange a.sizes.reverse indices) := by
  obtain ⟨hinside, houtside⟩ := Array.at_eq h
  constructor
  · intro hchecks
    by_cases hrev : InRange a.sizes.reverse indices
    · refine iff_of_true (by_contra fun hout => ?_) hrev
      exact absurd ((hchecks.outside hout).symm.trans (hinside hrev)) (Option.some_ne_none _).symm
    · refine iff_of_false (fun hin => ?_) hrev
      exact absurd ((hchecks.inside hin).symm.trans (houtside hrev)) (Option.some_ne_none _)
  · exact fun hiff => ⟨fun hin => hinside (hiff.1 hin), fun hout => houtside fun hrev => hout (hiff.2 hrev)⟩

theorem eq_of_forall₂_le : ∀ {l l' : List ℕ}, List.Forall₂ (· ≤ ·) l l' → List.Forall₂ (· ≤ ·) l' l → l = l'
  | [], [], _, _ => rfl
  | _ :: _, _ :: _, .cons h hs, .cons h' hs' => by rw [le_antisymm h h', eq_of_forall₂_le hs hs']

/-- A size of zero leaves no index. -/
theorem not_inRange_of_zero (h : 0 ∈ sizes) : ¬InRange sizes indices := by
  intro hin
  induction hin with
  | nil => exact absurd h List.not_mem_nil
  | cons hi _ ih =>
    rcases List.mem_cons.1 h with rfl | h
    · omega
    · exact ih h

/-- **The orders of the sizes have the same indices only if they are one.** -/
theorem reverse_eq_iff : (∀ indices, indices.length = sizes.length →
    (InRange sizes indices ↔ InRange sizes.reverse indices)) ↔
    sizes.reverse = sizes ∨ 0 ∈ sizes := by
  constructor
  · intro hall
    by_cases hzero : 0 ∈ sizes
    · exact .inr hzero
    · -- the last index of each dimension
      have hin : InRange sizes (sizes.map fun n : ℕ => (n : ℤ) - 1) := by
        refine List.forall₂_map_left_iff.2 (List.forall₂_same.2 fun n hn => ?_)
        have hpos : n ≠ 0 := fun h => hzero (h ▸ hn)
        omega
      have hrev := List.forall₂_map_left_iff.1 ((hall _ (List.length_map _)).1 hin)
      have hle : List.Forall₂ (· ≤ ·) sizes sizes.reverse := hrev.imp fun n n' h => by omega
      have hge : List.Forall₂ (· ≤ ·) sizes.reverse sizes := by
        have h := List.forall₂_reverse_iff.2 hle
        rwa [List.reverse_reverse] at h
      exact .inl (eq_of_forall₂_le hle hge).symm
  · rintro (heq | hzero) indices -
    · rw [heq]
    · exact iff_of_false (not_inRange_of_zero hzero) (not_inRange_of_zero (List.mem_reverse.2 hzero))

/-- **Checked access is exact** for indices that are in range for both orders of the sizes or for none, and
so for all indices of a view if its sizes read the same from both ends. -/
theorem Array.checked_iff (a : Array) :
    (∀ indices, indices.length = a.dims.length →
      (a.Checks indices ↔ (InRange a.sizes indices ↔ InRange a.sizes.reverse indices))) ∧
    ((∀ indices, indices.length = a.dims.length → a.Checks indices) ↔ a.sizes.reverse = a.sizes ∨ 0 ∈ a.sizes) := by
  refine ⟨fun indices h => Array.checks_iff h, ?_⟩
  rw [← reverse_eq_iff, List.length_map]
  exact forall₂_congr fun indices h => Array.checks_iff h

/-- A square. -/
theorem Array.checked_square : ∀ indices, indices.length = (construct [5, 5]).dims.length →
    (construct [5, 5]).Checks indices :=
  (Array.checked_iff (construct [5, 5])).2.2 (.inl (by decide))

/-- The array of the tests, and an index that it has. -/
theorem Array.not_checks : ¬∀ indices, indices.length = (construct [4, 5]).dims.length →
    (construct [4, 5]).Checks indices := by
  intro hall
  have hinside := (hall [3, 4] rfl).inside (.cons (by decide) (.cons (by decide) .nil))
  exact absurd hinside (by decide)

end Checked

/-! ## Indices for the faster dimensions -/

section Partial

variable {ds : List Dim}

/-- Offsets of dimensions are added up. -/
theorem getOffset_add : ∀ {ds : List Dim} {indices firsts : List ℤ}, indices.length = ds.length → ds.length ≤
    firsts.length →
    Array.getOffset ds (List.zipWith (· + ·) indices firsts) = Array.getOffset ds indices + Array.getOffset ds firsts
  | [], _, _, _, _ => rfl
  | d :: ds, i :: indices, f :: firsts, h, hf => by
    have ih := @getOffset_add ds indices firsts (Nat.succ.inj h) (Nat.le_of_succ_le_succ hf)
    simp only [Array.getOffset, List.zipWith_cons_cons, List.sum_cons] at ih ⊢
    rw [ih]
    ring

/-- Leading zeros add nothing. -/
theorem getOffset_zeros : ∀ {ds : List Dim} {m : ℕ} {indices : List ℤ}, m ≤ ds.length →
    Array.getOffset ds (List.replicate m 0 ++ indices) = Array.getOffset (ds.drop m) indices
  | _, 0, _, _ => rfl
  | d :: ds, m + 1, indices, h => by
    rw [List.drop_succ_cons, ← getOffset_zeros (Nat.le_of_succ_le_succ h), List.replicate_succ, List.cons_append]
    simp only [Array.getOffset, List.zipWith_cons_cons, List.sum_cons, zero_mul, zero_add]

/-- What the first indices add, taken for other dimensions whose strides are no larger: less than for their
own, unless each is zero or keeps its stride. -/
theorem getOffset_firsts : ∀ {ds ms : List Dim}, (∀ d ∈ ds, 0 ≤ d.first ∧ 0 < d.stride) →
    (∀ (i : ℕ) (d d' : Dim), ds[i]? = some d → ms[i]? = some d' → d'.stride ≤ d.stride) →
    Array.getOffset ms (ds.map Dim.first) ≤ lo ds ∧
      (Array.getOffset ms (ds.map Dim.first) = lo ds ↔
        ∀ (i : ℕ) (d : Dim), ds[i]? = some d → d.first = 0 ∨ ∃ d' : Dim, ms[i]? = some d' ∧ d'.stride = d.stride)
  | [], ms, _, _ => by
    have hzero : Array.getOffset ms ([].map Dim.first) = 0 :=
      by rw [Array.getOffset, List.map_nil, List.zipWith_nil_right]; rfl
    rw [hzero, lo_nil]
    exact ⟨le_rfl, iff_of_true rfl fun i d h => absurd h (by simp)⟩
  | d :: ds, [], h, _ => by
    obtain ⟨⟨hfirst, hstride⟩, hrest⟩ := List.forall_mem_cons.1 h
    obtain ⟨hle, hiff⟩ := @getOffset_firsts ds [] hrest fun i d d' _ h' => absurd h' (by simp)
    have hzero : ∀ l, Array.getOffset [] l = 0 := fun l => rfl
    have hmul : 0 ≤ d.first * (d.stride : ℤ) := Int.mul_nonneg hfirst (Int.natCast_nonneg _)
    have hmul' : d.first * (d.stride : ℤ) = 0 ↔ d.first = 0 := by
      rw [mul_eq_zero, or_iff_left (by omega)]
    rw [hzero] at hle hiff ⊢
    rw [lo_cons, ← Nat.and_forall_add_one]
    simp only [List.getElem?_cons_zero, List.getElem?_cons_succ, Option.some.injEq, forall_eq',
      List.getElem?_nil, reduceCtorEq,
      false_and, exists_false, or_false] at hiff ⊢
    rw [← hiff, ← hmul']
    constructor <;> omega
  | d :: ds, d' :: ms, h, hle => by
    obtain ⟨⟨hfirst, hstride⟩, hrest⟩ := List.forall_mem_cons.1 h
    obtain ⟨hle', hiff⟩ := @getOffset_firsts ds ms hrest fun i => hle (i + 1)
    have hstride' : d'.stride ≤ d.stride := hle 0 d d' rfl rfl
    have hcons : Array.getOffset (d' :: ms) ((d :: ds).map Dim.first) =
      d.first * d'.stride + Array.getOffset ms (ds.map Dim.first) := rfl
    have hmul : d.first * (d'.stride : ℤ) ≤ d.first * d.stride := Int.mul_le_mul_of_nonneg_left (by omega) hfirst
    have hmul' : d.first * (d'.stride : ℤ) = d.first * d.stride ↔ d.first = 0 ∨ d'.stride = d.stride := by
      rw [mul_eq_mul_left_iff, Nat.cast_inj, or_comm]
    rw [hcons, lo_cons, ← Nat.and_forall_add_one]
    simp only [List.getElem?_cons_zero, List.getElem?_cons_succ, Option.some.injEq, forall_eq', exists_eq_left']
    rw [← hiff, ← hmul']
    constructor <;> omega

theorem Valid.stride_le_extent : ∀ {ds : List Dim}, Valid ds → ∀ d ∈ ds, d.stride ≤ extent ds
  | d₀ :: ds, h, d, hd => by
    have hle : d₀.stride ≤ d₀.size * d₀.stride := Nat.le_mul_of_pos_left _ h.1.size_pos
    rcases List.mem_cons.1 hd with rfl | hd
    · exact hle
    · exact (h.2.2.stride_le_extent d hd).trans (h.2.1 ▸ hle)

/-- The strides of a view descend. -/
theorem Valid.stride_le : ∀ {ds : List Dim}, Valid ds → ∀ (i m : ℕ) (d d' : Dim), ds[i]? = some d → ds[i + m]? =
    some d' →
    d'.stride ≤ d.stride
  | d₀ :: ds, h, i + 1, m, d, d', hd, hd' => by
    rw [show i + 1 + m = i + m + 1 by omega] at hd'
    exact h.2.2.stride_le i m d d' hd hd'
  | d₀ :: ds, h, 0, 0, d, d', hd, hd' => (Option.some.inj (hd.symm.trans hd') ▸ le_rfl)
  | d₀ :: ds, h, 0, m + 1, d, d', hd, hd' => by
    obtain rfl := Option.some.inj hd
    rw [Nat.zero_add, List.getElem?_cons_succ] at hd'
    exact h.2.1 ▸ h.2.2.stride_le_extent d' (List.mem_of_getElem? hd')

theorem Valid.stride_pos : ∀ {ds : List Dim}, Valid ds → ∀ d ∈ ds, 0 ≤ d.first ∧ 0 < d.stride
  | d₀ :: ds, h, d, hd => by
    rcases List.mem_cons.1 hd with rfl | hd
    · exact ⟨h.1.first_nonneg, h.2.1 ▸ h.2.2.extent_pos⟩
    · exact h.2.2.stride_pos d hd

/-- Indices in range are those of an offset of the view. -/
theorem position_mem : ∀ {ds : List Dim} {indices : List ℤ}, InRange (ds.map Dim.current) indices →
    position ds indices ∈ offsets ds
  | [], [], _ => List.mem_singleton.2 rfl
  | d :: ds, i :: indices, .cons ⟨hnonneg, hlt⟩ h => by
    obtain ⟨i, rfl⟩ := Int.eq_ofNat_of_zero_le hnonneg
    have hcons : position (d :: ds) ((i : ℤ) :: indices) = (d.first + i) * d.stride + position ds indices := by
      rw [Int.add_comm d.first]
      rfl
    rw [hcons, offsets]
    exact List.mem_flatMap.2 ⟨i, List.mem_range.2 (by omega), List.mem_map.2 ⟨_, position_mem h, rfl⟩⟩

namespace Array

variable {a : Array} {indices : List ℤ}

/-- With fewer indices, the same element as with leading zeros. -/
def SameElement (a : Array) (indices : List ℤ) : Prop :=
  ∃ p, a.ptr indices = some p ∧ a.ptr (List.replicate (a.dims.length - indices.length) 0 ++ indices) = some p

/-- Each first index is zero, or belongs to a dimension that an index is given for with `k` of them, and
between it and the dimension that this index is for the sizes are one. -/
def FirstsAgree (a : Array) (k : ℕ) : Prop :=
  ∀ (i : ℕ) (d : Dim), a.dims[i]? = some d → d.first = 0 ∨ ∃ d' : Dim, a.dims[i + (a.dims.length - k)]? =
    some d' ∧ d'.stride = d.stride

theorem Good.current_pos (h : a.Good) : ∀ n ∈ a.sizes, 0 < n := by
  have hall : ∀ {ds : List Dim}, Valid ds → ∀ d ∈ ds, 0 < d.current := by
    intro ds
    induction ds with
    | nil => exact fun _ d hd => absurd hd List.not_mem_nil
    | cons d ds ih => exact fun h => List.forall_mem_cons.2 ⟨h.1.current_pos, ih h.2.2⟩
  intro n hn
  obtain ⟨d, hd, rfl⟩ := List.mem_map.1 hn
  exact hall h.valid d hd

/-- What `ptr` finds, if it is an offset of the view. -/
theorem Good.ptr_eq (h : a.Good) (hlen : indices.length = a.dims.length) (hin : InRange a.sizes indices) :
    a.ptr indices = some (position a.dims indices) := by
  obtain ⟨hnonneg, hlt⟩ := h.valid.offset_lt (position_mem hin)
  have hdata := h.dataSize_eq
  rw [ptr, getOffsetFirst, if_neg (by omega), Option.bind_some, hlen, Nat.sub_self, List.drop_zero]
  exact if_neg (by rw [not_or]; exact ⟨not_lt.2 hnonneg, not_lt.2 (by rw [hdata]; exact hlt.le)⟩)

theorem inRange_zeros : ∀ {sizes : List ℕ}, (∀ n ∈ sizes, 0 < n) → InRange sizes (List.replicate sizes.length 0)
  | [], _ => .nil
  | n :: sizes, h => by
    obtain ⟨hn, hsizes⟩ := List.forall_mem_cons.1 h
    exact .cons ⟨le_rfl, by exact_mod_cast hn⟩ (inRange_zeros hsizes)

/-- Indices for the faster dimensions are in range with leading zeros. -/
theorem Good.inRange_leading {m : ℕ} (h : a.Good) (hm : m ≤ a.dims.length) (hin : InRange (a.sizes.drop m) indices) :
    InRange a.sizes (List.replicate m 0 ++ indices) := by
  have htake : (a.sizes.take m).length = m := by rw [List.length_take, List.length_map]; omega
  have hzeros := inRange_zeros fun n hn => h.current_pos n (List.mem_of_mem_take (i := m) hn)
  rw [htake] at hzeros
  rw [← List.take_append_drop m a.sizes]
  exact List.rel_append hzeros hin

theorem Good.sameElement_iff (h : a.Good) (hlt : indices.length < a.dims.length)
    (hin : InRange (a.sizes.drop (a.dims.length - indices.length)) indices) :
    a.SameElement indices ↔ a.FirstsAgree indices.length := by
  obtain ⟨m, hm⟩ : ∃ m, a.dims.length = m + indices.length := ⟨a.dims.length - indices.length, by omega⟩
  have hsub : a.dims.length - indices.length = m := by omega
  rw [SameElement, FirstsAgree, hsub]
  rw [hsub] at hin
  have hlen : (List.replicate m (0 : ℤ) ++ indices).length = a.dims.length :=
    by rw [List.length_append, List.length_replicate, hm]
  have hfull := h.inRange_leading (by omega) hin
  have hptr : a.getOffsetFirst indices =
      some (getOffset (a.dims.drop m) indices + getOffset (a.dims.drop m) (a.dims.map Dim.first)) := by
    rw [ getOffsetFirst, if_neg (by omega), hsub, getOffset_add (by rw [List.length_drop]; omega) (by simp)]
  have hposition : position a.dims (List.replicate m 0 ++ indices) = getOffset (a.dims.drop m) indices + lo a.dims := by
    rw [position, getOffset_add hlen (by rw [List.length_map]), getOffset_zeros (by omega)]
    rfl
  obtain ⟨hnonneg, hbelow⟩ := h.valid.offset_lt (position_mem hfull)
  have hdata := h.dataSize_eq
  have hagree := (getOffset_firsts h.valid.stride_pos fun i d d' hd hd' =>
    h.valid.stride_le i m d d' hd (by rwa [List.getElem?_drop, Nat.add_comm] at hd')).2
  simp only [List.getElem?_drop, Nat.add_comm m] at hagree
  rw [← hagree, h.ptr_eq hlen hfull, hposition, ptr, hptr, Option.bind_some]
  rw [hposition] at hnonneg hbelow
  constructor
  · rintro ⟨p, hp, hp'⟩
    split_ifs at hp
    have heq := (Option.some.inj hp).trans (Option.some.inj hp').symm
    omega
  · intro heq
    rw [heq, if_neg (by omega)]
    exact ⟨_, rfl, rfl⟩

/-- **Fewer indices than dimensions are those of the faster dimensions exactly if the first indices of the
view agree**, whatever the indices. -/
theorem partial_iff (sizes : List ℕ) (hfits : (sizes.filter (· ≠ 0)).prod < 2 ^ 63) (ops : List Op)
    (h : ops.foldlM Array.apply (construct sizes) = some a) (hlt : indices.length < a.dims.length)
    (hin : InRange (a.sizes.drop (a.dims.length - indices.length)) indices) :
    a.SameElement indices ↔ a.FirstsAgree indices.length := by
  rcases reached hfits h with hgood | ⟨hnil, -⟩
  · exact hgood.sameElement_iff hlt hin
  · rw [hnil] at hlt
    exact absurd hlt (Nat.not_lt_zero _)

/-- The first two columns of an array of three. -/
theorem partial_left : SameElement ⟨[⟨2, 3, 0, 1, 2⟩, ⟨3, 1, 0, 1, 2⟩], 6, 4, false, 0, 5⟩ [1] :=
  (partial_iff [2, 3] (by decide) [.setLimits [0, 0] [1, 1]] rfl (by decide) (.cons (by decide) .nil)).2 fun _ d hd =>
    .inl ((by decide : ∀ d ∈ [(⟨2, 3, 0, 1, 2⟩ : Dim), ⟨3, 1, 0, 1, 2⟩], d.first = 0) d (List.mem_of_getElem? hd))

/-- The last two columns, where the first index of the rows is added to an index for the columns. -/
theorem partial_right : ∃ a : Array, [Op.setLimits [0, 1] [1, 2]].foldlM Array.apply (construct [2, 3]) = some a ∧
    InRange (a.sizes.drop 1) [1] ∧ ¬a.SameElement [1] := by
  refine ⟨⟨[⟨2, 3, 0, 1, 2⟩, ⟨3, 1, 1, 2, 2⟩], 6, 4, false, 1, 6⟩, rfl, .cons (by decide) .nil, ?_⟩
  rintro ⟨p, hp, hp'⟩
  exact absurd (hp.trans hp'.symm) (by decide)

end Array

end Partial

end Redux.Util.Arrays
