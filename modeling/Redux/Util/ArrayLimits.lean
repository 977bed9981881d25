import Redux.Util.ArrayIter

/-!
# Util.ArrayLimits — the limits of a view

The limits stay within the data block, and what a view keeps besides them agrees with them
(`Array.WellFormed`); `shift` goes as far as it is told, or as far as the block (`Array.Shifts`).  The
indices of a sub-array are relative to its view.  They are clamped to the end of the view, but to the
beginning of the data block: a negative index leads out of a view that does not begin there
(`limits_iff`).
-/

namespace Redux.Util.Arrays

open Redux.Lib

/-! ## Elements by their indices -/

section Elements

variable {d d' : Dim} {ds ds' : List Dim} {p x r : ℤ}

theorem Valid.stride_head_pos (h : Valid (d :: ds)) : 0 < d.stride := by
  rw [h.2.1]
  exact h.2.2.extent_pos

/-- The index of a cell and what is left of its offset. -/
theorem cell_div_mod {stride : ℕ} (hr : 0 ≤ r ∧ r < stride) :
    (x * stride + r) / stride = x ∧ (x * stride + r) % stride = r := by
  have hpos : (stride : ℤ) ≠ 0 := by omega
  constructor
  · rw [Int.add_comm, Int.add_mul_ediv_right _ _ hpos, Int.ediv_eq_zero_of_lt hr.1 hr.2, Int.zero_add]
  · rw [Int.add_comm, Int.add_mul_emod_self_right, Int.emod_eq_of_lt hr.1 hr.2]

theorem Valid.cell_mem (h : Valid (d :: ds)) (hr : 0 ≤ r ∧ r < d.stride) :
    x * d.stride + r ∈ offsets (d :: ds) ↔ (d.first ≤ x ∧ x ≤ d.last) ∧ r ∈ offsets ds := by
  have hcurrent := h.1.current_eq
  rw [offsets, List.mem_flatMap]
  constructor
  · rintro ⟨i, hi, hp⟩
    obtain ⟨r', hr', heq⟩ := List.mem_map.1 hp
    have hlt := h.2.2.offset_lt hr'
    rw [← h.2.1] at hlt
    have hx := (cell_div_mod hlt).1.symm.trans ((congrArg (· / (d.stride : ℤ)) heq).trans (cell_div_mod hr).1)
    have hrest := (cell_div_mod hlt).2.symm.trans ((congrArg (· % (d.stride : ℤ)) heq).trans (cell_div_mod hr).2)
    have hi := List.mem_range.1 hi
    exact ⟨by omega, hrest ▸ hr'⟩
  · rintro ⟨⟨hfirst, hlast⟩, hmem⟩
    refine ⟨(x - d.first).toNat, List.mem_range.2 (by omega), List.mem_map.2 ⟨r, hmem, ?_⟩⟩
    rw [Int.toNat_of_nonneg (by omega), add_sub_cancel]

/-- The offset of an element says its index in the slowest dimension. -/
theorem Valid.mem_offsets_cons (h : Valid (d :: ds)) : p ∈ offsets (d :: ds) ↔
    (d.first ≤ p / d.stride ∧ p / d.stride ≤ d.last) ∧ p % d.stride ∈ offsets ds := by
  have hpos : (0 : ℤ) < d.stride := Int.natCast_pos.2 h.stride_head_pos
  rw [← h.cell_mem ⟨Int.emod_nonneg p hpos.ne', Int.emod_lt_of_pos p hpos⟩, Int.mul_comm, Int.mul_ediv_add_emod]

/-- **One view of a block lies in another** if its limits do, in every dimension. -/
theorem Valid.nested_iff (h : Valid ds) (hr : List.Forall₂ Reshaped ds ds') :
    (∀ p ∈ offsets ds', p ∈ offsets ds) ↔
      List.Forall₂ (fun d d' : Dim => d.first ≤ d'.first ∧ d'.last ≤ d.last) ds ds' := by
  induction hr with
  | nil => exact iff_of_true (fun p hp => hp) .nil
  | @cons d d' ds ds' hd hds ih =>
    have h' : Valid (d' :: ds') := h.reshaped (.cons hd hds)
    have hstride := hd.stride_eq
    rw [List.forall₂_cons, ← ih h.2.2]
    constructor
    · intro hall
      have hcell : ∀ x r, d'.first ≤ x → x ≤ d'.last → r ∈ offsets ds' →
          (d.first ≤ x ∧ x ≤ d.last) ∧ r ∈ offsets ds := by
        intro x r hfirst hlast hmem
        have hr := h'.2.2.offset_lt hmem
        rw [← h'.2.1] at hr
        have hx := hall _ ((h'.cell_mem hr).2 ⟨⟨hfirst, hlast⟩, hmem⟩)
        rw [hstride] at hx hr
        exact (h.cell_mem hr).1 hx
      have hle := h'.1.first_le
      have hlo := List.mem_of_mem_head? (Option.mem_def.2 h'.2.2.head?_offsets)
      have hfirst := (hcell d'.first _ le_rfl hle hlo).1
      have hlast := (hcell d'.last _ hle le_rfl hlo).1
      exact ⟨⟨hfirst.1, hlast.2⟩, fun r hr => (hcell d'.first r le_rfl hle hr).2⟩
    · rintro ⟨⟨hfirst, hlast⟩, hrest⟩ p hp
      rw [h'.mem_offsets_cons, hstride] at hp
      rw [h.mem_offsets_cons]
      exact ⟨⟨hfirst.trans hp.1.1, hp.1.2.trans hlast⟩, hrest _ hp.2⟩

end Elements

namespace Array

/-! ## What is to hold -/

/-- The limits are within the sizes, and the rest agrees with them.  An array without dimensions has no
elements. -/
structure WellFormed (a : Array) : Prop where
  limits : ∀ d ∈ a.dims, 0 ≤ d.first ∧ d.first ≤ d.last ∧ d.last < d.size
  current_eq : ∀ d ∈ a.dims, (d.current : ℤ) = d.last - d.first + 1
  count_eq : a.nElements_ = a.elements.length
  begin_eq : a.begin_ = getOffset a.dims (a.dims.map Dim.first)
  end_eq : a.end_ = if a.dims = [] then a.begin_ else getOffset a.dims (a.dims.map Dim.last) + 1
  dense_iff : a.dense_ = true ↔ a.elements.IsChain fun p q => q = p + 1

/-- What `shift( dim, n )` returns. -/
def shifted (a : Array) (dim : ℕ) (n : ℤ) : ℤ :=
  if n = 0 then 0 else
    match a.dims[dim]? with
    | none => 0
    | some d => shiftBy d n

/-- `k` has the sign of `n` and is no more. -/
def Within (n k : ℤ) : Prop := 0 ≤ k ∧ k ≤ n ∨ n ≤ k ∧ k ≤ 0

/-- The dimension can be moved by `k` inside the block. -/
def Room (d : Dim) (k : ℤ) : Prop := 0 ≤ d.first + k ∧ d.last + k < d.size

/-- `m` is as far as the dimension can be moved towards `n`. -/
structure Farthest (d : Dim) (n m : ℤ) : Prop where
  within : Within n m
  room : Room d m
  largest : ∀ k, Within n k → Room d k → k.natAbs ≤ m.natAbs

/-- The view is moved by what is returned, and that is as far as it can be moved. -/
def Shifts (a : Array) (dim : ℕ) (n : ℤ) (a' : Array) : Prop :=
  match a.dims[dim]? with
  | none => a.shifted dim n = 0 ∧ a' = a
  | some d =>
    let m := a.shifted dim n
    Farthest d n m ∧ a'.dims = a.dims.set dim { d with first := d.first + m, last := d.last + m }

/-- What is to hold of an operation: a sub-array is part of its view, and `shift` is exact. -/
def Keeps (a : Array) : Op → Array → Prop
  | .subArray _, a' | .subArrayTo _ _, a' => ∀ p ∈ a'.elements, p ∈ a.elements
  | .shift dim n, a' => a.Shifts dim n a'
  | _, _ => True

/-- The relative indices that `setLimits( limits )` makes of sizes, or of pairs of indices. -/
def limitsOf (a : Array) (limits : List ℤ) : List ℤ × List ℤ :=
  if limits.length = a.dims.length then
    (a.dims.map Dim.first, List.zipWith (fun (d : Dim) l => d.first + l - 1) a.dims limits)
  else ((List.range a.dims.length).map fun i => limits.getD (2 * i) 0,
    (List.range a.dims.length).map fun i => limits.getD (2 * i + 1) 0)

/-- The view begins at zero where an index is negative. -/
def Inside (a : Array) (first last : List ℤ) : Prop :=
  ∀ p ∈ a.dims.zip (first.zip last), p.1.first = 0 ∨ 0 ≤ p.2.1 ∧ 0 ≤ p.2.2

instance (a : Array) (first last : List ℤ) : Decidable (a.Inside first last) :=
  inferInstanceAs (Decidable (∀ p ∈ _, _))

/-- The indices of a sub-array do not lead out of the view. -/
def Stays (a : Array) : Op → Prop
  | .subArray indices => indices ≠ [] → a.Inside (a.limitsOf indices).1 (a.limitsOf indices).2
  | .subArrayTo first last => a.Inside first last
  | _ => True

instance (a : Array) : (op : Op) → Decidable (a.Stays op)
  | .subArray indices =>
    inferInstanceAs (Decidable (indices ≠ [] → a.Inside (a.limitsOf indices).1 (a.limitsOf indices).2))
  | .subArrayTo first last => inferInstanceAs (Decidable (a.Inside first last))
  | .setLimits _ _ | .setLimitsOf _ | .shift _ _ | .resetLimits => inferInstanceAs (Decidable True)

/-! ## Views as they should be -/

section Views

variable {a a' : Array}

theorem Good.dim_ok (h : a.Good) : ∀ d ∈ a.dims, d.Ok := fun d hd =>
  (List.forall₂_same.1 h.valid.forall₂_refl d hd).ok

/-- A view is dense exactly when its elements are contiguous. -/
theorem Good.dense_iff (h : a.Good) : a.dense_ = true ↔ a.elements.IsChain fun p q => q = p + 1 := by
  refine ⟨h.consecutive_of_dense, fun hchain => ?_⟩
  have hrange := eq_range_of_consecutive hchain h.head?_elements
  have hlast := h.getLast?_elements
  have hlen := h.length_elements
  have hpos : 0 < a.nElements_ := by
    rw [← hlen]
    exact List.length_pos_iff.2 (h.elements_eq ▸ h.valid.offsets_ne_nil)
  obtain ⟨n, hn⟩ := Nat.exists_eq_add_one.2 hpos
  rw [hrange, hlen, hn, List.range_succ, List.map_append, List.map_singleton, List.getLast?_concat] at hlast
  have hend := Option.some.inj hlast
  rw [h.dense_eq, decide_eq_true_iff, hn]
  push_cast
  omega

theorem Good.wellFormed (h : a.Good) : a.WellFormed where
  limits d hd := ⟨(h.dim_ok d hd).first_nonneg, (h.dim_ok d hd).first_le, (h.dim_ok d hd).last_lt⟩
  current_eq d hd := (h.dim_ok d hd).current_eq
  count_eq := h.length_elements.symm
  begin_eq := h.begin_eq
  end_eq := by rw [if_neg h.ne_nil, h.end_eq, hi]
  dense_iff := h.dense_iff

theorem WellFormed.exact_of_nil (h : a.WellFormed) (hnil : a.dims = []) : a.Exact := by
  have hempty : a.elements = [] := if_pos hnil
  have hend := h.end_eq
  have hcount := h.count_eq
  rw [if_pos hnil] at hend
  rw [hempty, List.length_nil] at hcount
  refine ⟨h.count_eq.symm, by rw [hempty]; exact .nil, ?_, ?_⟩
  · rw [hempty, forwards, hcount, walk, if_pos hend.symm]
  · rw [hempty, backwards, hcount, walkBack, if_pos hend]
    rfl

end Views

/-! ## Shifts -/

section Shifting

variable {a : Array} {d : Dim}

theorem farthest_zero (hd : d.Ok) : Farthest d 0 0 := by
  have hfirst := hd.first_nonneg
  have hlast := hd.last_lt
  refine ⟨.inl ⟨le_rfl, le_rfl⟩, ⟨by omega, by omega⟩, fun k hk _ => ?_⟩
  unfold Within at hk
  omega

/-- **The shift of a dimension** is the largest one. -/
theorem farthest_shiftBy (hd : d.Ok) (n : ℤ) : Farthest d n (shiftBy d n) := by
  have hfirst := hd.first_nonneg
  have hle := hd.first_le
  have hlast := hd.last_lt
  unfold shiftBy
  refine ⟨?_, ?_, fun k hk hroom => ?_⟩
  · unfold Within
    dsimp only
    split_ifs <;> omega
  · unfold Room
    dsimp only
    split_ifs <;> omega
  · unfold Within at hk
    unfold Room at hroom
    dsimp only
    split_ifs <;> omega

theorem Good.shifts (h : a.Good) (dim : ℕ) (n : ℤ) : a.Shifts dim n (a.shift dim n) := by
  unfold Shifts shifted Array.shift
  cases hdim : a.dims[dim]? with
  | none => exact ⟨ite_self _, by rw [ite_self]⟩
  | some d =>
    have hd := h.dim_ok d (List.mem_of_getElem? hdim)
    by_cases hn : n = 0
    · rw [if_pos hn, if_pos hn, hn]
      refine ⟨farthest_zero hd, ?_⟩
      obtain ⟨hlt, hget⟩ := List.getElem?_eq_some_iff.1 hdim
      rw [Int.add_zero, Int.add_zero, ← hget, List.set_getElem_self]
    · rw [if_neg hn, if_neg hn]
      exact ⟨farthest_shiftBy hd n, rfl⟩

end Shifting

/-! ## Sub-arrays -/

section SubArrays

variable {a a' : Array} {first last indices : List ℤ}

theorem setLimits_eq (hs : a.setLimits first last = some a') : first.length = a.dims.length ∧
    last.length = a.dims.length ∧
    a'.dims = List.zipWith (fun d l => limit d l.1 l.2) a.dims (first.zip last) := by
  unfold setLimits at hs
  split_ifs at hs with hlen
  obtain rfl := Option.some.inj hs
  exact ⟨by omega, by omega, rfl⟩

theorem setLimitsOf_eq {limits : List ℤ} (hs : a.setLimitsOf limits = some a') :
    a.setLimits (a.limitsOf limits).1 (a.limitsOf limits).2 = some a' := by
  unfold setLimitsOf at hs
  unfold limitsOf
  split_ifs at hs with hsizes
  · rw [if_pos hsizes]
    exact hs
  · rw [if_neg hsizes]
    exact hs

/-- The limits are in order. -/
theorem limit_first (d : Dim) (first last : ℤ) : (limit d first last).first =
    min (min (max (d.first + first) 0) d.last) (min (max (d.first + last) 0) d.last) := by
  rw [limit]
  generalize min (max (d.first + first) 0) d.last = a
  generalize min (max (d.first + last) 0) d.last = b
  dsimp only
  split_ifs with h
  · exact (min_eq_right h.le).symm
  · exact (min_eq_left (not_lt.1 h)).symm

theorem limit_last (d : Dim) (first last : ℤ) : (limit d first last).last =
    max (min (max (d.first + first) 0) d.last) (min (max (d.first + last) 0) d.last) := by
  rw [limit]
  generalize min (max (d.first + first) 0) d.last = a
  generalize min (max (d.first + last) 0) d.last = b
  dsimp only
  split_ifs with h
  · exact (max_eq_left h.le).symm
  · exact (max_eq_right (not_lt.1 h)).symm

/-- Limits that are in order are clamped one by one. -/
theorem limit_of_le {d : Dim} {first last : ℤ} (hle : first ≤ last) :
    (limit d first last).first = min (max (d.first + first) 0) d.last ∧
      (limit d first last).last = min (max (d.first + last) 0) d.last := by
  have hclamped : min (max (d.first + first) 0) d.last ≤ min (max (d.first + last) 0) d.last :=
    min_le_min_right _ (max_le_max_right _ (Int.add_le_add_left hle _))
  rw [limit_first, limit_last]
  exact ⟨min_eq_left hclamped, max_eq_right hclamped⟩

/-- The limits of one dimension. -/
theorem limit_nested_iff {d : Dim} (hd : d.Ok) (first last : ℤ) :
    (d.first ≤ (limit d first last).first ∧ (limit d first last).last ≤ d.last) ↔
      d.first = 0 ∨ 0 ≤ first ∧ 0 ≤ last := by
  have hbelow : ∀ i, d.first ≤ min (max (d.first + i) 0) d.last ↔ d.first = 0 ∨ 0 ≤ i := by
    have hfirst := hd.first_nonneg
    have hle := hd.first_le
    intro i
    omega
  rw [limit_first, limit_last, le_min_iff, hbelow, hbelow, or_and_left]
  exact and_iff_left (max_le (min_le_right _ _) (min_le_right _ _))

theorem forall₂_zipWith_limit : ∀ {ds : List Dim} {ls : List (ℤ × ℤ)}, (∀ d ∈ ds, d.Ok) → ls.length = ds.length →
    (List.Forall₂ (fun d d' : Dim => d.first ≤ d'.first ∧ d'.last ≤ d.last) ds
        (List.zipWith (fun d l => limit d l.1 l.2) ds ls) ↔
      ∀ p ∈ ds.zip ls, p.1.first = 0 ∨ 0 ≤ p.2.1 ∧ 0 ≤ p.2.2)
  | [], [], _, _ => iff_of_true .nil fun p hp => absurd hp List.not_mem_nil
  | d :: ds, l :: ls, h, hlen => by
    obtain ⟨hd, hds⟩ := List.forall_mem_cons.1 h
    rw [List.zipWith_cons_cons, List.forall₂_cons, List.zip_cons_cons, List.forall_mem_cons,
      limit_nested_iff hd, forall₂_zipWith_limit hds (Nat.succ.inj hlen)]

/-- **Limits are nested exactly if their indices do not lead out of the view.** -/
theorem Good.nested_iff (h : a.Good) (hs : a.setLimits first last = some a') :
    (∀ p ∈ a'.elements, p ∈ a.elements) ↔ a.Inside first last := by
  obtain ⟨hfirst, hlast, hdims⟩ := setLimits_eq hs
  have hlen : (first.zip last).length = a.dims.length := by
    rw [List.length_zip]
    omega
  rw [h.elements_eq, (h.setLimits hs).elements_eq, hdims, h.valid.nested_iff (h.valid.zipWith_limit hlen),
    forall₂_zipWith_limit h.dim_ok hlen]
  rfl

theorem Good.subArray_nested_iff (h : a.Good) (hs : a.subArray indices = some a') :
    (∀ p ∈ a'.elements, p ∈ a.elements) ↔
      (indices ≠ [] → a.Inside (a.limitsOf indices).1 (a.limitsOf indices).2) := by
  unfold Array.subArray at hs
  split_ifs at hs with hcount hne
  · rw [imp_iff_right hne]
    exact h.nested_iff (setLimitsOf_eq hs)
  · obtain rfl := Option.some.inj hs
    rw [h.setBounds_eq]
    exact iff_of_true (fun p hp => hp) fun hne' => absurd hne' hne

theorem Good.keeps_iff (h : a.Good) {op : Op} (hs : a.apply op = some a') : a.Keeps op a' ↔ a.Stays op := by
  cases op with
  | subArray indices => exact h.subArray_nested_iff hs
  | subArrayTo first last => exact h.nested_iff hs
  | setLimits first last => exact Iff.rfl
  | setLimitsOf limits => exact Iff.rfl
  | shift dim n =>
    obtain rfl := Option.some.inj hs
    exact iff_of_true (h.shifts dim n) trivial
  | resetLimits => exact Iff.rfl

end SubArrays

/-! ## Runs -/

section Runs

variable {a a' : Array}

/-- Without dimensions, nothing but a shift keeps an array as it should be. -/
theorem wellFormed_of_nil (hnil : a.dims = []) (h : a.WellFormed) {op : Op} (hs : a.apply op = some a') :
    a'.WellFormed ∧ a.Keeps op a' ↔ a.Bearable op ∧ a.Stays op := by
  obtain ⟨hnil', hexact⟩ := apply_of_nil hnil hs
  have hbearable : a'.WellFormed → a.Bearable op := fun h' =>
    (hexact (h.exact_of_nil hnil)).1 (h'.exact_of_nil hnil')
  cases op with
  | shift dim n =>
    obtain rfl := Option.some.inj hs
    rw [shift_of_nil hnil]
    refine iff_of_true ⟨h, ?_⟩ ⟨trivial, trivial⟩
    show a.Shifts dim n a
    unfold Shifts shifted
    rw [hnil, List.getElem?_nil]
    exact ⟨ite_self _, rfl⟩
  | _ => exact iff_of_false (fun h' => hbearable h'.1 hnil) fun h' => h'.1 hnil

/-- **In every run of operations on a constructed array the limits stay well formed, shifts are exact and
sub-arrays are nested, as long as the indices of sub-arrays do not lead out of their views** and none but
`shift` is used on an array without dimensions. -/
theorem limits_iff (sizes : List ℕ) (hfits : (sizes.filter (· ≠ 0)).prod < 2 ^ 63) (ops : List Op) :
    Always apply WellFormed (construct sizes) ops ∧ Each apply Keeps (construct sizes) ops ↔
      Each apply (fun a op _ => a.Bearable op ∧ a.Stays op) (construct sizes) ops := by
  refine @always_and_each_iff _ _ apply WellFormed (fun a => a.Good ∨ a.dims = []) _ _ ?_ ?_ _ _ ?_ ?_
  · rintro a op a' (h | h) hs
    · exact .inl (h.apply hs)
    · exact .inr (apply_of_nil h hs).1
  · rintro a op a' (h | h) hformed hs
    · have hbearable : a.Bearable op := by cases op <;> first | exact h.ne_nil | trivial
      rw [h.keeps_iff hs]
      exact and_congr_left fun _ => iff_of_true (h.apply hs).wellFormed hbearable
    · exact wellFormed_of_nil h hformed hs
  · exact (construct_good hfits).imp_right fun h => by rw [h]
  · rcases construct_good hfits with h | h
    · exact h.wellFormed
    · rw [h]
      refine ⟨by simp, by simp, rfl, rfl, rfl, iff_of_true rfl ?_⟩
      exact List.isChain_nil

/-- Two rows of three, from the second column on, moved down, and the first of their columns. -/
theorem views_nested :
    Always apply WellFormed (construct [3, 4]) [.subArray [-3, 1, 1, 2], .shift 0 7, .subArrayTo [0, 0] [5, 0]] ∧
    Each apply Keeps (construct [3, 4]) [.subArray [-3, 1, 1, 2], .shift 0 7, .subArrayTo [0, 0] [5, 0]] :=
  (limits_iff [3, 4] (by decide) _).2 (.cons rfl (by decide) <| .cons rfl (by decide) <|
    .cons rfl (by decide) trivial)

/-- A part of a view of the last two of four elements that begins one before its first. -/
theorem part_not_nested : ¬(Always apply WellFormed (construct [4]) [.setLimits [2] [3], .subArray [-1, 0]] ∧
    Each apply Keeps (construct [4]) [.setLimits [2] [3], .subArray [-1, 0]]) := by
  rintro ⟨-, heach⟩
  have hnested := ((heach _ rfl).2 _ rfl).1 1 (by decide)
  exact absurd hnested (by decide)

end Runs

end Array

end Redux.Util.Arrays
