import Mathlib.Tactic.Linarith
import Mathlib.Tactic.Ring
import Redux.Lib.Run
import Redux.Util.Array

/-!
# Util.ArrayIter — what the iterators of a view visit

The offsets of a view, in row-major order, lead from one to the next by the iterator's step: adding one
carries over the dimensions that are full, and the padding of a dimension makes up for what the view
leaves out of it (`padUp_spec`, `padDown_spec`).  So an iterator visits the elements of the view in
order, each once, in as many steps as there are elements, and backwards the same (`Array.Exact`).  The
operations keep a view of at least one dimension as it should be, and an array without dimensions is
left alone by `shift` only; `iterates` follows for every run of such steps.
-/

namespace Redux.Util.Arrays

open Redux.Lib

/-! ## Dimensions as they should be -/

/-- The limits of a dimension are within its size. -/
structure Dim.Ok (d : Dim) : Prop where
  first_nonneg : 0 ≤ d.first
  first_le : d.first ≤ d.last
  last_lt : d.last < d.size
  current_eq : (d.current : ℤ) = d.last - d.first + 1

/-- The dimensions of a view: each is as it should be, and its stride is what the faster ones span. -/
def Valid : List Dim → Prop
  | [] => True
  | d :: ds => d.Ok ∧ d.stride = extent ds ∧ Valid ds

/-- The offset of the first element of a view, and that of the last one. -/
def lo (ds : List Dim) : ℤ := Array.getOffset ds (ds.map Dim.first)

def hi (ds : List Dim) : ℤ := Array.getOffset ds (ds.map Dim.last)

section Bounds

variable {d : Dim} {ds : List Dim}

@[simp] theorem lo_nil : lo [] = 0 := rfl

@[simp] theorem hi_nil : hi [] = 0 := rfl

theorem lo_cons : lo (d :: ds) = d.first * d.stride + lo ds := rfl

theorem hi_cons : hi (d :: ds) = d.last * d.stride + hi ds := rfl

@[simp] theorem extent_cons : extent (d :: ds) = d.size * d.stride := rfl

theorem Dim.Ok.size_pos (h : d.Ok) : 0 < d.size := by
  have h₁ := h.first_nonneg
  have h₂ := h.first_le
  have h₃ := h.last_lt
  omega

theorem Dim.Ok.current_pos (h : d.Ok) : 0 < d.current := by
  have h₁ := h.first_le
  have h₂ := h.current_eq
  omega

theorem Valid.extent_pos : ∀ {ds : List Dim}, Valid ds → 0 < extent ds
  | [], _ => Nat.one_pos
  | d :: ds, h => by
    rw [extent_cons, h.2.1]
    exact Nat.mul_pos h.1.size_pos h.2.2.extent_pos

theorem Valid.lo_nonneg : ∀ {ds : List Dim}, Valid ds → 0 ≤ lo ds
  | [], _ => le_refl 0
  | d :: ds, h => by
    rw [lo_cons]
    exact Int.add_nonneg (Int.mul_nonneg h.1.first_nonneg (Int.natCast_nonneg _)) h.2.2.lo_nonneg

theorem Valid.lo_le_hi : ∀ {ds : List Dim}, Valid ds → lo ds ≤ hi ds
  | [], _ => le_refl 0
  | d :: ds, h => by
    rw [lo_cons, hi_cons]
    exact Int.add_le_add (Int.mul_le_mul_of_nonneg_right h.1.first_le (Int.natCast_nonneg _))
      h.2.2.lo_le_hi

/-- The last element is within what the dimensions span. -/
theorem Valid.hi_lt : ∀ {ds : List Dim}, Valid ds → hi ds < extent ds
  | [], _ => Int.one_pos
  | d :: ds, h => by
    have hlt := h.2.2.hi_lt
    have hmul : (d.last + 1) * (d.stride : ℤ) ≤ d.size * d.stride :=
      Int.mul_le_mul_of_nonneg_right h.1.last_lt (Int.natCast_nonneg _)
    rw [← h.2.1] at hlt
    rw [hi_cons, extent_cons]
    push_cast
    linarith

end Bounds

/-! ## The offsets of a view -/

section Offsets

variable {d : Dim} {ds : List Dim}

/-- The offsets with the `i`-th index of the slowest dimension. -/
def block (d : Dim) (ds : List Dim) (i : ℕ) : List ℤ :=
  (offsets ds).map ((d.first + i) * d.stride + ·)

theorem offsets_cons : offsets (d :: ds) = ((List.range d.current).map (block d ds)).flatten := by
  rw [offsets, List.flatMap_def]
  rfl

theorem Valid.current_pos : ∀ {ds : List Dim}, Valid ds → ∀ d ∈ ds, 0 < d.current
  | d₀ :: ds, h, d, hd => by
    rcases List.mem_cons.1 hd with rfl | hd
    · exact h.1.current_pos
    · exact h.2.2.current_pos d hd

/-- The first offset, if there is one in every dimension. -/
theorem head?_offsets : ∀ {ds : List Dim}, (∀ d ∈ ds, 0 < d.current) → (offsets ds).head? = some (lo ds)
  | [], _ => rfl
  | d :: ds, h => by
    obtain ⟨hd, hds⟩ := List.forall_mem_cons.1 h
    obtain ⟨n, hn⟩ := Nat.exists_eq_add_one.2 hd
    have hne : block d ds 0 ≠ [] := by
      rw [block, Ne, List.map_eq_nil_iff]
      intro hnil
      have := head?_offsets hds
      rw [hnil] at this
      cases this
    rw [offsets_cons, hn, List.range_succ_eq_map, List.map_cons, List.flatten_cons,
      List.head?_append_of_ne_nil _ hne, block, List.head?_map, head?_offsets hds, lo_cons]
    simp

theorem Valid.head?_offsets (h : Valid ds) : (offsets ds).head? = some (lo ds) :=
  Arrays.head?_offsets h.current_pos

theorem Valid.getLast?_offsets : ∀ {ds : List Dim}, Valid ds → (offsets ds).getLast? = some (hi ds)
  | [], _ => rfl
  | d :: ds, h => by
    obtain ⟨n, hn⟩ := Nat.exists_eq_add_one.2 h.1.current_pos
    have hlast : d.first + n = d.last := by
      have := h.1.current_eq
      omega
    rw [offsets_cons, hn, List.range_succ, List.map_append, List.flatten_append, List.map_singleton,
      List.flatten_singleton, List.getLast?_append, block, List.getLast?_map, h.2.2.getLast?_offsets,
      Option.map_some, hlast, hi_cons]
    rfl

theorem Valid.offsets_ne_nil (h : Valid ds) : offsets ds ≠ [] := by
  intro hnil
  have := h.head?_offsets
  rw [hnil] at this
  cases this

theorem length_offsets : ∀ ds : List Dim, (offsets ds).length = (ds.map Dim.current).prod
  | [] => rfl
  | d :: ds => by
    have hblock : ∀ i, (block d ds i).length = (ds.map Dim.current).prod := fun i => by
      rw [block, List.length_map, length_offsets ds]
    rw [offsets_cons, List.length_flatten, List.map_map, List.map_cons, List.prod_cons]
    simp [Function.comp_def, hblock]

/-- A relation between neighbours: within the blocks, and from one block to the next. -/
theorem Valid.isChain_offsets {R : ℤ → ℤ → Prop} (h : Valid (d :: ds))
    (hin : ∀ i < d.current, (block d ds i).IsChain R)
    (hnext : ∀ i, i + 1 < d.current →
      R ((d.first + i) * d.stride + hi ds) ((d.first + i + 1) * d.stride + lo ds)) :
    (offsets (d :: ds)).IsChain R := by
  have hne : ∀ i, block d ds i ≠ [] := fun i hnil =>
    h.2.2.offsets_ne_nil (List.map_eq_nil_iff.1 hnil)
  rw [offsets_cons, List.isChain_flatten]
  · constructor
    · intro l hl
      obtain ⟨i, hi, rfl⟩ := List.mem_map.1 hl
      exact hin i (List.mem_range.1 hi)
    · rw [List.isChain_map, List.isChain_iff_getElem]
      intro i hi x hx y hy
      rw [List.length_range] at hi
      rw [List.getElem_range, block, List.getLast?_map, h.2.2.getLast?_offsets] at hx
      rw [List.getElem_range, block, List.head?_map, h.2.2.head?_offsets] at hy
      obtain rfl := Option.some.inj hx
      obtain rfl := Option.some.inj hy
      have hcast : d.first + ((i + 1 : ℕ) : ℤ) = d.first + i + 1 := by omega
      rw [hcast]
      exact hnext i hi
  · rw [List.mem_map]
    rintro ⟨i, -, hnil⟩
    exact hne i hnil

/-- The offsets lie between the first one and the last one. -/
theorem Valid.bounds : ∀ {ds : List Dim}, Valid ds → ∀ r ∈ offsets ds, lo ds ≤ r ∧ r ≤ hi ds
  | [], _, r, hr => by
    obtain rfl : r = 0 := List.mem_singleton.1 hr
    exact ⟨le_rfl, le_rfl⟩
  | d :: ds, h, r, hr => by
    rw [offsets, List.mem_flatMap] at hr
    obtain ⟨i, hi, hr⟩ := hr
    obtain ⟨r₀, hr₀, rfl⟩ := List.mem_map.1 hr
    obtain ⟨hlow, hhigh⟩ := h.2.2.bounds r₀ hr₀
    have hcurrent := h.1.current_eq
    have hlt := List.mem_range.1 hi
    have hstride := Int.natCast_nonneg d.stride
    rw [lo_cons, hi_cons]
    constructor
    · exact Int.add_le_add (Int.mul_le_mul_of_nonneg_right (by omega) hstride) hlow
    · exact Int.add_le_add (Int.mul_le_mul_of_nonneg_right (by omega) hstride) hhigh

theorem Valid.offset_lt {r : ℤ} (h : Valid ds) (hr : r ∈ offsets ds) : 0 ≤ r ∧ r < extent ds := by
  have hbounds := h.bounds r hr
  have hlo := h.lo_nonneg
  have hhi := h.hi_lt
  omega

/-- The offsets of a view ascend. -/
theorem Valid.sorted : ∀ {ds : List Dim}, Valid ds → (offsets ds).IsChain (· < ·)
  | [], _ => List.isChain_singleton 0
  | d :: ds, h => by
    refine h.isChain_offsets (fun i _ => ?_) fun i _ => ?_
    · rw [block, List.isChain_map]
      exact h.2.2.sorted.imp fun a b hab => by omega
    · have hlt := h.2.2.hi_lt
      have hlo := h.2.2.lo_nonneg
      rw [← h.2.1] at hlt
      have hmul : (d.first + i + 1) * (d.stride : ℤ) = (d.first + i) * d.stride + d.stride := by
        rw [Int.add_mul, Int.one_mul]
      rw [hmul]
      linarith

end Offsets

/-! ## Padding -/

section Padding

variable {d : Dim} {ds : List Dim} {k x r : ℤ}

/-- The remainder is the index of the dimension. -/
theorem remainder_eq {size stride : ℕ} (hx : 0 ≤ x) (hxs : x < size) (hr : 0 ≤ r) (hrs : r < stride) :
    ((k * size + x) * stride + r) % ((size * stride : ℕ) : ℤ) / stride = x := by
  have hstride : (0 : ℤ) < stride := by omega
  have hle : (x + 1) * (stride : ℤ) ≤ size * stride := Int.mul_le_mul_of_nonneg_right hxs hstride.le
  have hlow : 0 ≤ x * (stride : ℤ) + r := Int.add_nonneg (Int.mul_nonneg hx hstride.le) hr
  have hhigh : x * (stride : ℤ) + r < ((size * stride : ℕ) : ℤ) := by
    push_cast
    linarith
  have hsplit : (k * size + x) * (stride : ℤ) + r = (x * stride + r) + ((size * stride : ℕ) : ℤ) * k := by
    push_cast
    linarith [Int.mul_comm k (size * (stride : ℤ)), Int.mul_assoc k size stride,
      Int.add_mul (k * size) x stride]
  rw [hsplit, Int.add_mul_emod_self_left, Int.emod_eq_of_lt hlow hhigh, Int.add_comm,
    Int.add_mul_ediv_right _ _ hstride.ne', Int.ediv_eq_zero_of_lt hr hrs, Int.zero_add]

/-- Within the limits of a dimension there is no padding. -/
theorem pad_inside (hd : d.Ok) (hf : d.first ≤ x) (hl : x ≤ d.last) (hr : 0 ≤ r) (hrs : r < d.stride) :
    Array.pad (d.size * d.stride) d ((k * d.size + x) * d.stride + r) = 0 := by
  have h₁ := hd.first_nonneg
  have h₂ := hd.last_lt
  rw [Array.pad, remainder_eq (by omega) (by omega) hr hrs]
  exact if_neg (by omega)

/-- Outside of them it is what the view leaves out. -/
theorem pad_outside (hx : 0 ≤ x) (hxs : x < d.size) (hout : x < d.first ∨ d.last < x) (hr : 0 ≤ r)
    (hrs : r < d.stride) :
    Array.pad (d.size * d.stride) d ((k * d.size + x) * d.stride + r) =
      (d.size - d.current) * d.stride := by
  rw [Array.pad, remainder_eq hx hxs hr hrs, if_pos (by omega)]
  push_cast
  rw [Int.sub_mul]

/-- What the padding of `trimUp` comes to after the last element: the next index of the dimension
before, and the first element. -/
theorem padUp_carry (hd : d.Ok) (hr : 0 ≤ r) (hrs : r < d.stride) :
    (k * d.size + (d.last + 1)) * d.stride + r +
      Array.pad (d.size * d.stride) d ((k * d.size + (d.last + 1)) * d.stride + r) =
    (k + 1) * (d.size * d.stride : ℕ) + (d.first * d.stride + r) := by
  have h₁ := hd.first_nonneg
  have h₂ := hd.first_le
  have h₃ := hd.last_lt
  have hcurrent := hd.current_eq
  rcases Int.lt_or_le (d.last + 1) d.size with hlt | hge
  · rw [pad_outside (by omega) hlt (by omega) hr hrs, hcurrent]
    push_cast
    ring
  · -- the dimension is full up to its end, and the index is zero
    have hsize : (d.size : ℤ) = d.last + 1 := by omega
    have hwrap : (k * d.size + (d.last + 1)) * (d.stride : ℤ) + r = ((k + 1) * d.size + 0) * d.stride + r := by
      rw [← hsize]
      ring
    rw [hwrap]
    rcases Int.lt_or_le 0 d.first with hpos | hzero
    · have hlast : d.last = d.size - 1 := by omega
      rw [pad_outside le_rfl (by omega) (.inl hpos) hr hrs, hcurrent, hlast]
      push_cast
      ring
    · rw [pad_inside hd (by omega) (by omega) hr hrs]
      have hfirst : d.first = 0 := by omega
      rw [hfirst]
      push_cast
      ring

/-- What the padding of `trimDown` comes to before the first element. -/
theorem padDown_borrow (hd : d.Ok) (hr : 0 ≤ r) (hrs : r < d.stride) :
    (k * d.size + (d.first - 1)) * d.stride + r -
      Array.pad (d.size * d.stride) d ((k * d.size + (d.first - 1)) * d.stride + r) =
    (k - 1) * (d.size * d.stride : ℕ) + (d.last * d.stride + r) := by
  have h₁ := hd.first_nonneg
  have h₂ := hd.first_le
  have h₃ := hd.last_lt
  have hcurrent := hd.current_eq
  rcases Int.lt_or_le 0 d.first with hpos | hzero
  · rw [pad_outside (by omega) (by omega) (by omega) hr hrs, hcurrent]
    push_cast
    ring
  · have hfirst : d.first = 0 := by omega
    have hwrap : (k * d.size + (d.first - 1)) * (d.stride : ℤ) + r =
        ((k - 1) * d.size + (d.size - 1)) * d.stride + r := by
      rw [hfirst]
      ring
    rw [hwrap]
    rcases Int.lt_or_le (d.last + 1) d.size with hlt | hge
    · rw [pad_outside (by omega) (by omega) (.inr (by omega)) hr hrs, hcurrent, hfirst]
      push_cast
      ring
    · rw [pad_inside hd (by omega) (by omega) hr hrs]
      have hlast : d.last = d.size - 1 := by omega
      rw [hlast]
      push_cast
      ring

end Padding

/-! ## The steps of an iterator -/

section Steps

variable {d : Dim} {ds : List Dim}

/-- The paddings of the faster dimensions go first. -/
theorem padUp_cons (k x r : ℤ) :
    Array.padUp (extent (d :: ds)) (d :: ds) (k * extent (d :: ds) + (x * d.stride + r) + 1) =
      Array.padUp d.stride ds ((k * d.size + x) * d.stride + r + 1) +
        Array.pad (d.size * d.stride) d (Array.padUp d.stride ds ((k * d.size + x) * d.stride + r + 1)) := by
  have hpos : k * ((d.size * d.stride : ℕ) : ℤ) + (x * d.stride + r) + 1 =
      (k * d.size + x) * d.stride + r + 1 := by
    push_cast
    ring
  rw [extent_cons, hpos]
  rfl

/-- **Going up**: one added to an offset, with the paddings, is the next offset, and after the last one
the first one with the dimension before moved on. -/
theorem Valid.padUp_spec : ∀ {ds : List Dim}, Valid ds → ∀ k : ℤ,
    (offsets ds).IsChain (fun r r' =>
      Array.padUp (extent ds) ds (k * extent ds + r + 1) = k * extent ds + r') ∧
    Array.padUp (extent ds) ds (k * extent ds + hi ds + 1) = (k + 1) * extent ds + lo ds
  | [], _, k => by
    refine ⟨List.isChain_singleton 0, ?_⟩
    rw [Array.padUp, hi_nil, lo_nil, extent]
    push_cast
    ring
  | d :: ds, h, k => by
    have hlo := h.2.2.lo_nonneg
    have hlohi := h.2.2.lo_le_hi
    have hhi := h.2.2.hi_lt
    have hspec := fun x : ℤ => h.2.2.padUp_spec (k * d.size + x)
    rw [← h.2.1] at hspec hhi
    have hcurrent := h.1.current_eq
    constructor
    · refine h.isChain_offsets (fun i hi => ?_) fun i hi => ?_
      · -- the dimension stays at its index
        rw [block, List.isChain_map]
        refine (hspec (d.first + i)).1.imp_of_mem_imp fun r r' _ hr' hstep => ?_
        have hlt := h.2.2.offset_lt hr'
        rw [← h.2.1] at hlt
        rw [padUp_cons, hstep, pad_inside h.1 (by omega) (by omega) hlt.1 hlt.2, extent_cons]
        push_cast
        ring
      · -- it goes on to its next index
        have hnext : k * (d.size : ℤ) + (d.first + i) + 1 = k * d.size + (d.first + i + 1) := by ring
        rw [padUp_cons, (hspec _).2, hnext, pad_inside h.1 (by omega) (by omega) hlo (by omega),
          extent_cons]
        push_cast
        ring
    · have hnext : k * (d.size : ℤ) + d.last + 1 = k * d.size + (d.last + 1) := by ring
      rw [hi_cons, lo_cons, padUp_cons, (hspec _).2, hnext, padUp_carry h.1 hlo (by omega), extent_cons]

theorem padDown_cons (k x r : ℤ) :
    Array.padDown (extent (d :: ds)) (d :: ds) (k * extent (d :: ds) + (x * d.stride + r)) =
      Array.padDown d.stride ds ((k * d.size + x) * d.stride + r) -
        Array.pad (d.size * d.stride) d (Array.padDown d.stride ds ((k * d.size + x) * d.stride + r)) := by
  have hpos : k * ((d.size * d.stride : ℕ) : ℤ) + (x * d.stride + r) =
      (k * d.size + x) * d.stride + r := by
    push_cast
    ring
  rw [extent_cons, hpos]
  rfl

/-- An offset of the view is left alone. -/
theorem Valid.padDown_self : ∀ {ds : List Dim}, Valid ds → ∀ (k : ℤ), ∀ r ∈ offsets ds,
    Array.padDown (extent ds) ds (k * extent ds + r) = k * extent ds + r
  | [], _, _, _, _ => rfl
  | d :: ds, h, k, r, hr => by
    rw [offsets, List.mem_flatMap] at hr
    obtain ⟨i, hi, hr⟩ := hr
    obtain ⟨r₀, hr₀, rfl⟩ := List.mem_map.1 hr
    have hlt := h.2.2.offset_lt hr₀
    have hself := h.2.2.padDown_self (k * d.size + (d.first + i)) r₀ hr₀
    have hcurrent := h.1.current_eq
    have hi' := List.mem_range.1 hi
    rw [← h.2.1] at hlt hself
    rw [padDown_cons, hself, pad_inside h.1 (by omega) (by omega) hlt.1 hlt.2, extent_cons]
    push_cast
    ring

/-- **Going down**: one less than an offset, without the paddings, is the one before, and before the
first one the last one with the dimension before moved back. -/
theorem Valid.padDown_spec : ∀ {ds : List Dim}, Valid ds → ∀ k : ℤ,
    (offsets ds).IsChain (fun r r' =>
      Array.padDown (extent ds) ds (k * extent ds + (r' - 1)) = k * extent ds + r) ∧
    Array.padDown (extent ds) ds (k * extent ds + (lo ds - 1)) = (k - 1) * extent ds + hi ds
  | [], _, k => by
    refine ⟨List.isChain_singleton 0, ?_⟩
    rw [Array.padDown, hi_nil, lo_nil, extent]
    push_cast
    ring
  | d :: ds, h, k => by
    have hlo := h.2.2.lo_nonneg
    have hlohi := h.2.2.lo_le_hi
    have hhi := h.2.2.hi_lt
    have hspec := fun x : ℤ => h.2.2.padDown_spec (k * d.size + x)
    rw [← h.2.1] at hspec hhi
    have hcurrent := h.1.current_eq
    have hshift : ∀ x r : ℤ, x * (d.stride : ℤ) + r - 1 = x * d.stride + (r - 1) := fun x r => by ring
    constructor
    · refine h.isChain_offsets (fun i hi => ?_) fun i hi => ?_
      · rw [block, List.isChain_map]
        refine (hspec (d.first + i)).1.imp_of_mem_imp fun r r' hr _ hstep => ?_
        have hlt := h.2.2.offset_lt hr
        rw [← h.2.1] at hlt
        rw [hshift, padDown_cons, hstep, pad_inside h.1 (by omega) (by omega) hlt.1 hlt.2, extent_cons]
        push_cast
        ring
      · have hback : k * (d.size : ℤ) + (d.first + i + 1) - 1 = k * d.size + (d.first + i) := by ring
        rw [hshift, padDown_cons, (hspec _).2, hback, pad_inside h.1 (by omega) (by omega) (by omega) hhi,
          extent_cons]
        push_cast
        ring
    · have hback : k * (d.size : ℤ) + d.first - 1 = k * d.size + (d.first - 1) := by ring
      rw [hi_cons, lo_cons, hshift, padDown_cons, (hspec _).2, hback,
        padDown_borrow h.1 (by omega) hhi, extent_cons]

end Steps

/-! ## Views as they should be -/

/-- A view of at least one dimension: what it keeps besides the dimensions is what they say. -/
structure Array.Good (a : Array) : Prop where
  ne_nil : a.dims ≠ []
  valid : Valid a.dims
  dataSize_eq : a.dataSize = extent a.dims
  count_eq : a.nElements_ = (a.dims.map Dim.current).prod
  begin_eq : a.begin_ = lo a.dims
  end_eq : a.end_ = hi a.dims + 1
  dense_eq : a.dense_ = decide (a.begin_ + a.nElements_ = a.end_)

/-- The iterators visit the elements, in row-major order and each once, in as many steps as there are
elements, from the beginning to the end and back. -/
structure Array.Exact (a : Array) : Prop where
  count_eq : a.elements.length = a.nElements_
  once : a.elements.Pairwise (· < ·)
  forwards_eq : a.forwards (a.nElements_ + 1) = some a.elements
  backwards_eq : a.backwards (a.nElements_ + 1) = some a.elements.reverse

section Consecutive

/-- Ascending numbers are at most as many as there is room for. -/
theorem length_le_of_sorted : ∀ {l : List ℤ} {x y : ℤ}, l.IsChain (· < ·) → l.head? = some x →
    l.getLast? = some y → (l.length : ℤ) ≤ y - x + 1
  | [], _, _, _, h, _ => nomatch h
  | [a], x, y, _, hx, hy => by
    obtain rfl := Option.some.inj hx
    obtain rfl := Option.some.inj hy
    simp
  | a :: b :: l, x, y, hchain, hx, hy => by
    obtain rfl := Option.some.inj hx
    rw [List.isChain_cons_cons] at hchain
    rw [List.getLast?_cons_cons] at hy
    have hle := length_le_of_sorted hchain.2 rfl hy
    rw [List.length_cons]
    push_cast
    omega

/-- As many as there is room for, they follow one another. -/
theorem consecutive : ∀ {l : List ℤ} {x y : ℤ}, l.IsChain (· < ·) → l.head? = some x →
    l.getLast? = some y → (l.length : ℤ) = y - x + 1 → l.IsChain (fun p q => q = p + 1)
  | [], _, _, _, h, _, _ => nomatch h
  | [a], _, _, _, _, _, _ => List.isChain_singleton a
  | a :: b :: l, x, y, hchain, hx, hy, hlen => by
    obtain rfl := Option.some.inj hx
    rw [List.isChain_cons_cons] at hchain ⊢
    rw [List.getLast?_cons_cons] at hy
    have hle := length_le_of_sorted hchain.2 rfl hy
    have hlt := hchain.1
    rw [List.length_cons] at hlen
    push_cast at hlen
    have hb : b = a + 1 := by omega
    exact ⟨hb, consecutive hchain.2 rfl hy (by omega)⟩

theorem eq_range_of_consecutive : ∀ {l : List ℤ} {x : ℤ}, l.IsChain (fun p q => q = p + 1) →
    l.head? = some x → l = (List.range l.length).map fun i : ℕ => x + i
  | [], _, _, h => nomatch h
  | [a], _, _, h => by
    obtain rfl := Option.some.inj h
    simp
  | a :: b :: l, x, hchain, h => by
    obtain rfl := Option.some.inj h
    rw [List.isChain_cons_cons] at hchain
    have ih := eq_range_of_consecutive hchain.2 rfl
    rw [List.length_cons, List.range_succ_eq_map, List.map_cons, List.map_map]
    conv_lhs => rw [ih]
    refine congrArg₂ List.cons (by simp) (List.map_congr_left fun i _ => ?_)
    rw [hchain.1, Function.comp_apply]
    omega

end Consecutive

namespace Array.Good

variable {a : Array}

theorem elements_eq (h : a.Good) : a.elements = offsets a.dims := if_neg h.ne_nil

theorem length_elements (h : a.Good) : a.elements.length = a.nElements_ := by
  rw [h.elements_eq, length_offsets, h.count_eq]

theorem mem_elements (h : a.Good) {p : ℤ} (hp : p ∈ a.elements) : a.begin_ ≤ p ∧ p < a.end_ := by
  rw [h.elements_eq] at hp
  have hbounds := h.valid.bounds p hp
  rw [h.begin_eq, h.end_eq]
  omega

theorem head?_elements (h : a.Good) : a.elements.head? = some a.begin_ := by
  rw [h.elements_eq, h.valid.head?_offsets, h.begin_eq]

theorem getLast?_elements (h : a.Good) : a.elements.getLast? = some (a.end_ - 1) := by
  rw [h.elements_eq, h.valid.getLast?_offsets, h.end_eq, Int.add_sub_cancel]

theorem sorted (h : a.Good) : a.elements.IsChain (· < ·) := by
  rw [h.elements_eq]
  exact h.valid.sorted

/-- The elements of a dense view follow one another. -/
theorem consecutive_of_dense (h : a.Good) (hdense : a.dense_ = true) :
    a.elements.IsChain (fun p q => q = p + 1) := by
  rw [h.dense_eq, decide_eq_true_iff] at hdense
  refine consecutive h.sorted h.head?_elements h.getLast?_elements ?_
  rw [h.length_elements]
  omega

/-- What the paddings lead to, upwards. -/
theorem isChain_trimUp (h : a.Good) :
    a.elements.IsChain (fun p q => a.trimUp (p + 1) = q) ∧ a.trimUp (a.end_ - 1 + 1) = a.end_ := by
  have hvalid := h.valid
  have hend := h.end_eq
  have hmem := fun p => h.mem_elements (p := p)
  rw [h.elements_eq] at hmem ⊢
  obtain ⟨d, ds, hdims⟩ := List.exists_cons_of_ne_nil h.ne_nil
  rw [hdims] at hvalid hend hmem ⊢
  have htrim : ∀ p, a.trimUp p = min (Array.padUp d.stride ds p) a.end_ := fun p => by
    rw [trimUp, hdims]
  have hspec := hvalid.2.2.padUp_spec
  have hlo := hvalid.2.2.lo_nonneg
  have hhi := hvalid.2.2.hi_lt
  rw [← hvalid.2.1] at hspec hhi
  constructor
  · have hchain : (offsets (d :: ds)).IsChain (fun p q => Array.padUp d.stride ds (p + 1) = q) := by
      refine hvalid.isChain_offsets (fun i _ => ?_) fun i _ => (hspec _).2
      rw [block, List.isChain_map]
      exact (hspec (d.first + i)).1
    refine hchain.imp_of_mem_imp fun p q _ hq hstep => ?_
    have hlt := (hmem q hq).2
    rw [htrim, hstep]
    omega
  · have hlast : a.end_ - 1 + 1 = d.last * d.stride + hi ds + 1 := by
      rw [hend, hi_cons]
      omega
    rw [htrim, hlast, (hspec _).2, hend, hi_cons, Int.add_mul]
    omega

theorem isChain_trimDown (h : a.Good) :
    a.elements.IsChain (fun q p => a.trimDown (p - 1) = q) ∧ a.trimDown (a.end_ - 1) = a.end_ - 1 := by
  have hvalid := h.valid
  have hend := h.end_eq
  have hmem := fun p => h.mem_elements (p := p)
  have hlast : a.end_ - 1 ∈ a.elements := List.mem_of_getLast? h.getLast?_elements
  have hbegin := hmem _ hlast
  rw [h.elements_eq] at hmem ⊢
  obtain ⟨d, ds, hdims⟩ := List.exists_cons_of_ne_nil h.ne_nil
  rw [hdims] at hvalid hend hmem ⊢
  have htrim : ∀ p, a.trimDown p = max (Array.padDown d.stride ds p) a.begin_ := fun p => by
    rw [trimDown, hdims]
  have hspec := hvalid.2.2.padDown_spec
  have hself := hvalid.2.2.padDown_self d.last _ (List.mem_of_getLast? hvalid.2.2.getLast?_offsets)
  rw [← hvalid.2.1] at hspec hself
  constructor
  · have hchain : (offsets (d :: ds)).IsChain (fun q p => Array.padDown d.stride ds (p - 1) = q) := by
      refine hvalid.isChain_offsets (fun i _ => ?_) fun i _ => ?_
      · rw [block, List.isChain_map]
        refine (hspec (d.first + i)).1.imp fun r r' hstep => ?_
        rw [Int.add_sub_assoc, hstep]
      · rw [Int.add_sub_assoc, (hspec _).2, Int.add_sub_cancel]
    refine hchain.imp_of_mem_imp fun q p hq _ hstep => ?_
    have hle := (hmem q hq).1
    rw [htrim, hstep]
    omega
  · have hlast' : a.end_ - 1 = d.last * d.stride + hi ds := by
      rw [hend, hi_cons]
      omega
    rw [htrim, hlast', hself, ← hlast']
    omega

theorem isChain_increment (h : a.Good) :
    (a.elements ++ [a.end_]).IsChain (fun p q => a.increment p = some q) := by
  have hstep : ∀ p q, p < a.end_ → (if a.dense_ then p + 1 else a.trimUp (p + 1)) = q →
      a.increment p = some q := fun p q hp hq => by
    rw [increment, if_neg (not_le.2 hp), hq]
  have hlast : ∀ p ∈ a.elements.getLast?, ∀ q ∈ [a.end_].head?, a.increment p = some q := by
    intro p hp q hq
    rw [h.getLast?_elements] at hp
    obtain rfl := Option.some.inj hp
    obtain rfl := Option.some.inj hq
    refine hstep _ _ (by omega) ?_
    cases a.dense_ with
    | true => exact Int.sub_add_cancel _ _
    | false => exact h.isChain_trimUp.2
  refine List.IsChain.append ?_ (List.isChain_singleton _) hlast
  by_cases hdense : a.dense_ = true
  · refine (h.consecutive_of_dense hdense).imp_of_mem_imp fun p q hp _ hq => ?_
    exact hstep p q (h.mem_elements hp).2 (by rw [if_pos hdense, hq])
  · refine h.isChain_trimUp.1.imp_of_mem_imp fun p q hp _ hq => ?_
    exact hstep p q (h.mem_elements hp).2 (by rw [if_neg hdense, hq])

theorem isChain_decrement (h : a.Good) :
    (a.elements ++ [a.end_]).IsChain (fun q p => a.decrement p = some q) := by
  have hstep : ∀ q p, a.begin_ < p → (if a.dense_ then p - 1 else a.trimDown (p - 1)) = q →
      a.decrement p = some q := fun q p hp hq => by
    rw [decrement, if_neg (not_le.2 hp), hq]
  have hends := h.mem_elements (List.mem_of_getLast? h.getLast?_elements)
  have hlast : ∀ q ∈ a.elements.getLast?, ∀ p ∈ [a.end_].head?, a.decrement p = some q := by
    intro q hq p hp
    rw [h.getLast?_elements] at hq
    obtain rfl := Option.some.inj hp
    obtain rfl := Option.some.inj hq
    refine hstep _ _ (by omega) ?_
    cases a.dense_ with
    | true => rfl
    | false => exact h.isChain_trimDown.2
  refine List.IsChain.append ?_ (List.isChain_singleton _) hlast
  have hlt : a.elements.IsChain (fun q p => a.begin_ < p) :=
    h.sorted.imp_of_mem_imp fun q p hq _ hqp => lt_of_le_of_lt (h.mem_elements hq).1 hqp
  by_cases hdense : a.dense_ = true
  · refine (isChain_and hlt (h.consecutive_of_dense hdense)).imp fun q p hqp => ?_
    exact hstep q p hqp.1 (by rw [if_pos hdense, hqp.2, Int.add_sub_cancel])
  · refine (isChain_and hlt h.isChain_trimDown.1).imp fun q p hqp => ?_
    exact hstep q p hqp.1 (by rw [if_neg hdense, hqp.2])

/-- **The iterators of a view as it should be are exact.** -/
theorem exact (h : a.Good) : a.Exact := by
  have hsorted : (a.elements ++ [a.end_]).Pairwise (· < ·) := by
    rw [← List.isChain_iff_pairwise]
    refine List.IsChain.append h.sorted (List.isChain_singleton _) ?_
    intro p hp q hq
    obtain rfl := Option.some.inj hq
    exact (h.mem_elements (List.mem_of_getLast? hp)).2
  refine ⟨h.length_elements, (List.pairwise_append.1 hsorted).1, ?_, ?_⟩
  · refine walk_of_isChain ?_ h.isChain_increment ?_ (by rw [h.length_elements]; omega)
    · rw [List.head?_append, h.head?_elements]
      rfl
    · intro hmem
      exact lt_irrefl _ (h.mem_elements hmem).2
  · have hrev : a.end_ :: a.elements.reverse = (a.elements ++ [a.end_]).reverse := by
      rw [List.reverse_append]
      rfl
    refine walkBack_of_isChain ?_ ?_ ?_ (by rw [List.length_reverse, h.length_elements]; omega)
    · rw [hrev, List.getLast?_reverse, List.head?_append, h.head?_elements]
      rfl
    · rw [hrev, List.isChain_reverse]
      exact h.isChain_decrement
    · -- all positions but the first come after it
      obtain ⟨rest, hrest⟩ : ∃ rest, a.elements = a.begin_ :: rest := by
        obtain ⟨x, rest, heq⟩ := List.exists_cons_of_ne_nil (h.elements_eq ▸ h.valid.offsets_ne_nil)
        have hhead := h.head?_elements
        rw [heq] at hhead
        obtain rfl := Option.some.inj hhead
        exact ⟨rest, heq⟩
      rw [hrest, List.cons_append, List.pairwise_cons] at hsorted
      rw [hrev, hrest, List.cons_append, List.reverse_cons, List.dropLast_concat, List.mem_reverse]
      exact fun hmem => lt_irrefl _ (hsorted.1 _ hmem)

end Array.Good

/-! ## What the operations keep -/

section Reshaped

variable {d : Dim} {ds ds' : List Dim}

/-- A dimension with other limits, which are as they should be. -/
structure Reshaped (d d' : Dim) : Prop where
  size_eq : d'.size = d.size
  stride_eq : d'.stride = d.stride
  ok : d'.Ok

theorem Reshaped.refl (h : d.Ok) : Reshaped d d := ⟨rfl, rfl, h⟩

theorem extent_of_reshaped (h : List.Forall₂ Reshaped ds ds') : extent ds' = extent ds := by
  cases h with
  | nil => rfl
  | cons hd _ => rw [extent_cons, extent_cons, hd.size_eq, hd.stride_eq]

/-- Other limits leave the dimensions valid. -/
theorem Valid.reshaped (h : Valid ds) (hr : List.Forall₂ Reshaped ds ds') : Valid ds' := by
  induction hr with
  | nil => trivial
  | cons hd hds ih =>
    obtain ⟨-, hstride, hvalid⟩ := h
    exact ⟨hd.ok, by rw [hd.stride_eq, hstride, extent_of_reshaped hds], ih hvalid⟩

theorem Valid.forall₂_refl : ∀ {ds : List Dim}, Valid ds → List.Forall₂ Reshaped ds ds
  | [], _ => .nil
  | _ :: _, h => .cons (.refl h.1) h.2.2.forall₂_refl

/-- The limits that are asked for are clamped to what there is. -/
theorem limit_ok (hd : d.Ok) (first last : ℤ) : Reshaped d (Array.limit d first last) := by
  have h₁ := hd.first_nonneg
  have h₂ := hd.first_le
  have h₃ := hd.last_lt
  refine ⟨rfl, rfl, ?_⟩
  unfold Array.limit
  constructor <;> dsimp only <;> split_ifs <;> omega

theorem Valid.zipWith_limit : ∀ {ds : List Dim} {ls : List (ℤ × ℤ)}, Valid ds → ls.length = ds.length →
    List.Forall₂ Reshaped ds (List.zipWith (fun d l => Array.limit d l.1 l.2) ds ls)
  | [], [], _, _ => .nil
  | d :: ds, l :: ls, h, hlen => by
    rw [List.zipWith_cons_cons]
    exact .cons (limit_ok h.1 _ _) (h.2.2.zipWith_limit (Nat.succ.inj hlen))

end Reshaped

section Shift

variable {d : Dim} {ds ds' : List Dim}

/-- A shifted dimension stays within its size and keeps what it spans. -/
theorem shiftBy_ok (hd : d.Ok) (n : ℤ) : Reshaped d
    { d with first := d.first + Array.shiftBy d n, last := d.last + Array.shiftBy d n } := by
  have h₁ := hd.first_nonneg
  have h₂ := hd.first_le
  have h₃ := hd.last_lt
  have h₄ := hd.current_eq
  refine ⟨rfl, rfl, ?_⟩
  unfold Array.shiftBy
  constructor <;> dsimp only <;> split_ifs <;> omega

theorem span_cons : hi (d :: ds) - lo (d :: ds) = (d.last - d.first) * d.stride + (hi ds - lo ds) := by
  rw [hi_cons, lo_cons]
  ring

/-- What a view spans from its first to its last element depends on its sizes and strides only. -/
theorem span_eq (h : List.Forall₂ (fun d d' : Dim => d'.stride = d.stride ∧
    d'.last - d'.first = d.last - d.first) ds ds') : hi ds' - lo ds' = hi ds - lo ds := by
  induction h with
  | nil => rfl
  | cons hd _ ih => rw [span_cons, span_cons, hd.1, hd.2, ih]

/-- One dimension is replaced. -/
theorem forall₂_set {R : Dim → Dim → Prop} :
    ∀ {ds : List Dim} {i : ℕ} {d d' : Dim}, (∀ d ∈ ds, R d d) → ds[i]? = some d → R d d' →
      List.Forall₂ R ds (ds.set i d')
  | [], _, _, _, _, h, _ => nomatch h
  | e :: ds, 0, d, d', hrefl, h, hd => by
    obtain rfl := Option.some.inj h
    refine .cons hd (List.forall₂_same.2 fun d hmem => hrefl d (List.mem_cons_of_mem _ hmem))
  | e :: ds, i + 1, d, d', hrefl, h, hd =>
    .cons (hrefl e List.mem_cons_self)
      (forall₂_set (fun d hmem => hrefl d (List.mem_cons_of_mem _ hmem)) h hd)

end Shift

namespace Array

variable {a a' : Array}

/-- A view with other limits is as it should be. -/
theorem Good.place (h : a.Good) {ds : List Dim} (hr : List.Forall₂ Reshaped a.dims ds) :
    { a with dims := ds, nElements_ := (ds.map Dim.current).prod }.setBounds.setDense.Good where
  ne_nil := by
    intro hnil
    obtain rfl : ds = [] := hnil
    exact h.ne_nil (List.forall₂_nil_right_iff.1 hr)
  valid := h.valid.reshaped hr
  dataSize_eq := h.dataSize_eq.trans (extent_of_reshaped hr).symm
  count_eq := rfl
  begin_eq := rfl
  end_eq := rfl
  dense_eq := rfl

theorem Good.setLimits (h : a.Good) {first last : List ℤ} (hs : a.setLimits first last = some a') :
    a'.Good := by
  unfold Array.setLimits at hs
  by_cases hlen : first.length ≠ a.dims.length ∨ last.length ≠ a.dims.length
  · rw [if_pos hlen] at hs
    cases hs
  · rw [if_neg hlen] at hs
    obtain rfl := Option.some.inj hs
    refine h.place (h.valid.zipWith_limit ?_)
    rw [List.length_zip]
    omega

theorem Good.setLimitsOf (h : a.Good) {limits : List ℤ} (hs : a.setLimitsOf limits = some a') :
    a'.Good := by
  unfold Array.setLimitsOf at hs
  split_ifs at hs
  · exact h.setLimits hs
  · exact h.setLimits hs

/-- Bounds that are computed again are what they were. -/
theorem Good.setBounds_eq (h : a.Good) : a.setBounds = a := by
  have hbegin := h.begin_eq
  have hend := h.end_eq
  rw [lo] at hbegin
  rw [hi] at hend
  rw [setBounds, ← hbegin, ← hend]

theorem Good.subArray (h : a.Good) {indices : List ℤ} (hs : a.subArray indices = some a') : a'.Good := by
  unfold Array.subArray at hs
  split_ifs at hs
  · exact h.setLimitsOf hs
  · obtain rfl := Option.some.inj hs
    rw [h.setBounds_eq]
    exact h

theorem Good.shift (h : a.Good) (dim : ℕ) (n : ℤ) : (a.shift dim n).Good := by
  unfold Array.shift
  by_cases hn : n = 0
  · rw [if_pos hn]
    exact h
  · rw [if_neg hn]
    cases hdim : a.dims[dim]? with
    | none => exact h
    | some d =>
      have hok : ∀ d ∈ a.dims, d.Ok := fun d hd => by
        have hrefl := h.valid.forall₂_refl
        exact (List.forall₂_same.1 hrefl d hd).ok
      have hd := shiftBy_ok (hok d (List.mem_of_getElem? hdim)) n
      have hr := forall₂_set (fun d hd => Reshaped.refl (hok d hd)) hdim hd
      dsimp only
      set ds := a.dims.set dim _ with hds
      -- the sizes stay, and so does what the view spans
      have hcurrent : ds.map Dim.current = a.dims.map Dim.current := by
        obtain ⟨hlt, hget⟩ := List.getElem?_eq_some_iff.1 hdim
        have hself := @List.set_getElem_self _ (a.dims.map Dim.current) dim (by simpa using hlt)
        rw [hds, List.map_set, ← hself, List.getElem_map, hget]
        simp
      have hspan : hi ds - lo ds = hi a.dims - lo a.dims := by
        refine span_eq (forall₂_set (fun d _ => ⟨rfl, rfl⟩) hdim ⟨rfl, ?_⟩)
        dsimp only
        omega
      refine ⟨?_, h.valid.reshaped hr, h.dataSize_eq.trans (extent_of_reshaped hr).symm, ?_, rfl, rfl, ?_⟩
      · intro hnil
        have hnil' : ds = [] := hnil
        rw [hnil'] at hr
        exact h.ne_nil (List.forall₂_nil_right_iff.1 hr)
      · exact h.count_eq.trans (congrArg List.prod hcurrent.symm)
      · refine h.dense_eq.trans (decide_eq_decide.2 ?_)
        have hbegin := h.begin_eq
        have hend := h.end_eq
        change a.begin_ + a.nElements_ = a.end_ ↔ lo ds + a.nElements_ = hi ds + 1
        omega

/-- The sizes of valid dimensions, by the strides. -/
theorem resetRest_reshaped : ∀ {ds : List Dim}, Valid ds →
    List.Forall₂ Reshaped ds (resetRest (extent ds) ds) ∧
      ((resetRest (extent ds) ds).map Dim.current).prod = extent ds
  | [], _ => ⟨.nil, rfl⟩
  | d :: ds, h => by
    have hpos : 0 < d.stride := by
      rw [h.2.1]
      exact h.2.2.extent_pos
    obtain ⟨hr, hprod⟩ := resetRest_reshaped h.2.2
    rw [← h.2.1] at hr hprod
    have hsize := h.1.size_pos
    rw [resetRest, extent_cons, Nat.mul_div_cancel _ hpos]
    refine ⟨.cons ⟨rfl, rfl, ?_⟩ hr, ?_⟩
    · constructor <;> dsimp only <;> omega
    · rw [List.map_cons, List.prod_cons, hprod]

theorem Good.resetLimits (h : a.Good) (hs : a.resetLimits = some a') : a'.Good := by
  obtain ⟨d, ds, hdims⟩ := List.exists_cons_of_ne_nil h.ne_nil
  have hvalid := h.valid
  have hdata := h.dataSize_eq
  rw [hdims] at hvalid hdata
  have hpos : 0 < d.stride := by
    rw [hvalid.2.1]
    exact hvalid.2.2.extent_pos
  obtain ⟨hr, hprod⟩ := resetRest_reshaped hvalid.2.2
  rw [← hvalid.2.1] at hr hprod
  have hsize := hvalid.1.size_pos
  unfold Array.resetLimits at hs
  rw [hdims] at hs
  dsimp only at hs
  rw [hprod, hdata, extent_cons, Nat.mul_div_cancel _ hpos] at hs
  obtain rfl := Option.some.inj hs
  have hreset : List.Forall₂ Reshaped a.dims
      ({ d with first := 0, last := d.size - 1, current := d.size } :: resetRest d.stride ds) := by
    rw [hdims]
    refine .cons ⟨rfl, rfl, ?_⟩ hr
    constructor <;> dsimp only <;> omega
  have hplace := h.place hreset
  rw [List.map_cons, List.prod_cons, hprod, Nat.mul_comm, hdata, extent_cons] at hplace
  exact hplace

/-! ## Construction and runs -/

/-- The dimensions of a whole data block. -/
theorem setSizes_spec : ∀ {sizes : List ℕ}, (∀ n ∈ sizes, 0 < n) →
    Valid (setSizes sizes []) ∧ extent (setSizes sizes []) = sizes.prod ∧
      (setSizes sizes []).map Dim.current = sizes ∧ lo (setSizes sizes []) = 0 ∧
      hi (setSizes sizes []) = (sizes.prod : ℕ) - 1
  | [], _ => ⟨trivial, rfl, rfl, rfl, rfl⟩
  | n :: sizes, h => by
    obtain ⟨hn, hsizes⟩ := List.forall_mem_cons.1 h
    obtain ⟨hvalid, hextent, hcurrent, hlo, hhi⟩ := setSizes_spec hsizes
    have hcons : setSizes (n :: sizes) [] =
        ⟨n, extent (setSizes sizes []), 0, n - 1, n⟩ :: setSizes sizes [] := rfl
    rw [hcons]
    refine ⟨⟨?_, rfl, hvalid⟩, ?_, ?_, ?_, ?_⟩
    · constructor <;> dsimp only <;> omega
    · rw [extent_cons, hextent, List.prod_cons]
    · rw [List.map_cons, hcurrent]
    · rw [lo_cons, hlo, Int.zero_mul, Int.add_zero]
    · rw [hi_cons, hhi, hextent, List.prod_cons]
      push_cast
      ring

theorem countElements_eq {sizes : List ℕ} (hne : sizes ≠ []) (hfits : sizes.prod < 2 ^ 64) :
    countElements (setSizes sizes []) = sizes.prod := by
  have hspan : ∀ sizes : List ℕ, ((setSizes sizes []).map fun d : Dim => d.last - d.first + 1).prod =
      ((sizes.prod : ℕ) : ℤ) := by
    intro sizes
    induction sizes with
    | nil => rfl
    | cons n sizes ih =>
      have hcons : setSizes (n :: sizes) [] =
          ⟨n, extent (setSizes sizes []), 0, n - 1, n⟩ :: setSizes sizes [] := rfl
      rw [hcons, List.map_cons, List.prod_cons, ih, List.prod_cons]
      push_cast
      ring
  have hne' : setSizes sizes [] ≠ [] := by
    cases sizes with
    | nil => exact absurd rfl hne
    | cons n sizes => exact List.cons_ne_nil _ _
  rw [countElements, if_neg hne', hspan, Int.emod_eq_of_lt (by omega) (by exact_mod_cast hfits),
    Int.toNat_natCast]

/-- An array as it is constructed. -/
theorem construct_good {sizes : List ℕ} (hfits : (sizes.filter (· ≠ 0)).prod < 2 ^ 63) :
    (construct sizes).Good ∨ construct sizes = ⟨[], 0, 0, true, 0, 0⟩ := by
  unfold construct resize
  dsimp only
  rw [List.map_nil]
  have hpos : ∀ n ∈ sizes.filter (· ≠ 0), 0 < n := fun n hn => by
    have := (List.mem_filter.1 hn).2
    simp only [ne_eq, decide_not, Bool.not_eq_true', decide_eq_false_iff_not] at this
    omega
  set dimSizes := sizes.filter (· ≠ 0)
  obtain ⟨hvalid, hextent, hcurrent, hlo, hhi⟩ := setSizes_spec hpos
  by_cases hnil : setSizes dimSizes [] = []
  · rw [if_pos hnil]
    exact .inr rfl
  · rw [if_neg hnil]
    have hne : dimSizes ≠ [] := fun h => hnil (by rw [h]; rfl)
    have hcount := countElements_eq hne (by omega)
    refine .inl ⟨hnil, hvalid, hextent.symm, ?_, hlo.symm, ?_, ?_⟩
    · rw [hcurrent]
      exact hcount
    · rw [hhi]
      exact (Int.sub_add_cancel _ _).symm
    · rw [hcount]
      simp

theorem Good.apply (h : a.Good) {op : Op} (hs : a.apply op = some a') : a'.Good := by
  cases op with
  | subArray indices => exact h.subArray hs
  | subArrayTo first last => exact h.setLimits hs
  | setLimits first last => exact h.setLimits hs
  | setLimitsOf limits => exact h.setLimitsOf hs
  | shift dim n =>
    obtain rfl := Option.some.inj hs
    exact h.shift dim n
  | resetLimits => exact h.resetLimits hs

/-- Whether an operation is one that an array without dimensions can bear: `shift`, which does nothing. -/
def Bearable (a : Array) : Op → Prop
  | .shift _ _ => True
  | _ => a.dims ≠ []

instance (a : Array) : (op : Op) → Decidable (a.Bearable op)
  | .shift _ _ => inferInstanceAs (Decidable True)
  | .subArray _ | .subArrayTo _ _ | .setLimits _ _ | .setLimitsOf _ | .resetLimits =>
    inferInstanceAs (Decidable (a.dims ≠ []))

theorem shift_of_nil (h : a.dims = []) (dim : ℕ) (n : ℤ) : a.shift dim n = a := by
  unfold Array.shift
  rw [h]
  simp

/-- Without dimensions, limits make one element out of none. -/
theorem setLimits_of_nil (h : a.dims = []) {first last : List ℤ} (hs : a.setLimits first last = some a') :
    a'.dims = [] ∧ ¬a'.Exact := by
  unfold Array.setLimits at hs
  split_ifs at hs
  obtain rfl := Option.some.inj hs
  rw [h]
  refine ⟨rfl, fun hexact => ?_⟩
  have hcount : (0 : ℕ) = 1 := hexact.count_eq
  exact absurd hcount (by decide)

/-- No element to visit: the beginning is the end. -/
theorem begin_eq_of_forwards {fuel : ℕ} (h : a.forwards (fuel + 1) = some []) : a.begin_ = a.end_ := by
  by_contra hne
  rw [forwards, walk, if_neg hne, Option.bind_eq_some_iff] at h
  obtain ⟨q, -, hq⟩ := h
  obtain ⟨l, -, hl⟩ := Option.map_eq_some_iff.1 hq
  cases hl

/-- Without dimensions, the bounds are computed one apart. -/
theorem setBounds_of_nil (h : a.dims = []) : a.setBounds.dims = [] ∧ ¬a.setBounds.Exact := by
  refine ⟨h, fun hexact => ?_⟩
  have hnil : a.setBounds.elements = [] := if_pos h
  have hforwards := hexact.forwards_eq
  rw [hnil] at hforwards
  have hbounds := begin_eq_of_forwards hforwards
  unfold setBounds at hbounds
  rw [h] at hbounds
  have hzero : (0 : ℤ) = 1 := hbounds
  exact absurd hzero (by decide)

/-- An array without dimensions stays one, and is exact no more once it is operated on. -/
theorem apply_of_nil (h : a.dims = []) {op : Op} (hs : a.apply op = some a') :
    a'.dims = [] ∧ (a.Exact → (a'.Exact ↔ a.Bearable op)) := by
  have hbroken : ∀ {a' : Array}, a'.dims = [] ∧ ¬a'.Exact →
      a'.dims = [] ∧ (a.Exact → (a'.Exact ↔ a.dims ≠ [])) :=
    fun hnot => ⟨hnot.1, fun _ => iff_of_false hnot.2 (not_not.2 h)⟩
  have hlimits : ∀ {limits}, a.setLimitsOf limits = some a' → a'.dims = [] ∧ ¬a'.Exact := by
    intro limits hs
    unfold Array.setLimitsOf at hs
    split_ifs at hs
    · exact setLimits_of_nil h hs
    · exact setLimits_of_nil h hs
  cases op with
  | subArray indices =>
    have hs' : a.subArray indices = some a' := hs
    unfold Array.subArray at hs'
    split_ifs at hs'
    · exact hbroken (hlimits hs')
    · obtain rfl := Option.some.inj hs'
      exact hbroken (setBounds_of_nil h)
  | subArrayTo first last => exact hbroken (setLimits_of_nil h hs)
  | setLimits first last => exact hbroken (setLimits_of_nil h hs)
  | setLimitsOf limits => exact hbroken (hlimits hs)
  | shift dim n =>
    obtain rfl := Option.some.inj hs
    rw [shift_of_nil h]
    exact ⟨h, fun hexact => iff_of_true hexact trivial⟩
  | resetLimits =>
    unfold Array.apply Array.resetLimits at hs
    rw [h] at hs
    cases hs

theorem blank_exact : Exact ⟨[], 0, 0, true, 0, 0⟩ := ⟨rfl, List.Pairwise.nil, rfl, rfl⟩

/-- **In every run of operations on a constructed array the views iterate exactly as long as none but
`shift` is used on an array without dimensions.** -/
theorem iterates_iff (sizes : List ℕ) (hfits : (sizes.filter (· ≠ 0)).prod < 2 ^ 63) (ops : List Op) :
    Always apply Exact (construct sizes) ops ↔
      Each apply (fun a op _ => a.Bearable op) (construct sizes) ops := by
  refine @always_iff_each _ _ apply Exact (fun a => a.Good ∨ a.dims = []) _ ?_ ?_ _ _ ?_ ?_
  · rintro a op a' (h | h) hs
    · exact .inl (h.apply hs)
    · exact .inr (apply_of_nil h hs).1
  · rintro a op a' (h | h) hexact hs
    · refine iff_of_true (h.apply hs).exact ?_
      cases op <;> first | exact h.ne_nil | trivial
    · exact (apply_of_nil h hs).2 hexact
  · exact (construct_good hfits).imp_right fun h => by rw [h]
  · rcases construct_good hfits with h | h
    · exact h.exact
    · rw [h]
      exact blank_exact

/-- Two views of an array of two dimensions, and the array again. -/
theorem views_iterate : Always apply Exact (construct [3, 4])
    [.subArray [0, 1, 1, 2], .shift 0 7, .setLimits [0, 0] [0, 5], .resetLimits] :=
  (iterates_iff [3, 4] (by decide) [.subArray [0, 1, 1, 2], .shift 0 7, .setLimits [0, 0] [0, 5],
    .resetLimits]).2 (.cons rfl (by decide) <| .cons rfl (by decide) <| .cons rfl (by decide) <|
      .cons rfl (by decide) trivial)

/-- A view of an empty array: it has no element, and its end is one after its beginning. -/
theorem empty_view_not_exact : ¬Always apply Exact (construct []) [.subArray []] := by
  intro h
  exact (setBounds_of_nil (a := construct []) rfl).2 (h.last rfl)

end Array

end Redux.Util.Arrays
