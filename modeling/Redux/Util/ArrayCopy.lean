import Redux.Util.ArrayWrites

/-!
# Util.ArrayCopy — deep copies

`copy()` makes a new array, `copy( out )` uses the block of another one if the shapes agree.  Both leave out
the trivial dimensions, and with them the only element of a view that has no others.  An array that is resized
keeps the first indices of its dimensions, so that the elements end up elsewhere than its limits say
(`deep_copy_iff`).
-/

namespace Redux.Util.Arrays

open Redux.Lib

/-- The ways to copy, without and with a change of the type of the elements; the contents of the cells after
the conversion are given. -/
inductive Copying (T : Type*)
  | new (skipTrivialDims : Bool)
  | newAs (skipTrivialDims : Bool) (contents : Cell → T)
  | into (out : View)
  | intoAs (out : View) (contents : Cell → T)

/-- The array that is copied to. -/
def Copying.targets {T : Type*} : Copying T → List View
  | .into out | .intoAs out _ => [out]
  | _ => []

namespace View

/-! ## Model -/

section Model

variable {T : Type*} (a out : View) (m : Cell → T) (fresh : ℕ)

/-- `dimensions( skipTrivialDims )`. -/
def dimensions (skipTrivialDims : Bool) : List ℕ := if skipTrivialDims then a.shape else a.array.sizes

/-- `out.resize( dimensions( true ) )`, with a new block. -/
def resized : View := ⟨out.array.resize (a.dimensions true), fresh⟩

/-- The cells of `out` beside those of the view, by an iterator of the view if one of them is not dense. -/
def alongside : Option (List (Cell × Cell)) :=
  if a.array.dense_ && out.array.dense_ then some ((out.raw a.span).zip (a.raw a.span))
  else a.visited.bind fun cells => (out.visitedFor cells.length).map fun others => others.zip cells

/-- A new array in a new block, and what is assigned to it. -/
def copyNew [Zero T] (skipTrivialDims : Bool) (w : Write T) : Option (View × (Cell → T)) :=
  if a.dimensions skipTrivialDims = [] then some (⟨Array.construct [], fresh⟩, m)
  else
    let tmp : View := ⟨Array.construct (a.dimensions skipTrivialDims), fresh⟩
    (tmp.perform m w).map fun m' => (tmp, m')

/-- The copy of a view with elements, and the contents of the blocks after it; `none` if elements are written
to a block that is not there. -/
def copy [Zero T] : Copying T → Option (View × (Cell → T))
  | .new skipTrivialDims => a.copyNew m fresh skipTrivialDims (.assign a)
  | .newAs skipTrivialDims contents => a.copyNew m fresh skipTrivialDims (.converted a contents)
  | .into out =>
    let out := if a.ptr = out.ptr ∨ ¬sameSizes a out then a.resized out fresh else out
    if out.ptr = none then none else (a.alongside out).map fun pairs => (out, copyEach id pairs m)
  | .intoAs out contents =>
    let out := if ¬sameSizes a out then a.resized out fresh else out
    if out.ptr = none then none
    else (out.beside a a.span).map fun pairs => (out, writeEach (pairs.map fun p => (p.1, contents p.2)) m)

end Model

/-! ## What a copy is -/

section Specification

variable {T : Type*} (a out : View)

/-- The contents of the elements, in row-major order. -/
def copied (m : Cell → T) : Copying T → List T
  | .new _ | .into _ => a.cells.map m
  | .newAs _ contents | .intoAs _ contents => a.cells.map contents

/-- Another block with as many elements, which are the same by their indices and by the iterator. -/
structure Copied (values : List T) (m' : Cell → T) : Prop where
  apart : out.block ≠ a.block
  count_eq : out.array.nElements_ = a.array.nElements_
  visited_eq : out.visited = some out.cells
  contents_eq : out.cells.map m' = values

/-- Whatever is in the blocks, and whichever block is new. -/
def Copies [Zero T] (c : Copying T) : Prop := ∀ (m : Cell → T) (fresh : ℕ), fresh ≠ a.block →
  ∃ out m', a.copy m fresh c = some (out, m') ∧ Copied a out (a.copied m c) m'

/-- When `out` can be resized: there is a dimension left, and the first indices that are kept are zero. -/
def Resizes : Prop := 1 < a.array.nElements_ ∧ ∀ f ∈ (out.array.dims.map Dim.first).take a.shape.length, f = 0

def Copyable : Copying T → Prop
  | .new skipTrivialDims | .newAs skipTrivialDims _ => skipTrivialDims = true → 1 < a.array.nElements_
  | .into out => if a.ptr = out.ptr ∨ a.shape ≠ out.shape then Resizes a out else out.array.dims ≠ []
  | .intoAs out _ => if a.shape ≠ out.shape then Resizes a out else out.array.dims ≠ [] ∧ out.block ≠ a.block

end Specification

/-! ## Shapes -/

section Shapes

variable {a out : View} {sizes : List ℕ} {firsts : List ℤ}

theorem prod_filter_one_lt : ∀ {l : List ℕ}, (∀ n ∈ l, 0 < n) → (l.filter (1 < ·)).prod = l.prod
  | [], _ => rfl
  | n :: l, h => by
    obtain ⟨hn, hl⟩ := List.forall_mem_cons.1 h
    rw [List.filter_cons, List.prod_cons, ← prod_filter_one_lt hl]
    split_ifs with hone
    · rw [List.prod_cons]
    · have hn' : n = 1 := by
        simp only [decide_eq_true_eq] at hone
        omega
      rw [hn', one_mul]

theorem prod_shape (h : a.array.Good) : a.shape.prod = a.array.nElements_ := by
  rw [shape, prod_filter_one_lt h.current_pos, h.count_eq]

theorem shape_pos : ∀ n ∈ a.shape, 0 < n := fun n hn => by
  have hone := of_decide_eq_true (List.mem_filter.1 hn).2
  omega

/-- A view without a dimension that counts has one element. -/
theorem shape_ne_nil_iff (h : a.array.Good) : a.shape ≠ [] ↔ 1 < a.array.nElements_ := by
  rw [← prod_shape h]
  constructor
  · intro hne
    obtain ⟨n, hn⟩ := List.exists_mem_of_ne_nil _ hne
    have hone : 1 < n := of_decide_eq_true (List.mem_filter.1 hn).2
    exact hone.trans_le (Nat.le_of_dvd (List.prod_pos shape_pos) (List.dvd_prod hn))
  · rintro hlt hnil
    rw [hnil] at hlt
    exact absurd hlt (by decide)

theorem dimensions_ne_nil_iff (h : a.array.Good) {skipTrivialDims : Bool} :
    a.dimensions skipTrivialDims ≠ [] ↔ (skipTrivialDims = true → 1 < a.array.nElements_) := by
  cases skipTrivialDims with
  | true => exact (shape_ne_nil_iff h).trans (imp_iff_right rfl).symm
  | false => exact iff_of_true (mt List.map_eq_nil_iff.1 h.ne_nil) fun heq => absurd heq Bool.false_ne_true

theorem dimensions_spec (h : a.array.Good) (skipTrivialDims : Bool) :
    (∀ n ∈ a.dimensions skipTrivialDims, 0 < n) ∧ (a.dimensions skipTrivialDims).prod = a.array.nElements_ := by
  cases skipTrivialDims with
  | true => exact ⟨shape_pos, prod_shape h⟩
  | false => exact ⟨h.current_pos, h.count_eq.symm⟩

/-- The number of elements of a view is at most that of its block. -/
theorem count_le : ∀ {ds : List Dim}, Valid ds → (ds.map Dim.current).prod ≤ Arrays.extent ds
  | [], _ => le_rfl
  | d :: ds, h => by
    have hcurrent : d.current ≤ d.size := by
      have h₁ := h.1.first_nonneg
      have h₂ := h.1.last_lt
      have h₃ := h.1.current_eq
      omega
    rw [List.map_cons, List.prod_cons, extent_cons, h.2.1]
    exact Nat.mul_le_mul hcurrent (count_le h.2.2)

theorem count_lt (h : a.array.Constructed) : a.array.nElements_ < 2 ^ 63 := by
  have hgood := h.good
  obtain ⟨sizes, ops, hfits, hrun, -⟩ := h
  have hsize : Always Array.apply (fun b => b.dataSize < 2 ^ 63) (Array.construct sizes) ops := by
    refine always_of_invariant (fun b op b' hb hs => (Array.apply_dataSize hs).trans_lt hb) ?_
    unfold Array.construct Array.resize
    dsimp only
    split_ifs
    · exact Nat.two_pow_pos 63
    · exact hfits
  have hle := count_le hgood.valid
  rw [← hgood.count_eq, ← hgood.dataSize_eq] at hle
  exact hle.trans_lt (hsize.last hrun)

/-- A new array with the elements of a view. -/
theorem construct_dimensions (h : a.array.Constructed) {skipTrivialDims : Bool}
    (hne : a.dimensions skipTrivialDims ≠ []) : (Array.construct (a.dimensions skipTrivialDims)).Good ∧
      (Array.construct (a.dimensions skipTrivialDims)).nElements_ = a.array.nElements_ := by
  obtain ⟨hpos, hprod⟩ := dimensions_spec h.good skipTrivialDims
  set sizes := a.dimensions skipTrivialDims
  have hfilter : sizes.filter (· ≠ 0) = sizes := List.filter_eq_self.2 fun n hn => decide_eq_true (hpos n hn).ne'
  have heq := @Array.resize_eq ⟨[], 0, 0, true, 0, 0⟩ sizes hne hpos
  have hfits : (sizes.filter (· ≠ 0)).prod < 2 ^ 63 := by
    rw [hfilter, hprod]
    exact count_lt h
  rcases Array.construct_good hfits with hgood | hblank
  · refine ⟨hgood, ?_⟩
    have hcurrent : (Array.construct sizes).dims.map Dim.current = sizes := by
      rw [Array.construct, heq]
      exact (Array.setSizes_spans sizes _).1
    rw [hgood.count_eq, hcurrent, hprod]
  · rw [Array.construct, heq] at hblank
    have hnil := (Array.setSizes_spans sizes []).1
    rw [show setSizes sizes [] = [] from (Array.mk.inj hblank).1] at hnil
    exact absurd hnil.symm hne

end Shapes

/-! ## Resized arrays -/

section Resized

variable {a out : View} {sizes : List ℕ} {firsts : List ℤ} {fresh : ℕ}

theorem setSizes_eq : ∀ {sizes : List ℕ} {firsts : List ℤ}, (∀ f ∈ firsts.take sizes.length, f = 0) →
    setSizes sizes firsts = setSizes sizes []
  | [], _, _ => rfl
  | _ :: _, [], _ => rfl
  | n :: sizes, f :: firsts, h => by
    rw [List.length_cons, List.take_succ_cons, List.forall_mem_cons] at h
    have hcons : ∀ fs : List ℤ, setSizes (n :: sizes) fs =
        ⟨n, Arrays.extent (setSizes sizes fs.tail), fs.headD 0, n - 1, n⟩ :: setSizes sizes fs.tail := fun _ => rfl
    rw [hcons, hcons, List.tail_cons, List.headD_cons, h.1, setSizes_eq h.2]
    rfl

theorem extent_setSizes : ∀ (sizes : List ℕ) (firsts : List ℤ), Arrays.extent (setSizes sizes firsts) = sizes.prod
  | [], _ => rfl
  | n :: sizes, firsts => by
    rw [List.prod_cons, ← extent_setSizes sizes firsts.tail]
    rfl

/-- The first element is at the beginning of the block only if no first index is kept. -/
theorem lo_setSizes : ∀ {sizes : List ℕ} {firsts : List ℤ}, (∀ n ∈ sizes, 0 < n) → (∀ f ∈ firsts, 0 ≤ f) →
    0 ≤ lo (setSizes sizes firsts) ∧
      (lo (setSizes sizes firsts) = 0 → ∀ f ∈ firsts.take sizes.length, f = 0)
  | [], _, _, _ => ⟨le_rfl, fun _ f hf => absurd hf (by simp)⟩
  | n :: sizes, firsts, hpos, hfirsts => by
    obtain ⟨-, hpos'⟩ := List.forall_mem_cons.1 hpos
    obtain ⟨hnonneg, hzero⟩ := lo_setSizes hpos' fun f hf => hfirsts f (List.mem_of_mem_tail hf)
    have hlo : lo (setSizes (n :: sizes) firsts) =
        firsts.headD 0 * (sizes.prod : ℕ) + lo (setSizes sizes firsts.tail) := by
      rw [← extent_setSizes sizes firsts.tail]
      rfl
    have hprod : (0 : ℤ) < (sizes.prod : ℕ) := Int.natCast_pos.2 (List.prod_pos hpos')
    cases firsts with
    | nil =>
      rw [hlo, List.headD_nil, zero_mul, zero_add]
      exact ⟨hnonneg, fun _ f hf => absurd hf (by simp)⟩
    | cons f firsts =>
      have hf := hfirsts f List.mem_cons_self
      have hmul := Int.mul_nonneg hf hprod.le
      rw [hlo, List.headD_cons]
      refine ⟨Int.add_nonneg hmul hnonneg, fun heq => ?_⟩
      have hmul' : f * (sizes.prod : ℕ) = 0 := by omega
      rw [List.length_cons, List.take_succ_cons, List.forall_mem_cons]
      exact ⟨(mul_eq_zero.1 hmul').resolve_right hprod.ne', hzero (by omega)⟩

/-- With no first index kept, the array is a new one. -/
theorem resized_of_zero (h : a.array.Constructed) (hsizes : Resizes a out) :
    (a.resized out fresh).array.Good ∧ (a.resized out fresh).array.nElements_ = a.array.nElements_ := by
  have hne : a.shape ≠ [] := (shape_ne_nil_iff h.good).2 hsizes.1
  have heq : (a.resized out fresh).array = Array.construct a.shape := by
    rw [resized, Array.construct, dimensions, if_pos rfl, Array.resize_eq hne shape_pos, Array.resize_eq hne shape_pos,
      Array.resizedCount, Array.resizedCount, ← (Array.setSizes_spans _ _).2, ← (Array.setSizes_spans _ _).2,
      setSizes_eq hsizes.2]
    rfl
  rw [heq]
  exact @construct_dimensions a h true hne

/-- **A first index that is kept** leads to other elements than the iterator does. -/
theorem zero_of_resized (hne : a.shape ≠ []) (hfirsts : ∀ d ∈ out.array.dims, 0 ≤ d.first)
    (hcount : (a.resized out fresh).array.nElements_ = a.shape.prod)
    (hvisited : (a.resized out fresh).visited = some (a.resized out fresh).cells) :
    ∀ f ∈ (out.array.dims.map Dim.first).take a.shape.length, f = 0 := by
  set t := (a.resized out fresh).array with ht
  have heq : t = ⟨setSizes a.shape (out.array.dims.map Dim.first), a.shape.prod, out.array.resizedCount a.shape,
    true, 0,
      a.shape.prod⟩ := by
    rw [ht, resized, dimensions, if_pos rfl, Array.resize_eq hne shape_pos]
  have hforwards := @Array.forwards_of_dense t a.shape.prod (by rw [heq]) (by rw [heq]) (by rw [heq]) (t.nElements_ + 1)
    (by omega)
  have hpos : 0 < a.shape.prod := List.prod_pos shape_pos
  -- the iterator begins at zero, the elements with the first indices
  have hcells : t.elements = (List.range a.shape.prod).map fun i : ℕ => (i : ℤ) := by
    have hmap : ((List.range a.shape.prod).map fun i : ℕ => (i : ℤ)).map (fresh, ·) = t.elements.map (fresh, ·) := by
      rw [visited, ← ht, hforwards] at hvisited
      exact Option.some.inj hvisited
    exact (List.map_injective_iff.2 (fun p q hpq => (Prod.mk.inj hpq).2) hmap).symm
  have hhead : t.elements.head? = some (lo t.dims) := by
    have hdims : t.dims ≠ [] := by
      rw [heq]
      intro hnil
      exact hne ((Array.setSizes_spans _ _).1.symm.trans (congrArg (List.map Dim.current) hnil))
    rw [Array.elements, if_neg hdims]
    refine head?_offsets fun d hd => ?_
    rw [heq] at hd
    refine @shape_pos a d.current ?_
    rw [← (Array.setSizes_spans a.shape (out.array.dims.map Dim.first)).1]
    exact List.mem_map_of_mem hd
  obtain ⟨n, hn⟩ := Nat.exists_eq_add_one.2 hpos
  rw [hcells, hn, List.range_succ_eq_map, heq] at hhead
  refine (lo_setSizes shape_pos ?_).2 (Option.some.inj hhead).symm
  intro f hf
  obtain ⟨d, hd, rfl⟩ := List.mem_map.1 hf
  exact hfirsts d hd

/-- Nothing is left of a view without a dimension that counts. -/
theorem ptr_resized_nil (hnil : a.shape = []) : (a.resized out fresh).ptr = none := by
  refine if_pos ?_
  rw [resized, dimensions, if_pos rfl, hnil, Array.resize]
  rfl

end Resized

/-! ## Copy by copy -/

section Copies

variable {T : Type*} {a out t : View} {m m' : Cell → T} {values : List T} {fresh : ℕ}

theorem cells_disjoint (hblock : t.block ≠ a.block) : ∀ c ∈ t.cells, c ∉ a.cells := by
  intro c hc hc'
  obtain ⟨p, -, rfl⟩ := List.mem_map.1 hc
  obtain ⟨q, -, heq⟩ := List.mem_map.1 hc'
  exact hblock (Prod.mk.inj heq).1.symm

/-- The elements of a view, in another block. -/
theorem map_copyEach (ht : t.array.Good) (ha : a.array.Good) (hcount : t.array.nElements_ = a.array.nElements_)
    (hblock : t.block ≠ a.block) (m : Cell → T) : t.cells.map (copyEach id (t.cells.zip a.cells) m) = a.cells.map m :=
  ((@copies_iff T t a id ht ha hcount).2 (.inr (ahead_of_disjoint (cells_disjoint hblock))) m).1

theorem map_writeEach_cells (ht : t.array.Good) (ha : a.array.Good) (hcount : t.array.nElements_ = a.array.nElements_)
    (contents : Cell → T) (m : Cell → T) :
    t.cells.map (writeEach (t.cells.zip (a.cells.map contents)) m) = a.cells.map contents :=
  (write_values ht (by rw [List.length_map, length_cells ha, hcount]) m).1

theorem copied_of_good (ht : t.array.Good) (hcount : t.array.nElements_ = a.array.nElements_)
    (hblock : t.block ≠ a.block)
    (hvalues : t.cells.map m' = values) : Copied a t values m' := ⟨hblock, hcount, visited_eq ht, hvalues⟩

/-- A new array, whatever writes its elements. -/
theorem copyNew_iff [Zero T] (h : a.array.Constructed) (skipTrivialDims : Bool) {w : Write T}
    {values : (Cell → T) → List T}
    (hw : ∀ t : View, t.array.Good → t.array.nElements_ = a.array.nElements_ → t.block ≠ a.block → ∀ m,
      ∃ m', t.perform m w = some m' ∧ t.cells.map m' = values m) :
    (∀ m fresh, fresh ≠ a.block → ∃ out m', a.copyNew m fresh skipTrivialDims w = some (out, m') ∧
      Copied a out (values m) m') ↔ (skipTrivialDims = true → 1 < a.array.nElements_) := by
  rw [← dimensions_ne_nil_iff h.good]
  constructor
  · rintro hcopies hnil
    obtain ⟨out, m', hcopy, hcopied⟩ := hcopies (fun _ => 0) (a.block + 1) (Nat.succ_ne_self _)
    rw [copyNew, if_pos hnil] at hcopy
    obtain rfl := (Prod.mk.inj (Option.some.inj hcopy)).1
    exact h.good.nElements_pos.ne hcopied.count_eq
  · intro hne m fresh hfresh
    obtain ⟨hgood, hcount⟩ := construct_dimensions h hne
    obtain ⟨m', hm', hvalues⟩ := hw ⟨Array.construct (a.dimensions skipTrivialDims), fresh⟩ hgood hcount hfresh m
    refine ⟨⟨Array.construct (a.dimensions skipTrivialDims), fresh⟩, m', ?_, copied_of_good hgood hcount hfresh hvalues⟩
    rw [copyNew, if_neg hne]
    exact congrArg (Option.map _) hm'

theorem copies_new_iff [Zero T] (h : a.array.Constructed) (skipTrivialDims : Bool) :
    a.Copies (.new skipTrivialDims : Copying T) ↔ (skipTrivialDims = true → 1 < a.array.nElements_) :=
  copyNew_iff h skipTrivialDims fun _ ht hcount hblock m =>
    ⟨_, perform_assign ht h.good hcount m, map_copyEach ht h.good hcount hblock m⟩

theorem copies_newAs_iff [Zero T] (h : a.array.Constructed) (skipTrivialDims : Bool) (contents : Cell → T) :
    a.Copies (.newAs skipTrivialDims contents) ↔ (skipTrivialDims = true → 1 < a.array.nElements_) :=
  copyNew_iff h skipTrivialDims fun _ ht hcount _ m =>
    ⟨_, perform_converted ht h.good hcount contents m, map_writeEach_cells ht h.good hcount contents m⟩

theorem alongside_eq (ht : t.array.Good) (ha : a.array.Good) (hcount : t.array.nElements_ = a.array.nElements_) :
    a.alongside t = some (t.cells.zip a.cells) := by
  unfold alongside
  by_cases hdense : a.array.dense_ = true ∧ t.array.dense_ = true
  · have hraw := raw_all ht hdense.2
    rw [hcount] at hraw
    rw [if_pos (by rw [hdense.1, hdense.2]; rfl), span_eq ha hdense.1, raw_all ha hdense.1, hraw]
  · rw [if_neg (by rwa [Bool.and_eq_true]), visited_eq ha, Option.bind_some, length_cells ha, ← hcount,
      visitedFor_eq ht le_rfl, Option.map_some, take_cells ht]

/-- What is copied to, if anything is. -/
theorem target_of_some {pairs : Option (List (Cell × Cell))} {g : List (Cell × Cell) → Cell → T}
    (h : (if t.ptr = none then none else pairs.map fun p => (t, g p)) = some (out, m')) : t.ptr ≠ none ∧ out = t := by
  split_ifs at h with hptr
  obtain ⟨p, -, hp⟩ := Option.map_eq_some_iff.1 h
  exact ⟨hptr, (Prod.mk.inj hp).1.symm⟩

theorem resizes_of_copied (ha : a.array.Good) (hfirsts : ∀ d ∈ out.array.dims, 0 ≤ d.first)
    (hptr : (a.resized out fresh).ptr ≠ none) (h : Copied a (a.resized out fresh) values m') : Resizes a out := by
  have hne : a.shape ≠ [] := fun hnil => hptr (ptr_resized_nil hnil)
  refine ⟨(shape_ne_nil_iff ha).1 hne, zero_of_resized hne hfirsts ?_ h.visited_eq⟩
  rw [h.count_eq, prod_shape ha]

/-- Of two views with the same shape, the target has as many elements. -/
theorem count_of_shape (ht : t.array.Good) (ha : a.array.Good) (hshape : a.shape = t.shape) :
    t.array.nElements_ = a.array.nElements_ := by
  rw [← prod_shape ht, ← prod_shape ha, hshape]

theorem first_nonneg (ho : out.Reached) : ∀ d ∈ out.array.dims, 0 ≤ d.first := by
  intro d hd
  rcases ho with hgood | ⟨hnil, -⟩
  · exact (hgood.valid.stride_pos d hd).1
  · rw [hnil] at hd
    exact absurd hd List.not_mem_nil

/-- Into a target that has to be resized, whatever writes its elements. -/
theorem copies_resized_iff [Zero T] (h : a.array.Constructed) (ho : out.Reached)
    {pairs : View → Option (List (Cell × Cell))} {g : List (Cell × Cell) → (Cell → T) → Cell → T}
    {values : (Cell → T) → List T}
    (hgood : ∀ t : View, t.array.Good → t.array.nElements_ = a.array.nElements_ → t.block ≠ a.block → ∀ m,
      ∃ m', (if t.ptr = none then none else (pairs t).map fun p => (t, g p m)) = some (t, m') ∧
        Copied a t (values m) m') :
    (∀ m fresh, fresh ≠ a.block → ∃ t m', (if (a.resized out fresh).ptr = none then none
      else (pairs (a.resized out fresh)).map fun p => (a.resized out fresh, g p m)) = some (t, m') ∧
        Copied a t (values m) m') ↔ Resizes a out := by
  constructor
  · intro hcopies
    obtain ⟨t, m', hcopy, hcopied⟩ := hcopies (fun _ => 0) (a.block + 1) (Nat.succ_ne_self _)
    obtain ⟨hptr, rfl⟩ := target_of_some hcopy
    exact resizes_of_copied h.good (first_nonneg ho) hptr hcopied
  · intro hsizes m fresh hfresh
    obtain ⟨ht, hcount⟩ := @resized_of_zero a out fresh h hsizes
    exact ⟨_, hgood _ ht hcount hfresh m⟩

theorem copies_into_iff [Zero T] (h : a.array.Constructed) (ho : out.Reached) :
    a.Copies (.into out : Copying T) ↔ a.Copyable (.into out : Copying T) := by
  have ha := h.good
  have hgood : ∀ t : View, t.array.Good → t.array.nElements_ = a.array.nElements_ → t.block ≠ a.block → ∀ m : Cell → T,
      ∃ m', (if t.ptr = none then none else (a.alongside t).map fun pairs => (t, copyEach id pairs m)) = some (t, m') ∧
        Copied a t (a.cells.map m) m' := by
    intro t ht hcount hblock m
    refine ⟨_, ?_, copied_of_good ht hcount hblock (map_copyEach ht ha hcount hblock m)⟩
    rw [if_neg (by rw [ptr_good ht]; exact Option.some_ne_none _), alongside_eq ht ha hcount, Option.map_some]
  have hguard : (a.ptr = out.ptr ∨ ¬sameSizes a out = true) ↔ a.ptr = out.ptr ∨ a.shape ≠ out.shape := by
    rw [sameSizes_iff]
  unfold Copies copy Copyable
  dsimp only
  by_cases hresize : a.ptr = out.ptr ∨ a.shape ≠ out.shape
  · simp only [if_pos (hguard.2 hresize), if_pos hresize]
    exact copies_resized_iff h ho hgood
  · simp only [if_neg (mt hguard.1 hresize), if_neg hresize]
    obtain ⟨hptr, hshape⟩ := not_or.1 hresize
    rw [not_not] at hshape
    rcases ho with ht | ⟨hnil, hdata⟩
    · refine iff_of_true (fun m fresh _ => ⟨out, hgood out ht (count_of_shape ht ha hshape) ?_ m⟩) ht.ne_nil
      rw [ptr_good ha, ptr_good ht] at hptr
      exact fun heq => hptr (congrArg some heq.symm)
    · refine iff_of_false (fun hcopies => ?_) (not_not.2 hnil)
      obtain ⟨t, m', hcopy, -⟩ := hcopies (fun _ => 0) (a.block + 1) (Nat.succ_ne_self _)
      exact (target_of_some hcopy).1 (if_pos hdata)

theorem copies_intoAs_iff [Zero T] (h : a.array.Constructed) (ho : out.Reached) (contents : Cell → T) :
    a.Copies (.intoAs out contents) ↔ a.Copyable (.intoAs out contents) := by
  have ha := h.good
  have hgood : ∀ t : View, t.array.Good → t.array.nElements_ = a.array.nElements_ → t.block ≠ a.block → ∀ m : Cell → T,
      ∃ m', (if t.ptr = none then none
        else (t.beside a a.span).map fun pairs => (t, writeEach (pairs.map fun p => (p.1, contents p.2)) m)) =
          some (t, m') ∧
        Copied a t (a.cells.map contents) m' := by
    intro t ht hcount hblock m
    refine ⟨_, ?_, copied_of_good ht hcount hblock (map_writeEach_cells ht ha hcount contents m)⟩
    rw [if_neg (by rw [ptr_good ht]; exact Option.some_ne_none _),
      beside_eq ht ha hcount fun _ hdense => by rw [span_eq ha hdense, hcount], Option.map_some, List.zip_map_right]
    rfl
  have hguard : ¬sameSizes a out = true ↔ a.shape ≠ out.shape := not_congr sameSizes_iff
  unfold Copies copy Copyable
  dsimp only
  by_cases hresize : a.shape ≠ out.shape
  · simp only [if_pos (hguard.2 hresize), if_pos hresize]
    exact copies_resized_iff h ho hgood
  · simp only [if_neg (mt hguard.1 hresize), if_neg hresize]
    have hshape := not_not.1 hresize
    rcases ho with ht | ⟨hnil, hdata⟩
    · rw [and_iff_right ht.ne_nil]
      constructor
      · intro hcopies
        obtain ⟨t, m', hcopy, hcopied⟩ := hcopies (fun _ => 0) (a.block + 1) (Nat.succ_ne_self _)
        obtain ⟨-, rfl⟩ := target_of_some hcopy
        exact hcopied.apart
      · exact fun hblock m fresh _ => ⟨out, hgood out ht (count_of_shape ht ha hshape) hblock m⟩
    · refine iff_of_false (fun hcopies => ?_) fun hand => hand.1 hnil
      obtain ⟨t, m', hcopy, -⟩ := hcopies (fun _ => 0) (a.block + 1) (Nat.succ_ne_self _)
      exact (target_of_some hcopy).1 (if_pos hdata)

/-- **When a deep copy has the elements of its view**, in another block: a new array if a dimension is left, or
trivial ones are kept; another array if it has the same shape and a block of its own, or if it can be resized. -/
theorem deep_copy_iff [Zero T] (a : View) (ha : a.array.Constructed) (c : Copying T)
    (hc : ∀ out ∈ c.targets, ∃ (sizes : List ℕ) (ops : List Array.Op), (sizes.filter (· ≠ 0)).prod < 2 ^ 63 ∧
      ops.foldlM Array.apply (Array.construct sizes) = some out.array) : a.Copies c ↔ a.Copyable c := by
  have hreached : ∀ out ∈ c.targets, out.Reached := fun out hout => by
    obtain ⟨sizes, ops, hfits, hrun⟩ := hc out hout
    exact Array.reached hfits hrun
  cases c with
  | new skipTrivialDims => exact copies_new_iff ha skipTrivialDims
  | newAs skipTrivialDims contents => exact copies_newAs_iff ha skipTrivialDims contents
  | into out => exact copies_into_iff ha (hreached out (List.mem_singleton_self out))
  | intoAs out contents => exact copies_intoAs_iff ha (hreached out (List.mem_singleton_self out)) contents

end Copies

/-- A row, copied to the other row of the same block, which gets a block of its own. -/
theorem row_copied : (⟨⟨[⟨2, 2, 0, 0, 1⟩, ⟨2, 1, 0, 1, 2⟩], 4, 2, true, 0, 2⟩, 0⟩ : View).Copies
    (.into ⟨Array.construct [2, 2], 0⟩ : Copying ℕ) :=
  (deep_copy_iff ⟨⟨[⟨2, 2, 0, 0, 1⟩, ⟨2, 1, 0, 1, 2⟩], 4, 2, true, 0, 2⟩, 0⟩
    ⟨[2, 2], [.setLimits [0, 0] [0, 1]], by decide, rfl, by decide⟩ _ (by
      intro out hout
      obtain rfl := List.mem_singleton.1 hout
      exact ⟨[2, 2], [], by decide, rfl⟩)).2 (by unfold Copyable Resizes; decide)

/-- The only element of an array. -/
theorem element_not_copied : ¬(⟨Array.construct [1, 1], 0⟩ : View).Copies (.new true : Copying ℕ) := by
  intro h
  obtain ⟨out, m', hcopy, hcopied⟩ := h (fun _ => 0) 1 (by decide)
  obtain rfl := (Prod.mk.inj (Option.some.inj hcopy)).1
  exact absurd hcopied.count_eq (by decide)

end View

end Redux.Util.Arrays
