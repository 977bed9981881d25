import Redux.Lib.Transfer
import Redux.Util.ArrayEqual

/-!
# Util.ArrayWrites — writing through a view

`zero`, `assign`, `copyFrom` and the assignment of a scalar, with the pointers or iterators that each of them
goes by.  A write is right if the elements of the view get what is asked for and the other cells stay as they
are.  For which views and arguments that is so, whatever the contents, is in `Proper`: `zero` fills from the
beginning of the block on, a list may be too short, a view of the same block may be written before it is read,
and with a weight dense views take their own elements for those of the other view (`writes_iff`).
-/

namespace Redux.Util.Arrays

open Redux.Lib

/-- A data block, and an offset in it. -/
abbrev Cell := ℕ × ℤ

/-- What is written through a view.  The contents of another array of another type are those after the
conversion; `scale` multiplies by the weight. -/
inductive Write (T : Type*)
  | zero
  | scalar (rhs : T)
  | values (values : List T)
  | copyFrom (data : ℕ → T)
  | assign (rhs : View)
  | assignSelf
  | weighted (rhs : View) (scale : T → T)
  | weightedSelf (scale : T → T)
  | converted (rhs : View) (contents : Cell → T)

/-- The other view of a write. -/
def Write.sources {T : Type*} : Write T → List View
  | .assign rhs | .weighted rhs _ | .converted rhs _ => [rhs]
  | _ => []

/-- An array with a data block as it is constructed, or a view that operations make of it. -/
def Array.Constructed (a : Array) : Prop :=
  ∃ (sizes : List ℕ) (ops : List Op), (sizes.filter (· ≠ 0)).prod < 2 ^ 63 ∧
    ops.foldlM apply (construct sizes) = some a ∧ a.dims ≠ []

theorem Array.Constructed.good {a : Array} (h : a.Constructed) : a.Good := by
  obtain ⟨sizes, ops, hfits, ha, hne⟩ := h
  exact (reached hfits ha).resolve_right fun h => hne h.1

namespace View

/-! ## Model -/

section Model

variable {T : Type*} (a rhs : View)

/-- `n` pointers from `get()+begin_` on. -/
def raw (n : ℕ) : List Cell := (List.range n).map fun i : ℕ => (a.block, a.array.begin_ + i)

/-- An iterator from `begin()` to `end()`. -/
def visited : Option (List Cell) := (a.array.forwards (a.array.nElements_ + 1)).map (List.map (a.block, ·))

/-- An iterator from `begin()` on, `n` times moved on. -/
def visitedFor (n : ℕ) : Option (List Cell) :=
  (steps a.array.increment n a.array.begin_).map (List.map (a.block, ·))

/-- The number of pointers from `get()+begin_` to `get()+end_`. -/
def span : ℕ := (a.array.end_ - a.array.begin_).toNat

/-- The cells of two views side by side: `n` pointers if both are dense, otherwise an iterator of the second
one along with one of the first. -/
def beside (n : ℕ) : Option (List (Cell × Cell)) :=
  if a.array.dense_ && rhs.array.dense_ then some ((a.raw n).zip (rhs.raw n))
  else a.visited.bind fun cells => (rhs.visitedFor cells.length).map fun others => cells.zip others

/-- The contents of the blocks after a write; `none` if it throws. -/
def perform [Zero T] (m : Cell → T) : Write T → Option (Cell → T)
  | .zero =>
    some (if a.array.nElements_ ≠ 0 ∧ a.array.dataSize ≠ 0 then
      writeEach (((List.range a.array.nElements_).map fun i : ℕ => (a.block, (i : ℤ))).map (·, 0)) m else m)
  | .scalar rhs =>
    (if a.array.dense_ then some (a.raw a.span) else a.visited).map fun cells => writeEach (cells.map (·, rhs)) m
  | .values values =>
    if values.length ≤ a.array.nElements_ then
      (if a.array.dense_ then some (a.raw values.length) else a.visitedFor values.length).map fun cells =>
        writeEach (cells.zip values) m
    else none
  | .copyFrom data =>
    if a.array.nElements_ = 0 then some m
    else (if a.array.dense_ then some (a.raw a.array.nElements_) else a.visited).map fun cells =>
      writeEach (cells.zip ((List.range cells.length).map data)) m
  | .assign rhs =>
    if sameSize a rhs then (beside a rhs rhs.span).map fun pairs => copyEach id pairs m else none
  | .assignSelf => some m
  | .weighted rhs scale =>
    if sameSize a rhs then
      -- both of the ranges from `get()+begin_` on are of the view itself
      if a.array.dense_ && rhs.array.dense_ then
        some (copyEach scale ((a.raw rhs.span).zip (a.raw rhs.span)) m)
      else (beside a rhs rhs.span).map fun pairs => copyEach scale pairs m
    else none
  | .weightedSelf _ => some m
  | .converted rhs contents =>
    if sameSize a rhs then
      (beside a rhs a.span).map fun pairs => writeEach (pairs.map fun p => (p.1, contents p.2)) m
    else none

end Model

/-! ## What is to happen -/

section Specification

variable {T : Type*} [Zero T] (a rhs : View)

/-- The cells of the elements, in row-major order. -/
def cells : List Cell := a.array.elements.map (a.block, ·)

/-- What the elements are to be. -/
def requested (m : Cell → T) : Write T → List T
  | .zero => a.cells.map fun _ => 0
  | .scalar rhs => a.cells.map fun _ => rhs
  | .values values => values
  | .copyFrom data => (List.range a.array.nElements_).map data
  | .assign rhs => rhs.cells.map m
  | .assignSelf => a.cells.map m
  | .weighted rhs scale => rhs.cells.map fun c => scale (m c)
  | .weightedSelf scale => a.cells.map fun c => scale (m c)
  | .converted rhs contents => rhs.cells.map contents

/-- Whatever is in the blocks, the elements become what they are to be, and nothing else changes. -/
def Writes (w : Write T) : Prop :=
  ∀ m : Cell → T, ∃ m', a.perform m w = some m' ∧ a.cells.map m' = a.requested m w ∧ ∀ c ∉ a.cells, m' c = m c

/-- When that is so. -/
def Proper : Write T → Prop
  | .zero => a.array.begin_ = 0 ∧ a.array.dense_ = true
  | .scalar _ | .copyFrom _ | .assignSelf => True
  | .values values => values.length = a.array.nElements_
  | .assign rhs => a.array.nElements_ = rhs.array.nElements_ ∧ Ahead (a.cells.zip rhs.cells)
  | .weighted rhs scale =>
    a.array.nElements_ = rhs.array.nElements_ ∧ ((∀ x y, scale x = scale y) ∨
      if a.array.dense_ = true ∧ rhs.array.dense_ = true then a.cells = rhs.cells
      else Ahead (a.cells.zip rhs.cells))
  | .weightedSelf scale => ∀ x, scale x = x
  | .converted rhs _ => a.array.nElements_ = rhs.array.nElements_

end Specification

/-! ## The cells that are gone through -/

section Cells

variable {a rhs : View} {n : ℕ}

theorem length_cells (h : a.array.Good) : a.cells.length = a.array.nElements_ := by
  rw [cells, List.length_map, h.length_elements]

theorem nodup_cells (h : a.array.Good) : a.cells.Nodup := by
  have hsorted := List.isChain_iff_pairwise.1 h.sorted
  exact (hsorted.imp fun hlt => hlt.ne).map _ fun p q hne heq => hne (Prod.mk.inj heq).2

theorem raw_eq (h : a.array.Good) (hdense : a.array.dense_ = true) (hn : n ≤ a.array.nElements_) :
    a.raw n = a.cells.take n := by
  rw [cells, h.elements_of_dense hdense, List.map_map, ← List.map_take, List.take_range, min_eq_left hn]
  rfl

theorem span_eq (h : a.array.Good) (hdense : a.array.dense_ = true) : a.span = a.array.nElements_ := by
  rw [h.dense_eq, decide_eq_true_iff] at hdense
  rw [span, ← hdense]
  omega

theorem take_cells (h : a.array.Good) : a.cells.take a.array.nElements_ = a.cells := by
  rw [← length_cells h, List.take_length]

theorem raw_all (h : a.array.Good) (hdense : a.array.dense_ = true) : a.raw a.array.nElements_ = a.cells := by
  rw [raw_eq h hdense le_rfl, take_cells h]

theorem visited_eq (h : a.array.Good) : a.visited = some a.cells := by
  rw [visited, h.exact.forwards_eq, Option.map_some, cells]

theorem visitedFor_eq (h : a.array.Good) (hn : n ≤ a.array.nElements_) : a.visitedFor n = some (a.cells.take n) := by
  have hhead : (a.array.elements ++ [a.array.end_]).head? = some a.array.begin_ := by
    rw [List.head?_append, h.head?_elements]
    rfl
  rw [visitedFor, steps_of_isChain hhead h.isChain_increment (by rwa [h.length_elements]), Option.map_some, cells,
    List.map_take]

/-- **Two views of as many elements** are gone through side by side. -/
theorem beside_eq (ha : a.array.Good) (hr : rhs.array.Good) (hcount : a.array.nElements_ = rhs.array.nElements_)
    (hn : a.array.dense_ = true → rhs.array.dense_ = true → n = a.array.nElements_) :
    a.beside rhs n = some (a.cells.zip rhs.cells) := by
  unfold beside
  by_cases hdense : a.array.dense_ = true ∧ rhs.array.dense_ = true
  · rw [if_pos (by rw [hdense.1, hdense.2]; rfl), hn hdense.1 hdense.2, raw_all ha hdense.1, hcount,
      raw_all hr hdense.2]
  · rw [if_neg (by rwa [Bool.and_eq_true]), visited_eq ha, Option.bind_some, length_cells ha, hcount,
      visitedFor_eq hr le_rfl, Option.map_some, take_cells hr]

end Cells

/-! ## Write by write -/

section Writes

variable {T : Type*} [Zero T] {a rhs : View} {w : Write T} {g : (Cell → T) → Cell → T} {scale : T → T}

theorem writes_iff_of_perform (h : ∀ m, a.perform m w = some (g m)) : a.Writes w ↔
    ∀ m, a.cells.map (g m) = a.requested m w ∧ ∀ c ∉ a.cells, g m c = m c := by
  refine forall_congr' fun m => ⟨?_, fun hm => ⟨_, h m, hm⟩⟩
  rintro ⟨m', hm', hwritten⟩
  obtain rfl := Option.some.inj ((h m).symm.trans hm')
  exact hwritten

theorem not_writes_of_perform (h : ∀ m, a.perform m w = none) : ¬a.Writes w := fun hwrites => by
  obtain ⟨m', hm', -⟩ := hwrites fun _ => 0
  exact Option.some_ne_none m' (hm'.symm.trans (h _))

omit [Zero T] in
/-- As many values as elements. -/
theorem write_values (ha : a.array.Good) {values : List T} (hlen : values.length = a.array.nElements_) (m : Cell → T) :
    a.cells.map (writeEach (a.cells.zip values) m) = values ∧
      ∀ c ∉ a.cells, writeEach (a.cells.zip values) m c = m c := by
  rw [← length_cells ha] at hlen
  refine ⟨map_writeEach (nodup_cells ha) hlen, fun c hc => writeEach_of_notMem ?_⟩
  rwa [List.map_fst_zip hlen.ge]

theorem writes_scalar (ha : a.array.Good) (v : T) : a.Writes (.scalar v) := by
  have hperform : ∀ m, a.perform m (.scalar v) = some (writeEach (a.cells.map (·, v)) m) := by
    intro m
    unfold perform
    dsimp only
    by_cases hdense : a.array.dense_ = true
    · rw [if_pos hdense, span_eq ha hdense, raw_all ha hdense, Option.map_some]
    · rw [if_neg hdense, visited_eq ha, Option.map_some]
  refine (writes_iff_of_perform hperform).2 fun m => ⟨List.map_congr_left fun c hc => ?_, fun c hc => ?_⟩
  · rw [writeEach_const, if_pos hc]
  · rw [writeEach_const, if_neg hc]

theorem writes_values_iff (ha : a.array.Good) (values : List T) :
    a.Writes (.values values) ↔ values.length = a.array.nElements_ := by
  by_cases hle : values.length ≤ a.array.nElements_
  · have hperform : ∀ m, a.perform m (.values values) =
        some (writeEach ((a.cells.take values.length).zip values) m) := by
      intro m
      unfold perform
      dsimp only
      rw [if_pos hle]
      by_cases hdense : a.array.dense_ = true
      · rw [if_pos hdense, raw_eq ha hdense hle, Option.map_some]
      · rw [if_neg hdense, visitedFor_eq ha hle, Option.map_some]
    rw [writes_iff_of_perform hperform]
    constructor
    · intro h
      have hlen := congrArg List.length (h fun _ => 0).1
      rw [List.length_map, length_cells ha] at hlen
      exact hlen.symm
    · intro hlen
      rw [hlen, take_cells ha]
      exact write_values ha hlen
  · refine iff_of_false (not_writes_of_perform fun m => ?_) fun hlen => hle hlen.le
    unfold perform
    exact if_neg hle

theorem writes_copyFrom (ha : a.array.Good) (data : ℕ → T) : a.Writes (.copyFrom data) := by
  have hperform : ∀ m, a.perform m (.copyFrom data) =
      some (writeEach (a.cells.zip ((List.range a.array.nElements_).map data)) m) := by
    intro m
    unfold perform
    dsimp only
    rw [if_neg ha.nElements_pos.ne']
    by_cases hdense : a.array.dense_ = true
    · rw [if_pos hdense, raw_all ha hdense, Option.map_some, length_cells ha]
    · rw [if_neg hdense, visited_eq ha, Option.map_some, length_cells ha]
  exact (writes_iff_of_perform hperform).2 (write_values ha (by rw [List.length_map, List.length_range]))

/-- The first elements of the block are those of the view. -/
theorem writes_zero_iff [Nontrivial T] (ha : a.array.Good) :
    a.Writes (.zero : Write T) ↔ a.array.begin_ = 0 ∧ a.array.dense_ = true := by
  have hdata : a.array.dataSize ≠ 0 := by
    rw [ha.dataSize_eq]
    exact ha.valid.extent_pos.ne'
  set first := (List.range a.array.nElements_).map fun i : ℕ => (a.block, (i : ℤ)) with hfirst
  have hperform : ∀ m : Cell → T, a.perform m .zero = some (writeEach (first.map (·, 0)) m) := fun m =>
    congrArg some (if_pos ⟨ha.nElements_pos.ne', hdata⟩)
  rw [writes_iff_of_perform hperform]
  constructor
  · intro h
    -- of contents that are not zero anywhere, what is zero has been written
    obtain ⟨z, hz⟩ := exists_ne (0 : T)
    obtain ⟨hzero, hframe⟩ := h fun _ => z
    have hiff : ∀ c, c ∈ a.cells ↔ c ∈ first := by
      intro c
      constructor
      · intro hc
        have hall := List.map_inj_left.1 hzero c hc
        by_contra hnot
        rw [writeEach_const, if_neg hnot] at hall
        exact hz hall
      · intro hc
        by_contra hnot
        have hall := hframe c hnot
        rw [writeEach_const, if_pos hc] at hall
        exact hz hall.symm
    have helement : ∀ p : ℤ, p ∈ a.array.elements ↔ ∃ i < a.array.nElements_, (i : ℤ) = p := by
      intro p
      have hp := hiff (a.block, p)
      simpa [cells, hfirst] using hp
    have hpos := ha.nElements_pos
    obtain ⟨i, -, hi⟩ := (helement _).1 (List.mem_of_mem_head? (Option.mem_def.2 ha.head?_elements))
    obtain ⟨j, hj, hlast⟩ := (helement _).1 (List.mem_of_getLast? ha.getLast?_elements)
    have hlow := ha.mem_elements ((helement 0).2 ⟨0, hpos, rfl⟩)
    have hhigh := ha.mem_elements ((helement ((a.array.nElements_ - 1 : ℕ) : ℤ)).2 ⟨_, by omega, rfl⟩)
    have hbegin : a.array.begin_ = 0 := by omega
    refine ⟨hbegin, ?_⟩
    rw [ha.dense_eq, decide_eq_true_iff]
    omega
  · rintro ⟨hbegin, hdense⟩ m
    have hcells : first = a.cells := by
      rw [cells, ha.elements_of_dense hdense, hbegin, List.map_map, hfirst]
      exact List.map_congr_left fun i _ => by rw [Function.comp_apply, zero_add]
    rw [hcells]
    refine ⟨List.map_congr_left fun c hc => ?_, fun c hc => ?_⟩
    · rw [writeEach_const, if_pos hc]
    · rw [writeEach_const, if_neg hc]

omit [Zero T] in
theorem map_eq_map_iff {g g' : Cell → T} : ∀ {l l' : List Cell}, l.length = l'.length →
    (l.map g = l'.map g' ↔ ∀ p ∈ l.zip l', g p.1 = g' p.2)
  | [], [], _ => iff_of_true rfl fun p hp => absurd hp List.not_mem_nil
  | c :: l, c' :: l', h => by
    rw [List.map_cons, List.map_cons, List.cons_eq_cons, List.zip_cons_cons, List.forall_mem_cons,
      map_eq_map_iff (Nat.succ.inj h)]

omit [Zero T] in
/-- The elements of another view, or what `f` makes of them. -/
theorem copies_iff {f : T → T} (ha : a.array.Good) (hr : rhs.array.Good)
    (hcount : a.array.nElements_ = rhs.array.nElements_) :
    (∀ m, a.cells.map (copyEach f (a.cells.zip rhs.cells) m) = rhs.cells.map (fun c => f (m c)) ∧
      ∀ c ∉ a.cells, copyEach f (a.cells.zip rhs.cells) m c = m c) ↔
    (∀ x y, f x = f y) ∨ Ahead (a.cells.zip rhs.cells) := by
  have hlen : a.cells.length = rhs.cells.length := by rw [length_cells ha, length_cells hr, hcount]
  have hfst : (a.cells.zip rhs.cells).map Prod.fst = a.cells := List.map_fst_zip hlen.le
  have hsnd : (a.cells.zip rhs.cells).map Prod.snd = rhs.cells := List.map_snd_zip hlen.ge
  rw [← @copyEach_iff _ _ _ f (a.cells.zip rhs.cells) (by rw [hfst]; exact nodup_cells ha)
    (by rw [hsnd]; exact nodup_cells hr)]
  refine forall_congr' fun m => ?_
  rw [map_eq_map_iff hlen, and_iff_left]
  intro c hc
  refine copyEach_of_notMem ?_
  rwa [hfst]

theorem sameSize_iff : sameSize a rhs = true ↔ a.array.nElements_ = rhs.array.nElements_ := beq_iff_eq

theorem perform_assign (ha : a.array.Good) (hr : rhs.array.Good) (hcount : a.array.nElements_ = rhs.array.nElements_)
    (m : Cell → T) : a.perform m (.assign rhs) = some (copyEach id (a.cells.zip rhs.cells) m) := by
  unfold perform
  dsimp only
  rw [if_pos (sameSize_iff.2 hcount), beside_eq ha hr hcount fun _ hdense => by rw [span_eq hr hdense, hcount],
    Option.map_some]

theorem writes_assign_iff [Nontrivial T] (ha : a.array.Good) (hr : rhs.array.Good) :
    a.Writes (.assign rhs : Write T) ↔
      a.array.nElements_ = rhs.array.nElements_ ∧ Ahead (a.cells.zip rhs.cells) := by
  by_cases hcount : a.array.nElements_ = rhs.array.nElements_
  · have hcopy := @copies_iff T a rhs id ha hr hcount
    rw [writes_iff_of_perform (perform_assign ha hr hcount), and_iff_right hcount]
    refine hcopy.trans (or_iff_right fun hconst => ?_)
    obtain ⟨x, y, hxy⟩ := exists_pair_ne T
    exact hxy (hconst x y)
  · refine iff_of_false (not_writes_of_perform fun m => ?_) fun h => hcount h.1
    unfold perform
    exact if_neg (mt sameSize_iff.1 hcount)

omit [Zero T] in
/-- Two dense views: the weight goes to the elements of the first one. -/
theorem writes_weighted_dense_iff (ha : a.array.Good) (hr : rhs.array.Good)
    (hcount : a.array.nElements_ = rhs.array.nElements_) :
    (∀ m : Cell → T, a.cells.map (copyEach scale (a.cells.zip a.cells) m) = rhs.cells.map (fun c => scale (m c)) ∧
      ∀ c ∉ a.cells, copyEach scale (a.cells.zip a.cells) m c = m c) ↔
    (∀ x y, scale x = scale y) ∨ a.cells = rhs.cells := by
  have hlen : a.cells.length = rhs.cells.length := by rw [length_cells ha, length_cells hr, hcount]
  have hself := (@copies_iff T a a scale ha ha rfl).2 (.inr (ahead_self (nodup_cells ha)))
  constructor
  · intro h
    refine or_iff_not_imp_right.2 fun hne x y => ?_
    obtain ⟨c, d, hmem, hcd⟩ := exists_ne_of_ne hlen hne
    have hall := (h fun e => if e = c then x else y).1
    rw [(hself _).1, map_eq_map_iff hlen] at hall
    have hboth := hall (c, d) hmem
    rwa [if_pos rfl, if_neg (Ne.symm hcd)] at hboth
  · rintro (hconst | heq) m
    · refine ⟨?_, (hself m).2⟩
      rw [(hself m).1, map_eq_map_iff hlen]
      exact fun p _ => hconst _ _
    · rw [← heq]
      exact hself m

theorem writes_weighted_iff (ha : a.array.Good) (hr : rhs.array.Good) :
    a.Writes (.weighted rhs scale) ↔ a.Proper (.weighted rhs scale) := by
  show _ ↔ a.array.nElements_ = rhs.array.nElements_ ∧ _
  by_cases hcount : a.array.nElements_ = rhs.array.nElements_
  · rw [and_iff_right hcount]
    by_cases hdense : a.array.dense_ = true ∧ rhs.array.dense_ = true
    · have hperform : ∀ m : Cell → T, a.perform m (.weighted rhs scale) =
          some (copyEach scale (a.cells.zip a.cells) m) := by
        intro m
        unfold perform
        dsimp only
        rw [if_pos (sameSize_iff.2 hcount), if_pos (by rw [hdense.1, hdense.2]; rfl), span_eq hr hdense.2, ← hcount,
          raw_all ha hdense.1]
      rw [writes_iff_of_perform hperform, if_pos hdense]
      exact writes_weighted_dense_iff ha hr hcount
    · have hperform : ∀ m : Cell → T, a.perform m (.weighted rhs scale) =
          some (copyEach scale (a.cells.zip rhs.cells) m) := by
        intro m
        unfold perform
        dsimp only
        rw [if_pos (sameSize_iff.2 hcount), if_neg (by rwa [Bool.and_eq_true]),
          beside_eq ha hr hcount fun h h' => absurd ⟨h, h'⟩ hdense, Option.map_some]
      rw [writes_iff_of_perform hperform, if_neg hdense]
      exact copies_iff ha hr hcount
  · refine iff_of_false (not_writes_of_perform fun m => ?_) fun h => hcount h.1
    unfold perform
    exact if_neg (mt sameSize_iff.1 hcount)

theorem writes_weightedSelf_iff (ha : a.array.Good) : a.Writes (.weightedSelf scale) ↔ ∀ x, scale x = x := by
  rw [writes_iff_of_perform (g := id) fun m => rfl]
  constructor
  · intro h x
    obtain ⟨c, hc⟩ := List.exists_mem_of_length_pos (by rw [length_cells ha]; exact ha.nElements_pos)
    exact (List.map_inj_left.1 (h fun _ => x).1 c hc).symm
  · exact fun h m => ⟨List.map_congr_left fun c _ => (h _).symm, fun c _ => rfl⟩

theorem perform_converted (ha : a.array.Good) (hr : rhs.array.Good)
    (hcount : a.array.nElements_ = rhs.array.nElements_) (contents : Cell → T) (m : Cell → T) :
    a.perform m (.converted rhs contents) = some (writeEach (a.cells.zip (rhs.cells.map contents)) m) := by
  unfold perform
  dsimp only
  rw [if_pos (sameSize_iff.2 hcount), beside_eq ha hr hcount fun hdense _ => span_eq ha hdense, Option.map_some,
    List.zip_map_right]
  rfl

theorem writes_converted_iff (ha : a.array.Good) (hr : rhs.array.Good) (contents : Cell → T) :
    a.Writes (.converted rhs contents) ↔ a.array.nElements_ = rhs.array.nElements_ := by
  by_cases hcount : a.array.nElements_ = rhs.array.nElements_
  · refine iff_of_true ((writes_iff_of_perform (perform_converted ha hr hcount contents)).2 (write_values ha ?_)) hcount
    rw [List.length_map, length_cells hr, hcount]
  · refine iff_of_false (not_writes_of_perform fun m => ?_) hcount
    unfold perform
    exact if_neg (mt sameSize_iff.1 hcount)

/-- **When a write through a view changes its elements, to what they are to be, and nothing else.** -/
theorem writes_iff [Nontrivial T] (a : View) (ha : a.array.Constructed) (w : Write T)
    (hw : ∀ rhs ∈ w.sources, rhs.array.Constructed) : a.Writes w ↔ a.Proper w := by
  have hgood := ha.good
  cases w with
  | zero => exact writes_zero_iff hgood
  | scalar rhs => exact iff_of_true (writes_scalar hgood rhs) trivial
  | values values => exact writes_values_iff hgood values
  | copyFrom data => exact iff_of_true (writes_copyFrom hgood data) trivial
  | assign rhs => exact writes_assign_iff hgood (hw rhs (List.mem_singleton_self rhs)).good
  | assignSelf =>
    refine iff_of_true ((writes_iff_of_perform (g := id) fun m => rfl).2 fun m => ⟨rfl, fun c _ => rfl⟩) trivial
  | weighted rhs scale => exact writes_weighted_iff hgood (hw rhs (List.mem_singleton_self rhs)).good
  | weightedSelf scale => exact writes_weightedSelf_iff hgood
  | converted rhs contents => exact writes_converted_iff hgood (hw rhs (List.mem_singleton_self rhs)).good contents

end Writes

/-- The second row of an array gets the first one. -/
theorem row_written : (⟨Array.secondRow, 0⟩ : View).Writes
    (.assign ⟨⟨[⟨2, 2, 0, 0, 1⟩, ⟨2, 1, 0, 1, 2⟩], 4, 2, true, 0, 2⟩, 0⟩ : Write ℕ) :=
  (writes_iff ⟨Array.secondRow, 0⟩ ⟨[2, 2], [.setLimits [1, 0] [1, 1]], by decide, rfl, by decide⟩ _ (by
    intro rhs hrhs
    obtain rfl := List.mem_singleton.1 hrhs
    exact ⟨[2, 2], [.setLimits [0, 0] [0, 1]], by decide, rfl, by decide⟩)).2 ⟨rfl, by decide⟩

/-- The second row of an array is to be zeroed, and the first one is. -/
theorem row_not_zeroed : ¬(⟨Array.secondRow, 0⟩ : View).Writes (.zero : Write ℕ) := by
  intro h
  obtain ⟨m', hm', -, hframe⟩ := h fun _ => 1
  obtain rfl := Option.some.inj hm'
  exact absurd (hframe (0, 0) (by decide)) (by decide)

end View

end Redux.Util.Arrays
