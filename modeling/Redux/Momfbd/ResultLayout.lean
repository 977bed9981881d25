import Redux.Lib.IntType
import Redux.Momfbd.ResultStorage

/-!
# Momfbd.ResultLayout — the results in memory and in the file

`writeMomfbd` copies all results behind the modes, and gives each quantity of each patch the position behind
the one before it, by the sizes of the arrays that `getStorage` wraps.  The positions are those of the arrays,
and the arrays fill what `getResultSize` says, exactly if no size is zero beside others and no product leaves
its type (`layoutAgrees_iff`).
-/

namespace Redux.Momfbd.Results

open Redux.Lib Redux.Lib.Layout Redux.Util

/-! ## Writing -/

theorem pos_64 : 0 < 64 := by decide

def int64 : IntType := ⟨64, true, pos_64⟩

def View.nDimensions (v : View) : ℕ := v.array.sizes.length

def View.dimSize (v : View) (i : ℕ) : ℕ := v.array.sizes.getD i 0

/-- The part of a `FileMomfbd::PatchInfo` that says where the results are: numbers and positions. -/
@[ext]
structure PatchInfo where
  (npsf nobj nres nalpha nm ndiv nphx nphy : ℤ)
  pos : Quantity → ℤ

namespace PatchInfo

variable (imgSize : ℤ) (pi : PatchInfo)

/-- What is added to `offset` behind a quantity. -/
def bytes : Quantity → Option ℤ
  | .img => some imgSize
  | .psf => int64.arith (pi.npsf * imgSize)
  | .cobj => int64.arith (pi.nobj * imgSize)
  | .res => int64.arith (pi.nres * imgSize)
  | .alpha => (IntType.int.arith (pi.nalpha * pi.nm)).map (4 * ·)
  | .div => (IntType.int.arith (pi.ndiv * pi.nphx)).bind fun n => (IntType.int.arith (n * pi.nphy)).map (4 * ·)

/-- `pi.imgPos = offset; offset += ..`, for these quantities. -/
def placeAll : List Quantity → ℤ → (Quantity → ℤ) → Option ((Quantity → ℤ) × ℤ)
  | [], offset, pos => some (pos, offset)
  | q :: qs, offset, pos => (pi.bytes imgSize q).bind fun n =>
    placeAll qs (offset + n) (Function.update pos q offset)

end PatchInfo

namespace Object

variable (nModes : BitVec 16) (hasModes : Bool) (g : Grid) (o : Object)

/-- `int64_t imgSize`. -/
def imgSize : Option ℤ := (intMul o.patchSize.toNat o.patchSize.toNat).map fun n : ℕ => 4 * (n : ℤ)

/-- The bytes of the pupil and the modes, which are written if the object has them. -/
def modeSize : ℕ :=
  if o.saves SF_SAVE_MODES ∧ 0 < o.pupilPixels.toNat ∧ hasModes then
    4 * ((nModes.toNat + 1) * o.pupilPixels.toNat * o.pupilPixels.toNat) else 0

/-- The numbers of a patch, from the arrays of its results, as far as they are in the `writeMask`. -/
def numbers (oData : ObjectData) : PatchInfo where
  npsf := if o.asks .psf ∧ 1 < (oData .psf).nDimensions then IntType.int.wrap ((oData .psf).dimSize 0) else 0
  nobj := if o.asks .cobj ∧ 1 < (oData .cobj).nDimensions then IntType.int.wrap ((oData .cobj).dimSize 0) else 0
  nres := if o.asks .res ∧ 1 < (oData .res).nDimensions then IntType.int.wrap ((oData .res).dimSize 0) else 0
  nalpha := if o.asks .alpha ∧ (oData .alpha).nDimensions = 2 then
    IntType.int.wrap ((oData .alpha).dimSize 0) else 0
  nm := if o.asks .alpha ∧ (oData .alpha).nDimensions = 2 then IntType.int.wrap ((oData .alpha).dimSize 1) else 0
  ndiv := if o.asks .div ∧ 1 < (oData .div).nDimensions then IntType.int.wrap ((oData .div).dimSize 0) else 0
  nphx := if o.asks .div ∧ 1 < (oData .div).nDimensions then o.pupilPixels.toNat else 0
  nphy := if o.asks .div ∧ 1 < (oData .div).nDimensions then o.pupilPixels.toNat else 0
  pos := fun _ => 0

/-- The numbers of all patches; the `oData` of one patch is used again for the next one. -/
def allNumbers : List (ℕ × ℕ) → ObjectData → Option (List ((ℕ × ℕ) × PatchInfo))
  | [], _ => some []
  | index :: indices, oData => (o.getStorage nModes g index oData).bind fun oData =>
    (allNumbers indices oData).map ((index, o.numbers oData) :: ·)

end Object

/-- The positions of all patches, and the offset behind them. -/
def placePatches (imgSize : ℤ) : List ((ℕ × ℕ) × PatchInfo) → ℤ → Option (List ((ℕ × ℕ) × PatchInfo) × ℤ)
  | [], offset => some ([], offset)
  | (index, pi) :: infos, offset => (pi.placeAll imgSize Quantity.all offset pi.pos).bind fun x =>
    (placePatches imgSize infos x.2).map fun y => ((index, { pi with pos := x.1 }) :: y.1, y.2)

/-- The patches in the file, with `uint16_t` rows and columns. -/
def Grid.indices (g : Grid) : List (ℕ × ℕ) :=
  (List.range (g.nPatchesY % 2 ^ 16)).flatMap fun y => (List.range (g.nPatchesX % 2 ^ 16)).map fun x => (y, x)

/-- `Object::writeMomfbd`, as far as it is about the patches.  The block for the file is as large as the sizes
that make up the positions; nothing is written if there cannot be as much memory. -/
def Object.writeMomfbd (nModes : BitVec 16) (hasModes : Bool) (g : Grid) (o : Object) :
    Option (List ((ℕ × ℕ) × PatchInfo)) :=
  o.imgSize.bind fun imgSize => (o.allNumbers nModes g g.indices .new).bind fun infos =>
    (placePatches imgSize infos (o.modeSize nModes hasModes)).bind fun x =>
      if x.2 % 2 ^ 64 < 2 ^ 63 then some x.1 else none

/-! ## Agreement -/

/-- The part of the file that belongs to a quantity is what is copied of its array. -/
def PatchInfo.PointsTo (pi : PatchInfo) (imgSize : ℤ) (modeSize : ℕ) (q : Quantity) (v : View) : Prop :=
  pi.bytes imgSize q = some (4 * v.nElements : ℤ) ∧ (v.nElements ≠ 0 → pi.pos q = modeSize + 4 * v.ptr)

section Agreement

variable (nModes : BitVec 16) (hasModes : Bool) (g : Grid) (o : Object)

/-- For every patch, the arrays that are wrapped are apart and fill the floats that belong to the patch, and
the file has each of them where it says so. -/
def Object.LayoutAgrees : Prop :=
  ∃ resultSize imgSize infos, o.getResultSize nModes = some resultSize ∧ o.imgSize = some imgSize ∧
    o.writeMomfbd nModes hasModes g = some infos ∧
    ∀ y < g.nPatchesY, ∀ x < g.nPatchesX, ∃ oData pi, o.getStorage nModes g (y, x) .new = some oData ∧
      ((y, x), pi) ∈ infos ∧
      Fill (o.wrapped.map fun q => (oData q).block) ((y * g.nPatchesX + x) * resultSize) resultSize ∧
      ∀ q, pi.PointsTo imgSize (o.modeSize nModes hasModes) q (oData q)

/-- The floats of a quantity. -/
def Object.floats (q : Quantity) : ℕ := if o.asks q then (o.sizes nModes q).prod else 0

/-- No size is zero beside others, every product and every number fits in the type it is taken in, and the
patches can be counted. -/
structure Object.LayoutFits : Prop where
  solid : ∀ q, o.asks q → Solid (o.sizes nModes q)
  product : ∀ q, o.asks q → (o.sizes nModes q).prod < if q = .cobj ∨ q = .res then 2 ^ 32 else 2 ^ 31
  images : o.asks .cobj ∨ o.asks .res → o.nObjectImages.toNat < 2 ^ 31
  some : (Quantity.all.map (o.floats nModes)).sum ≠ 0
  rows : g.nPatchesY < 2 ^ 16
  columns : g.nPatchesX < 2 ^ 16
  memory : o.modeSize nModes hasModes +
    4 * (g.nPatchesY * g.nPatchesX * (Quantity.all.map (o.floats nModes)).sum) < 2 ^ 63

end Agreement

/-! ## Positions -/

section Positions

variable {imgSize : ℤ} {pi placed : PatchInfo} {b : Quantity → ℤ}

/-- The sizes do not depend on positions. -/
theorem bytes_pos (pos : Quantity → ℤ) : ({ pi with pos := pos } : PatchInfo).bytes imgSize = pi.bytes imgSize := by
  funext q
  cases q <;> rfl

/-- **The positions in a patch.** -/
theorem placeAll_eq : ∀ {qs : List Quantity} {offset : ℤ} {pos : Quantity → ℤ}, qs.Nodup →
    (∀ q ∈ qs, pi.bytes imgSize q = some (b q)) →
    ∃ pos', pi.placeAll imgSize qs offset pos = some (pos', offset + (qs.map b).sum) ∧
      (∀ q ∈ qs, pos' q = offset + ((before q qs).map b).sum) ∧ ∀ q ∉ qs, pos' q = pos q
  | [], offset, pos, _, _ => by
    refine ⟨pos, ?_, fun q hq => absurd hq List.not_mem_nil, fun q _ => rfl⟩
    rw [PatchInfo.placeAll, List.map_nil, List.sum_nil, add_zero]
  | q :: qs, offset, pos, hnodup, h => by
    obtain ⟨hq, hqs⟩ := List.nodup_cons.1 hnodup
    obtain ⟨hb, hbs⟩ := List.forall_mem_cons.1 h
    obtain ⟨pos', hplace, hpos, hothers⟩ := @placeAll_eq qs (offset + b q) (Function.update pos q offset) hqs hbs
    refine ⟨pos', ?_, List.forall_mem_cons.2 ⟨?_, fun q' hq' => ?_⟩, fun q' hq' => ?_⟩
    · rw [PatchInfo.placeAll, hb, Option.bind_some, hplace, List.map_cons, List.sum_cons, add_assoc]
    · rw [hothers q hq, Function.update_self, before_self]
      exact (add_zero offset).symm
    · have hne : q ≠ q' := fun heq => hq (heq ▸ hq')
      rw [hpos q' hq', before_of_ne hne, List.map_cons, List.sum_cons, add_assoc]
    · obtain ⟨hne, hq'⟩ := not_or.1 (mt List.mem_cons.2 hq')
      rw [hothers q' hq', Function.update_of_ne hne]

/-- The patches in the file are those that were to be placed, with the same sizes. -/
theorem mem_placePatches {index : ℕ × ℕ} : ∀ {infos ys : List ((ℕ × ℕ) × PatchInfo)} {offset offset' : ℤ},
    placePatches imgSize infos offset = some (ys, offset') → (index, placed) ∈ ys →
    ∃ pi, (index, pi) ∈ infos ∧ placed.bytes imgSize = pi.bytes imgSize
  | [], _, _, _, h, hmem => by
    obtain ⟨rfl, -⟩ := Prod.mk.inj (Option.some.inj h)
    exact absurd hmem List.not_mem_nil
  | (index', pi) :: infos, _, _, _, h, hmem => by
    obtain ⟨x, hx, h⟩ := Option.bind_eq_some_iff.1 h
    obtain ⟨y, hy, h⟩ := Option.map_eq_some_iff.1 h
    obtain ⟨rfl, -⟩ := Prod.mk.inj h
    rcases List.mem_cons.1 hmem with heq | hmem
    · obtain ⟨rfl, rfl⟩ := Prod.mk.inj heq
      exact ⟨pi, List.mem_cons_self, bytes_pos _⟩
    · obtain ⟨pi', hpi', hbytes⟩ := mem_placePatches hy hmem
      exact ⟨pi', List.mem_cons_of_mem _ hpi', hbytes⟩

/-- **The positions of patches of one size**: each is behind the patches before it. -/
theorem placePatches_eq (h : ∀ q, pi.bytes imgSize q = some (b q)) : ∀ (indices : List (ℕ × ℕ)) (offset : ℤ),
    ∃ ys, placePatches imgSize (indices.map (·, pi)) offset =
        some (ys, offset + indices.length * (Quantity.all.map b).sum) ∧
      ∀ as index bs, indices = as ++ index :: bs → ∃ placed, (index, placed) ∈ ys ∧
        placed.bytes imgSize = pi.bytes imgSize ∧
        ∀ q, placed.pos q = offset + as.length * (Quantity.all.map b).sum + ((before q Quantity.all).map b).sum
  | [], offset => by
    refine ⟨[], ?_, fun as index bs heq => absurd heq.symm (by simp)⟩
    rw [List.map_nil, placePatches, List.length_nil, Nat.cast_zero, zero_mul, add_zero]
  | index :: indices, offset => by
    obtain ⟨pos, hplace, hpos, -⟩ := @placeAll_eq imgSize pi b Quantity.all offset pi.pos (by decide) fun q _ => h q
    obtain ⟨ys, hys, hall⟩ := placePatches_eq h indices (offset + (Quantity.all.map b).sum)
    refine ⟨(index, { pi with pos := pos }) :: ys, ?_, fun as index' bs heq => ?_⟩
    · rw [List.map_cons, placePatches, hplace, Option.bind_some, hys, Option.map_some, List.length_cons]
      push_cast
      rw [add_mul, one_mul, add_assoc, add_comm _ (Quantity.all.map b).sum]
    · cases as with
      | nil =>
        obtain ⟨rfl, -⟩ := List.cons.inj heq
        refine ⟨_, List.mem_cons_self, bytes_pos pos, fun q => ?_⟩
        have hq : q ∈ Quantity.all := by cases q <;> decide
        refine (hpos q hq).trans ?_
        rw [List.length_nil, Nat.cast_zero, zero_mul, add_zero]
      | cons a as =>
        obtain ⟨placed, hmem, hbytes, hplaced⟩ := hall as index' bs (List.cons.inj heq).2
        refine ⟨placed, List.mem_cons_of_mem _ hmem, hbytes, fun q => ?_⟩
        rw [hplaced q, List.length_cons]
        push_cast
        rw [add_mul, one_mul, add_assoc offset, add_comm (Quantity.all.map b).sum]

end Positions

/-! ## The patches of a grid -/

section Indices

variable {g : Grid} {x y : ℕ}

theorem mem_indices : (y, x) ∈ g.indices ↔ y < g.nPatchesY % 2 ^ 16 ∧ x < g.nPatchesX % 2 ^ 16 := by
  simp [Grid.indices]

/-- The numbers below one of them. -/
theorem range_split {n k : ℕ} (h : k < n) : ∃ bs, List.range n = List.range k ++ k :: bs := by
  obtain ⟨m, rfl⟩ := Nat.exists_eq_add_of_lt h
  rw [Nat.add_assoc, List.range_add, List.range_succ_eq_map, List.map_cons, Nat.add_zero]
  exact ⟨_, rfl⟩

theorem length_rows {α : Type*} (f : ℕ → ℕ → α) (n m : ℕ) :
    ((List.range n).flatMap fun y => (List.range m).map (f y)).length = n * m := by
  induction n with
  | zero => rw [Nat.zero_mul]; rfl
  | succ n ih =>
    rw [List.range_succ, List.flatMap_append, List.length_append, ih, List.flatMap_singleton, List.length_map,
      List.length_range, Nat.succ_mul]

/-- **A patch stands behind the rows before it, and the patches before it in its row.** -/
theorem indices_split (hrows : g.nPatchesY < 2 ^ 16) (hcolumns : g.nPatchesX < 2 ^ 16) (hy : y < g.nPatchesY)
    (hx : x < g.nPatchesX) : ∃ as bs, g.indices = as ++ (y, x) :: bs ∧ as.length = y * g.nPatchesX + x := by
  obtain ⟨cs, hcs⟩ := range_split hy
  obtain ⟨ds, hds⟩ := range_split hx
  let row : ℕ → List (ℕ × ℕ) := fun y => (List.range g.nPatchesX).map fun x => (y, x)
  have hrow : row y = (List.range x).map (fun x => (y, x)) ++ (y, x) :: ds.map fun x => (y, x) := by
    change (List.range g.nPatchesX).map _ = _
    rw [hds, List.map_append, List.map_cons]
  refine ⟨(List.range y).flatMap row ++ (List.range x).map fun x => (y, x),
    (ds.map fun x => (y, x)) ++ cs.flatMap row, ?_, ?_⟩
  · have hindices : g.indices = (List.range g.nPatchesY).flatMap row := by
      rw [Grid.indices, Nat.mod_eq_of_lt hrows, Nat.mod_eq_of_lt hcolumns]
    rw [hindices, hcs, List.flatMap_append, List.flatMap_cons, hrow]
    simp only [List.append_assoc, List.cons_append]
  · rw [List.length_append, length_rows Prod.mk, List.length_map, List.length_range]

theorem length_indices (hrows : g.nPatchesY < 2 ^ 16) (hcolumns : g.nPatchesX < 2 ^ 16) :
    g.indices.length = g.nPatchesY * g.nPatchesX := by
  rw [Grid.indices, Nat.mod_eq_of_lt hrows, Nat.mod_eq_of_lt hcolumns]
  exact length_rows Prod.mk _ _

end Indices

/-! ## Numbers -/

section Numbers

variable {nModes : BitVec 16} {o : Object} {oData : ObjectData} {q : Quantity} {t : IntType} {v w : ℤ}

/-- The arrays of an object, wherever they are. -/
def Object.shape (nModes : BitVec 16) (o : Object) : ObjectData := fun q => ⟨0, .construct (o.sizes nModes q)⟩

theorem ite_asked {a : Bool} {b c : Arrays.Array} (h : a = true → b = c) (P : Arrays.Array → Prop) [DecidablePred P]
    (f : Arrays.Array → ℤ) : (if a = true ∧ P b then f b else 0) = if a = true ∧ P c then f c else 0 := by
  by_cases ha : a = true
  · rw [h ha]
  · rw [if_neg fun hand => ha hand.1, if_neg fun hand => ha hand.1]

/-- **The numbers are those of the arrays**, the same for all patches. -/
theorem numbers_eq (h : ∀ q, o.asks q = true → (oData q).array = .construct (o.sizes nModes q)) :
    o.numbers oData = o.numbers (o.shape nModes) := by
  unfold Object.numbers View.nDimensions View.dimSize Object.shape
  congr 1
  · exact ite_asked (h .psf) (fun a => 1 < a.sizes.length) fun a => IntType.int.wrap (a.sizes.getD 0 0 : ℕ)
  · exact ite_asked (h .cobj) (fun a => 1 < a.sizes.length) fun a => IntType.int.wrap (a.sizes.getD 0 0 : ℕ)
  · exact ite_asked (h .res) (fun a => 1 < a.sizes.length) fun a => IntType.int.wrap (a.sizes.getD 0 0 : ℕ)
  · exact ite_asked (h .alpha) (fun a => a.sizes.length = 2) fun a => IntType.int.wrap (a.sizes.getD 0 0 : ℕ)
  · exact ite_asked (h .alpha) (fun a => a.sizes.length = 2) fun a => IntType.int.wrap (a.sizes.getD 1 0 : ℕ)
  · exact ite_asked (h .div) (fun a => 1 < a.sizes.length) fun a => IntType.int.wrap (a.sizes.getD 0 0 : ℕ)
  · exact ite_asked (h .div) (fun a => 1 < a.sizes.length) fun _ => o.pupilPixels.toNat
  · exact ite_asked (h .div) (fun a => 1 < a.sizes.length) fun _ => o.pupilPixels.toNat

/-- The dimensions of an array whose sizes are not zero, unless all are. -/
theorem sizes_of_solid {sizes : List ℕ} (h : Solid sizes) :
    (Arrays.Array.construct sizes).sizes = if 0 ∈ sizes then [] else sizes := by
  rw [Arrays.Array.sizes_construct]
  split_ifs with hzero
  · exact filter_eq_nil.2 (h hzero)
  · exact filter_eq_self hzero

theorem arith_eq_some (h : t.signed = true) : t.arith v = some w ↔ t.Fits v ∧ v = w := by
  unfold IntType.arith
  by_cases hfits : t.Fits v
  · rw [if_pos hfits, Option.some.injEq, and_iff_right hfits]
  · rw [if_neg hfits, if_pos h]
    exact iff_of_false (by simp) fun hand => hfits hand.1

theorem wrap_int {n : ℕ} (h : n < 2 ^ 31) : IntType.int.wrap n = n :=
  IntType.wrap_of_fits (show -2 ^ 31 ≤ (n : ℤ) ∧ (n : ℤ) ≤ 2 ^ 31 - 1 by omega)

/-- A number of pixels stands for itself only if it fits in an `int32_t`. -/
theorem lt_of_wrap_int {n : ℕ} (h : IntType.int.wrap n = n) : n < 2 ^ 31 := by
  have hfits : -2 ^ 31 ≤ IntType.int.wrap n ∧ IntType.int.wrap n ≤ 2 ^ 31 - 1 := IntType.fits_wrap _ _
  omega

/-- A number that is taken from the dimensions of an array, where there are none if all sizes are zero. -/
theorem number_of_solid {sizes : List ℕ} {asked : Bool} (h : asked = true → Solid sizes) (P : List ℕ → Prop)
    [DecidablePred P] (hP : P sizes) (hnil : ¬P []) (f : List ℕ → ℤ) (hf : (∀ n ∈ sizes, n = 0) → f sizes = 0) :
    (if asked = true ∧ P (Arrays.Array.construct sizes).sizes then f (Arrays.Array.construct sizes).sizes else 0) =
      if asked = true then f sizes else 0 := by
  by_cases hasked : asked = true
  · rw [if_pos hasked, sizes_of_solid (h hasked)]
    by_cases hzero : 0 ∈ sizes
    · rw [if_pos hzero, if_neg fun hand => hnil hand.2, hf (h hasked hzero)]
    · rw [if_neg hzero, if_pos ⟨hasked, hP⟩]
  · rw [if_neg fun hand => hasked hand.1, if_neg hasked]

/-- **The numbers of a patch.** -/
theorem numbers_shape (h : ∀ q, o.asks q = true → Solid (o.sizes nModes q)) :
    o.numbers (o.shape nModes) =
      { npsf := if o.asks .psf = true then IntType.int.wrap o.nPSF else 0
        nobj := if o.asks .cobj = true then IntType.int.wrap o.nObjectImages.toNat else 0
        nres := if o.asks .res = true then IntType.int.wrap o.nObjectImages.toNat else 0
        nalpha := if o.asks .alpha = true then IntType.int.wrap o.nObjectImages.toNat else 0
        nm := if o.asks .alpha = true then IntType.int.wrap nModes.toNat else 0
        ndiv := if o.asks .div = true then IntType.int.wrap o.channels.length else 0
        nphx := if o.asks .div = true then o.pupilPixels.toNat else 0
        nphy := if o.asks .div = true then o.pupilPixels.toNat else 0
        pos := fun _ => 0 } := by
  have hfirst : ∀ q, (o.sizes nModes q).length = 3 → (if o.asks q = true ∧ 1 < (o.shape nModes q).nDimensions then
      IntType.int.wrap ((o.shape nModes q).dimSize 0) else 0) =
      if o.asks q = true then IntType.int.wrap ((o.sizes nModes q).getD 0 0 : ℕ) else 0 := by
    intro q hq
    refine number_of_solid (h q) (fun s => 1 < s.length) (by omega) (by decide)
      (fun s => IntType.int.wrap (s.getD 0 0 : ℕ)) fun hall => ?_
    obtain ⟨a, s, hs⟩ := List.exists_cons_of_ne_nil (@sizes_ne_nil nModes o q)
    rw [hs, List.getD_cons_zero, hall a (hs ▸ List.mem_cons_self)]
    rfl
  have hpixels : (if o.asks .div = true ∧ 1 < (o.shape nModes .div).nDimensions then (o.pupilPixels.toNat : ℤ)
      else 0) = if o.asks .div = true then (o.pupilPixels.toNat : ℤ) else 0 := by
    refine number_of_solid (h .div) (fun s => 1 < s.length) (show 1 < 3 by decide) (by decide)
      (fun _ => o.pupilPixels.toNat) fun hall => ?_
    rw [hall o.pupilPixels.toNat (by simp [Object.sizes])]
    rfl
  have halpha : ∀ i, (if o.asks .alpha = true ∧ (o.shape nModes .alpha).nDimensions = 2 then
      IntType.int.wrap ((o.shape nModes .alpha).dimSize i) else 0) =
      if o.asks .alpha = true then IntType.int.wrap ((o.sizes nModes .alpha).getD i 0 : ℕ) else 0 := by
    intro i
    refine number_of_solid (h .alpha) (fun s => s.length = 2) rfl (by decide)
      (fun s => IntType.int.wrap (s.getD i 0 : ℕ)) fun hall => ?_
    rw [List.getD_eq_getElem?_getD]
    cases hi : (o.sizes nModes .alpha)[i]? with
    | none => rfl
    | some n =>
      rw [Option.getD_some, hall n (List.mem_of_getElem? hi)]
      rfl
  exact PatchInfo.ext (hfirst .psf rfl) (hfirst .cobj rfl) (hfirst .res rfl) (halpha 0) (halpha 1) (hfirst .div rfl)
    hpixels hpixels rfl

end Numbers

/-! ## Sizes in the file -/

section Bytes

variable {nModes : BitVec 16} {o : Object} {q : Quantity}

theorem fits_int64 {n : ℕ} (h : n < 2 ^ 63) : int64.Fits n :=
  show -2 ^ 63 ≤ (n : ℤ) ∧ (n : ℤ) ≤ 2 ^ 63 - 1 by omega

theorem fits_int {n : ℕ} (h : n < 2 ^ 31) : IntType.int.Fits n :=
  show -2 ^ 31 ≤ (n : ℤ) ∧ (n : ℤ) ≤ 2 ^ 31 - 1 by omega

theorem prod_three (a b : ℕ) : [a, b, b].prod = a * (b * b) := by simp

/-- **Images in the file**: as many as there are, if their number fits. -/
theorem bytes_images_iff {a b : ℕ} (hsolid : Solid [a, b, b]) (hprod : [a, b, b].prod < 2 ^ 32) :
    int64.arith (IntType.int.wrap a * (4 * (b * b : ℕ))) = some (4 * ([a, b, b].prod : ℕ) : ℤ) ↔ a < 2 ^ 31 := by
  rw [prod_three] at hprod ⊢
  rw [arith_eq_some rfl]
  constructor
  · rintro ⟨-, heq⟩
    rcases Nat.eq_zero_or_pos b with rfl | hb
    · rw [hsolid (by simp) a List.mem_cons_self]
      decide
    · have hpos : ((b * b : ℕ) : ℤ) ≠ 0 := by exact_mod_cast (Nat.mul_pos hb hb).ne'
      refine lt_of_wrap_int (mul_right_cancel₀ hpos ?_)
      push_cast at heq ⊢
      linarith
  · intro ha
    have hval : IntType.int.wrap a * (4 * (b * b : ℕ)) = ((4 * (a * (b * b)) : ℕ) : ℤ) := by
      rw [wrap_int ha]
      push_cast
      ring
    rw [hval]
    exact ⟨fits_int64 (by omega), by push_cast; ring⟩

/-- The coefficients in the file. -/
theorem bytes_alpha_iff {a b : ℕ} (hb : b < 2 ^ 31) (hsolid : Solid [a, b]) :
    (IntType.int.arith (IntType.int.wrap a * IntType.int.wrap b)).map (4 * ·) = some (4 * ([a, b].prod : ℕ) : ℤ) ↔
      [a, b].prod < 2 ^ 31 := by
  have htwo : [a, b].prod = a * b := by simp
  rw [htwo, Option.map_eq_some_iff, wrap_int hb]
  constructor
  · rintro ⟨v, hv, heq⟩
    obtain ⟨hfits, rfl⟩ := (arith_eq_some rfl).1 hv
    have hlt : -2 ^ 31 ≤ IntType.int.wrap a * b ∧ IntType.int.wrap a * b ≤ 2 ^ 31 - 1 := hfits
    omega
  · intro hlt
    have ha : a < 2 ^ 31 := by
      rcases Nat.eq_zero_or_pos b with rfl | hpos
      · rw [hsolid (by simp) a List.mem_cons_self]
        decide
      · exact lt_of_le_of_lt (Nat.le_mul_of_pos_right a hpos) hlt
    refine ⟨((a * b : ℕ) : ℤ), (arith_eq_some rfl).2 ?_, rfl⟩
    rw [wrap_int ha, ← Nat.cast_mul]
    exact ⟨fits_int hlt, rfl⟩

/-- The diversities in the file. -/
theorem bytes_div {a b : ℕ} (ha : a < 2 ^ 31) (hprod : [a, b, b].prod < 2 ^ 31) :
    ((IntType.int.arith (IntType.int.wrap a * b)).bind fun n => (IntType.int.arith (n * b)).map (4 * ·)) =
      some (4 * ([a, b, b].prod : ℕ) : ℤ) := by
  rw [prod_three] at hprod ⊢
  have hle : a * b < 2 ^ 31 := by
    rcases Nat.eq_zero_or_pos b with rfl | hb
    · rw [Nat.mul_zero]
      decide
    · rw [← Nat.mul_assoc] at hprod
      exact lt_of_le_of_lt (Nat.le_mul_of_pos_right _ hb) hprod
  have hfirst : IntType.int.arith (IntType.int.wrap a * b) = some ((a * b : ℕ) : ℤ) := by
    rw [wrap_int ha, ← Nat.cast_mul]
    exact (arith_eq_some rfl).2 ⟨fits_int hle, rfl⟩
  have hsecond : IntType.int.arith (((a * b : ℕ) : ℤ) * b) = some ((a * (b * b) : ℕ) : ℤ) := by
    rw [← Nat.cast_mul, Nat.mul_assoc]
    exact (arith_eq_some rfl).2 ⟨fits_int hprod, rfl⟩
  rw [hfirst, Option.bind_some, hsecond, Option.map_some]

/-- What else a quantity needs in the file: that its number and its size fit in an `int`. -/
def Countable (nModes : BitVec 16) (o : Object) : Quantity → Prop
  | .cobj | .res => o.nObjectImages.toNat < 2 ^ 31
  | .alpha => (o.sizes nModes .alpha).prod < 2 ^ 31
  | _ => True

theorem imgSize_eq {imgSize : ℤ} (h : o.imgSize = some imgSize) :
    imgSize = 4 * (o.patchSize.toNat * o.patchSize.toNat : ℕ) := by
  obtain ⟨m, hm, rfl⟩ := Option.map_eq_some_iff.1 h
  unfold intMul at hm
  split_ifs at hm
  rw [Option.some.inj hm]

/-- **The sizes in the file** are those of the arrays where numbers and sizes fit. -/
theorem bytes_iff {imgSize : ℤ} (himg : o.imgSize = some imgSize)
    (hsolid : ∀ q, o.asks q = true → Solid (o.sizes nModes q))
    (hprod : o.asks q = true → (o.sizes nModes q).prod < if q.wide then 2 ^ 32 else 2 ^ 31) :
    (o.numbers (o.shape nModes)).bytes imgSize q = some (4 * (o.floats nModes q : ℕ) : ℤ) ↔
      (o.asks q = true → Countable nModes o q) := by
  rw [numbers_shape hsolid, imgSize_eq himg]
  by_cases hasked : o.asks q = true
  · have hfloats : o.floats nModes q = (o.sizes nModes q).prod := if_pos hasked
    rw [hfloats, forall_prop_of_true hasked]
    have hsolid := hsolid q hasked
    have hprod := hprod hasked
    cases q with
    | img =>
      have htwo : (o.sizes nModes .img).prod = o.patchSize.toNat * o.patchSize.toNat := by simp [Object.sizes]
      rw [htwo]
      exact iff_of_true rfl trivial
    | psf =>
      have hlt : o.nPSF < 2 ^ 31 := lt_trans (nPSF_lt o) (by decide)
      have hbytes := (bytes_images_iff hsolid (lt_trans hprod (by decide))).2 hlt
      dsimp only [PatchInfo.bytes]
      rw [if_pos hasked]
      exact iff_of_true hbytes trivial
    | cobj =>
      dsimp only [PatchInfo.bytes]
      rw [if_pos hasked]
      exact bytes_images_iff hsolid hprod
    | res =>
      dsimp only [PatchInfo.bytes]
      rw [if_pos hasked]
      exact bytes_images_iff hsolid hprod
    | alpha =>
      dsimp only [PatchInfo.bytes]
      rw [if_pos hasked, if_pos hasked]
      exact bytes_alpha_iff (lt_trans nModes.isLt (by decide)) hsolid
    | div =>
      dsimp only [PatchInfo.bytes]
      rw [if_pos hasked, if_pos hasked]
      exact iff_of_true (bytes_div (lt_trans o.channels_lt (by decide)) hprod) trivial
  · have hfloats : o.floats nModes q = 0 := if_neg hasked
    have hzero : int64.arith (0 * (4 * (o.patchSize.toNat * o.patchSize.toNat : ℕ))) = some 0 := by
      rw [zero_mul]
      rfl
    rw [hfloats]
    refine iff_of_true ?_ fun h => absurd h hasked
    cases q with
    | img => exact absurd rfl hasked
    | psf | cobj | res =>
      dsimp only [PatchInfo.bytes]
      rw [if_neg hasked]
      exact hzero
    | alpha | div =>
      dsimp only [PatchInfo.bytes]
      rw [if_neg hasked, if_neg hasked]
      rfl

end Bytes

/-! ## Sizes in memory -/

section Sums

variable {nModes : BitVec 16} {o : Object} {oData d : ObjectData} {q : Quantity} {p : ℕ}

/-- Every quantity that is stored has as much room as its array needs, and that is the product of its sizes. -/
structure Object.Exact (nModes : BitVec 16) (o : Object) : Prop where
  room : ∀ q, o.asks q = true → o.step nModes q = some (o.floats nModes q)
  array : ∀ q, o.asks q = true → (Arrays.Array.construct (o.sizes nModes q)).nElements_ = o.floats nModes q

theorem exact_iff_solid : o.Exact nModes ↔ ∀ q, o.asks q = true → Solid (o.sizes nModes q) ∧
    (o.sizes nModes q).prod < if q.wide then 2 ^ 32 else 2 ^ 31 := by
  constructor
  · intro h q hq
    exact step_eq_nElements.1 (h.array q hq ▸ h.room q hq)
  · intro h
    have harray : ∀ q, o.asks q = true →
        (Arrays.Array.construct (o.sizes nModes q)).nElements_ = o.floats nModes q := by
      intro q hq
      rw [Object.floats, if_pos hq]
      exact (nElements_eq_prod sizes_ne_nil prod_filter_lt).2 (h q hq).1
    exact ⟨fun q hq => harray q hq ▸ step_eq_nElements.2 (h q hq), harray⟩

theorem Object.Exact.room_eq (h : o.Exact nModes) (hq : o.asks q = true) : o.room nModes q = o.floats nModes q := by
  rw [Object.room, h.room q hq, Option.getD_some]

theorem Object.Exact.kept (h : o.Exact nModes) :
    (fun q => if o.asks q = true then o.room nModes q else 0) = o.floats nModes := by
  funext q
  by_cases hq : o.asks q = true
  · rw [if_pos hq, h.room_eq hq]
  · rw [if_neg hq, Object.floats, if_neg hq]

theorem Object.Exact.sum (h : o.Exact nModes) :
    (o.wrapped.map (o.room nModes)).sum = (Quantity.all.map (o.floats nModes)).sum := by
  rw [Object.wrapped, sum_filter, h.kept]

theorem Object.Exact.getResultSize (h : o.Exact nModes) (hlt : (Quantity.all.map (o.floats nModes)).sum < 2 ^ 64) :
    o.getResultSize nModes = some (Quantity.all.map (o.floats nModes)).sum := by
  have hsteps : ∀ q ∈ o.wrapped, o.step nModes q = some (o.room nModes q) := by
    intro q hq
    rw [h.room_eq (mem_wrapped.1 hq), h.room q (mem_wrapped.1 hq)]
  rw [Object.getResultSize, addSizes_eq (by decide) hsteps, h.sum, Nat.zero_add, Nat.mod_eq_of_lt hlt]

/-- **The arrays fill what the sizes add up to**, and stand behind each other as the sizes do. -/
theorem Object.Exact.wraps (h : o.Exact nModes) (hd : Wraps nModes o o.wrapped p .new d) :
    Fill (o.wrapped.map fun q => (d q).block) p (Quantity.all.map (o.floats nModes)).sum ∧
      ∀ q, (d q).nElements = o.floats nModes q ∧ (o.asks q = true →
        (d q).ptr = p + ((before q Quantity.all).map (o.floats nModes)).sum) := by
  refine ⟨?_, fun q => ⟨?_, fun hq => ?_⟩⟩
  · have hsteps : (o.wrapped.map fun q => (o.room nModes q,
        (Arrays.Array.construct (o.sizes nModes q)).nElements_)).map Prod.fst = o.wrapped.map (o.room nModes) :=
      List.map_map
    rw [hd.blocks (wrapped_nodup o), ← h.sum, ← hsteps]
    refine fill_place fun s hs => ?_
    obtain ⟨q, hq, rfl⟩ := List.mem_map.1 hs
    exact (h.room_eq (mem_wrapped.1 hq)).trans (h.array q (mem_wrapped.1 hq)).symm
  · by_cases hq : o.asks q = true
    · rw [View.nElements, hd.array q (mem_wrapped.2 hq), h.array q hq]
    · rw [hd.others q (mt mem_wrapped.1 hq), Object.floats, if_neg hq]
      rfl
  · rw [hd.ptr q (mem_wrapped.2 hq), Object.wrapped, sum_before_filter hq, h.kept]

end Sums

/-! ## Writing all patches -/

section Write

variable {nModes : BitVec 16} {hasModes : Bool} {g : Grid} {o : Object} {index : ℕ × ℕ}

theorem numbers_getStorage {oData d : ObjectData} (h : o.getStorage nModes g index oData = some d) :
    o.numbers d = o.numbers (o.shape nModes) := by
  obtain ⟨_, _, _, _, _, _, _, hd⟩ := getStorage_some h
  exact numbers_eq fun q hq => hd.array q (mem_wrapped.2 hq)

theorem allNumbers_some : ∀ {indices : List (ℕ × ℕ)} {oData : ObjectData} {infos : List ((ℕ × ℕ) × PatchInfo)},
    o.allNumbers nModes g indices oData = some infos → infos = indices.map (·, o.numbers (o.shape nModes))
  | [], _, _, h => (Option.some.inj h).symm
  | index :: indices, _, _, h => by
    obtain ⟨d, hd, h⟩ := Option.bind_eq_some_iff.1 h
    obtain ⟨rest, hrest, rfl⟩ := Option.map_eq_some_iff.1 h
    rw [allNumbers_some hrest, numbers_getStorage hd, List.map_cons]

theorem exists_allNumbers : ∀ {indices : List (ℕ × ℕ)} {oData : ObjectData},
    (∀ index ∈ indices, ∀ oData, ∃ d, o.getStorage nModes g index oData = some d) →
    o.allNumbers nModes g indices oData = some (indices.map (·, o.numbers (o.shape nModes)))
  | [], _, _ => rfl
  | index :: indices, oData, h => by
    obtain ⟨hindex, hindices⟩ := List.forall_mem_cons.1 h
    obtain ⟨d, hd⟩ := hindex oData
    rw [Object.allNumbers, hd, Option.bind_some, exists_allNumbers hindices, numbers_getStorage hd]
    rfl

/-- A slice of the results is inside them. -/
theorem slice_le {x y n : ℕ} (hy : y < g.nPatchesY) (hx : x < g.nPatchesX) :
    (y * g.nPatchesX + x) * n ≤ g.nPatchesY * g.nPatchesX * n := by
  refine Nat.mul_le_mul_right n ?_
  have hrow := Nat.mul_le_mul_right g.nPatchesX hy
  rw [Nat.succ_mul] at hrow
  omega

theorem modeSize_lt (nModes : BitVec 16) (hasModes : Bool) (o : Object) : o.modeSize nModes hasModes < 2 ^ 63 := by
  have hmodes := nModes.isLt
  have hpp := o.pupilPixels.isLt
  unfold Object.modeSize
  split_ifs
  · have hle := Nat.mul_le_mul (Nat.mul_le_mul (show nModes.toNat + 1 ≤ 2 ^ 16 by omega)
      (show o.pupilPixels.toNat ≤ 2 ^ 16 by omega)) (show o.pupilPixels.toNat ≤ 2 ^ 16 by omega)
    omega
  · decide

end Write

/-! ## The layouts -/

section Layouts

variable {nModes : BitVec 16} {hasModes : Bool} {g : Grid} {o : Object}

theorem Object.LayoutFits.exact (h : o.LayoutFits nModes hasModes g) : o.Exact nModes := by
  refine exact_iff_solid.2 fun q hq => ⟨h.solid q hq, ?_⟩
  have hprod := h.product q hq
  cases q with
  | alpha => exact lt_trans hprod (by decide)
  | _ => exact hprod

theorem Object.LayoutFits.countable (h : o.LayoutFits nModes hasModes g) (q : Quantity) (hq : o.asks q = true) :
    Countable nModes o q := by
  cases q with
  | cobj => exact h.images (.inl hq)
  | res => exact h.images (.inr hq)
  | alpha => exact h.product .alpha hq
  | img | psf | div => trivial

theorem sum_bytes (nModes : BitVec 16) (o : Object) (qs : List Quantity) :
    (qs.map fun q => (4 * (o.floats nModes q : ℕ) : ℤ)).sum = 4 * ((qs.map (o.floats nModes)).sum : ℕ) := by
  induction qs with
  | nil => rfl
  | cons q qs ih =>
    rw [List.map_cons, List.sum_cons, ih, List.map_cons, List.sum_cons]
    push_cast
    ring

/-- Where the sizes agree, the whole file is as long as the modes and the results. -/
theorem placePatches_grid {imgSize : ℤ} (himg : o.imgSize = some imgSize) (hexact : o.Exact nModes)
    (hcount : ∀ q, o.asks q = true → Countable nModes o q) (hrows : g.nPatchesY < 2 ^ 16)
    (hcolumns : g.nPatchesX < 2 ^ 16) :
    ∃ ys, placePatches imgSize (g.indices.map (·, o.numbers (o.shape nModes))) (o.modeSize nModes hasModes) =
        some (ys, ((o.modeSize nModes hasModes +
          4 * (g.nPatchesY * g.nPatchesX * (Quantity.all.map (o.floats nModes)).sum) : ℕ) : ℤ)) ∧
      ∀ y < g.nPatchesY, ∀ x < g.nPatchesX, ∃ placed : PatchInfo, ((y, x), placed) ∈ ys ∧
        (∀ q, placed.bytes imgSize q = some (4 * (o.floats nModes q : ℕ) : ℤ)) ∧
        ∀ q, placed.pos q = o.modeSize nModes hasModes + 4 * (((y * g.nPatchesX + x) *
          (Quantity.all.map (o.floats nModes)).sum + ((before q Quantity.all).map (o.floats nModes)).sum : ℕ) : ℤ) := by
  have hiff := exact_iff_solid.1 hexact
  have hbytes : ∀ q, (o.numbers (o.shape nModes)).bytes imgSize q = some (4 * (o.floats nModes q : ℕ) : ℤ) :=
    fun q => (bytes_iff himg (fun q hq => (hiff q hq).1) fun hq => (hiff q hq).2).2 (hcount q)
  obtain ⟨ys, hys, hall⟩ := placePatches_eq hbytes g.indices (o.modeSize nModes hasModes)
  refine ⟨ys, ?_, fun y hy x hx => ?_⟩
  · rw [hys, sum_bytes, length_indices hrows hcolumns]
    congr 2
    push_cast
    ring
  · obtain ⟨as, bs, hsplit, hlength⟩ := indices_split hrows hcolumns hy hx
    obtain ⟨placed, hmem, hplaced, hpos⟩ := hall as (y, x) bs hsplit
    refine ⟨placed, hmem, fun q => by rw [hplaced, hbytes], fun q => ?_⟩
    rw [hpos, sum_bytes, sum_bytes, hlength]
    push_cast
    ring

theorem agrees_of_fits (h : o.LayoutFits nModes hasModes g) : o.LayoutAgrees nModes hasModes g := by
  have hexact := h.exact
  have hmemory := h.memory
  have hslice := @slice_le g 0 0 (Quantity.all.map (o.floats nModes)).sum g.nPatchesY_pos g.nPatchesX_pos
  have hall : (Quantity.all.map (o.floats nModes)).sum ≤
      g.nPatchesY * g.nPatchesX * (Quantity.all.map (o.floats nModes)).sum :=
    Nat.le_mul_of_pos_left _ (Nat.mul_pos g.nPatchesY_pos g.nPatchesX_pos)
  have hsize := hexact.getResultSize (by omega)
  obtain ⟨imgSize, himg⟩ : ∃ imgSize, o.imgSize = some imgSize := by
    have hroom := hexact.room .img rfl
    exact ⟨_, congrArg (Option.map _) hroom⟩
  have hstorage : ∀ y x, y < g.nPatchesY → x < g.nPatchesX → ∀ oData, ∃ d,
      o.getStorage nModes g (y, x) oData = some d ∧ Wraps nModes o o.wrapped
        ((y * g.nPatchesX + x) * (Quantity.all.map (o.floats nModes)).sum) oData d :=
    fun y x hy hx oData => exists_getStorage hsize h.some (by omega) (slice_le hy hx) oData
  obtain ⟨ys, hys, hplaced⟩ := @placePatches_grid nModes hasModes g o imgSize himg hexact h.countable h.rows h.columns
  refine ⟨_, imgSize, ys, hsize, himg, ?_, fun y hy x hx => ?_⟩
  · have hinfos : o.allNumbers nModes g g.indices .new =
        some (g.indices.map (·, o.numbers (o.shape nModes))) := by
      refine exists_allNumbers fun index hindex oData => ?_
      obtain ⟨y, x⟩ := index
      obtain ⟨hy, hx⟩ := mem_indices.1 hindex
      rw [Nat.mod_eq_of_lt h.rows] at hy
      rw [Nat.mod_eq_of_lt h.columns] at hx
      obtain ⟨d, hd, -⟩ := hstorage y x hy hx oData
      exact ⟨d, hd⟩
    rw [Object.writeMomfbd, himg, Option.bind_some, hinfos, Option.bind_some, hys, Option.bind_some, if_pos]
    omega
  · obtain ⟨d, hd, hwraps⟩ := hstorage y x hy hx .new
    obtain ⟨pi, hmem, hbytes, hpos⟩ := hplaced y hy x hx
    obtain ⟨hfill, hviews⟩ := hexact.wraps hwraps
    refine ⟨d, pi, hd, hmem, hfill, fun q => ⟨?_, fun hne => ?_⟩⟩
    · rw [hbytes, (hviews q).1]
    · have hq : o.asks q = true := by
        by_contra hq
        rw [(hviews q).1, Object.floats, if_neg hq] at hne
        exact hne rfl
      rw [hpos, (hviews q).2 hq]

theorem room_lt (nModes : BitVec 16) (o : Object) (q : Quantity) : o.room nModes q < 2 ^ 32 := by
  rw [Object.room, step_eq]
  split_ifs with hwide hlt
  · exact Nat.mod_lt _ (by decide)
  · exact lt_trans hlt (by decide)
  · decide

/-- No sum of sizes leaves `size_t`. -/
theorem sum_room_lt (nModes : BitVec 16) (o : Object) : (o.wrapped.map (o.room nModes)).sum < 2 ^ 64 := by
  have hle := List.sum_le_card_nsmul (o.wrapped.map (o.room nModes)) (2 ^ 32) fun n hn => by
    obtain ⟨q, -, rfl⟩ := List.mem_map.1 hn
    exact (room_lt nModes o q).le
  have hlength : o.wrapped.length ≤ 6 := List.length_filter_le _ _
  rw [List.length_map, nsmul_eq_mul, Nat.cast_id] at hle
  have hsix := Nat.mul_le_mul_right (2 ^ 32) hlength
  omega

/-- Arrays that fill what the sizes add up to have the sizes of their room. -/
theorem exact_of_fill {d : ObjectData} {p resultSize : ℕ} (hsize : o.getResultSize nModes = some resultSize)
    (hd : Wraps nModes o o.wrapped p .new d) (hfill : Fill (o.wrapped.map fun q => (d q).block) p resultSize) :
    o.Exact nModes := by
  have hle : ∀ s ∈ o.wrapped.map fun q => (o.room nModes q,
      (Arrays.Array.construct (o.sizes nModes q)).nElements_), s.1 ≤ s.2 := by
    intro s hs
    obtain ⟨q, hq, rfl⟩ := List.mem_map.1 hs
    exact step_le (hd.step q hq)
  have hsum : resultSize = ((o.wrapped.map fun q => (o.room nModes q,
      (Arrays.Array.construct (o.sizes nModes q)).nElements_)).map Prod.fst).sum := by
    rw [Object.getResultSize, addSizes_eq (by decide) hd.step, Nat.zero_add,
      Nat.mod_eq_of_lt (sum_room_lt nModes o)] at hsize
    rw [List.map_map, ← Option.some.inj hsize]
    rfl
  rw [hd.blocks (wrapped_nodup o), hsum] at hfill
  have hsame := (fill_place_iff hle).1 hfill
  refine exact_iff_solid.2 fun q hq => step_eq_nElements.1 ?_
  have hq' := mem_wrapped.2 hq
  rw [hd.step q hq']
  exact congrArg some (hsame _ (List.mem_map_of_mem hq'))

theorem fits_of_agrees (h : o.LayoutAgrees nModes hasModes g) : o.LayoutFits nModes hasModes g := by
  obtain ⟨resultSize, imgSize, infos, hsize, himg, hwrite, hall⟩ := h
  -- the first patch shows what the sizes are
  obtain ⟨d, pi, hd, hmem, hfill, hpoints⟩ := hall 0 g.nPatchesY_pos 0 g.nPatchesX_pos
  obtain ⟨resultSize', p, hsize', hne, hmemory, rfl, -, hwraps⟩ := getStorage_some hd
  obtain rfl := Option.some.inj (hsize.symm.trans hsize')
  have hexact := exact_of_fill hsize hwraps hfill
  have hiff := exact_iff_solid.1 hexact
  obtain ⟨-, hviews⟩ := hexact.wraps hwraps
  have hresult : resultSize = (Quantity.all.map (o.floats nModes)).sum := by
    rw [Object.getResultSize, addSizes_eq (by decide) hwraps.step, Nat.zero_add,
      Nat.mod_eq_of_lt (sum_room_lt nModes o), hexact.sum] at hsize
    exact (Option.some.inj hsize).symm
  rw [Object.writeMomfbd, himg, Option.bind_some] at hwrite
  obtain ⟨infos', hinfos, hwrite⟩ := Option.bind_eq_some_iff.1 hwrite
  obtain rfl := allNumbers_some hinfos
  obtain ⟨x, hx, hwrite⟩ := Option.bind_eq_some_iff.1 hwrite
  split_ifs at hwrite with hfits
  obtain rfl := Option.some.inj hwrite
  have hcount : ∀ q, o.asks q = true → Countable nModes o q := by
    intro q
    obtain ⟨pi', hpi', hbytes⟩ := mem_placePatches hx hmem
    obtain ⟨_, -, heq⟩ := List.mem_map.1 hpi'
    obtain ⟨-, rfl⟩ := Prod.mk.inj heq
    refine (bytes_iff himg (fun q hq => (hiff q hq).1) fun hq => (hiff q hq).2).1 ?_
    rw [← hbytes, (hpoints q).1, (hviews q).1]
  -- the last row and the last column show that there are not too many
  have hindices : ∀ y < g.nPatchesY, ∀ x < g.nPatchesX, y < g.nPatchesY % 2 ^ 16 ∧ x < g.nPatchesX % 2 ^ 16 := by
    intro y hy x' hx'
    obtain ⟨_, placed, -, hplaced, -⟩ := hall y hy x' hx'
    obtain ⟨pi', hpi', -⟩ := mem_placePatches hx hplaced
    obtain ⟨_, hmem', heq⟩ := List.mem_map.1 hpi'
    obtain ⟨rfl, -⟩ := Prod.mk.inj heq
    exact mem_indices.1 hmem'
  have hY := g.nPatchesY_pos
  have hX := g.nPatchesX_pos
  have hrows : g.nPatchesY < 2 ^ 16 := by
    have hlast := (hindices (g.nPatchesY - 1) (by omega) 0 hX).1
    omega
  have hcolumns : g.nPatchesX < 2 ^ 16 := by
    have hlast := (hindices 0 hY (g.nPatchesX - 1) (by omega)).2
    omega
  refine ⟨fun q hq => (hiff q hq).1, fun q hq => ?_, fun hasked => ?_, hresult ▸ hne, hrows, hcolumns, ?_⟩
  · have hprod := (hiff q hq).2
    cases q with
    | alpha => exact hcount .alpha hq
    | img | psf | cobj | res | div => exact hprod
  · rcases hasked with hq | hq
    · exact hcount .cobj hq
    · exact hcount .res hq
  · obtain ⟨ys, hys, -⟩ := @placePatches_grid nModes hasModes g o imgSize himg hexact hcount hrows hcolumns
    obtain rfl := Option.some.inj (hx.symm.trans hys)
    have hmode := modeSize_lt nModes hasModes o
    rw [hresult] at hmemory
    dsimp only at hfits
    omega

/-- **The results are where the file says that they are exactly if the layout fits**: no size is zero beside
others, and no product, number or file is too large for its type. -/
theorem layoutAgrees_iff (nModes : BitVec 16) (hasModes : Bool) (g : Grid) (o : Object) :
    o.LayoutAgrees nModes hasModes g ↔ o.LayoutFits nModes hasModes g :=
  ⟨fits_of_agrees, agrees_of_fits⟩

/-- 4096 images with patches of 1024 by 1024 pixels, whose convolved objects are stored. -/
def manyImages : Object := ⟨SF_SAVE_COBJ, 1024, 512, 4096, [⟨false, List.range 4096, by simp⟩], by decide⟩

/-- In `uint32_t`, no room is left for them. -/
theorem manyImages_not_agree : ¬ ∀ nModes hasModes g (o : Object), o.LayoutAgrees nModes hasModes g := by
  intro h
  have hfits := fits_of_agrees (h 36 false ⟨1, 1, false, Nat.one_pos, Nat.one_pos⟩ manyImages)
  exact absurd (hfits.product .cobj (by decide)) (by decide +kernel)

end Layouts

end Redux.Momfbd.Results
