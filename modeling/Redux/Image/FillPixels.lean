import Mathlib.Algebra.BigOperators.Group.Finset.Sigma
import Mathlib.Algebra.BigOperators.Pi
import Mathlib.Algebra.BigOperators.Ring.Finset
import Mathlib.Algebra.Order.Field.Basic
import Mathlib.Tactic.LinearCombination
import Mathlib.Tactic.Positivity
import Redux.Lib.IntLoop
import Redux.Lib.IntType
import Redux.Lib.RowMajor
import Redux.Lib.Scatter

/-!
# Image.FillPixels — pixels replaced by the mean of their neighbours

`fillPixels` replaces the masked pixels by what `inverseDistanceWeight` makes of the pixels around them, all of them
computed before the first one is written.  It turns the offset of a pixel into row and column with the number of
rows, where it takes that of columns, and the loops over the window are over variables of type `int`.  So a
pixel gets the mean around its own position if these two agree with the right ones (`fills_iff`), which for images
below `2^31` means that the image is square or that the pixel lies in the first row, and left of column `sy`
(`placed_iff_of_small`).  Pixels are elements of a field: with an integer type the mean would be cut off when it is
stored.
-/

namespace Redux.Image.FillPixels

open Redux.Lib Redux.Lib.RowMajor Redux.Lib.Scatter

/-! ## Model -/

section Model

variable {K : Type*} [Field K] [DecidableEq K]

def INT_MAX : ℤ := 2 ^ 31 - 1

def int64 : IntType := ⟨64, true, by decide⟩

/-- `pow( i + deltasqr, -mybeta )`. -/
def share (K : Type*) [Field K] (i : ℤ) : K := (((i : K) + 4) ^ 2)⁻¹

/-- `inverseDistanceSquared[i]`; `none` outside of the table. -/
def inverseDistanceSquared (K : Type*) [Field K] (i : ℤ) : Option K :=
  if 0 ≤ i ∧ i ≤ 2 * 64 ^ 2 then some (share K i) else none

/-- The pixel in row `q.1` and column `q.2`. -/
def pixel (image : ℕ → K) (sizeX : ℕ) (q : ℤ × ℤ) : K := image (q.1.toNat * sizeX + q.2.toNat)

/-- The pixel is in the image. -/
def Inside (sizeY sizeX : ℕ) (q : ℤ × ℤ) : Prop := (0 ≤ q.1 ∧ q.1 < sizeY) ∧ 0 ≤ q.2 ∧ q.2 < sizeX

instance (sizeY sizeX : ℕ) (q : ℤ × ℤ) : Decidable (Inside sizeY sizeX q) := inferInstanceAs (Decidable (_ ∧ _))

/-- `beginX` and `beginY`, as the `int` that the loop starts with. -/
@[irreducible] def beginAt (pos : ℕ) : ℤ := IntType.int.wrap (max 0 (int64.wrap (pos - 64)))

/-- `endX` and `endY`. -/
@[irreducible] def endAt (size pos : ℕ) : ℤ := int64.wrap (min size ((pos + 64 + 1) % 2 ^ 64) : ℕ)

/-- `int y2 = (y-posY)*(y-posY)`, which is computed in `size_t`. -/
def square (pos : ℕ) (i : ℤ) : ℤ := IntType.int.wrap ((i - pos) * (i - pos))

/-- `y2+x2`: a sum beyond `int` is beyond the table. -/
def index (posY posX : ℕ) (q : ℤ × ℤ) : ℤ := square posY q.1 + square posX q.2

/-- The body of the inner loop, with the two sums `weightedSum` and `normalization`; `none` if it reads outside of the
image or the table. -/
def addPixel (image : ℕ → K) (sizeY sizeX posY posX : ℕ) (y x : ℤ) (sums : K × K) : Option (K × K) :=
  if Inside sizeY sizeX (y, x) then
    if pixel image sizeX (y, x) ≠ 0 then
      (inverseDistanceSquared K (index posY posX (y, x))).map fun tmp => sums + (tmp * pixel image sizeX (y, x), tmp)
    else some sums
  else none

/-- The inner loop. -/
def addRow (image : ℕ → K) (sizeY sizeX posY posX : ℕ) (beginX endX y : ℤ) (sums : K × K) : Option (K × K) :=
  countUp INT_MAX (addPixel image sizeY sizeX posY posX y) (endX - beginX).toNat beginX sums

/-- The two loops. -/
def addRows (image : ℕ → K) (sizeY sizeX posY posX : ℕ) (beginY endY beginX endX : ℤ) (sums : K × K) :
    Option (K × K) :=
  countUp INT_MAX (addRow image sizeY sizeX posY posX beginX endX) (endY - beginY).toNat beginY sums

/-- `inverseDistanceWeight( array, sizeY, sizeX, posY, posX )`; `none` if it reads outside of the image or the table, or
if a loop variable overflows. -/
def inverseDistanceWeight (image : ℕ → K) (sizeY sizeX posY posX : ℕ) : Option K :=
  (addRows image sizeY sizeX posY posX (beginAt posY) (endAt sizeY posY) (beginAt posX) (endAt sizeX posX) (0, 0)).map
    fun (weightedSum, normalization) => if normalization ≠ 0 then weightedSum / normalization else 0

/-- `!mask || mask[0][o%nPixels]` -/
def Masked (mask : Option (ℕ → Bool)) (o : ℕ) : Bool := mask.elim true fun mask => mask o

/-- `fillPixels( image, sy, sx, mask )`: the image after it. -/
def fillPixels (image : ℕ → K) (sy sx : ℕ) (mask : Option (ℕ → Bool)) : Option (ℕ → K) :=
  let nPixels := sy * sx % 2 ^ 64
  (((List.range nPixels).filter fun o => Masked mask (o % nPixels)).mapM fun o =>
    let y := o / sy
    let x := o % sy
    (inverseDistanceWeight image sy sx y x).map fun value => (o, value)).map fun values => scatter values image

end Model

/-! ## What is to hold -/

section Spec

variable {K : Type*} [Field K] [DecidableEq K]

/-- The rows or columns that are at most 64 from `pos`. -/
noncomputable def around (size pos : ℕ) : Finset ℤ := Finset.Ico (max 0 (pos - 64)) (min size (pos + 65))

/-- The pixels of the image that are at most 64 rows and columns from a position. -/
noncomputable def window (sy sx y x : ℕ) : Finset (ℤ × ℤ) := around sy y ×ˢ around sx x

def distance2 (y x : ℕ) (q : ℤ × ℤ) : ℤ := (q.1 - y) ^ 2 + (q.2 - x) ^ 2

/-- The mean of the pixels that are not zero, by weights. -/
def mean (pixel weight : ℤ × ℤ → K) (w : Finset (ℤ × ℤ)) : K :=
  (∑ q ∈ w with pixel q ≠ 0, weight q * pixel q) / ∑ q ∈ w with pixel q ≠ 0, weight q

/-- The mean that is to replace a pixel. -/
noncomputable def replacement (image : ℕ → K) (sy sx y x : ℕ) : K :=
  mean (pixel image sx) (fun q => share K (distance2 y x q)) (window sy sx y x)

/-- The masked pixels are replaced, each by the mean around its own position. -/
def Fills (image : ℕ → K) (sy sx : ℕ) (mask : Option (ℕ → Bool)) : Prop :=
  fillPixels image sy sx mask =
    some fun o => if o < sy * sx ∧ Masked mask o = true then replacement image sy sx (o / sx) (o % sx) else image o

/-- The loop with `pos'` as its position goes over the rows or columns around `pos`, and takes the distances from
there. -/
structure Agrees (size pos pos' : ℕ) : Prop where
  first : beginAt pos' = max 0 (pos - 64 : ℤ)
  last : endAt size pos' = min (size : ℤ) (pos + 65)
  counted : min (size : ℤ) (pos + 65) < 2 ^ 31
  place : (pos' : ℤ) ≡ pos [ZMOD 2 ^ 32]

/-- `pos'` is `pos`, or else it is so modulo `2^32` and the window around `pos` is cut off by the end of the image
alone; and the window ends below `2^31`. -/
def Matches (size pos pos' : ℕ) : Prop :=
  min size (pos + 65) < 2 ^ 31 ∧ (pos' = pos ∨ 64 ≤ pos ∧ size ≤ pos + 65 ∧ pos' ≡ pos [MOD 2 ^ 32])

/-- Row and column that the code takes for the pixel do as well as the right ones. -/
def Placed (sy sx o : ℕ) : Prop := Matches sy (o / sx) (o / sy) ∧ Matches sx (o % sx) (o % sy)

end Spec

/-! ## One pixel -/

section Pixel

variable {K : Type*} [Field K] [DecidableEq K] {image : ℕ → K} {sizeY sizeX posY posX : ℕ}
  {beginY endY beginX endX : ℤ} {v : K}

/-- The pixel can be read, and its weight. -/
def Readable (image : ℕ → K) (sizeY sizeX posY posX : ℕ) (q : ℤ × ℤ) : Prop :=
  Inside sizeY sizeX q ∧
    (pixel image sizeX q ≠ 0 → 0 ≤ index posY posX q ∧ index posY posX q ≤ 2 * 64 ^ 2)

instance (q : ℤ × ℤ) : Decidable (Readable image sizeY sizeX posY posX q) := inferInstanceAs (Decidable (_ ∧ _))

/-- What a pixel adds to the two sums. -/
def added (image : ℕ → K) (sizeX posY posX : ℕ) (q : ℤ × ℤ) : K × K :=
  if pixel image sizeX q ≠ 0 then
    (share K (index posY posX q) * pixel image sizeX q, share K (index posY posX q))
  else 0

theorem addPixel_eq (y x : ℤ) (sums : K × K) : addPixel image sizeY sizeX posY posX y x sums =
    if Readable image sizeY sizeX posY posX (y, x) then some (sums + added image sizeX posY posX (y, x)) else none := by
  have hreadable : Readable image sizeY sizeX posY posX (y, x) ↔ Inside sizeY sizeX (y, x) ∧
    (pixel image sizeX (y, x) ≠ 0 → 0 ≤ index posY posX (y, x) ∧ index posY posX (y, x) ≤ 2 * 64 ^ 2) := Iff.rfl
  rw [addPixel, added]
  by_cases hinside : Inside sizeY sizeX (y, x)
  · rw [if_pos hinside]
    by_cases hlit : pixel image sizeX (y, x) ≠ 0
    · rw [if_pos hlit, if_pos hlit, inverseDistanceSquared]
      by_cases htable : 0 ≤ index posY posX (y, x) ∧ index posY posX (y, x) ≤ 2 * 64 ^ 2
      · rw [if_pos htable, if_pos (hreadable.2 ⟨hinside, fun _ => htable⟩), Option.map_some]
      · rw [if_neg htable, if_neg fun h => htable ((hreadable.1 h).2 hlit), Option.map_none]
    · rw [if_neg hlit, if_neg hlit, if_pos (hreadable.2 ⟨hinside, fun h => absurd h hlit⟩), add_zero]
  · rw [if_neg hinside, if_neg fun h => hinside (hreadable.1 h).1]

/-- The row can be read, and the variable counts up to its end. -/
def RowReadable (image : ℕ → K) (sizeY sizeX posY posX : ℕ) (beginX endX y : ℤ) : Prop :=
  (∀ x ∈ Finset.Ico beginX endX, Readable image sizeY sizeX posY posX (y, x)) ∧
    (beginX < endX → beginX ≤ INT_MAX → endX ≤ INT_MAX)

noncomputable instance (y : ℤ) : Decidable (RowReadable image sizeY sizeX posY posX beginX endX y) :=
  inferInstanceAs (Decidable (_ ∧ _))

theorem addRow_eq (y : ℤ) (sums : K × K) : addRow image sizeY sizeX posY posX beginX endX y sums =
    if RowReadable image sizeY sizeX posY posX beginX endX y then
      some (sums + ∑ x ∈ Finset.Ico beginX endX, added image sizeX posY posX (y, x))
    else none := by
  rw [addRow, countUp_add (addPixel_eq y) sums rfl]
  exact if_congr Iff.rfl rfl rfl

/-- **What the loops come to.** -/
theorem addRows_eq (sums : K × K) : addRows image sizeY sizeX posY posX beginY endY beginX endX sums =
    if (∀ y ∈ Finset.Ico beginY endY, RowReadable image sizeY sizeX posY posX beginX endX y) ∧
        (beginY < endY → beginY ≤ INT_MAX → endY ≤ INT_MAX) then
      some (sums + ∑ q ∈ Finset.Ico beginY endY ×ˢ Finset.Ico beginX endX, added image sizeX posY posX q)
    else none := by
  rw [addRows, countUp_add addRow_eq sums rfl, Finset.sum_product]

theorem sum_added (w : Finset (ℤ × ℤ)) : ∑ q ∈ w, added image sizeX posY posX q =
    (∑ q ∈ w with pixel image sizeX q ≠ 0, share K (index posY posX q) * pixel image sizeX q,
      ∑ q ∈ w with pixel image sizeX q ≠ 0, share K (index posY posX q)) := by
  simp only [added]
  rw [← Finset.sum_filter, prod_mk_sum]

/-- Everything that the loops go over can be read, and their variables do not overflow. -/
structure Reads (image : ℕ → K) (sizeY sizeX posY posX : ℕ) (beginY endY beginX endX : ℤ) : Prop where
  readable : ∀ q ∈ Finset.Ico beginY endY ×ˢ Finset.Ico beginX endX, Readable image sizeY sizeX posY posX q
  rows : beginY < endY → endY ≤ INT_MAX
  columns : beginY < endY → beginX < endX → endX ≤ INT_MAX

omit [DecidableEq K] in
theorem reads_iff (hY : beginY ≤ INT_MAX) (hX : beginX ≤ INT_MAX) :
    Reads image sizeY sizeX posY posX beginY endY beginX endX ↔
      (∀ y ∈ Finset.Ico beginY endY, RowReadable image sizeY sizeX posY posX beginX endX y) ∧
        (beginY < endY → beginY ≤ INT_MAX → endY ≤ INT_MAX) := by
  refine ⟨fun h => ⟨fun y hy => ⟨fun x hx => ?_, fun hlt _ => ?_⟩, fun hlt _ => h.rows hlt⟩, ?_⟩
  · exact h.readable (y, x) (Finset.mem_product.2 ⟨hy, hx⟩)
  · obtain ⟨hle, hlt'⟩ := Finset.mem_Ico.1 hy
    exact h.columns (hle.trans_lt hlt') hlt
  · rintro ⟨hrows, hlast⟩
    refine ⟨?_, fun hlt => hlast hlt hY, fun hlt hlt' => ?_⟩
    · rintro ⟨y, x⟩ hq
      obtain ⟨hy, hx⟩ := Finset.mem_product.1 hq
      exact (hrows y hy).1 x hx
    · exact (hrows _ (Finset.left_mem_Ico.2 hlt)).2 hlt' hX

theorem beginAt_le (pos : ℕ) : beginAt pos ≤ INT_MAX := by
  unfold beginAt
  exact (IntType.int.fits_wrap _).2

/-- The pixels that the loops go over. -/
noncomputable def visited (sizeY sizeX posY posX : ℕ) : Finset (ℤ × ℤ) :=
  Finset.Ico (beginAt posY) (endAt sizeY posY) ×ˢ Finset.Ico (beginAt posX) (endAt sizeX posX)

/-- **The value is the mean of what the loops go over**, if all that can be read. -/
theorem inverseDistanceWeight_iff : inverseDistanceWeight image sizeY sizeX posY posX = some v ↔
    Reads image sizeY sizeX posY posX (beginAt posY) (endAt sizeY posY) (beginAt posX) (endAt sizeX posX) ∧
      mean (pixel image sizeX) (fun q => share K (index posY posX q)) (visited sizeY sizeX posY posX) = v := by
  rw [inverseDistanceWeight, addRows_eq, reads_iff (beginAt_le posY) (beginAt_le posX), Prod.mk_zero_zero, zero_add,
    sum_added, apply_ite (Option.map _), Option.map_none, Option.map_some, Option.ite_none_right_eq_some,
    Option.some.injEq, mean, visited]
  refine and_congr_right fun _ => ?_
  dsimp only
  split_ifs with h
  · rfl
  · rw [not_not.1 h, div_zero]

end Pixel

/-! ## One direction -/

section Direction

variable {size pos pos' : ℕ} {i c : ℤ}

theorem int64_fits {x : ℤ} (hlow : -2 ^ 63 ≤ x) (hhigh : x < 2 ^ 63) : int64.Fits x :=
  ⟨hlow, Int.le_sub_one_of_lt hhigh⟩

theorem beginAt_eq (hpos : pos < 2 ^ 63) : beginAt pos = IntType.int.wrap (max 0 (pos - 64)) := by
  unfold beginAt
  rw [IntType.wrap_of_fits (int64_fits (by omega) (by omega))]

theorem endAt_eq (hsize : size < 2 ^ 63) (hpos : pos < 2 ^ 63) : endAt size pos = min (size : ℤ) (pos + 65) := by
  have hlt : pos + 64 + 1 < 2 ^ 64 := by omega
  unfold endAt
  rw [Nat.mod_eq_of_lt hlt, IntType.wrap_of_fits (int64_fits (by omega) (by omega)), Nat.cast_min]
  push_cast
  rw [add_assoc]
  norm_num

/-- The square of the distance to the position modulo `2^32`. -/
theorem square_eq (hplace : (pos : ℤ) ≡ c [ZMOD 2 ^ 32]) (hlt : (i - c) ^ 2 < 2 ^ 31) :
    square pos i = (i - c) ^ 2 := by
  have hcongr : (i - pos) * (i - pos) ≡ (i - c) * (i - c) [ZMOD 2 ^ 32] :=
    ((Int.ModEq.refl i).sub hplace).mul ((Int.ModEq.refl i).sub hplace)
  rw [square, IntType.wrap_congr (t := IntType.int) hcongr, ← sq]
  apply IntType.wrap_of_fits
  have hnonneg := sq_nonneg (i - c)
  show -2 ^ 31 ≤ (i - c) ^ 2 ∧ (i - c) ^ 2 ≤ 2 ^ 31 - 1
  omega

theorem mem_around : i ∈ around size pos ↔ (0 ≤ i ∧ i < size) ∧ pos - 64 ≤ i ∧ i ≤ pos + 64 := by
  rw [around, Finset.mem_Ico]
  omega

theorem self_mem_around (hpos : pos < size) : (pos : ℤ) ∈ around size pos := mem_around.2 (by omega)

theorem sq_le_of_mem (hi : i ∈ around size pos) : (i - pos) ^ 2 ≤ 64 ^ 2 := by
  obtain ⟨-, hlow, hhigh⟩ := mem_around.1 hi
  exact sq_le_sq' (by omega) (by omega)

/-- The position itself agrees, if the loop stays below `2^31`. -/
theorem agrees_self (hsize : size < 2 ^ 63) (hpos : pos < size) (hcounted : min (size : ℤ) (pos + 65) < 2 ^ 31) :
    Agrees size pos pos where
  first := by
    rw [beginAt_eq (hpos.trans hsize), IntType.wrap_of_fits]
    exact ⟨show -2 ^ 31 ≤ _ by omega, show _ ≤ 2 ^ 31 - 1 by omega⟩
  last := endAt_eq hsize (hpos.trans hsize)
  counted := hcounted
  place := .refl _

/-- **The positions that agree.** -/
theorem agrees_iff (hsize : size < 2 ^ 63) (hpos : pos < size) (hpos' : pos' < 2 ^ 63) :
    Agrees size pos pos' ↔ Matches size pos pos' := by
  have hplace_iff : (pos' : ℤ) ≡ pos [ZMOD 2 ^ 32] ↔ pos' ≡ pos [MOD 2 ^ 32] := by
    exact_mod_cast Int.natCast_modEq_iff (n := 2 ^ 32)
  constructor
  · rintro ⟨hfirst, hlast, hcounted, hplace⟩
    have hmod : pos' % 2 ^ 32 = pos % 2 ^ 32 := hplace_iff.1 hplace
    refine ⟨by omega, or_iff_not_imp_left.2 fun hne => ?_⟩
    -- the other one is farther by a multiple of `2^32`
    have hfar : pos + 2 ^ 32 ≤ pos' := by omega
    rw [endAt_eq hsize hpos'] at hlast
    rw [beginAt_eq hpos'] at hfirst
    have hwrap : _ ≡ max 0 (pos' - 64 : ℤ) [ZMOD 2 ^ 32] := IntType.int.wrap_emod (max 0 (pos' - 64))
    rw [hfirst, Int.ModEq] at hwrap
    exact ⟨by omega, by omega, hplace_iff.1 hplace⟩
  · rintro ⟨hcounted, rfl | ⟨hbegin, hend, hplace⟩⟩
    · exact agrees_self hsize hpos (by omega)
    · have hmod : pos' % 2 ^ 32 = pos % 2 ^ 32 := hplace
      have hle : pos ≤ pos' := by omega
      refine ⟨?_, ?_, by omega, hplace_iff.2 hplace⟩
      · have hcongr : max 0 (pos' - 64 : ℤ) ≡ max 0 (pos - 64 : ℤ) [ZMOD 2 ^ 32] := by
          rw [Int.ModEq]
          omega
        rw [beginAt_eq hpos', IntType.wrap_congr (t := IntType.int) hcongr, IntType.wrap_of_fits]
        exact ⟨show -2 ^ 31 ≤ _ by omega, show _ ≤ 2 ^ 31 - 1 by omega⟩
      · rw [endAt_eq hsize hpos']
        omega

/-- Where no number reaches `2^31`, only the position itself matches. -/
theorem matches_iff_of_small (hsize : size < 2 ^ 31) (hpos : pos < size) (hpos' : pos' < 2 ^ 31) :
    Matches size pos pos' ↔ pos' = pos := by
  constructor
  · rintro ⟨-, heq | ⟨-, -, hplace⟩⟩
    · exact heq
    · have hmod : pos' % 2 ^ 32 = pos % 2 ^ 32 := hplace
      omega
  · exact fun heq => ⟨by omega, .inl heq⟩

theorem Agrees.square (h : Agrees size pos pos') (hi : i ∈ around size pos) : square pos' i = (i - pos) ^ 2 :=
  square_eq h.place ((sq_le_of_mem hi).trans_lt (by decide))

theorem Agrees.around (h : Agrees size pos pos') : Finset.Ico (beginAt pos') (endAt size pos') = around size pos := by
  rw [h.first, h.last, FillPixels.around]

end Direction

/-! ## The mean around a position -/

section Mean

variable {K : Type*} [Field K] [DecidableEq K] {image : ℕ → K} {sy sx y x y' x' : ℕ} {q : ℤ × ℤ}

theorem mem_window : q ∈ window sy sx y x ↔ q.1 ∈ around sy y ∧ q.2 ∈ around sx x := Finset.mem_product

theorem inside_of_mem_window (hq : q ∈ window sy sx y x) : Inside sy sx q :=
  ⟨(mem_around.1 (mem_window.1 hq).1).1, (mem_around.1 (mem_window.1 hq).2).1⟩

theorem index_eq_distance2 (hy : Agrees sy y y') (hx : Agrees sx x x') (hq : q ∈ window sy sx y x) :
    index y' x' q = distance2 y x q := by
  rw [index, distance2, hy.square (mem_window.1 hq).1, hx.square (mem_window.1 hq).2]

theorem distance2_le (hq : q ∈ window sy sx y x) : 0 ≤ distance2 y x q ∧ distance2 y x q ≤ 2 * 64 ^ 2 := by
  have hy := sq_le_of_mem (mem_window.1 hq).1
  have hx := sq_le_of_mem (mem_window.1 hq).2
  have hy0 := sq_nonneg (q.1 - y)
  have hx0 := sq_nonneg (q.2 - x)
  rw [distance2]
  omega

theorem mean_congr {pixel weight weight' : ℤ × ℤ → K} {w : Finset (ℤ × ℤ)} (h : ∀ q ∈ w, weight q = weight' q) :
    mean pixel weight w = mean pixel weight' w := by
  have h' : ∀ q ∈ w.filter fun q => pixel q ≠ 0, weight q = weight' q := fun q hq => h q (Finset.mem_filter.1 hq).1
  rw [mean, mean, Finset.sum_congr rfl h', Finset.sum_congr rfl fun q hq => by rw [h' q hq]]

/-- **A position that agrees with the right one does as well.** -/
theorem inverseDistanceWeight_of_agrees (hy : Agrees sy y y') (hx : Agrees sx x x') :
    inverseDistanceWeight image sy sx y' x' = some (replacement image sy sx y x) := by
  have hvisited : visited sy sx y' x' = window sy sx y x := by
    rw [visited, hy.around, hx.around, window]
  refine inverseDistanceWeight_iff.2 ⟨⟨fun q hq => ?_, fun _ => ?_, fun _ _ => ?_⟩, ?_⟩
  · rw [← visited, hvisited] at hq
    refine ⟨inside_of_mem_window hq, fun _ => ?_⟩
    rw [index_eq_distance2 hy hx hq]
    exact distance2_le hq
  · rw [hy.last]
    exact Int.le_sub_one_of_lt hy.counted
  · rw [hx.last]
    exact Int.le_sub_one_of_lt hx.counted
  · rw [hvisited, replacement]
    exact mean_congr fun q hq => by rw [index_eq_distance2 hy hx hq]

end Mean

/-! ## Images that tell positions apart -/

section Lights

variable {K : Type*} [Field K] [LinearOrder K] [IsStrictOrderedRing K] {sy sx y x y' x' : ℕ} {p q r : ℤ × ℤ}

/-- An image with two pixels that are not zero, or one. -/
def lights (K : Type*) [Field K] (sx : ℕ) (p r : ℤ × ℤ) (o : ℕ) : K :=
  if (((o / sx : ℕ) : ℤ), ((o % sx : ℕ) : ℤ)) = p then 1
  else if (((o / sx : ℕ) : ℤ), ((o % sx : ℕ) : ℤ)) = r then (2 : ℕ)
  else 0

omit [LinearOrder K] [IsStrictOrderedRing K] in
theorem pixel_lights (hq : Inside sy sx q) :
    pixel (lights K sx p r) sx q = if q = p then 1 else if q = r then 2 else 0 := by
  obtain ⟨a, b⟩ := q
  obtain ⟨⟨ha, -⟩, hb, hlt⟩ := hq
  lift a to ℕ using ha
  lift b to ℕ using hb
  have hlt : b < sx := Int.ofNat_lt.1 hlt
  rw [pixel, lights, Int.toNat_natCast, Int.toNat_natCast, index_div hlt, index_mod hlt, Nat.cast_two]

/-- The mean of two pixels. -/
theorem mean_two {pixel weight : ℤ × ℤ → K} {w : Finset (ℤ × ℤ)}
    (hpixel : ∀ q ∈ w, pixel q = if q = p then 1 else if q = r then 2 else 0) (hne : r ≠ p) :
    mean pixel weight w = ((if p ∈ w then weight p else 0) + 2 * (if r ∈ w then weight r else 0)) /
      ((if p ∈ w then weight p else 0) + if r ∈ w then weight r else 0) := by
  have hcases : ∀ q ∈ w, weight q * pixel q = (if q = p then weight q else 0) + 2 * (if q = r then weight q else 0) ∧
      (if pixel q ≠ 0 then weight q else 0) = (if q = p then weight q else 0) + if q = r then weight q else 0 := by
    intro q hq
    rw [hpixel q hq]
    by_cases hp : q = p
    · simp [hp, hne.symm]
    · by_cases hr : q = r
      · simp [hr, hne, mul_comm]
      · simp [hp, hr]
  have hvalues : ∑ q ∈ w with pixel q ≠ 0, weight q * pixel q = ∑ q ∈ w, weight q * pixel q :=
    Finset.sum_filter_of_ne fun q _ h => right_ne_zero_of_mul h
  rw [mean, hvalues, Finset.sum_congr rfl fun q hq => (hcases q hq).1, Finset.sum_filter,
    Finset.sum_congr rfl fun q hq => (hcases q hq).2, Finset.sum_add_distrib, Finset.sum_add_distrib, ← Finset.mul_sum,
    Finset.sum_ite_eq', Finset.sum_ite_eq']

/-- Equal means have equal ratios of the weights. -/
theorem ratio_of_mean_eq {a b a' b' : K} (ha : 0 < a) (hb : 0 ≤ b) (ha' : 0 ≤ a')
    (h : (a' + 2 * b') / (a' + b') = (a + 2 * b) / (a + b)) : 0 < a' ∧ a' * b = a * b' := by
  have hpos : 0 < (a + 2 * b) / (a + b) := by positivity
  have hsum : a' + b' ≠ 0 := by
    intro hzero
    rw [hzero, div_zero] at h
    exact hpos.ne h
  rw [div_eq_div_iff hsum (by positivity)] at h
  have hratio : a' * b = a * b' := by linear_combination -h
  refine ⟨ha'.lt_of_ne fun hzero => ?_, hratio⟩
  rw [← hzero, zero_mul] at hratio
  rcases mul_eq_zero.1 hratio.symm with h0 | h0
  · exact ha.ne' h0
  · rw [← hzero, h0, add_zero] at hsum
    exact hsum rfl

theorem share_pos {i : ℤ} (hi : 0 ≤ i) : 0 < share K i := by
  have hi' : (0 : K) ≤ i := by exact_mod_cast hi
  rw [share]
  positivity

/-- Equal products of weights have equal distances. -/
theorem eq_of_share_mul {i j k l : ℤ} (hi : 0 ≤ i) (hj : 0 ≤ j) (hk : 0 ≤ k) (hl : 0 ≤ l)
    (h : share K i * share K j = share K k * share K l) : (i + 4) * (j + 4) = (k + 4) * (l + 4) := by
  rw [share, share, share, share, ← mul_inv, ← mul_inv, inv_inj, ← mul_pow, ← mul_pow] at h
  have hsq : ((i + 4) * (j + 4)) ^ 2 = ((k + 4) * (l + 4)) ^ 2 := by exact_mod_cast h
  have hleft : 0 ≤ (i + 4) * (j + 4) := by positivity
  have hright : 0 ≤ (k + 4) * (l + 4) := by positivity
  exact (pow_left_inj₀ hleft hright two_ne_zero).1 hsq

theorem distance2_nonneg : 0 ≤ distance2 y x q := add_nonneg (sq_nonneg _) (sq_nonneg _)

def position (y x : ℕ) : ℤ × ℤ := (y, x)

theorem distance2_self : distance2 y x (position y x) = 0 := by
  simp [distance2, position]

/-- The loops from a position go over the pixels around another one, with weights in the right ratio. -/
structure Twin (sy sx y x y' x' : ℕ) : Prop where
  rows : endAt sy y' ≤ INT_MAX
  columns : endAt sx x' ≤ INT_MAX
  pixels : visited sy sx y' x' = window sy sx y x
  ratio : ∀ r ∈ window sy sx y x, (index y' x' (position y x) + 4) * (distance2 y x r + 4) = 4 * (index y' x' r + 4)

/-- One image with one or two pixels that are not zero. -/
theorem ratio_of_lights (hy : y < sy) (hx : x < sx) (hne : r ≠ position y x)
    (h : inverseDistanceWeight (lights K sx (position y x) r) sy sx y' x' =
      some (replacement (lights K sx (position y x) r) sy sx y x)) :
    (position y x ∈ visited sy sx y' x' ∧ (r ∈ visited sy sx y' x' ↔ r ∈ window sy sx y x)) ∧
      (r ∈ window sy sx y x → (index y' x' (position y x) + 4) * (distance2 y x r + 4) = 4 * (index y' x' r + 4)) := by
  obtain ⟨hreads, hmean⟩ := inverseDistanceWeight_iff.1 h
  have hself : position y x ∈ window sy sx y x := mem_window.2 ⟨self_mem_around hy, self_mem_around hx⟩
  have hinside : ∀ q ∈ visited sy sx y' x', Inside sy sx q := fun q hq => (hreads.readable q hq).1
  -- a pixel that is not zero has a weight in the table
  have hindex : ∀ q ∈ visited sy sx y' x', q = position y x ∨ q = r → 0 ≤ index y' x' q := by
    intro q hq hlit
    refine ((hreads.readable q hq).2 ?_).1
    rw [pixel_lights (hinside q hq)]
    rcases hlit with rfl | rfl
    · simp
    · simp [hne]
  rw [replacement, mean_two (fun q hq => pixel_lights (hinside q hq)) hne,
    mean_two (fun q hq => pixel_lights (inside_of_mem_window hq)) hne, if_pos hself, distance2_self] at hmean
  obtain ⟨hpos, hratio⟩ := ratio_of_mean_eq (share_pos le_rfl)
    (by split_ifs; exacts [(share_pos distance2_nonneg).le, le_rfl])
    (by split_ifs with hq; exacts [(share_pos (hindex _ hq (.inl rfl))).le, le_rfl]) hmean
  have hmem : position y x ∈ visited sy sx y' x' := by
    by_contra hnot
    rw [if_neg hnot] at hpos
    exact hpos.false
  have hpos' : 0 < share K (index y' x' (position y x)) := share_pos (hindex _ hmem (.inl rfl))
  rw [if_pos hmem] at hratio
  have hiff : r ∈ visited sy sx y' x' ↔ r ∈ window sy sx y x := by
    constructor
    · intro hr
      by_contra hnot
      rw [if_pos hr, if_neg hnot, mul_zero] at hratio
      exact (mul_pos (share_pos le_rfl) (share_pos (hindex r hr (.inr rfl)))).ne hratio
    · intro hr
      by_contra hnot
      rw [if_neg hnot, if_pos hr, mul_zero] at hratio
      exact (mul_pos hpos' (share_pos distance2_nonneg)).ne' hratio
  refine ⟨⟨hmem, hiff⟩, fun hr => ?_⟩
  rw [if_pos (hiff.2 hr), if_pos hr] at hratio
  exact eq_of_share_mul (hindex _ hmem (.inl rfl)) distance2_nonneg le_rfl (hindex r (hiff.2 hr) (.inr rfl)) hratio

/-- **A position that gives the right mean for every image** is a twin of the right one. -/
theorem twin_of_forall (hy : y < sy) (hx : x < sx)
    (h : ∀ image : ℕ → K, inverseDistanceWeight image sy sx y' x' = some (replacement image sy sx y x)) :
    Twin sy sx y x y' x' := by
  have hself : position y x ∈ window sy sx y x := mem_window.2 ⟨self_mem_around hy, self_mem_around hx⟩
  have hne : position (y + 1) x ≠ position y x := by simp [position]
  have hmem := (ratio_of_lights hy hx hne (h _)).1.1
  obtain ⟨hmemY, hmemX⟩ := Finset.mem_product.1 hmem
  have hltY := Finset.mem_Ico.1 hmemY
  have hltX := Finset.mem_Ico.1 hmemX
  have hreads := (inverseDistanceWeight_iff.1 (h 0)).1
  refine ⟨hreads.rows (hltY.1.trans_lt hltY.2),
    hreads.columns (hltY.1.trans_lt hltY.2) (hltX.1.trans_lt hltX.2), ?_, ?_⟩
  · ext r
    by_cases hr : r = position y x
    · rw [hr]
      exact iff_of_true hmem hself
    · exact (ratio_of_lights hy hx hr (h _)).1.2
  · intro r hr
    by_cases hself' : r = position y x
    · rw [hself', distance2_self, zero_add, mul_comm]
    · exact (ratio_of_lights hy hx hself' (h _)).2 hr

end Lights

/-! ## Twins -/

section Twin

variable {size pos pos' sy sx y x y' x' : ℕ} {a b c d e : ℤ}

theorem limits_eq (h : Finset.Ico a b = Finset.Ico c d) (hlt : c < d) : a = c ∧ b = d := by
  have hiff : ∀ i, (a ≤ i ∧ i < b) ↔ (c ≤ i ∧ i < d) := fun i => by rw [← Finset.mem_Ico, h, Finset.mem_Ico]
  have hc := (hiff c).2 ⟨le_rfl, hlt⟩
  have hd := (hiff (d - 1)).2 (by omega)
  have ha := (hiff a).1 (by omega)
  have hb := (hiff (b - 1)).1 (by omega)
  omega

/-- The distances are taken from a place that is the position modulo `2^32`: the right one, or one as near to the
border. -/
theorem exists_centre (hpos' : pos' < 2 ^ 63) (h : beginAt pos' = max 0 (pos - 64 : ℤ)) :
    ∃ c : ℤ, (pos' : ℤ) ≡ c [ZMOD 2 ^ 32] ∧ ∀ i ∈ around size pos, (i - c) ^ 2 ≤ 128 ^ 2 := by
  rw [beginAt_eq hpos'] at h
  have hwrap : _ ≡ max 0 (pos' - 64 : ℤ) [ZMOD 2 ^ 32] := IntType.int.wrap_emod (max 0 (pos' - 64))
  rw [h] at hwrap
  have hnear : ∀ c : ℤ, (c = pos ∨ 0 ≤ c ∧ c ≤ 64 ∧ pos ≤ 64) → ∀ i ∈ around size pos, (i - c) ^ 2 ≤ 128 ^ 2 := by
    intro c hc i hi
    have hi := (mem_around.1 hi)
    exact sq_le_sq' (by omega) (by omega)
  rcases Nat.le_total pos' 64 with hle | hge
  · rw [max_eq_left (by omega : (pos' - 64 : ℤ) ≤ 0)] at h
    refine ⟨pos', .refl _, hnear _ (.inr ⟨by omega, by omega, ?_⟩)⟩
    rw [IntType.wrap_of_fits (by decide)] at h
    omega
  · rw [max_eq_right (by omega : (0 : ℤ) ≤ pos' - 64)] at hwrap
    rcases Nat.le_total pos 64 with hle | hge'
    · rw [max_eq_left (by omega : (pos - 64 : ℤ) ≤ 0)] at hwrap
      refine ⟨64, ?_, hnear _ (.inr (by omega))⟩
      simpa using hwrap.symm.add_right 64
    · rw [max_eq_right (by omega : (0 : ℤ) ≤ pos - 64)] at hwrap
      refine ⟨pos, ?_, hnear _ (.inl rfl)⟩
      simpa using hwrap.symm.add_right 64

/-- Weights from a place beside the position have the right ratio for one distance at most. -/
theorem eq_zero_of_ratios (hd : d ≠ 0) (he : e ≠ 0) (hne : d ≠ e)
    (h : (a ^ 2 + b ^ 2 + 4) * (d ^ 2 + 4) = 4 * ((a + d) ^ 2 + b ^ 2 + 4))
    (h' : (a ^ 2 + b ^ 2 + 4) * (e ^ 2 + 4) = 4 * ((a + e) ^ 2 + b ^ 2 + 4)) : a = 0 ∧ b = 0 := by
  have h₁ : (a ^ 2 + b ^ 2) * d = 8 * a := by
    apply mul_right_cancel₀ hd
    linear_combination h
  have h₂ : (a ^ 2 + b ^ 2) * e = 8 * a := by
    apply mul_right_cancel₀ he
    linear_combination h'
  have hzero : (a ^ 2 + b ^ 2) * (d - e) = 0 := by
    linear_combination h₁ - h₂
  have hsum := (mul_eq_zero.1 hzero).resolve_right (sub_ne_zero.2 hne)
  have ha := sq_nonneg a
  have hb := sq_nonneg b
  exact ⟨pow_eq_zero_iff two_ne_zero |>.1 (by omega), pow_eq_zero_iff two_ne_zero |>.1 (by omega)⟩

/-- Two more rows or columns, if there are three. -/
theorem exists_two_around (hsize : 3 ≤ size) (hpos : pos < size) :
    ∃ i ∈ around size pos, ∃ j ∈ around size pos, i - pos ≠ 0 ∧ j - pos ≠ 0 ∧ i - pos ≠ j - pos := by
  simp only [mem_around]
  rcases Nat.lt_or_ge pos 2 with hlt | hge
  · exact ⟨if pos = 0 then 1 else 0, by split_ifs <;> omega, 2, by omega, by split_ifs <;> omega⟩
  · exact ⟨pos - 1, by omega, pos - 2, by omega, by omega⟩

theorem Twin.limits (hy : y < sy) (hx : x < sx) (h : Twin sy sx y x y' x') :
    (beginAt y' = max 0 (y - 64 : ℤ) ∧ endAt sy y' = min (sy : ℤ) (y + 65)) ∧
      beginAt x' = max 0 (x - 64 : ℤ) ∧ endAt sx x' = min (sx : ℤ) (x + 65) := by
  have hvisited := h.pixels
  have hself : position y x ∈ visited sy sx y' x' := by
    rw [hvisited]
    exact mem_window.2 ⟨self_mem_around hy, self_mem_around hx⟩
  obtain ⟨hselfY, hselfX⟩ := Finset.mem_product.1 hself
  have hrows : Finset.Ico (beginAt y') (endAt sy y') = around sy y := by
    ext i
    have hiff : (i, (x : ℤ)) ∈ visited sy sx y' x' ↔ (i, (x : ℤ)) ∈ window sy sx y x := by rw [hvisited]
    rw [visited, Finset.mem_product, mem_window] at hiff
    exact (and_iff_left hselfX).symm.trans (hiff.trans (and_iff_left (self_mem_around hx)))
  have hcolumns : Finset.Ico (beginAt x') (endAt sx x') = around sx x := by
    ext i
    have hiff : ((y : ℤ), i) ∈ visited sy sx y' x' ↔ ((y : ℤ), i) ∈ window sy sx y x := by rw [hvisited]
    rw [visited, Finset.mem_product, mem_window] at hiff
    exact (and_iff_right hselfY).symm.trans (hiff.trans (and_iff_right (self_mem_around hy)))
  exact ⟨limits_eq hrows (by omega), limits_eq hcolumns (by omega)⟩

/-- **A twin in an image with three rows or columns** agrees. -/
theorem Twin.agrees (hy : y < sy) (hx : x < sx) (hy' : y' < 2 ^ 63) (hx' : x' < 2 ^ 63) (hsize : 3 ≤ sy ∨ 3 ≤ sx)
    (h : Twin sy sx y x y' x') : Agrees sy y y' ∧ Agrees sx x x' := by
  obtain ⟨⟨hbeginY, hendY⟩, hbeginX, hendX⟩ := h.limits hy hx
  obtain ⟨cy, hplaceY, hnearY⟩ := exists_centre hy' hbeginY
  obtain ⟨cx, hplaceX, hnearX⟩ := exists_centre hx' hbeginX
  have hlarge : (128 : ℤ) ^ 2 < 2 ^ 31 := by decide
  have hindex : ∀ i ∈ around sy y, ∀ j ∈ around sx x, index y' x' (i, j) = (i - cy) ^ 2 + (j - cx) ^ 2 := by
    intro i hi j hj
    rw [index, square_eq hplaceY ((hnearY i hi).trans_lt hlarge), square_eq hplaceX ((hnearX j hj).trans_lt hlarge)]
  have hselfY := self_mem_around hy
  have hselfX := self_mem_around hx
  have hratio : ∀ i ∈ around sy y, ∀ j ∈ around sx x,
      ((y - cy) ^ 2 + (x - cx) ^ 2 + 4) * ((i - y) ^ 2 + (j - x) ^ 2 + 4) = 4 * ((i - cy) ^ 2 + (j - cx) ^ 2 + 4) := by
    intro i hi j hj
    have heq := h.ratio (i, j) (mem_window.2 ⟨hi, hj⟩)
    rwa [position, hindex _ hselfY _ hselfX, hindex i hi j hj, distance2] at heq
  have hrow : ∀ i ∈ around sy y, ((y - cy) ^ 2 + (x - cx) ^ 2 + 4) * ((i - y) ^ 2 + 4) =
      4 * ((y - cy + (i - y)) ^ 2 + (x - cx) ^ 2 + 4) := by
    intro i hi
    have heq := hratio i hi x hselfX
    rwa [sub_self, zero_pow two_ne_zero, add_zero, ← sub_add_sub_cancel' (y : ℤ) cy i] at heq
  have hcolumn : ∀ j ∈ around sx x, ((x - cx) ^ 2 + (y - cy) ^ 2 + 4) * ((j - x) ^ 2 + 4) =
      4 * ((x - cx + (j - x)) ^ 2 + (y - cy) ^ 2 + 4) := by
    intro j hj
    have heq := hratio y hselfY j hj
    rwa [sub_self, zero_pow two_ne_zero, zero_add, ← sub_add_sub_cancel' (x : ℤ) cx j, add_comm ((y - cy : ℤ) ^ 2),
      add_comm ((y - cy : ℤ) ^ 2)] at heq
  have hcentre : (y - cy : ℤ) = 0 ∧ (x - cx : ℤ) = 0 := by
    rcases hsize with hsize | hsize
    · obtain ⟨i, hi, j, hj, hi0, hj0, hne⟩ := exists_two_around hsize hy
      exact eq_zero_of_ratios hi0 hj0 hne (hrow i hi) (hrow j hj)
    · obtain ⟨i, hi, j, hj, hi0, hj0, hne⟩ := exists_two_around hsize hx
      exact (eq_zero_of_ratios hi0 hj0 hne (hcolumn i hi) (hcolumn j hj)).symm
  have hcy : cy = y := (sub_eq_zero.1 hcentre.1).symm
  have hcx : cx = x := (sub_eq_zero.1 hcentre.2).symm
  have hrows := Int.lt_add_one_of_le h.rows
  have hcolumns := Int.lt_add_one_of_le h.columns
  rw [hendY] at hrows
  rw [hendX] at hcolumns
  exact ⟨⟨hbeginY, hendY, hrows, hcy ▸ hplaceY⟩, ⟨hbeginX, hendX, hcolumns, hcx ▸ hplaceX⟩⟩

end Twin

/-! ## All pixels -/

section All

variable {K : Type*} [Field K] [LinearOrder K] [IsStrictOrderedRing K] {sy sx o : ℕ} {mask : Option (ℕ → Bool)}

/-- The offset of a pixel, and the sizes of its image. -/
theorem offset_lt (hsize : sy * sx < 2 ^ 63) (ho : o < sy * sx) :
    (o / sx < sy ∧ o % sx < sx) ∧ (sy < 2 ^ 63 ∧ sx < 2 ^ 63) ∧ o / sy < 2 ^ 63 ∧ o % sy < 2 ^ 63 := by
  have hsy : 0 < sy := Nat.pos_of_mul_pos_right (Nat.zero_lt_of_lt ho)
  have hsx : 0 < sx := Nat.pos_of_mul_pos_left (Nat.zero_lt_of_lt ho)
  have hle : sy ≤ sy * sx := Nat.le_mul_of_pos_right sy hsx
  have hle' : sx ≤ sy * sx := Nat.le_mul_of_pos_left sx hsy
  have hdiv : o / sy ≤ o := Nat.div_le_self o sy
  have hmod : o % sy < sy := Nat.mod_lt o hsy
  exact ⟨⟨Nat.div_lt_of_lt_mul (by rwa [Nat.mul_comm]), Nat.mod_lt o hsx⟩, by omega, by omega⟩

theorem placed_of_eq (hsy : min sy (o / sx + 65) < 2 ^ 31) (hsx : min sx (o % sx + 65) < 2 ^ 31)
    (h : o / sy = o / sx ∧ o % sy = o % sx) : Placed sy sx o :=
  ⟨⟨hsy, .inl h.1⟩, hsx, .inl h.2⟩

/-- **A pixel has the right mean in every image** exactly if it is well placed. -/
theorem placed_iff (hsize : sy * sx < 2 ^ 63) (ho : o < sy * sx) :
    (∀ image : ℕ → K, inverseDistanceWeight image sy sx (o / sy) (o % sy) =
      some (replacement image sy sx (o / sx) (o % sx))) ↔ Placed sy sx o := by
  obtain ⟨⟨hy, hx⟩, ⟨hsy, hsx⟩, hy', hx'⟩ := offset_lt hsize ho
  have hrows := agrees_iff hsy hy hy'
  have hcolumns := agrees_iff hsx hx hx'
  refine ⟨fun h => ?_, fun h image => inverseDistanceWeight_of_agrees (hrows.2 h.1) (hcolumns.2 h.2)⟩
  have htwin := twin_of_forall hy hx h
  by_cases hthree : 3 ≤ sy ∨ 3 ≤ sx
  · exact (htwin.agrees hy hx hy' hx' hthree).imp hrows.1 hcolumns.1
  · have hself := @placed_of_eq sy sx o ((min_le_left _ _).trans_lt (by omega)) ((min_le_left _ _).trans_lt (by omega))
    have hsy0 := Nat.zero_lt_of_lt hy
    have hsx0 := Nat.zero_lt_of_lt hx
    have hsmall : sy = sx ∨ o = 0 ∨ o = 1 ∧ (sy = 1 ∧ sx = 2 ∨ sy = 2 ∧ sx = 1) := by
      have hle : sy * sx ≤ 2 * 2 := Nat.mul_le_mul (by omega) (by omega)
      rcases (by omega : sy = 1 ∨ sy = 2) with rfl | rfl <;> omega
    rcases hsmall with rfl | rfl | ⟨rfl, ⟨rfl, rfl⟩ | ⟨rfl, rfl⟩⟩
    · exact hself ⟨rfl, rfl⟩
    · exact hself ⟨by simp, by simp⟩
    · -- from the place outside of the image, its pixels have other weights
      exact absurd (htwin.ratio (0, 0) (by decide)) (by decide)
    · exact absurd (htwin.ratio (0, 0) (by decide)) (by decide)

omit [IsStrictOrderedRing K] in
/-- The pixels come out right one by one. -/
theorem fills_iff_each {image : ℕ → K} (hsize : sy * sx < 2 ^ 63) : Fills image sy sx mask ↔
    ∀ o < sy * sx, Masked mask o = true → inverseDistanceWeight image sy sx (o / sy) (o % sy) =
      some (replacement image sy sx (o / sx) (o % sx)) := by
  have hmem : ∀ o, o ∈ (List.range (sy * sx)).filter (fun o => Masked mask (o % (sy * sx))) ↔
      o < sy * sx ∧ Masked mask o = true := by
    intro o
    rw [List.mem_filter, List.mem_range]
    exact and_congr_right fun ho => by rw [Nat.mod_eq_of_lt ho]
  rw [Fills, fillPixels, Nat.mod_eq_of_lt (by omega : sy * sx < 2 ^ 64),
    mapM_scatter_iff (f := fun o => inverseDistanceWeight image sy sx (o / sy) (o % sy)) (List.nodup_range.filter _)]
  simp only [hmem]
  constructor
  · intro h o ho hmasked
    rw [h.1 o ⟨ho, hmasked⟩, if_pos ⟨ho, hmasked⟩]
  · intro h
    refine ⟨fun o ho => ?_, fun o ho => if_neg ho⟩
    rw [if_pos ho]
    exact h o ho.1 ho.2

theorem same_place_iff (hsy : 0 < sy) (hsx : 0 < sx) :
    o / sy = o / sx ∧ o % sy = o % sx ↔ sy = sx ∨ o < min sy sx := by
  constructor
  · rintro ⟨hdiv, hmod⟩
    rw [or_iff_not_imp_left]
    intro hne
    have hmul : sy * (o / sx) = sx * (o / sx) := by
      have hy := Nat.div_add_mod o sy
      have hx := Nat.div_add_mod o sx
      rw [hdiv, hmod] at hy
      omega
    have hzero : o / sx = 0 := Nat.eq_zero_of_not_pos fun hpos => hne (Nat.eq_of_mul_eq_mul_right hpos hmul)
    exact lt_min ((Nat.div_eq_zero_iff_lt hsy).1 (hdiv.trans hzero)) ((Nat.div_eq_zero_iff_lt hsx).1 hzero)
  · rintro (rfl | hlt)
    · exact ⟨rfl, rfl⟩
    · obtain ⟨hy, hx⟩ := lt_min_iff.1 hlt
      rw [Nat.div_eq_of_lt hy, Nat.div_eq_of_lt hx, Nat.mod_eq_of_lt hy, Nat.mod_eq_of_lt hx]
      exact ⟨rfl, rfl⟩

/-- **Below `2^31`**, the masked pixels are well placed if the image is square or they lie in the first row, left of
column `sy`. -/
theorem placed_iff_of_small (hsy : sy < 2 ^ 31) (hsx : sx < 2 ^ 31) :
    (∀ o < sy * sx, Masked mask o = true → Placed sy sx o) ↔
      sy = sx ∨ ∀ o < sy * sx, Masked mask o = true → o < min sy sx := by
  have hsize : sy * sx < 2 ^ 63 := (Nat.mul_lt_mul'' hsy hsx).trans (by norm_num)
  have hplaced : ∀ o < sy * sx, (Placed sy sx o ↔ sy = sx ∨ o < min sy sx) := by
    intro o ho
    obtain ⟨⟨hy, hx⟩, -⟩ := offset_lt hsize ho
    have hy' : o / sy < sx := Nat.div_lt_of_lt_mul ho
    have hx' : o % sy < sy := Nat.mod_lt o (Nat.zero_lt_of_lt hy)
    rw [Placed, matches_iff_of_small hsy hy (hy'.trans hsx), matches_iff_of_small hsx hx (hx'.trans hsy),
      same_place_iff (Nat.zero_lt_of_lt hy) (Nat.zero_lt_of_lt hx)]
  constructor
  · intro h
    rw [or_iff_not_imp_left]
    exact fun hne o ho hmasked => ((hplaced o ho).1 (h o ho hmasked)).resolve_left hne
  · rintro (heq | h) o ho hmasked
    · exact (hplaced o ho).2 (.inl heq)
    · exact (hplaced o ho).2 (.inr (h o ho hmasked))

/-- **All images are filled right**, in exact arithmetic, exactly if every masked pixel is well placed; below `2^31`,
if the image is square or the masked pixels lie in the first row, left of column `sy`. -/
theorem fills_iff (hsize : sy * sx < 2 ^ 63) : ((∀ image : ℕ → K, Fills image sy sx mask) ↔
      ∀ o < sy * sx, Masked mask o = true → Placed sy sx o) ∧
    (sy < 2 ^ 31 → sx < 2 ^ 31 → ((∀ image : ℕ → K, Fills image sy sx mask) ↔
      sy = sx ∨ ∀ o < sy * sx, Masked mask o = true → o < min sy sx)) := by
  have hfills : (∀ image : ℕ → K, Fills image sy sx mask) ↔
      ∀ o < sy * sx, Masked mask o = true → Placed sy sx o := by
    constructor
    · intro h o ho hmasked
      exact (placed_iff hsize ho).1 fun image => (fills_iff_each hsize).1 (h image) o ho hmasked
    · intro h image
      exact (fills_iff_each hsize).2 fun o ho hmasked => (placed_iff hsize ho).2 (h o ho hmasked) image
  exact ⟨hfills, fun hsy hsx => hfills.trans (placed_iff_of_small hsy hsx)⟩

theorem two_by_two_fills : Fills (fun o => (o : ℚ)) 2 2 none := by
  refine (fills_iff (by norm_num)).1.2 (fun o ho _ => ?_) _
  exact placed_of_eq ((min_le_left _ _).trans_lt (by norm_num)) ((min_le_left _ _).trans_lt (by norm_num)) ⟨rfl, rfl⟩

/-- The last pixel of the first row gets the mean around the first pixel of the second. -/
theorem two_by_three_not_filled :
    ¬Fills (fun o => if o = 1 then (1 : ℚ) else if o = 3 then 2 else 0) 2 3 (some fun o => o == 2) := by
  intro h
  exact absurd ((fills_iff_each (by norm_num)).1 h 2 (by norm_num) rfl) (by decide +kernel)

end All

end Redux.Image.FillPixels
