import Redux.Lib.IntType
import Redux.Lib.RowMajor
import Redux.Lib.Run
import Redux.Lib.Scatter
import Redux.Util.ArrayCopy
import Redux.Util.ArrayFrames
import Redux.Util.ArrayLimits

/-!
# Image.ClipImage — images cut to what lies between two positions

`clipImage` limits the last two dimensions of an array, trims it and reverses its rows and columns where the
positions descend.  A trimmed array has lost its dimensions of size one, and its only pixel with them.  A
symmetric clip is moved to the middle of the *first* two dimensions, in 16 bits: for a stack they are not those
of its images (`clips_iff`).
-/

namespace Redux.Image.ClipImage

open Redux.Lib Redux.Lib.Scatter Redux.Util.Arrays

/-! ## Model -/

section Model

variable {T : Type*}

/-- `std::reverse` of `n` elements from `p` on, in a block of `N`; `none` if they are not all there. -/
def reverse (N p n : ℕ) (data : ℕ → T) : Option (ℕ → T) :=
  if p + n ≤ N then some fun j => if p ≤ j ∧ j < p + n then data (2 * p + n - 1 - j) else data j else none

/-- Two rows of `n` elements, copied over each other by way of a third. -/
def exchange (N p q n : ℕ) (data : ℕ → T) : Option (ℕ → T) :=
  if p + n ≤ N ∧ q + n ≤ N then
    some fun j =>
      if q ≤ j ∧ j < q + n then data (p + (j - q)) else if p ≤ j ∧ j < p + n then data (q + (j - p)) else data j
  else none

/-- The rows are those of `reshape`, the first of them is `imgPtr`. -/
def reverseX (N imgPtr sizeY sizeX : ℕ) (data : ℕ → T) : Option (ℕ → T) :=
  (List.range sizeY).foldlM (fun data y => reverse N ((imgPtr + y) * sizeX) sizeX data) data

def reverseY (N imgPtr sizeY sizeX : ℕ) (data : ℕ → T) : Option (ℕ → T) :=
  (List.range (sizeY / 2)).foldlM
    (fun data y => exchange N ((imgPtr + y) * sizeX) ((imgPtr + (sizeY - y - 1)) * sizeX) sizeX data) data

/-- The loop over the images. -/
def flip (N nImgs sy sx : ℕ) (flipX flipY : Bool) (data : ℕ → T) : Option (ℕ → T) :=
  (List.range nImgs).foldlM (fun data i =>
    (if flipX then reverseX N (i * sy) sy sx data else some data).bind fun data =>
      if flipY then reverseY N (i * sy) sy sx data else some data) data

/-- The elements of a trimmed array, reversed where that is asked for. -/
def mirrorImages (nImgs sy sx : ℕ) (flipX flipY : Bool) (img : View × (Cell → T)) : Option (View × (Cell → T)) :=
  if flipX || flipY then
    (flip img.1.array.dataSize nImgs sy sx flipX flipY fun j => img.2 (img.1.block, j)).map fun data =>
      (img.1, fun c => if c.1 = img.1.block ∧ 0 ≤ c.2 then data c.2.toNat else img.2 c)
  else some img

def int16 : IntType := ⟨16, true, by decide⟩

/-- Two of the positions in order, and counted from zero. -/
def ordered (first last : ℤ) : ℤ × ℤ := (int16.wrap (min first last - 1), int16.wrap (max first last - 1))

/-- `sy` and `sx`, in `size_t`. -/
def size (l : ℤ × ℤ) : ℕ := ((l.2 - l.1 + 1) % 2 ^ 64).toNat

/-- The limits with `skewY` or `skewX` added, for the dimension `dim`: half of what it has more than is kept, less
the first limit.  The sums are those of `int`. -/
def skewed (dim : ℕ) (l : ℤ × ℤ) : Option (ℤ × ℤ) :=
  let skew := IntType.int.wrap ((dim - size l : ℤ) % 2 ^ 64 / 2 - l.1)
  (IntType.int.arith (l.1 + skew)).bind fun first =>
    (IntType.int.arith (l.2 + skew)).map fun last => (int16.wrap first, int16.wrap last)

/-- What is done for four positions, of the columns and of the rows: the view that is left, and the contents of the
blocks; `none` if it throws or something beyond the data is changed. -/
def clipTo [Zero T] (img : View) (m : Cell → T) (fresh : ℕ) (x₀ x₁ y₀ y₁ : ℤ) (symmetricClip : Bool) :
    Option (View × (Cell → T)) :=
  let dims := img.array.sizes
  let leading := dims.take (dims.length - 2)
  let finalClip := leading.flatMap fun sz : ℕ => [0, (sz : ℤ) - 1]
  let x := ordered x₀ x₁
  let y := ordered y₀ y₁
  (if symmetricClip then skewed (dims.getD 0 0) y else some y).bind fun limitsY =>
    (if symmetricClip then skewed (dims.getD 1 0) x else some x).bind fun limitsX =>
      (img.array.setLimitsOf (finalClip ++ [limitsY.1, limitsY.2, limitsX.1, limitsX.2])).bind fun limited =>
        (View.copy ⟨limited, img.block⟩ m fresh (.new true)).bind
          (mirrorImages leading.prod (size y) (size x) (decide (x₁ < x₀)) (decide (y₁ < y₀)))

/-- Of two positions, the same are used for both directions. -/
def clipImage [Zero T] (img : View) (m : Cell → T) (fresh : ℕ) (clip : List ℤ) (symmetricClip : Bool) :
    Option (View × (Cell → T)) :=
  if img.array.sizes.length < 2 then some (img, m)
  else
    match (if clip.length = 2 then clip ++ clip else clip) with
    | [x₀, x₁, y₀, y₁] => clipTo img m fresh x₀ x₁ y₀ y₁ symmetricClip
    | _ => some (img, m)

end Model

/-! ## What is to hold -/

/-- An image, or a stack of them: the last two dimensions are its rows and columns. -/
structure Stack where
  view : View
  lead : List Dim
  rows : Dim
  cols : Dim
  dims_eq : view.array.dims = lead ++ [rows, cols]
  constructed : view.array.Constructed

/-- Two positions inside a dimension, counted from one, as 16 bits hold them. -/
structure Positions (d : Dim) where
  first : ℤ
  last : ℤ
  first_inside : 1 ≤ first ∧ first ≤ d.current ∧ first < 2 ^ 15
  last_inside : 1 ≤ last ∧ last ≤ d.current ∧ last < 2 ^ 15

namespace Positions

variable {d : Dim} (p : Positions d)

/-- The smaller one, counted from zero. -/
def lo : ℕ := (min p.first p.last - 1).toNat

def size : ℕ := (max p.first p.last - min p.first p.last + 1).toNat

def descending : Bool := decide (p.last < p.first)

end Positions

/-- The clip has two positions for each direction, the columns first, or the same two for both. -/
def Gives {d d' : Dim} (clip : List ℤ) (px : Positions d) (py : Positions d') : Prop :=
  clip = [px.first, px.last, py.first, py.last] ∨
    clip = [px.first, px.last] ∧ py.first = px.first ∧ py.last = px.last

instance {d d' : Dim} (clip : List ℤ) (px : Positions d) (py : Positions d') : Decidable (Gives clip px py) :=
  inferInstanceAs (Decidable (_ ∨ _))

/-- Of `n` pixels, `k` from `o` on are in the middle, up to one pixel. -/
def Centred (n k o : ℕ) : Prop := o + k ≤ n ∧ n - k ≤ 2 * o + 1 ∧ 2 * o ≤ n - k + 1

instance (n k o : ℕ) : Decidable (Centred n k o) := inferInstanceAs (Decidable (_ ∧ _ ∧ _))

/-- The window that is to be kept begins at `o`. -/
def Window (symmetricClip : Bool) {d : Dim} (p : Positions d) (o : ℕ) : Prop :=
  if symmetricClip then Centred d.current p.size o else o = p.lo

def mirrored (flip : Bool) (n i : ℕ) : ℕ := if flip then n - 1 - i else i

/-- The pixel in row `y` and column `x` of the image at `b`. -/
def Stack.pixel (s : Stack) (b : ℤ) (y x : ℕ) : Cell :=
  (s.view.block, b + (s.rows.first + y) * s.rows.stride + (s.cols.first + x) * s.cols.stride)

/-- The pixels of the window that begins at row `y₀` and column `x₀`, of every image, mirrored as the positions
say. -/
def Stack.kept (s : Stack) (py : Positions s.rows) (px : Positions s.cols) (y₀ x₀ : ℕ) : List Cell :=
  (offsets s.lead).flatMap fun b => (List.range py.size).flatMap fun y => (List.range px.size).map fun x =>
    s.pixel b (y₀ + mirrored py.descending py.size y) (x₀ + mirrored px.descending px.size x)

/-- Whatever is in the blocks, `f` leaves the pixels of the window, in row-major order.  The leading dimensions are as
they were, a window one pixel wide or high may lose its dimension. -/
def Stack.Leaves (s : Stack) {T : Type*} (py : Positions s.rows) (px : Positions s.cols) (y₀ x₀ : ℕ)
    (f : (Cell → T) → ℕ → Option (View × (Cell → T))) : Prop :=
  ∀ (m : Cell → T) (fresh : ℕ), fresh ≠ s.view.block → ∃ out m', f m fresh = some (out, m') ∧
    out.array.sizes = s.lead.map Dim.current ++ [py.size, px.size].filter (1 < ·) ∧
      out.cells.map m' = (s.kept py px y₀ x₀).map m

def Stack.Clips (s : Stack) (T : Type*) [Zero T] (py : Positions s.rows) (px : Positions s.cols) (clip : List ℤ)
    (symmetricClip : Bool) : Prop :=
  ∃ y₀ x₀, Window symmetricClip py y₀ ∧ Window symmetricClip px x₀ ∧
    s.Leaves py px y₀ x₀ fun (m : Cell → T) fresh => clipImage s.view m fresh clip symmetricClip

/-- **Where the window of a dimension is moved to its middle**, by the size `dim`: that has as much on both sides of the
window as the dimension has, and 16 bits hold it.  Beyond them the window may still be clamped to where it is to be. -/
def Centres {d : Dim} (p : Positions d) (dim : ℕ) : Prop :=
  let half := (dim - p.size) / 2
  let o := half % 2 ^ 16
  p.size ≤ dim ∧ (half % 2 ^ 32 + p.size ≤ 2 ^ 31 ∨ 2 ^ 31 + p.lo ≤ half % 2 ^ 32) ∧
    (o + p.size ≤ 2 ^ 15 ∧ Centred d.current p.size o ∨
      (p.size = 1 ∧ d.current ≤ 2 ∧ (o < 2 ^ 15 ∨ d.first = 0)) ∨
      (d.first = 0 ∧ o < 2 ^ 15 ∧ 2 ^ 15 < o + p.size ∧ min (o + 1) d.current = p.size ∧ d.current ≤ p.size + 1))

instance {d : Dim} (p : Positions d) (dim : ℕ) : Decidable (Centres p dim) := inferInstanceAs (Decidable (_ ∧ _ ∧ _))

/-! ## Rows and columns reversed -/

section Flips

variable {T : Type*} {N sy sx : ℕ} {flipX flipY : Bool} {data : ℕ → T}

theorem mirrored_lt {n i : ℕ} {flip : Bool} (hi : i < n) : mirrored flip n i < n := by
  unfold mirrored
  split_ifs
  · omega
  · exact hi

/-- Where what is at `j` afterwards comes from. -/
def place (sy sx : ℕ) (flipX flipY : Bool) (j : ℕ) : ℕ :=
  (j / sx / sy * sy + mirrored flipY sy (j / sx % sy)) * sx + mirrored flipX sx (j % sx)

theorem place_index {i y x : ℕ} (hy : y < sy) (hx : x < sx) : place sy sx flipX flipY ((i * sy + y) * sx + x) =
    (i * sy + mirrored flipY sy y) * sx + mirrored flipX sx x := by
  rw [place, RowMajor.index_div hx, RowMajor.index_mod hx, RowMajor.index_div hy, RowMajor.index_mod hy]

theorem place_row (hx : 0 < sx) (j : ℕ) :
    place sy sx flipX flipY j / sx = j / sx / sy * sy + mirrored flipY sy (j / sx % sy) :=
  RowMajor.index_div (mirrored_lt (Nat.mod_lt _ hx))

theorem place_image (hy : 0 < sy) (hx : 0 < sx) (j : ℕ) : place sy sx flipX flipY j / sx / sy = j / sx / sy := by
  rw [place_row hx, RowMajor.index_div (mirrored_lt (Nat.mod_lt _ hy))]

theorem place_false (j : ℕ) : place sy sx false false j = j := by
  rw [place, mirrored, mirrored, if_neg Bool.false_ne_true, if_neg Bool.false_ne_true, Nat.div_add_mod',
    Nat.div_add_mod']

/-- Columns first, rows afterwards. -/
theorem place_place (hy : 0 < sy) (hx : 0 < sx) (j : ℕ) :
    place sy sx true false (place sy sx false true j) = place sy sx true true j := by
  have hmod := Nat.mod_lt (j / sx) hy
  have hcol := Nat.mod_lt j hx
  rw [place.eq_1 sy sx false true, place_index (mirrored_lt hmod) (mirrored_lt hcol)]
  rfl

/-- The elements of a row. -/
theorem row_iff {r j : ℕ} (hx : 0 < sx) : j / sx = r ↔ r * sx ≤ j ∧ j < r * sx + sx := by
  rw [Nat.div_eq_iff hx, Nat.mul_comm]
  omega

theorem exists_reverse (hx : 0 < sx) {r : ℕ} (hfits : r * sx + sx ≤ N) (data : ℕ → T) :
    ∃ data', reverse N (r * sx) sx data = some data' ∧ Moved (place sy sx true false) (· / sx = r) data data' := by
  refine ⟨_, if_pos hfits, fun j hj => ?_, fun j hj => if_neg (mt (row_iff hx).2 hj)⟩
  have hrow := (row_iff hx).1 hj
  have hmod := Nat.div_add_mod' j sx
  have hplace : place sy sx true false j = 2 * (r * sx) + sx - 1 - j := by
    rw [hj] at hmod
    rw [place, mirrored, mirrored, if_pos rfl, if_neg Bool.false_ne_true, Nat.div_add_mod', hj]
    omega
  rw [if_pos hrow, hplace]

theorem exists_reverseX (hx : 0 < sx) {imgPtr : ℕ} (hfits : (imgPtr + sy) * sx ≤ N) (data : ℕ → T) :
    ∃ data', reverseX N imgPtr sy sx data = some data' ∧
      Moved (place sy sx true false) (fun j => ∃ y < sy, j / sx = imgPtr + y) data data' := by
  refine foldlM_range_moved (fun i j k hi hj => ?_) (fun i j hj => ?_) fun y hy data => ?_
  · omega
  · rw [place, mirrored, mirrored, if_pos rfl, if_neg Bool.false_ne_true, Nat.div_add_mod', RowMajor.index_div, hj]
    exact Nat.lt_of_le_of_lt (Nat.sub_le _ _) (by omega)
  · refine exists_reverse hx ?_ data
    calc (imgPtr + y) * sx + sx = (imgPtr + y + 1) * sx := by rw [Nat.succ_mul]
      _ ≤ (imgPtr + sy) * sx := Nat.mul_le_mul_right _ (by omega)
      _ ≤ N := hfits

/-- The row that an element of a row comes from. -/
theorem place_of_row {i y j : ℕ} (hy : y < sy) (hj : j / sx = i * sy + y) :
    place sy sx false true j = (i * sy + (sy - 1 - y)) * sx + j % sx := by
  rw [place, hj, RowMajor.index_div hy, RowMajor.index_mod hy]
  rfl

theorem exists_exchange (hx : 0 < sx) {i y : ℕ} (hy : y < sy / 2) (hfits : (i * sy + sy) * sx ≤ N) (data : ℕ → T) :
    ∃ data', exchange N ((i * sy + y) * sx) ((i * sy + (sy - y - 1)) * sx) sx data = some data' ∧
      Moved (place sy sx false true) (fun j => j / sx = i * sy + y ∨ j / sx = i * sy + (sy - y - 1)) data data' := by
  have hinside : ∀ k < sy, (i * sy + k) * sx + sx ≤ N := fun k hk =>
    calc (i * sy + k) * sx + sx = (i * sy + k + 1) * sx := by rw [Nat.succ_mul]
      _ ≤ (i * sy + sy) * sx := Nat.mul_le_mul_right _ (by omega)
      _ ≤ N := hfits
  have hother : sy - 1 - (sy - y - 1) = y := by omega
  have hother' : sy - 1 - y = sy - y - 1 := by omega
  refine ⟨_, if_pos ⟨hinside y (by omega), hinside (sy - y - 1) (by omega)⟩, fun j hj => ?_, fun j hj => ?_⟩
  · have hmod := Nat.div_add_mod' j sx
    rcases hj with hj | hj
    · have hq : ¬((i * sy + (sy - y - 1)) * sx ≤ j ∧ j < (i * sy + (sy - y - 1)) * sx + sx) := by
        rw [← row_iff hx]
        omega
      rw [if_neg hq, if_pos ((row_iff hx).1 hj), place_of_row (by omega) hj, hother']
      rw [hj] at hmod
      exact congrArg data (by omega)
    · rw [if_pos ((row_iff hx).1 hj), place_of_row (by omega) hj, hother]
      rw [hj] at hmod
      exact congrArg data (by omega)
  · obtain ⟨hp, hq⟩ := not_or.1 hj
    rw [if_neg (mt (row_iff hx).2 hq), if_neg (mt (row_iff hx).2 hp)]

/-- The elements of an image. -/
theorem image_iff {i j : ℕ} (hy : 0 < sy) : (∃ y < sy, j / sx = i * sy + y) ↔ j / sx / sy = i := by
  constructor
  · rintro ⟨y, hy, hj⟩
    rw [hj, RowMajor.index_div hy]
  · intro hj
    exact ⟨j / sx % sy, Nat.mod_lt _ hy, by rw [← hj, Nat.div_add_mod']⟩

theorem exists_reverseX_image (hy : 0 < sy) (hx : 0 < sx) {i : ℕ} (hfits : (i * sy + sy) * sx ≤ N) (data : ℕ → T) :
    ∃ data', reverseX N (i * sy) sy sx data = some data' ∧
      Moved (place sy sx true false) (· / sx / sy = i) data data' := by
  obtain ⟨data', hdata', hmoved⟩ := exists_reverseX hx hfits data
  exact ⟨data', hdata', hmoved.congr (fun _ _ => rfl) fun j => image_iff hy⟩

/-- The rows that are exchanged: all of an image but the one in the middle. -/
theorem exists_exchanges (hx : 0 < sx) {i : ℕ} (hfits : (i * sy + sy) * sx ≤ N) (data : ℕ → T) :
    ∃ data', reverseY N (i * sy) sy sx data = some data' ∧ Moved (place sy sx false true)
      (fun j => ∃ y < sy / 2, y < sy / 2 ∧ (j / sx = i * sy + y ∨ j / sx = i * sy + (sy - y - 1))) data data' := by
  refine foldlM_range_moved ?_ ?_ fun y hlt data => ?_
  · rintro y y' j ⟨hy, hj⟩ ⟨hy', hj'⟩
    omega
  · rintro y j ⟨hlt, hj⟩
    refine ⟨hlt, ?_⟩
    have hmod := Nat.mod_lt j hx
    rcases hj with hj | hj
    · rw [place_of_row (by omega) hj, RowMajor.index_div hmod]
      omega
    · rw [place_of_row (by omega) hj, RowMajor.index_div hmod]
      omega
  · obtain ⟨data', hdata', hmoved⟩ := exists_exchange hx hlt hfits data
    exact ⟨data', hdata', hmoved.congr (fun _ _ => rfl) fun j => (and_iff_right hlt).symm⟩

theorem exists_reverseY (hy : 0 < sy) (hx : 0 < sx) {i : ℕ} (hfits : (i * sy + sy) * sx ≤ N) (data : ℕ → T) :
    ∃ data', reverseY N (i * sy) sy sx data = some data' ∧
      Moved (place sy sx false true) (· / sx / sy = i) data data' := by
  obtain ⟨data', hdata', hmoved⟩ := exists_exchanges hx hfits data
  refine ⟨data', hdata', hmoved.mono ?_ fun j hj hout => ?_⟩
  · rintro j ⟨y, -, hlt, hrow⟩
    rw [← image_iff hy]
    rcases hrow with hrow | hrow
    · exact ⟨y, by omega, hrow⟩
    · exact ⟨sy - y - 1, by omega, hrow⟩
  · -- only the row in the middle is left
    obtain ⟨y, hlt, hrow⟩ := (image_iff hy).2 hj
    have hmiddle : sy - 1 - y = y := by
      by_contra hne
      by_cases hhalf : y < sy / 2
      · exact hout ⟨y, hhalf, hhalf, .inl hrow⟩
      · have hback : sy - (sy - 1 - y) - 1 = y := by omega
        exact hout ⟨sy - 1 - y, by omega, by omega, .inr (by rw [hback]; exact hrow)⟩
    rw [place_of_row hlt hrow, hmiddle, ← hrow, Nat.div_add_mod']

/-- One image, its rows reversed and its columns, as the flags say. -/
theorem exists_flip_image (hy : 0 < sy) (hx : 0 < sx) {i : ℕ} (hfits : (i * sy + sy) * sx ≤ N) (data : ℕ → T) :
    ∃ data', ((if flipX then reverseX N (i * sy) sy sx data else some data).bind fun data =>
        if flipY then reverseY N (i * sy) sy sx data else some data) = some data' ∧
      Moved (place sy sx flipX flipY) (· / sx / sy = i) data data' := by
  obtain ⟨d₁, hd₁, h₁⟩ := exists_reverseX_image hy hx hfits data
  cases flipX with
  | false =>
    cases flipY with
    | false => exact ⟨data, rfl, fun j _ => by rw [place_false], fun _ _ => rfl⟩
    | true => exact exists_reverseY hy hx hfits data
  | true =>
    rw [if_pos rfl, hd₁, Option.bind_some]
    cases flipY with
    | false => exact ⟨d₁, rfl, h₁⟩
    | true =>
      obtain ⟨d₂, hd₂, h₂⟩ := exists_reverseY hy hx hfits d₁
      refine ⟨d₂, hd₂, (h₁.trans h₂ fun j hj => ?_).congr (fun j _ => place_place hy hx j) fun _ => Iff.rfl⟩
      rw [place_image hy hx]
      exact hj

theorem exists_flip_moved (hy : 0 < sy) (hx : 0 < sx) {nImgs : ℕ} (hfits : nImgs * sy * sx ≤ N) (data : ℕ → T) :
    ∃ data', flip N nImgs sy sx flipX flipY data = some data' ∧
      Moved (place sy sx flipX flipY) (fun j => ∃ i < nImgs, j / sx / sy = i) data data' := by
  refine foldlM_range_moved (fun i i' j hi hi' => hi.symm.trans hi') ?_ fun i hi data => ?_
  · rintro i j rfl
    exact place_image hy hx j
  · refine exists_flip_image hy hx ?_ data
    calc (i * sy + sy) * sx = (i + 1) * sy * sx := by rw [Nat.succ_mul]
      _ ≤ nImgs * sy * sx := Nat.mul_le_mul_right _ (Nat.mul_le_mul_right _ hi)
      _ ≤ N := hfits

/-- **Every image of a block that has them all**, mirrored as the flags say. -/
theorem exists_flip (hy : 0 < sy) (hx : 0 < sx) {nImgs : ℕ} (hfits : nImgs * sy * sx ≤ N) (data : ℕ → T) :
    ∃ data', flip N nImgs sy sx flipX flipY data = some data' ∧
      ∀ i < nImgs, ∀ y < sy, ∀ x < sx, data' ((i * sy + y) * sx + x) =
        data ((i * sy + mirrored flipY sy y) * sx + mirrored flipX sx x) := by
  obtain ⟨data', hdata', hmoved⟩ := exists_flip_moved hy hx hfits data
  refine ⟨data', hdata', fun i hi y hy x hx => ?_⟩
  rw [hmoved.moved, place_index hy hx]
  exact ⟨i, hi, by rw [RowMajor.index_div hx, RowMajor.index_div hy]⟩

/-! ## Nothing is lost -/

/-- What is in the block before is in it afterwards. -/
def Kept (N : ℕ) (data data' : ℕ → T) : Prop := ∀ j < N, ∃ i < N, data' i = data j

theorem Kept.trans {data' data'' : ℕ → T} (h : Kept N data data') (h' : Kept N data' data'') : Kept N data data'' := by
  intro j hj
  obtain ⟨i, hi, heq⟩ := h j hj
  obtain ⟨k, hk, heq'⟩ := h' i hi
  exact ⟨k, hk, heq'.trans heq⟩

theorem kept_reverse {p n : ℕ} {data' : ℕ → T} (h : reverse N p n data = some data') : Kept N data data' := by
  unfold reverse at h
  split_ifs at h with hfits
  obtain rfl := Option.some.inj h
  intro j hj
  by_cases hin : p ≤ j ∧ j < p + n
  · refine ⟨2 * p + n - 1 - j, by omega, ?_⟩
    have hback : 2 * p + n - 1 - (2 * p + n - 1 - j) = j := by omega
    dsimp only
    rw [if_pos (by omega), hback]
  · exact ⟨j, hj, if_neg hin⟩

/-- Two rows are the same or apart. -/
theorem kept_exchange {a b : ℕ} {data' : ℕ → T} (h : exchange N (a * sx) (b * sx) sx data = some data') :
    Kept N data data' := by
  unfold exchange at h
  split_ifs at h with hfits
  obtain rfl := Option.some.inj h
  have hrows : a * sx = b * sx ∨ a * sx + sx ≤ b * sx ∨ b * sx + sx ≤ a * sx := by
    rw [← Nat.succ_mul, ← Nat.succ_mul]
    rcases Nat.lt_trichotomy a b with hlt | rfl | hlt
    · exact .inr (.inl (Nat.mul_le_mul_right sx hlt))
    · exact .inl rfl
    · exact .inr (.inr (Nat.mul_le_mul_right sx hlt))
  intro j hj
  by_cases hp : a * sx ≤ j ∧ j < a * sx + sx
  · refine ⟨b * sx + (j - a * sx), by omega, ?_⟩
    dsimp only
    rw [if_pos (by omega)]
    exact congrArg data (by omega)
  · by_cases hq : b * sx ≤ j ∧ j < b * sx + sx
    · refine ⟨a * sx + (j - b * sx), by omega, ?_⟩
      dsimp only
      rw [if_neg (by omega), if_pos (by omega)]
      exact congrArg data (by omega)
    · exact ⟨j, hj, (if_neg hq).trans (if_neg hp)⟩

theorem kept_foldlM {step : (ℕ → T) → ℕ → Option (ℕ → T)} {l : List ℕ} {data' : ℕ → T}
    (hstep : ∀ d i d', step d i = some d' → Kept N d d') (h : l.foldlM step data = some data') : Kept N data data' :=
  (always_of_invariant (fun d i d' hd hs => hd.trans (hstep d i d' hs)) fun j hj => ⟨j, hj, rfl⟩).last h

/-- **Reversed or not, all elements of the block are still there.** -/
theorem kept_flip {nImgs : ℕ} {data' : ℕ → T} (h : flip N nImgs sy sx flipX flipY data = some data') :
    Kept N data data' := by
  refine kept_foldlM (fun d i d' hs => ?_) h
  obtain ⟨d₁, hd₁, hd'⟩ := Option.bind_eq_some_iff.1 hs
  have hX : Kept N d d₁ := by
    split_ifs at hd₁
    · exact kept_foldlM (fun _ _ _ => kept_reverse) hd₁
    · obtain rfl := Option.some.inj hd₁
      exact fun j hj => ⟨j, hj, rfl⟩
  split_ifs at hd'
  · exact hX.trans (kept_foldlM (fun _ _ _ => kept_exchange) hd')
  · obtain rfl := Option.some.inj hd'
    exact hX

end Flips

/-! ## Where the window is -/

section Windows

variable {d : Dim} {p : Positions d} {dim : ℕ}

theorem wrap_int (x : ℤ) : IntType.int.wrap x = (x + 2 ^ 31) % 2 ^ 32 - 2 ^ 31 := by
  show Int.bmod x (2 ^ 32) = _
  rw [Int.bmod_def]
  split_ifs <;> omega

theorem wrap_int16 (x : ℤ) : int16.wrap x = (x + 2 ^ 15) % 2 ^ 16 - 2 ^ 15 := by
  show Int.bmod x (2 ^ 16) = _
  rw [Int.bmod_def]
  split_ifs <;> omega

theorem wrap_int16_of_fits {x : ℤ} (hlow : -2 ^ 15 ≤ x) (hhigh : x < 2 ^ 15) : int16.wrap x = x := by
  rw [wrap_int16]
  omega

theorem arith_int (x : ℤ) : IntType.int.arith x = if -2 ^ 31 ≤ x ∧ x ≤ 2 ^ 31 - 1 then some x else none := rfl

namespace Positions

theorem bounds (p : Positions d) : 0 < p.size ∧ p.lo + p.size ≤ d.current ∧ p.lo + p.size < 2 ^ 15 := by
  have hlow : 1 ≤ min p.first p.last := le_min p.first_inside.1 p.last_inside.1
  have hcurrent : max p.first p.last ≤ d.current := max_le p.first_inside.2.1 p.last_inside.2.1
  have hhigh : max p.first p.last < 2 ^ 15 := max_lt p.first_inside.2.2 p.last_inside.2.2
  have hle : min p.first p.last ≤ max p.first p.last := min_le_max
  unfold size lo
  generalize min p.first p.last = low at *
  generalize max p.first p.last = high at *
  omega

/-- The limits, counted from zero. -/
theorem ordered_eq (p : Positions d) : ordered p.first p.last = ((p.lo : ℤ), (p.lo : ℤ) + p.size - 1) := by
  have hlow : 1 ≤ min p.first p.last := le_min p.first_inside.1 p.last_inside.1
  have hhigh : max p.first p.last < 2 ^ 15 := max_lt p.first_inside.2.2 p.last_inside.2.2
  have hle : min p.first p.last ≤ max p.first p.last := min_le_max
  unfold ordered size lo
  generalize min p.first p.last = low at *
  generalize max p.first p.last = high at *
  rw [wrap_int16_of_fits (by omega) (by omega), wrap_int16_of_fits (by omega) (by omega), Prod.mk.injEq]
  omega

theorem size_eq (p : Positions d) : ClipImage.size ((p.lo : ℤ), (p.lo : ℤ) + p.size - 1) = p.size := by
  have hbounds := p.bounds
  unfold ClipImage.size
  dsimp only
  omega

end Positions

/-- A window that is not larger than the size it is moved by, if the sums fit in an `int`. -/
theorem skewed_of_le (hdim : dim < 2 ^ 64) (hle : p.size ≤ dim) :
    skewed dim ((p.lo : ℤ), (p.lo : ℤ) + p.size - 1) =
      if (dim - p.size) / 2 % 2 ^ 32 + p.size ≤ 2 ^ 31 ∨ 2 ^ 31 + p.lo ≤ (dim - p.size) / 2 % 2 ^ 32 then
        some (int16.wrap ((dim - p.size) / 2 : ℕ), int16.wrap ((dim - p.size) / 2 + p.size - 1 : ℕ))
      else none := by
  have hbounds := p.bounds
  have hhalf : (dim - p.size : ℤ) % 2 ^ 64 / 2 = ((dim - p.size) / 2 : ℕ) := by omega
  unfold skewed
  rw [p.size_eq, hhalf, wrap_int]
  generalize (dim - p.size) / 2 = half
  dsimp only
  rw [arith_int, arith_int]
  by_cases hfits : half % 2 ^ 32 + p.size ≤ 2 ^ 31 ∨ 2 ^ 31 + p.lo ≤ half % 2 ^ 32
  · rw [if_pos hfits, if_pos (by omega), if_pos (by omega), Option.bind_some, Option.map_some]
    simp only [wrap_int16, Option.some.injEq, Prod.mk.injEq]
    omega
  · rw [if_neg hfits]
    split_ifs
    · omega
    · rfl
    · rfl
    · rfl

/-- A larger one begins before the dimension. -/
theorem skewed_of_lt (hlt : dim < p.size) : skewed dim ((p.lo : ℤ), (p.lo : ℤ) + p.size - 1) =
    some (-(((p.size - dim + 1) / 2 : ℕ) : ℤ), (p.size : ℤ) - 1 - (((p.size - dim + 1) / 2 : ℕ) : ℤ)) := by
  have hbounds := p.bounds
  have hhalf : (dim - p.size : ℤ) % 2 ^ 64 / 2 = 2 ^ 63 - ((p.size - dim + 1) / 2 : ℕ) := by omega
  have hle : (p.size - dim + 1) / 2 ≤ p.size := by omega
  unfold skewed
  rw [p.size_eq, hhalf]
  generalize (p.size - dim + 1) / 2 = half at hle
  have hskew : IntType.int.wrap (2 ^ 63 - half - p.lo) = -half - p.lo := by
    rw [wrap_int]
    omega
  have hfirst : (p.lo : ℤ) + (-half - p.lo) = -half := by ring
  have hlast : (p.lo : ℤ) + p.size - 1 + (-half - p.lo) = p.size - 1 - half := by ring
  dsimp only
  rw [hskew, hfirst, hlast, arith_int, arith_int, if_pos (by omega), if_pos (by omega), Option.bind_some,
    Option.map_some, wrap_int16_of_fits (by omega) (by omega), wrap_int16_of_fits (by omega) (by omega)]

/-- The pixels of a dimension from `o` on. -/
def window (d : Dim) (o k : ℕ) : Dim := { d with first := d.first + o, last := d.first + o + k - 1, current := k }

theorem window_ok {o k : ℕ} (hd : d.Ok) (hk : 0 < k) (hle : o + k ≤ d.current) : Reshaped d (window d o k) := by
  have hfirst := hd.first_nonneg
  have hlast := hd.last_lt
  have hcurrent := hd.current_eq
  refine ⟨rfl, rfl, ?_⟩
  unfold window
  constructor <;> dsimp only <;> omega

theorem eq_window {d' : Dim} {o k : ℕ} (h : Reshaped d d') (hfirst : d'.first = d.first + o)
    (hcurrent : d'.current = k) : d' = window d o k := by
  have hsize := h.size_eq
  have hstride := h.stride_eq
  have hlast : d'.last = d.first + o + k - 1 := by
    have hcount := h.ok.current_eq
    omega
  cases d'
  simp only [window, Dim.mk.injEq] at *
  exact ⟨hsize, hstride, hfirst, hlast, hcurrent⟩

/-- An index that is clamped, relative to the first one. -/
def clamped (d : Dim) (i : ℤ) : ℤ := min (max i (-d.first)) (d.current - 1)

theorem add_clamped (hd : d.Ok) (i : ℤ) : min (max (d.first + i) 0) d.last = d.first + clamped d i := by
  have hcurrent := hd.current_eq
  unfold clamped
  omega

theorem limit_clamped (hd : d.Ok) (first last : ℤ) :
    (Array.limit d first last).first = d.first + min (clamped d first) (clamped d last) ∧
      (Array.limit d first last).last = d.first + max (clamped d first) (clamped d last) := by
  rw [Array.limit_first, Array.limit_last, add_clamped hd, add_clamped hd]
  exact ⟨min_add_add_left _ _ _, max_add_add_left _ _ _⟩

theorem limit_eq_window_iff {first last : ℤ} {o k : ℕ} (hd : d.Ok) :
    Array.limit d first last = window d o k ↔
      min (clamped d first) (clamped d last) = o ∧ max (clamped d first) (clamped d last) = o + k - 1 := by
  have hcurrent := (limit_ok hd first last).ok.current_eq
  have hlimit := limit_clamped hd first last
  constructor
  · intro heq
    rw [heq, window] at hlimit
    dsimp only at hlimit
    omega
  · rintro ⟨hfirst, hlast⟩
    exact eq_window (limit_ok hd first last) (by omega) (by omega)

theorem clamped_nonneg (hd : d.Ok) {i : ℤ} (hi : 0 ≤ i) : clamped d i = min i (d.current - 1) := by
  have hfirst := hd.first_nonneg
  rw [clamped, max_eq_left (by omega)]

/-- A negative index leads out of a view that does not begin where its block does. -/
theorem clamped_neg (hd : d.Ok) {i : ℤ} (hi : i < 0) : clamped d i ≤ 0 ∧ (0 ≤ clamped d i ↔ d.first = 0) := by
  have hfirst := hd.first_nonneg
  have hle := hd.first_le
  have hcurrent := hd.current_eq
  unfold clamped
  omega

section Regimes

variable {k r : ℕ}

/-- A window that is clamped at most at its end. -/
theorem exists_inside_iff (hd : d.Ok) (hk : 0 < k) (hle : k ≤ d.current) :
    (∃ o : ℕ, Centred d.current k o ∧ min (clamped d r) (clamped d (r + k - 1 : ℕ)) = o ∧
      max (clamped d r) (clamped d (r + k - 1 : ℕ)) = o + k - 1) ↔ Centred d.current k r ∨ k = 1 ∧ d.current ≤ 2 := by
  have hr : clamped d r = min (r : ℤ) (d.current - 1) := clamped_nonneg hd (by omega)
  have hend : clamped d (r + k - 1 : ℕ) = min ((r + k - 1 : ℕ) : ℤ) (d.current - 1) := clamped_nonneg hd (by omega)
  rw [min_eq_left (by omega), max_eq_right (by omega), hr, hend]
  unfold Centred
  constructor
  · rintro ⟨o, ho, hmin, hmax⟩
    by_cases hlt : r + k ≤ d.current
    · exact .inl (by omega)
    · exact .inr (by omega)
  · rintro (h | ⟨rfl, hn⟩)
    · exact ⟨r, h, by omega, by omega⟩
    · exact ⟨min r (d.current - 1), by omega, by omega, by omega⟩

/-- A window whose end is negative. -/
theorem exists_overrun_iff (hd : d.Ok) (hle : k ≤ d.current) {last : ℤ} (hlast : last < 0) :
    (∃ o : ℕ, Centred d.current k o ∧ min (clamped d r) (clamped d last) = o ∧
      max (clamped d r) (clamped d last) = o + k - 1) ↔
        d.first = 0 ∧ min (r + 1) d.current = k ∧ d.current ≤ k + 1 := by
  have hr : clamped d r = min (r : ℤ) (d.current - 1) := clamped_nonneg hd (by omega)
  obtain ⟨hend, hzero⟩ := clamped_neg hd hlast
  have hcurrent := hd.current_pos
  rw [min_eq_right (by omega), max_eq_left (by omega), hr, ← hzero]
  unfold Centred
  constructor
  · rintro ⟨o, ho, hmin, hmax⟩
    omega
  · rintro ⟨hnonneg, hmin, hn⟩
    exact ⟨0, by omega, by omega, by omega⟩

/-- A window whose beginning is negative, and that ends before it were complete. -/
theorem exists_before_iff (hd : d.Ok) (hk : 0 < k) {first last : ℤ} (hfirst : first < 0) (hle : first ≤ last)
    (hlast : last + 1 < k ∨ k = 1 ∧ last < 0) :
    (∃ o : ℕ, Centred d.current k o ∧ min (clamped d first) (clamped d last) = o ∧
      max (clamped d first) (clamped d last) = o + k - 1) ↔ k = 1 ∧ d.current ≤ 2 ∧ d.first = 0 := by
  obtain ⟨hbegin, hzero⟩ := clamped_neg hd hfirst
  have hmono : clamped d first ≤ clamped d last := by
    unfold clamped
    omega
  rw [min_eq_left hmono, max_eq_right hmono, ← hzero]
  unfold Centred
  constructor
  · rintro ⟨o, ho, hmin, hmax⟩
    have hend : last < 0 := by
      by_contra hnonneg
      rw [clamped_nonneg hd (by omega)] at hmax
      omega
    have hle := (clamped_neg hd hend).1
    omega
  · rintro ⟨rfl, hn, hnonneg⟩
    have hcurrent := hd.current_pos
    have hend : clamped d last ≤ 0 := (clamped_neg hd (by omega)).1
    exact ⟨0, by omega, by omega, by omega⟩

end Regimes

/-- The limits of a window that 16 bits hold or do not hold. -/
theorem exists_half_iff (hd : d.Ok) {k half : ℕ} (hk : 0 < k) (hlt : k < 2 ^ 15) (hle : k ≤ d.current) :
    (∃ o, Centred d.current k o ∧
      Array.limit d (int16.wrap half) (int16.wrap (half + k - 1 : ℕ)) = window d o k) ↔
      half % 2 ^ 16 + k ≤ 2 ^ 15 ∧ Centred d.current k (half % 2 ^ 16) ∨
        (k = 1 ∧ d.current ≤ 2 ∧ (half % 2 ^ 16 < 2 ^ 15 ∨ d.first = 0)) ∨
        (d.first = 0 ∧ half % 2 ^ 16 < 2 ^ 15 ∧ 2 ^ 15 < half % 2 ^ 16 + k ∧ min (half % 2 ^ 16 + 1) d.current = k ∧
          d.current ≤ k + 1) := by
  simp only [limit_eq_window_iff hd, wrap_int16]
  have hr : half % 2 ^ 16 < 2 ^ 16 := Nat.mod_lt _ (by decide)
  have hlo : ((half : ℤ) + 2 ^ 15) % 2 ^ 16 - 2 ^ 15 =
      if half % 2 ^ 16 < 2 ^ 15 then ((half % 2 ^ 16 : ℕ) : ℤ) else (half % 2 ^ 16 : ℕ) - 2 ^ 16 := by
    split_ifs <;> omega
  have hhi : (((half + k - 1 : ℕ) : ℤ) + 2 ^ 15) % 2 ^ 16 - 2 ^ 15 =
      if half % 2 ^ 16 + k ≤ 2 ^ 15 then ((half % 2 ^ 16 + k - 1 : ℕ) : ℤ)
        else (half % 2 ^ 16 + k - 1 : ℕ) - 2 ^ 16 := by
    split_ifs <;> omega
  rw [hlo, hhi]
  generalize half % 2 ^ 16 = r at hr
  by_cases hsmall : r < 2 ^ 15
  · rw [if_pos hsmall]
    by_cases hend : r + k ≤ 2 ^ 15
    · rw [if_pos hend, exists_inside_iff hd hk hle]
      simp only [hsmall, hend, Nat.not_lt.2 hend, true_and, true_or, and_true, false_and, and_false, or_false]
    · have hone : k ≠ 1 := by omega
      rw [if_neg hend, exists_overrun_iff hd hle (by omega)]
      simp only [hsmall, hend, hone, Nat.lt_of_not_le hend, true_and, false_and, false_or]
  · have hend : ¬r + k ≤ 2 ^ 15 := by omega
    rw [if_neg hsmall, if_neg hend, exists_before_iff hd hk (by omega) (by omega) (by omega)]
    simp only [hsmall, hend, false_and, and_false, false_or, or_false]

/-- **Where the limits are those of a window in the middle.** -/
theorem exists_centred_iff (hd : d.Ok) (hdim : 0 < dim) (hdim' : dim < 2 ^ 64) :
    (∃ l, skewed dim ((p.lo : ℤ), (p.lo : ℤ) + p.size - 1) = some l ∧
      ∃ o, Centred d.current p.size o ∧ Array.limit d l.1 l.2 = window d o p.size) ↔ Centres p dim := by
  have hbounds := p.bounds
  have hfirst := hd.first_nonneg
  unfold Centres
  dsimp only
  by_cases hle : p.size ≤ dim
  · rw [skewed_of_le hdim' hle, ← exists_half_iff hd hbounds.1 (by omega) (by omega)]
    by_cases hfits : (dim - p.size) / 2 % 2 ^ 32 + p.size ≤ 2 ^ 31 ∨ 2 ^ 31 + p.lo ≤ (dim - p.size) / 2 % 2 ^ 32
    · rw [if_pos hfits]
      simp only [Option.some.injEq, exists_eq_left', hle, hfits, true_and]
    · rw [if_neg hfits]
      simp only [reduceCtorEq, false_and, exists_false, hfits, and_false]
  · rw [skewed_of_lt (Nat.lt_of_not_le hle)]
    simp only [Option.some.injEq, exists_eq_left', hle, false_and, iff_false, limit_eq_window_iff hd]
    rintro ⟨o, -, hlo, hhi⟩
    -- the end of the window is before the end of what is kept
    have hhalf : 0 < (p.size - dim + 1) / 2 := by omega
    generalize (p.size - dim + 1) / 2 = half at *
    have hbegin := (clamped_neg hd (i := -(half : ℤ)) (by omega)).1
    have hend : clamped d ((p.size : ℤ) - 1 - half) ≤ max ((p.size : ℤ) - 1 - half) (-d.first) := min_le_left _ _
    omega

end Windows

/-! ## The view that is limited -/

section Limited

variable {a a' : Array} {d : Dim}

/-- Pairs of limits, one after the other. -/
theorem getD_pairs : ∀ (pairs : List (ℤ × ℤ)) (i : ℕ),
    (pairs.flatMap fun l => [l.1, l.2]).getD (2 * i) 0 = (pairs.map Prod.fst).getD i 0 ∧
      (pairs.flatMap fun l => [l.1, l.2]).getD (2 * i + 1) 0 = (pairs.map Prod.snd).getD i 0
  | [], _ => ⟨rfl, rfl⟩
  | _ :: _, 0 => ⟨rfl, rfl⟩
  | _ :: pairs, i + 1 => getD_pairs pairs i

theorem setLimitsOf_pairs {pairs : List (ℤ × ℤ)} (h : pairs.length = a.dims.length) (hne : a.dims ≠ []) :
    a.setLimitsOf (pairs.flatMap fun l => [l.1, l.2]) = a.setLimits (pairs.map Prod.fst) (pairs.map Prod.snd) := by
  have hlen : (pairs.flatMap fun l => [l.1, l.2]).length = 2 * a.dims.length := by
    rw [List.length_flatMap, ← h]
    simp [Nat.mul_comm]
  have hpos := List.length_pos_iff.2 hne
  unfold Array.setLimitsOf
  rw [if_neg (by omega), if_pos hlen]
  congr 1
  · rw [← h, ← List.length_map Prod.fst]
    simp only [(getD_pairs pairs _).1]
    exact RowMajor.map_range_getD _ 0
  · rw [← h, ← List.length_map Prod.snd]
    simp only [(getD_pairs pairs _).2]
    exact RowMajor.map_range_getD _ 0

/-- A dimension that is limited to all of its indices. -/
theorem limit_self (hd : d.Ok) : Array.limit d 0 (d.current - 1) = d := by
  have hfirst := hd.first_nonneg
  have hle := hd.first_le
  have hcurrent := hd.current_eq
  have hmin : min (max (d.first + 0) 0) d.last = d.first := by omega
  have hmax : min (max (d.first + ((d.current : ℤ) - 1)) 0) d.last = d.last := by omega
  have hcount : (d.last - d.first + 1).toNat = d.current := by omega
  rw [Array.limit, hmin, hmax]
  rw [if_neg (by omega), if_neg (by omega), hcount]

theorem limit_all : ∀ {ds : List Dim}, (∀ d ∈ ds, d.Ok) →
    List.zipWith (fun d (l : ℤ × ℤ) => Array.limit d l.1 l.2) ds (ds.map fun d => (0, (d.current : ℤ) - 1)) = ds
  | [], _ => rfl
  | d :: ds, h => by
    obtain ⟨hd, hds⟩ := List.forall_mem_cons.1 h
    rw [List.map_cons, List.zipWith_cons_cons, limit_self hd, limit_all hds]

namespace Stack

variable (s : Stack)

theorem good : s.view.array.Good := s.constructed.good

theorem dims_ok : (∀ d ∈ s.lead, d.Ok) ∧ s.rows.Ok ∧ s.cols.Ok := by
  have hok := s.good.dim_ok
  rw [s.dims_eq] at hok
  exact ⟨fun d hd => hok d (by simp [hd]), hok _ (by simp), hok _ (by simp)⟩

/-- **The leading dimensions stay, the others get their limits.** -/
theorem exists_limited (y x : ℤ × ℤ) : ∃ a', s.view.array.setLimitsOf
    (((s.view.array.sizes.take (s.view.array.sizes.length - 2)).flatMap fun sz : ℕ => [0, (sz : ℤ) - 1]) ++
      [y.1, y.2, x.1, x.2]) = some a' ∧ a'.Constructed ∧
        a'.dims = s.lead ++ [Array.limit s.rows y.1 y.2, Array.limit s.cols x.1 x.2] := by
  have hlead : s.view.array.sizes.take (s.view.array.sizes.length - 2) = s.lead.map Dim.current := by
    rw [Array.sizes, s.dims_eq, List.map_append, List.length_append]
    exact List.take_left' (by simp)
  have hpairs : ((s.lead.map Dim.current).flatMap fun sz : ℕ => [0, (sz : ℤ) - 1]) ++ [y.1, y.2, x.1, x.2] =
      (s.lead.map (fun d => ((0 : ℤ), (d.current : ℤ) - 1)) ++ [y, x]).flatMap fun l => [l.1, l.2] := by
    rw [List.flatMap_append, List.flatMap_map, List.flatMap_map]
    rfl
  set pairs := s.lead.map (fun d => ((0 : ℤ), (d.current : ℤ) - 1)) ++ [y, x] with hset
  have hlen : pairs.length = s.view.array.dims.length := by rw [hset, s.dims_eq]; simp
  have hset : s.view.array.setLimitsOf (pairs.flatMap fun l => [l.1, l.2]) =
      some { s.view.array with
        dims := s.lead ++ [Array.limit s.rows y.1 y.2, Array.limit s.cols x.1 x.2]
        nElements_ := ((s.lead ++ [Array.limit s.rows y.1 y.2, Array.limit s.cols x.1 x.2]).map Dim.current).prod
        }.setBounds.setDense := by
    have hzip : (pairs.map Prod.fst).zip (pairs.map Prod.snd) = pairs := by
      rw [List.zip_map', List.map_id']
    have hdims : List.zipWith (fun d (l : ℤ × ℤ) => Array.limit d l.1 l.2) s.view.array.dims pairs =
        s.lead ++ [Array.limit s.rows y.1 y.2, Array.limit s.cols x.1 x.2] := by
      rw [s.dims_eq, List.zipWith_append (by rw [List.length_map]), limit_all s.dims_ok.1]
      rfl
    rw [setLimitsOf_pairs hlen s.good.ne_nil, Array.setLimits, if_neg (by simp [hlen]), hzip, hdims]
  rw [hlead, hpairs]
  refine ⟨_, hset, ?_, rfl⟩
  obtain ⟨sizes, ops, hfits, hrun, hne⟩ := s.constructed
  refine ⟨sizes, ops ++ [.setLimitsOf (pairs.flatMap fun l => [l.1, l.2])], hfits, ?_, ?_⟩
  · rw [List.foldlM_append, hrun, Option.bind_eq_bind, Option.bind_some, List.foldlM_cons, Array.apply, hset]
    rfl
  · exact List.append_ne_nil_of_right_ne_nil _ (List.cons_ne_nil _ _)

end Stack

end Limited

/-! ## Pixels and cells -/

section Pixels

theorem offsets_append : ∀ ds es : List Dim,
    offsets (ds ++ es) = (offsets ds).flatMap fun b => (offsets es).map (b + ·)
  | [], es => by simp [offsets]
  | d :: ds, es => by
    rw [List.cons_append, offsets, offsets, offsets_append ds es]
    simp only [List.map_flatMap, List.flatMap_assoc, List.flatMap_map, List.map_map, Function.comp_def, Int.add_assoc]

namespace Stack

variable (s : Stack) {py : Positions s.rows} {px : Positions s.cols} {y₀ x₀ : ℕ}

/-- The number of images, and where each of them is. -/
def images : ℕ := (s.lead.map Dim.current).prod

def base (i : ℕ) : ℤ := (offsets s.lead).getD i 0

theorem flatMap_lead {α : Type*} (f : ℤ → List α) :
    (offsets s.lead).flatMap f = (List.range s.images).flatMap fun i => f (s.base i) := by
  rw [RowMajor.flatMap_eq_range _ 0, length_offsets]
  rfl

theorem kept_eq : s.kept py px y₀ x₀ = RowMajor.listed s.images py.size px.size fun i y x =>
    s.pixel (s.base i) (y₀ + mirrored py.descending py.size y) (x₀ + mirrored px.descending px.size x) :=
  s.flatMap_lead _

/-- The cells of a window, as they are. -/
theorem map_offsets_window (h w : ℕ) : (offsets (s.lead ++ [window s.rows y₀ h, window s.cols x₀ w])).map
    (s.view.block, ·) = RowMajor.listed s.images h w fun i y x => s.pixel (s.base i) (y₀ + y) (x₀ + x) := by
  rw [offsets_append, s.flatMap_lead, List.map_flatMap]
  refine List.flatMap_congr fun i _ => ?_
  simp only [offsets, window, List.map_flatMap, List.map_cons, List.map_nil]
  refine List.flatMap_congr fun y _ => ?_
  rw [← List.map_eq_flatMap]
  refine List.map_congr_left fun x _ => Prod.ext rfl ?_
  show _ = s.base i + (s.rows.first + (y₀ + y : ℕ)) * s.rows.stride + (s.cols.first + (x₀ + x : ℕ)) * s.cols.stride
  push_cast
  ring

/-- What is to be kept is in the window. -/
theorem mem_of_mem_kept {c : Cell} (hc : c ∈ s.kept py px y₀ x₀) :
    c.2 ∈ offsets (s.lead ++ [window s.rows y₀ py.size, window s.cols x₀ px.size]) := by
  rw [kept_eq, RowMajor.mem_listed] at hc
  obtain ⟨i, hi, y, hy, x, hx, rfl⟩ := hc
  have hmem : s.pixel (s.base i) (y₀ + mirrored py.descending py.size y) (x₀ + mirrored px.descending px.size x) ∈
      RowMajor.listed s.images py.size px.size fun i y x => s.pixel (s.base i) (y₀ + y) (x₀ + x) :=
    RowMajor.mem_listed.2 ⟨i, hi, _, mirrored_lt hy, _, mirrored_lt hx, rfl⟩
  rw [← map_offsets_window] at hmem
  obtain ⟨p, hp, heq⟩ := List.mem_map.1 hmem
  rw [← heq]
  exact hp

theorem length_kept : (s.kept py px y₀ x₀).length = s.images * py.size * px.size := by
  rw [kept_eq, RowMajor.length_listed]

theorem images_pos : 0 < s.images := by
  refine List.prod_pos fun n hn => ?_
  obtain ⟨d, hd, rfl⟩ := List.mem_map.1 hn
  exact (s.dims_ok.1 d hd).current_pos

end Stack

end Pixels

/-! ## Trimmed and mirrored -/

section Trimmed

variable {T : Type*} {v t out : View} {m m₁ m' : Cell → T} {fresh n sy sx : ℕ} {flipX flipY : Bool}

/-- A trimmed array: its elements are those of the view, one after the other. -/
theorem trimmed_spec (h : v.array.Constructed) (hshape : v.shape ≠ []) :
    (Array.construct v.shape).sizes = v.shape ∧ (Array.construct v.shape).dataSize = v.array.nElements_ ∧
      (⟨Array.construct v.shape, fresh⟩ : View).cells =
        (List.range v.array.nElements_).map fun j : ℕ => (fresh, (j : ℤ)) := by
  have hpos : ∀ n ∈ v.shape, 0 < n := View.shape_pos
  have hprod := View.prod_shape h.good
  have hfilter : v.shape.filter (· ≠ 0) = v.shape :=
    List.filter_eq_self.2 fun n hn => decide_eq_true (hpos n hn).ne'
  obtain ⟨-, -, helements⟩ := Array.elements_construct hshape hpos (by rw [hprod]; exact View.count_lt h)
  refine ⟨by rw [Array.sizes_construct, hfilter], ?_, ?_⟩
  · rw [Array.construct_eq, hfilter, if_neg hshape]
    exact hprod
  · rw [View.cells, helements, hprod, List.map_map]
    rfl

/-- **The copy that `trim` makes** of a view with a dimension that counts. -/
theorem exists_trimmed [Zero T] (h : v.array.Constructed) (hshape : v.shape ≠ []) (m : Cell → T)
    (hfresh : fresh ≠ v.block) : ∃ m₁, v.copy m fresh (.new true) = some (⟨Array.construct v.shape, fresh⟩, m₁) ∧
      (List.range v.array.nElements_).map (fun j : ℕ => m₁ (fresh, (j : ℤ))) = v.cells.map m := by
  have hcopies := (View.copies_new_iff (T := T) h true).2 fun _ => (View.shape_ne_nil_iff h.good).1 hshape
  obtain ⟨out, m₁, hcopy, hcopied⟩ := hcopies m fresh hfresh
  have hout : out = ⟨Array.construct v.shape, fresh⟩ := by
    have hsome := hcopy
    unfold View.copy View.copyNew at hsome
    dsimp only at hsome
    rw [if_neg (by exact hshape)] at hsome
    obtain ⟨m₂, -, heq⟩ := Option.map_eq_some_iff.1 hsome
    exact (Prod.mk.inj heq).1.symm
  subst hout
  refine ⟨m₁, hcopy, ?_⟩
  have hcontents := hcopied.contents_eq
  rw [(trimmed_spec h hshape).2.2, List.map_map] at hcontents
  exact hcontents

theorem exists_mirrored (hy : 0 < sy) (hx : 0 < sx) (hfits : n * sy * sx ≤ t.array.dataSize) (m₁ : Cell → T) :
    ∃ m', mirrorImages n sy sx flipX flipY (t, m₁) = some (t, m') ∧ ∀ i < n, ∀ y < sy, ∀ x < sx,
      m' (t.block, (((i * sy + y) * sx + x : ℕ) : ℤ)) =
        m₁ (t.block, (((i * sy + mirrored flipY sy y) * sx + mirrored flipX sx x : ℕ) : ℤ)) := by
  unfold mirrorImages
  by_cases hflip : (flipX || flipY) = true
  · obtain ⟨data', hdata', hcells⟩ := @exists_flip T t.array.dataSize sy sx flipX flipY hy hx n hfits
      fun j : ℕ => m₁ (t.block, (j : ℤ))
    rw [if_pos hflip, hdata', Option.map_some]
    refine ⟨_, rfl, fun i hi y hy x hx => ?_⟩
    dsimp only
    rw [if_pos ⟨rfl, Int.natCast_nonneg _⟩, Int.toNat_natCast, hcells i hi y hy x hx]
  · rw [Bool.or_eq_true, not_or, Bool.not_eq_true, Bool.not_eq_true] at hflip
    obtain ⟨rfl, rfl⟩ := hflip
    exact ⟨m₁, rfl, fun i hi y hy x hx => rfl⟩

theorem kept_mirrored (h : mirrorImages n sy sx flipX flipY (t, m₁) = some (out, m')) :
    out = t ∧ Kept t.array.dataSize (fun j : ℕ => m₁ (t.block, (j : ℤ))) fun j : ℕ => m' (t.block, (j : ℤ)) := by
  unfold mirrorImages at h
  split_ifs at h
  · obtain ⟨data', hdata', heq⟩ := Option.map_eq_some_iff.1 h
    obtain ⟨rfl, rfl⟩ := Prod.mk.inj heq
    refine ⟨rfl, fun j hj => ?_⟩
    obtain ⟨i, hi, hkept⟩ := kept_flip hdata' j hj
    refine ⟨i, hi, ?_⟩
    dsimp only
    rw [if_pos ⟨rfl, Int.natCast_nonneg _⟩, Int.toNat_natCast, hkept]
  · obtain ⟨rfl, rfl⟩ := Prod.mk.inj (Option.some.inj h)
    exact ⟨rfl, fun j hj => ⟨j, hj, rfl⟩⟩

end Trimmed

/-! ## What is left -/

section Left

variable {T : Type*} [Zero T] {s : Stack} {py : Positions s.rows} {px : Positions s.cols} {y₀ x₀ : ℕ} {a' : Array}
  {r c : Dim}

/-- The view with other limits for rows and columns. -/
structure Placed (s : Stack) (a' : Array) (r c : Dim) : Prop where
  constructed : a'.Constructed
  dims_eq : a'.dims = s.lead ++ [r, c]
  rows : Reshaped s.rows r
  cols : Reshaped s.cols c

/-- No dimension is trivial but those of the window, and not all are. -/
structure Counts (s : Stack) (py : Positions s.rows) (px : Positions s.cols) : Prop where
  lead : ∀ d ∈ s.lead, d.current ≠ 1
  pixels : ¬(s.lead = [] ∧ py.size = 1 ∧ px.size = 1)

/-- The limited view, trimmed and mirrored. -/
def finish (s : Stack) (py : Positions s.rows) (px : Positions s.cols) (a' : Array) (m : Cell → T) (fresh : ℕ) :
    Option (View × (Cell → T)) :=
  (View.copy ⟨a', s.view.block⟩ m fresh (.new true)).bind
    (mirrorImages s.images py.size px.size px.descending py.descending)

theorem Placed.shape_eq (h : Placed s a' r c) : (⟨a', s.view.block⟩ : View).shape =
    (s.lead.map Dim.current).filter (1 < ·) ++ [r.current, c.current].filter (1 < ·) := by
  rw [View.shape, Array.sizes, h.dims_eq, List.map_append, List.filter_append]
  rfl

theorem Placed.count_eq (h : Placed s a' r c) : a'.nElements_ = s.images * r.current * c.current := by
  rw [h.constructed.good.count_eq, h.dims_eq]
  simp [Stack.images, Nat.mul_assoc]

theorem filter_lead_iff : (s.lead.map Dim.current).filter (1 < ·) = s.lead.map Dim.current ↔
    ∀ d ∈ s.lead, d.current ≠ 1 := by
  rw [List.filter_eq_self, List.forall_mem_map]
  refine forall₂_congr fun d hd => ?_
  have hpos := (s.dims_ok.1 d hd).current_pos
  rw [decide_eq_true_iff]
  omega

theorem shape_ne_nil (h : Counts s py px) :
    s.lead.map Dim.current ++ [py.size, px.size].filter (1 < ·) ≠ [] := by
  intro hnil
  obtain ⟨hlead, hsizes⟩ := List.append_eq_nil_iff.1 hnil
  have hy := py.bounds.1
  have hx := px.bounds.1
  have hone : ∀ n ∈ [py.size, px.size], ¬1 < n := by simpa using List.filter_eq_nil_iff.1 hsizes
  have hy' := hone py.size (by simp)
  have hx' := hone px.size (by simp)
  exact h.pixels ⟨List.map_eq_nil_iff.1 hlead, by omega, by omega⟩

/-- **With the limits of the window, what is left is right**, if there are dimensions left. -/
theorem leaves_of_window (h : Placed s a' (window s.rows y₀ py.size) (window s.cols x₀ px.size))
    (hcounts : Counts s py px) : s.Leaves py px y₀ x₀ (finish (T := T) s py px a') := by
  intro m fresh hfresh
  have hshape := h.shape_eq
  rw [filter_lead_iff.2 hcounts.lead] at hshape
  have hne : (⟨a', s.view.block⟩ : View).shape ≠ [] := hshape ▸ shape_ne_nil hcounts
  obtain ⟨hsizes, hdata, hcells⟩ := @trimmed_spec ⟨a', s.view.block⟩ fresh h.constructed hne
  obtain ⟨m₁, hcopy, hcontents⟩ := @exists_trimmed T ⟨a', s.view.block⟩ fresh _ h.constructed hne m hfresh
  have hcount : a'.nElements_ = s.images * py.size * px.size := h.count_eq
  obtain ⟨m', hmirror, hmirrored⟩ := @exists_mirrored T ⟨Array.construct (View.shape ⟨a', s.view.block⟩), fresh⟩
    s.images py.size px.size px.descending py.descending py.bounds.1 px.bounds.1 (hdata.trans hcount).ge m₁
  refine ⟨⟨Array.construct (View.shape ⟨a', s.view.block⟩), fresh⟩, m', ?_, hsizes.trans hshape, ?_⟩
  · rw [finish, hcopy, Option.bind_some, hmirror]
  · have hview : (⟨a', s.view.block⟩ : View).cells =
        RowMajor.listed s.images py.size px.size fun i y x => s.pixel (s.base i) (y₀ + y) (x₀ + x) := by
      rw [View.cells, h.constructed.good.elements_eq, h.dims_eq, s.map_offsets_window]
    rw [hview, hcount, RowMajor.map_range_eq_listed, RowMajor.map_listed, RowMajor.listed_inj] at hcontents
    rw [hcells, hcount, List.map_map, RowMajor.map_range_eq_listed, s.kept_eq, RowMajor.map_listed]
    refine RowMajor.listed_congr fun i hi y hy x hx => ?_
    exact (hmirrored i hi y hy x hx).trans (hcontents i hi _ (mirrored_lt hy) _ (mirrored_lt hx))

/-- **What is left lies in the window**: no pixel is lost on the way, so that each is one of those to be kept. -/
theorem subset_of_leaves [Nontrivial T] (h : Placed s a' r c) (hne : (⟨a', s.view.block⟩ : View).shape ≠ [])
    (hleaves : s.Leaves py px y₀ x₀ (finish (T := T) s py px a')) :
    ∀ cell ∈ (⟨a', s.view.block⟩ : View).cells, cell ∈ s.kept py px y₀ x₀ := by
  intro cell hcell
  obtain ⟨u, w, huw⟩ := exists_pair_ne T
  classical
  -- the contents tell the cell from all others
  set m : Cell → T := fun k => if k = cell then u else w with hm
  have hfresh : s.view.block + 1 ≠ s.view.block := Nat.succ_ne_self _
  obtain ⟨out, m', hfinish, -, hout⟩ := hleaves m (s.view.block + 1) hfresh
  obtain ⟨-, hdata, hcells⟩ := @trimmed_spec ⟨a', s.view.block⟩ (s.view.block + 1) h.constructed hne
  obtain ⟨m₁, hcopy, hcontents⟩ := @exists_trimmed T ⟨a', s.view.block⟩ _ _ h.constructed hne m hfresh
  rw [finish, hcopy, Option.bind_some] at hfinish
  obtain ⟨rfl, hkept⟩ := kept_mirrored hfinish
  have hmem : u ∈ (⟨a', s.view.block⟩ : View).cells.map m := List.mem_map.2 ⟨cell, hcell, if_pos rfl⟩
  rw [← hcontents] at hmem
  obtain ⟨j, hj, hu⟩ := List.mem_map.1 hmem
  obtain ⟨i, hi, heq⟩ := hkept j (hdata ▸ List.mem_range.1 hj)
  have hmem' : u ∈ (s.kept py px y₀ x₀).map m := by
    rw [← hout, hcells, List.map_map]
    exact List.mem_map.2 ⟨i, List.mem_range.2 (hdata ▸ hi), heq.trans hu⟩
  obtain ⟨k, hk, hku⟩ := List.mem_map.1 hmem'
  by_cases hkc : k = cell
  · exact hkc ▸ hk
  · rw [hm] at hku
    dsimp only at hku
    rw [if_neg hkc] at hku
    exact absurd hku.symm huw

/-- A view with as many elements as the window that lies in it is the window. -/
theorem window_of_subset (h : Placed s a' r c) (hy : y₀ + py.size ≤ s.rows.current) (hx : x₀ + px.size ≤ s.cols.current)
    (hcount : a'.nElements_ = s.images * py.size * px.size)
    (hsub : ∀ cell ∈ (⟨a', s.view.block⟩ : View).cells, cell ∈ s.kept py px y₀ x₀) :
    r = window s.rows y₀ py.size ∧ c = window s.cols x₀ px.size := by
  obtain ⟨hlead, hrows, hcols⟩ := s.dims_ok
  have hwr := window_ok hrows py.bounds.1 hy
  have hwc := window_ok hcols px.bounds.1 hx
  have hsame : List.Forall₂ Reshaped s.lead s.lead := List.forall₂_same.2 fun d hd => .refl (hlead d hd)
  have hvalid : Valid (s.lead ++ [window s.rows y₀ py.size, window s.cols x₀ px.size]) := by
    refine s.good.valid.reshaped ?_
    rw [s.dims_eq]
    exact List.rel_append hsame (.cons hwr (.cons hwc .nil))
  have hreshaped : List.Forall₂ Reshaped (s.lead ++ [window s.rows y₀ py.size, window s.cols x₀ px.size])
      (s.lead ++ [r, c]) :=
    List.rel_append hsame (.cons ⟨h.rows.size_eq, h.rows.stride_eq, h.rows.ok⟩
      (.cons ⟨h.cols.size_eq, h.cols.stride_eq, h.cols.ok⟩ .nil))
  have hnested := (hvalid.nested_iff hreshaped).1 fun p hp => by
    refine s.mem_of_mem_kept (hsub (s.view.block, p) (List.mem_map_of_mem ?_))
    rw [h.constructed.good.elements_eq, h.dims_eq]
    exact hp
  have hlast := List.forall₂_drop s.lead.length hnested
  rw [List.drop_left, List.drop_left, List.forall₂_cons, List.forall₂_cons] at hlast
  obtain ⟨⟨hr, hr'⟩, ⟨hc, hc'⟩, -⟩ := hlast
  -- neither direction is smaller than the window
  have hrcount := h.rows.ok.current_eq
  have hccount := h.cols.ok.current_eq
  unfold window at hr hr' hc hc'
  dsimp only at hr hr' hc hc'
  have hrle : r.current ≤ py.size := by omega
  have hcle : c.current ≤ px.size := by omega
  rw [h.count_eq, Nat.mul_assoc, Nat.mul_assoc] at hcount
  obtain ⟨hrsize, hcsize⟩ := (mul_eq_mul_iff_eq_and_eq_of_pos hrle hcle h.rows.ok.current_pos px.bounds.1).1
    (Nat.eq_of_mul_eq_mul_left s.images_pos hcount)
  exact ⟨eq_window h.rows (by omega) hrsize, eq_window h.cols (by omega) hcsize⟩

/-- **What is left is right exactly with the limits of the window**, and if there are dimensions left. -/
theorem leaves_iff [Nontrivial T] (h : Placed s a' r c) (hy : y₀ + py.size ≤ s.rows.current)
    (hx : x₀ + px.size ≤ s.cols.current) : s.Leaves py px y₀ x₀ (finish (T := T) s py px a') ↔
      Counts s py px ∧ r = window s.rows y₀ py.size ∧ c = window s.cols x₀ px.size := by
  constructor
  · intro hleaves
    obtain ⟨out, m', hfinish, hsizes, hout⟩ := hleaves (fun _ => 0) (s.view.block + 1) (Nat.succ_ne_self _)
    have hlength := congrArg List.length hout
    rw [List.length_map, List.length_map, s.length_kept] at hlength
    have hshape : (⟨a', s.view.block⟩ : View).shape ≠ [] := by
      intro hnil
      have hdims : View.dimensions ⟨a', s.view.block⟩ true = [] := hnil
      rw [finish, View.copy, View.copyNew, if_pos hdims, Option.bind_some] at hfinish
      rw [(kept_mirrored hfinish).1] at hlength
      have hpos := Nat.mul_pos (Nat.mul_pos s.images_pos py.bounds.1) px.bounds.1
      exact hpos.ne hlength
    obtain ⟨m₁, hcopy, -⟩ := @exists_trimmed T ⟨a', s.view.block⟩ (s.view.block + 1) _ h.constructed hshape
      (fun _ => 0) (Nat.succ_ne_self _)
    obtain ⟨hsizes', -, hcells⟩ := @trimmed_spec ⟨a', s.view.block⟩ (s.view.block + 1) h.constructed hshape
    rw [finish, hcopy, Option.bind_some] at hfinish
    rw [(kept_mirrored hfinish).1] at hlength hsizes
    rw [hcells, List.length_map, List.length_range] at hlength
    obtain ⟨rfl, rfl⟩ := window_of_subset h hy hx hlength (subset_of_leaves h hshape hleaves)
    rw [hsizes', h.shape_eq] at hsizes
    refine ⟨⟨filter_lead_iff.1 (List.append_cancel_right hsizes), fun hone => hshape ?_⟩, rfl, rfl⟩
    obtain ⟨hlead, hsy, hsx⟩ := hone
    rw [h.shape_eq, hlead]
    simp [window, hsy, hsx]
  · rintro ⟨hcounts, rfl, rfl⟩
    exact leaves_of_window h hcounts

end Left

/-! ## Clip by clip -/

section Clips

variable {T : Type*} [Zero T] {s : Stack} {py : Positions s.rows} {px : Positions s.cols} {clip : List ℤ}
  {symmetricClip : Bool}

/-- The limits of one direction. -/
def limitsOf (symmetricClip : Bool) (dim : ℕ) {d : Dim} (p : Positions d) : Option (ℤ × ℤ) :=
  if symmetricClip then skewed dim ((p.lo : ℤ), (p.lo : ℤ) + p.size - 1) else some ((p.lo : ℤ), (p.lo : ℤ) + p.size - 1)

theorem Window.le {d : Dim} {p : Positions d} {o : ℕ} (h : Window symmetricClip p o) : o + p.size ≤ d.current := by
  unfold Window at h
  split_ifs at h
  · exact h.1
  · exact h ▸ p.bounds.2.1

/-- Positions in the dimension are not clamped. -/
theorem limit_lo {d : Dim} (hd : d.Ok) (p : Positions d) :
    Array.limit d p.lo (p.lo + p.size - 1) = window d p.lo p.size := by
  have hbounds := p.bounds
  rw [limit_eq_window_iff hd, clamped_nonneg hd (by omega), clamped_nonneg hd (by omega)]
  omega

theorem exists_limits_iff {d : Dim} {p : Positions d} {dim : ℕ} (hd : d.Ok) (hdim : 0 < dim) (hdim' : dim < 2 ^ 64) :
    (∃ l, limitsOf symmetricClip dim p = some l ∧ ∃ o, Window symmetricClip p o ∧
      Array.limit d l.1 l.2 = window d o p.size) ↔ (symmetricClip = true → Centres p dim) := by
  cases symmetricClip with
  | true => exact (exists_centred_iff hd hdim hdim').trans (imp_iff_right rfl).symm
  | false => exact iff_of_true ⟨_, rfl, p.lo, rfl, limit_lo hd p⟩ fun h => absurd h Bool.false_ne_true

theorem clipImage_eq (hclip : Gives clip px py) (m : Cell → T) (fresh : ℕ) :
    clipImage s.view m fresh clip symmetricClip =
      clipTo s.view m fresh px.first px.last py.first py.last symmetricClip := by
  have hlen : ¬s.view.array.sizes.length < 2 := by
    rw [Array.sizes, s.dims_eq]
    simp
  unfold clipImage
  rw [if_neg hlen]
  rcases hclip with rfl | ⟨rfl, hfirst, hlast⟩
  · rfl
  · rw [hfirst, hlast]
    rfl

theorem placed (y x : ℤ × ℤ) {a' : Array} (hconstructed : a'.Constructed)
    (hdims : a'.dims = s.lead ++ [Array.limit s.rows y.1 y.2, Array.limit s.cols x.1 x.2]) :
    Placed s a' (Array.limit s.rows y.1 y.2) (Array.limit s.cols x.1 x.2) :=
  ⟨hconstructed, hdims, limit_ok s.dims_ok.2.1 _ _, limit_ok s.dims_ok.2.2 _ _⟩

/-- **A clip is made by limits of its own**, for the rows and for the columns. -/
theorem clipTo_eq (m : Cell → T) (fresh : ℕ) : clipTo s.view m fresh px.first px.last py.first py.last symmetricClip =
    (limitsOf symmetricClip (s.view.array.sizes.getD 0 0) py).bind fun y =>
      (limitsOf symmetricClip (s.view.array.sizes.getD 1 0) px).bind fun x =>
        (s.view.array.setLimitsOf
          (((s.view.array.sizes.take (s.view.array.sizes.length - 2)).flatMap fun sz : ℕ => [0, (sz : ℤ) - 1]) ++
            [y.1, y.2, x.1, x.2])).bind fun a' => finish s py px a' m fresh := by
  have himages : (s.view.array.sizes.take (s.view.array.sizes.length - 2)).prod = s.images := by
    rw [Array.sizes, s.dims_eq, List.map_append, List.length_append]
    exact congrArg List.prod (List.take_left' (by simp))
  unfold clipTo limitsOf finish
  dsimp only
  rw [himages, px.ordered_eq, py.ordered_eq, px.size_eq, py.size_eq]
  rfl

/-- **Where the clip is right**, by the limits. -/
theorem clips_iff_limits [Nontrivial T] (hclip : Gives clip px py) : s.Clips T py px clip symmetricClip ↔
    Counts s py px ∧
      (∃ y, limitsOf symmetricClip (s.view.array.sizes.getD 0 0) py = some y ∧
        ∃ o, Window symmetricClip py o ∧ Array.limit s.rows y.1 y.2 = window s.rows o py.size) ∧
      ∃ x, limitsOf symmetricClip (s.view.array.sizes.getD 1 0) px = some x ∧
        ∃ o, Window symmetricClip px o ∧ Array.limit s.cols x.1 x.2 = window s.cols o px.size := by
  unfold Stack.Clips
  simp only [clipImage_eq hclip, clipTo_eq]
  constructor
  · rintro ⟨y₀, x₀, hy₀, hx₀, hleaves⟩
    obtain ⟨out, m', hsome, -⟩ := hleaves (fun _ => 0) (s.view.block + 1) (Nat.succ_ne_self _)
    obtain ⟨y, hy, hsome⟩ := Option.bind_eq_some_iff.1 hsome
    obtain ⟨x, hx, -⟩ := Option.bind_eq_some_iff.1 hsome
    obtain ⟨a', ha', hconstructed, hdims⟩ := s.exists_limited y x
    simp only [hy, hx, ha', Option.bind_some] at hleaves
    obtain ⟨hcounts, hrows, hcols⟩ := (leaves_iff (placed y x hconstructed hdims) hy₀.le hx₀.le).1 hleaves
    exact ⟨hcounts, ⟨y, hy, y₀, hy₀, hrows⟩, x, hx, x₀, hx₀, hcols⟩
  · rintro ⟨hcounts, ⟨y, hy, y₀, hy₀, hrows⟩, x, hx, x₀, hx₀, hcols⟩
    obtain ⟨a', ha', hconstructed, hdims⟩ := s.exists_limited y x
    refine ⟨y₀, x₀, hy₀, hx₀, ?_⟩
    simp only [hy, hx, ha', Option.bind_some]
    exact (leaves_iff (placed y x hconstructed hdims) hy₀.le hx₀.le).2 ⟨hcounts, hrows, hcols⟩

/-- The sizes that a symmetric clip is moved by. -/
theorem sizes_getD (s : Stack) {i : ℕ} (hi : i < 2) :
    0 < s.view.array.sizes.getD i 0 ∧ s.view.array.sizes.getD i 0 < 2 ^ 64 := by
  have hlen : i < s.view.array.sizes.length := by
    rw [Array.sizes, s.dims_eq]
    simp
    omega
  have hmem : s.view.array.sizes.getD i 0 ∈ s.view.array.sizes := by
    rw [List.getD_eq_getElem _ _ hlen]
    exact List.getElem_mem hlen
  refine ⟨s.good.current_pos _ hmem, ?_⟩
  have hpos := s.good.count_eq ▸ View.count_lt (a := s.view) s.constructed
  have hdvd := Nat.le_of_dvd (List.prod_pos s.good.current_pos) (List.dvd_prod hmem)
  exact (hdvd.trans_lt hpos).trans (by decide)

/-- **When a clip leaves what it is to leave**: no leading dimension has size one, more than one pixel is left, and a
symmetric clip is moved to the middle by the sizes of the first two dimensions. -/
theorem clips_iff [Nontrivial T] (s : Stack) (py : Positions s.rows) (px : Positions s.cols) (hclip : Gives clip px py)
    (symmetricClip : Bool) : s.Clips T py px clip symmetricClip ↔ Counts s py px ∧ (symmetricClip = true →
      Centres py (s.view.array.sizes.getD 0 0) ∧ Centres px (s.view.array.sizes.getD 1 0)) := by
  obtain ⟨-, hrows, hcols⟩ := s.dims_ok
  obtain ⟨hpos, hlt⟩ := sizes_getD s Nat.zero_lt_two
  obtain ⟨hpos', hlt'⟩ := sizes_getD s Nat.one_lt_two
  rw [clips_iff_limits hclip, exists_limits_iff hrows hpos hlt, exists_limits_iff hcols hpos' hlt', imp_and]

end Clips

/-- Four images of eight by eight pixels, and the four pixels in the middle. -/
def fourImages : Stack where
  view := ⟨Array.construct [4, 8, 8], 0⟩
  lead := [⟨4, 64, 0, 3, 4⟩]
  rows := ⟨8, 8, 0, 7, 8⟩
  cols := ⟨8, 1, 0, 7, 8⟩
  dims_eq := rfl
  constructed := ⟨[4, 8, 8], [], by decide, rfl, by decide⟩

def ascending : Positions fourImages.rows := ⟨3, 6, by decide, by decide⟩

def descending : Positions fourImages.cols := ⟨6, 3, by decide, by decide⟩

/-- The columns are mirrored. -/
theorem fourImages_clipped : fourImages.Clips ℕ ascending descending [6, 3, 3, 6] false :=
  (clips_iff fourImages ascending descending (by decide) false).2
    ⟨⟨by decide, by decide⟩, fun h => absurd h Bool.false_ne_true⟩

/-- The rows are centred by the number of images. -/
theorem fourImages_not_centred : ¬fourImages.Clips ℕ ascending descending [6, 3, 3, 6] true := by
  intro h
  have hrows := ((clips_iff_limits (by decide)).1 h).2.1
  have hcentres := (exists_limits_iff fourImages.dims_ok.2.1 (by decide) (by decide)).1 hrows rfl
  exact absurd hcentres (by decide)

end Redux.Image.ClipImage
