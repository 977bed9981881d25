import Mathlib.Algebra.BigOperators.Group.List.Basic
import Mathlib.Algebra.Order.Ring.Int
import Redux.Lib.Walk

/-!
# Util.Array — array views and their iterators

`redux::util::Array<T>` without its elements: what a view knows of its dimensions, the operations that
change the limits of a view, and its iterators.  The five vectors of numbers that the class keeps are
one list of dimensions here, the slowest one first.  Offsets and sizes are those of a data block that
fits in memory, so that no product of sizes wraps; a position is never negative.
-/

namespace Redux.Util.Arrays

open Redux.Lib

/-! ## Views -/

/-- A dimension: of the data block, its size and stride; of the view, its first and its last index and
its current size. -/
structure Dim where
  size : ℕ
  stride : ℕ
  first : ℤ
  last : ℤ
  current : ℕ
  deriving DecidableEq

structure Array where
  dims : List Dim
  dataSize : ℕ
  nElements_ : ℕ
  dense_ : Bool
  begin_ : ℤ
  end_ : ℤ
  deriving DecidableEq

/-- The number of elements that the dimensions of a data block span. -/
def extent : List Dim → ℕ
  | [] => 1
  | d :: _ => d.size * d.stride

/-- `setSizes` and `setStrides`: a dimension whose first index is there already keeps it. -/
def setSizes : List ℕ → List ℤ → List Dim
  | [], _ => []
  | size :: sizes, dimFirst =>
    let ds := setSizes sizes dimFirst.tail
    ⟨size, extent ds, dimFirst.headD 0, size - 1, size⟩ :: ds

/-- `countElements`, in `size_t`. -/
def countElements (ds : List Dim) : ℕ :=
  if ds = [] then 0 else ((ds.map fun d : Dim => d.last - d.first + 1).prod % 2 ^ 64).toNat

namespace Array

/-- `resize`: sizes of zero are dropped; without dimensions `dense_` is left alone. -/
def resize (a : Array) (sizes : List ℕ) : Array :=
  let dimSizes := sizes.filter (· ≠ 0)
  let ds := setSizes dimSizes (a.dims.map Dim.first)
  if ds = [] then { a with dims := [], dataSize := 0, nElements_ := 0, begin_ := 0, end_ := 0 }
  else ⟨ds, dimSizes.prod, countElements ds, true, 0, dimSizes.prod⟩

/-- `Array( sizes... )`. -/
def construct (sizes : List ℕ) : Array := resize ⟨[], 0, 0, true, 0, 0⟩ sizes

/-- `getOffset( indices )` for as many indices as dimensions. -/
def getOffset (ds : List Dim) (indices : List ℤ) : ℤ :=
  (List.zipWith (fun (d : Dim) i => i * (d.stride : ℤ)) ds indices).sum

/-- `begin_` and `end_` from the first and last indices. -/
def setBounds (a : Array) : Array :=
  { a with
    begin_ := getOffset a.dims (a.dims.map Dim.first)
    end_ := getOffset a.dims (a.dims.map Dim.last) + 1 }

def setDense (a : Array) : Array := { a with dense_ := decide (a.begin_ + a.nElements_ = a.end_) }

/-! ## The operations on views -/

/-- The limits of a dimension, relative to its first index and clamped. -/
def limit (d : Dim) (first last : ℤ) : Dim :=
  let tmpLast := min (max (d.first + last) 0) d.last
  let tmpFirst := min (max (d.first + first) 0) d.last
  let lo := if tmpFirst > tmpLast then tmpLast else tmpFirst
  let hi := if tmpFirst > tmpLast then tmpFirst else tmpLast
  { d with first := lo, last := hi, current := (hi - lo + 1).toNat }

/-- `setLimits( first, last )`, which throws if the numbers of indices are not that of the dimensions. -/
def setLimits (a : Array) (first last : List ℤ) : Option Array :=
  if first.length ≠ a.dims.length ∨ last.length ≠ a.dims.length then none else
    let ds := List.zipWith (fun d l => limit d l.1 l.2) a.dims (first.zip last)
    some { a with dims := ds, nElements_ := (ds.map Dim.current).prod }.setBounds.setDense

/-- `setLimits( limits )`: as many sizes as dimensions, or a first and a last index for each. -/
def setLimitsOf (a : Array) (limits : List ℤ) : Option Array :=
  if limits.length = a.dims.length then
    a.setLimits (a.dims.map Dim.first) (List.zipWith (fun (d : Dim) l => d.first + l - 1) a.dims limits)
  else if limits.length = 2 * a.dims.length then
    a.setLimits ((List.range a.dims.length).map fun i => limits.getD (2 * i) 0)
      ((List.range a.dims.length).map fun i => limits.getD (2 * i + 1) 0)
  else none

/-- `Array( rhs, indices )`. -/
def subArray (a : Array) (indices : List ℤ) : Option Array :=
  if indices.length % 2 = 1 ∨ 2 * a.dims.length < indices.length then none
  else if indices ≠ [] then a.setLimitsOf indices
  else some a.setBounds

/-- By how much a dimension can be shifted. -/
def shiftBy (d : Dim) (n : ℤ) : ℤ :=
  let n := if n + d.first < 0 then -d.first else n
  if d.size ≤ (n + d.last).natAbs then d.size - d.last - 1 else n

/-- `shift( dim, n )`, without the shift that it returns. -/
def shift (a : Array) (dim : ℕ) (n : ℤ) : Array :=
  if n = 0 then a else
    match a.dims[dim]? with
    | none => a
    | some d =>
      let n := shiftBy d n
      { a with dims := a.dims.set dim { d with first := d.first + n, last := d.last + n } }.setBounds

/-- The faster dimensions of `resetLimits`, by the strides. -/
def resetRest : ℕ → List Dim → List Dim
  | _, [] => []
  | stride, d :: ds =>
    let current := stride / d.stride
    { d with first := 0, last := current - 1, current := current } :: resetRest d.stride ds

/-- `resetLimits`, which without dimensions would write to an element that is not there. -/
def resetLimits (a : Array) : Option Array :=
  match a.dims with
  | [] => none
  | d :: ds =>
    let rest := resetRest d.stride ds
    let nElements := (rest.map Dim.current).prod
    let current := a.dataSize / nElements
    some { a with
      dims := { d with first := 0, last := current - 1, current := current } :: rest
      nElements_ := nElements * current }.setBounds.setDense

/-- What is done with a view: a view of it is made, or its limits are changed. -/
inductive Op
  | subArray (indices : List ℤ)
  | subArrayTo (first last : List ℤ)
  | setLimits (first last : List ℤ)
  | setLimitsOf (limits : List ℤ)
  | shift (dim : ℕ) (n : ℤ)
  | resetLimits

/-- The view after an operation; `none` if it throws.  `Array( rhs, first, last )` sets the limits. -/
def apply (a : Array) : Op → Option Array
  | .subArray indices => a.subArray indices
  | .subArrayTo first last => a.setLimits first last
  | .setLimits first last => a.setLimits first last
  | .setLimitsOf limits => a.setLimitsOf limits
  | .shift dim n => some (a.shift dim n)
  | .resetLimits => a.resetLimits

/-! ## Iterators -/

/-- Out of bounds for a dimension, the position is moved on by the padding of the dimension.  `stride`
is the stride of the dimension before. -/
def pad (stride : ℕ) (d : Dim) (pos : ℤ) : ℤ :=
  let remainder := pos % stride / d.stride
  if remainder > d.last ∨ remainder < d.first then stride - d.current * d.stride else 0

/-- The loop of `trimUp`, from the fastest dimension on. -/
def padUp : ℕ → List Dim → ℤ → ℤ
  | _, [], pos => pos
  | stride, d :: ds, pos =>
    let pos := padUp d.stride ds pos
    pos + pad stride d pos

/-- The loop of `trimDown`. -/
def padDown : ℕ → List Dim → ℤ → ℤ
  | _, [], pos => pos
  | stride, d :: ds, pos =>
    let pos := padDown d.stride ds pos
    pos - pad stride d pos

/-- `trimUp`; the slowest dimension has no padding. -/
def trimUp (a : Array) (pos : ℤ) : ℤ :=
  match a.dims with
  | [] => min pos a.end_
  | d :: ds => min (padUp d.stride ds pos) a.end_

def trimDown (a : Array) (pos : ℤ) : ℤ :=
  match a.dims with
  | [] => max pos a.begin_
  | d :: ds => max (padDown d.stride ds pos) a.begin_

/-- `++`, which throws at the end. -/
def increment (a : Array) (pos : ℤ) : Option ℤ :=
  if pos ≥ a.end_ then none else some (if a.dense_ then pos + 1 else a.trimUp (pos + 1))

/-- `--`, which throws at the beginning. -/
def decrement (a : Array) (pos : ℤ) : Option ℤ :=
  if pos ≤ a.begin_ then none else some (if a.dense_ then pos - 1 else a.trimDown (pos - 1))

/-- `for( it = begin(); it != end(); ++it )`, for at most `fuel` rounds. -/
def forwards (a : Array) (fuel : ℕ) : Option (List ℤ) := walk a.increment a.end_ fuel a.begin_

/-- `for( it = end(); it != begin(); ) { --it; … }`, for at most `fuel` rounds. -/
def backwards (a : Array) (fuel : ℕ) : Option (List ℤ) := walkBack a.decrement a.begin_ fuel a.end_

end Array

/-! ## The elements of a view -/

/-- The offsets that the limits of the dimensions span, in row-major order. -/
def offsets : List Dim → List ℤ
  | [] => [0]
  | d :: ds => (List.range d.current).flatMap fun i : ℕ => (offsets ds).map ((d.first + i) * d.stride + ·)

/-- The elements of a view; without dimensions there are none. -/
def Array.elements (a : Array) : List ℤ := if a.dims = [] then [] else offsets a.dims

end Redux.Util.Arrays
