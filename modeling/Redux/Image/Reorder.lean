import Redux.Lib.IntType
import Redux.Lib.RowMajor
import Redux.Lib.Scatter
import Mathlib.Data.List.Perm.Basic
import Mathlib.Tactic.Linarith

/-!
# Image.Reorder — the quadrants of an image, put into another one

`reorderInto` copies the four quadrants of an image row by row.  Each of them goes to a place that is computed from
the sizes, in part as an `int`.  The result is exact (`reorderInto_exact_iff`) as long as these numbers fit: every element
of the image is written once, to where it belongs, and nothing else is.
-/

namespace Redux.Image.FourierTransform

open Redux.Lib Redux.Lib.Scatter

/-! ## Model -/

/-- The sizes that `reorderInto` is called with. -/
structure Call where
  (inSizeY inSizeX outSizeY outSizeX : ℕ)
  center : Bool

/-- `std::copy_n( inSmall+src, n, outBig+dst )`. -/
structure Copy where
  src : ℕ
  n : ℕ
  dst : ℤ

/-- Where each element goes, and where it comes from. -/
def Copy.writes (c : Copy) : List (ℤ × ℕ) := (List.range c.n).map fun i : ℕ => (c.dst + i, c.src + i)

namespace Call

variable (c : Call)

def inMidY : ℕ := c.inSizeY / 2
def inMidX : ℕ := c.inSizeX / 2
def oddY : ℕ := c.inSizeY % 2
def oddX : ℕ := c.inSizeX % 2
def diffY : ℕ := c.outSizeY - c.inSizeY
def diffX : ℕ := c.outSizeX - c.inSizeX
def diffYh : ℕ := c.diffY / 2
def diffXh : ℕ := c.diffX / 2

/-! The shifts are `int`s: what is computed in `size_t` is reduced to one. -/

def wDx : ℤ := if c.center then IntType.int.wrap c.diffXh else 0
def eDx : ℤ := if c.center then IntType.int.wrap (c.diffXh - c.diffX) else 0
def sDy : ℤ := if c.center then IntType.int.wrap (c.diffYh * c.outSizeX) else 0
def nDy : ℤ := if c.center then IntType.int.wrap ((c.diffYh - c.diffY) * c.outSizeX) else 0

/-! The quadrants of the input, from `inSmall` on, and those of the output, from `outBig` on. -/

def southEastIn : ℕ := c.inMidX + c.oddX
def northWestIn : ℕ := (c.inMidY + c.oddY) * c.inSizeX
def northEastIn : ℕ := c.southEastIn + (c.inMidY + c.oddY) * c.inSizeX

def southWestOut : ℤ := c.sDy + c.wDx
def southEastOut : ℤ := c.outSizeX - c.inMidX - c.oddX + c.sDy + c.eDx
def northWestOut : ℤ := (c.outSizeY - c.inMidY - c.oddY) * c.outSizeX + c.nDy + c.wDx
def northEastOut : ℤ := (c.outSizeY - c.inMidY - c.oddY + 1) * c.outSizeX - c.inMidX - c.oddX + c.nDy + c.eDx

/-- The first loop, for one `y`. -/
def northCopies (y : ℕ) : List Copy :=
  [⟨c.northEastIn + y * c.inSizeX, c.inMidX, c.southWestOut + y * c.outSizeX⟩,
    ⟨c.northWestIn + y * c.inSizeX, c.inMidX + c.oddX, c.southEastOut + y * c.outSizeX⟩]

/-- The second loop, for one `y`. -/
def southCopies (y : ℕ) : List Copy :=
  [⟨y * c.inSizeX, c.inMidX + c.oddX, c.northEastOut + y * c.outSizeX⟩,
    ⟨c.southEastIn + y * c.inSizeX, c.inMidX, c.northWestOut + y * c.outSizeX⟩]

/-- How often the second loop goes round: its variable is an `int`. -/
def southRows : ℕ := (IntType.int.wrap (c.inMidY + c.oddY - 1) + 1).toNat

def copies : List Copy :=
  (List.range c.inMidY).flatMap c.northCopies ++ (List.range c.southRows).reverse.flatMap c.southCopies

/-- Without an output size it is that of the input. -/
def outSized : Call :=
  if c.outSizeY = 0 ∧ c.outSizeX = 0 then { c with outSizeY := c.inSizeY, outSizeX := c.inSizeX } else c

/-- Between equal sizes nothing is centred. -/
def settled : Call :=
  if c.inSizeY = c.outSizeY ∧ c.inSizeX = c.outSizeX then { c with center := false } else c

/-- `reorderInto`, of pointers to different blocks: the copies it makes, none if it throws. -/
def reorderInto : Option (List Copy) :=
  if c.outSized.outSizeY < c.outSized.inSizeY ∨ c.outSized.outSizeX < c.outSized.inSizeX then none
  else some c.outSized.settled.copies

end Call

/-! ## Places -/

/-- Index `i` of `n`, turned by half. -/
def turned (n i : ℕ) : ℕ := (i + n / 2) % n

/-- Where index `i` of `n` belongs in an output of `out`: in the middle, or the first part at the beginning and
the rest at the end. -/
def place (center : Bool) (n out i : ℕ) : ℕ :=
  if center then turned n i + (out - n) / 2
  else if turned n i < n / 2 then turned n i else turned n i + (out - n)

/-- An image that fits into the output. -/
structure Request extends Call where
  posY : 0 < inSizeY
  posX : 0 < inSizeX
  leY : inSizeY ≤ outSizeY
  leX : inSizeX ≤ outSizeX

section Places

variable {n i : ℕ}

/-- The part that goes to the end. -/
theorem turned_of_lt (h : i < n / 2 + n % 2) : turned n i = i + n / 2 := by
  rw [turned, Nat.mod_eq_of_lt (by omega)]

/-- The part that goes to the beginning. -/
theorem turned_of_ge (h : i < n / 2) : turned n (n / 2 + n % 2 + i) = i := by
  rw [turned, show n / 2 + n % 2 + i + n / 2 = i + n by omega, Nat.add_mod_right, Nat.mod_eq_of_lt (by omega)]

/-- What the first part is moved by in a larger output. -/
def before (center : Bool) (n out : ℕ) : ℕ := if center then (out - n) / 2 else 0

/-- What the last part is moved by in a larger output. -/
def behind (center : Bool) (n out : ℕ) : ℕ := if center then (out - n) / 2 else out - n

variable {center : Bool} {out : ℕ}

theorem place_of_lt (h : i < n / 2 + n % 2) : place center n out i = i + n / 2 + behind center n out := by
  rw [place, turned_of_lt h, behind, if_neg (show ¬i + n / 2 < n / 2 by omega)]
  split <;> rfl

theorem place_of_ge (h : i < n / 2) : place center n out (n / 2 + n % 2 + i) = i + before center n out := by
  rw [place, turned_of_ge h, before, if_pos h]
  split <;> rfl

/-- Turning takes no two indices to the same place. -/
theorem turned_inj {j : ℕ} (hi : i < n) (hj : j < n) (h : turned n i = turned n j) : i = j :=
  (Nat.ModEq.add_right_cancel' (n / 2) h).eq_of_lt_of_lt hi hj

/-- What is in the image is put into the output. -/
theorem place_lt (hn : 0 < n) (hout : n ≤ out) (i : ℕ) : place center n out i < out := by
  have hturned : turned n i < n := Nat.mod_lt _ hn
  rw [place]
  split_ifs <;> omega

/-- Two indices are put into the same place only if they are the same. -/
theorem place_inj {j : ℕ} (hi : i < n) (hj : j < n) (h : place center n out i = place center n out j) : i = j := by
  refine turned_inj hi hj ?_
  rw [place, place] at h
  split_ifs at h <;> omega

end Places

namespace Request

variable (r : Request)

/-- Where an element belongs. -/
def target (s : ℕ) : ℤ :=
  place r.center r.inSizeY r.outSizeY (s / r.inSizeX) * r.outSizeX + place r.center r.inSizeX r.outSizeX (s % r.inSizeX)

/-- **Every element of the image is written once, to where it belongs, and nothing else is written**, least of all
outside of the output. -/
def Exact : Prop := ∃ copies, r.reorderInto = some copies ∧
  (copies.flatMap Copy.writes).Perm ((List.range (r.inSizeY * r.inSizeX)).map fun s => (r.target s, s)) ∧
  ∀ w ∈ copies.flatMap Copy.writes, 0 ≤ w.1 ∧ w.1 < r.outSizeY * r.outSizeX

/-- The numbers that are computed as an `int` are ones. -/
def FitsInt : Prop := (r.inSizeY + 1) / 2 ≤ 2 ^ 31 ∧ (r.center →
  (r.diffY - r.diffYh) * r.outSizeX ≤ 2 ^ 31 ∧ r.diffX - r.diffXh ≤ 2 ^ 31 ∧
    (2 ≤ r.inSizeY → r.diffYh * r.outSizeX < 2 ^ 31) ∧ (2 ≤ r.inSizeX → r.diffXh < 2 ^ 31))

end Request

/-! ## What is read -/

section Sources

variable (c : Call)

/-- The elements of a row. -/
def row (X y : ℕ) : List ℕ := (List.range X).map (y * X + ·)

theorem range_mul (X Y : ℕ) : List.range (Y * X) = (List.range Y).flatMap (row X) := RowMajor.range_mul X Y

theorem sources_copy (cp : Copy) : cp.writes.map Prod.snd = (List.range cp.n).map (cp.src + ·) := by
  rw [Copy.writes, List.map_map]
  rfl

/-- The two quadrants that a row goes through. -/
theorem row_eq (y : ℕ) : row c.inSizeX y = (List.range (c.inMidX + c.oddX)).map (y * c.inSizeX + ·) ++
    (List.range c.inMidX).map (c.southEastIn + y * c.inSizeX + ·) := by
  have hrange : List.range c.inSizeX =
      List.range (c.inMidX + c.oddX) ++ (List.range c.inMidX).map (c.inMidX + c.oddX + ·) := by
    rw [← List.range_add, show c.inMidX + c.oddX + c.inMidX = c.inSizeX by unfold Call.inMidX Call.oddX; omega]
  rw [row, hrange, List.map_append, List.map_map]
  refine congrArg _ (List.map_congr_left fun x _ => ?_)
  show y * c.inSizeX + (c.inMidX + c.oddX + x) = c.inMidX + c.oddX + y * c.inSizeX + x
  omega

theorem sources_north (y : ℕ) : (((c.northCopies y).flatMap Copy.writes).map Prod.snd).Perm
    (row c.inSizeX (c.inMidY + c.oddY + y)) := by
  rw [Call.northCopies, List.flatMap_cons, List.flatMap_singleton, List.map_append, sources_copy, sources_copy, row_eq,
    Call.northEastIn, Call.northWestIn, Nat.add_mul _ y, ← Nat.add_assoc]
  exact List.perm_append_comm

theorem sources_south (y : ℕ) : ((c.southCopies y).flatMap Copy.writes).map Prod.snd = row c.inSizeX y := by
  rw [Call.southCopies, List.flatMap_cons, List.flatMap_singleton, List.map_append, sources_copy, sources_copy, row_eq]

/-- **If the second loop goes through its rows, every element is read once.** -/
theorem sources_copies (h : c.southRows = c.inMidY + c.oddY) :
    ((c.copies.flatMap Copy.writes).map Prod.snd).Perm (List.range (c.inSizeY * c.inSizeX)) := by
  have hY : c.inSizeY = c.inMidY + c.oddY + c.inMidY := by
    unfold Call.inMidY Call.oddY
    omega
  rw [range_mul, hY, List.range_add, List.flatMap_append, List.flatMap_map, Call.copies, h, List.flatMap_append,
    List.map_append]
  refine List.perm_append_comm.trans (List.Perm.append ?_ ?_)
  · rw [List.flatMap_assoc, List.map_flatMap, List.flatMap_congr fun y _ => sources_south c y]
    exact (List.reverse_perm _).flatMap_right _
  · rw [List.flatMap_assoc, List.map_flatMap]
    exact List.Perm.flatMap_left _ fun y _ => sources_north c y

theorem length_copy (cp : Copy) : cp.writes.length = cp.n := by
  rw [Copy.writes, List.length_map, List.length_range]

/-- **As many elements are written as the loops have rows.** -/
theorem length_writes : (c.copies.flatMap Copy.writes).length = (c.inMidY + c.southRows) * c.inSizeX := by
  have hX : c.inMidX + (c.inMidX + c.oddX) = c.inSizeX := by
    unfold Call.inMidX Call.oddX
    omega
  have hnorth : ∀ y, ((c.northCopies y).flatMap Copy.writes).length = c.inSizeX := fun y => by
    rw [Call.northCopies, List.flatMap_cons, List.flatMap_singleton, List.length_append, length_copy, length_copy, hX]
  have hsouth : ∀ y, ((c.southCopies y).flatMap Copy.writes).length = c.inSizeX := fun y => by
    rw [Call.southCopies, List.flatMap_cons, List.flatMap_singleton, List.length_append, length_copy, length_copy,
      Nat.add_comm, hX]
  rw [Call.copies, List.flatMap_append, List.length_append, List.flatMap_assoc, List.flatMap_assoc, List.length_flatMap,
    List.length_flatMap]
  simp only [hnorth, hsouth, List.map_const', List.sum_replicate, List.length_range, List.length_reverse, Nat.add_mul]
  rfl

end Sources

/-! ## Where it is written -/

section Targets

variable (r : Request)

theorem Request.target_eq {y x : ℕ} (hx : x < r.inSizeX) : r.target (y * r.inSizeX + x) =
    place r.center r.inSizeY r.outSizeY y * r.outSizeX + place r.center r.inSizeX r.outSizeX x := by
  rw [Request.target, Nat.add_comm, Nat.add_mul_div_right _ _ r.posX, Nat.div_eq_of_lt hx, Nat.zero_add,
    Nat.add_mul_mod_self_right, Nat.mod_eq_of_lt hx]

variable {r} in
/-- **A row of a quadrant is copied to where it belongs** exactly if the quadrant is where it belongs. -/
theorem copy_iff {cp : Copy} {row y p q : ℕ} {out : ℤ} (col : ℕ) (hsrc : cp.src = row * r.inSizeX + col)
    (hdst : cp.dst = out + y * r.outSizeX) (hn : col + cp.n ≤ r.inSizeX)
    (hrow : place r.center r.inSizeY r.outSizeY row = y + p)
    (hcol : ∀ i < cp.n, place r.center r.inSizeX r.outSizeX (col + i) = i + q) :
    (∀ w ∈ cp.writes, w.1 = r.target w.2) ↔ (0 < cp.n → out = p * r.outSizeX + q) := by
  rw [Copy.writes, List.forall_mem_map]
  have hone : ∀ i < cp.n, (cp.dst + (i : ℤ) = r.target (cp.src + i) ↔ out = p * r.outSizeX + q) := fun i hi => by
    rw [hdst, hsrc, Nat.add_assoc, r.target_eq (by omega), hrow, hcol i hi]
    push_cast
    constructor
    · intro h
      linarith
    · rintro rfl
      ring
  constructor
  · intro h hpos
    exact (hone 0 hpos).1 (h 0 (List.mem_range.2 hpos))
  · intro h i hi
    exact (hone i (List.mem_range.1 hi)).2 (h (by have := List.mem_range.1 hi; omega))

/-- The four quadrants are where they belong, if there is anything in them. -/
structure Right : Prop where
  southWest : 0 < r.inMidY → 0 < r.inMidX → r.southWestOut =
    before r.center r.inSizeY r.outSizeY * r.outSizeX + before r.center r.inSizeX r.outSizeX
  southEast : 0 < r.inMidY → r.southEastOut = before r.center r.inSizeY r.outSizeY * r.outSizeX +
    (r.inMidX + behind r.center r.inSizeX r.outSizeX : ℕ)
  northWest : 0 < r.inMidX → r.northWestOut =
    (r.inMidY + behind r.center r.inSizeY r.outSizeY : ℕ) * r.outSizeX + before r.center r.inSizeX r.outSizeX
  northEast : r.northEastOut = (r.inMidY + behind r.center r.inSizeY r.outSizeY : ℕ) * r.outSizeX +
    (r.inMidX + behind r.center r.inSizeX r.outSizeX : ℕ)

theorem right_north {y : ℕ} (hy : y < r.inMidY) :
    (∀ w ∈ (r.northCopies y).flatMap Copy.writes, w.1 = r.target w.2) ↔
      (0 < r.inMidX → r.southWestOut =
        before r.center r.inSizeY r.outSizeY * r.outSizeX + before r.center r.inSizeX r.outSizeX) ∧
      (0 < r.inMidX + r.oddX → r.southEastOut = before r.center r.inSizeY r.outSizeY * r.outSizeX +
        (r.inMidX + behind r.center r.inSizeX r.outSizeX : ℕ)) := by
  have hX : r.inMidX + r.oddX + r.inMidX = r.inSizeX := by
    unfold Call.inMidX Call.oddX
    omega
  have hrow := @place_of_ge r.inSizeY y r.center r.outSizeY hy
  rw [Call.northCopies, List.flatMap_cons, List.flatMap_singleton, List.forall_mem_append]
  refine and_congr (copy_iff (r.inMidX + r.oddX) ?_ rfl hX.le hrow fun i hi => place_of_ge hi)
    (copy_iff 0 ?_ rfl ?_ hrow fun i hi => ?_)
  · show r.inMidX + r.oddX + (r.inMidY + r.oddY) * r.inSizeX + y * r.inSizeX =
      (r.inMidY + r.oddY + y) * r.inSizeX + (r.inMidX + r.oddX)
    ring
  · show (r.inMidY + r.oddY) * r.inSizeX + y * r.inSizeX = (r.inMidY + r.oddY + y) * r.inSizeX + 0
    ring
  · show 0 + (r.inMidX + r.oddX) ≤ r.inSizeX
    omega
  · rw [Nat.zero_add, place_of_lt hi, Nat.add_assoc]
    rfl

theorem right_south {y : ℕ} (hy : y < r.inMidY + r.oddY) :
    (∀ w ∈ (r.southCopies y).flatMap Copy.writes, w.1 = r.target w.2) ↔
      (0 < r.inMidX + r.oddX → r.northEastOut =
        (r.inMidY + behind r.center r.inSizeY r.outSizeY : ℕ) * r.outSizeX +
          (r.inMidX + behind r.center r.inSizeX r.outSizeX : ℕ)) ∧
      (0 < r.inMidX → r.northWestOut =
        (r.inMidY + behind r.center r.inSizeY r.outSizeY : ℕ) * r.outSizeX +
          before r.center r.inSizeX r.outSizeX) := by
  have hX : r.inMidX + r.oddX + r.inMidX = r.inSizeX := by
    unfold Call.inMidX Call.oddX
    omega
  have hrow : place r.center r.inSizeY r.outSizeY y = y + (r.inMidY + behind r.center r.inSizeY r.outSizeY) := by
    rw [place_of_lt hy, Nat.add_assoc]
    rfl
  rw [Call.southCopies, List.flatMap_cons, List.flatMap_singleton, List.forall_mem_append]
  refine and_congr (copy_iff 0 ?_ rfl ?_ hrow fun i hi => ?_)
    (copy_iff (r.inMidX + r.oddX) ?_ rfl hX.le hrow fun i hi => place_of_ge hi)
  · exact (Nat.add_zero _).symm
  · show 0 + (r.inMidX + r.oddX) ≤ r.inSizeX
    omega
  · rw [Nat.zero_add, place_of_lt hi, Nat.add_assoc]
    rfl
  · exact Nat.add_comm _ _

/-- **Every write has its target exactly if the four quadrants are where they belong.** -/
theorem right_iff (h : r.southRows = r.inMidY + r.oddY) :
    (∀ w ∈ r.copies.flatMap Copy.writes, w.1 = r.target w.2) ↔ Right r := by
  have hposX : 0 < r.inMidX + r.oddX := by
    have := r.posX
    unfold Call.inMidX Call.oddX
    omega
  have hposY : 0 < r.inMidY + r.oddY := by
    have := r.posY
    unfold Call.inMidY Call.oddY
    omega
  rw [Call.copies, List.flatMap_append, List.forall_mem_append, List.flatMap_assoc, List.flatMap_assoc, h]
  constructor
  · rintro ⟨hnorth, hsouth⟩
    have hn : ∀ y < r.inMidY, ∀ w ∈ (r.northCopies y).flatMap Copy.writes, w.1 = r.target w.2 := fun y hy w hw =>
      hnorth w (List.mem_flatMap.2 ⟨y, List.mem_range.2 hy, hw⟩)
    have hs : ∀ w ∈ (r.southCopies 0).flatMap Copy.writes, w.1 = r.target w.2 := fun w hw =>
      hsouth w (List.mem_flatMap.2 ⟨0, List.mem_reverse.2 (List.mem_range.2 hposY), hw⟩)
    obtain ⟨hne, hnw⟩ := (right_south r hposY).1 hs
    exact ⟨fun hy => ((right_north r hy).1 (hn 0 hy)).1, fun hy => ((right_north r hy).1 (hn 0 hy)).2 hposX, hnw,
      hne hposX⟩
  · intro hright
    constructor
    · intro w hw
      obtain ⟨y, hy, hw⟩ := List.mem_flatMap.1 hw
      have hy' : y < r.inMidY := List.mem_range.1 hy
      exact (right_north r hy').2 ⟨hright.southWest (Nat.zero_lt_of_lt hy'),
        fun _ => hright.southEast (Nat.zero_lt_of_lt hy')⟩ w hw
    · intro w hw
      obtain ⟨y, hy, hw⟩ := List.mem_flatMap.1 hw
      have hy' : y < r.inMidY + r.oddY := List.mem_range.1 (List.mem_reverse.1 hy)
      exact (right_south r hy').2 ⟨fun _ => hright.northEast, hright.northWest⟩ w hw

end Targets

/-! ## The numbers -/

section Numbers

variable (r : Request)

theorem fits_int {z : ℤ} : IntType.int.Fits z ↔ -2147483648 ≤ z ∧ z ≤ 2147483647 := Iff.rfl

theorem wrap_eq_iff {z : ℤ} : IntType.int.wrap z = z ↔ -2147483648 ≤ z ∧ z ≤ 2147483647 :=
  ⟨fun h => fits_int.1 (h ▸ IntType.int.fits_wrap z), fun h => IntType.wrap_of_fits (fits_int.2 h)⟩

/-- What is not positive becomes larger if it does not fit. -/
theorem le_wrap {z : ℤ} (h : z ≤ 0) : z ≤ IntType.int.wrap z := by
  have hfits := fits_int.1 (IntType.int.fits_wrap z)
  obtain ⟨k, hk⟩ := IntType.int.exists_wrap z
  change z = IntType.int.wrap z + k * 4294967296 at hk
  omega

/-- **The second loop goes through its rows if their number fits.** -/
theorem southRows_iff : r.southRows = r.inMidY + r.oddY ↔ (r.inSizeY + 1) / 2 ≤ 2 ^ 31 := by
  have hpos := r.posY
  have hrows : r.inMidY + r.oddY = (r.inSizeY + 1) / 2 := by
    unfold Call.inMidY Call.oddY
    omega
  have hpos' : 0 < (r.inSizeY + 1) / 2 := by omega
  have hcast : (r.inMidY : ℤ) + r.oddY - 1 = ((r.inSizeY + 1) / 2 : ℕ) - 1 := by
    rw [← hrows]
    push_cast
    ring
  rw [Call.southRows, hcast, hrows]
  generalize (r.inSizeY + 1) / 2 = n at hpos'
  constructor
  · intro h
    have hwrap : IntType.int.wrap ((n : ℤ) - 1) = n - 1 := by omega
    have hle := (wrap_eq_iff.1 hwrap).2
    omega
  · intro h
    rw [wrap_eq_iff.2 ⟨by omega, by omega⟩]
    omega

theorem outX_eq : (r.outSizeX : ℤ) - r.inMidX - r.oddX = r.inMidX + r.diffX := by
  have hle := r.leX
  unfold Call.inMidX Call.oddX Call.diffX
  omega

theorem outY_eq : (r.outSizeY : ℤ) - r.inMidY - r.oddY = r.inMidY + r.diffY := by
  have hle := r.leY
  unfold Call.inMidY Call.oddY Call.diffY
  omega

/-- Where the output quadrants are, but for the shifts. -/
theorem southEastOut_eq : r.southEastOut = r.inMidX + r.diffX + r.sDy + r.eDx := by
  rw [Call.southEastOut, outX_eq]

theorem northWestOut_eq : r.northWestOut = (r.inMidY + r.diffY) * r.outSizeX + r.nDy + r.wDx := by
  rw [Call.northWestOut, outY_eq]

theorem northEastOut_eq :
    r.northEastOut = (r.inMidY + r.diffY) * r.outSizeX + (r.inMidX + r.diffX) + r.nDy + r.eDx := by
  have hX := outX_eq r
  rw [Call.northEastOut, outY_eq, add_mul, one_mul]
  linarith

/-- Without centring nothing is shifted. -/
theorem shifts_of_not_center {c : Call} (h : c.center = false) : c.sDy = 0 ∧ c.nDy = 0 ∧ c.wDx = 0 ∧ c.eDx = 0 := by
  simp [Call.sDy, Call.nDy, Call.wDx, Call.eDx, h]

/-- Without a difference in size nothing is shifted either. -/
theorem shifts_of_same {c : Call} (hY : c.diffY = 0) (hX : c.diffX = 0) :
    c.sDy = 0 ∧ c.nDy = 0 ∧ c.wDx = 0 ∧ c.eDx = 0 := by
  simp [Call.sDy, Call.nDy, Call.wDx, Call.eDx, Call.diffYh, Call.diffXh, hY, hX, show IntType.int.wrap 0 = 0 by decide]

/-- **Without centring the quadrants are in the corners.** -/
theorem right_of_not_center (h : r.center = false) : Right r := by
  obtain ⟨hsDy, hnDy, hwDx, heDx⟩ := shifts_of_not_center h
  have hbefore : ∀ n out, before r.center n out = 0 := fun n out => by rw [before, h, if_neg Bool.false_ne_true]
  have hbehind : ∀ n out, behind r.center n out = out - n := fun n out => by
    rw [behind, h, if_neg Bool.false_ne_true]
  refine ⟨fun _ _ => ?_, fun _ => ?_, fun _ => ?_, ?_⟩
  · rw [Call.southWestOut, hsDy, hwDx, hbefore, hbefore, Nat.cast_zero, zero_mul]
  · rw [southEastOut_eq, hsDy, heDx, hbefore, hbehind, ← Call.diffX]
    push_cast
    ring
  · rw [northWestOut_eq, hnDy, hwDx, hbefore, hbehind, ← Call.diffY]
    push_cast
    ring
  · rw [northEastOut_eq, hnDy, heDx, hbehind, hbehind, ← Call.diffY, ← Call.diffX]
    push_cast
    ring

/-- **With centring the shifts have to be right**, those of a quadrant added up. -/
theorem right_iff_shifts (h : r.center = true) : Right r ↔
    (0 < r.inMidY → 0 < r.inMidX → r.sDy + r.wDx = r.diffYh * r.outSizeX + r.diffXh) ∧
    (0 < r.inMidY → r.sDy + r.eDx = r.diffYh * r.outSizeX + (r.diffXh - r.diffX)) ∧
    (0 < r.inMidX → r.nDy + r.wDx = (r.diffYh - r.diffY) * r.outSizeX + r.diffXh) ∧
    r.nDy + r.eDx = (r.diffYh - r.diffY) * r.outSizeX + (r.diffXh - r.diffX) := by
  have hbY : before r.center r.inSizeY r.outSizeY = r.diffYh ∧ behind r.center r.inSizeY r.outSizeY = r.diffYh := by
    rw [before, behind, h, if_pos rfl]
    exact ⟨rfl, rfl⟩
  have hbX : before r.center r.inSizeX r.outSizeX = r.diffXh ∧ behind r.center r.inSizeX r.outSizeX = r.diffXh := by
    rw [before, behind, h, if_pos rfl]
    exact ⟨rfl, rfl⟩
  constructor
  · rintro ⟨hsw, hse, hnw, hne⟩
    rw [hbY.1, hbX.1] at hsw
    rw [southEastOut_eq, hbY.1, hbX.2] at hse
    rw [northWestOut_eq, hbY.2, hbX.1] at hnw
    rw [northEastOut_eq, hbY.2, hbX.2] at hne
    push_cast at hse hnw hne
    exact ⟨hsw, fun hy => by linarith [hse hy], fun hx => by linarith [hnw hx], by linarith⟩
  · rintro ⟨hsw, hse, hnw, hne⟩
    refine ⟨fun hy hx => ?_, fun hy => ?_, fun hx => ?_, ?_⟩
    · rw [hbY.1, hbX.1]
      exact hsw hy hx
    · rw [southEastOut_eq, hbY.1, hbX.2]
      push_cast
      linarith [hse hy]
    · rw [northWestOut_eq, hbY.2, hbX.1]
      push_cast
      linarith [hnw hx]
    · rw [northEastOut_eq, hbY.2, hbX.2]
      push_cast
      linarith

/-- **Sums of shifts are right exactly if the shifts fit**, as the negative ones are the larger ones. -/
theorem sums_iff {a b c d : ℤ} {P Q : Prop} (ha : 0 ≤ a) (hab : a ≤ b) (hc : 0 ≤ c) (hcd : c ≤ d) :
    ((P → Q → IntType.int.wrap a + IntType.int.wrap c = a + c) ∧
      (P → IntType.int.wrap a + IntType.int.wrap (-d) = a + -d) ∧
      (Q → IntType.int.wrap (-b) + IntType.int.wrap c = -b + c) ∧
      IntType.int.wrap (-b) + IntType.int.wrap (-d) = -b + -d) ↔
    b ≤ 2147483648 ∧ d ≤ 2147483648 ∧ (P → a < 2147483648) ∧ (Q → c < 2147483648) := by
  have hb := le_wrap (z := -b) (by omega)
  have hd := le_wrap (z := -d) (by omega)
  constructor
  · rintro ⟨-, hse, hnw, hne⟩
    have hwb : IntType.int.wrap (-b) = -b := by omega
    have hwd : IntType.int.wrap (-d) = -d := by omega
    rw [hwd] at hse
    rw [hwb] at hnw
    have hb' := (wrap_eq_iff.1 hwb).1
    have hd' := (wrap_eq_iff.1 hwd).1
    refine ⟨by omega, by omega, fun hP => ?_, fun hQ => ?_⟩
    · have := (wrap_eq_iff.1 (add_right_cancel (hse hP))).2
      omega
    · have := (wrap_eq_iff.1 (add_left_cancel (hnw hQ))).2
      omega
  · rintro ⟨hb', hd', ha', hc'⟩
    have hwb : IntType.int.wrap (-b) = -b := wrap_eq_iff.2 ⟨by omega, by omega⟩
    have hwd : IntType.int.wrap (-d) = -d := wrap_eq_iff.2 ⟨by omega, by omega⟩
    have hwa : P → IntType.int.wrap a = a := fun hP => wrap_eq_iff.2 ⟨by omega, Int.le_sub_one_of_lt (ha' hP)⟩
    have hwc : Q → IntType.int.wrap c = c := fun hQ => wrap_eq_iff.2 ⟨by omega, Int.le_sub_one_of_lt (hc' hQ)⟩
    exact ⟨fun hP hQ => by rw [hwa hP, hwc hQ], fun hP => by rw [hwa hP, hwd], fun hQ => by rw [hwb, hwc hQ],
      by rw [hwb, hwd]⟩

/-- **The quadrants are where they belong exactly if the shifts fit.** -/
theorem right_iff_fits : Right r ↔ (r.center → (r.diffY - r.diffYh) * r.outSizeX ≤ 2 ^ 31 ∧
    r.diffX - r.diffXh ≤ 2 ^ 31 ∧ (2 ≤ r.inSizeY → r.diffYh * r.outSizeX < 2 ^ 31) ∧
    (2 ≤ r.inSizeX → r.diffXh < 2 ^ 31)) := by
  cases hcenter : r.center with
  | false => exact iff_of_true (right_of_not_center r hcenter) fun h => absurd h Bool.false_ne_true
  | true =>
    have hmidY : 2 ≤ r.inSizeY ↔ 0 < r.inMidY := (Nat.div_pos_iff.trans (and_iff_right two_pos)).symm
    have hmidX : 2 ≤ r.inSizeX ↔ 0 < r.inMidX := (Nat.div_pos_iff.trans (and_iff_right two_pos)).symm
    have hY : 2 * r.diffYh ≤ r.diffY := Nat.mul_div_le _ _
    have hX : 2 * r.diffXh ≤ r.diffX := Nat.mul_div_le _ _
    have hB : ((r.diffYh : ℤ) - r.diffY) * r.outSizeX = -(((r.diffY - r.diffYh) * r.outSizeX : ℕ) : ℤ) := by
      push_cast [show r.diffYh ≤ r.diffY by omega]
      ring
    have hD : (r.diffXh : ℤ) - r.diffX = -((r.diffX - r.diffXh : ℕ) : ℤ) := by
      push_cast [show r.diffXh ≤ r.diffX by omega]
      ring
    have hA : (r.diffYh : ℤ) * r.outSizeX = ((r.diffYh * r.outSizeX : ℕ) : ℤ) := by push_cast; rfl
    have hle : r.diffYh * r.outSizeX ≤ (r.diffY - r.diffYh) * r.outSizeX := Nat.mul_le_mul_right _ (by omega)
    rw [right_iff_shifts r hcenter, Call.sDy, Call.wDx, Call.nDy, Call.eDx, hcenter, if_pos rfl, if_pos rfl, if_pos rfl,
      if_pos rfl, hB, hD, hA, sums_iff (Int.natCast_nonneg _) (by exact_mod_cast hle) (Int.natCast_nonneg _) (by omega),
      hmidY, hmidX]
    norm_cast
    exact ⟨fun h _ => h, fun h => h rfl⟩

end Numbers

/-! ## Results -/

namespace Request

variable (r : Request)

/-- **The copies of a call are exact exactly if the numbers fit.** -/
theorem copies_iff : ((r.copies.flatMap Copy.writes).Perm
    ((List.range (r.inSizeY * r.inSizeX)).map fun s => (r.target s, s))) ↔ r.FitsInt := by
  rw [FitsInt, ← right_iff_fits, ← southRows_iff]
  constructor
  · intro h
    have hrows : r.southRows = r.inMidY + r.oddY := by
      have hlength := h.length_eq
      rw [length_writes, List.length_map, List.length_range] at hlength
      have hsum := Nat.eq_of_mul_eq_mul_right r.posX hlength
      have hY : r.inSizeY = r.inMidY + r.oddY + r.inMidY := by
        unfold Call.inMidY Call.oddY
        omega
      omega
    exact ⟨hrows, (right_iff r hrows).1 ((perm_targets_iff (sources_copies _ hrows)).1 h)⟩
  · rintro ⟨hrows, hright⟩
    exact (perm_targets_iff (sources_copies _ hrows)).2 ((right_iff r hrows).2 hright)

/-- Between equal sizes it does not matter whether the image should be centred. -/
theorem settled_copies : r.settled.copies = r.copies := by
  rw [Call.settled]
  split
  next hsame =>
    obtain ⟨hsDy, hnDy, hwDx, heDx⟩ := shifts_of_same (c := r.toCall) (by rw [Call.diffY, hsame.1, Nat.sub_self])
      (by rw [Call.diffX, hsame.2, Nat.sub_self])
    obtain ⟨hsDy', hnDy', hwDx', heDx'⟩ := shifts_of_not_center (c := { r.toCall with center := false }) rfl
    have hnorth : ∀ y, Call.northCopies { r.toCall with center := false } y = r.northCopies y := fun y => by
      simp only [Call.northCopies, Call.southWestOut, Call.southEastOut, hsDy, hwDx, heDx, hsDy', hwDx', heDx']
      rfl
    have hsouth : ∀ y, Call.southCopies { r.toCall with center := false } y = r.southCopies y := fun y => by
      simp only [Call.southCopies, Call.northEastOut, Call.northWestOut, hnDy, hwDx, heDx, hnDy', hwDx', heDx']
      rfl
    rw [Call.copies, Call.copies, funext hnorth, funext hsouth]
    rfl
  next => rfl

/-- The call does not throw. -/
theorem reorderInto_eq : r.reorderInto = some r.copies := by
  have hout : r.outSized = r.toCall := if_neg fun h => by
    have := r.posY
    have := r.leY
    omega
  rw [Call.reorderInto, hout, if_neg (by have := r.leY; have := r.leX; omega), settled_copies]

/-- Where an element belongs is inside of the output. -/
theorem target_inside (s : ℕ) : 0 ≤ r.target s ∧ r.target s < r.outSizeY * r.outSizeX := by
  have hy := @place_lt r.inSizeY r.center r.outSizeY r.posY r.leY (s / r.inSizeX)
  have hx := @place_lt r.inSizeX r.center r.outSizeX r.posX r.leX (s % r.inSizeX)
  rw [target]
  norm_cast
  refine ⟨Nat.zero_le _, ?_⟩
  calc _ < place r.center r.inSizeY r.outSizeY (s / r.inSizeX) * r.outSizeX + r.outSizeX := Nat.add_lt_add_left hx _
    _ = (place r.center r.inSizeY r.outSizeY (s / r.inSizeX) + 1) * r.outSizeX := (Nat.succ_mul _ _).symm
    _ ≤ r.outSizeY * r.outSizeX := Nat.mul_le_mul_right _ hy

/-- **No two elements belong to the same place.** -/
theorem target_inj {s s' : ℕ} (hs : s < r.inSizeY * r.inSizeX) (hs' : s' < r.inSizeY * r.inSizeX)
    (h : r.target s = r.target s') : s = s' := by
  have hx := @place_lt r.inSizeX r.center r.outSizeX r.posX r.leX (s % r.inSizeX)
  have hx' := @place_lt r.inSizeX r.center r.outSizeX r.posX r.leX (s' % r.inSizeX)
  have hposOut : 0 < r.outSizeX := Nat.zero_lt_of_lt hx
  rw [target, target] at h
  norm_cast at h
  have hdiv := congrArg (· / r.outSizeX) h
  have hmod := congrArg (· % r.outSizeX) h
  simp only [Nat.add_comm (_ * r.outSizeX), Nat.add_mul_div_right _ _ hposOut, Nat.div_eq_of_lt hx,
    Nat.div_eq_of_lt hx', Nat.zero_add, Nat.add_mul_mod_self_right, Nat.mod_eq_of_lt hx, Nat.mod_eq_of_lt hx']
    at hdiv hmod
  have hrow := place_inj ((Nat.div_lt_iff_lt_mul r.posX).2 hs) ((Nat.div_lt_iff_lt_mul r.posX).2 hs') hdiv
  have hcol := place_inj (Nat.mod_lt _ r.posX) (Nat.mod_lt _ r.posX) hmod
  rw [← Nat.div_add_mod s r.inSizeX, ← Nat.div_add_mod s' r.inSizeX, hrow, hcol]

/-- **`reorderInto` is exact exactly if the numbers that it computes as `int` fit.** -/
theorem reorderInto_exact_iff : r.Exact ↔ r.FitsInt := by
  rw [Exact, reorderInto_eq, ← copies_iff]
  constructor
  · rintro ⟨copies, heq, hperm, -⟩
    obtain rfl := Option.some.inj heq
    exact hperm
  · intro hperm
    refine ⟨_, rfl, hperm, fun w hw => ?_⟩
    obtain ⟨s, -, rfl⟩ := List.mem_map.1 (hperm.mem_iff.1 hw)
    exact r.target_inside s

theorem wide_leY : 1 ≤ 65539 := by decide

theorem wide_leX : 1 ≤ 65536 := by decide

/-- One pixel, to be centred in an image that it takes more than `2 ^ 31` elements to get to the middle of. -/
def wide : Request where
  inSizeY := 1
  inSizeX := 1
  outSizeY := 65539
  outSizeX := 65536
  center := true
  posY := Nat.one_pos
  posX := Nat.one_pos
  leY := wide_leY
  leX := wide_leX

/-- The pixel is not written to the middle. -/
theorem wide_not_exact : ¬wide.Exact := by
  rintro ⟨copies, heq, hperm, -⟩
  obtain rfl := Option.some.inj (wide.reorderInto_eq.symm.trans heq)
  have hshift : 32769 * 65536 ≤ 2147483648 := ((wide.copies_iff.1 hperm).2 rfl).1
  omega

/-! ## The output -/

section Output

variable {α : Type*}

/-- The output after the copies from an image. -/
def output (copies : List Copy) (image : ℕ → α) (m : ℤ → α) : ℤ → α :=
  scatter ((copies.flatMap Copy.writes).map fun w => (w.1, image w.2)) m

variable {r : Request} {copies : List Copy} {image : ℕ → α} {m : ℤ → α}

variable (image) in
/-- What is written, with the elements instead of where they come from. -/
theorem written_perm (hfits : r.FitsInt) (h : r.reorderInto = some copies) :
    ((copies.flatMap Copy.writes).map fun w => (w.1, image w.2)).Perm
      ((List.range (r.inSizeY * r.inSizeX)).map fun s => (r.target s, image s)) := by
  obtain rfl := Option.some.inj (r.reorderInto_eq.symm.trans h)
  have hmap := (r.copies_iff.2 hfits).map fun w : ℤ × ℕ => (w.1, image w.2)
  rwa [List.map_map] at hmap

/-- **Every element is where it belongs.** -/
theorem output_target (hfits : r.FitsInt) (h : r.reorderInto = some copies) {s : ℕ} (hs : s < r.inSizeY * r.inSizeX) :
    output copies image m (r.target s) = image s := by
  have hperm := written_perm image hfits h
  refine scatter_of_mem ?_ (hperm.mem_iff.2 (List.mem_map_of_mem (List.mem_range.2 hs)))
  rw [(hperm.map Prod.fst).nodup_iff, List.map_map]
  refine List.Nodup.map_on (fun a ha b hb hab => ?_) List.nodup_range
  exact r.target_inj (List.mem_range.1 ha) (List.mem_range.1 hb) hab

/-- **Where nothing belongs the output stays what it was.** -/
theorem output_other (hfits : r.FitsInt) (h : r.reorderInto = some copies) {k : ℤ}
    (hk : ∀ s < r.inSizeY * r.inSizeX, r.target s ≠ k) : output copies image m k = m k := by
  refine scatter_of_not_mem fun hmem => ?_
  rw [((written_perm image hfits h).map Prod.fst).mem_iff, List.map_map] at hmem
  obtain ⟨s, hs, rfl⟩ := List.mem_map.1 hmem
  exact hk s (List.mem_range.1 hs) rfl

end Output

end Request

end Redux.Image.FourierTransform
