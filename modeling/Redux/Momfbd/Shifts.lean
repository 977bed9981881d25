import Mathlib.Algebra.Order.Floor.Ring
import Mathlib.Data.Rat.Floor
import Mathlib.Tactic.Ring
import Redux.Lib.IntType
import Redux.Lib.Rounding
import Redux.Util.ArrayLimits
import Redux.Util.Region

/-!
# Momfbd.Shifts — the view of a sub-image follows its tilts

A `SubImage` is a view of one image of the stack that was cut out for a patch.  `adjustShifts` rounds the
tilts to pixels and shifts the view as far as the cut-out allows; `currentShift` and `currentTiltOffset` keep
what has been granted.  All arithmetic is exact.
-/

namespace Redux.Momfbd.Shifts

open Redux.Lib Redux.Util.Arrays Redux.Util.Regions

/-! ## Model -/

/-- What the shifts read of a `ModeSet`. -/
structure ModeSet where
  tiltMode : PointType ℤ
  J_T_xy : Fin 2 → Fin 2 → ℚ
  J_xy_T : Fin 2 → Fin 2 → ℚ

def ModeSet.alphaToShift (modes : ModeSet) (alpha : PointType ℚ) : PointType ℚ :=
  ⟨alpha.x * modes.J_T_xy 1 0 + alpha.y * modes.J_T_xy 1 1, alpha.x * modes.J_T_xy 0 0 + alpha.y * modes.J_T_xy 0 1⟩

def ModeSet.shiftToAlpha (modes : ModeSet) (shift : PointType ℚ) : PointType ℚ :=
  ⟨shift.x * modes.J_xy_T 1 0 + shift.y * modes.J_xy_T 1 1, shift.x * modes.J_xy_T 0 0 + shift.y * modes.J_xy_T 0 1⟩

/-- A `SubImage`: its view of the stack, and the shift. -/
structure SubImage where
  view : Array
  currentShift : PointType ℤ
  currentTiltOffset : PointType ℚ

/-- A `PointD` made of a `PointI`. -/
def toPointD (p : PointType ℤ) : PointType ℚ := ⟨p.y, p.x⟩

/-- `setPatchInfo`, after the view was set. -/
def setPatchInfo (view : Array) : SubImage := ⟨view, 0, 0⟩

/-- `alphaToShift( thisAlpha ).round()` with the other sign, stored as a `PointI`. -/
def thisShift (modes : ModeSet) (thisAlpha : PointType ℚ) : PointType ℤ :=
  let shift := -(⟨lround (modes.alphaToShift thisAlpha).y, lround (modes.alphaToShift thisAlpha).x⟩ : PointType ℤ)
  ⟨IntType.int.wrap shift.y, IntType.int.wrap shift.x⟩

/-- `shift( dim, n )` of the view unless `n` is zero, with what it returns. -/
def shiftDim (view : Array) (dim : ℕ) (n : ℤ) : Array × ℤ :=
  if n ≠ 0 then (view.shift dim n, view.shifted dim n) else (view, 0)

/-- `adjustShifts` from `actualShift` on; the first dimension is the index in the stack. -/
def applyShift (modes : ModeSet) (thisShift : PointType ℤ) (s : SubImage) : SubImage × Bool :=
  let (view₁, actualX) := shiftDim s.view 2 thisShift.x
  let (view₂, actualY) := shiftDim view₁ 1 thisShift.y
  let actualShift : PointType ℤ := ⟨actualY, actualX⟩
  if actualShift ≠ 0 then
    (⟨view₂, s.currentShift + actualShift, s.currentTiltOffset + modes.shiftToAlpha (toPointD actualShift)⟩, true)
  else ({ s with view := view₂ }, false)

/-- `adjustShifts( alpha )`. -/
def adjustShifts (modes : ModeSet) (alpha : ℤ → ℚ) (s : SubImage) : SubImage × Bool :=
  let tm := modes.tiltMode
  let thisAlpha := (⟨alpha tm.y, alpha tm.x⟩ : PointType ℚ) + s.currentTiltOffset
  applyShift modes (thisShift modes thisAlpha) s

def resetShifts (s : SubImage) : SubImage :=
  ⟨(s.view.shift 2 (-s.currentShift.x)).shift 1 (-s.currentShift.y), 0, 0⟩

/-- A call. -/
inductive Call where
  | adjustShifts (alpha : ℤ → ℚ)
  | resetShifts

def step (modes : ModeSet) (s : SubImage) : Call → SubImage
  | .adjustShifts alpha => (adjustShifts modes alpha s).1
  | .resetShifts => resetShifts s

def run (modes : ModeSet) (view : Array) (calls : List Call) : SubImage :=
  calls.foldl (step modes) (setPatchInfo view)

/-- A dimension of a view that was moved. -/
def moved (d : Dim) (n : ℤ) : Dim := { d with first := d.first + n, last := d.last + n }

/-- The second view is the first one moved within its image. -/
def Displaced (ds ds' : List Dim) (shift : PointType ℤ) : Prop :=
  ∃ d₀ d₁ d₂, ds = [d₀, d₁, d₂] ∧ ds' = [d₀, moved d₁ shift.y, moved d₂ shift.x]

/-- What the tilts ask for in `adjustShifts( alpha )`. -/
def asked (modes : ModeSet) (alpha : ℤ → ℚ) (s : SubImage) : PointType ℤ :=
  thisShift modes (⟨alpha modes.tiltMode.y, alpha modes.tiltMode.x⟩ + s.currentTiltOffset)

/-- Along both axes the second sub-image is the first one shifted as far as there is room for what the tilts ask
for. -/
def Granted (modes : ModeSet) (alpha : ℤ → ℚ) (s s' : SubImage) : Prop :=
  ∃ d₀ d₁ d₂, s.view.dims = [d₀, d₁, d₂] ∧
    Array.Farthest d₁ (asked modes alpha s).y (s'.currentShift.y - s.currentShift.y) ∧
    Array.Farthest d₂ (asked modes alpha s).x (s'.currentShift.x - s.currentShift.x)

/-- What is to hold of a sub-image whose view was `view` at first. -/
structure Tracks (modes : ModeSet) (view : Array) (s : SubImage) : Prop where
  good : s.view.Good
  displaced : Displaced view.dims s.view.dims s.currentShift
  tilt : s.currentTiltOffset = modes.shiftToAlpha (toPointD s.currentShift)

section Results

variable {modes : ModeSet} {view a b : Array} {s : SubImage} {d d₀ d₁ d₂ : Dim} {n m : ℤ} {dim : ℕ}

/-! ## Views -/

/-- A view is determined by its dimensions. -/
theorem good_ext (ha : a.Good) (hb : b.Good) (hdims : a.dims = b.dims) : a = b := by
  have hsize : a.dataSize = b.dataSize := by rw [ha.dataSize_eq, hb.dataSize_eq, hdims]
  have hcount : a.nElements_ = b.nElements_ := by rw [ha.count_eq, hb.count_eq, hdims]
  have hbegin : a.begin_ = b.begin_ := by rw [ha.begin_eq, hb.begin_eq, hdims]
  have hend : a.end_ = b.end_ := by rw [ha.end_eq, hb.end_eq, hdims]
  have hdense : a.dense_ = b.dense_ := by rw [ha.dense_eq, hb.dense_eq, hbegin, hcount, hend]
  cases a
  cases b
  simp only at hdims hsize hcount hdense hbegin hend
  subst hdims hsize hcount hdense hbegin hend
  rfl

theorem moved_zero (d : Dim) : moved d 0 = d := by
  rw [moved, Int.add_zero, Int.add_zero]

theorem moved_moved (d : Dim) (m n : ℤ) : moved (moved d m) n = moved d (m + n) := by
  rw [moved, moved, moved, Int.add_assoc, Int.add_assoc]

/-- **The view is moved by what `shift` returns.** -/
theorem shift_dims (h : a.Good) (hd : a.dims[dim]? = some d) :
    (a.shift dim n).dims = a.dims.set dim (moved d (a.shifted dim n)) ∧ Array.Farthest d n (a.shifted dim n) := by
  have hshifts := h.shifts dim n
  rw [Array.Shifts, hd] at hshifts
  exact ⟨hshifts.2, hshifts.1⟩

/-- Where there is room, the whole shift is granted. -/
theorem eq_of_room (h : Array.Farthest d n m) (hroom : Array.Room d n) : m = n := by
  have hlargest := h.largest n (by unfold Array.Within; omega) hroom
  have hwithin := h.within
  unfold Array.Within at hwithin
  omega

theorem shiftDim_eq (view : Array) (dim : ℕ) (n : ℤ) :
    shiftDim view dim n = (view.shift dim n, view.shifted dim n) := by
  rw [shiftDim]
  split_ifs with hn
  · rfl
  · have hzero := not_not.1 hn
    rw [Array.shift, Array.shifted, if_pos hzero, if_pos hzero]

/-- Both axes of a view of one image of a stack. -/
theorem shift_shift_dims (h : a.Good) (hdims : a.dims = [d₀, d₁, d₂]) (x y : ℤ) :
    ((a.shift 2 x).shift 1 y).dims =
        [d₀, moved d₁ ((a.shift 2 x).shifted 1 y), moved d₂ (a.shifted 2 x)] ∧
      Array.Farthest d₁ y ((a.shift 2 x).shifted 1 y) ∧ Array.Farthest d₂ x (a.shifted 2 x) := by
  obtain ⟨hx, hxfar⟩ := @shift_dims a d₂ x 2 h (by rw [hdims]; rfl)
  have hfirst : (a.shift 2 x).dims = [d₀, d₁, moved d₂ (a.shifted 2 x)] := by
    rw [hx, hdims]
    rfl
  obtain ⟨hy, hyfar⟩ := @shift_dims (a.shift 2 x) d₁ y 1 (h.shift 2 x) (by rw [hfirst]; rfl)
  refine ⟨?_, hyfar, hxfar⟩
  rw [hy, hfirst]
  rfl

/-! ## Calls -/

theorem ModeSet.shiftToAlpha_add (p q : PointType ℚ) :
    modes.shiftToAlpha (p + q) = modes.shiftToAlpha p + modes.shiftToAlpha q := by
  refine congrArg₂ PointType.mk ?_ ?_
  · show (p.x + q.x) * _ + (p.y + q.y) * _ = (p.x * _ + p.y * _) + (q.x * _ + q.y * _)
    ring
  · show (p.x + q.x) * _ + (p.y + q.y) * _ = (p.x * _ + p.y * _) + (q.x * _ + q.y * _)
    ring

theorem ModeSet.shiftToAlpha_zero : modes.shiftToAlpha (toPointD 0) = 0 := by
  have hzero : toPointD 0 = 0 := congrArg₂ PointType.mk Int.cast_zero Int.cast_zero
  rw [hzero]
  refine congrArg₂ PointType.mk ?_ ?_
  · show (0 : ℚ) * _ + 0 * _ = 0
    ring
  · show (0 : ℚ) * _ + 0 * _ = 0
    ring

theorem toPointD_add (p q : PointType ℤ) : toPointD (p + q) = toPointD p + toPointD q :=
  congrArg₂ PointType.mk (Int.cast_add _ _) (Int.cast_add _ _)

theorem Tracks.begin (h : view.Good) (hdims : view.dims = [d₀, d₁, d₂]) : Tracks modes view (setPatchInfo view) where
  good := h
  displaced := by
    refine ⟨d₀, d₁, d₂, hdims, ?_⟩
    show view.dims = [d₀, moved d₁ 0, moved d₂ 0]
    rw [moved_zero, moved_zero, hdims]
  tilt := ModeSet.shiftToAlpha_zero.symm

/-- **What is kept is what was granted, whatever was asked for**, and the view has not been moved unless it is
said to be. -/
theorem Tracks.applyShift (h : Tracks modes view s) (asked : PointType ℤ) :
    Tracks modes view (applyShift modes asked s).1 ∧
      ((applyShift modes asked s).2 = false → (applyShift modes asked s).1 = s) := by
  obtain ⟨hgood, ⟨d₀, d₁, d₂, hdims, hdims'⟩, htilt⟩ := h
  rw [Shifts.applyShift, shiftDim_eq]
  dsimp only
  rw [shiftDim_eq]
  dsimp only
  obtain ⟨hshift, -, -⟩ := shift_shift_dims hgood hdims' asked.x asked.y
  have hgood' := (hgood.shift 2 asked.x).shift 1 asked.y
  split_ifs with hactual
  · refine ⟨⟨hgood', ⟨d₀, d₁, d₂, hdims, ?_⟩, ?_⟩, nofun⟩
    · rw [hshift, moved_moved, moved_moved]
      rfl
    · rw [toPointD_add, ModeSet.shiftToAlpha_add, htilt]
  · have hsame : (s.view.shift 2 asked.x).shift 1 asked.y = s.view := by
      have hy : (s.view.shift 2 asked.x).shifted 1 asked.y = 0 := congrArg PointType.y (not_not.1 hactual)
      have hx : s.view.shifted 2 asked.x = 0 := congrArg PointType.x (not_not.1 hactual)
      refine good_ext hgood' hgood ?_
      rw [hshift, hdims', hx, hy, moved_zero, moved_zero]
    rw [hsame]
    exact ⟨⟨hgood, ⟨d₀, d₁, d₂, hdims, hdims'⟩, htilt⟩, fun _ => rfl⟩

theorem Tracks.adjustShifts (h : Tracks modes view s) (alpha : ℤ → ℚ) :
    Tracks modes view (adjustShifts modes alpha s).1 ∧
      ((adjustShifts modes alpha s).2 = false → (adjustShifts modes alpha s).1 = s) :=
  h.applyShift _

/-- **What is granted is the most of what is asked for that there is room for.** -/
theorem Tracks.granted (h : Tracks modes view s) (alpha : ℤ → ℚ) :
    Granted modes alpha s (Shifts.adjustShifts modes alpha s).1 := by
  obtain ⟨hgood, ⟨_, _, _, -, hdims⟩, -⟩ := h
  obtain ⟨-, hyfar, hxfar⟩ := shift_shift_dims hgood hdims (asked modes alpha s).x (asked modes alpha s).y
  have happly : Shifts.adjustShifts modes alpha s = Shifts.applyShift modes (asked modes alpha s) s := rfl
  refine ⟨_, _, _, hdims, ?_, ?_⟩
  all_goals
    rw [happly, Shifts.applyShift, shiftDim_eq]
    dsimp only
    rw [shiftDim_eq]
    dsimp only
    split_ifs with hactual
  · rw [show (s.currentShift + (⟨_, _⟩ : PointType ℤ)).y - s.currentShift.y = _ from add_sub_cancel_left _ _]
    exact hyfar
  · rw [sub_self, ← show _ = (0 : ℤ) from congrArg PointType.y (not_not.1 hactual)]
    exact hyfar
  · rw [show (s.currentShift + (⟨_, _⟩ : PointType ℤ)).x - s.currentShift.x = _ from add_sub_cancel_left _ _]
    exact hxfar
  · rw [sub_self, ← show _ = (0 : ℤ) from congrArg PointType.x (not_not.1 hactual)]
    exact hxfar

/-- **`resetShifts` takes the view back.** -/
theorem Tracks.resetShifts (h : Tracks modes view s) (hview : view.Good) :
    resetShifts s = setPatchInfo view := by
  obtain ⟨hgood, ⟨d₀, d₁, d₂, hdims, hdims'⟩, -⟩ := h
  obtain ⟨hshift, hyfar, hxfar⟩ := shift_shift_dims hgood hdims' (-s.currentShift.x) (-s.currentShift.y)
  have hok := hview.dim_ok
  rw [hdims] at hok
  have hroom : ∀ d ∈ [d₀, d₁, d₂], ∀ n, Array.Room (moved d n) (-n) := by
    intro d hd n
    have hfirst := (hok d hd).first_nonneg
    have hlast := (hok d hd).last_lt
    unfold Array.Room moved
    dsimp only
    omega
  have hy := eq_of_room hyfar (hroom d₁ (by simp) _)
  have hx := eq_of_room hxfar (hroom d₂ (by simp) _)
  rw [hx, hy, moved_moved, moved_moved, add_neg_cancel, add_neg_cancel, moved_zero, moved_zero, ← hdims] at hshift
  rw [Shifts.resetShifts, good_ext ((hgood.shift 2 _).shift 1 _) hview hshift]
  rfl

theorem Tracks.step (h : Tracks modes view s) (hview : view.Good) (call : Call) :
    Tracks modes view (step modes s call) := by
  cases call with
  | adjustShifts alpha => exact (h.adjustShifts alpha).1
  | resetShifts =>
    obtain ⟨d₀, d₁, d₂, hdims, -⟩ := h.displaced
    rw [Shifts.step, h.resetShifts hview]
    exact .begin hview hdims

theorem Tracks.run (hview : view.Good) (hdims : view.dims = [d₀, d₁, d₂]) (calls : List Call) :
    Tracks modes view (run modes view calls) := by
  have hgen : ∀ (calls : List Call) (s : SubImage), Tracks modes view s →
      Tracks modes view (calls.foldl (Shifts.step modes) s) := by
    intro calls
    induction calls with
    | nil => exact fun s h => h
    | cons call calls ih => exact fun s h => ih _ (h.step hview call)
  exact hgen calls _ (.begin hview hdims)

/-! ## The view that `initPatch` wraps -/

theorem length_setSizes : ∀ sizes : List ℕ, (setSizes sizes []).length = sizes.length
  | [] => rfl
  | _ :: sizes => congrArg (· + 1) (length_setSizes sizes)

/-- The dimensions of a new array are its sizes other than zero. -/
theorem construct_dims (sizes : List ℕ) : (Array.construct sizes).dims = setSizes (sizes.filter (· ≠ 0)) [] := by
  rw [Array.construct, Array.resize]
  dsimp only [List.map_nil]
  split_ifs with hnil
  · exact hnil.symm
  · rfl

/-- **A view of one image of a stack** has the three dimensions of the stack, and its block. -/
theorem wrapped {nImages sizeY sizeX : ℕ} (hfits : ([nImages, sizeY, sizeX].filter (· ≠ 0)).prod < 2 ^ 63)
    {limits : List ℤ} (hlimits : limits.length = 6)
    (hwrap : (Array.construct [nImages, sizeY, sizeX]).setLimitsOf limits = some view) :
    view.Good ∧ (∃ d₀ d₁ d₂, view.dims = [d₀, d₁, d₂]) ∧ extent view.dims = nImages * sizeY * sizeX := by
  have hlen : (Array.construct [nImages, sizeY, sizeX]).dims.length = 3 := by
    have hle := List.length_filter_le (· ≠ 0) [nImages, sizeY, sizeX]
    rw [← length_setSizes, ← construct_dims] at hle
    rw [Array.setLimitsOf, hlimits] at hwrap
    split_ifs at hwrap with hsizes hpairs
    · simp only [List.length_cons, List.length_nil] at hle
      omega
    · omega
  have hall : [nImages, sizeY, sizeX].filter (· ≠ 0) = [nImages, sizeY, sizeX] := by
    rw [construct_dims, length_setSizes] at hlen
    exact List.filter_sublist.eq_of_length hlen
  have hgood := (Array.construct_good hfits).resolve_right fun hblank => by
    rw [hblank] at hlen
    exact absurd hlen (by decide)
  have hview := hgood.setLimitsOf hwrap
  obtain ⟨hfirst, hlast, hdims⟩ := Array.setLimits_eq (Array.setLimitsOf_eq hwrap)
  set first := ((Array.construct [nImages, sizeY, sizeX]).limitsOf limits).1
  set last := ((Array.construct [nImages, sizeY, sizeX]).limitsOf limits).2
  have hzip : (first.zip last).length = 3 := by rw [List.length_zip, hfirst, hlast, hlen, Nat.min_self]
  obtain ⟨l₀, l₁, l₂, hl⟩ := List.length_eq_three.1 hzip
  rw [hl, construct_dims, hall] at hdims
  refine ⟨hview, ⟨_, _, _, hdims⟩, ?_⟩
  rw [hdims]
  show nImages * (sizeY * (sizeX * 1)) = _
  ring

end Results

/-! ## Every history -/

/-- **Whatever the calls, `currentShift` is how far the view has been moved from where `initPatch` put it,
`currentTiltOffset` is what that amounts to in tilts, the view is inside the cut-out, the next call shifts it as
far as there is room for what its tilts ask for, and `resetShifts` takes it back to where it was.** -/
theorem shifts_tracked (modes : ModeSet) (nImages sizeY sizeX : ℕ)
    (hfits : ([nImages, sizeY, sizeX].filter (· ≠ 0)).prod < 2 ^ 63) (i y₀ y₁ x₀ x₁ : ℤ) (view : Array)
    (hwrap : (Array.construct [nImages, sizeY, sizeX]).setLimitsOf [i, i, y₀, y₁, x₀, x₁] = some view)
    (calls : List Call) :
    Displaced view.dims (run modes view calls).view.dims (run modes view calls).currentShift ∧
      (run modes view calls).currentTiltOffset = modes.shiftToAlpha (toPointD (run modes view calls).currentShift) ∧
      (run modes view calls).view.WellFormed ∧
      (∀ p ∈ (run modes view calls).view.elements, 0 ≤ p ∧ p < nImages * sizeY * sizeX) ∧
      (∀ alpha, Granted modes alpha (run modes view calls) (run modes view (calls ++ [.adjustShifts alpha]))) ∧
      resetShifts (run modes view calls) = setPatchInfo view := by
  obtain ⟨hview, ⟨d₀, d₁, d₂, hdims⟩, hextent⟩ := wrapped hfits rfl hwrap
  have h : Tracks modes view (run modes view calls) := .run hview hdims calls
  have hgranted : ∀ alpha,
      Granted modes alpha (run modes view calls) (run modes view (calls ++ [.adjustShifts alpha])) := by
    intro alpha
    rw [show run modes view (calls ++ [.adjustShifts alpha]) = _ from List.foldl_append]
    exact h.granted alpha
  refine ⟨h.displaced, h.tilt, h.good.wellFormed, fun p hp => ?_, hgranted, h.resetShifts hview⟩
  rw [h.good.elements_eq] at hp
  obtain ⟨e₀, e₁, e₂, he, he'⟩ := h.displaced
  have hsame : extent (run modes view calls).view.dims = extent view.dims := by rw [he, he']; rfl
  have hbound := h.good.valid.offset_lt hp
  rw [hsame, hextent] at hbound
  exact_mod_cast hbound

/-- Modes that shift by one pixel for each unit. -/
def unitModes : ModeSet := ⟨⟨0, 1⟩, fun i j => if i = j then 1 else 0, fun i j => if i = j then 1 else 0⟩

/-- A patch of four by four pixels in the middle of a cut-out of eight by eight: the tilts ask for ten pixels in
one direction, where there is room for two. -/
theorem shifts_tracked_edge : ∃ view, (Array.construct [1, 8, 8]).setLimitsOf [0, 0, 2, 5, 2, 5] = some view ∧
    Displaced view.dims (run unitModes view [.adjustShifts fun m => if m = 0 then 10 else 1]).view.dims
      (run unitModes view [.adjustShifts fun m => if m = 0 then 10 else 1]).currentShift ∧
    resetShifts (run unitModes view [.adjustShifts fun m => if m = 0 then 10 else 1]) = setPatchInfo view := by
  have h := fun view hwrap => shifts_tracked unitModes 1 8 8 (by decide) 0 2 5 2 5 view hwrap
    [.adjustShifts fun m => if m = 0 then 10 else 1]
  exact ⟨_, rfl, (h _ rfl).1, (h _ rfl).2.2.2.2.2⟩

end Redux.Momfbd.Shifts
