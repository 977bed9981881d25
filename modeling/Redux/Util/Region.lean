import Mathlib.Algebra.Order.Group.Unbundled.Abs
import Mathlib.Algebra.Order.Ring.Int
import Mathlib.Order.MinMax

/-!
# Util.Region — rectangles

`PointType<T>` and `RegionType<T>`: two corners that belong to the rectangle.  `intersection` looks only at
whether the corners of one rectangle are inside the other, which finds the common points when the lower
corners can be compared, and the upper corners (`intersection_iff`).  `restrict` of a point calls `min` and
`max` of the point for what they return and drops it, so that it restricts nothing (`restrict_iff`).
-/

namespace Redux.Util.Regions

/-! ## Model -/

structure PointType (T : Type*) where
  y : T
  x : T
  deriving DecidableEq

structure RegionType (T : Type*) where
  first : PointType T
  last : PointType T
  deriving DecidableEq

section Model

variable {T U : Type*} [LinearOrder T] [LinearOrder U]

namespace PointType

/-- `max( rhs )`, a copy. -/
def max (p rhs : PointType T) : PointType T := ⟨Max.max p.y rhs.y, Max.max p.x rhs.x⟩

def min (p rhs : PointType T) : PointType T := ⟨Min.min p.y rhs.y, Min.min p.x rhs.x⟩

instance [Sub T] : Sub (PointType T) := ⟨fun p rhs => ⟨p.y - rhs.y, p.x - rhs.x⟩⟩

instance [Add T] : Add (PointType T) := ⟨fun p rhs => ⟨p.y + rhs.y, p.x + rhs.x⟩⟩

instance [Neg T] : Neg (PointType T) := ⟨fun p => ⟨-p.y, -p.x⟩⟩

instance [Zero T] : Zero (PointType T) := ⟨⟨0, 0⟩⟩

/-- The conversion to points of another type. -/
def map (conv : T → U) (p : PointType T) : PointType U := ⟨conv p.y, conv p.x⟩

end PointType

namespace RegionType

variable (r : RegionType T) (conv : T → U)

def normalize : RegionType T :=
  let y := if r.first.y > r.last.y then (r.last.y, r.first.y) else (r.first.y, r.last.y)
  let x := if r.first.x > r.last.x then (r.last.x, r.first.x) else (r.first.x, r.last.x)
  ⟨⟨y.1, x.1⟩, ⟨y.2, x.2⟩⟩

def isNormal : Bool := !(r.first.x > r.last.x || r.first.y > r.last.y)

/-- `isInside( rhs )`, where `conv` is the conversion of the corners to the type of the point. -/
def isInside (rhs : PointType U) : Bool :=
  if rhs.x > conv r.last.x || rhs.x < conv r.first.x || rhs.y > conv r.last.y || rhs.y < conv r.first.y then false
  else true

/-- `intersection( rhs )`; the region of zeros if no corner is inside. -/
def intersection [Zero T] (rhs : RegionType T) : RegionType T :=
  let tmp := r.normalize
  let rhs := rhs.normalize
  if tmp.isInside id rhs.first then
    if tmp.isInside id rhs.last then rhs else { tmp with first := rhs.first }
  else if rhs.isInside id tmp.first then
    if rhs.isInside id tmp.last then tmp else { tmp with last := rhs.last }
  else ⟨⟨0, 0⟩, ⟨0, 0⟩⟩

/-- `diff( rhs )`, with the region, which it normalizes unless the point is inside. -/
def diff [Zero U] [Sub U] (rhs : PointType U) : RegionType T × PointType U :=
  if r.isInside conv rhs then (r, ⟨0, 0⟩)
  else
    let r := r.normalize
    let x := if rhs.x < conv r.first.x then rhs.x - conv r.first.x
      else if rhs.x > conv r.last.x then rhs.x - conv r.last.x else 0
    let y := if rhs.y < conv r.first.y then rhs.y - conv r.first.y
      else if rhs.y > conv r.last.y then rhs.y - conv r.last.y else 0
    (r, ⟨y, x⟩)

/-- `restrict( rhs )` of a point: `ret.min(last)` and `ret.max(first)` leave `ret` as it is. -/
def restrict (rhs : PointType U) : PointType U :=
  if r.isInside conv rhs then rhs
  else
    let ret := rhs
    let _ := ret.min (r.last.map conv)
    let _ := ret.max (r.first.map conv)
    ret

end RegionType

end Model

/-! ## Corners -/

section Corners

variable {T U : Type*} [LinearOrder T] [LinearOrder U] {p q : PointType T} {r a b : RegionType T}

namespace PointType

/-- Below in both coordinates, or level. -/
def Below (p q : PointType T) : Prop := p.y ≤ q.y ∧ p.x ≤ q.x

/-- Two points one of which is below the other. -/
def Comparable (p q : PointType T) : Prop := p.Below q ∨ q.Below p

theorem Below.trans {s : PointType T} (h : p.Below q) (h' : q.Below s) : p.Below s :=
  ⟨h.1.trans h'.1, h.2.trans h'.2⟩

theorem comparable_comm : p.Comparable q ↔ q.Comparable p := or_comm

theorem max_swap (p q : PointType T) : p.max q = q.max p := by
  simp only [max, max_comm]

theorem min_swap (p q : PointType T) : p.min q = q.min p := by
  simp only [min, min_comm]

theorem max_eq_right_iff : p.max q = q ↔ p.Below q := by
  cases p
  cases q
  simp [max, Below]

theorem min_eq_left_iff : p.min q = p ↔ p.Below q := by
  cases p
  cases q
  simp [min, Below]

theorem max_below {s : PointType T} : (p.max q).Below s ↔ p.Below s ∧ q.Below s := by
  simp only [Below, max, max_le_iff]
  exact and_and_and_comm

theorem below_min {s : PointType T} : s.Below (p.min q) ↔ s.Below p ∧ s.Below q := by
  simp only [Below, min, le_min_iff]
  exact and_and_and_comm

end PointType

namespace RegionType

theorem normalize_normal (r : RegionType T) : r.normalize.first.Below r.normalize.last := by
  unfold normalize PointType.Below
  dsimp only
  constructor
  · split_ifs with h
    · exact h.le
    · exact not_lt.1 h
  · split_ifs with h
    · exact h.le
    · exact not_lt.1 h

theorem isNormal_iff : r.isNormal = true ↔ r.first.Below r.last := by
  simp [isNormal, PointType.Below, and_comm]

theorem isInside_iff {V : Type*} {r : RegionType V} {conv : V → U} {p : PointType U} :
    r.isInside conv p = true ↔ (r.first.map conv).Below p ∧ p.Below (r.last.map conv) := by
  simp only [isInside, PointType.Below, PointType.map]
  split_ifs with h
  · simp only [Bool.or_eq_true, decide_eq_true_iff] at h
    refine iff_of_false id ?_
    rintro ⟨⟨h₁, h₂⟩, h₃, h₄⟩
    rcases h with ((h | h) | h) | h
    · exact absurd h₄ (not_le.2 h)
    · exact absurd h₂ (not_le.2 h)
    · exact absurd h₃ (not_le.2 h)
    · exact absurd h₁ (not_le.2 h)
  · simp only [Bool.or_eq_true, decide_eq_true_iff, not_or, gt_iff_lt, not_lt] at h
    exact iff_of_true rfl ⟨⟨h.2, h.1.1.2⟩, h.1.2, h.1.1.1⟩

theorem isInside_id : r.isInside id p = true ↔ r.first.Below p ∧ p.Below r.last := isInside_iff

end RegionType

end Corners

/-! ## Intersections -/

section Intersections

variable {T : Type*} [LinearOrder T] {a b : RegionType T}

namespace RegionType

/-- A point is inside both, in whatever order their corners are. -/
def Meets (a b : RegionType T) : Prop := ∃ p, a.normalize.isInside id p = true ∧ b.normalize.isInside id p = true

/-- A normal region of the points inside both. -/
structure Common (a b r : RegionType T) : Prop where
  normal : r.isNormal = true
  inside : ∀ p, r.isInside id p = true ↔ a.normalize.isInside id p = true ∧ b.normalize.isInside id p = true

/-- What the intersection should be. -/
def Intersects [Zero T] (a b : RegionType T) : Prop :=
  (Meets a b → Common a b (a.intersection b)) ∧ a.intersection b = b.intersection a

/-- The region between the higher one of the lower corners and the lower one of the upper corners. -/
def common (a b : RegionType T) : RegionType T :=
  ⟨a.normalize.first.max b.normalize.first, a.normalize.last.min b.normalize.last⟩

theorem common_comm (a b : RegionType T) : common a b = common b a := by
  simp only [common, PointType.max_swap, PointType.min_swap]

/-- The corners can be compared, or the origin is the only common point. -/
def Aligned [Zero T] (a b : RegionType T) : Prop :=
  (a.normalize.first.Comparable b.normalize.first ∧ a.normalize.last.Comparable b.normalize.last) ∨
    (¬ a.normalize.first.Comparable b.normalize.first ∧ common a b = ⟨⟨0, 0⟩, ⟨0, 0⟩⟩)

theorem aligned_comm [Zero T] : Aligned a b ↔ Aligned b a := by
  unfold Aligned
  rw [common_comm a b, PointType.comparable_comm, PointType.comparable_comm (p := a.normalize.last)]

theorem inside_common {p : PointType T} : (common a b).isInside id p = true ↔
    a.normalize.isInside id p = true ∧ b.normalize.isInside id p = true := by
  rw [isInside_id, isInside_id, isInside_id, common, PointType.max_below, PointType.below_min]
  exact and_and_and_comm

theorem meets_iff : Meets a b ↔ (common a b).first.Below (common a b).last := by
  constructor
  · rintro ⟨p, hp⟩
    have h := isInside_id.1 (inside_common.2 hp)
    exact h.1.trans h.2
  · exact fun h => ⟨(common a b).first, inside_common.1 (isInside_id.2 ⟨⟨le_rfl, le_rfl⟩, h⟩)⟩

/-- **The points inside both are those of one normal region only.** -/
theorem common_iff (h : Meets a b) {r : RegionType T} : Common a b r ↔ r = common a b := by
  have hnormal := meets_iff.1 h
  constructor
  · rintro ⟨hr, hinside⟩
    have hsame : ∀ p, (r.first.Below p ∧ p.Below r.last) ↔
        ((common a b).first.Below p ∧ p.Below (common a b).last) := by
      intro p
      rw [← isInside_id, ← isInside_id, hinside, inside_common]
    have hr := isNormal_iff.1 hr
    have h₁ := (hsame r.first).1 ⟨⟨le_rfl, le_rfl⟩, hr⟩
    have h₂ := (hsame r.last).1 ⟨hr, ⟨le_rfl, le_rfl⟩⟩
    have h₃ := (hsame (common a b).first).2 ⟨⟨le_rfl, le_rfl⟩, hnormal⟩
    have h₄ := (hsame (common a b).last).2 ⟨hnormal, ⟨le_rfl, le_rfl⟩⟩
    obtain ⟨⟨fy, fx⟩, ⟨ly, lx⟩⟩ := r
    generalize common a b = c at *
    obtain ⟨⟨cy, cx⟩, ⟨dy, dx⟩⟩ := c
    simp only [PointType.Below] at h₁ h₂ h₃ h₄
    rw [le_antisymm h₃.1.1 h₁.1.1, le_antisymm h₃.1.2 h₁.1.2, le_antisymm h₂.2.1 h₄.2.1, le_antisymm h₂.2.2 h₄.2.2]
  · rintro rfl
    exact ⟨isNormal_iff.2 hnormal, fun p => inside_common⟩

/-- The corner of one region is inside the other if it is the higher one of the lower corners. -/
theorem inside_of_meets (h : Meets a b) :
    (a.normalize.isInside id b.normalize.first = true ↔ a.normalize.first.Below b.normalize.first) ∧
      (a.normalize.first.Below b.normalize.first →
        (a.normalize.isInside id b.normalize.last = true ↔ b.normalize.last.Below a.normalize.last)) := by
  have hnormal := meets_iff.1 h
  simp only [common, PointType.max_below, PointType.below_min] at hnormal
  rw [isInside_id, isInside_id]
  exact ⟨⟨fun h => h.1, fun h => ⟨h, hnormal.1.2⟩⟩,
    fun hfirst => ⟨fun h => h.2, fun h => ⟨hfirst.trans b.normalize_normal, h⟩⟩⟩

theorem meets_comm : Meets a b ↔ Meets b a := exists_congr fun _ => and_comm

variable [Zero T]

/-- The lower corner of the first region is below the one of the second. -/
theorem intersection_below (h : Meets a b) (hfirst : a.normalize.first.Below b.normalize.first) :
    a.intersection b = common a b ↔ a.normalize.last.Comparable b.normalize.last := by
  obtain ⟨hinside, hlast⟩ := inside_of_meets h
  have hlast := hlast hfirst
  unfold intersection
  dsimp only
  rw [if_pos (hinside.2 hfirst), common, PointType.max_eq_right_iff.2 hfirst]
  split_ifs with hl
  · have hbelow := hlast.1 hl
    rw [PointType.min_swap, PointType.min_eq_left_iff.2 hbelow]
    exact iff_of_true rfl (.inr hbelow)
  · rw [RegionType.mk.injEq, eq_comm, and_iff_right rfl, eq_comm, PointType.min_eq_left_iff]
    exact ⟨.inl, fun h => h.resolve_right fun hbelow => hl (hlast.2 hbelow)⟩

/-- The other way round the same is done. -/
theorem intersection_swap (h : Meets a b) (hfirst : ¬ a.normalize.first.Below b.normalize.first)
    (hfirst' : b.normalize.first.Below a.normalize.first) : a.intersection b = b.intersection a := by
  have hinside := (inside_of_meets h).1
  have hinside' := (inside_of_meets (meets_comm.1 h)).1
  unfold intersection
  dsimp only
  rw [if_neg fun hin => hfirst (hinside.1 hin), if_pos (hinside'.2 hfirst'), if_pos (hinside'.2 hfirst')]

/-- No corner is inside. -/
theorem intersection_apart (hinside : ¬ a.normalize.isInside id b.normalize.first = true)
    (hinside' : ¬ b.normalize.isInside id a.normalize.first = true) : a.intersection b = ⟨⟨0, 0⟩, ⟨0, 0⟩⟩ := by
  unfold intersection
  dsimp only
  rw [if_neg hinside, if_neg hinside']

theorem intersection_of_meets (h : Meets a b) : a.intersection b = common a b ↔ Aligned a b := by
  by_cases hfirst : a.normalize.first.Below b.normalize.first
  · rw [intersection_below h hfirst, Aligned, or_iff_left fun hapart => hapart.1 (.inl hfirst)]
    exact (and_iff_right (.inl hfirst)).symm
  by_cases hfirst' : b.normalize.first.Below a.normalize.first
  · rw [intersection_swap h hfirst hfirst', common_comm, intersection_below (meets_comm.1 h) hfirst',
      Aligned, or_iff_left fun hapart => hapart.1 (.inr hfirst'), PointType.comparable_comm]
    exact (and_iff_right (.inr hfirst')).symm
  · have hapart : ¬ a.normalize.first.Comparable b.normalize.first := fun h => h.elim hfirst hfirst'
    rw [intersection_apart (fun hin => hfirst ((inside_of_meets h).1.1 hin))
      fun hin => hfirst' ((inside_of_meets (meets_comm.1 h)).1.1 hin), Aligned,
      or_iff_right fun haligned => hapart haligned.1, and_iff_right hapart, eq_comm]

/-- Regions that do not meet have the region of zeros as their intersection. -/
theorem intersection_of_not_meets (h : ¬ Meets a b) : a.intersection b = ⟨⟨0, 0⟩, ⟨0, 0⟩⟩ := by
  refine intersection_apart (fun hin => h ⟨_, hin, ?_⟩) fun hin => h ⟨_, ?_, hin⟩
  · exact isInside_id.2 ⟨⟨le_rfl, le_rfl⟩, b.normalize_normal⟩
  · exact isInside_id.2 ⟨⟨le_rfl, le_rfl⟩, a.normalize_normal⟩

/-- **The intersection is the region of the common points, whichever operand comes first, exactly if the regions
do not meet or their corners can be compared** (or the origin, which stands for no intersection, happens to be
all they have in common). -/
theorem intersection_iff (a b : RegionType T) : Intersects a b ↔ (Meets a b → Aligned a b) := by
  by_cases h : Meets a b
  · have hcommon : Intersects a b ↔ a.intersection b = common a b ∧ a.intersection b = b.intersection a := by
      rw [Intersects, common_iff h, forall_prop_of_true h]
    rw [hcommon, intersection_of_meets h, forall_prop_of_true h]
    refine and_iff_left_of_imp fun haligned => ?_
    rw [(intersection_of_meets h).2 haligned,
      (intersection_of_meets (meets_comm.1 h)).2 (aligned_comm.1 haligned), common_comm]
  · refine iff_of_true ⟨fun hmeets => absurd hmeets h, ?_⟩ fun hmeets => absurd hmeets h
    rw [intersection_of_not_meets h, intersection_of_not_meets fun hmeets => h (meets_comm.1 hmeets)]

/-- Two bars that cross, of which no corner is inside the other one. -/
theorem cross_not_found : ¬ ∀ a b : RegionType ℤ, Intersects a b := by
  intro h
  have hmeets : Meets (⟨⟨1, 2⟩, ⟨3, 2⟩⟩ : RegionType ℤ) ⟨⟨2, 1⟩, ⟨2, 3⟩⟩ := ⟨⟨2, 2⟩, by decide⟩
  exact absurd ((common_iff hmeets).1 ((h _ _).1 hmeets)) (by decide)

end RegionType

end Intersections

/-! ## Restrictions -/

section Restrictions

variable {T U : Type*} [LinearOrder T] [LinearOrder U] [AddCommGroup U]

namespace RegionType

/-- The nearest point inside the region, in each coordinate. -/
def Nearest (r : RegionType T) (conv : T → U) (p q : PointType U) : Prop :=
  r.isInside conv q = true ∧
    ∀ s, r.isInside conv s = true → |p.y - q.y| ≤ |p.y - s.y| ∧ |p.x - q.x| ≤ |p.x - s.x|

/-- What `restrict` and `diff` should be. -/
def Restricts (r : RegionType T) (conv : T → U) (p : PointType U) : Prop :=
  Nearest r conv p (r.restrict conv p) ∧ (r.isInside conv p = true → r.restrict conv p = p) ∧
    p - r.restrict conv p = (r.diff conv p).2

/-- **A point is restricted to the region only if it is inside anyway.** -/
theorem restrict_iff [IsOrderedAddMonoid U] (r : RegionType T) (conv : T → U) (p : PointType U) :
    Restricts r conv p ↔ r.isInside conv p = true := by
  have hself : r.restrict conv p = p := ite_self p
  rw [Restricts, hself]
  refine ⟨fun h => h.1.1, fun h => ⟨⟨h, fun s _ => ?_⟩, fun _ => rfl, ?_⟩⟩
  · rw [sub_self, sub_self, abs_zero]
    exact ⟨abs_nonneg _, abs_nonneg _⟩
  · rw [diff, if_pos h]
    exact congrArg₂ PointType.mk (sub_self _) (sub_self _)

theorem restrict_inside : Restricts (⟨⟨0, 0⟩, ⟨2, 2⟩⟩ : RegionType ℤ) (id : ℤ → ℤ) ⟨1, 1⟩ :=
  (restrict_iff _ _ _).2 (by decide)

/-- A point beside the region stays there. -/
theorem outside_not_restricted : ¬ ∀ (r : RegionType ℤ) (p : PointType ℤ), r.isNormal = true → Restricts r id p :=
  fun h => absurd (h ⟨⟨0, 0⟩, ⟨2, 2⟩⟩ ⟨3, 0⟩ rfl).1.1 (by decide)

end RegionType

end Restrictions

end Redux.Util.Regions
