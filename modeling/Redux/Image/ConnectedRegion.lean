import Mathlib.Data.Finset.Prod
import Redux.Lib.Flood
import Redux.Lib.Fuel
import Redux.Lib.RowMajor

/-!
# Image.ConnectedRegion — the pixels connected to a start pixel

`maskConnected` is a flood fill over coordinates of type `unsigned int`: left of the first column and above the
first row they wrap around to `2^32 - 1`, which the check against the sizes is to catch.  For images of less than
`2^32` rows and columns it does, and the mask is the connected component of the start pixel (`region_of_small`).
Where there is a row or a column of that number, the fill goes on at the opposite border (`region_iff_unwrapped`).
-/

namespace Redux.Image

open Redux.Lib Redux.Lib.Flood Redux.Lib.RowMajor

/-! ## Model -/

/-- What `connectedRegion` is called with, but for the mask. -/
structure ConnectedRegion (T : Type*) where
  data : ℕ → ℕ → T
  sizeY : ℕ
  sizeX : ℕ
  yStart : ℕ
  xStart : ℕ
  threshold : T

namespace ConnectedRegion

section Model

variable {T : Type*} [LT T] [DecidableLT T] (r : ConnectedRegion T)

/-- `maskConnected( data, mask, …, yy, xx, … )`, for at most `fuel` calls inside each other.  The mask is one block,
its rows one after the other. -/
def maskConnected : ℕ → ℕ → ℕ → (ℕ → UInt8) → Option (ℕ → UInt8)
  | 0, _, _, _ => none
  | fuel + 1, yy, xx, mask =>
    if yy ≥ r.sizeY ∨ xx ≥ r.sizeX then some mask
    else if mask (yy * r.sizeX + xx) = 0 ∧ (yy = r.yStart ∧ xx = r.xStart ∨ r.data yy xx > r.threshold) then
      (maskConnected fuel ((yy + 1) % 2 ^ 32) xx (Function.update mask (yy * r.sizeX + xx) 1)).bind fun mask =>
      (maskConnected fuel ((yy + (2 ^ 32 - 1)) % 2 ^ 32) xx mask).bind fun mask =>
      (maskConnected fuel yy ((xx + 1) % 2 ^ 32) mask).bind fun mask =>
      maskConnected fuel yy ((xx + (2 ^ 32 - 1)) % 2 ^ 32) mask
    else some mask

/-- `connectedRegion( data, mask, … )`: the mask after it. -/
def connectedRegion (mask : ℕ → UInt8) (fuel : ℕ) : Option (ℕ → UInt8) :=
  -- `memset( *mask, 0, sizeY * sizeX )`
  r.maskConnected fuel r.yStart r.xStart fun i => if i < r.sizeY * r.sizeX % 2 ^ 64 then 0 else mask i

/-! ## What is to hold -/

/-- The pixel is in the image. -/
def Inside (p : ℕ × ℕ) : Prop := p.1 < r.sizeY ∧ p.2 < r.sizeX

/-- A pixel of the image that exceeds the threshold. -/
def Exceeds (p : ℕ × ℕ) : Prop := r.Inside p ∧ r.data p.1 p.2 > r.threshold

/-- Neighbours in a column or in a row. -/
def Adjacent (p q : ℕ × ℕ) : Prop :=
  (p.1 + 1 = q.1 ∨ q.1 + 1 = p.1) ∧ p.2 = q.2 ∨ p.1 = q.1 ∧ (p.2 + 1 = q.2 ∨ q.2 + 1 = p.2)

/-- The connected component of the start pixel. -/
def Component : ℕ × ℕ → Prop :=
  Relation.ReflTransGen (fun p q => Adjacent p q ∧ r.Exceeds q) (r.yStart, r.xStart)

/-- The fill ends, and the mask is 1 in the connected component and 0 elsewhere in the image. -/
def Region (mask : ℕ → UInt8) : Prop :=
  ∃ mask', Settles (r.connectedRegion mask) mask' ∧
    ∀ y x, r.Inside (y, x) →
      (r.Component (y, x) → mask' (y * r.sizeX + x) = 1) ∧ (¬r.Component (y, x) → mask' (y * r.sizeX + x) = 0)

/-- Neighbours over the border of 32 bits. -/
def Opposite (p q : ℕ × ℕ) : Prop :=
  (p.1 = 0 ∧ q.1 = 2 ^ 32 - 1 ∨ p.1 = 2 ^ 32 - 1 ∧ q.1 = 0) ∧ p.2 = q.2 ∨
    p.1 = q.1 ∧ (p.2 = 0 ∧ q.2 = 2 ^ 32 - 1 ∨ p.2 = 2 ^ 32 - 1 ∧ q.2 = 0)

/-- The component has coordinates of 32 bits, and contains the pixels opposite to its own that exceed the threshold. -/
def Unwrapped : Prop :=
  ∀ p, r.Component p → (p.1 < 2 ^ 32 ∧ p.2 < 2 ^ 32) ∧ ∀ q, Opposite p q → r.Exceeds q → r.Component q

/-- The start pixel is in the image, its coordinates have 32 bits, and the mask fits in memory. -/
structure Valid : Prop where
  start_inside : r.Inside (r.yStart, r.xStart)
  start_lt : r.yStart < 2 ^ 32 ∧ r.xStart < 2 ^ 32
  size_lt : r.sizeY * r.sizeX < 2 ^ 64

/-! ## As a search -/

/-- The pixels that the fill enters. -/
def enter (p : ℕ × ℕ) : Bool :=
  decide ((p.1 < r.sizeY ∧ p.2 < r.sizeX) ∧ (p.1 = r.yStart ∧ p.2 = r.xStart ∨ r.data p.1 p.2 > r.threshold))

/-- The neighbours in the order of the calls. -/
def next (p : ℕ × ℕ) : List (ℕ × ℕ) :=
  [((p.1 + 1) % 2 ^ 32, p.2), ((p.1 + (2 ^ 32 - 1)) % 2 ^ 32, p.2), (p.1, (p.2 + 1) % 2 ^ 32),
    (p.1, (p.2 + (2 ^ 32 - 1)) % 2 ^ 32)]

/-- The mask has the marks of the pixels. -/
def Shows (mask : ℕ → UInt8) (marks : ℕ × ℕ → Bool) : Prop :=
  ∀ y x, r.Inside (y, x) → mask (y * r.sizeX + x) = if marks (y, x) then 1 else 0

/-- What the fill marks. -/
def Filled : ℕ × ℕ → Prop := Reaches r.enter next (r.yStart, r.xStart)

end Model

/-! ## The fill -/

section Fill

variable {T : Type*} [LT T] [DecidableLT T] {r : ConnectedRegion T} {p q : ℕ × ℕ} {mask : ℕ → UInt8}
  {marks : ℕ × ℕ → Bool}

omit [LT T] [DecidableLT T] in
theorem Shows.update (h : r.Shows mask marks) {y x : ℕ} (hp : r.Inside (y, x)) :
    r.Shows (Function.update mask (y * r.sizeX + x) 1) (Function.update marks (y, x) true) := by
  intro y' x' hp'
  by_cases heq : (y', x') = (y, x)
  · obtain ⟨rfl, rfl⟩ := Prod.mk.inj heq
    simp
  · rw [Function.update_of_ne heq, Function.update_of_ne, h y' x' hp']
    intro hplace
    obtain ⟨rfl, rfl⟩ := (index_inj hp'.2 hp.2).1 hplace
    exact heq rfl

/-- **The routine is the search**, with the marks in the mask. -/
theorem maskConnected_flood : ∀ {fuel : ℕ} {y x : ℕ} {mask : ℕ → UInt8} {marks marks' : ℕ × ℕ → Bool},
    r.Shows mask marks → flood r.enter next fuel (y, x) marks = some marks' →
      ∃ mask', r.maskConnected fuel y x mask = some mask' ∧ r.Shows mask' marks'
  | 0, _, _, _, _, _, _, h => by cases h
  | fuel + 1, y, x, mask, marks, marks', hshows, h => by
    rw [flood] at h
    rw [maskConnected]
    by_cases hinside : r.Inside (y, x)
    · rw [if_neg (by have := hinside.1; have := hinside.2; simp only at *; omega)]
      have hiff : (mask (y * r.sizeX + x) = 0 ∧ (y = r.yStart ∧ x = r.xStart ∨ r.data y x > r.threshold)) ↔
          (marks (y, x) = false ∧ r.enter (y, x) = true) := by
        have henter : r.enter (y, x) = true ↔ (y = r.yStart ∧ x = r.xStart ∨ r.data y x > r.threshold) := by
          rw [enter, decide_eq_true_iff]
          exact and_iff_right hinside
        rw [hshows y x hinside, henter]
        refine and_congr_left fun _ => ?_
        cases marks (y, x) <;> simp
      by_cases hnew : marks (y, x) = false ∧ r.enter (y, x) = true
      · rw [if_pos hnew] at h
        rw [if_pos (hiff.2 hnew)]
        simp only [next, List.foldlM_cons, List.foldlM_nil, Option.bind_eq_bind, Option.pure_def,
          Option.bind_eq_some_iff, Option.some.injEq] at h
        obtain ⟨marks₁, h₁, marks₂, h₂, marks₃, h₃, marks₄, h₄, rfl⟩ := h
        obtain ⟨mask₁, hmask₁, hshows₁⟩ := maskConnected_flood (hshows.update hinside) h₁
        obtain ⟨mask₂, hmask₂, hshows₂⟩ := maskConnected_flood hshows₁ h₂
        obtain ⟨mask₃, hmask₃, hshows₃⟩ := maskConnected_flood hshows₂ h₃
        obtain ⟨mask₄, hmask₄, hshows₄⟩ := maskConnected_flood hshows₃ h₄
        refine ⟨mask₄, ?_, hshows₄⟩
        rw [hmask₁, Option.bind_some, hmask₂, Option.bind_some, hmask₃, Option.bind_some, hmask₄]
      · rw [if_neg hnew] at h
        obtain rfl := Option.some.inj h
        exact ⟨mask, if_neg (mt hiff.1 hnew), hshows⟩
    · have hout : r.enter (y, x) = false := decide_eq_false fun h => hinside h.1
      rw [hout, if_neg (by simp)] at h
      obtain rfl := Option.some.inj h
      refine ⟨mask, if_pos ?_, hshows⟩
      by_contra hcontra
      exact hinside (by simp only [Inside]; omega)

/-- More rounds do not change the mask. -/
theorem maskConnected_succ : ∀ {fuel : ℕ} {y x : ℕ} {mask mask' : ℕ → UInt8},
    r.maskConnected fuel y x mask = some mask' → r.maskConnected (fuel + 1) y x mask = some mask'
  | 0, _, _, _, _, h => by cases h
  | fuel + 1, y, x, mask, mask', h => by
    rw [maskConnected] at h ⊢
    split_ifs at h ⊢
    · exact h
    · simp only [Option.bind_eq_some_iff] at h ⊢
      obtain ⟨mask₁, h₁, mask₂, h₂, mask₃, h₃, h₄⟩ := h
      exact ⟨mask₁, maskConnected_succ h₁, mask₂, maskConnected_succ h₂, mask₃, maskConnected_succ h₃,
        maskConnected_succ h₄⟩
    · exact h

/-- **The fill ends**, and the mask has what it reaches. -/
theorem settles_connectedRegion (h : r.Valid) (mask : ℕ → UInt8) : ∃ mask', Settles (r.connectedRegion mask) mask' ∧
    ∀ y x, r.Inside (y, x) →
      (r.Filled (y, x) → mask' (y * r.sizeX + x) = 1) ∧ (¬r.Filled (y, x) → mask' (y * r.sizeX + x) = 0) := by
  have hall : ∀ p, r.enter p = true → p ∈ Finset.range r.sizeY ×ˢ Finset.range r.sizeX := by
    intro p hp
    have hp := of_decide_eq_true hp
    exact Finset.mem_product.2 ⟨Finset.mem_range.2 hp.1.1, Finset.mem_range.2 hp.1.2⟩
  have hstart : r.enter (r.yStart, r.xStart) = true := decide_eq_true ⟨h.start_inside, .inl ⟨rfl, rfl⟩⟩
  have hcleared : r.Shows (fun i => if i < r.sizeY * r.sizeX % 2 ^ 64 then 0 else mask i) fun _ => false := by
    intro y x hp
    have hplace : y * r.sizeX + x < r.sizeY * r.sizeX % 2 ^ 64 := by
      rw [Nat.mod_eq_of_lt h.size_lt]
      exact index_lt hp.1 hp.2
    exact if_pos hplace
  obtain ⟨marks, hmarks, hiff⟩ := flood_empty next hall hstart (Nat.lt_succ_self _)
  obtain ⟨mask', hmask', hshows⟩ := maskConnected_flood hcleared hmarks
  refine ⟨mask', .of_succ hmask' fun fuel => maskConnected_succ, fun y x hp => ⟨fun hfilled => ?_, fun hfilled => ?_⟩⟩
  · rw [hshows y x hp, if_pos ((hiff _).2 hfilled)]
  · rw [hshows y x hp, if_neg (mt (hiff _).1 hfilled)]

/-- The mask is right if the fill reaches what it should. -/
theorem region_iff (h : r.Valid) (mask : ℕ → UInt8) :
    r.Region mask ↔ ∀ p, r.Inside p → (r.Filled p ↔ r.Component p) := by
  obtain ⟨mask', hsettles, hmask'⟩ := settles_connectedRegion h mask
  constructor
  · rintro ⟨mask'', hsettles', hregion⟩ ⟨y, x⟩ hp
    obtain rfl := hsettles'.unique hsettles
    have hne : (1 : UInt8) ≠ 0 := by decide
    constructor
    · intro hfilled
      by_contra hout
      exact hne (((hmask' y x hp).1 hfilled).symm.trans ((hregion y x hp).2 hout))
    · intro hcomponent
      by_contra hout
      exact hne (((hregion y x hp).1 hcomponent).symm.trans ((hmask' y x hp).2 hout))
  · intro hiff
    refine ⟨mask', hsettles, fun y x hp => ⟨fun hcomponent => ?_, fun hout => ?_⟩⟩
    · exact (hmask' y x hp).1 ((hiff _ hp).2 hcomponent)
    · exact (hmask' y x hp).2 (mt (hiff _ hp).1 hout)

end Fill

/-! ## The component -/

section Component

variable {T : Type*} [LT T] {r : ConnectedRegion T} {p q : ℕ × ℕ}

theorem Component.inside (h : r.Valid) (hp : r.Component p) : r.Inside p := by
  rcases hp.cases_tail with rfl | ⟨q, -, hq⟩
  · exact h.start_inside
  · exact hq.2.1

variable [DecidableLT T]

theorem enter_iff : r.enter q = true ↔ r.Inside q ∧ (q = (r.yStart, r.xStart) ∨ r.Exceeds q) := by
  simp only [enter, decide_eq_true_iff, Exceeds, Inside, Prod.ext_iff]
  tauto

/-- The number after `a`, of 32 bits. -/
theorem eq_succ_iff {a b : ℕ} (ha : a < 2 ^ 32) :
    b = (a + 1) % 2 ^ 32 ↔ b < 2 ^ 32 ∧ (a + 1 = b ∨ a = 2 ^ 32 - 1 ∧ b = 0) := by
  omega

/-- The number before `a`, of 32 bits. -/
theorem eq_pred_iff {a b : ℕ} (ha : a < 2 ^ 32) :
    b = (a + (2 ^ 32 - 1)) % 2 ^ 32 ↔ b < 2 ^ 32 ∧ (b + 1 = a ∨ a = 0 ∧ b = 2 ^ 32 - 1) := by
  omega

/-- The neighbours of the code: those of the pixel that have 32 bits, and those over the border. -/
theorem mem_next_iff (hp : p.1 < 2 ^ 32 ∧ p.2 < 2 ^ 32) :
    q ∈ next p ↔ (q.1 < 2 ^ 32 ∧ q.2 < 2 ^ 32) ∧ (Adjacent p q ∨ Opposite p q) := by
  obtain ⟨y, x⟩ := p
  obtain ⟨y', x'⟩ := q
  simp only [next, List.mem_cons, List.not_mem_nil, or_false, Prod.mk.injEq, eq_succ_iff hp.1, eq_succ_iff hp.2,
    eq_pred_iff hp.1, eq_pred_iff hp.2, Adjacent, Opposite]
  constructor
  · rintro (⟨⟨hy', h⟩, rfl⟩ | ⟨⟨hy', h⟩, rfl⟩ | ⟨rfl, hx', h⟩ | ⟨rfl, hx', h⟩)
    · exact ⟨⟨hy', hp.2⟩, h.imp (fun h => .inl ⟨.inl h, rfl⟩) fun h => .inl ⟨.inr h, rfl⟩⟩
    · exact ⟨⟨hy', hp.2⟩, h.imp (fun h => .inl ⟨.inr h, rfl⟩) fun h => .inl ⟨.inl h, rfl⟩⟩
    · exact ⟨⟨hp.1, hx'⟩, h.imp (fun h => .inr ⟨rfl, .inl h⟩) fun h => .inr ⟨rfl, .inr h⟩⟩
    · exact ⟨⟨hp.1, hx'⟩, h.imp (fun h => .inr ⟨rfl, .inr h⟩) fun h => .inr ⟨rfl, .inl h⟩⟩
  · rintro ⟨⟨hy', hx'⟩, (⟨h, rfl⟩ | ⟨rfl, h⟩) | (⟨h, rfl⟩ | ⟨rfl, h⟩)⟩ <;>
      simp only [hy', hx', true_and, and_true] <;> grind

theorem Filled.lt (h : r.Valid) (hp : r.Filled p) : p.1 < 2 ^ 32 ∧ p.2 < 2 ^ 32 := by
  induction hp with
  | refl => exact h.start_lt
  | tail _ hstep ih => exact ((mem_next_iff ih).1 hstep.1).1

theorem Filled.tail (h : r.Valid) (hp : r.Filled p) (hq : q.1 < 2 ^ 32 ∧ q.2 < 2 ^ 32)
    (hnext : Adjacent p q ∨ Opposite p q) (hexceeds : r.Exceeds q) : r.Filled q :=
  Relation.ReflTransGen.tail hp ⟨(mem_next_iff (hp.lt h)).2 ⟨hq, hnext⟩, enter_iff.2 ⟨hexceeds.1, .inr hexceeds⟩⟩

/-- A pixel opposite to one of 32 bits has 32 bits. -/
theorem Opposite.lt (hp : p.1 < 2 ^ 32 ∧ p.2 < 2 ^ 32) (h : Opposite p q) : q.1 < 2 ^ 32 ∧ q.2 < 2 ^ 32 := by
  simp only [Opposite] at h
  omega

theorem Component.filled (h : r.Valid) (hunwrapped : r.Unwrapped) (hp : r.Component p) : r.Filled p := by
  induction hp with
  | refl => exact .refl
  | tail hp hstep ih => exact ih.tail h (hunwrapped _ (hp.tail hstep)).1 (.inl hstep.1) hstep.2

theorem Filled.component (h : r.Valid) (hunwrapped : r.Unwrapped) (hp : r.Filled p) : r.Component p := by
  induction hp with
  | refl => exact .refl
  | @tail p q hp hstep ih =>
    rcases enter_iff.1 hstep.2 with ⟨-, rfl | hexceeds⟩
    · exact .refl
    · rcases ((mem_next_iff (Filled.lt h hp)).1 hstep.1).2 with hadjacent | hopposite
      · exact ih.tail ⟨hadjacent, hexceeds⟩
      · exact (hunwrapped p ih).2 q hopposite hexceeds

omit [DecidableLT T] in
theorem unwrapped_of_small (h : r.Valid) (hsize : r.sizeY < 2 ^ 32 ∧ r.sizeX < 2 ^ 32) : r.Unwrapped := by
  intro p hp
  have hinside := hp.inside h
  simp only [Inside] at hinside
  refine ⟨by omega, fun q hopposite hexceeds => ?_⟩
  have hinside' := hexceeds.1
  simp only [Inside, Opposite] at hinside' hopposite
  omega

/-- **The mask has the connected component** exactly if that has coordinates of 32 bits and the pixels opposite to its
own belong to it. -/
theorem region_iff_unwrapped (h : r.Valid) (mask : ℕ → UInt8) : r.Region mask ↔ r.Unwrapped := by
  rw [region_iff h]
  constructor
  · intro hiff p hp
    have hfilled : r.Filled p := (hiff p (hp.inside h)).2 hp
    refine ⟨hfilled.lt h, fun q hopposite hexceeds => (hiff q hexceeds.1).1 ?_⟩
    exact hfilled.tail h (hopposite.lt (hfilled.lt h)) (.inr hopposite) hexceeds
  · intro hunwrapped p _
    exact ⟨fun hp => hp.component h hunwrapped, fun hp => hp.filled h hunwrapped⟩

/-- A plus sign. -/
def plus : ConnectedRegion ℤ where
  data y x := if y = 1 ∨ x = 1 then 1 else 0
  sizeY := 3
  sizeX := 3
  yStart := 0
  xStart := 0
  threshold := 0

theorem plus_region : plus.Region fun _ => 7 :=
  have h : plus.Valid := ⟨by simp [Inside, plus], by simp [plus], by simp [plus]⟩
  (region_iff_unwrapped h _).2 (unwrapped_of_small h (by simp [plus]))

/-- A column of `2^32` pixels with light at both ends. -/
def column : ConnectedRegion ℤ where
  data y _ := if y = 0 ∨ y = 2 ^ 32 - 1 then 1 else 0
  sizeY := 2 ^ 32
  sizeX := 1
  yStart := 0
  xStart := 0
  threshold := 0

theorem column_exceeds_iff {q : ℕ × ℕ} : column.Exceeds q ↔ (q.1 = 0 ∨ q.1 = 2 ^ 32 - 1) ∧ q.2 = 0 := by
  simp only [Exceeds, Inside, column, gt_iff_lt]
  constructor
  · rintro ⟨hinside, hlt⟩
    refine ⟨?_, by omega⟩
    by_contra hdark
    rw [if_neg hdark] at hlt
    exact lt_irrefl _ hlt
  · rintro ⟨hlight, hx⟩
    refine ⟨by omega, ?_⟩
    rw [if_pos hlight]
    exact one_pos

/-- The component is the pixel at the upper end. -/
theorem column_component {p : ℕ × ℕ} (hp : column.Component p) : p = (0, 0) := by
  induction hp with
  | refl => rfl
  | tail _ hstep ih =>
    subst ih
    obtain ⟨hadjacent, hexceeds⟩ := hstep
    rw [column_exceeds_iff] at hexceeds
    simp only [Adjacent, Prod.ext_iff] at hadjacent ⊢
    omega

/-- From the upper end the fill goes on at the lower one. -/
theorem column_not_region : column.Valid ∧ ∀ mask, ¬column.Region mask := by
  have h : column.Valid := ⟨by simp [Inside, column], by simp [column], by simp [column]⟩
  refine ⟨h, fun mask hregion => ?_⟩
  have hexceeds : column.Exceeds (2 ^ 32 - 1, 0) := column_exceeds_iff.2 (by simp)
  have hfilled : column.Filled (2 ^ 32 - 1, 0) := by
    apply Filled.tail h .refl (by simp) (.inr ?_) hexceeds
    simp [Opposite, column]
  have hcomponent := column_component (((region_iff h mask).1 hregion _ hexceeds.1).1 hfilled)
  simp at hcomponent

/-- **Images of less than `2^32` rows and columns** have their connected component. -/
theorem region_of_small (h : r.Valid) (hsize : r.sizeY < 2 ^ 32 ∧ r.sizeX < 2 ^ 32) (mask : ℕ → UInt8) :
    r.Region mask := by
  have hunwrapped := unwrapped_of_small h hsize
  exact (region_iff h mask).2 fun p _ => ⟨fun hp => hp.component h hunwrapped, fun hp => hp.filled h hunwrapped⟩

end Component

end ConnectedRegion

end Redux.Image
