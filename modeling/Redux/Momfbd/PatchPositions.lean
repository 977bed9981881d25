import Mathlib.Data.BitVec
import Redux.Lib.Fuel
import Redux.Util.Segment

/-!
# Momfbd.PatchPositions — where the patches of a job lie

`checkPatchPositions` places the patches in the clipped image of the first channel, or checks the places
that the configuration gives, and `preProcess` cuts them out.  Positions are 1-based and relative to
the clip, regions are 0-based.  The two directions are treated alike, in 16 bits.  What the loops of
`segment` do with the rounds that they have (`fuel`) decides whether the check ends.
-/

namespace Redux.Momfbd

open Redux.Lib Redux.Util

/-! ## Model -/

/-- One direction of a `Region16`. -/
structure Span where
  first : BitVec 16
  last : BitVec 16
  deriving DecidableEq

namespace Span

/-- `region + n`. -/
def add (s : Span) (n : BitVec 16) : Span := ⟨s.first + n, s.last + n⟩

/-- `region - n`. -/
def sub (s : Span) (n : BitVec 16) : Span := ⟨s.first - n, s.last - n⟩

def normalize (s : Span) : Span := if s.first > s.last then ⟨s.last, s.first⟩ else s

def shrink (s : Span) (n : BitVec 16) : Span := ⟨s.normalize.first + n, s.normalize.last - n⟩

/-- `span()`, in `int`. -/
def span (s : Span) : ℕ := ((s.last.toNat : ℤ) - s.first.toNat).natAbs + 1

/-- The limits of the positions, 1-based and relative to the region; there is one position if no more than
one patch has room. -/
def posLimits (roi : Span) (patchSize : BitVec 16) : Span :=
  let halfPatchSize := patchSize / 2
  if roi.span ≤ patchSize.toNat then ⟨roi.first + halfPatchSize + 1, roi.first + halfPatchSize + 1⟩
  else ((roi.add 1).shrink halfPatchSize).sub roi.first

/-- What the loop over the positions makes of one that is outside. -/
def clamp (s : Span) (pos : BitVec 16) : BitVec 16 :=
  let pos := if pos < s.first then s.first else pos
  if pos > s.last then s.last else pos

/-- A position is outside. -/
def outside (s : Span) (pos : BitVec 16) : Bool :=
  pos < s.first || (if pos < s.first then s.first else pos) > s.last

end Span

/-- One direction of a job: the limits of the reference clip, the size of the image, the positions given. -/
structure Direction where
  clip : BitVec 16 × BitVec 16
  imageSize : BitVec 16
  subImagePos : List (BitVec 16)

/-- What the placing of patches depends on. -/
structure Placing where
  /-- `alignClip` has its four values -/
  clipped : Bool
  y : Direction
  x : Direction
  subImagePosXY : List (BitVec 16)
  patchSize : BitVec 16
  minimumOverlap : BitVec 16

/-- One direction of a patch: the position that it is made for, its own and its region. -/
structure Cut where
  pos : BitVec 16
  position : BitVec 16
  roi : Span

namespace Placing

/-- The region of a direction: the clip, whose values are signed, or the image. -/
def roi (p : Placing) (d : Direction) : Span :=
  if p.clipped then
    if d.clip.2.slt d.clip.1 then ⟨d.clip.2, d.clip.1⟩ else ⟨d.clip.1, d.clip.2⟩
  else ⟨0, d.imageSize - 1⟩

def posLimits (p : Placing) (d : Direction) : Span := (p.roi d).posLimits p.patchSize

/-- An overlap of a quarter, and some pixels. -/
def totalOverlap (p : Placing) : BitVec 16 := p.minimumOverlap + p.patchSize / 4

/-- `segment<uint16_t>` between two positions. -/
def segments (p : Placing) (fuel : ℕ) (first last : BitVec 16) : Option (List (BitVec 16)) :=
  (Util.segment fuel first.toNat last.toNat p.patchSize.toNat p.totalOverlap.toNat).map fun l => l.map (BitVec.ofInt 16)

/-- The positions of a direction, generated if there are none. -/
def positions (p : Placing) (fuel : ℕ) (d : Direction) : Option (List (BitVec 16)) :=
  if d.subImagePos = [] then p.segments fuel (p.posLimits d).first (p.posLimits d).last else some d.subImagePos

/-- The message about positions outside has others to offer. -/
def message (p : Placing) (fuel : ℕ) (d : Direction) (poss : List (BitVec 16)) : Option Bool :=
  if poss.any (p.posLimits d).outside then
    let clamped := poss.map (p.posLimits d).clamp
    let minP := clamped.foldl (fun minP pos => if pos < minP then pos else minP) (-1)
    let maxP := clamped.foldl (fun maxP pos => if pos > maxP then pos else maxP) 0
    (p.segments fuel minP maxP).map fun _ => true
  else some false

/-- The pairs dealt out to the two directions, from index `i` on. -/
def splitXY (i : ℕ) : List (BitVec 16) → List (BitVec 16) × List (BitVec 16)
  | [] => ([], [])
  | pos :: rest =>
    let r := splitXY (i + 1) rest
    if i % 2 = 1 then (r.1, pos :: r.2) else (pos :: r.1, r.2)

/-- The answer about the positions, which is given with them. -/
def answer (p : Placing) (subImagePosX subImagePosY : List (BitVec 16)) (fuel : ℕ) :
    Option (Bool × List (BitVec 16) × List (BitVec 16)) :=
  if subImagePosX = [] ∨ subImagePosY = [] then some (false, subImagePosX, subImagePosY)
  else
    (p.message fuel p.x subImagePosX).bind fun xOutside =>
    (p.message fuel p.y subImagePosY).map fun yOutside =>
    (!(xOutside || yOutside), subImagePosX, subImagePosY)

/-- `checkPatchPositions`, with the positions that it leaves. -/
def checkPatchPositions (p : Placing) (fuel : ℕ) : Option (Bool × List (BitVec 16) × List (BitVec 16)) :=
  if p.subImagePosXY = [] then
    (p.positions fuel p.x).bind fun subImagePosX =>
    (p.positions fuel p.y).bind fun subImagePosY => p.answer subImagePosX subImagePosY fuel
  else
    -- nothing is checked of the pairs
    some (true, splitXY 0 p.subImagePosXY)

/-- `position` and `roi` of a patch; positions are 1-based. -/
def cut (p : Placing) (pos : BitVec 16) : Cut :=
  let position := pos - 1
  let first := position - p.patchSize / 2
  ⟨pos, position, first, first + p.patchSize - 1⟩

/-- The patches of `preProcess`, each in both directions, y first; it throws if there is no image. -/
def preProcess (p : Placing) (subImagePosX subImagePosY : List (BitVec 16)) : List (Cut × Cut) :=
  if p.y.imageSize = 0 ∧ p.x.imageSize = 0 then []
  else if p.subImagePosXY ≠ [] then (subImagePosX.zip subImagePosY).map fun q => (p.cut q.2, p.cut q.1)
  else subImagePosY.flatMap fun y => subImagePosX.map fun x => (p.cut y, p.cut x)

/-! ## What it stands for -/

/-- The size of the clipped image. -/
def size (p : Placing) (d : Direction) : ℕ :=
  if p.clipped then (d.clip.2.toInt - d.clip.1.toInt).natAbs + 1 else d.imageSize.toNat

end Placing

/-- The region of a patch around its position is within `n` pixels, and none of the numbers wraps. -/
structure Cut.Within (c : Cut) (patchSize n : ℕ) : Prop where
  position_eq : (c.position.toNat : ℤ) = c.pos.toNat - 1
  first_eq : (c.roi.first.toNat : ℤ) = c.position.toNat - (patchSize / 2 : ℕ)
  last_eq : (c.roi.last.toNat : ℤ) = c.roi.first.toNat + patchSize - 1
  last_lt : c.roi.last.toNat < n

namespace Placing

/-- The check ends, and if it accepts the positions, the patches lie in the image in each direction in which
the image has room for one. -/
def Placed (p : Placing) : Prop :=
  ∃ r, Settles p.checkPatchPositions r ∧ (r.1 = true → ∀ patch ∈ p.preProcess r.2.1 r.2.2,
    (p.patchSize.toNat ≤ p.size p.y → patch.1.Within p.patchSize.toNat (p.size p.y)) ∧
    (p.patchSize.toNat ≤ p.size p.x → patch.2.Within p.patchSize.toNat (p.size p.x)))

/-! ## When it does so -/

/-- The positions given, or the first and the last one of those generated. -/
def used (p : Placing) (d : Direction) : List (BitVec 16) :=
  if d.subImagePos = [] then [(p.posLimits d).first, (p.posLimits d).last] else d.subImagePos

/-- The positions of both directions are within the limits. -/
def Accepted (p : Placing) : Prop :=
  ∀ d ∈ [p.y, p.x], ∀ pos ∈ p.used d, (p.posLimits d).first ≤ pos ∧ pos ≤ (p.posLimits d).last

/-- A patch at this position is within `n` pixels. -/
def Room (p : Placing) (n : ℕ) (pos : BitVec 16) : Prop :=
  p.patchSize.toNat / 2 + 1 ≤ pos.toNat ∧ 2 ≤ pos.toNat + p.patchSize.toNat / 2 ∧
    pos.toNat + p.patchSize.toNat / 2 ≤ n + 1

/-- All positions, clamped, are one. -/
def Pressed (p : Placing) (d : Direction) (poss : List (BitVec 16)) : Prop :=
  ∀ pos ∈ poss, ∀ pos' ∈ poss, (p.posLimits d).clamp pos = (p.posLimits d).clamp pos'

/-- The loops of a direction end even if the overlap leaves nothing of a segment. -/
def EndsIn (p : Placing) (d : Direction) : Prop :=
  if d.subImagePos = [] then (p.posLimits d).first = (p.posLimits d).last
  else (∀ pos ∈ d.subImagePos, (p.posLimits d).first ≤ pos ∧ pos ≤ (p.posLimits d).last) ∨
    p.Pressed d d.subImagePos

/-- The check ends. -/
def Ends (p : Placing) : Prop :=
  p.subImagePosXY ≠ [] ∨ p.totalOverlap < p.patchSize ∨ (p.EndsIn p.y ∧ p.EndsIn p.x)

/-- The positions that are accepted have room for a patch, if the image has. -/
def Fits (p : Placing) : Prop :=
  (p.y.imageSize ≠ 0 ∨ p.x.imageSize ≠ 0) →
    if p.subImagePosXY = [] then
      p.Accepted → ∀ d ∈ [p.y, p.x], p.patchSize.toNat ≤ p.size d → ∀ pos ∈ p.used d, p.Room (p.size d) pos
    else
      (∀ pos ∈ (splitXY 0 p.subImagePosXY).2, p.patchSize.toNat ≤ p.size p.y → p.Room (p.size p.y) pos) ∧
      ∀ pos ∈ (splitXY 0 p.subImagePosXY).1, p.patchSize.toNat ≤ p.size p.x → p.Room (p.size p.x) pos

/-! ## One patch -/

section Patch

variable {p : Placing} {n : ℕ} {pos : BitVec 16}

theorem toNat_half (p : Placing) : (p.patchSize / 2).toNat = p.patchSize.toNat / 2 := by
  rw [BitVec.toNat_udiv]
  rfl

/-- **A patch lies in the image exactly if there is room for it around its position.** -/
theorem within_iff (heven : p.patchSize.toNat % 2 = 0) (hn : n ≤ 2 ^ 16) :
    (p.cut pos).Within p.patchSize.toNat n ↔ p.Room n pos := by
  have hhalf := p.toNat_half
  constructor
  · intro h
    have h₁ := h.position_eq
    have h₂ := h.first_eq
    have h₃ := h.last_eq
    have h₄ := h.last_lt
    have hpos : (p.cut pos).pos = pos := rfl
    rw [hpos] at h₁
    refine ⟨?_, ?_, ?_⟩ <;> omega
  · rintro ⟨hlow, hpair, hhigh⟩
    have hlt := p.patchSize.isLt
    have hposition : (pos - 1).toNat = pos.toNat - 1 := BitVec.toNat_sub_of_le
      (by rw [BitVec.le_def]; show 1 ≤ _; omega)
    have hfirst : (pos - 1 - p.patchSize / 2).toNat = pos.toNat - 1 - p.patchSize.toNat / 2 := by
      rw [BitVec.toNat_sub_of_le (by rw [BitVec.le_def, hposition, hhalf]; omega), hposition, hhalf]
    have hlast : (pos - 1 - p.patchSize / 2 + p.patchSize - 1).toNat = pos.toNat + p.patchSize.toNat / 2 - 2 := by
      rw [BitVec.toNat_sub, BitVec.toNat_add, hfirst]
      show (2 ^ 16 - 1 + (_ + _) % 2 ^ 16) % 2 ^ 16 = _
      omega
    have hcut : p.cut pos = ⟨pos, pos - 1, ⟨pos - 1 - p.patchSize / 2,
      pos - 1 - p.patchSize / 2 + p.patchSize - 1⟩⟩ := rfl
    rw [hcut]
    refine ⟨?_, ?_, ?_, ?_⟩ <;> dsimp only <;> omega

theorem size_le (p : Placing) (d : Direction) : p.size d ≤ 2 ^ 16 := by
  have h₁ := @BitVec.toInt_lt 16 d.clip.1
  have h₂ := @BitVec.le_toInt 16 d.clip.1
  have h₃ := @BitVec.toInt_lt 16 d.clip.2
  have h₄ := @BitVec.le_toInt 16 d.clip.2
  have h₅ := d.imageSize.isLt
  unfold size
  split_ifs <;> omega

end Patch

/-! ## Segments -/

section Segments

variable {p : Placing} {first last : BitVec 16}

/-- What is found between two positions. -/
structure Between (first last : BitVec 16) (l : List (BitVec 16)) : Prop where
  first_mem : first ∈ l
  last_mem : last ∈ l
  between : ∀ pos ∈ l, min first.toNat last.toNat ≤ pos.toNat ∧ pos.toNat ≤ max first.toNat last.toNat

theorem toNat_ofInt {x : ℤ} {n : ℕ} (hx : 0 ≤ x) (hn : x ≤ n) (hlt : n < 2 ^ 16) :
    ((BitVec.ofInt 16 x).toNat : ℤ) = x := by
  rw [BitVec.toNat_ofInt, Int.toNat_of_nonneg (Int.emod_nonneg x (by decide))]
  exact Int.emod_eq_of_lt hx (by omega)

theorem ofInt_toNat (pos : BitVec 16) : BitVec.ofInt 16 pos.toNat = pos := by
  rw [BitVec.ofInt_natCast, BitVec.ofNat_toNat, BitVec.setWidth_eq]

/-- Between two positions in the right order. -/
theorem placeSegments_settles (hlt : first < last) (hoverlap : p.totalOverlap < p.patchSize) :
    ∃ l, Settles (fun fuel => (placeSegments fuel first.toNat last.toNat p.patchSize.toNat p.totalOverlap.toNat).map
        fun l => l.map (BitVec.ofInt 16)) l ∧ Between first last l := by
  rw [BitVec.lt_def] at hlt hoverlap
  obtain ⟨l, hl, hsorted, hcovers, -⟩ := @placeSegments_spec first.toNat last.toNat p.patchSize.toNat
      p.totalOverlap.toNat
    (by omega) (by omega) (by omega) (by have := last.isLt; omega)
  have hsettles : Settles (fun fuel => placeSegments fuel first.toNat last.toNat p.patchSize.toNat
    p.totalOverlap.toNat) l :=
    ⟨last.toNat, fun fuel hfuel => hl fuel (by omega)⟩
  refine ⟨_, hsettles.map _, ?_, ?_, fun pos hpos => ?_⟩
  · exact List.mem_map.2 ⟨_, List.mem_of_head? hcovers.head, ofInt_toNat first⟩
  · exact List.mem_map.2 ⟨_, List.mem_of_getLast? hcovers.last, ofInt_toNat last⟩
  · obtain ⟨x, hx, rfl⟩ := List.mem_map.1 hpos
    obtain ⟨hlow, hhigh⟩ := hcovers.between hsorted x hx
    have hx := toNat_ofInt (by omega) hhigh last.isLt
    omega

theorem Between.symm {l : List (BitVec 16)} (h : Between first last l) : Between last first l :=
  ⟨h.last_mem, h.first_mem, fun pos hpos => by rw [min_comm, max_comm]; exact h.between pos hpos⟩

/-- **The segments between two positions are found** if they are one or if a segment is longer than the
overlap, and else the loop does not end. -/
theorem segments_settles (h : first = last ∨ p.totalOverlap < p.patchSize) :
    ∃ l, Settles (fun fuel => p.segments fuel first last) l ∧ Between first last l := by
  by_cases heq : first = last
  · subst heq
    refine ⟨[first], ⟨0, fun fuel _ => ?_⟩, List.mem_singleton_self _, List.mem_singleton_self _, fun pos hpos => ?_⟩
    · show p.segments fuel first first = some [first]
      rw [segments, Util.segment, if_pos rfl, Option.map_some, List.map_singleton, ofInt_toNat]
    · rw [List.mem_singleton.1 hpos]
      exact ⟨min_le_left _ _, le_max_left _ _⟩
  · have hoverlap := h.resolve_left heq
    have hne : ((first.toNat : ℤ)) ≠ last.toNat := fun h => heq (BitVec.eq_of_toNat_eq (by exact_mod_cast h))
    simp only [segments, Util.segment, if_neg hne]
    by_cases hgt : (first.toNat : ℤ) > last.toNat
    · simp only [if_pos hgt]
      obtain ⟨l, hl, hbetween⟩ := placeSegments_settles (p := p)
          (show last < first by rw [BitVec.lt_def]; omega) hoverlap
      exact ⟨l, hl, hbetween.symm⟩
    · simp only [if_neg hgt]
      exact placeSegments_settles (by rw [BitVec.lt_def]; omega) hoverlap

theorem segments_never (hne : first ≠ last) (hoverlap : ¬p.totalOverlap < p.patchSize) (fuel : ℕ) :
    p.segments fuel first last = none := by
  rw [BitVec.lt_def] at hoverlap
  have hne' : (first.toNat : ℤ) ≠ last.toNat := fun h => hne (BitVec.eq_of_toNat_eq (by exact_mod_cast h))
  rw [segments, Util.segment, if_neg hne']
  by_cases hgt : (first.toNat : ℤ) > last.toNat
  · rw [if_pos hgt, placeSegments, countSegments_eq_none (by omega) (by omega)]
    rfl
  · rw [if_neg hgt, placeSegments, countSegments_eq_none (by omega) (by omega)]
    rfl

end Segments

/-! ## The positions of a direction -/

section Positions

variable {p : Placing} {d : Direction} {l poss : List (BitVec 16)}

/-- A list of positions, and some of them that the others lie between. -/
structure Represents (l used : List (BitVec 16)) : Prop where
  mem : ∀ u ∈ used, u ∈ l
  between : ∀ pos ∈ l, ∃ u ∈ used, ∃ u' ∈ used, u.toNat ≤ pos.toNat ∧ pos.toNat ≤ u'.toNat

/-- What holds in a range holds of all positions if it holds of those. -/
theorem Represents.forall_iff {used : List (BitVec 16)} {Q : BitVec 16 → Prop} (h : Represents l used)
    (hQ : ∀ u u' pos : BitVec 16, Q u → Q u' → u.toNat ≤ pos.toNat → pos.toNat ≤ u'.toNat → Q pos) :
    (∀ pos ∈ l, Q pos) ↔ ∀ u ∈ used, Q u := by
  refine ⟨fun hall u hu => hall u (h.mem u hu), fun hall pos hpos => ?_⟩
  obtain ⟨u, hu, u', hu', hlow, hhigh⟩ := h.between pos hpos
  exact hQ u u' pos (hall u hu) (hall u' hu') hlow hhigh

theorem Represents.refl (l : List (BitVec 16)) : Represents l l :=
  ⟨fun _ hu => hu, fun pos hpos => ⟨pos, hpos, pos, hpos, le_rfl, le_rfl⟩⟩

theorem positions_settles (h : d.subImagePos = [] → (p.posLimits d).first = (p.posLimits d).last ∨
    p.totalOverlap < p.patchSize) :
    ∃ l, Settles (fun fuel => p.positions fuel d) l ∧ Represents l (p.used d) ∧ l ≠ [] ∧
      (d.subImagePos ≠ [] → l = d.subImagePos) := by
  by_cases hnil : d.subImagePos = []
  · obtain ⟨l, hl, hbetween⟩ := segments_settles (h hnil)
    simp only [positions, used, if_pos hnil]
    refine ⟨l, hl, ⟨?_, fun pos hpos => ?_⟩, List.ne_nil_of_mem hbetween.first_mem, fun h => absurd hnil h⟩
    · simp [hbetween.first_mem, hbetween.last_mem]
    · have hb := hbetween.between pos hpos
      simp only [List.mem_cons, List.not_mem_nil, or_false, exists_eq_or_imp, exists_eq_left]
      omega
  · simp only [positions, used, if_neg hnil]
    exact ⟨_, settles_some _, .refl _, hnil, fun _ => rfl⟩

theorem positions_never (hnil : d.subImagePos = []) (hne : (p.posLimits d).first ≠ (p.posLimits d).last)
    (hoverlap : ¬p.totalOverlap < p.patchSize) (fuel : ℕ) : p.positions fuel d = none := by
  rw [positions, if_pos hnil, segments_never hne hoverlap]

theorem outside_iff {s : Span} {pos : BitVec 16} : s.outside pos = true ↔ ¬(s.first ≤ pos ∧ pos ≤ s.last) := by
  simp only [Span.outside, Bool.or_eq_true, decide_eq_true_eq, gt_iff_lt, BitVec.lt_def, BitVec.le_def]
  split_ifs with h <;> omega

/-- A loop that keeps one of two values keeps one of all, and one that is before both is before all. -/
theorem foldl_extremal {r : BitVec 16 → BitVec 16 → Prop} {f : BitVec 16 → BitVec 16 → BitVec 16} (hrefl : ∀ x, r x x)
    (htrans : ∀ x y z, r x y → r y z → r x z) (hf : ∀ m x, (f m x = m ∨ f m x = x) ∧ r (f m x) m ∧ r (f m x) x) :
    ∀ {l : List (BitVec 16)} {m : BitVec 16}, (l.foldl f m = m ∨ l.foldl f m ∈ l) ∧ r (l.foldl f m) m ∧ ∀ x ∈ l,
      r (l.foldl f m) x
  | [], m => ⟨.inl rfl, hrefl m, fun x hx => absurd hx List.not_mem_nil⟩
  | x :: l, m => by
    obtain ⟨hmem, hm, hl⟩ := @foldl_extremal r f hrefl htrans hf l (f m x)
    obtain ⟨hchoice, hfm, hfx⟩ := hf m x
    rw [List.foldl_cons, List.forall_mem_cons, List.mem_cons]
    refine ⟨?_, htrans _ _ _ hm hfm, htrans _ _ _ hm hfx, hl⟩
    rcases hmem with hmem | hmem
    · rw [hmem]
      exact hchoice.imp_right .inl
    · exact .inr (.inr hmem)

/-- **The smallest and the largest of some positions are one if they all are.** -/
theorem extremes_eq_iff (hne : l ≠ []) :
    l.foldl (fun minP pos => if pos < minP then pos else minP) (-1) =
      l.foldl (fun maxP pos => if pos > maxP then pos else maxP) 0 ↔
      ∀ pos ∈ l, ∀ pos' ∈ l, pos = pos' := by
  obtain ⟨hmin, -, hle⟩ := @foldl_extremal (fun a b => a.toNat ≤ b.toNat)
      (fun minP pos => if pos < minP then pos else minP)
    (fun _ => le_rfl) (fun _ _ _ => le_trans) (fun m x => by split_ifs with h <;> rw [BitVec.lt_def] at h <;>
      simp <;> omega)
    l (-1)
  obtain ⟨hmax, -, hge⟩ := @foldl_extremal (fun a b => b.toNat ≤ a.toNat)
      (fun maxP pos => if pos > maxP then pos else maxP)
    (fun _ => le_rfl) (fun _ _ _ h h' => le_trans h' h)
    (fun m x => by split_ifs with h <;> rw [gt_iff_lt, BitVec.lt_def] at h <;> simp <;> omega) l 0
  generalize l.foldl (fun minP pos => if pos < minP then pos else minP) (-1) = minP at *
  generalize l.foldl (fun maxP pos => if pos > maxP then pos else maxP) 0 = maxP at *
  constructor
  · rintro rfl pos hpos pos' hpos'
    have h₁ := hle pos hpos
    have h₂ := hge pos hpos
    have h₃ := hle pos' hpos'
    have h₄ := hge pos' hpos'
    exact BitVec.eq_of_toNat_eq (by omega)
  · intro hall
    obtain ⟨x, hx⟩ := List.exists_mem_of_ne_nil l hne
    have h₁ := hle x hx
    have h₂ := hge x hx
    have hxlt := x.isLt
    -- the initial values are taken only if the positions are those
    have hminx : minP = x := by
      rcases hmin with rfl | hmin
      · exact BitVec.eq_of_toNat_eq (by have : (-1 : BitVec 16).toNat = 65535 := rfl; omega)
      · exact hall minP hmin x hx
    have hmaxx : maxP = x := by
      rcases hmax with rfl | hmax
      · exact BitVec.eq_of_toNat_eq (by have : (0 : BitVec 16).toNat = 0 := rfl; omega)
      · exact hall maxP hmax x hx
    rw [hminx, hmaxx]

/-- The message is made of segments between the smallest and the largest of the positions, clamped. -/
theorem message_eq (fuel : ℕ) (hout : ¬∀ pos ∈ poss, (p.posLimits d).first ≤ pos ∧ pos ≤ (p.posLimits d).last) :
    p.message fuel d poss = (p.segments fuel
      ((poss.map (p.posLimits d).clamp).foldl (fun minP pos => if pos < minP then pos else minP) (-1))
      ((poss.map (p.posLimits d).clamp).foldl (fun maxP pos => if pos > maxP then pos else maxP) 0)).map fun
        _ => true := by
  have hany : poss.any (p.posLimits d).outside = true := by
    rw [List.any_eq_true]
    simp only [not_forall, exists_prop] at hout
    exact hout.imp fun pos h => ⟨h.1, outside_iff.2 h.2⟩
  rw [message, if_pos hany]

theorem message_inside (hin : ∀ pos ∈ poss, (p.posLimits d).first ≤ pos ∧ pos ≤ (p.posLimits d).last) (fuel : ℕ) :
    p.message fuel d poss = some false := by
  rw [message, if_neg]
  rw [List.any_eq_true]
  rintro ⟨pos, hpos, hout⟩
  exact outside_iff.1 hout (hin pos hpos)

theorem clamped_eq_iff (hne : poss ≠ []) :
    (poss.map (p.posLimits d).clamp).foldl (fun minP pos => if pos < minP then pos else minP) (-1) =
        (poss.map (p.posLimits d).clamp).foldl (fun maxP pos => if pos > maxP then pos else maxP) 0 ↔
          p.Pressed d poss := by
  rw [extremes_eq_iff (by simpa using hne), Pressed]
  simp only [List.forall_mem_map]

theorem message_outside (hne : poss ≠ []) (hout : ¬∀ pos ∈ poss, (p.posLimits d).first ≤ pos ∧ pos ≤
    (p.posLimits d).last)
    (h : p.Pressed d poss ∨ p.totalOverlap < p.patchSize) : Settles (fun fuel => p.message fuel d poss) true := by
  obtain ⟨l, hl, -⟩ := segments_settles (h.imp_left (clamped_eq_iff hne).2)
  simp only [message_eq _ hout]
  exact hl.map fun _ => true

theorem message_never (hne : poss ≠ []) (hout : ¬∀ pos ∈ poss, (p.posLimits d).first ≤ pos ∧ pos ≤ (p.posLimits d).last)
    (hpressed : ¬p.Pressed d poss) (hoverlap : ¬p.totalOverlap < p.patchSize) (fuel : ℕ) :
      p.message fuel d poss = none := by
  rw [message_eq fuel hout, segments_never (mt (clamped_eq_iff hne).1 hpressed) hoverlap]
  rfl

end Positions

/-! ## The check -/

section Check

variable {p : Placing} {d : Direction} {l : List (BitVec 16)}

/-- A direction is dealt with: its positions are found, and it is found out whether one is outside. -/
structure Handled (p : Placing) (d : Direction) (l : List (BitVec 16)) (b : Bool) : Prop where
  found : Settles (fun fuel => p.positions fuel d) l
  represents : Represents l (p.used d)
  ne_nil : l ≠ []
  checked : Settles (fun fuel => p.message fuel d l) b
  inside : b = false ↔ ∀ pos ∈ p.used d, (p.posLimits d).first ≤ pos ∧ pos ≤ (p.posLimits d).last

/-- What lies between positions within the limits is within them. -/
theorem Represents.inside_iff {s : Span} {used : List (BitVec 16)} (h : Represents l used) :
    (∀ pos ∈ l, s.first ≤ pos ∧ pos ≤ s.last) ↔ ∀ pos ∈ used, s.first ≤ pos ∧ pos ≤ s.last :=
  h.forall_iff fun u u' pos hu hu' hlow hhigh => by
    simp only [BitVec.le_def] at hu hu' ⊢
    omega

theorem handled_of_ends (h : p.totalOverlap < p.patchSize ∨ p.EndsIn d) : ∃ l b, p.Handled d l b := by
  have hfound : d.subImagePos = [] → (p.posLimits d).first = (p.posLimits d).last ∨ p.totalOverlap < p.patchSize := by
    intro hnil
    rcases h with h | h
    · exact .inr h
    · rw [EndsIn, if_pos hnil] at h
      exact .inl h
  obtain ⟨l, hl, hrep, hne, hgiven⟩ := positions_settles hfound
  by_cases hin : ∀ pos ∈ l, (p.posLimits d).first ≤ pos ∧ pos ≤ (p.posLimits d).last
  · exact ⟨l, false, hl, hrep, hne, ⟨0, fun fuel _ => message_inside hin fuel⟩, iff_of_true rfl (hrep.inside_iff.1 hin)⟩
  · have hends : p.Pressed d l ∨ p.totalOverlap < p.patchSize := by
      rcases h with h | h
      · exact .inr h
      · by_cases hnil : d.subImagePos = []
        · -- the one position there is
          rw [EndsIn, if_pos hnil] at h
          refine absurd (hrep.inside_iff.2 ?_) hin
          rw [used, if_pos hnil, h]
          simp
        · rw [EndsIn, if_neg hnil, ← hgiven hnil] at h
          exact .inl (h.resolve_left hin)
    exact ⟨l, true, hl, hrep, hne, message_outside hne hin hends,
      iff_of_false (fun h => Bool.false_ne_true h.symm) (mt hrep.inside_iff.2 hin)⟩

/-- A direction that is dealt with ends. -/
theorem ends_of_message {fuel : ℕ} {b : Bool} (hne : l ≠ []) (hgiven : d.subImagePos ≠ [] → l = d.subImagePos)
    (hfound : d.subImagePos = [] → (p.posLimits d).first = (p.posLimits d).last ∨ p.totalOverlap < p.patchSize)
    (h : p.message fuel d l = some b) : p.totalOverlap < p.patchSize ∨ p.EndsIn d := by
  by_contra hnot
  obtain ⟨hoverlap, hends⟩ := not_or.1 hnot
  by_cases hnil : d.subImagePos = []
  · rw [EndsIn, if_pos hnil] at hends
    exact (hfound hnil).elim hends hoverlap
  · rw [EndsIn, if_neg hnil, ← hgiven hnil, not_or] at hends
    exact absurd ((message_never hne hends.1 hends.2 hoverlap fuel).symm.trans h) (Option.some_ne_none b).symm

/-- The stages of the check, one after the other. -/
theorem check_iff {lx ly : List (BitVec 16)} {r : Bool × List (BitVec 16) × List (BitVec 16)}
    (hnil : p.subImagePosXY = [])
    (hx : Settles (fun fuel => p.positions fuel p.x) lx) (hy : Settles (fun fuel => p.positions fuel p.y) ly) :
    Settles p.checkPatchPositions r ↔ Settles (p.answer lx ly) r := by
  have hcheck : p.checkPatchPositions = fun fuel => (p.positions fuel p.x).bind fun subImagePosX =>
      (p.positions fuel p.y).bind fun subImagePosY => p.answer subImagePosX subImagePosY fuel := by
    funext fuel
    rw [checkPatchPositions, if_pos hnil]
  rw [hcheck, hx.bind_iff (g := fun lx fuel => (p.positions fuel p.y).bind fun ly => p.answer lx ly fuel),
    hy.bind_iff (g := fun ly fuel => p.answer lx ly fuel)]

/-- **Both directions dealt with**, the check accepts if neither has a position outside. -/
theorem check_of_handled {lx ly : List (BitVec 16)} {bx b : Bool} (hnil : p.subImagePosXY = [])
    (hx : p.Handled p.x lx bx)
    (hy : p.Handled p.y ly b) : Settles p.checkPatchPositions (!(bx || b), lx, ly) := by
  have hanswer : p.answer lx ly = fun fuel => (p.message fuel p.x lx).bind fun xOutside =>
      (p.message fuel p.y ly).map fun yOutside => (!(xOutside || yOutside), lx, ly) := by
    funext fuel
    rw [answer, if_neg (not_or.2 ⟨hx.ne_nil, hy.ne_nil⟩)]
  rw [check_iff hnil hx.found hy.found, hanswer,
    hx.checked.bind_iff (g := fun xOutside fuel => (p.message fuel p.y ly).map fun yOutside =>
      (!(xOutside || yOutside), lx, ly))]
  exact hy.checked.map fun yOutside => (!(bx || yOutside), lx, ly)

/-- Positions that are found within some rounds. -/
theorem found_of_positions {fuel : ℕ} (h : p.positions fuel d = some l) :
    d.subImagePos = [] → (p.posLimits d).first = (p.posLimits d).last ∨ p.totalOverlap < p.patchSize := by
  intro hnil
  by_contra hnot
  obtain ⟨hne, hoverlap⟩ := not_or.1 hnot
  exact absurd ((positions_never hnil hne hoverlap fuel).symm.trans h) (Option.some_ne_none l).symm

/-- The check does not end unless both directions do. -/
theorem ends_of_check {r : Bool × List (BitVec 16) × List (BitVec 16)} (hnil : p.subImagePosXY = [])
    (h : Settles p.checkPatchPositions r) : p.totalOverlap < p.patchSize ∨ (p.EndsIn p.y ∧ p.EndsIn p.x) := by
  have hstages := h
  obtain ⟨n, hn⟩ := hstages
  have hcheck := hn n le_rfl
  rw [checkPatchPositions, if_pos hnil] at hcheck
  obtain ⟨lx', hlx', hcheck⟩ := Option.bind_eq_some_iff.1 hcheck
  obtain ⟨ly', hly', -⟩ := Option.bind_eq_some_iff.1 hcheck
  have hfx := found_of_positions hlx'
  have hfy := found_of_positions hly'
  obtain ⟨lx, hlx, -, hnex, hgx⟩ := positions_settles hfx
  obtain ⟨ly, hly, -, hney, hgy⟩ := positions_settles hfy
  obtain ⟨m, hm⟩ := (check_iff hnil hlx hly).1 h
  have hanswer := hm m le_rfl
  rw [answer, if_neg (not_or.2 ⟨hnex, hney⟩)] at hanswer
  obtain ⟨bx, hbx, hanswer⟩ := Option.bind_eq_some_iff.1 hanswer
  obtain ⟨b, hb, -⟩ := Option.map_eq_some_iff.1 hanswer
  rcases ends_of_message hnex hgx hfx hbx with hoverlap | hx
  · exact .inl hoverlap
  · exact (ends_of_message hney hgy hfy hb).imp_right fun hy => ⟨hy, hx⟩

end Check

/-! ## The patches -/

section Patches

variable {p : Placing} {lx ly : List (BitVec 16)}

theorem length_splitXY : ∀ {l : List (BitVec 16)} {i : ℕ},
    (splitXY i l).1.length + (if i % 2 = 1 then l.length % 2 else 0) = (splitXY i l).2.length + if i % 2 =
      1 then 0 else l.length % 2
  | [], i => by simp [splitXY]
  | pos :: rest, i => by
    have ih := @length_splitXY rest (i + 1)
    rw [splitXY]
    rcases Nat.mod_two_eq_zero_or_one i with hi | hi
    · rw [if_pos (by omega), if_pos (by omega)] at ih
      simp only [hi, zero_ne_one, if_false, List.length_cons]
      omega
    · rw [if_neg (by omega), if_neg (by omega)] at ih
      simp only [hi, if_true, List.length_cons]
      omega

/-- The patches of the pairs are right if both coordinates of all of them are. -/
theorem forall_zip_iff {Q R : BitVec 16 → Prop} : ∀ {lx ly : List (BitVec 16)}, lx.length = ly.length →
    ((∀ q ∈ lx.zip ly, Q q.2 ∧ R q.1) ↔ (∀ y ∈ ly, Q y) ∧ ∀ x ∈ lx, R x)
  | [], [], _ => by simp
  | x :: lx, y :: ly, h => by
    rw [List.zip_cons_cons, List.forall_mem_cons, forall_zip_iff (Nat.succ.inj h), List.forall_mem_cons,
        List.forall_mem_cons,
      and_and_and_comm]

/-- The patches of the grid are right if all coordinates are. -/
theorem forall_grid_iff {Q R : BitVec 16 → Prop} (hx : lx ≠ []) (hy : ly ≠ []) :
    (∀ y ∈ ly, ∀ x ∈ lx, Q y ∧ R x) ↔ (∀ y ∈ ly, Q y) ∧ ∀ x ∈ lx, R x := by
  obtain ⟨x, hxmem⟩ := List.exists_mem_of_ne_nil lx hx
  obtain ⟨y, hymem⟩ := List.exists_mem_of_ne_nil ly hy
  exact ⟨fun h => ⟨fun y hy => (h y hy x hxmem).1, fun x hx => (h y hymem x hx).2⟩, fun h y hy x hx =>
    ⟨h.1 y hy, h.2 x hx⟩⟩

/-- What `Placed` asks for of a patch. -/
def Right (p : Placing) (patch : Cut × Cut) : Prop :=
  (p.patchSize.toNat ≤ p.size p.y → patch.1.Within p.patchSize.toNat (p.size p.y)) ∧
    (p.patchSize.toNat ≤ p.size p.x → patch.2.Within p.patchSize.toNat (p.size p.x))

theorem right_iff (heven : p.patchSize.toNat % 2 = 0) (y x : BitVec 16) : p.Right (p.cut y, p.cut x) ↔
    (p.patchSize.toNat ≤ p.size p.y → p.Room (p.size p.y) y) ∧
      (p.patchSize.toNat ≤ p.size p.x → p.Room (p.size p.x) x) := by
  rw [Right, within_iff heven (p.size_le p.y), within_iff heven (p.size_le p.x)]

theorem forall_room_iff {n : ℕ} {l used : List (BitVec 16)} (h : Represents l used) :
    (∀ pos ∈ l, p.patchSize.toNat ≤ n → p.Room n pos) ↔ ∀ pos ∈ used, p.patchSize.toNat ≤ n → p.Room n pos :=
  h.forall_iff fun u u' pos hu hu' hlow hhigh hle => by
    obtain ⟨h₁, h₂, -⟩ := hu hle
    obtain ⟨-, -, h₃⟩ := hu' hle
    exact ⟨by omega, by omega, by omega⟩

/-- If the patches of `preProcess` are right, be the positions pairs or a grid. -/
theorem preProcess_iff (heven : p.patchSize.toNat % 2 = 0)
    (h : p.subImagePosXY ≠ [] ∧ lx.length = ly.length ∨ p.subImagePosXY = [] ∧ lx ≠ [] ∧ ly ≠ []) :
    (∀ patch ∈ p.preProcess lx ly, p.Right patch) ↔ (p.y.imageSize ≠ 0 ∨ p.x.imageSize ≠ 0) →
      (∀ pos ∈ ly, p.patchSize.toNat ≤ p.size p.y → p.Room (p.size p.y) pos) ∧
      ∀ pos ∈ lx, p.patchSize.toNat ≤ p.size p.x → p.Room (p.size p.x) pos := by
  rw [preProcess, ← not_and_or]
  by_cases hzero : p.y.imageSize = 0 ∧ p.x.imageSize = 0
  · rw [if_pos hzero]
    exact iff_of_true (fun patch h => absurd h List.not_mem_nil) fun h => absurd hzero h
  rw [if_neg hzero, imp_iff_right hzero]
  rcases h with ⟨hne, hlen⟩ | ⟨hnil, hx, hy⟩
  · rw [if_pos hne, List.forall_mem_map]
    simp only [right_iff heven]
    exact forall_zip_iff (Q := fun y => p.patchSize.toNat ≤ p.size p.y → p.Room (p.size p.y) y)
      (R := fun x => p.patchSize.toNat ≤ p.size p.x → p.Room (p.size p.x) x) hlen
  · rw [if_neg (not_not.2 hnil), List.forall_mem_flatMap]
    simp only [List.forall_mem_map, right_iff heven]
    exact forall_grid_iff hx hy

/-- The check of two directions that are dealt with. -/
theorem placed_of_handled {bx b : Bool} (heven : p.patchSize.toNat % 2 = 0) (hnil : p.subImagePosXY = [])
    (hx : p.Handled p.x lx bx) (hy : p.Handled p.y ly b) : p.Placed ↔ p.Fits := by
  have hsettles := check_of_handled hnil hx hy
  have haccepted : (!(bx || b)) = true ↔ p.Accepted := by
    rw [Bool.not_eq_true', Bool.or_eq_false_iff, hx.inside, hy.inside, Accepted]
    simp only [List.forall_mem_cons, List.not_mem_nil, IsEmpty.forall_iff, implies_true, and_true]
    exact and_comm
  have hroom := preProcess_iff heven (.inr ⟨hnil, hx.ne_nil, hy.ne_nil⟩)
  rw [forall_room_iff hx.represents, forall_room_iff hy.represents] at hroom
  have hplaced : p.Placed ↔ (p.Accepted → ∀ patch ∈ p.preProcess lx ly, p.Right patch) := by
    rw [← haccepted]
    constructor
    · rintro ⟨r, hr, hright⟩
      obtain rfl := hsettles.unique hr
      exact hright
    · exact fun h => ⟨_, hsettles, h⟩
  rw [hplaced, hroom, Fits, if_pos hnil]
  simp only [List.forall_mem_cons, List.not_mem_nil, IsEmpty.forall_iff, implies_true, and_true]
  constructor
  · intro h himage haccepted
    obtain ⟨hy, hx⟩ := h haccepted himage
    exact ⟨fun hle pos hpos => hy pos hpos hle, fun hle pos hpos => hx pos hpos hle⟩
  · intro h haccepted himage
    obtain ⟨hy, hx⟩ := h himage haccepted
    exact ⟨fun pos hpos hle => hy hle pos hpos, fun pos hpos hle => hx hle pos hpos⟩

/-- **The patches are placed right exactly if the check ends and what it accepts fits.** -/
theorem placed_iff (heven : p.patchSize.toNat % 2 = 0) (hpairs : p.subImagePosXY.length % 2 = 0) :
    p.Placed ↔ p.Ends ∧ p.Fits := by
  by_cases hnil : p.subImagePosXY = []
  · by_cases hends : p.totalOverlap < p.patchSize ∨ (p.EndsIn p.y ∧ p.EndsIn p.x)
    · obtain ⟨lx, bx, hx⟩ := handled_of_ends (hends.imp_right And.right)
      obtain ⟨ly, b, hy⟩ := handled_of_ends (hends.imp_right And.left)
      rw [placed_of_handled heven hnil hx hy]
      exact (and_iff_right (.inr hends)).symm
    · refine iff_of_false ?_ fun h => hends (h.1.resolve_left (not_not.2 hnil))
      rintro ⟨r, hr, -⟩
      exact hends (ends_of_check hnil hr)
  · have hlen : (splitXY 0 p.subImagePosXY).1.length = (splitXY 0 p.subImagePosXY).2.length := by
      have h := @length_splitXY p.subImagePosXY 0
      rw [hpairs] at h
      simpa using h
    have hcheck : Settles p.checkPatchPositions (true, splitXY 0 p.subImagePosXY) :=
      ⟨0, fun fuel _ => by rw [checkPatchPositions, if_neg hnil]⟩
    have hplaced : p.Placed ↔ ∀ patch ∈ p.preProcess (splitXY 0 p.subImagePosXY).1
      (splitXY 0 p.subImagePosXY).2, p.Right patch := by
      constructor
      · rintro ⟨r, hr, hright⟩
        obtain rfl := hcheck.unique hr
        exact hright rfl
      · exact fun h => ⟨_, hcheck, fun _ => h⟩
    rw [hplaced, preProcess_iff heven (.inl ⟨hnil, hlen⟩), Fits, if_neg hnil, Ends]
    exact (and_iff_right (.inl hnil)).symm

end Patches

end Placing

end Redux.Momfbd
