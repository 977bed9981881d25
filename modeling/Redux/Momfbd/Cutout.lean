import Mathlib.Data.BitVec
import Mathlib.Algebra.Order.Floor.Semiring
import Mathlib.Data.Rat.Floor
import Redux.Lib.Rounding
import Redux.Util.Array
import Redux.Util.Region

/-!
# Momfbd.Cutout — the part of an image that a patch is cut out of

`adjustCutout` takes a patch around the rounded position, expands it by `maxLocalShift`, and shrinks it again
by how far the position lies outside the limits for that; `initPatch` mirrors what has been cut out, and finds
the patch in it.  The limits are unsigned numbers of 16 bits, they cross in images that are too small, and
the distance from them is taken of the position before it is rounded.  `framed_iff` says for which
positions the patch and its shifts are cut out.
-/

namespace Redux.Momfbd.Cutout

open Lib Util Util.Regions

/-! ## Model -/

/-- What a channel and its object say of cut-outs. -/
structure Channel where
  imgSize : PointType (BitVec 16)
  patchSize : BitVec 16
  maxLocalShift : BitVec 16
  flipX : Bool
  flipY : Bool

/-- The part of `ChannelData` that is about cut-outs. -/
structure ChannelData where
  cutoutPosition : PointType ℤ
  cutoutRegion : RegionType ℤ
  patchStart : PointType ℤ

/-- `expand( rhs )`. -/
def expand (r : RegionType ℤ) (n : ℤ) : RegionType ℤ :=
  ⟨⟨r.normalize.first.y - n, r.normalize.first.x - n⟩, ⟨r.normalize.last.y + n, r.normalize.last.x + n⟩⟩

/-- `shrinkSigned( rhs )`. -/
def shrinkSigned (r : RegionType ℤ) (n : PointType ℤ) : RegionType ℤ :=
  ⟨⟨if n.y > 0 then r.first.y else r.first.y - n.y, if n.x > 0 then r.first.x else r.first.x - n.x⟩,
    ⟨if n.y > 0 then r.last.y - n.y else r.last.y, if n.x > 0 then r.last.x - n.x else r.last.x⟩⟩

namespace Channel

variable (ch : Channel)

def halfPatch : BitVec 16 := ch.patchSize / 2

/-- The limits for positions which leave room for shifts. -/
def clipRegion : RegionType ℕ :=
  ⟨⟨(ch.halfPatch + ch.maxLocalShift).toNat, (ch.halfPatch + ch.maxLocalShift).toNat⟩,
    ⟨(ch.imgSize.y - ch.halfPatch - ch.maxLocalShift).toNat, (ch.imgSize.x - ch.halfPatch - ch.maxLocalShift).toNat⟩⟩

/-- The patch around a position, with room for shifts. -/
def desiredPatch (cutoutPosition : PointType ℤ) : RegionType ℤ :=
  let first : PointType ℤ := ⟨cutoutPosition.y - ch.halfPatch.toNat, cutoutPosition.x - ch.halfPatch.toNat⟩
  expand ⟨first, ⟨(ch.patchSize.toNat - 1) + first.y, (ch.patchSize.toNat - 1) + first.x⟩⟩ ch.maxLocalShift.toNat

/-- The same, shrunk if the rounded position is not within the limits. -/
def actualPatch (localPos : PointType ℚ) : RegionType ℤ :=
  let cutoutPosition := localPos.map lround
  if ch.clipRegion.isInside Nat.cast cutoutPosition then ch.desiredPatch cutoutPosition
  else shrinkSigned (ch.desiredPatch cutoutPosition) ((ch.clipRegion.diff Nat.cast localPos).2.map lround)

/-- `adjustCutout` for a patch whose position is mapped to `localPos`; `none` for an exception. -/
def adjustCutout (localPos : PointType ℚ) : Option ChannelData :=
  if ch.imgSize.y = 0 ∧ ch.imgSize.x = 0 then none
  else
    let cutoutPosition := localPos.map lround
    let actualPatch := ch.actualPatch localPos
    some
      { cutoutPosition := cutoutPosition
        cutoutRegion := actualPatch
        patchStart :=
          ⟨if ch.flipY then actualPatch.last.y - (cutoutPosition.y + ch.halfPatch.toNat - 1)
            else cutoutPosition.y - ch.halfPatch.toNat - actualPatch.first.y,
          if ch.flipX then actualPatch.last.x - (cutoutPosition.x + ch.halfPatch.toNat - 1)
            else cutoutPosition.x - ch.halfPatch.toNat - actualPatch.first.x⟩ }

end Channel

/-- A frame, as it is or as a view. -/
structure Frame (α : Type) where
  sizeY : ℕ
  sizeX : ℕ
  pixel : ℕ → ℕ → α

namespace Frame

variable {α : Type} (d : Frame α)

/-- The limits of a view in a direction with `size` pixels. -/
def limits (size : ℕ) (first last : ℤ) : Arrays.Dim := Arrays.Array.limit ⟨size, 1, 0, size - 1, size⟩ first last

/-- `wrap( d, first.y, last.y, first.x, last.x )`. -/
def wrap (r : RegionType ℤ) : Frame α :=
  let y := limits d.sizeY r.first.y r.last.y
  let x := limits d.sizeX r.first.x r.last.x
  ⟨y.current, x.current, fun i j => d.pixel (y.first.toNat + i) (x.first.toNat + j)⟩

/-- `reverseX`. -/
def reverseX : Frame α := { d with pixel := fun y x => d.pixel y (d.sizeX - 1 - x) }

def swapRows (y z : ℕ) : Frame α :=
  { d with pixel := fun i => if i = y then d.pixel z else if i = z then d.pixel y else d.pixel i }

/-- `reverseY`. -/
def reverseY : Frame α := (List.range (d.sizeY / 2)).foldl (fun d y => d.swapRows y (d.sizeY - y - 1)) d

end Frame

/-- `getStorage`: what is cut out of a frame. -/
def ChannelData.getStorage {α : Type} (cd : ChannelData) (images : Frame α) : Frame α := images.wrap cd.cutoutRegion

/-- `patchRegion` of `initPatch`; the region of the data begins at zero, so that `getAsGlobal` leaves it there. -/
def Channel.patchRegion (ch : Channel) (cd : ChannelData) : RegionType ℤ :=
  let first : PointType (BitVec 16) := ⟨BitVec.ofInt 16 cd.patchStart.y, BitVec.ofInt 16 cd.patchStart.x⟩
  ⟨⟨first.y.toNat, first.x.toNat⟩, ⟨(ch.patchSize - 1 + first.y).toNat, (ch.patchSize - 1 + first.x).toNat⟩⟩

/-- `initPatch` for a frame: the sub-image, whose pixels have been multiplied by a scale. -/
def Channel.initPatch {α : Type} (ch : Channel) (cd : ChannelData) (scaled : α → α) (images : Frame α) : Frame α :=
  let images := { images with pixel := fun y x => scaled (images.pixel y x) }
  let images := if ch.flipX then images.reverseX else images
  let images := if ch.flipY then images.reverseY else images
  images.wrap (ch.patchRegion cd)

/-! ## What is promised -/

/-- In one direction, a patch of twice `h` pixels around `c` lies in the region from `a` to `b`, and with it `m`
more pixels on each side that has them; the region lies among `N` pixels. -/
structure Framed1 (N h m c a b : ℤ) : Prop where
  first_nonneg : 0 ≤ a
  last_lt : b < N
  first_le : a ≤ c - h
  le_last : c + h - 1 ≤ b
  shift_first : 0 ≤ c - h - m → a ≤ c - h - m
  shift_last : c + h - 1 + m < N → c + h - 1 + m ≤ b

/-- The same for the patches of a channel, in a direction of images of this size. -/
abbrev Channel.Framed1 (ch : Channel) (size : BitVec 16) : ℤ → ℤ → ℤ → Prop :=
  Cutout.Framed1 size.toNat ch.halfPatch.toNat ch.maxLocalShift.toNat

/-- The pixel of an image that is pixel `i` of a patch around `c`, which may be mirrored. -/
def source (flip : Bool) (c h : ℤ) (i : ℕ) : ℕ := (if flip then c + h - 1 - i else c - h + i).toNat

/-- The sub-image consists of the pixels of the patch. -/
def Addressed (ch : Channel) (cd : ChannelData) : Prop :=
  ∀ (α : Type) (scaled : α → α) (images : Frame α), images.sizeY = ch.imgSize.y.toNat →
    images.sizeX = ch.imgSize.x.toNat →
      let subImage := ch.initPatch cd scaled (cd.getStorage images)
      subImage.sizeY = ch.patchSize.toNat ∧ subImage.sizeX = ch.patchSize.toNat ∧
        ∀ i < ch.patchSize.toNat, ∀ j < ch.patchSize.toNat, subImage.pixel i j =
          scaled (images.pixel (source ch.flipY cd.cutoutPosition.y ch.halfPatch.toNat i)
            (source ch.flipX cd.cutoutPosition.x ch.halfPatch.toNat j))

/-- The cut-out is in the image, and it has the patch, with its shifts and in the right place. -/
def Framed (ch : Channel) (localPos : PointType ℚ) : Prop :=
  ∃ cd, ch.adjustCutout localPos = some cd ∧ cd.cutoutPosition = localPos.map lround ∧
    ch.Framed1 ch.imgSize.y cd.cutoutPosition.y cd.cutoutRegion.first.y cd.cutoutRegion.last.y ∧
    ch.Framed1 ch.imgSize.x cd.cutoutPosition.x cd.cutoutRegion.first.x cd.cutoutRegion.last.x ∧ Addressed ch cd

/-! ## When it is kept -/

/-- The rounded position leaves room for shifts on both sides. -/
def Clear (N h m : ℕ) (pos : ℚ) : Prop := (h + m : ℤ) ≤ lround pos ∧ lround pos + h + m ≤ N

/-- The rounded position leaves room for the patch. -/
def Within (N h : ℕ) (pos : ℚ) : Prop := (h : ℤ) ≤ lround pos ∧ lround pos + h ≤ N

/-- In one direction, there is room for the patch with its shifts, and the position does not lie a half before
the first one of all, nor before the first one that leaves room for shifts if the other direction is shrunk;
or there is one pixel less than that, and the position is a half that is not too large. -/
def Fits1 (N h m : ℕ) (pos : ℚ) (other : Prop) : Prop :=
  2 * (h + m) ≤ N ∧ (0 < m → pos ≠ h - 1 / 2) ∧ (pos = h + m - 1 / 2 → other) ∨
    2 * (h + m) = N + 1 ∧ ∃ k : ℤ, pos = k - 1 / 2 ∧ k + h + m ≤ N

namespace Channel

variable (ch : Channel) (size : BitVec 16) (pos : ℚ)

abbrev Clear : Prop := Cutout.Clear size.toNat ch.halfPatch.toNat ch.maxLocalShift.toNat pos

abbrev Within : Prop := Cutout.Within size.toNat ch.halfPatch.toNat pos

abbrev Fits1 (other : Prop) : Prop := Cutout.Fits1 size.toNat ch.halfPatch.toNat ch.maxLocalShift.toNat pos other

end Channel

/-- There are pixels in a patch, and it fits in both directions. -/
def Fits (ch : Channel) (localPos : PointType ℚ) : Prop :=
  0 < ch.patchSize.toNat ∧
    ch.Fits1 ch.imgSize.y localPos.y (ch.Clear ch.imgSize.x localPos.x) ∧
    ch.Fits1 ch.imgSize.x localPos.x (ch.Clear ch.imgSize.y localPos.y)

/-! ## One direction -/

section Direction

variable {N h m lo hi : ℕ} {c s : ℤ} {pos : ℚ}

/-- What `diff` says of a position, in one direction of a normal region. -/
def diff1 (lo hi : ℕ) (pos : ℚ) : ℚ := if pos < lo then pos - lo else if pos > hi then pos - hi else 0

/-- **By how much a region is shrunk**: by how far the rounded position lies outside, and by one more if the
position is a half which is not above the first limit. -/
theorem lround_diff1 (hle : lo ≤ hi) (hlow : (c : ℚ) - 1 / 2 ≤ pos) (hhigh : pos < c + 1 / 2) :
    lround (diff1 lo hi pos) = if pos + 1 / 2 = c ∧ c ≤ lo then c - lo - 1
      else if c < lo then c - lo else if hi < c then c - hi else 0 := by
  have hsub := fun k : ℕ => lround_sub (k := (k : ℤ)) hlow hhigh
  simp only [Int.cast_natCast] at hsub
  unfold diff1
  by_cases hlo : pos < lo
  · have hc : c ≤ lo := by
      by_contra hgt
      have : (lo : ℚ) + 1 ≤ c := by exact_mod_cast not_le.1 hgt
      linarith
    rw [if_pos hlo, hsub]
    split_ifs <;> omega
  · have hnot : ¬(pos + 1 / 2 = c ∧ c ≤ lo) := by
      rintro ⟨hhalf, hc⟩
      have : (c : ℚ) ≤ lo := by exact_mod_cast hc
      linarith
    have hc : ¬c < lo := by
      intro hlt
      have : (c : ℚ) + 1 ≤ lo := by exact_mod_cast hlt
      linarith
    rw [if_neg hlo, if_neg hnot, if_neg hc]
    by_cases hhi : pos > hi
    · have hnot : ¬(pos + 1 / 2 = c ∧ c ≤ hi) := by
        rintro ⟨hhalf, hc⟩
        have : (c : ℚ) ≤ hi := by exact_mod_cast hc
        linarith
      have hge : (hi : ℤ) ≤ c := by
        by_contra hlt
        have : (c : ℚ) + 1 ≤ hi := by exact_mod_cast not_le.1 hlt
        linarith
      rw [if_pos hhi, hsub, if_neg hnot]
      split_ifs <;> omega
    · have hge : ¬(hi : ℤ) < c := by
        intro hlt
        have : (hi : ℚ) + 1 ≤ c := by exact_mod_cast hlt
        linarith
      rw [if_neg hhi, if_neg hge, lround_zero]

/-- A position that lies a half before an integer. -/
theorem eq_half_iff {k : ℤ} (hlow : (c : ℚ) - 1 / 2 ≤ pos) (hhigh : pos < c + 1 / 2) :
    pos = k - 1 / 2 ↔ pos + 1 / 2 = c ∧ c = k := by
  constructor
  · rintro rfl
    have hle : (c : ℚ) ≤ k := by linarith
    have hlt : (k : ℚ) < c + 1 := by linarith
    have hck : c = k := by
      have hle' : c ≤ k := by exact_mod_cast hle
      have hlt' : k < c + 1 := by exact_mod_cast hlt
      omega
    subst hck
    exact ⟨by linarith, rfl⟩
  · rintro ⟨hhalf, rfl⟩
    linarith

theorem framed1_iff {a b : ℤ} {N h m : ℤ} : Framed1 N h m c a b ↔ 0 ≤ a ∧ b < N ∧ a ≤ c - h ∧ c + h - 1 ≤ b ∧
    (0 ≤ c - h - m → a ≤ c - h - m) ∧ (c + h - 1 + m < N → c + h - 1 + m ≤ b) :=
  ⟨fun ⟨h₁, h₂, h₃, h₄, h₅, h₆⟩ => ⟨h₁, h₂, h₃, h₄, h₅, h₆⟩, fun ⟨h₁, h₂, h₃, h₄, h₅, h₆⟩ => ⟨h₁, h₂, h₃, h₄, h₅, h₆⟩⟩

/-- **A region that is shrunk** is right in one direction exactly if there is room for the shifts and no half
spoils it, or if a half makes up for a pixel that is not there. -/
theorem framed1_shrunk_iff {half : Prop} [Decidable half] (hlow : (h : ℤ) ≤ c) (hhigh : c + h ≤ N)
    (hroom : h + m ≤ N) (hs : s = if half ∧ c ≤ min (h + m) (N - h - m) then c - min (h + m) (N - h - m) - 1
      else if c < min (h + m) (N - h - m) then c - min (h + m) (N - h - m)
      else if max (h + m) (N - h - m) < c then c - max (h + m) (N - h - m) else 0) :
    Framed1 N h m c (if s > 0 then c - h - m else c - h - m - s) (if s > 0 then c + h - 1 + m - s else c + h - 1 + m) ↔
      2 * (h + m) ≤ N ∧ ¬(half ∧ c = h) ∧ ¬(half ∧ c = h + m) ∨ 2 * (h + m) = N + 1 ∧ half ∧ c + h + m ≤ N := by
  rw [framed1_iff]
  by_cases hhalf : half
  · simp only [hhalf, true_and] at hs ⊢
    split_ifs at hs ⊢ <;> omega
  · simp only [hhalf, false_and, not_false_eq_true, and_true, and_false, or_false, ↓reduceIte] at hs ⊢
    split_ifs at hs ⊢ <;> omega

theorem le_of_le_pos {n : ℕ} (hhigh : pos < c + 1 / 2) (h : (n : ℚ) ≤ pos) : (n : ℤ) ≤ c := by
  by_contra hlt
  have : (c : ℚ) + 1 ≤ n := by exact_mod_cast not_le.1 hlt
  linarith

theorem le_of_pos_le {n : ℕ} (hlow : (c : ℚ) - 1 / 2 ≤ pos) (h : pos ≤ n) : c ≤ (n : ℤ) := by
  by_contra hlt
  have : (n : ℚ) + 1 ≤ c := by exact_mod_cast not_le.1 hlt
  linarith

/-- What a promise says of the rounded position. -/
theorem fits1_iff {other : Prop} (hlow : (c : ℚ) - 1 / 2 ≤ pos) (hhigh : pos < c + 1 / 2) :
    Fits1 N h m pos other ↔
      2 * (h + m) ≤ N ∧ (0 < m → ¬(pos + 1 / 2 = c ∧ c = h)) ∧ (pos + 1 / 2 = c ∧ c = (h : ℤ) + m → other) ∨
        2 * (h + m) = N + 1 ∧ pos + 1 / 2 = c ∧ c + h + m ≤ N := by
  have heq := fun k : ℤ => eq_half_iff (k := k) hlow hhigh
  have hfirst := heq h
  have hroom := heq (h + m)
  rw [Int.cast_natCast] at hfirst
  rw [Int.cast_add, Int.cast_natCast, Int.cast_natCast] at hroom
  have hhalf : (∃ k : ℤ, pos = k - 1 / 2 ∧ k + h + m ≤ N) ↔ pos + 1 / 2 = c ∧ c + h + m ≤ N := by
    constructor
    · rintro ⟨k, hk, hle⟩
      obtain ⟨hhalf, rfl⟩ := (heq k).1 hk
      exact ⟨hhalf, hle⟩
    · rintro ⟨hhalf, hle⟩
      exact ⟨c, (heq c).2 ⟨hhalf, rfl⟩, hle⟩
  rw [Fits1, hhalf, ne_eq, hfirst, hroom]

/-- **A position within the limits is framed.** -/
theorem framed1_of_clear (hfirst : (h + m : ℤ) ≤ c) (hlast : c + h + m ≤ N) :
    Framed1 N h m c (c - h - m) (c + h - 1 + m) := by
  rw [framed1_iff]
  omega

/-- It fits, if the other direction is not shrunk either. -/
theorem fits1_of_clear {other : Prop} (hbounds : (c : ℚ) - 1 / 2 ≤ pos ∧ pos < c + 1 / 2) (hfirst : (h + m : ℤ) ≤ c)
    (hlast : c + h + m ≤ N) (hother : other) : Fits1 N h m pos other := by
  refine (fits1_iff hbounds.1 hbounds.2).2 (Or.inl ⟨by omega, fun hm hhalf => ?_, fun _ => hother⟩)
  omega

/-- **A region that is shrunk is right in one direction exactly if the position fits.** -/
theorem framed1_shrunk_iff_fits1 {other : Prop} (hbounds : (c : ℚ) - 1 / 2 ≤ pos ∧ pos < c + 1 / 2)
    (hlow : (h : ℤ) ≤ c) (hhigh : c + h ≤ N) (hroom : h + m ≤ N)
    (hnot : ¬(((h + m : ℤ) ≤ c ∧ c + h + m ≤ N) ∧ other))
    (hs : s = lround (diff1 (min (h + m) (N - h - m)) (max (h + m) (N - h - m)) pos)) :
    Framed1 N h m c (if s > 0 then c - h - m else c - h - m - s) (if s > 0 then c + h - 1 + m - s else c + h - 1 + m) ↔
      Fits1 N h m pos other := by
  rw [lround_diff1 min_le_max hbounds.1 hbounds.2] at hs
  rw [framed1_shrunk_iff hlow hhigh hroom hs, fits1_iff hbounds.1 hbounds.2]
  refine or_congr_left (and_congr_right fun hspan => ⟨?_, ?_⟩)
  · rintro ⟨hfirst, hshift⟩
    exact ⟨fun _ => hfirst, fun hhalf => absurd hhalf hshift⟩
  · rintro ⟨hfirst, hother⟩
    have hshift : ¬(pos + 1 / 2 = c ∧ c = (h : ℤ) + m) := fun hhalf =>
      hnot ⟨⟨by omega, by omega⟩, hother hhalf⟩
    refine ⟨fun hhalf => ?_, hshift⟩
    rcases Nat.eq_zero_or_pos m with rfl | hm
    · exact hshift ⟨hhalf.1, by omega⟩
    · exact hfirst hm hhalf

/-- Without room for the patch and the shifts on one side, a region that is shrunk by nothing on that side ends
outside. -/
theorem not_framed1_of_lt {a b : ℤ} (hlow : (h : ℤ) ≤ c) (hroom : N < h + m) (hb : c + h - 1 + m ≤ b) :
    ¬Framed1 N h m c a b := by
  intro hframed
  have := hframed.last_lt
  omega

theorem not_fits1_of_lt {other : Prop} (hroom : N < h + m) : ¬Fits1 N h m pos other := by
  rintro (⟨hspan, -⟩ | ⟨hspan, -⟩) <;> omega

end Direction

/-! ## Both directions -/

section Regions

variable {ch : Channel} {p : PointType ℚ} {c : PointType ℤ}

theorem desiredPatch_eq (heven : ch.patchSize.toNat = 2 * ch.halfPatch.toNat) (hpos : 0 < ch.patchSize.toNat) :
    ch.desiredPatch c = ⟨⟨c.y - ch.halfPatch.toNat - ch.maxLocalShift.toNat,
        c.x - ch.halfPatch.toNat - ch.maxLocalShift.toNat⟩,
      ⟨c.y + ch.halfPatch.toNat - 1 + ch.maxLocalShift.toNat,
        c.x + ch.halfPatch.toNat - 1 + ch.maxLocalShift.toNat⟩⟩ := by
  have hle : ∀ first : ℤ, ¬first > (ch.patchSize.toNat - 1) + first := fun first => by omega
  simp only [Channel.desiredPatch, expand, RegionType.normalize, hle, ↓reduceIte]
  congr 2 <;> omega

/-- The limits, where nothing wraps. -/
theorem clipRegion_eq (hy : ch.halfPatch.toNat + ch.maxLocalShift.toNat ≤ ch.imgSize.y.toNat)
    (hx : ch.halfPatch.toNat + ch.maxLocalShift.toNat ≤ ch.imgSize.x.toNat) :
    ch.clipRegion = ⟨⟨ch.halfPatch.toNat + ch.maxLocalShift.toNat, ch.halfPatch.toNat + ch.maxLocalShift.toNat⟩,
      ⟨ch.imgSize.y.toNat - ch.halfPatch.toNat - ch.maxLocalShift.toNat,
        ch.imgSize.x.toNat - ch.halfPatch.toNat - ch.maxLocalShift.toNat⟩⟩ := by
  have hy' := ch.imgSize.y.isLt
  have hx' := ch.imgSize.x.isLt
  simp only [Channel.clipRegion, BitVec.toNat_add, BitVec.toNat_sub]
  congr 2 <;> omega

theorem normalize_eq (r : RegionType ℕ) : r.normalize =
    ⟨⟨min r.first.y r.last.y, min r.first.x r.last.x⟩, ⟨max r.first.y r.last.y, max r.first.x r.last.x⟩⟩ := by
  rw [RegionType.normalize]
  congr 2 <;> split_ifs <;> omega

theorem diff_eq {r : RegionType ℕ} (h : ¬r.isInside Nat.cast p = true) : (r.diff Nat.cast p).2 =
    ⟨diff1 (min r.first.y r.last.y) (max r.first.y r.last.y) p.y,
      diff1 (min r.first.x r.last.x) (max r.first.x r.last.x) p.x⟩ := by
  rw [RegionType.diff, if_neg h, normalize_eq]
  rfl

/-- What is rounded to a point outside is outside. -/
theorem not_isInside_of_lround {r : RegionType ℕ} (hy : (c.y : ℚ) - 1 / 2 ≤ p.y ∧ p.y < c.y + 1 / 2)
    (hx : (c.x : ℚ) - 1 / 2 ≤ p.x ∧ p.x < c.x + 1 / 2) (h : ¬r.isInside Nat.cast c = true) :
    ¬r.isInside Nat.cast p = true := by
  intro hin
  obtain ⟨⟨hfy, hfx⟩, hly, hlx⟩ := RegionType.isInside_iff.1 hin
  refine h (RegionType.isInside_iff.2 ⟨⟨le_of_le_pos hy.2 hfy, le_of_le_pos hx.2 hfx⟩, ?_, ?_⟩)
  · exact le_of_pos_le hy.1 hly
  · exact le_of_pos_le hx.1 hlx

/-- The limits cross, or the region is shrunk in each direction by itself. -/
theorem actualPatch_eq (hc : p.map lround = c) (hy : (c.y : ℚ) - 1 / 2 ≤ p.y ∧ p.y < c.y + 1 / 2)
    (hx : (c.x : ℚ) - 1 / 2 ≤ p.x ∧ p.x < c.x + 1 / 2) :
    ch.actualPatch p = if ch.clipRegion.isInside Nat.cast c then ch.desiredPatch c
      else shrinkSigned (ch.desiredPatch c)
        ⟨lround (diff1 (min ch.clipRegion.first.y ch.clipRegion.last.y)
            (max ch.clipRegion.first.y ch.clipRegion.last.y) p.y),
          lround (diff1 (min ch.clipRegion.first.x ch.clipRegion.last.x)
            (max ch.clipRegion.first.x ch.clipRegion.last.x) p.x)⟩ := by
  rw [Channel.actualPatch, hc]
  split
  · rfl
  · next hout => rw [diff_eq (not_isInside_of_lround hy hx hout)]; rfl

/-- In an image that is too small the last limit is beyond it. -/
theorem limit_wraps {N h m : BitVec 16} (hle : h.toNat ≤ N.toNat) (hlt : N.toNat < h.toNat + m.toNat) :
    N.toNat - h.toNat < (N - h - m).toNat := by
  have hN := N.isLt
  have hm := m.isLt
  rw [BitVec.toNat_sub, BitVec.toNat_sub]
  omega

theorem diff1_nonpos {lo hi : ℕ} {pos : ℚ} (h : pos ≤ hi) : diff1 lo hi pos ≤ 0 := by
  unfold diff1
  split_ifs <;> linarith

/-- Beyond the last limit nothing is shrunk. -/
theorem lround_diff1_nonpos {N h m lo hi : ℕ} {c : ℤ} {pos : ℚ} (hwithin : c + h ≤ N) (hhigh : pos < c + 1 / 2)
    (hlimit : N - h < m) (hhi : m ≤ hi) : lround (diff1 lo hi pos) ≤ 0 := by
  refine lround_nonpos (diff1_nonpos ?_)
  have hle : c + 1 ≤ (hi : ℤ) := by omega
  have : (c : ℚ) + 1 ≤ hi := by exact_mod_cast hle
  linarith

/-- The rounded position, if it leaves room for a patch that has pixels. -/
theorem rounded {N h : ℕ} {pos : ℚ} (hpos : 0 < h) (hwithin : Within N h pos) :
    (lround pos : ℚ) - 1 / 2 ≤ pos ∧ pos < lround pos + 1 / 2 := by
  have hc : 0 < lround pos := by
    have := hwithin.1
    omega
  exact (lround_eq_iff_of_pos hc).1 rfl

/-- Where there is room for the patch and the shifts on one side: the region is right in both directions exactly
if the position fits. -/
theorem framed1_iff_of_room (heven : ch.patchSize.toNat = 2 * ch.halfPatch.toNat) (hpos : 0 < ch.patchSize.toNat)
    (hwy : ch.Within ch.imgSize.y p.y) (hwx : ch.Within ch.imgSize.x p.x)
    (hy : ch.halfPatch.toNat + ch.maxLocalShift.toNat ≤ ch.imgSize.y.toNat)
    (hx : ch.halfPatch.toNat + ch.maxLocalShift.toNat ≤ ch.imgSize.x.toNat) :
    ch.Framed1 ch.imgSize.y (lround p.y) (ch.actualPatch p).first.y (ch.actualPatch p).last.y ∧
        ch.Framed1 ch.imgSize.x (lround p.x) (ch.actualPatch p).first.x (ch.actualPatch p).last.x ↔
      ch.Fits1 ch.imgSize.y p.y (ch.Clear ch.imgSize.x p.x) ∧
        ch.Fits1 ch.imgSize.x p.x (ch.Clear ch.imgSize.y p.y) := by
  have hyr := rounded (by omega) hwy
  have hxr := rounded (by omega) hwx
  obtain ⟨hy₁, hy₂⟩ := hwy
  obtain ⟨hx₁, hx₂⟩ := hwx
  rw [actualPatch_eq (c := ⟨lround p.y, lround p.x⟩) rfl hyr hxr, clipRegion_eq hy hx, desiredPatch_eq heven hpos]
  split
  · next hin =>
    obtain ⟨⟨hfy, hfx⟩, hly, hlx⟩ := RegionType.isInside_iff.1 hin
    dsimp only [PointType.map] at hfy hfx hly hlx
    have hcy : ch.Clear ch.imgSize.y p.y := ⟨by omega, by omega⟩
    have hcx : ch.Clear ch.imgSize.x p.x := ⟨by omega, by omega⟩
    exact iff_of_true ⟨framed1_of_clear hcy.1 hcy.2, framed1_of_clear hcx.1 hcx.2⟩
      ⟨fits1_of_clear hyr hcy.1 hcy.2 hcx, fits1_of_clear hxr hcx.1 hcx.2 hcy⟩
  · next hout =>
    have hnot : ¬(ch.Clear ch.imgSize.y p.y ∧ ch.Clear ch.imgSize.x p.x) := by
      rintro ⟨hcy, hcx⟩
      obtain ⟨hfy, hly⟩ := hcy
      obtain ⟨hfx, hlx⟩ := hcx
      refine hout (RegionType.isInside_iff.2 ⟨⟨?_, ?_⟩, ?_, ?_⟩) <;> dsimp only [PointType.map] <;> omega
    exact and_congr (framed1_shrunk_iff_fits1 hyr hy₁ hy₂ hy hnot rfl)
      (framed1_shrunk_iff_fits1 hxr hx₁ hx₂ hx (fun h => hnot h.symm) rfl)

/-- **Without that room in one direction the region is wrong**: it ends outside. -/
theorem not_framed1_of_room (heven : ch.patchSize.toNat = 2 * ch.halfPatch.toNat) (hpos : 0 < ch.patchSize.toNat)
    (hwy : ch.Within ch.imgSize.y p.y) (hwx : ch.Within ch.imgSize.x p.x) :
    (ch.imgSize.y.toNat < ch.halfPatch.toNat + ch.maxLocalShift.toNat →
      ¬ch.Framed1 ch.imgSize.y (lround p.y) (ch.actualPatch p).first.y (ch.actualPatch p).last.y) ∧
    (ch.imgSize.x.toNat < ch.halfPatch.toNat + ch.maxLocalShift.toNat →
      ¬ch.Framed1 ch.imgSize.x (lround p.x) (ch.actualPatch p).first.x (ch.actualPatch p).last.x) := by
  have hyr := rounded (by omega) hwy
  have hxr := rounded (by omega) hwx
  obtain ⟨hy₁, hy₂⟩ := hwy
  obtain ⟨hx₁, hx₂⟩ := hwx
  rw [actualPatch_eq (c := ⟨lround p.y, lround p.x⟩) rfl hyr hxr, desiredPatch_eq heven hpos]
  constructor
  · intro hroom
    refine not_framed1_of_lt hy₁ hroom ?_
    have hwraps : ch.imgSize.y.toNat - ch.halfPatch.toNat < ch.clipRegion.last.y := limit_wraps (by omega) hroom
    split
    · exact le_rfl
    · dsimp only [shrinkSigned]
      rw [if_neg (lround_diff1_nonpos hy₂ hyr.2 hwraps (le_max_right _ _)).not_gt]
  · intro hroom
    refine not_framed1_of_lt hx₁ hroom ?_
    have hwraps : ch.imgSize.x.toNat - ch.halfPatch.toNat < ch.clipRegion.last.x := limit_wraps (by omega) hroom
    split
    · exact le_rfl
    · dsimp only [shrinkSigned]
      rw [if_neg (lround_diff1_nonpos hx₂ hxr.2 hwraps (le_max_right _ _)).not_gt]

/-- **The region is right in both directions exactly if the position fits.** -/
theorem framed1_iff_fits1 (heven : ch.patchSize.toNat = 2 * ch.halfPatch.toNat) (hpos : 0 < ch.patchSize.toNat)
    (hwy : ch.Within ch.imgSize.y p.y) (hwx : ch.Within ch.imgSize.x p.x) :
    ch.Framed1 ch.imgSize.y (lround p.y) (ch.actualPatch p).first.y (ch.actualPatch p).last.y ∧
        ch.Framed1 ch.imgSize.x (lround p.x) (ch.actualPatch p).first.x (ch.actualPatch p).last.x ↔
      ch.Fits1 ch.imgSize.y p.y (ch.Clear ch.imgSize.x p.x) ∧
        ch.Fits1 ch.imgSize.x p.x (ch.Clear ch.imgSize.y p.y) := by
  obtain ⟨hnoty, hnotx⟩ := not_framed1_of_room heven hpos hwy hwx
  rcases lt_or_ge ch.imgSize.y.toNat (ch.halfPatch.toNat + ch.maxLocalShift.toNat) with hy | hy
  · exact iff_of_false (fun h => hnoty hy h.1) fun h => not_fits1_of_lt hy h.1
  · rcases lt_or_ge ch.imgSize.x.toNat (ch.halfPatch.toNat + ch.maxLocalShift.toNat) with hx | hx
    · exact iff_of_false (fun h => hnotx hx h.2) fun h => not_fits1_of_lt hx h.2
    · exact framed1_iff_of_room heven hpos hwy hwx hy hx

end Regions

/-! ## The pixels -/

section Pixels

variable {α : Type} {d : Frame α} {ch : Channel} {cd : ChannelData}

/-- Limits that are there are taken as they are. -/
theorem limits_eq {size : ℕ} {first last : ℤ} (h₁ : 0 ≤ first) (h₂ : first ≤ last) (h₃ : last < size) :
    (Frame.limits size first last).first = first ∧
      (Frame.limits size first last).current = (last - first + 1).toNat := by
  have hlast : min (max (0 + last) 0) ((size : ℤ) - 1) = last := by omega
  have hfirst : min (max (0 + first) 0) ((size : ℤ) - 1) = first := by omega
  rw [Frame.limits, Arrays.Array.limit]
  dsimp only
  rw [hlast, hfirst, if_neg (not_lt.2 h₂), if_neg (not_lt.2 h₂)]
  exact ⟨rfl, rfl⟩

/-- There is a pixel between any limits. -/
theorem limits_current_pos {size : ℕ} {first last : ℤ} : 0 < (Frame.limits size first last).current := by
  rw [Frame.limits, Arrays.Array.limit]
  dsimp only
  split_ifs <;> omega

/-- The rows after some rounds of `reverseY`: those before round `k` and as many from the end are exchanged. -/
theorem reverseY_rounds : ∀ k : ℕ, 2 * k ≤ d.sizeY →
    (List.range k).foldl (fun d y => d.swapRows y (d.sizeY - y - 1)) d =
      { d with
        pixel := fun i => if i < k ∨ d.sizeY - k ≤ i ∧ i < d.sizeY then d.pixel (d.sizeY - 1 - i) else d.pixel i }
  | 0, _ => by
    have hnone : ∀ i, ¬(i < 0 ∨ d.sizeY - 0 ≤ i ∧ i < d.sizeY) := fun i => by omega
    simp only [List.range_zero, List.foldl_nil, hnone, ↓reduceIte]
  | k + 1, hk => by
    rw [List.range_succ, List.foldl_append, reverseY_rounds k (by omega), List.foldl_cons, List.foldl_nil,
      Frame.swapRows]
    congr 1
    funext i
    dsimp only
    -- the conditions contradict one another, or the rows are the same
    split_ifs <;> first | omega | exact congrArg d.pixel (by omega)

theorem reverseY_eq (d : Frame α) : d.reverseY =
    { d with pixel := fun i => if i < d.sizeY then d.pixel (d.sizeY - 1 - i) else d.pixel i } := by
  rw [Frame.reverseY, reverseY_rounds _ (by omega)]
  congr 1
  funext i
  -- a row in the middle stays where it is
  split_ifs <;> first | omega | exact congrArg d.pixel (by omega)

/-- The frame that is mirrored, as `initPatch` does it. -/
def mirrored (flipY flipX : Bool) (d : Frame α) : Frame α :=
  let d := if flipX then d.reverseX else d
  if flipY then d.reverseY else d

theorem sizes_mirrored (flipY flipX : Bool) (d : Frame α) :
    (mirrored flipY flipX d).sizeY = d.sizeY ∧ (mirrored flipY flipX d).sizeX = d.sizeX := by
  unfold mirrored
  cases flipX <;> cases flipY <;> simp only [reverseY_eq, Frame.reverseX, Bool.false_eq_true, ↓reduceIte, and_self]

/-- A pixel of the frame that is mirrored. -/
theorem pixel_mirrored (flipY flipX : Bool) {i j : ℕ} (hi : i < d.sizeY) :
    (mirrored flipY flipX d).pixel i j =
      d.pixel (if flipY then d.sizeY - 1 - i else i) (if flipX then d.sizeX - 1 - j else j) := by
  unfold mirrored
  cases flipX <;> cases flipY <;> simp only [reverseY_eq, Frame.reverseX, Bool.false_eq_true, ↓reduceIte, hi]

/-- Where the patch starts in one direction of the cut-out. -/
def start1 (flip : Bool) (c h a b : ℤ) : ℤ := if flip then b - (c + h - 1) else c - h - a

variable {N h m a b c : ℤ} {flip : Bool}

/-- **The patch lies in the cut-out**, from its start on. -/
theorem start1_spec (flip : Bool) (hf : Framed1 N h m c a b) :
    0 ≤ start1 flip c h a b ∧ start1 flip c h a b + 2 * h ≤ b - a + 1 := by
  obtain ⟨h₁, h₂, h₃, h₄, -, -⟩ := hf
  unfold start1
  split <;> omega

/-- The pixel of the image behind pixel `i` of the patch in the cut-out, which has been mirrored. -/
theorem source_eq (hf : Framed1 N h m c a b) {size i : ℕ} (hsize : (size : ℤ) = b - a + 1) (hi : (i : ℤ) < 2 * h) :
    a.toNat + (if flip then size - 1 - ((start1 flip c h a b).toNat + i) else (start1 flip c h a b).toNat + i) =
      source flip c h i := by
  obtain ⟨hstart, hfits⟩ := start1_spec flip hf
  obtain ⟨first, rfl⟩ := Int.eq_ofNat_of_zero_le hf.1
  obtain ⟨start, hpos⟩ := Int.eq_ofNat_of_zero_le hstart
  rw [hpos, Int.toNat_natCast, Int.toNat_natCast]
  rw [hpos] at hfits
  unfold start1 at hpos
  unfold source
  cases flip
  · have heq : c - h + i = (first + (start + i) : ℕ) := by
      rw [if_neg Bool.false_ne_true] at hpos
      push_cast
      linarith
    rw [if_neg Bool.false_ne_true, if_neg Bool.false_ne_true, heq, Int.toNat_natCast]
  · have hinside : start + i + 1 ≤ size := by omega
    have heq : c + h - 1 - i = (first + (size - 1 - (start + i)) : ℕ) := by
      rw [if_pos rfl] at hpos
      rw [Nat.sub_sub, Nat.add_comm 1]
      push_cast [hinside]
      linarith
    rw [if_pos rfl, if_pos rfl, heq, Int.toNat_natCast]

/-- The limits of the patch, in unsigned numbers. -/
theorem patch_limits {patchSize : BitVec 16} {s : ℤ} (hpos : 0 < patchSize.toNat) (hs : 0 ≤ s)
    (hlt : s + patchSize.toNat ≤ 2 ^ 16) :
    ((BitVec.ofInt 16 s).toNat : ℤ) = s ∧
      ((patchSize - 1 + BitVec.ofInt 16 s).toNat : ℤ) = s + patchSize.toNat - 1 := by
  have hfirst : ((BitVec.ofInt 16 s).toNat : ℤ) = s := by
    rw [BitVec.toNat_ofInt]
    omega
  refine ⟨hfirst, ?_⟩
  rw [BitVec.toNat_add, BitVec.toNat_sub]
  have hone : (1 : BitVec 16).toNat = 1 := rfl
  have := patchSize.isLt
  omega

/-- The sizes of a view whose limits are there, and its pixels. -/
theorem wrap_spec {r : RegionType ℤ} (hy : 0 ≤ r.first.y ∧ r.first.y ≤ r.last.y ∧ r.last.y < d.sizeY)
    (hx : 0 ≤ r.first.x ∧ r.first.x ≤ r.last.x ∧ r.last.x < d.sizeX) :
    d.wrap r = ⟨(r.last.y - r.first.y + 1).toNat, (r.last.x - r.first.x + 1).toNat,
      fun i j => d.pixel (r.first.y.toNat + i) (r.first.x.toNat + j)⟩ := by
  obtain ⟨hfy, hcy⟩ := limits_eq hy.1 hy.2.1 hy.2.2
  obtain ⟨hfx, hcx⟩ := limits_eq hx.1 hx.2.1 hx.2.2
  rw [Frame.wrap, hfy, hfx, hcy, hcx]

/-- The region of a patch that is in the cut-out. -/
theorem patchRegion_eq {c : PointType ℤ} {r : RegionType ℤ} {start : PointType ℤ} (hpos : 0 < ch.patchSize.toNat)
    (hy : 0 ≤ start.y ∧ start.y + ch.patchSize.toNat ≤ 2 ^ 16)
    (hx : 0 ≤ start.x ∧ start.x + ch.patchSize.toNat ≤ 2 ^ 16) :
    ch.patchRegion ⟨c, r, start⟩ =
      ⟨start, ⟨start.y + ch.patchSize.toNat - 1, start.x + ch.patchSize.toNat - 1⟩⟩ := by
  obtain ⟨hfy, hly⟩ := patch_limits hpos hy.1 hy.2
  obtain ⟨hfx, hlx⟩ := patch_limits hpos hx.1 hx.2
  rw [Channel.patchRegion]
  dsimp only
  rw [hfy, hfx, hly, hlx]

theorem initPatch_eq (ch : Channel) (cd : ChannelData) (scaled : α → α) (d : Frame α) : ch.initPatch cd scaled d =
    (mirrored ch.flipY ch.flipX { d with pixel := fun y x => scaled (d.pixel y x) }).wrap (ch.patchRegion cd) := rfl

/-- **A cut-out that is right has the patch where it should be**, mirrored or not. -/
theorem addressed_of_framed1 {c : PointType ℤ} {r : RegionType ℤ} (heven : ch.patchSize.toNat = 2 * ch.halfPatch.toNat)
    (hpos : 0 < ch.patchSize.toNat)
    (hy : ch.Framed1 ch.imgSize.y c.y r.first.y r.last.y)
    (hx : ch.Framed1 ch.imgSize.x c.x r.first.x r.last.x) :
    Addressed ch ⟨c, r, ⟨start1 ch.flipY c.y ch.halfPatch.toNat r.first.y r.last.y,
      start1 ch.flipX c.x ch.halfPatch.toNat r.first.x r.last.x⟩⟩ := by
  intro α scaled images hsizeY hsizeX
  obtain ⟨hys, hyf⟩ := start1_spec ch.flipY hy
  obtain ⟨hxs, hxf⟩ := start1_spec ch.flipX hx
  have hy₁ := hy.first_nonneg
  have hy₂ := hy.last_lt
  have hx₁ := hx.first_nonneg
  have hx₂ := hx.last_lt
  have hNy := ch.imgSize.y.isLt
  have hNx := ch.imgSize.x.isLt
  have hstorage := wrap_spec (d := images) (r := r) ⟨hy₁, by omega, by omega⟩ ⟨hx₁, by omega, by omega⟩
  have hendY : start1 ch.flipY c.y ch.halfPatch.toNat r.first.y r.last.y + ch.patchSize.toNat ≤ 2 ^ 16 := by omega
  have hendX : start1 ch.flipX c.x ch.halfPatch.toNat r.first.x r.last.x + ch.patchSize.toNat ≤ 2 ^ 16 := by omega
  rw [ChannelData.getStorage, hstorage, initPatch_eq, patchRegion_eq hpos ⟨hys, hendY⟩ ⟨hxs, hendX⟩]
  -- the part that is cut out, with its pixels scaled
  generalize hpart : (⟨(r.last.y - r.first.y + 1).toNat, (r.last.x - r.first.x + 1).toNat,
    fun y x => scaled (images.pixel (r.first.y.toNat + y) (r.first.x.toNat + x))⟩ : Frame α) = part
  have hpartY : part.sizeY = (r.last.y - r.first.y + 1).toNat := by rw [← hpart]
  have hpartX : part.sizeX = (r.last.x - r.first.x + 1).toNat := by rw [← hpart]
  obtain ⟨hmY, hmX⟩ := sizes_mirrored ch.flipY ch.flipX part
  rw [wrap_spec ⟨hys, by dsimp only; omega, by dsimp only; omega⟩ ⟨hxs, by dsimp only; omega, by dsimp only; omega⟩]
  refine ⟨by dsimp only; omega, by dsimp only; omega, fun i hi j hj => ?_⟩
  dsimp only
  rw [pixel_mirrored ch.flipY ch.flipX (by omega), ← hpart]
  dsimp only
  rw [source_eq hy (by omega) (by omega), source_eq hx (by omega) (by omega)]

end Pixels

/-! ## Which positions are framed -/

section Positions

variable {ch : Channel} {p : PointType ℚ}

theorem two_mul_halfPatch (heven : ch.patchSize.toNat % 2 = 0) : ch.patchSize.toNat = 2 * ch.halfPatch.toNat := by
  have htwo : (2 : BitVec 16).toNat = 2 := rfl
  rw [Channel.halfPatch, BitVec.toNat_udiv, htwo]
  omega

theorem adjustCutout_eq (hne : ¬(ch.imgSize.y = 0 ∧ ch.imgSize.x = 0)) : ch.adjustCutout p =
    some ⟨p.map lround, ch.actualPatch p,
      ⟨start1 ch.flipY (lround p.y) ch.halfPatch.toNat (ch.actualPatch p).first.y (ch.actualPatch p).last.y,
        start1 ch.flipX (lround p.x) ch.halfPatch.toNat (ch.actualPatch p).first.x (ch.actualPatch p).last.x⟩⟩ := by
  rw [Channel.adjustCutout, if_neg hne]
  rfl

/-- No sub-image is without pixels. -/
theorem pos_of_addressed {cd : ChannelData} (h : Addressed ch cd) : 0 < ch.patchSize.toNat := by
  have hsize := (h Unit id ⟨ch.imgSize.y.toNat, ch.imgSize.x.toNat, fun _ _ => ()⟩ rfl rfl).1
  rw [← hsize]
  exact limits_current_pos

theorem fits_of_framed (heven : ch.patchSize.toNat % 2 = 0) (hy : ch.Within ch.imgSize.y p.y)
    (hx : ch.Within ch.imgSize.x p.x) (h : Framed ch p) : Fits ch p := by
  obtain ⟨cd, hcd, -, hframedY, hframedX, haddressed⟩ := h
  have hpos := pos_of_addressed haddressed
  have hne : ¬(ch.imgSize.y = 0 ∧ ch.imgSize.x = 0) := by
    intro hzero
    rw [Channel.adjustCutout, if_pos hzero] at hcd
    cases hcd
  rw [adjustCutout_eq hne] at hcd
  cases hcd
  exact ⟨hpos, (framed1_iff_fits1 (two_mul_halfPatch heven) hpos hy hx).1 ⟨hframedY, hframedX⟩⟩

theorem framed_of_fits (heven : ch.patchSize.toNat % 2 = 0) (hy : ch.Within ch.imgSize.y p.y)
    (hx : ch.Within ch.imgSize.x p.x) (h : Fits ch p) : Framed ch p := by
  obtain ⟨hpos, hfits⟩ := h
  have htwo := two_mul_halfPatch heven
  obtain ⟨hframedY, hframedX⟩ := (framed1_iff_fits1 htwo hpos hy hx).2 hfits
  have hne : ¬(ch.imgSize.y = 0 ∧ ch.imgSize.x = 0) := by
    rintro ⟨hzero, -⟩
    have hzero' : ch.imgSize.y.toNat = 0 := by rw [hzero]; rfl
    obtain ⟨h₁, h₂⟩ := hy
    omega
  exact ⟨_, adjustCutout_eq hne, rfl, hframedY, hframedX, addressed_of_framed1 htwo hpos hframedY hframedX⟩

/-- **A patch that leaves room for itself in the image is cut out, with its shifts and in the right place,
exactly if it fits.** -/
theorem framed_iff (heven : ch.patchSize.toNat % 2 = 0) (hy : ch.Within ch.imgSize.y p.y)
    (hx : ch.Within ch.imgSize.x p.x) : Framed ch p ↔ Fits ch p :=
  ⟨fits_of_framed heven hy hx, framed_of_fits heven hy hx⟩

/-- Patches of 8 by 8 pixels, which may be shifted by 5, in an image of `n` by `n`. -/
def square (n : BitVec 16) : Channel := ⟨⟨n, n⟩, 8, 5, false, true⟩

theorem within_of_eq {N h : ℕ} {pos : ℚ} {c : ℤ} (hc : lround pos = c) (hle : (h : ℤ) ≤ c ∧ c + h ≤ N) :
    Within N h pos := by
  rw [Within, hc]
  exact hle

theorem lround_natCast (n : ℕ) : lround (n : ℚ) = n := by
  rw [lround_eq_iff_of_nonneg (Nat.cast_nonneg n), Int.cast_natCast]
  constructor <;> linarith

theorem halfPatch_square (n : BitVec 16) : (square n).halfPatch.toNat = 4 := by
  have hhalf : (8 / 2 : BitVec 16).toNat = 4 := by decide
  exact hhalf

theorem within_square {n : BitVec 16} {pos : ℚ} : (square n).Within n pos ↔ Within n.toNat 4 pos := by
  rw [Channel.Within, halfPatch_square]

theorem fits1_square {n : BitVec 16} {pos : ℚ} {other : Prop} :
    (square n).Fits1 n pos other ↔ Fits1 n.toNat 4 5 pos other := by
  rw [Channel.Fits1, halfPatch_square]
  rfl

/-- In the middle of an image. -/
theorem middle_framed : Framed (square 32) ⟨16, 16⟩ := by
  have hwithin : (square 32).Within 32 16 := within_square.2 (within_of_eq (lround_natCast 16) (by decide))
  have hfits : ∀ other, (square 32).Fits1 32 16 other := fun other =>
    fits1_square.2 (Or.inl ⟨by decide, fun _ => by norm_num, fun h => absurd h (by norm_num)⟩)
  exact (@framed_iff (square 32) ⟨16, 16⟩ rfl hwithin hwithin).2 ⟨by decide, hfits _, hfits _⟩

/-- What fits in a direction of such an image, if the patch is framed. -/
theorem fits1_of_framed_square {n : BitVec 16} {y x : ℚ} (hy : (square n).Within n y) (hx : (square n).Within n x)
    (h : Framed (square n) ⟨y, x⟩) : ∃ other, Fits1 n.toNat 4 5 y other := by
  have heven : (8 : BitVec 16).toNat % 2 = 0 := by decide
  have hfits := @fits_of_framed (square n) ⟨y, x⟩ heven hy hx h
  exact ⟨_, fits1_square.1 hfits.2.1⟩

/-- A patch whose position lies a half before the first one is not cut out as a whole, and in an image that is
hardly larger than the patch the region ends outside. -/
theorem border_missed : (square 32).Within 32 (7 / 2) ∧ (square 32).Within 32 16 ∧ ¬Framed (square 32) ⟨7 / 2, 16⟩ ∧
    (square 12).Within 12 6 ∧ ¬Framed (square 12) ⟨6, 6⟩ := by
  have hround : lround (7 / 2 : ℚ) = 4 := (lround_eq_iff_of_pos (by decide)).2 (by norm_num)
  have hhalf : (square 32).Within 32 (7 / 2) := within_square.2 (within_of_eq hround (by decide))
  have hmiddle : (square 32).Within 32 16 := within_square.2 (within_of_eq (lround_natCast 16) (by decide))
  have hsmall : (square 12).Within 12 6 := within_square.2 (within_of_eq (lround_natCast 6) (by decide))
  refine ⟨hhalf, hmiddle, fun h => ?_, hsmall, fun h => ?_⟩
  · rcases fits1_of_framed_square hhalf hmiddle h with ⟨_, ⟨-, hfirst, -⟩ | ⟨hspan, -⟩⟩
    · exact hfirst (by decide) (by norm_num)
    · exact absurd hspan (by decide)
  · rcases fits1_of_framed_square hsmall hsmall h with ⟨_, ⟨hspan, -⟩ | ⟨hspan, -⟩⟩
    · exact absurd hspan (by decide)
    · exact absurd hspan (by decide)

end Positions

end Redux.Momfbd.Cutout
