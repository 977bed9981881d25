import Redux.Momfbd.PatchPositions

/-!
# Momfbd.PatchLimits — limits that do not wrap

With an image, and a clip without negative pixels, the limits of the positions are half a patch from both
ends of the clipped image, if it is larger than a patch.  The one position in an image that is not is given
relative to the image and not to the clip, so that the patch has room only if the clip is at the edge.
-/

namespace Redux.Momfbd

namespace Placing

section Regular

variable {p : Placing} {d : Direction} {pos : BitVec 16}

/-- There is an image, and the clip has no negative pixel. -/
def Regular (p : Placing) (d : Direction) : Prop :=
  d.imageSize ≠ 0 ∧ (p.clipped = true → 0 ≤ d.clip.1.toInt ∧ 0 ≤ d.clip.2.toInt)

/-- The region of a regular direction. -/
theorem Regular.roi (h : p.Regular d) :
    (p.roi d).last.toNat + 1 < 2 ^ 16 ∧ p.size d + (p.roi d).first.toNat = (p.roi d).last.toNat + 1 ∧ 0 < p.size d := by
  obtain ⟨himage, hclip⟩ := h
  by_cases hclipped : p.clipped = true
  · obtain ⟨h₁, h₂⟩ := hclip hclipped
    have h₃ := @BitVec.toInt_lt 16 d.clip.1
    have h₄ := @BitVec.toInt_lt 16 d.clip.2
    have h₅ : d.clip.1.toInt = d.clip.1.toNat := BitVec.toInt_eq_toNat_of_msb (by rw [BitVec.msb_eq_toInt]; simp; omega)
    have h₆ : d.clip.2.toInt = d.clip.2.toNat := BitVec.toInt_eq_toNat_of_msb (by rw [BitVec.msb_eq_toInt]; simp; omega)
    rw [Placing.roi, size, if_pos hclipped, if_pos hclipped, BitVec.slt_eq_decide]
    split_ifs with hlt
    · rw [decide_eq_true_eq] at hlt
      dsimp only
      omega
    · rw [decide_eq_true_eq] at hlt
      dsimp only
      omega
  · rw [Placing.roi, size, if_neg hclipped, if_neg hclipped]
    have hpos : d.imageSize.toNat ≠ 0 := fun h => himage (BitVec.eq_of_toNat_eq h)
    have hlt := d.imageSize.isLt
    have hsub : (d.imageSize - 1).toNat = d.imageSize.toNat - 1 :=
      BitVec.toNat_sub_of_le (by rw [BitVec.le_def]; show 1 ≤ _; omega)
    have hzero : (0 : BitVec 16).toNat = 0 := rfl
    dsimp only
    omega

/-- Half a patch from both ends, if the image is larger than a patch. -/
theorem Regular.posLimits_of_lt (h : p.Regular d) (hlt : p.patchSize.toNat < p.size d) :
    (p.posLimits d).first.toNat = p.patchSize.toNat / 2 + 1 ∧
      (p.posLimits d).last.toNat = p.size d - p.patchSize.toNat / 2 := by
  obtain ⟨hlast, hsize, hpos⟩ := h.roi
  rw [Placing.posLimits]
  generalize p.roi d = roi at *
  obtain ⟨first, last⟩ := roi
  dsimp only at hlast hsize
  have hspan : ¬Span.span ⟨first, last⟩ ≤ p.patchSize.toNat := by
    unfold Span.span
    dsimp only
    omega
  have hone : (1 : BitVec 16).toNat = 1 := rfl
  have hadd : ∀ x : BitVec 16, x.toNat + 1 < 2 ^ 16 → (x + 1).toNat = x.toNat + 1 := fun x hx => by
    rw [BitVec.toNat_add, hone, Nat.mod_eq_of_lt hx]
  have hnormal : (Span.add ⟨first, last⟩ 1).normalize = ⟨first + 1, last + 1⟩ := by
    unfold Span.normalize Span.add
    rw [if_neg]
    rw [gt_iff_lt, BitVec.lt_def, hadd first (by omega), hadd last hlast]
    omega
  unfold Span.posLimits Span.shrink Span.sub
  rw [if_neg hspan, hnormal]
  dsimp only
  rw [BitVec.toNat_sub, BitVec.toNat_sub, BitVec.toNat_add, BitVec.toNat_sub, hadd first (by omega),
      hadd last hlast, p.toNat_half]
  omega

/-- One position otherwise, which is right only for a clip at the edge of the image. -/
theorem Regular.posLimits_of_le (h : p.Regular d) (hle : p.size d ≤ p.patchSize.toNat) :
    (p.posLimits d).first = (p.posLimits d).last ∧
      (p.posLimits d).first.toNat = ((p.roi d).first.toNat + p.patchSize.toNat / 2 + 1) % 2 ^ 16 := by
  obtain ⟨hlast, hsize, hpos⟩ := h.roi
  rw [Placing.posLimits]
  generalize p.roi d = roi at *
  obtain ⟨first, last⟩ := roi
  dsimp only at hlast hsize
  have hspan : Span.span ⟨first, last⟩ ≤ p.patchSize.toNat := by
    unfold Span.span
    dsimp only
    omega
  have hone : (1 : BitVec 16).toNat = 1 := rfl
  unfold Span.posLimits
  rw [if_pos hspan]
  refine ⟨rfl, ?_⟩
  dsimp only
  rw [BitVec.toNat_add, BitVec.toNat_add, p.toNat_half, hone]
  omega

/-- **The limits leave room for a patch**, unless the image is as large as a patch and the clip is not at its
edge. -/
theorem Regular.room (h : p.Regular d) (heven : p.patchSize.toNat % 2 = 0) (hpatch : 0 < p.patchSize.toNat)
    (hle : p.patchSize.toNat ≤ p.size d) (hpos : (p.posLimits d).first ≤ pos ∧ pos ≤ (p.posLimits d).last) :
    p.Room (p.size d) pos ↔ (p.size d = p.patchSize.toNat → (p.roi d).first = 0) := by
  have hsize := p.size_le d
  rw [BitVec.le_def, BitVec.le_def] at hpos
  rcases Nat.lt_or_eq_of_le hle with hlt | heq
  · obtain ⟨hfirst, hlast⟩ := h.posLimits_of_lt hlt
    exact iff_of_true ⟨by omega, by omega, by omega⟩ fun heq => by omega
  · obtain ⟨hsame, hfirst⟩ := h.posLimits_of_le heq.ge
    have hlim : (p.posLimits d).last.toNat = (p.posLimits d).first.toNat := by rw [hsame]
    have hroi := (p.roi d).first.isLt
    have hedge : (p.roi d).first = 0 ↔ (p.roi d).first.toNat = 0 :=
      ⟨fun h => by rw [h]; rfl, fun h => BitVec.eq_of_toNat_eq h⟩
    rw [imp_iff_right heq.symm, hedge, Room]
    constructor
    · rintro ⟨h₁, h₂, h₃⟩
      omega
    · intro hzero
      rw [hzero] at hfirst
      omega

theorem fits_iff (heven : p.patchSize.toNat % 2 = 0) (hpatch : 0 < p.patchSize.toNat) (hnil : p.subImagePosXY = [])
    (hy : p.Regular p.y) (hx : p.Regular p.x) :
    p.Fits ↔ (p.Accepted → ∀ d ∈ [p.y, p.x], p.size d = p.patchSize.toNat → (p.roi d).first = 0) := by
  have hregular : ∀ d ∈ [p.y, p.x], p.Regular d := by simp [hy, hx]
  have hne : ∀ d, ∃ pos, pos ∈ p.used d := fun d => by
    unfold used
    split_ifs with h
    · exact ⟨_, List.mem_cons_self ..⟩
    · exact List.exists_mem_of_ne_nil _ h
  rw [Fits, if_pos hnil, imp_iff_right (.inl hy.1)]
  refine imp_congr_right fun haccepted => forall₂_congr fun d hd => ?_
  constructor
  · intro h heq
    obtain ⟨pos, hpos⟩ := hne d
    exact ((hregular d hd).room heven hpatch heq.ge (haccepted d hd pos hpos)).1 (h heq.ge pos hpos) heq
  · intro h hle pos hpos
    exact ((hregular d hd).room heven hpatch hle (haccepted d hd pos hpos)).2 h

end Regular

/-- **When the patches are placed right**: the check has to end, and what it accepts has to fit; if no limits
wrap, that is a matter only of an image as large as a patch whose clip is not at the edge. -/
theorem patches_placed_iff (p : Placing) (heven : p.patchSize.toNat % 2 = 0) (hpairs : p.subImagePosXY.length % 2 = 0) :
    (p.Placed ↔ p.Ends ∧ p.Fits) ∧
      (0 < p.patchSize.toNat → p.subImagePosXY = [] → p.Regular p.y → p.Regular p.x →
        (p.Fits ↔ (p.Accepted → ∀ d ∈ [p.y, p.x], p.size d = p.patchSize.toNat → (p.roi d).first = 0))) :=
  ⟨placed_iff heven hpairs, fun hpatch hnil hy hx => fits_iff heven hpatch hnil hy hx⟩

/-- Patches of 8 pixels in an image of 20 by 30. -/
theorem whole_image_placed : Placed ⟨false, ⟨(0, 0), 20, []⟩, ⟨(0, 0), 30, []⟩, [], 8, 2⟩ := by
  refine ((patches_placed_iff ⟨false, ⟨(0, 0), 20, []⟩, ⟨(0, 0), 30, []⟩, [], 8, 2⟩ rfl rfl).1).2
    ⟨.inr (.inl (by decide)), ?_⟩
  refine ((patches_placed_iff ⟨false, ⟨(0, 0), 20, []⟩, ⟨(0, 0), 30, []⟩, [], 8, 2⟩ rfl rfl).2 (by decide) rfl
    ⟨by decide, by decide⟩ ⟨by decide, by decide⟩).2 fun _ d hd heq => ?_
  simp only [List.mem_cons, List.not_mem_nil, or_false] at hd
  rcases hd with rfl | rfl <;> exact absurd heq (by decide)

/-- A clip of the size of a patch that begins with the tenth pixel: its one patch is cut out ten pixels off. -/
theorem inner_clip_not_placed : ¬Placed ⟨true, ⟨(10, 17), 40, []⟩, ⟨(10, 17), 40, []⟩, [], 8, 2⟩ := by
  rintro ⟨r, ⟨n, hn⟩, hright⟩
  obtain rfl : (true, [15], [15]) = r := Option.some.inj (hn n le_rfl)
  have hwithin := (hright rfl _ (List.mem_cons_self ..)).2 (by decide)
  exact absurd hwithin.last_lt (by decide)

end Placing

end Redux.Momfbd
