import Mathlib.Algebra.BigOperators.Field
import Mathlib.Algebra.Order.BigOperators.Ring.Finset
import Mathlib.Tactic.FieldSimp
import Mathlib.Tactic.Linarith
import Redux.Momfbd.ObjectMetric

/-!
# Momfbd.MetricChange — the change of the metric when one sub-image gets a new OTF

`metricChange` finds the change without adding up the images again, from the changes of `P` and `Q` at each
index.  Index by index it is what `calcMetric` finds before and after (`changeTerm_eq`); but `calcMetric`
divides by the number of pixels of the patch and `metricChange` by that of the OTF, which is that of
`2*pupilPixels`.
-/

namespace Redux.Momfbd.Metric

/-! ## Model -/

namespace SubImage

variable (im : SubImage) (newOTF : ℕ → ℚ × ℚ) (ind : ℕ)

/-- `dsj`. -/
def dsj : ℚ × ℚ := newOTF ind - im.OTF ind

/-- `dp`. -/
def dp : ℚ × ℚ := conjMul (im.imgFT ind) (im.dsj newOTF ind)

/-- `dq`. -/
def dq : ℚ :=
  2 * ((im.OTF ind).1 * (im.dsj newOTF ind).1 + (im.OTF ind).2 * (im.dsj newOTF ind).2) + norm (im.dsj newOTF ind)

/-- `dn`. -/
def dn (p : ℕ → ℚ × ℚ) : ℚ :=
  2 * ((im.dp newOTF ind).1 * (p ind).1 + (im.dp newOTF ind).2 * (p ind).2) + norm (im.dp newOTF ind)

/-- What is taken away from `dl` at one index. -/
def changeTerm (p : ℕ → ℚ × ℚ) (q : ℕ → ℚ) : ℚ :=
  (q ind * im.dn newOTF ind p - im.dq newOTF ind * norm (p ind)) / (q ind * (q ind + im.dq newOTF ind))

/-- `metricChange( newOTF )`, with the arrays `P` and `Q` of the object. -/
def metricChange (otfSupport : Finset ℕ) (otfSize : ℕ) (p : ℕ → ℚ × ℚ) (q : ℕ → ℚ) : ℚ :=
  (∑ ind ∈ otfSupport, -im.changeTerm newOTF ind p q) / (otfSize * otfSize)

end SubImage

namespace Object

variable {ι : Type} (obj : Object ι)

/-- `addDiffToPQ( ft, otf, oldotf )`, with the arrays of a sub-image as `ft` and `oldotf`. -/
def addDiffToPQ (s : Sums ι) (im : ι) (otf : ℕ → ℚ × ℚ) : Sums ι where
  P ind := if ind ∈ obj.otfSupport then
    s.P ind + conjMul ((obj.image im).imgFT ind) (otf ind - (obj.image im).OTF ind) else s.P ind
  Q ind := if ind ∈ obj.otfSupport then
    s.Q ind + (norm (otf ind) - norm ((obj.image im).OTF ind)) else s.Q ind
  images := s.images

/-- `metricChange( newOTF )` of a sub-image of the object. -/
def metricChange (otfSize : ℕ) (s : Sums ι) (im : ι) (newOTF : ℕ → ℚ × ℚ) : ℚ :=
  (obj.image im).metricChange newOTF obj.otfSupport otfSize s.P s.Q

/-- `metricChange` does not divide by zero. -/
def ChangeDefined (otfSize : ℕ) (s : Sums ι) (im : ι) (newOTF : ℕ → ℚ × ℚ) : Prop :=
  otfSize ≠ 0 ∧ ∀ ind ∈ obj.otfSupport, s.Q ind * (s.Q ind + (obj.image im).dq newOTF ind) ≠ 0

/-- `calcMetric` does not divide by zero. -/
def MetricDefined (s : Sums ι) : Prop :=
  obj.weight ≠ 0 → obj.patchSize ≠ 0 ∧ ∀ ind ∈ obj.otfSupport, s.Q ind ≠ 0

/-- The object after `calcMetric`, `addDiffToPQ` and `calcMetric` again. -/
def recalculated (st : ObjectState ι) (im : ι) (newOTF : ℕ → ℚ × ℚ) : ObjectState ι :=
  obj.calcMetric { obj.calcMetric st with sums := obj.addDiffToPQ st.sums im newOTF }

/-- `metricChange` is the difference of what `calcMetric` finds after and before, and all three are numbers. -/
def ChangeAgrees (otfSize : ℕ) (st : ObjectState ι) (im : ι) (newOTF : ℕ → ℚ × ℚ) : Prop :=
  obj.ChangeDefined otfSize st.sums im newOTF ∧ obj.MetricDefined st.sums ∧
    obj.MetricDefined (obj.addDiffToPQ st.sums im newOTF) ∧
    obj.metricChange otfSize st.sums im newOTF =
      (obj.recalculated st im newOTF).currentMetric - (obj.calcMetric st).currentMetric

/-- The sum over the support that `calcMetric` takes away from that of `ftSum`. -/
def explained (s : Sums ι) : ℚ := ∑ ind ∈ obj.otfSupport, norm (s.P ind) / s.Q ind

end Object

section Results

variable {ι : Type} {obj : Object ι} {otfSize ind : ℕ} {s : Sums ι} {st : ObjectState ι} {im : ι}
  {newOTF : ℕ → ℚ × ℚ}

/-! ## One index -/

theorem norm_add (a b : ℚ × ℚ) : norm (a + b) = norm a + (2 * (b.1 * a.1 + b.2 * a.2) + norm b) := by
  simp only [norm, Prod.fst_add, Prod.snd_add]
  ring

/-- `dq` is the change of the norm of the OTF. -/
theorem SubImage.dq_eq (im : SubImage) : im.dq newOTF ind = norm (newOTF ind) - norm (im.OTF ind) := by
  have hsum : newOTF ind = im.OTF ind + im.dsj newOTF ind := by
    rw [dsj, add_sub_cancel]
  conv_rhs => rw [hsum, norm_add]
  rw [dq]
  ring

theorem Object.addDiffToPQ_Q (hmem : ind ∈ obj.otfSupport) :
    (obj.addDiffToPQ s im newOTF).Q ind = s.Q ind + (obj.image im).dq newOTF ind := by
  rw [SubImage.dq_eq]
  exact if_pos hmem

theorem Object.addDiffToPQ_P (hmem : ind ∈ obj.otfSupport) :
    (obj.addDiffToPQ s im newOTF).P ind = s.P ind + (obj.image im).dp newOTF ind := if_pos hmem

theorem Object.norm_addDiffToPQ_P (hmem : ind ∈ obj.otfSupport) :
    norm ((obj.addDiffToPQ s im newOTF).P ind) = norm (s.P ind) + (obj.image im).dn newOTF ind s.P := by
  rw [addDiffToPQ_P hmem, norm_add, SubImage.dn]

/-- **At one index, the closed formula is the difference of the two quotients.** -/
theorem Object.changeTerm_eq (hmem : ind ∈ obj.otfSupport) (hQ : s.Q ind ≠ 0)
    (hQ' : (obj.addDiffToPQ s im newOTF).Q ind ≠ 0) :
    (obj.image im).changeTerm newOTF ind s.P s.Q = norm ((obj.addDiffToPQ s im newOTF).P ind) /
      (obj.addDiffToPQ s im newOTF).Q ind - norm (s.P ind) / s.Q ind := by
  rw [addDiffToPQ_Q hmem] at hQ'
  rw [SubImage.changeTerm, addDiffToPQ_Q hmem, norm_addDiffToPQ_P hmem]
  field_simp
  ring

/-! ## The sum over the support -/

/-- **`metricChange` is the change of the sum of quotients, divided by the size of the OTF.** -/
theorem Object.metricChange_eq (hQ : ∀ ind ∈ obj.otfSupport, s.Q ind ≠ 0)
    (hQ' : ∀ ind ∈ obj.otfSupport, (obj.addDiffToPQ s im newOTF).Q ind ≠ 0) :
    obj.metricChange otfSize s im newOTF =
      (obj.explained s - obj.explained (obj.addDiffToPQ s im newOTF)) / (otfSize * otfSize) := by
  have hterm : ∀ ind ∈ obj.otfSupport, -(obj.image im).changeTerm newOTF ind s.P s.Q = norm (s.P ind) / s.Q ind -
      norm ((obj.addDiffToPQ s im newOTF).P ind) / (obj.addDiffToPQ s im newOTF).Q ind := by
    intro ind hmem
    rw [changeTerm_eq hmem (hQ ind hmem) (hQ' ind hmem), neg_sub]
  rw [metricChange, SubImage.metricChange, Finset.sum_congr rfl hterm, Finset.sum_sub_distrib]
  rfl

/-- What `calcMetric` finds depends on `P` and `Q` through `explained` only. -/
theorem Object.metricOf_sub (s t : Sums ι) :
    obj.metricOf t - obj.metricOf s = (obj.explained s - obj.explained t) / (obj.patchSize * obj.patchSize) := by
  rw [metricOf, metricOf, ← sub_div, Finset.sum_sub_distrib, Finset.sum_sub_distrib, explained, explained,
    sub_sub_sub_cancel_left]

theorem Object.recalculated_sub (st : ObjectState ι) (im : ι) (newOTF : ℕ → ℚ × ℚ) :
    (obj.recalculated st im newOTF).currentMetric - (obj.calcMetric st).currentMetric =
      if obj.weight = 0 then 0
      else (obj.explained st.sums - obj.explained (obj.addDiffToPQ st.sums im newOTF)) /
        (obj.patchSize * obj.patchSize) := by
  by_cases hweight : obj.weight = 0
  · simp only [recalculated, calcMetric, if_pos hweight, sub_self]
  · rw [if_neg hweight, ← metricOf_sub]
    simp only [recalculated, calcMetric, if_neg hweight]

/-- A number divided by the squares of two sizes. -/
theorem div_sq_eq_iff {m n : ℕ} {d : ℚ} (hm : m ≠ 0) (hn : n ≠ 0) :
    d / (m * m) = d / (n * n) ↔ m = n ∨ d = 0 := by
  have hm' : (m : ℚ) ≠ 0 := Nat.cast_ne_zero.2 hm
  have hn' : (n : ℚ) ≠ 0 := Nat.cast_ne_zero.2 hn
  rw [div_eq_div_iff (mul_ne_zero hm' hm') (mul_ne_zero hn' hn'), mul_eq_mul_left_iff]
  refine or_congr_left ?_
  rw [← Nat.cast_mul, ← Nat.cast_mul, Nat.cast_inj]
  exact ⟨fun h => (Nat.mul_self_inj.1 h).symm, fun h => by rw [h]⟩

/-! ## Replacing one image -/

/-- The object with the OTF of one sub-image replaced. -/
def Object.replaceOTF [DecidableEq ι] (obj : Object ι) (im : ι) (newOTF : ℕ → ℚ × ℚ) : Object ι :=
  { obj with image := Function.update obj.image im ⟨(obj.image im).imgFT, newOTF⟩ }

theorem conjMul_sub (a b c : ℚ × ℚ) : conjMul a (b - c) = conjMul a b - conjMul a c := by
  simp only [conjMul, Prod.fst_sub, Prod.snd_sub, Prod.mk_sub_mk, Prod.mk.injEq]
  constructor
  · ring
  · ring

theorem Object.part_replaceOTF_of_ne [DecidableEq ι] {im' : ι} (h : im' ≠ im) :
    (obj.replaceOTF im newOTF).part im' = obj.part im' := by
  have himage : (obj.replaceOTF im newOTF).image im' = obj.image im' := Function.update_of_ne h _ _
  rw [part, part, addPQ, addPQ, himage]
  rfl

/-- `addDiffToPQ` takes the old part of the sub-image out of the sums and puts the new one in. -/
theorem Object.addDiffToPQ_part [DecidableEq ι] (s : Sums ι) :
    obj.addDiffToPQ (obj.part im + s) im newOTF = (obj.replaceOTF im newOTF).part im + s := by
  have himage : (obj.replaceOTF im newOTF).image im = ⟨(obj.image im).imgFT, newOTF⟩ := Function.update_self ..
  have hsupport : (obj.replaceOTF im newOTF).otfSupport = obj.otfSupport := rfl
  ext ind
  all_goals simp only [part, addDiffToPQ, addPQ, himage, hsupport, Sums.add_def, Sums.zero_def, Pi.add_apply,
    Pi.zero_apply]
  · split_ifs
    · rw [conjMul_sub, zero_add, zero_add]
      simp only [Prod.fst_add, Prod.fst_sub]
      ring
    · rfl
  · split_ifs
    · rw [conjMul_sub, zero_add, zero_add]
      simp only [Prod.snd_add, Prod.snd_sub]
      ring
    · rfl
  · split_ifs
    · ring
    · rfl

/-- **What `addDiffToPQ` makes of the sums of all sub-images are the sums with the new OTF, as adding up all
sub-images again finds them in exact arithmetic.** -/
theorem Object.addDiffToPQ_full [DecidableEq ι] (hnodup : obj.subImages.Nodup) (hmem : im ∈ obj.subImages) :
    obj.addDiffToPQ obj.full im newOTF = (obj.replaceOTF im newOTF).full := by
  have hrest : ((obj.subImages.erase im).map (obj.replaceOTF im newOTF).part).sum =
      ((obj.subImages.erase im).map obj.part).sum := by
    refine congrArg List.sum (List.map_congr_left fun im' h => part_replaceOTF_of_ne ?_)
    rintro rfl
    exact hnodup.not_mem_erase h
  have hsum : ∀ f : ι → Sums ι,
      (obj.subImages.map f).sum = f im + ((obj.subImages.erase im).map f).sum := fun f =>
    ((List.perm_cons_erase hmem).map f).sum_eq.trans List.sum_cons
  have hfull : obj.full = obj.part im + (obj.initPQ + ((obj.subImages.erase im).map obj.part).sum) := by
    rw [full_eq, hsum, add_left_comm]
  have hfull' : (obj.replaceOTF im newOTF).full = (obj.replaceOTF im newOTF).part im +
      (obj.initPQ + ((obj.subImages.erase im).map obj.part).sum) := by
    rw [full_eq, ← hrest, add_left_comm, ← hsum]
    rfl
  rw [hfull, hfull', addDiffToPQ_part]

end Results

/-! ## When the two agree -/

/-- **`metricChange` is the change of the metric exactly if the patch is as large as the OTF (and the weight is
not zero, with which no metric is calculated), or there is no change; and nothing is divided by zero.** -/
theorem metricChange_agrees_iff {ι : Type} (obj : Object ι) (otfSize : ℕ) (st : ObjectState ι) (im : ι)
    (newOTF : ℕ → ℚ × ℚ) (hnew : ∀ ind ∈ obj.otfSupport, (obj.addDiffToPQ st.sums im newOTF).Q ind ≠ 0) :
    obj.ChangeAgrees otfSize st im newOTF ↔
      otfSize ≠ 0 ∧ (obj.weight ≠ 0 → obj.patchSize ≠ 0) ∧ (∀ ind ∈ obj.otfSupport, st.sums.Q ind ≠ 0) ∧
      (obj.weight ≠ 0 ∧ obj.patchSize = otfSize ∨
        obj.explained st.sums = obj.explained (obj.addDiffToPQ st.sums im newOTF)) := by
  have hdefined : obj.ChangeDefined otfSize st.sums im newOTF ↔
      otfSize ≠ 0 ∧ ∀ ind ∈ obj.otfSupport, st.sums.Q ind ≠ 0 := by
    refine and_congr_right fun _ => forall₂_congr fun ind hmem => ?_
    rw [← Object.addDiffToPQ_Q hmem, mul_ne_zero_iff]
    exact and_iff_left (hnew ind hmem)
  rw [Object.ChangeAgrees, hdefined, Object.recalculated_sub]
  constructor
  · rintro ⟨⟨hotf, hQ⟩, hmetric, -, heq⟩
    refine ⟨hotf, fun hweight => (hmetric hweight).1, hQ, ?_⟩
    rw [Object.metricChange_eq hQ hnew] at heq
    by_cases hweight : obj.weight = 0
    · rw [if_pos hweight, div_eq_zero_iff, sub_eq_zero] at heq
      have hotf' : (otfSize : ℚ) ≠ 0 := Nat.cast_ne_zero.2 hotf
      exact Or.inr (heq.resolve_right (mul_ne_zero hotf' hotf'))
    · rw [if_neg hweight, div_sq_eq_iff hotf (hmetric hweight).1, sub_eq_zero] at heq
      exact heq.imp (fun h => ⟨hweight, h.symm⟩) id
  · rintro ⟨hotf, hpatch, hQ, hsame⟩
    refine ⟨⟨hotf, hQ⟩, fun hweight => ⟨hpatch hweight, hQ⟩, fun hweight => ⟨hpatch hweight, hnew⟩, ?_⟩
    rw [Object.metricChange_eq hQ hnew]
    rcases hsame with ⟨hweight, hsize⟩ | hsame
    · rw [if_neg hweight, hsize]
    · rw [hsame, sub_self, zero_div, zero_div, ite_self]

theorem oneFile_ne_nil : [2] ≠ ([] : List ℕ) := List.cons_ne_nil _ _

theorem oneFile_sum : 2 = [2].sum := rfl

theorem twoImages_length : [false, true].length = 2 := rfl

/-- A file with two frames. -/
def twoFrames : Channel Bool := ⟨[false, true], 2, [2], [], oneFile_ne_nil, oneFile_sum, twoImages_length⟩

theorem twoImages_counted : 2 = 0 ∨ 2 = ([twoFrames].map Channel.nImages).sum := Or.inr rfl

theorem twoImages_ne_nil : [twoFrames].flatMap Channel.subImages ≠ [] := List.cons_ne_nil _ _

/-- Two images of a patch of 16 by 16 pixels, alike and with one index in the support. -/
def twoImages : Object Bool where
  weight := 1
  reg_gamma := 2
  patchSize := 16
  otfSupport := {0}
  ftSum _ := 2
  image _ := ⟨fun _ => (1, 0), fun _ => (1, 0)⟩
  channels := [twoFrames]
  nObjectImages := 2
  counted := twoImages_counted
  hasImages := twoImages_ne_nil

/-- Its sums, before any metric. -/
def twoImagesState : ObjectState Bool := ⟨twoImages.full, 0, .clear, []⟩

theorem addDiffToPQ_full_twoImages :
    twoImages.addDiffToPQ twoImages.full true 0 = (twoImages.replaceOTF true 0).full :=
  Object.addDiffToPQ_full (by decide) (List.mem_cons_of_mem _ (List.mem_singleton_self true))

theorem twoImages_P : twoImages.full.P 0 = (2, 0) := by
  norm_num [Object.full, twoImages, twoFrames, Object.subImages, Object.initPQ, Object.addPQ, conjMul]

theorem twoImages_Q : twoImages.full.Q 0 = 4 := by
  norm_num [Object.full, twoImages, twoFrames, Object.subImages, Object.initPQ, Object.addPQ, norm]

theorem twoImages_new : (twoImages.addDiffToPQ twoImages.full true 0).P 0 = (1, 0) ∧
    (twoImages.addDiffToPQ twoImages.full true 0).Q 0 = 3 := by
  have hmem : 0 ∈ twoImages.otfSupport := Finset.mem_singleton_self 0
  constructor
  · rw [Object.addDiffToPQ_P hmem, twoImages_P]
    norm_num [twoImages, SubImage.dp, SubImage.dsj, conjMul]
  · rw [Object.addDiffToPQ_Q hmem, SubImage.dq_eq, twoImages_Q]
    norm_num [twoImages, norm]

theorem twoImages_support {p : ℕ → Prop} (h : p 0) : ∀ ind ∈ twoImages.otfSupport, p ind :=
  fun _ hmem => Finset.mem_singleton.1 hmem ▸ h

theorem twoImages_explained : twoImages.explained twoImages.full = 1 ∧
    twoImages.explained (twoImages.addDiffToPQ twoImages.full true 0) = 1 / 3 := by
  constructor
  · rw [Object.explained]
    show ∑ ind ∈ {0}, norm (twoImages.full.P ind) / twoImages.full.Q ind = 1
    rw [Finset.sum_singleton, twoImages_P, twoImages_Q]
    norm_num [norm]
  · rw [Object.explained]
    show ∑ ind ∈ {0}, norm ((twoImages.addDiffToPQ twoImages.full true 0).P ind) / _ = 1 / 3
    rw [Finset.sum_singleton, twoImages_new.1, twoImages_new.2]
    norm_num [norm]

theorem twoImages_new_ne_zero :
    ∀ ind ∈ twoImages.otfSupport, (twoImages.addDiffToPQ twoImagesState.sums true 0).Q ind ≠ 0 := by
  refine twoImages_support ?_
  show (twoImages.addDiffToPQ twoImages.full true 0).Q 0 ≠ 0
  rw [twoImages_new.2]
  exact three_ne_zero

theorem twoImages_Q_ne_zero : ∀ ind ∈ twoImages.otfSupport, twoImagesState.sums.Q ind ≠ 0 := by
  refine twoImages_support ?_
  show twoImages.full.Q 0 ≠ 0
  rw [twoImages_Q]
  exact four_ne_zero

/-- The second image loses its OTF: the two agree with `pupilPixels = 8`, when the OTF is as large as the
patch. -/
theorem metricChange_agrees_iff_twoImages :
    (∀ ind ∈ twoImages.otfSupport, (twoImages.addDiffToPQ twoImagesState.sums true 0).Q ind ≠ 0) ∧
      twoImages.ChangeAgrees 16 twoImagesState true 0 :=
  ⟨twoImages_new_ne_zero, (metricChange_agrees_iff twoImages 16 twoImagesState true 0 twoImages_new_ne_zero).2
    ⟨OfNat.ofNat_ne_zero 16, fun _ => OfNat.ofNat_ne_zero 16, twoImages_Q_ne_zero, Or.inl ⟨one_ne_zero, rfl⟩⟩⟩

/-- With `pupilPixels = 32`, `metricChange` is a sixteenth of the change. -/
theorem metricChange_of_larger_otf : twoImagesState.sums = twoImages.full ∧ true ∈ twoImages.subImages ∧
    (∀ ind ∈ twoImages.otfSupport, (twoImages.addDiffToPQ twoImagesState.sums true 0).Q ind ≠ 0) ∧
    ¬ twoImages.ChangeAgrees 64 twoImagesState true 0 ∧
    twoImages.metricChange 64 twoImagesState.sums true 0 = 1 / 6144 ∧
    (twoImages.recalculated twoImagesState true 0).currentMetric -
      (twoImages.calcMetric twoImagesState).currentMetric = 1 / 384 := by
  have hchange : twoImages.metricChange 64 twoImages.full true 0 = 1 / 6144 := by
    have hformula : twoImages.metricChange 64 twoImages.full true 0 = _ :=
      Object.metricChange_eq twoImages_Q_ne_zero twoImages_new_ne_zero
    rw [hformula]
    show (twoImages.explained twoImages.full -
      twoImages.explained (twoImages.addDiffToPQ twoImages.full true 0)) / _ = _
    rw [twoImages_explained.1, twoImages_explained.2]
    norm_num
  have hweight : twoImages.weight ≠ 0 := one_ne_zero
  have hdiff : (twoImages.recalculated twoImagesState true 0).currentMetric -
      (twoImages.calcMetric twoImagesState).currentMetric = 1 / 384 := by
    rw [Object.recalculated_sub, if_neg hweight]
    show (twoImages.explained twoImages.full -
      twoImages.explained (twoImages.addDiffToPQ twoImages.full true 0)) / _ = _
    rw [twoImages_explained.1, twoImages_explained.2]
    norm_num [twoImages]
  refine ⟨rfl, List.mem_cons_of_mem _ (List.mem_singleton_self true), twoImages_new_ne_zero, fun hagrees => ?_,
    hchange, hdiff⟩
  have heq := hagrees.2.2.2.symm.trans hchange
  rw [hdiff] at heq
  norm_num at heq

end Redux.Momfbd.Metric
