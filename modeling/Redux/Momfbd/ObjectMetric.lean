import Mathlib.Algebra.BigOperators.Pi
import Mathlib.Algebra.BigOperators.Ring.Finset
import Mathlib.Algebra.Order.Ring.Rat
import Mathlib.Data.Multiset.AddSub
import Redux.Lib.Tally
import Redux.Util.ProgressWatch

/-!
# Momfbd.ObjectMetric — the sums of one object and the watch that tells when they are complete

`Solver::metric` adds the sub-images of an object in batches: a batch sums its images in the storage of its
thread and adds the result to `P` and `Q` of the object.  The watch of the object starts with the number of
images as its target, the target is raised as each batch is posted, and the batches posted before may be
running already.  All arithmetic is exact.  What is proved here is about one object (`Inv`): its handler
comes once, and finds the sums complete.
-/

namespace Redux.Momfbd.Metric

open Redux.Lib

/-! ## Model -/

/-- `norm( z )` of a `complex_t`. -/
def norm (z : ℚ × ℚ) : ℚ := z.1 * z.1 + z.2 * z.2

/-- `conj( a ) * b`. -/
def conjMul (a b : ℚ × ℚ) : ℚ × ℚ := (a.1 * b.1 + a.2 * b.2, a.1 * b.2 - a.2 * b.1)

/-- The arrays `P` and `Q`, of an object or in the storage of a thread, and the sub-images that have been
added to them. -/
@[ext]
structure Sums (ι : Type) where
  P : ℕ → ℚ × ℚ
  Q : ℕ → ℚ
  images : Multiset ι

/-- The arrays of a `SubImage`. -/
structure SubImage where
  imgFT : ℕ → ℚ × ℚ
  OTF : ℕ → ℚ × ℚ

/-- A `Channel` after `checkData` and `initProcessing`; `ι` are the pointers to the sub-images. -/
structure Channel (ι : Type) where
  subImages : List ι
  nTotalFrames : ℕ
  nFrames : List ℕ
  fileNumbers : List ℕ
  files : nFrames ≠ []
  counted : nTotalFrames = nFrames.sum
  sized : subImages.length = nTotalFrames

def Channel.nImages {ι : Type} (c : Channel ι) : ℕ :=
  if c.nTotalFrames = 0 then
    if c.nFrames = [] then c.fileNumbers.length else c.nFrames.sum
  else c.nTotalFrames

/-- An `Object` with at least one sub-image.  `otfSupport` are the indices that the loops go over. -/
structure Object (ι : Type) where
  weight : ℚ
  reg_gamma : ℚ
  patchSize : ℕ
  otfSupport : Finset ℕ
  ftSum : ℕ → ℚ
  image : ι → SubImage
  channels : List (Channel ι)
  nObjectImages : ℕ
  counted : nObjectImages = 0 ∨ nObjectImages = (channels.map Channel.nImages).sum
  hasImages : channels.flatMap Channel.subImages ≠ []

/-- What a batch has left to do. -/
inductive BatchOp (ι : Type) where
  | addPQ (im : ι)
  | step
  | addToPQ
  | handler

/-- A posted batch, with the storage `tmp()` of the thread that runs it. -/
structure Batch (ι : Type) where
  tmp : Sums ι
  ops : List (BatchOp ι)

/-- What `metric()` changes of an object, with the batches posted for it.  The one handler that it sets
calls `calcMetric` of the object and adds up. -/
structure ObjectState (ι : Type) where
  sums : Sums ι
  currentMetric : ℚ
  progWatch : ProgressWatch Unit
  batches : List (Batch ι)

/-- What `metric()` does for an object, on the main thread. -/
inductive Instr (ι : Type) where
  | initPQ
  | set
  | setHandler
  | increaseTarget
  | post (imgs : List ι)

def nMaxImages : ℕ := 30

/-- The loop over the images of a channel, from `begIndex` on. -/
def batches {ι : Type} (imgs : List ι) (begIndex : ℕ) : List (List ι) :=
  if begIndex < imgs.length then
    let endIndex := min (begIndex + nMaxImages) imgs.length
    (imgs.take endIndex).drop begIndex :: batches imgs endIndex
  else []
  termination_by imgs.length - begIndex
  decreasing_by
    unfold nMaxImages
    omega

/-- The body of a posted batch: `addPQ` and `++` for each image, then `addToPQ` and `++`. -/
def batchOps {ι : Type} (imgs : List ι) : List (BatchOp ι) :=
  imgs.flatMap (fun im => [.addPQ im, .step]) ++ [.addToPQ, .step]

namespace Sums

variable {ι : Type}

instance : Zero (Sums ι) := ⟨⟨0, 0, 0⟩⟩

instance : Add (Sums ι) := ⟨fun s t => ⟨s.P + t.P, s.Q + t.Q, s.images + t.images⟩⟩

theorem add_def (s t : Sums ι) : s + t = ⟨s.P + t.P, s.Q + t.Q, s.images + t.images⟩ := rfl

theorem zero_def : (0 : Sums ι) = ⟨0, 0, 0⟩ := rfl

instance : AddCommMonoid (Sums ι) where
  add_assoc a b c := by
    simp only [add_def]
    ext1 <;> exact add_assoc _ _ _
  zero_add a := by
    simp only [add_def, zero_def]
    ext1 <;> exact zero_add _
  add_zero a := by
    simp only [add_def, zero_def]
    ext1 <;> exact add_zero _
  add_comm a b := by
    simp only [add_def]
    ext1 <;> exact add_comm _ _
  nsmul := nsmulRec

end Sums

namespace Object

variable {ι : Type} (obj : Object ι)

def nImages : ℕ :=
  if obj.nObjectImages = 0 then (obj.channels.map Channel.nImages).sum else obj.nObjectImages

def subImages : List ι := obj.channels.flatMap Channel.subImages

/-- What `initPQ()` leaves. -/
def initPQ : Sums ι := ⟨fun _ => 0, fun _ => obj.reg_gamma, 0⟩

/-- `imgs[i]->addPQ( tmpC, tmpD )`. -/
def addPQ (im : ι) (tmp : Sums ι) : Sums ι where
  P ind := if ind ∈ obj.otfSupport then
    tmp.P ind + conjMul ((obj.image im).imgFT ind) ((obj.image im).OTF ind) else tmp.P ind
  Q ind := if ind ∈ obj.otfSupport then tmp.Q ind + norm ((obj.image im).OTF ind) else tmp.Q ind
  images := im ::ₘ tmp.images

/-- `addToPQ( tmpC, tmpD )`. -/
def addToPQ (s tmp : Sums ι) : Sums ι where
  P ind := if ind ∈ obj.otfSupport then s.P ind + tmp.P ind else s.P ind
  Q ind := if ind ∈ obj.otfSupport then s.Q ind + tmp.Q ind else s.Q ind
  images := s.images + tmp.images

/-- The value that `calcMetric()` computes of the sums. -/
def metricOf (s : Sums ι) : ℚ :=
  (∑ ind ∈ obj.otfSupport, (obj.ftSum ind - norm (s.P ind) / s.Q ind)) / (obj.patchSize * obj.patchSize)

/-- `calcMetric()`. -/
def calcMetric (st : ObjectState ι) : ObjectState ι :=
  if obj.weight = 0 then st else { st with currentMetric := obj.metricOf st.sums }

/-- `metric()` of the object. -/
def metric (st : ObjectState ι) : ℚ := obj.weight * st.currentMetric

/-- The loops over channels and batches. -/
def posts : List (Instr ι) :=
  (obj.channels.flatMap fun c => batches c.subImages 0).flatMap fun imgs => [.increaseTarget, .post imgs]

/-- What `metric()` does for the object. -/
def program : List (Instr ι) := .initPQ :: .set :: .setHandler :: obj.posts

def exec (st : ObjectState ι) : Instr ι → ObjectState ι
  | .initPQ => { st with sums := obj.initPQ }
  | .set => { st with progWatch := st.progWatch.set obj.nImages 0 }
  | .setHandler => { st with progWatch := st.progWatch.setHandler () }
  | .increaseTarget => { st with progWatch := st.progWatch.increaseTarget 1 }
  | .post imgs => { st with batches := st.batches ++ [⟨0, batchOps imgs⟩] }

/-- The next operation of batch `k`, and whether it was the handler.  A handler that `++` takes out of the
watch runs next. -/
def work (st : ObjectState ι) (k : ℕ) : Option (ObjectState ι × Bool) :=
  match st.batches[k]? with
  | some ⟨tmp, .addPQ im :: ops⟩ => some ({ st with batches := st.batches.set k ⟨obj.addPQ im tmp, ops⟩ }, false)
  | some ⟨tmp, .step :: ops⟩ => some ({ st with
      progWatch := st.progWatch.step.1
      batches := st.batches.set k ⟨tmp, st.progWatch.step.2.toList.map (fun _ => .handler) ++ ops⟩ }, false)
  | some ⟨tmp, .addToPQ :: ops⟩ => some ({ st with
      sums := obj.addToPQ st.sums tmp
      batches := st.batches.set k ⟨tmp, ops⟩ }, false)
  | some ⟨tmp, .handler :: ops⟩ => some (obj.calcMetric { st with batches := st.batches.set k ⟨tmp, ops⟩ }, true)
  | _ => none

/-- The sums with every sub-image added once. -/
def full : Sums ι := obj.subImages.foldl (fun s im => obj.addPQ im s) obj.initPQ

end Object

section Results

variable {ι : Type} {obj : Object ι}

/-! ## The sums -/

namespace Object

variable (obj)

/-- What a sub-image adds. -/
def part (im : ι) : Sums ι := obj.addPQ im 0

/-- What `addToPQ` adds. -/
def onSupport (tmp : Sums ι) : Sums ι := obj.addToPQ 0 tmp

theorem addPQ_eq (im : ι) (tmp : Sums ι) : obj.addPQ im tmp = tmp + obj.part im := by
  ext ind
  all_goals simp only [part, addPQ, Sums.add_def, Sums.zero_def, Pi.add_apply, Pi.zero_apply]
  · split_ifs <;> simp
  · split_ifs <;> simp
  · split_ifs <;> simp
  · rw [← Multiset.singleton_add, add_comm]
    rfl

theorem addToPQ_eq (s tmp : Sums ι) : obj.addToPQ s tmp = s + obj.onSupport tmp := by
  ext ind
  all_goals simp only [onSupport, addToPQ, Sums.add_def, Sums.zero_def, Pi.add_apply, Pi.zero_apply]
  · split_ifs <;> simp
  · split_ifs <;> simp
  · split_ifs <;> simp
  · rw [zero_add]

theorem onSupport_zero : obj.onSupport 0 = 0 := by
  ext ind
  all_goals simp [onSupport, addToPQ, Sums.zero_def]

theorem onSupport_add (s t : Sums ι) : obj.onSupport (s + t) = obj.onSupport s + obj.onSupport t := by
  ext ind
  all_goals simp only [onSupport, addToPQ, Sums.add_def, Sums.zero_def, Pi.add_apply, Pi.zero_apply]
  · split_ifs <;> simp
  · split_ifs <;> simp
  · split_ifs <;> simp
  · simp only [zero_add]

/-- What the sub-images add lies on the support already. -/
theorem onSupport_part (im : ι) : obj.onSupport (obj.part im) = obj.part im := by
  ext ind
  all_goals simp only [part, onSupport, addToPQ, addPQ, Sums.zero_def, Pi.zero_apply]
  · split_ifs <;> simp
  · split_ifs <;> simp
  · split_ifs <;> simp
  · rw [zero_add]

theorem foldl_addPQ (ims : List ι) (s : Sums ι) :
    ims.foldl (fun s im => obj.addPQ im s) s = s + (ims.map obj.part).sum := by
  induction ims generalizing s with
  | nil => exact (add_zero s).symm
  | cons im ims ih => rw [List.foldl_cons, ih, addPQ_eq, List.map_cons, List.sum_cons, add_assoc]

theorem full_eq : obj.full = obj.initPQ + (obj.subImages.map obj.part).sum := obj.foldl_addPQ _ _

/-- **The object has each of its sub-images once.** -/
theorem images_full : obj.full.images = obj.subImages := by
  have h : ∀ (ims : List ι) (s : Sums ι),
      (ims.foldl (fun s im => obj.addPQ im s) s).images = ↑ims + s.images := by
    intro ims
    induction ims with
    | nil => exact fun s => (zero_add _).symm
    | cons im ims ih =>
      intro s
      rw [List.foldl_cons, ih]
      show ↑ims + (im ::ₘ s.images) = _
      rw [Multiset.add_cons, ← Multiset.cons_coe, Multiset.cons_add]
  exact (h _ _).trans (add_zero _)

end Object

end Results

end Redux.Momfbd.Metric
