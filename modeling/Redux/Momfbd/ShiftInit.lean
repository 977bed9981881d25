import Mathlib.Algebra.BigOperators.Group.Finset.Basic
import Redux.Lib.Tally
import Redux.Momfbd.ObjectMetric
import Redux.Momfbd.Shifts

/-!
# Momfbd.ShiftInit — the images of one object are shifted, and transformed again

`Solver::shiftAndInit` posts one task for each image that adjusts its shift, and the last of them calls the
handler of the object, `reInitialize`: if an image was shifted, or a reset was asked for, all images of the
object are transformed again, each by a task that brings `ftSum` up to date; otherwise they are accounted for
at once.  What is proved here is about one object and one call (`Inv`).
-/

namespace Redux.Momfbd.ShiftInit

open Redux.Lib Redux.Util.Arrays Redux.Momfbd.Shifts

/-! ## Model -/

/-- What is read of an `Object`.  `fitAvgPlane` is the plane that is fitted to the images with the given views,
and `transform` is what `initialize` makes of an image with its view and that plane. -/
structure Object (π : Type) where
  nImages : ℕ
  otfSize2 : ℕ
  modes : ModeSet
  fitAvgPlane : (ℕ → Array) → π
  transform : ℕ → Array → π → ℕ → ℚ × ℚ

/-- The task of an image that `shiftAndInit` posts; `alpha` is the section for the image. -/
inductive AdjustOp where
  | adjustShifts (alpha : ℤ → ℚ)
  | step

/-- What the handler has left to do. -/
inductive HandlerOp where
  | reInitialize (doReset : Bool)
  | post (doReset : Bool)
  | increase

/-- The task of an image that `reInitialize` posts; `oldFT` is the copy of what the image had. -/
inductive InitOp where
  | transform (doReset : Bool)
  | addFT (doReset : Bool) (oldFT : ℕ → ℚ × ℚ)
  | step

/-- What a call does for an object on the main thread: `clear`, `imgShifted`, `set` and `setHandler`, and the
tasks. -/
inductive Instr where
  | prepare (doReset : Bool)
  | post (alpha : ℤ → ℚ)

/-- What a call changes of an object, the arrays of its images by their number, and what is left of the tasks
that were posted in the call, in the order of the images.  The handler runs in the thread that took it out of the
watch.  `accounted` says how often an image has been accounted for in the call. -/
structure ObjectState (π : Type) where
  progWatch : ProgressWatch Bool
  imgShifted : Bool
  fittedPlane : π
  ftSum : ℕ → ℚ
  sub : ℕ → SubImage
  imgFT : ℕ → ℕ → ℚ × ℚ
  adjusting : List (List AdjustOp)
  handler : List HandlerOp
  initializing : List (List InitOp)
  accounted : ℕ → ℕ

namespace Object

variable {π : Type} (obj : Object π)

/-- `addToFT( imgFT )`, or `addDiffToFT( imgFT, oldFT )`. -/
def addFT (doReset : Bool) (newFT oldFT : ℕ → ℚ × ℚ) (ftSum : ℕ → ℚ) : ℕ → ℚ := fun ind =>
  if ind < obj.otfSize2 then
    if doReset then ftSum ind + Metric.norm (newFT ind)
    else ftSum ind + (Metric.norm (newFT ind) - Metric.norm (oldFT ind))
  else ftSum ind

def exec (st : ObjectState π) : Instr → ObjectState π
  | .prepare doReset => { st with
      progWatch := (ProgressWatch.clear.set obj.nImages 0).setHandler doReset
      imgShifted := doReset }
  | .post alpha => { st with adjusting := st.adjusting ++ [[.adjustShifts alpha, .step]] }

/-- What a call does for the object. -/
def program (doReset : Bool) (alpha : ℕ → ℤ → ℚ) : List Instr :=
  .prepare doReset :: (List.range obj.nImages).map fun im => .post (alpha im)

/-- The next operation of the first task of image `k`. -/
def adjust (st : ObjectState π) (k : ℕ) : Option (ObjectState π) :=
  match st.adjusting[k]? with
  | some (.adjustShifts alpha :: ops) => some { st with
      sub := Function.update st.sub k (adjustShifts obj.modes alpha (st.sub k)).1
      imgShifted := st.imgShifted || (adjustShifts obj.modes alpha (st.sub k)).2
      adjusting := st.adjusting.set k ops }
  | some (.step :: ops) => some { st with
      progWatch := st.progWatch.step.1
      handler := st.progWatch.step.2.toList.map .reInitialize ++ st.handler
      adjusting := st.adjusting.set k ops }
  | _ => none

/-- The next operation of the handler, with the steps that it makes of the watch of the solver. -/
def handle (st : ObjectState π) : Option (ObjectState π × Option ℕ) :=
  match st.handler with
  | .reInitialize doReset :: ops =>
    if st.imgShifted then some ({ st with
      progWatch := .clear
      fittedPlane := obj.fitAvgPlane fun im => (st.sub im).view
      ftSum := if doReset then fun ind => if ind < obj.otfSize2 then 0 else st.ftSum ind else st.ftSum
      handler := List.replicate obj.nImages (.post doReset) ++ ops }, none)
    else some ({ st with progWatch := .clear, handler := .increase :: ops }, none)
  | .post doReset :: ops => some ({ st with
      handler := ops
      initializing := st.initializing ++ [[.transform doReset, .step]] }, none)
  | .increase :: ops =>
    some ({ st with handler := ops, accounted := fun im => st.accounted im + 1 }, some obj.nImages)
  | [] => none

/-- The next operation of the second task of image `k`. -/
def initImage (st : ObjectState π) (k : ℕ) : Option (ObjectState π × Option ℕ) :=
  match st.initializing[k]? with
  | some (.transform doReset :: ops) => some ({ st with
      imgFT := Function.update st.imgFT k (obj.transform k (st.sub k).view st.fittedPlane)
      initializing := st.initializing.set k
        (.addFT doReset (if doReset then 0 else st.imgFT k) :: ops) }, none)
  | some (.addFT doReset oldFT :: ops) => some ({ st with
      ftSum := obj.addFT doReset (st.imgFT k) oldFT st.ftSum
      initializing := st.initializing.set k ops }, none)
  | some (.step :: ops) => some ({ st with
      accounted := Function.update st.accounted k (st.accounted k + 1)
      initializing := st.initializing.set k ops }, some 1)
  | _ => none

/-- The power spectra of the images as they are add up to `ftSum`. -/
def Synced (st : ObjectState π) : Prop :=
  ∀ ind < obj.otfSize2, st.ftSum ind = ∑ im ∈ Finset.range obj.nImages, Metric.norm (st.imgFT im ind)

/-- The transforms are those of the images at their shifts. -/
def Fresh (st : ObjectState π) : Prop :=
  ∀ im < obj.nImages, st.imgFT im = obj.transform im (st.sub im).view st.fittedPlane

/-- How many images have been accounted for. -/
def total (st : ObjectState π) : ℕ := ∑ im ∈ Finset.range obj.nImages, st.accounted im

end Object

namespace ObjectState

variable {π : Type} (st : ObjectState π)

/-- How many of the first tasks have not made their step. -/
def unfinished : ℕ := (st.adjusting.map fun ops => if ops.isEmpty then 0 else 1).sum

/-- No task is left. -/
def Quiet : Prop := (∀ ops ∈ st.adjusting, ops = []) ∧ st.handler = [] ∧ ∀ ops ∈ st.initializing, ops = []

end ObjectState

/-- What `ftSum` has of an image with the given second task and transform. -/
def counted (doReset : Bool) (task : Option (List InitOp)) (imgFT : ℕ → ℚ × ℚ) (ind : ℕ) : ℚ :=
  match task with
  | some (.addFT _ oldFT :: _) => if doReset then 0 else Metric.norm (oldFT ind)
  | some (.transform _ :: _) | none => if doReset then 0 else Metric.norm (imgFT ind)
  | some _ => Metric.norm (imgFT ind)

/-- An image with the given second task has been transformed. -/
def transformed (task : Option (List InitOp)) : Prop :=
  match task with
  | some (.transform _ :: _) | none => False
  | some _ => True

/-- Whether a second task has made its step. -/
def finished (task : Option (List InitOp)) : ℕ :=
  match task with
  | some [] => 1
  | _ => 0

/-- How a first task can look. -/
def AdjustForm (ops : List AdjustOp) : Prop :=
  (∃ alpha, ops = [.adjustShifts alpha, .step]) ∨ ops = [.step] ∨ ops = []

/-- How a second task can look. -/
def InitForm (doReset : Bool) (ops : List InitOp) : Prop :=
  ops = [.transform doReset, .step] ∨ (∃ oldFT, ops = [.addFT doReset oldFT, .step]) ∨ ops = [.step] ∨ ops = []

/-- No image has been transformed yet. -/
structure Before {π : Type} (obj : Object π) (doReset : Bool) (st : ObjectState π) : Prop where
  none : st.initializing = []
  accounted : ∀ im, st.accounted im = 0
  shifted : doReset = true → st.imgShifted = true
  sync : doReset = true ∨ obj.Synced st
  fresh : st.imgShifted = false → obj.Fresh st

/-- The images are being shifted: `left` of them have no task yet, and `made` tasks have made their step. -/
structure Adjusting {π : Type} (obj : Object π) (doReset : Bool) (left made : ℕ) (st : ObjectState π) : Prop
    extends Before obj doReset st where
  len : st.adjusting.length + left = obj.nImages
  form : ∀ ops ∈ st.adjusting, AdjustForm ops
  counts : st.progWatch.Counts obj.nImages made
  steps : made + st.unfinished = st.adjusting.length
  lt : made < obj.nImages
  set : st.progWatch.onCompletion = some doReset
  handler : st.handler = []

/-- The images are being transformed: `left` of them have no task yet. -/
structure Initializing {π : Type} (obj : Object π) (doReset : Bool) (left : ℕ) (st : ObjectState π) : Prop where
  quiet : ∀ ops ∈ st.adjusting, ops = []
  handler : st.handler = List.replicate left (.post doReset)
  len : st.initializing.length + left = obj.nImages
  form : ∀ ops ∈ st.initializing, InitForm doReset ops
  accounted : ∀ im < obj.nImages, st.accounted im = finished st.initializing[im]?
  sum : ∀ ind < obj.otfSize2, st.ftSum ind =
    ∑ im ∈ Finset.range obj.nImages, counted doReset st.initializing[im]? (st.imgFT im) ind
  fresh : ∀ im < obj.nImages, transformed st.initializing[im]? →
    st.imgFT im = obj.transform im (st.sub im).view st.fittedPlane

/-- Where an object is in a call; `q` is what the main thread has still to do for it. -/
inductive Phase {π : Type} (obj : Object π) (doReset : Bool) : List Instr → ObjectState π → Prop
  /-- The main thread has not come to the object. -/
  | waiting {st : ObjectState π} (alphas : List (ℤ → ℚ)) (hlen : alphas.length = obj.nImages)
      (hquiet : st.adjusting = [] ∧ st.handler = [] ∧ st.initializing = [])
      (haccounted : ∀ im, st.accounted im = 0)
      (hsync : doReset = true ∧ 0 < obj.nImages ∨ obj.Synced st ∧ obj.Fresh st) :
      Phase obj doReset (.prepare doReset :: alphas.map .post) st
  | adjusting {st : ObjectState π} (alphas : List (ℤ → ℚ)) (made : ℕ)
      (h : Adjusting obj doReset alphas.length made st) : Phase obj doReset (alphas.map .post) st
  /-- The handler is about to begin. -/
  | handling {st : ObjectState π} (hpos : 0 < obj.nImages) (hquiet : ∀ ops ∈ st.adjusting, ops = [])
      (hhandler : st.handler = [.reInitialize doReset]) (h : Before obj doReset st) : Phase obj doReset [] st
  | initializing {st : ObjectState π} (left : ℕ) (h : Initializing obj doReset left st) : Phase obj doReset [] st
  /-- No image was shifted. -/
  | skipping {st : ObjectState π} (hpos : 0 < obj.nImages) (hquiet : ∀ ops ∈ st.adjusting, ops = [])
      (hhandler : st.handler = [.increase]) (hnone : st.initializing = [])
      (haccounted : ∀ im, st.accounted im = 0) (hsync : obj.Synced st) (hfresh : obj.Fresh st) :
      Phase obj doReset [] st
  /-- All images have been accounted for, without having been transformed. -/
  | skipped {st : ObjectState π} (hquiet : st.Quiet) (haccounted : ∀ im < obj.nImages, st.accounted im = 1)
      (hsync : obj.Synced st) (hfresh : obj.Fresh st) :
      Phase obj doReset [] st

/-- What holds of an object throughout a call. -/
structure Inv {π : Type} (obj : Object π) (doReset : Bool) (q : List Instr) (st : ObjectState π) : Prop where
  tracked : ∀ im < obj.nImages, ∃ view, Tracks obj.modes view (st.sub im)
  phase : Phase obj doReset q st

section Results

variable {π : Type} {obj : Object π} {doReset : Bool} {q : List Instr} {st st' : ObjectState π} {k : ℕ}
  {c : Option ℕ}

/-! ## The first tasks -/

/-- A step is owed by every task that is not empty. -/
theorem unfinished_eq_zero_iff : st.unfinished = 0 ↔ ∀ ops ∈ st.adjusting, ops = [] := by
  rw [ObjectState.unfinished, List.sum_eq_zero_iff, List.forall_mem_map]
  refine forall₂_congr fun ops _ => ?_
  cases ops with
  | nil => exact iff_of_true rfl rfl
  | cons op ops => exact iff_of_false Nat.one_ne_zero (List.cons_ne_nil _ _)

theorem AdjustForm.tail {op : AdjustOp} {ops : List AdjustOp} (h : AdjustForm (op :: ops)) : AdjustForm ops := by
  rcases h with ⟨alpha, h⟩ | h | h
  · exact Or.inr (Or.inl (List.cons.inj h).2)
  · exact Or.inr (Or.inr (List.cons.inj h).2)
  · exact absurd h (List.cons_ne_nil _ _)

theorem AdjustForm.step {ops : List AdjustOp} (h : AdjustForm (.step :: ops)) : ops = [] := by
  rcases h with ⟨alpha, h⟩ | h | h
  · exact AdjustOp.noConfusion (List.cons.inj h).1
  · exact (List.cons.inj h).2
  · exact absurd h (List.cons_ne_nil _ _)

/-- **The main thread prepares the object, or posts a task.** -/
theorem Inv.exec {i : Instr} (h : Inv obj doReset (i :: q) st) :
    Inv obj doReset q (obj.exec st i) ∧ (obj.exec st i).accounted = st.accounted := by
  obtain ⟨htracked, hphase⟩ := h
  generalize hq : i :: q = p at hphase
  cases hphase with
  | waiting alphas hlen hquiet haccounted hsync =>
    obtain ⟨rfl, rfl⟩ := List.cons.inj hq
    obtain ⟨hadjusting, hhandler, hinit⟩ := hquiet
    refine ⟨⟨htracked, ?_⟩, rfl⟩
    have hnone : ∀ ops ∈ (obj.exec st (.prepare doReset)).adjusting, ops = [] := by
      show ∀ ops ∈ st.adjusting, ops = []
      rw [hadjusting]
      exact List.forall_mem_nil _
    rcases Nat.eq_zero_or_pos obj.nImages with hzero | hpos
    · obtain rfl := List.length_eq_zero_iff.1 (hlen.trans hzero)
      obtain ⟨-, hpos⟩ | ⟨hs, hf⟩ := hsync
      · omega
      · refine .skipped ⟨hnone, hhandler, ?_⟩ (fun im him => by omega) hs hf
        show ∀ ops ∈ st.initializing, ops = []
        rw [hinit]
        exact List.forall_mem_nil _
    · obtain ⟨h₁, h₂, h₃, h₄⟩ := ProgressWatch.counts_set (.clear : ProgressWatch Bool) obj.nImages
      refine .adjusting alphas 0 ⟨⟨hinit, haccounted, id, hsync.imp And.left And.left, fun hnot => ?_⟩, ?_, ?_,
        ⟨h₁, h₂, h₃, h₄⟩, ?_, hpos, rfl, hhandler⟩
      · obtain ⟨hreset, -⟩ | ⟨-, hf⟩ := hsync
        · exact Bool.noConfusion (hreset.symm.trans hnot)
        · exact hf
      · show st.adjusting.length + _ = _
        rw [hadjusting, List.length_nil, Nat.zero_add, hlen]
      · exact fun ops hmem => Or.inr (Or.inr (hnone ops hmem))
      · rw [unfinished_eq_zero_iff.2 hnone]
        show 0 = st.adjusting.length
        rw [hadjusting, List.length_nil]
  | adjusting alphas made h =>
    cases alphas with
    | nil => exact absurd hq (List.cons_ne_nil _ _)
    | cons alpha alphas =>
      obtain ⟨rfl, rfl⟩ := List.cons.inj hq
      have hunfinished : ObjectState.unfinished (obj.exec st (.post alpha)) = st.unfinished + 1 :=
        sum_map_concat _
      have hlen := h.len
      have hsteps := h.steps
      refine ⟨⟨htracked, .adjusting alphas made ⟨⟨h.none, h.accounted, h.shifted, h.sync, h.fresh⟩, ?_, ?_, h.counts,
        ?_, h.lt, h.set, h.handler⟩⟩, rfl⟩
      · show (st.adjusting ++ [_]).length + _ = _
        rw [List.length_append, List.length_singleton, ← hlen, List.length_cons]
        omega
      · exact List.forall_mem_append.2 ⟨h.form, List.forall_mem_singleton.2 (Or.inl ⟨alpha, rfl⟩)⟩
      · rw [hunfinished]
        show _ = (st.adjusting ++ [_]).length
        rw [List.length_append, List.length_singleton, ← hsteps]
        omega
  | handling => exact absurd hq (List.cons_ne_nil _ _)
  | initializing => exact absurd hq (List.cons_ne_nil _ _)
  | skipping => exact absurd hq (List.cons_ne_nil _ _)
  | skipped => exact absurd hq (List.cons_ne_nil _ _)

/-- The phase in which a first task has something left to do. -/
theorem Phase.of_adjusting {op : AdjustOp} {ops : List AdjustOp} (h : Phase obj doReset q st)
    (hk : st.adjusting[k]? = some (op :: ops)) : ∃ (alphas : List (ℤ → ℚ)) (made : ℕ),
      q = alphas.map .post ∧ Adjusting obj doReset alphas.length made st ∧ k < obj.nImages := by
  have hmem := List.mem_of_getElem? hk
  cases h with
  | waiting alphas hlen hquiet =>
    rw [hquiet.1] at hmem
    exact absurd hmem List.not_mem_nil
  | adjusting alphas made h =>
    have hlt := (List.getElem?_eq_some_iff.1 hk).1
    have hlen := h.len
    exact ⟨alphas, made, rfl, h, by omega⟩
  | handling hpos hquiet => exact absurd (hquiet _ hmem) (List.cons_ne_nil _ _)
  | initializing left h => exact absurd (h.quiet _ hmem) (List.cons_ne_nil _ _)
  | skipping hpos hquiet => exact absurd (hquiet _ hmem) (List.cons_ne_nil _ _)
  | skipped hquiet => exact absurd (hquiet.1 _ hmem) (List.cons_ne_nil _ _)

/-- **An image is shifted, or the watch of the object makes a step: the last one brings the handler.** -/
theorem Inv.adjust (h : Inv obj doReset q st) (hs : obj.adjust st k = some st') :
    Inv obj doReset q st' ∧ st'.accounted = st.accounted := by
  obtain ⟨htracked, hphase⟩ := h
  rw [Object.adjust] at hs
  split at hs
  · next alpha ops hk =>
    obtain rfl := Option.some.inj hs
    obtain ⟨alphas, made, rfl, ha, hklt⟩ := hphase.of_adjusting hk
    obtain ⟨view, hview⟩ := htracked k hklt
    obtain ⟨hview', hsame⟩ := hview.adjustShifts alpha
    have hform := ha.form _ (List.mem_of_getElem? hk)
    have hops : ops = [.step] := by
      rcases hform with ⟨a, h⟩ | h | h
      · exact (List.cons.inj h).2
      · exact AdjustOp.noConfusion (List.cons.inj h).1
      · exact absurd h (List.cons_ne_nil _ _)
    refine ⟨⟨fun im him => ?_, .adjusting alphas made ⟨⟨ha.none, ha.accounted, fun hd => ?_, ha.sync,
      fun hnot => ?_⟩, ?_, forall_mem_set ha.form hform.tail, ha.counts, ?_, ha.lt, ha.set, ha.handler⟩⟩, rfl⟩
    · by_cases hne : im = k
      · subst hne
        refine ⟨view, ?_⟩
        show Tracks obj.modes view (Function.update st.sub im _ im)
        rw [Function.update_self]
        exact hview'
      · show ∃ view, Tracks obj.modes view (Function.update st.sub k _ im)
        rw [Function.update_of_ne hne]
        exact htracked im him
    · show (st.imgShifted || _) = true
      rw [ha.shifted hd, Bool.true_or]
    · obtain ⟨hold, hret⟩ := Bool.or_eq_false_iff.1 hnot
      have hsub : Function.update st.sub k (adjustShifts obj.modes alpha (st.sub k)).1 = st.sub := by
        rw [hsame hret, Function.update_eq_self]
      show ∀ im < obj.nImages, st.imgFT im = obj.transform im (Function.update st.sub k _ im).view st.fittedPlane
      rw [hsub]
      exact ha.fresh hold
    · show (st.adjusting.set k ops).length + _ = _
      rw [List.length_set]
      exact ha.len
    · show made + ((st.adjusting.set k ops).map _).sum = (st.adjusting.set k ops).length
      rw [List.length_set, sum_map_set_of_eq hk (by rw [hops]; rfl)]
      exact ha.steps
  · next ops hk =>
    obtain rfl := Option.some.inj hs
    obtain ⟨alphas, made, rfl, ha, -⟩ := hphase.of_adjusting hk
    obtain rfl := (ha.form _ (List.mem_of_getElem? hk)).step
    obtain ⟨rest, hsum, hset⟩ := sum_map_set (fun ops : List AdjustOp => if ops.isEmpty then 0 else 1) hk
    have hone : st.unfinished = 1 + rest := hsum
    have hrest : ((st.adjusting.set k []).map fun ops : List AdjustOp => if ops.isEmpty then 0 else 1).sum = rest :=
      (hset []).trans (Nat.zero_add _)
    have hlen := ha.len
    have hsteps := ha.steps
    have hlt := ha.lt
    by_cases hlast : made + 1 = obj.nImages
    · have halphas : alphas = [] := List.length_eq_zero_iff.1 (by omega)
      subst halphas
      rw [ha.counts.step_last hlast, ha.set, ha.handler]
      refine ⟨⟨htracked, .handling (by omega) (unfinished_eq_zero_iff.1 (hrest.trans (by omega))) rfl
        ⟨ha.none, ha.accounted, ha.shifted, ha.sync, ha.fresh⟩⟩, rfl⟩
    · obtain ⟨hnone, hkeep⟩ := ha.counts.step_before (by omega)
      rw [hnone]
      refine ⟨⟨htracked, .adjusting alphas (made + 1) ⟨⟨ha.none, ha.accounted, ha.shifted, ha.sync, ha.fresh⟩, ?_,
        forall_mem_set ha.form (Or.inr (Or.inr rfl)), ha.counts.step hlt, ?_, by omega, hkeep.trans ha.set,
        ha.handler⟩⟩, rfl⟩
      · show (st.adjusting.set k []).length + _ = _
        rw [List.length_set]
        exact hlen
      · show made + 1 + ((st.adjusting.set k []).map _).sum = (st.adjusting.set k []).length
        rw [List.length_set, hrest, ← hsteps, hone]
        omega
  · exact absurd hs.symm (Option.some_ne_none _)

/-! ## The handler -/

/-- A task that is posted counts as one that is not there yet. -/
theorem getElem?_concat_cases {α : Type} {P : Option α → Prop} {l : List α} {a : α} (im : ℕ)
    (h : P l[im]?) (hnew : P none → P (some a)) : P (l ++ [a])[im]? := by
  rcases Nat.lt_trichotomy im l.length with hlt | rfl | hgt
  · rwa [List.getElem?_append_left hlt]
  · rw [List.getElem?_concat_length]
    rw [List.getElem?_eq_none le_rfl] at h
    exact hnew h
  · rw [List.getElem?_eq_none (Nat.le_of_lt hgt)] at h
    rwa [List.getElem?_eq_none (by rw [List.length_append, List.length_singleton]; omega)]

/-- **The handler begins, posts a task or accounts for all images at once.** -/
theorem Inv.handle (h : Inv obj doReset q st) (hs : obj.handle st = some (st', c)) :
    Inv obj doReset q st' ∧ (c = none ∧ st'.accounted = st.accounted ∨
      0 < obj.nImages ∧ c = some obj.nImages ∧ obj.total st = 0 ∧ obj.total st' = obj.nImages) := by
  obtain ⟨htracked, hphase⟩ := h
  have hidle : st.handler ≠ [] := by
    intro hnil
    rw [Object.handle, hnil] at hs
    exact Option.some_ne_none _ hs.symm
  cases hphase with
  | waiting alphas hlen hquiet => exact absurd hquiet.2.1 hidle
  | adjusting alphas made h => exact absurd h.handler hidle
  | handling hpos hquiet hhandler h =>
    rw [Object.handle, hhandler] at hs
    dsimp only at hs
    by_cases hmoved : st.imgShifted = true
    · rw [if_pos hmoved] at hs
      obtain ⟨rfl, rfl⟩ := Prod.mk.inj (Option.some.inj hs)
      refine ⟨⟨htracked, .initializing obj.nImages ⟨hquiet, List.append_nil _, ?_, ?_, ?_, ?_, ?_⟩⟩,
        Or.inl ⟨rfl, rfl⟩⟩
      · show st.initializing.length + _ = _
        rw [h.none, List.length_nil, Nat.zero_add]
      · show ∀ ops ∈ st.initializing, _
        rw [h.none]
        exact List.forall_mem_nil _
      · intro im _
        show st.accounted im = finished st.initializing[im]?
        rw [h.none, h.accounted im]
        rfl
      · intro ind hind
        show (if doReset = true then fun ind => if ind < obj.otfSize2 then 0 else st.ftSum ind else st.ftSum) ind =
          ∑ im ∈ Finset.range obj.nImages, counted doReset st.initializing[im]? (st.imgFT im) ind
        rw [h.none]
        have hsync := h.sync
        cases doReset with
        | true =>
          refine (if_pos hind).trans (Finset.sum_eq_zero fun im _ => ?_).symm
          rfl
        | false => exact hsync.resolve_left Bool.false_ne_true ind hind
      · intro im _ htransformed
        replace htransformed : transformed st.initializing[im]? := htransformed
        rw [h.none] at htransformed
        exact htransformed.elim
    · rw [if_neg hmoved] at hs
      obtain ⟨rfl, rfl⟩ := Prod.mk.inj (Option.some.inj hs)
      have hnot := Bool.eq_false_of_not_eq_true hmoved
      have hsync : obj.Synced st := h.sync.resolve_left fun hd => hmoved (h.shifted hd)
      exact ⟨⟨htracked, .skipping hpos hquiet rfl h.none h.accounted hsync (h.fresh hnot)⟩, Or.inl ⟨rfl, rfl⟩⟩
  | initializing left h =>
    cases left with
    | zero => exact absurd h.handler hidle
    | succ left =>
      have hlen := h.len
      rw [Object.handle, h.handler, List.replicate_succ] at hs
      obtain ⟨rfl, rfl⟩ := Prod.mk.inj (Option.some.inj hs)
      refine ⟨⟨htracked, .initializing left ⟨h.quiet, rfl, ?_, ?_, ?_, ?_, ?_⟩⟩, Or.inl ⟨rfl, rfl⟩⟩
      · show (st.initializing ++ [_]).length + _ = _
        rw [List.length_append, List.length_singleton, ← hlen]
        omega
      · exact List.forall_mem_append.2 ⟨h.form, List.forall_mem_singleton.2 (Or.inl rfl)⟩
      · exact fun im him => getElem?_concat_cases (P := fun task => st.accounted im = finished task) im
          (h.accounted im him) id
      · intro ind hind
        refine (h.sum ind hind).trans (Finset.sum_congr rfl fun im _ => ?_)
        exact getElem?_concat_cases (P := fun task =>
          counted doReset st.initializing[im]? (st.imgFT im) ind = counted doReset task (st.imgFT im) ind) im rfl id
      · intro im him
        exact getElem?_concat_cases (P := fun task => transformed task → _) im (h.fresh im him) fun _ h => h.elim
  | skipping hpos hquiet hhandler hnone haccounted hsync hfresh =>
    rw [Object.handle, hhandler] at hs
    obtain ⟨rfl, rfl⟩ := Prod.mk.inj (Option.some.inj hs)
    have hzero : obj.total st = 0 := Finset.sum_eq_zero fun im _ => haccounted im
    have hone : ∀ im, st.accounted im + 1 = 1 := fun im => by rw [haccounted im]
    refine ⟨⟨htracked, .skipped ⟨hquiet, rfl, ?_⟩ (fun im _ => hone im) hsync hfresh⟩,
      Or.inr ⟨hpos, rfl, hzero, ?_⟩⟩
    · show ∀ ops ∈ st.initializing, ops = []
      rw [hnone]
      exact List.forall_mem_nil _
    · show ∑ im ∈ Finset.range obj.nImages, (st.accounted im + 1) = _
      rw [Finset.sum_congr rfl fun im _ => hone im, Finset.sum_const, Finset.card_range, smul_eq_mul, Nat.mul_one]
  | skipped hquiet => exact absurd hquiet.2.1 hidle

/-! ## The second tasks -/

/-- A sum of which one term is changed. -/
theorem sum_range_of_ne {M : Type} [AddCommMonoid M] {f g : ℕ → M} {n : ℕ} (hk : k < n)
    (h : ∀ im, im ≠ k → g im = f im) :
    ∑ im ∈ Finset.range n, g im + f k = ∑ im ∈ Finset.range n, f im + g k := by
  have hmem := Finset.mem_range.2 hk
  have hrest : ∑ im ∈ (Finset.range n).erase k, g im = ∑ im ∈ (Finset.range n).erase k, f im :=
    Finset.sum_congr rfl fun im him => h im (Finset.ne_of_mem_erase him)
  rw [← Finset.add_sum_erase _ _ hmem, ← Finset.add_sum_erase _ f hmem, hrest]
  exact add_right_comm _ _ _ |>.trans (by rw [add_comm (g k), add_right_comm])

theorem InitForm.head {op : InitOp} {ops : List InitOp} (h : InitForm doReset (op :: ops)) :
    op = .step ∧ ops = [] ∨ ops = [.step] ∧ (op = .transform doReset ∨ ∃ oldFT, op = .addFT doReset oldFT) := by
  rcases h with h | ⟨oldFT, h⟩ | h | h
  · obtain ⟨rfl, rfl⟩ := List.cons.inj h
    exact Or.inr ⟨rfl, Or.inl rfl⟩
  · obtain ⟨rfl, rfl⟩ := List.cons.inj h
    exact Or.inr ⟨rfl, Or.inr ⟨oldFT, rfl⟩⟩
  · obtain ⟨rfl, rfl⟩ := List.cons.inj h
    exact Or.inl ⟨rfl, rfl⟩
  · exact absurd h (List.cons_ne_nil _ _)

/-- The phase in which a second task has something left to do. -/
theorem Phase.of_initializing {op : InitOp} {ops : List InitOp} (h : Phase obj doReset q st)
    (hk : st.initializing[k]? = some (op :: ops)) :
    q = [] ∧ ∃ left, Initializing obj doReset left st ∧ k < obj.nImages := by
  have hmem := List.mem_of_getElem? hk
  have hnil : st.initializing ≠ [] := List.ne_nil_of_mem hmem
  cases h with
  | waiting alphas hlen hquiet => exact absurd hquiet.2.2 hnil
  | adjusting alphas made h => exact absurd h.none hnil
  | handling hpos hquiet hhandler h => exact absurd h.none hnil
  | initializing left h =>
    have hlt := (List.getElem?_eq_some_iff.1 hk).1
    have hlen := h.len
    exact ⟨rfl, left, h, by omega⟩
  | skipping hpos hquiet hhandler hnone => exact absurd hnone hnil
  | skipped hquiet => exact absurd (hquiet.2.2 _ hmem) (List.cons_ne_nil _ _)

/-- **What the task of image `k` does changes what `ftSum` has of that image, and nothing else.** -/
theorem Initializing.advance {left : ℕ} {task ops : List InitOp} {ftSum : ℕ → ℚ} {imgFT : ℕ → ℕ → ℚ × ℚ}
    {accounted : ℕ → ℕ} (h : Initializing obj doReset left st) (hk : st.initializing[k]? = some task)
    (hform : InitForm doReset ops) (hft : ∀ im, im ≠ k → imgFT im = st.imgFT im)
    (hacc : ∀ im, im ≠ k → accounted im = st.accounted im) (hacc' : accounted k = finished (some ops))
    (hsum : ∀ ind < obj.otfSize2, ftSum ind + counted doReset (some task) (st.imgFT k) ind =
      st.ftSum ind + counted doReset (some ops) (imgFT k) ind)
    (hfresh : transformed (some ops) → imgFT k = obj.transform k (st.sub k).view st.fittedPlane) :
    Phase obj doReset [] { st with
      ftSum := ftSum, imgFT := imgFT, accounted := accounted, initializing := st.initializing.set k ops } := by
  have hlt := (List.getElem?_eq_some_iff.1 hk).1
  have hlen := h.len
  have hself : (st.initializing.set k ops)[k]? = some ops := List.getElem?_set_self hlt
  have hother : ∀ im, im ≠ k → (st.initializing.set k ops)[im]? = st.initializing[im]? := fun im hne =>
    List.getElem?_set_ne (Ne.symm hne)
  refine .initializing left ⟨h.quiet, h.handler, ?_, forall_mem_set h.form hform, ?_, ?_, ?_⟩
  · show (st.initializing.set k ops).length + _ = _
    rw [List.length_set]
    exact hlen
  · intro im him
    show accounted im = finished (st.initializing.set k ops)[im]?
    by_cases hne : im = k
    · subst hne
      rw [hself, hacc']
    · rw [hother im hne, hacc im hne, h.accounted im him]
  · intro ind hind
    have hupdate := @sum_range_of_ne k ℚ _ (fun im => counted doReset st.initializing[im]? (st.imgFT im) ind)
      (fun im => counted doReset (st.initializing.set k ops)[im]? (imgFT im) ind) obj.nImages (by omega)
      fun im hne => by rw [hother im hne, hft im hne]
    rw [← h.sum ind hind, hk, hself, ← hsum ind hind] at hupdate
    exact (add_right_cancel hupdate).symm
  · intro im him htransformed
    show imgFT im = _
    replace htransformed : transformed (st.initializing.set k ops)[im]? := htransformed
    by_cases hne : im = k
    · subst hne
      rw [hself] at htransformed
      exact hfresh htransformed
    · rw [hother im hne] at htransformed
      rw [hft im hne]
      exact h.fresh im him htransformed

/-- **An image is transformed, added, or accounted for.** -/
theorem Inv.initImage (h : Inv obj doReset q st) (hs : obj.initImage st k = some (st', c)) :
    Inv obj doReset q st' ∧ (c = none ∧ st'.accounted = st.accounted ∨
      c = some 1 ∧ obj.total st' = obj.total st + 1) := by
  obtain ⟨htracked, hphase⟩ := h
  rw [Object.initImage] at hs
  split at hs
  · next d ops hk =>
    obtain ⟨rfl, rfl⟩ := Prod.mk.inj (Option.some.inj hs)
    obtain ⟨rfl, left, hi, hlt⟩ := hphase.of_initializing hk
    obtain ⟨hop, -⟩ | ⟨rfl, hop | ⟨_, hop⟩⟩ := (hi.form _ (List.mem_of_getElem? hk)).head
    · exact InitOp.noConfusion hop
    · obtain rfl := InitOp.transform.inj hop
      refine ⟨⟨htracked, hi.advance hk (Or.inr (Or.inl ⟨_, rfl⟩)) (fun im hne => Function.update_of_ne hne _ _)
        (fun _ _ => rfl) ?_ (fun ind _ => ?_) (fun _ => Function.update_self ..)⟩, Or.inl ⟨rfl, rfl⟩⟩
      · rw [hi.accounted k hlt, hk]
        rfl
      · cases d with
        | true => rfl
        | false => rfl
    · exact InitOp.noConfusion hop
  · next d oldFT ops hk =>
    obtain ⟨rfl, rfl⟩ := Prod.mk.inj (Option.some.inj hs)
    obtain ⟨rfl, left, hi, hlt⟩ := hphase.of_initializing hk
    obtain ⟨hop, -⟩ | ⟨rfl, hop | ⟨_, hop⟩⟩ := (hi.form _ (List.mem_of_getElem? hk)).head
    · exact InitOp.noConfusion hop
    · exact InitOp.noConfusion hop
    · obtain ⟨rfl, -⟩ := InitOp.addFT.inj hop
      refine ⟨⟨htracked, hi.advance hk (Or.inr (Or.inr (Or.inl rfl))) (fun _ _ => rfl) (fun _ _ => rfl) ?_
        (fun ind hind => ?_) (fun _ => hi.fresh k hlt ?_)⟩, Or.inl ⟨rfl, rfl⟩⟩
      · rw [hi.accounted k hlt, hk]
        rfl
      · rw [Object.addFT, if_pos hind]
        cases d with
        | true => exact add_zero _
        | false =>
          show st.ftSum ind + (Metric.norm (st.imgFT k ind) - Metric.norm (oldFT ind)) + Metric.norm (oldFT ind) = _
          rw [add_assoc, sub_add_cancel]
          rfl
      · rw [hk]
        trivial
  · next ops hk =>
    obtain ⟨rfl, rfl⟩ := Prod.mk.inj (Option.some.inj hs)
    obtain ⟨rfl, left, hi, hlt⟩ := hphase.of_initializing hk
    obtain ⟨-, rfl⟩ | ⟨-, hop | ⟨_, hop⟩⟩ := (hi.form _ (List.mem_of_getElem? hk)).head
    · have hzero : st.accounted k = 0 := by
        rw [hi.accounted k hlt, hk]
        rfl
      refine ⟨⟨htracked, hi.advance hk (Or.inr (Or.inr (Or.inr rfl))) (fun _ _ => rfl)
        (fun im hne => Function.update_of_ne hne _ _) ?_ (fun ind _ => rfl) (fun _ => hi.fresh k hlt ?_)⟩,
        Or.inr ⟨rfl, ?_⟩⟩
      · rw [Function.update_self, hzero]
        rfl
      · rw [hk]
        trivial
      · have hupdate := @sum_range_of_ne k ℕ _ st.accounted (Function.update st.accounted k (st.accounted k + 1))
          obj.nImages hlt fun im hne => Function.update_of_ne hne _ _
        rw [Function.update_self] at hupdate
        show ∑ im ∈ Finset.range obj.nImages, Function.update st.accounted k (st.accounted k + 1) im =
          ∑ im ∈ Finset.range obj.nImages, st.accounted im + 1
        omega
    · exact InitOp.noConfusion hop
    · exact InitOp.noConfusion hop
  · exact absurd hs.symm (Option.some_ne_none _)

/-! ## The end of the call -/

theorem finished_le_one : ∀ task : Option (List InitOp), finished task ≤ 1
  | some [] => le_rfl
  | some (_ :: _) => Nat.zero_le _
  | none => Nat.zero_le _

theorem eq_of_finished : ∀ {task : Option (List InitOp)}, finished task = 1 → task = some []
  | some [], _ => rfl
  | some (_ :: _), h => absurd h Nat.zero_ne_one
  | none, h => absurd h Nat.zero_ne_one

/-- **No image is accounted for twice, and once all are, the object has settled.** -/
theorem Inv.settled (h : Inv obj doReset q st) : (∀ im < obj.nImages, st.accounted im ≤ 1) ∧
    (q = [] → (∀ im < obj.nImages, st.accounted im = 1) → st.Quiet ∧ obj.Synced st ∧ obj.Fresh st) := by
  obtain ⟨-, hphase⟩ := h
  cases hphase with
  | waiting alphas hlen hquiet haccounted =>
    exact ⟨fun im _ => by rw [haccounted im]; exact Nat.zero_le _, fun hq => absurd hq (List.cons_ne_nil _ _)⟩
  | adjusting alphas made h =>
    have hlt := h.lt
    refine ⟨fun im _ => by rw [h.accounted im]; exact Nat.zero_le _, fun _ hall => ?_⟩
    exact absurd ((h.accounted 0).symm.trans (hall 0 (by omega))) Nat.zero_ne_one
  | handling hpos hquiet hhandler h =>
    refine ⟨fun im _ => by rw [h.accounted im]; exact Nat.zero_le _, fun _ hall => ?_⟩
    exact absurd ((h.accounted 0).symm.trans (hall 0 hpos)) Nat.zero_ne_one
  | initializing left h =>
    refine ⟨fun im him => by rw [h.accounted im him]; exact finished_le_one _, fun _ hall => ?_⟩
    have htask : ∀ im < obj.nImages, st.initializing[im]? = some [] := fun im him =>
      eq_of_finished ((h.accounted im him).symm.trans (hall im him))
    have hlen := h.len
    have hleft : left = 0 := by
      by_contra hne
      have hnone := htask st.initializing.length (by omega)
      rw [List.getElem?_eq_none le_rfl] at hnone
      exact Option.some_ne_none _ hnone.symm
    subst hleft
    refine ⟨⟨h.quiet, h.handler, fun ops hmem => ?_⟩, fun ind hind => ?_, fun im him => ?_⟩
    · obtain ⟨im, hlt, rfl⟩ := List.mem_iff_getElem.1 hmem
      exact Option.some.inj ((List.getElem?_eq_getElem hlt).symm.trans (htask im (by omega)))
    · refine (h.sum ind hind).trans (Finset.sum_congr rfl fun im him => ?_)
      rw [htask im (Finset.mem_range.1 him)]
      rfl
    · refine h.fresh im him ?_
      rw [htask im him]
      trivial
  | skipping hpos hquiet hhandler hnone haccounted =>
    refine ⟨fun im _ => by rw [haccounted im]; exact Nat.zero_le _, fun _ hall => ?_⟩
    exact absurd ((haccounted 0).symm.trans (hall 0 hpos)) Nat.zero_ne_one
  | skipped hquiet haccounted hsync hfresh =>
    exact ⟨fun im him => (haccounted im him).le, fun _ _ => ⟨hquiet, hsync, hfresh⟩⟩

theorem Inv.total_le (h : Inv obj doReset q st) : obj.total st ≤ obj.nImages := by
  have hle := Finset.sum_le_card_nsmul (Finset.range obj.nImages) st.accounted 1 fun im him =>
    h.settled.1 im (Finset.mem_range.1 him)
  rwa [Finset.card_range, smul_eq_mul, Nat.mul_one] at hle

/-- All are accounted for as soon as their number is. -/
theorem Inv.all_of_total (h : Inv obj doReset q st) (htotal : obj.total st = obj.nImages) :
    ∀ im < obj.nImages, st.accounted im = 1 := by
  have hsum : ∑ im ∈ Finset.range obj.nImages, st.accounted im = ∑ _im ∈ Finset.range obj.nImages, 1 := by
    rw [Finset.sum_const, Finset.card_range, smul_eq_mul, Nat.mul_one]
    exact htotal
  intro im him
  exact (Finset.sum_eq_sum_iff_of_le fun im him => h.settled.1 im (Finset.mem_range.1 him)).1 hsum im
    (Finset.mem_range.2 him)

/-- **Until all images are accounted for, some thread can go on.** -/
theorem Inv.busy (h : Inv obj doReset [] st) (hlt : obj.total st < obj.nImages) :
    (∃ k, obj.adjust st k ≠ none) ∨ obj.handle st ≠ none ∨ ∃ k, obj.initImage st k ≠ none := by
  obtain ⟨-, hphase⟩ := h
  generalize hq : ([] : List Instr) = p at hphase
  cases hphase with
  | waiting => exact absurd hq.symm (List.cons_ne_nil _ _)
  | adjusting alphas made h =>
    obtain rfl := List.map_eq_nil_iff.1 hq.symm
    have hlen := h.len
    have hsteps := h.steps
    have hmade := h.lt
    have hsome : ¬ ∀ ops ∈ st.adjusting, ops = [] := by
      rw [← unfinished_eq_zero_iff]
      rw [List.length_nil] at hlen
      omega
    obtain ⟨ops, hrest⟩ := not_forall.1 hsome
    obtain ⟨hmem, hne⟩ := Classical.not_imp.1 hrest
    obtain ⟨k, hk, rfl⟩ := List.mem_iff_getElem.1 hmem
    refine Or.inl ⟨k, ?_⟩
    rw [Object.adjust, List.getElem?_eq_getElem hk]
    obtain ⟨op, ops, hops⟩ := List.exists_cons_of_ne_nil hne
    rw [hops]
    cases op with
    | adjustShifts alpha => exact Option.some_ne_none _
    | step => exact Option.some_ne_none _
  | handling hpos hquiet hhandler h =>
    refine Or.inr (Or.inl ?_)
    rw [Object.handle, hhandler]
    dsimp only
    split_ifs <;> exact Option.some_ne_none _
  | initializing left h =>
    cases left with
    | succ left =>
      refine Or.inr (Or.inl ?_)
      rw [Object.handle, h.handler, List.replicate_succ]
      exact Option.some_ne_none _
    | zero =>
      have hlen := h.len
      have hnot : ¬ ∀ im ∈ Finset.range obj.nImages, st.accounted im = 1 := by
        intro hall
        have hsum := Finset.sum_congr rfl hall
        rw [Finset.sum_const, Finset.card_range, smul_eq_mul, Nat.mul_one] at hsum
        exact absurd hsum (Nat.ne_of_lt hlt)
      obtain ⟨k, hrest⟩ := not_forall.1 hnot
      obtain ⟨hmem, hne⟩ := Classical.not_imp.1 hrest
      have him := Finset.mem_range.1 hmem
      have hk : k < st.initializing.length := by omega
      refine Or.inr (Or.inr ⟨k, ?_⟩)
      rw [h.accounted k him, List.getElem?_eq_getElem hk] at hne
      rw [Object.initImage, List.getElem?_eq_getElem hk]
      cases hops : st.initializing[k] with
      | nil =>
        rw [hops] at hne
        exact absurd rfl hne
      | cons op ops => cases op <;> exact Option.some_ne_none _
  | skipping hpos hquiet hhandler =>
    refine Or.inr (Or.inl ?_)
    rw [Object.handle, hhandler]
    exact Option.some_ne_none _
  | skipped hquiet haccounted =>
    have hsum := Finset.sum_congr rfl fun im him => haccounted im (Finset.mem_range.1 him)
    rw [Finset.sum_const, Finset.card_range, smul_eq_mul, Nat.mul_one] at hsum
    exact absurd hsum (Nat.ne_of_lt hlt)

/-- The object before the call, with what is left of earlier tasks gone. -/
theorem Inv.begin (alpha : ℕ → ℤ → ℚ) (htracked : ∀ im < obj.nImages, ∃ view, Tracks obj.modes view (st.sub im))
    (hquiet : st.adjusting = [] ∧ st.handler = [] ∧ st.initializing = []) (haccounted : ∀ im, st.accounted im = 0)
    (hsync : doReset = true ∧ 0 < obj.nImages ∨ obj.Synced st ∧ obj.Fresh st) :
    Inv obj doReset (obj.program doReset alpha) st := by
  refine ⟨htracked, ?_⟩
  have hprogram : obj.program doReset alpha =
      .prepare doReset :: ((List.range obj.nImages).map alpha).map .post := by
    rw [List.map_map]
    rfl
  rw [hprogram]
  refine .waiting _ ?_ hquiet haccounted hsync
  rw [List.length_map, List.length_range]

end Results

end Redux.Momfbd.ShiftInit
