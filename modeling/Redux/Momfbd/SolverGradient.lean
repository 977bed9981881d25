import Mathlib.Tactic.LinearCombination
import Redux.Lib.Run
import Redux.Lib.Tally
import Redux.Momfbd.MetricChange
import Redux.Momfbd.SolverMetric

/-!
# Momfbd.SolverGradient — the gradient of all images, computed by threads

`Solver::gradient` fills the gradient with the derivative of the regularisation, posts one task for each image
and waits for its watch.  A task writes the entries of the enabled modes of its image.  Both gradient methods
multiply by the weight of the object, and so does the task; and the entries it writes replace the
regularisation.  `calcOTF` and `calcVogelWeight`, which go through Fourier transforms, are parameters.
-/

namespace Redux.Momfbd.Metric

open Redux.Lib

/-! ## Model -/

/-- What the gradient reads of a `SubImage`. -/
structure GradientImage where
  arrays : SubImage
  grad_step : ℚ
  phi : ℕ → ℚ
  modePointers : ℕ → ℕ → ℚ

/-- What the gradient reads of an `Object`, with the sub-images of each channel. -/
structure GradientObject where
  weight : ℚ
  P : ℕ → ℚ × ℚ
  Q : ℕ → ℚ
  PQ : ℕ → ℚ × ℚ
  PS : ℕ → ℚ
  QS : ℕ → ℚ
  otfSupport : Finset ℕ
  pupilSupport : Finset ℕ
  area : ℚ
  channels : List (List GradientImage)

/-- The two methods that `gradientMethods` has. -/
inductive GradientMethod where
  | GM_DIFF
  | GM_VOGEL
  deriving DecidableEq

/-- What `gradient()` reads of a `Solver` and its job.  `calcVogelWeight` takes the arrays `PQ`, `PS` and `QS`
of the object, and the array `vogel` that it writes to. -/
structure GradientSolver where
  objects : List GradientObject
  otfSize : ℕ
  nModes : ℕ
  enabledModes : ℕ → Bool
  reg_alpha : ℚ
  alpha : ℕ → ℚ
  regAlphaWeights : ℕ → ℚ
  method : GradientMethod
  calcOTF : GradientImage → (ℕ → ℚ) → ℕ → ℚ × ℚ
  calcVogelWeight : GradientImage → (ℕ → ℚ × ℚ) → (ℕ → ℚ) → (ℕ → ℚ) → (ℕ → ℚ) → ℕ → ℚ

/-- What a task has left to do. -/
inductive GradientOp where
  | calcVogelWeight
  | entry (m : ℕ)
  | step
  deriving DecidableEq

/-- `tasks` are what is left of the tasks posted so far, one for each image in the order of the images, and
`vogel` the arrays of that name, by the number of the image. -/
structure GradientState where
  grad_alpha : ℕ → ℚ
  vogel : ℕ → ℕ → ℚ
  progWatch : ProgressWatch Unit
  tasks : List (List GradientOp)
  returned : Bool

/-- The main thread goes on, or a thread with the task of image `k`. -/
inductive GradientAction where
  | main
  | thread (k : ℕ)

/-- `addToPhi( phiPtr, modePtr, w )`. -/
def addToPhi (phi mode : ℕ → ℚ) (w : ℚ) : ℕ → ℚ := fun ind => phi ind + w * mode ind

namespace GradientSolver

variable (S : GradientSolver)

/-- The images in the order of the three loops. -/
def images : List (GradientObject × GradientImage) :=
  S.objects.flatMap fun o => o.channels.flatten.map fun im => (o, im)

def nTotalImages : ℕ := S.images.length

def nParameters : ℕ := S.nTotalImages * S.nModes

/-- `metricChange( tmpOTF )/grad_step`. -/
def finiteDifference (o : GradientObject) (im : GradientImage) (m : ℕ) : ℚ :=
  im.arrays.metricChange (S.calcOTF im (addToPhi im.phi (im.modePointers m) im.grad_step)) o.otfSupport S.otfSize
    o.P o.Q / im.grad_step

/-- The sum over the pupil. -/
def vogelSum (o : GradientObject) (im : GradientImage) (vogel : ℕ → ℚ) (m : ℕ) : ℚ :=
  ∑ ind ∈ o.pupilSupport, -2 * o.area / (S.otfSize * S.otfSize) * vogel ind * im.modePointers m ind

def gradientFiniteDifference (o : GradientObject) (im : GradientImage) (m : ℕ) : ℚ :=
  if o.weight = 0 then 0 else S.finiteDifference o im m * o.weight

def gradientVogel (o : GradientObject) (im : GradientImage) (vogel : ℕ → ℚ) (m : ℕ) : ℚ :=
  if o.weight = 0 then 0 else S.vogelSum o im vogel m * o.weight

def gradientMethod (o : GradientObject) (im : GradientImage) (vogel : ℕ → ℚ) (m : ℕ) : ℚ :=
  match S.method with
  | .GM_DIFF => S.gradientFiniteDifference o im m
  | .GM_VOGEL => S.gradientVogel o im vogel m

/-- The derivative of the regularisation: what `gradient()` begins with. -/
def regularisationTerm (i : ℕ) : ℚ := if S.reg_alpha > 0 then S.alpha i * S.regAlphaWeights i else 0

/-- A posted task. -/
def taskOps : List GradientOp :=
  .calcVogelWeight :: (((List.range S.nModes).filter fun m => S.enabledModes m).map .entry ++ [.step])

/-- `gradient()` is called, with the arrays as earlier calls have left them, and has set its watch. -/
def begin (w : ProgressWatch Unit) (grad_alpha : ℕ → ℚ) (vogel : ℕ → ℕ → ℚ) : GradientState where
  grad_alpha i := if i < S.nParameters then S.regularisationTerm i else grad_alpha i
  vogel := vogel
  progWatch := w.set S.nTotalImages 0
  tasks := []
  returned := false

/-- The loops, and the wait. -/
def mainStep (s : GradientState) : Option GradientState :=
  if s.tasks.length < S.images.length then some { s with tasks := s.tasks ++ [S.taskOps] }
  else if s.returned = false ∧ s.progWatch.completed = true then some { s with returned := true }
  else none

/-- The next operation of the task of image `k`. -/
def threadStep (s : GradientState) (k : ℕ) : Option GradientState :=
  match s.tasks[k]?, S.images[k]? with
  | some (.calcVogelWeight :: ops), some (o, im) => some { s with
      vogel := Function.update s.vogel k (S.calcVogelWeight im o.PQ o.PS o.QS (s.vogel k))
      tasks := s.tasks.set k ops }
  | some (.entry m :: ops), some (o, im) => some { s with
      grad_alpha := Function.update s.grad_alpha (k * S.nModes + m) (o.weight * S.gradientMethod o im (s.vogel k) m)
      tasks := s.tasks.set k ops }
  | some (.step :: ops), some _ => some { s with progWatch := s.progWatch.step.1, tasks := s.tasks.set k ops }
  | _, _ => none

def step (s : GradientState) : GradientAction → Option GradientState
  | .main => S.mainStep s
  | .thread k => S.threadStep s k

/-- The derivative of the metric of the object, without its weight, that the method finds for an image and a
mode; `vogel` is the array of that image before the call. -/
def derivative (o : GradientObject) (im : GradientImage) (vogel : ℕ → ℚ) (m : ℕ) : ℚ :=
  match S.method with
  | .GM_DIFF => S.finiteDifference o im m
  | .GM_VOGEL => S.vogelSum o im (S.calcVogelWeight im o.PQ o.PS o.QS vogel) m

/-- The entries of enabled modes are the weighted derivatives plus the regularisation, the others the
regularisation alone. -/
def Assembled (vogel : ℕ → ℕ → ℚ) (grad_alpha : ℕ → ℚ) : Prop :=
  ∀ k o im, S.images[k]? = some (o, im) → ∀ m < S.nModes, grad_alpha (k * S.nModes + m) =
    if S.enabledModes m then o.weight * S.derivative o im (vogel k) m + S.regularisationTerm (k * S.nModes + m)
    else S.regularisationTerm (k * S.nModes + m)

/-- The second factor of the weight makes up for the missing regularisation, at every enabled mode of every
image. -/
def Balanced (vogel : ℕ → ℕ → ℚ) : Prop :=
  ∀ k o im, S.images[k]? = some (o, im) → ∀ m < S.nModes, S.enabledModes m = true →
    o.weight * (o.weight - 1) * S.derivative o im (vogel k) m = S.regularisationTerm (k * S.nModes + m)

end GradientSolver

section Results

variable {S : GradientSolver} {s s' : GradientState} {k m : ℕ} {ops : List GradientOp} {op : GradientOp}

/-! ## One task -/

theorem taskOps_nodup : S.taskOps.Nodup := by
  have hinj : Function.Injective GradientOp.entry := fun _ _ => GradientOp.entry.inj
  rw [GradientSolver.taskOps, List.nodup_cons, List.nodup_append]
  refine ⟨?_, (List.nodup_range.filter _).map hinj, List.nodup_singleton _, ?_⟩
  · simp
  · rintro a ha b hb rfl
    obtain ⟨m, -, rfl⟩ := List.mem_map.1 ha
    exact absurd (List.mem_singleton.1 hb) GradientOp.noConfusion

theorem entry_mem_taskOps (hm : m < S.nModes) : .entry m ∈ S.taskOps ↔ S.enabledModes m = true := by
  simp [GradientSolver.taskOps, hm]

/-- What is left of a task does not have the operation it has just done. -/
theorem not_mem_of_suffix (h : op :: ops <:+ S.taskOps) : op ∉ ops :=
  (List.nodup_cons.1 (h.sublist.nodup taskOps_nodup)).1

/-- The weights come first. -/
theorem calcVogelWeight_not_mem (h : op :: ops <:+ S.taskOps) : GradientOp.calcVogelWeight ∉ ops := by
  intro hmem
  have htail : ops <:+ S.taskOps.tail := by
    obtain ⟨pre, hpre⟩ := h
    cases pre with
    | nil => exact ⟨[], congrArg List.tail hpre⟩
    | cons a pre => exact ⟨pre ++ [op], by rw [List.append_assoc]; exact congrArg List.tail hpre⟩
  have hhead := htail.subset hmem
  simp [GradientSolver.taskOps] at hhead

/-- The step of the watch comes last. -/
theorem eq_nil_of_suffix (h : ops <:+ S.taskOps) (hstep : .step ∉ ops) : ops = [] := by
  obtain ⟨pre, hpre⟩ := h
  rcases List.eq_nil_or_concat ops with rfl | ⟨l, op, rfl⟩
  · rfl
  · rw [List.concat_eq_append, ← List.append_assoc, GradientSolver.taskOps, ← List.cons_append,
      List.append_singleton_inj] at hpre
    exact absurd (by simp [hpre.2]) hstep

theorem suffix_of_cons (h : op :: ops <:+ S.taskOps) : ops <:+ S.taskOps := (List.suffix_cons _ _).trans h

/-- Both methods multiply by the weight. -/
theorem gradientMethod_eq (o : GradientObject) (im : GradientImage) (vogel : ℕ → ℚ) :
    S.gradientMethod o im (S.calcVogelWeight im o.PQ o.PS o.QS vogel) m = S.derivative o im vogel m * o.weight := by
  rw [GradientSolver.gradientMethod, GradientSolver.derivative]
  cases S.method with
  | GM_DIFF =>
    show S.gradientFiniteDifference o im m = S.finiteDifference o im m * o.weight
    rw [GradientSolver.gradientFiniteDifference]
    split_ifs with hweight
    · rw [hweight, mul_zero]
    · rfl
  | GM_VOGEL =>
    show S.gradientVogel o im _ m = S.vogelSum o im _ m * o.weight
    rw [GradientSolver.gradientVogel]
    split_ifs with hweight
    · rw [hweight, mul_zero]
    · rfl

/-! ## The invariant -/

namespace GradientState

/-- What is left to do for image `k`. -/
def rest (s : GradientState) (S : GradientSolver) (k : ℕ) : List GradientOp := (s.tasks[k]?).getD S.taskOps

/-- The steps that the posted tasks still make. -/
def steps (s : GradientState) : ℕ := (s.tasks.map (List.count .step)).sum

end GradientState

/-- `v` are the arrays `vogel` before the call. -/
structure GradientInv (S : GradientSolver) (v : ℕ → ℕ → ℚ) (s : GradientState) : Prop where
  posted : s.tasks.length ≤ S.images.length
  suffix : ∀ ops ∈ s.tasks, ops <:+ S.taskOps
  watch : ∃ made, s.progWatch.Counts S.images.length made ∧ made + s.steps = s.tasks.length
  returned : s.returned = true → s.tasks.length = S.images.length ∧ s.steps = 0
  vogel : ∀ k o im, S.images[k]? = some (o, im) → s.vogel k =
    if .calcVogelWeight ∈ s.rest S k then v k else S.calcVogelWeight im o.PQ o.PS o.QS (v k)
  entry : ∀ k o im, S.images[k]? = some (o, im) → ∀ m < S.nModes, s.grad_alpha (k * S.nModes + m) =
    if S.enabledModes m = true ∧ .entry m ∉ s.rest S k then o.weight * (S.derivative o im (v k) m * o.weight)
    else S.regularisationTerm (k * S.nModes + m)

theorem rest_set_self {b : List GradientOp} (hk : s.tasks[k]? = some b) :
    (GradientState.rest { s with tasks := s.tasks.set k ops } S k) = ops := by
  obtain ⟨hlt, -⟩ := List.getElem?_eq_some_iff.1 hk
  rw [GradientState.rest, List.getElem?_set_self hlt, Option.getD_some]

theorem rest_set_of_ne {k' : ℕ} (hne : k' ≠ k) :
    GradientState.rest { s with tasks := s.tasks.set k ops } S k' = s.rest S k' := by
  rw [GradientState.rest, GradientState.rest, List.getElem?_set_ne (Ne.symm hne)]

/-- The section of an image has no entry of another. -/
theorem entry_ne {n k k' m m' : ℕ} (hm : m < n) (hm' : m' < n) (h : k' ≠ k ∨ m' ≠ m) : k' * n + m' ≠ k * n + m := by
  intro heq
  have hn : 0 < n := Nat.zero_lt_of_lt hm
  have hdiv : k' = k := by
    have hq := congrArg (· / n) heq
    simp only [mul_comm _ n, Nat.mul_add_div hn, Nat.div_eq_of_lt hm, Nat.div_eq_of_lt hm', add_zero] at hq
    exact hq
  subst hdiv
  omega

theorem rest_concat : GradientState.rest { s with tasks := s.tasks ++ [S.taskOps] } S k = s.rest S k := by
  rw [GradientState.rest, GradientState.rest]
  rcases Nat.lt_trichotomy k s.tasks.length with hlt | rfl | hgt
  · rw [List.getElem?_append_left hlt]
  · rw [List.getElem?_concat_length, List.getElem?_eq_none le_rfl]
    rfl
  · rw [List.getElem?_eq_none (by rw [List.length_append, List.length_singleton]; omega),
      List.getElem?_eq_none (Nat.le_of_lt hgt)]

theorem steps_taskOps : List.count .step S.taskOps = 1 :=
  List.count_eq_one_of_mem taskOps_nodup (by simp [GradientSolver.taskOps])

namespace GradientInv

variable {v : ℕ → ℕ → ℚ}

theorem begin (w : ProgressWatch Unit) (grad_alpha : ℕ → ℚ) : GradientInv S v (S.begin w grad_alpha v) where
  posted := Nat.zero_le _
  suffix ops h := absurd h List.not_mem_nil
  watch := ⟨0, w.counts_set _, rfl⟩
  returned h := absurd h Bool.false_ne_true
  vogel k o im _ := (if_pos (by simp [GradientState.rest, GradientSolver.begin, GradientSolver.taskOps])).symm
  entry k o im hk m hm := by
    have hlt : k * S.nModes + m < S.nParameters := by
      have hk' := (List.getElem?_eq_some_iff.1 hk).1
      calc k * S.nModes + m < k * S.nModes + S.nModes := Nat.add_lt_add_left hm _
        _ = (k + 1) * S.nModes := (Nat.succ_mul _ _).symm
        _ ≤ S.nParameters := Nat.mul_le_mul_right _ hk'
    have hrest : ¬ (S.enabledModes m = true ∧ .entry m ∉ (S.begin w grad_alpha v).rest S k) := by
      rintro ⟨hen, hnot⟩
      exact hnot ((entry_mem_taskOps hm).2 hen)
    rw [if_neg hrest]
    exact if_pos hlt

/-- The main thread posts the next task, or comes back. -/
theorem main (h : GradientInv S v s) (hs : S.mainStep s = some s') : GradientInv S v s' := by
  rw [GradientSolver.mainStep] at hs
  split_ifs at hs with hpost hdone
  · obtain rfl := Option.some.inj hs
    obtain ⟨made, hcounts, hmade⟩ := h.watch
    refine ⟨?_, ?_, ⟨made, hcounts, ?_⟩, fun hret => ?_, fun k o im hk => ?_, fun k o im hk m hm => ?_⟩
    · rw [List.length_append, List.length_singleton]
      exact hpost
    · exact List.forall_mem_append.2 ⟨h.suffix, List.forall_mem_singleton.2 (List.suffix_refl _)⟩
    · rw [GradientState.steps, sum_map_concat, steps_taskOps, ← Nat.add_assoc, List.length_append,
        List.length_singleton, ← hmade]
      rfl
    · exact absurd (h.returned hret).1 (Nat.ne_of_lt hpost)
    · rw [rest_concat]
      exact h.vogel k o im hk
    · rw [rest_concat]
      exact h.entry k o im hk m hm
  · obtain rfl := Option.some.inj hs
    obtain ⟨made, hcounts, hmade⟩ := h.watch
    have hall := hcounts.completed.1 hdone.2
    have hlen := h.posted
    exact { h with returned := fun _ => by show s.tasks.length = _ ∧ s.steps = 0; omega }

/-- **An operation of a task changes the arrays of its own image only.** -/
theorem pop {o : GradientObject} {im : GradientImage} {g : ℕ → ℚ} {vogel : ℕ → ℕ → ℚ} {w : ProgressWatch Unit}
    (h : GradientInv S v s) (hk : s.tasks[k]? = some (op :: ops)) (him : S.images[k]? = some (o, im))
    (hwatch : ∃ made, w.Counts S.images.length made ∧
      made + (s.tasks.set k ops |>.map (List.count .step)).sum = s.tasks.length)
    (hvogel : ∀ k', k' ≠ k → vogel k' = s.vogel k')
    (hvogel' : vogel k = S.calcVogelWeight im o.PQ o.PS o.QS (v k))
    (hentry : ∀ k', ∀ m < S.nModes, k' ≠ k ∨ .entry m ≠ op →
      g (k' * S.nModes + m) = s.grad_alpha (k' * S.nModes + m))
    (hentry' : ∀ m, .entry m = op → g (k * S.nModes + m) = o.weight * (S.derivative o im (v k) m * o.weight)) :
    GradientInv S v ⟨g, vogel, w, s.tasks.set k ops, s.returned⟩ := by
  have hsuffix := h.suffix _ (List.mem_of_getElem? hk)
  have hrest : s.rest S k = op :: ops := by rw [GradientState.rest, hk, Option.getD_some]
  have hself : GradientState.rest ⟨g, vogel, w, s.tasks.set k ops, s.returned⟩ S k = ops := rest_set_self hk
  have hother : ∀ k', k' ≠ k →
      GradientState.rest ⟨g, vogel, w, s.tasks.set k ops, s.returned⟩ S k' = s.rest S k' :=
    fun k' hne => rest_set_of_ne hne
  refine ⟨?_, ?_, ?_, fun hret => ?_, fun k' o' im' hk' => ?_, fun k' o' im' hk' m hm => ?_⟩
  · rw [List.length_set]
    exact h.posted
  · exact forall_mem_set h.suffix (suffix_of_cons hsuffix)
  · rw [List.length_set]
    exact hwatch
  · obtain ⟨hlen, hzero⟩ := h.returned hret
    obtain ⟨rest, hsum, hset⟩ := sum_map_set (List.count .step) hk
    have hle : List.count .step ops ≤ List.count .step (op :: ops) := List.count_le_count_cons
    rw [GradientState.steps, hsum] at hzero
    refine ⟨by rw [List.length_set]; exact hlen, ?_⟩
    rw [GradientState.steps, hset]
    omega
  · by_cases hne : k' = k
    · subst hne
      obtain ⟨rfl, rfl⟩ := Prod.mk.inj (Option.some.inj (him.symm.trans hk'))
      rw [hself, if_neg (calcVogelWeight_not_mem hsuffix)]
      exact hvogel'
    · rw [hother k' hne]
      exact (hvogel k' hne).trans (h.vogel k' o' im' hk')
  · have hold := h.entry k' o' im' hk' m hm
    by_cases hne : k' = k
    · subst hne
      obtain ⟨rfl, rfl⟩ := Prod.mk.inj (Option.some.inj (him.symm.trans hk'))
      rw [hself]
      by_cases hop : GradientOp.entry m = op
      · subst hop
        have hen := (entry_mem_taskOps hm).1 (hsuffix.subset List.mem_cons_self)
        rw [if_pos ⟨hen, not_mem_of_suffix hsuffix⟩]
        exact hentry' m rfl
      · have hsame : GradientOp.entry m ∉ op :: ops ↔ GradientOp.entry m ∉ ops :=
          not_congr (List.mem_cons.trans (or_iff_right hop))
        rw [hrest] at hold
        exact ((hentry k' m hm (Or.inr hop)).trans hold).trans (if_congr (and_congr_right fun _ => hsame) rfl rfl)
    · rw [hother k' hne]
      exact (hentry k' m hm (Or.inl hne)).trans hold

theorem thread (h : GradientInv S v s) (hs : S.threadStep s k = some s') : GradientInv S v s' := by
  obtain ⟨made, hcounts, hmade⟩ := h.watch
  have hdone : ∀ {op ops o im}, s.tasks[k]? = some (op :: ops) → S.images[k]? = some (o, im) →
      op ≠ .calcVogelWeight → s.vogel k = S.calcVogelWeight im o.PQ o.PS o.QS (v k) := by
    intro op ops o im hk him hop
    have hnot : GradientOp.calcVogelWeight ∉ s.rest S k := by
      rw [GradientState.rest, hk, Option.getD_some, List.mem_cons, not_or]
      exact ⟨hop.symm, calcVogelWeight_not_mem (h.suffix _ (List.mem_of_getElem? hk))⟩
    rw [h.vogel k o im him, if_neg hnot]
  rw [GradientSolver.threadStep] at hs
  split at hs
  · next ops o im hk him =>
    obtain rfl := Option.some.inj hs
    have hmem : GradientOp.calcVogelWeight ∈ s.rest S k := by
      rw [GradientState.rest, hk, Option.getD_some]
      exact List.mem_cons_self
    refine h.pop hk him ⟨made, hcounts, ?_⟩ (fun k' hne => Function.update_of_ne hne _ _) ?_ (fun _ _ _ _ => rfl)
      (fun m hm => GradientOp.noConfusion hm)
    · rw [sum_map_set_of_eq hk (List.count_cons_of_ne GradientOp.noConfusion).symm]
      exact hmade
    · rw [Function.update_self, h.vogel k o im him, if_pos hmem]
  · next m ops o im hk him =>
    obtain rfl := Option.some.inj hs
    have hvogel := hdone hk him GradientOp.noConfusion
    have hm : m < S.nModes := by
      have hmem := (h.suffix _ (List.mem_of_getElem? hk)).subset List.mem_cons_self
      simp [GradientSolver.taskOps] at hmem
      exact hmem.1
    refine h.pop hk him ⟨made, hcounts, ?_⟩ (fun _ _ => rfl) hvogel (fun k' m' hm' hne => ?_) (fun m' heq => ?_)
    · rw [sum_map_set_of_eq hk (List.count_cons_of_ne GradientOp.noConfusion).symm]
      exact hmade
    · refine Function.update_of_ne (entry_ne hm hm' (hne.imp_right fun hop heq => hop ?_)) _ _
      rw [heq]
    · obtain rfl := GradientOp.entry.inj heq
      rw [Function.update_self, hvogel, gradientMethod_eq]
  · next ops p hk him =>
    obtain rfl := Option.some.inj hs
    obtain ⟨rest, hsum, hset⟩ := sum_map_set (List.count GradientOp.step) hk
    rw [GradientState.steps, hsum, List.count_cons_self] at hmade
    have hposted := h.posted
    refine h.pop hk him ⟨made + 1, hcounts.step (by omega), ?_⟩ (fun _ _ => rfl)
      (hdone hk him GradientOp.noConfusion) (fun _ _ _ _ => rfl) (fun m hm => GradientOp.noConfusion hm)
    rw [hset]
    omega
  · exact absurd hs.symm (Option.some_ne_none _)

theorem step {a : GradientAction} (h : GradientInv S v s) (hs : S.step s a = some s') : GradientInv S v s' := by
  cases a with
  | main => exact h.main hs
  | thread k => exact h.thread hs

/-- **After the call every entry is as the task of its image has written it.** -/
theorem entry_returned (h : GradientInv S v s) (hret : s.returned = true) {o : GradientObject} {im : GradientImage}
    (hk : S.images[k]? = some (o, im)) (hm : m < S.nModes) : s.grad_alpha (k * S.nModes + m) =
      if S.enabledModes m = true then o.weight * (S.derivative o im (v k) m * o.weight)
      else S.regularisationTerm (k * S.nModes + m) := by
  obtain ⟨hlen, hzero⟩ := h.returned hret
  have hlt : k < s.tasks.length := hlen ▸ (List.getElem?_eq_some_iff.1 hk).1
  have hget := List.getElem?_eq_getElem hlt
  have hle := le_sum_map (f := List.count GradientOp.step) hget
  have hstep : GradientOp.step ∉ s.tasks[k] := by
    refine List.count_eq_zero.1 ?_
    rw [GradientState.steps] at hzero
    omega
  have hnil := eq_nil_of_suffix (h.suffix _ (List.getElem_mem hlt)) hstep
  have hrest : s.rest S k = [] := by rw [GradientState.rest, hget, Option.getD_some, hnil]
  rw [h.entry k o im hk m hm, hrest]
  exact if_congr (and_iff_left List.not_mem_nil) rfl rfl

/-- **Who does not get on has come back.** -/
theorem progress (h : GradientInv S v s) (hstuck : ∀ a, S.step s a = none) : s.returned = true := by
  have hmain := hstuck .main
  rw [GradientSolver.step, GradientSolver.mainStep] at hmain
  split_ifs at hmain with hpost hdone
  by_contra hret
  obtain ⟨made, hcounts, hmade⟩ := h.watch
  have hlen := h.posted
  have hempty : s.steps = 0 := by
    refine sum_map_eq_zero fun ops hmem => ?_
    obtain ⟨k, hlt, hops⟩ := List.mem_iff_getElem.1 hmem
    have hk : s.tasks[k]? = some ops := List.getElem?_eq_some_iff.2 ⟨hlt, hops⟩
    have him := List.getElem?_eq_getElem (hlt.trans_le hlen)
    have hthread := hstuck (.thread k)
    rw [GradientSolver.step, GradientSolver.threadStep, hk, him] at hthread
    cases ops with
    | nil => exact List.count_nil
    | cons op ops => cases op <;> exact absurd hthread (Option.some_ne_none _)
  exact hdone ⟨Bool.eq_false_of_not_eq_true hret, hcounts.completed.2 (by omega)⟩

end GradientInv

/-! ## Whole runs -/

/-- How many steps are left. -/
def GradientState.measure (s : GradientState) (S : GradientSolver) : ℕ :=
  (s.tasks.map List.length).sum + (S.images.length - s.tasks.length) * (S.taskOps.length + 1)
    + if s.returned then 0 else 1

theorem GradientSolver.step_measure {a : GradientAction} (hs : S.step s a = some s') :
    s'.measure S < s.measure S := by
  have hpop : ∀ {k op ops} {g vogel w}, s.tasks[k]? = some (op :: ops) →
      GradientState.measure ⟨g, vogel, w, s.tasks.set k ops, s.returned⟩ S < s.measure S := by
    intro k op ops g vogel w hk
    obtain ⟨rest, hsum, hset⟩ := sum_map_set List.length hk
    rw [GradientState.measure, GradientState.measure, hsum, hset, List.length_set, List.length_cons]
    dsimp only
    omega
  cases a with
  | main =>
    rw [GradientSolver.step, GradientSolver.mainStep] at hs
    split_ifs at hs with hpost hdone
    · obtain rfl := Option.some.inj hs
      obtain ⟨n, hn⟩ : ∃ n, S.images.length - s.tasks.length = n + 1 := Nat.exists_eq_add_one.2 (by omega)
      have hn' : S.images.length - (s.tasks.length + 1) = n := by omega
      rw [GradientState.measure, GradientState.measure, sum_map_concat, List.length_append, List.length_singleton,
        hn, hn', Nat.succ_mul]
      dsimp only
      omega
    · obtain rfl := Option.some.inj hs
      rw [GradientState.measure, GradientState.measure, hdone.1]
      simp
  | thread k =>
    rw [GradientSolver.step, GradientSolver.threadStep] at hs
    split at hs
    · next hk _ =>
      obtain rfl := Option.some.inj hs
      exact hpop hk
    · next hk _ =>
      obtain rfl := Option.some.inj hs
      exact hpop hk
    · next hk _ =>
      obtain rfl := Option.some.inj hs
      exact hpop hk
    · exact absurd hs.symm (Option.some_ne_none _)

/-- What holds of `begin` holds after every run. -/
theorem GradientInv.of_run {w : ProgressWatch Unit} {grad_alpha : ℕ → ℚ} {as : List GradientAction}
    (hrun : as.foldlM S.step (S.begin w grad_alpha v) = some s) : GradientInv S v s :=
  (always_of_invariant (fun _ _ _ h hs => h.step hs) (.begin w grad_alpha)).last hrun

/-- The weight counts once in place of twice, and the regularisation is lost. -/
theorem entry_eq_iff (wt d r : ℚ) : wt * (d * wt) = wt * d + r ↔ wt * (wt - 1) * d = r := by
  constructor
  · intro h
    linear_combination h
  · intro h
    linear_combination h

/-- **If the second factor of the weight makes up for the regularisation, a complete run leaves the gradient.** -/
theorem GradientSolver.Balanced.assembled (hbalanced : S.Balanced v) {w : ProgressWatch Unit} {grad_alpha : ℕ → ℚ}
    {as : List GradientAction} (hrun : as.foldlM S.step (S.begin w grad_alpha v) = some s)
    (hmax : ∀ a, S.step s a = none) : s.returned = true ∧ S.Assembled v s.grad_alpha := by
  have h : GradientInv S v s := .of_run hrun
  refine ⟨h.progress hmax, fun k o im hk m hm => ?_⟩
  rw [h.entry_returned (h.progress hmax) hk hm]
  split_ifs with hen
  · exact (entry_eq_iff _ _ _).2 (hbalanced k o im hk m hm hen)
  · rfl

/-- So it is with weights that are equal to their squares and no regularisation. -/
theorem GradientSolver.balanced_of_unit (hweight : ∀ o ∈ S.objects, o.weight = 0 ∨ o.weight = 1)
    (hreg : S.reg_alpha ≤ 0) : S.Balanced v := by
  intro k o im hk m _ _
  have hzero : S.regularisationTerm (k * S.nModes + m) = 0 := if_neg (not_lt.2 hreg)
  have ho : o ∈ S.objects := by
    obtain ⟨o', ho', him⟩ := List.mem_flatMap.1 (List.mem_of_getElem? hk)
    obtain ⟨_, _, heq⟩ := List.mem_map.1 him
    obtain ⟨rfl, -⟩ := Prod.mk.inj heq
    exact ho'
  rw [hzero]
  obtain hw | hw := hweight o ho
  · rw [hw, zero_mul, zero_mul]
  · rw [hw, sub_self, mul_zero, zero_mul]

/-- **With all weights zero or one and no regularisation, every complete run leaves the gradient of the metric.** -/
theorem gradient_assembled_of_unit (hweight : ∀ o ∈ S.objects, o.weight = 0 ∨ o.weight = 1)
    (hreg : S.reg_alpha ≤ 0) {w : ProgressWatch Unit} {grad_alpha : ℕ → ℚ} {as : List GradientAction}
    (hrun : as.foldlM S.step (S.begin w grad_alpha v) = some s) (hmax : ∀ a, S.step s a = none) :
    s.returned = true ∧ S.Assembled v s.grad_alpha :=
  (GradientSolver.balanced_of_unit hweight hreg).assembled hrun hmax

/-! ## What the entries belong to -/

/-- **The finite difference is that of the metric which `calcMetric` computes, up to the factor between the sizes
of the patch and of the OTF.** -/
theorem finiteDifference_eq {ι : Type} (obj : Object ι) (sums : Sums ι) (im : ι) (o : GradientObject)
    (image : GradientImage) (himage : image.arrays = obj.image im) (hsupport : o.otfSupport = obj.otfSupport)
    (hP : o.P = sums.P) (hQ : o.Q = sums.Q) (hpatch : obj.patchSize ≠ 0) {newOTF : ℕ → ℚ × ℚ}
    (hotf : newOTF = S.calcOTF image (addToPhi image.phi (image.modePointers m) image.grad_step))
    (hold : ∀ ind ∈ obj.otfSupport, sums.Q ind ≠ 0)
    (hnew : ∀ ind ∈ obj.otfSupport, (obj.addDiffToPQ sums im newOTF).Q ind ≠ 0) :
    S.finiteDifference o image m =
      (obj.metricOf (obj.addDiffToPQ sums im newOTF) - obj.metricOf sums) *
        (obj.patchSize * obj.patchSize / (S.otfSize * S.otfSize)) / image.grad_step := by
  have hpatch' : (obj.patchSize : ℚ) ≠ 0 := Nat.cast_ne_zero.2 hpatch
  have hchange : S.finiteDifference o image m = obj.metricChange S.otfSize sums im newOTF / image.grad_step := by
    rw [GradientSolver.finiteDifference, Object.metricChange, himage, hsupport, hP, hQ, hotf]
  rw [hchange, Object.metricChange_eq hold hnew, Object.metricOf_sub,
    div_mul_div_cancel₀ (mul_ne_zero hpatch' hpatch')]

end Results

/-- **After `gradient()` the entries are the weighted derivatives plus the regularisation in every complete run,
whatever the order of the threads, exactly if the second factor of the weight makes up for the regularisation
that is written over.** -/
theorem gradient_assembled_iff (S : GradientSolver) (w : ProgressWatch Unit) (grad_alpha : ℕ → ℚ)
    (vogel : ℕ → ℕ → ℚ) :
    (∀ (as : List GradientAction) (s : GradientState), as.foldlM S.step (S.begin w grad_alpha vogel) = some s →
      (∀ a, S.step s a = none) →
      s.returned = true ∧ S.Assembled vogel s.grad_alpha) ↔ S.Balanced vogel := by
  refine ⟨fun hall k o im hk m hm hen => ?_, fun hbalanced as s hrun hmax => hbalanced.assembled hrun hmax⟩
  obtain ⟨as, s, hrun, hmax⟩ := exists_maximal (fun _ _ _ hs => S.step_measure hs) (S.begin w grad_alpha vogel)
  obtain ⟨hret, hassembled⟩ := hall as s hrun hmax
  have hvalue := (GradientInv.of_run hrun).entry_returned hret hk hm
  rw [hassembled k o im hk m hm, if_pos hen, if_pos hen] at hvalue
  exact (entry_eq_iff _ _ _).1 hvalue.symm

/-- An image with one mode that is one on the pupil of one pixel. -/
def weightTwoImage : GradientImage := ⟨⟨0, 0⟩, 1, 0, fun _ _ => 1⟩

def weightTwoObject : GradientObject := ⟨2, 0, 1, 0, 0, 1, {0}, {0}, 1, [[weightTwoImage]]⟩

/-- One image with one mode in an object of weight two, without regularisation. -/
def weightTwo : GradientSolver where
  objects := [weightTwoObject]
  otfSize := 2
  nModes := 1
  enabledModes _ := true
  reg_alpha := 0
  alpha := 0
  regAlphaWeights := 0
  method := .GM_VOGEL
  calcOTF _ _ := 0
  calcVogelWeight _ _ _ _ _ := fun _ => 1

/-- The second of two images loses its OTF. -/
theorem finiteDifference_eq_twoImages :
    weightTwo.finiteDifference ⟨1, twoImages.full.P, twoImages.full.Q, 0, 0, 0, {0}, {0}, 1, []⟩
        ⟨twoImages.image true, 1, 0, 0⟩ 0 =
      (twoImages.metricOf (twoImages.addDiffToPQ twoImages.full true 0) - twoImages.metricOf twoImages.full) *
        (twoImages.patchSize * twoImages.patchSize / (weightTwo.otfSize * weightTwo.otfSize)) / 1 :=
  finiteDifference_eq twoImages twoImages.full true _ _ rfl rfl rfl rfl (OfNat.ofNat_ne_zero 16) rfl
    twoImages_Q_ne_zero twoImages_new_ne_zero

theorem weightTwo_vogelSum (o : GradientObject) (im : GradientImage) (harea : o.area = 1)
    (hsupport : o.pupilSupport = {0}) (hmode : im.modePointers = fun _ _ => 1) :
    weightTwo.vogelSum o im (fun _ => 1) 0 = -1 / 2 := by
  rw [GradientSolver.vogelSum, hsupport, Finset.sum_singleton, harea, hmode]
  norm_num [weightTwo]

/-- The derivative is one half, downwards; its entry is four times that. -/
theorem gradient_weight_twice : ∃ s, [GradientAction.main, .thread 0, .thread 0, .thread 0, .main].foldlM
    weightTwo.step (weightTwo.begin .clear 0 0) = some s ∧ s.returned = true ∧ s.grad_alpha 0 = -2 ∧
    ¬ weightTwo.Assembled 0 s.grad_alpha := by
  have hsum := weightTwo_vogelSum weightTwoObject weightTwoImage rfl rfl rfl
  have hvalue : (2 : ℚ) * (if (2 : ℚ) = 0 then 0 else weightTwo.vogelSum weightTwoObject weightTwoImage (fun _ => 1) 0
      * 2) = -2 := by
    rw [hsum]
    norm_num
  refine ⟨_, rfl, rfl, hvalue, fun h => ?_⟩
  have hterm : weightTwo.regularisationTerm 0 = 0 := if_neg (lt_irrefl _)
  have hclaimed : (-2 : ℚ) = 2 * weightTwo.vogelSum weightTwoObject weightTwoImage (fun _ => 1) 0 +
      weightTwo.regularisationTerm 0 := hvalue.symm.trans (h 0 weightTwoObject weightTwoImage rfl 0 Nat.one_pos)
  rw [hsum, hterm] at hclaimed
  norm_num at hclaimed

end Redux.Momfbd.Metric
