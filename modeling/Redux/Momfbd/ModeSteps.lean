import Redux.Lib.Fuel
import Redux.Lib.Residues

/-!
# Momfbd.ModeSteps — the passes of `Solver::run`

A patch is minimised in passes.  Each one enables some more modes, up to all of them in the last pass.  The
number of modes is a 16-bit counter that `MODE_STEP` is added to, and that nothing but the passes themselves
stops: it goes around the circle of the 16-bit numbers until it comes by one that is not below the number of
all modes (`run_endsWell_iff`), or for ever.  What the minimiser does is an oracle, the outcome of each iteration
of each pass.
-/

namespace Redux.Momfbd.ModeSteps

open Redux.Lib

/-! ## Model -/

/-- What the loops read of a `MomfbdJob`. -/
structure MomfbdJob where
  (nInitialModes nModeIncrement nModes : BitVec 16)
  (minIterations maxIterations targetIterations : BitVec 16)

/-- What an iteration of the minimiser returns: errors other than `GSL_ENOPROG` are only reported. -/
inductive Status
  | GSL_SUCCESS | GSL_ENOPROG | error

/-- The outcome of an iteration: the status, and what the tests of its numbers say. -/
structure Iterate where
  status : Status
  metricFinite : Bool
  gradientFinite : Bool
  /-- `gradNorm < job.FTOL` -/
  smallGradient : Bool
  /-- `relativeChange < tol` -/
  smallChange : Bool

/-- The ways to break out of the inner loop. -/
inductive Break
  | givingUp | noProgress | badMetric | badGradient | smallGradient
  deriving DecidableEq

/-- The variables of the inner loop, and where it broke off. -/
structure Inner where
  iter : ℕ
  successCount : ℕ
  done : Bool
  failCount : ℕ
  exitLoop : Bool
  broke : Option Break

def maxFails : ℕ := 3

namespace MomfbdJob

variable (job : MomfbdJob)

/-- What is made of the outcome of an iteration. -/
def judge (x : Iterate) (s : Inner) : Inner :=
  if maxFails < s.failCount then
    { s with exitLoop := true, done := true, broke := some .givingUp }
  else if x.status matches .GSL_ENOPROG then
    { s with failCount := s.failCount + 1, broke := some .noProgress }
  else if !x.metricFinite then
    { s with failCount := s.failCount + 1, broke := some .badMetric }
  else if !x.gradientFinite then
    { s with failCount := s.failCount + 1, broke := some .badGradient }
  else if x.smallGradient then
    { s with exitLoop := true, done := true, broke := some .smallGradient }
  else if 1 < s.iter then
    if x.smallChange then
      if job.targetIterations.toNat ≤ s.successCount + 1 then { s with successCount := 0, done := true }
      else { s with successCount := s.successCount + 1 }
    else { s with successCount := 0 }
  else s

/-- Once round the inner loop. -/
def iterate (x : Iterate) (s : Inner) : Inner := job.judge x { s with iter := s.iter + 1 }

/-- The condition of the inner loop, after which it may still break off. -/
def goesOn (maxIterations : ℕ) (s : Inner) : Bool :=
  (!s.done || s.iter < job.minIterations.toNat) && s.iter < maxIterations

theorem iter_judge (x : Iterate) (s : Inner) : (job.judge x s).iter = s.iter := by
  unfold judge
  split_ifs <;> rfl

theorem iter_lt {maxIterations : ℕ} {s : Inner} (x : Iterate) (h : job.goesOn maxIterations s) :
    maxIterations - (job.iterate x s).iter < maxIterations - s.iter := by
  have hlt : s.iter < maxIterations := of_decide_eq_true (Bool.and_eq_true_iff.1 h).2
  rw [iterate, iter_judge]
  show maxIterations - (s.iter + 1) < maxIterations - s.iter
  omega

/-- The inner loop. -/
def inner (maxIterations : ℕ) (outcomes : ℕ → Iterate) (s : Inner) : Inner :=
  if h : s.broke.isNone ∧ job.goesOn maxIterations s then
    have := job.iter_lt (outcomes s.iter) h.2
    inner maxIterations outcomes (job.iterate (outcomes s.iter) s)
  else s
  termination_by maxIterations - s.iter

end MomfbdJob

/-- The variables of the outer loop at its head, and where the inner loop broke off last. -/
structure Outer where
  modeCount : BitVec 16
  exitLoop : Bool
  enabledModes : ℕ → Bool
  maxIterations : ℕ
  failCount : ℕ
  broke : Option Break

namespace MomfbdJob

variable (job : MomfbdJob)

/-- The modes of a pass: the counter, clamped. -/
def clamp (modeCount : BitVec 16) : BitVec 16 := if job.nModes < modeCount then job.nModes else modeCount

/-- One pass, and the step of the counter after it. -/
def pass (outcomes : ℕ → Iterate) (s : Outer) : Outer :=
  let modeCount := job.clamp s.modeCount
  let final : Bool := modeCount == job.nModes || job.maxIterations == 0
  let maxIterations := if final then job.maxIterations.toNat else s.maxIterations
  let i := job.inner maxIterations outcomes ⟨0, 0, false, s.failCount, final, none⟩
  { modeCount := modeCount + job.nModeIncrement
    exitLoop := i.exitLoop
    enabledModes := fun m => m < modeCount.toNat || s.enabledModes m
    maxIterations := maxIterations
    failCount := i.failCount
    broke := i.broke }

/-- The passes from number `p` on; none if there are not enough rounds. -/
def passes (outcomes : ℕ → ℕ → Iterate) : ℕ → ℕ → Outer → Option Outer
  | _, 0, _ => none
  | p, fuel + 1, s => if s.exitLoop then some s else passes outcomes (p + 1) fuel (job.pass (outcomes p) s)

/-- The variables before the first pass. -/
def start : Outer := ⟨job.nInitialModes, false, fun _ => false, 10, 0, none⟩

/-- The outer loop of `Solver::run`, for the outcomes of the iterations of each pass. -/
def run (outcomes : ℕ → ℕ → Iterate) (fuel : ℕ) : Option Outer := job.passes outcomes 0 fuel job.start

end MomfbdJob

/-- The loop is left as there are too many failures, or as the gradient is small. -/
def Break.leaves : Break → Bool
  | .givingUp | .smallGradient => true
  | .noProgress | .badMetric | .badGradient => false

/-- Unless the loop was left early, its last pass had all modes. -/
def MomfbdJob.Complete (job : MomfbdJob) (s : Outer) : Prop :=
  s.broke.any Break.leaves ∨ ∀ m < job.nModes.toNat, s.enabledModes m

/-- **The loop ends, whatever the minimiser does, and with all modes unless it was left early.** -/
def MomfbdJob.EndsWell (job : MomfbdJob) : Prop := ∀ outcomes, ∃ s, Settles (job.run outcomes) s ∧ job.Complete s

/-! ## The inner loop -/

namespace MomfbdJob

variable (job : MomfbdJob) {outcomes : ℕ → Iterate} {n : ℕ} {s : Inner}

theorem exitLoop_judge (x : Iterate) (h : s.broke = none) :
    (job.judge x s).exitLoop = (s.exitLoop || (job.judge x s).broke.any Break.leaves) := by
  unfold judge
  split_ifs <;> simp [h, Break.leaves]

/-- **The inner loop leaves the outer one exactly where it says so.** -/
theorem exitLoop_inner (h : s.broke = none) :
    (job.inner n outcomes s).exitLoop = (s.exitLoop || (job.inner n outcomes s).broke.any Break.leaves) := by
  fun_induction inner job n outcomes s with
  | case1 s hgo _ ih =>
    by_cases hbroke : (job.iterate (outcomes s.iter) s).broke = none
    · rw [ih hbroke, iterate, exitLoop_judge job _ (by exact h), ← iterate, hbroke, Option.any_none, Bool.or_false]
    · rw [inner, dif_neg fun hgo => hbroke (Option.isNone_iff_eq_none.1 hgo.1)]
      exact exitLoop_judge job _ h
  | case2 s hstop => rw [h, Option.any_none, Bool.or_false]

/-- An iteration that nothing is wrong with, and that makes a difference. -/
def fine : Iterate := ⟨.GSL_SUCCESS, true, true, false, false⟩

/-- **A loop of such iterations neither breaks off nor counts a failure.** -/
theorem inner_fine (h : s.broke = none) (hfail : s.failCount ≤ maxFails) :
    (job.inner n (fun _ => fine) s).broke = none ∧ (job.inner n (fun _ => fine) s).exitLoop = s.exitLoop ∧
      (job.inner n (fun _ => fine) s).failCount = s.failCount := by
  fun_induction inner job n (fun _ => fine) s with
  | case1 s hgo _ ih =>
    have hiterate : (job.iterate fine s).broke = none ∧ (job.iterate fine s).exitLoop = s.exitLoop ∧
        (job.iterate fine s).failCount = s.failCount := by
      unfold iterate judge
      rw [if_neg (by exact Nat.not_lt.2 hfail)]
      by_cases hfirst : 1 < s.iter + 1
      · simp [fine, hfirst, h]
      · simp [fine, hfirst, h]
    obtain ⟨hbroke, hexit, hcount⟩ := hiterate
    rw [← hexit, ← hcount]
    exact ih hbroke (hcount.trans_le hfail)
  | case2 s hstop => exact ⟨h, rfl, rfl⟩

end MomfbdJob

/-! ## The passes -/

section Passes

variable {job : MomfbdJob} {outcomes : ℕ → ℕ → Iterate} {p : ℕ} {s : Outer}

/-- Where the counter is at the head of pass `p`, as long as it is below the number of all modes. -/
def MomfbdJob.countAt (job : MomfbdJob) (p : ℕ) : ℕ :=
  residueAt (2 ^ 16) job.nInitialModes.toNat job.nModeIncrement.toNat p

theorem passes_exit (h : s.exitLoop) (fuel : ℕ) : job.passes outcomes p (fuel + 1) s = some s := by
  rw [MomfbdJob.passes, if_pos h]

theorem settles_passes (h : s.exitLoop) : Settles (fun fuel => job.passes outcomes p fuel s) s :=
  ⟨1, fun fuel hfuel => by obtain ⟨k, rfl⟩ := Nat.exists_eq_add_of_le' hfuel; exact passes_exit h k⟩

theorem passes_next (h : s.exitLoop = false) (fuel : ℕ) :
    job.passes outcomes p (fuel + 1) s = job.passes outcomes (p + 1) fuel (job.pass (outcomes p) s) := by
  rw [MomfbdJob.passes, if_neg (by rw [h]; exact Bool.false_ne_true)]

theorem settles_pass {t : Outer} (h : s.exitLoop = false)
    (ht : Settles (fun fuel => job.passes outcomes (p + 1) fuel (job.pass (outcomes p) s)) t) :
    Settles (fun fuel => job.passes outcomes p fuel s) t := by
  obtain ⟨n, hn⟩ := ht
  refine ⟨n + 1, fun fuel hfuel => ?_⟩
  obtain ⟨k, rfl⟩ := Nat.exists_eq_add_of_le' (Nat.le_of_add_left_le hfuel : 1 ≤ fuel)
  exact (passes_next h k).trans (hn k (Nat.le_of_succ_le_succ hfuel))

theorem toNat_clamp (c : BitVec 16) : (job.clamp c).toNat = min c.toNat job.nModes.toNat := by
  rw [MomfbdJob.clamp]
  split_ifs with h
  · exact (min_eq_right (Nat.le_of_lt h)).symm
  · exact (min_eq_left (Nat.le_of_not_lt h)).symm

theorem clamp_eq_nModes_iff (c : BitVec 16) : job.clamp c = job.nModes ↔ job.nModes.toNat ≤ c.toNat := by
  rw [← BitVec.toNat_inj, toNat_clamp, min_eq_right_iff]

/-- **A last pass**, as all modes are there or as there is nothing to be iterated. -/
theorem exitLoop_pass_of_final (outcomes : ℕ → Iterate)
    (h : job.nModes.toNat ≤ s.modeCount.toNat ∨ job.maxIterations = 0) : (job.pass outcomes s).exitLoop := by
  have hfinal : (job.clamp s.modeCount == job.nModes || job.maxIterations == 0) = true := by
    rwa [Bool.or_eq_true, beq_iff_eq, beq_iff_eq, clamp_eq_nModes_iff]
  rw [MomfbdJob.pass, job.exitLoop_inner rfl, hfinal, Bool.true_or]

/-- **Any other pass goes on**, unless the minimiser made it leave. -/
theorem exitLoop_pass_of_not_final (outcomes : ℕ → Iterate) (h : s.modeCount.toNat < job.nModes.toNat)
    (hmax : job.maxIterations ≠ 0) :
    (job.pass outcomes s).exitLoop = (job.pass outcomes s).broke.any Break.leaves := by
  have hfinal : (job.clamp s.modeCount == job.nModes || job.maxIterations == 0) = false := by
    rw [Bool.or_eq_false_iff, beq_eq_false_iff_ne, beq_eq_false_iff_ne, Ne, clamp_eq_nModes_iff]
    exact ⟨Nat.not_le.2 h, hmax⟩
  rw [MomfbdJob.pass, job.exitLoop_inner rfl, hfinal, Bool.false_or]

theorem enabledModes_pass (outcomes : ℕ → Iterate) {m : ℕ} (hs : m < s.modeCount.toNat)
    (hm : m < job.nModes.toNat) : (job.pass outcomes s).enabledModes m := by
  have hlt : m < (job.clamp s.modeCount).toNat := by
    rw [toNat_clamp]
    exact lt_min hs hm
  show (decide (m < (job.clamp s.modeCount).toNat) || s.enabledModes m) = true
  rw [decide_eq_true hlt, Bool.true_or]

theorem modeCount_pass (outcomes : ℕ → Iterate) (h : s.modeCount.toNat < job.nModes.toNat)
    (hs : s.modeCount.toNat = job.countAt p) : (job.pass outcomes s).modeCount.toNat = job.countAt (p + 1) := by
  rw [MomfbdJob.pass, BitVec.toNat_add, toNat_clamp, min_eq_left (Nat.le_of_lt h), hs]
  exact residueAt_succ.symm

/-- **From a pass that the counter goes on to all modes from, the loop ends well.** -/
theorem settles_of_countAt (hmax : job.maxIterations ≠ 0) (k : ℕ) : ∀ {p : ℕ} {s : Outer}, s.exitLoop = false →
    s.modeCount.toNat = job.countAt p → job.nModes.toNat ≤ job.countAt (p + k) →
    ∃ t, Settles (fun fuel => job.passes outcomes p fuel s) t ∧ job.Complete t := by
  induction k with
  | zero =>
    intro p s hexit hcount hk
    have hlast : job.nModes.toNat ≤ s.modeCount.toNat := hk.trans_eq hcount.symm
    refine ⟨_, settles_pass hexit (settles_passes (exitLoop_pass_of_final _ (Or.inl hlast))), Or.inr fun m hm => ?_⟩
    exact enabledModes_pass _ (hm.trans_le hlast) hm
  | succ k ih =>
    intro p s hexit hcount hk
    rcases Nat.lt_or_ge s.modeCount.toNat job.nModes.toNat with hlt | hlast
    · have hleaves := exitLoop_pass_of_not_final (outcomes p) hlt hmax
      cases hbroke : (job.pass (outcomes p) s).broke.any Break.leaves with
      | true => exact ⟨_, settles_pass hexit (settles_passes (hleaves.trans hbroke)), Or.inl hbroke⟩
      | false =>
        rw [← Nat.succ_add_eq_add_succ] at hk
        obtain ⟨t, ht, hcomplete⟩ := ih (hleaves.trans hbroke) (modeCount_pass _ hlt hcount) hk
        exact ⟨t, settles_pass hexit ht, hcomplete⟩
    · refine ⟨_, settles_pass hexit (settles_passes (exitLoop_pass_of_final _ (Or.inl hlast))), Or.inr fun m hm => ?_⟩
      exact enabledModes_pass _ (hm.trans_le hlast) hm

theorem pass_fine (hmax : job.maxIterations ≠ 0) (h : s.modeCount.toNat < job.nModes.toNat)
    (hfail : s.failCount ≤ maxFails) :
    (job.pass (fun _ => MomfbdJob.fine) s).exitLoop = false ∧
      (job.pass (fun _ => MomfbdJob.fine) s).failCount = s.failCount := by
  rw [exitLoop_pass_of_not_final _ h hmax, MomfbdJob.pass]
  obtain ⟨hbroke, -, hcount⟩ := @MomfbdJob.inner_fine job _ ⟨0, 0, false, s.failCount, _, none⟩ rfl hfail
  rw [hbroke]
  exact ⟨rfl, hcount⟩

/-- **If the counter never comes by all modes**, the passes of a minimiser that makes progress go on for ever. -/
theorem passes_fine (hmax : job.maxIterations ≠ 0) (hnever : ∀ i, job.countAt i < job.nModes.toNat) (fuel : ℕ) :
    ∀ {p : ℕ} {s : Outer}, s.exitLoop = false → s.failCount ≤ maxFails → s.modeCount.toNat = job.countAt p →
      job.passes (fun _ _ => MomfbdJob.fine) p fuel s = none := by
  induction fuel with
  | zero => exact fun _ _ _ => rfl
  | succ fuel ih =>
    intro p s hexit hfail hcount
    have hlt : s.modeCount.toNat < job.nModes.toNat := hcount.trans_lt (hnever p)
    obtain ⟨hgoes, hcounted⟩ := pass_fine hmax hlt hfail
    rw [passes_next hexit]
    exact ih hgoes (hcounted.trans_le hfail) (modeCount_pass _ hlt hcount)

variable (outcomes) in
/-- Without iterations there is one pass, with the modes that `MODE_START` asks for. -/
theorem run_of_maxIterations (hmax : job.maxIterations = 0) :
    Settles (job.run outcomes) (job.pass (outcomes 0) job.start) ∧
      (job.pass (outcomes 0) job.start).broke = none := by
  refine ⟨settles_pass rfl (settles_passes (exitLoop_pass_of_final _ (Or.inr hmax))), ?_⟩
  have hfinal : (job.clamp job.start.modeCount == job.nModes || job.maxIterations == 0) = true := by
    rw [Bool.or_eq_true, beq_iff_eq, beq_iff_eq]
    exact Or.inr hmax
  rw [MomfbdJob.pass, if_pos hfinal, hmax, MomfbdJob.inner, dif_neg fun h => ?_]
  exact absurd (of_decide_eq_true (Bool.and_eq_true_iff.1 h.2).2) (Nat.not_lt_zero _)

theorem enabledModes_first {m : ℕ} (hm : job.nInitialModes.toNat ≤ m) (outcomes : ℕ → Iterate) :
    (job.pass outcomes job.start).enabledModes m = false := by
  have hle : ¬m < (job.clamp job.nInitialModes).toNat := by
    rw [toNat_clamp]
    exact Nat.not_lt.2 ((min_le_left _ _).trans hm)
  show (decide (m < (job.clamp job.nInitialModes).toNat) || false) = false
  rw [decide_eq_false hle, Bool.or_false]

/-- The counter comes by a number of modes exactly if the largest number on its way is one. -/
theorem exists_countAt_iff : (∃ i, job.nModes.toNat ≤ job.countAt i) ↔
    job.nModes.toNat ≤ farthest (2 ^ 16) job.nInitialModes.toNat job.nModeIncrement.toNat := by
  rcases Nat.eq_zero_or_pos job.nModes.toNat with hzero | hpos
  · rw [hzero]
    exact iff_of_true ⟨0, Nat.zero_le _⟩ (Nat.zero_le _)
  · obtain ⟨n, hn⟩ := Nat.exists_eq_succ_of_ne_zero hpos.ne'
    rw [hn, Nat.succ_le_iff, ← passes_iff (by decide)]
    exact Iff.rfl

end Passes

/-! ## Results -/

/-- **The outer loop ends, and with all modes, exactly if `MODE_START` already asks for all modes, or if there
are iterations at all and the counter comes by all modes on its way around the 16-bit numbers.** -/
theorem endsWell_iff (job : MomfbdJob) : job.EndsWell ↔ job.nModes.toNat ≤ job.nInitialModes.toNat ∨
    job.maxIterations ≠ 0 ∧
      job.nModes.toNat ≤ farthest (2 ^ 16) job.nInitialModes.toNat job.nModeIncrement.toNat := by
  have hstart : job.countAt 0 = job.nInitialModes.toNat := residueAt_zero job.nInitialModes.isLt
  by_cases hmax : job.maxIterations = 0
  · rw [or_iff_left fun h => h.1 hmax]
    constructor
    · intro h
      obtain ⟨hrun, hbroke⟩ := run_of_maxIterations (fun _ _ => MomfbdJob.fine) hmax
      obtain ⟨s, hs, hcomplete⟩ := h fun _ _ => MomfbdJob.fine
      obtain rfl := hs.unique hrun
      by_contra hlt
      rcases hcomplete with hleaves | hall
      · rw [hbroke] at hleaves
        exact Bool.false_ne_true hleaves
      · have henabled := hall _ (Nat.not_le.1 hlt)
        rw [enabledModes_first le_rfl] at henabled
        exact Bool.false_ne_true henabled
    · intro h outcomes
      refine ⟨_, (run_of_maxIterations outcomes hmax).1, Or.inr fun m hm => enabledModes_pass _ (hm.trans_le h) hm⟩
  · rw [and_iff_right hmax, ← exists_countAt_iff, or_iff_right_of_imp fun h => ⟨0, h.trans_eq hstart.symm⟩]
    constructor
    · intro h
      by_contra hnever
      obtain ⟨s, hs, -⟩ := h fun _ _ => MomfbdJob.fine
      refine not_settles (fun fuel => ?_) hs
      exact passes_fine hmax (fun i => Nat.not_le.1 fun hi => hnever ⟨i, hi⟩) fuel rfl (Nat.zero_le _) hstart.symm
    · rintro ⟨i, hi⟩ outcomes
      exact settles_of_countAt hmax i rfl hstart.symm (by rwa [Nat.zero_add])

/-- Ten modes that are begun with five and increased by none. -/
def noStep : MomfbdJob := ⟨5, 0, 10, 5, 500, 3⟩

theorem noStep_not_endsWell : ¬noStep.EndsWell := by
  intro h
  obtain ⟨s, hs, -⟩ := h fun _ _ => MomfbdJob.fine
  have hcount : ∀ i, noStep.countAt i < noStep.nModes.toNat := fun i => by
    show (5 + i * 0) % 2 ^ 16 < 10
    rw [Nat.mul_zero]
    decide
  exact not_settles (fun fuel => passes_fine (by decide) hcount fuel rfl (Nat.zero_le _) rfl) hs

end Redux.Momfbd.ModeSteps
