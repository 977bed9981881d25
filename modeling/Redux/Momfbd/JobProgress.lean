import Redux.Momfbd.Job
import Mathlib.Data.Nat.Bitwise
import Mathlib.Data.Finset.Card
import Mathlib.Data.Finset.Range

/-!
# Momfbd.JobProgress — the patches of a running job and what it has counted

`Accounts j results` ties the steps of the patches, the progress watch and the step of the job to the
list of the patches that were returned.  Every operation on patches keeps it; the ones that change a
patch ask for the step the patch has before.
-/

namespace Redux.Momfbd

namespace Job

/-- The step of patch `i`. -/
def patchStep (j : Job) (i : ℕ) : Option ℕ := j.patches[i]?

/-- The steps a patch has from the queue to its result. -/
def patchSteps : List ℕ := [JStep.queued, JStep.running, JStep.err, JStep.postprocess]

/-- The job is about to run, runs with `results` counted, or is done. -/
inductive Phase (j : Job) (results : List ℕ) : Prop
  | queued (step : j.step = JStep.queued) (none_yet : results = [])
      (patches : ∀ p ∈ j.patches, p = JStep.queued)
  | running (step : j.step = JStep.running) (some_left : results.length < j.patches.length)
      (start : j.progWatch.start = 0) (counter : j.progWatch.counter = results.length)
      (target : j.progWatch.target = j.patches.length)
      (onCompletion : j.progWatch.onCompletion = some .allPatches)
  | done (step : j.step = JStep.done) (all : results.length = j.patches.length)

/-- The returned patches, each of them once, are the ones in `JSTEP_POSTPROCESS`, and their number
decides the step of the job. -/
structure Accounts (j : Job) (results : List ℕ) : Prop where
  patches : j.patches ≠ []
  steps : ∀ i step, j.patchStep i = some step → step ∈ patchSteps
  nodup : results.Nodup
  returned : ∀ i, i ∈ results ↔ j.patchStep i = some JStep.postprocess
  phase : Phase j results

section Patches

variable {j : Job} {results : List ℕ} {i k p step : ℕ}

theorem patchStep_setPatch (hi : i < j.patches.length) :
    (j.setPatch i step).patchStep k = if k = i then some step else j.patchStep k := by
  rw [patchStep, setPatch, List.getElem?_set]
  split_ifs with h₁ h₂ h₂
  · rfl
  · exact absurd h₁.symm h₂
  · exact absurd h₂.symm h₁
  · rfl

theorem lt_of_patchStep (h : j.patchStep i = some step) : i < j.patches.length :=
  (List.getElem?_eq_some_iff.mp h).1

@[simp] theorem setPatch_length : (j.setPatch i step).patches.length = j.patches.length :=
  List.length_set

theorem setPatch_ne_nil (h : j.patches ≠ []) : (j.setPatch i step).patches ≠ [] := by
  rw [← List.length_pos_iff] at h ⊢
  rwa [setPatch_length]

/-- All patches have returned when as many have as there are. -/
theorem Accounts.all_iff (h : Accounts j results) :
    (∀ i < j.patches.length, i ∈ results) ↔ results.length = j.patches.length := by
  have hsub : results.toFinset ⊆ Finset.range j.patches.length := fun i hi =>
    Finset.mem_range.mpr (lt_of_patchStep ((h.returned i).mp (List.mem_toFinset.mp hi)))
  rw [← List.toFinset_card_of_nodup h.nodup]
  constructor
  · intro hall
    have : results.toFinset = Finset.range j.patches.length :=
      hsub.antisymm fun i hi => List.mem_toFinset.mpr (hall i (Finset.mem_range.mp hi))
    rw [this, Finset.card_range]
  · intro hcard i hi
    have : results.toFinset = Finset.range j.patches.length :=
      Finset.eq_of_subset_of_card_le hsub (by rw [Finset.card_range, hcard])
    exact List.mem_toFinset.mp (this ▸ Finset.mem_range.mpr hi)

/-- **The job is done exactly when all patches have returned.** -/
theorem Accounts.done_iff (h : Accounts j results) :
    j.step = JStep.done ↔ ∀ i < j.patches.length, i ∈ results := by
  rw [h.all_iff]
  cases h.phase with
  | queued hs hr _ =>
    have := List.length_pos_iff.mpr h.patches
    rw [hs, hr]
    exact ⟨fun h => absurd h (by decide), fun h => by rw [List.length_nil] at h; omega⟩
  | running hs hr =>
    rw [hs]
    exact ⟨fun h => absurd h (by decide), fun h => by omega⟩
  | done hs hr => exact ⟨fun _ => hr, fun _ => hs⟩

/-- While a patch is out the job runs. -/
theorem Accounts.running_of_patch (h : Accounts j results) (hi : j.patchStep i = some JStep.running) :
    j.step = JStep.running ∧ results.length < j.patches.length := by
  cases hph : h.phase with
  | queued _ _ hq => exact absurd (hq _ (List.mem_of_getElem? hi)) (by decide)
  | running hs hr => exact ⟨hs, hr⟩
  | done _ hr =>
    have hmem := (h.returned i).mp ((h.all_iff.mpr hr) i (lt_of_patchStep hi))
    rw [hi] at hmem
    exact absurd hmem (by decide)

/-! ## The operations -/

/-- A patch that is not returned gets a step other than `JSTEP_POSTPROCESS` while the job runs. -/
theorem Accounts.setPatch (h : Accounts j results) (hrun : j.step = JStep.running)
    (hi : i < j.patches.length) (hold : j.patchStep i ≠ some JStep.postprocess)
    (hmem : step ∈ patchSteps) (hstep : step ≠ JStep.postprocess) :
    Accounts (j.setPatch i step) results where
  patches := setPatch_ne_nil h.patches
  steps k st hk := by
    rw [patchStep_setPatch hi] at hk
    split_ifs at hk with hki
    · rw [← Option.some.inj hk]; exact hmem
    · exact h.steps k st hk
  nodup := h.nodup
  returned k := by
    rw [patchStep_setPatch hi, h.returned]
    split_ifs with hki
    · rw [hki]
      exact ⟨fun hp => absurd hp hold, fun hp => absurd (Option.some.inj hp) hstep⟩
    · rfl
  phase := by
    cases h.phase with
    | queued hs => rw [hrun] at hs; exact absurd hs (by decide)
    | running hs hr h₁ h₂ h₃ h₄ => exact .running hs (by rwa [setPatch_length]) h₁ h₂ (by rwa [setPatch_length]) h₄
    | done hs => rw [hrun] at hs; exact absurd hs (by decide)

/-- While a patch is out the progress watch counts the results. -/
theorem Accounts.progWatch (h : Accounts j results) (hi : j.patchStep i = some JStep.running) :
    j.progWatch.start = 0 ∧ j.progWatch.counter = results.length ∧
      j.progWatch.target = j.patches.length ∧ j.progWatch.onCompletion = some .allPatches := by
  have hrun := (h.running_of_patch hi).1
  cases h.phase with
  | queued hs => rw [hrun] at hs; exact absurd hs (by decide)
  | running _ _ h₁ h₂ h₃ h₄ => exact ⟨h₁, h₂, h₃, h₄⟩
  | done hs => rw [hrun] at hs; exact absurd hs (by decide)

/-- Counting a result: the job goes on, or is done with the last one. -/
theorem Accounts.returnResult_phase (h : Accounts j results) (hi : j.patchStep i = some JStep.running) :
    (j.returnResult i).patches = (j.setPatch i JStep.postprocess).patches ∧
      Phase (j.returnResult i) (results ++ [i]) := by
  obtain ⟨hrun, hlt⟩ := h.running_of_patch hi
  obtain ⟨h₁, h₂, h₃, h₄⟩ := h.progWatch hi
  have hpos := List.length_pos_iff.mpr h.patches
  have hlen : (results ++ [i]).length = results.length + 1 := by simp
  have hw : (j.setPatch i JStep.postprocess).progWatch = j.progWatch := rfl
  by_cases hlast : results.length + 1 = j.patches.length
  · have hstep := ProgressWatch.step_of_eq (w := j.progWatch) (by rw [h₁, h₃]; omega) (by rw [h₂, h₃]; omega)
    have hret : j.returnResult i = { j.setPatch i JStep.postprocess with
        step := JStep.done
        progWatch := { j.progWatch with
          counter := j.progWatch.start, completed := true, onCompletion := none } } := by
      rw [Job.returnResult, tick, hw, hstep, h₄]
      simp only [complete, moveTo_eq]
    rw [hret]
    exact ⟨rfl, .done rfl (by rw [hlen, hlast]; exact setPatch_length.symm)⟩
  · have hstep := ProgressWatch.step_of_ne (w := j.progWatch) (by rw [h₂, h₃]; omega)
    have hret : j.returnResult i = { j.setPatch i JStep.postprocess with
        progWatch := { j.progWatch with counter := j.progWatch.counter + 1, completed := false } } := by
      rw [Job.returnResult, tick, hw, hstep]
    rw [hret]
    refine ⟨rfl, .running hrun ?_ h₁ ?_ ?_ h₄⟩
    · have hl : (j.setPatch i JStep.postprocess).patches.length = j.patches.length := setPatch_length
      simp only [hlen, hl]
      omega
    · simp only [h₂, hlen]; push_cast; rfl
    · rw [h₃]
      exact congrArg _ setPatch_length.symm

theorem Accounts.patchStep_returnResult (h : Accounts j results) (hi : j.patchStep i = some JStep.running) :
    (j.returnResult i).patchStep k = if k = i then some JStep.postprocess else j.patchStep k := by
  rw [← patchStep_setPatch (lt_of_patchStep hi), patchStep, patchStep, (h.returnResult_phase hi).1]

/-- **A result of a patch that is out is counted, and the last one finishes the job.** -/
theorem Accounts.returnResult (h : Accounts j results) (hi : j.patchStep i = some JStep.running) :
    Accounts (j.returnResult i) (results ++ [i]) := by
  obtain ⟨hpatches, hphase⟩ := h.returnResult_phase hi
  have hnew : i ∉ results := fun hmem => by
    have := (h.returned i).mp hmem
    rw [hi] at this
    exact absurd this (by decide)
  refine ⟨?_, ?_, ?_, ?_, hphase⟩
  · rw [hpatches]
    exact setPatch_ne_nil h.patches
  · intro k st hk
    rw [h.patchStep_returnResult hi] at hk
    split_ifs at hk with hki
    · rw [← Option.some.inj hk]; decide
    · exact h.steps k st hk
  · exact List.nodup_append.mpr ⟨h.nodup, List.nodup_singleton i, by
      intro a ha b hb hab
      rw [List.mem_singleton.mp hb] at hab
      exact hnew (hab ▸ ha)⟩
  · intro k
    rw [h.patchStep_returnResult hi, List.mem_append, List.mem_singleton, h.returned]
    split_ifs with hki
    · simp [hki]
    · simp [hki]

/-- The first patch handed out is a queued one. -/
theorem handOut_spec (j : Job) : j.handOut = (j, none) ∨
    ∃ i, j.patchStep i = some JStep.queued ∧ j.handOut = (j.setPatch i JStep.running, some i) := by
  unfold handOut
  cases hf : j.patches.findIdx? (· = JStep.queued) with
  | none => exact .inl rfl
  | some i =>
    refine .inr ⟨i, ?_, rfl⟩
    obtain ⟨hlt, hp, -⟩ := List.findIdx?_eq_some_iff_getElem.mp hf
    rw [patchStep, List.getElem?_eq_getElem hlt]
    exact congrArg some (by simpa using hp)

theorem moveTo_patches (j : Job) (target : ℕ) : (j.moveTo target).patches = j.patches := by rw [moveTo_eq]

theorem startRunning_patches (j : Job) : j.startRunning.patches = j.patches := by
  rw [Job.startRunning, moveTo_eq]

theorem Accounts.startRunning (h : Accounts j results) (hq : j.step = JStep.queued) :
    Accounts j.startRunning results := by
  have hpatches := startRunning_patches j
  obtain hr : results = [] := by
    cases h.phase with
    | queued _ hr _ => exact hr
    | running hs => rw [hq] at hs; exact absurd hs (by decide)
    | done hs => rw [hq] at hs; exact absurd hs (by decide)
  have hpos := List.length_pos_iff.mpr h.patches
  refine ⟨by rw [hpatches]; exact h.patches, ?_, h.nodup, ?_, .running ?_ ?_ rfl ?_ ?_ rfl⟩
  · simpa only [patchStep, hpatches] using h.steps
  · simpa only [patchStep, hpatches] using h.returned
  · rw [Job.startRunning]; exact moveTo_step ..
  · rw [hr, hpatches]; exact hpos
  · rw [hr]; rfl
  · rw [hpatches]; rfl

/-- A job that is asked for work does nothing, or hands out while it runs. -/
theorem getWorkRemote_cases (j : Job) (locked full : Bool) : j.getWorkRemote locked full = (j, none) ∨
    ∃ j', (j.step = JStep.queued ∧ j' = j.startRunning ∨ j.step = JStep.running ∧ j' = j) ∧
      j.getWorkRemote locked full = j'.handOut := by
  unfold Job.getWorkRemote
  by_cases h₁ : j.step ≠ JStep.queued ∧ j.step ≠ JStep.running
  · exact .inl (if_pos h₁)
  rw [if_neg h₁]
  by_cases h₂ : ¬ locked
  · exact .inl (if_pos h₂)
  rw [if_neg h₂]
  by_cases h₃ : j.step = JStep.queued
  · rw [if_pos h₃]
    by_cases h₄ : full
    · exact .inl (if_pos h₄)
    · exact .inr ⟨_, .inl ⟨h₃, rfl⟩, if_neg h₄⟩
  · rw [if_neg h₃]
    refine .inr ⟨j, .inr ⟨?_, rfl⟩, rfl⟩
    by_contra hne
    exact h₁ ⟨h₃, hne⟩

/-- **The job hands out nothing, or one patch that was queued.** -/
theorem getWorkRemote_spec (j : Job) (locked full : Bool) :
    let r := j.getWorkRemote locked full
    (r.2 = none ∧ r.1.patches = j.patches) ∨ ∃ i, r.2 = some i ∧ j.patchStep i = some JStep.queued ∧
      r.1.patches = (j.setPatch i JStep.running).patches := by
  dsimp only
  obtain heq | ⟨j', hj', heq⟩ := j.getWorkRemote_cases locked full
  · rw [heq]
    exact .inl ⟨rfl, rfl⟩
  have hp : j'.patches = j.patches := by
    obtain ⟨-, rfl⟩ | ⟨-, rfl⟩ := hj'
    · exact startRunning_patches j
    · rfl
  rw [heq]
  obtain heq | ⟨i, hi, heq⟩ := j'.handOut_spec
  · rw [heq]
    exact .inl ⟨rfl, hp⟩
  · rw [heq]
    refine .inr ⟨i, rfl, ?_, ?_⟩
    · rwa [patchStep, ← hp]
    · rw [Job.setPatch, Job.setPatch, hp]

theorem Accounts.getWorkRemote {locked full : Bool} (h : Accounts j results) :
    Accounts (j.getWorkRemote locked full).1 results := by
  obtain heq | ⟨j', hj', heq⟩ := j.getWorkRemote_cases locked full
  · rw [heq]
    exact h
  have hacc : Accounts j' results ∧ j'.step = JStep.running := by
    obtain ⟨hq, rfl⟩ | ⟨hrun, rfl⟩ := hj'
    · exact ⟨h.startRunning hq, by rw [Job.startRunning]; exact moveTo_step ..⟩
    · exact ⟨h, hrun⟩
  rw [heq]
  obtain heq | ⟨i, hi, heq⟩ := j'.handOut_spec
  · rw [heq]
    exact hacc.1
  · rw [heq]
    exact hacc.1.setPatch hacc.2 (lt_of_patchStep hi) (by rw [hi]; decide) (by decide) (by decide)

/-! ## Patches that run -/

/-- A patch that gets another step does not run. -/
theorem running_of_setPatch (hstep : step ≠ JStep.running)
    (h : (j.setPatch p step).patchStep i = some JStep.running) : i ≠ p ∧ j.patchStep i = some JStep.running := by
  rw [patchStep, setPatch, List.getElem?_set] at h
  split_ifs at h with hpi hlt
  · exact absurd (Option.some.inj h) hstep
  · exact ⟨Ne.symm hpi, h⟩

/-- `returnResults` starts no patch, whatever the progress watch calls. -/
theorem running_of_returnResult (h : (j.returnResult p).patchStep i = some JStep.running) :
    j.patchStep i = some JStep.running := by
  have htick : ∀ j : Job, j.tick.patches = j.patches ∨ j.tick.patches = [] := by
    intro j
    rw [tick]
    cases j.progWatch.step.2 with
    | none => exact .inl rfl
    | some hd =>
      cases hd with
      | unloadCalib =>
        refine .inl ?_
        dsimp only [complete, unloadCalib]
        split <;> exact moveTo_patches ..
      | allPatches => exact .inl (moveTo_patches ..)
      | allWritten => exact .inr (moveTo_patches ..)
  rw [patchStep, returnResult] at h
  rcases htick (j.setPatch p JStep.postprocess) with heq | heq
  · rw [heq] at h
    exact (running_of_setPatch (by decide) h).2
  · rw [heq] at h
    exact absurd h (by simp)

/-- And neither does `checkParts`. -/
theorem running_of_checkParts {locked : Bool} {limbo : ℕ → Bool}
    (h : (j.checkParts locked limbo).patchStep i = some JStep.running) : j.patchStep i = some JStep.running := by
  have hpatches : (j.checkParts locked limbo).patches = j.patches ∨
      (j.checkParts locked limbo).patches = checkedPatches limbo j.patches := by
    cases locked with
    | false => exact .inl rfl
    | true =>
      refine .inr ?_
      rw [checkParts, if_pos rfl]
      dsimp only
      split_ifs
      · exact moveTo_patches ..
      · exact moveTo_patches ..
      · rfl
  rw [patchStep] at h ⊢
  rcases hpatches with heq | heq
  · rwa [heq] at h
  · rw [heq, checkedPatches, List.getElem?_mapIdx] at h
    obtain ⟨step, hstep, hcheck⟩ := Option.map_eq_some_iff.mp h
    rw [hstep]
    rw [checkPart] at hcheck
    split_ifs at hcheck with hlimbo herr herr
    · exact absurd hcheck (by decide)
    · exact absurd hcheck (by decide)
    · exact absurd hcheck (by decide)
    · exact congrArg some hcheck

/-! ## Requeueing -/

theorem checkPart_eq {limbo : Bool} (h : step ∈ patchSteps) : checkPart limbo step =
    if step = JStep.err ∨ step = JStep.running ∧ limbo then JStep.queued else step := by
  simp only [patchSteps, List.mem_cons, List.not_mem_nil, or_false] at h
  rcases h with rfl | rfl | rfl | rfl <;> cases limbo <;> decide

theorem foldl_or_testBit {b : ℕ} : ∀ (ps : List ℕ) (a : ℕ),
    (ps.foldl (· ||| ·) a).testBit b = (a.testBit b || ps.any (·.testBit b))
  | [], a => by simp
  | p :: ps, a => by
    rw [List.foldl_cons, foldl_or_testBit ps, Nat.testBit_or, List.any_cons, Bool.or_assoc]

theorem patchStep_checkParts (h : Accounts j results) {limbo : ℕ → Bool} :
    (j.checkParts true limbo).step = j.step ∧ (j.checkParts true limbo).progWatch = j.progWatch ∧
      (j.checkParts true limbo).patches = checkedPatches limbo j.patches := by
  have hno : ∀ p ∈ checkedPatches limbo j.patches, p.testBit 15 = false := by
    intro p hp
    obtain ⟨i, hi, rfl⟩ := List.mem_mapIdx.mp hp
    have hmem := h.steps i _ (List.getElem?_eq_getElem hi)
    rw [checkPart_eq hmem]
    simp only [patchSteps, List.mem_cons, List.not_mem_nil, or_false] at hmem
    rcases hmem with hp | hp | hp | hp <;> rw [hp] <;> cases limbo i <;> decide
  have hmask : ((checkedPatches limbo j.patches).foldl (· ||| ·) 0).testBit 15 = false := by
    rw [foldl_or_testBit, Nat.zero_testBit, Bool.false_or, List.any_eq_false]
    intro p hp
    simp [hno p hp]
  have herr : (checkedPatches limbo j.patches).foldl (· ||| ·) 0 &&& JStep.err = 0 := by
    rw [show JStep.err = 2 ^ 15 from rfl, Nat.and_two_pow, hmask]
    rfl
  have hdone : ¬ (countBits ((checkedPatches limbo j.patches).foldl (· ||| ·) 0) = 1 ∧
      (checkedPatches limbo j.patches).foldl (· ||| ·) 0 = JStep.done) := by
    rintro ⟨hb, hm⟩
    rw [hm] at hb
    exact absurd hb (by decide)
  rw [checkParts, if_pos rfl]
  dsimp only
  rw [if_neg (not_not_intro herr), if_neg hdone]
  exact ⟨rfl, rfl, rfl⟩

/-- **A patch is requeued if it failed, or runs without other references.** -/
theorem Accounts.checkParts {locked : Bool} {limbo : ℕ → Bool} (h : Accounts j results) :
    Accounts (j.checkParts locked limbo) results ∧ ∀ i,
      (j.checkParts locked limbo).patchStep i = j.patchStep i ∨
      (j.checkParts locked limbo).patchStep i = some JStep.queued ∧
        (j.patchStep i = some JStep.err ∨ j.patchStep i = some JStep.running ∧ limbo i) := by
  cases locked with
  | false => exact ⟨h, fun i => .inl rfl⟩
  | true =>
    obtain ⟨hs, hw, hp⟩ := patchStep_checkParts h
    have hget : ∀ i, (j.checkParts true limbo).patchStep i = (j.patchStep i).map (checkPart (limbo i)) := by
      intro i
      rw [patchStep, hp, checkedPatches, List.getElem?_mapIdx]
      rfl
    have hlen : (j.checkParts true limbo).patches.length = j.patches.length := by
      rw [hp, checkedPatches, List.length_mapIdx]
    have hcases : ∀ i, (j.checkParts true limbo).patchStep i = j.patchStep i ∨
        (j.checkParts true limbo).patchStep i = some JStep.queued ∧
          (j.patchStep i = some JStep.err ∨ j.patchStep i = some JStep.running ∧ limbo i) := by
      intro i
      rw [hget]
      cases hi : j.patchStep i with
      | none => exact .inl rfl
      | some step =>
        rw [Option.map_some, checkPart_eq (h.steps i step hi)]
        split_ifs with hc
        · rcases hc with hc | ⟨hc, hl⟩
          · exact .inr ⟨rfl, .inl (by rw [hc])⟩
          · exact .inr ⟨rfl, .inr ⟨by rw [hc], hl⟩⟩
        · exact .inl rfl
    refine ⟨⟨?_, ?_, h.nodup, ?_, ?_⟩, hcases⟩
    · rw [← List.length_pos_iff, hlen, List.length_pos_iff]
      exact h.patches
    · intro i step hi
      rcases hcases i with hc | ⟨hc, -⟩
      · exact h.steps i step (hc ▸ hi)
      · rw [hc] at hi
        rw [← Option.some.inj hi]
        decide
    · intro i
      rw [h.returned]
      rcases hcases i with hc | ⟨hc, hold⟩
      · rw [hc]
      · rw [hc]
        rcases hold with hold | ⟨hold, -⟩ <;> rw [hold] <;> decide
    · cases h.phase with
      | queued hs' hr hq =>
        refine .queued (hs.trans hs') hr fun p hp' => ?_
        obtain ⟨i, hi⟩ := List.mem_iff_getElem?.mp hp'
        rcases hcases i with hc | ⟨hc, -⟩
        · exact hq p (List.mem_of_getElem? (hc.symm.trans hi))
        · exact (Option.some.inj (hc.symm.trans hi)).symm
      | running hs' hr h₁ h₂ h₃ h₄ =>
        refine .running (hs.trans hs') (by rwa [hlen]) ?_ ?_ ?_ ?_ <;> rw [hw]
        · exact h₁
        · exact h₂
        · rw [h₃, hlen]
        · exact h₄
      | done hs' hr => exact .done (hs.trans hs') (by rw [hr, hlen])

end Patches

end Job

end Redux.Momfbd
