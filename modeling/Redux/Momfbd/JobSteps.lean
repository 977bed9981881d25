import Redux.Momfbd.Job
import Redux.Lib.Run
import Mathlib.Logic.Function.Iterate

/-!
# Momfbd.JobSteps — the step of a job over runs of the manager

The operations of the manager on its list of jobs, one transition each, in any order.  Every target
of `moveTo` is a declared step but two: `Daemon::failJobs` and the error path of `Channel::loadData`
pass `JSTATE_ERR`, a state.  A job failed there is in none of the declared steps, and `getWork`,
`run` and `check` have no case for it.
-/

namespace Redux.Momfbd

open Redux.Lib

namespace Job

/-! ## The manager's operations on one job -/

/-- `getWork` for a local WIP: the job, and whether there is work to `run`.  `full` and `queuedFull`
are `limits.active >= limits.max` for the next step and for `JSTEP_QUEUED`.  (At the steps that get to
`moveTo` the test of `JSTEP_WRITING` in front of it never applies.) -/
def getWorkLocal (j : Job) (nThreads : ℕ) (full queuedFull : Bool) (r : CheckResult) : Job × Bool :=
  let nextStep := getNextStep j.step j.step
  if j.step = JStep.completed ∨ j.step = JStep.err then (j, false)
  else if j.step ∉ [JStep.none, JStep.submit, JStep.checked, JStep.done, JStep.verified] then
    (j.check r, false)
  else
    let ret := decide (j.step ∈ [JStep.checked, JStep.done, JStep.verified])
    if ret ∧ nThreads = 0 then (j, false)
    else if full then (j, false)
    else if j.step = JStep.submit then (j.check r, false)
    else if j.step = JStep.checked ∧ queuedFull then (j, false)
    else (j.moveTo nextStep, ret)

/-- How `preProcess` ends: with all files posted, with an exception before anything has changed, or
with one thrown while a calibration file is loaded, some of the files posted. -/
inductive PreResult where
  | posted (nImages nPatches nFiles : ℕ)
  | noImages
  | fileError (nImages nPatches nFiles : ℕ)
  deriving DecidableEq, Repr

/-- What `preProcess` sets up: target, handler and patches, and the tasks it posts. -/
def preProcess (j : Job) (nImages nPatches nFiles : ℕ) : Job :=
  let watch := (j.progWatch.setTarget nImages).setHandler .unloadCalib
  let j :=
    if j.flatfield then { j with progWatch := watch }
    else
      { j with
        progWatch := watch.increaseTarget 1
        patches := List.replicate nPatches JStep.queued
        tasks := .initCache :: j.tasks }
  { j with tasks := List.replicate nFiles .loadFile ++ j.tasks }

/-- `writeOutput()`, with `n` objects to write. -/
def writeOutput (j : Job) (n : ℕ) : Job :=
  { j.moveTo JStep.writing with
    progWatch := (ProgressWatch.clear.set n 0).setHandler .allWritten
    tasks := List.replicate n .writeResults ++ j.tasks }

/-- `run()`. -/
def run (j : Job) (r : PreResult) (nObjects : ℕ) : Job :=
  if j.step = JStep.preprocess then
    let j := { j with progWatch := j.progWatch.set 0 0 }
    match r with
    | .posted nImages nPatches nFiles => j.preProcess nImages nPatches nFiles
    | .noImages => j
    | .fileError nImages nPatches nFiles => j.preProcess nImages nPatches nFiles
  else if j.step = JStep.running ∨ j.step = JStep.queued then j
  else if j.step = JStep.verify then j.moveTo JStep.verified
  else if j.step = JStep.postprocess then j.writeOutput nObjects
  else j.moveTo JStep.err

/-- A task of `Channel::loadData`: every frame counts; an exception fails the job. -/
def loadFile (j : Job) (frames : ℕ) (throws : Bool) : Job :=
  let j := tick^[frames] j
  if throws then { j.moveTo jstateErr with progWatch := .clear } else j

/-- A task of `preProcess` or `writeOutput` that counts when it is through; an exception only ends it. -/
def countUnless (j : Job) (throws : Bool) : Job := if throws then j else j.tick

/-! ## Transitions -/

/-- An operation on one job, with what its surroundings answer. -/
inductive Op where
  | check (r : CheckResult)
  | getWorkLocal (nThreads : ℕ) (full queuedFull : Bool) (r : CheckResult)
  | getWorkRemote (locked full : Bool)
  | run (r : PreResult) (nObjects : ℕ)
  | endCheck (r : CheckResult)
  | endParts (locked : Bool) (limbo : ℕ → Bool)
  | endLoad (frames : ℕ) (throws : Bool)
  | endInit (throws : Bool)
  | endWrite (throws : Bool)
  | returnResult (i : ℕ)
  | failWork (parts : List ℕ)
  | ungetWork (parts : List ℕ)

/-- A task ends with the change `f`, if there is one. -/
def endTask (j : Job) (t : Task) (f : Job → Job) : Option Job :=
  if t ∈ j.tasks then some (f { j with tasks := j.tasks.erase t }) else none

/-- The job after an operation; one that ends a task needs the task. -/
def apply (j : Job) : Op → Option Job
  | .check r => some (j.check r)
  | .getWorkLocal nThreads full queuedFull r => some (j.getWorkLocal nThreads full queuedFull r).1
  | .getWorkRemote locked full => some (j.getWorkRemote locked full).1
  | .run r nObjects => some (j.run r nObjects)
  | .endCheck r => j.endTask .checkJob fun j => j.checkThread r
  | .endParts locked limbo => j.endTask .checkParts fun j => j.checkParts locked limbo
  | .endLoad frames throws => j.endTask .loadFile fun j => j.loadFile frames throws
  | .endInit throws => j.endTask .initCache fun j => j.countUnless throws
  | .endWrite throws => j.endTask .writeResults fun j => j.countUnless throws
  | .returnResult i => some (j.returnResult i)
  | .failWork parts => some (j.failWork parts)
  | .ungetWork parts => some (j.ungetWork parts)

/-- The operation throws while it loads a file. -/
def LoadFails (j : Job) : Op → Prop
  | .run (.fileError ..) _ => j.step = JStep.preprocess
  | .endLoad _ throws => throws = true
  | _ => False

end Job

/-- A transition of the manager: an operation on the job at `i`, or `failJobs( jobList )`. -/
inductive ManagerOp where
  | job (i : ℕ) (op : Job.Op)
  | failJobs (jobList : List ℕ)

/-- `Daemon::failJobs`. -/
def failJobs (jobs : List Job) (jobList : List ℕ) : List Job :=
  jobs.map fun j => if j.id ∈ jobList then j.moveTo jstateErr else j

/-- The jobs after a transition. -/
def managerStep (jobs : List Job) : ManagerOp → Option (List Job)
  | .job i op => (jobs[i]?).bind fun j => (j.apply op).map (jobs.set i ·)
  | .failJobs jobList => some (failJobs jobs jobList)

/-- Every job is in one of the declared steps. -/
abbrev AllDeclared (jobs : List Job) : Prop := ∀ j ∈ jobs, Declared j.step

/-- Who the transition failed is in `JSTEP_ERR` afterwards. -/
def FailedInErr (jobs : List Job) (op : ManagerOp) (jobs' : List Job) : Prop :=
  match op with
  | .job i op => ∀ j ∈ jobs[i]?, j.LoadFails op → ∀ j' ∈ jobs'[i]?, j'.step = JStep.err
  | .failJobs jobList => ∀ j' ∈ jobs', j'.id ∈ jobList → j'.step = JStep.err

/-- The transition fails no job: no exception while a file is loaded, no job of the list present. -/
def FailsNone (jobs : List Job) (op : ManagerOp) (_ : List Job) : Prop :=
  match op with
  | .job i op => ∀ j ∈ jobs[i]?, ¬ j.LoadFails op
  | .failJobs jobList => ∀ j ∈ jobs, j.id ∉ jobList

/-! ## Declared steps are kept -/

namespace Job

section Declared

variable {j j' : Job}

theorem checkJob_declared {r : CheckResult} {onFail : Job → Job} (h : Declared j.step)
    (hfail : ∀ j : Job, Declared j.step → Declared (onFail j).step) :
    Declared (j.checkJob r onFail).step := by
  cases r with
  | ok =>
    rw [checkJob, moveTo_step]
    decide
  | failed => exact hfail _ h
  | noPatches =>
    refine hfail _ ?_
    rw [moveTo_step]
    decide

theorem check_declared {r : CheckResult} (h : Declared j.step) : Declared (j.check r).step := by
  have hchecking : Declared (j.moveTo JStep.checking).step := by
    rw [moveTo_step]
    decide
  unfold check
  split_ifs
  · exact checkJob_declared hchecking fun _ h => h
  · exact hchecking
  · exact h
  · exact h

theorem complete_declared (h : Handler) : Declared (j.complete h).step := by
  cases h with
  | unloadCalib =>
    rw [complete, unloadCalib]
    split_ifs <;> rw [moveTo_step] <;> decide
  | allPatches =>
    rw [complete, moveTo_step]
    decide
  | allWritten =>
    rw [complete, moveTo_step]
    decide

theorem tick_declared (h : Declared j.step) : Declared j.tick.step := by
  unfold tick
  dsimp only
  split
  · exact complete_declared _
  · exact h

theorem countUnless_declared {throws : Bool} (h : Declared j.step) :
    Declared (j.countUnless throws).step := by
  unfold countUnless
  split_ifs
  · exact h
  · exact tick_declared h

theorem iterate_tick_declared (n : ℕ) : Declared j.step → Declared (tick^[n] j).step := by
  induction n generalizing j with
  | zero => exact fun h => h
  | succ n ih => exact fun h => ih (tick_declared h)

theorem checkParts_declared {locked : Bool} {limbo : ℕ → Bool} (h : Declared j.step) :
    Declared (j.checkParts locked limbo).step := by
  unfold checkParts
  dsimp only
  split_ifs with h₁ h₂ h₃
  · rw [moveTo_step]
    decide
  · rw [moveTo_step, h₃.2]
    decide
  · exact h
  · exact h

theorem handOut_step : j.handOut.1.step = j.step := by
  unfold handOut
  split <;> rfl

theorem getWorkRemote_declared {locked full : Bool} (h : Declared j.step) :
    Declared (j.getWorkRemote locked full).1.step := by
  have hrunning : Declared j.startRunning.step := by
    show Declared (j.moveTo JStep.running).step
    rw [moveTo_step]
    decide
  unfold getWorkRemote
  split_ifs
  · exact h
  · exact h
  · rw [handOut_step]
    exact hrunning
  · rw [handOut_step]
    exact h
  · exact h

theorem getWorkLocal_declared {nThreads : ℕ} {full queuedFull : Bool} {r : CheckResult}
    (h : Declared j.step) : Declared (j.getWorkLocal nThreads full queuedFull r).1.step := by
  unfold getWorkLocal
  dsimp only
  split_ifs
  all_goals first
    | exact h
    | exact check_declared h
    | (rw [moveTo_step]; exact getNextStep_declared _ _)

theorem preProcess_step {nImages nPatches nFiles : ℕ} :
    (j.preProcess nImages nPatches nFiles).step = j.step := by
  unfold preProcess
  dsimp only
  split_ifs <;> rfl

theorem run_declared {r : PreResult} {nObjects : ℕ} (h : Declared j.step) :
    Declared (j.run r nObjects).step := by
  unfold run
  split_ifs
  · cases r with
    | posted _ _ _ => exact preProcess_step.symm ▸ h
    | noImages => exact h
    | fileError _ _ _ => exact preProcess_step.symm ▸ h
  · exact h
  · rw [moveTo_step]
    decide
  · rw [writeOutput, moveTo_step]
    decide
  · rw [moveTo_step]
    decide

theorem endTask_declared {t : Task} {f : Job → Job} (hf : ∀ j : Job, Declared j.step → Declared (f j).step)
    (h : Declared j.step) (hs : j.endTask t f = some j') : Declared j'.step := by
  unfold endTask at hs
  split_ifs at hs
  obtain rfl := Option.some.inj hs
  exact hf _ h

/-- **An operation that does not fail to load a file leaves a declared step.** -/
theorem apply_declared {op : Op} (h : Declared j.step) (hfine : ¬ j.LoadFails op)
    (hs : j.apply op = some j') : Declared j'.step := by
  cases op with
  | check r => exact Option.some.inj hs ▸ check_declared h
  | getWorkLocal _ _ _ _ => exact Option.some.inj hs ▸ getWorkLocal_declared h
  | getWorkRemote _ _ => exact Option.some.inj hs ▸ getWorkRemote_declared h
  | run _ _ => exact Option.some.inj hs ▸ run_declared h
  | endCheck r =>
    refine endTask_declared (fun j h => checkJob_declared h fun j _ => ?_) h hs
    rw [moveTo_step]
    decide
  | endParts _ _ => exact endTask_declared (fun j h => checkParts_declared h) h hs
  | endLoad frames throws =>
    obtain rfl : throws = false := by simpa [LoadFails] using hfine
    exact endTask_declared (fun j h => iterate_tick_declared frames h) h hs
  | endInit throws => exact endTask_declared (fun j h => countUnless_declared h) h hs
  | endWrite throws => exact endTask_declared (fun j h => countUnless_declared h) h hs
  | returnResult _ => exact Option.some.inj hs ▸ tick_declared h
  | failWork _ => exact Option.some.inj hs ▸ h
  | ungetWork _ => exact Option.some.inj hs ▸ h

/-- **A job that fails to load a file is not in `JSTEP_ERR`**: the error path of `loadData` moves it
to a state, an exception in `preProcess` leaves it where it was. -/
theorem apply_of_loadFails {op : Op} (hfail : j.LoadFails op) (hs : j.apply op = some j') :
    j'.step = jstateErr ∨ j'.step = JStep.preprocess := by
  cases op with
  | run r _ =>
    cases r with
    | fileError nImages nPatches nFiles =>
      right
      obtain rfl := Option.some.inj hs
      have hstep : j.step = JStep.preprocess := hfail
      rw [run, if_pos hstep, preProcess_step]
      exact hstep
    | posted _ _ _ => cases hfail
    | noImages => cases hfail
  | endLoad frames throws =>
    left
    obtain rfl : throws = true := hfail
    simp only [apply, endTask] at hs
    split_ifs at hs
    obtain rfl := Option.some.inj hs
    exact moveTo_step _ _
  | check _ => cases hfail
  | getWorkLocal _ _ _ _ => cases hfail
  | getWorkRemote _ _ => cases hfail
  | endCheck _ => cases hfail
  | endParts _ _ => cases hfail
  | endInit _ => cases hfail
  | endWrite _ => cases hfail
  | returnResult _ => cases hfail
  | failWork _ => cases hfail
  | ungetWork _ => cases hfail

end Declared

end Job

/-! ## Runs -/

section Runs

variable {jobs jobs' : List Job} {op : ManagerOp} {as : List ManagerOp}

theorem managerStep_declared (h : AllDeclared jobs) (hfine : FailsNone jobs op jobs')
    (hs : managerStep jobs op = some jobs') : AllDeclared jobs' := by
  cases op with
  | job i op =>
    obtain ⟨j, hj, hmap⟩ := Option.bind_eq_some_iff.mp hs
    obtain ⟨j', hj', rfl⟩ := Option.map_eq_some_iff.mp hmap
    intro k hk
    rcases List.mem_or_eq_of_mem_set hk with hk | rfl
    · exact h k hk
    · exact Job.apply_declared (h j (List.mem_of_getElem? hj)) (hfine j hj) hj'
  | failJobs jobList =>
    obtain rfl := Option.some.inj hs
    intro k hk
    obtain ⟨j, hj, rfl⟩ := List.mem_map.mp hk
    rw [if_neg (hfine j hj)]
    exact h j hj

/-- A transition that fails no job has nothing to put in `JSTEP_ERR`. -/
theorem failedInErr_of_failsNone (hfine : FailsNone jobs op jobs')
    (hs : managerStep jobs op = some jobs') : FailedInErr jobs op jobs' := by
  cases op with
  | job i op => exact fun j hj hfail => absurd hfail (hfine j hj)
  | failJobs jobList =>
    obtain rfl := Option.some.inj hs
    intro k hk hid
    obtain ⟨j, hj, rfl⟩ := List.mem_map.mp hk
    rw [if_neg (hfine j hj)] at hid
    exact absurd hid (hfine j hj)

/-- A transition that fails a job does not put it in `JSTEP_ERR`. -/
theorem failsNone_of_failedInErr (hgood : FailedInErr jobs op jobs')
    (hs : managerStep jobs op = some jobs') : FailsNone jobs op jobs' := by
  cases op with
  | job i op =>
    intro j hj hfail
    obtain ⟨j₁, hj₁, hmap⟩ := Option.bind_eq_some_iff.mp hs
    obtain rfl : j = j₁ := Option.some.inj (hj.symm.trans hj₁)
    obtain ⟨j', hj', rfl⟩ := Option.map_eq_some_iff.mp hmap
    have hlt : i < jobs.length := (List.getElem?_eq_some_iff.mp hj₁).1
    have herr := hgood j hj hfail j' (by simp [hlt])
    rcases Job.apply_of_loadFails hfail hj' with h | h <;> rw [h] at herr <;> cases herr
  | failJobs jobList =>
    obtain rfl := Option.some.inj hs
    intro j hj hid
    have herr := hgood (j.moveTo jstateErr)
      (List.mem_map.mpr ⟨j, hj, if_pos hid⟩) (by rw [Job.moveTo_eq]; exact hid)
    rw [Job.moveTo_step] at herr
    cases herr

/-- **In a run of the manager the steps stay declared and failed jobs are in `JSTEP_ERR` if and only
if no transition fails a job.** -/
theorem manager_steps_declared (jobs : List Job) (h : AllDeclared jobs) (as : List ManagerOp) :
    (Always managerStep AllDeclared jobs as ∧ Each managerStep FailedInErr jobs as) ↔
      Each managerStep FailsNone jobs as := by
  constructor
  · rintro ⟨-, hgood⟩
    exact @each_of_each _ _ managerStep (fun _ => True) _ _
        (fun _ _ _ _ hg hs => ⟨trivial, failsNone_of_failedInErr hg hs⟩) _ _ trivial hgood
  · intro hfine
    refine ⟨@always_of_each _ _ managerStep _ _ (fun _ _ _ h hg hs => managerStep_declared h hg hs) _ _ h
        hfine, ?_⟩
    exact @each_of_each _ _ managerStep (fun _ => True) _ _
        (fun _ _ _ _ hg hs => ⟨trivial, failedInErr_of_failsNone hg hs⟩) _ _ trivial hfine

end Runs

/-- A job as submitted. -/
def submittedJob : Job := ⟨7, JStep.submit, false, [], .clear, []⟩

/-- A run without failures: the job is checked and sent to preprocessing. -/
theorem manager_steps_checked :
    Always managerStep AllDeclared [submittedJob]
        [.job 0 (.getWorkLocal 1 false false .ok), .job 0 (.endCheck .ok),
          .job 0 (.getWorkLocal 1 false false .ok)] ∧
      Each managerStep FailedInErr [submittedJob]
        [.job 0 (.getWorkLocal 1 false false .ok), .job 0 (.endCheck .ok),
          .job 0 (.getWorkLocal 1 false false .ok)] :=
  (manager_steps_declared [submittedJob] (by decide) _).mpr
    (by simp [Each, FailsNone, Job.LoadFails])

/-- The operator fails a submitted job: its step is 128. -/
theorem failJobs_undeclared :
    ¬ Always managerStep AllDeclared [submittedJob] [.failJobs [7]] ∧
      ¬ Each managerStep FailedInErr [submittedJob] [.failJobs [7]] := by
  have hstep : managerStep [submittedJob] (.failJobs [7]) = some [{ submittedJob with step := 128 }] := rfl
  constructor
  · intro h
    exact (by decide : ¬ AllDeclared [{ submittedJob with step := 128 }]) (h.2 _ hstep)
  · intro h
    exact absurd ((h _ hstep).1 _ List.mem_cons_self (by decide)) (by decide)

end Redux.Momfbd
