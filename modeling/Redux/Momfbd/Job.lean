import Redux.Util.ProgressWatch
import Mathlib.Data.List.Basic

/-!
# Momfbd.Job — the steps of a `MomfbdJob` and the operations that move it

`info.step` is a plain `uint16_t`; the steps of `Job` and of `MomfbdJob` and the states of `Job` are
enums of plain integers, so a state can be passed where a step is meant.  The table of step counts,
which jobs share, enters as the answer of a comparison with its limit.
-/

namespace Redux.Momfbd

/-! ## Steps and states -/

namespace JStep

def submit : ℕ := 0
def checking : ℕ := 1
def checked : ℕ := 2
def preprocess : ℕ := 3
def queued : ℕ := 4
def running : ℕ := 5
def done : ℕ := 6
def verify : ℕ := 7
def verified : ℕ := 8
def postprocess : ℕ := 9
def writing : ℕ := 10
def none : ℕ := 0x100
def completed : ℕ := 0x4000
def err : ℕ := 0x8000

end JStep

/-- `JSTATE_ERR`, of `Job::State`. -/
def jstateErr : ℕ := 128

/-- The steps of `Job::Step` and `MomfbdJob::Step`. -/
def declaredSteps : List ℕ :=
  [JStep.submit, JStep.checking, JStep.checked, JStep.preprocess, JStep.queued, JStep.running,
    JStep.done, JStep.verify, JStep.verified, JStep.postprocess, JStep.writing, JStep.none,
    JStep.completed, JStep.err]

/-- `step` is one of the declared steps. -/
abbrev Declared (step : ℕ) : Prop := step ∈ declaredSteps

/-! ## The job -/

/-- What the progress watch of a job calls at completion. -/
inductive Handler where
  | unloadCalib
  | allPatches
  | allWritten
  deriving DecidableEq, Repr

/-- The threads and posted tasks of a job that end in a change of it. -/
inductive Task where
  | checkJob
  | checkParts
  | loadFile
  | initCache
  | writeResults
  deriving DecidableEq, Repr

/-- `MomfbdJob`: ID, step, whether `runFlags&RF_FLATFIELD`, the steps of its patches, its progress
watch, the tasks started for it. -/
structure Job where
  id : ℕ
  step : ℕ
  flatfield : Bool
  patches : List ℕ
  progWatch : ProgressWatch Handler
  tasks : List Task
  deriving DecidableEq, Repr

namespace Job

/-- `moveTo( job, target )`. -/
def moveTo (j : Job) (target : ℕ) : Job :=
  if j.step = target then j else { j with step := target }

@[simp] theorem moveTo_step (j : Job) (target : ℕ) : (j.moveTo target).step = target := by
  unfold moveTo
  split_ifs with h
  · exact h
  · rfl

theorem moveTo_eq (j : Job) (target : ℕ) : j.moveTo target = { j with step := target } := by
  unfold moveTo
  split_ifs with h
  · rw [← h]
  · rfl

/-- `getNextStep( step )`; `JSTEP_NONE` asks for the step after `info.step`. -/
def getNextStep (infoStep step : ℕ) : ℕ :=
  let s := if step = JStep.none then infoStep else step
  if s = JStep.none ∨ s = JStep.submit then JStep.checking
  else if s = JStep.checking then JStep.checked
  else if s = JStep.checked then JStep.preprocess
  else if s = JStep.preprocess then JStep.queued
  else if s = JStep.queued then JStep.running
  else if s = JStep.running then JStep.done
  else if s = JStep.done then JStep.verify
  else if s = JStep.verify then JStep.verified
  else if s = JStep.verified then JStep.postprocess
  else if s = JStep.postprocess then JStep.postprocess
  else if s = JStep.writing then JStep.completed
  else JStep.err

/-- Whatever the step, the next one is declared. -/
theorem getNextStep_declared (infoStep step : ℕ) : Declared (getNextStep infoStep step) := by
  have hite : ∀ (c : Prop) [Decidable c] {a b : ℕ}, Declared a → Declared b →
      Declared (if c then a else b) := by
    intro c _ a b ha hb
    split_ifs
    · exact ha
    · exact hb
  unfold getNextStep
  repeat refine hite _ (by decide) ?_
  decide

/-! ## Checks -/

/-- How `checkCfg() && checkData(false)` ends: `checkPatchPositions` fails the job itself. -/
inductive CheckResult where
  | ok
  | failed
  | noPatches
  deriving DecidableEq, Repr

/-- `checkCfg` and `checkData`, and what follows on success and on failure. -/
def checkJob (j : Job) (r : CheckResult) (onFail : Job → Job) : Job :=
  match r with
  | .ok => j.moveTo JStep.checked
  | .failed => onFail j
  | .noPatches => onFail (j.moveTo JStep.err)

/-- `check()`. -/
def check (j : Job) (r : CheckResult) : Job :=
  if j.step = JStep.none then (j.moveTo JStep.checking).checkJob r fun j => j
  else if j.step = JStep.submit then
    { j.moveTo JStep.checking with tasks := .checkJob :: j.tasks }
  else if j.step = JStep.running then { j with tasks := .checkParts :: j.tasks }
  else j

/-- The thread `check()` starts for a submitted job. -/
def checkThread (j : Job) (r : CheckResult) : Job := j.checkJob r (·.moveTo JStep.err)

/-! ## Patches -/

/-- One patch in the loop of `checkParts`; `limbo` is `use_count() == 1`. -/
def checkPart (limbo : Bool) (step : ℕ) : ℕ :=
  let step := if step = JStep.running ∧ limbo then JStep.err else step
  if step &&& JStep.err ≠ 0 then JStep.queued else step

/-- The patches after the loop of `checkParts`. -/
def checkedPatches (limbo : ℕ → Bool) (patches : List ℕ) : List ℕ :=
  patches.mapIdx fun i step => checkPart (limbo i) step

/-- `countBits( mask )`. -/
def countBits (mask : ℕ) : ℕ := (List.range 16).countP mask.testBit

/-- `checkParts()`; `locked` is whether it got the job's lock. -/
def checkParts (j : Job) (locked : Bool) (limbo : ℕ → Bool) : Job :=
  if locked then
    let j := { j with patches := checkedPatches limbo j.patches }
    let mask := j.patches.foldl (· ||| ·) 0
    if mask &&& JStep.err ≠ 0 then { j.moveTo JStep.err with progWatch := .clear }
    else if countBits mask = 1 ∧ mask = JStep.done then j.moveTo mask
    else j
  else j

/-- `patches(i)->step = step`. -/
def setPatch (j : Job) (i step : ℕ) : Job := { j with patches := j.patches.set i step }

/-- The first patch is asked for: the job runs, and is done when all patches have counted. -/
def startRunning (j : Job) : Job :=
  { j.moveTo JStep.running with
    progWatch := (ProgressWatch.clear.set j.patches.length 0).setHandler .allPatches }

/-- The first queued patch is handed out. -/
def handOut (j : Job) : Job × Option ℕ :=
  match j.patches.findIdx? (· = JStep.queued) with
  | some i => (j.setPatch i JStep.running, some i)
  | none => (j, none)

/-- `getWork` for a remote WIP: the job, and the patch handed out.  `locked` is whether it got the
job's lock, `full` is `limits.active >= limits.max` for `JSTEP_RUNNING`. -/
def getWorkRemote (j : Job) (locked full : Bool) : Job × Option ℕ :=
  if j.step ≠ JStep.queued ∧ j.step ≠ JStep.running then (j, none)
  else if ¬ locked then (j, none)
  else if j.step = JStep.queued then
    if full then (j, none) else j.startRunning.handOut
  else j.handOut

/-- `ungetWork`: every patch of the WIP back in the queue. -/
def ungetWork (j : Job) (parts : List ℕ) : Job :=
  { j with patches := parts.foldl (fun ps i => ps.set i JStep.queued) j.patches }

/-- `failWork`: every patch of the WIP failed. -/
def failWork (j : Job) (parts : List ℕ) : Job :=
  { j with patches := parts.foldl (fun ps i => ps.set i JStep.err) j.patches }

/-! ## Progress -/

/-- `unloadCalib()`. -/
def unloadCalib (j : Job) : Job :=
  if j.flatfield then j.moveTo JStep.completed else j.moveTo JStep.queued

/-- The completion handlers. -/
def complete (j : Job) : Handler → Job
  | .unloadCalib => j.unloadCalib
  | .allPatches => j.moveTo JStep.done
  | .allWritten => { j with patches := [] }.moveTo JStep.completed

/-- `++progWatch`. -/
def tick (j : Job) : Job :=
  let r := j.progWatch.step
  match r.2 with
  | some h => { j with progWatch := r.1 }.complete h
  | none => { j with progWatch := r.1 }

/-- `returnResults` for one part of a remote WIP: the patch at the index the part carries. -/
def returnResult (j : Job) (i : ℕ) : Job := (j.setPatch i JStep.postprocess).tick

end Job

end Redux.Momfbd
