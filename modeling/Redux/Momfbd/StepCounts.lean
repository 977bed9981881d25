import Mathlib.Algebra.Order.Ring.Int
import Redux.Momfbd.Job
import Redux.Lib.Run
import Redux.Lib.OrderedSet
import Redux.Lib.Comparison

/-!
# Momfbd.StepCounts — the table of step counts and the jobs of the manager

`Job::counts` holds, for a type of job and a step, how many jobs are in that step and how many may be.
`moveTo` keeps it; `Info::unpack` sets the step of a received job behind its back.  Since `newJob` makes
what has registered itself, the jobs of the manager are all `MomfbdJob`s.  `drift` is the difference
between the table and the jobs: moving and destroying jobs leaves it alone, receiving them may not.
-/

namespace Redux.Momfbd

open Redux.Lib

/-! ## The table -/

/-- `Job::StepID`. -/
structure StepID where
  id : ℕ
  step : ℕ
  deriving DecidableEq, Repr

namespace StepID

/-- `operator<`: the id 0 goes with every id. -/
def lt (a b : StepID) : Bool :=
  if a.id = 0 ∨ b.id = 0 ∨ a.id = b.id then decide (a.step < b.step) else decide (a.id < b.id)

/-- The steps `Job::counts` starts with, under the id 0. -/
def baseSteps : List ℕ := [JStep.submit, JStep.none, JStep.completed, JStep.err]

/-- The key of the entry that `counts[s]` finds, or makes. -/
def slot (s : StepID) : StepID := if s.step ∈ baseSteps then ⟨0, s.step⟩ else s

end StepID

/-- `Job::JobTypes`. -/
def MOMFBDJOB : ℕ := 2

/-- `Job::CountT`, but for `min`, which nothing reads. -/
structure CountT where
  max : ℤ
  active : ℤ
  deriving DecidableEq, Repr

/-- `CountT()`. -/
def CountT.unlimited : CountT := ⟨2 ^ 63 - 1, 0⟩

/-- `Job::counts`, by the keys of its entries. -/
abbrev Counts := StepID → CountT

/-- The maxima that `MomfbdJob::staticInit` sets; that of `JSTEP_RUNNING` can be changed afterwards. -/
def maxima : List (ℕ × ℤ) :=
  [(JStep.checking, 5), (JStep.checked, 2 ^ 63 - 1), (JStep.preprocess, 1), (JStep.queued, 2),
    (JStep.running, 5), (JStep.done, 2 ^ 63 - 1), (JStep.verify, 1), (JStep.verified, 2 ^ 63 - 1),
    (JStep.postprocess, 1), (JStep.writing, 1)]

namespace Counts

/-- The table as defined. -/
def base : Counts := fun s =>
  if s = ⟨0, JStep.submit⟩ ∨ s = ⟨0, JStep.none⟩ then ⟨5, 0⟩ else .unlimited

/-- `staticInit()`: the entries of the id that `registerJob` has given to the class. -/
def staticInit (jobType : ℕ) : Counts := fun s =>
  if s.id = jobType then
    match maxima.lookup s.step with
    | some max => ⟨max, 0⟩
    | none => base s
  else base s

/-- `setStepCount( s, CountT( min, max ) )`. -/
def setStepCount (c : Counts) (s : StepID) (max : ℤ) : Counts := Function.update c s.slot ⟨max, 0⟩

/-- The table when `reduxd` has been started, with what `--max-running` says, if it is given. -/
def configured (jobType : ℕ) : Option (BitVec 32) → Counts
  | none => staticInit jobType
  | some maxRunning => (staticInit jobType).setStepCount ⟨MOMFBDJOB, JStep.running⟩ maxRunning.toNat

/-- `counts[s]`. -/
def get (c : Counts) (s : StepID) : CountT := c s.slot

/-- `counts[s].active += n`. -/
def add (c : Counts) (s : StepID) (n : ℤ) : Counts :=
  Function.update c s.slot { c s.slot with active := (c s.slot).active + n }

end Counts

/-! ## The jobs -/

/-- The table, and the step of each job; `none` once the job is destroyed. -/
structure Manager where
  counts : Counts
  jobs : List (Option ℕ)

namespace Manager

/-- `Job::moveTo( job, target )`, for the job at `j`.  It is one step here: the source reads `info.step` before it
takes the lock of the table and stores the new one after it, so that this is a job that one thread moves at a
time. -/
def moveTo (m : Manager) (j target : ℕ) : Manager :=
  match m.jobs[j]? with
  | some (some current) =>
    if current = target then m
    else
      ⟨(m.counts.add ⟨MOMFBDJOB, current⟩ (-1)).add ⟨MOMFBDJOB, target⟩ 1, m.jobs.set j (some target)⟩
  | _ => m

/-- A job whose step has been unpacked: it is in the table nowhere. -/
def unpack (m : Manager) (step : ℕ) : Manager := { m with jobs := m.jobs ++ [some step] }

/-- `~MomfbdJob`. -/
def destroy (m : Manager) (j : ℕ) : Manager :=
  let m := m.moveTo j JStep.none
  { m with jobs := m.jobs.set j none }

/-- `Job::CHECKED`. -/
def isChecked (flags : ℕ) : Bool := flags.testBit 0

/-- A job goes through `addJobs`. -/
def receive (m : Manager) (step flags : ℕ) : Manager :=
  let m' := m.unpack step
  if isChecked flags then m' else m'.moveTo m.jobs.length JStep.submit

/-- A job whose configuration does not unpack is thrown away. -/
def reject (m : Manager) (step : ℕ) : Manager := (m.unpack step).destroy m.jobs.length

/-- `counts[(type,step)].active`. -/
def active (m : Manager) (step : ℕ) : ℤ := (m.counts.get ⟨MOMFBDJOB, step⟩).active

/-- The number of live jobs in a step. -/
def live (m : Manager) (step : ℕ) : ℕ := m.jobs.count (some step)

/-- What the table has more than there are jobs. -/
def drift (m : Manager) (step : ℕ) : ℤ := m.active step - m.live step

end Manager

/-! ## Keys -/

namespace StepID

theorem slot_inj {id a b : ℕ} : slot ⟨id, a⟩ = slot ⟨id, b⟩ ↔ a = b := by
  constructor
  · intro h
    unfold slot at h
    split_ifs at h <;> exact congrArg step h
  · rintro rfl
    rfl

/-! ### In order -/

theorem lt_eq : lt = Comparison.byWild (fun s => s.id = 0) StepID.id StepID.step := rfl

/-- A key of the id 0 has a step between those of two other ids, which are the other way round. -/
def Straddled (S : Set StepID) : Prop :=
  ∃ z ∈ S, ∃ a ∈ S, ∃ b ∈ S, z.id = 0 ∧ 0 < a.id ∧ a.id < b.id ∧ b.step ≤ z.step ∧ z.step ≤ a.step

/-- **For which keys `operator<` is a strict weak ordering.** -/
theorem ordered_iff (S : Set StepID) : OrderedSet.StrictWeak lt S ↔ ¬Straddled S := by
  rw [lt_eq, Comparison.strictWeak_byWild_iff]
  refine not_congr ⟨?_, ?_⟩
  · rintro ⟨z, hz, a, ha, b, hb, hwz, hwa, -, hlt, hbz, hza⟩
    exact ⟨z, hz, a, ha, b, hb, hwz, Nat.pos_of_ne_zero hwa, hlt, hbz, hza⟩
  · rintro ⟨z, hz, a, ha, b, hb, hwz, hpos, hlt, hbz, hza⟩
    exact ⟨z, hz, a, ha, b, hb, hwz, hpos.ne', (hpos.trans hlt).ne', hlt, hbz, hza⟩

/-- All that can be made of a `size_t` and a `uint16_t`. -/
def all : Set StepID := {s | s.id < 2 ^ 64 ∧ s.step < 2 ^ 16}

/-- The entry for submitted jobs, the key of a running `DebugJob` and that of a submitted `MomfbdJob`. -/
theorem all_not_ordered : ¬OrderedSet.StrictWeak lt all := by
  intro h
  have hfits : ∀ id step, id < 3 → step < 6 → (⟨id, step⟩ : StepID) ∈ all := fun id step hid hstep =>
    ⟨hid.trans (by decide), hstep.trans (by decide)⟩
  have hrunning : lt ⟨1, JStep.running⟩ ⟨2, JStep.submit⟩ = true := rfl
  have hsubmit : lt ⟨0, JStep.submit⟩ ⟨1, JStep.running⟩ = true := rfl
  -- yet the entry and the key of the submitted job are the same
  have hlt := h.trans _ (hfits 0 JStep.submit (by decide) (by decide)) _ (hfits 1 JStep.running (by decide) (by decide))
    _ (hfits 2 JStep.submit (by decide) (by decide)) hsubmit hrunning
  exact absurd hlt Bool.false_ne_true

end StepID

/-! ## The table and the jobs -/

section Drift

variable {c : Counts} {m : Manager} {j s t current flags : ℕ} {n : ℤ}

theorem Counts.add_active {c : Counts} {s t : ℕ} {n : ℤ} :
    ((c.add ⟨MOMFBDJOB, s⟩ n).get ⟨MOMFBDJOB, t⟩).active =
      (c.get ⟨MOMFBDJOB, t⟩).active + if s = t then n else 0 := by
  unfold Counts.add Counts.get
  split_ifs with h
  · rw [h, Function.update_self]
  · rw [Function.update_of_ne (fun heq => h (StepID.slot_inj.1 heq).symm), Int.add_zero]

namespace Manager

theorem moveTo_of_same (h : m.jobs[j]? = some (some t)) : m.moveTo j t = m := by
  rw [moveTo, h]
  exact if_pos rfl

theorem moveTo_of_live (h : m.jobs[j]? = some (some current)) (hne : current ≠ t) :
    m.moveTo j t =
      ⟨(m.counts.add ⟨MOMFBDJOB, current⟩ (-1)).add ⟨MOMFBDJOB, t⟩ 1, m.jobs.set j (some t)⟩ := by
  rw [moveTo, h]
  exact if_neg hne

theorem live_set (h : m.jobs[j]? = some (some current)) {x : Option ℕ} :
    ((m.jobs.set j x).count (some s) : ℤ) =
      m.live s - (if current = s then 1 else 0) + if x = some s then 1 else 0 := by
  obtain ⟨hj, hget⟩ := List.getElem?_eq_some_iff.1 h
  have hpos : current = s → 0 < m.jobs.count (some s) := by
    rintro rfl
    exact List.count_pos_iff.2 (hget ▸ List.getElem_mem hj)
  rw [List.count_set hj, hget, live]
  simp only [beq_iff_eq, Option.some_inj]
  split_ifs with h1 h2 h3 <;> first | exact absurd (hpos h1) (by omega) | omega

/-- **Moving a job leaves the drift alone.** -/
theorem moveTo_drift : (m.moveTo j t).drift s = m.drift s := by
  cases h : m.jobs[j]? with
  | none => rw [moveTo, h]
  | some x =>
    cases x with
    | none => rw [moveTo, h]
    | some current =>
      by_cases hne : current = t
      · rw [moveTo_of_same (hne ▸ h)]
      · rw [moveTo_of_live h hne, drift, drift, active, active, live, live_set h]
        simp only [Counts.add_active, Option.some_inj]
        omega

theorem moveTo_jobs (h : m.jobs[j]? = some (some current)) :
    (m.moveTo j t).jobs = m.jobs.set j (some t) := by
  by_cases hne : current = t
  · subst hne
    obtain ⟨hj, hget⟩ := List.getElem?_eq_some_iff.1 h
    rw [moveTo_of_same h, ← hget, List.set_getElem_self]
  · rw [moveTo_of_live h hne]

theorem moveTo_getElem? (h : m.jobs[j]? = some (some current)) :
    (m.moveTo j t).jobs[j]? = some (some t) := by
  obtain ⟨hj, -⟩ := List.getElem?_eq_some_iff.1 h
  rw [moveTo_jobs h, List.getElem?_set_self hj]

/-- So does destroying it. -/
theorem destroy_drift (h : m.jobs[j]? = some (some current)) (hs : s ≠ JStep.none) :
    (m.destroy j).drift s = m.drift s := by
  have hmoved : ((m.moveTo j JStep.none).jobs.set j none).count (some s) =
      (m.moveTo j JStep.none).jobs.count (some s) := by
    have hset := @live_set (m.moveTo j JStep.none) j s JStep.none (moveTo_getElem? h) none
    rw [if_neg (Ne.symm hs), if_neg (by simp), live] at hset
    omega
  rw [← @moveTo_drift m j s JStep.none, destroy, drift, drift, live, live, hmoved]
  rfl

/-- A job that comes with a step is missing there. -/
theorem unpack_drift : (m.unpack t).drift s = m.drift s - if t = s then 1 else 0 := by
  have hactive : (m.unpack t).active s = m.active s := rfl
  rw [drift, drift, hactive, live, live, unpack, List.count_append, List.count_singleton]
  simp only [beq_iff_eq, Option.some_inj]
  split_ifs <;> omega

theorem unpack_getElem? : (m.unpack t).jobs[m.jobs.length]? = some (some t) := by
  rw [unpack, List.getElem?_concat_length]

theorem receive_drift : (m.receive t flags).drift s = m.drift s - if t = s then 1 else 0 := by
  rw [receive]
  cases isChecked flags with
  | true => exact unpack_drift
  | false => exact moveTo_drift.trans unpack_drift

theorem reject_drift (hs : s ≠ JStep.none) :
    (m.reject t).drift s = m.drift s - if t = s then 1 else 0 := by
  rw [reject, destroy_drift unpack_getElem? hs]
  exact unpack_drift

end Manager

end Drift

/-! ## Runs -/

/-- What changes the table or the jobs: whatever moves a job, in whatever order, is a `moveTo`. -/
inductive CountEvent where
  | receive (step flags : ℕ)
  | reject (step : ℕ)
  | moveTo (j target : ℕ)
  | destroy (j : ℕ)
  deriving DecidableEq, Repr

/-- The manager after an event; only live jobs are moved and destroyed. -/
def countStep (m : Manager) : CountEvent → Option Manager
  | .receive step flags => some (m.receive step flags)
  | .reject step => some (m.reject step)
  | .moveTo j target => m.jobs[j]?.join.map fun _ => m.moveTo j target
  | .destroy j => m.jobs[j]?.join.map fun _ => m.destroy j

/-- The manager before the first job comes. -/
def Manager.start (jobType : ℕ) : Manager := ⟨.staticInit jobType, []⟩

/-- For every step but `JSTEP_NONE`, the table has as many jobs as there are, and not less than none. -/
def CountsAgree (m : Manager) : Prop :=
  ∀ s ∈ declaredSteps, s ≠ JStep.none → m.active s = m.live s ∧ 0 ≤ m.active s

/-- A job that comes has no step yet. -/
def ComesWithoutStep (_ : Manager) (e : CountEvent) (_ : Manager) : Prop :=
  match e with
  | .receive step _ => Declared step → step = JStep.none
  | .reject step => Declared step → step = JStep.none
  | _ => True

section Agreement

variable {m m' : Manager} {e : CountEvent}

theorem countsAgree_iff_drift : CountsAgree m ↔ ∀ s ∈ declaredSteps, s ≠ JStep.none → m.drift s = 0 := by
  refine forall₃_congr fun s _ _ => ?_
  rw [Manager.drift]
  omega

/-- A job that comes keeps the agreement exactly if it has no step. -/
theorem agree_iff_of_drift {t : ℕ} (hm : CountsAgree m)
    (h : ∀ s, s ≠ JStep.none → m'.drift s = m.drift s - if t = s then 1 else 0) :
    CountsAgree m' ↔ (Declared t → t = JStep.none) := by
  rw [countsAgree_iff_drift] at hm ⊢
  constructor
  · intro hm' ht
    by_contra hne
    have hafter := hm' t ht hne
    rw [h t hne, hm t ht hne, if_pos rfl] at hafter
    omega
  · intro ht s hs hne
    have hts : t ≠ s := by
      rintro rfl
      exact hne (ht hs)
    rw [h s hne, hm s hs hne, if_neg hts]
    rfl

theorem agree_of_drift (hm : CountsAgree m) (h : ∀ s, s ≠ JStep.none → m'.drift s = m.drift s) :
    CountsAgree m' := by
  rw [countsAgree_iff_drift] at hm ⊢
  intro s hs hne
  rw [h s hne]
  exact hm s hs hne

/-- A step of the manager keeps the agreement exactly if no job comes with a step. -/
theorem countStep_agree (hm : CountsAgree m) (h : countStep m e = some m') :
    CountsAgree m' ↔ ComesWithoutStep m e m' := by
  cases e with
  | receive step flags =>
    obtain rfl := Option.some.inj h
    exact agree_iff_of_drift hm fun s _ => Manager.receive_drift
  | reject step =>
    obtain rfl := Option.some.inj h
    exact agree_iff_of_drift hm fun s hs => Manager.reject_drift hs
  | moveTo j target =>
    obtain ⟨_, -, rfl⟩ := Option.map_eq_some_iff.1 h
    exact iff_of_true (agree_of_drift hm fun s _ => Manager.moveTo_drift) trivial
  | destroy j =>
    obtain ⟨current, hjoin, rfl⟩ := Option.map_eq_some_iff.1 h
    have hlive := Option.join_eq_some_iff.1 hjoin
    exact iff_of_true (agree_of_drift hm fun s hs => Manager.destroy_drift hlive hs) trivial

theorem Counts.staticInit_active (jobType : ℕ) (k : StepID) : (Counts.staticInit jobType k).active = 0 := by
  have hbase : (Counts.base k).active = 0 := by
    unfold Counts.base
    split_ifs <;> rfl
  unfold Counts.staticInit
  split_ifs
  · split
    · rfl
    · exact hbase
  · exact hbase

theorem start_agree (jobType : ℕ) : CountsAgree (.start jobType) := fun s _ _ =>
  have h0 : (Manager.start jobType).active s = 0 := Counts.staticInit_active jobType _
  ⟨h0, h0.ge⟩

/-- **The table agrees with the jobs throughout exactly the runs in which no job comes with a step.** -/
theorem counts_agree_iff (jobType : ℕ) (as : List CountEvent) :
    Always countStep CountsAgree (.start jobType) as ↔
      Each countStep ComesWithoutStep (.start jobType) as :=
  @always_iff_each _ _ countStep CountsAgree (fun _ => True) ComesWithoutStep (fun _ _ _ _ _ => trivial)
    (fun _ _ _ _ hm h => countStep_agree hm h) _ _ trivial (start_agree jobType)

end Agreement

/-- A job checked by `rdx_sub` comes with the step it was checked in. -/
theorem checked_job_uncounted : ¬ ∀ jobType as, Always countStep CountsAgree (.start jobType) as := by
  intro h
  have hlast := (h MOMFBDJOB [.receive JStep.checked 1]).last rfl
  exact absurd (hlast JStep.checked (by decide) (by decide)).1 (by decide)

end Redux.Momfbd
