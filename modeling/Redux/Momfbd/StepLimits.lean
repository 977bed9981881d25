import Redux.Momfbd.StepCounts

/-!
# Momfbd.StepLimits — how many jobs are in a step at a time

`getWork` tests the table before it moves a job, but the lock is gone by then.  There is one local
thread, so that nothing comes between its test and its move; remote threads may all have passed the
test before one of them moves its job.  `unloadCalib` and `writeOutput` move their job without a test:
the jobs queued were counted when they went to preprocessing, the jobs writing were not.
-/

namespace Redux.Momfbd

open Redux.Lib

/-! ## The threads -/

/-- The maxima of the steps that have one, `r` for the jobs that run. -/
def limits (r : ℤ) : List (ℕ × ℤ) :=
  [(JStep.submit, 5), (JStep.none, 5), (JStep.checking, 5), (JStep.preprocess, 1), (JStep.queued, 2),
    (JStep.running, r), (JStep.verify, 1), (JStep.postprocess, 1), (JStep.writing, 1)]

/-- The steps that have one. -/
def limited : List ℕ := (limits 0).map Prod.fst

/-- The maximum of `JSTEP_RUNNING`: that of `staticInit`, or what `--max-running` says. -/
def runningMax : Option (BitVec 32) → ℤ
  | none => 5
  | some maxRunning => maxRunning.toNat

/-- Those whose limit `getWork` tests, or relies on. -/
def tested : List ℕ :=
  [JStep.checking, JStep.preprocess, JStep.queued, JStep.running, JStep.verify, JStep.postprocess,
    JStep.writing]

/-- Where the local thread is in `getWork`: the job, the step it has read, the step that comes next. -/
inductive LocalAt where
  | idle
  | read (j step nextStep : ℕ)
  | submitted (j : ℕ)
  | checked (j nextStep : ℕ)
  | ready (j nextStep : ℕ)
  deriving DecidableEq, Repr

/-- The job the local thread is at. -/
def LocalAt.job : LocalAt → Option ℕ
  | idle => none
  | read j _ _ => some j
  | submitted j => some j
  | checked j _ => some j
  | ready j _ => some j

/-- The manager, the id its job class got at registration, the local thread, and the jobs that a remote
thread holds the lock of and is about to move to `JSTEP_RUNNING`. -/
structure Threads where
  manager : Manager
  jobType : ℕ
  atLocal : LocalAt
  remote : List ℕ

/-- What the threads do, one atomic step each; `move` is every `moveTo` to a step without a limit. -/
inductive ThreadEvent where
  | receive (step flags : ℕ)
  | reject (step : ℕ)
  | destroy (j : ℕ)
  | move (j target : ℕ)
  | localRead (j nThreads : ℕ)
  | localTest
  | localCheck
  | localQueued
  | localMove
  | remoteTest (j : ℕ)
  | remoteMove (j : ℕ)
  | unloadCalib (j : ℕ)
  | writeOutput (j : ℕ)
  deriving DecidableEq, Repr

namespace Threads

/-- `limits.active >= limits.max`. -/
def full (s : Threads) (step : ℕ) : Bool :=
  let limits := s.manager.counts.get ⟨s.jobType, step⟩
  limits.active ≥ limits.max

/-- `info.step` of the job at `j`. -/
def step (s : Threads) (j : ℕ) : Option ℕ := s.manager.jobs[j]?.join

def moveTo (s : Threads) (j target : ℕ) : Threads := { s with manager := s.manager.moveTo j target }

/-- The local `getWork` up to its first test. -/
def localRead (s : Threads) (j nThreads step : ℕ) : Threads :=
  let nextStep := Job.getNextStep step step
  if step ∉ [JStep.none, JStep.submit, JStep.checked, JStep.done, JStep.verified] then s
  else if step ∈ [JStep.checked, JStep.done, JStep.verified] ∧ nThreads = 0 then s
  else { s with atLocal := .read j step nextStep }

/-- The test of the limit of the next step. -/
def localTest (s : Threads) (j step nextStep : ℕ) : Threads :=
  { s with
    atLocal :=
      if s.full nextStep then .idle
      else if step = JStep.submit then .submitted j
      else if step = JStep.checked then .checked j nextStep
      else .ready j nextStep }

/-- `check()` of a submitted job: the thread that it starts moves the job on. -/
def localCheck (s : Threads) (j step : ℕ) : Threads :=
  if step = JStep.none ∨ step = JStep.submit then { s.moveTo j JStep.checking with atLocal := .idle }
  else { s with atLocal := .idle }

end Threads

/-- The state after an event. -/
def threadStep (s : Threads) : ThreadEvent → Option Threads
  | .receive step flags => some { s with manager := s.manager.receive step flags }
  | .reject step => some { s with manager := s.manager.reject step }
  | .destroy j =>
    if s.atLocal.job = some j ∨ j ∈ s.remote then none
    else (s.step j).map fun _ => { s with manager := s.manager.destroy j }
  | .move j target =>
    if target ∈ limited then none else (s.step j).map fun _ => s.moveTo j target
  | .localRead j nThreads =>
    if s.atLocal = .idle then (s.step j).map (s.localRead j nThreads) else none
  | .localTest =>
    match s.atLocal with
    | .read j step nextStep => some (s.localTest j step nextStep)
    | _ => none
  | .localCheck =>
    match s.atLocal with
    | .submitted j => (s.step j).map (s.localCheck j)
    | _ => none
  | .localQueued =>
    match s.atLocal with
    | .checked j nextStep =>
      -- we are also restricted by nQueued
      some { s with atLocal := if s.full JStep.queued then .idle else .ready j nextStep }
    | _ => none
  | .localMove =>
    match s.atLocal with
    | .ready j nextStep => some { s.moveTo j nextStep with atLocal := .idle }
    | _ => none
  | .remoteTest j =>
    if s.step j = some JStep.queued ∧ j ∉ s.remote then
      some { s with remote := if s.full JStep.running then s.remote else j :: s.remote }
    else none
  | .remoteMove j =>
    if j ∈ s.remote then some { s.moveTo j JStep.running with remote := s.remote.erase j } else none
  | .unloadCalib j => (s.step j).map fun _ => s.moveTo j JStep.queued
  | .writeOutput j => (s.step j).map fun _ => s.moveTo j JStep.writing

/-- The manager before the first job comes. -/
def Threads.start (jobType : ℕ) (maxRunning : Option (BitVec 32)) : Threads :=
  ⟨⟨.configured jobType maxRunning, []⟩, jobType, .idle, []⟩

section Limits

variable (r : ℤ)

/-- No step has more jobs than its maximum. -/
def WithinLimits (m : Manager) : Prop := ∀ l ∈ limits r, (m.live l.1 : ℤ) ≤ l.2

/-- A job more is within the limit of the step. -/
def HasRoom (m : Manager) (step : ℕ) : Prop := ∀ l ∈ limits r, step = l.1 → (m.live step : ℤ) < l.2

instance (m : Manager) (step : ℕ) : Decidable (HasRoom r m step) :=
  inferInstanceAs (Decidable (∀ l ∈ limits r, step = l.1 → (m.live step : ℤ) < l.2))

/-- There is room where a step is not tested for, or no longer: no job comes with a step that has a
limit, a remote thread finds that there is still room to run its job, a job that has been preprocessed
is still in that step, and output is written by one job at a time. -/
def LeavesRoom (s : Threads) (e : ThreadEvent) (_ : Threads) : Prop :=
  match e with
  | .receive step flags =>
    step ∉ tested ∧
      HasRoom r s.manager (if Manager.isChecked flags then step else JStep.submit)
  | .reject step => step ∉ tested
  | .remoteMove _ => HasRoom r s.manager JStep.running
  | .unloadCalib j => s.step j = some JStep.preprocess
  | .writeOutput _ => HasRoom r s.manager JStep.writing
  | _ => True

end Limits

/-! ## How moves change the numbers -/

section Moves

variable {m m' : Manager} {j t s current flags : ℕ} {r : ℤ}

namespace Manager

theorem live_moveTo (h : m.jobs[j]? = some (some current)) :
    ((m.moveTo j t).live s : ℤ) = m.live s - (if current = s then 1 else 0) + if t = s then 1 else 0 := by
  rw [live, moveTo_jobs h, live_set h]
  simp only [Option.some_inj]

/-- A dead job stays where it is. -/
theorem moveTo_of_dead (h : ∀ current, m.jobs[j]? ≠ some (some current)) : m.moveTo j t = m := by
  rw [moveTo]
  split
  · rename_i current hj
    exact absurd hj (h current)
  · rfl

theorem live_moveTo_le (hs : t ≠ s) : (m.moveTo j t).live s ≤ m.live s := by
  by_cases h : ∃ current, m.jobs[j]? = some (some current)
  · obtain ⟨current, h⟩ := h
    have hlive := @live_moveTo m j t s current h
    rw [if_neg hs] at hlive
    split_ifs at hlive <;> omega
  · rw [moveTo_of_dead (not_exists.1 h)]

theorem live_moveTo_target_le : (m.moveTo j t).live t ≤ m.live t + 1 := by
  by_cases h : ∃ current, m.jobs[j]? = some (some current)
  · obtain ⟨current, h⟩ := h
    have hlive := @live_moveTo m j t t current h
    rw [if_pos rfl] at hlive
    split_ifs at hlive <;> omega
  · rw [moveTo_of_dead (not_exists.1 h)]
    exact Nat.le_succ _

theorem moveTo_max (k : StepID) : ((m.moveTo j t).counts k).max = (m.counts k).max := by
  have hadd (c : Counts) (i : StepID) (n : ℤ) : (c.add i n k).max = (c k).max := by
    unfold Counts.add
    by_cases hk : k = i.slot
    · rw [hk, Function.update_self]
    · rw [Function.update_of_ne hk]
  by_cases h : ∃ current, m.jobs[j]? = some (some current)
  · obtain ⟨current, h⟩ := h
    by_cases hne : current = t
    · rw [moveTo_of_same (hne ▸ h)]
    · rw [moveTo_of_live h hne]
      exact (hadd _ _ _).trans (hadd _ _ _)
  · rw [moveTo_of_dead (not_exists.1 h)]

theorem live_unpack : (m.unpack t).live s = m.live s + if t = s then 1 else 0 := by
  rw [live, live, unpack, List.count_append, List.count_singleton]
  simp only [beq_iff_eq, Option.some_inj]

theorem live_destroy_le (h : m.jobs[j]? = some (some current)) :
    (m.destroy j).live s ≤ m.live s - if current = s then 1 else 0 := by
  have hmoved := @live_moveTo m j JStep.none s current h
  have hset := @live_set (m.moveTo j JStep.none) j s JStep.none (moveTo_getElem? h) none
  rw [if_neg (by simp : ¬(none : Option ℕ) = some s)] at hset
  rw [destroy, live]
  simp only
  split_ifs at * <;> omega

/-- Where the unpacked job goes, there is one more. -/
theorem live_receive_le :
    (m.receive t flags).live s ≤ m.live s + if (if isChecked flags then t else JStep.submit) = s then 1 else 0 := by
  rw [receive]
  cases isChecked flags with
  | true => exact le_of_eq live_unpack
  | false =>
    have hmoved := @live_moveTo (m.unpack t) m.jobs.length JStep.submit s t unpack_getElem?
    have hunpack := @live_unpack m t s
    simp only [Bool.false_eq_true, if_false]
    by_cases ht : t = s
    · rw [if_pos ht] at hmoved hunpack
      split_ifs at hmoved ⊢ <;> omega
    · rw [if_neg ht] at hmoved hunpack
      split_ifs at hmoved ⊢ <;> omega

theorem live_reject_le : (m.reject t).live s ≤ m.live s := by
  have hdestroy := @live_destroy_le (m.unpack t) m.jobs.length s t unpack_getElem?
  have hunpack := @live_unpack m t s
  rw [reject]
  split_ifs at * <;> omega

end Manager

/-- What every event but a move of the local thread does to the manager: the limits and the drift stay,
and no job goes where only the local thread moves jobs. -/
structure Keeps (m m' : Manager) : Prop where
  max : ∀ k, (m'.counts k).max = (m.counts k).max
  drift : ∀ s ∈ tested, m'.drift s = m.drift s
  starts : ∀ s ∈ [JStep.checking, JStep.preprocess, JStep.verify, JStep.postprocess], m'.live s ≤ m.live s
  queue : m'.live JStep.preprocess + m'.live JStep.queued ≤ m.live JStep.preprocess + m.live JStep.queued

theorem Keeps.refl (m : Manager) : Keeps m m := ⟨fun _ => rfl, fun _ _ => rfl, fun _ _ => le_refl _, le_refl _⟩

theorem within_of_le (hm : WithinLimits r m) (hroom : HasRoom r m t)
    (h : ∀ s, m'.live s ≤ m.live s + if t = s then 1 else 0) : WithinLimits r m' := by
  intro l hl
  have hle := h l.1
  have hmax := hm l hl
  by_cases ht : t = l.1
  · have hlt := hroom l hl ht
    rw [if_pos ht] at hle
    rw [ht] at hlt
    omega
  · rw [if_neg ht] at hle
    omega

theorem within_moveTo (hm : WithinLimits r m) (hroom : HasRoom r m t) : WithinLimits r (m.moveTo j t) := by
  refine within_of_le hm hroom fun s => ?_
  split_ifs with hs
  · exact hs ▸ Manager.live_moveTo_target_le
  · exact Manager.live_moveTo_le hs

theorem keeps_moveTo (ht : t ∉ [JStep.checking, JStep.preprocess, JStep.queued, JStep.verify, JStep.postprocess]) :
    Keeps m (m.moveTo j t) := by
  simp only [List.mem_cons, List.not_mem_nil, or_false, not_or] at ht
  obtain ⟨h1, h2, h3, h4, h5⟩ := ht
  refine ⟨Manager.moveTo_max, fun s _ => Manager.moveTo_drift, ?_, ?_⟩
  · simp only [List.forall_mem_cons, List.not_mem_nil, false_imp_iff, implies_true, and_true]
    exact ⟨Manager.live_moveTo_le h1, Manager.live_moveTo_le h2, Manager.live_moveTo_le h4,
      Manager.live_moveTo_le h5⟩
  · exact Nat.add_le_add (Manager.live_moveTo_le h2) (Manager.live_moveTo_le h3)

/-- A preprocessed job was counted already. -/
theorem keeps_unloadCalib (h : m.jobs[j]? = some (some JStep.preprocess)) :
    Keeps m (m.moveTo j JStep.queued) := by
  refine ⟨Manager.moveTo_max, fun s _ => Manager.moveTo_drift, ?_, ?_⟩
  · simp only [List.forall_mem_cons, List.not_mem_nil, false_imp_iff, implies_true, and_true]
    exact ⟨Manager.live_moveTo_le (by decide), Manager.live_moveTo_le (by decide),
      Manager.live_moveTo_le (by decide), Manager.live_moveTo_le (by decide)⟩
  · have hpre := @Manager.live_moveTo m j JStep.queued JStep.preprocess _ h
    have hqueued := @Manager.live_moveTo m j JStep.queued JStep.queued _ h
    rw [if_pos rfl, if_neg (by decide)] at hpre
    rw [if_neg (by decide), if_pos rfl] at hqueued
    omega

/-- Its number of jobs makes room for the ones in preprocessing. -/
theorem within_unloadCalib (hm : WithinLimits r m) (hqueue : m.live JStep.preprocess + m.live JStep.queued ≤ 2)
    (h : m.jobs[j]? = some (some JStep.preprocess)) : WithinLimits r (m.moveTo j JStep.queued) := by
  refine within_moveTo hm fun l hl hs => ?_
  obtain rfl : l = (JStep.queued, 2) := by
    simp only [limits, List.mem_cons, List.not_mem_nil, or_false] at hl
    rcases hl with rfl | rfl | rfl | rfl | rfl | rfl | rfl | rfl | rfl <;> first
      | rfl
      | exact absurd (show JStep.queued = _ from hs) (by dsimp only; decide)
  have hpos : 0 < m.live JStep.preprocess := List.count_pos_iff.2 (List.mem_of_getElem? h)
  simp only
  omega

theorem keeps_of_live_le (hmax : ∀ k, (m'.counts k).max = (m.counts k).max)
    (hdrift : ∀ s ∈ tested, m'.drift s = m.drift s)
    (hlive : ∀ s ∈ tested, m'.live s ≤ m.live s) : Keeps m m' where
  max := hmax
  drift := hdrift
  starts s hs := hlive s (by revert s; decide)
  queue := Nat.add_le_add (hlive _ (by decide)) (hlive _ (by decide))

end Moves

/-! ## The invariant -/

/-- The steps the local thread starts, after its tests. -/
def started : List ℕ := [JStep.checking, JStep.preprocess, JStep.verify, JStep.postprocess]

/-- A job may be moved there by the local thread. -/
structure Startable (r : ℤ) (m : Manager) (step : ℕ) : Prop where
  mem : step ∈ started
  room : HasRoom r m step
  queue : step = JStep.preprocess → m.live JStep.preprocess + m.live JStep.queued < 2

/-- What the local thread has found holds until it moves its job. -/
def LocalRoom (r : ℤ) (m : Manager) : LocalAt → Prop
  | .idle => True
  | .read _ step nextStep =>
    step ∈ [JStep.none, JStep.submit, JStep.checked, JStep.done, JStep.verified] ∧
      nextStep = Job.getNextStep step step
  | .submitted _ => HasRoom r m JStep.checking
  | .checked _ nextStep => nextStep = JStep.preprocess ∧ HasRoom r m JStep.preprocess
  | .ready _ nextStep => Startable r m nextStep

/-- The table tells the truth where it is tested, the limits hold, and jobs in preprocessing count as
queued. -/
structure LimitInv (r : ℤ) (s : Threads) : Prop where
  type : s.jobType = MOMFBDJOB
  max : ∀ l ∈ limits r, (s.manager.counts.get ⟨MOMFBDJOB, l.1⟩).max = l.2
  drift : ∀ t ∈ tested, s.manager.drift t = 0
  within : WithinLimits r s.manager
  queue : s.manager.live JStep.preprocess + s.manager.live JStep.queued ≤ 2
  room : LocalRoom r s.manager s.atLocal

section Invariant

variable {m m' : Manager} {s s' : Threads} {e : ThreadEvent} {j t : ℕ} {r : ℤ}

theorem HasRoom.keeps (hk : Keeps m m') (ht : t ∈ started) (h : HasRoom r m t) : HasRoom r m' t := by
  intro l hl heq
  have hlt := h l hl heq
  have hle := hk.starts t ht
  omega

theorem LocalRoom.keeps (hk : Keeps m m') : ∀ {l : LocalAt}, LocalRoom r m l → LocalRoom r m' l
  | .idle, _ => trivial
  | .read _ _ _, h => h
  | .submitted _, h => HasRoom.keeps hk (by decide) h
  | .checked _ _, ⟨hnext, h⟩ => ⟨hnext, h.keeps hk (by decide)⟩
  | .ready _ _, h => ⟨h.mem, h.room.keeps hk h.mem, fun heq => Nat.lt_of_le_of_lt hk.queue (h.queue heq)⟩

/-- **A step that keeps the numbers keeps the invariant**, given that the limits hold after it. -/
theorem LimitInv.keeps (hs : LimitInv r s) (hk : Keeps s.manager m') (hw : WithinLimits r m') (l : List ℕ) :
    LimitInv r ⟨m', s.jobType, s.atLocal, l⟩ where
  type := hs.type
  max l hl := (hk.max _).trans (hs.max l hl)
  drift t ht := (hk.drift t ht).trans (hs.drift t ht)
  within := hw
  queue := hk.queue.trans hs.queue
  room := hs.room.keeps hk

/-- So does a local move of a job to where there is room. -/
theorem LimitInv.start (hs : LimitInv r s) (h : Startable r s.manager t) :
    LimitInv r { s.moveTo j t with atLocal := .idle } where
  type := hs.type
  max l hl := (Manager.moveTo_max _).trans (hs.max l hl)
  drift t ht := Manager.moveTo_drift.trans (hs.drift t ht)
  within := within_moveTo hs.within h.room
  queue := by
    have hqueue := hs.queue
    have hle : (s.manager.moveTo j t).live JStep.queued ≤ s.manager.live JStep.queued :=
      Manager.live_moveTo_le fun heq => absurd (heq ▸ h.mem) (by decide)
    by_cases ht : t = JStep.preprocess
    · have hlt := h.queue ht
      have htarget := @Manager.live_moveTo_target_le s.manager j t
      rw [ht] at htarget hle
      simp only [Threads.moveTo, ht]
      omega
    · have hpre := @Manager.live_moveTo_le s.manager j t JStep.preprocess ht
      simp only [Threads.moveTo]
      omega
  room := trivial

theorem LimitInv.goto (hs : LimitInv r s) {l : LocalAt} (h : LocalRoom r s.manager l) :
    LimitInv r { s with atLocal := l } :=
  ⟨hs.type, hs.max, hs.drift, hs.within, hs.queue, h⟩

/-- What the test of a limit says. -/
theorem LimitInv.room_of_test (hs : LimitInv r s) (ht : t ∈ tested) (h : s.full t = false) :
    HasRoom r s.manager t := by
  intro l hl heq
  have hmax := hs.max l hl
  have hdrift := hs.drift t ht
  rw [Threads.full, hs.type] at h
  have hlt := of_decide_eq_false h
  rw [Manager.drift, Manager.active] at hdrift
  rw [← heq] at hmax
  omega

/-- The next steps of those at which the local thread does not stop. -/
theorem getNextStep_started {step : ℕ}
    (h : step ∈ [JStep.none, JStep.submit, JStep.checked, JStep.done, JStep.verified]) :
    Job.getNextStep step step ∈ started ∧ (Job.getNextStep step step = JStep.preprocess ↔ step = JStep.checked) ∧
      (step = JStep.submit → Job.getNextStep step step = JStep.checking) := by
  revert step
  decide

theorem started_limited :
    ∀ t ∈ [JStep.checking, JStep.preprocess, JStep.queued, JStep.verify, JStep.postprocess],
      t ∈ limited := by decide

theorem started_tested (h : t ∈ started) : t ∈ tested := by
  revert t
  decide

theorem keeps_receive {step flags : ℕ} (hstep : step ∉ tested) : Keeps m (m.receive step flags) := by
  refine keeps_of_live_le ?_ ?_ ?_
  · intro k
    rw [Manager.receive]
    cases Manager.isChecked flags with
    | true => rfl
    | false => exact Manager.moveTo_max k
  · intro t ht
    rw [Manager.receive_drift, if_neg (ne_of_mem_of_not_mem ht hstep).symm, Int.sub_zero]
  · intro t ht
    have hcomes : (if Manager.isChecked flags then step else JStep.submit) ≠ t := by
      split_ifs
      · exact (ne_of_mem_of_not_mem ht hstep).symm
      · exact (ne_of_mem_of_not_mem ht (by decide)).symm
    have hle := @Manager.live_receive_le m step t flags
    rwa [if_neg hcomes] at hle

theorem keeps_destroy {current : ℕ} (h : m.jobs[j]? = some (some current)) : Keeps m (m.destroy j) := by
  refine keeps_of_live_le (fun k => Manager.moveTo_max k) ?_ fun t _ => ?_
  · intro t ht
    exact Manager.destroy_drift h (ne_of_mem_of_not_mem ht (by decide))
  · exact Manager.live_destroy_le h |>.trans (Nat.sub_le _ _)

theorem keeps_reject {step : ℕ} (hstep : step ∉ tested) : Keeps m (m.reject step) := by
  refine keeps_of_live_le (fun k => Manager.moveTo_max k) ?_ fun t _ => Manager.live_reject_le
  intro t ht
  rw [Manager.reject_drift (ne_of_mem_of_not_mem ht (by decide)),
    if_neg (ne_of_mem_of_not_mem ht hstep).symm, Int.sub_zero]

theorem within_of_live_le (hm : WithinLimits r m) (h : ∀ t, m'.live t ≤ m.live t) : WithinLimits r m' := by
  intro l hl
  have hmax := hm l hl
  have hle := h l.1
  omega

/-- The tests of the local thread lead on to a step that has room. -/
theorem localTest_room (hs : LimitInv r s) {j step nextStep : ℕ}
    (hread : LocalRoom r s.manager (.read j step nextStep)) :
    LocalRoom r s.manager (s.localTest j step nextStep).atLocal := by
  obtain ⟨hstep, rfl⟩ := hread
  obtain ⟨hmem, hpre, hsubmit⟩ := getNextStep_started hstep
  rw [Threads.localTest]
  simp only
  split_ifs with hfull h1 h2
  · trivial
  · have hroom := hs.room_of_test (started_tested hmem) (eq_false_of_ne_true hfull)
    rwa [hsubmit h1] at hroom
  · have hroom := hs.room_of_test (started_tested hmem) (eq_false_of_ne_true hfull)
    rw [hpre.2 h2] at hroom ⊢
    exact ⟨rfl, hroom⟩
  · exact ⟨hmem, hs.room_of_test (started_tested hmem) (eq_false_of_ne_true hfull), fun heq => absurd (hpre.1 heq) h2⟩

/-- With no job in preprocessing and room in the queue, a job may be preprocessed. -/
theorem startable_preprocess (hpre : HasRoom r m JStep.preprocess) (hqueued : HasRoom r m JStep.queued) :
    Startable r m JStep.preprocess where
  mem := by decide
  room := hpre
  queue _ := by
    have h1 := hpre (JStep.preprocess, 1) (by simp [limits]) rfl
    have h2 := hqueued (JStep.queued, 2) (by simp [limits]) rfl
    simp only at h1 h2
    omega

theorem live_of_step {current : ℕ} (h : s.step j = some current) :
    s.manager.jobs[j]? = some (some current) := Option.join_eq_some_iff.1 h

/-- **Every step that leaves room keeps the invariant.** -/
theorem threadStep_inv (hs : LimitInv r s) (hroom : LeavesRoom r s e s') (h : threadStep s e = some s') :
    LimitInv r s' := by
  cases e with
  | receive step flags =>
    obtain rfl := Option.some.inj h
    exact hs.keeps (keeps_receive hroom.1)
      (within_of_le hs.within hroom.2 fun t => Manager.live_receive_le) s.remote
  | reject step =>
    obtain rfl := Option.some.inj h
    exact hs.keeps (keeps_reject hroom) (within_of_live_le hs.within fun t => Manager.live_reject_le) s.remote
  | destroy j =>
    rw [threadStep] at h
    split_ifs at h
    obtain ⟨current, hcurrent, rfl⟩ := Option.map_eq_some_iff.1 h
    have hlive := live_of_step hcurrent
    exact hs.keeps (keeps_destroy hlive)
      (within_of_live_le hs.within fun t => (Manager.live_destroy_le hlive).trans (Nat.sub_le _ _)) s.remote
  | move j target =>
    rw [threadStep] at h
    split_ifs at h with hlimit
    obtain ⟨current, -, rfl⟩ := Option.map_eq_some_iff.1 h
    refine hs.keeps (keeps_moveTo ?_) (within_moveTo hs.within ?_) s.remote
    · exact fun hmem => hlimit (started_limited target hmem)
    · intro l hl heq
      exact absurd (List.mem_map_of_mem hl) (heq ▸ hlimit : ¬l.1 ∈ (limits r).map Prod.fst)
  | localRead j nThreads =>
    rw [threadStep] at h
    split_ifs at h
    obtain ⟨step, -, rfl⟩ := Option.map_eq_some_iff.1 h
    by_cases hstep : step ∈ [JStep.none, JStep.submit, JStep.checked, JStep.done, JStep.verified]
    · rw [Threads.localRead, if_neg (not_not_intro hstep)]
      split_ifs
      · exact hs
      · exact hs.goto ⟨hstep, rfl⟩
    · rw [Threads.localRead, if_pos hstep]
      exact hs
  | localTest =>
    rw [threadStep] at h
    split at h
    · rename_i j step nextStep hat
      obtain rfl := Option.some.inj h
      exact hs.goto (localTest_room hs (hat ▸ hs.room))
    · cases h
  | localCheck =>
    rw [threadStep] at h
    split at h
    · rename_i j hat
      obtain ⟨step, -, rfl⟩ := Option.map_eq_some_iff.1 h
      have hchecking : HasRoom r s.manager JStep.checking := by
        have hr := hs.room
        rwa [hat] at hr
      rw [Threads.localCheck]
      split_ifs
      · exact hs.start ⟨by decide, hchecking, fun heq => absurd heq (by decide)⟩
      · exact hs.goto trivial
    · cases h
  | localQueued =>
    rw [threadStep] at h
    split at h
    · rename_i j nextStep hat
      obtain rfl := Option.some.inj h
      have hr := hs.room
      rw [hat] at hr
      obtain ⟨rfl, hpre⟩ := hr
      refine hs.goto ?_
      split_ifs with hfull
      · trivial
      · exact startable_preprocess hpre (hs.room_of_test (by decide) (eq_false_of_ne_true hfull))
    · cases h
  | localMove =>
    rw [threadStep] at h
    split at h
    · rename_i j nextStep hat
      obtain rfl := Option.some.inj h
      have hr := hs.room
      rw [hat] at hr
      exact hs.start hr
    · cases h
  | remoteTest j =>
    rw [threadStep] at h
    split at h
    · obtain rfl := Option.some.inj h
      exact hs.keeps (.refl _) hs.within _
    · cases h
  | remoteMove j =>
    rw [threadStep] at h
    split_ifs at h
    obtain rfl := Option.some.inj h
    exact hs.keeps (keeps_moveTo (by decide)) (within_moveTo hs.within hroom) _
  | unloadCalib j =>
    obtain ⟨current, hcurrent, rfl⟩ := Option.map_eq_some_iff.1 h
    have hlive := live_of_step hroom
    exact hs.keeps (keeps_unloadCalib hlive) (within_unloadCalib hs.within hs.queue hlive) s.remote
  | writeOutput j =>
    obtain ⟨current, -, rfl⟩ := Option.map_eq_some_iff.1 h
    exact hs.keeps (keeps_moveTo (by decide)) (within_moveTo hs.within hroom) s.remote

theorem start_inv (maxRunning : Option (BitVec 32)) : LimitInv (runningMax maxRunning) (.start MOMFBDJOB maxRunning) where
  type := rfl
  max := by
    cases maxRunning with
    | none => decide
    | some maxRunning =>
      simp only [limits, List.forall_mem_cons, List.not_mem_nil, false_imp_iff, implies_true, and_true]
      exact ⟨rfl, rfl, rfl, rfl, rfl, rfl, rfl, rfl, rfl⟩
  drift t _ := by
    have hactive : (Threads.start MOMFBDJOB maxRunning).manager.active t = 0 := by
      cases maxRunning with
      | none => exact Counts.staticInit_active MOMFBDJOB _
      | some maxRunning =>
        show ((Counts.staticInit MOMFBDJOB).setStepCount ⟨MOMFBDJOB, JStep.running⟩ maxRunning.toNat
          (StepID.slot ⟨MOMFBDJOB, t⟩)).active = 0
        rw [Counts.setStepCount, Function.update_apply]
        split_ifs
        · rfl
        · exact Counts.staticInit_active MOMFBDJOB _
    rw [Manager.drift, hactive]
    rfl
  within l hl := by
    have hpos : 0 ≤ runningMax maxRunning := by
      cases maxRunning with
      | none => decide
      | some maxRunning => exact Int.natCast_nonneg _
    have hnone : (Threads.start MOMFBDJOB maxRunning).manager.live l.1 = 0 := rfl
    rw [hnone]
    simp only [limits, List.mem_cons, List.not_mem_nil, or_false] at hl
    rcases hl with rfl | rfl | rfl | rfl | rfl | rfl | rfl | rfl | rfl <;> first
      | exact hpos
      | decide
  queue := by
    show 0 + 0 ≤ 2
    decide
  room := trivial

/-- **The limits hold throughout every run that leaves room** where the steps are not tested, provided
that the class was registered under the id that its jobs are counted under. -/
theorem limits_hold {jobType : ℕ} (maxRunning : Option (BitVec 32)) {as : List ThreadEvent}
    (htype : jobType = MOMFBDJOB)
    (hroom : Each threadStep (LeavesRoom (runningMax maxRunning)) (.start jobType maxRunning) as) :
    Always threadStep (fun s => WithinLimits (runningMax maxRunning) s.manager) (.start jobType maxRunning) as := by
  subst htype
  have hinv : Always threadStep (LimitInv (runningMax maxRunning)) (.start MOMFBDJOB maxRunning) as :=
    @always_of_each _ _ threadStep _ _ (fun _ _ _ hs hg h => threadStep_inv hs hg h) _ _ (start_inv maxRunning) hroom
  exact hinv.mono fun _ h => h.within

end Invariant

/-- The life of the job at `j` up to where it writes its output. -/
def untilWriting (j : ℕ) : List ThreadEvent :=
  [.receive JStep.none 0, .localRead j 1, .localTest, .localCheck, .move j JStep.checked,
    .localRead j 1, .localTest, .localQueued, .localMove, .unloadCalib j,
    .remoteTest j, .remoteMove j, .move j JStep.done,
    .localRead j 1, .localTest, .localMove, .move j JStep.verified,
    .localRead j 1, .localTest, .localMove, .writeOutput j]

/-- A job runs where one may. -/
theorem limits_hold_oneRuns :
    Always threadStep (fun s => WithinLimits 1 s.manager) (.start MOMFBDJOB (some 1)) ((untilWriting 0).take 12) :=
  limits_hold (some 1) rfl <| .cons rfl ⟨by decide, by decide⟩ <| .cons rfl trivial <| .cons rfl trivial <|
    .cons rfl trivial <| .cons rfl trivial <| .cons rfl trivial <| .cons rfl trivial <| .cons rfl trivial <|
    .cons rfl trivial <| .cons rfl rfl <| .cons rfl trivial <| .cons rfl (show HasRoom _ _ _ by decide) trivial

/-- One job after the other comes to write its output, and two are in a step that admits one. -/
theorem two_jobs_writing : ¬ ∀ jobType maxRunning as,
    Always threadStep (fun s => WithinLimits (runningMax maxRunning) s.manager) (.start jobType maxRunning) as := by
  intro h
  have hlast := (h MOMFBDJOB none (untilWriting 0 ++ untilWriting 1)).last rfl
  exact absurd (hlast (JStep.writing, 1) (by decide)) (by decide)

end Redux.Momfbd
