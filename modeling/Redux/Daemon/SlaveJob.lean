import Mathlib.Algebra.Group.Nat.Defs
import Mathlib.Data.List.Nodup
import Redux.Lib.Run

/-!
# Daemon.SlaveJob — the job that a slave works with

The manager sends the configuration of a job only with the first piece of work that a slave gets of it: the slave says
the ID of the job that it holds, and the manager leaves out what it takes to be there.  The slave computes with the
right job in just those runs in which no job is handed out that has the ID of another one the slave holds
(`right_job_iff`).  The manager reads its counter for the ID of a job before it counts up, without a lock, so that two
submissions at a time can get one ID; as long as they come one at a time and the manager is not restarted there are
no such jobs (`right_job`).
-/

namespace Redux.SlaveJob

open Redux.Lib

variable {C G P : Type}

/-! ## Model -/

section Model

/-- A job: its configuration, and the global data that the manager makes for it. -/
structure Job (C G : Type) where
  id : BitVec 32
  cfg : C
  globalData : Option G

/-- `WorkInProgress` of the slave, with the job as long as it is there. -/
structure WorkInProgress (C G P : Type) where
  job : Option (Job C G)
  jobID : BitVec 32
  parts : List P

/-- A block of work: `newJob` comes with the job, and `nParts` is 2 with the global data. -/
structure Work (C G P : Type) where
  jobID : BitVec 32
  newJob : Option (BitVec 32 × C)
  part : P
  globalData : Option G

/-- `packWork` and `packParts`, with the ID that the slave has sent; none for `No globalData defined.` -/
def packWork (jobID : BitVec 32) (job : Job C G) (part : P) : Option (Work C G P) :=
  if jobID ≠ job.id then job.globalData.map fun g => ⟨jobID, some (job.id, job.cfg), part, some g⟩
  else some ⟨jobID, none, part, none⟩

namespace WorkInProgress

/-- `reset()`. -/
def reset : WorkInProgress C G P := ⟨none, 0, []⟩

/-- `unpackWork` and `unpackParts`; none for `Can't unpack parts without a job instance...`. -/
def unpackWork (wip : WorkInProgress C G P) (work : Work C G P) : Option (WorkInProgress C G P) :=
  let tmpJob : Option (Job C G) := match work.newJob with
    | some (id, cfg) => some ⟨id, cfg, none⟩
    | none => wip.job
  tmpJob.map fun job => ⟨some { job with globalData := work.globalData.or job.globalData }, work.jobID, [work.part]⟩

/-- The beginning of `Worker::getWork`, after the results are returned or given up. -/
def returned (wip : WorkInProgress C G P) : WorkInProgress C G P :=
  { wip with parts := [], jobID := (wip.job.map Job.id).getD wip.jobID }

/-- The end of `Worker::getWork`: a new job is initialised. -/
def initialised (wip : WorkInProgress C G P) : WorkInProgress C G P :=
  { wip with jobID := (wip.job.map Job.id).getD wip.jobID }

end WorkInProgress

/-- The manager's jobs, the submitted ones that are not among them yet, its counter, the slave, and what the manager
has handed out to it last. -/
structure System (C G P : Type) where
  jobs : List (Job C G)
  submitted : List (Job C G)
  jobCounter : ℕ
  wip : WorkInProgress C G P
  stopped : Bool
  handed : Option (Job C G × P)

inductive Event (C G P : Type) where
  | takeID (cfg : C)
  | addJob (k : ℕ)
  | giveUp (k : ℕ)
  | preProcess (k : ℕ) (globalData : G)
  | removeJob (k : ℕ)
  | restart
  | start
  | getWork (k : Option ℕ) (part : P)

namespace System

/-- `Worker::done`. -/
def done (s : System C G P) : System C G P := { s with wip := .reset, stopped := true }

/-- A step.  In `Daemon::addJobs`, `takeID` is `info.id = jobCounter`, `addJob` is `jobCounter++` with the job put into
the list, and `giveUp` an exception between them.  `getWork` is a turn of the slave, which gets work of the `k`-th job,
or gets none, whether there is none or the connection fails. -/
def step (s : System C G P) : Event C G P → Option (System C G P)
  | .takeID cfg => some { s with submitted := s.submitted ++ [⟨BitVec.ofNat 32 s.jobCounter, cfg, none⟩] }
  | .addJob k =>
    (s.submitted[k]?).map fun job =>
      { s with jobs := s.jobs ++ [job], submitted := s.submitted.eraseIdx k, jobCounter := s.jobCounter + 1 }
  | .giveUp k => some { s with submitted := s.submitted.eraseIdx k }
  | .preProcess k globalData =>
    (s.jobs[k]?).map fun job =>
      { s with jobs := s.jobs.set k { job with globalData := job.globalData.or (some globalData) } }
  | .removeJob k => some { s with jobs := s.jobs.eraseIdx k }
  | .restart => some { s with jobs := [], submitted := [], jobCounter := 1 }
  | .start => if s.stopped then some { s with wip := .reset, stopped := false } else none
  | .getWork k part =>
    if s.stopped then none
    else match k with
      | none => some s.done
      | some k =>
        (s.jobs[k]?).map fun job =>
          match (packWork s.wip.returned.jobID job part).bind s.wip.returned.unpackWork with
          | none => s.done
          | some wip => { s with wip := wip.initialised, handed := some (job, part) }

/-- A new manager, and a slave that has not started. -/
def begin : System C G P := ⟨[], [], 1, .reset, true, none⟩

/-- The slave has its part with the job it is of. -/
def Right (s : System C G P) : Prop :=
  ∀ part ∈ s.wip.parts, ∃ job, s.handed = some (job, part) ∧ s.wip.job = some job

/-- If the job that is handed out has the ID of the one that the slave holds, it is this one. -/
def Fresh (s : System C G P) : Event C G P → System C G P → Prop
  | .getWork (some k) _, _ =>
    ∀ job held, s.jobs[k]? = some job → s.wip.job = some held → held.id = job.id → held = job
  | _, _ => True

/-- A submission begins when there is no other one. -/
def Alone (s : System C G P) : Event C G P → System C G P → Prop
  | .takeID _, _ => s.submitted = []
  | _, _ => True

end System

/-- The number of jobs that come. -/
def countJobs (as : List (Event C G P)) : ℕ :=
  as.countP fun e => match e with
    | .addJob _ => true
    | _ => false

end Model

/-! ## One turn -/

section Turn

variable {s s' : System C G P} {e : Event C G P} {job held : Job C G} {part : P} {wip : WorkInProgress C G P}

namespace WorkInProgress

theorem returned_jobID (h : wip.job = some held) : wip.returned.jobID = held.id := by
  rw [returned, h]
  rfl

/-- **A job that the slave does not hold is sent.** -/
theorem receive_new {g : G} (hne : wip.returned.jobID ≠ job.id) (hg : job.globalData = some g) :
    (packWork wip.returned.jobID job part).bind wip.returned.unpackWork =
      some ⟨some job, wip.returned.jobID, [part]⟩ := by
  rw [packWork, if_pos hne, hg]
  show some (⟨some ⟨job.id, job.cfg, some g⟩, _, _⟩ : WorkInProgress C G P) = _
  rw [← hg]

theorem receive_none (hne : wip.returned.jobID ≠ job.id) (hg : job.globalData = none) :
    (packWork wip.returned.jobID job part).bind wip.returned.unpackWork = none := by
  rw [packWork, if_pos hne, hg]
  rfl

/-- **A job whose ID the slave has sent is not.** -/
theorem receive_same (h : wip.job = some held) (heq : wip.returned.jobID = job.id) :
    (packWork wip.returned.jobID job part).bind wip.returned.unpackWork =
      some ⟨some held, wip.returned.jobID, [part]⟩ := by
  rw [packWork, if_neg (not_not_intro heq)]
  show (wip.job.map fun job : Job C G =>
    (⟨some { job with globalData := none.or job.globalData }, _, _⟩ : WorkInProgress C G P)) = _
  rw [h]
  rfl

theorem receive_without (h : wip.job = none) (heq : wip.returned.jobID = job.id) :
    (packWork wip.returned.jobID job part).bind wip.returned.unpackWork = none := by
  rw [packWork, if_neg (not_not_intro heq)]
  show (wip.job.map fun job : Job C G =>
    (⟨some { job with globalData := none.or job.globalData }, _, _⟩ : WorkInProgress C G P)) = _
  rw [h]
  rfl

end WorkInProgress

namespace System

theorem right_done (s : System C G P) : s.done.Right := fun _ h => absurd h List.not_mem_nil

theorem right_of_work (h : s.handed = some (job, part)) (hjob : s.wip.job = some held) (hparts : s.wip.parts = [part]) :
    s.Right ↔ held = job := by
  constructor
  · intro hright
    obtain ⟨job', hhanded, hjob'⟩ := hright part (by rw [hparts]; exact List.mem_singleton_self part)
    obtain ⟨rfl, -⟩ := Prod.mk.inj (Option.some.inj (h.symm.trans hhanded))
    exact Option.some.inj (hjob.symm.trans hjob')
  · rintro rfl part' hpart'
    rw [hparts, List.mem_singleton] at hpart'
    subst hpart'
    exact ⟨held, h, hjob⟩

/-- What becomes of a turn. -/
theorem getWork_cases {k : ℕ} (h : s.step (.getWork (some k) part) = some s') : ∃ job, s.jobs[k]? = some job ∧
    ((s' = s.done ∧ ∀ held, s.wip.job = some held → held.id ≠ job.id) ∨
      (∃ held, s' = { s with wip := ⟨some held, held.id, [part]⟩, handed := some (job, part) } ∧
        (held = job ∧ held.globalData.isSome ∧ (∀ held', s.wip.job = some held' → held'.id ≠ job.id) ∨
          s.wip.job = some held ∧ held.id = job.id))) := by
  rw [step] at h
  split_ifs at h
  obtain ⟨job, hjob, rfl⟩ := Option.map_eq_some_iff.1 h
  refine ⟨job, hjob, ?_⟩
  by_cases heq : s.wip.returned.jobID = job.id
  · cases hheld : s.wip.job with
    | none =>
      rw [WorkInProgress.receive_without hheld heq]
      exact .inl ⟨rfl, fun held hnone => absurd hnone.symm (Option.some_ne_none held)⟩
    | some held =>
      rw [WorkInProgress.receive_same hheld heq]
      exact .inr ⟨held, rfl, .inr ⟨rfl, (WorkInProgress.returned_jobID hheld).symm.trans heq⟩⟩
  · have hother : ∀ held, s.wip.job = some held → held.id ≠ job.id := fun held hheld hsame =>
      heq ((WorkInProgress.returned_jobID hheld).trans hsame)
    cases hg : job.globalData with
    | none =>
      rw [WorkInProgress.receive_none heq hg]
      exact .inl ⟨rfl, hother⟩
    | some g =>
      rw [WorkInProgress.receive_new heq hg]
      exact .inr ⟨job, rfl, .inl ⟨rfl, by rw [hg]; rfl, hother⟩⟩

/-- **A turn ends with the right job just if the ID was not misleading.** -/
theorem right_step (hs : s.Right) (h : s.step e = some s') : s'.Right ↔ Fresh s e s' := by
  cases e with
  | getWork k part =>
    cases k with
    | none =>
      rw [step] at h
      split_ifs at h
      obtain rfl := Option.some.inj h
      exact iff_of_true s.right_done trivial
    | some k =>
      obtain ⟨job, hjob, ⟨rfl, hother⟩ | ⟨held, rfl, hwork⟩⟩ := getWork_cases h
      · refine iff_of_true s.right_done fun job' held hjob' hheld hid => ?_
        obtain rfl := Option.some.inj (hjob.symm.trans hjob')
        exact absurd hid (hother held hheld)
      · rw [right_of_work rfl rfl rfl]
        constructor
        · rintro rfl job' held' hjob' hheld' hid
          obtain rfl := Option.some.inj (hjob.symm.trans hjob')
          rcases hwork with ⟨-, -, hother⟩ | ⟨hheld, -⟩
          · exact absurd hid (hother held' hheld')
          · exact Option.some.inj (hheld'.symm.trans hheld)
        · intro hfresh
          rcases hwork with ⟨heq, -⟩ | ⟨hheld, hid⟩
          · exact heq
          · exact hfresh job held hjob hheld hid
  | start =>
    rw [step] at h
    split_ifs at h
    obtain rfl := Option.some.inj h
    exact iff_of_true (fun _ hmem => absurd hmem List.not_mem_nil) trivial
  | takeID cfg =>
    obtain rfl := Option.some.inj h
    exact iff_of_true hs trivial
  | addJob k =>
    obtain ⟨job, -, rfl⟩ := Option.map_eq_some_iff.1 h
    exact iff_of_true hs trivial
  | giveUp k =>
    obtain rfl := Option.some.inj h
    exact iff_of_true hs trivial
  | preProcess k g =>
    obtain ⟨job, -, rfl⟩ := Option.map_eq_some_iff.1 h
    exact iff_of_true hs trivial
  | removeJob k =>
    obtain rfl := Option.some.inj h
    exact iff_of_true hs trivial
  | restart =>
    obtain rfl := Option.some.inj h
    exact iff_of_true hs trivial

end System

end Turn

/-! ## Runs -/

section Run

variable {s s' : System C G P} {e : Event C G P} {as : List (Event C G P)}

namespace System

theorem right_begin : (begin : System C G P).Right := fun _ h => absurd h List.not_mem_nil

/-- **When a slave computes with the right job**: throughout just those runs in which no job is handed out that has the
ID of another one that the slave holds. -/
theorem right_job_iff (as : List (Event C G P)) : Always step Right begin as ↔ Each step Fresh begin as :=
  have hinv : ∀ s e s', (fun _ : System C G P => True) s → step s e = some s' → True := fun _ _ _ _ _ => trivial
  always_iff_each hinv (fun _ _ _ _ hright h => right_step hright h) trivial right_begin

/-- The IDs are different and have come already, one job at most is to get the next one, and the slave holds one of the
jobs, or one that is gone. -/
structure Known (s : System C G P) : Prop where
  below : ∀ job ∈ s.jobs, job.id.toNat < s.jobCounter
  nodup : (s.jobs.map Job.id).Nodup
  held : ∀ held, s.wip.job = some held → held.id.toNat < s.jobCounter ∧ held.globalData.isSome ∧
    ∀ job ∈ s.jobs, job.id = held.id → job = held
  next : s.submitted = [] ∨ ∃ cfg, s.submitted = [⟨BitVec.ofNat 32 s.jobCounter, cfg, none⟩]

theorem known_begin : (begin : System C G P).Known :=
  ⟨fun _ h => absurd h List.not_mem_nil, List.nodup_nil, fun held h => absurd h.symm (Option.some_ne_none held),
    .inl rfl⟩

namespace Known

theorem reset (hs : s.Known) {stopped : Bool} : Known { s with wip := .reset, stopped := stopped } :=
  ⟨hs.below, hs.nodup, fun held h => absurd h.symm (Option.some_ne_none held), hs.next⟩

theorem takeID (hs : s.Known) (halone : s.submitted = []) (cfg : C) :
    Known { s with submitted := s.submitted ++ [⟨BitVec.ofNat 32 s.jobCounter, cfg, none⟩] } := by
  refine ⟨hs.below, hs.nodup, hs.held, .inr ⟨cfg, ?_⟩⟩
  rw [halone]
  rfl

/-- The only job that is submitted is the first one, and has the ID that is next. -/
theorem submitted_eq (hs : s.Known) {k : ℕ} {job : Job C G} (h : s.submitted[k]? = some job) :
    s.submitted.eraseIdx k = [] ∧ ∃ cfg, job = ⟨BitVec.ofNat 32 s.jobCounter, cfg, none⟩ := by
  rcases hs.next with hnone | ⟨cfg, hone⟩
  · rw [hnone] at h
    exact absurd h.symm (Option.some_ne_none job)
  · rw [hone] at h ⊢
    cases k with
    | zero => exact ⟨rfl, cfg, (Option.some.inj h).symm⟩
    | succ k => exact absurd h.symm (Option.some_ne_none job)

theorem giveUp (hs : s.Known) (k : ℕ) : Known { s with submitted := s.submitted.eraseIdx k } := by
  refine ⟨hs.below, hs.nodup, hs.held, ?_⟩
  cases hk : s.submitted[k]? with
  | none =>
    dsimp only
    rw [List.eraseIdx_of_length_le (List.getElem?_eq_none_iff.1 hk)]
    exact hs.next
  | some job => exact .inl (hs.submitted_eq hk).1

theorem addJob (hs : s.Known) (hlt : s.jobCounter < 2 ^ 32) {k : ℕ} {job : Job C G} (h : s.submitted[k]? = some job) :
    Known { s with
      jobs := s.jobs ++ [job], submitted := s.submitted.eraseIdx k, jobCounter := s.jobCounter + 1 } := by
  obtain ⟨hnone, cfg, rfl⟩ := hs.submitted_eq h
  have hid : (BitVec.ofNat 32 s.jobCounter).toNat = s.jobCounter := by
    rw [BitVec.toNat_ofNat, Nat.mod_eq_of_lt hlt]
  refine ⟨fun job hjob => ?_, ?_, fun held hheld => ?_, .inl hnone⟩
  · rcases List.mem_append.1 hjob with hold | hnew
    · exact Nat.lt_succ_of_lt (hs.below job hold)
    · rw [List.mem_singleton] at hnew
      subst hnew
      dsimp only
      omega
  · rw [List.map_append, List.map_singleton, List.nodup_append]
    refine ⟨hs.nodup, List.nodup_singleton _, fun id hmem id' hnew heq => ?_⟩
    obtain ⟨job, hjob, rfl⟩ := List.mem_map.1 hmem
    rw [List.mem_singleton] at hnew
    have hlt := hs.below job hjob
    rw [heq, hnew, hid] at hlt
    exact Nat.lt_irrefl _ hlt
  · obtain ⟨hcame, hglobal, hsame⟩ := hs.held held hheld
    refine ⟨Nat.lt_succ_of_lt hcame, hglobal, fun job hjob heq => ?_⟩
    rcases List.mem_append.1 hjob with hold | hnew
    · exact hsame job hold heq
    · rw [List.mem_singleton] at hnew
      subst hnew
      rw [← heq, hid] at hcame
      exact absurd hcame (Nat.lt_irrefl _)

theorem preProcess (hs : s.Known) {k : ℕ} {job : Job C G} (hjob : s.jobs[k]? = some job) (g : G) :
    Known { s with jobs := s.jobs.set k { job with globalData := job.globalData.or (some g) } } := by
  have hmem := List.mem_of_getElem? hjob
  refine ⟨fun job' hjob' => ?_, ?_, fun held hheld => ?_, hs.next⟩
  · rcases List.mem_or_eq_of_mem_set hjob' with hold | rfl
    · exact hs.below job' hold
    · exact hs.below job hmem
  · rw [List.map_set]
    have hsame : (s.jobs.map Job.id)[k]? = some job.id := by rw [List.getElem?_map, hjob]; rfl
    obtain ⟨hlt, hget⟩ := List.getElem?_eq_some_iff.1 hsame
    dsimp only
    rw [← hget, List.set_getElem_self]
    exact hs.nodup
  · obtain ⟨hcame, hglobal, hsame⟩ := hs.held held hheld
    refine ⟨hcame, hglobal, fun job' hjob' heq => ?_⟩
    rcases List.mem_or_eq_of_mem_set hjob' with hold | rfl
    · exact hsame job' hold heq
    · -- the slave holds this job, so its global data are there
      obtain rfl := hsame job hmem heq
      obtain ⟨g', hg'⟩ := Option.isSome_iff_exists.1 hglobal
      rw [hg']
      cases job
      cases hg'
      rfl

theorem removeJob (hs : s.Known) (k : ℕ) : Known { s with jobs := s.jobs.eraseIdx k } := by
  have hsub := List.eraseIdx_sublist s.jobs k
  refine ⟨fun job hjob => hs.below job (hsub.subset hjob), hs.nodup.sublist (hsub.map _), fun held hheld => ?_, hs.next⟩
  obtain ⟨hcame, hglobal, hsame⟩ := hs.held held hheld
  exact ⟨hcame, hglobal, fun job hjob => hsame job (hsub.subset hjob)⟩

/-- Two jobs with one ID are the same. -/
theorem eq_of_id (hs : s.Known) {job job' : Job C G} (hjob : job ∈ s.jobs) (hjob' : job' ∈ s.jobs)
    (h : job.id = job'.id) : job = job' := List.inj_on_of_nodup_map hs.nodup hjob hjob' h

theorem getWork (hs : s.Known) {k : ℕ} {job held : Job C G} {part : P} (hjob : s.jobs[k]? = some job)
    (hheld : held = job ∧ held.globalData.isSome ∨ s.wip.job = some held) :
    Known { s with wip := ⟨some held, held.id, [part]⟩, handed := some (job, part) } := by
  refine ⟨hs.below, hs.nodup, fun held' hheld' => ?_, hs.next⟩
  obtain rfl := Option.some.inj hheld'
  rcases hheld with ⟨rfl, hglobal⟩ | hold
  · have hmem := List.mem_of_getElem? hjob
    exact ⟨hs.below _ hmem, hglobal, fun job' hjob' heq => hs.eq_of_id hjob' hmem heq⟩
  · exact hs.held _ hold

/-- **Without a restart, with one submission at a time and fewer jobs than IDs, no ID is misleading.** -/
theorem step (hs : s.Known) (hrestart : e ≠ .restart) (hlt : ∀ k, e = .addJob k → s.jobCounter < 2 ^ 32)
    (halone : Alone s e s') (h : s.step e = some s') : s'.Known ∧ Fresh s e s' := by
  cases e with
  | takeID cfg =>
    obtain rfl := Option.some.inj h
    exact ⟨hs.takeID halone cfg, trivial⟩
  | addJob k =>
    obtain ⟨job, hjob, rfl⟩ := Option.map_eq_some_iff.1 h
    exact ⟨hs.addJob (hlt k rfl) hjob, trivial⟩
  | giveUp k =>
    obtain rfl := Option.some.inj h
    exact ⟨hs.giveUp k, trivial⟩
  | preProcess k g =>
    obtain ⟨job, hjob, rfl⟩ := Option.map_eq_some_iff.1 h
    exact ⟨hs.preProcess hjob g, trivial⟩
  | removeJob k =>
    obtain rfl := Option.some.inj h
    exact ⟨hs.removeJob k, trivial⟩
  | restart => exact absurd rfl hrestart
  | start =>
    rw [System.step] at h
    split_ifs at h
    obtain rfl := Option.some.inj h
    exact ⟨hs.reset, trivial⟩
  | getWork k part =>
    cases k with
    | none =>
      rw [System.step] at h
      split_ifs at h
      obtain rfl := Option.some.inj h
      exact ⟨hs.reset, trivial⟩
    | some k =>
      obtain ⟨job, hjob, hcases⟩ := getWork_cases h
      refine ⟨?_, fun job' held hjob' hheld hid => ?_⟩
      · rcases hcases with ⟨rfl, -⟩ | ⟨held, rfl, hwork⟩
        · exact hs.reset
        · exact hs.getWork hjob (hwork.imp (fun hnew => ⟨hnew.1, hnew.2.1⟩) And.left)
      · exact ((hs.held held hheld).2.2 job' (List.mem_of_getElem? hjob') hid.symm).symm

theorem counter_eq (hrestart : e ≠ .restart) (h : s.step e = some s') :
    s'.jobCounter = s.jobCounter + countJobs [e] := by
  cases e with
  | takeID cfg =>
    obtain rfl := Option.some.inj h
    rfl
  | addJob k =>
    obtain ⟨job, -, rfl⟩ := Option.map_eq_some_iff.1 h
    rfl
  | giveUp k =>
    obtain rfl := Option.some.inj h
    rfl
  | preProcess k g =>
    obtain ⟨job, -, rfl⟩ := Option.map_eq_some_iff.1 h
    rfl
  | removeJob k =>
    obtain rfl := Option.some.inj h
    rfl
  | restart => exact absurd rfl hrestart
  | start =>
    rw [System.step] at h
    split_ifs at h
    obtain rfl := Option.some.inj h
    rfl
  | getWork k part =>
    cases k with
    | none =>
      rw [System.step] at h
      split_ifs at h
      obtain rfl := Option.some.inj h
      rfl
    | some k =>
      obtain ⟨job, -, ⟨rfl, -⟩ | ⟨held, rfl, -⟩⟩ := getWork_cases h
      · rfl
      · rfl

theorem fresh (hs : s.Known) (hrestart : .restart ∉ as) (hfew : s.jobCounter + countJobs as ≤ 2 ^ 32)
    (halone : Each System.step Alone s as) : Each System.step Fresh s as := by
  induction as generalizing s with
  | nil => trivial
  | cons e as ih =>
    rw [List.mem_cons, not_or] at hrestart
    intro s' hs'
    obtain ⟨hfirst, hrest⟩ := halone s' hs'
    have hcounter := counter_eq (Ne.symm hrestart.1) hs'
    have hsplit : countJobs (e :: as) = countJobs [e] + countJobs as := by
      rw [countJobs, ← List.singleton_append, List.countP_append]
      rfl
    have hlt : ∀ k, e = .addJob k → s.jobCounter < 2 ^ 32 := by
      rintro k rfl
      have hone : countJobs [(.addJob k : Event C G P)] = 1 := rfl
      omega
    obtain ⟨hnext, hfresh⟩ := hs.step (Ne.symm hrestart.1) hlt hfirst hs'
    exact ⟨hfresh, ih hnext hrestart.2 (by omega) hrest⟩

end Known

/-- **The slave computes with the right job** as long as the manager is not restarted and jobs are submitted one at a
time, with any number of jobs that come and go, turns that fail and starts of the slave; the counter of the manager has
32 bits in the ID. -/
theorem right_job (as : List (Event C G P)) (hrestart : .restart ∉ as) (hfew : countJobs as < 2 ^ 32)
    (halone : Each step Alone begin as) : Always step Right begin as := by
  refine (right_job_iff as).2 (known_begin.fresh hrestart ?_ halone)
  have hone : (begin : System C G P).jobCounter = 1 := rfl
  omega

end System

/-- Two jobs, and two pieces of work of the first. -/
def twoJobs : List (Event ℕ ℕ ℕ) :=
  [.takeID 5, .addJob 0, .preProcess 0 6, .takeID 7, .addJob 0, .start, .getWork (some 0) 1, .getWork (some 0) 2]

theorem twoJobs_alone : Each System.step System.Alone System.begin twoJobs := by
  simp [twoJobs, Each, System.step, System.Alone, System.begin]

theorem right_job_twoJobs : Always System.step System.Right System.begin twoJobs :=
  System.right_job twoJobs (by simp [twoJobs]) (by decide) twoJobs_alone

end Run

end Redux.SlaveJob
