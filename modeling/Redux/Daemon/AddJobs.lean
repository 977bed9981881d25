import Mathlib.Data.List.Nodup
import Redux.Momfbd.JobWire
import Redux.Momfbd.RegisterJob

/-!
# Daemon.AddJobs — a block of jobs that is submitted

`Daemon::addJobs` unpacks the jobs of a received block one by one and puts each into the queue at once.
A job whose log cannot be started is left out with a message; anything else that is thrown ends the
reading, and the queue is not sorted then.  The answer depends only on where the reading got to: at the
end of the block it is `CMD_OK` with the IDs, anywhere else `CMD_ERR`, whatever is in the queue by then.
`addJobs_eq` says what a call does in terms of the jobs that the block holds (`content`), and
`allOrNothing_iff` when that is all or nothing.
-/

namespace Redux.AddJobs

open Lib Job Momfbd

/-! ## The jobs of a block -/

/-- A registered class of jobs: `unpack` of it starts with the type string.  Nothing is unpacked if it
throws. -/
structure JobClass where
  unpack : Unpacker Info
  pos : ∀ {x p info n}, unpack x p = some (info, n) → 0 < n

/-- What comes of `startLog` and `printJobInfo`: no directory for the output and no file for the log are
a `job_error`, while the file system may throw as well. -/
inductive Started
  | ok
  | job_error (message : Str)
  | exception
  deriving DecidableEq

/-- What a call finds: the job classes by their tags, the file system at the log of the `k`-th job, the
time, and how far a string may reach. -/
structure Context where
  newJob : Str → Option JobClass
  startLog : ℕ → Started
  now : PTime
  fuel : ℕ

/-- The job at `p` by its tag, `none` for `Unrecognized Job tag` and for a class that throws. -/
def Context.jobAt (cx : Context) (x : Buf) (p : ℕ) : Option (Info × ℕ) := do
  let (tag, _) ← unpackString cx.fuel x p
  let job ← cx.newJob tag
  job.unpack x p

/-! ## The queue -/

/-- `JSTEP_SUBMIT`. -/
def stepSubmit : BitVec 16 := 0

/-- `Job::CHECKED`. -/
def checked : BitVec 16 := 1

/-- `Daemon::jobs` and `Daemon::jobCounter`. -/
structure Queue where
  jobs : List Info
  jobCounter : BitVec 64
  deriving DecidableEq

/-- Text as bytes. -/
def bytes (s : List Char) : Str := s.map fun c => BitVec.ofNat 8 c.toNat

/-- The job with its ID, its names, its step and the time of its submission. -/
def submitted (now : PTime) (jobCounter : BitVec 64) (info : Info) : Info :=
  let id := jobCounter.setWidth 32
  let name := if info.name = [] then bytes ("job_".toList ++ Nat.toDigits 10 id.toNat) else info.name
  { info with
    id := id
    name := name
    logFile := if info.logFile = [] then name ++ bytes ".log".toList else info.logFile
    step := if info.flags &&& checked = 0 then stepSubmit else info.step
    submitTime := now }

/-- The order of the queue: the higher priority first, then the higher step, then the lower ID. -/
def before (a b : Info) : Bool :=
  if a.priority ≠ b.priority then decide (b.priority < a.priority)
  else if a.step ≠ b.step then decide (b.step < a.step)
  else decide (a.id < b.id)

/-- `std::sort( jobs.begin(), jobs.end(), .. )`. -/
def sortJobs (jobs : List Info) : List Info := jobs.mergeSort fun a b => !before b a

/-- No job is before one that it stands behind. -/
def Ordered (jobs : List Info) : Prop := jobs.Pairwise fun a b => before b a = false

instance (jobs : List Info) : Decidable (Ordered jobs) := inferInstanceAs (Decidable (List.Pairwise _ _))

/-! ## The call -/

/-- The variables of the loop. -/
structure Vars where
  queue : Queue
  count : ℕ
  nJobs : ℕ
  ids : List (BitVec 64)
  messages : List Str

/-- `while( count < blockSize )`, for at most so many rounds; also whether an exception has left it. -/
def parseJobs (cx : Context) (x : Buf) (blockSize : ℕ) : ℕ → Vars → Bool × Vars
  | 0, v => (false, v)
  | rounds + 1, v =>
    if v.count < blockSize then
      match cx.jobAt x v.count with
      | none => (true, v)
      | some (info, n) =>
        let v := { v with count := v.count + n, nJobs := v.nJobs + 1 }
        match cx.startLog (v.nJobs - 1) with
        | .ok =>
          let job := submitted cx.now v.queue.jobCounter info
          parseJobs cx x blockSize rounds
            { v with
              ids := v.ids ++ [job.id.setWidth 64]
              queue := ⟨v.queue.jobs ++ [job], v.queue.jobCounter + 1⟩ }
        | .job_error message => parseJobs cx x blockSize rounds { v with messages := v.messages ++ [message] }
        | .exception => (true, v)
    else (false, v)

/-- The answer to the client. -/
inductive Reply
  | CMD_ERR (messages : List Str)
  | CMD_OK (ids : List (BitVec 64)) (messages : List Str)
  deriving DecidableEq

/-- `addJobs`, with a block of `blockSize` bytes. -/
def addJobs (cx : Context) (x : Buf) (blockSize : ℕ) (queue : Queue) : Reply × Queue :=
  if blockSize = 0 then (.CMD_ERR [], queue) else
    let (threw, v) := parseJobs cx x blockSize blockSize ⟨queue, 0, 0, [], []⟩
    let queue := if threw then v.queue else ⟨sortJobs v.queue.jobs, v.queue.jobCounter⟩
    if v.count = blockSize then (.CMD_OK (BitVec.ofNat 64 v.ids.length :: v.ids) v.messages, queue)
    else (.CMD_ERR v.messages, queue)

/-! ## What a block holds -/

/-- The jobs of a block whose logs are started, as they are packed, where the reading gets to, and whether
it is an exception that ends it there. -/
structure Content where
  accepted : List Info
  count : ℕ
  threw : Bool
  messages : List Str

/-- The jobs from `p` on, of which `k` have come before. -/
def contentFrom (cx : Context) (x : Buf) (blockSize : ℕ) : ℕ → ℕ → ℕ → Content
  | 0, p, _ => ⟨[], p, false, []⟩
  | rounds + 1, p, k =>
    if p < blockSize then
      match cx.jobAt x p with
      | none => ⟨[], p, true, []⟩
      | some (info, n) =>
        let rest := contentFrom cx x blockSize rounds (p + n) (k + 1)
        match cx.startLog k with
        | .ok => { rest with accepted := info :: rest.accepted }
        | .job_error message => { rest with messages := message :: rest.messages }
        | .exception => ⟨[], p + n, true, []⟩
    else ⟨[], p, false, []⟩

def content (cx : Context) (x : Buf) (blockSize : ℕ) : Content := contentFrom cx x blockSize blockSize 0 0

/-- The jobs with consecutive IDs. -/
def numbered (now : PTime) : BitVec 64 → List Info → List Info
  | _, [] => []
  | jobCounter, info :: infos => submitted now jobCounter info :: numbered now (jobCounter + 1) infos

section Call

variable {cx : Context} {x : Buf} {blockSize rounds : ℕ} {queue : Queue}

@[simp] theorem numbered_length (now : PTime) : ∀ (jobCounter : BitVec 64) (infos : List Info),
    (numbered now jobCounter infos).length = infos.length
  | _, [] => rfl
  | jobCounter, _ :: infos => congrArg (· + 1) (numbered_length now (jobCounter + 1) infos)

/-- What the loop has done to its variables. -/
theorem parseJobs_eq : ∀ {rounds : ℕ} {v : Vars},
    let c := contentFrom cx x blockSize rounds v.count v.nJobs
    let accepted := numbered cx.now v.queue.jobCounter c.accepted
    let r := parseJobs cx x blockSize rounds v
    r.1 = c.threw ∧ r.2.count = c.count ∧ r.2.messages = v.messages ++ c.messages ∧
      r.2.ids = v.ids ++ accepted.map (fun job => job.id.setWidth 64) ∧
      r.2.queue = ⟨v.queue.jobs ++ accepted, v.queue.jobCounter + BitVec.ofNat 64 c.accepted.length⟩
  | 0, v => by simp [contentFrom, parseJobs, numbered]
  | rounds + 1, v => by
    unfold contentFrom parseJobs
    by_cases hp : v.count < blockSize
    · simp only [if_pos hp]
      cases hjob : cx.jobAt x v.count with
      | none => simp [numbered]
      | some job =>
        obtain ⟨info, n⟩ := job
        dsimp only
        rw [Nat.add_sub_cancel]
        cases hlog : cx.startLog v.nJobs with
        | ok =>
          obtain ⟨hthrew, hcount, hmessages, hids, hqueue⟩ := @parseJobs_eq rounds
            ⟨⟨v.queue.jobs ++ [submitted cx.now v.queue.jobCounter info], v.queue.jobCounter + 1⟩, v.count + n,
              v.nJobs + 1, v.ids ++ [(submitted cx.now v.queue.jobCounter info).id.setWidth 64], v.messages⟩
          refine ⟨hthrew, hcount, hmessages, ?_, ?_⟩
          · rw [hids, List.append_assoc]
            rfl
          · rw [hqueue, numbered, List.append_assoc]
            refine congrArg (Queue.mk _) ?_
            rw [List.length_cons, BitVec.add_assoc, BitVec.ofNat_add, BitVec.add_comm (1 : BitVec 64)]
            rfl
        | job_error message =>
          obtain ⟨hthrew, hcount, hmessages, hids, hqueue⟩ := @parseJobs_eq rounds
            ⟨v.queue, v.count + n, v.nJobs + 1, v.ids, v.messages ++ [message]⟩
          refine ⟨hthrew, hcount, ?_, hids, hqueue⟩
          rw [hmessages, List.append_assoc]
          rfl
        | exception => simp [numbered]
    · simp [if_neg hp, numbered]

/-- **What a call does**, in terms of the jobs that the block holds. -/
theorem addJobs_eq (hsize : blockSize ≠ 0) :
    let c := content cx x blockSize
    let accepted := numbered cx.now queue.jobCounter c.accepted
    addJobs cx x blockSize queue =
      (if c.count = blockSize then
        .CMD_OK (BitVec.ofNat 64 accepted.length :: accepted.map fun job => job.id.setWidth 64) c.messages
      else .CMD_ERR c.messages,
      ⟨if c.threw then queue.jobs ++ accepted else sortJobs (queue.jobs ++ accepted),
        queue.jobCounter + BitVec.ofNat 64 accepted.length⟩) := by
  obtain ⟨hthrew, hcount, hmessages, hids, hqueue⟩ :=
    @parseJobs_eq cx x blockSize blockSize ⟨queue, 0, 0, [], []⟩
  dsimp only at hthrew hcount hmessages hids hqueue ⊢
  rw [addJobs, if_neg hsize]
  dsimp only
  rw [hthrew, hcount, hmessages, hids, hqueue, List.nil_append, List.nil_append]
  simp only [List.length_map, numbered_length]
  unfold content
  split_ifs <;> rfl

end Call

/-! ## The order -/

section Order

variable {a b c : Info} {jobs : List Info}

theorem not_before_iff : before b a = false ↔ b.priority.toNat < a.priority.toNat ∨
    a.priority.toNat = b.priority.toNat ∧ (b.step.toNat < a.step.toNat ∨
      a.step.toNat = b.step.toNat ∧ a.id.toNat ≤ b.id.toNat) := by
  unfold before
  by_cases hpriority : b.priority = a.priority
  · rw [if_neg (not_not.2 hpriority), hpriority]
    by_cases hstep : b.step = a.step
    · rw [if_neg (not_not.2 hstep), hstep, decide_eq_false_iff_not, BitVec.lt_def]
      omega
    · have hne := BitVec.toNat_ne.1 hstep
      rw [if_pos hstep, decide_eq_false_iff_not, BitVec.lt_def]
      omega
  · have hne := BitVec.toNat_ne.1 hpriority
    rw [if_pos hpriority, decide_eq_false_iff_not, BitVec.lt_def]
    omega

theorem not_before_trans (hab : before b a = false) (hbc : before c b = false) : before c a = false := by
  rw [not_before_iff] at *
  omega

theorem not_before_total (a b : Info) : before b a = false ∨ before a b = false := by
  rw [not_before_iff, not_before_iff]
  omega

theorem sortJobs_perm (jobs : List Info) : (sortJobs jobs).Perm jobs := List.mergeSort_perm _ _

theorem sortJobs_ordered (jobs : List Info) : Ordered (sortJobs jobs) := by
  have hsorted := @List.pairwise_mergeSort _ (fun a b : Info => !before b a)
    (fun a b c hab hbc => by
      rw [Bool.not_eq_true'] at *
      exact not_before_trans hab hbc)
    (fun a b => by
      rw [Bool.or_eq_true, Bool.not_eq_true', Bool.not_eq_true']
      exact not_before_total a b) jobs
  exact hsorted.imp fun h => Bool.not_eq_true' _ ▸ h

/-- Sorting leaves what is in order as it is, and nothing else. -/
theorem sortJobs_eq_iff : sortJobs jobs = jobs ↔ Ordered jobs := by
  constructor
  · intro h
    rw [← h]
    exact sortJobs_ordered jobs
  · intro h
    exact List.mergeSort_of_pairwise (h.imp fun hab => by rw [hab]; rfl)

end Order

/-! ## All or nothing -/

section Submission

variable {cx : Context} {x : Buf} {blockSize : ℕ} {queue : Queue}

/-- After `CMD_ERR` the queue and the counter are as before.  After `CMD_OK` the queue has the previous jobs
and the accepted ones, whose IDs are returned and are all distinct, in its order. -/
def AllOrNothing (cx : Context) (x : Buf) (blockSize : ℕ) (queue : Queue) : Prop :=
  match addJobs cx x blockSize queue with
  | (.CMD_ERR _, queue') => queue' = queue
  | (.CMD_OK ids _, queue') =>
    let accepted := numbered cx.now queue.jobCounter (content cx x blockSize).accepted
    queue'.jobs.Perm (queue.jobs ++ accepted) ∧
      ids = BitVec.ofNat 64 accepted.length :: accepted.map (fun job => job.id.setWidth 64) ∧
      (accepted.map Info.id).Nodup ∧ Ordered queue'.jobs

/-- The block is empty; or it is read exactly to its end, no more than `2 ^ 32` of its jobs are accepted,
and they come in order behind the queue if it is an exception that ends the reading there; or the reading
gets anywhere else with no job accepted, and the queue is in order if it gets behind the end. -/
def Clean (cx : Context) (x : Buf) (blockSize : ℕ) (queue : Queue) : Prop :=
  let c := content cx x blockSize
  blockSize = 0 ∨
    (c.count = blockSize ∧ c.accepted.length ≤ 2 ^ 32 ∧
      (c.threw = true → Ordered (queue.jobs ++ numbered cx.now queue.jobCounter c.accepted))) ∨
    (c.count ≠ blockSize ∧ c.accepted = [] ∧ (c.threw = false → Ordered queue.jobs))

theorem numbered_ids (now : PTime) : ∀ (jobCounter : BitVec 64) (infos : List Info),
    (numbered now jobCounter infos).map (fun job => job.id.toNat) =
      (List.range infos.length).map fun i => (jobCounter.toNat + i) % 2 ^ 32
  | _, [] => rfl
  | jobCounter, info :: infos => by
    rw [numbered, List.map_cons, numbered_ids, List.length_cons, List.range_succ_eq_map, List.map_cons, List.map_map]
    refine congrArg₂ List.cons ?_ (List.map_congr_left fun i _ => ?_)
    · rw [submitted, BitVec.toNat_setWidth, Nat.add_zero]
    · rw [Function.comp, BitVec.toNat_add]
      show ((jobCounter.toNat + 1) % 2 ^ 64 + i) % 2 ^ 32 = (jobCounter.toNat + (i + 1)) % 2 ^ 32
      omega

/-- IDs of 32 bits are distinct as long as there are enough of them. -/
theorem numbered_nodup_iff (now : PTime) (jobCounter : BitVec 64) (infos : List Info) :
    ((numbered now jobCounter infos).map Info.id).Nodup ↔ infos.length ≤ 2 ^ 32 := by
  have hinj : ((numbered now jobCounter infos).map Info.id).Nodup ↔
      ((numbered now jobCounter infos).map fun job => job.id.toNat).Nodup := by
    have hmap : (numbered now jobCounter infos).map (fun job => job.id.toNat) =
        ((numbered now jobCounter infos).map Info.id).map BitVec.toNat := by rw [List.map_map]; rfl
    rw [hmap, List.nodup_map_iff fun _ _ => BitVec.eq_of_toNat_eq]
  rw [hinj, numbered_ids]
  constructor
  · intro h
    by_contra hlen
    have heq := (List.inj_on_of_nodup_map h) (List.mem_range.2 (by omega : 0 < infos.length))
      (List.mem_range.2 (by omega : 2 ^ 32 < infos.length)) (by omega)
    omega
  · intro hlen
    refine List.Nodup.map_on (fun i hi j hj hij => ?_) List.nodup_range
    rw [List.mem_range] at hi hj
    omega

/-- The jobs are sorted after a call, unless an exception has left them as they came. -/
theorem ordered_after_iff {jobs : List Info} {threw : Bool} :
    (if threw then jobs else sortJobs jobs).Perm jobs ∧ Ordered (if threw then jobs else sortJobs jobs) ↔
      (threw = true → Ordered jobs) := by
  cases threw with
  | true =>
    simp only [if_true]
    exact ⟨fun h _ => h.2, fun h => ⟨.refl _, h trivial⟩⟩
  | false =>
    simp only [Bool.false_eq_true, if_false]
    exact ⟨fun _ => nofun, fun _ => ⟨sortJobs_perm _, sortJobs_ordered _⟩⟩

/-- The queue is as before exactly if there are no jobs to put into it, and the sorting leaves it as it is. -/
theorem queue_kept_iff {now : PTime} {infos : List Info} {threw : Bool} :
    (⟨if threw then queue.jobs ++ numbered now queue.jobCounter infos
        else sortJobs (queue.jobs ++ numbered now queue.jobCounter infos),
      queue.jobCounter + BitVec.ofNat 64 (numbered now queue.jobCounter infos).length⟩ : Queue) = queue ↔
      infos = [] ∧ (threw = false → Ordered queue.jobs) := by
  constructor
  · intro heq
    have hjobs := congrArg Queue.jobs heq
    dsimp only at hjobs
    have hlen := congrArg List.length hjobs
    have hnone : infos = [] := by
      rw [apply_ite List.length, (sortJobs_perm _).length_eq, ite_self, List.length_append, numbered_length] at hlen
      exact List.length_eq_zero_iff.1 (by omega)
    refine ⟨hnone, fun hthrew => sortJobs_eq_iff.1 ?_⟩
    rwa [hnone, numbered, List.append_nil, hthrew, if_neg Bool.false_ne_true] at hjobs
  · rintro ⟨hnone, hordered⟩
    rw [hnone, numbered, List.append_nil, List.length_nil, BitVec.add_zero]
    cases threw with
    | true => rfl
    | false => rw [if_neg Bool.false_ne_true, sortJobs_eq_iff.2 (hordered rfl)]

/-- **A submission is all or nothing** exactly if the block is clean. -/
theorem allOrNothing_iff (cx : Context) (x : Buf) (blockSize : ℕ) (queue : Queue) :
    AllOrNothing cx x blockSize queue ↔ Clean cx x blockSize queue := by
  unfold AllOrNothing Clean
  by_cases hsize : blockSize = 0
  · rw [addJobs, if_pos hsize]
    exact ⟨fun _ => .inl hsize, fun _ => rfl⟩
  rw [addJobs_eq hsize]
  dsimp only
  generalize content cx x blockSize = c
  by_cases hcount : c.count = blockSize
  · simp only [if_pos hcount]
    constructor
    · rintro ⟨hperm, -, hdistinct, hordered⟩
      exact .inr (.inl ⟨hcount, (numbered_nodup_iff _ _ _).1 hdistinct, ordered_after_iff.1 ⟨hperm, hordered⟩⟩)
    · rintro (h | ⟨-, hlen, hordered⟩ | ⟨h, -⟩)
      · exact absurd h hsize
      · obtain ⟨hperm, hsorted⟩ := ordered_after_iff.2 hordered
        exact ⟨hperm, trivial, (numbered_nodup_iff _ _ _).2 hlen, hsorted⟩
      · exact absurd hcount h
  · simp only [if_neg hcount]
    rw [queue_kept_iff]
    constructor
    · exact fun h => .inr (.inr ⟨hcount, h⟩)
    · rintro (h | ⟨h, -⟩ | ⟨-, h⟩)
      · exact absurd h hsize
      · exact absurd h hcount
      · exact h

end Submission

/-! ## A block with one byte too many -/

/-- What is read after the first bytes does not make them fewer. -/
theorem next_pos {α β : Type} {u : Unpacker α} {k : α → Unpacker β} {x : Buf} {p : ℕ} {b : β} {n : ℕ}
    (hu : ∀ a m, u x p = some (a, m) → 0 < m) (h : u.next k x p = some (b, n)) : 0 < n := by
  rw [Unpacker.next] at h
  obtain ⟨⟨a, m⟩, hr, h⟩ := Option.bind_eq_some_iff.1 h
  obtain ⟨s, -, hs⟩ := Option.map_eq_some_iff.1 h
  have hn : m + s.2 = n := congrArg Prod.snd hs
  have := hu a m hr
  omega

theorem unpackString_pos {fuel : ℕ} {x : Buf} {p : ℕ} {s : Str} {n : ℕ}
    (h : unpackString fuel x p = some (s, n)) : 0 < n := by
  rw [unpackString] at h
  obtain ⟨len, -, heq⟩ := Option.map_eq_some_iff.1 h
  have hn : len + 1 = n := congrArg Prod.snd heq
  omega

theorem info_unpack_pos {swap_endian : Bool} {now : BitVec 64} {fuel : ℕ} {x : Buf} {p : ℕ} {info : Info} {n : ℕ}
    (h : Info.unpack swap_endian now fuel x p = some (info, n)) : 0 < n := by
  rw [Info.unpack] at h
  exact next_pos (fun _ _ => unpackString_pos) h

theorem momfbd_unpack_pos {swap_endian : Bool} {now : BitVec 64} {fuel : ℕ} {x : Buf} {p : ℕ} {info : Info}
    {n : ℕ} (h : MomfbdJob.unpack swap_endian now fuel x p = some (info, n)) : 0 < n := by
  rw [MomfbdJob.unpack] at h
  exact next_pos (fun _ _ => info_unpack_pos) h

/-- `MomfbdJob`. -/
def momfbdJob (swap_endian : Bool) (now : BitVec 64) (fuel : ℕ) : JobClass :=
  ⟨MomfbdJob.unpack swap_endian now fuel, momfbd_unpack_pos⟩

/-- A string as the map of job types has it. -/
def tagOf (s : Str) : List (Fin 256) := s.map BitVec.toFin

/-- `Job::getMap()` once `MomfbdJob::jobType` is initialized: there is no other call of `registerJob`. -/
def getMap (swap_endian : Bool) (now : BitVec 64) (fuel : ℕ) : Registry JobClass :=
  (Registry.start.registerJob (tagOf (bytes "momfbd".toList)) (momfbdJob swap_endian now fuel)).2

/-- `Job::newJob`. -/
def newJob (swap_endian : Bool) (now : BitVec 64) (fuel : ℕ) (name : Str) : Option JobClass :=
  ((getMap swap_endian now fuel).map (to_upper_copy (tagOf name))).map Prod.snd

/-- A daemon that can start every log, with a client of its own byte order. -/
def daemonContext : Context where
  newJob := newJob false 0 128
  startLog _ := .ok
  now := none
  fuel := 128

/-- The job is the one that its tag stands for. -/
theorem jobAt_eq {cx : Context} {x : Buf} {p : ℕ} {tag : Str} {n : ℕ}
    (h : unpackString cx.fuel x p = some (tag, n)) :
    cx.jobAt x p = (cx.newJob tag).bind fun job => job.unpack x p := by
  rw [Context.jobAt, h]
  rfl

/-- A job without a name. -/
def oneInfo : Info := { Info.sample 0 with typeString := bytes "momfbd".toList }

/-- The bytes of a job that has nothing but defaults. -/
def oneJobBytes : List (BitVec 8) := jobBytes oneInfo (fun _ => .replicate 7 0) (Config.sample [])

/-- The job in memory; behind it there are zeros. -/
def oneJob : Buf := writeBytes (fun _ => 0) 0 oneJobBytes

theorem oneInfo_sendable : oneInfo.Sendable 0 where
  nulFree := by simp [oneInfo, Info.sample, Info.strings, bytes]
  past := by simp [oneInfo, Info.sample, Info.timestamps]

theorem oneInfo_size : oneInfo.size = 84 := by decide

theorem oneJobBytes_length : oneJobBytes.length = 418 := by
  have hsize : (Config.sample []).size = 320 := by decide
  rw [oneJobBytes, jobBytes_length, oneInfo_size, hsize]

/-- The only type of jobs that there is. -/
theorem newJob_momfbd : newJob false 0 128 oneInfo.typeString = some (momfbdJob false 0 128) := rfl

theorem newJob_empty : newJob false 0 128 [] = none := rfl

theorem oneJob_behind {k : ℕ} (h : 418 ≤ k) : oneJob k = 0 :=
  writeBytes_of_ge (by rwa [Nat.zero_add, oneJobBytes_length])

theorem jobAt_first : daemonContext.jobAt oneJob 0 = some (oneInfo, 418) := by
  have hreads : Reads oneJob 0 oneJobBytes := reads_writeBytes
  have hsplit : oneJobBytes = stringBytes oneInfo.typeString ++ (((oneInfo.fieldBytes false).drop 1).flatten ++
      ((Config.sample []).bytes false (fun _ => .replicate 7 0) ++ List.replicate 14 0)) := rfl
  have htag : unpackString 128 oneJob 0 = some (oneInfo.typeString, 7) := by
    refine unpacks_string (oneInfo_sendable.nulFree _ List.mem_cons_self) (by decide) oneJob 0 ?_
    rw [hsplit] at hreads
    exact (reads_append.1 hreads).1
  have hsendable := @Config.sample_sendable [] (by decide)
  have hjob := @unpacks_job oneInfo 0 (fun _ => .replicate 7 0) (Config.sample []) 128 oneInfo_sendable
    (by rw [oneInfo_size]; decide) hsendable (by decide) oneJob 0 hreads
  have hlen := oneJobBytes_length
  rw [oneJobBytes] at hlen
  rw [hlen] at hjob
  have hnew : daemonContext.newJob = newJob false 0 128 := rfl
  have hunpack : (momfbdJob false 0 128).unpack = MomfbdJob.unpack false 0 128 := rfl
  rw [@jobAt_eq daemonContext _ _ _ _ htag, hnew, newJob_momfbd, Option.bind_some, hunpack, hjob]

theorem jobAt_second : daemonContext.jobAt oneJob 418 = none := by
  have htag : unpackString 128 oneJob 418 = some ([], 1) := by
    rw [unpackString, strlen, if_pos (oneJob_behind (Nat.le_refl _))]
    rfl
  have hnew : daemonContext.newJob = newJob false 0 128 := rfl
  rw [@jobAt_eq daemonContext _ _ _ _ htag, hnew, newJob_empty, Option.bind_none]

/-- The job is accepted before the byte behind it is looked at. -/
theorem content_oneJob : content daemonContext oneJob 419 = ⟨[oneInfo], 418, true, []⟩ := by
  rw [content, contentFrom, if_pos (by decide), jobAt_first]
  dsimp only
  rw [contentFrom, Nat.zero_add, if_pos (by decide), jobAt_second]
  rfl

/-- One byte too many: the client is told that nothing was submitted, and the job is in the queue. -/
theorem submission_left_behind : (addJobs daemonContext oneJob 419 ⟨[], 1⟩).1 = .CMD_ERR [] ∧
    (addJobs daemonContext oneJob 419 ⟨[], 1⟩).2.jobs.length = 1 ∧
    ¬AllOrNothing daemonContext oneJob 419 ⟨[], 1⟩ := by
  have hcall := @addJobs_eq daemonContext oneJob 419 ⟨[], 1⟩ (by decide)
  rw [content_oneJob] at hcall
  rw [AllOrNothing, hcall]
  refine ⟨rfl, rfl, fun h => ?_⟩
  exact absurd (congrArg (fun queue => queue.jobs.length) h) (by decide)

end Redux.AddJobs
