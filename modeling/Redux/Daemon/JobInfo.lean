import Redux.Lib.Wire

/-!
# Daemon.JobInfo — sending the description of a job

`Job::Info::pack`, `unpack` and `size`.  The receiver is told whether the sender has the other byte
order, and swaps the id and the three timestamps then.  It does not swap the timeout, the number of
threads, the flags and the step, which come back only where that makes no difference.
-/

namespace Redux.Job

open Redux.Lib

/-- `RDX_JOB_PROGSTRING_LENGTH`. -/
abbrev progStringLength : ℕ := 30

/-- A string of the standard library: any bytes. -/
abbrev Str := List (BitVec 8)

/-- A `ptime` in seconds since the epoch; `none` is `not_a_date_time`. -/
abbrev PTime := Option ℤ

/-- `to_time_t`. -/
def to_time_t : PTime → BitVec 64
  | none => -1
  | some t => BitVec.ofInt 64 t

/-- `Job::Info`: what is sent of it. -/
structure Info where
  id : BitVec 32
  timeout : BitVec 32
  priority : BitVec 8
  verbosity : BitVec 8
  maxPartRetries : BitVec 8
  maxThreads : BitVec 16
  flags : BitVec 16
  step : BitVec 16
  state : BitVec 8
  typeString : Str
  name : Str
  user : Str
  host : Str
  logFile : Str
  outputDir : Str
  progressString : Vector (BitVec 8) progStringLength
  submitTime : PTime
  startedTime : PTime
  completedTime : PTime
  deriving DecidableEq

namespace Info

def size (info : Info) : ℕ :=
  let fixed_sz := 2 * 4 + 3 * 2 + 4 + 3 * 8 + progStringLength + 6
  let sz := fixed_sz + info.typeString.length + info.name.length + info.user.length + info.host.length
  sz + info.logFile.length + info.outputDir.length

/-- `pack`, on a machine of the receiver's byte order or, `reversed`, of the other one. -/
def pack (reversed : Bool) (info : Info) : Packer :=
  Packer.all
    [packString info.typeString, packNumber reversed info.id, packNumber reversed info.timeout,
      packNumber reversed info.priority, packNumber reversed info.verbosity,
      packNumber reversed info.maxThreads, packNumber reversed info.flags,
      packNumber reversed info.maxPartRetries, packNumber reversed info.step,
      packNumber reversed info.state, packString info.name, packString info.user, packString info.host,
      packArray info.progressString, packString info.logFile, packString info.outputDir,
      packNumber reversed (to_time_t info.submitTime), packNumber reversed (to_time_t info.startedTime),
      packNumber reversed (to_time_t info.completedTime)]

/-- A timestamp that is not in the future, else none. -/
def unpackTime (swap_endian : Bool) (now : BitVec 64) : Unpacker PTime :=
  (unpackNumber 64 swap_endian).next fun timestamp =>
    .pure (if 0 < timestamp.toInt ∧ timestamp.toInt ≤ now.toInt then some timestamp.toInt else none)

/-- `unpack` at the time `now`; a string ends within `fuel` bytes. -/
def unpack (swap_endian : Bool) (now : BitVec 64) (fuel : ℕ) : Unpacker Info :=
  (unpackString fuel).next fun typeString =>
  (unpackNumber 32 swap_endian).next fun id =>
  (unpackNumber 32 false).next fun timeout =>
  (unpackNumber 8 false).next fun priority =>
  (unpackNumber 8 false).next fun verbosity =>
  (unpackNumber 16 false).next fun maxThreads =>
  (unpackNumber 16 false).next fun flags =>
  (unpackNumber 8 false).next fun maxPartRetries =>
  (unpackNumber 16 false).next fun step =>
  (unpackNumber 8 false).next fun state =>
  (unpackString fuel).next fun name =>
  (unpackString fuel).next fun user =>
  (unpackString fuel).next fun host =>
  (unpackArray progStringLength).next fun progressString =>
  (unpackString fuel).next fun logFile =>
  (unpackString fuel).next fun outputDir =>
  (unpackTime swap_endian now).next fun submitTime =>
  (unpackTime swap_endian now).next fun startedTime =>
  (unpackTime swap_endian now).next fun completedTime =>
  .pure ⟨id, timeout, priority, verbosity, maxPartRetries, maxThreads, flags, step, state, typeString, name,
    user, host, logFile, outputDir, progressString, submitTime, startedTime, completedTime⟩

/-- The strings of the info. -/
def strings (info : Info) : List Str :=
  [info.typeString, info.name, info.user, info.host, info.logFile, info.outputDir]

/-- The timestamps of the info. -/
def timestamps (info : Info) : List PTime := [info.submitTime, info.startedTime, info.completedTime]

/-- What can be sent: no string has a zero in it, and no time that is set is in the future. -/
structure Sendable (info : Info) (now : BitVec 64) : Prop where
  nulFree : ∀ s ∈ info.strings, ∀ c ∈ s, c ≠ 0
  past : ∀ t ∈ info.timestamps, ∀ sec ∈ t, 0 < sec ∧ sec ≤ now.toInt

/-- The info gets across from a machine of the other byte order, or of the same one. -/
def Transfers (info : Info) (swap_endian : Bool) (now : BitVec 64) : Prop :=
  ∀ x p fuel, info.size ≤ fuel →
    (info.pack swap_endian x p).2 = info.size ∧
    unpack swap_endian now fuel (info.pack swap_endian x p).1 p = some (info, info.size)

/-! ## What is sent -/

/-- The bytes of the info, field by field. -/
def fieldBytes (reversed : Bool) (info : Info) : List (List (BitVec 8)) :=
  [stringBytes info.typeString, leBytes 4 (inOrder reversed info.id).toNat,
    leBytes 4 (inOrder reversed info.timeout).toNat, leBytes 1 (inOrder reversed info.priority).toNat,
    leBytes 1 (inOrder reversed info.verbosity).toNat, leBytes 2 (inOrder reversed info.maxThreads).toNat,
    leBytes 2 (inOrder reversed info.flags).toNat, leBytes 1 (inOrder reversed info.maxPartRetries).toNat,
    leBytes 2 (inOrder reversed info.step).toNat, leBytes 1 (inOrder reversed info.state).toNat,
    stringBytes info.name, stringBytes info.user, stringBytes info.host, info.progressString.toList,
    stringBytes info.logFile, stringBytes info.outputDir,
    leBytes 8 (inOrder reversed (to_time_t info.submitTime)).toNat,
    leBytes 8 (inOrder reversed (to_time_t info.startedTime)).toNat,
    leBytes 8 (inOrder reversed (to_time_t info.completedTime)).toNat]

/-- What the receiver makes of it: some of the numbers are left as they come. -/
def received (reversed : Bool) (info : Info) : Info :=
  { info with
    timeout := inOrder reversed info.timeout
    maxThreads := inOrder reversed info.maxThreads
    flags := inOrder reversed info.flags
    step := inOrder reversed info.step }

section Transfer

variable {info : Info} {now : BitVec 64} {swap : Bool} {fuel : ℕ}

theorem packs_info : Packs (info.pack swap) (.only (info.fieldBytes swap).flatten) := by
  apply packs_sequence
  repeat' apply List.Forall₂.cons
  all_goals first
    | exact packs_string _
    | exact packs_number swap _
    | exact packs_array _
    | exact .nil

/-- The size is that of the bytes. -/
theorem fieldBytes_length : (info.fieldBytes swap).flatten.length = info.size := by
  simp only [fieldBytes, List.flatten_cons, List.flatten_nil, List.length_append, stringBytes_length,
    leBytes_length, Vector.length_toList, List.length_nil, size]
  omega

theorem unpacks_time {t : PTime} (h : ∀ sec ∈ t, 0 < sec ∧ sec ≤ now.toInt) :
    Unpacks (unpackTime swap now) (leBytes 8 (inOrder swap (to_time_t t)).toNat) t := by
  refine (unpacks_number (by decide) swap swap (to_time_t t)).last ?_
  rw [inOrder_inOrder (by decide)]
  cases t with
  | none => exact unpacks_pure
  | some sec =>
    obtain ⟨hpos, hnow⟩ := h sec rfl
    have hlt := now.toInt_lt
    have hsec : (to_time_t (some sec)).toInt = sec := by
      rw [to_time_t, BitVec.toInt_ofInt, Int.bmod_eq_of_le] <;> omega
    rw [hsec, if_pos ⟨hpos, hnow⟩]
    exact unpacks_pure

/-- What the receiver takes off the bytes. -/
theorem unpacks_info (hinfo : info.Sendable now) (hfuel : info.size ≤ fuel) :
    Unpacks (unpack swap now fuel) (info.fieldBytes swap).flatten (info.received swap) := by
  have hstring : ∀ s ∈ info.strings, Unpacks (unpackString fuel) (stringBytes s) s := by
    intro s hs
    apply unpacks_string (hinfo.nulFree s hs)
    simp only [strings, List.mem_cons, List.not_mem_nil, or_false] at hs
    simp only [size] at hfuel
    rcases hs with rfl | rfl | rfl | rfl | rfl | rfl <;> omega
  have hbyte (v : BitVec 8) : Unpacks (unpackNumber 8 false) (leBytes 1 (inOrder swap v).toNat) v := by
    rw [inOrder_byte]
    exact unpacks_number (by decide) false false v
  have htime : ∀ t ∈ info.timestamps,
      Unpacks (unpackTime swap now) (leBytes 8 (inOrder swap (to_time_t t)).toNat) t :=
    fun t ht => unpacks_time (hinfo.past t ht)
  have hid : Unpacks (unpackNumber 32 swap) (leBytes 4 (inOrder swap info.id).toNat) info.id := by
    have h := unpacks_number (by decide) swap swap info.id
    rwa [inOrder_inOrder (by decide)] at h
  refine (hstring _ (by simp [strings])).next ?_
  refine hid.next ?_
  refine (unpacks_number (by decide) false swap info.timeout).next ?_
  refine (hbyte _).next <| (hbyte _).next ?_
  refine (unpacks_number (by decide) false swap info.maxThreads).next ?_
  refine (unpacks_number (by decide) false swap info.flags).next ?_
  refine (hbyte _).next ?_
  refine (unpacks_number (by decide) false swap info.step).next ?_
  refine (hbyte _).next ?_
  refine (hstring _ (by simp [strings])).next <| (hstring _ (by simp [strings])).next <|
    (hstring _ (by simp [strings])).next ?_
  refine (unpacks_array info.progressString).next ?_
  refine (hstring _ (by simp [strings])).next <| (hstring _ (by simp [strings])).next ?_
  refine (htime _ (by simp [timestamps])).next <| (htime _ (by simp [timestamps])).next <|
    (htime _ (by simp [timestamps])).next ?_
  exact unpacks_pure

/-- **What comes of a sent info**: as many bytes as it has, and all of it but for the numbers that are
not swapped. -/
theorem unpack_pack (hinfo : info.Sendable now) (hfuel : info.size ≤ fuel) (x : Buf) (p : ℕ) :
    (info.pack swap x p).2 = info.size ∧
    unpack swap now fuel (info.pack swap x p).1 p = some (info.received swap, info.size) := by
  obtain ⟨_, rfl, h⟩ := @packs_info info swap x p
  rw [h]
  refine ⟨fieldBytes_length, ?_⟩
  rw [unpacks_info hinfo hfuel _ p reads_writeBytes, fieldBytes_length]

end Transfer

/-- **An info gets across** exactly where the numbers that the receiver does not swap read the same in
both byte orders. -/
theorem transfers_iff_palindromes {swap : Bool} {now : BitVec 64} {info : Info} (hinfo : info.Sendable now) :
    info.Transfers swap now ↔
      (swap = true → swapEndian info.timeout = info.timeout ∧ swapEndian info.maxThreads = info.maxThreads ∧
        swapEndian info.flags = info.flags ∧ swapEndian info.step = info.step) := by
  constructor
  · rintro h rfl
    obtain ⟨-, hgot⟩ := h (fun _ => 0) 0 info.size (le_refl _)
    rw [(unpack_pack hinfo (le_refl _) _ _).2] at hgot
    have heq : info.received true = info := (Prod.mk.inj (Option.some_inj.1 hgot)).1
    exact ⟨congrArg timeout heq, congrArg maxThreads heq, congrArg flags heq, congrArg step heq⟩
  · intro h x p fuel hfuel
    obtain ⟨hsize, hgot⟩ := @unpack_pack info now swap fuel hinfo hfuel x p
    have heq : info.received swap = info := by
      cases swap
      · rfl
      · obtain ⟨h₁, h₂, h₃, h₄⟩ := h rfl
        simp only [received, inOrder, if_true, h₁, h₂, h₃, h₄]
    rw [heq] at hgot
    exact ⟨hsize, hgot⟩

/-- The defaults of the constructor, but for a number of threads that is the same in both orders. -/
def sample (timeout : BitVec 32) : Info :=
  ⟨0, timeout, 10, 0, 5, 0xffff, 0, 0, 0, [], [], [], [], [], [], Vector.replicate 30 0, none, none, none⟩

theorem sample_sendable (timeout : BitVec 32) (now : BitVec 64) : (sample timeout).Sendable now where
  nulFree := by simp [sample, strings]
  past := by simp [sample, timestamps]

/-- A timeout of zero gets across. -/
theorem transfers_zero_timeout : (sample 0).Transfers true 0 :=
  (transfers_iff_palindromes (sample_sendable 0 0)).2 fun _ => ⟨by decide, by decide, by decide, by decide⟩

/-- The default timeout of 36000 s arrives as 2693529600 s. -/
theorem timeout_not_swapped :
    ∃ (info : Info) (now : BitVec 64), info.Sendable now ∧ ¬info.Transfers true now := by
  refine ⟨sample 36000, 0, sample_sendable 36000 0, fun h => ?_⟩
  obtain ⟨-, hgot⟩ := h (fun _ => 0) 0 (sample 36000).size (le_refl _)
  rw [(unpack_pack (sample_sendable 36000 0) (le_refl _) _ _).2] at hgot
  have heq := congrArg timeout (Prod.mk.inj (Option.some_inj.1 hgot)).1
  exact absurd heq (by decide)

end Info

end Redux.Job
