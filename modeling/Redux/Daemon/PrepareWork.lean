import Redux.Lib.Run
import Redux.Lib.Tally

/-!
# Daemon.PrepareWork — how much work the manager loads ahead

`prepareWork` looks at the queue every now and then and starts a thread for what is missing; that one starts a thread
for each piece of work it gets, which loads it and puts it into the queue.  `preparing_remote` counts what is on its
way.  Whatever the order of all these threads, no more gets into the queue than the largest `max_remote` allows
(`wip_queue_bounded`), and the counter is right exactly until `prepareWork` fails to start a thread
(`preparing_exact_iff`).
-/

namespace Redux.PrepareWork

open Redux.Lib

variable {ω : Type}

/-! ## Model -/

section Model

/-- A thread: `prepareRemoteWork` with what is left of its `count`, or one of those it starts, which load their work and
are finishing when it is in the queue. -/
inductive Thread (ω : Type) where
  | preparing (count : ℕ)
  | loading (wip : ω)
  | finishing
  | ended

/-- Where `prepareWork` is, and what it has read. -/
inductive Loop where
  | sleeping
  | locked (max preparing : Option (BitVec 16))
  | adding (nToPrepare : BitVec 32)
  | starting (nToPrepare : BitVec 32)
  deriving DecidableEq

/-- What the threads share. -/
structure Manager (ω : Type) where
  max_remote : BitVec 16
  preparing_remote : BitVec 16
  wip_queue : List ω
  loop : Loop
  threads : List (Thread ω)

inductive Event (ω : Type) where
  | lock
  | readMax
  | readPreparing
  | compare
  | add
  | start
  | startFails
  | gotWork (k : ℕ) (wip : ω)
  | endPreparing (k : ℕ)
  | push (k : ℕ)
  | loadFails (k : ℕ)
  | decrement (k : ℕ)
  | getRemoteWIP
  | setMax (max : BitVec 16)

/-- `int nToPrepare = max_remote - wip_queue.size() - preparing_remote`. -/
def nToPrepare (max preparing : BitVec 16) (size : ℕ) : BitVec 32 :=
  (max.setWidth 64 - BitVec.ofNat 64 size - preparing.setWidth 64).setWidth 32

namespace Manager

/-- `prepareWork` holds `wip_queue_mtx` from the beginning of its turn to the end. -/
def step (s : Manager ω) : Event ω → Option (Manager ω)
  | .lock => if s.loop = .sleeping then some { s with loop := .locked none none } else none
  | .readMax =>
    match s.loop with
    | .locked none p => some { s with loop := .locked (some s.max_remote) p }
    | _ => none
  | .readPreparing =>
    match s.loop with
    | .locked m none => some { s with loop := .locked m (some s.preparing_remote) }
    | _ => none
  | .compare =>
    match s.loop with
    | .locked (some m) (some p) =>
      let n := nToPrepare m p s.wip_queue.length
      some { s with loop := if n.toInt > 0 then .adding n else .sleeping }
    | _ => none
  | .add =>
    match s.loop with
    | .adding n => some { s with preparing_remote := s.preparing_remote + n.setWidth 16, loop := .starting n }
    | _ => none
  | .start =>
    match s.loop with
    | .starting n => some { s with loop := .sleeping, threads := s.threads ++ [.preparing n.toNat] }
    | _ => none
  | .startFails =>
    match s.loop with
    | .starting _ => some { s with loop := .sleeping }
    | _ => none
  | .gotWork k wip =>
    match s.threads[k]? with
    | some (.preparing (n + 1)) => some { s with threads := s.threads.set k (.preparing n) ++ [.loading wip] }
    | _ => none
  | .endPreparing k =>
    match s.threads[k]? with
    | some (.preparing n) =>
      some { s with preparing_remote := s.preparing_remote - BitVec.ofNat 16 n, threads := s.threads.set k .ended }
    | _ => none
  | .push k =>
    match s.threads[k]? with
    | some (.loading wip) =>
      if s.loop = .sleeping then
        some { s with wip_queue := s.wip_queue ++ [wip], threads := s.threads.set k .finishing }
      else none
    | _ => none
  | .loadFails k =>
    match s.threads[k]? with
    | some (.loading _) => some { s with threads := s.threads.set k .finishing }
    | _ => none
  | .decrement k =>
    match s.threads[k]? with
    | some .finishing =>
      some { s with preparing_remote := s.preparing_remote - 1#16, threads := s.threads.set k .ended }
    | _ => none
  | .getRemoteWIP => if s.loop = .sleeping then some { s with wip_queue := s.wip_queue.tail } else none
  | .setMax max => some { s with max_remote := max }

/-- A new manager. -/
def start : Manager ω := ⟨50#16, 0#16, [], .sleeping, []⟩

end Manager

/-- What a thread will take off `preparing_remote`. -/
def Thread.owed : Thread ω → ℕ
  | .preparing n => n
  | .loading _ => 1
  | .finishing => 1
  | .ended => 0

/-- What a thread may still put into the queue. -/
def Thread.waiting : Thread ω → ℕ
  | .preparing n => n
  | .loading _ => 1
  | .finishing => 0
  | .ended => 0

/-- What a thread will have that is about to be started. -/
def Loop.pending : Loop → ℕ
  | .starting n => n.toNat
  | _ => 0

namespace Manager

/-- What is on its way, as `preparing_remote` should have it. -/
def owed (s : Manager ω) : ℕ := (s.threads.map Thread.owed).sum + s.loop.pending

/-- What may still get into the queue. -/
def waiting (s : Manager ω) : ℕ := (s.threads.map Thread.waiting).sum + s.loop.pending

end Manager

/-- The largest value of `max_remote`. -/
def largest (as : List (Event ω)) : ℕ :=
  as.foldr (fun a n => match a with
    | .setMax max => Nat.max max.toNat n
    | _ => n) 50

end Model

/-! ## The numbers -/

section Numbers

/-- **What `prepareWork` computes**: the difference, if it is positive. -/
theorem nToPrepare_spec (max preparing : BitVec 16) {size : ℕ} (hsize : size < 2 ^ 16) :
    (nToPrepare max preparing size).toInt = max.toNat - size - preparing.toNat := by
  have hmax := max.isLt
  have hpreparing := preparing.isLt
  have hsmall : ∀ n : ℤ, -2 ^ 17 < n → n < 2 ^ 17 → n.bmod (2 ^ 64) = n := fun n hlow hhigh =>
    Int.bmod_eq_of_le (by omega) (by omega)
  -- the difference is right in 64 bits, and small enough for 32
  have hdiff : (max.setWidth 64 - BitVec.ofNat 64 size - preparing.setWidth 64).toInt =
      max.toNat - size - preparing.toNat := by
    rw [BitVec.toInt_sub, BitVec.toInt_sub, BitVec.toInt_setWidth, BitVec.toInt_setWidth, BitVec.toInt_ofNat',
      hsmall max.toNat (by omega) (by omega), hsmall size (by omega) (by omega),
      hsmall preparing.toNat (by omega) (by omega), Int.bmod_sub_bmod, hsmall _ (by omega) (by omega)]
  rw [nToPrepare, BitVec.toInt_setWidth, ← Int.bmod_bmod_of_dvd (by decide : 2 ^ 32 ∣ 2 ^ 64),
    ← BitVec.toInt_eq_toNat_bmod, hdiff]
  exact Int.bmod_eq_of_le (by omega) (by omega)

theorem waiting_le_owed (t : Thread ω) : t.waiting ≤ t.owed := by
  cases t with
  | preparing n => exact le_rfl
  | loading wip => exact le_rfl
  | finishing => exact Nat.zero_le _
  | ended => exact le_rfl

theorem Manager.waiting_le_owed (s : Manager ω) : s.waiting ≤ s.owed :=
  Nat.add_le_add_right (List.sum_le_sum fun t _ => PrepareWork.waiting_le_owed t) _

end Numbers

/-! ## A step of a thread -/

section Moved

variable {s s' : Manager ω} {k r M : ℕ} {t t' : Thread ω} {more : List (Thread ω)}

/-- A thread goes on and may start others; it takes `r` off the counter, and puts no more into the queue than it still
had to. -/
structure Moved (s s' : Manager ω) (k : ℕ) (t t' : Thread ω) (more : List (Thread ω)) (r : ℕ) : Prop where
  thread : s.threads[k]? = some t
  threads : s'.threads = s.threads.set k t' ++ more
  loop : s'.loop = s.loop
  max : s'.max_remote = s.max_remote
  counter : s'.preparing_remote = s.preparing_remote - BitVec.ofNat 16 r
  owed : r + t'.owed + (more.map Thread.owed).sum = t.owed
  waiting : s'.wip_queue.length + t'.waiting + (more.map Thread.waiting).sum ≤ s.wip_queue.length + t.waiting
  queue : s'.wip_queue.length ≤ s.wip_queue.length ∨ s.loop = .sleeping

namespace Moved

theorem owed_eq (h : Moved s s' k t t' more r) : s'.owed + r = s.owed := by
  obtain ⟨rest, hsum, hset⟩ := sum_map_set Thread.owed h.thread
  have howed := h.owed
  rw [Manager.owed, Manager.owed, h.threads, h.loop, List.map_append, List.sum_append, hset, hsum]
  omega

theorem waiting_le (h : Moved s s' k t t' more r) :
    s'.wip_queue.length + s'.waiting ≤ s.wip_queue.length + s.waiting := by
  obtain ⟨rest, hsum, hset⟩ := sum_map_set Thread.waiting h.thread
  have hwaiting := h.waiting
  rw [Manager.waiting, Manager.waiting, h.threads, h.loop, List.map_append, List.sum_append, hset, hsum]
  omega

/-- **The counter loses what the thread takes off it.** -/
theorem counter_eq (h : Moved s s' k t t' more r) (hs : s.owed ≤ s.preparing_remote.toNat) :
    s'.preparing_remote.toNat + r = s.preparing_remote.toNat := by
  have howed := h.owed_eq
  have hlt := s.preparing_remote.isLt
  rw [h.counter, BitVec.toNat_sub, BitVec.toNat_ofNat]
  omega

end Moved

/-- What `prepareWork` has read or computed is safe to use. -/
def Loop.Fits (M : ℕ) (s : Manager ω) : Loop → Prop
  | .sleeping => True
  | .locked m p => (∀ n, m = some n → n.toNat ≤ M) ∧ ∀ n, p = some n → s.preparing_remote.toNat ≤ n.toNat
  | .adding n => 0 < n.toNat ∧ n.toNat + s.preparing_remote.toNat + s.wip_queue.length ≤ M
  | .starting n => 0 < n.toNat

/-- The counter has at least what is on its way, and there is room for all of this. -/
structure Counted (M : ℕ) (s : Manager ω) : Prop where
  counter : s.owed ≤ s.preparing_remote.toNat
  max : s.max_remote.toNat ≤ M
  queue : s.wip_queue.length + s.waiting ≤ M
  loop : s.loop.Fits M s

theorem Loop.Fits.mono {l : Loop} (h : l.Fits M s) (hcounter : s'.preparing_remote.toNat ≤ s.preparing_remote.toNat)
    (hqueue : s'.wip_queue.length ≤ s.wip_queue.length ∨ l = .sleeping) : l.Fits M s' := by
  cases l with
  | sleeping => trivial
  | locked m p => exact ⟨h.1, fun n hn => hcounter.trans (h.2 n hn)⟩
  | adding n =>
    have hle := hqueue.resolve_right Loop.noConfusion
    have hroom := h.2
    exact ⟨h.1, by omega⟩
  | starting n => exact h

theorem Counted.moved (hs : Counted M s) (h : Moved s s' k t t' more r) : Counted M s' := by
  have howed := h.owed_eq
  have hcounter := h.counter_eq hs.counter
  have hold := hs.counter
  refine ⟨by omega, by rw [h.max]; exact hs.max, h.waiting_le.trans hs.queue, ?_⟩
  rw [h.loop]
  exact hs.loop.mono (by omega) h.queue

end Moved

/-! ## Runs -/

section Run

variable {s s' : Manager ω} {e : Event ω} {as : List (Event ω)} {M : ℕ}

/-- The counter is as far from what is on its way as it was. -/
def SameDrift (s s' : Manager ω) : Prop :=
  s'.preparing_remote.toNat + s.owed = s.preparing_remote.toNat + s'.owed

theorem sameDrift_of_moved {k r : ℕ} {t t' : Thread ω} {more : List (Thread ω)} (hs : Counted M s)
    (h : Moved s s' k t t' more r) : SameDrift s s' := by
  have howed := h.owed_eq
  have hcounter := h.counter_eq hs.counter
  unfold SameDrift
  omega

/-- The steps of the threads, those of `prepareWork` excepted. -/
def Event.OfThread : Event ω → Prop
  | .gotWork .. | .endPreparing _ | .push _ | .loadFails _ | .decrement _ => True
  | _ => False

/-- **What a thread does.** -/
theorem moved_of_step (he : e.OfThread) (h : s.step e = some s') : ∃ k t t' more r, Moved s s' k t t' more r := by
  cases e with
  | gotWork k wip =>
    simp only [Manager.step] at h
    split at h
    · obtain rfl := Option.some.inj h
      refine ⟨k, _, _, _, 0, ⟨‹_›, rfl, rfl, rfl, (BitVec.sub_zero _).symm, ?_, ?_, .inl le_rfl⟩⟩
      · simp [Thread.owed]
      · simp [Thread.waiting, Nat.add_assoc]
    · exact absurd h.symm (Option.some_ne_none _)
  | endPreparing k =>
    simp only [Manager.step] at h
    split at h
    · obtain rfl := Option.some.inj h
      refine ⟨k, _, _, [], _, ⟨‹_›, (List.append_nil _).symm, rfl, rfl, rfl, ?_, ?_, .inl le_rfl⟩⟩
      · simp [Thread.owed]
      · simp [Thread.waiting]
    · exact absurd h.symm (Option.some_ne_none _)
  | push k =>
    simp only [Manager.step] at h
    split at h
    · split_ifs at h with hsleeping
      obtain rfl := Option.some.inj h
      refine ⟨k, _, _, [], 0, ⟨‹_›, (List.append_nil _).symm, rfl, rfl, (BitVec.sub_zero _).symm, ?_, ?_,
        .inr hsleeping⟩⟩
      · simp [Thread.owed]
      · simp [Thread.waiting]
    · exact absurd h.symm (Option.some_ne_none _)
  | loadFails k =>
    simp only [Manager.step] at h
    split at h
    · obtain rfl := Option.some.inj h
      refine ⟨k, _, _, [], 0, ⟨‹_›, (List.append_nil _).symm, rfl, rfl, (BitVec.sub_zero _).symm, ?_, ?_,
        .inl le_rfl⟩⟩
      · simp [Thread.owed]
      · simp [Thread.waiting]
    · exact absurd h.symm (Option.some_ne_none _)
  | decrement k =>
    simp only [Manager.step] at h
    split at h
    · obtain rfl := Option.some.inj h
      refine ⟨k, _, _, [], 1, ⟨‹_›, (List.append_nil _).symm, rfl, rfl, rfl, ?_, ?_, .inl le_rfl⟩⟩
      · simp [Thread.owed]
      · simp [Thread.waiting]
    · exact absurd h.symm (Option.some_ne_none _)
  | _ => exact he.elim

/-- The loop goes on, and has no more to start than before. -/
theorem Counted.goto (hs : Counted M s) (l : Loop) (hpending : l.pending = s.loop.pending) (hfits : l.Fits M s) :
    Counted M { s with loop := l } ∧ SameDrift s { s with loop := l } := by
  have howed : Manager.owed { s with loop := l } = s.owed :=
    congrArg (fun n => (s.threads.map Thread.owed).sum + n) hpending
  have hwaiting : Manager.waiting { s with loop := l } = s.waiting :=
    congrArg (fun n => (s.threads.map Thread.waiting).sum + n) hpending
  refine ⟨⟨?_, hs.max, ?_, hfits.mono le_rfl (.inl le_rfl)⟩, ?_⟩
  · rw [howed]
    exact hs.counter
  · rw [hwaiting]
    exact hs.queue
  · rw [SameDrift, howed]

/-- What `prepareWork` computes leaves room for what is on its way. -/
theorem Counted.compare {m p : BitVec 16} (hM : M < 2 ^ 16) (hs : Counted M s)
    (hloop : s.loop = .locked (some m) (some p)) :
    Loop.Fits M s (if (nToPrepare m p s.wip_queue.length).toInt > 0 then
      .adding (nToPrepare m p s.wip_queue.length) else .sleeping) := by
  have hfits := hs.loop
  rw [hloop] at hfits
  have hm := hfits.1 m rfl
  have hp := hfits.2 p rfl
  have hqueue := hs.queue
  have hsize : s.wip_queue.length < 2 ^ 16 := by omega
  have hspec := nToPrepare_spec m p hsize
  split_ifs with hpos
  · rw [BitVec.toInt_eq_toNat_cond] at hspec hpos
    constructor <;> split_ifs at hspec hpos <;> omega
  · trivial

/-- **The counter is raised before the thread is started.** -/
theorem Counted.add {n : BitVec 32} (hM : M < 2 ^ 16) (hs : Counted M s) (hloop : s.loop = .adding n) :
    let s' : Manager ω := { s with preparing_remote := s.preparing_remote + n.setWidth 16, loop := .starting n }
    Counted M s' ∧ SameDrift s s' := by
  obtain ⟨hcounter, hbound, hqueue, hfits⟩ := hs
  have hle := s.waiting_le_owed
  rw [hloop] at hfits
  obtain ⟨hpos, hroom⟩ := hfits
  simp only [Manager.owed, Manager.waiting, hloop, Loop.pending, Nat.add_zero] at hcounter hqueue hle
  have hsum : (s.preparing_remote + n.setWidth 16).toNat = s.preparing_remote.toNat + n.toNat := by
    rw [BitVec.toNat_add, BitVec.toNat_setWidth]
    omega
  refine ⟨⟨?_, hbound, ?_, hpos⟩, ?_⟩
  · simp only [Manager.owed, Loop.pending, hsum]
    omega
  · simp only [Manager.waiting, Loop.pending]
    omega
  · simp only [SameDrift, Manager.owed, hloop, Loop.pending, hsum]
    omega

theorem Counted.start {n : BitVec 32} (hs : Counted M s) (hloop : s.loop = .starting n) :
    let s' : Manager ω := { s with loop := .sleeping, threads := s.threads ++ [.preparing n.toNat] }
    Counted M s' ∧ SameDrift s s' := by
  have howed : Manager.owed { s with loop := .sleeping, threads := s.threads ++ [.preparing n.toNat] } = s.owed := by
    simp [Manager.owed, hloop, Loop.pending, Thread.owed]
  have hwaiting :
      Manager.waiting { s with loop := .sleeping, threads := s.threads ++ [.preparing n.toNat] } = s.waiting := by
    simp [Manager.waiting, hloop, Loop.pending, Thread.waiting]
  refine ⟨⟨?_, hs.max, ?_, trivial⟩, ?_⟩
  · rw [howed]
    exact hs.counter
  · rw [hwaiting]
    exact hs.queue
  · rw [SameDrift, howed]

/-- **A thread that cannot be started stays in the counter.** -/
theorem Counted.startFails {n : BitVec 32} (hs : Counted M s) (hloop : s.loop = .starting n) :
    let s' : Manager ω := { s with loop := .sleeping }
    Counted M s' ∧ ¬SameDrift s s' := by
  obtain ⟨hcounter, hbound, hqueue, hfits⟩ := hs
  rw [hloop] at hfits
  have hpos : 0 < n.toNat := hfits
  simp only [Manager.owed, Manager.waiting, hloop, Loop.pending] at hcounter hqueue
  refine ⟨⟨?_, hbound, ?_, trivial⟩, ?_⟩
  · simp only [Manager.owed, Loop.pending]
    omega
  · simp only [Manager.waiting, Loop.pending]
    omega
  · simp only [SameDrift, Manager.owed, hloop, Loop.pending]
    omega

theorem Counted.getRemoteWIP (hs : Counted M s) (hsleeping : s.loop = .sleeping) :
    Counted M { s with wip_queue := s.wip_queue.tail } := by
  have hqueue := hs.queue
  refine ⟨hs.counter, hs.max, ?_, hs.loop.mono le_rfl (.inr hsleeping)⟩
  show s.wip_queue.tail.length + s.waiting ≤ M
  rw [List.length_tail]
  omega

/-- **A step keeps the count**, and the drift as well unless a thread cannot be started. -/
theorem Counted.step (hM : M < 2 ^ 16) (hs : Counted M s) (hmax : ∀ m, e = .setMax m → m.toNat ≤ M)
    (h : s.step e = some s') : Counted M s' ∧ (SameDrift s s' ↔ e ≠ .startFails) := by
  by_cases he : e.OfThread
  · obtain ⟨k, t, t', more, r, hmoved⟩ := moved_of_step he h
    refine ⟨hs.moved hmoved, iff_of_true (sameDrift_of_moved hs hmoved) ?_⟩
    rintro rfl
    exact he
  cases e with
  | lock =>
    simp only [Manager.step] at h
    split_ifs at h with hsleeping
    obtain rfl := Option.some.inj h
    refine (hs.goto (.locked none none) (by rw [hsleeping]; rfl) ⟨?_, ?_⟩).imp_right fun hdrift =>
      iff_of_true hdrift nofun
    · exact fun n hn => absurd hn.symm (Option.some_ne_none n)
    · exact fun n hn => absurd hn.symm (Option.some_ne_none n)
  | readMax =>
    simp only [Manager.step] at h
    split at h
    next p hloop =>
      obtain rfl := Option.some.inj h
      have hfits := hs.loop
      rw [hloop] at hfits
      refine (hs.goto (.locked (some s.max_remote) p) (by rw [hloop]; rfl) ⟨fun n hn => ?_, hfits.2⟩).imp_right
        fun hdrift => iff_of_true hdrift nofun
      exact Option.some.inj hn ▸ hs.max
    · exact absurd h.symm (Option.some_ne_none _)
  | readPreparing =>
    simp only [Manager.step] at h
    split at h
    next m hloop =>
      obtain rfl := Option.some.inj h
      have hfits := hs.loop
      rw [hloop] at hfits
      refine (hs.goto (.locked m (some s.preparing_remote)) (by rw [hloop]; rfl) ⟨hfits.1, fun n hn => ?_⟩).imp_right
        fun hdrift => iff_of_true hdrift nofun
      exact Option.some.inj hn ▸ le_rfl
    · exact absurd h.symm (Option.some_ne_none _)
  | compare =>
    simp only [Manager.step] at h
    split at h
    next m p hloop =>
      obtain rfl := Option.some.inj h
      refine (hs.goto _ ?_ (hs.compare hM hloop)).imp_right fun hdrift => iff_of_true hdrift nofun
      rw [hloop]
      split_ifs <;> rfl
    · exact absurd h.symm (Option.some_ne_none _)
  | add =>
    simp only [Manager.step] at h
    split at h
    next n hloop =>
      obtain rfl := Option.some.inj h
      exact (hs.add hM hloop).imp_right fun hdrift => iff_of_true hdrift nofun
    · exact absurd h.symm (Option.some_ne_none _)
  | start =>
    simp only [Manager.step] at h
    split at h
    next n hloop =>
      obtain rfl := Option.some.inj h
      exact (hs.start hloop).imp_right fun hdrift => iff_of_true hdrift nofun
    · exact absurd h.symm (Option.some_ne_none _)
  | startFails =>
    simp only [Manager.step] at h
    split at h
    next n hloop =>
      obtain rfl := Option.some.inj h
      exact (hs.startFails hloop).imp_right fun hdrift => iff_of_false hdrift fun hne => hne rfl
    · exact absurd h.symm (Option.some_ne_none _)
  | getRemoteWIP =>
    simp only [Manager.step] at h
    split_ifs at h with hsleeping
    obtain rfl := Option.some.inj h
    exact ⟨hs.getRemoteWIP hsleeping, iff_of_true rfl nofun⟩
  | setMax m =>
    obtain rfl := Option.some.inj h
    exact ⟨⟨hs.counter, hmax m rfl, hs.queue, hs.loop.mono le_rfl (.inl le_rfl)⟩, iff_of_true rfl nofun⟩
  | _ => exact absurd trivial he

theorem largest_lt (as : List (Event ω)) : largest as < 2 ^ 16 := by
  induction as with
  | nil => exact (by decide : 50 < 2 ^ 16)
  | cons e as ih =>
    cases e with
    | setMax m => exact Nat.max_lt.2 ⟨m.isLt, ih⟩
    | _ => exact ih

theorem le_largest {m : BitVec 16} (h : .setMax m ∈ as) : m.toNat ≤ largest as := by
  induction as with
  | nil => exact absurd h List.not_mem_nil
  | cons e as ih =>
    rcases List.mem_cons.1 h with rfl | hmem
    · exact Nat.le_max_left _ _
    · cases e with
      | setMax m' => exact (ih hmem).trans (Nat.le_max_right _ _)
      | _ => exact ih hmem

theorem fifty_le_largest (as : List (Event ω)) : 50 ≤ largest as := by
  induction as with
  | nil => exact le_rfl
  | cons e as ih =>
    cases e with
    | setMax m => exact ih.trans (Nat.le_max_right _ _)
    | _ => exact ih

theorem counted_start (h : 50 ≤ M) : Counted M (Manager.start : Manager ω) :=
  ⟨le_rfl, h, Nat.zero_le _, trivial⟩

theorem Counted.run (hM : M < 2 ^ 16) (hs : Counted M s) (hmax : ∀ m, .setMax m ∈ as → m.toNat ≤ M)
    (h : as.foldlM Manager.step s = some s') : Counted M s' := by
  induction as generalizing s with
  | nil =>
    obtain rfl := Option.some.inj h
    exact hs
  | cons e as ih =>
    rw [List.foldlM_cons] at h
    obtain ⟨s₁, hs₁, hrest⟩ := Option.bind_eq_some_iff.1 h
    have hnext := hs.step hM (fun m hm => hmax m (hm ▸ List.mem_cons_self)) hs₁
    exact ih hnext.1 (fun m hm => hmax m (List.mem_cons_of_mem _ hm)) hrest

/-- **What is loaded ahead**: in every run, what is in the queue and what may still get there is no more than the
largest `max_remote` there was, and `preparing_remote` has at least what is on its way, so that no thread is loading
when it is zero. -/
theorem wip_queue_bounded (as : List (Event ω)) (s : Manager ω) (h : as.foldlM Manager.step .start = some s) :
    s.wip_queue.length + s.waiting ≤ largest as ∧ s.owed ≤ s.preparing_remote.toNat ∧
      (s.preparing_remote = 0 → ∀ t ∈ s.threads, t.owed = 0) := by
  have hs := (counted_start (fifty_le_largest as)).run (largest_lt as) (fun m => le_largest) h
  refine ⟨hs.queue, hs.counter, fun hzero t ht => ?_⟩
  have howed := hs.counter
  have hle : t.owed ≤ (s.threads.map Thread.owed).sum := List.le_sum_of_mem (List.mem_map_of_mem ht)
  rw [hzero, Manager.owed] at howed
  have hz : (0 : BitVec 16).toNat = 0 := rfl
  omega

/-- One turn of `prepareWork`, and one piece of work. -/
def oneTurn : List (Event Unit) :=
  [.lock, .readMax, .readPreparing, .compare, .add, .start, .gotWork 0 (), .push 1]

/-- There is room for fifty, all of which is taken. -/
theorem wip_queue_bounded_oneTurn : ∃ s, oneTurn.foldlM Manager.step .start = some s ∧
    s.wip_queue.length + s.waiting = 50 ∧ s.wip_queue.length + s.waiting ≤ largest oneTurn := by
  have hrun : oneTurn.foldlM Manager.step .start =
      some ⟨50#16, 50#16, [()], .sleeping, [.preparing 49, .finishing]⟩ := rfl
  exact ⟨_, hrun, rfl, (wip_queue_bounded oneTurn _ hrun).1⟩

theorem exact_run (hM : M < 2 ^ 16) (hs : Counted M s) (hmax : ∀ m, .setMax m ∈ as → m.toNat ≤ M)
    (hexact : s.preparing_remote.toNat = s.owed) :
    Always Manager.step (fun s => s.preparing_remote.toNat = s.owed) s as ↔
      Each Manager.step (fun _ e _ => e ≠ .startFails) s as := by
  induction as generalizing s with
  | nil => exact iff_of_true hexact trivial
  | cons e as ih =>
    have hrest : ∀ m, .setMax m ∈ as → m.toNat ≤ M := fun m hm => hmax m (List.mem_cons_of_mem _ hm)
    have hnext : ∀ s', s.step e = some s' → Counted M s' ∧ (s'.preparing_remote.toNat = s'.owed ↔ e ≠ .startFails) := by
      intro s' hs'
      refine (hs.step hM (fun m hm => hmax m (hm ▸ List.mem_cons_self)) hs').imp_right fun hdrift => ?_
      rw [← hdrift, SameDrift]
      omega
    constructor
    · rintro ⟨-, halways⟩ s' hs'
      have hhead := (halways s' hs').head
      exact ⟨(hnext s' hs').2.1 hhead, (ih (hnext s' hs').1 hrest hhead).1 (halways s' hs')⟩
    · intro heach
      refine ⟨hexact, fun s' hs' => ?_⟩
      obtain ⟨hne, hlater⟩ := heach s' hs'
      exact (ih (hnext s' hs').1 hrest ((hnext s' hs').2.2 hne)).2 hlater

/-- **The counter is exact** throughout just those runs in which `prepareWork` can start all its threads: what it has
added for a thread that it could not start is never taken off. -/
theorem preparing_exact_iff (as : List (Event ω)) :
    Always Manager.step (fun s => s.preparing_remote.toNat = s.owed) (.start : Manager ω) as ↔
      Each Manager.step (fun _ e _ => e ≠ .startFails) .start as :=
  exact_run (largest_lt as) (counted_start (fifty_le_largest as)) (fun _ => le_largest) rfl

end Run

end Redux.PrepareWork
