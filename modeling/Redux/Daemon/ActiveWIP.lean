import Redux.Lib.OrderedSet
import Redux.Lib.Run

/-!
# Daemon.ActiveWIP — the work in progress of all jobs

`wip_active` is a set ordered by `WorkInProgress::operator<`.  The operator finds the first pair of
parts that differ and then compares the jobs again, which are the same, so all WIPs of a job are the
same to the set (`lt_eq`): it holds one part of a job at most, and `returnWork` finds that one whatever
part comes back.  `Work` keeps beside the manager's lists what was handed out and is not yet returned.
-/

namespace Redux.ActiveWIP

open Redux.Lib

/-! ## Work in progress -/

/-- `WorkInProgress`: the addresses of its job (0 without one) and of its parts. -/
structure WIP where
  job : ℕ
  parts : List ℕ
  isRemote : Bool
  hasResults : Bool
  deriving DecidableEq, Repr

namespace WIP

/-- `operator<`. -/
def lt (wip rhs : WIP) : Bool :=
  if wip.job ≠ rhs.job then decide (wip.job < rhs.job)
  else match (wip.parts.zip rhs.parts).find? fun p => p.1 ≠ p.2 with
    | some _ => decide (wip.job < rhs.job)
    | none => false

/-- It has the job and the parts of `wip`. -/
def isOf (wip w : WIP) : Bool := decide (w.job = wip.job ∧ w.parts = wip.parts)

/-- **`operator<` orders WIPs by their jobs alone.** -/
theorem lt_eq (wip rhs : WIP) : wip.lt rhs = decide (wip.job < rhs.job) := by
  unfold lt
  split_ifs with h
  · rfl
  · have hjob : wip.job = rhs.job := not_not.mp h
    split
    · rfl
    · rw [hjob, decide_eq_false (lt_irrefl _)]

theorem same_iff {wip rhs : WIP} : OrderedSet.same lt wip rhs = true ↔ rhs.job = wip.job := by
  simp only [OrderedSet.same, lt_eq, Bool.and_eq_true, Bool.not_eq_true', decide_eq_false_iff_not]
  omega

theorem same_eq_false {wip rhs : WIP} : OrderedSet.same lt wip rhs = false ↔ rhs.job ≠ wip.job := by
  rw [← Bool.not_eq_true, same_iff]

end WIP

/-! ## The lists of the manager -/

/-- `Daemon`, its lists of WIPs. -/
structure Daemon where
  wip_queue : List WIP
  wip_localqueue : List WIP
  wip_active : List WIP
  wip_completed : List WIP
  wip_idle : ℕ
  deriving Repr

namespace Daemon

variable (d : Daemon)

/-- The end of a thread of `prepareRemoteWork` or `prepareLocalWork`. -/
def prepared (wip : WIP) : Daemon :=
  if wip.isRemote then { d with wip_queue := d.wip_queue ++ [wip] }
  else { d with wip_localqueue := d.wip_localqueue ++ [wip] }

/-- `getRemoteWIP()` or `getLocalWIP()`: the first WIP in the queue, if there is one. -/
def frontWIP (remote : Bool) : Option WIP :=
  if remote then d.wip_queue.head? else d.wip_localqueue.head?

/-- `getWork( wip, remote )`; with nothing in the queue it returns `false`. -/
def getWork (remote : Bool) : Daemon :=
  match d.frontWIP remote with
  | none => d
  | some tmp_wip =>
    { d with
      wip_queue := if remote then d.wip_queue.tail else d.wip_queue
      wip_localqueue := if remote then d.wip_localqueue else d.wip_localqueue.tail
      wip_active := OrderedSet.insert WIP.lt tmp_wip d.wip_active }

/-- `returnWork( wip )`. -/
def returnWork (wip : WIP) : Daemon :=
  match OrderedSet.find WIP.lt wip d.wip_active with
  | none => d
  | some tmp_wip =>
    let d := { d with wip_active := OrderedSet.erase WIP.lt tmp_wip d.wip_active }
    if wip.hasResults then
      if wip.isRemote then { d with wip_completed := d.wip_completed ++ [wip] }
      else { d with wip_completed := wip :: d.wip_completed }
    else { d with wip_idle := d.wip_idle + 1 }

end Daemon

/-! ## Runs -/

/-- The manager, and the WIPs it handed out that have not been returned. -/
structure Work where
  daemon : Daemon
  out : List WIP

/-- What can happen: a WIP is prepared, handed out (`*wip = *tmp_wip`) or returned. -/
inductive Act where
  | prepared (wip : WIP)
  | getWork (remote : Bool)
  | returnWork (wip : WIP)

/-- One call.  Who returns a WIP returns the first one out with its job and parts. -/
def step (s : Work) : Act → Option Work
  | .prepared wip => some ⟨s.daemon.prepared wip, s.out⟩
  | .getWork remote => some ⟨s.daemon.getWork remote, s.out ++ (s.daemon.frontWIP remote).toList⟩
  | .returnWork wip => some ⟨s.daemon.returnWork wip, s.out.eraseP (WIP.isOf wip)⟩

/-- No work is out yet. -/
structure Start (s : Work) : Prop where
  active : s.daemon.wip_active = []
  out : s.out = []

/-- `wip_active` has one entry for each WIP out, and no other. -/
def Tracks (s : Work) : Prop := s.daemon.wip_active.Perm s.out

/-- No WIP is handed out while one of its job is out, and none is returned while one with other parts
of its job is out. -/
def OnePerJob (s : Work) (a : Act) (_ : Work) : Prop :=
  match a with
  | .prepared _ => True
  | .getWork remote => ∀ wip ∈ s.daemon.frontWIP remote, ∀ w ∈ s.out, w.job ≠ wip.job
  | .returnWork wip => ∀ w ∈ s.out, w.job = wip.job → w.parts = wip.parts

instance (s : Work) (a : Act) (s' : Work) : Decidable (OnePerJob s a s') :=
  match a with
  | .prepared _ => isTrue trivial
  | .getWork remote =>
    inferInstanceAs (Decidable (∀ wip ∈ s.daemon.frontWIP remote, ∀ w ∈ s.out, w.job ≠ wip.job))
  | .returnWork wip =>
    inferInstanceAs (Decidable (∀ w ∈ s.out, w.job = wip.job → w.parts = wip.parts))

section Steps

variable {s s' : Work} {a : Act} {as : List Act}

/-- The entries are of different jobs. -/
abbrev Distinct (s : Work) : Prop := OrderedSet.Distinct WIP.lt s.daemon.wip_active

theorem prepared_active (d : Daemon) (wip : WIP) : (d.prepared wip).wip_active = d.wip_active := by
  unfold Daemon.prepared
  split_ifs <;> rfl

theorem getWork_active (d : Daemon) (remote : Bool) :
    (d.getWork remote).wip_active =
      (d.frontWIP remote).elim d.wip_active fun wip => OrderedSet.insert WIP.lt wip d.wip_active := by
  unfold Daemon.getWork
  cases d.frontWIP remote <;> rfl

/-- Whatever comes back, the entry that goes is the one of its job. -/
theorem returnWork_active (d : Daemon) (wip : WIP) :
    (d.returnWork wip).wip_active = OrderedSet.erase WIP.lt wip d.wip_active := by
  unfold Daemon.returnWork
  cases h : OrderedSet.find WIP.lt wip d.wip_active with
  | none =>
    exact (List.eraseP_of_forall_not fun w hw => by
      rw [OrderedSet.find_eq_none.mp h w hw]
      exact Bool.false_ne_true).symm
  | some tmp_wip =>
    have hjob : tmp_wip.job = wip.job := WIP.same_iff.mp (OrderedSet.find_mem h).2
    have hkey : OrderedSet.same WIP.lt tmp_wip = OrderedSet.same WIP.lt wip := by
      ext w
      rw [Bool.eq_iff_iff, WIP.same_iff, WIP.same_iff, hjob]
    have herase : OrderedSet.erase WIP.lt tmp_wip d.wip_active =
        OrderedSet.erase WIP.lt wip d.wip_active := by rw [OrderedSet.erase, OrderedSet.erase, hkey]
    dsimp only
    split_ifs <;> exact herase

theorem step_distinct (hs : Distinct s) (h : step s a = some s') : Distinct s' := by
  cases a with
  | prepared wip =>
    obtain rfl := Option.some.inj h
    rwa [Distinct, prepared_active]
  | getWork remote =>
    obtain rfl := Option.some.inj h
    rw [Distinct, getWork_active]
    cases s.daemon.frontWIP remote with
    | none => exact hs
    | some wip => exact hs.insert
  | returnWork wip =>
    obtain rfl := Option.some.inj h
    rw [Distinct, returnWork_active]
    exact hs.erase

/-- Handing out keeps the set and what is out together exactly if no WIP of the job is out. -/
theorem getWork_tracks {d : Daemon} {out : List WIP} {wip : WIP} (ht : d.wip_active.Perm out) :
    (OrderedSet.insert WIP.lt wip d.wip_active).Perm (out ++ [wip]) ↔ ∀ w ∈ out, w.job ≠ wip.job := by
  constructor
  · intro hp w hw hjob
    rw [OrderedSet.insert_eq_self (ht.mem_iff.mpr hw) (WIP.same_iff.mpr hjob)] at hp
    have hlen := (ht.symm.trans hp).length_eq
    rw [List.length_append] at hlen
    exact absurd hlen (by simp)
  · intro hne
    have hperm : (OrderedSet.insert WIP.lt wip d.wip_active).Perm (wip :: d.wip_active) :=
      OrderedSet.insert_perm fun w hw => WIP.same_eq_false.mpr (hne w (ht.mem_iff.mp hw))
    exact (hperm.trans (ht.cons wip)).trans (List.perm_append_singleton wip out).symm

/-- Taking back keeps them together exactly if what is out of the job has the parts that came back. -/
theorem returnWork_tracks {d : Daemon} {out : List WIP} {wip : WIP}
    (hd : OrderedSet.Distinct WIP.lt d.wip_active) (ht : d.wip_active.Perm out) :
    (OrderedSet.erase WIP.lt wip d.wip_active).Perm (out.eraseP (WIP.isOf wip)) ↔
      ∀ w ∈ out, w.job = wip.job → w.parts = wip.parts := by
  have hout : OrderedSet.Distinct WIP.lt out := OrderedSet.Distinct.perm ht hd
  -- the set takes out of what is out the one of the job
  have herase : (OrderedSet.erase WIP.lt wip d.wip_active).Perm
      (out.eraseP (OrderedSet.same WIP.lt wip)) := by
    refine ht.eraseP _ (hd.imp fun {a b} hab ha hb => ?_)
    exact WIP.same_eq_false.mp hab ((WIP.same_iff.mp hb).trans (WIP.same_iff.mp ha).symm)
  constructor
  · intro hp w hw hjob
    by_contra hparts
    have hall : ∀ v ∈ out, ¬ WIP.isOf wip v = true := by
      intro v hv hof
      obtain ⟨hvjob, hvparts⟩ := of_decide_eq_true hof
      have hvw : v = w := hout.eq_of_same hv hw (WIP.same_iff.mpr (hjob.trans hvjob.symm))
      exact hparts (hvw ▸ hvparts)
    rw [List.eraseP_of_forall_not hall] at hp
    have hlen := (herase.symm.trans hp).length_eq
    rw [List.length_eraseP_of_mem hw (WIP.same_iff.mpr hjob)] at hlen
    have hpos := List.length_pos_of_mem hw
    omega
  · intro hparts
    have hcongr : ∀ l : List WIP, (∀ w ∈ l, w ∈ out) →
        l.eraseP (OrderedSet.same WIP.lt wip) = l.eraseP (WIP.isOf wip) := by
      intro l
      induction l with
      | nil => exact fun _ => rfl
      | cons w l ih =>
        intro hl
        have hw : OrderedSet.same WIP.lt wip w = WIP.isOf wip w := by
          rw [Bool.eq_iff_iff, WIP.same_iff, WIP.isOf, decide_eq_true_eq]
          exact ⟨fun h => ⟨h, hparts w (hl w List.mem_cons_self) h⟩, fun h => h.1⟩
        rw [List.eraseP_cons, List.eraseP_cons, hw, ih fun v hv => hl v (List.mem_cons_of_mem _ hv)]
    rwa [← hcongr out fun _ hw => hw]

/-- A call keeps the set and what is out together exactly if it respects the order. -/
theorem step_tracks (hs : Distinct s) (ht : Tracks s) (h : step s a = some s') :
    Tracks s' ↔ OnePerJob s a s' := by
  cases a with
  | prepared wip =>
    obtain rfl := Option.some.inj h
    rw [Tracks, prepared_active]
    exact iff_of_true ht trivial
  | getWork remote =>
    obtain rfl := Option.some.inj h
    rw [Tracks, getWork_active, OnePerJob]
    cases s.daemon.frontWIP remote with
    | none =>
      refine iff_of_true ?_ fun wip hwip => absurd hwip (by simp)
      rw [Option.elim_none, Option.toList_none, List.append_nil]
      exact ht
    | some wip =>
      rw [Option.elim_some, Option.toList_some, getWork_tracks ht]
      exact ⟨fun h wip' hwip' => Option.some.inj hwip' ▸ h, fun h => h wip rfl⟩
  | returnWork wip =>
    obtain rfl := Option.some.inj h
    rw [Tracks, returnWork_active]
    exact returnWork_tracks hs ht

/-- **`wip_active` is what is out throughout exactly the runs that have one WIP of a job out at a
time.** -/
theorem tracks_iff_onePerJob (hs : Start s) : Always step Tracks s as ↔ Each step OnePerJob s as := by
  refine always_iff_each (fun s a s' => step_distinct) (fun s a s' => step_tracks) ?_ ?_
  · rw [Distinct, hs.active]
    exact List.Pairwise.nil
  · rw [Tracks, hs.active, hs.out]

end Steps

/-! ## Two parts of one job -/

/-- A WIP of the remote queue with one part. -/
def remotePart (job part : ℕ) : WIP := ⟨job, [part], true, true⟩

def idle : Work := ⟨⟨[], [], [], [], 0⟩, []⟩

theorem idle_start : Start idle := ⟨rfl, rfl⟩

/-- A part of each of two jobs, handed out and returned. -/
theorem tracks_two_jobs : Always step Tracks idle
    [.prepared (remotePart 1 7), .prepared (remotePart 2 8), .getWork true, .getWork true,
      .returnWork (remotePart 1 7), .returnWork (remotePart 2 8)] :=
  (tracks_iff_onePerJob idle_start).mpr <|
    .cons rfl trivial <| .cons rfl trivial <| .cons rfl (by decide) <| .cons rfl (by decide) <|
      .cons rfl (by decide) <| .cons rfl (by decide) trivial

/-- Two parts of one job are out and `wip_active` has one entry; the second one comes back and takes
the entry of the first. -/
theorem active_part_lost : ¬ ∀ s as, Start s → Always step Tracks s as := by
  intro h
  have hrun := h idle [.prepared (remotePart 1 7), .prepared (remotePart 1 8), .getWork true,
    .getWork true, .returnWork (remotePart 1 8)] idle_start
  have hlast : Tracks ⟨⟨[], [], [], [remotePart 1 8], 0⟩, [remotePart 1 7]⟩ := hrun.last rfl
  exact absurd hlast.length_eq (by decide)

end Redux.ActiveWIP
