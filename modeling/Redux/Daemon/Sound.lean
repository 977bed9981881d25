import Redux.Daemon.Work
import Redux.Momfbd.JobProgress

/-!
# Daemon.Sound — who holds a patch, and whose result a message carries

Two invariants of the manager.  `Sound`: a patch is in at most one of the WIPs and handler copies that
can still fail or return it, a patch in one of them is `JSTEP_RUNNING`, and the job accounts for the
results.  `Addressed`: a result on its way to a WIP that still holds a patch is a result of that patch.
`Effect` lists what an action can do with the job and the holders of its patches; every action is taken
to its effect here, and what `Sound` makes of it needs the effects only.
-/

namespace Redux

open Momfbd Lib

/-- The handler's copies hold patch `i` and can still fail or return it. -/
def Handler.holds (i : ℕ) : Handler → Bool
  | .returned _ => false
  | hd => hd.refersTo i

@[simp] theorem Handler.holds_copied {i p : ℕ} {wip_bak : Option ℕ} :
    (Handler.copied wip_bak p).holds i = (wip_bak == some i) := rfl

@[simp] theorem Handler.holds_unpacked {i p q : ℕ} : (Handler.unpacked q p).holds i = (q == i) := rfl

@[simp] theorem Handler.holds_returned {i p : ℕ} : (Handler.returned p).holds i = false := rfl

theorem Handler.refersTo_of_holds {i : ℕ} {hd : Handler} (h : hd.holds i) : hd.refersTo i := by
  cases hd with
  | copied wip_bak p => exact h
  | unpacked wip_bak p => exact h
  | returned wip_bak => cases h

/-- What a handler unpacked, or will unpack, belongs to its copy of the WIP, and has been returned by then. -/
def Handler.Matches (results : List ℕ) : Handler → Prop
  | .copied (some p) patch => patch = p
  | .copied none _ => True
  | .unpacked p patch => patch = p
  | .returned p => p ∈ results

/-- More results change nothing about it. -/
theorem Handler.Matches.mono {results : List ℕ} {p : ℕ} {hd : Handler} (h : hd.Matches results) :
    hd.Matches (results ++ [p]) := by
  cases hd with
  | copied wip_bak patch => cases wip_bak <;> exact h
  | unpacked wip_bak patch => exact h
  | returned wip_bak => exact List.mem_append_left _ h

namespace Daemon

/-- How many WIPs hold patch `i` and can still fail or return it. -/
def holders (s : Daemon) (i : ℕ) : ℕ :=
  s.preparing.countP (· == i) + s.wip_queue.countP (· == i) + s.wips.countP (· == some i) +
    s.handlers.countP (Handler.holds i)

/-- The job accounts for its results; each patch has at most one holder and is out while it has. -/
structure Sound (s : Daemon) : Prop where
  job : s.job.Accounts s.results
  custody : Custody s.holders fun i => s.job.patchStep i = some JStep.running

/-- Results are on their way to the WIP they belong to, or to one that was reset. -/
structure Addressed (s : Daemon) : Prop where
  peer_lt : ∀ h w, s.peerWIP h = some w → w < s.wips.length
  posted_lt : ∀ w p, (w, p) ∈ s.posted → w < s.wips.length
  posted : ∀ w p q, (w, p) ∈ s.posted → s.wips[w]? = some (some q) → p = q
  handlers : ∀ hd ∈ s.handlers, hd.Matches s.results

section Frames

variable {s s' : Daemon} {h p : ℕ}

/-- The WIPs lose patches but get none. -/
theorem Addressed.frame (hs : Addressed s) (hlen : s.wips.length ≤ s'.wips.length)
    (hwips : ∀ w q : ℕ, s'.wips[w]? = some (some q) → s.wips[w]? = some (some q))
    (hpeer : ∀ h w, s'.peerWIP h = some w → s.peerWIP h = some w)
    (hposted : ∀ r ∈ s'.posted, r ∈ s.posted) (hhandlers : ∀ hd ∈ s'.handlers, hd.Matches s'.results) :
    Addressed s' where
  peer_lt h w hw := (hs.peer_lt h w (hpeer h w hw)).trans_le hlen
  posted_lt w p hp := (hs.posted_lt w p (hposted _ hp)).trans_le hlen
  posted w p q hp hq := hs.posted w p q (hposted _ hp) (hwips w q hq)
  handlers := hhandlers

/-- Only lists that `Addressed` does not speak of change. -/
theorem Addressed.same (hs : Addressed s) (hwips : s'.wips = s.wips) (hpeer : s'.peerWIP = s.peerWIP)
    (hposted : s'.posted = s.posted) (hhandlers : s'.handlers = s.handlers) (hresults : s'.results = s.results) :
    Addressed s' :=
  hs.frame (by rw [hwips]) (fun _ _ h => hwips ▸ h) (fun _ _ h => hpeer ▸ h)
    (fun _ h => hposted ▸ h) (fun _ h => hresults ▸ hs.handlers _ (hhandlers ▸ h))

theorem ite_beq {α : Type*} [BEq α] [LawfulBEq α] [DecidableEq α] {a b : α} :
    (if (a == b) = true then 1 else 0) = if b = a then (1 : ℕ) else 0 := by
  by_cases h : a = b
  · rw [if_pos (beq_iff_eq.mpr h), if_pos h.symm]
  · rw [if_neg (mt beq_iff_eq.mp h), if_neg fun h' => h h'.symm]

theorem dropWIP_cases (s : Daemon) (h : ℕ) : s.dropWIP h = s.wips ∨
    ∃ w, s.peerWIP h = some w ∧ ¬ s.inHand w ∧ s.dropWIP h = s.wips.set w none := by
  unfold dropWIP
  cases hw : s.peerWIP h with
  | none => exact .inl rfl
  | some w =>
    dsimp only
    split_ifs with hin
    · exact .inl rfl
    · exact .inr ⟨w, rfl, hin, rfl⟩

@[simp] theorem dropWIP_length : (s.dropWIP h).length = s.wips.length := by
  rcases s.dropWIP_cases h with heq | ⟨w, -, -, heq⟩ <;> rw [heq]
  exact List.length_set

/-- Resetting a WIP leaves the patches of the others where they are. -/
theorem getElem?_set_none {wips : List (Option ℕ)} {w w' q : ℕ} :
    (wips.set w none)[w']? = some (some q) ↔ wips[w']? = some (some q) ∧ w ≠ w' := by
  rw [List.getElem?_set]
  by_cases hww : w = w'
  · rw [if_pos hww]
    split_ifs <;> simp [hww]
  · rw [if_neg hww]
    simp [hww]

theorem countP_set_none {wips : List (Option ℕ)} {w : ℕ} {wip : Option ℕ} (hw : wips[w]? = some wip) (i : ℕ) :
    (wips.set w none).countP (· == some i) + (if wip = some i then 1 else 0) =
      wips.countP (· == some i) := by
  have hset := countP_set (b := (none : Option ℕ)) (· == some i) hw
  simpa only [beq_iff_eq, reduceCtorEq, if_false, Nat.add_zero] using hset

theorem dropWIP_count (i : ℕ) : (s.dropWIP h).countP (· == some i) ≤ s.wips.countP (· == some i) := by
  rcases s.dropWIP_cases h with heq | ⟨w, -, -, heq⟩
  · rw [heq]
  · rw [heq]
    cases hw : s.wips[w]? with
    | none => rw [List.set_eq_of_length_le (List.getElem?_eq_none_iff.mp hw)]
    | some wip => have := countP_set_none hw i; omega

end Frames

/-! ## Effects -/

/-- What an action does with the patches: nothing new is held; the job is asked and gives nothing, or a
queued patch; a holder gives its patch back, or returns it; failed patches and ones without references
are requeued. -/
inductive Effect (s s' : Daemon) : Prop
  | keep (job : s'.job = s.job) (results : s'.results = s.results)
      (holders : ∀ i, s'.holders i ≤ s.holders i)
  | ask (job : s'.job.Accounts s.results) (results : s'.results = s.results)
      (patches : s'.job.patches = s.job.patches) (holders : ∀ i, s'.holders i = s.holders i)
  | hand (p : ℕ) (job : s'.job.Accounts s.results) (results : s'.results = s.results)
      (queued : s.job.patchStep p = some JStep.queued)
      (patches : s'.job.patches = (s.job.setPatch p JStep.running).patches)
      (holders : ∀ i, s'.holders i = s.holders i + if i = p then 1 else 0)
  | giveBack (p step : ℕ) (step_eq : step = JStep.queued ∨ step = JStep.err)
      (job : s'.job = s.job.setPatch p step) (results : s'.results = s.results)
      (holders : ∀ i, s'.holders i + (if i = p then 1 else 0) = s.holders i)
  | result (p : ℕ) (job : s'.job = s.job.returnResult p) (results : s'.results = s.results ++ [p])
      (holders : ∀ i, s'.holders i + (if i = p then 1 else 0) = s.holders i)
  | requeue (locked : Bool) (limbo : ℕ → Bool) (unheld : ∀ i, limbo i → s.holders i = 0)
      (job : s'.job = s.job.checkParts locked limbo) (results : s'.results = s.results)
      (holders : ∀ i, s'.holders i = s.holders i)

section Steps

variable {s s' : Daemon} {a : Act} {h k p w : ℕ} {ok : Bool}

/-- A patch with a holder that gives it up was out. -/
theorem Sound.out_of_holders (hs : Sound s)
    (hheld : ∀ i, s'.holders i + (if i = p then 1 else 0) = s.holders i) :
    s.job.patchStep p = some JStep.running := by
  refine hs.custody.out p fun h0 => ?_
  have := hheld p
  rw [if_pos rfl] at this
  omega

/-- **Every effect keeps the accounts and the custody of the patches.** -/
theorem Effect.sound (he : Effect s s') (hs : Sound s) : Sound s' := by
  cases he with
  | keep hjob hres hheld =>
    exact ⟨by rw [hjob, hres]; exact hs.job, hs.custody.mono hheld fun i _ hi => by rwa [hjob]⟩
  | ask hacc hres hpatches hheld =>
    refine ⟨by rwa [hres], hs.custody.mono (fun i => (hheld i).le) fun i _ hi => ?_⟩
    rwa [Job.patchStep, hpatches]
  | hand p hacc hres hq hpatches hheld =>
    refine ⟨by rwa [hres], hs.custody.hand (p := p) (by rw [hq]; decide) hheld fun i hi => ?_⟩
    rw [Job.patchStep, hpatches, ← Job.patchStep, Job.patchStep_setPatch (Job.lt_of_patchStep hq)]
    split_ifs with hip
    · rfl
    · exact hi.resolve_left hip
  | giveBack p step hstep hjob hres hheld =>
    have hout := hs.out_of_holders hheld
    have hlt := Job.lt_of_patchStep hout
    refine ⟨?_, hs.custody.giveBack hheld fun i hi hold => ?_⟩
    · rw [hjob, hres]
      exact hs.job.setPatch (hs.job.running_of_patch hout).1 hlt (by rw [hout]; decide)
        (by rcases hstep with rfl | rfl <;> decide) (by rcases hstep with rfl | rfl <;> decide)
    · rw [hjob, Job.patchStep_setPatch hlt, if_neg hi]
      exact hold
  | result p hjob hres hheld =>
    have hout := hs.out_of_holders hheld
    refine ⟨by rw [hjob, hres]; exact hs.job.returnResult hout, hs.custody.giveBack hheld fun i hi hold => ?_⟩
    rw [hjob, hs.job.patchStep_returnResult hout, if_neg hi]
    exact hold
  | requeue locked limbo hun hjob hres hheld =>
    obtain ⟨hacc, hcases⟩ := hs.job.checkParts
    refine ⟨by rwa [hjob, hres], hs.custody.mono (fun i => (hheld i).le) fun i hi hold => ?_⟩
    rw [hjob]
    rcases hcases i with hc | ⟨-, herr | ⟨-, hlimbo⟩⟩
    · exact hc.trans hold
    · rw [hold] at herr
      exact absurd herr (by decide)
    · exact absurd ((hheld i).trans (hun i hlimbo)) hi

/-! ## Preparing -/

theorem prepareRemoteWork_effect {locked full : Bool} (hs : Sound s) :
    Effect s (s.prepareRemoteWork locked full) := by
  have hacc := @Job.Accounts.getWorkRemote _ _ locked full hs.job
  rcases s.job.getWorkRemote_spec locked full with ⟨hnone, hpatches⟩ | ⟨i, hsome, hq, hpatches⟩
  · refine .ask hacc rfl hpatches fun i => ?_
    simp only [holders, prepareRemoteWork, hnone, Option.toList_none, List.nil_append]
  · refine .hand i hacc rfl hq hpatches fun k => ?_
    simp only [holders, prepareRemoteWork, hsome, Option.toList_some, List.singleton_append,
      List.countP_cons, ite_beq]
    omega

theorem prepared_effect (hstep : s.prepared k = some s') : Effect s s' := by
  obtain ⟨p, hp, rfl⟩ := Option.map_eq_some_iff.mp hstep
  refine .keep rfl rfl fun i => ?_
  have h₁ := countP_eraseIdx (· == i) hp
  simp only [holders, countP_snoc]
  omega

theorem prepareFailed_effect (hstep : s.prepareFailed k = some s') : Effect s s' := by
  obtain ⟨p, hp, rfl⟩ := Option.map_eq_some_iff.mp hstep
  refine .giveBack p JStep.queued (.inl rfl) rfl rfl fun i => ?_
  have h₁ := countP_eraseIdx (· == i) hp
  rw [ite_beq] at h₁
  simp only [holders]
  omega

/-! ## Hosts and the WIPs registered for them -/

theorem getWIP_spec (s : Daemon) (h : ℕ) : ∃ wips peerWIP, (s.getWIP h).1 = { s with wips, peerWIP } ∧
    s.wips.length ≤ wips.length ∧ (∀ i, wips.countP (· == some i) = s.wips.countP (· == some i)) ∧
    (∀ w q : ℕ, wips[w]? = some (some q) → s.wips[w]? = some (some q)) ∧
    peerWIP h = some (s.getWIP h).2 ∧ (∀ h', h' ≠ h → peerWIP h' = s.peerWIP h') ∧
    (s.peerWIP h = some (s.getWIP h).2 ∨
      (s.getWIP h).2 = s.wips.length ∧ wips = s.wips ++ [none]) := by
  unfold getWIP
  cases hw : s.peerWIP h with
  | some w =>
    exact ⟨s.wips, s.peerWIP, rfl, le_rfl, fun _ => rfl, fun _ _ hq => hq, hw, fun _ _ => rfl, .inl rfl⟩
  | none =>
    refine ⟨s.wips ++ [none], Function.update s.peerWIP h (some s.wips.length), rfl, ?_, fun i => ?_,
      fun w q hq => ?_, Function.update_self .., fun h' hne => Function.update_of_ne hne .., .inr ⟨rfl, rfl⟩⟩
    · rw [List.length_append]; exact Nat.le_add_right ..
    · rw [countP_snoc]; rfl
    · rw [List.getElem?_append] at hq
      split_ifs at hq with hlt
      · exact hq
      · rw [List.getElem?_singleton] at hq
        split_ifs at hq
        cases Option.some.inj hq

theorem getWIP_effect : Effect s (s.getWIP h).1 := by
  obtain ⟨wips, peerWIP, heq, -, hcount, -⟩ := s.getWIP_spec h
  rw [heq]
  refine .keep rfl rfl fun i => ?_
  simp only [holders, hcount, le_refl]

/-- What `sendWork` does: it reads a request, and sends the first WIP of the queue or nothing. -/
theorem sendWork_cases {c : ℕ} {slot arrives : Bool} (hstep : s.sendWork h c slot arrives = some s') :
    ((slot = false ∨ s.wip_queue = []) ∧ ∃ hosts, s' = { s with hosts }) ∨
      ∃ p queue hosts, slot = true ∧ s.wip_queue = p :: queue ∧ s' = { s with
        wip_queue := queue
        wip_active := some (s.wip_active.getD (some p))
        wips := s.dropWIP h ++ [some p]
        peerWIP := Function.update s.peerWIP h (some s.wips.length)
        hosts := hosts } := by
  unfold sendWork at hstep
  split at hstep
  case h_2 => cases hstep
  case h_1 rest hsent =>
  cases slot with
  | false => exact .inl ⟨.inl rfl, _, (Option.some.inj hstep).symm⟩
  | true =>
    cases hq : s.wip_queue with
    | nil =>
      rw [hq] at hstep
      refine .inl ⟨.inr rfl, (s.readCommand h c rest).hosts, (Option.some.inj hstep).symm.trans ?_⟩
      rw [← hq]
      rfl
    | cons p queue =>
      rw [hq] at hstep
      exact .inr ⟨p, queue, _, rfl, rfl, (Option.some.inj hstep).symm⟩

theorem sendWork_effect {c : ℕ} {slot arrives : Bool} (hstep : s.sendWork h c slot arrives = some s') :
    Effect s s' := by
  obtain ⟨-, hosts, rfl⟩ | ⟨p, queue, hosts, rfl, hqueue, rfl⟩ := sendWork_cases hstep
  · exact .keep rfl rfl fun i => le_rfl
  · refine .keep rfl rfl fun i => ?_
    have hdrop := dropWIP_count (s := s) (h := h) i
    simp only [holders, countP_snoc, hqueue, List.countP_cons, ite_beq, Option.some.injEq]
    omega

/-- What `putParts` does: it reads a result and posts it with the WIP of the host. -/
theorem putParts_cases {c : ℕ} (hstep : s.putParts h c = some s') : ∃ p rest hosts,
    (s.hosts h).sent c = .putParts p :: rest ∧ s' = { (s.getWIP h).1 with
      hosts := hosts
      posted := s.posted ++ [((s.getWIP h).2, p)] } := by
  unfold putParts at hstep
  split at hstep
  case h_2 => cases hstep
  case h_1 p rest hsent =>
    refine ⟨p, rest, (s.readCommand h c rest).hosts, hsent, (Option.some.inj hstep).symm.trans ?_⟩
    unfold getWIP readCommand setHost
    cases s.peerWIP h with
    | none => rfl
    | some w => rfl

theorem putParts_effect {c : ℕ} (hstep : s.putParts h c = some s') : Effect s s' := by
  obtain ⟨p, rest, hosts, -, rfl⟩ := putParts_cases hstep
  obtain ⟨wips, peerWIP, heq, -, hcount, -⟩ := s.getWIP_spec h
  rw [heq]
  refine .keep rfl rfl fun i => ?_
  simp only [holders, hcount, le_refl]

theorem copyReset_cases (hstep : s.copyReset k = some s') : ∃ w p wip, s.posted[k]? = some (w, p) ∧
    s.wips[w]? = some wip ∧ s' = { s with
      posted := s.posted.eraseIdx k
      wips := s.wips.set w none
      handlers := s.handlers ++ [.copied wip p] } := by
  obtain ⟨⟨w, p⟩, hr, hmap⟩ := Option.bind_eq_some_iff.mp hstep
  obtain ⟨wip, hw, rfl⟩ := Option.map_eq_some_iff.mp hmap
  exact ⟨w, p, wip, hr, hw, rfl⟩

theorem copyReset_effect (hstep : s.copyReset k = some s') : Effect s s' := by
  obtain ⟨w, p, wip, -, hw, rfl⟩ := copyReset_cases hstep
  refine .keep rfl rfl fun i => ?_
  have hset := countP_set_none hw i
  simp only [holders, countP_snoc, Handler.holds_copied, beq_iff_eq]
  omega

/-! ## Handlers -/

theorem handlerFails_effect {wip_bak : Option ℕ} {hd : Handler} (hk : s.handlers[k]? = some hd)
    (hholds : ∀ i, hd.holds i = (wip_bak == some i)) : Effect s (s.handlerFails k wip_bak) := by
  have hcount : ∀ i, (s.handlerFails k wip_bak).holders i + (if wip_bak = some i then 1 else 0) =
      s.holders i := by
    intro i
    have herase := countP_eraseIdx (Handler.holds i) hk
    rw [hholds] at herase
    simp only [beq_iff_eq] at herase
    simp only [holders, handlerFails]
    omega
  cases wip_bak with
  | none => exact .keep rfl rfl fun i => (Nat.le_add_right ..).trans_eq (hcount i)
  | some p =>
    refine .giveBack p JStep.err (.inr rfl) rfl rfl fun i => ?_
    have := hcount i
    simp only [Option.some.injEq, eq_comm (a := p)] at this
    exact this

theorem unpackWork_cases (hstep : s.unpackWork k ok = some s') :
    (∃ p patch, s.handlers[k]? = some (.copied (some p) patch) ∧ ok = true ∧
      s' = { s with handlers := s.handlers.set k (.unpacked p patch) }) ∨
    ∃ wip_bak patch, s.handlers[k]? = some (.copied wip_bak patch) ∧ s' = s.handlerFails k wip_bak := by
  unfold unpackWork at hstep
  split at hstep
  case h_1 p patch hk =>
    split_ifs at hstep with hok
    · exact .inl ⟨p, patch, hk, hok, (Option.some.inj hstep).symm⟩
    · exact .inr ⟨_, patch, hk, (Option.some.inj hstep).symm⟩
  case h_2 patch hk => exact .inr ⟨_, patch, hk, (Option.some.inj hstep).symm⟩
  case h_3 => cases hstep

theorem unpackWork_effect (hstep : s.unpackWork k ok = some s') : Effect s s' := by
  rcases unpackWork_cases hstep with ⟨p, patch, hk, -, rfl⟩ | ⟨wip_bak, patch, hk, rfl⟩
  · refine .keep rfl rfl fun i => ?_
    have hset := countP_set (b := .unpacked p patch) (Handler.holds i) hk
    rw [Handler.holds_copied, Handler.holds_unpacked, ite_beq, ite_beq] at hset
    simp only [Option.some.injEq] at hset
    simp only [holders]
    omega
  · exact handlerFails_effect hk fun i => rfl

theorem returnResults_cases (hstep : s.returnResults k ok = some s') : ∃ p patch,
    s.handlers[k]? = some (.unpacked p patch) ∧
      (ok = true ∧ s' = { s with
          handlers := s.handlers.set k (.returned p)
          job := s.job.returnResult patch
          results := s.results ++ [patch] } ∨
        s' = s.handlerFails k (some p)) := by
  unfold returnResults at hstep
  split at hstep
  case h_1 p patch hk =>
    refine ⟨p, patch, hk, ?_⟩
    split_ifs at hstep with hok
    · exact .inl ⟨hok, (Option.some.inj hstep).symm⟩
    · exact .inr (Option.some.inj hstep).symm
  case h_2 => cases hstep

/-- What is returned is the patch that the handler holds. -/
theorem returnResults_effect (ha : Addressed s) (hstep : s.returnResults k ok = some s') :
    Effect s s' := by
  obtain ⟨p, patch, hk, ⟨-, rfl⟩ | rfl⟩ := returnResults_cases hstep
  · obtain rfl : patch = p := ha.handlers _ (List.mem_of_getElem? hk)
    refine .result patch rfl rfl fun i => ?_
    have hset := countP_set (b := .returned patch) (Handler.holds i) hk
    rw [Handler.holds_unpacked, ite_beq, Handler.holds_returned, if_neg Bool.false_ne_true] at hset
    simp only [holders]
    omega
  · exact handlerFails_effect hk fun i => rfl

theorem returnWork_cases (hstep : s.returnWork k = some s') : (∃ p, s.handlers[k]? = some (.returned p)) ∧
    s' = { s with handlers := s.handlers.eraseIdx k, wip_active := none } := by
  unfold returnWork at hstep
  split at hstep
  case h_1 p hk => exact ⟨⟨p, hk⟩, (Option.some.inj hstep).symm⟩
  case h_2 => cases hstep

theorem returnWork_effect (hstep : s.returnWork k = some s') : Effect s s' := by
  obtain ⟨⟨p, hk⟩, rfl⟩ := returnWork_cases hstep
  refine .keep rfl rfl fun i => ?_
  have herase := countP_eraseIdx (Handler.holds i) hk
  simp only [holders]
  omega

/-! ## Timeouts and requeueing -/

theorem cleanupWIP_cases (hstep : s.cleanupWIP h = some s') : ∃ w wip, s.peerWIP h = some w ∧
    s.wips[w]? = some wip ∧ s' = { s with
      peerWIP := Function.update s.peerWIP h none
      timedOutWIPs := if wip.isSome then s.timedOutWIPs ++ [w] else s.timedOutWIPs } := by
  obtain ⟨w, hw, hmap⟩ := Option.bind_eq_some_iff.mp hstep
  obtain ⟨wip, hwip, rfl⟩ := Option.map_eq_some_iff.mp hmap
  exact ⟨w, wip, hw, hwip, rfl⟩

theorem failedWIP_cases (hstep : s.failedWIP k = some s') : ∃ w wip, s.timedOutWIPs[k]? = some w ∧
    s.wips[w]? = some wip ∧ s' = { s with
      timedOutWIPs := s.timedOutWIPs.eraseIdx k
      wips := s.wips.set w none
      job := match wip with
        | some p => s.job.failWork [p]
        | none => s.job } := by
  obtain ⟨w, hw, hmap⟩ := Option.bind_eq_some_iff.mp hstep
  obtain ⟨wip, hwip, rfl⟩ := Option.map_eq_some_iff.mp hmap
  exact ⟨w, wip, hw, hwip, rfl⟩

theorem failedWIP_effect (hstep : s.failedWIP k = some s') : Effect s s' := by
  obtain ⟨w, wip, -, hwip, rfl⟩ := failedWIP_cases hstep
  cases wip with
  | none =>
    refine .keep rfl rfl fun i => ?_
    have hset := countP_set_none hwip i
    simp only [holders]
    omega
  | some p =>
    refine .giveBack p JStep.err (.inr rfl) rfl rfl fun i => ?_
    have hset := countP_set_none hwip i
    simp only [Option.some.injEq, eq_comm (a := p)] at hset
    simp only [holders]
    omega

/-- What holds a patch refers to it. -/
theorem holders_le_references (i : ℕ) : s.holders i ≤ s.references i :=
  Nat.add_le_add_left (List.countP_mono_left fun _ _ => Handler.refersTo_of_holds) _

theorem checkParts_effect {locked : Bool} {seen : ℕ → Bool} : Effect s (s.checkParts locked seen) := by
  refine .requeue locked (fun i => seen i && s.unreferenced i) (fun i hi => ?_) rfl rfl fun _ => rfl
  have hun := (Bool.and_eq_true_iff.mp (Bool.and_eq_true_iff.mp hi).2).1
  exact Nat.le_zero.mp ((holders_le_references i).trans_eq (beq_iff_eq.mp hun))

/-- **The effect of each action.** -/
theorem step_effect (hs : Sound s) (ha : Addressed s) (hstep : s.step a = some s') : Effect s s' := by
  have hsame : ∀ {s' : Daemon}, s'.job = s.job → s'.results = s.results → s'.holders = s.holders → Effect s s' :=
    fun hjob hres hheld => .keep hjob hres fun i => (congrFun hheld i).le
  cases a with
  | prepareRemoteWork locked full => rw [← Option.some.inj hstep]; exact prepareRemoteWork_effect hs
  | prepared k => exact prepared_effect hstep
  | prepareFailed k => exact prepareFailed_effect hstep
  | addConnection h => rw [← Option.some.inj hstep]; exact getWIP_effect
  | reconnect h => rw [← Option.some.inj hstep]; exact hsame rfl rfl rfl
  | askWork h => rw [← Option.some.inj hstep]; exact hsame rfl rfl rfl
  | sendResult h => obtain ⟨p, -, rfl⟩ := Option.map_eq_some_iff.mp hstep; exact hsame rfl rfl rfl
  | lose h c => rw [← Option.some.inj hstep]; exact hsame rfl rfl rfl
  | sendWork h c slot arrives => exact sendWork_effect hstep
  | putParts h c => exact putParts_effect hstep
  | copyReset k => exact copyReset_effect hstep
  | unpackWork k ok => exact unpackWork_effect hstep
  | returnResults k ok => exact returnResults_effect ha hstep
  | returnWork k => exact returnWork_effect hstep
  | returnLocal => rw [← Option.some.inj hstep]; exact hsame rfl rfl rfl
  | cleanupWIP h => obtain ⟨w, wip, -, -, rfl⟩ := cleanupWIP_cases hstep; exact hsame rfl rfl rfl
  | failedWIP k => exact failedWIP_effect hstep
  | checkParts locked seen => rw [← Option.some.inj hstep]; exact checkParts_effect

end Steps

end Daemon

end Redux
