import Redux.Lib.Run
import Redux.Daemon.Messages

/-!
# Daemon.Results — when no result is counted twice

The invariants of the manager put together for whole runs: whatever the order in which hosts ask, send
and send again, handlers run, work times out and patches are requeued, a patch is returned at most
once, a result for a WIP that was failed or returned changes nothing, and the job is done when the last
patch has returned.  This is so as long as results are read in time: `returnResults` does not look at the
step of a patch, and one that is read while its host has other work is counted once more.
-/

namespace Redux

open Momfbd Lib

namespace Daemon

/-! ## The invariant -/

/-- The invariant of the manager. -/
structure Inv (s : Daemon) : Prop where
  sound : s.Sound
  addressed : s.Addressed

section Invariant

variable {s s' : Daemon} {a : Act}

theorem Start.holders (hs : Start s) (i : ℕ) : s.holders i = 0 := by
  have hwips : s.wips.countP (· == some i) = 0 := by
    refine List.countP_eq_zero.mpr fun wip hwip => ?_
    rw [hs.wips wip hwip]
    simp
  rw [Daemon.holders, hs.preparing, hs.wip_queue, hs.handlers, hwips]
  rfl

theorem Start.sound (hs : Start s) : Sound s := by
  have hstep : ∀ i st, s.job.patchStep i = some st → st = JStep.queued := fun i st hi =>
    hs.patches.2 st (List.mem_of_getElem? hi)
  refine ⟨⟨hs.patches.1, fun i st hi => ?_, ?_, fun i => ?_, .queued hs.step hs.results hs.patches.2⟩,
    ⟨fun i => ?_, fun i hi => ?_⟩⟩
  · rw [hstep i st hi]; decide
  · rw [hs.results]; exact List.nodup_nil
  · rw [hs.results]
    refine ⟨fun h => absurd h List.not_mem_nil, fun h => ?_⟩
    exact absurd (hstep i _ h) (by decide)
  · rw [hs.holders]; exact Nat.zero_le _
  · exact absurd (hs.holders i) hi

theorem Start.addressed (hs : Start s) : Addressed s where
  peer_lt := hs.peerWIP
  posted_lt w p hp := by rw [hs.posted] at hp; exact absurd hp List.not_mem_nil
  posted w p q hp := by rw [hs.posted] at hp; exact absurd hp List.not_mem_nil
  handlers hd hhd := by rw [hs.handlers] at hhd; exact absurd hhd List.not_mem_nil

theorem Start.inv (hs : Start s) : Inv s := ⟨hs.sound, hs.addressed⟩

/-- **Every action keeps the invariant**, if no result is late. -/
theorem step_inv (hs : Inv s) (hstep : s.step a = some s') (htimely : Timely s a s') : Inv s' :=
  ⟨(step_effect hs.sound hs.addressed hstep).sound hs.sound, step_addressed hs.addressed hstep htimely⟩

end Invariant

/-! ## Exact counting -/

/-- Patches in `JSTEP_POSTPROCESS` are the ones returned, each once and each counted, and the job is
done exactly when all of them are. -/
structure Exact (s : Daemon) : Prop where
  once : s.results.Nodup
  postprocess : ∀ i, s.job.patchStep i = some JStep.postprocess ↔ i ∈ s.results
  counted : s.job.step = JStep.running → s.job.progWatch.counter = s.results.length
  step : s.job.step ∈ [JStep.queued, JStep.running, JStep.done]
  done : s.job.step = JStep.done ↔ ∀ i < s.job.patches.length, i ∈ s.results

/-- What a transition does with results: one that is new is of a patch that was out and is counted by
`returnResults`; a WIP that is failed or returned stays without a patch, and a result for it changes no
patch. -/
structure Ignores (s : Daemon) (a : Act) (s' : Daemon) : Prop where
  counts : ∀ i ∈ s'.results, i ∉ s.results → s.job.patchStep i = some JStep.running ∧
    s'.job.patchStep i = some JStep.postprocess ∧ ∃ k, a = .returnResults k true
  returned : ∀ k w p, a = .copyReset k → s.posted[k]? = some (w, p) → s'.wips[w]? = some none
  failed : ∀ k w, a = .failedWIP k → s.timedOutWIPs[k]? = some w → s'.wips[w]? = some none
  spent : ∀ w : ℕ, s.wips[w]? = some none → s'.wips[w]? = some none
  copied : ∀ k w p, a = .copyReset k → s.posted[k]? = some (w, p) → s.wips[w]? = some none →
    s'.job = s.job ∧ s'.handlers = s.handlers ++ [.copied none p]
  ignored : ∀ k ok p, a = .unpackWork k ok → s.handlers[k]? = some (.copied none p) →
    s'.job = s.job ∧ s'.results = s.results ∧ s'.handlers = s.handlers.eraseIdx k

section Counting

variable {s s' : Daemon} {a : Act} {w : ℕ}

theorem Inv.exact (hs : Inv s) : Exact s where
  once := hs.sound.job.nodup
  postprocess i := (hs.sound.job.returned i).symm
  counted hrun := by
    cases hs.sound.job.phase with
    | queued hq => rw [hrun] at hq; exact absurd hq (by decide)
    | running _ _ _ hc => exact hc
    | done hd => rw [hrun] at hd; exact absurd hd (by decide)
  step := by
    cases hs.sound.job.phase with
    | queued h => rw [h]; decide
    | running h => rw [h]; decide
    | done h => rw [h]; decide
  done := hs.sound.job.done_iff

theorem set_spent {wips : List (Option ℕ)} {w' : ℕ} (hw : wips[w]? = some none) :
    (wips.set w' none)[w]? = some none := by
  rw [List.getElem?_set]
  split_ifs with heq hlt
  · rfl
  · exact absurd (heq ▸ (List.getElem?_eq_some_iff.mp hw).1) hlt
  · exact hw

theorem append_spent {wips : List (Option ℕ)} {wip : Option ℕ} (hw : wips[w]? = some none) :
    (wips ++ [wip])[w]? = some none := by
  rw [List.getElem?_append_left (List.getElem?_eq_some_iff.mp hw).1, hw]

theorem getWIP_spent {h : ℕ} (hw : s.wips[w]? = some none) : (s.getWIP h).1.wips[w]? = some none := by
  unfold getWIP
  split
  · exact hw
  · exact append_spent hw

theorem dropWIP_spent {h : ℕ} (hw : s.wips[w]? = some none) : (s.dropWIP h)[w]? = some none := by
  rcases s.dropWIP_cases h with heq | ⟨w', -, -, heq⟩ <;> rw [heq]
  · exact hw
  · exact set_spent hw

/-- A WIP that was reset never gets a patch again. -/
theorem step_spent (hw : s.wips[w]? = some none) (hstep : s.step a = some s') :
    s'.wips[w]? = some none := by
  cases a with
  | prepareRemoteWork locked full => rw [← Option.some.inj hstep]; exact hw
  | prepared k => obtain ⟨p, -, rfl⟩ := Option.map_eq_some_iff.mp hstep; exact hw
  | prepareFailed k => obtain ⟨p, -, rfl⟩ := Option.map_eq_some_iff.mp hstep; exact hw
  | addConnection h => rw [← Option.some.inj hstep]; exact getWIP_spent hw
  | reconnect h => rw [← Option.some.inj hstep]; exact hw
  | askWork h => rw [← Option.some.inj hstep]; exact hw
  | sendResult h => obtain ⟨p, -, rfl⟩ := Option.map_eq_some_iff.mp hstep; exact hw
  | lose h c => rw [← Option.some.inj hstep]; exact hw
  | sendWork h c slot arrives =>
    obtain ⟨-, hosts, rfl⟩ | ⟨p, queue, hosts, -, -, rfl⟩ := sendWork_cases hstep
    · exact hw
    · exact append_spent (dropWIP_spent hw)
  | putParts h c =>
    obtain ⟨p, rest, hosts, -, rfl⟩ := putParts_cases hstep
    exact getWIP_spent hw
  | copyReset k =>
    obtain ⟨w', p, wip, -, -, rfl⟩ := copyReset_cases hstep
    exact set_spent hw
  | unpackWork k ok =>
    obtain ⟨p, patch, -, -, rfl⟩ | ⟨wip_bak, patch, -, rfl⟩ := unpackWork_cases hstep <;> exact hw
  | returnResults k ok =>
    obtain ⟨p, patch, -, ⟨-, rfl⟩ | rfl⟩ := returnResults_cases hstep <;> exact hw
  | returnWork k => obtain ⟨-, rfl⟩ := returnWork_cases hstep; exact hw
  | returnLocal => rw [← Option.some.inj hstep]; exact hw
  | cleanupWIP h => obtain ⟨w', wip, -, -, rfl⟩ := cleanupWIP_cases hstep; exact hw
  | failedWIP k =>
    obtain ⟨w', wip, -, -, rfl⟩ := failedWIP_cases hstep
    exact set_spent hw
  | checkParts locked seen => rw [← Option.some.inj hstep]; exact hw

/-- Only `returnResults` adds a result. -/
theorem step_results (hstep : s.step a = some s') : s'.results = s.results ∨
    ∃ k p patch, a = .returnResults k true ∧ s.handlers[k]? = some (.unpacked p patch) ∧
      s'.results = s.results ++ [patch] ∧ s'.job = s.job.returnResult patch := by
  cases a with
  | prepareRemoteWork locked full => rw [← Option.some.inj hstep]; exact .inl rfl
  | prepared k => obtain ⟨p, -, rfl⟩ := Option.map_eq_some_iff.mp hstep; exact .inl rfl
  | prepareFailed k => obtain ⟨p, -, rfl⟩ := Option.map_eq_some_iff.mp hstep; exact .inl rfl
  | addConnection h =>
    rw [← Option.some.inj hstep]
    obtain ⟨wips, peerWIP, heq, -⟩ := s.getWIP_spec h
    rw [heq]
    exact .inl rfl
  | reconnect h => rw [← Option.some.inj hstep]; exact .inl rfl
  | askWork h => rw [← Option.some.inj hstep]; exact .inl rfl
  | sendResult h => obtain ⟨p, -, rfl⟩ := Option.map_eq_some_iff.mp hstep; exact .inl rfl
  | lose h c => rw [← Option.some.inj hstep]; exact .inl rfl
  | sendWork h c slot arrives =>
    obtain ⟨-, hosts, rfl⟩ | ⟨p, queue, hosts, -, -, rfl⟩ := sendWork_cases hstep <;> exact .inl rfl
  | putParts h c =>
    obtain ⟨p, rest, hosts, -, rfl⟩ := putParts_cases hstep
    obtain ⟨wips, peerWIP, heq, -⟩ := s.getWIP_spec h
    refine .inl ?_
    dsimp only
    rw [heq]
  | copyReset k => obtain ⟨w', p, wip, -, -, rfl⟩ := copyReset_cases hstep; exact .inl rfl
  | unpackWork k ok =>
    obtain ⟨p, patch, -, -, rfl⟩ | ⟨wip_bak, patch, -, rfl⟩ := unpackWork_cases hstep <;> exact .inl rfl
  | returnResults k ok =>
    obtain ⟨p, patch, hk, ⟨rfl, rfl⟩ | rfl⟩ := returnResults_cases hstep
    · exact .inr ⟨k, p, patch, rfl, hk, rfl, rfl⟩
    · exact .inl rfl
  | returnWork k => obtain ⟨-, rfl⟩ := returnWork_cases hstep; exact .inl rfl
  | returnLocal => rw [← Option.some.inj hstep]; exact .inl rfl
  | cleanupWIP h => obtain ⟨w', wip, -, -, rfl⟩ := cleanupWIP_cases hstep; exact .inl rfl
  | failedWIP k => obtain ⟨w', wip, -, -, rfl⟩ := failedWIP_cases hstep; exact .inl rfl
  | checkParts locked seen => rw [← Option.some.inj hstep]; exact .inl rfl

/-- The patch a handler unpacked is out. -/
theorem Inv.unpacked_out (hs : Inv s) {k p patch : ℕ} (hk : s.handlers[k]? = some (.unpacked p patch)) :
    s.job.patchStep patch = some JStep.running := by
  obtain rfl : patch = p := hs.addressed.handlers _ (List.mem_of_getElem? hk)
  refine hs.sound.custody.out patch fun h0 => ?_
  have hpos : 0 < s.handlers.countP (Handler.holds patch) :=
    List.countP_pos_iff.mpr ⟨_, List.mem_of_getElem? hk, by simp⟩
  rw [holders] at h0
  omega

/-- **What every transition does with results.** -/
theorem Inv.ignores (hs : Inv s) (hstep : s.step a = some s') : Ignores s a s' where
  counts i hi hnew := by
    rcases step_results hstep with heq | ⟨k, p, patch, rfl, hk, hres, hjob⟩
    · exact absurd (heq ▸ hi) hnew
    · rw [hres, List.mem_append, List.mem_singleton] at hi
      obtain rfl := hi.resolve_left hnew
      have hout := hs.unpacked_out hk
      refine ⟨hout, ?_, k, rfl⟩
      rw [hjob, hs.sound.job.patchStep_returnResult hout, if_pos rfl]
  returned k w p ha hk := by
    subst ha
    obtain ⟨w', p', wip, hk', hw, rfl⟩ := copyReset_cases hstep
    obtain ⟨rfl, rfl⟩ := Prod.mk.inj (Option.some.inj (hk.symm.trans hk'))
    exact List.getElem?_set_self (List.getElem?_eq_some_iff.mp hw).1
  failed k w ha hk := by
    subst ha
    obtain ⟨w', wip, hk', hw, rfl⟩ := failedWIP_cases hstep
    obtain rfl := Option.some.inj (hk.symm.trans hk')
    exact List.getElem?_set_self (List.getElem?_eq_some_iff.mp hw).1
  spent w hw := step_spent hw hstep
  copied k w p ha hk hw := by
    subst ha
    obtain ⟨w', p', wip, hk', hw', rfl⟩ := copyReset_cases hstep
    obtain ⟨rfl, rfl⟩ := Prod.mk.inj (Option.some.inj (hk.symm.trans hk'))
    obtain rfl := Option.some.inj (hw.symm.trans hw')
    exact ⟨rfl, rfl⟩
  ignored k ok p ha hk := by
    subst ha
    rcases unpackWork_cases hstep with ⟨q, patch, hk', -⟩ | ⟨wip_bak, patch, hk', rfl⟩
    · cases Option.some.inj (hk.symm.trans hk')
    · obtain ⟨rfl, rfl⟩ := Handler.copied.inj (Option.some.inj (hk.symm.trans hk'))
      exact ⟨rfl, rfl, rfl⟩

/-- **No result is counted twice, one for a WIP that was failed or returned changes nothing, and the job is
done exactly when every patch has returned, in every run from a queued job in which no result is late.** -/
theorem results_counted_once (hs : Start s) (as : List Act) (htimely : Each Daemon.step Timely s as) :
    Always Daemon.step Exact s as ∧ Each Daemon.step Ignores s as :=
  ⟨(always_of_each (fun _ _ _ hs ht hstep => step_inv hs hstep ht) hs.inv htimely).mono fun _ hs => hs.exact,
    each_of_each (fun _ _ _ hs ht hstep => ⟨step_inv hs hstep ht, hs.ignores hstep⟩) hs.inv htimely⟩

end Counting

/-- A manager with a queued job of `n` patches and no hosts yet. -/
def queued (n : ℕ) : Daemon where
  job := ⟨1, JStep.queued, false, List.replicate n JStep.queued, .clear, []⟩
  preparing := []
  wip_queue := []
  wips := []
  peerWIP _ := none
  wip_active := none
  posted := []
  handlers := []
  timedOutWIPs := []
  hosts _ := ⟨none, 0, fun _ => []⟩
  results := []

theorem start_queued {n : ℕ} (hn : 0 < n) : Start (queued n) where
  step := rfl
  patches := ⟨List.ne_nil_of_length_pos (by simpa [queued] using hn), fun _ hp => List.eq_of_mem_replicate hp⟩
  preparing := rfl
  wip_queue := rfl
  wips _ hwip := absurd hwip List.not_mem_nil
  peerWIP _ _ hw := by cases hw
  wip_active := .inl rfl
  posted := rfl
  handlers := rfl
  timedOutWIPs := rfl
  results := rfl

theorem timely_of_ne {s s' : Daemon} {a : Act} (ha : ∀ h c, a ≠ .putParts h c) : Timely s a s' :=
  fun h c _ _ _ _ heq => absurd heq (ha h c)

/-- A host returns the only patch, and connects anew to send the result again; the first copy is read last. -/
def resent : List Act :=
  [.prepareRemoteWork true false, .prepared 0, .askWork 3, .sendWork 3 0 true true, .sendResult 3, .reconnect 3,
    .sendResult 3, .putParts 3 1, .copyReset 0, .unpackWork 0 true, .returnResults 0 true, .returnWork 0,
    .putParts 3 0, .copyReset 0, .unpackWork 0 true]

theorem resent_timely : Each Daemon.step Timely (queued 1) resent := by
  iterate 7 refine Each.cons rfl (timely_of_ne (by simp)) ?_
  refine Each.cons rfl ?_ ?_
  · rintro h c p rest w q heq hsent hw hq
    cases heq
    obtain rfl : 0 = p := Command.putParts.inj (List.cons.inj hsent).1
    obtain rfl : 0 = w := Option.some.inj hw
    exact Option.some.inj (Option.some.inj hq)
  iterate 4 refine Each.cons rfl (timely_of_ne (by simp)) ?_
  refine Each.cons rfl ?_ ?_
  · rintro h c p rest w q heq - hw hq
    cases heq
    obtain rfl : 0 = w := Option.some.inj hw
    cases Option.some.inj hq
  iterate 2 refine Each.cons rfl (timely_of_ne (by simp)) ?_
  trivial

theorem results_counted_once_resent :
    (Always Daemon.step Exact (queued 1) resent ∧ Each Daemon.step Ignores (queued 1) resent) ∧
      (resent.foldlM Daemon.step (queued 1)).map (fun s => (s.results, s.job.step)) =
        some ([0], JStep.done) :=
  ⟨results_counted_once (start_queued (by decide)) resent resent_timely, by decide⟩

/-- A host connects anew to send its result again, and is sent the other patch before the first copy is read. -/
def late : List Act :=
  [.prepareRemoteWork true false, .prepared 0, .prepareRemoteWork true false, .prepared 0, .askWork 3,
    .sendWork 3 0 true true, .sendResult 3, .reconnect 3, .sendResult 3, .putParts 3 1, .copyReset 0,
    .unpackWork 0 true, .returnResults 0 true, .returnWork 0, .askWork 3, .sendWork 3 1 true true, .putParts 3 0,
    .copyReset 0, .unpackWork 0 true, .returnResults 0 true]

/-- The patch is counted twice, and the job is done without the other one. -/
theorem result_counted_twice : ¬(Always Daemon.step Exact (queued 2) late ∧ Each Daemon.step Ignores (queued 2) late) ∧
    (late.foldlM Daemon.step (queued 2)).map (fun s => (s.results, s.job.step)) = some ([0, 0], JStep.done) := by
  have hend : (late.foldlM Daemon.step (queued 2)).map (fun s => (s.results, s.job.step)) =
      some ([0, 0], JStep.done) := by decide
  refine ⟨fun h => ?_, hend⟩
  obtain ⟨s, hlast, heq⟩ := Option.map_eq_some_iff.mp hend
  have honce := (h.1.last hlast).once
  rw [(Prod.mk.inj heq).1] at honce
  exact absurd honce (by decide)

end Daemon

end Redux
