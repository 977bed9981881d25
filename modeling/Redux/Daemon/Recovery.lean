import Redux.Daemon.Results

/-!
# Daemon.Recovery — which patches can come back

A patch that is out comes back in three ways: a result or a failure from the WIP that holds it, a
timeout of the WIP registered for its host, or `checkParts`, which requeues a running patch that
nothing else refers to.  `wip_active` refers to a patch without being able to fail or return it, so it
can stand in the way of the third.  It does when a host that has the patch of the active entry is sent
other work: its WIP leaves `peerWIP` and the active entry stays.
-/

namespace Redux

open Momfbd Lib

namespace Daemon

/-- A result of patch `i` is being handled, or its timeout. -/
def InHand (s : Daemon) (i : ℕ) : Prop :=
  (∃ w, s.inHand w ∧ s.wips[w]? = some (some i)) ∨ ∃ hd ∈ s.handlers, hd.refersTo i

/-- Patch `i` is in the queue or being prepared, held by a WIP registered in `peerWIP`, in hand, or
without references. -/
def Recoverable (s : Daemon) (i : ℕ) : Prop :=
  i ∈ s.preparing ∨ i ∈ s.wip_queue ∨ (∃ h w, s.peerWIP h = some w ∧ s.wips[w]? = some (some i)) ∨
    s.InHand i ∨ s.unreferenced i

/-- Every running patch can come back. -/
def NoneLost (s : Daemon) : Prop :=
  ∀ i, s.job.patchStep i = some JStep.running → s.Recoverable i

/-- No host is sent work while it has the patch of the active entry, unless a result or a timeout of
that patch is in hand. -/
def KeepsActive (s : Daemon) (a : Act) (_ : Daemon) : Prop :=
  ∀ h c arrives w i, a = .sendWork h c true arrives → s.wip_queue ≠ [] → s.peerWIP h = some w →
    s.wips[w]? = some (some i) → s.wip_active = some (some i) → s.inHand w

/-- WIPs with a patch are registered or in hand: the others are destroyed. -/
def Registered (s : Daemon) : Prop :=
  ∀ w i, s.wips[w]? = some (some i) → (∃ h, s.peerWIP h = some w) ∨ s.inHand w

/-- Patch `i` runs, and only the active entry refers to it. -/
def Lost (s : Daemon) (i : ℕ) : Prop :=
  s.job.patchStep i = some JStep.running ∧ s.references i = 0 ∧ s.wip_active = some (some i)

section Recovery

variable {s s' : Daemon} {a : Act} {i h k p : ℕ}

/-! ## Registered WIPs -/

theorem inHand_iff {w : ℕ} : s.inHand w ↔ (∃ p, (w, p) ∈ s.posted) ∨ w ∈ s.timedOutWIPs := by
  simp [inHand]

theorem Registered.same (hr : Registered s) (hwips : s'.wips = s.wips) (hpeer : s'.peerWIP = s.peerWIP)
    (hposted : s'.posted = s.posted) (htimed : s'.timedOutWIPs = s.timedOutWIPs) : Registered s' := by
  intro w i hw
  rw [hwips] at hw
  rw [inHand, hpeer, hposted, htimed]
  exact hr w i hw

theorem getWIP_hand : (s.getWIP h).1.posted = s.posted ∧ (s.getWIP h).1.timedOutWIPs = s.timedOutWIPs := by
  obtain ⟨wips, peerWIP, heq, -⟩ := s.getWIP_spec h
  rw [heq]
  exact ⟨rfl, rfl⟩

theorem getWIP_peer {h' w : ℕ} (hw : s.peerWIP h' = some w) : (s.getWIP h).1.peerWIP h' = some w := by
  unfold getWIP
  cases hh : s.peerWIP h with
  | some w' => exact hw
  | none =>
    dsimp only
    rw [Function.update_of_ne, hw]
    rintro rfl
    rw [hh] at hw
    cases hw

theorem getWIP_registered_all (hr : Registered s) : Registered (s.getWIP h).1 := by
  intro w i hw
  obtain ⟨wips, peerWIP, heq, -, -, hwips, -⟩ := s.getWIP_spec h
  rw [inHand, getWIP_hand.1, getWIP_hand.2]
  rw [heq] at hw
  rcases hr w i (hwips w i hw) with ⟨h', hh'⟩ | hin
  · exact .inl ⟨h', getWIP_peer hh'⟩
  · exact .inr hin

theorem sendWork_registered {c : ℕ} {slot arrives : Bool} (hr : Registered s)
    (hstep : s.sendWork h c slot arrives = some s') : Registered s' := by
  obtain ⟨-, hosts, rfl⟩ | ⟨p, queue, hosts, -, -, rfl⟩ := sendWork_cases hstep
  · exact hr.same rfl rfl rfl rfl
  intro w i hw
  dsimp only at hw
  rw [List.getElem?_append, dropWIP_length] at hw
  split_ifs at hw with hlt
  · -- an old WIP: it is not the one dropped, or in hand
    rcases hr w i (dropWIP_some hw) with ⟨h', hh'⟩ | hin
    · by_cases heq : h' = h
      · subst heq
        right
        rcases s.dropWIP_cases h' with hsame | ⟨w', hw', -, hset⟩
        · unfold dropWIP at hsame
          rw [hh'] at hsame
          dsimp only at hsame
          by_contra hin
          have hin' : ¬ s.inHand w := hin
          rw [if_neg hin'] at hsame
          have hnone : (s.wips.set w none)[w]? = some (some i) := by rw [hsame]; exact dropWIP_some hw
          exact (getElem?_set_none.mp hnone).2 rfl
        · rw [hset, getElem?_set_none] at hw
          exact absurd (Option.some.inj (hw'.symm.trans hh')) hw.2
      · exact .inl ⟨h', by dsimp only; rw [Function.update_of_ne heq, hh']⟩
    · exact .inr hin
  · -- the new one
    have hw' : w = s.wips.length := by
      have := (List.getElem?_eq_some_iff.mp hw).1
      rw [List.length_singleton] at this
      omega
    exact .inl ⟨h, by dsimp only; rw [Function.update_self, hw']⟩

theorem putParts_registered {c : ℕ} (hr : Registered s) (hstep : s.putParts h c = some s') : Registered s' := by
  obtain ⟨p, rest, hosts, -, rfl⟩ := putParts_cases hstep
  intro w i hw
  rcases getWIP_registered_all (h := h) hr w i hw with hreg | hin
  · exact .inl hreg
  · refine .inr (inHand_iff.mpr ?_)
    rcases inHand_iff.mp hin with ⟨p', hp'⟩ | htimed
    · exact .inl ⟨p', List.mem_append_left _ (getWIP_hand.1 ▸ hp')⟩
    · exact .inr htimed

theorem copyReset_registered (hr : Registered s) (hstep : s.copyReset k = some s') : Registered s' := by
  obtain ⟨w, p, wip, hk, -, rfl⟩ := copyReset_cases hstep
  intro w' i hw
  obtain ⟨hold, hne⟩ := getElem?_set_none.mp hw
  rcases hr w' i hold with hreg | hin
  · exact .inl hreg
  · refine .inr (inHand_iff.mpr ?_)
    rcases inHand_iff.mp hin with ⟨p', hp'⟩ | htimed
    · refine .inl ⟨p', List.mem_eraseIdx_iff_getElem?.mpr ?_⟩
      obtain ⟨j, hj⟩ := List.mem_iff_getElem?.mp hp'
      refine ⟨j, ?_, hj⟩
      rintro rfl
      exact hne (Prod.mk.inj (Option.some.inj (hk.symm.trans hj))).1
    · exact .inr htimed

theorem cleanupWIP_registered (hr : Registered s) (hstep : s.cleanupWIP h = some s') : Registered s' := by
  obtain ⟨w, wip, hpeer, hwip, rfl⟩ := cleanupWIP_cases hstep
  intro w' i hw
  have hmono : ∀ w', s.inHand w' → (∃ p, (w', p) ∈ s.posted) ∨
      w' ∈ (if wip.isSome then s.timedOutWIPs ++ [w] else s.timedOutWIPs) := by
    intro w' hin
    rcases inHand_iff.mp hin with hp | htimed
    · exact .inl hp
    · right
      split_ifs
      · exact List.mem_append_left _ htimed
      · exact htimed
  rcases hr w' i hw with ⟨h', hh'⟩ | hin
  · by_cases heq : h' = h
    · subst heq
      obtain rfl : w = w' := Option.some.inj (hpeer.symm.trans hh')
      refine .inr (inHand_iff.mpr (.inr ?_))
      dsimp only at hw ⊢
      rw [hw] at hwip
      rw [← Option.some.inj hwip, Option.isSome_some, if_pos rfl]
      exact List.mem_append_right _ (List.mem_singleton_self w)
    · exact .inl ⟨h', by dsimp only; rw [Function.update_of_ne heq, hh']⟩
  · exact .inr (inHand_iff.mpr (hmono w' hin))

theorem failedWIP_registered (hr : Registered s) (hstep : s.failedWIP k = some s') : Registered s' := by
  obtain ⟨w, wip, hk, -, rfl⟩ := failedWIP_cases hstep
  intro w' i hw
  obtain ⟨hold, hne⟩ := getElem?_set_none.mp hw
  rcases hr w' i hold with hreg | hin
  · exact .inl hreg
  · refine .inr (inHand_iff.mpr ?_)
    rcases inHand_iff.mp hin with hp | htimed
    · exact .inl hp
    · refine .inr (List.mem_eraseIdx_iff_getElem?.mpr ?_)
      obtain ⟨j, hj⟩ := List.mem_iff_getElem?.mp htimed
      refine ⟨j, ?_, hj⟩
      rintro rfl
      exact hne (Option.some.inj (hk.symm.trans hj))

theorem step_registered (hr : Registered s) (hstep : s.step a = some s') : Registered s' := by
  cases a with
  | prepareRemoteWork locked full => rw [← Option.some.inj hstep]; exact hr.same rfl rfl rfl rfl
  | prepared k =>
    obtain ⟨p, -, rfl⟩ := Option.map_eq_some_iff.mp hstep
    exact hr.same rfl rfl rfl rfl
  | prepareFailed k =>
    obtain ⟨p, -, rfl⟩ := Option.map_eq_some_iff.mp hstep
    exact hr.same rfl rfl rfl rfl
  | addConnection h => rw [← Option.some.inj hstep]; exact getWIP_registered_all hr
  | reconnect h => rw [← Option.some.inj hstep]; exact hr.same rfl rfl rfl rfl
  | askWork h => rw [← Option.some.inj hstep]; exact hr.same rfl rfl rfl rfl
  | sendResult h =>
    obtain ⟨p, -, rfl⟩ := Option.map_eq_some_iff.mp hstep
    exact hr.same rfl rfl rfl rfl
  | lose h c => rw [← Option.some.inj hstep]; exact hr.same rfl rfl rfl rfl
  | sendWork h c slot arrives => exact sendWork_registered hr hstep
  | putParts h c => exact putParts_registered hr hstep
  | copyReset k => exact copyReset_registered hr hstep
  | unpackWork k ok =>
    obtain ⟨p, patch, -, -, rfl⟩ | ⟨wip_bak, patch, -, rfl⟩ := unpackWork_cases hstep <;>
      exact hr.same rfl rfl rfl rfl
  | returnResults k ok =>
    obtain ⟨p, patch, -, ⟨-, rfl⟩ | rfl⟩ := returnResults_cases hstep <;> exact hr.same rfl rfl rfl rfl
  | returnWork k =>
    obtain ⟨-, rfl⟩ := returnWork_cases hstep
    exact hr.same rfl rfl rfl rfl
  | returnLocal => rw [← Option.some.inj hstep]; exact hr.same rfl rfl rfl rfl
  | cleanupWIP h => exact cleanupWIP_registered hr hstep
  | failedWIP k => exact failedWIP_registered hr hstep
  | checkParts locked seen => rw [← Option.some.inj hstep]; exact hr.same rfl rfl rfl rfl

/-! ## Lost patches -/

theorem references_ne_zero : s.references i ≠ 0 ↔ i ∈ s.preparing ∨ i ∈ s.wip_queue ∨ some i ∈ s.wips ∨
    ∃ hd ∈ s.handlers, hd.refersTo i := by
  have hcount : ∀ {α : Type} (l : List α) (q : α → Bool), l.countP q = 0 ↔ ¬ ∃ a ∈ l, q a := by
    intro α l q
    rw [List.countP_eq_zero]
    simp
  rw [references, ne_eq, Nat.add_eq_zero_iff, Nat.add_eq_zero_iff, Nat.add_eq_zero_iff, hcount, hcount, hcount,
    hcount]
  simp only [beq_iff_eq, exists_eq_right]
  rw [not_and_or, not_and_or, not_and_or, not_not, not_not, not_not, not_not, or_assoc, or_assoc]

/-- **What can come back has other references or none at all.** -/
theorem Registered.recoverable_iff (hr : Registered s) :
    s.Recoverable i ↔ s.references i ≠ 0 ∨ s.wip_active ≠ some (some i) := by
  have hun : s.unreferenced i ↔ s.references i = 0 ∧ s.wip_active ≠ some (some i) := by
    simp [unreferenced]
  rw [Recoverable, InHand, hun]
  constructor
  · rintro (hp | hq | ⟨h, w, -, hw⟩ | (⟨w, -, hw⟩ | hd) | ⟨-, hact⟩)
    · exact .inl (references_ne_zero.mpr (.inl hp))
    · exact .inl (references_ne_zero.mpr (.inr (.inl hq)))
    · exact .inl (references_ne_zero.mpr (.inr (.inr (.inl (List.mem_of_getElem? hw)))))
    · exact .inl (references_ne_zero.mpr (.inr (.inr (.inl (List.mem_of_getElem? hw)))))
    · exact .inl (references_ne_zero.mpr (.inr (.inr (.inr hd))))
    · exact .inr hact
  · intro hheld
    by_cases h0 : s.references i = 0
    · exact .inr (.inr (.inr (.inr ⟨h0, hheld.resolve_left fun h => h h0⟩)))
    · rcases references_ne_zero.mp h0 with hp | hq | hw | hd
      · exact .inl hp
      · exact .inr (.inl hq)
      · obtain ⟨w, hw⟩ := List.mem_iff_getElem?.mp hw
        rcases hr w i hw with ⟨h, hh⟩ | hin
        · exact .inr (.inr (.inl ⟨h, w, hh, hw⟩))
        · exact .inr (.inr (.inr (.inl (.inl ⟨w, hin, hw⟩))))
      · exact .inr (.inr (.inr (.inl (.inr hd))))

theorem Registered.noneLost_iff (hr : Registered s) : s.NoneLost ↔ ∀ i, ¬ s.Lost i := by
  constructor
  · rintro h i ⟨hrun, h0, hact⟩
    exact (hr.recoverable_iff.mp (h i hrun)).elim (fun hne => hne h0) fun hne => hne hact
  · intro h i hrun
    refine hr.recoverable_iff.mpr ?_
    by_contra hno
    rw [not_or, not_not, not_not] at hno
    exact h i ⟨hrun, hno.1, hno.2⟩

/-- The WIP dropped for a new one held patch `i`, if `i` lost a holder. -/
theorem dropWIP_lost (hlt : (s.dropWIP h).countP (· == some i) < s.wips.countP (· == some i)) :
    ∃ w, s.peerWIP h = some w ∧ s.wips[w]? = some (some i) ∧ ¬ s.inHand w := by
  rcases s.dropWIP_cases h with heq | ⟨w, hw, hin, heq⟩
  · rw [heq] at hlt; exact absurd hlt (lt_irrefl _)
  · refine ⟨w, hw, ?_, hin⟩
    cases hwip : s.wips[w]? with
    | none =>
      rw [heq, List.set_eq_of_length_le (List.getElem?_eq_none_iff.mp hwip)] at hlt
      exact absurd hlt (lt_irrefl _)
    | some wip =>
      have hset := countP_set_none hwip i
      by_cases hi : wip = some i
      · rw [hi]
      · rw [if_neg hi] at hset
        rw [heq] at hlt
        omega

/-- A lost patch was lost, if it ran, lost no reference and the active entry is the same. -/
theorem Lost.of_keeps (hlost : s'.Lost i)
    (hrun : s'.job.patchStep i = some JStep.running → s.job.patchStep i = some JStep.running)
    (href : s.references i = s'.references i) (hact : s'.wip_active = s.wip_active) : s.Lost i :=
  ⟨hrun hlost.1, href.trans hlost.2.1, hact ▸ hlost.2.2⟩

/-- A holder that gives its patch back leaves the references to the patches that run. -/
theorem Lost.of_giveBack {step : ℕ} (hlost : s'.Lost i) (hjob : s'.job = s.job.setPatch p step)
    (hstep : step ≠ JStep.running) (href : ∀ i, i ≠ p → s.references i = s'.references i)
    (hact : s'.wip_active = s.wip_active) : s.Lost i := by
  have hrun := hlost.1
  rw [hjob] at hrun
  obtain ⟨hne, hrun⟩ := Job.running_of_setPatch hstep hrun
  exact hlost.of_keeps (fun _ => hrun) (href i hne) hact

theorem handlerFails_lost {wip_bak : Option ℕ} {hd : Handler} (hk : s.handlers[k]? = some hd)
    (hrefers : ∀ i, hd.refersTo i = (wip_bak == some i)) (hlost : (s.handlerFails k wip_bak).Lost i) :
    s.Lost i := by
  have href : ∀ i, wip_bak ≠ some i → s.references i = (s.handlerFails k wip_bak).references i := by
    intro i hi
    have herase := countP_eraseIdx (Handler.refersTo i) hk
    rw [hrefers, if_neg (by simpa using hi)] at herase
    simp only [references, handlerFails]
    omega
  cases wip_bak with
  | none => exact hlost.of_keeps id (href i (by simp)) rfl
  | some p => exact hlost.of_giveBack rfl (by decide) (fun i hi => href i fun heq => hi (Option.some.inj heq).symm) rfl

theorem getWIP_lost (hlost : (s.getWIP h).1.Lost i) : s.Lost i := by
  obtain ⟨wips, peerWIP, heq, -, hcount, -⟩ := s.getWIP_spec h
  rw [heq] at hlost
  exact hlost.of_keeps id (by simp only [references, hcount]) rfl

theorem prepareRemoteWork_lost {locked full : Bool} (hlost : (s.prepareRemoteWork locked full).Lost i) : s.Lost i := by
  rcases s.job.getWorkRemote_spec locked full with ⟨hnone, hpatches⟩ | ⟨p, hsome, -, hpatches⟩
  · refine hlost.of_keeps (fun h => ?_) ?_ rfl
    · rwa [Job.patchStep, prepareRemoteWork, hpatches] at h
    · simp only [references, prepareRemoteWork, hnone, Option.toList_none, List.nil_append]
  · -- the patch that is prepared is not lost
    have href := hlost.2.1
    simp only [references, prepareRemoteWork, hsome, Option.toList_some, List.singleton_append, List.countP_cons,
      ite_beq] at href
    have hne : i ≠ p := by
      rintro rfl
      rw [if_pos rfl] at href
      omega
    refine ⟨?_, by rw [references]; omega, hlost.2.2⟩
    have hrun := hlost.1
    rw [Job.patchStep, prepareRemoteWork, hpatches, Job.setPatch, List.getElem?_set_ne (Ne.symm hne)] at hrun
    exact hrun

theorem prepareFailed_lost (hstep : s.prepareFailed k = some s') (hlost : s'.Lost i) : s.Lost i := by
  obtain ⟨p, hp, rfl⟩ := Option.map_eq_some_iff.mp hstep
  have hqueued : JStep.queued ≠ JStep.running := by decide
  refine hlost.of_giveBack (p := p) rfl hqueued (fun i hi => ?_) rfl
  have herase := countP_eraseIdx (· == i) hp
  rw [ite_beq, if_neg hi] at herase
  simp only [references]
  omega

/-- A patch that is lost by a `sendWork` was the active one, and held by the WIP that is dropped. -/
theorem sendWork_lost {c : ℕ} {slot arrives : Bool} (hstep : s.sendWork h c slot arrives = some s')
    (hlost : s'.Lost i) : s.Lost i ∨
      ∃ w, slot = true ∧ s.wip_queue ≠ [] ∧ s.peerWIP h = some w ∧ s.wips[w]? = some (some i) ∧
        s.wip_active = some (some i) ∧ ¬ s.inHand w := by
  obtain ⟨-, hosts, rfl⟩ | ⟨p, queue, hosts, rfl, hqueue, rfl⟩ := sendWork_cases hstep
  · exact .inl (hlost.of_keeps id rfl rfl)
  obtain ⟨hrun, h0, hact⟩ := hlost
  simp only [references, countP_snoc] at h0
  have hne : p ≠ i := by
    rintro rfl
    simp at h0
  have hact' : s.wip_active = some (some i) := by
    dsimp only at hact
    cases hold : s.wip_active with
    | none => rw [hold] at hact; exact absurd (Option.some.inj (Option.some.inj hact)) hne
    | some e => rw [hold] at hact; exact hact
  by_cases hz : s.references i = 0
  · exact .inl ⟨hrun, hz, hact'⟩
  · have hlt : (s.dropWIP h).countP (· == some i) < s.wips.countP (· == some i) := by
      rw [references, hqueue, List.countP_cons, ite_beq, if_neg (Ne.symm hne)] at hz
      omega
    obtain ⟨w, hw, hwi, hin⟩ := dropWIP_lost hlt
    exact .inr ⟨w, rfl, hqueue ▸ List.cons_ne_nil _ _, hw, hwi, hact', hin⟩

theorem copyReset_lost (hstep : s.copyReset k = some s') (hlost : s'.Lost i) : s.Lost i := by
  obtain ⟨w, p, wip, -, hw, rfl⟩ := copyReset_cases hstep
  refine hlost.of_keeps id ?_ rfl
  have hset := countP_set_none hw i
  simp only [references, countP_snoc, Handler.refersTo, beq_iff_eq]
  omega

theorem unpackWork_lost {ok : Bool} (hstep : s.unpackWork k ok = some s') (hlost : s'.Lost i) : s.Lost i := by
  obtain ⟨p, patch, hk, -, rfl⟩ | ⟨wip_bak, patch, hk, rfl⟩ := unpackWork_cases hstep
  · refine hlost.of_keeps id ?_ rfl
    have hset := countP_set (b := .unpacked p patch) (Handler.refersTo i) hk
    simp only [Handler.refersTo, beq_iff_eq, Option.some.injEq] at hset
    simp only [references]
    omega
  · exact handlerFails_lost hk (fun _ => rfl) hlost

theorem returnResults_lost {ok : Bool} (hstep : s.returnResults k ok = some s') (hlost : s'.Lost i) : s.Lost i := by
  obtain ⟨p, patch, hk, ⟨-, rfl⟩ | rfl⟩ := returnResults_cases hstep
  · refine hlost.of_keeps Job.running_of_returnResult ?_ rfl
    have hset := countP_set (b := .returned p) (Handler.refersTo i) hk
    simp only [Handler.refersTo, beq_iff_eq] at hset
    simp only [references]
    omega
  · exact handlerFails_lost hk (fun _ => rfl) hlost

theorem failedWIP_lost (hstep : s.failedWIP k = some s') (hlost : s'.Lost i) : s.Lost i := by
  obtain ⟨w, wip, -, hwip, rfl⟩ := failedWIP_cases hstep
  have href : ∀ i, wip ≠ some i → s.wips.countP (· == some i) = (s.wips.set w none).countP (· == some i) := by
    intro i hi
    have hset := countP_set_none hwip i
    rw [if_neg hi] at hset
    exact hset.symm
  cases wip with
  | none => exact hlost.of_keeps id (by simp only [references, href i (by simp)]) rfl
  | some p =>
    have herr : JStep.err ≠ JStep.running := by decide
    refine hlost.of_giveBack (p := p) rfl herr (fun i hi => ?_) rfl
    simp only [references, href i fun heq => hi (Option.some.inj heq).symm]

/-- **Only sending other work to the host of the active patch loses a patch.** -/
theorem step_lost (hstep : s.step a = some s') (hlost : s'.Lost i) : s.Lost i ∨
    ∃ h c arrives w, a = .sendWork h c true arrives ∧ s.wip_queue ≠ [] ∧ s.peerWIP h = some w ∧
      s.wips[w]? = some (some i) ∧ s.wip_active = some (some i) ∧ ¬ s.inHand w := by
  cases a with
  | prepareRemoteWork locked full =>
    obtain rfl := Option.some.inj hstep
    exact .inl (prepareRemoteWork_lost hlost)
  | prepared k =>
    obtain ⟨p, hp, rfl⟩ := Option.map_eq_some_iff.mp hstep
    refine .inl (hlost.of_keeps id ?_ rfl)
    have herase := countP_eraseIdx (· == i) hp
    simp only [references, countP_snoc]
    omega
  | prepareFailed k => exact .inl (prepareFailed_lost hstep hlost)
  | addConnection h =>
    obtain rfl := Option.some.inj hstep
    exact .inl (getWIP_lost hlost)
  | reconnect h => rw [← Option.some.inj hstep] at hlost; exact .inl (hlost.of_keeps id rfl rfl)
  | askWork h => rw [← Option.some.inj hstep] at hlost; exact .inl (hlost.of_keeps id rfl rfl)
  | sendResult h => obtain ⟨p, -, rfl⟩ := Option.map_eq_some_iff.mp hstep; exact .inl (hlost.of_keeps id rfl rfl)
  | lose h c => rw [← Option.some.inj hstep] at hlost; exact .inl (hlost.of_keeps id rfl rfl)
  | sendWork h c slot arrives =>
    rcases sendWork_lost hstep hlost with hold | ⟨w, rfl, hqueue, hw, hwi, hact, hin⟩
    · exact .inl hold
    · exact .inr ⟨h, c, arrives, w, rfl, hqueue, hw, hwi, hact, hin⟩
  | putParts h c =>
    obtain ⟨p, rest, hosts, -, rfl⟩ := putParts_cases hstep
    obtain ⟨hrun, h0, hact⟩ := hlost
    exact .inl (getWIP_lost (h := h) ⟨hrun, h0, hact⟩)
  | copyReset k => exact .inl (copyReset_lost hstep hlost)
  | unpackWork k ok => exact .inl (unpackWork_lost hstep hlost)
  | returnResults k ok => exact .inl (returnResults_lost hstep hlost)
  | returnWork k =>
    obtain ⟨-, rfl⟩ := returnWork_cases hstep
    cases hlost.2.2
  | returnLocal =>
    rw [← Option.some.inj hstep] at hlost
    cases hlost.2.2
  | cleanupWIP h =>
    obtain ⟨w, wip, -, -, rfl⟩ := cleanupWIP_cases hstep
    exact .inl (hlost.of_keeps id rfl rfl)
  | failedWIP k => exact .inl (failedWIP_lost hstep hlost)
  | checkParts locked seen =>
    obtain rfl := Option.some.inj hstep
    exact .inl (hlost.of_keeps Job.running_of_checkParts rfl rfl)

/-- Sending other work to the host of the active patch does lose it, where results come in time. -/
theorem sendWork_loses {c : ℕ} {arrives : Bool} {w : ℕ} (hs : Inv s)
    (hstep : s.step (.sendWork h c true arrives) = some s') (hqueue : s.wip_queue ≠ [])
    (hw : s.peerWIP h = some w) (hwi : s.wips[w]? = some (some i)) (hact : s.wip_active = some (some i))
    (hin : ¬ s.inHand w) : s'.Lost i := by
  obtain ⟨hno, -⟩ | ⟨p, queue, hosts, -, hq, rfl⟩ := sendWork_cases hstep
  · exact absurd (hno.resolve_left (by simp)) hqueue
  have hdrop : s.dropWIP h = s.wips.set w none := by
    unfold dropWIP
    rw [hw]
    exact if_neg hin
  have hset := countP_set_none hwi i
  rw [if_pos rfl] at hset
  have hone := hs.sound.custody.le_one i
  have hout := hs.sound.custody.out i (by rw [holders]; omega)
  -- a handler that is done has a patch that was returned
  have hrefers : s.handlers.countP (Handler.refersTo i) = s.handlers.countP (Handler.holds i) := by
    refine List.countP_congr fun hd hmem => ⟨fun h => ?_, Handler.refersTo_of_holds⟩
    cases hd with
    | copied wip_bak patch => exact h
    | unpacked wip_bak patch => exact h
    | returned q =>
      obtain rfl : q = i := beq_iff_eq.mp h
      have hpost := (hs.sound.job.returned q).mp (hs.addressed.handlers _ hmem)
      rw [hout] at hpost
      exact absurd hpost (by decide)
  rw [holders, hq, List.countP_cons] at hone
  have hne : ¬ i = p := by
    rintro rfl
    simp only [beq_self_eq_true, if_true] at hone
    omega
  refine ⟨hout, ?_, by simp [hact]⟩
  simp only [references, countP_snoc, hdrop, ite_beq, Option.some.injEq, if_neg hne, hrefers]
  omega

/-! ## Whole runs -/

theorem Start.registered (hs : Start s) : Registered s := fun w i hw => by
  cases hs.wips _ (List.mem_of_getElem? hw)

theorem Start.noneLost (hs : Start s) : NoneLost s := fun i hi =>
  absurd (hs.patches.2 _ (List.mem_of_getElem? hi)) (by decide)

/-- **No patch is lost in the runs in which no host is sent other work while it has the patch of the active
entry**, and in no others of those in which results come in time. -/
theorem noneLost_of_keepsActive (hs : Start s) (as : List Act) :
    (Each Daemon.step KeepsActive s as → Always Daemon.step NoneLost s as) ∧
      (Each Daemon.step Timely s as →
        (Always Daemon.step NoneLost s as ↔ Each Daemon.step KeepsActive s as)) := by
  have hkeeps : ∀ s a s', (Registered s ∧ NoneLost s) → KeepsActive s a s' → s.step a = some s' →
      Registered s' ∧ NoneLost s' := by
    rintro s a s' ⟨hr, hnone⟩ hkeep hstep
    have hr' := step_registered hr hstep
    refine ⟨hr', hr'.noneLost_iff.mpr fun i hlost => ?_⟩
    rcases step_lost hstep hlost with hold | ⟨h, c, arrives, w, ha, hqueue, hw, hwi, hact, hin⟩
    · exact hr.noneLost_iff.mp hnone i hold
    · exact hin (hkeep h c arrives w i ha hqueue hw hwi hact)
  have hruns : Each Daemon.step KeepsActive s as → Always Daemon.step NoneLost s as := fun heach =>
    (always_of_each hkeeps ⟨hs.registered, hs.noneLost⟩ heach).mono fun _ h => h.2
  refine ⟨hruns, fun htimely => ⟨fun halways => ?_, hruns⟩⟩
  have hlate : ∀ s a s', (Inv s ∧ Registered s) → Timely s a s' → NoneLost s' → s.step a = some s' →
      (Inv s' ∧ Registered s') ∧ KeepsActive s a s' := by
    intro s a s' hi ht hnone hstep
    have hr' := step_registered hi.2 hstep
    refine ⟨⟨step_inv hi.1 hstep ht, hr'⟩, fun h c arrives w i ha hqueue hw hwi hact => ?_⟩
    subst ha
    by_contra hin
    exact hr'.noneLost_iff.mp hnone i (sendWork_loses hi.1 hstep hqueue hw hwi hact hin)
  exact each_of_always hlate ⟨hs.inv, hs.registered⟩ htimely halways

end Recovery

theorem keepsActive_of_ne {s s' : Daemon} {a : Act} (ha : ∀ h c arrives, a ≠ .sendWork h c true arrives) :
    KeepsActive s a s' := fun h c arrives _ _ heq => absurd heq (ha h c arrives)

/-- A result that is late does not lose a patch. -/
theorem noneLost_late : Always Daemon.step NoneLost (queued 2) late := by
  refine (noneLost_of_keepsActive (start_queued (by decide)) late).1 ?_
  iterate 5 refine Each.cons rfl (keepsActive_of_ne (by simp)) ?_
  refine Each.cons rfl ?_ ?_
  · rintro h c arrives w i heq - hw
    cases heq
    cases hw
  iterate 9 refine Each.cons rfl (keepsActive_of_ne (by simp)) ?_
  refine Each.cons rfl ?_ ?_
  · rintro h c arrives w i heq - - - hact
    cases heq
    cases hact
  iterate 4 refine Each.cons rfl (keepsActive_of_ne (by simp)) ?_
  trivial

/-- A host gives up on a patch and is sent the other one. -/
def givenUp : List Act :=
  [.prepareRemoteWork true false, .prepared 0, .prepareRemoteWork true false, .prepared 0, .askWork 3,
    .sendWork 3 0 true true, .askWork 3, .sendWork 3 0 true true]

theorem patch_lost : ¬ Always Daemon.step NoneLost (queued 2) givenUp := by
  intro hall
  have hs := start_queued (n := 2) (by decide)
  have hinv : Always Daemon.step Registered (queued 2) givenUp :=
    always_of_invariant (fun _ _ _ hr hstep => step_registered hr hstep) hs.registered
  have hend : (givenUp.foldlM Daemon.step (queued 2)).map
      (fun s => (s.job.patchStep 0, s.references 0, s.wip_active)) =
        some (some JStep.running, 0, some (some 0)) := by decide
  obtain ⟨s, hlast, heq⟩ := Option.map_eq_some_iff.mp hend
  refine (hinv.last hlast).noneLost_iff.mp (hall.last hlast) 0 ⟨?_, ?_, ?_⟩
  · exact congrArg (·.1) heq
  · exact congrArg (·.2.1) heq
  · exact congrArg (·.2.2) heq

end Daemon

end Redux
