import Redux.Daemon.Sound

/-!
# Daemon.Messages — a result reaches the WIP it belongs to

A result does not say which WIP it is for: the manager takes the one that is registered for the host when
it has read the result.  A host asks for new work after it has returned the old, so on one connection this
is the right WIP, or one without a patch.  But a host that connects anew and sends its result again can
have new work by the time that the first copy is read (`Timely`).
-/

namespace Redux

open Momfbd Lib

namespace Daemon

/-- No result is read while its host is registered with another patch. -/
def Timely (s : Daemon) (a : Act) (_ : Daemon) : Prop :=
  ∀ h c p rest w q, a = .putParts h c → (s.hosts h).sent c = .putParts p :: rest → s.peerWIP h = some w →
    s.wips[w]? = some (some q) → p = q

section Messages

variable {s s' : Daemon} {h k p : ℕ} {ok : Bool}

/-! ## Hosts -/

theorem getWIP_addressed (ha : Addressed s) : Addressed (s.getWIP h).1 := by
  obtain ⟨wips, peerWIP, heq, hlen, -, hwips, hself, hother, hcases⟩ := s.getWIP_spec h
  rw [heq]
  refine ⟨fun h' w hw => ?_, fun w p hp => (ha.posted_lt w p hp).trans_le hlen,
    fun w p q hp hq => ha.posted w p q hp (hwips w q hq), ha.handlers⟩
  by_cases hh : h' = h
  · subst hh
    have hw' : w = (s.getWIP h').2 := Option.some.inj (hw.symm.trans hself)
    rcases hcases with hold | ⟨haddr, hfresh⟩
    · rw [hw']; exact (ha.peer_lt h' _ hold).trans_le hlen
    · dsimp only
      rw [hw', haddr, hfresh, List.length_append]
      exact Nat.lt_add_one _
  · exact (ha.peer_lt h' w ((hother h' hh).symm.trans hw)).trans_le hlen

/-- The WIP that `getWIP` gives is the one registered for the host. -/
theorem getWIP_registered : (s.getWIP h).1.peerWIP h = some (s.getWIP h).2 := by
  obtain ⟨wips, peerWIP, heq, -, -, -, hself, -⟩ := s.getWIP_spec h
  rw [heq]
  exact hself

theorem dropWIP_some {w q : ℕ} (hq : (s.dropWIP h)[w]? = some (some q)) : s.wips[w]? = some (some q) := by
  rcases s.dropWIP_cases h with heq | ⟨w', -, -, heq⟩
  · rwa [heq] at hq
  · rw [heq, getElem?_set_none] at hq
    exact hq.1

theorem sendWork_addressed {c : ℕ} {slot arrives : Bool} (ha : Addressed s)
    (hstep : s.sendWork h c slot arrives = some s') : Addressed s' := by
  obtain ⟨-, hosts, rfl⟩ | ⟨p, queue, hosts, -, -, rfl⟩ := sendWork_cases hstep
  · exact ha.same rfl rfl rfl rfl rfl
  have hlen : (s.dropWIP h ++ [some p]).length = s.wips.length + 1 := by
    rw [List.length_append, dropWIP_length]; rfl
  refine ⟨fun h' w hw => ?_, fun w p hp => ?_, fun w p' q hp hq => ?_, ha.handlers⟩
  · dsimp only at hw ⊢
    rw [hlen]
    rw [Function.update_apply] at hw
    split_ifs at hw
    · rw [← Option.some.inj hw]; exact Nat.lt_add_one _
    · exact (ha.peer_lt h' w hw).trans (Nat.lt_add_one _)
  · dsimp only
    rw [hlen]
    exact (ha.posted_lt w p hp).trans (Nat.lt_add_one _)
  · -- an address below the new one has the patch it had
    dsimp only at hq
    rw [List.getElem?_append_left (by rw [dropWIP_length]; exact ha.posted_lt w p' hp)] at hq
    exact ha.posted w p' q hp (dropWIP_some hq)

/-- **A result that is read in time is posted with the WIP it belongs to.** -/
theorem putParts_addressed {c : ℕ} (ha : Addressed s) (hstep : s.putParts h c = some s')
    (htimely : Timely s (.putParts h c) s') : Addressed s' := by
  obtain ⟨p, rest, hosts, hsent, rfl⟩ := putParts_cases hstep
  obtain ⟨wips, peerWIP, heq, -, -, hwips, hself, -, hcases⟩ := s.getWIP_spec h
  have ht : Addressed (s.getWIP h).1 := getWIP_addressed ha
  have hposted : (s.getWIP h).1.posted = s.posted := by rw [heq]
  refine ⟨ht.peer_lt, fun w p' hp => ?_, fun w p' q hp hq => ?_, ht.handlers⟩
  · rcases List.mem_append.mp hp with hp | hp
    · exact ht.posted_lt w p' (hposted ▸ hp)
    · rw [(Prod.mk.inj (List.mem_singleton.mp hp)).1]
      exact ht.peer_lt h _ getWIP_registered
  · rcases List.mem_append.mp hp with hp | hp
    · exact ht.posted w p' q (hposted ▸ hp) hq
    · obtain ⟨rfl, rfl⟩ := Prod.mk.inj (List.mem_singleton.mp hp)
      dsimp only at hq
      rw [heq] at hq
      rcases hcases with hold | ⟨haddr, hfresh⟩
      · exact htimely h c p' rest _ q rfl hsent hold (hwips _ q hq)
      · -- the WIP made for the host has no patch
        dsimp only at hq
        rw [haddr, hfresh, List.getElem?_concat_length] at hq
        cases Option.some.inj hq

/-! ## Handlers and timeouts -/

theorem copyReset_addressed (ha : Addressed s) (hstep : s.copyReset k = some s') : Addressed s' := by
  obtain ⟨w, p, wip, hr, hw, rfl⟩ := copyReset_cases hstep
  refine ha.frame (by rw [List.length_set]) (fun w' q hq => (getElem?_set_none.mp hq).1)
    (fun _ _ h => h) (fun r hr => List.mem_of_mem_eraseIdx hr) fun hd hhd => ?_
  rcases List.mem_append.mp hhd with hhd | hhd
  · exact ha.handlers hd hhd
  · rw [List.mem_singleton.mp hhd]
    cases wip with
    | none => trivial
    | some q => exact ha.posted w p q (List.mem_of_getElem? hr) hw

theorem handlers_eraseIdx (ha : Addressed s) : ∀ hd ∈ s.handlers.eraseIdx k, hd.Matches s.results :=
  fun hd hhd => ha.handlers hd (List.mem_of_mem_eraseIdx hhd)

theorem handlers_set {hd : Handler} (ha : Addressed s) (h : hd.Matches s.results) :
    ∀ hd' ∈ s.handlers.set k hd, hd'.Matches s.results := by
  intro hd' hhd
  rcases List.mem_or_eq_of_mem_set hhd with hhd | rfl
  · exact ha.handlers hd' hhd
  · exact h

theorem handlerFails_addressed {wip_bak : Option ℕ} (ha : Addressed s) :
    Addressed (s.handlerFails k wip_bak) :=
  ha.frame le_rfl (fun _ _ h => h) (fun _ _ h => h) (fun _ h => h) (handlers_eraseIdx ha)

theorem unpackWork_addressed (ha : Addressed s) (hstep : s.unpackWork k ok = some s') : Addressed s' := by
  rcases unpackWork_cases hstep with ⟨p, patch, hk, -, rfl⟩ | ⟨wip_bak, patch, -, rfl⟩
  · have hmatches : (Handler.copied (some p) patch).Matches s.results := ha.handlers _ (List.mem_of_getElem? hk)
    exact ha.frame le_rfl (fun _ _ h => h) (fun _ _ h => h) (fun _ h => h)
      (handlers_set ha hmatches)
  · exact handlerFails_addressed ha

theorem returnResults_addressed (ha : Addressed s) (hstep : s.returnResults k ok = some s') :
    Addressed s' := by
  obtain ⟨p, patch, hk, ⟨-, rfl⟩ | rfl⟩ := returnResults_cases hstep
  · refine ha.frame le_rfl (fun _ _ h => h) (fun _ _ h => h) (fun _ h => h) fun hd hhd => ?_
    rcases List.mem_or_eq_of_mem_set hhd with hold | rfl
    · exact (ha.handlers hd hold).mono
    · obtain rfl : patch = p := ha.handlers _ (List.mem_of_getElem? hk)
      exact List.mem_append_right _ (List.mem_singleton_self patch)
  · exact handlerFails_addressed ha

theorem returnWork_addressed (ha : Addressed s) (hstep : s.returnWork k = some s') : Addressed s' := by
  obtain ⟨-, rfl⟩ := returnWork_cases hstep
  exact ha.frame le_rfl (fun _ _ h => h) (fun _ _ h => h) (fun _ h => h) (handlers_eraseIdx ha)

theorem cleanupWIP_addressed (ha : Addressed s) (hstep : s.cleanupWIP h = some s') : Addressed s' := by
  obtain ⟨w, wip, -, -, rfl⟩ := cleanupWIP_cases hstep
  refine ha.frame le_rfl (fun _ _ h => h) (fun h' w' hw' => ?_) (fun _ h => h) ha.handlers
  dsimp only at hw'
  rw [Function.update_apply] at hw'
  split_ifs at hw'
  exact hw'

theorem failedWIP_addressed (ha : Addressed s) (hstep : s.failedWIP k = some s') : Addressed s' := by
  obtain ⟨w, wip, -, -, rfl⟩ := failedWIP_cases hstep
  exact ha.frame (by rw [List.length_set]) (fun w' q hq => (getElem?_set_none.mp hq).1)
    (fun _ _ h => h) (fun _ h => h) ha.handlers

/-- **Every action keeps the results addressed**, if no result is late. -/
theorem step_addressed {a : Act} (ha : Addressed s) (hstep : s.step a = some s') (htimely : Timely s a s') :
    Addressed s' := by
  cases a with
  | prepareRemoteWork locked full => rw [← Option.some.inj hstep]; exact ha.same rfl rfl rfl rfl rfl
  | prepared k => obtain ⟨p, -, rfl⟩ := Option.map_eq_some_iff.mp hstep; exact ha.same rfl rfl rfl rfl rfl
  | prepareFailed k => obtain ⟨p, -, rfl⟩ := Option.map_eq_some_iff.mp hstep; exact ha.same rfl rfl rfl rfl rfl
  | addConnection h => rw [← Option.some.inj hstep]; exact getWIP_addressed ha
  | reconnect h => rw [← Option.some.inj hstep]; exact ha.same rfl rfl rfl rfl rfl
  | askWork h => rw [← Option.some.inj hstep]; exact ha.same rfl rfl rfl rfl rfl
  | sendResult h => obtain ⟨p, -, rfl⟩ := Option.map_eq_some_iff.mp hstep; exact ha.same rfl rfl rfl rfl rfl
  | lose h c => rw [← Option.some.inj hstep]; exact ha.same rfl rfl rfl rfl rfl
  | sendWork h c slot arrives => exact sendWork_addressed ha hstep
  | putParts h c => exact putParts_addressed ha hstep htimely
  | copyReset k => exact copyReset_addressed ha hstep
  | unpackWork k ok => exact unpackWork_addressed ha hstep
  | returnResults k ok => exact returnResults_addressed ha hstep
  | returnWork k => exact returnWork_addressed ha hstep
  | returnLocal => rw [← Option.some.inj hstep]; exact ha.same rfl rfl rfl rfl rfl
  | cleanupWIP h => exact cleanupWIP_addressed ha hstep
  | failedWIP k => exact failedWIP_addressed ha hstep
  | checkParts locked seen => rw [← Option.some.inj hstep]; exact ha.same rfl rfl rfl rfl rfl

end Messages

end Daemon

end Redux
