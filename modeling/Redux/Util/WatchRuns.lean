import Mathlib.Data.Int.Basic
import Redux.Lib.Run
import Redux.Util.ProgressWatch

/-!
# Util.WatchRuns — a progress watch that threads step, test and wait on

What `step` and `test` do under the lock is one action; the handler that they take out of the watch is
invoked in an action of its own, after others may have come in between.  The handler is invoked once, for
the call that makes the counter equal to the target.  That call sets the counter back, so that a `test()`
after it finds the counter off the target again, and takes `completed` back (`watch_completes_iff`).
-/

namespace Redux

open Redux.Lib

section Model

variable {η : Type}

/-- `step( 1 )`, `stepTarget( n )` and `test()` up to where they unlock, and the call of a handler by
`step` or `test` behind that. -/
inductive WatchOp where
  | step
  | stepTarget (n : ℕ)
  | test
  | invoke
  deriving DecidableEq

/-- A watch, the handlers that calls have taken out and not yet invoked, and those invoked.  `hits` is how
often a call has made the counter equal to the target, and `fresh` that no step has come after that. -/
structure WatchRun (η : Type) where
  watch : ProgressWatch η
  taken : List η
  invoked : List η
  hits : ℕ
  fresh : Bool

namespace WatchRun

/-- After `set( target, start )` and `setHandler( cb )`. -/
def begin (w : ProgressWatch η) (target start : ℤ) (cb : η) : WatchRun η :=
  ⟨(w.set target start).setHandler cb, [], [], 0, false⟩

def step (s : WatchRun η) : WatchOp → Option (WatchRun η)
  | .step =>
    let hit := decide (s.watch.counter + 1 = s.watch.target)
    some { s with
      watch := s.watch.step.1
      taken := s.taken ++ s.watch.step.2.toList
      hits := s.hits + hit.toNat
      fresh := hit }
  | .stepTarget n => some { s with watch := s.watch.increaseTarget n }
  | .test => some { s with watch := s.watch.test.1, taken := s.taken ++ s.watch.test.2.toList }
  | .invoke =>
    match s.taken with
    | [] => none
    | cb :: taken => some { s with taken := taken, invoked := s.invoked ++ [cb] }

/-- The handler has been taken out, and is or will be invoked, once if the counter has been made equal to
the target, and not before; and waiters see `completed` until the next step. -/
structure Completes (cb : η) (s : WatchRun η) : Prop where
  once : s.invoked ++ s.taken = if s.hits = 0 then [] else [cb]
  seen : s.fresh = true → s.watch.completed = true

/-- What every action keeps. -/
structure Inv (cb : η) (s : WatchRun η) : Prop where
  start : s.watch.start < s.watch.target
  counter : s.watch.counter < s.watch.target
  handler : s.watch.onCompletion = if s.hits = 0 then some cb else none
  once : s.invoked ++ s.taken = if s.hits = 0 then [] else [cb]

end WatchRun

end Model

section Runs

variable {η : Type} {cb : η} {s s' : WatchRun η} {op : WatchOp}

namespace WatchRun

theorem inv_begin (w : ProgressWatch η) {target start : ℤ} (cb : η) (h : start < target) :
    Inv cb (begin w target start cb) := ⟨h, h, rfl, rfl⟩

/-- A call that has taken out a handler invokes it. -/
theorem step_invoke (hs : s.step .invoke = some s') : ∃ c taken, s.taken = c :: taken ∧
    s' = { s with taken := taken, invoked := s.invoked ++ [c] } := by
  unfold WatchRun.step at hs
  cases htaken : s.taken with
  | nil =>
    rw [htaken] at hs
    exact nomatch hs
  | cons c taken =>
    rw [htaken] at hs
    exact ⟨c, taken, rfl, (Option.some.inj hs).symm⟩

/-- A step of the watch: it hits the target, and the handler is taken out the first time, or it goes on. -/
theorem Inv.step_watch (h : Inv cb s) : Inv cb ((s.step .step).getD s) := by
  obtain ⟨hstart, hcounter, hhandler, honce⟩ := h
  unfold WatchRun.step
  dsimp only [Option.getD_some]
  by_cases hit : s.watch.counter + 1 = s.watch.target
  · rw [ProgressWatch.step_of_eq _ (Int.ne_of_lt hstart) hit, decide_eq_true hit]
    have hlist : s.invoked ++ (s.taken ++ s.watch.onCompletion.toList) = [cb] := by
      rw [← List.append_assoc, honce, hhandler]
      split_ifs <;> rfl
    exact ⟨hstart, hstart, (if_neg (Nat.succ_ne_zero _)).symm, hlist.trans (if_neg (Nat.succ_ne_zero _)).symm⟩
  · rw [ProgressWatch.step_of_ne _ hit, decide_eq_false hit]
    refine ⟨hstart, ?_, hhandler, ?_⟩
    · dsimp only
      omega
    · exact (congrArg (s.invoked ++ ·) (List.append_nil _)).trans honce

theorem Inv.step (h : Inv cb s) (hs : s.step op = some s') : Inv cb s' := by
  cases op with
  | step =>
    have hnext := h.step_watch
    rwa [hs] at hnext
  | stepTarget n =>
    obtain rfl := Option.some.inj hs
    obtain ⟨hstart, hcounter, hhandler, honce⟩ := h
    refine ⟨?_, ?_, hhandler, honce⟩ <;> dsimp only [ProgressWatch.increaseTarget] <;> omega
  | test =>
    obtain rfl := Option.some.inj hs
    obtain ⟨hstart, hcounter, hhandler, honce⟩ := h
    rw [ProgressWatch.test_of_ne _ (Int.ne_of_lt hcounter)]
    exact ⟨hstart, hcounter, hhandler, (congrArg (s.invoked ++ ·) (List.append_nil _)).trans honce⟩
  | invoke =>
    obtain ⟨hstart, hcounter, hhandler, honce⟩ := h
    obtain ⟨c, taken, htaken, rfl⟩ := step_invoke hs
    rw [htaken] at honce
    exact ⟨hstart, hcounter, hhandler, (List.append_assoc _ _ _).trans honce⟩

/-- **What waiters see is lost to a test only.** -/
theorem seen_iff (h : Inv cb s) (hseen : s.fresh = true → s.watch.completed = true) (hs : s.step op = some s') :
    (s'.fresh = true → s'.watch.completed = true) ↔ (op = .test → s.fresh = false) := by
  cases op with
  | step =>
    obtain rfl := Option.some.inj hs
    refine iff_of_true (fun hfresh => ?_) (fun h => nomatch h)
    rw [ProgressWatch.step_of_eq _ (Int.ne_of_lt h.start) (of_decide_eq_true hfresh)]
  | stepTarget n =>
    obtain rfl := Option.some.inj hs
    exact iff_of_true hseen (fun h => nomatch h)
  | test =>
    obtain rfl := Option.some.inj hs
    rw [ProgressWatch.test_of_ne _ (Int.ne_of_lt h.counter)]
    constructor
    · intro hlost _
      exact Bool.eq_false_iff.2 fun hfresh => Bool.false_ne_true (hlost hfresh)
    · intro hfresh htrue
      rw [hfresh rfl] at htrue
      exact absurd htrue Bool.false_ne_true
  | invoke =>
    obtain ⟨c, taken, -, rfl⟩ := step_invoke hs
    exact iff_of_true hseen (fun h => nomatch h)

/-- **The handler is invoked once and on time in every run, and completion is seen until the next step
exactly if nobody tests in between.** -/
theorem watch_completes_iff (w : ProgressWatch η) (target start : ℤ) (cb : η) (ops : List WatchOp)
    (htarget : start < target) : Always step (Completes cb) (begin w target start cb) ops ↔
      Each step (fun s op _ => op = .test → s.fresh = false) (begin w target start cb) ops := by
  have hkeeps : ∀ s op s', Inv cb s → step s op = some s' → Inv cb s' := fun s op s' h hs => h.step hs
  refine always_iff_each hkeeps ?_ (inv_begin w cb htarget) ⟨rfl, fun h => nomatch h⟩
  intro s op s' h hcomp hs
  rw [← seen_iff h hcomp.seen hs]
  exact ⟨fun h' => h'.seen, fun hseen => ⟨(h.step hs).once, hseen⟩⟩

/-- Two steps to the target, and a test in between. -/
theorem two_steps : Always step (Completes ()) (begin ProgressWatch.clear 2 0 ()) [.step, .test, .step, .invoke] := by
  refine (watch_completes_iff _ 2 0 () _ (by decide)).2 ?_
  exact .cons rfl (fun h => nomatch h) (.cons rfl (fun _ => rfl) (.cons rfl (fun h => nomatch h)
    (.cons rfl (fun h => nomatch h) trivial)))

/-- A test after the last step: the watch is no longer completed, and who has not woken up yet goes on
waiting. -/
theorem test_after_last : ¬ ∀ (w : ProgressWatch Unit) (target start : ℤ) (cb : Unit) (ops : List WatchOp),
    start < target → Always step (Completes cb) (begin w target start cb) ops := by
  intro h
  have hend := (h ProgressWatch.clear 1 0 () [.step, .invoke, .test] (by decide)).last rfl
  exact Bool.false_ne_true (hend.seen rfl)

end WatchRun

end Runs

end Redux
