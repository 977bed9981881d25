import Mathlib.Algebra.BigOperators.Intervals
import Redux.Lib.Run
import Redux.Momfbd.MetricWatch

/-!
# Momfbd.SolverMetric — the metric of all objects, computed by threads

`Solver::metric` posts the batches of one object after the other, adds the regularisation, and waits for its
own watch, which each handler steps after it has added the metric of its object.  The threads may run the
batches as soon as they are posted, in any order and interleaved at every operation.
-/

namespace Redux.Momfbd.Metric

open Redux.Lib

/-! ## Model -/

/-- What `metric()` reads of a `Solver` and its job. -/
structure Solver (ι : Type) where
  objects : List (Object ι)
  reg_alpha : ℚ
  nParameters : ℕ
  alpha : ℕ → ℚ
  regAlphaWeights : ℕ → ℚ

/-- How far the main thread is: posting, waiting, or back from the call. -/
inductive Stage where
  | posting
  | waiting
  | returned (sum : ℚ)
  deriving DecidableEq

/-- `prog` is what is left of the loop over the objects, each step with the object it is for, and `calls` are
the objects whose handlers have been called. -/
structure SolverState (ι : Type) where
  prog : List (ℕ × Instr ι)
  stage : Stage
  progWatch : ProgressWatch Unit
  sum : ℚ
  obj : ℕ → ObjectState ι
  calls : List ℕ

/-- The main thread goes on, or a thread with batch `k` of object `o`. -/
inductive Action where
  | main
  | thread (o k : ℕ)

namespace Solver

variable {ι : Type} (S : Solver ι)

/-- What is added if `reg_alpha > 0`. -/
def regularisation : ℚ :=
  if S.reg_alpha > 0 then
    ∑ i ∈ Finset.range S.nParameters, 1 / 2 * S.alpha i * S.alpha i * S.regAlphaWeights i
  else 0

/-- The loop over the objects. -/
def program : List (ℕ × Instr ι) :=
  S.objects.zipIdx.flatMap fun p => p.1.program.map fun i => (p.2, i)

/-- `metric()` is called, and has set its watch.  The objects are as earlier calls have left them, with no
batch running. -/
def begin (w : ProgressWatch Unit) (sums : ℕ → Sums ι) (metrics : ℕ → ℚ) (watches : ℕ → ProgressWatch Unit) :
    SolverState ι :=
  ⟨S.program, .posting, w.set S.objects.length 0, 0, fun o => ⟨sums o, metrics o, watches o, []⟩, []⟩

def mainStep (s : SolverState ι) : Option (SolverState ι) :=
  match s.prog, s.stage with
  | (o, i) :: prog, _ =>
    match S.objects[o]? with
    | some obj => some { s with prog := prog, obj := Function.update s.obj o (obj.exec (s.obj o) i) }
    | none => none
  | [], .posting => some { s with stage := .waiting, sum := s.sum + S.regularisation }
  | [], .waiting => if s.progWatch.completed then some { s with stage := .returned s.sum } else none
  | [], .returned _ => none

/-- An operation of a batch; a handler adds the metric of its object and steps the watch, under the lock. -/
def threadStep (s : SolverState ι) (o k : ℕ) : Option (SolverState ι) :=
  match S.objects[o]? with
  | some obj =>
    match obj.work (s.obj o) k with
    | some (st, false) => some { s with obj := Function.update s.obj o st }
    | some (st, true) => some { s with
        obj := Function.update s.obj o st
        sum := s.sum + obj.metric st
        progWatch := s.progWatch.step.1
        calls := s.calls ++ [o] }
    | none => none
  | none => none

def step (s : SolverState ι) : Action → Option (SolverState ι)
  | .main => S.mainStep s
  | .thread o k => S.threadStep s o k

end Solver

/-- The metric of an object all of whose sub-images have been added. -/
def Object.value {ι : Type} (obj : Object ι) : ℚ := obj.weight * obj.metricOf obj.full

/-- No handler has been called twice, those called have found each sub-image of their object in its sums
once, and what is returned is the sum over all objects; who does not get on has returned. -/
structure Solver.Complete {ι : Type} (S : Solver ι) (s : SolverState ι) : Prop where
  once : s.calls.Nodup
  sums : ∀ o ∈ s.calls, ∃ obj, S.objects[o]? = some obj ∧ (s.obj o).sums = obj.full ∧
    (s.obj o).sums.images = obj.subImages
  result : ∀ v, s.stage = .returned v → s.calls.Perm (List.range S.objects.length) ∧
    v = (S.objects.map Object.value).sum + S.regularisation
  progress : (∀ a, S.step s a = none) → ∃ v, s.stage = .returned v

section Results

variable {ι : Type} {S : Solver ι} {s s' : SolverState ι}

/-! ## The part of an object -/

/-- What is left to do for object `o`. -/
def own (o : ℕ) (prog : List (ℕ × Instr ι)) : List (Instr ι) :=
  prog.filterMap fun p => if p.1 = o then some p.2 else none

theorem own_cons_self (o : ℕ) (i : Instr ι) (prog : List (ℕ × Instr ι)) :
    own o ((o, i) :: prog) = i :: own o prog := List.filterMap_cons_some (if_pos rfl)

theorem own_cons_of_ne {o o' : ℕ} (i : Instr ι) (prog : List (ℕ × Instr ι)) (h : o' ≠ o) :
    own o ((o', i) :: prog) = own o prog := List.filterMap_cons_none (if_neg h)

theorem own_map (o o' : ℕ) (q : List (Instr ι)) :
    own o (q.map fun i => (o', i)) = if o' = o then q else [] := by
  induction q with
  | nil => rw [List.map_nil, ite_self]; rfl
  | cons i q ih =>
    rw [List.map_cons]
    by_cases h : o' = o
    · subst h
      rw [own_cons_self, ih, if_pos rfl, if_pos rfl]
    · rw [own_cons_of_ne _ _ h, ih, if_neg h, if_neg h]

theorem own_append (o : ℕ) (p q : List (ℕ × Instr ι)) : own o (p ++ q) = own o p ++ own o q :=
  List.filterMap_append

/-- Every object has its program in the loop once. -/
theorem own_program {o : ℕ} {obj : Object ι} (h : S.objects[o]? = some obj) : own o S.program = obj.program := by
  have hpast : ∀ (objs : List (Object ι)) (n : ℕ), o < n →
      own o ((objs.zipIdx n).flatMap fun p => p.1.program.map fun i => (p.2, i)) = [] := by
    intro objs
    induction objs with
    | nil => exact fun n _ => rfl
    | cons obj' objs ih =>
      intro n hn
      rw [List.zipIdx_cons, List.flatMap_cons, own_append, own_map, if_neg (Nat.ne_of_gt hn),
          ih _ (Nat.lt_succ_of_lt hn)]
      rfl
  have hgen : ∀ (objs : List (Object ι)) (n : ℕ), n ≤ o → objs[o - n]? = some obj →
      own o ((objs.zipIdx n).flatMap fun p => p.1.program.map fun i => (p.2, i)) = obj.program := by
    intro objs
    induction objs with
    | nil => exact fun n _ hget => absurd hget.symm (Option.some_ne_none _)
    | cons obj' objs ih =>
      intro n hn hget
      rw [List.zipIdx_cons, List.flatMap_cons, own_append, own_map]
      rcases Nat.eq_or_lt_of_le hn with rfl | hlt
      · rw [Nat.sub_self, List.getElem?_cons_zero, Option.some_inj] at hget
        rw [if_pos rfl, hpast _ _ (Nat.lt_succ_self _), List.append_nil, hget]
      · have hsub : o - n = o - (n + 1) + 1 := by omega
        rw [hsub, List.getElem?_cons_succ] at hget
        rw [if_neg (Nat.ne_of_lt hlt), ih _ hlt hget]
        rfl
  exact hgen S.objects 0 (Nat.zero_le _) h

/-! ## The handler -/

/-- Who calls the handler has it as its next operation. -/
theorem work_true {obj : Object ι} {st st' : ObjectState ι} {k : ℕ} (hw : obj.work st k = some (st', true)) :
    ∃ tmp ops, st.batches[k]? = some ⟨tmp, .handler :: ops⟩ ∧
      st' = obj.calcMetric { st with batches := st.batches.set k ⟨tmp, ops⟩ } := by
  rw [Object.work] at hw
  split at hw
  · exact absurd (Prod.mk.inj (Option.some.inj hw)).2 Bool.false_ne_true
  · exact absurd (Prod.mk.inj (Option.some.inj hw)).2 Bool.false_ne_true
  · exact absurd (Prod.mk.inj (Option.some.inj hw)).2 Bool.false_ne_true
  · next tmp ops hk => exact ⟨tmp, ops, hk, (Prod.mk.inj (Option.some.inj hw)).1.symm⟩
  · exact absurd hw.symm (Option.some_ne_none _)

/-- **The handler that is called finds the sums complete, and the metric that it adds is that of the
object.** -/
theorem Inv.work_handler {obj : Object ι} {q : List (Instr ι)} {st st' : ObjectState ι} {called k : ℕ}
    (h : Inv obj q st called) (hw : obj.work st k = some (st', true)) :
    called = 0 ∧ obj.metric st' = obj.value := by
  obtain ⟨tmp, ops, hk, rfl⟩ := work_true hw
  have hpos : 0 < Batch.handlers (⟨tmp, .handler :: ops⟩ : Batch ι) := by
    rw [Batch.handlers, List.countP_cons_of_pos rfl]
    exact Nat.succ_pos _
  have hle := le_sum_map (f := Batch.handlers) hk
  have hne : st.calls called ≠ 0 := by
    rw [ObjectState.calls]
    omega
  refine ⟨?_, ?_⟩
  · have hone := (h.fired hne).1
    rw [ObjectState.calls] at hone
    omega
  · rw [Object.metric, Object.value, Object.calcMetric]
    split_ifs with hweight
    · rw [hweight, zero_mul, zero_mul]
    · rw [← h.sums_full hne]

/-! ## The invariant of the solver -/

/-- The metric of object `o`. -/
def Solver.valueAt (S : Solver ι) (o : ℕ) : ℚ := ((S.objects[o]?).map Object.value).getD 0

structure SolverInv (S : Solver ι) (s : SolverState ι) : Prop where
  object : ∀ o obj, S.objects[o]? = some obj → Inv obj (own o s.prog) (s.obj o) (s.calls.count o)
  known : ∀ p ∈ s.prog, p.1 < S.objects.length
  calls_lt : ∀ o ∈ s.calls, o < S.objects.length
  sum : s.sum = (s.calls.map S.valueAt).sum + if s.stage = .posting then 0 else S.regularisation
  start : s.progWatch.start = 0
  target : s.progWatch.target = S.objects.length
  completed : s.progWatch.completed = true ↔ s.calls.length = S.objects.length
  counter : s.calls.length < S.objects.length → s.progWatch.counter = s.calls.length
  result : ∀ v, s.stage = .returned v → s.calls.length = S.objects.length ∧ v = s.sum

namespace SolverInv

/-- No handler has been called twice. -/
theorem nodup (h : SolverInv S s) : s.calls.Nodup := by
  refine List.nodup_iff_count_le_one.2 fun o => ?_
  by_cases hmem : o ∈ s.calls
  · have hobj := h.object o _ (List.getElem?_eq_getElem (h.calls_lt o hmem))
    by_cases hcalls : (s.obj o).calls (s.calls.count o) = 0
    · rw [ObjectState.calls] at hcalls
      omega
    · have hone := (hobj.fired hcalls).1
      rw [ObjectState.calls] at hone
      omega
  · rw [List.count_eq_zero_of_not_mem hmem]
    exact Nat.zero_le _

theorem begin (w : ProgressWatch Unit) (sums : ℕ → Sums ι) (metrics : ℕ → ℚ) (watches : ℕ → ProgressWatch Unit) :
    SolverInv S (S.begin w sums metrics watches) where
  object o obj hget := by
    have hown : own o (S.begin w sums metrics watches).prog = obj.program := own_program hget
    rw [hown]
    exact inv_begin rfl
  known p hp := by
    obtain ⟨⟨obj, o⟩, hmem, hp⟩ := List.mem_flatMap.1 hp
    obtain ⟨i, -, rfl⟩ := List.mem_map.1 hp
    have hlt := (List.mem_zipIdx hmem).2.1
    omega
  calls_lt o ho := absurd ho List.not_mem_nil
  sum := by
    show (0 : ℚ) = 0 + if Stage.posting = Stage.posting then 0 else S.regularisation
    rw [if_pos rfl, add_zero]
  start := rfl
  target := rfl
  completed := by
    show decide ((0 : ℤ) = S.objects.length) = true ↔ 0 = S.objects.length
    rw [decide_eq_true_iff]
    omega
  counter _ := rfl
  result v hv := Stage.noConfusion hv

/-- A step that concerns object `o` only. -/
theorem update {prog : List (ℕ × Instr ι)} {o : ℕ} {obj : Object ι} {st : ObjectState ι} (h : SolverInv S s)
    (hget : S.objects[o]? = some obj) (hknown : ∀ p ∈ prog, p.1 < S.objects.length)
    (hown : ∀ o', o' ≠ o → own o' prog = own o' s.prog) (hinv : Inv obj (own o prog) st (s.calls.count o)) :
    SolverInv S { s with prog := prog, obj := Function.update s.obj o st } := by
  refine { h with object := fun o' obj' hget' => ?_, known := hknown }
  by_cases ho : o' = o
  · subst ho
    obtain rfl := Option.some.inj (hget.symm.trans hget')
    show Inv obj (own o' prog) (Function.update s.obj o' st o') _
    rw [Function.update_self]
    exact hinv
  · show Inv obj' (own o' prog) (Function.update s.obj o st o') _
    rw [Function.update_of_ne ho, hown o' ho]
    exact h.object o' obj' hget'

theorem main (h : SolverInv S s) (hs : S.mainStep s = some s') : SolverInv S s' := by
  rw [Solver.mainStep] at hs
  split at hs
  · next o i prog hprog =>
    split at hs
    · next obj hget =>
      obtain rfl := Option.some.inj hs
      refine h.update hget ?_ ?_ ?_
      · intro p hp
        exact h.known p (hprog ▸ List.mem_cons_of_mem _ hp)
      · intro o' ho
        rw [hprog, own_cons_of_ne _ _ (Ne.symm ho)]
      · have hobj := h.object o obj hget
        rw [hprog, own_cons_self] at hobj
        exact hobj.exec
    · exact absurd hs.symm (Option.some_ne_none _)
  · next hprog hstage =>
    obtain rfl := Option.some.inj hs
    refine { h with sum := ?_, result := fun v hv => Stage.noConfusion hv }
    have hsum := h.sum
    rw [hstage, if_pos rfl, add_zero] at hsum
    show s.sum + _ = _
    rw [hsum, if_neg Stage.noConfusion]
  · next hprog hstage =>
    split at hs
    · next hdone =>
      obtain rfl := Option.some.inj hs
      have hsum := h.sum
      rw [hstage, if_neg Stage.noConfusion] at hsum
      refine { h with sum := ?_, result := fun v hv => ?_ }
      · rw [if_neg Stage.noConfusion]
        exact hsum
      · exact ⟨h.completed.1 hdone, (Stage.returned.inj hv).symm⟩
    · exact absurd hs.symm (Option.some_ne_none _)
  · exact absurd hs.symm (Option.some_ne_none _)

theorem thread {o k : ℕ} (h : SolverInv S s) (hs : S.threadStep s o k = some s') : SolverInv S s' := by
  rw [Solver.threadStep] at hs
  split at hs
  · next obj hget =>
    have hobj := h.object o obj hget
    split at hs
    · next st hw =>
      obtain rfl := Option.some.inj hs
      exact h.update hget h.known (fun _ _ => rfl) (hobj.work hw)
    · next st hw =>
      obtain rfl := Option.some.inj hs
      obtain ⟨hcount, hmetric⟩ := hobj.work_handler hw
      have hlt : o < S.objects.length := (List.getElem?_eq_some_iff.1 hget).1
      have hlt' : ∀ o' ∈ s.calls ++ [o], o' < S.objects.length :=
        List.forall_mem_append.2 ⟨h.calls_lt, List.forall_mem_singleton.2 hlt⟩
      have hnodup : (s.calls ++ [o]).Nodup := by
        refine List.nodup_append.2 ⟨h.nodup, List.nodup_singleton o, fun a ha b hb hab => ?_⟩
        rw [List.mem_singleton.1 hb] at hab
        rw [hab] at ha
        exact (List.count_pos_iff.2 ha).ne' hcount
      have hlen := length_le_of_lt hnodup hlt'
      rw [List.length_append, List.length_singleton] at hlen
      have hcounter := h.counter (by omega)
      have hstart := h.start
      have htarget := h.target
      refine ⟨fun o' obj' hget' => ?_, h.known, hlt', ?_, ?_, ?_, ?_, ?_, fun v hv => ?_⟩
      · by_cases ho : o' = o
        · subst ho
          obtain rfl := Option.some.inj (hget.symm.trans hget')
          show Inv obj (own o' s.prog) (Function.update s.obj o' st o') _
          rw [Function.update_self, List.count_append, List.count_singleton_self]
          exact hobj.work hw
        · show Inv obj' (own o' s.prog) (Function.update s.obj o st o') _
          have hcons : (s.calls ++ [o]).count o' = s.calls.count o' := by
            rw [List.count_append, List.count_singleton, beq_false_of_ne (Ne.symm ho), if_neg Bool.false_ne_true,
              add_zero]
          rw [Function.update_of_ne ho, hcons]
          exact h.object o' obj' hget'
      · have hvalue : S.valueAt o = obj.metric st := by
          rw [Solver.valueAt, hget, hmetric]
          rfl
        show s.sum + obj.metric st = ((s.calls ++ [o]).map S.valueAt).sum + _
        rw [sum_map_concat, hvalue, h.sum, add_right_comm]
      · exact (ProgressWatch.step_start _).trans hstart
      · exact (ProgressWatch.step_target _).trans htarget
      · rw [ProgressWatch.step_completed, List.length_append, List.length_singleton]
        omega
      · intro hmore
        rw [List.length_append, List.length_singleton] at hmore ⊢
        show s.progWatch.step.1.counter = _
        rw [ProgressWatch.step_of_ne _ (by omega), hcounter]
        rfl
      · have hdone := (h.result v hv).1
        omega
    · exact absurd hs.symm (Option.some_ne_none _)
  · exact absurd hs.symm (Option.some_ne_none _)

/-- **Every step keeps the invariant.** -/
theorem step {a : Action} (h : SolverInv S s) (hs : S.step s a = some s') : SolverInv S s' := by
  cases a with
  | main => exact h.main hs
  | thread o k => exact h.thread hs

/-- When all handlers have been called, the sum is over all objects. -/
theorem sum_values (h : SolverInv S s) (hall : s.calls.length = S.objects.length) :
    s.calls.Perm (List.range S.objects.length) ∧
      (s.calls.map S.valueAt).sum = (S.objects.map Object.value).sum := by
  have hperm := perm_range h.nodup h.calls_lt hall
  refine ⟨hperm, (hperm.map S.valueAt).sum_eq.trans (congrArg List.sum ?_)⟩
  refine List.ext_getElem (by simp) fun o ho ho' => ?_
  rw [List.getElem_map, List.getElem_range, List.getElem_map, Solver.valueAt]
  rw [List.length_map] at ho'
  rw [List.getElem?_eq_getElem ho']
  rfl

/-- **Who waits for the watch while nobody can go on has been told already.** -/
theorem not_waiting (h : SolverInv S s) (hprog : s.prog = []) (hstuck : ∀ o k, S.threadStep s o k = none) :
    s.calls.length = S.objects.length := by
  by_contra hne
  obtain ⟨o, hlt, hmem⟩ : ∃ o < S.objects.length, o ∉ s.calls := by
    by_contra hall
    push Not at hall
    have hsub : (List.range S.objects.length).Subperm s.calls :=
      List.subperm_of_subset List.nodup_range fun o ho => hall o (List.mem_range.1 ho)
    have hge := hsub.length_le
    have hle := length_le_of_lt h.nodup h.calls_lt
    rw [List.length_range] at hge
    omega
  have hget := List.getElem?_eq_getElem hlt
  have hobj := h.object o _ hget
  have hdone : ∀ b ∈ (s.obj o).batches, b.ops = [] := by
    intro b hb
    obtain ⟨k, hk⟩ := List.getElem?_of_mem hb
    have hnone := hstuck o k
    rw [Solver.threadStep, hget] at hnone
    dsimp only at hnone
    rw [Object.work, hk] at hnone
    obtain ⟨tmp, ops⟩ := b
    cases ops with
    | nil => rfl
    | cons op ops => cases op <;> exact absurd hnone (Option.some_ne_none _)
  have hsteps : (s.obj o).steps = 0 := sum_map_eq_zero fun b hb => by rw [Batch.steps, hdone b hb]; rfl
  have hhandlers : ((s.obj o).batches.map Batch.handlers).sum = 0 :=
    sum_map_eq_zero fun b hb => by rw [Batch.handlers, hdone b hb]; rfl
  have hcalls : (s.obj o).calls (s.calls.count o) = 0 := by
    rw [ObjectState.calls, hhandlers, List.count_eq_zero_of_not_mem hmem]
  have hown : own o s.prog = [] := by rw [hprog]; rfl
  rw [hown] at hobj
  obtain ⟨-, hbelow, hdue⟩ := hobj.due hcalls List.not_mem_nil
  have hzero : raises ([] : List (Instr ι)) = 0 := rfl
  have hnil : unposted ([] : List (Instr ι)) = [] := rfl
  rw [hsteps, hzero, hnil] at hdue
  simp only [List.flatten_nil, List.length_nil] at hdue
  omega

theorem complete (h : SolverInv S s) : S.Complete s where
  once := h.nodup
  sums o ho := by
    have hget := List.getElem?_eq_getElem (h.calls_lt o ho)
    have hne : (s.obj o).calls (s.calls.count o) ≠ 0 := by
      have hpos := List.count_pos_iff.2 ho
      rw [ObjectState.calls]
      omega
    have hfull := (h.object o _ hget).sums_full hne
    exact ⟨_, hget, hfull, by rw [hfull, Object.images_full]⟩
  result v hv := by
    obtain ⟨hall, rfl⟩ := h.result v hv
    obtain ⟨hperm, hvalues⟩ := h.sum_values hall
    refine ⟨hperm, ?_⟩
    rw [h.sum, hvalues, hv, if_neg Stage.noConfusion]
  progress hstuck := by
    have hmain := hstuck .main
    rw [Solver.step, Solver.mainStep] at hmain
    split at hmain
    · next o i prog hprog =>
      have hlt := h.known (o, i) (hprog ▸ List.mem_cons_self)
      rw [List.getElem?_eq_getElem hlt] at hmain
      exact absurd hmain (Option.some_ne_none _)
    · exact absurd hmain (Option.some_ne_none _)
    · next hprog hstage =>
      have hall := h.not_waiting hprog fun o k => hstuck (.thread o k)
      rw [if_pos (h.completed.2 hall)] at hmain
      exact absurd hmain (Option.some_ne_none _)
    · next v hprog hstage => exact ⟨v, hstage⟩

end SolverInv

/-! ## The metric -/

/-- **Whatever the threads do in which order, each handler is called once, when its object is complete, and
`metric()` comes back, with the sum over all objects.** -/
theorem Solver.metric_complete (S : Solver ι) (w : ProgressWatch Unit) (sums : ℕ → Sums ι) (metrics : ℕ → ℚ)
    (watches : ℕ → ProgressWatch Unit) (as : List Action) :
    Always S.step S.Complete (S.begin w sums metrics watches) as :=
  (always_of_invariant (fun _ _ _ h hs => h.step hs) (SolverInv.begin w sums metrics watches)).mono
    fun _ h => h.complete

end Results

end Redux.Momfbd.Metric
