import Redux.Lib.Run
import Redux.Momfbd.ShiftInit

/-!
# Momfbd.SolverShift — shifting the images of all objects, by threads

`Solver::shiftAndInit` posts the tasks of one object after the other and waits for its watch, which each image
steps that is transformed again, and each object that is skipped steps once for all its images.  The threads may
run the tasks as soon as they are posted, in any order and interleaved at every operation; the calls follow one
another, the first one with a reset.
-/

namespace Redux.Momfbd.ShiftInit

open Redux.Lib Redux.Util.Arrays Redux.Momfbd.Shifts

/-! ## Model -/

/-- The arguments of a call; `alpha` is the section for an object and an image. -/
structure Call where
  doReset : Bool
  alpha : ℕ → ℕ → ℤ → ℚ

structure Solver (π : Type) where
  objects : List (Object π)

/-- `current` is the call that the main thread is in, `calls` are those to come, and `prog` is what the main thread
has still to do for each object.  `returned` counts the calls that have come back, and `completions` how often
the watch has become complete in the call. -/
structure SolverState (π : Type) where
  calls : List Call
  current : Option Call
  prog : ℕ → List Instr
  progWatch : ProgressWatch Unit
  obj : ℕ → ObjectState π
  returned : ℕ
  completions : ℕ

/-- Before the first call, with no task running. -/
def SolverState.begin {π : Type} (calls : List Call) (w : ProgressWatch Unit) (initial : ℕ → ObjectState π) :
    SolverState π where
  calls := calls
  current := none
  prog := fun _ => []
  progWatch := w
  obj := fun o => { initial o with adjusting := [], handler := [], initializing := [] }
  returned := 0
  completions := 0

/-- The main thread goes on, or a thread with a task of object `o`. -/
inductive Action where
  | main
  | adjust (o k : ℕ)
  | handle (o : ℕ)
  | initImage (o k : ℕ)

/-- The watch has become complete, or not. -/
def ifCompleted (w : ProgressWatch Unit) : ℕ := if w.completed then 1 else 0

namespace Solver

variable {π : Type} (S : Solver π)

def nImages (o : ℕ) : ℕ := ((S.objects[o]?).map Object.nImages).getD 0

def nTotalImages : ℕ := ∑ o ∈ Finset.range S.objects.length, S.nImages o

/-- How many images have been accounted for in the call. -/
def total (s : SolverState π) : ℕ :=
  ∑ o ∈ Finset.range S.objects.length, ((S.objects[o]?).map fun obj => obj.total (s.obj o)).getD 0

/-- An object at the beginning of a call: the tasks that have come to their end are gone. -/
def beginObject (st : ObjectState π) : ObjectState π := { st with
  adjusting := st.adjusting.filter fun ops => !ops.isEmpty
  initializing := st.initializing.filter fun ops => !ops.isEmpty
  accounted := fun _ => 0 }

def beginCall (s : SolverState π) (c : Call) (calls : List Call) : SolverState π := { s with
  calls := calls
  current := some c
  prog := fun o => ((S.objects[o]?).map fun obj => obj.program c.doReset (c.alpha o)).getD []
  progWatch := s.progWatch.set S.nTotalImages 0
  obj := fun o => beginObject (s.obj o)
  completions := ifCompleted (s.progWatch.set S.nTotalImages 0) }

/-- The calls, each with its loop over the objects and its wait. -/
def mainStep (s : SolverState π) : Option (SolverState π) :=
  match s.current with
  | none =>
    match s.calls with
    | [] => none
    | c :: calls => some (S.beginCall s c calls)
  | some _ =>
    match (List.range S.objects.length).find? fun o => !(s.prog o).isEmpty with
    | some o =>
      match S.objects[o]?, s.prog o with
      | some obj, i :: q => some { s with
          prog := Function.update s.prog o q
          obj := Function.update s.obj o (obj.exec (s.obj o) i) }
      | _, _ => none
    | none =>
      if s.progWatch.completed then some { s with current := none, returned := s.returned + 1 } else none

/-- An object is changed by a thread, which may step the watch. -/
def afterThread (s : SolverState π) (o : ℕ) (st : ObjectState π) : Option ℕ → SolverState π
  | none => { s with obj := Function.update s.obj o st }
  | some count => { s with
      obj := Function.update s.obj o st
      progWatch := (s.progWatch.increase count).1
      completions := s.completions + ifCompleted (s.progWatch.increase count).1 }

def step (s : SolverState π) : Action → Option (SolverState π)
  | .main => S.mainStep s
  | .adjust o k => S.objects[o]?.bind fun obj => (obj.adjust (s.obj o) k).map fun st => afterThread s o st none
  | .handle o => S.objects[o]?.bind fun obj => (obj.handle (s.obj o)).map fun r => afterThread s o r.1 r.2
  | .initImage o k =>
    S.objects[o]?.bind fun obj => (obj.initImage (s.obj o) k).map fun r => afterThread s o r.1 r.2

/-- The watch does not become complete twice in a call, nor before all images of all objects have been accounted
for, once each; after a call it has, and `ftSum` is the sum of the power spectra of the images as they are, at
their shifts; and who does not get on has come back from all calls. -/
structure Current (s : SolverState π) : Prop where
  once : s.completions ≤ 1
  complete : s.completions = 1 → ∀ (o : ℕ) (obj : Object π), S.objects[o]? = some obj →
    ∀ im < obj.nImages, (s.obj o).accounted im = 1
  back : s.current = none → 0 < s.returned → s.completions = 1 ∧
    ∀ (o : ℕ) (obj : Object π), S.objects[o]? = some obj → obj.Synced (s.obj o) ∧ obj.Fresh (s.obj o)
  progress : (∀ a, S.step s a = none) → s.current = none ∧ s.calls = []

end Solver

/-- What holds of an object between two calls. -/
structure Idle {π : Type} (obj : Object π) (st : ObjectState π) (s : SolverState π) : Prop where
  tracked : ∀ im < obj.nImages, ∃ view, Tracks obj.modes view (st.sub im)
  quiet : st.Quiet
  ready : obj.Synced st ∧ obj.Fresh st ∨
    s.returned = 0 ∧ 0 < obj.nImages ∧ ∀ c ∈ s.calls.head?, c.doReset = true
  accounted : 0 < s.returned → ∀ im < obj.nImages, st.accounted im = 1

structure SolverInv {π : Type} (S : Solver π) (s : SolverState π) : Prop where
  idle : s.current = none → ∀ (o : ℕ) (obj : Object π), S.objects[o]? = some obj → Idle obj (s.obj o) s
  busy : ∀ c, s.current = some c → ∀ (o : ℕ) (obj : Object π), S.objects[o]? = some obj →
    Inv obj c.doReset (s.prog o) (s.obj o)
  watch : ∀ c, s.current = some c → s.progWatch.Counts S.nTotalImages (S.total s)
  completions : (s.current ≠ none ∨ 0 < s.returned) →
    s.completions = if S.total s = S.nTotalImages then 1 else 0
  back : s.current = none → 0 < s.returned → S.total s = S.nTotalImages
  first : s.current = none → s.returned = 0 → s.completions = 0

section Results

variable {π : Type} {S : Solver π} {s s' : SolverState π} {obj : Object π} {st : ObjectState π} {o : ℕ}

/-! ## Threads -/

/-- Where no task is left, no thread goes on. -/
theorem ObjectState.Quiet.stuck (h : st.Quiet) :
    (∀ k, obj.adjust st k = none) ∧ obj.handle st = none ∧ ∀ k, obj.initImage st k = none := by
  refine ⟨fun k => ?_, ?_, fun k => ?_⟩
  · rw [Object.adjust]
    cases hk : st.adjusting[k]? with
    | none => rfl
    | some ops => rw [h.1 ops (List.mem_of_getElem? hk)]
  · rw [Object.handle, h.2.1]
  · rw [Object.initImage]
    cases hk : st.initializing[k]? with
    | none => rfl
    | some ops => rw [h.2.2 ops (List.mem_of_getElem? hk)]

/-- **What a thread does for its object, and how many steps of the watch that are.** -/
theorem threadStep_cases {a : Action} (ha : a ≠ .main) (hs : S.step s a = some s') :
    ∃ o obj st c, S.objects[o]? = some obj ∧ s' = Solver.afterThread s o st c ∧ ¬ (s.obj o).Quiet ∧
      ∀ doReset q, Inv obj doReset q (s.obj o) → Inv obj doReset q st ∧
        (c = none ∧ obj.total st = obj.total (s.obj o) ∨
          ∃ n, 0 < n ∧ c = some n ∧ obj.total st = obj.total (s.obj o) + n) := by
  have htotal : ∀ {obj : Object π} {st st' : ObjectState π}, st'.accounted = st.accounted →
      obj.total st' = obj.total st := fun h => by rw [Object.total, Object.total, h]
  cases a with
  | main => exact absurd rfl ha
  | adjust o k =>
    obtain ⟨obj, hobj, hmap⟩ := Option.bind_eq_some_iff.1 hs
    obtain ⟨st, hst, rfl⟩ := Option.map_eq_some_iff.1 hmap
    refine ⟨o, obj, st, none, hobj, rfl, fun hquiet => ?_, fun doReset q hinv => ?_⟩
    · exact Option.some_ne_none _ (hst.symm.trans (hquiet.stuck.1 k))
    · obtain ⟨hinv', hacc⟩ := hinv.adjust hst
      exact ⟨hinv', Or.inl ⟨rfl, htotal hacc⟩⟩
  | handle o =>
    obtain ⟨obj, hobj, hmap⟩ := Option.bind_eq_some_iff.1 hs
    obtain ⟨⟨st, c⟩, hst, rfl⟩ := Option.map_eq_some_iff.1 hmap
    refine ⟨o, obj, st, c, hobj, rfl, fun hquiet => ?_, fun doReset q hinv => ?_⟩
    · exact Option.some_ne_none _ (hst.symm.trans hquiet.stuck.2.1)
    · obtain ⟨hinv', ⟨hc, hacc⟩ | ⟨hpos, hc, hzero, hall⟩⟩ := hinv.handle hst
      · exact ⟨hinv', Or.inl ⟨hc, htotal hacc⟩⟩
      · exact ⟨hinv', Or.inr ⟨_, hpos, hc, by rw [hzero, hall, Nat.zero_add]⟩⟩
  | initImage o k =>
    obtain ⟨obj, hobj, hmap⟩ := Option.bind_eq_some_iff.1 hs
    obtain ⟨⟨st, c⟩, hst, rfl⟩ := Option.map_eq_some_iff.1 hmap
    refine ⟨o, obj, st, c, hobj, rfl, fun hquiet => ?_, fun doReset q hinv => ?_⟩
    · exact Option.some_ne_none _ (hst.symm.trans (hquiet.stuck.2.2 k))
    · obtain ⟨hinv', ⟨hc, hacc⟩ | ⟨hc, hone⟩⟩ := hinv.initImage hst
      · exact ⟨hinv', Or.inl ⟨hc, htotal hacc⟩⟩
      · exact ⟨hinv', Or.inr ⟨1, Nat.one_pos, hc, hone⟩⟩

/-! ## The number of images -/

/-- One object is changed. -/
theorem total_update {obj' : ℕ → ObjectState π} (h : S.objects[o]? = some obj)
    (hother : ∀ o', o' ≠ o → obj' o' = s.obj o') :
    S.total { s with obj := obj' } + obj.total (s.obj o) = S.total s + obj.total (obj' o) := by
  have hlt := (List.getElem?_eq_some_iff.1 h).1
  have hupdate := @sum_range_of_ne o ℕ _ (fun o => ((S.objects[o]?).map fun obj => obj.total (s.obj o)).getD 0)
    (fun o => ((S.objects[o]?).map fun obj => obj.total (obj' o)).getD 0) S.objects.length hlt
    fun o' hne => by rw [hother o' hne]
  rw [h] at hupdate
  exact hupdate

theorem total_of_accounted {obj' : ℕ → ObjectState π}
    (h : ∀ (o : ℕ) (obj : Object π), S.objects[o]? = some obj → obj.total (obj' o) = obj.total (s.obj o)) :
    S.total { s with obj := obj' } = S.total s := by
  refine Finset.sum_congr rfl fun o _ => ?_
  cases hget : S.objects[o]? with
  | none => rfl
  | some obj => exact h o obj hget

namespace SolverInv

/-- What is left to do for an object that does not exist is nothing. -/
theorem get_of_lt (ho : o ∈ Finset.range S.objects.length) : ∃ obj, S.objects[o]? = some obj :=
  ⟨_, List.getElem?_eq_getElem (Finset.mem_range.1 ho)⟩

/-- **All objects are complete once the total is.** -/
theorem object_total (h : SolverInv S s) {c : Call} (hc : s.current = some c) (hall : S.total s = S.nTotalImages)
    (hget : S.objects[o]? = some obj) : obj.total (s.obj o) = obj.nImages := by
  have hle : ∀ o ∈ Finset.range S.objects.length,
      ((S.objects[o]?).map fun obj => obj.total (s.obj o)).getD 0 ≤ S.nImages o := by
    intro o ho
    obtain ⟨obj, hget⟩ := get_of_lt ho
    rw [Solver.nImages, hget]
    exact (h.busy c hc o obj hget).total_le
  have ho := Finset.mem_range.2 (List.getElem?_eq_some_iff.1 hget).1
  have heach := (Finset.sum_eq_sum_iff_of_le hle).1 hall o ho
  rwa [Solver.nImages, hget] at heach

theorem thread {a : Action} (h : SolverInv S s) (ha : a ≠ .main) (hs : S.step s a = some s') : SolverInv S s' := by
  obtain ⟨o, obj, st, c, hget, rfl, hbusy, hinv⟩ := threadStep_cases ha hs
  cases hcurrent : s.current with
  | none => exact absurd (h.idle hcurrent o obj hget).quiet hbusy
  | some call =>
    obtain ⟨hinv', hcases⟩ := hinv _ _ (h.busy call hcurrent o obj hget)
    have hcounts := h.watch call hcurrent
    have hcompletions := h.completions (Or.inl (by rw [hcurrent]; exact Option.some_ne_none _))
    have hupdate := @total_update π S s obj o (Function.update s.obj o st) hget
      fun o' hne => Function.update_of_ne hne _ _
    rw [Function.update_self] at hupdate
    have hobjects : ∀ (o' : ℕ) (obj' : Object π), S.objects[o']? = some obj' →
        Inv obj' call.doReset (s.prog o') (Function.update s.obj o st o') := by
      intro o' obj' hget'
      by_cases hne : o' = o
      · subst hne
        obtain rfl := Option.some.inj (hget.symm.trans hget')
        rw [Function.update_self]
        exact hinv'
      · rw [Function.update_of_ne hne]
        exact h.busy call hcurrent o' obj' hget'
    have hnone : ∀ {P : Prop}, s.current = none → P := fun hnone =>
      absurd (hcurrent.symm.trans hnone) (Option.some_ne_none _)
    rcases hcases with ⟨rfl, hsame⟩ | ⟨n, hpos, rfl, hmore⟩
    · have htotal : S.total { s with obj := Function.update s.obj o st } = S.total s := by omega
      refine ⟨fun hn => hnone hn, fun c hc => ?_, fun c hc => ?_, fun _ => ?_, fun hn => hnone hn,
        fun hn => hnone hn⟩
      · obtain rfl := Option.some.inj (hcurrent.symm.trans hc)
        exact hobjects
      · show s.progWatch.Counts S.nTotalImages (S.total { s with obj := Function.update s.obj o st })
        rw [htotal]
        exact hcounts
      · show s.completions = if S.total { s with obj := Function.update s.obj o st } = S.nTotalImages then 1 else 0
        rw [htotal]
        exact hcompletions
    · have htotal : S.total { s with obj := Function.update s.obj o st } = S.total s + n := by omega
      have hle : S.total s + n ≤ S.nTotalImages := by
        rw [← htotal]
        refine Finset.sum_le_sum fun o' ho' => ?_
        obtain ⟨obj', hget'⟩ := get_of_lt ho'
        rw [Solver.nImages, hget']
        exact (hobjects o' obj' hget').total_le
      have hnext := hcounts.increase hpos hle
      refine ⟨fun hn => hnone hn, fun c hc => ?_, fun c hc => ?_, fun _ => ?_, fun hn => hnone hn,
        fun hn => hnone hn⟩
      · obtain rfl := Option.some.inj (hcurrent.symm.trans hc)
        exact hobjects
      · show (s.progWatch.increase n).1.Counts S.nTotalImages
          (S.total { s with obj := Function.update s.obj o st })
        rw [htotal]
        exact hnext
      · show s.completions + ifCompleted (s.progWatch.increase n).1 =
          if S.total { s with obj := Function.update s.obj o st } = S.nTotalImages then 1 else 0
        rw [if_neg (by omega)] at hcompletions
        rw [htotal, hcompletions, Nat.zero_add, ifCompleted]
        exact if_congr hnext.completed rfl rfl

/-- A call begins. -/
theorem beginCall (h : SolverInv S s) {c : Call} {calls : List Call} (hcurrent : s.current = none)
    (hcalls : s.calls = c :: calls) : SolverInv S (S.beginCall s c calls) := by
  have hzero : S.total (S.beginCall s c calls) = 0 := by
    refine Finset.sum_eq_zero fun o ho => ?_
    obtain ⟨obj, hget⟩ := get_of_lt ho
    rw [hget]
    show obj.total (Solver.beginObject (s.obj o)) = 0
    exact Finset.sum_eq_zero fun im _ => rfl
  have hcounts := s.progWatch.counts_set S.nTotalImages
  have hsome : ∀ {P : Prop}, (S.beginCall s c calls).current = none → P := fun hn =>
    absurd hn (Option.some_ne_none _)
  refine ⟨fun hn => hsome hn, fun c' hc o obj hget => ?_, fun c' hc => ?_, fun _ => ?_, fun hn => hsome hn,
    fun hn => hsome hn⟩
  · obtain rfl : c = c' := Option.some.inj hc
    obtain ⟨htracked, hquiet, hready, -⟩ := h.idle hcurrent o obj hget
    have hprog : (S.beginCall s c calls).prog o = obj.program c.doReset (c.alpha o) := by
      show ((S.objects[o]?).map _).getD [] = _
      rw [hget]
      rfl
    rw [hprog]
    refine .begin (c.alpha o) htracked ⟨?_, hquiet.2.1, ?_⟩ (fun _ => rfl) ?_
    · exact List.filter_eq_nil_iff.2 fun ops hmem => by rw [hquiet.1 ops hmem]; exact Bool.false_ne_true
    · exact List.filter_eq_nil_iff.2 fun ops hmem => by rw [hquiet.2.2 ops hmem]; exact Bool.false_ne_true
    · rcases hready with hsettled | ⟨-, hpos, hreset⟩
      · exact Or.inr hsettled
      · exact Or.inl ⟨hreset c (by rw [hcalls]; rfl), hpos⟩
  · rw [hzero]
    exact hcounts
  · show ifCompleted (s.progWatch.set S.nTotalImages 0) = _
    rw [hzero, ifCompleted]
    exact if_congr hcounts.completed rfl rfl

theorem main (h : SolverInv S s) (hs : S.mainStep s = some s') : SolverInv S s' := by
  rw [Solver.mainStep] at hs
  split at hs
  · next hcurrent =>
    split at hs
    · exact absurd hs.symm (Option.some_ne_none _)
    · next c calls hcalls =>
      obtain rfl := Option.some.inj hs
      exact h.beginCall hcurrent hcalls
  · next c hcurrent =>
    have hsome : ∀ {P : Prop}, s.current = none → P := fun hn =>
      absurd (hcurrent.symm.trans hn) (Option.some_ne_none _)
    split at hs
    · next o hfind =>
      split at hs
      · next obj i q hget hprog =>
        obtain rfl := Option.some.inj hs
        have hobj := h.busy c hcurrent o obj hget
        rw [hprog] at hobj
        obtain ⟨hinv, hacc⟩ := hobj.exec
        have htotal : S.total { s with obj := Function.update s.obj o (obj.exec (s.obj o) i) } = S.total s := by
          refine total_of_accounted fun o' obj' hget' => ?_
          by_cases hne : o' = o
          · subst hne
            rw [Function.update_self, Object.total, Object.total, hacc]
          · rw [Function.update_of_ne hne]
        have hcounts := h.watch c hcurrent
        have hcompletions := h.completions (Or.inl (by rw [hcurrent]; exact Option.some_ne_none _))
        refine ⟨fun hn => hsome hn, fun c' hc o' obj' hget' => ?_, fun c' hc => ?_, fun _ => ?_, fun hn => hsome hn,
          fun hn => hsome hn⟩
        · obtain rfl := Option.some.inj (hcurrent.symm.trans hc)
          show Inv obj' c.doReset (Function.update s.prog o q o') (Function.update s.obj o _ o')
          by_cases hne : o' = o
          · subst hne
            obtain rfl := Option.some.inj (hget.symm.trans hget')
            rw [Function.update_self, Function.update_self]
            exact hinv
          · rw [Function.update_of_ne hne, Function.update_of_ne hne]
            exact h.busy c hcurrent o' obj' hget'
        · exact htotal ▸ hcounts
        · exact htotal ▸ hcompletions
      · exact absurd hs.symm (Option.some_ne_none _)
    · next hfind =>
      split_ifs at hs with hdone
      obtain rfl := Option.some.inj hs
      have hall := (h.watch c hcurrent).completed.1 hdone
      have hcompletions := h.completions (Or.inl (by rw [hcurrent]; exact Option.some_ne_none _))
      refine ⟨fun _ o obj hget => ?_, fun c' hc => absurd hc.symm (Option.some_ne_none _),
        fun c' hc => absurd hc.symm (Option.some_ne_none _), fun _ => hcompletions, fun _ _ => hall,
        fun _ hzero => absurd hzero (Nat.succ_ne_zero _)⟩
      have hlt := (List.getElem?_eq_some_iff.1 hget).1
      have hprog : s.prog o = [] := by
        have hempty := List.find?_eq_none.1 hfind o (List.mem_range.2 hlt)
        simpa using hempty
      have hinv := h.busy c hcurrent o obj hget
      have hones := hinv.all_of_total (h.object_total hcurrent hall hget)
      obtain ⟨hquiet, hsync, hfresh⟩ := hinv.settled.2 hprog hones
      exact ⟨hinv.tracked, hquiet, Or.inl ⟨hsync, hfresh⟩, fun _ => hones⟩

theorem step {a : Action} (h : SolverInv S s) (hs : S.step s a = some s') : SolverInv S s' := by
  by_cases ha : a = .main
  · subst ha
    exact h.main hs
  · exact h.thread ha hs

theorem begin {first : Call} {rest : List Call} {w : ProgressWatch Unit} {initial : ℕ → ObjectState π}
    (hreset : first.doReset = true)
    (htracked : ∀ (o : ℕ) (obj : Object π), S.objects[o]? = some obj →
      ∀ im < obj.nImages, ∃ view, Tracks obj.modes view ((initial o).sub im))
    (hempty : ∀ (o : ℕ) (obj : Object π), S.objects[o]? = some obj → obj.nImages = 0 →
      ∀ ind < obj.otfSize2, (initial o).ftSum ind = 0) : SolverInv S (SolverState.begin (first :: rest) w initial) where
  idle _ o obj hget := by
    refine ⟨htracked o obj hget, ⟨List.forall_mem_nil _, rfl, List.forall_mem_nil _⟩, ?_,
      fun h => absurd h (lt_irrefl _)⟩
    rcases Nat.eq_zero_or_pos obj.nImages with hzero | hpos
    · refine Or.inl ⟨fun ind hind => ?_, fun im him => by omega⟩
      rw [hzero, Finset.range_zero, Finset.sum_empty]
      exact hempty o obj hget hzero ind hind
    · refine Or.inr ⟨rfl, hpos, fun c hc => ?_⟩
      obtain rfl := Option.some.inj hc
      exact hreset
  busy c hc := absurd hc.symm (Option.some_ne_none _)
  watch c hc := absurd hc.symm (Option.some_ne_none _)
  completions h := h.elim (fun hn => absurd rfl hn) fun h => absurd h (lt_irrefl _)
  back _ h := absurd h (lt_irrefl _)
  first _ _ := rfl

/-- **Who does not get on has come back from all calls.** -/
theorem progress (h : SolverInv S s) (hstuck : ∀ a, S.step s a = none) : s.current = none ∧ s.calls = [] := by
  have hmain : S.mainStep s = none := hstuck .main
  rw [Solver.mainStep] at hmain
  cases hcurrent : s.current with
  | none =>
    rw [hcurrent] at hmain
    refine ⟨rfl, ?_⟩
    cases hcalls : s.calls with
    | nil => rfl
    | cons c calls =>
      rw [hcalls] at hmain
      exact absurd hmain (Option.some_ne_none _)
  | some c =>
    rw [hcurrent] at hmain
    exfalso
    dsimp only at hmain
    cases hfind : (List.range S.objects.length).find? fun o => !(s.prog o).isEmpty with
    | some o =>
      rw [hfind] at hmain
      have hlt := List.mem_range.1 (List.mem_of_find?_eq_some hfind)
      have hne := List.find?_some hfind
      obtain ⟨i, q, hprog⟩ := List.exists_cons_of_ne_nil (show s.prog o ≠ [] by simpa using hne)
      dsimp only at hmain
      rw [List.getElem?_eq_getElem hlt, hprog] at hmain
      exact Option.some_ne_none _ hmain
    | none =>
      rw [hfind] at hmain
      dsimp only at hmain
      split_ifs at hmain with hdone
      have hne : S.total s ≠ S.nTotalImages := fun hall => hdone ((h.watch c hcurrent).completed.2 hall)
      refine hne (Finset.sum_congr rfl fun o ho => ?_)
      obtain ⟨obj, hget⟩ := get_of_lt ho
      have hinv := h.busy c hcurrent o obj hget
      have hprog : s.prog o = [] := by
        have hempty := List.find?_eq_none.1 hfind o (List.mem_range.2 (Finset.mem_range.1 ho))
        simpa using hempty
      rw [hprog] at hinv
      rw [Solver.nImages, hget]
      by_contra hrest
      have hlt := lt_of_le_of_ne hinv.total_le hrest
      rcases hinv.busy hlt with ⟨k, hk⟩ | hk | ⟨k, hk⟩
      · refine hk ?_
        have hstep := hstuck (.adjust o k)
        rw [Solver.step, hget, Option.bind_some, Option.map_eq_none_iff] at hstep
        exact hstep
      · refine hk ?_
        have hstep := hstuck (.handle o)
        rw [Solver.step, hget, Option.bind_some, Option.map_eq_none_iff] at hstep
        exact hstep
      · refine hk ?_
        have hstep := hstuck (.initImage o k)
        rw [Solver.step, hget, Option.bind_some, Option.map_eq_none_iff] at hstep
        exact hstep

theorem current (h : SolverInv S s) : S.Current s where
  once := by
    by_cases hcall : s.current ≠ none ∨ 0 < s.returned
    · rw [h.completions hcall]
      split_ifs <;> omega
    · obtain ⟨hn, hr⟩ := not_or.1 hcall
      rw [h.first (not_not.1 hn) (by omega)]
      exact Nat.zero_le _
  complete hone o obj hget := by
    cases hcurrent : s.current with
    | none =>
      rcases Nat.eq_zero_or_pos s.returned with hzero | hpos
      · exact absurd ((h.first hcurrent hzero).symm.trans hone) Nat.zero_ne_one
      · exact (h.idle hcurrent o obj hget).accounted hpos
    | some c =>
      have hcompletions := h.completions (Or.inl (by rw [hcurrent]; exact Option.some_ne_none _))
      have hall : S.total s = S.nTotalImages := by
        by_contra hne
        rw [if_neg hne] at hcompletions
        omega
      exact (h.busy c hcurrent o obj hget).all_of_total (h.object_total hcurrent hall hget)
  back hcurrent hpos := by
    refine ⟨by rw [h.completions (Or.inr hpos), if_pos (h.back hcurrent hpos)], fun o obj hget => ?_⟩
    rcases (h.idle hcurrent o obj hget).ready with hsettled | ⟨hzero, -⟩
    · exact hsettled
    · omega
  progress := h.progress

end SolverInv

end Results

/-! ## Every run -/

/-- **Whatever the calls after a first one with a reset, and whatever the threads do in which order, each call
completes its watch once, when all images of all objects have been accounted for, and leaves `ftSum` of each
object the sum of the power spectra of its images as they are.**  An object without images, which `checkCfg`
refuses, is never transformed: its `ftSum` has to be zero before. -/
theorem shiftAndInit_current {π : Type} (S : Solver π) (first : Call) (rest : List Call)
    (hreset : first.doReset = true) (w : ProgressWatch Unit) (initial : ℕ → ObjectState π)
    (htracked : ∀ (o : ℕ) (obj : Object π), S.objects[o]? = some obj →
      ∀ im < obj.nImages, ∃ view, Tracks obj.modes view ((initial o).sub im))
    (hempty : ∀ (o : ℕ) (obj : Object π), S.objects[o]? = some obj → obj.nImages = 0 →
      ∀ ind < obj.otfSize2, (initial o).ftSum ind = 0) (as : List Action) :
    Always S.step S.Current (SolverState.begin (first :: rest) w initial) as :=
  (always_of_invariant (fun _ _ _ h hs => SolverInv.step h hs) (SolverInv.begin hreset htracked hempty)).mono
    fun _ h => h.current

/-- One object with two images; the transform of an image is where its view begins. -/
def twoImages : Object Unit := ⟨2, 1, unitModes, fun _ => (), fun _ view _ _ => (view.begin_, 0)⟩

/-- The view of four by four pixels in the middle of a cut-out of eight by eight. -/
def middleView : Array := ((Array.construct [1, 8, 8]).setLimitsOf [0, 0, 2, 5, 2, 5]).getD (Array.construct [])

def twoImagesState : ObjectState Unit := ⟨.clear, false, (), 0, fun _ => setPatchInfo middleView, 0, [], [], [], 0⟩

theorem middleView_tracked : Tracks unitModes middleView (setPatchInfo middleView) := by
  obtain ⟨hgood, ⟨d₀, d₁, d₂, hdims⟩, -⟩ := @wrapped middleView 1 8 8 (by decide) [0, 0, 2, 5, 2, 5] rfl rfl
  exact .begin hgood hdims

/-- A reset, and a call with a tilt of the second image by one pixel. -/
def resetThenTilt : List Call := [⟨true, fun _ _ _ => 0⟩, ⟨false, fun _ im m => if im = 1 ∧ m = 1 then 1 else 0⟩]

/-- What the threads do in a call in which the two images are transformed. -/
def threads : List Action :=
  [.adjust 0 1, .adjust 0 0, .adjust 0 0, .adjust 0 1, .handle 0, .handle 0, .handle 0,
    .initImage 0 0, .initImage 0 1, .initImage 0 1, .initImage 0 0, .initImage 0 0, .initImage 0 1]

def twoCalls : List Action :=
  [.main, .main, .main, .main] ++ threads ++ [.main, .main, .main, .main, .main] ++ threads ++ [.main]

/-- The second image moves from element 18 to element 17 of the cut-out, and the sum follows it. -/
theorem shiftAndInit_current_twoImages :
    (∀ im < twoImages.nImages, ∃ view, Tracks twoImages.modes view (twoImagesState.sub im)) ∧
    Always (Solver.step ⟨[twoImages]⟩) (Solver.Current ⟨[twoImages]⟩)
      (.begin resetThenTilt .clear fun _ => twoImagesState) twoCalls ∧
    (twoCalls.foldlM (Solver.step ⟨[twoImages]⟩) (.begin resetThenTilt .clear fun _ => twoImagesState)).map
      (fun s => (s.returned, (s.obj 0).ftSum 0)) = some (2, 18 ^ 2 + 17 ^ 2) := by
  have htracked : ∀ im < twoImages.nImages, ∃ view, Tracks twoImages.modes view (twoImagesState.sub im) :=
    fun im _ => ⟨middleView, middleView_tracked⟩
  have htwo : ∀ (o : ℕ) (obj : Object Unit), [twoImages][o]? = some obj → obj = twoImages := by
    intro o obj hget
    exact List.mem_singleton.1 (List.mem_of_getElem? hget)
  refine ⟨htracked, shiftAndInit_current ⟨[twoImages]⟩ _ _ rfl .clear (fun _ => twoImagesState)
    (fun o obj hget => ?_) (fun o obj hget hzero => ?_) _, by decide +kernel⟩
  · rw [htwo o obj hget]
    exact htracked
  · rw [htwo o obj hget] at hzero
    exact absurd hzero two_ne_zero

end Redux.Momfbd.ShiftInit
