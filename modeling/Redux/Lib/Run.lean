import Mathlib.Data.Nat.Notation
import Mathlib.Logic.Function.Basic

/-!
# Lib.Run — runs of a system whose steps may be disabled

`step s a` is the state after action `a`, `none` if `a` cannot happen in `s`.  `Always` speaks of the
states of a run, `Each` of its transitions; `always_of_each` is the induction every safety result
over runs goes through.
-/

namespace Redux.Lib

section Run

variable {σ α : Type*} (step : σ → α → Option σ)

/-- `P` holds in every state of the run, the first one included. -/
def Always (P : σ → Prop) : σ → List α → Prop
  | s, [] => P s
  | s, a :: as => P s ∧ ∀ s', step s a = some s' → Always P s' as

/-- `G` holds of every transition of the run. -/
def Each (G : σ → α → σ → Prop) : σ → List α → Prop
  | _, [] => True
  | s, a :: as => ∀ s', step s a = some s' → G s a s' ∧ Each G s' as

/-- `s'` is reached from `s` by transitions that satisfy `G`. -/
inductive Reaches (G : σ → α → σ → Prop) (s : σ) : σ → Prop
  | refl : Reaches G s s
  | next {s' s'' : σ} (a : α) : Reaches G s s' → step s' a = some s'' → G s' a s'' → Reaches G s s''

variable {step} {P Inv : σ → Prop} {G H : σ → α → σ → Prop} {s s' : σ} {as : List α}

theorem Always.head (h : Always step P s as) : P s := by
  cases as with
  | nil => exact h
  | cons a as => exact h.1

/-- `P` holds in the state at the end of the run. -/
theorem Always.last : ∀ {as : List α} {s : σ}, Always step P s as → as.foldlM step s = some s' → P s'
  | [], _, h, hs => Option.some.inj hs ▸ h
  | a :: as, s, h, hs => by
    rw [List.foldlM_cons] at hs
    obtain ⟨s₁, hs₁, hlast⟩ := Option.bind_eq_some_iff.mp hs
    exact (h.2 s₁ hs₁).last hlast

theorem Always.mono {Q : σ → Prop} (hPQ : ∀ s, P s → Q s) :
    ∀ {s as}, Always step P s as → Always step Q s as
  | _, [], h => hPQ _ h
  | _, _ :: _, h => ⟨hPQ _ h.1, fun s' hs => (h.2 s' hs).mono hPQ⟩

/-- **An invariant that the good transitions keep holds throughout a run of good transitions.** -/
theorem always_of_each (hstep : ∀ s a s', Inv s → G s a s' → step s a = some s' → Inv s') :
    ∀ {s as}, Inv s → Each step G s as → Always step Inv s as
  | _, [], hs, _ => hs
  | _, a :: _, hs, h =>
    ⟨hs, fun s' hs' => always_of_each hstep (hstep _ a s' hs (h s' hs').1 hs') (h s' hs').2⟩

theorem Each.cons {a : α} (hs : step s a = some s') (hG : G s a s') (h : Each step G s' as) :
    Each step G s (a :: as) := fun t ht => by
  obtain rfl := Option.some.inj (hs.symm.trans ht)
  exact ⟨hG, h⟩

theorem each_true : ∀ {s as}, Each step (fun _ _ _ => True) s as
  | _, [] => trivial
  | _, _ :: _ => fun _ _ => ⟨trivial, each_true⟩

/-- **An invariant that every transition keeps holds throughout every run.** -/
theorem always_of_invariant (hstep : ∀ s a s', Inv s → step s a = some s' → Inv s') (hs : Inv s) :
    Always step Inv s as :=
  always_of_each (fun s a s' hs _ => hstep s a s' hs) hs each_true

/-- What the invariant and the guard say of a transition holds of every transition of such a run. -/
theorem each_of_each (hstep : ∀ s a s', Inv s → G s a s' → step s a = some s' → Inv s' ∧ H s a s') :
    ∀ {s as}, Inv s → Each step G s as → Each step H s as
  | _, [], _, _ => trivial
  | _, a :: _, hs, h => fun s' hs' =>
    have hnext := hstep _ a s' hs (h s' hs').1 hs'
    ⟨hnext.2, each_of_each hstep hnext.1 (h s' hs').2⟩

/-- What the invariant, the guard and `P` afterwards say of a transition holds of every transition of such a run. -/
theorem each_of_always (hstep : ∀ s a s', Inv s → G s a s' → P s' → step s a = some s' → Inv s' ∧ H s a s') :
    ∀ {s as}, Inv s → Each step G s as → Always step P s as → Each step H s as
  | _, [], _, _, _ => trivial
  | _, a :: _, hs, h, hall => fun s' hs' =>
    have hnext := hstep _ a s' hs (h s' hs').1 (hall.2 s' hs').head hs'
    ⟨hnext.2, each_of_always hstep hnext.1 (h s' hs').2 (hall.2 s' hs')⟩

/-- **If good transitions are the ones that keep `P`, then `P` holds throughout exactly the runs of good
transitions.** -/
theorem always_iff_each (hinv : ∀ s a s', Inv s → step s a = some s' → Inv s')
    (hgood : ∀ s a s', Inv s → P s → step s a = some s' → (P s' ↔ G s a s')) :
    ∀ {s as}, Inv s → P s → (Always step P s as ↔ Each step G s as)
  | _, [], _, hp => iff_of_true hp trivial
  | s, a :: _, hs, hp => by
    constructor
    · intro h s' hs'
      have hG := (hgood s a s' hs hp hs').mp (h.2 s' hs').head
      exact ⟨hG, (always_iff_each hinv hgood (hinv s a s' hs hs') (h.2 s' hs').head).mp (h.2 s' hs')⟩
    · intro h
      refine ⟨hp, fun s' hs' => ?_⟩
      have hp' := (hgood s a s' hs hp hs').mpr (h s' hs').1
      exact (always_iff_each hinv hgood (hinv s a s' hs hs') hp').mpr (h s' hs').2

/-- **The same with something said of the transitions besides.** -/
theorem always_and_each_iff (hinv : ∀ s a s', Inv s → step s a = some s' → Inv s')
    (hgood : ∀ s a s', Inv s → P s → step s a = some s' → (P s' ∧ H s a s' ↔ G s a s')) :
    ∀ {s as}, Inv s → P s → (Always step P s as ∧ Each step H s as ↔ Each step G s as)
  | _, [], _, hp => iff_of_true ⟨hp, trivial⟩ trivial
  | s, a :: as, hs, hp => by
    constructor
    · rintro ⟨halways, heach⟩ s' hs'
      have hp' := (halways.2 s' hs').head
      have ih := (always_and_each_iff hinv hgood (hinv s a s' hs hs') hp').mp ⟨halways.2 s' hs', (heach s' hs').2⟩
      exact ⟨(hgood s a s' hs hp hs').mp ⟨hp', (heach s' hs').1⟩, ih⟩
    · intro h
      have hnext : ∀ s', step s a = some s' → (Always step P s' as ∧ Each step H s' as) ∧ H s a s' := by
        intro s' hs'
        obtain ⟨hp', hH⟩ := (hgood s a s' hs hp hs').mpr (h s' hs').1
        exact ⟨(always_and_each_iff hinv hgood (hinv s a s' hs hs') hp').mpr (h s' hs').2, hH⟩
      exact ⟨⟨hp, fun s' hs' => (hnext s' hs').1.1⟩, fun s' hs' => ⟨(hnext s' hs').2, (hnext s' hs').1.2⟩⟩

/-- **An invariant that the good transitions keep holds in every state they reach.** -/
theorem Reaches.invariant (hstep : ∀ s a s', Inv s → G s a s' → step s a = some s' → Inv s')
    (hs : Inv s) (h : Reaches step G s s') : Inv s' := by
  induction h with
  | refl => exact hs
  | next a _ hnext hG ih => exact hstep _ a _ ih hG hnext

/-- The state at the end of a run is reached. -/
theorem reaches_of_foldlM : ∀ {as : List α} {s₁ : σ}, Reaches step (fun _ _ _ => True) s s₁ →
    as.foldlM step s₁ = some s' → Reaches step (fun _ _ _ => True) s s'
  | [], _, h, hs => Option.some.inj hs ▸ h
  | a :: as, s₁, h, hs => by
    rw [List.foldlM_cons] at hs
    obtain ⟨s₂, hs₂, hrest⟩ := Option.bind_eq_some_iff.1 hs
    exact reaches_of_foldlM (h.next a hs₂ trivial) hrest

/-- **If every step makes a measure smaller, then some run goes on until no step is possible.** -/
theorem exists_maximal {μ : σ → ℕ} (hdec : ∀ s a s', step s a = some s' → μ s' < μ s) (s : σ) :
    ∃ (as : List α) (s' : σ), as.foldlM step s = some s' ∧ ∀ a, step s' a = none := by
  by_cases hstep : ∃ a s', step s a = some s'
  · obtain ⟨a, s', hs⟩ := hstep
    obtain ⟨as, t, hrun, hmax⟩ := exists_maximal hdec s'
    refine ⟨a :: as, t, ?_, hmax⟩
    rw [List.foldlM_cons]
    exact Option.bind_eq_some_iff.2 ⟨s', hs, hrun⟩
  · exact ⟨[], s, rfl, fun a => Option.eq_none_iff_forall_ne_some.2 fun s' hs => hstep ⟨a, s', hs⟩⟩
  termination_by μ s
  decreasing_by exact hdec _ _ _ hs

/-- And no run is longer than the measure. -/
theorem length_add_le {μ : σ → ℕ} (hdec : ∀ s a s', step s a = some s' → μ s' < μ s) :
    ∀ {as : List α} {s s' : σ}, as.foldlM step s = some s' → as.length + μ s' ≤ μ s
  | [], s, s', hs => by
    obtain rfl := Option.some.inj hs
    exact Nat.le_of_eq (Nat.zero_add _)
  | a :: as, s, s', hs => by
    rw [List.foldlM_cons] at hs
    obtain ⟨s₁, hs₁, hrest⟩ := Option.bind_eq_some_iff.1 hs
    have hlt := hdec _ _ _ hs₁
    have hle := length_add_le hdec hrest
    rw [List.length_cons]
    omega

/-! ## Steps that commute -/

section Commute

variable {a : α} {as bs : List α} {s t u : σ}

/-- Two actions that are possible in one state can follow each other, to the same end. -/
def Commutes (step : σ → α → Option σ) : Prop :=
  ∀ s a b s₁ s₂, a ≠ b → step s a = some s₁ → step s b = some s₂ →
    ∃ s₃, step s₁ b = some s₃ ∧ step s₂ a = some s₃

/-- After any step the rest of a run to the end is one step shorter. -/
theorem Commutes.after_step (hcomm : Commutes step) (hend : ∀ a, step t a = none) :
    ∀ {as : List α} {s u : σ} {b : α}, as.foldlM step s = some t → step s b = some u →
      ∃ cs : List α, cs.foldlM step u = some t ∧ cs.length + 1 = as.length
  | [], s, u, b, hrun, hu => by
    obtain rfl := Option.some.inj hrun
    rw [hend b] at hu
    exact absurd hu.symm (Option.some_ne_none u)
  | a :: as, s, u, b, hrun, hu => by
    rw [List.foldlM_cons] at hrun
    obtain ⟨v, hv, hrest⟩ := Option.bind_eq_some_iff.1 hrun
    by_cases hab : a = b
    · subst hab
      obtain rfl := Option.some.inj (hv.symm.trans hu)
      exact ⟨as, hrest, rfl⟩
    · obtain ⟨w, hvw, huw⟩ := hcomm s a b v u hab hv hu
      obtain ⟨cs, hcs, hlen⟩ := hcomm.after_step hend hrest hvw
      refine ⟨a :: cs, ?_, by rw [List.length_cons, List.length_cons, hlen]⟩
      rw [List.foldlM_cons]
      exact Option.bind_eq_some_iff.2 ⟨w, huw, hcs⟩

/-- **One run to the end tells them all**: whatever was done so far can be completed to the same end, in
as many steps as are missing. -/
theorem Commutes.completes (hcomm : Commutes step) (hend : ∀ a, step t a = none)
    : ∀ {bs : List α} {s u : σ} {as : List α}, as.foldlM step s = some t →
      bs.foldlM step s = some u → ∃ cs : List α, cs.foldlM step u = some t ∧ bs.length + cs.length = as.length
  | [], _, _, as, hrun, hu => by
    obtain rfl := Option.some.inj hu
    exact ⟨as, hrun, Nat.zero_add _⟩
  | b :: bs, s, u, as, hrun, hu => by
    rw [List.foldlM_cons] at hu
    obtain ⟨v, hv, hrest⟩ := Option.bind_eq_some_iff.1 hu
    obtain ⟨as', hrun', hlen'⟩ := hcomm.after_step hend hrun hv
    obtain ⟨cs, hcs, hlen⟩ := hcomm.completes hend hrun' hrest
    exact ⟨cs, hcs, by rw [List.length_cons]; omega⟩

/-- A run that cannot go on has come to the same end, after as many steps. -/
theorem Commutes.maximal (hcomm : Commutes step) (hend : ∀ a, step t a = none)
    (hrun : as.foldlM step s = some t) (hu : bs.foldlM step s = some u) (hmax : ∀ a, step u a = none) :
    u = t ∧ bs.length = as.length := by
  obtain ⟨cs, hcs, hlen⟩ := hcomm.completes hend hrun hu
  cases cs with
  | nil => exact ⟨Option.some.inj hcs, hlen⟩
  | cons c cs =>
    rw [List.foldlM_cons, hmax c] at hcs
    exact absurd hcs.symm (Option.some_ne_none t)

end Commute

end Run

end Redux.Lib
