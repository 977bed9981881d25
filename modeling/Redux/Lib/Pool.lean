import Redux.Lib.Run
import Mathlib.Data.List.Perm.Basic

/-!
# Lib.Pool — items of work that threads carry out in any order

An item of work is the list of its operations.  One operation is atomic; between two operations of an
item every other item may go on.  Whatever the order, what is done in the end is a permutation of what
was posted, and the state is the one that the operations made in the order in which they were done.
-/

namespace Redux.Lib

section Pool

variable {σ ω : Type*}

/-- The state that the operations change, what is left of each item, and the operations done, the latest
first. -/
structure Pool (σ ω : Type*) where
  state : σ
  pending : List (List ω)
  done : List ω

namespace Pool

/-- The next operation of item `i`. -/
def step (exec : ω → σ → σ) (p : Pool σ ω) (i : ℕ) : Option (Pool σ ω) :=
  match p.pending[i]? with
  | some (op :: ops) => some ⟨exec op p.state, p.pending.set i ops, op :: p.done⟩
  | _ => none

/-- All items have run. -/
def Idle (p : Pool σ ω) : Prop := p.pending.flatten = []

theorem flatten_set_perm {op : ω} {ops : List ω} : ∀ {items : List (List ω)} {i : ℕ},
    items[i]? = some (op :: ops) → (op :: (items.set i ops).flatten).Perm items.flatten
  | [], i, h => by rw [List.getElem?_nil] at h; exact absurd h.symm (Option.some_ne_none _)
  | item :: items, 0, h => by
    rw [List.getElem?_cons_zero, Option.some_inj] at h
    subst h
    exact List.Perm.refl _
  | item :: items, i + 1, h => by
    rw [List.getElem?_cons_succ] at h
    rw [List.set_cons_succ, List.flatten_cons, List.flatten_cons]
    exact List.perm_middle.symm.trans ((flatten_set_perm h).append_left item)

theorem step_eq_some {exec : ω → σ → σ} {p p' : Pool σ ω} {i : ℕ} (h : step exec p i = some p') :
    ∃ op ops, p.pending[i]? = some (op :: ops) ∧
      p' = ⟨exec op p.state, p.pending.set i ops, op :: p.done⟩ := by
  rw [step] at h
  split at h
  · next op ops hop => exact ⟨op, ops, hop, (Option.some_inj.1 h).symm⟩
  · exact absurd h.symm (Option.some_ne_none _)

variable {exec : ω → σ → σ} {p p' : Pool σ ω} {is : List ℕ}

/-- **What is done when all items have run is a permutation of what was posted, and made the state.** -/
theorem run (h : is.foldlM (step exec) p = some p') (hdone : p.done = []) (hidle : p'.Idle) :
    p'.done.Perm p.pending.flatten ∧ p'.state = p'.done.foldr exec p.state := by
  have hinv : Always (step exec) (fun q => (q.done ++ q.pending.flatten).Perm p.pending.flatten ∧
      q.state = q.done.foldr exec p.state) p is := by
    refine always_of_invariant ?_ ⟨?_, ?_⟩
    · rintro q i q' ⟨hperm, hstate⟩ hstep
      obtain ⟨op, ops, hop, rfl⟩ := step_eq_some hstep
      refine ⟨?_, ?_⟩
      · exact (List.perm_middle.symm.trans ((flatten_set_perm hop).append_left q.done)).trans hperm
      · rw [List.foldr_cons, ← hstate]
    · rw [hdone]; exact List.Perm.refl _
    · rw [hdone]; rfl
  obtain ⟨hperm, hstate⟩ := hinv.last h
  rw [hidle, List.append_nil] at hperm
  exact ⟨hperm, hstate⟩

/-! ## One item at the end -/

/-- A step of any item but number `i`. -/
def stepBut (exec : ω → σ → σ) (i : ℕ) (p : Pool σ ω) (k : ℕ) : Option (Pool σ ω) :=
  if k = i then none else step exec p k

theorem stepBut_eq_some {i k : ℕ} (h : stepBut exec i p k = some p') : k ≠ i ∧ step exec p k = some p' := by
  unfold stepBut at h
  split_ifs at h with hk
  exact ⟨hk, h⟩

/-- Each step makes what is left one operation shorter. -/
theorem step_length (h : step exec p k = some p') :
    p'.pending.flatten.length < p.pending.flatten.length := by
  obtain ⟨op, ops, hop, rfl⟩ := step_eq_some h
  rw [← (flatten_set_perm hop).length_eq]
  exact Nat.lt_succ_self _

theorem foldlM_stepBut {i : ℕ} : ∀ {is : List ℕ} {p : Pool σ ω}, is.foldlM (stepBut exec i) p = some p' →
    is.foldlM (step exec) p = some p'
  | [], _, h => h
  | k :: is, p, h => by
    rw [List.foldlM_cons] at h ⊢
    obtain ⟨q, hq, hrest⟩ := Option.bind_eq_some_iff.1 h
    exact Option.bind_eq_some_iff.2 ⟨q, (stepBut_eq_some hq).2, foldlM_stepBut hrest⟩

/-- An item can run on its own. -/
theorem run_item : ∀ {item : List ω} {p : Pool σ ω} {i : ℕ}, p.pending[i]? = some item →
    ∃ s, (List.replicate item.length i).foldlM (step exec) p =
      some ⟨s, p.pending.set i [], item.reverse ++ p.done⟩
  | [], p, i, h => by
    obtain ⟨hi, hget⟩ := List.getElem?_eq_some_iff.1 h
    have hset : p.pending.set i [] = p.pending := by
      conv_lhs => rw [← hget, List.set_getElem_self]
    exact ⟨p.state, by rw [hset]; rfl⟩
  | op :: item, p, i, h => by
    have hstep : step exec p i = some ⟨exec op p.state, p.pending.set i item, op :: p.done⟩ := by
      rw [step, h]
    have hi := (List.getElem?_eq_some_iff.1 h).1
    obtain ⟨s, hs⟩ := @run_item item ⟨exec op p.state, p.pending.set i item, op :: p.done⟩ i
      (List.getElem?_set_self hi)
    refine ⟨s, ?_⟩
    rw [List.length_cons, List.replicate_succ, List.foldlM_cons, hstep, Option.bind_eq_bind, Option.bind_some, hs,
      List.set_set, List.reverse_cons, List.append_assoc]
    rfl

/-- **Any item can be the last one to run.** -/
theorem exists_run_last (exec : ω → σ → σ) (p : Pool σ ω) {i : ℕ} {item : List ω}
    (hi : p.pending[i]? = some item) : ∃ (is : List ℕ) (p' : Pool σ ω),
      is.foldlM (step exec) p = some p' ∧ p'.Idle ∧ ∃ d, p'.done = item.reverse ++ d := by
  obtain ⟨is, q, hrun, hmax⟩ := @exists_maximal _ _ (stepBut exec i) (fun p => p.pending.flatten.length)
    (fun _ _ _ h => step_length (stepBut_eq_some h).2) p
  have hkept : q.pending[i]? = some item := by
    refine (always_of_invariant (fun r k r' hr hstep => ?_) hi : Always (stepBut exec i)
      (fun q => q.pending[i]? = some item) p is).last hrun
    obtain ⟨hk, hstep⟩ := stepBut_eq_some hstep
    obtain ⟨op, ops, -, rfl⟩ := step_eq_some hstep
    exact (List.getElem?_set_ne hk).trans hr
  obtain ⟨s, hs⟩ := @run_item _ _ exec item q i hkept
  refine ⟨is ++ List.replicate item.length i, ⟨s, q.pending.set i [], item.reverse ++ q.done⟩, ?_, ?_, q.done, rfl⟩
  · rw [List.foldlM_append, foldlM_stepBut hrun]
    exact hs
  · -- the others have nothing left
    refine List.flatten_eq_nil_iff.2 fun ops hops => ?_
    obtain ⟨k, hk, rfl⟩ := List.mem_iff_getElem.1 hops
    rw [List.getElem_set]
    split_ifs with hik
    · rfl
    · have hnone := hmax k
      rw [List.length_set] at hk
      rw [stepBut, if_neg (Ne.symm hik), step, List.getElem?_eq_getElem hk] at hnone
      cases hops' : q.pending[k] with
      | nil => rfl
      | cons op ops =>
        rw [hops'] at hnone
        exact absurd hnone (Option.some_ne_none _)

/-- Everything can run. -/
theorem exists_run (exec : ω → σ → σ) (p : Pool σ ω) : ∃ (is : List ℕ) (p' : Pool σ ω),
    is.foldlM (step exec) p = some p' ∧ p'.Idle := by
  cases hp : p.pending with
  | nil => exact ⟨[], p, rfl, by rw [Idle, hp]; rfl⟩
  | cons item items =>
    have hfirst : p.pending[0]? = some item := by rw [hp]; rfl
    obtain ⟨is, p', hrun, hidle, -⟩ := exists_run_last exec p hfirst
    exact ⟨is, p', hrun, hidle⟩

end Pool

end Pool

end Redux.Lib
