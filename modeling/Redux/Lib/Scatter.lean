import Mathlib.Data.List.Nodup
import Mathlib.Logic.Function.Basic

/-!
# Lib.Scatter — writes to places that are apart

`scatter ws m` is what a memory `m` becomes by the writes `ws`, one after the other.  Where no place is written to
twice, their order does not matter: a place that is written to has what is written, any other what was there.
-/

namespace Redux.Lib.Scatter

section Scatter

variable {κ α σ : Type*} [DecidableEq κ]

/-- The memory after the writes. -/
def scatter (ws : List (κ × α)) (m : κ → α) : κ → α := ws.foldl (fun m w => Function.update m w.1 w.2) m

variable {ws : List (κ × α)} {m : κ → α} {k : κ} {v : α}

theorem scatter_cons (w : κ × α) : scatter (w :: ws) m = scatter ws (Function.update m w.1 w.2) := rfl

theorem scatter_append (ws' : List (κ × α)) : scatter (ws ++ ws') m = scatter ws' (scatter ws m) := List.foldl_append

/-- **What is not written to stays.** -/
theorem scatter_of_not_mem : ∀ {ws : List (κ × α)} {m : κ → α}, k ∉ ws.map Prod.fst → scatter ws m k = m k
  | [], _, _ => rfl
  | w :: ws, m, h => by
    rw [List.map_cons, List.mem_cons, not_or] at h
    rw [scatter_cons, scatter_of_not_mem h.2, Function.update_of_ne h.1]

theorem scatter_of_forall_ne (h : ∀ w ∈ ws, w.1 ≠ k) : scatter ws m k = m k := by
  apply scatter_of_not_mem
  intro hmem
  obtain ⟨w, hw, rfl⟩ := List.mem_map.1 hmem
  exact h w hw rfl

/-- **What is written to once has what is written.** -/
theorem scatter_of_mem : ∀ {ws : List (κ × α)} {m : κ → α}, (ws.map Prod.fst).Nodup → (k, v) ∈ ws →
    scatter ws m k = v
  | w :: ws, m, hnodup, h => by
    rw [List.map_cons, List.nodup_cons] at hnodup
    rcases List.mem_cons.1 h with rfl | h
    · rw [scatter_cons, scatter_of_not_mem hnodup.1, Function.update_self]
    · rw [scatter_cons, scatter_of_mem hnodup.2 h]

/-- **Writes of values that may fail**: they leave `m'` exactly if each place has its value in it, and any other what
was there. -/
theorem mapM_scatter_iff {f : κ → Option α} {m' : κ → α} : ∀ {l : List κ} {m : κ → α}, l.Nodup →
    ((l.mapM fun k => (f k).map fun v => (k, v)).map (fun ws => scatter ws m) = some m' ↔
      (∀ k ∈ l, f k = some (m' k)) ∧ ∀ k ∉ l, m' k = m k)
  | [], m, _ => by
    simp [scatter, funext_iff, eq_comm]
  | k :: l, m, hnodup => by
    obtain ⟨hk, hl⟩ := List.nodup_cons.1 hnodup
    cases hv : f k with
    | none => simp [hv]
    | some v =>
      have hrest := @mapM_scatter_iff f m' l (Function.update m k v) hl
      have hcons : ((k :: l).mapM fun k => (f k).map fun v => (k, v)).map (fun ws => scatter ws m) =
          (l.mapM fun k => (f k).map fun v => (k, v)).map fun ws => scatter ws (Function.update m k v) := by
        rw [List.mapM_cons, hv]
        cases l.mapM fun k => (f k).map fun v => (k, v) with
        | none => rfl
        | some ws => rfl
      rw [hcons, hrest, List.forall_mem_cons, hv, Option.some.injEq]
      constructor
      · rintro ⟨hmem, hnot⟩
        have hvk := hnot k hk
        rw [Function.update_self] at hvk
        refine ⟨⟨hvk.symm, hmem⟩, fun i hi => ?_⟩
        rw [List.mem_cons, not_or] at hi
        rw [hnot i hi.2, Function.update_of_ne hi.1]
      · rintro ⟨⟨hvk, hmem⟩, hnot⟩
        refine ⟨hmem, fun i hi => ?_⟩
        by_cases hik : i = k
        · rw [hik, Function.update_self, hvk]
        · rw [Function.update_of_ne hik]
          exact hnot i (by simp [hik, hi])

omit [DecidableEq κ] in
/-- **Sources that are read once each are written to their targets exactly if every write has the right one.** -/
theorem perm_targets_iff {t : σ → κ} {ws : List (κ × σ)} {sources : List σ} (h : (ws.map Prod.snd).Perm sources) :
    ws.Perm (sources.map fun s => (t s, s)) ↔ ∀ w ∈ ws, w.1 = t w.2 := by
  constructor
  · intro hperm w hw
    obtain ⟨s, -, rfl⟩ := List.mem_map.1 (hperm.mem_iff.1 hw)
    rfl
  · intro hright
    have hws : ws = (ws.map Prod.snd).map fun s => (t s, s) := by
      rw [List.map_map]
      exact (List.map_id ws).symm.trans (List.map_congr_left fun w hw => Prod.ext (hright w hw) rfl)
    rw [hws]
    exact h.map _

end Scatter

/-! ## What is listed for a place -/

section Listed

variable {κ α β : Type*} [DecidableEq κ]

variable {k : κ} {ws : List (κ × α)}

end Listed

/-! ## Changes in place -/

section Changes

variable {κ α : Type*} {g : κ → α → α} {m : κ → α} {k : κ}

/-- The memory after all places with `r` have been changed. -/
def changed (g : κ → α → α) (r : κ → Prop) [DecidablePred r] (m : κ → α) : κ → α :=
  fun k => if r k then g k (m k) else m k

theorem changed_congr {r r' : κ → Prop} [DecidablePred r] [DecidablePred r'] (h : ∀ k, r k ↔ r' k) :
    changed g r m = changed g r' m := by
  ext k
  exact if_congr (h k) rfl rfl

theorem update_eq_changed [DecidableEq κ] : Function.update m k (g k (m k)) = changed g (· = k) m := by
  ext i
  by_cases hi : i = k
  · subst hi
    rw [Function.update_self, changed, if_pos rfl]
  · rw [Function.update_of_ne hi, changed, if_neg hi]

/-- **A loop whose rounds change places of their own** changes all of them once, if every round can be made. -/
theorem foldlM_range_changed {step : (κ → α) → ℕ → Option (κ → α)} {ok : ℕ → Prop} [DecidablePred ok]
    {region : ℕ → κ → Prop} [∀ i, DecidablePred (region i)] (hapart : ∀ i j k, region i k → region j k → i = j)
    (hstep : ∀ m i, step m i = if ok i then some (changed g (region i) m) else none) : ∀ n : ℕ,
    (List.range n).foldlM step m =
      if ∀ i < n, ok i then some (changed g (fun k => ∃ i < n, region i k) m) else none
  | 0 => by
    rw [if_pos fun i hi => absurd hi (Nat.not_lt_zero i)]
    refine congrArg some (funext fun k => ?_)
    exact (if_neg fun h => absurd h.choose_spec.1 (Nat.not_lt_zero _)).symm
  | n + 1 => by
    rw [List.range_succ, List.foldlM_append, foldlM_range_changed hapart hstep n]
    by_cases hall : ∀ i < n, ok i
    · rw [if_pos hall, Option.bind_eq_bind, Option.bind_some, List.foldlM_cons, hstep]
      by_cases hok : ok n
      · rw [if_pos hok, if_pos (Nat.forall_lt_succ_right.2 ⟨hall, hok⟩)]
        refine congrArg some (funext fun k => ?_)
        simp only [changed, Nat.exists_lt_succ_right]
        by_cases hk : region n k
        · have hbefore : ¬∃ i < n, region i k := fun ⟨i, hi, hik⟩ => Nat.ne_of_lt hi (hapart i n k hik hk)
          simp [hk, hbefore]
        · simp [hk]
      · rw [if_neg hok, if_neg fun h => hok (h n n.lt_succ_self)]
        rfl
    · rw [if_neg hall, if_neg fun h => hall fun i hi => h i (Nat.lt_succ_of_lt hi)]
      rfl

end Changes

/-! ## Moves in place -/

section Moves

variable {κ α : Type*} {σ τ : κ → κ} {r : κ → Prop} {m m' m'' : κ → α}

/-- What is at a place of `r` afterwards was at `σ` of it before; the other places are left alone. -/
structure Moved (σ : κ → κ) (r : κ → Prop) (m m' : κ → α) : Prop where
  moved : ∀ k, r k → m' k = m (σ k)
  frame : ∀ k, ¬r k → m' k = m k

theorem Moved.trans (h : Moved σ r m m') (h' : Moved τ r m' m'') (hτ : ∀ k, r k → r (τ k)) :
    Moved (fun k => σ (τ k)) r m m'' where
  moved k hk := (h'.moved k hk).trans (h.moved (τ k) (hτ k hk))
  frame k hk := (h'.frame k hk).trans (h.frame k hk)

/-- Places that stay where they are can be counted in or not. -/
theorem Moved.mono {r' : κ → Prop} (h : Moved σ r m m') (hr : ∀ k, r k → r' k) (hσ : ∀ k, r' k → ¬r k → σ k = k) :
    Moved σ r' m m' where
  moved k hk := by
    by_cases hrk : r k
    · exact h.moved k hrk
    · rw [h.frame k hrk, hσ k hk hrk]
  frame k hk := h.frame k (mt (hr k) hk)

theorem Moved.congr {r' : κ → Prop} (h : Moved σ r m m') (hσ : ∀ k, r k → σ k = τ k) (hr : ∀ k, r k ↔ r' k) :
    Moved τ r' m m' where
  moved k hk := by rw [h.moved k ((hr k).2 hk), hσ k ((hr k).2 hk)]
  frame k hk := h.frame k (mt (hr k).1 hk)

/-- **A loop whose rounds move things within regions that are apart** moves them in all of the regions. -/
theorem foldlM_range_moved {step : (κ → α) → ℕ → Option (κ → α)} {region : ℕ → κ → Prop}
    (hapart : ∀ i j k, region i k → region j k → i = j) (hσ : ∀ i k, region i k → region i (σ k)) :
    ∀ {n : ℕ} {m : κ → α}, (∀ i < n, ∀ m, ∃ m', step m i = some m' ∧ Moved σ (region i) m m') →
      ∃ m', (List.range n).foldlM step m = some m' ∧ Moved σ (fun k => ∃ i < n, region i k) m m'
  | 0, m, _ => ⟨m, rfl, fun k hk => absurd hk (by simp), fun k _ => rfl⟩
  | n + 1, m, hstep => by
    obtain ⟨m₁, hm₁, h₁⟩ := @foldlM_range_moved step region hapart hσ n m fun i hi => hstep i (Nat.lt_succ_of_lt hi)
    obtain ⟨m₂, hm₂, h₂⟩ := hstep n n.lt_succ_self m₁
    refine ⟨m₂, ?_, fun k hk => ?_, fun k hk => ?_⟩
    · rw [List.range_succ, List.foldlM_append, hm₁, Option.bind_eq_bind, Option.bind_some, List.foldlM_cons, hm₂]
      rfl
    · by_cases hn : region n k
      · -- no round before has been there
        have hbefore : ¬∃ i < n, region i (σ k) := fun ⟨i, hi, hik⟩ =>
          Nat.ne_of_lt hi (hapart i n (σ k) hik (hσ n k hn))
        rw [h₂.moved k hn, h₁.frame (σ k) hbefore]
      · obtain ⟨i, hi, hik⟩ := hk
        have hlt : i < n := Nat.lt_of_le_of_ne (Nat.lt_succ_iff.1 hi) fun heq => hn (heq ▸ hik)
        rw [h₂.frame k hn, h₁.moved k ⟨i, hlt, hik⟩]
    · have hn : ¬region n k := fun hnk => hk ⟨n, n.lt_succ_self, hnk⟩
      rw [h₂.frame k hn, h₁.frame k fun ⟨i, hi, hik⟩ => hk ⟨i, Nat.lt_succ_of_lt hi, hik⟩]

end Moves

end Redux.Lib.Scatter
