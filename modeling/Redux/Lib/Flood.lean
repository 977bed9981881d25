import Mathlib.Data.Finset.Card
import Mathlib.Data.Finset.Filter
import Mathlib.Logic.Relation
import Mathlib.Logic.Function.Basic

/-!
# Lib.Flood — marking what can be reached

A search marks an element that is not marked yet and that it may enter, and goes on from it to its neighbours,
one after the other, each with the marks that the one before has left.  From one element to the next, what is
marked anew is reached, and is closed up to what was marked before (`Floods`).  With no marks at first, the
search marks exactly what can be reached (`flood_empty`).  As each round marks an element, there are no more
rounds than elements to enter.
-/

namespace Redux.Lib.Flood

variable {α : Type*} {enter : α → Bool} {next : α → List α} {marks marks' marks'' : α → Bool} {a b : α}
  {all : Finset α}

/-- The search from `a`, for at most `fuel` rounds inside each other. -/
def flood [DecidableEq α] (enter : α → Bool) (next : α → List α) : ℕ → α → (α → Bool) → Option (α → Bool)
  | 0, _, _ => none
  | fuel + 1, a, marks =>
    if marks a = false ∧ enter a = true then
      (next a).foldlM (fun marks b => flood enter next fuel b marks) (Function.update marks a true)
    else some marks

/-- A step to a neighbour that may be entered. -/
def Step (enter : α → Bool) (next : α → List α) (a b : α) : Prop := b ∈ next a ∧ enter b = true

/-- What can be reached from `a`. -/
def Reaches (enter : α → Bool) (next : α → List α) : α → α → Prop := Relation.ReflTransGen (Step enter next)

/-- Marks are added, to what can be reached from an element of `l` that may be entered; the neighbours of what is
marked anew are marked, and so are the elements of `l`. -/
structure Floods (enter : α → Bool) (next : α → List α) (l : List α) (marks marks' : α → Bool) : Prop where
  kept : ∀ b, marks b = true → marks' b = true
  reached : ∀ b, marks' b = true → marks b = true ∨ ∃ a ∈ l, enter a = true ∧ Reaches enter next a b
  closed : ∀ b, marks' b = true → marks b = true ∨ ∀ c ∈ next b, enter c = true → marks' c = true
  started : ∀ a ∈ l, enter a = true → marks' a = true

/-- What may still be marked. -/
def rest (enter : α → Bool) (all : Finset α) (marks : α → Bool) : Finset α :=
  all.filter fun b => enter b = true ∧ marks b = false

theorem rest_card_le (h : ∀ b, marks b = true → marks' b = true) :
    (rest enter all marks').card ≤ (rest enter all marks).card := by
  apply Finset.card_le_card
  intro b hb
  obtain ⟨hmem, henter, hb⟩ := Finset.mem_filter.1 hb
  refine Finset.mem_filter.2 ⟨hmem, henter, Bool.eq_false_iff.2 fun hmarks => ?_⟩
  rw [h b hmarks] at hb
  cases hb

/-- A mark on something that may be entered leaves one less. -/
theorem rest_card_update [DecidableEq α] (ha : a ∈ all) (henter : enter a = true) (hmarks : marks a = false) :
    (rest enter all (Function.update marks a true)).card < (rest enter all marks).card := by
  apply Finset.card_lt_card
  rw [Finset.ssubset_iff_of_subset]
  · refine ⟨a, Finset.mem_filter.2 ⟨ha, henter, hmarks⟩, fun hmem => ?_⟩
    simp [rest] at hmem
  · intro b hb
    obtain ⟨hmem, henter', hb⟩ := Finset.mem_filter.1 hb
    refine Finset.mem_filter.2 ⟨hmem, henter', ?_⟩
    by_cases hba : b = a
    · rw [hba]
      exact hmarks
    · rwa [Function.update_of_ne hba] at hb

theorem Floods.nil (marks : α → Bool) : Floods enter next [] marks marks where
  kept _ h := h
  reached _ h := .inl h
  closed _ h := .inl h
  started _ ha := absurd ha List.not_mem_nil

/-- One element, and then the others. -/
theorem Floods.cons {l : List α} (h : Floods enter next [a] marks marks') (h' : Floods enter next l marks' marks'') :
    Floods enter next (a :: l) marks marks'' where
  kept b hb := h'.kept b (h.kept b hb)
  reached b hb := by
    rcases h'.reached b hb with hb | ⟨c, hc, hreach⟩
    · rcases h.reached b hb with hb | ⟨c, hc, hreach⟩
      · exact .inl hb
      · exact .inr ⟨c, List.mem_cons.2 (.inl (List.mem_singleton.1 hc)), hreach⟩
    · exact .inr ⟨c, List.mem_cons_of_mem a hc, hreach⟩
  closed b hb := by
    rcases h'.closed b hb with hb | hb
    · rcases h.closed b hb with hb | hb
      · exact .inl hb
      · exact .inr fun c hc henter => h'.kept c (hb c hc henter)
    · exact .inr hb
  started c hc henter := by
    rcases List.mem_cons.1 hc with rfl | hc
    · exact h'.kept c (h.started c (List.mem_singleton_self c) henter)
    · exact h'.started c hc henter

/-- An element that is marked, and then its neighbours. -/
theorem Floods.go [DecidableEq α] (henter : enter a = true)
    (h : Floods enter next (next a) (Function.update marks a true) marks') : Floods enter next [a] marks marks' := by
  have hold : ∀ b, Function.update marks a true b = true → marks b = true ∨ b = a := by
    intro b hb
    by_cases hba : b = a
    · exact .inr hba
    · rw [Function.update_of_ne hba] at hb
      exact .inl hb
  have ha : marks' a = true := h.kept a (Function.update_self a true marks)
  refine ⟨fun b hb => h.kept b ?_, fun b hb => ?_, fun b hb => ?_, fun c hc _ => ?_⟩
  · by_cases hba : b = a
    · rw [hba]
      exact Function.update_self a true marks
    · rwa [Function.update_of_ne hba]
  · rcases h.reached b hb with hb | ⟨c, hc, hc', hreach⟩
    · rcases hold b hb with hb | rfl
      · exact .inl hb
      · exact .inr ⟨b, List.mem_singleton_self b, henter, .refl⟩
    · exact .inr ⟨a, List.mem_singleton_self a, henter, .head ⟨hc, hc'⟩ hreach⟩
  · rcases h.closed b hb with hb | hb
    · rcases hold b hb with hb | rfl
      · exact .inl hb
      · exact .inr h.started
    · exact .inr hb
  · rwa [List.mem_singleton.1 hc]

/-- The neighbours one after the other, if the search from each of them is as it should be. -/
theorem floods_all {search : α → (α → Bool) → Option (α → Bool)} {n : ℕ}
    (hsearch : ∀ b marks, (rest enter all marks).card < n → ∃ marks', search b marks = some marks' ∧
      Floods enter next [b] marks marks') :
    ∀ (l : List α) (marks : α → Bool), (rest enter all marks).card < n →
      ∃ marks', l.foldlM (fun marks b => search b marks) marks = some marks' ∧ Floods enter next l marks marks'
  | [], marks, _ => ⟨marks, rfl, .nil marks⟩
  | b :: l, marks, hn => by
    obtain ⟨marks', hmarks', hfloods⟩ := hsearch b marks hn
    obtain ⟨marks'', hmarks'', hfloods'⟩ := floods_all hsearch l marks' ((rest_card_le hfloods.kept).trans_lt hn)
    refine ⟨marks'', ?_, hfloods.cons hfloods'⟩
    rw [List.foldlM_cons, hmarks']
    exact hmarks''

/-- **A search with more rounds than there are elements to enter** ends, and floods from its element. -/
theorem floods_flood [DecidableEq α] (hall : ∀ b, enter b = true → b ∈ all) : ∀ {fuel : ℕ} (a : α) (marks : α → Bool),
    (rest enter all marks).card < fuel → ∃ marks', flood enter next fuel a marks = some marks' ∧
      Floods enter next [a] marks marks'
  | 0, _, _, h => absurd h (Nat.not_lt_zero _)
  | fuel + 1, a, marks, h => by
    rw [flood]
    by_cases hnew : marks a = false ∧ enter a = true
    · obtain ⟨hmarks, henter⟩ := hnew
      have hless := rest_card_update (hall a henter) henter hmarks
      obtain ⟨marks', hmarks', hfloods⟩ := floods_all (fun b marks hb => floods_flood hall b marks hb) (next a)
        (Function.update marks a true) (by omega : _ < fuel)
      rw [if_pos ⟨hmarks, henter⟩]
      exact ⟨marks', hmarks', hfloods.go henter⟩
    · rw [if_neg hnew]
      refine ⟨marks, rfl, fun b hb => hb, fun b hb => .inl hb, fun b hb => .inl hb, fun b hb henter => ?_⟩
      obtain rfl := List.mem_singleton.1 hb
      exact Bool.not_eq_false _ ▸ fun hmarks => hnew ⟨hmarks, henter⟩

/-- **With no marks at first, exactly what can be reached is marked.** -/
theorem flood_empty [DecidableEq α] (next : α → List α) (hall : ∀ b, enter b = true → b ∈ all) (ha : enter a = true)
    {fuel : ℕ} (hfuel : all.card < fuel) : ∃ marks, flood enter next fuel a (fun _ => false) = some marks ∧
      ∀ b, marks b = true ↔ Reaches enter next a b := by
  have hrest : (rest enter all fun _ => false).card ≤ all.card := Finset.card_filter_le _ _
  obtain ⟨marks, hmarks, hfloods⟩ :=
    @floods_flood α enter next all _ hall fuel a (fun _ => false) (hrest.trans_lt hfuel)
  refine ⟨marks, hmarks, fun b => ⟨fun hb => ?_, fun hb => ?_⟩⟩
  · obtain ⟨c, hc, -, hreach⟩ := (hfloods.reached b hb).resolve_left Bool.false_ne_true
    rwa [List.mem_singleton.1 hc] at hreach
  · induction hb with
    | refl => exact hfloods.started a (List.mem_singleton_self a) ha
    | tail _ hstep ih => exact (hfloods.closed _ ih).resolve_left Bool.false_ne_true _ hstep.1 hstep.2

end Redux.Lib.Flood
