import Mathlib.Data.List.Induction
import Mathlib.Data.List.Nodup
import Mathlib.Logic.Function.Basic

/-!
# Lib.Transfer — filling cells one after the other

A memory is a function of its cells.  `writeEach` puts values into cells; `copyEach` puts into each cell what
is in another one at that time, which may have been written before.  A copy is what it should be, whatever the
memory, exactly if no cell is written before it is read (`copyEach_iff`).
-/

namespace Redux.Lib

variable {α β : Type*} [DecidableEq α]

/-- The cells get the values beside them, in the order of the list. -/
def writeEach (pairs : List (α × β)) (m : α → β) : α → β :=
  pairs.foldl (fun m p => Function.update m p.1 p.2) m

/-- The first cells get what `f` makes of the contents of the ones beside them, in the order of the list. -/
def copyEach (f : β → β) (pairs : List (α × α)) (m : α → β) : α → β :=
  pairs.foldl (fun m p => Function.update m p.1 (f (m p.2))) m

/-- No first cell is one of the cells beside those that come after it. -/
def Ahead (pairs : List (α × α)) : Prop := pairs.Pairwise fun p q => p.1 ≠ q.2

instance (pairs : List (α × α)) : Decidable (Ahead pairs) := inferInstanceAs (Decidable (List.Pairwise _ _))

/-! ## Values -/

section Write

variable {pairs : List (α × β)} {cells : List α} {m : α → β} {c : α} {v : β}

theorem writeEach_concat : writeEach (pairs ++ [(c, v)]) m = Function.update (writeEach pairs m) c v := by
  rw [writeEach, List.foldl_append]
  rfl

/-- **What is not written stays.** -/
theorem writeEach_of_notMem (h : c ∉ pairs.map Prod.fst) : writeEach pairs m c = m c := by
  induction pairs using List.reverseRecOn with
  | nil => rfl
  | append_singleton pairs p ih =>
    rw [List.map_append, List.mem_append, not_or] at h
    have hne : c ≠ p.1 := fun heq => h.2 (List.mem_singleton.2 heq)
    rw [writeEach_concat, Function.update_of_ne hne, ih h.1]

theorem writeEach_of_mem (hnodup : (pairs.map Prod.fst).Nodup) {p : α × β} (hp : p ∈ pairs) :
    writeEach pairs m p.1 = p.2 := by
  induction pairs using List.reverseRecOn with
  | nil => exact absurd hp List.not_mem_nil
  | append_singleton pairs q ih =>
    rw [List.map_append, List.nodup_append] at hnodup
    rw [writeEach_concat]
    rcases List.mem_append.1 hp with hp | hp
    · have hne : p.1 ≠ q.1 := hnodup.2.2 _ (List.mem_map_of_mem hp) _ (List.mem_singleton_self _)
      rw [Function.update_of_ne hne, ih hnodup.1 hp]
    · rw [List.mem_singleton.1 hp, Function.update_self]

/-- **As many values as cells** are the contents of the cells afterwards. -/
theorem map_writeEach (hnodup : cells.Nodup) {values : List β} (hlen : values.length = cells.length) :
    cells.map (writeEach (cells.zip values) m) = values := by
  have hfst : (cells.zip values).map Prod.fst = cells := List.map_fst_zip (Nat.le_of_eq hlen.symm)
  have hsnd : (cells.zip values).map Prod.snd = values := List.map_snd_zip (Nat.le_of_eq hlen)
  have hnodup' : ((cells.zip values).map Prod.fst).Nodup := by rwa [hfst]
  have hwritten : (cells.zip values).map (writeEach (cells.zip values) m ∘ Prod.fst) =
    (cells.zip values).map Prod.snd :=
    List.map_congr_left fun p hp => writeEach_of_mem hnodup' hp
  rwa [← List.map_map, hfst, hsnd] at hwritten

/-- One value for all cells. -/
theorem writeEach_const : writeEach (cells.map (·, v)) m c = if c ∈ cells then v else m c := by
  induction cells using List.reverseRecOn with
  | nil => rfl
  | append_singleton cells d ih =>
    rw [List.map_append, List.map_singleton, writeEach_concat]
    by_cases hc : c = d
    · rw [hc, Function.update_self, if_pos (List.mem_append_right _ (List.mem_singleton_self d))]
    · rw [Function.update_of_ne hc, ih]
      exact if_congr (by simp [hc]) rfl rfl

/-- **Writes that are made under a condition**, with a value that depends on the cell only. -/
theorem foldl_write_if {γ : Type*} {P : γ → Prop} [DecidablePred P] {cell : γ → α} {value : α → β} {steps : List γ} :
    steps.foldl (fun m s => if P s then Function.update m (cell s) (value (cell s)) else m) m c =
      if ∃ s ∈ steps, P s ∧ cell s = c then value c else m c := by
  induction steps using List.reverseRecOn with
  | nil => simp
  | append_singleton steps s ih =>
    rw [List.foldl_append, List.foldl_cons, List.foldl_nil]
    by_cases hs : P s ∧ cell s = c
    · rw [if_pos hs.1, hs.2, Function.update_self, if_pos ⟨s, List.mem_append_right _ (List.mem_singleton_self s), hs⟩]
    · have hlast : (if P s then Function.update (steps.foldl
          (fun m s => if P s then Function.update m (cell s) (value (cell s)) else m) m) (cell s) (value (cell s))
          else steps.foldl (fun m s => if P s then Function.update m (cell s) (value (cell s)) else m) m) c =
          steps.foldl (fun m s => if P s then Function.update m (cell s) (value (cell s)) else m) m c := by
        split_ifs with hP
        · exact Function.update_of_ne (fun hc => hs ⟨hP, hc.symm⟩) _ _
        · rfl
      rw [hlast, ih]
      refine if_congr ⟨fun ⟨t, ht, h⟩ => ⟨t, List.mem_append_left _ ht, h⟩, ?_⟩ rfl rfl
      rintro ⟨t, ht, h⟩
      rcases List.mem_append.1 ht with ht | ht
      · exact ⟨t, ht, h⟩
      · exact absurd (List.mem_singleton.1 ht ▸ h) hs

end Write

/-! ## Copies -/

section Copy

variable {f : β → β} {pairs : List (α × α)} {m : α → β} {c d s : α}

theorem copyEach_concat : copyEach f (pairs ++ [(d, s)]) m =
    Function.update (copyEach f pairs m) d (f (copyEach f pairs m s)) := by
  rw [copyEach, List.foldl_append]
  rfl

theorem copyEach_of_notMem (h : c ∉ pairs.map Prod.fst) : copyEach f pairs m c = m c := by
  induction pairs using List.reverseRecOn with
  | nil => rfl
  | append_singleton pairs p ih =>
    rw [List.map_append, List.mem_append, not_or] at h
    have hne : c ≠ p.1 := fun heq => h.2 (List.mem_singleton.2 heq)
    rw [copyEach_concat, Function.update_of_ne hne, ih h.1]

omit [DecidableEq α] in
theorem ahead_concat {p : α × α} : Ahead (pairs ++ [p]) ↔ Ahead pairs ∧ p.2 ∉ pairs.map Prod.fst := by
  unfold Ahead
  rw [List.pairwise_append, and_iff_right (List.pairwise_singleton _ _), List.mem_map]
  refine and_congr_right fun _ => ?_
  constructor
  · rintro h ⟨q, hq, heq⟩
    exact h q hq p (List.mem_singleton_self p) heq
  · rintro h q hq p' hp' heq
    obtain rfl := List.mem_singleton.1 hp'
    exact h ⟨q, hq, heq⟩

omit [DecidableEq α] in
theorem ahead_self {cells : List α} (hnodup : cells.Nodup) : Ahead (cells.zip cells) := by
  have hself : cells.zip cells = cells.map fun c => (c, c) := by
    simpa using @List.zip_map' _ _ _ id id cells
  rw [Ahead, hself, List.pairwise_map]
  exact hnodup

omit [DecidableEq α] in
theorem ahead_of_disjoint {cells others : List α} (h : ∀ c ∈ cells, c ∉ others) : Ahead (cells.zip others) := by
  refine List.pairwise_of_forall_mem_list fun p hp q hq heq => ?_
  exact h p.1 (List.of_mem_zip hp).1 (heq ▸ (List.of_mem_zip hq).2)

/-- A copy that reads ahead of what it writes reads what was there before. -/
theorem copyEach_of_ahead (hnodup : (pairs.map Prod.fst).Nodup) (h : Ahead pairs) {p : α × α} (hp : p ∈ pairs) :
    copyEach f pairs m p.1 = f (m p.2) := by
  induction pairs using List.reverseRecOn with
  | nil => exact absurd hp List.not_mem_nil
  | append_singleton pairs q ih =>
    rw [List.map_append, List.nodup_append] at hnodup
    rw [ahead_concat] at h
    rw [copyEach_concat]
    rcases List.mem_append.1 hp with hp | hp
    · have hne : p.1 ≠ q.1 := hnodup.2.2 _ (List.mem_map_of_mem hp) _ (List.mem_singleton_self _)
      rw [Function.update_of_ne hne, ih hnodup.1 h.1 hp]
    · rw [List.mem_singleton.1 hp, Function.update_self, copyEach_of_notMem h.2]

/-- If `f` makes the same of everything, so does the copy. -/
theorem copyEach_of_const (h : ∀ x y, f x = f y) {p : α × α} (hp : p ∈ pairs) :
    copyEach f pairs m p.1 = f (m p.2) := by
  induction pairs using List.reverseRecOn with
  | nil => exact absurd hp List.not_mem_nil
  | append_singleton pairs q ih =>
    rw [copyEach_concat]
    by_cases hq : p.1 = q.1
    · rw [hq, Function.update_self]
      exact h _ _
    · have hp' : p ∈ pairs := by
        rcases List.mem_append.1 hp with hp | hp
        · exact hp
        · exact absurd (congrArg Prod.fst (List.mem_singleton.1 hp)) hq
      rw [Function.update_of_ne hq, ih hp']

/-- **A copy is right whatever the memory** exactly if it reads ahead of what it writes, or if nothing depends on
what it reads. -/
theorem copyEach_iff (hfst : (pairs.map Prod.fst).Nodup) (hsnd : (pairs.map Prod.snd).Nodup) :
    (∀ m : α → β, ∀ p ∈ pairs, copyEach f pairs m p.1 = f (m p.2)) ↔ (∀ x y, f x = f y) ∨ Ahead pairs := by
  refine ⟨fun h => or_iff_not_imp_left.2 fun hne => ?_, ?_⟩
  · obtain ⟨x, hne⟩ := not_forall.1 hne
    obtain ⟨y, hxy⟩ := not_forall.1 hne
    induction pairs using List.reverseRecOn with
    | nil => exact List.Pairwise.nil
    | append_singleton pairs q ih =>
      rw [List.map_append, List.nodup_append] at hfst hsnd
      have hinit : ∀ m : α → β, ∀ p ∈ pairs, copyEach f pairs m p.1 = f (m p.2) := by
        intro m p hp
        have hne : p.1 ≠ q.1 := hfst.2.2 _ (List.mem_map_of_mem hp) _ (List.mem_singleton_self _)
        have hall := h m p (List.mem_append_left _ hp)
        rwa [copyEach_concat, Function.update_of_ne hne] at hall
      refine ahead_concat.2 ⟨ih hfst.1 hsnd.1 hinit, fun hmem => ?_⟩
      -- the last cell that is read is one that has been written, with what was in yet another cell
      obtain ⟨p, hp, hpq⟩ := List.mem_map.1 hmem
      have hne : p.2 ≠ q.2 := hsnd.2.2 _ (List.mem_map_of_mem hp) _ (List.mem_singleton_self _)
      have hlast : ∀ m : α → β, f (f (m p.2)) = f (m q.2) := by
        intro m
        have hall := h m q (List.mem_append_right _ (List.mem_singleton_self q))
        rwa [copyEach_concat, Function.update_self, ← hpq, hinit m p hp, hpq] at hall
      have hvalue : ∀ v, f (f x) = f v := by
        intro v
        have hall := hlast fun c => if c = q.2 then v else x
        rwa [if_neg hne, if_pos rfl] at hall
      exact hxy ((hvalue x).symm.trans (hvalue y))
  · rintro (hconst | hahead) m p hp
    · exact copyEach_of_const hconst hp
    · exact copyEach_of_ahead hfst hahead hp

end Copy

end Redux.Lib
