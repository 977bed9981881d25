import Mathlib.Data.List.Basic

/-!
# Lib.Folds — lists written in pieces and read back piece by piece

A list is cut into pieces, and each piece is written and read back on its own.  The list that is read
can be the list that was written only if every piece is: an error in one piece could be made good only
by an error in another.  `flatten_read_iff` says so for readers that never read more than what was
written, as far as it goes on with what is missing, less two elements.
-/

namespace Redux.Lib

section Pieces

variable {α : Type*} {pieces : List (List α × List α)}

/-- Pieces with what is read of them: no reading catches up with what is missing.  `missing` is the end
of what has been written so far that has not been read. -/
def NeverCatchesUp (pieces : List (List α × List α)) : Prop :=
  ∀ before written read after front missing, pieces = before ++ (written, read) :: after →
    (before.map Prod.fst).flatten = front ++ missing → (missing = [] ∨ 2 ≤ missing.length) →
    read <+: missing ++ written ++ (after.map Prod.fst).flatten →
    (missing = [] ∧ read = written) ∨ read.length + 2 ≤ missing.length + written.length

/-- Once something is missing, something stays missing. -/
theorem read_all (h : NeverCatchesUp pieces) :
    ∀ {after before : List (List α × List α)} {front missing : List α}, pieces = before ++ after →
      (before.map Prod.fst).flatten = front ++ missing → (missing = [] ∨ 2 ≤ missing.length) →
      (after.map Prod.snd).flatten = missing ++ (after.map Prod.fst).flatten →
      missing = [] ∧ ∀ p ∈ after, p.2 = p.1
  | [], _, _, missing, _, _, _, heq => by
    simp only [List.map_nil, List.flatten_nil, List.append_nil] at heq
    exact ⟨heq.symm, fun p hp => absurd hp List.not_mem_nil⟩
  | (written, read) :: after, before, front, missing, hpieces, hfront, hmissing, heq => by
    simp only [List.map_cons, List.flatten_cons] at heq
    have hpre : read <+: missing ++ written ++ (after.map Prod.fst).flatten :=
      ⟨(after.map Prod.snd).flatten, by rw [heq, List.append_assoc]⟩
    have hsplit : pieces = (before ++ [(written, read)]) ++ after := by rw [hpieces]; simp
    rcases h _ _ _ _ _ _ hpieces hfront hmissing hpre with ⟨rfl, rfl⟩ | hshort
    · rw [List.nil_append] at heq
      have htail := List.append_cancel_left heq
      obtain ⟨-, hall⟩ := @read_all h after (before ++ [(read, read)]) (front ++ read) [] hsplit
        (by rw [List.append_nil] at hfront; simp [hfront]) (.inl rfl) (by rw [htail, List.nil_append])
      exact ⟨rfl, List.forall_mem_cons.2 ⟨rfl, hall⟩⟩
    · -- what has been written and not read is longer than one element
      have hle : read.length ≤ (missing ++ written).length := by rw [List.length_append]; omega
      obtain ⟨missing', hmissing'⟩ := List.prefix_of_prefix_length_le hpre (List.prefix_append _ _) hle
      have hlen : read.length + missing'.length = missing.length + written.length := by
        rw [← List.length_append, hmissing', List.length_append]
      have htail : (after.map Prod.snd).flatten = missing' ++ (after.map Prod.fst).flatten := by
        rw [← List.append_assoc, ← hmissing', List.append_assoc] at heq
        exact List.append_cancel_left heq
      obtain ⟨hnil, -⟩ := @read_all h after (before ++ [(written, read)]) (front ++ read) missing' hsplit
        (by simp [hfront, hmissing']) (.inr (by omega)) htail
      rw [hnil, List.length_nil] at hlen
      omega

/-- **A list is read back exactly if each of its pieces is.** -/
theorem flatten_read_iff (h : NeverCatchesUp pieces) :
    (pieces.map Prod.snd).flatten = (pieces.map Prod.fst).flatten ↔ ∀ p ∈ pieces, p.2 = p.1 := by
  constructor
  · intro heq
    exact (@read_all α pieces h pieces [] [] [] rfl rfl (.inl rfl) heq).2
  · intro hall
    rw [List.map_congr_left hall]

end Pieces

end Redux.Lib
