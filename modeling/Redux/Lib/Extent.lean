import Mathlib.Data.Nat.Basic
import Mathlib.Data.List.Basic
import Mathlib.Data.Option.Basic

/-!
# Lib.Extent — how far a program writes that checks its output from time to time

A program that fills a buffer is here the list of what it does to it: it compares a position with a
limit and gives up behind it, or it stores bytes.  What it fills the buffer with is a list of parts,
each with the position that is checked before it, if one is, and the byte behind its last one.  If the
program follows the parts (`Lays`), then it stays below `room` exactly if the parts do, up to the first
one whose check fails (`Lays.below_iff`).
-/

namespace Redux.Lib

/-! ## Programs -/

/-- A check of a position, or stores: each the first byte and the number of bytes. -/
inductive Op where
  | check (i : ℕ)
  | stores (l : List (ℕ × ℕ))

/-- The stores that are made up to the first check that fails. -/
def written (limit : ℕ) : List Op → List (ℕ × ℕ)
  | [] => []
  | .check i :: ops => if limit < i then [] else written limit ops
  | .stores l :: ops => l ++ written limit ops

/-- No check fails. -/
def Completes (limit : ℕ) (ops : List Op) : Prop := ∀ i, Op.check i ∈ ops → i ≤ limit

/-- The stores end below `room`. -/
def Below (room : ℕ) (l : List (ℕ × ℕ)) : Prop := ∀ s ∈ l, s.1 + s.2 ≤ room

/-- No store reaches byte `k`. -/
def Untouched (k : ℕ) (l : List (ℕ × ℕ)) : Prop := ∀ s ∈ l, k < s.1 ∨ s.1 + s.2 ≤ k

/-! ## Parts -/

/-- A part of the output: the position checked before it, and the byte behind its last one. -/
structure Part where
  check : Option ℕ
  last : ℕ
  deriving DecidableEq

/-- The parts up to the first one whose check fails have room. -/
def Room (limit room : ℕ) : List Part → Prop
  | [] => True
  | p :: ps => (∃ i ∈ p.check, limit < i) ∨ (p.last ≤ room ∧ Room limit room ps)

/-- A part whose check fails. -/
def Stops (limit : ℕ) (ps : List Part) : Prop := ∃ p ∈ ps, ∃ i ∈ p.check, limit < i

/-- The program checks and stores the parts in their order. -/
inductive Lays (limit room : ℕ) : List Op → List Part → Prop
  | nil : Lays limit room [] []
  | stores {l last ops ps} (h : Below room l ↔ last ≤ room) (hs : Lays limit room ops ps) :
      Lays limit room (.stores l :: ops) (⟨none, last⟩ :: ps)
  | check {i l last ops ps} (h : i ≤ limit → (Below room l ↔ last ≤ room)) (hs : Lays limit room ops ps) :
      Lays limit room (.check i :: .stores l :: ops) (⟨some i, last⟩ :: ps)

section Extent

variable {limit room i : ℕ} {l l' : List (ℕ × ℕ)} {ops ops' : List Op} {p : Part} {ps qs : List Part}

theorem below_append : Below room (l ++ l') ↔ Below room l ∧ Below room l' := List.forall_mem_append

theorem below_cons {s : ℕ × ℕ} : Below room (s :: l) ↔ s.1 + s.2 ≤ room ∧ Below room l :=
  List.forall_mem_cons

theorem below_nil : Below room [] := fun _ h => nomatch h

theorem untouched_append {k : ℕ} : Untouched k (l ++ l') ↔ Untouched k l ∧ Untouched k l' := List.forall_mem_append

theorem untouched_cons {k : ℕ} {s : ℕ × ℕ} :
    Untouched k (s :: l) ↔ (k < s.1 ∨ s.1 + s.2 ≤ k) ∧ Untouched k l := List.forall_mem_cons

theorem untouched_nil {k : ℕ} : Untouched k [] ↔ True := iff_true_intro fun _ h => nomatch h

theorem completes_nil : Completes limit [] := fun _ h => nomatch h

theorem completes_append : Completes limit (ops ++ ops') ↔ Completes limit ops ∧ Completes limit ops' := by
  constructor
  · intro h
    exact ⟨fun i hi => h i (List.mem_append_left _ hi), fun i hi => h i (List.mem_append_right _ hi)⟩
  · rintro ⟨h, h'⟩ i hi
    rcases List.mem_append.1 hi with hi | hi
    · exact h i hi
    · exact h' i hi

theorem completes_check : Completes limit (.check i :: ops) ↔ i ≤ limit ∧ Completes limit ops := by
  constructor
  · intro h
    exact ⟨h i List.mem_cons_self, fun k hk => h k (List.mem_cons_of_mem _ hk)⟩
  · rintro ⟨hi, h⟩ k hk
    rcases List.mem_cons.1 hk with heq | hk
    · obtain rfl : k = i := Op.check.inj heq
      exact hi
    · exact h k hk

theorem completes_stores : Completes limit (.stores l :: ops) ↔ Completes limit ops := by
  constructor
  · intro h k hk
    exact h k (List.mem_cons_of_mem _ hk)
  · intro h k hk
    rcases List.mem_cons.1 hk with heq | hk
    · nomatch heq
    · exact h k hk

theorem Lays.append (h : Lays limit room ops ps) (h' : Lays limit room ops' qs) :
    Lays limit room (ops ++ ops') (ps ++ qs) := by
  induction h with
  | nil => exact h'
  | stores hl _ ih => exact .stores hl ih
  | check hl _ ih => exact .check hl ih

/-- **A program stays below exactly where its parts have room.** -/
theorem Lays.below_iff (h : Lays limit room ops ps) :
    Below room (written limit ops) ↔ Room limit room ps := by
  induction h with
  | nil => exact iff_of_true below_nil trivial
  | stores hl _ ih =>
    rw [written, below_append, hl, ih, Room]
    constructor
    · exact .inr
    · rintro (⟨i, hi, -⟩ | h)
      · nomatch hi
      · exact h
  | @check i l last ops ps hl _ ih =>
    rw [written, Room]
    by_cases hi : limit < i
    · rw [if_pos hi]
      exact iff_of_true below_nil (.inl ⟨i, rfl, hi⟩)
    · rw [if_neg hi, written, below_append, hl (Nat.le_of_not_lt hi), ih]
      constructor
      · exact .inr
      · rintro (⟨k, hk, hlt⟩ | h)
        · obtain rfl : i = k := Option.some.inj hk
          exact absurd hlt hi
        · exact h

/-- **A program completes exactly if no part stops it.** -/
theorem Lays.completes_iff (h : Lays limit room ops ps) : Completes limit ops ↔ ¬ Stops limit ps := by
  induction h with
  | nil => exact iff_of_true completes_nil fun ⟨_, hp, _⟩ => nomatch hp
  | stores hl _ ih =>
    rw [completes_stores, ih, not_iff_not]
    constructor
    · rintro ⟨p, hp, hi⟩
      exact ⟨p, List.mem_cons_of_mem _ hp, hi⟩
    · rintro ⟨p, hp, i, hi, hlt⟩
      rcases List.mem_cons.1 hp with rfl | hp
      · nomatch hi
      · exact ⟨p, hp, i, hi, hlt⟩
  | @check i l last ops ps hl _ ih =>
    rw [completes_check, completes_stores, ih]
    constructor
    · rintro ⟨hi, hstops⟩ ⟨p, hp, k, hk, hlt⟩
      rcases List.mem_cons.1 hp with rfl | hp
      · obtain rfl : i = k := Option.some.inj hk
        omega
      · exact hstops ⟨p, hp, k, hk, hlt⟩
    · intro h
      refine ⟨?_, fun ⟨p, hp, hi⟩ => h ⟨p, List.mem_cons_of_mem _ hp, hi⟩⟩
      by_contra hi
      exact h ⟨_, List.mem_cons_self, i, rfl, by omega⟩

theorem not_stops_cons : ¬ Stops limit (p :: ps) ↔ (∀ i ∈ p.check, i ≤ limit) ∧ ¬ Stops limit ps := by
  constructor
  · intro h
    refine ⟨fun i hi => ?_, fun ⟨q, hq, hi⟩ => h ⟨q, List.mem_cons_of_mem _ hq, hi⟩⟩
    by_contra hlt
    exact h ⟨p, List.mem_cons_self, i, hi, by omega⟩
  · rintro ⟨hp, hps⟩ ⟨q, hq, i, hi, hlt⟩
    rcases List.mem_cons.1 hq with rfl | hq
    · have hle := hp i hi
      omega
    · exact hps ⟨q, hq, i, hi, hlt⟩

/-- Parts that are not stopped have room exactly if all of them do. -/
theorem Room.all (h : Room limit room ps) (hstops : ¬ Stops limit ps) : ∀ p ∈ ps, p.last ≤ room := by
  induction ps with
  | nil => exact fun _ hp => nomatch hp
  | cons p ps ih =>
    obtain ⟨hp, hps⟩ := not_stops_cons.1 hstops
    rcases h with ⟨i, hi, hlt⟩ | ⟨hlast, h⟩
    · have hle := hp i hi
      omega
    · exact List.forall_mem_cons.2 ⟨hlast, ih h hps⟩

/-- What is behind parts that stop needs no room. -/
theorem Room.append (h : Room limit room ps) (h' : ¬ Stops limit ps → Room limit room qs) :
    Room limit room (ps ++ qs) := by
  induction ps with
  | nil => exact h' fun ⟨_, hp, _⟩ => nomatch hp
  | cons p ps ih =>
    rcases h with hstop | ⟨hlast, h⟩
    · exact .inl hstop
    · by_cases hp : ∃ i ∈ p.check, limit < i
      · exact .inl hp
      · refine .inr ⟨hlast, ih h fun hps => h' (not_stops_cons.2 ⟨fun i hi => ?_, hps⟩)⟩
        by_contra hlt
        exact hp ⟨i, hi, by omega⟩

end Extent

end Redux.Lib
