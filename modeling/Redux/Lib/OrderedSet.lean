import Mathlib.Data.List.Pairwise
import Mathlib.Data.List.Sort
import Mathlib.Data.Set.Defs

/-!
# Lib.OrderedSet — sets kept in the order of a comparison

`std::set` and `std::map` as lists: two elements are the same to the set when neither comes before the
other.  `insert` keeps what is there, `erase` takes out the element that is the same.  What the
comparison cannot tell apart the set cannot hold side by side (`insert_eq_self`).
-/

namespace Redux.Lib.OrderedSet

section Model

variable {α : Type*} (lt : α → α → Bool)

/-- Neither comes before the other. -/
def same (x y : α) : Bool := !lt x y && !lt y x

/-- `insert( x )`. -/
def insert (x : α) (l : List α) : List α :=
  if l.any (same lt x) then l else l.orderedInsert (fun a b => lt a b = true) x

/-- `find( x )`. -/
def find (x : α) (l : List α) : Option α := l.find? (same lt x)

/-- `erase( x )`, of a key. -/
def erase (x : α) (l : List α) : List α := l.eraseP (same lt x)

/-- What a set asks of its comparison, on the elements of `S`: a strict weak ordering. -/
structure StrictWeak (S : Set α) : Prop where
  irrefl : ∀ x ∈ S, lt x x = false
  trans : ∀ x ∈ S, ∀ y ∈ S, ∀ z ∈ S, lt x y = true → lt y z = true → lt x z = true
  same_trans : ∀ x ∈ S, ∀ y ∈ S, ∀ z ∈ S, same lt x y = true → same lt y z = true → same lt x z = true

/-- No two elements are the same. -/
def Distinct (l : List α) : Prop := l.Pairwise fun a b => same lt a b = false

variable {lt} {x y : α} {l : List α}

/-- What a comparison says of other elements does not matter. -/
theorem StrictWeak.congr {lt' : α → α → Bool} {S : Set α} (h : StrictWeak lt S)
    (heq : ∀ a ∈ S, ∀ b ∈ S, lt' a b = lt a b) : StrictWeak lt' S where
  irrefl x hx := by
    rw [heq x hx x hx]
    exact h.irrefl x hx
  trans x hx y hy z hz := by
    rw [heq x hx y hy, heq y hy z hz, heq x hx z hz]
    exact h.trans x hx y hy z hz
  same_trans x hx y hy z hz := by
    simp only [same, heq x hx y hy, heq y hy x hx, heq y hy z hz, heq z hz y hy, heq x hx z hz, heq z hz x hx]
    exact h.same_trans x hx y hy z hz

theorem same_comm : same lt x y = same lt y x := Bool.and_comm _ _

/-- **An element is not inserted beside one that is the same.** -/
theorem insert_eq_self (hy : y ∈ l) (h : same lt x y = true) : insert lt x l = l :=
  if_pos (List.any_eq_true.mpr ⟨y, hy, h⟩)

theorem insert_perm (h : ∀ y ∈ l, same lt x y = false) : (insert lt x l).Perm (x :: l) := by
  rw [insert, if_neg]
  · exact List.perm_orderedInsert _ _ _
  · rw [List.any_eq_true]
    rintro ⟨y, hy, hs⟩
    rw [h y hy] at hs
    exact Bool.false_ne_true hs

/-- In a set, what is the same is equal. -/
theorem Distinct.eq_of_same (hl : Distinct lt l) (hx : x ∈ l) (hy : y ∈ l) (h : same lt x y = true) :
    x = y := by
  have hsymm : Std.Symm fun a b => same lt a b = false := ⟨fun _ _ hab => same_comm.trans hab⟩
  by_contra hne
  rw [List.Pairwise.forall hl hx hy hne] at h
  exact Bool.false_ne_true h

theorem Distinct.perm {l' : List α} (h : l.Perm l') (hl : Distinct lt l) : Distinct lt l' :=
  (h.pairwise_iff fun hab => same_comm.trans hab).mp hl

theorem Distinct.insert (hl : Distinct lt l) : Distinct lt (insert lt x l) := by
  by_cases h : ∃ y ∈ l, same lt x y = true
  · obtain ⟨y, hy, hs⟩ := h
    rwa [insert_eq_self hy hs]
  · have hx : ∀ y ∈ l, same lt x y = false := fun y hy =>
      Bool.eq_false_iff.mpr fun hs => h ⟨y, hy, hs⟩
    exact Distinct.perm (insert_perm hx).symm (List.pairwise_cons.mpr ⟨hx, hl⟩)

/-- **Elements in the order of a transitive comparison stay in order.** -/
theorem pairwise_insert (htrans : ∀ a b c, lt a b = true → lt b c = true → lt a c = true)
    (h : l.Pairwise fun a b => lt a b = true) : (insert lt x l).Pairwise fun a b => lt a b = true := by
  by_cases hany : l.any (same lt x) = true
  · rwa [insert, if_pos hany]
  rw [insert, if_neg hany]
  induction l with
  | nil => exact List.pairwise_singleton _ _
  | cons y l ih =>
    obtain ⟨hy, hl⟩ := List.pairwise_cons.1 h
    rw [List.any_cons, Bool.or_eq_true, not_or] at hany
    rw [List.orderedInsert_cons]
    split_ifs with hxy
    · refine List.pairwise_cons.2 ⟨fun z hz => ?_, h⟩
      rcases List.mem_cons.1 hz with rfl | hz
      · exact hxy
      · exact htrans x y z hxy (hy z hz)
    · have hyx : lt y x = true := by
        have hsame := hany.1
        rw [same, Bool.eq_false_iff.2 hxy, Bool.not_false, Bool.true_and, Bool.not_eq_true', Bool.not_eq_false] at hsame
        exact hsame
      refine List.pairwise_cons.2 ⟨fun z hz => ?_, ih hl hany.2⟩
      rcases (List.mem_orderedInsert _).1 hz with rfl | hz
      · exact hyx
      · exact hy z hz

theorem Distinct.erase (hl : Distinct lt l) : Distinct lt (erase lt x l) :=
  hl.sublist List.eraseP_sublist

theorem find_eq_none : find lt x l = none ↔ ∀ y ∈ l, same lt x y = false := by
  rw [find, List.find?_eq_none]
  exact forall₂_congr fun y _ => by rw [Bool.not_eq_true]

theorem find_mem (h : find lt x l = some y) : y ∈ l ∧ same lt x y = true :=
  ⟨List.mem_of_find?_eq_some h, List.find?_some h⟩

end Model

end Redux.Lib.OrderedSet
