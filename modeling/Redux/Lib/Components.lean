import Mathlib.Data.List.Basic
import Mathlib.Logic.Relation

/-!
# Lib.Components — rows that hang together by the keys they share

Rows touch when they have a key in common.  A component of a list of rows is closed under touching, and
lies in every closed set that it meets (`Component`), so that its rows are linked by chains inside it
(`Component.chain`).  It is found by growing: rows that touch what there is are taken from the rest one
after another, until there are none (`Growing.component`).  A component of what is left is one of the
whole (`Component.of_rest`).
-/

namespace Redux.Lib.Components

section Model

variable {ρ κ : Type*} (keys : ρ → List κ)

/-- Two rows have a key in common. -/
def Touches (r s : ρ) : Prop := ∃ k ∈ keys r, k ∈ keys s

/-- What touches a row of the set is in the set. -/
def Closed (rows : List ρ) (S : ρ → Prop) : Prop := ∀ r ∈ rows, S r → ∀ s ∈ rows, Touches keys r s → S s

/-- The set lies in every closed set that it meets. -/
def Least (rows g : List ρ) : Prop :=
  ∀ S : ρ → Prop, Closed keys rows S → (∃ r ∈ g, S r) → ∀ r ∈ g, S r

/-- Rows that hang together, and are all that do. -/
structure Component (rows g : List ρ) : Prop where
  ne : g ≠ []
  subset : g ⊆ rows
  closed : Closed keys rows (· ∈ g)
  least : Least keys rows g

/-- Rows that hang together, and the rows that others are taken from. -/
structure Growing (rows g rest : List ρ) : Prop where
  ne : g ≠ []
  mem : ∀ r, r ∈ rows ↔ r ∈ g ∨ r ∈ rest
  least : Least keys rows g

end Model

section Grow

variable {ρ κ : Type*} {keys : ρ → List κ} {rows g g' rest rest' : List ρ} {r s : ρ}

theorem Touches.symm (h : Touches keys r s) : Touches keys s r := by
  obtain ⟨k, hr, hs⟩ := h
  exact ⟨k, hs, hr⟩

/-- A row that touches the others is taken from the rest. -/
theorem Growing.absorb (h : Growing keys rows g rest) (hg : ∀ s, s ∈ g' ↔ s ∈ g ∨ s = r)
    (hrest : ∀ s, s ∈ rest ↔ s = r ∨ s ∈ rest') (htouch : ∃ s ∈ g, Touches keys s r) :
    Growing keys rows g' rest' where
  ne := by
    obtain ⟨s, hs, -⟩ := htouch
    exact List.ne_nil_of_mem ((hg s).2 (.inl hs))
  mem := by
    intro s
    rw [h.mem, hg, hrest, or_assoc]
  least := by
    intro S hS hmeets
    have hr : r ∈ rows := (h.mem r).2 (.inr ((hrest r).2 (.inl rfl)))
    obtain ⟨s, hs, hsr⟩ := htouch
    have hsrows : s ∈ rows := (h.mem s).2 (.inl hs)
    -- a closed set that holds the new row holds the one that it touches
    have hold : ∃ q ∈ g, S q := by
      obtain ⟨q, hq, hSq⟩ := hmeets
      rcases (hg q).1 hq with hq | rfl
      · exact ⟨q, hq, hSq⟩
      · exact ⟨s, hs, hS q hr hSq s hsrows hsr.symm⟩
    have hall := h.least S hS hold
    intro t ht
    rcases (hg t).1 ht with ht | rfl
    · exact hall t ht
    · exact hS s hsrows (hall s hs) t hr hsr

/-- **Rows that nothing of the rest touches are a component.** -/
theorem Growing.component (h : Growing keys rows g rest)
    (hdone : ∀ s ∈ rest, ∀ r ∈ g, ¬ Touches keys r s) : Component keys rows g where
  ne := h.ne
  subset := fun r hr => (h.mem r).2 (.inl hr)
  closed := by
    intro r _ hr s hs htouch
    rcases (h.mem s).1 hs with hs | hs
    · exact hs
    · exact absurd htouch (hdone s hs r hr)
  least := h.least

/-- The same rows in another list. -/
theorem Component.congr (h : Component keys rows g) (hg : ∀ r, r ∈ g' ↔ r ∈ g) : Component keys rows g' where
  ne := by
    obtain ⟨r, hr⟩ := List.exists_mem_of_ne_nil _ h.ne
    exact List.ne_nil_of_mem ((hg r).2 hr)
  subset := fun r hr => h.subset ((hg r).1 hr)
  closed := fun r hrows hr s hs htouch => (hg s).2 (h.closed r hrows ((hg r).1 hr) s hs htouch)
  least := by
    rintro S hS ⟨r, hr, hSr⟩ s hs
    exact h.least S hS ⟨r, (hg r).1 hr, hSr⟩ s ((hg s).1 hs)

/-- **What hangs together in the rest hangs together in the whole.** -/
theorem Component.of_rest (h : Component keys rest g) (hmem : ∀ r, r ∈ rows ↔ r ∈ g' ∨ r ∈ rest)
    (hdone : ∀ s ∈ rest, ∀ r ∈ g', ¬ Touches keys r s) : Component keys rows g where
  ne := h.ne
  subset := fun r hr => (hmem r).2 (.inr (h.subset hr))
  closed := by
    intro r _ hr s hs htouch
    rcases (hmem s).1 hs with hs | hs
    · exact absurd htouch.symm (hdone r (h.subset hr) s hs)
    · exact h.closed r (h.subset hr) hr s hs htouch
  least := by
    intro S hS
    have hsub : ∀ r ∈ rest, r ∈ rows := fun r hr => (hmem r).2 (.inr hr)
    exact h.least S fun r hr hSr s hs htouch => hS r (hsub r hr) hSr s (hsub s hs) htouch

/-- **The rows of a component are linked by chains inside it.** -/
theorem Component.chain (h : Component keys rows g) (hr : r ∈ g) :
    ∀ s ∈ g, Relation.ReflTransGen (fun a b => b ∈ g ∧ Touches keys a b) r s := by
  refine h.least _ ?_ ⟨r, hr, .refl⟩
  intro a harows ha b hb htouch
  have hag : a ∈ g := by
    rcases ha.cases_tail with rfl | ⟨c, -, hag, -⟩
    · exact hr
    · exact hag
  exact ha.tail ⟨h.closed a harows hag b hb htouch, htouch⟩

end Grow

end Redux.Lib.Components
