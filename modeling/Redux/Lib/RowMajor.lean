import Mathlib.Algebra.Order.Ring.Nat
import Mathlib.Data.List.Basic
import Mathlib.Data.List.GetD
import Mathlib.Tactic.Ring.RingNF

/-!
# Lib.RowMajor — the cells of a matrix in one block

The cell in row `y` and column `x` of a matrix with `w` columns is at `y * w + x`.  Cells and their places determine
each other, also with more dimensions (`place_inj`).  `listed` goes through a stack of matrices in the order of their
places.
-/

namespace Redux.Lib.RowMajor

variable {w h y x y' x' i : ℕ}

theorem index_div (hx : x < w) : (y * w + x) / w = y := by
  rw [Nat.add_comm, Nat.add_mul_div_right _ _ (Nat.zero_lt_of_lt hx), Nat.div_eq_of_lt hx, Nat.zero_add]

theorem index_mod (hx : x < w) : (y * w + x) % w = x := by
  rw [Nat.add_comm, Nat.add_mul_mod_self_right, Nat.mod_eq_of_lt hx]

theorem index_inj (hx : x < w) (hx' : x' < w) : y * w + x = y' * w + x' ↔ y = y' ∧ x = x' := by
  constructor
  · intro heq
    constructor
    · rw [← index_div (y := y) hx, heq, index_div hx']
    · rw [← index_mod (y := y) hx, heq, index_mod hx']
  · rintro ⟨rfl, rfl⟩
    rfl

theorem index_lt (hy : y < h) (hx : x < w) : y * w + x < h * w :=
  calc y * w + x < (y + 1) * w := by rw [Nat.succ_mul]; exact Nat.add_lt_add_left hx _
    _ ≤ h * w := Nat.mul_le_mul_right _ hy

/-- Every place is that of a cell. -/
theorem exists_index (hi : i < h * w) : ∃ y < h, ∃ x < w, i = y * w + x := by
  have hw : 0 < w := Nat.pos_of_ne_zero fun hzero => by simp [hzero] at hi
  exact ⟨i / w, Nat.div_lt_of_lt_mul (by rwa [Nat.mul_comm]), i % w, Nat.mod_lt i hw, (Nat.div_add_mod' i w).symm⟩

/-! ## Any number of dimensions -/

section Place

variable {p p' i i' : ℕ} {sizes is is' : List ℕ}

/-- The place of a cell among those of the dimensions that follow each other in `sizes`, from the place `p` among
those of the dimensions before. -/
def place (p : ℕ) : List ℕ → List ℕ → ℕ
  | [], _ => p
  | _ :: _, [] => p
  | n :: sizes, i :: is => place (p * n + i) sizes is

theorem place_lt (hp : p < h) (his : List.Forall₂ (· < ·) is sizes) : place p sizes is < h * sizes.prod := by
  induction his generalizing p h with
  | nil => rwa [place, List.prod_nil, Nat.mul_one]
  | cons hi _ ih =>
    rw [place, List.prod_cons, ← Nat.mul_assoc]
    exact ih (index_lt hp hi)

/-- **Cells and their places determine each other.** -/
theorem place_inj (his : List.Forall₂ (· < ·) is sizes) (his' : List.Forall₂ (· < ·) is' sizes) :
    place p sizes is = place p' sizes is' ↔ p = p' ∧ is = is' := by
  induction his generalizing p p' is' with
  | nil =>
    cases his'
    rw [place, place]
    exact (and_iff_left rfl).symm
  | cons hi his ih =>
    cases his' with
    | cons hi' his' => rw [place, place, ih his', index_inj hi hi', List.cons.injEq, and_assoc]

end Place

/-! ## Stacks of matrices -/

theorem range_mul (w : ℕ) : ∀ h : ℕ, List.range (h * w) = (List.range h).flatMap fun y => (List.range w).map (y * w + ·)
  | 0 => by rw [Nat.zero_mul]; rfl
  | h + 1 => by
    rw [Nat.succ_mul, List.range_add, range_mul w h, List.range_succ, List.flatMap_append, List.flatMap_singleton]

section Listed

variable {α β : Type*} {n : ℕ} {g : ℕ → ℕ → ℕ → α}

/-- What `g` says of the cells of `n` matrices. -/
def listed (n h w : ℕ) (g : ℕ → ℕ → ℕ → α) : List α :=
  (List.range n).flatMap fun i => (List.range h).flatMap fun y => (List.range w).map fun x => g i y x

theorem listed_congr {g' : ℕ → ℕ → ℕ → α} (hg : ∀ i < n, ∀ y < h, ∀ x < w, g i y x = g' i y x) :
    listed n h w g = listed n h w g' := by
  refine List.flatMap_congr fun i hi => List.flatMap_congr fun y hy => List.map_congr_left fun x hx => ?_
  exact hg i (List.mem_range.1 hi) y (List.mem_range.1 hy) x (List.mem_range.1 hx)

theorem map_listed (f : α → β) : (listed n h w g).map f = listed n h w fun i y x => f (g i y x) := by
  simp only [listed, List.map_flatMap, List.map_map, Function.comp_def]

theorem mem_listed {a : α} : a ∈ listed n h w g ↔ ∃ i < n, ∃ y < h, ∃ x < w, g i y x = a := by
  simp only [listed, List.mem_flatMap, List.mem_map, List.mem_range]

/-- The places themselves. -/
theorem map_range_eq_listed (f : ℕ → α) :
    (List.range (n * h * w)).map f = listed n h w fun i y x => f ((i * h + y) * w + x) := by
  rw [range_mul w (n * h), range_mul h n]
  simp only [listed, List.flatMap_assoc, List.flatMap_map, List.map_flatMap, List.map_map, Function.comp_def]

theorem length_listed : (listed n h w g).length = n * h * w := by
  have hlisted := map_listed (n := n) (h := h) (w := w) (g := g) fun _ => ()
  rw [← List.length_map fun _ => (), hlisted, ← map_range_eq_listed fun _ => (), List.length_map, List.length_range]

/-- **Two stacks agree if they do cell by cell**, and only then. -/
theorem listed_inj {g' : ℕ → ℕ → ℕ → α} :
    listed n h w g = listed n h w g' ↔ ∀ i < n, ∀ y < h, ∀ x < w, g i y x = g' i y x := by
  refine ⟨fun heq i hi y hy x hx => ?_, listed_congr⟩
  have hplace : ∀ g : ℕ → ℕ → ℕ → α, listed n h w g = (List.range (n * h * w)).map fun j =>
      g (j / w / h) (j / w % h) (j % w) := by
    intro g
    rw [map_range_eq_listed]
    refine listed_congr fun i hi y hy x hx => ?_
    rw [index_div hx, index_mod hx, index_div hy, index_mod hy]
  rw [hplace, hplace] at heq
  have hcell := List.map_inj_left.1 heq ((i * h + y) * w + x) (List.mem_range.2 (index_lt (index_lt hi hy) hx))
  rwa [index_div hx, index_mod hx, index_div hy, index_mod hy] at hcell

/-- A list gone through by its indices. -/
theorem map_range_getD (l : List α) (a : α) : ((List.range l.length).map fun i => l.getD i a) = l := by
  refine List.ext_getElem (by rw [List.length_map, List.length_range]) fun i hi hi' => ?_
  rw [List.getElem_map, List.getElem_range, List.getD_eq_getElem _ _ hi']

theorem flatMap_eq_range (l : List α) (a : α) (f : α → List β) :
    l.flatMap f = (List.range l.length).flatMap fun i => f (l.getD i a) := by
  conv_lhs => rw [← map_range_getD l a, List.flatMap_map]

end Listed

end Redux.Lib.RowMajor
