import Mathlib.Algebra.Order.BigOperators.GroupWithZero.List
import Mathlib.Data.List.Iterate
import Redux.Lib.RowMajor

/-!
# Util.PointerLevels — arrays that are accessed through levels of pointers

`newArray` and `makePointers` put a level of `n1` pointers on top of the structure for `n1*n2` and the other sizes.  The
pointers of a level are positions in what is below it, another level or the elements.  So the elements are addressed
in row-major order (`rowMajor_pointers`), as long as the product of the sizes is a `size_t`: `newArray` allocates no
more than what is left of it otherwise (`addresses_iff`).
-/

namespace Redux.Util

open Redux.Lib

section Model

/-- The levels from the top, each with its pointers as positions in the next one or, at last, among the elements. -/
structure Pointers where
  levels : List (List ℕ)
  elements : ℕ
  deriving DecidableEq

/-- The recursion of `newArray` and `makePointers`, over a block of `block n1` elements in the end; `none` if the
first pointer is written to a level without pointers. -/
def pointers (block : ℕ → ℕ) : ℕ → List ℕ → Option Pointers
  | n1, [] => some ⟨[], block n1⟩
  | n1, n2 :: rest =>
    (pointers block (n1 * n2 % 2 ^ 64) rest).bind fun below =>
      -- `ret[i] = ret[i-1] + n2`, from `*ret` at the beginning of what is below
      if n1 = 0 then none else some ⟨List.iterate (· + n2) 0 n1 :: below.levels, below.elements⟩

/-- `newArray( n1, rest... )`. -/
def newArray (n1 : ℕ) (rest : List ℕ) : Option Pointers := pointers id n1 rest

/-- `makePointers( data, n1, rest... )`, for a block of `elements`. -/
def makePointers (elements n1 : ℕ) (rest : List ℕ) : Option Pointers := pointers (fun _ => elements) n1 rest

namespace Pointers

/-- From a position in the uppermost of some levels on; `none` if a pointer is read outside of its level. -/
def follow : List (List ℕ) → ℕ → List ℕ → Option ℕ
  | [], p, [] => some p
  | level :: levels, p, i :: is => level[p]?.bind fun q => follow levels (q + i) is
  | _, _, _ => none

/-- The position of `ret[i1]...[ik]` in the block. -/
def access (ptrs : Pointers) (i1 : ℕ) (is : List ℕ) : Option ℕ := follow ptrs.levels i1 is

/-- How much there is in what comes first. -/
def size (elements : ℕ) : List (List ℕ) → ℕ
  | [] => elements
  | level :: _ => level.length

/-- Every pointer is a position in what is below it. -/
def Inside (elements : ℕ) : List (List ℕ) → Prop
  | [] => True
  | level :: levels => (∀ q ∈ level, q < size elements levels) ∧ Inside elements levels

/-- What the structure is for. -/
structure RowMajor (n1 : ℕ) (rest : List ℕ) (ptrs : Pointers) : Prop where
  inside : Inside ptrs.elements ptrs.levels
  address : ∀ i1 < n1, ∀ is, List.Forall₂ (· < ·) is rest →
    ptrs.access i1 is = some (RowMajor.place i1 rest is) ∧ RowMajor.place i1 rest is < ptrs.elements
  apart : ∀ i1 < n1, ∀ is, List.Forall₂ (· < ·) is rest → ∀ j1 < n1, ∀ js, List.Forall₂ (· < ·) js rest →
    ptrs.access i1 is = ptrs.access j1 js → i1 = j1 ∧ is = js

end Pointers

/-- The structure is built, and addresses the elements in row-major order. -/
def Addresses (n1 : ℕ) (rest : List ℕ) (built : Option Pointers) : Prop :=
  ∃ ptrs, built = some ptrs ∧ ptrs.RowMajor n1 rest

end Model

/-! ## Addresses -/

section Addresses

open Pointers

variable {block : ℕ → ℕ} {n1 n2 elements : ℕ} {rest : List ℕ} {ptrs : Pointers}

/-- The pointers of a level. -/
theorem level_eq (n1 n2 : ℕ) : List.iterate (· + n2) 0 n1 = (List.range n1).map (· * n2) := by
  have hstep : ∀ i, (· + n2)^[i] 0 = i * n2 := by
    intro i
    induction i with
    | zero => rw [Nat.zero_mul, Function.iterate_zero, id]
    | succ i ih => rw [Function.iterate_succ_apply', ih, Nat.succ_mul]
  rw [← List.range_map_iterate]
  exact List.map_congr_left fun i _ => hstep i

/-- One more level, if there are pointers to it. -/
theorem pointers_cons_eq_some : pointers block n1 (n2 :: rest) = some ptrs ↔ 0 < n1 ∧
    ∃ below, pointers block (n1 * n2 % 2 ^ 64) rest = some below ∧
      ptrs = ⟨(List.range n1).map (· * n2) :: below.levels, below.elements⟩ := by
  rw [pointers, Option.bind_eq_some_iff, level_eq]
  constructor
  · rintro ⟨below, hbelow, h⟩
    split_ifs at h with hn
    exact ⟨Nat.pos_of_ne_zero hn, below, hbelow, (Option.some.inj h).symm⟩
  · rintro ⟨hn, below, hbelow, rfl⟩
    exact ⟨below, hbelow, if_neg hn.ne'⟩

/-- **What is built while the products do not wrap.** -/
theorem exists_pointers : ∀ {rest : List ℕ} {n1 : ℕ}, 0 < n1 → (∀ n ∈ rest, 0 < n) → n1 * rest.prod < 2 ^ 64 →
    n1 * rest.prod ≤ block (n1 * rest.prod) → ∃ ptrs, pointers block n1 rest = some ptrs ∧
      n1 ≤ size ptrs.elements ptrs.levels ∧ n1 * rest.prod ≤ ptrs.elements ∧ Inside ptrs.elements ptrs.levels ∧
        ∀ p < n1, ∀ is, List.Forall₂ (· < ·) is rest → follow ptrs.levels p is = some (RowMajor.place p rest is)
  | [], n1, hn, _, _, hblock => by
    rw [List.prod_nil, Nat.mul_one] at hblock ⊢
    refine ⟨⟨[], block n1⟩, rfl, hblock, hblock, trivial, fun p _ is his => ?_⟩
    cases his
    rfl
  | n2 :: rest, n1, hn, hpos, hprod, hblock => by
    obtain ⟨hn2, hrest⟩ := List.forall_mem_cons.1 hpos
    rw [List.prod_cons, ← Nat.mul_assoc] at hprod hblock ⊢
    obtain ⟨below, hbelow, hsize, helements, hinside, hfollow⟩ :=
      exists_pointers (Nat.mul_pos hn hn2) hrest hprod hblock
    have hmul : n1 * n2 < 2 ^ 64 := (Nat.le_mul_of_pos_right _ (List.prod_pos hrest)).trans_lt hprod
    refine ⟨_, pointers_cons_eq_some.2 ⟨hn, below, ?_, rfl⟩, ?_, helements, ⟨?_, hinside⟩, ?_⟩
    · rwa [Nat.mod_eq_of_lt hmul]
    · rw [size, List.length_map, List.length_range]
    · intro q hq
      obtain ⟨i, hi, rfl⟩ := List.mem_map.1 hq
      exact ((Nat.mul_lt_mul_right hn2).2 (List.mem_range.1 hi)).trans_le hsize
    · intro p hp is his
      cases his with
      | cons hi his =>
        rw [follow, List.getElem?_map, List.getElem?_range hp, Option.map_some, Option.bind_some, RowMajor.place]
        exact hfollow _ (RowMajor.index_lt hp hi) _ his

/-- **The structure addresses the elements in row-major order.** -/
theorem addresses_pointers (hn : 0 < n1) (hrest : ∀ n ∈ rest, 0 < n) (hprod : n1 * rest.prod < 2 ^ 64)
    (hblock : n1 * rest.prod ≤ block (n1 * rest.prod)) : Addresses n1 rest (pointers block n1 rest) := by
  obtain ⟨ptrs, hptrs, -, helements, hinside, hfollow⟩ := exists_pointers hn hrest hprod hblock
  refine ⟨ptrs, hptrs, hinside, fun i1 hi1 is his => ⟨hfollow i1 hi1 is his, ?_⟩, ?_⟩
  · exact (RowMajor.place_lt hi1 his).trans_le helements
  · intro i1 hi1 is his j1 hj1 js hjs heq
    rw [access, access, hfollow i1 hi1 is his, hfollow j1 hj1 js hjs, Option.some.injEq] at heq
    exact (RowMajor.place_inj his hjs).1 heq

/-- What `newArray` allocates for its first level, or for the elements. -/
theorem size_newArray : ∀ {rest : List ℕ}, newArray n1 rest = some ptrs → size ptrs.elements ptrs.levels = n1
  | [], h => by
    cases h
    rfl
  | n2 :: rest, h => by
    obtain ⟨-, below, -, rfl⟩ := pointers_cons_eq_some.1 h
    rw [size, List.length_map, List.length_range]

/-- **If a product wraps**, the last pointers of the level point behind what is below it. -/
theorem mul_lt_of_last_lt (hn : 0 < n1) (hn2 : n2 < 2 ^ 64) (h : (n1 - 1) * n2 < n1 * n2 % 2 ^ 64) :
    n1 * n2 < 2 ^ 64 := by
  have hlast : (n1 - 1) * n2 + n2 = n1 * n2 := by rw [← Nat.succ_mul, Nat.succ_eq_add_one, Nat.sub_add_cancel hn]
  omega

/-- Where every pointer of a new array is inside, the sizes have a product. -/
theorem prod_lt_of_inside : ∀ {rest : List ℕ} {n1 : ℕ} {ptrs : Pointers}, n1 < 2 ^ 64 →
    (∀ n ∈ rest, n < 2 ^ 64) → newArray n1 rest = some ptrs → Inside ptrs.elements ptrs.levels →
      n1 * rest.prod < 2 ^ 64
  | [], _, _, hn, _, _, _ => by rwa [List.prod_nil, Nat.mul_one]
  | n2 :: rest, n1, ptrs, hn, hlt, hptrs, hinside => by
    obtain ⟨hn2, hrest⟩ := List.forall_mem_cons.1 hlt
    obtain ⟨hpos, below, hbelow, rfl⟩ := pointers_cons_eq_some.1 hptrs
    obtain ⟨hlevel, hinside⟩ := hinside
    have hlast := hlevel ((n1 - 1) * n2) (List.mem_map_of_mem (List.mem_range.2 (by omega)))
    have hmul : n1 * n2 < 2 ^ 64 := by
      refine mul_lt_of_last_lt hpos hn2 ?_
      rwa [size_newArray hbelow] at hlast
    rw [List.prod_cons, ← Nat.mul_assoc]
    rw [Nat.mod_eq_of_lt hmul] at hbelow
    exact prod_lt_of_inside hmul hrest hbelow hinside

/-- **Arrays and blocks are addressed in row-major order** exactly if the number of elements is a `size_t`. -/
theorem addresses_iff (hpos : ∀ n ∈ n1 :: rest, 0 < n) (hlt : ∀ n ∈ n1 :: rest, n < 2 ^ 64) :
    (Addresses n1 rest (newArray n1 rest) ∧
      ∀ elements, (n1 :: rest).prod ≤ elements → Addresses n1 rest (makePointers elements n1 rest)) ↔
        (n1 :: rest).prod < 2 ^ 64 := by
  obtain ⟨hn, hrest⟩ := List.forall_mem_cons.1 hpos
  obtain ⟨hnlt, hrestlt⟩ := List.forall_mem_cons.1 hlt
  rw [List.prod_cons]
  constructor
  · rintro ⟨⟨ptrs, hptrs, hrow⟩, -⟩
    exact prod_lt_of_inside hnlt hrestlt hptrs hrow.inside
  · intro hprod
    exact ⟨addresses_pointers hn hrest hprod le_rfl, fun elements helements =>
      addresses_pointers hn hrest hprod helements⟩

theorem addresses_two_three : Addresses 2 [3] (newArray 2 [3]) :=
  ((addresses_iff (by decide) (by decide)).2 (by decide)).1

/-- Two rows of 2^63 elements: no element is allocated. -/
theorem newArray_two_not_addressed : ¬Addresses 2 [2 ^ 63] (newArray 2 [2 ^ 63]) := by
  rintro ⟨ptrs, hptrs, hrow⟩
  have hbuilt : newArray 2 [2 ^ 63] = some ⟨[[0, 2 ^ 63]], 0⟩ := rfl
  obtain rfl := Option.some.inj (hbuilt.symm.trans hptrs)
  exact absurd (hrow.inside.1 0 List.mem_cons_self) (Nat.not_lt_zero 0)

end Addresses

end Redux.Util
