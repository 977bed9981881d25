import Mathlib.Algebra.Order.BigOperators.Group.List
import Mathlib.Algebra.Order.Ring.Nat
import Mathlib.Data.Finset.Card
import Mathlib.Order.Interval.Finset.Nat

/-!
# Lib.Layout — blocks one after the other

Blocks are placed in a row by a pointer that takes a step behind each of them.  They are apart and fill as
much as the steps add up to, exactly if each step is as long as its block, where none is longer
(`fill_place_iff`).
-/

namespace Redux.Lib.Layout

/-! ## Blocks -/

structure Block where
  start : ℕ
  size : ℕ
  deriving DecidableEq

namespace Block

def Holds (b : Block) (k : ℕ) : Prop := b.start ≤ k ∧ k < b.start + b.size

def Apart (a b : Block) : Prop := ∀ k, ¬(a.Holds k ∧ b.Holds k)

def cells (b : Block) : Finset ℕ := Finset.Ico b.start (b.start + b.size)

end Block

/-- The blocks are apart, and hold all of `size` cells from `start` on, and no others. -/
structure Fill (bs : List Block) (start size : ℕ) : Prop where
  apart : bs.Pairwise Block.Apart
  holds : ∀ k, (∃ b ∈ bs, b.Holds k) ↔ start ≤ k ∧ k < start + size

/-- Blocks in a row: each with the step that is taken behind it, and its size. -/
def place : ℕ → List (ℕ × ℕ) → List Block
  | _, [] => []
  | start, p :: ps => ⟨start, p.2⟩ :: place (start + p.1) ps

/-! ## Blocks in a row -/

section Row

variable {bs : List Block} {start size : ℕ} {ps : List (ℕ × ℕ)}

/-- The cells of all blocks. -/
def allCells : List Block → Finset ℕ
  | [] => ∅
  | b :: bs => b.cells ∪ allCells bs

theorem mem_cells {b : Block} {k : ℕ} : k ∈ b.cells ↔ b.Holds k := Finset.mem_Ico

theorem mem_allCells {k : ℕ} : ∀ {bs : List Block}, k ∈ allCells bs ↔ ∃ b ∈ bs, b.Holds k
  | [] => by simp [allCells]
  | b :: bs => by
    rw [allCells, Finset.mem_union, mem_cells, mem_allCells, List.exists_mem_cons_iff]

theorem card_allCells : ∀ {bs : List Block}, bs.Pairwise Block.Apart →
    (allCells bs).card = (bs.map Block.size).sum
  | [], _ => rfl
  | b :: bs, h => by
    obtain ⟨hb, hbs⟩ := List.pairwise_cons.1 h
    have hdisjoint : Disjoint b.cells (allCells bs) := by
      refine Finset.disjoint_left.2 fun k hk hk' => ?_
      obtain ⟨b', hb', hholds⟩ := mem_allCells.1 hk'
      exact hb b' hb' k ⟨mem_cells.1 hk, hholds⟩
    rw [allCells, Finset.card_union_of_disjoint hdisjoint, card_allCells hbs, Block.cells, Nat.card_Ico,
      Nat.add_sub_cancel_left, List.map_cons, List.sum_cons]

/-- **Blocks that fill a room are as large as the room.** -/
theorem Fill.sum_size (h : Fill bs start size) : (bs.map Block.size).sum = size := by
  have hcells : allCells bs = Finset.Ico start (start + size) := by
    ext k
    rw [mem_allCells, h.holds, Finset.mem_Ico]
  rw [← card_allCells h.apart, hcells, Nat.card_Ico, Nat.add_sub_cancel_left]

theorem map_size_place : ∀ {start : ℕ} {ps : List (ℕ × ℕ)}, (place start ps).map Block.size = ps.map Prod.snd
  | _, [] => rfl
  | start, p :: ps => by rw [place, List.map_cons, map_size_place, List.map_cons]

/-- Blocks behind which the pointer takes a step of their length. -/
theorem fill_place : ∀ {start : ℕ} {ps : List (ℕ × ℕ)}, (∀ p ∈ ps, p.1 = p.2) →
    Fill (place start ps) start (ps.map Prod.fst).sum
  | start, [], _ => ⟨.nil, fun k => by simp [place]⟩
  | start, p :: ps, h => by
    obtain ⟨hp, hps⟩ := List.forall_mem_cons.1 h
    obtain ⟨hapart, hholds⟩ := @fill_place (start + p.1) ps hps
    have hall : ∀ k, (∃ b ∈ place start (p :: ps), b.Holds k) ↔
        start ≤ k ∧ k < start + ((p :: ps).map Prod.fst).sum := by
      intro k
      rw [place, List.exists_mem_cons_iff, hholds, List.map_cons, List.sum_cons, Block.Holds]
      dsimp only
      omega
    refine ⟨List.pairwise_cons.2 ⟨fun b hb k hk => ?_, hapart⟩, hall⟩
    have hbehind := (hholds k).1 ⟨b, hb, hk.2⟩
    have hfirst := hk.1.2
    dsimp only at hfirst
    omega

/-- **Blocks fill as much as the steps add up to exactly if each step is as long as its block.** -/
theorem fill_place_iff (h : ∀ p ∈ ps, p.1 ≤ p.2) :
    Fill (place start ps) start (ps.map Prod.fst).sum ↔ ∀ p ∈ ps, p.1 = p.2 := by
  refine ⟨fun hfill => ?_, fill_place⟩
  have hsum := hfill.sum_size
  rw [map_size_place] at hsum
  clear hfill
  induction ps with
  | nil => exact fun p hp => absurd hp List.not_mem_nil
  | cons p ps ih =>
    obtain ⟨hp, hps⟩ := List.forall_mem_cons.1 h
    have hle : (ps.map Prod.fst).sum ≤ (ps.map Prod.snd).sum := List.sum_le_sum hps
    rw [List.map_cons, List.map_cons, List.sum_cons, List.sum_cons] at hsum
    exact List.forall_mem_cons.2 ⟨by omega, ih hps (by omega)⟩

/-- Steps as long as their blocks: each block begins where those before it end. -/
theorem place_same : ∀ (ks : List ℕ) (start : ℕ), place start (ks.map fun k => (k, k)) =
    (List.range ks.length).map fun i => ⟨start + (ks.take i).sum, ks.getD i 0⟩
  | [], _ => rfl
  | k :: ks, start => by
    rw [List.map_cons, place, place_same ks, List.length_cons, List.range_succ_eq_map, List.map_cons, List.map_map]
    refine congrArg₂ List.cons rfl (List.map_congr_left fun i _ => ?_)
    rw [Function.comp_apply, List.take_succ_cons, List.sum_cons, Nat.add_assoc]
    rfl

theorem take_sum_le : ∀ {ks : List ℕ} {i k : ℕ}, ks[i]? = some k → (ks.take i).sum + k ≤ ks.sum
  | k :: ks, 0, _, h => by
    obtain rfl := Option.some.inj h
    rw [List.take_zero, List.sum_nil, List.sum_cons]
    omega
  | k :: ks, i + 1, _, h => by
    have ih := @take_sum_le ks i _ h
    rw [List.take_succ_cons, List.sum_cons, List.sum_cons]
    omega

end Row

/-! ## What comes before an item -/

section Before

variable {κ : Type*} [DecidableEq κ]

/-- The items of a list before the first `q`. -/
def before (q : κ) (qs : List κ) : List κ := qs.takeWhile fun q' => decide (q' ≠ q)

theorem before_self (q : κ) (qs : List κ) : before q (q :: qs) = [] :=
  List.takeWhile_cons_of_neg (by simp)

theorem before_of_ne {q q' : κ} (h : q' ≠ q) (qs : List κ) : before q (q' :: qs) = q' :: before q qs :=
  List.takeWhile_cons_of_pos (decide_eq_true h)

/-- What is left out of a list counts for nothing before an item that is not. -/
theorem sum_before_filter {keep : κ → Bool} {f : κ → ℕ} {q : κ} (hq : keep q = true) : ∀ qs : List κ,
    ((before q (qs.filter keep)).map f).sum = ((before q qs).map fun q' => if keep q' then f q' else 0).sum
  | [] => rfl
  | q' :: qs => by
    have ih := sum_before_filter (f := f) hq qs
    by_cases heq : q' = q
    · subst heq
      rw [List.filter_cons_of_pos hq, before_self, before_self]
      rfl
    · by_cases hkeep : keep q' = true
      · rw [List.filter_cons_of_pos hkeep, before_of_ne heq, before_of_ne heq, List.map_cons, List.map_cons,
          List.sum_cons, List.sum_cons, ih, if_pos hkeep]
      · rw [List.filter_cons_of_neg hkeep, before_of_ne heq, List.map_cons, List.sum_cons, ih, if_neg hkeep,
          Nat.zero_add]

omit [DecidableEq κ] in
theorem sum_filter {keep : κ → Bool} {f : κ → ℕ} : ∀ qs : List κ,
    ((qs.filter keep).map f).sum = (qs.map fun q => if keep q then f q else 0).sum
  | [] => rfl
  | q :: qs => by
    have ih := @sum_filter keep f qs
    by_cases hkeep : keep q = true
    · rw [List.filter_cons_of_pos hkeep, List.map_cons, List.map_cons, List.sum_cons, List.sum_cons, ih, if_pos hkeep]
    · rw [List.filter_cons_of_neg hkeep, List.map_cons, List.sum_cons, ih, if_neg hkeep, Nat.zero_add]

end Before

end Redux.Lib.Layout
