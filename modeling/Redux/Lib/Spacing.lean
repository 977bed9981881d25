import Mathlib.Algebra.Order.Floor.Div
import Mathlib.Algebra.Order.Floor.Ring
import Mathlib.Data.List.Chain
import Mathlib.Data.List.Range
import Mathlib.Tactic.Linarith
import Mathlib.Tactic.Ring

/-!
# Lib.Spacing — positions in equal distances, rounded down

A list of positions covers an interval if it goes from its one end to its other and leaves no gap above a
bound.  How many positions that takes is a matter of the length of the interval alone.  Positions in equal
distances are rounded to integers one by one: that neither widens a gap above an integer bound nor, if
they are one apart or more, makes two of them equal.
-/

namespace Redux.Lib

/-- The positions go from `a` to `b` in steps of at most `gap`. -/
structure Covers {R : Type*} [Sub R] [LE R] (a b gap : R) (l : List R) : Prop where
  head : l.head? = some a
  last : l.getLast? = some b
  gaps : l.IsChain fun x y => y - x ≤ gap

/-- Ascending positions lie between the first and the last one. -/
theorem Covers.between {R : Type*} [Sub R] [LinearOrder R] {a b gap : R} {l : List R} (h : Covers a b gap l)
    (hs : l.Pairwise (· < ·)) : ∀ x ∈ l, a ≤ x ∧ x ≤ b := by
  intro x hx
  constructor
  · obtain ⟨t, rfl⟩ := List.head?_eq_some_iff.1 h.head
    rcases List.mem_cons.1 hx with rfl | hx
    · exact le_rfl
    · exact ((List.pairwise_cons.1 hs).1 x hx).le
  · obtain ⟨t, rfl⟩ := List.getLast?_eq_some_iff.1 h.last
    rcases List.mem_append.1 hx with hx | hx
    · exact ((List.pairwise_append.1 hs).2.2 x hx b (List.mem_singleton_self b)).le
    · exact (List.mem_singleton.1 hx).le

variable {K : Type*} [Field K] [LinearOrder K] [IsStrictOrderedRing K]

/-- **As many positions as it takes.** -/
theorem Covers.span_le {b gap : K} : ∀ {a : K} {l : List K}, Covers a b gap l → b - a ≤ (l.length - 1) * gap
  | a, [], h => absurd h.head (by simp)
  | a, [x], h => by
    obtain rfl : x = a := Option.some.inj h.head
    obtain rfl : x = b := Option.some.inj h.last
    simp
  | a, x :: y :: l, h => by
    obtain rfl : x = a := Option.some.inj h.head
    obtain ⟨hstep, hgaps⟩ := List.isChain_cons_cons.1 h.gaps
    have hrest := Covers.span_le (a := y) (l := y :: l) ⟨rfl, by simpa using h.last, hgaps⟩
    have hlen : ((x :: y :: l).length : K) = (y :: l).length + 1 := by simp
    rw [hlen]
    linarith

/-- One more than the distances that an interval of integers takes. -/
theorem Covers.ceilDiv_lt_length {a b : ℤ} {span gap : ℕ} {l : List K} (hspan : b - a = span) (hpos : 0 < span)
    (hgap : 0 < gap)
    (h : Covers (a : K) b ((gap : ℤ) : K) l) : span ⌈/⌉ gap < l.length := by
  have hlong : (span : ℤ) ≤ (l.length - 1) * gap := by
    rw [← hspan]
    exact_mod_cast h.span_le
  obtain ⟨k, hk⟩ : ∃ k, l.length = k + 1 := by
    refine ⟨l.length - 1, (Nat.sub_add_cancel (Nat.pos_of_ne_zero fun hzero => ?_)).symm⟩
    rw [hzero] at hlong
    omega
  rw [hk, Nat.cast_succ, add_sub_cancel_right, mul_comm] at hlong
  rw [hk]
  exact Nat.lt_succ_of_le ((ceilDiv_le_iff_le_mul hgap).2 (by exact_mod_cast hlong))

section Spaced

variable [FloorRing K] {a : ℤ} {s : K} {n : ℕ}

/-- `n` positions from `a` in distances of `s`. -/
def spaced (a : ℤ) (s : K) (n : ℕ) : List ℤ := (List.range n).map fun i : ℕ => ⌊i * s + a⌋

omit [IsStrictOrderedRing K] in
@[simp] theorem length_spaced : (spaced a s n).length = n := by rw [spaced, List.length_map, List.length_range]

/-- One apart or more, they stay different. -/
theorem spaced_sorted (hs : 1 ≤ s) : (spaced a s n).Pairwise (· < ·) := by
  refine List.pairwise_map.2 (List.pairwise_lt_range.imp fun {i j} hij => ?_)
  have hcast : (i : K) + 1 ≤ j := by exact_mod_cast hij
  have hstep : (i : K) * s + a + 1 ≤ j * s + a := by nlinarith
  have hfloor := Int.floor_le_floor hstep
  rw [Int.floor_add_one] at hfloor
  omega

theorem spaced_gaps {gap : ℤ} (hs : s ≤ gap) : (spaced a s n).IsChain fun x y => y - x ≤ gap := by
  refine (List.isChain_map _).2 ((List.isChain_range _ n).2 fun i _ => ?_)
  have hstep : ((i + 1 : ℕ) : K) * s + a ≤ i * s + a + gap := by
    push_cast
    linarith
  have hfloor := Int.floor_le_floor hstep
  rw [Int.floor_add_intCast ((i : K) * s + a)] at hfloor
  show ⌊((i + 1 : ℕ) : K) * s + a⌋ - ⌊(i : K) * s + a⌋ ≤ gap
  omega

theorem spaced_covers {b gap : ℤ} (hn : 0 < n) (hs : s ≤ gap) (hlast : (n - 1) * s + a = b) :
    Covers a b gap (spaced a s n) := by
  obtain ⟨n, rfl⟩ : ∃ k, n = k + 1 := ⟨n - 1, by omega⟩
  refine ⟨?_, ?_, spaced_gaps hs⟩
  · rw [spaced, List.range_succ_eq_map, List.map_cons, List.head?_cons, Nat.cast_zero, zero_mul, zero_add,
      Int.floor_intCast]
  · rw [Nat.cast_succ, add_sub_cancel_right] at hlast
    rw [spaced, List.range_succ, List.map_append, List.map_singleton, List.getLast?_concat, hlast, Int.floor_intCast]

end Spaced

end Redux.Lib
