import Mathlib.Algebra.Order.Floor.Div
import Mathlib.Data.Nat.Basic
import Mathlib.Data.Rat.Floor
import Mathlib.Tactic.FieldSimp
import Redux.Lib.Spacing

/-!
# Util.Segment — a range cut into segments that overlap

`segment` adds segments until two neighbours overlap enough, and then places them in equal distances.  The
distances, `double` in the source, are rational here.  The segments are counted in an `int`, which they may not
fit; and the loop need not end: `fuel` bounds its rounds.
-/

namespace Redux.Util

open Redux.Lib

/-! ## Model -/

/-- `static_cast<T>` of a `double`. -/
def trunc (x : ℚ) : ℤ := x.num.tdiv x.den

/-- `separation`, for a number of segments. -/
def separation (first last : ℤ) (nSegments : ℕ) : ℚ := ((last - first : ℤ) : ℚ) / (nSegments - 1)

/-- The loop of `segment`; none if `++nSegments` goes beyond `int`. -/
def countSegments (first last segmentLength minimumOverlap : ℤ) : ℕ → ℕ → Option ℕ
  | 0, _ => none
  | fuel + 1, nSegments =>
    if segmentLength - separation first last nSegments < minimumOverlap then
      if nSegments + 1 < 2 ^ 31 then countSegments first last segmentLength minimumOverlap fuel (nSegments + 1)
      else none
    else some nSegments

/-- What `segment` makes of a range in the right order; `int i` counts up to `nSegments`. -/
def placeSegments (fuel : ℕ) (first last segmentLength minimumOverlap : ℤ) : Option (List ℤ) :=
  (countSegments first last segmentLength minimumOverlap fuel 2).map fun nSegments =>
    (List.range nSegments).map fun i : ℕ => trunc (i * separation first last nSegments + first)

def segment (fuel : ℕ) (first last segmentLength minimumOverlap : ℤ) : Option (List ℤ) :=
  if first = last then some [first]
  else if first > last then placeSegments fuel last first segmentLength minimumOverlap
  else placeSegments fuel first last segmentLength minimumOverlap

/-! ## The loop -/

section Loop

variable {first last segmentLength minimumOverlap : ℤ} {fuel k n : ℕ}

theorem trunc_eq_floor {x : ℚ} (hx : 0 ≤ x) : trunc x = ⌊x⌋ := by
  rw [trunc, Int.tdiv_eq_ediv_of_nonneg (Rat.num_nonneg.2 hx), Rat.floor_def']

/-- What the loop tests, without the division. -/
theorem overlaps_iff (hn : 2 ≤ n) : segmentLength - separation first last n < minimumOverlap ↔
    (n - 1) * (segmentLength - minimumOverlap) < last - first := by
  have hpos : (0 : ℚ) < n - 1 := by
    have h : (2 : ℚ) ≤ n := by exact_mod_cast hn
    linarith
  rw [sub_lt_comm, separation, lt_div_iff₀ hpos, mul_comm]
  exact_mod_cast Iff.rfl

/-- **The loop ends with the least number of segments that overlap enough**, if an `int` can count them. -/
theorem countSegments_eq {span gap : ℕ} (hspan : last - first = span)
    (hgap : segmentLength - minimumOverlap = gap) (hpos : 0 < gap) (hfits : span ⌈/⌉ gap + 1 < 2 ^ 31) :
    ∀ {fuel k : ℕ}, 2 ≤ k → k ≤ span ⌈/⌉ gap + 1 → span ⌈/⌉ gap + 1 < k + fuel →
      countSegments first last segmentLength minimumOverlap fuel k = some (span ⌈/⌉ gap + 1) := by
  intro fuel
  induction fuel with
  | zero => intro k _ hle hlt; omega
  | succ fuel ih =>
    intro k hk hle hlt
    have hmore : (segmentLength : ℚ) - separation first last k < minimumOverlap ↔ k - 1 < span ⌈/⌉ gap := by
      rw [overlaps_iff hk, hspan, hgap, ← not_le, ← not_le, ceilDiv_le_iff_le_mul hpos, not_iff_not, mul_comm]
      obtain ⟨k, rfl⟩ : ∃ j, k = j + 1 := ⟨k - 1, by omega⟩
      rw [Nat.add_sub_cancel, Nat.cast_succ, add_sub_cancel_right]
      exact_mod_cast Iff.rfl
    rw [countSegments]
    by_cases hlast : k = span ⌈/⌉ gap + 1
    · rw [if_neg (by rw [hmore]; omega), hlast]
    · rw [if_pos (by rw [hmore]; omega), if_pos (by omega)]
      exact ih (by omega) (by omega) (by omega)

/-- Segments that do not suffice up to the end of `int`. -/
theorem countSegments_overflow (hmore : ∀ n : ℕ, 2 ≤ n → n < 2 ^ 31 →
    segmentLength - separation first last n < minimumOverlap) : ∀ {fuel k : ℕ}, 2 ≤ k → k < 2 ^ 31 →
      countSegments first last segmentLength minimumOverlap fuel k = none := by
  intro fuel
  induction fuel with
  | zero => intro k _ _; rfl
  | succ fuel ih =>
    intro k hk hlt
    rw [countSegments, if_pos (hmore k hk hlt)]
    split_ifs with hnext
    · exact ih (by omega) hnext
    · rfl

/-- Segments no longer than the overlap never suffice. -/
theorem countSegments_eq_none (hlt : first < last) (hle : segmentLength ≤ minimumOverlap) :
    countSegments first last segmentLength minimumOverlap fuel 2 = none := by
  refine countSegments_overflow (fun n hn _ => (overlaps_iff hn).2 ?_) le_rfl (by decide)
  have hneg : ((n : ℤ) - 1) * (segmentLength - minimumOverlap) ≤ 0 :=
    mul_nonpos_of_nonneg_of_nonpos (by omega) (by omega)
  omega

end Loop

/-! ## The segments -/

section Segments

variable {first last segmentLength minimumOverlap : ℤ} {fuel : ℕ}

/-- The positions are those in equal distances, rounded down. -/
theorem map_trunc {first : ℤ} {s : ℚ} (hfirst : 0 ≤ first) (hs : 0 ≤ s) (n : ℕ) :
    ((List.range n).map fun i : ℕ => trunc (i * s + first)) = spaced first s n := by
  refine List.map_congr_left fun i _ => trunc_eq_floor ?_
  have hfirst' : (0 : ℚ) ≤ first := by exact_mod_cast hfirst
  positivity

/-- **A range in the right order.** -/
theorem placeSegments_spec (hfirst : 0 ≤ first) (hlt : first < last) (hoverlap : minimumOverlap < segmentLength)
    (hfits : last - first ≤ (2 ^ 31 - 2) * (segmentLength - minimumOverlap)) :
    ∃ l : List ℤ, (∀ fuel : ℕ, last - first ≤ fuel → placeSegments fuel first last segmentLength
      minimumOverlap = some l) ∧
      l.Pairwise (· < ·) ∧ Covers first last (segmentLength - minimumOverlap) l ∧
      ∀ l' : List ℚ, Covers (first : ℚ) last (segmentLength - minimumOverlap : ℤ) l' → l.length ≤ l'.length := by
  obtain ⟨span, hspan⟩ : ∃ span : ℕ, last - first = span := ⟨(last - first).toNat, by omega⟩
  obtain ⟨gap, hgap⟩ : ∃ gap : ℕ, segmentLength - minimumOverlap = gap :=
      ⟨(segmentLength - minimumOverlap).toNat, by omega⟩
  have hpos : 0 < gap := by omega
  have hint : span ⌈/⌉ gap + 1 < 2 ^ 31 := by
    have hnum : span ⌈/⌉ gap ≤ 2 ^ 31 - 2 := (ceilDiv_le_iff_le_mul hpos).2 (by rw [mul_comm]; omega)
    omega
  -- the number of distances
  have hge : 0 < span ⌈/⌉ gap := by
    by_contra h
    have hzero := (ceilDiv_le_iff_le_mul hpos).1 (show span ⌈/⌉ gap ≤ 0 by omega)
    omega
  have hle : span ⌈/⌉ gap ≤ span := (ceilDiv_le_iff_le_mul hpos).2 (Nat.le_mul_of_pos_left span hpos)
  have hcover : span ≤ gap * (span ⌈/⌉ gap) := (ceilDiv_le_iff_le_mul hpos).1 le_rfl
  have hsep : separation first last (span ⌈/⌉ gap + 1) = (span : ℚ) / (span ⌈/⌉ gap : ℕ) := by
    rw [separation, hspan, Nat.cast_succ, add_sub_cancel_right]
    rfl
  have hnum : (0 : ℚ) < (span ⌈/⌉ gap : ℕ) := by exact_mod_cast hge
  have hone : 1 ≤ separation first last (span ⌈/⌉ gap + 1) := by
    rw [hsep, one_le_div hnum]
    exact_mod_cast hle
  have hbound : separation first last (span ⌈/⌉ gap + 1) ≤ ((segmentLength - minimumOverlap : ℤ) : ℚ) := by
    rw [hsep, hgap, div_le_iff₀ hnum]
    exact_mod_cast hcover
  refine ⟨spaced first (separation first last (span ⌈/⌉ gap + 1)) (span ⌈/⌉ gap + 1), fun fuel hfuel => ?_,
    spaced_sorted hone,
    spaced_covers (Nat.succ_pos _) hbound ?_, fun l' hl' => ?_⟩
  · rw [placeSegments, countSegments_eq hspan hgap hpos hint le_rfl (by omega) (by omega), Option.map_some,
      map_trunc hfirst (zero_le_one.trans hone)]
  · rw [hsep, Nat.cast_succ, add_sub_cancel_right, mul_div_cancel₀ _ hnum.ne', ← Int.cast_natCast span, ← hspan]
    push_cast
    ring
  · rw [hgap] at hl'
    rw [length_spaced]
    exact hl'.ceilDiv_lt_length hspan (by omega) hpos

/-- **The segments cover the range between the two, in either order, and there are as few of them as
possible**, if an `int` can count them. -/
theorem segment_covers (hfirst : 0 ≤ first) (hlast : 0 ≤ last) (hne : first ≠ last)
    (hlt : minimumOverlap < segmentLength) (hfits : |last - first| ≤ (2 ^ 31 - 2) * (segmentLength - minimumOverlap)) :
    ∃ l : List ℤ, (∀ fuel : ℕ, |last - first| ≤ fuel → segment fuel first last segmentLength minimumOverlap = some l) ∧
      l.Pairwise (· < ·) ∧ Covers (min first last) (max first last) (segmentLength - minimumOverlap) l ∧
      ∀ l' : List ℚ, Covers ((min first last : ℤ) : ℚ) (max first last : ℤ) (segmentLength - minimumOverlap : ℤ) l' →
        l.length ≤ l'.length := by
  rcases lt_or_gt_of_ne hne with hup | hdown
  · rw [abs_of_pos (by omega)] at hfits
    rw [min_eq_left hup.le, max_eq_right hup.le, abs_of_pos (by omega)]
    simp only [segment, if_neg hne, if_neg hup.not_gt]
    exact placeSegments_spec hfirst hup hlt hfits
  · rw [abs_of_neg (by omega), neg_sub] at hfits
    rw [min_eq_right hdown.le, max_eq_left hdown.le, abs_of_neg (by omega), neg_sub]
    simp only [segment, if_neg hne, if_pos hdown]
    exact placeSegments_spec hlast hdown hlt hfits

/-- Patches of 16 pixels, of which 6 overlap, from both ends. -/
theorem segment_covers_strip :
    ∃ l : List ℤ, (∀ fuel : ℕ, |1 - 30| ≤ (fuel : ℤ) → segment fuel 30 1 16 6 = some l) ∧
      l.Pairwise (· < ·) ∧ Covers (min 30 1) (max 30 1) (16 - 6) l ∧
      ∀ l' : List ℚ, Covers ((min 30 1 : ℤ) : ℚ) (max 30 1 : ℤ) (16 - 6 : ℤ) l' → l.length ≤ l'.length :=
  segment_covers (by decide) (by decide) (by decide) (by decide) (by decide)

/-- All numbers of 31 bits, one by one. -/
theorem segment_overflows : ¬∃ l : List ℤ, ∃ fuel : ℕ, segment fuel 0 (2 ^ 31 - 1) 1 0 = some l := by
  rintro ⟨l, fuel, hl⟩
  have hnone : countSegments 0 (2 ^ 31 - 1) 1 0 fuel 2 = none :=
    countSegments_overflow (fun n hn hlt => (overlaps_iff hn).2 (by omega)) le_rfl (by decide)
  rw [segment, if_neg (by decide), if_neg (by decide), placeSegments, hnone] at hl
  exact absurd hl.symm (Option.some_ne_none l)

end Segments

end Redux.Util
