import Mathlib.Algebra.BigOperators.Intervals
import Mathlib.Algebra.Order.Field.Rat
import Mathlib.Algebra.BigOperators.Ring.Finset
import Mathlib.Data.Nat.Cast.Order.Field
import Mathlib.Tactic.Ring

/-!
# Lib.Halving — vectors that are constant on two blocks side by side

The numbers below `n` are cut into blocks of the length 1, then 2, 4 and so on, and each block is paired with
the next one.  A pair gives a vector that is 1 on the first block and makes up for it on the second, which may
be shorter.  There are `n - 1` of them (`length_pairs`), and they are orthogonal to each other and to the
constant vector (`pairs_orthogonal`, `sum_halves`).
-/

namespace Redux.Lib.Halving

open Finset

section Model

variable (n : ℕ)

/-- The first blocks of the pairs of blocks of one length, from `offset` on. -/
def offsets (length offset : ℕ) : List ℕ :=
  if 0 < length ∧ offset + length < n then offset :: offsets length (offset + 2 * length) else []
termination_by n - offset

/-- All pairs, with the length of their blocks. -/
def pairs (length : ℕ) : List (ℕ × ℕ) :=
  if 0 < length ∧ length < n then (offsets n length 0).map (·, length) ++ pairs (2 * length) else []
termination_by n - length

/-- What is left for the second block. -/
def rest (pair : ℕ × ℕ) : ℕ := min (n - pair.1 - pair.2) pair.2

/-- The vector of a pair. -/
def halves (pair : ℕ × ℕ) (j : ℕ) : ℚ :=
  if pair.1 ≤ j ∧ j < pair.1 + pair.2 then 1
  else if pair.1 + pair.2 ≤ j ∧ j < pair.1 + 2 * pair.2 ∧ j < n then -pair.2 / rest n pair
  else 0

end Model

section Pairs

variable {n length offset : ℕ}

/-! ## How many -/

theorem length_offsets (hlength : 0 < length) :
    (offsets n length offset).length = (n - offset + length - 1) / (2 * length) := by
  fun_induction offsets n length offset with
  | case1 offset h ih =>
    rw [List.length_cons, ih]
    by_cases hle : 2 * length ≤ n - offset
    · rw [show n - offset + length - 1 = n - (offset + 2 * length) + length - 1 + 2 * length by omega,
        Nat.add_div_right _ (by omega)]
    · rw [Nat.div_eq_of_lt (by omega), Nat.div_eq_of_lt_le (k := 1) (by omega) (by omega)]
  | case2 offset h => rw [List.length_nil, Nat.div_eq_of_lt (by omega)]

/-- **One pair fewer than blocks.** -/
theorem length_pairs_from (hn : 0 < n) (hlength : 0 < length) :
    (pairs n length).length + 1 = (n + length - 1) / length := by
  fun_induction pairs n length with
  | case1 length h ih =>
    have hnext := ih (by omega)
    rw [List.length_append, List.length_map, length_offsets h.1, Nat.sub_zero]
    have hhalf : (n + length - 1) / (2 * length) = (n + length - 1) / length / 2 := by
      rw [Nat.div_div_eq_div_mul, Nat.mul_comm]
    have hround : (n + 2 * length - 1) / (2 * length) = ((n + length - 1) / length + 1) / 2 := by
      rw [show n + 2 * length - 1 = n + length - 1 + length by omega, ← Nat.add_div_right _ h.1, Nat.div_div_eq_div_mul,
        Nat.mul_comm]
    rw [hround] at hnext
    rw [hhalf]
    omega
  | case2 length h =>
    rw [List.length_nil, Nat.div_eq_of_lt_le (k := 1) (by omega) (by omega)]

theorem length_pairs (hn : 0 < n) : (pairs n 1).length = n - 1 := by
  have h := length_pairs_from hn Nat.one_pos
  rw [Nat.add_sub_cancel, Nat.div_one] at h
  omega

/-! ## Where they are -/

/-- The offset of a pair is a multiple of its length, and there is a second block. -/
structure Pair (n : ℕ) (pair : ℕ × ℕ) : Prop where
  pos : 0 < pair.2
  dvd : 2 * pair.2 ∣ pair.1
  lt : pair.1 + pair.2 < n

theorem mem_offsets (hdvd : 2 * length ∣ offset) {o : ℕ} (h : o ∈ offsets n length offset) :
    offset ≤ o ∧ Pair n (o, length) := by
  fun_induction offsets n length offset with
  | case1 offset hlt ih =>
    rcases List.mem_cons.1 h with rfl | h
    · exact ⟨le_rfl, hlt.1, hdvd, hlt.2⟩
    · obtain ⟨hle, hpair⟩ := ih (Dvd.dvd.add hdvd dvd_rfl) h
      exact ⟨by omega, hpair⟩
  | case2 offset hlt => exact absurd h List.not_mem_nil

theorem pairwise_offsets (hdvd : 2 * length ∣ offset) : (offsets n length offset).Pairwise (· < ·) := by
  fun_induction offsets n length offset with
  | case1 offset hlt ih =>
    have hnext := Dvd.dvd.add hdvd (dvd_refl (2 * length))
    refine List.pairwise_cons.2 ⟨fun o ho => ?_, ih hnext⟩
    have hle := (mem_offsets hnext ho).1
    omega
  | case2 offset hlt => exact List.Pairwise.nil

theorem mem_pairs {pair : ℕ × ℕ} (h : pair ∈ pairs n length) : Pair n pair ∧ length ∣ pair.2 := by
  fun_induction pairs n length with
  | case1 length hlt ih =>
    rcases List.mem_append.1 h with h | h
    · obtain ⟨o, ho, rfl⟩ := List.mem_map.1 h
      exact ⟨(mem_offsets (dvd_zero _) ho).2, dvd_rfl⟩
    · obtain ⟨hpair, hdvd⟩ := ih h
      exact ⟨hpair, (Dvd.intro_left 2 rfl).trans hdvd⟩
  | case2 length hlt => exact absurd h List.not_mem_nil

/-- Of two pairs, either they have the same length and do not meet, or the blocks of the second are as long as
both of the first. -/
theorem pairwise_pairs : (pairs n length).Pairwise fun small large =>
    (small.2 = large.2 ∧ small.1 ≠ large.1) ∨ 2 * small.2 ∣ large.2 := by
  fun_induction pairs n length with
  | case1 length hlt ih =>
    refine List.pairwise_append.2 ⟨?_, ih, ?_⟩
    · refine List.pairwise_map.2 ((pairwise_offsets (dvd_zero _)).imp fun hlt => .inl ⟨rfl, hlt.ne⟩)
    · intro small hsmall large hlarge
      obtain ⟨o, -, rfl⟩ := List.mem_map.1 hsmall
      exact .inr (mem_pairs hlarge).2
  | case2 length hlt => exact List.Pairwise.nil

/-! ## What they are -/

/-- On the first block. -/
theorem halves_first {pair : ℕ × ℕ} {j : ℕ} (h : pair.1 ≤ j) (hlt : j < pair.1 + pair.2) : halves n pair j = 1 :=
  if_pos ⟨h, hlt⟩

theorem halves_second {pair : ℕ × ℕ} {j : ℕ} (h : pair.1 + pair.2 ≤ j) (hlt : j < pair.1 + 2 * pair.2) (hn : j < n) :
    halves n pair j = -pair.2 / rest n pair := by
  rw [halves, if_neg (by omega), if_pos ⟨h, hlt, hn⟩]

theorem halves_outside {pair : ℕ × ℕ} {j : ℕ} (h : j < pair.1 ∨ pair.1 + 2 * pair.2 ≤ j ∨ n ≤ j) (hpair : Pair n pair) :
    halves n pair j = 0 := by
  have hpos := hpair.pos
  have hlt := hpair.lt
  rw [halves, if_neg (by omega), if_neg (by omega)]

/-- **The sum of a vector is zero.** -/
theorem sum_halves {pair : ℕ × ℕ} (hpair : Pair n pair) : ∑ j ∈ range n, halves n pair j = 0 := by
  have hpos := hpair.pos
  have hlt := hpair.lt
  have hrest : 0 < rest n pair := by
    rw [rest]
    omega
  have hend : pair.1 + pair.2 + rest n pair ≤ n := by
    rw [rest]
    omega
  have hfirst : ∑ j ∈ Ico pair.1 (pair.1 + pair.2), halves n pair j = pair.2 := by
    rw [sum_congr rfl fun j hj => halves_first (n := n) (mem_Ico.1 hj).1 (mem_Ico.1 hj).2]
    simp
  have hsecond : ∑ j ∈ Ico (pair.1 + pair.2) (pair.1 + pair.2 + rest n pair), halves n pair j = -pair.2 := by
    have hne : (rest n pair : ℚ) ≠ 0 := Nat.cast_ne_zero.2 hrest.ne'
    rw [sum_congr rfl fun j hj => halves_second (n := n) (mem_Ico.1 hj).1 ?_ ?_]
    · simp [mul_div_cancel₀ _ hne]
    · have hj' := mem_Ico.1 hj
      rw [rest] at hj'
      omega
    · have hj' := mem_Ico.1 hj
      omega
  have hzero : ∀ a b, (∀ j, a ≤ j → j < b → j < pair.1 ∨ pair.1 + 2 * pair.2 ≤ j ∨ n ≤ j) →
      ∑ j ∈ Ico a b, halves n pair j = 0 := fun a b h =>
    sum_eq_zero fun j hj => halves_outside (h j (mem_Ico.1 hj).1 (mem_Ico.1 hj).2) hpair
  rw [range_eq_Ico, ← sum_Ico_consecutive _ (Nat.zero_le pair.1) (show pair.1 ≤ n by omega),
    ← sum_Ico_consecutive _ (show pair.1 ≤ pair.1 + pair.2 by omega) (show pair.1 + pair.2 ≤ n by omega),
    ← sum_Ico_consecutive _ (show pair.1 + pair.2 ≤ pair.1 + pair.2 + rest n pair by omega) hend, hfirst, hsecond,
    hzero 0 pair.1 (by omega), hzero (pair.1 + pair.2 + rest n pair) n (by rw [rest]; omega)]
  ring

/-- A pair does not vanish. -/
theorem halves_ne_zero {pair : ℕ × ℕ} (hpair : Pair n pair) : halves n pair pair.1 = 1 :=
  halves_first le_rfl (Nat.lt_add_of_pos_right hpair.pos)

/-- A vector is constant on a block that is as long as one of its own and begins at a multiple of its length. -/
theorem exists_const {pair : ℕ × ℕ} (hpair : Pair n pair) {o width : ℕ} (hwidth : width ∣ pair.2) (ho : width ∣ o) :
    ∃ c, ∀ j, o ≤ j → j < o + width → j < n → halves n pair j = c := by
  obtain ⟨q, hq⟩ := hwidth
  obtain ⟨a, rfl⟩ := ho
  obtain ⟨b, hb⟩ := hpair.dvd
  have hstart : pair.1 = width * (2 * q * b) := by rw [hb, hq]; ring
  have hmiddle : pair.1 + pair.2 = width * (2 * q * b + q) := by rw [hb, hq]; ring
  have hend : pair.1 + 2 * pair.2 = width * (2 * q * b + 2 * q) := by rw [hb, hq]; ring
  have hblock : width * a + width = width * (a + 1) := by ring
  have hbefore : ∀ {c}, a < c → width * (a + 1) ≤ width * c := fun h => Nat.mul_le_mul_left _ h
  have hbehind : ∀ {c}, c ≤ a → width * c ≤ width * a := fun h => Nat.mul_le_mul_left _ h
  rcases Nat.lt_or_ge a (2 * q * b) with h₁ | h₁
  · have hle := hbefore h₁
    exact ⟨0, fun j _ hj _ => halves_outside (.inl (by omega)) hpair⟩
  rcases Nat.lt_or_ge a (2 * q * b + q) with h₂ | h₂
  · have hle := hbefore h₂
    have hge := hbehind h₁
    exact ⟨1, fun j hj hj' _ => halves_first (by omega) (by omega)⟩
  rcases Nat.lt_or_ge a (2 * q * b + 2 * q) with h₃ | h₃
  · have hle := hbefore h₃
    have hge := hbehind h₂
    exact ⟨_, fun j hj hj' hn => halves_second (by omega) (by omega) hn⟩
  · have hge := hbehind h₃
    exact ⟨0, fun j hj _ _ => halves_outside (.inr (.inl (by omega))) hpair⟩

/-- **Different pairs are orthogonal.** -/
theorem pairs_orthogonal : (pairs n length).Pairwise fun small large =>
    ∑ j ∈ range n, halves n small j * halves n large j = 0 := by
  refine pairwise_pairs.imp_of_mem fun {small large} hsmall hlarge h => ?_
  have hs := (mem_pairs hsmall).1
  have hl := (mem_pairs hlarge).1
  rcases h with ⟨hlength, hne⟩ | hdvd
  · -- blocks of one length begin at different multiples of twice the length
    refine sum_eq_zero fun j _ => mul_eq_zero.2 ?_
    obtain ⟨b, hb⟩ := hs.dvd
    obtain ⟨b', hb'⟩ := hl.dvd
    rw [← hlength] at hb'
    have hbb : b ≠ b' := fun heq => hne (by rw [hb, hb', heq])
    have hfar : small.1 + 2 * small.2 ≤ large.1 ∨ large.1 + 2 * small.2 ≤ small.1 := by
      rw [hb, hb', ← Nat.mul_succ, ← Nat.mul_succ]
      rcases Nat.lt_or_gt_of_ne hbb with hlt | hlt
      · exact .inl (Nat.mul_le_mul_left _ hlt)
      · exact .inr (Nat.mul_le_mul_left _ hlt)
    by_cases hj : small.1 ≤ j ∧ j < small.1 + 2 * small.2
    · exact .inr (halves_outside (by omega) hl)
    · exact .inl (halves_outside (by omega) hs)
  · obtain ⟨c, hc⟩ := exists_const hl hdvd hs.dvd
    have hconst : ∀ j ∈ range n, halves n small j * halves n large j = halves n small j * c := by
      intro j hj
      by_cases hin : small.1 ≤ j ∧ j < small.1 + 2 * small.2
      · rw [hc j hin.1 hin.2 (mem_range.1 hj)]
      · rw [halves_outside (by omega) hs, zero_mul, zero_mul]
    rw [sum_congr rfl hconst, ← sum_mul, sum_halves hs, zero_mul]

end Pairs

end Redux.Lib.Halving
