import Mathlib.Data.Set.Function
import Mathlib.Order.Monotone.Defs
import Redux.Lib.Triangle

/-!
# Image.Noll — the numbers of Zernike modes

`Zernike::NollToNM` finds the row `n` of a mode by adding up the lengths of the rows, and takes the
azimuthal number from the place in the row; `NMToNoll` tries one number after the other.  `unsigned int`
holds the lengths of all rows that a `uint16_t` can name.  The azimuthal number is an `int16_t`, so that
the numbering is right up to row 32767, and the search never tries the first mode (`noll_numbering`).
-/

namespace Redux.Image.Zernike

open Redux.Lib

/-! ## Model -/

/-- What an `int16_t` keeps of a number. -/
def int16 (x : ℤ) : ℤ := x.bmod (2 ^ 16)

/-- The loop of `NollToNM` over `i`, with `n` and `len`.  Every round adds one or more to `len`. -/
def addRows (j : ℕ) : ℕ → ℕ → ℕ → ℕ → ℕ × ℕ
  | 0, _, n, len => (n, len)
  | fuel + 1, i, n, len =>
    if len < j then addRows j fuel (i + 1) (i % 2 ^ 16) (len + (i % 2 ^ 16 + 1)) else (n, len)

def NollToNM (j : ℕ) : ℕ × ℤ :=
  let r := addRows j j 1 0 1
  let n : ℤ := r.1
  let dl := n + 1 - r.2 + j
  let m := int16 (2 * (dl + n % 2).tdiv 2 + (if n % 2 = 0 then 1 else 0) - 1)
  (r.1, if j % 2 = 1 then int16 (-m) else m)

/-- The loop of `NMToNoll`: `NollToNM( ++j, n, m )` until it gives the pair that is looked for. -/
def search (ZernikeN : ℕ) (ZernikeM : ℤ) : ℕ → ℕ → ℕ × ℤ → ℕ
  | 0, _, _ => 0
  | fuel + 1, j, nm =>
    if nm.2 ≠ ZernikeM ∨ nm.1 ≠ ZernikeN then
      -- bailout
      if j + 1 > 1000000 then 0 else search ZernikeN ZernikeM fuel (j + 1) (NollToNM (j + 1))
    else j

/-- `NMToNoll`, where the bailout comes before the rounds run out. -/
def NMToNoll (ZernikeN : ℕ) (ZernikeM : ℤ) : ℕ :=
  let delta := (ZernikeN : ℤ) - ZernikeM.natAbs
  if delta.tmod 2 ≠ 0 then 0 else search ZernikeN ZernikeM 1000001 0 (0, 0)

/-! ## What the numbers stand for -/

/-- The pairs of a radial and an azimuthal number that there is a mode for. -/
def Pairs (N : ℕ) : Set (ℕ × ℤ) := {p | p.1 ≤ N ∧ p.2.natAbs ≤ p.1 ∧ (p.1 - p.2.natAbs) % 2 = 0}

/-- The azimuthal order of the `k`-th mode of a row. -/
def order (n k : ℕ) : ℕ := if k % 2 = n % 2 then k else k - 1

/-- The pair of the `j`-th mode, the `k`-th of row `n`. -/
def pair (j n k : ℕ) : ℕ × ℤ := (n, if j % 2 = 1 then -(order n k : ℤ) else order n k)

/-- The modes up to row `N` are numbered: each number has one pair and each pair one number, the numbers
go by the radial number and then by the azimuthal order, even ones for cosines and odd ones for sines. -/
structure Numbering (f : ℕ → ℕ × ℤ) (N : ℕ) : Prop where
  bijOn : Set.BijOn f (Set.Icc 1 (before (N + 1))) (Pairs N)
  radial : MonotoneOn (fun j => (f j).1) (Set.Icc 1 (before (N + 1)))
  azimuthal : ∀ j ∈ Set.Icc 1 (before (N + 1)), ∀ j' ∈ Set.Icc 1 (before (N + 1)), j ≤ j' → (f j).1 = (f j').1 →
    (f j).2.natAbs ≤ (f j').2.natAbs
  even : ∀ j ∈ Set.Icc 1 (before (N + 1)), j % 2 = 0 → 0 ≤ (f j).2
  odd : ∀ j ∈ Set.Icc 1 (before (N + 1)), j % 2 = 1 → (f j).2 ≤ 0

section Numbers

variable {j j' n n' k k' i N : ℕ}

theorem order_le (h : Stands j n k) : order n k ≤ n := by
  have hle := h.le
  unfold order
  split_ifs <;> omega

theorem order_parity (h : Stands j n k) : order n k % 2 = n % 2 := by
  have hpos := h.pos
  unfold order
  split_ifs <;> omega

/-! ## The loop -/

/-- **The rows are added up to the one of the mode.** -/
theorem addRows_eq (h : Stands j n k) (hn : n < 2 ^ 16) : ∀ {fuel i : ℕ}, i ≤ n → j ≤ before (i + 1) + fuel →
    addRows j fuel (i + 1) i (before (i + 1)) = (n, before (n + 1)) := by
  intro fuel
  induction fuel with
  | zero =>
    intro i hi hfuel
    obtain rfl : n = i := le_antisymm ((h.row_le_iff).2 hfuel) hi
    rfl
  | succ fuel ih =>
    intro i hi hfuel
    rw [addRows]
    by_cases hlt : before (i + 1) < j
    · have hnext : i + 1 ≤ n := by
        by_contra hge
        have hrow := h.le_before_succ
        rw [show n = i by omega] at hrow
        omega
      rw [if_pos hlt, Nat.mod_eq_of_lt (show i + 1 < 2 ^ 16 by omega)]
      exact ih hnext (by rw [before_succ (i + 1)]; omega)
    · obtain rfl : n = i := le_antisymm ((h.row_le_iff).2 (Nat.le_of_not_lt hlt)) hi
      rw [if_neg hlt]

/-- The azimuthal order by halving and correcting for the parity. -/
theorem halved_eq (h : Stands j n k) :
    2 * ((k : ℤ) + (n : ℤ) % 2).tdiv 2 + (if (n : ℤ) % 2 = 0 then 1 else 0) - 1 = order n k := by
  have hpos := h.pos
  rw [Int.tdiv_eq_ediv_of_nonneg (by omega), order]
  split_ifs <;> omega

theorem int16_of_lt {x : ℤ} (h : x.natAbs < 2 ^ 15) : int16 x = x := by
  refine Int.bmod_eq_of_le ?_ ?_ <;> omega

/-- **What `NollToNM` computes**, if the row has a number in a `uint16_t`. -/
theorem NollToNM_of_stands (h : Stands j n k) (hn : n < 2 ^ 16) :
    NollToNM j = (n, if j % 2 = 1 then int16 (-int16 (order n k)) else int16 (order n k)) := by
  have hloop : addRows j j 1 0 1 = (n, before (n + 1)) := @addRows_eq j n k h hn j 0 (Nat.zero_le n)
    (Nat.le_add_left _ _)
  have hdl : (n : ℤ) + 1 - (before (n + 1) : ℕ) + j = k := by
    rw [h.eq, before_succ]
    push_cast
    ring
  rw [NollToNM, hloop]
  dsimp only
  rw [hdl, halved_eq h]

/-- In the rows that an `int16_t` can count, it is the pair of the mode. -/
theorem NollToNM_eq (h : Stands j n k) (hn : n < 2 ^ 15) : NollToNM j = pair j n k := by
  have hle := order_le h
  have hcos : int16 (order n k) = order n k := int16_of_lt (by omega)
  have hsin : int16 (-(order n k : ℤ)) = -(order n k : ℤ) := int16_of_lt (by omega)
  rw [NollToNM_of_stands h (by omega), hcos, hsin, pair]

/-! ## One to one -/

theorem natAbs_pair (j n k : ℕ) : (pair j n k).2.natAbs = order n k := by
  unfold pair
  split_ifs <;> omega

/-- **Two modes with the same pair are the same**: those of one order are next to each other, and one of
them is even and one odd. -/
theorem pair_injective (h : Stands j n k) (h' : Stands j' n' k') (heq : pair j n k = pair j' n' k') : j = j' := by
  obtain rfl : n = n' := congrArg Prod.fst heq
  have hm : (if j % 2 = 1 then -(order n k : ℤ) else order n k) =
      if j' % 2 = 1 then -(order n k' : ℤ) else order n k' := congrArg Prod.snd heq
  have hj := h.eq
  have hj' := h'.eq
  have hpos := h.pos
  have hpos' := h'.pos
  unfold order at hm
  split_ifs at hm <;> omega

/-- **Every pair has a mode.** -/
theorem exists_pair {p : ℕ × ℤ} (hp : p ∈ Pairs N) : ∃ j k, Stands j p.1 k ∧ pair j p.1 k = p := by
  obtain ⟨n, m⟩ := p
  obtain ⟨-, hm, hpar⟩ := hp
  dsimp only at hm hpar ⊢
  have hstands : ∀ k, 1 ≤ k → k ≤ n + 1 → Stands (before n + k) n k := fun k hpos hle => ⟨rfl, hpos, hle⟩
  -- of the two places of an order, the parity of the number decides
  have hplace : ∃ k, 1 ≤ k ∧ k ≤ n + 1 ∧ order n k = m.natAbs ∧ (m < 0 → (before n + k) % 2 = 1) ∧
      (0 < m → (before n + k) % 2 = 0) := by
    unfold order
    by_cases hzero : m = 0
    · refine ⟨1, le_rfl, Nat.succ_le_succ (Nat.zero_le n), ?_, fun h => absurd h (by omega), fun h =>
        absurd h (by omega)⟩
      rw [hzero, Int.natAbs_zero, Nat.sub_zero] at hpar
      rw [hpar, if_neg (by decide), hzero]
      rfl
    · by_cases hside : (before n + m.natAbs) % 2 = (if m < 0 then 1 else 0)
      · refine ⟨m.natAbs, by omega, by omega, if_pos (by omega), fun h => ?_, fun h => ?_⟩
        · rwa [if_pos h] at hside
        · rwa [if_neg (by omega)] at hside
      · refine ⟨m.natAbs + 1, by omega, by omega, ?_, fun h => ?_, fun h => ?_⟩
        · rw [if_neg (by omega), Nat.add_sub_cancel]
        · rw [if_pos h] at hside
          omega
        · rw [if_neg (by omega)] at hside
          omega
  obtain ⟨k, hpos, hle, horder, hneg, hposm⟩ := hplace
  refine ⟨before n + k, k, hstands k hpos hle, ?_⟩
  rw [pair, horder]
  refine Prod.ext rfl ?_
  dsimp only
  split_ifs with hodd
  · by_contra hne
    have := hposm (by omega)
    omega
  · by_contra hne
    have := hneg (by omega)
    omega

theorem pair_mem (h : Stands j n k) (hn : n ≤ N) : pair j n k ∈ Pairs N := by
  have hle := order_le h
  have hpar := order_parity h
  refine ⟨hn, (natAbs_pair j n k).trans_le hle, ?_⟩
  rw [natAbs_pair, pair]
  dsimp only
  omega

/-- The modes up to a row that an `int16_t` can count. -/
theorem numbering_of_lt (hN : N < 2 ^ 15) : Numbering NollToNM N := by
  have hall : ∀ j ∈ Set.Icc 1 (before (N + 1)), ∃ n k, Stands j n k ∧ n ≤ N ∧ NollToNM j = pair j n k := by
    rintro j ⟨hpos, hle⟩
    obtain ⟨n, k, h⟩ := exists_stands hpos
    have hn := (h.row_le_iff).2 hle
    exact ⟨n, k, h, hn, NollToNM_eq h (by omega)⟩
  refine ⟨⟨fun j hj => ?_, fun j hj j' hj' heq => ?_, fun p hp => ?_⟩, fun j hj j' hj' hle => ?_,
    fun j hj j' hj' hle hrow => ?_, fun j hj heven => ?_, fun j hj hodd => ?_⟩
  · obtain ⟨n, k, h, hn, hnoll⟩ := hall j hj
    rw [hnoll]
    exact pair_mem h hn
  · obtain ⟨n, k, h, -, hnoll⟩ := hall j hj
    obtain ⟨n', k', h', -, hnoll'⟩ := hall j' hj'
    rw [hnoll, hnoll'] at heq
    exact pair_injective h h' heq
  · obtain ⟨j, k, h, hpair⟩ := exists_pair hp
    refine ⟨j, ⟨h.pos_of, (h.row_le_iff).1 hp.1⟩, ?_⟩
    have hp1 : p.1 ≤ N := hp.1
    rw [NollToNM_eq h (by omega), hpair]
  · obtain ⟨n, k, h, -, hnoll⟩ := hall j hj
    obtain ⟨n', k', h', -, hnoll'⟩ := hall j' hj'
    dsimp only
    rw [hnoll, hnoll']
    exact h.row_le h' hle
  · obtain ⟨n, k, h, -, hnoll⟩ := hall j hj
    obtain ⟨n', k', h', -, hnoll'⟩ := hall j' hj'
    rw [hnoll, hnoll'] at hrow ⊢
    obtain rfl : n = n' := hrow
    rw [natAbs_pair, natAbs_pair]
    have heq := h.eq
    have heq' := h'.eq
    unfold order
    split_ifs <;> omega
  · obtain ⟨n, k, -, -, hnoll⟩ := hall j hj
    rw [hnoll, pair]
    dsimp only
    rw [if_neg (by omega)]
    omega
  · obtain ⟨n, k, -, -, hnoll⟩ := hall j hj
    rw [hnoll, pair]
    dsimp only
    rw [if_pos hodd]
    omega

/-- From row 32768 on, there is an even mode with an order that an `int16_t` takes for a negative one. -/
theorem not_numbering (hN : 2 ^ 15 ≤ N) : ¬Numbering NollToNM N := by
  intro h
  have hrow : before 32768 = 16384 * 32769 := by
    have := two_mul_before 32768
    omega
  have hstands : Stands (before 32768 + 32768) 32768 32768 := ⟨rfl, by decide, by decide⟩
  have hmem : before 32768 + 32768 ∈ Set.Icc 1 (before (N + 1)) :=
    ⟨hstands.pos_of, (hstands.row_le_iff).1 (by omega)⟩
  have hsign := h.even _ hmem (by rw [hrow])
  rw [NollToNM_of_stands hstands (by decide), hrow] at hsign
  exact absurd hsign (by decide)

/-- **The modes up to row `N` are numbered exactly if an `int16_t` can count them.** -/
theorem numbering_iff (N : ℕ) : Numbering NollToNM N ↔ N < 2 ^ 15 :=
  ⟨fun h => Nat.lt_of_not_le fun hN => not_numbering hN h, numbering_of_lt⟩

/-! ## The search -/

/-- The search goes on over rows that an `int16_t` can count. -/
theorem row_lt_of_le (h : Stands j n k) (hj : j ≤ 1000000) : n < 2 ^ 15 := by
  by_contra hge
  have hrow := @before_mono (2 ^ 15) n (by omega)
  have hlow := two_mul_before (2 ^ 15)
  have hfirst := h.before_lt
  omega

/-- **The search comes to the mode of a pair**, if it does not start at it. -/
theorem search_eq (hstands : Stands j n k) (hj : j ≤ 1000000) : ∀ {fuel i : ℕ} {nm : ℕ × ℤ}, i < j → j ≤ i + fuel →
    nm ≠ pair j n k → search n (pair j n k).2 (fuel + 1) i nm = j := by
  have hn := row_lt_of_le hstands hj
  intro fuel
  induction fuel with
  | zero =>
    intro i nm hi hfuel
    omega
  | succ fuel ih =>
    intro i nm hi hfuel hne
    have hnm : nm.2 ≠ (pair j n k).2 ∨ nm.1 ≠ n := by
      by_contra hboth
      push Not at hboth
      exact hne (Prod.ext hboth.2 hboth.1)
    rw [search, if_pos hnm, if_neg (by omega)]
    obtain ⟨n', k', hstands'⟩ := @exists_stands (i + 1) (Nat.le_add_left _ _)
    have hnext : NollToNM (i + 1) = pair (i + 1) n' k' :=
      NollToNM_eq hstands' ((hstands'.row_le hstands hi).trans_lt hn)
    by_cases hlast : i + 1 = j
    · subst hlast
      rw [NollToNM_eq hstands hn, search, if_neg]
      rintro (h | h)
      · exact h rfl
      · exact h rfl
    · refine ih (by omega) (by omega) fun heq => hlast ?_
      exact pair_injective hstands' hstands (hnext.symm.trans heq)

/-- The first mode is where the search starts. -/
theorem NMToNoll_one : NMToNoll (NollToNM 1).1 (NollToNM 1).2 = 0 := rfl

/-- **`NMToNoll` is the inverse for every mode but the first.** -/
theorem NMToNoll_iff (hpos : 1 ≤ j) (hj : j ≤ 1000000) : NMToNoll (NollToNM j).1 (NollToNM j).2 = j ↔ j ≠ 1 := by
  constructor
  · rintro h rfl
    rw [NMToNoll_one] at h
    exact absurd h (by decide)
  · intro hne
    obtain ⟨n, k, h⟩ := exists_stands hpos
    have hn := row_lt_of_le h hj
    have hle := order_le h
    have hpar := order_parity h
    rw [NollToNM_eq h hn, NMToNoll, natAbs_pair, if_neg]
    · refine search_eq h hj (by omega) (by omega) fun heq => hne ?_
      -- the pair of the start is that of the first mode only
      have hstart : pair 1 0 1 = (0, 0) := rfl
      exact pair_injective h ⟨rfl, le_rfl, le_rfl⟩ (heq.symm.trans hstart.symm)
    · rw [not_not, show (pair j n k).1 = n from rfl, Int.tmod_eq_emod_of_nonneg (by omega)]
      omega

/-- **The modes are numbered up to the row that an `int16_t` can count, and the numbers are found again
from the second one on.** -/
theorem noll_numbering (N j : ℕ) : (N < 2 ^ 16 → (Numbering NollToNM N ↔ N < 2 ^ 15)) ∧
    (1 ≤ j → j ≤ 1000000 → (NMToNoll (NollToNM j).1 (NollToNM j).2 = j ↔ j ≠ 1)) :=
  ⟨fun _ => numbering_iff N, NMToNoll_iff⟩

/-- The first four rows, and a coma. -/
theorem noll_coma : Numbering NollToNM 3 ∧ NMToNoll (NollToNM 8).1 (NollToNM 8).2 = 8 :=
  ⟨((noll_numbering 3 8).1 (by decide)).2 (by decide), ((noll_numbering 3 8).2 (by decide) (by decide)).2 (by decide)⟩

/-- The piston is mode 1, and is found as mode 0. -/
theorem piston_not_found : ¬∀ j, 1 ≤ j → j ≤ 1000000 → NMToNoll (NollToNM j).1 (NollToNM j).2 = j := by
  intro h
  exact absurd (NMToNoll_one.symm.trans (h 1 le_rfl (by decide))) (by decide)

end Numbers

end Redux.Image.Zernike
