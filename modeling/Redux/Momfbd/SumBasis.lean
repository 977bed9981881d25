import Redux.Lib.Fuel
import Redux.Lib.IntType
import Redux.Lib.Scatter
import Redux.Momfbd.TiltBasis

/-!
# Momfbd.SumBasis — the loops that write the base vectors of a sum

`calculateNullspace` writes to `nsArr` in three loops: over the lengths of the blocks, over the pairs of blocks of a
length, and over the columns of a block.  Here they are with their counters and the numbers of the rows and columns
that they write to.  What they leave is a basis of the vectors whose first `max_element_count` columns add up to
zero (`baseLoop_sumBasis`).
-/

namespace Redux.Momfbd.Constraints

open Redux.Lib Scatter

/-! ## Model -/

/-- A value that is written to a row and a column of `nsArr`. -/
abbrev Write := (ℕ × ℤ) × ℚ

/-- The loop over the columns of a block. -/
def pairWrites (max_element_count block_length offset rem : ℤ) (basis_count : ℕ) : List Write :=
  (List.range block_length.toNat).flatMap fun (i : ℕ) =>
    ((basis_count, offset + i), 1) ::
      if offset + block_length + i < max_element_count then
        [((basis_count, offset + block_length + i), -block_length * 1 / rem)]
      else []

section Loops

variable (fits : ℤ → Prop) [DecidablePred fits] (max_element_count : ℤ)

/-- The loop over the pairs of blocks of one length: the `basis_count` behind it, and what has been written.  It is
`none` without rounds enough, at a division by zero, and where a counter has a value that does not fit in its type. -/
def offsetLoop (block_length : ℤ) : ℕ → ℤ → ℕ → Option (ℕ × List Write)
  | 0, _, _ => none
  | fuel + 1, offset, basis_count =>
    if ¬fits (offset + block_length) then none
    else if offset + block_length < max_element_count then
      let rem := max (min (max_element_count - offset - block_length) block_length) 0
      -- the first column of the second block is always divided; the sums of the columns are below the new offset
      if rem = 0 ∨ ¬fits (offset + 2 * block_length) then none
      else
        (offsetLoop block_length fuel (offset + 2 * block_length) (basis_count + 1)).map fun r =>
          (r.1, pairWrites max_element_count block_length offset rem basis_count ++ r.2)
    else some (basis_count, [])

/-- The loop over the lengths of the blocks. -/
def blockLoop : ℕ → ℤ → ℕ → Option (ℕ × List Write)
  | 0, _, _ => none
  | fuel + 1, block_length, basis_count =>
    if block_length < max_element_count then
      (offsetLoop fits max_element_count block_length fuel 0 basis_count).bind fun r =>
        if ¬fits (block_length * 2) then none
        else (blockLoop fuel (block_length * 2) r.1).map fun r' => (r'.1, r.2 ++ r'.2)
    else some (basis_count, [])

/-- All three of them, from `block_length(1)` and `basis_count(0)` on. -/
def baseLoop (fuel : ℕ) : Option (ℕ × List Write) := blockLoop fits max_element_count fuel 1 0

end Loops

/-- A row of `nsArr`, which has been zeroed, after the writes. -/
def nsRow (ws : List Write) (i j : ℕ) : ℚ := scatter ws (fun _ => 0) (i, j)

/-- The writes make a basis of the vectors of `m` numbers that add up to zero. -/
structure SumBasis (m : ℤ) (ws : List Write) : Prop where
  row_le : ∀ w ∈ ws, (w.1.1 : ℤ) ≤ m - 2
  column : ∀ w ∈ ws, 0 ≤ w.1.2 ∧ w.1.2 < m
  sum : ∀ i : ℕ, i < m - 1 → ∑ j ∈ Finset.range m.toNat, nsRow ws i j = 0
  orthogonal : ∀ i i' : ℕ, i < m - 1 → i' < m - 1 → i ≠ i' →
    ∑ j ∈ Finset.range m.toNat, nsRow ws i j * nsRow ws i' j = 0
  independent : LinearIndependent ℚ fun (i : Fin (m - 1).toNat) (j : Fin m.toNat) => nsRow ws i j

/-! ## One pair -/

section Pairs

variable {n : ℕ} {pair : ℕ × ℕ} {row : ℕ} {w : Write}

/-- The writes for a pair of blocks. -/
def writesOf (n : ℕ) (pair : ℕ × ℕ) (row : ℕ) : List Write :=
  pairWrites n pair.2 pair.1 (Halving.rest n pair) row

/-- **A pair writes to its row, below `n`.** -/
theorem mem_writesOf (hpair : Halving.Pair n pair) (hw : w ∈ writesOf n pair row) :
    w.1.1 = row ∧ 0 ≤ w.1.2 ∧ w.1.2 < n := by
  have hlt := hpair.lt
  obtain ⟨i, hi, hw⟩ := List.mem_flatMap.1 hw
  rw [Int.toNat_natCast, List.mem_range] at hi
  rcases List.mem_cons.1 hw with rfl | hw
  · exact ⟨rfl, by dsimp only; omega, by dsimp only; omega⟩
  · split_ifs at hw with hin
    · obtain rfl := List.mem_singleton.1 hw
      exact ⟨rfl, by dsimp only; omega, hin⟩
    · exact absurd hw List.not_mem_nil

theorem scatter_writesOf_of_ne (hpair : Halving.Pair n pair) {m : ℕ × ℤ → ℚ} {k : ℕ × ℤ} (hk : k.1 ≠ row) :
    scatter (writesOf n pair row) m k = m k := by
  apply scatter_of_forall_ne
  rintro w hw rfl
  exact hk (mem_writesOf hpair hw).1

/-- **The loop over the columns does to its row what `setPair` does.** -/
theorem scatter_writesOf (m : ℕ × ℤ → ℚ) :
    (fun j : ℕ => scatter (writesOf n pair row) m (row, j)) = setPair n pair fun j => m (row, j) := by
  unfold writesOf pairWrites setPair
  rw [Int.toNat_natCast]
  dsimp only
  generalize List.range pair.2 = l
  induction l generalizing m with
  | nil => rfl
  | cons i l ih =>
    rw [List.flatMap_cons, scatter_append, ih, List.foldl_cons]
    refine congrArg (fun row => l.foldl _ row) (funext fun j => ?_)
    have hcast : (pair.1 : ℤ) + pair.2 + i < n ↔ pair.1 + pair.2 + i < n := by omega
    have hfirst : (j : ℤ) = pair.1 + i ↔ j = pair.1 + i := by omega
    have hsecond : (j : ℤ) = pair.1 + pair.2 + i ↔ j = pair.1 + pair.2 + i := by omega
    by_cases hin : pair.1 + pair.2 + i < n
    · simp [scatter, Function.update_apply, hcast, hfirst, hsecond, hin, Halving.rest]
    · simp [scatter, Function.update_apply, hcast, hfirst, hin]

end Pairs

/-! ## One row after the other -/

section Rows

variable {n : ℕ} {pairs : List (ℕ × ℕ)} {row : ℕ}

/-- The writes for pairs of blocks, each to a row of its own. -/
def rowsOf (n : ℕ) : List (ℕ × ℕ) → ℕ → List Write
  | [], _ => []
  | pair :: pairs, row => writesOf n pair row ++ rowsOf n pairs (row + 1)

theorem rowsOf_append : ∀ (pairs pairs' : List (ℕ × ℕ)) (row : ℕ),
    rowsOf n (pairs ++ pairs') row = rowsOf n pairs row ++ rowsOf n pairs' (row + pairs.length)
  | [], _, _ => rfl
  | pair :: pairs, pairs', row => by
    rw [List.cons_append, rowsOf, rowsOf_append pairs pairs' (row + 1), rowsOf, List.append_assoc, List.length_cons,
      Nat.add_right_comm, Nat.add_assoc row]

/-- **The rows are those from `row` on, as many as there are pairs.** -/
theorem mem_rowsOf {w : Write} (hpairs : ∀ pair ∈ pairs, Halving.Pair n pair) (hw : w ∈ rowsOf n pairs row) :
    row ≤ w.1.1 ∧ w.1.1 < row + pairs.length ∧ 0 ≤ w.1.2 ∧ w.1.2 < n := by
  induction pairs generalizing row with
  | nil => exact absurd hw List.not_mem_nil
  | cons pair pairs ih =>
    rw [List.length_cons]
    rcases List.mem_append.1 hw with hw | hw
    · obtain ⟨hrow, hcolumn⟩ := mem_writesOf (hpairs _ List.mem_cons_self) hw
      exact ⟨hrow.ge, by omega, hcolumn⟩
    · obtain ⟨hge, hlt, hcolumn⟩ := ih (fun _ h => hpairs _ (List.mem_cons_of_mem _ h)) hw
      exact ⟨by omega, by omega, hcolumn⟩

theorem scatter_rowsOf_of_lt (hpairs : ∀ pair ∈ pairs, Halving.Pair n pair) {m : ℕ × ℤ → ℚ} {k : ℕ × ℤ}
    (hk : k.1 < row) : scatter (rowsOf n pairs row) m k = m k := by
  apply scatter_of_forall_ne
  rintro w hw rfl
  exact absurd (mem_rowsOf hpairs hw).1 (by omega)

/-- **Each row has what its own pair writes to it.** -/
theorem scatter_rowsOf (hpairs : ∀ pair ∈ pairs, Halving.Pair n pair) (m : ℕ × ℤ → ℚ) {i : ℕ}
    (hi : i < pairs.length) :
    (fun j : ℕ => scatter (rowsOf n pairs row) m (row + i, j)) = setPair n pairs[i] fun j => m (row + i, j) := by
  induction pairs generalizing row m i with
  | nil => exact absurd hi (Nat.not_lt_zero i)
  | cons pair pairs ih =>
    have hpair := hpairs _ List.mem_cons_self
    have hrest : ∀ pair ∈ pairs, Halving.Pair n pair := fun _ h => hpairs _ (List.mem_cons_of_mem _ h)
    rw [rowsOf]
    cases i with
    | zero =>
      refine Eq.trans (funext fun j => ?_) (scatter_writesOf m)
      rw [scatter_append, scatter_rowsOf_of_lt hrest (Nat.lt_succ_self row)]
      rfl
    | succ i =>
      have hrow : row + (i + 1) = row + 1 + i := by omega
      rw [List.getElem_cons_succ, hrow]
      simp only [scatter_append]
      rw [ih hrest _ (Nat.lt_of_succ_lt_succ hi)]
      congr 1
      ext j
      exact scatter_writesOf_of_ne hpair (by dsimp only; omega)

end Rows

/-! ## The loops -/

section Loops

variable {fits : ℤ → Prop} [DecidablePred fits] {n k : ℕ}

/-- **The loop over the pairs of one length.**  The offsets do not go beyond a power of two that `n` is not above. -/
theorem offsetLoop_eq (hfits : ∀ x : ℕ, x < 2 * 2 ^ k → fits x) (hk : n ≤ 2 ^ k) {length : ℕ}
    (hpos : 0 < length) (hdvd : 2 * length ∣ 2 ^ k) : ∀ (fuel offset basis_count : ℕ), 2 * length ∣ offset →
      offset ≤ 2 ^ k → 2 ^ k < offset + fuel →
      offsetLoop fits n length fuel offset basis_count =
        some (basis_count + (Halving.offsets n length offset).length,
          rowsOf n ((Halving.offsets n length offset).map (·, length)) basis_count)
  | 0, offset, _, _, hoffset, hfuel => by omega
  | fuel + 1, offset, basis_count, hstart, hoffset, hfuel => by
    have hhalf : 2 * length ≤ 2 ^ k := Nat.le_of_dvd (Nat.two_pow_pos k) hdvd
    have hsum : fits (offset + length) := by exact_mod_cast hfits (offset + length) (by omega)
    rw [offsetLoop, if_neg (not_not.2 hsum), Halving.offsets]
    by_cases hlt : offset + length < n
    · -- both are multiples of the length of the two blocks
      have hend : offset + 2 * length ≤ 2 ^ k :=
        Nat.le_of_lt_add_of_dvd (by omega) (hstart.add dvd_rfl) hdvd
      have hnext : fits (offset + 2 * length) := by exact_mod_cast hfits (offset + 2 * length) (by omega)
      have hleft : ((n - offset - length : ℕ) : ℤ) = n - offset - length := by omega
      have hrem : max (min ((n : ℤ) - offset - length) length) 0 = Halving.rest n (offset, length) := by
        rw [Halving.rest, Nat.cast_min, hleft]
        exact max_eq_left (le_min (by omega) (by omega))
      have hne : ((Halving.rest n (offset, length) : ℕ) : ℤ) ≠ 0 :=
        Nat.cast_ne_zero.2 (lt_min (by omega) hpos).ne'
      have hloop := offsetLoop_eq hfits hk hpos hdvd fuel (offset + 2 * length) (basis_count + 1)
        (hstart.add dvd_rfl) hend (by omega)
      push_cast at hloop
      rw [if_pos (show (offset + length : ℤ) < n by omega)]
      dsimp only
      rw [hrem, if_neg (not_or.2 ⟨hne, not_not.2 hnext⟩), hloop, Option.map_some, if_pos ⟨hpos, hlt⟩]
      rw [List.map_cons, rowsOf, writesOf, List.length_cons, Nat.add_right_comm, Nat.add_assoc basis_count]
    · rw [if_neg (by omega), if_neg fun h => hlt h.2]
      rfl

/-- **The loop over the lengths**, which are powers of two. -/
theorem blockLoop_eq (hfits : ∀ x : ℕ, x < 2 * 2 ^ k → fits x) (hk : n ≤ 2 ^ k) :
    ∀ (fuel e basis_count : ℕ), e ≤ k → 2 ^ k + k < e + fuel → blockLoop fits n fuel ((2 ^ e : ℕ) : ℤ) basis_count =
      some (basis_count + (Halving.pairs n (2 ^ e)).length, rowsOf n (Halving.pairs n (2 ^ e)) basis_count)
  | 0, e, _, he, hfuel => by
    have hpos := Nat.two_pow_pos k
    omega
  | fuel + 1, e, basis_count, he, hfuel => by
    have hpos := Nat.two_pow_pos e
    rw [blockLoop, Halving.pairs]
    by_cases hlt : 2 ^ e < n
    · have hek : e < k := (Nat.pow_lt_pow_iff_right (by decide)).1 (hlt.trans_le hk)
      have hdvd : 2 * 2 ^ e ∣ 2 ^ k := pow_succ' 2 e ▸ pow_dvd_pow 2 hek
      have hdouble : ((2 ^ e : ℕ) : ℤ) * 2 = ((2 ^ (e + 1) : ℕ) : ℤ) := by
        rw [pow_succ, Nat.cast_mul, Nat.cast_two]
      have hnext : fits ((2 ^ (e + 1) : ℕ) : ℤ) := by
        have hle : 2 ^ (e + 1) ≤ 2 ^ k := Nat.pow_le_pow_right two_pos hek
        exact hfits _ (by omega)
      have hinner := offsetLoop_eq hfits hk hpos hdvd fuel 0 basis_count (dvd_zero _) (Nat.zero_le _) (by omega)
      have houter := blockLoop_eq hfits hk fuel (e + 1)
        (basis_count + (Halving.offsets n (2 ^ e) 0).length) hek (by omega)
      rw [if_pos (Int.ofNat_lt.2 hlt), if_pos ⟨hpos, hlt⟩]
      rw [← Int.natCast_zero, hinner, Option.bind_some]
      dsimp only
      rw [hdouble, if_neg (not_not.2 hnext), houter, Option.map_some, rowsOf_append, List.length_append,
        List.length_map, Nat.add_assoc, pow_succ']
    · rw [if_neg (by omega), if_neg fun h => hlt h.2]
      rfl

/-- **The loops write a row for each of the pairs**, with counters of any type that has the numbers below twice a
power of two that `n` is not above. -/
theorem settles_baseLoop (hn : 0 < n) (hfits : ∀ x : ℕ, x < 2 * 2 ^ k → fits x) (hk : n ≤ 2 ^ k) :
    Settles (baseLoop fits n) (n - 1, rowsOf n (Halving.pairs n 1) 0) := by
  refine ⟨2 ^ k + k + 1, fun fuel hfuel => ?_⟩
  have hloop := blockLoop_eq hfits hk fuel 0 0 (Nat.zero_le k) (by omega)
  rw [Nat.zero_add, pow_zero, Halving.length_pairs hn] at hloop
  exact hloop

end Loops

/-! ## The basis -/

section Basis

variable {n : ℕ}

theorem forall_pair : ∀ pair ∈ Halving.pairs n 1, Halving.Pair n pair := fun _ h => (Halving.mem_pairs h).1

/-- **The rows are the vectors of the pairs.** -/
theorem nsRow_rowsOf {i : ℕ} (hi : i < (Halving.pairs n 1).length) :
    nsRow (rowsOf n (Halving.pairs n 1) 0) i = Halving.halves n (Halving.pairs n 1)[i] := by
  have hrow := @scatter_rowsOf n _ 0 forall_pair (fun _ => 0) i hi
  rw [Nat.zero_add] at hrow
  exact hrow.trans (setPair_eq (forall_pair _ (List.getElem_mem hi)))

theorem linearIndependent_rowsOf (hn : 0 < n) : LinearIndependent ℚ
    fun (i : Fin (n - 1 : ℤ).toNat) (j : Fin n) => nsRow (rowsOf n (Halving.pairs n 1) 0) i j := by
  have hindep : Elimination.Independent (Labels.firsts n) ((Halving.pairs n 1).map (Halving.halves n)) :=
    Labels.independent_of_halves fun _ _ _ _ => rfl
  have hlen : (n - 1 : ℤ).toNat = ((Halving.pairs n 1).map (Halving.halves n)).length := by
    rw [List.length_map, Halving.length_pairs hn]
    omega
  have hrows : ∀ i : Fin (n - 1 : ℤ).toNat, (fun j : Fin n => nsRow (rowsOf n (Halving.pairs n 1) 0) i j) =
      Labels.firsts n (((Halving.pairs n 1).map (Halving.halves n)).get (Fin.cast hlen i)) := by
    intro i
    have hi : (i : ℕ) < (Halving.pairs n 1).length := by
      rw [← List.length_map (Halving.halves n), ← hlen]
      exact i.isLt
    rw [nsRow_rowsOf hi, List.get_eq_getElem, List.getElem_map]
    rfl
  have hcomp := hindep.comp (Fin.cast hlen) (Fin.cast_injective hlen)
  exact (funext hrows) ▸ hcomp

theorem sumBasis_rowsOf (hn : 0 < n) : SumBasis n (rowsOf n (Halving.pairs n 1) 0) := by
  have hlen := Halving.length_pairs hn
  have hlt : ∀ i : ℕ, (i : ℤ) < n - 1 → i < (Halving.pairs n 1).length := fun i hi => by omega
  refine ⟨fun w hw => ?_, fun w hw => (mem_rowsOf forall_pair hw).2.2, fun i hi => ?_, fun i i' hi hi' hne => ?_,
    linearIndependent_rowsOf hn⟩
  · have hrow := (mem_rowsOf forall_pair hw).2.1
    omega
  · rw [nsRow_rowsOf (hlt i hi)]
    exact Halving.sum_halves (forall_pair _ (List.getElem_mem _))
  · rw [nsRow_rowsOf (hlt i hi), nsRow_rowsOf (hlt i' hi'), Int.toNat_natCast]
    have horth := List.pairwise_iff_getElem.1 (show (Halving.pairs n 1).Pairwise _ from Halving.pairs_orthogonal)
    rcases Nat.lt_or_gt_of_ne hne with hlt' | hlt'
    · exact horth i i' _ _ hlt'
    · simp only [mul_comm (Halving.halves n (Halving.pairs n 1)[i] _)]
      exact horth i' i _ _ hlt'

/-- **The base vectors of a sum**: for every number of columns, and with the counters of the source for every number
of them up to `2 ^ 30`. -/
theorem baseLoop_sumBasis {m : ℤ} (hm : 2 ≤ m) :
    ∃ ws, Settles (baseLoop (fun _ => True) m) ((m - 1).toNat, ws) ∧ SumBasis m ws ∧
      (m ≤ 2 ^ 30 → Settles (baseLoop IntType.int.Fits m) ((m - 1).toNat, ws)) := by
  lift m to ℕ using by omega with n
  have hn : 0 < n := by omega
  have hcount : ((n : ℤ) - 1).toNat = n - 1 := by omega
  rw [hcount]
  refine ⟨rowsOf n (Halving.pairs n 1) 0, settles_baseLoop hn (fun _ _ => trivial) Nat.lt_two_pow_self.le,
    sumBasis_rowsOf hn, fun hle => settles_baseLoop (k := 30) hn (fun x hlt => ?_) (by omega)⟩
  simp only [IntType.Fits, IntType.lowest, IntType.highest, IntType.int]
  omega

theorem baseLoop_sumBasis_three :
    ∃ ws, Settles (baseLoop IntType.int.Fits 3) (2, ws) ∧ SumBasis 3 ws := by
  obtain ⟨ws, -, hbasis, hint⟩ := baseLoop_sumBasis (m := 3) (by decide)
  exact ⟨ws, hint (by decide), hbasis⟩

end Basis

end Redux.Momfbd.Constraints
