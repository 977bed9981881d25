import Redux.Lib.Elimination
import Redux.Lib.Halving
import Redux.Lib.Transfer
import Redux.Momfbd.Blockify

/-!
# Momfbd.TiltBasis — the nullspace that is calculated for a group

With one free parameter the nullspace is a constant vector.  Otherwise `calculateNullspace` takes the longest row
for the sum of the tilts, and makes vectors for pairs of blocks of its columns.  Each of the other rows then gives
a column behind them the number of the one that it is tied to, and the vectors are made orthogonal.  This is a
basis if the matrix is that of a tilt whose sum has all its columns in front (`Tilts.valid`).
-/

namespace Redux.Momfbd.Constraints

open Redux.Lib

/-! ## Model -/

/-- The writes to a row of `nsArr` for a pair of blocks, given by `offset` and `block_length`. -/
def setPair (max_element_count : ℕ) (pair : ℕ × ℕ) (row : ℕ → ℚ) : ℕ → ℚ :=
  let rem := min (max_element_count - pair.1 - pair.2) pair.2
  (List.range pair.2).foldl (fun row i =>
    let row := Function.update row (pair.1 + i) 1
    if pair.1 + pair.2 + i < max_element_count then
      Function.update row (pair.1 + pair.2 + i) (-pair.2 * 1 / rem)
    else row) row

/-- The multiple of the row `v` that is taken out of the row `w`. -/
def scalarProduct (n : ℕ) (v w : ℕ → ℚ) : ℚ :=
  (∑ k ∈ Finset.range n, v k * w k) / ∑ k ∈ Finset.range n, v k * v k

namespace Labels

variable (l : Labels)

/-- `this_element_count` of a row. -/
def elementCount (i : ℕ) : ℕ := (List.range l.nParameters.toNat).countP fun j => l.C i j ≠ 0

/-- `row_index` and `max_element_count`. -/
def longestRow : ℕ × ℕ :=
  (List.range l.nConstraints.toNat).foldl
    (fun best i => if l.elementCount i > best.2 then (i, l.elementCount i) else best) (0, 0)

/-- The base vectors of the sum, followed by zeros: none if there are not enough rows for them in `nsArr`. -/
def baseVectors (max_element_count : ℕ) : Option (List (ℕ → ℚ)) :=
  let pairs := Halving.pairs max_element_count 1
  if pairs.length ≤ l.nFree.toNat then
    some (pairs.map (fun pair => setPair max_element_count pair 0) ++
      List.replicate (l.nFree.toNat - pairs.length) 0)
  else none

/-- The loop over the other non-zero values of a row of `C`. -/
def followRow (row_index j : ℕ) (ns_val : ℚ) (row : ℕ → ℚ) (k : ℕ) : ℕ → ℚ :=
  if k ≠ row_index ∧ l.C k j ≠ 0 then
    (List.range l.nParameters.toNat).foldl (fun row p =>
      if p ≠ j ∧ l.C k p ≠ 0 then Function.update row p (-l.C k j * ns_val / l.C k p) else row) row
  else row

def followColumn (row_index : ℕ) (row : ℕ → ℚ) (j : ℕ) : ℕ → ℚ :=
  let ns_val := row j
  if ns_val ≠ 0 then
    (List.range l.nConstraints.toNat).foldl (fun row k => l.followRow row_index j ns_val row k) row
  else row

/-- The numbers of the columns that are not in the sum. -/
def follow (row_index max_element_count : ℕ) (row : ℕ → ℚ) : ℕ → ℚ :=
  (List.range max_element_count).foldl (fun row j => l.followColumn row_index row j) row

/-- `calculateNullspace` in exact arithmetic, without the scaling: the columns of `ns`. -/
def calculateNullspace : Option (List (ℕ → ℚ)) :=
  if l.nFree < 1 then some []
  else if l.nFree = 1 then some [fun _ => 1]
  else
    (l.baseVectors l.longestRow.2).map fun nsArr =>
      Elimination.eliminate (scalarProduct l.nParameters.toNat)
        (nsArr.map (l.follow l.longestRow.1 l.longestRow.2))

/-- A nullspace has its columns, each of which solves the constraints, and they are independent. -/
def NullSpaceValid : Prop :=
  ∃ ns, l.calculateNullspace = some ns ∧ ns.length = l.nFree.toNat ∧ (∀ v ∈ ns, l.Solves v) ∧
    LinearIndependent ℚ fun (i : Fin ns.length) (j : Fin l.nParameters.toNat) => ns.get i j

end Labels

/-! ## The vector of a pair -/

section Pairs

open Halving

variable {n : ℕ} {pair : ℕ × ℕ}

/-- **The writes for a pair of blocks.** -/
theorem setPair_eq (hpair : Pair n pair) : setPair n pair 0 = halves n pair := by
  have hlt := hpair.lt
  let c : ℚ := -pair.2 / rest n pair
  have hwrites : ∀ t ≤ pair.2, (List.range t).foldl (fun (row : ℕ → ℚ) i =>
      if pair.1 + pair.2 + i < n then
        Function.update (Function.update row (pair.1 + i) 1) (pair.1 + pair.2 + i) c
      else Function.update row (pair.1 + i) 1) 0 = fun j =>
        if pair.1 ≤ j ∧ j < pair.1 + t then 1
        else if pair.1 + pair.2 ≤ j ∧ j < pair.1 + pair.2 + t ∧ j < n then c else 0 := by
    intro t
    induction t with
    | zero =>
      intro _
      funext j
      rw [if_neg (by omega), if_neg (by omega)]
      rfl
    | succ t ih =>
      intro ht
      rw [List.range_succ, List.foldl_append, List.foldl_cons, List.foldl_nil, ih (by omega)]
      funext j
      by_cases hin : pair.1 + pair.2 + t < n
      · simp only [if_pos hin, Function.update_apply]
        split_ifs <;> first | rfl | omega
      · simp only [if_neg hin, Function.update_apply]
        split_ifs <;> first | rfl | omega
  have hall := hwrites pair.2 le_rfl
  have hmul : (-pair.2 * 1 / rest n pair : ℚ) = c := by rw [mul_one]
  unfold setPair
  dsimp only
  rw [← rest, hmul, hall]
  funext j
  refine if_congr Iff.rfl rfl (if_congr ?_ rfl rfl)
  omega

end Pairs

/-! ## The matrix of a tilt -/

namespace Labels

/-- One row is the sum of the first `n` columns; each other row `k` ties a column behind them, `other k`, to one of
them, `rep (other k)`. -/
structure Tilts (l : Labels) (r n : ℕ) (other rep : ℕ → ℕ) : Prop where
  row_lt : r < l.nConstraints.toNat
  le : n ≤ l.nParameters.toNat
  sum : ∀ j < l.nParameters.toNat, l.C r j = if j < n then 1 else 0
  other_mem : ∀ k < l.nConstraints.toNat, k ≠ r → n ≤ other k ∧ other k < l.nParameters.toNat
  pair : ∀ k < l.nConstraints.toNat, k ≠ r → ∀ j < l.nParameters.toNat,
    l.C k j = if j = rep (other k) then 1 else if j = other k then -1 else 0
  rep_lt : ∀ q, n ≤ q → q < l.nParameters.toNat → rep q < n
  onto : ∀ q, n ≤ q → q < l.nParameters.toNat → ∃ k < l.nConstraints.toNat, k ≠ r ∧ other k = q

section Follow

variable {l : Labels} {r n : ℕ} {other rep : ℕ → ℕ} {v row : ℕ → ℚ} {x : ℚ} {j k p : ℕ}

namespace Tilts

/-- A row with a value in a column of the sum writes to the column that it ties to it. -/
theorem followRow_eq (h : l.Tilts r n other rep) (hk : k < l.nConstraints.toNat) (hj : j < n) :
    l.followRow r j x row k =
      if k ≠ r ∧ rep (other k) = j then Function.update row (other k) x else row := by
  have hjn := hj.trans_le h.le
  by_cases hkr : k = r
  · rw [followRow, if_neg fun hand => hand.1 hkr, if_neg fun hand => hand.1 hkr]
  obtain ⟨hge, hlt⟩ := h.other_mem k hk hkr
  have hC : l.C k j ≠ 0 ↔ rep (other k) = j := by
    rw [h.pair k hk hkr j hjn, if_neg (show j ≠ other k by omega)]
    split_ifs with hrep
    · exact iff_of_true one_ne_zero hrep.symm
    · exact iff_of_false (not_not.2 rfl) fun heq => hrep heq.symm
  by_cases hrep : rep (other k) = j
  · have hone : l.C k j = 1 := by rw [h.pair k hk hkr j hjn, if_pos hrep.symm]
    rw [followRow, if_pos ⟨hkr, hC.2 hrep⟩, if_pos ⟨hkr, hrep⟩, hone]
    funext p
    refine (@foldl_write_if _ _ _ row p _ _ _ id (fun p => -((1 : ℤ) : ℚ) * x / l.C k p) _).trans ?_
    by_cases hp : p = other k
    · have hval : l.C k p = -1 := by
        rw [h.pair k hk hkr p (hp ▸ hlt), if_neg (by omega), if_pos hp]
      rw [if_pos ⟨p, List.mem_range.2 (hp ▸ hlt), ⟨by omega, by rw [hval]; decide⟩, rfl⟩, hval, hp,
        Function.update_self]
      simp
    · rw [Function.update_of_ne hp, if_neg]
      rintro ⟨q, hq, ⟨hqj, hne⟩, rfl⟩
      rw [h.pair k hk hkr q (List.mem_range.1 hq), hrep, if_neg hqj, if_neg (show ¬q = other k from hp)] at hne
      exact hne rfl
  · rw [followRow, if_neg fun hand => hrep (hC.1 hand.2), if_neg fun hand => hrep hand.2]

/-- **A column of the sum gives its number to those that are tied to it.** -/
theorem followColumn_eq (h : l.Tilts r n other rep) (hj : j < n)
    (hzero : ∀ p, n ≤ p → p < l.nParameters.toNat → rep p = j → row p = 0) :
    l.followColumn r row j =
      fun p => if n ≤ p ∧ p < l.nParameters.toNat ∧ rep p = j then row j else row p := by
  unfold followColumn
  dsimp only
  split_ifs with hne
  · rw [List.foldl_ext _ (fun m k => if k ≠ r ∧ rep (other k) = j then Function.update m (other k) (row j) else m) row
      fun m k hk => h.followRow_eq (List.mem_range.1 hk) hj]
    funext p
    refine (@foldl_write_if _ _ _ row p _ _ _ other (fun _ => row j) _).trans (if_congr ?_ rfl rfl)
    constructor
    · rintro ⟨k, hk, ⟨hkr, hrep⟩, rfl⟩
      obtain ⟨hge, hlt⟩ := h.other_mem k (List.mem_range.1 hk) hkr
      exact ⟨hge, hlt, hrep⟩
    · rintro ⟨hge, hlt, hrep⟩
      obtain ⟨k, hk, hkr, rfl⟩ := h.onto p hge hlt
      exact ⟨k, List.mem_range.2 hk, ⟨hkr, hrep⟩, rfl⟩
  · funext p
    split_ifs with hp
    · rw [hzero p hp.1 hp.2.1 hp.2.2, not_not.1 hne]
    · rfl

/-- **All columns behind the sum have the numbers of those that they are tied to.** -/
theorem follow_eq (h : l.Tilts r n other rep) (hv : ∀ p, n ≤ p → v p = 0) :
    l.follow r n v = fun p => if n ≤ p ∧ p < l.nParameters.toNat then v (rep p) else v p := by
  have hloop : ∀ t ≤ n, (List.range t).foldl (fun row j => l.followColumn r row j) v =
      fun p => if n ≤ p ∧ p < l.nParameters.toNat ∧ rep p < t then v (rep p) else v p := by
    intro t
    induction t with
    | zero =>
      intro _
      funext p
      exact (if_neg fun hp => absurd hp.2.2 (Nat.not_lt_zero _)).symm
    | succ t ih =>
      intro ht
      rw [List.range_succ, List.foldl_append, List.foldl_cons, List.foldl_nil, ih (by omega), h.followColumn_eq ht]
      · funext p
        rw [if_neg (show ¬(n ≤ t ∧ t < l.nParameters.toNat ∧ rep t < t) by omega)]
        by_cases hp : n ≤ p ∧ p < l.nParameters.toNat
        · rcases lt_trichotomy (rep p) t with hlt | heq | hgt
          · rw [if_neg (by omega), if_pos (by omega), if_pos (by omega)]
          · rw [if_pos (by omega), if_pos (by omega), heq]
          · rw [if_neg (by omega), if_neg (by omega), if_neg (by omega)]
        · rw [if_neg (by omega), if_neg (by omega), if_neg (by omega)]
      · intro p hge hlt hrep
        rw [if_neg (by omega), hv p hge]
  rw [follow, hloop n le_rfl]
  funext p
  exact if_congr ⟨fun hp => ⟨hp.1, hp.2.1⟩, fun hp => ⟨hp.1, hp.2, h.rep_lt p hp.1 hp.2⟩⟩ rfl rfl

/-- **Numbers of the sum that add up to zero become a solution.** -/
theorem solves_follow (h : l.Tilts r n other rep) (hv : ∀ p, n ≤ p → v p = 0)
    (hsum : ∑ j ∈ Finset.range n, v j = 0) : l.Solves (l.follow r n v) := by
  rw [h.follow_eq hv]
  intro k hk
  by_cases hkr : k = r
  · subst hkr
    rw [← hsum, ← Finset.sum_subset (Finset.range_subset_range.2 h.le)]
    · refine Finset.sum_congr rfl fun j hj => ?_
      have hlt := Finset.mem_range.1 hj
      rw [h.sum j (hlt.trans_le h.le), if_pos hlt, Int.cast_one, one_mul]
      exact if_neg (by omega)
    · intro j hj hjn
      rw [h.sum j (Finset.mem_range.1 hj), if_neg fun hlt => hjn (Finset.mem_range.2 hlt), Int.cast_zero, zero_mul]
  · obtain ⟨hge, hlt⟩ := h.other_mem k hk hkr
    have hrep := h.rep_lt _ hge hlt
    have hterm : ∀ j ∈ Finset.range l.nParameters.toNat, (l.C k j : ℚ) *
        (if n ≤ j ∧ j < l.nParameters.toNat then v (rep j) else v j) =
          (if j = rep (other k) then v (rep (other k)) else 0) - if j = other k then v (rep (other k)) else 0 := by
      intro j hj
      rw [h.pair k hk hkr j (Finset.mem_range.1 hj)]
      rcases eq_or_ne j (other k) with rfl | hne
      · rw [if_neg (by omega), if_pos rfl, if_pos ⟨hge, hlt⟩, if_neg (by omega), if_pos rfl]
        simp
      · rcases eq_or_ne j (rep (other k)) with rfl | hne'
        · rw [if_pos rfl, if_neg (by omega), if_pos rfl, if_neg hne]
          simp
        · rw [if_neg hne', if_neg hne, if_neg hne', if_neg hne]
          simp
    rw [Finset.sum_congr rfl hterm, Finset.sum_sub_distrib, Finset.sum_ite_eq', Finset.sum_ite_eq',
      if_pos (Finset.mem_range.2 (hrep.trans_le h.le)), if_pos (Finset.mem_range.2 hlt), sub_self]

end Tilts

end Follow

/-! ## The basis -/

section Basis

variable {l : Labels} {r n : ℕ} {other rep : ℕ → ℕ}

/-- The solutions of the constraints. -/
def solutions (l : Labels) : Submodule ℚ (ℕ → ℚ) where
  carrier := { v | l.Solves v }
  zero_mem' i _ := Finset.sum_eq_zero fun j _ => mul_zero _
  add_mem' {v w} hv hw i hi := by
    simp only [Pi.add_apply, mul_add, Finset.sum_add_distrib]
    rw [hv i hi, hw i hi, add_zero]
  smul_mem' c v hv i hi := by
    simp only [Pi.smul_apply, smul_eq_mul, mul_left_comm _ c, ← Finset.mul_sum]
    rw [hv i hi, mul_zero]

/-- The first `n` numbers. -/
def firsts (n : ℕ) : (ℕ → ℚ) →ₗ[ℚ] Fin n → ℚ := LinearMap.funLeft ℚ ℚ Fin.val

/-- **With enough rows the base vectors are those of the pairs**, and the rows that are left are zero. -/
theorem baseVectors_eq (h : (Halving.pairs n 1).length = l.nFree.toNat) :
    l.baseVectors n = some ((Halving.pairs n 1).map (Halving.halves n)) := by
  rw [baseVectors, if_pos h.le, h, Nat.sub_self, List.replicate_zero, List.append_nil]
  exact congrArg some (List.map_congr_left fun pair hpair => setPair_eq (Halving.mem_pairs hpair).1)

theorem halves_eq_zero {pair : ℕ × ℕ} (hpair : pair ∈ Halving.pairs n 1) {p : ℕ} (hp : n ≤ p) :
    Halving.halves n pair p = 0 :=
  Halving.halves_outside (.inr (.inr hp)) (Halving.mem_pairs hpair).1

/-- Vectors that are those of the pairs in the first `n` columns are orthogonal there. -/
theorem independent_of_halves {v : ℕ × ℕ → ℕ → ℚ}
    (hv : ∀ pair ∈ Halving.pairs n 1, ∀ j < n, v pair j = Halving.halves n pair j) :
    Elimination.Independent (firsts n) ((Halving.pairs n 1).map v) := by
  refine Elimination.Independent.of_orthogonal ?_ (List.pairwise_map.2 ?_)
  · intro w hw hzero
    obtain ⟨pair, hpair, rfl⟩ := List.mem_map.1 hw
    have hp := (Halving.mem_pairs hpair).1
    have hlt : pair.1 < n := (Nat.le_add_right _ _).trans_lt hp.lt
    have hone : v pair pair.1 = 0 := congrFun hzero ⟨pair.1, hlt⟩
    rw [hv pair hpair _ hlt, Halving.halves_ne_zero hp] at hone
    exact one_ne_zero hone
  · refine Halving.pairs_orthogonal.imp_of_mem fun {small large} hsmall hlarge horth => ?_
    have hdot : firsts n (v small) ⬝ᵥ firsts n (v large) =
        ∑ j : Fin n, Halving.halves n small j * Halving.halves n large j :=
      Finset.sum_congr rfl fun j _ => congrArg₂ (· * ·) (hv small hsmall j j.isLt) (hv large hlarge j j.isLt)
    rw [hdot, Fin.sum_univ_eq_sum_range fun j => Halving.halves n small j * Halving.halves n large j, horth]

namespace Tilts

theorem follow_of_lt (h : l.Tilts r n other rep) {pair : ℕ × ℕ} (hpair : pair ∈ Halving.pairs n 1) {j : ℕ}
    (hj : j < n) : l.follow r n (Halving.halves n pair) j = Halving.halves n pair j := by
  rw [h.follow_eq fun p hp => halves_eq_zero hpair hp]
  exact if_neg (by omega)

/-- The vectors are orthogonal in the columns of the sum. -/
theorem independent_follow (h : l.Tilts r n other rep) : Elimination.Independent (firsts n)
    ((Halving.pairs n 1).map fun pair => l.follow r n (Halving.halves n pair)) :=
  independent_of_halves fun _ hpair _ hj => h.follow_of_lt hpair hj

/-- **The nullspace of a tilt.** -/
theorem valid (h : l.Tilts r n other rep) (hlongest : l.longestRow = (r, n)) (hfree : l.nFree = n - 1)
    (hn : 3 ≤ n) : l.NullSpaceValid := by
  have hlen : (Halving.pairs n 1).length = l.nFree.toNat := by
    rw [Halving.length_pairs (by omega), hfree]
    omega
  have hns : l.calculateNullspace = some (Elimination.eliminate (scalarProduct l.nParameters.toNat)
      ((Halving.pairs n 1).map fun pair => l.follow r n (Halving.halves n pair))) := by
    rw [calculateNullspace, if_neg (by omega), if_neg (by omega), hlongest, baseVectors_eq hlen, Option.map_some,
      List.map_map]
    rfl
  refine ⟨_, hns, ?_, ?_, ?_⟩
  · rw [Elimination.length_eliminate, List.length_map, hlen]
  · refine Elimination.mem_of_eliminate (S := l.solutions) fun v hv => ?_
    obtain ⟨pair, hpair, rfl⟩ := List.mem_map.1 hv
    exact h.solves_follow (fun p hp => halves_eq_zero hpair hp) (Halving.sum_halves (Halving.mem_pairs hpair).1)
  · have hindep : Elimination.Independent (firsts n) (Elimination.eliminate (scalarProduct l.nParameters.toNat)
        ((Halving.pairs n 1).map fun pair => l.follow r n (Halving.halves n pair))) := h.independent_follow.eliminate
    exact LinearIndependent.of_comp (LinearMap.funLeft ℚ ℚ (Fin.castLE h.le)) hindep

end Tilts

end Basis

/-! ## Other matrices -/

section Shortcuts

variable {l : Labels} {r n : ℕ}

/-- **The row with the most elements is found**, if there is only one. -/
theorem longestRow_eq (hr : r < l.nConstraints.toNat) (hpos : 0 < n) (hcount : l.elementCount r = n)
    (hless : ∀ k < l.nConstraints.toNat, k ≠ r → l.elementCount k < n) : l.longestRow = (r, n) := by
  have hloop : ∀ t ≤ l.nConstraints.toNat, ∀ best, (List.range t).foldl
      (fun best i => if l.elementCount i > best.2 then (i, l.elementCount i) else best) (0, 0) = best →
        (r < t → best = (r, n)) ∧ (t ≤ r → best.2 < n) := by
    intro t
    induction t with
    | zero =>
      rintro _ _ rfl
      exact ⟨fun h => absurd h (Nat.not_lt_zero r), fun _ => hpos⟩
    | succ t ih =>
      rintro ht _ rfl
      obtain ⟨hafter, hbefore⟩ := ih (by omega) _ rfl
      rw [List.range_succ, List.foldl_append, List.foldl_cons, List.foldl_nil]
      rcases lt_trichotomy r t with hlt | rfl | hgt
      · rw [hafter hlt, if_neg (hless t ht hlt.ne').le.not_gt]
        exact ⟨fun _ => rfl, fun h => absurd h (by omega)⟩
      · rw [if_pos (hcount.symm ▸ hbefore le_rfl), hcount]
        exact ⟨fun _ => rfl, fun h => absurd h (by omega)⟩
      · refine ⟨fun h => absurd h (by omega), fun _ => ?_⟩
        split_ifs
        · exact hless t ht hgt.ne
        · exact hbefore hgt.le
  exact (hloop _ le_rfl _ rfl).1 hr

/-- **With one free parameter the constant has to be a solution.** -/
theorem valid_iff_of_one (hpos : 0 < l.nParameters) (hfree : l.nFree = 1) :
    l.NullSpaceValid ↔ l.Solves fun _ => 1 := by
  have hns : l.calculateNullspace = some [fun _ => 1] := by
    rw [calculateNullspace, if_neg (by omega), if_pos hfree]
  constructor
  · rintro ⟨ns, heq, -, hsolves, -⟩
    obtain rfl := Option.some.inj (hns.symm.trans heq)
    exact hsolves _ (List.mem_singleton_self _)
  · intro hsolves
    refine ⟨_, hns, by rw [hfree]; rfl, List.forall_mem_singleton.2 hsolves, ?_⟩
    show LinearIndependent ℚ fun (i : Fin 1) (j : Fin l.nParameters.toNat) => [fun _ : ℕ => (1 : ℚ)].get i j
    refine LinearIndependent.of_subsingleton 0 fun hzero => one_ne_zero (α := ℚ) ?_
    exact congrFun hzero ⟨0, by omega⟩

/-- **Too many base vectors are written behind the rows.** -/
theorem not_valid_of_lt (hfree : 2 ≤ l.nFree) (h : l.nFree < (l.longestRow.2 : ℤ) - 1) : ¬ l.NullSpaceValid := by
  rintro ⟨ns, heq, -⟩
  have hmany : ¬ (Halving.pairs l.longestRow.2 1).length ≤ l.nFree.toNat := by
    rw [Halving.length_pairs (by omega)]
    omega
  rw [calculateNullspace, if_neg (by omega), if_neg (by omega), baseVectors, if_neg hmany, Option.map_none] at heq
  exact absurd heq.symm (Option.some_ne_none _)

end Shortcuts

end Labels

end Redux.Momfbd.Constraints
