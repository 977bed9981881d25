import Redux.Image.Noll
import Redux.Lib.Gather
import Redux.Lib.Scatter
import Mathlib.Algebra.Order.Group.Unbundled.Abs
import Mathlib.Algebra.Ring.Defs
import Mathlib.Data.Set.Function

/-!
# Image.KarhunenLoeve — the covariances of the Zernike modes, block by block

`karhunenLoeveExpansion` reorders the modes so that those with a covariance stand together, takes the blocks from
where neighbours have none, and gives every mode the weights and the singular value that the decomposition of its
block has for its position.  The blocks are the classes of modes with the same azimuthal number, and piston
(`karhunenLoeve_decomposition`).
-/

namespace Redux.Image.Zernike

open Redux.Lib Redux.Lib.Gather Redux.Lib.Scatter

/-! ## Model -/

section Covariance

variable {R : Type*} [Zero R] (formula : ℕ → ℕ → ℕ → R)

/-- `calcCovariance` of radial and azimuthal numbers.  The formula for equal azimuthal numbers is a parameter, of
the first radial number, the azimuthal one and the second radial one. -/
def calcCovarianceNM (n₁ m₁ n₂ m₂ : ℕ) : R := if m₁ ≠ m₂ then 0 else formula n₁ m₁ n₂

/-- `calcCovariance` of two modes. -/
def calcCovariance (i j : ℕ) : R :=
  if i < 2 ∨ j < 2 then 0
  else if (NollToNM i).2 ≠ 0 ∧ (i + j) % 2 = 1 then 0
  else calcCovarianceNM formula (NollToNM i).1 (NollToNM i).2.natAbs (NollToNM j).1 (NollToNM j).2.natAbs

def getCovariance (i j : ℕ) : R := calcCovariance formula (min i j) (max i j)

end Covariance

/-- `Zernike::KL`. -/
structure KL (R : Type*) where
  id : ℕ
  zernikeWeights : List (ℕ × R)
  covariance : R

/-- What the expansion is computed from: the formula of the covariance, the decomposition of a matrix of a size into
singular values and the matrix that takes its place, and the first and the last mode. -/
structure Expansion (R : Type*) where
  formula : ℕ → ℕ → ℕ → R
  svd : ℕ → (ℕ → ℕ → R) → (ℕ → R) × (ℕ → ℕ → R)
  (first_mode last_mode : ℕ)

namespace Expansion

variable {R : Type*} [Ring R] [LinearOrder R] (e : Expansion R)

/-- The mode at each position. -/
def mapping : ℕ → ℕ := gather (getCovariance e.formula) e.first_mode e.last_mode id

/-- The positions, or the modes. -/
def modes : List ℕ := List.range' e.first_mode (e.last_mode + 1 - e.first_mode)

/-- The position of each mode. -/
def reverse_mapping : ℕ → Option ℕ := scatter (e.modes.map fun p => (e.mapping p, some p)) fun _ => none

/-- The covariance of a position and the one before. -/
def values (p : ℕ) : R := getCovariance e.formula (e.mapping (p - 1)) (e.mapping p)

def nBlocks : ℕ := breaks e.values e.last_mode e.first_mode + 1

/-- `first_in_block` and `last_in_block`. -/
def blocks : List (ℕ × ℕ) := runs e.values e.last_mode e.nBlocks e.first_mode

/-- `blockMatrix[b]`: the diagonal, the elements next to it, which are in `values`, and the rest. -/
def blockMatrix (b : ℕ × ℕ) (r s : ℕ) : R :=
  if r = s then getCovariance e.formula (e.mapping (b.1 + r)) (e.mapping (b.1 + r))
  else if r + 1 = s then e.values (b.1 + s)
  else if s + 1 = r then e.values (b.1 + r)
  else getCovariance e.formula (e.mapping (b.1 + min r s)) (e.mapping (b.1 + max r s))

/-- The singular values of a block, and what `blockMatrix[b]` then is. -/
def decomposed (b : ℕ × ℕ) : (ℕ → R) × (ℕ → ℕ → R) :=
  if 1 < size b then e.svd (size b) (e.blockMatrix b) else (fun _ => e.blockMatrix b 0 0, fun _ _ => 1)

def singular_values : List R := e.blocks.flatMap fun b => (List.range (size b)).map (e.decomposed b).1

/-- The sign of the largest coefficient, the first of them. -/
def sign (coefficients : List R) : R :=
  (coefficients.foldl (fun st c => if st.1 < |c| then (|c|, if c < 0 then -1 else 1) else st) ((0, 1) : R × R)).2

/-- The coefficients of the mode at position `im` of block `b`. -/
def column (b : ℕ × ℕ) (im : ℕ) : List R := (List.range (size b)).map fun r => (e.decomposed b).2 r (im - b.1)

/-- `zernikeWeights` of the mode at position `im` of block `b`. -/
def weights (b : ℕ × ℕ) (im : ℕ) : List (ℕ × R) := (List.range (size b)).map fun r =>
  (e.mapping (b.1 + r), sign (e.column b im) * (e.decomposed b).2 r (im - b.1))

/-- `kle[i]`. -/
def karhunenLoeveExpansion (i : ℕ) : Option (KL R) :=
  (e.reverse_mapping i).bind fun im =>
    (e.blocks.find? fun b => b.1 ≤ im ∧ im ≤ b.2).bind fun b =>
      e.singular_values[im - e.first_mode]?.map fun covariance => ⟨i, e.weights b im, covariance⟩

/-! ## What it should be -/

/-- The modes that have a covariance with each other: those with the same azimuthal number, its sign telling sines
and cosines apart.  Piston is on its own. -/
def modeClass (j : ℕ) : Option ℤ := if j < 2 then none else some (NollToNM j).2

/-- The covariances that the modes of a block have with each other. -/
def covariances (b : ℕ × ℕ) (r s : ℕ) : R := getCovariance e.formula (e.mapping (b.1 + r)) (e.mapping (b.1 + s))

/-- **The modes are decomposed class by class.** -/
structure Decomposition : Prop where
  /-- The modes are reordered. -/
  permutation : Set.BijOn e.mapping (Set.Icc e.first_mode e.last_mode) (Set.Icc e.first_mode e.last_mode)
  /-- Those of a class stand together. -/
  contiguous : ∀ p q r, e.first_mode ≤ p → p ≤ q → q ≤ r → r ≤ e.last_mode →
    modeClass (e.mapping p) = modeClass (e.mapping r) → modeClass (e.mapping q) = modeClass (e.mapping p)
  /-- Every block is a class. -/
  blocks_classes : ∀ b ∈ e.blocks, e.first_mode ≤ b.1 ∧ b.1 ≤ b.2 ∧ b.2 ≤ e.last_mode ∧
    ∀ q, e.first_mode ≤ q → q ≤ e.last_mode →
      (modeClass (e.mapping q) = modeClass (e.mapping b.1) ↔ b.1 ≤ q ∧ q ≤ b.2)
  blocks_apart : e.blocks.Pairwise fun b b' => b.2 < b'.1
  /-- What is decomposed are the covariances of the class; a mode on its own keeps its covariance. -/
  decompositions : ∀ b ∈ e.blocks, e.decomposed b =
    if 1 < size b then e.svd (size b) (e.covariances b) else (fun _ => e.covariances b 0 0, fun _ _ => 1)
  /-- Every mode has the weights of its class and the covariance, both from its own position in the block. -/
  expansions : ∀ i, e.first_mode ≤ i → i ≤ e.last_mode → ∃ kl p b, e.karhunenLoeveExpansion i = some kl ∧ kl.id = i ∧
    e.mapping p = i ∧ b ∈ e.blocks ∧ b.1 ≤ p ∧ p ≤ b.2 ∧
    (kl.zernikeWeights.map Prod.fst).Perm (e.modes.filter fun j => modeClass j = modeClass i) ∧
    kl.zernikeWeights = e.weights b p ∧ kl.covariance = (e.decomposed b).1 (p - b.1)

/-- The formula is not zero for two modes of a class. -/
def Nonvanishing (formula : ℕ → ℕ → ℕ → R) : Prop :=
  ∀ i j, 2 ≤ i → 2 ≤ j → (NollToNM i).2 = (NollToNM j).2 →
    formula (NollToNM i).1 (NollToNM i).2.natAbs (NollToNM j).1 ≠ 0

/-! ## The covariance of two modes -/

section Classes

variable {formula : ℕ → ℕ → ℕ → R} {i j : ℕ}

/-- The azimuthal number of a mode that a `uint16_t` can name. -/
theorem azimuthal_eq (hpos : 1 ≤ j) (hj : j < 65535) :
    ∃ o : ℕ, (NollToNM j).2 = if j % 2 = 1 then -(o : ℤ) else o := by
  obtain ⟨n, k, h⟩ := exists_stands hpos
  rw [NollToNM_eq h (row_lt_of_le h (by omega))]
  exact ⟨order n k, rfl⟩

omit [LinearOrder R] in
/-- **Of two modes, the covariance is not zero exactly if they have the same azimuthal number.** -/
theorem calcCovariance_ne_zero_iff (hf : Nonvanishing formula) (hi : 2 ≤ i) (hj : 2 ≤ j) (hi' : i < 65535)
    (hj' : j < 65535) : calcCovariance formula i j ≠ 0 ↔ (NollToNM i).2 = (NollToNM j).2 := by
  obtain ⟨o, ho⟩ := azimuthal_eq (show 1 ≤ i by omega) hi'
  obtain ⟨o', ho'⟩ := azimuthal_eq (show 1 ≤ j by omega) hj'
  rw [calcCovariance, if_neg (by omega)]
  by_cases hparity : (NollToNM i).2 ≠ 0 ∧ (i + j) % 2 = 1
  · rw [if_pos hparity]
    refine iff_of_false (fun h => h rfl) fun heq => hparity.1 ?_
    rw [ho, ho'] at heq
    rw [ho]
    split_ifs at heq ⊢ <;> omega
  · rw [if_neg hparity, calcCovarianceNM]
    by_cases habs : (NollToNM i).2.natAbs ≠ (NollToNM j).2.natAbs
    · rw [if_pos habs]
      exact iff_of_false (fun h => h rfl) fun heq => habs (congrArg Int.natAbs heq)
    · rw [if_neg habs]
      have heq : (NollToNM i).2 = (NollToNM j).2 := by
        rw [ho, ho'] at habs ⊢
        rw [ho] at hparity
        split_ifs at habs hparity ⊢ <;> omega
      exact iff_of_true (hf i j hi hj heq) heq

omit [LinearOrder R] in
/-- **Different modes have a covariance exactly if they are of the same class.** -/
theorem getCovariance_ne_zero_iff (hf : Nonvanishing formula) (hi : 1 ≤ i) (hj : 1 ≤ j) (hi' : i < 65535)
    (hj' : j < 65535) (hne : i ≠ j) : getCovariance formula i j ≠ 0 ↔ modeClass i = modeClass j := by
  rw [getCovariance]
  by_cases hpiston : i < 2 ∨ j < 2
  · have hzero : calcCovariance formula (min i j) (max i j) = 0 := if_pos (by omega)
    rw [hzero]
    refine iff_of_false (fun h => h rfl) fun heq => ?_
    rw [modeClass, modeClass] at heq
    split_ifs at heq <;> omega
  · rw [calcCovariance_ne_zero_iff hf (by omega) (by omega) (by omega) (by omega), modeClass, modeClass,
      if_neg (by omega), if_neg (by omega), Option.some.injEq]
    rcases le_total i j with hle | hle
    · rw [min_eq_left hle, max_eq_right hle]
    · rw [min_eq_right hle, max_eq_left hle, eq_comm]

end Classes

/-! ## The positions of the modes -/

section Positions

variable {e} {i p q : ℕ}

/-- The range of modes that the functions are called with. -/
structure InRange (e : Expansion R) : Prop where
  first : 1 ≤ e.first_mode
  le : e.first_mode ≤ e.last_mode
  last : e.last_mode < 65535

omit [Ring R] [LinearOrder R] in
theorem mem_modes : i ∈ e.modes ↔ e.first_mode ≤ i ∧ i ≤ e.last_mode := by
  rw [modes, List.mem_range'_1]
  omega

omit [Ring R] [LinearOrder R] in
theorem nodup_modes : e.modes.Nodup := List.nodup_range'

/-- **The mapping takes the range to itself, one to one.** -/
theorem mapping_spec (h : InRange e) : Function.Injective e.mapping ∧
    (∀ p, e.first_mode ≤ e.mapping p ∧ e.mapping p ≤ e.last_mode ↔ e.first_mode ≤ p ∧ p ≤ e.last_mode) ∧
    Function.Surjective e.mapping ∧
      GatheredTo (getCovariance e.formula) e.first_mode e.last_mode e.last_mode e.mapping := by
  obtain ⟨σ, hσ, hfix, hgathered⟩ := gathered_gather (getCovariance e.formula) id h.le
  have hmapping : e.mapping = σ := hσ
  refine ⟨hmapping ▸ σ.injective, fun p => ?_, hmapping ▸ σ.surjective, hgathered⟩
  rw [hmapping]
  constructor
  · intro hin
    by_contra hout
    have := hfix p (by omega)
    omega
  · intro hin
    by_contra hout
    have hsame := σ.injective (hfix (σ p) (by omega))
    omega

theorem classified (h : InRange e) (hf : Nonvanishing e.formula) :
    Classified (getCovariance e.formula) modeClass e.first_mode e.last_mode e.mapping := by
  obtain ⟨hinj, hmem, -, -⟩ := mapping_spec h
  have hfirst := h.first
  have hlast := h.last
  intro p q hp hp' hq hq' hne
  have hmp := (hmem p).2 ⟨hp, hp'⟩
  have hmq := (hmem q).2 ⟨hq, hq'⟩
  exact getCovariance_ne_zero_iff hf (by omega) (by omega) (by omega) (by omega) fun heq => hne (hinj heq)

/-- **The position of a mode.** -/
theorem reverse_mapping_eq (h : InRange e) (hp : e.first_mode ≤ p) (hp' : p ≤ e.last_mode) :
    e.reverse_mapping (e.mapping p) = some p := by
  obtain ⟨hinj, -, -, -⟩ := mapping_spec h
  refine scatter_of_mem ?_ (List.mem_map_of_mem (mem_modes.2 ⟨hp, hp'⟩))
  rw [List.map_map]
  exact nodup_modes.map hinj

theorem tiles_blocks (h : InRange e) : Tiles e.values e.last_mode e.first_mode e.blocks :=
  tiles_runs e.values e.last_mode e.first_mode h.le

end Positions

/-! ## Results -/

section Results

variable {e} {b : ℕ × ℕ} {p : ℕ}

/-- **The weights of a block list its modes once.** -/
theorem weights_perm (h : InRange e) (hf : Nonvanishing e.formula) (hb : b ∈ e.blocks) (hp : b.1 ≤ p)
    (hle : p ≤ b.2) : ((e.weights b p).map Prod.fst).Perm
      (e.modes.filter fun j => modeClass j = modeClass (e.mapping p)) := by
  obtain ⟨hinj, hmem, hsurj, hgathered⟩ := mapping_spec h
  obtain ⟨hfirst, -, hlast, -, -, -⟩ := (tiles_blocks h).maximal hb
  have hmap : (e.weights b p).map Prod.fst = (List.range (size b)).map fun r => e.mapping (b.1 + r) := by
    rw [weights, List.map_map]
    rfl
  rw [hmap, List.perm_ext_iff_of_nodup (List.nodup_range.map fun r s heq => Nat.add_left_cancel (hinj heq))
    (nodup_modes.filter _)]
  intro j
  obtain ⟨q, rfl⟩ := hsurj j
  rw [List.mem_filter, mem_modes, hmem, decide_eq_true_eq, List.mem_map]
  constructor
  · rintro ⟨r, hr, heq⟩
    obtain rfl := hinj heq
    have hr' : r < b.2 - b.1 + 1 := List.mem_range.1 hr
    have hin : e.first_mode ≤ b.1 + r ∧ b.1 + r ≤ e.last_mode := by omega
    exact ⟨hin, ((tiles_blocks h).run_iff hgathered (classified h hf) hb ⟨hp, hle⟩ hin).2 (by omega)⟩
  · rintro ⟨hin, hcls⟩
    obtain ⟨hlow, hhigh⟩ := ((tiles_blocks h).run_iff hgathered (classified h hf) hb ⟨hp, hle⟩ hin).1 hcls
    refine ⟨q - b.1, List.mem_range.2 (show q - b.1 < b.2 - b.1 + 1 by omega), ?_⟩
    rw [Nat.add_sub_cancel' hlow]

omit [LinearOrder R] in
theorem getCovariance_comm (formula : ℕ → ℕ → ℕ → R) (i j : ℕ) :
    getCovariance formula i j = getCovariance formula j i := by
  rw [getCovariance, getCovariance, min_comm, max_comm]

/-- **The matrix of a block has the covariances of its modes**, whichever way they are filled in. -/
theorem blockMatrix_eq (b : ℕ × ℕ) : e.blockMatrix b = e.covariances b := by
  funext r s
  rw [blockMatrix, covariances]
  split_ifs with hdiag habove hbelow
  · rw [hdiag]
  · rw [values, show b.1 + s - 1 = b.1 + r by omega]
  · rw [values, show b.1 + r - 1 = b.1 + s by omega, getCovariance_comm]
  · rcases le_total r s with hle | hle
    · rw [min_eq_left hle, max_eq_right hle]
    · rw [min_eq_right hle, max_eq_left hle, getCovariance_comm]

/-- What the mode at a position gets. -/
theorem karhunenLoeveExpansion_eq (h : InRange e) (hp : e.first_mode ≤ p) (hp' : p ≤ e.last_mode) :
    ∃ b, b ∈ e.blocks ∧ b.1 ≤ p ∧ p ≤ b.2 ∧ e.karhunenLoeveExpansion (e.mapping p) =
      some ⟨e.mapping p, e.weights b p, (e.decomposed b).1 (p - b.1)⟩ := by
  obtain ⟨b, hfind, hb, hlow, hhigh⟩ := (tiles_blocks h).exists_find hp hp'
  refine ⟨b, hb, hlow, hhigh, ?_⟩
  have hvalue : e.singular_values[p - e.first_mode]? = some ((e.decomposed b).1 (p - b.1)) :=
    (tiles_blocks h).getElem?_flatMap (fun b => (e.decomposed b).1) hb hlow hhigh
  rw [karhunenLoeveExpansion, reverse_mapping_eq h hp hp', Option.bind_some, hfind, Option.bind_some, hvalue,
    Option.map_some]

/-- **The modes of every range are decomposed class by class.** -/
theorem karhunenLoeve_decomposition (h : InRange e) (hf : Nonvanishing e.formula) : e.Decomposition := by
  obtain ⟨hinj, hmem, hsurj, hgathered⟩ := mapping_spec h
  refine ⟨⟨fun p hp => (hmem p).2 hp, hinj.injOn, fun i hi => ?_⟩, fun p q r hp hpq hqr hr => ?_, fun b hb => ?_,
    (tiles_blocks h).pairwise, fun b _ => by rw [decomposed, blockMatrix_eq], fun i hi hi' => ?_⟩
  · obtain ⟨p, rfl⟩ := hsurj i
    exact ⟨p, (hmem p).1 hi, rfl⟩
  · exact hgathered.contiguous (classified h hf) hp hpq hqr hr
  · obtain ⟨hfirst, hle, hlast, -, -, -⟩ := (tiles_blocks h).maximal hb
    exact ⟨hfirst, hle, hlast, fun q hq hq' =>
      (tiles_blocks h).run_iff hgathered (classified h hf) hb ⟨le_rfl, hle⟩ ⟨hq, hq'⟩⟩
  · obtain ⟨p, rfl⟩ := hsurj i
    obtain ⟨hp, hp'⟩ := (hmem p).1 ⟨hi, hi'⟩
    obtain ⟨b, hb, hlow, hhigh, heq⟩ := karhunenLoeveExpansion_eq h hp hp'
    exact ⟨_, p, b, heq, rfl, rfl, hb, hlow, hhigh, weights_perm h hf hb hlow hhigh, rfl, rfl⟩

/-- Modes 2 to 11, with the same covariance for all modes of a class. -/
def equalCovariances : Expansion ℤ where
  formula := fun _ _ _ => 1
  svd := fun _ a => (fun r => a r r, a)
  first_mode := 2
  last_mode := 11

theorem equalCovariances_decomposition : equalCovariances.Decomposition :=
  karhunenLoeve_decomposition ⟨by decide, by decide, by decide⟩ fun _ _ _ _ _ => one_ne_zero

end Results

end Expansion

end Redux.Image.Zernike
