import Redux.Lib.IntType

/-!
# Util.Restrict — keeping a number in a range

`restrict` cuts off at the bounds, `restrict_periodic` takes the residue in `[mn,mx)` and `restrict_reflected`
folds at both bounds.  The numbers are integers of a type that holds the differences between them; only the
count of the periods is stored in an `int`.  Below the range `restrict_periodic` counts the periods from `mx`
downwards, so that multiples of the period end at `mx` and not at `mn` (`restrict_periodic_iff`).
-/

namespace Redux.Util

open Redux.Lib

/-! ## Model -/

/-- `if( mn > mx ) std::swap( mn, mx )`. -/
def ordered (mn mx : ℤ) : ℤ × ℤ := if mn > mx then (mx, mn) else (mn, mx)

def restrict (v mx mn : ℤ) : ℤ :=
  let (mn, mx) := ordered mn mx
  if v > mx then mx else if v < mn then mn else v

def restrict_periodic (v mx mn : ℤ) : ℤ :=
  let (mn, mx) := ordered mn mx
  let span := mx - mn
  if v ≥ mx then
    let cnt := IntType.int.wrap ((v - mn).tdiv span)
    v - cnt * span
  else if v < mn then
    let cnt := IntType.int.wrap ((mx - v).tdiv span)
    v + cnt * span
  else v

def restrict_reflected (v mx mn : ℤ) : ℤ :=
  let (mn, mx) := ordered mn mx
  if v ≥ mn ∧ v ≤ mx then v
  else
    let span := mx - mn
    if v > mx then
      let cnt := IntType.int.wrap ((v - mn).tdiv span)
      let ret := v - mn - cnt * span
      if cnt % 2 ≠ 0 then mx - ret else mn + ret
    else
      let cnt := IntType.int.wrap ((mx - v).tdiv span)
      let ret := mx - v - cnt * span
      if cnt % 2 = 0 then mx - ret else mn + ret

/-! ## What they stand for -/

/-- In `[mn,mx)`, at a whole number of periods. -/
def Periodic (f : ℤ → ℤ → ℤ → ℤ) (v mx mn : ℤ) : Prop :=
  mn ≤ f v mx mn ∧ f v mx mn < mx ∧ f v mx mn ≡ v [ZMOD mx - mn]

/-- The triangle wave through `(mn,mn)` and `(mx,mx)`, up and down again in a period of twice the span. -/
def triangle (v mx mn : ℤ) : ℤ :=
  let phase := (v - mn) % (2 * (mx - mn))
  if phase ≤ mx - mn then mn + phase else mx - (phase - (mx - mn))

/-- In `[mn,mx]` and on the wave, the same number inside, and the same for numbers that mirror each other. -/
structure Reflected (f : ℤ → ℤ → ℤ → ℤ) (v mx mn : ℤ) : Prop where
  mem : mn ≤ f v mx mn ∧ f v mx mn ≤ mx
  wave : f v mx mn = triangle v mx mn
  inside : mn ≤ v → v ≤ mx → f v mx mn = v
  mirror_mx : f (2 * mx - v) mx mn = f v mx mn
  mirror_mn : f (2 * mn - v) mx mn = f v mx mn

section Ranges

variable {v mx mn d span : ℤ}

theorem ordered_of_lt (h : mn < mx) : ordered mn mx = (mn, mx) := if_neg (not_lt.2 h.le)

/-- What is left of a distance when the periods are taken off: too much, if their count does not fit an `int`. -/
theorem exists_excess (hspan : 0 < span) (hd : 0 ≤ d) : ∃ excess,
    IntType.int.wrap (d.tdiv span) = d / span - excess ∧ (d < 2 ^ 31 * span → excess = 0) ∧
      (2 ^ 31 * span ≤ d → 2 ≤ excess) := by
  rw [Int.tdiv_eq_ediv_of_nonneg hd]
  have hquot : 0 ≤ d / span := Int.ediv_nonneg hd hspan.le
  obtain ⟨k, hk⟩ := IntType.int.exists_wrap (d / span)
  refine ⟨k * 2 ^ 32, by rw [← show IntType.int.bits = 32 from rfl]; omega, fun hlt => ?_, fun hle => ?_⟩
  · have hfits : IntType.int.Fits (d / span) := by
      have hquot' := Int.ediv_lt_of_lt_mul hspan hlt
      show -2 ^ 31 ≤ d / span ∧ d / span ≤ 2 ^ 31 - 1
      omega
    rw [IntType.wrap_of_fits hfits] at hk
    change d / span = d / span + k * 2 ^ 32 at hk
    omega
  · have hquot' : 2 ^ 31 ≤ d / span := Int.le_ediv_of_mul_le hspan hle
    have hfits : -2 ^ 31 ≤ IntType.int.wrap (d / span) ∧ IntType.int.wrap (d / span) ≤ 2 ^ 31 - 1 :=
      IntType.int.fits_wrap _
    change d / span = IntType.int.wrap (d / span) + k * 2 ^ 32 at hk
    omega

/-- `d - cnt * span`. -/
theorem leftover (hspan : 0 < span) (hd : 0 ≤ d) : ∃ excess,
    IntType.int.wrap (d.tdiv span) = d / span - excess ∧
      d - IntType.int.wrap (d.tdiv span) * span = d % span + excess * span ∧
      (d < 2 ^ 31 * span → excess = 0) ∧ (2 ^ 31 * span ≤ d → 2 * span ≤ excess * span) := by
  obtain ⟨excess, hcnt, hexact, htoo⟩ := exists_excess hspan hd
  refine ⟨excess, hcnt, ?_, hexact, fun hle => Int.mul_le_mul_of_nonneg_right (htoo hle) hspan.le⟩
  rw [hcnt, sub_mul]
  have hdiv := Int.emod_add_mul_ediv d span
  rw [mul_comm span] at hdiv
  omega

/-! ## Periods -/

/-- **The residue is found** unless the number is below the range at a multiple of the period, or so far away that
the periods are too many for an `int`. -/
theorem restrict_periodic_iff (v mx mn : ℤ) (h : mn < mx) : Periodic restrict_periodic v mx mn ↔
    max (v - mn) (mx - v) < 2 ^ 31 * (mx - mn) ∧ ¬ (v < mn ∧ mx - mn ∣ v - mn) := by
  have hspan : 0 < mx - mn := by omega
  unfold Periodic restrict_periodic
  rw [ordered_of_lt h]
  dsimp only
  split_ifs with habove hbelow
  · obtain ⟨excess, -, hleft, hexact, htoo⟩ := leftover hspan (show 0 ≤ v - mn by omega)
    have hmod := Int.emod_nonneg (v - mn) hspan.ne'
    have hlt := Int.emod_lt_of_pos (v - mn) hspan
    have hcongr : ∀ cnt : ℤ, v - cnt * (mx - mn) ≡ v [ZMOD mx - mn] := fun cnt =>
      Int.modEq_iff_dvd.2 ⟨cnt, by ring⟩
    rw [and_iff_left (hcongr _), and_iff_left (show ¬ (v < mn ∧ _) from fun h => by omega)]
    constructor
    · rintro ⟨hle, hlt'⟩
      by_contra hfar
      have := htoo (by omega)
      omega
    · intro hnear
      rw [hexact (by omega), zero_mul] at hleft
      omega
  · obtain ⟨excess, -, hleft, hexact, htoo⟩ := leftover hspan (show 0 ≤ mx - v by omega)
    have hmod := Int.emod_nonneg (mx - v) hspan.ne'
    have hlt := Int.emod_lt_of_pos (mx - v) hspan
    have hcongr : ∀ cnt : ℤ, v + cnt * (mx - mn) ≡ v [ZMOD mx - mn] := fun cnt =>
      Int.modEq_iff_dvd.2 ⟨-cnt, by ring⟩
    have hdvd : (mx - mn ∣ v - mn) ↔ (mx - v) % (mx - mn) = 0 := by
      rw [← Int.dvd_iff_emod_eq_zero, ← dvd_neg, ← dvd_add_right (dvd_refl (mx - mn))]
      exact iff_of_eq (congrArg _ (by ring))
    rw [and_iff_left (hcongr _), hdvd, and_iff_right hbelow]
    constructor
    · rintro ⟨hle, hlt'⟩
      have hnear : mx - v < 2 ^ 31 * (mx - mn) := by
        by_contra hfar
        have := htoo (by omega)
        omega
      rw [hexact hnear, zero_mul] at hleft
      omega
    · rintro ⟨hnear, hne⟩
      rw [hexact (by omega), zero_mul] at hleft
      omega
  · rw [and_iff_right (show mn ≤ v by omega), and_iff_right (show v < mx by omega)]
    refine iff_of_true rfl ⟨by omega, fun h => by omega⟩

theorem thirteen_periodic : Periodic restrict_periodic 13 5 0 :=
  (restrict_periodic_iff 13 5 0 (by decide)).2 (by decide)

/-- One period below the range the upper bound comes out. -/
theorem period_below_not_periodic : ¬ ∀ v mx mn : ℤ, mn < mx → Periodic restrict_periodic v mx mn :=
  fun h => absurd (h (-5) 5 0 (by decide)).2.1 (by decide)

/-! ## Reflections -/

/-- Twice the span holds an even or an odd count of spans. -/
theorem emod_two_spans (hspan : 0 < span) : d % (2 * span) = d / span % 2 * span + d % span := by
  have hdiv := Int.emod_add_mul_ediv d span
  have hcount := Int.emod_add_mul_ediv (d / span) 2
  have hmod := Int.emod_nonneg d hspan.ne'
  have hlt := Int.emod_lt_of_pos d hspan
  have hsplit : d = d / span % 2 * span + d % span + 2 * span * (d / span / 2) := by
    calc d = d % span + span * (d / span) := hdiv.symm
      _ = d % span + span * (d / span % 2 + 2 * (d / span / 2)) := by rw [hcount]
      _ = _ := by ring
  conv_lhs => rw [hsplit, Int.add_mul_emod_self_left]
  rcases Int.emod_two_eq (d / span) with heven | hodd
  · rw [heven, zero_mul]
    exact Int.emod_eq_of_lt (by omega) (by omega)
  · rw [hodd, one_mul]
    exact Int.emod_eq_of_lt (by omega) (by omega)

/-- The wave by the count of spans above `mn`. -/
theorem triangle_eq (h : mn < mx) : triangle v mx mn =
    if (v - mn) / (mx - mn) % 2 ≠ 0 then mx - (v - mn) % (mx - mn) else mn + (v - mn) % (mx - mn) := by
  have hspan : 0 < mx - mn := by omega
  have hmod := Int.emod_nonneg (v - mn) hspan.ne'
  have hlt := Int.emod_lt_of_pos (v - mn) hspan
  rw [triangle, emod_two_spans hspan]
  rcases Int.emod_two_eq ((v - mn) / (mx - mn)) with heven | hodd
  · rw [heven, zero_mul, if_pos (by omega), if_neg (by decide)]
    omega
  · rw [hodd, one_mul, if_pos (show (1 : ℤ) ≠ 0 by decide)]
    split_ifs
    · omega
    · omega

/-- **The wave is symmetric about the upper bound.** -/
theorem triangle_mirror_mx (h : mn < mx) : triangle (2 * mx - v) mx mn = triangle v mx mn := by
  have hspan : 0 < 2 * (mx - mn) := by omega
  have hmod := Int.emod_nonneg (v - mn) hspan.ne'
  have hlt := Int.emod_lt_of_pos (v - mn) hspan
  have hphase : (2 * mx - v - mn) % (2 * (mx - mn)) =
      if 2 * (mx - mn) ∣ v - mn then 0 else 2 * (mx - mn) - (v - mn) % (2 * (mx - mn)) := by
    rw [show 2 * mx - v - mn = 2 * (mx - mn) - (v - mn) by ring, Int.sub_emod_left, Int.neg_emod,
      Int.natAbs_of_nonneg hspan.le]
  unfold triangle
  dsimp only
  rw [hphase]
  by_cases hdvd : 2 * (mx - mn) ∣ v - mn
  · rw [if_pos hdvd, Int.emod_eq_zero_of_dvd hdvd]
  · rw [if_neg hdvd]
    split_ifs
    · omega
    · omega
    · omega
    · omega

/-- The wave repeats itself. -/
theorem triangle_period : triangle (v - 2 * (mx - mn)) mx mn = triangle v mx mn := by
  unfold triangle
  rw [show v - 2 * (mx - mn) - mn = v - mn - 2 * (mx - mn) by ring, Int.sub_emod_right]

theorem triangle_mirror_mn (h : mn < mx) : triangle (2 * mn - v) mx mn = triangle v mx mn := by
  rw [← triangle_mirror_mx h, ← triangle_period]
  exact congrArg (triangle · mx mn) (by ring)

theorem triangle_mem (h : mn < mx) : mn ≤ triangle v mx mn ∧ triangle v mx mn ≤ mx := by
  have hspan : 0 < mx - mn := by omega
  have hmod := Int.emod_nonneg (v - mn) hspan.ne'
  have hlt := Int.emod_lt_of_pos (v - mn) hspan
  rw [triangle_eq h]
  split_ifs
  · omega
  · omega

theorem triangle_inside (h : mn < mx) (hmn : mn ≤ v) (hmx : v ≤ mx) : triangle v mx mn = v := by
  unfold triangle
  rw [Int.emod_eq_of_lt (show 0 ≤ v - mn by omega) (show v - mn < 2 * (mx - mn) by omega)]
  dsimp only
  rw [if_pos (show v - mn ≤ mx - mn by omega)]
  omega

/-- The wave by the count of spans below `mx`. -/
theorem triangle_below (h : mn < mx) : triangle v mx mn =
    if (mx - v) / (mx - mn) % 2 = 0 then mx - (mx - v) % (mx - mn) else mn + (mx - v) % (mx - mn) := by
  have hspan : 0 < mx - mn := by omega
  rw [← triangle_mirror_mx h, triangle_eq h, show 2 * mx - v - mn = mx - v + (mx - mn) by ring,
    Int.add_emod_right, Int.add_ediv_of_dvd_right (dvd_refl _), Int.ediv_self hspan.ne']
  refine if_congr ?_ rfl rfl
  omega

/-- **The wave is followed as far as the spans can be counted in an `int`**, and beyond the range is left. -/
theorem restrict_reflected_spec (h : mn < mx) :
    (max (v - mn) (mx - v) < 2 ^ 31 * (mx - mn) → restrict_reflected v mx mn = triangle v mx mn) ∧
      (2 ^ 31 * (mx - mn) ≤ max (v - mn) (mx - v) →
        ¬ (mn ≤ restrict_reflected v mx mn ∧ restrict_reflected v mx mn ≤ mx)) := by
  have hspan : 0 < mx - mn := by omega
  unfold restrict_reflected
  rw [ordered_of_lt h]
  dsimp only
  by_cases hin : v ≥ mn ∧ v ≤ mx
  · rw [if_pos hin]
    exact ⟨fun _ => (triangle_inside h hin.1 hin.2).symm, fun hfar => by omega⟩
  rw [if_neg hin]
  by_cases habove : v > mx
  · rw [if_pos habove, triangle_eq h]
    obtain ⟨excess, hcnt, hleft, hexact, htoo⟩ := leftover hspan (show 0 ≤ v - mn by omega)
    have hmod := Int.emod_nonneg (v - mn) hspan.ne'
    refine ⟨fun hnear => ?_, fun hfar => ?_⟩
    · rw [hleft, hcnt, hexact (by omega), zero_mul, sub_zero, add_zero]
    · have hfar := htoo (by omega)
      split_ifs
      · omega
      · omega
  · rw [if_neg habove, triangle_below h]
    obtain ⟨excess, hcnt, hleft, hexact, htoo⟩ := leftover hspan (show 0 ≤ mx - v by omega)
    have hmod := Int.emod_nonneg (mx - v) hspan.ne'
    refine ⟨fun hnear => ?_, fun hfar => ?_⟩
    · rw [hleft, hcnt, hexact (by omega), zero_mul, sub_zero, add_zero]
    · have hfar := htoo (by omega)
      split_ifs
      · omega
      · omega

/-- **The reflections are right for a number and its mirror images** exactly if the spans up to the farther image
can be counted in an `int`. -/
theorem restrict_reflected_iff (v mx mn : ℤ) (h : mn < mx) : Reflected restrict_reflected v mx mn ↔
    max (v - mn) (mx - v) < (2 ^ 31 - 1) * (mx - mn) := by
  constructor
  · rintro ⟨hmem, -, -, hmx, hmn⟩
    have hnear : ∀ u, mn ≤ restrict_reflected u mx mn ∧ restrict_reflected u mx mn ≤ mx →
        max (u - mn) (mx - u) < 2 ^ 31 * (mx - mn) := fun u hu => by
      by_contra hfar
      exact (restrict_reflected_spec h).2 (not_lt.1 hfar) hu
    have h₁ := hnear _ (hmx.symm ▸ hmem)
    have h₂ := hnear _ (hmn.symm ▸ hmem)
    omega
  · intro hnear
    have heq : ∀ u, max (u - mn) (mx - u) < 2 ^ 31 * (mx - mn) → restrict_reflected u mx mn = triangle u mx mn :=
      fun u hu => (restrict_reflected_spec h).1 hu
    have hv := heq v (by omega)
    constructor
    · rw [hv]
      exact triangle_mem h
    · exact hv
    · intro hmn hmx
      rw [hv, triangle_inside h hmn hmx]
    · rw [hv, heq _ (by omega), triangle_mirror_mx h]
    · rw [hv, heq _ (by omega), triangle_mirror_mn h]

theorem thirteen_reflected : Reflected restrict_reflected 13 5 0 :=
  (restrict_reflected_iff 13 5 0 (by decide)).2 (by decide)

/-- `int64_t`: the count `2 ^ 32` of the spans is stored as 0. -/
theorem far_not_reflected : ¬ ∀ v mx mn : ℤ, mn < mx → Reflected restrict_reflected v mx mn :=
  fun h => absurd (h (2 ^ 32) 1 0 (by decide)).mem.2 (by decide)

end Ranges

end Redux.Util
