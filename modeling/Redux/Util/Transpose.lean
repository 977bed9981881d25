import Redux.Lib.CycleLeader
import Redux.Lib.IntType
import Redux.Lib.RowMajor

/-!
# Util.Transpose — transposing a matrix in place

`transpose` moves the elements along the cycles of `nextLocation`.  The two are inverse to each other when the
sizes change places (`locations_inverse`), as long as every index fits the `int` that `nextLocation` takes it as
(`transposes_of_le`).  The first index that does not fit is negative there, and a column ends in a loop
(`column_not_transposed`).
-/

namespace Redux.Util

open Redux.Lib Redux.Lib.CycleLeader Redux.Lib.RowMajor

variable {α : Type*}

/-! ## Model -/

/-- `( i % sizeX ) * sizeY + i / sizeX` for an `int i`. -/
def nextLocation (i sizeY sizeX : ℕ) : ℕ :=
  let i := (IntType.int.wrap i % 2 ^ 64).toNat
  ((i % sizeX) * sizeY + i / sizeX) % 2 ^ 64

def transpose (data : ℕ → α) (sizeY sizeX fuel : ℕ) : Option (ℕ → α) :=
  if sizeY ≠ 0 ∧ sizeX ≠ 0 then
    permute (fun i => nextLocation i sizeY sizeX) (fun i => nextLocation i sizeX sizeY) (sizeY * sizeX) fuel 0
      (sizeY * sizeX % 2 ^ 64) data
  else some data

/-- What was in row `y` and column `x` ends in row `x` and column `y`, and going back restores the block. -/
def Transposes (sizeY sizeX : ℕ) (data : ℕ → α) : Prop :=
  ∃ data', Settles (transpose data sizeY sizeX) data' ∧
    (∀ y < sizeY, ∀ x < sizeX, data' (x * sizeY + y) = data (y * sizeX + x)) ∧
    Settles (transpose data' sizeX sizeY) data

/-! ## Locations -/

section Locations

variable {i sizeY sizeX x y : ℕ}

theorem wrap_index (h : i < 2 ^ 31) : (IntType.int.wrap i % 2 ^ 64).toNat = i := by
  have hfits : IntType.int.Fits i := ⟨show -2 ^ 31 ≤ (i : ℤ) by omega, show (i : ℤ) ≤ 2 ^ 31 - 1 by omega⟩
  rw [IntType.wrap_of_fits hfits]
  omega

/-- **The location of a cell** in the transposed matrix. -/
theorem nextLocation_cell (hsize : sizeY * sizeX ≤ 2 ^ 31) (hy : y < sizeY) (hx : x < sizeX) :
    nextLocation (y * sizeX + x) sizeY sizeX = x * sizeY + y := by
  have hcell := index_lt hy hx
  have hmoved : x * sizeY + y < sizeX * sizeY := index_lt hx hy
  have hpos : 0 < sizeX := Nat.zero_lt_of_lt hx
  rw [mul_comm sizeX] at hmoved
  rw [nextLocation, wrap_index (by omega)]
  rw [Nat.mul_add_mod', Nat.mod_eq_of_lt hx, mul_comm y, Nat.mul_add_div hpos, Nat.div_eq_of_lt hx, add_zero,
    Nat.mod_eq_of_lt (by omega)]

/-- **The two directions.** -/
theorem locations_inverse (hsize : sizeY * sizeX ≤ 2 ^ 31) :
    Inverse (sizeY * sizeX) (fun i => nextLocation i sizeY sizeX) (fun i => nextLocation i sizeX sizeY) := by
  have hsize' : sizeX * sizeY ≤ 2 ^ 31 := by rwa [mul_comm]
  have hcell : ∀ {sizeY sizeX : ℕ}, sizeY * sizeX ≤ 2 ^ 31 → ∀ p < sizeY * sizeX,
      nextLocation p sizeY sizeX < sizeY * sizeX ∧ nextLocation (nextLocation p sizeY sizeX) sizeX sizeY = p := by
    intro sizeY sizeX hsize p hp
    obtain ⟨y, hy, x, hx, rfl⟩ := exists_index hp
    have hmoved : x * sizeY + y < sizeX * sizeY := index_lt hx hy
    rw [nextLocation_cell hsize hy hx]
    exact ⟨by rwa [mul_comm sizeX] at hmoved, nextLocation_cell (by rwa [mul_comm]) hx hy⟩
  refine ⟨fun p hp => (hcell hsize p hp).1, fun p hp => ?_, fun p hp => (hcell hsize p hp).2, fun p hp => ?_⟩
  · rw [mul_comm] at hp ⊢
    exact (hcell hsize' p hp).1
  · rw [mul_comm] at hp
    exact (hcell hsize' p hp).2

end Locations

/-! ## The matrix -/

section Matrix

variable {sizeY sizeX : ℕ}

theorem settles_transpose (hY : 1 ≤ sizeY) (hX : 1 ≤ sizeX) (hsize : sizeY * sizeX ≤ 2 ^ 31) (data : ℕ → α) :
    Settles (transpose data sizeY sizeX)
      (fun p => if p < sizeY * sizeX then data (nextLocation p sizeX sizeY) else data p) := by
  obtain ⟨bound, hbound⟩ := (locations_inverse hsize).settles_permute (by omega) data
  refine ⟨bound, fun fuel hfuel => ?_⟩
  rw [transpose, if_pos ⟨by omega, by omega⟩, Nat.mod_eq_of_lt (by omega)]
  exact hbound fuel hfuel

/-- **Matrices of up to `2 ^ 31` elements are transposed.** -/
theorem transposes_of_le (sizeY sizeX : ℕ) (hY : 1 ≤ sizeY) (hX : 1 ≤ sizeX) (hsize : sizeY * sizeX ≤ 2 ^ 31)
    (data : ℕ → α) : Transposes sizeY sizeX data := by
  have hsize' : sizeX * sizeY ≤ 2 ^ 31 := by rwa [mul_comm]
  refine ⟨_, settles_transpose hY hX hsize data, fun y hy x hx => ?_, ?_⟩
  · have hcell := index_lt hx hy
    rw [if_pos (by rwa [mul_comm sizeX] at hcell), nextLocation_cell hsize' hx hy]
  · have hback := settles_transpose hX hY hsize'
      fun p => if p < sizeY * sizeX then data (nextLocation p sizeX sizeY) else data p
    convert hback using 2 with p
    rw [mul_comm sizeX]
    split_ifs with hp hmoved
    · rw [(locations_inverse hsize).prev_next p hp]
    · exact absurd ((locations_inverse hsize).next_lt p hp) hmoved
    · rfl

theorem two_rows_transposed : Transposes 2 3 id := transposes_of_le 2 3 (by omega) (by omega) (by decide) id

end Matrix

/-! ## A long column -/

section Column

variable {sizeY : ℕ} {data : ℕ → α}

/-- The elements that an `int` can count are where they belong. -/
theorem nextLocation_column {i : ℕ} (hi : i < 2 ^ 31) (hY : 2 ^ 31 < sizeY) :
    nextLocation i sizeY 1 = i ∧ nextLocation i 1 sizeY = i := by
  unfold nextLocation
  rw [wrap_index hi]
  dsimp only
  rw [Nat.mod_one, zero_mul, zero_add, Nat.div_one, mul_one, Nat.mod_eq_of_lt (by omega : i < sizeY),
    Nat.div_eq_of_lt (by omega : i < sizeY), add_zero, Nat.mod_eq_of_lt (by omega)]
  exact ⟨rfl, rfl⟩

/-- The next one is taken for a negative number. -/
theorem nextLocation_negative : nextLocation (2 ^ 31) sizeY 1 = 2 ^ 64 - 2 ^ 31 ∧
    nextLocation (2 ^ 64 - 2 ^ 31) sizeY 1 = 2 ^ 64 - 2 ^ 31 := by
  have hwrap : ∀ i : ℕ, (IntType.int.wrap i % 2 ^ 64).toNat = 2 ^ 64 - 2 ^ 31 →
      nextLocation i sizeY 1 = 2 ^ 64 - 2 ^ 31 := by
    intro i hi
    rw [nextLocation, hi, Nat.mod_one, zero_mul, zero_add, Nat.div_one, Nat.mod_eq_of_lt (by decide)]
  exact ⟨hwrap _ (by decide), hwrap _ (by decide)⟩

/-- Around and around. -/
theorem search_column (fuel : ℕ) :
    search (fun i => nextLocation i sizeY 1) (2 ^ 31) fuel (2 ^ 64 - 2 ^ 31) = none := by
  induction fuel with
  | zero => rfl
  | succ fuel ih =>
    rw [search, if_pos (by decide)]
    simp only [nextLocation_negative.2]
    exact ih

/-- **The loop is not left** when it comes to the element `2 ^ 31`. -/
theorem permute_column (hY : 2 ^ 31 < sizeY) (hY' : sizeY < 2 ^ 64) (fuel : ℕ) : ∀ i ≤ 2 ^ 31,
    permute (fun i => nextLocation i sizeY 1) (fun i => nextLocation i 1 sizeY) sizeY fuel i (sizeY - i) data =
      none := by
  induction fuel with
  | zero => exact fun i _ => rfl
  | succ fuel ih =>
    intro i hi
    rw [permute, if_neg (by omega)]
    rcases Nat.lt_or_ge i (2 ^ 31) with hlt | hge
    · obtain ⟨hnext, hprev⟩ := nextLocation_column hlt hY
      simp only [hnext, hprev]
      cases fuel with
      | zero => rfl
      | succ fuel =>
        rw [search, if_neg (lt_irrefl i), Option.bind_some, if_neg (lt_irrefl i), rotate, if_neg (not_not.2 rfl),
          Option.bind_some, pred_of_pos (by omega) (by omega), Nat.mod_eq_of_lt (by omega), Nat.sub_sub]
        exact ih (i + 1) hlt
    · obtain rfl : i = 2 ^ 31 := by omega
      simp only [nextLocation_negative.1]
      rw [search_column, Option.bind_none]

/-- A column of more than `2 ^ 31` elements. -/
theorem column_not_transposed (hY : 2 ^ 31 < sizeY) (hY' : sizeY < 2 ^ 64) : ¬ Transposes sizeY 1 data := by
  rintro ⟨data', hsettles, -⟩
  refine not_settles (fun fuel => ?_) hsettles
  rw [transpose, if_pos ⟨by omega, by omega⟩, mul_one, Nat.mod_eq_of_lt hY']
  exact permute_column hY hY' fuel 0 (Nat.zero_le _)

theorem long_column_not_transposed : ¬ Transposes (2 ^ 31 + 1) 1 (fun _ => 0 : ℕ → ℕ) :=
  column_not_transposed (by decide) (by decide)

end Column

end Redux.Util
