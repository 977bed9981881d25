import Redux.Image.RadialPolynomial

/-!
# Math.Binomial — binomial coefficients for all 32-bit arguments

`n_choose_k` goes from binomial to binomial, so that each of its divisions is exact and its products stay far
below 128 bits.  Of the two products with the same value it takes the longer one, and its loop variable is an
`int`: for arguments from `2^31 - 1` on the variable overflows where the shorter product would have a step or
two (`exact_iff_counted`).
-/

namespace Redux.Math

open Redux.Image.Zernike (chooseLoop chooseLoop_start choose_le_choose_add)

/-! ## Model -/

/-- `for( int i = 1; i < imax; ++i )`, where an `int` can take `left` more values; `none` if `++i` overflows. -/
def chooseInt (base imax : ℕ) : ℕ → ℕ → ℕ → Option ℕ
  | 0, i, temp => if i < imax then none else some temp
  | left + 1, i, temp =>
    if i < imax then chooseInt base imax left (i + 1) (temp * (base + i) % 2 ^ 128 / i) else some temp

/-- `imax`, from sums in `uint32_t`. -/
def imax (n k : ℕ) : ℕ := if n < 2 * k % 2 ^ 32 then (k + 1) % 2 ^ 32 else (n - k + 1) % 2 ^ 32

def base (n k : ℕ) : ℕ := if n < 2 * k % 2 ^ 32 then n - k else k

def n_choose_k (n k : ℕ) : Option ℕ :=
  if k > n then some 0
  else if k = n then some 1
  else (chooseInt (base n k) (imax n k) (2 ^ 31 - 2) 1 1).map (· % 2 ^ 64)

/-- `temp` before the round of `i`. -/
def before (n k i : ℕ) : ℕ := chooseLoop (base n k) (i - 1) 1 1

/-! ## What is to hold -/

/-- The binomial comes out, each division on the way is exact, and no product needs more than 128 bits. -/
structure Exact (n k : ℕ) : Prop where
  value : n_choose_k n k = some (n.choose k)
  divides : k < n → ∀ i, 1 ≤ i → i < imax n k → i ∣ before n k i * (base n k + i)
  fits : k < n → ∀ i, 1 ≤ i → i < imax n k → before n k i * (base n k + i) < 2 ^ 128

/-- The loop ends before its variable overflows. -/
def Counted (n k : ℕ) : Prop := n ≤ k ∨ imax n k < 2 ^ 31

instance (n k : ℕ) : Decidable (Counted n k) := inferInstanceAs (Decidable (_ ∨ _))

/-! ## The loop -/

section Loop

variable {n k b m i : ℕ}

/-- **The loop makes all of its rounds, or the variable overflows.** -/
theorem chooseInt_eq : ∀ (left i temp : ℕ), chooseInt b m left i temp =
    if m ≤ i + left then some (chooseLoop b (m - i) i temp) else none
  | 0, i, temp => by
    rw [chooseInt, Nat.add_zero]
    by_cases h : i < m
    · rw [if_pos h, if_neg (by omega)]
    · rw [if_neg h, if_pos (by omega), Nat.sub_eq_zero_of_le (by omega), chooseLoop]
  | left + 1, i, temp => by
    rw [chooseInt]
    by_cases h : i < m
    · have hrounds : m - i = m - (i + 1) + 1 := by omega
      rw [if_pos h, chooseInt_eq left, hrounds, chooseLoop]
      have hiff : m ≤ i + 1 + left ↔ m ≤ i + (left + 1) := by omega
      simp only [hiff]
    · rw [if_neg h, if_pos (by omega), Nat.sub_eq_zero_of_le (by omega), chooseLoop]

/-- The product that is taken: it has `imax - 1` factors, and none if its bound wraps around. -/
theorem base_add (hn : n < 2 ^ 32) (hk : k < n) : imax n k = 0 ∧ k = 0 ∨
    base n k + (imax n k - 1) = n ∧ n.choose (imax n k - 1) = n.choose k ∧ 1 ≤ imax n k := by
  unfold base imax
  split_ifs with h
  · rw [Nat.mod_eq_of_lt (show k + 1 < 2 ^ 32 by omega), Nat.add_sub_cancel]
    exact .inr ⟨by omega, rfl, by omega⟩
  · rcases Nat.lt_or_ge (n - k + 1) (2 ^ 32) with hfit | hwrap
    · rw [Nat.mod_eq_of_lt hfit, Nat.add_sub_cancel]
      exact .inr ⟨by omega, Nat.choose_symm hk.le, by omega⟩
    · have hzero : n - k + 1 = 2 ^ 32 := by omega
      rw [hzero, Nat.mod_self]
      exact .inl ⟨rfl, by omega⟩

/-- Before each round there is a binomial of the diagonal, and it is no more than the last one. -/
theorem before_eq (hn : n < 2 ^ 32) (hk : k < n) (hfit : n.choose k < 2 ^ 64) (hi : 1 ≤ i) (him : i < imax n k) :
    before n k i = (base n k + (i - 1)).choose (i - 1) ∧ before n k i < 2 ^ 64 := by
  obtain ⟨hzero, -⟩ | ⟨hsum, hchoose, hpos⟩ := base_add hn hk
  · omega
  have hle := choose_le_choose_add (base n k + (i - 1)) (i - 1) (imax n k - 1 - (i - 1))
  rw [show base n k + (i - 1) + (imax n k - 1 - (i - 1)) = n by omega,
    show i - 1 + (imax n k - 1 - (i - 1)) = imax n k - 1 by omega, hchoose] at hle
  have heq : before n k i = (base n k + (i - 1)).choose (i - 1) :=
    chooseLoop_start (by omega) (hle.trans_lt hfit)
  exact ⟨heq, heq ▸ hle.trans_lt hfit⟩

theorem step_divides (hn : n < 2 ^ 32) (hk : k < n) (hfit : n.choose k < 2 ^ 64) (hi : 1 ≤ i) (him : i < imax n k) :
    i ∣ before n k i * (base n k + i) := by
  obtain ⟨j, rfl⟩ := Nat.exists_eq_add_of_le' hi
  rw [(before_eq hn hk hfit hi him).1, Nat.add_sub_cancel, Nat.mul_comm, ← Nat.add_assoc, Nat.add_one_mul_choose_eq]
  exact Dvd.intro_left _ rfl

theorem step_fits (hn : n < 2 ^ 32) (hk : k < n) (hfit : n.choose k < 2 ^ 64) (hi : 1 ≤ i) (him : i < imax n k) :
    before n k i * (base n k + i) < 2 ^ 128 := by
  have hfactor : base n k + i < 2 ^ 64 := by
    obtain ⟨hzero, -⟩ | ⟨hsum, -, -⟩ := base_add hn hk <;> omega
  calc before n k i * (base n k + i) < 2 ^ 64 * 2 ^ 64 := Nat.mul_lt_mul'' (before_eq hn hk hfit hi him).2 hfactor
    _ = 2 ^ 128 := by norm_num

/-- The value of the loop, if it ends. -/
theorem n_choose_k_of_lt (hn : n < 2 ^ 32) (hk : k < n) (hfit : n.choose k < 2 ^ 64) :
    n_choose_k n k = if imax n k < 2 ^ 31 then some (n.choose k) else none := by
  rw [n_choose_k, if_neg (by omega), if_neg (by omega), chooseInt_eq]
  have hiff : imax n k ≤ 1 + (2 ^ 31 - 2) ↔ imax n k < 2 ^ 31 := by omega
  simp only [hiff]
  split_ifs with hlt
  · obtain ⟨hzero, rfl⟩ | ⟨hsum, hchoose, hpos⟩ := base_add hn hk
    · rw [hzero, Nat.choose_zero_right]
      rfl
    · have hloop := @chooseLoop_start (base n k) (imax n k - 1) (by omega) (by rwa [hsum, hchoose])
      rw [hloop, hsum, hchoose, Option.map_some, Nat.mod_eq_of_lt hfit]
  · rfl

end Loop

/-! ## The binomial -/

/-- **A binomial that fits in 64 bits is exact if and only if the loop ends before its variable overflows.** -/
theorem exact_iff_counted (n k : ℕ) (hn : n < 2 ^ 32) (hfit : n.choose k < 2 ^ 64) : Exact n k ↔ Counted n k := by
  rcases Nat.lt_or_ge k n with hlt | hge
  · have hvalue := n_choose_k_of_lt hn hlt hfit
    constructor
    · intro h
      right
      by_contra hover
      rw [if_neg hover, h.value] at hvalue
      cases hvalue
    · intro h
      rw [if_pos (h.resolve_left (by omega))] at hvalue
      exact ⟨hvalue, fun _ i hi him => step_divides hn hlt hfit hi him,
        fun _ i hi him => step_fits hn hlt hfit hi him⟩
  · refine iff_of_true ⟨?_, fun h => absurd h (by omega), fun h => absurd h (by omega)⟩ (.inl hge)
    rw [n_choose_k]
    rcases hge.lt_or_eq with hgt | rfl
    · rw [if_pos hgt, Nat.choose_eq_zero_of_lt hgt]
    · rw [if_neg (lt_irrefl _), if_pos rfl, Nat.choose_self]

theorem twenty_choose_seventeen : Exact 20 17 :=
  (exact_iff_counted 20 17 (by norm_num) (by norm_num [Nat.choose])).2 (by decide)

/-- One of `2^32 - 1`: the loop goes over the others. -/
theorem one_of_all : min 1 (2 ^ 32 - 1 - 1) < 2 ^ 31 ∧ (2 ^ 32 - 1).choose 1 < 2 ^ 64 ∧ ¬Exact (2 ^ 32 - 1) 1 := by
  have hfit : (2 ^ 32 - 1).choose 1 < 2 ^ 64 := by
    rw [Nat.choose_one_right]
    norm_num
  refine ⟨by norm_num, hfit, fun h => ?_⟩
  have hvalue := n_choose_k_of_lt (by norm_num) (by norm_num) hfit
  rw [h.value, if_neg (by decide)] at hvalue
  cases hvalue

end Redux.Math
