import Mathlib.Algebra.Field.Rat
import Mathlib.Algebra.Order.Ring.Nat
import Mathlib.Data.Nat.Choose.Basic
import Mathlib.Data.Rat.Cast.Defs
import Mathlib.Tactic.FieldSimp
import Mathlib.Tactic.LinearCombination
import Mathlib.Tactic.NormNum
import Mathlib.Tactic.Push
import Redux.Lib.Horner

/-!
# Image.RadialPolynomial — the radial part of a Zernike mode

`Zernike::RadialPolynomial` keeps either the coefficients of the polynomial or the ratios of one coefficient
to the next, in a map with the larger exponents first, and evaluates the one by its terms and the other in
the manner of Horner.  The numbers, `mp_float` in the source, are rational here.
-/

namespace Redux.Image.Zernike

open Redux.Lib Finset

/-! ## Model -/

/-- The loop of `n_choose_k` over `i`, in `uint128_t`. -/
def chooseLoop (base : ℕ) : ℕ → ℕ → ℕ → ℕ
  | 0, _, temp => temp
  | rounds + 1, i, temp => chooseLoop base rounds (i + 1) (temp * (base + i) % 2 ^ 128 / i)

def n_choose_k (n k : ℕ) : ℕ :=
  if k > n then 0
  else if k = n then 1
  else if n < 2 * k % 2 ^ 32 then chooseLoop (n - k) k 1 1 % 2 ^ 64
  else chooseLoop k (n - k) 1 1 % 2 ^ 64

/-- `map<uint16_t,mp_float,greater<uint16_t>>`, in its order. -/
abbrev Poly := List (ℕ × ℚ)

/-- `poly[ key ] = v`. -/
def put (key : ℕ) (v : ℚ) : Poly → Poly
  | [] => [(key, v)]
  | p :: poly =>
    if p.1 = key then (key, v) :: poly
    else if p.1 < key then (key, v) :: p :: poly
    else p :: put key v poly

structure RadialPolynomial where
  n : ℕ
  m : ℕ
  useRatios : Bool
  poly : Poly

/-- The coefficients, with the sign `pm` before the next one; `s` goes up to `bb`. -/
def RadialPolynomial.coefficients (n bb : ℕ) : ℕ → ℕ → ℤ → Poly → Poly
  | 0, _, _, poly => poly
  | rounds + 1, s, pm, poly =>
    let pm := pm * -1
    coefficients n bb rounds (s + 1) pm (put (n - 2 * s) (n_choose_k (n - s) s * n_choose_k (n - 2 * s)
      (bb - s) * pm) poly)

/-- The bit of the flags that asks for the coefficients. -/
def OLD_METHOD : ℕ := 0x2

def RadialPolynomial.calc (n m flags : ℕ) : RadialPolynomial :=
  let bb := (n - m) / 2
  let aa := (n + m) / 2
  let useRatios := flags &&& OLD_METHOD == 0
  let ratio (kk : ℕ) : ℚ := -(((kk + 1) * (n - kk) : ℕ) / ((aa - kk) * (bb - kk) : ℕ))
  ⟨n, m, useRatios,
    if useRatios then
      (List.range bb).foldl (fun poly kk => put (n - 2 * kk) (ratio kk) poly)
        (put m (if bb % 2 = 1 then n_choose_k aa m * -1 else n_choose_k aa m) [])
    else coefficients n bb (bb + 1) 0 (-1) []⟩

def RadialPolynomial.eval (P : RadialPolynomial) (r : ℚ) : ℚ :=
  if P.useRatios then
    let sum := P.poly.foldl (fun sum p => if p.1 = P.m then sum else sum * (r * r * p.2) + 1) 1
    match P.poly.find? fun p => p.1 == P.m with
    | some p => sum * (p.2 * r ^ P.m)
    | none => sum
  else P.poly.foldl (fun sum p => sum + r ^ p.1 * p.2) 0

/-! ## What it stands for -/

/-- The size of a coefficient. -/
def magnitude (n bb s : ℕ) : ℕ := (n - s).choose s * (n - 2 * s).choose (bb - s)

/-- The radial polynomial of a mode. -/
def radial (n m : ℕ) (r : ℚ) : ℚ :=
  ∑ s ∈ range ((n - m) / 2 + 1), (-1) ^ s * magnitude n ((n - m) / 2) s * r ^ (n - 2 * s)

/-! ## Binomials -/

theorem choose_le_choose_add (n k : ℕ) : ∀ r, n.choose k ≤ (n + r).choose (k + r)
  | 0 => le_rfl
  | r + 1 => (choose_le_choose_add n k r).trans ((Nat.le_add_right _ _).trans (Nat.choose_succ_succ (n + r) (k + r)).ge)

/-- **The loop goes from binomial to binomial along the diagonal**: each division is exact, and the largest
product comes last. -/
theorem chooseLoop_eq {base : ℕ} : ∀ {rounds i : ℕ}, base + i + rounds < 2 ^ 32 →
    (base + i + rounds).choose (i + rounds) < 2 ^ 64 →
    chooseLoop base rounds (i + 1) ((base + i).choose i) = (base + i + rounds).choose (i + rounds) := by
  intro rounds
  induction rounds with
  | zero => intro i _ _; rfl
  | succ rounds ih =>
    intro i hn hfit
    have hle : (base + i).choose i ≤ (base + i + (rounds + 1)).choose (i + (rounds + 1)) := choose_le_choose_add _ _ _
    have hprod : (base + i).choose i * (base + i + 1) < 2 ^ 128 := by
      calc (base + i).choose i * (base + i + 1) < 2 ^ 64 * 2 ^ 64 :=
            Nat.mul_lt_mul'' (hle.trans_lt hfit) (by omega)
        _ = 2 ^ 128 := by norm_num
    have hstep : (base + i).choose i * (base + i + 1) / (i + 1) = (base + (i + 1)).choose (i + 1) := by
      rw [Nat.mul_comm, Nat.add_one_mul_choose_eq, Nat.mul_div_cancel _ (Nat.succ_pos i)]
      rfl
    have hshift : base + i + (rounds + 1) = base + (i + 1) + rounds := by omega
    have hplace : i + (rounds + 1) = i + 1 + rounds := by omega
    rw [hshift, hplace] at hfit
    rw [chooseLoop, ← Nat.add_assoc base i 1, Nat.mod_eq_of_lt hprod, hstep, hshift, hplace]
    exact ih (by omega) hfit

theorem chooseLoop_start {base rounds : ℕ} (hn : base + rounds < 2 ^ 32)
    (hfit : (base + rounds).choose rounds < 2 ^ 64) :
    chooseLoop base rounds 1 1 = (base + rounds).choose rounds := by
  have h := @chooseLoop_eq base rounds 0 hn (by rwa [Nat.zero_add])
  rwa [Nat.zero_add, Nat.choose_zero_right, Nat.zero_add] at h

/-- What fits in 64 bits is the binomial. -/
theorem n_choose_k_eq {n k : ℕ} (hn : n < 2 ^ 16) (hfit : n.choose k < 2 ^ 64) : n_choose_k n k = n.choose k := by
  rw [n_choose_k]
  by_cases hgt : k > n
  · rw [if_pos hgt, Nat.choose_eq_zero_of_lt hgt]
  by_cases heq : k = n
  · rw [if_neg hgt, if_pos heq, heq, Nat.choose_self]
  rw [if_neg hgt, if_neg heq, Nat.mod_eq_of_lt (show 2 * k < 2 ^ 32 by omega)]
  by_cases hhalf : n < 2 * k
  · have hsum : n - k + k = n := by omega
    have hloop := @chooseLoop_start (n - k) k (by omega) (by rwa [hsum])
    rw [if_pos hhalf, hloop, hsum, Nat.mod_eq_of_lt hfit]
  · have hsum : k + (n - k) = n := by omega
    have hsymm : n.choose (n - k) = n.choose k := Nat.choose_symm (by omega)
    have hloop := @chooseLoop_start k (n - k) (by omega) (by rwa [hsum, hsymm])
    rw [if_neg hhalf, hloop, hsum, hsymm, Nat.mod_eq_of_lt hfit]

section Coefficients

variable {a b s : ℕ}

/-- The coefficient as a quotient of factorials. -/
theorem magnitude_mul (ha : s ≤ a) (hb : s ≤ b) :
    magnitude (a + b) b s * (s.factorial * (b - s).factorial * (a - s).factorial) = (a + b - s).factorial := by
  have houter := Nat.choose_mul_factorial_mul_factorial (show s ≤ a + b - s by omega)
  have hinner := Nat.choose_mul_factorial_mul_factorial (show b - s ≤ a + b - 2 * s by omega)
  rw [show a + b - s - s = a + b - 2 * s by omega] at houter
  rw [show a + b - 2 * s - (b - s) = a - s by omega] at hinner
  rw [magnitude, ← houter, ← hinner]
  ring

/-- **One coefficient to the next.** -/
theorem magnitude_step (ha : s < a) (hb : s < b) :
    magnitude (a + b) b s * ((a - s) * (b - s)) = magnitude (a + b) b (s + 1) * ((s + 1) * (a + b - s)) := by
  obtain ⟨a, rfl⟩ : ∃ k, a = s + 1 + k := ⟨a - (s + 1), by omega⟩
  obtain ⟨b, rfl⟩ : ∃ k, b = s + 1 + k := ⟨b - (s + 1), by omega⟩
  have hthis := @magnitude_mul (s + 1 + a) (s + 1 + b) s (by omega) (by omega)
  have hnext := @magnitude_mul (s + 1 + a) (s + 1 + b) (s + 1) (by omega) (by omega)
  rw [show s + 1 + b - s = b + 1 by omega, show s + 1 + a - s = a + 1 by omega,
    show s + 1 + a + (s + 1 + b) - s = (s + 1 + a + (s + 1 + b) - (s + 1)) + 1 by omega,
    Nat.factorial_succ b, Nat.factorial_succ a, Nat.factorial_succ (s + 1 + a + (s + 1 + b) - (s + 1)), ← hnext,
    show s + 1 + b - (s + 1) = b by omega, show s + 1 + a - (s + 1) = a by omega, Nat.factorial_succ s] at hthis
  rw [show s + 1 + a - s = a + 1 by omega, show s + 1 + b - s = b + 1 by omega,
    show s + 1 + a + (s + 1 + b) - s = (s + 1 + a + (s + 1 + b) - (s + 1)) + 1 by omega]
  have hpos : 0 < s.factorial * b.factorial * a.factorial :=
    Nat.mul_pos (Nat.mul_pos (Nat.factorial_pos s) (Nat.factorial_pos b)) (Nat.factorial_pos a)
  refine Nat.eq_of_mul_eq_mul_right hpos ?_
  linear_combination hthis

end Coefficients

/-! ## The map -/

theorem put_append {key : ℕ} {v : ℚ} {left right : Poly} (hl : ∀ p ∈ left, key < p.1) (hr : ∀ p ∈ right, p.1 < key) :
    put key v (left ++ right) = left ++ (key, v) :: right := by
  induction left with
  | nil =>
    cases right with
    | nil => rfl
    | cons p right =>
      have hp := hr p (List.mem_cons_self ..)
      rw [List.nil_append, put, if_neg hp.ne, if_pos hp, List.nil_append]
  | cons p left ih =>
    have hp := hl p (List.mem_cons_self ..)
    rw [List.cons_append, put, if_neg hp.ne', if_neg hp.not_gt, ih fun q hq => hl q (List.mem_cons_of_mem p hq),
      List.cons_append]

/-- Smaller and smaller exponents stay in the order of the insertions. -/
theorem foldl_put {n : ℕ} {v : ℕ → ℚ} {right : Poly} : ∀ {rounds : ℕ}, (∀ p ∈ right, p.1 + 2 * rounds ≤ n) →
    2 * rounds ≤ n + 1 →
    (List.range rounds).foldl (fun poly kk => put (n - 2 * kk) (v kk) poly) right =
      (List.range rounds).map (fun kk => (n - 2 * kk, v kk)) ++ right := by
  intro rounds
  induction rounds with
  | zero => intro _ _; rfl
  | succ rounds ih =>
    intro hr hn
    have hsmaller : ∀ p ∈ right, p.1 + 2 * rounds ≤ n := fun p hp => (by have := hr p hp; omega)
    rw [List.range_succ, List.foldl_append, List.foldl_cons, List.foldl_nil, ih hsmaller (by omega), put_append,
        List.map_append,
      List.append_assoc]
    · rfl
    · intro p hp
      obtain ⟨kk, hkk, rfl⟩ := List.mem_map.1 hp
      have hlt := List.mem_range.1 hkk
      show n - 2 * rounds < n - 2 * kk
      omega
    · intro p hp
      have hle := hr p hp
      omega

theorem foldl_add {f : ℕ → ℚ} : ∀ rounds, (List.range rounds).foldl (fun sum s => sum + f s) 0 = ∑ s ∈ range rounds, f s
  | 0 => rfl
  | rounds + 1 => by rw [List.range_succ, List.foldl_append, foldl_add rounds, sum_range_succ]; rfl

theorem foldl_ratioSum {x : ℚ} {ratio : ℕ → ℚ} : ∀ rounds,
    (List.range rounds).foldl (fun sum kk => sum * (x * ratio kk) + 1) 1 = ratioSum x ratio rounds
  | 0 => rfl
  | rounds + 1 => by rw [List.range_succ, List.foldl_append, foldl_ratioSum rounds]; rfl

/-! ## The two ways -/

section Ways

variable {n m : ℕ}

/-- The binomials of a mode fit in 64 bits. -/
def Fits (n bb : ℕ) : Prop := ∀ s ≤ bb, (n - s).choose s < 2 ^ 64 ∧ (n - 2 * s).choose (bb - s) < 2 ^ 64

/-- The entry of a term. -/
def term (n bb s : ℕ) : ℕ × ℚ := (n - 2 * s, (-1) ^ s * magnitude n bb s)

theorem coefficients_eq {bb : ℕ} (hn : n < 2 ^ 16) (hbb : 2 * bb ≤ n) (hfit : Fits n bb) : ∀ {rounds s : ℕ},
    s + rounds ≤ bb + 1 →
    RadialPolynomial.coefficients n bb rounds s ((-1) ^ (s + 1)) ((List.range s).map (term n bb)) =
      (List.range (s + rounds)).map (term n bb) := by
  intro rounds
  induction rounds with
  | zero => intro s _; rfl
  | succ rounds ih =>
    intro s hs
    obtain ⟨houter, hinner⟩ := hfit s (by omega)
    have hsign : (-1 : ℤ) ^ (s + 1) * -1 = (-1) ^ s := by ring
    have hvalue : ((n_choose_k (n - s) s : ℚ) * n_choose_k (n - 2 * s) (bb - s) * ((-1 : ℤ) ^ s : ℤ)) =
        (-1) ^ s * magnitude n bb s := by
      rw [n_choose_k_eq (by omega) houter, n_choose_k_eq (by omega) hinner, magnitude]
      push_cast
      ring
    have hput : put (n - 2 * s) ((-1) ^ s * magnitude n bb s) ((List.range s).map (term n bb)) =
        (List.range (s + 1)).map (term n bb) := by
      have h := @put_append (n - 2 * s) ((-1) ^ s * magnitude n bb s) ((List.range s).map (term n bb)) [] ?_ (by simp)
      · rw [List.append_nil] at h
        rw [h, List.range_succ, List.map_append]
        rfl
      · intro p hp
        obtain ⟨s', hs', rfl⟩ := List.mem_map.1 hp
        have hlt := List.mem_range.1 hs'
        show n - 2 * s < n - 2 * s'
        omega
    rw [RadialPolynomial.coefficients, hsign, hvalue, hput, show (-1 : ℤ) ^ s = (-1) ^ (s + 1 + 1) by ring,
        ih (by omega),
      show s + 1 + rounds = s + (rounds + 1) by omega]

/-- **By the terms.** -/
theorem eval_coefficients {flags : ℕ} (hn : n < 2 ^ 16) (hfit : Fits n ((n - m) / 2))
    (hold : flags &&& OLD_METHOD ≠ 0) (r : ℚ) :
    (RadialPolynomial.calc n m flags).eval r = radial n m r := by
  have hpoly : (RadialPolynomial.calc n m flags).poly = (List.range ((n - m) / 2 + 1)).map (term n ((n - m) / 2)) := by
    have h := @coefficients_eq n ((n - m) / 2) hn (by omega) hfit ((n - m) / 2 + 1) 0 (by omega)
    rw [Nat.zero_add, Nat.zero_add] at h
    rw [RadialPolynomial.calc, ← h]
    dsimp only
    rw [if_neg (by simpa using hold)]
    rfl
  have huse : (RadialPolynomial.calc n m flags).useRatios = false := by
    simpa [RadialPolynomial.calc] using hold
  rw [RadialPolynomial.eval, huse, if_neg Bool.false_ne_true, hpoly, List.foldl_map, foldl_add]
  refine sum_congr rfl fun s _ => ?_
  rw [term]
  ring

/-- The quotient of a term's coefficient and the next one's, as the map has it. -/
def termRatio (n m kk : ℕ) : ℚ :=
  -(((kk + 1) * (n - kk) : ℕ) / (((n + m) / 2 - kk) * ((n - m) / 2 - kk) : ℕ))

theorem mul_termRatio {bb s : ℕ} (hs : s < bb) : (-1) ^ (s + 1) * (magnitude (m + 2 * bb) bb (s + 1) : ℚ) *
    termRatio (m + 2 * bb) m s =
    (-1) ^ s * magnitude (m + 2 * bb) bb s := by
  have haa : (m + 2 * bb + m) / 2 = m + bb := by omega
  have hbb : (m + 2 * bb - m) / 2 = bb := by omega
  have hstep := @magnitude_step (m + bb) bb s (by omega) hs
  rw [show m + bb + bb = m + 2 * bb by omega] at hstep
  have hpos : (((m + bb - s) * (bb - s) : ℕ) : ℚ) ≠ 0 :=
    Nat.cast_ne_zero.2 (Nat.mul_ne_zero (by omega) (by omega))
  have hcast : (magnitude (m + 2 * bb) bb s : ℚ) * ((m + bb - s) * (bb - s) : ℕ) =
      magnitude (m + 2 * bb) bb (s + 1) * ((s + 1) * (m + 2 * bb - s) : ℕ) := by exact_mod_cast hstep
  have hquot := (eq_div_iff hpos).2 hcast
  rw [termRatio, haa, hbb, hquot]
  ring

/-- The entries of the map, the ratios and the factor of the last term. -/
def listed (m bb : ℕ) : Poly :=
  (List.range bb).map (fun kk => (m + 2 * bb - 2 * kk, termRatio (m + 2 * bb) m kk)) ++
    [(m, (-1 : ℚ) ^ bb * magnitude (m + 2 * bb) bb bb)]

theorem lastFactor_eq {bb : ℕ} (hn : m + 2 * bb < 2 ^ 16) (hfit : Fits (m + 2 * bb) bb) :
    (if bb % 2 = 1 then (n_choose_k (m + bb) m : ℚ) * -1 else n_choose_k (m + bb) m) =
      (-1) ^ bb * magnitude (m + 2 * bb) bb bb := by
  have hhalf : m + 2 * bb - bb = m + bb := by omega
  have hlast : magnitude (m + 2 * bb) bb bb = (m + bb).choose m := by
    rw [magnitude, Nat.sub_self, Nat.choose_zero_right, Nat.mul_one, hhalf, Nat.choose_symm_add]
  have hfits : (m + bb).choose m < 2 ^ 64 := by
    have h := (hfit bb le_rfl).1
    rwa [hhalf, ← Nat.choose_symm_add] at h
  rw [n_choose_k_eq (by omega) hfits, hlast]
  by_cases hodd : bb % 2 = 1
  · rw [if_pos hodd, (Nat.odd_iff.2 hodd).neg_one_pow]
    ring
  · rw [if_neg hodd, (Nat.even_iff.2 (by omega)).neg_one_pow]
    ring

theorem poly_eq_listed {bb flags : ℕ} (hn : m + 2 * bb < 2 ^ 16) (hfit : Fits (m + 2 * bb) bb)
    (hratios : flags &&& OLD_METHOD = 0) :
    (RadialPolynomial.calc (m + 2 * bb) m flags).poly = listed m bb := by
  have haa : (m + 2 * bb + m) / 2 = m + bb := by omega
  have hbb : (m + 2 * bb - m) / 2 = bb := by omega
  have h := @foldl_put (m + 2 * bb) (termRatio (m + 2 * bb) m) [(m, (-1 : ℚ) ^ bb * magnitude (m + 2 * bb) bb bb)] bb
    (by simp) (by omega)
  rw [listed, ← h, ← lastFactor_eq hn hfit, RadialPolynomial.calc]
  dsimp only
  rw [if_pos (by simpa using hratios), haa, hbb]
  simp only [termRatio, haa, hbb, put]

/-- The last factor is found under the smallest exponent, and no ratio is. -/
theorem find_listed (m bb : ℕ) :
    (listed m bb).find? (fun p => p.1 == m) = some (m, (-1 : ℚ) ^ bb * magnitude (m + 2 * bb) bb bb) := by
  rw [listed, List.find?_append, List.find?_eq_none.2, Option.none_or, List.find?_cons_of_pos (by simp)]
  intro p hp
  obtain ⟨kk, hkk, rfl⟩ := List.mem_map.1 hp
  have hlt := List.mem_range.1 hkk
  show ¬(m + 2 * bb - 2 * kk == m) = true
  simp only [beq_iff_eq]
  omega

/-- The pass over the map leaves the last factor out. -/
theorem foldl_listed (m bb : ℕ) (r : ℚ) :
    (listed m bb).foldl (fun sum p => if p.1 = m then sum else sum * (r * r * p.2) + 1) 1 =
      ratioSum (r * r) (termRatio (m + 2 * bb) m) bb := by
  rw [listed, List.foldl_append, List.foldl_cons, List.foldl_nil, if_pos rfl, List.foldl_map, ← foldl_ratioSum]
  refine List.foldl_ext _ _ _ fun sum kk hkk => ?_
  have hlt := List.mem_range.1 hkk
  rw [if_neg (show m + 2 * bb - 2 * kk ≠ m by omega)]

/-- **By the ratios**: the sum of the scheme, times the last term. -/
theorem eval_ratios {bb flags : ℕ} (hn : m + 2 * bb < 2 ^ 16) (hfit : Fits (m + 2 * bb) bb)
    (hratios : flags &&& OLD_METHOD = 0)
    (r : ℚ) : (RadialPolynomial.calc (m + 2 * bb) m flags).eval r = radial (m + 2 * bb) m r := by
  have huse : (RadialPolynomial.calc (m + 2 * bb) m flags).useRatios = true := by
    simpa [RadialPolynomial.calc] using hratios
  have hm : (RadialPolynomial.calc (m + 2 * bb) m flags).m = m := rfl
  have hhorner := mul_ratioSum (c := fun s => (-1) ^ s * (magnitude (m + 2 * bb) bb s : ℚ)) (x := r * r)
    fun s hs => mul_termRatio (m := m) hs
  rw [RadialPolynomial.eval, huse, if_pos rfl, hm, poly_eq_listed hn hfit hratios, foldl_listed, find_listed]
  dsimp only
  rw [radial, show (m + 2 * bb - m) / 2 = bb by omega]
  calc ratioSum (r * r) (termRatio (m + 2 * bb) m) bb * ((-1) ^ bb * magnitude (m + 2 * bb) bb bb * r ^ m)
      = (-1) ^ bb * magnitude (m + 2 * bb) bb bb * ratioSum (r * r) (termRatio (m + 2 * bb) m) bb * r ^ m := by ring
    _ = (∑ s ∈ range (bb + 1), (-1) ^ s * magnitude (m + 2 * bb) bb s * (r * r) ^ (bb - s)) * r ^ m := by rw [hhorner]
    _ = _ := by
      rw [sum_mul]
      refine sum_congr rfl fun s hs => ?_
      have hle := Nat.lt_succ_iff.1 (mem_range.1 hs)
      rw [mul_assoc, ← pow_two, ← pow_mul, ← pow_add, show 2 * (bb - s) + m = m + 2 * bb - 2 * s by omega]

/-- **Both ways give the radial polynomial.** -/
theorem radial_evaluations (hn : n < 2 ^ 16) (hm : m ≤ n) (hpar : (n - m) % 2 = 0)
    (hfit : ∀ s ≤ (n - m) / 2, (n - s).choose s < 2 ^ 64 ∧ (n - 2 * s).choose ((n - m) / 2 - s) < 2 ^ 64) (r : ℚ) :
    (RadialPolynomial.calc n m 0).eval r = (RadialPolynomial.calc n m OLD_METHOD).eval r ∧
      ∀ flags, (RadialPolynomial.calc n m flags).eval r = radial n m r := by
  have hboth : ∀ flags, (RadialPolynomial.calc n m flags).eval r = radial n m r := by
    intro flags
    by_cases hold : flags &&& OLD_METHOD = 0
    · obtain ⟨bb, rfl⟩ : ∃ bb, n = m + 2 * bb := ⟨(n - m) / 2, by omega⟩
      rw [show (m + 2 * bb - m) / 2 = bb by omega] at hfit
      exact eval_ratios hn hfit hold r
    · exact eval_coefficients hn hfit hold r
  exact ⟨(hboth 0).trans (hboth OLD_METHOD).symm, hboth⟩

/-- The fourth order with azimuthal order two, at the middle. -/
theorem radial_evaluations_astigmatism :
    (RadialPolynomial.calc 4 2 0).eval 0 = (RadialPolynomial.calc 4 2 OLD_METHOD).eval 0 ∧
      ∀ flags, (RadialPolynomial.calc 4 2 flags).eval 0 = radial 4 2 0 :=
  radial_evaluations (by decide) (by decide) (by decide) (by decide) 0

end Ways

end Redux.Image.Zernike
