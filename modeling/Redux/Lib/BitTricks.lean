import Mathlib.Algebra.BigOperators.Intervals
import Mathlib.Data.Nat.Bitwise
import Mathlib.Data.Nat.Digits.Lemmas
import Mathlib.Data.Nat.Size
import Mathlib.Order.Lattice.Nat
import Redux.Lib.RowMajor

/-!
# Lib.BitTricks — operations on all bits of a word at a time

A word that is or-ed with itself, shifted by 1, 2, 4 and so on, has all bits set up to its highest one
(`Window.eq_of_lt`).  A word and its negative have the lowest bit in common (`and_neg`).  Operations on words that are
cut into lanes do the same to each lane, as long as nothing is carried from one to the next (`shiftRight_and_lanes`,
`add_shiftRight_and_lanes`).
-/

namespace Redux.Lib.BitTricks

/-! ## The bits below the highest one -/

section Window

variable {v x k i : ℕ}

/-- A bit of `x` is set where one of the `k` bits from there on is in `v`. -/
def Window (v x k : ℕ) : Prop := ∀ i, x.testBit i = true ↔ ∃ j, i ≤ j ∧ j < i + k ∧ v.testBit j = true

theorem window_one (v : ℕ) : Window v v 1 := by
  intro i
  constructor
  · intro h
    exact ⟨i, le_rfl, Nat.lt_succ_self i, h⟩
  · rintro ⟨j, hij, hj, h⟩
    rwa [le_antisymm hij (Nat.lt_succ_iff.1 hj)]

/-- **Or-ing a word with itself shifted by the length of the windows** makes them twice as long. -/
theorem Window.or_shiftRight (h : Window v x k) : Window v (x ||| x >>> k) (2 * k) := by
  intro i
  rw [Nat.testBit_or, Nat.testBit_shiftRight, Bool.or_eq_true, h i, h (k + i)]
  constructor
  · rintro (⟨j, hij, hj, hv⟩ | ⟨j, hij, hj, hv⟩)
    · exact ⟨j, hij, by omega, hv⟩
    · exact ⟨j, by omega, by omega, hv⟩
  · rintro ⟨j, hij, hj, hv⟩
    rcases Nat.lt_or_ge j (i + k) with hlt | hge
    · exact .inl ⟨j, hij, hlt, hv⟩
    · exact .inr ⟨j, by omega, by omega, hv⟩

/-- **With windows as long as the word** all bits below the size of the number are set. -/
theorem Window.eq_of_lt (h : Window v x k) (hv : v < 2 ^ k) : x = 2 ^ v.size - 1 := by
  refine Nat.eq_of_testBit_eq fun i => ?_
  rw [Bool.eq_iff_iff, h i, Nat.testBit_two_pow_sub_one, decide_eq_true_eq, Nat.lt_size]
  constructor
  · rintro ⟨j, hij, -, hset⟩
    exact (Nat.pow_le_pow_right two_pos hij).trans (Nat.ge_two_pow_of_testBit hset)
  · intro hle
    obtain ⟨j, hj, hset⟩ := Nat.exists_ge_and_testBit_of_ge_two_pow hle
    refine ⟨j, hj, ?_, hset⟩
    have hlt : 2 ^ j < 2 ^ k := (Nat.ge_two_pow_of_testBit hset).trans_lt hv
    exact ((Nat.pow_lt_pow_iff_right one_lt_two).1 hlt).trans_le (Nat.le_add_left k i)

end Window

/-! ## The lowest bit -/

section Lowest

variable {w k : ℕ} {v : BitVec w}

theorem exists_lowest (hv : v ≠ 0#w) : ∃ k < w, IsLeast {i | v.getLsbD i = true} k := by
  have hne : ∃ i, v.getLsbD i = true := by
    by_contra hall
    refine hv (BitVec.eq_of_getLsbD_eq fun i _ => ?_)
    rw [BitVec.getLsbD_zero, ← Bool.not_eq_true]
    exact fun hset => hall ⟨i, hset⟩
  refine ⟨sInf {i | v.getLsbD i = true}, ?_, Nat.sInf_mem hne, fun i hi => Nat.sInf_le hi⟩
  exact BitVec.lt_of_getLsbD (Nat.sInf_mem hne)

/-- **A word and its negative have the lowest bit in common**, and no other. -/
theorem and_neg (hk : IsLeast {i | v.getLsbD i = true} k) : v &&& -v = BitVec.twoPow w k := by
  refine BitVec.eq_of_getLsbD_eq fun i hi => ?_
  rw [BitVec.getLsbD_and, BitVec.getLsbD_neg, BitVec.getLsbD_twoPow, Bool.eq_iff_iff]
  have hkset : v.getLsbD k = true := hk.1
  have hkw : k < w := BitVec.lt_of_getLsbD hkset
  rcases lt_trichotomy i k with hlt | rfl | hgt
  · have hclear : v.getLsbD i = false := Bool.eq_false_iff.2 fun hset => absurd (hk.2 hset) (Nat.not_le.2 hlt)
    simp [hclear, hlt.ne']
  · have hbelow : ¬∃ j < i, v.getLsbD j = true := fun ⟨j, hj, hset⟩ => absurd (hk.2 hset) (Nat.not_le.2 hj)
    simp [hkset, hkw, hbelow]
  · have hbelow : ∃ j < i, v.getLsbD j = true := ⟨k, hgt, hkset⟩
    simp [hi, hbelow, hgt.ne]

end Lowest

/-! ## Multiples of a power of two -/

section Multiples

variable {w p : ℕ}

theorem toNat_mask (hp : p < w) : (BitVec.twoPow w p - 1#w).toNat = 2 ^ p - 1 := by
  have hone : 1 ≤ 2 ^ p := Nat.one_le_two_pow
  have hlt : 2 ^ p < 2 ^ w := Nat.pow_lt_pow_right one_lt_two hp
  rw [BitVec.toNat_sub_of_le]
  · rw [BitVec.toNat_twoPow, Nat.mod_eq_of_lt hlt, BitVec.toNat_one (by omega)]
  · rw [BitVec.le_def, BitVec.toNat_twoPow, Nat.mod_eq_of_lt hlt, BitVec.toNat_one (by omega)]
    exact hone

/-- **Clearing the low bits** leaves the greatest multiple that is not above. -/
theorem toNat_and_not_mask (x : BitVec w) (hp : p < w) :
    (x &&& ~~~(BitVec.twoPow w p - 1#w)).toNat = x.toNat / 2 ^ p * 2 ^ p := by
  refine Nat.eq_of_testBit_eq fun i => ?_
  have hmask : (BitVec.twoPow w p - 1#w).getLsbD i = decide (i < p) := by
    rw [← BitVec.testBit_toNat, toNat_mask hp, Nat.testBit_two_pow_sub_one]
  rw [BitVec.testBit_toNat, BitVec.getLsbD_and, BitVec.getLsbD_not, hmask, Nat.mul_comm, Nat.testBit_two_pow_mul,
    Nat.testBit_div_two_pow]
  by_cases hi : p ≤ i
  · rw [Nat.sub_add_cancel hi, BitVec.testBit_toNat]
    cases hset : x.getLsbD i with
    | true => simp [BitVec.lt_of_getLsbD hset, hi]
    | false => simp
  · simp [hi, Nat.not_le.1 hi]

end Multiples

/-! ## Lanes -/

section Lanes

open Nat (ofDigits ofDigits_cons)

variable {w s n m a d x y : ℕ} {L : List ℕ}

/-- Every word is made of lanes. -/
theorem exists_lanes (w : ℕ) : ∀ {n v : ℕ}, v < (2 ^ w) ^ n →
    ∃ L, L.length = n ∧ (∀ d ∈ L, d < 2 ^ w) ∧ ofDigits (2 ^ w) L = v
  | 0, v, hv => ⟨[], rfl, fun _ h => absurd h List.not_mem_nil, (Nat.lt_one_iff.1 hv).symm⟩
  | n + 1, v, hv => by
    obtain ⟨L, hlength, hlt, hL⟩ := @exists_lanes w n (v / 2 ^ w) (Nat.div_lt_of_lt_mul (by rwa [← Nat.pow_succ']))
    refine ⟨v % 2 ^ w :: L, ?_, List.forall_mem_cons.2 ⟨Nat.mod_lt _ (Nat.two_pow_pos w), hlt⟩, ?_⟩
    · rw [List.length_cons, hlength]
    · rw [ofDigits_cons, hL, Nat.mod_add_div]

theorem ofDigits_map_add (b : ℕ) (f g : ℕ → ℕ) : ∀ L : List ℕ,
    ofDigits b (L.map fun d => f d + g d) = ofDigits b (L.map f) + ofDigits b (L.map g)
  | [] => rfl
  | d :: L => by
    rw [List.map_cons, List.map_cons, List.map_cons, ofDigits_cons, ofDigits_cons, ofDigits_cons,
      ofDigits_map_add b f g L]
    ring

/-- Where no lane borrows from the next one. -/
theorem ofDigits_map_sub {b : ℕ} {f g : ℕ → ℕ} (h : ∀ d ∈ L, g d ≤ f d) :
    ofDigits b (L.map fun d => f d - g d) = ofDigits b (L.map f) - ofDigits b (L.map g) := by
  have hadd := ofDigits_map_add b (fun d => f d - g d) g L
  have hf : (L.map fun d => f d - g d + g d) = L.map f := List.map_congr_left fun d hd => Nat.sub_add_cancel (h d hd)
  rw [hf] at hadd
  omega

/-- A lane and the rest. -/
theorem and_add (hd : d < 2 ^ w) (hm : m < 2 ^ w) :
    (d + 2 ^ w * x) &&& (m + 2 ^ w * y) = (d &&& m) + 2 ^ w * (x &&& y) := by
  have hmod : ∀ {c z : ℕ}, c < 2 ^ w → (c + 2 ^ w * z) % 2 ^ w = c := fun hc => by
    rw [Nat.add_mul_mod_self_left, Nat.mod_eq_of_lt hc]
  have hdiv : ∀ {c z : ℕ}, c < 2 ^ w → (c + 2 ^ w * z) / 2 ^ w = z := fun hc => by
    rw [Nat.add_mul_div_left _ _ (Nat.two_pow_pos w), Nat.div_eq_of_lt hc, Nat.zero_add]
  rw [← Nat.mod_add_div ((d + 2 ^ w * x) &&& (m + 2 ^ w * y)) (2 ^ w), Nat.and_mod_two_pow, Nat.and_div_two_pow,
    hmod hd, hmod hm, hdiv hd, hdiv hm]

/-- A mask with low bits only. -/
theorem and_eq_mod_and (hm : m < 2 ^ s) : a &&& m = a % 2 ^ s &&& m := by
  have hsplit := and_add (x := a / 2 ^ s) (y := 0) (Nat.mod_lt a (Nat.two_pow_pos s)) hm
  rwa [Nat.mod_add_div, Nat.and_zero, Nat.mul_zero, Nat.add_zero, Nat.add_zero] at hsplit

/-- What a shift takes from the next lane goes to the top of a lane. -/
theorem shiftRight_add (hs : s ≤ w) :
    (d + 2 ^ w * x) >>> s = d >>> s + 2 ^ (w - s) * (x % 2 ^ s) + 2 ^ w * (x >>> s) := by
  have hw : 2 ^ w = 2 ^ s * 2 ^ (w - s) := by rw [← Nat.pow_add, Nat.add_sub_cancel' hs]
  rw [Nat.shiftRight_eq_div_pow, Nat.shiftRight_eq_div_pow, Nat.shiftRight_eq_div_pow, hw, Nat.mul_assoc,
    Nat.add_mul_div_left _ _ (Nat.two_pow_pos s), Nat.add_assoc]
  congr 1
  calc 2 ^ (w - s) * x = 2 ^ (w - s) * (x % 2 ^ s + 2 ^ s * (x / 2 ^ s)) := by rw [Nat.mod_add_div]
    _ = 2 ^ (w - s) * (x % 2 ^ s) + 2 ^ s * 2 ^ (w - s) * (x / 2 ^ s) := by ring

/-- **A mask in every lane.** -/
theorem and_lanes (hm : m < 2 ^ w) : ∀ {L : List ℕ}, (∀ d ∈ L, d < 2 ^ w) →
    ofDigits (2 ^ w) L &&& ofDigits (2 ^ w) (List.replicate L.length m) = ofDigits (2 ^ w) (L.map (· &&& m))
  | [], _ => by simp
  | d :: L, h => by
    obtain ⟨hd, hL⟩ := List.forall_mem_cons.1 h
    rw [List.length_cons, List.replicate_succ, List.map_cons, ofDigits_cons, ofDigits_cons, ofDigits_cons,
      and_add hd hm, and_lanes hm hL]

/-- **A shift, if the mask leaves out what comes from the next lane.** -/
theorem shiftRight_and_lanes (hs : s ≤ w) (hm : m < 2 ^ (w - s)) : ∀ {L : List ℕ}, (∀ d ∈ L, d < 2 ^ w) →
    ofDigits (2 ^ w) L >>> s &&& ofDigits (2 ^ w) (List.replicate L.length m) =
      ofDigits (2 ^ w) (L.map fun d => d >>> s &&& m)
  | [], _ => by simp
  | d :: L, h => by
    obtain ⟨hd, hL⟩ := List.forall_mem_cons.1 h
    have hw : 2 ^ w = 2 ^ s * 2 ^ (w - s) := by rw [← Nat.pow_add, Nat.add_sub_cancel' hs]
    have hshift : d >>> s < 2 ^ (w - s) := by
      rw [Nat.shiftRight_eq_div_pow]
      exact Nat.div_lt_of_lt_mul (hw ▸ hd)
    have hmw : m < 2 ^ w := hm.trans_le (Nat.pow_le_pow_right two_pos (Nat.sub_le w s))
    have htop : d >>> s + 2 ^ (w - s) * (ofDigits (2 ^ w) L % 2 ^ s) < 2 ^ w := by
      rw [hw, Nat.add_comm, Nat.mul_comm]
      exact RowMajor.index_lt (Nat.mod_lt _ (Nat.two_pow_pos s)) hshift
    rw [List.length_cons, List.replicate_succ, List.map_cons, ofDigits_cons, ofDigits_cons, ofDigits_cons,
      shiftRight_add hs, and_add htop hmw, shiftRight_and_lanes hs hm hL, and_eq_mod_and hm,
      Nat.add_mul_mod_self_left, Nat.mod_eq_of_lt hshift]

theorem ofDigits_mod_le {c : ℕ} (h : ∀ d ∈ L, d % 2 ^ s ≤ c) : ofDigits (2 ^ (2 * s)) L % 2 ^ s ≤ c := by
  cases L with
  | nil => simp
  | cons d L =>
    rw [ofDigits_cons, Nat.two_mul, Nat.pow_add, Nat.mul_assoc, Nat.add_mul_mod_self_left]
    exact h d List.mem_cons_self

/-- **A sum with the upper halves of the lanes**, whose halves have all room for it. -/
theorem add_shiftRight_and_lanes {c : ℕ} (hc : 2 * c < 2 ^ s) (hm : m < 2 ^ s) : ∀ {L : List ℕ},
    (∀ d ∈ L, d % 2 ^ s ≤ c ∧ d >>> s ≤ c) →
      (ofDigits (2 ^ (2 * s)) L + ofDigits (2 ^ (2 * s)) L >>> s) &&&
          ofDigits (2 ^ (2 * s)) (List.replicate L.length m) =
        ofDigits (2 ^ (2 * s)) (L.map fun d => (d + d >>> s) &&& m)
  | [], _ => by simp
  | d :: L, h => by
    obtain ⟨⟨hlow, hhigh⟩, hL⟩ := List.forall_mem_cons.1 h
    have hmw : m < 2 ^ (2 * s) := hm.trans_le (Nat.pow_le_pow_right two_pos (by omega))
    have hnext : ofDigits (2 ^ (2 * s)) L % 2 ^ s ≤ c := ofDigits_mod_le fun d hd => (hL d hd).1
    have hlt : ∀ y ≤ c, d + d >>> s + 2 ^ s * y < 2 ^ (2 * s) := by
      intro y hy
      have hd : d = d % 2 ^ s + 2 ^ s * d >>> s := by rw [Nat.shiftRight_eq_div_pow, Nat.mod_add_div]
      have hhigh' := Nat.mul_le_mul_left (2 ^ s) hhigh
      have hy' := Nat.mul_le_mul_left (2 ^ s) hy
      have hroom : 2 ^ s * (2 * c + 1) ≤ 2 ^ s * 2 ^ s := Nat.mul_le_mul_left _ hc
      rw [Nat.mul_add, Nat.mul_one, Nat.mul_left_comm] at hroom
      rw [Nat.two_mul, Nat.pow_add]
      omega
    have hsum : d + 2 ^ (2 * s) * ofDigits (2 ^ (2 * s)) L + (d + 2 ^ (2 * s) * ofDigits (2 ^ (2 * s)) L) >>> s =
        d + d >>> s + 2 ^ s * (ofDigits (2 ^ (2 * s)) L % 2 ^ s) +
          2 ^ (2 * s) * (ofDigits (2 ^ (2 * s)) L + ofDigits (2 ^ (2 * s)) L >>> s) := by
      rw [shiftRight_add (by omega), show 2 * s - s = s by omega]
      ring
    rw [List.length_cons, List.replicate_succ, List.map_cons, ofDigits_cons, ofDigits_cons, ofDigits_cons, hsum,
      and_add (hlt _ hnext) hmw, add_shiftRight_and_lanes hc hm hL, and_eq_mod_and hm, Nat.add_mul_mod_self_left,
      ← and_eq_mod_and hm]

/-! ### The sum of the lanes -/

/-- A one in each of `n` lanes. -/
def ones (b n : ℕ) : ℕ := ofDigits b (List.replicate n 1)

theorem ones_succ (b n : ℕ) : ones b (n + 1) = 1 + b * ones b n := by
  rw [ones, List.replicate_succ, ofDigits_cons, ones]

theorem ones_succ' (b : ℕ) : ∀ n, ones b (n + 1) = ones b n + b ^ n
  | 0 => by simp [ones]
  | n + 1 =>
    calc ones b (n + 1 + 1) = 1 + b * (ones b n + b ^ n) := by rw [ones_succ b (n + 1), ones_succ' b n]
      _ = 1 + b * ones b n + b ^ (n + 1) := by ring
      _ = ones b (n + 1) + b ^ (n + 1) := by rw [ones_succ b n]

/-- The product with a one in each lane: the sum of all lanes, between what is above and smaller sums below. -/
theorem exists_mul_ones {b : ℕ} : ∀ {n : ℕ} {L : List ℕ}, L.length = n + 1 →
    ∃ q r, ofDigits b L * ones b (n + 1) = b ^ (n + 1) * q + b ^ n * L.sum + r ∧ r ≤ L.sum * ones b n
  | 0, L, hlength => by
    obtain ⟨a, rfl⟩ := List.length_eq_one_iff.1 hlength
    exact ⟨0, 0, by simp [ones], Nat.zero_le _⟩
  | n + 1, a :: L, hlength => by
    obtain ⟨q, r, hmul, hr⟩ := exists_mul_ones (Nat.succ.inj hlength)
    refine ⟨ofDigits b L + q, b * r + a * ones b (n + 1), ?_, ?_⟩
    · rw [ofDigits_cons, List.sum_cons]
      calc (a + b * ofDigits b L) * ones b (n + 1 + 1)
          = a * ones b (n + 1 + 1) + b * ofDigits b L * ones b (n + 1 + 1) := by ring
        _ = a * (ones b (n + 1) + b ^ (n + 1)) + b * (ofDigits b L * ones b (n + 1)) +
            b ^ (n + 1 + 1) * ofDigits b L := by
          rw [ones_succ' b (n + 1)]
          ring
        _ = _ := by
          rw [hmul]
          ring
    · rw [List.sum_cons]
      calc b * r + a * ones b (n + 1) ≤ b * (L.sum * ones b n) + a * ones b (n + 1) :=
            Nat.add_le_add_right (Nat.mul_le_mul_left b hr) _
        _ = L.sum * (b * ones b n) + a * ones b (n + 1) := by ring
        _ ≤ L.sum * ones b (n + 1) + a * ones b (n + 1) := by
          rw [ones_succ b n]
          exact Nat.add_le_add_right (Nat.mul_le_mul_left _ (Nat.le_add_left _ 1)) _
        _ = (a + L.sum) * ones b (n + 1) := by ring

/-- **The highest lane of the product is the sum of the lanes**, if it has room for it. -/
theorem mul_ones_mod_div {b n : ℕ} {L : List ℕ} (hlength : L.length = n + 1) (hsum : L.sum < b) :
    ofDigits b L * ones b (n + 1) % b ^ (n + 1) / b ^ n = L.sum := by
  obtain ⟨q, r, hmul, hr⟩ := exists_mul_ones (b := b) hlength
  have hpos : 0 < b ^ n := Nat.pow_pos (Nat.zero_lt_of_lt hsum)
  have hlow : L.sum * ones b n < b ^ n := by
    have hle : (L.sum + 1) * ones b n ≤ b * ones b n := Nat.mul_le_mul_right _ hsum
    have hsucc := (ones_succ b n).symm.trans (ones_succ' b n)
    rw [Nat.succ_mul] at hle
    omega
  have hlt : b ^ n * L.sum + r < b ^ (n + 1) := by
    have hle : b ^ n * (L.sum + 1) ≤ b ^ n * b := Nat.mul_le_mul_left _ hsum
    rw [Nat.mul_succ] at hle
    rw [Nat.pow_succ]
    omega
  rw [hmul, Nat.add_assoc, Nat.mul_add_mod, Nat.mod_eq_of_lt hlt, Nat.mul_add_div hpos,
    Nat.div_eq_of_lt (hr.trans_lt hlow), Nat.add_zero]

/-! ### How many bits are set -/

/-- How many of the first `n` bits are set. -/
def bitCount (n v : ℕ) : ℕ := ∑ i ∈ Finset.range n, (v.testBit i).toNat

/-- **The bits of a word are those of its lanes.** -/
theorem bitCount_lanes (w : ℕ) : ∀ {L : List ℕ}, (∀ d ∈ L, d < 2 ^ w) →
    bitCount (w * L.length) (ofDigits (2 ^ w) L) = (L.map (bitCount w)).sum
  | [], _ => rfl
  | d :: L, h => by
    obtain ⟨hd, hL⟩ := List.forall_mem_cons.1 h
    rw [List.map_cons, List.sum_cons, ← bitCount_lanes w hL, List.length_cons, Nat.mul_succ, Nat.add_comm, bitCount,
      Finset.sum_range_add, ofDigits_cons, Nat.add_comm d]
    congr 1
    · refine Finset.sum_congr rfl fun i hi => ?_
      rw [Nat.testBit_two_pow_mul_add _ hd, if_pos (Finset.mem_range.1 hi)]
    · refine Finset.sum_congr rfl fun i _ => ?_
      rw [Nat.testBit_two_pow_mul_add _ hd, if_neg (Nat.not_lt.2 (Nat.le_add_right w i)), Nat.add_sub_cancel_left]

end Lanes

end Redux.Lib.BitTricks
