import Mathlib.Algebra.Order.BigOperators.Group.Finset
import Redux.Lib.BitTricks

/-!
# Util.BitOperations — bits found and counted by tables and parallel sums

The highest bit of a number is found by setting all bits below it, the lowest one by its negative; a multiplication
then makes a place in a table of the power of two that is left.  `nextPowerOfTwo` and `nextEven` round up, and
`countBits` adds the bits up in lanes of growing width.  All of them do what their comments say (`bit_operations`).
-/

namespace Redux.Util.BitOperations

open Redux.Lib.BitTricks

/-! ## Model -/

section Model

def deBruijnMagic32 : BitVec 64 := 0x077CB531#64

def deBruijnSequence32 : List ℕ :=
  [0, 1, 28, 2, 29, 14, 24, 3, 30, 22, 20, 15, 25, 17, 4, 8,
    31, 27, 13, 23, 21, 19, 16, 7, 26, 12, 18, 6, 11, 5, 10, 9]

/-- The sequence shifted by 1 to get 1-based indexing. -/
def deBruijnSequence32p1 : List ℕ :=
  [1, 2, 29, 3, 30, 15, 25, 4, 31, 23, 21, 16, 26, 18, 5, 9,
    32, 28, 14, 24, 22, 20, 17, 8, 27, 13, 19, 7, 12, 6, 11, 10]

def deBruijnMagic64 : BitVec 64 := 0x03f79d71b4cb0a89#64

def deBruijnSequence64p1 : List ℕ :=
  [1, 2, 49, 3, 58, 50, 29, 4,
    62, 59, 51, 43, 39, 30, 18, 5,
    63, 56, 60, 37, 54, 52, 44, 23,
    46, 40, 34, 31, 25, 19, 13, 6,
    64, 48, 57, 28, 61, 42, 38, 17,
    55, 36, 53, 22, 45, 33, 24, 12,
    47, 27, 41, 16, 35, 21, 32, 11,
    26, 15, 20, 10, 14, 9, 8, 7]

/-- `sequence[( ( uint32_t )( v * deBruijnMagic32 ) ) >> 27]`, where the product is one of 64 bits; `none` outside of
the table. -/
def lookup32 (sequence : List ℕ) (v : BitVec 32) : Option ℕ :=
  sequence[((v.setWidth 64 * deBruijnMagic32).setWidth 32 >>> 27).toNat]?

/-- `v |= v >> 1` and so on, up to 16. -/
def smear (v : BitVec 32) : BitVec 32 :=
  let v := v ||| v >>> 1
  let v := v ||| v >>> 2
  let v := v ||| v >>> 4
  let v := v ||| v >>> 8
  v ||| v >>> 16

def log2 (v : BitVec 32) : Option ℕ := lookup32 deBruijnSequence32 (smear v >>> 1 + 1#32)

def findLSB (v : BitVec 32) : Option ℕ := lookup32 deBruijnSequence32 (v &&& -v)

def findLSB1 (v : BitVec 32) : Option ℕ := if v = 0#32 then some 0 else lookup32 deBruijnSequence32p1 (v &&& -v)

def findLSB64 (v : BitVec 64) : Option ℕ :=
  if v = 0#64 then some 0 else deBruijnSequence64p1[(((v &&& -v) * deBruijnMagic64) >>> 58).toNat]?

def nextPowerOfTwo (v : BitVec 32) : BitVec 32 := smear (v - 1#32) + 1#32

/-- `none` if `( 1 << power ) - 1` overflows an `int`. -/
def nextEven (v : BitVec 32) (power : ℕ) : Option (BitVec 32) :=
  if power < 31 then
    let tmp := 1#32 <<< power - 1#32
    some ((v + tmp) &&& ~~~tmp)
  else none

def countBits (v : BitVec 64) : BitVec 64 :=
  let v := v - ((v >>> 1) &&& 0x5555555555555555#64)
  let v := (v &&& 0x3333333333333333#64) + ((v >>> 2) &&& 0x3333333333333333#64)
  (((v + (v >>> 4)) &&& 0x0F0F0F0F0F0F0F0F#64) * 0x0101010101010101#64) >>> 56

end Model

/-! ## The highest bit -/

section Highest

variable {v : BitVec 32} {n k : ℕ}

theorem size_eq_log2_succ (hn : n ≠ 0) : n.size = n.log2 + 1 :=
  le_antisymm (Nat.size_le.2 Nat.lt_log2_self) (Nat.lt_size.2 (Nat.log2_self_le hn))

/-- All bits up to the highest one. -/
theorem toNat_smear (v : BitVec 32) : (smear v).toNat = 2 ^ v.toNat.size - 1 := by
  have h₁ : Window v.toNat (v ||| v >>> 1).toNat 2 := (window_one _).or_shiftRight
  have h₂ := h₁.or_shiftRight
  have h₃ := h₂.or_shiftRight
  have h₄ := h₃.or_shiftRight
  have h₅ := h₄.or_shiftRight
  exact h₅.eq_of_lt v.isLt

/-- What `log2` looks up. -/
theorem smear_half (hv : v ≠ 0#32) : smear v >>> 1 + 1#32 = BitVec.twoPow 32 v.toNat.log2 := by
  have hne : v.toNat ≠ 0 := fun h => hv (BitVec.eq_of_toNat_eq h)
  have hlog : v.toNat.log2 < 32 := (Nat.log2_lt hne).2 v.isLt
  have hlt : 2 ^ v.toNat.log2 < 2 ^ 32 := Nat.pow_lt_pow_right one_lt_two hlog
  have hhalf : (2 ^ v.toNat.size - 1) / 2 + 1 = 2 ^ v.toNat.log2 := by
    have hpos := Nat.two_pow_pos v.toNat.log2
    rw [size_eq_log2_succ hne, Nat.pow_succ]
    omega
  refine BitVec.eq_of_toNat_eq ?_
  rw [BitVec.toNat_add, BitVec.toNat_ushiftRight, toNat_smear, Nat.shiftRight_eq_div_pow, Nat.pow_one,
    BitVec.toNat_one (by decide), hhalf, BitVec.toNat_twoPow]

theorem lookup32_twoPow : ∀ k < 32, lookup32 deBruijnSequence32 (BitVec.twoPow 32 k) = some k := by decide

/-- **The highest bit of a number.** -/
theorem log2_eq (hv : v ≠ 0#32) : log2 v = some v.toNat.log2 := by
  have hne : v.toNat ≠ 0 := fun h => hv (BitVec.eq_of_toNat_eq h)
  exact (congrArg _ (smear_half hv)).trans (lookup32_twoPow _ ((Nat.log2_lt hne).2 v.isLt))

/-- **The least power of two that is not below a number.** -/
theorem isLeast_nextPowerOfTwo (hpos : 1 ≤ v.toNat) (hle : v.toNat ≤ 2 ^ 31) :
    IsLeast {p | (∃ k, p = 2 ^ k) ∧ v.toNat ≤ p} (nextPowerOfTwo v).toNat := by
  have hpred : (v - 1#32).toNat = v.toNat - 1 := BitVec.toNat_sub_of_le (BitVec.le_def.2 hpos)
  have hsize : (v.toNat - 1).size ≤ 31 := Nat.size_le.2 (by omega)
  have hlt : 2 ^ (v.toNat - 1).size < 2 ^ 32 := Nat.pow_lt_pow_right one_lt_two (Nat.lt_succ_of_le hsize)
  have heq : (nextPowerOfTwo v).toNat = 2 ^ (v.toNat - 1).size := by
    rw [nextPowerOfTwo, BitVec.toNat_add, toNat_smear, hpred, BitVec.toNat_one (by decide),
      Nat.sub_add_cancel Nat.one_le_two_pow, Nat.mod_eq_of_lt hlt]
  rw [heq]
  constructor
  · refine ⟨⟨_, rfl⟩, ?_⟩
    have hself := Nat.lt_size_self (v.toNat - 1)
    omega
  · rintro _ ⟨⟨k, rfl⟩, hk⟩
    exact Nat.pow_le_pow_right two_pos (Nat.size_le.2 (by omega))

/-- **The least multiple of a power of two that is not below a number.** -/
theorem isLeast_nextEven {power : ℕ} (hpower : power < 31) (hlt : v.toNat + (2 ^ power - 1) < 2 ^ 32) :
    ∃ u, nextEven v power = some u ∧ IsLeast {n | 2 ^ power ∣ n ∧ v.toNat ≤ n} u.toNat := by
  have hpos := Nat.two_pow_pos power
  refine ⟨_, if_pos hpower, ?_⟩
  have hmask : (1#32 <<< power - 1#32 : BitVec 32).toNat = 2 ^ power - 1 := toNat_mask (hpower.trans (by decide))
  have heq : ((v + (1#32 <<< power - 1#32)) &&& ~~~(1#32 <<< power - 1#32)).toNat =
      (v.toNat + (2 ^ power - 1)) / 2 ^ power * 2 ^ power := by
    refine (toNat_and_not_mask _ (hpower.trans (by decide))).trans ?_
    rw [BitVec.toNat_add, hmask, Nat.mod_eq_of_lt hlt]
  rw [heq]
  constructor
  · refine ⟨Nat.dvd_mul_left _ _, ?_⟩
    have hmod := Nat.mod_lt (v.toNat + (2 ^ power - 1)) hpos
    have hsplit := Nat.div_add_mod' (v.toNat + (2 ^ power - 1)) (2 ^ power)
    omega
  · rintro _ ⟨⟨q, rfl⟩, hle⟩
    rw [Nat.mul_comm (2 ^ power)]
    refine Nat.mul_le_mul_right _ (Nat.le_of_lt_succ (Nat.div_lt_of_lt_mul ?_))
    rw [Nat.mul_succ]
    omega

end Highest

/-! ## The lowest bit -/

section Lowest

theorem lookup32p1_twoPow : ∀ k < 32, lookup32 deBruijnSequence32p1 (BitVec.twoPow 32 k) = some (k + 1) := by decide

theorem lookup64p1_twoPow : ∀ k < 64,
    deBruijnSequence64p1[((BitVec.twoPow 64 k * deBruijnMagic64) >>> 58).toNat]? = some (k + 1) := by decide +kernel

/-- **The lowest bit of a number**, from both tables. -/
theorem findLSB_eq {v : BitVec 32} (hv : v ≠ 0#32) :
    ∃ k, IsLeast {i | v.getLsbD i = true} k ∧ findLSB v = some k ∧ findLSB1 v = some (k + 1) := by
  obtain ⟨k, hk, hleast⟩ := exists_lowest hv
  refine ⟨k, hleast, ?_, ?_⟩
  · rw [findLSB, and_neg hleast]
    exact lookup32_twoPow k hk
  · rw [findLSB1, if_neg hv, and_neg hleast]
    exact lookup32p1_twoPow k hk

theorem findLSB64_eq {v : BitVec 64} (hv : v ≠ 0#64) :
    ∃ k, IsLeast {i | v.getLsbD i = true} k ∧ findLSB64 v = some (k + 1) := by
  obtain ⟨k, hk, hleast⟩ := exists_lowest hv
  refine ⟨k, hleast, ?_⟩
  rw [findLSB64, if_neg hv, and_neg hleast]
  exact lookup64p1_twoPow k hk

end Lowest

/-! ## Counting -/

section Counting

open Nat (ofDigits)

variable {v : BitVec 64} {L : List ℕ}

/-- What the first two steps make of a byte, and the third one of that. -/
def countPairs (d : ℕ) : ℕ := d - (d >>> 1 &&& 0x55)

def countNibbles (d : ℕ) : ℕ := (d &&& 0x33) + (d >>> 2 &&& 0x33)

def countByte (d : ℕ) : ℕ := (d + d >>> 4) &&& 0x0F

theorem countPairs_lt : ∀ d < 256, countPairs d < 256 := by decide +kernel

theorem countNibbles_le : ∀ d < 256, countNibbles (countPairs d) % 2 ^ 4 ≤ 4 ∧
    countNibbles (countPairs d) >>> 4 ≤ 4 := by
  decide +kernel

theorem countByte_eq : ∀ d < 256, countByte (countNibbles (countPairs d)) = bitCount 8 d := by decide +kernel

theorem bytes_lt (hL : ∀ d ∈ L, d < 2 ^ 8) (hlength : L.length = 8) : ofDigits (2 ^ 8) L < 2 ^ 64 := by
  have hlt := Nat.ofDigits_lt_base_pow_length (b := 2 ^ 8) (by decide) hL
  rwa [hlength] at hlt

/-- A mask with the same byte eight times. -/
theorem mask_eq {mask : BitVec 64} {m : ℕ} (hlength : L.length = 8)
    (h : mask.toNat = ofDigits (2 ^ 8) (List.replicate 8 m)) :
    mask.toNat = ofDigits (2 ^ 8) (List.replicate L.length m) := by rw [hlength, h]

theorem toNat_countPairs (hL : ∀ d ∈ L, d < 2 ^ 8) (hlength : L.length = 8) (hv : v.toNat = ofDigits (2 ^ 8) L) :
    (v - ((v >>> 1) &&& 0x5555555555555555#64)).toNat = ofDigits (2 ^ 8) (L.map countPairs) := by
  have hmask : (0x5555555555555555#64).toNat = _ := mask_eq (m := 0x55) hlength rfl
  have hand : ((v >>> 1) &&& 0x5555555555555555#64).toNat = ofDigits (2 ^ 8) (L.map fun d => d >>> 1 &&& 0x55) := by
    rw [BitVec.toNat_and, BitVec.toNat_ushiftRight, hmask, hv]
    exact shiftRight_and_lanes (by decide) (by decide) hL
  have hle : ∀ d, d >>> 1 &&& 0x55 ≤ d := fun d => Nat.and_le_left.trans (Nat.shiftRight_le d 1)
  have hsub := ofDigits_map_sub (b := 2 ^ 8) (f := id) (L := L) fun d _ => hle d
  rw [BitVec.toNat_sub_of_le, hand, hv]
  · rw [List.map_id] at hsub
    exact hsub.symm
  · rw [BitVec.le_def, BitVec.toNat_and, BitVec.toNat_ushiftRight]
    exact Nat.and_le_left.trans (Nat.shiftRight_le _ 1)

theorem toNat_countNibbles (hL : ∀ d ∈ L, d < 2 ^ 8) (hlength : L.length = 8) (hv : v.toNat = ofDigits (2 ^ 8) L) :
    ((v &&& 0x3333333333333333#64) + ((v >>> 2) &&& 0x3333333333333333#64)).toNat =
      ofDigits (2 ^ 8) (L.map countNibbles) := by
  have hmask : (0x3333333333333333#64).toNat = _ := mask_eq (m := 0x33) hlength rfl
  have hlt : ∀ d ∈ L.map countNibbles, d < 2 ^ 8 := by
    refine List.forall_mem_map.2 fun d _ => ?_
    have hle : countNibbles d ≤ 0x33 + 0x33 := Nat.add_le_add Nat.and_le_right Nat.and_le_right
    exact hle.trans_lt (by decide)
  have hbytes := bytes_lt hlt ((List.length_map _).trans hlength)
  rw [BitVec.toNat_add, BitVec.toNat_and, BitVec.toNat_and, BitVec.toNat_ushiftRight, hmask, hv,
    and_lanes (by decide) hL, shiftRight_and_lanes (by decide) (by decide) hL, ← ofDigits_map_add]
  exact Nat.mod_eq_of_lt hbytes

theorem toNat_countByte (hL : ∀ d ∈ L, d % 2 ^ 4 ≤ 4 ∧ d >>> 4 ≤ 4) (hlength : L.length = 8)
    (hv : v.toNat = ofDigits (2 ^ 8) L) :
    ((v + (v >>> 4)) &&& 0x0F0F0F0F0F0F0F0F#64).toNat = ofDigits (2 ^ 8) (L.map countByte) := by
  have hmask : (0x0F0F0F0F0F0F0F0F#64).toNat = _ := mask_eq (m := 0x0F) hlength rfl
  have hlt : (0x0F0F0F0F0F0F0F0F#64).toNat < 2 ^ 64 := BitVec.isLt _
  rw [BitVec.toNat_and, BitVec.toNat_add, ← and_eq_mod_and hlt, BitVec.toNat_ushiftRight, hmask, hv]
  exact add_shiftRight_and_lanes (c := 4) (s := 4) (by decide) (by decide) hL

/-- **The highest byte of the product is the sum of the bytes.** -/
theorem mul_bytes_shiftRight (hlength : L.length = 8) (hL : ∀ d ∈ L, d ≤ 8) :
    (ofDigits (2 ^ 8) L * 0x0101010101010101 % 2 ^ 64) >>> 56 = L.sum := by
  have hsum : L.sum ≤ 8 * 8 := by
    have hle := List.sum_le_card_nsmul L 8 hL
    rwa [hlength] at hle
  have hones : (0x0101010101010101 : ℕ) = ofDigits (2 ^ 8) (List.replicate (7 + 1) 1) := rfl
  rw [hones, Nat.shiftRight_eq_div_pow]
  exact mul_ones_mod_div (b := 2 ^ 8) hlength (hsum.trans_lt (by decide))

theorem bitCount_le (n d : ℕ) : bitCount n d ≤ n := by
  calc bitCount n d ≤ ∑ _i ∈ Finset.range n, 1 := Finset.sum_le_sum fun i _ => Bool.toNat_le _
    _ = n := by simp

/-- **The number of bits that are set.** -/
theorem toNat_countBits (v : BitVec 64) : (countBits v).toNat = bitCount 64 v.toNat := by
  obtain ⟨L, hlength, hL, hv⟩ := exists_lanes 8 (n := 8) v.isLt
  have h₁ := toNat_countPairs hL hlength hv.symm
  have hL₁ : ∀ d ∈ L.map countPairs, d < 2 ^ 8 := List.forall_mem_map.2 fun d hd => countPairs_lt d (hL d hd)
  have h₂ := toNat_countNibbles hL₁ ((List.length_map _).trans hlength) h₁
  rw [List.map_map] at h₂
  have hL₂ : ∀ d ∈ L.map (countNibbles ∘ countPairs), d % 2 ^ 4 ≤ 4 ∧ d >>> 4 ≤ 4 :=
    List.forall_mem_map.2 fun d hd => countNibbles_le d (hL d hd)
  have h₃ := toNat_countByte hL₂ ((List.length_map _).trans hlength) h₂
  have hcount : (L.map (countNibbles ∘ countPairs)).map countByte = L.map (bitCount 8) := by
    rw [List.map_map]
    exact List.map_congr_left fun d hd => countByte_eq d (hL d hd)
  rw [hcount] at h₃
  have hsum : (L.map (bitCount 8)).sum = bitCount 64 v.toNat := by
    rw [← bitCount_lanes 8 hL, hlength, hv]
  rw [countBits, BitVec.toNat_ushiftRight, BitVec.toNat_mul, h₃, ← hsum]
  exact mul_bytes_shiftRight ((List.length_map _).trans hlength) (List.forall_mem_map.2 fun d _ => bitCount_le 8 d)

theorem bitCount_eq_card (v : BitVec 64) :
    bitCount 64 v.toNat = ((Finset.range 64).filter fun i => v.getLsbD i = true).card := by
  rw [bitCount, Finset.card_filter]
  refine Finset.sum_congr rfl fun i _ => ?_
  rw [BitVec.testBit_toNat]
  cases v.getLsbD i <;> rfl

end Counting

/-- **The operations do what they are for**, for every number. -/
theorem bit_operations :
    (∀ v, v ≠ 0#32 → log2 v = some v.toNat.log2) ∧
    (∀ v, v ≠ 0#32 → ∃ k, IsLeast {i | v.getLsbD i = true} k ∧ findLSB v = some k ∧ findLSB1 v = some (k + 1)) ∧
    (∀ v : BitVec 32, 1 ≤ v.toNat → v.toNat ≤ 2 ^ 31 →
      IsLeast {p | (∃ k, p = 2 ^ k) ∧ v.toNat ≤ p} (nextPowerOfTwo v).toNat) ∧
    (∀ v : BitVec 32, ∀ power < 31, v.toNat + (2 ^ power - 1) < 2 ^ 32 →
      ∃ u, nextEven v power = some u ∧ IsLeast {n | 2 ^ power ∣ n ∧ v.toNat ≤ n} u.toNat) ∧
    (∀ v, if v = 0#64 then findLSB64 v = some 0
      else ∃ k, IsLeast {i | v.getLsbD i = true} k ∧ findLSB64 v = some (k + 1)) ∧
    ∀ v, (countBits v).toNat = ((Finset.range 64).filter fun i => v.getLsbD i = true).card := by
  refine ⟨fun v hv => log2_eq hv, fun v hv => findLSB_eq hv, fun v hpos hle => isLeast_nextPowerOfTwo hpos hle,
    fun v power hpower hlt => isLeast_nextEven hpower hlt, fun v => ?_, fun v => ?_⟩
  · split_ifs with hv
    · exact if_pos hv
    · exact findLSB64_eq hv
  · exact (toNat_countBits v).trans (bitCount_eq_card v)

end Redux.Util.BitOperations
