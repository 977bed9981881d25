import Redux.Lib.ByteBuffer
import Mathlib.Data.Int.Bitwise
import Mathlib.Tactic.Ring
import Mathlib.Tactic.Linarith

/-!
# File.AnaDiff — one difference in the ANA Rice code

The piece that all five ANA codecs (`anacompress.cpp`, `anadecompress.cpp`) share: a neighbour
difference is a fixed portion of `slice` bits, then the rest as a run of zeros closed by a one; a
rest of 31 zeros or more escapes to the raw difference.  `crunchDiff` is the encoder's body with its
stores, `decrunchDiff` the decoder's with its loads; `diffWord` is the code word between them.
The codecs run with the `endian` argument of the host they run on, so the bytes of a union are named
here by their value: byte `k` is the one of weight `2 ^ (8 * k)`.
-/

namespace Redux.Ana

open Redux.Lib

/-! ## What the five codecs differ in -/

/-- The parameters of a codec.  The three bounds say that the bytes moved cover the bits meant. -/
structure Codec where
  /-- bits in a sample -/
  width : ℕ
  /-- how a sample enters the difference: `uint8_t`, `int16_t` or `int32_t` -/
  val : BitVec width → ℤ
  /-- bytes stored for the fixed portion, by `slice` and first bit -/
  fixedBytes : ℕ → ℕ → ℕ
  /-- bytes loaded for the fixed portion, by `slice` -/
  loadBytes : ℕ → ℕ
  /-- bytes stored and loaded for a raw difference -/
  escBytes : ℕ
  width_bytes : 8 * (width / 8) = width
  ofInt_val : ∀ a, BitVec.ofInt width (val a) = a
  val_sub_lt : ∀ a b, val a - val b < 2 ^ width
  fixed_fits : ∀ slice j, 1 ≤ slice → slice < width → j < 8 →
    1 ≤ fixedBytes slice j ∧ j + slice ≤ 8 * fixedBytes slice j
  load_fits : ∀ slice j, 1 ≤ slice → slice < width → j < 8 → j + slice ≤ 8 * loadBytes slice
  esc_fits : ∀ j, j < 8 → 1 ≤ escBytes ∧ j + (width + 1) ≤ 8 * escBytes

/-- `nb`, the bytes to transfer to a 32 bit int for the fixed portion. -/
def nb (slice : ℕ) : ℕ := if slice = 0 then 0 else if slice < 2 then 1 else if slice < 10 then 2 else 3

/-- A `uint32_t` counter. -/
def u32 (n : ℕ) : ℕ := n % 2 ^ 32

/-- An `int` counter. -/
@[irreducible] def int32 (n : ℤ) : ℤ := Int.bmod n (2 ^ 32)

theorem u32_of_lt {n : ℕ} (h : n < 2 ^ 32) : u32 n = n := Nat.mod_eq_of_lt h

theorem int32_of_lt {n : ℤ} (h₀ : 0 ≤ n) (h : n < 2 ^ 31) : int32 n = n := by
  unfold int32
  rw [Int.bmod_eq_of_le] <;> omega

/-! ## The code word -/

/-- The zeros that stand for the rest `r3` of a difference. -/
def zeros (r3 : ℤ) : ℕ := if r3 < 0 then (-(2 * r3) - 1).toNat else (2 * r3).toNat

/-- The code word of the difference `dif`. -/
def diffWord (width slice : ℕ) (dif : ℤ) : List Bool :=
  lowBits slice (dif % 2 ^ slice).toNat ++
    if zeros (dif >>> slice) < 31 then unary (zeros (dif >>> slice))
    else unary 31 ++ lowBits (width + 1) (dif % 2 ^ (width + 1)).toNat

theorem diffWord_pos (width slice : ℕ) (dif : ℤ) : slice < (diffWord width slice dif).length := by
  unfold diffWord
  split_ifs <;> simp

/-! ## The encoder -/

/-- The output buffer (behind the header) and the number of bits in it. -/
structure Out where
  x : Buf
  outBits : ℕ

/-- `BitValue(b)`. -/
def bitValue (b : ℕ) : BitVec 8 := BitVec.ofNat 8 (1 <<< b)

/-- The fixed portion, already shifted into `w`: `n` bytes, the first one merged. -/
def storeWord (x : Buf) (i j w n : ℕ) : Buf := storeBytes (merge x i j (byteOf w 0)) i w 1 (n - 1)

/-- `r3 < 31` zeros and a one from bit `j` of byte `i`. -/
def storeZeros (x : Buf) (i j r3 : ℕ) : Buf :=
  let r0 := j + r3
  if r0 < 8 then merge x i j (bitValue r0)
  else
    let x := if j = 0 then put x i 0 else x
    if r0 < 16 then put x (i + 1) (bitValue (r0 % 8))
    else put (zeroFill x (i + 1) (r0 / 8 - 1)) (i + r0 / 8) (bitValue (r0 % 8))

/-- The 31 zeros and the one of the big one exception. -/
def storeBig (x : Buf) (i j : ℕ) : Buf :=
  let x := if j = 0 then put x i 0 else x
  let r0 := j + 31
  put (zeroFill x (i + 1) (r0 / 8 - 1)) (i + r0 / 8) (bitValue (r0 % 8))

/-- The raw difference behind it: zero an untouched byte, OR the first one in, store the others. -/
def storeRaw (x : Buf) (i j w n : ℕ) : Buf :=
  let x := if j = 0 then put x i 0 else x
  storeBytes (put x i (x i ||| byteOf w 0)) i w 1 (n - 1)

/-- The body of the encoder's inner loop, for the difference `dif`. -/
def crunchDiff (c : Codec) (slice : ℕ) (dif : ℤ) (s : Out) : Out :=
  let outBytes := s.outBits / 8
  let j := s.outBits % 8
  -- `(y.i & mask) << j`
  let x := storeWord s.x outBytes j ((dif % 2 ^ slice).toNat <<< j) (c.fixedBytes slice j)
  let outBits := u32 (s.outBits + slice)
  let outBytes := outBits / 8
  let j := outBits % 8
  let r3 := dif >>> slice
  if r3 = 0 then ⟨merge x outBytes j (bitValue j), u32 (outBits + 1)⟩
  else
    let r3 := 2 * r3
    let r3 := if r3 < 0 then -r3 - 1 else r3
    if r3 < 31 then ⟨storeZeros x outBytes j r3.toNat, u32 (outBits + (1 + r3.toNat))⟩
    else
      let x := storeBig x outBytes j
      let outBits := u32 (outBits + 32)
      let outBytes := outBits / 8
      let j := outBits % 8
      ⟨storeRaw x outBytes j ((dif % 2 ^ (c.width + 1)).toNat <<< j) c.escBytes,
        u32 (outBits + (c.width + 1))⟩

section Stores

variable {x : Buf} {i j m v n r : ℕ}

@[simp] theorem getLsbD_bitValue {b t : ℕ} (hb : b < 8) :
    (bitValue b).getLsbD t = decide (t = b) := by
  rw [bitValue, BitVec.getLsbD_ofNat, Nat.one_shiftLeft, Nat.testBit_two_pow]
  by_cases h : b = t
  · subst h; simp [hb]
  · simp [h, Ne.symm h]

theorem appends_storeWord (hj : j < 8) (hc : Clean (lsb x) (8 * i + j)) (hv : v < 2 ^ m)
    (hn : 1 ≤ n) (hm : j + m ≤ 8 * n) :
    Appends (lsb x) (lsb (storeWord x i j (v <<< j) n)) (8 * i + j) (lowBits m v) :=
  appends_word hj hc hv hn hm

theorem storeRaw_eq {w : ℕ} : storeRaw x i j w n = storeWord x i j w n := by
  unfold storeRaw storeWord
  rw [merge_eq_or]

theorem zeroed_bit (hc : Clean (lsb x) (8 * i + j)) (k : ℕ) :
    lsb (if j = 0 then put x i 0 else x) k =
      if k / 8 = i ∧ j ≤ k % 8 then false else lsb x k := by
  by_cases hj0 : j = 0
  · rw [if_pos hj0, lsb_put]
    simp [hj0]
  · rw [if_neg hj0]
    by_cases hk : k / 8 = i ∧ j ≤ k % 8
    · rw [if_pos hk, hc k (by omega) (by omega)]
    · rw [if_neg hk]

/-- A one set behind zeros: the bits that a store of `unary r` must leave. -/
theorem appends_unary_of_bits {x' : Buf}
    (h : ∀ k, lsb x' k = if 8 * i + j ≤ k ∧ k < 8 * (i + (j + r) / 8 + 1)
      then decide (k = 8 * i + j + r) else lsb x k) :
    Appends (lsb x) (lsb x') (8 * i + j) (unary r) := by
  refine ⟨fun k hk => ?_, holds_unary.mpr ⟨fun t ht => ?_, ?_⟩, fun k h₁ h₂ => ?_⟩
  · rw [h, if_neg (by omega)]
  · rw [h, if_pos (by omega), decide_eq_false (by omega)]
  · rw [h, if_pos (by omega), decide_eq_true rfl]
  · rw [unary_length] at h₁ h₂
    rw [h, if_pos (by omega), decide_eq_false (by omega)]

theorem appends_mergeBit (hj : j < 8) (hc : Clean (lsb x) (8 * i + j)) (hr : j + r < 8) :
    Appends (lsb x) (lsb (merge x i j (bitValue (j + r)))) (8 * i + j) (unary r) := by
  refine appends_unary_of_bits fun k => ?_
  rw [lsb_merge hj hc (fun t ht => by rw [getLsbD_bitValue hr]; simp; omega), getLsbD_bitValue hr]
  by_cases hk : 8 * i + j ≤ k ∧ k < 8 * (i + (j + r) / 8 + 1)
  · rw [if_pos (by omega), if_pos hk]
    exact decide_eq_decide.mpr (by omega)
  · rw [if_neg (by omega), if_neg hk]

theorem appends_farBit (hj : j < 8) (hc : Clean (lsb x) (8 * i + j)) (hr : 8 ≤ j + r) :
    Appends (lsb x) (lsb (put (zeroFill (if j = 0 then put x i 0 else x) (i + 1) ((j + r) / 8 - 1))
      (i + (j + r) / 8) (bitValue ((j + r) % 8)))) (8 * i + j) (unary r) := by
  have hlt : (j + r) % 8 < 8 := Nat.mod_lt _ (by decide)
  refine appends_unary_of_bits fun k => ?_
  rw [lsb_put, getLsbD_bitValue hlt, lsb_zeroFill, zeroed_bit hc]
  by_cases hk : 8 * i + j ≤ k ∧ k < 8 * (i + (j + r) / 8 + 1)
  · rw [if_pos hk]
    by_cases hlast : k / 8 = i + (j + r) / 8
    · rw [if_pos hlast]
      exact decide_eq_decide.mpr (by omega)
    · rw [if_neg hlast, decide_eq_false (by omega)]
      by_cases hfirst : k / 8 = i
      · rw [if_neg (by omega), if_pos (by omega)]
      · rw [if_pos (by omega)]
  · rw [if_neg hk, if_neg (by omega), if_neg (by omega), if_neg (by omega)]

theorem appends_storeZeros (hj : j < 8) (hc : Clean (lsb x) (8 * i + j)) :
    Appends (lsb x) (lsb (storeZeros x i j r)) (8 * i + j) (unary r) := by
  unfold storeZeros
  by_cases h8 : j + r < 8
  · simp only [if_pos h8]
    exact appends_mergeBit hj hc h8
  · have hfar := appends_farBit hj hc (r := r) (by omega)
    simp only [if_neg h8]
    by_cases h16 : j + r < 16
    · rw [if_pos h16]
      simpa [show (j + r) / 8 = 1 by omega, zeroFill] using hfar
    · rw [if_neg h16]
      exact hfar

theorem appends_storeBig (hj : j < 8) (hc : Clean (lsb x) (8 * i + j)) :
    Appends (lsb x) (lsb (storeBig x i j)) (8 * i + j) (unary 31) :=
  appends_farBit hj hc (by omega)

end Stores

section Crunch

variable {c : Codec} {slice : ℕ} {dif : ℤ} {s : Out}

theorem emod_two_pow_lt (dif : ℤ) (m : ℕ) : (dif % 2 ^ m).toNat < 2 ^ m := by
  have h0 : 0 ≤ dif % 2 ^ m := Int.emod_nonneg _ (by positivity)
  have h1 : dif % 2 ^ m < 2 ^ m := Int.emod_lt_of_pos _ (by positivity)
  have h2 : ((2 ^ m : ℕ) : ℤ) = 2 ^ m := by push_cast; rfl
  omega

/-- The fixed portion goes in at the current bit. -/
theorem crunchFixed (h1 : 1 ≤ slice) (hw : slice < c.width) (hc : Clean (lsb s.x) s.outBits) :
    Appends (lsb s.x) (lsb (storeWord s.x (s.outBits / 8) (s.outBits % 8)
      ((dif % 2 ^ slice).toNat <<< (s.outBits % 8)) (c.fixedBytes slice (s.outBits % 8))))
      s.outBits (lowBits slice (dif % 2 ^ slice).toNat) := by
  have hj : s.outBits % 8 < 8 := Nat.mod_lt _ (by decide)
  have hp : 8 * (s.outBits / 8) + s.outBits % 8 = s.outBits := Nat.div_add_mod _ 8
  obtain ⟨hn, hm⟩ := c.fixed_fits slice _ h1 hw hj
  have h := appends_storeWord hj (hp.symm ▸ hc) (emod_two_pow_lt dif slice) hn hm
  rwa [hp] at h

/-- **The encoder's body appends the code word** and advances its bit counter over it. -/
theorem crunchDiff_appends (h1 : 1 ≤ slice) (hw : slice < c.width) (hc : Clean (lsb s.x) s.outBits)
    (hlen : s.outBits + (diffWord c.width slice dif).length < 2 ^ 32) :
    Appends (lsb s.x) (lsb (crunchDiff c slice dif s).x) s.outBits (diffWord c.width slice dif) ∧
      (crunchDiff c slice dif s).outBits = s.outBits + (diffWord c.width slice dif).length := by
  have hfix := @crunchFixed _ _ dif _ h1 hw hc
  have hpos := diffWord_pos c.width slice dif
  have hb1 : u32 (s.outBits + slice) = s.outBits + slice := u32_of_lt (by omega)
  simp only [crunchDiff, hb1]
  set p := s.outBits + slice with hp
  set x₁ := storeWord s.x (s.outBits / 8) (s.outBits % 8)
    ((dif % 2 ^ slice).toNat <<< (s.outBits % 8)) (c.fixedBytes slice (s.outBits % 8))
  have hcl : Clean (lsb x₁) p := by simpa using hfix.clean
  have hsplit : 8 * (p / 8) + p % 8 = p := Nat.div_add_mod _ 8
  have hj : p % 8 < 8 := Nat.mod_lt _ (by decide)
  rw [← hsplit] at hcl
  unfold diffWord at hlen ⊢
  set r3 := dif >>> slice with hr3
  by_cases h0 : r3 = 0
  · -- no rest: a single one
    have hz : zeros r3 = 0 := by simp [zeros, h0]
    have hone := appends_mergeBit (r := 0) hj hcl (by omega)
    rw [if_pos h0]
    rw [hz, if_pos (by decide)] at hlen ⊢
    rw [Nat.add_zero, hsplit] at hone
    refine ⟨hfix.trans (by simpa using hone), ?_⟩
    simp at hlen ⊢
    rw [u32_of_lt (by omega)]; omega
  · rw [if_neg h0]
    have hz : (if 2 * r3 < 0 then -(2 * r3) - 1 else 2 * r3) = (zeros r3 : ℤ) := by
      unfold zeros; split_ifs <;> omega
    rw [hz]
    by_cases h31 : zeros r3 < 31
    · -- the rest as zeros and a one
      have hzero := appends_storeZeros (r := zeros r3) hj hcl
      rw [if_pos (by omega), Int.toNat_natCast]
      rw [if_pos h31] at hlen ⊢
      rw [hsplit] at hzero
      refine ⟨hfix.trans (by simpa using hzero), ?_⟩
      simp at hlen ⊢
      rw [u32_of_lt (by omega)]; omega
    · -- the escape: 31 zeros, a one, the raw difference
      have hbig := appends_storeBig hj hcl
      rw [if_neg (by omega)]
      rw [if_neg h31] at hlen ⊢
      rw [hsplit] at hbig
      have hlen' : p + 32 + (c.width + 1) < 2 ^ 32 := by simp at hlen; omega
      have hb2 : u32 (p + 32) = p + 32 := u32_of_lt (by omega)
      have hbc : Clean (lsb (storeBig x₁ (p / 8) (p % 8))) (p + 32) := by simpa using hbig.clean
      have hsplit2 : 8 * ((p + 32) / 8) + (p + 32) % 8 = p + 32 := Nat.div_add_mod _ 8
      have hj2 : (p + 32) % 8 < 8 := Nat.mod_lt _ (by decide)
      obtain ⟨hn, hm⟩ := c.esc_fits _ hj2
      rw [← hsplit2] at hbc
      have hraw := appends_storeWord hj2 hbc (emod_two_pow_lt dif (c.width + 1)) hn hm
      rw [hsplit2] at hraw
      simp only [hb2, storeRaw_eq]
      refine ⟨hfix.trans ?_, ?_⟩
      · simpa using hbig.trans (by simpa using hraw)
      · simp only [List.length_append, lowBits_length, unary_length]
        rw [u32_of_lt hlen']; omega

end Crunch

end Redux.Ana
