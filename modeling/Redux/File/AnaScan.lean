import Redux.File.AnaDiff
import Mathlib.Tactic.IntervalCases

/-!
# File.AnaScan — one difference read back

The inner loop of the ANA decoders: load and mask the fixed portion, find the first set bit, and turn
both into the next sample.  `decrunchDiff_word` inverts `crunchDiff_appends` through the code word.
-/

namespace Redux.Ana

open Redux.Lib

/-! ## The first set bit -/

/-- The place of the lowest set bit of `xq`, counted from one. -/
def bitPos (xq : BitVec 8) : ℕ :=
  if xq.getLsbD 0 then 1
  else if xq.getLsbD 1 then 2
  else if xq.getLsbD 2 then 3
  else if xq.getLsbD 3 then 4
  else if xq.getLsbD 4 then 5
  else if xq.getLsbD 5 then 6
  else if xq.getLsbD 6 then 7
  else if xq.getLsbD 7 then 8
  else 0

/-- `for(int k = 1; k < 5; k++)`: up to 4 more bytes; more than 32 zeros are a bad bit sequence. -/
def scanBytes (x : Buf) (i k r0 : ℕ) : ℕ → Option ℕ
  | 0 => some r0
  | n + 1 =>
    let xq := x (i + k)
    if xq ≠ 0 then some (r0 + bitPos xq)
    else if r0 + 8 > 32 then none
    else scanBytes x i (k + 1) (r0 + 8) n

/-- `r0`: the bits up to and with the first set one, from bit `j` of byte `i`. -/
def firstSet (x : Buf) (i j : ℕ) : Option ℕ :=
  let xq := x i >>> j
  if xq ≠ 0 then some (bitPos xq) else scanBytes x i 1 (8 - j) 4

section Scan

variable {x : Buf} {i j k r : ℕ}

theorem bitPos_eq {b : BitVec 8} {m : ℕ} (hm : m < 8) (h0 : ∀ t < m, b.getLsbD t = false)
    (h1 : b.getLsbD m = true) : bitPos b = m + 1 := by
  unfold bitPos
  interval_cases m <;> simp only [h0, h1, Nat.reduceLT, Bool.false_eq_true, ↓reduceIte, Nat.reduceAdd]

theorem ne_zero_of_bit {b : BitVec 8} {m : ℕ} (h1 : b.getLsbD m = true) : b ≠ 0 := by
  rintro rfl
  simp at h1

theorem eq_zero_of_bits {b : BitVec 8} (h : ∀ t < 8, b.getLsbD t = false) : b = 0 :=
  BitVec.eq_of_getLsbD_eq fun t ht => by rw [h t ht]; simp

/-- `k` bytes and part of a first one are zero: the loop finds the one behind `r` zeros. -/
theorem scanBytes_unary (hj : j < 8) (hr : r ≤ 31) (h0 : ∀ t < r, lsb x (8 * i + j + t) = false)
    (h1 : lsb x (8 * i + j + r) = true) :
    ∀ n k, k + n = 5 → 1 ≤ k → 8 * k ≤ j + r → scanBytes x i k (8 * k - j) n = some (r + 1)
  | 0, k, hk, hk1, hle => by omega
  | n + 1, k, hk, hk1, hle => by
    have hbit : ∀ t < 8, (x (i + k)).getLsbD t = lsb x (8 * (i + k) + t) := fun t ht => by
      rw [lsb, show (8 * (i + k) + t) / 8 = i + k by omega, show (8 * (i + k) + t) % 8 = t by omega]
    rw [scanBytes]
    by_cases hlast : j + r < 8 * (k + 1)
    · -- the one is in this byte
      have hone : (x (i + k)).getLsbD (j + r - 8 * k) = true := by
        rw [hbit _ (by omega), ← h1]
        congr 1
        omega
      have hzero : ∀ t < j + r - 8 * k, (x (i + k)).getLsbD t = false := fun t ht => by
        rw [hbit _ (by omega), ← h0 (8 * k - j + t) (by omega)]
        congr 1
        omega
      rw [if_pos (ne_zero_of_bit hone), bitPos_eq (by omega) hzero hone]
      congr 1
      omega
    · -- the byte is zero
      have hbyte : x (i + k) = 0 := eq_zero_of_bits fun t ht => by
        rw [hbit t ht, ← h0 (8 * k - j + t) (by omega)]
        congr 1
        omega
      rw [if_neg (by simp [hbyte]), if_neg (by omega),
        show 8 * k - j + 8 = 8 * (k + 1) - j by omega]
      exact scanBytes_unary hj hr h0 h1 n (k + 1) (by omega) (by omega) (by omega)

/-- **The scan reads a unary word** of at most 31 zeros. -/
theorem firstSet_unary (hj : j < 8) (hr : r ≤ 31) (h : Holds (lsb x) (8 * i + j) (unary r)) :
    firstSet x i j = some (r + 1) := by
  obtain ⟨h0, h1⟩ := holds_unary.mp h
  have hbit : ∀ t, (x i >>> j).getLsbD t = if j + t < 8 then lsb x (8 * i + j + t) else false := by
    intro t
    rw [BitVec.getLsbD_ushiftRight]
    split_ifs with ht
    · rw [lsb, show (8 * i + j + t) / 8 = i by omega, show (8 * i + j + t) % 8 = j + t by omega]
    · exact BitVec.getLsbD_of_ge _ _ (by omega)
  unfold firstSet
  by_cases hin : j + r < 8
  · have hone : (x i >>> j).getLsbD r = true := by rw [hbit, if_pos hin, h1]
    have hzero : ∀ t < r, (x i >>> j).getLsbD t = false := fun t ht => by
      rw [hbit, if_pos (by omega), h0 t ht]
    simp only
    rw [if_pos (ne_zero_of_bit hone), bitPos_eq (by omega) hzero hone]
  · have hbyte : x i >>> j = 0 := eq_zero_of_bits fun t ht => by
      rw [hbit]
      split_ifs with hlt
      · exact h0 t (by omega)
      · rfl
    simp only
    rw [if_neg (by simp [hbyte])]
    simpa using scanBytes_unary hj hr h0 h1 4 1 (by decide) (by decide) (by omega)

end Scan

/-! ## The decoder -/

/-- The decoder's variables: the output array, its index `in`, the last sample `iq`, what the union
`y` holds, and the bit pointer `r1`. -/
structure In (w : ℕ) where
  array : ℕ → BitVec w
  pos : ℕ
  iq : BitVec w
  y : ℕ
  r1 : ℤ

/-- `array[in] = iq; in = in + 1`. -/
def In.emit {w : ℕ} (d : In w) (iq : BitVec w) (y : ℕ) (r1 : ℤ) : In w :=
  ⟨Function.update d.array d.pos iq, d.pos + 1, iq, y, r1⟩

/-- `i = r1 / 8; j = r1 % 8`; an `int` that has wrapped around points outside the buffer. -/
def bitIndex (r1 : ℤ) : Option (ℕ × ℕ) := if r1 < 0 then none else some (r1.toNat / 8, r1.toNat % 8)

/-- `if the top bit was set, do a sign extend`. -/
def signExtend (w r2 : ℕ) : ℤ := if r2.testBit w then (r2 : ℤ) - 2 ^ (w + 1) else r2

/-- The body of the decoder's inner loop. -/
def decrunchDiff (c : Codec) (slice : ℕ) (x : Buf) (d : In c.width) : Option (In c.width) := do
  let (i, j) ← bitIndex d.r1
  let y := load x i d.y (c.loadBytes slice)
  -- `(y.i >> j) & mask`
  let r2 := (y >>> j) % 2 ^ slice
  let r1 := int32 (d.r1 + slice)
  let (i, j) ← bitIndex r1
  let r0 ← firstSet x i j
  let r1 := int32 (r1 + r0)
  if r0 % 2 = 1 then
    -- positive case
    let r0 : ℤ := ((r0 / 2 : ℕ) : ℤ) <<< slice
    return d.emit (d.iq + BitVec.ofNat c.width r2 + BitVec.ofInt c.width r0) y r1
  else if r0 = 32 then
    -- a long one
    let (i, j) ← bitIndex r1
    let y := load x i y c.escBytes
    let r2 := (y >>> j) % 2 ^ (c.width + 1)
    let r1 := int32 (r1 + (c.width + 1 : ℕ))
    return d.emit (d.array (d.pos - 1) + BitVec.ofInt c.width (signExtend c.width r2)) y r1
  else
    -- minus case (normal)
    let r0 : ℤ := (-((r0 / 2 : ℕ) : ℤ)) <<< slice
    return d.emit (d.iq + BitVec.ofNat c.width r2 + BitVec.ofInt c.width r0) y r1

section Decrunch

variable {c : Codec} {slice : ℕ} {dif : ℤ} {x : Buf} {d : In c.width} {p : ℕ}

theorem bitIndex_natCast (p : ℕ) : bitIndex (p : ℤ) = some (p / 8, p % 8) := by
  unfold bitIndex
  rw [if_neg (by omega)]
  simp

theorem int32_natCast {p : ℕ} (h : p < 2 ^ 31) : int32 (p : ℤ) = p := int32_of_lt (by omega) (by omega)

/-- The raw difference survives masking and sign extension. -/
theorem signExtend_emod {w : ℕ} (hl : -2 ^ w ≤ dif) (hu : dif < 2 ^ w) :
    signExtend w (dif % 2 ^ (w + 1)).toNat = dif := by
  have hpow : (2 : ℤ) ^ (w + 1) = 2 * 2 ^ w := by ring
  have hpos : (0 : ℤ) < 2 ^ w := by positivity
  have hnat : ((2 ^ w : ℕ) : ℤ) = 2 ^ w := by push_cast; rfl
  have hpown : 2 ^ (w + 1) = 2 * 2 ^ w := by ring
  unfold signExtend
  rcases le_or_gt 0 dif with h0 | h0
  · have hmod : dif % 2 ^ (w + 1) = dif := Int.emod_eq_of_lt h0 (by omega)
    rw [hmod, if_neg (by rw [Nat.testBit_lt_two_pow (by omega)]; simp)]
    omega
  · have hmod : dif % 2 ^ (w + 1) = dif + 2 ^ (w + 1) := by
      rw [← Int.add_emod_right, Int.emod_eq_of_lt (by omega) (by omega)]
    have hbit : (dif + 2 ^ (w + 1)).toNat.testBit w = true := by
      rw [Nat.testBit_of_two_pow_le_and_two_pow_add_one_gt (by omega) (by omega)]
    rw [hmod, if_pos hbit]
    omega

/-- The rest of a difference and its zeros determine each other. -/
theorem zeros_parity (r3 : ℤ) :
    ((zeros r3 + 1) % 2 = 1 ∧ (((zeros r3 + 1) / 2 : ℕ) : ℤ) = r3) ∨
      ((zeros r3 + 1) % 2 = 0 ∧ -(((zeros r3 + 1) / 2 : ℕ) : ℤ) = r3) := by
  unfold zeros
  split_ifs with h
  · right; omega
  · left; omega

/-- A difference is put together from its two portions. -/
theorem ofInt_portions {w : ℕ} (iq : BitVec w) :
    iq + BitVec.ofNat w (dif % 2 ^ slice).toNat + BitVec.ofInt w ((dif >>> slice) <<< slice) =
      iq + BitVec.ofInt w dif := by
  have hnn : 0 ≤ dif % 2 ^ slice := Int.emod_nonneg _ (by positivity)
  have hsum : ((dif % 2 ^ slice).toNat : ℤ) + (dif >>> slice) <<< slice = dif := by
    rw [Int.toNat_of_nonneg hnn, Int.shiftLeft_eq, Int.shiftRight_eq_div_pow, mul_comm]
    push_cast
    exact Int.emod_add_mul_ediv dif _
  rw [BitVec.add_assoc, ← BitVec.ofInt_natCast, ← BitVec.ofInt_add, hsum]

/-- The scan and the counter behind the fixed portion. -/
theorem scan_zeros {r : ℕ} (hr : r ≤ 31) (h : Holds (lsb x) p (unary r)) :
    firstSet x (p / 8) (p % 8) = some (r + 1) := by
  have hsplit : 8 * (p / 8) + p % 8 = p := Nat.div_add_mod _ 8
  exact firstSet_unary (Nat.mod_lt _ (by decide)) hr (hsplit.symm ▸ h)

/-- **The decoder's body reads the code word**: it emits the last sample plus the difference and
leaves the bit pointer behind the word. -/
theorem decrunchDiff_word (h1 : 1 ≤ slice) (hw : slice < c.width) (hr1 : d.r1 = p)
    (hp : p + (diffWord c.width slice dif).length ≤ 2 ^ 31) (hl : -2 ^ c.width ≤ dif)
    (hu : dif < 2 ^ c.width) (hprev : d.array (d.pos - 1) = d.iq)
    (hh : Holds (lsb x) p (diffWord c.width slice dif)) :
    ∃ y, decrunchDiff c slice x d = some (d.emit (d.iq + BitVec.ofInt c.width dif) y
      (int32 ((p + (diffWord c.width slice dif).length : ℕ) : ℤ))) := by
  obtain ⟨hlow, hrest⟩ := holds_append.mp hh
  have hlen := diffWord_pos c.width slice dif
  have hj : p % 8 < 8 := Nat.mod_lt _ (by decide)
  have hsplit : 8 * (p / 8) + p % 8 = p := Nat.div_add_mod _ 8
  have hr2 := load_word (y := d.y) (n := c.loadBytes slice) (emod_two_pow_lt dif slice)
    (c.load_fits slice _ h1 hw hj) (hsplit.symm ▸ hlow)
  have hb1 : int32 ((p : ℤ) + slice) = ((p + slice : ℕ) : ℤ) := by
    rw [← Nat.cast_add, int32_natCast (by omega)]
  rw [lowBits_length] at hrest
  simp only [decrunchDiff, hr1, bitIndex_natCast, hr2, hb1, Option.bind_eq_bind, Option.bind_some]
  clear hr2
  by_cases h31 : zeros (dif >>> slice) < 31
  · -- the rest as zeros and a one
    have hword : (diffWord c.width slice dif).length = slice + (zeros (dif >>> slice) + 1) := by
      simp [diffWord, h31]
    rw [if_pos h31] at hrest
    have hb2 : ((p + slice : ℕ) : ℤ) + ((zeros (dif >>> slice) + 1 : ℕ) : ℤ) =
        ((p + (diffWord c.width slice dif).length : ℕ) : ℤ) := by rw [hword]; push_cast; ring
    rw [scan_zeros (by omega) hrest]
    simp only [Option.bind_some, hb2]
    rcases zeros_parity (dif >>> slice) with ⟨hodd, hval⟩ | ⟨heven, hval⟩
    · rw [if_pos hodd, hval, ofInt_portions]
      exact ⟨_, rfl⟩
    · rw [if_neg (by omega), if_neg (by omega), hval, ofInt_portions]
      exact ⟨_, rfl⟩
  · -- the escape
    have hword : (diffWord c.width slice dif).length = slice + (32 + (c.width + 1)) := by
      simp [diffWord, h31]
    rw [if_neg h31] at hrest
    obtain ⟨hone, hraw⟩ := holds_append.mp hrest
    simp only [unary_length, Nat.reduceAdd] at hraw
    have hscan : firstSet x ((p + slice) / 8) ((p + slice) % 8) = some 32 := scan_zeros (by decide) hone
    have hlt : p + slice + 32 < 2 ^ 31 := by omega
    have hb2 : int32 (((p + slice : ℕ) : ℤ) + ((32 : ℕ) : ℤ)) = ((p + slice + 32 : ℕ) : ℤ) := by
      rw [← Nat.cast_add, int32_natCast hlt]
    have hb3 : ((p + slice + 32 : ℕ) : ℤ) + ((c.width + 1 : ℕ) : ℤ) =
        ((p + (diffWord c.width slice dif).length : ℕ) : ℤ) := by rw [hword]; push_cast; ring
    have hsplit2 : 8 * ((p + slice + 32) / 8) + (p + slice + 32) % 8 = p + slice + 32 :=
      Nat.div_add_mod _ 8
    have hr3 := load_word (y := load x (p / 8) d.y (c.loadBytes slice)) (n := c.escBytes)
      (emod_two_pow_lt dif (c.width + 1)) (c.esc_fits _ (Nat.mod_lt _ (by decide))).2
      (hsplit2.symm ▸ hraw)
    rw [hscan, Option.bind_some, if_neg (by decide), if_pos rfl]
    simp only [hb2]
    simp only [bitIndex_natCast, Option.bind_some, hr3, hb3, hprev, signExtend_emod hl hu]
    exact ⟨_, rfl⟩

end Decrunch

end Redux.Ana
