import Redux.Lib.BitStream

/-!
# Lib.ByteBuffer — a byte memory and the bit stream it carries

A buffer is the byte at every index; what it holds before a program writes to it is arbitrary.  The
stores are the ones a bit packer makes: a whole byte, a byte OR-ed into a partly filled one, the
bytes of a shifted word.  Each comes with the bits it leaves behind, and the packer's compound store
with the word it appends to the stream.
-/

namespace Redux.Lib

/-- The byte at every index. -/
abbrev Buf := ℕ → BitVec 8

/-- The stream read with the least significant bit of each byte first. -/
def lsb (x : Buf) : Bits := fun k => (x (k / 8)).getLsbD (k % 8)

/-- The stream read with the most significant bit of each byte first. -/
def msb (x : Buf) : Bits := fun k => (x (k / 8)).getLsbD (7 - k % 8)

/-- `x[i] = b`. -/
def put (x : Buf) (i : ℕ) (b : BitVec 8) : Buf := Function.update x i b

/-- Byte `k` of the word `v`, counted from the least significant one. -/
def byteOf (v k : ℕ) : BitVec 8 := BitVec.ofNat 8 (v >>> (8 * k))

/-- `x[i+lo] = v.b[lo]; …` for `n` bytes. -/
def storeBytes (x : Buf) (i v lo : ℕ) : ℕ → Buf
  | 0 => x
  | n + 1 => storeBytes (put x (i + lo) (byteOf v lo)) i v (lo + 1) n

/-- `x[k] = 0` for the `n` bytes from `i`. -/
def zeroFill (x : Buf) (i : ℕ) : ℕ → Buf
  | 0 => x
  | n + 1 => zeroFill (put x i 0) (i + 1) n

/-- Fills in the byte in which bit `j` is the first free one: a store if the byte is untouched. -/
def merge (x : Buf) (i j : ℕ) (b : BitVec 8) : Buf :=
  if j = 0 then put x i b else put x i (x i ||| b)

/-- The low `n` bytes are loaded from `x[i]…`, the others of the word `y` stay. -/
def load (x : Buf) (i : ℕ) (y : ℕ) : ℕ → ℕ
  | 0 => y
  | n + 1 => (load x i y n) % 2 ^ (8 * n) ||| (x (i + n)).toNat <<< (8 * n) |||
      (y >>> (8 * (n + 1))) <<< (8 * (n + 1))

section Stores

variable {x : Buf} {i j n v lo k : ℕ} {b : BitVec 8}

theorem put_apply : put x i b k = if k = i then b else x k := Function.update_apply ..

@[simp] theorem put_self : put x i b i = b := Function.update_self ..

theorem put_of_ne (h : k ≠ i) : put x i b k = x k := Function.update_of_ne h ..

@[simp] theorem getLsbD_byteOf {t : ℕ} :
    (byteOf v k).getLsbD t = (decide (t < 8) && v.testBit (8 * k + t)) := by
  rw [byteOf, BitVec.getLsbD_ofNat, Nat.testBit_shiftRight]

theorem lsb_put : lsb (put x i b) k = if k / 8 = i then b.getLsbD (k % 8) else lsb x k := by
  unfold lsb
  rw [put_apply]
  split_ifs <;> rfl

theorem lsb_storeBytes : lsb (storeBytes x i v lo n) k =
    if i + lo ≤ k / 8 ∧ k / 8 < i + lo + n then v.testBit (k - 8 * i) else lsb x k := by
  induction n generalizing x lo with
  | zero => rw [storeBytes, if_neg (by omega)]
  | succ n ih =>
    rw [storeBytes, ih, lsb_put]
    have hlt : k % 8 < 8 := Nat.mod_lt _ (by decide)
    by_cases hin : i + lo ≤ k / 8 ∧ k / 8 < i + lo + (n + 1)
    · rw [if_pos hin]
      by_cases hlo : k / 8 = i + lo
      · rw [if_neg (by omega), if_pos hlo, getLsbD_byteOf, decide_eq_true hlt, Bool.true_and]
        congr 1
        omega
      · rw [if_pos (by omega)]
    · rw [if_neg hin, if_neg (by omega), if_neg (by omega)]

theorem lsb_zeroFill :
    lsb (zeroFill x i n) k = if i ≤ k / 8 ∧ k / 8 < i + n then false else lsb x k := by
  induction n generalizing x i with
  | zero => rw [zeroFill, if_neg (by omega)]
  | succ n ih =>
    rw [zeroFill, ih, lsb_put]
    by_cases hin : i ≤ k / 8 ∧ k / 8 < i + (n + 1)
    · rw [if_pos hin]
      by_cases hi : k / 8 = i
      · rw [if_neg (by omega), if_pos hi]; simp
      · rw [if_pos (by omega)]
    · rw [if_neg hin, if_neg (by omega), if_neg (by omega)]

/-- Merging a byte whose first `j` bits are zero keeps the bits written and sets the others. -/
theorem lsb_merge (hj : j < 8) (hc : Clean (lsb x) (8 * i + j))
    (hb : ∀ t < j, b.getLsbD t = false) : lsb (merge x i j b) k =
      if k / 8 = i ∧ j ≤ k % 8 then b.getLsbD (k % 8) else lsb x k := by
  unfold merge
  by_cases hj0 : j = 0
  · rw [if_pos hj0, lsb_put]
    simp [hj0]
  · rw [if_neg hj0, lsb_put]
    by_cases hki : k / 8 = i
    · rw [if_pos hki, BitVec.getLsbD_or]
      have hx : (x i).getLsbD (k % 8) = lsb x k := by rw [lsb, hki]
      by_cases hjk : j ≤ k % 8
      · rw [if_pos ⟨hki, hjk⟩, hx, hc k (by omega) (by omega), Bool.false_or]
      · rw [if_neg (by omega), hx, hb _ (by omega), Bool.or_false]
    · rw [if_neg hki, if_neg (by omega)]

/-- An untouched byte that is zeroed first may be OR-ed into. -/
theorem merge_eq_or : merge x i j b =
    let x' := if j = 0 then put x i 0 else x
    put x' i (x' i ||| b) := by
  unfold merge
  by_cases hj : j = 0
  · funext k
    simp only [hj, ↓reduceIte, put_apply]
    split_ifs <;> simp
  · simp [hj]

/-- **A shifted word appends its low bits**: the first byte is merged, the others are stored. -/
theorem appends_word {m : ℕ} (hj : j < 8) (hc : Clean (lsb x) (8 * i + j)) (hv : v < 2 ^ m)
    (hn : 1 ≤ n) (hm : j + m ≤ 8 * n) :
    Appends (lsb x) (lsb (storeBytes (merge x i j (byteOf (v <<< j) 0)) i (v <<< j) 1 (n - 1)))
      (8 * i + j) (lowBits m v) := by
  have hlow : ∀ t < j, (byteOf (v <<< j) 0).getLsbD t = false := by
    intro t ht
    rw [getLsbD_byteOf, Nat.testBit_shiftLeft]
    simp; omega
  have hbit : ∀ k, lsb (storeBytes (merge x i j (byteOf (v <<< j) 0)) i (v <<< j) 1 (n - 1)) k =
      if 8 * i + j ≤ k ∧ k < 8 * (i + n) then v.testBit (k - (8 * i + j)) else lsb x k := by
    intro k
    rw [lsb_storeBytes, lsb_merge hj hc hlow, getLsbD_byteOf]
    have hlt : k % 8 < 8 := Nat.mod_lt _ (by decide)
    by_cases hin : 8 * i + j ≤ k ∧ k < 8 * (i + n)
    · rw [if_pos hin]
      by_cases h0 : k / 8 = i
      · rw [if_neg (by omega), if_pos (by omega), decide_eq_true hlt, Bool.true_and,
          Nat.testBit_shiftLeft, decide_eq_true (by omega), Bool.true_and]
        congr 1
        omega
      · rw [if_pos (by omega), Nat.testBit_shiftLeft, decide_eq_true (by omega), Bool.true_and]
        congr 1
        omega
    · rw [if_neg hin, if_neg (by omega), if_neg (by omega)]
  refine ⟨fun k hk => ?_, holds_lowBits.mpr fun t ht => ?_, fun k h₁ h₂ => ?_⟩
  · rw [hbit, if_neg (by omega)]
  · rw [hbit, if_pos (by omega), Nat.add_sub_cancel_left]
  · rw [lowBits_length] at h₁ h₂
    have hpow : 2 ^ m ≤ 2 ^ (k - (8 * i + j)) := Nat.pow_le_pow_right (by decide) (by omega)
    rw [hbit, if_pos (by omega), Nat.testBit_lt_two_pow (by omega)]

/-- One byte at a byte boundary. -/
theorem appends_put : Appends (lsb x) (lsb (put x i b)) (8 * i) (lowBits 8 b.toNat) := by
  refine ⟨fun k hk => ?_, holds_lowBits.mpr fun t ht => ?_, clean_of_dvd ?_⟩
  · rw [lsb_put, if_neg (by omega)]
  · rw [lsb_put, if_pos (by omega), show (8 * i + t) % 8 = t by omega]
    rfl
  · rw [lowBits_length]; omega

/-- Whole bytes from a byte boundary. -/
theorem appends_bytes :
    Appends (lsb x) (lsb (storeBytes x i v 0 n)) (8 * i) (lowBits (8 * n) v) := by
  refine ⟨fun k hk => ?_, holds_lowBits.mpr fun t ht => ?_, clean_of_dvd ?_⟩
  · rw [lsb_storeBytes, if_neg (by omega)]
  · rw [lsb_storeBytes, if_pos (by omega), Nat.add_sub_cancel_left]
  · rw [lowBits_length]; omega

end Stores

/-! ## Loads -/

section Loads

variable {x : Buf} {i y n t : ℕ}

theorem testBit_load :
    (load x i y n).testBit t = if t < 8 * n then lsb x (8 * i + t) else y.testBit t := by
  induction n generalizing t with
  | zero => rw [load, if_neg (by omega)]
  | succ n ih =>
    have hbyte : ∀ s, (x (i + n)).toNat.testBit s = (x (i + n)).getLsbD s := fun _ => rfl
    simp only [load, Nat.testBit_or, Nat.testBit_mod_two_pow, Nat.testBit_shiftLeft,
      Nat.testBit_shiftRight, ih, hbyte]
    rcases Nat.lt_or_ge t (8 * n) with hlt | hge
    · rw [if_pos (by omega), if_pos (by omega)]
      simp only [hlt, decide_true, Bool.true_and, ge_iff_le]
      rw [decide_eq_false (by omega), decide_eq_false (by omega)]
      simp
    · rw [decide_eq_false (by omega), decide_eq_true hge, Bool.false_and, Bool.false_or,
        Bool.true_and]
      by_cases hlt : t < 8 * (n + 1)
      · rw [if_pos hlt, decide_eq_false (by omega), Bool.false_and, Bool.or_false, lsb]
        congr 1
        · congr 1; omega
        · omega
      · rw [if_neg hlt, decide_eq_true (by omega), Bool.true_and,
          BitVec.getLsbD_of_ge _ _ (by omega), Bool.false_or]
        congr 1
        omega

/-- **A load, a shift and a mask give back the word stored there.** -/
theorem load_word {j m v : ℕ} (hv : v < 2 ^ m) (hm : j + m ≤ 8 * n)
    (h : Holds (lsb x) (8 * i + j) (lowBits m v)) : (load x i y n >>> j) % 2 ^ m = v := by
  refine eq_of_lowBits (Nat.mod_lt _ (Nat.two_pow_pos m)) hv fun t ht => ?_
  rw [Nat.testBit_mod_two_pow, decide_eq_true ht, Bool.true_and, Nat.testBit_shiftRight,
    testBit_load, if_pos (by omega), ← holds_lowBits.mp h t ht, Nat.add_assoc]

end Loads

end Redux.Lib
