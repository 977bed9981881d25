import Redux.Lib.ByteBuffer
import Mathlib.Tactic.Ring

/-!
# Lib.BigEndian — streams written by OR-ing bytes into a zeroed buffer, read big-endian

A packer that starts from zeroed memory needs no stores: it ORs its words in, most significant bit
first, and everything behind the end of the stream stays zero (`Blank`).  `Extends` is the writer's
step for this discipline.  The reader's load, shift and mask is `field`, the number spelled by a
stretch of bits.
-/

namespace Redux.Lib

/-! ## Words, most significant bit first -/

/-- The `m` low bits of `v`, most significant first. -/
def highBits (m v : ℕ) : List Bool := (List.range m).map fun i => v.testBit (m - 1 - i)

/-- The number spelled by the `m` bits from `p`. -/
def field (f : Bits) (p : ℕ) : ℕ → ℕ
  | 0 => 0
  | m + 1 => 2 * field f p m + (f (p + m)).toNat

section Words

variable {f : Bits} {p m n v t : ℕ}

@[simp] theorem highBits_length : (highBits m v).length = m := by simp [highBits]

theorem highBits_getElem {i : ℕ} (h : i < (highBits m v).length) :
    (highBits m v)[i] = v.testBit (m - 1 - i) := by simp [highBits]

theorem holds_highBits : Holds f p (highBits m v) ↔ ∀ i < m, f (p + i) = v.testBit (m - 1 - i) := by
  constructor
  · intro h i hi
    rw [h i (by simpa using hi), highBits_getElem]
  · intro h i hi
    rw [highBits_getElem, h i (by simpa using hi)]

theorem highBits_succ : highBits (m + 1) v = v.testBit m :: highBits m v := by
  refine List.ext_getElem (by simp) fun i h₁ h₂ => ?_
  rw [highBits_getElem]
  cases i with
  | zero => simp
  | succ i =>
    rw [List.getElem_cons_succ, highBits_getElem]
    congr 1
    omega

theorem testBit_field : (field f p m).testBit t = (decide (t < m) && f (p + m - 1 - t)) := by
  induction m generalizing t with
  | zero => simp [field]
  | succ m ih =>
    have hbit : field f p (m + 1) = Nat.bit (f (p + m)) (field f p m) := by
      rw [field, Nat.bit_val]
    rw [hbit]
    cases t with
    | zero => simp
    | succ t =>
      rw [Nat.testBit_bit_succ, ih]
      by_cases ht : t < m
      · rw [decide_eq_true ht, decide_eq_true (by omega), Bool.true_and, Bool.true_and]
        congr 1
        omega
      · rw [decide_eq_false ht, decide_eq_false (by omega), Bool.false_and, Bool.false_and]

theorem field_lt : field f p m < 2 ^ m := by
  induction m with
  | zero => simp [field]
  | succ m ih =>
    have hb : (f (p + m)).toNat ≤ 1 := Bool.toNat_le _
    rw [field, pow_succ]
    omega

/-- A stretch of bits spells the word it holds. -/
theorem field_of_holds (h : Holds f p (highBits m v)) : field f p m = v % 2 ^ m := by
  refine Nat.eq_of_testBit_eq fun t => ?_
  rw [testBit_field, Nat.testBit_mod_two_pow]
  by_cases ht : t < m
  · rw [show p + m - 1 - t = p + (m - 1 - t) by omega, holds_highBits.mp h _ (by omega),
      show m - 1 - (m - 1 - t) = t by omega]
  · rw [decide_eq_false ht, Bool.false_and, Bool.false_and]

/-- The top bits of a field are a field, and so are the ones in the middle. -/
theorem field_shift_mod (s : ℕ) (h : m + s ≤ n) :
    (field f p n >>> s) % 2 ^ m = field f (p + (n - s - m)) m := by
  refine Nat.eq_of_testBit_eq fun t => ?_
  rw [Nat.testBit_mod_two_pow, Nat.testBit_shiftRight, testBit_field, testBit_field]
  by_cases ht : t < m
  · rw [decide_eq_true ht, decide_eq_true (by omega)]
    simp only [Bool.true_and]
    congr 1
    omega
  · rw [decide_eq_false ht, Bool.false_and, Bool.false_and]

/-- A field that starts with a one is large. -/
theorem le_field_of_one (hm : 0 < m) (h : f p = true) : 2 ^ (m - 1) ≤ field f p m := by
  refine Nat.ge_two_pow_of_testBit ?_
  rw [testBit_field, decide_eq_true (by omega), Bool.true_and,
    show p + m - 1 - (m - 1) = p by omega, h]

/-- Leading zeros do not count. -/
theorem field_of_zeros {q : ℕ} (hq : q ≤ m) (h : ∀ i < q, f (p + i) = false) :
    field f p m = field f (p + q) (m - q) := by
  refine Nat.eq_of_testBit_eq fun t => ?_
  rw [testBit_field, testBit_field]
  by_cases ht : t < m - q
  · rw [decide_eq_true ht, decide_eq_true (by omega)]
    congr 2
    omega
  · rw [decide_eq_false ht, Bool.false_and]
    by_cases htm : t < m
    · rw [show p + m - 1 - t = p + (m - 1 - t) by omega, h _ (by omega), Bool.and_false]
    · rw [decide_eq_false htm, Bool.false_and]

end Words

/-! ## Writing behind the end -/

/-- Nothing but zeros from `p` on. -/
def Blank (f : Bits) (p : ℕ) : Prop := ∀ k ≥ p, f k = false

/-- `f'` is `f` with the code word `bs` added at the end position `p`, and zeros behind it. -/
structure Extends (f f' : Bits) (p : ℕ) (bs : List Bool) : Prop where
  before : ∀ k < p, f' k = f k
  word : Holds f' p bs
  after : Blank f' (p + bs.length)

section Writers

variable {f f' f'' : Bits} {p m v : ℕ} {as bs : List Bool}

theorem Extends.refl (h : Blank f p) : Extends f f p [] :=
  ⟨fun _ _ => rfl, holds_nil, by simpa using h⟩

/-- **Writers compose**: a second word goes behind the first. -/
theorem Extends.trans (h₁ : Extends f f' p as) (h₂ : Extends f' f'' (p + as.length) bs) :
    Extends f f'' p (as ++ bs) := by
  refine ⟨fun k hk => ?_, holds_append.mpr ⟨?_, h₂.word⟩, ?_⟩
  · rw [h₂.before k (by omega), h₁.before k hk]
  · exact h₁.word.congr fun k _ hk => h₂.before k hk
  · rw [List.length_append, ← Nat.add_assoc]
    exact h₂.after

/-- Skipping positions of a blank stream writes zeros. -/
theorem Extends.zeros (h : Blank f p) (q : ℕ) : Extends f f p (List.replicate q false) := by
  refine ⟨fun _ _ => rfl, fun i hi => ?_, fun k hk => h k (by omega)⟩
  rw [List.getElem_replicate]
  exact h _ (by omega)

end Writers

/-! ## OR-ing bytes in, loading them big-endian -/

/-- `x[i] |= b`. -/
def orByte (x : Buf) (i : ℕ) (b : BitVec 8) : Buf := put x i (x i ||| b)

/-- `x[i] |= v.b[hi]; x[i+1] |= v.b[hi-1]; …` for `n` bytes. -/
def orBytes (x : Buf) (i v hi : ℕ) : ℕ → Buf
  | 0 => x
  | n + 1 => orBytes (orByte x i (byteOf v hi)) (i + 1) v (hi - 1) n

/-- The number in the `n` bytes from `x[i]`, the most significant first. -/
def beLoad (x : Buf) (i : ℕ) : ℕ → ℕ
  | 0 => 0
  | n + 1 => beLoad x i n <<< 8 ||| (x (i + n)).toNat

section Bytes

variable {x : Buf} {i j k n hi v w m s : ℕ} {b : BitVec 8}

theorem msb_orByte :
    msb (orByte x i b) k = (msb x k || (decide (k / 8 = i) && b.getLsbD (7 - k % 8))) := by
  unfold msb orByte
  rw [put_apply]
  by_cases h : k / 8 = i
  · rw [if_pos h, BitVec.getLsbD_or, h]
    simp
  · rw [if_neg h]
    simp [h]

theorem msb_orBytes (hn : n ≤ hi + 1) : msb (orBytes x i v hi n) k =
    (msb x k || (decide (i ≤ k / 8 ∧ k / 8 < i + n) && v.testBit (8 * (hi + 1) - 1 - (k - 8 * i)))) := by
  induction n generalizing x i hi with
  | zero => rw [orBytes, decide_eq_false (by omega), Bool.false_and, Bool.or_false]
  | succ n ih =>
    rw [orBytes]
    cases n with
    | zero =>
      rw [orBytes, msb_orByte, getLsbD_byteOf, decide_eq_true (by omega : 7 - k % 8 < 8)]
      by_cases h : k / 8 = i
      · rw [decide_eq_true h, decide_eq_true (by omega), Bool.true_and, Bool.true_and, Bool.true_and]
        congr 2
        omega
      · rw [decide_eq_false h, decide_eq_false (by omega), Bool.false_and, Bool.false_and]
    | succ n =>
      rw [ih (by omega), msb_orByte, getLsbD_byteOf, decide_eq_true (by omega : 7 - k % 8 < 8),
        Bool.true_and, Bool.or_assoc]
      congr 1
      by_cases h : k / 8 = i
      · rw [decide_eq_true h, decide_eq_false (by omega), decide_eq_true (by omega), Bool.true_and,
          Bool.false_and, Bool.or_false, Bool.true_and]
        congr 1
        omega
      · rw [decide_eq_false h, Bool.false_and, Bool.false_or]
        by_cases hin : i ≤ k / 8 ∧ k / 8 < i + (n + 1 + 1)
        · rw [decide_eq_true hin, decide_eq_true (by omega), Bool.true_and, Bool.true_and]
          congr 1
          omega
        · rw [decide_eq_false hin, decide_eq_false (by omega), Bool.false_and, Bool.false_and]

/-- The bits of a word that its `n` bytes from bit offset `j` have no room for. -/
def lost (j m n : ℕ) : ℕ := j + m - 8 * n

/-- **A word OR-ed in at bit offset `j` extends the stream**, less the low bits that fall behind the
last of its `n` bytes. -/
theorem extends_orBytes (hj : j < 8) (hx : Blank (msb x) (8 * i + j)) (hw : w < 2 ^ m)
    (hs : j + m + s = 8 * (hi + 1)) (hn : n ≤ hi + 1) :
    Extends (msb x) (msb (orBytes x i (w <<< s) hi n)) (8 * i + j)
      (highBits m ((w >>> lost j m n) <<< lost j m n)) := by
  have hbit : ∀ k, 8 * i + j ≤ k → msb (orBytes x i (w <<< s) hi n) k =
      (decide (k < 8 * (i + n)) && decide (k < 8 * i + j + m) &&
        w.testBit (m - 1 - (k - (8 * i + j)))) := by
    intro k hk
    rw [msb_orBytes hn, hx k hk, Bool.false_or, Nat.testBit_shiftLeft]
    by_cases hkn : k < 8 * (i + n)
    · rw [decide_eq_true hkn, decide_eq_true (by omega)]
      by_cases hkm : k < 8 * i + j + m
      · rw [decide_eq_true hkm, decide_eq_true (by omega)]
        simp only [Bool.true_and]
        congr 1
        omega
      · rw [decide_eq_false hkm, decide_eq_false (by omega)]
        simp
    · rw [decide_eq_false hkn, decide_eq_false (by omega)]
      simp
  refine ⟨fun k hk => ?_, holds_highBits.mpr fun t ht => ?_, fun k hk => ?_⟩
  · rw [msb_orBytes hn]
    by_cases hik : i ≤ k / 8 ∧ k / 8 < i + n
    · have hpow : 2 ^ (m + s) ≤ 2 ^ (8 * (hi + 1) - 1 - (k - 8 * i)) :=
        Nat.pow_le_pow_right (by decide) (by omega)
      have hws : w <<< s < 2 ^ (m + s) := by
        rw [Nat.shiftLeft_eq, pow_add]
        exact Nat.mul_lt_mul_of_pos_right hw (Nat.two_pow_pos s)
      rw [Nat.testBit_lt_two_pow (by omega), Bool.and_false, Bool.or_false]
    · rw [decide_eq_false hik, Bool.false_and, Bool.or_false]
  · rw [hbit _ (by omega), Nat.add_sub_cancel_left, Nat.testBit_shiftLeft, Nat.testBit_shiftRight,
      decide_eq_true (by omega : 8 * i + j + t < 8 * i + j + m), Bool.and_true]
    unfold lost
    by_cases hin : 8 * i + j + t < 8 * (i + n)
    · rw [decide_eq_true hin, decide_eq_true (by omega)]
      congr 2
      omega
    · rw [decide_eq_false hin, decide_eq_false (by omega), Bool.false_and, Bool.false_and]
  · rw [highBits_length] at hk
    rw [hbit k (by omega), decide_eq_false (by omega : ¬ k < 8 * i + j + m)]
    simp

theorem beLoad_eq_field : beLoad x i n = field (msb x) (8 * i) (8 * n) := by
  induction n with
  | zero => rfl
  | succ n ih =>
    refine Nat.eq_of_testBit_eq fun t => ?_
    have hbyte : (x (i + n)).toNat.testBit t = (x (i + n)).getLsbD t := rfl
    rw [beLoad, ih, Nat.testBit_or, Nat.testBit_shiftLeft, testBit_field, testBit_field, hbyte]
    by_cases h8 : t < 8
    · rw [decide_eq_false (by omega), decide_eq_true (by omega : t < 8 * (n + 1)), Bool.false_and,
        Bool.false_or, Bool.true_and, msb]
      congr 1
      · congr 1; omega
      · omega
    · rw [BitVec.getLsbD_of_ge _ _ (by omega), Bool.or_false, decide_eq_true (by omega),
        Bool.true_and]
      by_cases ht : t < 8 * (n + 1)
      · rw [decide_eq_true ht, decide_eq_true (by omega), Bool.true_and, Bool.true_and]
        congr 1
        omega
      · rw [decide_eq_false ht, decide_eq_false (by omega), Bool.false_and, Bool.false_and]

/-- **A big-endian load, a shift and a mask is a field of the stream.** -/
theorem beLoad_field (h : m + s ≤ 8 * n) :
    (beLoad x i n >>> s) % 2 ^ m = field (msb x) (8 * i + (8 * n - s - m)) m := by
  rw [beLoad_eq_field, field_shift_mod s h]

end Bytes

end Redux.Lib
