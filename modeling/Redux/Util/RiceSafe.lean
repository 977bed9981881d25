import Redux.Lib.Attempt
import Redux.Util.RiceTrip

/-!
# Util.RiceSafe — which byte strings are decoded without leaving the input

`rice_decomp16` once more, with every read of the input, every write of the output and every sum of an
`int` checked.  It reads the two bytes from the one in which the split code of a block starts, whole
bytes up to the one of a unary code, and raw differences in groups of three; none of these reads looks at
the end of the input.  `BlocksInside` says of the bits of a stream, block by block, that nothing lies
beyond the end, and that is when the decoder is safe (`riceDecomp16_safe_iff`).
-/

namespace Redux.Rice

open Redux.Lib

/-- An access outside of a buffer, or an `int` that is too large. -/
inductive Fault
  | read (i : ℕ)
  | write (i : ℕ)
  | overflow

/-- The bytes of the input, and what lies behind them. -/
def memory (input : List (BitVec 8)) : Buf := fun i => input.getD i 0

/-! ## The decoder with its accesses checked -/

section Checked

variable (input : List (BitVec 8))

/-- The `n` bytes from `i`. -/
def load (i n : ℕ) : Attempt Fault ℕ :=
  if n = 0 ∨ i + n ≤ input.length then pure (beLoad (memory input) i n) else throw (.read (max i input.length))

/-- A sum in an `int`. -/
def inInt (n : ℕ) : Attempt Fault ℕ := if n < 2 ^ 31 then pure n else throw .overflow

/-- `while( !val ) { leadingZeroes += 8; val = *(inPtr + ++cnt); }`. -/
def scanChecked : ℕ → ℕ → ℕ → ℕ → Attempt Fault (ℕ × ℕ)
  | 0, _, _, _ => ExceptT.lift none
  | n + 1, i, zeroes, val =>
    if val = 0 then do
      let zeroes ← inInt (zeroes + 8)
      let val ← load input (i + 1) 1
      scanChecked n (i + 1) zeroes val
    else pure (zeroes, val)

/-- The zeros before the next one; `offset += leadingZeroes+1` is the largest sum. -/
def zeroesChecked (fuel : ℕ) (c : Cursor) : Attempt Fault ℕ := do
  let byte ← load input c.ptr 1
  let r ← scanChecked input fuel c.ptr 0 (byte &&& (0xFF >>> c.offset))
  let _ ← inInt (r.1 + nLeadingZeroes.getD r.2 0 + 1)
  return r.1 + nLeadingZeroes.getD r.2 0 - c.offset

/-- The `split` entropy bits. -/
def entropyChecked (split : ℕ) (c : Cursor) : Attempt Fault ℕ := do
  let splitMask := 1 <<< split - 1
  let lastBit : ℤ := c.offset + split - 1
  let nBytes : ℤ := 1 + lastBit / 8
  let rshift := 8 * nBytes - lastBit - 1
  let word ← load input c.ptr nBytes.toNat
  return ((word >>> rshift.toNat) % 2 ^ 16) &&& splitMask

/-- The differences of a Golomb–Rice block of `n` samples. -/
def uncrunchChecked (fuel split : ℕ) : ℕ → Cursor → Attempt Fault (List ℕ × Cursor)
  | 0, c => pure ([], c)
  | n + 1, c => do
    let zeroes ← zeroesChecked input fuel c
    let c₁ := c.advance (zeroes + 1)
    let bits ← entropyChecked input split c₁
    let r ← uncrunchChecked fuel split n (c₁.advance split)
    return ((zeroes <<< split ||| bits) :: r.1, r.2)

/-- The raw differences at an offset, up to three of them with each load. -/
def groupsChecked (c : Cursor) (blockSize thisBlockSize : ℕ) : ℕ → ℕ → Attempt Fault (List ℕ)
  | 0, _ => pure []
  | n + 1, w =>
    if w < thisBlockSize ∧ w < blockSize then do
      let nVals := min 3 (blockSize - w)
      let word ← load input (c.ptr + 2 * w) (2 * nVals + 1)
      let tmpU := word >>> (8 - c.offset)
      let rest ← groupsChecked c blockSize thisBlockSize n (w + nVals)
      return (List.range nVals).map (fun k => (tmpU >>> (16 * (nVals - 1 - k))) % 2 ^ 16) ++ rest
    else pure []

/-- The raw differences of a block. -/
def uncopyChecked (blockSize thisBlockSize : ℕ) (c : Cursor) : Attempt Fault (List ℕ) :=
  if c.offset ≠ 0 then groupsChecked input c blockSize thisBlockSize thisBlockSize 0
  else attemptAll (fun j => do return [← load input (c.ptr + 2 * j) 2]) (List.range thisBlockSize)

/-- The differences of a block that is not all the same, and the place behind them. -/
def diffsChecked (fuel blockSize thisBlockSize split : ℕ) (c : Cursor) : Attempt Fault (List ℕ × Cursor) :=
  if maxEntropyBits ≤ split then do
    let diff ← uncopyChecked input blockSize thisBlockSize c
    return (diff, { c with ptr := c.ptr + 2 * thisBlockSize })
  else uncrunchChecked input fuel (split - 1) thisBlockSize c

/-- One block: the samples, the place behind them, the last value. -/
def blockChecked (fuel blockSize thisBlockSize : ℕ) (c : Cursor) (lastValue : ℤ) :
    Attempt Fault (List (BitVec 16) × Cursor × ℤ) := do
  let word ← load input c.ptr 2
  let split := (word >>> (12 - c.offset)) % 16
  let c₁ := c.advance 4
  if split = 0 then return (List.replicate thisBlockSize (BitVec.ofInt 16 lastValue), c₁, lastValue)
  else do
    let r ← diffsChecked input fuel blockSize thisBlockSize split c₁
    let out := undiff lastValue (r.1.take thisBlockSize)
    return (out, r.2, (out.getLast?.map BitVec.toInt).getD lastValue)

/-- `outPtr` is behind the samples written so far. -/
def store (outSize : ℕ) (out vals : List (BitVec 16)) : Attempt Fault (List (BitVec 16)) :=
  if out.length + vals.length ≤ outSize then pure (out ++ vals) else throw (.write outSize)

/-- The loop over the blocks. -/
def blocksChecked (fuel outSize blockSize : ℕ) :
    ℕ → Cursor → ℤ → List (BitVec 16) → Attempt Fault (List (BitVec 16))
  | 0, _, _, _ => ExceptT.lift none
  | n + 1, c, lastValue, out =>
    if c.ptr < input.length ∧ out.length < outSize then do
      let thisBlockSize := min blockSize (outSize - out.length)
      let r ← blockChecked input fuel blockSize thisBlockSize c lastValue
      let out ← store outSize out r.1
      blocksChecked fuel outSize blockSize n r.2.1 r.2.2 out
    else pure out

/-- The cursor behind the first two bytes starts at a byte. -/
theorem byte_aligned : 0 < 8 := by decide

/-- `rice_decomp16`, with at most `fuel` rounds for each loop; `allocates` says whether there is memory for
the differences of a block.  It returns -1 without having touched the buffers, or 0 and the output. -/
def decompChecked (allocates : ℕ → Bool) (outSize blockSize fuel : ℕ) :
    Attempt Fault (ℤ × Option (List (BitVec 16))) :=
  if allocates blockSize then do
    let first ← load input 0 2
    let out ← blocksChecked input fuel outSize blockSize fuel ⟨2, 0, byte_aligned⟩ first []
    return (0, some (out ++ List.replicate (outSize - out.length) 0))
  else return (-1, none)

end Checked

/-- It ends, having read no byte behind the input and written no sample behind the output. -/
def Safe (input : List (BitVec 8)) (allocates : ℕ → Bool) (outSize blockSize : ℕ) : Prop :=
  ∃ r, Comes (decompChecked input allocates outSize blockSize) (.ok r)

/-! ## The stream -/

/-- The first one from bit `p` on follows `z` zeros. -/
def FirstOne (f : Bits) (p z : ℕ) : Prop := (∀ i < z, f (p + i) = false) ∧ f (p + z) = true

/-- The Golomb–Rice codes of `n` differences, from bit `p` to bit `q`, lie in the first `N` bits; no unary
code is as long as an `int` can be. -/
inductive CodesInside (f : Bits) (N split : ℕ) : ℕ → ℕ → ℕ → Prop
  | nil (p : ℕ) : CodesInside f N split 0 p p
  | cons {n p z q : ℕ} (unary : FirstOne f p z) (inside : p + z + 1 + split ≤ N)
      (small : p % 8 + z + 1 < 2 ^ 31) (rest : CodesInside f N split n (p + z + 1 + split) q) :
      CodesInside f N split (n + 1) p q

/-- How many raw differences are read for `n` of them: three at a time if they are not aligned. -/
def rawRead (p blockSize n : ℕ) : ℕ := if p % 8 = 0 then n else min blockSize (3 * ((n + 2) / 3))

/-- The block of `n` samples from bit `p` to bit `q` lies in the first `size` bytes, and so does the byte
behind the one that its split code starts in. -/
inductive BlockInside (f : Bits) (size blockSize n p : ℕ) : ℕ → Prop
  | same (code : p / 8 + 2 ≤ size) (zero : field f p 4 = 0) : BlockInside f size blockSize n p (p + 4)
  | raw (code : p / 8 + 2 ≤ size) (high : maxEntropyBits ≤ field f p 4)
      (inside : p + 4 + 16 * rawRead (p + 4) blockSize n ≤ 8 * size) :
      BlockInside f size blockSize n p (p + 4 + 16 * n)
  | coded {q : ℕ} (code : p / 8 + 2 ≤ size) (pos : field f p 4 ≠ 0) (low : field f p 4 < maxEntropyBits)
      (codes : CodesInside f (8 * size) (field f p 4 - 1) n (p + 4) q) : BlockInside f size blockSize n p q

/-- From bit `p` on, with `left` samples to go, every block lies in the first `size` bytes, up to the end of
the bytes or of the samples. -/
inductive BlocksInside (f : Bits) (size blockSize : ℕ) : ℕ → ℕ → Prop
  | ended {p left : ℕ} (h : size ≤ p / 8) : BlocksInside f size blockSize p left
  | full (p : ℕ) : BlocksInside f size blockSize p 0
  | block {p q left : ℕ} (block : BlockInside f size blockSize (min blockSize left) p q)
      (rest : BlocksInside f size blockSize q (left - min blockSize left)) :
      BlocksInside f size blockSize p left

/-! ## The reads of a code -/

section Codes

variable {input : List (BitVec 8)} {c : Cursor} {fuel split n i v z lo zeroes val : ℕ}

@[simp] theorem returns_load : Returns (load input i n) v ↔
    (n = 0 ∨ i + n ≤ input.length) ∧ beLoad (memory input) i n = v := by
  unfold load
  split_ifs with h
  · simp [h]
  · simp [h]

@[simp] theorem returns_load_bind {β : Type} {k : ℕ → Attempt Fault β} {b : β} :
    Returns (load input i n >>= k) b ↔
      (n = 0 ∨ i + n ≤ input.length) ∧ Returns (k (beLoad (memory input) i n)) b := by
  rw [returns_bind]
  simp only [returns_load]
  constructor
  · rintro ⟨_, ⟨hin, rfl⟩, hb⟩
    exact ⟨hin, hb⟩
  · rintro ⟨hin, hb⟩
    exact ⟨_, ⟨hin, rfl⟩, hb⟩

@[simp] theorem returns_inInt : Returns (inInt n) v ↔ n < 2 ^ 31 ∧ n = v := by
  unfold inInt
  split_ifs with h
  · exact ⟨fun hv => ⟨h, returns_pure.1 hv⟩, fun hv => returns_pure.2 hv.2⟩
  · exact ⟨fun hv => absurd hv not_returns_throw, fun hv => absurd hv.1 h⟩

theorem beLoad_one : beLoad (memory input) i 1 = (memory input i).toNat := by
  simp [beLoad]

/-- The first one is where it is. -/
theorem FirstOne.unique {f : Bits} {p z' : ℕ} (h : FirstOne f p z) (h' : FirstOne f p z') : z = z' := by
  rcases Nat.lt_trichotomy z z' with hlt | heq | hgt
  · have hzero := h'.1 z hlt
    rw [h.2] at hzero
    cases hzero
  · exact heq
  · have hzero := h.1 z' hgt
    rw [h'.2] at hzero
    cases hzero

/-- `val` is what byte `i` has from bit `lo` on. -/
structure Tail (f : Bits) (lo i val : ℕ) : Prop where
  lt : val < 256
  bits : ∀ t < 8, val.testBit (7 - t) = (decide (lo ≤ 8 * i + t) && f (8 * i + t))
  low : 8 * i ≤ lo
  high : lo < 8 * (i + 1)

theorem tail_byte (i : ℕ) : Tail (msb (memory input)) (8 * i) i (memory input i).toNat where
  lt := (memory input i).isLt
  bits t ht := by
    rw [decide_eq_true (by omega : 8 * i ≤ 8 * i + t), Bool.true_and, msb, show (8 * i + t) / 8 = i by omega,
      show (8 * i + t) % 8 = t by omega]
    rfl
  low := le_rfl
  high := by omega

theorem tail_cursor (c : Cursor) : Tail (msb (memory input)) c.pos c.ptr
    ((memory input c.ptr).toNat &&& (0xFF >>> c.offset)) := by
  have hj := c.offset_lt
  have hpos : c.pos = 8 * c.ptr + c.offset := rfl
  refine ⟨Nat.and_lt_two_pow _ (n := 8) ((Nat.shiftRight_le _ _).trans_lt (by decide)), fun t ht => ?_,
    by omega, by omega⟩
  rw [Nat.testBit_and, Nat.testBit_shiftRight, show (0xFF : ℕ) = 2 ^ 8 - 1 by rfl,
    Nat.testBit_two_pow_sub_one, msb, show (8 * c.ptr + t) / 8 = c.ptr by omega,
    show (8 * c.ptr + t) % 8 = t by omega, Bool.and_comm]
  congr 1
  exact decide_eq_decide.mpr (by omega)

section Tail

variable {f : Bits} (h : Tail f lo i val)
include h

/-- A byte with nothing but zeros. -/
theorem Tail.zero_of_eq (hval : val = 0) {k : ℕ} (hlo : lo ≤ k) (hk : k < 8 * (i + 1)) : f k = false := by
  have hlow := h.low
  have hbit := h.bits (k - 8 * i) (by omega)
  rw [hval, Nat.zero_testBit, show 8 * i + (k - 8 * i) = k by omega, decide_eq_true hlo, Bool.true_and] at hbit
  exact hbit.symm

/-- The table finds the first one of the byte. -/
theorem Tail.firstOne (hval : val ≠ 0) : lo ≤ 8 * i + nLeadingZeroes.getD val 0 ∧
    nLeadingZeroes.getD val 0 < 8 ∧ FirstOne f lo (8 * i + nLeadingZeroes.getD val 0 - lo) := by
  obtain ⟨hlt, hone, hzero⟩ := nLeadingZeroes_spec val h.lt hval
  rw [h.bits _ hlt, Bool.and_eq_true, decide_eq_true_eq] at hone
  have hlow := h.low
  refine ⟨hone.1, hlt, fun k hk => ?_, ?_⟩
  · have hbit := hzero (lo + k - 8 * i) (by omega)
    rw [h.bits _ (by omega), show 8 * i + (lo + k - 8 * i) = lo + k by omega,
      decide_eq_true (by omega), Bool.true_and] at hbit
    exact hbit
  · rw [show lo + (8 * i + nLeadingZeroes.getD val 0 - lo) = 8 * i + nLeadingZeroes.getD val 0 by omega]
    exact hone.2

end Tail

/-- **What the scan returns**: the first one from bit `lo` on is in the last byte that it read. -/
theorem scanChecked_returns : ∀ {n i zeroes val lo : ℕ} {r : ℕ × ℕ},
    Tail (msb (memory input)) lo i val → Returns (scanChecked input n i zeroes val) r →
      r = scanUnary (memory input) n i zeroes val ∧ ∃ z, FirstOne (msb (memory input)) lo z ∧
        (lo + z < 8 * (i + 1) ∨ lo + z < 8 * input.length) ∧
        r.1 + nLeadingZeroes.getD r.2 0 + 8 * i = zeroes + (lo + z)
  | 0, _, _, _, _, _, _, h => absurd h not_returns_none
  | n + 1, i, zeroes, val, lo, r, ht, h => by
    rw [scanChecked] at h
    by_cases hval : val = 0
    · rw [if_pos hval] at h
      simp only [returns_bind, returns_inInt, returns_load, beLoad_one] at h
      obtain ⟨_, ⟨-, rfl⟩, _, ⟨hin, rfl⟩, h⟩ := h
      obtain ⟨hr, z, hz, hbound, hsum⟩ := scanChecked_returns (tail_byte (i + 1)) h
      have hlow := ht.low
      have hhigh := ht.high
      rw [scanUnary, if_pos hval]
      refine ⟨hr, 8 * (i + 1) + z - lo, ⟨fun k hk => ?_, ?_⟩, ?_, ?_⟩
      · by_cases hk' : lo + k < 8 * (i + 1)
        · exact ht.zero_of_eq hval (by omega) hk'
        · have hzero := hz.1 (lo + k - 8 * (i + 1)) (by omega)
          rwa [show 8 * (i + 1) + (lo + k - 8 * (i + 1)) = lo + k by omega] at hzero
      · rw [show lo + (8 * (i + 1) + z - lo) = 8 * (i + 1) + z by omega]
        exact hz.2
      · omega
      · omega
    · rw [if_neg hval] at h
      obtain rfl := returns_pure.1 h
      obtain ⟨hlo, hlt, hfirst⟩ := ht.firstOne hval
      rw [scanUnary, if_neg hval]
      refine ⟨rfl, _, hfirst, .inl (by omega), ?_⟩
      dsimp only
      omega

/-- The scan returns if the first one lies in the input. -/
theorem scanChecked_exists : ∀ {n i zeroes val lo z : ℕ}, Tail (msb (memory input)) lo i val →
    FirstOne (msb (memory input)) lo z → lo + z < 8 * input.length → zeroes + (lo + z) < 2 ^ 31 + 8 * i →
    lo + z < 8 * (i + n) → ∃ r, Returns (scanChecked input n i zeroes val) r
  | 0, _, _, _, _, _, ht, _, _, _, hn => by
    have hlow := ht.low
    omega
  | n + 1, i, zeroes, val, lo, z, ht, hz, hin, hint, hn => by
    rw [scanChecked]
    by_cases hval : val = 0
    · have hbeyond : 8 * (i + 1) ≤ lo + z := by
        by_contra hlt
        have hzero := ht.zero_of_eq hval (Nat.le_add_right lo z) (by omega)
        rw [hz.2] at hzero
        cases hzero
      have hhigh := ht.high
      have hz' : FirstOne (msb (memory input)) (8 * (i + 1)) (lo + z - 8 * (i + 1)) := by
        refine ⟨fun k hk => ?_, ?_⟩
        · have hzero := hz.1 (8 * (i + 1) + k - lo) (by omega)
          rwa [show lo + (8 * (i + 1) + k - lo) = 8 * (i + 1) + k by omega] at hzero
        · rw [show 8 * (i + 1) + (lo + z - 8 * (i + 1)) = lo + z by omega]
          exact hz.2
      obtain ⟨r, hr⟩ := @scanChecked_exists n (i + 1) (zeroes + 8) _ _ _ (tail_byte (i + 1)) hz' (by omega)
        (by omega) (by omega)
      rw [if_pos hval]
      simp only [returns_bind, returns_inInt, returns_load, beLoad_one]
      exact ⟨r, _, ⟨by omega, rfl⟩, _, ⟨.inr (by omega), rfl⟩, hr⟩
    · rw [if_neg hval]
      exact ⟨_, returns_pure.2 rfl⟩

/-- **The zeros of a unary code are counted** exactly if it lies in the input and is not as long as an
`int` can be. -/
theorem zeroesChecked_iff (hfuel : input.length ≤ fuel) : Returns (zeroesChecked input fuel c) z ↔
    FirstOne (msb (memory input)) c.pos z ∧ c.pos + z < 8 * input.length ∧ c.offset + z + 1 < 2 ^ 31 := by
  have hj := c.offset_lt
  have hpos : c.pos = 8 * c.ptr + c.offset := rfl
  unfold zeroesChecked
  simp only [returns_bind, returns_load, returns_inInt, returns_pure, beLoad_one]
  constructor
  · rintro ⟨_, ⟨hin, rfl⟩, r, hr, _, ⟨hint, rfl⟩, rfl⟩
    obtain ⟨-, z, hz, hbound, hsum⟩ := scanChecked_returns (tail_cursor c) hr
    rw [show r.1 + nLeadingZeroes.getD r.2 0 - c.offset = z by omega]
    exact ⟨hz, by omega, by omega⟩
  · rintro ⟨hz, hin, hint⟩
    obtain ⟨r, hr⟩ := @scanChecked_exists input fuel c.ptr 0 _ c.pos z (tail_cursor c) hz hin (by omega) (by omega)
    obtain ⟨-, z', hz', -, hsum⟩ := scanChecked_returns (tail_cursor c) hr
    obtain rfl := hz.unique hz'
    exact ⟨_, ⟨.inr (by omega), rfl⟩, r, hr, _, ⟨by omega, rfl⟩, by omega⟩

/-- As many rounds as there are bytes are enough. -/
theorem zeroesChecked_eq (hfuel : input.length ≤ fuel) (h : Returns (zeroesChecked input fuel c) z) :
    z = leadingZeroes (memory input) input.length c := by
  have h' := (zeroesChecked_iff le_rfl).2 ((zeroesChecked_iff hfuel).1 h)
  unfold zeroesChecked at h'
  simp only [returns_bind, returns_load, returns_inInt, returns_pure, beLoad_one] at h'
  obtain ⟨_, ⟨-, rfl⟩, r, hr, _, -, rfl⟩ := h'
  obtain ⟨rfl, -⟩ := scanChecked_returns (tail_cursor c) hr
  rfl

/-- The entropy bits are read exactly if they lie in the input. -/
theorem entropyChecked_iff (hin : c.pos ≤ 8 * input.length) : Returns (entropyChecked input split c) v ↔
    c.pos + split ≤ 8 * input.length ∧ v = entropyBits (memory input) split c := by
  have hj := c.offset_lt
  have hpos : c.pos = 8 * c.ptr + c.offset := rfl
  have hn : (1 + ((c.offset : ℤ) + split - 1) / 8).toNat = (c.offset + split + 7) / 8 := by omega
  unfold entropyChecked entropyBits
  simp only [returns_bind, returns_load, returns_pure]
  rw [hn]
  constructor
  · rintro ⟨_, ⟨hbytes, rfl⟩, rfl⟩
    exact ⟨by omega, rfl⟩
  · rintro ⟨hbits, rfl⟩
    exact ⟨_, ⟨by omega, rfl⟩, rfl⟩

/-- **The codes of a block are read** exactly if they lie in the input. -/
theorem uncrunchChecked_iff (hfuel : input.length ≤ fuel) : ∀ {n : ℕ} {c : Cursor} {r : List ℕ × Cursor},
    Returns (uncrunchChecked input fuel split n c) r ↔
      CodesInside (msb (memory input)) (8 * input.length) split n c.pos r.2.pos ∧
        r = uncrunchBlock (memory input) input.length split n c
  | 0, c, r => by
    rw [uncrunchChecked, uncrunchBlock, returns_pure]
    constructor
    · rintro rfl
      exact ⟨.nil c.pos, rfl⟩
    · rintro ⟨-, rfl⟩
      rfl
  | n + 1, c, r => by
    have hoff := c.pos_mod
    rw [uncrunchChecked, uncrunchBlock]
    simp only [returns_bind, returns_pure]
    constructor
    · rintro ⟨z, hz, bits, hbits, r', hr', rfl⟩
      obtain ⟨hfirst, hin, hint⟩ := (zeroesChecked_iff hfuel).1 hz
      obtain rfl := zeroesChecked_eq hfuel hz
      obtain ⟨hsplit, rfl⟩ := (entropyChecked_iff (by rw [Cursor.advance_pos]; omega)).1 hbits
      obtain ⟨hcodes, rfl⟩ := (uncrunchChecked_iff hfuel).1 hr'
      rw [Cursor.advance_pos] at hsplit
      rw [Cursor.advance_pos, Cursor.advance_pos] at hcodes
      exact ⟨.cons hfirst (by omega) (by omega) hcodes, rfl⟩
    · rintro ⟨hcodes, hr⟩
      cases hcodes with
      | cons hfirst hin hint hcodes =>
        have hz := (zeroesChecked_iff hfuel).2 ⟨hfirst, by omega, by omega⟩
        have hzeroes := zeroesChecked_eq hfuel hz
        refine ⟨_, hz, _, (entropyChecked_iff (by rw [Cursor.advance_pos]; omega)).2
          ⟨by rw [Cursor.advance_pos]; omega, rfl⟩, _, uncrunchChecked_iff hfuel |>.2 ⟨?_, rfl⟩, ?_⟩
        · rw [Cursor.advance_pos, Cursor.advance_pos]
          rw [hr, ← hzeroes] at hcodes
          exact hcodes
        · rw [hr, hzeroes]

/-- Codes that lie in the input end where the decoder gets to. -/
theorem CodesInside.end_eq : ∀ {n : ℕ} {c : Cursor} {q : ℕ},
    CodesInside (msb (memory input)) (8 * input.length) split n c.pos q →
      (uncrunchBlock (memory input) input.length split n c).2.pos = q
  | 0, c, q, h => by
    cases h
    rfl
  | n + 1, c, q, h => by
    have hoff := c.pos_mod
    cases h with
    | @cons _ _ z _ hfirst hin hint hcodes =>
      have hz : z = leadingZeroes (memory input) input.length c :=
        zeroesChecked_eq le_rfl ((zeroesChecked_iff le_rfl).2 ⟨hfirst, by omega, by omega⟩)
      rw [uncrunchBlock, ← hz]
      refine CodesInside.end_eq ?_
      rwa [Cursor.advance_pos, Cursor.advance_pos]

end Codes

/-! ## The reads of a block -/

section Blocks

variable {input : List (BitVec 8)} {c : Cursor} {fuel blockSize n w k : ℕ} {lastValue : ℤ}

/-- The groups of three end where those behind the first one do. -/
theorem groups_end_succ (h : w + 3 < n) : w + 3 + 3 * ((n - (w + 3) + 2) / 3) = w + 3 * ((n - w + 2) / 3) := by
  have hsub : n - w + 2 = n - (w + 3) + 2 + 3 := by omega
  rw [hsub, Nat.add_div_right _ (by decide)]
  ring

/-- There is one group left. -/
theorem groups_end_last (hw : w < n) (h : n ≤ w + 3) : w + 3 * ((n - w + 2) / 3) = w + 3 := by
  have hone : (n - w + 2) / 3 = 1 := Nat.div_eq_of_lt_le (by omega) (by omega)
  rw [hone]

/-- Unaligned raw differences are read up to the last group of three. -/
theorem groupsChecked_iff (hn : n ≤ blockSize) : ∀ {k w : ℕ} {ds : List ℕ}, n - w ≤ k →
    (Returns (groupsChecked input c blockSize n k w) ds ↔
      (w < n → c.ptr + 2 * min blockSize (w + 3 * ((n - w + 2) / 3)) + 1 ≤ input.length) ∧
        copyGroups (memory input) c blockSize n k w = ds)
  | 0, w, ds, hk => by
    rw [groupsChecked, copyGroups, returns_pure]
    exact ⟨fun h => ⟨fun hw => by omega, h⟩, fun h => h.2⟩
  | k + 1, w, ds, hk => by
    rw [groupsChecked, copyGroups]
    by_cases hw : w < n
    · have ih := fun ds => @groupsChecked_iff hn k (w + min 3 (blockSize - w)) ds (by omega)
      rw [if_pos ⟨hw, by omega⟩, if_pos ⟨hw, by omega⟩]
      simp only [returns_bind, returns_load, returns_pure, ih]
      by_cases hlast : w + 3 < n
      · have hmin : min 3 (blockSize - w) = 3 := min_eq_left (by omega)
        rw [hmin, groups_end_succ hlast]
        constructor
        · rintro ⟨_, ⟨hload, rfl⟩, _, ⟨hrest, rfl⟩, rfl⟩
          exact ⟨fun _ => hrest hlast, rfl⟩
        · rintro ⟨hend, rfl⟩
          have hinside := hend hw
          have hnext : w + 3 ≤ w + 3 * ((n - w + 2) / 3) := groups_end_succ hlast ▸ Nat.le_add_right _ _
          have hread : w + 3 ≤ min blockSize (w + 3 * ((n - w + 2) / 3)) := le_min (by omega) hnext
          exact ⟨_, ⟨.inr (by omega), rfl⟩, _, ⟨fun _ => hinside, rfl⟩, rfl⟩
      · have hend := groups_end_last hw (not_lt.1 hlast)
        have hread : w + min 3 (blockSize - w) = min blockSize (w + 3) := by omega
        have hstop : ¬w + min 3 (blockSize - w) < n := by omega
        rw [hend, ← hread]
        constructor
        · rintro ⟨_, ⟨hload, rfl⟩, _, ⟨hrest, rfl⟩, rfl⟩
          exact ⟨fun _ => by omega, rfl⟩
        · rintro ⟨hinside, rfl⟩
          have hinside := hinside hw
          exact ⟨_, ⟨.inr (by omega), rfl⟩, _, ⟨fun h => absurd h hstop, rfl⟩, rfl⟩
    · rw [if_neg (by omega), if_neg (by omega), returns_pure]
      exact ⟨fun h => ⟨fun hw' => absurd hw' hw, h⟩, fun h => h.2⟩

theorem uncopyChecked_iff (hn : n ≤ blockSize) (hin : c.pos ≤ 8 * input.length) {ds : List ℕ} :
    Returns (uncopyChecked input blockSize n c) ds ↔
      c.pos + 16 * rawRead c.pos blockSize n ≤ 8 * input.length ∧ uncopyBlock (memory input) blockSize n c = ds := by
  have hj := c.offset_lt
  have hoff := c.pos_mod
  have hpos : c.pos = 8 * c.ptr + c.offset := rfl
  unfold uncopyChecked uncopyBlock rawRead
  by_cases hzero : c.offset = 0
  · rw [if_neg (not_not.2 hzero), if_neg (not_not.2 hzero), if_pos (by omega)]
    have hword : ∀ (j : ℕ) (out : List ℕ), Returns (do return [← load input (c.ptr + 2 * j) 2]) out ↔
        c.ptr + 2 * j + 2 ≤ input.length ∧ [beLoad (memory input) (c.ptr + 2 * j) 2] = out := by
      intro j out
      simp only [returns_bind, returns_load, returns_pure]
      constructor
      · rintro ⟨_, ⟨hload, rfl⟩, rfl⟩
        exact ⟨by omega, rfl⟩
      · rintro ⟨hload, rfl⟩
        exact ⟨_, ⟨.inr hload, rfl⟩, rfl⟩
    rw [returns_attemptAll hword]
    refine and_congr_left fun _ => ?_
    simp only [List.mem_range]
    constructor
    · intro h
      rcases Nat.eq_zero_or_pos n with rfl | hpos'
      · omega
      · have hlast := h (n - 1) (by omega)
        omega
    · intro h j hj'
      omega
  · rw [if_pos hzero, if_pos hzero, if_neg (by omega), groupsChecked_iff hn (by omega)]
    refine and_congr_left fun _ => ?_
    simp only [Nat.sub_zero, Nat.zero_add]
    constructor
    · intro h
      rcases Nat.eq_zero_or_pos n with rfl | hpos'
      · simp only [Nat.zero_add, Nat.reduceDiv, Nat.mul_zero, Nat.min_zero]
        omega
      · have hend := h hpos'
        omega
    · intro h hpos'
      omega

/-- The split code of a block. -/
theorem splitCode_field {y : Buf} : (beLoad y c.ptr 2 >>> (12 - c.offset)) % 16 = field (msb y) c.pos 4 := by
  have hj := c.offset_lt
  have hload := beLoad_field (x := y) (i := c.ptr) (n := 2) (m := 4) (s := 12 - c.offset) (by omega)
  rw [show (2 : ℕ) ^ 4 = 16 by rfl] at hload
  rw [hload, show 8 * c.ptr + (8 * 2 - (12 - c.offset) - 4) = c.pos by unfold Cursor.pos; omega]

section Inversion

variable {f : Bits} {size p q : ℕ}

theorem BlockInside.code (h : BlockInside f size blockSize n p q) : p / 8 + 2 ≤ size := by
  cases h <;> assumption

theorem blockInside_zero (h : field f p 4 = 0) :
    BlockInside f size blockSize n p q ↔ p / 8 + 2 ≤ size ∧ q = p + 4 := by
  constructor
  · intro hblock
    cases hblock with
    | same code _ => exact ⟨code, rfl⟩
    | raw _ high _ =>
      rw [h] at high
      cases high
    | coded _ pos _ _ => exact absurd h pos
  · rintro ⟨code, rfl⟩
    exact .same code h

theorem blockInside_high (h : maxEntropyBits ≤ field f p 4) : BlockInside f size blockSize n p q ↔
    p / 8 + 2 ≤ size ∧ p + 4 + 16 * rawRead (p + 4) blockSize n ≤ 8 * size ∧ q = p + 4 + 16 * n := by
  constructor
  · intro hblock
    cases hblock with
    | same _ zero =>
      rw [zero] at h
      cases h
    | raw code _ inside => exact ⟨code, inside, rfl⟩
    | coded _ _ low _ => exact absurd low (not_lt.2 h)
  · rintro ⟨code, inside, rfl⟩
    exact .raw code h inside

theorem blockInside_coded (h : field f p 4 ≠ 0) (hlow : ¬maxEntropyBits ≤ field f p 4) :
    BlockInside f size blockSize n p q ↔
      p / 8 + 2 ≤ size ∧ CodesInside f (8 * size) (field f p 4 - 1) n (p + 4) q := by
  constructor
  · intro hblock
    cases hblock with
    | same _ zero => exact absurd zero h
    | raw _ high _ => exact absurd high hlow
    | coded code _ _ codes => exact ⟨code, codes⟩
  · rintro ⟨code, codes⟩
    exact .coded code h (not_le.1 hlow) codes

theorem BlockInside.end_eq
    (h : BlockInside (msb (memory input)) input.length blockSize n c.pos q) :
    (decompBlock (memory input) input.length blockSize n c lastValue).2.1.pos = q := by
  have hadvance := Cursor.advance_pos c 4
  unfold decompBlock
  dsimp only
  rw [splitCode_field]
  cases h with
  | same code zero => rw [if_pos zero, hadvance]
  | raw code high inside =>
    have hzero : field (msb (memory input)) c.pos 4 ≠ 0 := fun hzero => by
      rw [hzero] at high
      cases high
    rw [if_neg hzero, if_pos high]
    unfold Cursor.pos at hadvance ⊢
    dsimp only
    omega
  | coded code pos low codes =>
    rw [if_neg pos, if_neg (not_le.2 low)]
    rw [← hadvance] at codes
    exact codes.end_eq

end Inversion

/-- **A block is decoded** exactly if it lies in the input. -/
theorem blockChecked_iff (hn : n ≤ blockSize) (hfuel : input.length ≤ fuel)
    {r : List (BitVec 16) × Cursor × ℤ} : Returns (blockChecked input fuel blockSize n c lastValue) r ↔
      BlockInside (msb (memory input)) input.length blockSize n c.pos r.2.1.pos ∧
        decompBlock (memory input) input.length blockSize n c lastValue = r := by
  have hj := c.offset_lt
  have hpos : c.pos = 8 * c.ptr + c.offset := rfl
  have hadvance := Cursor.advance_pos c 4
  have hraw : ∀ m, Cursor.pos { c.advance 4 with ptr := (c.advance 4).ptr + 2 * m } = c.pos + 4 + 16 * m := by
    intro m
    unfold Cursor.pos at hadvance ⊢
    dsimp only
    omega
  have hcode : (2 = 0 ∨ c.ptr + 2 ≤ input.length) ↔ c.pos / 8 + 2 ≤ input.length := by omega
  unfold blockChecked decompBlock diffsChecked
  rw [returns_load_bind, splitCode_field, hcode]
  by_cases hzero : field (msb (memory input)) c.pos 4 = 0
  · simp only [if_pos hzero, returns_pure, blockInside_zero hzero]
    constructor
    · rintro ⟨hload, rfl⟩
      exact ⟨⟨hload, hadvance⟩, rfl⟩
    · rintro ⟨⟨hload, -⟩, rfl⟩
      exact ⟨hload, rfl⟩
  · by_cases hhigh : maxEntropyBits ≤ field (msb (memory input)) c.pos 4
    · simp only [if_neg hzero, if_pos hhigh, returns_bind, returns_pure, blockInside_high hhigh]
      constructor
      · rintro ⟨hload, _, ⟨ds, hds, rfl⟩, rfl⟩
        obtain ⟨hinside, rfl⟩ := (uncopyChecked_iff hn (by omega)).1 hds
        rw [hadvance] at hinside
        exact ⟨⟨hload, hinside, hraw n⟩, rfl⟩
      · rintro ⟨⟨hload, hinside, -⟩, rfl⟩
        rw [← hadvance] at hinside
        exact ⟨hload, _, ⟨_, (uncopyChecked_iff hn (by omega)).2 ⟨hinside, rfl⟩, rfl⟩, rfl⟩
    · simp only [if_neg hzero, if_neg hhigh, returns_bind, returns_pure, blockInside_coded hzero hhigh]
      constructor
      · rintro ⟨hload, r', hr', rfl⟩
        obtain ⟨hcodes, rfl⟩ := (uncrunchChecked_iff hfuel).1 hr'
        rw [hadvance] at hcodes
        exact ⟨⟨hload, hcodes⟩, rfl⟩
      · rintro ⟨⟨hload, hcodes⟩, rfl⟩
        rw [← hadvance] at hcodes
        exact ⟨hload, _, (uncrunchChecked_iff hfuel).2 ⟨hcodes, rfl⟩, rfl⟩

theorem uncrunchBlock_length {y : Buf} {split : ℕ} : ∀ {n : ℕ} {c : Cursor},
    (uncrunchBlock y fuel split n c).1.length = n
  | 0, _ => rfl
  | n + 1, c => by rw [uncrunchBlock, List.length_cons, uncrunchBlock_length]

/-- A block has as many samples as are wanted. -/
theorem decompBlock_length {y : Buf} (hn : n ≤ blockSize) :
    (decompBlock y fuel blockSize n c lastValue).1.length = n := by
  unfold decompBlock
  dsimp only
  split_ifs
  · exact List.length_replicate
  · rw [undiff_length, uncopyBlock_spec hn, rawDiffs, List.length_map, List.length_range]
  · rw [undiff_length, List.take_of_length_le uncrunchBlock_length.le, uncrunchBlock_length]

/-! ## The whole stream -/

variable {outSize : ℕ} {out res : List (BitVec 16)}

theorem returns_store {vals : List (BitVec 16)} : Returns (store outSize out vals) res ↔
    out.length + vals.length ≤ outSize ∧ out ++ vals = res := by
  unfold store
  split_ifs with h
  · exact ⟨fun hres => ⟨h, returns_pure.1 hres⟩, fun hres => returns_pure.2 hres.2⟩
  · exact ⟨fun hres => absurd hres not_returns_throw, fun hres => absurd hres.1 h⟩

/-- **What is decoded** lies in the input, and is what the decoder without checks makes of it. -/
theorem blocksChecked_returns (hfuel : input.length ≤ fuel) : ∀ {k : ℕ} {c : Cursor} {lastValue : ℤ}
    {out : List (BitVec 16)}, Returns (blocksChecked input fuel outSize blockSize k c lastValue out) res →
      BlocksInside (msb (memory input)) input.length blockSize c.pos (outSize - out.length)
  | 0, _, _, _, h => absurd h not_returns_none
  | k + 1, c, lastValue, out, h => by
    have hj := c.offset_lt
    have hpos : c.pos = 8 * c.ptr + c.offset := rfl
    rw [blocksChecked] at h
    by_cases hgoing : c.ptr < input.length ∧ out.length < outSize
    · rw [if_pos hgoing] at h
      simp only [returns_bind, returns_store] at h
      obtain ⟨r, hr, _, ⟨-, rfl⟩, h⟩ := h
      have hn : min blockSize (outSize - out.length) ≤ blockSize := Nat.min_le_left _ _
      obtain ⟨hblock, rfl⟩ := (blockChecked_iff hn hfuel).1 hr
      have hrest := blocksChecked_returns hfuel h
      rw [List.length_append, decompBlock_length hn, ← Nat.sub_sub] at hrest
      exact .block hblock hrest
    · rcases Nat.lt_or_ge c.ptr input.length with hptr | hptr
      · rw [Nat.sub_eq_zero_of_le (by omega)]
        exact .full _
      · exact .ended (by omega)

theorem blocksChecked_exists {p left : ℕ}
    (h : BlocksInside (msb (memory input)) input.length blockSize p left) :
    ∀ {c : Cursor} {lastValue : ℤ} {out : List (BitVec 16)}, c.pos = p → outSize - out.length = left →
      out.length ≤ outSize → ∃ res m, ∀ fuel k, input.length ≤ fuel → m ≤ k →
        Returns (blocksChecked input fuel outSize blockSize k c lastValue out) res := by
  induction h with
  | @ended p left h =>
    rintro c lastValue out rfl - -
    have hj := c.offset_lt
    have hpos : c.pos = 8 * c.ptr + c.offset := rfl
    refine ⟨out, 1, fun fuel k _ hk => ?_⟩
    obtain ⟨k, rfl⟩ := Nat.exists_eq_add_of_le' hk
    rw [blocksChecked, if_neg (by omega), returns_pure]
  | full p =>
    rintro c lastValue out rfl hleft -
    refine ⟨out, 1, fun fuel k _ hk => ?_⟩
    obtain ⟨k, rfl⟩ := Nat.exists_eq_add_of_le' hk
    rw [blocksChecked, if_neg (by omega), returns_pure]
  | @block p q left block rest ih =>
    rintro c lastValue out rfl rfl hout
    have hj := c.offset_lt
    have hpos : c.pos = 8 * c.ptr + c.offset := rfl
    have hn : min blockSize (outSize - out.length) ≤ blockSize := Nat.min_le_left _ _
    set r := decompBlock (memory input) input.length blockSize (min blockSize (outSize - out.length)) c lastValue
      with hr
    have hlength : r.1.length = min blockSize (outSize - out.length) := decompBlock_length hn
    have hend : r.2.1.pos = q := block.end_eq
    by_cases hgoing : c.ptr < input.length ∧ out.length < outSize
    · obtain ⟨res, m, hres⟩ := @ih r.2.1 r.2.2 (out ++ r.1) hend
        (by rw [List.length_append, hlength, Nat.sub_sub]) (by rw [List.length_append]; omega)
      refine ⟨res, m + 1, fun fuel k hfuel hk => ?_⟩
      obtain ⟨k, rfl⟩ := Nat.exists_eq_add_of_le' (Nat.one_le_of_lt hk)
      rw [blocksChecked, if_pos hgoing]
      simp only [returns_bind, returns_store]
      rw [← hend] at block
      exact ⟨r, (blockChecked_iff hn hfuel).2 ⟨block, rfl⟩, _, ⟨by omega, rfl⟩, hres fuel k hfuel (by omega)⟩
    · refine ⟨out, 1, fun fuel k _ hk => ?_⟩
      obtain ⟨k, rfl⟩ := Nat.exists_eq_add_of_le' hk
      rw [blocksChecked, if_neg hgoing, returns_pure]

/-- The samples are those of the decoder without checks. -/
theorem blocksChecked_eq (hfuel : input.length ≤ fuel) (hblock : 0 < blockSize) : ∀ {k m : ℕ} {c : Cursor}
    {lastValue : ℤ} {out : List (BitVec 16)}, outSize - out.length ≤ m →
      Returns (blocksChecked input fuel outSize blockSize k c lastValue out) res →
        res = out ++ decompBlocks (memory input) input.length input.length blockSize m c lastValue
          (outSize - out.length)
  | 0, _, _, _, _, _, h => absurd h not_returns_none
  | k + 1, m, c, lastValue, out, hm, h => by
    rw [blocksChecked] at h
    by_cases hgoing : c.ptr < input.length ∧ out.length < outSize
    · obtain ⟨m, rfl⟩ := Nat.exists_eq_add_of_le' (by omega : 1 ≤ m)
      rw [if_pos hgoing] at h
      simp only [returns_bind, returns_store] at h
      obtain ⟨r, hr, _, ⟨hstore, rfl⟩, h⟩ := h
      have hn : min blockSize (outSize - out.length) ≤ blockSize := Nat.min_le_left _ _
      obtain ⟨-, rfl⟩ := (blockChecked_iff hn hfuel).1 hr
      have hlength := @decompBlock_length c input.length blockSize _ lastValue (memory input) hn
      have hrest := blocksChecked_eq (m := m) hfuel hblock (by rw [List.length_append]; omega) h
      rw [hrest, decompBlocks, if_pos ⟨hgoing.1, by omega⟩, List.append_assoc, List.length_append, hlength]
      dsimp only
      rw [Nat.sub_sub]
    · rw [if_neg hgoing] at h
      obtain rfl := returns_pure.1 h
      cases m with
      | zero => rw [decompBlocks, List.append_nil]
      | succ m => rw [decompBlocks, if_neg (by omega), List.append_nil]

/-- **A decoding that is safe** gives the samples of the decoder without checks. -/
theorem decompChecked_eq {allocates : ℕ → Bool} (hfuel : input.length ≤ fuel) (hblock : 0 < blockSize)
    (h : Returns (decompChecked input allocates outSize blockSize fuel) (0, some res)) :
    res = riceDecomp16 input.length (memory input) input.length outSize blockSize := by
  unfold decompChecked at h
  split_ifs at h
  · rw [returns_load_bind] at h
    simp only [returns_bind, returns_pure] at h
    obtain ⟨-, out, hout, heq⟩ := h
    obtain rfl := Option.some.inj (congrArg Prod.snd heq)
    have hdecomp := blocksChecked_eq hfuel hblock (le_refl outSize) hout
    rw [List.nil_append, List.length_nil, Nat.sub_zero] at hdecomp
    rw [riceDecomp16, ← hdecomp]
  · cases returns_pure.1 h

end Blocks

/-- **Decoding is safe** exactly if there is no memory for a block, so that nothing is decoded, or every
block of the stream lies in the input. -/
theorem riceDecomp16_safe_iff (input : List (BitVec 8)) (hsize : 2 ≤ input.length) (allocates : ℕ → Bool)
    (outSize blockSize : ℕ) : Safe input allocates outSize blockSize ↔
      (allocates blockSize = true → BlocksInside (msb (memory input)) input.length blockSize 16 outSize) := by
  constructor
  · rintro ⟨r, m, hm⟩ halloc
    have hrun : Returns (decompChecked input allocates outSize blockSize (max m input.length)) r :=
      hm _ (Nat.le_max_left _ _)
    rw [decompChecked, if_pos halloc, returns_load_bind] at hrun
    simp only [returns_bind] at hrun
    obtain ⟨-, out, hout, -⟩ := hrun
    exact blocksChecked_returns (Nat.le_max_right _ _) hout
  · intro h
    by_cases halloc : allocates blockSize = true
    · obtain ⟨res, m, hres⟩ := @blocksChecked_exists input blockSize outSize _ _ (h halloc) ⟨2, 0, byte_aligned⟩
        (beLoad (memory input) 0 2) [] rfl rfl (Nat.zero_le _)
      refine ⟨(0, some (res ++ List.replicate (outSize - res.length) 0)), max m input.length, fun fuel hfuel => ?_⟩
      show Returns (decompChecked input allocates outSize blockSize fuel) _
      rw [decompChecked, if_pos halloc, returns_load_bind]
      simp only [returns_bind, returns_pure]
      exact ⟨.inr hsize, res, hres fuel fuel ((Nat.le_max_right _ _).trans hfuel)
        ((Nat.le_max_left _ _).trans hfuel), rfl⟩
    · refine ⟨(-1, none), 0, fun fuel _ => ?_⟩
      show Returns (decompChecked input allocates outSize blockSize fuel) _
      rw [decompChecked, if_neg halloc, returns_pure]

/-- Two equal samples, with a byte to spare behind the code of their block. -/
theorem riceDecomp16_spare_byte : 2 ≤ [0#8, 5#8, 0#8, 0#8].length ∧
    Safe [0, 5, 0, 0] (fun _ => true) 2 2 := by
  refine ⟨by decide, (riceDecomp16_safe_iff [0, 5, 0, 0] (by decide) (fun _ => true) 2 2).2 fun _ => ?_⟩
  exact .block (.same (by decide) (by decide)) (.full 20)

/-- The same two samples as the encoder writes them: the split code of their block is in the last byte, and
the byte behind it is read. -/
theorem riceDecomp16_reads_beyond :
    (riceComp16 preprocessSplit [5, 5] 2).size = 3 ∧ ¬Safe [0, 5, 0] (fun _ => true) 2 2 := by
  refine ⟨by decide, ?_⟩
  rintro ⟨r, m, hm⟩
  have hrun : Returns (decompChecked [0, 5, 0] (fun _ => true) 2 2 (max m 3)) r := hm _ (Nat.le_max_left _ _)
  rw [decompChecked, if_pos rfl, returns_load_bind] at hrun
  simp only [returns_bind] at hrun
  obtain ⟨-, out, hout, -⟩ := hrun
  have hinside := blocksChecked_returns (Nat.le_max_right m 3) hout
  cases hinside with
  | ended h => exact absurd h (by decide)
  | block h _ => exact absurd h.code (by decide)

end Redux.Rice
