import Redux.Lib.BigEndian

/-!
# Util.RiceCode — the 16-bit Rice codec

`rice_comp16` writes the first sample, then block by block the sample-to-sample differences: a
four-bit split code, followed by nothing (all samples equal), by the raw differences (split 14) or by
Golomb–Rice codes.  `rice_decomp16` reads them back.  The split is chosen in floating point and by a
function dispatched on the CPU, so it is a parameter here (`Picks` is what all versions share).
-/

namespace Redux.Rice

open Redux.Lib

/-- Most entropy bits allowed; also the split of a block stored without compression. -/
def maxEntropyBits : ℕ := 14

/-! ## Differences and the choice of the split -/

/-- `(tmp<0) ? ~(tmp<<1) : (tmp<<1)`. -/
def zigzag (tmp : ℤ) : ℕ := if tmp < 0 then (-(2 * tmp) - 1).toNat else (2 * tmp).toNat

/-- The differences `preprocess_block` stores; the subtraction is in 16 bits. -/
def preprocessDiff (refValue : BitVec 16) : List (BitVec 16) → List ℕ
  | [] => []
  | b :: bs => zigzag (b - refValue).toInt :: preprocessDiff b bs

/-- `for(; psum>0; ++i) psum >>= 1;` in `n` passes at most. -/
def countShifts : ℕ → ℕ → ℕ
  | 0, _ => 0
  | n + 1, psum => if 0 < psum then countShifts n (psum >>> 1) + 1 else 0

/-- The split `preprocess_block` returns, in exact arithmetic. -/
def preprocessSplit (diff : List ℕ) : ℤ :=
  if diff.sum = 0 then -1
  else if diff.sum < diff.length / 2 + 1 then 0
  else countShifts 16 (((diff.sum - diff.length / 2 - 1) / diff.length) >>> 1)

/-- What every version of `preprocess_block` promises about the split it picks. -/
structure Picks (pick : List ℕ → ℤ) : Prop where
  neg_one_iff : ∀ diff, pick diff = -1 ↔ ∀ d ∈ diff, d = 0
  neg_one_le : ∀ diff, -1 ≤ pick diff

theorem preprocessSplit_picks : Picks preprocessSplit := by
  constructor
  · intro diff
    rw [← List.sum_eq_zero_iff_forall_eq_nat]
    unfold preprocessSplit
    split_ifs with h₁ h₂ <;> simp [h₁]
  · intro diff
    unfold preprocessSplit
    generalize countShifts _ _ = k
    split_ifs <;> omega

/-! ## The place in the stream -/

/-- A byte pointer with the bit offset in that byte. -/
structure Cursor where
  ptr : ℕ
  offset : ℕ
  offset_lt : offset < 8

namespace Cursor

/-- The position in bits. -/
def pos (c : Cursor) : ℕ := 8 * c.ptr + c.offset

/-- `offset += n; ptr += offset>>3; offset &= 7`. -/
def advance (c : Cursor) (n : ℕ) : Cursor :=
  ⟨c.ptr + (c.offset + n) / 8, (c.offset + n) % 8, Nat.mod_lt _ (by decide)⟩

@[simp] theorem advance_pos (c : Cursor) (n : ℕ) : (c.advance n).pos = c.pos + n := by
  unfold pos advance
  dsimp only
  omega

theorem pos_mod (c : Cursor) : c.pos % 8 = c.offset := by
  have h := c.offset_lt
  unfold pos
  omega

end Cursor

/-! ## The encoder -/

/-- `split_map_4`: the split code shifted to each offset, bytes swapped for a little-endian OR. -/
def splitMap4 : List (List ℕ) := [
  [0x10, 0x8, 0x4, 0x2, 0x1, 0x8000, 0x4000, 0x2000, 0x1000],
  [0x20, 0x10, 0x8, 0x4, 0x2, 0x1, 0x8000, 0x4000, 0x2000],
  [0x30, 0x18, 0xC, 0x6, 0x3, 0x8001, 0xC000, 0x6000, 0x3000],
  [0x40, 0x20, 0x10, 0x8, 0x4, 0x2, 0x1, 0x8000, 0x4000],
  [0x50, 0x28, 0x14, 0xA, 0x5, 0x8002, 0x4001, 0xA000, 0x5000],
  [0x60, 0x30, 0x18, 0xC, 0x6, 0x3, 0x8001, 0xC000, 0x6000],
  [0x70, 0x38, 0x1C, 0xE, 0x7, 0x8003, 0xC001, 0xE000, 0x7000],
  [0x80, 0x40, 0x20, 0x10, 0x8, 0x4, 0x2, 0x1, 0x8000],
  [0x90, 0x48, 0x24, 0x12, 0x9, 0x8004, 0x4002, 0x2001, 0x9000],
  [0xA0, 0x50, 0x28, 0x14, 0xA, 0x5, 0x8002, 0x4001, 0xA000],
  [0xB0, 0x58, 0x2C, 0x16, 0xB, 0x8005, 0xC002, 0x6001, 0xB000],
  [0xC0, 0x60, 0x30, 0x18, 0xC, 0x6, 0x3, 0x8001, 0xC000],
  [0xD0, 0x68, 0x34, 0x1A, 0xD, 0x8006, 0x4003, 0xA001, 0xD000],
  [0xE0, 0x70, 0x38, 0x1C, 0xE, 0x7, 0x8003, 0xC001, 0xE000],
  [0xF0, 0x78, 0x3C, 0x1E, 0xF, 0x8007, 0xC003, 0xE001, 0xF000],
  [0xF0, 0x78, 0x3C, 0x1E, 0xF, 0x8007, 0xC003, 0xE001, 0xF000]]

/-- The output buffer and the place reached in it. -/
structure Out where
  x : Buf
  cur : Cursor

/-- `*reinterpret_cast<uint16_t*>(outPtr) |= split_map_4[split][offset]; offset += 4; …`. -/
def storeSplit (o : Out) (split : ℕ) : Out :=
  let entry := (splitMap4.getD split []).getD o.cur.offset 0
  ⟨orByte (orByte o.x o.cur.ptr (byteOf entry 0)) (o.cur.ptr + 1) (byteOf entry 1), o.cur.advance 4⟩

/-- The Golomb–Rice codes of a block.  The unary one goes in with the `split` entropy bits; only two
of the bytes are written. -/
def crunchBlock (split : ℕ) : Out → List ℕ → Out
  | o, [] => o
  | o, d :: block =>
    let unary1 := 1 <<< split
    let fsmask := unary1 - 1
    let c := o.cur.advance (d >>> split)
    let tmp2 := ((d &&& fsmask) ||| unary1) <<< (31 - split - c.offset)
    crunchBlock split ⟨orBytes o.x c.ptr tmp2 3 2, c.advance (split + 1)⟩ block

/-- The differences of a block as they are, 16 bits each. -/
def copyBlock : Out → List ℕ → Out
  | o, [] => o
  | o, d :: block =>
    let tmp4 := d <<< (8 - o.cur.offset)
    copyBlock ⟨orBytes o.x o.cur.ptr tmp4 2 3, { o.cur with ptr := o.cur.ptr + 2 }⟩ block

/-- One block of `rice_comp16`, once its split is known. -/
def compBlock (split : ℤ) (diff : List ℕ) (o : Out) : Out :=
  if maxEntropyBits ≤ split then copyBlock (storeSplit o maxEntropyBits) diff
  else if split = -1 then ⟨o.x, o.cur.advance 4⟩
  else crunchBlock split.toNat (storeSplit o split.toNat) diff

/-- The block loop of `rice_comp16`, in `n` passes at most. -/
def compBlocks (pick : List ℕ → ℤ) (blockSize : ℕ) : ℕ → Out → BitVec 16 → List (BitVec 16) → Out
  | 0, o, _, _ => o
  | n + 1, o, refValue, samples =>
    if samples = [] then o
    else
      let block := samples.take blockSize
      let diff := preprocessDiff refValue block
      compBlocks pick blockSize n (compBlock (pick diff) diff o) (block.getLastD refValue)
        (samples.drop blockSize)

/-- `rice_comp16` on a zeroed buffer. -/
def riceComp16 (pick : List ℕ → ℤ) (samples : List (BitVec 16)) (blockSize : ℕ) : Out :=
  let refValue := samples.headD 0
  compBlocks pick blockSize samples.length
    ⟨put (put (fun _ => 0) 0 (byteOf refValue.toNat 1)) 1 (byteOf refValue.toNat 0), ⟨2, 0, by decide⟩⟩
    refValue samples

/-- The bytes written, `outPtr-out+(offset>0)`. -/
def Out.size (o : Out) : ℕ := o.cur.ptr + if 0 < o.cur.offset then 1 else 0

/-! ## The decoder -/

/-- `nLeadingZeroes`, one entry a byte value. -/
def nLeadingZeroes : List ℕ :=
  [8, 7, 6, 6] ++ List.replicate 4 5 ++ List.replicate 8 4 ++ List.replicate 16 3 ++
    List.replicate 32 2 ++ List.replicate 64 1 ++ List.replicate 128 0

/-- `while( !val ) { leadingZeroes += 8; val = *(inPtr + ++cnt); }`: the zeros of whole bytes and the
first byte that is not zero. -/
def scanUnary (y : Buf) : ℕ → ℕ → ℕ → ℕ → ℕ × ℕ
  | 0, _, leadingZeroes, val => (leadingZeroes, val)
  | n + 1, i, leadingZeroes, val =>
    if val = 0 then scanUnary y n (i + 1) (leadingZeroes + 8) (y (i + 1)).toNat
    else (leadingZeroes, val)

/-- The zeros before the next one. -/
def leadingZeroes (y : Buf) (fuel : ℕ) (c : Cursor) : ℕ :=
  let r := scanUnary y fuel c.ptr 0 ((y c.ptr).toNat &&& (0xFF >>> c.offset))
  r.1 + nLeadingZeroes.getD r.2 0 - c.offset

/-- The `split` entropy bits: as many bytes as hold them, shifted down and masked. -/
def entropyBits (y : Buf) (split : ℕ) (c : Cursor) : ℕ :=
  let splitMask := 1 <<< split - 1
  let lastBit : ℤ := c.offset + split - 1
  let nBytes : ℤ := 1 + lastBit / 8
  let rshift := 8 * nBytes - lastBit - 1
  ((beLoad y c.ptr nBytes.toNat >>> rshift.toNat) % 2 ^ 16) &&& splitMask

/-- The differences of a Golomb–Rice block of `n` samples. -/
def uncrunchBlock (y : Buf) (fuel split : ℕ) : ℕ → Cursor → List ℕ × Cursor
  | 0, c => ([], c)
  | n + 1, c =>
    let zeroes := leadingZeroes y fuel c
    let c₁ := c.advance (zeroes + 1)
    let r := uncrunchBlock y fuel split n (c₁.advance split)
    ((zeroes <<< split ||| entropyBits y split c₁) :: r.1, r.2)

/-- The raw differences at an offset, up to three of them with each load, in `n` passes at most; `w`
of the block are read, and `ptr` moves two bytes with each.  The last load may go beyond
`thisBlockSize`, not beyond `blockSize`. -/
def copyGroups (y : Buf) (c : Cursor) (blockSize thisBlockSize : ℕ) : ℕ → ℕ → List ℕ
  | 0, _ => []
  | n + 1, w =>
    if w < thisBlockSize ∧ w < blockSize then
      let nVals := min 3 (blockSize - w)
      let tmpU := beLoad y (c.ptr + 2 * w) (2 * nVals + 1) >>> (8 - c.offset)
      (List.range nVals).map (fun k => (tmpU >>> (16 * (nVals - 1 - k))) % 2 ^ 16) ++
        copyGroups y c blockSize thisBlockSize n (w + nVals)
    else []

/-- The raw differences of a block. -/
def uncopyBlock (y : Buf) (blockSize thisBlockSize : ℕ) (c : Cursor) : List ℕ :=
  if c.offset ≠ 0 then copyGroups y c blockSize thisBlockSize thisBlockSize 0
  else (List.range thisBlockSize).map fun j => beLoad y (c.ptr + 2 * j) 2

/-- `( d & 1 ) ? ~(d>>1) : d>>1`. -/
def unzigzag (d : ℕ) : ℤ := if d % 2 = 1 then -(d / 2 : ℕ) - 1 else (d / 2 : ℕ)

/-- `*outPtr = lastValue + d; lastValue = *outPtr++;` for every difference. -/
def undiff : ℤ → List ℕ → List (BitVec 16)
  | _, [] => []
  | lastValue, d :: diff =>
    let out := BitVec.ofInt 16 (lastValue + unzigzag d)
    out :: undiff out.toInt diff

/-- One block of `rice_decomp16`: the samples, the place behind them, the last value. -/
def decompBlock (y : Buf) (fuel blockSize thisBlockSize : ℕ) (c : Cursor) (lastValue : ℤ) :
    List (BitVec 16) × Cursor × ℤ :=
  let split := (beLoad y c.ptr 2 >>> (12 - c.offset)) % 16
  let c₁ := c.advance 4
  if split = 0 then (List.replicate thisBlockSize (BitVec.ofInt 16 lastValue), c₁, lastValue)
  else
    let r := if maxEntropyBits ≤ split then
        (uncopyBlock y blockSize thisBlockSize c₁, { c₁ with ptr := c₁.ptr + 2 * thisBlockSize })
      else uncrunchBlock y fuel (split - 1) thisBlockSize c₁
    let out := undiff lastValue (r.1.take thisBlockSize)
    (out, r.2, (out.getLast?.map BitVec.toInt).getD lastValue)

/-- The block loop of `rice_decomp16` with `left` samples to go, in `n` passes at most. -/
def decompBlocks (y : Buf) (fuel inSize blockSize : ℕ) : ℕ → Cursor → ℤ → ℕ → List (BitVec 16)
  | 0, _, _, _ => []
  | n + 1, c, lastValue, left =>
    if c.ptr < inSize ∧ 0 < left then
      let thisBlockSize := min blockSize left
      let r := decompBlock y fuel blockSize thisBlockSize c lastValue
      r.1 ++ decompBlocks y fuel inSize blockSize n r.2.1 r.2.2 (left - thisBlockSize)
    else []

/-- `rice_decomp16`: the samples in `out`, the ones never reached zero.  `fuel` bounds the bytes a
unary code is looked for in. -/
def riceDecomp16 (fuel : ℕ) (y : Buf) (inSize outSize blockSize : ℕ) : List (BitVec 16) :=
  let out := decompBlocks y fuel inSize blockSize outSize ⟨2, 0, by decide⟩ (beLoad y 0 2) outSize
  out ++ List.replicate (outSize - out.length) 0

end Redux.Rice
