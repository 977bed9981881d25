import Redux.File.AnaPlain

/-!
# File.AnaRun — the ANA codecs with run lengths

`anacrunchrun8`, `anacrunchrun` and their decoders.  A block is its first sample and then, byte
aligned, runs of one difference (a count byte from 128 on and two bytes of difference) and literal
stretches (a count byte up to 127, the differences in Rice code, zeros up to the next byte).  The
count byte of a stretch is reserved in front of it and filled in behind it; a block that ends
without a stretch but with a byte reserved, which only a block of one sample does, leaves it unset.
-/

namespace Redux.Ana

open Redux.Lib

/-! ## The codecs -/

/-- Bytes stored for the fixed portion: `nb`, but at least the first one. -/
def runBytes (slice : ℕ) : ℕ := if nb slice > 1 then (if nb slice > 2 then 3 else 2) else 1

theorem runBytes_fits (slice j : ℕ) (h1 : 1 ≤ slice) (hw : slice < 16) (hj : j < 8) :
    1 ≤ runBytes slice ∧ j + slice ≤ 8 * runBytes slice := by
  unfold runBytes nb
  split_ifs <;> omega

theorem runLoad_fits (slice j : ℕ) (h1 : 1 ≤ slice) (hw : slice < 16) (hj : j < 8) :
    j + slice ≤ 8 * max 1 (nb slice) := by
  unfold nb
  split_ifs <;> omega

theorem runBytes8_fits (slice j : ℕ) (h1 : 1 ≤ slice) (hw : slice < 8) (hj : j < 8) :
    1 ≤ runBytes slice ∧ j + slice ≤ 8 * runBytes slice :=
  runBytes_fits slice j h1 (hw.trans (by decide)) hj

theorem runLoad8_fits (slice j : ℕ) (h1 : 1 ≤ slice) (hw : slice < 8) (hj : j < 8) :
    j + slice ≤ 8 * max 1 (nb slice) :=
  runLoad_fits slice j h1 (hw.trans (by decide)) hj

theorem width8_bytes : 8 * (8 / 8) = 8 := rfl

theorem width16_bytes : 8 * (16 / 8) = 16 := rfl

theorem ofInt_val8 (a : BitVec 8) : BitVec.ofInt 8 a.toNat = a := ana8.ofInt_val a

theorem ofInt_val16 (a : BitVec 16) : BitVec.ofInt 16 a.toInt = a := ana16.ofInt_val a

theorem val8_sub_lt (a b : BitVec 8) : (a.toNat : ℤ) - b.toNat < 2 ^ 8 := ana8.val_sub_lt a b

theorem val16_sub_lt (a b : BitVec 16) : a.toInt - b.toInt < 2 ^ 16 := ana16.val_sub_lt a b

theorem esc8_fits (j : ℕ) (hj : j < 8) : 1 ≤ 2 ∧ j + (8 + 1) ≤ 8 * 2 := ana8.esc_fits j hj

theorem esc16_fits (j : ℕ) (hj : j < 8) : 1 ≤ 3 ∧ j + (16 + 1) ≤ 8 * 3 := ana16.esc_fits j hj

def anaRun8 : Codec where
  width := 8
  val a := a.toNat
  fixedBytes slice _ := runBytes slice
  loadBytes slice := max 1 (nb slice)
  escBytes := 2
  width_bytes := width8_bytes
  ofInt_val := ofInt_val8
  val_sub_lt := val8_sub_lt
  fixed_fits := runBytes8_fits
  load_fits := runLoad8_fits
  esc_fits := esc8_fits

def anaRun16 : Codec where
  width := 16
  val a := a.toInt
  fixedBytes slice _ := runBytes slice
  loadBytes slice := max 1 (nb slice)
  escBytes := 3
  width_bytes := width16_bytes
  ofInt_val := ofInt_val16
  val_sub_lt := val16_sub_lt
  fixed_fits := runBytes_fits
  load_fits := runLoad_fits
  esc_fits := esc16_fits

/-! ## The encoder -/

/-- The buffer, its bits, the place `ic` of the count byte and the length `lrun` of the stretch. -/
structure Line where
  x : Buf
  outBits : ℕ
  ic : ℕ
  lrun : ℕ

/-- `while(nc-- > 2 && y.i == *dd) { nrun++; dd++; }`: returns `nrun`, `nc` and `dd`. -/
def countRun (dif : ℕ → ℤ) (y : ℤ) : ℕ → ℕ → ℕ → ℕ × ℕ × ℕ
  | 0, nrun, dd => (nrun, 0, dd)
  | nc + 1, nrun, dd =>
    if nc + 1 > 2 ∧ y = dif dd then countRun dif y nc (nrun + 1) (dd + 1) else (nrun, nc, dd)

/-- A count byte and the two low bytes of the difference. -/
def storeRun (x : Buf) (outBytes : ℕ) (b : BitVec 8) (y : ℤ) : Buf :=
  storeBytes (put x outBytes b) (outBytes + 1) (y % 2 ^ 32).toNat 0 2

/-- `while(nrun > 128)` and the last, or only, run; returns `outBytes` too. -/
def storeRuns (x : Buf) (outBytes : ℕ) (y : ℤ) (nrun : ℕ) : Buf × ℕ :=
  if nrun > 128 then
    -- beware the dreaded 129
    if nrun = 129 then storeRuns (storeRun x outBytes 0x82 y) (outBytes + 3) y (nrun - 127)
    else storeRuns (storeRun x outBytes 0x81 y) (outBytes + 3) y (nrun - 128)
  else (storeRun x outBytes (BitVec.ofInt 8 (-((nrun : ℤ) - 1))) y, outBytes + 3)
termination_by nrun

/-- Codes a run: a previous literal is closed, or its count byte is used for the run. -/
def codeRun (s : Line) (y : ℤ) (nrun : ℕ) : Buf × ℕ :=
  if s.lrun ≠ 0 then
    storeRuns (put s.x s.ic (BitVec.ofNat 8 s.lrun)) (u32 (s.outBits + 7) / 8) y nrun
  else storeRuns s.x s.ic y nrun

section Encoder

variable (c : Codec) (slice limit : ℕ)

/-- Codes one difference of a stretch; the 128th needs a new literal run count. -/
def codeLiteral (y : ℤ) (s : Line) : Option Line :=
  let s : Line :=
    if s.lrun + 1 > 127 then
      let ic := u32 (s.outBits + 7) / 8
      ⟨put s.x s.ic 127, u32 (8 * (ic + 1)), ic, 1⟩
    else { s with lrun := s.lrun + 1 }
  if s.outBits / 8 > limit then none
  else
    let o := crunchDiff c slice y ⟨s.x, s.outBits⟩
    some { s with x := o.x, outBits := o.outBits }

variable (dif : ℕ → ℤ)

/-- `while(1)`, with `nc` differences left from `dif[d]`; behind a run the next one is looked for
even if a single difference is left (`check`).  Each pass uses up a difference, so `nc + 1` passes
do.  Returns the buffer and `outBytes`. -/
def crunchLine : ℕ → Bool → ℕ → ℕ → Line → Option (Buf × ℕ)
  | 0, _, _, _, _ => none
  | fuel + 1, check, nc, d, s =>
    let y := dif d
    let literal (nc : ℕ) := do
      let s ← codeLiteral c slice limit y s
      crunchLine fuel false (nc - 1) (d + 1) s
    if check ∨ nc > 1 then
      if y = dif (d + 1) then
        let (nrun, nc, dd) := countRun dif y nc 2 (d + 2)
        if nrun ≥ 4 then
          let (x, outBytes) := codeRun s y nrun
          if nc - 1 = 0 then some (x, outBytes)    -- ended_on_run
          else crunchLine fuel true (nc - 1) dd ⟨x, u32 (8 * (outBytes + 1)), outBytes, 0⟩
        else literal (nc + nrun - 1)
      else literal nc
    else if nc = 0 then
      -- a final literal ?
      let x := if s.lrun ≠ 0 then put s.x s.ic (BitVec.ofNat 8 s.lrun) else s.x
      some (x, u32 (s.outBits + 7) / 8)
    else literal nc

variable (nx : ℕ) (array : ℕ → BitVec c.width) (junk : ℕ → ℤ)

/-- The line buffer: `nx - 1` first differences; what is behind them was there before. -/
def lineBuffer (inIndex k : ℕ) : ℤ :=
  if k + 1 < nx then c.val (array (inIndex + k + 1)) - c.val (array (inIndex + k)) else junk k

/-- The outer loop: `n` more blocks, the next one from `inIndex`. -/
def crunchLines : ℕ → ℕ → ℕ → Out → Option (ℕ × Out)
  | 0, _, outBytes, s => some (outBytes, s)
  | n + 1, inIndex, outBytes, s => do
    let x := storeBytes s.x outBytes (array inIndex).toNat 0 (c.width / 8)
    let outBits := u32 (u32 (s.outBits + c.width) + 8)
    let (x, outBytes) ← crunchLine c slice limit (lineBuffer c nx array junk inIndex) nx false (nx - 1)
      0 ⟨x, outBits, outBytes + c.width / 8, 0⟩
    crunchLines n (inIndex + nx) outBytes ⟨x, u32 (8 * outBytes)⟩

/-- The compression routine; `none` is the return value `-1`. -/
def crunchrun (type : ℕ) (x : Buf) (ny : ℕ) : Option Compressed :=
  if limit < 25 then none
  else do
    let (outBytes, s) ← crunchLines c slice (limit - 24) nx array junk ny 0 0 ⟨x, 0⟩
    return ⟨u32 (outBytes + 14), ny, nx, slice, type, s.x⟩

end Encoder

/-- `junk` is what `malloc` returned for the line buffer. -/
def anacrunchrun8 (x : Buf) (array : ℕ → BitVec 8) (slice nx ny limit : ℕ) (junk : ℕ → ℤ) :
    Option Compressed :=
  crunchrun anaRun8 slice limit nx array junk 3 x ny

def anacrunchrun (x : Buf) (array : ℕ → BitVec 16) (slice nx ny limit : ℕ) (junk : ℕ → ℤ) :
    Option Compressed :=
  crunchrun anaRun16 slice limit nx array junk 2 x ny

/-! ## The decoder -/

/-- `while(n--) { array[in] = array[in-1] + y.w; in++; }` -/
def repeatDiff {w : ℕ} (yw : BitVec w) : ℕ → In w → In w
  | 0, d => d
  | n + 1, d => repeatDiff yw n
      { d with array := Function.update d.array d.pos (d.array (d.pos - 1) + yw), pos := d.pos + 1 }

section Decoder

variable (c : Codec) (slice nx : ℕ) (x : Buf)

/-- `while(nc > 0)`, at byte `i`; returns `nc` and `i` too.  A literal of length 0 leaves `nc` as it
is, so the number of passes is bounded from outside. -/
def decrunchTokens : ℕ → ℤ → ℤ → In c.width → Option (ℤ × In c.width)
  | 0, nc, _, d => if nc > 0 then none else some (nc, d)
  | fuel + 1, nc, i, d =>
    if nc > 0 then
      if i < 0 then none
      else
        let nrun := (x i.toNat).toNat
        let i := i + 1
        if nrun > 127 then
          -- a run of a constant difference
          let n := 255 - nrun + 2
          let y := load x i.toNat d.y 2
          let i := i + 2
          let d := repeatDiff (BitVec.ofInt c.width (BitVec.ofNat 16 y).toInt) n d
          decrunchTokens fuel (nc - n) i
            { d with iq := d.array (d.pos - 1), y := y, r1 := int32 (8 * i) }
        else do
          -- a literal
          let d ← decrunchRow c slice x nrun { d with r1 := int32 (8 * i) }
          let i := (int32 (d.r1 + 7)).tdiv 8
          decrunchTokens fuel (nc - nrun) i { d with r1 := int32 (8 * i) }
    else some (nc, d)

/-- The outer loop: `n` more blocks, the next one at byte `i`. -/
def decrunchLines (fuel : ℕ) : ℕ → ℤ → In c.width → Option (In c.width)
  | 0, _, d => some d
  | n + 1, i, d =>
    if i < 0 then none
    else do
      -- get the first value; both routines count it with 16 bits
      let iq := BitVec.ofNat c.width (load x i.toNat 0 (c.width / 8))
      let (nc, d) ← decrunchTokens c slice x fuel ((nx : ℤ) - 1) (i + (c.width / 8 : ℕ))
        (d.emit iq d.y (int32 (d.r1 + 16)))
      -- bad loop
      if nc < 0 then none
      else
        let i := (int32 (d.r1 + 7)).tdiv 8
        decrunchLines fuel n i { d with r1 := int32 (8 * i) }

def decrunchrun (array : ℕ → BitVec c.width) (fuel ny : ℕ) : Option (ℕ → BitVec c.width) :=
  (decrunchLines c slice nx x fuel ny 0 ⟨array, 0, 0, 0, 0⟩).map In.array

end Decoder

/-- `fuel` bounds the passes through `while(nc > 0)` in a block. -/
def anadecrunchrun8 (x : Buf) (array : ℕ → BitVec 8) (slice nx ny fuel : ℕ) :
    Option (ℕ → BitVec 8) :=
  decrunchrun anaRun8 slice nx x array fuel ny

def anadecrunchrun (x : Buf) (array : ℕ → BitVec 16) (slice nx ny fuel : ℕ) :
    Option (ℕ → BitVec 16) :=
  decrunchrun anaRun16 slice nx x array fuel ny

end Redux.Ana
