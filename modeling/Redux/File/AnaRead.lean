import Redux.File.AnaRun

/-!
# File.AnaRead — what a compressed ANA file makes the decoders write

`Ana::readCompressed` compares the two headers and picks a decoder; the decoders write one element
after the other and know nothing of the size of the image.  No read of theirs is bounded either: behind
a short stream, or with a bit pointer that has wrapped around, they find what lies there, so what they
find is a parameter here (`Found`).  `writes` is how far they get with it, `maxWrites` how far they can
get at most, and a plain decoder run on a buffer never gets further (`decrunch_stop_le`).
-/

namespace Redux.Ana

open Redux.Lib

/-! ## The headers -/

/-- `typeSizes[]`. -/
def typeSizes : List ℕ := [1, 2, 4, 4, 8, 8, 0, 0, 16]

/-- `raw_header`: the data type and the dimensions. -/
structure RawHeader where
  datyp : BitVec 8
  dim : List (BitVec 32)
  deriving DecidableEq, Repr

/-- `compressed_header`, but for the size of the data. -/
structure CompressedHeader where
  nblocks : BitVec 32
  bsize : BitVec 32
  slice_size : BitVec 8
  type : BitVec 8
  deriving DecidableEq, Repr

/-- The product of the dimensions, a `size_t`. -/
def RawHeader.nElements (hdr : RawHeader) : ℕ :=
  hdr.dim.foldl (fun n d => n * d.toNat % 2 ^ 64) 1

/-- `nElements * typeSizes[datyp]`, the bytes of the image; there are no types behind the table. -/
def RawHeader.dataSize (hdr : RawHeader) : ℕ := hdr.nElements * typeSizes.getD hdr.datyp.toNat 0

/-- The five decoders. -/
inductive Decoder where
  | decrunch
  | decrunch8
  | decrunchrun
  | decrunchrun8
  | decrunch32
  deriving DecidableEq, Repr

namespace Decoder

/-- The bytes of an element of the array. -/
def elementSize : Decoder → ℕ
  | decrunch => 2
  | decrunch8 => 1
  | decrunchrun => 2
  | decrunchrun8 => 1
  | decrunch32 => 4

/-- It decodes run lengths. -/
def hasRuns : Decoder → Bool
  | decrunchrun => true
  | decrunchrun8 => true
  | _ => false

end Decoder

/-- A call of a decoder: `nx` and `ny` are `int`. -/
structure Call where
  decoder : Decoder
  slice : ℕ
  nx : ℤ
  ny : ℤ
  deriving DecidableEq, Repr

/-- The number of blocks, with a possible problem with `chdr.nblocks` fixed; the product is a
`uint32_t`. -/
def nBlocks (hdr : RawHeader) (chdr : CompressedHeader) : BitVec 32 :=
  if (chdr.bsize * chdr.nblocks).toNat > hdr.nElements then
    BitVec.ofNat 32 (hdr.nElements / chdr.bsize.toNat)
  else chdr.nblocks

/-- `switch( hdr->m_CompressedHeader.type )`. -/
def decoderOf (type : BitVec 8) : Option Decoder :=
  match type.toNat with
  | 0 => some .decrunch
  | 1 => some .decrunch8
  | 2 => some .decrunchrun
  | 3 => some .decrunchrun8
  | 4 => some .decrunch32
  | _ => none

/-- `readCompressed`: the decoder it calls, `none` where it throws. -/
def readCompressed (hdr : RawHeader) (chdr : CompressedHeader) : Option Call :=
  -- consistency check
  if chdr.type.toNat % 2 = hdr.datyp.toNat then none
  else (decoderOf chdr.type).map fun decoder =>
    ⟨decoder, chdr.slice_size.toNat, chdr.bsize.toInt, (nBlocks hdr chdr).toInt⟩

/-! ## What the decoders write -/

/-- What a decoder finds in the compressed data: whether there is a difference for an element, and the
run length codes of the blocks, as many as it asks for. -/
structure Found where
  diff : ℕ → Bool
  codes : List (List (BitVec 8))

section Writes

variable (diff : ℕ → Bool)

/-- `n` differences for the elements from `pos`: the next element, and whether all were found. -/
def writeDiffs : ℕ → ℕ → ℕ × Bool
  | 0, pos => (pos, true)
  | n + 1, pos => if diff pos then writeDiffs n (pos + 1) else (pos, false)

/-- `n` more blocks of the plain decoders, the next one from element `pos`. -/
def writeRows (nx : ℤ) : ℕ → ℕ → ℕ × Bool
  | 0, pos => (pos, true)
  | n + 1, pos =>
    match writeDiffs diff (nx - 1).toNat (pos + 1) with
    | (pos, true) => writeRows nx n pos
    | (pos, false) => (pos, false)

/-- `while(nc > 0)`: the next element, `nc`, and whether the loop was left in the regular way. -/
def writeTokens : List (BitVec 8) → ℤ → ℕ → ℕ × ℤ × Bool
  | [], nc, pos => (pos, nc, decide (nc ≤ 0))
  | code :: codes, nc, pos =>
    if nc > 0 then
      let nrun := code.toNat
      if nrun > 127 then
        -- a run of a constant difference
        let n := 255 - nrun + 2
        writeTokens codes (nc - n) (pos + n)
      else
        -- a literal
        match writeDiffs diff nrun pos with
        | (pos, true) => writeTokens codes (nc - nrun) pos
        | (pos, false) => (pos, nc - nrun, false)
    else (pos, nc, true)

/-- `n` more blocks of the decoders with run lengths, with the codes found in them. -/
def writeLines (nx : ℤ) : ℕ → List (List (BitVec 8)) → ℕ → ℕ × Bool
  | 0, _, pos => (pos, true)
  | n + 1, codes, pos =>
    match writeTokens diff (codes.headD []) (nx - 1) (pos + 1) with
    | (pos, nc, true) => if nc < 0 then (pos, false) else writeLines nx n codes.tail pos
    | (pos, _, false) => (pos, false)

end Writes

/-- The elements the decoder has written when it returns. -/
def Call.writes (call : Call) (f : Found) : ℕ :=
  if call.decoder.hasRuns then (writeLines f.diff call.nx call.ny.toNat f.codes 0).1
  else (writeRows f.diff call.nx call.ny.toNat 0).1

/-- All of them lie in the first `bytes` bytes of the array; the index `in` is an `int`. -/
def Call.inBounds (call : Call) (f : Found) (bytes : ℕ) : Prop :=
  ∀ k < call.writes f, 0 ≤ int32 k ∧ (int32 k + 1) * call.decoder.elementSize ≤ bytes

/-- The most elements a decoder can write: the last run of a block is not cut off at its end. -/
def maxWrites (decoder : Decoder) (nx ny : ℤ) : ℕ :=
  if decoder.hasRuns then
    if 1 < nx ∧ 0 < ny then ny.toNat * nx.toNat + 128
    else if nx = 1 then ny.toNat
    else min ny.toNat 1
  else ny.toNat * max nx.toNat 1

/-! ## Bounds -/

section Bounds

variable {diff : ℕ → Bool} {nx : ℤ} {n pos : ℕ}

theorem writeDiffs_le : ∀ {n pos : ℕ}, (writeDiffs diff n pos).1 ≤ pos + n
  | 0, pos => le_refl pos
  | n + 1, pos => by
    rw [writeDiffs]
    split_ifs
    · exact writeDiffs_le.trans (by omega)
    · exact Nat.le_add_right pos (n + 1)

theorem writeDiffs_done : ∀ {n pos : ℕ}, (writeDiffs diff n pos).2 = true → (writeDiffs diff n pos).1 = pos + n
  | 0, pos, _ => rfl
  | n + 1, pos, h => by
    rw [writeDiffs] at h ⊢
    split_ifs at h ⊢
    · rw [writeDiffs_done h]
      omega

theorem writeDiffs_all (hf : ∀ k, diff k = true) : ∀ {n pos : ℕ}, writeDiffs diff n pos = (pos + n, true)
  | 0, pos => rfl
  | n + 1, pos => by
    rw [writeDiffs, if_pos (hf pos), writeDiffs_all hf]
    congr 1
    omega

theorem max_toNat (nx : ℤ) : (nx - 1).toNat + 1 = max nx.toNat 1 := by omega

theorem writeRows_le : ∀ {n pos : ℕ}, (writeRows diff nx n pos).1 ≤ pos + n * max nx.toNat 1
  | 0, pos => Nat.le_add_right pos _
  | n + 1, pos => by
    have hle := @writeDiffs_le diff (nx - 1).toNat (pos + 1)
    have hmax := max_toNat nx
    rw [writeRows, Nat.succ_mul]
    split
    · rename_i pos' h
      rw [h] at hle
      have hrows := @writeRows_le n pos'
      simp only at hle
      omega
    · rename_i pos' h
      rw [h] at hle
      simp only at hle ⊢
      omega

theorem writeRows_all (hf : ∀ k, diff k = true) :
    ∀ {n pos : ℕ}, writeRows diff nx n pos = (pos + n * max nx.toNat 1, true)
  | 0, pos => by rw [writeRows, Nat.zero_mul, Nat.add_zero]
  | n + 1, pos => by
    have hmax := max_toNat nx
    rw [writeRows, writeDiffs_all hf]
    simp only
    rw [writeRows_all hf, Nat.succ_mul]
    congr 1
    omega

/-- The token loop: it gets past the end of the block by 128 elements at most, and where it is left in
the regular way it has written what `nc` has counted. -/
theorem writeTokens_spec : ∀ {codes : List (BitVec 8)} {nc : ℤ} {pos : ℕ},
    (0 < nc → (writeTokens diff codes nc pos).1 ≤ pos + nc.toNat + 128) ∧
    (nc ≤ 0 → writeTokens diff codes nc pos = (pos, nc, true)) ∧
    ((writeTokens diff codes nc pos).2.2 = true →
      ((writeTokens diff codes nc pos).1 : ℤ) = pos + nc - (writeTokens diff codes nc pos).2.1)
  | [], nc, pos => by
    refine ⟨fun _ => by simp only [writeTokens]; omega, fun h => ?_, fun _ => by simp only [writeTokens]; omega⟩
    rw [writeTokens, decide_eq_true h]
  | code :: codes, nc, pos => by
    have hcode := code.isLt
    by_cases hnc : nc > 0
    · rw [writeTokens, if_pos hnc]
      -- one token, and the loop from behind it
      have hnext {k : ℕ} (hk : k ≤ 129) :
          (writeTokens diff codes (nc - k) (pos + k)).1 ≤ pos + nc.toNat + 128 ∧
          ((writeTokens diff codes (nc - k) (pos + k)).2.2 = true →
            ((writeTokens diff codes (nc - k) (pos + k)).1 : ℤ) =
              pos + nc - (writeTokens diff codes (nc - k) (pos + k)).2.1) := by
        obtain ⟨hle, hend, hout⟩ := @writeTokens_spec codes (nc - k) (pos + k)
        refine ⟨?_, fun h => by rw [hout h]; omega⟩
        by_cases hpos : 0 < nc - k
        · have := hle hpos
          omega
        · rw [hend (by omega)]
          simp only
          omega
      refine ⟨fun _ => ?_, fun h => absurd h (by omega), ?_⟩
      all_goals by_cases hrun : code.toNat > 127
      all_goals simp only [hrun, if_true, if_false]
      · exact (hnext (by omega)).1
      · have hle := @writeDiffs_le diff code.toNat pos
        have hdone := @writeDiffs_done diff code.toNat pos
        split
        · rename_i pos' h
          rw [h] at hdone
          rw [show pos' = pos + code.toNat from hdone rfl]
          exact (hnext (by omega)).1
        · rename_i pos' h
          rw [h] at hle
          simp only at hle ⊢
          omega
      · exact (hnext (by omega)).2
      · have hdone := @writeDiffs_done diff code.toNat pos
        split
        · rename_i pos' h
          rw [h] at hdone
          rw [show pos' = pos + code.toNat from hdone rfl]
          exact (hnext (by omega)).2
        · exact fun h => absurd h Bool.false_ne_true
    · have heq : writeTokens diff (code :: codes) nc pos = (pos, nc, true) := by rw [writeTokens, if_neg hnc]
      rw [heq]
      exact ⟨fun h => absurd h hnc, fun _ => rfl, fun _ => by simp only; omega⟩

/-- Blocks of more than one element: only the last one that is begun may be overrun. -/
theorem writeLines_le (hnx : 1 < nx) :
    ∀ {n : ℕ} {codes : List (List (BitVec 8))} {pos : ℕ}, 0 < n →
      (writeLines diff nx n codes pos).1 ≤ pos + n * nx.toNat + 128
  | n + 1, codes, pos, _ => by
    obtain ⟨hle, -, hout⟩ := @writeTokens_spec diff (codes.headD []) (nx - 1) (pos + 1)
    rw [writeLines, Nat.succ_mul]
    split
    · rename_i pos' nc h
      rw [h] at hle hout
      simp only at hle hout
      have hpos := hout trivial
      split_ifs with hnc
      · simp only
        omega
      · cases n with
        | zero =>
          rw [writeLines]
          simp only
          omega
        | succ n =>
          have hlines := @writeLines_le hnx (n + 1) codes.tail pos' n.succ_pos
          omega
    · rename_i pos' nc h
      rw [h] at hle
      simp only at hle ⊢
      omega

/-- Blocks of one element have no tokens. -/
theorem writeLines_one : ∀ {n : ℕ} {codes : List (List (BitVec 8))} {pos : ℕ},
    writeLines diff 1 n codes pos = (pos + n, true)
  | 0, _, pos => rfl
  | n + 1, codes, pos => by
    rw [writeLines, writeTokens_spec.2.1 (by omega)]
    simp only [sub_self, lt_irrefl, if_false]
    rw [writeLines_one]
    congr 1
    omega

/-- Without room for an element the first block is the last one. -/
theorem writeLines_nonpos (hnx : nx < 1) {codes : List (List (BitVec 8))} :
    (writeLines diff nx n codes 0).1 = min n 1 := by
  cases n with
  | zero => rfl
  | succ n =>
    rw [writeLines, writeTokens_spec.2.1 (by omega)]
    simp only
    rw [if_pos (by omega)]
    simp only
    omega

/-- **A decoder writes `maxWrites` elements at most**, whatever it finds. -/
theorem Call.writes_le (call : Call) (f : Found) :
    call.writes f ≤ maxWrites call.decoder call.nx call.ny := by
  rw [Call.writes, maxWrites]
  split
  · split_ifs with h1 h2
    · have := @writeLines_le f.diff call.nx h1.1 call.ny.toNat f.codes 0 (by omega)
      omega
    · rw [h2, writeLines_one]
      simp only
      omega
    · by_cases hnx : call.nx < 1
      · rw [writeLines_nonpos hnx]
      · rw [show call.ny.toNat = 0 by omega]
        exact Nat.le_refl 0
  · have := @writeRows_le f.diff call.nx call.ny.toNat 0
    omega

end Bounds

/-! ## Getting that far -/

/-- All differences are there; a block is a literal at a time, but the last one ends in the longest run. -/
def worst (nx ny : ℕ) : Found where
  diff _ := true
  codes := List.replicate (ny - 1) (List.replicate (nx - 1) 1#8) ++ [List.replicate (nx - 2) 1#8 ++ [128#8]]

section Worst

variable {diff : ℕ → Bool}

theorem writeTokens_literals (hf : ∀ k, diff k = true) {codes : List (BitVec 8)} :
    ∀ {m pos : ℕ} {nc : ℤ}, (m : ℤ) ≤ nc →
      writeTokens diff (List.replicate m 1#8 ++ codes) nc pos = writeTokens diff codes (nc - m) (pos + m)
  | 0, pos, nc, _ => by simp
  | m + 1, pos, nc, h => by
    rw [List.replicate_succ, List.cons_append, writeTokens, if_pos (by omega)]
    simp only [show (1#8).toNat = 1 from rfl, show ¬1 > 127 by omega, if_false, writeDiffs_all hf]
    rw [writeTokens_literals hf (by omega)]
    congr 1 <;> omega

theorem writeLines_literals (hf : ∀ k, diff k = true) {nx : ℕ} (hnx : 1 < nx) {codes : List (List (BitVec 8))} :
    ∀ {m n pos : ℕ}, writeLines diff nx (n + m) (List.replicate m (List.replicate (nx - 1) 1#8) ++ codes) pos =
      writeLines diff nx n codes (pos + m * nx)
  | 0, n, pos => by simp
  | m + 1, n, pos => by
    rw [List.replicate_succ, List.cons_append, ← Nat.add_assoc, writeLines]
    simp only [List.headD_cons, List.tail_cons]
    rw [show List.replicate (nx - 1) 1#8 = List.replicate (nx - 1) 1#8 ++ [] by rw [List.append_nil],
      writeTokens_literals hf (by omega), writeTokens_spec.2.1 (by omega), List.append_nil]
    simp only
    rw [if_neg (by omega), writeLines_literals hf hnx, Nat.succ_mul]
    congr 1
    omega

/-- The last block: literals up to its last element, and 129 elements from there. -/
theorem writeLines_last (hf : ∀ k, diff k = true) {nx pos : ℕ} (hnx : 1 < nx) :
    (writeLines diff nx 1 [List.replicate (nx - 2) 1#8 ++ [128#8]] pos).1 = pos + nx + 128 := by
  rw [writeLines, List.headD_cons, writeTokens_literals hf (by omega), writeTokens, if_pos (by omega)]
  simp only [show (128#8).toNat = 128 from rfl, show 128 > 127 by omega, if_true]
  rw [writeTokens_spec.2.1 (by omega)]
  simp only
  rw [if_pos (by omega)]
  simp only
  omega

end Worst

/-- And with the right data it does write `maxWrites` elements. -/
theorem Call.writes_worst (call : Call) :
    call.writes (worst call.nx.toNat call.ny.toNat) = maxWrites call.decoder call.nx call.ny := by
  have hf : ∀ k, (worst call.nx.toNat call.ny.toNat).diff k = true := fun _ => rfl
  rw [Call.writes, maxWrites]
  split
  · split_ifs with h1 h2
    · have hnx : call.nx = (call.nx.toNat : ℤ) := by omega
      have hny : call.ny.toNat = 1 + (call.ny.toNat - 1) := by omega
      rw [hnx, Int.toNat_natCast]
      generalize call.nx.toNat = nx at *
      generalize call.ny.toNat = ny at *
      have hlines := @writeLines_literals (worst nx ny).diff hf nx (by omega)
        [List.replicate (nx - 2) 1#8 ++ [128#8]] (ny - 1) 1 0
      rw [← hny] at hlines
      have hcodes : (worst nx ny).codes = List.replicate (ny - 1) (List.replicate (nx - 1) 1#8) ++
        [List.replicate (nx - 2) 1#8 ++ [128#8]] := rfl
      rw [hcodes, hlines, writeLines_last hf (by omega), Nat.zero_add]
      obtain ⟨m, rfl⟩ : ∃ m, ny = m + 1 := ⟨ny - 1, by omega⟩
      rw [Nat.add_sub_cancel, Nat.succ_mul]
    · rw [h2, writeLines_one]
      simp only
      omega
    · by_cases hnx : call.nx < 1
      · rw [writeLines_nonpos hnx]
      · rw [show call.ny.toNat = 0 by omega]
        rfl
  · rw [writeRows_all hf]
    simp only
    omega

/-! ## The decoders on a buffer -/

section Stop

variable (c : Codec) (slice nx : ℕ) (x : Buf)

/-- `decrunchRow`: the variables where it stops, and whether it got through. -/
def stopRow : ℕ → In c.width → In c.width × Bool
  | 0, d => (d, true)
  | n + 1, d =>
    match decrunchDiff c slice x d with
    | some d => stopRow n d
    | none => (d, false)

/-- `decrunchRows`, the same way. -/
def stopRows : ℕ → ℤ → In c.width → In c.width × Bool
  | 0, _, d => (d, true)
  | n + 1, i, d =>
    if i < 0 then (d, false)
    else
      let iq := BitVec.ofNat c.width (load x i.toNat 0 (c.width / 8))
      match stopRow c slice x (nx - 1) (d.emit iq d.y (int32 (d.r1 + c.width))) with
      | (d, true) =>
        let i := (int32 (d.r1 + 7)).tdiv 8
        stopRows n i { d with r1 := int32 (8 * i) }
      | (d, false) => (d, false)

/-- `decrunchTokens`, the same way. -/
def stopTokens : ℕ → ℤ → ℤ → In c.width → (ℤ × In c.width) × Bool
  | 0, nc, _, d => ((nc, d), decide (nc ≤ 0))
  | fuel + 1, nc, i, d =>
    if nc > 0 then
      if i < 0 then ((nc, d), false)
      else
        let nrun := (x i.toNat).toNat
        let i := i + 1
        if nrun > 127 then
          let n := 255 - nrun + 2
          let y := load x i.toNat d.y 2
          let i := i + 2
          let d := repeatDiff (BitVec.ofInt c.width (BitVec.ofNat 16 y).toInt) n d
          stopTokens fuel (nc - n) i
            { d with iq := d.array (d.pos - 1), y := y, r1 := int32 (8 * i) }
        else
          match stopRow c slice x nrun { d with r1 := int32 (8 * i) } with
          | (d, true) =>
            let i := (int32 (d.r1 + 7)).tdiv 8
            stopTokens fuel (nc - nrun) i { d with r1 := int32 (8 * i) }
          | (d, false) => ((nc - nrun, d), false)
    else ((nc, d), true)

/-- `decrunchLines`, the same way. -/
def stopLines (fuel : ℕ) : ℕ → ℤ → In c.width → In c.width × Bool
  | 0, _, d => (d, true)
  | n + 1, i, d =>
    if i < 0 then (d, false)
    else
      let iq := BitVec.ofNat c.width (load x i.toNat 0 (c.width / 8))
      match stopTokens c slice x fuel ((nx : ℤ) - 1) (i + (c.width / 8 : ℕ))
          (d.emit iq d.y (int32 (d.r1 + 16))) with
      | ((nc, d), true) =>
        if nc < 0 then (d, false)
        else
          let i := (int32 (d.r1 + 7)).tdiv 8
          stopLines fuel n i { d with r1 := int32 (8 * i) }
      | ((_, d), false) => (d, false)

end Stop

/-- What is left of it when the routine gives up. -/
def completed {α : Type} (s : α × Bool) : Option α := if s.2 then some s.1 else none

@[simp]
theorem completed_true {α : Type} (a : α) : completed (a, true) = some a := rfl

@[simp]
theorem completed_false {α : Type} (a : α) : completed (a, false) = none := rfl

section StopBounds

variable {c : Codec} {slice nx : ℕ} {x : Buf} {diff : ℕ → Bool}

theorem decrunchRow_eq_stop : ∀ {n : ℕ} {d : In c.width},
    decrunchRow c slice x n d = completed (stopRow c slice x n d)
  | 0, d => rfl
  | n + 1, d => by
    rw [decrunchRow, stopRow]
    cases decrunchDiff c slice x d with
    | none => rfl
    | some d => exact decrunchRow_eq_stop

theorem decrunchRows_eq_stop : ∀ {n : ℕ} {i : ℤ} {d : In c.width},
    decrunchRows c slice nx x n i d = completed (stopRows c slice nx x n i d)
  | 0, _, d => rfl
  | n + 1, i, d => by
    rw [decrunchRows, stopRows]
    split_ifs with hi
    · rfl
    · simp only [decrunchRow_eq_stop]
      rcases stopRow c slice x (nx - 1) _ with ⟨d, _ | _⟩
      · rfl
      · exact decrunchRows_eq_stop

theorem decrunchTokens_eq_stop : ∀ {fuel : ℕ} {nc i : ℤ} {d : In c.width},
    decrunchTokens c slice x fuel nc i d = completed (stopTokens c slice x fuel nc i d)
  | 0, nc, _, d => by
    rw [decrunchTokens, stopTokens]
    split_ifs with hnc
    · rw [decide_eq_false (by omega), completed_false]
    · rw [decide_eq_true (by omega), completed_true]
  | fuel + 1, nc, i, d => by
    rw [decrunchTokens, stopTokens]
    split_ifs with hnc hi
    · rfl
    · simp only
      split_ifs with hrun
      · exact decrunchTokens_eq_stop
      · rw [decrunchRow_eq_stop]
        rcases stopRow c slice x _ _ with ⟨d, _ | _⟩
        · rfl
        · exact decrunchTokens_eq_stop
    · rfl

theorem decrunchLines_eq_stop {fuel : ℕ} : ∀ {n : ℕ} {i : ℤ} {d : In c.width},
    decrunchLines c slice nx x fuel n i d = completed (stopLines c slice nx x fuel n i d)
  | 0, _, d => rfl
  | n + 1, i, d => by
    rw [decrunchLines, stopLines]
    split_ifs with hi
    · rfl
    · simp only [decrunchTokens_eq_stop]
      rcases stopTokens c slice x fuel _ _ _ with ⟨⟨nc, d⟩, _ | _⟩
      · rfl
      · simp only [completed_true, Option.bind_eq_bind, Option.bind_some]
        split_ifs
        · rfl
        · exact decrunchLines_eq_stop

theorem decrunchDiff_pos {d d' : In c.width} (h : decrunchDiff c slice x d = some d') :
    d'.pos = d.pos + 1 := by
  simp only [decrunchDiff, Option.bind_eq_bind, Option.bind_eq_some_iff, Option.pure_def] at h
  obtain ⟨_, _, _, _, r0, _, h⟩ := h
  split_ifs at h
  · cases h
    rfl
  · obtain ⟨_, _, h⟩ := Option.bind_eq_some_iff.1 h
    cases h
    rfl
  · cases h
    rfl

theorem repeatDiff_pos {w : ℕ} {yw : BitVec w} : ∀ {n : ℕ} {d : In w}, (repeatDiff yw n d).pos = d.pos + n
  | 0, d => rfl
  | n + 1, d => by
    rw [repeatDiff, repeatDiff_pos]
    simp only
    omega

theorem stopRow_pos : ∀ {n : ℕ} {d : In c.width}, (stopRow c slice x n d).1.pos ≤ d.pos + n ∧
    ((stopRow c slice x n d).2 = true → (stopRow c slice x n d).1.pos = d.pos + n)
  | 0, d => ⟨le_refl _, fun _ => rfl⟩
  | n + 1, d => by
    rw [stopRow]
    cases h : decrunchDiff c slice x d with
    | none => exact ⟨Nat.le_add_right _ _, fun h => absurd h Bool.false_ne_true⟩
    | some d' =>
      have hpos := decrunchDiff_pos h
      obtain ⟨hle, heq⟩ := @stopRow_pos n d'
      simp only
      exact ⟨by omega, fun h => by rw [heq h]; omega⟩

theorem stopRows_le (hf : ∀ k, diff k = true) : ∀ {n : ℕ} {i : ℤ} {d : In c.width},
    (stopRows c slice nx x n i d).1.pos ≤ (writeRows diff nx n d.pos).1
  | 0, _, d => le_refl _
  | n + 1, i, d => by
    rw [stopRows, writeRows_all hf, Nat.succ_mul]
    split_ifs
    · exact Nat.le_add_right _ _
    · obtain ⟨hle, -⟩ := @stopRow_pos c slice x (nx - 1)
        (d.emit (BitVec.ofNat c.width (load x i.toNat 0 (c.width / 8))) d.y (int32 (d.r1 + c.width)))
      simp only
      split
      · rename_i d' h
        have hrows := @stopRows_le hf n ((int32 (d'.r1 + 7)).tdiv 8)
          { d' with r1 := int32 (8 * ((int32 (d'.r1 + 7)).tdiv 8)) }
        rw [writeRows_all hf] at hrows
        rw [h] at hle
        simp only [In.emit] at hle hrows
        omega
      · rename_i d' h
        rw [h] at hle
        simp only [In.emit] at hle ⊢
        omega

theorem le_writeTokens (hf : ∀ k, diff k = true) :
    ∀ {codes : List (BitVec 8)} {nc : ℤ} {pos : ℕ}, pos ≤ (writeTokens diff codes nc pos).1
  | [], _, pos => le_refl pos
  | code :: codes, nc, pos => by
    rw [writeTokens]
    simp only [writeDiffs_all hf]
    split_ifs
    · exact (Nat.le_add_right pos _).trans (le_writeTokens hf)
    · exact (Nat.le_add_right pos _).trans (le_writeTokens hf)
    · exact le_refl pos

theorem le_writeLines (hf : ∀ k, diff k = true) {nx : ℤ} :
    ∀ {n : ℕ} {codes : List (List (BitVec 8))} {pos : ℕ}, pos ≤ (writeLines diff nx n codes pos).1
  | 0, _, pos => le_refl pos
  | n + 1, codes, pos => by
    have hle := @le_writeTokens diff hf (codes.headD []) (nx - 1) (pos + 1)
    rw [writeLines]
    split
    · rename_i pos' nc h
      rw [h] at hle
      simp only at hle
      split_ifs
      · simp only
        omega
      · have hlines := @le_writeLines hf nx n codes.tail pos'
        omega
    · rename_i pos' nc h
      rw [h] at hle
      simp only at hle ⊢
      omega

/-- The codes a token loop has read let `writeTokens` get as far. -/
theorem stopTokens_le (hf : ∀ k, diff k = true) : ∀ {fuel : ℕ} {nc i : ℤ} {d : In c.width},
    ∃ codes, (stopTokens c slice x fuel nc i d).1.2.pos ≤ (writeTokens diff codes nc d.pos).1 ∧
      ((stopTokens c slice x fuel nc i d).2 = true → writeTokens diff codes nc d.pos =
        ((stopTokens c slice x fuel nc i d).1.2.pos, (stopTokens c slice x fuel nc i d).1.1, true))
  | 0, nc, _, d => by
    refine ⟨[], le_refl _, fun h => ?_⟩
    rw [stopTokens] at h ⊢
    rw [writeTokens, show decide (nc ≤ 0) = true from h]
  | fuel + 1, nc, i, d => by
    rw [stopTokens]
    split_ifs with hnc hi
    · exact ⟨[], le_refl _, fun h => h.elim⟩
    · simp only
      split_ifs with hrun
      · obtain ⟨codes, hle, heq⟩ := @stopTokens_le hf fuel (nc - (255 - (x i.toNat).toNat + 2 : ℕ)) (i + 1 + 2) _
        refine ⟨x i.toNat :: codes, ?_, ?_⟩
        all_goals rw [writeTokens, if_pos hnc]
        all_goals simp only [hrun, if_true]
        all_goals rw [← repeatDiff_pos]
        · exact hle
        · exact heq
      · have hrow := @stopRow_pos c slice x (x i.toNat).toNat { d with r1 := int32 (8 * (i + 1)) }
        rcases h : stopRow c slice x (x i.toNat).toNat { d with r1 := int32 (8 * (i + 1)) } with ⟨d', _ | _⟩
        all_goals rw [h] at hrow
        all_goals obtain ⟨hle, hpos⟩ := hrow
        all_goals simp only at hle hpos ⊢
        · refine ⟨[x i.toNat], ?_, fun h => absurd h Bool.false_ne_true⟩
          rw [writeTokens, if_pos hnc]
          simp only [hrun, if_false, writeDiffs_all hf, writeTokens]
          exact hle
        · obtain ⟨codes, hle, heq⟩ := @stopTokens_le hf fuel (nc - (x i.toNat).toNat)
            ((int32 (d'.r1 + 7)).tdiv 8) { d' with r1 := int32 (8 * (int32 (d'.r1 + 7)).tdiv 8) }
          refine ⟨x i.toNat :: codes, ?_, ?_⟩
          all_goals rw [writeTokens, if_pos hnc]
          all_goals simp only [hrun, if_false, writeDiffs_all hf, ← hpos]
          · exact hle
          · exact heq
    · exact ⟨[], le_refl _, fun _ => by rw [writeTokens, decide_eq_true (by omega)]⟩

theorem stopLines_le (hf : ∀ k, diff k = true) {fuel : ℕ} : ∀ {n : ℕ} {i : ℤ} {d : In c.width},
    ∃ codes, (stopLines c slice nx x fuel n i d).1.pos ≤ (writeLines diff nx n codes d.pos).1
  | 0, _, d => ⟨[], le_refl _⟩
  | n + 1, i, d => by
    rw [stopLines]
    split_ifs
    · exact ⟨[], le_writeLines hf⟩
    · have htokens := @stopTokens_le c slice x diff hf fuel ((nx : ℤ) - 1) (i + (c.width / 8 : ℕ))
        (d.emit (BitVec.ofNat c.width (load x i.toNat 0 (c.width / 8))) d.y (int32 (d.r1 + 16)))
      simp only
      rcases h : stopTokens c slice x fuel _ _ _ with ⟨⟨nc, d'⟩, _ | _⟩
      all_goals rw [h] at htokens
      all_goals obtain ⟨codes, hle, heq⟩ := htokens
      all_goals simp only [In.emit] at hle heq ⊢
      · refine ⟨[codes], hle.trans ?_⟩
        rw [writeLines, List.headD_cons]
        rcases writeTokens diff codes _ _ with ⟨pos, nc, _ | _⟩
        · exact le_refl _
        · simp only
          split_ifs
          · exact le_refl _
          · exact le_writeLines hf
      · split_ifs with hnc
        · refine ⟨[codes], ?_⟩
          rw [writeLines, List.headD_cons, heq trivial]
          simp only [if_pos hnc]
          exact le_refl _
        · obtain ⟨lines, hlines⟩ := @stopLines_le hf fuel n ((int32 (d'.r1 + 7)).tdiv 8)
            { d' with r1 := int32 (8 * (int32 (d'.r1 + 7)).tdiv 8) }
          refine ⟨codes :: lines, ?_⟩
          rw [writeLines, List.headD_cons, heq trivial]
          simp only [if_neg hnc, List.tail_cons]
          exact hlines

/-- **A plain decoder on a buffer gets no further than `writes`** with some data, wherever it stops. -/
theorem decrunch_stop_le {call : Call} (hplain : call.decoder.hasRuns = false) (hnx : call.nx = nx)
    {array : ℕ → BitVec c.width} {y : ℕ} :
    ∃ f, (stopRows c slice nx x call.ny.toNat 0 ⟨array, 0, 0, y, 0⟩).1.pos ≤ call.writes f := by
  refine ⟨⟨fun _ => true, []⟩, ?_⟩
  rw [Call.writes, hplain, if_neg Bool.false_ne_true, hnx]
  exact stopRows_le fun _ => rfl

/-- **Nor does a decoder of run lengths.** -/
theorem decrunchrun_stop_le {call : Call} (hruns : call.decoder.hasRuns = true) (hnx : call.nx = nx)
    {array : ℕ → BitVec c.width} {fuel : ℕ} :
    ∃ f, (stopLines c slice nx x fuel call.ny.toNat 0 ⟨array, 0, 0, 0, 0⟩).1.pos ≤ call.writes f := by
  obtain ⟨codes, hle⟩ := @stopLines_le c slice nx x (fun _ => true) (fun _ => rfl) fuel call.ny.toNat 0
    ⟨array, 0, 0, 0, 0⟩
  refine ⟨⟨fun _ => true, codes⟩, ?_⟩
  rw [Call.writes, if_pos hruns, hnx]
  exact hle

/-- **No bytes make a decoder store more** elements than `maxWrites` says, wherever it stops; the array that it returns
is the one it has there, if it got through. -/
theorem decoders_bounded (array : ℕ → BitVec c.width) (y fuel ny : ℕ) :
    (decrunch c slice nx x array y ny = (completed (stopRows c slice nx x ny 0 ⟨array, 0, 0, y, 0⟩)).map In.array ∧
      (stopRows c slice nx x ny 0 ⟨array, 0, 0, y, 0⟩).1.pos ≤ maxWrites .decrunch nx ny) ∧
    (decrunchrun c slice nx x array fuel ny =
        (completed (stopLines c slice nx x fuel ny 0 ⟨array, 0, 0, 0, 0⟩)).map In.array ∧
      (stopLines c slice nx x fuel ny 0 ⟨array, 0, 0, 0, 0⟩).1.pos ≤ maxWrites .decrunchrun nx ny) := by
  refine ⟨⟨by rw [decrunch, decrunchRows_eq_stop], ?_⟩, by rw [decrunchrun, decrunchLines_eq_stop], ?_⟩
  · obtain ⟨f, hle⟩ := @decrunch_stop_le c slice nx x ⟨.decrunch, slice, nx, ny⟩ rfl rfl array y
    exact hle.trans (Call.writes_le _ f)
  · obtain ⟨f, hle⟩ := @decrunchrun_stop_le c slice nx x ⟨.decrunchrun, slice, nx, ny⟩ rfl rfl array fuel
    exact hle.trans (Call.writes_le _ f)

end StopBounds

/-! ## The image -/

/-- The headers match: what the decoder can write at most fits the image, and an `int`. -/
def Fits (hdr : RawHeader) (chdr : CompressedHeader) (decoder : Decoder) : Prop :=
  maxWrites decoder chdr.bsize.toInt (nBlocks hdr chdr).toInt ≤ 2 ^ 31 ∧
  maxWrites decoder chdr.bsize.toInt (nBlocks hdr chdr).toInt * decoder.elementSize ≤ hdr.dataSize

theorem int32_two_pow : int32 (2 ^ 31 : ℕ) = -2 ^ 31 := by
  unfold int32
  decide

/-- In bounds is what the last index is. -/
theorem Call.inBounds_iff {call : Call} {f : Found} {bytes : ℕ} :
    call.inBounds f bytes ↔
      call.writes f ≤ 2 ^ 31 ∧ call.writes f * call.decoder.elementSize ≤ bytes := by
  rw [Call.inBounds]
  generalize call.decoder.elementSize = e
  generalize call.writes f = n
  constructor
  · intro h
    have hn : n ≤ 2 ^ 31 := by
      by_contra hlt
      have hneg := (h (2 ^ 31) (by omega)).1
      rw [int32_two_pow] at hneg
      omega
    refine ⟨hn, ?_⟩
    cases n with
    | zero => omega
    | succ k =>
      have hlast := (h k (by omega)).2
      rw [int32_natCast (by omega)] at hlast
      exact_mod_cast hlast
  · rintro ⟨hn, he⟩ k hk
    rw [int32_natCast (by omega)]
    refine ⟨by omega, ?_⟩
    have hmul : (k + 1) * e ≤ n * e := Nat.mul_le_mul_right e hk
    exact_mod_cast hmul.trans he

/-- **The decoder stays inside the image**, with any data, exactly where the headers match.  The
consistency check is not enough for that: it admits 32 bit data for an 8 bit image, takes the number of
elements from a 32 bit product, and leaves the last run of a block out of account. -/
theorem readCompressed_inBounds {hdr : RawHeader} {chdr : CompressedHeader} {call : Call}
    {decoder : Decoder} (hcall : readCompressed hdr chdr = some call)
    (hdecoder : decoderOf chdr.type = some decoder) :
    (∀ f, call.inBounds f hdr.dataSize) ↔ Fits hdr chdr decoder := by
  obtain rfl : call = ⟨decoder, chdr.slice_size.toNat, chdr.bsize.toInt, (nBlocks hdr chdr).toInt⟩ := by
    rw [readCompressed] at hcall
    split_ifs at hcall
    rw [hdecoder, Option.map_some, Option.some_inj] at hcall
    exact hcall.symm
  simp only [Call.inBounds_iff, Fits]
  constructor
  · intro h
    have hworst := Call.writes_worst
      ⟨decoder, chdr.slice_size.toNat, chdr.bsize.toInt, (nBlocks hdr chdr).toInt⟩
    rw [← hworst]
    exact h (worst chdr.bsize.toInt.toNat (nBlocks hdr chdr).toInt.toNat)
  · rintro ⟨hindex, hbytes⟩ f
    have hle := Call.writes_le
      ⟨decoder, chdr.slice_size.toNat, chdr.bsize.toInt, (nBlocks hdr chdr).toInt⟩ f
    exact ⟨hle.trans hindex, (Nat.mul_le_mul_right _ hle).trans hbytes⟩

/-- A 16 bit image of 3 × 2 elements. -/
theorem readCompressed_inBounds_int16 :
    Fits ⟨1, [3, 2]⟩ ⟨2, 3, 5, 0⟩ .decrunch ∧ ∀ f, Call.inBounds ⟨.decrunch, 5, 3, 2⟩ f 12 := by
  have hfits : Fits ⟨1, [3, 2]⟩ ⟨2, 3, 5, 0⟩ .decrunch := ⟨by decide, by decide⟩
  refine ⟨hfits, ?_⟩
  exact (@readCompressed_inBounds ⟨1, [3, 2]⟩ ⟨2, 3, 5, 0⟩ ⟨.decrunch, 5, 3, 2⟩ .decrunch rfl rfl).2 hfits

/-- An image of two 16 bit elements with 32 bit data. -/
theorem readCompressed_overrun :
    ∃ hdr chdr call f, readCompressed hdr chdr = some call ∧ ¬call.inBounds f hdr.dataSize := by
  refine ⟨⟨1, [2]⟩, ⟨1, 2, 5, 4⟩, ⟨.decrunch32, 5, 2, 1⟩, ⟨fun _ => true, []⟩, rfl, fun h => ?_⟩
  have hbytes := (Call.inBounds_iff.1 h).2
  exact absurd hbytes (by decide)

end Redux.Ana
