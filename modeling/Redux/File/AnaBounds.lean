import Redux.File.AnaRunTrip
import Redux.Lib.Extent

/-!
# File.AnaBounds — where the ANA encoders write

What the five encoders do to the output behind the header: the one check against the limit, before each
difference, and the bytes stored.  The encoders compute the same whether the limit is there or not, so
that what they do is one list of checks and stores (`rowsOps`, `linesOps`), and a failed check cuts it
off.  The check comes with a margin of 24 bytes, 14 of them for the header; the first value of a block,
the count bytes and the runs are stored without one (`inBounds_iff_hasRoom`).
-/

namespace Redux.Ana

open Redux.Lib

/-! ## One difference -/

section Difference

variable (c : Codec) (slice : ℕ) (dif : ℤ)

/-- The stores of `storeWord`. -/
def wordStores (i n : ℕ) : List (ℕ × ℕ) := [(i, 1), (i + 1, n - 1)]

/-- The stores of `storeZeros`. -/
def zerosStores (i j r3 : ℕ) : List (ℕ × ℕ) :=
  let r0 := j + r3
  if r0 < 8 then [(i, 1)]
  else (if j = 0 then [(i, 1)] else []) ++
    (if r0 < 16 then [(i + 1, 1)] else [(i + 1, r0 / 8 - 1), (i + r0 / 8, 1)])

/-- The stores of `storeBig`. -/
def bigStores (i j : ℕ) : List (ℕ × ℕ) :=
  let r0 := j + 31
  (if j = 0 then [(i, 1)] else []) ++ [(i + 1, r0 / 8 - 1), (i + r0 / 8, 1)]

/-- The stores of `storeRaw`. -/
def rawStores (i j n : ℕ) : List (ℕ × ℕ) := (if j = 0 then [(i, 1)] else []) ++ wordStores i n

/-- The stores of `crunchDiff`. -/
def diffStores (outBits : ℕ) : List (ℕ × ℕ) :=
  let outBytes := outBits / 8
  let j := outBits % 8
  wordStores outBytes (c.fixedBytes slice j) ++
    let outBits := u32 (outBits + slice)
    let outBytes := outBits / 8
    let j := outBits % 8
    let r3 := dif >>> slice
    if r3 = 0 then [(outBytes, 1)]
    else
      let r3 := 2 * r3
      let r3 := if r3 < 0 then -r3 - 1 else r3
      if r3 < 31 then zerosStores outBytes j r3.toNat
      else
        let outBits := u32 (outBits + 32)
        bigStores outBytes j ++ rawStores (outBits / 8) (outBits % 8) c.escBytes

/-- The byte behind the code word of a difference that starts at bit `p` of the counter. -/
def wordLast (p : ℕ) : ℕ :=
  let q := u32 (p + slice)
  if zeros (dif >>> slice) < 31 then (q + zeros (dif >>> slice)) / 8 + 1
  else max ((q + 31) / 8 + 1) (u32 (q + 32) / 8 + c.escBytes)

end Difference

section Words

variable {c : Codec} {slice : ℕ} {dif : ℤ} {room p i j r : ℕ}

theorem below_zerosStores (hj : j < 8) :
    Below room (zerosStores i j r) ↔ (8 * i + j + r) / 8 + 1 ≤ room := by
  unfold zerosStores
  dsimp only
  split_ifs <;> simp only [List.nil_append, List.cons_append, below_cons, below_nil, and_true] <;> omega

theorem below_bigStores (hj : j < 8) : Below room (bigStores i j) ↔ (8 * i + j + 31) / 8 + 1 ≤ room := by
  unfold bigStores
  dsimp only
  split_ifs <;> simp only [List.nil_append, List.cons_append, below_cons, below_nil, and_true] <;> omega

theorem below_wordStores {n : ℕ} : Below room (wordStores i n) ↔ i + 1 + (n - 1) ≤ room := by
  simp only [wordStores, below_cons, below_nil, and_true]
  omega

theorem below_rawStores {n : ℕ} (hn : 1 ≤ n) : Below room (rawStores i j n) ↔ i + n ≤ room := by
  rw [rawStores, below_append, below_wordStores]
  split_ifs
  · simp only [below_cons, below_nil, and_true]
    omega
  · simp only [below_nil, true_and]
    omega

/-- The rest of a difference takes zeros or the big one exception. -/
theorem zeros_eq : ((zeros (dif >>> slice) : ℕ) : ℤ) =
    if 2 * (dif >>> slice) < 0 then -(2 * (dif >>> slice)) - 1 else 2 * (dif >>> slice) := by
  unfold zeros
  split_ifs <;> omega

/-- **The stores of a difference end with its code word**, but for the bytes of the fixed portion. -/
theorem below_diffStores : Below room (diffStores c slice dif p) ↔
    p / 8 + 1 + (c.fixedBytes slice (p % 8) - 1) ≤ room ∧ wordLast c slice dif p ≤ room := by
  have hmod : ∀ n : ℕ, n % 8 < 8 := fun n => Nat.mod_lt _ (by decide)
  have hsplit : ∀ n : ℕ, 8 * (n / 8) + n % 8 = n := fun n => Nat.div_add_mod n 8
  have hzeros := @zeros_eq slice dif
  unfold diffStores wordLast
  dsimp only
  rw [below_append, below_wordStores]
  refine and_congr_right fun _ => ?_
  by_cases h0 : dif >>> slice = 0
  · have hz : zeros (dif >>> slice) = 0 := by rw [h0]; rfl
    rw [if_pos h0, hz, if_pos (by decide), below_cons, Nat.add_zero]
    exact and_iff_left below_nil
  · rw [if_neg h0, ← hzeros]
    by_cases h31 : zeros (dif >>> slice) < 31
    · rw [if_pos (by omega), if_pos h31, Int.toNat_natCast, below_zerosStores (hmod _), hsplit]
    · rw [if_neg (by omega), if_neg h31, below_append, below_bigStores (hmod _), hsplit,
        below_rawStores (c.esc_fits 0 (by decide)).1, max_le_iff]

end Words

/-! ## The counter -/

theorem diffWord_length {width slice : ℕ} {dif : ℤ} : (diffWord width slice dif).length =
    slice + if zeros (dif >>> slice) < 31 then zeros (dif >>> slice) + 1 else 32 + (width + 1) := by
  rw [diffWord, List.length_append, lowBits_length]
  split_ifs
  · rw [unary_length]
  · rw [List.length_append, unary_length, lowBits_length]

theorem diffWord_length_le {width slice : ℕ} {dif : ℤ} : (diffWord width slice dif).length ≤ slice + 33 + width := by
  rw [diffWord_length]
  split_ifs <;> omega

/-- **The counter advances over the code word**, as a `uint32_t` does. -/
theorem crunchDiff_outBits {c : Codec} {slice : ℕ} {dif : ℤ} {s : Out} : (crunchDiff c slice dif s).outBits =
    u32 (s.outBits + (diffWord c.width slice dif).length) := by
  have hzeros := @zeros_eq slice dif
  rw [diffWord_length]
  unfold crunchDiff
  dsimp only
  by_cases h0 : dif >>> slice = 0
  · have hz : zeros (dif >>> slice) = 0 := by rw [h0]; rfl
    rw [if_pos h0, hz, if_pos (by decide)]
    simp only [u32]
    omega
  · rw [if_neg h0, ← hzeros]
    by_cases h31 : zeros (dif >>> slice) < 31
    · rw [if_pos (by omega), if_pos h31]
      simp only [u32, Int.toNat_natCast]
      omega
    · rw [if_neg (by omega), if_neg h31]
      simp only [u32]
      omega

/-! ## What is not stored to stays -/

section Frame

variable {c : Codec} {slice k : ℕ} {dif : ℤ} {x : Buf} {i j r v n : ℕ} {b : BitVec 8}

theorem storeBytes_of_outside (h : k < i + r ∨ i + r + n ≤ k) : storeBytes x i v r n k = x k := by
  induction n generalizing x r with
  | zero => rfl
  | succ n ih =>
    rw [storeBytes, ih (by omega)]
    exact put_of_ne (by omega)

theorem zeroFill_of_outside (h : k < i ∨ i + n ≤ k) : zeroFill x i n k = x k := by
  induction n generalizing x i with
  | zero => rfl
  | succ n ih =>
    rw [zeroFill, ih (by omega)]
    exact put_of_ne (by omega)

theorem merge_of_ne (h : k ≠ i) : merge x i j b k = x k := by
  unfold merge
  split_ifs <;> exact put_of_ne h

/-- The first byte of a store that begins on a new byte is cleared. -/
theorem clear_of_untouched (h : Untouched k (if j = 0 then [(i, 1)] else [])) :
    (if j = 0 then put x i 0 else x) k = x k := by
  split_ifs at h ⊢
  · rw [untouched_cons] at h
    exact put_of_ne (by omega)
  · rfl

theorem storeWord_of_untouched (h : Untouched k (wordStores i n)) : storeWord x i j v n k = x k := by
  simp only [wordStores, untouched_cons, untouched_nil, and_true] at h
  rw [storeWord, storeBytes_of_outside (by omega)]
  exact merge_of_ne (by omega)

theorem storeZeros_of_untouched (h : Untouched k (zerosStores i j r)) : storeZeros x i j r k = x k := by
  unfold zerosStores at h
  unfold storeZeros
  dsimp only at h ⊢
  by_cases h8 : j + r < 8
  · rw [if_pos h8, untouched_cons] at h
    rw [if_pos h8]
    exact merge_of_ne (by omega)
  · rw [if_neg h8, untouched_append] at h
    rw [if_neg h8]
    have hclear := @clear_of_untouched k x i j h.1
    by_cases h16 : j + r < 16
    · have hlast := h.2
      rw [if_pos h16, untouched_cons] at hlast
      rw [if_pos h16, put_of_ne (by omega)]
      exact hclear
    · have hlast := h.2
      rw [if_neg h16, untouched_cons, untouched_cons] at hlast
      rw [if_neg h16, put_of_ne (by omega), zeroFill_of_outside (by omega)]
      exact hclear

theorem storeBig_of_untouched (h : Untouched k (bigStores i j)) : storeBig x i j k = x k := by
  unfold bigStores at h
  dsimp only at h
  rw [untouched_append, untouched_cons, untouched_cons] at h
  unfold storeBig
  rw [put_of_ne (by omega), zeroFill_of_outside (by omega)]
  exact clear_of_untouched h.1

theorem storeRaw_of_untouched (h : Untouched k (rawStores i j n)) : storeRaw x i j v n k = x k := by
  rw [rawStores, untouched_append, wordStores, untouched_cons, untouched_cons] at h
  unfold storeRaw
  rw [storeBytes_of_outside (by omega), put_of_ne (by omega)]
  exact clear_of_untouched h.1

/-- **A difference changes no byte but those that it stores.** -/
theorem crunchDiff_of_untouched {s : Out} (h : Untouched k (diffStores c slice dif s.outBits)) :
    (crunchDiff c slice dif s).x k = s.x k := by
  unfold diffStores at h
  dsimp only at h
  obtain ⟨hword, hrest⟩ := untouched_append.1 h
  unfold crunchDiff
  dsimp only
  by_cases h0 : dif >>> slice = 0
  · rw [if_pos h0, untouched_cons] at hrest
    rw [if_pos h0]
    dsimp only
    rw [merge_of_ne (by omega)]
    exact storeWord_of_untouched hword
  · rw [if_neg h0] at hrest ⊢
    by_cases h31 : (if 2 * (dif >>> slice) < 0 then -(2 * (dif >>> slice)) - 1 else 2 * (dif >>> slice)) < 31
    · rw [if_pos h31] at hrest ⊢
      exact (storeZeros_of_untouched hrest).trans (storeWord_of_untouched hword)
    · rw [if_neg h31] at hrest ⊢
      obtain ⟨hbig, hraw⟩ := untouched_append.1 hrest
      exact (storeRaw_of_untouched hraw).trans ((storeBig_of_untouched hbig).trans (storeWord_of_untouched hword))

end Frame

/-! ## The plain encoders -/

section PlainModel

variable (c : Codec) (slice nx : ℕ) (array : ℕ → BitVec c.width)

/-- What `crunchRow` does to the output, and what it leaves, if no check fails. -/
def rowOps : ℕ → ℕ → Out → List Op × Out
  | 0, _, s => ([], s)
  | n + 1, inIndex, s =>
    let dif := c.val (array inIndex) - c.val (array (inIndex - 1))
    let rest := rowOps n (inIndex + 1) (crunchDiff c slice dif s)
    (.check (s.outBits / 8) :: .stores (diffStores c slice dif s.outBits) :: rest.1, rest.2)

/-- What `crunchRows` does to the output. -/
def rowsOps : ℕ → ℕ → ℕ → Out → List Op × ℕ × Out
  | 0, _, outBytes, s => ([], outBytes, s)
  | n + 1, inIndex, outBytes, s =>
    let row := rowOps c slice array (nx - 1) (inIndex + 1)
      ⟨storeBytes s.x outBytes (array inIndex).toNat 0 (c.width / 8), u32 (s.outBits + c.width)⟩
    let next := u32 (row.2.outBits + 7) / 8
    let rest := rowsOps n (inIndex + nx) next ⟨row.2.x, u32 (8 * next)⟩
    (.stores [(outBytes, c.width / 8)] :: row.1 ++ rest.1, rest.2)

/-- The code words of differences from bit `p` of the counter on, each of them checked. -/
def diffParts : List ℤ → ℕ → List Part
  | [], _ => []
  | dif :: ds, p => ⟨some (p / 8), wordLast c slice dif p⟩ ::
      diffParts ds (u32 (p + (diffWord c.width slice dif).length))

/-- The counter behind them. -/
def diffNext : List ℤ → ℕ → ℕ
  | [], p => p
  | dif :: ds, p => diffNext ds (u32 (p + (diffWord c.width slice dif).length))

/-- The parts of `n` blocks, the first one from sample `i` at byte `b`. -/
def blockParts : ℕ → ℕ → ℕ → List Part
  | 0, _, _ => []
  | n + 1, i, b =>
    let ds := rowDiffs c array (nx - 1) (i + 1)
    let p := u32 (8 * b + c.width)
    ⟨none, b + c.width / 8⟩ :: diffParts c slice ds p ++
      blockParts n (i + nx) (u32 (diffNext c slice ds p + 7) / 8)

end PlainModel

section Plain

variable {c : Codec} {slice nx limit k : ℕ} {array : ℕ → BitVec c.width}

/-- **The inner loop does what `rowOps` says**, up to the first check that fails. -/
theorem crunchRow_iff : ∀ {n i : ℕ} {s s' : Out}, crunchRow c slice limit array n i s = some s' ↔
    Completes limit (rowOps c slice array n i s).1 ∧ (rowOps c slice array n i s).2 = s'
  | 0, i, s, s' => by
    rw [crunchRow, rowOps, Option.some_inj]
    exact (and_iff_right completes_nil).symm
  | n + 1, i, s, s' => by
    rw [crunchRow, rowOps]
    dsimp only
    rw [completes_check, completes_stores, and_assoc, ← crunchRow_iff]
    by_cases hlim : s.outBits / 8 > limit
    · rw [if_pos hlim]
      exact iff_of_false (Option.some_ne_none s').symm fun h => absurd h.1 (by omega)
    · rw [if_neg hlim]
      exact (and_iff_right (by omega)).symm

/-- **So does the outer loop.** -/
theorem crunchRows_iff : ∀ {n i ob : ℕ} {s : Out} {r : ℕ × Out},
    crunchRows c slice limit nx array n i ob s = some r ↔
      Completes limit (rowsOps c slice nx array n i ob s).1 ∧ (rowsOps c slice nx array n i ob s).2 = r
  | 0, i, ob, s, r => by
    rw [crunchRows, rowsOps, Option.some_inj]
    exact (and_iff_right completes_nil).symm
  | n + 1, i, ob, s, r => by
    simp only [crunchRows, Option.bind_eq_bind, Option.bind_eq_some_iff, crunchRow_iff]
    rw [rowsOps]
    dsimp only
    rw [List.cons_append, completes_stores, completes_append]
    constructor
    · rintro ⟨t, ⟨hrow, rfl⟩, hrest⟩
      obtain ⟨hrows, hr⟩ := crunchRows_iff.1 hrest
      exact ⟨⟨hrow, hrows⟩, hr⟩
    · rintro ⟨⟨hrow, hrows⟩, hr⟩
      exact ⟨_, ⟨hrow, rfl⟩, crunchRows_iff.2 ⟨hrows, hr⟩⟩

variable (hfix : ∀ j, c.fixedBytes slice j ≤ 10)

include hfix

/-- The stores of a difference that is checked end with its code word. -/
theorem below_checked {dif : ℤ} {p : ℕ} (hp : p / 8 ≤ limit) :
    Below (limit + 10) (diffStores c slice dif p) ↔ wordLast c slice dif p ≤ limit + 10 := by
  have hbytes := hfix (p % 8)
  rw [below_diffStores]
  exact and_iff_right (by omega)

/-- **The inner loop lays out the code words of its differences.** -/
theorem rowOps_lays : ∀ {n i : ℕ} {s : Out},
    Lays limit (limit + 10) (rowOps c slice array n i s).1
      (diffParts c slice (rowDiffs c array n i) s.outBits) ∧
    (rowOps c slice array n i s).2.outBits = diffNext c slice (rowDiffs c array n i) s.outBits
  | 0, i, s => ⟨.nil, rfl⟩
  | n + 1, i, s => by
    have hrest := @rowOps_lays n (i + 1)
      (crunchDiff c slice (c.val (array i) - c.val (array (i - 1))) s)
    rw [crunchDiff_outBits] at hrest
    exact ⟨.check (below_checked hfix) hrest.1, hrest.2⟩

/-- **The outer loop lays out the blocks.** -/
theorem rowsOps_lays : ∀ {n i ob : ℕ} {s : Out}, s.outBits = u32 (8 * ob) →
    Lays limit (limit + 10) (rowsOps c slice nx array n i ob s).1 (blockParts c slice nx array n i ob)
  | 0, i, ob, s, _ => .nil
  | n + 1, i, ob, s, hs => by
    have hu : u32 (s.outBits + c.width) = u32 (8 * ob + c.width) := by
      rw [hs]
      simp only [u32]
      omega
    rw [rowsOps, blockParts, hu]
    dsimp only
    obtain ⟨hrow, hnext⟩ := @rowOps_lays c slice limit array hfix (nx - 1) (i + 1)
      ⟨storeBytes s.x ob (array i).toNat 0 (c.width / 8), u32 (8 * ob + c.width)⟩
    rw [hnext]
    refine Lays.append (.stores ?_ hrow) (rowsOps_lays rfl)
    rw [below_cons]
    exact and_iff_left below_nil

end Plain

/-! ## The run-length encoders -/

/-- The stores of `storeRuns`. -/
def runsStores (outBytes nrun : ℕ) : List (ℕ × ℕ) :=
  if nrun > 128 then
    if nrun = 129 then (outBytes, 3) :: runsStores (outBytes + 3) (nrun - 127)
    else (outBytes, 3) :: runsStores (outBytes + 3) (nrun - 128)
  else [(outBytes, 3)]
termination_by nrun

/-- **Runs change no byte but those that they store.** -/
theorem storeRuns_of_untouched {x : Buf} {outBytes n k : ℕ} {y : ℤ} (h : Untouched k (runsStores outBytes n)) :
    (storeRuns x outBytes y n).1 k = x k := by
  have hrun : ∀ {x : Buf} {i : ℕ} {b : BitVec 8}, k < i ∨ i + 3 ≤ k → storeRun x i b y k = x k := fun hk =>
    (storeBytes_of_outside (by omega)).trans (put_of_ne (by omega))
  fun_induction storeRuns x outBytes y n with
  | case1 x b hn ih =>
    rw [runsStores, if_pos hn, if_pos rfl, untouched_cons] at h
    rw [ih h.2]
    exact hrun (by omega)
  | case2 x b n hn h129 ih =>
    rw [runsStores, if_pos hn, if_neg h129, untouched_cons] at h
    rw [ih h.2]
    exact hrun (by omega)
  | case3 x b n hn =>
    rw [runsStores, if_neg hn, untouched_cons] at h
    exact hrun (by omega)

/-- What `codeRun` does to the output. -/
def runOps (s : Line) (nrun : ℕ) : List Op :=
  if s.lrun ≠ 0 then
    .stores [(s.ic, 1)] :: (runsStores (u32 (s.outBits + 7) / 8) nrun).map fun st => .stores [st]
  else (runsStores s.ic nrun).map fun st => .stores [st]

/-- The stretch that the next difference joins: a new one behind 127 differences. -/
def nextLiteral (s : Line) : Line :=
  if s.lrun + 1 > 127 then
    let ic := u32 (s.outBits + 7) / 8
    ⟨put s.x s.ic 127, u32 (8 * (ic + 1)), ic, 1⟩
  else { s with lrun := s.lrun + 1 }

section RunModel

variable (c : Codec) (slice nx : ℕ) (array : ℕ → BitVec c.width) (dif junk : ℕ → ℤ)

/-- What `codeLiteral` leaves, if the check does not fail. -/
def literalLine (y : ℤ) (s : Line) : Line :=
  let s := nextLiteral s
  let o := crunchDiff c slice y ⟨s.x, s.outBits⟩
  { s with x := o.x, outBits := o.outBits }

/-- What it does to the output. -/
def literalOps (y : ℤ) (s : Line) : List Op :=
  (if s.lrun + 1 > 127 then [.stores [(s.ic, 1)]] else []) ++
    [.check ((nextLiteral s).outBits / 8), .stores (diffStores c slice y (nextLiteral s).outBits)]

/-- What the passes of `crunchLine` do to the output, with `nc` differences left from `dif[d]`. -/
def lineOps (nc d : ℕ) (s : Line) : List Op × Buf × ℕ :=
  match nc with
  | 0 => if s.lrun ≠ 0 then
      ([.stores [(s.ic, 1)]], put s.x s.ic (BitVec.ofNat 8 s.lrun), u32 (s.outBits + 7) / 8)
    else ([], s.x, u32 (s.outBits + 7) / 8)
  | m + 1 =>
    let r := sameAs (dif d) (segment dif (d + 1) m)
    if 4 ≤ 1 + r then
      let e := codeRun s (dif d) (1 + r)
      if m - r = 0 then (runOps s (1 + r), e)
      else
        let rest := lineOps (m - r) (d + 1 + r) ⟨e.1, u32 (8 * (e.2 + 1)), e.2, 0⟩
        (runOps s (1 + r) ++ rest.1, rest.2)
    else
      let rest := lineOps m (d + 1) (literalLine c slice (dif d) s)
      (literalOps c slice (dif d) s ++ rest.1, rest.2)
termination_by nc
decreasing_by
  · exact Nat.lt_succ_of_le (Nat.sub_le m r)
  · exact Nat.lt_succ_self m

/-- What `crunchLines` does to the output. -/
def linesOps : ℕ → ℕ → ℕ → Out → List Op × ℕ × Out
  | 0, _, outBytes, s => ([], outBytes, s)
  | n + 1, inIndex, outBytes, s =>
    let line := lineOps c slice (lineBuffer c nx array junk inIndex) (nx - 1) 0
      ⟨storeBytes s.x outBytes (array inIndex).toNat 0 (c.width / 8),
        u32 (u32 (s.outBits + c.width) + 8), outBytes + c.width / 8, 0⟩
    let rest := linesOps n (inIndex + nx) line.2.2 ⟨line.2.1, u32 (8 * line.2.2)⟩
    (.stores [(outBytes, c.width / 8)] :: line.1 ++ rest.1, rest.2)

/-- The parts of a token whose count byte is byte `b`, in the order in which they are stored: the count
byte of a stretch comes last. -/
def tokenParts : Token → ℕ → List Part
  | .run _ _, b => [⟨none, b + 3⟩]
  | .literal ds, b => diffParts c slice ds (u32 (8 * (b + 1))) ++ [⟨none, b + 1⟩]

/-- The byte behind it. -/
def tokenNext : Token → ℕ → ℕ
  | .run _ _, b => b + 3
  | .literal ds, b => u32 (diffNext c slice ds (u32 (8 * (b + 1))) + 7) / 8

def tokensParts : List Token → ℕ → List Part
  | [], _ => []
  | t :: ts, b => tokenParts c slice t b ++ tokensParts ts (tokenNext c slice t b)

def tokensNext : List Token → ℕ → ℕ
  | [], b => b
  | t :: ts, b => tokensNext ts (tokenNext c slice t b)

/-- The byte behind the block from sample `i` at byte `b`; without a token a count byte is passed
over. -/
def lineNext (i b : ℕ) : ℕ :=
  if nx = 1 then u32 (8 * (b + c.width / 8 + 1)) / 8
  else tokensNext c slice (lineTokens c nx array i) (b + c.width / 8)

/-- The parts of `n` blocks, the first one from sample `i` at byte `b`. -/
def lineParts : ℕ → ℕ → ℕ → List Part
  | 0, _, _ => []
  | n + 1, i, b => ⟨none, b + c.width / 8⟩ ::
      tokensParts c slice (lineTokens c nx array i) (b + c.width / 8) ++
        lineParts n (i + nx) (lineNext c slice nx array i b)

end RunModel

section Run

variable {c : Codec} {slice nx limit k : ℕ} {array : ℕ → BitVec c.width} {dif junk : ℕ → ℤ} {s s' : Line}
  {y : ℤ}

theorem codeLiteral_iff : codeLiteral c slice limit y s = some s' ↔
    (nextLiteral s).outBits / 8 ≤ limit ∧ literalLine c slice y s = s' := by
  have heq : codeLiteral c slice limit y s =
      if (nextLiteral s).outBits / 8 > limit then none else some (literalLine c slice y s) := rfl
  rw [heq]
  by_cases hlim : (nextLiteral s).outBits / 8 > limit
  · rw [if_pos hlim]
    exact iff_of_false (fun h => nomatch h) fun h => absurd h.1 (by omega)
  · rw [if_neg hlim, Option.some_inj]
    exact (and_iff_right (by omega)).symm

theorem completes_map {l : List (ℕ × ℕ)} : Completes limit (l.map fun st => Op.stores [st]) := by
  intro i hi
  obtain ⟨st, -, hst⟩ := List.mem_map.1 hi
  nomatch hst

theorem completes_runOps {n : ℕ} : Completes limit (runOps s n) := by
  unfold runOps
  split_ifs
  · exact completes_stores.2 completes_map
  · exact completes_map

theorem completes_literalOps :
    Completes limit (literalOps c slice y s) ↔ (nextLiteral s).outBits / 8 ≤ limit := by
  have hcheck : Completes limit [.check ((nextLiteral s).outBits / 8),
      .stores (diffStores c slice y (nextLiteral s).outBits)] ↔ (nextLiteral s).outBits / 8 ≤ limit := by
    rw [completes_check, completes_stores]
    exact and_iff_left completes_nil
  unfold literalOps
  split_ifs
  · rw [List.singleton_append, completes_stores, hcheck]
  · rw [List.nil_append, hcheck]

/-- **The line loop does what `lineOps` says**, up to the first check that fails. -/
theorem crunchLine_iff : ∀ {fuel nc d : ℕ} {check : Bool} {s : Line} {e : Buf × ℕ}, nc < fuel →
    (check = true → 1 ≤ nc) → (crunchLine c slice limit dif fuel check nc d s = some e ↔
      Completes limit (lineOps c slice dif nc d s).1 ∧ (lineOps c slice dif nc d s).2 = e)
  | 0, nc, _, _, _, _, hf, _ => absurd hf (Nat.not_lt_zero nc)
  | fuel + 1, 0, d, check, s, e, hf, hcheck => by
    rw [lineOps, crunchLine_zero hcheck, Option.some_inj]
    split_ifs
    · exact (and_iff_right (completes_stores.2 completes_nil)).symm
    · exact (and_iff_right completes_nil).symm
  | fuel + 1, m + 1, d, check, s, e, hf, _ => by
    rw [crunchLine_succ (by omega), lineOps]
    dsimp only
    rw [Nat.add_sub_cancel]
    have hr := sameAs_le (dif d) (segment dif (d + 1) m)
    rw [segment_length] at hr
    generalize sameAs (dif d) (segment dif (d + 1) m) = r at hr ⊢
    by_cases h4 : 4 ≤ 1 + r
    · rw [if_pos h4, if_pos h4, show m + 1 - r - 1 = m - r by omega]
      by_cases hend : m - r = 0
      · rw [if_pos hend, if_pos hend, Option.some_inj]
        exact (and_iff_right completes_runOps).symm
      · rw [if_neg hend, if_neg hend, crunchLine_iff (by omega) fun _ => by omega, completes_append,
          and_iff_right completes_runOps]
    · rw [if_neg h4, if_neg h4, Option.bind_eq_some_iff, completes_append, completes_literalOps]
      constructor
      · rintro ⟨t, ht, hrest⟩
        obtain ⟨hlim, rfl⟩ := codeLiteral_iff.1 ht
        obtain ⟨hc, he⟩ := (crunchLine_iff (by omega) (by simp)).1 hrest
        exact ⟨⟨hlim, hc⟩, he⟩
      · rintro ⟨⟨hlim, hc⟩, he⟩
        exact ⟨_, codeLiteral_iff.2 ⟨hlim, rfl⟩, (crunchLine_iff (by omega) (by simp)).2 ⟨hc, he⟩⟩

/-- **So does the outer loop.** -/
theorem crunchLines_iff (hnx : 1 ≤ nx) : ∀ {n i ob : ℕ} {s : Out} {r : ℕ × Out},
    crunchLines c slice limit nx array junk n i ob s = some r ↔
      Completes limit (linesOps c slice nx array junk n i ob s).1 ∧
        (linesOps c slice nx array junk n i ob s).2 = r
  | 0, i, ob, s, r => by
    rw [crunchLines, linesOps, Option.some_inj]
    exact (and_iff_right completes_nil).symm
  | n + 1, i, ob, s, r => by
    simp only [crunchLines, Option.bind_eq_bind, Option.bind_eq_some_iff]
    rw [linesOps]
    dsimp only
    rw [List.cons_append, completes_stores, completes_append]
    constructor
    · rintro ⟨e, he, hrest⟩
      obtain ⟨hline, rfl⟩ := (crunchLine_iff (by omega) (by simp)).1 he
      obtain ⟨hlines, hr⟩ := (crunchLines_iff hnx).1 hrest
      exact ⟨⟨hline, hlines⟩, hr⟩
    · rintro ⟨⟨hline, hlines⟩, hr⟩
      exact ⟨_, (crunchLine_iff (by omega) (by simp)).2 ⟨hline, rfl⟩, (crunchLines_iff hnx).2 ⟨hlines, hr⟩⟩

/-! ### The layout -/

theorem diffParts_append : ∀ {ds es : List ℤ} {p : ℕ}, diffParts c slice (ds ++ es) p =
    diffParts c slice ds p ++ diffParts c slice es (diffNext c slice ds p)
  | [], _, _ => rfl
  | dif :: ds, es, p => by rw [List.cons_append, diffParts, diffParts, diffParts_append, diffNext, List.cons_append]

theorem diffNext_append : ∀ {ds es : List ℤ} {p : ℕ}, diffNext c slice (ds ++ es) p =
    diffNext c slice es (diffNext c slice ds p)
  | [], _, _ => rfl
  | dif :: ds, es, p => by rw [List.cons_append, diffNext, diffNext_append, diffNext]

theorem tokensParts_append : ∀ {ts us : List Token} {b : ℕ}, tokensParts c slice (ts ++ us) b =
    tokensParts c slice ts b ++ tokensParts c slice us (tokensNext c slice ts b)
  | [], _, _ => rfl
  | t :: ts, us, b => by
    rw [List.cons_append, tokensParts, tokensParts, tokensParts_append, tokensNext, List.append_assoc]

theorem tokensNext_append : ∀ {ts us : List Token} {b : ℕ}, tokensNext c slice (ts ++ us) b =
    tokensNext c slice us (tokensNext c slice ts b)
  | [], _, _ => rfl
  | t :: ts, us, b => by rw [List.cons_append, tokensNext, tokensNext_append, tokensNext]

/-- Runs are laid out behind one another. -/
theorem runs_lays {room b n : ℕ} {x : Buf} :
    Lays limit room ((runsStores b n).map fun st => .stores [st]) (tokensParts c slice (runTokens n y) b) ∧
      (storeRuns x b y n).2 = tokensNext c slice (runTokens n y) b := by
  have hone : ∀ {b : ℕ}, Below room [(b, 3)] ↔ b + 3 ≤ room := by
    intro b
    rw [below_cons]
    exact and_iff_left below_nil
  fun_induction storeRuns x b y n with
  | case1 x b hn ih =>
    rw [runsStores, if_pos hn, if_pos rfl, runTokens, if_pos hn, if_pos rfl]
    exact ⟨.stores hone ih.1, ih.2⟩
  | case2 x b n hn h129 ih =>
    rw [runsStores, if_pos hn, if_neg h129, runTokens, if_pos hn, if_neg h129]
    exact ⟨.stores hone ih.1, ih.2⟩
  | case3 x b n hn =>
    rw [runsStores, if_neg hn, runTokens, if_neg hn]
    exact ⟨.stores hone .nil, rfl⟩

variable (c slice) in
/-- The state inside a stretch that holds the differences `lits`. -/
structure Stretch (s : Line) (lits : List ℤ) : Prop where
  lrun : s.lrun = lits.length
  le : lits.length ≤ 127
  outBits : s.outBits = diffNext c slice lits (u32 (8 * (s.ic + 1)))

/-- What is left of the parts of an open stretch when the next one is begun: its count byte. -/
theorem Stretch.flush (limit : ℕ) {lits : List ℤ} (h : Stretch c slice s lits) :
    ∃ ps, tokensParts c slice (flush lits) s.ic = diffParts c slice lits (u32 (8 * (s.ic + 1))) ++ ps ∧
      Lays limit (limit + 10) (if s.lrun ≠ 0 then [.stores [(s.ic, 1)]] else []) ps ∧
      tokensNext c slice (flush lits) s.ic = if s.lrun ≠ 0 then u32 (s.outBits + 7) / 8 else s.ic := by
  rw [h.lrun]
  unfold Ana.flush
  by_cases h0 : lits = []
  · rw [if_pos h0, if_neg (by simp [h0]), if_neg (by simp [h0]), h0]
    exact ⟨[], rfl, .nil, rfl⟩
  · have hl : lits.length ≠ 0 := by simpa using h0
    rw [if_neg h0, if_pos hl, if_pos hl, h.outBits]
    refine ⟨[⟨none, s.ic + 1⟩], List.append_nil _, .stores ?_ .nil, rfl⟩
    rw [below_cons]
    exact and_iff_left below_nil

/-- Coding a run lays out what is left of the stretch, and the run. -/
theorem codeRun_lays {lits : List ℤ} {n : ℕ} (h : Stretch c slice s lits) :
    ∃ ps, tokensParts c slice (Ana.flush lits ++ runTokens n y) s.ic =
        diffParts c slice lits (u32 (8 * (s.ic + 1))) ++ ps ∧
      Lays limit (limit + 10) (runOps s n) ps ∧
      (codeRun s y n).2 = tokensNext c slice (Ana.flush lits ++ runTokens n y) s.ic := by
  obtain ⟨ps, hps, hlays, hnext⟩ := h.flush limit
  rw [tokensParts_append, tokensNext_append, hps, hnext]
  unfold runOps codeRun
  by_cases hl : s.lrun ≠ 0
  · rw [if_pos hl] at hlays
    rw [if_pos hl, if_pos hl, if_pos hl]
    obtain ⟨hruns, hb⟩ := @runs_lays c slice limit y (limit + 10) (u32 (s.outBits + 7) / 8) n
      (put s.x s.ic (BitVec.ofNat 8 s.lrun))
    exact ⟨_, List.append_assoc _ _ _, hlays.append hruns, hb⟩
  · rw [if_neg hl] at hlays
    rw [if_neg hl, if_neg hl, if_neg hl]
    obtain ⟨hruns, hb⟩ := @runs_lays c slice limit y (limit + 10) s.ic n s.x
    exact ⟨_, List.append_assoc _ _ _, hlays.append hruns, hb⟩

/-- A difference that joins an open stretch. -/
theorem Stretch.grow {lits : List ℤ} (h : Stretch c slice s lits) (hl : lits.length < 127) :
    nextLiteral s = { s with lrun := s.lrun + 1 } ∧
      (literalLine c slice y s).ic = s.ic ∧ Stretch c slice (literalLine c slice y s) (lits ++ [y]) := by
  have hlrun := h.lrun
  have hnext : nextLiteral s = { s with lrun := s.lrun + 1 } := if_neg (by omega)
  have hline : literalLine c slice y s = ⟨(crunchDiff c slice y ⟨s.x, s.outBits⟩).x,
      (crunchDiff c slice y ⟨s.x, s.outBits⟩).outBits, s.ic, s.lrun + 1⟩ := by rw [literalLine, hnext]
  rw [hline]
  refine ⟨hnext, rfl, ?_, ?_, ?_⟩
  · rw [hlrun, List.length_append, List.length_singleton]
  · rw [List.length_append, List.length_singleton]
    omega
  · rw [crunchDiff_outBits, diffNext_append, ← h.outBits]
    rfl

/-- The 128th difference begins another one. -/
theorem Stretch.renew {lits : List ℤ} (h : Stretch c slice s lits) (hl : lits.length = 127) :
    (nextLiteral s).outBits = u32 (8 * (u32 (s.outBits + 7) / 8 + 1)) ∧
      (literalLine c slice y s).ic = u32 (s.outBits + 7) / 8 ∧
      Stretch c slice (literalLine c slice y s) [y] := by
  have hlrun := h.lrun
  have hnext : nextLiteral s = ⟨put s.x s.ic 127, u32 (8 * (u32 (s.outBits + 7) / 8 + 1)),
      u32 (s.outBits + 7) / 8, 1⟩ := if_pos (by omega)
  generalize u32 (s.outBits + 7) / 8 = ic at hnext ⊢
  have hline : literalLine c slice y s = ⟨(crunchDiff c slice y ⟨put s.x s.ic 127, u32 (8 * (ic + 1))⟩).x,
      (crunchDiff c slice y ⟨put s.x s.ic 127, u32 (8 * (ic + 1))⟩).outBits, ic, 1⟩ := by
    rw [literalLine, hnext]
  rw [hline]
  refine ⟨by rw [hnext], rfl, rfl, by simp, ?_⟩
  rw [crunchDiff_outBits]
  rfl

/-- **The line loop lays out the tokens** of what is in the open stretch and what is left of the block,
but for the differences that are in the output already. -/
theorem lineOps_lays (hfix : ∀ j, c.fixedBytes slice j ≤ 10) : ∀ {nc d : ℕ} {s : Line} {lits : List ℤ},
    Stretch c slice s lits →
    ∃ ps, tokensParts c slice (tokenize lits (segment dif d nc)) s.ic =
        diffParts c slice lits (u32 (8 * (s.ic + 1))) ++ ps ∧
      Lays limit (limit + 10) (lineOps c slice dif nc d s).1 ps ∧
      ((lits ≠ [] ∨ nc ≠ 0) → (lineOps c slice dif nc d s).2.2 =
        tokensNext c slice (tokenize lits (segment dif d nc)) s.ic) := by
  intro nc
  induction nc using Nat.strong_induction_on with
  | _ nc ih =>
    intro d s lits hs
    cases nc with
    | zero =>
      obtain ⟨ps, hps, hlays, hnext⟩ := hs.flush limit
      rw [segment, tokenize, lineOps, hnext]
      refine ⟨ps, hps, ?_, fun h => ?_⟩
      · split_ifs at hlays ⊢ <;> exact hlays
      · have hl : s.lrun ≠ 0 := by
          rw [hs.lrun]
          simpa using h
        rw [if_pos hl, if_pos hl]
    | succ m =>
      have hr := sameAs_le (dif d) (segment dif (d + 1) m)
      rw [segment_length] at hr
      rw [lineOps, segment, tokenize]
      dsimp only
      have hdrop := @segment_drop dif (d + 1) m _ hr
      generalize sameAs (dif d) (segment dif (d + 1) m) = r at hr hdrop ⊢
      by_cases h4 : 4 ≤ 1 + r
      · -- a run
        obtain ⟨ps, hps, hlays, hnext⟩ := @codeRun_lays c slice limit s (dif d) lits (1 + r) hs
        rw [if_pos h4, if_pos h4, hdrop, tokensParts_append, hps, ← hnext, tokensNext_append, ← hnext]
        by_cases hend : m - r = 0
        · rw [if_pos hend, hend, segment, tokenize, Ana.flush, if_pos rfl]
          exact ⟨ps, List.append_nil _, hlays, fun _ => rfl⟩
        · rw [if_neg hend]
          have hs0 : Stretch c slice ⟨(codeRun s (dif d) (1 + r)).1,
              u32 (8 * ((codeRun s (dif d) (1 + r)).2 + 1)), (codeRun s (dif d) (1 + r)).2, 0⟩ [] :=
            ⟨rfl, Nat.zero_le _, rfl⟩
          obtain ⟨qs, hqs, hrest, hend'⟩ := ih (m - r) (by omega) (d := d + 1 + r) hs0
          dsimp only at hqs hend'
          rw [hqs]
          exact ⟨ps ++ qs, List.append_assoc _ _ _, hlays.append hrest, fun _ => hend' (.inr hend)⟩
      · rw [if_neg h4, if_neg h4]
        by_cases h127 : lits.length = 127
        · -- a new literal run count
          obtain ⟨hbits, hic, hs'⟩ := @Stretch.renew c slice s (dif d) lits hs h127
          obtain ⟨ps, hps, hlays, hnext⟩ := hs.flush limit
          obtain ⟨qs, hqs, hrest, hend'⟩ := ih m (by omega) (d := d + 1) hs'
          have hl : s.lrun ≠ 0 := by
            rw [hs.lrun]
            omega
          rw [if_pos hl] at hlays hnext
          rw [if_pos h127, tokensParts_append, tokensNext_append, hps, hnext, ← hic, hqs, literalOps,
            if_pos (by rw [hs.lrun]; omega), hbits, ← hic]
          refine ⟨ps ++ (diffParts c slice [dif d] (u32 (8 * ((literalLine c slice (dif d) s).ic + 1))) ++ qs),
            List.append_assoc _ _ _, ?_, fun _ => hend' (.inl (List.cons_ne_nil _ _))⟩
          rw [List.append_assoc]
          exact hlays.append (.check (below_checked hfix) hrest)
        · -- the stretch goes on
          have hle := hs.le
          obtain ⟨hbits, hic, hs'⟩ := @Stretch.grow c slice s (dif d) lits hs (by omega)
          obtain ⟨qs, hqs, hrest, hend'⟩ := ih m (by omega) (d := d + 1) hs'
          rw [hic] at hqs hend'
          rw [if_neg h127, hqs, diffParts_append, ← hs.outBits, literalOps,
            if_neg (by rw [hs.lrun]; omega), hbits, List.nil_append]
          refine ⟨diffParts c slice [dif d] s.outBits ++ qs, List.append_assoc _ _ _, ?_,
            fun _ => hend' (.inl (by simp))⟩
          exact .check (below_checked hfix) hrest

/-- **The outer loop lays out the blocks.** -/
theorem linesOps_lays (hfix : ∀ j, c.fixedBytes slice j ≤ 10) (hnx : 1 ≤ nx) :
    ∀ {n i ob : ℕ} {s : Out}, s.outBits = u32 (8 * ob) →
    Lays limit (limit + 10) (linesOps c slice nx array junk n i ob s).1 (lineParts c slice nx array n i ob)
  | 0, i, ob, s, _ => .nil
  | n + 1, i, ob, s, hs => by
    have hw := c.width_bytes
    have hu : u32 (u32 (s.outBits + c.width) + 8) = u32 (8 * (ob + c.width / 8 + 1)) := by
      rw [hs]
      simp only [u32]
      omega
    have hseg : segment (lineBuffer c nx array junk i) 0 (nx - 1) = rowDiffs c array (nx - 1) (i + 1) :=
      segment_lineBuffer (by omega)
    rw [linesOps, lineParts, hu]
    dsimp only
    obtain ⟨ps, hps, hlays, hnext⟩ := @lineOps_lays c slice limit (lineBuffer c nx array junk i) hfix
      (nx - 1) 0 ⟨storeBytes s.x ob (array i).toNat 0 (c.width / 8), u32 (8 * (ob + c.width / 8 + 1)),
        ob + c.width / 8, 0⟩ [] ⟨rfl, Nat.zero_le _, rfl⟩
    rw [hseg] at hps hnext
    have hlast : (lineOps c slice (lineBuffer c nx array junk i) (nx - 1) 0
        ⟨storeBytes s.x ob (array i).toNat 0 (c.width / 8), u32 (8 * (ob + c.width / 8 + 1)),
          ob + c.width / 8, 0⟩).2.2 = lineNext c slice nx array i ob := by
      unfold lineNext
      by_cases h1 : nx = 1
      · rw [if_pos h1, h1, lineOps, if_neg (not_not.2 rfl)]
        simp only [u32]
        omega
      · rw [if_neg h1]
        exact hnext (.inr (by omega))
    rw [hlast]
    have hparts : tokensParts c slice (lineTokens c nx array i) (ob + c.width / 8) = ps := hps
    rw [hparts]
    refine Lays.append (.stores ?_ hlays) (linesOps_lays hfix hnx rfl)
    rw [below_cons]
    exact and_iff_left below_nil

end Run

/-! ## What fits -/

section Fits

variable {c : Codec} {slice nx limit room i p b : ℕ} {array : ℕ → BitVec c.width} {dif : ℤ}

/-- As long as the counter does not wrap around, a code word ends where it should. -/
theorem le_wordLast (hp : p + (diffWord c.width slice dif).length < 2 ^ 32) :
    p + (diffWord c.width slice dif).length ≤ 8 * wordLast c slice dif p := by
  rw [diffWord_length] at hp ⊢
  unfold wordLast
  rw [u32_of_lt (n := p + slice) (by omega)]
  dsimp only
  by_cases h31 : zeros (dif >>> slice) < 31
  · rw [if_pos h31] at hp ⊢
    rw [if_pos h31]
    omega
  · rw [if_neg h31] at hp ⊢
    rw [if_neg h31, u32_of_lt (n := p + slice + 32) (by omega)]
    have hesc := (c.esc_fits ((p + slice + 32) % 8) (Nat.mod_lt _ (by decide))).2
    have hmax := Nat.le_max_right ((p + slice + 31) / 8 + 1) ((p + slice + 32) / 8 + c.escBytes)
    omega

variable (hslice : slice < 32) (hwidth : c.width ≤ 32) (hroom : room ≤ 2 ^ 29 - 14)

include hslice hwidth hroom

/-- Differences whose code words have room end where they should. -/
theorem diffNext_eq : ∀ {ds : List ℤ} {p : ℕ}, (∀ q ∈ diffParts c slice ds p, q.last ≤ room) →
    p ≤ 8 * room + 8 → diffNext c slice ds p = p + (diffsWord c slice ds).length ∧
      (ds ≠ [] → p + (diffsWord c slice ds).length ≤ 8 * room)
  | [], p, _, _ => ⟨rfl, absurd rfl⟩
  | dif :: ds, p, hlast, hp => by
    rw [diffParts] at hlast
    obtain ⟨hfirst, hrest⟩ := List.forall_mem_cons.1 hlast
    dsimp only at hfirst
    have hlen := @diffWord_length_le c.width slice dif
    have hword := @le_wordLast c slice p dif (by omega)
    have hu : u32 (p + (diffWord c.width slice dif).length) = p + (diffWord c.width slice dif).length :=
      u32_of_lt (by omega)
    rw [hu] at hrest
    obtain ⟨hnext, hle⟩ := diffNext_eq hrest (by omega)
    rw [diffNext, hu, hnext, diffsWord_cons, List.length_append]
    refine ⟨by omega, fun _ => ?_⟩
    by_cases hds : ds = []
    · rw [hds, diffsWord_nil, List.length_nil]
      omega
    · have := hle hds
      omega

/-- **Blocks that have room fit**: the stream is as long as its parts say. -/
theorem blockParts_fit : ∀ {n i b : ℕ}, (∀ q ∈ blockParts c slice nx array n i b, q.last ≤ room) →
    b ≤ room → 8 * b + (streamWord c slice nx array n i).length ≤ 8 * room
  | 0, i, b, _, hb => by
    rw [streamWord, List.length_nil]
    omega
  | n + 1, i, b, hlast, hb => by
    have hw := c.width_bytes
    rw [blockParts] at hlast
    obtain ⟨hfirst, hlast⟩ := List.forall_mem_cons.1 hlast
    obtain ⟨hdiffs, hrest⟩ := List.forall_mem_append.1 hlast
    dsimp only at hfirst
    have hu : u32 (8 * b + c.width) = 8 * b + c.width := u32_of_lt (by omega)
    rw [hu] at hdiffs hrest
    obtain ⟨hnext, hle⟩ := diffNext_eq hslice hwidth hroom hdiffs (by omega)
    have hend : 8 * b + c.width + (diffsWord c slice (rowDiffs c array (nx - 1) (i + 1))).length ≤ 8 * room := by
      by_cases hds : rowDiffs c array (nx - 1) (i + 1) = []
      · rw [hds, diffsWord_nil, List.length_nil]
        omega
      · exact hle hds
    rw [hnext, u32_of_lt (by omega)] at hrest
    have hfit := blockParts_fit hrest (by omega)
    rw [streamWord, List.length_append, blockWord, List.length_append, padding_length, List.length_append,
      lowBits_length]
    omega

/-- Tokens that have room end where they should. -/
theorem tokensNext_eq : ∀ {ts : List Token} {b : ℕ}, (∀ t ∈ ts, t.Valid) →
    (∀ q ∈ tokensParts c slice ts b, q.last ≤ room) → b ≤ room →
    8 * tokensNext c slice ts b = 8 * b + (tokensWord c slice ts).length ∧ tokensNext c slice ts b ≤ room
  | [], b, _, _, hb => ⟨by rw [tokensNext, tokensWord_nil, List.length_nil, Nat.add_zero], hb⟩
  | t :: ts, b, hvalid, hlast, hb => by
    obtain ⟨ht, hts⟩ := List.forall_mem_cons.1 hvalid
    rw [tokensParts] at hlast
    obtain ⟨hparts, hrest⟩ := List.forall_mem_append.1 hlast
    rw [tokensNext, tokensWord_cons, List.length_append]
    have htoken : 8 * tokenNext c slice t b = 8 * b + (t.word c slice).length ∧ tokenNext c slice t b ≤ room := by
      cases t with
      | run n y =>
        have hrun := hparts _ List.mem_cons_self
        dsimp only at hrun
        simp only [tokenNext, Token.word, List.length_append, lowBits_length]
        omega
      | literal ds =>
        obtain ⟨hdiffs, -⟩ := List.forall_mem_append.1 hparts
        have hu : u32 (8 * (b + 1)) = 8 * (b + 1) := u32_of_lt (by omega)
        rw [hu] at hdiffs
        obtain ⟨hnext, hle⟩ := diffNext_eq hslice hwidth hroom hdiffs (by omega)
        have hne := hle (List.length_pos_iff.1 ht.1)
        rw [tokenNext, hu, hnext, u32_of_lt (by omega)]
        simp only [Token.word, List.length_append, lowBits_length, padding_length]
        omega
    obtain ⟨hnext, hle⟩ := tokensNext_eq hts hrest htoken.2
    exact ⟨by omega, hle⟩

/-- **Blocks of runs and stretches that have room fit**, unless they are of one sample. -/
theorem lineParts_fit (hnx : 2 ≤ nx) : ∀ {n i b : ℕ}, (∀ q ∈ lineParts c slice nx array n i b, q.last ≤ room) →
    b ≤ room → 8 * b + linesBits c slice nx array n i ≤ 8 * room
  | 0, i, b, _, hb => by
    rw [linesBits]
    omega
  | n + 1, i, b, hlast, hb => by
    have hw := c.width_bytes
    rw [lineParts] at hlast
    obtain ⟨hfirst, hlast⟩ := List.forall_mem_cons.1 hlast
    obtain ⟨htokens, hrest⟩ := List.forall_mem_append.1 hlast
    dsimp only at hfirst
    have hvalid : ∀ t ∈ lineTokens c nx array i, t.Valid := tokenize_valid (Nat.zero_le _)
    obtain ⟨hnext, hle⟩ := tokensNext_eq hslice hwidth hroom hvalid htokens hfirst
    rw [lineNext, if_neg (by omega)] at hrest
    have hfit := lineParts_fit hnx hrest hle
    have hgap : gap [] (nx - 1) = 0 := if_neg fun h => absurd h.2 (by omega)
    rw [linesBits, lineBits, hgap]
    omega

end Fits

section Spare

variable {c : Codec} {slice nx limit p : ℕ} {array : ℕ → BitVec c.width} {dif : ℤ}

/-- Where a code word ends that starts at a byte that passes the check. -/
theorem wordLast_le (hslice : slice < 32) (hlimit : limit ≤ 2 ^ 28) (hp : p / 8 ≤ limit) :
    wordLast c slice dif p ≤ max (limit + (slice + 46) / 8) (limit + (slice + 39) / 8 + c.escBytes) := by
  have hsplit : ∀ k, (8 * limit + k) / 8 = limit + k / 8 := Nat.mul_add_div (by decide) limit
  have hle : p ≤ 8 * limit + 7 := by omega
  unfold wordLast
  rw [u32_of_lt (n := p + slice) (by omega)]
  dsimp only
  by_cases h31 : zeros (dif >>> slice) < 31
  · rw [if_pos h31, ← Nat.add_div_right _ (by decide), ← hsplit]
    exact le_max_of_le_left (Nat.div_le_div_right (by omega))
  · rw [if_neg h31, u32_of_lt (n := p + slice + 32) (by omega), ← Nat.add_div_right _ (by decide), ← hsplit, ← hsplit]
    exact max_le_max (Nat.div_le_div_right (by omega)) (Nat.add_le_add_right (Nat.div_le_div_right (by omega)) _)

variable (hslice : slice < 32) (hwidth : c.width ≤ 32) (hlimit : limit ≤ 2 ^ 28)
  (hword : max ((slice + 46) / 8) ((slice + 39) / 8 + c.escBytes) ≤ 10)

include hslice hlimit hword

/-- Differences that are checked have room. -/
theorem diffParts_room : ∀ {ds : List ℤ} {p : ℕ}, Room limit (limit + 10) (diffParts c slice ds p)
  | [], _ => trivial
  | dif :: ds, p => by
    rw [diffParts]
    by_cases hp : p / 8 ≤ limit
    · have hlast := @wordLast_le c slice limit p dif hslice hlimit hp
      refine .inr ⟨?_, diffParts_room⟩
      dsimp only
      omega
    · exact .inl ⟨p / 8, rfl, by omega⟩

include hwidth

omit hword in
/-- Where differences end that all pass their checks. -/
theorem diffNext_le : ∀ {ds : List ℤ} {p : ℕ}, ds ≠ [] → ¬ Stops limit (diffParts c slice ds p) →
    diffNext c slice ds p ≤ 8 * limit + (slice + c.width + 40)
  | [], _, hds, _ => absurd rfl hds
  | dif :: ds, p, _, hstops => by
    rw [diffParts, not_stops_cons] at hstops
    have hp : p / 8 ≤ limit := hstops.1 _ rfl
    have hlen := @diffWord_length_le c.width slice dif
    rw [diffNext]
    by_cases hds : ds = []
    · rw [hds, diffNext, u32_of_lt (by omega)]
      omega
    · exact diffNext_le hds hstops.2

/-- **Blocks of two samples or more have room**, if a code word and a first value always have. -/
theorem blockParts_room (hnx : 2 ≤ nx) (hfirst : (slice + c.width + 47) / 8 + c.width / 8 ≤ 10) :
    ∀ {n i b : ℕ}, b + c.width / 8 ≤ limit + 10 →
      Room limit (limit + 10) (blockParts c slice nx array n i b)
  | 0, _, _, _ => trivial
  | n + 1, i, b, hb => by
    rw [blockParts]
    refine .inr ⟨hb, (diffParts_room hslice hlimit hword).append fun hstops =>
      blockParts_room hnx hfirst ?_⟩
    have hds : rowDiffs c array (nx - 1) (i + 1) ≠ [] := by
      obtain ⟨k, rfl⟩ := Nat.exists_eq_add_of_le' hnx
      exact List.cons_ne_nil _ _
    have hnext := diffNext_le hslice hwidth hlimit hds hstops
    rw [u32_of_lt (by omega)]
    omega

end Spare

/-! ## The five encoders -/

section Calls

variable {c : Codec} {slice nx ny limit type : ℕ} {array : ℕ → BitVec c.width} {junk : ℕ → ℤ} {x : Buf}

/-- A plain encoder gives up exactly if a check fails. -/
theorem crunch_eq_none (hlimit : 25 ≤ limit) : crunch c slice limit nx array type x ny = none ↔
    ¬ Completes (limit - 24) (rowsOps c slice nx array ny 0 0 ⟨x, 0⟩).1 := by
  rw [crunch, if_neg (by omega), Option.bind_eq_bind, Option.bind_eq_none_iff]
  constructor
  · intro h hc
    exact Option.some_ne_none _ (h _ (crunchRows_iff.2 ⟨hc, rfl⟩))
  · intro h r hr
    exact absurd (crunchRows_iff.1 hr).1 h

theorem crunchrun_eq_none (hnx : 1 ≤ nx) (hlimit : 25 ≤ limit) :
    crunchrun c slice limit nx array junk type x ny = none ↔
      ¬ Completes (limit - 24) (linesOps c slice nx array junk ny 0 0 ⟨x, 0⟩).1 := by
  rw [crunchrun, if_neg (by omega), Option.bind_eq_bind, Option.bind_eq_none_iff]
  constructor
  · intro h hc
    exact Option.some_ne_none _ (h _ ((crunchLines_iff hnx).2 ⟨hc, rfl⟩))
  · intro h r hr
    exact absurd ((crunchLines_iff hnx).1 hr).1 h

end Calls

inductive Encoder where
  | anacrunch8
  | anacrunch
  | anacrunch32
  | anacrunchrun8
  | anacrunchrun
  deriving DecidableEq

namespace Encoder

def codec : Encoder → Codec
  | anacrunch8 => ana8
  | anacrunch => ana16
  | anacrunch32 => ana32
  | anacrunchrun8 => anaRun8
  | anacrunchrun => anaRun16

/-- The slice size that positions go by: `anacrunch8` takes no more than 8. -/
def sliceOf : Encoder → ℕ → ℕ
  | anacrunch8, slice => if slice > 8 then 8 else slice
  | _, slice => slice

section Model

variable (e : Encoder) (slice nx ny limit : ℕ) (array : ℕ → BitVec e.codec.width) (x : Buf) (junk : ℕ → ℤ)

/-- The call; `none` is the return value `-1`. -/
def call : Option Compressed :=
  match e with
  | anacrunch8 => Ana.anacrunch8 x array (anacrunch8.sliceOf slice) nx ny limit
  | anacrunch => Ana.anacrunch x array slice nx ny limit
  | anacrunch32 => Ana.anacrunch32 x array slice nx ny limit
  | anacrunchrun8 => Ana.anacrunchrun8 x array slice nx ny limit junk
  | anacrunchrun => Ana.anacrunchrun x array slice nx ny limit junk

/-- What the call does to the output behind the header. -/
def ops : List Op :=
  match e with
  | anacrunchrun8 => (linesOps anaRun8 slice nx array junk ny 0 0 ⟨x, 0⟩).1
  | anacrunchrun => (linesOps anaRun16 slice nx array junk ny 0 0 ⟨x, 0⟩).1
  | e => (rowsOps e.codec (e.sliceOf slice) nx array ny 0 0 ⟨x, 0⟩).1

/-- The bytes of the compressed data behind the header. -/
def size : ℕ :=
  match e with
  | anacrunchrun8 => runBits anaRun8 slice nx array ny / 8
  | anacrunchrun => runBits anaRun16 slice nx array ny / 8
  | e => streamBits e.codec (e.sliceOf slice) nx array ny / 8

/-- The parts of the compressed data: first values, code words, runs and count bytes. -/
def parts : List Part :=
  match e with
  | anacrunchrun8 => lineParts anaRun8 slice nx array ny 0 0
  | anacrunchrun => lineParts anaRun16 slice nx array ny 0 0
  | e => blockParts e.codec (e.sliceOf slice) nx array ny 0 0

/-- All bytes written, those of the header included, lie in the first `limit` bytes of the output, and
data that does not fit is turned down. -/
def InBounds : Prop :=
  (14 ≤ limit ∧ ∀ st ∈ written (limit - 24) (e.ops slice nx ny array x junk), 14 + (st.1 + st.2) ≤ limit) ∧
  (limit < 14 + e.size slice nx ny array → e.call slice nx ny limit array x junk = none)

/-- The parts have room, up to the first difference that starts more than `limit - 24` bytes behind the
header.  If the bit counter may wrap around, or a block has one sample and no difference, then there is
such a difference or all of the data fits. -/
def HasRoom : Prop :=
  Room (limit - 24) (limit - 14) (e.parts slice nx ny array) ∧
  (2 ≤ nx ∧ limit ≤ 2 ^ 29 ∨ 14 + e.size slice nx ny array ≤ limit ∨
    Stops (limit - 24) (e.parts slice nx ny array))

end Model

section Bounds

variable {e : Encoder} {slice nx ny limit : ℕ} {array : ℕ → BitVec e.codec.width} {x : Buf} {junk : ℕ → ℤ}

theorem fixedBytes_le (e : Encoder) (slice j : ℕ) : e.codec.fixedBytes slice j ≤ 10 := by
  cases e <;> simp only [codec, ana8, ana16, ana32, anaRun8, anaRun16, runBytes] <;> split_ifs <;> omega

/-- A call does what its `ops` say. -/
theorem call_eq_none (hnx : 1 ≤ nx) (hlimit : 25 ≤ limit) :
    e.call slice nx ny limit array x junk = none ↔ ¬ Completes (limit - 24) (e.ops slice nx ny array x junk) := by
  cases e
  · exact crunch_eq_none hlimit
  · exact crunch_eq_none hlimit
  · exact crunch_eq_none hlimit
  · exact crunchrun_eq_none hnx hlimit
  · exact crunchrun_eq_none hnx hlimit

/-- What the program lays out are the parts. -/
theorem ops_lays (hnx : 1 ≤ nx) (l : ℕ) :
    Lays l (l + 10) (e.ops slice nx ny array x junk) (e.parts slice nx ny array) := by
  have hfix := e.fixedBytes_le
  cases e
  · exact rowsOps_lays (hfix _) rfl
  · exact rowsOps_lays (hfix _) rfl
  · exact rowsOps_lays (hfix _) rfl
  · exact linesOps_lays (hfix _) hnx rfl
  · exact linesOps_lays (hfix _) hnx rfl

/-- A call gives up exactly if a difference starts too far behind. -/
theorem call_iff_stops (hnx : 1 ≤ nx) (hlimit : 25 ≤ limit) :
    e.call slice nx ny limit array x junk = none ↔ Stops (limit - 24) (e.parts slice nx ny array) := by
  rw [call_eq_none hnx hlimit, (ops_lays hnx _).completes_iff, not_not]

theorem sliceOf_lt (hslice : slice < 32) : e.sliceOf slice < 32 := by
  cases e
  · simp only [sliceOf]
    split_ifs <;> omega
  all_goals exact hslice

/-- What has room in blocks of two samples or more fits. -/
theorem parts_fit (hslice : slice < 32) (hnx : 2 ≤ nx) (hlimit : limit ≤ 2 ^ 29) (h14 : 14 ≤ limit)
    (hlast : ∀ q ∈ e.parts slice nx ny array, q.last ≤ limit - 14) : 14 + e.size slice nx ny array ≤ limit := by
  have hroom : limit - 14 ≤ 2 ^ 29 - 14 := by omega
  have hbits : ∀ {n : ℕ}, 8 * 0 + n ≤ 8 * (limit - 14) → 14 + n / 8 ≤ limit := fun h => by omega
  cases e
  · exact hbits (blockParts_fit (@sliceOf_lt anacrunch8 slice hslice) (by decide) hroom hlast (Nat.zero_le _))
  · exact hbits (blockParts_fit hslice (by decide) hroom hlast (Nat.zero_le _))
  · exact hbits (blockParts_fit hslice (by decide) hroom hlast (Nat.zero_le _))
  · exact hbits (lineParts_fit hslice (by decide) hroom hnx hlast (Nat.zero_le _))
  · exact hbits (lineParts_fit hslice (by decide) hroom hnx hlast (Nat.zero_le _))

/-- The 8 bit encoder always has room, and the 16 bit one with code words that are not long, for blocks of two
samples or more. -/
theorem hasRoom_of_plain (he : e = anacrunch8 ∨ e = anacrunch ∧ slice ≤ 8) (hslice : slice < 32)
    (hnx : 2 ≤ nx) (hlimit : 25 ≤ limit) (hmax : limit ≤ 2 ^ 28) :
    e.HasRoom slice nx ny limit array := by
  refine ⟨?_, .inl ⟨hnx, by omega⟩⟩
  rw [show limit - 14 = limit - 24 + 10 by omega]
  rcases he with rfl | ⟨rfl, h8⟩
  · have h8 : anacrunch8.sliceOf slice ≤ 8 := by
      simp only [sliceOf]
      split_ifs <;> omega
    have hesc : anacrunch8.codec.escBytes = 2 := rfl
    have hwidth : anacrunch8.codec.width = 8 := rfl
    exact blockParts_room (by omega) (by decide) (by omega) (by omega) hnx (by omega) (by omega)
  · have hesc : anacrunch.codec.escBytes = 3 := rfl
    have hwidth : anacrunch.codec.width = 16 := rfl
    exact blockParts_room hslice (by decide) (by omega) (by omega) hnx (by omega) (by omega)

/-- **The encoders stay inside the output exactly where the parts of the data have room**, as those of the 8 bit
encoder always have, and those of the 16 bit one with code words that are not long, for blocks of two samples or
more. -/
theorem inBounds_iff_hasRoom (hslice : slice < 32) (hnx : 1 ≤ nx) (hlimit : 25 ≤ limit) :
    (e.InBounds slice nx ny limit array x junk ↔ e.HasRoom slice nx ny limit array) ∧
      ((e = anacrunch8 ∨ e = anacrunch ∧ slice ≤ 8) → 2 ≤ nx → limit ≤ 2 ^ 28 →
        e.HasRoom slice nx ny limit array) := by
  refine ⟨?_, fun he h2 hmax => hasRoom_of_plain he hslice h2 hlimit hmax⟩
  have hlays := @ops_lays e slice nx ny array x junk hnx (limit - 24)
  have hbelow : (∀ st ∈ written (limit - 24) (e.ops slice nx ny array x junk), 14 + (st.1 + st.2) ≤ limit) ↔
      Room (limit - 24) (limit - 14) (e.parts slice nx ny array) := by
    rw [show limit - 14 = limit - 24 + 10 by omega, ← hlays.below_iff]
    exact forall₂_congr fun st _ => by omega
  have h14 : 14 ≤ limit := by omega
  rw [InBounds, HasRoom, hbelow, call_iff_stops hnx hlimit, and_iff_right h14]
  refine and_congr_right fun hroom => ?_
  constructor
  · intro h
    by_cases hfit : limit < 14 + e.size slice nx ny array
    · exact .inr (.inr (h hfit))
    · exact .inr (.inl (by omega))
  · rintro (⟨h2, hwrap⟩ | hfit | hstops) hlarge
    · by_contra hstops
      have hfits := parts_fit hslice h2 hwrap (by omega) (hroom.all hstops)
      omega
    · omega
    · exact hstops

/-- A block of a first value and a difference has room in 25 bytes. -/
theorem anacrunch8_pair : anacrunch8.InBounds 5 2 1 25 (fun _ => 0) (fun _ => 0) (fun _ => 0) := by
  refine (inBounds_iff_hasRoom (by decide) (by decide) (by decide)).1.2 ⟨?_, .inl ⟨by decide, by decide⟩⟩
  exact .inr ⟨by decide, .inr ⟨by decide, trivial⟩⟩

/-- 17 blocks of one sample in the 25 bytes that `compressData` has for them: nothing is ever checked. -/
theorem anacrunch8_column : ¬ ∀ (e : Encoder) (slice nx ny limit : ℕ) (array : ℕ → BitVec e.codec.width)
    (x : Buf) (junk : ℕ → ℤ), slice < 32 → 1 ≤ nx → 1 ≤ ny → 25 ≤ limit →
      e.InBounds slice nx ny limit array x junk := by
  intro h
  have hcall := (h anacrunch8 5 1 17 25 (fun _ => 0) (fun _ => 0) (fun _ => 0) (by decide) (by decide)
    (by decide) (by decide)).2 (by decide +kernel)
  obtain ⟨p, hp, i, hi, -⟩ := (call_iff_stops (by decide) (by decide)).1 hcall
  have hcheck : ∀ p ∈ anacrunch8.parts 5 1 17 (fun _ => 0), p.check = none := by decide +kernel
  rw [hcheck p hp] at hi
  exact nomatch hi

end Bounds

end Encoder

end Redux.Ana
