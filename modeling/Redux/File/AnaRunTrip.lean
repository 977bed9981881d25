import Redux.File.AnaToken

/-!
# File.AnaRunTrip — the round trip of the run-length codecs

The encoder's line loop appends the words of the tokens (`crunchLine_spec`), the decoder's token loop
takes them off again (`decrunchTokens_word`).  A block of one sample is the exception: the encoder
moves over a count byte that it does not use.  The 8 bit decoder, which counts the first sample with
16 bits, happens to move over it too; the 16 bit decoder does not.
-/

namespace Redux.Ana

open Redux.Lib

/-! ## Runs and stretches in the buffer -/

section Encoder

variable {c : Codec} {slice limit : ℕ} {dif : ℕ → ℤ}

/-- A run is appended at a byte boundary. -/
theorem storeRun_appends {x : Buf} {outBytes n : ℕ} {b : BitVec 8} {y : ℤ} (hb : b.toNat = 257 - n) :
    Appends (lsb x) (lsb (storeRun x outBytes b y)) (8 * outBytes)
      ((Token.run n y).word c slice) := by
  have h₁ := appends_put (x := x) (i := outBytes) (b := b)
  have h₂ := appends_bytes (x := put x outBytes b) (i := outBytes + 1) (v := (y % 2 ^ 32).toNat) (n := 2)
  rw [hb] at h₁
  exact h₁.trans (by simpa [Nat.mul_add, storeRun] using h₂)

theorem runByte_toNat {n : ℕ} (h : 2 ≤ n) (h' : n ≤ 128) :
    (BitVec.ofInt 8 (-((n : ℤ) - 1))).toNat = 257 - n := by
  rw [BitVec.toNat_ofInt]
  omega

/-- Long runs go in piece by piece. -/
theorem storeRuns_appends {x : Buf} {outBytes n : ℕ} {y : ℤ} (hn : 2 ≤ n) :
    Appends (lsb x) (lsb (storeRuns x outBytes y n).1) (8 * outBytes)
        (tokensWord c slice (runTokens n y)) ∧
      8 * (storeRuns x outBytes y n).2 =
        8 * outBytes + (tokensWord c slice (runTokens n y)).length := by
  have hlen : ∀ n y, ((Token.run n y).word c slice).length = 24 := fun _ _ => by simp [Token.word]
  fun_induction storeRuns x outBytes y n with
  | case1 x outBytes h ih =>
    obtain ⟨ha, hb⟩ := ih (by omega)
    have hr := @storeRun_appends c slice x outBytes 127 0x82 y rfl
    rw [runTokens, if_pos h, if_pos rfl, tokensWord_cons, List.length_append, hlen]
    exact ⟨hr.trans (by rw [hlen, ← Nat.mul_add 8 outBytes 3]; exact ha), by omega⟩
  | case2 x outBytes n h h129 ih =>
    obtain ⟨ha, hb⟩ := ih (by omega)
    have hr := @storeRun_appends c slice x outBytes 128 0x81 y rfl
    rw [runTokens, if_pos h, if_neg h129, tokensWord_cons, List.length_append, hlen]
    exact ⟨hr.trans (by rw [hlen, ← Nat.mul_add 8 outBytes 3]; exact ha), by omega⟩
  | case3 x outBytes n h =>
    have hr := @storeRun_appends c slice x outBytes _ _ y (runByte_toNat hn (by omega))
    rw [runTokens, if_neg h, tokensWord_cons, tokensWord_nil, List.append_nil, hlen]
    exact ⟨hr, by omega⟩

variable (c slice) in
/-- The state inside a stretch: the byte `ic` is reserved, the differences `lits` lie behind it. -/
structure Pending (s : Line) (lits : List ℤ) : Prop where
  lrun : s.lrun = lits.length
  le : lits.length ≤ 127
  outBits : s.outBits = 8 * (s.ic + 1) + (diffsWord c slice lits).length
  word : Holds (lsb s.x) (8 * (s.ic + 1)) (diffsWord c slice lits)
  clean : Clean (lsb s.x) s.outBits

variable {s : Line} {lits : List ℤ}

/-- Filling in the count byte makes the stretch a token. -/
theorem Pending.close (h : Pending c slice s lits) (hlt : s.outBits + 7 < 2 ^ 32) :
    Appends (lsb s.x) (lsb (put s.x s.ic (BitVec.ofNat 8 s.lrun))) (8 * s.ic)
        ((Token.literal lits).word c slice) ∧
      8 * (u32 (s.outBits + 7) / 8) = 8 * s.ic + ((Token.literal lits).word c slice).length := by
  have hput := appends_put (x := s.x) (i := s.ic) (b := BitVec.ofNat 8 s.lrun)
  have hkeep : ∀ k, 8 * (s.ic + 1) ≤ k →
      lsb (put s.x s.ic (BitVec.ofNat 8 s.lrun)) k = lsb s.x k := fun k hk => by
    rw [lsb_put, if_neg (by omega)]
  have hdiffs : Appends (lsb (put s.x s.ic (BitVec.ofNat 8 s.lrun)))
      (lsb (put s.x s.ic (BitVec.ofNat 8 s.lrun))) (8 * (s.ic + 1)) (diffsWord c slice lits) := by
    refine ⟨fun _ _ => rfl, h.word.congr fun k hk _ => hkeep k hk, fun k hk hk' => ?_⟩
    rw [hkeep k (by omega), h.clean k (by rw [h.outBits]; exact hk) (by rw [h.outBits]; exact hk')]
  have hpad := hdiffs.pad
  rw [padding_add (by omega)] at hpad
  have hn : (BitVec.ofNat 8 s.lrun).toNat = lits.length := by
    have := h.le
    rw [BitVec.toNat_ofNat, h.lrun]
    omega
  rw [hn] at hput
  refine ⟨hput.trans (by simpa [Nat.mul_add] using hpad), ?_⟩
  rw [u32_of_lt hlt, h.outBits]
  simp only [Token.word, List.length_append, lowBits_length, padding_length]
  omega

/-- An open stretch is flushed, an empty one gives its byte back. -/
theorem codeRun_appends {y : ℤ} {n : ℕ} (h : Pending c slice s lits) (hn : 2 ≤ n)
    (hlt : s.outBits + 7 < 2 ^ 32) :
    Appends (lsb s.x) (lsb (codeRun s y n).1) (8 * s.ic)
        (tokensWord c slice (flush lits ++ runTokens n y)) ∧
      8 * (codeRun s y n).2 =
        8 * s.ic + (tokensWord c slice (flush lits ++ runTokens n y)).length := by
  unfold codeRun flush
  by_cases h0 : lits = []
  · have hl : s.lrun = 0 := by rw [h.lrun, h0]; rfl
    rw [if_neg (by omega), if_pos h0, List.nil_append]
    exact storeRuns_appends hn
  · have hl : s.lrun ≠ 0 := by rw [h.lrun]; simpa using h0
    obtain ⟨hc, hb⟩ := h.close hlt
    rw [if_pos hl, if_neg h0, tokensWord_append, tokensWord_cons, tokensWord_nil, List.append_nil,
      List.length_append]
    obtain ⟨hr, hr'⟩ := storeRuns_appends (c := c) (x := put s.x s.ic (BitVec.ofNat 8 s.lrun)) (y := y) hn
    rw [hb] at hr
    exact ⟨hc.trans hr, by omega⟩

/-- The differences `dif[d], …, dif[d+n-1]`. -/
def segment (dif : ℕ → ℤ) : ℕ → ℕ → List ℤ
  | _, 0 => []
  | d, n + 1 => dif d :: segment dif (d + 1) n

@[simp] theorem segment_length : ∀ {d n : ℕ}, (segment dif d n).length = n
  | _, 0 => rfl
  | d, n + 1 => by rw [segment, List.length_cons, segment_length]

theorem segment_drop : ∀ {d n k : ℕ}, k ≤ n → (segment dif d n).drop k = segment dif (d + k) (n - k)
  | d, n, 0, _ => by simp
  | d, 0, k + 1, h => by omega
  | d, n + 1, k + 1, h => by
    rw [segment, List.drop_succ_cons, segment_drop (by omega), show d + 1 + k = d + (k + 1) by omega,
      show n - k = n + 1 - (k + 1) by omega]

/-- The scan for a run stops behind the last equal difference. -/
theorem countRun_eq {y : ℤ} : ∀ {nc nrun dd : ℕ}, 1 ≤ nc → countRun dif y nc nrun dd =
    (nrun + sameAs y (segment dif dd (nc - 2)), nc - sameAs y (segment dif dd (nc - 2)) - 1,
      dd + sameAs y (segment dif dd (nc - 2)))
  | 0, _, _, h => absurd h (by decide)
  | 1, nrun, dd, _ => by simp [countRun, segment, sameAs]
  | 2, nrun, dd, _ => by simp [countRun, segment, sameAs]
  | nc + 3, nrun, dd, _ => by
    rw [countRun, show nc + 3 - 2 = nc + 1 by omega, segment, sameAs]
    by_cases h : y = dif dd
    · rw [if_pos ⟨by omega, h⟩, if_pos h, countRun_eq (by omega), show nc + 2 - 2 = nc by omega]
      simp only [Prod.mk.injEq]
      omega
    · rw [if_neg (fun hc => h hc.2), if_neg h]
      simp

/-- What the run check sees: `1 + sameAs` equal differences, unless only one is left. -/
theorem countRun_segment {y : ℤ} {nc d : ℕ} (h2 : 2 ≤ nc) (hy : y = dif (d + 1)) :
    countRun dif y nc 2 (d + 2) = (1 + sameAs y (segment dif (d + 1) (nc - 1)),
      nc - sameAs y (segment dif (d + 1) (nc - 1)),
      d + 1 + sameAs y (segment dif (d + 1) (nc - 1))) := by
  have hs : sameAs y (segment dif (d + 1) (nc - 1)) = sameAs y (segment dif (d + 2) (nc - 2)) + 1 := by
    rw [show nc - 1 = nc - 2 + 1 by omega, segment, sameAs, if_pos hy]
  rw [countRun_eq (by omega), hs]
  simp only [Prod.mk.injEq]
  omega

/-- A difference joins an open stretch. -/
theorem codeLiteral_grow {y : ℤ} (h1 : 1 ≤ slice) (hw : slice < c.width)
    (h : Pending c slice s lits) (hl : lits.length < 127) (hlim : s.outBits / 8 ≤ limit)
    (hlt : s.outBits + (diffWord c.width slice y).length < 2 ^ 32) :
    ∃ s', codeLiteral c slice limit y s = some s' ∧ s'.ic = s.ic ∧
      Pending c slice s' (lits ++ [y]) ∧ ∀ k < 8 * (s.ic + 1), lsb s'.x k = lsb s.x k := by
  obtain ⟨ha, hb⟩ := crunchDiff_appends (c := c) (s := ⟨s.x, s.outBits⟩) h1 hw h.clean hlt
  have hlr := h.lrun
  have hob := h.outBits
  refine ⟨⟨(crunchDiff c slice y ⟨s.x, s.outBits⟩).x, (crunchDiff c slice y ⟨s.x, s.outBits⟩).outBits,
    s.ic, s.lrun + 1⟩, ?_, rfl, ⟨?_, ?_, ?_, ?_, ?_⟩, fun k hk => ha.before k (by simp only; omega)⟩
  · simp only [codeLiteral, if_neg (show ¬ s.lrun + 1 > 127 by omega),
      if_neg (show ¬ s.outBits / 8 > limit by omega)]
  · simp [hlr]
  · simp; omega
  · simp only [hb, diffsWord_append, List.length_append, diffsWord_cons, diffsWord_nil,
      List.append_nil]
    omega
  · rw [diffsWord_append, diffsWord_cons, diffsWord_nil, List.append_nil]
    refine holds_append.mpr ⟨h.word.congr fun k _ hk => ha.before k (by simp only [hob]; exact hk), ?_⟩
    show Holds _ (8 * (s.ic + 1) + (diffsWord c slice lits).length) _
    rw [← hob]
    exact ha.word
  · rw [hb]
    exact ha.clean

/-- The 128th difference closes the stretch and opens the next one. -/
theorem codeLiteral_new {y : ℤ} (h1 : 1 ≤ slice) (hw : slice < c.width)
    (h : Pending c slice s lits) (hl : lits.length = 127)
    (hlim : (8 * s.ic + ((Token.literal lits).word c slice).length + 8) / 8 ≤ limit)
    (hlt : 8 * s.ic + ((Token.literal lits).word c slice).length + 8 +
      (diffWord c.width slice y).length < 2 ^ 32) :
    ∃ s', codeLiteral c slice limit y s = some s' ∧
      8 * s'.ic = 8 * s.ic + ((Token.literal lits).word c slice).length ∧ Pending c slice s' [y] ∧
      ∃ x, Appends (lsb s.x) (lsb x) (8 * s.ic) ((Token.literal lits).word c slice) ∧
        ∀ k < 8 * s'.ic, lsb s'.x k = lsb x k := by
  have hob := h.outBits
  have hword : ((Token.literal lits).word c slice).length =
      8 + 8 * (((diffsWord c slice lits).length + 7) / 8) := by
    simp only [Token.word, List.length_append, lowBits_length, padding_length]
    omega
  obtain ⟨hclose, hic⟩ := h.close (by omega)
  rw [h.lrun, hl] at hclose
  set ic := u32 (s.outBits + 7) / 8
  have hu : u32 (8 * (ic + 1)) = 8 * (ic + 1) := u32_of_lt (by omega)
  set x := put s.x s.ic 127 with hx
  have hcl : Clean (lsb x) (8 * (ic + 1)) := clean_of_dvd (by omega)
  obtain ⟨ha, hb⟩ := @crunchDiff_appends c _ y ⟨x, 8 * (ic + 1)⟩ h1 hw hcl (by simp only; omega)
  refine ⟨⟨(crunchDiff c slice y ⟨x, 8 * (ic + 1)⟩).x, (crunchDiff c slice y ⟨x, 8 * (ic + 1)⟩).outBits,
    ic, 1⟩, ?_, hic, ⟨rfl, by simp, ?_, ?_, ?_⟩, x, hclose, fun k hk => ?_⟩
  · simp only [codeLiteral, if_pos (show s.lrun + 1 > 127 by rw [h.lrun]; omega)]
    rw [show u32 (8 * (u32 (s.outBits + 7) / 8 + 1)) = 8 * (ic + 1) from hu, if_neg (by omega)]
  · rw [hb]
    simp
  · simpa using ha.word
  · rw [hb]
    exact ha.clean
  · exact ha.before k (by simp only at hk ⊢; omega)

/-- **One pass of the line loop**: a run of four or more is coded, anything else joins the stretch. -/
theorem crunchLine_succ {fuel nc d : ℕ} {check : Bool} (h0 : 1 ≤ nc) :
    crunchLine c slice limit dif (fuel + 1) check nc d s =
      let r := sameAs (dif d) (segment dif (d + 1) (nc - 1))
      if 4 ≤ 1 + r then
        let e := codeRun s (dif d) (1 + r)
        if nc - r - 1 = 0 then some e
        else crunchLine c slice limit dif fuel true (nc - r - 1) (d + 1 + r)
          ⟨e.1, u32 (8 * (e.2 + 1)), e.2, 0⟩
      else (codeLiteral c slice limit (dif d) s).bind
        (crunchLine c slice limit dif fuel false (nc - 1) (d + 1)) := by
  have hr := sameAs_le (dif d) (segment dif (d + 1) (nc - 1))
  rw [segment_length] at hr
  by_cases h1 : nc = 1
  · -- a single difference is never part of a run, whatever lies behind it
    subst h1
    have hz : sameAs (dif d) (segment dif (d + 1) (1 - 1)) = 0 := rfl
    simp only [crunchLine, hz]
    rw [if_neg (by decide : ¬ 4 ≤ 1 + 0)]
    by_cases hc : check = true ∨ 1 > 1
    · rw [if_pos hc]
      by_cases hy : dif d = dif (d + 1)
      · rw [if_pos hy, countRun_eq (by decide)]
        rfl
      · rw [if_neg hy]
        rfl
    · rw [if_neg hc, if_neg (by decide)]
      rfl
  · simp only [crunchLine]
    rw [if_pos (Or.inr (by omega))]
    by_cases hy : dif d = dif (d + 1)
    · rw [if_pos hy, countRun_segment (by omega) hy]
      by_cases h4 : 4 ≤ 1 + sameAs (dif d) (segment dif (d + 1) (nc - 1))
      · simp only [ge_iff_le, if_pos h4]
      · simp only [ge_iff_le, if_neg h4]
        rw [show nc - sameAs (dif d) (segment dif (d + 1) (nc - 1)) +
          (1 + sameAs (dif d) (segment dif (d + 1) (nc - 1))) - 1 = nc by omega]
        rfl
    · have hz : sameAs (dif d) (segment dif (d + 1) (nc - 1)) = 0 := by
        rw [show nc - 1 = nc - 2 + 1 by omega, segment, sameAs, if_neg hy]
      rw [if_neg hy, hz, if_neg (by decide : ¬ 4 ≤ 1 + 0)]
      rfl

/-- The end of the line loop. -/
theorem crunchLine_zero {fuel d : ℕ} {check : Bool} {s : Line} (hcheck : check = true → 1 ≤ 0) :
    crunchLine c slice limit dif (fuel + 1) check 0 d s =
      some (if s.lrun ≠ 0 then put s.x s.ic (BitVec.ofNat 8 s.lrun) else s.x, u32 (s.outBits + 7) / 8) := by
  have hc : ¬ (check = true ∨ 0 > 1) := by
    rintro (h | h)
    · exact absurd (hcheck h) (by decide)
    · exact absurd h (by decide)
  simp only [crunchLine, if_neg hc, ↓reduceIte]

/-- The bits of a count byte reserved for nothing. -/
def gap (lits : List ℤ) (nc : ℕ) : ℕ := if lits = [] ∧ nc = 0 then 8 else 0

@[simp] theorem gap_succ {m : ℕ} : gap lits (m + 1) = 0 := if_neg fun h => absurd h.2 (Nat.succ_ne_zero m)

theorem gap_of_ne {nc : ℕ} (h : lits ≠ []) : gap lits nc = 0 := if_neg fun hc => h hc.1

/-- What is open at the end of a block is closed; a count byte that is reserved stays behind it. -/
theorem crunchLine_end {fuel d : ℕ} {check : Bool} {s : Line} {lits : List ℤ} (hcheck : check = true → 1 ≤ 0)
    (hp : Pending c slice s lits) (hlt : 8 * s.ic + (tokensWord c slice (flush lits)).length + 15 < 2 ^ 32) :
    ∃ e, crunchLine c slice limit dif (fuel + 1) check 0 d s = some e ∧
      Appends (lsb s.x) (lsb e.1) (8 * s.ic) (tokensWord c slice (flush lits)) ∧
      8 * e.2 = 8 * s.ic + (tokensWord c slice (flush lits)).length + gap lits 0 := by
  rw [crunchLine_zero hcheck]
  by_cases h0 : lits = []
  · -- nothing is pending
    have hl : s.lrun = 0 := by rw [hp.lrun, h0]; rfl
    have hob : s.outBits = 8 * (s.ic + 1) := by rw [hp.outBits, h0]; rfl
    have hg : gap lits 0 = 8 := if_pos ⟨h0, rfl⟩
    refine ⟨_, rfl, ?_, ?_⟩
    · rw [flush, if_pos h0, tokensWord_nil, if_neg (by simp [hl])]
      exact Appends.refl (clean_of_dvd (by omega))
    · rw [hg, flush, if_pos h0, tokensWord_nil, List.length_nil, u32_of_lt (by omega)]
      omega
  · -- a final literal
    have hl : s.lrun ≠ 0 := by rw [hp.lrun]; simpa using h0
    have hob := hp.outBits
    have hlen := @flush_word_length c slice _ h0
    obtain ⟨hcl, hb⟩ := hp.close (by omega)
    refine ⟨_, rfl, ?_, ?_⟩
    · rw [flush, if_neg h0, if_pos hl]
      simpa using hcl
    · rw [gap_of_ne h0, flush, if_neg h0]
      simpa using hb

/-- Behind a whole token a stretch is opened, with nothing in it. -/
theorem pending_behind {x : Buf} {ic : ℕ} (hlt : 8 * (ic + 1) < 2 ^ 32) :
    Pending c slice ⟨x, u32 (8 * (ic + 1)), ic, 0⟩ [] := by
  have hu : u32 (8 * (ic + 1)) = 8 * (ic + 1) := u32_of_lt hlt
  exact ⟨rfl, by simp, by simpa using hu, by simp, clean_of_dvd (by simp only [hu]; omega)⟩

/-- **The line loop appends the words of the tokens** of what is in the open stretch and what is left
of the block, and ends behind them; a byte reserved for nothing is passed over. -/
theorem crunchLine_spec (h1 : 1 ≤ slice) (hw : slice < c.width) :
    ∀ {fuel nc d : ℕ} {check : Bool} {s : Line} {lits : List ℤ}, nc < fuel →
    (check = true → 1 ≤ nc) → Pending c slice s lits →
    8 * s.ic + (tokensWord c slice (tokenize lits (segment dif d nc))).length + 16 < 2 ^ 32 →
    (8 * s.ic + (tokensWord c slice (tokenize lits (segment dif d nc))).length + 8) / 8 ≤ limit →
    ∃ e, crunchLine c slice limit dif fuel check nc d s = some e ∧
      Appends (lsb s.x) (lsb e.1) (8 * s.ic) (tokensWord c slice (tokenize lits (segment dif d nc))) ∧
      8 * e.2 = 8 * s.ic + (tokensWord c slice (tokenize lits (segment dif d nc))).length + gap lits nc
  | 0, nc, d, check, s, lits, hf, _, _, _, _ => absurd hf (Nat.not_lt_zero nc)
  | fuel + 1, 0, d, check, s, lits, hf, hcheck, hp, hlt, hlim => by
    simp only [segment, tokenize] at hlt ⊢
    exact crunchLine_end hcheck hp (by omega)
  | fuel + 1, m + 1, d, check, s, lits, hf, _, hp, hlt, hlim => by
    have hr := sameAs_le (dif d) (segment dif (d + 1) m)
    rw [segment_length] at hr
    rw [crunchLine_succ (by omega), gap_succ]
    simp only [segment, Nat.add_sub_cancel] at hlt hlim ⊢
    rw [tokenize] at hlt hlim ⊢
    set r := sameAs (dif d) (segment dif (d + 1) m)
    by_cases h4 : 4 ≤ 1 + r
    · -- a run
      rw [if_pos h4, segment_drop hr] at hlt hlim ⊢
      rw [if_pos h4]
      rw [tokensWord_append, List.length_append] at hlt hlim ⊢
      have hob : s.outBits + 7 < 2 ^ 32 := by
        have hob := hp.outBits
        by_cases h0 : lits = []
        · rw [hob, h0]; simp; omega
        · have hlen := @flush_word_length c slice _ h0
          rw [tokensWord_append, List.length_append] at hlt
          omega
      obtain ⟨ha, hb⟩ := codeRun_appends (y := dif d) (n := 1 + r) hp (by omega) hob
      by_cases hend : m + 1 - r - 1 = 0
      · -- ended on a run
        have hm : m - r = 0 := by omega
        rw [if_pos hend]
        refine ⟨_, rfl, ?_, ?_⟩
        · simpa [hm, segment, tokenize, flush] using ha
        · simpa [hm, segment, tokenize, flush] using hb
      · have hp' := @pending_behind c slice (codeRun s (dif d) (1 + r)).1 (codeRun s (dif d) (1 + r)).2 (by omega)
        rw [if_neg hend, show m + 1 - r - 1 = m - r by omega]
        obtain ⟨e, he, hae, hbe⟩ := crunchLine_spec (d := d + 1 + r) h1 hw (show m - r < fuel by omega)
            (fun _ => by omega) hp' (by simp only; omega) (by simp only; omega)
        have hg : gap [] (m - r) = 0 := if_neg fun h => absurd h.2 (by omega)
        simp only [hb, hg] at hae hbe
        exact ⟨e, he, ha.trans hae, by omega⟩
    · rw [if_neg h4] at hlt hlim ⊢
      rw [if_neg h4]
      by_cases h127 : lits.length = 127
      · -- a new literal run count
        have h0 : lits ≠ [] := by intro h; simp [h] at h127
        have hy := @tokenize_length c slice [dif d] (segment dif (d + 1) m) (by simp)
        rw [if_pos h127, flush, if_neg h0, List.singleton_append, tokensWord_cons,
          List.length_append] at hlt hlim ⊢
        simp only [diffsWord_cons, diffsWord_nil, List.append_nil] at hy
        obtain ⟨s', hs', hic, hp', x, hx, hsame⟩ := @codeLiteral_new _ _ limit _ _ (dif d) h1 hw hp h127
            (by omega) (by omega)
        obtain ⟨e, he, hae, hbe⟩ := @crunchLine_spec h1 hw _ _ (d + 1) false _ _ (show m < fuel by omega)
            (by simp) hp' (by omega) (by omega)
        rw [gap_of_ne (by simp)] at hbe
        rw [hic] at hae hbe hsame
        exact ⟨e, by rw [hs']; exact he, hx.trans (hae.of_before hsame), by omega⟩
      · -- the stretch goes on
        have hy := @tokenize_length c slice (lits ++ [dif d]) (segment dif (d + 1) m) (by simp)
        have hob := hp.outBits
        have hle := hp.le
        rw [if_neg h127] at hlt hlim ⊢
        simp only [diffsWord_append, diffsWord_cons, diffsWord_nil, List.append_nil,
          List.length_append] at hy
        obtain ⟨s', hs', hic, hp', hsame⟩ := @codeLiteral_grow _ _ limit _ _ (dif d) h1 hw hp (by omega)
            (by omega) (by omega)
        obtain ⟨e, he, hae, hbe⟩ := @crunchLine_spec h1 hw _ _ (d + 1) false _ _ (show m < fuel by omega)
            (by simp) hp' (by omega) (by omega)
        rw [gap_of_ne (by simp)] at hbe
        rw [hic] at hae hbe
        exact ⟨e, by rw [hs']; exact he, hae.of_before fun k hk => hsame k (by omega), by omega⟩

end Encoder

/-! ## Blocks in the buffer -/

section Blocks

variable (c : Codec) (slice nx : ℕ) (array : ℕ → BitVec c.width)

/-- The tokens of the block from `i`. -/
def lineTokens (i : ℕ) : List Token := tokenize [] (rowDiffs c array (nx - 1) (i + 1))

/-- The bits of a block: its first sample, its tokens, and a count byte if it has no token. -/
def lineBits (i : ℕ) : ℕ :=
  c.width + (tokensWord c slice (lineTokens c nx array i)).length + gap [] (nx - 1)

/-- The bits of `n` blocks. -/
def linesBits : ℕ → ℕ → ℕ
  | 0, _ => 0
  | n + 1, i => lineBits c slice nx array i + linesBits n (i + nx)

/-- The bits of the compressed stream of an `nx` by `ny` array. -/
def runBits (ny : ℕ) : ℕ := linesBits c slice nx array ny 0

/-- `n` blocks from `i` lie one behind the other from position `p` on. -/
def Laid (f : Bits) : ℕ → ℕ → ℕ → Prop
  | 0, _, _ => True
  | n + 1, i, p =>
    Holds f p (lowBits c.width (array i).toNat ++ tokensWord c slice (lineTokens c nx array i)) ∧
      Laid f n (i + nx) (p + lineBits c slice nx array i)

variable {c slice nx array} {limit limit' : ℕ} {junk : ℕ → ℤ}

/-- The line buffer holds the first differences of the block. -/
theorem segment_lineBuffer {i : ℕ} : ∀ {d n : ℕ}, d + n + 1 ≤ nx →
    segment (lineBuffer c nx array junk i) d n = rowDiffs c array n (i + d + 1)
  | d, 0, _ => rfl
  | d, n + 1, h => by
    rw [segment, rowDiffs, segment_lineBuffer (by omega), lineBuffer, if_pos (by omega)]
    rfl

/-- **The outer loop lays the blocks out one behind the other**, whatever the buffers held. -/
theorem crunchLines_spec (h1 : 1 ≤ slice) (hw : slice < c.width) (hnx : 1 ≤ nx) :
    ∀ {n i ob : ℕ} {s : Out}, s.outBits = 8 * ob →
    8 * ob + linesBits c slice nx array n i + 24 < 2 ^ 32 →
    (8 * ob + linesBits c slice nx array n i + 8) / 8 ≤ limit →
    ∃ r s', crunchLines c slice limit nx array junk n i ob s = some (r, s') ∧
      (∀ k < 8 * ob, lsb s'.x k = lsb s.x k) ∧ Laid c slice nx array (lsb s'.x) n i (8 * ob)
  | 0, i, ob, s, _, _, _ => ⟨ob, s, rfl, fun _ _ => rfl, trivial⟩
  | n + 1, i, ob, s, hs, hlt, hlim => by
    simp only [linesBits, lineBits] at hlt hlim
    have hwb := c.width_bytes
    have hfst := appends_bytes (x := s.x) (i := ob) (v := (array i).toNat) (n := c.width / 8)
    rw [hwb] at hfst
    have hseg : segment (lineBuffer c nx array junk i) 0 (nx - 1) = rowDiffs c array (nx - 1) (i + 1) :=
      segment_lineBuffer (by omega)
    have hu : u32 (u32 (s.outBits + c.width) + 8) = 8 * (ob + c.width / 8 + 1) := by
      rw [hs, u32_of_lt (n := 8 * ob + c.width) (by omega), u32_of_lt (by omega)]
      omega
    have hic : 8 * (ob + c.width / 8) = 8 * ob + c.width := by omega
    have hp : Pending c slice ⟨storeBytes s.x ob (array i).toNat 0 (c.width / 8),
        u32 (u32 (s.outBits + c.width) + 8), ob + c.width / 8, 0⟩ [] :=
      ⟨rfl, by simp, by simpa using hu, by simp, clean_of_dvd (by simp only [hu]; omega)⟩
    unfold lineTokens at hlt hlim
    obtain ⟨e, he, hae, hbe⟩ := @crunchLine_spec _ _ limit (lineBuffer c nx array junk i) h1 hw nx (nx - 1)
        0 false _ _ (by omega) (by simp) hp (by simp only [hseg]; omega) (by simp only [hseg]; omega)
    rw [hseg] at hae hbe
    simp only [hic] at hae hbe
    have hblock := hfst.trans (by simpa using hae)
    have hnext : 8 * e.2 = 8 * ob + lineBits c slice nx array i := by
      rw [lineBits, lineTokens]
      omega
    obtain ⟨r, s', hr, hsame, hlaid⟩ := crunchLines_spec (n := n) (i := i + nx) (s := ⟨e.1, u32 (8 * e.2)⟩)
        h1 hw hnx (u32_of_lt (by rw [hnext, lineBits, lineTokens]; omega))
        (by rw [hnext, lineBits, lineTokens]; omega) (by rw [hnext, lineBits, lineTokens]; omega)
    refine ⟨r, s', ?_, fun k hk => ?_, ?_, by rw [← hnext]; exact hlaid⟩
    · simp only [crunchLines, he, Option.bind_eq_bind, Option.bind_some, hr]
    · rw [hsame k (by omega)]
      exact hblock.before k hk
    · refine hblock.word.congr fun k _ hk => hsame k ?_
      rw [List.length_append, lowBits_length] at hk
      rw [hnext, lineBits, lineTokens]
      omega

/-! ## A larger limit changes nothing -/

theorem codeLiteral_mono {y : ℤ} {s s' : Line} (hle : limit ≤ limit')
    (h : codeLiteral c slice limit y s = some s') : codeLiteral c slice limit' y s = some s' := by
  unfold codeLiteral at h ⊢
  simp only at h ⊢
  split_ifs at h with h₁ h₂ h₂
  · rw [if_pos h₁, if_neg fun hgt => h₂ (lt_of_le_of_lt hle hgt)]
    exact h
  · rw [if_neg h₁, if_neg fun hgt => h₂ (lt_of_le_of_lt hle hgt)]
    exact h

theorem crunchLine_mono {dif : ℕ → ℤ} (hle : limit ≤ limit') :
    ∀ {fuel nc d : ℕ} {check : Bool} {s : Line} {e}, (check = true → 1 ≤ nc) →
    crunchLine c slice limit dif fuel check nc d s = some e →
    crunchLine c slice limit' dif fuel check nc d s = some e
  | 0, _, _, _, _, _, _, h => by simp [crunchLine] at h
  | fuel + 1, 0, d, check, s, e, hcheck, h => by
    rw [crunchLine_zero hcheck] at h ⊢
    exact h
  | fuel + 1, m + 1, d, check, s, e, _, h => by
    rw [crunchLine_succ (by omega)] at h ⊢
    simp only at h ⊢
    split_ifs at h ⊢ with h4 hend
    · exact h
    · exact crunchLine_mono hle (fun _ => by omega) h
    · obtain ⟨s', hs', h⟩ := Option.bind_eq_some_iff.mp h
      rw [codeLiteral_mono hle hs']
      exact crunchLine_mono hle (by simp) h

theorem crunchLines_mono (hle : limit ≤ limit') : ∀ {n i ob : ℕ} {s : Out} {e},
    crunchLines c slice limit nx array junk n i ob s = some e →
    crunchLines c slice limit' nx array junk n i ob s = some e
  | 0, _, _, _, _, h => h
  | n + 1, i, ob, s, e, h => by
    simp only [crunchLines, Option.bind_eq_bind, Option.bind_eq_some_iff] at h ⊢
    obtain ⟨l, hl, h⟩ := h
    exact ⟨l, crunchLine_mono hle (by simp) hl, crunchLines_mono hle h⟩

end Blocks

/-! ## Taking tokens off the stream -/

section Decoder

variable {c : Codec} {slice nx : ℕ} {a : ℕ → BitVec c.width} {x : Buf}

theorem lowBits_mod {m v : ℕ} : lowBits m (v % 2 ^ m) = lowBits m v := by
  unfold lowBits
  refine List.map_congr_left fun t ht => ?_
  rw [Nat.testBit_mod_two_pow, decide_eq_true (List.mem_range.mp ht), Bool.true_and]

/-- The two bytes of a run give back its difference, as far as a sample goes. -/
theorem runDiff_eq {i yu : ℕ} {y : ℤ} (hw : c.width ≤ 16)
    (h : Holds (lsb x) (8 * i) (lowBits 16 (y % 2 ^ 32).toNat)) :
    BitVec.ofInt c.width (BitVec.ofNat 16 (load x i yu 2)).toInt = BitVec.ofInt c.width y := by
  rw [← lowBits_mod] at h
  have hload := load_word (i := i) (j := 0) (n := 2) (y := yu) (Nat.mod_lt _ (by decide)) (by decide) h
  rw [Nat.shiftRight_zero] at hload
  have h16 : BitVec.ofNat 16 (load x i yu 2) = BitVec.ofInt 16 y := by
    apply BitVec.eq_of_toNat_eq
    rw [BitVec.toNat_ofNat, BitVec.toNat_ofInt, hload]
    omega
  rw [h16, BitVec.toInt_ofInt]
  apply BitVec.eq_of_toNat_eq
  rw [BitVec.toNat_ofInt, BitVec.toNat_ofInt]
  congr 1
  have hdvd : ((2 ^ c.width : ℕ) : ℤ) ∣ ((2 ^ 16 : ℕ) : ℤ) :=
    Int.natCast_dvd_natCast.mpr (Nat.pow_dvd_pow 2 hw)
  rw [← Int.emod_emod_of_dvd _ hdvd, Int.bmod_emod, Int.emod_emod_of_dvd _ hdvd]

/-- A run repeats its difference. -/
theorem repeatDiff_eq {y : ℤ} : ∀ {n i : ℕ} {d : In c.width}, d.pos = i → 0 < i →
    (∀ k < i, d.array k = a k) → rowDiffs c a n i = List.replicate n y →
    (repeatDiff (BitVec.ofInt c.width y) n d).pos = i + n ∧
      ∀ k < i + n, (repeatDiff (BitVec.ofInt c.width y) n d).array k = a k
  | 0, i, d, hpos, _, ha, _ => ⟨hpos, ha⟩
  | n + 1, i, d, hpos, hi, ha, hd => by
    rw [rowDiffs, List.replicate_succ, List.cons.injEq] at hd
    obtain ⟨hy, hd⟩ := hd
    have hnext : d.array (d.pos - 1) + BitVec.ofInt c.width y = a i := by
      rw [hpos, ha _ (by omega), ← hy, add_val_sub]
    rw [repeatDiff, hnext, hpos]
    have h := repeatDiff_eq (n := n) (i := i + 1)
      (d := { d with array := Function.update d.array i (a i), pos := i + 1 }) rfl (by omega)
      (fun k hk => by
        simp only [Function.update_apply]
        split_ifs with hki
        · rw [hki]
        · exact ha k (by omega)) hd
    rwa [show i + 1 + n = i + (n + 1) by omega] at h

theorem rowDiffs_split {ds es : List ℤ} {n i : ℕ} (h : rowDiffs c a n i = ds ++ es) :
    rowDiffs c a ds.length i = ds ∧ rowDiffs c a es.length (i + ds.length) = es ∧
      n = ds.length + es.length := by
  have hlen : ∀ {n i}, (rowDiffs c a n i).length = n := by
    intro n
    induction n with
    | zero => exact rfl
    | succ n ih => intro i; rw [rowDiffs, List.length_cons, ih]
  have hn : n = ds.length + es.length := by rw [← hlen (n := n) (i := i), h, List.length_append]
  rw [hn, rowDiffs_append] at h
  obtain ⟨h₁, h₂⟩ := List.append_inj h hlen
  exact ⟨h₁, h₂, hn⟩

/-- A count byte. -/
theorem count_eq {i v : ℕ} (hv : v < 256) (h : Holds (lsb x) (8 * i) (lowBits 8 v)) :
    (x i).toNat = v := by
  refine eq_of_lowBits (m := 8) (x i).isLt hv fun t ht => ?_
  rw [← holds_lowBits.mp h t ht, lsb, show (8 * i + t) / 8 = i by omega,
    show (8 * i + t) % 8 = t by omega]
  rfl

/-- **One pass of the token loop** takes a token off the stream and restores its samples. -/
theorem decrunchTokens_pass {t : Token} {fuel n i ob : ℕ} {d : In c.width} (h1 : 1 ≤ slice)
    (hw : slice < c.width) (h16 : c.width ≤ 16) (hv : t.Valid) (hn : t.diffs.length ≤ n)
    (hd : rowDiffs c a t.diffs.length i = t.diffs) (hdec : Decoded a d i) (hi : 0 < i)
    (hlt : 8 * ob + (t.word c slice).length + 7 < 2 ^ 31)
    (hh : Holds (lsb x) (8 * ob) (t.word c slice)) :
    ∃ d₁, decrunchTokens c slice x (fuel + 1) n ob d = decrunchTokens c slice x fuel
        ((n - t.diffs.length : ℕ) : ℤ) ((ob + (t.word c slice).length / 8 : ℕ) : ℤ) d₁ ∧
      Decoded a d₁ (i + t.diffs.length) ∧ d₁.r1 = ((8 * ob + (t.word c slice).length : ℕ) : ℤ) := by
  have hnpos : (n : ℤ) > 0 := by have := hv.pos; omega
  have hi1 : ((ob : ℤ) + 1).toNat = ob + 1 := by omega
  cases t with
  | run m y =>
    have hlen : ((Token.run m y).word c slice).length = 24 := by simp [Token.word]
    simp only [Token.diffs, List.length_replicate] at hd hn ⊢
    obtain ⟨hm, hm'⟩ := hv
    obtain ⟨hcnt, hy⟩ := holds_append.mp hh
    rw [lowBits_length, show 8 * ob + 8 = 8 * (ob + 1) by omega] at hy
    have hcount := count_eq (by omega) hcnt
    obtain ⟨hpos, harr⟩ := repeatDiff_eq hdec.pos hi hdec.array hd
    rw [← runDiff_eq h16 hy] at hpos harr
    rw [hlen] at hlt ⊢
    set yw := BitVec.ofInt c.width (BitVec.ofNat 16 (load x (ob + 1) d.y 2)).toInt
    refine ⟨⟨(repeatDiff yw m d).array, (repeatDiff yw m d).pos,
      (repeatDiff yw m d).array ((repeatDiff yw m d).pos - 1), load x (ob + 1) d.y 2,
      int32 (8 * ((ob : ℤ) + 1 + 2))⟩, ?_, ⟨hpos, harr, fun _ => ?_⟩, ?_⟩
    · rw [decrunchTokens, if_pos hnpos, if_neg (by omega)]
      simp only [Int.toNat_natCast, hcount, hi1]
      rw [if_pos (by omega), show 255 - (257 - m) + 2 = m by omega,
        show (n : ℤ) - (m : ℤ) = ((n - m : ℕ) : ℤ) by omega,
        show (ob : ℤ) + 1 + 2 = ((ob + 24 / 8 : ℕ) : ℤ) by omega]
    · simp only [hpos]
      exact harr _ (by omega)
    · rw [← int32_natCast (p := 8 * ob + 24) (by omega)]
      rfl
  | literal ds =>
    simp only [Token.diffs] at hd hn ⊢
    obtain ⟨hm, hm'⟩ := hv
    obtain ⟨hcnt, hrest⟩ := holds_append.mp hh
    obtain ⟨hdiffs, -⟩ := holds_append.mp hrest
    rw [lowBits_length, show 8 * ob + 8 = 8 * (ob + 1) by omega] at hdiffs
    have hcount := count_eq (by omega) hcnt
    have hlen : ((Token.literal ds).word c slice).length =
        8 + 8 * (((diffsWord c slice ds).length + 7) / 8) := by
      simp only [Token.word, List.length_append, lowBits_length, padding_length]
      omega
    rw [← hd] at hdiffs
    obtain ⟨d', hd', hdec', hr'⟩ := decrunchRow_word (p := 8 * (ob + 1))
      (d := { d with r1 := int32 (8 * ((ob : ℤ) + 1)) }) h1 hw ⟨hdec.pos, hdec.array, hdec.iq⟩ hi
      (by push_cast; rfl) (by rw [hd]; omega) hdiffs
    rw [hd] at hr'
    rw [int32_natCast (by omega)] at hr'
    obtain ⟨hb, hb8⟩ := bump_eq (p := 8 * (ob + 1) + (diffsWord c slice ds).length) (by omega)
    rw [← hr'] at hb
    have hob : (8 * (ob + 1) + (diffsWord c slice ds).length + 7) / 8 =
        ob + ((Token.literal ds).word c slice).length / 8 := by omega
    rw [hob] at hb hb8
    refine ⟨{ d' with r1 := ((8 * (ob + ((Token.literal ds).word c slice).length / 8) : ℕ) : ℤ) }, ?_,
      ⟨hdec'.pos, hdec'.array, hdec'.iq⟩, ?_⟩
    · rw [decrunchTokens, if_pos hnpos, if_neg (by omega)]
      simp only [Int.toNat_natCast, hcount]
      rw [if_neg (by omega), hd']
      simp only [Option.bind_eq_bind, Option.bind_some, hb, hb8]
      rw [show (n : ℤ) - (ds.length : ℤ) = ((n - ds.length : ℕ) : ℤ) by omega]
    · show ((8 * (ob + _ / 8) : ℕ) : ℤ) = _
      congr 1
      omega

/-- **The token loop restores the samples of the tokens.** -/
theorem decrunchTokens_word (h1 : 1 ≤ slice) (hw : slice < c.width) (h16 : c.width ≤ 16) :
    ∀ {ts : List Token} {fuel n i ob : ℕ} {d : In c.width}, (∀ t ∈ ts, t.Valid) →
    rowDiffs c a n i = ts.flatMap Token.diffs → n ≤ fuel → Decoded a d i → 0 < i →
    8 * ob + (tokensWord c slice ts).length + 7 < 2 ^ 31 →
    Holds (lsb x) (8 * ob) (tokensWord c slice ts) →
    ∃ d', decrunchTokens c slice x fuel n ob d = some (0, d') ∧ Decoded a d' (i + n) ∧
      (ts = [] → d' = d) ∧
      (ts ≠ [] → d'.r1 = ((8 * ob + (tokensWord c slice ts).length : ℕ) : ℤ))
  | [], fuel, n, i, ob, d, _, hd, _, hdec, _, _, _ => by
    obtain rfl : n = 0 := by
      cases n with
      | zero => rfl
      | succ n => simp [rowDiffs] at hd
    refine ⟨d, ?_, hdec, fun _ => rfl, fun h => absurd rfl h⟩
    cases fuel <;> simp [decrunchTokens]
  | t :: ts, fuel, n, i, ob, d, hv, hd, hf, hdec, hi, hlt, hh => by
    rw [List.flatMap_cons] at hd
    obtain ⟨hthis, hrest, hn⟩ := rowDiffs_split hd
    rw [tokensWord_cons, List.length_append] at hlt
    rw [tokensWord_cons] at hh
    obtain ⟨hword, hwords⟩ := holds_append.mp hh
    have hbytes := @Token.word_bytes c slice t
    have hvt := hv t (List.mem_cons_self ..)
    have hpos := hvt.pos
    obtain ⟨fuel, rfl⟩ : ∃ fuel', fuel = fuel' + 1 := ⟨fuel - 1, by omega⟩
    obtain ⟨d₁, hpass, hdec₁, hr₁⟩ := @decrunchTokens_pass _ _ _ _ _ fuel n _ _ _ h1 hw h16 hvt (by omega)
        hthis hdec hi (by omega) hword
    have hob : 8 * (ob + (t.word c slice).length / 8) = 8 * ob + (t.word c slice).length := by omega
    obtain ⟨d', hd', hdec', h0, hr'⟩ := @decrunchTokens_word h1 hw h16 _ fuel (n - t.diffs.length) _
        (ob + (t.word c slice).length / 8) _ (fun t' ht' => hv t' (List.mem_cons_of_mem _ ht'))
        (by rw [← hrest]; congr 1; omega) (by omega) hdec₁ (by omega) (by omega) (by rw [hob]; exact hwords)
    refine ⟨d', hpass.trans hd', ?_, fun h => absurd h (List.cons_ne_nil _ _), fun _ => ?_⟩
    · rwa [show i + n = i + t.diffs.length + (n - t.diffs.length) by omega]
    · rw [tokensWord_cons, List.length_append, ← Nat.add_assoc, ← hob]
      by_cases hts : ts = []
      · rw [h0 hts, hr₁, hts, hob]
        rfl
      · exact hr' hts

theorem rowDiffs_length : ∀ {n i : ℕ}, (rowDiffs c a n i).length = n
  | 0, _ => rfl
  | n + 1, i => by rw [rowDiffs, List.length_cons, rowDiffs_length]

/-- Exactly the blocks of one sample have no token. -/
theorem lineTokens_eq_nil {i : ℕ} (hnx : 1 ≤ nx) : lineTokens c nx a i = [] ↔ nx = 1 := by
  have hd := @tokenize_diffs [] (rowDiffs c a (nx - 1) (i + 1))
  constructor
  · intro h
    rw [lineTokens] at h
    rw [h] at hd
    have := congrArg List.length hd
    simp [rowDiffs_length] at this
    omega
  · rintro rfl
    rw [lineTokens, Nat.sub_self, rowDiffs, tokenize, flush, if_pos rfl]

/-- One pass of the decoder's outer loop, up to the byte boundary. -/
theorem decrunchLine_word {i ob fuel : ℕ} {d : In c.width} (h1 : 1 ≤ slice) (hw : slice < c.width)
    (h16 : c.width ≤ 16) (hnx : 1 ≤ nx) (hf : nx ≤ fuel) (hd : Decoded a d i)
    (hr : d.r1 = ((8 * ob : ℕ) : ℤ)) (hlt : 8 * ob + lineBits c slice nx a i + 7 < 2 ^ 31)
    (hh : Holds (lsb x) (8 * ob)
      (lowBits c.width (a i).toNat ++ tokensWord c slice (lineTokens c nx a i))) :
    BitVec.ofNat c.width (load x ob 0 (c.width / 8)) = a i ∧
    ∃ d', decrunchTokens c slice x fuel ((nx : ℤ) - 1) ((ob : ℤ) + (c.width / 8 : ℕ))
        (d.emit (a i) d.y (int32 (d.r1 + 16))) = some (0, d') ∧ Decoded a d' (i + nx) ∧
      (nx = 1 → d'.r1 = int32 ((8 * ob + 16 : ℕ) : ℤ)) ∧
      (2 ≤ nx → d'.r1 = ((8 * ob + lineBits c slice nx a i : ℕ) : ℤ)) := by
  have hwb := c.width_bytes
  obtain ⟨hfst, htok⟩ := holds_append.mp hh
  rw [lowBits_length, show 8 * ob + c.width = 8 * (ob + c.width / 8) by omega] at htok
  have hiq : BitVec.ofNat c.width (load x ob 0 (c.width / 8)) = a i := by
    apply BitVec.eq_of_toNat_eq
    rw [BitVec.toNat_ofNat]
    exact load_word (i := ob) (j := 0) (n := c.width / 8) (y := 0) (a i).isLt (by omega) hfst
  rw [lineBits] at hlt ⊢
  obtain ⟨d', hd', hdec, h0, hr'⟩ := @decrunchTokens_word _ _ a _ h1 hw h16 (lineTokens c nx a i) fuel
      (nx - 1) _ (ob + c.width / 8) _ (tokenize_valid (by simp))
      (by rw [lineTokens, tokenize_diffs, List.nil_append]) (by omega)
      (@Decoded.emit _ _ _ _ d.y (int32 (d.r1 + 16)) hd) (by omega) (by omega) htok
  refine ⟨hiq, d', ?_, ?_, fun h => ?_, fun h => ?_⟩
  · rw [← hd', show (nx : ℤ) - 1 = ((nx - 1 : ℕ) : ℤ) by omega, Nat.cast_add]
  · rwa [show i + nx = i + 1 + (nx - 1) by omega]
  · rw [h0 ((lineTokens_eq_nil hnx).mpr h)]
    simp only [In.emit, hr]
    rfl
  · have hg : gap [] (nx - 1) = 0 := if_neg fun hc => absurd hc.2 (by omega)
    rw [hr' (fun hn => by have := (lineTokens_eq_nil hnx).mp hn; omega), hg]
    congr 1
    omega

/-- **The outer loop restores the blocks**, but behind a block of one sample only an 8 bit decoder
finds the next one. -/
theorem decrunchLines_laid (h1 : 1 ≤ slice) (hw : slice < c.width) (h16 : c.width ≤ 16)
    (hnx : 1 ≤ nx) {fuel : ℕ} (hf : nx ≤ fuel) :
    ∀ {n i ob : ℕ} {d : In c.width}, 2 ≤ nx ∨ n ≤ 1 ∨ c.width = 8 → Decoded a d i →
    d.r1 = ((8 * ob : ℕ) : ℤ) → 8 * ob + linesBits c slice nx a n i + 7 < 2 ^ 31 →
    Laid c slice nx a (lsb x) n i (8 * ob) →
    ∃ d', decrunchLines c slice nx x fuel n ob d = some d' ∧ Decoded a d' (i + n * nx)
  | 0, i, ob, d, _, hd, _, _, _ => ⟨d, rfl, by simpa using hd⟩
  | n + 1, i, ob, d, hcond, hd, hr, hlt, hlaid => by
    obtain ⟨hh, hlaid⟩ := hlaid
    rw [linesBits] at hlt
    obtain ⟨hiq, d', hd', hdec, hone, hmany⟩ := decrunchLine_word h1 hw h16 hnx hf hd hr (by omega) hh
    have hbytes := @tokensWord_bytes c slice (lineTokens c nx a i)
    have hwb := c.width_bytes
    have hgap : gap [] (nx - 1) = if nx = 1 then 8 else 0 := by
      unfold gap
      by_cases h : nx = 1
      · simp [h]
      · rw [if_neg h, if_neg (fun hc => h (by omega))]
    have hstep : decrunchLines c slice nx x fuel (n + 1) ob d =
        decrunchLines c slice nx x fuel n ((int32 (d'.r1 + 7)).tdiv 8)
          { d' with r1 := int32 (8 * (int32 (d'.r1 + 7)).tdiv 8) } := by
      rw [decrunchLines, if_neg (by omega)]
      simp only [Int.toNat_natCast, hiq, hd', Option.bind_eq_bind, Option.bind_some, lt_irrefl,
        ↓reduceIte]
    have hadd : i + (n + 1) * nx = i + nx + n * nx := by rw [Nat.succ_mul]; omega
    rw [hstep, hadd]
    by_cases hlast : n = 0
    · subst hlast
      exact ⟨_, rfl, by simpa using ⟨hdec.pos, hdec.array, hdec.iq⟩⟩
    · -- the next block starts where the bit pointer stands
      have hr' : d'.r1 = ((8 * ob + lineBits c slice nx a i : ℕ) : ℤ) := by
        by_cases h2 : 2 ≤ nx
        · exact hmany h2
        · have hnx1 : nx = 1 := by omega
          have hw8 : c.width = 8 := by omega
          have hnil := (lineTokens_eq_nil (c := c) (a := a) (i := i) hnx).mpr hnx1
          have hb : lineBits c slice nx a i = 16 := by
            rw [lineBits, hnil, hgap, if_pos hnx1, hw8]
            rfl
          rw [hone hnx1, hb, int32_natCast (by omega)]
      obtain ⟨hb, hb8⟩ := bump_eq (p := 8 * ob + lineBits c slice nx a i) (by omega)
      rw [← hr'] at hb
      have hbits : lineBits c slice nx a i % 8 = 0 := by
        rw [lineBits, hgap]
        split_ifs <;> omega
      have hob : 8 * ((8 * ob + lineBits c slice nx a i + 7) / 8) =
          8 * ob + lineBits c slice nx a i := by omega
      rw [hb, hb8]
      exact decrunchLines_laid h1 hw h16 hnx hf (by omega) ⟨hdec.pos, hdec.array, hdec.iq⟩ rfl
        (by omega) (by rw [hob]; exact hlaid)

end Decoder

/-! ## The round trip -/

section RoundTrips

variable {c : Codec} {slice nx ny limit fuel type : ℕ} {array a₀ : ℕ → BitVec c.width} {x : Buf}
  {junk : ℕ → ℤ} {out : Compressed}

/-- The bytes behind the header are the blocks one behind the other. -/
theorem crunchrun_laid (h1 : 1 ≤ slice) (hw : slice < c.width) (hnx : 1 ≤ nx)
    (hbits : runBits c slice nx array ny < 2 ^ 31)
    (h : crunchrun c slice limit nx array junk type x ny = some out) :
    Laid c slice nx array (lsb out.x) ny 0 0 := by
  unfold crunchrun at h
  split_ifs at h
  simp only [Option.bind_eq_bind, Option.bind_eq_some_iff] at h
  obtain ⟨⟨r, s⟩, hr, hout⟩ := h
  rw [runBits] at hbits
  -- with a limit that is large enough the outcome is the one the blocks describe
  obtain ⟨r', s', hr', -, hlaid⟩ := @crunchLines_spec _ _ _ array (limit - 24 + 2 ^ 31) junk h1 hw hnx ny 0
      0 ⟨x, 0⟩ rfl (by omega) (by omega)
  rw [crunchLines_mono (Nat.le_add_right _ _) hr] at hr'
  obtain ⟨rfl, rfl⟩ : r = r' ∧ s = s' := by simpa using hr'
  obtain rfl : _ = out := Option.some.inj hout
  exact hlaid

theorem crunchrun_some (h1 : 1 ≤ slice) (hw : slice < c.width) (hnx : 1 ≤ nx)
    (hbits : runBits c slice nx array ny < 2 ^ 31) (hlim : 25 ≤ limit)
    (hfit : runBits c slice nx array ny + 8 ≤ 8 * (limit - 24)) :
    ∃ out, crunchrun c slice limit nx array junk type x ny = some out := by
  rw [runBits] at hbits hfit
  obtain ⟨r, s, hr, -, -⟩ := @crunchLines_spec _ _ _ array (limit - 24) junk h1 hw hnx ny 0 0 ⟨x, 0⟩ rfl
      (by omega) (by omega)
  exact ⟨⟨u32 (r + 14), ny, nx, slice, type, s.x⟩, by rw [crunchrun, if_neg (by omega), hr]; rfl⟩

/-- **Round trip of the run-length codecs**, except over blocks of one 16 bit sample. -/
theorem crunchrun_roundTrip (h1 : 1 ≤ slice) (hw : slice < c.width) (h16 : c.width ≤ 16)
    (hnx : 1 ≤ nx) (hf : nx ≤ fuel) (hbits : runBits c slice nx array ny < 2 ^ 31)
    (hcond : 2 ≤ nx ∨ ny ≤ 1 ∨ c.width = 8) :
    RoundTrip (crunchrun c slice limit nx array junk type x ny)
      (fun x => decrunchrun c slice nx x a₀ fuel ny) array (nx * ny) := by
  intro out hout
  have hlaid := crunchrun_laid h1 hw hnx hbits hout
  have hmod : ∀ n i, linesBits c slice nx array n i % 8 = 0 := by
    intro n
    induction n with
    | zero => exact fun _ => rfl
    | succ n ih =>
      intro i
      have h₁ := @tokensWord_bytes c slice (lineTokens c nx array i)
      have h₂ := c.width_bytes
      have h₃ := ih (i + nx)
      rw [linesBits, lineBits, gap]
      split_ifs <;> omega
  have hm := hmod ny 0
  rw [runBits] at hbits
  obtain ⟨d, hd, hdec⟩ := @decrunchLines_laid _ _ _ _ _ h1 hw h16 hnx _ hf ny 0 0 ⟨a₀, 0, 0, 0, 0⟩ hcond
      ⟨rfl, fun k hk => absurd hk (Nat.not_lt_zero k), fun h => absurd h (lt_irrefl 0)⟩ rfl (by omega) hlaid
  refine ⟨d.array, ?_, fun k hk => hdec.array k (by rw [Nat.mul_comm]; omega)⟩
  simp only [decrunchrun]
  rw [show ((0 : ℕ) : ℤ) = 0 from rfl] at hd
  rw [hd]
  rfl

end RoundTrips

/-! ## Blocks of one 16 bit sample -/

section Single

variable {c : Codec} {slice limit : ℕ} {junk : ℕ → ℤ}

/-- A block of one sample: the sample is stored, a byte is passed over. -/
theorem crunchLines_single {array : ℕ → BitVec c.width} {n i ob ob' : ℕ} {s : Out}
    (hob : u32 (u32 (u32 (s.outBits + c.width) + 8) + 7) / 8 = ob') :
    crunchLines c slice limit 1 array junk (n + 1) i ob s =
      crunchLines c slice limit 1 array junk n (i + 1) ob'
        ⟨storeBytes s.x ob (array i).toNat 0 (c.width / 8), u32 (8 * ob')⟩ := by
  subst hob
  simp [crunchLines, crunchLine]

/-- The decoder counts 16 bits for it. -/
theorem decrunchLines_single {x : Buf} {fuel n : ℕ} {i i' : ℤ} {d : In c.width} (hi : 0 ≤ i)
    (hi' : (int32 (int32 (d.r1 + 16) + 7)).tdiv 8 = i') :
    decrunchLines c slice 1 x fuel (n + 1) i d = decrunchLines c slice 1 x fuel n i'
      (d.emit (BitVec.ofNat c.width (load x i.toNat 0 (c.width / 8))) d.y (int32 (8 * i'))) := by
  have htok : ∀ (i : ℤ) (d : In c.width),
      decrunchTokens c slice x fuel (((1 : ℕ) : ℤ) - 1) i d = some (0, d) := by
    intro i d
    cases fuel <;> simp [decrunchTokens]
  subst hi'
  rw [decrunchLines, if_neg (by omega)]
  simp only [htok, Option.bind_eq_bind, Option.bind_some, lt_irrefl, ↓reduceIte, In.emit]

theorem decrunchLines_keeps {x : Buf} {fuel : ℕ} : ∀ {n : ℕ} {i : ℤ} {d d' : In c.width},
    decrunchLines c slice 1 x fuel n i d = some d' → ∀ k < d.pos, d'.array k = d.array k
  | 0, i, d, d', h, k, _ => by
    obtain rfl : d = d' := by simpa [decrunchLines] using h
    rfl
  | n + 1, i, d, d', h, k, hk => by
    by_cases hi : 0 ≤ i
    · rw [decrunchLines_single hi rfl] at h
      rw [decrunchLines_keeps h k (by simp only [In.emit]; omega)]
      simp only [In.emit]
      exact Function.update_of_ne (by omega) _ _
    · rw [decrunchLines, if_pos (by omega)] at h
      exact absurd h (by simp)

variable {x : Buf} {array a₀ : ℕ → BitVec c.width} {ny type fuel : ℕ}

/-- The encoder leaves byte 2, which it passes over behind the first sample, as it was. -/
theorem single_keeps {out : Compressed} (h1 : 1 ≤ slice) (hw : slice < c.width) (hc : c.width = 16)
    (hny : 2 ≤ ny) (hbits : runBits c slice 1 array ny < 2 ^ 31)
    (hout : crunchrun c slice limit 1 array junk type x ny = some out) :
    lsb out.x 16 = (x 2).getLsbD 0 := by
  obtain ⟨m, rfl⟩ : ∃ m, ny = m + 2 := ⟨ny - 2, by omega⟩
  unfold crunchrun at hout
  split_ifs at hout
  simp only [Option.bind_eq_bind, Option.bind_eq_some_iff] at hout
  obtain ⟨⟨r, s⟩, hr, hout⟩ := hout
  obtain rfl : _ = out := Option.some.inj hout
  rw [@crunchLines_single _ _ _ _ _ _ _ _ 3 _ (by simp [hc, u32]),
    @crunchLines_single _ _ _ _ _ _ _ _ 6 _ (by simp [hc, u32]), show c.width / 8 = 2 by omega] at hr
  simp only [runBits, linesBits, lineBits, gap, and_self, ↓reduceIte, Nat.sub_self] at hbits
  obtain ⟨r', s', hr', hsame, -⟩ := @crunchLines_spec _ _ _ array (limit - 24 + 2 ^ 31) junk h1 hw
      (le_refl 1) m (0 + 1 + 1) 6 ⟨storeBytes (storeBytes x 0 (array 0).toNat 0 2) 3 (array (0 + 1)).toNat 0
      2, u32 (8 * 6)⟩ rfl (by omega) (by omega)
  rw [crunchLines_mono (Nat.le_add_right _ _) hr] at hr'
  obtain ⟨-, rfl⟩ : r = r' ∧ s = s' := by simpa using hr'
  rw [hsame 16 (by decide), lsb_storeBytes, if_neg (by decide), lsb_storeBytes, if_neg (by decide)]
  rfl

/-- The decoder takes it for the low byte of sample 1. -/
theorem single_reads {res : ℕ → BitVec c.width} (hc : c.width = 16) (hny : 2 ≤ ny)
    (hres : decrunchrun c slice 1 x a₀ fuel ny = some res) : (res 1).getLsbD 0 = lsb x 16 := by
  obtain ⟨m, rfl⟩ : ∃ m, ny = m + 2 := ⟨ny - 2, by omega⟩
  simp only [decrunchrun, Option.map_eq_some_iff] at hres
  obtain ⟨d, hd, rfl⟩ := hres
  rw [@decrunchLines_single _ _ _ _ _ _ 2 _ (le_refl 0) (by unfold int32; rfl),
    @decrunchLines_single _ _ _ _ _ _ 4 _ (by decide) (by simp only [In.emit]; unfold int32; rfl)] at hd
  rw [decrunchLines_keeps hd 1 (by simp [In.emit])]
  simp only [In.emit, Nat.zero_add, Function.update_self]
  rw [BitVec.getLsbD_ofNat, testBit_load, if_pos (by omega), decide_eq_true (by omega), Bool.true_and]
  rfl

theorem single_sample_lost (h1 : 1 ≤ slice) (hw : slice < c.width) (hc : c.width = 16) (hny : 2 ≤ ny)
    (hbits : runBits c slice 1 array ny < 2 ^ 31) (hlim : 25 ≤ limit)
    (hfit : runBits c slice 1 array ny + 8 ≤ 8 * (limit - 24))
    (hx : (x 2).getLsbD 0 ≠ (array 1).getLsbD 0) :
    ¬ RoundTrip (crunchrun c slice limit 1 array junk type x ny)
      (fun x => decrunchrun c slice 1 x a₀ fuel ny) array (1 * ny) := by
  intro h
  obtain ⟨out, hout⟩ := crunchrun_some (x := x) h1 hw (le_refl 1) hbits hlim hfit
  obtain ⟨res, hres, ha⟩ := h out hout
  have hbit := single_reads hc hny hres
  rw [ha 1 (by omega), single_keeps h1 hw hc hny hbits hout] at hbit
  exact hx hbit.symm

/-- **The run-length codecs**: with an output limit that suffices and a stream shorter than `2 ^ 31`
bits, the 8 bit codec restores every array; the 16 bit codec does so, whatever its buffers held before,
exactly if the blocks have two samples or more, or there is only one. -/
theorem anacrunchrun_roundTrip {slice nx ny limit : ℕ} (h1 : 1 ≤ slice) (hnx : 1 ≤ nx) (hny : 1 ≤ ny)
    (hlim : 25 ≤ limit) :
    (∀ array, slice ≤ 7 → runBits anaRun8 slice nx array ny < 2 ^ 31 →
      runBits anaRun8 slice nx array ny + 8 ≤ 8 * (limit - 24) →
      ∀ x junk a₀ fuel, nx ≤ fuel →
        (∃ out, anacrunchrun8 x array slice nx ny limit junk = some out) ∧
        RoundTrip (anacrunchrun8 x array slice nx ny limit junk)
          (fun x => anadecrunchrun8 x a₀ slice nx ny fuel) array (nx * ny)) ∧
    (∀ array, slice ≤ 15 → runBits anaRun16 slice nx array ny < 2 ^ 31 →
      runBits anaRun16 slice nx array ny + 8 ≤ 8 * (limit - 24) →
      ((∀ x junk a₀ fuel, nx ≤ fuel →
        (∃ out, anacrunchrun x array slice nx ny limit junk = some out) ∧
        RoundTrip (anacrunchrun x array slice nx ny limit junk)
          (fun x => anadecrunchrun x a₀ slice nx ny fuel) array (nx * ny)) ↔ 2 ≤ nx ∨ ny = 1)) := by
  refine ⟨?_, ?_⟩
  · intro array hw hbits hfit x junk a₀ fuel hf
    have hw' : slice < anaRun8.width := Nat.lt_succ_of_le hw
    exact ⟨crunchrun_some h1 hw' hnx hbits hlim hfit,
      crunchrun_roundTrip h1 hw' (by decide) hnx hf hbits (Or.inr (Or.inr rfl))⟩
  · intro array hw hbits hfit
    have hw' : slice < anaRun16.width := Nat.lt_succ_of_le hw
    constructor
    · intro h
      by_contra hcond
      obtain rfl : nx = 1 := by omega
      have hlost := @single_sample_lost anaRun16 _ _ (fun _ => 0)
          (fun _ => if (array 1).getLsbD 0 then 0 else 1) array (fun _ => 0) _ 2 1 h1 hw' rfl (by omega)
          hbits hlim hfit (by
          cases hb : (array 1).getLsbD 0
          · rw [if_neg (by decide)]; decide
          · rw [if_pos rfl]; decide)
      exact hlost (h _ _ _ 1 (le_refl 1)).2
    · intro hcond x junk a₀ fuel hf
      exact ⟨crunchrun_some h1 hw' hnx hbits hlim hfit,
        crunchrun_roundTrip h1 hw' (le_refl 16) hnx hf hbits (by omega)⟩

/-- Two 16 bit blocks of one sample, 0 and 1, in a zero buffer: 1 is not restored. -/
theorem anacrunchrun_two_singles :
    ¬ RoundTrip (anacrunchrun (fun _ => 0) (fun k => BitVec.ofNat 16 k) 5 1 2 100 (fun _ => 0))
      (fun x => anadecrunchrun x (fun _ => 0) 5 1 2 1) (fun k => BitVec.ofNat 16 k) (1 * 2) := by
  have hbits : runBits anaRun16 5 1 (fun k => BitVec.ofNat 16 k) 2 = 48 := by
    simp [runBits, linesBits, lineBits, gap, anaRun16, lineTokens, rowDiffs, tokenize, flush]
  exact single_sample_lost (c := anaRun16) (by decide) (by decide) rfl (by decide)
    (by rw [hbits]; decide) (by decide) (by rw [hbits]; decide) (by decide)

/-- A run, an escape and a literal stretch in a block of 16 bit samples. -/
theorem anacrunchrun_mixed : ∃ out res,
    anacrunchrun (fun _ => 0xff) (fun k => if k < 6 then BitVec.ofNat 16 k else 0x8000) 2 8 1 100
      (fun _ => 0) = some out ∧
    anadecrunchrun out.x (fun _ => 0) 2 8 1 8 = some res ∧ res 5 = 5 ∧ res 7 = 0x8000 := by
  have htok : lineTokens anaRun16 8 (fun k => if k < 6 then BitVec.ofNat 16 k else 0x8000) 0 =
      [.run 5 1, .literal [-32773, 0]] := by
    simp [lineTokens, rowDiffs, tokenize, flush, sameAs, runTokens, anaRun16]
  have hbits : runBits anaRun16 2 8 (fun k => if k < 6 then BitVec.ofNat 16 k else 0x8000) 1 = 104 := by
    rw [runBits, linesBits, linesBits, lineBits, htok]
    decide +kernel
  have h := ((@anacrunchrun_roundTrip 2 8 1 100 (by decide) (by decide) (by decide) (by decide)).2
    (fun k => if k < 6 then BitVec.ofNat 16 k else 0x8000) (by decide)
    (by omega) (by omega)).mpr (by decide)
  obtain ⟨⟨out, hout⟩, hrt⟩ := h (fun _ => 0xff) (fun _ => 0) (fun _ => 0) 8 (by decide)
  obtain ⟨res, hres, ha⟩ := hrt out hout
  exact ⟨out, res, hout, hres, ha 5 (by decide), ha 7 (by decide)⟩

end Single

end Redux.Ana
