import Redux.Util.RiceCode
import Mathlib.Tactic.IntervalCases

/-!
# Util.RiceTrip — what the Rice codec restores

The encoder is described by the code words it adds to the stream, the decoder by what it reads off a
stream that holds them; the round trip is then an induction over the blocks.  Two defects show up as
conditions of `Intact`.  A block of split 13 is stored under the code from which the decoder takes a
block to be raw.  And the two bytes `crunch_block` writes have no room for the last entropy bits of a
large split at a large offset.
-/

namespace Redux.Rice

open Redux.Lib

/-! ## The words of the stream -/

/-- The bits `crunch_block` drops of a difference whose unary one is at position `p`. -/
def dropped (split p : ℕ) : ℕ := lost (p % 8) (split + 1) 2

/-- The code of the difference `d` at position `p`. -/
def sampleBits (split p d : ℕ) : List Bool :=
  let l := dropped split (p + d >>> split)
  List.replicate (d >>> split) false ++ highBits (split + 1) ((2 ^ split + d % 2 ^ split) >>> l <<< l)

/-- The codes of a Golomb–Rice block. -/
def crunchBits (split : ℕ) : ℕ → List ℕ → List Bool
  | _, [] => []
  | p, d :: block => sampleBits split p d ++ crunchBits split (p + (d >>> split + 1 + split)) block

/-- The stream of a block. -/
def blockBits (split : ℤ) (p : ℕ) (diff : List ℕ) : List Bool :=
  if maxEntropyBits ≤ split then highBits 4 15 ++ diff.flatMap (highBits 16)
  else if split = -1 then List.replicate 4 false
  else highBits 4 (split.toNat + 1) ++ crunchBits split.toNat (p + 4) diff

/-- The bits a block takes. -/
def blockLen (split : ℤ) (diff : List ℕ) : ℕ :=
  if maxEntropyBits ≤ split then 4 + 16 * diff.length
  else if split = -1 then 4
  else 4 + (diff.map fun d => d >>> split.toNat + 1 + split.toNat).sum

/-- No bit of a Golomb–Rice block is dropped, or the bits dropped are zero. -/
def CrunchIntact (split : ℕ) : ℕ → List ℕ → Prop
  | _, [] => True
  | p, d :: block => d % 2 ^ dropped split (p + d >>> split) = 0 ∧
      CrunchIntact split (p + (d >>> split + 1 + split)) block

/-- The block at `p` has not split 13 and loses no bit. -/
def BlockIntact (split : ℤ) (p : ℕ) (diff : List ℕ) : Prop :=
  maxEntropyBits ≤ split ∨ split = -1 ∨ split ≠ 13 ∧ CrunchIntact split.toNat (p + 4) diff

/-- Every block, the first at position `p`, is intact. -/
def BlocksIntact (pick : List ℕ → ℤ) (blockSize : ℕ) : ℕ → ℕ → BitVec 16 → List (BitVec 16) → Prop
  | 0, _, _, _ => True
  | n + 1, p, refValue, samples =>
    if samples = [] then True
    else
      let block := samples.take blockSize
      let diff := preprocessDiff refValue block
      BlockIntact (pick diff) p diff ∧ BlocksIntact pick blockSize n (p + blockLen (pick diff) diff)
        (block.getLastD refValue) (samples.drop blockSize)

/-- **What the codec restores**: no block has split 13, and no one bit falls behind the two bytes
written for a sample.  The blocks start behind the 16 bits of the first sample. -/
def Intact (pick : List ℕ → ℤ) (samples : List (BitVec 16)) (blockSize : ℕ) : Prop :=
  BlocksIntact pick blockSize samples.length 16 (samples.headD 0) samples

instance decidableCrunchIntact (split : ℕ) : ∀ p block, Decidable (CrunchIntact split p block)
  | _, [] => isTrue trivial
  | _, _ :: block => @instDecidableAnd _ _ _ (decidableCrunchIntact split _ block)

instance (split : ℤ) (p : ℕ) (diff : List ℕ) : Decidable (BlockIntact split p diff) :=
  inferInstanceAs (Decidable (_ ∨ _ ∨ _ ∧ CrunchIntact split.toNat (p + 4) diff))

instance decidableBlocksIntact (pick : List ℕ → ℤ) (blockSize : ℕ) :
    ∀ n p refValue samples, Decidable (BlocksIntact pick blockSize n p refValue samples)
  | 0, _, _, _ => isTrue trivial
  | n + 1, _, _, samples =>
    have := decidableBlocksIntact pick blockSize n
    inferInstanceAs (Decidable (if samples = [] then True else _ ∧ _))

instance (pick : List ℕ → ℤ) (samples : List (BitVec 16)) (blockSize : ℕ) :
    Decidable (Intact pick samples blockSize) :=
  decidableBlocksIntact pick blockSize samples.length 16 (samples.headD 0) samples

/-! ## The encoder adds the words -/

/-- The writer went from `o` to `o'` and added the word `bs`. -/
structure Writes (o o' : Out) (bs : List Bool) : Prop where
  ext : Extends (msb o.x) (msb o'.x) o.cur.pos bs
  pos : o'.cur.pos = o.cur.pos + bs.length

section Encoder

variable {o o' o'' : Out} {as bs : List Bool} {split : ℕ}

theorem Writes.refl (h : Blank (msb o.x) o.cur.pos) : Writes o o [] := ⟨.refl h, rfl⟩

theorem Writes.trans (h₁ : Writes o o' as) (h₂ : Writes o' o'' bs) : Writes o o'' (as ++ bs) := by
  refine ⟨h₁.ext.trans ?_, ?_⟩
  · rw [← h₁.pos]
    exact h₂.ext
  · rw [h₂.pos, h₁.pos, List.length_append, Nat.add_assoc]

theorem Writes.blank (h : Writes o o' bs) : Blank (msb o'.x) o'.cur.pos := by
  rw [h.pos]
  exact h.ext.after

/-- The table holds the split code, split + 1 or 15, at every offset. -/
theorem splitMap4_entry : ∀ split < 16, ∀ offset < 8,
    let entry := (splitMap4.getD split []).getD offset 0
    let code := min (split + 1) 15 <<< (12 - offset)
    byteOf entry 0 = byteOf code 1 ∧ byteOf entry 1 = byteOf code 0 := by
  decide +kernel

theorem storeSplit_writes (hs : split < 16) (h : Blank (msb o.x) o.cur.pos) :
    Writes o (storeSplit o split) (highBits 4 (min (split + 1) 15)) := by
  have hj := o.cur.offset_lt
  obtain ⟨h₀, h₁⟩ := splitMap4_entry split hs o.cur.offset hj
  have hx : (storeSplit o split).x =
      orBytes o.x o.cur.ptr (min (split + 1) 15 <<< (12 - o.cur.offset)) 1 2 := by
    simp only [storeSplit, h₀, h₁]
    rfl
  refine ⟨?_, by simp [storeSplit]⟩
  have hext := @extends_orBytes _ _ _ 2 1 (min (split + 1) 15) 4 (12 - o.cur.offset) hj h (by norm_num)
      (by omega) (by omega)
  rw [show lost o.cur.offset 4 2 = 0 by unfold lost; omega, Nat.shiftRight_zero,
    Nat.shiftLeft_zero] at hext
  rw [hx]
  exact hext

/-- The unary one over the entropy bits. -/
theorem unary1_or (d : ℕ) :
    (d &&& (1 <<< split - 1)) ||| 1 <<< split = 2 ^ split + d % 2 ^ split := by
  rw [Nat.one_shiftLeft, Nat.and_two_pow_sub_one_eq_mod, Nat.or_comm]
  simpa using (Nat.two_pow_add_eq_or_of_lt (Nat.mod_lt d (Nat.two_pow_pos split)) 1).symm

theorem crunchBlock_writes (hs : split ≤ 14) :
    ∀ (block : List ℕ) (o : Out), Blank (msb o.x) o.cur.pos →
      Writes o (crunchBlock split o block) (crunchBits split o.cur.pos block)
  | [], o, h => .refl h
  | d :: block, o, h => by
    rw [crunchBlock, crunchBits]
    set c := o.cur.advance (d >>> split) with hc
    have hcpos : c.pos = o.cur.pos + d >>> split := by rw [hc, Cursor.advance_pos]
    have hj := c.offset_lt
    have hw : 2 ^ split + d % 2 ^ split < 2 ^ (split + 1) := by
      have := Nat.mod_lt d (Nat.two_pow_pos split)
      rw [pow_succ]
      omega
    have hblank : Blank (msb o.x) c.pos := fun k hk =>
      h k ((Nat.le_add_right _ _).trans (hcpos ▸ hk))
    have hzeros : Writes o ⟨o.x, c⟩ (List.replicate (d >>> split) false) :=
      ⟨.zeros h _, by simp [hcpos]⟩
    have hone : Writes ⟨o.x, c⟩
        ⟨orBytes o.x c.ptr (((d &&& (1 <<< split - 1)) ||| 1 <<< split) <<< (31 - split - c.offset)) 3 2,
          c.advance (split + 1)⟩
        (highBits (split + 1) ((2 ^ split + d % 2 ^ split) >>> dropped split c.pos <<<
          dropped split c.pos)) := by
      refine ⟨?_, by simp⟩
      rw [unary1_or, dropped, Cursor.pos_mod]
      exact extends_orBytes (j := c.offset) hj hblank hw (by omega) (by omega)
    have hsample := hzeros.trans hone
    rw [hcpos] at hsample
    have hrest := crunchBlock_writes hs block _ hsample.blank
    rw [hsample.pos] at hrest
    refine hsample.trans ?_
    convert hrest using 2
    simp
    omega

theorem copyBlock_writes :
    ∀ (block : List ℕ) (o : Out), (∀ d ∈ block, d < 2 ^ 16) → Blank (msb o.x) o.cur.pos →
      Writes o (copyBlock o block) (block.flatMap (highBits 16))
  | [], o, _, h => .refl h
  | d :: block, o, hd, h => by
    rw [copyBlock, List.flatMap_cons]
    have hj := o.cur.offset_lt
    have hone : Writes o ⟨orBytes o.x o.cur.ptr (d <<< (8 - o.cur.offset)) 2 3,
        { o.cur with ptr := o.cur.ptr + 2 }⟩ (highBits 16 d) := by
      refine ⟨?_, by simp [Cursor.pos]; omega⟩
      have hext := @extends_orBytes _ _ _ 3 2 d 16 (8 - o.cur.offset) hj h (hd d List.mem_cons_self)
          (by omega) (by omega)
      rwa [show lost o.cur.offset 16 3 = 0 by unfold lost; omega, Nat.shiftRight_zero,
        Nat.shiftLeft_zero] at hext
    exact hone.trans (copyBlock_writes block _ (fun e he => hd e (List.mem_cons_of_mem d he)) hone.blank)

theorem compBlock_writes {split : ℤ} {diff : List ℕ} (hs : -1 ≤ split) (hd : ∀ d ∈ diff, d < 2 ^ 16)
    (h : Blank (msb o.x) o.cur.pos) :
    Writes o (compBlock split diff o) (blockBits split o.cur.pos diff) := by
  unfold compBlock blockBits
  split_ifs with h₁ h₂
  · have hcode := @storeSplit_writes _ maxEntropyBits (by decide) h
    exact hcode.trans (copyBlock_writes diff _ hd hcode.blank)
  · exact ⟨.zeros h 4, by simp⟩
  · have hlt : split.toNat < 14 := by unfold maxEntropyBits at h₁; omega
    have hcode := @storeSplit_writes _ split.toNat (by omega) h
    rw [Nat.min_eq_left (by omega)] at hcode
    have hrest := crunchBlock_writes (by omega : split.toNat ≤ 14) diff _ hcode.blank
    rw [hcode.pos, highBits_length] at hrest
    exact hcode.trans hrest

end Encoder

/-! ## The decoder reads them back -/

section Unary

variable {y : Buf}

theorem nLeadingZeroes_eq_map :
    nLeadingZeroes = (List.range 256).map fun v => if v = 0 then 8 else 7 - v.log2 := by decide +kernel

theorem nLeadingZeroes_log2 {v : ℕ} (hv : v < 256) (hne : v ≠ 0) : nLeadingZeroes.getD v 0 = 7 - v.log2 := by
  rw [nLeadingZeroes_eq_map, List.getD_eq_getElem?_getD, List.getElem?_map, List.getElem?_range hv, Option.map_some,
    Option.getD_some, if_neg hne]

theorem nLeadingZeroes_spec (v : ℕ) (hv : v < 256) (hne : v ≠ 0) : nLeadingZeroes.getD v 0 < 8 ∧
    v.testBit (7 - nLeadingZeroes.getD v 0) = true ∧
    ∀ i < nLeadingZeroes.getD v 0, v.testBit (7 - i) = false := by
  have hlog : v.log2 < 8 := (Nat.log2_lt hne).2 hv
  rw [nLeadingZeroes_log2 hv hne]
  refine ⟨by omega, ?_, fun i hi => ?_⟩
  · rw [Nat.sub_sub_self (by omega)]
    exact Nat.testBit_log2 hne
  · exact Nat.testBit_lt_two_pow ((Nat.log2_lt hne).1 (by omega))

/-- The table counts the zeros above the highest one. -/
theorem nLeadingZeroes_eq {v m : ℕ} (hv : v < 256) (hone : v.testBit (7 - m) = true)
    (hzero : ∀ i < m, v.testBit (7 - i) = false) : nLeadingZeroes.getD v 0 = m := by
  have hv0 : v ≠ 0 := by
    rintro rfl
    simp at hone
  obtain ⟨-, hone', hzero'⟩ := nLeadingZeroes_spec v hv hv0
  rcases Nat.lt_trichotomy (nLeadingZeroes.getD v 0) m with hlt | heq | hgt
  · rw [hzero _ hlt] at hone'
    cases hone'
  · exact heq
  · rw [hzero' _ hgt] at hone
    cases hone

/-- The scan from byte `i`, of which `val` is what lies behind the start `lo`, ends in the byte of
the first one, at `P`. -/
theorem scanUnary_spec {lo P : ℕ} (hlo : lo ≤ P) (hzero : ∀ k, lo ≤ k → k < P → msb y k = false)
    (hone : msb y P = true) : ∀ n i zeroes val, val < 256 →
      (∀ t < 8, val.testBit (7 - t) = (decide (lo ≤ 8 * i + t) && msb y (8 * i + t))) →
      lo < 8 * (i + 1) → 8 * i ≤ P → P / 8 ≤ i + n →
      (scanUnary y n i zeroes val).1 + nLeadingZeroes.getD (scanUnary y n i zeroes val).2 0 =
        zeroes + (P - 8 * i) := by
  -- if the first one is in byte `i`, the table finds it there
  have hhere : ∀ i val, val < 256 →
      (∀ t < 8, val.testBit (7 - t) = (decide (lo ≤ 8 * i + t) && msb y (8 * i + t))) →
      P / 8 = i → nLeadingZeroes.getD val 0 = P - 8 * i ∧ val ≠ 0 := by
    intro i val hval hbits hi
    have h1 : val.testBit (7 - (P - 8 * i)) = true := by
      rw [hbits _ (by omega), show 8 * i + (P - 8 * i) = P by omega, hone, decide_eq_true hlo]
      rfl
    refine ⟨nLeadingZeroes_eq hval h1 fun t ht => ?_, ?_⟩
    · rw [hbits _ (by omega)]
      by_cases hlt : lo ≤ 8 * i + t
      · rw [hzero _ hlt (by omega), Bool.and_false]
      · rw [decide_eq_false hlt, Bool.false_and]
    · rintro rfl
      simp at h1
  intro n
  induction n with
  | zero =>
    intro i zeroes val hval hbits hloi hi hn
    rw [scanUnary, (hhere i val hval hbits (by omega)).1]
  | succ n ih =>
    intro i zeroes val hval hbits hloi hi hn
    rw [scanUnary]
    by_cases hPi : P / 8 = i
    · obtain ⟨hlz, hne⟩ := hhere i val hval hbits hPi
      rw [if_neg hne, hlz]
    · have hval0 : val = 0 := by
        refine Nat.eq_of_testBit_eq fun t => ?_
        rw [Nat.zero_testBit]
        by_cases ht : t < 8
        · rw [show t = 7 - (7 - t) by omega, hbits _ (by omega)]
          by_cases hlt : lo ≤ 8 * i + (7 - t)
          · rw [hzero _ hlt (by omega), Bool.and_false]
          · rw [decide_eq_false hlt, Bool.false_and]
        · have hpow : 2 ^ 8 ≤ 2 ^ t := Nat.pow_le_pow_right (by decide) (by omega)
          exact Nat.testBit_lt_two_pow (by omega)
      rw [if_pos hval0, ih (i + 1) (zeroes + 8) _ (y (i + 1)).isLt ?_ (by omega) (by omega) (by omega)]
      · omega
      · intro t ht
        rw [decide_eq_true (by omega : lo ≤ 8 * (i + 1) + t), Bool.true_and, msb, show (8 * (i + 1) + t) / 8 =
            i + 1 by omega,
          show (8 * (i + 1) + t) % 8 = t by omega]
        rfl

/-- **The scan finds the unary code** at the cursor. -/
theorem leadingZeroes_eq {c : Cursor} {q fuel : ℕ} (hf : (c.offset + q) / 8 ≤ fuel)
    (hzero : ∀ i < q, msb y (c.pos + i) = false) (hone : msb y (c.pos + q) = true) :
    leadingZeroes y fuel c = q := by
  have hj := c.offset_lt
  have hpos : c.pos = 8 * c.ptr + c.offset := rfl
  have hmask : ∀ t < 8, ((y c.ptr).toNat &&& (0xFF >>> c.offset)).testBit (7 - t) =
      (decide (c.pos ≤ 8 * c.ptr + t) && msb y (8 * c.ptr + t)) := by
    intro t ht
    rw [Nat.testBit_and, Nat.testBit_shiftRight, show (0xFF : ℕ) = 2 ^ 8 - 1 by rfl,
      Nat.testBit_two_pow_sub_one, msb, show (8 * c.ptr + t) / 8 = c.ptr by omega,
      show (8 * c.ptr + t) % 8 = t by omega, Bool.and_comm]
    congr 1
    exact decide_eq_decide.mpr (by omega)
  have hscan := scanUnary_spec (P := c.pos + q) (by omega) (fun k h₁ h₂ => by
      have := hzero (k - c.pos) (by omega)
      rwa [show c.pos + (k - c.pos) = k by omega] at this) hone fuel c.ptr 0 _
          (Nat.and_lt_two_pow _ (n := 8) ((Nat.shiftRight_le _ _).trans_lt (by decide))) hmask (by omega)
          (by omega) (by omega)
  rw [leadingZeroes]
  omega

/-- The entropy bits are the field at the cursor. -/
theorem entropyBits_eq {c : Cursor} {split : ℕ} (hs : split ≤ 16) :
    entropyBits y split c = field (msb y) c.pos split := by
  have hj := c.offset_lt
  have hn : (1 + ((c.offset : ℤ) + split - 1) / 8).toNat = (c.offset + split + 7) / 8 := by omega
  have hr : (8 * (1 + ((c.offset : ℤ) + split - 1) / 8) - ((c.offset : ℤ) + split - 1) - 1).toNat =
      8 * ((c.offset + split + 7) / 8) - (c.offset + split) := by omega
  simp only [entropyBits]
  rw [hn, hr, Nat.one_shiftLeft, Nat.and_two_pow_sub_one_eq_mod,
    Nat.mod_mod_of_dvd _ (Nat.pow_dvd_pow 2 hs), beLoad_field (by omega)]
  congr 1
  unfold Cursor.pos
  omega

end Unary

section Blocks

variable {y : Buf} {fuel split p d : ℕ}

/-- A difference less the bits dropped of it. -/
def keptOf (split p d : ℕ) : ℕ :=
  d >>> dropped split (p + d >>> split) <<< dropped split (p + d >>> split)

theorem dropped_le : dropped split p ≤ split := by
  unfold dropped lost
  omega

/-- The quotient and the entropy bits that were written make up what is kept. -/
theorem or_entropy_eq (split d l : ℕ) (hl : l ≤ split) :
    (d >>> split <<< split) ||| ((2 ^ split + d % 2 ^ split) >>> l <<< l) % 2 ^ split =
      d >>> l <<< l := by
  refine Nat.eq_of_testBit_eq fun t => ?_
  simp only [Nat.testBit_or, Nat.testBit_shiftLeft, Nat.testBit_shiftRight, Nat.testBit_mod_two_pow]
  by_cases hlt : l ≤ t
  · rw [show l + (t - l) = t by omega, decide_eq_true (by omega : t ≥ l)]
    by_cases hts : t < split
    · rw [decide_eq_false (by omega), decide_eq_true hts, Nat.testBit_two_pow_add_gt hts,
        Nat.testBit_mod_two_pow, decide_eq_true hts]
      simp
    · rw [decide_eq_false hts, decide_eq_true (by omega), show split + (t - split) = t by omega]
      simp
  · rw [decide_eq_false (by omega : ¬ t ≥ l), decide_eq_false (by omega : ¬ t ≥ split)]
    simp

theorem keptOf_le : keptOf split p d ≤ d := by
  rw [keptOf, Nat.shiftLeft_eq, Nat.shiftRight_eq_div_pow]
  exact Nat.div_mul_le_self _ _

theorem keptOf_eq_iff : keptOf split p d = d ↔ d % 2 ^ dropped split (p + d >>> split) = 0 := by
  rw [keptOf, Nat.shiftLeft_eq, Nat.shiftRight_eq_div_pow]
  generalize 2 ^ dropped split (p + d >>> split) = m
  have h := Nat.div_add_mod' d m
  omega

@[simp] theorem sampleBits_length : (sampleBits split p d).length = d >>> split + 1 + split := by
  simp [sampleBits]
  omega

/-- A sample's code is its zeros, its one, and its entropy bits. -/
theorem holds_sampleBits {f : Bits} (h : Holds f p (sampleBits split p d)) :
    (∀ i < d >>> split, f (p + i) = false) ∧ f (p + d >>> split) = true ∧
      d >>> split <<< split ||| field f (p + d >>> split + 1) split = keptOf split p d := by
  obtain ⟨hzero, hone⟩ := holds_append.mp h
  rw [List.length_replicate, highBits_succ, holds_cons] at hone
  obtain ⟨hone, hbits⟩ := hone
  refine ⟨fun i hi => ?_, ?_, ?_⟩
  · rw [hzero i (by simpa using hi), List.getElem_replicate]
  · have hl := @dropped_le split (p + d >>> split)
    rw [hone, Nat.testBit_shiftLeft, Nat.testBit_shiftRight, decide_eq_true (by omega), Bool.true_and,
      show ∀ l, l ≤ split → l + (split - l) = split by omega, Nat.testBit_two_pow_add_eq,
      Nat.testBit_lt_two_pow (Nat.mod_lt _ (Nat.two_pow_pos split))]
    · rfl
    · exact hl
  · rw [field_of_holds hbits, or_entropy_eq _ _ _ dropped_le, keptOf]

/-- **A Golomb–Rice block is read back up to the bits dropped**, and the cursor ends behind it. -/
theorem uncrunchBlock_spec (hs : split ≤ 16) (hf : 8193 ≤ fuel) :
    ∀ (block : List ℕ) (c : Cursor), (∀ d ∈ block, d < 2 ^ 16) →
      Holds (msb y) c.pos (crunchBits split c.pos block) →
      let r := uncrunchBlock y fuel split block.length c
      r.1.length = block.length ∧ (∀ d ∈ r.1, d < 2 ^ 16) ∧
        (r.1 = block ↔ CrunchIntact split c.pos block) ∧
        r.2.pos = c.pos + (block.map fun d => d >>> split + 1 + split).sum
  | [], c, _, _ => by simp [uncrunchBlock, CrunchIntact]
  | d :: block, c, hd, h => by
    obtain ⟨hsample, hrest⟩ := holds_append.mp h
    obtain ⟨hzero, hone, hkept⟩ := holds_sampleBits hsample
    rw [sampleBits_length] at hrest
    have hq : d >>> split < 2 ^ 16 := by
      rw [Nat.shiftRight_eq_div_pow]
      exact (Nat.div_le_self _ _).trans_lt (hd d List.mem_cons_self)
    have hj := c.offset_lt
    have hlead := @leadingZeroes_eq _ _ _ fuel (by omega) hzero hone
    set c₁ := c.advance (d >>> split + 1) with hc₁
    have hc₁pos : c₁.pos = c.pos + d >>> split + 1 := by simp [hc₁]; omega
    have hc₂pos : (c₁.advance split).pos = c.pos + (d >>> split + 1 + split) := by
      simp [hc₁]; omega
    rw [← hc₂pos] at hrest
    obtain ⟨hlen, hlt, hiff, hpos⟩ := uncrunchBlock_spec hs hf block (c₁.advance split)
      (fun e he => hd e (List.mem_cons_of_mem d he)) hrest
    have hval : d >>> split <<< split ||| entropyBits y split c₁ = keptOf split c.pos d := by
      rw [entropyBits_eq hs, hc₁pos, hkept]
    rw [List.length_cons]
    simp only [uncrunchBlock, hlead, ← hc₁, hval]
    refine ⟨by simp [hlen], fun e he => ?_, ?_, ?_⟩
    · rcases List.mem_cons.mp he with rfl | he
      · exact keptOf_le.trans_lt (hd d List.mem_cons_self)
      · exact hlt e he
    · rw [List.cons.injEq, hiff, keptOf_eq_iff, hc₂pos, CrunchIntact]
    · rw [hpos, hc₂pos]
      simp
      omega

/-! ## Raw blocks -/

/-- The raw differences at the cursor. -/
def rawDiffs (f : Bits) (p n : ℕ) : List ℕ := (List.range n).map fun i => field f (p + 16 * i) 16

/-- Each load gives the next differences of the stream. -/
theorem copyGroups_spec {c : Cursor} {blockSize n : ℕ} (hn : n ≤ blockSize) :
    ∀ k w, n - w ≤ k → ∃ m, n - w ≤ m ∧
      copyGroups y c blockSize n k w = rawDiffs (msb y) (c.pos + 16 * w) m := by
  intro k
  induction k with
  | zero => exact fun w hw => ⟨0, hw, rfl⟩
  | succ k ih =>
    intro w hw
    rw [copyGroups]
    by_cases hwn : w < n
    · have hj := c.offset_lt
      set nVals := min 3 (blockSize - w) with hnVals
      obtain ⟨m, hm, hrest⟩ := ih (w + nVals) (by omega)
      refine ⟨nVals + m, by omega, ?_⟩
      rw [if_pos ⟨hwn, by omega⟩]
      simp only [hrest, rawDiffs, List.range_add, List.map_append, List.map_map]
      congr 1
      · refine List.map_congr_left fun i hi => ?_
        have hi' := List.mem_range.mp hi
        rw [← Nat.shiftRight_add, beLoad_field (by omega)]
        congr 1
        unfold Cursor.pos
        omega
      · refine List.map_congr_left fun i _ => ?_
        simp only [Function.comp]
        congr 1
        omega
    · rw [if_neg (by omega)]
      exact ⟨0, by omega, rfl⟩

theorem uncopyBlock_spec {c : Cursor} {blockSize n : ℕ} (hn : n ≤ blockSize) :
    (uncopyBlock y blockSize n c).take n = rawDiffs (msb y) c.pos n := by
  unfold uncopyBlock
  split_ifs with hj
  · obtain ⟨m, hm, h⟩ := copyGroups_spec (y := y) (c := c) hn n 0 (by omega)
    rw [h, rawDiffs, rawDiffs, ← List.map_take, List.take_range, Nat.min_eq_left (by omega)]
    rfl
  · rw [List.take_of_length_le (by simp), rawDiffs]
    refine List.map_congr_left fun i _ => ?_
    rw [beLoad_eq_field, Cursor.pos, not_not.mp hj]
    congr 1
    omega

/-- Raw differences are read back. -/
theorem rawDiffs_of_holds {f : Bits} : ∀ (diff : List ℕ) (p : ℕ), (∀ d ∈ diff, d < 2 ^ 16) →
    Holds f p (diff.flatMap (highBits 16)) → rawDiffs f p diff.length = diff
  | [], _, _, _ => rfl
  | d :: diff, p, hd, h => by
    rw [List.flatMap_cons, holds_append, highBits_length] at h
    have ih := rawDiffs_of_holds diff (p + 16) (fun e he => hd e (List.mem_cons_of_mem d he)) h.2
    have hd₀ := field_of_holds h.1
    rw [Nat.mod_eq_of_lt (hd d List.mem_cons_self)] at hd₀
    rw [rawDiffs, List.length_cons, List.range_succ_eq_map, List.map_cons, List.map_map, Nat.mul_zero,
      Nat.add_zero, hd₀]
    congr 1
    rw [← ih, rawDiffs]
    refine (List.map_congr_left fun i _ => ?_).trans (by rw [List.length_map, List.length_range])
    simp only [Function.comp, Nat.succ_eq_add_one]
    congr 1
    omega

/-- A code with 13 entropy bits, read as a raw difference, is another number. -/
theorem field_ne_of_split13 {f : Bits} (hd : d < 2 ^ 16) (h : Holds f p (sampleBits 13 p d)) :
    field f p 16 ≠ d := by
  obtain ⟨hzero, hone, -⟩ := holds_sampleBits h
  have hq : d >>> 13 = d / 8192 := Nat.shiftRight_eq_div_pow d 13
  have hq7 : d / 8192 ≤ 7 := by omega
  rw [hq] at hzero hone
  rw [field_of_zeros (by omega) hzero]
  have hge := le_field_of_one (m := 16 - d / 8192) (by omega) hone
  have hlt := field_lt (f := f) (p := p + d / 8192) (m := 16 - d / 8192)
  generalize hk : d / 8192 = q at *
  generalize field f (p + q) (16 - q) = v at *
  rintro rfl
  interval_cases q <;> omega

end Blocks

/-! ## Differences and samples -/

section Samples

variable {refValue b : BitVec 16} {lastValue : ℤ} {d : ℕ}

theorem zigzag_lt (b : BitVec 16) : zigzag b.toInt < 2 ^ 16 := by
  have h₁ := BitVec.le_toInt b
  have h₂ := BitVec.toInt_lt (x := b)
  norm_num at h₁ h₂
  unfold zigzag
  split_ifs <;> omega

theorem unzigzag_zigzag (t : ℤ) : unzigzag (zigzag t) = t := by
  unfold unzigzag zigzag
  split_ifs <;> omega

theorem zigzag_unzigzag (d : ℕ) : zigzag (unzigzag d) = d := by
  unfold unzigzag zigzag
  split_ifs <;> omega

/-- A sample comes out right if and only if its difference does. -/
theorem ofInt_unzigzag_iff (hd : d < 2 ^ 16) : BitVec.ofInt 16 (lastValue + unzigzag d) = b ↔
    d = zigzag (b - BitVec.ofInt 16 lastValue).toInt := by
  have hrange : (BitVec.ofInt 16 (unzigzag d)).toInt = unzigzag d := by
    rw [BitVec.toInt_ofInt_eq_self (by decide)] <;> unfold unzigzag <;> split_ifs <;> norm_num <;> omega
  constructor
  · rintro rfl
    rw [BitVec.ofInt_add, BitVec.add_comm, BitVec.add_sub_cancel, hrange, zigzag_unzigzag]
  · rintro rfl
    rw [unzigzag_zigzag, BitVec.ofInt_add, BitVec.ofInt_toInt, BitVec.add_comm, BitVec.sub_add_cancel]

@[simp] theorem preprocessDiff_length : ∀ (refValue : BitVec 16) (block : List (BitVec 16)),
    (preprocessDiff refValue block).length = block.length
  | _, [] => rfl
  | _, b :: block => by rw [preprocessDiff, List.length_cons, preprocessDiff_length, List.length_cons]

theorem preprocessDiff_lt : ∀ (refValue : BitVec 16) (block : List (BitVec 16)),
    ∀ d ∈ preprocessDiff refValue block, d < 2 ^ 16
  | _, [], _, h => by cases h
  | refValue, b :: block, d, h => by
    rcases List.mem_cons.mp h with rfl | h
    · exact zigzag_lt _
    · exact preprocessDiff_lt b block d h

@[simp] theorem undiff_length : ∀ (lastValue : ℤ) (diff : List ℕ),
    (undiff lastValue diff).length = diff.length
  | _, [] => rfl
  | _, d :: diff => by rw [undiff, List.length_cons, undiff_length, List.length_cons]

/-- **The samples of a block come out right if and only if the differences did.** -/
theorem undiff_eq_iff : ∀ (block : List (BitVec 16)) (diff : List ℕ) (lastValue : ℤ),
    diff.length = block.length → (∀ d ∈ diff, d < 2 ^ 16) →
    (undiff lastValue diff = block ↔ diff = preprocessDiff (BitVec.ofInt 16 lastValue) block)
  | [], [], _, _, _ => by simp [undiff, preprocessDiff]
  | b :: block, d :: diff, lastValue, hlen, hd => by
    rw [undiff, preprocessDiff, List.cons.injEq, List.cons.injEq,
      ofInt_unzigzag_iff (hd d List.mem_cons_self)]
    refine and_congr_right fun h => ?_
    have hb := (ofInt_unzigzag_iff (hd d List.mem_cons_self)).mpr h
    rw [undiff_eq_iff block diff _ (by simpa using hlen)
      fun e he => hd e (List.mem_cons_of_mem d he), BitVec.ofInt_toInt, hb]

theorem undiff_zeros : ∀ (n : ℕ) (lastValue : ℤ),
    undiff lastValue (List.replicate n 0) = List.replicate n (BitVec.ofInt 16 lastValue)
  | 0, _ => rfl
  | n + 1, lastValue => by
    have h0 : lastValue + unzigzag 0 = lastValue := by simp [unzigzag]
    rw [List.replicate_succ, undiff, undiff_zeros n, List.replicate_succ, h0, BitVec.ofInt_toInt]

end Samples

/-! ## One block -/

section Block

variable {y : Buf} {fuel blockSize : ℕ} {split : ℤ} {diff : List ℕ} {c : Cursor}

theorem blockBits_length : ∀ p, (blockBits split p diff).length = blockLen split diff := by
  have hcrunch : ∀ (s : ℕ) (block : List ℕ) (p : ℕ),
      (crunchBits s p block).length = (block.map fun d => d >>> s + 1 + s).sum := by
    intro s block
    induction block with
    | nil => exact fun p => rfl
    | cons d block ih =>
      intro p
      rw [crunchBits, List.length_append, sampleBits_length, ih, List.map_cons, List.sum_cons]
  intro p
  unfold blockBits blockLen
  split_ifs
  · simp [List.length_flatMap, Nat.mul_comm]
  · simp
  · rw [List.length_append, hcrunch, highBits_length]

/-- The split code at the cursor. -/
theorem splitCode_eq {code : ℕ} (hcode : code < 16) (h : Holds (msb y) c.pos (highBits 4 code)) :
    (beLoad y c.ptr 2 >>> (12 - c.offset)) % 16 = code := by
  have hj := c.offset_lt
  have hload := beLoad_field (x := y) (i := c.ptr) (n := 2) (m := 4) (s := 12 - c.offset) (by omega)
  rw [show (2 : ℕ) ^ 4 = 16 by rfl] at hload
  rw [hload, show 8 * c.ptr + (8 * 2 - (12 - c.offset) - 4) = c.pos by unfold Cursor.pos; omega,
    field_of_holds h]
  exact Nat.mod_eq_of_lt hcode

/-- The last value kept is the last sample. -/
def lastOf (lastValue : ℤ) (out : List (BitVec 16)) : ℤ :=
  (out.getLast?.map BitVec.toInt).getD lastValue

theorem ofInt_lastOf (lastValue : ℤ) (out : List (BitVec 16)) :
    BitVec.ofInt 16 (lastOf lastValue out) = out.getLastD (BitVec.ofInt 16 lastValue) := by
  rw [lastOf, List.getLastD_eq_getLast?]
  cases out.getLast? <;> simp

section Codes

variable {code n : ℕ} {lastValue : ℤ} (hsplit : (beLoad y c.ptr 2 >>> (12 - c.offset)) % 16 = code)
include hsplit

/-- Code 0: all samples equal. -/
theorem decompBlock_same (h : code = 0) : decompBlock y fuel blockSize n c lastValue =
    (List.replicate n (BitVec.ofInt 16 lastValue), c.advance 4, lastValue) := by
  simp only [decompBlock, hsplit, h, if_true]

/-- Codes 14 and 15: raw differences. -/
theorem decompBlock_raw (h : maxEntropyBits ≤ code) (hn : n ≤ blockSize) :
    decompBlock y fuel blockSize n c lastValue =
      let out := undiff lastValue (rawDiffs (msb y) (c.advance 4).pos n)
      (out, { c.advance 4 with ptr := (c.advance 4).ptr + 2 * n }, lastOf lastValue out) := by
  have h0 : code ≠ 0 := by
    rintro rfl
    cases h
  simp only [decompBlock, hsplit, if_neg h0, if_pos h, uncopyBlock_spec hn]
  rfl

/-- The other codes: Golomb–Rice codes. -/
theorem decompBlock_crunch (h0 : code ≠ 0) (h : ¬ maxEntropyBits ≤ code) :
    decompBlock y fuel blockSize n c lastValue =
      let r := uncrunchBlock y fuel (code - 1) n (c.advance 4)
      let out := undiff lastValue (r.1.take n)
      (out, r.2, lastOf lastValue out) := by
  simp only [decompBlock, hsplit, if_neg h0, if_neg h]
  rfl

end Codes

/-- **What the decoder makes of a block**: samples undone from differences that are the block's if
and only if it is intact, and then the cursor and the last value are the encoder's. -/
theorem decompBlock_spec {lastValue : ℤ} (hf : 8193 ≤ fuel) (hs : -1 ≤ split)
    (hz : split = -1 → ∀ d ∈ diff, d = 0) (hd : ∀ d ∈ diff, d < 2 ^ 16) (hne : diff ≠ [])
    (hn : diff.length ≤ blockSize) (h : Holds (msb y) c.pos (blockBits split c.pos diff)) :
    let r := decompBlock y fuel blockSize diff.length c lastValue
    ∃ diff' : List ℕ, diff'.length = diff.length ∧ (∀ d ∈ diff', d < 2 ^ 16) ∧
      (diff' = diff ↔ BlockIntact split c.pos diff) ∧ r.1 = undiff lastValue diff' ∧
      (BlockIntact split c.pos diff → r.2.1.pos = c.pos + blockLen split diff) ∧
      BitVec.ofInt 16 r.2.2 = r.1.getLastD (BitVec.ofInt 16 lastValue) := by
  have hc₁ : (c.advance 4).pos = c.pos + 4 := Cursor.advance_pos c 4
  unfold blockBits at h
  unfold blockLen
  split_ifs at h with h₁ h₂
  · -- raw, under code 15
    obtain ⟨hcode, hraw⟩ := holds_append.mp h
    rw [highBits_length, ← hc₁] at hraw
    rw [decompBlock_raw (splitCode_eq (by decide : 15 < 16) hcode) (by decide) hn,
      rawDiffs_of_holds diff _ hd hraw]
    refine ⟨diff, rfl, hd, iff_of_true rfl (.inl h₁), rfl, fun _ => ?_, ofInt_lastOf _ _⟩
    rw [if_pos h₁]
    simp only [Cursor.pos] at hc₁ ⊢
    omega
  · -- all samples equal, under code 0
    have hdiff : diff = List.replicate diff.length 0 := List.eq_replicate_of_mem (hz h₂)
    have hcode : Holds (msb y) c.pos (highBits 4 0) := h
    rw [decompBlock_same (splitCode_eq (by decide : 0 < 16) hcode) rfl]
    refine ⟨diff, rfl, hd, iff_of_true rfl (.inr (.inl h₂)), ?_, fun _ => ?_, ?_⟩
    · conv_rhs => rw [hdiff]
      exact (undiff_zeros _ _).symm
    · rw [if_neg h₁, if_pos h₂]
      exact hc₁
    · obtain ⟨k, hk⟩ := Nat.exists_eq_succ_of_ne_zero
        (fun h0 => hne (List.length_eq_zero_iff.mp h0) : diff.length ≠ 0)
      rw [hk, List.replicate_succ']
      simp
  · obtain ⟨hcode, hcrunch⟩ := holds_append.mp h
    rw [highBits_length, ← hc₁] at hcrunch
    have hlt : split < 14 := lt_of_not_ge h₁
    have hsplit := splitCode_eq (by omega : split.toNat + 1 < 16) hcode
    by_cases h13 : split = 13
    · -- split 13 goes under code 14, which the decoder takes for raw
      subst h13
      rw [decompBlock_raw hsplit (by decide) hn]
      have hbad : ¬ BlockIntact 13 c.pos diff := fun hok =>
        ((hok.resolve_left h₁).resolve_left h₂).1 rfl
      refine ⟨rawDiffs (msb y) (c.advance 4).pos diff.length, by simp [rawDiffs], ?_, ?_, rfl,
        fun hok => absurd hok hbad, ofInt_lastOf _ _⟩
      · intro d hmem
        obtain ⟨i, -, rfl⟩ := List.mem_map.mp hmem
        exact field_lt
      · refine iff_of_false ?_ hbad
        obtain ⟨d, rest, rfl⟩ := List.exists_cons_of_ne_nil hne
        intro heq
        rw [rawDiffs, List.length_cons, List.range_succ_eq_map, List.map_cons, List.cons.injEq] at heq
        exact field_ne_of_split13 (hd d List.mem_cons_self) (holds_append.mp hcrunch).1 heq.1
    · -- Golomb–Rice codes
      have hcond : ¬ maxEntropyBits ≤ split.toNat + 1 := by
        unfold maxEntropyBits
        omega
      rw [decompBlock_crunch hsplit (Nat.succ_ne_zero _) hcond, Nat.add_sub_cancel]
      obtain ⟨hlen, hlt', hiff, hpos⟩ := uncrunchBlock_spec (by omega) hf diff (c.advance 4) hd hcrunch
      dsimp only
      rw [List.take_of_length_le hlen.le]
      refine ⟨_, hlen, hlt', ?_, rfl, fun _ => ?_, ofInt_lastOf _ _⟩
      · rw [hiff, hc₁]
        exact ⟨fun hok => .inr (.inr ⟨h13, hok⟩), fun hok =>
          ((hok.resolve_left h₁).resolve_left h₂).2⟩
      · rw [if_neg h₁, if_neg h₂, hpos, hc₁, Nat.add_assoc]

end Block

/-! ## All blocks -/

/-- The stream of the blocks, the first at position `p`. -/
def streamBits (pick : List ℕ → ℤ) (blockSize : ℕ) : ℕ → ℕ → BitVec 16 → List (BitVec 16) → List Bool
  | 0, _, _, _ => []
  | n + 1, p, refValue, samples =>
    if samples = [] then []
    else
      let block := samples.take blockSize
      let diff := preprocessDiff refValue block
      blockBits (pick diff) p diff ++ streamBits pick blockSize n (p + blockLen (pick diff) diff)
        (block.getLastD refValue) (samples.drop blockSize)

/-- `out` of `n` samples was zero before. -/
def padTo (n : ℕ) (out : List (BitVec 16)) : List (BitVec 16) :=
  out ++ List.replicate (n - out.length) 0

theorem padTo_append {n : ℕ} {as bs : List (BitVec 16)} :
    padTo n (as ++ bs) = as ++ padTo (n - as.length) bs := by
  simp only [padTo, List.append_assoc, List.length_append, Nat.sub_sub]

section Run

variable {pick : List ℕ → ℤ} {blockSize fuel inSize : ℕ} {y : Buf}

theorem compBlocks_writes (hp : Picks pick) : ∀ (n : ℕ) (o : Out) (refValue : BitVec 16)
    (samples : List (BitVec 16)), Blank (msb o.x) o.cur.pos →
    Writes o (compBlocks pick blockSize n o refValue samples)
      (streamBits pick blockSize n o.cur.pos refValue samples)
  | 0, o, _, _, h => .refl h
  | n + 1, o, refValue, samples, h => by
    rw [compBlocks, streamBits]
    split_ifs with hnil
    · exact .refl h
    · set diff := preprocessDiff refValue (samples.take blockSize) with hdiff
      have hblock := @compBlock_writes _ _ diff (hp.neg_one_le diff) (preprocessDiff_lt refValue _) h
      have hrest := compBlocks_writes hp n _ ((samples.take blockSize).getLastD refValue)
        (samples.drop blockSize) hblock.blank
      rw [hblock.pos, blockBits_length] at hrest
      exact hblock.trans hrest

theorem four_le_blockLen {split : ℤ} {diff : List ℕ} : 4 ≤ blockLen split diff := by
  unfold blockLen
  split_ifs <;> omega

/-- **The blocks come out right if and only if they are intact**, by induction over them: up to the
first block that is not, cursor and last value are the encoder's. -/
theorem decompBlocks_iff (hp : Picks pick) (hbs : 1 ≤ blockSize) (hf : 8193 ≤ fuel) :
    ∀ (n : ℕ) (samples : List (BitVec 16)) (c : Cursor) (lastValue : ℤ) (refValue : BitVec 16),
      samples.length ≤ n → BitVec.ofInt 16 lastValue = refValue →
      Holds (msb y) c.pos (streamBits pick blockSize n c.pos refValue samples) →
      c.pos + (streamBits pick blockSize n c.pos refValue samples).length ≤ 8 * inSize →
      (padTo samples.length
          (decompBlocks y fuel inSize blockSize n c lastValue samples.length) = samples ↔
        BlocksIntact pick blockSize n c.pos refValue samples) := by
  intro n
  induction n with
  | zero =>
    intro samples c lastValue refValue hlen _ _ _
    obtain rfl := List.length_eq_zero_iff.mp (Nat.le_zero.mp hlen)
    exact iff_of_true rfl trivial
  | succ n ih =>
    intro samples c lastValue refValue hlen href hbits hsize
    rw [decompBlocks, BlocksIntact]
    rw [streamBits] at hbits hsize
    by_cases hnil : samples = []
    · subst hnil
      simp [padTo]
    · have hpos : 0 < samples.length := List.length_pos_of_ne_nil hnil
      rw [if_neg hnil] at hbits hsize ⊢
      dsimp only at hbits hsize ⊢
      set block := samples.take blockSize with hblock
      set diff := preprocessDiff refValue block with hdiff
      set split := pick diff with hsplit
      have hblen : block.length = min blockSize samples.length := List.length_take
      have hdlen : diff.length = block.length := preprocessDiff_length _ _
      obtain ⟨hb, hrest⟩ := holds_append.mp hbits
      rw [List.length_append, blockBits_length] at hsize
      rw [blockBits_length] at hrest
      have h4 : 4 ≤ blockLen split diff := four_le_blockLen
      have hptr : c.ptr < inSize := by
        have := c.offset_lt
        unfold Cursor.pos at hsize
        omega
      have hne : diff ≠ [] := by
        intro h0
        rw [h0, List.length_nil] at hdlen
        omega
      obtain ⟨diff', hlen', hlt', hiff, hout, hcur, hlast⟩ := @decompBlock_spec _ _ blockSize _ diff _
          lastValue hf (hp.neg_one_le diff) (hp.neg_one_iff diff).mp (preprocessDiff_lt refValue block) hne
          (by omega) hb
      rw [if_pos ⟨hptr, hpos⟩, ← hblen, ← hdlen]
      set r := decompBlock y fuel blockSize diff.length c lastValue with hr
      have hr1 : r.1.length = block.length := by rw [hout, undiff_length, hlen', hdlen]
      have hright : r.1 = block ↔ BlockIntact split c.pos diff := by
        rw [hout, undiff_eq_iff block diff' lastValue (hlen'.trans hdlen) hlt', href, hiff]
      have hsamples : samples = block ++ samples.drop blockSize := (List.take_append_drop _ _).symm
      have hdrop : samples.length - diff.length = (samples.drop blockSize).length := by
        rw [List.length_drop, hdlen, hblen]
        omega
      rw [padTo_append, hr1, ← hdlen, hdrop]
      refine Iff.trans (b := r.1 = block ∧ _ = samples.drop blockSize)
        ⟨fun h => List.append_inj (h.trans hsamples) hr1, fun h => ?_⟩ ?_
      · rw [h.1, h.2]
        exact hsamples.symm
      rw [hright]
      refine and_congr_right fun hok => ?_
      have hcur' := hcur hok
      rw [← Nat.add_assoc] at hsize
      rw [← hcur'] at hrest hsize ⊢
      refine ih _ _ _ _ (by rw [List.length_drop]; omega) ?_ hrest hsize
      rw [hlast, href, hright.mpr hok]

/-- The first sample goes in front, most significant byte first. -/
theorem header_load (v : BitVec 16) (x : Buf) :
    beLoad (put (put x 0 (byteOf v.toNat 1)) 1 (byteOf v.toNat 0)) 0 2 = v.toNat := by
  have hv := v.isLt
  have h₀ : (byteOf v.toNat 0).toNat = v.toNat % 256 := rfl
  have h₁ : (byteOf v.toNat 1).toNat = v.toNat / 256 % 256 := by
    rw [byteOf, BitVec.toNat_ofNat, Nat.shiftRight_eq_div_pow]
  rw [beLoad, beLoad, beLoad]
  simp only [put_apply, Nat.zero_add, Nat.zero_shiftLeft, Nat.zero_or, Nat.add_zero, if_true, zero_ne_one,
    if_false]
  rw [h₀, h₁,
    ← Nat.shiftLeft_add_eq_or_of_lt (Nat.mod_lt _ (by decide)), Nat.shiftLeft_eq]
  omega

end Run

/-- **The Rice codec restores the samples if and only if they are intact.**  The decoder runs on any
memory that agrees with the encoder's on the bytes written. -/
theorem rice_roundTrip (pick : List ℕ → ℤ) (hp : Picks pick) (samples : List (BitVec 16))
    (blockSize : ℕ) (hbs : 1 ≤ blockSize) (fuel : ℕ) (hf : 8193 ≤ fuel) (y : Buf)
    (hy : ∀ i < (riceComp16 pick samples blockSize).size,
      y i = (riceComp16 pick samples blockSize).x i) :
    riceDecomp16 fuel y (riceComp16 pick samples blockSize).size samples.length blockSize = samples ↔
      Intact pick samples blockSize := by
  set o := riceComp16 pick samples blockSize with ho
  set v := samples.headD 0 with hv
  set o₀ : Out := ⟨put (put (fun _ => 0) 0 (byteOf v.toNat 1)) 1 (byteOf v.toNat 0),
    ⟨2, 0, by decide⟩⟩ with ho₀
  have hpos₀ : o₀.cur.pos = 16 := rfl
  have hblank : Blank (msb o₀.x) o₀.cur.pos := by
    intro k hk
    rw [hpos₀] at hk
    simp only [ho₀, msb, put_apply]
    rw [if_neg (by omega), if_neg (by omega)]
    simp
  have hw := @compBlocks_writes _ blockSize hp samples.length o₀ v samples hblank
  have hend : o.cur.pos ≤ 8 * o.size := by
    have := o.cur.offset_lt
    unfold Out.size Cursor.pos
    split_ifs <;> omega
  have hagree : ∀ k < o.cur.pos, msb y k = msb o.x k := by
    intro k hk
    rw [msb, msb, hy (k / 8) (by omega)]
  have hopos : o.cur.pos = 16 + (streamBits pick blockSize samples.length 16 v samples).length := hw.pos
  have hstream : Holds (msb y) 16 (streamBits pick blockSize samples.length 16 v samples) :=
    hw.ext.word.congr fun k _ hk => hagree k (by rw [hopos]; exact hk)
  have hfirst : beLoad y 0 2 = v.toNat := by
    rw [← header_load v (fun _ => 0), beLoad_eq_field, beLoad_eq_field]
    refine Nat.eq_of_testBit_eq fun t => ?_
    rw [testBit_field, testBit_field]
    by_cases ht : t < 8 * 2
    · rw [hagree _ (by omega)]
      congr 1
      exact hw.ext.before _ (by rw [hpos₀]; omega)
    · rw [decide_eq_false ht, Bool.false_and, Bool.false_and]
  have hlast : BitVec.ofInt 16 (beLoad y 0 2 : ℕ) = v := by
    rw [hfirst]
    simp
  exact decompBlocks_iff hp hbs hf samples.length samples ⟨2, 0, by decide⟩ _ v le_rfl hlast hstream
    (hopos.symm.le.trans hend)

/-- A block of Golomb–Rice codes and a partial last block. -/
theorem rice_partial_block :
    riceDecomp16 8193 (riceComp16 preprocessSplit [5, -7, 300] 2).x
      (riceComp16 preprocessSplit [5, -7, 300] 2).size 3 2 = [5, -7, 300] :=
  (rice_roundTrip preprocessSplit preprocessSplit_picks [5, -7, 300] 2 (by decide) 8193 le_rfl _
    (fun _ _ => rfl)).mpr (by decide +kernel)

/-- Two samples 8193 apart make a block of split 13. -/
theorem rice_split13 :
    riceDecomp16 8193 (riceComp16 preprocessSplit [0, 8193] 2).x
      (riceComp16 preprocessSplit [0, 8193] 2).size 2 2 ≠ [0, 8193] := by
  decide +kernel

/-- A large split at a large offset loses a bit. -/
example : ¬ Intact preprocessSplit [0, 1003, 1, -2, 2006] 5 := by decide +kernel

end Redux.Rice
