import Redux.File.AnaScan

/-!
# File.AnaPlain — the plain ANA Rice codecs

`anacrunch8`, `anacrunch`, `anacrunch32` and their decoders: one pass over `ny` blocks of `nx`
samples, each block starting at a byte boundary with its first sample and going on in differences.
The round trip holds while the compressed stream fits the decoder's bit pointer, an `int`.
-/

namespace Redux.Ana

open Redux.Lib

/-! ## The codecs -/

/-- 8 bit: `nb > 1` decides alone on the second byte. -/
def ana8 : Codec where
  width := 8
  val a := a.toNat
  fixedBytes slice _ := if nb slice > 1 then 2 else 1
  loadBytes slice := max 1 (nb slice)
  escBytes := 2
  width_bytes := rfl
  ofInt_val a := by simp
  val_sub_lt a b := by have := a.isLt; simp; omega
  fixed_fits slice j h1 hw hj := by unfold nb; split_ifs <;> omega
  load_fits slice j h1 hw hj := by unfold nb; split_ifs <;> omega
  esc_fits j hj := by omega

/-- 16 bit: spill-over is decided by `slice` on a byte boundary and by `nb` elsewhere. -/
def ana16 : Codec where
  width := 16
  val a := a.toInt
  fixedBytes slice j :=
    if j = 0 then (if slice > 8 then 2 else 1)
    else if nb slice > 1 then (if nb slice > 2 then 3 else 2) else 1
  loadBytes slice := max 1 (nb slice)
  escBytes := 3
  width_bytes := rfl
  ofInt_val a := by simp
  val_sub_lt a b := by have := a.toInt_lt; have := b.le_toInt; omega
  fixed_fits slice j h1 hw hj := by unfold nb; split_ifs <;> omega
  load_fits slice j h1 hw hj := by unfold nb; split_ifs <;> omega
  esc_fits j hj := by omega

/-- `nb = (slice + 14) / 8`, but `slice = 0` a special case. -/
def nb32 (slice : ℕ) : ℕ := if slice = 0 then 0 else (slice + 14) / 8

/-- 32 bit: the same with up to five bytes. -/
def ana32 : Codec where
  width := 32
  val a := a.toInt
  fixedBytes slice j :=
    if j = 0 then
      1 + (if slice > 8 then 1 else 0) + (if slice > 16 then 1 else 0) + (if slice > 24 then 1 else 0)
    else
      1 + (if nb32 slice > 1 then 1 else 0) + (if nb32 slice > 2 then 1 else 0) +
        (if nb32 slice > 3 then 1 else 0) + (if nb32 slice > 4 then 1 else 0)
  loadBytes slice := max 1 (nb32 slice)
  escBytes := 5
  width_bytes := rfl
  ofInt_val a := by simp
  val_sub_lt a b := by have := a.toInt_lt; have := b.le_toInt; omega
  fixed_fits slice j h1 hw hj := by unfold nb32; split_ifs <;> omega
  load_fits slice j h1 hw hj := by unfold nb32; split_ifs <;> omega
  esc_fits j hj := by omega

/-! ## The encoder -/

/-- `compressed_header` and the bytes behind it; the routine returns `tsize`. -/
structure Compressed where
  tsize : ℕ
  nblocks : ℕ
  bsize : ℕ
  slice_size : ℕ
  type : ℕ
  x : Buf

section Encoder

variable (c : Codec) (slice limit nx : ℕ) (array : ℕ → BitVec c.width)

/-- The inner loop: `n` more samples from `inIndex`. -/
def crunchRow : ℕ → ℕ → Out → Option Out
  | 0, _, s => some s
  | n + 1, inIndex, s =>
    -- bad news, went too far
    if s.outBits / 8 > limit then none
    else crunchRow n (inIndex + 1)
      (crunchDiff c slice (c.val (array inIndex) - c.val (array (inIndex - 1))) s)

/-- The outer loop: `n` more blocks, the next one from `inIndex`; returns `outBytes` too. -/
def crunchRows : ℕ → ℕ → ℕ → Out → Option (ℕ × Out)
  | 0, _, outBytes, s => some (outBytes, s)
  | n + 1, inIndex, outBytes, s => do
    -- load the first value
    let s : Out := ⟨storeBytes s.x outBytes (array inIndex).toNat 0 (c.width / 8),
      u32 (s.outBits + c.width)⟩
    let s ← crunchRow c slice limit array (nx - 1) (inIndex + 1) s
    -- bump to next byte boundary
    let outBytes := u32 (s.outBits + 7) / 8
    crunchRows n (inIndex + nx) outBytes ⟨s.x, u32 (8 * outBytes)⟩

/-- The compression routine; `none` is the return value `-1`. -/
def crunch (type : ℕ) (x : Buf) (ny : ℕ) : Option Compressed :=
  if limit < 25 then none
  else do
    let (outBytes, s) ← crunchRows c slice (limit - 24) nx array ny 0 0 ⟨x, 0⟩
    return ⟨u32 (outBytes + 14), ny, nx, slice, type, s.x⟩

end Encoder

def anacrunch8 (x : Buf) (array : ℕ → BitVec 8) (slice nx ny limit : ℕ) : Option Compressed :=
  crunch ana8 slice limit nx array 1 x ny

def anacrunch (x : Buf) (array : ℕ → BitVec 16) (slice nx ny limit : ℕ) : Option Compressed :=
  crunch ana16 slice limit nx array 0 x ny

def anacrunch32 (x : Buf) (array : ℕ → BitVec 32) (slice nx ny limit : ℕ) : Option Compressed :=
  crunch ana32 slice limit nx array 4 x ny

/-! ## The decoder -/

section Decoder

variable (c : Codec) (slice nx : ℕ) (x : Buf)

/-- The inner loop: `n` more samples. -/
def decrunchRow : ℕ → In c.width → Option (In c.width)
  | 0, d => some d
  | n + 1, d => decrunchDiff c slice x d >>= decrunchRow n

/-- The outer loop: `n` more blocks, the next one at byte `i`. -/
def decrunchRows : ℕ → ℤ → In c.width → Option (In c.width)
  | 0, _, d => some d
  | n + 1, i, d =>
    if i < 0 then none
    else do
      -- get the first value
      let iq := BitVec.ofNat c.width (load x i.toNat 0 (c.width / 8))
      let d := d.emit iq d.y (int32 (d.r1 + c.width))
      let d ← decrunchRow c slice x (nx - 1) d
      let i := (int32 (d.r1 + 7)).tdiv 8
      decrunchRows n i { d with r1 := int32 (8 * i) }

/-- The decompression routine: the array it leaves behind, `none` where it gives up or reads outside
the buffer.  `y` is what the union holds at the start. -/
def decrunch (array : ℕ → BitVec c.width) (y ny : ℕ) : Option (ℕ → BitVec c.width) :=
  (decrunchRows c slice nx x ny 0 ⟨array, 0, 0, y, 0⟩).map In.array

end Decoder

def anadecrunch8 (x : Buf) (array : ℕ → BitVec 8) (slice nx ny : ℕ) : Option (ℕ → BitVec 8) :=
  decrunch ana8 slice nx x array 0 ny

def anadecrunch (x : Buf) (array : ℕ → BitVec 16) (slice nx ny : ℕ) : Option (ℕ → BitVec 16) :=
  decrunch ana16 slice nx x array 0 ny

/-- The union `yy` of the 32 bit decoder is not initialised. -/
def anadecrunch32 (x : Buf) (array : ℕ → BitVec 32) (slice nx ny yy : ℕ) :
    Option (ℕ → BitVec 32) :=
  decrunch ana32 slice nx x array yy ny

/-! ## The code words of rows and blocks -/

section Words

variable (c : Codec) (slice nx : ℕ) (array : ℕ → BitVec c.width)

/-- The neighbour differences of `n` samples from `i`. -/
def rowDiffs : ℕ → ℕ → List ℤ
  | 0, _ => []
  | n + 1, i => (c.val (array i) - c.val (array (i - 1))) :: rowDiffs n (i + 1)

/-- The code words of a list of differences. -/
def diffsWord (ds : List ℤ) : List Bool := ds.flatMap (diffWord c.width slice)

/-- A block: the first sample, the differences, the zeros up to the next byte. -/
def blockWord (i : ℕ) : List Bool :=
  let w := lowBits c.width (array i).toNat ++ diffsWord c slice (rowDiffs c array (nx - 1) (i + 1))
  w ++ padding w.length

/-- The compressed stream of `n` blocks from `i`. -/
def streamWord : ℕ → ℕ → List Bool
  | 0, _ => []
  | n + 1, i => blockWord c slice nx array i ++ streamWord n (i + nx)

/-- The bits of the compressed stream of an `nx` by `ny` array. -/
def streamBits (ny : ℕ) : ℕ := (streamWord c slice nx array ny 0).length

end Words

section Rows

variable {c : Codec} {slice limit nx n i outBytes p : ℕ} {array a : ℕ → BitVec c.width} {s s' : Out}
  {x : Buf} {d : In c.width}

@[simp] theorem diffsWord_nil : diffsWord c slice [] = [] := rfl

@[simp] theorem diffsWord_cons {dif : ℤ} {ds : List ℤ} :
    diffsWord c slice (dif :: ds) = diffWord c.width slice dif ++ diffsWord c slice ds := by
  simp [diffsWord]

theorem padding_add {m : ℕ} (h : p % 8 = 0) : padding (p + m) = padding m := by
  unfold padding
  congr 1
  omega

/-- The inner loop appends the words of its differences. -/
theorem crunchRow_appends (h1 : 1 ≤ slice) (hw : slice < c.width) : ∀ {n i : ℕ} {s s' : Out},
    crunchRow c slice limit array n i s = some s' → Clean (lsb s.x) s.outBits →
    s.outBits + (diffsWord c slice (rowDiffs c array n i)).length < 2 ^ 32 →
    Appends (lsb s.x) (lsb s'.x) s.outBits (diffsWord c slice (rowDiffs c array n i)) ∧
      s'.outBits = s.outBits + (diffsWord c slice (rowDiffs c array n i)).length
  | 0, i, s, s', h, hc, _ => by
    obtain rfl : s = s' := by simpa [crunchRow] using h
    exact ⟨Appends.refl hc, rfl⟩
  | n + 1, i, s, s', h, hc, hlen => by
    rw [crunchRow] at h
    split_ifs at h
    simp only [rowDiffs, diffsWord_cons, List.length_append] at hlen ⊢
    obtain ⟨ha, hb⟩ := @crunchDiff_appends _ _ (c.val (array i) - c.val (array (i - 1))) _ h1 hw hc
        (by omega)
    obtain ⟨ha', hb'⟩ := crunchRow_appends h1 hw h (hb ▸ ha.clean) (by omega)
    exact ⟨ha.trans (hb ▸ ha'), by omega⟩

/-- A limit behind the last difference suffices for the inner loop. -/
theorem crunchRow_some (h1 : 1 ≤ slice) (hw : slice < c.width) : ∀ {n i : ℕ} {s : Out},
    Clean (lsb s.x) s.outBits →
    s.outBits + (diffsWord c slice (rowDiffs c array n i)).length < 2 ^ 32 →
    (s.outBits + (diffsWord c slice (rowDiffs c array n i)).length) / 8 ≤ limit →
    ∃ s', crunchRow c slice limit array n i s = some s'
  | 0, i, s, _, _, _ => ⟨s, rfl⟩
  | n + 1, i, s, hc, hlen, hlim => by
    simp only [rowDiffs, diffsWord_cons, List.length_append] at hlen hlim
    obtain ⟨ha, hb⟩ := @crunchDiff_appends _ _ (c.val (array i) - c.val (array (i - 1))) _ h1 hw hc
        (by omega)
    rw [crunchRow, if_neg (by omega)]
    exact crunchRow_some h1 hw (hb ▸ ha.clean) (by omega) (by omega)

/-- One block of the outer loop, up to its byte boundary. -/
theorem crunchBlock_appends (h1 : 1 ≤ slice) (hw : slice < c.width) (hs : s.outBits = 8 * outBytes)
    (hlen : 8 * outBytes + (blockWord c slice nx array i).length < 2 ^ 32 - 8)
    (h : crunchRow c slice limit array (nx - 1) (i + 1)
      ⟨storeBytes s.x outBytes (array i).toNat 0 (c.width / 8), u32 (s.outBits + c.width)⟩ = some s') :
    Appends (lsb s.x) (lsb s'.x) (8 * outBytes) (blockWord c slice nx array i) ∧
      8 * (u32 (s'.outBits + 7) / 8) = 8 * outBytes + (blockWord c slice nx array i).length ∧
      u32 (8 * (u32 (s'.outBits + 7) / 8)) = 8 * (u32 (s'.outBits + 7) / 8) := by
  have hfirst := appends_bytes (x := s.x) (i := outBytes) (v := (array i).toNat) (n := c.width / 8)
  rw [c.width_bytes] at hfirst
  simp only [blockWord, List.length_append, lowBits_length, padding_length] at hlen
  have hb : u32 (s.outBits + c.width) = 8 * outBytes + c.width := by
    rw [hs, u32_of_lt (by omega)]
  rw [hb] at h
  obtain ⟨hrow, hbits⟩ := crunchRow_appends h1 hw h
    (by simpa using hfirst.clean) (by simp only; omega)
  simp only at hrow hbits
  have hpad := (hfirst.trans (by simpa using hrow)).pad
  rw [padding_add (by omega)] at hpad
  have hu : u32 (s'.outBits + 7) = s'.outBits + 7 := u32_of_lt (by omega)
  refine ⟨hpad, ?_, ?_⟩
  · rw [hu, hbits]
    simp only [blockWord, List.length_append, lowBits_length, padding_length]
    omega
  · rw [hu, u32_of_lt (by omega)]

/-- **The outer loop appends the compressed stream.** -/
theorem crunchRows_appends (h1 : 1 ≤ slice) (hw : slice < c.width) : ∀ {n i ob : ℕ} {s s' : Out} {r},
    crunchRows c slice limit nx array n i ob s = some (r, s') → s.outBits = 8 * ob →
    8 * ob + (streamWord c slice nx array n i).length < 2 ^ 32 - 8 →
    Appends (lsb s.x) (lsb s'.x) (8 * ob) (streamWord c slice nx array n i) ∧
      8 * r = 8 * ob + (streamWord c slice nx array n i).length
  | 0, i, ob, s, s', r, h, _, _ => by
    obtain ⟨rfl, rfl⟩ : ob = r ∧ s = s' := by simpa [crunchRows] using h
    exact ⟨Appends.refl (clean_of_dvd (by omega)), rfl⟩
  | n + 1, i, ob, s, s', r, h, hs, hlen => by
    simp only [crunchRows, Option.bind_eq_bind, Option.bind_eq_some_iff] at h
    obtain ⟨t, ht, h⟩ := h
    simp only [streamWord, List.length_append] at hlen ⊢
    obtain ⟨hblock, hob, hu⟩ := crunchBlock_appends h1 hw hs (by omega) ht
    obtain ⟨hrest, hr⟩ := crunchRows_appends h1 hw h hu (by omega)
    rw [hob] at hrest hr
    exact ⟨hblock.trans hrest, by omega⟩

/-- A limit behind the stream suffices for the outer loop. -/
theorem crunchRows_some (h1 : 1 ≤ slice) (hw : slice < c.width) : ∀ {n i ob : ℕ} {s : Out},
    s.outBits = 8 * ob → 8 * ob + (streamWord c slice nx array n i).length < 2 ^ 32 - 8 →
    (8 * ob + (streamWord c slice nx array n i).length) / 8 ≤ limit →
    ∃ r s', crunchRows c slice limit nx array n i ob s = some (r, s')
  | 0, i, ob, s, _, _, _ => ⟨ob, s, rfl⟩
  | n + 1, i, ob, s, hs, hlen, hlim => by
    simp only [streamWord, List.length_append] at hlen hlim
    have hb : (blockWord c slice nx array i).length = c.width +
        (diffsWord c slice (rowDiffs c array (nx - 1) (i + 1))).length + (padding (c.width +
        (diffsWord c slice (rowDiffs c array (nx - 1) (i + 1))).length)).length := by
      simp [blockWord, Nat.add_assoc]
    have hu : u32 (s.outBits + c.width) = 8 * ob + c.width := by rw [hs, u32_of_lt (by omega)]
    have hclean : Clean (lsb (storeBytes s.x ob (array i).toNat 0 (c.width / 8)))
        (8 * ob + c.width) := clean_of_dvd (by have := c.width_bytes; omega)
    obtain ⟨t, ht⟩ := @crunchRow_some _ _ limit array h1 hw (nx - 1) (i + 1)
        ⟨storeBytes s.x ob (array i).toNat 0 (c.width / 8), u32 (s.outBits + c.width)⟩
        (by simpa only [hu] using hclean) (by simp only [hu]; omega) (by simp only [hu]; omega)
    obtain ⟨-, hob, hu'⟩ := @crunchBlock_appends _ _ _ nx _ _ _ _ _ h1 hw hs (by omega) ht
    obtain ⟨r, s', hr⟩ := crunchRows_some (n := n) (i := i + nx)
      (s := ⟨t.x, u32 (8 * (u32 (t.outBits + 7) / 8))⟩) h1 hw hu' (by omega) (by omega)
    exact ⟨r, s', by simp only [crunchRows, ht, Option.bind_eq_bind, Option.bind_some, hr]⟩

/-! ## Decoding a block -/

/-- The decoder has restored the first `n` samples. -/
structure Decoded (a : ℕ → BitVec c.width) (d : In c.width) (n : ℕ) : Prop where
  pos : d.pos = n
  array : ∀ k < n, d.array k = a k
  iq : 0 < n → d.iq = a (n - 1)

theorem Decoded.emit {y : ℕ} {r1 : ℤ} (h : Decoded a d n) : Decoded a (d.emit (a n) y r1) (n + 1) := by
  refine ⟨by simp [In.emit, h.pos], fun k hk => ?_, fun _ => by simp [In.emit]⟩
  simp only [In.emit, h.pos, Function.update_apply]
  split_ifs with hkn
  · rw [hkn]
  · exact h.array k (by omega)

theorem val_sub_bounds (c : Codec) (b b' : BitVec c.width) :
    -2 ^ c.width ≤ c.val b - c.val b' ∧ c.val b - c.val b' < 2 ^ c.width := by
  have h := c.val_sub_lt b b'
  have h' := c.val_sub_lt b' b
  omega

/-- The last sample plus the difference is the next sample. -/
theorem add_val_sub (c : Codec) (b b' : BitVec c.width) :
    b' + BitVec.ofInt c.width (c.val b - c.val b') = b := by
  nth_rewrite 1 [← c.ofInt_val b']
  rw [← BitVec.ofInt_add, add_sub_cancel, c.ofInt_val]

/-- The inner loop restores the samples behind its words. -/
theorem decrunchRow_word (h1 : 1 ≤ slice) (hw : slice < c.width) : ∀ {n i p : ℕ} {d : In c.width},
    Decoded a d i → 0 < i → d.r1 = int32 (p : ℤ) →
    p + (diffsWord c slice (rowDiffs c a n i)).length ≤ 2 ^ 31 →
    Holds (lsb x) p (diffsWord c slice (rowDiffs c a n i)) →
    ∃ d', decrunchRow c slice x n d = some d' ∧ Decoded a d' (i + n) ∧
      d'.r1 = int32 ((p + (diffsWord c slice (rowDiffs c a n i)).length : ℕ) : ℤ)
  | 0, i, p, d, hd, _, hr, _, _ => ⟨d, rfl, hd, hr⟩
  | n + 1, i, p, d, hd, hi, hr, hp, hh => by
    simp only [rowDiffs, diffsWord_cons, List.length_append] at hp hh ⊢
    obtain ⟨hfst, hrest⟩ := holds_append.mp hh
    have hpos := diffWord_pos c.width slice (c.val (a i) - c.val (a (i - 1)))
    obtain ⟨hl, hu⟩ := val_sub_bounds c (a i) (a (i - 1))
    have hprev : d.array (d.pos - 1) = d.iq := by
      rw [hd.pos, hd.array _ (by omega), hd.iq hi]
    rw [int32_natCast (by omega)] at hr
    obtain ⟨y, hy⟩ := decrunchDiff_word h1 hw hr (by omega) hl hu hprev hfst
    rw [hd.iq hi, add_val_sub] at hy
    set q := p + (diffWord c.width slice (c.val (a i) - c.val (a (i - 1)))).length
    have hq : (d.emit (a i) y (int32 (q : ℤ))).r1 = int32 (q : ℤ) := rfl
    obtain ⟨d', hd', hdec, hr'⟩ := decrunchRow_word h1 hw hd.emit (by omega) hq (by omega) hrest
    refine ⟨d', ?_, ?_, ?_⟩
    · rw [decrunchRow, hy]
      exact hd'
    · rwa [show i + (n + 1) = i + 1 + n by omega]
    · rw [hr', Nat.add_assoc]

/-- `i = (r1 + 7) / 8; r1 = 8 * i` moves the bit pointer to the next byte boundary. -/
theorem bump_eq {p : ℕ} (hp : p + 7 < 2 ^ 31) :
    (int32 ((p : ℤ) + 7)).tdiv 8 = (((p + 7) / 8 : ℕ) : ℤ) ∧
      int32 (8 * (((p + 7) / 8 : ℕ) : ℤ)) = ((8 * ((p + 7) / 8) : ℕ) : ℤ) := by
  have h7 : int32 ((p : ℤ) + 7) = ((p + 7 : ℕ) : ℤ) := int32_natCast hp
  refine ⟨?_, ?_⟩
  · rw [h7, Int.tdiv_eq_ediv_of_nonneg (by omega)]
    omega
  · rw [← int32_natCast (p := 8 * ((p + 7) / 8)) (by omega)]
    push_cast
    rfl

/-- A block starts with its first sample, loaded whole; its differences follow. -/
theorem blockWord_holds {ob : ℕ} (hh : Holds (lsb x) (8 * ob) (blockWord c slice nx a i)) :
    BitVec.ofNat c.width (load x ob 0 (c.width / 8)) = a i ∧
      Holds (lsb x) (8 * ob + c.width) (diffsWord c slice (rowDiffs c a (nx - 1) (i + 1))) := by
  obtain ⟨hword, -⟩ := holds_append.mp hh
  obtain ⟨hfst, hdiffs⟩ := holds_append.mp hword
  rw [lowBits_length] at hdiffs
  refine ⟨BitVec.eq_of_toNat_eq ?_, hdiffs⟩
  rw [BitVec.toNat_ofNat]
  exact load_word (i := ob) (j := 0) (n := c.width / 8) (y := 0) (a i).isLt
    (by have := c.width_bytes; omega) hfst

/-- **The outer loop restores the samples of its blocks.** -/
theorem decrunchRows_word (h1 : 1 ≤ slice) (hw : slice < c.width) (hnx : 1 ≤ nx) :
    ∀ {n i ob : ℕ} {d : In c.width}, Decoded a d i → d.r1 = ((8 * ob : ℕ) : ℤ) →
    8 * ob + (streamWord c slice nx a n i).length < 2 ^ 31 →
    Holds (lsb x) (8 * ob) (streamWord c slice nx a n i) →
    ∃ d', decrunchRows c slice nx x n (ob : ℤ) d = some d' ∧ Decoded a d' (i + n * nx)
  | 0, i, ob, d, hd, _, _, _ => ⟨d, rfl, by simpa using hd⟩
  | n + 1, i, ob, d, hd, hr, hp, hh => by
    simp only [streamWord, List.length_append] at hp hh
    obtain ⟨hblock, hrest⟩ := holds_append.mp hh
    have hlen : (blockWord c slice nx a i).length = 8 * ((c.width +
        (diffsWord c slice (rowDiffs c a (nx - 1) (i + 1))).length + 7) / 8) := by
      simp only [blockWord, List.length_append, lowBits_length, padding_length]
      omega
    obtain ⟨hiq, hdiffs⟩ := blockWord_holds hblock
    have hr0 : int32 (d.r1 + c.width) = int32 ((8 * ob + c.width : ℕ) : ℤ) := by
      rw [hr, Nat.cast_add]
    obtain ⟨d', hd', hdec, hr'⟩ := decrunchRow_word (n := nx - 1) h1 hw
      (hd.emit (y := d.y)) (by omega) hr0 (by omega) hdiffs
    rw [int32_natCast (by omega)] at hr'
    set q := 8 * ob + c.width + (diffsWord c slice (rowDiffs c a (nx - 1) (i + 1))).length with hq
    obtain ⟨hi7, hr8⟩ := bump_eq (p := q) (by omega)
    rw [← hr'] at hi7
    have hob : 8 * ((q + 7) / 8) = 8 * ob + (blockWord c slice nx a i).length := by omega
    rw [← hob] at hrest
    have hdec' : Decoded a { d' with r1 := int32 (8 * (((q + 7) / 8 : ℕ) : ℤ)) } (i + nx) := by
      rw [show i + nx = i + 1 + (nx - 1) by omega]
      exact ⟨hdec.pos, hdec.array, hdec.iq⟩
    obtain ⟨e, he, hdone⟩ := decrunchRows_word h1 hw hnx hdec' hr8 (by omega) hrest
    refine ⟨e, ?_, by rwa [Nat.succ_mul, Nat.add_comm (n * nx), ← Nat.add_assoc]⟩
    rw [decrunchRows, if_neg (by omega)]
    simp only [Int.toNat_natCast, hiq, hd', Option.bind_eq_bind, Option.bind_some, hi7]
    exact he

end Rows

/-! ## The round trip -/

/-- What a compression left in `out` decompresses to the first `n` samples of `array`. -/
def RoundTrip {w : ℕ} (crunched : Option Compressed) (decrunch : Buf → Option (ℕ → BitVec w))
    (array : ℕ → BitVec w) (n : ℕ) : Prop :=
  ∀ out, crunched = some out → ∃ res, decrunch out.x = some res ∧ ∀ k < n, res k = array k

section RoundTrips

variable {c : Codec} {slice nx ny limit type : ℕ} {array a₀ : ℕ → BitVec c.width} {x : Buf}
  {out : Compressed}

/-- The bytes behind the header are the compressed stream. -/
theorem crunch_holds (h1 : 1 ≤ slice) (hw : slice < c.width)
    (hbits : streamBits c slice nx array ny < 2 ^ 32 - 8)
    (h : crunch c slice limit nx array type x ny = some out) :
    Holds (lsb out.x) 0 (streamWord c slice nx array ny 0) := by
  unfold crunch at h
  split_ifs at h
  simp only [Option.bind_eq_bind, Option.bind_eq_some_iff] at h
  obtain ⟨⟨r, s⟩, hr, hout⟩ := h
  obtain ⟨happ, -⟩ := crunchRows_appends h1 hw hr rfl (by rw [streamBits] at hbits; omega)
  obtain rfl : _ = out := Option.some.inj hout
  exact happ.word

/-- A limit with the margin of 24 bytes suffices. -/
theorem crunch_some (h1 : 1 ≤ slice) (hw : slice < c.width)
    (hbits : streamBits c slice nx array ny < 2 ^ 32 - 8) (hlim : 25 ≤ limit)
    (hfit : streamBits c slice nx array ny ≤ 8 * (limit - 24)) :
    ∃ out, crunch c slice limit nx array type x ny = some out := by
  rw [streamBits] at hbits hfit
  obtain ⟨r, s, hr⟩ := @crunchRows_some _ _ (limit - 24) nx array h1 hw ny 0 0 ⟨x, 0⟩ rfl (by omega)
      (by omega)
  exact ⟨⟨u32 (r + 14), ny, nx, slice, type, s.x⟩, by rw [crunch, if_neg (by omega), hr]; rfl⟩

/-- **Round trip of the plain codecs** while the stream fits the decoder's `int` bit pointer. -/
theorem crunch_roundTrip (h1 : 1 ≤ slice) (hw : slice < c.width) (hnx : 1 ≤ nx)
    (hbits : streamBits c slice nx array ny < 2 ^ 31) (y : ℕ) :
    RoundTrip (crunch c slice limit nx array type x ny)
      (fun x => decrunch c slice nx x a₀ y ny) array (nx * ny) := by
  intro out hout
  have hh := crunch_holds h1 hw (by omega) hout
  rw [streamBits] at hbits
  obtain ⟨d, hd, hdec⟩ := @decrunchRows_word _ _ _ _ _ h1 hw hnx ny 0 0 ⟨a₀, 0, 0, y, 0⟩
      ⟨rfl, fun k hk => absurd hk (Nat.not_lt_zero k), fun h => absurd h (lt_irrefl 0)⟩ rfl (by omega) hh
  refine ⟨d.array, ?_, fun k hk => hdec.array k (by rw [Nat.mul_comm]; omega)⟩
  simp only [decrunch]
  rw [show ((0 : ℕ) : ℤ) = 0 from rfl] at hd
  rw [hd]
  rfl

end RoundTrips

/-- **The three plain codecs**: with an output limit that suffices the array is restored, for every
content of the buffers, as long as the compressed stream is shorter than `2 ^ 31` bits. -/
theorem anacrunch_roundTrip :
    (∀ x array a₀ slice nx ny limit, 1 ≤ slice → slice ≤ 7 → 1 ≤ nx → 1 ≤ ny →
      streamBits ana8 slice nx array ny < 2 ^ 31 →
      (25 ≤ limit → streamBits ana8 slice nx array ny ≤ 8 * (limit - 24) →
        ∃ out, anacrunch8 x array slice nx ny limit = some out) ∧
      RoundTrip (anacrunch8 x array slice nx ny limit)
        (fun x => anadecrunch8 x a₀ slice nx ny) array (nx * ny)) ∧
    (∀ x array a₀ slice nx ny limit, 1 ≤ slice → slice ≤ 15 → 1 ≤ nx → 1 ≤ ny →
      streamBits ana16 slice nx array ny < 2 ^ 31 →
      (25 ≤ limit → streamBits ana16 slice nx array ny ≤ 8 * (limit - 24) →
        ∃ out, anacrunch x array slice nx ny limit = some out) ∧
      RoundTrip (anacrunch x array slice nx ny limit)
        (fun x => anadecrunch x a₀ slice nx ny) array (nx * ny)) ∧
    (∀ x array a₀ slice nx ny limit yy, 1 ≤ slice → slice ≤ 31 → 1 ≤ nx → 1 ≤ ny →
      streamBits ana32 slice nx array ny < 2 ^ 31 →
      (25 ≤ limit → streamBits ana32 slice nx array ny ≤ 8 * (limit - 24) →
        ∃ out, anacrunch32 x array slice nx ny limit = some out) ∧
      RoundTrip (anacrunch32 x array slice nx ny limit)
        (fun x => anadecrunch32 x a₀ slice nx ny yy) array (nx * ny)) := by
  refine ⟨?_, ?_, ?_⟩
  · intro x array a₀ slice nx ny limit h1 hw hnx _ hbits
    have hw' : slice < ana8.width := Nat.lt_succ_of_le hw
    exact ⟨crunch_some h1 hw' (by omega), crunch_roundTrip h1 hw' hnx hbits 0⟩
  · intro x array a₀ slice nx ny limit h1 hw hnx _ hbits
    have hw' : slice < ana16.width := Nat.lt_succ_of_le hw
    exact ⟨crunch_some h1 hw' (by omega), crunch_roundTrip h1 hw' hnx hbits 0⟩
  · intro x array a₀ slice nx ny limit yy h1 hw hnx _ hbits
    have hw' : slice < ana32.width := Nat.lt_succ_of_le hw
    exact ⟨crunch_some h1 hw' (by omega), crunch_roundTrip h1 hw' hnx hbits yy⟩

/-- Escapes in both directions: three 16 bit samples with maximal differences. -/
theorem anacrunch_extremes : ∃ out res,
    anacrunch (fun _ => 0xff) (fun k => if k = 1 then 0x7fff else 0x8000) 3 3 1 100 = some out ∧
      anadecrunch out.x (fun _ => 0) 3 3 1 = some res ∧ res 1 = 0x7fff ∧ res 2 = 0x8000 := by
  have hbits : streamBits ana16 3 3 (fun k => if k = 1 then 0x7fff else 0x8000) 1 = 120 := by
    decide +kernel
  have h := anacrunch_roundTrip.2.1 (fun _ => 0xff) (fun k => if k = 1 then 0x7fff else 0x8000)
    (fun _ => 0) 3 3 1 100 (by decide) (by decide) (by decide) (by decide) (by rw [hbits]; decide)
  obtain ⟨out, hout⟩ := h.1 (by decide) (by rw [hbits]; decide)
  obtain ⟨res, hres, ha⟩ := h.2 out hout
  exact ⟨out, res, hout, hres, ha 1 (by decide), ha 2 (by decide)⟩

/-! ## The range of the bit pointer -/

section Overflow

theorem rowDiffs_append {c : Codec} {array : ℕ → BitVec c.width} : ∀ {m n i : ℕ},
    rowDiffs c array (m + n) i = rowDiffs c array m i ++ rowDiffs c array n (i + m)
  | 0, n, i => by simp [rowDiffs]
  | m + 1, n, i => by
    rw [Nat.succ_add, rowDiffs, rowDiffs, rowDiffs_append, List.cons_append,
      show i + 1 + m = i + (m + 1) by omega]

theorem diffsWord_append {c : Codec} {slice : ℕ} {ds es : List ℤ} :
    diffsWord c slice (ds ++ es) = diffsWord c slice ds ++ diffsWord c slice es := by
  simp [diffsWord]

theorem decrunchRow_add {c : Codec} {slice : ℕ} {x : Buf} : ∀ {m n : ℕ} {d : In c.width},
    decrunchRow c slice x (m + n) d = decrunchRow c slice x m d >>= decrunchRow c slice x n
  | 0, n, d => by rw [Nat.zero_add]; rfl
  | m + 1, n, d => by
    rw [Nat.succ_add, decrunchRow, decrunchRow]
    simp only [Option.bind_eq_bind, Option.bind_assoc]
    congr 1
    funext d'
    exact decrunchRow_add

/-- **The decoder gives up** where its bit pointer wraps around inside the first block. -/
theorem decrunch_overflow {c : Codec} {slice nx m y ny : ℕ} {x : Buf} {a a₀ : ℕ → BitVec c.width}
    (h1 : 1 ≤ slice) (hw : slice < c.width) (hm : m + 2 ≤ nx)
    (hp : c.width + (diffsWord c slice (rowDiffs c a m 1)).length = 2 ^ 31)
    (hh : Holds (lsb x) 0 (streamWord c slice nx a 1 0)) :
    decrunch c slice nx x a₀ y (ny + 1) = none := by
  obtain ⟨hiq, hdiffs⟩ := @blockWord_holds _ _ _ _ _ _ 0 (holds_append.mp hh).1
  rw [Nat.mul_zero, Nat.zero_add, show nx - 1 = m + (nx - 1 - m) by omega, rowDiffs_append,
    diffsWord_append] at hdiffs
  have hd : Decoded a (In.emit ⟨a₀, 0, 0, y, 0⟩ (a 0) y (int32 (0 + c.width))) 1 :=
    Decoded.emit ⟨rfl, fun k hk => absurd hk (Nat.not_lt_zero k), fun h => absurd h (lt_irrefl 0)⟩
  obtain ⟨d', hd', -, hr⟩ := decrunchRow_word h1 hw hd (by decide)
    (by simp only [In.emit, zero_add]) hp.le (holds_append.mp hdiffs).1
  rw [hp] at hr
  have hneg : d'.r1 < 0 := by rw [hr]; unfold int32; decide
  have hstop : decrunchDiff c slice x d' = none := by
    simp only [decrunchDiff, bitIndex, if_pos hneg]
    rfl
  have hrow : decrunchRow c slice x (nx - 1)
      (In.emit ⟨a₀, 0, 0, y, 0⟩ (a 0) y (int32 (0 + c.width))) = none := by
    rw [show nx - 1 = m + ((nx - 2 - m) + 1) by omega, decrunchRow_add, hd']
    simp only [Option.bind_eq_bind, Option.bind_some, decrunchRow, hstop, Option.bind_none]
  simp only [decrunch, decrunchRows, lt_irrefl, ↓reduceIte, Int.toNat_zero, hiq, hrow,
    Option.bind_eq_bind, Option.bind_none, Option.map_none]

/-- With `slice = 7` a zero difference takes a byte. -/
theorem zeros_length : ∀ {n i : ℕ},
    (diffsWord ana8 7 (rowDiffs ana8 (fun _ => 0) n i)).length = 8 * n
  | 0, i => rfl
  | n + 1, i => by
    have h8 : (diffWord ana8.width 7 0).length = 8 := by decide
    rw [rowDiffs, diffsWord_cons, List.length_append, zeros_length, sub_self, h8]
    omega

theorem zeros_streamBits {nx : ℕ} (hnx : 1 ≤ nx) : streamBits ana8 7 nx (fun _ => 0) 1 = 8 * nx := by
  have hw : ana8.width = 8 := rfl
  simp only [streamBits, streamWord, blockWord, List.length_append, lowBits_length, zeros_length,
    padding_length, List.length_nil, hw]
  omega

/-- A block of `nx = 2 ^ 28 + 1` zeros is compressed and cannot be decompressed. -/
theorem zeros_overflow {nx limit : ℕ} {x : Buf} {a₀ : ℕ → BitVec 8} (hnx : nx = 2 ^ 28 + 1)
    (hlim : limit = 2 ^ 29) :
    (∃ out, anacrunch8 x (fun _ => 0) 7 nx 1 limit = some out) ∧
      ¬ RoundTrip (anacrunch8 x (fun _ => 0) 7 nx 1 limit)
        (fun x => anadecrunch8 x a₀ 7 nx 1) (fun _ => 0) (nx * 1) := by
  have hbits : streamBits ana8 7 nx (fun _ => 0) 1 = 8 * nx := zeros_streamBits (by omega)
  obtain ⟨out, hout⟩ := @crunch_some ana8 7 nx 1 limit 1 (fun _ => 0) x (by decide) (by decide) (by omega)
      (by omega) (by omega)
  refine ⟨⟨out, hout⟩, fun h => ?_⟩
  obtain ⟨res, hres, -⟩ := h out hout
  have hh := crunch_holds (c := ana8) (by decide) (by decide) (by omega) hout
  have hw : ana8.width = 8 := rfl
  have hnone : anadecrunch8 out.x a₀ 7 nx 1 = none :=
    decrunch_overflow (c := ana8) (m := 2 ^ 28 - 1) (by decide) (by decide) (by omega)
      (by rw [zeros_length, hw]; decide) hh
  exact absurd (hnone.symm.trans hres) (by simp)

/-- The claim without the bound on the stream is false: 268435457 zeros with `slice = 7`. -/
theorem anacrunch8_zeros :
    (∃ out, anacrunch8 (fun _ => 0) (fun _ => 0) 7 (2 ^ 28 + 1) 1 (2 ^ 29) = some out) ∧
      ¬ RoundTrip (anacrunch8 (fun _ => 0) (fun _ => 0) 7 (2 ^ 28 + 1) 1 (2 ^ 29))
        (fun x => anadecrunch8 x (fun _ => 0) 7 (2 ^ 28 + 1) 1) (fun _ => 0) ((2 ^ 28 + 1) * 1) :=
  zeros_overflow rfl rfl

end Overflow

end Redux.Ana
