import Mathlib.Algebra.Order.Ring.Nat
import Redux.Lib.Stream

/-!
# File.AnaHeader — the header of an ANA file, and the text in it

The first block of 512 bytes ends with 256 bytes of text; more of it goes into further blocks, whose
number `nhb` is one byte.  A longer text than 16 blocks hold is cut off.  The reader joins the blocks,
blanks those that are copies of the first one, and moves what there is together over zeros, both for the
sake of old files.  `hdrSize` is where the data starts.
-/

namespace Redux.AnaFile

open Redux.Lib

section Model

def MAGIC_ANA : BitVec 32 := 0x5555aaaa

def MAGIC_ANAR : BitVec 32 := 0xaaaa5555

/-- The first 256 bytes of `raw_header`; `txt` behind it is zero but while a file is read. -/
structure RawHeader where
  synch_pattern : BitVec 32
  subf : BitVec 8
  source : BitVec 8
  nhb : BitVec 8
  datyp : BitVec 8
  ndim : BitVec 8
  free1 : BitVec 8
  cbytes : Vector (BitVec 8) 4
  free : Vector (BitVec 8) 178
  dim : Vector (BitVec 32) 16
  deriving DecidableEq

structure CompressedHeader where
  tsize : BitVec 32
  nblocks : BitVec 32
  bsize : BitVec 32
  slice_size : BitVec 8
  type : BitVec 8
  deriving DecidableEq

structure Ana where
  m_Header : RawHeader
  m_CompressedHeader : CompressedHeader
  m_ExtendedHeader : List (BitVec 8)
  hdrSize : ℕ
  deriving DecidableEq

/-- The struct as it is in memory on a little-endian machine. -/
def RawHeader.bytes (h : RawHeader) : List (BitVec 8) :=
  leBytes 4 h.synch_pattern.toNat ++ ([h.subf, h.source, h.nhb, h.datyp, h.ndim, h.free1] ++ (h.cbytes.toList ++
    (h.free.toList ++ h.dim.toList.flatMap fun v => leBytes 4 v.toNat)))

def CompressedHeader.bytes (c : CompressedHeader) : List (BitVec 8) :=
  leBytes 4 c.tsize.toNat ++ (leBytes 4 c.nblocks.toNat ++ (leBytes 4 c.bsize.toNat ++ [c.slice_size, c.type]))

/-! ## Writing -/

/-- `isspace` of the classic locale. -/
def isspace (c : BitVec 8) : Bool := c == 32 || (9 ≤ c && c ≤ 13)

/-- `boost::trim`. -/
def trim (s : List (BitVec 8)) : List (BitVec 8) :=
  ((s.dropWhile isspace).reverse.dropWhile isspace).reverse

/-- `nhb` and the length of the text that is written. -/
def blocks (textSize : ℕ) : BitVec 8 × ℕ :=
  if textSize > 255 then
    let nhb := BitVec.ofNat 8 (1 + (textSize + 256) / 512)
    if nhb > 16 then (16, 7935) else (nhb, textSize)
  else (1, textSize)

/-- `write( file )`: what is written, and the header afterwards.  With `nhb = 0` the size of the text block
wraps around, and there is no such amount of memory. -/
def Ana.write (m : Ana) : Option (List (BitVec 8) × Ana) :=
  let text := trim m.m_ExtendedHeader
  let (nhb, textSize) := blocks text.length
  let header := { m.m_Header with nhb := nhb }
  let compressed := if header.subf &&& 1 = 1 then m.m_CompressedHeader.bytes else []
  let m' := { m with m_Header := header, m_ExtendedHeader := text }
  if textSize > 0 then
    if nhb = 0 then none
    else
      let blockSize := (nhb.toNat - 1) * 512 + 256
      let extHdr := text.take (min blockSize textSize) ++ List.replicate (blockSize - min blockSize textSize) 0
      some (header.bytes ++ (extHdr ++ compressed), m')
  else some (header.bytes ++ (List.replicate 256 0 ++ compressed), m')

/-! ## Reading -/

def readRawHeader : Reader RawHeader :=
  (Reader.word 32).next fun synch_pattern =>
  (Reader.word 8).next fun subf =>
  (Reader.word 8).next fun source =>
  (Reader.word 8).next fun nhb =>
  (Reader.word 8).next fun datyp =>
  (Reader.word 8).next fun ndim =>
  (Reader.word 8).next fun free1 =>
  (Reader.words 8 4).next fun cbytes =>
  (Reader.words 8 178).next fun free =>
  (Reader.words 32 16).next fun dim =>
  .pure ⟨synch_pattern, subf, source, nhb, datyp, ndim, free1, .ofFn fun i => cbytes.getD i 0,
    .ofFn fun i => free.getD i 0, .ofFn fun i => dim.getD i 0⟩

def readCompressedHeader : Reader CompressedHeader :=
  (Reader.word 32).next fun tsize =>
  (Reader.word 32).next fun nblocks =>
  (Reader.word 32).next fun bsize =>
  (Reader.word 8).next fun slice_size =>
  (Reader.word 8).next fun type =>
  .pure ⟨tsize, nblocks, bsize, slice_size, type⟩

/-- A copy of the first block is blanked, up to where its text would be. -/
def blankCopies (h : RawHeader) : ℕ → List (BitVec 8) → List (BitVec 8)
  | 0, text => text
  | n + 1, text =>
    (if text.take 256 = h.bytes then List.replicate 256 0 ++ (text.take 512).drop 256 else text.take 512) ++
      blankCopies h n (text.drop 512)

/-- What is not zero is swapped to the first zero, behind which there are only zeros up to it. -/
def squeeze : List (BitVec 8) → ℕ → List (BitVec 8) → List (BitVec 8)
  | done, nulls, [] => done ++ List.replicate nulls 0
  | done, nulls, c :: cs => if c ≠ 0 then squeeze (done ++ [c]) nulls cs else squeeze done (nulls + 1) cs

/-- The text of a header: up to the first zero. -/
def joinText (h : RawHeader) (txt extra : List (BitVec 8)) : List (BitVec 8) :=
  (squeeze [] 0 (txt ++ blankCopies h (h.nhb.toNat - 1) extra)).takeWhile (· ≠ 0)

/-- `read( file )`, on a little-endian machine; `none` if it throws. -/
def Ana.read : Reader Ana :=
  readRawHeader.next fun header =>
  (Reader.read 256).next fun txt =>
  if header.synch_pattern ≠ MAGIC_ANA ∧ header.synch_pattern ≠ MAGIC_ANAR then .fail
  else if header.nhb > 16 ∨ header.nhb = 0 then .fail
  else
    (Reader.read ((header.nhb.toNat - 1) * 512)).next fun extra =>
    let text := joinText header txt extra
    if header.subf &&& 1 = 1 then
      readCompressedHeader.next fun compressed =>
      Reader.tell.next fun hdrSize => .pure ⟨header, compressed, text, hdrSize⟩
    else Reader.tell.next fun hdrSize => .pure ⟨header, ⟨0, 0, 0, 0, 0⟩, text, hdrSize⟩

/-- What is written for a text: the text itself, or as much of it as there is room for, and zeros. -/
def paddedText (t : List (BitVec 8)) : List (BitVec 8) :=
  t.take 7935 ++ List.replicate (((blocks t.length).1.toNat - 1) * 512 + 256 - min t.length 7935) 0

/-- No block of the text starts with a copy of the header. -/
def NoCopy (h : RawHeader) (t : List (BitVec 8)) : Prop :=
  ∀ i < h.nhb.toNat - 1, ((paddedText t).drop (256 + 512 * i)).take 256 ≠ h.bytes

end Model

/-! ## The first block -/

section Header

variable {h : RawHeader} {c : CompressedHeader} {p n : ℕ}

theorem flatMap_byte (vs : List (BitVec 8)) : (vs.flatMap fun v => leBytes 1 v.toNat) = vs := by
  induction vs with
  | nil => rfl
  | cons v vs ih => rw [List.flatMap_cons, leBytes_byte, ih, List.singleton_append]

theorem takes_byte (v : BitVec 8) : Reader.Takes (Reader.word 8) p [v] v := by
  have htake := @Reader.takes_word p 8 (by decide) v
  rwa [leBytes_byte] at htake

theorem takes_vector {w : ℕ} (hw : w % 8 = 0) (v : Vector (BitVec w) n) :
    Reader.Takes (Reader.words w n) p (v.toList.flatMap fun v => leBytes (w / 8) v.toNat) v.toList := by
  have htake := @Reader.takes_words w hw v.toList p
  rwa [Vector.length_toList] at htake

theorem takes_bytes (v : Vector (BitVec 8) n) : Reader.Takes (Reader.words 8 n) p v.toList v.toList := by
  have htake := @takes_vector p n 8 (by decide) v
  rwa [flatMap_byte] at htake

theorem ofFn_toList {α : Type} (v : Vector α n) (d : α) : (Vector.ofFn fun i : Fin n => v.toList.getD i d) = v := by
  ext i hi
  rw [Vector.getElem_ofFn, List.getD_eq_getElem _ _ (by rwa [Vector.length_toList]), Vector.getElem_toList]

/-- **The first 256 bytes give the header back.** -/
theorem takes_rawHeader : Reader.Takes readRawHeader p h.bytes h := by
  have hdone : ∀ {q : ℕ}, Reader.Takes (.pure (⟨h.synch_pattern, h.subf, h.source, h.nhb, h.datyp, h.ndim, h.free1,
      .ofFn fun i => h.cbytes.toList.getD i 0, .ofFn fun i => h.free.toList.getD i 0,
      .ofFn fun i => h.dim.toList.getD i 0⟩ : RawHeader)) q [] h := by
    intro q
    rw [ofFn_toList, ofFn_toList, ofFn_toList]
    exact Reader.takes_pure
  exact (Reader.takes_word (by decide) _).next ((takes_byte _).next ((takes_byte _).next ((takes_byte _).next
    ((takes_byte _).next ((takes_byte _).next ((takes_byte _).next ((takes_bytes _).next ((takes_bytes _).next
    ((takes_vector (by decide) _).last hdone)))))))))

theorem takes_compressedHeader : Reader.Takes readCompressedHeader p c.bytes c :=
  (Reader.takes_word (by decide) _).next ((Reader.takes_word (by decide) _).next ((Reader.takes_word (by decide) _).next
    ((takes_byte _).next ((takes_byte _).last Reader.takes_pure))))

end Header

/-! ## The text -/

section Text

variable {h : RawHeader} {t txt extra done cs : List (BitVec 8)} {n nulls : ℕ}

/-- Nothing is blanked where there is no copy. -/
theorem blankCopies_eq_self : ∀ {n : ℕ} {text : List (BitVec 8)},
    (∀ i < n, (text.drop (512 * i)).take 256 ≠ h.bytes) → blankCopies h n text = text
  | 0, _, _ => rfl
  | n + 1, text, hcopy => by
    have h0 : text.take 256 ≠ h.bytes := hcopy 0 (Nat.succ_pos n)
    have hrest : ∀ i < n, ((text.drop 512).drop (512 * i)).take 256 ≠ h.bytes := by
      intro i hi
      rw [List.drop_drop, show 512 + 512 * i = 512 * (i + 1) by omega]
      exact hcopy (i + 1) (by omega)
    rw [blankCopies, if_neg h0, blankCopies_eq_self hrest, List.take_append_drop]

/-- What is not zero is moved together. -/
theorem squeeze_eq : squeeze done nulls cs = done ++ cs.filter (· ≠ 0) ++
    List.replicate (nulls + (cs.length - (cs.filter (· ≠ 0)).length)) 0 := by
  induction cs generalizing done nulls with
  | nil => rw [squeeze, List.filter_nil, List.append_nil, List.length_nil, Nat.sub_zero, Nat.add_zero]
  | cons c cs ih =>
    have hle := List.length_filter_le (fun c : BitVec 8 => decide (c ≠ 0)) cs
    by_cases hc : c ≠ 0
    · have hfilter : (c :: cs).filter (fun c : BitVec 8 => decide (c ≠ 0)) = c :: cs.filter (· ≠ 0) :=
        List.filter_cons_of_pos (decide_eq_true hc)
      rw [squeeze, if_pos hc, ih, hfilter, List.append_assoc done, List.singleton_append, List.length_cons,
        List.length_cons, Nat.add_sub_add_right]
    · have hfilter : (c :: cs).filter (fun c : BitVec 8 => decide (c ≠ 0)) = cs.filter (· ≠ 0) :=
        List.filter_cons_of_neg fun h => hc (of_decide_eq_true h)
      rw [squeeze, if_neg hc, ih, hfilter, List.length_cons]
      congr 2
      omega

theorem takeWhile_filter : (cs.filter (· ≠ 0) ++ List.replicate n 0).takeWhile (fun c : BitVec 8 => decide (c ≠ 0)) =
    cs.filter (· ≠ 0) := by
  rw [List.takeWhile_append_of_pos fun c hc => (List.mem_filter.1 hc).2]
  cases n with
  | zero => exact List.append_nil _
  | succ n =>
    rw [List.replicate_succ, List.takeWhile_cons_of_neg (by decide), List.append_nil]

theorem filter_padded (ht : ∀ c ∈ t, c ≠ 0) : (t ++ List.replicate n 0).filter
    (fun c : BitVec 8 => decide (c ≠ 0)) = t := by
  rw [List.filter_append, List.filter_eq_self.2 fun c hc => decide_eq_true (ht c hc),
    List.filter_eq_nil_iff.2 fun c hc => ?_, List.append_nil]
  rw [List.eq_of_mem_replicate hc]
  decide

/-- **A text without zeros is put together again.** -/
theorem joinText_padded (ht : ∀ c ∈ t, c ≠ 0) (hsplit : txt ++ extra = t ++ List.replicate n 0)
    (hcopy : ∀ i < h.nhb.toNat - 1, (extra.drop (512 * i)).take 256 ≠ h.bytes) : joinText h txt extra = t := by
  rw [joinText, blankCopies_eq_self hcopy, hsplit, squeeze_eq, List.nil_append, takeWhile_filter, filter_padded ht]

/-- The number of blocks and the text that is written, for texts whose blocks can be counted in a byte. -/
theorem blocks_spec (hn : n < 130304) : 1 ≤ (blocks n).1.toNat ∧ (blocks n).1.toNat ≤ 16 ∧
    (blocks n).2 = min n 7935 ∧ min n 7935 ≤ ((blocks n).1.toNat - 1) * 512 + 256 := by
  unfold blocks
  by_cases h255 : n > 255
  · rw [if_pos h255]
    dsimp only
    have hnat : (BitVec.ofNat 8 (1 + (n + 256) / 512)).toNat = 1 + (n + 256) / 512 := by
      rw [BitVec.toNat_ofNat]
      omega
    by_cases h16 : BitVec.ofNat 8 (1 + (n + 256) / 512) > 16
    · have hlt : 16 < 1 + (n + 256) / 512 := by
        rw [← hnat]
        exact h16
      rw [if_pos h16]
      refine ⟨by decide, by decide, ?_, ?_⟩
      · dsimp only
        omega
      · exact (Nat.min_le_right _ _).trans (by decide)
    · have hle : 1 + (n + 256) / 512 ≤ 16 := by
        rw [← hnat]
        exact BitVec.not_lt.1 h16
      rw [if_neg h16, hnat]
      exact ⟨by omega, hle, by omega, by omega⟩
  · have hone : (1 : BitVec 8).toNat = 1 := rfl
    rw [if_neg h255, hone]
    exact ⟨Nat.le_refl 1, by decide, by omega, by omega⟩

end Text

/-! ## The round trip -/

section Trip

variable {m : Ana} {t : List (BitVec 8)} {n : ℕ}

/-- The header as it is written. -/
def Ana.written (m : Ana) : Ana :=
  let text := trim m.m_ExtendedHeader
  { m with m_Header := { m.m_Header with nhb := (blocks text.length).1 }, m_ExtendedHeader := text }

/-- The compressed header, if there is one. -/
def Ana.compressed (m : Ana) : List (BitVec 8) :=
  if m.m_Header.subf &&& 1 = 1 then m.m_CompressedHeader.bytes else []

/-- **What is written**: the first block without its text, the text with zeros behind it, and the compressed
header. -/
theorem write_eq (hlen : (trim m.m_ExtendedHeader).length < 130304) :
    m.write = some (m.written.m_Header.bytes ++ (paddedText (trim m.m_ExtendedHeader) ++ m.compressed), m.written) := by
  obtain ⟨hpos, -, hsize, hroom⟩ := blocks_spec hlen
  unfold Ana.write
  dsimp only
  rw [hsize, paddedText]
  by_cases h0 : min (trim m.m_ExtendedHeader).length 7935 > 0
  · have hnhb : (blocks (trim m.m_ExtendedHeader).length).1 ≠ 0 := by
      intro hzero
      rw [hzero] at hpos
      exact absurd hpos (by decide)
    have htake : (trim m.m_ExtendedHeader).take (min (trim m.m_ExtendedHeader).length 7935) =
        (trim m.m_ExtendedHeader).take 7935 :=
      List.take_eq_take_iff.2 (by omega)
    rw [if_pos h0, if_neg hnhb, Nat.min_eq_right hroom, htake]
    rfl
  · have hnil : trim m.m_ExtendedHeader = [] := List.eq_nil_of_length_eq_zero (by omega)
    simp only [Ana.written, Ana.compressed, hnil]
    rfl

/-- The rest of the reader, behind the text. -/
theorem takes_end {p : ℕ} {h : RawHeader} {c : CompressedHeader} :
    Reader.Takes (if h.subf &&& 1 = 1 then
      readCompressedHeader.next fun compressed => Reader.tell.next fun hdrSize =>
        .pure (⟨h, compressed, t, hdrSize⟩ : Ana)
      else Reader.tell.next fun hdrSize => .pure ⟨h, ⟨0, 0, 0, 0, 0⟩, t, hdrSize⟩) p
      (if h.subf &&& 1 = 1 then c.bytes else [])
      ⟨h, if h.subf &&& 1 = 1 then c else ⟨0, 0, 0, 0, 0⟩, t,
        p + (if h.subf &&& 1 = 1 then c.bytes else []).length⟩ := by
  by_cases hsub : h.subf &&& 1 = 1
  · simp only [if_pos hsub]
    exact takes_compressedHeader.last (Reader.takes_tell.after Reader.takes_pure)
  · simp only [if_neg hsub]
    exact Reader.takes_tell.after Reader.takes_pure

/-- **What is written is read**, up to the length that the blocks hold. -/
theorem read_written (hmagic : m.m_Header.synch_pattern = MAGIC_ANA)
    (hlen : (trim m.m_ExtendedHeader).length < 130304) (hnul : ∀ c ∈ trim m.m_ExtendedHeader, c ≠ 0)
    (hcopy : NoCopy m.written.m_Header (trim m.m_ExtendedHeader)) {bytes : List (BitVec 8)}
    (hbytes : bytes = m.written.m_Header.bytes ++ (paddedText (trim m.m_ExtendedHeader) ++ m.compressed)) :
    Reader.Takes Ana.read 0 bytes ⟨m.written.m_Header,
      if m.m_Header.subf &&& 1 = 1 then m.m_CompressedHeader else ⟨0, 0, 0, 0, 0⟩,
      (trim m.m_ExtendedHeader).take 7935, bytes.length⟩ := by
  obtain ⟨hpos, h16, -, hroom⟩ := blocks_spec hlen
  have hsynch : m.written.m_Header.synch_pattern = MAGIC_ANA := hmagic
  have hnhb : m.written.m_Header.nhb = (blocks (trim m.m_ExtendedHeader).length).1 := rfl
  rw [← hnhb] at hpos h16 hroom
  have hpadded : (paddedText (trim m.m_ExtendedHeader)).length = (m.written.m_Header.nhb.toNat - 1) * 512 + 256 := by
    rw [paddedText, List.length_append, List.length_take, List.length_replicate, ← hnhb]
    omega
  have htxt : ((paddedText (trim m.m_ExtendedHeader)).take 256).length = 256 := by
    rw [List.length_take]
    omega
  have hextra : ((paddedText (trim m.m_ExtendedHeader)).drop 256).length =
    (m.written.m_Header.nhb.toNat - 1) * 512 := by
    rw [List.length_drop]
    omega
  have hjoin : joinText m.written.m_Header ((paddedText (trim m.m_ExtendedHeader)).take 256)
      ((paddedText (trim m.m_ExtendedHeader)).drop 256) = (trim m.m_ExtendedHeader).take 7935 := by
    refine joinText_padded (fun c hc => hnul c (List.mem_of_mem_take hc)) (List.take_append_drop _ _) fun i hi => ?_
    rw [List.drop_drop]
    exact hcopy i hi
  have hread1 := @Reader.takes_read (0 + m.written.m_Header.bytes.length)
    ((paddedText (trim m.m_ExtendedHeader)).take 256)
  have hread2 := @Reader.takes_read
    (0 + m.written.m_Header.bytes.length + ((paddedText (trim m.m_ExtendedHeader)).take 256).length)
    ((paddedText (trim m.m_ExtendedHeader)).drop 256)
  have hend := @takes_end ((trim m.m_ExtendedHeader).take 7935)
    (0 + m.written.m_Header.bytes.length + ((paddedText (trim m.m_ExtendedHeader)).take 256).length +
      ((paddedText (trim m.m_ExtendedHeader)).drop 256).length) m.written.m_Header m.m_CompressedHeader
  have hsize : 0 + m.written.m_Header.bytes.length + ((paddedText (trim m.m_ExtendedHeader)).take 256).length +
      ((paddedText (trim m.m_ExtendedHeader)).drop 256).length + m.compressed.length = bytes.length := by
    rw [hbytes, List.length_append, List.length_append, htxt, hextra, hpadded]
    omega
  have hcompressed : (if m.written.m_Header.subf &&& 1 = 1 then m.m_CompressedHeader.bytes else []) = m.compressed :=
    rfl
  rw [hcompressed, hsize] at hend
  rw [htxt] at hread1
  rw [hextra] at hread2
  have hsplit : m.written.m_Header.bytes ++ ((paddedText (trim m.m_ExtendedHeader)).take 256 ++
      ((paddedText (trim m.m_ExtendedHeader)).drop 256 ++ m.compressed)) = bytes := by
    rw [hbytes, ← List.append_assoc (List.take _ _), List.take_append_drop]
  refine Eq.subst (motive := fun bs => Reader.Takes Ana.read 0 bs _) hsplit ?_
  refine takes_rawHeader.next (hread1.next ?_)
  rw [if_neg fun h => h.1 hsynch, if_neg ?_]
  · refine hread2.next ?_
    dsimp only
    rw [hjoin]
    exact hend
  · rintro (hgt | hzero)
    · have hlt : 16 < m.written.m_Header.nhb.toNat := hgt
      omega
    · rw [hzero] at hpos
      exact absurd hpos (by decide)

/-- A header whose byte `source` is zero, as those made here are, is not a part of a text with zeros only
behind it. -/
theorem noCopy_of_source (hlen : t.length < 130304) (hnul : ∀ c ∈ t, c ≠ 0) {h : RawHeader} (hsource : h.source = 0)
    (hnhb : h.nhb = (blocks t.length).1) : NoCopy h t := by
  intro i _ heq
  have hpos := (blocks_spec hlen).1
  have h5 : h.bytes[5]? = some h.source := rfl
  have h6 : h.bytes[6]? = some h.nhb := rfl
  rw [← heq, List.getElem?_take_of_lt (by decide), List.getElem?_drop] at h5 h6
  have hzero : ∀ (k : ℕ) (c : BitVec 8), (paddedText t)[k]? = some 0 → (paddedText t)[k + 1]? = some c → c = 0 := by
    intro k c hk hc
    rw [paddedText] at hk hc
    by_cases hkt : k < (t.take 7935).length
    · rw [List.getElem?_append_left hkt] at hk
      exact absurd rfl (hnul 0 (List.mem_of_mem_take (List.mem_of_getElem? hk)))
    · rw [List.getElem?_append_right (by omega)] at hc
      exact List.eq_of_mem_replicate (List.mem_of_getElem? hc)
  rw [hsource] at h5
  have hnil := hzero _ _ h5 h6
  rw [hnil] at hnhb
  rw [← hnhb] at hpos
  exact absurd hpos (by decide)

/-- **A header comes back from its file**: the data type and the dimensions, the text up to the length that
the blocks hold, and the position of the data behind it. -/
theorem header_roundTrip (m : Ana) (data : List (BitVec 8)) (hmagic : m.m_Header.synch_pattern = MAGIC_ANA)
    (htrim : trim m.m_ExtendedHeader = m.m_ExtendedHeader) (hnul : ∀ c ∈ m.m_ExtendedHeader, c ≠ 0)
    (hlen : m.m_ExtendedHeader.length < 130304) (hcopy : NoCopy m.written.m_Header m.m_ExtendedHeader) :
    ∃ bytes m' r, m.write = some (bytes, m') ∧ Ana.read (bytes ++ data) 0 = some (r, bytes.length) ∧
      r.m_ExtendedHeader = m.m_ExtendedHeader.take 7935 ∧ r.m_Header.datyp = m.m_Header.datyp ∧
      r.m_Header.ndim = m.m_Header.ndim ∧ r.m_Header.dim = m.m_Header.dim ∧ r.hdrSize = bytes.length := by
  have hread := read_written hmagic (by rwa [htrim]) (by rwa [htrim]) (by rwa [htrim]) rfl
  refine ⟨_, _, _, write_eq (by rwa [htrim]), hread.run data, ?_, rfl, rfl, rfl, rfl⟩
  dsimp only
  rw [htrim]

/-- A two-dimensional float image with a text. -/
def sample (text : List (BitVec 8)) : Ana where
  m_Header := ⟨MAGIC_ANA, 0, 0, 0, 3, 2, 0, .replicate 4 0, .replicate 178 0, .replicate 16 1⟩
  m_CompressedHeader := ⟨0, 0, 0, 0, 0⟩
  m_ExtendedHeader := text
  hdrSize := 0

theorem trim_replicate {c : BitVec 8} (hc : isspace c = false) : trim (List.replicate n c) = List.replicate n c := by
  have hdrop : (List.replicate n c).dropWhile isspace = List.replicate n c := by
    cases n with
    | zero => rfl
    | succ n => rw [List.replicate_succ, List.dropWhile_cons_of_neg (by rw [hc]; decide)]
  rw [trim, hdrop, List.reverse_replicate, hdrop, List.reverse_replicate]

/-- A text that goes on behind the first block. -/
def longText : List (BitVec 8) := .replicate 300 68

theorem longText_nonzero : ∀ c ∈ longText, c ≠ 0 := by
  intro c hc
  rw [List.eq_of_mem_replicate hc]
  decide

theorem trim_longText : trim longText = longText := trim_replicate (by decide)

theorem longText_length : longText.length < 130304 := by
  rw [longText, List.length_replicate]
  decide

theorem noCopy_sample {text : List (BitVec 8)} (htrim : trim text = text) (hnul : ∀ c ∈ text, c ≠ 0)
    (hlen : text.length < 130304) : NoCopy (sample text).written.m_Header text :=
  noCopy_of_source hlen hnul rfl (congrArg (fun t : List (BitVec 8) => (blocks t.length).1) htrim)

theorem header_roundTrip_sample : ∃ bytes m' r, (sample longText).write = some (bytes, m') ∧
    Ana.read (bytes ++ [1, 2]) 0 = some (r, bytes.length) ∧
      r.m_ExtendedHeader = (sample longText).m_ExtendedHeader.take 7935 ∧
      r.m_Header.datyp = (sample longText).m_Header.datyp ∧ r.m_Header.ndim = (sample longText).m_Header.ndim ∧
      r.m_Header.dim = (sample longText).m_Header.dim ∧ r.hdrSize = bytes.length :=
  header_roundTrip (sample longText) [1, 2] rfl trim_longText longText_nonzero longText_length
    (noCopy_sample trim_longText longText_nonzero longText_length)

/-- 7936 characters are one too many. -/
theorem header_text_cut : ¬ ∀ (m : Ana) (data : List (BitVec 8)), m.m_Header.synch_pattern = MAGIC_ANA →
    trim m.m_ExtendedHeader = m.m_ExtendedHeader → (∀ c ∈ m.m_ExtendedHeader, c ≠ 0) →
    ∃ bytes m' r, m.write = some (bytes, m') ∧ Ana.read (bytes ++ data) 0 = some (r, bytes.length) ∧
      r.m_ExtendedHeader = m.m_ExtendedHeader := by
  intro h
  obtain ⟨t, htrim, hnul, hlen⟩ : ∃ t, trim t = t ∧ (∀ c ∈ t, c ≠ 0) ∧ t.length = 7936 := by
    refine ⟨List.replicate 7936 97, trim_replicate (by decide), fun c hc => ?_, List.length_replicate⟩
    rw [List.eq_of_mem_replicate hc]
    decide
  have hmax : t.length < 130304 := by omega
  have hmax' : (trim (sample t).m_ExtendedHeader).length < 130304 := htrim.symm ▸ hmax
  have hnul' : ∀ c ∈ trim (sample t).m_ExtendedHeader, c ≠ 0 := htrim.symm ▸ hnul
  obtain ⟨bytes, m', r, hwrite, hread, htext⟩ := h (sample t) [] rfl htrim hnul
  rw [write_eq hmax'] at hwrite
  obtain ⟨rfl, rfl⟩ := Prod.mk.inj (Option.some.inj hwrite)
  have hrun := (read_written rfl hmax' hnul' (noCopy_of_source hmax' hnul' rfl rfl) rfl).run []
  obtain ⟨rfl, -⟩ := Prod.mk.inj (Option.some.inj (hread.symm.trans hrun))
  have hcut : (trim t).take 7935 = t := htext
  have hcut := congrArg List.length hcut
  rw [List.length_take, htrim] at hcut
  omega

end Trip

end Redux.AnaFile
