import Mathlib.Algebra.BigOperators.Group.List.Basic
import Mathlib.Algebra.Field.Basic
import Mathlib.Algebra.Field.Rat
import Mathlib.Data.Nat.Cast.Basic
import Redux.Image.CachedFile

/-!
# Momfbd.DarkFrames — the dark frames of the channels of a job

`loadCalib` adds the dark files of a channel up in the image that the cache gave it for the first of them,
and loads the others into one image, which the cache takes over as the entry of a file that it does not
have.  So the entries of some files are not what the files hold when the next channel asks for them; which
they are can be told from the names alone (`Ledger`).
-/

namespace Redux.Momfbd.DarkFrames

open Redux.CachedFile (File forceResize)

/-! ## Model -/

/-- A calibration file: its array, and the number of summed frames that its header gives. -/
structure CalibFile (K : Type) where
  file : File K
  frames : ℕ

/-- An `Image`: copies share the data block, and `meta`, the header. -/
structure Image extends CachedFile.Image where
  header : Option ℕ
  deriving DecidableEq

/-- `Image()`. -/
def Image.new : Image := ⟨⟨[], none⟩, none⟩

/-- The data blocks, the headers (their numbers of frames), and the entries of the cache. -/
structure State (ν K : Type) where
  blocks : List (List K)
  headers : List ℕ
  cache : ν → Option Image

namespace State

variable {ν K : Type} [DecidableEq ν] (files : ν → Option (CalibFile K)) (s : State ν K)

def init : State ν K := ⟨[], [], fun _ => none⟩

def pixels (im : Image) : Option (List K) := im.block.bind (s.blocks[·]?)

/-- `meta->getNumberOfFrames()`. -/
def getNumberOfFrames (im : Image) : Option ℕ := im.header.bind (s.headers[·]?)

/-- The header is read into the one that the image has. -/
def readHeader (frames : ℕ) (im : Image) : State ν K × Image :=
  match im.header with
  | some h => ({ s with headers := s.headers.set h frames }, im)
  | none => ({ s with headers := s.headers ++ [frames] }, { im with header := some s.headers.length })

/-- In place as many elements are copied as the image has. -/
def overwrite (data old : List K) : List K := (data ++ old.drop data.length).take old.length

def readPixels (f : File K) (im : Image) : State ν K × Image :=
  if forceResize f im.toImage then
    ({ s with blocks := s.blocks ++ [f.data] }, { im with dims := f.dims, block := some s.blocks.length })
  else
    match im.block with
    | some r => ({ s with blocks := s.blocks.modify r (overwrite f.data) }, im)
    | none => (s, im)

/-- `readFile( fn, image )`. -/
def read (f : CalibFile K) (im : Image) : State ν K × Image :=
  (s.readHeader f.frames im).1.readPixels f.file (s.readHeader f.frames im).2

/-- The file is read into the entry of the cache. -/
def fill (fn : ν) (f : CalibFile K) (e : Image) : State ν K × Image :=
  ({ (s.read f e).1 with cache := Function.update s.cache fn (some (s.read f e).2) }, (s.read f e).2)

/-- `CachedFile::load( img, fn )`.  A new entry is a copy of the image of the caller. -/
def load (fn : ν) (img : Image) : Option (State ν K × Image) :=
  (files fn).map fun f =>
    match s.cache fn with
    | some e => if 0 < e.nElements then (s, e) else s.fill fn f e
    | none => s.fill fn f img

/-- `tmp += tmp2`. -/
def add [Add K] (tmp tmp2 : Image) : Option (State ν K) :=
  if tmp.nElements = tmp2.nElements then
    match tmp.block, s.pixels tmp2 with
    | some r, some data => some { s with blocks := s.blocks.modify r (List.zipWith (· + ·) · data) }
    | _, _ => none
  else none

/-- The dark files after the first. -/
def addDarks [Add K] (tmp : Image) : State ν K → Image → ℕ → List ν → Option (State ν K × ℕ)
  | s, _, nDarkFrames, [] => some (s, nDarkFrames)
  | s, tmp2, nDarkFrames, fn :: fns =>
    (s.load files fn tmp2).bind fun p =>
      (p.1.add tmp p.2).bind fun s' =>
        (s'.getNumberOfFrames p.2).bind fun n => addDarks tmp s' p.2 (nDarkFrames + n) fns

end State

/-- The member `dark` of a channel: its elements, and its `meta`. -/
structure Dark (K : Type) where
  data : List K
  frames : Option ℕ

/-- `tmp.copy()`: the copy has no header. -/
def Dark.copy {K : Type} (data : List K) : Dark K := ⟨data, none⟩

/-- What a channel is told of its calibration files of type `float`. -/
structure Calib where
  darkTemplate : String
  darkNumbers : List ℕ
  gainFile : String
  responseFile : String
  backgainFile : String
  psfFile : String
  mmFile : String

section Model

variable {ν K : Type} [DecidableEq ν] [Field K] (format : String → ℕ → String) (path : String → ν)
  (files : ν → Option (CalibFile K))

namespace State

end State

/-- The channels that have loaded their calibration, each with its dark. -/
structure Job (ν K : Type) where
  state : State ν K
  loaded : List (Calib × Dark K)

def Job.init : Job ν K := ⟨.init, []⟩

/-- The mean of a pixel over all frames of the files. -/
def mean (fs : List (CalibFile K)) (i : ℕ) : K :=
  (fs.map fun f => f.file.data.getD i 0).sum / ((fs.map CalibFile.frames).sum : ℕ)

end Model

/-! ## Which entries are spoiled -/

/-- The files that are in the cache, and those whose entries have been written to since. -/
structure Ledger (ν : Type) where
  cached : List ν
  spoiled : List ν
  deriving DecidableEq

namespace Ledger

variable {ν K : Type} [DecidableEq ν]

/-- Loading a file into an image that is the entry of `holds`, if any: a file that is not in the cache is read
into that entry. -/
def load (l : Ledger ν) (holds : Option ν) (fn : ν) : Ledger ν :=
  ⟨fn :: l.cached, if fn ∈ l.cached then l.spoiled else holds.toList ++ l.spoiled⟩

/-- The files after the first, one after the other: none is loaded whose entry has been written to, and none
is read into the entry of the first, to which they are added. -/
def Sound (first : ν) : Option ν → List ν → Ledger ν → Prop
  | _, [], _ => True
  | tmp2, fn :: fns, l => fn ∉ l.spoiled ∧ (fn ∈ l.cached ∨ tmp2 ≠ some first) ∧
      Sound first (some fn) fns ⟨(l.load tmp2 fn).cached, first :: (l.load tmp2 fn).spoiled⟩

instance decidableSound (first : ν) : ∀ tmp2 fns (l : Ledger ν), Decidable (Sound first tmp2 fns l)
  | _, [], _ => isTrue trivial
  | _, fn :: fns, _ =>
    have := decidableSound first (some fn) fns
    inferInstanceAs (Decidable (_ ∧ _ ∧ _))

def addDarks (first : ν) : Option ν → List ν → Ledger ν → Ledger ν
  | _, [], l => l
  | tmp2, fn :: fns, l =>
    addDarks first (some fn) fns ⟨(l.load tmp2 fn).cached, first :: (l.load tmp2 fn).spoiled⟩

/-- The same for a list of dark files. -/
def SoundDarks (l : Ledger ν) : List ν → Prop
  | [] => True
  | fn :: fns => fn ∉ l.spoiled ∧ Sound fn none fns (l.load none fn)

instance decidableSoundDarks (l : Ledger ν) : ∀ fns, Decidable (SoundDarks l fns)
  | [] => isTrue trivial
  | _ :: _ => inferInstanceAs (Decidable (_ ∧ _))

end Ledger

section Condition

variable {ν K : Type} [DecidableEq ν] (format : String → ℕ → String) (path : String → ν)
  (files : ν → Option (CalibFile K))

end Condition

section Results

variable {ν K : Type} {s s' : State ν K} {e im : Image} {f g : CalibFile K}

namespace State

/-! ## The reader -/

/-- The image has the pixels and the number of frames of the file. -/
structure Holds (s : State ν K) (e : Image) (f : CalibFile K) : Prop where
  pixels : s.pixels e = some f.file.data
  frames : s.getNumberOfFrames e = some f.frames
  size : e.nElements = f.file.data.length

/-- Two images that share nothing. -/
structure Apart (e im : Image) : Prop where
  block : ∀ r, e.block = some r → im.block ≠ some r
  header : ∀ h, e.header = some h → im.header ≠ some h

theorem Apart.symm (h : Apart e im) : Apart im e :=
  ⟨fun r hr hr' => h.block r hr' hr, fun r hr hr' => h.header r hr' hr⟩

theorem apart_new : Apart e .new :=
  ⟨fun r _ h => Option.some_ne_none r h.symm, fun r _ h => Option.some_ne_none r h.symm⟩

theorem lt_of_pixels {b : List K} {r : ℕ} (h : s.pixels e = some b) (hr : e.block = some r) :
    r < s.blocks.length := by
  rw [pixels, hr, Option.bind_some] at h
  exact (List.getElem?_eq_some_iff.1 h).1

theorem lt_of_frames {n r : ℕ} (h : s.getNumberOfFrames e = some n) (hr : e.header = some r) :
    r < s.headers.length := by
  rw [getNumberOfFrames, hr, Option.bind_some] at h
  exact (List.getElem?_eq_some_iff.1 h).1

theorem nElements_pos (h : forceResize f.file im.toImage = false) (hpos : im.dims = [] ∨ 0 < im.nElements) :
    0 < im.nElements := by
  refine hpos.resolve_left fun hnil => ?_
  have hlen : 0 < f.file.dims.length := List.length_pos_iff.2 f.file.dims_ne
  rw [forceResize, hnil, List.length_nil, decide_eq_true hlen, Bool.true_or] at h
  exact Bool.noConfusion h

theorem readHeader_frames (n : ℕ) (h : ∀ r, im.header = some r → r < s.headers.length) :
    (s.readHeader n im).1.getNumberOfFrames (s.readHeader n im).2 = some n := by
  unfold readHeader
  cases hheader : im.header with
  | none => simp [getNumberOfFrames]
  | some r => simp [getNumberOfFrames, hheader, h r hheader]

theorem readHeader_other {n m : ℕ} (hn : s.getNumberOfFrames e = some n)
    (ha : ∀ r, e.header = some r → im.header ≠ some r) :
    (s.readHeader m im).1.getNumberOfFrames e = some n ∧
      ∀ r, e.header = some r → (s.readHeader m im).2.header ≠ some r := by
  obtain ⟨r, hr, hget⟩ := Option.bind_eq_some_iff.1 hn
  have hlt := lt_of_frames hn hr
  unfold readHeader
  cases hheader : im.header with
  | none =>
    refine ⟨?_, fun r' hr' heq => ?_⟩
    · rw [getNumberOfFrames, hr, Option.bind_some, List.getElem?_append_left hlt]
      exact hget
    · obtain rfl := Option.some.inj (hr.symm.trans hr')
      exact absurd (Option.some.inj heq) (Nat.ne_of_gt hlt)
  | some r' =>
    refine ⟨?_, ?_⟩
    · have hne : r' ≠ r := fun heq => ha r hr (heq ▸ hheader)
      rw [getNumberOfFrames, hr, Option.bind_some, List.getElem?_set_ne hne]
      exact hget
    · rw [hheader]
      rwa [hheader] at ha

theorem readHeader_block (n : ℕ) : (s.readHeader n im).2.toImage = im.toImage := by
  unfold readHeader
  cases im.header <;> rfl

theorem readHeader_blocks (n : ℕ) : (s.readHeader n im).1.blocks = s.blocks := by
  unfold readHeader
  cases im.header <;> rfl

theorem readPixels_headers (d : File K) : (s.readPixels d im).1.headers = s.headers := by
  unfold readPixels
  split_ifs
  · rfl
  · cases im.block <;> rfl

theorem readPixels_header (d : File K) : (s.readPixels d im).2.header = im.header := by
  unfold readPixels
  split_ifs
  · rfl
  · cases im.block <;> rfl

/-- What the reader needs of an image that it does not give a new block. -/
theorem readPixels_pixels {d : File K} (h : forceResize d im.toImage = false →
      im.nElements = d.data.length ∧ ∃ old, s.pixels im = some old ∧ old.length = d.data.length) :
    (s.readPixels d im).1.pixels (s.readPixels d im).2 = some d.data ∧
      (s.readPixels d im).2.nElements = d.data.length := by
  unfold readPixels
  cases hforce : forceResize d im.toImage with
  | true =>
    refine ⟨by simp [pixels], ?_⟩
    rw [if_pos rfl, CachedFile.Image.nElements, if_neg d.dims_ne, d.sized]
  | false =>
    obtain ⟨hsize, old, hold, hlen⟩ := h hforce
    obtain ⟨r, hr, hget⟩ := Option.bind_eq_some_iff.1 hold
    refine ⟨?_, ?_⟩
    · have hover : overwrite d.data old = d.data := CachedFile.State.overwrite_eq hlen
      simp [pixels, hr, hget, hover]
    · simpa [hr] using hsize

theorem readPixels_other {d : File K} {b : List K} (hb : s.pixels e = some b)
    (ha : ∀ r, e.block = some r → im.block ≠ some r) :
    (s.readPixels d im).1.pixels e = some b ∧
      ∀ r, e.block = some r → (s.readPixels d im).2.block ≠ some r := by
  obtain ⟨r, hr, hget⟩ := Option.bind_eq_some_iff.1 hb
  have hlt := lt_of_pixels hb hr
  unfold readPixels
  split_ifs with hforce
  · refine ⟨?_, fun r' hr' heq => ?_⟩
    · rw [pixels, hr, Option.bind_some, List.getElem?_append_left hlt]
      exact hget
    · obtain rfl := Option.some.inj (hr.symm.trans hr')
      exact absurd (Option.some.inj heq) (Nat.ne_of_gt hlt)
  · cases hblock : im.block with
    | none => exact ⟨hb, fun r' _ heq => Option.some_ne_none r' (heq.symm.trans hblock)⟩
    | some r' =>
      have hne : r' ≠ r := fun heq => ha r hr (heq ▸ hblock)
      exact ⟨by simp [pixels, hr, hne, hget], ha⟩

/-- **What is read into an image that is new, or that holds a file with as many pixels.** -/
theorem read_holds (h : im = .new ∨ im.nElements = f.file.data.length ∧ Holds s im g) :
    Holds (s.read f im).1 (s.read f im).2 f := by
  have hheader : ∀ r, im.header = some r → r < s.headers.length := by
    rcases h with rfl | ⟨-, hg⟩
    · exact fun r hr => absurd hr.symm (Option.some_ne_none r)
    · exact fun r => lt_of_frames hg.frames
  obtain ⟨hpixels, hsize⟩ := @readPixels_pixels ν K (s.readHeader f.frames im).1 (s.readHeader f.frames im).2
    f.file fun hforce => by
      rw [readHeader_block] at hforce ⊢
      rcases h with rfl | ⟨hsize, hg⟩
      · exact absurd (nElements_pos hforce (.inl rfl)) (Nat.lt_irrefl 0)
      · refine ⟨hsize, g.file.data, ?_, hg.size ▸ hsize⟩
        rw [pixels, readHeader_blocks, readHeader_block]
        exact hg.pixels
  refine ⟨hpixels, ?_, hsize⟩
  rw [read, getNumberOfFrames, readPixels_header, readPixels_headers]
  exact readHeader_frames f.frames hheader

/-- **The reader leaves images alone that share nothing with the one that is read.** -/
theorem read_other (h : Holds s e g) (ha : Apart e im) :
    Holds (s.read f im).1 e g ∧ Apart e (s.read f im).2 := by
  obtain ⟨hframes, hheader⟩ := @readHeader_other ν K s e im g.frames f.frames h.frames ha.header
  have hpixels : (s.readHeader f.frames im).1.pixels e = some g.file.data := by
    rw [pixels, readHeader_blocks]
    exact h.pixels
  obtain ⟨hpixels', hblock⟩ := @readPixels_other ν K _ e (s.readHeader f.frames im).2 f.file _ hpixels
    (by rw [readHeader_block]; exact ha.block)
  refine ⟨⟨hpixels', ?_, h.size⟩, hblock, ?_⟩
  · rw [read, getNumberOfFrames, readPixels_headers]
    exact hframes
  · rw [read, readPixels_header]
    exact hheader

/-! ## The cache -/

variable {files : ν → Option (CalibFile K)} {l : Ledger ν} {holds : Option ν} {fn : ν}

/-- What an image holds is in the blocks and headers. -/
theorem Holds.of_memory (h : Holds s e f) (hblocks : s'.blocks = s.blocks) (hheaders : s'.headers = s.headers) :
    Holds s' e f :=
  ⟨by rw [State.pixels, hblocks]; exact h.pixels, by rw [getNumberOfFrames, hheaders]; exact h.frames, h.size⟩

/-- What the ledger says of the cache: the files that are not spoiled have their own pixels and frames, in
blocks and headers of their own. -/
structure Inv (files : ν → Option (CalibFile K)) (l : Ledger ν) (s : State ν K) : Prop where
  cached : ∀ fn, fn ∈ l.cached ↔ (s.cache fn).isSome
  filled : ∀ fn e, s.cache fn = some e → 0 < e.nElements
  holds : ∀ fn e, s.cache fn = some e → fn ∉ l.spoiled → ∃ f, files fn = some f ∧ Holds s e f
  apart : ∀ fn e fn' e', s.cache fn = some e → s.cache fn' = some e' → fn ∉ l.spoiled → fn' ∉ l.spoiled →
    fn ≠ fn' → Apart e e'

/-- An image that a file with `n` pixels may be read into. -/
def Buffer (l : Ledger ν) (s : State ν K) (holds : Option ν) (img : Image) (n : ℕ) : Prop :=
  holds = none ∧ img = .new ∨ ∃ p, holds = some p ∧ s.cache p = some img ∧ p ∉ l.spoiled ∧ img.nElements = n

/-- The other files that are not spoiled share nothing with what is read into. -/
theorem Inv.apart_buffer (h : Inv files l s) {n : ℕ} (hbuf : Buffer l s holds im n)
    (he : s.cache fn = some e) (hl : fn ∉ l.spoiled) (hne : fn ∉ holds.toList) : Apart e im := by
  rcases hbuf with ⟨-, rfl⟩ | ⟨p, rfl, hp, hpl, -⟩
  · exact apart_new
  · exact h.apart fn e p im he hp hl hpl fun heq => hne (by simp [heq])

variable [DecidableEq ν]

theorem fill_cache_self : (s.fill fn f im).1.cache fn = some (s.read f im).2 := Function.update_self ..

theorem fill_cache_of_ne {fn' : ν} (h : fn' ≠ fn) : (s.fill fn f im).1.cache fn' = s.cache fn' :=
  Function.update_of_ne h ..

theorem Inv.fill (h : Inv files l s) (hf : files fn = some f) (hnew : s.cache fn = none)
    (hbuf : Buffer l s holds im f.file.data.length) :
    Inv files (l.load holds fn) (s.fill fn f im).1 ∧ Holds (s.fill fn f im).1 (s.fill fn f im).2 f := by
  have huncached : fn ∉ l.cached := fun hmem => by
    have := (h.cached fn).1 hmem
    rw [hnew] at this
    exact Bool.noConfusion this
  have hfits : im = .new ∨ ∃ g, im.nElements = f.file.data.length ∧ Holds s im g := by
    rcases hbuf with ⟨-, rfl⟩ | ⟨p, -, hp, hpl, hsize⟩
    · exact .inl rfl
    · obtain ⟨g, -, hg⟩ := h.holds p im hp hpl
      exact .inr ⟨g, hsize, hg⟩
  have hin : Holds (s.read f im).1 (s.read f im).2 f := by
    rcases hfits with hnew | ⟨g, hg⟩
    · exact @read_holds ν K s im f f (.inl hnew)
    · exact read_holds (.inr hg)
  have hread : Holds (s.fill fn f im).1 (s.read f im).2 f := hin.of_memory rfl rfl
  have hspoiled : (l.load holds fn).spoiled = holds.toList ++ l.spoiled := if_neg huncached
  have hold : ∀ fn' e, fn' ≠ fn → (s.fill fn f im).1.cache fn' = some e → s.cache fn' = some e :=
    fun fn' e hne he => (fill_cache_of_ne hne).symm.trans he
  have hother : ∀ fn' e, s.cache fn' = some e → fn' ∉ (l.load holds fn).spoiled →
      ∃ g, files fn' = some g ∧ Holds (s.fill fn f im).1 e g ∧ Apart e (s.read f im).2 := by
    intro fn' e he hl
    rw [hspoiled, List.mem_append, not_or] at hl
    obtain ⟨g, hg, hholds⟩ := h.holds fn' e he hl.2
    obtain ⟨hkept, hapart⟩ := @read_other ν K s e im f g hholds (h.apart_buffer hbuf he hl.2 hl.1)
    exact ⟨g, hg, hkept.of_memory rfl rfl, hapart⟩
  have hself : (s.fill fn f im).1.cache fn = some (s.read f im).2 := fill_cache_self
  refine ⟨⟨fun fn' => ?_, fun fn' e he => ?_, fun fn' e he hl => ?_, fun fn₁ e₁ fn₂ e₂ h₁ h₂ hl₁ hl₂ hne => ?_⟩,
    hread⟩
  · by_cases heq : fn' = fn
    · subst heq
      rw [hself]
      exact iff_of_true List.mem_cons_self rfl
    · rw [Ledger.load, List.mem_cons, or_iff_right heq, h.cached, fill_cache_of_ne heq]
  · by_cases heq : fn' = fn
    · subst heq
      obtain rfl := Option.some.inj (hself.symm.trans he)
      rw [hread.size, f.file.sized]
      exact List.prod_pos f.file.dims_pos
    · exact h.filled fn' e (hold fn' e heq he)
  · by_cases heq : fn' = fn
    · subst heq
      obtain rfl := Option.some.inj (hself.symm.trans he)
      exact ⟨f, hf, hread⟩
    · obtain ⟨g, hg, hholds, -⟩ := hother fn' e (hold fn' e heq he) hl
      exact ⟨g, hg, hholds⟩
  · by_cases heq₁ : fn₁ = fn
    · subst heq₁
      obtain rfl := Option.some.inj (hself.symm.trans h₁)
      obtain ⟨-, -, -, hapart⟩ := hother fn₂ e₂ (hold fn₂ e₂ (Ne.symm hne) h₂) hl₂
      exact hapart.symm
    · by_cases heq₂ : fn₂ = fn
      · subst heq₂
        obtain rfl := Option.some.inj (hself.symm.trans h₂)
        obtain ⟨-, -, -, hapart⟩ := hother fn₁ e₁ (hold fn₁ e₁ heq₁ h₁) hl₁
        exact hapart
      · rw [hspoiled, List.mem_append, not_or] at hl₁ hl₂
        exact h.apart fn₁ e₁ fn₂ e₂ (hold fn₁ e₁ heq₁ h₁) (hold fn₂ e₂ heq₂ h₂) hl₁.2 hl₂.2 hne

/-- What has the pixels of another block keeps them. -/
theorem fill_pixels {b : List K} (hb : s.pixels e = some b) (ha : ∀ r, e.block = some r → im.block ≠ some r) :
    (s.fill fn f im).1.pixels e = some b ∧ ∀ r, e.block = some r → (s.fill fn f im).2.block ≠ some r := by
  have hb' : (s.readHeader f.frames im).1.pixels e = some b := by
    rw [State.pixels, readHeader_blocks]
    exact hb
  exact @readPixels_other ν K _ e (s.readHeader f.frames im).2 f.file b hb' (by rw [readHeader_block]; exact ha)

theorem Inv.load_cached (h : Inv files l s) (holds : Option ν) (im : Image) (hf : files fn = some f)
    (hmem : fn ∈ l.cached) :
    ∃ e, s.cache fn = some e ∧ s.load files fn im = some (s, e) ∧ Inv files (l.load holds fn) s := by
  obtain ⟨e, he⟩ := Option.isSome_iff_exists.1 ((h.cached fn).1 hmem)
  have hl : l.load holds fn = ⟨fn :: l.cached, l.spoiled⟩ := by rw [Ledger.load, if_pos hmem]
  refine ⟨e, he, ?_, hl ▸ ⟨fun fn' => ?_, h.filled, h.holds, h.apart⟩⟩
  · simp only [load, hf, Option.map_some, he, if_pos (h.filled fn e he)]
  · rw [← h.cached, List.mem_cons, or_iff_right_of_imp fun heq => heq ▸ hmem]

theorem Inv.load_new (h : Inv files l s) (im : Image) (hf : files fn = some f) (hmem : fn ∉ l.cached) :
    s.cache fn = none ∧ s.load files fn im = some (s.fill fn f im) := by
  have hnone : s.cache fn = none := Option.not_isSome_iff_eq_none.1 fun hsome => hmem ((h.cached fn).2 hsome)
  exact ⟨hnone, by simp only [load, hf, Option.map_some, hnone]⟩

/-- A load into a new image, of a file that may be spoiled. -/
theorem Inv.load (h : Inv files l s) (hf : files fn = some f) :
    ∃ p, s.load files fn .new = some p ∧ Inv files (l.load none fn) p.1 ∧ p.1.cache fn = some p.2 := by
  by_cases hmem : fn ∈ l.cached
  · obtain ⟨e, he, hload, hinv⟩ := h.load_cached none .new hf hmem
    exact ⟨_, hload, hinv, he⟩
  · obtain ⟨hnone, hload⟩ := h.load_new .new hf hmem
    exact ⟨_, hload, (h.fill hf hnone (.inl ⟨rfl, rfl⟩)).1, fill_cache_self⟩

theorem load_spoiled_subset : l.spoiled ⊆ (l.load holds fn).spoiled := by
  unfold Ledger.load
  dsimp only
  split_ifs
  · exact List.Subset.refl _
  · exact List.subset_append_right _ _

/-- While the files are added up in the entry `tmp` of the first of them. -/
structure Adding (files : ν → Option (CalibFile K)) (first : ν) (tmp : Image) (sum : List K) (holds : Option ν)
    (tmp2 : Image) (l : Ledger ν) (s : State ν K) : Prop where
  inv : Inv files l s
  entry : s.cache first = some tmp
  pixels : s.pixels tmp = some sum
  size : tmp.nElements = sum.length
  own : ∀ fn e, s.cache fn = some e → fn ∉ l.spoiled → fn ≠ first → ∀ r, tmp.block = some r → e.block ≠ some r
  buffer : holds = some first ∨ Buffer l s holds tmp2 sum.length

variable {first : ν} {tmp tmp2 : Image} {sum : List K}

theorem Adding.load (h : Adding files first tmp sum holds tmp2 l s) (hf : files fn = some f)
    (hlen : f.file.data.length = sum.length) (hclean : fn ∉ l.spoiled)
    (hsound : fn ∈ l.cached ∨ holds ≠ some first) :
    ∃ p, s.load files fn tmp2 = some p ∧ Adding files first tmp sum (some fn) p.2 (l.load holds fn) p.1 ∧
      Holds p.1 p.2 f := by
  by_cases hmem : fn ∈ l.cached
  · obtain ⟨e, he, hload, hinv⟩ := h.inv.load_cached holds tmp2 hf hmem
    obtain ⟨g, hg, hholds⟩ := h.inv.holds fn e he hclean
    obtain rfl := Option.some.inj (hf.symm.trans hg)
    have hspoiled : (l.load holds fn).spoiled = l.spoiled := if_pos hmem
    refine ⟨_, hload, ⟨hinv, h.entry, h.pixels, h.size, ?_, .inr (.inr ⟨fn, rfl, he, ?_, ?_⟩)⟩, hholds⟩
    · rw [hspoiled]
      exact h.own
    · rwa [hspoiled]
    · rw [hholds.size, hlen]
  · obtain ⟨hnone, hload⟩ := h.inv.load_new tmp2 hf hmem
    have hbuf : Buffer l s holds tmp2 f.file.data.length := hlen ▸ h.buffer.resolve_left (hsound.resolve_left hmem)
    obtain ⟨hinv, hholds⟩ := h.inv.fill hf hnone hbuf
    have hfirst : first ≠ fn := fun heq => Option.some_ne_none tmp ((heq ▸ h.entry).symm.trans hnone)
    have hapart : ∀ r, tmp.block = some r → tmp2.block ≠ some r := by
      rcases hbuf with ⟨-, rfl⟩ | ⟨p, hp, hcache, hpl, -⟩
      · exact fun r _ hr => Option.some_ne_none r hr.symm
      · exact h.own p tmp2 hcache hpl fun heq => (hsound.resolve_left hmem) (heq ▸ hp)
    obtain ⟨hpixels, hblock⟩ := @fill_pixels ν K s tmp tmp2 f fn _ sum h.pixels hapart
    refine ⟨_, hload, ⟨hinv, (fill_cache_of_ne hfirst).trans h.entry, hpixels, h.size, fun fn' e he hl hne => ?_,
      .inr (.inr ⟨fn, rfl, fill_cache_self, ?_, ?_⟩)⟩, hholds⟩
    · by_cases heq : fn' = fn
      · subst heq
        obtain rfl := Option.some.inj (fill_cache_self.symm.trans he)
        exact hblock
      · exact h.own fn' e ((fill_cache_of_ne heq).symm.trans he) (fun hold => hl (load_spoiled_subset hold)) hne
    · rw [Ledger.load, if_neg hmem, List.mem_append, not_or]
      refine ⟨fun hin => ?_, hclean⟩
      rcases hbuf with ⟨rfl, -⟩ | ⟨p, rfl, hcache, -⟩
      · exact absurd hin List.not_mem_nil
      · obtain rfl : fn = p := by simpa using hin
        exact Option.some_ne_none _ (hcache.symm.trans hnone)
    · rw [hholds.size, hlen]

variable [Field K]

theorem Adding.add (h : Adding files first tmp sum (some fn) tmp2 l s) (hholds : Holds s tmp2 f)
    (hlen : f.file.data.length = sum.length) :
    ∃ s', s.add tmp tmp2 = some s' ∧ s'.getNumberOfFrames tmp2 = some f.frames ∧
      Adding files first tmp (List.zipWith (· + ·) sum f.file.data) (some fn) tmp2
        ⟨l.cached, first :: l.spoiled⟩ s' := by
  obtain ⟨r, hr, hget⟩ := Option.bind_eq_some_iff.1 h.pixels
  have hsize : tmp.nElements = tmp2.nElements := by rw [h.size, hholds.size, hlen]
  have hkept : ∀ fn' e, s.cache fn' = some e → fn' ∉ first :: l.spoiled → ∀ g, Holds s e g →
      Holds { s with blocks := s.blocks.modify r (List.zipWith (· + ·) · f.file.data) } e g := by
    intro fn' e he hl g hg
    rw [List.mem_cons, not_or] at hl
    have hne : ¬ e.block = some r := h.own fn' e he hl.2 hl.1 r hr
    obtain ⟨r', hr', hget'⟩ := Option.bind_eq_some_iff.1 hg.pixels
    have hne' : r ≠ r' := fun heq => hne (heq ▸ hr')
    exact ⟨by simp [State.pixels, hr', hne', hget'], hg.frames, hg.size⟩
  have hadd : s.add tmp tmp2 = some { s with blocks := s.blocks.modify r (List.zipWith (· + ·) · f.file.data) } := by
    rw [State.add, if_pos hsize, hr, hholds.pixels]
  refine ⟨_, hadd, hholds.frames, ⟨⟨h.inv.cached, h.inv.filled,
    fun fn' e he hl => ?_, fun fn₁ e₁ fn₂ e₂ h₁ h₂ hl₁ hl₂ => ?_⟩, h.entry, ?_, ?_, fun fn' e he hl => ?_, ?_⟩⟩
  · obtain ⟨g, hg, hholds'⟩ := h.inv.holds fn' e he fun hold => hl (List.mem_cons_of_mem _ hold)
    exact ⟨g, hg, hkept fn' e he hl g hholds'⟩
  · exact h.inv.apart fn₁ e₁ fn₂ e₂ h₁ h₂ (fun hold => hl₁ (List.mem_cons_of_mem _ hold))
      fun hold => hl₂ (List.mem_cons_of_mem _ hold)
  · simp [State.pixels, hr, hget]
  · rw [h.size, List.length_zipWith, hlen, Nat.min_self]
  · exact h.own fn' e he fun hold => hl (List.mem_cons_of_mem _ hold)
  · by_cases heq : fn = first
    · exact .inl (congrArg some heq)
    · rcases h.buffer.resolve_left fun hsome => heq (Option.some.inj hsome) with ⟨hnone, -⟩ | ⟨p, hp, hcache, hpl, hn⟩
      · exact absurd hnone (Option.some_ne_none fn)
      · obtain rfl := Option.some.inj hp
        refine .inr (.inr ⟨fn, rfl, hcache, ?_, ?_⟩)
        · rw [List.mem_cons, not_or]
          exact ⟨heq, hpl⟩
        · rw [hn, List.length_zipWith, hlen, Nat.min_self]

end State

/-! ## The channels one after the other -/

variable [DecidableEq ν] [Field K] {files : ν → Option (CalibFile K)} {format : String → ℕ → String}
  {path : String → ν}

/-- The numbers of the two files, put into the template. -/
def numbered : String → ℕ → String := fun _ n => if n = 0 then "dark.0" else "dark.1"

end Results

end Redux.Momfbd.DarkFrames
