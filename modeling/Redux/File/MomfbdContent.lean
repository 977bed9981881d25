import Mathlib.Tactic.Ring
import Redux.File.Momfbd

/-!
# File.MomfbdContent — what is in a file of restored images, and what is found in it

The content of a file is its numbers, texts and floats; `bytes` are the bytes of that content on a machine of
either byte order.  What `read` should find in them, and where, is stated for the content, and found when the
numbers that are not put in order are the same either way.
-/

namespace Redux.MomfbdFile

open Redux.Lib

/-! ## Patches -/

/-- A region as it is taken from a file: only `region[0]` is put in order. -/
def Region.taken (reversed : Bool) (r : Region) : Region :=
  Region.order ⟨r.firstX, inOrder reversed r.lastX, inOrder reversed r.firstY, inOrder reversed r.lastY⟩

/-- What a patch consists of in a file of a version. -/
structure PatchContent (version : ℚ) where
  region : Region
  (offx offy nChannels : Word)
  (nim dx dy : List Word)
  hasImage : BitVec 8
  img : List Word
  npsf : Word
  psf : List Word
  nobj : Word
  obj : List Word
  nres : Word
  res : List Word
  (nalpha nm : Word)
  alpha : List Word
  (ndiv nphx nphy : Word)
  div : List (BitVec 8 × List Word)
  nim_length : (nim.length : ℤ) = nChannels.toInt
  dx_length : (dx.length : ℤ) = nChannels.toInt
  dy_length : (dy.length : ℤ) = nChannels.toInt
  img_length : (img.length : ℤ) = if hasImage ≠ 0 then region.order.nX * region.order.nY else 0
  psf_length : (psf.length : ℤ) = npsf.toInt * (region.order.nX * region.order.nY)
  obj_length : (obj.length : ℤ) = nobj.toInt * (region.order.nX * region.order.nY)
  res_length : (res.length : ℤ) = nres.toInt * (region.order.nX * region.order.nY)
  alpha_length : (alpha.length : ℤ) = nalpha.toInt * nm.toInt
  div_length : (div.length : ℤ) = ndiv.toInt
  div_size : ∀ d ∈ div, (d.2.length : ℤ) = nphy.toInt * nphx.toInt
  div_version : ¬ 20100726 ≤ version → ndiv = 0
  nph_version : ¬ 20110708 ≤ version → nphx = BitVec.ofInt 32 (region.order.nX.tdiv 2) ∧
    nphy = BitVec.ofInt 32 (region.order.nY.tdiv 2)

namespace PatchContent

variable {version : ℚ} (c : PatchContent version) (reversed : Bool)

/-- A number and the floats behind it. -/
def partBytes (n : Word) (fs : List Word) : Str := numBytes reversed n ++ numsBytes reversed fs

def alphaBytes : Str :=
  numBytes reversed c.nalpha ++ if c.nalpha ≠ 0 then numBytes reversed c.nm ++ numsBytes reversed c.alpha else []

/-- One diversity, with its type if the version has one. -/
def divRow (version : ℚ) (reversed : Bool) (d : BitVec 8 × List Word) : Str :=
  (if 20110916 ≤ version then [d.1] else []) ++ numsBytes reversed d.2

def nphBytes : Str :=
  if 20110708 ≤ version then numBytes reversed c.nphx ++ numBytes reversed c.nphy else []

def divBytes : Str :=
  (if 20100726 ≤ version then numBytes reversed c.ndiv else []) ++
    if c.ndiv ≠ 0 then c.nphBytes reversed ++ c.div.flatMap (divRow version reversed) else []

def headBytes : Str :=
  c.region.bytes reversed ++ (offsetBytes version reversed c.offx c.offy ++ numBytes reversed c.nChannels)

def restBytes : Str :=
  numsBytes reversed c.nim ++ (numsBytes reversed c.dx ++ (numsBytes reversed c.dy ++
    ((c.hasImage :: numsBytes reversed c.img) ++ (partBytes reversed c.npsf c.psf ++
      (partBytes reversed c.nobj c.obj ++ (partBytes reversed c.nres c.res ++
        (c.alphaBytes reversed ++ c.divBytes reversed)))))))

/-- The bytes of a patch. -/
def bytes : Str := c.headBytes reversed ++ c.restBytes reversed

/-! ### Where the parts start -/

/-- A part that may be there. -/
def sizeIf (b : Prop) [Decidable b] (n : ℕ) : ℕ := if b then n else 0

def restAt (version : ℚ) (p : ℕ) : ℕ := p + (20 + sizeIf (20110714 ≤ version) 8)

def imageAt (p : ℕ) : ℕ := restAt version p + (4 * c.nim.length + (4 * c.dx.length + 4 * c.dy.length))

def psfAt (p : ℕ) : ℕ := c.imageAt p + (1 + 4 * c.img.length)

def objAt (p : ℕ) : ℕ := c.psfAt p + (4 + 4 * c.psf.length)

def resAt (p : ℕ) : ℕ := c.objAt p + (4 + 4 * c.obj.length)

def alphaAt (p : ℕ) : ℕ := c.resAt p + (4 + 4 * c.res.length)

def divAt (p : ℕ) : ℕ := c.alphaAt p + (4 + sizeIf (c.nalpha ≠ 0) (4 + 4 * c.alpha.length))

/-- The position of something that is there. -/
def posIf (b : Prop) [Decidable b] (p : ℕ) : ℤ := if b then p else 0

/-- What is found at `p`: the numbers, and where the parts are. -/
def info (p : ℕ) : PatchInfo where
  region := c.region.order
  nChannels := c.nChannels
  offx := if 20110714 ≤ version then c.offx else 0
  offy := if 20110714 ≤ version then c.offy else 0
  nim := c.nim
  dx := c.dx
  dy := c.dy
  nPixelsX := c.region.order.nX
  nPixelsY := c.region.order.nY
  npsf := c.npsf
  nobj := c.nobj
  nres := c.nres
  nalpha := c.nalpha
  nm := if c.nalpha ≠ 0 then c.nm else 0
  ndiv := c.ndiv
  nphx := if c.ndiv ≠ 0 then c.nphx else BitVec.ofInt 32 (c.region.order.nX.tdiv 2)
  nphy := if c.ndiv ≠ 0 then c.nphy else BitVec.ofInt 32 (c.region.order.nY.tdiv 2)
  offset := p
  imgPos := posIf (c.hasImage ≠ 0) (c.imageAt p + 1)
  psfPos := posIf (c.npsf ≠ 0) (c.psfAt p + 4)
  objPos := posIf (c.nobj ≠ 0) (c.objAt p + 4)
  resPos := posIf (c.nres ≠ 0) (c.resAt p + 4)
  alphaPos := posIf (c.nalpha ≠ 0) (c.alphaAt p + 8)
  diversityPos := posIf (c.ndiv ≠ 0) (c.divAt p + (sizeIf (20100726 ≤ version) 4 + sizeIf (20110708 ≤ version) 8))

/-- The parts that are there. -/
def dataMask : BitVec 8 :=
  flag (c.hasImage ≠ 0) MOMFBD_IMG ||| flag (c.npsf ≠ 0) MOMFBD_PSF ||| flag (c.nobj ≠ 0) MOMFBD_OBJ |||
    flag (c.nres ≠ 0) MOMFBD_RES ||| flag (c.nalpha ≠ 0) MOMFBD_ALPHA ||| flag (c.ndiv ≠ 0) MOMFBD_DIV

/-- The first numbers as they are taken from a file: the offset and the number of channels are not put in order. -/
def head (p : ℕ) : PatchHead where
  offset := p
  region := c.region.taken reversed
  offx := if 20110714 ≤ version then inOrder reversed c.offx else 0
  offy := if 20110714 ≤ version then inOrder reversed c.offy else 0
  nChannels := inOrder reversed c.nChannels

end PatchContent

/-! ## The parts of a patch -/

section Parts

variable {version : ℚ} {c : PatchContent version} {reversed : Bool} {p : ℕ} {fs : List Word} {n : Word} {k : ℤ}

theorem takes_byte (b : BitVec 8) : Reader.Takes readByte p [b] b := by
  have hword := @Reader.takes_word p 8 (by decide) b
  rwa [leBytes_byte] at hword

theorem takes_region (r : Region) : Reader.Takes readRegion p (r.bytes reversed)
    ⟨inOrder reversed r.firstX, inOrder reversed r.lastX, inOrder reversed r.firstY, inOrder reversed r.lastY⟩ :=
  (Reader.takes_rawNumber (by decide) _ _).next ((Reader.takes_rawNumber (by decide) _ _).next
    ((Reader.takes_rawNumber (by decide) _ _).next ((Reader.takes_rawNumber (by decide) _ _).last Reader.takes_pure)))

theorem takes_offsets (offx offy : Word) : Reader.Takes (readOffsets version) p (offsetBytes version reversed offx offy)
    (if 20110714 ≤ version then (inOrder reversed offx, inOrder reversed offy) else (0, 0)) := by
  unfold readOffsets offsetBytes
  split_ifs with h
  · exact (Reader.takes_rawNumber (by decide) _ _).next ((Reader.takes_rawNumber (by decide) _ _).last
      Reader.takes_pure)
  · exact Reader.takes_pure

theorem takes_skipFloats (hk : k = fs.length) : Reader.Takes (skipFloats k) p (numsBytes reversed fs) (p : ℤ) := by
  refine Reader.takes_tell.after ((Reader.takes_seek ?_).last Reader.takes_pure)
  rw [numsBytes_length, hk]
  omega

/-- Nothing is taken where there are no floats. -/
theorem takes_image {b : BitVec 8} (hk : (fs.length : ℤ) = if b ≠ 0 then k else 0) :
    Reader.Takes (parseImage k) p (b :: numsBytes reversed fs) (b, PatchContent.posIf (b ≠ 0) (p + 1)) := by
  refine (takes_byte b).next ?_
  unfold PatchContent.posIf
  split_ifs at hk ⊢ with h
  · exact (takes_skipFloats hk.symm).last Reader.takes_pure
  · rw [List.eq_nil_of_length_eq_zero (Int.ofNat_eq_zero.1 hk)]
    exact Reader.takes_pure

theorem takes_part (hk : (fs.length : ℤ) = n.toInt * k) :
    Reader.Takes (parsePart reversed k) p (PatchContent.partBytes reversed n fs)
      (n, PatchContent.posIf (n ≠ 0) (p + 4)) := by
  refine (Reader.takes_number (by decide) _ _).next ?_
  rw [numBytes_length]
  unfold PatchContent.posIf
  split_ifs with h
  · exact (takes_skipFloats hk.symm).last Reader.takes_pure
  · rw [not_not.1 h, show (0 : Word).toInt = 0 from rfl, Int.zero_mul] at hk
    rw [List.eq_nil_of_length_eq_zero (Int.ofNat_eq_zero.1 hk)]
    exact Reader.takes_pure

theorem takes_alpha : Reader.Takes (parseAlpha reversed) p (c.alphaBytes reversed)
    (c.nalpha, if c.nalpha ≠ 0 then c.nm else 0, PatchContent.posIf (c.nalpha ≠ 0) (p + 8)) := by
  refine (Reader.takes_number (by decide) _ _).next ?_
  rw [numBytes_length]
  unfold PatchContent.posIf
  split_ifs with h
  · refine (Reader.takes_number (by decide) _ _).next ?_
    rw [numBytes_length]
    exact (takes_skipFloats c.alpha_length.symm).last Reader.takes_pure
  · exact Reader.takes_pure

theorem takes_diversitySize : Reader.Takes (parseDiversitySize reversed version c.region.order.nX c.region.order.nY) p
    (c.nphBytes reversed) (c.nphx, c.nphy) := by
  unfold parseDiversitySize PatchContent.nphBytes
  split_ifs with h
  · exact (Reader.takes_number (by decide) _ _).next ((Reader.takes_number (by decide) _ _).last Reader.takes_pure)
  · rw [← (c.nph_version h).1, ← (c.nph_version h).2]
    exact Reader.takes_pure

theorem nphBytes_length : (c.nphBytes reversed).length = PatchContent.sizeIf (20110708 ≤ version) 8 := by
  unfold PatchContent.nphBytes PatchContent.sizeIf
  split_ifs with h
  · rw [List.length_append, numBytes_length, numBytes_length]
  · rfl

/-- The length of the diversities, each of the same size. -/
theorem divRows_length : ∀ {ds : List (BitVec 8 × List Word)}, (∀ d ∈ ds, (d.2.length : ℤ) = k) →
    ((ds.flatMap (PatchContent.divRow version reversed)).length : ℤ) =
      ds.length * k * 4 + (if 20110916 ≤ version then (ds.length : ℤ) else 0)
  | [], _ => by simp
  | d :: ds, h => by
    have ih := divRows_length fun e he => h e (List.mem_cons_of_mem d he)
    have hd := h d List.mem_cons_self
    rw [List.flatMap_cons, List.length_append, Int.natCast_add, ih, PatchContent.divRow, List.length_append,
      numsBytes_length, List.length_cons, ← hd]
    split_ifs
    · rw [List.length_singleton]
      push_cast
      ring
    · rw [List.length_nil]
      push_cast
      ring

theorem takes_diversity : Reader.Takes (parseDiversity reversed version c.region.order.nX c.region.order.nY) p
    (c.divBytes reversed) (c.ndiv, if c.ndiv ≠ 0 then c.nphx else BitVec.ofInt 32 (c.region.order.nX.tdiv 2),
      if c.ndiv ≠ 0 then c.nphy else BitVec.ofInt 32 (c.region.order.nY.tdiv 2), PatchContent.posIf (c.ndiv ≠ 0)
        (p + (PatchContent.sizeIf (20100726 ≤ version) 4 + PatchContent.sizeIf (20110708 ≤ version) 8))) := by
  have hcount : Reader.Takes (if 20100726 ≤ version then Reader.number 32 reversed else .pure 0) p
      (if 20100726 ≤ version then numBytes reversed c.ndiv else []) c.ndiv := by
    split_ifs with h
    · exact Reader.takes_number (by decide) _ _
    · rw [c.div_version h]
      exact Reader.takes_pure
  have hlength : (if 20100726 ≤ version then numBytes reversed c.ndiv else []).length =
      PatchContent.sizeIf (20100726 ≤ version) 4 := by
    unfold PatchContent.sizeIf
    split_ifs with h
    · exact numBytes_length
    · rfl
  refine hcount.next ?_
  rw [hlength]
  unfold PatchContent.posIf
  by_cases h : c.ndiv ≠ 0
  · simp only [if_pos h]
    refine takes_diversitySize.next (Reader.takes_tell.after ((Reader.takes_seek ?_).last ?_))
    · rw [divRows_length c.div_size, c.div_length, Int.mul_assoc c.ndiv.toInt]
    · rw [nphBytes_length, Nat.add_assoc]
      exact Reader.takes_pure
  · simp only [if_neg h]
    exact Reader.takes_pure

end Parts

/-! ## A patch -/

section Patch

/-- A length that is an `int`. -/
theorem length_eq_toNat {α : Type} {w : ℕ} {n : BitVec w} {vs : List α} (h : (vs.length : ℤ) = n.toInt) :
    vs.length = n.toNat := by
  have hlt := n.isLt
  rw [BitVec.toInt_eq_toNat_cond] at h
  split_ifs at h with hsmall
  · exact Int.ofNat_inj.1 h
  · omega

variable {version : ℚ} {c : PatchContent version} {reversed : Bool} {p : ℕ}

theorem regionBytes_length {r : Region} : (r.bytes reversed).length = 16 := by
  simp only [Region.bytes, List.length_append, numBytes_length]

theorem offsetBytes_length {offx offy : Word} : (offsetBytes version reversed offx offy).length =
    PatchContent.sizeIf (20110714 ≤ version) 8 := by
  unfold offsetBytes PatchContent.sizeIf
  split_ifs
  · rw [List.length_append, numBytes_length, numBytes_length]
  · rfl

theorem headBytes_length : p + (c.headBytes reversed).length = PatchContent.restAt version p := by
  rw [PatchContent.headBytes, List.length_append, List.length_append, regionBytes_length, offsetBytes_length,
    numBytes_length, PatchContent.restAt]
  omega

theorem taken_eq {r : Region} : r.taken reversed = (Region.swapEndian reversed ⟨inOrder reversed r.firstX,
    inOrder reversed r.lastX, inOrder reversed r.firstY, inOrder reversed r.lastY⟩).order := by
  rw [Region.swapEndian, inOrder_inOrder (by decide), Region.taken]

/-- The first numbers of a patch, put in order or not. -/
theorem takes_head : Reader.Takes (parseHead reversed version) p (c.headBytes reversed) (c.head reversed p) := by
  refine Reader.takes_tell.after ((takes_region c.region).next ((takes_offsets c.offx c.offy).next
    ((Reader.takes_rawNumber (by decide) reversed c.nChannels).last ?_)))
  have hhead : c.head reversed p = ⟨(p : ℤ), (Region.swapEndian reversed ⟨inOrder reversed c.region.firstX,
      inOrder reversed c.region.lastX, inOrder reversed c.region.firstY, inOrder reversed c.region.lastY⟩).order,
      (if 20110714 ≤ version then (inOrder reversed c.offx, inOrder reversed c.offy) else (0, 0)).1,
      (if 20110714 ≤ version then (inOrder reversed c.offx, inOrder reversed c.offy) else (0, 0)).2,
      inOrder reversed (inOrder reversed (inOrder reversed c.nChannels))⟩ := by
    rw [inOrder_inOrder (by decide), ← taken_eq, PatchContent.head]
    simp only [apply_ite Prod.fst, apply_ite Prod.snd]
  rw [hhead]
  exact Reader.takes_pure

theorem partBytes_length {n : Word} {fs : List Word} :
    (PatchContent.partBytes reversed n fs).length = 4 + 4 * fs.length := by
  rw [PatchContent.partBytes, List.length_append, numBytes_length, numsBytes_length]

theorem alphaBytes_length : (c.alphaBytes reversed).length =
    4 + PatchContent.sizeIf (c.nalpha ≠ 0) (4 + 4 * c.alpha.length) := by
  unfold PatchContent.alphaBytes PatchContent.sizeIf
  rw [List.length_append, numBytes_length]
  split_ifs
  · rw [List.length_append, numBytes_length, numsBytes_length]
  · rfl

/-! ### Where the parts are -/

theorem imageAt_eq : PatchContent.restAt version p + (numsBytes reversed c.nim).length +
    (numsBytes reversed c.dx).length + (numsBytes reversed c.dy).length = c.imageAt p := by
  rw [numsBytes_length, numsBytes_length, numsBytes_length, PatchContent.imageAt]
  omega

theorem psfAt_eq : c.imageAt p + (c.hasImage :: numsBytes reversed c.img).length = c.psfAt p := by
  rw [List.length_cons, numsBytes_length, PatchContent.psfAt]
  omega

theorem objAt_eq : c.psfAt p + (PatchContent.partBytes reversed c.npsf c.psf).length = c.objAt p := by
  rw [partBytes_length, PatchContent.objAt]

theorem resAt_eq : c.objAt p + (PatchContent.partBytes reversed c.nobj c.obj).length = c.resAt p := by
  rw [partBytes_length, PatchContent.resAt]

theorem alphaAt_eq : c.resAt p + (PatchContent.partBytes reversed c.nres c.res).length = c.alphaAt p := by
  rw [partBytes_length, PatchContent.alphaAt]

theorem divAt_eq : c.alphaAt p + (c.alphaBytes reversed).length = c.divAt p := by
  rw [alphaBytes_length, PatchContent.divAt]

/-- **The rest of a patch is found**, behind first numbers as they are in a file of the own byte order. -/
theorem takes_rest : Reader.Takes (parseRest reversed version (c.head false p)) (PatchContent.restAt version p)
    (c.restBytes reversed) (c.dataMask, c.info p) := by
  have hneg : ¬ (c.head false p).nChannels.toInt < 0 := by
    have hnim := c.nim_length
    change ¬ c.nChannels.toInt < 0
    omega
  have hcount : ∀ {vs : List Word}, (vs.length : ℤ) = c.nChannels.toInt → vs.length =
    (c.head false p).nChannels.toNat :=
    fun hvs => length_eq_toNat hvs
  unfold parseRest
  rw [if_neg hneg]
  refine (Reader.takes_numbers (by decide) _ (hcount c.nim_length)).next ?_
  refine (Reader.takes_numbers (by decide) _ (hcount c.dx_length)).next ?_
  refine (Reader.takes_numbers (by decide) _ (hcount c.dy_length)).next ?_
  rw [imageAt_eq]
  refine (takes_image c.img_length).next ?_
  rw [psfAt_eq]
  refine (takes_part c.psf_length).next ?_
  rw [objAt_eq]
  refine (takes_part c.obj_length).next ?_
  rw [resAt_eq]
  refine (takes_part c.res_length).next ?_
  rw [alphaAt_eq]
  refine takes_alpha.next ?_
  rw [divAt_eq]
  exact takes_diversity.last Reader.takes_pure

/-- **A patch is found** where its first numbers are the same in order or not. -/
theorem takes_patch (h : c.head reversed p = c.head false p) :
    Reader.Takes (PatchInfo.parse reversed version) p (c.bytes reversed) (c.dataMask, c.info p) := by
  refine takes_head.next ?_
  rw [headBytes_length, h]
  exact takes_rest

/-- The length of a patch. -/
theorem bytes_length : (c.bytes reversed).length = (c.bytes false).length := by
  have hdiv : (c.divBytes reversed).length = (c.divBytes false).length := by
    have hrows : ∀ r, ((c.div.flatMap (PatchContent.divRow version r)).length : ℤ) = _ :=
      fun r => divRows_length c.div_size
    have hrows : (c.div.flatMap (PatchContent.divRow version reversed)).length =
        (c.div.flatMap (PatchContent.divRow version false)).length :=
      Int.ofNat_inj.1 ((hrows reversed).trans (hrows false).symm)
    unfold PatchContent.divBytes
    split_ifs <;> simp only [List.length_append, numBytes_length, nphBytes_length, hrows, List.length_nil]
  simp only [PatchContent.bytes, PatchContent.headBytes, PatchContent.restBytes, List.length_append,
    regionBytes_length, offsetBytes_length, numBytes_length, numsBytes_length, List.length_cons, partBytes_length,
    alphaBytes_length, hdiv]

end Patch

/-! ## The patches -/

section Patches

variable {version : ℚ} {reversed : Bool}

/-- What is found in patches one behind the other. -/
def infos : List (PatchContent version) → ℕ → List (BitVec 8 × PatchInfo)
  | [], _ => []
  | c :: cs, p => (c.dataMask, c.info p) :: infos cs (p + (c.bytes false).length)

/-- The first numbers of the patches are the same in order or not. -/
def SameHeads (reversed : Bool) (cs : List (PatchContent version)) : Prop :=
  ∀ c ∈ cs, ∀ p, c.head reversed p = c.head false p

theorem takes_patches : ∀ {cs : List (PatchContent version)} {p : ℕ}, SameHeads reversed cs →
    Reader.Takes (Reader.times cs.length (PatchInfo.parse reversed version)) p
      (cs.flatMap fun c => c.bytes reversed) (infos cs p)
  | [], _, _ => Reader.takes_pure
  | c :: cs, p, h => by
    have ih := @takes_patches cs (p + (c.bytes false).length) fun d hd => h d (List.mem_cons_of_mem c hd)
    refine (takes_patch (h c List.mem_cons_self p)).next ?_
    rw [bytes_length]
    exact ih.last Reader.takes_pure

end Patches

/-! ## Files -/

/-- The pupil and the modes of a file. -/
structure ModesContent where
  hasModes : BitVec 8
  (pix2cf cf2pix nPH nModes : Word)
  pupil : List Word
  modes : List (BitVec 8 × List Word)
  hasModes_ne : hasModes ≠ 0
  pupil_length : (pupil.length : ℤ) = nPH.toInt * nPH.toInt
  modes_length : (modes.length : ℤ) = nModes.toInt
  mode_length : ∀ mode ∈ modes, (mode.2.length : ℤ) = nPH.toInt * nPH.toInt

/-- A string that a file can hold. -/
def Storable (s : Str) : Prop := (∀ c ∈ s, c ≠ 0) ∧ s.length + 1 < 2 ^ 31

instance (s : Str) : Decidable (Storable s) := inferInstanceAs (Decidable (_ ∧ _))

/-- What a file consists of. -/
structure FileContent {τ : Type} (T : Texts τ) where
  (versionString modified timeString dateString : Str)
  modifiedTime : Option τ
  region : Region
  modes : Option ModesContent
  nChannels : Word
  (clipStartX clipEndX clipStartY clipEndY : List (BitVec 16))
  (nPatchesY nPatchesX nPoints : Word)
  patches : List (PatchContent (T.atof versionString))
  names : Option (List Str)
  version_storable : Storable versionString
  modified_storable : Storable modified
  time_storable : Storable timeString
  date_storable : Storable dateString
  modified_time : 20190408 ≤ T.atof versionString →
    ∃ t, modifiedTime = some t ∧ T.time_from_string (replaceT modified) = some t
  modified_absent : ¬ 20190408 ≤ T.atof versionString → modifiedTime = none
  startX_length : (clipStartX.length : ℤ) = nChannels.toInt
  endX_length : (clipEndX.length : ℤ) = nChannels.toInt
  startY_length : (clipStartY.length : ℤ) = nChannels.toInt
  endY_length : (clipEndY.length : ℤ) = nChannels.toInt
  patchesY_nonneg : 0 ≤ nPatchesY.toInt
  patchesX_nonneg : 0 ≤ nPatchesX.toInt
  patches_length : patches.length = nPatchesY.toNat * nPatchesX.toNat
  names_length : ∀ ns ∈ names, ns.length < 2 ^ 31
  name_length : ∀ ns ∈ names, ∀ n ∈ ns, n.length + 1 < 2 ^ 31

/-- One mode, with its type if the version has one. -/
def modeRow (version : ℚ) (reversed : Bool) (mode : BitVec 8 × List Word) : Str :=
  (if 20120201 ≤ version then [mode.1] else []) ++ numsBytes reversed mode.2

def scaleBytes (version : ℚ) (reversed : Bool) (pix2cf cf2pix : Word) : Str :=
  if 20110714 ≤ version then numBytes reversed pix2cf ++ numBytes reversed cf2pix else []

namespace ModesContent

variable (version : ℚ) (c : ModesContent) (reversed : Bool)

def bytes : Str :=
  [c.hasModes] ++ (scaleBytes version reversed c.pix2cf c.cf2pix ++ (numBytes reversed c.nPH ++
    (numBytes reversed c.nModes ++ (numsBytes reversed c.pupil ++ c.modes.flatMap (modeRow version reversed)))))

/-- Where the pupil is, if `p` is where `hasModes` is. -/
def pupilAt (p : ℕ) : ℕ := p + (9 + PatchContent.sizeIf (20110714 ≤ version) 8)

def modesAt (p : ℕ) : ℕ := pupilAt version p + 4 * c.pupil.length

def head (p : ℕ) : ModesHead where
  bit := MOMFBD_MODES
  pix2cf := if 20110714 ≤ version then c.pix2cf else NAN
  cf2pix := if 20110714 ≤ version then c.cf2pix else NAN
  nPH := c.nPH
  nModes := c.nModes
  phOffset := pupilAt version p
  modesOffset := c.modesAt version p

end ModesContent

namespace FileContent

variable {τ : Type} {T : Texts τ} (c : FileContent T) (reversed : Bool)

def version : ℚ := T.atof c.versionString

/-- What is before `hasModes`. -/
def frontBytes : Str :=
  [if reversed then (1 : BitVec 8) else 0] ++ (textBytes reversed c.versionString ++
    ((if 20190408 ≤ c.version then textBytes reversed c.modified else []) ++ (textBytes reversed c.timeString ++
      (textBytes reversed c.dateString ++ if regionVersion ≤ c.version then c.region.bytes reversed else []))))

def modesBytes : Str :=
  match c.modes with
  | none => [0]
  | some m => m.bytes c.version reversed

def clipBytes : Str :=
  numBytes reversed c.nChannels ++ (numsBytes reversed c.clipStartX ++ (numsBytes reversed c.clipEndX ++
    (numsBytes reversed c.clipStartY ++ numsBytes reversed c.clipEndY)))

def gridBytes : Str :=
  numBytes reversed c.nPatchesY ++ (numBytes reversed c.nPatchesX ++ numBytes reversed c.nPoints)

def headBytes : Str := c.frontBytes reversed ++ (c.modesBytes reversed ++
    (c.clipBytes reversed ++ c.gridBytes reversed))

def patchBytes : Str := c.patches.flatMap fun p => p.bytes reversed

def countBytes : Str :=
  match c.names with
  | none => []
  | some ns => numBytes reversed (BitVec.ofNat 32 ns.length)

def nameBytes : Str := (c.names.getD []).flatMap (textBytes reversed)

/-- The bytes of a file. -/
def bytes : Str :=
  (c.headBytes reversed ++ (c.patchBytes reversed ++ c.countBytes reversed)) ++ c.nameBytes reversed

/-- Where `hasModes` is. -/
def modesAt : ℕ := (c.frontBytes false).length

/-- Where the patches are. -/
def patchesAt : ℕ := (c.headBytes false).length

/-- Where the names are. -/
def namesAt : ℕ := c.patchesAt + ((c.patchBytes false).length + 4)

def modesHead : ModesHead :=
  match c.modes with
  | none => ⟨0, NAN, NAN, 0, 0, -1, -1⟩
  | some m => m.head c.version c.modesAt

/-- What is found before the patches. -/
def head : FileHead τ where
  swapNeeded := reversed
  version := c.version
  versionString := c.versionString
  modifiedTime := c.modifiedTime
  timeString := c.timeString
  dateString := c.dateString
  roi := if regionVersion ≤ c.version then some (c.region.taken reversed) else none
  modes := c.modesHead
  clips := ⟨c.nChannels, c.clipStartX, c.clipEndX, c.clipStartY, c.clipEndY⟩
  grid := ⟨c.nPatchesY, c.nPatchesX, c.nPoints⟩

def namesHead : BitVec 8 × Word × ℤ :=
  match c.names with
  | none => (0, 0, -1)
  | some ns => (MOMFBD_NAMES, BitVec.ofNat 32 ns.length, (c.namesAt : ℤ))

/-- What is found in a file. -/
def found : FileMomfbd τ := (c.head reversed).found (infos c.patches c.patchesAt) c.namesHead

end FileContent

/-! ## The parts of a file -/

section FileParts

variable {τ : Type} {T : Texts τ} {c : FileContent T} {reversed : Bool} {p : ℕ} {version : ℚ} {s tmpStr : Str}

/-- Where a length is an `int`, it is read as one. -/
theorem toInt_ofNat {n : ℕ} (h : n < 2 ^ 31) : (BitVec.ofNat 32 n).toInt = n ∧ (BitVec.ofNat 32 n).toNat = n := by
  have hnat : (BitVec.ofNat 32 n).toNat = n := by
    rw [BitVec.toNat_ofNat]
    omega
  refine ⟨?_, hnat⟩
  rw [BitVec.toInt_eq_toNat_cond, hnat, if_pos (by omega)]

/-- A string is found, and what the buffer holds behind it stays. -/
theorem takes_string (h : Storable s) : Reader.Takes (readString reversed tmpStr) p (textBytes reversed s)
    (s, s ++ [0] ++ tmpStr.drop (s.length + 1)) := by
  obtain ⟨hint, hnat⟩ := toInt_ofNat h.2
  refine (Reader.takes_number (by decide) _ _).next ?_
  rw [if_neg (by rw [hint]; omega), hnat]
  have hread := @Reader.takes_read (p + (numBytes reversed (BitVec.ofNat 32 (s.length + 1))).length) (s ++ [0])
  rw [List.length_append, List.length_singleton] at hread
  refine hread.last ?_
  have htake : (s ++ [0] ++ tmpStr.drop (s.length + 1)).takeWhile (fun c : BitVec 8 => decide (c ≠ 0)) = s := by
    rw [List.append_assoc, List.takeWhile_append_of_pos fun c hc => decide_eq_true (h.1 c hc), List.singleton_append,
      List.takeWhile_cons_of_neg (by decide), List.append_nil]
  rw [List.length_append, List.length_singleton, htake]
  exact Reader.takes_pure

theorem takes_roi : Reader.Takes (readROI reversed version) p
    (if regionVersion ≤ version then c.region.bytes reversed else [])
    (if regionVersion ≤ version then some (c.region.taken reversed) else none) := by
  unfold readROI
  split_ifs with h
  · refine (takes_region _).last ?_
    rw [taken_eq]
    exact Reader.takes_pure
  · exact Reader.takes_pure

theorem takes_scales {pix2cf cf2pix : Word} : Reader.Takes (readScales reversed version) p
    (scaleBytes version reversed pix2cf cf2pix)
    (if 20110714 ≤ version then pix2cf else NAN, if 20110714 ≤ version then cf2pix else NAN) := by
  unfold readScales scaleBytes
  split_ifs with h
  · exact (Reader.takes_number (by decide) _ _).next ((Reader.takes_number (by decide) _ _).last Reader.takes_pure)
  · exact Reader.takes_pure

theorem scaleBytes_length {pix2cf cf2pix : Word} : (scaleBytes version reversed pix2cf cf2pix).length =
    PatchContent.sizeIf (20110714 ≤ version) 8 := by
  unfold scaleBytes PatchContent.sizeIf
  split_ifs
  · rw [List.length_append, numBytes_length, numBytes_length]
  · rfl

/-- The length of the modes. -/
theorem modeRows_length {k : ℤ} : ∀ {ms : List (BitVec 8 × List Word)}, (∀ m ∈ ms, (m.2.length : ℤ) = k) →
    ((ms.flatMap (modeRow version reversed)).length : ℤ) = ms.length * (k * 4 + if 20120201 ≤ version then 1 else 0)
  | [], _ => by simp
  | m :: ms, h => by
    have ih := modeRows_length fun e he => h e (List.mem_cons_of_mem m he)
    have hm := h m List.mem_cons_self
    rw [List.flatMap_cons, List.length_append, Int.natCast_add, ih, modeRow, List.length_append, numsBytes_length,
      List.length_cons, ← hm]
    split_ifs
    · rw [List.length_singleton]
      push_cast
      ring
    · rw [List.length_nil]
      push_cast
      ring

theorem pupilAt_eq {m : ModesContent} : p + [m.hasModes].length +
    (scaleBytes version reversed m.pix2cf m.cf2pix).length +
    (numBytes reversed m.nPH).length + (numBytes reversed m.nModes).length = ModesContent.pupilAt version p := by
  rw [scaleBytes_length, numBytes_length, numBytes_length, ModesContent.pupilAt, List.length_singleton]
  omega

theorem modesAt_eq {m : ModesContent} : ModesContent.pupilAt version p + (numsBytes reversed m.pupil).length =
    m.modesAt version p := by
  rw [numsBytes_length, ModesContent.modesAt]

theorem takes_modesContent (m : ModesContent) :
    Reader.Takes (readModes reversed version) p (m.bytes version reversed) (m.head version p) := by
  refine (takes_byte m.hasModes).next ?_
  rw [if_pos m.hasModes_ne]
  refine takes_scales.next ((Reader.takes_number (by decide) _ _).next ((Reader.takes_number (by decide) _ _).next ?_))
  rw [pupilAt_eq]
  refine (takes_skipFloats m.pupil_length.symm).next (Reader.takes_tell.after ?_)
  rw [modesAt_eq]
  refine (Reader.takes_seek ?_).last Reader.takes_pure
  rw [modeRows_length m.mode_length, m.modes_length]

theorem takes_modes (hp : p = c.modesAt) :
    Reader.Takes (readModes reversed c.version) p (c.modesBytes reversed) c.modesHead := by
  subst hp
  unfold FileContent.modesBytes FileContent.modesHead
  cases c.modes with
  | none => exact (takes_byte 0).last Reader.takes_pure
  | some m => exact takes_modesContent m

theorem takes_clips : Reader.Takes (readClips reversed) p (c.clipBytes reversed)
    ⟨c.nChannels, c.clipStartX, c.clipEndX, c.clipStartY, c.clipEndY⟩ := by
  have hneg : ¬ c.nChannels.toInt < 0 := by
    have hlength := c.startX_length
    omega
  refine (Reader.takes_number (by decide) _ _).next ?_
  rw [if_neg hneg]
  refine (Reader.takes_numbers (by decide) _ (length_eq_toNat c.startX_length)).next ?_
  refine (Reader.takes_numbers (by decide) _ (length_eq_toNat c.endX_length)).next ?_
  refine (Reader.takes_numbers (by decide) _ (length_eq_toNat c.startY_length)).next ?_
  exact (Reader.takes_numbers (by decide) _ (length_eq_toNat c.endY_length)).last Reader.takes_pure

theorem takes_grid : Reader.Takes (readGrid reversed) p (c.gridBytes reversed) ⟨c.nPatchesY, c.nPatchesX, c.nPoints⟩ :=
  (Reader.takes_number (by decide) _ _).next ((Reader.takes_number (by decide) _ _).next
    ((Reader.takes_number (by decide) _ _).last Reader.takes_pure))

/-! ### Lengths that do not depend on the order -/

theorem textBytes_length : (textBytes reversed s).length = 4 + (s.length + 1) := by
  rw [textBytes, List.length_append, numBytes_length, List.length_append, List.length_singleton]

theorem frontBytes_length : (c.frontBytes reversed).length = c.modesAt := by
  unfold FileContent.modesAt FileContent.frontBytes
  split_ifs <;> simp only [List.length_append, textBytes_length, regionBytes_length, List.length_nil,
    List.length_singleton]

theorem modesBytes_length : (c.modesBytes reversed).length = (c.modesBytes false).length := by
  unfold FileContent.modesBytes
  cases c.modes with
  | none => rfl
  | some m =>
    have hrows : ∀ r, ((m.modes.flatMap (modeRow c.version r)).length : ℤ) = _ := fun r => modeRows_length m.mode_length
    have hrows : (m.modes.flatMap (modeRow c.version reversed)).length =
        (m.modes.flatMap (modeRow c.version false)).length :=
      Int.ofNat_inj.1 ((hrows reversed).trans (hrows false).symm)
    simp only [ModesContent.bytes, List.length_append, scaleBytes_length, numBytes_length, numsBytes_length, hrows]

theorem headBytes_length_eq : (c.headBytes reversed).length = c.patchesAt := by
  simp only [FileContent.patchesAt, FileContent.headBytes, FileContent.clipBytes, FileContent.gridBytes,
    List.length_append,
    frontBytes_length, @modesBytes_length _ _ c reversed, numBytes_length, numsBytes_length]

theorem patchBytes_length : (c.patchBytes reversed).length = (c.patchBytes false).length := by
  rw [FileContent.patchBytes, FileContent.patchBytes, List.length_flatMap, List.length_flatMap]
  congr 1
  exact List.map_congr_left fun p _ => bytes_length

end FileParts

/-! ## A file -/

section File

variable {τ : Type} {T : Texts τ} {c : FileContent T} {reversed : Bool}

theorem takes_modified {p : ℕ} {tmpStr : Str} : ∃ buf, Reader.Takes (readModified T reversed c.version tmpStr) p
    (if 20190408 ≤ c.version then textBytes reversed c.modified else []) (c.modifiedTime, buf) := by
  unfold readModified
  by_cases h : 20190408 ≤ c.version
  · obtain ⟨t, ht, hparse⟩ := c.modified_time h
    refine ⟨c.modified ++ [0] ++ tmpStr.drop (c.modified.length + 1), ?_⟩
    simp only [if_pos h]
    refine (takes_string c.modified_storable).last ?_
    rw [hparse, ht]
    exact Reader.takes_pure
  · refine ⟨tmpStr, ?_⟩
    simp only [if_neg h]
    rw [c.modified_absent h]
    exact Reader.takes_pure

/-- **What is before the patches is found**, but for the region of the file. -/
theorem takes_fileHead : Reader.Takes (readHead T) 0 (c.headBytes reversed) (c.head reversed) := by
  have hswap : decide ((if reversed then (1 : BitVec 8) else 0) ≠ 0) = reversed := by cases reversed <;> rfl
  have hfront : ∀ bs : Str, c.frontBytes reversed ++ bs = [if reversed then (1 : BitVec 8) else 0] ++
      (textBytes reversed c.versionString ++ ((if 20190408 ≤ c.version then textBytes reversed c.modified else []) ++
        (textBytes reversed c.timeString ++ (textBytes reversed c.dateString ++
          ((if regionVersion ≤ c.version then c.region.bytes reversed else []) ++ bs))))) := by
    intro bs
    simp only [FileContent.frontBytes, List.append_assoc]
  have hat : 0 + [if reversed then (1 : BitVec 8) else 0].length + (textBytes reversed c.versionString).length +
      (if 20190408 ≤ c.version then textBytes reversed c.modified else []).length +
      (textBytes reversed c.timeString).length + (textBytes reversed c.dateString).length +
      (if regionVersion ≤ c.version then c.region.bytes reversed else []).length = c.modesAt := by
    rw [← @frontBytes_length _ _ c reversed]
    simp only [FileContent.frontBytes, List.length_append]
    omega
  obtain ⟨buf, hmodified⟩ := @takes_modified _ _ c reversed
    (0 + [if reversed then (1 : BitVec 8) else 0].length + (textBytes reversed c.versionString).length)
    (c.versionString ++ [0] ++ (List.replicate 1024 0).drop (c.versionString.length + 1))
  rw [FileContent.headBytes, hfront]
  refine (takes_byte _).next ?_
  simp only [hswap]
  refine (takes_string c.version_storable).next (hmodified.next ?_)
  refine (takes_string c.time_storable).next ((takes_string c.date_storable).next (takes_roi.next ?_))
  exact (takes_modes hat).next (takes_clips.next (takes_grid.last Reader.takes_pure))

/-- The patches are those that the numbers before them tell. -/
theorem readPatches_eq : readPatches reversed c.version ⟨c.nPatchesY, c.nPatchesX, c.nPoints⟩ =
    Reader.times c.patches.length (PatchInfo.parse reversed c.version) := by
  have hy := c.patchesY_nonneg
  have hx := c.patchesX_nonneg
  rw [readPatches, if_neg (by dsimp only; omega), c.patches_length]

/-- What is read of a file is what is behind its first part. -/
theorem read_eq : FileMomfbd.read T (c.bytes reversed) 0 =
    ((Reader.times c.patches.length (PatchInfo.parse reversed c.version)).next fun ps =>
      (readNames reversed).next fun names => .pure ((c.head reversed).found ps names))
        (c.bytes reversed) c.patchesAt := by
  have hstands : Reader.Stands (c.bytes reversed) 0 (c.headBytes reversed) := Reader.stands_self.left.left
  rw [FileMomfbd.read, Reader.next, takes_fileHead.apply hstands, Option.bind_some, Nat.zero_add, headBytes_length_eq]
  exact congrFun (congrFun (congrArg₂ Reader.next readPatches_eq rfl) _) _

/-- Where the patches stand. -/
theorem stands_patches : Reader.Stands (c.bytes reversed) c.patchesAt (c.patchBytes reversed) := by
  have h : Reader.Stands (c.bytes reversed) 0 (c.headBytes reversed ++
    (c.patchBytes reversed ++ c.countBytes reversed)) :=
    Reader.stands_self.left
  have h := h.right.left
  rwa [Nat.zero_add, headBytes_length_eq] at h

/-- The number of names is found, or that there is none. -/
theorem readNames_eq : ∃ p, readNames reversed (c.bytes reversed) (c.patchesAt + (c.patchBytes reversed).length) =
    some (c.namesHead, p) := by
  have hbytes : c.bytes reversed = (c.headBytes reversed ++ c.patchBytes reversed) ++
      (c.countBytes reversed ++ c.nameBytes reversed) := by
    simp only [FileContent.bytes, List.append_assoc]
  have hlength : (c.headBytes reversed ++ c.patchBytes reversed).length =
      c.patchesAt + (c.patchBytes reversed).length := by
    rw [List.length_append, headBytes_length_eq]
  unfold readNames
  rw [hbytes]
  unfold FileContent.countBytes FileContent.nameBytes FileContent.namesHead
  cases hnames : c.names with
  | none =>
    have hend : ¬ c.patchesAt + (c.patchBytes reversed).length + 32 / 8 ≤
        (c.headBytes reversed ++ c.patchBytes reversed ++ []).length := by
      rw [List.append_nil, hlength]
      omega
    refine ⟨c.patchesAt + (c.patchBytes reversed).length, ?_⟩
    simp only [Option.getD_none, List.flatMap_nil, List.append_nil] at hend ⊢
    rw [Reader.number, Reader.next, Reader.word, Reader.next, Reader.read, if_neg hend]
    rfl
  | some ns =>
    have hnumber := @Reader.takes_number (c.patchesAt + (c.patchBytes reversed).length) 32 (by decide) reversed
      (BitVec.ofNat 32 ns.length) (c.headBytes reversed ++ c.patchBytes reversed)
      (ns.flatMap (textBytes reversed)) hlength
    refine ⟨c.namesAt, ?_⟩
    simp only [Option.getD_some]
    rw [hnumber, numBytes_length, FileContent.namesAt, Nat.add_assoc, patchBytes_length]

/-- **A file is read** where the first numbers of its patches are the same in order or not. -/
theorem read_bytes (h : SameHeads reversed c.patches) :
    ∃ p, FileMomfbd.read T (c.bytes reversed) 0 = some (c.found reversed, p) := by
  obtain ⟨p, hnames⟩ := @readNames_eq _ _ c reversed
  refine ⟨p, ?_⟩
  have hpatches : Reader.times c.patches.length (PatchInfo.parse reversed c.version) (c.bytes reversed) c.patchesAt =
      some (infos c.patches c.patchesAt, c.patchesAt + (c.patchBytes reversed).length) :=
    (takes_patches h).apply stands_patches
  rw [read_eq, Reader.next, hpatches, Option.bind_some, Reader.next, hnames]
  rfl

end File

end Redux.MomfbdFile
