import Mathlib.Tactic.NormNum
import Redux.File.MomfbdLoad

/-!
# File.MomfbdTrip — what is written is read again, and loaded

`write` makes a file of the content that the structure and the block of memory give.  `read` finds the same
numbers in it, and `load` brings the same floats, patch by patch.
-/

namespace Redux.MomfbdFile

open Redux.Lib

/-! ## The block of memory -/

section Memory

variable {data : Str} {pos n : ℤ}

/-- `n` floats from `pos` on are inside the block. -/
def Inside (data : Str) (pos n : ℤ) : Prop := 0 ≤ pos ∧ 0 ≤ n ∧ pos + 4 * n ≤ data.length

theorem words_some : ∀ {k p : ℕ}, p + 4 * k ≤ data.length →
    ∃ vs, Reader.words 32 k data p = some (vs, p + 4 * k) ∧ vs.length = k
  | 0, _, _ => ⟨[], rfl, rfl⟩
  | k + 1, p, h => by
    obtain ⟨vs, hvs, hlen⟩ := @words_some k (p + 4) (by omega)
    have hread : Reader.read (32 / 8) data p = some ((data.drop p).take 4, p + 4) := if_pos (by omega)
    refine ⟨BitVec.ofNat 32 (ofBytes ((data.drop p).take 4)) :: vs, ?_, by rw [List.length_cons, hlen]⟩
    rw [Reader.words, Reader.next, Reader.word, Reader.next, hread, Option.bind_some]
    change (Reader.words 32 k data (p + 4)).bind _ = _
    rw [hvs, Option.bind_some, show p + 4 * (k + 1) = p + 4 + 4 * k by omega]
    rfl

theorem floatsIn_some (h : Inside data pos n) : ∃ fs, floatsIn data pos n = some fs ∧ (fs.length : ℤ) = n := by
  obtain ⟨hpos, hn, hend⟩ := h
  obtain ⟨vs, hvs, hlen⟩ := @words_some data n.toNat pos.toNat (by omega)
  refine ⟨vs.map (inOrder false), ?_, by rw [List.length_map, hlen]; omega⟩
  rw [floatsIn, floatsAt, if_neg (by omega), Reader.next, Reader.seekTo, if_pos hpos, Option.bind_some, Reader.numbers,
    Reader.next, hvs]
  rfl

theorem rowsIn_some (hn : 0 ≤ n) : ∀ {k : ℕ} {pos : ℤ}, Inside data pos (k * n) →
    ∃ rows, rowsIn data n k pos = some rows ∧ rows.length = k ∧ ∀ row ∈ rows, (row.length : ℤ) = n
  | 0, _, _ => ⟨[], rfl, rfl, fun row hrow => absurd hrow List.not_mem_nil⟩
  | k + 1, pos, h => by
    obtain ⟨hpos, -, hend⟩ := h
    have hsplit : ((k + 1 : ℕ) : ℤ) * n = n + k * n := by
      push_cast
      ring
    have hk : 0 ≤ (k : ℤ) * n := Int.mul_nonneg (Int.natCast_nonneg k) hn
    rw [hsplit] at hend
    obtain ⟨row, hrow, hlen⟩ := @floatsIn_some data pos n ⟨hpos, hn, by omega⟩
    obtain ⟨rows, hrows, hcount, hall⟩ := @rowsIn_some hn k (pos + 4 * n) ⟨by omega, hk, by omega⟩
    refine ⟨row :: rows, ?_, by rw [List.length_cons, hcount], List.forall_mem_cons.2 ⟨hlen, hall⟩⟩
    rw [rowsIn, hrow, hrows]
    rfl

end Memory

/-! ## Patches -/

section Given

variable (data : Str) (mask : BitVec 8) (version : ℚ) (alignTo : ℕ)

/-- The floats of a part are inside the block. -/
def PartInside (n : Word) (pos nxny : ℤ) : Prop := 0 ≤ n.toInt ∧ (n ≠ 0 → Inside data pos (n.toInt * nxny))

/-- The arrays of a patch have an element for each channel, and its parts are inside the block. -/
structure PatchInfo.Placed (p : PatchInfo) : Prop where
  nim_length : (p.nim.length : ℤ) = p.nChannels.toInt
  dx_length : (p.dx.length : ℤ) = p.nChannels.toInt
  dy_length : (p.dy.length : ℤ) = p.nChannels.toInt
  img : mask &&& MOMFBD_IMG ≠ 0 → Inside data p.imgPos (p.nPixelsX * p.nPixelsY)
  psf : PartInside data p.npsf p.psfPos (p.nPixelsX * p.nPixelsY)
  obj : PartInside data p.nobj p.objPos (p.nPixelsX * p.nPixelsY)
  res : PartInside data p.nres p.resPos (p.nPixelsX * p.nPixelsY)
  alpha : p.nalpha ≠ 0 → 0 ≤ p.nalpha.toInt ∧ 0 ≤ p.nm.toInt ∧
    (p.nm ≠ 0 → Inside data p.alphaPos (p.nalpha.toInt * p.nm.toInt))
  div : 0 ≤ p.ndiv.toInt ∧ (p.ndiv ≠ 0 → 0 ≤ p.nphy.toInt * p.nphx.toInt ∧
    Inside data p.diversityPos (p.ndiv.toInt * (p.nphy.toInt * p.nphx.toInt)))

/-- The floats of a part that is to be written. -/
def partIn (n : Word) (pos k : ℤ) : Option (List Word) := if n ≠ 0 then floatsIn data pos (n.toInt * k) else some []

/-- The coefficients, of which there are none without `nm`. -/
def alphaIn (nalpha nm : Word) (pos : ℤ) : Option (List Word) :=
  if nm ≠ 0 then partIn data nalpha pos nm.toInt else some []

/-- The diversities, of `n` floats each. -/
def divIn (ndiv : Word) (n pos : ℤ) : Option (List (List Word)) :=
  if ndiv ≠ 0 then rowsIn data n ndiv.toInt.toNat pos else some []

/-- What is given to be written of a patch, as `load` lays it out: the block, the image, the PSFs, the
objects, the residuals, the coefficients and the diversities. -/
def PatchInfo.given (p : PatchInfo) : Option (List Cell) := do
  let nxny := p.nPixelsX * p.nPixelsY
  let img ← imageIn data mask p.imgPos nxny
  let psf ← partIn data p.npsf p.psfPos nxny
  let obj ← partIn data p.nobj p.objPos nxny
  let res ← partIn data p.nres p.resPos nxny
  let alpha ← alphaIn data p.nalpha p.nm p.alphaPos
  let div ← divIn data p.ndiv (p.nphy.toInt * p.nphx.toInt) p.diversityPos
  return p.block version alignTo ++ (img ++ psf ++ obj ++ res ++ alpha ++ div.flatten).map .float

/-- A patch that was read has what was written; where there are no coefficients or diversities, their sizes
are not written. -/
structure PatchInfo.Restores (r p : PatchInfo) : Prop where
  region : r.region = p.region
  nChannels : r.nChannels = p.nChannels
  offset : (r.offx, r.offy) = (p.offx, p.offy)
  channels : (r.nim, r.dx, r.dy) = (p.nim, p.dx, p.dy)
  pixels : (r.nPixelsX, r.nPixelsY) = (p.nPixelsX, p.nPixelsY)
  counts : (r.npsf, r.nobj, r.nres, r.nalpha, r.ndiv) = (p.npsf, p.nobj, p.nres, p.nalpha, p.ndiv)
  nm : p.nalpha ≠ 0 → r.nm = p.nm
  nph : p.ndiv ≠ 0 → (r.nphx, r.nphy) = (p.nphx, p.nphy)

end Given

section Patch

variable {data : Str} {mask bit : BitVec 8} {version : ℚ} {alignTo : ℕ} {p : PatchInfo} {n : Word} {pos k : ℤ}

theorem elements_all {α : Type} {n : Word} {vs : List α} (h : (vs.length : ℤ) = n.toInt) : elements n vs = some vs := by
  have hnat := length_eq_toNat h
  rw [elements, if_pos ⟨by omega, by omega⟩, ← hnat, List.take_length]

/-- The floats of a part, of which there are none if its number is 0. -/
theorem partIn_some (h : PartInside data n pos k) :
    ∃ fs, partIn data n pos k = some fs ∧ (fs.length : ℤ) = n.toInt * k ∧
      writePart data n pos k = some (PatchContent.partBytes false n fs) := by
  unfold partIn writePart
  by_cases hn : n ≠ 0
  · obtain ⟨fs, hfs, hlen⟩ := floatsIn_some (h.2 hn)
    refine ⟨fs, ?_, hlen, ?_⟩
    · rw [if_pos hn, hfs]
    · rw [if_pos hn, hfs]
      rfl
  · rw [not_not.1 hn]
    refine ⟨[], rfl, ?_, ?_⟩
    · rw [show (0 : Word).toInt = 0 from rfl, Int.zero_mul]
      rfl
    · rw [if_neg fun hne => hne rfl, PatchContent.partBytes, numsBytes, List.flatMap_nil, List.append_nil]

theorem imageIn_some (h : mask &&& MOMFBD_IMG ≠ 0 → Inside data pos k) : ∃ fs, imageIn data mask pos k = some fs ∧
    (fs.length : ℤ) = if mask &&& MOMFBD_IMG ≠ 0 then k else 0 := by
  unfold imageIn
  by_cases hm : mask &&& MOMFBD_IMG ≠ 0
  · obtain ⟨fs, hfs, hlen⟩ := floatsIn_some (h hm)
    exact ⟨fs, by rw [if_pos hm, hfs], by rw [if_pos hm, hlen]⟩
  · exact ⟨[], if_neg hm, by rw [if_neg hm]; rfl⟩

theorem alphaIn_some (h : p.nalpha ≠ 0 → 0 ≤ p.nalpha.toInt ∧ 0 ≤ p.nm.toInt ∧
    (p.nm ≠ 0 → Inside data p.alphaPos (p.nalpha.toInt * p.nm.toInt))) :
    ∃ fs, alphaIn data p.nalpha p.nm p.alphaPos = some fs ∧
      (fs.length : ℤ) = p.nalpha.toInt * p.nm.toInt ∧
      writeAlpha data p.nalpha p.nm p.alphaPos = some (numBytes false p.nalpha ++
        if p.nalpha ≠ 0 then numBytes false p.nm ++ numsBytes false fs else []) := by
  unfold alphaIn partIn writeAlpha
  by_cases hnm : p.nm ≠ 0
  · by_cases hn : p.nalpha ≠ 0
    · obtain ⟨fs, hfs, hlen⟩ := floatsIn_some ((h hn).2.2 hnm)
      refine ⟨fs, ?_, hlen, ?_⟩
      · rw [if_pos hnm, if_pos hn, hfs]
      · rw [if_pos hn, if_pos hnm, hfs, if_pos hn]
        rfl
    · refine ⟨[], ?_, ?_, ?_⟩
      · rw [if_pos hnm, if_neg hn]
      · rw [not_not.1 hn, show (0 : Word).toInt = 0 from rfl, Int.zero_mul]
        rfl
      · rw [if_neg hn, if_neg hn, List.append_nil]
  · refine ⟨[], if_neg hnm, ?_, ?_⟩
    · rw [not_not.1 hnm, show (0 : Word).toInt = 0 from rfl, Int.mul_zero]
      rfl
    · rw [if_neg hnm]
      split_ifs
      · rfl
      · rw [List.append_nil]

/-- The diversities of a recent version, with a type of 0 each. -/
theorem divIn_some (hversion : 20190408 ≤ version) (h : 0 ≤ p.ndiv.toInt ∧ (p.ndiv ≠ 0 →
    0 ≤ p.nphy.toInt * p.nphx.toInt ∧ Inside data p.diversityPos (p.ndiv.toInt * (p.nphy.toInt * p.nphx.toInt)))) :
    ∃ rows : List (List Word), divIn data p.ndiv (p.nphy.toInt * p.nphx.toInt) p.diversityPos = some rows ∧
      (rows.length : ℤ) = p.ndiv.toInt ∧
      (∀ row ∈ rows, (row.length : ℤ) = p.nphy.toInt * p.nphx.toInt) ∧
      writeDiversity data version p.ndiv p.nphx p.nphy p.diversityPos = some (numBytes false p.ndiv ++
        if p.ndiv ≠ 0 then (numBytes false p.nphx ++ numBytes false p.nphy) ++
          (rows.map (Prod.mk (0 : BitVec 8))).flatMap (PatchContent.divRow version false) else []) := by
  have h1 : (20100726 : ℚ) ≤ version := le_trans (by norm_num) hversion
  have h2 : (20110708 : ℚ) ≤ version := le_trans (by norm_num) hversion
  have h3 : (20110916 : ℚ) ≤ version := le_trans (by norm_num) hversion
  unfold divIn writeDiversity
  by_cases hn : p.ndiv ≠ 0
  · obtain ⟨hw, hin⟩ := h.2 hn
    have hcount : ((p.ndiv.toInt.toNat : ℕ) : ℤ) = p.ndiv.toInt := Int.toNat_of_nonneg h.1
    rw [← hcount] at hin
    obtain ⟨rows, hrows, hlen, hall⟩ := rowsIn_some hw hin
    refine ⟨rows, ?_, by rw [hlen, hcount], hall, ?_⟩
    · rw [if_pos hn, hrows]
    · have hbytes : (rows.map (Prod.mk (0 : BitVec 8))).flatMap (PatchContent.divRow version false) =
          rows.flatMap fun row => (0 : BitVec 8) :: numsBytes false row := by
        rw [List.flatMap_map]
        refine List.flatMap_congr fun row _ => ?_
        rw [PatchContent.divRow, if_pos h3]
        rfl
      rw [if_pos h1, if_pos hn, if_pos h3, if_pos h2, hrows, if_pos hn, hbytes]
      rfl
  · refine ⟨[], if_neg hn, ?_, fun row hrow => absurd hrow List.not_mem_nil, ?_⟩
    · rw [not_not.1 hn]
      rfl
    · rw [if_pos h1, if_neg hn, if_neg hn, List.append_nil]

theorem asked_masked {fs : List Word} (h : mask &&& bit = 0 → fs = []) : asked mask bit fs = fs := by
  unfold asked
  split_ifs with hmask
  · rfl
  · exact (h (not_not.1 hmask)).symm

/-- Where a bit of the mask is off, nothing is counted. -/
theorem length_countIn {fs : List Word} (h : (fs.length : ℤ) = (countIn mask bit n).toInt * k)
    (hmask : mask &&& bit = 0) :
    fs = [] := by
  rw [countIn, if_pos hmask, show (0 : Word).toInt = 0 from rfl, Int.zero_mul] at h
  exact List.eq_nil_of_length_eq_zero (Int.ofNat_eq_zero.1 h)

theorem masked_order : (p.masked mask).region.order = (p.masked mask).region := by
  have hordered : ∀ a b : Word, ordered (ordered a b).1 (ordered a b).2 = ordered a b := by
    intro a b
    unfold ordered
    by_cases h : b.toInt < a.toInt
    · rw [if_pos h, if_neg (by dsimp only; omega)]
    · rw [if_neg h, if_neg h]
  change p.region.order.order = p.region.order
  simp only [Region.order, hordered]

theorem PatchInfo.Restores.block {r p : PatchInfo} (h : r.Restores p) : r.block version alignTo =
    p.block version alignTo := by
  obtain ⟨hx, hy⟩ := Prod.mk.inj h.offset
  obtain ⟨hnim, hd⟩ := Prod.mk.inj h.channels
  obtain ⟨hdx, hdy⟩ := Prod.mk.inj hd
  rw [PatchInfo.block, PatchInfo.block, h.region, hx, hy, hnim, hdx, hdy]

/-- **What is written of a patch is the content it has**: the numbers are those of the patch, and the floats
those that are given. -/
theorem write_content (hversion : 20190408 ≤ version) (h : (p.masked mask).Placed data mask) :
    ∃ c : PatchContent version, p.write data version mask = some (c.bytes false, p.masked mask) ∧
      (∀ q, (c.info q).Restores (p.masked mask)) ∧
      (p.masked mask).given data mask version alignTo = some (c.cells mask alignTo) := by
  have h1 : (20100726 : ℚ) ≤ version := le_trans (by norm_num) hversion
  have h2 : (20110708 : ℚ) ≤ version := le_trans (by norm_num) hversion
  have h4 : (20110714 : ℚ) ≤ version := le_trans (by norm_num) hversion
  obtain ⟨img, himg, hlen⟩ := imageIn_some h.img
  obtain ⟨psf, hpsf, hpsflen, hpsfw⟩ := partIn_some h.psf
  obtain ⟨obj, hobj, hobjlen, hobjw⟩ := partIn_some h.obj
  obtain ⟨res, hres, hreslen, hresw⟩ := partIn_some h.res
  obtain ⟨alpha, halpha, halphalen, halphaw⟩ := alphaIn_some h.alpha
  obtain ⟨rows, hrows, hrowslen, hrowlen, hrowsw⟩ := divIn_some hversion h.div
  have hnX : (p.masked mask).nPixelsX = (p.masked mask).region.order.nX := by rw [masked_order]; rfl
  have hnY : (p.masked mask).nPixelsY = (p.masked mask).region.order.nY := by rw [masked_order]; rfl
  obtain ⟨c, hwrite, hrestores, hcells⟩ : ∃ c : PatchContent version, p.write data version mask =
      some (c.bytes false, p.masked mask) ∧
      (∀ q, (c.info q).Restores (p.masked mask)) ∧ (c.img, c.psf, c.obj, c.res, c.alpha, c.div) =
        (img, psf, obj, res, alpha, rows.map (Prod.mk 0)) := by
    refine ⟨{
      region := (p.masked mask).region, offx := p.offx, offy := p.offy, nChannels := p.nChannels
      nim := p.nim, dx := p.dx, dy := p.dy, hasImage := mask &&& MOMFBD_IMG, img := img
      npsf := (p.masked mask).npsf, psf := psf, nobj := (p.masked mask).nobj, obj := obj
      nres := (p.masked mask).nres, res := res, nalpha := (p.masked mask).nalpha, nm := p.nm, alpha := alpha
      ndiv := (p.masked mask).ndiv, nphx := p.nphx, nphy := p.nphy, div := rows.map (Prod.mk 0)
      nim_length := h.nim_length, dx_length := h.dx_length, dy_length := h.dy_length
      img_length := by rw [← hnX, ← hnY, hlen]
      psf_length := by rw [← hnX, ← hnY, hpsflen]
      obj_length := by rw [← hnX, ← hnY, hobjlen]
      res_length := by rw [← hnX, ← hnY, hreslen]
      alpha_length := halphalen
      div_length := by rw [List.length_map, hrowslen]
      div_size := fun d hd => ?_
      div_version := fun hold => absurd h1 hold
      nph_version := fun hold => absurd h2 hold }, ?_, fun q => ?_, rfl⟩
    · obtain ⟨row, hrow, rfl⟩ := List.mem_map.1 hd
      exact hrowlen row hrow
    · rw [PatchInfo.write, PatchInfo.writeMasked, elements_all h.nim_length, elements_all h.dx_length,
        elements_all h.dy_length]
      simp only [bind, Option.bind_some, himg, hpsfw, hobjw, hresw, halphaw, hrowsw]
      refine congrArg some (Prod.ext ?_ rfl)
      simp only [PatchContent.bytes, PatchContent.headBytes, PatchContent.restBytes, PatchContent.alphaBytes,
        PatchContent.divBytes, PatchContent.nphBytes, if_pos h1, if_pos h2, List.append_assoc]
      rfl
    · refine ⟨masked_order, rfl, ?_, rfl, Prod.ext hnX.symm hnY.symm, rfl, fun hn => if_pos hn, fun hn => ?_⟩
      · exact Prod.ext (if_pos h4) (if_pos h4)
      · exact Prod.ext (if_pos hn) (if_pos hn)
  refine ⟨c, hwrite, hrestores, ?_⟩
  rw [PatchInfo.given]
  simp only [bind, Option.bind_some, himg, hpsf, hobj, hres, halpha, hrows]
  refine congrArg some (congrArg₂ (· ++ ·) (hrestores 0).block.symm (congrArg (List.map Cell.float) ?_))
  simp only [Prod.mk.injEq] at hcells
  obtain ⟨rfl, rfl, rfl, rfl, rfl, hdiv⟩ := hcells
  have hdivs : c.div.flatMap Prod.snd = rows.flatten := by
    rw [hdiv, List.flatMap_map, List.flatMap_def, List.map_id']
  have hnone : mask &&& MOMFBD_DIV = 0 → rows.flatten = [] := by
    intro hmask
    have hzero : (p.masked mask).ndiv = 0 := if_pos hmask
    rw [hzero, show (0 : Word).toInt = 0 from rfl] at hrowslen
    rw [List.eq_nil_of_length_eq_zero (Int.ofNat_eq_zero.1 hrowslen), List.flatten_nil]
  rw [hdivs, asked_masked (length_countIn hpsflen), asked_masked (length_countIn hobjlen),
    asked_masked (length_countIn hreslen), asked_masked (length_countIn halphalen), asked_masked hnone, asked_masked]
  intro hmask
  rw [if_neg fun hne => hne hmask] at hlen
  exact List.eq_nil_of_length_eq_zero (Int.ofNat_eq_zero.1 hlen)

end Patch

/-! ## Files -/

section FileGiven

variable {τ : Type} (T : Texts τ) (data : Str) (mask : BitVec 8) (version : ℚ) (alignTo : ℕ)

/-- boost reads the dates that it has written. -/
def Texts.Reads : Prop := ∀ t, Storable (T.to_iso_extended_string t) ∧
  T.time_from_string (replaceT (T.to_iso_extended_string t)) = some t

/-- `k` times `n` floats from `pos` on are inside the block, if there is a position. -/
def RowsInside (k : ℕ) (pos n : ℤ) : Prop := 0 ≤ pos → Inside data pos (k * n)

variable (m : FileMomfbd τ)

/-- A recent file whose version is the number in its string, whose region is ordered, whose arrays have the
sizes that the numbers tell, and whose floats are inside the block. -/
structure FileMomfbd.Placed : Prop where
  version_eq : T.atof m.versionString = m.version
  recent : 20190408 ≤ m.version
  version_storable : Storable m.versionString
  time_storable : Storable m.timeString
  date_storable : Storable m.dateString
  region_order : m.region.order = m.region
  nModes_nonneg : mask &&& MOMFBD_MODES ≠ 0 → 0 ≤ m.nModes.toInt
  pupil : mask &&& MOMFBD_MODES ≠ 0 → RowsInside data 1 m.phOffset (m.nPH.toInt * m.nPH.toInt)
  modes : mask &&& MOMFBD_MODES ≠ 0 → RowsInside data m.nModes.toInt.toNat m.modesOffset (m.nPH.toInt * m.nPH.toInt)
  startX_length : (m.clipStartX.length : ℤ) = m.nChannels.toInt
  endX_length : (m.clipEndX.length : ℤ) = m.nChannels.toInt
  startY_length : (m.clipStartY.length : ℤ) = m.nChannels.toInt
  endY_length : (m.clipEndY.length : ℤ) = m.nChannels.toInt
  patchesY_nonneg : 0 ≤ m.nPatchesY.toInt
  patchesX_nonneg : 0 ≤ m.nPatchesX.toInt
  patches_length : m.patches.length = m.nPatchesY.toNat * m.nPatchesX.toNat
  patches : ∀ p ∈ m.patches, (p.masked mask).Placed data mask
  names_length : m.fileNames.length < 2 ^ 31
  name_length : ∀ n ∈ m.fileNames, n.length + 1 < 2 ^ 31

/-- The object after it was written. -/
def FileMomfbd.written : FileMomfbd τ :=
  { m with
    modifiedTime := m.writtenTime T, patches := m.patches.map (PatchInfo.masked mask)
    nFileNames := if mask &&& MOMFBD_NAMES ≠ 0 ∧ m.fileNames ≠ [] then BitVec.ofNat 32 m.fileNames.length
      else m.nFileNames }

def givenPatches : List PatchInfo → Option (List Cell)
  | [] => some []
  | p :: ps => do
    let cells ← p.given data mask version alignTo
    let rest ← givenPatches ps
    return cells ++ rest

/-- The rows of the pupil or the modes, if they are to be written. -/
def modesIn (k : ℕ) (pos n : ℤ) : Option (List (List Word)) :=
  if mask &&& MOMFBD_MODES ≠ 0 then floatsOrZeros data k pos n else some []

/-- What is given to be written, as `load` lays it out: the pupil, the modes, and patch by patch what there
is of each. -/
def FileMomfbd.given : Option (List Cell) := do
  let pupil ← modesIn data mask 1 m.phOffset (m.nPH.toInt * m.nPH.toInt)
  let modes ← modesIn data mask m.nModes.toInt.toNat m.modesOffset (m.nPH.toInt * m.nPH.toInt)
  let cells ← givenPatches data mask m.version alignTo m.patches
  return (pupil.flatten ++ modes.flatten).map .float ++ asked mask MOMFBD_PATCH cells

/-- What was read has what was written; a missing `nPoints` is the width of the first patch. -/
structure FileMomfbd.Restores (r m : FileMomfbd τ) : Prop where
  version : r.version = m.version
  texts : (r.versionString, r.timeString, r.dateString) = (m.versionString, m.timeString, m.dateString)
  modifiedTime : r.modifiedTime = m.modifiedTime
  region : r.region = m.region
  modes : mask &&& MOMFBD_MODES ≠ 0 → (r.pix2cf, r.cf2pix, r.nPH, r.nModes) = (m.pix2cf, m.cf2pix, m.nPH, m.nModes)
  clips : (r.nChannels, r.clipStartX, r.clipEndX, r.clipStartY, r.clipEndY) =
    (m.nChannels, m.clipStartX, m.clipEndX, m.clipStartY, m.clipEndY)
  grid : (r.nPatchesY, r.nPatchesX) = (m.nPatchesY, m.nPatchesX)
  nPoints : m.nPoints ≠ 0 ∨ m.patches = [] → r.nPoints = m.nPoints
  noPoints : ∀ p ps, m.nPoints = 0 → m.patches = p :: ps → p.nPixelsX < 2 ^ 31 → r.nPoints = BitVec.ofInt 32 p.nPixelsX
  nFileNames : r.nFileNames = if mask &&& MOMFBD_NAMES ≠ 0 ∧ m.fileNames ≠ [] then m.nFileNames else 0
  patches : List.Forall₂ PatchInfo.Restores r.patches m.patches

end FileGiven

section WriteFile

variable {τ : Type} {T : Texts τ} {data : Str} {mask : BitVec 8} {version : ℚ} {alignTo : ℕ} {m : FileMomfbd τ}

theorem writePatches_content (hversion : 20190408 ≤ version) : ∀ {ps : List PatchInfo},
    (∀ p ∈ ps, (p.masked mask).Placed data mask) → ∃ cs : List (PatchContent version), cs.length = ps.length ∧
      writePatches data version mask ps = some (cs.flatMap fun c => c.bytes false, ps.map (PatchInfo.masked mask)) ∧
      (∀ q, List.Forall₂ PatchInfo.Restores ((infos cs q).map Prod.snd) (ps.map (PatchInfo.masked mask))) ∧
      givenPatches data mask version alignTo (ps.map (PatchInfo.masked mask)) =
        some (cs.flatMap fun c => c.cells mask alignTo)
  | [], _ => ⟨[], rfl, rfl, fun _ => .nil, rfl⟩
  | p :: ps, h => by
    obtain ⟨c, hwrite, hrestores, hgiven⟩ := @write_content data mask version alignTo p hversion
        (h p List.mem_cons_self)
    obtain ⟨cs, hlen, hwrites, hall, hgivens⟩ :=
      @writePatches_content hversion ps fun p' hp' => h p' (List.mem_cons_of_mem p hp')
    refine ⟨c :: cs, by rw [List.length_cons, hlen, List.length_cons], ?_, fun q => .cons (hrestores q) (hall _), ?_⟩
    · rw [writePatches, hwrite, hwrites]
      rfl
    · rw [List.map_cons, givenPatches, hgiven, hgivens]
      rfl

theorem floatsOrZeros_some {k : ℕ} {pos n : ℤ} (hn : 0 ≤ n) (h : RowsInside data k pos n) :
    ∃ rows, floatsOrZeros data k pos n = some rows ∧ rows.length = k ∧ ∀ row ∈ rows, (row.length : ℤ) = n := by
  unfold floatsOrZeros
  by_cases hpos : 0 ≤ pos
  · rw [if_pos hpos]
    exact rowsIn_some hn (h hpos)
  · rw [if_neg hpos, if_neg (by omega)]
    refine ⟨_, rfl, List.length_replicate, fun row hrow => ?_⟩
    rw [List.eq_of_mem_replicate hrow, List.length_replicate]
    omega

/-- The pupil and the modes as content. -/
theorem writeModes_content (h : m.Placed T data mask) : ∃ (c : Option ModesContent) (bs : Str),
    m.writeModes data mask = some bs ∧
    bs = (match c with | none => [0] | some c => c.bytes m.version false) ∧
    (∀ p, mask &&& MOMFBD_MODES ≠ 0 → ∃ c', c = some c' ∧
      ((c'.head m.version p).pix2cf, (c'.head m.version p).cf2pix, (c'.head m.version p).nPH,
        (c'.head m.version p).nModes) =
        (m.pix2cf, m.cf2pix, m.nPH, m.nModes)) ∧
    ∃ pupil modes, modesIn data mask 1 m.phOffset (m.nPH.toInt * m.nPH.toInt) = some pupil ∧
      modesIn data mask m.nModes.toInt.toNat m.modesOffset (m.nPH.toInt * m.nPH.toInt) = some modes ∧
      pupil.flatten = (c.map ModesContent.pupil).getD [] ∧
      modes.flatten = ((c.map ModesContent.modes).getD []).flatMap Prod.snd := by
  have h1 : (20110714 : ℚ) ≤ m.version := le_trans (by norm_num) h.recent
  have h2 : (20120201 : ℚ) ≤ m.version := le_trans (by norm_num) h.recent
  have hsquare : 0 ≤ m.nPH.toInt * m.nPH.toInt := mul_self_nonneg _
  unfold FileMomfbd.writeModes modesIn
  by_cases hmask : mask &&& MOMFBD_MODES ≠ 0
  · obtain ⟨pupil, hpupil, hplen, hprow⟩ := floatsOrZeros_some hsquare (h.pupil hmask)
    obtain ⟨modes, hmodes, hmlen, hmrow⟩ := floatsOrZeros_some hsquare (h.modes hmask)
    obtain ⟨row, rfl⟩ := List.length_eq_one_iff.1 hplen
    have hcount : ((m.nModes.toInt.toNat : ℕ) : ℤ) = m.nModes.toInt := Int.toNat_of_nonneg (h.nModes_nonneg hmask)
    have hmodeRow : ∀ mode ∈ modes.map (Prod.mk (1 : BitVec 8)), (mode.2.length : ℤ) = m.nPH.toInt * m.nPH.toInt := by
      intro mode hmode
      obtain ⟨row', hrow', rfl⟩ := List.mem_map.1 hmode
      exact hmrow row' hrow'
    refine ⟨some ⟨mask &&& MOMFBD_MODES, m.pix2cf, m.cf2pix, m.nPH, m.nModes, row, modes.map (Prod.mk 1), hmask,
      hprow row List.mem_cons_self, by rw [List.length_map, hmlen, hcount], hmodeRow⟩, _, ?_, rfl,
      fun p _ => ⟨_, rfl, ?_⟩, [row], modes, ?_, ?_, ?_, ?_⟩
    · change _ = some (ModesContent.bytes m.version _ false)
      rw [if_pos hmask, hpupil, hmodes, ModesContent.bytes, scaleBytes, if_pos h1]
      dsimp only [bind, Option.bind_some]
      rw [List.flatMap_map, List.flatMap_singleton]
      rfl
    · exact Prod.ext (if_pos h1) (Prod.ext (if_pos h1) rfl)
    · rw [if_pos hmask, hpupil]
    · rw [if_pos hmask, hmodes]
    · exact List.append_nil row
    · rw [Option.map_some, Option.getD_some, List.flatMap_map, List.flatMap_def, List.map_id']
  · refine ⟨none, [0], ?_, rfl, fun _ hne => absurd hne hmask, [], [], if_neg hmask, if_neg hmask, rfl, rfl⟩
    rw [if_neg hmask, not_not.1 hmask]

theorem pointsFrom_ne {n : Word} (hn : n ≠ 0) : ∀ {ps : List PatchInfo}, pointsFrom n ps = n
  | [] => rfl
  | p :: ps => by
    rw [pointsFrom, List.foldl_cons, if_neg hn]
    exact pointsFrom_ne hn

/-- A missing `nPoints` is the width of the first patch. -/
theorem pointsFrom_zero {r p : PatchInfo} {rs : List PatchInfo} (hr : r.Restores (p.masked mask))
    (hlt : (p.masked mask).nPixelsX < 2 ^ 31) :
    pointsFrom 0 (r :: rs) = BitVec.ofInt 32 (p.masked mask).nPixelsX := by
  have hregion : r.region = p.region.order := hr.region
  have hnX : (p.masked mask).nPixelsX = p.region.order.lastX.toInt - p.region.order.firstX.toInt + 1 := rfl
  have hle : p.region.order.firstX.toInt ≤ p.region.order.lastX.toInt := by
    change (ordered p.region.firstX p.region.lastX).1.toInt ≤ (ordered p.region.firstX p.region.lastX).2.toInt
    unfold ordered
    split_ifs <;> dsimp only <;> omega
  have hne : BitVec.ofInt 32 (p.masked mask).nPixelsX ≠ 0 := by
    intro hzero
    have htoInt := congrArg BitVec.toInt hzero
    rw [BitVec.toInt_ofInt, Int.bmod_eq_of_le (by omega) (by omega), show (0 : Word).toInt = 0 from rfl] at htoInt
    omega
  rw [pointsFrom, List.foldl_cons, if_pos rfl, hregion, abs_of_nonneg (by omega), ← hnX]
  exact pointsFrom_ne hne

theorem countBytes_eq (c : FileContent T) (reversed : Bool) :
    c.countBytes reversed = c.names.elim [] fun ns => numBytes reversed (BitVec.ofNat 32 ns.length) := by
  unfold FileContent.countBytes
  cases c.names with
  | none => rfl
  | some ns => rfl

/-- The patches that are found do not change the number of points, unless it is missing. -/
theorem pointsFrom_kept {n : Word} {v : ℚ} {cs : List (PatchContent v)} (h : n ≠ 0 ∨ cs = []) (q : ℕ) :
    pointsFrom n ((infos cs q).map Prod.snd) = n := by
  rcases h with hne | rfl
  · exact pointsFrom_ne hne
  · rfl

theorem writeClips_eq (h : m.Placed T data mask) : m.writeClips = some (numBytes false m.nChannels ++
    (numsBytes false m.clipStartX ++
      (numsBytes false m.clipEndX ++ (numsBytes false m.clipStartY ++ numsBytes false m.clipEndY)))) := by
  rw [FileMomfbd.writeClips, elements_all h.startX_length, elements_all h.endX_length,
    elements_all h.startY_length, elements_all h.endY_length]
  rfl

theorem nameBytes_eq : m.nameBytes mask false =
    (if mask &&& MOMFBD_NAMES ≠ 0 ∧ m.fileNames ≠ [] then some m.fileNames else none).elim []
      (fun ns => numBytes false (BitVec.ofNat 32 ns.length)) ++
    ((if mask &&& MOMFBD_NAMES ≠ 0 ∧ m.fileNames ≠ [] then some m.fileNames else none).getD []).flatMap
      (textBytes false) := by
  unfold FileMomfbd.nameBytes
  split_ifs
  · rfl
  · rfl

/-- **What is written is the content that is given**, and what is found in it is what was written. -/
theorem write_fileContent (hT : T.Reads) (h : m.Placed T data mask) (alignTo : ℕ) :
    ∃ c : FileContent T, m.write T data mask = some (c.bytes false, m.written T mask) ∧
      (c.found false).Restores mask (m.written T mask) ∧
      (m.written T mask).given data mask alignTo =
        some (c.cells mask alignTo (asked mask MOMFBD_MODES (c.modeWords false))) := by
  have hversion : 20190408 ≤ T.atof m.versionString := h.version_eq ▸ h.recent
  have hroi : regionVersion ≤ T.atof m.versionString := le_trans (by norm_num [regionVersion]) hversion
  obtain ⟨cs, hlen, hpatches, hrestores, hcells⟩ := @writePatches_content data mask _ alignTo hversion m.patches
      h.patches
  obtain ⟨modes, bs, hmodes, hbs, hfound, pupil, rows, hpupil, hrows, hpupils, hrowss⟩ := writeModes_content h
  have hnames : ∀ ns ∈ (if mask &&& MOMFBD_NAMES ≠ 0 ∧ m.fileNames ≠ [] then some m.fileNames else none),
      ns = m.fileNames := by
    intro ns hns
    split_ifs at hns
    · exact (Option.some.inj hns).symm
    · exact absurd hns.symm (Option.some_ne_none _)
  refine ⟨{
    versionString := m.versionString, modified := T.to_iso_extended_string (m.modifiedTime.getD T.universal_time)
    timeString := m.timeString, dateString := m.dateString
    modifiedTime := some (m.modifiedTime.getD T.universal_time), region := m.region, modes := modes
    nChannels := m.nChannels, clipStartX := m.clipStartX, clipEndX := m.clipEndX, clipStartY := m.clipStartY
    clipEndY := m.clipEndY, nPatchesY := m.nPatchesY, nPatchesX := m.nPatchesX, nPoints := m.nPoints, patches := cs
    names := if mask &&& MOMFBD_NAMES ≠ 0 ∧ m.fileNames ≠ [] then some m.fileNames else none
    version_storable := h.version_storable, modified_storable := (hT _).1, time_storable := h.time_storable
    date_storable := h.date_storable, modified_time := fun _ => ⟨_, rfl, (hT _).2⟩
    modified_absent := fun hold => absurd hversion hold
    startX_length := h.startX_length, endX_length := h.endX_length, startY_length := h.startY_length
    endY_length := h.endY_length, patchesY_nonneg := h.patchesY_nonneg, patchesX_nonneg := h.patchesX_nonneg
    patches_length := hlen.trans h.patches_length
    names_length := fun ns hns => (hnames ns hns) ▸ h.names_length
    name_length := fun ns hns => (hnames ns hns) ▸ h.name_length }, ?_, ?_, ?_⟩
  · have hwrites : writePatches data m.version mask m.patches =
      writePatches data (T.atof m.versionString) mask m.patches := by
      rw [h.version_eq]
    rw [FileMomfbd.write, hmodes, writeClips_eq h, hwrites, hpatches]
    dsimp only [bind, Option.bind_some]
    refine congrArg some (Prod.ext ?_ rfl)
    rw [← h.version_eq] at hbs
    simp only [FileContent.bytes, FileContent.headBytes, FileContent.frontBytes, FileContent.modesBytes,
      FileContent.clipBytes, FileContent.gridBytes, FileContent.patchBytes, countBytes_eq,
      FileContent.nameBytes, FileContent.version, h.recent, hversion, hroi, if_true, nameBytes_eq, hbs,
        List.append_assoc, List.cons_append, List.nil_append]
    rfl
  · refine ⟨h.version_eq, rfl, ?_, ?_, fun hmask => ?_, rfl, rfl, fun hpoints => ?_, fun p ps hzero hcons hlt => ?_, ?_,
      hrestores _⟩
    · change _ = m.writtenTime T
      rw [FileMomfbd.writtenTime, if_pos h.recent]
      rfl
    · change (if regionVersion ≤ T.atof m.versionString then some (m.region.taken false) else none).getD _ = m.region
      rw [if_pos hroi, Option.getD_some]
      exact h.region_order
    · obtain ⟨c', rfl, hnumbers⟩ := hfound 0 hmask
      rw [← h.version_eq] at hnumbers
      exact hnumbers
    · refine pointsFrom_kept (hpoints.imp_right fun hnil => ?_) _
      rw [List.map_eq_nil_iff.1 hnil] at hlen
      exact List.eq_nil_of_length_eq_zero hlen
    · have hzero : m.nPoints = 0 := hzero
      have hcons : m.patches.map (PatchInfo.masked mask) = p :: ps := hcons
      have hwidth : ∀ q, pointsFrom 0 ((infos cs q).map Prod.snd) = BitVec.ofInt 32 p.nPixelsX := by
        intro q
        have hforall := hrestores q
        rw [hcons] at hforall
        obtain ⟨r, rs, hr, -, hrs⟩ := List.forall₂_cons_right_iff.1 hforall
        obtain ⟨p', ps', -, rfl, -⟩ := List.map_eq_cons_iff.1 hcons
        rw [hrs]
        exact pointsFrom_zero hr hlt
      change pointsFrom m.nPoints _ = _
      rw [hzero]
      exact hwidth _
    · change (FileContent.namesHead _).2.1 = _
      unfold FileContent.namesHead FileMomfbd.written
      dsimp only
      split_ifs
      · rfl
      · rfl
  · have hgiven : givenPatches data mask m.version alignTo (m.patches.map (PatchInfo.masked mask)) =
        givenPatches data mask (T.atof m.versionString) alignTo (m.patches.map (PatchInfo.masked mask)) := by
      rw [h.version_eq]
    have hwords : ∀ ms : List (BitVec 8 × List Word), (ms.flatMap fun mode => mode.2.map (inOrder false)) =
        ms.flatMap Prod.snd := fun ms => List.flatMap_congr fun mode _ => List.map_id' _
    change (modesIn data mask 1 m.phOffset (m.nPH.toInt * m.nPH.toInt)).bind _ = _
    rw [hpupil, Option.bind_some]
    change (modesIn data mask m.nModes.toInt.toNat m.modesOffset (m.nPH.toInt * m.nPH.toInt)).bind _ = _
    rw [hrows, Option.bind_some]
    change (givenPatches data mask m.version alignTo (m.patches.map (PatchInfo.masked mask))).bind _ = _
    have hpupilNil : mask &&& MOMFBD_MODES = 0 → (modes.map ModesContent.pupil).getD [] = [] := by
      intro hmask
      rw [modesIn, if_neg fun hne => hne hmask] at hpupil
      rw [← hpupils, ← Option.some.inj hpupil]
      rfl
    have hmodesNil : mask &&& MOMFBD_MODES = 0 → ((modes.map ModesContent.modes).getD []).flatMap Prod.snd = [] := by
      intro hmask
      rw [modesIn, if_neg fun hne => hne hmask] at hrows
      rw [← hrowss, ← Option.some.inj hrows]
      rfl
    rw [hgiven, hcells, Option.bind_some, FileContent.cells, FileContent.pupil, FileContent.modeWords, hwords,
      asked_masked hpupilNil, asked_masked hmodesNil, hpupils, hrowss]
    rfl

end WriteFile

/-! ## The round trip -/

section Trip

variable {τ : Type} {T : Texts τ} {data : Str} {mask : BitVec 8} {alignTo : ℕ} {m : FileMomfbd τ}

/-- What is read of a content, and loaded. -/
theorem read_load (c : FileContent T) (hversion : 20120201 ≤ c.version) :
    (∃ q, FileMomfbd.read T (c.bytes false) 0 = some (c.found false, q)) ∧
    ∀ q, ∃ names q', (c.found false).load mask alignTo (c.bytes false) q =
      some ((c.cells mask alignTo (asked mask MOMFBD_MODES (c.modeWords false)), names), q') := by
  refine ⟨read_bytes fun _ _ _ => rfl, fun q => ?_⟩
  obtain ⟨q', hq'⟩ := (finds_load (finds_modes hversion)) q
  exact ⟨_, q', hq'⟩

/-- **A file that is written is read without an error**; the header, the region, the clips, the grid and the
patches come back, and `load` with the same mask brings what was given, patch by patch. -/
theorem write_read_load (hT : T.Reads) (h : m.Placed T data mask) (alignTo : ℕ) :
    ∃ bytes r q cells, m.write T data mask = some (bytes, m.written T mask) ∧
      FileMomfbd.read T bytes 0 = some (r, q) ∧ r.Restores mask (m.written T mask) ∧
      (m.written T mask).given data mask alignTo = some cells ∧
      ∀ q, ∃ names q', r.load mask alignTo bytes q = some ((cells, names), q') := by
  obtain ⟨c, hwrite, hrestores, hgiven⟩ := write_fileContent hT h alignTo
  have hversion : c.version = m.version := hrestores.version
  have hrecent : 20120201 ≤ c.version := hversion ▸ le_trans (by norm_num) h.recent
  obtain ⟨⟨q, hread⟩, hload⟩ := read_load c hrecent
  exact ⟨_, _, q, _, hwrite, hread, hrestores, hgiven, hload⟩

/-! ### A small file -/

/-- Decimal digits, and one date: noon of the day from which on there is a date in the files. -/
def sampleTexts : Texts Unit where
  atof s := (s.foldl (fun n c => n * 10 + (c.toNat - 48)) 0 : ℕ)
  to_iso_extended_string _ := [50, 48, 49, 57, 45, 48, 52, 45, 48, 56, 84, 49, 50, 58, 48, 48, 58, 48, 48]
  time_from_string s :=
    if s = [50, 48, 49, 57, 45, 48, 52, 45, 48, 56, 32, 49, 50, 58, 48, 48, 58, 48, 48] then some () else none
  universal_time := ()

/-- A patch of one pixel, of one channel and with one coefficient. -/
def samplePatch : PatchInfo where
  region := ⟨0, 0, 0, 0⟩
  nChannels := 1
  offx := 0
  offy := 0
  nim := [1]
  dx := [0]
  dy := [0]
  nPixelsX := 1
  nPixelsY := 1
  npsf := 0
  nobj := 0
  nres := 0
  nalpha := 1
  nm := 1
  ndiv := 0
  nphx := 0
  nphy := 0
  offset := 0
  imgPos := 0
  psfPos := 0
  objPos := 0
  resPos := 0
  alphaPos := 4
  diversityPos := 0

def sampleFile (nPoints : Word) : FileMomfbd Unit where
  version := 20190408
  pix2cf := 0
  cf2pix := 0
  dateString := []
  timeString := []
  versionString := [50, 48, 49, 57, 48, 52, 48, 56]
  modifiedTime := some ()
  fileNames := [[97]]
  clipStartX := [0]
  clipEndX := [0]
  clipStartY := [0]
  clipEndY := [0]
  region := ⟨0, 0, 0, 0⟩
  nChannels := 1
  nFileNames := 0
  nPH := 0
  nModes := 0
  nPatchesX := 1
  nPatchesY := 1
  nPoints := nPoints
  phOffset := 0
  modesOffset := 0
  filenameOffset := 0
  dataMask := 0
  swapNeeded := false
  patches := [samplePatch]

theorem sampleTexts_reads : sampleTexts.Reads := by
  intro t
  cases t
  exact ⟨⟨by simp [sampleTexts], by norm_num [sampleTexts]⟩, rfl⟩

theorem sampleFile_placed (nPoints : Word) : (sampleFile nPoints).Placed sampleTexts
    [0, 0, 128, 63, 0, 0, 0, 64] 255 where
  version_eq := by
    change ((20190408 : ℕ) : ℚ) = 20190408
    norm_num
  recent := le_refl _
  version_storable := (⟨by simp, by simp⟩ : Storable [50, 48, 49, 57, 48, 52, 48, 56])
  time_storable := (⟨by simp, by simp⟩ : Storable [])
  date_storable := (⟨by simp, by simp⟩ : Storable [])
  region_order := rfl
  nModes_nonneg _ := le_refl _
  pupil _ _ := ⟨le_refl _, le_refl _, (by decide : (0 : ℤ) ≤ 8)⟩
  modes _ _ := ⟨le_refl _, le_refl _, (by decide : (0 : ℤ) ≤ 8)⟩
  startX_length := rfl
  endX_length := rfl
  startY_length := rfl
  endY_length := rfl
  patchesY_nonneg := (by decide : (0 : ℤ) ≤ 1)
  patchesX_nonneg := (by decide : (0 : ℤ) ≤ 1)
  patches_length := rfl
  patches p hp := by
    rw [List.mem_singleton.1 hp]
    exact {
      nim_length := rfl, dx_length := rfl, dy_length := rfl
      img := fun _ => ⟨by decide, by decide, by decide⟩
      psf := ⟨by decide, fun hne => absurd rfl hne⟩
      obj := ⟨by decide, fun hne => absurd rfl hne⟩
      res := ⟨by decide, fun hne => absurd rfl hne⟩
      alpha := fun _ => ⟨by decide, by decide, fun _ => ⟨by decide, by decide, by decide⟩⟩
      div := ⟨by decide, fun hne => absurd rfl hne⟩ }
  names_length := (by decide : 1 < 2 ^ 31)
  name_length := (by decide : ∀ n ∈ [[(97 : BitVec 8)]], n.length + 1 < 2 ^ 31)

theorem write_read_load_sample : ∃ bytes r q cells,
    (sampleFile 1).write sampleTexts [0, 0, 128, 63, 0, 0, 0, 64] 255 =
      some (bytes, (sampleFile 1).written sampleTexts 255) ∧
    FileMomfbd.read sampleTexts bytes 0 = some (r, q) ∧ r.Restores 255 ((sampleFile 1).written sampleTexts 255) ∧
    ((sampleFile 1).written sampleTexts 255).given [0, 0, 128, 63, 0, 0, 0, 64] 255 4 = some cells ∧
    ∀ q, ∃ names q', r.load 255 4 bytes q = some ((cells, names), q') :=
  write_read_load sampleTexts_reads (sampleFile_placed 1) 4

/-- A file without `nPoints` gets it from its first patch. -/
theorem nPoints_not_restored : ¬ ∀ (m : FileMomfbd Unit) (data : Str) (mask : BitVec 8) (bytes : Str)
    (m' r : FileMomfbd Unit) (q : ℕ), m.Placed sampleTexts data mask → m.write sampleTexts data mask =
      some (bytes, m') →
    FileMomfbd.read sampleTexts bytes 0 = some (r, q) → r.nPoints = m'.nPoints := by
  intro h
  obtain ⟨c, hwrite, hrestores, -⟩ := write_fileContent sampleTexts_reads (sampleFile_placed 0) 4
  have hversion : c.version = (20190408 : ℚ) := hrestores.version
  obtain ⟨⟨q, hread⟩, -⟩ := @read_load _ _ 255 4 c (hversion ▸ by norm_num)
  have hsame := h _ _ _ _ _ _ q (sampleFile_placed 0) hwrite hread
  have hwidth := hrestores.noPoints (samplePatch.masked 255) [] rfl rfl (by decide)
  rw [hwidth] at hsame
  exact absurd hsame (by decide)

end Trip

end Redux.MomfbdFile
