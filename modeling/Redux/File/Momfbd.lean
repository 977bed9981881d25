import Mathlib.Data.Rat.Defs
import Mathlib.Algebra.Order.Ring.Int
import Mathlib.Algebra.Order.Ring.Rat
import Redux.Lib.Stream

/-!
# File.Momfbd — the files of restored images: `FileMomfbd` and its patches

A file starts with its byte order, its version and other texts, then comes what concerns all patches (the
pupil and the modes, the clips, the grid), then the patches, each with the numbers of its parts and the
parts behind them, and last the names of the data files.  `read` goes through the file once and notes where
the parts are; `load` fetches those that are asked for.  `write` takes the parts from a block of memory, at
the positions that the same structure gives there.

Arithmetic on `int` is taken to stay in its range.
-/

namespace Redux.MomfbdFile

open Redux.Lib

abbrev Str := List (BitVec 8)

/-- An `int32_t`, or the bits of a `float`. -/
abbrev Word := BitVec 32

/-! ## Data -/

def MOMFBD_IMG : BitVec 8 := 1
def MOMFBD_PSF : BitVec 8 := 2
def MOMFBD_OBJ : BitVec 8 := 4
def MOMFBD_RES : BitVec 8 := 8
def MOMFBD_ALPHA : BitVec 8 := 16
def MOMFBD_DIV : BitVec 8 := 32
def MOMFBD_PATCH : BitVec 8 := 63
def MOMFBD_MODES : BitVec 8 := 64
def MOMFBD_NAMES : BitVec 8 := 128

/-- The version from which there is a region for the whole file: the `double` nearest to 20190401.17. -/
def regionVersion : ℚ := 1354954886222971 / 67108864

/-- `int32_t region[4]`. -/
structure Region where
  (firstX lastX firstY lastY : Word)
  deriving DecidableEq

/-- `struct FileMomfbd::PatchInfo`; the positions are in the file or in the block of memory. -/
structure PatchInfo where
  region : Region
  (nChannels offx offy : Word)
  (nim dx dy : List Word)
  (nPixelsX nPixelsY : ℤ)
  (npsf nobj nres nalpha nm : Word)
  (ndiv nphx nphy : Word)
  (offset imgPos psfPos objPos resPos alphaPos diversityPos : ℤ)
  deriving DecidableEq

/-- `struct FileMomfbd`, with the patches row by row; `none` is `not_a_date_time`. -/
structure FileMomfbd (τ : Type) where
  version : ℚ
  (pix2cf cf2pix : Word)
  (dateString timeString versionString : Str)
  modifiedTime : Option τ
  fileNames : List Str
  (clipStartX clipEndX clipStartY clipEndY : List (BitVec 16))
  region : Region
  (nChannels nFileNames nPH nModes nPatchesX nPatchesY nPoints : Word)
  (phOffset modesOffset filenameOffset : ℤ)
  dataMask : BitVec 8
  swapNeeded : Bool
  patches : List PatchInfo

/-- `atof`, the dates of boost and the clock. -/
structure Texts (τ : Type) where
  atof : Str → ℚ
  to_iso_extended_string : τ → Str
  time_from_string : Str → Option τ
  universal_time : τ

/-! ## Regions -/

section Regions

/-- `if( a > b ) swap( a, b )`. -/
def ordered (a b : Word) : Word × Word := if b.toInt < a.toInt then (b, a) else (a, b)

def Region.order (r : Region) : Region :=
  ⟨(ordered r.firstX r.lastX).1, (ordered r.firstX r.lastX).2,
    (ordered r.firstY r.lastY).1, (ordered r.firstY r.lastY).2⟩

/-- `if( swapNeeded ) swapEndian( &region, 4 )`.  The pointer is one to an array, so that each of the four
steps reverses the first number of 16 bytes: here that is `region[0]`. -/
def Region.swapEndian (swapNeeded : Bool) (r : Region) : Region :=
  { r with firstX := inOrder swapNeeded r.firstX }

def Region.nX (r : Region) : ℤ := r.lastX.toInt - r.firstX.toInt + 1

def Region.nY (r : Region) : ℤ := r.lastY.toInt - r.firstY.toInt + 1

end Regions

/-! ## Reading a patch -/

section Parse

variable (swapNeeded : Bool) (version : ℚ)

/-- A region as it is in the file. -/
def readRegion : Reader Region :=
  (Reader.word 32).next fun r0 => (Reader.word 32).next fun r1 => (Reader.word 32).next fun r2 =>
    (Reader.word 32).next fun r3 => .pure ⟨r0, r1, r2, r3⟩

def readByte : Reader (BitVec 8) := Reader.word 8

/-- `offx` and `offy`, which are never reversed. -/
def readOffsets : Reader (Word × Word) :=
  if 20110714 ≤ version then
    (Reader.word 32).next fun offx => (Reader.word 32).next fun offy => .pure (offx, offy)
  else .pure (0, 0)

/-- Where the `n` floats are that are here; they are left out. -/
def skipFloats (n : ℤ) : Reader ℤ := Reader.tell.next fun pos => (Reader.seek (n * 4)).next fun _ => .pure pos

/-- `hasImage`, and where the image is. -/
def parseImage (nxny : ℤ) : Reader (BitVec 8 × ℤ) :=
  readByte.next fun hasImage =>
    if hasImage ≠ 0 then (skipFloats nxny).next fun imgPos => .pure (hasImage, imgPos) else .pure (hasImage, 0)

/-- `npsf`, `nobj` or `nres`, and where they are. -/
def parsePart (nxny : ℤ) : Reader (Word × ℤ) :=
  (Reader.number 32 swapNeeded).next fun n =>
    if n ≠ 0 then (skipFloats (n.toInt * nxny)).next fun pos => .pure (n, pos) else .pure (n, 0)

/-- `nalpha`, `nm`, and where the coefficients are. -/
def parseAlpha : Reader (Word × Word × ℤ) :=
  (Reader.number 32 swapNeeded).next fun nalpha =>
    if nalpha ≠ 0 then
      (Reader.number 32 swapNeeded).next fun nm =>
        (skipFloats (nalpha.toInt * nm.toInt)).next fun alphaPos => .pure (nalpha, nm, alphaPos)
    else .pure (nalpha, 0, 0)

/-- `nphx` and `nphy`, of which old files have nothing. -/
def parseDiversitySize (nPixelsX nPixelsY : ℤ) : Reader (Word × Word) :=
  if 20110708 ≤ version then
    (Reader.number 32 swapNeeded).next fun nphx => (Reader.number 32 swapNeeded).next fun nphy => .pure (nphx, nphy)
  else .pure (BitVec.ofInt 32 (nPixelsX.tdiv 2), BitVec.ofInt 32 (nPixelsY.tdiv 2))

/-- `ndiv`, `nphx`, `nphy`, and where the diversities are. -/
def parseDiversity (nPixelsX nPixelsY : ℤ) : Reader (Word × Word × Word × ℤ) :=
  (if 20100726 ≤ version then Reader.number 32 swapNeeded else .pure 0).next fun ndiv =>
    if ndiv ≠ 0 then
      (parseDiversitySize swapNeeded version nPixelsX nPixelsY).next fun nph =>
        Reader.tell.next fun diversityPos =>
          -- a byte with the type of each, later
          (Reader.seek (ndiv.toInt * nph.2.toInt * nph.1.toInt * 4 +
            (if 20110916 ≤ version then ndiv.toInt else 0))).next fun _ => .pure (ndiv, nph.1, nph.2, diversityPos)
    else .pure (ndiv, BitVec.ofInt 32 (nPixelsX.tdiv 2), BitVec.ofInt 32 (nPixelsY.tdiv 2), 0)

/-- What is before the parts of a patch. -/
@[ext]
structure PatchHead where
  offset : ℤ
  region : Region
  (offx offy nChannels : Word)

/-- The first numbers of a patch.  The second step of `swapEndian( &region, 4 )` is at `nChannels`, which is
so reversed twice. -/
def parseHead : Reader PatchHead :=
  Reader.tell.next fun offset => readRegion.next fun region => (readOffsets version).next fun off =>
    (Reader.word 32).next fun nChannels =>
      .pure ⟨offset, (region.swapEndian swapNeeded).order, off.1, off.2,
        inOrder swapNeeded (inOrder swapNeeded nChannels)⟩

/-- A bit of `dataMask`. -/
def flag (p : Prop) [Decidable p] (bit : BitVec 8) : BitVec 8 := if p then bit else 0

/-- The rest of a patch, and what there is in it.  That `patchSize` is how far the file has moved needs no
check, as it counts what is read and left out. -/
def parseRest (head : PatchHead) : Reader (BitVec 8 × PatchInfo) :=
  if head.nChannels.toInt < 0 then .fail else
  (Reader.numbers 32 swapNeeded head.nChannels.toNat).next fun nim =>
  (Reader.numbers 32 swapNeeded head.nChannels.toNat).next fun dx =>
  (Reader.numbers 32 swapNeeded head.nChannels.toNat).next fun dy =>
  (parseImage (head.region.nX * head.region.nY)).next fun img =>
  (parsePart swapNeeded (head.region.nX * head.region.nY)).next fun psf =>
  (parsePart swapNeeded (head.region.nX * head.region.nY)).next fun obj =>
  (parsePart swapNeeded (head.region.nX * head.region.nY)).next fun res =>
  (parseAlpha swapNeeded).next fun alpha =>
  (parseDiversity swapNeeded version head.region.nX head.region.nY).next fun div =>
  .pure (flag (img.1 ≠ 0) MOMFBD_IMG ||| flag (psf.1 ≠ 0) MOMFBD_PSF ||| flag (obj.1 ≠ 0) MOMFBD_OBJ |||
      flag (res.1 ≠ 0) MOMFBD_RES ||| flag (alpha.1 ≠ 0) MOMFBD_ALPHA ||| flag (div.1 ≠ 0) MOMFBD_DIV,
    ⟨head.region, head.nChannels, head.offx, head.offy, nim, dx, dy, head.region.nX, head.region.nY,
      psf.1, obj.1, res.1, alpha.1, alpha.2.1, div.1, div.2.1, div.2.2.1,
      head.offset, img.2, psf.2, obj.2, res.2, alpha.2.2, div.2.2.2⟩)

/-- `PatchInfo::parse` of a new patch. -/
def PatchInfo.parse : Reader (BitVec 8 × PatchInfo) :=
  (parseHead swapNeeded version).next fun head => parseRest swapNeeded version head

end Parse

/-! ## Reading a file -/

section Read

variable {τ : Type} (T : Texts τ) (swapNeeded : Bool) (version : ℚ)

/-- A string with its length before it, both of which count the zero at its end: the characters go into the
buffer `tmpStr`, and the string is what is there up to the first zero. -/
def readString (tmpStr : Str) : Reader (Str × Str) :=
  (Reader.number 32 swapNeeded).next fun tmp32 =>
    if tmp32.toInt < 0 then .fail else
    (Reader.read tmp32.toNat).next fun cs =>
      .pure ((cs ++ tmpStr.drop cs.length).takeWhile (· ≠ 0), cs ++ tmpStr.drop cs.length)

/-- `replace_n( s, "T", " ", 1 )`. -/
def replaceT : Str → Str
  | [] => []
  | c :: s => if c = 84 then 32 :: s else c :: replaceT s

/-- `modifiedTime`, if the version has one. -/
def readModified (tmpStr : Str) : Reader (Option τ × Str) :=
  if 20190408 ≤ version then
    (readString swapNeeded tmpStr).next fun s =>
      match T.time_from_string (replaceT s.1) with
      | none => .fail
      | some t => .pure (some t, s.2)
  else .pure (none, tmpStr)

/-- The region of the file, if the version has one. -/
def readROI : Reader (Option Region) :=
  if regionVersion ≤ version then
    readRegion.next fun region => .pure (some (region.swapEndian swapNeeded).order)
  else .pure none

/-- `NAN`. -/
def NAN : Word := 0x7fc00000

/-- `pix2cf` and `cf2pix`. -/
def readScales : Reader (Word × Word) :=
  if 20110714 ≤ version then
    (Reader.number 32 swapNeeded).next fun pix2cf => (Reader.number 32 swapNeeded).next fun cf2pix =>
      .pure (pix2cf, cf2pix)
  else .pure (NAN, NAN)

/-- What is before the pupil and the modes, and where these are. -/
structure ModesHead where
  bit : BitVec 8
  (pix2cf cf2pix nPH nModes : Word)
  (phOffset modesOffset : ℤ)

def readModes : Reader ModesHead :=
  readByte.next fun hasModes =>
    if hasModes ≠ 0 then
      (readScales swapNeeded version).next fun scales =>
      (Reader.number 32 swapNeeded).next fun nPH => (Reader.number 32 swapNeeded).next fun nModes =>
      (skipFloats (nPH.toInt * nPH.toInt)).next fun phOffset => Reader.tell.next fun modesOffset =>
      -- a byte with the type of each, later
      (Reader.seek (nModes.toInt * (nPH.toInt * nPH.toInt * 4 + (if 20120201 ≤ version then 1 else 0)))).next fun _ =>
      .pure ⟨MOMFBD_MODES, scales.1, scales.2, nPH, nModes, phOffset, modesOffset⟩
    else .pure ⟨0, NAN, NAN, 0, 0, -1, -1⟩

/-- The clips of the channels. -/
structure Clips where
  nChannels : Word
  (clipStartX clipEndX clipStartY clipEndY : List (BitVec 16))

def readClips : Reader Clips :=
  (Reader.number 32 swapNeeded).next fun nChannels =>
    if nChannels.toInt < 0 then .fail else
    (Reader.numbers 16 swapNeeded nChannels.toNat).next fun clipStartX =>
    (Reader.numbers 16 swapNeeded nChannels.toNat).next fun clipEndX =>
    (Reader.numbers 16 swapNeeded nChannels.toNat).next fun clipStartY =>
    (Reader.numbers 16 swapNeeded nChannels.toNat).next fun clipEndY =>
    .pure ⟨nChannels, clipStartX, clipEndX, clipStartY, clipEndY⟩

/-- `nPatchesY`, `nPatchesX`, `nPoints`: the slow index of the array is stored first. -/
structure Grid where
  (nPatchesY nPatchesX nPoints : Word)

def readGrid : Reader Grid :=
  (Reader.number 32 swapNeeded).next fun nPatchesY => (Reader.number 32 swapNeeded).next fun nPatchesX =>
    (Reader.number 32 swapNeeded).next fun nPoints => .pure ⟨nPatchesY, nPatchesX, nPoints⟩

/-- The patches, row by row; an array with a negative dimension cannot be made. -/
def readPatches (grid : Grid) : Reader (List (BitVec 8 × PatchInfo)) :=
  if grid.nPatchesY.toInt < 0 ∨ grid.nPatchesX.toInt < 0 then .fail else
  Reader.times (grid.nPatchesY.toNat * grid.nPatchesX.toNat) (PatchInfo.parse swapNeeded version)

/-- `std::min` and `std::max` of the region of the file and that of a patch, from the largest and the
smallest number on. -/
def Region.around (patches : List PatchInfo) : Region :=
  patches.foldl (fun r p =>
    ⟨if p.region.firstX.toInt < r.firstX.toInt then p.region.firstX else r.firstX,
      if r.lastX.toInt < p.region.lastX.toInt then p.region.lastX else r.lastX,
      if p.region.firstY.toInt < r.firstY.toInt then p.region.firstY else r.firstY,
      if r.lastY.toInt < p.region.lastY.toInt then p.region.lastY else r.lastY⟩)
    ⟨0x7fffffff, 0x80000000, 0x7fffffff, 0x80000000⟩

/-- The hack for files in which `nPoints` is not stored. -/
def pointsFrom (nPoints : Word) (patches : List PatchInfo) : Word :=
  patches.foldl (fun n p =>
    if n = 0 then BitVec.ofInt 32 (|p.region.lastX.toInt - p.region.firstX.toInt| + 1) else n) nPoints

/-- The number of names, and where they are, if the file goes on. -/
def readNames : Reader (BitVec 8 × Word × ℤ) := fun file p =>
  match Reader.number 32 swapNeeded file p with
  | some (nFileNames, p') => some ((MOMFBD_NAMES, nFileNames, (p' : ℤ)), p')
  | none => some ((0, 0, -1), p)

/-- What is before the patches. -/
structure FileHead (τ : Type) where
  swapNeeded : Bool
  version : ℚ
  versionString : Str
  modifiedTime : Option τ
  (timeString dateString : Str)
  roi : Option Region
  modes : ModesHead
  clips : Clips
  grid : Grid

def readHead : Reader (FileHead τ) :=
  -- the system is a little-endian one
  readByte.next fun endian =>
  let swapNeeded := decide (endian ≠ 0)
  (readString swapNeeded (List.replicate 1024 0)).next fun versionString =>
  let version := T.atof versionString.1
  (readModified T swapNeeded version versionString.2).next fun modified =>
  (readString swapNeeded modified.2).next fun timeString =>
  (readString swapNeeded timeString.2).next fun dateString =>
  (readROI swapNeeded version).next fun roi =>
  (readModes swapNeeded version).next fun modes =>
  (readClips swapNeeded).next fun clips =>
  (readGrid swapNeeded).next fun grid =>
  .pure ⟨swapNeeded, version, versionString.1, modified.1, timeString.1, dateString.1, roi, modes, clips, grid⟩

/-- What is found in the file. -/
def FileHead.found (h : FileHead τ) (ps : List (BitVec 8 × PatchInfo)) (names : BitVec 8 × Word × ℤ) :
    FileMomfbd τ where
  version := h.version
  pix2cf := h.modes.pix2cf
  cf2pix := h.modes.cf2pix
  dateString := h.dateString
  timeString := h.timeString
  versionString := h.versionString
  modifiedTime := h.modifiedTime
  fileNames := []
  clipStartX := h.clips.clipStartX
  clipEndX := h.clips.clipEndX
  clipStartY := h.clips.clipStartY
  clipEndY := h.clips.clipEndY
  region := h.roi.getD (Region.around (ps.map Prod.snd))
  nChannels := h.clips.nChannels
  nFileNames := names.2.1
  nPH := h.modes.nPH
  nModes := h.modes.nModes
  nPatchesX := h.grid.nPatchesX
  nPatchesY := h.grid.nPatchesY
  nPoints := pointsFrom h.grid.nPoints (ps.map Prod.snd)
  phOffset := h.modes.phOffset
  modesOffset := h.modes.modesOffset
  filenameOffset := names.2.2
  dataMask := (ps.map Prod.fst).foldl (· ||| ·) h.modes.bit ||| names.1
  swapNeeded := h.swapNeeded
  patches := ps.map Prod.snd

/-- `FileMomfbd::read` into a new object, from the start of a file. -/
def FileMomfbd.read : Reader (FileMomfbd τ) :=
  (readHead T).next fun h => (readPatches h.swapNeeded h.version h.grid).next fun ps =>
    (readNames h.swapNeeded).next fun names => .pure (h.found ps names)

end Read

/-! ## Loading -/

/-- What `load` puts into the memory it is given: 16-bit numbers, floats, and bytes that are passed over. -/
inductive Cell where
  | short (v : BitVec 16)
  | gap
  | float (v : Word)
  deriving DecidableEq

section Load

variable (swapNeeded : Bool) (version : ℚ) (mask : BitVec 8) (alignTo : ℕ)

/-- `n` floats at `pos`. -/
def floatsAt (pos n : ℤ) : Reader (List Word) :=
  if n < 0 then .fail else (Reader.seekTo pos).next fun _ => Reader.numbers 32 swapNeeded n.toNat

/-- Floats that are there and asked for. -/
def loadPart (wanted : Prop) [Decidable wanted] (pos n : ℤ) : Reader (List Word) :=
  if wanted then floatsAt swapNeeded pos n else .pure []

/-- The region, the offset and the numbers of the channels as 16-bit numbers, and a gap behind them. -/
def PatchInfo.block (p : PatchInfo) : List Cell :=
  let shorts := [p.region.firstX, p.region.lastX, p.region.firstY, p.region.lastY] ++
    (if 20110714 ≤ version then [p.offx, p.offy] else []) ++ (p.dx ++ p.dy ++ p.nim)
  shorts.map (fun v => .short (v.setWidth 16)) ++
    List.replicate ((alignTo - 2 * shorts.length % alignTo) % alignTo) .gap

/-- The diversities, without the bytes that tell their types. -/
def PatchInfo.loadDiversity (p : PatchInfo) : Reader (List Word) :=
  if mask &&& MOMFBD_DIV ≠ 0 ∧ p.ndiv ≠ 0 then
    (Reader.seekTo p.diversityPos).next fun _ =>
      if 20110916 ≤ version then
        (Reader.times p.ndiv.toInt.toNat (readByte.next fun _ =>
          Reader.numbers 32 swapNeeded (p.nphy.toInt * p.nphx.toInt).toNat)).next fun divs => .pure divs.flatten
      else Reader.numbers 32 swapNeeded (p.ndiv.toInt * p.nphy.toInt * p.nphx.toInt).toNat
  else .pure []

/-- `PatchInfo::load`. -/
def PatchInfo.load (p : PatchInfo) : Reader (List Cell) :=
  let nxny := p.nPixelsX * p.nPixelsY
  (loadPart swapNeeded (mask &&& MOMFBD_IMG ≠ 0 ∧ p.imgPos ≠ 0) p.imgPos nxny).next fun img =>
  (loadPart swapNeeded (mask &&& MOMFBD_PSF ≠ 0 ∧ p.npsf ≠ 0) p.psfPos (p.npsf.toInt * nxny)).next fun psf =>
  (loadPart swapNeeded (mask &&& MOMFBD_OBJ ≠ 0 ∧ p.nobj ≠ 0) p.objPos (p.nobj.toInt * nxny)).next fun obj =>
  (loadPart swapNeeded (mask &&& MOMFBD_RES ≠ 0 ∧ p.nres ≠ 0) p.resPos (p.nres.toInt * nxny)).next fun res =>
  (loadPart swapNeeded (mask &&& MOMFBD_ALPHA ≠ 0 ∧ p.nalpha ≠ 0) p.alphaPos
    (p.nalpha.toInt * p.nm.toInt)).next fun alpha =>
  (p.loadDiversity swapNeeded version mask).next fun div =>
  .pure (p.block version alignTo ++ (img ++ psf ++ obj ++ res ++ alpha ++ div).map .float)

end Load

section LoadFile

variable {τ : Type} (m : FileMomfbd τ) (mask : BitVec 8) (alignTo : ℕ)

/-- The pupil. -/
def FileMomfbd.loadPupil : Reader (List Word) :=
  loadPart m.swapNeeded (mask &&& MOMFBD_MODES ≠ 0 ∧ m.nPH ≠ 0 ∧ 0 < m.phOffset) m.phOffset
    (m.nPH.toInt * m.nPH.toInt)

/-- The modes, a byte before each left out.  What `swapEndian` then reverses is the memory behind them: the
pointer is moved on while they are read. -/
def FileMomfbd.loadModes : Reader (List Word) :=
  if mask &&& MOMFBD_MODES ≠ 0 ∧ m.nPH ≠ 0 ∧ m.nModes ≠ 0 ∧ 0 < m.modesOffset then
    (Reader.seekTo m.modesOffset).next fun _ =>
      (Reader.times m.nModes.toInt.toNat ((Reader.skip 1).next fun _ =>
        Reader.words 32 (m.nPH.toInt * m.nPH.toInt).toNat)).next fun modes => .pure modes.flatten
  else .pure []

def FileMomfbd.loadPatches : Reader (List Cell) :=
  if mask &&& MOMFBD_PATCH ≠ 0 ∧ 0 < m.nPatchesX.toInt ∧ 0 < m.nPatchesY.toInt then
    (Reader.each (fun p : PatchInfo => p.load m.swapNeeded m.version mask alignTo) m.patches).next fun cs =>
      .pure cs.flatten
  else .pure []

/-- A name with its length before it, all of it: with the zero that is counted. -/
def readName (swapNeeded : Bool) : Reader Str :=
  (Reader.number 32 swapNeeded).next fun nameLength =>
    if nameLength.toInt < 0 then .fail else Reader.read nameLength.toNat

/-- The names are put behind those that are there already. -/
def FileMomfbd.loadNames : Reader (List Str) :=
  if mask &&& MOMFBD_NAMES ≠ 0 ∧ 0 < m.filenameOffset then
    (Reader.seekTo m.filenameOffset).next fun _ =>
      (Reader.times m.nFileNames.toInt.toNat (readName m.swapNeeded)).next fun names => .pure (m.fileNames ++ names)
  else .pure []

/-- `FileMomfbd::load`: what it puts into the memory, and `fileNames`. -/
def FileMomfbd.load : Reader (List Cell × List Str) :=
  (m.loadPupil mask).next fun pupil => (m.loadModes mask).next fun modes =>
    (m.loadPatches mask alignTo).next fun patches => (m.loadNames mask).next fun names =>
      .pure ((pupil ++ modes).map .float ++ patches, names)

/-- The object after `load`. -/
def FileMomfbd.withNames (names : List Str) : FileMomfbd τ := { m with fileNames := names }

end LoadFile

/-! ## Writing -/

section Write

variable {τ : Type} (T : Texts τ) (data : Str) (version : ℚ) (mask : BitVec 8)

/-- `n` floats at `pos` in the block of memory. -/
def floatsIn (pos n : ℤ) : Option (List Word) := (floatsAt false pos n data 0).map Prod.fst

/-- `k` times `n` floats from `pos` on. -/
def rowsIn (n : ℤ) : ℕ → ℤ → Option (List (List Word))
  | 0, _ => some []
  | k + 1, pos => do
    let row ← floatsIn data pos n
    let rows ← rowsIn n k (pos + 4 * n)
    return row :: rows

/-- The first `n` elements of an array. -/
def elements {α : Type} (n : Word) (vs : List α) : Option (List α) :=
  if 0 ≤ n.toInt ∧ n.toNat ≤ vs.length then some (vs.take n.toNat) else none

/-- The image, if it is to be written. -/
def imageIn (pos nxny : ℤ) : Option (List Word) :=
  if mask &&& MOMFBD_IMG ≠ 0 then floatsIn data pos nxny else some []

/-- The number of a part, and its floats. -/
def writePart (n : Word) (pos nxny : ℤ) : Option Str :=
  if n ≠ 0 then (floatsIn data pos (n.toInt * nxny)).map fun fs => numBytes false n ++ numsBytes false fs
  else some (numBytes false n)

def writeAlpha (nalpha nm : Word) (pos : ℤ) : Option Str :=
  if nalpha ≠ 0 then
    (if nm ≠ 0 then floatsIn data pos (nalpha.toInt * nm.toInt) else some []).map fun fs =>
      numBytes false nalpha ++ (numBytes false nm ++ numsBytes false fs)
  else some (numBytes false nalpha)

/-- The diversities, before each later a byte with its type, which is always 0. -/
def writeDiversity (ndiv nphx nphy : Word) (pos : ℤ) : Option Str :=
  if 20100726 ≤ version then
    if ndiv ≠ 0 then
      (if 20110916 ≤ version then
        (rowsIn data (nphy.toInt * nphx.toInt) ndiv.toInt.toNat pos).map fun rows =>
          rows.flatMap fun row => (0 : BitVec 8) :: numsBytes false row
      else (floatsIn data pos (ndiv.toInt * nphy.toInt * nphx.toInt)).map (numsBytes false)).map fun bs =>
        numBytes false ndiv ++ ((if 20110708 ≤ version then numBytes false nphx ++ numBytes false nphy else []) ++ bs)
    else some (numBytes false ndiv)
  else some []

/-- `if( !(writeMask & bit) ) n = 0`. -/
def countIn (bit : BitVec 8) (n : Word) : Word := if mask &&& bit = 0 then 0 else n

/-- What `PatchInfo::write` makes of the patch before it writes it. -/
def PatchInfo.masked (p : PatchInfo) : PatchInfo :=
  { p with
    region := p.region.order, nPixelsX := p.region.order.nX, nPixelsY := p.region.order.nY
    npsf := countIn mask MOMFBD_PSF p.npsf, nobj := countIn mask MOMFBD_OBJ p.nobj
    nres := countIn mask MOMFBD_RES p.nres, nalpha := countIn mask MOMFBD_ALPHA p.nalpha
    ndiv := countIn mask MOMFBD_DIV p.ndiv }

/-- `offx` and `offy`, if the version has them. -/
def offsetBytes (reversed : Bool) (offx offy : Word) : Str :=
  if 20110714 ≤ version then numBytes reversed offx ++ numBytes reversed offy else []

def Region.bytes (reversed : Bool) (r : Region) : Str :=
  numBytes reversed r.firstX ++ (numBytes reversed r.lastX ++ (numBytes reversed r.firstY ++ numBytes reversed r.lastY))

/-- The bytes of a patch that is `masked`. -/
def PatchInfo.writeMasked (p : PatchInfo) : Option Str := do
  let nim ← elements p.nChannels p.nim
  let dx ← elements p.nChannels p.dx
  let dy ← elements p.nChannels p.dy
  let nxny := p.nPixelsX * p.nPixelsY
  let img ← imageIn data mask p.imgPos nxny
  let psf ← writePart data p.npsf p.psfPos nxny
  let obj ← writePart data p.nobj p.objPos nxny
  let res ← writePart data p.nres p.resPos nxny
  let alpha ← writeAlpha data p.nalpha p.nm p.alphaPos
  let div ← writeDiversity data version p.ndiv p.nphx p.nphy p.diversityPos
  return p.region.bytes false ++ (offsetBytes version false p.offx p.offy ++ (numBytes false p.nChannels ++
    (numsBytes false nim ++ (numsBytes false dx ++ (numsBytes false dy ++
      ((mask &&& MOMFBD_IMG) :: numsBytes false img ++
      (psf ++ (obj ++ (res ++ (alpha ++ div))))))))))

/-- `PatchInfo::write`: the bytes, and the patch afterwards; nothing if the memory ends before. -/
def PatchInfo.write (p : PatchInfo) : Option (Str × PatchInfo) :=
  ((p.masked mask).writeMasked data version mask).map fun bs => (bs, p.masked mask)

/-- A string with its length before it and a zero behind it. -/
def textBytes (reversed : Bool) (s : Str) : Str :=
  numBytes reversed (BitVec.ofNat 32 (s.length + 1)) ++ (s ++ [0])

/-- A pupil or modes without a position are zeros. -/
def floatsOrZeros (k : ℕ) (pos n : ℤ) : Option (List (List Word)) :=
  if 0 ≤ pos then rowsIn data n k pos else if n < 0 then none else some (List.replicate k (List.replicate n.toNat 0))

variable (m : FileMomfbd τ)

/-- The pupil and the modes, before each later a byte with its type, which is always 1. -/
def FileMomfbd.writeModes : Option Str :=
  let hasModes := mask &&& MOMFBD_MODES
  if hasModes ≠ 0 then do
    let pupil ← floatsOrZeros data 1 m.phOffset (m.nPH.toInt * m.nPH.toInt)
    let modes ← floatsOrZeros data m.nModes.toInt.toNat m.modesOffset (m.nPH.toInt * m.nPH.toInt)
    return hasModes :: ((if 20110714 ≤ m.version then numBytes false m.pix2cf ++ numBytes false m.cf2pix else []) ++
      (numBytes false m.nPH ++ (numBytes false m.nModes ++ (pupil.flatMap (numsBytes false) ++
        modes.flatMap fun mode => (if 20120201 ≤ m.version then [(1 : BitVec 8)] else []) ++ numsBytes false mode))))
  else some [hasModes]

def FileMomfbd.writeClips : Option Str := do
  let clipStartX ← elements m.nChannels m.clipStartX
  let clipEndX ← elements m.nChannels m.clipEndX
  let clipStartY ← elements m.nChannels m.clipStartY
  let clipEndY ← elements m.nChannels m.clipEndY
  return numBytes false m.nChannels ++ (numsBytes false clipStartX ++ (numsBytes false clipEndX ++
    (numsBytes false clipStartY ++ numsBytes false clipEndY)))

/-- The patches one after the other. -/
def writePatches : List PatchInfo → Option (Str × List PatchInfo)
  | [] => some ([], [])
  | p :: ps => do
    let (bs, p') ← p.write data version mask
    let (bss, ps') ← writePatches ps
    return (bs ++ bss, p' :: ps')

/-- The time that is written: that of the clock if there is none. -/
def FileMomfbd.writtenTime : Option τ :=
  if 20190408 ≤ m.version then some (m.modifiedTime.getD T.universal_time) else m.modifiedTime

/-- The names, with their number before them, if there are any. -/
def FileMomfbd.nameBytes (reversed : Bool) : Str :=
  if mask &&& MOMFBD_NAMES ≠ 0 ∧ m.fileNames ≠ [] then
    numBytes reversed (BitVec.ofNat 32 m.fileNames.length) ++ m.fileNames.flatMap (textBytes reversed)
  else []

/-- `FileMomfbd::write`: the bytes, and the object afterwards. -/
def FileMomfbd.write : Option (Str × FileMomfbd τ) := do
  let modes ← m.writeModes data mask
  let clips ← m.writeClips
  let (patches, ps) ← writePatches data m.version mask m.patches
  return ((0 : BitVec 8) :: textBytes false m.versionString ++
    ((if 20190408 ≤ m.version then textBytes false (T.to_iso_extended_string
      (m.modifiedTime.getD T.universal_time)) else []) ++
    (textBytes false m.timeString ++ (textBytes false m.dateString ++ (m.region.bytes false ++ (modes ++ (clips ++
    (numBytes false m.nPatchesY ++ (numBytes false m.nPatchesX ++ (numBytes false m.nPoints ++
    (patches ++ m.nameBytes mask false)))))))))),
    { m with
      modifiedTime := m.writtenTime T, patches := ps
      nFileNames := if mask &&& MOMFBD_NAMES ≠ 0 ∧ m.fileNames ≠ [] then BitVec.ofNat 32 m.fileNames.length
        else m.nFileNames })

end Write

end Redux.MomfbdFile
