import Redux.Momfbd.Properties

/-!
# Momfbd.ChannelProperties — a channel as properties

`parseProperties` and `getProperties` of `ChannelCfg`.  A key is put where the channel differs from the
defaults, and what is not there is taken from the defaults, but not for every key: the offset files fall
back to no file, the patch coordinates of one kind hide those of the other, the clip is counted from one
in the text, and a channel without modulation matrix has the weight one.  A channel that was parsed comes
back exactly if it is `Restorable`.
-/

namespace Redux.Momfbd.Properties

open Redux.Util Redux.Lib

/-- The keys of a channel. -/
inductive ChannelKey
  | ANGLE | NF | WEIGHT | NO_RESTORE
  | DIV_BASIS | DIVERSITY | DIV_ORDERS | DIV_MODES | DIV_MODE_FILE | DIV_MODE_FILE_NORMALIZE
  | ALIGN_MAP | ALIGN_MAP_X | ALIGN_MAP_Y | ALIGN_CLIP | DISCARD | BORDER_CLIP | INCOMPLETE
  | SIM_XY | SIM_X | SIM_Y | CAL_X | CAL_Y
  | IMAGE_DATA_DIR | FILENAME_TEMPLATE | DARK_TEMPLATE | GAIN_FILE | CCD_RESPONSE | BACK_GAIN | PSF
  | MODMAT | MMROW | MMWIDTH | XOFFSET | YOFFSET | DT | IMAGE_NUM | IMAGE_NUMS | WFINDEX | DARK_NUM | VECTOR

@[ext]
structure ChannelCfg (F D : Type) where
  (rotationAngle noiseFudge weight : D)
  diversityBasis : ModeBase
  diversityModes : ModeList
  diversityValues : List (DiversityValue D)
  diversityModeFile : Str
  (divModeFileNormalize noRestore : Bool)
  (alignMap alignMapX alignMapY : List F)
  alignClip : List (BitVec 16)
  borderClip : BitVec 16
  incomplete : BitVec 8
  (subImagePosXY subImagePosX subImagePosY discard : List (BitVec 16))
  (imageDataDir imageTemplate darkTemplate gainFile responseFile backgainFile psfFile mmFile : Str)
  (mmRow mmWidth : BitVec 8)
  (xOffsetFile yOffsetFile : Str)
  imageNumberOffset : BitVec 32
  (fileNumbers waveFrontList darkNumbers : List (BitVec 32))
  stokesWeights : List F

namespace ChannelCfg

variable {F D : Type} (L : Library F D)

/-! ## Parsing -/

/-- Tilt modes are always Zernike modes. -/
def forceTilt (d : ModeID) : ModeID := if d.number = 2 ∨ d.number = 3 then ⟨.ZERNIKE, d.number⟩ else d

/-- The modes of the diversity, once the default type is set: one value alone is for the mode of the file,
or for defocus. -/
def completeModes (nValues : ℕ) (modeFile : Str) (modes : List ModeID) : List ModeID :=
  if modeFile ≠ [] then if nValues = 1 ∧ modes = [] then [⟨.MB_FILE, 0⟩] else modes
  else (if nValues = 1 ∧ modes = [] then [⟨.ZERNIKE, 4⟩] else modes).map forceTilt

/-- `DIV_MODES`, or else `DIV_ORDERS`. -/
def parseModes (fuel : ℕ) (tree : ChannelKey → Option Str) (defaults : ChannelCfg F D) : Option ModeList := do
  let orders ← getOr (getModes L fuel) (tree .DIV_ORDERS) defaults.diversityModes
  getOr (getModes L fuel) (tree .DIV_MODES) orders

/-- `SIM_X` and `SIM_Y`, or `CAL_X` and `CAL_Y` where both are there. -/
def parseSubImages (fuel : ℕ) (tree : ChannelKey → Option Str) (defaults : ChannelCfg F D) :
    Option (List (BitVec 16) × List (BitVec 16)) := do
  let simX ← getOr (getNumbers L fuel) (tree .SIM_X) defaults.subImagePosX
  let simY ← getOr (getNumbers L fuel) (tree .SIM_Y) defaults.subImagePosY
  if getBool (tree .CAL_X) false && getBool (tree .CAL_Y) false then
    return (← getOr (getNumbers L fuel) (tree .CAL_X) defaults.subImagePosX,
      ← getOr (getNumbers L fuel) (tree .CAL_Y) defaults.subImagePosY)
  else return (simX, simY)

/-- `IMAGE_NUM`, or `IMAGE_NUMS` where that gives none. -/
def parseFileNumbers (fuel : ℕ) (tree : ChannelKey → Option Str) (defaults : ChannelCfg F D) :
    Option (List (BitVec 32)) := do
  let fileNumbers ← getOr (getNumbers L fuel) (tree .IMAGE_NUM) defaults.fileNumbers
  if fileNumbers = [] then getOr (getNumbers L fuel) (tree .IMAGE_NUMS) defaults.fileNumbers else return fileNumbers

/-- `resize( 1, 1.0 )`. -/
def resizeOne (weights : List F) : List F := [weights.headD L.one]

/-- A data directory is never empty. -/
def dataDir (dir : Str) : Str := L.cleanPath (if dir = [] then "./".toList else dir)

/-- `tree.get<string>( key, fallback )`. -/
def getString (text : Option Str) (fallback : Str) : Str := getElse some text fallback

/-- `parseProperties`, with at most `fuel` rounds for each loop of a translator; none if it throws. -/
def parseProperties (fuel : ℕ) (tree : ChannelKey → Option Str) (defaults : ChannelCfg F D) :
    Option (ChannelCfg F D) := do
  let diversityBasis := getElse ModeBaseTranslator.get_value (tree .DIV_BASIS) defaults.diversityBasis
  let diversityValues ← getOr (getDiversityValues L) (tree .DIVERSITY) defaults.diversityValues
  let modes ← parseModes L fuel tree defaults
  let diversityModeFile := getString (tree .DIV_MODE_FILE) defaults.diversityModeFile
  let alignMap ← getOr (getFloats L) (tree .ALIGN_MAP) defaults.alignMap
  let alignMapX ← getOr (getFloats L) (tree .ALIGN_MAP_X) defaults.alignMapX
  let alignMapY ← getOr (getFloats L) (tree .ALIGN_MAP_Y) defaults.alignMapY
  let alignClip ← getOr (getInt16s L) (tree .ALIGN_CLIP) defaults.alignClip
  let discard ← getOr (getNumbers L fuel) (tree .DISCARD) defaults.discard
  let subImagePosXY ← getOr (getNumbers L fuel) (tree .SIM_XY) defaults.subImagePosXY
  let subImages ← parseSubImages L fuel tree defaults
  let mmFile := getString (tree .MODMAT) defaults.mmFile
  let fileNumbers ← parseFileNumbers L fuel tree defaults
  let waveFrontList ← getOr (getNumbers L fuel) (tree .WFINDEX) defaults.waveFrontList
  let darkNumbers ← getOr (getNumbers L fuel) (tree .DARK_NUM) defaults.darkNumbers
  let stokesWeights ← getOr (getFloats L) (tree .VECTOR) defaults.stokesWeights
  return {
    rotationAngle := getElse L.double.extract (tree .ANGLE) defaults.rotationAngle
    noiseFudge := getElse L.double.extract (tree .NF) defaults.noiseFudge
    weight := getElse L.double.extract (tree .WEIGHT) defaults.weight
    noRestore := getBool (tree .NO_RESTORE) defaults.noRestore
    diversityBasis := diversityBasis
    diversityValues := diversityValues
    diversityModes := ⟨completeModes diversityValues.length diversityModeFile
      (modes.setDefaultModeType diversityBasis).modes, diversityBasis⟩
    diversityModeFile := diversityModeFile
    divModeFileNormalize := getBool (tree .DIV_MODE_FILE_NORMALIZE) defaults.divModeFileNormalize
    alignMap := alignMap
    alignMapX := alignMapX
    alignMapY := alignMapY
    alignClip := alignClip
    discard := discard
    borderClip := getElse (L.extract 16) (tree .BORDER_CLIP) defaults.borderClip
    incomplete := if getBool (tree .INCOMPLETE) (defaults.incomplete != 0) then 1 else 0
    subImagePosXY := subImagePosXY
    subImagePosX := subImages.1
    subImagePosY := subImages.2
    imageDataDir := dataDir L (getString (tree .IMAGE_DATA_DIR) defaults.imageDataDir)
    imageTemplate := getString (tree .FILENAME_TEMPLATE) defaults.imageTemplate
    darkTemplate := getString (tree .DARK_TEMPLATE) defaults.darkTemplate
    gainFile := L.cleanFile (getString (tree .GAIN_FILE) defaults.gainFile)
    responseFile := L.cleanFile (getString (tree .CCD_RESPONSE) defaults.responseFile)
    backgainFile := L.cleanFile (getString (tree .BACK_GAIN) defaults.backgainFile)
    psfFile := L.cleanFile (getString (tree .PSF) defaults.psfFile)
    mmFile := L.cleanFile mmFile
    mmRow := if mmFile ≠ [] then getElse (L.extract 8) (tree .MMROW) defaults.mmRow else 1
    mmWidth := if mmFile ≠ [] then getElse (L.extract 8) (tree .MMWIDTH) defaults.mmWidth else 1
    stokesWeights := if mmFile ≠ [] then stokesWeights else resizeOne L stokesWeights
    xOffsetFile := L.cleanFile (getString (tree .XOFFSET) [])
    yOffsetFile := L.cleanFile (getString (tree .YOFFSET) [])
    imageNumberOffset := getElse (L.extract 32) (tree .DT) defaults.imageNumberOffset
    fileNumbers := fileNumbers
    waveFrontList := waveFrontList
    darkNumbers := darkNumbers }

/-- The clip in `checkCfg`: without four numbers there is none, and they count from one, which is an error
if one of them is zero. -/
def zeroBased (alignClip : List (BitVec 16)) : Option (List (BitVec 16)) :=
  if alignClip.length ≠ 4 then some []
  else if 0 ∈ alignClip then none
  else some (alignClip.map (· - 1))

/-- The conversion of the clip. -/
def convertClip (c : ChannelCfg F D) : Option (ChannelCfg F D) :=
  (zeroBased c.alignClip).map fun alignClip => { c with alignClip := alignClip }

/-! ## Printing -/

/-- `getProperties`, key by key; none is put twice. -/
def getProperties (c defaults : ChannelCfg F D) : ChannelKey → Option Str
  | .ANGLE => putUnless (L.double.eq c.rotationAngle defaults.rotationAngle) (L.double.fullText c.rotationAngle)
  | .NF => putUnless (L.double.eq c.noiseFudge defaults.noiseFudge) (L.double.fullText c.noiseFudge)
  | .WEIGHT => putUnless (L.double.eq c.weight defaults.weight) (L.double.fullText c.weight)
  | .NO_RESTORE => putUnless (c.noRestore == defaults.noRestore) (BoolTranslator.put_value c.noRestore)
  | .DIV_BASIS =>
    putUnless (c.diversityBasis == defaults.diversityBasis) (ModeBaseTranslator.put_value c.diversityBasis)
  | .DIV_MODES =>
    putUnless (c.diversityModes.modes == defaults.diversityModes.modes) (ModeListTranslator.put_value c.diversityModes)
  | .DIVERSITY =>
    putUnless (c.diversityValues.isEqv defaults.diversityValues (DiversityValue.eq L))
      (joined (DiversityValue.text L) c.diversityValues)
  | .DIV_MODE_FILE => putUnless (c.diversityModeFile == defaults.diversityModeFile) c.diversityModeFile
  | .DIV_MODE_FILE_NORMALIZE =>
    putUnless (c.divModeFileNormalize == defaults.divModeFileNormalize)
      (BoolTranslator.put_value c.divModeFileNormalize)
  | .ALIGN_MAP => putUnless (c.alignMap.isEqv defaults.alignMap L.float.eq) (joined L.float.text c.alignMap)
  | .ALIGN_MAP_X => putUnless (c.alignMapX.isEqv defaults.alignMapX L.float.eq) (joined L.float.text c.alignMapX)
  | .ALIGN_MAP_Y => putUnless (c.alignMapY.isEqv defaults.alignMapY L.float.eq) (joined L.float.text c.alignMapY)
  -- 1-based in the text
  | .ALIGN_CLIP => putUnless (c.alignClip == defaults.alignClip) (joined int16Text (c.alignClip.map (· + 1)))
  | .DISCARD => putUnless (c.discard == defaults.discard) (VectorTranslator.put_value c.discard)
  | .BORDER_CLIP => putUnless (c.borderClip == defaults.borderClip) (decimal c.borderClip.toNat)
  | .INCOMPLETE => putUnless (c.incomplete == defaults.incomplete) (BoolTranslator.put_value (c.incomplete != 0))
  | .SIM_XY => putUnless (c.subImagePosXY == defaults.subImagePosXY) (VectorTranslator.put_value c.subImagePosXY)
  | .SIM_X =>
    putUnless (c.subImagePosXY != [] || c.subImagePosX == defaults.subImagePosX)
      (VectorTranslator.put_value c.subImagePosX)
  | .SIM_Y =>
    putUnless (c.subImagePosXY != [] || c.subImagePosY == defaults.subImagePosY)
      (VectorTranslator.put_value c.subImagePosY)
  | .IMAGE_DATA_DIR => putUnless (c.imageDataDir == defaults.imageDataDir) c.imageDataDir
  | .FILENAME_TEMPLATE => putUnless (c.imageTemplate == defaults.imageTemplate) c.imageTemplate
  | .DARK_TEMPLATE => putUnless (c.darkTemplate == defaults.darkTemplate) c.darkTemplate
  | .GAIN_FILE => putUnless (c.gainFile == defaults.gainFile) c.gainFile
  | .CCD_RESPONSE => putUnless (c.responseFile == defaults.responseFile) c.responseFile
  | .BACK_GAIN => putUnless (c.backgainFile == defaults.backgainFile) c.backgainFile
  | .PSF => putUnless (c.psfFile == defaults.psfFile) c.psfFile
  | .MODMAT => putUnless (c.mmFile == defaults.mmFile) c.mmFile
  | .MMROW => putUnless (c.mmRow == defaults.mmRow) (decimal c.mmRow.toNat)
  | .MMWIDTH => putUnless (c.mmWidth == defaults.mmWidth) (decimal c.mmWidth.toNat)
  | .XOFFSET => putUnless (c.xOffsetFile == defaults.xOffsetFile) c.xOffsetFile
  | .YOFFSET => putUnless (c.yOffsetFile == defaults.yOffsetFile) c.yOffsetFile
  | .DT => putUnless (c.imageNumberOffset == defaults.imageNumberOffset) (decimal c.imageNumberOffset.toNat)
  | .IMAGE_NUM => putUnless (c.fileNumbers == defaults.fileNumbers) (VectorTranslator.put_value c.fileNumbers)
  | .WFINDEX => putUnless (c.waveFrontList == defaults.waveFrontList) (VectorTranslator.put_value c.waveFrontList)
  | .DARK_NUM => putUnless (c.darkNumbers == defaults.darkNumbers) (VectorTranslator.put_value c.darkNumbers)
  | .VECTOR => putUnless (c.stokesWeights.isEqv defaults.stokesWeights L.float.eq) (joined L.float.text c.stokesWeights)
  | .DIV_ORDERS | .CAL_X | .CAL_Y | .IMAGE_NUMS => none

/-! ## What a channel is read as -/

/-- `c` is what the texts of a tree say, field by field. -/
structure ReadFrom (fuel : ℕ) (tree : ChannelKey → Option Str) (defaults c : ChannelCfg F D) : Prop where
  rotationAngle : getElse L.double.extract (tree .ANGLE) defaults.rotationAngle = c.rotationAngle
  noiseFudge : getElse L.double.extract (tree .NF) defaults.noiseFudge = c.noiseFudge
  weight : getElse L.double.extract (tree .WEIGHT) defaults.weight = c.weight
  noRestore : getBool (tree .NO_RESTORE) defaults.noRestore = c.noRestore
  diversityBasis : getElse ModeBaseTranslator.get_value (tree .DIV_BASIS) defaults.diversityBasis = c.diversityBasis
  diversityValues : getOr (getDiversityValues L) (tree .DIVERSITY) defaults.diversityValues = some c.diversityValues
  diversityModes : ∃ modes, parseModes L fuel tree defaults = some modes ∧
    ⟨completeModes c.diversityValues.length c.diversityModeFile (modes.setDefaultModeType c.diversityBasis).modes,
      c.diversityBasis⟩ = c.diversityModes
  diversityModeFile : getString (tree .DIV_MODE_FILE) defaults.diversityModeFile = c.diversityModeFile
  divModeFileNormalize : getBool (tree .DIV_MODE_FILE_NORMALIZE) defaults.divModeFileNormalize = c.divModeFileNormalize
  alignMap : getOr (getFloats L) (tree .ALIGN_MAP) defaults.alignMap = some c.alignMap
  alignMapX : getOr (getFloats L) (tree .ALIGN_MAP_X) defaults.alignMapX = some c.alignMapX
  alignMapY : getOr (getFloats L) (tree .ALIGN_MAP_Y) defaults.alignMapY = some c.alignMapY
  alignClip : getOr (getInt16s L) (tree .ALIGN_CLIP) defaults.alignClip = some c.alignClip
  discard : getOr (getNumbers L fuel) (tree .DISCARD) defaults.discard = some c.discard
  borderClip : getElse (L.extract 16) (tree .BORDER_CLIP) defaults.borderClip = c.borderClip
  incomplete : (if getBool (tree .INCOMPLETE) (defaults.incomplete != 0) then 1 else 0) = c.incomplete
  subImagePosXY : getOr (getNumbers L fuel) (tree .SIM_XY) defaults.subImagePosXY = some c.subImagePosXY
  subImages : parseSubImages L fuel tree defaults = some (c.subImagePosX, c.subImagePosY)
  imageDataDir : dataDir L (getString (tree .IMAGE_DATA_DIR) defaults.imageDataDir) = c.imageDataDir
  imageTemplate : getString (tree .FILENAME_TEMPLATE) defaults.imageTemplate = c.imageTemplate
  darkTemplate : getString (tree .DARK_TEMPLATE) defaults.darkTemplate = c.darkTemplate
  gainFile : L.cleanFile (getString (tree .GAIN_FILE) defaults.gainFile) = c.gainFile
  responseFile : L.cleanFile (getString (tree .CCD_RESPONSE) defaults.responseFile) = c.responseFile
  backgainFile : L.cleanFile (getString (tree .BACK_GAIN) defaults.backgainFile) = c.backgainFile
  psfFile : L.cleanFile (getString (tree .PSF) defaults.psfFile) = c.psfFile
  modulation : ∃ mmFile, getString (tree .MODMAT) defaults.mmFile = mmFile ∧ L.cleanFile mmFile = c.mmFile ∧
    (if mmFile ≠ [] then getElse (L.extract 8) (tree .MMROW) defaults.mmRow else 1) = c.mmRow ∧
    (if mmFile ≠ [] then getElse (L.extract 8) (tree .MMWIDTH) defaults.mmWidth else 1) = c.mmWidth ∧
    ∃ weights, getOr (getFloats L) (tree .VECTOR) defaults.stokesWeights = some weights ∧
      (if mmFile ≠ [] then weights else resizeOne L weights) = c.stokesWeights
  xOffsetFile : L.cleanFile (getString (tree .XOFFSET) []) = c.xOffsetFile
  yOffsetFile : L.cleanFile (getString (tree .YOFFSET) []) = c.yOffsetFile
  imageNumberOffset : getElse (L.extract 32) (tree .DT) defaults.imageNumberOffset = c.imageNumberOffset
  fileNumbers : parseFileNumbers L fuel tree defaults = some c.fileNumbers
  waveFrontList : getOr (getNumbers L fuel) (tree .WFINDEX) defaults.waveFrontList = some c.waveFrontList
  darkNumbers : getOr (getNumbers L fuel) (tree .DARK_NUM) defaults.darkNumbers = some c.darkNumbers

variable {L} {fuel : ℕ} {tree : ChannelKey → Option Str} {c d c' : ChannelCfg F D}

/-- **Parsing reads every field, or throws.** -/
theorem parse_iff : parseProperties L fuel tree d = some c ↔ ReadFrom L fuel tree d c := by
  constructor
  · intro h
    obtain ⟨values, hvalues, h⟩ := Option.bind_eq_some_iff.1 h
    obtain ⟨modes, hmodes, h⟩ := Option.bind_eq_some_iff.1 h
    obtain ⟨alignMap, halignMap, h⟩ := Option.bind_eq_some_iff.1 h
    obtain ⟨alignMapX, halignMapX, h⟩ := Option.bind_eq_some_iff.1 h
    obtain ⟨alignMapY, halignMapY, h⟩ := Option.bind_eq_some_iff.1 h
    obtain ⟨alignClip, halignClip, h⟩ := Option.bind_eq_some_iff.1 h
    obtain ⟨discard, hdiscard, h⟩ := Option.bind_eq_some_iff.1 h
    obtain ⟨posXY, hposXY, h⟩ := Option.bind_eq_some_iff.1 h
    obtain ⟨subImages, hsubImages, h⟩ := Option.bind_eq_some_iff.1 h
    obtain ⟨fileNumbers, hfileNumbers, h⟩ := Option.bind_eq_some_iff.1 h
    obtain ⟨waveFrontList, hwaveFrontList, h⟩ := Option.bind_eq_some_iff.1 h
    obtain ⟨darkNumbers, hdarkNumbers, h⟩ := Option.bind_eq_some_iff.1 h
    obtain ⟨weights, hweights, h⟩ := Option.bind_eq_some_iff.1 h
    obtain rfl := Option.some.inj h
    exact {
      rotationAngle := rfl, noiseFudge := rfl, weight := rfl, noRestore := rfl, diversityBasis := rfl
      diversityValues := hvalues, diversityModes := ⟨modes, hmodes, rfl⟩, diversityModeFile := rfl
      divModeFileNormalize := rfl, alignMap := halignMap, alignMapX := halignMapX, alignMapY := halignMapY
      alignClip := halignClip, discard := hdiscard, borderClip := rfl, incomplete := rfl, subImagePosXY := hposXY
      subImages := hsubImages, imageDataDir := rfl, imageTemplate := rfl, darkTemplate := rfl, gainFile := rfl
      responseFile := rfl, backgainFile := rfl, psfFile := rfl
      modulation := ⟨_, rfl, rfl, rfl, rfl, weights, hweights, rfl⟩
      xOffsetFile := rfl, yOffsetFile := rfl, imageNumberOffset := rfl, fileNumbers := hfileNumbers
      waveFrontList := hwaveFrontList, darkNumbers := hdarkNumbers }
  · intro h
    obtain ⟨modes, hmodes, hcomplete⟩ := h.diversityModes
    obtain ⟨mmFile, rfl, hmmFile, hmmRow, hmmWidth, weights, hweights, hstokes⟩ := h.modulation
    rw [parseProperties]
    dsimp only
    rw [h.diversityValues, hmodes, h.alignMap, h.alignMapX, h.alignMapY, h.alignClip, h.discard, h.subImagePosXY,
      h.subImages, h.fileNumbers, h.waveFrontList, h.darkNumbers, hweights, h.diversityModeFile, h.diversityBasis]
    exact congrArg some (ChannelCfg.ext h.rotationAngle h.noiseFudge h.weight rfl hcomplete rfl rfl
      h.divModeFileNormalize h.noRestore rfl rfl rfl rfl h.borderClip h.incomplete rfl rfl rfl rfl h.imageDataDir
      h.imageTemplate h.darkTemplate h.gainFile h.responseFile h.backgainFile h.psfFile hmmFile hmmRow hmmWidth
      h.xOffsetFile h.yOffsetFile h.imageNumberOffset rfl rfl rfl hstokes)

/-! ## What was parsed -/

variable (L) in
/-- `c` is what a section says, against the defaults, with its clip converted. -/
def Parsed (defaults c : ChannelCfg F D) : Prop :=
  ∃ fuel tree c₀, parseProperties L fuel tree defaults = some c₀ ∧ c₀.convertClip = some c

variable (L) in
/-- What parsing has settled: it would not change again. -/
structure Settled (d c : ChannelCfg F D) : Prop where
  diversityBasis : c.diversityBasis = d.diversityBasis ∨ ModeBaseTranslator.Read c.diversityBasis
  defaultType : c.diversityModes.defaultType = c.diversityBasis
  complete : completeModes c.diversityValues.length c.diversityModeFile
    (c.diversityModes.setDefaultModeType c.diversityBasis).modes = c.diversityModes.modes
  incomplete : (if c.incomplete != 0 then 1 else 0) = c.incomplete
  alignClip : zeroBased (c.alignClip.map (· + 1)) = some c.alignClip
  imageDataDir : L.cleanPath c.imageDataDir = c.imageDataDir
  gainFile : L.cleanFile c.gainFile = c.gainFile
  responseFile : L.cleanFile c.responseFile = c.responseFile
  backgainFile : L.cleanFile c.backgainFile = c.backgainFile
  psfFile : L.cleanFile c.psfFile = c.psfFile
  mmFile : L.cleanFile c.mmFile = c.mmFile
  xOffsetFile : L.cleanFile c.xOffsetFile = c.xOffsetFile
  yOffsetFile : L.cleanFile c.yOffsetFile = c.yOffsetFile

/-- A mode without a type has none after the default type is set, unless that is none. -/
theorem setType_setType (basis : ModeBase) (a : ModeID) : setType basis (setType basis a) = setType basis a := by
  unfold setType
  split_ifs <;> rfl

theorem setType_forceTilt (basis : ModeBase) {a : ModeID} (h : setType basis a = a) :
    setType basis (forceTilt a) = forceTilt a := by
  unfold forceTilt
  split_ifs
  · rfl
  · exact h

theorem forceTilt_forceTilt (a : ModeID) : forceTilt (forceTilt a) = forceTilt a := by
  unfold forceTilt
  split_ifs <;> rfl

/-- **Modes that are complete stay as they are.** -/
theorem completeModes_settled (basis : ModeBase) (n : ℕ) (file : Str) {modes : List ModeID}
    (hset : modes.map (setType basis) = modes) :
    completeModes n file ((completeModes n file modes).map (setType basis)) = completeModes n file modes := by
  have hpushed : ∀ a : ModeID, a.type ≠ .MB_NONE → [a].map (setType basis) = [a] := by
    intro a ha
    rw [List.map_singleton, setType, if_neg ha]
  have hnil : ∀ a : ModeID, ¬(n = 1 ∧ [a] = []) := fun a h => List.cons_ne_nil a [] h.2
  unfold completeModes
  by_cases hfile : file ≠ []
  · rw [if_pos hfile, if_pos hfile]
    by_cases hone : n = 1 ∧ modes = []
    · rw [if_pos hone, hpushed _ (by decide), if_neg (hnil _)]
    · rw [if_neg hone, hset, if_neg hone]
  · rw [if_neg hfile, if_neg hfile]
    by_cases hone : n = 1 ∧ modes = []
    · rw [if_pos hone]
      exact (if_neg (hnil _)).symm ▸ rfl
    · rw [if_neg hone]
      have htilt : (modes.map forceTilt).map (setType basis) = modes.map forceTilt := by
        rw [List.map_map]
        refine List.map_congr_left fun a ha => setType_forceTilt basis ?_
        exact List.map_inj_left.1 (hset.trans (List.map_id modes).symm) a ha
      have hone' : ¬(n = 1 ∧ modes.map forceTilt = []) := fun h => hone ⟨h.1, List.map_eq_nil_iff.1 h.2⟩
      rw [htilt, if_neg hone', List.map_map]
      exact List.map_congr_left fun a _ => forceTilt_forceTilt a

theorem zeroBased_settled {clip clip' : List (BitVec 16)} (h : zeroBased clip = some clip') :
    zeroBased (clip'.map (· + 1)) = some clip' := by
  unfold zeroBased at h
  split_ifs at h with hlen hzero
  · obtain rfl := Option.some.inj h
    rfl
  · obtain rfl := Option.some.inj h
    have hback : (clip.map (· - 1)).map (· + 1) = clip := by
      rw [List.map_map]
      exact (List.map_congr_left fun x _ => BitVec.sub_add_cancel x 1).trans (List.map_id clip)
    rw [hback, zeroBased, if_neg hlen, if_neg hzero]

/-- A basis is the default, or one that there is a text for. -/
theorem basis_cases (text : Option Str) (default : ModeBase) :
    getElse ModeBaseTranslator.get_value text default = default ∨
      ModeBaseTranslator.Read (getElse ModeBaseTranslator.get_value text default) := by
  cases text with
  | none => exact .inl rfl
  | some text =>
    rw [getElse, Option.bind_some]
    cases hread : ModeBaseTranslator.get_value text with
    | none => exact .inl rfl
    | some basis => exact .inr (ModeBaseTranslator.read_of_get hread)

theorem Parsed.settled (h : Parsed L d c) : Settled L d c := by
  obtain ⟨fuel, tree, c₀, hparse, hconvert⟩ := h
  obtain ⟨clip, hclip, rfl⟩ := Option.map_eq_some_iff.1 hconvert
  have h := parse_iff.1 hparse
  obtain ⟨modes, -, hmodes⟩ := h.diversityModes
  obtain ⟨mmFile, -, hmmFile, -⟩ := h.modulation
  have hset : ((modes.setDefaultModeType c₀.diversityBasis).modes).map (setType c₀.diversityBasis) =
      (modes.setDefaultModeType c₀.diversityBasis).modes := by
    rw [ModeList.setDefaultModeType, List.map_map]
    exact List.map_congr_left fun a _ => setType_setType _ a
  refine {
    diversityBasis := ?_, defaultType := hmodes ▸ rfl, complete := ?_, incomplete := ?_
    alignClip := zeroBased_settled hclip, imageDataDir := h.imageDataDir ▸ L.cleanPath_idem _
    gainFile := h.gainFile ▸ cleanFile_idem L _, responseFile := h.responseFile ▸ cleanFile_idem L _
    backgainFile := h.backgainFile ▸ cleanFile_idem L _, psfFile := h.psfFile ▸ cleanFile_idem L _
    mmFile := hmmFile ▸ cleanFile_idem L _, xOffsetFile := h.xOffsetFile ▸ cleanFile_idem L _
    yOffsetFile := h.yOffsetFile ▸ cleanFile_idem L _ }
  · change c₀.diversityBasis = d.diversityBasis ∨ _
    rw [← h.diversityBasis]
    exact basis_cases _ _
  · change completeModes c₀.diversityValues.length c₀.diversityModeFile
      (c₀.diversityModes.setDefaultModeType c₀.diversityBasis).modes = c₀.diversityModes.modes
    rw [← hmodes]
    exact completeModes_settled _ _ _ hset
  · change (if c₀.incomplete != 0 then 1 else 0) = c₀.incomplete
    rw [← h.incomplete]
    cases getBool (tree .INCOMPLETE) (d.incomplete != 0) <;> rfl

/-! ## The round trip -/

variable (L) in
/-- The flags, numbers, strings and lists of two channels are the same, those of floating-point numbers up
to `==`; the clip is left out. -/
structure SameButClip (c c' : ChannelCfg F D) : Prop where
  diversityBasis : c.diversityBasis = c'.diversityBasis
  diversityModes : c.diversityModes = c'.diversityModes
  diversityValues : c.diversityValues.isEqv c'.diversityValues (DiversityValue.eq L) = true
  diversityModeFile : c.diversityModeFile = c'.diversityModeFile
  divModeFileNormalize : c.divModeFileNormalize = c'.divModeFileNormalize
  noRestore : c.noRestore = c'.noRestore
  alignMap : c.alignMap.isEqv c'.alignMap L.float.eq = true
  alignMapX : c.alignMapX.isEqv c'.alignMapX L.float.eq = true
  alignMapY : c.alignMapY.isEqv c'.alignMapY L.float.eq = true
  borderClip : c.borderClip = c'.borderClip
  incomplete : c.incomplete = c'.incomplete
  subImagePosXY : c.subImagePosXY = c'.subImagePosXY
  subImagePosX : c.subImagePosX = c'.subImagePosX
  subImagePosY : c.subImagePosY = c'.subImagePosY
  discard : c.discard = c'.discard
  imageDataDir : c.imageDataDir = c'.imageDataDir
  imageTemplate : c.imageTemplate = c'.imageTemplate
  darkTemplate : c.darkTemplate = c'.darkTemplate
  gainFile : c.gainFile = c'.gainFile
  responseFile : c.responseFile = c'.responseFile
  backgainFile : c.backgainFile = c'.backgainFile
  psfFile : c.psfFile = c'.psfFile
  mmFile : c.mmFile = c'.mmFile
  mmRow : c.mmRow = c'.mmRow
  mmWidth : c.mmWidth = c'.mmWidth
  xOffsetFile : c.xOffsetFile = c'.xOffsetFile
  yOffsetFile : c.yOffsetFile = c'.yOffsetFile
  imageNumberOffset : c.imageNumberOffset = c'.imageNumberOffset
  fileNumbers : c.fileNumbers = c'.fileNumbers
  waveFrontList : c.waveFrontList = c'.waveFrontList
  darkNumbers : c.darkNumbers = c'.darkNumbers
  stokesWeights : c.stokesWeights.isEqv c'.stokesWeights L.float.eq = true

variable (L) in
/-- The flags, numbers, strings and lists of two channels are the same. -/
structure Same (c c' : ChannelCfg F D) : Prop extends SameButClip L c c' where
  alignClip : c.alignClip = c'.alignClip

variable (L) in
/-- Printed, parsed again and converted again, the channel is the same. -/
def RoundTrips (d c : ChannelCfg F D) : Prop :=
  ∃ fuel c' c'', parseProperties L fuel (getProperties L c d) d = some c' ∧ c'.convertClip = some c'' ∧ Same L c'' c

variable (L) in
/-- What a channel that was parsed needs to come back. -/
structure Restorable (d c : ChannelCfg F D) : Prop where
  diversityModes : c.diversityModes.modes ≠ d.diversityModes.modes →
    ModesBack L c.diversityBasis (completeModes c.diversityValues.length c.diversityModeFile) c.diversityModes
  diversityValues : c.diversityValues.isEqv d.diversityValues (DiversityValue.eq L) = false →
    ValuesBack L c.diversityValues
  alignMap : c.alignMap.isEqv d.alignMap L.float.eq = false → FloatsBack L c.alignMap
  alignMapX : c.alignMapX.isEqv d.alignMapX L.float.eq = false → FloatsBack L c.alignMapX
  alignMapY : c.alignMapY.isEqv d.alignMapY L.float.eq = false → FloatsBack L c.alignMapY
  stokesWeights : c.stokesWeights.isEqv d.stokesWeights L.float.eq = false → FloatsBack L c.stokesWeights
  -- a clip that is not put would be converted twice
  alignClip : c.alignClip = d.alignClip → c.alignClip = []
  discard : c.discard ≠ d.discard → NumbersBack c.discard
  subImagePosXY : c.subImagePosXY ≠ d.subImagePosXY → NumbersBack c.subImagePosXY
  -- `SIM_XY` hides the others
  hidden : c.subImagePosXY ≠ [] → c.subImagePosX = d.subImagePosX ∧ c.subImagePosY = d.subImagePosY
  subImagePosX : c.subImagePosX ≠ d.subImagePosX → NumbersBack c.subImagePosX
  subImagePosY : c.subImagePosY ≠ d.subImagePosY → NumbersBack c.subImagePosY
  imageDataDir : c.imageDataDir = [] → L.cleanPath "./".toList = []
  -- an empty list asks for `IMAGE_NUMS`, and falls back
  fileNumbers : c.fileNumbers ≠ d.fileNumbers → c.fileNumbers ≠ [] ∧ NumbersBack c.fileNumbers
  waveFrontList : c.waveFrontList ≠ d.waveFrontList → NumbersBack c.waveFrontList
  darkNumbers : c.darkNumbers ≠ d.darkNumbers → NumbersBack c.darkNumbers
  -- without a matrix, the other settings of the modulation are forced
  modulation : c.mmFile = [] → c.mmRow = 1 ∧ c.mmWidth = 1 ∧ c.stokesWeights.length = 1
  -- the offset files do not fall back to the defaults
  xOffsetFile : c.xOffsetFile = d.xOffsetFile → c.xOffsetFile = []
  yOffsetFile : c.yOffsetFile = d.yOffsetFile → c.yOffsetFile = []

theorem parseModes_printed {modes : ModeList} : parseModes L fuel (getProperties L c d) d = some modes ↔
    getOr (getModes L fuel) (getProperties L c d .DIV_MODES) d.diversityModes = some modes := Iff.rfl

theorem parseSubImages_printed {x y : List (BitVec 16)} :
    parseSubImages L fuel (getProperties L c d) d = some (x, y) ↔
      getOr (getNumbers L fuel) (getProperties L c d .SIM_X) d.subImagePosX = some x ∧
      getOr (getNumbers L fuel) (getProperties L c d .SIM_Y) d.subImagePosY = some y := by
  constructor
  · intro h
    obtain ⟨x', hx, h⟩ := Option.bind_eq_some_iff.1 h
    obtain ⟨y', hy, h⟩ := Option.bind_eq_some_iff.1 h
    obtain ⟨rfl, rfl⟩ := Prod.mk.inj (Option.some.inj h)
    exact ⟨hx, hy⟩
  · rintro ⟨hx, hy⟩
    rw [parseSubImages, hx, hy]
    rfl

/-- Patch coordinates of one axis come back where they are not hidden, or are those of the defaults. -/
theorem subImage_iff {hidden : Bool} {x dx : List (BitVec 16)} :
    getOr (getNumbers L fuel) (putUnless (hidden || x == dx) (VectorTranslator.put_value x)) dx = some x ↔
      (hidden = true → x = dx) ∧ (hidden = false → x ≠ dx →
        getNumbers L fuel (VectorTranslator.put_value x) = some x) := by
  cases hidden with
  | true =>
    rw [Bool.true_or, getOr_putUnless_iff]
    exact ⟨fun h => ⟨fun _ => (h.1 rfl).symm, nofun⟩, fun h => ⟨fun _ => (h.1 rfl).symm, nofun⟩⟩
  | false =>
    rw [Bool.false_or, getOr_put_iff]
    exact ⟨fun h => ⟨nofun, fun _ => h⟩, fun h => h.2 rfl⟩

theorem fileNumbers_iff : parseFileNumbers L fuel (getProperties L c d) d = some c.fileNumbers ↔
    (c.fileNumbers ≠ d.fileNumbers → c.fileNumbers ≠ [] ∧
      getNumbers L fuel (VectorTranslator.put_value c.fileNumbers) = some c.fileNumbers) := by
  have hprinted : parseFileNumbers L fuel (getProperties L c d) d =
      (getOr (getNumbers L fuel) (putUnless (c.fileNumbers == d.fileNumbers)
        (VectorTranslator.put_value c.fileNumbers)) d.fileNumbers).bind fun numbers =>
          if numbers = [] then some d.fileNumbers else some numbers := rfl
  rw [hprinted]
  by_cases hsame : c.fileNumbers = d.fileNumbers
  · rw [hsame, beq_self_eq_true]
    refine ⟨fun _ h => absurd rfl h, fun _ => ?_⟩
    rw [putUnless, if_pos rfl, getOr, Option.elim_none, Option.bind_some]
    exact ite_self _
  · rw [beq_eq_false_iff_ne.2 hsame]
    constructor
    · intro h _
      obtain ⟨numbers, hread, h⟩ := Option.bind_eq_some_iff.1 h
      by_cases hnil : numbers = []
      · rw [if_pos hnil] at h
        exact absurd (Option.some.inj h).symm hsame
      · rw [if_neg hnil] at h
        obtain rfl := Option.some.inj h
        exact ⟨hnil, hread⟩
    · intro h
      obtain ⟨hnil, hread⟩ := h hsame
      rw [putUnless, if_neg Bool.false_ne_true, getOr, Option.elim_some, hread, Option.bind_some, if_neg hnil]

theorem getString_put (s ds : Str) : getString (putUnless (s == ds) s) ds = s :=
  @getElse_put _ _ some s _ _ id ds rfl

theorem zeroBased_self_iff {clip : List (BitVec 16)} (h : zeroBased (clip.map (· + 1)) = some clip) :
    zeroBased clip = some clip ↔ clip = [] := by
  constructor
  · intro hself
    by_contra hnil
    have hlen : ¬clip.length ≠ 4 := by
      intro hne
      rw [zeroBased, List.length_map, if_pos hne] at h
      exact hnil (Option.some.inj h).symm
    rw [zeroBased, if_neg hlen] at hself
    split_ifs at hself
    -- four numbers are not what they are less one
    obtain ⟨x, rest, rfl⟩ := List.exists_cons_of_ne_nil hnil
    have hx : x - 1 = x := (List.cons.inj (Option.some.inj hself)).1
    exact absurd (BitVec.toNat_inj.2 hx) (by rw [BitVec.toNat_sub]; have := x.isLt; simp; omega)
  · rintro rfl
    rfl

theorem resizeOne_of_length {weights : List F} (h : weights.length = 1) : resizeOne L weights = weights := by
  obtain ⟨x, rfl⟩ := List.length_eq_one_iff.1 h
  rfl

theorem hidden_iff : ((c.subImagePosXY != []) = true ↔ c.subImagePosXY ≠ []) ∧
    ((c.subImagePosXY != []) = false ↔ c.subImagePosXY = []) :=
  ⟨bne_iff_ne, by rw [bne_eq_false_iff_eq]⟩

theorem same_convertClip_iff {c'' : ChannelCfg F D} (h : c'.convertClip = some c'') :
    Same L c'' c ↔ SameButClip L c' c ∧ zeroBased c'.alignClip = some c.alignClip := by
  obtain ⟨clip, hclip, rfl⟩ := Option.map_eq_some_iff.1 h
  rw [hclip, Option.some.injEq]
  exact ⟨fun hsame => ⟨{ hsame with }, hsame.alignClip⟩, fun ⟨hbut, heq⟩ => { hbut with alignClip := heq }⟩

/-- **What came back was restorable.** -/
theorem restorable_of_same (hset : Settled L d c) (h : ReadFrom L fuel (getProperties L c d) d c')
    (hclip : zeroBased c'.alignClip = some c.alignClip) (hsame : SameButClip L c' c) : Restorable L d c := by
  have hsubImages := parseSubImages_printed.1 h.subImages
  rw [hsame.subImagePosX, hsame.subImagePosY] at hsubImages
  have hx := subImage_iff.1 hsubImages.1
  have hy := subImage_iff.1 hsubImages.2
  have hfiles := h.fileNumbers
  rw [hsame.fileNumbers] at hfiles
  have hnumbers := fileNumbers_iff.1 hfiles
  obtain ⟨mmFile, hmmFile, -, hrow, hwidth, weights, hweights, hstokes⟩ := h.modulation
  unfold getProperties at hmmFile
  rw [getString_put] at hmmFile
  subst hmmFile
  have hlist : ∀ {w : ℕ} {v v' dv : List (BitVec w)},
      getOr (getNumbers L fuel) (putUnless (v == dv) (VectorTranslator.put_value v)) dv = some v' → v' = v →
        v ≠ dv → NumbersBack v := fun hv heq hne => numbersBack_of_read L (getOr_put_iff.1 (heq ▸ hv) hne)
  refine {
    diversityModes := fun hne => ?_
    diversityValues := fun hne => (valuesBack_iff L).2 ((getOr_list_iff ?_ (getDiversityValues_joined L _)).1
      ⟨_, h.diversityValues, hsame.diversityValues⟩ hne)
    alignMap := (getOr_list_iff L.float.eq_symm (getFloats_joined L _)).1 ⟨_, h.alignMap, hsame.alignMap⟩
    alignMapX := (getOr_list_iff L.float.eq_symm (getFloats_joined L _)).1 ⟨_, h.alignMapX, hsame.alignMapX⟩
    alignMapY := (getOr_list_iff L.float.eq_symm (getFloats_joined L _)).1 ⟨_, h.alignMapY, hsame.alignMapY⟩
    stokesWeights := ?_, alignClip := fun heq => ?_
    discard := hlist h.discard hsame.discard, subImagePosXY := hlist h.subImagePosXY hsame.subImagePosXY
    hidden := fun hne => ⟨hx.1 (hidden_iff.1.2 hne), hy.1 (hidden_iff.1.2 hne)⟩
    subImagePosX := fun hne => ?_, subImagePosY := fun hne => ?_, imageDataDir := fun hnil => ?_
    fileNumbers := fun hne => ⟨(hnumbers hne).1, numbersBack_of_read L (hnumbers hne).2⟩
    waveFrontList := hlist h.waveFrontList hsame.waveFrontList
    darkNumbers := hlist h.darkNumbers hsame.darkNumbers
    modulation := fun hnil => ?_, xOffsetFile := fun heq => ?_, yOffsetFile := fun heq => ?_ }
  · obtain ⟨modes, hmodes, hcomplete⟩ := h.diversityModes
    have hread := parseModes_printed.1 hmodes
    unfold getProperties at hread
    rw [beq_eq_false_iff_ne.2 hne] at hread
    refine ⟨fuel, Option.map_eq_some_iff.2 ⟨modes, hread, ?_⟩⟩
    rw [← hsame.diversityBasis, ← hsame.diversityModeFile, ← length_of_isEqv hsame.diversityValues,
        ← hsame.diversityModes, ← hcomplete]
  · exact DiversityValue.eq_symm L
  · intro hne
    have hread := hweights
    unfold getProperties at hread
    rw [hne] at hread
    have hlength := castAll_length ((getFloats_joined L _).symm.trans hread)
    refine (getOr_list_iff L.float.eq_symm (getFloats_joined L _)).1 ⟨weights, hweights, ?_⟩ hne
    have hback := hsame.stokesWeights
    rw [← hstokes] at hback
    by_cases hnil : c.mmFile ≠ []
    · rwa [if_pos hnil] at hback
    · rw [if_neg hnil] at hback
      -- the one weight that is left is all that was written
      rw [List.length_map, ← length_of_isEqv hback] at hlength
      rwa [resizeOne_of_length hlength] at hback
  · have hclip' := h.alignClip
    unfold getProperties at hclip'
    rw [heq, beq_self_eq_true] at hclip'
    rw [← Option.some.inj hclip', ← heq] at hclip
    exact (zeroBased_self_iff hset.alignClip).1 hclip
  · by_cases hxy : c.subImagePosXY = []
    · exact numbersBack_of_read L (hx.2 (hidden_iff.2.2 hxy) hne)
    · exact absurd (hx.1 (hidden_iff.1.2 hxy)) hne
  · by_cases hxy : c.subImagePosXY = []
    · exact numbersBack_of_read L (hy.2 (hidden_iff.2.2 hxy) hne)
    · exact absurd (hy.1 (hidden_iff.1.2 hxy)) hne
  · have hdir := h.imageDataDir
    unfold getProperties at hdir
    rw [getString_put, hsame.imageDataDir, hnil, dataDir, if_pos rfl] at hdir
    exact hdir
  · rw [if_neg (not_not.2 hnil)] at hrow hwidth hstokes
    refine ⟨hsame.mmRow ▸ hrow.symm, hsame.mmWidth ▸ hwidth.symm, ?_⟩
    rw [← length_of_isEqv hsame.stokesWeights, ← hstokes]
    rfl
  · have hoffset := h.xOffsetFile
    unfold getProperties at hoffset
    rw [heq, beq_self_eq_true, hsame.xOffsetFile] at hoffset
    exact hoffset.symm
  · have hoffset := h.yOffsetFile
    unfold getProperties at hoffset
    rw [heq, beq_self_eq_true, hsame.yOffsetFile] at hoffset
    exact hoffset.symm

theorem offset_back {x dx : Str} (h : x = dx → x = []) (hclean : L.cleanFile x = x) :
    L.cleanFile (getString (putUnless (x == dx) x) []) = x := by
  by_cases hsame : x = dx
  · rw [beq_iff_eq.2 hsame, h hsame]
    rfl
  · rw [beq_eq_false_iff_ne.2 hsame]
    exact hclean

theorem basis_back (hset : Settled L d c) :
    getElse ModeBaseTranslator.get_value (getProperties L c d .DIV_BASIS) d.diversityBasis = c.diversityBasis := by
  rcases hset.diversityBasis with hsame | hread
  · unfold getProperties
    rw [beq_iff_eq.2 hsame, hsame]
    rfl
  · exact getElse_put (ModeBaseTranslator.get_put hread)

theorem clip_read : getOr (getInt16s L) (getProperties L c d .ALIGN_CLIP) d.alignClip =
    some (if c.alignClip = d.alignClip then d.alignClip else c.alignClip.map (· + 1)) := by
  unfold getProperties
  by_cases hsame : c.alignClip = d.alignClip
  · rw [beq_iff_eq.2 hsame, if_pos hsame]
    rfl
  · rw [beq_eq_false_iff_ne.2 hsame, if_neg hsame]
    exact getInt16s_joined L _

theorem dataDir_back (hset : Settled L d c) (h : c.imageDataDir = [] → L.cleanPath "./".toList = []) :
    dataDir L (getString (getProperties L c d .IMAGE_DATA_DIR) d.imageDataDir) = c.imageDataDir := by
  unfold getProperties
  rw [getString_put, dataDir]
  by_cases hnil : c.imageDataDir = []
  · rw [if_pos hnil, h hnil, hnil]
  · rw [if_neg hnil, hset.imageDataDir]

theorem incomplete_back (hset : Settled L d c) :
    (if getBool (getProperties L c d .INCOMPLETE) (d.incomplete != 0) then 1 else 0) = c.incomplete := by
  unfold getProperties
  rw [getBool_put]
  by_cases hsame : c.incomplete = d.incomplete
  · rw [beq_iff_eq.2 hsame, if_pos rfl, ← hsame]
    exact hset.incomplete
  · rw [beq_eq_false_iff_ne.2 hsame, if_neg Bool.false_ne_true]
    exact hset.incomplete

/-- The modes of a parsed channel come back if they have a type each and their folded runs are readable. -/
theorem Settled.modesBack (hset : Settled L d c)
    (htypes : ∀ a ∈ c.diversityModes.modes, ModeListTranslator.Known a.type)
    (hread : ∀ seg ∈ ModeListTranslator.runs c.diversityModes.modes, seg.Readable) :
    ModesBack L c.diversityBasis (completeModes c.diversityValues.length c.diversityModeFile) c.diversityModes := by
  have htyped : (c.diversityModes.setDefaultModeType c.diversityBasis).modes = c.diversityModes.modes := by
    refine (List.map_congr_left fun a ha => ?_).trans (List.map_id _)
    refine if_neg fun hnone => ?_
    rcases htypes a ha with hknown | hknown <;> exact ModeBase.noConfusion (hnone.symm.trans hknown)
  have hfinish := hset.complete
  rw [htyped] at hfinish
  have hback := modesBack_of_readable L htypes hread hfinish
  rw [hset.defaultType] at hback
  exact hback

theorem modes_back (hset : Settled L d c) (h : c.diversityModes.modes ≠ d.diversityModes.modes →
      ModesBack L c.diversityBasis (completeModes c.diversityValues.length c.diversityModeFile) c.diversityModes) :
    ∃ N, ∀ fuel, N ≤ fuel → ∃ modes, parseModes L fuel (getProperties L c d) d = some modes ∧
      ⟨completeModes c.diversityValues.length c.diversityModeFile (modes.setDefaultModeType c.diversityBasis).modes,
        c.diversityBasis⟩ = c.diversityModes := by
  have hmodes : ∀ ms, ms = c.diversityModes.modes → (⟨ms, c.diversityBasis⟩ : ModeList) = c.diversityModes := by
    rintro ms rfl
    rw [← hset.defaultType]
  by_cases hsame : c.diversityModes.modes = d.diversityModes.modes
  · refine ⟨0, fun fuel _ => ⟨d.diversityModes, parseModes_printed.2 ?_, hmodes _ ?_⟩⟩
    · unfold getProperties
      rw [beq_iff_eq.2 hsame]
      rfl
    · rw [← hset.complete, ModeList.setDefaultModeType, ModeList.setDefaultModeType, hsame]
  · obtain ⟨N, hN⟩ := read_of_modesBack L (h hsame)
    refine ⟨N, fun fuel hfuel => ?_⟩
    obtain ⟨modes, hread, hfinish⟩ := hN fuel hfuel
    refine ⟨modes, parseModes_printed.2 ?_, hmodes _ ?_⟩
    · unfold getProperties
      rw [beq_eq_false_iff_ne.2 hsame]
      exact hread
    · exact hfinish

/-- **What is restorable comes back, given enough rounds.** -/
theorem same_of_restorable (hset : Settled L d c) (h : Restorable L d c) : ∃ N, ∀ fuel, N ≤ fuel →
    ∃ c', ReadFrom L fuel (getProperties L c d) d c' ∧ zeroBased c'.alignClip = some c.alignClip ∧
      SameButClip L c' c := by
  obtain ⟨values, hvalues, hvaluesSame⟩ := (getOr_list_iff (DiversityValue.eq_symm L) (getDiversityValues_joined L _)).2
    fun hne => (valuesBack_iff L).1 (h.diversityValues hne)
  have hfloats : ∀ {v dv : List F}, (v.isEqv dv L.float.eq = false → FloatsBack L v) →
      ∃ out, getOr (getFloats L) (putUnless (v.isEqv dv L.float.eq) (joined L.float.text v)) dv = some out ∧
        out.isEqv v L.float.eq = true := (getOr_list_iff L.float.eq_symm (getFloats_joined L _)).2
  obtain ⟨alignMap, halignMap, halignMapSame⟩ := hfloats h.alignMap
  obtain ⟨alignMapX, halignMapX, halignMapXSame⟩ := hfloats h.alignMapX
  obtain ⟨alignMapY, halignMapY, halignMapYSame⟩ := hfloats h.alignMapY
  obtain ⟨weights, hweights, hweightsSame⟩ := hfloats h.stokesWeights
  obtain ⟨N₁, hmodes⟩ := modes_back hset h.diversityModes
  obtain ⟨N₂, hdiscard⟩ := getOr_numbers L h.discard
  obtain ⟨N₃, hposXY⟩ := getOr_numbers L h.subImagePosXY
  obtain ⟨N₄, hposX⟩ := getOr_numbers L h.subImagePosX
  obtain ⟨N₅, hposY⟩ := getOr_numbers L h.subImagePosY
  obtain ⟨N₆, hfiles⟩ := getOr_numbers L fun hne => (h.fileNumbers hne).2
  obtain ⟨N₇, hwaves⟩ := getOr_numbers L h.waveFrontList
  obtain ⟨N₈, hdarks⟩ := getOr_numbers L h.darkNumbers
  refine ⟨N₁ + N₂ + N₃ + N₄ + N₅ + N₆ + N₇ + N₈, fun fuel hfuel => ?_⟩
  obtain ⟨modes, hmodes, hcomplete⟩ := hmodes fuel (by omega)
  have hvisible : ∀ {x dx : List (BitVec 16)}, (c.subImagePosXY ≠ [] → x = dx) →
      getOr (getNumbers L fuel) (putUnless (x == dx) (VectorTranslator.put_value x)) dx = some x →
      getOr (getNumbers L fuel) (putUnless (c.subImagePosXY != [] || x == dx) (VectorTranslator.put_value x))
        dx = some x :=
    fun hhidden hread => subImage_iff.2 ⟨fun hxy => hhidden (hidden_iff.1.1 hxy), fun _ => getOr_put_iff.1 hread⟩
  have hmodulation : (if c.mmFile ≠ [] then getElse (L.extract 8) (getProperties L c d .MMROW) d.mmRow else 1) =
    c.mmRow ∧
      (if c.mmFile ≠ [] then getElse (L.extract 8) (getProperties L c d .MMWIDTH) d.mmWidth else 1) = c.mmWidth ∧
      (if c.mmFile ≠ [] then weights else resizeOne L weights) = weights := by
    by_cases hnil : c.mmFile ≠ []
    · rw [if_pos hnil, if_pos hnil, if_pos hnil]
      exact ⟨getElse_decimal L _ _, getElse_decimal L _ _, rfl⟩
    · obtain ⟨hrow, hwidth, hlength⟩ := h.modulation (not_not.1 hnil)
      rw [if_neg hnil, if_neg hnil, if_neg hnil]
      exact ⟨hrow.symm, hwidth.symm, resizeOne_of_length ((length_of_isEqv hweightsSame).trans hlength)⟩
  refine ⟨{ c with
    rotationAngle := getElse L.double.extract (getProperties L c d .ANGLE) d.rotationAngle
    noiseFudge := getElse L.double.extract (getProperties L c d .NF) d.noiseFudge
    weight := getElse L.double.extract (getProperties L c d .WEIGHT) d.weight
    diversityValues := values, alignMap := alignMap, alignMapX := alignMapX, alignMapY := alignMapY
    alignClip := if c.alignClip = d.alignClip then d.alignClip else c.alignClip.map (· + 1)
    stokesWeights := weights }, ?_, ?_, ?_⟩
  · exact {
      rotationAngle := rfl, noiseFudge := rfl, weight := rfl, noRestore := getBool_put_default _ _
      diversityBasis := basis_back hset, diversityValues := hvalues
      diversityModes := ⟨modes, hmodes, by rw [length_of_isEqv hvaluesSame]; exact hcomplete⟩
      diversityModeFile := getString_put _ _, divModeFileNormalize := getBool_put_default _ _
      alignMap := halignMap, alignMapX := halignMapX, alignMapY := halignMapY, alignClip := clip_read
      discard := hdiscard fuel (by omega), borderClip := getElse_decimal L _ _
      incomplete := incomplete_back hset, subImagePosXY := hposXY fuel (by omega)
      subImages := parseSubImages_printed.2 ⟨hvisible (fun hne => (h.hidden hne).1) (hposX fuel (by omega)),
        hvisible (fun hne => (h.hidden hne).2) (hposY fuel (by omega))⟩
      imageDataDir := dataDir_back hset h.imageDataDir, imageTemplate := getString_put _ _, darkTemplate :=
        getString_put _ _
      gainFile := (congrArg L.cleanFile (getString_put _ _)).trans hset.gainFile
      responseFile := (congrArg L.cleanFile (getString_put _ _)).trans hset.responseFile
      backgainFile := (congrArg L.cleanFile (getString_put _ _)).trans hset.backgainFile
      psfFile := (congrArg L.cleanFile (getString_put _ _)).trans hset.psfFile
      modulation := ⟨c.mmFile, getString_put _ _, hset.mmFile, hmodulation.1, hmodulation.2.1, weights, hweights,
        hmodulation.2.2⟩
      xOffsetFile := offset_back h.xOffsetFile hset.xOffsetFile
      yOffsetFile := offset_back h.yOffsetFile hset.yOffsetFile
      imageNumberOffset := getElse_decimal L _ _
      fileNumbers := fileNumbers_iff.2 fun hne => ⟨(h.fileNumbers hne).1, getOr_put_iff.1 (hfiles fuel (by omega)) hne⟩
      waveFrontList := hwaves fuel (by omega), darkNumbers := hdarks fuel (by omega) }
  · by_cases hsame : c.alignClip = d.alignClip
    · rw [if_pos hsame, ← hsame]
      exact (zeroBased_self_iff hset.alignClip).2 (h.alignClip hsame)
    · rw [if_neg hsame]
      exact hset.alignClip
  · exact {
      diversityBasis := rfl, diversityModes := rfl, diversityValues := hvaluesSame, diversityModeFile := rfl
      divModeFileNormalize := rfl, noRestore := rfl, alignMap := halignMapSame, alignMapX := halignMapXSame
      alignMapY := halignMapYSame, borderClip := rfl, incomplete := rfl, subImagePosXY := rfl, subImagePosX := rfl
      subImagePosY := rfl, discard := rfl, imageDataDir := rfl, imageTemplate := rfl, darkTemplate := rfl
      gainFile := rfl, responseFile := rfl, backgainFile := rfl, psfFile := rfl, mmFile := rfl, mmRow := rfl
      mmWidth := rfl, xOffsetFile := rfl, yOffsetFile := rfl, imageNumberOffset := rfl, fileNumbers := rfl
      waveFrontList := rfl, darkNumbers := rfl, stokesWeights := hweightsSame }

/-- **A channel that was parsed comes back exactly if it is restorable.** -/
theorem roundTrips_iff_restorable (h : Parsed L d c) : RoundTrips L d c ↔ Restorable L d c := by
  constructor
  · rintro ⟨fuel, c', c'', hparse, hconvert, hsame⟩
    obtain ⟨hbut, hclip⟩ := (same_convertClip_iff hconvert).1 hsame
    exact restorable_of_same h.settled (parse_iff.1 hparse) hclip hbut
  · intro hrestorable
    obtain ⟨N, hN⟩ := same_of_restorable h.settled hrestorable
    obtain ⟨c', hread, hclip, hbut⟩ := hN N le_rfl
    have hconvert : c'.convertClip = some { c' with alignClip := c.alignClip } := by
      rw [convertClip, hclip, Option.map_some]
    exact ⟨N, c', _, parse_iff.2 hread, hconvert, (same_convertClip_iff hconvert).2 ⟨hbut, hclip⟩⟩

end ChannelCfg

end Redux.Momfbd.Properties
