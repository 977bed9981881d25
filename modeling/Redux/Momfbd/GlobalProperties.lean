import Redux.Momfbd.ObjectProperties

/-!
# Momfbd.GlobalProperties — a job as properties

`parseProperties` and `getProperties` of `GlobalCfg`, read into an object that is new.  Here, too, some keys do
not fall back to the defaults: the flags of the run are only ever set, the normalization and the initial files
are forgotten, no basis cannot be said, and modes that are to be sorted are sorted again.
-/

namespace Redux.Momfbd.Properties

open Redux.Util Redux.Lib

/-- The flags of `runFlags`, by their keys. -/
inductive RunFlag
  | CALIBRATE | DONT_MATCH_IMAGE_NUMS | FAST_QR | FIT_PLANE | FLATFIELD | GLOBAL_NOISE | NEW_CONSTRAINTS | NO_CLIP
  | NO_CONSTRAINTS | NO_FILTER | OVERWRITE | NOSWAP | OLD_NS | SORT_MODES
  deriving DecidableEq

namespace RunFlag

/-- `RF_CALIBRATE` and so on; `OVERWRITE` is `RF_FORCE_WRITE`. -/
def bit : RunFlag → BitVec 16
  | CALIBRATE => 1
  | DONT_MATCH_IMAGE_NUMS => 2
  | FAST_QR => 4
  | FIT_PLANE => 8
  | FLATFIELD => 16
  | GLOBAL_NOISE => 32
  | NEW_CONSTRAINTS => 64
  | NO_CLIP => 128
  | NO_CONSTRAINTS => 256
  | NO_FILTER => 512
  | OVERWRITE => 1024
  | NOSWAP => 2048
  | OLD_NS => 4096
  | SORT_MODES => 8192

def all : List RunFlag :=
  [CALIBRATE, DONT_MATCH_IMAGE_NUMS, FAST_QR, FIT_PLANE, FLATFIELD, GLOBAL_NOISE, NEW_CONSTRAINTS, NOSWAP, NO_CLIP,
    NO_CONSTRAINTS, NO_FILTER, OLD_NS, OVERWRITE, SORT_MODES]

theorem mem_all (f : RunFlag) : f ∈ all := by
  cases f <;> decide

theorem separate : Separate bit all := by decide

theorem single (f : RunFlag) : ∃ i, f.bit = BitVec.twoPow 16 i := by
  cases f
  exacts [⟨0, rfl⟩, ⟨1, rfl⟩, ⟨2, rfl⟩, ⟨3, rfl⟩, ⟨4, rfl⟩, ⟨5, rfl⟩, ⟨6, rfl⟩, ⟨7, rfl⟩, ⟨8, rfl⟩, ⟨9, rfl⟩, ⟨10, rfl⟩,
    ⟨11, rfl⟩, ⟨12, rfl⟩, ⟨13, rfl⟩]

/-- The mask of the flags that are set. -/
def mask (set : RunFlag → Bool) : BitVec 16 := setFlags bit set all 0#16

theorem hasFlag_mask (set : RunFlag → Bool) (f : RunFlag) : hasFlag (mask set) f.bit = set f :=
  hasFlag_setFlags separate (mem_all f) BitVec.zero_and

theorem mask_congr {set set' : RunFlag → Bool} (h : ∀ f, set f = set' f) : mask set = mask set' :=
  setFlags_congr fun f _ => h f

end RunFlag

inductive DataType
  | DT_I08T | DT_I16T | DT_I32T | DT_I64T | DT_F32T | DT_F64T
  deriving DecidableEq

def DataType.value : DataType → ℕ
  | .DT_I08T => 0
  | .DT_I16T => 1
  | .DT_I32T => 2
  | .DT_I64T => 3
  | .DT_F32T => 4
  | .DT_F64T => 5

/-! ## Tags -/

def basisTags : List String := ["", "Zernike", "Karhunen-Loeve"]

def fpmTags : List String := ["", "median", "invdistweight", "horint"]

def normTags : List String := ["none", "obj_max_mean", "obj_max_median", "obj_median_median"]

def gmTags : List String := ["", "gradient_diff", "gradient_Vogel"]

def gsmTags : List String :=
  ["", "getstep_steepest_descent", "getstep_conjugate_gradient", "getstep_BFGS", "getstep_BFGS_inv"]

def dtTags : List String := ["byte", "short", "int", "int64", "float", "double"]

def fillpixMap : List (String × ℕ) := [("median", 1), ("invdistweight", 2), ("horint", 3)]

def gradientMap : List (String × ℕ) := [("gradient_diff", 1), ("gradient_Vogel", 2), ("diff", 1), ("vogel", 2)]

def getstepMap : List (String × ℕ) :=
  [("getstep_steepest_descent", 1), ("getstep_conjugate_gradient", 2), ("getstep_BFGS", 3), ("getstep_BFGS_inv", 4),
    ("steepest", 1), ("steepest_descent", 1), ("conjugate", 2), ("conjugate_gradient", 2), ("bfgs", 3), ("bfgsinv", 4),
    ("bfgs_inv", 4)]

def normMap : List (String × ℕ) :=
  [("none", 0), ("obj_max_mean", 1), ("obj_max_median", 2), ("obj_median_median", 3)]

/-- A method by its name; no name and names that are not known leave the default. -/
def parseMethod (m : List (String × ℕ)) (text : Option Str) (default : BitVec 8) : BitVec 8 :=
  let tmpString := ChannelCfg.getString text []
  let tmpInt := getFromMap tmpString m
  if tmpString ≠ [] ∧ tmpInt ≠ 0 then BitVec.ofNat 8 tmpInt else default

/-- A normalization by its name; a name that is not known is none, and `NORM_OBJ_MAX_MEAN` is for no name. -/
def parseNorm (text : Option Str) : BitVec 8 :=
  let tmpString := ChannelCfg.getString text []
  if tmpString ≠ [] then BitVec.ofNat 8 (getFromMap tmpString normMap) else 1

/-- `FLOAT` and `SHORT`, anything else is the default. -/
def parseDataType (text : Option Str) (default : DataType) : DataType :=
  let tmpString := ChannelCfg.getString text (tag dtTags default.value)
  if iequals tmpString "FLOAT".toList then .DT_F32T
  else if iequals tmpString "SHORT".toList then .DT_I16T
  else default

theorem getFromMap_mem {str : Str} {m : List (String × ℕ)} (h : getFromMap str m ≠ 0) :
    getFromMap str m ∈ m.map Prod.snd := by
  unfold getFromMap at h ⊢
  cases hfind : m.find? fun e => iequals e.1.toList str with
  | none => rw [hfind] at h; exact absurd rfl h
  | some e => exact List.mem_map_of_mem (List.mem_of_find?_eq_some hfind)

/-- A method is the default, or one that has a name. -/
theorem parseMethod_cases (m : List (String × ℕ)) (text : Option Str) (default : BitVec 8) :
    parseMethod m text default = default ∨ ∃ n ∈ m.map Prod.snd, parseMethod m text default = BitVec.ofNat 8 n := by
  rw [parseMethod]
  split_ifs with h
  · exact .inr ⟨_, getFromMap_mem h.2, rfl⟩
  · exact .inl rfl

/-- Methods that are written by their tags come back. -/
theorem method_back {m : List (String × ℕ)} {tags : List String} {x d : BitVec 8}
    (hx : x = d ∨ ∃ n ∈ m.map Prod.snd, x = BitVec.ofNat 8 n)
    (htags : ∀ n ∈ m.map Prod.snd, tag tags ((BitVec.ofNat 8 n).toNat % tags.length) ≠ [] ∧ n ≠ 0 ∧
      getFromMap (tag tags ((BitVec.ofNat 8 n).toNat % tags.length)) m = n) :
    parseMethod m (putUnless (x == d) (tag tags (x.toNat % tags.length))) d = x := by
  by_cases hsame : x = d
  · rw [beq_iff_eq.2 hsame, hsame]
    rfl
  · obtain ⟨n, hn, rfl⟩ := hx.resolve_left hsame
    obtain ⟨hne, hpos, hget⟩ := htags n hn
    rw [beq_eq_false_iff_ne.2 hsame, putUnless, if_neg Bool.false_ne_true, parseMethod]
    change (if tag tags _ ≠ [] ∧ getFromMap (tag tags _) m ≠ 0 then BitVec.ofNat 8 (getFromMap (tag tags _) m)
      else d) = _
    rw [hget, if_pos ⟨hne, hpos⟩]

/-! ## Parsing and printing -/

/-- The keys of a job. -/
inductive GlobalKey
  | object (key : ObjectKey) | runFlag (flag : RunFlag)
  | TRACE | BASIS | KL_MIN_MODE | KL_MAX_MODE | SVD_REG | MODE_START | MODE_STEP | MODES | TELESCOPE_D | TELESCOPE_CO
  | MIN_ITER | MAX_ITER | N_DONE_ITER | FPMETHOD | GRADIENT | GETSTEP | BADPIXEL | FILTER_CUTOFF | FTOL | EPS
  | REG_ALPHA | GRADDIFF_STEP | APODIZATION | NORMALIZATION | FILE_TYPE | DATA_TYPE | SEQUENCE_NUM | TIME_OBS | DATE_OBS
  | PROG_DATA_DIR | OUTPUT_FILES | INIT_FILES

structure GlobalCfg (F D : Type) extends ObjectCfg F D where
  runFlags : BitVec 16
  modeBasis : ModeBase
  (klMinMode klMaxMode : BitVec 16)
  klCutoff : F
  (nInitialModes nModeIncrement nModes : BitVec 16)
  modeList : ModeList
  (telescopeD telescopeCO : D)
  (minIterations maxIterations targetIterations : BitVec 16)
  (fillpixMethod gradientMethod getstepMethod normType : BitVec 8)
  apodizationSize : BitVec 16
  (badPixelThreshold filterCutoff FTOL EPS reg_alpha graddiff_step : F)
  trace : Bool
  outputFileType : BitVec 8
  outputDataType : DataType
  sequenceNumber : BitVec 32
  (observationTime observationDate tmpDataDir : Str)
  (outputFiles initFiles : List Str)

namespace GlobalCfg

variable {F D : Type} (L : Library F D)

/-- The order of Karhunen-Loève modes: by covariance, downwards, and then by number. -/
def klBefore (a b : KL D) : Bool :=
  if L.double.eq a.covariance b.covariance then a.id < b.id else L.gt a.covariance b.covariance

/-- The modes that are asked for, counted in the order of the Karhunen-Loève modes. -/
def sortModes (klMinMode klMaxMode : BitVec 16) (modes : List ModeID) : List ModeID :=
  let tmp := (L.karhunenLoeveExpansion klMinMode klMaxMode).mergeSort fun a b => !klBefore L b a
  modes.filterMap fun id =>
    if id.number < klMinMode ∨ tmp.length ≤ id.number.toNat then none
    else (tmp[(id.number - klMinMode).toNat]?).map fun kl =>
      ⟨if kl.id = 2 ∨ kl.id = 3 then .ZERNIKE else .KARHUNEN_LOEVE, kl.id⟩

/-- Whether the modes are sorted. -/
def sorts (runFlags : BitVec 16) (modeBasis : ModeBase) : Bool :=
  hasFlag runFlags RunFlag.SORT_MODES.bit && modeBasis == .KARHUNEN_LOEVE

/-- What is done with the modes, once the default type is set. -/
def finishModes (runFlags : BitVec 16) (modeBasis : ModeBase) (klMinMode klMaxMode : BitVec 16) (modes : List ModeID) :
    List ModeID :=
  if sorts runFlags modeBasis then sortModes L klMinMode klMaxMode modes else modes

/-- The files of a list in a text, with paths that are clean. -/
def cleanFiles (files : List Str) : List Str := files.map L.cleanFile

/-- `boost::split` at the commas. -/
def splitFiles (text : Str) : List Str := (L.boost 8).split text (· == ',')

/-- The file types, with `FT_ANA` for a calibration; none at all is an error. -/
def parseFileTypes (calibrate : Bool) (text : Option Str) : Option (BitVec 8) :=
  let filetypes := text.elim [if calibrate then .FT_ANA else .FT_FITS] (getFileTypes L)
  let outputFileType := addFileTypes 0 filetypes
  if outputFileType &&& 7 = 0 then none
  else some (if calibrate then outputFileType ||| FileType.FT_ANA.value else outputFileType)

/-- `OUTPUT_FILES`, or the defaults where it says nothing. -/
def parseOutputFiles (text : Option Str) (default : List Str) : List Str :=
  let tmpString := ChannelCfg.getString text []
  cleanFiles L (if tmpString ≠ [] then splitFiles L tmpString else default)

/-- `INIT_FILES`: none without the key, and the first of the defaults, or `OUTPUT`, where it says nothing. -/
def parseInitFiles (text : Option Str) (default : List Str) : List Str :=
  cleanFiles L (text.elim [] fun tmpString =>
    if tmpString ≠ [] then splitFiles L tmpString else [default.headD "OUTPUT".toList])

/-- `parseProperties` of a new object; none if it throws. -/
def parseProperties (fuel : ℕ) (tree : GlobalKey → Option Str) (defaults : GlobalCfg F D) : Option (GlobalCfg F D) := do
  let runFlags := RunFlag.mask fun flag => getBool (tree (.runFlag flag)) false
  let modeBasis := getElse ModeBaseTranslator.get_value (tree .BASIS) defaults.modeBasis
  let klMinMode := getElse (L.extract 16) (tree .KL_MIN_MODE) defaults.klMinMode
  let klMaxMode := getElse (L.extract 16) (tree .KL_MAX_MODE) defaults.klMaxMode
  let modes ← getOr (getModes L fuel) (tree .MODES) defaults.modeList
  let modeList := finishModes L runFlags modeBasis klMinMode klMaxMode (modes.setDefaultModeType modeBasis).modes
  let outputFileType ← parseFileTypes L (hasFlag runFlags RunFlag.CALIBRATE.bit) (tree .FILE_TYPE)
  let object ← ObjectCfg.parseProperties L fuel (fun key => tree (.object key)) defaults.toObjectCfg
  return {
    toObjectCfg := object
    runFlags := runFlags
    trace := getBool (tree .TRACE) defaults.trace
    modeBasis := modeBasis
    klMinMode := klMinMode
    klMaxMode := klMaxMode
    klCutoff := getElse L.float.extract (tree .SVD_REG) defaults.klCutoff
    nInitialModes := getElse (L.extract 16) (tree .MODE_START) defaults.nInitialModes
    nModeIncrement := getElse (L.extract 16) (tree .MODE_STEP) defaults.nModeIncrement
    -- the sorted list is a new one, without a default type
    modeList := ⟨modeList, if sorts runFlags modeBasis then .MB_NONE else modeBasis⟩
    nModes := BitVec.ofNat 16 modeList.length
    telescopeD := getElse L.double.extract (tree .TELESCOPE_D) defaults.telescopeD
    telescopeCO := getElse L.double.extract (tree .TELESCOPE_CO) defaults.telescopeCO
    minIterations := getElse (L.extract 16) (tree .MIN_ITER) defaults.minIterations
    maxIterations := getElse (L.extract 16) (tree .MAX_ITER) defaults.maxIterations
    targetIterations := getElse (L.extract 16) (tree .N_DONE_ITER) defaults.targetIterations
    fillpixMethod := parseMethod fillpixMap (tree .FPMETHOD) defaults.fillpixMethod
    gradientMethod := parseMethod gradientMap (tree .GRADIENT) defaults.gradientMethod
    getstepMethod := parseMethod getstepMap (tree .GETSTEP) defaults.getstepMethod
    badPixelThreshold := getElse L.float.extract (tree .BADPIXEL) defaults.badPixelThreshold
    filterCutoff := getElse L.float.extract (tree .FILTER_CUTOFF) defaults.filterCutoff
    FTOL := getElse L.float.extract (tree .FTOL) defaults.FTOL
    EPS := getElse L.float.extract (tree .EPS) defaults.EPS
    reg_alpha := getElse L.float.extract (tree .REG_ALPHA) defaults.reg_alpha
    graddiff_step := getElse L.float.extract (tree .GRADDIFF_STEP) defaults.graddiff_step
    apodizationSize := getElse L.extract_int16 (tree .APODIZATION) defaults.apodizationSize
    normType := parseNorm (tree .NORMALIZATION)
    outputFileType := outputFileType
    outputDataType := parseDataType (tree .DATA_TYPE) defaults.outputDataType
    sequenceNumber := getElse (L.extract 32) (tree .SEQUENCE_NUM) defaults.sequenceNumber
    observationTime := ChannelCfg.getString (tree .TIME_OBS) defaults.observationTime
    observationDate := ChannelCfg.getString (tree .DATE_OBS) defaults.observationDate
    tmpDataDir := L.cleanFile (ChannelCfg.getString (tree .PROG_DATA_DIR) defaults.tmpDataDir)
    outputFiles := parseOutputFiles L (tree .OUTPUT_FILES) defaults.outputFiles
    initFiles := parseInitFiles L (tree .INIT_FILES) defaults.initFiles }

/-- `getProperties`, key by key. -/
def getProperties (c defaults : GlobalCfg F D) : GlobalKey → Option Str
  | .object key => ObjectCfg.getProperties L c.toObjectCfg defaults.toObjectCfg key
  -- only where the two masks differ
  | .runFlag flag =>
    putUnless (!hasFlag (c.runFlags ^^^ defaults.runFlags) flag.bit)
      (BoolTranslator.put_value (hasFlag c.runFlags flag.bit))
  | .TRACE => putUnless (c.trace == defaults.trace) (BoolTranslator.put_value c.trace)
  | .BASIS =>
    putUnless (c.modeBasis == .MB_NONE || c.modeBasis == defaults.modeBasis)
      (tag basisTags (ModeBase.value c.modeBasis % 3))
  | .KL_MIN_MODE => putUnless (c.klMinMode == defaults.klMinMode) (decimal c.klMinMode.toNat)
  | .KL_MAX_MODE => putUnless (c.klMaxMode == defaults.klMaxMode) (decimal c.klMaxMode.toNat)
  | .SVD_REG => putUnless (L.float.eq c.klCutoff defaults.klCutoff) (L.float.fullText c.klCutoff)
  | .MODE_START => putUnless (c.nInitialModes == defaults.nInitialModes) (decimal c.nInitialModes.toNat)
  | .MODE_STEP => putUnless (c.nModeIncrement == defaults.nModeIncrement) (decimal c.nModeIncrement.toNat)
  | .MODES => putUnless (c.modeList.modes == defaults.modeList.modes) (ModeListTranslator.put_value c.modeList)
  | .TELESCOPE_D => putUnless (L.double.eq c.telescopeD defaults.telescopeD) (L.double.fullText c.telescopeD)
  | .TELESCOPE_CO => putUnless (L.double.eq c.telescopeCO defaults.telescopeCO) (L.double.fullText c.telescopeCO)
  | .MIN_ITER => putUnless (c.minIterations == defaults.minIterations) (decimal c.minIterations.toNat)
  | .MAX_ITER => putUnless (c.maxIterations == defaults.maxIterations) (decimal c.maxIterations.toNat)
  | .N_DONE_ITER => putUnless (c.targetIterations == defaults.targetIterations) (decimal c.targetIterations.toNat)
  | .FPMETHOD => putUnless (c.fillpixMethod == defaults.fillpixMethod)
    (tag fpmTags (c.fillpixMethod.toNat % fpmTags.length))
  | .GRADIENT => putUnless (c.gradientMethod == defaults.gradientMethod)
    (tag gmTags (c.gradientMethod.toNat % gmTags.length))
  | .GETSTEP => putUnless (c.getstepMethod == defaults.getstepMethod)
    (tag gsmTags (c.getstepMethod.toNat % gsmTags.length))
  | .BADPIXEL => putUnless (L.float.eq c.badPixelThreshold defaults.badPixelThreshold)
    (L.float.fullText c.badPixelThreshold)
  | .FILTER_CUTOFF => putUnless (L.float.eq c.filterCutoff defaults.filterCutoff) (L.float.fullText c.filterCutoff)
  | .FTOL => putUnless (L.float.eq c.FTOL defaults.FTOL) (L.float.fullText c.FTOL)
  | .EPS => putUnless (L.float.eq c.EPS defaults.EPS) (L.float.fullText c.EPS)
  | .REG_ALPHA => putUnless (L.float.eq c.reg_alpha defaults.reg_alpha) (L.float.fullText c.reg_alpha)
  | .GRADDIFF_STEP => putUnless (L.float.eq c.graddiff_step defaults.graddiff_step) (L.float.fullText c.graddiff_step)
  | .APODIZATION => putUnless (c.apodizationSize == defaults.apodizationSize) (int16Text c.apodizationSize)
  | .NORMALIZATION => putUnless (c.normType == defaults.normType) (tag normTags c.normType.toNat)
  | .FILE_TYPE =>
    let default := if hasFlag c.runFlags RunFlag.CALIBRATE.bit then FileType.FT_ANA else FileType.FT_FITS
    putUnless (c.outputFileType == default.value) (tag ftTags (c.outputFileType.toNat % 8))
  | .DATA_TYPE => putUnless (c.outputDataType == defaults.outputDataType) (tag dtTags (c.outputDataType.value % 5))
  | .SEQUENCE_NUM => putUnless (c.sequenceNumber == defaults.sequenceNumber) (decimal c.sequenceNumber.toNat)
  | .TIME_OBS => putUnless (c.observationTime == defaults.observationTime) c.observationTime
  | .DATE_OBS => putUnless (c.observationDate == defaults.observationDate) c.observationDate
  | .PROG_DATA_DIR => putUnless (c.tmpDataDir == defaults.tmpDataDir) c.tmpDataDir
  | .OUTPUT_FILES => putUnless (c.outputFiles == defaults.outputFiles) (joined id c.outputFiles)
  | .INIT_FILES => putUnless (c.initFiles == defaults.initFiles) (joined id c.initFiles)

/-- The conversion of the clip. -/
def convertClip (c : GlobalCfg F D) : Option (GlobalCfg F D) :=
  (ChannelCfg.zeroBased c.alignClip).map fun alignClip => { c with alignClip := alignClip }

/-! ## What a job is read as -/

/-- `c` is what the texts of a tree say. -/
structure ReadFrom (fuel : ℕ) (tree : GlobalKey → Option Str) (defaults c : GlobalCfg F D) : Prop where
  object : ObjectCfg.ReadFrom L fuel (fun key => tree (.object key)) defaults.toObjectCfg c.toObjectCfg
  runFlags : (RunFlag.mask fun flag => getBool (tree (.runFlag flag)) false) = c.runFlags
  trace : getBool (tree .TRACE) defaults.trace = c.trace
  modeBasis : getElse ModeBaseTranslator.get_value (tree .BASIS) defaults.modeBasis = c.modeBasis
  klMinMode : getElse (L.extract 16) (tree .KL_MIN_MODE) defaults.klMinMode = c.klMinMode
  klMaxMode : getElse (L.extract 16) (tree .KL_MAX_MODE) defaults.klMaxMode = c.klMaxMode
  klCutoff : getElse L.float.extract (tree .SVD_REG) defaults.klCutoff = c.klCutoff
  nInitialModes : getElse (L.extract 16) (tree .MODE_START) defaults.nInitialModes = c.nInitialModes
  nModeIncrement : getElse (L.extract 16) (tree .MODE_STEP) defaults.nModeIncrement = c.nModeIncrement
  modeList : ∃ modes, getOr (getModes L fuel) (tree .MODES) defaults.modeList = some modes ∧
    ⟨finishModes L c.runFlags c.modeBasis c.klMinMode c.klMaxMode (modes.setDefaultModeType c.modeBasis).modes,
      if sorts c.runFlags c.modeBasis then .MB_NONE else c.modeBasis⟩ = c.modeList
  nModes : BitVec.ofNat 16 c.modeList.modes.length = c.nModes
  telescopeD : getElse L.double.extract (tree .TELESCOPE_D) defaults.telescopeD = c.telescopeD
  telescopeCO : getElse L.double.extract (tree .TELESCOPE_CO) defaults.telescopeCO = c.telescopeCO
  minIterations : getElse (L.extract 16) (tree .MIN_ITER) defaults.minIterations = c.minIterations
  maxIterations : getElse (L.extract 16) (tree .MAX_ITER) defaults.maxIterations = c.maxIterations
  targetIterations : getElse (L.extract 16) (tree .N_DONE_ITER) defaults.targetIterations = c.targetIterations
  fillpixMethod : parseMethod fillpixMap (tree .FPMETHOD) defaults.fillpixMethod = c.fillpixMethod
  gradientMethod : parseMethod gradientMap (tree .GRADIENT) defaults.gradientMethod = c.gradientMethod
  getstepMethod : parseMethod getstepMap (tree .GETSTEP) defaults.getstepMethod = c.getstepMethod
  badPixelThreshold : getElse L.float.extract (tree .BADPIXEL) defaults.badPixelThreshold = c.badPixelThreshold
  filterCutoff : getElse L.float.extract (tree .FILTER_CUTOFF) defaults.filterCutoff = c.filterCutoff
  FTOL : getElse L.float.extract (tree .FTOL) defaults.FTOL = c.FTOL
  EPS : getElse L.float.extract (tree .EPS) defaults.EPS = c.EPS
  reg_alpha : getElse L.float.extract (tree .REG_ALPHA) defaults.reg_alpha = c.reg_alpha
  graddiff_step : getElse L.float.extract (tree .GRADDIFF_STEP) defaults.graddiff_step = c.graddiff_step
  apodizationSize : getElse L.extract_int16 (tree .APODIZATION) defaults.apodizationSize = c.apodizationSize
  normType : parseNorm (tree .NORMALIZATION) = c.normType
  outputFileType : parseFileTypes L (hasFlag c.runFlags RunFlag.CALIBRATE.bit) (tree .FILE_TYPE) = some c.outputFileType
  outputDataType : parseDataType (tree .DATA_TYPE) defaults.outputDataType = c.outputDataType
  sequenceNumber : getElse (L.extract 32) (tree .SEQUENCE_NUM) defaults.sequenceNumber = c.sequenceNumber
  observationTime : ChannelCfg.getString (tree .TIME_OBS) defaults.observationTime = c.observationTime
  observationDate : ChannelCfg.getString (tree .DATE_OBS) defaults.observationDate = c.observationDate
  tmpDataDir : L.cleanFile (ChannelCfg.getString (tree .PROG_DATA_DIR) defaults.tmpDataDir) = c.tmpDataDir
  outputFiles : parseOutputFiles L (tree .OUTPUT_FILES) defaults.outputFiles = c.outputFiles
  initFiles : parseInitFiles L (tree .INIT_FILES) defaults.initFiles = c.initFiles

/-- The flags, numbers, strings and lists of two jobs are the same; the clip is left out. -/
structure SameButClip (c c' : GlobalCfg F D) : Prop where
  object : ObjectCfg.SameButClip L c.toObjectCfg c'.toObjectCfg
  runFlags : c.runFlags = c'.runFlags
  trace : c.trace = c'.trace
  modeBasis : c.modeBasis = c'.modeBasis
  klMinMode : c.klMinMode = c'.klMinMode
  klMaxMode : c.klMaxMode = c'.klMaxMode
  nInitialModes : c.nInitialModes = c'.nInitialModes
  nModeIncrement : c.nModeIncrement = c'.nModeIncrement
  nModes : c.nModes = c'.nModes
  modeList : c.modeList = c'.modeList
  minIterations : c.minIterations = c'.minIterations
  maxIterations : c.maxIterations = c'.maxIterations
  targetIterations : c.targetIterations = c'.targetIterations
  fillpixMethod : c.fillpixMethod = c'.fillpixMethod
  gradientMethod : c.gradientMethod = c'.gradientMethod
  getstepMethod : c.getstepMethod = c'.getstepMethod
  normType : c.normType = c'.normType
  apodizationSize : c.apodizationSize = c'.apodizationSize
  outputFileType : c.outputFileType = c'.outputFileType
  outputDataType : c.outputDataType = c'.outputDataType
  sequenceNumber : c.sequenceNumber = c'.sequenceNumber
  observationTime : c.observationTime = c'.observationTime
  observationDate : c.observationDate = c'.observationDate
  tmpDataDir : c.tmpDataDir = c'.tmpDataDir
  outputFiles : c.outputFiles = c'.outputFiles
  initFiles : c.initFiles = c'.initFiles

/-- The flags, numbers, strings and lists of two jobs are the same. -/
structure Same (c c' : GlobalCfg F D) : Prop extends SameButClip L c c' where
  alignClip : c.alignClip = c'.alignClip

/-- `c` is what a section says, against the defaults, with its clip converted. -/
def Parsed (defaults c : GlobalCfg F D) : Prop :=
  ∃ fuel tree c₀, parseProperties L fuel tree defaults = some c₀ ∧ c₀.convertClip = some c

/-- Printed, parsed again and converted again, the job is the same. -/
def RoundTrips (d c : GlobalCfg F D) : Prop :=
  ∃ fuel c' c'', parseProperties L fuel (getProperties L c d) d = some c' ∧ c'.convertClip = some c'' ∧ Same L c'' c

variable {L} {fuel : ℕ} {tree : GlobalKey → Option Str} {c d c' : GlobalCfg F D}

/-- **Parsing reads every field, or throws.** -/
theorem parse_iff : parseProperties L fuel tree d = some c ↔ ReadFrom L fuel tree d c := by
  constructor
  · intro h
    obtain ⟨modes, hmodes, h⟩ := Option.bind_eq_some_iff.1 h
    obtain ⟨types, htypes, h⟩ := Option.bind_eq_some_iff.1 h
    obtain ⟨object, hobject, h⟩ := Option.bind_eq_some_iff.1 h
    obtain rfl := Option.some.inj h
    exact {
      object := ObjectCfg.parse_iff.1 hobject, runFlags := rfl, trace := rfl, modeBasis := rfl, klMinMode := rfl
      klMaxMode := rfl, klCutoff := rfl, nInitialModes := rfl, nModeIncrement := rfl, modeList := ⟨modes, hmodes, rfl⟩
      nModes := rfl, telescopeD := rfl, telescopeCO := rfl, minIterations := rfl, maxIterations := rfl
      targetIterations := rfl, fillpixMethod := rfl, gradientMethod := rfl, getstepMethod := rfl
      badPixelThreshold := rfl, filterCutoff := rfl, FTOL := rfl, EPS := rfl, reg_alpha := rfl, graddiff_step := rfl
      apodizationSize := rfl, normType := rfl, outputFileType := htypes, outputDataType := rfl, sequenceNumber := rfl
      observationTime := rfl, observationDate := rfl, tmpDataDir := rfl, outputFiles := rfl, initFiles := rfl }
  · intro h
    obtain ⟨modes, hmodes, hlist⟩ := h.modeList
    have hfinish := congrArg ModeList.modes hlist
    have hnModes := h.nModes
    rw [← hlist] at hnModes
    rw [parseProperties, ObjectCfg.parse_iff.2 h.object, h.runFlags, h.trace, h.modeBasis, h.klMinMode, h.klMaxMode,
      h.klCutoff, h.nInitialModes, h.nModeIncrement, hmodes, h.telescopeD, h.telescopeCO, h.minIterations,
      h.maxIterations, h.targetIterations, h.fillpixMethod, h.gradientMethod, h.getstepMethod, h.badPixelThreshold,
      h.filterCutoff, h.FTOL, h.EPS, h.reg_alpha, h.graddiff_step, h.apodizationSize, h.normType, h.outputFileType,
      h.outputDataType, h.sequenceNumber, h.observationTime, h.observationDate, h.tmpDataDir, h.outputFiles,
        h.initFiles]
    simp only [Option.bind_eq_bind, Option.bind_some, hnModes, hlist]
    rfl

/-! ## What was parsed -/

variable (L) in
/-- What parsing has settled. -/
structure Settled (d c : GlobalCfg F D) : Prop where
  object : ObjectCfg.Settled L d.toObjectCfg c.toObjectCfg
  runFlags : (RunFlag.mask fun flag => hasFlag c.runFlags flag.bit) = c.runFlags
  modeBasis : c.modeBasis = d.modeBasis ∨ ModeBaseTranslator.Read c.modeBasis
  defaultType : c.modeList.defaultType = if sorts c.runFlags c.modeBasis then .MB_NONE else c.modeBasis
  modes : sorts c.runFlags c.modeBasis = false → c.modeList.modes.map (setType c.modeBasis) = c.modeList.modes
  nModes : BitVec.ofNat 16 c.modeList.modes.length = c.nModes
  fillpixMethod : c.fillpixMethod = d.fillpixMethod ∨ ∃ n ∈ fillpixMap.map Prod.snd, c.fillpixMethod = BitVec.ofNat 8 n
  gradientMethod : c.gradientMethod = d.gradientMethod ∨ ∃ n ∈ gradientMap.map Prod.snd, c.gradientMethod =
    BitVec.ofNat 8 n
  getstepMethod : c.getstepMethod = d.getstepMethod ∨ ∃ n ∈ getstepMap.map Prod.snd, c.getstepMethod = BitVec.ofNat 8 n
  normType : c.normType.toNat < 4
  fileType_pos : c.outputFileType &&& 7 ≠ 0
  fileType_lt : c.outputFileType.toNat < 8
  calibrate : hasFlag c.runFlags RunFlag.CALIBRATE.bit = true → c.outputFileType ||| FileType.FT_ANA.value =
    c.outputFileType
  outputDataType : c.outputDataType = d.outputDataType ∨ c.outputDataType = .DT_F32T ∨ c.outputDataType = .DT_I16T
  tmpDataDir : L.cleanFile c.tmpDataDir = c.tmpDataDir
  outputFiles : cleanFiles L c.outputFiles = c.outputFiles
  initFiles : cleanFiles L c.initFiles = c.initFiles

theorem cleanFiles_idem (files : List Str) : cleanFiles L (cleanFiles L files) = cleanFiles L files := by
  rw [cleanFiles, cleanFiles, List.map_map]
  exact List.map_congr_left fun f _ => cleanFile_idem L f

theorem addFileTypes_lt {types : List FileType} {mask : BitVec 8} (h : mask.toNat < 8) :
    (addFileTypes mask types).toNat < 8 := by
  induction types generalizing mask with
  | nil => exact h
  | cons t types ih =>
    refine @ih (mask ||| t.value) ?_
    rw [BitVec.toNat_or]
    exact @Nat.or_lt_two_pow mask.toNat t.value.toNat 3 h (by cases t <;> decide)

/-- A mask of file types with one more is still one. -/
theorem fileTypes_settled {calibrate : Bool} {text : Option Str} {types : BitVec 8}
    (h : parseFileTypes L calibrate text = some types) : types &&& 7 ≠ 0 ∧ types.toNat < 8 ∧
      (calibrate = true → types ||| FileType.FT_ANA.value = types) := by
  have hlt := @addFileTypes_lt (text.elim [if calibrate then .FT_ANA else .FT_FITS] (getFileTypes L)) 0 (by decide)
  rw [parseFileTypes] at h
  generalize addFileTypes 0 (text.elim [if calibrate then .FT_ANA else .FT_FITS] (getFileTypes L)) = mask at h hlt
  by_cases hzero : mask &&& 7 = 0
  · rw [if_pos hzero] at h
    exact absurd h.symm (Option.some_ne_none types)
  · rw [if_neg hzero] at h
    obtain rfl := Option.some.inj h
    cases calibrate with
    | false => exact ⟨hzero, hlt, nofun⟩
    | true =>
      have hall : ∀ m < 8, (BitVec.ofNat 8 m ||| FileType.FT_ANA.value) &&& 7 ≠ 0 ∧
          (BitVec.ofNat 8 m ||| FileType.FT_ANA.value).toNat < 8 ∧
          BitVec.ofNat 8 m ||| FileType.FT_ANA.value ||| FileType.FT_ANA.value =
            BitVec.ofNat 8 m ||| FileType.FT_ANA.value := by
        decide
      have hmask := hall _ hlt
      rw [BitVec.ofNat_toNat, BitVec.setWidth_eq] at hmask
      exact ⟨hmask.1, hmask.2.1, fun _ => hmask.2.2⟩

theorem parseNorm_lt (text : Option Str) : (parseNorm text).toNat < 4 := by
  rw [parseNorm]
  split_ifs
  · by_cases hzero : getFromMap (ChannelCfg.getString text []) normMap = 0
    · rw [hzero]
      decide
    · have hall : ∀ n ∈ normMap.map Prod.snd, (BitVec.ofNat 8 n).toNat < 4 := by decide
      exact hall _ (getFromMap_mem hzero)
  · decide

theorem parseDataType_cases (text : Option Str) (default : DataType) :
    parseDataType text default = default ∨ parseDataType text default = .DT_F32T ∨ parseDataType text default =
      .DT_I16T := by
  rw [parseDataType]
  split_ifs
  · exact .inr (.inl rfl)
  · exact .inr (.inr rfl)
  · exact .inl rfl

/-- The object of a parsed job is a parsed object. -/
theorem Parsed.object (h : Parsed L d c) : ObjectCfg.Parsed L d.toObjectCfg c.toObjectCfg := by
  obtain ⟨fuel, tree, c₀, hparse, hconvert⟩ := h
  obtain ⟨clip, hclip, rfl⟩ := Option.map_eq_some_iff.1 hconvert
  refine ⟨fuel, _, c₀.toObjectCfg, ObjectCfg.parse_iff.2 (parse_iff.1 hparse).object, ?_⟩
  rw [ObjectCfg.convertClip, hclip, Option.map_some]

theorem Parsed.settled (h : Parsed L d c) : Settled L d c := by
  have hobject := h.object.settled
  obtain ⟨fuel, tree, c₀, hparse, hconvert⟩ := h
  obtain ⟨clip, hclip, rfl⟩ := Option.map_eq_some_iff.1 hconvert
  have h := parse_iff.1 hparse
  obtain ⟨modes, -, hlist⟩ := h.modeList
  obtain ⟨hpos, hlt, hcal⟩ := fileTypes_settled h.outputFileType
  refine {
    object := hobject
    runFlags := h.runFlags ▸ RunFlag.mask_congr fun f => RunFlag.hasFlag_mask _ f
    modeBasis := ?_, defaultType := hlist ▸ rfl, modes := fun hsorts => ?_, nModes := h.nModes
    fillpixMethod := h.fillpixMethod ▸ parseMethod_cases _ _ _, gradientMethod :=
      h.gradientMethod ▸ parseMethod_cases _ _ _
    getstepMethod := h.getstepMethod ▸ parseMethod_cases _ _ _, normType := h.normType ▸ parseNorm_lt _
    fileType_pos := hpos, fileType_lt := hlt, calibrate := hcal
    outputDataType := h.outputDataType ▸ parseDataType_cases _ _, tmpDataDir := h.tmpDataDir ▸ cleanFile_idem L _
    outputFiles := h.outputFiles ▸ cleanFiles_idem _, initFiles := h.initFiles ▸ cleanFiles_idem _ }
  · change c₀.modeBasis = d.modeBasis ∨ ModeBaseTranslator.Read c₀.modeBasis
    rw [← h.modeBasis]
    exact ChannelCfg.basis_cases _ _
  · change c₀.modeList.modes.map (setType c₀.modeBasis) = c₀.modeList.modes
    change sorts c₀.runFlags c₀.modeBasis = false at hsorts
    rw [← hlist, finishModes, hsorts, if_neg Bool.false_ne_true, ModeList.setDefaultModeType, List.map_map]
    exact List.map_congr_left fun a _ => ChannelCfg.setType_setType _ a

/-! ## The round trip -/

variable (L) in
/-- What a job that was parsed needs to come back. -/
structure Restorable (d c : GlobalCfg F D) : Prop where
  channel : ChannelCfg.Restorable L d.toChannelCfg c.toChannelCfg
  -- a flag of the defaults is lost where it is not put
  runFlags : ∀ flag : RunFlag, hasFlag c.runFlags flag.bit = true → hasFlag d.runFlags flag.bit = false
  -- there is no text for no basis
  modeBasis : c.modeBasis = .MB_NONE → d.modeBasis = .MB_NONE
  modes : c.modeList.modes ≠ d.modeList.modes →
    ModesBack L c.modeBasis (finishModes L c.runFlags c.modeBasis c.klMinMode c.klMaxMode) c.modeList
  -- modes that are not put are sorted again
  sorted : c.modeList.modes = d.modeList.modes → sorts c.runFlags c.modeBasis = true →
    sortModes L c.klMinMode c.klMaxMode c.modeList.modes = c.modeList.modes
  normType : c.normType = d.normType → c.normType = 1
  outputFiles : c.outputFiles ≠ d.outputFiles → (∀ f ∈ c.outputFiles, ',' ∉ f) ∧
    (joined id c.outputFiles = [] → cleanFiles L d.outputFiles = c.outputFiles)
  initFiles_same : c.initFiles = d.initFiles → c.initFiles = []
  initFiles : c.initFiles ≠ d.initFiles → (∀ f ∈ c.initFiles, ',' ∉ f) ∧
    (joined id c.initFiles = [] → cleanFiles L [d.initFiles.headD "OUTPUT".toList] = c.initFiles)

theorem runFlag_printed (flag : RunFlag) : getBool (getProperties L c d (.runFlag flag)) false =
    (hasFlag c.runFlags flag.bit && !hasFlag d.runFlags flag.bit) := by
  obtain ⟨i, hi⟩ := flag.single
  rw [getProperties, getBool_put, hasFlag_xor hi]
  cases hasFlag c.runFlags flag.bit <;> cases hasFlag d.runFlags flag.bit <;> rfl

theorem runFlags_iff (hset : Settled L d c) :
    (RunFlag.mask fun flag => getBool (getProperties L c d (.runFlag flag)) false) = c.runFlags ↔
      ∀ flag : RunFlag, hasFlag c.runFlags flag.bit = true → hasFlag d.runFlags flag.bit = false := by
  constructor
  · intro h flag hflag
    have hback := RunFlag.hasFlag_mask (fun flag => getBool (getProperties L c d (.runFlag flag)) false) flag
    rw [h, runFlag_printed, hflag, Bool.true_and] at hback
    exact Bool.not_eq_eq_eq_not.1 hback.symm
  · intro h
    refine (RunFlag.mask_congr fun flag => ?_).trans hset.runFlags
    rw [runFlag_printed]
    cases hflag : hasFlag c.runFlags flag.bit with
    | false => rfl
    | true => rw [h flag hflag]; rfl

theorem basis_iff (hset : Settled L d c) :
    getElse ModeBaseTranslator.get_value (getProperties L c d .BASIS) d.modeBasis = c.modeBasis ↔
      (c.modeBasis = .MB_NONE → d.modeBasis = .MB_NONE) := by
  rw [getProperties]
  by_cases hnone : c.modeBasis = .MB_NONE
  · rw [hnone]
    exact ⟨fun h _ => h, fun h => h rfl⟩
  · refine iff_of_true ?_ fun h => absurd h hnone
    rw [beq_eq_false_iff_ne.2 hnone, Bool.false_or]
    rcases hset.modeBasis with hsame | hread
    · rw [beq_iff_eq.2 hsame, hsame]
      rfl
    · refine (getElse_putUnless_iff ?_).2 fun h => (eq_of_beq h).symm
      rcases hread with h | h | h
      · exact absurd h hnone
      · rw [h]
        decide
      · rw [h]
        decide

/-- Only the numbers of the modes count when they are sorted. -/
theorem sortModes_setType (basis : ModeBase) (klMin klMax : BitVec 16) (modes : List ModeID) :
    sortModes L klMin klMax (modes.map (setType basis)) = sortModes L klMin klMax modes := by
  have hnumber : ∀ a : ModeID, (setType basis a).number = a.number := fun a => by
    rw [setType]
    split_ifs <;> rfl
  rw [sortModes, sortModes, List.filterMap_map]
  refine congrArg (fun f => List.filterMap f modes) (funext fun a => ?_)
  rw [Function.comp_apply, hnumber]

theorem normType_iff (hset : Settled L d c) : parseNorm (getProperties L c d .NORMALIZATION) = c.normType ↔
    (c.normType = d.normType → c.normType = 1) := by
  rw [getProperties]
  by_cases hsame : c.normType = d.normType
  · rw [beq_iff_eq.2 hsame]
    exact ⟨fun h _ => h.symm, fun h => (h hsame).symm⟩
  · refine iff_of_true ?_ fun h => absurd h hsame
    rw [beq_eq_false_iff_ne.2 hsame]
    have hall : ∀ n < 4, parseNorm (some (tag normTags n)) = BitVec.ofNat 8 n := by decide
    refine (hall _ hset.normType).trans ?_
    rw [BitVec.ofNat_toNat, BitVec.setWidth_eq]

/-- The file types always come back. -/
theorem fileTypes_back (hset : Settled L d c) :
    parseFileTypes L (hasFlag c.runFlags RunFlag.CALIBRATE.bit) (getProperties L c d .FILE_TYPE) =
      some c.outputFileType := by
  have hcal := hset.calibrate
  rw [getProperties]
  generalize hasFlag c.runFlags RunFlag.CALIBRATE.bit = calibrate at hcal ⊢
  by_cases hsame : c.outputFileType = (if calibrate then FileType.FT_ANA else FileType.FT_FITS).value
  · rw [beq_iff_eq.2 hsame, hsame, parseFileTypes, putUnless, if_pos rfl, Option.elim_none]
    clear hcal hsame
    revert calibrate
    decide
  · rw [beq_eq_false_iff_ne.2 hsame, parseFileTypes, putUnless, if_neg Bool.false_ne_true, Option.elim_some,
      fileTypes_of_tag L hset.fileType_lt, if_neg hset.fileType_pos]
    cases calibrate with
    | false => rfl
    | true => rw [if_pos rfl, hcal rfl]

theorem dataType_back (hset : Settled L d c) :
    parseDataType (getProperties L c d .DATA_TYPE) d.outputDataType = c.outputDataType := by
  rw [getProperties]
  by_cases hsame : c.outputDataType = d.outputDataType
  · rw [beq_iff_eq.2 hsame, hsame]
    generalize d.outputDataType = t
    cases t <;> decide
  · rw [beq_eq_false_iff_ne.2 hsame]
    generalize d.outputDataType = t
    rcases (hset.outputDataType).resolve_left hsame with h | h
    · rw [h]
      cases t <;> decide
    · rw [h]
      cases t <;> decide

/-- Files that are split are the same exactly if there is no comma in them. -/
theorem cleanFiles_split_iff {files : List Str} (hclean : cleanFiles L files = files) (hne : files ≠ []) :
    cleanFiles L (splitFiles L (joined id files)) = files ↔ ∀ f ∈ files, ',' ∉ f := by
  rw [splitFiles, (L.boost 8).split_eq]
  constructor
  · intro h
    refine (split_joined_iff hne).1 ?_
    have hlength := congrArg List.length h
    rwa [cleanFiles, List.length_map] at hlength
  · intro h
    rw [split_of_no_comma hne h, hclean]

/-- A list of files that is written: it has no comma in it, and where its text says nothing, the fallback is the
list. -/
theorem cleanFiles_text_iff {files default : List Str} (hclean : cleanFiles L files = files) :
    cleanFiles L (if joined id files ≠ [] then splitFiles L (joined id files) else default) = files ↔
      (∀ f ∈ files, ',' ∉ f) ∧ (joined id files = [] → cleanFiles L default = files) := by
  by_cases hnil : joined id files = []
  · rw [if_neg (not_not.2 hnil)]
    refine ⟨fun h => ⟨fun f hf hmem => ?_, fun _ => h⟩, fun h => h.2 hnil⟩
    have := mem_joined hf hmem
    rw [hnil] at this
    exact absurd this List.not_mem_nil
  · have hne : files ≠ [] := by
      rintro rfl
      exact hnil rfl
    rw [if_pos hnil, cleanFiles_split_iff hclean hne]
    exact ⟨fun h => ⟨h, fun h => absurd h hnil⟩, fun h => h.1⟩

theorem outputFiles_iff (hset : Settled L d c) :
    parseOutputFiles L (getProperties L c d .OUTPUT_FILES) d.outputFiles = c.outputFiles ↔
      (c.outputFiles ≠ d.outputFiles → (∀ f ∈ c.outputFiles, ',' ∉ f) ∧
        (joined id c.outputFiles = [] → cleanFiles L d.outputFiles = c.outputFiles)) := by
  rw [getProperties]
  by_cases hsame : c.outputFiles = d.outputFiles
  · refine iff_of_true ?_ fun h => absurd hsame h
    rw [beq_iff_eq.2 hsame, ← hsame]
    exact hset.outputFiles
  · rw [beq_eq_false_iff_ne.2 hsame, ← cleanFiles_text_iff hset.outputFiles]
    exact ⟨fun h _ => h, fun h => h hsame⟩

theorem initFiles_iff (hset : Settled L d c) :
    parseInitFiles L (getProperties L c d .INIT_FILES) d.initFiles = c.initFiles ↔
      (c.initFiles = d.initFiles → c.initFiles = []) ∧
      (c.initFiles ≠ d.initFiles → (∀ f ∈ c.initFiles, ',' ∉ f) ∧
        (joined id c.initFiles = [] → cleanFiles L [d.initFiles.headD "OUTPUT".toList] = c.initFiles)) := by
  rw [getProperties]
  by_cases hsame : c.initFiles = d.initFiles
  · rw [beq_iff_eq.2 hsame]
    exact ⟨fun h => ⟨fun _ => h.symm, fun hne => absurd hsame hne⟩, fun h => (h.1 hsame).symm⟩
  · rw [beq_eq_false_iff_ne.2 hsame, ← cleanFiles_text_iff hset.initFiles]
    exact ⟨fun h => ⟨fun heq => absurd heq hsame, fun _ => h⟩, fun h => h.2 hsame⟩

theorem same_convertClip_iff {c'' : GlobalCfg F D} (h : c'.convertClip = some c'') :
    Same L c'' c ↔ SameButClip L c' c ∧ ChannelCfg.zeroBased c'.alignClip = some c.alignClip := by
  obtain ⟨clip, hclip, rfl⟩ := Option.map_eq_some_iff.1 h
  rw [hclip, Option.some.injEq]
  refine ⟨fun hsame => ⟨?_, hsame.alignClip⟩, fun ⟨hbut, heq⟩ => ?_⟩
  · exact { hsame with object := { hsame.object with channel := { hsame.object.channel with } } }
  · exact { hbut with object := { hbut.object with channel := { hbut.object.channel with } }, alignClip := heq }

theorem modes_iff (hset : Settled L d c) :
    (∃ modes, getOr (getModes L fuel) (getProperties L c d .MODES) d.modeList = some modes ∧
      ⟨finishModes L c.runFlags c.modeBasis c.klMinMode c.klMaxMode (modes.setDefaultModeType c.modeBasis).modes,
        if sorts c.runFlags c.modeBasis then .MB_NONE else c.modeBasis⟩ = c.modeList) ↔
    (∃ modes, getOr (getModes L fuel) (getProperties L c d .MODES) d.modeList = some modes ∧
      finishModes L c.runFlags c.modeBasis c.klMinMode c.klMaxMode (modes.setDefaultModeType c.modeBasis).modes =
        c.modeList.modes) := by
  refine exists_congr fun modes => and_congr_right fun _ => ⟨fun h => congrArg ModeList.modes h, fun h => ?_⟩
  rw [h, ← hset.defaultType]

/-- Modes that are not put are those of the defaults, and are sorted again. -/
theorem finish_same (hset : Settled L d c) (hsame : c.modeList.modes = d.modeList.modes) :
    finishModes L c.runFlags c.modeBasis c.klMinMode c.klMaxMode (d.modeList.setDefaultModeType c.modeBasis).modes =
      c.modeList.modes ↔
    (sorts c.runFlags c.modeBasis = true → sortModes L c.klMinMode c.klMaxMode c.modeList.modes =
      c.modeList.modes) := by
  rw [finishModes, ModeList.setDefaultModeType, ← hsame]
  cases hsorts : sorts c.runFlags c.modeBasis with
  | true =>
    rw [if_pos rfl, sortModes_setType]
    exact ⟨fun h _ => h, fun h => h rfl⟩
  | false =>
    rw [if_neg Bool.false_ne_true]
    exact iff_of_true (hset.modes hsorts) fun h => absurd h Bool.false_ne_true

/-- **What comes back as a job is restorable.** -/
theorem restorable_of_same (hset : Settled L d c) (h : ReadFrom L fuel (getProperties L c d) d c')
    (hclip : ChannelCfg.zeroBased c'.alignClip = some c.alignClip) (hsame : SameButClip L c' c) : Restorable L d c := by
  obtain ⟨modes, hread, hfinish⟩ := h.modeList
  have hmodes := congrArg ModeList.modes hfinish
  rw [hsame.runFlags, hsame.modeBasis, hsame.klMinMode, hsame.klMaxMode, hsame.modeList] at hmodes
  have hinit := (initFiles_iff hset).1 (h.initFiles.trans hsame.initFiles)
  refine {
    channel := ChannelCfg.restorable_of_same hset.object.channel h.object.channel hclip hsame.object.channel
    runFlags := (runFlags_iff hset).1 (h.runFlags.trans hsame.runFlags)
    modeBasis := (basis_iff hset).1 (h.modeBasis.trans hsame.modeBasis)
    modes := fun hne => ⟨fuel, ?_⟩, sorted := fun heq => ?_
    normType := (normType_iff hset).1 (h.normType.trans hsame.normType)
    outputFiles := (outputFiles_iff hset).1 (h.outputFiles.trans hsame.outputFiles)
    initFiles_same := hinit.1, initFiles := hinit.2 }
  · rw [getProperties, beq_eq_false_iff_ne.2 hne] at hread
    exact Option.map_eq_some_iff.2 ⟨modes, hread, hmodes⟩
  · rw [getProperties, beq_iff_eq.2 heq] at hread
    rw [← Option.some.inj hread] at hmodes
    exact (finish_same hset heq).1 hmodes

theorem fillpix_back (hset : Settled L d c) :
    parseMethod fillpixMap (getProperties L c d .FPMETHOD) d.fillpixMethod = c.fillpixMethod :=
  method_back hset.fillpixMethod (by decide +kernel)

theorem gradient_back (hset : Settled L d c) :
    parseMethod gradientMap (getProperties L c d .GRADIENT) d.gradientMethod = c.gradientMethod :=
  method_back hset.gradientMethod (by decide +kernel)

theorem getstep_back (hset : Settled L d c) :
    parseMethod getstepMap (getProperties L c d .GETSTEP) d.getstepMethod = c.getstepMethod :=
  method_back hset.getstepMethod (by decide +kernel)

theorem modes_back (hset : Settled L d c) (h : Restorable L d c) : ∃ N, ∀ fuel, N ≤ fuel →
    ∃ modes, getOr (getModes L fuel) (getProperties L c d .MODES) d.modeList = some modes ∧
      ⟨finishModes L c.runFlags c.modeBasis c.klMinMode c.klMaxMode (modes.setDefaultModeType c.modeBasis).modes,
        if sorts c.runFlags c.modeBasis then .MB_NONE else c.modeBasis⟩ = c.modeList := by
  by_cases hsame : c.modeList.modes = d.modeList.modes
  · refine ⟨0, fun fuel _ => (modes_iff hset).2 ⟨d.modeList, ?_, (finish_same hset hsame).2 (h.sorted hsame)⟩⟩
    rw [getProperties, beq_iff_eq.2 hsame]
    rfl
  · obtain ⟨N, hN⟩ := read_of_modesBack L (h.modes hsame)
    refine ⟨N, fun fuel hfuel => (modes_iff hset).2 ?_⟩
    obtain ⟨modes, hread, hfinish⟩ := hN fuel hfuel
    refine ⟨modes, ?_, hfinish⟩
    rw [getProperties, beq_eq_false_iff_ne.2 hsame]
    exact hread

/-- **What is restorable comes back as a job.** -/
theorem same_of_restorable (hset : Settled L d c) (h : Restorable L d c) : ∃ N, ∀ fuel, N ≤ fuel →
    ∃ c', ReadFrom L fuel (getProperties L c d) d c' ∧ ChannelCfg.zeroBased c'.alignClip = some c.alignClip ∧
      SameButClip L c' c := by
  obtain ⟨N₁, hobject⟩ := ObjectCfg.same_of_restorable hset.object h.channel
  obtain ⟨N₂, hmodes⟩ := modes_back hset h
  refine ⟨N₁ + N₂, fun fuel hfuel => ?_⟩
  obtain ⟨object, hread, hclip, hsame⟩ := hobject fuel (by omega)
  have hapodization : getElse L.extract_int16 (getProperties L c d .APODIZATION) d.apodizationSize =
    c.apodizationSize :=
    @getElse_put _ _ L.extract_int16 _ _ _ int16Text d.apodizationSize (L.extract_decimalInt _)
  have htypes := fileTypes_back hset
  refine ⟨{ c with
    toObjectCfg := object
    klCutoff := getElse L.float.extract (getProperties L c d .SVD_REG) d.klCutoff
    telescopeD := getElse L.double.extract (getProperties L c d .TELESCOPE_D) d.telescopeD
    telescopeCO := getElse L.double.extract (getProperties L c d .TELESCOPE_CO) d.telescopeCO
    badPixelThreshold := getElse L.float.extract (getProperties L c d .BADPIXEL) d.badPixelThreshold
    filterCutoff := getElse L.float.extract (getProperties L c d .FILTER_CUTOFF) d.filterCutoff
    FTOL := getElse L.float.extract (getProperties L c d .FTOL) d.FTOL
    EPS := getElse L.float.extract (getProperties L c d .EPS) d.EPS
    reg_alpha := getElse L.float.extract (getProperties L c d .REG_ALPHA) d.reg_alpha
    graddiff_step := getElse L.float.extract (getProperties L c d .GRADDIFF_STEP) d.graddiff_step }, ?_, hclip, ?_⟩
  · exact {
      object := hread, klCutoff := rfl, telescopeD := rfl, telescopeCO := rfl, badPixelThreshold := rfl
      filterCutoff := rfl, FTOL := rfl, EPS := rfl, reg_alpha := rfl, graddiff_step := rfl
      runFlags := (runFlags_iff hset).2 h.runFlags, trace := getBool_put_default _ _
      modeBasis := (basis_iff hset).2 h.modeBasis, klMinMode := getElse_decimal L _ _, klMaxMode :=
        getElse_decimal L _ _
      nInitialModes := getElse_decimal L _ _, nModeIncrement := getElse_decimal L _ _
      modeList := hmodes fuel (by omega), nModes := hset.nModes, minIterations := getElse_decimal L _ _
      maxIterations := getElse_decimal L _ _, targetIterations := getElse_decimal L _ _
      fillpixMethod := fillpix_back hset, gradientMethod := gradient_back hset, getstepMethod := getstep_back hset
      apodizationSize := hapodization
      normType := (normType_iff hset).2 h.normType, outputFileType := htypes
      outputDataType := dataType_back hset, sequenceNumber := getElse_decimal L _ _
      observationTime := ChannelCfg.getString_put _ _, observationDate := ChannelCfg.getString_put _ _
      tmpDataDir := (congrArg L.cleanFile (ChannelCfg.getString_put _ _)).trans hset.tmpDataDir
      outputFiles := (outputFiles_iff hset).2 h.outputFiles
      initFiles := (initFiles_iff hset).2 ⟨h.initFiles_same, h.initFiles⟩ }
  · exact {
      object := hsame, runFlags := rfl, trace := rfl, modeBasis := rfl, klMinMode := rfl, klMaxMode := rfl
      nInitialModes := rfl, nModeIncrement := rfl, nModes := rfl, modeList := rfl, minIterations := rfl
      maxIterations := rfl, targetIterations := rfl, fillpixMethod := rfl, gradientMethod := rfl
      getstepMethod := rfl, normType := rfl, apodizationSize := rfl, outputFileType := rfl, outputDataType := rfl
      sequenceNumber := rfl, observationTime := rfl, observationDate := rfl, tmpDataDir := rfl, outputFiles := rfl
      initFiles := rfl }

/-- **A job that was parsed comes back exactly if it is restorable.** -/
theorem roundTrips_iff_restorable (h : Parsed L d c) : RoundTrips L d c ↔ Restorable L d c := by
  constructor
  · rintro ⟨fuel, c', c'', hparse, hconvert, hsame⟩
    obtain ⟨hbut, hclip⟩ := (same_convertClip_iff hconvert).1 hsame
    exact restorable_of_same h.settled (parse_iff.1 hparse) hclip hbut
  · intro hrestorable
    obtain ⟨N, hN⟩ := same_of_restorable h.settled hrestorable
    obtain ⟨c', hread, hclip, hbut⟩ := hN N le_rfl
    have hconvert : c'.convertClip = some { c' with alignClip := c.alignClip } := by
      rw [convertClip, hclip, Option.map_some]
    exact ⟨N, c', _, parse_iff.2 hread, hconvert, (same_convertClip_iff hconvert).2 ⟨hbut, hclip⟩⟩

end GlobalCfg

end Redux.Momfbd.Properties
