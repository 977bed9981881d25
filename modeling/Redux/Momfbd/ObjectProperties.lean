import Redux.Momfbd.ChannelProperties

/-!
# Momfbd.ObjectProperties — an object as properties

`parseProperties` and `getProperties` of `ObjectCfg`, whose keys are those of a channel and its own.  Every
setting of its own comes back: which results are saved is said by one key for each flag that differs, and
the PSFs are saved only once.
-/

namespace Redux.Momfbd.Properties

open Redux.Util Redux.Lib

/-- The flags of `saveMask`, by their keys. -/
inductive SaveFlag
  | GET_ALPHA | GET_COBJ | GET_DIVERSITY | GET_METRIC | GET_MODES | GET_PSF | GET_PSF_AVG | GET_RESIDUAL | SAVE_FFDATA
  deriving DecidableEq

namespace SaveFlag

/-- `SF_SAVE_ALPHA` and so on; 256 is `SF_SAVE_NAMES`, which has no key. -/
def bit : SaveFlag → BitVec 16
  | GET_ALPHA => 1
  | GET_COBJ => 2
  | GET_DIVERSITY => 4
  | GET_METRIC => 8
  | GET_MODES => 16
  | GET_PSF => 32
  | GET_PSF_AVG => 64
  | GET_RESIDUAL => 128
  | SAVE_FFDATA => 512

def all : List SaveFlag :=
  [GET_ALPHA, GET_COBJ, GET_DIVERSITY, GET_METRIC, GET_MODES, GET_PSF, GET_PSF_AVG, GET_RESIDUAL, SAVE_FFDATA]

theorem mem_all (f : SaveFlag) : f ∈ all := by
  cases f <;> decide

theorem separate : Separate bit all := by decide

theorem single (f : SaveFlag) : ∃ i, f.bit = BitVec.twoPow 16 i := by
  cases f
  exacts [⟨0, rfl⟩, ⟨1, rfl⟩, ⟨2, rfl⟩, ⟨3, rfl⟩, ⟨4, rfl⟩, ⟨5, rfl⟩, ⟨6, rfl⟩, ⟨7, rfl⟩, ⟨9, rfl⟩]

/-- The mask of the flags that are set, of the two for the PSF only `GET_PSF_AVG`. -/
def mask (set : SaveFlag → Bool) : BitVec 16 :=
  let saveMask := setFlags bit set all 0#16
  if hasFlag saveMask GET_PSF.bit && hasFlag saveMask GET_PSF_AVG.bit then saveMask &&& ~~~GET_PSF.bit else saveMask

/-- What is set after the choice between the PSFs. -/
def chosen (set : SaveFlag → Bool) (f : SaveFlag) : Bool := set f && !(f == GET_PSF && set GET_PSF_AVG)

theorem hasFlag_all (set : SaveFlag → Bool) (f : SaveFlag) : hasFlag (setFlags bit set all 0#16) f.bit = set f :=
  hasFlag_setFlags separate (mem_all f) BitVec.zero_and

theorem mask_eq (set : SaveFlag → Bool) : mask set = setFlags bit (chosen set) all 0#16 := by
  rw [mask, hasFlag_all, hasFlag_all]
  split_ifs with hboth
  · obtain ⟨-, havg⟩ := Bool.and_eq_true_iff.1 hboth
    rw [setFlags_and_not, BitVec.zero_and]
    · refine setFlags_congr fun f _ => ?_
      rw [chosen, havg, Bool.and_true]
      rfl
    · intro a _ ha
      revert ha
      cases a <;> decide
  · refine setFlags_congr fun f _ => ?_
    by_cases hf : f = GET_PSF
    · subst hf
      cases havg : set GET_PSF_AVG with
      | false => rw [chosen, havg, Bool.and_false, Bool.not_false, Bool.and_true]
      | true =>
        rw [havg, Bool.and_true, Bool.not_eq_true] at hboth
        rw [chosen, hboth, Bool.false_and]
    · rw [chosen, beq_eq_false_iff_ne.2 hf, Bool.false_and, Bool.not_false, Bool.and_true]

/-- **A mask of flags stays as it is.** -/
theorem mask_settled (set : SaveFlag → Bool) : mask (fun f => hasFlag (mask set) f.bit) = mask set := by
  rw [mask_eq, mask_eq set]
  refine setFlags_congr fun f _ => ?_
  rw [chosen, hasFlag_all, hasFlag_all, chosen, chosen]
  cases set f <;> cases set GET_PSF_AVG <;> cases f == GET_PSF <;> rfl

end SaveFlag

/-- The keys of an object. -/
inductive ObjectKey
  | channel (key : ChannelKey) | saveFlag (flag : SaveFlag)
  | TELESCOPE_F | ARCSECPERPIX | PIXELSIZE | MAX_LOCAL_SHIFT | MINIMUM_OVERLAP | NUM_POINTS | PUPIL_POINTS
  | TRACE_REF | OUTPUT_FILE | INIT_FILE | MODE_FILE | MODE_FILE_NORMALIZE | PUPIL | WAVELENGTH

structure ObjectCfg (F D : Type) extends ChannelCfg F D where
  (telescopeF arcSecsPerPixel pixelSize : D)
  (maxLocalShift minimumOverlap patchSize pupilPixels saveMask : BitVec 16)
  (outputFileName initFile modeFile pupilFile : Str)
  wavelength : D
  (modeFileNormalize traceObject : Bool)

namespace ObjectCfg

variable {F D : Type} (L : Library F D)

/-! ## Parsing and printing -/

/-- `parseProperties`: the settings of an object, and those of a channel. -/
def parseProperties (fuel : ℕ) (tree : ObjectKey → Option Str) (defaults : ObjectCfg F D) : Option (ObjectCfg F D) := do
  let channel ← ChannelCfg.parseProperties L fuel (fun key => tree (.channel key)) defaults.toChannelCfg
  return {
    toChannelCfg := channel
    telescopeF := getElse L.double.extract (tree .TELESCOPE_F) defaults.telescopeF
    arcSecsPerPixel := getElse L.double.extract (tree .ARCSECPERPIX) defaults.arcSecsPerPixel
    pixelSize := getElse L.double.extract (tree .PIXELSIZE) defaults.pixelSize
    maxLocalShift := getElse (L.extract 16) (tree .MAX_LOCAL_SHIFT) defaults.maxLocalShift
    minimumOverlap := getElse (L.extract 16) (tree .MINIMUM_OVERLAP) defaults.minimumOverlap
    patchSize := getElse (L.extract 16) (tree .NUM_POINTS) defaults.patchSize
    pupilPixels := getElse (L.extract 16) (tree .PUPIL_POINTS) defaults.pupilPixels
    saveMask := SaveFlag.mask fun flag => getBool (tree (.saveFlag flag)) (hasFlag defaults.saveMask flag.bit)
    traceObject := getBool (tree .TRACE_REF) defaults.traceObject
    outputFileName := ChannelCfg.getString (tree .OUTPUT_FILE) defaults.outputFileName
    initFile := L.cleanFile (ChannelCfg.getString (tree .INIT_FILE) defaults.initFile)
    modeFile := L.cleanFile (ChannelCfg.getString (tree .MODE_FILE) defaults.modeFile)
    modeFileNormalize := getBool (tree .MODE_FILE_NORMALIZE) defaults.modeFileNormalize
    pupilFile := L.cleanFile (ChannelCfg.getString (tree .PUPIL) defaults.pupilFile)
    wavelength := getElse L.double.extract (tree .WAVELENGTH) defaults.wavelength }

/-- `getProperties`, key by key. -/
def getProperties (c defaults : ObjectCfg F D) : ObjectKey → Option Str
  | .channel key => ChannelCfg.getProperties L c.toChannelCfg defaults.toChannelCfg key
  | .TELESCOPE_F => putUnless (L.double.eq c.telescopeF defaults.telescopeF) (L.double.fullText c.telescopeF)
  | .ARCSECPERPIX =>
    putUnless (L.double.eq c.arcSecsPerPixel defaults.arcSecsPerPixel) (L.double.fullText c.arcSecsPerPixel)
  | .PIXELSIZE => putUnless (L.double.eq c.pixelSize defaults.pixelSize) (L.double.fullText c.pixelSize)
  | .MAX_LOCAL_SHIFT => putUnless (c.maxLocalShift == defaults.maxLocalShift) (decimal c.maxLocalShift.toNat)
  | .MINIMUM_OVERLAP => putUnless (c.minimumOverlap == defaults.minimumOverlap) (decimal c.minimumOverlap.toNat)
  | .NUM_POINTS => putUnless (c.patchSize == defaults.patchSize) (decimal c.patchSize.toNat)
  | .PUPIL_POINTS => putUnless (c.pupilPixels == defaults.pupilPixels) (decimal c.pupilPixels.toNat)
  -- only where the two masks differ
  | .saveFlag flag =>
    putUnless (!hasFlag (c.saveMask ^^^ defaults.saveMask) flag.bit)
      (BoolTranslator.put_value (hasFlag c.saveMask flag.bit))
  | .TRACE_REF => putUnless (c.traceObject == defaults.traceObject) (BoolTranslator.put_value c.traceObject)
  | .OUTPUT_FILE => putUnless (c.outputFileName == defaults.outputFileName) c.outputFileName
  | .INIT_FILE => putUnless (c.initFile == defaults.initFile) c.initFile
  | .MODE_FILE => putUnless (c.modeFile == defaults.modeFile) c.modeFile
  | .MODE_FILE_NORMALIZE =>
    putUnless (c.modeFileNormalize == defaults.modeFileNormalize) (BoolTranslator.put_value c.modeFileNormalize)
  | .PUPIL => putUnless (c.pupilFile == defaults.pupilFile) c.pupilFile
  | .WAVELENGTH => putUnless (L.double.eq c.wavelength defaults.wavelength) (L.double.fullText c.wavelength)

/-- The conversion of the clip. -/
def convertClip (c : ObjectCfg F D) : Option (ObjectCfg F D) :=
  (ChannelCfg.zeroBased c.alignClip).map fun alignClip => { c with alignClip := alignClip }

/-! ## What an object is read as -/

/-- `c` is what the texts of a tree say. -/
structure ReadFrom (fuel : ℕ) (tree : ObjectKey → Option Str) (defaults c : ObjectCfg F D) : Prop where
  channel : ChannelCfg.ReadFrom L fuel (fun key => tree (.channel key)) defaults.toChannelCfg c.toChannelCfg
  telescopeF : getElse L.double.extract (tree .TELESCOPE_F) defaults.telescopeF = c.telescopeF
  arcSecsPerPixel : getElse L.double.extract (tree .ARCSECPERPIX) defaults.arcSecsPerPixel = c.arcSecsPerPixel
  pixelSize : getElse L.double.extract (tree .PIXELSIZE) defaults.pixelSize = c.pixelSize
  maxLocalShift : getElse (L.extract 16) (tree .MAX_LOCAL_SHIFT) defaults.maxLocalShift = c.maxLocalShift
  minimumOverlap : getElse (L.extract 16) (tree .MINIMUM_OVERLAP) defaults.minimumOverlap = c.minimumOverlap
  patchSize : getElse (L.extract 16) (tree .NUM_POINTS) defaults.patchSize = c.patchSize
  pupilPixels : getElse (L.extract 16) (tree .PUPIL_POINTS) defaults.pupilPixels = c.pupilPixels
  saveMask : (SaveFlag.mask fun flag => getBool (tree (.saveFlag flag)) (hasFlag defaults.saveMask flag.bit)) =
    c.saveMask
  traceObject : getBool (tree .TRACE_REF) defaults.traceObject = c.traceObject
  outputFileName : ChannelCfg.getString (tree .OUTPUT_FILE) defaults.outputFileName = c.outputFileName
  initFile : L.cleanFile (ChannelCfg.getString (tree .INIT_FILE) defaults.initFile) = c.initFile
  modeFile : L.cleanFile (ChannelCfg.getString (tree .MODE_FILE) defaults.modeFile) = c.modeFile
  modeFileNormalize : getBool (tree .MODE_FILE_NORMALIZE) defaults.modeFileNormalize = c.modeFileNormalize
  pupilFile : L.cleanFile (ChannelCfg.getString (tree .PUPIL) defaults.pupilFile) = c.pupilFile
  wavelength : getElse L.double.extract (tree .WAVELENGTH) defaults.wavelength = c.wavelength

/-- `c` is what a section says, against the defaults, with its clip converted. -/
def Parsed (defaults c : ObjectCfg F D) : Prop :=
  ∃ fuel tree c₀, parseProperties L fuel tree defaults = some c₀ ∧ c₀.convertClip = some c

/-- What parsing has settled. -/
structure Settled (d c : ObjectCfg F D) : Prop where
  channel : ChannelCfg.Settled L d.toChannelCfg c.toChannelCfg
  saveMask : (SaveFlag.mask fun flag => hasFlag c.saveMask flag.bit) = c.saveMask
  initFile : L.cleanFile c.initFile = c.initFile
  modeFile : L.cleanFile c.modeFile = c.modeFile
  pupilFile : L.cleanFile c.pupilFile = c.pupilFile

/-- The flags, numbers, strings and lists of two objects are the same; the clip is left out. -/
structure SameButClip (c c' : ObjectCfg F D) : Prop where
  channel : ChannelCfg.SameButClip L c.toChannelCfg c'.toChannelCfg
  maxLocalShift : c.maxLocalShift = c'.maxLocalShift
  minimumOverlap : c.minimumOverlap = c'.minimumOverlap
  patchSize : c.patchSize = c'.patchSize
  pupilPixels : c.pupilPixels = c'.pupilPixels
  saveMask : c.saveMask = c'.saveMask
  outputFileName : c.outputFileName = c'.outputFileName
  initFile : c.initFile = c'.initFile
  modeFile : c.modeFile = c'.modeFile
  pupilFile : c.pupilFile = c'.pupilFile
  modeFileNormalize : c.modeFileNormalize = c'.modeFileNormalize
  traceObject : c.traceObject = c'.traceObject

/-- The flags, numbers, strings and lists of two objects are the same. -/
structure Same (c c' : ObjectCfg F D) : Prop extends SameButClip L c c' where
  alignClip : c.alignClip = c'.alignClip

/-- Printed, parsed again and converted again, the object is the same. -/
def RoundTrips (d c : ObjectCfg F D) : Prop :=
  ∃ fuel c' c'', parseProperties L fuel (getProperties L c d) d = some c' ∧ c'.convertClip = some c'' ∧ Same L c'' c

variable {L} {fuel : ℕ} {tree : ObjectKey → Option Str} {c d c' : ObjectCfg F D}

theorem parse_iff : parseProperties L fuel tree d = some c ↔ ReadFrom L fuel tree d c := by
  constructor
  · intro h
    obtain ⟨channel, hchannel, h⟩ := Option.bind_eq_some_iff.1 h
    obtain rfl := Option.some.inj h
    exact {
      channel := ChannelCfg.parse_iff.1 hchannel, telescopeF := rfl, arcSecsPerPixel := rfl, pixelSize := rfl
      maxLocalShift := rfl, minimumOverlap := rfl, patchSize := rfl, pupilPixels := rfl, saveMask := rfl
      traceObject := rfl, outputFileName := rfl, initFile := rfl, modeFile := rfl, modeFileNormalize := rfl
      pupilFile := rfl, wavelength := rfl }
  · intro h
    rw [parseProperties, ChannelCfg.parse_iff.2 h.channel, h.telescopeF, h.arcSecsPerPixel, h.pixelSize,
      h.maxLocalShift, h.minimumOverlap, h.patchSize, h.pupilPixels, h.saveMask, h.traceObject, h.outputFileName,
      h.initFile, h.modeFile, h.modeFileNormalize, h.pupilFile, h.wavelength]
    rfl

/-! ## The round trip -/

/-- The channel of a parsed object is a parsed channel. -/
theorem Parsed.channel (h : Parsed L d c) : ChannelCfg.Parsed L d.toChannelCfg c.toChannelCfg := by
  obtain ⟨fuel, tree, c₀, hparse, hconvert⟩ := h
  obtain ⟨clip, hclip, rfl⟩ := Option.map_eq_some_iff.1 hconvert
  refine ⟨fuel, _, c₀.toChannelCfg, ChannelCfg.parse_iff.2 (parse_iff.1 hparse).channel, ?_⟩
  rw [ChannelCfg.convertClip, hclip, Option.map_some]

theorem Parsed.settled (h : Parsed L d c) : Settled L d c := by
  have hchannel := h.channel.settled
  obtain ⟨fuel, tree, c₀, hparse, hconvert⟩ := h
  obtain ⟨clip, hclip, rfl⟩ := Option.map_eq_some_iff.1 hconvert
  have h := parse_iff.1 hparse
  exact {
    channel := hchannel, saveMask := h.saveMask ▸ SaveFlag.mask_settled _, initFile := h.initFile ▸ cleanFile_idem L _
    modeFile := h.modeFile ▸ cleanFile_idem L _, pupilFile := h.pupilFile ▸ cleanFile_idem L _ }

theorem same_convertClip_iff {c'' : ObjectCfg F D} (h : c'.convertClip = some c'') :
    Same L c'' c ↔ SameButClip L c' c ∧ ChannelCfg.zeroBased c'.alignClip = some c.alignClip := by
  obtain ⟨clip, hclip, rfl⟩ := Option.map_eq_some_iff.1 h
  rw [hclip, Option.some.injEq]
  refine ⟨fun hsame => ⟨{ hsame with channel := { hsame.channel with } }, hsame.alignClip⟩, fun ⟨hbut, heq⟩ => ?_⟩
  exact { hbut with channel := { hbut.channel with }, alignClip := heq }

/-- A flag that is put where the masks differ, and falls back to the defaults, comes back. -/
theorem saveFlag_back (flag : SaveFlag) :
    getBool (getProperties L c d (.saveFlag flag)) (hasFlag d.saveMask flag.bit) = hasFlag c.saveMask flag.bit := by
  obtain ⟨i, hi⟩ := flag.single
  rw [getProperties, getBool_put, hasFlag_xor hi]
  cases hasFlag c.saveMask flag.bit <;> cases hasFlag d.saveMask flag.bit <;> rfl

/-- **What is restorable as a channel comes back as an object.** -/
theorem same_of_restorable (hset : Settled L d c) (h : ChannelCfg.Restorable L d.toChannelCfg c.toChannelCfg) :
    ∃ N, ∀ fuel, N ≤ fuel → ∃ c', ReadFrom L fuel (getProperties L c d) d c' ∧
      ChannelCfg.zeroBased c'.alignClip = some c.alignClip ∧ SameButClip L c' c := by
  obtain ⟨N, hN⟩ := ChannelCfg.same_of_restorable hset.channel h
  refine ⟨N, fun fuel hfuel => ?_⟩
  obtain ⟨channel, hread, hclip, hsame⟩ := hN fuel hfuel
  refine ⟨{ c with
    toChannelCfg := channel
    telescopeF := getElse L.double.extract (getProperties L c d .TELESCOPE_F) d.telescopeF
    arcSecsPerPixel := getElse L.double.extract (getProperties L c d .ARCSECPERPIX) d.arcSecsPerPixel
    pixelSize := getElse L.double.extract (getProperties L c d .PIXELSIZE) d.pixelSize
    wavelength := getElse L.double.extract (getProperties L c d .WAVELENGTH) d.wavelength }, ?_, hclip, ?_⟩
  · exact {
      channel := hread, telescopeF := rfl, arcSecsPerPixel := rfl, pixelSize := rfl, wavelength := rfl
      maxLocalShift := getElse_decimal L _ _, minimumOverlap := getElse_decimal L _ _
      patchSize := getElse_decimal L _ _, pupilPixels := getElse_decimal L _ _
      saveMask := (congrArg SaveFlag.mask (funext saveFlag_back)).trans hset.saveMask
      traceObject := getBool_put_default _ _, outputFileName := ChannelCfg.getString_put _ _
      initFile := (congrArg L.cleanFile (ChannelCfg.getString_put _ _)).trans hset.initFile
      modeFile := (congrArg L.cleanFile (ChannelCfg.getString_put _ _)).trans hset.modeFile
      modeFileNormalize := getBool_put_default _ _
      pupilFile := (congrArg L.cleanFile (ChannelCfg.getString_put _ _)).trans hset.pupilFile }
  · exact {
      channel := hsame, maxLocalShift := rfl, minimumOverlap := rfl, patchSize := rfl, pupilPixels := rfl
      saveMask := rfl, outputFileName := rfl, initFile := rfl, modeFile := rfl, pupilFile := rfl
      modeFileNormalize := rfl, traceObject := rfl }

/-- **An object that was parsed comes back exactly if it is restorable as a channel.** -/
theorem roundTrips_iff_restorable (h : Parsed L d c) :
    RoundTrips L d c ↔ ChannelCfg.Restorable L d.toChannelCfg c.toChannelCfg := by
  constructor
  · rintro ⟨fuel, c', c'', hparse, hconvert, hsame⟩
    obtain ⟨hbut, hclip⟩ := (same_convertClip_iff hconvert).1 hsame
    exact ChannelCfg.restorable_of_same h.settled.channel (parse_iff.1 hparse).channel hclip hbut.channel
  · intro hrestorable
    obtain ⟨N, hN⟩ := same_of_restorable h.settled hrestorable
    obtain ⟨c', hread, hclip, hbut⟩ := hN N le_rfl
    have hconvert : c'.convertClip = some { c' with alignClip := c.alignClip } := by
      rw [convertClip, hclip, Option.map_some]
    exact ⟨N, c', _, parse_iff.2 hread, hconvert, (same_convertClip_iff hconvert).2 ⟨hbut, hclip⟩⟩

end ObjectCfg

end Redux.Momfbd.Properties
