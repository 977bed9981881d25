import Redux.Lib.WireList

/-!
# Momfbd.Config — sending the configuration of a job

`size`, `pack` and `unpack` of `ChannelCfg`, `ObjectCfg` and `GlobalCfg`.  The receiver is told whether
the sender has the other byte order.  An enum takes four bytes, a `bool` one; floating-point numbers are
their bits.  `initFiles` stays at home.
-/

namespace Redux.Momfbd.Config

open Redux.Lib

/-- A string of the standard library: any bytes. -/
abbrev Str := List (BitVec 8)

/-! ## Lists of strings, modes and diversity values -/

/-- `pack` of a list of strings. -/
def packStrings (reversed : Bool) (ss : List Str) : Packer := packList reversed (ss.map packString)

/-- `unpack` of a list of strings; a string ends within `fuel` bytes. -/
def unpackStrings (swap_endian : Bool) (fuel : ℕ) : Unpacker (List Str) :=
  unpackList swap_endian (unpackString fuel)

/-- `size` of a list of strings. -/
def sizeStrings (ss : List Str) : ℕ := 8 + (ss.map fun s => s.length + 1).sum

/-- `ModeID`; a `ModeBase` is an enum. -/
structure ModeID where
  mode : BitVec 16
  type : BitVec 32
  deriving DecidableEq

namespace ModeID

def pack (reversed : Bool) (m : ModeID) : Packer :=
  (packNumber reversed m.type).next (packNumber reversed m.mode)

def unpack : Unpacker ModeID :=
  (unpackNumber 32 false).next fun type =>
  (unpackNumber 16 false).next fun mode =>
  .pure ⟨mode, type⟩

end ModeID

structure ModeList where
  modes : List ModeID
  defaultType : BitVec 32
  deriving DecidableEq

namespace ModeList

def size (list : ModeList) : ℕ := 8 + 4 + list.modes.length * (2 + 4)

/-- `pack`: the length, the default type, the modes. -/
def pack (reversed : Bool) (list : ModeList) : Packer :=
  (packNumber reversed (BitVec.ofNat 64 list.modes.length)).next <|
    (packNumber reversed list.defaultType).next (Packer.all (list.modes.map (ModeID.pack reversed)))

/-- `unpack`: only the length is swapped. -/
def unpack (swap_endian : Bool) : Unpacker ModeList :=
  (unpackNumber 64 swap_endian).next fun count =>
  (unpackNumber 32 false).next fun defaultType =>
  (ModeID.unpack.times count.toNat).next fun modes =>
  .pure ⟨modes, defaultType⟩

end ModeList

/-- `DiversityValue`, 16 bytes in memory with those behind `physical`. -/
structure DiversityValue where
  coefficient : BitVec 64
  physical : BitVec 8
  deriving DecidableEq

/-- The seven bytes behind `physical`. -/
abbrev Padding := Vector (BitVec 8) 7

namespace DiversityValue

/-- `memcpy` of one value on a machine of either byte order. -/
def pack (reversed : Bool) (pad : Padding) (v : DiversityValue) : Packer :=
  (packNumber reversed v.coefficient).next <| (packNumber reversed v.physical).next (packArray pad)

/-- The value in 16 bytes of memory. -/
def ofMemory (bs : List (BitVec 8)) : DiversityValue :=
  ⟨BitVec.ofNat 64 (ofBytes (bs.take 8)), (bs.drop 8).headD 0⟩

/-- `memcpy`, and `swapEndian` of the struct as if it were one number. -/
def unpack (swap_endian : Bool) : Unpacker DiversityValue :=
  (unpackRaw 16 swap_endian).next fun bs => .pure (ofMemory bs)

end DiversityValue

/-- `pack` of a list of diversity values; `pad i` is what memory has behind value `i`. -/
def packValues (reversed : Bool) (pad : ℕ → Padding) (vs : List DiversityValue) : Packer :=
  packList reversed (vs.zipIdx.map fun v => v.1.pack reversed (pad v.2))

/-- `unpack` of a list of diversity values. -/
def unpackValues (swap_endian : Bool) : Unpacker (List DiversityValue) :=
  unpackList swap_endian (DiversityValue.unpack swap_endian)

/-! ## Channels -/

/-- `ChannelCfg`. -/
structure ChannelCfg where
  (rotationAngle noiseFudge weight : BitVec 64)
  diversityBasis : BitVec 32
  diversityModes : ModeList
  diversityValues : List DiversityValue
  diversityModeFile : Str
  (divModeFileNormalize noRestore : BitVec 8)
  (alignMap alignMapX alignMapY : List (BitVec 32))
  alignClip : List (BitVec 16)
  borderClip : BitVec 16
  incomplete : BitVec 8
  (subImagePosXY subImagePosX subImagePosY discard : List (BitVec 16))
  (imageDataDir imageTemplate darkTemplate gainFile responseFile backgainFile psfFile mmFile : Str)
  (mmRow mmWidth : BitVec 8)
  (xOffsetFile yOffsetFile : Str)
  imageNumberOffset : BitVec 32
  (fileNumbers waveFrontList darkNumbers stokesWeights : List (BitVec 32))

namespace ChannelCfg

def size (c : ChannelCfg) : ℕ :=
  let ssz := 2 + 4 + 4 + 1 + 1 + 1 + 8 + 1 + 1 + 8 + 8
  let sz := ssz + (c.backgainFile.length + c.darkTemplate.length + c.diversityModeFile.length +
    c.gainFile.length + 4)
  let sz := sz + (c.imageDataDir.length + c.imageTemplate.length + c.mmFile.length + c.psfFile.length + 4)
  let sz := sz + (c.responseFile.length + c.xOffsetFile.length + c.yOffsetFile.length + 3)
  let sz := sz + (c.alignClip.length * 2 + 8)
  let sz := sz + (c.alignMap.length * 4 + 8)
  let sz := sz + (c.alignMapX.length * 4 + 8)
  let sz := sz + (c.alignMapY.length * 4 + 8)
  let sz := sz + (c.darkNumbers.length * 4 + 8)
  let sz := sz + (c.discard.length * 2 + 8)
  let sz := sz + c.diversityModes.size
  let sz := sz + (c.diversityValues.length * 16 + 8)
  let sz := sz + (c.fileNumbers.length * 4 + 8)
  let sz := sz + (c.stokesWeights.length * 4 + 8)
  let sz := sz + (c.subImagePosX.length * 2 + 8)
  let sz := sz + (c.subImagePosXY.length * 2 + 8)
  let sz := sz + (c.subImagePosY.length * 2 + 8)
  sz + (c.waveFrontList.length * 4 + 8)

/-- `pack`, on a machine of the receiver's byte order or, `reversed`, of the other one. -/
def pack (reversed : Bool) (pad : ℕ → Padding) (c : ChannelCfg) : Packer :=
  Packer.all
    [packNumber reversed c.borderClip, packNumber reversed c.diversityBasis,
      packNumber reversed c.imageNumberOffset, packNumber reversed c.incomplete,
      packNumber reversed c.mmRow, packNumber reversed c.mmWidth, packNumber reversed c.noiseFudge,
      packNumber reversed c.divModeFileNormalize, packNumber reversed c.noRestore,
      packNumber reversed c.rotationAngle, packNumber reversed c.weight, packString c.backgainFile,
      packString c.darkTemplate, packString c.diversityModeFile, packString c.gainFile,
      packString c.imageDataDir, packString c.imageTemplate, packString c.mmFile, packString c.psfFile,
      packString c.responseFile, packString c.xOffsetFile, packString c.yOffsetFile,
      packNumbers reversed c.alignClip, packNumbers reversed c.alignMap,
      packNumbers reversed c.alignMapX, packNumbers reversed c.alignMapY,
      packNumbers reversed c.darkNumbers, packNumbers reversed c.discard,
      c.diversityModes.pack reversed, packValues reversed pad c.diversityValues,
      packNumbers reversed c.fileNumbers, packNumbers reversed c.stokesWeights,
      packNumbers reversed c.subImagePosX, packNumbers reversed c.subImagePosXY,
      packNumbers reversed c.subImagePosY, packNumbers reversed c.waveFrontList]

def unpack (swap_endian : Bool) (fuel : ℕ) : Unpacker ChannelCfg :=
  (unpackNumber 16 swap_endian).next fun borderClip =>
  (unpackNumber 32 swap_endian).next fun diversityBasis =>
  (unpackNumber 32 swap_endian).next fun imageNumberOffset =>
  (unpackNumber 8 false).next fun incomplete =>
  (unpackNumber 8 false).next fun mmRow =>
  (unpackNumber 8 false).next fun mmWidth =>
  (unpackNumber 64 swap_endian).next fun noiseFudge =>
  (unpackNumber 8 false).next fun divModeFileNormalize =>
  (unpackNumber 8 false).next fun noRestore =>
  (unpackNumber 64 swap_endian).next fun rotationAngle =>
  (unpackNumber 64 swap_endian).next fun weight =>
  (unpackString fuel).next fun backgainFile =>
  (unpackString fuel).next fun darkTemplate =>
  (unpackString fuel).next fun diversityModeFile =>
  (unpackString fuel).next fun gainFile =>
  (unpackString fuel).next fun imageDataDir =>
  (unpackString fuel).next fun imageTemplate =>
  (unpackString fuel).next fun mmFile =>
  (unpackString fuel).next fun psfFile =>
  (unpackString fuel).next fun responseFile =>
  (unpackString fuel).next fun xOffsetFile =>
  (unpackString fuel).next fun yOffsetFile =>
  (unpackNumbers 16 swap_endian).next fun alignClip =>
  (unpackNumbers 32 swap_endian).next fun alignMap =>
  (unpackNumbers 32 swap_endian).next fun alignMapX =>
  (unpackNumbers 32 swap_endian).next fun alignMapY =>
  (unpackNumbers 32 swap_endian).next fun darkNumbers =>
  (unpackNumbers 16 swap_endian).next fun discard =>
  (ModeList.unpack swap_endian).next fun diversityModes =>
  (unpackValues swap_endian).next fun diversityValues =>
  (unpackNumbers 32 swap_endian).next fun fileNumbers =>
  (unpackNumbers 32 swap_endian).next fun stokesWeights =>
  (unpackNumbers 16 swap_endian).next fun subImagePosX =>
  (unpackNumbers 16 swap_endian).next fun subImagePosXY =>
  (unpackNumbers 16 swap_endian).next fun subImagePosY =>
  (unpackNumbers 32 swap_endian).next fun waveFrontList =>
  .pure {
    rotationAngle, noiseFudge, weight, diversityBasis, diversityModes, diversityValues,
    diversityModeFile, divModeFileNormalize, noRestore, alignMap, alignMapX, alignMapY, alignClip,
    borderClip, incomplete, subImagePosXY, subImagePosX, subImagePosY, discard, imageDataDir,
    imageTemplate, darkTemplate, gainFile, responseFile, backgainFile, psfFile, mmFile, mmRow, mmWidth,
    xOffsetFile, yOffsetFile, imageNumberOffset, fileNumbers, waveFrontList, darkNumbers, stokesWeights }

end ChannelCfg

/-! ## Objects -/

/-- `ObjectCfg`. -/
structure ObjectCfg extends ChannelCfg where
  (telescopeF arcSecsPerPixel pixelSize : BitVec 64)
  (maxLocalShift minimumOverlap patchSize pupilPixels saveMask : BitVec 16)
  (outputFileName initFile modeFile pupilFile : Str)
  wavelength : BitVec 64
  (modeFileNormalize traceObject : BitVec 8)

namespace ObjectCfg

def size (c : ObjectCfg) : ℕ :=
  let ssz := 8 + 2 + 2 + 2 + 8 + 2 + 2 + 8 + 1 + 1 + 8
  let sz := ssz + c.toChannelCfg.size
  let sz := sz + (c.initFile.length + c.modeFile.length + 2)
  sz + (c.outputFileName.length + c.pupilFile.length + 2)

def pack (reversed : Bool) (pad : ℕ → Padding) (c : ObjectCfg) : Packer :=
  (c.toChannelCfg.pack reversed pad).next <| Packer.all
    [packNumber reversed c.arcSecsPerPixel, packNumber reversed c.maxLocalShift,
      packNumber reversed c.minimumOverlap, packNumber reversed c.patchSize,
      packNumber reversed c.pixelSize, packNumber reversed c.pupilPixels,
      packNumber reversed c.saveMask, packNumber reversed c.telescopeF,
      packNumber reversed c.modeFileNormalize, packNumber reversed c.traceObject,
      packNumber reversed c.wavelength, packString c.initFile, packString c.modeFile,
      packString c.outputFileName, packString c.pupilFile]

def unpack (swap_endian : Bool) (fuel : ℕ) : Unpacker ObjectCfg :=
  (ChannelCfg.unpack swap_endian fuel).next fun toChannelCfg =>
  (unpackNumber 64 swap_endian).next fun arcSecsPerPixel =>
  (unpackNumber 16 swap_endian).next fun maxLocalShift =>
  (unpackNumber 16 swap_endian).next fun minimumOverlap =>
  (unpackNumber 16 swap_endian).next fun patchSize =>
  (unpackNumber 64 swap_endian).next fun pixelSize =>
  (unpackNumber 16 swap_endian).next fun pupilPixels =>
  (unpackNumber 16 swap_endian).next fun saveMask =>
  (unpackNumber 64 swap_endian).next fun telescopeF =>
  (unpackNumber 8 false).next fun modeFileNormalize =>
  (unpackNumber 8 false).next fun traceObject =>
  (unpackNumber 64 swap_endian).next fun wavelength =>
  (unpackString fuel).next fun initFile =>
  (unpackString fuel).next fun modeFile =>
  (unpackString fuel).next fun outputFileName =>
  (unpackString fuel).next fun pupilFile =>
  .pure {
    toChannelCfg,
    telescopeF, arcSecsPerPixel, pixelSize, maxLocalShift, minimumOverlap, patchSize, pupilPixels,
    saveMask, outputFileName, initFile, modeFile, pupilFile, wavelength, modeFileNormalize, traceObject }

end ObjectCfg

/-! ## The job -/

/-- `GlobalCfg`: what is sent of it. -/
structure GlobalCfg extends ObjectCfg where
  runFlags : BitVec 16
  modeBasis : BitVec 32
  (klMinMode klMaxMode : BitVec 16)
  klCutoff : BitVec 32
  (nInitialModes nModeIncrement nModes : BitVec 16)
  modeList : ModeList
  (telescopeD telescopeCO : BitVec 64)
  (minIterations maxIterations targetIterations : BitVec 16)
  (fillpixMethod gradientMethod getstepMethod normType : BitVec 8)
  apodizationSize : BitVec 16
  (badPixelThreshold filterCutoff FTOL EPS reg_alpha graddiff_step : BitVec 32)
  (trace outputFileType outputDataType : BitVec 8)
  sequenceNumber : BitVec 32
  (observationTime observationDate tmpDataDir : Str)
  outputFiles : List Str

namespace GlobalCfg

def size (c : GlobalCfg) : ℕ :=
  let ssz := 4 + 4 + 4 + 1 + 4 + 1 + 2 + 1 + 4 + 1 + 4 + 2 + 2 + 2 + 2 + 4 + 2 + 2 + 2 + 1 + 1 + 4 + 2 +
    4 + 2 + 8 + 8 + 1
  let sz := ssz + c.toObjectCfg.size
  let sz := sz + (c.observationTime.length + c.observationDate.length + c.tmpDataDir.length + 3)
  let sz := sz + c.modeList.size
  sz + sizeStrings c.outputFiles

def pack (reversed : Bool) (pad : ℕ → Padding) (c : GlobalCfg) : Packer :=
  (c.toObjectCfg.pack reversed pad).next <| Packer.all
    [packNumber reversed c.badPixelThreshold, packNumber reversed c.filterCutoff,
      packNumber reversed c.EPS, packNumber reversed c.fillpixMethod, packNumber reversed c.FTOL,
      packNumber reversed c.getstepMethod, packNumber reversed c.graddiff_step,
      packNumber reversed c.gradientMethod, packNumber reversed c.klCutoff,
      packNumber reversed c.klMaxMode, packNumber reversed c.klMinMode,
      packNumber reversed c.maxIterations, packNumber reversed c.minIterations,
      packNumber reversed c.modeBasis, packNumber reversed c.nInitialModes,
      packNumber reversed c.nModeIncrement, packNumber reversed c.nModes,
      packNumber reversed c.outputFileType, packNumber reversed c.outputDataType,
      packNumber reversed c.reg_alpha, packNumber reversed c.runFlags,
      packNumber reversed c.sequenceNumber, packNumber reversed c.targetIterations,
      packNumber reversed c.telescopeCO, packNumber reversed c.telescopeD, packNumber reversed c.trace,
      packNumber reversed c.normType, packNumber reversed c.apodizationSize,
      packString c.observationDate, packString c.observationTime, packString c.tmpDataDir,
      c.modeList.pack reversed, packStrings reversed c.outputFiles]

def unpack (swap_endian : Bool) (fuel : ℕ) : Unpacker GlobalCfg :=
  (ObjectCfg.unpack swap_endian fuel).next fun toObjectCfg =>
  (unpackNumber 32 swap_endian).next fun badPixelThreshold =>
  (unpackNumber 32 swap_endian).next fun filterCutoff =>
  (unpackNumber 32 swap_endian).next fun EPS =>
  (unpackNumber 8 false).next fun fillpixMethod =>
  (unpackNumber 32 swap_endian).next fun FTOL =>
  (unpackNumber 8 false).next fun getstepMethod =>
  (unpackNumber 32 swap_endian).next fun graddiff_step =>
  (unpackNumber 8 false).next fun gradientMethod =>
  (unpackNumber 32 swap_endian).next fun klCutoff =>
  (unpackNumber 16 swap_endian).next fun klMaxMode =>
  (unpackNumber 16 swap_endian).next fun klMinMode =>
  (unpackNumber 16 swap_endian).next fun maxIterations =>
  (unpackNumber 16 swap_endian).next fun minIterations =>
  (unpackNumber 32 swap_endian).next fun modeBasis =>
  (unpackNumber 16 swap_endian).next fun nInitialModes =>
  (unpackNumber 16 swap_endian).next fun nModeIncrement =>
  (unpackNumber 16 swap_endian).next fun nModes =>
  (unpackNumber 8 false).next fun outputFileType =>
  (unpackNumber 8 false).next fun outputDataType =>
  (unpackNumber 32 swap_endian).next fun reg_alpha =>
  (unpackNumber 16 swap_endian).next fun runFlags =>
  (unpackNumber 32 swap_endian).next fun sequenceNumber =>
  (unpackNumber 16 swap_endian).next fun targetIterations =>
  (unpackNumber 64 swap_endian).next fun telescopeCO =>
  (unpackNumber 64 swap_endian).next fun telescopeD =>
  (unpackNumber 8 false).next fun trace =>
  (unpackNumber 8 false).next fun normType =>
  (unpackNumber 16 swap_endian).next fun apodizationSize =>
  (unpackString fuel).next fun observationDate =>
  (unpackString fuel).next fun observationTime =>
  (unpackString fuel).next fun tmpDataDir =>
  (ModeList.unpack swap_endian).next fun modeList =>
  (unpackStrings swap_endian fuel).next fun outputFiles =>
  .pure {
    toObjectCfg,
    runFlags, modeBasis, klMinMode, klMaxMode, klCutoff, nInitialModes, nModeIncrement, nModes,
    modeList, telescopeD, telescopeCO, minIterations, maxIterations, targetIterations, fillpixMethod,
    gradientMethod, getstepMethod, normType, apodizationSize, badPixelThreshold, filterCutoff, FTOL,
    EPS, reg_alpha, graddiff_step, trace, outputFileType, outputDataType, sequenceNumber,
    observationTime, observationDate, tmpDataDir, outputFiles }

end GlobalCfg

end Redux.Momfbd.Config
