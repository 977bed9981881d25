import Redux.Momfbd.GlobalProperties

/-!
# Momfbd.PropertiesTrip — configurations that are printed and read again

Each configuration that was parsed against its defaults comes back from what is printed of it exactly if
it is `Restorable`.  The keys that are read without the defaults, or that hide others, are in its fields.
-/

namespace Redux.Momfbd.Properties

open Redux.Util Redux.Lib

/-- **Channels, objects and jobs come back exactly if they are restorable.** -/
theorem config_roundTrips_iff {F D : Type} (L : Library F D) :
    (∀ d c : ChannelCfg F D, ChannelCfg.Parsed L d c → (ChannelCfg.RoundTrips L d c ↔ ChannelCfg.Restorable L d c)) ∧
    (∀ d c : ObjectCfg F D, ObjectCfg.Parsed L d c →
      (ObjectCfg.RoundTrips L d c ↔ ChannelCfg.Restorable L d.toChannelCfg c.toChannelCfg)) ∧
    ∀ d c : GlobalCfg F D, GlobalCfg.Parsed L d c → (GlobalCfg.RoundTrips L d c ↔ GlobalCfg.Restorable L d c) :=
  ⟨fun _ _ h => ChannelCfg.roundTrips_iff_restorable h, fun _ _ h => ObjectCfg.roundTrips_iff_restorable h,
    fun _ _ h => GlobalCfg.roundTrips_iff_restorable h⟩

/-! ## Whole numbers for the floating-point numbers -/

theorem scanNumber_decimalInt (x : BitVec 16) : scanNumber 16 (decimalInt x.toInt) = some x := by
  have hx := x.isLt
  rw [decimalInt, BitVec.toInt_eq_toNat_cond]
  split_ifs with hsmall hneg hneg
  · omega
  · rw [Int.natAbs_natCast, scanNumber_decimal hx, BitVec.ofNat_toNat, BitVec.setWidth_eq]
  · have habs : ((x.toNat : ℤ) - ((2 ^ 16 : ℕ) : ℤ)).natAbs = 2 ^ 16 - x.toNat := by omega
    rw [habs, scanNumber_minus (by omega)]
    refine congrArg some (BitVec.eq_of_toNat_eq ?_)
    rw [BitVec.toNat_neg, BitVec.toNat_ofNat]
    omega
  · omega

theorem plain_decimal (n : ℕ) : ∀ ch ∈ decimal n, ch ∉ [',', ' ', 'c', 'm', '"'] := by
  intro ch hch hmem
  have hdigit := isDigit_of_mem_decimal hch
  have hall : [',', ' ', 'c', 'm', '"'].all (fun c => !c.isDigit) = true := by decide
  have hno := List.all_eq_true.1 hall ch hmem
  rw [hdigit] at hno
  exact absurd hno (by decide)

/-- Numbers that are whole, in decimals. -/
def wholeNumbers : Floating ℕ where
  eq x y := x == y
  text := decimal
  fullText := decimal
  lexical_cast s := (scanNumber 64 s).map BitVec.toNat
  extract s := (scanNumber 64 s).map BitVec.toNat
  eq_symm _ _ := Bool.beq_comm
  text_ne_nil _ := decimal_ne_nil
  text_plain := plain_decimal

/-- Paths that are clean as they are, and no Karhunen-Loève modes. -/
def wholeLibrary : Library ℕ ℕ where
  float := wholeNumbers
  double := wholeNumbers
  boost := scanf
  extract := scanNumber
  extract_int16 := scanNumber 16
  lexical_cast_int16 := scanNumber 16
  extract_decimal x := (scanNumber_decimal x.isLt).trans (by rw [BitVec.ofNat_toNat, BitVec.setWidth_eq])
  extract_decimalInt := scanNumber_decimalInt
  cast_decimalInt := scanNumber_decimalInt
  one := 1
  unity := 1
  kilo := 1000
  milli := 0
  centi := 0
  mul x y := x * y
  gt x y := decide (y < x)
  cleanPath := id
  cleanPath_idem _ := rfl
  karhunenLoeveExpansion _ _ := []

/-- An object whose channels share an offset file. -/
def offsetDefaults : ChannelCfg ℕ ℕ where
  rotationAngle := 0
  noiseFudge := 1
  weight := 1
  diversityBasis := .ZERNIKE
  diversityModes := ⟨[], .ZERNIKE⟩
  diversityValues := []
  diversityModeFile := []
  divModeFileNormalize := true
  noRestore := false
  alignMap := []
  alignMapX := []
  alignMapY := []
  alignClip := []
  borderClip := 100
  incomplete := 0
  subImagePosXY := []
  subImagePosX := []
  subImagePosY := []
  discard := [0, 0]
  imageDataDir := "./".toList
  imageTemplate := []
  darkTemplate := []
  gainFile := []
  responseFile := []
  backgainFile := []
  psfFile := []
  mmFile := []
  mmRow := 1
  mmWidth := 1
  xOffsetFile := "/data/x.offs".toList
  yOffsetFile := []
  imageNumberOffset := 0
  fileNumbers := []
  waveFrontList := []
  darkNumbers := []
  stokesWeights := [1]

/-- A section that says nothing but an offset file. -/
def offsetSection (file : Str) : ChannelKey → Option Str
  | .XOFFSET => some file
  | _ => none

/-- A channel of the object, with an offset file of its own. -/
def offsetChannel (file : Str) : ChannelCfg ℕ ℕ := { offsetDefaults with xOffsetFile := wholeLibrary.cleanFile file }

theorem offset_parsed (file : Str) : ChannelCfg.Parsed wholeLibrary offsetDefaults (offsetChannel file) :=
  ⟨0, offsetSection file, offsetChannel file, rfl, rfl⟩

theorem offset_restorable {file : Str} (h : wholeLibrary.cleanFile file ≠ offsetDefaults.xOffsetFile) :
    ChannelCfg.Restorable wholeLibrary offsetDefaults (offsetChannel file) where
  diversityModes hne := absurd rfl hne
  diversityValues := nofun
  alignMap := nofun
  alignMapX := nofun
  alignMapY := nofun
  stokesWeights := nofun
  alignClip _ := rfl
  discard hne := absurd rfl hne
  subImagePosXY hne := absurd rfl hne
  hidden hne := absurd rfl hne
  subImagePosX hne := absurd rfl hne
  subImagePosY hne := absurd rfl hne
  imageDataDir hnil := absurd hnil (List.cons_ne_nil _ _)
  fileNumbers hne := absurd rfl hne
  waveFrontList hne := absurd rfl hne
  darkNumbers hne := absurd rfl hne
  modulation _ := ⟨rfl, rfl, rfl⟩
  xOffsetFile heq := absurd heq h
  yOffsetFile _ := rfl

/-- An offset file that is not that of the object comes back. -/
theorem other_offset_comes_back :
    ChannelCfg.RoundTrips wholeLibrary offsetDefaults (offsetChannel "/data/y.offs".toList) :=
  ((config_roundTrips_iff wholeLibrary).1 _ _ (offset_parsed _)).2 (offset_restorable (by decide))

/-- **The offset file of the object is not printed, and then there is none.** -/
theorem same_offset_is_lost :
    ChannelCfg.Parsed wholeLibrary offsetDefaults (offsetChannel "/data/x.offs".toList) ∧
      ¬ChannelCfg.RoundTrips wholeLibrary offsetDefaults (offsetChannel "/data/x.offs".toList) := by
  refine ⟨offset_parsed _, ?_⟩
  rintro ⟨fuel, c', c'', hparse, hconvert, hsame⟩
  have hbut := ((ChannelCfg.same_convertClip_iff hconvert).1 hsame).1
  have hoffset := (ChannelCfg.parse_iff.1 hparse).xOffsetFile
  rw [hbut.xOffsetFile] at hoffset
  exact absurd hoffset (by decide)

end Redux.Momfbd.Properties
