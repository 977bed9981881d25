import Redux.Momfbd.Config
import Mathlib.Algebra.Order.BigOperators.Group.List
import Mathlib.Algebra.Order.Ring.Nat

/-!
# Momfbd.ConfigTrip — what comes of a configuration that is sent

Everything comes back from a sender of the same byte order.  From a sender of the other one the numbers
of the mode lists come as they are, and a diversity value is swapped as if it were one number of 16
bytes, so that its coefficient is read from what lies behind it in memory.
-/

namespace Redux.Momfbd.Config

open Redux.Lib

/-! ## Strings, modes and diversity values -/

/-- The bytes of a list of strings. -/
def stringsBytes (reversed : Bool) (ss : List Str) : List (BitVec 8) := listBytes reversed (ss.map stringBytes)

namespace ModeID

def bytes (reversed : Bool) (m : ModeID) : List (BitVec 8) :=
  leBytes 4 (inOrder reversed m.type).toNat ++ leBytes 2 (inOrder reversed m.mode).toNat

/-- What the receiver makes of it. -/
def received (reversed : Bool) (m : ModeID) : ModeID := ⟨inOrder reversed m.mode, inOrder reversed m.type⟩

end ModeID

namespace ModeList

def bytes (reversed : Bool) (list : ModeList) : List (BitVec 8) :=
  lengthBytes reversed list.modes.length ++
    (leBytes 4 (inOrder reversed list.defaultType).toNat ++ (list.modes.map (ModeID.bytes reversed)).flatten)

/-- What the receiver makes of it. -/
def received (reversed : Bool) (list : ModeList) : ModeList :=
  ⟨list.modes.map (ModeID.received reversed), inOrder reversed list.defaultType⟩

/-- The type and the number of each mode, and the default type, read the same in both byte orders. -/
structure Palindromic (list : ModeList) : Prop where
  defaultType : swapEndian list.defaultType = list.defaultType
  modes : ∀ m ∈ list.modes, swapEndian m.mode = m.mode ∧ swapEndian m.type = m.type

end ModeList

namespace DiversityValue

def bytes (reversed : Bool) (pad : Padding) (v : DiversityValue) : List (BitVec 8) :=
  leBytes 8 (inOrder reversed v.coefficient).toNat ++
    (leBytes 1 (inOrder reversed v.physical).toNat ++ pad.toList)

/-- What the receiver makes of it. -/
def received (reversed : Bool) (pad : Padding) (v : DiversityValue) : DiversityValue :=
  ofMemory (if reversed then (v.bytes reversed pad).reverse else v.bytes reversed pad)

/-- The coefficient has the bytes that lie behind it, backwards, and `physical` is its first byte. -/
structure Palindromic (pad : Padding) (v : DiversityValue) : Prop where
  coefficient : leBytes 8 v.coefficient.toNat = pad.toList.reverse ++ [v.physical]
  physical : byteOf v.coefficient.toNat 0 = v.physical

end DiversityValue

/-- The bytes of a list of diversity values. -/
def valuesBytes (reversed : Bool) (pad : ℕ → Padding) (vs : List DiversityValue) : List (BitVec 8) :=
  listBytes reversed (vs.zipIdx.map fun v => v.1.bytes reversed (pad v.2))

/-- What the receiver makes of them. -/
def receivedValues (reversed : Bool) (pad : ℕ → Padding) (vs : List DiversityValue) : List DiversityValue :=
  vs.zipIdx.map fun v => v.1.received reversed (pad v.2)

section Lists

variable {swap : Bool} {fuel : ℕ} {pad : ℕ → Padding}

/-- A number comes back if both sides agree on the byte order. -/
theorem unpacks_ordered {w : ℕ} (hw : w % 8 = 0) (v : BitVec w) :
    Unpacks (unpackNumber w swap) (leBytes (w / 8) (inOrder swap v).toNat) v := by
  have hnum := unpacks_number hw swap swap v
  rwa [inOrder_inOrder hw] at hnum

/-- A byte need not be swapped. -/
theorem unpacks_byte (v : BitVec 8) :
    Unpacks (unpackNumber 8 false) (leBytes 1 (inOrder swap v).toNat) v := by
  rw [inOrder_byte]
  exact unpacks_number (by decide) false false v

theorem packs_strings (ss : List Str) : Packs (packStrings swap ss) (.only (stringsBytes swap ss)) := by
  refine packs_list ?_
  rw [List.forall₂_map_left_iff, List.forall₂_map_right_iff, List.forall₂_same]
  exact fun s _ => packs_string s

theorem unpacks_strings {ss : List Str} (hlen : ss.length < 2 ^ 64) (hnul : ∀ s ∈ ss, ∀ ch ∈ s, ch ≠ 0)
    (hfuel : ∀ s ∈ ss, s.length < fuel) : Unpacks (unpackStrings swap fuel) (stringsBytes swap ss) ss := by
  have hlist := @unpacks_list _ _ (unpackString fuel) swap stringBytes id ss hlen
    fun s hs => unpacks_string (hnul s hs) (hfuel s hs)
  rwa [List.map_id] at hlist

theorem ModeID.packs (m : ModeID) : Packs (m.pack swap) (.only (m.bytes swap)) :=
  (packs_number swap _).next_only (packs_number swap _)

theorem ModeID.unpacks (m : ModeID) : Unpacks ModeID.unpack (m.bytes swap) (m.received swap) :=
  (unpacks_number (by decide) false swap m.type).next
    ((unpacks_number (by decide) false swap m.mode).last unpacks_pure)

theorem ModeList.packs (list : ModeList) : Packs (list.pack swap) (.only (list.bytes swap)) := by
  refine (packs_number swap _).next_only ((packs_number swap _).next_only (packs_sequence ?_))
  rw [List.forall₂_map_left_iff, List.forall₂_map_right_iff, List.forall₂_same]
  exact fun m _ => ModeID.packs m

theorem ModeList.unpacks (list : ModeList) (hlen : list.modes.length < 2 ^ 64) :
    Unpacks (ModeList.unpack swap) (list.bytes swap) (list.received swap) := by
  refine (unpacks_ordered (by decide) _).next ?_
  refine (unpacks_number (by decide) false swap list.defaultType).next ?_
  rw [BitVec.toNat_ofNat, Nat.mod_eq_of_lt hlen]
  exact (unpacks_times fun m _ => ModeID.unpacks m).last unpacks_pure

theorem DiversityValue.packs (p : Padding) (v : DiversityValue) :
    Packs (v.pack swap p) (.only (v.bytes swap p)) :=
  (packs_number swap _).next_only ((packs_number swap _).next_only (packs_array p))

theorem DiversityValue.bytes_length (p : Padding) (v : DiversityValue) : (v.bytes swap p).length = 16 := by
  simp [DiversityValue.bytes]

theorem DiversityValue.unpacks (p : Padding) (v : DiversityValue) :
    Unpacks (DiversityValue.unpack swap) (v.bytes swap p) (v.received swap p) := by
  have hraw := @unpacks_raw swap (v.bytes swap p)
  rw [DiversityValue.bytes_length] at hraw
  exact hraw.last unpacks_pure

theorem packs_values (vs : List DiversityValue) :
    Packs (packValues swap pad vs) (.only (valuesBytes swap pad vs)) := by
  refine packs_list ?_
  rw [List.forall₂_map_left_iff, List.forall₂_map_right_iff, List.forall₂_same]
  exact fun v _ => DiversityValue.packs (pad v.2) v.1

theorem unpacks_values {vs : List DiversityValue} (hlen : vs.length < 2 ^ 64) :
    Unpacks (unpackValues swap) (valuesBytes swap pad vs) (receivedValues swap pad vs) := by
  refine unpacks_list ?_ fun v _ => DiversityValue.unpacks (pad v.2) v.1
  rwa [List.length_zipIdx]

theorem ModeList.bytes_length (list : ModeList) : (list.bytes swap).length = list.size := by
  have hmodes : ((list.modes.map (ModeID.bytes swap)).flatten).length = list.modes.length * 6 := by
    rw [flatten_length (k := 6), List.length_map]
    intro bs hbs
    obtain ⟨m, -, rfl⟩ := List.mem_map.1 hbs
    simp [ModeID.bytes]
  rw [ModeList.bytes, List.length_append, List.length_append, hmodes, lengthBytes, leBytes_length,
    leBytes_length, ModeList.size]
  omega

theorem valuesBytes_length (vs : List DiversityValue) :
    (valuesBytes swap pad vs).length = 8 + vs.length * 16 := by
  rw [valuesBytes, listBytes_length (k := 16), List.length_map, List.length_zipIdx]
  intro bs hbs
  obtain ⟨v, -, rfl⟩ := List.mem_map.1 hbs
  exact DiversityValue.bytes_length _ _

theorem stringsBytes_length (ss : List Str) : (stringsBytes swap ss).length = sizeStrings ss := by
  have hlengths : List.length ∘ stringBytes = fun s => s.length + 1 := funext fun s => stringBytes_length
  rw [stringsBytes, listBytes, List.length_append, lengthBytes, leBytes_length, List.length_flatten,
    List.map_map, hlengths, sizeStrings]

/-! ## When modes and values get across -/

theorem ModeList.received_false (list : ModeList) : list.received false = list := by
  have hmodes : list.modes.map (ModeID.received false) = list.modes.map id :=
    List.map_congr_left fun _ _ => rfl
  rw [ModeList.received, hmodes, List.map_id]
  rfl

/-- The modes that the receiver has are those of the sender if the numbers read the same in both orders. -/
theorem ModeList.received_true_iff (list : ModeList) : list.received true = list ↔ list.Palindromic := by
  obtain ⟨modes, defaultType⟩ := list
  rw [ModeList.received, ModeList.mk.injEq]
  have hmodes : modes.map (ModeID.received true) = modes ↔
      ∀ m ∈ modes, swapEndian m.mode = m.mode ∧ swapEndian m.type = m.type := by
    have hself := @List.map_inj_left _ _ modes (ModeID.received true) id
    rw [List.map_id] at hself
    refine hself.trans (forall₂_congr fun m _ => ?_)
    obtain ⟨mode, type⟩ := m
    rw [ModeID.received, ModeID.mk.injEq]
    rfl
  rw [hmodes]
  exact ⟨fun h => ⟨h.2, h.1⟩, fun h => ⟨h.modes, h.defaultType⟩⟩

theorem DiversityValue.received_false (p : Padding) (v : DiversityValue) : v.received false p = v := by
  obtain ⟨coefficient, physical⟩ := v
  have hcoefficient := ofBytes_leBytes coefficient (by decide)
  simp only [DiversityValue.received, DiversityValue.bytes, DiversityValue.ofMemory, inOrder, leBytes_byte,
    Bool.false_eq_true, if_false]
  rw [List.take_left' leBytes_length, List.drop_left' leBytes_length]
  exact congrArg₂ DiversityValue.mk hcoefficient rfl

/-- What the receiver reads as a value when it swaps 16 bytes as one number. -/
theorem DiversityValue.received_true (p : Padding) (v : DiversityValue) : v.received true p =
    ⟨BitVec.ofNat 64 (ofBytes (p.toList.reverse ++ [v.physical])), byteOf v.coefficient.toNat 0⟩ := by
  have hcoefficient := leBytes_swapEndian (by decide) v.coefficient
  have hbytes : (v.bytes true p).reverse = (p.toList.reverse ++ [v.physical]) ++ leBytes 8 v.coefficient.toNat := by
    rw [DiversityValue.bytes, inOrder_byte, leBytes_byte, inOrder, if_pos rfl]
    rw [List.reverse_append, List.reverse_append, List.reverse_singleton]
    exact congrArg (_ ++ ·) ((congrArg List.reverse hcoefficient).trans (List.reverse_reverse _))
  have hlen : (p.toList.reverse ++ [v.physical]).length = 8 := by simp
  rw [DiversityValue.received, if_pos rfl, hbytes, DiversityValue.ofMemory, List.take_left' hlen,
    List.drop_left' hlen]
  rfl

theorem DiversityValue.received_true_iff (p : Padding) (v : DiversityValue) :
    v.received true p = v ↔ v.Palindromic p := by
  have hlen : (p.toList.reverse ++ [v.physical]).length = 8 := by simp
  rw [DiversityValue.received_true]
  constructor
  · intro h
    have hphysical : byteOf v.coefficient.toNat 0 = v.physical := congrArg DiversityValue.physical h
    have hcoefficient : BitVec.ofNat 64 (ofBytes (p.toList.reverse ++ [v.physical])) = v.coefficient :=
      congrArg DiversityValue.coefficient h
    refine ⟨?_, hphysical⟩
    have hlt := @ofBytes_lt (p.toList.reverse ++ [v.physical])
    have hbytes := @leBytes_ofBytes (p.toList.reverse ++ [v.physical])
    rw [hlen] at hlt hbytes
    rw [← hcoefficient, BitVec.toNat_ofNat, Nat.mod_eq_of_lt hlt, hbytes]
  · intro h
    have hcoefficient := ofBytes_leBytes v.coefficient (by decide)
    rw [← h.coefficient, h.physical]
    exact congrArg₂ DiversityValue.mk hcoefficient rfl

theorem receivedValues_false (vs : List DiversityValue) : receivedValues false pad vs = vs := by
  rw [receivedValues, List.map_congr_left (g := Prod.fst) fun v _ => DiversityValue.received_false _ _,
    List.zipIdx_map_fst]

theorem receivedValues_true_iff (vs : List DiversityValue) : receivedValues true pad vs = vs ↔
    ∀ v ∈ vs.zipIdx, v.1.Palindromic (pad v.2) := by
  have hfst : receivedValues true pad vs = vs ↔
      vs.zipIdx.map (fun v => v.1.received true (pad v.2)) = vs.zipIdx.map Prod.fst := by
    rw [receivedValues, List.zipIdx_map_fst]
  rw [hfst, List.map_inj_left]
  exact forall₂_congr fun v _ => DiversityValue.received_true_iff (pad v.2) v.1

end Lists

/-! ## Channels -/

namespace ChannelCfg

/-- The bytes of the configuration, field by field. -/
def fieldBytes (reversed : Bool) (pad : ℕ → Padding) (c : ChannelCfg) : List (List (BitVec 8)) :=
  [leBytes 2 (inOrder reversed c.borderClip).toNat,
    leBytes 4 (inOrder reversed c.diversityBasis).toNat,
    leBytes 4 (inOrder reversed c.imageNumberOffset).toNat,
    leBytes 1 (inOrder reversed c.incomplete).toNat, leBytes 1 (inOrder reversed c.mmRow).toNat,
    leBytes 1 (inOrder reversed c.mmWidth).toNat, leBytes 8 (inOrder reversed c.noiseFudge).toNat,
    leBytes 1 (inOrder reversed c.divModeFileNormalize).toNat,
    leBytes 1 (inOrder reversed c.noRestore).toNat, leBytes 8 (inOrder reversed c.rotationAngle).toNat,
    leBytes 8 (inOrder reversed c.weight).toNat, stringBytes c.backgainFile,
    stringBytes c.darkTemplate, stringBytes c.diversityModeFile, stringBytes c.gainFile,
    stringBytes c.imageDataDir, stringBytes c.imageTemplate, stringBytes c.mmFile,
    stringBytes c.psfFile, stringBytes c.responseFile, stringBytes c.xOffsetFile,
    stringBytes c.yOffsetFile, numbersBytes reversed c.alignClip, numbersBytes reversed c.alignMap,
    numbersBytes reversed c.alignMapX, numbersBytes reversed c.alignMapY,
    numbersBytes reversed c.darkNumbers, numbersBytes reversed c.discard,
    c.diversityModes.bytes reversed, valuesBytes reversed pad c.diversityValues,
    numbersBytes reversed c.fileNumbers, numbersBytes reversed c.stokesWeights,
    numbersBytes reversed c.subImagePosX, numbersBytes reversed c.subImagePosXY,
    numbersBytes reversed c.subImagePosY, numbersBytes reversed c.waveFrontList]

/-- What the receiver makes of it. -/
def received (reversed : Bool) (pad : ℕ → Padding) (c : ChannelCfg) : ChannelCfg :=
  { c with
    diversityModes := c.diversityModes.received reversed
    diversityValues := receivedValues reversed pad c.diversityValues }

/-- The strings of the configuration. -/
def strings (c : ChannelCfg) : List Str :=
  [
   c.backgainFile, c.darkTemplate, c.diversityModeFile, c.gainFile, c.imageDataDir, c.imageTemplate,
   c.mmFile, c.psfFile, c.responseFile, c.xOffsetFile, c.yOffsetFile]

/-- The lengths of its lists. -/
def lengths (c : ChannelCfg) : List ℕ :=
  [
   c.alignClip.length, c.alignMap.length, c.alignMapX.length, c.alignMapY.length, c.darkNumbers.length,
   c.discard.length, c.diversityModes.modes.length, c.diversityValues.length, c.fileNumbers.length,
   c.stokesWeights.length, c.subImagePosX.length, c.subImagePosXY.length, c.subImagePosY.length,
   c.waveFrontList.length]

section Transfer

variable {c : ChannelCfg} {swap : Bool} {pad : ℕ → Padding} {fuel : ℕ}

theorem packs : Packs (c.pack swap pad) (.only (c.fieldBytes swap pad).flatten) :=
  packs_sequence <|
    .cons (packs_number swap _) <| .cons (packs_number swap _) <| .cons (packs_number swap _) <|
    .cons (packs_number swap _) <| .cons (packs_number swap _) <| .cons (packs_number swap _) <|
    .cons (packs_number swap _) <| .cons (packs_number swap _) <| .cons (packs_number swap _) <|
    .cons (packs_number swap _) <| .cons (packs_number swap _) <| .cons (packs_string _) <|
    .cons (packs_string _) <| .cons (packs_string _) <| .cons (packs_string _) <|
    .cons (packs_string _) <| .cons (packs_string _) <| .cons (packs_string _) <|
    .cons (packs_string _) <| .cons (packs_string _) <| .cons (packs_string _) <|
    .cons (packs_string _) <| .cons (packs_numbers _) <| .cons (packs_numbers _) <|
    .cons (packs_numbers _) <| .cons (packs_numbers _) <| .cons (packs_numbers _) <|
    .cons (packs_numbers _) <| .cons (ModeList.packs _) <| .cons (packs_values _) <|
    .cons (packs_numbers _) <| .cons (packs_numbers _) <| .cons (packs_numbers _) <|
    .cons (packs_numbers _) <| .cons (packs_numbers _) <| .cons (packs_numbers _) <| .nil

/-- What the receiver takes off the bytes. -/
theorem unpacks (hnul : ∀ s ∈ c.strings, ∀ ch ∈ s, ch ≠ 0) (hfuel : ∀ s ∈ c.strings, s.length < fuel)
    (hlen : ∀ n ∈ c.lengths, n < 2 ^ 64) :
    Unpacks (unpack swap fuel) (c.fieldBytes swap pad).flatten (c.received swap pad) := by
  have hstring : ∀ s ∈ c.strings, Unpacks (unpackString fuel) (stringBytes s) s :=
    fun s hs => unpacks_string (hnul s hs) (hfuel s hs)
  have hnums {w : ℕ} (hw : w % 8 = 0) (vs : List (BitVec w)) (h : vs.length ∈ c.lengths) :
      Unpacks (unpackNumbers w swap) (numbersBytes swap vs) vs :=
    unpacks_numbers hw (hlen _ h)
  refine (unpacks_ordered (by decide) c.borderClip).next ?_
  refine (unpacks_ordered (by decide) c.diversityBasis).next ?_
  refine (unpacks_ordered (by decide) c.imageNumberOffset).next ?_
  refine (unpacks_byte c.incomplete).next ?_
  refine (unpacks_byte c.mmRow).next ?_
  refine (unpacks_byte c.mmWidth).next ?_
  refine (unpacks_ordered (by decide) c.noiseFudge).next ?_
  refine (unpacks_byte c.divModeFileNormalize).next ?_
  refine (unpacks_byte c.noRestore).next ?_
  refine (unpacks_ordered (by decide) c.rotationAngle).next ?_
  refine (unpacks_ordered (by decide) c.weight).next ?_
  refine (hstring c.backgainFile (by simp [strings])).next ?_
  refine (hstring c.darkTemplate (by simp [strings])).next ?_
  refine (hstring c.diversityModeFile (by simp [strings])).next ?_
  refine (hstring c.gainFile (by simp [strings])).next ?_
  refine (hstring c.imageDataDir (by simp [strings])).next ?_
  refine (hstring c.imageTemplate (by simp [strings])).next ?_
  refine (hstring c.mmFile (by simp [strings])).next ?_
  refine (hstring c.psfFile (by simp [strings])).next ?_
  refine (hstring c.responseFile (by simp [strings])).next ?_
  refine (hstring c.xOffsetFile (by simp [strings])).next ?_
  refine (hstring c.yOffsetFile (by simp [strings])).next ?_
  refine (hnums (by decide) c.alignClip (by simp [lengths])).next ?_
  refine (hnums (by decide) c.alignMap (by simp [lengths])).next ?_
  refine (hnums (by decide) c.alignMapX (by simp [lengths])).next ?_
  refine (hnums (by decide) c.alignMapY (by simp [lengths])).next ?_
  refine (hnums (by decide) c.darkNumbers (by simp [lengths])).next ?_
  refine (hnums (by decide) c.discard (by simp [lengths])).next ?_
  refine (ModeList.unpacks c.diversityModes (hlen _ (by simp [lengths]))).next ?_
  refine (unpacks_values (hlen _ (by simp [lengths]))).next ?_
  refine (hnums (by decide) c.fileNumbers (by simp [lengths])).next ?_
  refine (hnums (by decide) c.stokesWeights (by simp [lengths])).next ?_
  refine (hnums (by decide) c.subImagePosX (by simp [lengths])).next ?_
  refine (hnums (by decide) c.subImagePosXY (by simp [lengths])).next ?_
  refine (hnums (by decide) c.subImagePosY (by simp [lengths])).next ?_
  refine (hnums (by decide) c.waveFrontList (by simp [lengths])).next ?_
  exact unpacks_pure

/-- The size is that of the bytes. -/
theorem fieldBytes_length : (c.fieldBytes swap pad).flatten.length = c.size := by
  simp only [fieldBytes, List.flatten_cons, List.flatten_nil, List.length_append, List.length_nil,
    stringBytes_length, leBytes_length, numbersBytes_length, ModeList.bytes_length, valuesBytes_length, size]
  omega

theorem length_lt_size : ∀ s ∈ c.strings, s.length < c.size := by
  intro s hs
  have hsum : (c.strings.map List.length).sum < c.size := by
    simp only [strings, List.map_cons, List.map_nil, List.sum_cons, List.sum_nil, size]
    omega
  exact (List.le_sum_of_mem (List.mem_map_of_mem hs)).trans_lt hsum

/-- The receiver has what was sent if modes and values get across. -/
theorem received_eq_iff : c.received swap pad = c ↔ (swap = true → c.diversityModes.Palindromic ∧
    ∀ v ∈ c.diversityValues.zipIdx, v.1.Palindromic (pad v.2)) := by
  have hfields : c.received swap pad = c ↔ c.diversityModes.received swap = c.diversityModes ∧
      receivedValues swap pad c.diversityValues = c.diversityValues := by
    constructor
    · intro h
      exact ⟨congrArg diversityModes h, congrArg diversityValues h⟩
    · rintro ⟨hmodes, hvalues⟩
      rw [received, hmodes, hvalues]
  rw [hfields]
  cases swap
  · exact iff_of_true ⟨ModeList.received_false _, receivedValues_false _⟩ (fun h => absurd h Bool.false_ne_true)
  · rw [ModeList.received_true_iff, receivedValues_true_iff]
    exact ⟨fun h _ => h, fun h => h rfl⟩

end Transfer

end ChannelCfg

/-! ## Objects -/

namespace ObjectCfg

/-- The bytes of what an object has besides a channel's configuration, field by field. -/
def fieldBytes (reversed : Bool) (c : ObjectCfg) : List (List (BitVec 8)) :=
  [leBytes 8 (inOrder reversed c.arcSecsPerPixel).toNat,
    leBytes 2 (inOrder reversed c.maxLocalShift).toNat,
    leBytes 2 (inOrder reversed c.minimumOverlap).toNat,
    leBytes 2 (inOrder reversed c.patchSize).toNat, leBytes 8 (inOrder reversed c.pixelSize).toNat,
    leBytes 2 (inOrder reversed c.pupilPixels).toNat, leBytes 2 (inOrder reversed c.saveMask).toNat,
    leBytes 8 (inOrder reversed c.telescopeF).toNat,
    leBytes 1 (inOrder reversed c.modeFileNormalize).toNat,
    leBytes 1 (inOrder reversed c.traceObject).toNat, leBytes 8 (inOrder reversed c.wavelength).toNat,
    stringBytes c.initFile, stringBytes c.modeFile, stringBytes c.outputFileName,
    stringBytes c.pupilFile]

/-- The bytes of the configuration. -/
def bytes (reversed : Bool) (pad : ℕ → Padding) (c : ObjectCfg) : List (BitVec 8) :=
  (c.toChannelCfg.fieldBytes reversed pad).flatten ++ (c.fieldBytes reversed).flatten

/-- What the receiver makes of it. -/
def received (reversed : Bool) (pad : ℕ → Padding) (c : ObjectCfg) : ObjectCfg :=
  { c with toChannelCfg := c.toChannelCfg.received reversed pad }

/-- The strings of the configuration. -/
def strings (c : ObjectCfg) : List Str :=
  c.toChannelCfg.strings ++
    [
   c.initFile, c.modeFile, c.outputFileName, c.pupilFile]

section Transfer

variable {c : ObjectCfg} {swap : Bool} {pad : ℕ → Padding} {fuel : ℕ}

theorem packs : Packs (c.pack swap pad) (.only (c.bytes swap pad)) :=
  ChannelCfg.packs.next_only <| packs_sequence <|
    .cons (packs_number swap _) <| .cons (packs_number swap _) <| .cons (packs_number swap _) <|
    .cons (packs_number swap _) <| .cons (packs_number swap _) <| .cons (packs_number swap _) <|
    .cons (packs_number swap _) <| .cons (packs_number swap _) <| .cons (packs_number swap _) <|
    .cons (packs_number swap _) <| .cons (packs_number swap _) <| .cons (packs_string _) <|
    .cons (packs_string _) <| .cons (packs_string _) <| .cons (packs_string _) <| .nil

/-- What the receiver takes off the bytes. -/
theorem unpacks (hnul : ∀ s ∈ c.strings, ∀ ch ∈ s, ch ≠ 0) (hfuel : ∀ s ∈ c.strings, s.length < fuel)
    (hlen : ∀ n ∈ c.toChannelCfg.lengths, n < 2 ^ 64) :
    Unpacks (unpack swap fuel) (c.bytes swap pad) (c.received swap pad) := by
  have hstring : ∀ s ∈ c.strings, Unpacks (unpackString fuel) (stringBytes s) s :=
    fun s hs => unpacks_string (hnul s hs) (hfuel s hs)
  have hchannel : ∀ s ∈ c.toChannelCfg.strings, s ∈ c.strings := fun s hs => List.mem_append_left _ hs
  refine (ChannelCfg.unpacks (fun s hs => hnul s (hchannel s hs)) (fun s hs => hfuel s (hchannel s hs))
    hlen).next ?_
  refine (unpacks_ordered (by decide) c.arcSecsPerPixel).next ?_
  refine (unpacks_ordered (by decide) c.maxLocalShift).next ?_
  refine (unpacks_ordered (by decide) c.minimumOverlap).next ?_
  refine (unpacks_ordered (by decide) c.patchSize).next ?_
  refine (unpacks_ordered (by decide) c.pixelSize).next ?_
  refine (unpacks_ordered (by decide) c.pupilPixels).next ?_
  refine (unpacks_ordered (by decide) c.saveMask).next ?_
  refine (unpacks_ordered (by decide) c.telescopeF).next ?_
  refine (unpacks_byte c.modeFileNormalize).next ?_
  refine (unpacks_byte c.traceObject).next ?_
  refine (unpacks_ordered (by decide) c.wavelength).next ?_
  refine (hstring c.initFile (by simp [strings])).next ?_
  refine (hstring c.modeFile (by simp [strings])).next ?_
  refine (hstring c.outputFileName (by simp [strings])).next ?_
  refine (hstring c.pupilFile (by simp [strings])).next ?_
  exact unpacks_pure

theorem bytes_length : (c.bytes swap pad).length = c.size := by
  simp only [bytes, fieldBytes, List.flatten_cons, List.flatten_nil, List.length_append, List.length_nil,
    stringBytes_length, leBytes_length, ChannelCfg.fieldBytes_length, size]
  omega

theorem length_lt_size : ∀ s ∈ c.strings, s.length < c.size := by
  intro s hs
  simp only [size]
  rcases List.mem_append.1 hs with hs | hs
  · have hlt := ChannelCfg.length_lt_size s hs
    omega
  · simp only [List.mem_cons, List.not_mem_nil, or_false] at hs
    rcases hs with rfl | rfl | rfl | rfl <;> omega

theorem received_eq_iff : c.received swap pad = c ↔
    c.toChannelCfg.received swap pad = c.toChannelCfg := by
  constructor
  · intro h
    exact congrArg toChannelCfg h
  · intro h
    rw [received, h]

end Transfer

end ObjectCfg

/-! ## The job -/

namespace GlobalCfg

/-- The bytes of what a job has besides an object's configuration, field by field. -/
def fieldBytes (reversed : Bool) (c : GlobalCfg) : List (List (BitVec 8)) :=
  [leBytes 4 (inOrder reversed c.badPixelThreshold).toNat,
    leBytes 4 (inOrder reversed c.filterCutoff).toNat, leBytes 4 (inOrder reversed c.EPS).toNat,
    leBytes 1 (inOrder reversed c.fillpixMethod).toNat, leBytes 4 (inOrder reversed c.FTOL).toNat,
    leBytes 1 (inOrder reversed c.getstepMethod).toNat,
    leBytes 4 (inOrder reversed c.graddiff_step).toNat,
    leBytes 1 (inOrder reversed c.gradientMethod).toNat, leBytes 4 (inOrder reversed c.klCutoff).toNat,
    leBytes 2 (inOrder reversed c.klMaxMode).toNat, leBytes 2 (inOrder reversed c.klMinMode).toNat,
    leBytes 2 (inOrder reversed c.maxIterations).toNat,
    leBytes 2 (inOrder reversed c.minIterations).toNat, leBytes 4 (inOrder reversed c.modeBasis).toNat,
    leBytes 2 (inOrder reversed c.nInitialModes).toNat,
    leBytes 2 (inOrder reversed c.nModeIncrement).toNat, leBytes 2 (inOrder reversed c.nModes).toNat,
    leBytes 1 (inOrder reversed c.outputFileType).toNat,
    leBytes 1 (inOrder reversed c.outputDataType).toNat,
    leBytes 4 (inOrder reversed c.reg_alpha).toNat, leBytes 2 (inOrder reversed c.runFlags).toNat,
    leBytes 4 (inOrder reversed c.sequenceNumber).toNat,
    leBytes 2 (inOrder reversed c.targetIterations).toNat,
    leBytes 8 (inOrder reversed c.telescopeCO).toNat, leBytes 8 (inOrder reversed c.telescopeD).toNat,
    leBytes 1 (inOrder reversed c.trace).toNat, leBytes 1 (inOrder reversed c.normType).toNat,
    leBytes 2 (inOrder reversed c.apodizationSize).toNat, stringBytes c.observationDate,
    stringBytes c.observationTime, stringBytes c.tmpDataDir, c.modeList.bytes reversed,
    stringsBytes reversed c.outputFiles]

/-- The bytes of the configuration. -/
def bytes (reversed : Bool) (pad : ℕ → Padding) (c : GlobalCfg) : List (BitVec 8) :=
  c.toObjectCfg.bytes reversed pad ++ (c.fieldBytes reversed).flatten

/-- What the receiver makes of it. -/
def received (reversed : Bool) (pad : ℕ → Padding) (c : GlobalCfg) : GlobalCfg :=
  { c with
    toObjectCfg := c.toObjectCfg.received reversed pad
    modeList := c.modeList.received reversed }

/-- The strings of the configuration. -/
def strings (c : GlobalCfg) : List Str :=
  c.toObjectCfg.strings ++
    [
   c.observationDate, c.observationTime, c.tmpDataDir] ++ c.outputFiles

/-- The lengths of its lists. -/
def lengths (c : GlobalCfg) : List ℕ :=
  c.toChannelCfg.lengths ++
    [
   c.modeList.modes.length, c.outputFiles.length]

section Transfer

variable {c : GlobalCfg} {swap : Bool} {pad : ℕ → Padding} {fuel : ℕ}

theorem packs : Packs (c.pack swap pad) (.only (c.bytes swap pad)) :=
  ObjectCfg.packs.next_only <| packs_sequence <|
    .cons (packs_number swap _) <| .cons (packs_number swap _) <| .cons (packs_number swap _) <|
    .cons (packs_number swap _) <| .cons (packs_number swap _) <| .cons (packs_number swap _) <|
    .cons (packs_number swap _) <| .cons (packs_number swap _) <| .cons (packs_number swap _) <|
    .cons (packs_number swap _) <| .cons (packs_number swap _) <| .cons (packs_number swap _) <|
    .cons (packs_number swap _) <| .cons (packs_number swap _) <| .cons (packs_number swap _) <|
    .cons (packs_number swap _) <| .cons (packs_number swap _) <| .cons (packs_number swap _) <|
    .cons (packs_number swap _) <| .cons (packs_number swap _) <| .cons (packs_number swap _) <|
    .cons (packs_number swap _) <| .cons (packs_number swap _) <| .cons (packs_number swap _) <|
    .cons (packs_number swap _) <| .cons (packs_number swap _) <| .cons (packs_number swap _) <|
    .cons (packs_number swap _) <| .cons (packs_string _) <| .cons (packs_string _) <|
    .cons (packs_string _) <| .cons (ModeList.packs _) <| .cons (packs_strings _) <| .nil

/-- What the receiver takes off the bytes. -/
theorem unpacks (hnul : ∀ s ∈ c.strings, ∀ ch ∈ s, ch ≠ 0) (hfuel : ∀ s ∈ c.strings, s.length < fuel)
    (hlen : ∀ n ∈ c.lengths, n < 2 ^ 64) :
    Unpacks (unpack swap fuel) (c.bytes swap pad) (c.received swap pad) := by
  have hstring : ∀ s ∈ c.strings, Unpacks (unpackString fuel) (stringBytes s) s :=
    fun s hs => unpacks_string (hnul s hs) (hfuel s hs)
  have hfiles : ∀ s ∈ c.outputFiles, s ∈ c.strings := fun s hs => List.mem_append_right _ hs
  have hstrings (ss : List Str) (hss : ss = c.outputFiles) :
      Unpacks (unpackStrings swap fuel) (stringsBytes swap ss) ss := by
    subst hss
    exact unpacks_strings (hlen _ (by simp [lengths])) (fun s hs => hnul s (hfiles s hs))
      fun s hs => hfuel s (hfiles s hs)
  have hobject : ∀ s ∈ c.toObjectCfg.strings, s ∈ c.strings :=
    fun s hs => List.mem_append_left _ (List.mem_append_left _ hs)
  refine (ObjectCfg.unpacks (fun s hs => hnul s (hobject s hs)) (fun s hs => hfuel s (hobject s hs))
    fun n hn => hlen n (List.mem_append_left _ hn)).next ?_
  refine (unpacks_ordered (by decide) c.badPixelThreshold).next ?_
  refine (unpacks_ordered (by decide) c.filterCutoff).next ?_
  refine (unpacks_ordered (by decide) c.EPS).next ?_
  refine (unpacks_byte c.fillpixMethod).next ?_
  refine (unpacks_ordered (by decide) c.FTOL).next ?_
  refine (unpacks_byte c.getstepMethod).next ?_
  refine (unpacks_ordered (by decide) c.graddiff_step).next ?_
  refine (unpacks_byte c.gradientMethod).next ?_
  refine (unpacks_ordered (by decide) c.klCutoff).next ?_
  refine (unpacks_ordered (by decide) c.klMaxMode).next ?_
  refine (unpacks_ordered (by decide) c.klMinMode).next ?_
  refine (unpacks_ordered (by decide) c.maxIterations).next ?_
  refine (unpacks_ordered (by decide) c.minIterations).next ?_
  refine (unpacks_ordered (by decide) c.modeBasis).next ?_
  refine (unpacks_ordered (by decide) c.nInitialModes).next ?_
  refine (unpacks_ordered (by decide) c.nModeIncrement).next ?_
  refine (unpacks_ordered (by decide) c.nModes).next ?_
  refine (unpacks_byte c.outputFileType).next ?_
  refine (unpacks_byte c.outputDataType).next ?_
  refine (unpacks_ordered (by decide) c.reg_alpha).next ?_
  refine (unpacks_ordered (by decide) c.runFlags).next ?_
  refine (unpacks_ordered (by decide) c.sequenceNumber).next ?_
  refine (unpacks_ordered (by decide) c.targetIterations).next ?_
  refine (unpacks_ordered (by decide) c.telescopeCO).next ?_
  refine (unpacks_ordered (by decide) c.telescopeD).next ?_
  refine (unpacks_byte c.trace).next ?_
  refine (unpacks_byte c.normType).next ?_
  refine (unpacks_ordered (by decide) c.apodizationSize).next ?_
  refine (hstring c.observationDate (by simp [strings])).next ?_
  refine (hstring c.observationTime (by simp [strings])).next ?_
  refine (hstring c.tmpDataDir (by simp [strings])).next ?_
  refine (ModeList.unpacks c.modeList (hlen _ (by simp [lengths]))).next ?_
  refine (hstrings c.outputFiles rfl).next ?_
  exact unpacks_pure

theorem bytes_length : (c.bytes swap pad).length = c.size := by
  simp only [bytes, fieldBytes, List.flatten_cons, List.flatten_nil, List.length_append, List.length_nil,
    stringBytes_length, leBytes_length, ModeList.bytes_length, stringsBytes_length, ObjectCfg.bytes_length,
    size]
  omega

theorem length_lt_size : ∀ s ∈ c.strings, s.length < c.size := by
  intro s hs
  simp only [size]
  rcases List.mem_append.1 hs with hs | hs
  · rcases List.mem_append.1 hs with hs | hs
    · have hlt := ObjectCfg.length_lt_size s hs
      omega
    · simp only [List.mem_cons, List.not_mem_nil, or_false] at hs
      rcases hs with rfl | rfl | rfl <;> omega
  · have hle : s.length + 1 ≤ sizeStrings c.outputFiles := by
      have hmem : s.length + 1 ∈ c.outputFiles.map fun s => s.length + 1 := List.mem_map.2 ⟨s, hs, rfl⟩
      exact (List.le_sum_of_mem hmem).trans (Nat.le_add_left _ 8)
    omega

theorem received_eq_iff : c.received swap pad = c ↔
    c.toObjectCfg.received swap pad = c.toObjectCfg ∧ c.modeList.received swap = c.modeList := by
  constructor
  · intro h
    exact ⟨congrArg toObjectCfg h, congrArg modeList h⟩
  · rintro ⟨hobject, hmodes⟩
    rw [received, hobject, hmodes]

end Transfer

end GlobalCfg

/-! ## What gets across -/

/-- What can be sent: strings without a zero in them, and lists as long as a `std::vector` can be. -/
structure Sendable (strings : List Str) (lengths : List ℕ) : Prop where
  nulFree : ∀ s ∈ strings, ∀ ch ∈ s, ch ≠ 0
  fits : ∀ n ∈ lengths, n < 2 ^ 64

/-- `size` is what `pack` counts, and `unpack` takes as many bytes and has `c` back. -/
def Transfers {α : Type} (size : ℕ) (pack : Packer) (unpack : ℕ → Unpacker α) (c : α) : Prop :=
  ∀ x p fuel, size ≤ fuel →
    (pack x p).2 = size ∧ unpack fuel (pack x p).1 p = some (c, size)

/-- The modes and the diversity values of a channel, from a sender of the other byte order. -/
structure ChannelCfg.Palindromic (c : ChannelCfg) (pad : ℕ → Padding) : Prop where
  modes : c.diversityModes.Palindromic
  values : ∀ v ∈ c.diversityValues.zipIdx, v.1.Palindromic (pad v.2)

/-- A value gets across if the receiver makes of it what it was. -/
theorem transfers_iff {α : Type} {size : ℕ} {pack : Packer} {unpack : ℕ → Unpacker α} {c r : α}
    {bytes : List (BitVec 8)} (hpacks : Packs pack (.only bytes)) (hlen : bytes.length = size)
    (hunpacks : ∀ fuel, size ≤ fuel → Unpacks (unpack fuel) bytes r) :
    Transfers size pack unpack c ↔ r = c := by
  have hgot : ∀ x p fuel, size ≤ fuel →
      (pack x p).2 = size ∧ unpack fuel (pack x p).1 p = some (r, size) := by
    intro x p fuel hfuel
    obtain ⟨_, rfl, hpack⟩ := hpacks x p
    rw [hpack]
    refine ⟨hlen, ?_⟩
    rw [hunpacks fuel hfuel _ p reads_writeBytes, hlen]
  constructor
  · intro h
    have hc := (h (fun _ => 0) 0 size (Nat.le_refl _)).2
    rw [(hgot (fun _ => 0) 0 size (Nat.le_refl _)).2] at hc
    exact (Prod.mk.inj (Option.some_inj.1 hc)).1
  · rintro rfl
    exact hgot

theorem channel_transfers_iff {swap : Bool} {pad : ℕ → Padding} {c : ChannelCfg}
    (hc : Sendable c.strings c.lengths) :
    Transfers c.size (c.pack swap pad) (ChannelCfg.unpack swap) c ↔ (swap = true → c.Palindromic pad) := by
  rw [transfers_iff ChannelCfg.packs ChannelCfg.fieldBytes_length fun fuel hfuel =>
    ChannelCfg.unpacks hc.nulFree (fun s hs => (ChannelCfg.length_lt_size s hs).trans_le hfuel) hc.fits,
    ChannelCfg.received_eq_iff]
  exact forall_congr' fun _ => ⟨fun h => ⟨h.1, h.2⟩, fun h => ⟨h.modes, h.values⟩⟩

theorem object_transfers_iff {swap : Bool} {pad : ℕ → Padding} {c : ObjectCfg}
    (hc : Sendable c.strings c.lengths) :
    Transfers c.size (c.pack swap pad) (ObjectCfg.unpack swap) c ↔
      (swap = true → c.toChannelCfg.Palindromic pad) := by
  rw [transfers_iff ObjectCfg.packs ObjectCfg.bytes_length fun fuel hfuel =>
    ObjectCfg.unpacks hc.nulFree (fun s hs => (ObjectCfg.length_lt_size s hs).trans_le hfuel) hc.fits,
    ObjectCfg.received_eq_iff, ChannelCfg.received_eq_iff]
  exact forall_congr' fun _ => ⟨fun h => ⟨h.1, h.2⟩, fun h => ⟨h.modes, h.values⟩⟩

theorem global_transfers_iff {swap : Bool} {pad : ℕ → Padding} {c : GlobalCfg}
    (hc : Sendable c.strings c.lengths) :
    Transfers c.size (c.pack swap pad) (GlobalCfg.unpack swap) c ↔
      (swap = true → c.toChannelCfg.Palindromic pad ∧ c.modeList.Palindromic) := by
  rw [transfers_iff GlobalCfg.packs GlobalCfg.bytes_length fun fuel hfuel =>
    GlobalCfg.unpacks hc.nulFree (fun s hs => (GlobalCfg.length_lt_size s hs).trans_le hfuel) hc.fits,
    GlobalCfg.received_eq_iff, ObjectCfg.received_eq_iff, ChannelCfg.received_eq_iff]
  cases swap
  · exact iff_of_true ⟨fun h => absurd h Bool.false_ne_true, ModeList.received_false _⟩
      fun h => absurd h Bool.false_ne_true
  · rw [ModeList.received_true_iff]
    exact ⟨fun h _ => ⟨⟨(h.1 rfl).1, (h.1 rfl).2⟩, h.2⟩,
      fun h => ⟨fun _ => ⟨(h rfl).1.modes, (h rfl).1.values⟩, (h rfl).2⟩⟩

/-- **A configuration gets across** from a sender of the same byte order, and from one of the other order
exactly where its modes and diversity values read the same in both. -/
theorem config_transfers_iff (swap : Bool) (pad : ℕ → Padding) :
    (∀ c : ChannelCfg, Sendable c.strings c.lengths →
      (Transfers c.size (c.pack swap pad) (ChannelCfg.unpack swap) c ↔ (swap = true → c.Palindromic pad))) ∧
    (∀ c : ObjectCfg, Sendable c.strings c.lengths →
      (Transfers c.size (c.pack swap pad) (ObjectCfg.unpack swap) c ↔
        (swap = true → c.toChannelCfg.Palindromic pad))) ∧
    ∀ c : GlobalCfg, Sendable c.strings c.lengths →
      (Transfers c.size (c.pack swap pad) (GlobalCfg.unpack swap) c ↔
        (swap = true → c.toChannelCfg.Palindromic pad ∧ c.modeList.Palindromic)) :=
  ⟨fun _ => channel_transfers_iff, fun _ => object_transfers_iff, fun _ => global_transfers_iff⟩

/-- The defaults of the constructors, floating-point numbers apart, with a list of modes of the default
type 0. -/
def sample (modes : List ModeID) : GlobalCfg :=
  ⟨⟨⟨0, 0, 0, 1, ⟨[], 0⟩, [], [], 1, 0, [], [], [], [], 100, 0, [], [], [], [2, 0], [], [], [], [], [], [], [],
      [], 0, 0, [], [], 0, [], [], [], []⟩, 0, 0, 0, 5, 16, 128, 64, 0, [], [], [], [], 0, 1, 0⟩,
    0, 1, 2, 2000, 0, 5, 5, 0, ⟨modes, 0⟩, 0, 0, 5, 500, 3, 2, 0, 0, 0, 0xffff, 0, 0, 0, 0, 0, 0, 0, 0, 1, 0,
    [], [], [], []⟩

theorem sample_sendable {modes : List ModeID} (h : modes.length < 2 ^ 64) :
    Sendable (sample modes).strings (sample modes).lengths where
  nulFree := by simp [sample, GlobalCfg.strings, ObjectCfg.strings, ChannelCfg.strings]
  fits := by simpa [sample, GlobalCfg.lengths, ChannelCfg.lengths] using h

/-- Without modes the configuration gets across. -/
theorem sample_transfers : Transfers (sample []).size ((sample []).pack true fun _ => .replicate 7 0)
    (GlobalCfg.unpack true) (sample []) := by
  refine ((config_transfers_iff true fun _ => .replicate 7 0).2.2 (sample []) (sample_sendable (by decide))).2 ?_
  intro _
  exact ⟨⟨⟨by decide, fun m hm => absurd hm List.not_mem_nil⟩, fun v hv => absurd hv List.not_mem_nil⟩,
    by decide, fun m hm => absurd hm List.not_mem_nil⟩

/-- The Zernike mode 2 arrives as mode 512 of type 16777216. -/
theorem mode_not_swapped : ¬ ∀ (swap : Bool) (pad : ℕ → Padding) (c : GlobalCfg),
    Sendable c.strings c.lengths → Transfers c.size (c.pack swap pad) (GlobalCfg.unpack swap) c := by
  intro h
  have hsample := h true (fun _ => .replicate 7 0) (sample [⟨2, 1⟩]) (sample_sendable (by decide))
  have hmodes := (global_transfers_iff (sample_sendable (by decide))).1 hsample rfl
  exact absurd (hmodes.2.modes ⟨2, 1⟩ List.mem_cons_self).1 (by decide)

end Redux.Momfbd.Config
