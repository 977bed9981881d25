import Mathlib.Data.BitVec
import Mathlib.Tactic.Abel
import Redux.Lib.WireList
import Redux.Momfbd.ModeInfo
import Redux.Util.ArrayPack

/-!
# Momfbd.ModeSizes — how many bytes modes and pupils will take

The sizes of `ModeInfo` and of `PupilInfo` are added up in a `static` variable, which keeps them from one
call to the next: each call returns what all calls so far have asked for.  The sizes of mode sets, pupils
and the global data ask for them in turn.  `exact_iff` says which calls return the number of bytes that
`pack` writes.
-/

namespace Redux.Momfbd.ModeSizes

open Lib Util

/-! ## Data -/

/-- A `double`. -/
abbrev Double := BitVec 64

/-- An `Array<double>` whose elements are in its data block. -/
structure Pixels where
  array : Arrays.Array
  data : ℕ → Double
  readable : (array.pack data).isSome = true

/-- `PupilInfo`. -/
structure PupilInfo where
  nPixels : BitVec 16
  pupilRadius : Double
  coRadius : Double
  filename : List (BitVec 8)

/-- `Pupil`: what is packed of it. -/
structure Pupil where
  pixels : Pixels
  info : PupilInfo
  nPixels : BitVec 16
  radius : Double
  area : Double
  pupilSupport : List (BitVec 64)
  otfSupport : List (BitVec 64)
  pupilInOTF : List (BitVec 64 × BitVec 64)

/-- `ModeSet`: what is packed of it. -/
structure ModeSet where
  pixels : Pixels
  info : ModeInfo Double
  tiltMode : BitVec 32 × BitVec 32
  J_T_xy : Vector Double 4
  J_xy_T : Vector Double 4
  modeList : ModeList
  atm_rms : List Double
  norms : List Double

/-- `Constraints`: what is packed of them. -/
structure Constraints where
  nParameters : BitVec 32
  nFreeParameters : BitVec 32
  ns_entries : List ((BitVec 32 × BitVec 32) × Double)

/-- `GlobalData`, with the bytes that `prePack` has left, if any. -/
structure GlobalData where
  modes : List (ModeInfo Double × ModeSet)
  pupils : List (PupilInfo × Pupil)
  constraints : Constraints
  packed : List (BitVec 8)

/-! ## Packing -/

def Pixels.pack (a : Pixels) : Packer := (a.array.pack a.data).get a.readable

/-- `pack` of a mode list: its length, its default type, and each mode behind its type. -/
def packModeList (list : ModeList) : Packer :=
  (packWord (BitVec.ofNat 64 list.modes.length)).next <|
    (packWord (BitVec.ofNat 32 list.defaultType.value)).next <|
      Packer.all (list.modes.map fun m => (packWord (BitVec.ofNat 32 m.type.value)).next (packWord m.number))

/-- `pack` of a point. -/
def packPoint (p : BitVec 32 × BitVec 32) : Packer := (packWord p.1).next (packWord p.2)

def packModeInfo (m : ModeInfo Double) : Packer :=
  Packer.all [packWord m.firstMode, packWord m.lastMode, packWord m.modeNumber, packModeList m.modeList,
    packWord m.nPupilPixels, packWord m.pupilRadius, packWord m.angle, packWord m.cutoff, packString m.filename,
    packWord (if m.normalize then 1 else 0 : BitVec 8)]

def PupilInfo.pack (p : PupilInfo) : Packer :=
  Packer.all [packWord p.nPixels, packWord p.pupilRadius, packWord p.coRadius, packString p.filename]

def ModeSet.pack (ms : ModeSet) : Packer :=
  Packer.all [ms.pixels.pack, packModeInfo ms.info, packPoint ms.tiltMode, Packer.all (ms.J_T_xy.toList.map packWord),
    Packer.all (ms.J_xy_T.toList.map packWord), packModeList ms.modeList, packVector ms.atm_rms, packVector ms.norms]

def Pupil.pack (p : Pupil) : Packer :=
  Packer.all [p.pixels.pack, p.info.pack, packWord p.nPixels, packWord p.radius, packWord p.area,
    packVector p.pupilSupport, packVector p.otfSupport, packWord (BitVec.ofNat 64 p.pupilInOTF.length),
    Packer.all (p.pupilInOTF.map fun index => (packWord index.1).next (packWord index.2))]

def Constraints.pack (c : Constraints) : Packer :=
  Packer.all [packWord c.nParameters, packWord c.nFreeParameters, packWord (BitVec.ofNat 64 c.ns_entries.length),
    Packer.all (c.ns_entries.map fun entry => (packPoint entry.1).next (packWord entry.2))]

/-- `pack` of the data: the bytes that have been packed before, if there are any. -/
def GlobalData.pack (gd : GlobalData) : Packer :=
  if gd.packed ≠ [] then fun x p => (writeBytes x p gd.packed, gd.packed.length)
  else Packer.all [packWord (BitVec.ofNat 16 gd.modes.length),
    Packer.all (gd.modes.map fun mode => (packModeInfo mode.1).next mode.2.pack),
    packWord (BitVec.ofNat 16 gd.pupils.length),
    Packer.all (gd.pupils.map fun pupil => pupil.1.pack.next pupil.2.pack), gd.constraints.pack]

/-! ## Sizes -/

/-- The `sz` of `ModeInfo::size` and that of `PupilInfo::size`. -/
structure Statics where
  modeInfo : BitVec 64
  pupilInfo : BitVec 64

/-- What the variables are initialised with, when their functions are first called. -/
def Statics.init : Statics := ⟨4 * 2 + 3 * 8 + 2, 2 + 2 * 8 + 1⟩

/-- A size, and what it leaves in the variables. -/
abbrev Sizer := Statics → BitVec 64 × Statics

namespace Sizer

/-- A size that asks for no other. -/
def fixed (n : ℕ) : Sizer := fun s => (BitVec.ofNat 64 n, s)

/-- `sz += g` after `f`. -/
def plus (f g : Sizer) : Sizer := fun s =>
  let r := f s
  let t := g r.2
  (r.1 + t.1, t.2)

/-- `for( … ) sz += f`. -/
def sum : List Sizer → Sizer
  | [] => fixed 0
  | f :: fs => f.plus (sum fs)

end Sizer

open Sizer

/-- `size` of a mode list. -/
def modeListSize (list : ModeList) : ℕ := (8 + 4) + list.modes.length * (2 + 4)

/-- `ModeInfo::size`. -/
def modeInfoSize (m : ModeInfo Double) : Sizer := fun s =>
  let sz := s.modeInfo + BitVec.ofNat 64 (modeListSize m.modeList)
  let sz := sz + BitVec.ofNat 64 m.filename.length
  (sz, { s with modeInfo := sz })

def PupilInfo.size (p : PupilInfo) : Sizer := fun s =>
  let sz := s.pupilInfo + BitVec.ofNat 64 p.filename.length
  (sz, { s with pupilInfo := sz })

def ModeSet.size (ms : ModeSet) : Sizer :=
  (fixed (ms.pixels.array.size 64)).plus <| ((modeInfoSize ms.info).plus (fixed (4 + 4))).plus <|
    fixed ((32 + 32) + modeListSize ms.modeList + (ms.atm_rms.length * 8 + 8) + (ms.norms.length * 8 + 8))

def Pupil.size (p : Pupil) : Sizer :=
  (fixed (p.pixels.array.size 64)).plus <| p.info.size.plus <|
    fixed ((2 + 8 + 8) + (p.pupilSupport.length * 8 + 8) + (p.otfSupport.length * 8 + 8) +
      (p.pupilInOTF.length * 2 * 8 + 8))

def Constraints.size (c : Constraints) : ℕ := (4 + 4) + (8 + c.ns_entries.length * (2 * 4 + 8))

def GlobalData.size (gd : GlobalData) : Sizer :=
  (fixed (2 * 2)).plus <| (sum (gd.modes.map fun mode => (modeInfoSize mode.1).plus mode.2.size)).plus <|
    (sum (gd.pupils.map fun pupil => pupil.1.size.plus pupil.2.size)).plus (fixed gd.constraints.size)

/-! ## Calls -/

/-- A call of one of the functions, for an object of its class. -/
inductive Call
  | modeInfo (m : ModeInfo Double)
  | pupilInfo (p : PupilInfo)
  | modeSet (ms : ModeSet)
  | pupil (p : Pupil)
  | globalData (gd : GlobalData)

namespace Call

def size : Call → Sizer
  | .modeInfo m => modeInfoSize m
  | .pupilInfo p => p.size
  | .modeSet ms => ms.size
  | .pupil p => p.size
  | .globalData gd => gd.size

def pack : Call → Packer
  | .modeInfo m => packModeInfo m
  | .pupilInfo p => p.pack
  | .modeSet ms => ms.pack
  | .pupil p => p.pack
  | .globalData gd => gd.pack

end Call

/-- The variables after some calls. -/
def run (history : List Call) : Statics := history.foldl (fun s c => (c.size s).2) Statics.init

/-- The next call returns the number of bytes that `pack` writes, wherever it writes them. -/
def Exact (history : List Call) (c : Call) : Prop :=
  ∀ x p, (c.size (run history)).1 = BitVec.ofNat 64 (c.pack x p).2

/-! ## What is asked for -/

/-- What a `ModeInfo` adds to the variable. -/
def growth (m : ModeInfo Double) : ℕ := modeListSize m.modeList + m.filename.length

/-- What a `PupilInfo` adds to the variable. -/
def PupilInfo.growth (p : PupilInfo) : ℕ := p.filename.length

/-- What sizes that are asked for one after the other have too much, if the variable has grown by `grown`
before the first one. -/
def surplus : BitVec 64 → List ℕ → BitVec 64
  | _, [] => 0
  | grown, g :: gs => grown + surplus (grown + BitVec.ofNat 64 g) gs

/-- The bytes that the data take. -/
def ModeSet.bytes (ms : ModeSet) : ℕ :=
  ms.pixels.array.size 64 + ((34 + growth ms.info) + 8 +
    (64 + modeListSize ms.modeList + (ms.atm_rms.length * 8 + 8) + (ms.norms.length * 8 + 8)))

def Pupil.bytes (p : Pupil) : ℕ :=
  p.pixels.array.size 64 + ((19 + p.info.growth) +
    (18 + (p.pupilSupport.length * 8 + 8) + (p.otfSupport.length * 8 + 8) + (p.pupilInOTF.length * 2 * 8 + 8)))

def GlobalData.bytes (gd : GlobalData) : ℕ :=
  4 + ((gd.modes.map fun mode => (34 + growth mode.1) + mode.2.bytes).sum +
    ((gd.pupils.map fun pupil => (19 + pupil.1.growth) + pupil.2.bytes).sum + gd.constraints.size))

namespace Call

/-- What each `ModeInfo` that the call asks for the size of adds to the variable. -/
def modes : Call → List ℕ
  | .modeInfo m => [growth m]
  | .modeSet ms => [growth ms.info]
  | .globalData gd => gd.modes.flatMap fun mode => [growth mode.1, growth mode.2.info]
  | _ => []

/-- The same for each `PupilInfo`. -/
def pupils : Call → List ℕ
  | .pupilInfo p => [p.growth]
  | .pupil p => [p.info.growth]
  | .globalData gd => gd.pupils.flatMap fun pupil => [pupil.1.growth, pupil.2.info.growth]
  | _ => []

def bytes : Call → ℕ
  | .modeInfo m => 34 + growth m
  | .pupilInfo p => 19 + p.growth
  | .modeSet ms => ms.bytes
  | .pupil p => p.bytes
  | .globalData gd => gd.bytes

/-- The bytes that `pack` writes: those that have been packed before, if there are any. -/
def written : Call → ℕ
  | .globalData gd => if gd.packed ≠ [] then gd.packed.length else gd.bytes
  | c => c.bytes

end Call

/-- The variables have not grown, before the sizes that the call asks for, by anything but multiples of
`2 ^ 64` in all; or by what data that have been packed have lost since. -/
def Settled (history : List Call) (c : Call) : Prop :=
  surplus (BitVec.ofNat 64 (history.flatMap Call.modes).sum) c.modes +
      surplus (BitVec.ofNat 64 (history.flatMap Call.pupils).sum) c.pupils =
    BitVec.ofNat 64 c.written - BitVec.ofNat 64 c.bytes

/-! ## What sizes return -/

section Sizes

/-- `f` returns `n` and what is too much, for the `ModeInfo`s and `PupilInfo`s that add `ms` and `ps`. -/
def Sizes (f : Sizer) (ms ps : List ℕ) (n : ℕ) : Prop :=
  ∀ s, f s = (BitVec.ofNat 64 n + (surplus (s.modeInfo - Statics.init.modeInfo) ms +
      surplus (s.pupilInfo - Statics.init.pupilInfo) ps),
    ⟨s.modeInfo + BitVec.ofNat 64 ms.sum, s.pupilInfo + BitVec.ofNat 64 ps.sum⟩)

variable {f g : Sizer} {ms ps ms' ps' : List ℕ} {n n' : ℕ}

theorem surplus_append : ∀ (grown : BitVec 64) (ms ms' : List ℕ),
    surplus grown (ms ++ ms') = surplus grown ms + surplus (grown + BitVec.ofNat 64 ms.sum) ms'
  | grown, [], ms' => by simp [surplus]
  | grown, m :: ms, ms' => by
    rw [List.cons_append, surplus, surplus_append, surplus, List.sum_cons, BitVec.ofNat_add, add_assoc, add_assoc]

theorem sizes_fixed (n : ℕ) : Sizes (fixed n) [] [] n := fun s => by simp [fixed, surplus]

/-- **Sizes add up**, and so does what they have too much. -/
theorem Sizes.plus (hf : Sizes f ms ps n) (hg : Sizes g ms' ps' n') :
    Sizes (f.plus g) (ms ++ ms') (ps ++ ps') (n + n') := by
  intro s
  rw [Sizer.plus, hf]
  dsimp only
  rw [hg]
  dsimp only
  rw [surplus_append, surplus_append, List.sum_append, List.sum_append, BitVec.ofNat_add, BitVec.ofNat_add,
    BitVec.ofNat_add, sub_add_eq_add_sub, sub_add_eq_add_sub, ← add_assoc s.modeInfo, ← add_assoc s.pupilInfo]
  refine Prod.ext ?_ rfl
  dsimp only
  abel

theorem sizes_sum {α : Type} {f : α → Sizer} {ms ps : α → List ℕ} {n : α → ℕ}
    (h : ∀ a, Sizes (f a) (ms a) (ps a) (n a)) : ∀ as : List α,
    Sizes (Sizer.sum (as.map f)) (as.flatMap ms) (as.flatMap ps) (as.map n).sum
  | [] => sizes_fixed 0
  | a :: as => by
    rw [List.map_cons, Sizer.sum, List.flatMap_cons, List.flatMap_cons, List.map_cons, List.sum_cons]
    exact (h a).plus (sizes_sum h as)

theorem sizes_modeInfo (m : ModeInfo Double) : Sizes (modeInfoSize m) [growth m] [] (34 + growth m) := by
  intro s
  have hinit : Statics.init.modeInfo = BitVec.ofNat 64 34 := rfl
  have hsz : s.modeInfo + BitVec.ofNat 64 (modeListSize m.modeList) + BitVec.ofNat 64 m.filename.length =
      s.modeInfo + BitVec.ofNat 64 (growth m) := by rw [growth, BitVec.ofNat_add, add_assoc]
  rw [modeInfoSize, hsz, surplus, surplus, surplus, BitVec.ofNat_add, hinit, List.sum_singleton, List.sum_nil]
  refine Prod.ext ?_ (congrArg (Statics.mk _) (BitVec.add_zero _).symm)
  dsimp only
  abel

theorem sizes_pupilInfo (p : PupilInfo) : Sizes p.size [] [p.growth] (19 + p.growth) := by
  intro s
  have hinit : Statics.init.pupilInfo = BitVec.ofNat 64 19 := rfl
  rw [PupilInfo.size, ← PupilInfo.growth, surplus, surplus, surplus, BitVec.ofNat_add, hinit, List.sum_singleton,
    List.sum_nil]
  refine Prod.ext ?_ (congrArg (Statics.mk · _) (BitVec.add_zero _).symm)
  dsimp only
  abel

theorem sizes_modeSet (ms : ModeSet) : Sizes ms.size [growth ms.info] [] ms.bytes :=
  (sizes_fixed _).plus (((sizes_modeInfo ms.info).plus (sizes_fixed _)).plus (sizes_fixed _))

theorem sizes_pupil (p : Pupil) : Sizes p.size [] [p.info.growth] p.bytes :=
  (sizes_fixed _).plus ((sizes_pupilInfo p.info).plus (sizes_fixed _))

theorem sizes_globalData (gd : GlobalData) :
    Sizes gd.size (Call.globalData gd).modes (Call.globalData gd).pupils gd.bytes := by
  have hmodes := sizes_sum
    (fun mode : ModeInfo Double × ModeSet => (sizes_modeInfo mode.1).plus (sizes_modeSet mode.2)) gd.modes
  have hpupils := sizes_sum
    (fun pupil : PupilInfo × Pupil => (sizes_pupilInfo pupil.1).plus (sizes_pupil pupil.2)) gd.pupils
  have h := (sizes_fixed (2 * 2)).plus (hmodes.plus (hpupils.plus (sizes_fixed gd.constraints.size)))
  have hnone : ∀ {α : Type} (as : List α), as.flatMap (fun _ => ([] : List ℕ)) = [] :=
    fun as => List.flatMap_eq_nil_iff.2 fun _ _ => rfl
  simp only [List.nil_append, List.append_nil, hnone] at h
  exact h

/-- **What a call returns**: the bytes that the data take, and what is too much. -/
theorem Call.sizes : ∀ c : Call, Sizes c.size c.modes c.pupils c.bytes
  | .modeInfo m => sizes_modeInfo m
  | .pupilInfo p => sizes_pupilInfo p
  | .modeSet ms => sizes_modeSet ms
  | .pupil p => sizes_pupil p
  | .globalData gd => sizes_globalData gd

/-- **The variables after some calls**: nothing is ever taken back. -/
theorem run_eq (history : List Call) :
    run history = ⟨Statics.init.modeInfo + BitVec.ofNat 64 (history.flatMap Call.modes).sum,
      Statics.init.pupilInfo + BitVec.ofNat 64 (history.flatMap Call.pupils).sum⟩ := by
  induction history using List.reverseRecOn with
  | nil => rfl
  | append_singleton history c ih =>
    have hrun : run (history ++ [c]) = (c.size (run history)).2 := by rw [run, List.foldl_append]; rfl
    rw [hrun, c.sizes, ih, List.flatMap_append, List.flatMap_append, List.sum_append, List.sum_append,
      List.flatMap_singleton, List.flatMap_singleton, BitVec.ofNat_add, BitVec.ofNat_add, add_assoc, add_assoc]

end Sizes

/-! ## What is written -/

section Written

theorem length_of_mapM {α β : Type} {f : α → Option β} :
    ∀ {as : List α} {bs : List β}, as.mapM f = some bs → bs.length = as.length
  | [], bs, h => by
    cases h
    rfl
  | a :: as, bs, h => by
    rw [List.mapM_cons] at h
    obtain ⟨b, -, h⟩ := Option.bind_eq_some_iff.1 h
    obtain ⟨bs', htail, h⟩ := Option.bind_eq_some_iff.1 h
    rw [← Option.some.inj h, List.length_cons, List.length_cons, length_of_mapM htail]

theorem length_packedElements {w : ℕ} {a : Arrays.Array} {data : ℕ → BitVec w} {elements : List (BitVec w)}
    (h : a.packedElements data = some elements) : elements.length = a.nElements_ := by
  rw [Arrays.Array.packedElements] at h
  split at h
  · rw [length_of_mapM h, List.length_map, List.length_range]
  · obtain ⟨visited, -, h⟩ := Option.bind_eq_some_iff.1 h
    split at h
    · next hlen => rw [length_of_mapM h, hlen]
    · cases h

theorem writes_pixels (a : Pixels) : Writes a.pack (a.array.size 64) := by
  obtain ⟨f, hf⟩ := Option.isSome_iff_exists.1 a.readable
  have hpack : a.pack = f := Option.get_of_eq_some _ hf
  rw [hpack]
  rw [Arrays.Array.pack] at hf
  rw [Arrays.Array.size]
  split at hf
  · next hzero =>
    rw [if_pos hzero, ← Option.some.inj hf]
    exact writes_word _
  · next hne =>
    obtain ⟨elements, helements, rfl⟩ := Option.map_eq_some_iff.1 hf
    rw [if_neg hne, ← length_packedElements helements]
    have h := (writes_word (BitVec.ofNat 64 (a.array.size 64))).next
      ((writes_vector (a.array.dimensions.map (BitVec.ofNat 64))).next
        (writes_times writes_word elements))
    rw [List.length_map] at h
    exact h

theorem writes_modeList (list : ModeList) : Writes (packModeList list) (modeListSize list) := by
  have hmode := fun m : ModeID => (writes_word (BitVec.ofNat 32 m.type.value)).next (writes_word m.number)
  have h := (writes_word (BitVec.ofNat 64 list.modes.length)).next
    ((writes_word (BitVec.ofNat 32 list.defaultType.value)).next (writes_times hmode list.modes))
  have hsize : modeListSize list = 64 / 8 + (32 / 8 + list.modes.length * (32 / 8 + 16 / 8)) := by
    rw [modeListSize]
    omega
  rw [hsize]
  exact h

theorem writes_point (p : BitVec 32 × BitVec 32) : Writes (packPoint p) 8 := (writes_word p.1).next (writes_word p.2)

theorem writes_modeInfo (m : ModeInfo Double) : Writes (packModeInfo m) (34 + growth m) := by
  have h := writes_all <| .cons (writes_word m.firstMode) <| .cons (writes_word m.lastMode) <|
    .cons (writes_word m.modeNumber) <| .cons (writes_modeList m.modeList) <| .cons (writes_word m.nPupilPixels) <|
    .cons (writes_word m.pupilRadius) <| .cons (writes_word m.angle) <| .cons (writes_word m.cutoff) <|
    .cons (writes_string m.filename) <| .cons (writes_word (if m.normalize then 1 else 0 : BitVec 8)) .nil
  have hsum : 34 + growth m = [16 / 8, 16 / 8, 16 / 8, modeListSize m.modeList, 16 / 8, 64 / 8, 64 / 8, 64 / 8,
      m.filename.length + 1, 8 / 8].sum := by
    simp only [growth, List.sum_cons, List.sum_nil]
    omega
  rw [hsum]
  exact h

theorem writes_pupilInfo (p : PupilInfo) : Writes p.pack (19 + p.growth) := by
  have h := writes_all <| .cons (writes_word p.nPixels) <| .cons (writes_word p.pupilRadius) <|
    .cons (writes_word p.coRadius) <| .cons (writes_string p.filename) .nil
  have hsum : 19 + p.growth = [16 / 8, 64 / 8, 64 / 8, p.filename.length + 1].sum := by
    simp only [PupilInfo.growth, List.sum_cons, List.sum_nil]
    omega
  rw [hsum]
  exact h

theorem writes_modeSet (ms : ModeSet) : Writes ms.pack ms.bytes := by
  have h := writes_all <| .cons (writes_pixels ms.pixels) <| .cons (writes_modeInfo ms.info) <|
    .cons (writes_point ms.tiltMode) <| .cons (writes_times writes_word ms.J_T_xy.toList) <|
    .cons (writes_times writes_word ms.J_xy_T.toList) <| .cons (writes_modeList ms.modeList) <|
    .cons (writes_vector ms.atm_rms) <| .cons (writes_vector ms.norms) .nil
  have hsum : ms.bytes = [ms.pixels.array.size 64, 34 + growth ms.info, 8, ms.J_T_xy.toList.length * (64 / 8),
      ms.J_xy_T.toList.length * (64 / 8), modeListSize ms.modeList, 8 + ms.atm_rms.length * (64 / 8),
      8 + ms.norms.length * (64 / 8)].sum := by
    simp only [ModeSet.bytes, Vector.length_toList, List.sum_cons, List.sum_nil]
    omega
  rw [hsum]
  exact h

theorem writes_pupil (p : Pupil) : Writes p.pack p.bytes := by
  have hindex := fun index : BitVec 64 × BitVec 64 => (writes_word index.1).next (writes_word index.2)
  have h := writes_all <| .cons (writes_pixels p.pixels) <| .cons (writes_pupilInfo p.info) <|
    .cons (writes_word p.nPixels) <| .cons (writes_word p.radius) <| .cons (writes_word p.area) <|
    .cons (writes_vector p.pupilSupport) <| .cons (writes_vector p.otfSupport) <|
    .cons (writes_word (BitVec.ofNat 64 p.pupilInOTF.length)) <| .cons (writes_times hindex p.pupilInOTF) .nil
  have hsum : p.bytes = [p.pixels.array.size 64, 19 + p.info.growth, 16 / 8, 64 / 8, 64 / 8,
      8 + p.pupilSupport.length * (64 / 8), 8 + p.otfSupport.length * (64 / 8), 64 / 8,
      p.pupilInOTF.length * (64 / 8 + 64 / 8)].sum := by
    simp only [Pupil.bytes, List.sum_cons, List.sum_nil]
    omega
  rw [hsum]
  exact h

theorem writes_constraints (c : Constraints) : Writes c.pack c.size := by
  have hentry := fun entry : (BitVec 32 × BitVec 32) × Double => (writes_point entry.1).next (writes_word entry.2)
  have h := writes_all <| .cons (writes_word c.nParameters) <| .cons (writes_word c.nFreeParameters) <|
    .cons (writes_word (BitVec.ofNat 64 c.ns_entries.length)) <| .cons (writes_times hentry c.ns_entries) .nil
  have hsum : c.size = [32 / 8, 32 / 8, 64 / 8, c.ns_entries.length * (8 + 64 / 8)].sum := by
    simp only [Constraints.size, List.sum_cons, List.sum_nil]
    omega
  rw [hsum]
  exact h

theorem writes_globalData (gd : GlobalData) : Writes gd.pack (Call.globalData gd).written := by
  rw [GlobalData.pack, Call.written]
  split
  · exact ⟨gd.packed, rfl, fun x p => ⟨gd.packed, rfl, rfl⟩⟩
  · have hmodes := writes_map
      (fun mode : ModeInfo Double × ModeSet => (writes_modeInfo mode.1).next (writes_modeSet mode.2)) gd.modes
    have hpupils := writes_map
      (fun pupil : PupilInfo × Pupil => (writes_pupilInfo pupil.1).next (writes_pupil pupil.2)) gd.pupils
    have h := writes_all <| .cons (writes_word (BitVec.ofNat 16 gd.modes.length)) <| .cons hmodes <|
      .cons (writes_word (BitVec.ofNat 16 gd.pupils.length)) <| .cons hpupils <|
      .cons (writes_constraints gd.constraints) .nil
    have hsum : gd.bytes = [16 / 8, (gd.modes.map fun mode => (34 + growth mode.1) + mode.2.bytes).sum, 16 / 8,
        (gd.pupils.map fun pupil => (19 + pupil.1.growth) + pupil.2.bytes).sum, gd.constraints.size].sum := by
      simp only [GlobalData.bytes, List.sum_cons, List.sum_nil]
      omega
    rw [hsum]
    exact h

/-- **What a call writes**, whatever has been called before. -/
theorem Call.writes : ∀ c : Call, Writes c.pack c.written
  | .modeInfo m => writes_modeInfo m
  | .pupilInfo p => writes_pupilInfo p
  | .modeSet ms => writes_modeSet ms
  | .pupil p => writes_pupil p
  | .globalData gd => writes_globalData gd

end Written

/-! ## When sizes are right -/

/-- **A size is the number of bytes that are packed** exactly if what the variables have kept from the calls
before it adds up to nothing. -/
theorem exact_iff (history : List Call) (c : Call) : Exact history c ↔ Settled history c := by
  have hcall : Exact history c ↔ (c.size (run history)).1 = BitVec.ofNat 64 c.written := by
    constructor
    · intro h
      rw [h (fun _ => 0) 0, c.writes.count]
    · intro h x p
      rw [h, c.writes.count]
  rw [hcall, c.sizes, run_eq, Settled, eq_sub_iff_add_eq]
  dsimp only
  rw [add_sub_cancel_left, add_sub_cancel_left, add_comm]

/-- A key without modes and without a file. -/
def zernike : ModeInfo Double := ⟨0, 0, 1, 0, ⟨[], .MB_NONE⟩, 0, 0, 0, [], true⟩

/-- The size of a key is 46, which is what it takes, when it is asked for first, and 58 from then on. -/
theorem size_grows : (∀ x p, (packModeInfo zernike x p).2 = 46) ∧
    ((Call.modeInfo zernike).size (run [])).1 = 46 ∧ ((Call.modeInfo zernike).size (run [.modeInfo zernike])).1 = 58 ∧
    ¬Exact [.modeInfo zernike] (.modeInfo zernike) := by
  have hpack := (writes_modeInfo zernike).count
  refine ⟨hpack, rfl, rfl, fun h => ?_⟩
  have h58 : (58 : BitVec 64) = BitVec.ofNat 64 (packModeInfo zernike (fun _ => 0) 0).2 := h _ _
  rw [hpack] at h58
  exact absurd h58 (by decide)

end Redux.Momfbd.ModeSizes
