import Mathlib.Data.List.Forall2
import Mathlib.Logic.Relation
import Redux.Momfbd.ChannelProperties
import Redux.Momfbd.PatchPositions

/-!
# Momfbd.AlignClip — from one-based to zero-based clips

The clip of a channel counts from one in the configuration and from zero afterwards.  It is `checkCfg` of the
channel that converts it, each time it is called: for the check of an object, for that of a job, and for
the size of an image that is not known yet or is asked for again.  `converted_iff` says after which calls
the clips are as they should be; the check of a job calls it twice (`accepted_twice`).
-/

namespace Redux.Momfbd.AlignClip

open Properties

/-! ## Model -/

abbrev Text := List Char

/-- A `Point16`: y, x. -/
abbrev Size := BitVec 16 × BitVec 16

/-- `std::min`. -/
def lower (a b : BitVec 16) : BitVec 16 := if b < a then b else a

/-- How a check ends: it is passed or not, because of the clip or for another reason, or it throws. -/
inductive Outcome
  | passed | failed | notOneBased | thrown
  deriving DecidableEq

/-- What the checks find outside. -/
structure World where
  /-- `boost::format` with one number; `none` if it throws for this template. -/
  format : Text → Option (BitVec 32 → Text)
  is_directory : Text → Bool
  is_regular_file : Text → Bool
  parent_path : Text → Text
  /-- `/` of paths. -/
  append : Text → Text → Text
  /-- The dimensions in the metadata of a file, unless reading them throws. -/
  dims : Text → Option (List ℕ)
  /-- The wavelength of an object is within bounds, and its image scale can be computed. -/
  inRange : BitVec 16 → Bool
  /-- The name that is made of a template and the numbers of the files, `none` for an exception, and
  without a name if that fails. -/
  outputName : Text → List (BitVec 32) → Option (Option Text)
  /-- The output directory is there or has been created. -/
  writable : Bool
  /-- Rounds of the loops of `segment`. -/
  rounds : ℕ

/-- A `Channel`, with the number of its diversity values and modes. -/
structure Channel where
  imageTemplate : Text
  imageDataDir : Text
  darkTemplate : Text
  gainFile : Text
  imageNumberOffset : BitVec 32
  fileNumbers : List (BitVec 32)
  darkNumbers : List (BitVec 32)
  incomplete : Bool
  diversityValues : ℕ
  diversityModes : ℕ
  alignClip : List (BitVec 16)
  imgSize : Size
  borderClip : BitVec 16

namespace Channel

/-- What is checked before the clip: the templates and their numbers. -/
def templatesOk (c : Channel) : Bool :=
  if c.imageTemplate = [] then false
  else if c.imageTemplate.count '%' > 2 then false
  else if c.imageTemplate.count '%' = 1 ∧ c.fileNumbers = [] then false
  else if ¬(c.darkTemplate = [] ↔ c.gainFile = []) then false
  else if c.darkTemplate = [] then true
  else if c.darkTemplate.count '%' > 1 then false
  else !(c.darkTemplate.count '%' = 1 && c.darkNumbers = [])

/-- The numbers of dark files are dropped if the template has no place for them. -/
def clearDark (c : Channel) : Channel :=
  if c.darkTemplate ≠ [] ∧ c.darkTemplate.count '%' = 0 then { c with darkNumbers := [] } else c

/-- The directory of the images, or the one below the data directory. -/
def dataDir (w : World) (c : Channel) (name : BitVec 32 → Text) : Text :=
  let fn := w.parent_path (name c.imageNumberOffset)
  if w.is_directory fn then fn else w.append c.imageDataDir fn

/-- The directory, and which of the files there are if some may be missing. -/
def checkFiles (w : World) (c : Channel) : Outcome × Channel :=
  match w.format c.imageTemplate with
  | none => (.thrown, c)
  | some name =>
    if c.incomplete && w.is_directory (c.dataDir w name) then
      let fileNumbers := c.fileNumbers.filter fun number =>
        let fn := name (c.imageNumberOffset + number)
        w.is_regular_file fn || w.is_regular_file (w.append c.imageDataDir fn)
      (if fileNumbers = [] then .failed else .passed, { c with fileNumbers := fileNumbers })
    else (.passed, c)

/-- `Channel::checkCfg`. -/
def checkCfg (w : World) (c : Channel) : Outcome × Channel :=
  if ¬c.templatesOk then (.failed, c)
  else
    let c := c.clearDark
    match ChannelCfg.zeroBased c.alignClip with
    | none => (.notOneBased, c)
    | some alignClip =>
      let c := { c with alignClip := alignClip }
      if c.diversityValues ≠ c.diversityModes then (.failed, c) else c.checkFiles w

/-- `imgSize` of the first file, if it can be read; `none` for an exception. -/
def fileSize (w : World) (c : Channel) : Option Size :=
  let thisFile : Option Text :=
    match c.fileNumbers with
    | [] => some c.imageTemplate
    | number :: _ => (w.format c.imageTemplate).map fun name => name number
  thisFile.map fun thisFile =>
    let fn := w.append c.imageDataDir thisFile
    if w.is_regular_file fn then
      match w.dims fn with
      | some [_, y, x] => (BitVec.ofNat 16 y, BitVec.ofNat 16 x)
      | some [y, x] => (BitVec.ofNat 16 y, BitVec.ofNat 16 x)
      | _ => c.imgSize
    else c.imgSize

/-- The channel with its size, and with a `borderClip` that fits it. -/
def resize (c : Channel) (size : Size) : Channel :=
  { c with
    imgSize := size
    borderClip :=
      if size.2 ≠ 0 ∧ size.1 ≠ 0 then lower (lower c.borderClip (size.2 / 8)) (size.1 / 8) else c.borderClip }

end Channel

/-- A channel, and the checks that have been made of it: what it was like, and how they ended. -/
structure Watched where
  channel : Channel
  checks : List (Channel × Outcome)

namespace Watched

def checkCfg (w : World) (v : Watched) : Outcome × Watched :=
  let r := v.channel.checkCfg w
  (r.1, ⟨r.2, v.checks ++ [(v.channel, r.1)]⟩)

/-- `Channel::getImageSize( force )`; what the check says does not matter, unless it throws. -/
def getImageSize (w : World) (force : Bool) (v : Watched) : Option Size × Watched :=
  if force ∨ v.channel.imgSize = (0, 0) then
    let r := v.checkCfg w
    if r.1 = .thrown then (none, r.2)
    else
      match r.2.channel.fileSize w with
      | none => (none, r.2)
      | some size => (some size, { r.2 with channel := r.2.channel.resize size })
  else (some v.channel.imgSize, v)

end Watched

/-- An `Object`. -/
structure Object where
  ID : BitVec 16
  imgSize : Size
  nObjectImages : BitVec 32
  outputFileName : Text
  channels : List Watched

/-- The loop of `Object::getImageSize` over the channels, with the size that they have in common so far, which
the object keeps when it throws. -/
def getImageSizes (w : World) (force : Bool) : Size → List Watched → Bool × Size × List Watched
  | imgSize, [] => (true, imgSize, [])
  | imgSize, ch :: chs =>
    let r := ch.getImageSize w force
    match r.1 with
    | none => (false, imgSize, r.2 :: chs)
    | some tmp =>
      if imgSize = (0, 0) ∨ tmp = imgSize then
        let rest := getImageSizes w force tmp chs
        (rest.1, rest.2.1, r.2 :: rest.2.2)
      else (false, imgSize, r.2 :: chs)

/-- The loop of `Object::checkCfg` over the channels. -/
def checkChannels (w : World) : List Watched → Outcome × List Watched
  | [] => (.passed, [])
  | ch :: chs =>
    let r := ch.checkCfg w
    if r.1 = .passed then
      let rest := checkChannels w chs
      (rest.1, r.2 :: rest.2)
    else (r.1, r.2 :: chs)

namespace Object

/-- `Object::getImageSize( force )`. -/
def getImageSize (w : World) (force : Bool) (o : Object) : Option Size × Object :=
  if force ∨ o.imgSize = (0, 0) then
    let r := getImageSizes w force (0, 0) o.channels
    (if r.1 then some r.2.1 else none, { o with imgSize := r.2.1, channels := r.2.2 })
  else (some o.imgSize, o)

/-- A name for the output, made of that of the first channel's images if there is none. -/
def nameOutput (w : World) (o : Object) : Outcome × Object :=
  match o.outputFileName, o.channels with
  | [], ch :: _ =>
    if '%' ∈ ch.channel.imageTemplate then
      match w.outputName ch.channel.imageTemplate ch.channel.fileNumbers with
      | none => (.thrown, o)
      | some none => (.failed, o)
      | some (some name) => (.passed, { o with outputFileName := name })
    else (.passed, o)
  | _, _ => (.passed, o)

/-- `Object::checkCfg`. -/
def checkCfg (w : World) (o : Object) : Outcome × Object :=
  if o.channels = [] then (.failed, o)
  else if ¬w.inRange o.ID then (.failed, o)
  else
    let r := checkChannels w o.channels
    let o := { o with channels := r.2 }
    if r.1 = .passed then o.nameOutput w else (r.1, o)

/-- `nImages()`, before the frames have been counted: the files. -/
def nImages (o : Object) : BitVec 32 :=
  if o.nObjectImages ≠ 0 then o.nObjectImages
  else (o.channels.map fun ch => BitVec.ofNat 32 ch.channel.fileNumbers.length).sum

end Object

/-- The loop of `MomfbdJob::checkCfg` over the objects. -/
def checkObjects (w : World) : List Object → Outcome × List Object
  | [] => (.passed, [])
  | o :: os =>
    if o.channels = [] then (.failed, o :: os)
    else
      let o := { o with nObjectImages := o.nImages }
      if o.nObjectImages = 0 then (.failed, o :: os)
      else
        let r := o.checkCfg w
        if r.1 = .passed then
          let rest := checkObjects w os
          (rest.1, r.2 :: rest.2)
        else (r.1, r.2 :: os)

/-- The loop of `getSmallestImageSize`. -/
def smallestImageSize (w : World) : Size → List Object → Option Size × List Object
  | ret, [] => (some ret, [])
  | ret, o :: os =>
    let r := o.getImageSize w true
    match r.1 with
    | none => (none, r.2 :: os)
    | some size =>
      let rest := smallestImageSize w (lower size.1 ret.1, lower size.2 ret.2) os
      (rest.1, r.2 :: rest.2)

/-- A `MomfbdJob`; `bothModes` are `RF_FLATFIELD` and `RF_CALIBRATE`. -/
structure Job where
  cfgChecked : Bool
  patchSize : BitVec 16
  bothModes : Bool
  subImagePosXY : List (BitVec 16)
  subImagePosX : List (BitVec 16)
  subImagePosY : List (BitVec 16)
  minimumOverlap : BitVec 16
  objects : List Object

namespace Job

/-- What the placing of patches depends on, for the clip of the reference channel. -/
def placing (job : Job) (clip : List (BitVec 16)) (imageSizes : Size) : Placing where
  clipped := clip.length = 4
  y := ⟨(clip.getD 2 0, clip.getD 3 0), imageSizes.1, job.subImagePosY⟩
  x := ⟨(clip.getD 0 0, clip.getD 1 0), imageSizes.2, job.subImagePosX⟩
  subImagePosXY := job.subImagePosXY
  patchSize := job.patchSize
  minimumOverlap := job.minimumOverlap

/-- `checkPatchPositions`; `none` if it does not return, or if there is no channel to refer to. -/
def checkPatchPositions (w : World) (job : Job) : Option (Outcome × Job) :=
  (job.objects.findIdx? fun o => o.ID = 0).bind fun k =>
  job.objects[k]?.bind fun ref =>
  let r := ref.getImageSize w false
  let job := { job with objects := job.objects.set k r.2 }
  r.2.channels.head?.bind fun ch =>
  match r.1 with
  | none => some (.thrown, job)
  | some imageSizes =>
    ((job.placing ch.channel.alignClip imageSizes).checkPatchPositions w.rounds).map fun a =>
      (if a.1 then .passed else .failed, { job with subImagePosX := a.2.1, subImagePosY := a.2.2 })

/-- `MomfbdJob::checkCfg` from the objects on. -/
def checkRest (w : World) (job : Job) : Outcome × Job :=
  if job.subImagePosXY = [] ∧ (job.subImagePosX = [] ∨ job.subImagePosY = []) then (.failed, job)
  else if job.objects = [] then (.failed, job)
  else
    let r := checkObjects w job.objects
    let job := { job with objects := r.2 }
    if r.1 = .passed then
      if w.writable then (.passed, { job with cfgChecked := true }) else (.failed, job)
    else (r.1, job)

/-- `MomfbdJob::checkCfg`. -/
def checkCfg (w : World) (job : Job) : Option (Outcome × Job) :=
  if job.cfgChecked then some (.passed, job)
  else if job.patchSize % 4 ≠ 0 then some (.failed, job)
  else if job.bothModes then some (.failed, job)
  else if job.subImagePosXY ≠ [] ∧ job.subImagePosXY.length % 2 = 1 then some (.failed, job)
  else
    (job.checkPatchPositions w).map fun r => if r.1 = .passed then r.2.checkRest w else r

end Job

/-- The calls, of the objects and channels by their place. -/
inductive Call
  | checkCfg
  | checkObject (i : ℕ)
  | checkChannel (i j : ℕ)
  | getImageSize (i j : ℕ) (force : Bool)
  | getSmallestImageSize

namespace Job

/-- A call of an object. -/
def atObject (job : Job) (i : ℕ) (f : Object → Option Object) : Option Job :=
  job.objects[i]?.bind fun o => (f o).map fun o => { job with objects := job.objects.set i o }

/-- A call of a channel. -/
def atChannel (job : Job) (i j : ℕ) (f : Watched → Watched) : Option Job :=
  job.atObject i fun o => o.channels[j]?.map fun ch => { o with channels := o.channels.set j (f ch) }

/-- The job after a call that returns or throws. -/
def step (job : Job) : World × Call → Option Job
  | (w, .checkCfg) => (job.checkCfg w).map Prod.snd
  | (w, .checkObject i) => job.atObject i fun o => some (o.checkCfg w).2
  | (w, .checkChannel i j) => job.atChannel i j fun ch => (ch.checkCfg w).2
  | (w, .getImageSize i j force) => job.atChannel i j fun ch => (ch.getImageSize w force).2
  | (w, .getSmallestImageSize) => some { job with objects := (smallestImageSize w (-1, -1) job.objects).2 }

/-- The job after some calls. -/
def run (job : Job) (calls : List (World × Call)) : Option Job := calls.foldlM step job

end Job

/-! ## What is promised -/

/-- The clip is there in full and counts from one, or there is none. -/
def Watched.OneBased (v : Watched) : Prop :=
  v.channel.alignClip = [] ∨ v.channel.alignClip.length = 4 ∧ ∀ x ∈ v.channel.alignClip, 0 < x.toInt

/-- A job as it is configured, with clips that count from one; nothing has been checked yet. -/
def Job.Configured (job : Job) : Prop := ∀ o ∈ job.objects, ∀ v ∈ o.channels, v.OneBased ∧ v.checks = []

/-- The clip counts from zero, and has always been taken to count from one before. -/
def Watched.Converted (v v' : Watched) : Prop :=
  v'.channel.alignClip = v.channel.alignClip.map (· - 1) ∧ ∀ check ∈ v'.checks, check.2 ≠ .notOneBased

/-- How many checks have come to the clip, since the templates were in order. -/
def Watched.reached (v : Watched) : ℕ := v.checks.countP fun check => check.1.templatesOk

/-- If there is a clip, one check has come to it. -/
def Watched.CheckedOnce (v v' : Watched) : Prop := v.channel.alignClip ≠ [] → v'.reached = 1

/-- `R` holds of each channel before and after. -/
def Job.Channels (R : Watched → Watched → Prop) (job job' : Job) : Prop :=
  List.Forall₂ (fun o o' : Object => List.Forall₂ R o.channels o'.channels) job.objects job'.objects

/-! ## What happens to a channel -/

section Moves

/-- What a call does to a channel: it checks it, or sets its size. -/
inductive Moves (v : Watched) : Watched → Prop
  | check (w : World) : Moves v (v.checkCfg w).2
  | resize (size : Size) : Moves v { v with channel := v.channel.resize size }

abbrev Evolves : Watched → Watched → Prop := Relation.ReflTransGen Moves

variable {v : Watched} {w : World} {force : Bool}

theorem evolves_checkCfg : Evolves v (v.checkCfg w).2 := .single (.check w)

theorem evolves_getImageSize : Evolves v (v.getImageSize w force).2 := by
  unfold Watched.getImageSize
  split
  · dsimp only
    split
    · exact evolves_checkCfg
    · split
      · exact evolves_checkCfg
      · exact evolves_checkCfg.tail (.resize _)
  · exact .refl

theorem evolves_refl (chs : List Watched) : List.Forall₂ Evolves chs chs := List.forall₂_same.2 fun _ _ => .refl

theorem evolves_getImageSizes : ∀ (imgSize : Size) (chs : List Watched),
    List.Forall₂ Evolves chs (getImageSizes w force imgSize chs).2.2
  | imgSize, [] => .nil
  | imgSize, ch :: chs => by
    unfold getImageSizes
    dsimp only
    split
    · exact .cons evolves_getImageSize (evolves_refl chs)
    · split
      · exact .cons evolves_getImageSize (evolves_getImageSizes _ chs)
      · exact .cons evolves_getImageSize (evolves_refl chs)

theorem evolves_checkChannels : ∀ chs : List Watched, List.Forall₂ Evolves chs (checkChannels w chs).2
  | [] => .nil
  | ch :: chs => by
    unfold checkChannels
    dsimp only
    split
    · exact .cons evolves_checkCfg (evolves_checkChannels chs)
    · exact .cons evolves_checkCfg (evolves_refl chs)

end Moves

/-! ## What happens to a job -/

section Jobs

/-- The channels of an object evolve. -/
def OfObject (o o' : Object) : Prop := List.Forall₂ Evolves o.channels o'.channels

variable {o o' : Object} {job job' : Job} {w : World} {force : Bool}

theorem forall₂_trans {α : Type} {R S T : α → α → Prop} (h : ∀ a b c, R a b → S b c → T a c) :
    ∀ {as bs cs : List α}, List.Forall₂ R as bs → List.Forall₂ S bs cs → List.Forall₂ T as cs
  | _, _, _, .nil, .nil => .nil
  | _, _, _, .cons hab habs, .cons hbc hbcs => .cons (h _ _ _ hab hbc) (forall₂_trans h habs hbcs)

theorem forall₂_getElem? {α : Type} {R : α → α → Prop} :
    ∀ {as bs : List α} {k : ℕ} {a : α}, List.Forall₂ R as bs → as[k]? = some a → ∃ b, bs[k]? = some b ∧ R a b
  | _, _, _, _, .nil, hk => by
    rw [List.getElem?_nil] at hk
    cases hk
  | _, _, 0, _, .cons h _, hk => by
    rw [List.getElem?_cons_zero, Option.some_inj] at hk
    subst hk
    exact ⟨_, rfl, h⟩
  | _, _, k + 1, _, .cons _ hs, hk => forall₂_getElem? (k := k) hs hk

theorem forall₂_set {α : Type} {R : α → α → Prop} (hrefl : ∀ a, R a a) {a b : α} (h : R a b) :
    ∀ {as : List α} {k : ℕ}, as[k]? = some a → List.Forall₂ R as (as.set k b)
  | [], k, hk => by
    rw [List.getElem?_nil] at hk
    cases hk
  | a' :: as, 0, hk => by
    rw [List.getElem?_cons_zero, Option.some_inj] at hk
    subst hk
    exact .cons h (List.forall₂_same.2 fun a _ => hrefl a)
  | a' :: as, k + 1, hk => .cons (hrefl a') (forall₂_set hrefl h hk)

theorem ofObject_refl (o : Object) : OfObject o o := evolves_refl o.channels

theorem ofObject_trans {o'' : Object} (h : OfObject o o') (h' : OfObject o' o'') : OfObject o o'' :=
  @forall₂_trans _ Evolves Evolves Evolves (fun _ _ _ => Relation.ReflTransGen.trans) _ _ _ h h'

theorem ofObject_getImageSize : OfObject o (o.getImageSize w force).2 := by
  unfold Object.getImageSize
  split
  · exact evolves_getImageSizes _ _
  · exact ofObject_refl o

theorem channels_nameOutput : (o.nameOutput w).2.channels = o.channels := by
  unfold Object.nameOutput
  split
  · split
    · split <;> rfl
    · rfl
  · rfl

theorem ofObject_checkCfg : OfObject o (o.checkCfg w).2 := by
  have hchecked := evolves_checkChannels (w := w) o.channels
  unfold Object.checkCfg
  split
  · exact ofObject_refl o
  · split
    · exact ofObject_refl o
    · dsimp only
      split
      · rw [OfObject, channels_nameOutput]
        exact hchecked
      · exact hchecked

theorem ofObject_checkObjects : ∀ os : List Object, List.Forall₂ OfObject os (checkObjects w os).2
  | [] => .nil
  | o :: os => by
    have hrest : List.Forall₂ OfObject os os := List.forall₂_same.2 fun o _ => ofObject_refl o
    have hcounted : OfObject o { o with nObjectImages := o.nImages } := ofObject_refl o
    have hchecked : OfObject o (Object.checkCfg w { o with nObjectImages := o.nImages }).2 :=
      ofObject_checkCfg (o := { o with nObjectImages := o.nImages })
    unfold checkObjects
    split
    · exact .cons (ofObject_refl o) hrest
    · dsimp only
      split
      · exact .cons hcounted hrest
      · split
        · exact .cons hchecked (ofObject_checkObjects os)
        · exact .cons hchecked hrest

theorem ofObject_smallestImageSize : ∀ (ret : Size) (os : List Object),
    List.Forall₂ OfObject os (smallestImageSize w ret os).2
  | ret, [] => .nil
  | ret, o :: os => by
    unfold smallestImageSize
    dsimp only
    split
    · exact .cons ofObject_getImageSize (List.forall₂_same.2 fun o _ => ofObject_refl o)
    · exact .cons ofObject_getImageSize (ofObject_smallestImageSize _ os)

/-- The channels of a job evolve. -/
abbrev OfJob : Job → Job → Prop := Job.Channels Evolves

theorem ofJob_refl (job : Job) : OfJob job job := List.forall₂_same.2 fun o _ => ofObject_refl o

theorem ofJob_trans {job'' : Job} (h : OfJob job job') (h' : OfJob job' job'') : OfJob job job'' :=
  @forall₂_trans _ OfObject OfObject OfObject (fun _ _ _ => ofObject_trans) _ _ _ h h'

theorem ofJob_checkPatchPositions {out : Outcome} (h : job.checkPatchPositions w = some (out, job')) :
    OfJob job job' := by
  obtain ⟨k, -, h⟩ := Option.bind_eq_some_iff.1 h
  obtain ⟨ref, href, h⟩ := Option.bind_eq_some_iff.1 h
  obtain ⟨ch, -, h⟩ := Option.bind_eq_some_iff.1 h
  have hset : List.Forall₂ OfObject job.objects (job.objects.set k (ref.getImageSize w false).2) :=
    forall₂_set ofObject_refl ofObject_getImageSize href
  dsimp only at h
  split at h
  · cases h
    exact hset
  · obtain ⟨a, -, ha⟩ := Option.map_eq_some_iff.1 h
    cases ha
    exact hset

theorem ofJob_checkRest : OfJob job (job.checkRest w).2 := by
  have hchecked := ofObject_checkObjects (w := w) job.objects
  unfold Job.checkRest
  split
  · exact ofJob_refl job
  · split
    · exact ofJob_refl job
    · dsimp only
      split
      · split
        · exact hchecked
        · exact hchecked
      · exact hchecked

theorem ofJob_checkCfg {out : Outcome} (h : job.checkCfg w = some (out, job')) : OfJob job job' := by
  unfold Job.checkCfg at h
  split at h
  · cases h
    exact ofJob_refl job
  split at h
  · cases h
    exact ofJob_refl job
  split at h
  · cases h
    exact ofJob_refl job
  split at h
  · cases h
    exact ofJob_refl job
  obtain ⟨r, hr, h⟩ := Option.map_eq_some_iff.1 h
  have hplaced := ofJob_checkPatchPositions hr
  split at h
  · have hrest := @ofJob_checkRest r.2 w
    rw [h] at hrest
    exact ofJob_trans hplaced hrest
  · rw [h] at hplaced
    exact hplaced

theorem ofJob_atObject {i : ℕ} {f : Object → Option Object} (hf : ∀ {o o'}, f o = some o' → OfObject o o')
    (h : job.atObject i f = some job') : OfJob job job' := by
  obtain ⟨o, ho, h⟩ := Option.bind_eq_some_iff.1 h
  obtain ⟨o', ho', h⟩ := Option.map_eq_some_iff.1 h
  cases h
  exact forall₂_set ofObject_refl (hf ho') ho

theorem ofJob_atChannel {i j : ℕ} {f : Watched → Watched} (hf : ∀ v, Evolves v (f v))
    (h : job.atChannel i j f = some job') : OfJob job job' := by
  refine ofJob_atObject (fun {o o'} ho => ?_) h
  obtain ⟨ch, hch, ho⟩ := Option.map_eq_some_iff.1 ho
  cases ho
  exact forall₂_set (fun _ => .refl) (hf ch) hch

/-- **Whatever is called, channels are checked and get their sizes, and nothing else.** -/
theorem ofJob_step {call : World × Call} (h : job.step call = some job') : OfJob job job' := by
  obtain ⟨w, call⟩ := call
  cases call with
  | checkCfg =>
    obtain ⟨⟨out, job''⟩, hr, rfl⟩ := Option.map_eq_some_iff.1 h
    exact ofJob_checkCfg hr
  | checkObject i =>
    refine ofJob_atObject (fun {o o'} ho => ?_) h
    cases ho
    exact ofObject_checkCfg
  | checkChannel i j => exact ofJob_atChannel (fun _ => evolves_checkCfg) h
  | getImageSize i j force => exact ofJob_atChannel (fun _ => evolves_getImageSize) h
  | getSmallestImageSize =>
    cases h
    exact ofObject_smallestImageSize _ _

theorem ofJob_run : ∀ {calls : List (World × Call)} {job : Job}, job.run calls = some job' → OfJob job job'
  | [], job, h => by
    cases h
    exact ofJob_refl _
  | call :: calls, job, h => by
    rw [Job.run, List.foldlM_cons] at h
    obtain ⟨job₁, hstep, h⟩ := Option.bind_eq_some_iff.1 h
    exact ofJob_trans (ofJob_step hstep) (ofJob_run h)

end Jobs

/-! ## What becomes of a clip -/

section Clips

/-- What has become of a clip that had the values `clip`: each is lowered by `k`, once for each check that has
come to it, or until one of them is zero, which is not accepted any more. -/
structure Lowered (clip : List (BitVec 16)) (v : Watched) (k : ℕ) : Prop where
  alignClip : v.channel.alignClip = clip.map (· - BitVec.ofNat 16 k)
  low : ∀ x ∈ clip, k ≤ x.toNat
  le : k ≤ v.reached
  pos : 0 < v.reached → 0 < k
  accepted : k = v.reached → ∀ check ∈ v.checks, check.2 ≠ .notOneBased
  refused : k ≠ v.reached → ∃ check ∈ v.checks, check.2 = .notOneBased

variable {clip : List (BitVec 16)} {c : Channel} {v v' : Watched} {w : World} {k : ℕ}

theorem alignClip_clearDark : c.clearDark.alignClip = c.alignClip := by
  unfold Channel.clearDark
  split <;> rfl

theorem checkFiles_spec : (c.checkFiles w).1 ≠ .notOneBased ∧ (c.checkFiles w).2.alignClip = c.alignClip := by
  unfold Channel.checkFiles
  split
  · exact ⟨Outcome.noConfusion, rfl⟩
  · dsimp only
    split
    · refine ⟨?_, rfl⟩
      dsimp only
      split <;> exact Outcome.noConfusion
    · exact ⟨Outcome.noConfusion, rfl⟩

/-- **What a check does to the clip**: nothing, if it does not come to it. -/
theorem checkCfg_of_not (h : ¬c.templatesOk) : c.checkCfg w = (.failed, c) := by
  rw [Channel.checkCfg, if_pos h]

/-- It is refused if it cannot be converted. -/
theorem checkCfg_of_none (h : c.templatesOk) (hclip : ChannelCfg.zeroBased c.alignClip = none) :
    (c.checkCfg w).1 = .notOneBased ∧ (c.checkCfg w).2.alignClip = c.alignClip := by
  rw [Channel.checkCfg, if_neg (not_not_intro h)]
  dsimp only
  rw [alignClip_clearDark, hclip]
  exact ⟨rfl, alignClip_clearDark⟩

/-- Otherwise it is converted, whatever is found out besides. -/
theorem checkCfg_of_some {alignClip : List (BitVec 16)} (h : c.templatesOk)
    (hclip : ChannelCfg.zeroBased c.alignClip = some alignClip) :
    (c.checkCfg w).1 ≠ .notOneBased ∧ (c.checkCfg w).2.alignClip = alignClip := by
  rw [Channel.checkCfg, if_neg (not_not_intro h)]
  dsimp only
  rw [alignClip_clearDark, hclip]
  dsimp only
  split
  · exact ⟨Outcome.noConfusion, rfl⟩
  · exact checkFiles_spec

theorem reached_check : (v.checkCfg w).2.reached = v.reached + if v.channel.templatesOk then 1 else 0 := by
  rw [Watched.reached, Watched.checkCfg, List.countP_append, List.countP_singleton]
  rfl

theorem sub_eq_zero_iff {x : BitVec 16} (h : k ≤ x.toNat) : x - BitVec.ofNat 16 k = 0 ↔ x.toNat = k := by
  have hx := x.isLt
  rw [sub_eq_zero, ← BitVec.toNat_inj, BitVec.toNat_ofNat, Nat.mod_eq_of_lt (by omega)]

/-- What the conversion makes of a clip that has been lowered. -/
theorem zeroBased_lowered (hlen : clip.length = 4) (hlow : ∀ x ∈ clip, k ≤ x.toNat) :
    ChannelCfg.zeroBased (clip.map (· - BitVec.ofNat 16 k)) =
      if ∃ x ∈ clip, x.toNat = k then none else some (clip.map (· - BitVec.ofNat 16 (k + 1))) := by
  have hzero : 0 ∈ clip.map (· - BitVec.ofNat 16 k) ↔ ∃ x ∈ clip, x.toNat = k := by
    rw [List.mem_map]
    exact exists_congr fun x => and_congr_right fun hx => sub_eq_zero_iff (hlow x hx)
  have hnext : (clip.map (· - BitVec.ofNat 16 k)).map (· - 1) = clip.map (· - BitVec.ofNat 16 (k + 1)) := by
    rw [List.map_map]
    refine List.map_congr_left fun x _ => ?_
    rw [Function.comp_apply, BitVec.ofNat_add, sub_sub]
    rfl
  rw [ChannelCfg.zeroBased, List.length_map, if_neg (not_not_intro hlen), if_congr hzero rfl rfl, hnext]

/-- **One step**: a check that comes to the clip lowers it once more, or refuses it. -/
theorem Lowered.check (hlen : clip.length = 4) (hpos : ∀ x ∈ clip, 0 < x.toNat) (h : Lowered clip v k) :
    ∃ k', Lowered clip (v.checkCfg w).2 k' := by
  obtain ⟨hclip, hlow, hle, hk, haccepted, hrefused⟩ := h
  have hreached := reached_check (v := v) (w := w)
  by_cases hok : v.channel.templatesOk = true
  · rw [if_pos hok] at hreached
    have hzero := zeroBased_lowered hlen hlow
    rw [← hclip] at hzero
    by_cases hx : ∃ x ∈ clip, x.toNat = k
    · rw [if_pos hx] at hzero
      obtain ⟨hout, hsame⟩ := checkCfg_of_none (w := w) hok hzero
      obtain ⟨x, hmem, hxk⟩ := hx
      refine ⟨k, hsame.trans hclip, hlow, by omega, fun _ => hxk ▸ hpos x hmem, fun heq => by omega, fun _ => ?_⟩
      exact ⟨_, List.mem_append_right _ (List.mem_singleton.2 rfl), hout⟩
    · rw [if_neg hx] at hzero
      obtain ⟨hout, hnext⟩ := checkCfg_of_some (w := w) hok hzero
      refine ⟨k + 1, hnext, fun x hmem => ?_, by omega, fun _ => Nat.succ_pos k, fun heq => ?_, fun hne => ?_⟩
      · have hne : x.toNat ≠ k := fun hxk => hx ⟨x, hmem, hxk⟩
        have := hlow x hmem
        omega
      · exact List.forall_mem_append.2 ⟨haccepted (by omega), List.forall_mem_singleton.2 hout⟩
      · obtain ⟨check, hmem, hcheck⟩ := hrefused (by omega)
        exact ⟨check, List.mem_append_left _ hmem, hcheck⟩
  · rw [if_neg hok] at hreached
    have hsame := checkCfg_of_not (w := w) hok
    have hclip' : (v.checkCfg w).2.channel.alignClip = v.channel.alignClip := by rw [Watched.checkCfg, hsame]
    refine ⟨k, hclip'.trans hclip, hlow, by omega, fun hp => hk (by omega), fun heq => ?_, fun hne => ?_⟩
    · refine List.forall_mem_append.2 ⟨haccepted (by omega), List.forall_mem_singleton.2 ?_⟩
      rw [hsame]
      exact Outcome.noConfusion
    · obtain ⟨check, hmem, hcheck⟩ := hrefused (by omega)
      exact ⟨check, List.mem_append_left _ hmem, hcheck⟩

/-- **However a channel evolves**, its clip is lowered. -/
theorem Lowered.evolves (hlen : clip.length = 4) (hpos : ∀ x ∈ clip, 0 < x.toNat) (h : Evolves v v')
    (hv : ∃ k, Lowered clip v k) : ∃ k, Lowered clip v' k := by
  induction h with
  | refl => exact hv
  | tail _ hmove ih =>
    obtain ⟨k, hk⟩ := ih
    cases hmove with
    | check w => exact hk.check hlen hpos
    | resize size => exact ⟨k, hk.alignClip, hk.low, hk.le, hk.pos, hk.accepted, hk.refused⟩

/-- A channel without a clip gets none, and is not refused for it. -/
theorem clipless_evolves (h : Evolves v v') (hclip : v.channel.alignClip = [])
    (hchecks : ∀ check ∈ v.checks, check.2 ≠ .notOneBased) :
    v'.channel.alignClip = [] ∧ ∀ check ∈ v'.checks, check.2 ≠ .notOneBased := by
  induction h with
  | refl => exact ⟨hclip, hchecks⟩
  | @tail v₁ v₂ _ hmove ih =>
    obtain ⟨hnone, hall⟩ := ih
    cases hmove with
    | resize size => exact ⟨hnone, hall⟩
    | check w =>
      by_cases hok : v₁.channel.templatesOk = true
      · have hzero : ChannelCfg.zeroBased v₁.channel.alignClip = some [] := by rw [hnone]; rfl
        obtain ⟨hout, hnext⟩ := checkCfg_of_some (w := w) hok hzero
        exact ⟨hnext, List.forall_mem_append.2 ⟨hall, List.forall_mem_singleton.2 hout⟩⟩
      · have hsame := checkCfg_of_not (w := w) hok
        rw [Watched.checkCfg, hsame]
        exact ⟨hnone, List.forall_mem_append.2 ⟨hall, List.forall_mem_singleton.2 Outcome.noConfusion⟩⟩

/-- **A clip is right exactly if one check has come to it.** -/
theorem converted_iff_of_evolves (hv : v.OneBased) (hfresh : v.checks = []) (h : Evolves v v') :
    v.Converted v' ↔ v.CheckedOnce v' := by
  rcases hv with hnone | ⟨hlen, hone⟩
  · obtain ⟨hnone', hall⟩ := clipless_evolves h hnone (by rw [hfresh]; exact List.forall_mem_nil _)
    rw [Watched.Converted, hnone, hnone']
    exact iff_of_true ⟨rfl, hall⟩ fun hne => absurd hnone hne
  · have hpos : ∀ x ∈ v.channel.alignClip, 0 < x.toNat := by
      intro x hx
      have hsigned := hone x hx
      refine Nat.pos_of_ne_zero fun hzero => ?_
      rw [BitVec.eq_of_toNat_eq (y := 0#16) hzero] at hsigned
      exact absurd hsigned (by decide)
    have hreached : v.reached = 0 := by rw [Watched.reached, hfresh]; rfl
    have hstart : Lowered v.channel.alignClip v 0 := by
      refine ⟨?_, fun _ _ => Nat.zero_le _, Nat.zero_le _, fun h0 => ?_, fun _ => ?_, fun hne => ?_⟩
      · simp
      · omega
      · rw [hfresh]
        exact List.forall_mem_nil _
      · exact absurd hreached.symm hne
    obtain ⟨k, hk⟩ := Lowered.evolves hlen hpos h ⟨0, hstart⟩
    have hne : v.channel.alignClip ≠ [] := List.ne_nil_of_length_pos (by omega)
    constructor
    · rintro ⟨hclip, hall⟩ -
      have hkr : k = v'.reached := by
        by_contra hne
        obtain ⟨check, hmem, hcheck⟩ := hk.refused hne
        exact hall check hmem hcheck
      obtain ⟨x, hx⟩ := List.exists_mem_of_ne_nil _ hne
      have hsub : x - 1 = x - BitVec.ofNat 16 k := List.map_inj_left.1 (hclip.symm.trans hk.alignClip) x hx
      have hk1 : (1 : BitVec 16).toNat = (BitVec.ofNat 16 k).toNat := congrArg _ (sub_right_injective hsub)
      have hlow := hk.low x hx
      have hlt := x.isLt
      rw [BitVec.toNat_ofNat, Nat.mod_eq_of_lt (by omega)] at hk1
      rw [← hkr, ← hk1]
      rfl
    · intro honce
      have hreached := honce hne
      have hk1 : k = 1 := by
        have := hk.le
        have := hk.pos
        omega
      subst hk1
      exact ⟨hk.alignClip, hk.accepted hreached.symm⟩

end Clips

/-! ## Calls of single channels -/

/-- A call that checks one channel, whatever is known of the size of its images. -/
def Call.Direct : Call → Prop
  | .checkChannel _ _ => True
  | .getImageSize _ _ force => force = true
  | _ => False

/-- The channel that it checks. -/
def Call.channel? : Call → Option (ℕ × ℕ)
  | .checkChannel i j => some (i, j)
  | .getImageSize i j _ => some (i, j)
  | _ => none

/-- The channel `j` of object `i`. -/
def Job.channel? (job : Job) (i j : ℕ) : Option Watched := job.objects[i]?.bind fun o => o.channels[j]?

/-- No channel leaves out files that are missing. -/
def Job.Complete (job : Job) : Prop := ∀ i j v, job.channel? i j = some v → v.channel.incomplete = false

/-- Each channel with a clip has its templates in order, and is named in one of the calls. -/
def Job.NamedOnce (job : Job) (calls : List (World × Call)) : Prop :=
  ∀ i j v, job.channel? i j = some v → v.channel.alignClip ≠ [] →
    v.channel.templatesOk = true ∧ calls.countP (fun call => call.2.channel? == some (i, j)) = 1

section Direct

/-- A channel that keeps its files has been checked `n` times more. -/
structure Checked (n : ℕ) (v v' : Watched) : Prop where
  incomplete : v'.channel.incomplete = false
  templatesOk : v'.channel.templatesOk = v.channel.templatesOk
  reached : v'.reached = v.reached + if v.channel.templatesOk then n else 0

variable {c : Channel} {v v' v'' : Watched} {w : World} {job job' : Job} {calls : List (World × Call)} {m n i j : ℕ}

theorem Checked.refl (h : v.channel.incomplete = false) : Checked 0 v v :=
  ⟨h, rfl, by rw [ite_self, Nat.add_zero]⟩

theorem Checked.trans (h : Checked m v v') (h' : Checked n v' v'') : Checked (m + n) v v'' := by
  refine ⟨h'.incomplete, h'.templatesOk.trans h.templatesOk, ?_⟩
  rw [h'.reached, h.reached, h.templatesOk]
  split_ifs
  · exact Nat.add_assoc _ _ _
  · rfl

theorem templatesOk_clearDark : c.clearDark.templatesOk = c.templatesOk ∧ c.clearDark.incomplete = c.incomplete := by
  unfold Channel.clearDark
  split_ifs with h
  · refine ⟨?_, rfl⟩
    -- without a place for them, the numbers are not looked at
    simp only [Channel.templatesOk, h.2]
    rfl
  · exact ⟨rfl, rfl⟩

theorem checkFiles_of_complete (h : c.incomplete = false) : (c.checkFiles w).2 = c := by
  unfold Channel.checkFiles
  split
  · rfl
  · rw [if_neg]
    rw [h, Bool.false_and]
    exact Bool.false_ne_true

/-- A check leaves the templates as they are, if all files have to be there. -/
theorem templatesOk_checkCfg (h : c.incomplete = false) :
    (c.checkCfg w).2.templatesOk = c.templatesOk ∧ (c.checkCfg w).2.incomplete = false := by
  obtain ⟨hok, hinc⟩ := templatesOk_clearDark (c := c)
  rw [h] at hinc
  unfold Channel.checkCfg
  split
  · exact ⟨rfl, h⟩
  · dsimp only
    split
    · exact ⟨hok, hinc⟩
    · split
      · exact ⟨hok, hinc⟩
      · rw [checkFiles_of_complete (by exact hinc)]
        exact ⟨hok, hinc⟩

theorem checked_checkCfg (h : v.channel.incomplete = false) : Checked 1 v (v.checkCfg w).2 :=
  ⟨(templatesOk_checkCfg h).2, (templatesOk_checkCfg h).1, reached_check⟩

theorem checked_getImageSize (h : v.channel.incomplete = false) : Checked 1 v (v.getImageSize w true).2 := by
  have hchecked := checked_checkCfg (w := w) h
  unfold Watched.getImageSize
  rw [if_pos (Or.inl rfl)]
  dsimp only
  split
  · exact hchecked
  · split
    · exact hchecked
    · exact ⟨hchecked.incomplete, hchecked.templatesOk, hchecked.reached⟩

/-- A call of a channel leaves the others as they are. -/
theorem channel?_atChannel {i' j' : ℕ} {f : Watched → Watched} (h : job.atChannel i' j' f = some job')
    (hv : job.channel? i j = some v) :
    job'.channel? i j = some (if (i', j') = (i, j) then f v else v) := by
  obtain ⟨o, ho, h⟩ := Option.bind_eq_some_iff.1 h
  obtain ⟨o', ho', rfl⟩ := Option.map_eq_some_iff.1 h
  obtain ⟨ch, hch, rfl⟩ := Option.map_eq_some_iff.1 ho'
  obtain ⟨o₁, ho₁, hv⟩ := Option.bind_eq_some_iff.1 hv
  have hi := (List.getElem?_eq_some_iff.1 ho).1
  have hj := (List.getElem?_eq_some_iff.1 hch).1
  by_cases hii : i' = i
  · subst hii
    obtain rfl : o = o₁ := Option.some.inj (ho.symm.trans ho₁)
    rw [Job.channel?, List.getElem?_set_self hi, Option.bind_some]
    by_cases hjj : j' = j
    · subst hjj
      obtain rfl : ch = v := Option.some.inj (hch.symm.trans hv)
      rw [List.getElem?_set_self hj, if_pos rfl]
    · rw [List.getElem?_set_ne hjj, hv, if_neg fun heq => hjj (Prod.mk.inj heq).2]
  · rw [Job.channel?, List.getElem?_set_ne hii, ho₁, Option.bind_some, hv,
      if_neg fun heq => hii (Prod.mk.inj heq).1]

/-- **One call** checks the channel it names. -/
theorem checked_step {call : World × Call} (hdirect : call.2.Direct) (h : job.step call = some job')
    (hv : job.channel? i j = some v) (hinc : v.channel.incomplete = false) :
    ∃ v', job'.channel? i j = some v' ∧ Checked (if call.2.channel? == some (i, j) then 1 else 0) v v' := by
  have hat {w : World} {i' j' : ℕ} {f : Watched → Watched} (hf : Checked 1 v (f v))
      (h : job.atChannel i' j' f = some job') :
      ∃ v', job'.channel? i j = some v' ∧ Checked (if some (i', j') == some (i, j) then 1 else 0) v v' := by
    refine ⟨_, channel?_atChannel h hv, ?_⟩
    by_cases hnamed : (i', j') = (i, j)
    · rw [if_pos hnamed, if_pos (by rw [hnamed, beq_self_eq_true])]
      exact hf
    · rw [if_neg hnamed, if_neg (by rw [beq_iff_eq, Option.some_inj]; exact hnamed)]
      exact .refl hinc
  obtain ⟨w, call⟩ := call
  cases call with
  | checkChannel i' j' => exact hat (w := w) (checked_checkCfg hinc) h
  | getImageSize i' j' force =>
    obtain rfl : force = true := hdirect
    exact hat (w := w) (checked_getImageSize hinc) h
  | checkCfg => exact absurd hdirect id
  | checkObject i' => exact absurd hdirect id
  | getSmallestImageSize => exact absurd hdirect id

/-- **A run of such calls** checks each channel as often as it is named. -/
theorem checked_run : ∀ {calls : List (World × Call)} {job : Job} {v : Watched}, (∀ call ∈ calls, call.2.Direct) →
    job.run calls = some job' → job.channel? i j = some v → v.channel.incomplete = false →
      ∃ v', job'.channel? i j = some v' ∧
        Checked (calls.countP fun call => call.2.channel? == some (i, j)) v v'
  | [], job, v, _, hrun, hv, hinc => by
    cases hrun
    exact ⟨v, hv, .refl hinc⟩
  | call :: calls, job, v, hdirect, hrun, hv, hinc => by
    obtain ⟨hcall, hcalls⟩ := List.forall_mem_cons.1 hdirect
    rw [Job.run, List.foldlM_cons] at hrun
    obtain ⟨job₁, hstep, hrun⟩ := Option.bind_eq_some_iff.1 hrun
    obtain ⟨v₁, hv₁, hchecked⟩ := checked_step hcall hstep hv hinc
    obtain ⟨v', hv', hrest⟩ := checked_run hcalls hrun hv₁ hchecked.incomplete
    refine ⟨v', hv', ?_⟩
    rw [List.countP_cons, Nat.add_comm]
    exact hchecked.trans hrest

/-- What holds of the channels holds of each of them. -/
theorem forall₂_at {R : Watched → Watched → Prop} {k j : ℕ} {ref ref' : Object} {v v' : Watched}
    (h : job.Channels R job') (href : job.objects[k]? = some ref) (href' : job'.objects[k]? = some ref')
    (hv : ref.channels[j]? = some v) (hv' : ref'.channels[j]? = some v') : R v v' := by
  obtain ⟨o, ho, hchannels⟩ := forall₂_getElem? h href
  obtain rfl : ref' = o := Option.some.inj (href'.symm.trans ho)
  obtain ⟨ch, hch, hR⟩ := forall₂_getElem? hchannels hv
  obtain rfl : v' = ch := Option.some.inj (hv'.symm.trans hch)
  exact hR

theorem forall₂_of_getElem? {α β : Type} {R S : α → β → Prop} : ∀ {as : List α} {bs : List β}, List.Forall₂ S as bs →
    (∀ (k : ℕ) (a : α) (b : β), as[k]? = some a → bs[k]? = some b → S a b → R a b) → List.Forall₂ R as bs
  | _, _, .nil, _ => .nil
  | _, _, .cons hab hs, h =>
    .cons (h 0 _ _ rfl rfl hab) (forall₂_of_getElem? hs fun k a b ha hb => h (k + 1) a b ha hb)

/-- The channels of a job, by their places. -/
theorem channels_iff {R : Watched → Watched → Prop} (h : OfJob job job') :
    job.Channels R job' ↔ ∀ i j v v', job.channel? i j = some v → job'.channel? i j = some v' → R v v' := by
  constructor
  · intro hR i j v v' hv hv'
    obtain ⟨o, ho, hch⟩ := Option.bind_eq_some_iff.1 hv
    obtain ⟨o', ho', hch'⟩ := Option.bind_eq_some_iff.1 hv'
    exact forall₂_at hR ho ho' hch hch'
  · intro hall
    refine forall₂_of_getElem? h fun i o o' ho ho' hchannels => ?_
    refine forall₂_of_getElem? hchannels fun j v v' hv hv' _ => hall i j v v' ?_ ?_
    · rw [Job.channel?, ho, Option.bind_some, hv]
    · rw [Job.channel?, ho', Option.bind_some, hv']

/-- **A run of such calls comes once to each clip** exactly if each channel with a clip is named once. -/
theorem checkedOnce_iff_namedOnce (hjob : job.Configured) (hcomplete : job.Complete)
    (hdirect : ∀ call ∈ calls, call.2.Direct) (hrun : job.run calls = some job') :
    job.Channels Watched.CheckedOnce job' ↔ job.NamedOnce calls := by
  have hfresh {i j : ℕ} {v : Watched} (hv : job.channel? i j = some v) : v.reached = 0 := by
    obtain ⟨o, ho, hch⟩ := Option.bind_eq_some_iff.1 hv
    rw [Watched.reached, (hjob o (List.mem_of_getElem? ho) v (List.mem_of_getElem? hch)).2, List.countP_nil]
  rw [channels_iff (ofJob_run hrun)]
  refine forall_congr' fun i => forall_congr' fun j => forall_congr' fun v => ?_
  constructor
  · intro honce hv hclip
    obtain ⟨v', hv', hchecked⟩ := checked_run hdirect hrun hv (hcomplete i j v hv)
    have hreached := hchecked.reached
    rw [honce v' hv hv' hclip, hfresh hv, Nat.zero_add] at hreached
    split_ifs at hreached with hok
    exact ⟨hok, hreached.symm⟩
  · intro hnamed v' hv hv' hclip
    obtain ⟨hok, hcount⟩ := hnamed hv hclip
    obtain ⟨v₁, hv₁, hchecked⟩ := checked_run hdirect hrun hv (hcomplete i j v hv)
    obtain rfl : v' = v₁ := Option.some.inj (hv'.symm.trans hv₁)
    rw [hchecked.reached, if_pos hok, hcount, hfresh hv]

end Direct

/-! ## The calls -/

section Runs

variable {job job' : Job} {calls : List (World × Call)}

theorem forall₂_iff {α β : Type} {P Q : α → β → Prop} :
    ∀ {as : List α} {bs : List β}, List.Forall₂ (fun a b => P a b ↔ Q a b) as bs →
      (List.Forall₂ P as bs ↔ List.Forall₂ Q as bs)
  | _, _, .nil => iff_of_true .nil .nil
  | _, _, .cons h hs => by rw [List.forall₂_cons, List.forall₂_cons, h, forall₂_iff hs]

/-- **After any calls, the clips are zero-based and none has been refused exactly if each has been come to by one
check**: if single channels are called, and none may miss files, each that has a clip is named in one call. -/
theorem converted_iff (hjob : job.Configured) (hrun : job.run calls = some job') :
    (job.Channels Watched.Converted job' ↔ job.Channels Watched.CheckedOnce job') ∧
      (job.Complete → (∀ call ∈ calls, call.2.Direct) →
        (job.Channels Watched.CheckedOnce job' ↔ job.NamedOnce calls)) := by
  refine ⟨?_, fun hcomplete hdirect => checkedOnce_iff_namedOnce hjob hcomplete hdirect hrun⟩
  refine forall₂_iff (forall₂_of_getElem? (ofJob_run hrun) fun i o o' ho _ hevolves => ?_)
  refine forall₂_iff (forall₂_of_getElem? hevolves fun j v v' hv _ h => ?_)
  obtain ⟨hone, hfresh⟩ := hjob o (List.mem_of_getElem? ho) v (List.mem_of_getElem? hv)
  exact converted_iff_of_evolves hone hfresh h

/-- Files of 64 by 64 pixels, with their numbers for names. -/
def here : World where
  format tpl := if tpl = ['%', 'd'] then some fun n => Nat.toDigits 10 n.toNat else none
  is_directory _ := false
  is_regular_file _ := true
  parent_path _ := []
  append dir fn := dir ++ '/' :: fn
  dims _ := some [64, 64]
  inRange _ := true
  outputName _ _ := none
  writable := true
  rounds := 0

/-- A channel whose clip is the whole image. -/
def wholeImage : Channel where
  imageTemplate := ['%', 'd']
  imageDataDir := ['d']
  darkTemplate := []
  gainFile := []
  imageNumberOffset := 0
  fileNumbers := [1]
  darkNumbers := []
  incomplete := false
  diversityValues := 0
  diversityModes := 0
  alignClip := [1, 64, 1, 64]
  imgSize := (0, 0)
  borderClip := 0

/-- A job with this channel only. -/
def fullFrame : Job where
  cfgChecked := false
  patchSize := 8
  bothModes := false
  subImagePosXY := [32, 32]
  subImagePosX := []
  subImagePosY := []
  minimumOverlap := 0
  objects := [⟨0, (0, 0), 0, ['o'], [⟨wholeImage, []⟩]⟩]

theorem fullFrame_configured : fullFrame.Configured := by
  have hone : ∀ x ∈ ([1, 64, 1, 64] : List (BitVec 16)), 0 < x.toInt := by simp
  exact List.forall_mem_singleton.2 (List.forall_mem_singleton.2 ⟨Or.inr ⟨rfl, hone⟩, rfl⟩)

/-- The sizes of the images are asked for once. -/
theorem sizes_once : ∃ job', fullFrame.run [(here, .getSmallestImageSize)] = some job' ∧
    fullFrame.Channels Watched.Converted job' := by
  refine ⟨_, rfl, (@converted_iff _ _ [(here, .getSmallestImageSize)] fullFrame_configured rfl).1.2 ?_⟩
  exact .cons (.cons (fun _ => rfl) .nil) .nil

/-- The check of the job converts the clip for the size of the image, and then refuses it for not counting
from one. -/
theorem refused_at_once : fullFrame.Configured ∧ ∃ job', fullFrame.checkCfg here = some (.notOneBased, job') ∧
    fullFrame.run [(here, .checkCfg)] = some job' ∧ ¬fullFrame.Channels Watched.Converted job' := by
  refine ⟨fullFrame_configured, _, rfl, rfl, fun h => ?_⟩
  obtain ⟨hobject, -⟩ := List.forall₂_cons.1 h
  obtain ⟨hchannel, -⟩ := List.forall₂_cons.1 hobject
  exact hchannel.2 _ (List.mem_cons_of_mem _ List.mem_cons_self) rfl

end Runs

/-! ## The check of a job -/

section Twice

variable {c : Channel} {v : Watched} {o : Object} {job job' : Job} {w : World} {force : Bool}

/-- A check that comes to the clip, if one after it would. -/
def Counted (v v' : Watched) : Prop :=
  v'.channel.templatesOk = true → v.channel.templatesOk = true ∧ v'.reached = v.reached + 1

theorem counted_checkCfg : Counted v (v.checkCfg w).2 := by
  intro h
  have hok : v.channel.templatesOk = true := by
    by_contra hnot
    have hsame : (v.checkCfg w).2.channel = v.channel := by rw [Watched.checkCfg, checkCfg_of_not hnot]
    exact hnot (hsame ▸ h)
  exact ⟨hok, by rw [reached_check, if_pos hok]⟩

/-- A size that is not known is not had without a check. -/
theorem counted_getImageSize {size : Size} (hunknown : v.channel.imgSize = (0, 0))
    (h : (v.getImageSize w force).1 = some size) : Counted v (v.getImageSize w force).2 := by
  unfold Watched.getImageSize at h ⊢
  rw [if_pos (Or.inr hunknown)] at h ⊢
  dsimp only at h ⊢
  split at h
  · cases h
  · next hout =>
    rw [if_neg hout]
    split at h
    · cases h
    · exact counted_checkCfg (w := w)

theorem counted_getImageSizes : ∀ {chs : List Watched} {imgSize : Size},
    (∀ v ∈ chs, v.channel.imgSize = (0, 0)) → (getImageSizes w force imgSize chs).1 = true →
      List.Forall₂ Counted chs (getImageSizes w force imgSize chs).2.2
  | [], _, _, _ => .nil
  | ch :: chs, imgSize, hunknown, h => by
    obtain ⟨hhead, htail⟩ := List.forall_mem_cons.1 hunknown
    unfold getImageSizes at h ⊢
    dsimp only at h ⊢
    split at h
    · cases h
    · next tmp htmp =>
      split at h
      · next hsame =>
        rw [if_pos hsame]
        exact .cons (counted_getImageSize hhead htmp) (counted_getImageSizes htail h)
      · cases h

/-- A check that is passed has come to the clip. -/
def Passed (v v' : Watched) : Prop := v.channel.templatesOk = true ∧ v'.reached = v.reached + 1

theorem passed_checkCfg (h : (v.checkCfg w).1 = .passed) : Passed v (v.checkCfg w).2 := by
  have hok : v.channel.templatesOk = true := by
    by_contra hnot
    have hfailed : (v.checkCfg w).1 = .failed := by rw [Watched.checkCfg, checkCfg_of_not hnot]
    rw [hfailed] at h
    cases h
  exact ⟨hok, by rw [reached_check, if_pos hok]⟩

theorem passed_checkChannels : ∀ {chs : List Watched}, (checkChannels w chs).1 = .passed →
    List.Forall₂ Passed chs (checkChannels w chs).2
  | [], _ => .nil
  | ch :: chs, h => by
    unfold checkChannels at h ⊢
    dsimp only at h ⊢
    split at h
    · next hpassed =>
      rw [if_pos hpassed]
      exact .cons (passed_checkCfg hpassed) (passed_checkChannels h)
    · next hnot => exact absurd h hnot

theorem passed_object (h : (o.checkCfg w).1 = .passed) : List.Forall₂ Passed o.channels (o.checkCfg w).2.channels := by
  unfold Object.checkCfg at h ⊢
  split at h
  · cases h
  · next hne =>
    rw [if_neg hne]
    split at h
    · cases h
    · next hin =>
      rw [if_neg hin]
      dsimp only at h ⊢
      split at h
      · next hpassed =>
        rw [if_pos hpassed, channels_nameOutput]
        exact passed_checkChannels hpassed
      · next hnot => exact absurd h hnot

theorem passed_checkObjects : ∀ {os : List Object}, (checkObjects w os).1 = .passed →
    List.Forall₂ (fun o o' : Object => List.Forall₂ Passed o.channels o'.channels) os (checkObjects w os).2
  | [], _ => .nil
  | o :: os, h => by
    unfold checkObjects at h ⊢
    split at h
    · cases h
    · next hne =>
      rw [if_neg hne]
      dsimp only at h ⊢
      split at h
      · cases h
      · next hcount =>
        rw [if_neg hcount]
        split at h
        · next hpassed =>
          rw [if_pos hpassed]
          exact .cons (passed_object hpassed) (passed_checkObjects h)
        · next hnot => exact absurd h hnot

/-- The sizes of the reference object are not had without a check of its channels. -/
theorem counted_checkPatchPositions {k : ℕ} {ref : Object} (hk : (job.objects.findIdx? fun o => o.ID = 0) = some k)
    (href : job.objects[k]? = some ref) (hsize : ref.imgSize = (0, 0))
    (hunknown : ∀ v ∈ ref.channels, v.channel.imgSize = (0, 0))
    (h : job.checkPatchPositions w = some (.passed, job')) :
    ∃ ref', job'.objects[k]? = some ref' ∧ List.Forall₂ Counted ref.channels ref'.channels := by
  unfold Job.checkPatchPositions at h
  rw [hk, Option.bind_some, href, Option.bind_some] at h
  obtain ⟨ch, -, h⟩ := Option.bind_eq_some_iff.1 h
  dsimp only at h
  split at h
  · cases h
  · next size hread =>
    obtain ⟨a, -, ha⟩ := Option.map_eq_some_iff.1 h
    have hjob : _ = job' := congrArg Prod.snd ha
    subst hjob
    refine ⟨_, List.getElem?_set_self (List.getElem?_eq_some_iff.1 href).1, ?_⟩
    unfold Object.getImageSize at hread ⊢
    rw [if_pos (Or.inr hsize)] at hread ⊢
    dsimp only at hread ⊢
    split at hread
    · next hall => exact counted_getImageSizes hunknown hall
    · cases hread

/-- The objects of a job that is accepted have passed their checks. -/
theorem passed_checkRest (h : (job.checkRest w).1 = .passed) :
    List.Forall₂ (fun o o' : Object => List.Forall₂ Passed o.channels o'.channels) job.objects
      (job.checkRest w).2.objects := by
  unfold Job.checkRest at h ⊢
  split at h
  · cases h
  · next hpos =>
    rw [if_neg hpos]
    split at h
    · cases h
    · next hne =>
      rw [if_neg hne]
      dsimp only at h ⊢
      split at h
      · next hpassed =>
        rw [if_pos hpassed]
        split at h
        · next hwritable =>
          rw [if_pos hwritable]
          exact passed_checkObjects hpassed
        · cases h
      · next hnot => exact absurd h hnot

/-- **The check of a job, if it is passed, has come twice to each clip of the reference object.** -/
theorem accepted_twice {k : ℕ} {ref : Object} (hchecked : job.cfgChecked = false)
    (hk : (job.objects.findIdx? fun o => o.ID = 0) = some k) (href : job.objects[k]? = some ref)
    (hsize : ref.imgSize = (0, 0)) (hunknown : ∀ v ∈ ref.channels, v.channel.imgSize = (0, 0))
    (h : job.checkCfg w = some (.passed, job')) :
    ∃ ref', job'.objects[k]? = some ref' ∧
      List.Forall₂ (fun v v' : Watched => v'.reached = v.reached + 2) ref.channels ref'.channels := by
  unfold Job.checkCfg at h
  rw [if_neg (by rw [hchecked]; exact Bool.false_ne_true)] at h
  split at h
  · cases h
  split at h
  · cases h
  split at h
  · cases h
  obtain ⟨⟨out, job₁⟩, hplaced, hrest⟩ := Option.map_eq_some_iff.1 h
  dsimp only at hrest
  split at hrest
  · next hout =>
    subst hout
    obtain ⟨ref₁, href₁, hcounted⟩ := counted_checkPatchPositions hk href hsize hunknown hplaced
    have hpassed : (job₁.checkRest w).1 = .passed := by rw [hrest]
    have hobjects := passed_checkRest hpassed
    rw [hrest] at hobjects
    obtain ⟨ref', href', htwice⟩ := forall₂_getElem? hobjects href₁
    refine ⟨ref', href', forall₂_trans (fun v v₁ v' hcount hpass => ?_) hcounted htwice⟩
    rw [hpass.2, (hcount hpass.1).2]
  · next hout => exact absurd (congrArg Prod.fst hrest) hout

/-- **No job is accepted with its clips in order**, if its reference object has one and the size of its images is
not known before. -/
theorem not_converted_of_accepted {k : ℕ} {ref : Object} (hjob : job.Configured) (hchecked : job.cfgChecked = false)
    (hk : (job.objects.findIdx? fun o => o.ID = 0) = some k) (href : job.objects[k]? = some ref)
    (hsize : ref.imgSize = (0, 0)) (hunknown : ∀ v ∈ ref.channels, v.channel.imgSize = (0, 0))
    (hclip : ∃ v ∈ ref.channels, v.channel.alignClip ≠ []) (h : job.checkCfg w = some (.passed, job')) :
    ¬job.Channels Watched.Converted job' := by
  intro hconverted
  obtain ⟨v, hv, hne⟩ := hclip
  obtain ⟨j, hj⟩ := List.getElem?_of_mem hv
  obtain ⟨ref', href', htwice⟩ := accepted_twice hchecked hk href hsize hunknown h
  obtain ⟨v', hv', hreached⟩ := forall₂_getElem? htwice hj
  have hevolves := forall₂_at (ofJob_checkCfg h) href href' hj hv'
  have hconv := forall₂_at hconverted href href' hj hv'
  obtain ⟨hone, hfresh⟩ := hjob ref (List.mem_of_getElem? href) v hv
  have honce := (converted_iff_of_evolves hone hfresh hevolves).1 hconv hne
  have hnone : v.reached = 0 := by rw [Watched.reached, hfresh]; rfl
  omega

end Twice

end Redux.Momfbd.AlignClip
