import Redux.Lib.Pool
import Redux.Momfbd.Job
import Mathlib.Algebra.Order.BigOperators.Group.List
import Mathlib.Algebra.Order.Ring.Nat

/-!
# Momfbd.Preprocess — the pre-processing of a job

`run` announces on the job's watch how many images there are, and posts one item of work per file, per
patch and channel, and one for the cache; the items then run in any order and interleave.  What files,
caches and calibration data do is given with the configuration: whether they can be loaded and what
their sizes are.
-/

namespace Redux.Momfbd

open Redux.Lib

/-! ## The configuration -/

/-- `Point16`: y and x. -/
abbrev Size := ℕ × ℕ

/-- Where `preprocessImage` throws: at the copy of the image, in the calibration, in the statistics. -/
inductive Stage where
  | copy
  | calibrate
  | statistics
  deriving DecidableEq, Repr

/-- A file of a channel: its frames, each with the place where its pre-processing throws, whether
`loadFile` loads it, and whether saving what was calibrated ends without an exception that is not a
`std::exception`. -/
structure ImageFile where
  frames : List (Option Stage)
  loads : Bool
  saves : Bool

/-- A `Channel`: `imgSize` as it arrives and as the first file has it, `borderClip`, the number of
elements of `dark` and `gain` where they are valid, the files, whether the storage of the images and the
calibration data can be had, and for each patch whether `adjustCutout` goes through. -/
structure Channel where
  imgSize : Size
  fileSize : Size
  borderClip : ℕ
  dark : Option ℕ
  gain : Option ℕ
  files : List ImageFile
  stored : Bool
  calibrated : Bool
  cutouts : List Bool

/-- An `Object`; `saveFFData` is `saveMask&SF_SAVE_FFDATA`. -/
structure Object where
  imgSize : Size
  saveFFData : Bool
  channels : List Channel

/-- `Channel::nImages()`. -/
def Channel.nImages (ch : Channel) : ℕ := (ch.files.map fun f => f.frames.length).sum

/-- `Object::nImages( true )`. -/
def Object.nImages (obj : Object) : ℕ := (obj.channels.map Channel.nImages).sum

/-! ## Image sizes -/

/-- `Channel::getImageSize()`: the channel with its size, and with a `borderClip` that fits it. -/
def Channel.getImageSize (ch : Channel) : Channel :=
  if ch.imgSize = (0, 0) then
    if ch.fileSize.2 ≠ 0 ∧ ch.fileSize.1 ≠ 0 then
      { ch with
        imgSize := ch.fileSize
        borderClip := min (min ch.borderClip (ch.fileSize.2 / 8)) (ch.fileSize.1 / 8) }
    else { ch with imgSize := ch.fileSize }
  else ch

/-- The size of the channels, the first ones without a size passed over; `none` if they differ. -/
def commonSize : Size → List Channel → Option Size
  | size, [] => some size
  | size, ch :: chs =>
    if size = (0, 0) then commonSize ch.imgSize chs
    else if ch.imgSize ≠ size then none
    else commonSize size chs

/-- `Object::getImageSize()`. -/
def Object.getImageSize (obj : Object) : Option Object :=
  if obj.imgSize = (0, 0) then
    let channels := obj.channels.map Channel.getImageSize
    (commonSize (0, 0) channels).map fun size => { obj with imgSize := size, channels := channels }
  else some obj

/-- The loop of `preProcess` over the image sizes of the objects; `none` for an exception. -/
def getImageSizes : Size → List Object → Option (List Object)
  | _, [] => some []
  | size, obj :: objs =>
    match obj.getImageSize with
    | none => none
    | some obj =>
      if obj.imgSize = (0, 0) then none
      else if size = (0, 0) then (getImageSizes obj.imgSize objs).map (obj :: ·)
      else if obj.imgSize ≠ size then none
      else (getImageSizes size objs).map (obj :: ·)

/-! ## Work items -/

/-- Frame `frame` of a channel of an object. -/
structure ImageId where
  object : ℕ
  channel : ℕ
  frame : ℕ
  deriving DecidableEq, Repr

/-- Who has a progress watch besides the job. -/
inductive Owner where
  | object (o : ℕ)
  | channel (o c : ℕ)
  deriving DecidableEq, Repr

/-- What the items do: a step of the job's watch or of another one, for an image if for any, and what a file
that fails does to the job, to its watch and to another one. -/
inductive PreOp where
  | stepJob (image : Option ImageId)
  | step (owner : Owner) (image : Option ImageId)
  | moveToErr
  | clearJob
  | clear (owner : Owner)
  deriving DecidableEq, Repr

/-- A channel as its items see it. -/
structure Source where
  object : ℕ
  channel : ℕ
  saveFFData : Bool
  ch : Channel

namespace Source

variable (x : Source)

/-- The dark or the gain does not have as many elements as the image. -/
def wrongSize (ch : Channel) : Prop :=
  ∃ dark ∈ ch.dark, ∃ gain ∈ ch.gain, ch.imgSize.1 * ch.imgSize.2 ≠ dark ∨ ch.imgSize.1 * ch.imgSize.2 ≠ gain

/-- All data are clipped in some dimension. -/
def allClipped (ch : Channel) : Prop :=
  ch.borderClip ≠ 0 ∧ ∃ d ∈ [ch.imgSize.1, ch.imgSize.2], d ≠ 1 ∧ d < 2 * ch.borderClip

instance (ch : Channel) : Decidable (wrongSize ch) := by unfold wrongSize; infer_instance
instance (ch : Channel) : Decidable (allClipped ch) := by unfold allClipped; infer_instance

/-- `preprocessImage` gets to its end, where it steps the watches, also after an exception. -/
def steps (fault : Option Stage) : Bool :=
  if fault = some .copy then true
  else if wrongSize x.ch then false
  else if fault = some .calibrate then true
  else if allClipped x.ch then false
  else true

/-- `preprocessImage( i )`. -/
def preprocessImage (i : ℕ) (fault : Option Stage) : List PreOp :=
  if x.steps fault then
    [.stepJob (some ⟨x.object, x.channel, i⟩), .step (.object x.object) (some ⟨x.object, x.channel, i⟩)]
  else []

/-- The frames of a file, the first one being number `i`. -/
def preprocessImages : ℕ → List (Option Stage) → List PreOp
  | _, [] => []
  | i, fault :: faults => x.preprocessImage i fault ++ preprocessImages (i + 1) faults

/-- `loadFile` loads the file and the images have a size. -/
def loaded (f : ImageFile) : Bool := f.loads && decide (1 ≤ x.ch.imgSize.1 ∧ 1 ≤ x.ch.imgSize.2)

/-- The end of the item of a file that fails. -/
def failed : List PreOp := [.moveToErr, .clearJob, .clear (.channel x.object x.channel)]

/-- The item of a file. -/
def loadFile (i : ℕ) (f : ImageFile) : List PreOp :=
  if x.loaded f then
    x.preprocessImages i f.frames ++
      if x.saveFFData then
        if f.saves then [.step (.object x.object) none, .step (.channel x.object x.channel) none]
        else x.failed
      else [.step (.channel x.object x.channel) none]
  else x.failed

/-- The items of the files; `nPreviousFrames` frames come before them. -/
def loadFiles : ℕ → List ImageFile → List (List PreOp)
  | _, [] => []
  | nPreviousFrames, f :: fs =>
    x.loadFile nPreviousFrames f :: loadFiles (nPreviousFrames + f.frames.length) fs

/-- The item of a patch: `adjustCutout`. -/
def adjustCutout (goes : Bool) : List PreOp :=
  if goes then [.step (.channel x.object x.channel) none] else []

/-- What `Channel::loadData` posts. -/
def items : List (List PreOp) := x.ch.cutouts.map x.adjustCutout ++ x.loadFiles 0 x.ch.files

end Source

/-! ## Posting the work -/

/-- The job, how often its watch reached its target, and the other watches. -/
structure PreState where
  job : Job
  reached : ℕ
  watches : Owner → ProgressWatch Unit

namespace PreState

/-- What an operation does.  The handler of the job's watch is called in the step that completes it. -/
def exec (op : PreOp) (s : PreState) : PreState :=
  match op with
  | .stepJob _ =>
    { s with
      job := s.job.tick
      reached := if s.job.progWatch.step.1.completed then s.reached + 1 else s.reached }
  | .step w _ => { s with watches := Function.update s.watches w (s.watches w).step.1 }
  | .moveToErr => { s with job := s.job.moveTo jstateErr }
  | .clearJob => { s with job := { s.job with progWatch := .clear } }
  | .clear w => { s with watches := Function.update s.watches w .clear }

end PreState

/-- The job while its items run. -/
abbrev PrePool := Pool PreState PreOp

namespace PrePool

variable (p : PrePool)

/-- A change of the watch of an object or a channel. -/
def onWatch (w : Owner) (f : ProgressWatch Unit → ProgressWatch Unit) : PrePool :=
  { p with state := { p.state with watches := Function.update p.state.watches w (f (p.state.watches w)) } }

/-- A change of the watch of the job. -/
def announce (w : ProgressWatch Handler) : PrePool := { p with state.job.progWatch := w }

/-- `boost::asio::post`. -/
def post (items : List (List PreOp)) : PrePool := { p with pending := p.pending ++ items }

end PrePool

/-- `Channel::loadData` does not throw. -/
def Source.opens (x : Source) : Bool := decide (x.ch.nImages ≠ 0) && x.ch.stored && x.ch.calibrated

/-- `Channel::loadData`; the error is what there is when it throws. -/
def Source.loadData (x : Source) (p : PrePool) : Except PrePool PrePool :=
  if x.ch.nImages = 0 then .error p
  else if ¬ x.ch.stored then .error p
  else
    let p := if x.saveFFData then
      p.onWatch (.object x.object) (·.increaseTarget x.ch.files.length) else p
    if ¬ x.ch.calibrated then .error p
    else .ok ((p.onWatch (.channel x.object x.channel) fun w =>
      (w.set (x.ch.cutouts.length + x.ch.files.length) 0).setHandler ()).post x.items)

/-- The channels of an object, from channel `c` on. -/
def sourcesFrom (o : ℕ) (saveFFData : Bool) : ℕ → List Channel → List Source
  | _, [] => []
  | c, ch :: chs => ⟨o, c, saveFFData, ch⟩ :: sourcesFrom o saveFFData (c + 1) chs

/-- The loop of `Object::loadData` over its channels. -/
def loadChannels : List Source → PrePool → Except PrePool PrePool
  | [], p => .ok p
  | x :: xs, p => x.loadData p >>= loadChannels xs

/-- `Object::loadData`; `flatfield` is `runFlags&RF_FLATFIELD`. -/
def Object.loadData (flatfield : Bool) (o : ℕ) (obj : Object) (p : PrePool) : Except PrePool PrePool :=
  loadChannels (sourcesFrom o (obj.saveFFData || flatfield) 0 obj.channels)
    (p.onWatch (.object o) fun w => (w.set obj.nImages 0).setHandler ())

/-- The loop of `preProcess` over the objects, from object `o` on. -/
def loadObjects (flatfield : Bool) : ℕ → List Object → PrePool → Except PrePool PrePool
  | _, [], p => .ok p
  | o, obj :: objs, p => obj.loadData flatfield o p >>= loadObjects flatfield (o + 1) objs

/-- The item that fills the cache; `cached` is whether `initCache` goes through. -/
def initCache (cached : Bool) : List PreOp := if cached then [.stepJob none] else []

/-- `preProcess()`. -/
def preProcess (objects : List Object) (cached : Bool) (p : PrePool) :
    Except PrePool PrePool :=
  match getImageSizes (0, 0) objects with
  | none => .error p
  | some objects =>
    let flatfield := p.state.job.flatfield
    let w := (p.state.job.progWatch.setTarget (objects.map Object.nImages).sum).setHandler .unloadCalib
    loadObjects flatfield 0 objects
      (if flatfield then p.announce w else (p.announce (w.increaseTarget 1)).post [initCache cached])

/-- What there is in the end, with or without an exception. -/
def settle : Except PrePool PrePool → PrePool
  | .ok p => p
  | .error p => p

/-- `run()` of a job at `JSTEP_PREPROCESS`, which no exception leaves. -/
def runPreprocess (objects : List Object) (cached : Bool) (watches : Owner → ProgressWatch Unit) (j : Job) :
    PrePool :=
  settle (preProcess objects cached
    ⟨⟨{ j with progWatch := j.progWatch.set 0 0 }, 0, watches⟩, [], []⟩)

end Redux.Momfbd
