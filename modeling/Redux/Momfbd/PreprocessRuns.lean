import Redux.Momfbd.Preprocess
import Mathlib.Data.List.TakeWhile

/-!
# Momfbd.PreprocessRuns — when the pre-processing of a job comes to an end

The target of the job's watch is the number of images; the items make fewer steps if an image takes an
early return, if a channel throws before its items are posted, or if the cache cannot be filled.  Then
the watch does not reach the target, however the items run.  A file that fails moves the job to `JSTATE_ERR`,
which is no step, and then clears the watch.  If its images have been counted before, it depends on the order
whether the watch reaches the target, and whether the job goes on after that.
-/

namespace Redux.Momfbd

open Redux.Lib

/-! ## What the job waits for -/

/-- The images of the channels of object `o`, from channel `c` on. -/
def imagesFrom (o : ℕ) : ℕ → List Channel → List ImageId
  | _, [] => []
  | c, ch :: chs => (List.range ch.nImages).map (⟨o, c, ·⟩) ++ imagesFrom o (c + 1) chs

/-- The images of the objects, from object `o` on. -/
def images : ℕ → List Object → List ImageId
  | _, [] => []
  | o, obj :: objs => imagesFrom o 0 obj.channels ++ images (o + 1) objs

/-- The channels of the objects in the order of `loadObjects`. -/
def sources (flatfield : Bool) : ℕ → List Object → List Source
  | _, [] => []
  | o, obj :: objs =>
    sourcesFrom o (obj.saveFFData || flatfield) 0 obj.channels ++ sources flatfield (o + 1) objs

namespace PreOp

/-- The image that an operation counts on the job's watch. -/
def jobImage : PreOp → Option ImageId
  | .stepJob image => image
  | _ => none

/-- The image that an operation counts on the watch of its object. -/
def objectImage : PreOp → Option ImageId
  | .step (.object o) (some image) => if image.object = o then some image else none
  | _ => none

/-- The operation steps the job's watch. -/
def isStepJob : PreOp → Bool
  | .stepJob _ => true
  | _ => false

/-- The operation is one of a file that failed. -/
def isFail : PreOp → Bool
  | .moveToErr => true
  | .clearJob => true
  | _ => false

end PreOp

/-- The job's watch reached its target once, the job went on to its next step, and each image was counted
once for the job and once for its object. -/
structure Completed (flatfield : Bool) (images : List ImageId) (p : PrePool) : Prop where
  reached : p.state.reached = 1
  step : p.state.job.step = if flatfield then JStep.completed else JStep.queued
  job : (p.done.filterMap PreOp.jobImage).Perm images
  object : (p.done.filterMap PreOp.objectImage).Perm images

/-- Nothing of a channel keeps its images from being counted. -/
structure Source.Fine (x : Source) : Prop where
  loaded : ∀ f ∈ x.ch.files, x.loaded f
  saved : ∀ f ∈ x.ch.files, x.saveFFData → f.saves
  steps : ∀ f ∈ x.ch.files, ∀ fault ∈ f.frames, x.steps fault

/-- What it takes for the pre-processing to complete: image sizes that agree, a cache that can be filled,
no image behind the first channel that throws, and nothing amiss with the channels before it. -/
structure Fine (flatfield : Bool) (objects : List Object) (cached : Bool) : Prop where
  nonempty : flatfield → images 0 objects ≠ []
  cached : flatfield = false → cached
  channels : ∃ objs, getImageSizes (0, 0) objects = some objs ∧
    (∀ x ∈ (sources flatfield 0 objs).dropWhile Source.opens, x.ch.nImages = 0) ∧
    ∀ x ∈ (sources flatfield 0 objs).takeWhile Source.opens, x.Fine

/-- All images of a channel are counted, whether its files fail after that or not. -/
structure Source.Counted (x : Source) : Prop where
  loaded : ∀ f ∈ x.ch.files, f.frames ≠ [] → x.loaded f
  steps : ∀ f ∈ x.ch.files, ∀ fault ∈ f.frames, x.steps fault

/-- What it takes for the job's watch to reach its target in some order of the items. -/
structure Counted (flatfield : Bool) (objects : List Object) (cached : Bool) : Prop where
  nonempty : flatfield → images 0 objects ≠ []
  cached : flatfield = false → cached
  channels : ∃ objs, getImageSizes (0, 0) objects = some objs ∧
    (∀ x ∈ (sources flatfield 0 objs).dropWhile Source.opens, x.ch.nImages = 0) ∧
    ∀ x ∈ (sources flatfield 0 objs).takeWhile Source.opens, x.Counted

/-! ## The job's watch -/

section Phase

variable {target : ℤ} {flatfield : Bool} {d : List PreOp} {s : PreState} {op : PreOp}

/-- Where the job is when the operations `d` have been made. -/
inductive Phase (target : ℤ) (flatfield : Bool) (d : List PreOp) (s : PreState) : Prop
  | waiting (hcount : (d.countP PreOp.isStepJob : ℤ) < target)
      (hwatch : ∃ completed, s.job.progWatch =
        ⟨0, d.countP PreOp.isStepJob, target, completed, some .unloadCalib⟩)
      (hflat : s.job.flatfield = flatfield) (hstep : s.job.step = JStep.preprocess ∨ s.job.step = jstateErr)
      (hreached : s.reached = 0)
  | completed (hcount : (d.countP PreOp.isStepJob : ℤ) = target)
      (hstep : s.job.step = (if flatfield then JStep.completed else JStep.queued) ∨
        s.job.step = jstateErr ∧ ∃ op ∈ d, op.isFail = true) (hreached : s.reached = 1)
  | cleared (hfail : ∃ op ∈ d, op.isFail = true) (hwatch : s.job.progWatch.start = s.job.progWatch.target)
      (hstep : s.job.step = JStep.preprocess ∨ s.job.step = jstateErr) (hreached : s.reached = 0)

theorem ProgressWatch_step_of_start {η : Type} {w : ProgressWatch η} (h : w.start = w.target) :
    w.step = ({ w with counter := w.counter + 1, completed := false }, none) := by
  simp [ProgressWatch.step, h]

theorem unloadCalib_step (j : Job) :
    j.unloadCalib.step = if j.flatfield then JStep.completed else JStep.queued := by
  unfold Job.unloadCalib
  split_ifs
  · exact Job.moveTo_step j _
  · exact Job.moveTo_step j _

/-- An operation after which the job and its watch are what they were. -/
theorem Phase.quiet {s' : PreState} (h : Phase target flatfield d s) (hop : op.isStepJob = false)
    (hjob : s'.job = s.job) (hreached' : s'.reached = s.reached) : Phase target flatfield (op :: d) s' := by
  have hcons : (op :: d).countP PreOp.isStepJob = d.countP PreOp.isStepJob :=
    List.countP_cons_of_neg (by rw [hop]; exact Bool.false_ne_true)
  have hmore : (∃ op ∈ d, op.isFail = true) → ∃ op' ∈ op :: d, op'.isFail = true := fun ⟨op', hop', hf⟩ =>
    ⟨op', List.mem_cons_of_mem _ hop', hf⟩
  cases h with
  | waiting hcount hwatch hflat hstep hreached =>
    exact .waiting (by rwa [hcons]) (by rwa [hcons, hjob]) (by rwa [hjob]) (by rwa [hjob]) (hreached'.trans hreached)
  | completed hcount hstep hreached =>
    refine .completed (by rwa [hcons]) ?_ (hreached'.trans hreached)
    rw [hjob]
    exact hstep.imp_right fun h => ⟨h.1, hmore h.2⟩
  | cleared hfail hwatch hstep hreached =>
    exact .cleared (hmore hfail) (by rwa [hjob]) (by rwa [hjob]) (hreached'.trans hreached)

/-- A file fails: the job moves, but its watch goes on. -/
theorem Phase.moveToErr (h : Phase target flatfield d s) :
    Phase target flatfield (.moveToErr :: d) (PreState.exec .moveToErr s) := by
  have hfail : ∃ op ∈ PreOp.moveToErr :: d, op.isFail = true := ⟨_, List.mem_cons_self, rfl⟩
  have hcons : (PreOp.moveToErr :: d).countP PreOp.isStepJob = d.countP PreOp.isStepJob :=
    List.countP_cons_of_neg Bool.false_ne_true
  have hjob : (PreState.exec .moveToErr s).job = { s.job with step := jstateErr } := Job.moveTo_eq s.job jstateErr
  cases h with
  | waiting hcount hwatch hflat _ hreached =>
    exact .waiting (by rwa [hcons]) (by rwa [hcons, hjob]) (by rwa [hjob]) (.inr (by rw [hjob])) hreached
  | completed hcount _ hreached =>
    exact .completed (by rwa [hcons]) (.inr ⟨by rw [hjob], hfail⟩) hreached
  | cleared _ hwatch _ hreached => exact .cleared hfail (by rwa [hjob]) (.inr (by rw [hjob])) hreached

/-- Its watch is cleared. -/
theorem Phase.clearJob (h : Phase target flatfield d s) :
    Phase target flatfield (.clearJob :: d) (PreState.exec .clearJob s) := by
  have hfail : ∃ op ∈ PreOp.clearJob :: d, op.isFail = true := ⟨_, List.mem_cons_self, rfl⟩
  cases h with
  | waiting _ _ _ hstep hreached => exact .cleared hfail rfl hstep hreached
  | completed hcount hstep hreached =>
    exact .completed ((congrArg Int.ofNat (List.countP_cons_of_neg Bool.false_ne_true)).trans hcount)
      (hstep.imp_right fun h => ⟨h.1, hfail⟩) hreached
  | cleared _ _ hstep hreached => exact .cleared hfail rfl hstep hreached

/-- **One operation takes the job from phase to phase.** -/
theorem Phase.step (h : Phase target flatfield d s)
    (hle : ((op :: d).countP PreOp.isStepJob : ℤ) ≤ target) :
    Phase target flatfield (op :: d) (PreState.exec op s) := by
  cases op with
  | moveToErr => exact h.moveToErr
  | clearJob => exact h.clearJob
  | clear w => exact h.quiet rfl rfl rfl
  | step w image => exact h.quiet rfl rfl rfl
  | stepJob image =>
    have hcons : ((PreOp.stepJob image :: d).countP PreOp.isStepJob : ℤ) = d.countP PreOp.isStepJob + 1 := by
      rw [List.countP_cons_of_pos rfl, Int.natCast_succ]
    cases h with
    | waiting hcount hwatch hflat hstep hreached =>
      obtain ⟨completed, hwatch⟩ := hwatch
      by_cases heq : (d.countP PreOp.isStepJob : ℤ) + 1 = target
      · have hne : (0 : ℤ) ≠ target := by omega
        have hw : s.job.progWatch.step =
            (⟨0, 0, target, true, none⟩, some Handler.unloadCalib) := by
          rw [hwatch, ProgressWatch.step_of_eq _ hne heq]
        refine .completed (hcons.trans heq) (.inl ?_) ?_
        · have htick : s.job.tick = { s.job with progWatch := ⟨0, 0, target, true, none⟩ }.unloadCalib := by
            rw [Job.tick, hw]
            rfl
          change s.job.tick.step = _
          rw [htick, unloadCalib_step, hflat]
        · change (if s.job.progWatch.step.1.completed then s.reached + 1 else s.reached) = 1
          rw [hw, hreached]
          rfl
      · have hw : s.job.progWatch.step = (⟨0, d.countP PreOp.isStepJob + 1, target, false,
            some Handler.unloadCalib⟩, none) := by
          rw [hwatch, ProgressWatch.step_of_ne _ heq]
        have htick : s.job.tick = { s.job with progWatch := ⟨0, d.countP PreOp.isStepJob + 1, target, false,
            some Handler.unloadCalib⟩ } := by
          rw [Job.tick, hw]
        refine .waiting (by omega) ⟨false, ?_⟩ ?_ ?_ ?_
        · change s.job.tick.progWatch = _
          rw [htick, hcons]
        · change s.job.tick.flatfield = _
          rw [htick]; exact hflat
        · change s.job.tick.step = _ ∨ s.job.tick.step = _
          rw [htick]; exact hstep
        · change (if s.job.progWatch.step.1.completed then s.reached + 1 else s.reached) = 0
          rw [hw, hreached]
          rfl
    | completed hcount hstep hreached => omega
    | cleared hfail hwatch hstep hreached =>
      obtain ⟨op, hop, hop'⟩ := hfail
      have hw := ProgressWatch_step_of_start hwatch
      have htick : s.job.tick = { s.job with progWatch :=
          { s.job.progWatch with counter := s.job.progWatch.counter + 1, completed := false } } := by
        rw [Job.tick, hw]
      refine .cleared ⟨op, List.mem_cons_of_mem _ hop, hop'⟩ ?_ ?_ ?_
      · change s.job.tick.progWatch.start = s.job.tick.progWatch.target
        rw [htick]; exact hwatch
      · change s.job.tick.step = _ ∨ s.job.tick.step = _
        rw [htick]; exact hstep
      · change (if s.job.progWatch.step.1.completed then s.reached + 1 else s.reached) = 0
        rw [hw, hreached]
        rfl

/-- **The phase after any operations that do not step the job's watch too often.** -/
theorem Phase.run (h : Phase target flatfield [] s) : ∀ {d : List PreOp},
    (d.countP PreOp.isStepJob : ℤ) ≤ target → Phase target flatfield d (d.foldr PreState.exec s)
  | [], _ => h
  | op :: d, hle => by
    have hd : d.countP PreOp.isStepJob ≤ (op :: d).countP PreOp.isStepJob :=
      (List.sublist_cons_self op d).countP_le
    exact (h.run (d := d) (by omega)).step hle

end Phase

/-! ## The items of a channel -/

namespace Source

variable {x : Source}

/-- The images of a file that are counted. -/
def counted (x : Source) (f : ImageFile) : ℕ := if x.loaded f then f.frames.countP x.steps else 0

/-- The images of the channel that are counted. -/
def stepped (x : Source) : ℕ := (x.ch.files.map x.counted).sum

/-- The channel's images number `i` to `i + n - 1`. -/
def frameIds (x : Source) (i n : ℕ) : List ImageId := (List.range' i n).map (⟨x.object, x.channel, ·⟩)

theorem countP_preprocessImages : ∀ (i : ℕ) (faults : List (Option Stage)),
    (x.preprocessImages i faults).countP PreOp.isStepJob = faults.countP x.steps
  | _, [] => rfl
  | i, fault :: faults => by
    rw [preprocessImages, List.countP_append, countP_preprocessImages, List.countP_cons, preprocessImage,
      Nat.add_comm]
    cases x.steps fault <;> rfl

theorem isFail_preprocessImages : ∀ (i : ℕ) (faults : List (Option Stage)),
    ∀ op ∈ x.preprocessImages i faults, op.isFail = false
  | _, [], op, h => absurd h List.not_mem_nil
  | i, fault :: faults, op, h => by
    rw [preprocessImages, List.mem_append] at h
    rcases h with h | h
    · unfold preprocessImage at h
      split_ifs at h
      · simp only [List.mem_cons, List.not_mem_nil, or_false] at h
        rcases h with rfl | rfl <;> rfl
      · exact absurd h List.not_mem_nil
    · exact isFail_preprocessImages (i + 1) faults op h

/-- A selection that takes the image from each of the two steps of an image finds all images. -/
theorem filterMap_preprocessImages {sel : PreOp → Option ImageId}
    (hsel : ∀ i, ([.stepJob (some ⟨x.object, x.channel, i⟩),
      .step (.object x.object) (some ⟨x.object, x.channel, i⟩)] : List PreOp).filterMap sel =
        [⟨x.object, x.channel, i⟩]) : ∀ (i : ℕ) (faults : List (Option Stage)),
    (∀ fault ∈ faults, x.steps fault) →
      (x.preprocessImages i faults).filterMap sel = x.frameIds i faults.length
  | _, [], _ => rfl
  | i, fault :: faults, h => by
    obtain ⟨hfault, hrest⟩ := List.forall_mem_cons.1 h
    rw [preprocessImages, List.filterMap_append, filterMap_preprocessImages hsel (i + 1) faults hrest,
      preprocessImage, if_pos hfault, hsel]
    rfl

/-- Operations that leave the job alone and count no image. -/
def Quiet (ops : List PreOp) : Prop := ∀ op ∈ ops, ∃ w, op = .step w none

theorem Quiet.countP {ops : List PreOp} (h : Quiet ops) : ops.countP PreOp.isStepJob = 0 := by
  rw [List.countP_eq_zero]
  intro op hop
  obtain ⟨w, rfl⟩ := h op hop
  exact Bool.false_ne_true

theorem Quiet.isFail {ops : List PreOp} (h : Quiet ops) : ∀ op ∈ ops, op.isFail = false := by
  intro op hop
  obtain ⟨w, rfl⟩ := h op hop
  rfl

theorem Quiet.filterMap {ops : List PreOp} (h : Quiet ops) {sel : PreOp → Option ImageId}
    (hsel : ∀ w, sel (.step w none) = none) : ops.filterMap sel = [] := by
  rw [List.filterMap_eq_nil_iff]
  intro op hop
  obtain ⟨w, rfl⟩ := h op hop
  exact hsel w

theorem quiet_adjustCutouts (x : Source) : Quiet (x.ch.cutouts.map x.adjustCutout).flatten := by
  intro op hop
  obtain ⟨item, hitem, hop⟩ := List.mem_flatten.1 hop
  obtain ⟨goes, -, rfl⟩ := List.mem_map.1 hitem
  unfold adjustCutout at hop
  split_ifs at hop
  · exact ⟨_, List.mem_singleton.1 hop⟩
  · exact absurd hop List.not_mem_nil

/-- A file whose item does not fail: its images, and steps of other watches. -/
theorem loadFile_of_loaded {i : ℕ} {f : ImageFile} (hloaded : x.loaded f) (hsaved : x.saveFFData → f.saves) :
    ∃ tail, x.loadFile i f = x.preprocessImages i f.frames ++ tail ∧ Quiet tail := by
  rw [loadFile, if_pos hloaded]
  by_cases hsave : x.saveFFData
  · rw [if_pos hsave, if_pos (hsaved hsave)]
    refine ⟨_, rfl, ?_⟩
    intro op hop
    simp only [List.mem_cons, List.not_mem_nil, or_false] at hop
    rcases hop with rfl | rfl
    · exact ⟨_, rfl⟩
    · exact ⟨_, rfl⟩
  · rw [if_neg hsave]
    exact ⟨_, rfl, fun op hop => ⟨_, List.mem_singleton.1 hop⟩⟩

/-- A file whose item fails. -/
theorem fail_mem_loadFile {i : ℕ} {f : ImageFile} (h : ¬ (x.loaded f ∧ (x.saveFFData → f.saves))) :
    ∃ op ∈ x.loadFile i f, op.isFail = true := by
  refine ⟨.moveToErr, ?_, rfl⟩
  rw [loadFile]
  by_cases hloaded : x.loaded f
  · have hsave : x.saveFFData ∧ ¬ f.saves := Classical.not_imp.1 fun h' => h ⟨hloaded, h'⟩
    rw [if_pos hloaded, if_pos hsave.1, if_neg hsave.2]
    exact List.mem_append_right _ List.mem_cons_self
  · rw [if_neg hloaded]
    exact List.mem_cons_self

/-- An item with an operation of a file that failed ends with all of them. -/
theorem ends_of_fail {item : List PreOp} (hitem : item ∈ x.items) {op : PreOp} (hop : op ∈ item)
    (hfail : op.isFail = true) : ∃ front, item = front ++ x.failed := by
  have hnot : ∀ {ops : List PreOp}, (∀ op ∈ ops, op.isFail = false) → op ∉ ops := fun hops hmem =>
    Bool.false_ne_true ((hops op hmem).symm.trans hfail)
  have hfiles : ∀ (n : ℕ) (files : List ImageFile), item ∈ x.loadFiles n files → ∃ i f, item = x.loadFile i f := by
    intro n files
    induction files generalizing n with
    | nil => exact fun h => absurd h List.not_mem_nil
    | cons f fs ih =>
      intro h
      rcases List.mem_cons.1 h with rfl | h
      · exact ⟨n, f, rfl⟩
      · exact ih _ h
  rcases List.mem_append.1 hitem with hmem | hmem
  · exact absurd (List.mem_flatten.2 ⟨item, hmem, hop⟩) (hnot (quiet_adjustCutouts x).isFail)
  · obtain ⟨i, f, rfl⟩ := hfiles 0 x.ch.files hmem
    by_cases hfile : x.loaded f ∧ (x.saveFFData → f.saves)
    · obtain ⟨tail, heq, htail⟩ := loadFile_of_loaded (i := i) hfile.1 hfile.2
      rw [heq] at hop
      rcases List.mem_append.1 hop with hop | hop
      · exact absurd hop (hnot (isFail_preprocessImages i f.frames))
      · exact absurd hop (hnot htail.isFail)
    · rw [loadFile]
      by_cases hloaded : x.loaded f
      · have hsave : x.saveFFData ∧ ¬ f.saves := Classical.not_imp.1 fun h' => hfile ⟨hloaded, h'⟩
        rw [if_pos hloaded, if_pos hsave.1, if_neg hsave.2]
        exact ⟨_, rfl⟩
      · rw [if_neg hloaded]
        exact ⟨[], rfl⟩

theorem countP_loadFile (i : ℕ) (f : ImageFile) :
    (x.loadFile i f).countP PreOp.isStepJob = x.counted f := by
  unfold loadFile counted
  split_ifs
  all_goals
    try rw [List.countP_append, countP_preprocessImages]
    simp [PreOp.isStepJob, failed]

theorem countP_loadFiles : ∀ (n : ℕ) (files : List ImageFile),
    (x.loadFiles n files).flatten.countP PreOp.isStepJob = (files.map x.counted).sum
  | _, [] => rfl
  | n, f :: fs => by
    rw [loadFiles, List.flatten_cons, List.countP_append, List.map_cons, List.sum_cons, countP_loadFile,
      countP_loadFiles _ fs]

theorem fail_mem_loadFiles {f : ImageFile} : ∀ {n : ℕ} {files : List ImageFile}, f ∈ files →
    ¬ (x.loaded f ∧ (x.saveFFData → f.saves)) → ∃ op ∈ (x.loadFiles n files).flatten, op.isFail = true
  | _, [], h, _ => absurd h List.not_mem_nil
  | n, g :: gs, h, hf => by
    rw [loadFiles, List.flatten_cons]
    rcases List.mem_cons.1 h with rfl | h
    · obtain ⟨op, hop, hfail⟩ := fail_mem_loadFile (i := n) hf
      exact ⟨op, List.mem_append_left _ hop, hfail⟩
    · obtain ⟨op, hop, hfail⟩ := fail_mem_loadFiles (n := n + g.frames.length) h hf
      exact ⟨op, List.mem_append_right _ hop, hfail⟩

/-- The items step the job's watch for the images that are counted. -/
theorem countP_items : x.items.flatten.countP PreOp.isStepJob = x.stepped := by
  rw [items, List.flatten_append, List.countP_append, (quiet_adjustCutouts x).countP, Nat.zero_add]
  exact countP_loadFiles 0 x.ch.files

theorem counted_le (f : ImageFile) : x.counted f ≤ f.frames.length := by
  unfold counted
  split_ifs
  · exact List.countP_le_length
  · exact Nat.zero_le _

theorem stepped_le : x.stepped ≤ x.ch.nImages := List.sum_le_sum fun _ _ => counted_le _

/-- **If all images are counted, none returns early, and those of a file that was not loaded are none.** -/
theorem counted_of_stepped (h : x.stepped = x.ch.nImages) : x.Counted := by
  have hall : ∀ f ∈ x.ch.files, x.counted f = f.frames.length := by
    intro f hf
    by_contra hne
    exact absurd h (ne_of_lt (List.sum_lt_sum _ _ (fun _ _ => counted_le _)
      ⟨f, hf, lt_of_le_of_ne (counted_le f) hne⟩))
  refine ⟨fun f hf hframes => ?_, fun f hf => ?_⟩
  · by_contra hnot
    have hzero := hall f hf
    rw [counted, if_neg hnot] at hzero
    exact hframes (List.eq_nil_of_length_eq_zero hzero.symm)
  · have hf' := hall f hf
    unfold counted at hf'
    split_ifs at hf'
    · exact List.countP_eq_length.1 hf'
    · rw [List.eq_nil_of_length_eq_zero hf'.symm]
      exact fun _ h => absurd h List.not_mem_nil

/-- **If no item fails besides, nothing is amiss.** -/
theorem Counted.fine (h : x.Counted) (hfail : ∀ op ∈ x.items.flatten, op.isFail = false) : x.Fine := by
  have hfiles : ∀ f ∈ x.ch.files, x.loaded f ∧ (x.saveFFData → f.saves) := by
    intro f hf
    by_contra hne
    obtain ⟨op, hop, hop'⟩ := fail_mem_loadFiles (n := 0) hf hne
    have hmem : op ∈ x.items.flatten := by
      rw [items, List.flatten_append]
      exact List.mem_append_right _ hop
    exact Bool.false_ne_true ((hfail op hmem).symm.trans hop')
  exact ⟨fun f hf => (hfiles f hf).1, fun f hf => (hfiles f hf).2, h.steps⟩

/-- The files of a channel with nothing amiss. -/
theorem loadFiles_of_fine {sel : PreOp → Option ImageId}
    (hsel : ∀ i, ([.stepJob (some ⟨x.object, x.channel, i⟩),
      .step (.object x.object) (some ⟨x.object, x.channel, i⟩)] : List PreOp).filterMap sel =
        [⟨x.object, x.channel, i⟩]) (hquiet : ∀ w, sel (.step w none) = none) :
    ∀ (n : ℕ) (files : List ImageFile), (∀ f ∈ files, (x.loaded f ∧ (x.saveFFData → f.saves)) ∧
      ∀ fault ∈ f.frames, x.steps fault) →
        (∀ op ∈ (x.loadFiles n files).flatten, op.isFail = false) ∧
        (x.loadFiles n files).flatten.countP PreOp.isStepJob = (files.map fun f => f.frames.length).sum ∧
        (x.loadFiles n files).flatten.filterMap sel = x.frameIds n (files.map fun f => f.frames.length).sum
  | _, [], _ => ⟨fun op h => absurd h List.not_mem_nil, rfl, rfl⟩
  | n, f :: fs, h => by
    obtain ⟨⟨hfile, hsteps⟩, hrest⟩ := List.forall_mem_cons.1 h
    obtain ⟨tail, heq, htail⟩ := loadFile_of_loaded (i := n) hfile.1 hfile.2
    obtain ⟨hfail, hcount, hids⟩ := loadFiles_of_fine hsel hquiet (n + f.frames.length) fs hrest
    rw [loadFiles, List.flatten_cons, heq, List.map_cons, List.sum_cons]
    refine ⟨?_, ?_, ?_⟩
    · intro op hop
      rcases List.mem_append.1 hop with hop | hop
      · rcases List.mem_append.1 hop with hop | hop
        · exact isFail_preprocessImages n f.frames op hop
        · exact htail.isFail op hop
      · exact hfail op hop
    · rw [List.countP_append, List.countP_append, countP_preprocessImages, htail.countP, hcount,
        List.countP_eq_length.2 hsteps, Nat.add_zero]
    · rw [List.filterMap_append, List.filterMap_append, filterMap_preprocessImages hsel n f.frames hsteps,
        htail.filterMap hquiet, hids, List.append_nil]
      simp only [frameIds, ← List.map_append, List.range'_append_1]

/-- **The items of a channel with nothing amiss count each of its images once, and none fails.** -/
theorem Fine.items (h : x.Fine) {sel : PreOp → Option ImageId}
    (hsel : ∀ i, ([.stepJob (some ⟨x.object, x.channel, i⟩),
      .step (.object x.object) (some ⟨x.object, x.channel, i⟩)] : List PreOp).filterMap sel =
        [⟨x.object, x.channel, i⟩]) (hquiet : ∀ w, sel (.step w none) = none) :
    (∀ op ∈ x.items.flatten, op.isFail = false) ∧
      x.items.flatten.countP PreOp.isStepJob = x.ch.nImages ∧
      x.items.flatten.filterMap sel = x.frameIds 0 x.ch.nImages := by
  obtain ⟨hfail, hcount, hids⟩ := loadFiles_of_fine hsel hquiet 0 x.ch.files
    fun f hf => ⟨⟨h.loaded f hf, h.saved f hf⟩, h.steps f hf⟩
  rw [Source.items, List.flatten_append]
  refine ⟨?_, ?_, ?_⟩
  · intro op hop
    rcases List.mem_append.1 hop with hop | hop
    · exact (quiet_adjustCutouts x).isFail op hop
    · exact hfail op hop
  · rw [List.countP_append, (quiet_adjustCutouts x).countP, hcount, Nat.zero_add]
    rfl
  · rw [List.filterMap_append, (quiet_adjustCutouts x).filterMap hquiet, hids, List.nil_append]
    rfl

end Source

/-! ## What is posted -/

/-- The job is as it was, and nothing has been done. -/
structure SameJob (p q : PrePool) : Prop where
  job : q.state.job = p.state.job
  reached : q.state.reached = p.state.reached
  done : q.done = p.done

theorem SameJob.trans {p q r : PrePool} (h : SameJob p q) (h' : SameJob q r) : SameJob p r :=
  ⟨h'.job.trans h.job, h'.reached.trans h.reached, h'.done.trans h.done⟩

/-- The items of the channels `xs` are posted, up to the first one that throws. -/
inductive Posts (xs : List Source) (p : PrePool) : Except PrePool PrePool → Prop
  | all {q : PrePool} (same : SameJob p q) (hopens : ∀ x ∈ xs, x.opens)
      (hpending : q.pending = p.pending ++ xs.flatMap Source.items) : Posts xs p (.ok q)
  | upto {q : PrePool} (same : SameJob p q) (hstop : ¬ ∀ x ∈ xs, x.opens)
      (hpending : q.pending = p.pending ++ (xs.takeWhile Source.opens).flatMap Source.items) :
      Posts xs p (.error q)

theorem Posts.of_same {xs : List Source} {p q : PrePool} {r : Except PrePool PrePool}
    (hsame : SameJob p q) (hpending : q.pending = p.pending) (h : Posts xs q r) : Posts xs p r := by
  cases h with
  | all same hopens hpending' => exact .all (hsame.trans same) hopens (hpending ▸ hpending')
  | upto same hstop hpending' => exact .upto (hsame.trans same) hstop (hpending ▸ hpending')

theorem Posts.append {xs ys : List Source} {p : PrePool} {r : Except PrePool PrePool}
    {f : PrePool → Except PrePool PrePool} (h : Posts xs p r) (hf : ∀ q, Posts ys q (f q)) :
    Posts (xs ++ ys) p (r >>= f) := by
  cases h with
  | @all q same hopens hpending =>
    have hq : (Except.ok q : Except PrePool PrePool) >>= f = f q := rfl
    rw [hq]
    have hys := hf q
    cases hfq : f q with
    | ok t =>
      rw [hfq] at hys
      cases hys with
      | all same' hopens' hpending' =>
        refine .all (same.trans same') (List.forall_mem_append.2 ⟨hopens, hopens'⟩) ?_
        rw [hpending', hpending, List.flatMap_append, List.append_assoc]
    | error t =>
      rw [hfq] at hys
      cases hys with
      | upto same' hstop' hpending' =>
        refine .upto (same.trans same') (fun h => hstop' (List.forall_mem_append.1 h).2) ?_
        rw [hpending', hpending, List.takeWhile_append_of_pos hopens, List.flatMap_append, List.append_assoc]
  | @upto q same hstop hpending =>
    refine .upto same (fun h => hstop (List.forall_mem_append.1 h).1) ?_
    have hne : (xs.takeWhile Source.opens).length ≠ xs.length := by
      intro hlen
      have htake : xs.takeWhile Source.opens = xs :=
        (List.takeWhile_prefix Source.opens).eq_of_length hlen
      exact hstop (List.takeWhile_eq_self_iff.1 htake)
    rw [hpending, List.takeWhile_append, if_neg hne]

theorem posts_loadData (x : Source) (p : PrePool) : Posts [x] p (x.loadData p) := by
  have hstop : x.opens = false → ∀ q, SameJob p q → q.pending = p.pending → Posts [x] p (.error q) := by
    intro hopens q same hpending
    refine .upto same (fun h => Bool.false_ne_true (hopens.symm.trans (h x List.mem_cons_self))) ?_
    rw [hpending, List.takeWhile_cons_of_neg (by rw [hopens]; exact Bool.false_ne_true)]
    exact (List.append_nil _).symm
  have hraised : ∀ q, q = (if x.saveFFData then
      p.onWatch (.object x.object) (·.increaseTarget x.ch.files.length) else p) →
        SameJob p q ∧ q.pending = p.pending := by
    rintro q rfl
    split_ifs
    · exact ⟨⟨rfl, rfl, rfl⟩, rfl⟩
    · exact ⟨⟨rfl, rfl, rfl⟩, rfl⟩
  rw [Source.loadData]
  by_cases hn : x.ch.nImages = 0
  · rw [if_pos hn]
    exact hstop (by simp [Source.opens, hn]) p ⟨rfl, rfl, rfl⟩ rfl
  rw [if_neg hn]
  by_cases hstored : x.ch.stored
  · rw [if_neg (not_not.2 hstored)]
    obtain ⟨same, hpending⟩ := hraised _ rfl
    by_cases hcal : x.ch.calibrated
    · rw [if_neg (not_not.2 hcal)]
      refine .all ⟨same.job, same.reached, same.done⟩ ?_ ?_
      · intro y hy
        rw [List.mem_singleton.1 hy]
        simp [Source.opens, hn, hstored, hcal]
      · change _ ++ x.items = _
        rw [List.flatMap_singleton]
        exact congrArg (· ++ x.items) hpending
    · rw [if_pos hcal]
      exact hstop (by simp [Source.opens, hcal]) _ same hpending
  · rw [if_pos hstored]
    exact hstop (by simp [Source.opens, hstored]) p ⟨rfl, rfl, rfl⟩ rfl

theorem posts_loadChannels : ∀ (xs : List Source) (p : PrePool), Posts xs p (loadChannels xs p)
  | [], _ => .all ⟨rfl, rfl, rfl⟩ (fun _ h => absurd h List.not_mem_nil) (List.append_nil _).symm
  | x :: xs, _ => (posts_loadData x _).append (posts_loadChannels xs)

theorem posts_loadObjects (flatfield : Bool) : ∀ (o : ℕ) (objs : List Object) (p : PrePool),
    Posts (sources flatfield o objs) p (loadObjects flatfield o objs p)
  | _, [], _ => .all ⟨rfl, rfl, rfl⟩ (fun _ h => absurd h List.not_mem_nil) (List.append_nil _).symm
  | o, obj :: objs, _ => by
    refine Posts.append ?_ (posts_loadObjects flatfield (o + 1) objs)
    rw [Object.loadData]
    refine Posts.of_same ?_ ?_ (posts_loadChannels _ _)
    · exact ⟨rfl, rfl, rfl⟩
    · rfl

/-- What there is when the objects' data are asked for, an exception or not. -/
theorem Posts.settle {xs : List Source} {p : PrePool} {r : Except PrePool PrePool} (h : Posts xs p r) :
    SameJob p (settle r) ∧
      (settle r).pending = p.pending ++ (xs.takeWhile Source.opens).flatMap Source.items := by
  cases h with
  | all same hopens hpending =>
    exact ⟨same, (List.takeWhile_eq_self_iff.2 hopens).symm ▸ hpending⟩
  | upto same hstop hpending => exact ⟨same, hpending⟩

/-! ## Images and sizes -/

theorem nImages_getImageSize (ch : Channel) : ch.getImageSize.nImages = ch.nImages := by
  unfold Channel.getImageSize
  split_ifs <;> rfl

theorem imagesFrom_getImageSize (o : ℕ) : ∀ (c : ℕ) (chs : List Channel),
    imagesFrom o c (chs.map Channel.getImageSize) = imagesFrom o c chs
  | _, [] => rfl
  | c, ch :: chs => by
    rw [List.map_cons, imagesFrom, imagesFrom, nImages_getImageSize, imagesFrom_getImageSize o (c + 1) chs]

/-- The image sizes do not change which images there are. -/
theorem images_getImageSizes : ∀ {objs objs' : List Object} {size : Size} (o : ℕ),
    getImageSizes size objs = some objs' → images o objs' = images o objs
  | [], objs', _, o, h => by
    rw [getImageSizes, Option.some_inj] at h
    rw [← h]
  | obj :: objs, objs', size, o, h => by
    have hobj : ∀ obj', obj.getImageSize = some obj' → imagesFrom o 0 obj'.channels = imagesFrom o 0 obj.channels := by
      intro obj' hobj
      unfold Object.getImageSize at hobj
      split_ifs at hobj
      · obtain ⟨s, -, rfl⟩ := Option.map_eq_some_iff.1 hobj
        exact imagesFrom_getImageSize o 0 obj.channels
      · rw [← Option.some_inj.1 hobj]
    have hcons : ∀ {obj' size'}, obj.getImageSize = some obj' →
        (getImageSizes size' objs).map (obj' :: ·) = some objs' → images o objs' = images o (obj :: objs) := by
      intro obj' size' hsize hmap
      obtain ⟨rest, hrest, rfl⟩ := Option.map_eq_some_iff.1 hmap
      rw [images, images, hobj obj' hsize, images_getImageSizes (o + 1) hrest]
    rw [getImageSizes] at h
    split at h
    · exact absurd h.symm (Option.some_ne_none _)
    · next obj' hsize =>
      split_ifs at h
      · exact hcons hsize h
      · exact hcons hsize h

theorem imagesFrom_eq (o : ℕ) (s : Bool) : ∀ (c : ℕ) (chs : List Channel),
    imagesFrom o c chs = (sourcesFrom o s c chs).flatMap fun x => x.frameIds 0 x.ch.nImages
  | _, [] => rfl
  | c, ch :: chs => by
    rw [imagesFrom, sourcesFrom, List.flatMap_cons, imagesFrom_eq o s (c + 1) chs, Source.frameIds,
      List.range_eq_range']

/-- The images are the images of the channels. -/
theorem images_eq (flatfield : Bool) : ∀ (o : ℕ) (objs : List Object),
    images o objs = (sources flatfield o objs).flatMap fun x => x.frameIds 0 x.ch.nImages
  | _, [] => rfl
  | o, obj :: objs => by
    rw [images, sources, List.flatMap_append, imagesFrom_eq o (obj.saveFFData || flatfield) 0,
      images_eq flatfield (o + 1) objs]

theorem sum_nImages_sourcesFrom (o : ℕ) (s : Bool) : ∀ (c : ℕ) (chs : List Channel),
    ((sourcesFrom o s c chs).map fun x => x.ch.nImages).sum = (chs.map Channel.nImages).sum
  | _, [] => rfl
  | c, ch :: chs => by
    rw [sourcesFrom, List.map_cons, List.sum_cons, sum_nImages_sourcesFrom o s (c + 1) chs, List.map_cons,
      List.sum_cons]

/-- The number that `preProcess` announces. -/
theorem sum_nImages (flatfield : Bool) : ∀ (o : ℕ) (objs : List Object),
    ((sources flatfield o objs).map fun x => x.ch.nImages).sum = (objs.map Object.nImages).sum
  | _, [] => rfl
  | o, obj :: objs => by
    rw [sources, List.map_append, List.sum_append, sum_nImages_sourcesFrom, sum_nImages flatfield (o + 1) objs,
      List.map_cons, List.sum_cons, Object.nImages]

/-! ## How it ends -/

section End

variable {flatfield cached : Bool} {objects objs : List Object} {watches : Owner → ProgressWatch Unit} {j : Job}

/-- The operations of the items that are posted. -/
def postedOps (flatfield cached : Bool) (objs : List Object) : List PreOp :=
  (if flatfield then [] else initCache cached) ++
    ((sources flatfield 0 objs).takeWhile Source.opens).flatMap fun x => x.items.flatten

/-- The items that are posted. -/
def postedItems (flatfield cached : Bool) (objs : List Object) : List (List PreOp) :=
  (if flatfield then [] else [initCache cached]) ++
    ((sources flatfield 0 objs).takeWhile Source.opens).flatMap Source.items

theorem flatten_postedItems : (postedItems flatfield cached objs).flatten = postedOps flatfield cached objs := by
  have hflatten : ∀ xs : List Source,
      (xs.flatMap Source.items).flatten = xs.flatMap fun x => x.items.flatten := by
    intro xs
    induction xs with
    | nil => rfl
    | cons x xs ih => rw [List.flatMap_cons, List.flatten_append, ih, List.flatMap_cons]
  rw [postedItems, postedOps, List.flatten_append, hflatten]
  cases flatfield
  · exact congrArg (· ++ _) (List.append_nil _)
  · rfl

/-- What is announced as the target. -/
def announced (flatfield : Bool) (objs : List Object) : ℕ :=
  (objs.map Object.nImages).sum + if flatfield then 0 else 1

/-- The job and the items when `run` is back. -/
theorem runPreprocess_spec (h : getImageSizes (0, 0) objects = some objs) :
    (runPreprocess objects cached watches j).pending = postedItems j.flatfield cached objs ∧
      (runPreprocess objects cached watches j).done = [] ∧
      (runPreprocess objects cached watches j).state.reached = 0 ∧
      ∃ completed, (runPreprocess objects cached watches j).state.job =
        { j with progWatch := ⟨0, 0, announced j.flatfield objs, completed, some .unloadCalib⟩ } := by
  rw [runPreprocess, preProcess, h]
  dsimp only
  obtain ⟨same, hpending⟩ := (posts_loadObjects j.flatfield 0 objs (if j.flatfield then
    (PrePool.announce ⟨⟨{ j with progWatch := j.progWatch.set 0 0 }, 0, watches⟩, [], []⟩
      (((j.progWatch.set 0 0).setTarget (objs.map Object.nImages).sum).setHandler .unloadCalib))
    else ((PrePool.announce ⟨⟨{ j with progWatch := j.progWatch.set 0 0 }, 0, watches⟩, [], []⟩
      ((((j.progWatch.set 0 0).setTarget (objs.map Object.nImages).sum).setHandler
        .unloadCalib).increaseTarget 1)).post [initCache cached]))).settle
  refine ⟨?_, ?_, ?_, ?_⟩
  · rw [hpending, postedItems]
    split_ifs <;> rfl
  · rw [same.done]
    split_ifs <;> rfl
  · rw [same.reached]
    split_ifs <;> rfl
  · rw [same.job, announced]
    split_ifs with hff
    · exact ⟨_, rfl⟩
    · exact ⟨_, rfl⟩

theorem runPreprocess_of_none (h : getImageSizes (0, 0) objects = none) :
    (runPreprocess objects cached watches j).pending = [] ∧
      (runPreprocess objects cached watches j).done = [] ∧
      (runPreprocess objects cached watches j).state.reached = 0 ∧
      (runPreprocess objects cached watches j).state.job.step = j.step := by
  rw [runPreprocess, preProcess, h]
  exact ⟨rfl, rfl, rfl, rfl⟩

theorem countP_initCache : (if flatfield then [] else initCache cached).countP PreOp.isStepJob =
    if flatfield = false ∧ cached = true then 1 else 0 := by
  cases flatfield <;> cases cached <;> rfl

theorem countP_flatMap_items : ∀ xs : List Source,
    (xs.flatMap fun x => x.items.flatten).countP PreOp.isStepJob =
      (xs.map fun x => x.items.flatten.countP PreOp.isStepJob).sum
  | [] => rfl
  | x :: xs => by
    rw [List.flatMap_cons, List.countP_append, countP_flatMap_items xs, List.map_cons, List.sum_cons]

theorem countP_items_le (x : Source) : x.items.flatten.countP PreOp.isStepJob ≤ x.ch.nImages :=
  Source.countP_items.trans_le Source.stepped_le

/-- What is announced, by the channels that are posted and the others. -/
theorem announced_eq (flatfield : Bool) (objs : List Object) : announced flatfield objs =
    (((sources flatfield 0 objs).takeWhile Source.opens).map fun x => x.ch.nImages).sum +
      (((sources flatfield 0 objs).dropWhile Source.opens).map fun x => x.ch.nImages).sum +
      if flatfield then 0 else 1 := by
  rw [announced, ← sum_nImages flatfield 0 objs, ← List.sum_append, ← List.map_append,
    List.takeWhile_append_dropWhile]

/-- The job's watch is never stepped more often than announced. -/
theorem countP_postedOps_le : (postedOps flatfield cached objs).countP PreOp.isStepJob ≤ announced flatfield objs := by
  rw [postedOps, List.countP_append, countP_initCache, countP_flatMap_items, announced_eq]
  have hle : (((sources flatfield 0 objs).takeWhile Source.opens).map fun x =>
      x.items.flatten.countP PreOp.isStepJob).sum ≤
        (((sources flatfield 0 objs).takeWhile Source.opens).map fun x => x.ch.nImages).sum :=
    List.sum_le_sum fun x _ => countP_items_le x
  cases flatfield <;> cases cached <;> simp only [reduceCtorEq, false_and, and_self, and_false, if_true, if_false,
    Bool.false_eq_true] <;> omega

/-- **If the watch is stepped as often as announced, all images are counted.** -/
theorem counted_of_postedOps
    (hcount : (postedOps flatfield cached objs).countP PreOp.isStepJob = announced flatfield objs) :
    (flatfield = false → cached) ∧
      (∀ x ∈ (sources flatfield 0 objs).dropWhile Source.opens, x.ch.nImages = 0) ∧
      ∀ x ∈ (sources flatfield 0 objs).takeWhile Source.opens, x.Counted := by
  rw [postedOps, List.countP_append, countP_initCache, countP_flatMap_items, announced_eq] at hcount
  have hle : (((sources flatfield 0 objs).takeWhile Source.opens).map fun x =>
      x.items.flatten.countP PreOp.isStepJob).sum ≤
        (((sources flatfield 0 objs).takeWhile Source.opens).map fun x => x.ch.nImages).sum :=
    List.sum_le_sum fun x _ => countP_items_le x
  have hcache : (if flatfield = false ∧ cached = true then 1 else 0) ≤ if flatfield then 0 else 1 := by
    cases flatfield <;> cases cached <;> decide
  refine ⟨?_, ?_, ?_⟩
  · rintro rfl
    by_contra hnot
    rw [if_neg (fun h => hnot h.2), if_neg Bool.false_ne_true] at hcount
    omega
  · intro x hx
    have hsum : (((sources flatfield 0 objs).dropWhile Source.opens).map fun x => x.ch.nImages).sum = 0 := by
      omega
    exact List.sum_eq_zero_iff.1 hsum _ (List.mem_map_of_mem hx)
  · intro x hx
    refine Source.counted_of_stepped (Source.countP_items.symm.trans ?_)
    by_contra hne
    have hlt := List.sum_lt_sum _ _ (fun y (_ : y ∈ (sources flatfield 0 objs).takeWhile Source.opens) =>
      countP_items_le y) ⟨x, hx, lt_of_le_of_ne (countP_items_le x) hne⟩
    omega

/-- The channels that are posted, with nothing amiss. -/
theorem items_of_fine {sel : PreOp → Option ImageId} (hjob : ∀ o (i : ImageId), i.object = o →
    ([.stepJob (some i), .step (.object o) (some i)] : List PreOp).filterMap sel = [i])
    (hquiet : ∀ w, sel (.step w none) = none) : ∀ {xs : List Source}, (∀ x ∈ xs, x.Fine) →
      (∀ op ∈ xs.flatMap fun x => x.items.flatten, op.isFail = false) ∧
      (xs.flatMap fun x => x.items.flatten).countP PreOp.isStepJob = (xs.map fun x => x.ch.nImages).sum ∧
      (xs.flatMap fun x => x.items.flatten).filterMap sel =
        xs.flatMap fun x => x.frameIds 0 x.ch.nImages
  | [], _ => ⟨fun _ h => absurd h List.not_mem_nil, rfl, rfl⟩
  | x :: xs, h => by
    obtain ⟨hx, hxs⟩ := List.forall_mem_cons.1 h
    obtain ⟨hfail, hcount, hids⟩ := hx.items (fun i => hjob x.object ⟨x.object, x.channel, i⟩ rfl) hquiet
    obtain ⟨hfail', hcount', hids'⟩ := items_of_fine hjob hquiet hxs
    rw [List.flatMap_cons, List.flatMap_cons, List.map_cons, List.sum_cons]
    refine ⟨List.forall_mem_append.2 ⟨hfail, hfail'⟩, ?_, ?_⟩
    · rw [List.countP_append, hcount, hcount']
    · rw [List.filterMap_append, hids, hids']

theorem flatMap_frameIds_of_zero {xs : List Source} (h : ∀ x ∈ xs, x.ch.nImages = 0) :
    (xs.flatMap fun x => x.frameIds 0 x.ch.nImages) = [] := by
  rw [List.flatMap_eq_nil_iff]
  intro x hx
  rw [h x hx]
  rfl

/-- **With nothing amiss no item fails, the job's watch is stepped as often as announced, and each image is
counted once.** -/
theorem postedOps_of_fine (sel : PreOp → Option ImageId) (hjob : ∀ o (i : ImageId), i.object = o →
    ([.stepJob (some i), .step (.object o) (some i)] : List PreOp).filterMap sel = [i])
    (hquiet : ∀ w, sel (.step w none) = none) (hcache : sel (.stepJob none) = none)
    (hcached : flatfield = false → cached)
    (hrest : ∀ x ∈ (sources flatfield 0 objs).dropWhile Source.opens, x.ch.nImages = 0)
    (hfine : ∀ x ∈ (sources flatfield 0 objs).takeWhile Source.opens, x.Fine) :
    (∀ op ∈ postedOps flatfield cached objs, op.isFail = false) ∧
      (postedOps flatfield cached objs).countP PreOp.isStepJob = announced flatfield objs ∧
      (postedOps flatfield cached objs).filterMap sel = images 0 objs := by
  obtain ⟨hfail, hcount, hids⟩ := items_of_fine hjob hquiet hfine
  have hzero : (((sources flatfield 0 objs).dropWhile Source.opens).map fun x => x.ch.nImages).sum = 0 :=
    List.sum_eq_zero fun n hn => by
      obtain ⟨x, hx, rfl⟩ := List.mem_map.1 hn
      exact hrest x hx
  have hcacheOps : (if flatfield then [] else initCache cached) =
      if flatfield then [] else [PreOp.stepJob none] := by
    cases flatfield
    · rw [if_neg Bool.false_ne_true, if_neg Bool.false_ne_true, initCache, if_pos (hcached rfl)]
    · rfl
  have hall : images 0 objs = ((sources flatfield 0 objs).takeWhile Source.opens).flatMap
      fun x => x.frameIds 0 x.ch.nImages := by
    rw [images_eq flatfield, ← List.takeWhile_append_dropWhile (p := Source.opens) (l := sources flatfield 0 objs),
      List.flatMap_append, flatMap_frameIds_of_zero hrest, List.append_nil,
      List.takeWhile_append_dropWhile]
  rw [postedOps, hcacheOps]
  refine ⟨List.forall_mem_append.2 ⟨?_, hfail⟩, ?_, ?_⟩
  · intro op hop
    split_ifs at hop
    · exact absurd hop List.not_mem_nil
    · rw [List.mem_singleton.1 hop]
      rfl
  · rw [List.countP_append, hcount, announced_eq, hzero]
    cases flatfield
    · exact Nat.add_comm 1 _
    · exact Nat.zero_add _
  · rw [List.filterMap_append, hids, hall]
    cases flatfield
    · rw [if_neg Bool.false_ne_true, List.filterMap_cons_none hcache]
      rfl
    · rfl

theorem length_imagesFrom (o : ℕ) : ∀ (c : ℕ) (chs : List Channel),
    (imagesFrom o c chs).length = (chs.map Channel.nImages).sum
  | _, [] => rfl
  | c, ch :: chs => by
    rw [imagesFrom, List.length_append, List.length_map, List.length_range, length_imagesFrom o (c + 1) chs,
      List.map_cons, List.sum_cons]

theorem length_images : ∀ (o : ℕ) (objs : List Object),
    (images o objs).length = (objs.map Object.nImages).sum
  | _, [] => rfl
  | o, obj :: objs => by
    rw [images, List.length_append, length_imagesFrom, length_images (o + 1) objs, List.map_cons, List.sum_cons,
      Object.nImages]

/-- With nothing announced nothing is posted. -/
theorem postedOps_of_announced (h : announced flatfield objs = 0) : postedOps flatfield cached objs = [] := by
  have hff : flatfield = true := by
    by_contra hne
    rw [announced, if_neg hne] at h
    omega
  have hnone : (sources flatfield 0 objs).takeWhile Source.opens = [] := by
    rw [List.eq_nil_iff_forall_not_mem]
    intro x hx
    have hzero : (((sources flatfield 0 objs).takeWhile Source.opens).map fun x => x.ch.nImages).sum = 0 := by
      rw [announced_eq] at h
      omega
    have hn : x.ch.nImages = 0 := List.sum_eq_zero_iff.1 hzero _ (List.mem_map_of_mem hx)
    have hopens : x.opens = true := List.mem_takeWhile_imp hx
    simp [Source.opens, hn] at hopens
  rw [postedOps, hnone, if_pos hff]
  rfl

variable {is : List ℕ} {p : PrePool}

/-- The step after the pre-processing. -/
theorem nextStep_ne (flatfield : Bool) : (if flatfield then JStep.completed else JStep.queued) ≠ JStep.preprocess ∧
    (if flatfield then JStep.completed else JStep.queued) ≠ jstateErr := by
  cases flatfield
  · exact ⟨by decide, by decide⟩
  · exact ⟨by decide, by decide⟩

/-- Without image sizes nothing is posted, and the job stays where it is. -/
theorem stays_of_none (hsizes : getImageSizes (0, 0) objects = none) (hstep : j.step = JStep.preprocess)
    (hrun : is.foldlM (Pool.step PreState.exec) (runPreprocess objects cached watches j) = some p)
    (hidle : p.Idle) : ¬ (Completed j.flatfield (images 0 objects) p ∨ p.state.job.step = JStep.err) := by
  obtain ⟨hpending, hdone, -, hjob⟩ := @runPreprocess_of_none cached objects watches j hsizes
  obtain ⟨hperm, hstate⟩ := Pool.run hrun hdone hidle
  rw [hpending] at hperm
  rw [List.perm_nil.1 hperm] at hstate
  have hp : p.state.job.step = JStep.preprocess := by rw [hstate]; exact hjob.trans hstep
  rintro (h | h)
  · exact (nextStep_ne j.flatfield).1 (h.step.symm.trans hp)
  · exact absurd (h.symm.trans hp) (by decide)

/-- A target of nothing is never reached. -/
theorem stays_of_announced (hsizes : getImageSizes (0, 0) objects = some objs) (hstep : j.step = JStep.preprocess)
    (hzero : announced j.flatfield objs = 0)
    (hrun : is.foldlM (Pool.step PreState.exec) (runPreprocess objects cached watches j) = some p)
    (hidle : p.Idle) : ¬ (Completed j.flatfield (images 0 objects) p ∨ p.state.job.step = JStep.err) := by
  obtain ⟨hops, hdone, hreached, c, hjob⟩ := @runPreprocess_spec cached objects objs watches j hsizes
  obtain ⟨hperm, hstate⟩ := Pool.run hrun hdone hidle
  rw [hops, flatten_postedItems, postedOps_of_announced hzero] at hperm
  rw [List.perm_nil.1 hperm] at hstate
  have hp : p.state = (runPreprocess objects cached watches j).state := hstate
  rintro (h | h)
  · have h1 := h.reached
    rw [hp, hreached] at h1
    exact absurd h1 Nat.zero_ne_one
  · rw [hp, hjob] at h
    exact absurd (h.symm.trans hstep) (by decide)

/-- All that is posted is done, and the job is in the phase that this leads to. -/
theorem phase_of_run (hsizes : getImageSizes (0, 0) objects = some objs) (hstep : j.step = JStep.preprocess)
    (hzero : announced j.flatfield objs ≠ 0)
    (hrun : is.foldlM (Pool.step PreState.exec) (runPreprocess objects cached watches j) = some p)
    (hidle : p.Idle) : p.done.Perm (postedOps j.flatfield cached objs) ∧
      Phase (announced j.flatfield objs) j.flatfield p.done p.state := by
  obtain ⟨hitems, hdone, hreached, c, hjob⟩ := @runPreprocess_spec cached objects objs watches j hsizes
  obtain ⟨hperm, hstate⟩ := Pool.run hrun hdone hidle
  rw [hitems, flatten_postedItems] at hperm
  refine ⟨hperm, ?_⟩
  rw [hstate]
  refine Phase.run (.waiting ?_ ⟨c, by rw [hjob]; rfl⟩ (by rw [hjob]) (.inl (by rw [hjob]; exact hstep)) hreached) ?_
  · change (0 : ℤ) < _
    omega
  · rw [hperm.countP_eq]
    exact Int.ofNat_le.2 countP_postedOps_le

/-- Only where all images are counted a run completes, and no job gets to `JStep.err`. -/
theorem counted_of_phase (hsizes : getImageSizes (0, 0) objects = some objs) (hzero : announced flatfield objs ≠ 0)
    (hperm : p.done.Perm (postedOps flatfield cached objs))
    (hphase : Phase (announced flatfield objs) flatfield p.done p.state)
    (h : Completed flatfield (images 0 objects) p ∨ p.state.job.step = JStep.err) :
    Counted flatfield objects cached := by
  have herr : JStep.err ≠ JStep.preprocess ∧ JStep.err ≠ jstateErr := ⟨by decide, by decide⟩
  have hstays : p.state.reached = 0 → ¬ (p.state.job.step = JStep.preprocess ∨ p.state.job.step = jstateErr) := by
    rintro hreached (hstep | hstep) <;> rcases h with h | h
    · exact Nat.one_ne_zero (h.reached.symm.trans hreached)
    · exact herr.1 (h.symm.trans hstep)
    · exact Nat.one_ne_zero (h.reached.symm.trans hreached)
    · exact herr.2 (h.symm.trans hstep)
  cases hphase with
  | waiting _ _ _ hstep hreached => exact absurd hstep (hstays hreached)
  | cleared _ _ hstep hreached => exact absurd hstep (hstays hreached)
  | completed hcount _ _ =>
    rw [hperm.countP_eq] at hcount
    obtain ⟨hcached, hrest, hcounted⟩ := counted_of_postedOps (Int.ofNat_inj.1 hcount)
    refine ⟨fun hff hnil => hzero ?_, hcached, objs, hsizes, hrest, hcounted⟩
    rw [announced, ← length_images 0 objs, images_getImageSizes 0 hsizes, hnil, if_pos hff]
    rfl

/-- What is fine completes. -/
theorem completed_of_phase (hsizes : getImageSizes (0, 0) objects = some objs)
    (hperm : p.done.Perm (postedOps flatfield cached objs))
    (hphase : Phase (announced flatfield objs) flatfield p.done p.state) (h : Fine flatfield objects cached) :
    Completed flatfield (images 0 objects) p := by
  obtain ⟨-, hcached, objs', hsizes', hrest, hfine⟩ := h
  obtain rfl : objs = objs' := Option.some.inj (hsizes.symm.trans hsizes')
  have himages : images 0 objs = images 0 objects := images_getImageSizes 0 hsizes
  have hobject : ∀ o (i : ImageId), i.object = o → ([.stepJob (some i), .step (.object o) (some i)] :
      List PreOp).filterMap PreOp.objectImage = [i] := by
    intro o i hi
    have hcount : PreOp.objectImage (.step (.object o) (some i)) = some i := if_pos hi
    rw [List.filterMap_cons_none rfl, List.filterMap_cons_some hcount]
    rfl
  obtain ⟨hfail, hcount, hjobs⟩ := postedOps_of_fine PreOp.jobImage
    (fun _ _ _ => rfl) (fun _ => rfl) rfl hcached hrest hfine
  obtain ⟨-, -, hobjects⟩ := postedOps_of_fine PreOp.objectImage hobject
    (fun w => by cases w <;> rfl) rfl hcached hrest hfine
  have hnone : ¬ ∃ op ∈ p.done, op.isFail = true := fun ⟨op, hop, hop'⟩ =>
    Bool.false_ne_true ((hfail op (hperm.mem_iff.1 hop)).symm.trans hop')
  cases hphase with
  | waiting hcount' _ _ _ _ =>
    rw [hperm.countP_eq, hcount] at hcount'
    exact absurd hcount' (lt_irrefl _)
  | cleared hfail' _ _ _ => exact absurd hfail' hnone
  | completed _ hstep hreached =>
    refine ⟨hreached, hstep.resolve_right fun h => hnone h.2, ?_, ?_⟩
    · rw [← himages, ← hjobs]
      exact hperm.filterMap _
    · rw [← himages, ← hobjects]
      exact hperm.filterMap _

/-- **If an item fails, some order of the items ends with that.** -/
theorem exists_run_fails (hsizes : getImageSizes (0, 0) objects = some objs)
    (hfail : ∃ op ∈ postedOps j.flatfield cached objs, op.isFail = true) : ∃ (is : List ℕ) (p : PrePool),
      is.foldlM (Pool.step PreState.exec) (runPreprocess objects cached watches j) = some p ∧ p.Idle ∧
        p.state.job.step = jstateErr := by
  obtain ⟨hitems, hdone, -, -⟩ := @runPreprocess_spec cached objects objs watches j hsizes
  obtain ⟨op, hop, hop'⟩ := hfail
  rw [← flatten_postedItems] at hop
  obtain ⟨item, hitem, hmem⟩ := List.mem_flatten.1 hop
  obtain ⟨x, front, rfl⟩ : ∃ (x : Source) (front : List PreOp), item = front ++ x.failed := by
    rcases List.mem_append.1 hitem with hcache | hchannel
    · split_ifs at hcache
      · exact absurd hcache List.not_mem_nil
      · rw [List.mem_singleton.1 hcache, initCache] at hmem
        split_ifs at hmem
        · rw [List.mem_singleton.1 hmem] at hop'
          exact absurd hop' Bool.false_ne_true
        · exact absurd hmem List.not_mem_nil
    · obtain ⟨x, -, hx⟩ := List.mem_flatMap.1 hchannel
      exact ⟨x, Source.ends_of_fail hx hmem hop'⟩
  obtain ⟨i, hi⟩ := List.mem_iff_getElem?.1 hitem
  rw [← hitems] at hi
  obtain ⟨is, p, hrun, hidle, d, hd⟩ := Pool.exists_run_last PreState.exec _ hi
  refine ⟨is, p, hrun, hidle, ?_⟩
  rw [(Pool.run hrun hdone hidle).2, hd, List.reverse_append, List.append_assoc]
  exact Job.moveTo_step _ _

/-- **The pre-processing completes in every order of the items exactly if nothing is amiss**; and it completes in
one only if all images are counted. -/
theorem preprocess_completes_iff (hstep : j.step = JStep.preprocess) :
    ((∀ (is : List ℕ) (p : PrePool),
        is.foldlM (Pool.step PreState.exec) (runPreprocess objects cached watches j) = some p → p.Idle →
          Completed j.flatfield (images 0 objects) p ∨ p.state.job.step = JStep.err) ↔
      Fine j.flatfield objects cached) ∧
    ∀ (is : List ℕ) (p : PrePool),
      is.foldlM (Pool.step PreState.exec) (runPreprocess objects cached watches j) = some p → p.Idle →
        Completed j.flatfield (images 0 objects) p ∨ p.state.job.step = JStep.err →
          Counted j.flatfield objects cached := by
  have hcounted : ∀ (is : List ℕ) (p : PrePool),
      is.foldlM (Pool.step PreState.exec) (runPreprocess objects cached watches j) = some p → p.Idle →
        Completed j.flatfield (images 0 objects) p ∨ p.state.job.step = JStep.err →
          ∃ objs, getImageSizes (0, 0) objects = some objs ∧ Counted j.flatfield objects cached := by
    intro is p hrun hidle h
    cases hsizes : getImageSizes (0, 0) objects with
    | none => exact absurd h (stays_of_none hsizes hstep hrun hidle)
    | some objs =>
      have hzero : announced j.flatfield objs ≠ 0 := fun hzero =>
        stays_of_announced hsizes hstep hzero hrun hidle h
      obtain ⟨hperm, hphase⟩ := phase_of_run hsizes hstep hzero hrun hidle
      exact ⟨objs, rfl, counted_of_phase hsizes hzero hperm hphase h⟩
  refine ⟨⟨fun hall => ?_, fun hfine is p hrun hidle => .inl ?_⟩, fun is p hrun hidle h =>
    (hcounted is p hrun hidle h).elim fun _ => And.right⟩
  · obtain ⟨is, p, hrun, hidle⟩ := Pool.exists_run PreState.exec (runPreprocess objects cached watches j)
    obtain ⟨objs, hsizes, hcount⟩ := hcounted is p hrun hidle (hall is p hrun hidle)
    have hquiet : ∀ op ∈ postedOps j.flatfield cached objs, op.isFail = false := by
      intro op hop
      by_contra hfail
      obtain ⟨is, p, hrun, hidle, herr⟩ := @exists_run_fails cached objects objs watches j hsizes
        ⟨op, hop, Bool.eq_true_of_not_eq_false hfail⟩
      rcases hall is p hrun hidle with h | h
      · exact (nextStep_ne j.flatfield).2 (h.step.symm.trans herr)
      · exact absurd (h.symm.trans herr) (by decide)
    obtain ⟨hnonempty, hcached, objs', hsizes', hrest, hchannels⟩ := hcount
    obtain rfl : objs = objs' := Option.some.inj (hsizes.symm.trans hsizes')
    refine ⟨hnonempty, hcached, objs, hsizes, hrest, fun x hx => (hchannels x hx).fine fun op hop => hquiet op ?_⟩
    exact List.mem_append_right _ (List.mem_flatMap.2 ⟨x, hx, hop⟩)
  · obtain ⟨objs, hsizes, -, -⟩ := hfine.channels
    have hzero : announced j.flatfield objs ≠ 0 := by
      intro hzero
      have hff : j.flatfield = true := by
        by_contra hne
        rw [announced, if_neg hne] at hzero
        omega
      refine hfine.nonempty hff (List.eq_nil_of_length_eq_zero ?_)
      rw [← images_getImageSizes 0 hsizes, length_images]
      rw [announced] at hzero
      omega
    obtain ⟨hperm, hphase⟩ := phase_of_run hsizes hstep hzero hrun hidle
    exact completed_of_phase hsizes hperm hphase hfine

/-- One object with one channel of one 8 × 8 image in a file, with a dark and a gain of `dark` and of 64
elements. -/
def oneImage (dark : ℕ) : List Object :=
  [⟨(0, 0), false, [⟨(0, 0), (8, 8), 100, some dark, some 64, [⟨[none], true, true⟩], true, true, []⟩]⟩]

/-- A job that has come to its pre-processing. -/
def preprocessJob : Job := ⟨1, JStep.preprocess, false, [], .clear, []⟩

/-- One object with one channel of two 8 × 8 images in two files, which are saved; `saves` is whether that goes
through for the first one. -/
def twoImages (saves : Bool) : List Object :=
  [⟨(0, 0), true, [⟨(0, 0), (8, 8), 100, some 64, some 64, [⟨[none], true, saves⟩, ⟨[none], true, true⟩], true, true,
    []⟩]⟩]

/-- The items of the two files run side by side: both images are counted, and the job is queued. -/
theorem twoImages_completes : ∃ (is : List ℕ) (p : PrePool), is.foldlM (Pool.step PreState.exec)
    (runPreprocess (twoImages true) true (fun _ => .clear) preprocessJob) = some p ∧ p.Idle ∧
      (Completed false [⟨0, 0, 0⟩, ⟨0, 0, 1⟩] p ∨ p.state.job.step = JStep.err) := by
  refine ⟨[2, 1, 1, 2, 0, 1, 2, 2, 1], _, rfl, rfl, ?_⟩
  refine (@preprocess_completes_iff true (twoImages true) (fun _ => .clear) preprocessJob rfl).1.2
    ⟨fun h => absurd h Bool.false_ne_true, fun _ => rfl, _, rfl, ?_, ?_⟩ [2, 1, 1, 2, 0, 1, 2, 2, 1] _ rfl rfl
  · intro x hx
    exact absurd hx List.not_mem_nil
  · intro x hx
    obtain rfl := List.mem_singleton.1 hx
    have hfiles : ∀ f ∈ [ImageFile.mk [none] true true, ⟨[none], true, true⟩], f = ⟨[none], true, true⟩ := by
      simp
    refine ⟨fun f hf => ?_, fun f hf _ => ?_, fun f hf fault hfault => ?_⟩
    · rw [hfiles f hf]
      rfl
    · rw [hfiles f hf]
    · rw [hfiles f hf] at hfault
      rw [List.mem_singleton.1 hfault]
      rfl

/-- The first file is not saved: it depends on when the second image is counted whether the job fails. -/
example : [[1, 1, 1, 2, 0, 1, 1, 2, 2, 2], [0, 2, 2, 2, 2, 1, 1, 1, 1, 1]].map (fun is =>
    (is.foldlM (Pool.step PreState.exec) (runPreprocess (twoImages false) true (fun _ => .clear) preprocessJob)).map
      fun p => p.state.job.step) = [some JStep.queued, some jstateErr] := by decide

/-- A dark of another size: the image is never counted, and the job stays where it is. -/
theorem oneImage_stuck : ¬ ∀ (objects : List Object) (cached : Bool) (watches : Owner → ProgressWatch Unit)
    (j : Job) (is : List ℕ) (p : PrePool), j.step = JStep.preprocess →
      is.foldlM (Pool.step PreState.exec) (runPreprocess objects cached watches j) = some p → p.Idle →
        Completed j.flatfield (images 0 objects) p ∨ p.state.job.step = JStep.err := by
  intro h
  rcases h (oneImage 16) true (fun _ => .clear) preprocessJob [0, 1] _ rfl rfl rfl with h | h
  · exact Nat.zero_ne_one h.reached
  · exact absurd h (by decide)

end End

/-! ## Each image is one image -/

theorem object_of_mem_imagesFrom {o : ℕ} {i : ImageId} : ∀ {c : ℕ} {chs : List Channel},
    i ∈ imagesFrom o c chs → i.object = o ∧ c ≤ i.channel
  | _, [], h => absurd h List.not_mem_nil
  | c, ch :: chs, h => by
    rcases List.mem_append.1 h with h | h
    · obtain ⟨n, -, rfl⟩ := List.mem_map.1 h
      exact ⟨rfl, Nat.le_refl _⟩
    · obtain ⟨ho, hc⟩ := object_of_mem_imagesFrom h
      exact ⟨ho, by omega⟩

theorem nodup_imagesFrom (o : ℕ) : ∀ (c : ℕ) (chs : List Channel), (imagesFrom o c chs).Nodup
  | _, [] => List.nodup_nil
  | c, ch :: chs => by
    refine List.nodup_append.2 ⟨?_, nodup_imagesFrom o (c + 1) chs, ?_⟩
    · exact List.pairwise_map.2 (List.nodup_range.imp fun hmn h => hmn (ImageId.mk.inj h).2.2)
    · rintro i hi _ hi' rfl
      obtain ⟨n, -, rfl⟩ := List.mem_map.1 hi
      have hc := (object_of_mem_imagesFrom hi').2
      dsimp only at hc
      omega

theorem object_of_mem_images {i : ImageId} : ∀ {o : ℕ} {objs : List Object}, i ∈ images o objs → o ≤ i.object
  | _, [], h => absurd h List.not_mem_nil
  | o, obj :: objs, h => by
    rcases List.mem_append.1 h with h | h
    · exact (object_of_mem_imagesFrom h).1.ge
    · have ho := object_of_mem_images h
      omega

/-- No image is listed twice, so a permutation of the images has each of them once. -/
theorem nodup_images : ∀ (o : ℕ) (objs : List Object), (images o objs).Nodup
  | _, [] => List.nodup_nil
  | o, obj :: objs => by
    refine List.nodup_append.2 ⟨nodup_imagesFrom o 0 obj.channels, nodup_images (o + 1) objs, ?_⟩
    rintro i hi _ hi' rfl
    have hfirst := (object_of_mem_imagesFrom hi).1
    have hlater := object_of_mem_images hi'
    omega

end Redux.Momfbd
