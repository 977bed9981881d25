import Redux.Momfbd.ResultStorage
import Redux.Util.ArrayFrames

/-!
# Momfbd.SlaveResults — what a slave sends and what the manager has room for

A slave makes the arrays of its results in `restorePatch`, from the images that it restores and the size of
the OTF; the manager wraps arrays around its storage in `getStorage`, from `nObjectImages` and `patchSize`.
`copyResults` copies a quantity if both have the same number of elements, and otherwise leaves what is there.
Exactly when all quantities are copied is said by `copied_iff`.
-/

namespace Redux.Momfbd.Results

open Redux.Util

/-! ## The size of the pupil -/

def goodsizes : List ℕ :=
  [16, 18, 20, 24, 25, 27, 30, 32, 36, 40, 45, 48, 50, 54, 60, 64, 72, 75, 80, 81, 90, 96, 100, 108, 120, 125, 128,
    135, 144]

/-- The loop over the good sizes, until the pupil fits. -/
def findSize (pupilRadiusInPixels : ℚ) : List ℕ → ℕ → ℕ
  | [], nPupilPixels => nPupilPixels
  | gs :: sizes, nPupilPixels =>
    if pupilRadiusInPixels ≤ (max gs nPupilPixels : ℕ) then max gs nPupilPixels
    else findSize pupilRadiusInPixels sizes (max gs nPupilPixels)

/-- `Pupil::calculatePupilSize` for a patch of `nPixels`, by the radius that it calculates. -/
def calculatePupilSize (nPixels : ℕ) (pupilRadiusInPixels : ℚ) : Option ℕ :=
  if nPixels < 4 then none
  else if ((nPixels / 4 : ℕ) : ℚ) < pupilRadiusInPixels then
    some (2 * findSize pupilRadiusInPixels goodsizes (nPixels / 4))
  else some (2 * (nPixels / 4))

/-- What has been checked before anything is restored: there are modes, and the pupil has its size. -/
structure Object.SetUp (nModes : BitVec 16) (o : Object) : Prop where
  modes : nModes ≠ 0
  pupil : ∃ radius, calculatePupilSize o.patchSize.toNat radius = some o.pupilPixels.toNat

/-! ## Restoring -/

/-- One thing for each quantity. -/
def Quantity.table {T : Type} (img psf cobj res alpha div : T) : Quantity → T
  | .img => img
  | .psf => psf
  | .cobj => cobj
  | .res => res
  | .alpha => alpha
  | .div => div

/-- `Array::trim`: what is in the view is copied to a new array. -/
def trim (a : Arrays.Array) (skipTrivialDims : Bool) : Option Arrays.Array :=
  let newDimSizes := if skipTrivialDims then a.sizes.filter (1 < ·) else a.sizes
  if newDimSizes = [] then some (.construct [])
  else if (Arrays.Array.construct newDimSizes).nElements_ = a.nElements_ then some (.construct newDimSizes)
  else none

/-- `resize( n, size, size )`, and the view of it that is shifted from image to image. -/
def stack (n size : ℕ) : Option Arrays.Array :=
  ((Arrays.Array.construct [n, size, size]).subArray [0, 0, 0, size - 1, 0, size - 1]).bind fun view =>
    if view.nElements_ = (Arrays.Array.construct [size, size]).nElements_ then some (.construct [n, size, size])
    else none

namespace Object

section Restore

variable (nModes : BitVec 16) (o : Object)

/-- The wavefronts of the images to restore. -/
def images (wf : List ℕ) : List ℕ :=
  (o.channels.filter fun ch => !ch.noRestore).flatMap fun ch => ch.waveFrontList.filter (· ∈ wf)

/-- `Object::nImages`, which `nObjectImages` is for an object. -/
def nImages : ℕ := (o.channels.map fun ch => ch.waveFrontList.length).sum

def otfSize : ℕ := 2 * o.pupilPixels.toNat

/-- The part of an array of images that is kept: the middle, if the OTF is larger than the patch. -/
def cut (a : Arrays.Array) (images : List ℤ) (skipTrivialDims : Bool) : Option Arrays.Array :=
  if o.otfSize > o.patchSize.toNat then
    let offset : ℤ := ((o.otfSize - o.patchSize.toNat) / 2 : ℕ)
    (a.setLimitsOf (images ++ [offset, offset + o.patchSize.toNat - 1, offset, offset + o.patchSize.toNat - 1])).bind
      (trim · skipTrivialDims)
  else some a

/-- `uint16_t nPSF`, for the images that are restored. -/
def restoredPSF (imgCount : ℕ) : ℕ := if o.saves SF_SAVE_PSF_AVG then 1 else imgCount % 2 ^ 16

/-- The array of a quantity, if nothing throws; `clear()` if it is not asked for. -/
def restore (imgCount : ℕ) (q : Quantity) : Option Arrays.Array :=
  if o.asks q then
    match q with
    | .img => o.cut (.construct [o.otfSize, o.otfSize]) [] true
    | .psf => (stack (o.restoredPSF imgCount) o.otfSize).bind (o.cut · [0, o.restoredPSF imgCount - 1] false)
    | .cobj | .res => (stack imgCount o.otfSize).bind (o.cut · [0, imgCount - 1] false)
    | .alpha => some (.construct [imgCount, nModes.toNat])
    | .div => ((Arrays.Array.construct [o.channels.length, o.pupilPixels.toNat, o.pupilPixels.toNat]).subArray
        [0, 0, 0, o.pupilPixels.toNat - 1, 0, o.pupilPixels.toNat - 1]).map fun _ =>
          .construct [o.channels.length, o.pupilPixels.toNat, o.pupilPixels.toNat]
  else some (.construct [])

/-- `Object::restorePatch`, as far as it is about the sizes of the arrays. -/
def restorePatch (od : Quantity → Arrays.Array) (wf : List ℕ) : Option (Quantity → Arrays.Array) :=
  if o.images wf = [] then some od
  else
    let imgCount := (o.images wf).length
    (o.restore nModes imgCount .img).bind fun img => (o.restore nModes imgCount .psf).bind fun psf =>
    (o.restore nModes imgCount .cobj).bind fun cobj => (o.restore nModes imgCount .res).bind fun res =>
    (o.restore nModes imgCount .alpha).bind fun alpha => (o.restore nModes imgCount .div).map fun div =>
      Quantity.table img psf cobj res alpha div

end Restore

end Object

/-! ## Sending and copying -/

/-- What the results are for: an object, or a trace object, for which the object that it traces is restored
with the wavefronts of the trace object. -/
inductive Source
  | object (o : Object)
  | trace (tobj o : Object) (waveFrontList : List ℕ)

namespace Source

/-- The object whose storage they go to; `getStorage` takes the channels of the reference if it has none. -/
def stored : Source → Object
  | object o => o
  | trace tobj o _ => if tobj.channels = [] then { tobj with channels := o.channels, channels_lt := o.channels_lt }
    else tobj

/-- The object that is restored. -/
def restored : Source → Object
  | object o => o
  | trace _ o _ => o

/-- The wavefronts that are restored: those of all channels, or those of the trace object. -/
def waveFrontList : Source → List ℕ
  | object o => o.channels.flatMap Channel.waveFrontList
  | trace _ _ waveFrontList => waveFrontList

end Source

/-- A quantity in `ObjectData::copyResults`. -/
def copyQuantity {T : Type} (values rhs : List T) : List T :=
  if values.length ≠ 0 ∧ values.length = rhs.length then rhs else values

/-- `ObjectData::copyResults`. -/
def copyResults {T : Type} (values rhs : Quantity → List T) : Quantity → List T :=
  fun q => copyQuantity (values q) (rhs q)

/-- The arrays `r` have as many elements as those of `d`, and what is in them is copied, whatever it is. -/
structure Received (d : ObjectData) (r : Quantity → Arrays.Array) : Prop where
  size_eq : ∀ q, (r q).nElements_ = (d q).nElements
  copied : ∀ values rhs : Quantity → List (BitVec 32), (∀ q, (values q).length = (d q).nElements) →
    (∀ q, (rhs q).length = (r q).nElements_) → copyResults values rhs = rhs

namespace Source

variable (nModes : BitVec 16) (src : Source)

/-- What a slave restores is received in the storage `d`. -/
def Copied (d : ObjectData) : Prop :=
  ∃ r, src.restored.restorePatch nModes (fun _ => .construct []) src.waveFrontList = some r ∧ Received d r

def imgCount : ℕ := (src.restored.images src.waveFrontList).length

/-- There are images to restore, as many as are stored; the OTF is not smaller than the patch, and the object that
is stored has the sizes, the quantities and the diversity of the one that is restored. -/
structure Fits : Prop where
  images : src.imgCount ≠ 0
  side : min src.restored.patchSize.toNat src.restored.otfSize = src.stored.patchSize.toNat
  asks : ∀ q, src.restored.asks q = src.stored.asks q
  psf : src.stored.asks .psf → src.restored.restoredPSF src.imgCount = max 1 src.stored.nPSF
  count : src.stored.asks .cobj ∨ src.stored.asks .res ∨ src.stored.asks .alpha →
    src.imgCount = max 1 src.stored.nObjectImages.toNat
  diversity : src.stored.asks .div → src.restored.channels.length * src.restored.pupilPixels.toNat ^ 2 =
    src.stored.channels.length * src.stored.pupilPixels.toNat ^ 2

end Source

/-! ## Sizes of arrays -/

section Sizes

variable {sizes : List ℕ} {radius : ℚ} {nModes : BitVec 16} {o : Object} {q : Quantity}

theorem prod_filter_eq : ∀ sizes : List ℕ, (sizes.filter (· ≠ 0)).prod = (sizes.map (max 1)).prod
  | [] => rfl
  | n :: sizes => by
    have ih := prod_filter_eq sizes
    rw [List.map_cons, List.prod_cons, List.filter_cons]
    by_cases hn : n = 0
    · rw [if_neg (by simp [hn]), ih, hn]
      simp
    · rw [if_pos (by simpa using hn), List.prod_cons, ih, max_eq_right (by omega)]

/-- The elements of an array: sizes of zero are dropped, unless there are no others. -/
theorem nElements_max (h : (sizes.filter (· ≠ 0)).prod < 2 ^ 64) : (Arrays.Array.construct sizes).nElements_ =
    if ∀ n ∈ sizes, n = 0 then 0 else (sizes.map (max 1)).prod := by
  rw [Arrays.Array.nElements_construct h, prod_filter_eq]
  exact if_congr filter_eq_nil rfl rfl

theorem findSize_bounds : ∀ {sizes : List ℕ} {m : ℕ}, (∀ gs ∈ sizes, gs ≤ 144) →
    m ≤ findSize radius sizes m ∧ findSize radius sizes m ≤ max m 144
  | [], m, _ => ⟨le_rfl, le_max_left m 144⟩
  | gs :: sizes, m, h => by
    obtain ⟨hgs, hsizes⟩ := List.forall_mem_cons.1 h
    obtain ⟨hle, hge⟩ := @findSize_bounds sizes (max gs m) hsizes
    rw [findSize]
    split_ifs <;> omega

/-- The pupil takes up two quarters of the patch, or some good size. -/
theorem Object.SetUp.bounds (h : o.SetUp nModes) :
    4 ≤ o.patchSize.toNat ∧ o.pupilPixels.toNat ≠ 0 ∧ 4 ≤ o.otfSize ∧ o.otfSize < 2 ^ 16 := by
  obtain ⟨radius, hradius⟩ := h.pupil
  have hps := o.patchSize.isLt
  have hbounds := @findSize_bounds radius goodsizes (o.patchSize.toNat / 4) (by decide)
  unfold calculatePupilSize at hradius
  unfold Object.otfSize
  split_ifs at hradius
  · obtain hradius := Option.some.inj hradius
    omega
  · obtain hradius := Option.some.inj hradius
    omega

end Sizes

/-! ## What is restored -/

section Restored

variable {n size : ℕ} {nModes : BitVec 16} {o : Object} {q : Quantity} {a : Arrays.Array}

theorem nElements_stack (hn : n ≠ 0) (hsize : size ≠ 0) (hfits : n * size ^ 2 < 2 ^ 64) :
    (Arrays.Array.construct [n, size, size]).nElements_ = n * size ^ 2 := by
  have hsolid : (0 : ℕ) ∉ [n, size, size] := by simp [Ne.symm hn, Ne.symm hsize]
  have hprod : [n, size, size].prod = n * size ^ 2 := by simp [sq]
  rw [(nElements_eq_prod (List.cons_ne_nil _ _) (by rwa [filter_eq_self hsolid, hprod])).2
    fun hzero => absurd hzero hsolid, hprod]

theorem nElements_square (hsize : size ≠ 0) (hfits : size ^ 2 < 2 ^ 64) :
    (Arrays.Array.construct [size, size]).nElements_ = size ^ 2 := by
  have hsolid : (0 : ℕ) ∉ [size, size] := by simp [Ne.symm hsize]
  have hprod : [size, size].prod = size ^ 2 := by simp [sq]
  rw [(nElements_eq_prod (List.cons_ne_nil _ _) (by rwa [filter_eq_self hsolid, hprod])).2
    fun hzero => absurd hzero hsolid, hprod]

/-- The view of the first image; without images there are too few dimensions for it. -/
theorem subArray_stack (hsize : size ≠ 0) : n = 0 ∧
    (Arrays.Array.construct [n, size, size]).subArray [0, 0, 0, size - 1, 0, size - 1] = none ∨
    n ≠ 0 ∧ ∃ view, (Arrays.Array.construct [n, size, size]).subArray [0, 0, 0, size - 1, 0, size - 1] = some view ∧
      view.nElements_ = size ^ 2 := by
  by_cases hn : n = 0
  · subst hn
    refine .inl ⟨rfl, ?_⟩
    have hlen : (Arrays.Array.construct [0, size, size]).dims.length = 2 := by
      rw [Arrays.Array.dims_length]
      simp [hsize]
    exact Arrays.Array.subArray_of_few (by rw [hlen]; decide) _ _ _ _ _ _
  · refine .inr ⟨hn, ?_⟩
    have hlen : (Arrays.Array.construct [n, size, size]).dims.length = 3 := by
      rw [Arrays.Array.dims_length]
      simp [hsize, hn]
    obtain ⟨view, hview, -, hcount⟩ :=
      @Arrays.Array.exists_setLimits [(n, 0, 0), (size, 0, size - 1), (size, 0, size - 1)] (by simp; omega)
    refine ⟨view, ?_, ?_⟩
    · rw [Arrays.Array.subArray_three hlen, ← hview]
      have hlast : ((size - 1 : ℕ) : ℤ) = size - 1 := by omega
      simp only [List.map_cons, List.map_nil, hlast]
      rfl
    · rw [hcount]
      have hone : size - 1 + 1 - 0 = size := by omega
      simp [hone, sq]

theorem stack_eq (hsize : size ≠ 0) (hfits : size ^ 2 < 2 ^ 64) :
    stack n size = if n = 0 then none else some (.construct [n, size, size]) := by
  unfold stack
  rcases @subArray_stack n size hsize with ⟨hn, hnone⟩ | ⟨hn, view, hview, hcount⟩
  · rw [hnone, if_pos hn]
    rfl
  · rw [hview, if_neg hn, Option.bind_some, if_pos (by rw [hcount, nElements_square hsize hfits])]

/-- The side of the images that are kept. -/
def Object.side (o : Object) : ℕ := min o.patchSize.toNat o.otfSize

theorem trim_eq (skipTrivialDims : Bool) (h : (if skipTrivialDims then a.sizes.filter (1 < ·) else a.sizes) = a.sizes)
    (hne : a.sizes ≠ []) (hcount : (Arrays.Array.construct a.sizes).nElements_ = a.nElements_) :
    trim a skipTrivialDims = some (.construct a.sizes) := by
  unfold trim
  rw [h]
  exact (if_neg hne).trans (if_pos hcount)

/-- The middle of a stack of images. -/
theorem cut_stack (h : o.SetUp nModes) (hn : n ≠ 0) (hlt : n < 2 ^ 32) :
    ∃ a, o.cut (.construct [n, o.otfSize, o.otfSize]) [0, n - 1] false = some a ∧ a.nElements_ = n * o.side ^ 2 := by
  obtain ⟨hps, -, hotf, hotf'⟩ := h.bounds
  have hfits : ∀ {m : ℕ}, m < 2 ^ 16 → n * m ^ 2 < 2 ^ 64 := by
    intro m hm
    have hle := Nat.mul_le_mul (Nat.le_sub_one_of_lt hlt) (Nat.pow_le_pow_left (Nat.le_sub_one_of_lt hm) 2)
    omega
  unfold Object.cut Object.side
  by_cases hsmall : o.otfSize > o.patchSize.toNat
  · rw [if_pos hsmall, min_eq_left hsmall.le]
    obtain ⟨lo, hlo⟩ : ∃ lo, lo = (o.otfSize - o.patchSize.toNat) / 2 := ⟨_, rfl⟩
    have hlen : (Arrays.Array.construct [n, o.otfSize, o.otfSize]).dims.length = 3 := by
      rw [Arrays.Array.dims_length, filter_eq_self (by simp; omega)]
      rfl
    obtain ⟨view, hview, hsizes, hcount⟩ := @Arrays.Array.exists_setLimits
      [(n, 0, n - 1), (o.otfSize, lo, lo + o.patchSize.toNat - 1), (o.otfSize, lo, lo + o.patchSize.toNat - 1)]
      (by simp; omega)
    have hside : lo + o.patchSize.toNat - 1 + 1 - lo = o.patchSize.toNat := by omega
    have hdim : n - 1 + 1 - 0 = n := by omega
    simp only [List.map_cons, List.map_nil, hside, hdim] at hview hsizes hcount
    have hlast : ((n - 1 : ℕ) : ℤ) = n - 1 := by omega
    have hlast' : ((lo + o.patchSize.toNat - 1 : ℕ) : ℤ) = lo + o.patchSize.toNat - 1 := by omega
    rw [hlast, hlast'] at hview
    have hprod : [n, o.patchSize.toNat, o.patchSize.toNat].prod = n * o.patchSize.toNat ^ 2 := by simp [sq]
    have hstack := nElements_stack hn (by omega) (hfits o.patchSize.isLt)
    dsimp only
    rw [← hlo, List.cons_append, List.cons_append, List.nil_append, Arrays.Array.setLimitsOf_three hlen]
    refine ⟨.construct view.sizes, ?_, by rw [hsizes, hstack]⟩
    refine (congrArg (Option.bind · _) hview).trans ?_
    refine trim_eq false rfl (hsizes ▸ List.cons_ne_nil _ _) ?_
    rw [hcount, hprod, hsizes, hstack]
  · rw [if_neg hsmall, min_eq_right (not_lt.1 hsmall)]
    exact ⟨_, rfl, nElements_stack hn (by omega) (hfits hotf')⟩

/-- The middle of an image. -/
theorem cut_image (h : o.SetUp nModes) :
    ∃ a, o.cut (.construct [o.otfSize, o.otfSize]) [] true = some a ∧ a.nElements_ = o.side ^ 2 := by
  obtain ⟨hps, -, hotf, hotf'⟩ := h.bounds
  have hfits : ∀ {m : ℕ}, m < 2 ^ 16 → m ^ 2 < 2 ^ 64 := fun hm =>
    (Nat.pow_lt_pow_left hm (by decide)).trans (by decide)
  unfold Object.cut Object.side
  by_cases hsmall : o.otfSize > o.patchSize.toNat
  · rw [if_pos hsmall, min_eq_left hsmall.le]
    obtain ⟨lo, hlo⟩ : ∃ lo, lo = (o.otfSize - o.patchSize.toNat) / 2 := ⟨_, rfl⟩
    have hlen : (Arrays.Array.construct [o.otfSize, o.otfSize]).dims.length = 2 := by
      rw [Arrays.Array.dims_length, filter_eq_self (by simp; omega)]
      rfl
    obtain ⟨view, hview, hsizes, hcount⟩ := @Arrays.Array.exists_setLimits
      [(o.otfSize, lo, lo + o.patchSize.toNat - 1), (o.otfSize, lo, lo + o.patchSize.toNat - 1)] (by simp; omega)
    have hside : lo + o.patchSize.toNat - 1 + 1 - lo = o.patchSize.toNat := by omega
    simp only [List.map_cons, List.map_nil, hside] at hview hsizes hcount
    have hlast : ((lo + o.patchSize.toNat - 1 : ℕ) : ℤ) = lo + o.patchSize.toNat - 1 := by omega
    rw [hlast] at hview
    have hprod : [o.patchSize.toNat, o.patchSize.toNat].prod = o.patchSize.toNat ^ 2 := by simp [sq]
    have hsquare := @nElements_square o.patchSize.toNat (by omega) (hfits o.patchSize.isLt)
    dsimp only
    rw [← hlo, List.nil_append, Arrays.Array.setLimitsOf_two hlen]
    refine ⟨.construct view.sizes, ?_, by rw [hsizes, hsquare]⟩
    refine (congrArg (Option.bind · _) hview).trans ?_
    refine trim_eq true ?_ (hsizes ▸ List.cons_ne_nil _ _) ?_
    · rw [hsizes]
      refine List.filter_eq_self.2 fun m hm => ?_
      simp only [List.mem_cons, List.not_mem_nil, or_false, or_self] at hm
      simp [hm]
      omega
    · rw [hcount, hprod, hsizes, hsquare]
  · rw [if_neg hsmall, min_eq_right (not_lt.1 hsmall)]
    exact ⟨_, rfl, nElements_square (by omega) (hfits hotf')⟩

theorem length_images_lt (wf : List ℕ) : (o.images wf).length < 2 ^ 32 := by
  have hchannels := o.channels_lt
  have hle : ∀ chs : List Channel,
      ((chs.filter fun ch => !ch.noRestore).flatMap fun ch => ch.waveFrontList.filter (· ∈ wf)).length ≤
        chs.length * 65535 := by
    intro chs
    induction chs with
    | nil => exact le_rfl
    | cons ch chs ih =>
      have hch : (ch.waveFrontList.filter (· ∈ wf)).length ≤ 65535 :=
        (List.length_filter_le _ _).trans (Nat.le_sub_one_of_lt ch.images_lt)
      rw [List.filter_cons, List.length_cons, Nat.succ_mul]
      split_ifs
      · rw [List.flatMap_cons, List.length_append, Nat.add_comm]
        exact Nat.add_le_add ih hch
      · exact ih.trans (Nat.le_add_right _ _)
  refine lt_of_le_of_lt (hle o.channels) ?_
  omega

/-- The elements that are restored of a quantity. -/
def Object.restoredSize (nModes : BitVec 16) (o : Object) (imgCount : ℕ) : Quantity → ℕ
  | .img => o.side ^ 2
  | .psf => o.restoredPSF imgCount * o.side ^ 2
  | .cobj | .res => imgCount * o.side ^ 2
  | .alpha => imgCount * nModes.toNat
  | .div => o.channels.length * o.pupilPixels.toNat ^ 2

theorem restoredPSF_lt : o.restoredPSF n < 2 ^ 32 := by
  unfold Object.restoredPSF
  split_ifs <;> omega

theorem restore_of_not_asks (h : o.asks q ≠ true) : o.restore nModes n q = some (.construct []) := by
  unfold Object.restore
  rw [if_neg h]

/-- **A quantity is restored**, except that no image may be left of the PSFs in 16 bits. -/
theorem exists_restore (h : o.SetUp nModes) (hn : n ≠ 0) (hlt : n < 2 ^ 32) (hq : o.asks q = true) :
    q = .psf ∧ o.restoredPSF n = 0 ∧ o.restore nModes n q = none ∨
      (q = .psf → o.restoredPSF n ≠ 0) ∧
        ∃ a, o.restore nModes n q = some a ∧ a.nElements_ = o.restoredSize nModes n q := by
  obtain ⟨hps, hpp, hotf, hotf'⟩ := h.bounds
  have hsquare : o.otfSize ^ 2 < 2 ^ 64 := (Nat.pow_lt_pow_left hotf' (by decide)).trans (by decide)
  have hmodes : nModes.toNat ≠ 0 := fun hzero => h.modes (BitVec.eq_of_toNat_eq hzero)
  have hmodes' := nModes.isLt
  unfold Object.restore
  rw [if_pos hq]
  cases q with
  | img => exact .inr ⟨nofun, cut_image h⟩
  | psf =>
    dsimp only
    rw [stack_eq (by omega) hsquare]
    by_cases hpsf : o.restoredPSF n = 0
    · exact .inl ⟨rfl, hpsf, by rw [if_pos hpsf]; rfl⟩
    · rw [if_neg hpsf]
      exact .inr ⟨fun _ => hpsf, cut_stack h hpsf restoredPSF_lt⟩
  | cobj =>
    dsimp only
    rw [stack_eq (by omega) hsquare, if_neg hn]
    exact .inr ⟨nofun, cut_stack h hn hlt⟩
  | res =>
    dsimp only
    rw [stack_eq (by omega) hsquare, if_neg hn]
    exact .inr ⟨nofun, cut_stack h hn hlt⟩
  | alpha =>
    refine .inr ⟨nofun, _, rfl, ?_⟩
    have hsolid : (0 : ℕ) ∉ [n, nModes.toNat] := by simp [Ne.symm hn, Ne.symm hmodes]
    have hprod : [n, nModes.toNat].prod = n * nModes.toNat := by simp
    have hle := Nat.mul_le_mul (Nat.le_sub_one_of_lt hlt) (Nat.le_sub_one_of_lt hmodes')
    rw [(nElements_eq_prod (List.cons_ne_nil _ _) (by rw [filter_eq_self hsolid, hprod]; omega)).2
      fun hzero => absurd hzero hsolid, hprod]
    rfl
  | div =>
    have hch : o.channels.length ≠ 0 := by
      simp only [Object.asks, Bool.and_eq_true, decide_eq_true_eq] at hq
      exact hq.1
    refine .inr ⟨nofun, ?_⟩
    rcases @subArray_stack o.channels.length o.pupilPixels.toNat hpp with ⟨hzero, -⟩ | ⟨-, view, hview, -⟩
    · exact absurd hzero hch
    · dsimp only
      rw [hview]
      have hpp' := o.pupilPixels.isLt
      have hch' := o.channels_lt
      have hle := Nat.mul_le_mul (Nat.le_sub_one_of_lt hch')
        (Nat.pow_le_pow_left (Nat.le_sub_one_of_lt hpp') 2)
      exact ⟨_, rfl, nElements_stack hch hpp (by omega)⟩

/-- What is restored together, if there are images. -/
theorem restorePatch_eq {od r : Quantity → Arrays.Array} {wf : List ℕ} (h : o.images wf ≠ []) :
    o.restorePatch nModes od wf = some r ↔ ∀ q, o.restore nModes (o.images wf).length q = some (r q) := by
  unfold Object.restorePatch
  rw [if_neg h]
  simp only [Option.bind_eq_some_iff, Option.map_eq_some_iff]
  constructor
  · rintro ⟨img, himg, psf, hpsf, cobj, hcobj, res, hres, alpha, halpha, div, hdiv, rfl⟩ (_ | _)
    exacts [himg, hpsf, hcobj, hres, halpha, hdiv]
  · intro hall
    refine ⟨_, hall .img, _, hall .psf, _, hall .cobj, _, hall .res, _, hall .alpha, _, hall .div, ?_⟩
    funext q
    cases q <;> rfl

end Restored

/-! ## What is stored -/

section Stored

variable {nModes : BitVec 16} {o : Object} {q : Quantity} {g : Grid} {index : ℕ × ℕ} {d : ObjectData}

/-- The elements that are stored of a quantity; an array of no images has those of one. -/
def Object.storedSize (nModes : BitVec 16) (o : Object) : Quantity → ℕ
  | .img => o.patchSize.toNat ^ 2
  | .psf => max 1 o.nPSF * o.patchSize.toNat ^ 2
  | .cobj | .res => max 1 o.nObjectImages.toNat * o.patchSize.toNat ^ 2
  | .alpha => max 1 o.nObjectImages.toNat * nModes.toNat
  | .div => o.channels.length * o.pupilPixels.toNat ^ 2

theorem nElements_sizes (h : o.SetUp nModes) (hq : o.asks q = true) :
    (Arrays.Array.construct (o.sizes nModes q)).nElements_ = o.storedSize nModes q := by
  obtain ⟨hps, hpp, -, -⟩ := h.bounds
  have hmodes : nModes.toNat ≠ 0 := fun hzero => h.modes (BitVec.eq_of_toNat_eq hzero)
  have hmax : ∀ {n : ℕ}, n ≠ 0 → max 1 n = n := fun hn => max_eq_right (by omega)
  have hps' := hmax (show o.patchSize.toNat ≠ 0 by omega)
  rw [nElements_max prod_filter_lt]
  cases q with
  | img =>
    rw [if_neg fun hall => absurd (hall o.patchSize.toNat (by simp [Object.sizes])) (by omega)]
    simp [Object.sizes, Object.storedSize, hps', sq]
  | psf =>
    rw [if_neg fun hall => absurd (hall o.patchSize.toNat (by simp [Object.sizes])) (by omega)]
    simp [Object.sizes, Object.storedSize, hps', sq]
  | cobj =>
    rw [if_neg fun hall => absurd (hall o.patchSize.toNat (by simp [Object.sizes])) (by omega)]
    simp [Object.sizes, Object.storedSize, hps', sq]
  | res =>
    rw [if_neg fun hall => absurd (hall o.patchSize.toNat (by simp [Object.sizes])) (by omega)]
    simp [Object.sizes, Object.storedSize, hps', sq]
  | alpha =>
    rw [if_neg fun hall => absurd (hall nModes.toNat (by simp [Object.sizes])) hmodes]
    simp [Object.sizes, Object.storedSize, hmax hmodes]
  | div =>
    have hch : o.channels.length ≠ 0 := by
      simp only [Object.asks, Bool.and_eq_true, decide_eq_true_eq] at hq
      exact hq.1
    rw [if_neg fun hall => absurd (hall o.pupilPixels.toNat (by simp [Object.sizes])) hpp]
    simp [Object.sizes, Object.storedSize, hmax hpp, hmax hch, sq]

/-- **The elements of the storage**: none, for what is not asked for. -/
theorem nElements_storage (h : o.SetUp nModes) (hd : o.getStorage nModes g index .new = some d) (q : Quantity) :
    (d q).nElements = if o.asks q then o.storedSize nModes q else 0 := by
  obtain ⟨_, _, -, -, -, -, -, hwraps⟩ := getStorage_some hd
  rw [View.nElements]
  split_ifs with hq
  · rw [hwraps.array q (mem_wrapped.2 hq), nElements_sizes h hq]
  · rw [hwraps.others q (mt mem_wrapped.1 hq)]
    rfl

end Stored

/-! ## What is received -/

section Received

variable {nModes : BitVec 16} {src : Source} {g : Grid} {index : ℕ × ℕ} {d : ObjectData}
  {r : Quantity → Arrays.Array}

theorem copyResults_eq {T : Type} {values rhs : Quantity → List T} (h : ∀ q, (rhs q).length = (values q).length) :
    copyResults values rhs = rhs := by
  funext q
  unfold copyResults copyQuantity
  split_ifs with hlen
  · rfl
  · have hzero : (values q).length = 0 := by
      by_contra hne
      exact hlen ⟨hne, (h q).symm⟩
    rw [List.length_eq_zero_iff.1 hzero, List.length_eq_zero_iff.1 ((h q).trans hzero)]

/-- Results are received if the sizes are those of the storage. -/
theorem received_iff : Received d r ↔ ∀ q, (r q).nElements_ = (d q).nElements :=
  ⟨fun h => h.size_eq, fun h => ⟨h, fun _ _ hvalues hrhs =>
    copyResults_eq fun q => (hrhs q).trans ((h q).trans (hvalues q).symm)⟩⟩

/-- What a slave restores, if there is something to restore. -/
theorem restore_some {o : Object} {n : ℕ} {q : Quantity} {a : Arrays.Array} (h : o.SetUp nModes) (hn : n ≠ 0)
    (hlt : n < 2 ^ 32) (ha : o.restore nModes n q = some a) :
    a.nElements_ = (if o.asks q then o.restoredSize nModes n q else 0) ∧
      (o.asks q → q = .psf → o.restoredPSF n ≠ 0) := by
  by_cases hq : o.asks q = true
  · rcases exists_restore h hn hlt hq with ⟨-, -, hnone⟩ | ⟨hpsf, a', ha', hcount⟩
    · exact absurd (ha.symm.trans hnone) (Option.some_ne_none a)
    · obtain rfl := Option.some.inj (ha.symm.trans ha')
      rw [if_pos hq]
      exact ⟨hcount, fun _ => hpsf⟩
  · rw [restore_of_not_asks hq] at ha
    obtain rfl := Option.some.inj ha
    rw [if_neg hq]
    exact ⟨rfl, fun h => absurd h hq⟩

/-- No quantity that is asked for is empty. -/
theorem restoredSize_ne_zero {o : Object} {n : ℕ} {q : Quantity} (h : o.SetUp nModes) (hn : n ≠ 0)
    (hpsf : q = .psf → o.restoredPSF n ≠ 0) (hq : o.asks q = true) : o.restoredSize nModes n q ≠ 0 := by
  obtain ⟨hps, hpp, hotf, -⟩ := h.bounds
  have hmodes : nModes.toNat ≠ 0 := fun hzero => h.modes (BitVec.eq_of_toNat_eq hzero)
  have hside : o.side ^ 2 ≠ 0 := pow_ne_zero 2 (by unfold Object.side; omega)
  cases q with
  | img => exact hside
  | psf => exact Nat.mul_ne_zero (hpsf rfl) hside
  | cobj => exact Nat.mul_ne_zero hn hside
  | res => exact Nat.mul_ne_zero hn hside
  | alpha => exact Nat.mul_ne_zero hn hmodes
  | div =>
    simp only [Object.asks, Bool.and_eq_true, decide_eq_true_eq] at hq
    exact Nat.mul_ne_zero hq.1 (pow_ne_zero 2 hpp)

theorem storedSize_ne_zero {o : Object} {q : Quantity} (h : o.SetUp nModes) (hq : o.asks q = true) :
    o.storedSize nModes q ≠ 0 := by
  obtain ⟨hps, hpp, -, -⟩ := h.bounds
  have hmodes : nModes.toNat ≠ 0 := fun hzero => h.modes (BitVec.eq_of_toNat_eq hzero)
  have hside : o.patchSize.toNat ^ 2 ≠ 0 := pow_ne_zero 2 (by omega)
  have hmax : ∀ n, max 1 n ≠ 0 := fun n => by omega
  cases q with
  | img => exact hside
  | psf => exact Nat.mul_ne_zero (hmax _) hside
  | cobj => exact Nat.mul_ne_zero (hmax _) hside
  | res => exact Nat.mul_ne_zero (hmax _) hside
  | alpha => exact Nat.mul_ne_zero (hmax _) hmodes
  | div =>
    simp only [Object.asks, Bool.and_eq_true, decide_eq_true_eq] at hq
    exact Nat.mul_ne_zero hq.1 (pow_ne_zero 2 hpp)

/-- **The sizes are the same** if what they are made of is. -/
theorem sizes_iff (hs : src.stored.SetUp nModes) (hr : src.restored.SetUp nModes) (hn : src.imgCount ≠ 0) :
    ((∀ q, (if src.restored.asks q then src.restored.restoredSize nModes src.imgCount q else 0) =
      if src.stored.asks q then src.stored.storedSize nModes q else 0) ∧
        (src.restored.asks .psf → src.restored.restoredPSF src.imgCount ≠ 0)) ↔ src.Fits := by
  obtain ⟨hps, hpp, -, -⟩ := hs.bounds
  have hmodes : 0 < nModes.toNat := Nat.pos_of_ne_zero fun hzero => hs.modes (BitVec.eq_of_toNat_eq hzero)
  have hsquare : 0 < src.stored.patchSize.toNat ^ 2 := pow_pos (by omega) 2
  constructor
  · rintro ⟨hall, hpsf⟩
    have hside : src.restored.side = src.stored.patchSize.toNat := Nat.pow_left_injective (by decide) (hall .img)
    have hasks : ∀ q, src.restored.asks q = src.stored.asks q := by
      intro q
      have hq := hall q
      by_cases hrq : src.restored.asks q = true <;> by_cases hsq : src.stored.asks q = true
      · rw [hrq, hsq]
      · rw [if_pos hrq, if_neg hsq] at hq
        exact absurd hq (restoredSize_ne_zero hr hn (fun h => hpsf (h ▸ hrq)) hrq)
      · rw [if_neg hrq, if_pos hsq] at hq
        exact absurd hq.symm (storedSize_ne_zero hs hsq)
      · rw [Bool.eq_false_iff.2 hrq, Bool.eq_false_iff.2 hsq]
    have hsize : ∀ q, src.stored.asks q → src.restored.restoredSize nModes src.imgCount q =
        src.stored.storedSize nModes q := by
      intro q hsq
      have hq := hall q
      rwa [if_pos hsq, if_pos ((hasks q).trans hsq)] at hq
    refine ⟨hn, hside, hasks, fun h => ?_, ?_, fun h => hsize .div h⟩
    · have heq : _ * src.restored.side ^ 2 = _ := hsize .psf h
      rw [hside] at heq
      exact Nat.eq_of_mul_eq_mul_right hsquare heq
    · rintro (h | h | h)
      · have heq : _ * src.restored.side ^ 2 = _ := hsize .cobj h
        rw [hside] at heq
        exact Nat.eq_of_mul_eq_mul_right hsquare heq
      · have heq : _ * src.restored.side ^ 2 = _ := hsize .res h
        rw [hside] at heq
        exact Nat.eq_of_mul_eq_mul_right hsquare heq
      · exact Nat.eq_of_mul_eq_mul_right hmodes (hsize .alpha h)
  · rintro ⟨-, hside, hasks, hpsf, hcount, hdiv⟩
    have hside : src.restored.side = src.stored.patchSize.toNat := hside
    refine ⟨fun q => ?_, fun h => ?_⟩
    · rw [hasks q]
      refine if_ctx_congr Iff.rfl (fun hq => ?_) fun _ => rfl
      cases q with
      | img => exact congrArg (· ^ 2) hside
      | psf => exact congrArg₂ (fun n k => n * k ^ 2) (hpsf hq) hside
      | cobj => exact congrArg₂ (fun n k => n * k ^ 2) (hcount (.inl hq)) hside
      | res => exact congrArg₂ (fun n k => n * k ^ 2) (hcount (.inr (.inl hq))) hside
      | alpha => exact congrArg (· * nModes.toNat) (hcount (.inr (.inr hq)))
      | div => exact hdiv hq
    · rw [hpsf ((hasks .psf).symm.trans h)]
      omega

/-- **All results of a slave are received** if there are images to restore, as many as `nObjectImages` says where
they are stored one by one, and the objects agree in their sizes and in what they ask for. -/
theorem copied_iff (src : Source) (hs : src.stored.SetUp nModes) (hr : src.restored.SetUp nModes)
    (hd : src.stored.getStorage nModes g index .new = some d) : src.Copied nModes d ↔ src.Fits := by
  have hsize := nElements_storage hs hd
  have hlt : src.imgCount < 2 ^ 32 := length_images_lt _
  by_cases himages : src.restored.images src.waveFrontList = []
  · refine iff_of_false ?_ fun h => h.images (congrArg List.length himages)
    rintro ⟨r, hrestore, hreceived⟩
    rw [Object.restorePatch, if_pos himages] at hrestore
    obtain rfl := Option.some.inj hrestore
    have hzero : (0 : ℕ) = (d .img).nElements := received_iff.1 hreceived .img
    exact storedSize_ne_zero hs (q := .img) rfl (hzero.trans (hsize .img)).symm
  · have hn : src.imgCount ≠ 0 := fun hzero => himages (List.length_eq_zero_iff.1 hzero)
    rw [← sizes_iff hs hr hn]
    constructor
    · rintro ⟨r, hrestore, hreceived⟩
      have hall := (restorePatch_eq himages).1 hrestore
      exact ⟨fun q => (restore_some hr hn hlt (hall q)).1.symm.trans ((received_iff.1 hreceived q).trans (hsize q)),
        fun h => (restore_some hr hn hlt (hall .psf)).2 h rfl⟩
    · rintro ⟨hall, hpsf⟩
      have hexists : ∀ q, ∃ a, src.restored.restore nModes src.imgCount q = some a := by
        intro q
        by_cases hq : src.restored.asks q = true
        · rcases exists_restore hr hn hlt hq with ⟨rfl, hzero, -⟩ | ⟨-, a, ha, -⟩
          · exact absurd hzero (hpsf hq)
          · exact ⟨a, ha⟩
        · exact ⟨_, restore_of_not_asks hq⟩
      choose r hrestore using hexists
      refine ⟨r, (restorePatch_eq himages).2 hrestore, received_iff.2 fun q => ?_⟩
      rw [(restore_some hr hn hlt (hrestore q)).1, hall q, hsize q]

/-- An object all of whose channels are restored, for a patch that is no larger than the OTF. -/
theorem fits_of_restored {o : Object} (hchannels : ∀ ch ∈ o.channels, ch.noRestore = false)
    (hcount : o.nObjectImages.toNat = o.nImages) (hne : o.nImages ≠ 0) (hside : o.patchSize.toNat ≤ o.otfSize)
    (hpsf : o.asks .psf → o.nPSF ≠ 0) : (Source.object o).Fits := by
  have himages : (Source.object o).imgCount = o.nImages := by
    have hall : (o.channels.filter fun ch => !ch.noRestore) = o.channels :=
      List.filter_eq_self.2 fun ch hch => by rw [hchannels ch hch]; rfl
    change (o.images (o.channels.flatMap Channel.waveFrontList)).length = _
    rw [Object.images, hall, List.length_flatMap]
    refine congrArg List.sum (List.map_congr_left fun ch hch => ?_)
    rw [List.filter_eq_self.2 fun w hw => decide_eq_true (List.mem_flatMap.2 ⟨ch, hch, hw⟩)]
  have hmax : max 1 o.nObjectImages.toNat = (Source.object o).imgCount := by omega
  refine ⟨himages ▸ hne, min_eq_left hside, fun _ => rfl, fun hq => ?_, fun _ => hmax.symm, fun _ => rfl⟩
  have hnPSF : o.restoredPSF (Source.object o).imgCount = o.nPSF := by
    rw [himages, ← hcount, Object.restoredPSF, Object.nPSF, BitVec.toNat_setWidth]
  have hpos := hpsf hq
  change o.restoredPSF (Source.object o).imgCount = max 1 o.nPSF
  omega

/-- Two channels with an image each, of which the second has `NO_RESTORE` if so asked; convolved objects are stored. -/
def twoChannels (noRestore : Bool) : Object :=
  ⟨SF_SAVE_COBJ, 4, 2, 2, [⟨false, [0], Nat.one_lt_two_pow (by decide)⟩,
    ⟨noRestore, [0], Nat.one_lt_two_pow (by decide)⟩], show 2 < 2 ^ 16 by decide⟩

theorem twoChannels_setUp (noRestore : Bool) : (twoChannels noRestore).SetUp 1 :=
  ⟨by decide, 0, show calculatePupilSize 4 0 = some 2 by decide +kernel⟩

def onePatch : Grid := ⟨1, 1, false, Nat.one_pos, Nat.one_pos⟩

theorem twoChannels_stored (noRestore : Bool) :
    ∃ d, (twoChannels noRestore).getStorage 1 onePatch (0, 0) .new = some d := by
  obtain ⟨d, hd, -⟩ := @exists_getStorage 1 (twoChannels noRestore) onePatch (0, 0) 48 (by cases noRestore <;> decide)
    (by decide) (by decide) (by decide) .new
  exact ⟨d, hd⟩

/-- Both are received if both are restored. -/
theorem twoChannels_copied : ∃ d, (twoChannels false).getStorage 1 onePatch (0, 0) .new = some d ∧
    (Source.object (twoChannels false)).Copied 1 d := by
  obtain ⟨d, hd⟩ := twoChannels_stored false
  exact ⟨d, hd, (copied_iff (.object (twoChannels false)) (twoChannels_setUp false) (twoChannels_setUp false) hd).2
    (fits_of_restored (by decide) rfl (by decide) (by decide) (by decide))⟩

/-- The convolved object of the one that is restored does not fit in the room for two. -/
theorem twoChannels_not_copied : ¬ ∀ nModes (o : Object) g index d, o.SetUp nModes →
    o.nObjectImages.toNat = o.nImages → o.getStorage nModes g index .new = some d →
      (Source.object o).Copied nModes d := by
  intro h
  obtain ⟨d, hd⟩ := twoChannels_stored true
  obtain ⟨r, hrestore, hreceived⟩ := h 1 (twoChannels true) onePatch (0, 0) d (twoChannels_setUp true) rfl hd
  have himages : (Source.object (twoChannels true)).restored.images (Source.object (twoChannels true)).waveFrontList =
      [0] := by decide
  have hcobj := (restorePatch_eq (by rw [himages]; decide)).1 hrestore .cobj
  rw [himages] at hcobj
  have hsent := (restore_some (twoChannels_setUp true) one_ne_zero (by decide) hcobj).1
  have hstored := nElements_storage (twoChannels_setUp true) hd .cobj
  have heq := hsent.symm.trans ((received_iff.1 hreceived .cobj).trans hstored)
  exact absurd heq (by decide)

end Received

end Redux.Momfbd.Results
