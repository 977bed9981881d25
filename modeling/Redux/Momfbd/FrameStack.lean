import Redux.Lib.Layout
import Redux.Momfbd.FrameLists
import Redux.Util.ArrayCopy
import Redux.Util.ArrayFrames

/-!
# Momfbd.FrameStack — the frames of a channel in its stack of images

`loadData` posts a task for each file, with the number of frames of the files before it, and `loadFile` opens
the file and copies what is left of it to the stack from there on.  The files, the slots and the wavefronts are
those that `checkData` found for a condition on the configuration (`framesKept_iff`).
-/

namespace Redux.Momfbd.Frames

open Redux.Lib.Layout Redux.Util

/-! ## Model -/

namespace Channel

variable {Name T : Type} (c : Channel Name T)

/-- The pixels of an image. -/
def pixels : ℕ := c.imgSizeY.toNat * c.imgSizeX.toNat

/-- The stack of images as it is allocated; nothing, if there cannot be as much memory. -/
def images (s : State) : Option Arrays.Array :=
  if 4 * (s.nTotalFrames.toNat * c.pixels) < 2 ^ 63 then
    some (.construct [s.nTotalFrames.toNat, c.imgSizeY.toNat, c.imgSizeX.toNat])
  else none

/-- The name of the file that is opened; it throws if there is no such number. -/
def opened (s : State) (fileIndex : ℕ) : Option Name := s.fileNumbers[fileIndex]?.bind c.format

/-- `view.assign( .. )`: to the frames from `offset` on, some frames of the file or all that is in it. -/
def assignFrames [Zero T] (images : Arrays.Array) (file : File T) (nF offset : ℕ) (stack : ℤ → T) : Option (ℤ → T) :=
  let memory : Arrays.Cell → T := fun cell => if cell.1 = 0 then stack cell.2 else file.pixels cell.2.toNat
  (images.subArray [offset, offset + nF - 1, 0, c.imgSizeY.toNat - 1, 0, c.imgSizeX.toNat - 1]).bind fun view =>
    (if 1 < nF then (Arrays.Array.construct file.dims).subArray [c.discardFirst.toNat, c.discardFirst.toNat + nF - 1,
        0, c.imgSizeY.toNat - 1, 0, c.imgSizeX.toNat - 1]
      else some (.construct file.dims)).bind fun tmpImg =>
    (Arrays.View.perform ⟨view, 0⟩ memory (.assign ⟨tmpImg, 1⟩)).map fun memory p => memory (0, p)

/-- `Channel::loadFile`, for the contents of the stack. -/
def loadFile [Zero T] (s : State) (fileIndex offset : ℕ) (stack : ℤ → T) : Option (ℤ → T) :=
  (c.opened s fileIndex).bind fun fn => (c.disk fn).join.bind fun file => (c.images s).bind fun images =>
    c.assignFrames images file (s.nFrames.getD fileIndex 0) offset stack

/-- `nFiles`. -/
def nFiles (s : State) : ℕ := max 1 s.fileNumbers.length

/-- `nPreviousFrames`, for the task of a file. -/
def nPreviousFrames (s : State) (i : ℕ) : ℕ := (s.nFrames.take i).sum

end Channel

/-! ## Bookkeeping -/

/-- The sizes of a frame. -/
def File.frameSize {T : Type} (file : File T) : List ℕ :=
  match file.dims with
  | [_, h, w] => [h, w]
  | dims => dims

section Bookkeeping

variable {Name T : Type} [Zero T] (c : Channel Name T) (s : State)

/-- The file that `checkData` looks at. -/
def Channel.validated (i : ℕ) : Option Name :=
  if s.fileNumbers = [] then some c.imageTemplate
  else s.fileNumbers[i]?.bind fun n => c.format (n + c.imageNumberOffset)

/-- `left` frames of a file, behind those that are discarded, are in the stack from the slot `i` on, and all else
is as it was. -/
structure Reads (file : File T) (i left : ℕ) (stack stack' : ℤ → T) : Prop where
  frames : ∀ t < left * c.pixels, stack' (i * c.pixels + t : ℕ) = file.pixels (c.discardFirst.toNat * c.pixels + t)
  others : ∀ p : ℤ, p < (i * c.pixels : ℕ) ∨ ((i + left) * c.pixels : ℕ) ≤ p → stack' p = stack p

/-- A file is loaded: its frames are as large as the images, its number of frames is that of those left after the
discards, and they are read to the slots behind those of the files before it, whatever there is in the stack. -/
def Loads (i : ℕ) : Prop :=
  ∃ file, ((c.validated s i).bind c.disk).join = some file ∧ s.nFrames[i]? = some (c.left file) ∧
    file.frameSize = [c.imgSizeY.toNat, c.imgSizeX.toNat] ∧
    ∀ stack, ∃ stack', c.loadFile s i (Channel.nPreviousFrames s i) stack = some stack' ∧
      Reads c file (Channel.nPreviousFrames s i) (c.left file) stack stack'

/-- The slots of the files. -/
def slots : List Block :=
  (List.range (Channel.nFiles s)).map fun i => ⟨Channel.nPreviousFrames s i, s.nFrames.getD i 0⟩

/-- The files that are opened are those that were checked, their frames are read to slots that are apart and
together all there are, there is a wavefront for each frame, and a second check leaves it at that. -/
structure Kept : Prop where
  opened : ∀ i < Channel.nFiles s, c.opened s i = c.validated s i
  loaded : ∀ i < Channel.nFiles s, Loads c s i
  slots : Fill (slots s) 0 s.nTotalFrames.toNat
  waveFronts : s.waveFrontList.length = s.nTotalFrames.toNat
  again : c.checkData s = .accepted s

/-- The bookkeeping of the frames of a channel. -/
def Channel.FramesKept : Prop := ∃ s, c.checkData c.start = .accepted s ∧ Kept c s

end Bookkeeping

/-! ## When it is right -/

section Fits

variable {Name T : Type} (c : Channel Name T)

/-- An image without discards, or a cube with at least two frames left or with one frame only, as large as the
images of the channel. -/
def FrameFits (file : File T) : Prop :=
  file.dims = [c.imgSizeY.toNat, c.imgSizeX.toNat] ∧ c.discard = 0 ∨
    ∃ k, file.dims = [k, c.imgSizeY.toNat, c.imgSizeX.toNat] ∧ (c.discard + 2 ≤ k ∨ k = 1 ∧ c.discard = 0)

/-- The frames that are left of the file of a number, and how many numbers of frames. -/
def Channel.count (n : BitVec 32) : ℕ := ((c.file n).map c.left).getD 0

def Channel.entries (n : BitVec 32) : ℕ :=
  ((c.file n).map fun file => (file.frameNumbers (n + c.imageNumberOffset).toNat).length - c.discard).getD 0

/-- There are numbers, whose files do not depend on the offset and fit; the stack can be allocated; and there are
as many numbers of frames as frames, or one frame for each file, all of which have the number 0. -/
structure Fits (ns : List (BitVec 32)) : Prop where
  numbers : ns ≠ []
  names : ∀ n ∈ ns, c.format n = c.format (n + c.imageNumberOffset)
  files : ∀ n ∈ ns, ∃ file, c.file n = some file ∧ FrameFits c file ∧
    c.discard ≤ (file.frameNumbers (n + c.imageNumberOffset).toNat).length
  size : c.pixels ≠ 0
  total : (ns.map c.count).sum < 2 ^ 32
  memory : 4 * ((ns.map c.count).sum * c.pixels) < 2 ^ 63
  waveFronts : if (ns.map c.count).sum = ns.length then ∀ n ∈ ns, n = 0
    else (ns.map c.entries).sum = (ns.map c.count).sum

end Fits

/-! ## Reading -/

section Reading

variable {Name T : Type} {c : Channel Name T} {file : File T} {n nF offset : ℕ}

open Redux.Util.Arrays

theorem left_of_image {h w : ℕ} (hdims : file.dims = [h, w]) : c.left file = 1 - c.discard := by
  rw [Channel.left, File.frames, hdims]

theorem left_of_cube {k h w : ℕ} (hdims : file.dims = [k, h, w]) : c.left file = k - c.discard := by
  rw [Channel.left, File.frames, hdims]

section Assign

variable [Zero T] {images view tmpImg : Array} {stack : ℤ → T}

/-- The memory of the stack and of the file. -/
def memoryOf (file : File T) (stack : ℤ → T) : Cell → T :=
  fun cell => if cell.1 = 0 then stack cell.2 else file.pixels cell.2.toNat

/-- What is assigned from a view of the file to a view of the stack. -/
theorem assign_eq (hview : view.Good) (htmp : tmpImg.Good) (hcount : view.nElements_ = tmpImg.nElements_) :
    ∃ stack', (View.perform ⟨view, 0⟩ (memoryOf file stack) (.assign ⟨tmpImg, 1⟩)).map (fun memory p => memory (0, p)) =
        some stack' ∧ view.elements.map stack' = tmpImg.elements.map (fun p => file.pixels p.toNat) ∧
      ∀ p ∉ view.elements, stack' p = stack p := by
  have hblock : (⟨view, 0⟩ : View).block ≠ (⟨tmpImg, 1⟩ : View).block := Nat.zero_ne_one
  obtain ⟨helements, hothers⟩ := (@View.copies_iff T ⟨view, 0⟩ ⟨tmpImg, 1⟩ id hview htmp hcount).2
    (.inr (Redux.Lib.ahead_of_disjoint (View.cells_disjoint hblock))) (memoryOf file stack)
  refine ⟨_, congrArg (Option.map _) (View.perform_assign hview htmp hcount _), ?_, fun p hp => hothers (0, p) ?_⟩
  · rw [View.cells, View.cells, List.map_map, List.map_map] at helements
    exact helements
  · rw [View.cells, List.mem_map]
    rintro ⟨q, hq, heq⟩
    exact hp ((Prod.mk.inj heq).2 ▸ hq)

theorem assign_none (hcount : view.nElements_ ≠ tmpImg.nElements_) :
    (View.perform ⟨view, 0⟩ (memoryOf file stack) (.assign ⟨tmpImg, 1⟩)).map (fun memory p => memory (0, p)) = none :=
  congrArg (Option.map _) (if_neg (mt View.sameSize_iff.1 hcount))

end Assign

theorem pixels_pos (h : c.pixels ≠ 0) : 0 < c.imgSizeY.toNat ∧ 0 < c.imgSizeX.toNat :=
  ⟨Nat.pos_of_ne_zero fun hzero => h (by rw [Channel.pixels, hzero, Nat.zero_mul]),
    Nat.pos_of_ne_zero fun hzero => h (by rw [Channel.pixels, hzero, Nat.mul_zero])⟩

/-- The part of a file that is assigned, if there are any frames. -/
theorem exists_part (hsize : c.pixels ≠ 0) (hfits : FrameFits c file) : ∃ tmpImg,
    (if 1 < c.left file then (Array.construct file.dims).subArray [c.discardFirst.toNat,
        c.discardFirst.toNat + c.left file - 1, 0, c.imgSizeY.toNat - 1, 0, c.imgSizeX.toNat - 1]
      else some (.construct file.dims)) = some tmpImg ∧ tmpImg.Good ∧ tmpImg.nElements_ = c.left file * c.pixels ∧
      tmpImg.elements = (List.range (c.left file * c.pixels)).map fun i : ℕ =>
        ((c.discardFirst.toNat * c.pixels + i : ℕ) : ℤ) := by
  obtain ⟨hy, hx⟩ := pixels_pos hsize
  have hsum : c.discard = c.discardFirst.toNat + c.discardLast.toNat := rfl
  have hbound := file.fits
  rcases hfits with ⟨hdims, hzero⟩ | ⟨k, hdims, hk⟩
  · have hpos : ∀ n ∈ [c.imgSizeY.toNat, c.imgSizeX.toNat], 0 < n := by simp; omega
    have hprod : [c.imgSizeY.toNat, c.imgSizeX.toNat].prod = c.pixels := by simp [Channel.pixels]
    have hleft : c.left file = 1 := by rw [left_of_image hdims, hzero]
    rw [hdims, List.filter_eq_self.2 fun n hn => decide_eq_true (hpos n hn).ne'] at hbound
    obtain ⟨hgood, hcount, helements⟩ := Array.elements_construct (List.cons_ne_nil _ _) hpos hbound
    have hfirst : c.discardFirst.toNat = 0 := by omega
    rw [hleft, if_neg (by decide), hdims, Nat.one_mul, hfirst, Nat.zero_mul]
    rw [hprod] at hcount helements
    refine ⟨_, rfl, hgood, hcount, helements.trans (List.map_congr_left fun i _ => ?_)⟩
    rw [Nat.zero_add]
  · have hpos : ∀ n ∈ [k, c.imgSizeY.toNat, c.imgSizeX.toNat], 0 < n := by simp; omega
    have hprod : [k, c.imgSizeY.toNat, c.imgSizeX.toNat].prod = k * c.pixels := by simp [Channel.pixels]
    have hleft := left_of_cube (c := c) hdims
    rw [hdims, List.filter_eq_self.2 fun n hn => decide_eq_true (hpos n hn).ne'] at hbound
    rcases hk with hk | ⟨rfl, hzero⟩
    · have hlast : c.discardFirst.toNat + c.left file - 1 + 1 - c.discardFirst.toNat = c.left file := by omega
      obtain ⟨v, hv, hgood, hcount, helements⟩ := @Array.exists_frames k c.discardFirst.toNat
        (c.discardFirst.toNat + c.left file - 1) _ _ hy hx (hprod ▸ hbound) (by omega) (by omega)
      rw [hlast] at hcount helements
      refine ⟨v, ?_, hgood, hcount, helements⟩
      rw [if_pos (by omega), hdims, ← hv]
      have hcast : ((c.discardFirst.toNat + c.left file - 1 : ℕ) : ℤ) = c.discardFirst.toNat + c.left file - 1 := by
        omega
      rw [hcast]
    · obtain ⟨hgood, hcount, helements⟩ := Array.elements_construct (List.cons_ne_nil _ _) hpos hbound
      have hfirst : c.discardFirst.toNat = 0 := by omega
      have hone : c.left file = 1 := by omega
      rw [hone, if_neg (by decide), hdims, Nat.one_mul, hfirst, Nat.zero_mul]
      rw [hprod, Nat.one_mul] at hcount helements
      refine ⟨_, rfl, hgood, hcount, helements.trans (List.map_congr_left fun i _ => ?_)⟩
      rw [Nat.zero_add]

theorem FrameFits.left_pos (h : FrameFits c file) : 0 < c.left file := by
  rcases h with ⟨hdims, hzero⟩ | ⟨k, hdims, hk⟩
  · rw [left_of_image hdims, hzero]
    exact Nat.one_pos
  · rw [left_of_cube hdims]
    omega

/-- **A file that fits is read.** -/
theorem reads_of_fits [Zero T] (hsize : c.pixels ≠ 0) (hfits : FrameFits c file) (hin : offset + c.left file ≤ n)
    (hmemory : n * c.pixels < 2 ^ 63) (stack : ℤ → T) : ∃ stack',
      c.assignFrames (.construct [n, c.imgSizeY.toNat, c.imgSizeX.toNat]) file (c.left file) offset stack =
        some stack' ∧ Reads c file offset (c.left file) stack stack' := by
  obtain ⟨hy, hx⟩ := pixels_pos hsize
  have hleft := hfits.left_pos
  obtain ⟨tmpImg, htmp, hgood, hcount, helements⟩ := exists_part hsize hfits
  obtain ⟨view, hview, hgood', hcount', helements'⟩ :=
    @Array.exists_frames n offset (offset + c.left file - 1) _ _ hy hx hmemory (by omega) (by omega)
  have hlast : offset + c.left file - 1 + 1 - offset = c.left file := by omega
  have hcast : ((offset + c.left file - 1 : ℕ) : ℤ) = offset + c.left file - 1 := by omega
  rw [hlast] at hcount' helements'
  rw [hcast] at hview
  obtain ⟨stack', hassign, hmap, hothers⟩ :=
    @assign_eq T file _ view tmpImg stack hgood' hgood (hcount'.trans hcount.symm)
  refine ⟨stack', ?_, fun t ht => ?_, fun p hp => hothers p ?_⟩
  · unfold Channel.assignFrames
    rw [hview, Option.bind_some, htmp, Option.bind_some]
    exact hassign
  · rw [helements, helements', List.map_map, List.map_map] at hmap
    have ht' := List.map_inj_left.1 hmap t (List.mem_range.2 ht)
    rw [Function.comp_apply, Function.comp_apply, Int.toNat_natCast] at ht'
    exact ht'
  · rw [helements', List.mem_map]
    rintro ⟨i, hi, rfl⟩
    have hi := List.mem_range.1 hi
    have hmul : (offset + c.left file) * c.pixels = offset * c.pixels + c.left file * c.pixels := Nat.add_mul _ _ _
    have hpixels : c.imgSizeY.toNat * c.imgSizeX.toNat = c.pixels := rfl
    rw [hpixels] at hi hp
    omega

/-- A view of a stack without pixels or frames throws. -/
theorem pixels_of_view {view : Array} {p q r t u v : ℤ}
    (h : (Array.construct [n, c.imgSizeY.toNat, c.imgSizeX.toNat]).subArray [p, q, r, t, u, v] = some view) :
    n ≠ 0 ∧ c.pixels ≠ 0 := by
  by_contra hzero
  have hfew : (Array.construct [n, c.imgSizeY.toNat, c.imgSizeX.toNat]).dims.length < 3 := by
    rw [Array.dims_length]
    refine List.length_filter_lt_length_iff_exists.2 ?_
    by_cases hn : n = 0
    · exact ⟨n, List.mem_cons_self, by simp [hn]⟩
    · rcases Nat.mul_eq_zero.1 (not_not.1 (not_and.1 hzero hn)) with hy | hx
      · exact ⟨_, List.mem_cons_of_mem _ List.mem_cons_self, by simp [hy]⟩
      · exact ⟨_, List.mem_cons_of_mem _ (List.mem_cons_of_mem _ List.mem_cons_self), by simp [hx]⟩
  exact Option.some_ne_none _ (h.symm.trans (Array.subArray_of_few hfew _ _ _ _ _ _))

theorem eq_of_frameSize (h : file.frameSize = [c.imgSizeY.toNat, c.imgSizeX.toNat]) :
    file.dims = [c.imgSizeY.toNat, c.imgSizeX.toNat] ∨ ∃ k, file.dims = [k, c.imgSizeY.toNat, c.imgSizeX.toNat] := by
  unfold File.frameSize at h
  split at h
  · rename_i k h' w hdims
    exact .inr ⟨k, by rw [hdims, h]⟩
  · exact .inl h

/-- The views that frames are copied between. -/
theorem views_of_assignFrames [Zero T] {container : Array} {left : ℕ} {stack stack' : ℤ → T}
    (h : c.assignFrames container file left offset stack = some stack') : ∃ view tmpImg,
      container.subArray [offset, offset + left - 1, 0, c.imgSizeY.toNat - 1, 0, c.imgSizeX.toNat - 1] = some view ∧
      (if 1 < left then (Array.construct file.dims).subArray [c.discardFirst.toNat,
        c.discardFirst.toNat + left - 1, 0, c.imgSizeY.toNat - 1, 0, c.imgSizeX.toNat - 1]
      else some (.construct file.dims)) = some tmpImg ∧
      (View.perform ⟨view, 0⟩ (memoryOf file stack) (.assign ⟨tmpImg, 1⟩)).map (fun memory p => memory (0, p)) =
        some stack' := by
  obtain ⟨view, hview, h⟩ := Option.bind_eq_some_iff.1 h
  obtain ⟨tmpImg, htmp, h⟩ := Option.bind_eq_some_iff.1 h
  exact ⟨view, tmpImg, hview, htmp, h⟩

/-- What is copied has as many elements as the frames it is copied to. -/
theorem nElements_of_perform [Zero T] {view tmpImg : Array} {stack stack' : ℤ → T}
    (h : (View.perform ⟨view, 0⟩ (memoryOf file stack) (.assign ⟨tmpImg, 1⟩)).map (fun memory p => memory (0, p)) =
      some stack') : view.nElements_ = tmpImg.nElements_ := by
  by_contra hne
  exact Option.some_ne_none _ (h.symm.trans (assign_none hne))

/-- Where no frame of a file is left, some frame of the stack is written nonetheless. -/
theorem left_ne_zero_of_reads [Zero T] [Nontrivial T] {container view : Array} (hgood : view.Good)
    (hview : container.subArray [offset, offset + c.left file - 1, 0, c.imgSizeY.toNat - 1, 0,
      c.imgSizeX.toNat - 1] = some view)
    (hreads : ∀ stack : ℤ → T, ∃ stack', c.assignFrames container file (c.left file) offset stack = some stack' ∧
      Reads c file offset (c.left file) stack stack') : c.left file ≠ 0 := by
  intro hzero
  have hwhole : ∀ stack stack' : ℤ → T, c.assignFrames container file (c.left file) offset stack = some stack' →
      (View.perform ⟨view, 0⟩ (memoryOf file stack) (.assign ⟨.construct file.dims, 1⟩)).map
        (fun memory p => memory (0, p)) = some stack' := fun stack stack' h => by
    obtain ⟨view', tmpImg, hview', htmp, hassign⟩ := views_of_assignFrames h
    rw [hzero, if_neg (by decide)] at htmp
    obtain rfl := Option.some.inj htmp
    obtain rfl := Option.some.inj (hview.symm.trans hview')
    exact hassign
  have hcount : view.nElements_ = (Array.construct file.dims).nElements_ := by
    obtain ⟨stack', hassign, -⟩ := hreads fun _ => file.pixels 0
    exact nElements_of_perform (hwhole _ _ hassign)
  have hgood' : (Array.construct file.dims).Good := by
    refine (Array.construct_good file.fits).resolve_right fun hnil => ?_
    rw [hnil] at hcount
    exact hgood.nElements_pos.ne' hcount
  obtain ⟨p, hp⟩ := List.exists_mem_of_length_pos (by rw [hgood.length_elements]; exact hgood.nElements_pos)
  obtain ⟨i, hi, hpi⟩ := List.mem_iff_getElem.1 hp
  have hi' : i < (Array.construct file.dims).elements.length := by
    rwa [hgood'.length_elements, ← hcount, ← hgood.length_elements]
  -- the stack holds something else there before
  obtain ⟨z, hz⟩ := exists_ne (file.pixels ((Array.construct file.dims).elements[i].toNat))
  obtain ⟨stack', hassign, hread⟩ := hreads fun _ => z
  obtain ⟨stack'', hassign', hmap, -⟩ := @assign_eq T file _ view _ (fun _ => z) hgood hgood' hcount
  obtain rfl := Option.some.inj ((hwhole _ _ hassign).symm.trans hassign')
  have hwritten : stack' p = file.pixels ((Array.construct file.dims).elements[i].toNat) := by
    have := congrArg (·[i]?) hmap
    simp only [List.getElem?_map, List.getElem?_eq_getElem hi', List.getElem?_eq_getElem hi, hpi, Option.map_some,
      Option.some.injEq] at this
    exact this
  have hkept := hread.others p (by rw [hzero, Nat.add_zero]; omega)
  exact hz (hkept.symm.trans hwritten)

/-- Where one frame of a cube is left it is the only one, since the whole cube is copied. -/
theorem frames_of_left_one {k : ℕ} {view : Array} (hdims : file.dims = [k, c.imgSizeY.toNat, c.imgSizeX.toNat])
    (hk : k ≠ 0) (hsize : c.pixels ≠ 0) (hmemory : n * c.pixels < 2 ^ 63) (hin : offset + 1 ≤ n)
    (hview : (Array.construct [n, c.imgSizeY.toNat, c.imgSizeX.toNat]).subArray [offset, offset + (1 : ℕ) - 1, 0,
      c.imgSizeY.toNat - 1, 0, c.imgSizeX.toNat - 1] = some view)
    (hcount : view.nElements_ = (Array.construct file.dims).nElements_) : k = 1 := by
  obtain ⟨hy, hx⟩ := pixels_pos hsize
  have hpos : ∀ m ∈ [k, c.imgSizeY.toNat, c.imgSizeX.toNat], 0 < m := by simp; omega
  have hbound := file.fits
  rw [hdims, List.filter_eq_self.2 fun n hn => decide_eq_true (hpos n hn).ne'] at hbound
  have hfile := (Array.elements_construct (List.cons_ne_nil _ _) hpos hbound).2.1
  obtain ⟨view', hview', -, hcount', -⟩ := @Array.exists_frames n offset offset _ _ hy hx hmemory le_rfl (by omega)
  have hlast : (offset : ℤ) + (1 : ℕ) - 1 = offset := by omega
  rw [hlast] at hview
  obtain rfl := Option.some.inj (hview.symm.trans hview')
  have hprod : [k, c.imgSizeY.toNat, c.imgSizeX.toNat].prod = k * c.pixels := by simp [Channel.pixels]
  rw [hdims, hfile, hprod, hcount'] at hcount
  have hframes : (offset + 1 - offset) * c.pixels = k * c.pixels := hcount
  have := Nat.eq_of_mul_eq_mul_right (Nat.pos_of_ne_zero hsize) hframes
  omega

/-- **A file that is read fits.**  Where no frame is left, some slot is written nonetheless, and where one of many
is left there are too many elements. -/
theorem fits_of_reads [Zero T] [Nontrivial T] (hframe : file.frameSize = [c.imgSizeY.toNat, c.imgSizeX.toNat])
    (hmemory : n * c.pixels < 2 ^ 63) (hin : offset + c.left file ≤ n)
    (hreads : ∀ stack : ℤ → T, ∃ stack',
      c.assignFrames (.construct [n, c.imgSizeY.toNat, c.imgSizeX.toNat]) file (c.left file) offset stack =
        some stack' ∧ Reads c file offset (c.left file) stack stack') : c.pixels ≠ 0 ∧ FrameFits c file := by
  obtain ⟨stack', hassign, -⟩ := hreads 0
  obtain ⟨view, tmpImg, hview, htmp, hassign⟩ := views_of_assignFrames hassign
  obtain ⟨hn, hsize⟩ := pixels_of_view hview
  obtain ⟨hy, hx⟩ := pixels_pos hsize
  have hprod : [n, c.imgSizeY.toNat, c.imgSizeX.toNat].prod = n * c.pixels := by simp [Channel.pixels]
  have hpos : ∀ m ∈ [n, c.imgSizeY.toNat, c.imgSizeX.toNat], 0 < m := by simp; omega
  have hgood := (Array.elements_construct (List.cons_ne_nil _ _) hpos (by rwa [hprod])).1.subArray hview
  have hleft := left_ne_zero_of_reads hgood hview hreads
  refine ⟨hsize, ?_⟩
  rcases eq_of_frameSize hframe with hdims | ⟨k, hdims⟩
  · refine .inl ⟨hdims, ?_⟩
    have hone := left_of_image (c := c) hdims
    omega
  · refine .inr ⟨k, hdims, ?_⟩
    have hk := left_of_cube (c := c) hdims
    by_cases hone : c.left file = 1
    · rw [hone, if_neg (by decide)] at htmp
      obtain rfl := Option.some.inj htmp
      rw [hone] at hview hin
      have hframes := frames_of_left_one hdims (by omega) hsize hmemory hin hview (nElements_of_perform hassign)
      exact .inr (by omega)
    · exact .inl (by omega)

end Reading

/-! ## Slots -/

section Slots

variable {Name T : Type} {c : Channel Name T} {s : State} {ns : List (BitVec 32)} {xs : List (ℕ × List ℕ)}
  {n : BitVec 32} {file : File T}

/-- **The slots** fill as much as there are frames. -/
theorem fill_slots (h : Channel.nFiles s = s.nFrames.length) :
    Fill (slots s) 0 s.nTotalFrames.toNat ↔ s.nFrames.sum = s.nTotalFrames.toNat := by
  have hslots : slots s = place 0 (s.nFrames.map fun k => (k, k)) := by
    rw [place_same, slots, h]
    exact List.map_congr_left fun i _ => by rw [Nat.zero_add, Channel.nPreviousFrames]
  have hfst : (s.nFrames.map fun k => (k, k)).map Prod.fst = s.nFrames := by
    rw [List.map_map]
    exact List.map_id _
  have hsnd : (s.nFrames.map fun k => (k, k)).map Prod.snd = s.nFrames := by
    rw [List.map_map]
    exact List.map_id _
  rw [hslots]
  constructor
  · intro hfill
    rw [← hfill.sum_size, map_size_place, hsnd]
  · intro hsum
    rw [← hsum]
    have hfill := @fill_place 0 (s.nFrames.map fun k => (k, k)) fun p hp => by
      obtain ⟨k, -, rfl⟩ := List.mem_map.1 hp
      rfl
    rwa [hfst] at hfill

theorem count_of_file (h : c.file n = some file) : c.count n = c.left file := by
  rw [Channel.count, h]
  rfl

/-- The numbers of the frames that are left. -/
theorem length_numbers : ∀ {ns : List (BitVec 32)} {xs : List (ℕ × List ℕ)}, List.Forall₂ (Accepts c 1) ns xs →
    (xs.flatMap Prod.snd).length = (ns.map c.entries).sum
  | [], [], .nil => rfl
  | n :: ns, x :: xs, .cons ⟨file, hfile, hx⟩ h => by
    have hentries : c.entries n = (file.frameNumbers (n + c.imageNumberOffset).toNat).length - c.discard := by
      rw [Channel.entries, hfile]
      rfl
    have henough := hx.enough
    have hsum : c.discard = c.discardFirst.toNat + c.discardLast.toNat := rfl
    rw [List.flatMap_cons, List.length_append, length_numbers h, List.map_cons, List.sum_cons, hentries, hx.numbers,
      Channel.kept, List.length_take, List.length_drop]
    omega

/-- A file that fits is accepted, with the frames that are left of it. -/
theorem accepts_of_fits (hfile : c.file n = some file) (hfits : FrameFits c file)
    (henough : c.discard ≤ (file.frameNumbers (n + c.imageNumberOffset).toNat).length) (hsize : c.pixels ≠ 0) :
    Accepts c 1 n (c.left file, c.kept (file.frameNumbers (n + c.imageNumberOffset).toNat)) := by
  obtain ⟨hy, hx⟩ := pixels_pos hsize
  refine ⟨file, hfile, henough, ?_, rfl⟩
  rcases hfits with ⟨hdims, hzero⟩ | ⟨k, hdims, hk⟩
  · refine .inr ⟨_, _, hdims, ?_⟩
    rw [left_of_image hdims, hzero]
  · refine .inl ⟨k, _, _, hdims, ?_⟩
    have hpos : ∀ m ∈ [k, c.imgSizeY.toNat, c.imgSizeX.toNat], 0 < m := by simp; omega
    have hbound := file.fits
    rw [hdims, List.filter_eq_self.2 fun n hn => decide_eq_true (hpos n hn).ne', List.prod_cons] at hbound
    have hle := Nat.le_mul_of_pos_right k (List.prod_pos fun m hm => hpos m (List.mem_cons_of_mem _ hm))
    have hleft := left_of_cube (c := c) hdims
    dsimp only
    rw [hleft]
    omega

end Slots

/-! ## Bookkeeping -/

section Kept

variable {Name T : Type} [Zero T] {c : Channel Name T} {ns waveFrontList : List (BitVec 32)} {xs : List (ℕ × List ℕ)}
  {n : BitVec 32} {i : ℕ}

omit [Zero T] in
/-- The file of an index is that of its number. -/
theorem file_validated (hn : ns[i]? = some n) :
    ((c.validated (c.lists waveFrontList ns xs) i).bind c.disk).join = c.file n := by
  have hne : ns ≠ [] := fun hnil => by simp [hnil] at hn
  have hvalidated : c.validated (c.lists waveFrontList ns xs) i = c.format (n + c.imageNumberOffset) := by
    change (if ns = [] then some c.imageTemplate else ns[i]?.bind fun n => c.format (n + c.imageNumberOffset)) = _
    rw [if_neg hne, hn]
    rfl
  rw [hvalidated, Channel.file]

/-- A file is loaded, once it is known that its name does not depend on the offset. -/
theorem loads_iff [Nontrivial T] (hn : ns[i]? = some n) (hname : c.format n = c.format (n + c.imageNumberOffset))
    (hcounts : xs.map Prod.fst = ns.map c.count) (htotal : (ns.map c.count).sum < 2 ^ 32) :
    Loads c (c.lists waveFrontList ns xs) i ↔ c.pixels ≠ 0 ∧ 4 * ((ns.map c.count).sum * c.pixels) < 2 ^ 63 ∧
      ∃ file, c.file n = some file ∧ FrameFits c file := by
  have hframes : (c.lists waveFrontList ns xs).nFrames = ns.map c.count := hcounts
  have hat : (ns.map c.count)[i]? = some (c.count n) := by rw [List.getElem?_map, hn]; rfl
  have hnTotal : (c.lists waveFrontList ns xs).nTotalFrames.toNat = (ns.map c.count).sum := by
    change (BitVec.ofNat 32 (xs.map Prod.fst).sum).toNat = _
    rw [hcounts, BitVec.toNat_ofNat, Nat.mod_eq_of_lt htotal]
  have hopened : c.opened (c.lists waveFrontList ns xs) i = c.format (n + c.imageNumberOffset) := by
    change ns[i]?.bind c.format = _
    rw [hn, ← hname]
    rfl
  have hload : ∀ {file : File T}, c.file n = some file → ∀ offset stack,
      c.loadFile (c.lists waveFrontList ns xs) i offset stack = if 4 * ((ns.map c.count).sum * c.pixels) < 2 ^ 63 then
        c.assignFrames (.construct [(ns.map c.count).sum, c.imgSizeY.toNat, c.imgSizeX.toNat]) file (c.left file) offset
          stack else none := by
    intro file hfile offset stack
    obtain ⟨fn, hfn, hdisk⟩ := Option.bind_eq_some_iff.1 (Option.join_eq_some_iff.1 hfile)
    rw [Channel.loadFile, hopened, hfn, Option.bind_some, hdisk, Option.join_some, Option.bind_some, Channel.images,
      hnTotal, hframes, List.getD_eq_getElem?_getD, hat, Option.getD_some, count_of_file hfile]
    split_ifs <;> rfl
  have hle := take_sum_le hat
  constructor
  · rintro ⟨file, hfile, hleft, hframe, hreads⟩
    rw [file_validated hn] at hfile
    have hmemory : 4 * ((ns.map c.count).sum * c.pixels) < 2 ^ 63 := by
      by_contra hlarge
      obtain ⟨stack', hstack', -⟩ := hreads 0
      rw [hload hfile, if_neg hlarge] at hstack'
      exact Option.some_ne_none _ hstack'.symm
    have hcount := count_of_file hfile
    obtain ⟨hsize, hfits⟩ := @fits_of_reads Name T c file (ns.map c.count).sum
      (Channel.nPreviousFrames (c.lists waveFrontList ns xs) i) _ _ hframe (by omega)
      (by rw [Channel.nPreviousFrames, hframes, ← hcount]; exact hle) fun stack => by
        obtain ⟨stack', hstack', hread⟩ := hreads stack
        rw [hload hfile, if_pos hmemory] at hstack'
        exact ⟨stack', hstack', hread⟩
    exact ⟨hsize, hmemory, file, hfile, hfits⟩
  · rintro ⟨hsize, hmemory, file, hfile, hfits⟩
    have hcount := count_of_file hfile
    refine ⟨file, (file_validated hn).trans hfile, ?_, ?_, fun stack => ?_⟩
    · rw [hframes, hat, hcount]
    · rcases hfits with ⟨hdims, -⟩ | ⟨k, hdims, -⟩
      · rw [File.frameSize, hdims]
      · rw [File.frameSize, hdims]
    · rw [hload hfile, if_pos hmemory]
      exact reads_of_fits hsize hfits (by rw [Channel.nPreviousFrames, hframes, ← hcount]; exact hle) (by omega) stack

/-- What is kept of files that fit. -/
theorem kept_of_fits [Nontrivial T] (hns : c.keepPresent c.fileNumbers = .accepted ns) (h : Fits c ns) :
    c.FramesKept := by
  obtain ⟨hne, hnames, hfiles, hsize, htotal, hmemory, hwaves⟩ := h
  have hexists : ∀ n ∈ ns, ∃ x, Accepts c 1 n x ∧ x.1 = c.count n := by
    intro n hn
    obtain ⟨file, hfile, hfits, henough⟩ := hfiles n hn
    exact ⟨_, accepts_of_fits hfile hfits henough hsize, (count_of_file hfile).symm⟩
  choose! entry hentry using hexists
  have haccepts : List.Forall₂ (Accepts c 1) ns (ns.map entry) :=
    List.forall₂_map_right_iff.2 (List.forall₂_same.2 fun n hn => (hentry n hn).1)
  have hcounts : (ns.map entry).map Prod.fst = ns.map c.count := by
    rw [List.map_map]
    exact List.map_congr_left fun n hn => (hentry n hn).2
  have hfrom : c.checkFiles ns [] = .accepted (ns.map entry) := checkFiles_start.2 haccepts
  have hstart : c.checkData c.start = .accepted (c.lists c.waveFrontList ns (ns.map entry)) :=
    checkData_accepted.2 ⟨ns, _, hns, hne, hfrom, rfl⟩
  have hlength : max 1 ns.length = ns.length := max_eq_right (List.length_pos_iff.2 hne)
  have hnFiles : Channel.nFiles (c.lists c.waveFrontList ns (ns.map entry)) = ns.length := hlength
  have hnTotal : (c.lists c.waveFrontList ns (ns.map entry)).nTotalFrames.toNat = (ns.map c.count).sum := by
    change (BitVec.ofNat 32 ((ns.map entry).map Prod.fst).sum).toNat = _
    rw [hcounts, BitVec.toNat_ofNat, Nat.mod_eq_of_lt htotal]
  refine ⟨_, hstart, fun i hi => ?_, fun i hi => ?_, ?_, ?_, ?_⟩
  · rw [hnFiles] at hi
    have hn := List.getElem?_eq_getElem hi
    change ns[i]?.bind c.format =
      if ns = [] then some c.imageTemplate else ns[i]?.bind fun n => c.format (n + c.imageNumberOffset)
    rw [if_neg hne, hn]
    exact hnames _ (List.getElem_mem hi)
  · rw [hnFiles] at hi
    have hmem := List.getElem_mem hi
    obtain ⟨file, hfile, hfits, -⟩ := hfiles _ hmem
    exact (loads_iff (List.getElem?_eq_getElem hi) (hnames _ hmem) hcounts htotal).2
      ⟨hsize, hmemory, file, hfile, hfits⟩
  · have hframes : (c.lists c.waveFrontList ns (ns.map entry)).nFrames = ns.map c.count := hcounts
    rw [fill_slots (by rw [hnFiles, hframes, List.length_map]), hframes, hnTotal]
  · rw [hnTotal]
    change List.length (if _ then _ else _) = _
    rw [hcounts, Nat.mod_eq_of_lt htotal]
    by_cases hone : (ns.map c.count).sum = ns.length
    · rw [if_neg (not_not.2 hone.symm), List.length_zipWith, length_resized, min_self, hone]
    · rw [if_neg hone] at hwaves
      rw [if_pos (Ne.symm hone), List.length_map, length_numbers haccepts, hwaves]
  · rw [checkData_again hns hne hfrom, lists_again.2]
    intro hcount
    rw [hcounts, Nat.mod_eq_of_lt htotal] at hcount
    rwa [if_pos hcount.symm] at hwaves

/-- Files of which what is kept is right fit. -/
theorem fits_of_kept [Nontrivial T] (h : c.FramesKept) :
    ∃ ns, c.keepPresent c.fileNumbers = .accepted ns ∧ Fits c ns := by
  obtain ⟨s, hs, hopened, hloaded, hslots, hwaves, hagain⟩ := h
  obtain ⟨ns, xs, hns, hne, hfrom, rfl⟩ := checkData_accepted.1 hs
  have haccepts := checkFiles_start.1 hfrom
  have hlength : max 1 ns.length = ns.length := max_eq_right (List.length_pos_iff.2 hne)
  have hnFiles : Channel.nFiles (c.lists c.start.waveFrontList ns xs) = ns.length := hlength
  have hxs := haccepts.length_eq
  rw [hnFiles] at hopened hloaded
  have hnames : ∀ n ∈ ns, c.format n = c.format (n + c.imageNumberOffset) := by
    intro n hn
    obtain ⟨i, hi, rfl⟩ := List.mem_iff_getElem.1 hn
    have hname : ns[i]?.bind c.format =
        if ns = [] then some c.imageTemplate else ns[i]?.bind fun n => c.format (n + c.imageNumberOffset) :=
      hopened i hi
    rw [if_neg hne, List.getElem?_eq_getElem hi] at hname
    exact hname
  have hcounts : xs.map Prod.fst = ns.map c.count := by
    refine List.ext_getElem? fun i => ?_
    by_cases hi : i < ns.length
    · obtain ⟨file, hfile, hleft, -⟩ := hloaded i hi
      rw [file_validated (List.getElem?_eq_getElem hi)] at hfile
      have hleft' : (xs.map Prod.fst)[i]? = some (c.left file) := hleft
      rw [hleft', List.getElem?_map, List.getElem?_eq_getElem hi, Option.map_some, count_of_file hfile]
    · rw [List.getElem?_eq_none (by rw [List.length_map]; omega),
        List.getElem?_eq_none (by rw [List.length_map]; omega)]
  have hframes : (c.lists c.start.waveFrontList ns xs).nFrames = ns.map c.count := hcounts
  have hnTotal : (c.lists c.start.waveFrontList ns xs).nTotalFrames = BitVec.ofNat 32 (ns.map c.count).sum := by
    rw [← hcounts]
    rfl
  have hsum := (fill_slots (by rw [hnFiles, hframes, List.length_map])).1 hslots
  rw [hframes] at hsum
  have htotal : (ns.map c.count).sum < 2 ^ 32 := by
    rw [hsum]
    exact BitVec.isLt _
  have hloads : ∀ n ∈ ns, c.pixels ≠ 0 ∧ 4 * ((ns.map c.count).sum * c.pixels) < 2 ^ 63 ∧
      ∃ file, c.file n = some file ∧ FrameFits c file := by
    intro n hn
    obtain ⟨i, hi, rfl⟩ := List.mem_iff_getElem.1 hn
    exact (loads_iff (List.getElem?_eq_getElem hi) (hnames _ hn) hcounts htotal).1 (hloaded i hi)
  obtain ⟨n, hn⟩ := List.exists_mem_of_ne_nil ns hne
  refine ⟨ns, hns, hne, hnames, fun n hn => ?_, (hloads n hn).1, htotal, (hloads n hn).2.1, ?_⟩
  · obtain ⟨-, -, file, hfile, hfits⟩ := hloads n hn
    refine ⟨file, hfile, hfits, ?_⟩
    obtain ⟨i, hi, rfl⟩ := List.mem_iff_getElem.1 hn
    obtain ⟨file', hfile', hx⟩ := (List.forall₂_iff_get.1 haccepts).2 i hi (hxs ▸ hi)
    rw [List.get_eq_getElem] at hfile' hx
    obtain rfl := Option.some.inj (hfile.symm.trans hfile')
    exact hx.enough
  · split_ifs with hone
    · rw [checkData_again hns hne hfrom, Outcome.accepted.injEq, lists_again] at hagain
      refine hagain ?_
      rw [hcounts, Nat.mod_eq_of_lt htotal, hone]
    · rw [← hsum] at hwaves
      change List.length (if _ then _ else _) = _ at hwaves
      rw [hcounts, Nat.mod_eq_of_lt htotal, if_pos (Ne.symm hone), List.length_map, length_numbers haccepts] at hwaves
      exact hwaves

/-- **The frames of a channel are kept track of** for numbers whose files fit and do not depend on the offset, and
with as many frame numbers as frames, or images that all have the number 0. -/
theorem framesKept_iff [Nontrivial T] (c : Channel Name T) :
    c.FramesKept ↔ ∃ ns, c.keepPresent c.fileNumbers = .accepted ns ∧ Fits c ns :=
  ⟨fits_of_kept, fun ⟨_, hns, h⟩ => kept_of_fits hns h⟩

end Kept

/-! ## A cube -/

/-- A cube of three frames, of one pixel each, that counts its frames from the number of the file. -/
def cubeFile : File ℕ := ⟨[3, 1, 1], id, fun n => [n, n + 1, n + 2], by decide⟩

/-- A channel with one file number, for which there are files with any number. -/
def cube (imageNumberOffset : BitVec 32) : Channel (BitVec 32) ℕ where
  imageTemplate := 0
  format := some
  present := fun _ => false
  disk := fun _ => some (some cubeFile)
  imageNumberOffset := imageNumberOffset
  discardFirst := 0
  discardLast := 0
  incomplete := false
  fileNumbers := [1]
  waveFrontList := []
  imgSizeY := 1
  imgSizeX := 1

/-- Without an offset, all is right. -/
theorem cube_kept : (cube 0).FramesKept :=
  (framesKept_iff (cube 0)).2 ⟨[1], rfl, List.cons_ne_nil _ _, fun n _ => congrArg some (BitVec.add_zero n).symm,
    fun _ _ => ⟨cubeFile, rfl, .inr ⟨3, rfl, .inl (by decide)⟩, Nat.zero_le _⟩, by decide, by decide, by decide,
    by decide⟩

/-- With an offset, another file is opened than the one that was checked. -/
theorem cube_not_kept : ¬ ∀ c : Channel (BitVec 32) ℕ, c.checkData c.start ≠ .refused →
    (∀ fn file, c.disk fn = some (some file) → c.discard ≤ file.frames) → c.FramesKept := by
  intro h
  obtain ⟨ns, hns, hfits⟩ := fits_of_kept (h (cube 1) (by decide) fun _ _ _ => Nat.zero_le _)
  obtain rfl := Outcome.accepted.inj hns
  exact absurd (hfits.names 1 (List.mem_singleton_self 1)) (by decide)

end Redux.Momfbd.Frames
