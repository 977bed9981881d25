import Redux.File.MomfbdContent

/-!
# File.MomfbdLoad — what `load` brings of a file that was read

Every part stands where `read` has found it.  All of it but the modes is put in order, and the modes are what
stands behind one byte for each of them.
-/

namespace Redux.MomfbdFile

open Redux.Lib

/-! ## Patches -/

/-- What is asked for. -/
def asked {α : Type} (mask bit : BitVec 8) (as : List α) : List α := if mask &&& bit ≠ 0 then as else []

namespace PatchContent

variable {version : ℚ} (c : PatchContent version) (mask : BitVec 8) (alignTo : ℕ)

/-- What `load` should bring of a patch. -/
def cells : List Cell :=
  (c.info 0).block version alignTo ++ (asked mask MOMFBD_IMG c.img ++ asked mask MOMFBD_PSF c.psf ++
    asked mask MOMFBD_OBJ c.obj ++ asked mask MOMFBD_RES c.res ++ asked mask MOMFBD_ALPHA c.alpha ++
    asked mask MOMFBD_DIV (c.div.flatMap Prod.snd)).map .float

end PatchContent

section Patch

variable {version : ℚ} {c : PatchContent version} {reversed : Bool} {p q : ℕ} {mask bit : BitVec 8} {alignTo : ℕ}
  {file : Str} {fs : List Word} {n : Word} {k : ℤ}

theorem finds_floats (hs : Reader.Stands file p (numsBytes reversed fs)) (hk : k = fs.length) :
    Reader.Finds (floatsAt reversed p k) file fs := by
  subst hk
  rw [floatsAt, if_neg (by omega)]
  exact (Reader.takes_numbers (by decide) reversed rfl).finds hs rfl

/-- A part that is there or of which there is nothing. -/
theorem finds_part {b : Prop} [Decidable b] {wanted : Prop} [Decidable wanted]
    (hw : wanted ↔ mask &&& bit ≠ 0 ∧ b) (hs : b → Reader.Stands file p (numsBytes reversed fs))
    (hk : b → k = fs.length) (hb : ¬ b → fs = []) :
    Reader.Finds (loadPart reversed wanted (PatchContent.posIf b p) k) file (asked mask bit fs) := by
  unfold loadPart PatchContent.posIf asked
  by_cases hthere : b
  · rw [if_pos hthere]
    simp only [hw, hthere, and_true]
    split_ifs
    · exact finds_floats (hs hthere) (hk hthere)
    · exact Reader.finds_pure
  · rw [if_neg fun h => hthere (hw.1 h).2, hb hthere, ite_self]
    exact Reader.finds_pure

/-- A part with its number before it. -/
theorem finds_counted (hs : Reader.Stands file p (PatchContent.partBytes reversed n fs))
    (hk : (fs.length : ℤ) = n.toInt * k) :
    Reader.Finds (loadPart reversed (mask &&& bit ≠ 0 ∧ n ≠ 0) (PatchContent.posIf (n ≠ 0) (p + 4)) (n.toInt * k)) file
      (asked mask bit fs) := by
  refine finds_part Iff.rfl (fun _ => ?_) (fun _ => hk.symm) fun hn => ?_
  · have hright := hs.right
    rwa [numBytes_length] at hright
  · rw [not_not.1 hn, show (0 : Word).toInt = 0 from rfl, Int.zero_mul] at hk
    exact List.eq_nil_of_length_eq_zero (Int.ofNat_eq_zero.1 hk)

theorem takes_divs {w : ℕ} : ∀ {ds : List (BitVec 8 × List Word)} {p : ℕ}, (∀ d ∈ ds, d.2.length = w) →
    Reader.Takes (Reader.times ds.length (readByte.next fun _ => Reader.numbers 32 reversed w)) p
      (ds.flatMap fun d => [d.1] ++ numsBytes reversed d.2) (ds.map Prod.snd)
  | [], _, _ => Reader.takes_pure
  | d :: ds, _, h =>
    ((takes_byte d.1).next (Reader.takes_numbers (by decide) reversed (h d List.mem_cons_self))).next
      ((takes_divs fun e he => h e (List.mem_cons_of_mem d he)).last Reader.takes_pure)

/-- The number of floats of all diversities. -/
theorem divs_length {w : ℤ} : ∀ {ds : List (BitVec 8 × List Word)}, (∀ d ∈ ds, (d.2.length : ℤ) = w) →
    ((ds.flatMap Prod.snd).length : ℤ) = ds.length * w
  | [], _ => by simp
  | d :: ds, h => by
    have ih := divs_length fun e he => h e (List.mem_cons_of_mem d he)
    rw [List.flatMap_cons, List.length_append, Int.natCast_add, ih, h d List.mem_cons_self, List.length_cons]
    push_cast
    ring

theorem divRows_plain : ∀ {ds : List (BitVec 8 × List Word)},
    ds.flatMap (fun d => [] ++ numsBytes reversed d.2) = numsBytes reversed (ds.flatMap Prod.snd)
  | [] => rfl
  | d :: ds => by
    rw [List.flatMap_cons, divRows_plain, List.flatMap_cons, numsBytes_append, List.nil_append]

/-- Where the diversities stand. -/
theorem stands_divs (hs : Reader.Stands file (c.divAt p) (c.divBytes reversed)) (h : c.ndiv ≠ 0) :
    Reader.Stands file (c.divAt p + (PatchContent.sizeIf (20100726 ≤ version) 4 + PatchContent.sizeIf
      (20110708 ≤ version) 8))
      (c.div.flatMap (PatchContent.divRow version reversed)) := by
  have hversion : 20100726 ≤ version := not_not.1 fun hold => h (c.div_version hold)
  rw [PatchContent.divBytes, if_pos hversion, if_pos h] at hs
  have hright := hs.right.right
  rw [nphBytes_length, numBytes_length, Nat.add_assoc] at hright
  rwa [show PatchContent.sizeIf (20100726 ≤ version) 4 = 32 / 8 from if_pos hversion]

theorem finds_diversity (hs : Reader.Stands file (c.divAt p) (c.divBytes reversed)) :
    Reader.Finds ((c.info p).loadDiversity reversed version mask) file
      (asked mask MOMFBD_DIV (c.div.flatMap Prod.snd)) := by
  have hlen := c.div_length
  by_cases h : c.ndiv ≠ 0
  · have hpos : (c.info p).diversityPos = ((c.divAt p +
        (PatchContent.sizeIf (20100726 ≤ version) 4 + PatchContent.sizeIf (20110708 ≤ version) 8) : ℕ) : ℤ) := if_pos h
    have hx : (c.info p).nphx = c.nphx := if_pos h
    have hy : (c.info p).nphy = c.nphy := if_pos h
    have hrows := stands_divs hs h
    unfold PatchInfo.loadDiversity asked
    by_cases hmask : mask &&& MOMFBD_DIV ≠ 0
    · rw [if_pos ⟨hmask, h⟩, if_pos hmask, hx, hy]
      by_cases htypes : 20110916 ≤ version
      · have hcount : (c.info p).ndiv.toInt.toNat = c.div.length := by
          change c.ndiv.toInt.toNat = _
          omega
        have hsize : ∀ d ∈ c.div, d.2.length = (c.nphy.toInt * c.nphx.toInt).toNat := by
          intro d hd
          have hd := c.div_size d hd
          omega
        have hrow : PatchContent.divRow version reversed = fun d => [d.1] ++ numsBytes reversed d.2 :=
          funext fun d => by rw [PatchContent.divRow, if_pos htypes]
        rw [hrow] at hrows
        rw [if_pos htypes, hcount, List.flatMap_def]
        exact ((takes_divs hsize).last (k := fun divs => .pure divs.flatten) Reader.takes_pure).finds hrows hpos
      · have hcount : (c.div.flatMap Prod.snd).length = ((c.info p).ndiv.toInt * c.nphy.toInt *
          c.nphx.toInt).toNat := by
          have hall := divs_length c.div_size
          rw [c.div_length, ← Int.mul_assoc] at hall
          change _ = (c.ndiv.toInt * c.nphy.toInt * c.nphx.toInt).toNat
          omega
        have hrow : PatchContent.divRow version reversed = fun d => [] ++ numsBytes reversed d.2 :=
          funext fun d => by rw [PatchContent.divRow, if_neg htypes]
        rw [hrow, divRows_plain] at hrows
        rw [if_neg htypes]
        exact (Reader.takes_numbers (by decide) reversed hcount).finds hrows hpos
    · rw [if_neg fun hboth => hmask hboth.1, if_neg hmask]
      exact Reader.finds_pure
  · have hnil : c.div = [] := by
      rw [not_not.1 h, show (0 : Word).toInt = 0 from rfl] at hlen
      exact List.eq_nil_of_length_eq_zero (Int.ofNat_eq_zero.1 hlen)
    unfold PatchInfo.loadDiversity asked
    rw [if_neg fun hboth => h hboth.2, hnil, List.flatMap_nil, ite_self]
    exact Reader.finds_pure

/-- **A patch is loaded**: what is asked for of it, in order whatever the order in the file is. -/
theorem finds_patch (hs : Reader.Stands file p (c.bytes reversed)) :
    Reader.Finds ((c.info p).load reversed version mask alignTo) file (c.cells mask alignTo) := by
  have hrest := hs.right
  rw [headBytes_length] at hrest
  have himage := hrest.right.right.right
  rw [imageAt_eq] at himage
  have hpsf := himage.right
  rw [psfAt_eq] at hpsf
  have hobj := hpsf.right
  rw [objAt_eq] at hobj
  have hres := hobj.right
  rw [resAt_eq] at hres
  have halpha := hres.right
  rw [alphaAt_eq] at halpha
  have hdiv := halpha.right
  rw [divAt_eq] at hdiv
  have halphas := halpha.left
  have himg : Reader.Finds (loadPart reversed (mask &&& MOMFBD_IMG ≠ 0 ∧ (c.info p).imgPos ≠ 0) (c.info p).imgPos
      (c.region.order.nX * c.region.order.nY)) file (asked mask MOMFBD_IMG c.img) := by
    have hlen := c.img_length
    have hbytes : Reader.Stands file (c.imageAt p) ([c.hasImage] ++ numsBytes reversed c.img) := himage.left
    refine finds_part ?_ (fun _ => hbytes.right) (fun hb => ?_) fun hb => ?_
    · have hpos : (c.info p).imgPos ≠ 0 ↔ c.hasImage ≠ 0 := by
        change PatchContent.posIf _ _ ≠ 0 ↔ _
        unfold PatchContent.posIf
        split_ifs with hb
        · exact iff_of_true (by omega) hb
        · exact iff_of_false (fun hne => hne rfl) hb
      rw [hpos]
    · rw [hlen, if_pos hb]
    · rw [if_neg hb] at hlen
      exact List.eq_nil_of_length_eq_zero (Int.ofNat_eq_zero.1 hlen)
  have hcoef : Reader.Finds (loadPart reversed (mask &&& MOMFBD_ALPHA ≠ 0 ∧ c.nalpha ≠ 0) (c.info p).alphaPos
      (c.nalpha.toInt * (c.info p).nm.toInt)) file (asked mask MOMFBD_ALPHA c.alpha) := by
    have hlen := c.alpha_length
    refine finds_part Iff.rfl (fun hb => ?_) (fun hb => ?_) fun hb => ?_
    · rw [PatchContent.alphaBytes, if_pos hb] at halphas
      have hright := halphas.right.right
      rwa [numBytes_length, numBytes_length, Nat.add_assoc] at hright
    · rw [show (c.info p).nm = c.nm from if_pos hb, hlen]
    · rw [not_not.1 hb, show (0 : Word).toInt = 0 from rfl, Int.zero_mul] at hlen
      exact List.eq_nil_of_length_eq_zero (Int.ofNat_eq_zero.1 hlen)
  have hpsfs : Reader.Finds (loadPart reversed (mask &&& MOMFBD_PSF ≠ 0 ∧ c.npsf ≠ 0) (c.info p).psfPos
      (c.npsf.toInt * (c.region.order.nX * c.region.order.nY))) file (asked mask MOMFBD_PSF c.psf) :=
    finds_counted hpsf.left c.psf_length
  have hobjs : Reader.Finds (loadPart reversed (mask &&& MOMFBD_OBJ ≠ 0 ∧ c.nobj ≠ 0) (c.info p).objPos
      (c.nobj.toInt * (c.region.order.nX * c.region.order.nY))) file (asked mask MOMFBD_OBJ c.obj) :=
    finds_counted hobj.left c.obj_length
  have hress : Reader.Finds (loadPart reversed (mask &&& MOMFBD_RES ≠ 0 ∧ c.nres ≠ 0) (c.info p).resPos
      (c.nres.toInt * (c.region.order.nX * c.region.order.nY))) file (asked mask MOMFBD_RES c.res) :=
    finds_counted hres.left c.res_length
  unfold PatchInfo.load
  refine himg.next (hpsfs.next (hobjs.next (hress.next (hcoef.next ((finds_diversity hdiv).next ?_)))))
  exact Reader.finds_pure

end Patch

/-! ## Files -/

namespace FileContent

variable {τ : Type} {T : Texts τ} (c : FileContent T) (mask : BitVec 8) (alignTo : ℕ)

/-- The pupil, and the modes as they are in the file. -/
def pupil : List Word := (c.modes.map ModesContent.pupil).getD []

def modeWords (reversed : Bool) : List Word :=
  ((c.modes.map ModesContent.modes).getD []).flatMap fun mode => mode.2.map (inOrder reversed)

/-- What `load` should bring into the memory, where `modes` is what it takes for the modes. -/
def cells (modes : List Word) : List Cell :=
  (asked mask MOMFBD_MODES c.pupil ++ modes).map .float ++
    asked mask MOMFBD_PATCH (c.patches.flatMap fun p => p.cells mask alignTo)

/-- `fileNames` after `load`, where `fileNames` was before. -/
def namesAfter (fileNames : List Str) : List Str :=
  match c.names with
  | none => []
  | some ns => if mask &&& MOMFBD_NAMES ≠ 0 then fileNames ++ ns.map (· ++ [0]) else []

end FileContent

section File

variable {τ : Type} {T : Texts τ} {c : FileContent T} {reversed : Bool} {mask : BitVec 8} {alignTo p : ℕ}
  {fileNames : List Str} {file : Str}

theorem stands_modes : Reader.Stands (c.bytes reversed) c.modesAt (c.modesBytes reversed) := by
  have h : Reader.Stands (c.bytes reversed) 0 (c.headBytes reversed) := Reader.stands_self.left.left
  have h := h.right.left
  rwa [frontBytes_length, Nat.zero_add] at h

theorem stands_pupil {m : ModesContent} (hm : c.modes = some m) :
    Reader.Stands (c.bytes reversed) (ModesContent.pupilAt c.version c.modesAt)
      (numsBytes reversed m.pupil ++ m.modes.flatMap (modeRow c.version reversed)) := by
  have h := @stands_modes _ _ c reversed
  unfold FileContent.modesBytes at h
  rw [hm] at h
  have h := h.right.right.right.right
  rwa [pupilAt_eq] at h

theorem stands_modeRows {m : ModesContent} (hm : c.modes = some m) :
    Reader.Stands (c.bytes reversed) (m.modesAt c.version c.modesAt)
      (m.modes.flatMap (modeRow c.version reversed)) := by
  have h := (@stands_pupil _ _ c reversed m hm).right
  rwa [modesAt_eq] at h

theorem found_modes {m : ModesContent} (hm : c.modes = some m) : (c.found reversed).nPH = m.nPH ∧
    (c.found reversed).nModes = m.nModes ∧ (c.found reversed).phOffset = ModesContent.pupilAt c.version c.modesAt ∧
    (c.found reversed).modesOffset = m.modesAt c.version c.modesAt := by
  have h : c.modesHead = m.head c.version c.modesAt := by
    unfold FileContent.modesHead
    rw [hm]
  change c.modesHead.nPH = _ ∧ c.modesHead.nModes = _ ∧ c.modesHead.phOffset = _ ∧ c.modesHead.modesOffset = _
  rw [h]
  exact ⟨rfl, rfl, rfl, rfl⟩

theorem found_noModes (hm : c.modes = none) : (c.found reversed).nPH = 0 := by
  change c.modesHead.nPH = 0
  unfold FileContent.modesHead
  rw [hm]

theorem pupilAt_pos {m : ModesContent} : 0 < ModesContent.pupilAt c.version p ∧ 0 < m.modesAt c.version p := by
  rw [ModesContent.modesAt, ModesContent.pupilAt]
  omega

/-- The pupil is put in order. -/
theorem finds_pupil : Reader.Finds ((c.found reversed).loadPupil mask) (c.bytes reversed)
    (asked mask MOMFBD_MODES c.pupil) := by
  unfold FileMomfbd.loadPupil loadPart asked FileContent.pupil
  cases hm : c.modes with
  | none =>
    rw [if_neg fun h => h.2.1 (found_noModes hm), Option.map_none, Option.getD_none, ite_self]
    exact Reader.finds_pure
  | some m =>
    obtain ⟨hph, -, hpos, -⟩ := @found_modes _ _ c reversed m hm
    have hlen := m.pupil_length
    rw [Option.map_some, Option.getD_some, hph, hpos]
    by_cases hzero : m.nPH = 0
    · rw [hzero, show (0 : Word).toInt = 0 from rfl, Int.zero_mul] at hlen
      rw [if_neg fun h => h.2.1 hzero, List.eq_nil_of_length_eq_zero (Int.ofNat_eq_zero.1 hlen), ite_self]
      exact Reader.finds_pure
    · have hthere : (0 : ℤ) < ModesContent.pupilAt c.version c.modesAt :=
        Int.natCast_pos.2 (@pupilAt_pos _ _ c c.modesAt m).1
      by_cases hmask : mask &&& MOMFBD_MODES ≠ 0
      · rw [if_pos ⟨hmask, hzero, hthere⟩, if_pos hmask]
        exact finds_floats (stands_pupil hm).left hlen.symm
      · rw [if_neg fun h => hmask h.1, if_neg hmask]
        exact Reader.finds_pure

theorem takes_modeRows {w : ℕ} : ∀ {ms : List (BitVec 8 × List Word)} {p : ℕ}, (∀ mode ∈ ms, mode.2.length = w) →
    Reader.Takes (Reader.times ms.length ((Reader.skip 1).next fun _ => Reader.words 32 w)) p
      (ms.flatMap fun mode => [mode.1] ++ numsBytes reversed mode.2) (ms.map fun mode => mode.2.map (inOrder reversed))
  | [], _, _ => Reader.takes_pure
  | mode :: ms, _, h =>
    (Reader.Takes.next (@Reader.takes_skip _ [mode.1])
      (Reader.takes_rawNumbers (by decide) reversed (h mode List.mem_cons_self))).next
      ((takes_modeRows fun mode' hm => h mode' (List.mem_cons_of_mem mode hm)).last Reader.takes_pure)

/-- There are no modes without pixels. -/
theorem modeWords_nil {m : ModesContent} (hm : c.modes = some m) (h : m.nPH = 0 ∨ m.nModes = 0) :
    c.modeWords reversed = [] := by
  rw [FileContent.modeWords, hm, Option.map_some, Option.getD_some, List.flatMap_eq_nil_iff]
  intro mode hmode
  rcases h with h | h
  · have hlen := m.mode_length mode hmode
    rw [h, show (0 : Word).toInt = 0 from rfl, Int.zero_mul] at hlen
    rw [List.eq_nil_of_length_eq_zero (Int.ofNat_eq_zero.1 hlen), List.map_nil]
  · have hlen := m.modes_length
    rw [h, show (0 : Word).toInt = 0 from rfl] at hlen
    rw [List.eq_nil_of_length_eq_zero (Int.ofNat_eq_zero.1 hlen)] at hmode
    exact absurd hmode List.not_mem_nil

/-- The modes of a version with a byte for the type of each are taken as they are. -/
theorem finds_modes (hversion : 20120201 ≤ c.version) : Reader.Finds ((c.found reversed).loadModes mask)
    (c.bytes reversed)
    (asked mask MOMFBD_MODES (c.modeWords reversed)) := by
  unfold FileMomfbd.loadModes
  cases hm : c.modes with
  | none =>
    rw [if_neg fun h => h.2.1 (found_noModes hm), asked, FileContent.modeWords, hm, Option.map_none, Option.getD_none,
      List.flatMap_nil, ite_self]
    exact Reader.finds_pure
  | some m =>
    obtain ⟨hph, hcount, -, hpos⟩ := @found_modes _ _ c reversed m hm
    have hlen := m.modes_length
    have hthere : (0 : ℤ) < m.modesAt c.version c.modesAt := Int.natCast_pos.2 (@pupilAt_pos _ _ c c.modesAt m).2
    rw [hph, hcount, hpos]
    by_cases hmask : mask &&& MOMFBD_MODES ≠ 0
    · rw [asked, if_pos hmask]
      by_cases hsome : m.nPH ≠ 0 ∧ m.nModes ≠ 0
      · have hsize : ∀ mode ∈ m.modes, mode.2.length = (m.nPH.toInt * m.nPH.toInt).toNat := by
          intro mode hmode
          have hmode := m.mode_length mode hmode
          omega
        have hrow : modeRow c.version reversed = fun mode => [mode.1] ++ numsBytes reversed mode.2 :=
          funext fun mode => by rw [modeRow, if_pos hversion]
        have hstands := @stands_modeRows _ _ c reversed m hm
        rw [hrow] at hstands
        rw [if_pos ⟨hmask, hsome.1, hsome.2, hthere⟩, show m.nModes.toInt.toNat = m.modes.length by omega,
          FileContent.modeWords, hm, Option.map_some, Option.getD_some, List.flatMap_def]
        exact ((takes_modeRows hsize).last (k := fun modes => .pure modes.flatten) Reader.takes_pure).finds hstands rfl
      · have hzero : m.nPH = 0 ∨ m.nModes = 0 := by
          rcases not_and_or.1 hsome with h | h
          · exact .inl (not_not.1 h)
          · exact .inr (not_not.1 h)
        rw [if_neg fun h => hsome ⟨h.2.1, h.2.2.1⟩, modeWords_nil hm hzero]
        exact Reader.finds_pure
    · rw [if_neg fun h => hmask h.1, asked, if_neg hmask]
      exact Reader.finds_pure

theorem finds_each : ∀ {cs : List (PatchContent c.version)} {p : ℕ},
    Reader.Stands file p (cs.flatMap fun d => d.bytes reversed) →
    Reader.Finds (Reader.each (fun i : PatchInfo => i.load reversed c.version mask alignTo)
      ((infos cs p).map Prod.snd)) file
      (cs.map fun d => d.cells mask alignTo)
  | [], _, _ => Reader.finds_pure
  | d :: ds, _, hs => by
    have hright := hs.right
    rw [bytes_length] at hright
    exact (finds_patch hs.left).next ((finds_each hright).next Reader.finds_pure)

/-- The patches are put in order. -/
theorem finds_patches : Reader.Finds ((c.found reversed).loadPatches mask alignTo) (c.bytes reversed)
    (asked mask MOMFBD_PATCH (c.patches.flatMap fun p => p.cells mask alignTo)) := by
  unfold FileMomfbd.loadPatches asked
  by_cases hmask : mask &&& MOMFBD_PATCH ≠ 0
  · by_cases hgrid : 0 < c.nPatchesX.toInt ∧ 0 < c.nPatchesY.toInt
    · rw [if_pos ⟨hmask, hgrid⟩, if_pos hmask, List.flatMap_def]
      exact (finds_each stands_patches).next Reader.finds_pure
    · have hnil : c.patches = [] := by
        have hx := c.patchesX_nonneg
        have hy := c.patchesY_nonneg
        have hlen := c.patches_length
        apply List.eq_nil_of_length_eq_zero
        rw [hlen]
        rcases not_and_or.1 hgrid with h | h
        · have hzero : c.nPatchesX = 0 := BitVec.toInt_inj.1 (Int.le_antisymm (Int.not_lt.1 h) hx)
          rw [hzero]
          exact Nat.mul_zero _
        · have hzero : c.nPatchesY = 0 := BitVec.toInt_inj.1 (Int.le_antisymm (Int.not_lt.1 h) hy)
          rw [hzero]
          exact Nat.zero_mul _
      rw [if_neg fun h => hgrid h.2, hnil, List.flatMap_nil, ite_self]
      exact Reader.finds_pure
  · rw [if_neg fun h => hmask h.1, if_neg hmask]
    exact Reader.finds_pure

theorem takes_names : ∀ {ns : List Str} {p : ℕ}, (∀ n ∈ ns, n.length + 1 < 2 ^ 31) →
    Reader.Takes (Reader.times ns.length (readName reversed)) p (ns.flatMap (textBytes reversed)) (ns.map (· ++ [0]))
  | [], _, _ => Reader.takes_pure
  | n :: ns, _, h => by
    obtain ⟨hint, hnat⟩ := toInt_ofNat (h n List.mem_cons_self)
    refine Reader.Takes.next (k := fun a => (Reader.times ns.length (readName reversed)).next fun as =>
      .pure (a :: as)) ?_ ((takes_names fun m hm => h m (List.mem_cons_of_mem n hm)).last Reader.takes_pure)
    refine (Reader.takes_number (by decide) _ _).next ?_
    rw [if_neg (by rw [hint]; omega), hnat, ← List.length_singleton (a := (0 : BitVec 8)), ← List.length_append]
    exact Reader.takes_read

/-- **The names are loaded behind those that are there**, each with the zero at its end. -/
theorem finds_names : Reader.Finds (((c.found reversed).withNames fileNames).loadNames mask) (c.bytes reversed)
    (c.namesAfter mask fileNames) := by
  unfold FileMomfbd.loadNames FileContent.namesAfter
  have hoffset : ((c.found reversed).withNames fileNames).filenameOffset = c.namesHead.2.2 := rfl
  have hcount : ((c.found reversed).withNames fileNames).nFileNames = c.namesHead.2.1 := rfl
  rw [hoffset, hcount]
  unfold FileContent.namesHead
  cases hnames : c.names with
  | none =>
    rw [if_neg fun h => absurd h.2 (show ¬ (0 : ℤ) < -1 by decide)]
    exact Reader.finds_pure
  | some ns =>
    have hthere : (0 : ℤ) < (c.namesAt : ℤ) := by
      rw [FileContent.namesAt]
      omega
    have hstands : Reader.Stands (c.bytes reversed) c.namesAt (ns.flatMap (textBytes reversed)) := by
      have h : Reader.Stands (c.bytes reversed) 0 ((c.headBytes reversed ++
        (c.patchBytes reversed ++ c.countBytes reversed)) ++
        c.nameBytes reversed) := Reader.stands_self
      have h := h.right
      unfold FileContent.countBytes FileContent.nameBytes at h
      rw [hnames] at h
      rwa [List.length_append, List.length_append, headBytes_length_eq, patchBytes_length, numBytes_length,
        Nat.zero_add] at h
    obtain ⟨hint, -⟩ := toInt_ofNat (c.names_length ns hnames)
    simp only [hint, Int.toNat_natCast, hthere, and_true]
    split_ifs with hmask
    · exact ((takes_names (c.name_length ns hnames)).last (k := fun names => .pure (fileNames ++ names))
        Reader.takes_pure).finds hstands rfl
    · exact Reader.finds_pure

/-- **What `load` brings**, given what it takes for the modes. -/
theorem finds_load {modes : List Word}
    (h : Reader.Finds ((c.found reversed).loadModes mask) (c.bytes reversed) modes) :
    Reader.Finds (((c.found reversed).withNames fileNames).load mask alignTo) (c.bytes reversed)
      (c.cells mask alignTo modes, c.namesAfter mask fileNames) :=
  finds_pupil.next (h.next (finds_patches.next (finds_names.next Reader.finds_pure)))

/-- Whatever `load` brings, it has taken something for the modes. -/
theorem load_some {q q' : ℕ} {cells : List Cell} {names : List Str}
    (h : ((c.found reversed).withNames fileNames).load mask alignTo (c.bytes reversed) q = some ((cells, names), q')) :
    ∃ modes q1 q2, (c.found reversed).loadModes mask (c.bytes reversed) q1 = some (modes, q2) ∧
      cells = c.cells mask alignTo modes ∧ names = c.namesAfter mask fileNames := by
  obtain ⟨q1, hpupil⟩ := @finds_pupil _ _ c reversed mask q
  have hpupil : ((c.found reversed).withNames fileNames).loadPupil mask (c.bytes reversed) q = _ := hpupil
  rw [FileMomfbd.load, Reader.next, hpupil, Option.bind_some] at h
  obtain ⟨⟨modes, q2⟩, hmodes, h⟩ := Option.bind_eq_some_iff.1 h
  obtain ⟨q3, hpatches⟩ := @finds_patches _ _ c reversed mask alignTo q2
  obtain ⟨q4, hnames⟩ := @finds_names _ _ c reversed mask fileNames q3
  have hpatches : ((c.found reversed).withNames fileNames).loadPatches mask alignTo (c.bytes reversed) q2 = _ :=
    hpatches
  dsimp only at h
  rw [Reader.next, hpatches, Option.bind_some] at h
  dsimp only at h
  rw [Reader.next, hnames, Option.bind_some] at h
  obtain ⟨hcells, hnames⟩ := Prod.mk.inj (Prod.mk.inj (Option.some.inj h)).1
  exact ⟨modes, q1, q2, hmodes, hcells.symm, hnames.symm⟩

end File

end Redux.MomfbdFile
