import Mathlib.Algebra.Order.BigOperators.GroupWithZero.List
import Mathlib.Algebra.Order.Ring.Nat
import Redux.Lib.Run
import Redux.Lib.Sharing

/-!
# Image.CachedFile — files read through the process-wide cache

Images share their data blocks when they are copied, and the cache hands out copies of its entries.  The
first load of a file starts from a copy of the caller's image, and the reader overwrites a block in place if
the dimensions fit.  Pixels are of any type, and everything is read, not the header only.
-/

namespace Redux.CachedFile

open Redux.Lib

/-! ## Model -/

/-- A dense `Image`: its dimensions, and its data block, if any. -/
structure Image where
  dims : List ℕ
  block : Option ℕ
  deriving DecidableEq

def Image.nElements (im : Image) : ℕ := if im.dims = [] then 0 else im.dims.prod

/-- What a file holds. -/
structure File (α : Type) where
  dims : List ℕ
  data : List α
  dims_ne : dims ≠ []
  dims_pos : ∀ d ∈ dims, 0 < d
  sized : data.length = dims.prod

/-- The data blocks, the entries of the cache, and the image variables of the callers. -/
structure State (ν α : Type) where
  blocks : List (List α)
  cache : List (ν × Image)
  vars : List Image

/-- Loading into a variable, unloading, a variable that gets an array of its own, one that becomes a copy of
another, one that is emptied or goes out of scope, and arithmetic in place, with a number or with another
image. -/
inductive Call (ν α : Type) where
  | load (v : ℕ) (fn : ν)
  | unload (fn : ν)
  | own (v : ℕ) (dims : List ℕ) (data : List α)
  | assign (v w : ℕ)
  | clear (v : ℕ)
  | scalar (v : ℕ) (f : α → α)
  | array (v w : ℕ) (f : α → α → α)

/-- `Ana::read` allocates a new block, unless the trailing dimensions of the image are those of the file. -/
def forceResize {α : Type} (f : File α) (im : Image) : Bool :=
  decide (im.dims.length < f.dims.length) ||
    (List.range f.dims.length).any fun i => f.dims[i]? != im.dims[im.dims.length - f.dims.length + i]?

namespace State

variable {ν α : Type} [DecidableEq ν] (files : ν → Option (File α)) (s : State ν α)

def init (n : ℕ) : State ν α := ⟨[], [], List.replicate n ⟨[], none⟩⟩

def content (im : Image) : List α :=
  match im.block with
  | some r => s.blocks.getD r []
  | none => []

/-- What is written to the block of an image changes it for everybody. -/
def write (im : Image) (f : List α → List α) : State ν α :=
  match im.block with
  | some r => { s with blocks := s.blocks.modify r f }
  | none => s

/-- `readFile( fn, image )`.  In place it copies as many elements as the image has; what is read beyond the
data of the file is not known, and left as it was. -/
def read (f : File α) (im : Image) : State ν α × Image :=
  if forceResize f im then ({ s with blocks := s.blocks ++ [f.data] }, ⟨f.dims, some s.blocks.length⟩)
  else (s.write im fun old => (f.data ++ old.drop f.data.length).take old.length, im)

def find (fn : ν) : Option Image := (s.cache.find? (·.1 = fn)).map Prod.snd

/-- `load( img, fn )`; what does not exist is an error. -/
def load (v : ℕ) (fn : ν) (img : Image) : State ν α :=
  match files fn with
  | none => s
  | some f =>
    match s.find fn with
    | some e =>
      if 0 < e.nElements then { s with vars := s.vars.set v e }
      else
        let (s, e) := s.read f e
        { s with cache := s.cache.map fun p => if p.1 = fn then (fn, e) else p, vars := s.vars.set v e }
    | none =>
      let (s, e) := s.read f img
      { s with cache := (fn, e) :: s.cache, vars := s.vars.set v e }

/-- `use_count()` of a data block. -/
def useCount : Option ℕ → ℕ
  | some r => (s.cache.map Prod.snd ++ s.vars).countP (·.block = some r)
  | none => 0

/-- `unload( fn )`. -/
def unload (fn : ν) : State ν α :=
  match s.find fn with
  | some e => if s.useCount e.block < 2 then { s with cache := s.cache.filter (·.1 ≠ fn) } else s
  | none => s

/-- Arithmetic with an image of another size is an error. -/
def step : Call ν α → Option (State ν α)
  | .load v fn => s.vars[v]?.map fun img => s.load files v fn img
  | .unload fn => some (s.unload fn)
  | .own v dims data =>
    if v < s.vars.length ∧ dims ≠ [] ∧ data.length = dims.prod then
      some { s with blocks := s.blocks ++ [data], vars := s.vars.set v ⟨dims, some s.blocks.length⟩ }
    else none
  | .assign v w => s.vars[w]?.map fun im => { s with vars := s.vars.set v im }
  | .clear v => some { s with vars := s.vars.set v ⟨[], none⟩ }
  | .scalar v f => s.vars[v]?.map fun im => s.write im (List.map f)
  | .array v w f =>
    match s.vars[v]?, s.vars[w]? with
    | some im, some im' =>
      if im.nElements = im'.nElements then some (s.write im fun data => List.zipWith f data (s.content im'))
      else some s
    | _, _ => none

/-- Every entry has the contents of its file. -/
def Kept : Prop := ∀ p ∈ s.cache, ∀ f, files p.1 = some f → p.2.dims = f.dims ∧ s.content p.2 = f.data

/-- A load gives the contents of the file that it names. -/
def Returned (_ : State ν α) (call : Call ν α) (s' : State ν α) : Prop :=
  ∀ v fn f, call = .load v fn → files fn = some f →
    ∃ im, s'.vars[v]? = some im ∧ im.dims = f.dims ∧ s'.content im = f.data

/-- What a call must find.  A file that is not in the cache is loaded into a variable that the reader gives a
new block, or into one of exactly its size whose block belongs to no file with other contents; and
arithmetic in place leaves the data of every file alone that shares the block. -/
def Apart : Call ν α → Prop
  | .load v fn => ∀ f, files fn = some f → s.find fn = none → ∀ im, s.vars[v]? = some im →
      forceResize f im = false → im.dims = f.dims ∧
        ∀ p ∈ s.cache, p.2.block = im.block → ∀ f', files p.1 = some f' → f'.data = f.data
  | .scalar v g => ∀ im, s.vars[v]? = some im → ∀ p ∈ s.cache, p.2.block = im.block →
      ∀ f, files p.1 = some f → f.data.map g = f.data
  | .array v w g => ∀ im im', s.vars[v]? = some im → s.vars[w]? = some im' → im.nElements = im'.nElements →
      ∀ p ∈ s.cache, p.2.block = im.block → ∀ f, files p.1 = some f →
        List.zipWith g f.data (s.content im') = f.data
  | _ => True

end State

section Results

variable {ν α : Type} {files : ν → Option (File α)} {s s' : State ν α} {im : Image} {f : File α}

namespace State

/-! ## Blocks -/

/-- All images. -/
def images (s : State ν α) : List Image := s.cache.map Prod.snd ++ s.vars

/-- The blocks are as large as the images say, and empty images have none. -/
structure Sized (s : State ν α) : Prop where
  blocks : Promised Image.block (fun im b => b.length = im.dims.prod) s.images s.blocks
  none_iff : ∀ im ∈ s.images, im.block = none ↔ im.dims = []

theorem mem_images_of_cache {p : ν × Image} (hp : p ∈ s.cache) : p.2 ∈ s.images :=
  List.mem_append_left _ (List.mem_map_of_mem hp)

theorem mem_images_of_vars {v : ℕ} (hv : s.vars[v]? = some im) : im ∈ s.images :=
  List.mem_append_right _ (List.mem_of_getElem? hv)

@[simp] theorem write_cache (g : List α → List α) : (s.write im g).cache = s.cache := by
  unfold write
  cases im.block <;> rfl

@[simp] theorem write_vars (g : List α → List α) : (s.write im g).vars = s.vars := by
  unfold write
  cases im.block <;> rfl

theorem content_of_get {r : ℕ} {b : List α} (hr : im.block = some r) (hb : s.blocks[r]? = some b) :
    s.content im = b := by
  rw [content, hr]
  exact (List.getD_eq_getElem?_getD ..).trans (by rw [hb]; rfl)

/-- An image that is not empty has a block. -/
theorem Sized.exists_block (h : Sized s) (him : im ∈ s.images) (hne : im.dims ≠ []) :
    ∃ r b, im.block = some r ∧ s.blocks[r]? = some b ∧ b.length = im.dims.prod := by
  cases hblock : im.block with
  | none => exact absurd ((h.none_iff im him).1 hblock) hne
  | some r =>
    obtain ⟨b, hb, hlen⟩ := h.blocks im him r hblock
    exact ⟨r, b, rfl, hb, hlen⟩

theorem Sized.length_content (h : Sized s) (him : im ∈ s.images) : (s.content im).length = im.nElements := by
  rw [Image.nElements]
  split_ifs with hdims
  · rw [content, (h.none_iff im him).2 hdims]
    rfl
  · obtain ⟨r, b, hr, hb, hlen⟩ := h.exists_block him hdims
    rw [content_of_get hr hb, hlen]

/-- Arithmetic with an image of the same size leaves the length of the block. -/
theorem Sized.length_zipWith {im' : Image} {g : α → α → α} (h : Sized s) (him : im ∈ s.images) (him' : im' ∈ s.images)
    (hsize : im.nElements = im'.nElements) (b : List α) (hb : b.length = (s.content im).length) :
    (List.zipWith g b (s.content im')).length = b.length := by
  rw [List.length_zipWith, hb, h.length_content him, h.length_content him', hsize, Nat.min_self]

theorem Sized.write (h : Sized s) {g : List α → List α}
    (hg : ∀ b, b.length = (s.content im).length → (g b).length = b.length) : Sized (s.write im g) := by
  unfold State.write
  cases hblock : im.block with
  | none => exact h
  | some r =>
    refine ⟨h.blocks.modify fun i _ _ b hb hlen => ?_, h.none_iff⟩
    rw [hg b (by rw [content_of_get hblock hb]), hlen]

theorem content_write (h : Sized s) (him : im ∈ s.images) (hne : im.dims ≠ []) (g : List α → List α) :
    (s.write im g).content im = g (s.content im) := by
  obtain ⟨r, b, hr, hb, -⟩ := h.exists_block him hne
  rw [content_of_get hr hb, State.write, hr]
  refine content_of_get hr ?_
  simp [hb]

/-- **What a write in place keeps: the images of the files that share the block must not change by it.** -/
theorem kept_iff (h : Sized s) : Kept files s ↔ (∀ p ∈ s.cache, ∀ f, files p.1 = some f → p.2.dims = f.dims) ∧
    Promised (fun p : ν × Image => p.2.block) (fun p b => ∀ f, files p.1 = some f → b = f.data) s.cache s.blocks := by
  constructor
  · intro hk
    refine ⟨fun p hp f hf => (hk p hp f hf).1, fun p hp r hr => ?_⟩
    obtain ⟨b, hb, -⟩ := h.blocks p.2 (mem_images_of_cache hp) r hr
    exact ⟨b, hb, fun f hf => (content_of_get hr hb).symm.trans (hk p hp f hf).2⟩
  · rintro ⟨hdims, hdata⟩ p hp f hf
    refine ⟨hdims p hp f hf, ?_⟩
    obtain ⟨r, b, hr, hb, -⟩ := h.exists_block (mem_images_of_cache hp) (hdims p hp f hf ▸ f.dims_ne)
    rw [content_of_get hr hb]
    exact hdata.get hp hr hb f hf

theorem kept_write_iff (h : Sized s) (hk : Kept files s) (him : im ∈ s.images) {g : List α → List α}
    (hg : ∀ b, b.length = (s.content im).length → (g b).length = b.length) : Kept files (s.write im g) ↔
      ∀ p ∈ s.cache, p.2.block = im.block → ∀ f, files p.1 = some f → g f.data = f.data := by
  have hk' := (kept_iff h).1 hk
  rw [kept_iff (h.write hg), write_cache]
  cases hblock : im.block with
  | none =>
    have hsame : (s.write im g).blocks = s.blocks := by rw [State.write, hblock]
    rw [hsame]
    refine iff_of_true hk' fun p hp hnone f hf => ?_
    have hdims := (h.none_iff p.2 (mem_images_of_cache hp)).1 hnone
    exact absurd ((hk p hp f hf).1.symm.trans hdims) f.dims_ne
  | some r =>
    obtain ⟨b, hb, -⟩ := h.blocks im him r hblock
    have hset : (s.write im g).blocks = s.blocks.set r (g b) := by
      rw [State.write, hblock]
      exact (List.modify_eq_set_getElem? ..).trans (by rw [hb]; rfl)
    rw [hset, hk'.2.set_iff (List.getElem?_eq_some_iff.1 hb).1, and_iff_right hk'.1]
    refine forall₂_congr fun p hp => ⟨fun hP hr f hf => ?_, fun hP hr f hf => ?_⟩
    · exact (congrArg g (hk'.2.get hp hr hb f hf)).symm.trans (hP hr f hf)
    · exact (congrArg g (hk'.2.get hp hr hb f hf)).trans (hP hr f hf)

/-- New blocks change nothing. -/
theorem kept_append_iff (h : Sized s) (b : List α) (vars : List Image) :
    Kept files { s with blocks := s.blocks ++ [b], vars := vars } ↔ Kept files s := by
  refine forall₂_congr fun p hp => forall₂_congr fun f hf => and_congr_right fun hdims => ?_
  obtain ⟨r, b', hr, hb', -⟩ := h.exists_block (mem_images_of_cache hp) (hdims ▸ f.dims_ne)
  have hlt := (List.getElem?_eq_some_iff.1 hb').1
  rw [content_of_get hr hb', content_of_get hr ((List.getElem?_append_left hlt).trans hb')]

/-! ## The reader -/

/-- What the reader writes in place is as long as the block. -/
theorem length_overwrite (data old : List α) : ((data ++ old.drop data.length).take old.length).length =
    old.length := by
  rw [List.length_take, List.length_append, List.length_drop]
  omega

theorem overwrite_eq {data old : List α} (h : old.length = data.length) :
    (data ++ old.drop data.length).take old.length = data := by
  rw [List.drop_eq_nil_of_le (Nat.le_of_eq h), List.append_nil, h, List.take_length]

theorem Sized.of_subset (h : Sized s) {cache : List (ν × Image)} {vars : List Image}
    (hsub : ∀ im ∈ cache.map Prod.snd ++ vars, im ∈ s.images ∨ im = ⟨[], none⟩) :
    Sized { s with cache := cache, vars := vars } := by
  refine ⟨fun im him r hr => ?_, fun im him => ?_⟩
  · rcases hsub im him with hold | rfl
    · exact h.blocks im hold r hr
    · exact absurd hr.symm (Option.some_ne_none _)
  · rcases hsub im him with hold | rfl
    · exact h.none_iff im hold
    · exact iff_of_true rfl rfl

/-- A new block for an image. -/
theorem Sized.append (h : Sized s) {dims : List ℕ} {b : List α} (hne : dims ≠ []) (hlen : b.length = dims.prod)
    {cache : List (ν × Image)} {vars : List Image}
    (hsub : ∀ im ∈ cache.map Prod.snd ++ vars, im ∈ s.images ∨ im = ⟨dims, some s.blocks.length⟩) :
    Sized { s with blocks := s.blocks ++ [b], cache := cache, vars := vars } := by
  refine ⟨fun im him r hr => ?_, fun im him => ?_⟩
  · rcases hsub im him with hold | rfl
    · exact h.blocks.append [b] im hold r hr
    · obtain rfl := Option.some.inj hr
      exact ⟨b, by simp, hlen⟩
  · rcases hsub im him with hold | rfl
    · exact h.none_iff im hold
    · exact iff_of_false (Option.some_ne_none _) hne

/-- What has been read is sized, with whatever images of before. -/
theorem Sized.read (h : Sized s) (him : im ∈ s.images) {cache : List (ν × Image)} {vars : List Image}
    (hsub : ∀ im' ∈ cache.map Prod.snd ++ vars, im' ∈ s.images ∨ im' = (s.read f im).2) :
    Sized { (s.read f im).1 with cache := cache, vars := vars } := by
  rw [State.read] at hsub ⊢
  split_ifs at hsub ⊢ with hforce
  · exact h.append f.dims_ne f.sized hsub
  · refine (h.write fun b _ => length_overwrite f.data b).of_subset fun im' him' => ?_
    rw [images, write_cache, write_vars]
    rcases hsub im' him' with hold | rfl
    · exact .inl hold
    · exact .inl him

@[simp] theorem read_cache : (s.read f im).1.cache = s.cache := by
  rw [State.read]
  split_ifs
  · rfl
  · exact write_cache _

@[simp] theorem read_vars : (s.read f im).1.vars = s.vars := by
  rw [State.read]
  split_ifs
  · rfl
  · exact write_vars _

/-- Reading in place keeps everything if the file has exactly the size of the image, and whoever shares the
block has the same contents. -/
theorem kept_overwrite_iff (h : Sized s) (hk : Kept files s) (him : im ∈ s.images) :
    ((im.dims = f.dims ∧ (s.write im fun old => (f.data ++ old.drop f.data.length).take old.length).content im =
        f.data) ∧ Kept files (s.write im fun old => (f.data ++ old.drop f.data.length).take old.length)) ↔
      im.dims = f.dims ∧ ∀ p ∈ s.cache, p.2.block = im.block → ∀ f', files p.1 = some f' → f'.data = f.data := by
  rw [kept_write_iff h hk him fun b _ => length_overwrite f.data b, and_assoc]
  refine and_congr_right fun hdims => ?_
  have hne : im.dims ≠ [] := hdims ▸ f.dims_ne
  have hlen : (s.content im).length = f.data.length := by
    rw [h.length_content him, Image.nElements, if_neg hne, hdims, f.sized]
  rw [content_write h him hne, overwrite_eq hlen, and_iff_right rfl]
  refine forall₂_congr fun p hp => forall_congr' fun hblock => forall₂_congr fun f' hf' => ?_
  have hshare : f'.data = s.content im := by
    rw [← (hk p hp f' hf').2, content, content, hblock]
  rw [hshare, overwrite_eq hlen]
  exact eq_comm

theorem sized_init (n : ℕ) : Sized (init n : State ν α) := by
  have himg : ∀ im ∈ (init n : State ν α).images, im = ⟨[], none⟩ := fun im him => List.eq_of_mem_replicate him
  refine ⟨fun im him r hr => ?_, fun im him => ?_⟩
  · obtain rfl := himg im him
    exact absurd hr.symm (Option.some_ne_none _)
  · obtain rfl := himg im him
    exact iff_of_true rfl rfl

theorem kept_init (n : ℕ) : Kept files (init n : State ν α) := fun _ hp => absurd hp List.not_mem_nil

/-! ## The calls -/

variable [DecidableEq ν] {v : ℕ} {fn : ν} {img : Image}

theorem mem_of_find {e : Image} (h : s.find fn = some e) : (fn, e) ∈ s.cache := by
  obtain ⟨p, hp, rfl⟩ := Option.map_eq_some_iff.1 h
  have hkey := List.find?_some hp
  rw [← of_decide_eq_true hkey]
  exact List.mem_of_find?_eq_some hp

theorem load_miss (hf : files fn = some f) (hfind : s.find fn = none) : s.load files v fn img =
    { (s.read f img).1 with
      cache := (fn, (s.read f img).2) :: (s.read f img).1.cache
      vars := (s.read f img).1.vars.set v (s.read f img).2 } := by
  rw [load, hf, hfind]

theorem load_hit {e : Image} (hf : files fn = some f) (hfind : s.find fn = some e) (he : 0 < e.nElements) :
    s.load files v fn img = { s with vars := s.vars.set v e } := by
  rw [load, hf, hfind]
  exact if_pos he

theorem Sized.load (h : Sized s) (himg : img ∈ s.images) : Sized (s.load files v fn img) := by
  cases hf : files fn with
  | none =>
    rw [State.load, hf]
    exact h
  | some f =>
    cases hfind : s.find fn with
    | none =>
      rw [load_miss hf hfind]
      refine h.read himg fun im him => ?_
      rw [read_cache, read_vars, List.map_cons, List.cons_append, List.mem_cons, List.mem_append] at him
      rcases him with rfl | him | him
      · exact .inr rfl
      · exact .inl (List.mem_append_left _ him)
      · exact (List.mem_or_eq_of_mem_set him).imp_left (List.mem_append_right _)
    | some e =>
      have he := mem_images_of_cache (mem_of_find hfind)
      rw [State.load, hf, hfind]
      dsimp only
      split_ifs
      · refine h.of_subset fun im him => ?_
        rcases List.mem_append.1 him with him | him
        · exact .inl (List.mem_append_left _ him)
        · rcases List.mem_or_eq_of_mem_set him with him | rfl
          · exact .inl (List.mem_append_right _ him)
          · exact .inl he
      · refine h.read he fun im him => ?_
        rw [read_cache, read_vars] at him
        rcases List.mem_append.1 him with him | him
        · obtain ⟨p, hp, rfl⟩ := List.mem_map.1 him
          obtain ⟨p', hp', rfl⟩ := List.mem_map.1 hp
          split_ifs
          · exact .inr rfl
          · exact .inl (mem_images_of_cache hp')
        · exact (List.mem_or_eq_of_mem_set him).imp_left (List.mem_append_right _)

/-- **Every call leaves sized images.** -/
theorem Sized.step {call : Call ν α} (h : Sized s) (hs : s.step files call = some s') : Sized s' := by
  cases call with
  | load v fn =>
    obtain ⟨img, hv, rfl⟩ := Option.map_eq_some_iff.1 hs
    exact h.load (mem_images_of_vars hv)
  | unload fn =>
    obtain rfl := Option.some.inj hs
    rw [State.unload]
    split
    · split_ifs
      · refine h.of_subset fun im him => ?_
        rcases List.mem_append.1 him with him | him
        · obtain ⟨p, hp, rfl⟩ := List.mem_map.1 him
          exact .inl (mem_images_of_cache (List.mem_of_mem_filter hp))
        · exact .inl (List.mem_append_right _ him)
      · exact h
    · exact h
  | own v dims data =>
    rw [State.step] at hs
    split_ifs at hs with hown
    obtain rfl := Option.some.inj hs
    refine h.append hown.2.1 hown.2.2 fun im him => ?_
    rcases List.mem_append.1 him with him | him
    · exact .inl (List.mem_append_left _ him)
    · exact (List.mem_or_eq_of_mem_set him).imp_left (List.mem_append_right _)
  | assign v w =>
    obtain ⟨im', hw, rfl⟩ := Option.map_eq_some_iff.1 hs
    refine h.of_subset fun im him => .inl ?_
    rcases List.mem_append.1 him with him | him
    · exact List.mem_append_left _ him
    · rcases List.mem_or_eq_of_mem_set him with him | rfl
      · exact List.mem_append_right _ him
      · exact mem_images_of_vars hw
  | clear v =>
    obtain rfl := Option.some.inj hs
    refine h.of_subset fun im him => ?_
    rcases List.mem_append.1 him with him | him
    · exact .inl (List.mem_append_left _ him)
    · exact (List.mem_or_eq_of_mem_set him).imp_left (List.mem_append_right _)
  | scalar v g =>
    obtain ⟨im, hv, rfl⟩ := Option.map_eq_some_iff.1 hs
    exact h.write fun b _ => List.length_map _
  | array v w g =>
    rw [State.step] at hs
    split at hs
    · next im im' hv hw =>
      split_ifs at hs with hsize
      · obtain rfl := Option.some.inj hs
        exact h.write (h.length_zipWith (mem_images_of_vars hv) (mem_images_of_vars hw) hsize)
      · obtain rfl := Option.some.inj hs
        exact h
    · exact absurd hs.symm (Option.some_ne_none _)

/-! ## What the calls keep -/

/-- **A load that is not served from the cache keeps the others if it writes to a block of its own.** -/
theorem kept_load_iff (h : Sized s) (hk : Kept files s) (hv : s.vars[v]? = some img) :
    Kept files (s.load files v fn img) ↔ Apart files s (.load v fn) := by
  cases hf : files fn with
  | none =>
    rw [State.load, hf]
    refine iff_of_true hk fun f hf' => ?_
    exact absurd (hf.symm.trans hf').symm (Option.some_ne_none _)
  | some f =>
    cases hfind : s.find fn with
    | some e =>
      obtain ⟨hdims, -⟩ := hk _ (mem_of_find hfind) f hf
      have hpos : 0 < e.nElements := by
        rw [Image.nElements, hdims, if_neg f.dims_ne]
        exact List.prod_pos f.dims_pos
      rw [load_hit hf hfind hpos]
      refine iff_of_true hk fun f' _ hnone => ?_
      exact absurd (hfind.symm.trans hnone) (Option.some_ne_none _)
    | none =>
      rw [load_miss hf hfind, State.read]
      have himg := mem_images_of_vars hv
      cases hforce : forceResize f img with
      | true =>
        rw [if_pos rfl]
        refine iff_of_true (List.forall_mem_cons.2 ⟨fun f' hf' => ?_, ?_⟩) fun f' hf' _ im him hno => ?_
        · obtain rfl := Option.some.inj (hf.symm.trans hf')
          exact ⟨rfl, by simp [content]⟩
        · exact (kept_append_iff h f.data _).2 hk
        · obtain rfl := Option.some.inj (hf.symm.trans hf')
          obtain rfl := Option.some.inj (hv.symm.trans him)
          exact absurd (hforce.symm.trans hno) Bool.noConfusion
      | false =>
        rw [if_neg Bool.false_ne_true]
        have hover := kept_overwrite_iff (f := f) h hk himg
        constructor
        · intro hkept f' hf' _ im him _
          obtain rfl := Option.some.inj (hf.symm.trans hf')
          obtain rfl := Option.some.inj (hv.symm.trans him)
          obtain ⟨hnew, hold⟩ := List.forall_mem_cons.1 hkept
          rw [write_cache] at hold
          exact hover.1 ⟨hnew f hf, fun p hp => hold p (by rwa [write_cache] at hp)⟩
        · intro hapart
          obtain ⟨hnew, hold⟩ := hover.2 (hapart f hf hfind img hv hforce)
          refine List.forall_mem_cons.2 ⟨fun f' hf' => ?_, hold⟩
          obtain rfl := Option.some.inj (hf.symm.trans hf')
          exact hnew

/-- **One call: arithmetic and reading in place are all that can change an entry.** -/
theorem kept_step_iff {call : Call ν α} (h : Sized s) (hk : Kept files s) (hs : s.step files call = some s') :
    Kept files s' ↔ Apart files s call := by
  cases call with
  | load v fn =>
    obtain ⟨img, hv, rfl⟩ := Option.map_eq_some_iff.1 hs
    exact kept_load_iff h hk hv
  | unload fn =>
    obtain rfl := Option.some.inj hs
    refine iff_of_true ?_ trivial
    rw [State.unload]
    split
    · split_ifs
      · exact fun p hp => hk p (List.mem_of_mem_filter hp)
      · exact hk
    · exact hk
  | own v dims data =>
    rw [State.step] at hs
    split_ifs at hs
    obtain rfl := Option.some.inj hs
    exact iff_of_true ((kept_append_iff h data _).2 hk) trivial
  | assign v w =>
    obtain ⟨im, -, rfl⟩ := Option.map_eq_some_iff.1 hs
    exact iff_of_true hk trivial
  | clear v =>
    obtain rfl := Option.some.inj hs
    exact iff_of_true hk trivial
  | scalar v g =>
    obtain ⟨im, hv, rfl⟩ := Option.map_eq_some_iff.1 hs
    rw [kept_write_iff h hk (mem_images_of_vars hv) fun b _ => List.length_map _, Apart, hv]
    exact ⟨fun hall im' him' => Option.some.inj him' ▸ hall, fun hall => hall im rfl⟩
  | array v w g =>
    rw [State.step] at hs
    split at hs
    · next im im' hv hw =>
      have him := mem_images_of_vars hv
      rw [Apart, hv, hw]
      split_ifs at hs with hsize
      · obtain rfl := Option.some.inj hs
        rw [kept_write_iff h hk him (h.length_zipWith him (mem_images_of_vars hw) hsize)]
        refine ⟨fun hall im₁ im₂ h₁ h₂ _ => ?_, fun hall => hall im im' rfl rfl hsize⟩
        obtain rfl := Option.some.inj h₁
        obtain rfl := Option.some.inj h₂
        exact hall
      · obtain rfl := Option.some.inj hs
        refine iff_of_true hk fun im₁ im₂ h₁ h₂ hsize' => ?_
        obtain rfl := Option.some.inj h₁
        obtain rfl := Option.some.inj h₂
        exact absurd hsize' hsize
    · exact absurd hs.symm (Option.some_ne_none _)

/-- A file that has been loaded is in the cache, and the variable is a copy of its entry. -/
theorem exists_entry_of_load (hf : files fn = some f) (hv : s.vars[v]? = some img) :
    ∃ e, (fn, e) ∈ (s.load files v fn img).cache ∧ (s.load files v fn img).vars[v]? = some e := by
  have hlt := (List.getElem?_eq_some_iff.1 hv).1
  cases hfind : s.find fn with
  | none =>
    refine ⟨(s.read f img).2, ?_, ?_⟩ <;> rw [load_miss hf hfind]
    · exact List.mem_cons_self
    · rw [read_vars]
      exact List.getElem?_set_self hlt
  | some e =>
    have he := mem_of_find hfind
    rw [State.load, hf, hfind]
    dsimp only
    split_ifs
    · exact ⟨e, he, List.getElem?_set_self hlt⟩
    · refine ⟨(s.read f e).2, ?_, ?_⟩
      · exact List.mem_map.2 ⟨(fn, e), by rwa [read_cache], if_pos rfl⟩
      · rw [read_vars]
        exact List.getElem?_set_self hlt

/-- Where the entries have the contents of their files, a load gives them. -/
theorem Kept.returned {call : Call ν α} (hs : s.step files call = some s') (hk : Kept files s') :
    Returned files s call s' := by
  rintro v fn f rfl hf
  obtain ⟨img, hv, rfl⟩ := Option.map_eq_some_iff.1 hs
  obtain ⟨e, he, hvar⟩ := exists_entry_of_load hf hv
  exact ⟨e, hvar, hk _ he f hf⟩

/-- **Cached files stay equal to their files, and loads give them, exactly in the runs whose calls find the
blocks they write to apart from the files.** -/
theorem cached_files_iff (files : ν → Option (File α)) (n : ℕ) (calls : List (Call ν α)) :
    (Always (step files) (Kept files) (init n) calls ∧ Each (step files) (Returned files) (init n) calls) ↔
      Each (step files) (fun s call _ => Apart files s call) (init n) calls := by
  have hiff : Always (step files) (Kept files) (init n) calls ↔
      Each (step files) (fun s call _ => Apart files s call) (init n) calls :=
    always_iff_each (fun _ _ _ (h : Sized _) hs => h.step hs) (fun _ _ _ h hk hs => kept_step_iff h hk hs)
      (sized_init n) (kept_init n)
  refine ⟨fun h => hiff.1 h.1, fun h => ⟨hiff.2 h, ?_⟩⟩
  refine each_of_each (fun s call s' (hinv : Sized s ∧ Kept files s) hapart hs => ?_)
    ⟨sized_init n, kept_init n⟩ h
  have hk' := (kept_step_iff hinv.1 hinv.2 hs).2 hapart
  exact ⟨⟨hinv.1.step hs, hk'⟩, hk'.returned hs⟩

/-- Two dark frames of one pixel each. -/
def darks (i : Bool) : Option (File ℕ) :=
  some ⟨[1], [if i then 2 else 1], by decide, by decide, by cases i <;> rfl⟩

/-- Adding the second dark frame to the first changes the first one in the cache. -/
theorem dark_sum_not_kept :
    ¬ Always (step darks) (Kept darks) (init 2) [.load 0 false, .load 1 true, .array 0 1 (· + ·)] := by
  intro h
  have hk := h.last rfl (false, ⟨[1], some 0⟩) (by decide) _ rfl
  exact absurd hk.2 (by decide)

end State

end Results

end Redux.CachedFile
