import Mathlib.Data.List.Dedup
import Mathlib.Data.List.Infix
import Mathlib.Data.Rat.Defs
import Redux.Lib.OrderedSet

/-!
# Momfbd.StoredWavefronts — the coefficients that a patch is stored with

The solver keeps the coefficients image by image: objects, channels and frames in the order of the job
(`imagePointers`).  `Channel::initProcessing` collects the wavefronts of the images in a map, which is sorted.
At the end of `Solver::run` the wavefronts of the map become the ids of the patch, and the rows of
its coefficients are filled with as many images as there are wavefronts, from the first one on.
-/

namespace Redux.Momfbd.StoredWavefronts

open Redux.Lib

/-! ## Model -/

/-- A wavefront index. -/
abbrev Index := BitVec 32

/-- A `Channel`, with the wavefront of each of its frames. -/
structure Channel where
  waveFrontList : List Index

/-- An `Object`. -/
structure Object where
  channels : List Channel

/-- What is read of a `Solver`. -/
structure Solver where
  objects : List Object
  nModes : ℕ

/-- `wavefronts.emplace( wf, nullptr )`, of the keys of the map. -/
def emplace (wavefronts : List Index) (wf : Index) : List Index :=
  OrderedSet.insert (fun a b => decide (a < b)) wf wavefronts

namespace Channel

/-- `initProcessing`: the wavefronts of all frames. -/
def initProcessing (wavefronts : List Index) (ch : Channel) : List Index := ch.waveFrontList.foldl emplace wavefronts

/-- The images of a channel with the pointers `a` to their coefficients, and the pointer after them. -/
def pointers (nModes : ℕ) : List Index → ℕ → List (Index × ℕ) × ℕ
  | [], a => ([], a)
  | wf :: rest, a => ((wf, a) :: (pointers nModes rest (a + nModes)).1, (pointers nModes rest (a + nModes)).2)

end Channel

/-- The images of the channels, one channel after the other. -/
def Object.pointers (nModes : ℕ) : List Channel → ℕ → List (Index × ℕ) × ℕ
  | [], a => ([], a)
  | ch :: rest, a =>
    let images := Channel.pointers nModes ch.waveFrontList a
    let others := Object.pointers nModes rest images.2
    (images.1 ++ others.1, others.2)

namespace Solver

variable (s : Solver)

/-- `initProcessing` of the objects. -/
def wavefronts : List Index :=
  s.objects.foldl (fun w o => o.channels.foldl Channel.initProcessing w) []

/-- The images of the objects, one object after the other. -/
def pointersFrom : List Object → ℕ → List (Index × ℕ) × ℕ
  | [], a => ([], a)
  | o :: rest, a =>
    let images := Object.pointers s.nModes o.channels a
    let others := pointersFrom rest images.2
    (images.1 ++ others.1, others.2)

/-- Each image, by its wavefront, and where the coefficients begin that `applyAlpha` gives it. -/
def imagePointers : List (Index × ℕ) := (s.pointersFrom s.objects 0).1

end Solver

/-- `WavefrontData`, with the coefficients as they are in memory. -/
structure WavefrontData (F : Type) where
  ids : List Index
  (nWf nModes : ℕ)
  alpha : List F

section Storing

variable {D F : Type} (cast : D → F)

/-- `storeAlpha( a )`: as many coefficients as the array has elements. -/
def WavefrontData.storeAlpha (w : WavefrontData F) (a : ℕ → D) : WavefrontData F :=
  if w.nWf * w.nModes ≠ 0 then { w with alpha := (List.range (w.nWf * w.nModes)).map fun i => cast (a i) } else w

/-- Row `k` of the array. -/
def WavefrontData.row (w : WavefrontData F) (k : ℕ) : List F := (w.alpha.drop (k * w.nModes)).take w.nModes

/-- What `Solver::run` leaves in the patch: the array is resized and filled, then the ids are added. -/
def Solver.store (s : Solver) (a : ℕ → D) (zero : F) : WavefrontData F :=
  let n := s.wavefronts.length
  let w := WavefrontData.storeAlpha cast ⟨[], n, s.nModes, List.replicate (n * s.nModes) zero⟩ a
  { w with ids := s.wavefronts }

/-- The coefficients of the image that begin at `offset`. -/
def Solver.coefficients (s : Solver) (a : ℕ → D) (offset : ℕ) : List F :=
  (List.range s.nModes).map fun m => cast (a (offset + m))

/-- **Each row has the coefficients of an image of the wavefront that the ids give for it.** -/
def Solver.RowsBelong (s : Solver) (a : ℕ → D) (zero : F) : Prop :=
  ∀ k id, (s.store cast a zero).ids[k]? = some id →
    ∃ offset, (id, offset) ∈ s.imagePointers ∧ (s.store cast a zero).row k = s.coefficients cast a offset

end Storing

/-! ## Images and wavefronts -/

/-- The wavefronts of all images in the order of the job. -/
def Solver.images (s : Solver) : List Index := s.objects.flatMap fun o => o.channels.flatMap Channel.waveFrontList

theorem Channel.pointers_append {nModes : ℕ} : ∀ (l l' : List Index) (a : ℕ),
    Channel.pointers nModes (l ++ l') a =
      ((Channel.pointers nModes l a).1 ++ (Channel.pointers nModes l' (Channel.pointers nModes l a).2).1,
        (Channel.pointers nModes l' (Channel.pointers nModes l a).2).2)
  | [], _, _ => rfl
  | wf :: l, l', a => by
    rw [List.cons_append, Channel.pointers, Channel.pointers_append l l', Channel.pointers]
    rfl

theorem Object.pointers_eq {nModes : ℕ} : ∀ (chs : List Channel) (a : ℕ), Object.pointers nModes chs a =
    Channel.pointers nModes (chs.flatMap Channel.waveFrontList) a
  | [], _ => rfl
  | ch :: rest, a => by
    rw [Object.pointers, Object.pointers_eq rest, List.flatMap_cons, Channel.pointers_append]

theorem Solver.pointersFrom_eq (s : Solver) : ∀ (os : List Object) (a : ℕ), s.pointersFrom os a =
    Channel.pointers s.nModes (os.flatMap fun o => o.channels.flatMap Channel.waveFrontList) a
  | [], _ => rfl
  | o :: rest, a => by
    rw [Solver.pointersFrom, Object.pointers_eq, s.pointersFrom_eq rest, List.flatMap_cons, Channel.pointers_append]

theorem Channel.pointers_getElem? {nModes : ℕ} : ∀ (l : List Index) (a q : ℕ),
    (Channel.pointers nModes l a).1[q]? = l[q]?.map fun wf => (wf, a + q * nModes)
  | [], _, _ => rfl
  | wf :: l, a, 0 => by simp [Channel.pointers]
  | wf :: l, a, q + 1 => by
    rw [Channel.pointers, List.getElem?_cons_succ, List.getElem?_cons_succ, Channel.pointers_getElem? l,
      Nat.succ_mul, Nat.add_comm (q * nModes), Nat.add_assoc]

/-- **The coefficients of the images lie one behind the other.** -/
theorem Solver.mem_imagePointers {s : Solver} {id : Index} {offset : ℕ} :
    (id, offset) ∈ s.imagePointers ↔ ∃ q, s.images[q]? = some id ∧ offset = q * s.nModes := by
  rw [Solver.imagePointers, s.pointersFrom_eq, ← Solver.images, List.mem_iff_getElem?]
  refine exists_congr fun q => ?_
  rw [Channel.pointers_getElem?, Nat.zero_add, Option.map_eq_some_iff]
  constructor
  · rintro ⟨wf, hwf, heq⟩
    obtain ⟨rfl, rfl⟩ := Prod.mk.inj heq
    exact ⟨hwf, rfl⟩
  · rintro ⟨hid, rfl⟩
    exact ⟨id, hid, rfl⟩

/-- The map is the same as if all images were in one channel. -/
theorem Solver.wavefronts_eq (s : Solver) : s.wavefronts = s.images.foldl emplace [] := by
  rw [Solver.wavefronts, Solver.images, List.foldl_flatMap]
  refine List.foldl_ext _ _ _ fun w o _ => ?_
  rw [List.foldl_flatMap]
  rfl

theorem mem_emplace {w : List Index} {id wf : Index} : id ∈ emplace w wf ↔ id = wf ∨ id ∈ w := by
  by_cases hany : w.any (OrderedSet.same (fun a b => decide (a < b)) wf) = true
  · have hmem : wf ∈ w := by
      obtain ⟨y, hy, hsame⟩ := List.any_eq_true.1 hany
      rw [OrderedSet.same, Bool.and_eq_true, Bool.not_eq_true', Bool.not_eq_true', decide_eq_false_iff_not,
        decide_eq_false_iff_not] at hsame
      exact BitVec.le_antisymm (BitVec.not_lt.1 hsame.2) (BitVec.not_lt.1 hsame.1) ▸ hy
    rw [emplace, OrderedSet.insert, if_pos hany]
    exact (or_iff_right_of_imp fun h => h ▸ hmem).symm
  · rw [emplace, OrderedSet.insert, if_neg hany, List.mem_orderedInsert]

theorem mem_foldl_emplace {id : Index} : ∀ {l w : List Index}, id ∈ l.foldl emplace w ↔ id ∈ l ∨ id ∈ w
  | [], w => by rw [List.foldl_nil, List.mem_nil_iff, false_or]
  | wf :: l, w => by
    rw [List.foldl_cons, mem_foldl_emplace, mem_emplace, List.mem_cons, ← or_assoc, or_comm (a := _ ∈ l)]

theorem Solver.mem_wavefronts {s : Solver} {id : Index} : id ∈ s.wavefronts ↔ id ∈ s.images := by
  rw [s.wavefronts_eq, mem_foldl_emplace, List.mem_nil_iff, or_false]

/-! ## Rows -/

section Rows

variable {D F : Type} {cast : D → F} {s : Solver} {a : ℕ → D} {zero : F}

/-- **Row `k` is filled with the coefficients of image `k`.** -/
theorem row_store {k : ℕ} (hk : k < s.wavefronts.length) :
    (s.store cast a zero).row k = s.coefficients cast a (k * s.nModes) := by
  have hrows : k * s.nModes + s.nModes ≤ s.wavefronts.length * s.nModes := by
    rw [← Nat.succ_mul]
    exact Nat.mul_le_mul_right _ hk
  rw [Solver.store, WavefrontData.row, WavefrontData.storeAlpha, Solver.coefficients]
  by_cases hempty : s.wavefronts.length * s.nModes ≠ 0
  · rw [if_pos hempty]
    refine List.ext_getElem? fun m => ?_
    simp only [List.getElem?_take, List.getElem?_drop, List.getElem?_map]
    by_cases hm : m < s.nModes
    · rw [if_pos hm, List.getElem?_range hm, List.getElem?_range (by omega)]
      rfl
    · rw [if_neg hm, List.getElem?_eq_none (by rw [List.length_range]; omega)]
      rfl
  · have hzero : s.nModes = 0 := (Nat.mul_eq_zero.1 (not_not.1 hempty)).resolve_left (by omega)
    rw [hzero, if_neg (by rw [Nat.mul_zero]; exact not_not.2 rfl), List.take_zero, List.range_zero, List.map_nil]

/-- Two images have the same coefficients, where a coefficient is one number only for the image at `k`. -/
theorem eq_of_coefficients {x y : D} (hxy : cast x ≠ cast y) (hmodes : s.nModes ≠ 0) {k q : ℕ}
    (h : s.coefficients cast (fun i => if i = k * s.nModes then x else y) (k * s.nModes) =
      s.coefficients cast (fun i => if i = k * s.nModes then x else y) (q * s.nModes)) : q = k := by
  have hfirst := congrArg (fun l : List F => l[0]?) h
  simp only [Solver.coefficients, List.getElem?_map, List.getElem?_range (Nat.pos_of_ne_zero hmodes),
    Option.map_some, Nat.add_zero, if_pos] at hfirst
  by_contra hne
  rw [if_neg fun heq => hne (Nat.eq_of_mul_eq_mul_right (Nat.pos_of_ne_zero hmodes) heq)] at hfirst
  exact hxy (Option.some.inj hfirst)

/-- **Rows belong to their ids, whatever the coefficients are, exactly if there are no modes, or if the first
images, as many as there are wavefronts, have the wavefronts in ascending order.** -/
theorem rowsBelong_iff {x y : D} (hxy : cast x ≠ cast y) :
    (∀ a, s.RowsBelong cast a zero) ↔ s.nModes = 0 ∨ s.wavefronts <+: s.images := by
  constructor
  · intro h
    refine or_iff_not_imp_left.2 fun hmodes => List.prefix_iff_getElem?.2 fun k hk => ?_
    obtain ⟨offset, hmem, hrow⟩ := h (fun i => if i = k * s.nModes then x else y) k _ (List.getElem?_eq_getElem hk)
    obtain ⟨q, hq, rfl⟩ := Solver.mem_imagePointers.1 hmem
    rw [row_store hk] at hrow
    rw [eq_of_coefficients hxy hmodes hrow] at hq
    exact hq
  · intro h a k id hid
    have hk : k < s.wavefronts.length := (List.getElem?_eq_some_iff.1 hid).1
    rcases h with hmodes | hprefix
    · obtain ⟨q, hq⟩ := List.mem_iff_getElem?.1 (Solver.mem_wavefronts.1 (List.mem_of_getElem? hid))
      refine ⟨_, Solver.mem_imagePointers.2 ⟨q, hq, rfl⟩, ?_⟩
      rw [row_store hk, hmodes, Nat.mul_zero, Nat.mul_zero]
    · have himage : s.images[k]? = some id :=
        (List.prefix_iff_getElem?.1 hprefix k hk).trans ((List.getElem?_eq_getElem hk).symm.trans hid)
      exact ⟨_, Solver.mem_imagePointers.2 ⟨k, himage, rfl⟩, row_store hk⟩

end Rows

/-- One channel with two images and one mode. -/
def twoImages (first second : Index) : Solver := ⟨[⟨[⟨[first, second]⟩]⟩], 1⟩

/-- The images have the wavefronts 7 and 8: all rows are right. -/
theorem rowsBelong_iff_twoImages : id (0 : ℚ) ≠ id 1 ∧ ∀ a : ℕ → ℚ, (twoImages 7 8).RowsBelong id a 0 :=
  ⟨by decide, (rowsBelong_iff (show id (0 : ℚ) ≠ id 1 by decide)).2 (.inr (by decide +kernel))⟩

/-- The images have the wavefronts 8 and 7: the row of wavefront 7 is filled with the first of them. -/
theorem descending_not_belong : ¬∀ a : ℕ → ℚ, (twoImages 8 7).RowsBelong id a 0 := by
  intro h
  obtain ⟨offset, hmem, hrow⟩ := h (fun i => if i = 0 then 10 else 20) 0 7 (by decide)
  rw [show (twoImages 8 7).imagePointers = [(8, 0), (7, 1)] by decide, List.mem_cons, List.mem_singleton] at hmem
  obtain rfl : offset = 1 := hmem.elim (fun h => absurd h (by simp)) fun h => (Prod.mk.inj h).2
  exact absurd hrow (by decide +kernel)

end Redux.Momfbd.StoredWavefronts
