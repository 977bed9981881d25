import Mathlib.Algebra.BigOperators.Ring.List
import Redux.Lib.Layout
import Redux.Util.ArrayAccess

/-!
# Momfbd.ResultStorage — where the manager keeps the results of an object

`getResultSize` adds up the floats that are kept for a patch, and `getStorage` wraps an array around those of
each quantity.  Both say again how many floats there are for a quantity, in the arithmetic of `int` or of
`uint32_t`, while the array drops sizes of zero and multiplies the others as `size_t`.
-/

namespace Redux.Momfbd.Results

open Redux.Lib.Layout Redux.Util

/-! ## Objects -/

def SF_SAVE_ALPHA : BitVec 16 := 1
def SF_SAVE_COBJ : BitVec 16 := 2
def SF_SAVE_DIVERSITY : BitVec 16 := 4
def SF_SAVE_MODES : BitVec 16 := 16
def SF_SAVE_PSF : BitVec 16 := 32
def SF_SAVE_PSF_AVG : BitVec 16 := 64
def SF_SAVE_RESIDUAL : BitVec 16 := 128

/-- The results of an `ObjectData`, in the order in which they are stored. -/
inductive Quantity
  | img | psf | cobj | res | alpha | div
  deriving DecidableEq

def Quantity.all : List Quantity := [.img, .psf, .cobj, .res, .alpha, .div]

/-- A `Channel`, with the wavefront of each of its images; `initProcessing` counts them in 16 bits. -/
structure Channel where
  noRestore : Bool
  waveFrontList : List ℕ
  images_lt : waveFrontList.length < 2 ^ 16
  deriving DecidableEq

/-- An `Object`; the number of its channels is packed in 16 bits. -/
structure Object where
  (saveMask patchSize pupilPixels : BitVec 16)
  nObjectImages : BitVec 32
  channels : List Channel
  channels_lt : channels.length < 2 ^ 16

/-- A product in `int` of numbers that are not negative; beyond the type it is undefined. -/
def intMul (a b : ℕ) : Option ℕ := if a * b < 2 ^ 31 then some (a * b) else none

def intMul3 (a b c : ℕ) : Option ℕ := (intMul a b).bind fun ab => intMul ab c

namespace Object

section Sizes

variable (nModes : BitVec 16) (o : Object)

def saves (flags : BitVec 16) : Bool := decide (o.saveMask &&& flags ≠ 0)

/-- `uint16_t nPSF`. -/
def nPSF : ℕ := if o.saves SF_SAVE_PSF_AVG then 1 else (o.nObjectImages.setWidth 16).toNat

/-- The conditions under which a quantity is stored. -/
def asks : Quantity → Bool
  | .img => true
  | .psf => o.saves (SF_SAVE_PSF ||| SF_SAVE_PSF_AVG)
  | .cobj => o.saves SF_SAVE_COBJ
  | .res => o.saves SF_SAVE_RESIDUAL
  | .alpha => o.saves SF_SAVE_ALPHA
  | .div => decide (o.channels.length ≠ 0) && o.saves SF_SAVE_DIVERSITY

/-- The floats of a quantity, as the code multiplies them: `nObjectImages` makes it `uint32_t`. -/
def step : Quantity → Option ℕ
  | .img => intMul o.patchSize.toNat o.patchSize.toNat
  | .psf => intMul3 o.nPSF o.patchSize.toNat o.patchSize.toNat
  | .cobj | .res => some (o.nObjectImages * o.patchSize.setWidth 32 * o.patchSize.setWidth 32).toNat
  | .alpha => some (o.nObjectImages * nModes.setWidth 32).toNat
  | .div => intMul3 o.channels.length o.pupilPixels.toNat o.pupilPixels.toNat

/-- The sizes of the array of a quantity. -/
def sizes : Quantity → List ℕ
  | .img => [o.patchSize.toNat, o.patchSize.toNat]
  | .psf => [o.nPSF, o.patchSize.toNat, o.patchSize.toNat]
  | .cobj | .res => [o.nObjectImages.toNat, o.patchSize.toNat, o.patchSize.toNat]
  | .alpha => [o.nObjectImages.toNat, nModes.toNat]
  | .div => [o.channels.length, o.pupilPixels.toNat, o.pupilPixels.toNat]

/-- The quantities that are stored. -/
def wrapped : List Quantity := Quantity.all.filter o.asks

/-- `ret += ..` for these quantities, in `size_t`. -/
def addSizes : List Quantity → ℕ → Option ℕ
  | [], ret => some ret
  | q :: qs, ret => (o.step nModes q).bind fun n => addSizes qs ((ret + n) % 2 ^ 64)

/-- `Object::getResultSize`. -/
def getResultSize : Option ℕ := o.addSizes nModes o.wrapped 0

end Sizes

end Object

/-! ## Storage -/

/-- The positions of the patches, of which `checkCfg` wants some; pairs of them with `SIM_XY`. -/
structure Grid where
  (nPosX nPosY : ℕ)
  hasXY : Bool
  posX_pos : 0 < nPosX
  posY_pos : 0 < nPosY

def Grid.nPatchesX (g : Grid) : ℕ := g.nPosX

def Grid.nPatchesY (g : Grid) : ℕ := if g.hasXY then 1 else g.nPosY

/-- An array that is wrapped around a part of the results, with the index of its first float. -/
structure View where
  ptr : ℕ
  array : Arrays.Array
  deriving DecidableEq

def View.nElements (v : View) : ℕ := v.array.nElements_

def View.block (v : View) : Block := ⟨v.ptr, v.nElements⟩

abbrev ObjectData := Quantity → View

/-- `ObjectData()`. -/
def ObjectData.new : ObjectData := fun _ => ⟨0, .construct []⟩

namespace Object

section Storage

variable (nModes : BitVec 16) (g : Grid) (o : Object)

/-- `Object::maybeInitializeStorage`; nothing, if there cannot be as much memory. -/
def results : Option Arrays.Array :=
  (o.getResultSize nModes).bind fun resultSize =>
    if 4 * (g.nPatchesY * g.nPatchesX * resultSize) < 2 ^ 63 then
      some (.construct [g.nPatchesY, g.nPatchesX, resultSize])
    else none

/-- `oData->..wrap( resPtr, .. )` and `resPtr += ..`, for these quantities. -/
def wrapAll : List Quantity → ℕ → ObjectData → Option ObjectData
  | [], _, oData => some oData
  | q :: qs, resPtr, oData => (o.step nModes q).bind fun n =>
    wrapAll qs (resPtr + n) (Function.update oData q ⟨resPtr, .construct (o.sizes nModes q)⟩)

/-- `Object::getStorage`, for a patch with the index `(y, x)`. -/
def getStorage (index : ℕ × ℕ) (oData : ObjectData) : Option ObjectData :=
  (o.results nModes g).bind fun results => (results.ptr [index.1, index.2, 0]).bind fun resPtr =>
    o.wrapAll nModes o.wrapped resPtr.toNat oData

end Storage

end Object

/-! ## Sizes -/

/-- No size is zero, unless all are. -/
def Solid (sizes : List ℕ) : Prop := 0 ∈ sizes → ∀ n ∈ sizes, n = 0

instance (sizes : List ℕ) : Decidable (Solid sizes) := inferInstanceAs (Decidable (_ → _))

section Sizes

variable {sizes : List ℕ} {nModes : BitVec 16} {o : Object} {q : Quantity} {n : ℕ}

theorem filter_eq_self (h : 0 ∉ sizes) : sizes.filter (· ≠ 0) = sizes :=
  List.filter_eq_self.2 fun _ hn => decide_eq_true fun hzero => h (hzero ▸ hn)

theorem filter_eq_nil : sizes.filter (· ≠ 0) = [] ↔ ∀ n ∈ sizes, n = 0 := by
  simp [List.filter_eq_nil_iff]

theorem prod_filter_pos (sizes : List ℕ) : 0 < (sizes.filter (· ≠ 0)).prod :=
  List.prod_pos fun _ hn => Nat.pos_of_ne_zero (of_decide_eq_true (List.mem_filter.1 hn).2)

/-- The product of the sizes is what the array holds, exactly if no size is dropped beside others. -/
theorem nElements_eq_prod (hne : sizes ≠ []) (h : (sizes.filter (· ≠ 0)).prod < 2 ^ 64) :
    (Arrays.Array.construct sizes).nElements_ = sizes.prod ↔ Solid sizes := by
  rw [Arrays.Array.nElements_construct h]
  by_cases hzero : 0 ∈ sizes
  · rw [List.prod_eq_zero hzero]
    constructor
    · intro heq _
      by_contra hall
      rw [if_neg fun hnil => hall (filter_eq_nil.1 hnil)] at heq
      exact absurd heq (prod_filter_pos sizes).ne'
    · intro hsolid
      exact if_pos (filter_eq_nil.2 (hsolid hzero))
  · rw [filter_eq_self hzero, if_neg hne]
    exact iff_of_true rfl fun h => absurd h hzero

theorem prod_le_nElements (hne : sizes ≠ []) (h : (sizes.filter (· ≠ 0)).prod < 2 ^ 64) :
    sizes.prod ≤ (Arrays.Array.construct sizes).nElements_ := by
  by_cases hzero : 0 ∈ sizes
  · rw [List.prod_eq_zero hzero]
    exact Nat.zero_le _
  · exact Nat.le_of_eq ((nElements_eq_prod hne h).2 fun h => absurd h hzero).symm

theorem prod_filter_le : ∀ sizes : List ℕ, (sizes.filter (· ≠ 0)).prod ≤ (sizes.map (max 1)).prod
  | [] => le_rfl
  | n :: sizes => by
    have ih := prod_filter_le sizes
    rw [List.map_cons, List.prod_cons, List.filter_cons]
    split_ifs
    · rw [List.prod_cons]
      exact Nat.mul_le_mul (le_max_right 1 n) ih
    · exact ih.trans (Nat.le_mul_of_pos_left _ (by omega))

theorem nPSF_lt (o : Object) : o.nPSF < 2 ^ 16 := by
  unfold Object.nPSF
  split_ifs
  · decide
  · exact BitVec.isLt _

theorem sizes_ne_nil : o.sizes nModes q ≠ [] := by
  cases q <;> exact List.cons_ne_nil _ _

/-- The sizes of an array fit in `size_t` together. -/
theorem prod_filter_lt : ((o.sizes nModes q).filter (· ≠ 0)).prod < 2 ^ 64 := by
  refine lt_of_le_of_lt (prod_filter_le _) ?_
  have hone : ∀ {a b : ℕ}, 1 ≤ b → a ≤ b → max 1 a ≤ b := fun h h' => max_le h h'
  have hthree : ∀ {a b c : ℕ}, a ≤ 2 ^ 32 - 1 → b ≤ 2 ^ 16 - 1 → c ≤ 2 ^ 16 - 1 →
      ([a, b, c].map (max 1)).prod < 2 ^ 64 := by
    intro a b c ha hb hc
    have hle := Nat.mul_le_mul (hone (by decide) ha) (Nat.mul_le_mul (hone (by decide) hb) (hone (by decide) hc))
    simp only [List.map_cons, List.map_nil, List.prod_cons, List.prod_nil, Nat.mul_one]
    omega
  have htwo : ∀ {a b : ℕ}, a ≤ 2 ^ 32 - 1 → b ≤ 2 ^ 16 - 1 → ([a, b].map (max 1)).prod < 2 ^ 64 := by
    intro a b ha hb
    have hle := Nat.mul_le_mul (hone (by decide) ha) (hone (by decide) hb)
    simp only [List.map_cons, List.map_nil, List.prod_cons, List.prod_nil, Nat.mul_one]
    omega
  have hps := o.patchSize.isLt
  have hpp := o.pupilPixels.isLt
  have hn := o.nObjectImages.isLt
  have hmodes := nModes.isLt
  have hch := o.channels_lt
  have hpsf := nPSF_lt o
  cases q with
  | img => exact htwo (by omega) (by omega)
  | psf => exact hthree (by omega) (by omega) (by omega)
  | cobj => exact hthree (by omega) (by omega) (by omega)
  | res => exact hthree (by omega) (by omega) (by omega)
  | alpha => exact htwo (by omega) (by omega)
  | div => exact hthree (by omega) (by omega) (by omega)

theorem intMul3_eq (a b : ℕ) :
    intMul3 a b b = if [a, b, b].prod < 2 ^ 31 then some [a, b, b].prod else none := by
  have hprod : [a, b, b].prod = a * b * b := by simp [Nat.mul_assoc]
  unfold intMul3 intMul
  rw [hprod]
  by_cases hlt : a * b * b < 2 ^ 31
  · have hle : a * b < 2 ^ 31 := by
      rcases Nat.eq_zero_or_pos b with rfl | hb
      · rw [Nat.mul_zero]
        decide
      · exact lt_of_le_of_lt (Nat.le_mul_of_pos_right _ hb) hlt
    rw [if_pos hle, Option.bind_some]
  · rw [if_neg hlt]
    split_ifs
    · rw [Option.bind_some, if_neg hlt]
    · rfl

/-- The quantities whose size is one of `uint32_t`. -/
def Quantity.wide : Quantity → Bool
  | .cobj | .res | .alpha => true
  | _ => false

/-- **What the code takes for the size of a quantity**: the product of its sizes, as far as the type goes. -/
theorem step_eq : o.step nModes q = if q.wide then some ((o.sizes nModes q).prod % 2 ^ 32)
    else if (o.sizes nModes q).prod < 2 ^ 31 then some (o.sizes nModes q).prod else none := by
  have hps := o.patchSize.isLt
  have hmodes := nModes.isLt
  have hps' : o.patchSize.toNat % 2 ^ 32 = o.patchSize.toNat := Nat.mod_eq_of_lt (by omega)
  have himages : (o.nObjectImages * o.patchSize.setWidth 32 * o.patchSize.setWidth 32).toNat =
      [o.nObjectImages.toNat, o.patchSize.toNat, o.patchSize.toNat].prod % 2 ^ 32 := by
    rw [BitVec.toNat_mul, BitVec.toNat_mul, BitVec.toNat_setWidth, hps', Nat.mod_mul_mod]
    simp [Nat.mul_assoc]
  cases q with
  | img =>
    have hprod : (o.sizes nModes .img).prod = o.patchSize.toNat * o.patchSize.toNat := by simp [Object.sizes]
    rw [hprod]
    rfl
  | psf => exact intMul3_eq _ _
  | cobj => exact congrArg some himages
  | res => exact congrArg some himages
  | alpha =>
    have hprod : (o.sizes nModes .alpha).prod = o.nObjectImages.toNat * nModes.toNat := by simp [Object.sizes]
    rw [hprod]
    refine congrArg some ?_
    have hmodes' : nModes.toNat % 2 ^ 32 = nModes.toNat := Nat.mod_eq_of_lt (by omega)
    rw [BitVec.toNat_mul, BitVec.toNat_setWidth, hmodes']
  | div => exact intMul3_eq _ _

theorem step_le (h : o.step nModes q = some n) : n ≤ (Arrays.Array.construct (o.sizes nModes q)).nElements_ := by
  have hle := @prod_le_nElements (o.sizes nModes q) sizes_ne_nil prod_filter_lt
  rw [step_eq] at h
  split_ifs at h
  · obtain rfl := Option.some.inj h
    exact (Nat.mod_le _ _).trans hle
  · obtain rfl := Option.some.inj h
    exact hle

/-- **The sizes agree** if no factor is zero beside others, and the product fits in its type. -/
theorem step_eq_nElements : o.step nModes q = some (Arrays.Array.construct (o.sizes nModes q)).nElements_ ↔
    Solid (o.sizes nModes q) ∧ (o.sizes nModes q).prod < if q.wide then 2 ^ 32 else 2 ^ 31 := by
  have hiff := @nElements_eq_prod (o.sizes nModes q) sizes_ne_nil prod_filter_lt
  have hle := @prod_le_nElements (o.sizes nModes q) sizes_ne_nil prod_filter_lt
  rw [step_eq, ← hiff]
  split_ifs with hwide hlt
  · rw [Option.some.injEq]
    have hmod := Nat.mod_le (o.sizes nModes q).prod (2 ^ 32)
    constructor
    · intro heq
      have hprod : (o.sizes nModes q).prod % 2 ^ 32 = (o.sizes nModes q).prod := by omega
      exact ⟨by omega, hprod ▸ Nat.mod_lt _ (by decide)⟩
    · rintro ⟨heq, hlt⟩
      rw [Nat.mod_eq_of_lt hlt, heq]
  · rw [Option.some.injEq, and_iff_left hlt]
    exact eq_comm
  · exact iff_of_false (by simp) fun h => hlt h.2

end Sizes

/-! ## What is wrapped -/

section Storage

variable {nModes : BitVec 16} {o : Object} {g : Grid} {q : Quantity} {n p : ℕ} {qs : List Quantity}
  {oData d : ObjectData} {index : ℕ × ℕ}

/-- The floats for which there is room behind a pointer. -/
def Object.room (nModes : BitVec 16) (o : Object) (q : Quantity) : ℕ := (o.step nModes q).getD 0

theorem Grid.nPatchesX_pos (g : Grid) : 0 < g.nPatchesX := g.posX_pos

theorem Grid.nPatchesY_pos (g : Grid) : 0 < g.nPatchesY := by
  unfold Grid.nPatchesY
  split_ifs
  · exact Nat.one_pos
  · exact g.posY_pos

theorem wrapped_nodup (o : Object) : o.wrapped.Nodup := List.Nodup.filter _ (by decide)

theorem mem_wrapped : q ∈ o.wrapped ↔ o.asks q = true := by
  rw [Object.wrapped, List.mem_filter, and_iff_right]
  cases q <;> decide

theorem addSizes_some : ∀ {qs : List Quantity} {ret : ℕ}, o.addSizes nModes qs ret = some n →
    ∀ q ∈ qs, o.step nModes q = some (o.room nModes q)
  | [], _, _ => fun q hq => absurd hq List.not_mem_nil
  | q :: qs, ret, h => by
    obtain ⟨k, hk, h⟩ := Option.bind_eq_some_iff.1 h
    refine List.forall_mem_cons.2 ⟨?_, addSizes_some h⟩
    rw [Object.room, hk, Option.getD_some]

/-- The sum is taken in `size_t`. -/
theorem addSizes_eq : ∀ {qs : List Quantity} {ret : ℕ}, ret < 2 ^ 64 →
    (∀ q ∈ qs, o.step nModes q = some (o.room nModes q)) →
    o.addSizes nModes qs ret = some ((ret + (qs.map (o.room nModes)).sum) % 2 ^ 64)
  | [], ret, hret, _ => by
    rw [Object.addSizes, List.map_nil, List.sum_nil, Nat.add_zero, Nat.mod_eq_of_lt hret]
  | q :: qs, ret, hret, h => by
    obtain ⟨hq, hqs⟩ := List.forall_mem_cons.1 h
    rw [Object.addSizes, hq, Option.bind_some, addSizes_eq (Nat.mod_lt _ (by decide)) hqs, List.map_cons, List.sum_cons,
      Nat.mod_add_mod, Nat.add_assoc]

/-- Arrays are wrapped around the floats one behind the other, and other quantities are left alone. -/
structure Wraps (nModes : BitVec 16) (o : Object) (qs : List Quantity) (p : ℕ) (oData d : ObjectData) : Prop where
  step : ∀ q ∈ qs, o.step nModes q = some (o.room nModes q)
  array : ∀ q ∈ qs, (d q).array = .construct (o.sizes nModes q)
  ptr : ∀ q ∈ qs, (d q).ptr = p + ((before q qs).map (o.room nModes)).sum
  others : ∀ q ∉ qs, d q = oData q

theorem wraps_of_some : ∀ {qs : List Quantity} {p : ℕ} {oData : ObjectData}, qs.Nodup →
    o.wrapAll nModes qs p oData = some d → Wraps nModes o qs p oData d
  | [], _, _, _, h => by
    obtain rfl := Option.some.inj h
    exact ⟨fun q hq => absurd hq List.not_mem_nil, fun q hq => absurd hq List.not_mem_nil,
      fun q hq => absurd hq List.not_mem_nil, fun q _ => rfl⟩
  | q :: qs, p, oData, hnodup, h => by
    obtain ⟨hq, hqs⟩ := List.nodup_cons.1 hnodup
    obtain ⟨k, hk, h⟩ := Option.bind_eq_some_iff.1 h
    obtain ⟨hstep, harray, hptr, hothers⟩ := wraps_of_some hqs h
    have hroom : o.room nModes q = k := by rw [Object.room, hk, Option.getD_some]
    have hfirst : d q = ⟨p, .construct (o.sizes nModes q)⟩ := by
      rw [hothers q hq, Function.update_self]
    refine ⟨List.forall_mem_cons.2 ⟨hroom.symm ▸ hk, hstep⟩,
      List.forall_mem_cons.2 ⟨by rw [hfirst], harray⟩, List.forall_mem_cons.2 ⟨?_, fun q' hq' => ?_⟩,
      fun q' hq' => ?_⟩
    · rw [hfirst, before_self]
      rfl
    · have hne : q ≠ q' := fun heq => hq (heq ▸ hq')
      rw [hptr q' hq', before_of_ne hne, List.map_cons, List.sum_cons, hroom, Nat.add_assoc]
    · obtain ⟨hne, hq'⟩ := not_or.1 (mt List.mem_cons.2 hq')
      rw [hothers q' hq', Function.update_of_ne hne]

theorem exists_wrapAll : ∀ {qs : List Quantity} {p : ℕ} {oData : ObjectData},
    (∀ q ∈ qs, o.step nModes q = some (o.room nModes q)) → ∃ d, o.wrapAll nModes qs p oData = some d
  | [], _, oData, _ => ⟨oData, rfl⟩
  | q :: qs, p, oData, h => by
    obtain ⟨hq, hqs⟩ := List.forall_mem_cons.1 h
    rw [Object.wrapAll, hq, Option.bind_some]
    exact exists_wrapAll hqs

/-- The blocks that are wrapped are placed in a row. -/
theorem Wraps.blocks (h : Wraps nModes o qs p oData d) (hnodup : qs.Nodup) :
    (qs.map fun q => (d q).block) =
      place p (qs.map fun q => (o.room nModes q, (Arrays.Array.construct (o.sizes nModes q)).nElements_)) := by
  obtain ⟨-, harray, hptr, -⟩ := h
  induction qs generalizing p with
  | nil => rfl
  | cons q qs ih =>
    obtain ⟨hq, hqs⟩ := List.nodup_cons.1 hnodup
    obtain ⟨harray, harrays⟩ := List.forall_mem_cons.1 harray
    obtain ⟨hptr, hptrs⟩ := List.forall_mem_cons.1 hptr
    rw [before_self] at hptr
    rw [List.map_cons, List.map_cons, place, ← ih (p := p + o.room nModes q) hqs harrays fun q' hq' => ?_]
    · rw [View.block, View.nElements, harray, hptr]
      rfl
    · have hne : q ≠ q' := fun heq => hq (heq ▸ hq')
      rw [hptrs q' hq', before_of_ne hne, List.map_cons, List.sum_cons, Nat.add_assoc]

/-- What is known once there is storage for a patch. -/
theorem getStorage_some (h : o.getStorage nModes g index oData = some d) : ∃ resultSize p,
    o.getResultSize nModes = some resultSize ∧ resultSize ≠ 0 ∧
    4 * (g.nPatchesY * g.nPatchesX * resultSize) < 2 ^ 63 ∧ p = (index.1 * g.nPatchesX + index.2) * resultSize ∧
    p ≤ g.nPatchesY * g.nPatchesX * resultSize ∧ Wraps nModes o o.wrapped p oData d := by
  obtain ⟨results, hresults, h⟩ := Option.bind_eq_some_iff.1 h
  obtain ⟨resPtr, hptr, h⟩ := Option.bind_eq_some_iff.1 h
  obtain ⟨resultSize, hsize, hresults⟩ := Option.bind_eq_some_iff.1 hresults
  split_ifs at hresults with hfits
  obtain rfl := Option.some.inj hresults
  rw [Arrays.Array.ptr_construct g.nPatchesY_pos g.nPatchesX_pos] at hptr
  split_ifs at hptr with hin
  obtain rfl := Option.some.inj hptr
  rw [Int.toNat_natCast] at h
  exact ⟨resultSize, _, hsize, fun hzero => hin (.inl hzero), hfits, rfl, not_lt.1 fun hlt => hin (.inr hlt),
    wraps_of_some (wrapped_nodup o) h⟩

/-- **Storage for a patch.** -/
theorem exists_getStorage {resultSize : ℕ} (hsize : o.getResultSize nModes = some resultSize) (hne : resultSize ≠ 0)
    (hfits : 4 * (g.nPatchesY * g.nPatchesX * resultSize) < 2 ^ 63)
    (hin : (index.1 * g.nPatchesX + index.2) * resultSize ≤ g.nPatchesY * g.nPatchesX * resultSize)
    (oData : ObjectData) : ∃ d, o.getStorage nModes g index oData = some d ∧
      Wraps nModes o o.wrapped ((index.1 * g.nPatchesX + index.2) * resultSize) oData d := by
  obtain ⟨d, hd⟩ := @exists_wrapAll nModes o o.wrapped ((index.1 * g.nPatchesX + index.2) * resultSize) oData
    (addSizes_some hsize)
  refine ⟨d, ?_, wraps_of_some (wrapped_nodup o) hd⟩
  rw [Object.getStorage, Object.results, hsize, Option.bind_some, if_pos hfits, Option.bind_some,
    Arrays.Array.ptr_construct g.nPatchesY_pos g.nPatchesX_pos, if_neg (not_or.2 ⟨hne, not_lt.2 hin⟩),
    Option.bind_some, Int.toNat_natCast]
  exact hd

end Storage

end Redux.Momfbd.Results
