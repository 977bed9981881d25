import Mathlib.Algebra.BigOperators.Group.List.Lemmas
import Mathlib.Algebra.Order.BigOperators.GroupWithZero.List
import Redux.Lib.Pack
import Redux.Util.ArrayIter

/-!
# Util.ArrayPack — packing the elements of a view

`Array::size`, `pack` and `unpack` for elements of `w` bits in the byte order of both sides.  A dense
view is packed by one copy from its beginning, another one element by element; either way its elements
are packed in row-major order.  What is unpacked goes into some other array, which is resized first; that
array keeps the first indices of its dimensions, and it is these that `countElements` goes by
(`packs_back_iff`).
-/

namespace Redux.Util.Arrays

open Redux.Lib

namespace Array

section Model

variable {w : ℕ} (a : Array) (data : ℕ → BitVec w)

/-- The sizes of a view. -/
def dimensions : List ℕ := a.dims.map Dim.current

/-- The packed size: of the size itself, of the dimensions with their number, and of the elements. -/
def size (w : ℕ) : ℕ := if a.nElements_ = 0 then 8 else 8 + (8 + a.dimensions.length * 8 + a.nElements_ * (w / 8))

/-- An element of the data block. -/
def readAt (pos : ℤ) : Option (BitVec w) :=
  if 0 ≤ pos ∧ pos < a.dataSize then some (data pos.toNat) else none

/-- The elements that are packed: of a dense view by one copy, of another one by the iterator. -/
def packedElements : Option (List (BitVec w)) :=
  if a.dense_ then ((List.range a.nElements_).map fun i : ℕ => a.begin_ + i).mapM (a.readAt data)
  else (a.forwards (a.nElements_ + 1)).bind fun visited =>
    if visited.length = a.nElements_ then visited.mapM (a.readAt data) else none

/-- `pack`, if all that it reads is there. -/
def pack : Option Packer :=
  if a.nElements_ = 0 then some (packWord (BitVec.ofNat 64 (a.size w)))
  else (a.packedElements data).map fun elements =>
    (packWord (BitVec.ofNat 64 (a.size w))).next <|
      (packVector (a.dimensions.map (BitVec.ofNat 64))).next (.all (elements.map packWord))

/-- `unpack` into the array `t`: the array after it, with the elements of its data block that are set.
Without a data block the call throws. -/
def unpack (w : ℕ) (t : Array) : Unpacker (Array × List (BitVec w)) :=
  (unpackWord 64).next fun sz =>
    if 8 < sz.toNat then
      (unpackVector 64).next fun tmp =>
        let t := t.resize (tmp.map BitVec.toNat)
        if t.dataSize = 0 then fun _ _ => none
        else (unpackWords w t.nElements_).next fun elements => .pure (t, elements)
    else .pure (t.resize [], [])

end Model

/-! ## What is packed -/

section Packed

variable {w : ℕ} {a : Array} {data : ℕ → BitVec w}

/-- The elements of a view are in its data block. -/
theorem Good.readAt_elements (h : a.Good) {p : ℤ} (hp : p ∈ a.elements) :
    a.readAt data p = some (data p.toNat) := by
  rw [h.elements_eq] at hp
  have hlt := h.valid.offset_lt hp
  rw [← h.dataSize_eq] at hlt
  exact if_pos hlt

theorem mapM_some {α β : Type*} {f : α → Option β} {g : α → β} :
    ∀ {l : List α}, (∀ x ∈ l, f x = some (g x)) → l.mapM f = some (l.map g)
  | [], _ => rfl
  | x :: l, h => by
    obtain ⟨hx, hl⟩ := List.forall_mem_cons.1 h
    rw [List.mapM_cons, hx, mapM_some hl]
    rfl

/-- The elements of a dense view lie next to one another. -/
theorem Good.elements_of_dense (h : a.Good) (hdense : a.dense_ = true) :
    a.elements = (List.range a.nElements_).map fun i : ℕ => a.begin_ + i := by
  rw [← h.length_elements]
  exact eq_range_of_consecutive (h.consecutive_of_dense hdense) h.head?_elements

/-- **A view packs its elements in row-major order**, whichever way it takes. -/
theorem Good.packedElements_eq (h : a.Good) :
    a.packedElements data = some (a.elements.map fun p => data p.toNat) := by
  have hread := mapM_some (f := a.readAt data) fun p hp => h.readAt_elements hp
  unfold packedElements
  by_cases hdense : a.dense_ = true
  · rw [if_pos hdense, ← h.elements_of_dense hdense, hread]
  · rw [if_neg hdense, h.exact.forwards_eq, Option.bind_some, if_pos h.length_elements, hread]

end Packed

/-! ## What comes out -/

section Unpacked

variable {w : ℕ} {a t : Array} {data : ℕ → BitVec w}

/-- What `countElements` takes the sizes of the dimensions to be, by the first indices that are there. -/
def spans : List ℕ → List ℤ → List ℤ
  | [], _ => []
  | n :: sizes, firsts => (n - firsts.headD 0) :: spans sizes firsts.tail

theorem setSizes_spans : ∀ (sizes : List ℕ) (firsts : List ℤ),
    (setSizes sizes firsts).map Dim.current = sizes ∧
      ((setSizes sizes firsts).map fun d : Dim => d.last - d.first + 1) = spans sizes firsts
  | [], _ => ⟨rfl, rfl⟩
  | n :: sizes, firsts => by
    obtain ⟨hcurrent, hspan⟩ := setSizes_spans sizes firsts.tail
    have hcons : setSizes (n :: sizes) firsts = ⟨n, extent (setSizes sizes firsts.tail), firsts.headD 0,
        n - 1, n⟩ :: setSizes sizes firsts.tail := rfl
    rw [hcons, List.map_cons, List.map_cons, hcurrent, hspan, spans]
    refine ⟨rfl, congrArg (· :: _) ?_⟩
    dsimp only
    omega

/-- The number of elements of an array that is resized. -/
def resizedCount (t : Array) (sizes : List ℕ) : ℕ :=
  ((spans sizes (t.dims.map Dim.first)).prod % 2 ^ 64).toNat

/-- An array that is resized to sizes none of which is zero. -/
theorem resize_eq {sizes : List ℕ} (hne : sizes ≠ []) (hpos : ∀ n ∈ sizes, 0 < n) :
    t.resize sizes = ⟨setSizes sizes (t.dims.map Dim.first), sizes.prod, t.resizedCount sizes, true, 0,
      sizes.prod⟩ := by
  have hfilter : sizes.filter (· ≠ 0) = sizes :=
    List.filter_eq_self.2 fun n hn => decide_eq_true (hpos n hn).ne'
  have hne' : setSizes sizes (t.dims.map Dim.first) ≠ [] := by
    cases sizes with
    | nil => exact absurd rfl hne
    | cons n sizes => exact List.cons_ne_nil _ _
  unfold resize
  rw [hfilter]
  dsimp only
  rw [if_neg hne', countElements, if_neg hne', (setSizes_spans _ _).2]
  rfl

/-- The iterator of a dense array from its first position on. -/
theorem forwards_of_dense {n : ℕ} (hdense : t.dense_ = true) (hbegin : t.begin_ = 0) (hend : t.end_ = n)
    (fuel : ℕ) (hfuel : n < fuel) : t.forwards fuel = some ((List.range n).map fun i : ℕ => (i : ℤ)) := by
  have hrange : ((List.range n).map fun i : ℕ => (i : ℤ)) ++ [t.end_] =
      (List.range (n + 1)).map fun i : ℕ => (i : ℤ) := by
    rw [List.range_succ, List.map_append, hend]
    rfl
  refine walk_of_isChain ?_ ?_ ?_ (by simpa using hfuel)
  · rw [hrange, List.range_succ_eq_map, hbegin]
    rfl
  · rw [hrange, List.isChain_map, List.isChain_iff_getElem]
    intro i hi
    rw [List.length_range] at hi
    rw [List.getElem_range, List.getElem_range, increment, if_neg (by omega), hdense]
    rfl
  · intro hmem
    obtain ⟨i, hi, heq⟩ := List.mem_map.1 hmem
    have := List.mem_range.1 hi
    omega

end Unpacked

/-! ## The round trip -/

section Trip

variable {w : ℕ} {a t t' : Array} {data : ℕ → BitVec w} {elements : List (BitVec w)}

/-- The elements of a view by their values. -/
def values (a : Array) (data : ℕ → BitVec w) : List (BitVec w) := a.elements.map fun p => data p.toNat

/-- The array `t'` with these elements is dense, has the dimensions of the view, and its elements, in
row-major order, are those of the view. -/
structure Delivered (a : Array) (data : ℕ → BitVec w) (t' : Array) (elements : List (BitVec w)) : Prop where
  dense : t'.dense_ = true
  dimensions_eq : t'.dimensions = a.dimensions
  forwards_eq : t'.forwards (t'.nElements_ + 1) = some ((List.range elements.length).map fun i : ℕ => (i : ℤ))
  elements_eq : elements = a.values data

/-- The view is packed into as many bytes as its size says, and unpacked from just these into `t`. -/
def PacksBack (a : Array) (data : ℕ → BitVec w) (t : Array) : Prop :=
  ∃ f bs t' elements, a.pack data = some f ∧ Packs f (.only bs) ∧ bs.length = a.size w ∧
    Unpacks (unpack w t) bs (t', elements) ∧ Delivered a data t' elements

/-- What has to hold of the array that is unpacked into: for an empty array, that it is dense; otherwise
that its first indices leave the number of elements what it is. -/
def Receives (a t : Array) : Prop :=
  if a.nElements_ = 0 then t.dense_ = true
  else a.dims ≠ [] ∧ t.resizedCount a.dimensions = a.nElements_

instance (a t : Array) : Decidable (a.Receives t) := by unfold Receives; infer_instance

theorem Good.dimensions_pos (h : a.Good) : ∀ n ∈ a.dimensions, 0 < n := by
  intro n hn
  obtain ⟨d, hd, rfl⟩ := List.mem_map.1 hn
  exact (List.forall₂_same.1 h.valid.forall₂_refl d hd).ok.current_pos

theorem Good.dimensions_ne_nil (h : a.Good) : a.dimensions ≠ [] :=
  fun hnil => h.ne_nil (List.map_eq_nil_iff.1 hnil)

theorem Good.prod_dimensions (h : a.Good) : a.dimensions.prod = a.nElements_ := h.count_eq.symm

theorem Good.nElements_pos (h : a.Good) : 0 < a.nElements_ := by
  rw [← h.prod_dimensions]
  exact List.prod_pos h.dimensions_pos

/-- The bytes of a packed view. -/
def bytes (a : Array) (data : ℕ → BitVec w) : List (BitVec 8) :=
  leBytes 8 (BitVec.ofNat 64 (a.size w)).toNat ++ (vectorBytes (a.dimensions.map (BitVec.ofNat 64)) ++
    (a.values data).flatMap fun v => leBytes (w / 8) v.toNat)

theorem Good.pack_eq (h : a.Good) : ∃ f, a.pack data = some f ∧ Packs f (.only (a.bytes data)) := by
  refine ⟨_, ?_, (packs_word _).next_only ((packs_vector (a.dimensions.map (BitVec.ofNat 64))).next_only
    (packs_words (a.values data)))⟩
  unfold pack
  rw [if_neg h.nElements_pos.ne', h.packedElements_eq]
  rfl

theorem Good.length_values (h : a.Good) : (a.values data).length = a.nElements_ := by
  rw [values, List.length_map, h.length_elements]

theorem Good.length_bytes (h : a.Good) : (a.bytes data).length = a.size w := by
  rw [bytes, List.length_append, List.length_append, leBytes_length, vectorBytes_length,
    flatMap_length fun v => leBytes_length, h.length_values, size, if_neg h.nElements_pos.ne',
    List.length_map]

/-- The dimensions come back as they were. -/
theorem Good.toNat_dimensions (h : a.Good) (hsize : a.size w < 2 ^ 64) (hw : 0 < w / 8) :
    (a.dimensions.map (BitVec.ofNat 64)).map BitVec.toNat = a.dimensions := by
  rw [List.map_map]
  refine (List.map_congr_left fun n hn => ?_).trans (List.map_id _)
  have hle : n ≤ a.nElements_ := by
    rw [← h.prod_dimensions]
    exact Nat.le_of_dvd (List.prod_pos h.dimensions_pos) (List.dvd_prod hn)
  have hmul : a.nElements_ ≤ a.nElements_ * (w / 8) := Nat.le_mul_of_pos_right _ hw
  rw [size, if_neg h.nElements_pos.ne'] at hsize
  rw [Function.comp_apply, BitVec.toNat_ofNat, id_eq, Nat.mod_eq_of_lt (by omega)]

/-- What is left to unpack once the size and the dimensions have been read. -/
def unpackElements (w : ℕ) (t : Array) (sizes : List ℕ) : Unpacker (Array × List (BitVec w)) :=
  (unpackWords w (t.resizedCount sizes)).next fun elements => .pure (t.resize sizes, elements)

/-- The size and the dimensions of a view are read as they are. -/
theorem Good.unpack_eq (h : a.Good) (hw : 0 < w / 8) (hsize : a.size w < 2 ^ 64) {x : Buf} {p : ℕ}
    (hx : Reads x p (a.bytes data)) :
    unpack w t x p = (unpackElements w t a.dimensions x (p + 8 + (8 + a.dimensions.length * 8))).map
      fun s => (s.1, 8 + (8 + a.dimensions.length * 8 + s.2)) := by
  obtain ⟨hxsize, hxrest⟩ := reads_append.1 hx
  obtain ⟨hxdims, -⟩ := reads_append.1 hxrest
  rw [leBytes_length] at hxdims
  have hcount := h.nElements_pos
  have hsz : 8 < a.size w := by
    rw [size, if_neg hcount.ne']
    omega
  have hlen : (a.dimensions.map (BitVec.ofNat 64)).length < 2 ^ 64 := by
    rw [size, if_neg hcount.ne'] at hsize
    rw [List.length_map]
    omega
  have hword := unpacks_word (by decide) (BitVec.ofNat 64 (a.size w)) x p hxsize
  have hvector := unpacks_vector (by decide) hlen x (p + 8) hxdims
  have hdata : a.dimensions.prod ≠ 0 := by
    rw [h.prod_dimensions]
    exact hcount.ne'
  rw [vectorBytes_length, List.length_map] at hvector
  rw [unpack, Unpacker.next, hword, Option.bind_some, leBytes_length, BitVec.toNat_ofNat,
    Nat.mod_eq_of_lt hsize, if_pos hsz, Unpacker.next, hvector, Option.bind_some]
  dsimp only
  rw [h.toNat_dimensions hsize hw, resize_eq h.dimensions_ne_nil h.dimensions_pos, if_neg hdata,
    unpackElements, resize_eq h.dimensions_ne_nil h.dimensions_pos, Option.map_map]
  rfl

/-- **A view as it should be comes back exactly if the array it goes into keeps its number of
elements.** -/
theorem Good.packsBack_iff (h : a.Good) (hw : w % 8 = 0) (hpos : 0 < w) (hsize : a.size w < 2 ^ 64) :
    PacksBack a data t ↔ t.resizedCount a.dimensions = a.nElements_ := by
  obtain ⟨f, hf, hpacks⟩ : ∃ f, a.pack data = some f ∧ Packs f (.only (a.bytes data)) := h.pack_eq
  have hbytes : 0 < w / 8 := by omega
  have hresize := resize_eq (t := t) h.dimensions_ne_nil h.dimensions_pos
  have hlen : (a.bytes data).length = a.size w := h.length_bytes
  have hszdef : a.size w = 8 + (8 + a.dimensions.length * 8 + a.nElements_ * (w / 8)) := by
    rw [size, if_neg h.nElements_pos.ne']
  constructor
  · rintro ⟨f', bs, t', elements, hf', hpacks', hbs, hunpacks, -⟩
    obtain rfl : f = f' := Option.some.inj (hf.symm.trans hf')
    obtain rfl := hpacks.only_inj hpacks'
    -- as many bytes are read as there are
    have hx := @reads_writeBytes (fun _ => 0) 0 (a.bytes data)
    obtain ⟨vs, hvs⟩ := unpackWords_count w (writeBytes (fun _ => 0) 0 (a.bytes data))
      (t.resizedCount a.dimensions) (0 + 8 + (8 + a.dimensions.length * 8))
    have hread := hunpacks _ 0 hx
    rw [h.unpack_eq hbytes hsize hx, unpackElements, Unpacker.next, hvs, hbs] at hread
    have hcount := congrArg (Option.map Prod.snd) hread
    simp only [Option.bind_some, Unpacker.pure, Option.map_some, Option.some.injEq, Nat.add_zero,
      hszdef] at hcount
    have hmul : t.resizedCount a.dimensions * (w / 8) = a.nElements_ * (w / 8) := by omega
    exact Nat.eq_of_mul_eq_mul_right hbytes hmul
  · intro hcount
    refine ⟨f, a.bytes data, t.resize a.dimensions, a.values data, hf, hpacks, hlen, ?_, ?_⟩
    · intro x p hx
      have hwords := unpacks_words hw (a.values data)
      rw [h.length_values, ← hcount] at hwords
      have hxwords := (reads_append.1 (reads_append.1 hx).2).2
      rw [leBytes_length, vectorBytes_length, List.length_map] at hxwords
      change Reads x (p + 8 + (8 + a.dimensions.length * 8)) _ at hxwords
      have hread := hwords.last (k := fun elements => .pure (t.resize a.dimensions, elements))
        unpacks_pure x _ hxwords
      rw [h.unpack_eq hbytes hsize hx, unpackElements, hread, Option.map_some, hlen, hszdef,
        flatMap_length fun v => leBytes_length, h.length_values]
    · rw [hresize]
      refine ⟨rfl, (setSizes_spans _ _).1, ?_, rfl⟩
      rw [h.length_values]
      refine forwards_of_dense rfl rfl ?_ _ ?_
      · rw [h.prod_dimensions]
      · rw [hcount]
        exact Nat.lt_succ_self _

/-! ### Arrays without dimensions -/

theorem mapM_none {α β : Type*} {f : α → Option β} {x : α} {l : List α} (h : f x = none) :
    (x :: l).mapM f = none := by
  rw [List.mapM_cons, h]
  rfl

/-- An element of an array without a data block cannot be packed. -/
theorem pack_of_nil (hdata : a.dataSize = 0) (hcount : a.nElements_ ≠ 0) : a.pack data = none := by
  have hread : ∀ pos, a.readAt data pos = none := fun pos => if_neg (by rw [hdata]; omega)
  have hnone : ∀ l : List ℤ, l.length = a.nElements_ → l.mapM (a.readAt data) = none := by
    rintro (_ | ⟨x, l⟩) hl
    · exact absurd hl.symm hcount
    · exact mapM_none (hread x)
  unfold pack packedElements
  rw [if_neg hcount, Option.map_eq_none_iff]
  by_cases hdense : a.dense_ = true
  · rw [if_pos hdense]
    exact hnone _ (by simp)
  · rw [if_neg hdense, Option.bind_eq_none_iff]
    intro visited _
    by_cases hlen : visited.length = a.nElements_
    · rw [if_pos hlen]
      exact hnone visited hlen
    · rw [if_neg hlen]

/-- An empty array comes back exactly if the array it goes into is dense. -/
theorem packsBack_of_nil (hnil : a.dims = []) (hcount : a.nElements_ = 0) :
    PacksBack a data t ↔ t.dense_ = true := by
  have hsize : a.size w = 8 := if_pos hcount
  have hpack : a.pack data = some (packWord (BitVec.ofNat 64 (a.size w))) := if_pos hcount
  have hread : Unpacks (unpack w t) (leBytes 8 (BitVec.ofNat 64 (a.size w)).toNat) (t.resize [], []) := by
    have hword := unpacks_word (w := 64) (by decide) (BitVec.ofNat 64 (a.size w))
    refine hword.last ?_
    rw [hsize]
    exact unpacks_pure
  have hresize : t.resize [] = { t with dims := [], dataSize := 0, nElements_ := 0, begin_ := 0, end_ := 0 } := rfl
  constructor
  · rintro ⟨f, bs, t', elements, hf, hpacks, -, hunpacks, hdelivered⟩
    obtain rfl := Option.some.inj (hpack.symm.trans hf)
    obtain rfl := (packs_word _).only_inj hpacks
    have hx := @reads_writeBytes (fun _ => 0) 0 (leBytes (64 / 8) (BitVec.ofNat 64 (a.size w)).toNat)
    have heq := (hread _ 0 hx).symm.trans (hunpacks _ 0 hx)
    have hfst : t.resize [] = t' := congrArg (fun r => r.1.1) (Option.some.inj heq)
    have hdense := hdelivered.dense
    rw [← hfst] at hdense
    exact hdense
  · intro hdense
    refine ⟨_, _, _, _, hpack, packs_word _, ?_, hread, ?_⟩
    · rw [leBytes_length, hsize]
    · refine ⟨hdense, ?_, rfl, ?_⟩
      · rw [dimensions, dimensions, hnil]
        rfl
      · rw [values, elements, if_pos hnil]
        rfl

/-! ### Every view -/

theorem apply_dataSize {op : Op} {a' : Array} (hs : a.apply op = some a') : a'.dataSize = a.dataSize := by
  have hlimits : ∀ {first last}, a.setLimits first last = some a' → a'.dataSize = a.dataSize := by
    intro first last hs
    unfold Array.setLimits at hs
    split_ifs at hs
    obtain rfl := Option.some.inj hs
    rfl
  have hlimitsOf : ∀ {limits}, a.setLimitsOf limits = some a' → a'.dataSize = a.dataSize := by
    intro limits hs
    unfold Array.setLimitsOf at hs
    split_ifs at hs
    · exact hlimits hs
    · exact hlimits hs
  cases op with
  | subArray indices =>
    have hs' : a.subArray indices = some a' := hs
    unfold Array.subArray at hs'
    split_ifs at hs'
    · exact hlimitsOf hs'
    · obtain rfl := Option.some.inj hs'
      rfl
  | subArrayTo first last => exact hlimits hs
  | setLimits first last => exact hlimits hs
  | setLimitsOf limits => exact hlimitsOf hs
  | shift dim n =>
    obtain rfl := Option.some.inj hs
    unfold Array.shift
    by_cases hn : n = 0
    · rw [if_pos hn]
    · rw [if_neg hn]
      cases a.dims[dim]? <;> rfl
  | resetLimits =>
    have hs' : a.resetLimits = some a' := hs
    unfold Array.resetLimits at hs'
    cases hdims : a.dims with
    | nil =>
      rw [hdims] at hs'
      cases hs'
    | cons d ds =>
      rw [hdims] at hs'
      obtain rfl := Option.some.inj hs'
      rfl

/-- A view that operations lead to is as it should be, or has no dimensions and no data block. -/
theorem reached {sizes : List ℕ} (hfits : (sizes.filter (· ≠ 0)).prod < 2 ^ 63) {ops : List Op}
    (h : ops.foldlM Array.apply (construct sizes) = some a) :
    a.Good ∨ (a.dims = [] ∧ a.dataSize = 0) := by
  have hinv : Always Array.apply (fun a => a.Good ∨ (a.dims = [] ∧ a.dataSize = 0)) (construct sizes) ops := by
    refine always_of_invariant ?_ ?_
    · rintro a op a' (hgood | ⟨hnil, hdata⟩) hs
      · exact .inl (hgood.apply hs)
      · exact .inr ⟨(apply_of_nil hnil hs).1, (apply_dataSize hs).trans hdata⟩
    · exact (construct_good hfits).imp_right fun heq => by rw [heq]; exact ⟨rfl, rfl⟩
  exact hinv.last h

/-- **A view comes back exactly if the array it goes into receives it**: for a view without elements, if
that array is dense; for another one, which needs dimensions, if the first indices that the array keeps
leave the number of elements what it is. -/
theorem packs_back_iff (sizes : List ℕ) (hfits : (sizes.filter (· ≠ 0)).prod < 2 ^ 63) (ops : List Op)
    (h : ops.foldlM Array.apply (construct sizes) = some a) (hw : w % 8 = 0) (hpos : 0 < w)
    (hsize : a.size w < 2 ^ 64) (data : ℕ → BitVec w) (t : Array) :
    PacksBack a data t ↔ a.Receives t := by
  unfold Receives
  rcases reached hfits h with hgood | ⟨hnil, hdata⟩
  · rw [if_neg hgood.nElements_pos.ne', hgood.packsBack_iff hw hpos hsize]
    exact (and_iff_right hgood.ne_nil).symm
  · by_cases hcount : a.nElements_ = 0
    · rw [if_pos hcount]
      exact packsBack_of_nil hnil hcount
    · rw [if_neg hcount]
      refine iff_of_false ?_ fun hreceives => hreceives.1 hnil
      rintro ⟨f, bs, t', elements, hf, -⟩
      rw [pack_of_nil hdata hcount] at hf
      cases hf

/-- The second row of an array of two rows. -/
def secondRow : Array := ⟨[⟨2, 2, 1, 1, 1⟩, ⟨2, 1, 0, 1, 2⟩], 4, 2, true, 2, 4⟩

/-- A view of one row goes into a new array. -/
theorem row_back : PacksBack secondRow (fun i => BitVec.ofNat 16 i) (construct []) :=
  (packs_back_iff [2, 2] (by decide) [.subArray [1, 1, 0, 1]] rfl rfl (by decide) (by decide)
    (fun i => BitVec.ofNat 16 i) (construct [])).2 (by decide)

/-- The whole array does not go into the view: only half of its elements are read. -/
theorem row_not_received : ¬PacksBack (construct [2, 2]) (fun i => BitVec.ofNat 16 i) secondRow := by
  have hgood : (construct [2, 2]).Good := (construct_good (by decide)).resolve_right (by decide)
  rw [hgood.packsBack_iff rfl (by decide) (by decide)]
  decide

end Trip

end Array

end Redux.Util.Arrays
