import Mathlib.Algebra.Order.Group.Abs
import Redux.Util.ArrayLimits
import Redux.Util.ArrayPack

/-!
# Util.ArrayNeighbourhood — the elements around an iterator

`neighbourhood` takes the indices of its position from the data block and makes a sub-array of them, whose
indices are relative to the view.  In a dimension that does not begin at zero the sub-array is moved by the
first index of the view and then clamped, which is right in corners only (`Reaches`, `neighbourhood_iff`).
-/

namespace Redux.Util.Arrays

open Redux.Lib

/-! ## Model -/

/-- `indexFromPos( pos )`. -/
def indexFromPos : List Dim → ℤ → List ℤ
  | [], _ => []
  | d :: ds, pos =>
    let i := pos.tdiv d.stride
    i :: indexFromPos ds (pos - i * d.stride)

namespace Array

/-- `neighbourhood( maxDistance )` of an iterator at `pos`, which throws if the numbers of dimensions differ. -/
def neighbourhood (a : Array) (pos : ℤ) (maxDistance : List ℤ) : Option Array :=
  let index := indexFromPos a.dims pos
  if index.length ≠ maxDistance.length then none
  else
    let pairs := index.zip maxDistance
    a.apply (.subArrayTo (pairs.map fun p => p.1 - p.2) (pairs.map fun p => p.1 + p.2))

end Array

/-! ## What it stands for -/

/-- In no dimension the indices differ by more than the distance. -/
def Near (ds : List Dim) (maxDistance : List ℤ) (pos q : ℤ) : Prop :=
  ∀ t ∈ ((indexFromPos ds pos).zip maxDistance).zip (indexFromPos ds q), |t.2 - t.1.1| ≤ t.1.2

/-- The elements of the view that are near. -/
def Array.Centred (a : Array) (pos : ℤ) (maxDistance : List ℤ) : Prop :=
  ∃ b, a.neighbourhood pos maxDistance = some b ∧
    ∀ q, q ∈ b.elements ↔ q ∈ a.elements ∧ Near a.dims maxDistance pos q

/-- When the limits of one dimension are right for the index `i` and the distance `m`: the view begins at zero
there, or it is reached up to its end, and down to where the clamping happens to end. -/
def Reaches (d : Dim) (i m : ℤ) : Prop :=
  d.first = 0 ∨ d.last ≤ i + m ∧ (m = 0 ∧ i = d.last ∨ i - m < d.first ∧ (i = m ∨ d.last = d.first ∧ m ≤ i))

instance (d : Dim) (i m : ℤ) : Decidable (Reaches d i m) := inferInstanceAs (Decidable (_ ∨ _))

def Array.Meets (a : Array) (pos : ℤ) (maxDistance : List ℤ) : Prop :=
  a.dims.length = maxDistance.length ∧
    ∀ t ∈ a.dims.zip ((indexFromPos a.dims pos).zip maxDistance), Reaches t.1 t.2.1 t.2.2

instance (a : Array) (pos : ℤ) (maxDistance : List ℤ) : Decidable (a.Meets pos maxDistance) :=
  inferInstanceAs (Decidable (_ ∧ ∀ t ∈ _, _))

/-! ## Indices -/

section Indices

variable {d : Dim} {ds ds' : List Dim} {pos q : ℤ}

theorem length_indexFromPos : ∀ (ds : List Dim) (pos : ℤ), (indexFromPos ds pos).length = ds.length
  | [], _ => rfl
  | _ :: ds, _ => congrArg (· + 1) (length_indexFromPos ds _)

theorem indexFromPos_cons (hq : 0 ≤ q) :
    indexFromPos (d :: ds) q = q / d.stride :: indexFromPos ds (q % d.stride) := by
  rw [indexFromPos, Int.tdiv_eq_ediv_of_nonneg hq, Int.emod_def, Int.mul_comm (d.stride : ℤ)]

/-- Indices go by the strides. -/
theorem indexFromPos_reshaped (h : List.Forall₂ Reshaped ds ds') (pos : ℤ) :
    indexFromPos ds' pos = indexFromPos ds pos := by
  induction h generalizing pos with
  | nil => rfl
  | cons hd _ ih => rw [indexFromPos, indexFromPos, hd.stride_eq, ih]

/-- **An element is one whose indices are within the limits.** -/
theorem Valid.mem_offsets_iff : ∀ {ds : List Dim} {q : ℤ}, Valid ds → 0 ≤ q → q < extent ds →
    (q ∈ offsets ds ↔ List.Forall₂ (fun (d : Dim) i => d.first ≤ i ∧ i ≤ d.last) ds (indexFromPos ds q))
  | [], q, _, hq, hlt => by
    have hzero : q = 0 := by
      change q < 1 at hlt
      omega
    exact iff_of_true (List.mem_singleton.2 hzero) .nil
  | d :: ds, q, h, hq, _ => by
    have hpos : (0 : ℤ) < d.stride := Int.natCast_pos.2 h.stride_head_pos
    have hlt := Int.emod_lt_of_pos q hpos
    rw [h.2.1] at hlt
    rw [h.mem_offsets_cons, indexFromPos_cons hq, List.forall₂_cons,
      h.2.2.mem_offsets_iff (Int.emod_nonneg q hpos.ne') (by rwa [h.2.1])]

end Indices

/-! ## The box around a position -/

section Box

variable {d : Dim} {ds ds' : List Dim} {i m pos : ℤ} {maxDistance : List ℤ}

/-- The part of a dimension that is near the index `t.1`, at the distance `t.2`. -/
def cut (d : Dim) (t : ℤ × ℤ) : Dim :=
  let lo := max d.first (t.1 - t.2)
  let hi := min d.last (t.1 + t.2)
  { d with first := lo, last := hi, current := (hi - lo + 1).toNat }

theorem cut_ok (hd : d.Ok) (hi : d.first ≤ i ∧ i ≤ d.last) (hm : 0 ≤ m) : Reshaped d (cut d (i, m)) := by
  have h₁ := hd.first_nonneg
  have h₂ := hd.last_lt
  refine ⟨rfl, rfl, ?_⟩
  unfold cut
  constructor <;> dsimp only <;> omega

theorem mem_cut_iff {x : ℤ} : ((cut d (i, m)).first ≤ x ∧ x ≤ (cut d (i, m)).last) ↔
    (d.first ≤ x ∧ x ≤ d.last) ∧ |x - i| ≤ m := by
  unfold cut
  rw [abs_le]
  dsimp only
  omega

theorem forall₂_cut : ∀ {ds : List Dim} {ts : List (ℤ × ℤ)} {xs : List ℤ}, ts.length = ds.length → xs.length =
    ds.length →
    (List.Forall₂ (fun (d : Dim) x => d.first ≤ x ∧ x ≤ d.last) (List.zipWith cut ds ts) xs ↔
      List.Forall₂ (fun (d : Dim) x => d.first ≤ x ∧ x ≤ d.last) ds xs ∧ ∀ t ∈ ts.zip xs, |t.2 - t.1.1| ≤ t.1.2)
  | [], [], [], _, _ => iff_of_true .nil ⟨.nil, fun t ht => absurd ht List.not_mem_nil⟩
  | d :: ds, t :: ts, x :: xs, hts, hxs => by
    rw [List.zipWith_cons_cons, List.forall₂_cons, List.forall₂_cons, List.zip_cons_cons, List.forall_mem_cons,
      forall₂_cut (Nat.succ.inj hts) (Nat.succ.inj hxs), mem_cut_iff, and_and_and_comm]

/-- Dimensions with limits that are as they should be, one by one. -/
theorem forall₂_zipWith {R : Dim → Dim → Prop} {f : Dim → ℤ × ℤ → Dim} : ∀ {ds : List Dim} {ts : List (ℤ × ℤ)},
    ts.length = ds.length → (∀ p ∈ ds.zip ts, R p.1 (f p.1 p.2)) → List.Forall₂ R ds (List.zipWith f ds ts)
  | [], [], _, _ => .nil
  | d :: ds, t :: ts, hlen, h => by
    rw [List.zip_cons_cons, List.forall_mem_cons] at h
    exact .cons h.1 (forall₂_zipWith (Nat.succ.inj hlen) h.2)

theorem forall₂_zipWith₂ {R : Dim → Dim → Prop} {f g : Dim → ℤ × ℤ → Dim} : ∀ {ds : List Dim} {ts : List (ℤ × ℤ)},
    (List.Forall₂ R (List.zipWith f ds ts) (List.zipWith g ds ts) ↔ ∀ p ∈ ds.zip ts, R (f p.1 p.2) (g p.1 p.2))
  | [], ts => iff_of_true (by rw [List.zipWith_nil_left, List.zipWith_nil_left]; exact .nil) (by simp)
  | d :: ds, [] => iff_of_true .nil (by simp)
  | d :: ds, t :: ts => by
    rw [List.zipWith_cons_cons, List.zipWith_cons_cons, List.forall₂_cons, List.zip_cons_cons, List.forall_mem_cons,
      forall₂_zipWith₂]

/-- Other limits and other ones. -/
theorem reshaped_trans {ds₁ ds₂ : List Dim} (h₁ : List.Forall₂ Reshaped ds ds₁) (h₂ : List.Forall₂ Reshaped ds ds₂) :
    List.Forall₂ Reshaped ds₁ ds₂ := by
  induction h₁ generalizing ds₂ with
  | nil =>
    obtain rfl := List.forall₂_nil_left_iff.1 h₂
    exact .nil
  | cons hd _ ih =>
    obtain ⟨d₂, ds₂, hd₂, hds₂, rfl⟩ := List.forall₂_cons_left_iff.1 h₂
    exact .cons ⟨hd₂.size_eq.trans hd.size_eq.symm, hd₂.stride_eq.trans hd.stride_eq.symm, hd₂.ok⟩ (ih hds₂)

/-- **Two views of a block have the same elements** if they have the same limits. -/
theorem same_iff {f g : Dim → ℤ × ℤ → Dim} {ts : List (ℤ × ℤ)} (hf : Valid (List.zipWith f ds ts))
    (hg : Valid (List.zipWith g ds ts)) (hfg : List.Forall₂ Reshaped (List.zipWith f ds ts) (List.zipWith g ds ts))
    (hgf : List.Forall₂ Reshaped (List.zipWith g ds ts) (List.zipWith f ds ts)) :
    (∀ q, q ∈ offsets (List.zipWith f ds ts) ↔ q ∈ offsets (List.zipWith g ds ts)) ↔
      ∀ p ∈ ds.zip ts, (f p.1 p.2).first = (g p.1 p.2).first ∧ (f p.1 p.2).last = (g p.1 p.2).last := by
  have hboth : (∀ q, q ∈ offsets (List.zipWith f ds ts) ↔ q ∈ offsets (List.zipWith g ds ts)) ↔
      (∀ q ∈ offsets (List.zipWith f ds ts), q ∈ offsets (List.zipWith g ds ts)) ∧
        ∀ q ∈ offsets (List.zipWith g ds ts), q ∈ offsets (List.zipWith f ds ts) :=
    ⟨fun hall => ⟨fun q => (hall q).1, fun q => (hall q).2⟩, fun hall q => ⟨hall.1 q, hall.2 q⟩⟩
  rw [hboth, hf.nested_iff hfg, hg.nested_iff hgf, forall₂_zipWith₂, forall₂_zipWith₂, ← forall₂_and]
  refine forall₂_congr fun p _ => ?_
  omega

end Box

/-! ## Neighbourhoods -/

namespace Array

section Neighbourhood

variable {a : Array} {d : Dim} {i m pos : ℤ} {maxDistance : List ℤ}

theorem limit_eq_cut_iff (hd : d.Ok) (hi : d.first ≤ i ∧ i ≤ d.last) (hm : 0 ≤ m) :
    ((limit d (i - m) (i + m)).first = (cut d (i, m)).first ∧ (limit d (i - m) (i + m)).last = (cut d (i, m)).last) ↔
      Reaches d i m := by
  have hnonneg := hd.first_nonneg
  obtain ⟨hlow, hhigh⟩ := limit_of_le (d := d) (show i - m ≤ i + m by omega)
  have hfirst : min (max (d.first + (i - m)) 0) d.last = max d.first (i - m) ↔ d.first = 0 ∨ (m = 0 ∧ i = d.last ∨
      i - m < d.first ∧ (i = m ∨ d.last = d.first ∧ m ≤ i)) := by
    by_cases hbefore : i - m < d.first
    · rw [max_eq_left hbefore.le]
      omega
    · rw [max_eq_right (not_lt.1 hbefore)]
      omega
  have hlast : min (max (d.first + (i + m)) 0) d.last = min d.last (i + m) ↔ d.first = 0 ∨ d.last ≤ i + m := by
    rw [max_eq_left (by omega)]
    omega
  rw [hlow, hhigh, cut, hfirst, hlast, Reaches, and_comm, ← or_and_left]

theorem forall_mem_zip : ∀ {ds : List Dim} {xs ms : List ℤ}, (∀ d ∈ ds, d.Ok) → (∀ m ∈ ms, 0 ≤ m) →
    List.Forall₂ (fun (d : Dim) x => d.first ≤ x ∧ x ≤ d.last) ds xs →
      ∀ p ∈ ds.zip (xs.zip ms), p.1.Ok ∧ (p.1.first ≤ p.2.1 ∧ p.2.1 ≤ p.1.last) ∧ 0 ≤ p.2.2
  | [], _, _, _, _, _, p, hp => absurd hp List.not_mem_nil
  | _ :: _, _ :: _, [], _, _, _, p, hp => by simp at hp
  | d :: ds, x :: xs, m :: ms, hok, hm, .cons hx hxs, p, hp => by
    rw [List.forall_mem_cons] at hok hm
    rw [List.zip_cons_cons, List.zip_cons_cons, List.mem_cons] at hp
    rcases hp with rfl | hp
    · exact ⟨hok.1, hx, hm.1⟩
    · exact forall_mem_zip hok.2 hm.2 hxs p hp

/-- What `neighbourhood` makes for as many distances as dimensions. -/
theorem Good.neighbourhood_eq (h : a.Good) (hlen : a.dims.length = maxDistance.length) (pos : ℤ) :
    ∃ b : Array, a.neighbourhood pos maxDistance = some b ∧ b.Good ∧
      b.dims = List.zipWith (fun d t => limit d (t.1 - t.2) (t.1 + t.2)) a.dims
        ((indexFromPos a.dims pos).zip maxDistance) := by
  have hindex := length_indexFromPos a.dims pos
  obtain ⟨b, hb⟩ : ∃ b, a.neighbourhood pos maxDistance = some b := by
    unfold neighbourhood Array.apply Array.setLimits
    dsimp only
    rw [if_neg (by omega), if_neg]
    · exact ⟨_, rfl⟩
    · rw [List.length_map, List.length_map, List.length_zip]
      omega
  have hlimits : a.apply (.subArrayTo (((indexFromPos a.dims pos).zip maxDistance).map fun p => p.1 - p.2)
      (((indexFromPos a.dims pos).zip maxDistance).map fun p => p.1 + p.2)) = some b := by
    unfold neighbourhood at hb
    dsimp only at hb
    rwa [if_neg (by omega)] at hb
  refine ⟨b, hb, h.apply hlimits, ?_⟩
  rw [(setLimits_eq hlimits).2.2, List.zip_map', List.zipWith_map_right]

/-- What is around an element, for as many distances as dimensions. -/
theorem Good.centred_iff (h : a.Good) (hpos : pos ∈ a.elements) (hlen : a.dims.length = maxDistance.length)
    (hm : ∀ m ∈ maxDistance, 0 ≤ m) : a.Centred pos maxDistance ↔
      ∀ t ∈ a.dims.zip ((indexFromPos a.dims pos).zip maxDistance), Reaches t.1 t.2.1 t.2.2 := by
  have hindex := length_indexFromPos a.dims pos
  have hts : ((indexFromPos a.dims pos).zip maxDistance).length = a.dims.length := by
    rw [List.length_zip]
    omega
  rw [h.elements_eq] at hpos
  obtain ⟨hnonneg, hlt⟩ := h.valid.offset_lt hpos
  have hdims := forall_mem_zip h.dim_ok hm ((h.valid.mem_offsets_iff hnonneg hlt).1 hpos)
  obtain ⟨b, hb, hgood, hbdims⟩ := h.neighbourhood_eq hlen pos
  -- the limits that there are, and the ones that are wanted
  have hlims : List.Forall₂ Reshaped a.dims (List.zipWith (fun d t => limit d (t.1 - t.2) (t.1 + t.2)) a.dims
      ((indexFromPos a.dims pos).zip maxDistance)) := forall₂_zipWith hts fun p hp => limit_ok (hdims p hp).1 _ _
  have hbox : List.Forall₂ Reshaped a.dims (List.zipWith cut a.dims ((indexFromPos a.dims pos).zip maxDistance)) :=
    forall₂_zipWith hts fun p hp => cut_ok (hdims p hp).1 (hdims p hp).2.1 (hdims p hp).2.2
  have hvalid := h.valid.reshaped hbox
  have hmem : ∀ q, q ∈ offsets (List.zipWith cut a.dims ((indexFromPos a.dims pos).zip maxDistance)) ↔
      q ∈ offsets a.dims ∧ Near a.dims maxDistance pos q := by
    intro q
    by_cases hq : 0 ≤ q ∧ q < extent a.dims
    · have hextent := extent_of_reshaped hbox
      rw [hvalid.mem_offsets_iff hq.1 (by rw [hextent]; exact hq.2), h.valid.mem_offsets_iff hq.1 hq.2,
        indexFromPos_reshaped hbox, forall₂_cut hts (length_indexFromPos a.dims q)]
      rfl
    · refine iff_of_false (fun hcut => hq ?_) fun hin => hq (h.valid.offset_lt hin.1)
      have hcut := hvalid.offset_lt hcut
      rwa [extent_of_reshaped hbox] at hcut
  have hcentred : a.Centred pos maxDistance ↔ ∀ q, q ∈ b.elements ↔ q ∈ a.elements ∧ Near a.dims maxDistance pos q :=
    ⟨fun ⟨b', hb', hall⟩ => Option.some.inj (hb.symm.trans hb') ▸ hall, fun hall => ⟨b, hb, hall⟩⟩
  rw [hcentred, hgood.elements_eq, h.elements_eq, hbdims]
  simp only [← hmem]
  rw [same_iff (h.valid.reshaped hlims) hvalid (reshaped_trans hlims hbox) (reshaped_trans hbox hlims)]
  exact forall₂_congr fun p hp => limit_eq_cut_iff (hdims p hp).1 (hdims p hp).2.1 (hdims p hp).2.2

/-- **A neighbourhood is the box around its position exactly if the limits are right in every dimension**, and
there are as many distances as dimensions. -/
theorem neighbourhood_iff (sizes : List ℕ) (hfits : (sizes.filter (· ≠ 0)).prod < 2 ^ 63) (ops : List Op)
    (ha : ops.foldlM apply (construct sizes) = some a) (hpos : pos ∈ a.elements) (maxDistance : List ℤ)
    (hm : ∀ m ∈ maxDistance, 0 ≤ m) : a.Centred pos maxDistance ↔ a.Meets pos maxDistance := by
  rcases reached hfits ha with h | ⟨hnil, -⟩
  · by_cases hlen : a.dims.length = maxDistance.length
    · rw [h.centred_iff hpos hlen hm, Meets, and_iff_right hlen]
    · refine iff_of_false (fun ⟨b, hb, _⟩ => ?_) fun hmeets => hlen hmeets.1
      unfold neighbourhood at hb
      dsimp only at hb
      rw [if_pos (by rwa [length_indexFromPos])] at hb
      cases hb
  · rw [elements, if_pos hnil] at hpos
    exact absurd hpos List.not_mem_nil

/-- The middle of a whole array. -/
theorem middle_centred : (construct [5, 6]).Centred 14 [1, 2] :=
  (neighbourhood_iff [5, 6] (by decide) [] rfl (show (14 : ℤ) ∈ _ by decide) [1, 2] (by decide)).2 (by decide)

/-- Around the middle of a view that does not begin at zero. -/
theorem middle_not_centred : ∃ a : Array, [Op.setLimits [4] [8]].foldlM apply (construct [10]) = some a ∧
    6 ∈ a.elements ∧ ¬a.Centred 6 [1] := by
  refine ⟨⟨[⟨10, 1, 4, 8, 5⟩], 10, 5, true, 4, 9⟩, rfl, by decide, ?_⟩
  rintro ⟨b, hb, hall⟩
  obtain rfl := Option.some.inj hb
  have hsix := (hall 6).2 ⟨by decide, by unfold Near; decide⟩
  exact absurd hsix (by decide)

end Neighbourhood

end Array

end Redux.Util.Arrays
