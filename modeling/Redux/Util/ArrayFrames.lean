import Redux.Util.ArrayAccess

/-!
# Util.ArrayFrames — views of new arrays

The limits of a view are relative and clamped.  For an array as it is constructed they are what is asked for,
if that is in the array (`exists_setLimits`), and a view of some frames of a stack goes through their elements
one after the other (`exists_frames`).
-/

namespace Redux.Util.Arrays

namespace Array

variable {n k lo hi : ℕ} {sizes : List ℕ} {a : Array}

/-! ## Limits -/

/-- The number of dimensions. -/
theorem dims_length : (construct sizes).dims.length = (sizes.filter (· ≠ 0)).length := by
  rw [← sizes_construct, List.length_map]

theorem dims_construct (h : ∀ n ∈ sizes, 0 < n) : (construct sizes).dims = setSizes sizes [] := by
  rw [construct_eq, List.filter_eq_self.2 fun n hn => decide_eq_true (h n hn).ne']
  split_ifs with hnil
  · rw [hnil]
    rfl
  · rfl

theorem setLimitsOf_two (h : a.dims.length = 2) (p q r t : ℤ) :
    a.setLimitsOf [p, q, r, t] = a.setLimits [p, r] [q, t] := by
  rw [setLimitsOf, h]
  rfl

theorem setLimitsOf_three (h : a.dims.length = 3) (p q r t u v : ℤ) :
    a.setLimitsOf [p, q, r, t, u, v] = a.setLimits [p, r, u] [q, t, v] := by
  rw [setLimitsOf, h]
  rfl

theorem subArray_three (h : a.dims.length = 3) (p q r t u v : ℤ) :
    a.subArray [p, q, r, t, u, v] = a.setLimits [p, r, u] [q, t, v] := by
  rw [subArray, h]
  exact (if_neg (show ¬(6 % 2 = 1 ∨ 2 * 3 < 6) by decide)).trans
    ((if_pos (List.cons_ne_nil _ _)).trans (setLimitsOf_three h p q r t u v))

/-- There are no six limits for fewer than three dimensions. -/
theorem subArray_of_few (h : a.dims.length < 3) (p q r t u v : ℤ) : a.subArray [p, q, r, t, u, v] = none :=
  if_pos (.inr (show 2 * a.dims.length < 6 by omega))

/-- The limits of a dimension of a new array, if they are in the array. -/
theorem limit_eq (h : lo ≤ hi) (h' : hi < n) : limit ⟨n, k, 0, n - 1, n⟩ lo hi = ⟨n, k, lo, hi, hi + 1 - lo⟩ := by
  have hlast : min (max (0 + (hi : ℤ)) 0) (n - 1) = hi := by omega
  have hfirst : min (max (0 + (lo : ℤ)) 0) (n - 1) = lo := by omega
  simp only [limit, hlast, hfirst]
  rw [if_neg (by omega), if_neg (by omega)]
  congr 1
  omega

/-- The sizes, the first and the last indices of the dimensions of a view of a new array. -/
theorem current_limits : ∀ {boxes : List (ℕ × ℕ × ℕ)}, (∀ b ∈ boxes, b.2.1 ≤ b.2.2 ∧ b.2.2 < b.1) →
    (List.zipWith (fun d (l : ℤ × ℤ) => limit d l.1 l.2) (setSizes (boxes.map (·.1)) [])
      ((boxes.map fun b => (b.2.1 : ℤ)).zip (boxes.map fun b => (b.2.2 : ℤ)))).map Dim.current =
        boxes.map fun b => b.2.2 + 1 - b.2.1
  | [], _ => rfl
  | b :: boxes, h => by
    obtain ⟨⟨hle, hlt⟩, hboxes⟩ := List.forall_mem_cons.1 h
    have hcons : setSizes ((b :: boxes).map (·.1)) [] =
      ⟨b.1, extent (setSizes (boxes.map (·.1)) []), 0, b.1 - 1, b.1⟩ :: setSizes (boxes.map (·.1)) [] := rfl
    rw [hcons, List.map_cons, List.map_cons, List.zip_cons_cons, List.zipWith_cons_cons, List.map_cons,
      current_limits hboxes, limit_eq hle hlt, List.map_cons]

/-- A view of a new array, with limits in the array. -/
theorem exists_setLimits {boxes : List (ℕ × ℕ × ℕ)} (h : ∀ b ∈ boxes, b.2.1 ≤ b.2.2 ∧ b.2.2 < b.1) :
    ∃ a, (construct (boxes.map (·.1))).setLimits (boxes.map fun b => (b.2.1 : ℤ))
      (boxes.map fun b => (b.2.2 : ℤ)) = some a ∧ a.sizes = (boxes.map fun b => b.2.2 + 1 - b.2.1) ∧
        a.nElements_ = (boxes.map fun b => b.2.2 + 1 - b.2.1).prod := by
  have hpos : ∀ n ∈ boxes.map (·.1), 0 < n := by
    intro n hn
    obtain ⟨b, hb, rfl⟩ := List.mem_map.1 hn
    have := h b hb
    omega
  have hlen : (setSizes (boxes.map (·.1)) []).length = boxes.length := by
    have := congrArg List.length (setSizes_spans (boxes.map (·.1)) []).1
    rwa [List.length_map, List.length_map] at this
  unfold setLimits
  rw [dims_construct hpos, if_neg (by simp [hlen])]
  exact ⟨_, rfl, current_limits h, congrArg List.prod (current_limits h)⟩

/-! ## Frames -/

/-- **The elements of a new array**, one after the other. -/
theorem elements_construct {sizes : List ℕ} (hne : sizes ≠ []) (hpos : ∀ n ∈ sizes, 0 < n)
    (hfits : sizes.prod < 2 ^ 63) :
    (construct sizes).Good ∧ (construct sizes).nElements_ = sizes.prod ∧
      (construct sizes).elements = (List.range sizes.prod).map fun i : ℕ => (i : ℤ) := by
  have hfilter : sizes.filter (· ≠ 0) = sizes := List.filter_eq_self.2 fun n hn => decide_eq_true (hpos n hn).ne'
  have hcount : (construct sizes).nElements_ = sizes.prod := by
    rw [nElements_construct (by rw [hfilter]; omega), hfilter, if_neg hne]
  have hgood : (construct sizes).Good := by
    refine (construct_good (by rwa [hfilter])).resolve_right fun hnil => ?_
    rw [hnil] at hcount
    exact (List.prod_pos hpos).ne hcount
  have hdense : (construct sizes).dense_ = true ∧ (construct sizes).begin_ = 0 := by
    rw [construct_eq, hfilter, if_neg hne]
    exact ⟨rfl, rfl⟩
  refine ⟨hgood, hcount, ?_⟩
  rw [hgood.elements_of_dense hdense.1, hdense.2, hcount]
  exact List.map_congr_left fun i _ => Int.zero_add _

/-- **Some frames of a stack**: their elements one after the other. -/
theorem exists_frames {ny nx : ℕ} (hy : 0 < ny) (hx : 0 < nx) (hfits : n * (ny * nx) < 2 ^ 63) (h : lo ≤ hi)
    (h' : hi < n) : ∃ v, (construct [n, ny, nx]).subArray [lo, hi, 0, ny - 1, 0, nx - 1] = some v ∧ v.Good ∧
      v.nElements_ = (hi + 1 - lo) * (ny * nx) ∧
      v.elements = (List.range ((hi + 1 - lo) * (ny * nx))).map fun i : ℕ => ((lo * (ny * nx) + i : ℕ) : ℤ) := by
  have hpos : ∀ m ∈ [n, ny, nx], 0 < m := by simp; omega
  have hdims := dims_construct hpos
  have hgood : (construct [n, ny, nx]).Good := by
    refine (construct_good ?_).resolve_right fun hnil => ?_
    · rw [List.filter_eq_self.2 fun m hm => decide_eq_true (hpos m hm).ne']
      simpa using hfits
    · rw [hnil] at hdims
      exact List.cons_ne_nil _ _ hdims.symm
  have hy' : ((ny - 1 : ℕ) : ℤ) = ny - 1 := by omega
  have hx' : ((nx - 1 : ℕ) : ℤ) = nx - 1 := by omega
  have hlen : (construct [n, ny, nx]).dims.length = 3 := by rw [hdims]; rfl
  obtain ⟨v, hv, -, hcount⟩ := @exists_setLimits [(n, lo, hi), (ny, 0, ny - 1), (nx, 0, nx - 1)] (by simp; omega)
  have hdimy : ny - 1 + 1 - 0 = ny := by omega
  have hdimx : nx - 1 + 1 - 0 = nx := by omega
  simp only [List.map_cons, List.map_nil, hy', hx', hdimy, hdimx, Nat.cast_zero, List.prod_cons, List.prod_nil,
    Nat.mul_one] at hv hcount
  have hview := hgood.setLimits hv
  -- the first and the last element
  have hbounds : v.begin_ = lo * (ny * nx) ∧ v.end_ = (hi + 1) * (ny * nx) := by
    have hplain : setSizes [n, ny, nx] [] =
        [⟨n, ny * (nx * 1), 0, n - 1, n⟩, ⟨ny, nx * 1, 0, ny - 1, ny⟩, ⟨nx, 1, 0, nx - 1, nx⟩] := rfl
    have hlimity := @limit_eq ny (nx * 1) 0 (ny - 1) (Nat.zero_le _) (by omega)
    have hlimitx := @limit_eq nx 1 0 (nx - 1) (Nat.zero_le _) (by omega)
    rw [hy', Nat.cast_zero] at hlimity
    rw [hx', Nat.cast_zero] at hlimitx
    unfold setLimits at hv
    rw [hdims, hplain, if_neg (by simp)] at hv
    simp only [List.zip_cons_cons, List.zip_nil_right, List.zipWith_cons_cons, List.zipWith_nil_right, limit_eq h h',
      hlimity, hlimitx, Option.some.injEq] at hv
    subst hv
    constructor <;>
    simp only [setDense, setBounds, getOffset, List.map_cons, List.map_nil, List.zipWith_cons_cons,
      List.zipWith_nil_right, List.sum_cons, List.sum_nil] <;> push_cast <;> ring
  refine ⟨v, (subArray_three hlen _ _ _ _ _ _).trans hv, hview, hcount, ?_⟩
  have hdense : v.dense_ = true := by
    rw [hview.dense_eq, hbounds.1, hbounds.2, hcount, decide_eq_true_iff]
    push_cast [Nat.cast_sub (show lo ≤ hi + 1 by omega)]
    ring
  rw [hview.elements_of_dense hdense, hbounds.1, hcount]
  exact List.map_congr_left fun i _ => by push_cast; ring

end Array

end Redux.Util.Arrays
