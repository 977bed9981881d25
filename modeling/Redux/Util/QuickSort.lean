import Mathlib.Algebra.Group.Nat.Defs
import Mathlib.Data.List.Sort
import Mathlib.Order.Defs.LinearOrder
import Redux.Lib.Fuel

/-!
# Util.QuickSort — sorting an array of pointers

`medianOf3`, `partition` and `quickSort` exchange elements by `std::swap` of the pointers that they go through
the array with.  That exchanges the variables, and not the elements that they point to: no cell of the array is
ever written.  The routine ends all the same, for in each round of `partition` its two pointers are farther on
together (`partitionLoop_ends`), and it returns before it recurses.  So it sorts what is in order already
(`sorts_iff_ordered`).
-/

namespace Redux.Util.QuickSort

open Redux.Lib

/-! ## Model -/

section Model

variable {P α : Type*} [LinearOrder α] (value : P → α)

/-- `**p > **q`, for places in the array. -/
def greater (data : List P) (p q : ℕ) : Option Bool :=
  data[p]?.bind fun x => data[q]?.map fun y => decide (value x > value y)

/-- `medianOf3`, for an array of pointers: the array after it. -/
def medianOf3 (data : List P) (begin_ end_ : ℕ) : Option (List P) :=
  if end_ < begin_ + 2 then some data
  else
    let mid := begin_ + (end_ - begin_ + 1) / 2
    (greater value data mid end_).bind fun above =>
      -- `swap( mid, end )` exchanges the two variables
      let (mid, end_) := if above then (end_, mid) else (mid, end_)
      (greater value data end_ begin_).bind fun above =>
        -- and so does the last swap, of `mid` and `end` or of `begin` and `end`
        if above then (greater value data mid begin_).map fun _ => data else some data

/-- The loop of `partition`, for at most `fuel` rounds: `store` at its end. -/
def partitionLoop (descending : Bool) (data : List P) (end_ : ℕ) : ℕ → ℕ → ℕ → Option ℕ
  | 0, _, _ => none
  | fuel + 1, iter, store =>
    if iter < end_ then
      (greater value data iter end_).bind fun above =>
        -- after `swap( iter, store )` it is the other pointer that either step moves on
        if above = descending then partitionLoop descending data end_ fuel (store + 1) (iter + 1)
        else partitionLoop descending data end_ fuel (iter + 1) store
    else some store

def partition (descending : Bool) : ℕ → List P → ℕ → ℕ → Option (List P)
  | 0, _, _, _ => none
  | fuel + 1, data, begin_, end_ =>
    if end_ < begin_ + 1 then some data
    else
      (partitionLoop value descending data end_ (fuel + 1) begin_ begin_).bind fun store =>
        -- `swap( store, end )`
        let (store, end_) := (end_, store)
        if store = begin_ ∨ store ≥ end_ then some data
        else
          (if store > begin_ then
            (medianOf3 value data begin_ store).bind fun data => partition descending fuel data begin_ store
          else some data).bind fun data =>
            if store + 1 < end_ then
              (medianOf3 value data (store + 1) end_).bind fun data => partition descending fuel data (store + 1) end_
            else some data

/-- The loop that looks for elements that cannot be compared: `end` and `nanCount` after it. -/
def setAside (isfinite : α → Bool) (data : List P) : ℕ → ℕ → ℕ → ℕ → Option (ℕ × ℕ)
  | 0, _, _, _ => none
  | fuel + 1, ptr, end_, nanCount =>
    if ptr < end_ then
      data[ptr]?.bind fun p =>
        if isfinite (value p) then setAside isfinite data fuel (ptr + 1) end_ nanCount
        -- `swap( ptr, --end )`, and `++ptr`
        else setAside isfinite data fuel (end_ - 1 + 1) ptr (nanCount + 1)
    else some (end_, nanCount)

/-- `quickSort( data, n, descending, pivotIndex )`, for `T` integral or not: the array after it. -/
def quickSort (isfinite : α → Bool) (integral : Bool) (data : List P) (descending : Bool) (pivotIndex fuel : ℕ) :
    Option (List P) :=
  let n := data.length
  if n < 2 then some data
  else
    -- `swap( ptr, end )`, with `ptr = data + pivotIndex`
    (if pivotIndex < n then some (data, pivotIndex)
    else (medianOf3 value data 0 (n - 1)).map (·, n - 1)).bind fun (data, end_) =>
      (if integral then some (end_, 0) else setAside value isfinite data fuel 0 end_ 0).bind fun (end_, nanCount) =>
        partition value descending fuel data 0 (if nanCount ≠ 0 then n - 1 else end_)

/-! ## What is to hold -/

/-- The elements are in the requested order. -/
def Ordered (descending : Bool) (data : List P) : Prop :=
  data.Pairwise fun p q => if descending then value q ≤ value p else value p ≤ value q

/-- The routine ends, with a permutation of the pointers whose elements are in the requested order. -/
def Sorts (isfinite : α → Bool) (integral : Bool) (data : List P) (descending : Bool) (pivotIndex : ℕ) : Prop :=
  ∃ data', Settles (quickSort value isfinite integral data descending pivotIndex) data' ∧ data'.Perm data ∧
    Ordered value descending data'

end Model

/-! ## The routines one by one -/

section Routines

variable {P α : Type*} [LinearOrder α] {value : P → α} {isfinite : α → Bool} {integral descending : Bool}
  {data : List P} {begin_ end_ p q : ℕ}

theorem greater_eq_some (value : P → α) (hp : p < data.length) (hq : q < data.length) :
    ∃ above, greater value data p q = some above := by
  rw [greater, List.getElem?_eq_getElem hp, List.getElem?_eq_getElem hq]
  exact ⟨_, rfl⟩

/-- The median stays where it is. -/
theorem medianOf3_eq (hend : end_ < data.length) : medianOf3 value data begin_ end_ = some data := by
  unfold medianOf3
  by_cases hshort : end_ < begin_ + 2
  · rw [if_pos hshort]
  rw [if_neg hshort]
  have hmid : begin_ + (end_ - begin_ + 1) / 2 < data.length := by omega
  obtain ⟨above, habove⟩ := greater_eq_some value hmid hend
  simp only [habove, Option.bind_some]
  have hlast : ∀ mid end_ : ℕ, mid < data.length → end_ < data.length →
      ((greater value data end_ begin_).bind fun above =>
        if above then (greater value data mid begin_).map fun _ => data else some data) = some data := by
    intro mid end_ hmid hend
    obtain ⟨above, habove⟩ := greater_eq_some value hend (show begin_ < data.length by omega)
    obtain ⟨above', habove'⟩ := greater_eq_some value hmid (show begin_ < data.length by omega)
    rw [habove, Option.bind_some, habove', Option.map_some, ite_self]
  cases above with
  | true => exact hlast _ _ hend hmid
  | false => exact hlast _ _ hmid hend

/-- **The loop ends**: `iter` and `store` together move on in each round, and `store` does not pass the end. -/
theorem partitionLoop_ends (hend : end_ < data.length) : ∀ {fuel iter store : ℕ}, store ≤ end_ → iter ≤ end_ + 1 →
    2 * end_ + 1 < fuel + (iter + store) →
      ∃ s ≤ end_, partitionLoop value descending data end_ fuel iter store = some s
  | 0, iter, store, hstore, hiter, hfuel => by omega
  | fuel + 1, iter, store, hstore, hiter, hfuel => by
    rw [partitionLoop]
    by_cases hlt : iter < end_
    · obtain ⟨above, habove⟩ := greater_eq_some value (hlt.trans hend) hend
      rw [if_pos hlt, habove, Option.bind_some]
      by_cases hswap : above = descending
      · rw [if_pos hswap]
        exact partitionLoop_ends hend (by omega) (by omega) (by omega)
      · rw [if_neg hswap]
        exact partitionLoop_ends hend hstore (by omega) (by omega)
    · rw [if_neg hlt]
      exact ⟨store, hstore, rfl⟩

/-- The variable `store` has the end of the part after the last swap, which is not before that of `end`. -/
theorem partition_eq (hend : end_ < data.length) {fuel : ℕ} (hfuel : 2 * end_ + 2 ≤ fuel) :
    partition value descending fuel data begin_ end_ = some data := by
  obtain ⟨fuel, rfl⟩ := Nat.exists_eq_add_of_le' (show 1 ≤ fuel by omega)
  rw [partition]
  by_cases hshort : end_ < begin_ + 1
  · rw [if_pos hshort]
  obtain ⟨s, hs, hloop⟩ := @partitionLoop_ends P α _ value descending data end_ hend (fuel + 1) begin_ begin_
    (by omega) (by omega) (by omega)
  rw [if_neg hshort, hloop, Option.bind_some]
  exact if_pos (.inr hs)

omit [LinearOrder α] in
theorem setAside_ends (hend : end_ < data.length) : ∀ {fuel ptr nanCount : ℕ}, ptr ≤ end_ → end_ < fuel + ptr →
    ∃ e < data.length, ∃ count, setAside value isfinite data fuel ptr end_ nanCount = some (e, count)
  | 0, ptr, nanCount, hptr, hfuel => by omega
  | fuel + 1, ptr, nanCount, hptr, hfuel => by
    rw [setAside]
    by_cases hlt : ptr < end_
    · rw [if_pos hlt, List.getElem?_eq_getElem (hlt.trans hend), Option.bind_some]
      have hptr' := hlt.trans hend
      cases isfinite (value data[ptr]) with
      | true => exact setAside_ends hend (by omega) (by omega)
      | false =>
        -- the pointers have passed each other
        obtain ⟨fuel, rfl⟩ := Nat.exists_eq_add_of_le' (show 1 ≤ fuel by omega)
        rw [if_neg Bool.false_ne_true, setAside, if_neg (by omega)]
        exact ⟨ptr, hlt.trans hend, nanCount + 1, rfl⟩
    · rw [if_neg hlt]
      exact ⟨end_, hend, nanCount, rfl⟩

/-- **Whatever is in the array, it is left as it is.** -/
theorem settles_quickSort (data : List P) (pivotIndex : ℕ) :
    Settles (quickSort value isfinite integral data descending pivotIndex) data := by
  refine ⟨2 * data.length + 2, fun fuel hfuel => ?_⟩
  unfold quickSort
  by_cases hshort : data.length < 2
  · exact if_pos hshort
  rw [if_neg hshort]
  have hstart : ∃ e < data.length, (if pivotIndex < data.length then some (data, pivotIndex)
      else (medianOf3 value data 0 (data.length - 1)).map (·, data.length - 1)) = some (data, e) := by
    by_cases hpivot : pivotIndex < data.length
    · exact ⟨pivotIndex, hpivot, if_pos hpivot⟩
    · refine ⟨data.length - 1, by omega, ?_⟩
      rw [if_neg hpivot, medianOf3_eq (by omega), Option.map_some]
  obtain ⟨e, he, hstart⟩ := hstart
  have haside : ∃ e' < data.length, ∃ count, (if integral then some (e, 0)
      else setAside value isfinite data fuel 0 e 0) = some (e', count) := by
    cases integral with
    | true => exact ⟨e, he, 0, rfl⟩
    | false => exact setAside_ends he (Nat.zero_le e) (by omega)
  obtain ⟨e', he', count, haside⟩ := haside
  rw [hstart, Option.bind_some]
  dsimp only
  rw [haside, Option.bind_some]
  by_cases hcount : count ≠ 0
  · rw [if_pos hcount]
    exact partition_eq (by omega) (by omega)
  · rw [if_neg hcount]
    exact partition_eq he' (by omega)

end Routines

/-! ## Sorting -/

/-- **The routine sorts exactly what is in the requested order before.** -/
theorem sorts_iff_ordered {P α : Type*} [LinearOrder α] (value : P → α) (isfinite : α → Bool) (integral : Bool)
    (data : List P) (descending : Bool) (pivotIndex : ℕ) :
    Sorts value isfinite integral data descending pivotIndex ↔ Ordered value descending data := by
  have hsettles : Settles (quickSort value isfinite integral data descending pivotIndex) data :=
    settles_quickSort data pivotIndex
  constructor
  · rintro ⟨data', hsettles', -, hordered⟩
    rwa [← hsettles'.unique hsettles]
  · intro hordered
    exact ⟨data, hsettles, .refl data, hordered⟩

/-- Two pointers, to the smaller element first: they are to be in descending order, as a `Population` is. -/
theorem pair_not_sorted : ¬Sorts (fun p : Fin 2 => (p : ℕ)) (fun _ => true) false [0, 1] true (2 ^ 64 - 1) := by
  rintro ⟨data', hsettles, -, hordered⟩
  obtain rfl := hsettles.unique (settles_quickSort _ _)
  have hle := (List.pairwise_cons.1 hordered).1 1 (List.mem_singleton_self 1)
  exact absurd hle (by decide)

end Redux.Util.QuickSort
