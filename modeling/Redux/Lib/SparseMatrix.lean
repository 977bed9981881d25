import Mathlib.Algebra.BigOperators.Group.Finset.Basic
import Mathlib.Algebra.BigOperators.Ring.Finset
import Mathlib.Algebra.BigOperators.Ring.List
import Mathlib.Data.List.AList

/-!
# Lib.SparseMatrix — matrices that are lists of entries

A loop over the entries of a matrix adds to the cells of its result one term after the other.  The order of the
entries does not matter (`addTo_perm`), the loop over rows and that over columns are transposed to each other
(`adjoint`), and entries may be put into buckets by their rows first (`addTo_buckets`).
-/

namespace Redux.Lib.SparseMatrix

section Sums

variable {ι R : Type*} [DecidableEq ι] [AddCommMonoid R]

/-- `out[i] += r`, one after the other. -/
def addTo (out : ι → R) (terms : List (ι × R)) : ι → R :=
  terms.foldl (fun out term => Function.update out term.1 (out term.1 + term.2)) out

/-- The sum of the terms of a cell. -/
def total (terms : List (ι × R)) (i : ι) : R := ((terms.filter fun term => term.1 = i).map Prod.snd).sum

variable {terms terms' : List (ι × R)} {out : ι → R} {i : ι}

theorem total_cons (term : ι × R) : total (term :: terms) i = (if term.1 = i then term.2 else 0) + total terms i := by
  unfold total
  by_cases h : term.1 = i
  · rw [List.filter_cons_of_pos (by simpa using h), List.map_cons, List.sum_cons, if_pos h]
  · rw [List.filter_cons_of_neg (by simpa using h), if_neg h, zero_add]

theorem total_append : total (terms ++ terms') i = total terms i + total terms' i := by
  simp [total]

theorem total_perm (h : terms.Perm terms') : total terms i = total terms' i :=
  ((h.filter _).map _).sum_eq

/-- **What a loop adds to a cell.** -/
theorem addTo_apply : addTo out terms i = out i + total terms i := by
  induction terms generalizing out with
  | nil => simp [addTo, total]
  | cons term terms ih =>
    have hfold : addTo out (term :: terms) = addTo (Function.update out term.1 (out term.1 + term.2)) terms := rfl
    rw [hfold, ih, total_cons, ← add_assoc]
    congr 1
    by_cases h : term.1 = i
    · subst h
      rw [Function.update_self, if_pos rfl]
    · rw [Function.update_of_ne (Ne.symm h), if_neg h, add_zero]

end Sums

/-! ## Matrices -/

section Matrices

variable {ι κ R : Type*} [DecidableEq ι] [DecidableEq κ] [CommSemiring R]

/-- A loop over the entries that adds up rows. -/
def rowTerms (entries : List ((ι × κ) × R)) (v : κ → R) : List (ι × R) :=
  entries.map fun entry => (entry.1.1, entry.2 * v entry.1.2)

/-- A loop over the entries that adds up columns. -/
def columnTerms (entries : List ((ι × κ) × R)) (w : ι → R) : List (κ × R) :=
  entries.map fun entry => (entry.1.2, entry.2 * w entry.1.1)

/-- The number at an index. -/
def entryAt (entries : List ((ι × κ) × R)) (i : ι) (j : κ) : R :=
  ((entries.find? (·.1 = (i, j))).map Prod.snd).getD 0

variable {entries : List ((ι × κ) × R)} {v : κ → R} {rows : Finset ι} {columns : Finset κ}

omit [DecidableEq κ] in
/-- **A loop that adds up rows is linear.** -/
theorem total_rowTerms_add (v w : κ → R) (i : ι) : total (rowTerms entries fun j => v j + w j) i =
    total (rowTerms entries v) i + total (rowTerms entries w) i := by
  induction entries with
  | nil => simp [total, rowTerms]
  | cons entry entries ih =>
    simp only [rowTerms, List.map_cons, total_cons] at ih ⊢
    rw [ih]
    split_ifs
    · rw [mul_add, add_add_add_comm]
    · rw [zero_add, zero_add, zero_add]

theorem sum_mul_total {terms : List (ι × R)} (h : ∀ term ∈ terms, term.1 ∈ rows) (w : ι → R) :
    ∑ i ∈ rows, w i * total terms i = (terms.map fun term => w term.1 * term.2).sum := by
  induction terms with
  | nil => simp [total]
  | cons term terms ih =>
    simp only [total_cons, mul_add, Finset.sum_add_distrib, List.map_cons, List.sum_cons]
    rw [ih fun t ht => h t (List.mem_cons_of_mem _ ht)]
    congr 1
    simp only [mul_ite, mul_zero]
    rw [Finset.sum_ite_eq, if_pos (h term List.mem_cons_self)]

/-- **The loops over rows and columns are transposed to each other.** -/
theorem adjoint (h : ∀ entry ∈ entries, entry.1.1 ∈ rows ∧ entry.1.2 ∈ columns) (v : κ → R) (w : ι → R) :
    ∑ i ∈ rows, w i * total (rowTerms entries v) i = ∑ j ∈ columns, v j * total (columnTerms entries w) j := by
  rw [sum_mul_total, sum_mul_total, rowTerms, columnTerms, List.map_map, List.map_map]
  · refine congrArg List.sum (List.map_congr_left fun entry _ => ?_)
    show w entry.1.1 * (entry.2 * v entry.1.2) = v entry.1.2 * (entry.2 * w entry.1.1)
    rw [mul_left_comm, mul_left_comm (v entry.1.2), mul_comm (w entry.1.1)]
  · intro term hterm
    obtain ⟨entry, hentry, rfl⟩ := List.mem_map.1 hterm
    exact (h entry hentry).2
  · intro term hterm
    obtain ⟨entry, hentry, rfl⟩ := List.mem_map.1 hterm
    exact (h entry hentry).1

/-- **Where no index comes twice, the loop multiplies by the matrix.** -/
theorem total_rowTerms (hnodup : (entries.map Prod.fst).Nodup) (hmem : ∀ entry ∈ entries, entry.1.2 ∈ columns)
    (i : ι) : total (rowTerms entries v) i = ∑ j ∈ columns, entryAt entries i j * v j := by
  induction entries with
  | nil => simp [entryAt, total, rowTerms]
  | cons entry entries ih =>
    obtain ⟨hnot, hnodup⟩ := List.nodup_cons.1 hnodup
    have hrest := ih hnodup fun e he => hmem e (List.mem_cons_of_mem _ he)
    show total ((entry.1.1, entry.2 * v entry.1.2) :: rowTerms entries v) i = _
    rw [total_cons, hrest]
    have hsplit : ∀ j, entryAt (entry :: entries) i j * v j =
        (if entry.1 = (i, j) then entry.2 * v j else 0) + entryAt entries i j * v j := by
      intro j
      unfold entryAt
      rw [List.find?_cons]
      by_cases hkey : entry.1 = (i, j)
      · have hnone : entries.find? (·.1 = (i, j)) = none := by
          rw [List.find?_eq_none]
          intro e he hsame
          exact hnot (hkey.trans (of_decide_eq_true hsame).symm ▸ List.mem_map_of_mem he)
        simp [hkey, hnone]
      · simp [hkey]
    simp only [hsplit, Finset.sum_add_distrib]
    congr 1
    by_cases hrow : entry.1.1 = i
    · subst hrow
      have hkey : ∀ j, entry.1 = (entry.1.1, j) ↔ entry.1.2 = j := fun j =>
        ⟨fun h => congrArg Prod.snd h, fun h => Prod.ext rfl h⟩
      simp only [hkey, if_true]
      rw [Finset.sum_ite_eq, if_pos (hmem entry List.mem_cons_self)]
    · have hkey : ∀ j, entry.1 ≠ (i, j) := fun j h => hrow (congrArg Prod.fst h)
      simp only [if_neg hrow, if_neg (hkey _), Finset.sum_const_zero]

end Matrices

/-! ## Buckets -/

section Buckets

variable {ι β R : Type*} [DecidableEq ι]

/-- `std::map<size_t, std::vector<...>>`. -/
abbrev Buckets (ι β : Type*) := AList fun _ : ι => List β

/-- What is in a bucket; nothing if there is none. -/
def Buckets.at (m : Buckets ι β) (i : ι) : List β := (m.lookup i).getD []

/-- `buckets[i].push_back( b )`. -/
def pushBack (m : Buckets ι β) (item : ι × β) : Buckets ι β := m.insert item.1 (Buckets.at m item.1 ++ [item.2])

variable {m : Buckets ι β} {items : List (ι × β)} {i : ι}

theorem at_pushBack (item : ι × β) :
    Buckets.at (pushBack m item) i = Buckets.at m i ++ if item.1 = i then [item.2] else [] := by
  unfold pushBack Buckets.at
  by_cases h : item.1 = i
  · subst h
    rw [AList.lookup_insert, Option.getD_some, if_pos rfl]
  · rw [AList.lookup_insert_ne (Ne.symm h), if_neg h, List.append_nil]

/-- **A bucket has its items in their order.** -/
theorem at_foldl : Buckets.at (items.foldl pushBack m) i =
    Buckets.at m i ++ (items.filter fun item => item.1 = i).map Prod.snd := by
  induction items generalizing m with
  | nil => simp
  | cons item items ih =>
    rw [List.foldl_cons, ih, at_pushBack, List.append_assoc]
    by_cases h : item.1 = i <;> simp [h]

theorem mem_foldl_pushBack : i ∈ items.foldl pushBack m ↔ i ∈ m ∨ i ∈ items.map Prod.fst := by
  induction items generalizing m with
  | nil => simp
  | cons item items ih =>
    rw [List.foldl_cons, ih, pushBack, AList.mem_insert, List.map_cons, List.mem_cons]
    tauto

/-- The number of buckets. -/
theorem length_keys (s : Finset ι) (h : ∀ i, i ∈ m ↔ i ∈ s) : m.keys.length = s.card := by
  rw [← List.toFinset_card_of_nodup m.keys_nodup]
  congr 1
  ext i
  rw [List.mem_toFinset, ← AList.mem_keys, h]

variable [AddCommMonoid R]

/-- What each bucket adds, as a whole. -/
def bucketTerms (f : β → R) (m : Buckets ι β) (keys : List ι) : List (ι × R) :=
  keys.map fun i => (i, ((Buckets.at m i).map f).sum)

theorem total_bucketTerms {f : β → R} {keys : List ι} (hnodup : keys.Nodup) :
    total (bucketTerms f m keys) i = if i ∈ keys then ((Buckets.at m i).map f).sum else 0 := by
  induction keys with
  | nil => simp [total, bucketTerms]
  | cons k keys ih =>
    obtain ⟨hk, hkeys⟩ := List.nodup_cons.1 hnodup
    show total ((k, ((Buckets.at m k).map f).sum) :: bucketTerms f m keys) i = _
    rw [total_cons, ih hkeys]
    by_cases h : k = i
    · subst h
      simp [hk]
    · simp [h, Ne.symm h]

theorem at_of_not_mem (h : i ∉ m) : Buckets.at m i = [] := by
  rw [Buckets.at, AList.lookup_eq_none.2 h, Option.getD_none]

/-- **Buckets add what their items do**, whatever the order of the buckets. -/
theorem addTo_buckets {f : β → R} {keys : List ι} (hkeys : keys.Perm m.keys) (out : ι → R)
    (hitems : ∀ i, Buckets.at m i = (items.filter fun item => item.1 = i).map Prod.snd) :
    addTo out (bucketTerms f m keys) = addTo out (items.map fun item => (item.1, f item.2)) := by
  ext i
  rw [addTo_apply, addTo_apply, total_bucketTerms (hkeys.nodup_iff.2 m.keys_nodup)]
  congr 1
  have hsum : total (items.map fun item => (item.1, f item.2)) i = ((Buckets.at m i).map f).sum := by
    rw [hitems, total, List.filter_map, List.map_map, List.map_map]
    rfl
  rw [hsum]
  split_ifs with h
  · rfl
  · rw [hkeys.mem_iff, ← AList.mem_keys] at h
    rw [at_of_not_mem h, List.map_nil, List.sum_nil]

end Buckets

end Redux.Lib.SparseMatrix
