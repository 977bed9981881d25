import Mathlib.Algebra.BigOperators.Group.Finset.Basic
import Mathlib.Algebra.BigOperators.Ring.Finset
import Redux.Momfbd.ConstraintShapes

/-!
# Momfbd.Blockify — a group of constraints as a block of its own

`Group::blockify` numbers the parameters of a group anew: those with the most constraints come first, then
the one with the lower number.  What is left of the group is a matrix of its own (`Labels.C`), whose rows are
the constraints in the new numbers (`solves_iff`).
-/

namespace Redux.Momfbd.Constraints

open Redux.Lib

/-! ## Model -/

/-- `entry( ind )`. -/
def Entries.entry (entries : Entries) (ind : ℤ) : ℤ := ((entries.find? (·.1 = ind)).map Prod.snd).getD 0

/-- `has( ind )`. -/
def Constraint.has (con : Constraint) (ind : ℤ) : Bool := con.entries.any (·.1 = ind)

/-- `replaceIndices( indexMap )`. -/
def Constraint.replaceIndices (indexMap : ℤ → ℤ) (con : Constraint) : Entries :=
  con.entries.foldl (fun newEntries entry => newEntries.put (indexMap entry.1) entry.2) []

/-- `my_comp`, of points `(y, x)`. -/
def myComp (lhs rhs : ℕ × ℤ) : Bool :=
  if lhs.1 ≠ rhs.1 then decide (lhs.1 > rhs.1) else decide (lhs.2 < rhs.2)

namespace Group

variable (g : Group)

/-- `p.y`, the number of constraints that have a parameter. -/
def count (i : ℤ) : ℕ := g.constraints.countP fun con => con.has i

def entryCounts : List (ℕ × ℤ) := g.indices.foldl (fun set i => OrderedSet.insert myComp (g.count i, i) set) []

/-- The parameters in their new order. -/
def columns : List ℤ := g.entryCounts.map Prod.snd

/-- The new indices are a dense range starting at `rOffset`. -/
def indexMap (rOffset i : ℤ) : ℤ := rOffset + g.columns.idxOf i

/-- `entries`: the constraints one after the other, in the new indices. -/
def blockEntries (rOffset : ℤ) : Entries :=
  (g.constraints.zipIdx.flatMap fun con => (con.1.replaceIndices (g.indexMap rOffset)).map fun ind =>
    ((con.2 * g.indices.length - rOffset + ind.1 : ℤ), ind.2)).foldl (fun entries entry => entries.insert entry) []

/-- What the nullspace of the group is calculated from. -/
def labels (rOffset : ℤ) : Labels := ⟨g.blockEntries rOffset, g.indices.length, g.constraints.length⟩

end Group

namespace Labels

/-- `C( i, j )`. -/
def C (l : Labels) (i j : ℕ) : ℤ := l.c_entries.entry (i * l.nParameters + j)

/-- `C·v = 0`. -/
def Solves (l : Labels) (v : ℕ → ℚ) : Prop :=
  ∀ i < l.nConstraints.toNat, ∑ j ∈ Finset.range l.nParameters.toNat, (l.C i j : ℚ) * v j = 0

end Labels

/-! ## Maps -/

section Maps

namespace Entries

variable {entries l : Entries} {i v : ℤ}

theorem insert_perm {entry : ℤ × ℤ} (h : entry.1 ∉ entries.map Prod.fst) :
    (entries.insert entry).Perm (entry :: entries) := by
  refine OrderedSet.insert_perm fun y hy => Bool.eq_false_iff.2 fun hsame => h ?_
  rw [same_iff.1 hsame]
  exact List.mem_map_of_mem hy

theorem put_perm (h : i ∉ entries.map Prod.fst) : (entries.put i v).Perm ((i, v) :: entries) := by
  rw [put, OrderedSet.erase, List.eraseP_of_forall_not]
  · exact insert_perm h
  · intro y hy hsame
    exact h (List.mem_map.2 ⟨y, hy, (same_iff.1 hsame).symm⟩)

/-- Entries with different indices that are added one after the other are all there. -/
theorem foldl_perm {add : Entries → ℤ × ℤ → Entries}
    (hadd : ∀ entries entry, entry.1 ∉ entries.map Prod.fst → (add entries entry).Perm (entry :: entries))
    (h : ((l ++ entries).map Prod.fst).Nodup) : (l.foldl add entries).Perm (l ++ entries) := by
  induction l generalizing entries with
  | nil => exact .refl _
  | cons entry l ih =>
    rw [List.cons_append, List.map_cons, List.nodup_cons] at h
    have hnew : entry.1 ∉ entries.map Prod.fst := fun hmem => h.1 (by
      rw [List.map_append]
      exact List.mem_append_right _ hmem)
    have hperm : (l ++ add entries entry).Perm (entry :: (l ++ entries)) :=
      ((hadd entries entry hnew).append_left l).trans List.perm_middle
    refine (ih ?_).trans hperm
    exact ((hperm.map Prod.fst).nodup_iff).2 (List.nodup_cons.2 h)

theorem entry_of_mem (h : (entries.map Prod.fst).Nodup) (hmem : (i, v) ∈ entries) : entries.entry i = v := by
  cases hfind : entries.find? (·.1 = i) with
  | none => exact absurd (decide_eq_true rfl) (List.find?_eq_none.1 hfind (i, v) hmem)
  | some e =>
    have hkey := List.find?_some hfind
    rw [decide_eq_true_iff] at hkey
    have he := List.inj_on_of_nodup_map h (List.mem_of_find?_eq_some hfind) hmem hkey
    rw [entry, hfind, he]
    rfl

theorem entry_of_not_mem (h : i ∉ entries.map Prod.fst) : entries.entry i = 0 := by
  have hnone : entries.find? (·.1 = i) = none := by
    refine List.find?_eq_none.2 fun e he hi => h ?_
    rw [← of_decide_eq_true hi]
    exact List.mem_map_of_mem he
  rw [entry, hnone]
  rfl

theorem entry_cons {e : ℤ × ℤ} (h : ((e :: entries).map Prod.fst).Nodup) :
    Entries.entry (e :: entries) i = (if i = e.1 then e.2 else 0) + entries.entry i := by
  rw [List.map_cons, List.nodup_cons] at h
  by_cases hi : i = e.1
  · subst hi
    rw [if_pos rfl, entry_of_not_mem h.1, add_zero]
    simp [Entries.entry]
  · rw [if_neg hi, zero_add, entry, entry, List.find?_cons_of_neg]
    rw [decide_eq_true_iff]
    exact fun heq => hi heq.symm

/-- **The sum over all columns is the sum over the entries.** -/
theorem sum_entry {columns : List ℤ} (hcolumns : columns.Nodup) (f : ℕ → ℚ)
    (h : (entries.map Prod.fst).Nodup) (hsub : entries.map Prod.fst ⊆ columns) :
    ∑ j ∈ Finset.range columns.length, (entries.entry (columns.getD j 0) : ℚ) * f j =
      (entries.map fun e => (e.2 : ℚ) * f (columns.idxOf e.1)).sum := by
  induction entries with
  | nil => simp [entry]
  | cons e entries ih =>
    have hlt := List.idxOf_lt_length_of_mem (hsub List.mem_cons_self)
    have hone : ∑ j ∈ Finset.range columns.length, ((if columns.getD j 0 = e.1 then e.2 else 0 : ℤ) : ℚ) * f j =
        (e.2 : ℚ) * f (columns.idxOf e.1) := by
      rw [Finset.sum_eq_single (columns.idxOf e.1)]
      · rw [List.getD_eq_getElem?_getD, List.getElem?_idxOf (hsub List.mem_cons_self), Option.getD_some, if_pos rfl]
      · intro j hj hne
        rw [if_neg, Int.cast_zero, zero_mul]
        rw [Finset.mem_range] at hj
        rw [List.getD_eq_getElem?_getD, List.getElem?_eq_getElem hj, Option.getD_some]
        rintro heq
        exact hne (by rw [← heq, hcolumns.idxOf_getElem j hj])
      · exact fun hj => absurd (Finset.mem_range.2 hlt) hj
    rw [List.map_cons, List.sum_cons, ← ih (List.nodup_cons.1 h).2 fun p hp => hsub (List.mem_cons_of_mem _ hp), ← hone,
      ← Finset.sum_add_distrib]
    refine Finset.sum_congr rfl fun j _ => ?_
    rw [entry_cons h, Int.cast_add, add_mul]

end Entries

end Maps

/-! ## The new numbers -/

section Columns

variable {g : Group}

namespace Group

theorem myComp_same {a b : ℕ × ℤ} (h : OrderedSet.same myComp a b = true) : a.2 = b.2 := by
  simp only [OrderedSet.same, myComp, Bool.and_eq_true, Bool.not_eq_true'] at h
  split_ifs at h with h₁ h₂ h₂
  · simp only [decide_eq_false_iff_not] at h
    omega
  · exact absurd (not_not.1 h₂).symm h₁
  · exact absurd (not_not.1 h₁).symm h₂
  · simp only [decide_eq_false_iff_not] at h
    omega

theorem foldl_entryCounts_perm {indices : List ℤ} {set : List (ℕ × ℤ)} (h : (indices ++ set.map Prod.snd).Nodup) :
    (indices.foldl (fun set i => OrderedSet.insert myComp (g.count i, i) set) set).Perm
      (indices.map (fun i => (g.count i, i)) ++ set) := by
  induction indices generalizing set with
  | nil => exact .refl _
  | cons i indices ih =>
    rw [List.cons_append, List.nodup_cons] at h
    have hperm : (OrderedSet.insert myComp (g.count i, i) set).Perm ((g.count i, i) :: set) := by
      refine OrderedSet.insert_perm fun y hy => Bool.eq_false_iff.2 fun hsame => h.1 ?_
      rw [show i = y.2 from myComp_same hsame]
      exact List.mem_append_right _ (List.mem_map_of_mem hy)
    refine (ih ?_).trans ?_
    · refine (((hperm.map Prod.snd).append_left indices).trans ?_).nodup_iff.2 (List.nodup_cons.2 h)
      exact List.perm_middle
    · rw [List.map_cons, List.cons_append]
      exact (hperm.append_left _).trans List.perm_middle

/-- **The columns of a block are the parameters of the group.** -/
theorem columns_perm (h : g.indices.Nodup) : g.columns.Perm g.indices := by
  have hperm := (@foldl_entryCounts_perm g g.indices [] (by simpa using h)).map Prod.snd
  rw [List.append_nil, List.map_map] at hperm
  exact hperm.trans (List.Perm.of_eq (List.map_id _))

theorem length_columns (h : g.indices.Nodup) : g.columns.length = g.indices.length := (columns_perm h).length_eq

theorem columns_nodup (h : g.indices.Nodup) : g.columns.Nodup := (columns_perm h).nodup_iff.2 h

theorem mem_columns (h : g.indices.Nodup) {p : ℤ} : p ∈ g.columns ↔ p ∈ g.indices := (columns_perm h).mem_iff

theorem getD_mem (h : g.indices.Nodup) {j : ℕ} (hj : j < g.indices.length) : g.columns.getD j 0 ∈ g.indices := by
  have hj' : j < g.columns.length := (length_columns h).symm ▸ hj
  rw [List.getD_eq_getElem?_getD, List.getElem?_eq_getElem hj', Option.getD_some]
  exact (mem_columns h).1 (List.getElem_mem hj')

theorem idxOf_lt (h : g.indices.Nodup) {p : ℤ} (hp : p ∈ g.indices) : g.columns.idxOf p < g.indices.length := by
  rw [← length_columns h]
  exact List.idxOf_lt_length_of_mem ((mem_columns h).2 hp)

/-- A parameter is in one column. -/
theorem getD_eq_iff (h : g.indices.Nodup) {j : ℕ} {p : ℤ} (hj : j < g.indices.length) (hp : p ∈ g.indices) :
    g.columns.getD j 0 = p ↔ j = g.columns.idxOf p := by
  have hj' : j < g.columns.length := (length_columns h).symm ▸ hj
  have hmem := (mem_columns h).2 hp
  rw [List.getD_eq_getElem?_getD, List.getElem?_eq_getElem hj', Option.getD_some]
  constructor
  · rintro rfl
    exact ((columns_nodup h).idxOf_getElem j hj').symm
  · rintro rfl
    exact List.getElem_idxOf _

theorem myComp_trans {a b c : ℕ × ℤ} (hab : myComp a b = true) (hbc : myComp b c = true) : myComp a c = true := by
  unfold myComp at *
  split_ifs at * with h₁ h₂ h₃ h₃ h₂ h₃ h₃ <;> simp only [decide_eq_true_iff] at * <;> omega

/-- **The columns are in the order of `my_comp`.** -/
theorem columns_pairwise (h : g.indices.Nodup) :
    g.columns.Pairwise fun p q => myComp (g.count p, p) (g.count q, q) = true := by
  have hsorted : g.entryCounts.Pairwise fun a b => myComp a b = true := by
    unfold entryCounts
    refine List.foldlRecOn g.indices _ List.Pairwise.nil fun set hset i _ => ?_
    exact OrderedSet.pairwise_insert (fun _ _ _ => myComp_trans) hset
  have hcount : ∀ e ∈ g.entryCounts, e = (g.count e.2, e.2) := by
    intro e he
    have hperm := @foldl_entryCounts_perm g g.indices [] (by simpa using h)
    rw [List.append_nil] at hperm
    obtain ⟨i, -, rfl⟩ := List.mem_map.1 (hperm.mem_iff.1 he)
    rfl
  rw [columns, List.pairwise_map]
  refine hsorted.imp_of_mem fun {a b} ha hb hab => ?_
  rwa [← hcount a ha, ← hcount b hb]

end Group

end Columns

/-! ## The matrix of a block -/

section Block

variable {g : Group} {con : Constraint} {rOffset : ℤ}

/-- A group whose constraints have each of their parameters once, and no others than the group. -/
structure Group.Dense (g : Group) : Prop where
  indices : g.indices.Nodup
  parameters : ∀ con ∈ g.constraints, con.parameters.Nodup
  subset : ∀ con ∈ g.constraints, con.parameters ⊆ g.indices

namespace Group

theorem Dense.sub (h : g.Dense) (hcon : con ∈ g.constraints) : con.entries.map Prod.fst ⊆ g.columns :=
  fun _ hp => (mem_columns h.indices).2 (h.subset con hcon hp)

theorem Dense.idxOf_lt (h : g.Dense) (hcon : con ∈ g.constraints) {p : ℤ} (hp : p ∈ con.entries.map Prod.fst) :
    g.columns.idxOf p < g.indices.length := Group.idxOf_lt h.indices (h.subset con hcon hp)

theorem replaceIndices_perm (h : g.Dense) (hcon : con ∈ g.constraints) :
    (con.replaceIndices (g.indexMap rOffset)).Perm
      (con.entries.map fun entry => (g.indexMap rOffset entry.1, entry.2)) := by
  have hfold : con.replaceIndices (g.indexMap rOffset) =
      (con.entries.map fun entry => (g.indexMap rOffset entry.1, entry.2)).foldl
        (fun (entries : Entries) entry => entries.put entry.1 entry.2) [] := by
    rw [List.foldl_map]
    rfl
  rw [hfold]
  refine (Entries.foldl_perm (fun entries entry hnew => Entries.put_perm hnew) ?_).trans
    (List.Perm.of_eq (List.append_nil _))
  rw [List.append_nil, List.map_map]
  have hkeys := h.parameters con hcon
  rw [Constraint.parameters] at hkeys
  refine (List.Nodup.of_map _ hkeys).map_on fun e he e' he' heq => ?_
  have hpos : g.columns.idxOf e.1 = g.columns.idxOf e'.1 := by
    simp only [Function.comp_apply, indexMap] at heq
    omega
  have hkey := (List.idxOf_inj (h.sub hcon (List.mem_map_of_mem he))).1 hpos
  exact List.inj_on_of_nodup_map hkeys he he' hkey

/-- The entries of the constraints, row by row. -/
def rowEntries (g : Group) : Entries :=
  g.constraints.zipIdx.flatMap fun con => con.1.entries.map fun entry =>
    ((con.2 * g.indices.length + g.columns.idxOf entry.1 : ℤ), entry.2)

theorem mem_rowEntries {key v : ℤ} : (key, v) ∈ g.rowEntries ↔ ∃ (k : ℕ) (con : Constraint) (p : ℤ),
    g.constraints[k]? = some con ∧ (p, v) ∈ con.entries ∧
      key = k * g.indices.length + g.columns.idxOf p := by
  rw [rowEntries, List.mem_flatMap]
  constructor
  · rintro ⟨⟨con, k⟩, hk, hmem⟩
    obtain ⟨⟨p, v'⟩, he, heq⟩ := List.mem_map.1 hmem
    obtain ⟨rfl, rfl⟩ := Prod.mk.inj heq
    exact ⟨k, con, p, List.mem_zipIdx_iff_getElem?.1 hk, he, rfl⟩
  · rintro ⟨k, con, p, hk, he, rfl⟩
    exact ⟨(con, k), List.mem_zipIdx_iff_getElem?.2 hk, List.mem_map.2 ⟨(p, v), he, rfl⟩⟩

/-- The row and the column of an index. -/
theorem row_col_inj {n k k' i i' : ℕ} (hi : i < n) (hi' : i' < n) (h : (k * n + i : ℤ) = k' * n + i') :
    k = k' ∧ i = i' := by
  have hnat : n * k + i = n * k' + i' := by
    rw [Nat.mul_comm n k, Nat.mul_comm n k']
    exact_mod_cast h
  have hmod := congrArg (· % n) hnat
  simp only [Nat.mul_add_mod, Nat.mod_eq_of_lt hi, Nat.mod_eq_of_lt hi'] at hmod
  subst hmod
  exact ⟨Nat.eq_of_mul_eq_mul_left (Nat.zero_lt_of_lt hi) (Nat.add_right_cancel hnat), rfl⟩

theorem rowEntries_nodup (h : g.Dense) : (g.rowEntries.map Prod.fst).Nodup := by
  rw [rowEntries, List.map_flatMap]
  refine List.nodup_flatMap.2 ⟨fun con hcon => ?_, ?_⟩
  · have hmem := List.mem_of_getElem? (List.mem_zipIdx_iff_getElem?.1 hcon)
    have hkeys := h.parameters con.1 hmem
    rw [List.map_map]
    refine (List.Nodup.of_map _ hkeys).map_on fun e he e' he' heq => ?_
    have hpos : g.columns.idxOf e.1 = g.columns.idxOf e'.1 := by
      simp only [Function.comp_apply] at heq
      omega
    have hkey := (List.idxOf_inj (h.sub hmem (List.mem_map_of_mem he))).1 hpos
    exact List.inj_on_of_nodup_map hkeys he he' hkey
  · have hlt : g.constraints.zipIdx.Pairwise fun a b => a.2 < b.2 := by
      rw [← List.pairwise_map, List.zipIdx_map_snd]
      exact List.pairwise_lt_range'
    refine hlt.imp_of_mem fun {a b} ha hb hab key hkey hkey' => ?_
    obtain ⟨e, he, rfl⟩ := List.mem_map.1 hkey
    obtain ⟨e', he', heq⟩ := List.mem_map.1 hkey'
    obtain ⟨⟨p, v⟩, hp, rfl⟩ := List.mem_map.1 he
    obtain ⟨⟨p', v'⟩, hp', rfl⟩ := List.mem_map.1 he'
    have hmem := List.mem_of_getElem? (List.mem_zipIdx_iff_getElem?.1 ha)
    have hmem' := List.mem_of_getElem? (List.mem_zipIdx_iff_getElem?.1 hb)
    have hrow := row_col_inj (h.idxOf_lt hmem' (List.mem_map_of_mem hp')) (h.idxOf_lt hmem (List.mem_map_of_mem hp)) heq
    exact hab.ne' hrow.1

/-- **The entries of a block.** -/
theorem blockEntries_perm (h : g.Dense) : (g.blockEntries rOffset).Perm g.rowEntries := by
  have hrows : (g.constraints.zipIdx.flatMap fun con => (con.1.replaceIndices (g.indexMap rOffset)).map fun ind =>
      ((con.2 * g.indices.length - rOffset + ind.1 : ℤ), ind.2)).Perm g.rowEntries := by
    refine List.Perm.flatMap_left _ fun con hcon => ?_
    have hmem := List.mem_of_getElem? (List.mem_zipIdx_iff_getElem?.1 hcon)
    refine ((replaceIndices_perm h hmem).map _).trans (List.Perm.of_eq ?_)
    rw [List.map_map]
    refine List.map_congr_left fun entry _ => ?_
    simp only [Function.comp_apply, indexMap, Prod.mk.injEq, and_true]
    omega
  refine (Entries.foldl_perm (fun entries entry hnew => Entries.insert_perm hnew) ?_).trans ?_
  · rw [List.append_nil]
    exact (hrows.map Prod.fst).nodup_iff.2 (rowEntries_nodup h)
  · rw [List.append_nil]
    exact hrows

/-- **The matrix of a block has the constraints as its rows, in the new order of the parameters.** -/
theorem C_eq (h : g.Dense) {k j : ℕ} (hk : g.constraints[k]? = some con) (hj : j < g.indices.length) :
    (g.labels rOffset).C k j = con.entries.entry (g.columns.getD j 0) := by
  have hcon := List.mem_of_getElem? hk
  have hperm : (g.blockEntries rOffset).Perm g.rowEntries := blockEntries_perm h
  have hnodup : ((g.blockEntries rOffset).map Prod.fst).Nodup := (hperm.map Prod.fst).nodup_iff.2 (rowEntries_nodup h)
  have hj' : j < g.columns.length := (length_columns h.indices).symm ▸ hj
  have hget : g.columns.getD j 0 = g.columns[j] := by
    rw [List.getD_eq_getElem?_getD, List.getElem?_eq_getElem hj', Option.getD_some]
  have hpos : g.columns.idxOf g.columns[j] = j := (columns_nodup h.indices).idxOf_getElem j hj'
  rw [hget]
  by_cases hp : g.columns[j] ∈ con.entries.map Prod.fst
  · obtain ⟨⟨p, v⟩, he, hpj⟩ := List.mem_map.1 hp
    rw [← hpj, Entries.entry_of_mem (h.parameters con hcon) he]
    refine Entries.entry_of_mem hnodup (hperm.mem_iff.2 (mem_rowEntries.2 ⟨k, con, p, hk, he, ?_⟩))
    rw [show p = g.columns[j] from hpj, hpos]
    rfl
  · rw [Entries.entry_of_not_mem hp]
    refine Entries.entry_of_not_mem fun hkey => hp ?_
    obtain ⟨⟨key, v⟩, he, hkey⟩ := List.mem_map.1 hkey
    obtain ⟨k', con', p, hk', hpv, hrow⟩ := mem_rowEntries.1 (hperm.mem_iff.1 he)
    have hcon' := List.mem_of_getElem? hk'
    obtain ⟨rfl, rfl⟩ := row_col_inj (h.idxOf_lt hcon' (List.mem_map_of_mem hpv)) hj (hrow.symm.trans hkey)
    obtain rfl := Option.some.inj (hk.symm.trans hk')
    rw [List.getElem_idxOf]
    exact List.mem_map_of_mem hpv

/-- **The rows of a block are the constraints of its group.** -/
theorem solves_iff (h : g.Dense) (v : ℕ → ℚ) : (g.labels rOffset).Solves v ↔
    ∀ con ∈ g.constraints, con.dot (fun p => v (g.columns.idxOf p)) = 0 := by
  have hrow : ∀ k con, g.constraints[k]? = some con →
      ∑ j ∈ Finset.range g.indices.length, ((g.labels rOffset).C k j : ℚ) * v j =
        con.dot fun p => v (g.columns.idxOf p) := by
    intro k con hk
    have hcon := List.mem_of_getElem? hk
    rw [Constraint.dot, ← Entries.sum_entry (columns_nodup h.indices) v (h.parameters con hcon) (h.sub hcon),
      length_columns h.indices]
    refine Finset.sum_congr rfl fun j hj => ?_
    rw [C_eq h hk (Finset.mem_range.1 hj)]
  constructor
  · intro hsolves con hcon
    obtain ⟨k, hk⟩ := List.getElem?_of_mem hcon
    rw [← hrow k con hk]
    exact hsolves k (List.getElem?_eq_some_iff.1 hk).1
  · intro hdot k hk
    have hget := List.getElem?_eq_getElem (show k < g.constraints.length from hk)
    exact (hrow k _ hget).trans (hdot _ (List.getElem_mem _))

end Group

end Block

end Redux.Momfbd.Constraints
