import Mathlib.LinearAlgebra.LinearIndependent.Lemmas
import Mathlib.Tactic.IntervalCases
import Mathlib.Tactic.Linarith
import Redux.Momfbd.NullMatrix
import Redux.Momfbd.TiltBasis

/-!
# Momfbd.NullMatrixValid — the nullspaces of the groups make one of the job
-/

namespace Redux.Momfbd.Constraints

open Redux.Lib

/-! ## The places of the blocks -/

section Places

variable {groups : List Group} {b : Block}

/-- The parameters that a group has more than constraints. -/
def Group.nFree (g : Group) : ℕ := g.indices.length - g.constraints.length

theorem map_group_blockify : ∀ (groups : List Group) (y x : ℤ), (blockify y x groups).map Block.group = groups
  | [], _, _ => rfl
  | _ :: groups, _, _ => congrArg _ (map_group_blockify groups _ _)

/-- **The blocks have their columns side by side.** -/
theorem mem_columns_blockify (hle : ∀ g ∈ groups, g.constraints.length ≤ g.indices.length) (y x c : ℤ) :
    (∃ b ∈ blockify y x groups, b.x ≤ c ∧ c < b.x + b.nCols) ↔
      x ≤ c ∧ c < x + ((groups.map Group.nFree).sum : ℕ) := by
  induction groups generalizing y x with
  | nil =>
    refine iff_of_false (fun ⟨b, hb, _⟩ => absurd hb List.not_mem_nil) fun h => ?_
    simp at h
    omega
  | cons g groups ih =>
    have hg := hle g List.mem_cons_self
    have hnext := ih (fun g hg => hle g (List.mem_cons_of_mem _ hg)) (y + g.indices.length)
      (x + (g.indices.length - g.constraints.length))
    rw [List.map_cons, List.sum_cons, Int.natCast_add]
    have hfree : (g.nFree : ℤ) = g.indices.length - g.constraints.length := by
      rw [Group.nFree, Int.natCast_sub hg]
    rw [← hfree] at hnext
    constructor
    · rintro ⟨b, hb, hc⟩
      rcases List.mem_cons.1 hb with rfl | hb
      · have hcols : ((⟨g, y, x⟩ : Block).nCols : ℤ) = g.nFree := rfl
        dsimp only at hc
        omega
      · rw [← hfree] at hb
        have h := hnext.1 ⟨b, hb, hc⟩
        omega
    · intro hc
      by_cases hlt : c < x + g.nFree
      · exact ⟨⟨g, y, x⟩, List.mem_cons_self, hc.1, hlt⟩
      · obtain ⟨b, hb, hbc⟩ := hnext.2 ⟨by omega, by omega⟩
        refine ⟨b, List.mem_cons_of_mem _ ?_, hbc⟩
        rw [← hfree]
        exact hb

theorem le_of_mem_blockify (hle : ∀ g ∈ groups, g.constraints.length ≤ g.indices.length) {y x : ℤ}
    (hb : b ∈ blockify y x groups) : x ≤ b.x := by
  induction groups generalizing y x with
  | nil => exact absurd hb List.not_mem_nil
  | cons g groups ih =>
    have hg := hle g List.mem_cons_self
    rcases List.mem_cons.1 hb with rfl | hb
    · exact le_rfl
    · have h := ih (fun g hg => hle g (List.mem_cons_of_mem _ hg)) hb
      omega

end Places

section Job

variable {job : MomfbdJob} {order : RowSort} {ns : Labels → List ℚ} {g : Group} {b b' : Block} {y x : ℤ}

namespace MomfbdJob

/-! ## The groups of a job -/

theorem group_of (hg : g ∈ job.groups order) : g.Of job.constraints := groups_of g hg

theorem dense (hg : g ∈ job.groups order) : g.Dense where
  indices := indices_nodup g hg
  parameters _ hcon := parameters_nodup ((group_of hg).component.subset hcon)
  subset con hcon _ hp := ((group_of hg).indexed _).2 ⟨con, hcon, hp⟩

theorem constraints_le (hg : g ∈ job.groups order) : g.constraints.length ≤ g.indices.length := by
  rw [length_indices (group_of hg) (indices_nodup g hg)]
  exact Nat.le_add_right _ _

theorem length_free (hg : g ∈ job.groups order) : (job.free g).length = g.nFree := by
  rw [Group.nFree, length_indices (group_of hg) (indices_nodup g hg), Nat.add_sub_cancel_left]

theorem indices_lt (hg : g ∈ job.groups order) {p : ℤ} (hp : p ∈ g.indices) : 0 ≤ p ∧ p < job.nParameters := by
  obtain ⟨con, hcon, hpar⟩ := ((group_of hg).indexed p).1 hp
  exact parameters_lt ((group_of hg).component.subset hcon) hpar

theorem constraints_nodup : job.constraints.Nodup := by
  have haddress : job.constraints.map Constraint.address = List.range' 0 job.rows.length := by
    rw [constraints, List.map_map]
    exact List.zipIdx_map_snd ..
  refine List.Nodup.of_map Constraint.address ?_
  rw [haddress]
  exact List.nodup_range'

/-- The groups have the constraints of the job. -/
theorem constraints_perm : job.constraints.Perm ((job.groups order).flatMap Group.constraints) := by
  have hdisj : (job.groups order).Pairwise fun g h => List.Disjoint g.constraints h.constraints := by
    refine (groups_disjoint).imp_of_mem fun {g h} hg hh hgh con hcon hcon' => ?_
    exact not_mem_of_disjoint (groups_of g hg) (groups_of h hh) hgh hcon hcon'
  refine (List.perm_ext_iff_of_nodup constraints_nodup
    (List.nodup_flatMap.2 ⟨fun g hg => (group_of hg).nodup, hdisj⟩)).2 fun con => ?_
  rw [List.mem_flatMap]
  exact mem_groups

theorem indices_flatMap_nodup : ((job.groups order).flatMap Group.indices).Nodup := by
  refine List.nodup_flatMap.2 ⟨fun g hg => indices_nodup g hg, ?_⟩
  exact groups_disjoint.imp fun {g h} hgh p hp hp' => hgh p hp hp'

/-- The columns of all groups. -/
def nCols (job : MomfbdJob) (order : RowSort) : ℕ := ((job.groups order).map Group.nFree).sum

theorem length_indices_flatMap : ((job.groups order).flatMap Group.indices).length =
    job.constraints.length + job.nCols order := by
  have hperm : job.constraints.Perm ((job.groups order).flatMap Group.constraints) := constraints_perm
  rw [hperm.length_eq, List.length_flatMap, List.length_flatMap, nCols]
  have hle : ∀ g ∈ job.groups order, g.constraints.length ≤ g.indices.length := fun g hg => constraints_le hg
  generalize job.groups order = groups at hle
  induction groups with
  | nil => rfl
  | cons g groups ih =>
    have hg := hle g List.mem_cons_self
    have hsum := ih fun g hg => hle g (List.mem_cons_of_mem _ hg)
    simp only [List.map_cons, List.sum_cons]
    unfold Group.nFree at hsum ⊢
    omega

/-! ## The blocks of a job -/

theorem group_mem (hb : b ∈ job.blocks order) : b.group ∈ job.groups order := by
  have hmap := map_group_blockify (job.groups order) 0 0
  rw [← hmap]
  exact List.mem_map_of_mem hb

theorem shaped (hns : b.labels.Sized (ns b.labels)) (hb : b ∈ job.blocks order) : b.Shaped ns :=
  ⟨dense (group_mem hb), constraints_le (group_mem hb), hns⟩

theorem good (hns : b.labels.Correct significant (ns b.labels)) (hb : b ∈ job.blocks order) : b.Good ns :=
  (shaped hns.sized hb).good hns

theorem exists_block (hg : g ∈ job.groups order) : ∃ b ∈ job.blocks order, b.group = g := by
  rw [← map_group_blockify (job.groups order) 0 0] at hg
  exact List.mem_map.1 hg

theorem x_nonneg (hb : b ∈ job.blocks order) : 0 ≤ b.x := le_of_mem_blockify (fun _ hg => constraints_le hg) hb

theorem mem_window (c : ℤ) : (∃ b ∈ job.blocks order, b.x ≤ c ∧ c < b.x + b.nCols) ↔ 0 ≤ c ∧ c < job.nCols order := by
  have h := mem_columns_blockify (fun g (hg : g ∈ job.groups order) => constraints_le hg) 0 0 c
  rwa [zero_add] at h

/-- Different blocks have different parameters. -/
theorem block_eq (hb : b ∈ job.blocks order) (hb' : b' ∈ job.blocks order) (hy : y ∈ b.group.indices)
    (hy' : y ∈ b'.group.indices) : b = b' := by
  have hpair : (job.blocks order).Pairwise fun b b' => ∀ i ∈ b.group.indices, i ∉ b'.group.indices := by
    have hdisj : (connectedGroups order job.constraints).Pairwise
        fun g h => ∀ i ∈ g.indices, i ∉ h.indices := groups_disjoint
    rw [show connectedGroups order job.constraints = (job.blocks order).map Block.group from
      (map_group_blockify _ 0 0).symm, List.pairwise_map] at hdisj
    exact hdisj
  have hsymm : Std.Symm fun b b' : Block => ∀ i ∈ b.group.indices, i ∉ b'.group.indices :=
    ⟨fun _ _ h i hi hi' => h i hi' hi⟩
  by_contra hne
  exact List.Pairwise.forall hpair hb hb' hne y hy hy'

theorem getD_mem (hb : b ∈ job.blocks order) {j : ℕ} (hj : j < b.nRows) :
    b.group.columns.getD j 0 ∈ b.group.indices := Group.getD_mem (dense (group_mem hb)).indices hj

theorem getD_idxOf (hb : b ∈ job.blocks order) (hy : y ∈ b.group.indices) :
    b.group.columns.idxOf y < b.nRows ∧ b.group.columns.getD (b.group.columns.idxOf y) 0 = y := by
  have hnodup := (dense (group_mem hb)).indices
  have hlt := Group.idxOf_lt hnodup hy
  exact ⟨hlt, (Group.getD_eq_iff hnodup hlt hy).2 rfl⟩

theorem getD_inj (hb : b ∈ job.blocks order) {i j : ℕ} (hi : i < b.nRows) (hj : j < b.nRows)
    (h : b.group.columns.getD i 0 = b.group.columns.getD j 0) : i = j := by
  have hnodup := (dense (group_mem hb)).indices
  have hmem := Group.getD_mem hnodup hj
  rw [(Group.getD_eq_iff hnodup hi hmem).1 h, ← (Group.getD_eq_iff hnodup hj hmem).1 rfl]

/-- **No row of a nullspace is zero, and no column.** -/
theorem exists_col_ne_zero (hgood : b.Good ns) (hb : b ∈ job.blocks order)
    (hfree : 0 < b.nCols) {j : ℕ} (hj : j < b.nRows) :
    ∃ k < b.nCols, b.matrix ns j k ≠ 0 := by
  have hg := group_mem hb
  have hne : job.free b.group ≠ [] := List.length_pos_iff.1 (by rw [length_free hg]; exact hfree)
  obtain ⟨v, hv, hvj⟩ := exists_solution (group_of hg) hne (getD_mem hb hj)
  have hsolves : b.labels.Solves fun j => v (b.group.columns.getD j 0) := by
    refine (Group.solves_iff (dense hg) _).2 fun con hcon => ?_
    rw [← hv con hcon, Constraint.dot, Constraint.dot]
    refine congrArg List.sum (List.map_congr_left fun entry hentry => ?_)
    rw [(getD_idxOf hb ((dense hg).subset con hcon (List.mem_map_of_mem hentry))).2]
  obtain ⟨c, hc⟩ := (hgood.basis hfree).spans _ hsolves
  by_contra hzero
  push Not at hzero
  refine hvj ((hc j hj).trans (Finset.sum_eq_zero fun k _ => ?_))
  have hk : (k : ℕ) < b.nCols := k.isLt.trans_eq hgood.toNat_nFree
  rw [hzero k hk, mul_zero]

theorem exists_row_ne_zero (hgood : b.Good ns) (hfree : 0 < b.nCols) {k : ℕ} (hk : k < b.nCols) :
    ∃ j < b.nRows, b.matrix ns j k ≠ 0 := by
  have hk' : k < b.labels.nFree.toNat := hk.trans_eq hgood.toNat_nFree.symm
  have hne := (hgood.basis hfree).independent.ne_zero ⟨k, hk'⟩
  by_contra hzero
  push Not at hzero
  exact hne (funext fun j => hzero j j.isLt)

/-! ## All entries -/

/-- What the groups add. -/
def used (job : MomfbdJob) (order : RowSort) (ns : Labels → List ℚ) : NsEntries :=
  (job.blocks order).flatMap fun b => b.used ns

/-- The parameters that are in no group, and the columns behind those of the groups. -/
def unused1 (job : MomfbdJob) (order : RowSort) : List ℤ :=
  ((List.range job.nParameters).map (Nat.cast : ℕ → ℤ)).filter fun y => y ∉ (job.groups order).flatMap Group.indices

def unused2 (job : MomfbdJob) (order : RowSort) : List ℤ :=
  ((List.range job.nFreeParameters.toNat).map (Nat.cast : ℕ → ℤ)).filter fun x =>
    x ∉ (List.range (job.nCols order)).map (Nat.cast : ℕ → ℤ)

theorem mem_range_map {n : ℕ} : y ∈ (List.range n).map (Nat.cast : ℕ → ℤ) ↔ 0 ≤ y ∧ y < n := by
  rw [List.mem_map]
  constructor
  · rintro ⟨i, hi, rfl⟩
    exact ⟨Int.natCast_nonneg _, Int.ofNat_lt.2 (List.mem_range.1 hi)⟩
  · rintro ⟨h0, hn⟩
    exact ⟨y.toNat, List.mem_range.2 (by omega), by omega⟩

theorem range_map_nodup (n : ℕ) : ((List.range n).map (Nat.cast : ℕ → ℤ)).Nodup :=
  List.nodup_range.map Nat.cast_injective

/-- **As many parameters are left as columns.** -/
theorem nParameters_eq (job : MomfbdJob) (order : RowSort) :
    job.nParameters = job.constraints.length + job.nCols order + (job.unused1 order).length := by
  have hsub : (job.groups order).flatMap Group.indices ⊆ (List.range job.nParameters).map (Nat.cast : ℕ → ℤ) := by
    intro p hp
    obtain ⟨g, hg, hpg⟩ := List.mem_flatMap.1 hp
    exact mem_range_map.2 (indices_lt hg hpg)
  have hlen := length_eq_add_filter indices_flatMap_nodup hsub (range_map_nodup _)
  rw [length_indices_flatMap, List.length_map, List.length_range] at hlen
  exact hlen

theorem nFreeParameters_eq (job : MomfbdJob) (order : RowSort) :
    job.nFreeParameters = job.nCols order + (job.unused1 order).length := by
  rw [nFreeParameters, job.nParameters_eq order]
  omega

theorem length_unused2 (job : MomfbdJob) (order : RowSort) : (job.unused2 order).length =
    (job.unused1 order).length := by
  have hfree := job.nFreeParameters_eq order
  have hsub : (List.range (job.nCols order)).map (Nat.cast : ℕ → ℤ) ⊆
      (List.range job.nFreeParameters.toNat).map (Nat.cast : ℕ → ℤ) := by
    intro c hc
    rw [mem_range_map] at hc ⊢
    omega
  have hlen := length_eq_add_filter (range_map_nodup _) hsub (range_map_nodup _)
  rw [List.length_map, List.length_map, List.length_range, List.length_range] at hlen
  rw [unused2]
  omega

/-- The rows of the entries are the parameters of the groups. -/
theorem mem_used_rows (hns : ∀ b ∈ job.blocks order, b.labels.Correct significant (ns b.labels)) :
    y ∈ (job.used order ns).map (fun entry => entry.1.1) ↔
      y ∈ (job.groups order).flatMap Group.indices := by
  rw [used, List.map_flatMap, List.mem_flatMap, List.mem_flatMap]
  constructor
  · rintro ⟨b, hb, hy⟩
    obtain ⟨entry, hentry, rfl⟩ := List.mem_map.1 hy
    have hgood := good (hns b hb) hb
    refine ⟨b.group, group_mem hb, ?_⟩
    rcases Nat.eq_zero_or_pos b.nCols with hfree | hfree
    · obtain ⟨j, hj, rfl⟩ := (hgood.mem_used_none hfree).1 hentry
      exact getD_mem hb hj
    · obtain ⟨j, hj, k, -, rfl, -⟩ := (hgood.mem_used (x_nonneg hb) hfree).1 hentry
      exact getD_mem hb hj
  · rintro ⟨g, hg, hy⟩
    obtain ⟨b, hb, rfl⟩ := exists_block hg
    have hgood := good (hns b hb) hb
    obtain ⟨hj, hget⟩ := getD_idxOf hb hy
    refine ⟨b, hb, List.mem_map.2 ?_⟩
    rcases Nat.eq_zero_or_pos b.nCols with hfree | hfree
    · exact ⟨_, (hgood.mem_used_none hfree).2 ⟨_, hj, rfl⟩, hget⟩
    · obtain ⟨k, hk, hne⟩ := exists_col_ne_zero hgood hb hfree hj
      exact ⟨_, (hgood.mem_used (x_nonneg hb) hfree).2 ⟨_, hj, k, hk, rfl, hne⟩, hget⟩

/-- The columns of the entries are the first ones. -/
theorem mem_used_columns (hns : ∀ b ∈ job.blocks order, b.labels.Correct significant (ns b.labels))
    (hx : 0 ≤ x) :
    x ∈ ((job.blocks order).flatMap fun b => b.mapNullspace ns).map (fun entry => entry.1.2) ↔
      x ∈ (List.range (job.nCols order)).map (Nat.cast : ℕ → ℤ) := by
  rw [mem_range_map, ← mem_window, List.map_flatMap, List.mem_flatMap]
  refine exists_congr fun b => and_congr_right fun hb => ?_
  have hgood := good (hns b hb) hb
  rw [List.mem_map]
  constructor
  · rintro ⟨entry, hentry, rfl⟩
    rcases Nat.eq_zero_or_pos b.nCols with hfree | hfree
    · obtain ⟨j, hj, rfl⟩ := (hgood.mem_mapNullspace_none hfree).1 hentry
      have hneg : (0 : ℤ) ≤ -1 := hx
      omega
    · obtain ⟨j, hj, k, hk, rfl, -⟩ := (hgood.mem_mapNullspace hfree).1 hentry
      dsimp only
      omega
  · intro hc
    have hfree : 0 < b.nCols := by omega
    have hk : (x - b.x).toNat < b.nCols := by omega
    obtain ⟨j, hj, hne⟩ := exists_row_ne_zero hgood hfree hk
    refine ⟨_, (hgood.mem_mapNullspace hfree).2 ⟨j, hj, _, hk, rfl, hne⟩, ?_⟩
    dsimp only
    omega

/-- **What `blockifyGroups` leaves, and what it has put together.** -/
theorem blockifyGroups_eq (hns : ∀ b ∈ job.blocks order, b.labels.Correct significant (ns b.labels)) :
    (job.blockifyGroups order ns).unused1 = job.unused1 order ∧
    (job.blockifyGroups order ns).unused2 = job.unused2 order ∧
    (job.blockifyGroups order ns).ns_entries = (job.used order ns).foldl NsEntries.insert [] := by
  have hinside : ∀ b ∈ job.blocks order, b.Inside ns := fun b hb => (good (hns b hb) hb).inside
  obtain ⟨h₁, h₂, h₃⟩ := Assembly.foldl_addBlock (s := ⟨id, (List.range job.nParameters).map (Nat.cast : ℕ → ℤ),
    (List.range job.nFreeParameters.toNat).map (Nat.cast : ℕ → ℤ), []⟩) hinside
  refine ⟨h₁.trans ?_, h₂.trans ?_, h₃⟩
  · refine List.filter_congr fun y _ => ?_
    rw [Bool.eq_iff_iff, decide_eq_true_iff, decide_eq_true_iff]
    exact not_congr (mem_used_rows hns)
  · refine List.filter_congr fun x hx => ?_
    rw [Bool.eq_iff_iff, decide_eq_true_iff, decide_eq_true_iff]
    exact not_congr (mem_used_columns hns (mem_range_map.1 hx).1)

/-- What a group adds is in rows of the job, and in columns if there is one. -/
theorem used_fits {entry : (ℤ × ℤ) × ℚ} (hns : ∀ b ∈ job.blocks order, b.labels.Sized (ns b.labels))
    (hentry : entry ∈ job.used order ns) : (0 ≤ entry.1.1 ∧ entry.1.1 < job.nParameters) ∧ 0 ≤ entry.1.2 ∧
      (0 < job.nFreeParameters → entry.1.2 < job.nFreeParameters) := by
  have hfree := job.nFreeParameters_eq order
  obtain ⟨b, hb, hused⟩ := List.mem_flatMap.1 hentry
  have hshaped := shaped (hns b hb) hb
  rcases Nat.eq_zero_or_pos b.nCols with hnone | hsome
  · obtain ⟨j, hj, rfl⟩ := (hshaped.mem_used_none hnone).1 hused
    exact ⟨indices_lt (group_mem hb) (getD_mem hb hj), le_rfl, id⟩
  · obtain ⟨j, hj, k, hk, rfl, -⟩ := (hshaped.mem_used (x_nonneg hb) hsome).1 hused
    have hcol := (mem_window (b.x + k)).1 ⟨b, hb, by omega, by omega⟩
    exact ⟨indices_lt (group_mem hb) (getD_mem hb hj), hcol.1, fun _ => by dsimp only; omega⟩

/-- **All entries are in rows and columns of the matrix**, whatever numbers the nullspaces of the groups have. -/
theorem fits (hns : ∀ b ∈ job.blocks order, b.labels.Sized (ns b.labels)) : job.Fits (job.ns_entries order ns) := by
  have hinside : ∀ b ∈ job.blocks order, b.Inside ns := fun b hb => (shaped (hns b hb) hb).inside
  obtain ⟨h₁, h₂, h₃⟩ : (job.blockifyGroups order ns).unused1 = _ ∧ (job.blockifyGroups order ns).unused2 = _ ∧
    (job.blockifyGroups order ns).ns_entries = _ := Assembly.foldl_addBlock hinside
  have hblocks : ∀ entry ∈ (job.blockifyGroups order ns).ns_entries, entry ∈ job.used order ns := by
    intro entry hentry
    rw [h₃] at hentry
    exact NsEntries.mem_foldl hentry
  intro entry hentry
  rw [ns_entries, Assembly.fill] at hentry
  split_ifs at hentry
  · rw [← List.foldl_map (f := fun index => (index, (1 : ℚ)))] at hentry
    rcases List.mem_append.1 (NsEntries.mem_foldl hentry) with hused | hzip
    · exact used_fits hns (hblocks entry hused)
    · obtain ⟨index, hindex, rfl⟩ := List.mem_map.1 hzip
      obtain ⟨hy, hx⟩ := List.of_mem_zip hindex
      rw [h₁] at hy
      rw [h₂] at hx
      have hrow := mem_range_map.1 (List.mem_filter.1 hy).1
      have hcolumn := mem_range_map.1 (List.mem_filter.1 hx).1
      exact ⟨hrow, hcolumn.1, fun _ => by dsimp only; omega⟩
  · exact used_fits hns (hblocks entry hentry)

/-- All entries: those of the groups, and the ones of the parameters that are left. -/
def allEntries (job : MomfbdJob) (order : RowSort) (ns : Labels → List ℚ) : NsEntries :=
  job.used order ns ++ ((job.unused1 order).zip (job.unused2 order)).map fun index => (index, 1)

theorem ns_entries_eq (hns : ∀ b ∈ job.blocks order, b.labels.Correct significant (ns b.labels)) :
    job.ns_entries order ns = (((job.unused1 order).zip (job.unused2 order)).map fun index => (index, (1 : ℚ))).foldl
      NsEntries.insert ((job.used order ns).foldl NsEntries.insert []) := by
  obtain ⟨h₁, h₂, h₃⟩ := blockifyGroups_eq hns
  rw [ns_entries, Assembly.fill, h₁, h₂, h₃, if_pos (job.length_unused2 order).symm, List.foldl_map]

theorem nullMatrix_eq (hns : ∀ b ∈ job.blocks order, b.labels.Correct significant (ns b.labels)) :
    job.nullMatrix order ns y x = (job.allEntries order ns).get y x := by
  refine NsEntries.get_congr ?_
  rw [ns_entries_eq hns, NsEntries.find?_foldl, List.find?_append, NsEntries.find?_foldl, List.nil_append,
    ← List.find?_append]
  rfl

theorem mem_zip_left (h : (y, x) ∈ (job.unused1 order).zip (job.unused2 order)) :
    y ∉ (job.groups order).flatMap Group.indices :=
  of_decide_eq_true (List.mem_filter.1 (List.of_mem_zip h).1).2

/-- **The rows of a block in the matrix.** -/
theorem nullMatrix_block (hns : ∀ b ∈ job.blocks order, b.labels.Correct significant (ns b.labels))
    (hb : b ∈ job.blocks order) (hy : y ∈ b.group.indices) : job.nullMatrix order ns y x =
      if b.x ≤ x ∧ x < b.x + b.nCols then b.matrix ns (b.group.columns.idxOf y) (x - b.x).toNat else 0 := by
  rw [nullMatrix_eq hns]
  have hgood := good (hns b hb) hb
  obtain ⟨hj, hget⟩ := getD_idxOf hb hy
  have hrow : ∀ {j}, j < b.nRows → b.group.columns.getD j 0 = y → j = b.group.columns.idxOf y := fun hi h =>
    getD_inj hb hi hj (h.trans hget.symm)
  have hnot : y ∈ (job.groups order).flatMap Group.indices := List.mem_flatMap.2 ⟨b.group, group_mem hb, hy⟩
  refine NsEntries.get_eq (fun entry hentry hkey => ?_) fun hne => ?_
  · rcases List.mem_append.1 hentry with hentry | hentry
    · obtain ⟨b', hb', hentry⟩ := List.mem_flatMap.1 hentry
      have hgood' := good (hns b' hb') hb'
      rcases Nat.eq_zero_or_pos b'.nCols with hfree | hfree
      · obtain ⟨j, hj', rfl⟩ := (hgood'.mem_used_none hfree).1 hentry
        obtain ⟨hyj, hx⟩ := Prod.mk.inj hkey
        obtain rfl := block_eq hb hb' hy (hyj ▸ getD_mem hb' hj')
        rw [if_neg (by omega)]
      · obtain ⟨j, hj', k, hk, rfl, -⟩ := (hgood'.mem_used (x_nonneg hb') hfree).1 hentry
        obtain ⟨hyj, hx⟩ := Prod.mk.inj hkey
        obtain rfl := block_eq hb hb' hy (hyj ▸ getD_mem hb' hj')
        rw [if_pos (by omega), hrow hj' hyj, show (x - b.x).toNat = k by omega]
    · obtain ⟨index, hindex, rfl⟩ := List.mem_map.1 hentry
      obtain rfl : index = (y, x) := hkey
      exact absurd hnot (mem_zip_left hindex)
  · split_ifs at hne with hwindow
    · have hk : (x - b.x).toNat < b.nCols := by omega
      refine ⟨_, List.mem_append_left _ (List.mem_flatMap.2 ⟨b, hb,
        (hgood.mem_used (x_nonneg hb) (Nat.zero_lt_of_lt hk)).2 ⟨_, hj, _, hk, rfl, hne⟩⟩), ?_⟩
      rw [hget, show b.x + ((x - b.x).toNat : ℤ) = x by omega]
    · exact absurd rfl hne

/-- **The rows of the parameters in no group.** -/
theorem nullMatrix_free (hns : ∀ b ∈ job.blocks order, b.labels.Correct significant (ns b.labels))
    (hy : y ∉ (job.groups order).flatMap Group.indices) : job.nullMatrix order ns y x =
      if (y, x) ∈ (job.unused1 order).zip (job.unused2 order) then 1 else 0 := by
  rw [nullMatrix_eq hns]
  refine NsEntries.get_eq (fun entry hentry hkey => ?_) fun hne => ?_
  · rcases List.mem_append.1 hentry with hentry | hentry
    · refine absurd ((mem_used_rows hns).1 (List.mem_map.2 ⟨entry, hentry, ?_⟩)) hy
      rw [hkey]
    · obtain ⟨index, hindex, rfl⟩ := List.mem_map.1 hentry
      rw [if_pos (show (y, x) ∈ _ from hkey ▸ hindex)]
  · split_ifs at hne with hzip
    · exact ⟨((y, x), 1), List.mem_append_right _ (List.mem_map.2 ⟨(y, x), hzip, rfl⟩), rfl⟩
    · exact absurd rfl hne

/-! ## The matrix -/

theorem unused1_nodup : (job.unused1 order).Nodup := (range_map_nodup _).filter _

theorem unused2_nodup : (job.unused2 order).Nodup := (range_map_nodup _).filter _

/-- A pair of the two lists is found by either side. -/
theorem zip_inj {as bs : List ℤ} (has : as.Nodup) (hbs : bs.Nodup) {a a' b b' : ℤ} (h : (a, b) ∈ as.zip bs)
    (h' : (a', b') ∈ as.zip bs) : a = a' ↔ b = b' := by
  obtain ⟨i, hi⟩ := List.getElem?_of_mem h
  obtain ⟨i', hi'⟩ := List.getElem?_of_mem h'
  rw [List.getElem?_zip_eq_some] at hi hi'
  have hlt := (List.getElem?_eq_some_iff.1 hi.1).1
  have hlt₂ := (List.getElem?_eq_some_iff.1 hi.2).1
  constructor
  · rintro rfl
    obtain rfl := (List.getElem?_inj hlt has).1 (hi.1.trans hi'.1.symm)
    exact Option.some.inj (hi.2.symm.trans hi'.2)
  · rintro rfl
    obtain rfl := (List.getElem?_inj hlt₂ hbs).1 (hi.2.trans hi'.2.symm)
    exact Option.some.inj (hi.1.symm.trans hi'.1)

/-- A parameter in no group has a column behind those of the groups. -/
theorem exists_partner (hy : y ∈ job.unused1 order) : ∃ x, (y, x) ∈ (job.unused1 order).zip (job.unused2 order) := by
  obtain ⟨i, hi⟩ := List.getElem?_of_mem hy
  have hlt : i < (job.unused2 order).length := by
    rw [job.length_unused2 order]
    exact (List.getElem?_eq_some_iff.1 hi).1
  exact ⟨(job.unused2 order)[i], List.mem_of_getElem? (List.getElem?_zip_eq_some.2 ⟨hi, List.getElem?_eq_getElem hlt⟩)⟩

theorem exists_partner' (hx : x ∈ job.unused2 order) : ∃ y, (y, x) ∈ (job.unused1 order).zip (job.unused2 order) := by
  obtain ⟨i, hi⟩ := List.getElem?_of_mem hx
  have hlt : i < (job.unused1 order).length := by
    rw [← job.length_unused2 order]
    exact (List.getElem?_eq_some_iff.1 hi).1
  exact ⟨(job.unused1 order)[i], List.mem_of_getElem? (List.getElem?_zip_eq_some.2 ⟨List.getElem?_eq_getElem hlt, hi⟩)⟩

/-- **The column of a parameter in no group.** -/
theorem nullMatrix_column (hns : ∀ b ∈ job.blocks order, b.labels.Correct significant (ns b.labels))
    (hzip : (y, x) ∈ (job.unused1 order).zip (job.unused2 order)) (y' : ℤ) :
    job.nullMatrix order ns y' x = if y' = y then 1 else 0 := by
  by_cases hy' : y' ∈ (job.groups order).flatMap Group.indices
  · obtain ⟨g, hg, hy'g⟩ := List.mem_flatMap.1 hy'
    obtain ⟨b, hb, rfl⟩ := exists_block hg
    have hx := of_decide_eq_true (List.mem_filter.1 (List.of_mem_zip hzip).2).2
    have hne : y' ≠ y := fun h => mem_zip_left hzip (h ▸ hy')
    rw [nullMatrix_block hns hb hy'g, if_neg hne, if_neg]
    intro hwindow
    exact hx (mem_range_map.2 ((mem_window x).1 ⟨b, hb, hwindow⟩))
  · rw [nullMatrix_free hns hy']
    refine if_congr ⟨fun h => ?_, fun h => h ▸ hzip⟩ rfl rfl
    exact (zip_inj unused1_nodup unused2_nodup h hzip).2 rfl

theorem nullMatrix_solves (hns : ∀ b ∈ job.blocks order, b.labels.Correct significant (ns b.labels)) {con : Constraint}
    (hcon : con ∈ job.constraints) (x : ℤ) : con.dot (fun y => job.nullMatrix order ns y x) = 0 := by
  obtain ⟨g, hg, hcong⟩ := mem_groups.1 hcon
  obtain ⟨b, hb, rfl⟩ := exists_block hg
  have hrows : con.dot (fun y => job.nullMatrix order ns y x) = con.dot fun y =>
      if b.x ≤ x ∧ x < b.x + b.nCols then b.matrix ns (b.group.columns.idxOf y) (x - b.x).toNat else 0 := by
    rw [Constraint.dot, Constraint.dot]
    refine congrArg List.sum (List.map_congr_left fun entry hentry => ?_)
    rw [nullMatrix_block hns hb ((dense hg).subset con hcong (List.mem_map_of_mem hentry))]
  rw [hrows]
  by_cases hwindow : b.x ≤ x ∧ x < b.x + b.nCols
  · have hgood := good (hns b hb) hb
    have hk : (x - b.x).toNat < b.labels.nFree.toNat := by
      rw [hgood.toNat_nFree]
      omega
    have hfree : 0 < b.nCols := by omega
    simp only [if_pos hwindow]
    exact (Group.solves_iff (dense hg) _).1 ((hgood.basis hfree).solves _ hk) con hcong
  · simp [if_neg hwindow, Constraint.dot]

/-- The row of a parameter in no group. -/
theorem nullMatrix_row (hns : ∀ b ∈ job.blocks order, b.labels.Correct significant (ns b.labels))
    (hzip : (y, x) ∈ (job.unused1 order).zip (job.unused2 order)) (x' : ℤ) :
    job.nullMatrix order ns y x' = if x' = x then 1 else 0 := by
  rw [nullMatrix_free hns (mem_zip_left hzip)]
  refine if_congr ⟨fun h => ?_, fun h => h ▸ hzip⟩ rfl rfl
  exact (zip_inj unused1_nodup unused2_nodup h hzip).1 rfl

/-- **Independent columns**: those of a block by its rows, the others by their parameters. -/
theorem nullMatrix_independent (hns : ∀ b ∈ job.blocks order, b.labels.Correct significant (ns b.labels)) :
    LinearIndependent ℚ fun (x : Fin job.nFreeParameters.toNat) (y : Fin job.nParameters) =>
      job.nullMatrix order ns y x := by
  rw [Fintype.linearIndependent_iff]
  intro c hc x
  have hrow : ∀ y : ℕ, y < job.nParameters → ∑ x, c x * job.nullMatrix order ns y (x : ℕ) = 0 := by
    intro y hy
    have h := congrFun hc ⟨y, hy⟩
    rwa [Finset.sum_apply] at h
  have hfree := job.nFreeParameters_eq order
  by_cases hx : (x : ℤ) ∈ (List.range (job.nCols order)).map (Nat.cast : ℕ → ℤ)
  · obtain ⟨b, hb, hwindow⟩ := (mem_window _).2 (mem_range_map.1 hx)
    have hgood := good (hns b hb) hb
    have hk : (x - b.x).toNat < b.labels.nFree.toNat := by
      rw [hgood.toNat_nFree]
      omega
    have hxb := x_nonneg hb
    have hlt : ∀ k : Fin b.labels.nFree.toNat, b.x.toNat + k < job.nFreeParameters.toNat := by
      intro k
      have hkb := k.isLt.trans_eq hgood.toNat_nFree
      have hcol := (mem_window (b.x + k)).1 ⟨b, hb, by omega, by omega⟩
      omega
    have hindep := Fintype.linearIndependent_iff.1 (hgood.basis (by omega)).independent (fun k => c ⟨_, hlt k⟩)
      ?_ ⟨_, hk⟩
    · have heq : (⟨_, hlt ⟨_, hk⟩⟩ : Fin job.nFreeParameters.toNat) = x := Fin.ext (by dsimp only; omega)
      rw [← heq]
      exact hindep
    · funext j
      have hy := getD_mem hb j.isLt
      have hpar := indices_lt (group_mem hb) hy
      have hzero := hrow (b.group.columns.getD j 0).toNat (by omega)
      rw [Int.toNat_of_nonneg hpar.1] at hzero
      have hpos := getD_inj hb (getD_idxOf hb hy).1 j.isLt (getD_idxOf hb hy).2
      rw [Finset.sum_apply, Pi.zero_apply, ← hzero]
      refine Fintype.sum_of_injective (fun k => ⟨_, hlt k⟩) (fun k k' h => ?_) _ _ (fun x' hx' => ?_) fun k => ?_
      · exact Fin.ext (Nat.add_left_cancel (Fin.mk.inj h))
      · rw [nullMatrix_block hns hb hy, if_neg, mul_zero]
        intro hwindow'
        refine hx' ⟨⟨(x' - b.x).toNat, by rw [hgood.toNat_nFree]; omega⟩, Fin.ext ?_⟩
        dsimp only
        omega
      · have hkb := k.isLt.trans_eq hgood.toNat_nFree
        rw [nullMatrix_block hns hb hy, if_pos (by dsimp only; omega), hpos]
        dsimp only
        rw [show (((b.x.toNat + k : ℕ) : ℤ) - b.x).toNat = k by omega]
        rfl
  · have hunused : (x : ℤ) ∈ job.unused2 order := by
      refine List.mem_filter.2 ⟨mem_range_map.2 ⟨by omega, ?_⟩, decide_eq_true hx⟩
      have hlt := x.isLt
      omega
    obtain ⟨y, hzip⟩ := exists_partner' hunused
    have hy := mem_range_map.1 (List.mem_filter.1 (List.of_mem_zip hzip).1).1
    have hzero := hrow y.toNat (by omega)
    rw [Int.toNat_of_nonneg hy.1, Finset.sum_eq_single x] at hzero
    · rwa [nullMatrix_row hns hzip, if_pos rfl, mul_one] at hzero
    · intro x' _ hne
      rw [nullMatrix_row hns hzip, if_neg, mul_zero]
      exact fun h => hne (Fin.ext (Int.ofNat_inj.1 h))
    · exact fun h => absurd (Finset.mem_univ x) h

/-- **The nullspace of a job** whose rows can be sorted: with the right nullspaces of its groups, as far as their
numbers are kept, the matrix has the columns it should have and parametrises what the constraints leave. -/
theorem nullMatrix_valid (job : MomfbdJob) (order : RowSort) (ns : Labels → List ℚ) (hrows : job.Sortable)
    (hns : ∀ b ∈ job.blocks order, b.labels.Correct significant (ns b.labels)) :
    ∃ entries, job.init order ns = some entries ∧ job.Fits entries ∧ job.Parametrises entries.get ∧
      (job.blockifyGroups order ns).unused1.length = (job.blockifyGroups order ns).unused2.length := by
  have hfree := job.nFreeParameters_eq order
  refine ⟨_, job.init_eq order ns hrows, fits fun b hb => (hns b hb).sized, ⟨by omega, fun con hcon x =>
    nullMatrix_solves hns hcon x, nullMatrix_independent hns, fun y hy hcons => ?_⟩, ?_⟩
  · have hunused : (y : ℤ) ∈ job.unused1 order := by
      refine List.mem_filter.2 ⟨mem_range_map.2 ⟨by omega, by omega⟩, decide_eq_true fun hmem => ?_⟩
      obtain ⟨g, hg, hyg⟩ := List.mem_flatMap.1 hmem
      obtain ⟨con, hcon, hpar⟩ := ((group_of hg).indexed _).1 hyg
      exact hcons con ((group_of hg).component.subset hcon) hpar
    obtain ⟨x, hzip⟩ := exists_partner hunused
    have hx := mem_range_map.1 (List.mem_filter.1 (List.of_mem_zip hzip).2).1
    refine ⟨x.toNat, by omega, ?_⟩
    rw [Int.toNat_of_nonneg hx.1]
    exact ⟨fun y' => nullMatrix_column hns hzip y', fun x' => nullMatrix_row hns hzip x'⟩
  · obtain ⟨h₁, h₂, -⟩ := blockifyGroups_eq hns
    rw [h₁, h₂, job.length_unused2 order]

end MomfbdJob

end Job

/-! ## Four channels -/

/-- The numbers that `calculateNullspace` gives a group, row by row, before they are scaled. -/
def Labels.numbers (l : Labels) : List ℚ :=
  (List.range l.nParameters.toNat).flatMap fun j => (l.calculateNullspace.getD []).map fun v => v j

/-- Four channels of one image each, of which the second and the third have one wavefront; both tilts are fitted. -/
def fourChannels : MomfbdJob := ⟨2, [⟨[⟨[0]⟩, ⟨[1]⟩, ⟨[1]⟩, ⟨[2]⟩], List.cons_ne_nil _ _⟩]⟩

/-- The constraints as they are. -/
def RowSort.none : RowSort := ⟨id, fun _ => .refl _⟩

theorem fourChannels_constraints : fourChannels.constraints =
    [⟨0, [(0, 1)], List.cons_ne_nil _ _⟩, ⟨1, [(2, 1), (4, -1)], List.cons_ne_nil _ _⟩,
      ⟨2, [(1, 1)], List.cons_ne_nil _ _⟩, ⟨3, [(3, 1), (5, -1)], List.cons_ne_nil _ _⟩] := by
  decide

theorem fourChannels_groups : fourChannels.groups .none =
    [⟨[⟨0, [(0, 1)], List.cons_ne_nil _ _⟩], [0]⟩, ⟨[⟨1, [(2, 1), (4, -1)], List.cons_ne_nil _ _⟩], [2, 4]⟩,
      ⟨[⟨2, [(1, 1)], List.cons_ne_nil _ _⟩], [1]⟩, ⟨[⟨3, [(3, 1), (5, -1)], List.cons_ne_nil _ _⟩], [3, 5]⟩] := by
  rw [MomfbdJob.groups, fourChannels_constraints]
  simp [connectedGroups, Group.addConnectedConstraints, Group.addConnected, Group.new, Group.add, Group.connected,
    Constraint.parameters, OrderedSet.insert, OrderedSet.same, Group.inOrder, RowSort.none]

/-- Where the rows and the columns of the groups begin. -/
theorem fourChannels_blocks : fourChannels.blocks .none =
    [⟨⟨[⟨0, [(0, 1)], List.cons_ne_nil _ _⟩], [0]⟩, 0, 0⟩,
      ⟨⟨[⟨1, [(2, 1), (4, -1)], List.cons_ne_nil _ _⟩], [2, 4]⟩, 1, 0⟩,
      ⟨⟨[⟨2, [(1, 1)], List.cons_ne_nil _ _⟩], [1]⟩, 3, 1⟩,
      ⟨⟨[⟨3, [(3, 1), (5, -1)], List.cons_ne_nil _ _⟩], [3, 5]⟩, 4, 1⟩] := by
  rw [MomfbdJob.blocks, fourChannels_groups]
  rfl

theorem fourChannels_sortable : fourChannels.Sortable := by
  rw [MomfbdJob.Sortable, ← Entries.reads_iff, fourChannels_constraints]
  rintro _ ⟨a, ha, rfl⟩ _ ⟨b, hb, rfl⟩
  revert a b
  decide

theorem equalPair_solves (v : ℕ → ℚ) : equalPair.Solves v ↔ v 0 = v 1 := by
  have hrow : ∀ i < 1, (∑ j ∈ Finset.range 2, (equalPair.C i j : ℚ) * v j) = v 0 - v 1 := by
    intro i hi
    obtain rfl : i = 0 := by omega
    rw [Finset.sum_range_succ, Finset.sum_range_one, show equalPair.C 0 0 = 1 by decide,
      show equalPair.C 0 1 = -1 by decide, Int.cast_one, Int.cast_neg, Int.cast_one, one_mul, neg_one_mul,
      ← sub_eq_add_neg]
  exact ⟨fun hv => sub_eq_zero.1 ((hrow 0 Nat.one_pos).symm.trans (hv 0 Nat.one_pos)),
    fun hv i hi => (hrow i hi).trans (sub_eq_zero.2 hv)⟩

/-- What is calculated for two parameters that are the same. -/
theorem equalPair_correct : equalPair.Correct significant equalPair.numbers := by
  have hnumbers : equalPair.numbers = [1, 1] := by
    rw [Labels.numbers, Labels.calculateNullspace, if_neg (by decide), if_pos (by decide)]
    rfl
  have hone : significant 1 = true := by
    norm_num [significant]
  have hmapped : ∀ j < 2, equalPair.mapped significant [1, 1] j 0 = 1 := by
    intro j hj
    interval_cases j <;> exact if_pos hone
  intro _
  rw [hnumbers]
  refine ⟨rfl, fun k hk => ?_, ?_, fun v hv => ?_⟩
  · obtain rfl : k = 0 := by
      have hlt : k < 1 := hk
      omega
    rw [equalPair_solves, hmapped 0 (by decide), hmapped 1 (by decide)]
  · show LinearIndependent ℚ fun (k : Fin 1) (j : Fin 2) => equalPair.mapped significant [1, 1] j k
    refine LinearIndependent.of_subsingleton 0 fun hzero => one_ne_zero (α := ℚ) ?_
    rw [← hmapped 0 (by decide)]
    exact congrFun hzero 0
  · rw [equalPair_solves] at hv
    refine ⟨fun _ => v 0, fun j hj => ?_⟩
    have hlt : j < 2 := hj
    show v j = ∑ k : Fin 1, v 0 * equalPair.mapped significant [1, 1] j k
    rw [Fin.sum_univ_one, show ((0 : Fin 1) : ℕ) = 0 from rfl, hmapped j hlt, mul_one]
    interval_cases j
    · rfl
    · exact hv.symm

/-- Where there is freedom, the calculated nullspaces are bases. -/
theorem fourChannels_correct : ∀ b ∈ fourChannels.blocks .none, b.labels.Correct significant b.labels.numbers := by
  intro b hb
  by_cases hfree : 0 < b.labels.nFree
  · have hlabels : b.labels = equalPair := by
      rw [fourChannels_blocks] at hb
      simp only [List.mem_cons, List.not_mem_nil, or_false] at hb
      rcases hb with rfl | rfl | rfl | rfl
      · exact absurd hfree (by decide)
      · decide
      · exact absurd hfree (by decide)
      · decide
    rw [hlabels]
    exact equalPair_correct
  · exact fun h => absurd h hfree

/-- The two tilts of the first image are zero, those of the fourth one are free. -/
theorem nullMatrix_valid_fourChannels :
    ∃ entries, fourChannels.init .none Labels.numbers = some entries ∧ fourChannels.Fits entries ∧
      fourChannels.Parametrises entries.get ∧
      (fourChannels.blockifyGroups .none Labels.numbers).unused1.length =
        (fourChannels.blockifyGroups .none Labels.numbers).unused2.length :=
  MomfbdJob.nullMatrix_valid fourChannels .none Labels.numbers fourChannels_sortable fourChannels_correct

/-! ## Two images of different wavefronts -/

/-- One channel, of which only the first tilt is fitted. -/
def twoImages : MomfbdJob := ⟨1, [⟨[⟨[0, 1]⟩], List.cons_ne_nil _ _⟩]⟩

theorem twoImages_constraints : twoImages.constraints = [⟨0, [(0, 1), (1, 1)], List.cons_ne_nil _ _⟩] := by
  decide

theorem twoImages_blocks : twoImages.blocks .none = [⟨⟨twoImages.constraints, [0, 1]⟩, 0, 0⟩] := by
  rw [MomfbdJob.blocks, MomfbdJob.groups, twoImages_constraints, connectedGroups,
    Group.addConnectedConstraints_new, Group.addConnected, connectedGroups]
  rfl

theorem twoImages_labels : ∀ b ∈ twoImages.blocks .none, b.labels = oppositePair := by
  intro b hb
  rw [twoImages_blocks] at hb
  rw [List.mem_singleton.1 hb, twoImages_constraints]
  decide

theorem oppositePair_solves (v : ℕ → ℚ) : oppositePair.Solves v ↔ v 0 + v 1 = 0 := by
  have hrow : ∀ i < 1, (∑ j ∈ Finset.range 2, (oppositePair.C i j : ℚ) * v j) = v 0 + v 1 := by
    intro i hi
    obtain rfl : i = 0 := by omega
    rw [Finset.sum_range_succ, Finset.sum_range_one, show oppositePair.C 0 0 = 1 by decide,
      show oppositePair.C 0 1 = 1 by decide, Int.cast_one, one_mul, one_mul]
  exact ⟨fun hv => (hrow 0 Nat.one_pos).symm.trans (hv 0 Nat.one_pos), fun hv i hi => (hrow i hi).trans hv⟩

theorem oppositePair_correct {keep : ℚ → Bool} {t : ℚ} (ht : t ≠ 0) (h : keep t = true) (h' : keep (-t) = true) :
    oppositePair.Correct keep [t, -t] := by
  intro _
  have hfirst : oppositePair.mapped keep [t, -t] 0 0 = t := if_pos h
  have hsecond : oppositePair.mapped keep [t, -t] 1 0 = -t := if_pos h'
  refine ⟨rfl, fun k hk => ?_, ?_, fun v hv => ?_⟩
  · obtain rfl : k = 0 := by
      have hlt : k < 1 := hk
      omega
    rw [oppositePair_solves, hfirst, hsecond, add_neg_cancel]
  · show LinearIndependent ℚ fun (k : Fin 1) (j : Fin 2) => oppositePair.mapped keep [t, -t] j k
    refine LinearIndependent.of_subsingleton 0 fun hzero => ht ?_
    exact hfirst.symm.trans (congrFun hzero 0)
  · rw [oppositePair_solves] at hv
    refine ⟨fun _ => v 0 / t, fun j hj => ?_⟩
    have hlt : j < 2 := hj
    show v j = ∑ k : Fin 1, v 0 / t * oppositePair.mapped keep [t, -t] j k
    rw [Fin.sum_univ_one]
    interval_cases j
    · rw [show ((0 : Fin 1) : ℕ) = 0 from rfl, hfirst, div_mul_cancel₀ _ ht]
    · rw [show ((0 : Fin 1) : ℕ) = 0 from rfl, hsecond, mul_neg, div_mul_cancel₀ _ ht]
      linarith

/-- A basis all of whose numbers are dropped: no parameter is left for the column. -/
theorem small_basis_dropped : ¬ ∀ (job : MomfbdJob) (order : RowSort) (ns : Labels → List ℚ),
    (∀ b ∈ job.blocks order, b.labels.Correct (fun _ => true) (ns b.labels)) →
      ∃ entries, job.init order ns = some entries ∧ job.Fits entries ∧ job.Parametrises entries.get ∧
        (job.blockifyGroups order ns).unused1.length = (job.blockifyGroups order ns).unused2.length := by
  intro h
  obtain ⟨t, hne, hpos, hneg⟩ : ∃ t : ℚ, t ≠ 0 ∧ significant t = false ∧ significant (-t) = false := by
    refine ⟨1 / 10 ^ 11, ?_⟩
    norm_num [significant]
  have hnone : ∀ b ∈ twoImages.blocks .none, b.mapNullspace (fun _ => [t, -t]) = [] := by
    intro b hb
    rw [Block.mapNullspace, twoImages_labels b hb, if_pos (by decide), NullSpace.mappedEntries]
    simp [hpos, hneg]
  obtain ⟨-, -, -, -, hlen⟩ := h twoImages .none (fun _ => [t, -t]) fun b hb => by
    rw [twoImages_labels b hb]
    exact oppositePair_correct hne rfl rfl
  have hblocks := twoImages_blocks
  rw [hblocks] at hnone
  rw [MomfbdJob.blocks] at hblocks
  rw [MomfbdJob.blockifyGroups, MomfbdJob.assemble, hblocks, List.foldl_cons, List.foldl_nil, Assembly.addBlock,
    hnone _ List.mem_cons_self, List.foldl_nil] at hlen
  exact absurd hlen (by decide)

end Redux.Momfbd.Constraints
