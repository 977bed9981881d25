import Redux.Momfbd.NullMatrixValid
import Redux.Momfbd.TiltBasis

/-!
# Momfbd.TiltGroups — the groups of a job whose calculated nullspace is one

A group without a sum has one free parameter, and the constant is its nullspace.  The sum of the tilts of the first
channel has a free parameter for each wavefront of that channel but one.  With two wavefronts the nullspace is the
constant, which does not have the sum zero; with more, and two images of one wavefront, there are more base vectors
than columns.  Otherwise the columns of the sum come first (`idxOf_lt_iff`), and the nullspace is right.
-/

namespace Redux.Momfbd.Constraints

open Redux.Lib

/-! ## The elements of a row -/

section Elements

variable {g : Group} {con : Constraint} {y : ℤ} {k : ℕ}

theorem Group.map_getD_columns (g : Group) :
    (List.range g.columns.length).map (fun j => g.columns.getD j 0) = g.columns := by
  refine List.ext_getElem (by simp) fun j hj hj' => ?_
  rw [List.getElem_map, List.getElem_range, List.getD_eq_getElem?_getD, List.getElem?_eq_getElem hj', Option.getD_some]

/-- **The elements of a row are the parameters of its constraint.** -/
theorem Group.elementCount_eq (h : g.Dense) (hk : g.constraints[k]? = some con) (hne : ∀ e ∈ con.entries, e.2 ≠ 0) :
    (g.labels y).elementCount k = con.parameters.length := by
  have hcon := List.mem_of_getElem? hk
  have hlen := Group.length_columns h.indices
  have hentry : ∀ p, con.entries.entry p ≠ 0 ↔ p ∈ con.parameters := by
    intro p
    by_cases hp : p ∈ con.parameters
    · obtain ⟨e, he, rfl⟩ := List.mem_map.1 hp
      rw [Entries.entry_of_mem (h.parameters con hcon) he]
      exact iff_of_true (hne e he) hp
    · rw [Entries.entry_of_not_mem hp]
      exact iff_of_false (not_not.2 rfl) hp
  have hcount : (g.labels y).elementCount k =
      (List.range g.columns.length).countP fun j => g.columns.getD j 0 ∈ con.parameters := by
    rw [hlen]
    refine List.countP_congr fun j hj => ?_
    rw [decide_eq_true_iff, decide_eq_true_iff, Group.C_eq h hk (List.mem_range.1 hj)]
    exact hentry _
  have hmap := List.countP_map (p := fun p => decide (p ∈ con.parameters)) (f := fun j => g.columns.getD j 0)
    (l := List.range g.columns.length)
  rw [g.map_getD_columns, countP_mem (h.parameters con hcon) (h.sub hcon) (Group.columns_nodup h.indices)] at hmap
  exact hcount.trans hmap.symm

end Elements

/-! ## The rows of a group with a sum -/

section Sum

variable {job : MomfbdJob} {g : Group} {con d : Constraint} {m r i j k : ℕ} {p y : ℤ}

namespace MomfbdJob

theorem entries_ne_zero (hcon : con ∈ job.constraints) : ∀ e ∈ con.entries, e.2 ≠ 0 := by
  rw [entries_eq hcon]
  cases job.kindOf con with
  | sum m =>
    rw [entriesOf]
    rintro _ he
    obtain ⟨i, -, rfl⟩ := List.mem_map.1 he
    exact one_ne_zero
  | pair m i => simp [entriesOf]

theorem length_parameters (hcon : con ∈ job.constraints) : con.parameters.length =
    match job.kindOf con with
    | .sum _ => job.nSummed
    | .pair _ _ => 2 := by
  rw [Constraint.parameters, entries_eq hcon]
  cases job.kindOf con with
  | sum m => simp [entriesOf]
  | pair m i => rfl

/-- The other constraints of the group are about wavefronts. -/
theorem other_pair (hg : g.Of job.constraints) (hr : g.constraints[r]? = some con) (hsum : job.kindOf con = .sum m)
    (hk : g.constraints[k]? = some d) (hne : k ≠ r) : ∃ i, job.kindOf d = .pair m i ∧ job.first i < job.nSummed := by
  have hcon := List.mem_of_getElem? hr
  have hd := List.mem_of_getElem? hk
  refine (sum_group hg hcon hsum d hd).resolve_left fun hkind => hne ?_
  have heq : d = con := eq_of_own (hg.component.subset hd) (hg.component.subset hcon) (by rw [hkind, hsum])
  exact (List.getElem?_inj (List.getElem?_eq_some_iff.1 hk).1 hg.nodup).1 (hk.trans (heq ▸ hr.symm))

/-- **The sum is the longest row**, if it has three elements. -/
theorem longestRow_sum (hg : g.Of job.constraints) (hdense : g.Dense) (hr : g.constraints[r]? = some con)
    (hsum : job.kindOf con = .sum m) (hn : 3 ≤ job.nSummed) : (g.labels y).longestRow = (r, job.nSummed) := by
  have hcount : ∀ {k d}, g.constraints[k]? = some d → (g.labels y).elementCount k = d.parameters.length :=
    fun hk => Group.elementCount_eq hdense hk (entries_ne_zero (hg.component.subset (List.mem_of_getElem? hk)))
  have hlen : ∀ {k d}, g.constraints[k]? = some d → d ∈ job.constraints := fun hk =>
    hg.component.subset (List.mem_of_getElem? hk)
  refine Labels.longestRow_eq (List.getElem?_eq_some_iff.1 hr).1 (by omega) ?_ fun k hk hne => ?_
  · rw [hcount hr, length_parameters (hlen hr), hsum]
  · have hget := List.getElem?_eq_getElem (show k < g.constraints.length from hk)
    obtain ⟨i, hkind, -⟩ := other_pair hg hr hsum hget hne
    rw [hcount hget, length_parameters (hlen hget), hkind]
    exact hn

/-! ## Its free parameters -/

/-- The images of the first channel have different wavefronts exactly if each is the first one with its own. -/
theorem nodup_take_iff (job : MomfbdJob) :
    (job.waveFronts.take job.nFirst).Nodup ↔ ∀ j < job.nFirst, job.first j = j := by
  have hle := job.nFirst_le
  have hlen : (job.waveFronts.take job.nFirst).length = job.nFirst := by
    rw [List.length_take, length_waveFronts, Nat.min_eq_left hle]
  have hget : ∀ i (hi : i < (job.waveFronts.take job.nFirst).length),
      (job.waveFronts.take job.nFirst)[i] = job.waveFronts.getD i 0 := by
    intro i hi
    have hi' : i < job.waveFronts.length := by
      rw [length_waveFronts]
      omega
    rw [List.getElem_take, List.getD_eq_getElem?_getD, List.getElem?_eq_getElem hi', Option.getD_some]
  rw [List.nodup_iff_pairwise_ne, List.pairwise_iff_getElem]
  constructor
  · intro h j hj
    have hfirst := first_le (hj.trans_le hle)
    by_contra hne
    refine h (job.first j) j (by omega) (by omega) (by omega) ?_
    rw [hget, hget, ← first_eq_iff (first_lt (hj.trans_le hle)), first_first (hj.trans_le hle)]
  · intro h i j hi hj hij heq
    rw [hget, hget, ← first_eq_iff (by omega), h i (by omega), h j (by omega)] at heq
    exact hij.ne heq

theorem free_nodup (hdense : g.Dense) : (job.free g).Nodup := hdense.indices.filter _

/-- The parameters of the first channel. -/
def summed (job : MomfbdJob) (m : ℕ) : List ℤ := (List.range job.nSummed).map (job.param m)

theorem mem_summed : p ∈ job.summed m ↔ ∃ j < job.nSummed, p = job.param m j := by
  simp only [summed, List.mem_map, List.mem_range, eq_comm]

theorem summed_nodup (hmode : m < job.nModes) : (job.summed m).Nodup :=
  List.nodup_range.map_on fun _ _ _ _ heq => (job.param_injective hmode hmode heq).2

/-- **A free parameter for each wavefront but one**: fewer than images, unless these are all different. -/
theorem length_free_sum (hg : g.Of job.constraints) (hdense : g.Dense) (hcon : con ∈ g.constraints)
    (hsum : job.kindOf con = .sum m) : (job.free g).length + 1 ≤ job.nSummed ∧
      ((job.free g).length + 1 = job.nSummed ↔ ∀ j < job.nSummed, job.first j = j) := by
  obtain ⟨himages, -, hmode⟩ := of_kind_sum (hg.component.subset hcon) hsum
  have hlen : (job.summed m).length = job.nSummed := by rw [summed, List.length_map, List.length_range]
  have hzero : job.param m 0 ∉ job.free g := by
    intro hmem
    obtain ⟨j, -, hne, -, heq⟩ := (mem_free_sum hg hcon hsum).1 hmem
    exact hne (job.param_injective hmode hmode heq).2.symm
  have hnodup : (job.param m 0 :: job.free g).Nodup := List.nodup_cons.2 ⟨hzero, free_nodup hdense⟩
  have hsub : job.param m 0 :: job.free g ⊆ job.summed m := by
    refine List.cons_subset.2 ⟨mem_summed.2 ⟨0, job.nSummed_pos, rfl⟩, fun p hp => ?_⟩
    obtain ⟨j, hj, -, -, heq⟩ := (mem_free_sum hg hcon hsum).1 hp
    exact mem_summed.2 ⟨j, hj, heq⟩
  have hsubperm := List.subperm_of_subset hnodup hsub
  have hle := hsubperm.length_le
  rw [hlen, List.length_cons] at hle
  refine ⟨hle, fun heq j hj => ?_, fun hall => ?_⟩
  · have hperm := hsubperm.perm_of_length_le (by rw [hlen, List.length_cons, heq])
    rcases List.mem_cons.1 (hperm.mem_iff.2 (mem_summed.2 ⟨j, hj, rfl⟩)) with h0 | hfree
    · rw [(job.param_injective hmode hmode h0).2, first_zero himages]
    · obtain ⟨i, -, -, hfirst, hij⟩ := (mem_free_sum hg hcon hsum).1 hfree
      rw [(job.param_injective hmode hmode hij).2, hfirst]
  · have hback : job.summed m ⊆ job.param m 0 :: job.free g := by
      intro p hp
      obtain ⟨j, hj, rfl⟩ := mem_summed.1 hp
      rcases eq_or_ne j 0 with rfl | hne
      · exact List.mem_cons_self
      · exact List.mem_cons_of_mem _ ((mem_free_sum hg hcon hsum).2 ⟨j, hj, hne, hall j hj, rfl⟩)
    have hge := (List.subperm_of_subset (summed_nodup hmode) hback).length_le
    rw [hlen, List.length_cons] at hge
    omega

/-! ## The order of its columns -/

theorem mem_parameters_summed (hcon : con ∈ job.constraints) (hsum : job.kindOf con = .sum m) :
    p ∈ con.parameters ↔ p ∈ job.summed m := (mem_parameters_sum hcon hsum).trans mem_summed.symm

theorem has_iff : con.has p = true ↔ p ∈ con.parameters := by
  simp [Constraint.has, Constraint.parameters]

/-- A parameter that is not in the sum is in one constraint. -/
theorem count_le_one (hg : g.Of job.constraints) (hcon : con ∈ g.constraints) (hsum : job.kindOf con = .sum m)
    (hp : p ∉ job.summed m) : g.count p ≤ 1 := by
  have hown : ∀ d ∈ g.constraints, d.has p = true → job.own (job.kindOf d) = p := by
    intro d hd hhas
    have hpar := has_iff.1 hhas
    have hdcons := hg.component.subset hd
    rcases sum_group hg hcon hsum d hd with hkind | ⟨i, hkind, hfirst⟩
    · exact absurd ((mem_parameters_summed hdcons hkind).1 hpar) hp
    · rcases (mem_parameters_pair hdcons hkind).1 hpar with rfl | rfl
      · exact absurd (mem_summed.2 ⟨_, hfirst, rfl⟩) hp
      · rw [hkind]
        rfl
  have hnodup : ((g.constraints.filter fun d => d.has p).map fun d => job.own (job.kindOf d)).Nodup :=
    (own_map_nodup hg).sublist (List.filter_sublist.map _)
  have hsub : ((g.constraints.filter fun d => d.has p).map fun d => job.own (job.kindOf d)) ⊆ [p] := by
    intro q hq
    obtain ⟨d, hd, rfl⟩ := List.mem_map.1 hq
    obtain ⟨hd, hhas⟩ := List.mem_filter.1 hd
    exact List.mem_singleton.2 (hown d hd hhas)
  have hle := (List.subperm_of_subset hnodup hsub).length_le
  rwa [List.length_map, ← List.countP_eq_length_filter] at hle

/-- **The columns of the sum come first**: others are in one constraint, and have a higher number. -/
theorem columns_front (hg : g.Of job.constraints) (hdense : g.Dense) (hcon : con ∈ g.constraints)
    (hsum : job.kindOf con = .sum m) :
    g.columns.Pairwise fun p q => q ∈ job.summed m → p ∈ job.summed m := by
  have hcons := hg.component.subset hcon
  obtain ⟨-, -, hmode⟩ := of_kind_sum hcons hsum
  refine (Group.columns_pairwise hdense.indices).imp_of_mem fun {p q} hp _ hpq hq => ?_
  by_contra hnot
  have hone := count_le_one hg hcon hsum hnot
  have hpos : 1 ≤ g.count q :=
    List.countP_pos_iff.2 ⟨con, hcon, has_iff.2 ((mem_parameters_summed hcons hsum).2 hq)⟩
  obtain ⟨i, hi, rfl⟩ := mem_summed.1 hq
  obtain ⟨j, -, rfl, -⟩ := sum_indices hg hcon hsum ((Group.mem_columns hdense.indices).1 hp)
  have hge : job.nSummed ≤ j := not_lt.1 fun hj => hnot (mem_summed.2 ⟨j, hj, rfl⟩)
  have hlt : job.param m i < job.param m j := by
    have hij : (i : ℤ) < j := by omega
    have hmodes : (0 : ℤ) < job.nModes := by omega
    exact Int.add_lt_add_right (Int.mul_lt_mul_of_pos_right hij hmodes) _
  unfold myComp at hpq
  split_ifs at hpq <;> simp only [decide_eq_true_iff] at hpq <;> omega

/-- **The place of a column tells if it is in the sum.** -/
theorem idxOf_lt_iff (hg : g.Of job.constraints) (hdense : g.Dense) (hcon : con ∈ g.constraints)
    (hsum : job.kindOf con = .sum m) (hp : p ∈ g.indices) :
    g.columns.idxOf p < job.nSummed ↔ p ∈ job.summed m := by
  have hcons := hg.component.subset hcon
  obtain ⟨-, -, hmode⟩ := of_kind_sum hcons hsum
  have hmem := (Group.mem_columns hdense.indices).2 hp
  have hsub : job.summed m ⊆ g.columns := fun q hq =>
    hdense.sub hcon ((mem_parameters_summed hcons hsum).2 hq)
  have h := getElem_iff_lt_countP (columns_front hg hdense hcon hsum) _ (List.idxOf_lt_length_of_mem hmem)
  rw [countP_mem (summed_nodup hmode) hsub (Group.columns_nodup hdense.indices), List.getElem_idxOf] at h
  rw [h, summed, List.length_map, List.length_range]

/-! ## Its matrix -/

theorem entry_sum (hcon : con ∈ job.constraints) (hsum : job.kindOf con = .sum m) :
    con.entries.entry p = if p ∈ job.summed m then 1 else 0 := by
  split_ifs with hp
  · obtain ⟨j, hj, rfl⟩ := mem_summed.1 hp
    refine Entries.entry_of_mem (parameters_nodup hcon) ?_
    rw [entries_eq hcon, hsum, entriesOf]
    exact List.mem_map_of_mem (List.mem_range.2 hj)
  · exact Entries.entry_of_not_mem fun hpar => hp ((mem_parameters_summed hcon hsum).1 hpar)

theorem entry_pair (hcon : con ∈ job.constraints) (hpair : job.kindOf con = .pair m i) :
    con.entries.entry p = if p = job.param m (job.first i) then 1 else if p = job.param m i then -1 else 0 := by
  rw [entries_eq hcon, hpair, entriesOf, Entries.entry]
  by_cases h : p = job.param m (job.first i)
  · simp [h]
  · by_cases h' : p = job.param m i
    · simp [h', (h'.symm ▸ h : ¬ job.param m i = job.param m (job.first i)), Ne.symm (h' ▸ h)]
    · simp [h, h', Ne.symm h, Ne.symm h']

/-- The row of a constraint on the wavefront of an image, which is not in the sum. -/
theorem other_row (hg : g.Of job.constraints) (hdense : g.Dense) (hr : g.constraints[r]? = some con)
    (hsum : job.kindOf con = .sum m) (hall : ∀ j < job.nSummed, job.first j = j) (hk : k < g.constraints.length)
    (hne : k ≠ r) : ∃ d i, g.constraints[k]? = some d ∧ g.constraints.getD k con = d ∧ job.kindOf d = .pair m i ∧
      job.first i < job.nSummed ∧ job.param m i ∈ g.indices ∧ job.param m i ∉ job.summed m := by
  have hget := List.getElem?_eq_getElem hk
  have hd := List.getElem_mem hk
  obtain ⟨i, hkind, hfirst⟩ := other_pair hg hr hsum hget hne
  obtain ⟨hmode, -, hlater⟩ := of_kind_pair (hg.component.subset hd) hkind
  refine ⟨_, i, hget, ?_, hkind, hfirst, ?_, fun hmem => ?_⟩
  · rw [List.getD_eq_getElem?_getD, hget, Option.getD_some]
  · exact hdense.subset _ hd ((mem_parameters_pair (hg.component.subset hd) hkind).2 (.inr rfl))
  · obtain ⟨j, hj, heq⟩ := mem_summed.1 hmem
    obtain rfl := (job.param_injective hmode hmode heq).2
    exact hlater.ne (hall i hj)

/-- **The matrix of a tilt**, where each image of the first channel has a wavefront of its own. -/
theorem tilts (hg : g.Of job.constraints) (hdense : g.Dense) (hr : g.constraints[r]? = some con)
    (hsum : job.kindOf con = .sum m) (hall : ∀ j < job.nSummed, job.first j = j) :
    (g.labels y).Tilts r job.nSummed
      (fun k => g.columns.idxOf (job.own (job.kindOf (g.constraints.getD k con))))
      fun q => g.columns.idxOf (job.param m (job.first (g.columns.getD q 0 / job.nModes).toNat)) := by
  have hcon := List.mem_of_getElem? hr
  have hcons := hg.component.subset hcon
  obtain ⟨himages, -, hmode⟩ := of_kind_sum hcons hsum
  have hsummed : ∀ {j}, j < job.nSummed → job.param m j ∈ g.indices := fun hj =>
    hdense.subset con hcon ((mem_parameters_sum hcons hsum).2 ⟨_, hj, rfl⟩)
  have hlt : ∀ {p}, p ∈ g.indices → (g.columns.idxOf p < job.nSummed ↔ p ∈ job.summed m) := fun hp =>
    idxOf_lt_iff hg hdense hcon hsum hp
  constructor
  case row_lt => exact (List.getElem?_eq_some_iff.1 hr).1
  case le =>
    have hle := (List.subperm_of_subset (summed_nodup hmode) fun p hp => by
      obtain ⟨j, hj, rfl⟩ := mem_summed.1 hp
      exact hsummed hj).length_le
    rwa [summed, List.length_map, List.length_range] at hle
  case sum =>
    intro j hj
    rw [Group.C_eq hdense hr hj, entry_sum hcons hsum]
    refine if_congr ?_ rfl rfl
    have hmem := Group.getD_mem hdense.indices hj
    rw [← hlt hmem, ← (Group.getD_eq_iff hdense.indices hj hmem).1 rfl]
  case other_mem =>
    intro k hk hne
    obtain ⟨d, i, -, hget, hkind, -, hmem, hnot⟩ := other_row hg hdense hr hsum hall hk hne
    rw [hget, hkind]
    exact ⟨not_lt.1 fun h => hnot ((hlt hmem).1 h), Group.idxOf_lt hdense.indices hmem⟩
  case pair =>
    intro k hk hne j hj
    obtain ⟨d, i, hdk, hget, hkind, hfirst, hmem, -⟩ := other_row hg hdense hr hsum hall hk hne
    have hrep : g.columns.getD (g.columns.idxOf (job.param m i)) 0 = job.param m i :=
      (Group.getD_eq_iff hdense.indices (Group.idxOf_lt hdense.indices hmem) hmem).2 rfl
    rw [Group.C_eq hdense hdk hj, entry_pair (hg.component.subset (List.mem_of_getElem? hdk)) hkind, hget, hkind,
      own, hrep, param_toNat hmode]
    exact if_congr (Group.getD_eq_iff hdense.indices hj (hsummed hfirst)) rfl
      (if_congr (Group.getD_eq_iff hdense.indices hj hmem) rfl rfl)
  case rep_lt =>
    intro q _ hq
    obtain ⟨j, -, heq, hfirst⟩ := sum_indices hg hcon hsum (Group.getD_mem hdense.indices hq)
    rw [heq, param_toNat hmode]
    exact (hlt (hsummed hfirst)).2 (mem_summed.2 ⟨_, hfirst, rfl⟩)
  case onto =>
    intro q hge hq
    have hmem := Group.getD_mem hdense.indices hq
    have hplace := (Group.getD_eq_iff hdense.indices hq hmem).1 rfl
    obtain ⟨j, hj, heq, hfirst⟩ := sum_indices hg hcon hsum hmem
    have hlater : job.first j < j := by
      refine lt_of_le_of_ne (first_le hj) fun h => ?_
      have hin := (hlt hmem).2 (heq ▸ mem_summed.2 ⟨j, h ▸ hfirst, rfl⟩)
      omega
    obtain ⟨d, hd, hkind⟩ := exists_pair hg hcon hsum hj hlater hfirst
    obtain ⟨k, hk⟩ := List.getElem?_of_mem hd
    refine ⟨k, (List.getElem?_eq_some_iff.1 hk).1, ?_, ?_⟩
    · rintro rfl
      obtain rfl := Option.some.inj (hr.symm.trans hk)
      exact Kind.noConfusion (hsum.symm.trans hkind)
    · rw [List.getD_eq_getElem?_getD, hk, Option.getD_some, hkind, hplace, heq]
      rfl

/-! ## The nullspaces of a job -/

/-- Among the constraints of a group is the sum of a tilt. -/
def Tilted (job : MomfbdJob) (g : Group) : Prop := ∃ con ∈ g.constraints, ∃ m, job.kindOf con = .sum m

/-- Without a sum all parameters but one are tied to this one. -/
theorem length_free_plain (hg : g.Of job.constraints) (hdense : g.Dense) (hplain : ¬ job.Tilted g) :
    (job.free g).length ≤ 1 := by
  obtain ⟨m, f, hkinds⟩ := plain_group hg fun d hd m hkind => hplain ⟨d, hd, m, hkind⟩
  have hsub : job.free g ⊆ [job.param m f] := by
    intro p hp
    obtain ⟨hmem, hfree⟩ := mem_free.1 hp
    obtain ⟨d, hd, hpar⟩ := (hg.indexed p).1 hmem
    obtain ⟨i, hkind, hfirst⟩ := hkinds d hd
    rcases (mem_parameters_pair (hg.component.subset hd) hkind).1 hpar with rfl | rfl
    · exact List.mem_singleton.2 (hfirst ▸ rfl)
    · exact absurd (by rw [hkind]; rfl) (hfree d hd)
  exact (List.subperm_of_subset (free_nodup hdense) hsub).length_le

theorem solves_one_plain (hg : g.Of job.constraints) (hdense : g.Dense) (hplain : ¬ job.Tilted g) :
    (g.labels y).Solves fun _ => 1 := by
  obtain ⟨m, f, hkinds⟩ := plain_group hg fun d hd m hkind => hplain ⟨d, hd, m, hkind⟩
  refine (Group.solves_iff hdense _).2 fun d hd => ?_
  obtain ⟨i, hkind, -⟩ := hkinds d hd
  rw [dot_pair (hg.component.subset hd) hkind, sub_self]

theorem not_solves_one_sum (hg : g.Of job.constraints) (hdense : g.Dense) (hcon : con ∈ g.constraints)
    (hsum : job.kindOf con = .sum m) : ¬ (g.labels y).Solves fun _ => 1 := by
  intro hsolves
  have hdot := (Group.solves_iff hdense _).1 hsolves con hcon
  rw [dot_sum (hg.component.subset hcon) hsum, List.map_const', List.sum_replicate, List.length_range,
    nsmul_eq_mul, mul_one] at hdot
  exact job.nSummed_pos.ne' (Nat.cast_eq_zero.1 hdot)

/-- **When the nullspace of a group is one**: without the sum of a tilt, or if the first channel has three images
and all have different wavefronts.  It is about this group; `init` sorts the rows of the other ones too. -/
theorem nullSpace_valid_iff (job : MomfbdJob) (order : RowSort) (b : Block) (hb : b ∈ job.blocks order)
    (hfree : 1 ≤ b.labels.nFree) : b.labels.NullSpaceValid ↔
      (job.Tilted b.group → 3 ≤ job.nFirst ∧ (job.waveFronts.take job.nFirst).Nodup) := by
  have hg := group_of (group_mem hb)
  have hdense := dense (group_mem hb)
  have hnFree : b.labels.nFree = (job.free b.group).length := by
    show (b.group.indices.length : ℤ) - b.group.constraints.length = _
    rw [length_indices hg hdense.indices]
    omega
  have hpos : 0 < b.labels.nParameters := by
    have hle : (0 : ℤ) ≤ b.labels.nConstraints := Int.natCast_nonneg _
    unfold Labels.nFree at hfree
    omega
  by_cases htilted : job.Tilted b.group
  · rw [forall_prop_of_true htilted]
    obtain ⟨con, hcon, m, hsum⟩ := htilted
    obtain ⟨r, hr⟩ := List.getElem?_of_mem hcon
    obtain ⟨hle, hall⟩ := length_free_sum hg hdense hcon hsum
    have hfirst : job.nSummed = job.nFirst := by
      have hmax : job.nSummed = max 1 job.nFirst := rfl
      omega
    rw [nodup_take_iff, ← hfirst, ← hall]
    by_cases hone : b.labels.nFree = 1
    · rw [Labels.valid_iff_of_one hpos hone]
      exact iff_of_false (not_solves_one_sum hg hdense hcon hsum) (by omega)
    have hlongest : b.labels.longestRow = (r, job.nSummed) := longestRow_sum hg hdense hr hsum (by omega)
    by_cases heq : (job.free b.group).length + 1 = job.nSummed
    · have htilts : b.labels.Tilts r job.nSummed _ _ := tilts hg hdense hr hsum (hall.1 heq)
      exact iff_of_true (htilts.valid hlongest (by omega) (by omega)) ⟨by omega, heq⟩
    · have hmany : b.labels.nFree < (b.labels.longestRow.2 : ℤ) - 1 := by
        rw [hlongest]
        omega
      have htwo : 2 ≤ b.labels.nFree := by omega
      exact iff_of_false (Labels.not_valid_of_lt htwo hmany) fun h => heq h.2
  · have hone := length_free_plain hg hdense htilted
    rw [Labels.valid_iff_of_one hpos (by omega)]
    exact iff_of_true (solves_one_plain hg hdense htilted) fun h => absurd h htilted

end MomfbdJob

end Sum

/-! ## Three images -/

/-- One channel, of which only the first tilt is fitted. -/
def threeImages : MomfbdJob := ⟨1, [⟨[⟨[0, 1, 2]⟩], List.cons_ne_nil _ _⟩]⟩

def threeImagesBlock : Block := ⟨⟨threeImages.constraints, [0, 1, 2]⟩, 0, 0⟩

theorem threeImages_constraints :
    threeImages.constraints = [⟨0, [(0, 1), (1, 1), (2, 1)], List.cons_ne_nil _ _⟩] := by
  decide

theorem threeImages_blocks : threeImages.blocks .none = [threeImagesBlock] := by
  rw [threeImagesBlock, MomfbdJob.blocks, MomfbdJob.groups, threeImages_constraints, connectedGroups,
    Group.addConnectedConstraints_new, Group.addConnected, connectedGroups]
  rfl

theorem threeImages_valid : threeImagesBlock.labels.NullSpaceValid :=
  (MomfbdJob.nullSpace_valid_iff threeImages .none threeImagesBlock
    (by rw [threeImages_blocks]; exact List.mem_singleton_self _)
    (by rw [threeImagesBlock, threeImages_constraints]; decide)).2 fun _ => by decide

/-- The tilts of two images get the same coefficients, which do not have the sum zero. -/
theorem twoImages_not_valid : ¬ ∀ (job : MomfbdJob) (order : RowSort), ∀ b ∈ job.blocks order,
    1 ≤ b.labels.nFree → b.labels.NullSpaceValid := by
  intro h
  have hb : ⟨⟨twoImages.constraints, [0, 1]⟩, 0, 0⟩ ∈ twoImages.blocks .none := by
    rw [twoImages_blocks]
    exact List.mem_singleton_self _
  have hvalid := h twoImages .none _ hb (by rw [twoImages_labels _ hb]; decide)
  rw [twoImages_labels _ hb, Labels.valid_iff_of_one (by decide) (by decide), oppositePair_solves] at hvalid
  norm_num at hvalid

end Redux.Momfbd.Constraints
