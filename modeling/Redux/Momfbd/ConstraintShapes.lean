import Mathlib.Algebra.BigOperators.Group.List.Basic
import Mathlib.Algebra.Order.Field.Rat
import Mathlib.Tactic.Ring
import Redux.Lib.Tally
import Redux.Momfbd.ConstraintRows

/-!
# Momfbd.ConstraintShapes — what the groups of constraints look like

A group without a sum is about one wavefront in one mode: all its coefficients are the same.  A group with a
sum is about one tilt and the wavefronts of the first channel (`sum_group`).  The parameters that no
constraint of the group has for itself are as many as the group has parameters more than constraints.
-/

namespace Redux.Momfbd.Constraints

open Redux.Lib Redux.Lib.Components

/-- The left side of a constraint. -/
def Constraint.dot (con : Constraint) (v : ℤ → ℚ) : ℚ := (con.entries.map fun entry => (entry.2 : ℚ) * v entry.1).sum

section Shapes

variable {job : MomfbdJob} {g : Group} {con : Constraint} {m i j : ℕ} {p : ℤ}

namespace MomfbdJob

/-! ## Wavefronts -/

theorem mem_waveFronts (hi : i < job.nImages) : job.waveFronts.getD i 0 ∈ job.waveFronts := by
  rw [← job.length_waveFronts] at hi
  rw [List.getD_eq_getElem?_getD, List.getElem?_eq_getElem hi]
  exact List.getElem_mem hi

theorem first_lt (hi : i < job.nImages) : job.first i < job.nImages := by
  rw [← job.length_waveFronts]
  exact List.idxOf_lt_length_of_mem (mem_waveFronts hi)

theorem first_le (hi : i < job.nImages) : job.first i ≤ i := by
  by_contra hlt
  rw [← job.length_waveFronts] at hi
  have hget : job.waveFronts.getD i 0 = job.waveFronts[i] := by
    rw [List.getD_eq_getElem?_getD, List.getElem?_eq_getElem hi, Option.getD_some]
  have hne := List.not_of_lt_findIdx (not_le.1 hlt)
  exact beq_eq_false_iff_ne.1 hne hget.symm

/-- Two images have the same wavefront exactly if they have the same first image. -/
theorem first_eq_iff (hi : i < job.nImages) :
    job.first i = job.first j ↔ job.waveFronts.getD i 0 = job.waveFronts.getD j 0 :=
  List.idxOf_inj (mem_waveFronts hi)

theorem first_first (hi : i < job.nImages) : job.first (job.first i) = job.first i := by
  rw [first_eq_iff (first_lt hi)]
  conv_lhs => rw [List.getD_eq_getElem?_getD, first, List.getElem?_idxOf (mem_waveFronts hi)]
  rfl

theorem first_zero (h : job.nImages ≠ 0) : job.first 0 = 0 :=
  Nat.le_zero.1 (first_le (Nat.pos_of_ne_zero h))

/-! ## The parameters of a constraint -/

theorem mem_parameters_sum (hcon : con ∈ job.constraints) (hkind : job.kindOf con = .sum m) :
    p ∈ con.parameters ↔ ∃ i < job.nSummed, p = job.param m i := by
  rw [Constraint.parameters, entries_eq hcon, hkind, entriesOf, List.map_map]
  simp only [List.mem_map, List.mem_range, Function.comp_apply, eq_comm]

theorem mem_parameters_pair (hcon : con ∈ job.constraints) (hkind : job.kindOf con = .pair m i) :
    p ∈ con.parameters ↔ p = job.param m (job.first i) ∨ p = job.param m i := by
  rw [Constraint.parameters, entries_eq hcon, hkind, entriesOf]
  simp only [List.map_cons, List.map_nil, List.mem_cons, List.not_mem_nil, or_false]

theorem own_mem (hcon : con ∈ job.constraints) : job.own (job.kindOf con) ∈ con.parameters := by
  cases hkind : job.kindOf con with
  | sum m => exact (mem_parameters_sum hcon hkind).2 ⟨0, job.nSummed_pos, rfl⟩
  | pair m i => exact (mem_parameters_pair hcon hkind).2 (.inr rfl)

theorem of_kind_sum (hcon : con ∈ job.constraints) (hkind : job.kindOf con = .sum m) :
    job.nImages ≠ 0 ∧ m < 2 ∧ m < job.nModes := by
  obtain ⟨himages, ⟨m', heq, htilt, hmode⟩ | ⟨m', i, heq, -⟩⟩ := job.mem_kinds (kindOf_mem hcon)
  · obtain rfl := Kind.sum.inj (hkind.symm.trans heq)
    exact ⟨himages, htilt, hmode⟩
  · exact absurd (hkind.symm.trans heq) Kind.noConfusion

theorem of_kind_pair (hcon : con ∈ job.constraints) (hkind : job.kindOf con = .pair m i) :
    m < job.nModes ∧ i < job.nImages ∧ job.first i < i := by
  obtain ⟨-, ⟨m', heq, -⟩ | ⟨m', i', heq, hrest⟩⟩ := job.mem_kinds (kindOf_mem hcon)
  · exact absurd (hkind.symm.trans heq) Kind.noConfusion
  · obtain ⟨rfl, rfl⟩ := Kind.pair.inj (hkind.symm.trans heq)
    exact hrest

theorem parameters_nodup (hcon : con ∈ job.constraints) : con.parameters.Nodup := by
  rw [Constraint.parameters, entries_eq hcon]
  cases hkind : job.kindOf con with
  | sum m =>
    obtain ⟨-, -, hmode⟩ := of_kind_sum hcon hkind
    rw [entriesOf, List.map_map]
    exact List.nodup_range.map_on fun i _ i' _ heq => (job.param_injective hmode hmode heq).2
  | pair m i =>
    obtain ⟨hmode, -, hlater⟩ := of_kind_pair hcon hkind
    have hne : job.param m (job.first i) ≠ job.param m i := fun heq =>
      hlater.ne (job.param_injective hmode hmode heq).2
    simpa [entriesOf] using hne

/-- The parameters are numbered from zero. -/
theorem parameters_lt (hcon : con ∈ job.constraints) (hp : p ∈ con.parameters) : 0 ≤ p ∧ p < job.nParameters := by
  have hparam : ∀ {m i}, m < job.nModes → i < job.nImages →
      0 ≤ job.param m i ∧ job.param m i < job.nParameters := by
    intro m i hm hi
    have hlt : i * job.nModes + m < job.nImages * job.nModes :=
      Nat.lt_of_lt_of_le (Nat.add_lt_add_left hm _) (by rw [← Nat.succ_mul]; exact Nat.mul_le_mul_right _ hi)
    have hcast : job.param m i = ((i * job.nModes + m : ℕ) : ℤ) := by
      rw [param, Int.natCast_add, Int.natCast_mul]
    rw [hcast, nParameters]
    exact ⟨Int.natCast_nonneg _, Int.ofNat_lt.2 hlt⟩
  cases hkind : job.kindOf con with
  | sum m =>
    obtain ⟨himages, -, hmode⟩ := of_kind_sum hcon hkind
    obtain ⟨i, hi, rfl⟩ := (mem_parameters_sum hcon hkind).1 hp
    exact hparam hmode (hi.trans_le (job.nSummed_le himages))
  | pair m i =>
    obtain ⟨hmode, hi, -⟩ := of_kind_pair hcon hkind
    rcases (mem_parameters_pair hcon hkind).1 hp with rfl | rfl
    · exact hparam hmode (first_lt hi)
    · exact hparam hmode hi

theorem dot_sum (hcon : con ∈ job.constraints) (hkind : job.kindOf con = .sum m) (v : ℤ → ℚ) :
    con.dot v = ((List.range job.nSummed).map fun i => v (job.param m i)).sum := by
  rw [Constraint.dot, entries_eq hcon, hkind, entriesOf, List.map_map]
  refine congrArg List.sum (List.map_congr_left fun i _ => ?_)
  show ((1 : ℤ) : ℚ) * v (job.param m i) = v (job.param m i)
  rw [Int.cast_one, one_mul]

theorem dot_pair (hcon : con ∈ job.constraints) (hkind : job.kindOf con = .pair m i) (v : ℤ → ℚ) :
    con.dot v = v (job.param m (job.first i)) - v (job.param m i) := by
  rw [Constraint.dot, entries_eq hcon, hkind, entriesOf]
  simp [sub_eq_add_neg]

end MomfbdJob

/-! ## The parameters of a group -/

namespace Group

theorem nodup_of_distinct {s : List ℤ} (h : OrderedSet.Distinct (fun a b : ℤ => decide (a < b)) s) : s.Nodup := by
  refine h.imp fun {a b} hne heq => ?_
  subst heq
  simp [OrderedSet.same] at hne

theorem distinct_add {con : Constraint} (h : OrderedSet.Distinct (fun a b : ℤ => decide (a < b)) g.indices) :
    OrderedSet.Distinct (fun a b : ℤ => decide (a < b)) (g.add con).indices := by
  unfold add
  split_ifs
  · exact h
  · show OrderedSet.Distinct _ (con.parameters.foldl _ g.indices)
    generalize con.parameters = js
    generalize g.indices = s at h
    induction js generalizing s with
    | nil => exact h
    | cons j js ih => exact ih _ h.insert

theorem distinct_addConnected {before after : List Constraint}
    (h : OrderedSet.Distinct (fun a b : ℤ => decide (a < b)) g.indices) :
    OrderedSet.Distinct (fun a b : ℤ => decide (a < b)) (g.addConnected before after).1.indices := by
  fun_induction addConnected g before after with
  | case1 g before => exact h
  | case2 g before con after hcon ih => exact ih (distinct_add h)
  | case3 g before con after hcon ih => exact ih h

end Group

/-- **Every group has its parameters once.** -/
theorem indices_nodup {order : RowSort} {cons : List Constraint} :
    ∀ g ∈ connectedGroups order cons, g.indices.Nodup := by
  fun_induction connectedGroups order cons with
  | case1 => exact fun g hg => absurd hg List.not_mem_nil
  | case2 con cons r ih =>
    intro g hg
    rcases List.mem_cons.1 hg with rfl | hg
    · exact Group.nodup_of_distinct (Group.distinct_addConnected (Group.distinct_add List.Pairwise.nil))
    · exact ih g hg

/-- The parameters of a group that none of its constraints has for itself. -/
def MomfbdJob.free (job : MomfbdJob) (g : Group) : List ℤ :=
  g.indices.filter fun p => p ∉ g.constraints.map fun con => job.own (job.kindOf con)

namespace MomfbdJob

theorem own_map_nodup (hg : g.Of job.constraints) : (g.constraints.map fun con => job.own (job.kindOf con)).Nodup :=
  hg.nodup.map_on fun _ hc _ hd heq => eq_of_own (hg.component.subset hc) (hg.component.subset hd) heq

/-- **A group has so many parameters more than constraints.** -/
theorem length_indices (hg : g.Of job.constraints) (hnodup : g.indices.Nodup) :
    g.indices.length = g.constraints.length + (job.free g).length := by
  have hsub : (g.constraints.map fun con => job.own (job.kindOf con)) ⊆ g.indices := by
    intro p hp
    obtain ⟨con, hcon, rfl⟩ := List.mem_map.1 hp
    exact (hg.indexed _).2 ⟨con, hcon, own_mem (hg.component.subset hcon)⟩
  rw [free, ← List.length_map fun con => job.own (job.kindOf con)]
  exact length_eq_add_filter (own_map_nodup hg) hsub hnodup

/-- **A group with a sum**: its other constraints are about wavefronts of the images that are summed. -/
theorem sum_group (hg : g.Of job.constraints) (hcon : con ∈ g.constraints) (hsum : job.kindOf con = .sum m) :
    ∀ d ∈ g.constraints, job.kindOf d = .sum m ∨ ∃ i, job.kindOf d = .pair m i ∧ job.first i < job.nSummed := by
  obtain ⟨himages, -, hmode⟩ := of_kind_sum (hg.component.subset hcon) hsum
  have hle := job.nSummed_le himages
  refine hg.component.least (fun d => job.kindOf d = .sum m ∨ ∃ i, job.kindOf d = .pair m i ∧ job.first i < job.nSummed)
    ?_ ⟨con, hcon, .inl hsum⟩
  rintro r hr hS s hs ⟨p, hpr, hps⟩
  have hp : ∃ j < job.nImages, p = job.param m j ∧ job.first j < job.nSummed := by
    rcases hS with hkind | ⟨i, hkind, hfirst⟩
    · obtain ⟨j, hj, rfl⟩ := (mem_parameters_sum hr hkind).1 hpr
      exact ⟨j, hj.trans_le hle, rfl, (first_le (hj.trans_le hle)).trans_lt hj⟩
    · obtain ⟨-, hi, -⟩ := of_kind_pair hr hkind
      rcases (mem_parameters_pair hr hkind).1 hpr with rfl | rfl
      · exact ⟨job.first i, first_lt hi, rfl, (first_first hi).symm ▸ hfirst⟩
      · exact ⟨i, hi, rfl, hfirst⟩
  obtain ⟨j, hj, rfl, hfirst⟩ := hp
  cases hkind : job.kindOf s with
  | sum m' =>
    obtain ⟨-, -, hmode'⟩ := of_kind_sum hs hkind
    obtain ⟨i, -, heq⟩ := (mem_parameters_sum hs hkind).1 hps
    exact .inl (by rw [(job.param_injective hmode hmode' heq).1])
  | pair m' i =>
    obtain ⟨hmode', hi, -⟩ := of_kind_pair hs hkind
    rcases (mem_parameters_pair hs hkind).1 hps with heq | heq
    · obtain ⟨rfl, rfl⟩ := job.param_injective hmode hmode' heq
      exact .inr ⟨i, rfl, first_first hi ▸ hfirst⟩
    · obtain ⟨rfl, rfl⟩ := job.param_injective hmode hmode' heq
      exact .inr ⟨j, rfl, hfirst⟩

/-- **A group without a sum**: all its constraints are about one wavefront. -/
theorem plain_group (hg : g.Of job.constraints) (hno : ∀ d ∈ g.constraints, ∀ m, job.kindOf d ≠ .sum m) :
    ∃ m f, ∀ d ∈ g.constraints, ∃ i, job.kindOf d = .pair m i ∧ job.first i = f := by
  obtain ⟨con, hcon⟩ := List.exists_mem_of_ne_nil _ hg.component.ne
  cases hkind : job.kindOf con with
  | sum m => exact absurd hkind (hno con hcon m)
  | pair m i =>
    obtain ⟨hmode, hi, -⟩ := of_kind_pair (hg.component.subset hcon) hkind
    have hleast := hg.component.least
      (fun d => d ∈ g.constraints ∧ ∃ i', job.kindOf d = .pair m i' ∧ job.first i' = job.first i)
      ?_ ⟨con, hcon, hcon, i, hkind, rfl⟩
    · exact ⟨m, job.first i, fun d hd => (hleast d hd).2⟩
    · rintro r hr ⟨hrg, i₁, hkind₁, hfirst₁⟩ s hs htouch
      have hsg := hg.component.closed r hr hrg s hs htouch
      refine ⟨hsg, ?_⟩
      obtain ⟨p, hpr, hps⟩ := htouch
      obtain ⟨-, hi₁, -⟩ := of_kind_pair hr hkind₁
      have hp : ∃ j < job.nImages, p = job.param m j ∧ job.first j = job.first i := by
        rcases (mem_parameters_pair hr hkind₁).1 hpr with rfl | rfl
        · exact ⟨job.first i₁, first_lt hi₁, rfl, (first_first hi₁).trans hfirst₁⟩
        · exact ⟨i₁, hi₁, rfl, hfirst₁⟩
      obtain ⟨j, hj, rfl, hfirst⟩ := hp
      cases hkind' : job.kindOf s with
      | sum m' => exact absurd hkind' (hno s hsg m')
      | pair m' i' =>
        obtain ⟨hmode', hi', -⟩ := of_kind_pair hs hkind'
        rcases (mem_parameters_pair hs hkind').1 hps with heq | heq
        · obtain ⟨rfl, rfl⟩ := job.param_injective hmode hmode' heq
          exact ⟨i', rfl, (first_first hi').symm.trans hfirst⟩
        · obtain ⟨rfl, rfl⟩ := job.param_injective hmode hmode' heq
          exact ⟨j, rfl, hfirst⟩

theorem sum_indices (hg : g.Of job.constraints) (hcon : con ∈ g.constraints) (hsum : job.kindOf con = .sum m)
    (hp : p ∈ g.indices) : ∃ j < job.nImages, p = job.param m j ∧ job.first j < job.nSummed := by
  obtain ⟨himages, -, -⟩ := of_kind_sum (hg.component.subset hcon) hsum
  have hle := job.nSummed_le himages
  obtain ⟨d, hd, hpd⟩ := (hg.indexed p).1 hp
  have hdcons := hg.component.subset hd
  rcases sum_group hg hcon hsum d hd with hkind | ⟨i, hkind, hfirst⟩
  · obtain ⟨j, hj, rfl⟩ := (mem_parameters_sum hdcons hkind).1 hpd
    exact ⟨j, hj.trans_le hle, rfl, (first_le (hj.trans_le hle)).trans_lt hj⟩
  · obtain ⟨-, hi, -⟩ := of_kind_pair hdcons hkind
    rcases (mem_parameters_pair hdcons hkind).1 hpd with rfl | rfl
    · exact ⟨job.first i, first_lt hi, rfl, (first_first hi).symm ▸ hfirst⟩
    · exact ⟨i, hi, rfl, hfirst⟩

/-- The images with a wavefront of the first channel are in the group of the sum. -/
theorem exists_pair (hg : g.Of job.constraints) (hcon : con ∈ g.constraints) (hsum : job.kindOf con = .sum m)
    (hj : j < job.nImages) (hlater : job.first j < j) (hfirst : job.first j < job.nSummed) :
    ∃ d ∈ g.constraints, job.kindOf d = .pair m j := by
  have hcons := hg.component.subset hcon
  obtain ⟨himages, -, hmode⟩ := of_kind_sum hcons hsum
  obtain ⟨d, hd, hkind⟩ := exists_constraint (job.mem_kinds_pair hmode hj hlater)
  refine ⟨d, hg.component.closed con hcons hcon d hd ⟨job.param m (job.first j), ?_, ?_⟩, hkind⟩
  · exact (mem_parameters_sum hcons hsum).2 ⟨job.first j, hfirst, rfl⟩
  · exact (mem_parameters_pair hd hkind).2 (.inl rfl)

theorem mem_free : p ∈ job.free g ↔ p ∈ g.indices ∧ ∀ d ∈ g.constraints, job.own (job.kindOf d) ≠ p := by
  rw [free, List.mem_filter, decide_eq_true_iff, List.mem_map]
  simp only [not_exists, not_and, ne_eq]

/-- In the group of a sum the first images with their wavefronts are free, the very first one excepted. -/
theorem mem_free_sum (hg : g.Of job.constraints) (hcon : con ∈ g.constraints) (hsum : job.kindOf con = .sum m) :
    p ∈ job.free g ↔ ∃ j < job.nSummed, j ≠ 0 ∧ job.first j = j ∧ p = job.param m j := by
  have hcons := hg.component.subset hcon
  obtain ⟨himages, -, hmode⟩ := of_kind_sum hcons hsum
  have hle := job.nSummed_le himages
  rw [mem_free]
  constructor
  · rintro ⟨hp, hfree⟩
    obtain ⟨j, hj, rfl, hfirst⟩ := sum_indices hg hcon hsum hp
    have heq : job.first j = j := by
      by_contra hne
      obtain ⟨d, hd, hkind⟩ := exists_pair hg hcon hsum hj (lt_of_le_of_ne (first_le hj) hne) hfirst
      exact hfree d hd (by rw [hkind]; rfl)
    refine ⟨j, heq ▸ hfirst, ?_, heq, rfl⟩
    rintro rfl
    exact hfree con hcon (by rw [hsum]; rfl)
  · rintro ⟨j, hj, hzero, hfirst, rfl⟩
    refine ⟨(hg.indexed _).2 ⟨con, hcon, (mem_parameters_sum hcons hsum).2 ⟨j, hj, rfl⟩⟩, fun d hd heq => ?_⟩
    rcases sum_group hg hcon hsum d hd with hkind | ⟨i, hkind, -⟩
    · rw [hkind] at heq
      exact hzero (job.param_injective hmode hmode heq).2.symm
    · obtain ⟨-, hi, hlater⟩ := of_kind_pair (hg.component.subset hd) hkind
      rw [hkind] at heq
      obtain rfl := (job.param_injective hmode hmode heq).2
      exact hlater.ne hfirst

theorem param_toNat (hmode : m < job.nModes) : (job.param m i / job.nModes).toNat = i := by
  have hpos : (job.nModes : ℤ) ≠ 0 := by omega
  rw [param, add_comm, Int.add_mul_ediv_right _ _ hpos, Int.ediv_eq_zero_of_lt (by omega) (by omega), zero_add,
    Int.toNat_natCast]

/-- Two values with the sum zero. -/
theorem sum_map_ite {α : Type} (P : α → Prop) [DecidablePred P] (a b : ℚ) (l : List α) :
    (l.map fun x => if P x then a else b).sum = l.countP (fun x => P x) * a + l.countP (fun x => ¬ P x) * b := by
  induction l with
  | nil => simp
  | cons x l ih =>
    rw [List.map_cons, List.sum_cons, ih]
    by_cases h : P x
    · simp [h]
      ring
    · simp [h]
      ring

/-- **No parameter of a group with a free parameter is zero in all solutions.** -/
theorem exists_solution (hg : g.Of job.constraints) (hfree : job.free g ≠ []) (hp : p ∈ g.indices) :
    ∃ v : ℤ → ℚ, (∀ d ∈ g.constraints, d.dot v = 0) ∧ v p ≠ 0 := by
  by_cases hsum : ∃ con ∈ g.constraints, ∃ m, job.kindOf con = .sum m
  · obtain ⟨con, hcon, m, hsum⟩ := hsum
    have hcons := hg.component.subset hcon
    obtain ⟨himages, -, hmode⟩ := of_kind_sum hcons hsum
    obtain ⟨j, hj, rfl, hfirst⟩ := sum_indices hg hcon hsum hp
    let a : ℚ := (List.range job.nSummed).countP fun i => ¬ job.first i = job.first j
    let b : ℚ := (List.range job.nSummed).countP fun i => job.first i = job.first j
    have ha : a ≠ 0 := by
      obtain ⟨q, hq⟩ := List.exists_mem_of_ne_nil _ hfree
      obtain ⟨k, hk, hzero, heq, -⟩ := (mem_free_sum hg hcon hsum).1 hq
      refine Nat.cast_ne_zero.2 (List.countP_pos_iff.2 ?_).ne'
      by_cases h0 : job.first j = 0
      · exact ⟨k, List.mem_range.2 hk, decide_eq_true fun h => hzero (heq.symm.trans (h.trans h0))⟩
      · refine ⟨0, List.mem_range.2 (Nat.zero_lt_of_lt hk), decide_eq_true fun h => h0 ?_⟩
        rw [← h, first_zero himages]
    refine ⟨fun q => if job.first (q / job.nModes).toNat = job.first j then a else -b, fun d hd => ?_, ?_⟩
    · have hdcons := hg.component.subset hd
      rcases sum_group hg hcon hsum d hd with hkind | ⟨i, hkind, -⟩
      · rw [dot_sum hdcons hkind]
        simp only [param_toNat hmode]
        rw [sum_map_ite]
        ring
      · obtain ⟨-, hi, -⟩ := of_kind_pair hdcons hkind
        rw [dot_pair hdcons hkind, param_toNat hmode, param_toNat hmode, first_first hi, sub_self]
    · dsimp only
      rwa [param_toNat hmode, if_pos rfl]
  · push Not at hsum
    obtain ⟨m, f, hkinds⟩ := plain_group hg hsum
    refine ⟨fun _ => 1, fun d hd => ?_, one_ne_zero⟩
    obtain ⟨i, hkind, -⟩ := hkinds d hd
    rw [dot_pair (hg.component.subset hd) hkind, sub_self]

end MomfbdJob

end Shapes

end Redux.Momfbd.Constraints
