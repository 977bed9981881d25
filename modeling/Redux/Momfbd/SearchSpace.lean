import Redux.Momfbd.ConstraintMaps

/-!
# Momfbd.SearchSpace — what the minimizer can reach

The minimizer asks for the metric at free parameters of its choice; the solver makes the parameters from them and
from an offset, to which it copies the parameters of a step when the next one begins.  Through all of this the
constraints have the values that the initial parameters gave them, and nothing else holds the minimizer back, if the
nullspaces of the groups are right (`search_space`).  What it is told is the gradient of the parameters, by the chain
rule, whatever the nullspaces are (`gradient_chain`).  The numbers are exact.
-/

namespace Redux.Momfbd.Constraints

open Redux.Lib SparseMatrix

/-! ## Model -/

section Model

/-- The parameters of `Solver`. -/
structure SolverParameters where
  alpha : ℤ → ℚ
  alpha_offset : ℤ → ℚ

/-- What `run` does with them: an evaluation of `my_f`, `my_df` or `my_fdf` at free parameters that the minimizer
chooses, and the end of a step. -/
inductive SolverEvent where
  | evaluate (beta : ℤ → ℚ)
  | storeSolution

namespace MomfbdJob

variable (job : MomfbdJob) (order : RowSort) (ns : Labels → List ℚ)

/-- `applyBeta`, before the phases are made. -/
def applyBeta (s : SolverParameters) (beta : ℤ → ℚ) : SolverParameters :=
  { s with alpha := job.reverseAndAdd order ns beta s.alpha_offset s.alpha }

/-- `memcpy( alpha_offset.get(), alpha.get(), ... )`. -/
def storeSolution (s : SolverParameters) : SolverParameters :=
  { s with alpha_offset := memcpy s.alpha_offset s.alpha job.nParameters }

def solverStep (s : SolverParameters) : SolverEvent → SolverParameters
  | .evaluate beta => job.applyBeta order ns s beta
  | .storeSolution => job.storeSolution s

/-- The first evaluation, after `loadInit` has written the offset. -/
def solverBegin (alpha init : ℤ → ℚ) : SolverParameters :=
  job.applyBeta order ns ⟨memset alpha job.nParameters, init⟩ 0

/-- The constraints have the values that `init` gives them. -/
def Meets (init v : ℤ → ℚ) : Prop := ∀ con ∈ job.constraints, con.dot v = con.dot init

end MomfbdJob

end Model

/-! ## Solutions -/

section Solutions

variable {job : MomfbdJob} {order : RowSort} {ns : Labels → List ℚ} {v w : ℤ → ℚ} {con : Constraint} {g : Group}
  {y : ℤ}

theorem dot_add (v w : ℤ → ℚ) : con.dot (fun y => v y + w y) = con.dot v + con.dot w := by
  simp [Constraint.dot, mul_add, List.sum_map_add]

theorem dot_sub (v w : ℤ → ℚ) : con.dot (fun y => v y - w y) = con.dot v - con.dot w := by
  rw [eq_sub_iff_add_eq, ← dot_add]
  simp

theorem dot_sum_range {n : ℕ} (N : ℤ → ℕ → ℚ) (c : ℕ → ℚ) :
    con.dot (fun y => ∑ k ∈ Finset.range n, N y k * c k) = ∑ k ∈ Finset.range n, con.dot (fun y => N y k) * c k := by
  induction n with
  | zero => simp [Constraint.dot]
  | succ n ih =>
    simp only [Finset.sum_range_succ]
    rw [dot_add, ih]
    congr 1
    simp only [Constraint.dot, ← List.sum_map_mul_right]
    simp [mul_assoc]

namespace MomfbdJob

/-- Only the parameters of a job count. -/
theorem dot_congr (hcon : con ∈ job.constraints) (h : ∀ y : ℤ, 0 ≤ y → y < job.nParameters → v y = w y) :
    con.dot v = con.dot w := by
  rw [Constraint.dot, Constraint.dot]
  refine congrArg List.sum (List.map_congr_left fun entry hentry => ?_)
  obtain ⟨h0, hlt⟩ := parameters_lt hcon (List.mem_map_of_mem hentry)
  rw [h entry.1 h0 hlt]

/-- **The free parameters of a group determine a solution.** -/
theorem zero_of_free (hg : g.Of job.constraints) (hsolves : ∀ con ∈ g.constraints, con.dot v = 0)
    (hfree : ∀ p ∈ job.free g, v p = 0) (hy : y ∈ g.indices) : v y = 0 := by
  by_cases hsum : ∃ con ∈ g.constraints, ∃ m, job.kindOf con = .sum m
  · obtain ⟨con, hcon, m, hsum⟩ := hsum
    have hcons := hg.component.subset hcon
    obtain ⟨himages, -, hmode⟩ := of_kind_sum hcons hsum
    -- each image has the parameter of the first one with its wavefront
    have hpair : ∀ j < job.nImages, job.first j < job.nSummed → v (job.param m j) = v (job.param m (job.first j)) := by
      intro j hj hfirst
      by_cases heq : job.first j = j
      · rw [heq]
      · obtain ⟨d, hd, hkind⟩ := exists_pair hg hcon hsum hj (lt_of_le_of_ne (first_le hj) heq) hfirst
        have hdot := hsolves d hd
        rw [dot_pair (hg.component.subset hd) hkind, sub_eq_zero] at hdot
        exact hdot.symm
    have hvalue : ∀ j < job.nImages, job.first j < job.nSummed →
        v (job.param m j) = if job.first j = 0 then v (job.param m 0) else 0 := by
      intro j hj hfirst
      rw [hpair j hj hfirst]
      split_ifs with h0
      · rw [h0]
      · exact hfree _ ((mem_free_sum hg hcon hsum).2 ⟨job.first j, hfirst, h0, first_first hj, rfl⟩)
    have hzero : v (job.param m 0) = 0 := by
      have hdot := hsolves con hcon
      have hle := job.nSummed_le himages
      have hmap : (List.range job.nSummed).map (fun i => v (job.param m i)) =
          (List.range job.nSummed).map fun i => if job.first i = 0 then v (job.param m 0) else 0 := by
        refine List.map_congr_left fun i hi => ?_
        have hlt := List.mem_range.1 hi
        exact hvalue i (hlt.trans_le hle) ((first_le (hlt.trans_le hle)).trans_lt hlt)
      rw [dot_sum hcons hsum, hmap, sum_map_ite, mul_zero, add_zero] at hdot
      refine (mul_eq_zero.1 hdot).resolve_left ?_
      refine Nat.cast_ne_zero.2 (List.countP_pos_iff.2 ⟨0, List.mem_range.2 job.nSummed_pos, ?_⟩).ne'
      exact decide_eq_true (first_zero himages)
    obtain ⟨j, hj, rfl, hfirst⟩ := sum_indices hg hcon hsum hy
    rw [hvalue j hj hfirst, hzero, ite_self]
  · push Not at hsum
    obtain ⟨m, f, hkinds⟩ := plain_group hg hsum
    obtain ⟨d, hd, hyd⟩ := (hg.indexed y).1 hy
    obtain ⟨i, hkind, rfl⟩ := hkinds d hd
    have hdcons := hg.component.subset hd
    obtain ⟨hmode, hi, hlater⟩ := of_kind_pair hdcons hkind
    have hfirst : v (job.param m (job.first i)) = 0 := by
      refine hfree _ (mem_free.2 ⟨(hg.indexed _).2 ⟨d, hd, (mem_parameters_pair hdcons hkind).2 (.inl rfl)⟩, ?_⟩)
      intro d' hd' heq
      obtain ⟨i', hkind', hsame⟩ := hkinds d' hd'
      obtain ⟨-, -, hlater'⟩ := of_kind_pair (hg.component.subset hd') hkind'
      rw [hkind'] at heq
      have himage : i' = job.first i := (job.param_injective hmode hmode heq).2
      omega
    have hdot := hsolves d hd
    rw [dot_pair hdcons hkind, hfirst, zero_sub, neg_eq_zero] at hdot
    rcases (mem_parameters_pair hdcons hkind).1 hyd with rfl | rfl
    · exact hfirst
    · exact hdot

end MomfbdJob

end Solutions

/-! ## The columns span the solutions -/

section Span

variable {job : MomfbdJob} {order : RowSort} {ns : Labels → List ℚ} {w : ℤ → ℚ} {b b' : Block} {x : ℤ}

/-- The blocks do not share columns. -/
theorem blockify_pairwise {groups : List Group} (hle : ∀ g ∈ groups, g.constraints.length ≤ g.indices.length)
    (y x : ℤ) : (blockify y x groups).Pairwise fun b b' : Block => b.x + (b.nCols : ℤ) ≤ b'.x := by
  induction groups generalizing y x with
  | nil => exact .nil
  | cons g groups ih =>
    have hrest : ∀ g ∈ groups, g.constraints.length ≤ g.indices.length := fun g hg => hle g (List.mem_cons_of_mem _ hg)
    have hg := hle g List.mem_cons_self
    refine List.pairwise_cons.2 ⟨fun b' hb' => ?_, ih hrest _ _⟩
    have hnext := le_of_mem_blockify hrest hb'
    have hcols : ((⟨g, y, x⟩ : Block).nCols : ℤ) = g.indices.length - g.constraints.length := Int.natCast_sub hg
    rw [hcols]
    exact hnext

namespace MomfbdJob

theorem window_unique (hb : b ∈ job.blocks order) (hb' : b' ∈ job.blocks order) (h : b.x ≤ x ∧ x < b.x + b.nCols)
    (h' : b'.x ≤ x ∧ x < b'.x + b'.nCols) : b = b' := by
  have hpair : (job.blocks order).Pairwise fun b b' => ¬((b.x ≤ x ∧ x < b.x + b.nCols) ∧
      b'.x ≤ x ∧ x < b'.x + b'.nCols) :=
    (blockify_pairwise (fun _ hg => constraints_le hg) 0 0).imp fun hle => by omega
  have hsymm : Std.Symm fun b b' : Block => ¬((b.x ≤ x ∧ x < b.x + b.nCols) ∧ b'.x ≤ x ∧ x < b'.x + b'.nCols) :=
    ⟨fun _ _ h hboth => h hboth.symm⟩
  by_contra hne
  exact List.Pairwise.forall hpair hb hb' hne ⟨h, h'⟩

/-- **The solutions of a group** come from its columns. -/
theorem exists_coefficients (hgood : b.Good ns) (hb : b ∈ job.blocks order)
    (hw : ∀ con ∈ job.constraints, con.dot w = 0) :
    ∃ c : ℕ → ℚ, ∀ y ∈ b.group.indices,
      w y = ∑ k ∈ Finset.range b.nCols, b.matrix ns (b.group.columns.idxOf y) k * c k := by
  have hof := group_of (group_mem hb)
  have hsolves : ∀ con ∈ b.group.constraints, con.dot w = 0 := fun con hcon => hw con (hof.component.subset hcon)
  rcases Nat.eq_zero_or_pos b.nCols with hnone | hsome
  · have hfree : job.free b.group = [] := List.length_eq_zero_iff.1 ((length_free (group_mem hb)).trans hnone)
    refine ⟨0, fun y hy => ?_⟩
    rw [hnone, Finset.range_zero, Finset.sum_empty]
    refine zero_of_free hof hsolves (fun p hp => ?_) hy
    rw [hfree] at hp
    exact absurd hp List.not_mem_nil
  · have hv : b.labels.Solves fun j => w (b.group.columns.getD j 0) := by
      refine (Group.solves_iff hgood.dense _).2 fun con hcon => ?_
      rw [← hsolves con hcon, Constraint.dot, Constraint.dot]
      refine congrArg List.sum (List.map_congr_left fun entry hentry => ?_)
      rw [(getD_idxOf hb (hgood.dense.subset con hcon (List.mem_map_of_mem hentry))).2]
    obtain ⟨c, hc⟩ := (hgood.basis hsome).spans _ hv
    refine ⟨fun k => if hk : k < b.labels.nFree.toNat then c ⟨k, hk⟩ else 0, fun y hy => ?_⟩
    obtain ⟨hj, hget⟩ := getD_idxOf hb hy
    have hrow := hc (b.group.columns.idxOf y) hj
    rw [hget] at hrow
    rw [hrow, ← hgood.toNat_nFree, Finset.sum_range]
    refine Finset.sum_congr rfl fun k _ => ?_
    dsimp only
    rw [dif_pos k.isLt, mul_comm]

/-- **Every solution comes from free parameters.** -/
theorem exists_beta (hns : ∀ b ∈ job.blocks order, b.labels.Correct significant (ns b.labels))
    (hw : ∀ con ∈ job.constraints, con.dot w = 0) :
    ∃ beta : ℤ → ℚ, ∀ y : ℤ, 0 ≤ y → y < job.nParameters →
      w y = ∑ x ∈ Finset.range job.nFreeParameters.toNat, job.nullMatrix order ns y x * beta x := by
  have hcount := job.nFreeParameters_eq order
  choose c hc using fun b hb => exists_coefficients (good (hns b hb) hb) hb hw
  -- each free parameter belongs to one block, or to one parameter without constraints
  have hbeta : ∀ x : ℤ, ∃ r, (∀ b hb, b.x ≤ x ∧ x < b.x + b.nCols → r = c b hb (x - b.x).toNat) ∧
      ∀ y, (y, x) ∈ (job.unused1 order).zip (job.unused2 order) → r = w y := by
    intro x
    by_cases hblock : ∃ b ∈ job.blocks order, b.x ≤ x ∧ x < b.x + b.nCols
    · obtain ⟨b, hb, hwindow⟩ := hblock
      refine ⟨c b hb (x - b.x).toNat, fun b' hb' hwindow' => ?_, fun y hzip => ?_⟩
      · obtain rfl := window_unique hb hb' hwindow hwindow'
        rfl
      · exact absurd ((mem_window x).1 ⟨b, hb, hwindow⟩) (mem_unused2.1 (List.of_mem_zip hzip).2).2
    · by_cases hpair : ∃ y, (y, x) ∈ (job.unused1 order).zip (job.unused2 order)
      · obtain ⟨y, hzip⟩ := hpair
        refine ⟨w y, fun b hb hwindow => absurd ⟨b, hb, hwindow⟩ hblock, fun y' hzip' => ?_⟩
        rw [(zip_inj unused1_nodup unused2_nodup hzip hzip').2 rfl]
      · exact ⟨0, fun b hb hwindow => absurd ⟨b, hb, hwindow⟩ hblock, fun y hzip => absurd ⟨y, hzip⟩ hpair⟩
  choose beta hblocks hunused using hbeta
  refine ⟨beta, fun y h0 hlt => ?_⟩
  by_cases hy : y ∈ (job.groups order).flatMap Group.indices
  · obtain ⟨g, hg, hyg⟩ := List.mem_flatMap.1 hy
    obtain ⟨b, hb, rfl⟩ := exists_block hg
    have hxb := x_nonneg hb
    rw [hc b hb y hyg]
    refine Finset.sum_of_injOn (fun k => b.x.toNat + k) (fun k _ k' _ h => Nat.add_left_cancel h) ?_ ?_ ?_
    · intro k hk
      have hlt := Finset.mem_range.1 hk
      have hcol := (mem_window (b.x + k)).1 ⟨b, hb, by omega, by omega⟩
      simp only [Finset.coe_range, Set.mem_Iio]
      omega
    · intro x' _ hx'
      rw [nullMatrix_block hns hb hyg, if_neg, zero_mul]
      intro hwindow
      refine hx' ⟨(x' - b.x).toNat, ?_, ?_⟩
      · simp only [Finset.coe_range, Set.mem_Iio]
        omega
      · dsimp only
        omega
    · intro k hk
      have hlt := Finset.mem_range.1 hk
      have hwindow : b.x ≤ ((b.x.toNat + k : ℕ) : ℤ) ∧ ((b.x.toNat + k : ℕ) : ℤ) < b.x + b.nCols := by omega
      rw [nullMatrix_block hns hb hyg, if_pos hwindow, hblocks _ b hb hwindow,
        show (((b.x.toNat + k : ℕ) : ℤ) - b.x).toNat = k by omega]
  · obtain ⟨x', hzip⟩ := exists_partner (mem_unused1.2 ⟨⟨h0, hlt⟩, hy⟩)
    have hx' := (mem_unused2.1 (List.of_mem_zip hzip).2).1
    rw [Finset.sum_eq_single x'.toNat]
    · rw [nullMatrix_row hns hzip, if_pos (Int.toNat_of_nonneg hx'.1), one_mul, Int.toNat_of_nonneg hx'.1,
        hunused x' y hzip]
    · intro x'' _ hne
      rw [nullMatrix_row hns hzip, if_neg, zero_mul]
      omega
    · intro hnot
      rw [Finset.mem_range] at hnot
      omega

end MomfbdJob

end Span

/-! ## Runs -/

section Run

variable {job : MomfbdJob} {order : RowSort} {ns : Labels → List ℚ} {s : SolverParameters} {beta init : ℤ → ℚ} {y : ℤ}

namespace MomfbdJob

/-- The free parameters as an index set. -/
def freeIndices (job : MomfbdJob) : Finset ℤ := (Finset.range job.nFreeParameters.toNat).map Nat.castEmbedding

theorem mem_freeIndices {x : ℤ} : x ∈ job.freeIndices ↔ 0 ≤ x ∧ x < job.nFreeParameters := by
  rw [freeIndices, Finset.mem_map]
  constructor
  · rintro ⟨k, hk, rfl⟩
    have hlt := Finset.mem_range.1 hk
    rw [Nat.castEmbedding_apply]
    omega
  · intro hx
    exact ⟨x.toNat, Finset.mem_range.2 (by omega), by simp [hx.1]⟩

/-- **What the loop of `reverse` adds**: the product with the matrix. -/
theorem total_inOrder (hns : ∀ b ∈ job.blocks order, b.labels.Correct significant (ns b.labels))
    (hfree : 0 < job.nFreeParameters) (beta : ℤ → ℚ) (y : ℤ) :
    total (rowTerms (job.ns_entries order ns).inOrder beta) y =
      ∑ x ∈ Finset.range job.nFreeParameters.toNat, job.nullMatrix order ns y x * beta x := by
  have hcolumns : ∀ entry ∈ job.ns_entries order ns, entry.1.2 ∈ job.freeIndices := fun entry hentry =>
    mem_freeIndices.2 ((mem_columns hns hfree).1 ⟨entry.1.1, List.mem_map_of_mem hentry⟩)
  have hperm := (NsEntries.inOrder_perm (job.ns_entries order ns)).map fun entry =>
    (entry.1.1, entry.2 * beta entry.1.2)
  rw [rowTerms, total_perm hperm]
  exact (total_rowTerms (keys_nodup hns) hcolumns y).trans (Finset.sum_map _ _ _)

/-- **The parameters of an evaluation.** -/
theorem alpha_applyBeta (hns : ∀ b ∈ job.blocks order, b.labels.Correct significant (ns b.labels))
    (hfree : 0 < job.nFreeParameters) (s : SolverParameters) (beta : ℤ → ℚ) (h0 : 0 ≤ y) (hlt : y < job.nParameters) :
    (job.applyBeta order ns s beta).alpha y = s.alpha_offset y +
      ∑ x ∈ Finset.range job.nFreeParameters.toNat, job.nullMatrix order ns y x * beta x := by
  show job.reverseAndAdd order ns beta s.alpha_offset s.alpha y = _
  rw [reverseAndAdd, addTo_apply, total_inOrder hns hfree, memcpy, if_pos ⟨h0, hlt⟩]

/-- What comes from free parameters leaves the constraints alone. -/
theorem meets_applyBeta (hns : ∀ b ∈ job.blocks order, b.labels.Correct significant (ns b.labels))
    (hfree : 0 < job.nFreeParameters) (hs : job.Meets init s.alpha_offset) :
    job.Meets init (job.applyBeta order ns s beta).alpha := by
  intro con hcon
  have halpha := dot_congr hcon fun y h0 hlt => alpha_applyBeta hns hfree s beta h0 hlt
  rw [halpha, dot_add, hs con hcon, dot_sum_range, Finset.sum_eq_zero, add_zero]
  intro x _
  rw [nullMatrix_solves hns hcon, zero_mul]

theorem meets_storeSolution (hs : job.Meets init s.alpha) : job.Meets init (job.storeSolution s).alpha_offset := by
  intro con hcon
  rw [← hs con hcon]
  exact dot_congr hcon fun y h0 hlt => if_pos ⟨h0, hlt⟩

/-- The offset and the parameters meet the constraints as the initial ones do. -/
structure OnTrack (job : MomfbdJob) (init : ℤ → ℚ) (s : SolverParameters) : Prop where
  offset : job.Meets init s.alpha_offset
  alpha : job.Meets init s.alpha

theorem OnTrack.step (hns : ∀ b ∈ job.blocks order, b.labels.Correct significant (ns b.labels))
    (hfree : 0 < job.nFreeParameters) (hs : job.OnTrack init s) (e : SolverEvent) :
    job.OnTrack init (job.solverStep order ns s e) := by
  cases e with
  | evaluate beta => exact ⟨hs.offset, meets_applyBeta hns hfree hs.offset⟩
  | storeSolution => exact ⟨meets_storeSolution hs.alpha, hs.alpha⟩

theorem OnTrack.run (hns : ∀ b ∈ job.blocks order, b.labels.Correct significant (ns b.labels))
    (hfree : 0 < job.nFreeParameters) (hs : job.OnTrack init s) (es : List SolverEvent) :
    job.OnTrack init (es.foldl (job.solverStep order ns) s) := by
  induction es generalizing s with
  | nil => exact hs
  | cons e es ih => exact ih (hs.step hns hfree e)

theorem onTrack_begin (hns : ∀ b ∈ job.blocks order, b.labels.Correct significant (ns b.labels))
    (hfree : 0 < job.nFreeParameters) (alpha init : ℤ → ℚ) : job.OnTrack init (job.solverBegin order ns alpha init) :=
  ⟨fun _ _ => rfl, meets_applyBeta hns hfree fun _ _ => rfl⟩

/-- **What the minimizer can reach**, if the rows can be sorted and the groups have the right nullspaces: at any point
of any run, the parameters that it can have evaluated next are just those that give the constraints the values they had
at the beginning. -/
theorem search_space (job : MomfbdJob) (order : RowSort) (ns : Labels → List ℚ) (hrows : job.Sortable)
    (hns : ∀ b ∈ job.blocks order, b.labels.Correct significant (ns b.labels)) (hfree : 0 < job.nFreeParameters)
    (alpha init : ℤ → ℚ) (es : List SolverEvent) (v : ℤ → ℚ) :
    job.init order ns = some (job.ns_entries order ns) ∧
      ((∃ beta, ∀ y : ℤ, 0 ≤ y → y < job.nParameters → (job.applyBeta order ns
        (es.foldl (job.solverStep order ns) (job.solverBegin order ns alpha init)) beta).alpha y = v y) ↔
        job.Meets init v) := by
  refine ⟨job.init_eq order ns hrows, ?_⟩
  have hs := (onTrack_begin hns hfree alpha init).run hns hfree es
  generalize es.foldl (job.solverStep order ns) (job.solverBegin order ns alpha init) = s at hs
  constructor
  · rintro ⟨beta, hbeta⟩ con hcon
    rw [← dot_congr hcon hbeta]
    exact meets_applyBeta hns hfree hs.offset con hcon
  · intro hv
    have hw : ∀ con ∈ job.constraints, con.dot (fun y => v y - s.alpha_offset y) = 0 := by
      intro con hcon
      rw [dot_sub, hv con hcon, hs.offset con hcon, sub_self]
    obtain ⟨beta, hbeta⟩ := exists_beta hns hw
    refine ⟨beta, fun y h0 hlt => ?_⟩
    rw [alpha_applyBeta hns hfree s _ h0 hlt, ← hbeta y h0 hlt]
    ring

/-- **The gradient that the minimizer gets** is that of the free parameters, whatever numbers the nullspaces of the
groups have: the parameters change with them by as much as the gradient of the parameters says. -/
theorem gradient_chain (job : MomfbdJob) (order : RowSort) (ns : Labels → List ℚ)
    (hns : ∀ b ∈ job.blocks order, b.labels.Sized (ns b.labels)) (hfree : 0 < job.nFreeParameters)
    (s : SolverParameters) (grad_alpha grad beta delta : ℤ → ℚ) :
    ∑ x ∈ Finset.range job.nFreeParameters.toNat, delta x * job.apply order ns grad_alpha grad x =
      ∑ y ∈ Finset.range job.nParameters, grad_alpha y *
        ((job.applyBeta order ns s fun x => beta x + delta x).alpha y - (job.applyBeta order ns s beta).alpha y) := by
  have hchange : ∀ y : ℕ,
      (job.applyBeta order ns s fun x => beta x + delta x).alpha y - (job.applyBeta order ns s beta).alpha y =
        total (rowTerms (job.ns_entries order ns).inOrder delta) y := by
    intro y
    have halpha : ∀ beta, (job.applyBeta order ns s beta).alpha y =
        memcpy s.alpha s.alpha_offset job.nParameters y + total (rowTerms (job.ns_entries order ns).inOrder beta) y :=
      fun _ => addTo_apply
    rw [halpha, halpha, total_rowTerms_add]
    ring
  have hrange : ∀ x ∈ Finset.range job.nFreeParameters.toNat, job.apply order ns grad_alpha grad x =
      total (columnTerms (job.ns_entries order ns).inOrder grad_alpha) x := by
    intro x hx
    have hlt := Finset.mem_range.1 hx
    rw [apply, addTo_apply, memset, if_pos (by omega), zero_add]
  have hplaces : ∀ entry ∈ (job.ns_entries order ns).inOrder,
      entry.1.1 ∈ (Finset.range job.nParameters).map (Nat.castEmbedding (R := ℤ)) ∧ entry.1.2 ∈ job.freeIndices := by
    rintro ⟨⟨y, x⟩, value⟩ hentry
    obtain ⟨⟨h0, hlt⟩, hx0, hx⟩ := fits hns _ ((NsEntries.inOrder_perm _).mem_iff.1 hentry)
    dsimp only at h0 hlt
    refine ⟨Finset.mem_map.2 ⟨y.toNat, Finset.mem_range.2 (by omega), ?_⟩, mem_freeIndices.2 ⟨hx0, hx hfree⟩⟩
    simp [h0]
  have hadjoint := adjoint hplaces delta grad_alpha
  rw [freeIndices, Finset.sum_map, Finset.sum_map] at hadjoint
  calc ∑ x ∈ Finset.range job.nFreeParameters.toNat, delta x * job.apply order ns grad_alpha grad x
      = ∑ x ∈ Finset.range job.nFreeParameters.toNat, delta x *
          total (columnTerms (job.ns_entries order ns).inOrder grad_alpha) x :=
        Finset.sum_congr rfl fun x hx => by rw [hrange x hx]
    _ = ∑ y ∈ Finset.range job.nParameters, grad_alpha y *
          total (rowTerms (job.ns_entries order ns).inOrder delta) y := hadjoint.symm
    _ = _ := Finset.sum_congr rfl fun y _ => by rw [hchange y]

end MomfbdJob

end Run

/-! ## Four channels, and two images -/

/-- The constraints fix the tilts of the first image, and the differences between those of the second and the third. -/
theorem fourChannels_meets {init v : ℤ → ℚ} : fourChannels.Meets init v ↔
    (v 0 = init 0 ∧ v 2 - v 4 = init 2 - init 4) ∧ v 1 = init 1 ∧ v 3 - v 5 = init 3 - init 5 := by
  rw [MomfbdJob.Meets, fourChannels_constraints]
  simp [Constraint.dot, sub_eq_add_neg, and_assoc]

/-- From no tilts the solver can move the second and the third image together, and the fourth one as it likes. -/
theorem search_space_fourChannels :
    let ns := Labels.numbers
    fourChannels.init .none ns = some (fourChannels.ns_entries .none ns) ∧
      ∃ beta, ∀ y : ℤ, 0 ≤ y → y < fourChannels.nParameters → (fourChannels.applyBeta .none ns
        ([.evaluate 1, .storeSolution].foldl (fourChannels.solverStep .none ns)
          (fourChannels.solverBegin .none ns 0 0)) beta).alpha y =
            if y = 2 ∨ y = 4 then 5 else if y = 6 then -2 else 0 := by
  intro ns
  have h := MomfbdJob.search_space fourChannels .none ns fourChannels_sortable fourChannels_correct (by decide) 0 0
    [.evaluate 1, .storeSolution] fun y => if y = 2 ∨ y = 4 then 5 else if y = 6 then -2 else 0
  refine ⟨h.1, h.2.2 (fourChannels_meets.2 ?_)⟩
  simp

/-- The nullspace that is calculated for two images is not right, and the gradient is still that of the free
parameter. -/
theorem gradient_chain_twoImages :
    ∑ x ∈ Finset.range twoImages.nFreeParameters.toNat, (1 : ℤ → ℚ) x *
        twoImages.apply .none Labels.numbers (fun y => y) 0 x =
      ∑ y ∈ Finset.range twoImages.nParameters, (y : ℤ) *
        ((twoImages.applyBeta .none Labels.numbers ⟨0, 0⟩ fun x => (0 : ℤ → ℚ) x + (1 : ℤ → ℚ) x).alpha y -
          (twoImages.applyBeta .none Labels.numbers ⟨0, 0⟩ 0).alpha y) := by
  refine MomfbdJob.gradient_chain twoImages .none Labels.numbers (fun b hb _ => ?_) (by decide) ⟨0, 0⟩
    (fun y => y) 0 0 1
  rw [twoImages_labels b hb, Labels.numbers, Labels.calculateNullspace, if_neg (by decide), if_pos (by decide)]
  rfl

end Redux.Momfbd.Constraints
