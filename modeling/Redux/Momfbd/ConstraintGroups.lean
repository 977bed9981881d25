import Redux.Lib.Components
import Redux.Momfbd.RowOrder

/-!
# Momfbd.ConstraintGroups — the constraints that share parameters

`groupConnectedVariables` takes the first constraint that is left, and goes through the others from the
start after each one that it moves to the group.  It comes to an end, and the groups are the connected
components of the constraints, if `sortRows` can sort them: no constraint may have the columns of another
one and more behind them (`groups_components_iff`).  The order that `sortRows` leaves the constraints of a
group in does not matter.
-/

namespace Redux.Momfbd.Constraints

open Redux.Lib Redux.Lib.Components

section Model

/-- A row of the constraint matrix.  `shared_ptr`s to it compare by its address. -/
structure Constraint where
  address : ℕ
  entries : Entries
  ne : entries ≠ []
  deriving DecidableEq

/-- The parameters that a constraint is about. -/
def Constraint.parameters (con : Constraint) : List ℤ := con.entries.map Prod.fst

structure Group where
  constraints : List Constraint
  indices : List ℤ
  deriving DecidableEq

namespace Group

def add (con : Constraint) (g : Group) : Group :=
  if con ∈ g.constraints then g
  else ⟨g.constraints ++ [con],
    con.parameters.foldl (fun s i => OrderedSet.insert (fun a b => decide (a < b)) i s) g.indices⟩

/-- `Group( logger, con )`. -/
def new (con : Constraint) : Group := add con ⟨[], []⟩

/-- One of the column-indices matches this group. -/
def connected (g : Group) (con : Constraint) : Bool := con.entries.any fun entry => entry.1 ∈ g.indices

/-- The loop of `addConnectedConstraints`: the iterator stands between `before` and `after`, and goes
back to the start after a constraint has been moved. -/
def addConnected (g : Group) (before after : List Constraint) : Group × List Constraint :=
  match after with
  | [] => (g, before)
  | con :: after =>
    if g.connected con then addConnected (g.add con) [] (before ++ after)
    else addConnected g (before ++ [con]) after
termination_by (before.length + after.length, after.length)
decreasing_by
  · exact Prod.Lex.left _ _ (by simp only [List.length_append, List.length_nil, List.length_cons]; omega)
  · simp only [List.length_append, List.length_cons, List.length_nil]
    rw [show before.length + (0 + 1) + after.length = before.length + (after.length + 1) by omega]
    exact Prod.Lex.right _ (Nat.lt_succ_self _)

/-- The group, and the constraints that are left. -/
def addConnectedConstraints (g : Group) (cons : List Constraint) : Group × List Constraint :=
  g.addConnected [] cons

end Group

/-- What `std::sort` makes of rows that it can sort: some order of them. -/
structure RowSort where
  sort : List Constraint → List Constraint
  perm : ∀ cons, (sort cons).Perm cons

/-- The group with its rows in the order of `std::sort`. -/
def Group.inOrder (order : RowSort) (g : Group) : Group := { g with constraints := order.sort g.constraints }

/-- `sortRows`: `std::sort` may compare any two of the rows, so that it is undefined where `operator>` reads
behind the entries of one of them. -/
def Group.sortRows (order : RowSort) (g : Group) : Option Group :=
  if g.constraints.all fun a => g.constraints.all fun b => (Entries.gt a.entries b.entries).isSome then
    some (g.inOrder order)
  else none

end Model

/-! ## Adding constraints -/

section Add

variable {g : Group} {con : Constraint} {cons before after : List Constraint} {i : ℤ}

theorem mem_insert {s : List ℤ} {i j : ℤ} :
    i ∈ OrderedSet.insert (fun a b => decide (a < b)) j s ↔ i = j ∨ i ∈ s := by
  by_cases h : ∃ k ∈ s, OrderedSet.same (fun a b : ℤ => decide (a < b)) j k = true
  · obtain ⟨k, hk, hsame⟩ := h
    have hjk : j = k := by
      simp only [OrderedSet.same, Bool.and_eq_true, Bool.not_eq_true', decide_eq_false_iff_not] at hsame
      omega
    rw [OrderedSet.insert_eq_self hk hsame, hjk]
    exact (or_iff_right_of_imp fun h => h ▸ hk).symm
  · have hnew : ∀ k ∈ s, OrderedSet.same (fun a b : ℤ => decide (a < b)) j k = false := fun k hk =>
      Bool.eq_false_iff.2 fun hs => h ⟨k, hk, hs⟩
    rw [(OrderedSet.insert_perm hnew).mem_iff, List.mem_cons]

theorem mem_insertAll {js s : List ℤ} :
    i ∈ js.foldl (fun s i => OrderedSet.insert (fun a b => decide (a < b)) i s) s ↔ i ∈ s ∨ i ∈ js := by
  induction js generalizing s with
  | nil => exact (or_iff_left (List.not_mem_nil)).symm
  | cons j js ih =>
    rw [List.foldl_cons, ih, mem_insert, List.mem_cons]
    tauto

namespace Group

/-- The indices are those of the constraints. -/
def Indexed (g : Group) : Prop := ∀ i, i ∈ g.indices ↔ ∃ con ∈ g.constraints, i ∈ con.parameters

theorem mem_add {d : Constraint} : d ∈ (g.add con).constraints ↔ d ∈ g.constraints ∨ d = con := by
  unfold add
  split_ifs with h
  · exact (or_iff_left_of_imp fun hd => hd ▸ h).symm
  · rw [List.mem_append, List.mem_singleton]

theorem Indexed.add (hg : g.Indexed) : (g.add con).Indexed := by
  intro i
  unfold Group.add
  split_ifs with h
  · exact hg i
  · rw [mem_insertAll, hg i]
    simp only [List.mem_append, List.mem_singleton]
    constructor
    · rintro (⟨d, hd, hi⟩ | hi)
      · exact ⟨d, .inl hd, hi⟩
      · exact ⟨con, .inr rfl, hi⟩
    · rintro ⟨d, hd | rfl, hi⟩
      · exact .inl ⟨d, hd, hi⟩
      · exact .inr hi

theorem nodup_add (hg : g.constraints.Nodup) : (g.add con).constraints.Nodup := by
  unfold add
  split_ifs with h
  · exact hg
  · refine List.nodup_append.2 ⟨hg, List.nodup_singleton con, ?_⟩
    rintro d hd e he rfl
    exact h (List.mem_singleton.1 he ▸ hd)

theorem mem_new {d : Constraint} : d ∈ (new con).constraints ↔ d = con := by
  rw [new, mem_add]
  exact or_iff_right List.not_mem_nil

theorem indexed_new : (new con).Indexed := by
  refine Indexed.add fun i => ?_
  exact iff_of_false List.not_mem_nil fun ⟨_, hd, _⟩ => nomatch hd

theorem nodup_new : (new con).constraints.Nodup := nodup_add List.nodup_nil

/-- **A constraint is connected if it shares a parameter with one of the group.** -/
theorem connected_iff (hg : g.Indexed) :
    g.connected con = true ↔ ∃ d ∈ g.constraints, Touches Constraint.parameters d con := by
  rw [connected, List.any_eq_true]
  constructor
  · rintro ⟨entry, hentry, hi⟩
    obtain ⟨d, hd, hid⟩ := (hg _).1 (of_decide_eq_true hi)
    exact ⟨d, hd, entry.1, hid, List.mem_map_of_mem hentry⟩
  · rintro ⟨d, hd, i, hid, hi⟩
    obtain ⟨entry, hentry, rfl⟩ := List.mem_map.1 hi
    exact ⟨entry, hentry, decide_eq_true ((hg _).2 ⟨d, hd, hid⟩)⟩

theorem touches_self : Touches Constraint.parameters con con := by
  obtain ⟨entry, hentry⟩ := List.exists_mem_of_ne_nil _ con.ne
  exact ⟨entry.1, List.mem_map_of_mem hentry, List.mem_map_of_mem hentry⟩

end Group

end Add

/-! ## The loop -/

section Loop

variable {g : Group} {con : Constraint} {cons rows before after : List Constraint}

namespace Group

/-- The loop never adds to the constraints that are left. -/
theorem addConnected_length : (g.addConnected before after).2.length ≤ before.length + after.length := by
  fun_induction addConnected g before after with
  | case1 g before => exact Nat.le_add_right _ _
  | case2 g before con after hcon ih =>
    refine ih.trans ?_
    simp only [List.length_nil, List.length_append, List.length_cons]
    omega
  | case3 g before con after hcon ih =>
    refine ih.trans ?_
    simp only [List.length_append, List.length_cons, List.length_nil]
    omega

/-- A group holds what it is made from: the loop moves that first. -/
theorem connected_new : (new con).connected con = true := by
  rw [connected_iff indexed_new]
  exact ⟨con, mem_new.2 rfl, touches_self⟩

theorem addConnectedConstraints_new :
    (new con).addConnectedConstraints (con :: cons) = ((new con).add con).addConnected [] cons := by
  rw [addConnectedConstraints, addConnected, if_pos connected_new, List.nil_append]

theorem left_length_lt : ((new con).addConnectedConstraints (con :: cons)).2.length < (con :: cons).length := by
  rw [addConnectedConstraints_new, List.length_cons]
  have hle := @addConnected_length ((new con).add con) [] cons
  rw [List.length_nil] at hle
  omega

/-- What the loop keeps: a group that grows, and no connected constraint before the iterator. -/
structure Collected (rows : List Constraint) (g : Group) (before after : List Constraint) : Prop where
  indexed : g.Indexed
  nodup : g.constraints.Nodup
  growing : Growing Constraint.parameters rows g.constraints (before ++ after)
  passed : ∀ c ∈ before, g.connected c = false

/-- **The loop keeps it up to the end.** -/
theorem addConnected_collected (h : Collected rows g before after) :
    Collected rows (g.addConnected before after).1 (g.addConnected before after).2 [] := by
  fun_induction addConnected g before after with
  | case1 g before => exact h
  | case2 g before con after hcon ih =>
    refine ih ⟨h.indexed.add, nodup_add h.nodup, ?_, fun c hc => nomatch hc⟩
    refine h.growing.absorb (fun d => mem_add) ?_ ((connected_iff h.indexed).1 hcon)
    intro d
    simp only [List.nil_append, List.mem_append, List.mem_cons]
    tauto
  | case3 g before con after hcon ih =>
    refine ih ⟨h.indexed, h.nodup, ?_, ?_⟩
    · rw [List.append_assoc, List.singleton_append]
      exact h.growing
    · intro c hc
      rcases List.mem_append.1 hc with hc | hc
      · exact h.passed c hc
      · rw [List.mem_singleton.1 hc]
        exact Bool.eq_false_iff.2 hcon

/-- The first constraint that is left has been moved once. -/
theorem collected_start : Collected (con :: cons) ((new con).add con) [] cons where
  indexed := indexed_new.add
  nodup := nodup_add nodup_new
  growing := by
    have hmem : ∀ d, d ∈ ((new con).add con).constraints ↔ d = con := by
      intro d
      rw [mem_add, mem_new, or_self]
    refine ⟨List.ne_nil_of_mem ((hmem con).2 rfl), fun d => ?_, ?_⟩
    · rw [hmem, List.nil_append, List.mem_cons]
    · rintro S - ⟨d, hd, hS⟩ e he
      rw [(hmem e).1 he, ← (hmem d).1 hd]
      exact hS
  passed := fun c hc => nomatch hc

/-- **A group and the constraints that are left**: a component, and what does not touch it. -/
theorem addConnectedConstraints_spec {r : Group × List Constraint}
    (hr : (new con).addConnectedConstraints (con :: cons) = r) :
    r.1.Indexed ∧ r.1.constraints.Nodup ∧ Component Constraint.parameters (con :: cons) r.1.constraints ∧
      (∀ c, c ∈ con :: cons ↔ c ∈ r.1.constraints ∨ c ∈ r.2) ∧
      ∀ c ∈ r.2, ∀ d ∈ r.1.constraints, ¬ Touches Constraint.parameters d c := by
  rw [addConnectedConstraints_new] at hr
  obtain ⟨hindexed, hnodup, hgrow, hpassed⟩ := hr ▸ addConnected_collected collected_start
  rw [List.append_nil] at hgrow
  have hdone : ∀ c ∈ r.2, ∀ d ∈ r.1.constraints, ¬ Touches Constraint.parameters d c := by
    intro c hc d hd htouch
    have hcon := (connected_iff hindexed).2 ⟨d, hd, htouch⟩
    rw [hpassed c hc] at hcon
    exact Bool.false_ne_true hcon
  exact ⟨hindexed, hnodup, hgrow.component hdone, hgrow.mem, hdone⟩

end Group

end Loop

/-! ## All groups -/

section Groups

variable (order : RowSort)

/-- `groupConnectedVariables`; `none` if the rows of a group cannot be sorted. -/
def groupConnectedVariables : List Constraint → Option (List Group)
  | [] => some []
  | con :: cons =>
    let r := (Group.new con).addConnectedConstraints (con :: cons)
    (r.1.sortRows order).bind fun g => (groupConnectedVariables r.2).map (g :: ·)
termination_by cons => cons.length
decreasing_by exact Group.left_length_lt

/-- The groups, where all rows can be sorted. -/
def connectedGroups : List Constraint → List Group
  | [] => []
  | con :: cons =>
    let r := (Group.new con).addConnectedConstraints (con :: cons)
    r.1.inOrder order :: connectedGroups r.2
termination_by cons => cons.length
decreasing_by exact Group.left_length_lt

/-- A component of the constraints, each of them once, with its parameters. -/
structure Group.Of (cons : List Constraint) (g : Group) : Prop where
  component : Component Constraint.parameters cons g.constraints
  nodup : g.constraints.Nodup
  indexed : g.Indexed

variable {order} {cons : List Constraint} {g h : Group}

theorem mem_inOrder {c : Constraint} : c ∈ (g.inOrder order).constraints ↔ c ∈ g.constraints :=
  (order.perm g.constraints).mem_iff

theorem Group.Indexed.inOrder (hg : g.Indexed) : (g.inOrder order).Indexed := by
  intro i
  rw [show (g.inOrder order).indices = g.indices from rfl, hg i]
  exact exists_congr fun c => and_congr_left fun _ => mem_inOrder.symm

/-- **Each group is a component.** -/
theorem groups_of : ∀ g ∈ connectedGroups order cons, g.Of cons := by
  fun_induction connectedGroups order cons with
  | case1 => exact fun g hg => nomatch hg
  | case2 con cons r ih =>
    obtain ⟨hindexed, hnodup, hcomponent, hmem, hdone⟩ := @Group.addConnectedConstraints_spec con cons r rfl
    intro g hg
    rcases List.mem_cons.1 hg with rfl | hg
    · exact ⟨hcomponent.congr fun c => mem_inOrder, (order.perm _).nodup_iff.2 hnodup, hindexed.inOrder⟩
    · have h := ih g hg
      exact ⟨h.component.of_rest hmem hdone, h.nodup, h.indexed⟩

/-- Each constraint is in a group. -/
theorem mem_groups {c : Constraint} :
    c ∈ cons ↔ ∃ g ∈ connectedGroups order cons, c ∈ g.constraints := by
  fun_induction connectedGroups order cons with
  | case1 => exact iff_of_false List.not_mem_nil fun ⟨_, hg, _⟩ => nomatch hg
  | case2 con cons r ih =>
    obtain ⟨-, -, -, hmem, -⟩ := @Group.addConnectedConstraints_spec con cons r rfl
    rw [hmem, ih]
    constructor
    · rintro (hc | ⟨g, hg, hc⟩)
      · exact ⟨r.1.inOrder order, List.mem_cons_self, mem_inOrder.2 hc⟩
      · exact ⟨g, List.mem_cons_of_mem _ hg, hc⟩
    · rintro ⟨g, hg, hc⟩
      rcases List.mem_cons.1 hg with rfl | hg
      · exact .inl (mem_inOrder.1 hc)
      · exact .inr ⟨g, hg, hc⟩

/-- **Different groups have no parameter in common.** -/
theorem groups_disjoint :
    (connectedGroups order cons).Pairwise fun g h => ∀ i ∈ g.indices, i ∉ h.indices := by
  fun_induction connectedGroups order cons with
  | case1 => exact List.Pairwise.nil
  | case2 con cons r ih =>
    obtain ⟨hindexed, -, -, -, hdone⟩ := @Group.addConnectedConstraints_spec con cons r rfl
    refine List.pairwise_cons.2 ⟨fun h hh i hi hih => ?_, ih⟩
    have hof := groups_of h hh
    obtain ⟨c, hc, hic⟩ := (hindexed i).1 hi
    obtain ⟨d, hd, hid⟩ := (hof.indexed i).1 hih
    exact hdone d (hof.component.subset hd) c hc ⟨i, hic, hid⟩

/-- A constraint of two groups would have its parameters in both. -/
theorem not_mem_of_disjoint (hg : g.Of cons) (hh : h.Of cons) (hdisj : ∀ i ∈ g.indices, i ∉ h.indices)
    {c : Constraint} (hc : c ∈ g.constraints) : c ∉ h.constraints := by
  intro hch
  obtain ⟨entry, hentry⟩ := List.exists_mem_of_ne_nil _ c.ne
  have hi : entry.1 ∈ c.parameters := List.mem_map_of_mem hentry
  exact hdisj _ ((hg.indexed _).2 ⟨c, hc, hi⟩) ((hh.indexed _).2 ⟨c, hch, hi⟩)

/-- **What the groups should be**: the connected components of the constraints. -/
structure Components (cons : List Constraint) (groups : List Group) : Prop where
  covers : ∀ c ∈ cons, ∃! k : Fin groups.length, c ∈ (groups.get k).constraints
  subset : ∀ g ∈ groups, g.constraints ⊆ cons ∧ g.constraints.Nodup
  closed : ∀ g ∈ groups, ∀ c ∈ g.constraints, ∀ d ∈ cons, Touches Constraint.parameters c d → d ∈ g.constraints
  chain : ∀ g ∈ groups, ∀ c ∈ g.constraints, ∀ d ∈ g.constraints, Relation.ReflTransGen
    (fun a b => b ∈ g.constraints ∧ Touches Constraint.parameters a b) c d
  indexed : ∀ g ∈ groups, g.Indexed
  disjoint : groups.Pairwise fun g h => ∀ i ∈ g.indices, i ∉ h.indices

theorem components_connectedGroups (order : RowSort) (cons : List Constraint) :
    Components cons (connectedGroups order cons) := by
  have hof : ∀ g ∈ connectedGroups order cons, g.Of cons := groups_of
  have hdisj := @groups_disjoint order cons
  refine ⟨fun c hc => ?_, fun g hg => ⟨(hof g hg).component.subset, (hof g hg).nodup⟩, fun g hg c hc d hd htouch =>
    (hof g hg).component.closed c ((hof g hg).component.subset hc) hc d hd htouch, fun g hg c hc d hd =>
    (hof g hg).component.chain hc d hd, fun g hg => (hof g hg).indexed, hdisj⟩
  obtain ⟨g, hg, hcg⟩ := mem_groups.1 hc
  obtain ⟨k, rfl⟩ := List.get_of_mem hg
  refine ⟨k, hcg, fun l hl => ?_⟩
  by_contra hne
  rcases lt_or_gt_of_ne (fun h => hne (Fin.ext h) : (l : ℕ) ≠ k) with hlt | hlt
  · exact not_mem_of_disjoint (hof _ (List.get_mem _ _)) (hof _ hg)
      (List.pairwise_iff_get.1 hdisj l k hlt) hl hcg
  · exact not_mem_of_disjoint (hof _ hg) (hof _ (List.get_mem _ _))
      (List.pairwise_iff_get.1 hdisj k l hlt) hcg hl

end Groups

/-! ## Sorting the rows -/

section Sorting

variable {order : RowSort} {con c d : Constraint} {cons as bs : List Constraint} {g : Group}

/-- The entries of the constraints. -/
def entrySet (cons : List Constraint) : Set Entries := {e | ∃ con ∈ cons, con.entries = e}

/-- **The rows of a group can be sorted** exactly if none has the columns of another one and more. -/
theorem sortRows_eq (order : RowSort) (g : Group) [Decidable (Entries.PrefixFree (entrySet g.constraints))] :
    g.sortRows order = if Entries.PrefixFree (entrySet g.constraints) then some (g.inOrder order) else none := by
  have hall : (g.constraints.all fun a => g.constraints.all fun b => (Entries.gt a.entries b.entries).isSome) = true ↔
      Entries.PrefixFree (entrySet g.constraints) := by
    rw [← Entries.reads_iff, List.all_eq_true]
    constructor
    · rintro h _ ⟨a, ha, rfl⟩ _ ⟨b, hb, rfl⟩
      exact List.all_eq_true.1 (h a ha) b hb
    · intro h a ha
      exact List.all_eq_true.2 fun b hb => h _ ⟨a, ha, rfl⟩ _ ⟨b, hb, rfl⟩
  rw [Group.sortRows]
  exact if_congr hall rfl rfl

/-- A constraint touches one that has its columns and more behind them. -/
theorem touches_of_prefix (h : Entries.columns c.entries <+: Entries.columns d.entries) :
    Touches Constraint.parameters c d := by
  obtain ⟨entry, hentry⟩ := List.exists_mem_of_ne_nil _ c.ne
  have hi : entry.1 ∈ c.parameters := List.mem_map_of_mem hentry
  exact ⟨entry.1, hi, h.subset hi⟩

/-- Constraints can be sorted if those of two parts that do not touch can. -/
theorem prefixFree_parts (hmem : ∀ c, c ∈ cons ↔ c ∈ as ∨ c ∈ bs)
    (hdone : ∀ c ∈ bs, ∀ d ∈ as, ¬ Touches Constraint.parameters d c) :
    Entries.PrefixFree (entrySet cons) ↔ Entries.PrefixFree (entrySet as) ∧ Entries.PrefixFree (entrySet bs) := by
  constructor
  · intro h
    constructor
    · rintro _ ⟨a, ha, rfl⟩ _ ⟨b, hb, rfl⟩
      exact h _ ⟨a, (hmem a).2 (.inl ha), rfl⟩ _ ⟨b, (hmem b).2 (.inl hb), rfl⟩
    · rintro _ ⟨a, ha, rfl⟩ _ ⟨b, hb, rfl⟩
      exact h _ ⟨a, (hmem a).2 (.inr ha), rfl⟩ _ ⟨b, (hmem b).2 (.inr hb), rfl⟩
  · rintro ⟨has, hbs⟩ _ ⟨a, ha, rfl⟩ _ ⟨b, hb, rfl⟩ hpart
    have htouch := touches_of_prefix hpart
    have hback : Touches Constraint.parameters b a := by
      obtain ⟨i, hia, hib⟩ := htouch
      exact ⟨i, hib, hia⟩
    rcases (hmem a).1 ha with ha | ha <;> rcases (hmem b).1 hb with hb | hb
    · exact has _ ⟨a, ha, rfl⟩ _ ⟨b, hb, rfl⟩ hpart
    · exact absurd htouch (hdone b hb a ha)
    · exact absurd hback (hdone a ha b hb)
    · exact hbs _ ⟨a, ha, rfl⟩ _ ⟨b, hb, rfl⟩ hpart

open Classical in
/-- **What `groupConnectedVariables` comes to.** -/
theorem groupConnectedVariables_eq (order : RowSort) (cons : List Constraint) : groupConnectedVariables order cons =
    if Entries.PrefixFree (entrySet cons) then some (connectedGroups order cons) else none := by
  fun_induction groupConnectedVariables order cons with
  | case1 =>
    rw [connectedGroups, if_pos]
    rintro _ ⟨c, hc, -⟩
    exact absurd hc List.not_mem_nil
  | case2 con cons r ih =>
    obtain ⟨-, -, -, hmem, hdone⟩ := @Group.addConnectedConstraints_spec con cons r rfl
    rw [connectedGroups, ih, sortRows_eq, if_congr (prefixFree_parts hmem hdone) rfl rfl]
    by_cases hgroup : Entries.PrefixFree (entrySet r.1.constraints)
    · by_cases hrest : Entries.PrefixFree (entrySet r.2)
      · rw [if_pos hgroup, if_pos hrest, if_pos ⟨hgroup, hrest⟩]
        rfl
      · rw [if_pos hgroup, if_neg hrest, if_neg fun h : _ ∧ _ => hrest h.2]
        rfl
    · rw [if_neg hgroup, if_neg fun h : _ ∧ _ => hgroup h.1]
      rfl

/-- **The groups are the connected components of the constraints**, exactly if no constraint has the columns of
another one and more behind them. -/
theorem groups_components_iff (order : RowSort) (cons : List Constraint) :
    (∃ groups, groupConnectedVariables order cons = some groups ∧ Components cons groups) ↔
      Entries.PrefixFree (entrySet cons) := by
  classical
  rw [groupConnectedVariables_eq]
  constructor
  · rintro ⟨groups, h, -⟩
    by_contra hfree
    rw [if_neg hfree] at h
    exact absurd h.symm (Option.some_ne_none groups)
  · intro hfree
    exact ⟨_, if_pos hfree, components_connectedGroups order cons⟩

/-- The constraints on the tilt of two channels with one image each, of one wavefront: the sum of the tilts of the
first channel, and the two tilts are the same. -/
def oneImageEach : List Constraint :=
  [⟨0, [(0, 1)], List.cons_ne_nil _ _⟩, ⟨1, [(0, 1), (1, -1)], List.cons_ne_nil _ _⟩]

/-- The second row is read behind the first one. -/
theorem oneImageEach_not_sorted : ¬ ∀ (order : RowSort) (cons : List Constraint),
    ∃ groups, groupConnectedVariables order cons = some groups ∧ Components cons groups := by
  intro h
  obtain ⟨groups, heq, -⟩ := h ⟨id, fun _ => .refl _⟩ oneImageEach
  classical
  rw [groupConnectedVariables_eq, if_neg] at heq
  · exact absurd heq.symm (Option.some_ne_none groups)
  · intro hfree
    have hcolumns := hfree [(0, 1)] ⟨_, List.mem_cons_self, rfl⟩ [(0, 1), (1, -1)]
      ⟨_, List.mem_cons_of_mem _ List.mem_cons_self, rfl⟩ (by decide)
    exact absurd hcolumns (by decide)

end Sorting

end Redux.Momfbd.Constraints
