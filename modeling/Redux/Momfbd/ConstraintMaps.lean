import Mathlib.Data.Int.Interval
import Mathlib.Data.List.Sort
import Redux.Lib.SparseMatrix
import Redux.Momfbd.NullMatrixValid

/-!
# Momfbd.ConstraintMaps — between the parameters and the free parameters

The solver works on free parameters: `reverseAndAdd` makes the parameters from them, and `apply` the gradient.  It
starts only if the matrix has an entry in every row and column, which it has if there is a free parameter
(`init_accepts_iff`); the loops over `ns_rows` add what `reverse` adds, once for each call of `makeRowsCols`
(`reverseConstraints_eq`).  The numbers are exact.
-/

namespace Redux.Momfbd.Constraints

open Redux.Lib SparseMatrix

/-! ## Model -/

section Model

/-- `memset( out, 0, n*sizeof(T) )`. -/
def memset (out : ℤ → ℚ) (n : ℤ) : ℤ → ℚ := fun i => if 0 ≤ i ∧ i < n then 0 else out i

/-- `memcpy( out, in, n*sizeof(T) )`. -/
def memcpy (out input : ℤ → ℚ) (n : ℤ) : ℤ → ℚ := fun i => if 0 ≤ i ∧ i < n then input i else out i

/-- The order of `map<PointI, double>`. -/
def NsEntries.inOrder (entries : NsEntries) : NsEntries :=
  entries.insertionSort fun a b => a.1.1 < b.1.1 ∨ a.1.1 = b.1.1 ∧ a.1.2 ≤ b.1.2

/-- `makeRowsCols`: the indices are not negative, so that they stay what they are. -/
structure RowsCols where
  ns_rows : Buckets ℤ (ℤ × ℚ)
  ns_cols : Buckets ℤ (ℤ × ℚ)

def RowsCols.none : RowsCols := ⟨∅, ∅⟩

def makeRowsCols (entries : NsEntries) (s : RowsCols) : RowsCols :=
  entries.foldl (fun s entry =>
    ⟨pushBack s.ns_rows (entry.1.1, (entry.1.2, entry.2)), pushBack s.ns_cols (entry.1.2, (entry.1.1, entry.2))⟩) s

/-- `applyConstraints` and `reverseConstraints`, where the tasks are run in the order of `keys`. -/
def addBuckets (m : Buckets ℤ (ℤ × ℚ)) (keys : List ℤ) (input out : ℤ → ℚ) : ℤ → ℚ :=
  addTo out (bucketTerms (fun e => e.2 * input e.1) m keys)

namespace MomfbdJob

variable (job : MomfbdJob) (order : RowSort) (ns : Labels → List ℚ)

/-- `Constraints::apply`. -/
def apply (input out : ℤ → ℚ) : ℤ → ℚ :=
  addTo (memset out job.nFreeParameters) (columnTerms (job.ns_entries order ns).inOrder input)

/-- `Constraints::reverse`. -/
def reverse (input out : ℤ → ℚ) : ℤ → ℚ :=
  addTo (memset out job.nParameters) (rowTerms (job.ns_entries order ns).inOrder input)

def reverseAndAdd (input offset out : ℤ → ℚ) : ℤ → ℚ :=
  addTo (memcpy out offset job.nParameters) (rowTerms (job.ns_entries order ns).inOrder input)

/-- `Solver::init` does not find the set corrupt. -/
def initAccepts (s : RowsCols) : Prop :=
  s.ns_rows.keys.length = job.nParameters ∧ (s.ns_cols.keys.length : ℤ) = job.nFreeParameters ∧
    (job.ns_entries order ns).inOrder ≠ []

/-- `makeRowsCols`, called by one solver after the other. -/
def rowsCols (n : ℕ) : RowsCols := (makeRowsCols (job.ns_entries order ns).inOrder)^[n] .none

end MomfbdJob

end Model

/-! ## Entries -/

section Keys

variable {entries added : NsEntries} {key : ℤ × ℤ}

namespace NsEntries

theorem inOrder_perm (entries : NsEntries) : entries.inOrder.Perm entries := List.perm_insertionSort _ _

theorem mem_keys_iff_find? : key ∈ entries.map Prod.fst ↔ (entries.find? (·.1 = key)).isSome := by
  rw [List.find?_isSome]
  constructor
  · intro h
    obtain ⟨e, he, rfl⟩ := List.mem_map.1 h
    exact ⟨e, he, decide_eq_true rfl⟩
  · rintro ⟨e, he, hkey⟩
    exact List.mem_map.2 ⟨e, he, of_decide_eq_true hkey⟩

theorem mem_keys_foldl : key ∈ (added.foldl insert entries).map Prod.fst ↔ key ∈ (entries ++ added).map Prod.fst := by
  rw [mem_keys_iff_find?, mem_keys_iff_find?, find?_foldl]

theorem nodup_insert (h : (entries.map Prod.fst).Nodup) (entry : (ℤ × ℤ) × ℚ) :
    ((entries.insert entry).map Prod.fst).Nodup := by
  unfold insert
  split_ifs with hany
  · exact h
  · rw [List.map_append, List.map_singleton, List.nodup_append]
    refine ⟨h, List.nodup_singleton _, fun a ha b hb heq => hany ?_⟩
    obtain ⟨e, he, rfl⟩ := List.mem_map.1 ha
    rw [List.mem_singleton] at hb
    exact List.any_eq_true.2 ⟨e, he, decide_eq_true (heq.trans hb)⟩

theorem nodup_foldl (h : (entries.map Prod.fst).Nodup) : ((added.foldl insert entries).map Prod.fst).Nodup := by
  induction added generalizing entries with
  | nil => exact h
  | cons entry added ih => exact ih (nodup_insert h entry)

end NsEntries

end Keys

section Job

variable {job : MomfbdJob} {order : RowSort} {ns : Labels → List ℚ} {y x : ℤ} {key : ℤ × ℤ}

namespace MomfbdJob

theorem keys_nodup (hns : ∀ b ∈ job.blocks order, b.labels.Correct significant (ns b.labels)) :
    ((job.ns_entries order ns).map Prod.fst).Nodup := by
  rw [ns_entries_eq hns]
  exact NsEntries.nodup_foldl (NsEntries.nodup_foldl List.nodup_nil)

theorem mem_keys (hns : ∀ b ∈ job.blocks order, b.labels.Correct significant (ns b.labels)) :
    key ∈ (job.ns_entries order ns).map Prod.fst ↔
      key ∈ (job.used order ns).map Prod.fst ∨ key ∈ (job.unused1 order).zip (job.unused2 order) := by
  rw [ns_entries_eq hns, NsEntries.mem_keys_foldl, List.map_append, List.mem_append, NsEntries.mem_keys_foldl,
    List.nil_append, List.map_map]
  simp [Function.comp_def]

theorem mem_unused1 : y ∈ job.unused1 order ↔ (0 ≤ y ∧ y < job.nParameters) ∧
    y ∉ (job.groups order).flatMap Group.indices := by
  rw [unused1, List.mem_filter, mem_range_map, decide_eq_true_iff]

theorem mem_unused2 : x ∈ job.unused2 order ↔ (0 ≤ x ∧ x < job.nFreeParameters) ∧ ¬(0 ≤ x ∧ x < job.nCols order) := by
  have hfree := job.nFreeParameters_eq order
  rw [unused2, List.mem_filter, mem_range_map, decide_eq_true_iff, mem_range_map]
  omega

/-- **The rows of the matrix are the parameters.** -/
theorem mem_rows (hns : ∀ b ∈ job.blocks order, b.labels.Correct significant (ns b.labels)) :
    (∃ x, (y, x) ∈ (job.ns_entries order ns).map Prod.fst) ↔ 0 ≤ y ∧ y < job.nParameters := by
  have hused : (∃ x, (y, x) ∈ (job.used order ns).map Prod.fst) ↔ y ∈ (job.groups order).flatMap Group.indices := by
    rw [← mem_used_rows hns]
    simp
  simp only [mem_keys hns, exists_or]
  rw [hused]
  constructor
  · rintro (hy | ⟨x, hzip⟩)
    · obtain ⟨g, hg, hyg⟩ := List.mem_flatMap.1 hy
      exact indices_lt hg hyg
    · exact (mem_unused1.1 (List.of_mem_zip hzip).1).1
  · intro hy
    by_cases hmem : y ∈ (job.groups order).flatMap Group.indices
    · exact .inl hmem
    · exact .inr (exists_partner (mem_unused1.2 ⟨hy, hmem⟩))

/-- The columns of the groups' entries; a group without freedom has the first one. -/
theorem used_column (hns : ∀ b ∈ job.blocks order, b.labels.Correct significant (ns b.labels))
    (h : (y, x) ∈ (job.used order ns).map Prod.fst) : x = 0 ∨ 0 ≤ x ∧ x < job.nCols order := by
  obtain ⟨entry, hentry, hkey⟩ := List.mem_map.1 h
  obtain ⟨b, hb, hentry⟩ := List.mem_flatMap.1 hentry
  have hgood := good (hns b hb) hb
  rcases Nat.eq_zero_or_pos b.nCols with hnone | hsome
  · obtain ⟨j, -, rfl⟩ := (hgood.mem_used_none hnone).1 hentry
    exact .inl (Prod.mk.inj hkey).2.symm
  · obtain ⟨j, -, k, hk, rfl, -⟩ := (hgood.mem_used (x_nonneg hb) hsome).1 hentry
    obtain rfl := (Prod.mk.inj hkey).2
    exact .inr ((mem_window _).1 ⟨b, hb, by omega, by omega⟩)

/-- **The columns of the matrix are the free parameters**, if there is one. -/
theorem mem_columns (hns : ∀ b ∈ job.blocks order, b.labels.Correct significant (ns b.labels))
    (hfree : 0 < job.nFreeParameters) :
    (∃ y, (y, x) ∈ (job.ns_entries order ns).map Prod.fst) ↔ 0 ≤ x ∧ x < job.nFreeParameters := by
  have hcount := job.nFreeParameters_eq order
  simp only [mem_keys hns, exists_or]
  constructor
  · rintro (⟨y, hused⟩ | ⟨y, hzip⟩)
    · have hcolumn := used_column hns hused
      omega
    · exact (mem_unused2.1 (List.of_mem_zip hzip).2).1
  · intro hx
    by_cases hcol : 0 ≤ x ∧ x < job.nCols order
    · obtain ⟨b, hb, hwindow⟩ := (mem_window x).2 hcol
      have hgood := good (hns b hb) hb
      have hk : (x - b.x).toNat < b.nCols := by omega
      obtain ⟨j, hj, hne⟩ := exists_row_ne_zero hgood (Nat.zero_lt_of_lt hk) hk
      refine .inl ⟨b.group.columns.getD j 0, List.mem_map.2 ⟨_, List.mem_flatMap.2 ⟨b, hb,
        (hgood.mem_used (x_nonneg hb) (Nat.zero_lt_of_lt hk)).2 ⟨j, hj, _, hk, rfl, hne⟩⟩, ?_⟩⟩
      rw [show b.x + ((x - b.x).toNat : ℤ) = x by omega]
    · exact .inr (exists_partner' (mem_unused2.2 ⟨hx, hcol⟩))

end MomfbdJob

end Job

/-! ## Rows and columns -/

section RowsAndColumns

variable {job : MomfbdJob} {order : RowSort} {ns : Labels → List ℚ} {entries : NsEntries} {n : ℕ} {i : ℤ}

/-- The items of `ns_rows` and of `ns_cols`. -/
def rowItems (entries : NsEntries) : List (ℤ × ℤ × ℚ) := entries.map fun entry => (entry.1.1, entry.1.2, entry.2)

def columnItems (entries : NsEntries) : List (ℤ × ℤ × ℚ) := entries.map fun entry => (entry.1.2, entry.1.1, entry.2)

theorem makeRowsCols_eq (s : RowsCols) : makeRowsCols entries s =
    ⟨(rowItems entries).foldl pushBack s.ns_rows, (columnItems entries).foldl pushBack s.ns_cols⟩ := by
  induction entries generalizing s with
  | nil => rfl
  | cons entry entries ih => exact ih _

/-- **After so many calls, as many copies of the items.** -/
theorem iterate_makeRowsCols (n : ℕ) : (makeRowsCols entries)^[n] .none =
    ⟨(List.replicate n (rowItems entries)).flatten.foldl pushBack ∅,
      (List.replicate n (columnItems entries)).flatten.foldl pushBack ∅⟩ := by
  induction n with
  | zero => rfl
  | succ n ih =>
    rw [Function.iterate_succ_apply', ih, makeRowsCols_eq, List.replicate_succ', List.replicate_succ',
      List.flatten_append, List.flatten_append, List.foldl_append, List.foldl_append, List.flatten_singleton,
      List.flatten_singleton]

theorem mem_flatten_replicate {α : Type*} {l : List α} {a : α} :
    a ∈ (List.replicate (n + 1) l).flatten ↔ a ∈ l := by
  simp

/-- The number of buckets, however often they are filled. -/
theorem length_buckets {items : List (ℤ × ℤ × ℚ)} {k : ℕ} (h : ∀ i, i ∈ items.map Prod.fst ↔ 0 ≤ i ∧ i < k) :
    (((List.replicate (n + 1) items).flatten.foldl pushBack ∅ : Buckets ℤ (ℤ × ℚ)).keys).length = k := by
  rw [length_keys ((Finset.range k).map Nat.castEmbedding), Finset.card_map, Finset.card_range]
  intro i
  rw [mem_foldl_pushBack, Finset.mem_map]
  have hempty : i ∉ (∅ : Buckets ℤ (ℤ × ℚ)) := AList.notMem_empty i
  have hitems : i ∈ (List.replicate (n + 1) items).flatten.map Prod.fst ↔ i ∈ items.map Prod.fst := by
    rw [List.mem_map, List.mem_map]
    simp only [mem_flatten_replicate]
  rw [hitems, h, or_iff_right hempty]
  constructor
  · rintro ⟨h0, hk⟩
    exact ⟨i.toNat, Finset.mem_range.2 (by omega), by simp [h0]⟩
  · rintro ⟨j, hj, rfl⟩
    have hlt := Finset.mem_range.1 hj
    exact ⟨Int.natCast_nonneg j, Int.ofNat_lt.2 hlt⟩

namespace MomfbdJob

/-- The keys in the order of the map. -/
theorem mem_inOrder {key : ℤ × ℤ} : key ∈ (job.ns_entries order ns).inOrder.map Prod.fst ↔
    key ∈ (job.ns_entries order ns).map Prod.fst :=
  ((NsEntries.inOrder_perm _).map _).mem_iff

theorem mem_rowItems : i ∈ (rowItems (job.ns_entries order ns).inOrder).map Prod.fst ↔
    ∃ x, (i, x) ∈ (job.ns_entries order ns).map Prod.fst := by
  simp [rowItems, (NsEntries.inOrder_perm _).mem_iff]

theorem mem_columnItems : i ∈ (columnItems (job.ns_entries order ns).inOrder).map Prod.fst ↔
    ∃ y, (y, i) ∈ (job.ns_entries order ns).map Prod.fst := by
  simp [columnItems, (NsEntries.inOrder_perm _).mem_iff]

/-- **When a solver starts**: if the rows can be sorted and the groups have the right nullspaces, the matrix has an
entry in every row and column, for this solver and any before it, just if there is a free parameter. -/
theorem init_accepts_iff (job : MomfbdJob) (order : RowSort) (ns : Labels → List ℚ) (hrows : job.Sortable)
    (hns : ∀ b ∈ job.blocks order, b.labels.Correct significant (ns b.labels)) (n : ℕ) :
    job.init order ns = some (job.ns_entries order ns) ∧
      (job.initAccepts order ns (job.rowsCols order ns (n + 1)) ↔ 0 < job.nFreeParameters) := by
  refine ⟨job.init_eq order ns hrows, ?_⟩
  have hcount := job.nFreeParameters_eq order
  rw [initAccepts, rowsCols, iterate_makeRowsCols]
  constructor
  · rintro ⟨-, hcolumns, hentries⟩
    by_contra hnone
    -- an entry is in some column
    obtain ⟨entry, hentry⟩ := List.exists_mem_of_ne_nil _ hentries
    have hmem : entry.1.2 ∈ (columnItems (job.ns_entries order ns).inOrder).map Prod.fst :=
      List.mem_map.2 ⟨_, List.mem_map_of_mem hentry, rfl⟩
    have hkey : entry.1.2 ∈ (List.replicate (n + 1) (columnItems (job.ns_entries order ns).inOrder)).flatten.map
        Prod.fst := by
      obtain ⟨item, hitem, heq⟩ := List.mem_map.1 hmem
      exact List.mem_map.2 ⟨item, mem_flatten_replicate.2 hitem, heq⟩
    have hbucket := (mem_foldl_pushBack (m := ∅)).2 (.inr hkey)
    rw [AList.mem_keys] at hbucket
    have hpos := List.length_pos_of_mem hbucket
    dsimp only at hcolumns
    omega
  · intro hfree
    have hrows := length_buckets (n := n) (k := job.nParameters) fun i => mem_rowItems.trans (mem_rows hns)
    have hcolumns := length_buckets (n := n) (k := job.nFreeParameters.toNat)
      fun i => mem_columnItems.trans ((mem_columns hns hfree).trans (by rw [Int.toNat_of_nonneg hfree.le]))
    refine ⟨hrows, ?_, fun hnil => ?_⟩
    · dsimp only
      rw [hcolumns, Int.toNat_of_nonneg hfree.le]
    · obtain ⟨y, hy⟩ := (mem_columns hns hfree).2 ⟨le_rfl, hfree⟩
      rw [← mem_inOrder, hnil] at hy
      exact absurd hy List.not_mem_nil

/-- A task for each row adds what the rows have, in any order of the tasks. -/
theorem addBuckets_eq {items : List (ℤ × ℤ × ℚ)} {keys : List ℤ} (input out : ℤ → ℚ)
    (hkeys : keys.Perm ((List.replicate n items).flatten.foldl pushBack ∅ : Buckets ℤ (ℤ × ℚ)).keys) :
    addBuckets ((List.replicate n items).flatten.foldl pushBack ∅) keys input out = fun i =>
      out i + n * total (items.map fun item => (item.1, item.2.2 * input item.2.1)) i := by
  have hbuckets := addTo_buckets (f := fun e => e.2 * input e.1) hkeys out fun i => at_foldl
  rw [addBuckets, hbuckets]
  ext i
  rw [addTo_apply]
  congr 1
  clear hkeys hbuckets
  induction n with
  | zero => simp [total]
  | succ n ih =>
    rw [List.replicate_succ, List.flatten_cons, List.map_append, total_append, ih, Nat.cast_succ]
    ring

/-- **The loops over `ns_cols` and `ns_rows`**, whatever the order of their tasks: they add what `apply` and
`reverse` give, once for each solver that there was, in exact arithmetic. -/
theorem reverseConstraints_eq (job : MomfbdJob) (order : RowSort) (ns : Labels → List ℚ) (n : ℕ)
    (keys columnKeys : List ℤ) (input out : ℤ → ℚ) (hkeys : keys.Perm (job.rowsCols order ns n).ns_rows.keys)
    (hcolumnKeys : columnKeys.Perm (job.rowsCols order ns n).ns_cols.keys) :
    addBuckets (job.rowsCols order ns n).ns_rows keys input out =
        (fun i => out i + n * job.reverse order ns input 0 i) ∧
      addBuckets (job.rowsCols order ns n).ns_cols columnKeys input out =
        (fun i => out i + n * job.apply order ns input 0 i) := by
  have hzero : ∀ k, memset 0 k = 0 := by
    intro k
    ext i
    simp [memset]
  rw [rowsCols, iterate_makeRowsCols] at hkeys hcolumnKeys ⊢
  dsimp only at hkeys hcolumnKeys ⊢
  rw [addBuckets_eq input out hkeys, addBuckets_eq input out hcolumnKeys, rowItems, columnItems, List.map_map,
    List.map_map, reverse, apply, hzero, hzero]
  refine ⟨?_, ?_⟩
  · ext i
    rw [addTo_apply, Pi.zero_apply, zero_add]
    rfl
  · ext i
    rw [addTo_apply, Pi.zero_apply, zero_add]
    rfl

end MomfbdJob

end RowsAndColumns

/-! ## Four channels, and two images -/

theorem init_accepts_fourChannels :
    fourChannels.init .none Labels.numbers = some (fourChannels.ns_entries .none Labels.numbers) ∧
      fourChannels.initAccepts .none Labels.numbers (fourChannels.rowsCols .none Labels.numbers 1) := by
  have h := MomfbdJob.init_accepts_iff fourChannels .none Labels.numbers fourChannels_sortable fourChannels_correct 0
  exact ⟨h.1, h.2.2 (by decide)⟩

/-- The second solver adds everything twice. -/
theorem reverseConstraints_twice : let s := twoImages.rowsCols .none (fun _ => [1, -1]) 2
    addBuckets s.ns_rows s.ns_rows.keys.reverse 1 0 =
        (fun i => 0 + (2 : ℕ) * twoImages.reverse .none (fun _ => [1, -1]) 1 0 i) ∧
      addBuckets s.ns_cols s.ns_cols.keys 1 0 =
        (fun i => 0 + (2 : ℕ) * twoImages.apply .none (fun _ => [1, -1]) 1 0 i) :=
  MomfbdJob.reverseConstraints_eq twoImages .none (fun _ => [1, -1]) 2 _ _ 1 0 (List.reverse_perm _) (.refl _)

end Redux.Momfbd.Constraints
