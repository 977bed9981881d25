import Mathlib.LinearAlgebra.LinearIndependent.Lemmas
import Redux.Momfbd.Blockify

/-!
# Momfbd.NullMatrix — the nullspace of all constraints, put together from those of the groups

`blockifyGroups` puts the nullspaces of the groups side by side, maps their rows back to the parameters, and
gives each parameter that is left a column of its own.  If the nullspace of each group is a basis, what is put
together is one of the whole job (`nullMatrix_valid`).  Numbers up to `NS_THRESHOLD` are dropped, so that it
is the basis without them that counts.
-/

namespace Redux.Momfbd.Constraints

open Redux.Lib

/-! ## Model -/

/-- Above `NS_THRESHOLD`. -/
def significant (value : ℚ) : Bool := decide (1 / 10 ^ 10 < |value|)

/-- A group with its `groupOffset`, the row and the column. -/
structure Block where
  group : Group
  y : ℤ
  x : ℤ

namespace Block

variable (b : Block)

def labels : Labels := b.group.labels b.y

/-- `mapNullspace` of a group, where `ns` has the numbers of its nullspace. -/
def mapNullspace (ns : Labels → List ℚ) : List ((ℤ × ℤ) × ℚ) :=
  if b.labels.nParameters > b.labels.nConstraints then
    (NullSpace.mappedEntries significant b.labels.nFree (ns b.labels)).map fun entry =>
      ((entry.1.1 + b.y, entry.1.2 + b.x), entry.2)
  else if b.labels.nParameters = b.labels.nConstraints then
    (List.range b.group.indices.length).map fun (i : ℕ) => ((b.y + i, -1), 0)
  else []

/-- `columnOrdering`, where `blockify` has written the columns of the group. -/
def columnOrdering (order : ℤ → ℤ) : ℤ → ℤ :=
  b.group.columns.zipIdx.foldl (fun order column => Function.update order (b.y + column.2) column.1) order

end Block

/-- `blockify` of one group after the other. -/
def blockify : ℤ → ℤ → List Group → List Block
  | _, _, [] => []
  | rOffset, cOffset, g :: groups =>
    ⟨g, rOffset, cOffset⟩ ::
      blockify (rOffset + g.indices.length) (cOffset + (g.indices.length - g.constraints.length)) groups

/-- `map<PointI, double>`. -/
abbrev NsEntries := List ((ℤ × ℤ) × ℚ)

namespace NsEntries

/-- `insert( entry )`, which leaves alone an entry that is there. -/
def insert (entries : NsEntries) (entry : (ℤ × ℤ) × ℚ) : NsEntries :=
  if entries.any (·.1 = entry.1) then entries else entries ++ [entry]

def get (entries : NsEntries) (y x : ℤ) : ℚ := ((entries.find? (·.1 = (y, x))).map Prod.snd).getD 0

end NsEntries

/-- The variables of `blockifyGroups`. -/
structure Assembly where
  parameterOrder : ℤ → ℤ
  unused1 : List ℤ
  unused2 : List ℤ
  ns_entries : NsEntries

namespace Assembly

variable (s : Assembly)

/-- An entry of a group. -/
def addEntry (entry : (ℤ × ℤ) × ℚ) : Assembly :=
  let y := s.parameterOrder entry.1.1
  let x := entry.1.2
  { s with
    unused1 := s.unused1.filter (· ≠ y)
    unused2 := s.unused2.filter (· ≠ x)
    ns_entries := s.ns_entries.insert ((y, if x < 0 then 0 else x), entry.2) }

def addBlock (ns : Labels → List ℚ) (b : Block) : Assembly :=
  (b.mapNullspace ns).foldl addEntry { s with parameterOrder := b.columnOrdering s.parameterOrder }

/-- The parameters and columns that are left, one for one. -/
def fill : NsEntries :=
  if s.unused1.length = s.unused2.length then
    (s.unused1.zip s.unused2).foldl (fun entries index => entries.insert (index, 1)) s.ns_entries
  else s.ns_entries

end Assembly

namespace MomfbdJob

variable (job : MomfbdJob) (order : RowSort) (ns : Labels → List ℚ)

/-- The groups, where all rows can be sorted. -/
def groups : List Group := connectedGroups order job.constraints

def blocks : List Block := blockify 0 0 (job.groups order)

/-- The loop of `blockifyGroups` over the groups. -/
def assemble (groups : List Group) : Assembly :=
  (blockify 0 0 groups).foldl (fun s b => s.addBlock ns b)
    ⟨id, (List.range job.nParameters).map (Nat.cast : ℕ → ℤ),
      (List.range job.nFreeParameters.toNat).map (Nat.cast : ℕ → ℤ), []⟩

/-- `blockifyGroups`, up to the parameters that are left. -/
def blockifyGroups : Assembly := job.assemble ns (job.groups order)

def ns_entries : NsEntries := (job.blockifyGroups order ns).fill

/-- `init`, what it leaves in `ns_entries`; `none` if the rows of a group cannot be sorted. -/
def init : Option NsEntries :=
  (groupConnectedVariables order job.constraints).map fun groups => (job.assemble ns groups).fill

/-- No constraint of the job has the columns of another one and more behind them. -/
def Sortable : Prop := Entries.PrefixFree (entrySet job.constraints)

/-- `getNullMatrix`. -/
def nullMatrix (y x : ℤ) : ℚ := (job.ns_entries order ns).get y x

/-- **What `init` leaves** where the rows can be sorted. -/
theorem init_eq (h : job.Sortable) : job.init order ns = some (job.ns_entries order ns) := by
  classical
  have hgroups : groupConnectedVariables order job.constraints = some (job.groups order) := by
    rw [groupConnectedVariables_eq]
    exact if_pos h
  rw [init, hgroups]
  rfl

end MomfbdJob

/-! ## What a nullspace is -/

namespace Labels

/-- The number in row `j` and column `k`, if it is kept. -/
def mapped (l : Labels) (keep : ℚ → Bool) (numbers : List ℚ) (j k : ℕ) : ℚ :=
  let value := numbers.getD (j * l.nFree.toNat + k) 0
  if keep value then value else 0

/-- Columns that are a basis of the solutions. -/
structure IsBasis (l : Labels) (N : ℕ → ℕ → ℚ) : Prop where
  solves : ∀ k < l.nFree.toNat, l.Solves fun j => N j k
  independent : LinearIndependent ℚ fun (k : Fin l.nFree.toNat) (j : Fin l.nParameters.toNat) => N j k
  spans : ∀ v, l.Solves v → ∃ c : Fin l.nFree.toNat → ℚ, ∀ j < l.nParameters.toNat, v j = ∑ k, c k * N j k

/-- The nullspace of a group without freedom is not used; any other has its size. -/
def Sized (l : Labels) (numbers : List ℚ) : Prop :=
  0 < l.nFree → numbers.length = l.nParameters.toNat * l.nFree.toNat

/-- The nullspace of a group without freedom is not used; any other has its size, and what is kept of it is
a basis. -/
def Correct (l : Labels) (keep : ℚ → Bool) (numbers : List ℚ) : Prop :=
  0 < l.nFree → numbers.length = l.nParameters.toNat * l.nFree.toNat ∧ l.IsBasis (l.mapped keep numbers)

theorem Correct.sized {l : Labels} {keep : ℚ → Bool} {numbers : List ℚ} (h : l.Correct keep numbers) :
    l.Sized numbers := fun hfree => (h hfree).1

end Labels

namespace MomfbdJob

/-- The matrix has all its columns, and none besides. -/
def Fits (job : MomfbdJob) (entries : NsEntries) : Prop :=
  ∀ entry ∈ entries, (0 ≤ entry.1.1 ∧ entry.1.1 < job.nParameters) ∧ 0 ≤ entry.1.2 ∧
    (0 < job.nFreeParameters → entry.1.2 < job.nFreeParameters)

/-- A parametrisation of what the constraints of a job leave: its columns satisfy them and are independent,
and a parameter without constraints has a column to itself. -/
structure Parametrises (job : MomfbdJob) (N : ℤ → ℤ → ℚ) : Prop where
  nFree : 0 ≤ job.nFreeParameters
  solves : ∀ con ∈ job.constraints, ∀ x, con.dot (fun y => N y x) = 0
  independent : LinearIndependent ℚ fun (x : Fin job.nFreeParameters.toNat) (y : Fin job.nParameters) => N y x
  identity : ∀ y < job.nParameters, (∀ con ∈ job.constraints, (y : ℤ) ∉ con.parameters) →
    ∃ x < job.nFreeParameters.toNat, (∀ y', N y' x = if y' = y then 1 else 0) ∧ ∀ x', N y x' = if x' = x then 1 else 0

end MomfbdJob

/-! ## Entries -/

section Entries

variable {entries added : NsEntries} {y x : ℤ} {v : ℚ}

namespace NsEntries

theorem find?_insert (entry : (ℤ × ℤ) × ℚ) (key : ℤ × ℤ) : (entries.insert entry).find? (·.1 = key) =
    (entries.find? (·.1 = key)).or ([entry].find? (·.1 = key)) := by
  unfold insert
  split_ifs with h
  · obtain ⟨e, he, hsame⟩ := List.any_eq_true.1 h
    rw [decide_eq_true_iff] at hsame
    by_cases hkey : entry.1 = key
    · have hsome : (entries.find? (·.1 = key)).isSome = true :=
        List.find?_isSome.2 ⟨e, he, decide_eq_true (hsame.trans hkey)⟩
      rw [Option.or_of_isSome hsome]
    · rw [List.find?_cons_of_neg (by rwa [decide_eq_true_iff]), List.find?_nil, Option.or_none]
  · exact List.find?_append

/-- **The first entry of an index is the one that stays.** -/
theorem find?_foldl (key : ℤ × ℤ) : (added.foldl insert entries).find? (·.1 = key) =
    (entries ++ added).find? (·.1 = key) := by
  induction added generalizing entries with
  | nil => rw [List.append_nil]; rfl
  | cons entry added ih =>
    rw [List.foldl_cons, ih, List.find?_append, find?_insert, Option.or_assoc, ← List.find?_append,
      ← List.find?_append, List.singleton_append]

theorem mem_insert {entry e : (ℤ × ℤ) × ℚ} (h : e ∈ entries.insert entry) : e ∈ entries ∨ e = entry := by
  unfold insert at h
  split_ifs at h
  · exact .inl h
  · rw [List.mem_append, List.mem_singleton] at h
    exact h

theorem mem_foldl {e : (ℤ × ℤ) × ℚ} (h : e ∈ added.foldl insert entries) : e ∈ entries ++ added := by
  induction added generalizing entries with
  | nil => rwa [List.append_nil]
  | cons entry added ih =>
    have hmem := ih h
    rw [List.mem_append] at hmem
    rw [List.mem_append, List.mem_cons]
    rcases hmem with hmem | hmem
    · rcases mem_insert hmem with hmem | hmem
      · exact .inl hmem
      · exact .inr (.inl hmem)
    · exact .inr (.inr hmem)

theorem get_congr {entries' : NsEntries} (h : entries.find? (·.1 = (y, x)) = entries'.find? (·.1 = (y, x))) :
    entries.get y x = entries'.get y x := by
  rw [get, get, h]

/-- An index all of whose entries have one value has this value, and 0 without entries. -/
theorem get_eq (hall : ∀ e ∈ entries, e.1 = (y, x) → e.2 = v) (hex : v ≠ 0 → ∃ e ∈ entries, e.1 = (y, x)) :
    entries.get y x = v := by
  cases hfind : entries.find? (·.1 = (y, x)) with
  | none =>
    rw [get, hfind]
    by_contra hne
    obtain ⟨e, he, hkey⟩ := hex fun h => hne h.symm
    exact absurd (decide_eq_true hkey) (List.find?_eq_none.1 hfind e he)
  | some e =>
    have hkey := List.find?_some hfind
    rw [decide_eq_true_iff] at hkey
    rw [get, hfind]
    exact hall e (List.mem_of_find?_eq_some hfind) hkey

end NsEntries

end Entries

/-! ## One block -/

section OneBlock

variable {b : Block} {ns : Labels → List ℚ} {s : Assembly}

namespace Block

/-- What `blockify` has written at the place of a column. -/
theorem columnOrdering_apply (order : ℤ → ℤ) {j : ℕ} (hj : j < b.group.columns.length) :
    b.columnOrdering order (b.y + j) = b.group.columns.getD j 0 := by
  have hfold : ∀ (columns : List ℤ) (k : ℕ) (order : ℤ → ℤ) (i : ℕ),
      (columns.zipIdx k).foldl (fun order column => Function.update order (b.y + column.2) column.1) order (b.y + i) =
        if k ≤ i ∧ i < k + columns.length then columns.getD (i - k) 0 else order (b.y + i) := by
    intro columns
    induction columns with
    | nil =>
      intro k order i
      rw [if_neg (by simp)]
      rfl
    | cons column columns ih =>
      intro k order i
      rw [List.zipIdx_cons, List.foldl_cons, ih]
      rcases lt_trichotomy i k with hlt | rfl | hgt
      · rw [if_neg (by omega), if_neg (by omega), Function.update_of_ne (by simp; omega)]
      · rw [if_neg (by omega), if_pos (by simp), Nat.sub_self, Function.update_self]
        rfl
      · rw [Function.update_of_ne (by simp; omega), List.length_cons]
        by_cases hi : i < k + 1 + columns.length
        · rw [if_pos (by omega), if_pos (by omega), show i - k = i - (k + 1) + 1 by omega, List.getD_cons_succ]
        · rw [if_neg (by omega), if_neg (by omega)]
  have h := hfold b.group.columns 0 order j
  rw [if_pos (by omega), Nat.sub_zero] at h
  exact h

/-- The entries of a group as they are inserted. -/
def used (b : Block) (ns : Labels → List ℚ) : NsEntries :=
  (b.mapNullspace ns).map fun entry =>
    ((b.group.columns.getD (entry.1.1 - b.y).toNat 0, if entry.1.2 < 0 then 0 else entry.1.2), entry.2)

/-- All rows are in the block. -/
def Inside (b : Block) (ns : Labels → List ℚ) : Prop :=
  ∀ entry ∈ b.mapNullspace ns, ∃ j < b.group.columns.length, entry.1.1 = b.y + j

end Block

namespace Assembly

theorem filter_append {l as bs : List ℤ} :
    (l.filter fun y => y ∉ as).filter (fun y => y ∉ bs) = l.filter fun y => y ∉ as ++ bs := by
  rw [List.filter_filter]
  refine List.filter_congr fun y _ => ?_
  rw [Bool.eq_iff_iff, Bool.and_eq_true, decide_eq_true_iff, decide_eq_true_iff, decide_eq_true_iff, List.mem_append,
    not_or, and_comm]

theorem filter_cons {l as : List ℤ} {a : ℤ} :
    (l.filter fun y => y ≠ a).filter (fun y => y ∉ as) = l.filter fun y => y ∉ a :: as := by
  rw [List.filter_filter]
  refine List.filter_congr fun y _ => ?_
  rw [Bool.eq_iff_iff, Bool.and_eq_true, decide_eq_true_iff, decide_eq_true_iff, decide_eq_true_iff, List.mem_cons,
    not_or, and_comm]

/-- Entries that are added one after the other. -/
theorem foldl_addEntry (entries : NsEntries) : entries.foldl addEntry s =
    { s with
      unused1 := s.unused1.filter fun y => y ∉ entries.map fun entry => s.parameterOrder entry.1.1
      unused2 := s.unused2.filter fun x => x ∉ entries.map fun entry => entry.1.2
      ns_entries := (entries.map fun entry =>
        ((s.parameterOrder entry.1.1, if entry.1.2 < 0 then 0 else entry.1.2), entry.2)).foldl NsEntries.insert
          s.ns_entries } := by
  induction entries generalizing s with
  | nil => simp
  | cons entry entries ih =>
    rw [List.foldl_cons, ih]
    simp only [List.map_cons, List.foldl_cons, ← filter_cons]
    rfl

/-- **What a block adds.** -/
theorem addBlock_eq (h : b.Inside ns) : s.addBlock ns b =
    { parameterOrder := b.columnOrdering s.parameterOrder
      unused1 := s.unused1.filter fun y => y ∉ (b.used ns).map fun entry => entry.1.1
      unused2 := s.unused2.filter fun x => x ∉ (b.mapNullspace ns).map fun entry => entry.1.2
      ns_entries := (b.used ns).foldl NsEntries.insert s.ns_entries } := by
  have hrow : ∀ entry ∈ b.mapNullspace ns,
      b.columnOrdering s.parameterOrder entry.1.1 = b.group.columns.getD (entry.1.1 - b.y).toNat 0 := by
    intro entry hentry
    obtain ⟨j, hj, heq⟩ := h entry hentry
    rw [heq, b.columnOrdering_apply _ hj]
    simp
  have hrows : (b.mapNullspace ns).map (fun entry => b.columnOrdering s.parameterOrder entry.1.1) =
      (b.used ns).map fun entry => entry.1.1 := by
    rw [Block.used, List.map_map]
    exact List.map_congr_left hrow
  have hentries : (b.mapNullspace ns).map (fun entry =>
      ((b.columnOrdering s.parameterOrder entry.1.1, if entry.1.2 < 0 then 0 else entry.1.2), entry.2)) = b.used ns :=
    List.map_congr_left fun entry hentry => by rw [hrow entry hentry]
  rw [addBlock, foldl_addEntry]
  simp only [hrows, hentries]

/-- All blocks, one after the other. -/
theorem foldl_addBlock {bs : List Block} (h : ∀ b ∈ bs, b.Inside ns) :
    let t := bs.foldl (fun s b => s.addBlock ns b) s
    t.unused1 = s.unused1.filter (fun y => y ∉ (bs.flatMap fun b => b.used ns).map fun entry => entry.1.1) ∧
    t.unused2 = s.unused2.filter (fun x => x ∉ (bs.flatMap fun b => b.mapNullspace ns).map fun entry => entry.1.2) ∧
    t.ns_entries = (bs.flatMap fun b => b.used ns).foldl NsEntries.insert s.ns_entries := by
  induction bs generalizing s with
  | nil => simp
  | cons b bs ih =>
    have hb := h b List.mem_cons_self
    obtain ⟨h₁, h₂, h₃⟩ := @ih (s.addBlock ns b) fun b hb => h b (List.mem_cons_of_mem _ hb)
    rw [addBlock_eq hb] at h₁ h₂ h₃
    rw [List.foldl_cons, addBlock_eq hb]
    refine ⟨h₁.trans ?_, h₂.trans ?_, h₃.trans ?_⟩
    · rw [List.flatMap_cons, List.map_append, ← filter_append]
    · rw [List.flatMap_cons, List.map_append, ← filter_append]
    · rw [List.flatMap_cons, List.foldl_append]

end Assembly

end OneBlock

/-! ## The entries of a block -/

section BlockEntries

variable {b : Block} {ns : Labels → List ℚ} {entry : (ℤ × ℤ) × ℚ}

theorem significant_zero : significant 0 = false := by
  rw [significant, abs_zero, decide_eq_false_iff_not, not_lt]
  exact one_div_nonneg.2 (pow_nonneg (by decide) _)

namespace Labels

theorem mapped_ne_zero {l : Labels} {keep : ℚ → Bool} (hkeep : keep 0 = false) {numbers : List ℚ} {j k : ℕ} :
    l.mapped keep numbers j k ≠ 0 ↔ keep (numbers.getD (j * l.nFree.toNat + k) 0) = true := by
  unfold mapped
  dsimp only
  split_ifs with h
  · refine iff_of_true (fun hzero => ?_) h
    rw [hzero, hkeep] at h
    exact Bool.false_ne_true h
  · exact iff_of_false (fun hne => hne rfl) h

theorem mapped_of_ne_zero {l : Labels} {keep : ℚ → Bool} {numbers : List ℚ} {j k : ℕ}
    (h : keep (numbers.getD (j * l.nFree.toNat + k) 0) = true) :
    l.mapped keep numbers j k = numbers.getD (j * l.nFree.toNat + k) 0 := if_pos h

end Labels

namespace Block

/-- The number of rows and of columns. -/
def nRows (b : Block) : ℕ := b.group.indices.length

def nCols (b : Block) : ℕ := b.group.indices.length - b.group.constraints.length

/-- The nullspace of the group as it is used. -/
def matrix (b : Block) (ns : Labels → List ℚ) : ℕ → ℕ → ℚ := b.labels.mapped significant (ns b.labels)

/-- A group has as many parameters as constraints, or more, and a nullspace of its size. -/
structure Shaped (b : Block) (ns : Labels → List ℚ) : Prop where
  dense : b.group.Dense
  le : b.group.constraints.length ≤ b.group.indices.length
  sized : b.labels.Sized (ns b.labels)

/-- What is kept of the nullspace is a basis. -/
structure Good (b : Block) (ns : Labels → List ℚ) : Prop extends b.Shaped ns where
  basis : 0 < b.nCols → b.labels.IsBasis (b.matrix ns)

theorem Shaped.nFree (h : b.Shaped ns) : b.labels.nFree = b.nCols := by
  show (b.group.indices.length : ℤ) - b.group.constraints.length = (b.nCols : ℕ)
  rw [nCols, Int.natCast_sub h.le]

theorem Shaped.toNat_nFree (h : b.Shaped ns) : b.labels.nFree.toNat = b.nCols := by
  rw [h.nFree, Int.toNat_natCast]

theorem Shaped.length (h : b.Shaped ns) (hfree : 0 < b.nCols) : (ns b.labels).length = b.nRows * b.nCols := by
  have hsized := h.sized (by rw [h.nFree]; exact_mod_cast hfree)
  rw [h.nFree] at hsized
  exact hsized

theorem Shaped.good (h : b.Shaped ns) (hns : b.labels.Correct significant (ns b.labels)) : b.Good ns :=
  ⟨h, fun hfree => (hns (by rw [h.nFree]; exact_mod_cast hfree)).2⟩

/-- **The entries of a group with freedom.** -/
theorem Shaped.mem_mapNullspace (h : b.Shaped ns) (hfree : 0 < b.nCols) : entry ∈ b.mapNullspace ns ↔
    ∃ j < b.nRows, ∃ k < b.nCols, entry = ((b.y + j, b.x + k), b.matrix ns j k) ∧ b.matrix ns j k ≠ 0 := by
  have hgt : b.labels.nParameters > b.labels.nConstraints := by
    have hnFree := h.nFree
    unfold Labels.nFree at hnFree
    omega
  rw [mapNullspace, if_pos hgt, NullSpace.mappedEntries, List.map_map, List.mem_map]
  simp only [List.mem_filter, List.mem_zipIdx_iff_getElem?, Function.comp_apply, Prod.exists, h.nFree]
  have hvalue : ∀ j k, b.matrix ns j k ≠ 0 ↔ significant ((ns b.labels).getD (j * b.nCols + k) 0) = true := by
    intro j k
    rw [matrix, Labels.mapped_ne_zero significant_zero, h.nFree, Int.toNat_natCast]
  have heq : ∀ j k, b.matrix ns j k ≠ 0 → b.matrix ns j k = (ns b.labels).getD (j * b.nCols + k) 0 := by
    intro j k hne
    have hkeep := (Labels.mapped_ne_zero significant_zero).1 hne
    rw [matrix, Labels.mapped_of_ne_zero hkeep, h.nFree, Int.toNat_natCast]
  have hsplit : ∀ {i : ℕ}, ((i : ℤ).tdiv b.nCols, (i : ℤ).tmod b.nCols) =
    (((i / b.nCols : ℕ) : ℤ), ((i % b.nCols : ℕ) : ℤ)) := by
    intro i
    rw [Int.tdiv_eq_ediv_of_nonneg (Int.natCast_nonneg _), Int.tmod_eq_emod_of_nonneg (Int.natCast_nonneg _),
      Int.natCast_ediv, Int.natCast_emod]
  constructor
  · rintro ⟨v, i, ⟨hv, hkeep⟩, rfl⟩
    have hi := (List.getElem?_eq_some_iff.1 hv).1
    rw [h.length hfree] at hi
    have hindex : i / b.nCols * b.nCols + i % b.nCols = i := Nat.div_add_mod' i b.nCols
    have hget : (ns b.labels).getD (i / b.nCols * b.nCols + i % b.nCols) 0 = v := by
      rw [hindex, List.getD_eq_getElem?_getD, hv, Option.getD_some]
    have hne := (hvalue (i / b.nCols) (i % b.nCols)).2 (hget.symm ▸ hkeep)
    refine ⟨i / b.nCols, (Nat.div_lt_iff_lt_mul hfree).2 hi, i % b.nCols, Nat.mod_lt _ hfree, ?_, hne⟩
    rw [heq _ _ hne, hget, (Prod.mk.inj hsplit).1, (Prod.mk.inj hsplit).2, add_comm b.y, add_comm b.x]
  · rintro ⟨j, hj, k, hk, rfl, hne⟩
    have hlt : j * b.nCols + k < (ns b.labels).length := by
      rw [h.length hfree]
      calc j * b.nCols + k < j * b.nCols + b.nCols := Nat.add_lt_add_left hk _
        _ = (j + 1) * b.nCols := (Nat.succ_mul _ _).symm
        _ ≤ b.nRows * b.nCols := Nat.mul_le_mul_right _ hj
    refine ⟨b.matrix ns j k, j * b.nCols + k, ⟨?_, ?_⟩, ?_⟩
    · rw [heq _ _ hne, List.getD_eq_getElem?_getD, List.getElem?_eq_getElem hlt, Option.getD_some]
    · rw [heq _ _ hne]
      exact (hvalue j k).1 hne
    · have hdiv : (j * b.nCols + k) / b.nCols = j := by
        rw [Nat.mul_comm, Nat.mul_add_div hfree, Nat.div_eq_of_lt hk, Nat.add_zero]
      have hmod : (j * b.nCols + k) % b.nCols = k := by
        rw [Nat.mul_comm, Nat.mul_add_mod, Nat.mod_eq_of_lt hk]
      rw [(Prod.mk.inj hsplit).1, (Prod.mk.inj hsplit).2, hdiv, hmod, add_comm b.y, add_comm b.x]

/-- The entries of a group without. -/
theorem Shaped.mem_mapNullspace_none (h : b.Shaped ns) (hfree : b.nCols = 0) : entry ∈ b.mapNullspace ns ↔
    ∃ j < b.nRows, entry = ((b.y + j, -1), 0) := by
  have heq : b.labels.nParameters = b.labels.nConstraints := by
    have hnFree := h.nFree
    unfold Labels.nFree at hnFree
    omega
  rw [mapNullspace, if_neg (by omega), if_pos heq, List.mem_map]
  simp only [List.mem_range, eq_comm]
  rfl

theorem Shaped.length_columns (h : b.Shaped ns) : b.group.columns.length = b.nRows := Group.length_columns h.dense.indices

theorem Shaped.inside (h : b.Shaped ns) : b.Inside ns := by
  intro entry hentry
  rw [h.length_columns]
  rcases Nat.eq_zero_or_pos b.nCols with hfree | hfree
  · obtain ⟨j, hj, rfl⟩ := (h.mem_mapNullspace_none hfree).1 hentry
    exact ⟨j, hj, rfl⟩
  · obtain ⟨j, hj, k, -, rfl, -⟩ := (h.mem_mapNullspace hfree).1 hentry
    exact ⟨j, hj, rfl⟩

theorem Shaped.mem_used (h : b.Shaped ns) (hx : 0 ≤ b.x) (hfree : 0 < b.nCols) : entry ∈ b.used ns ↔
    ∃ j < b.nRows, ∃ k < b.nCols,
      entry = ((b.group.columns.getD j 0, b.x + k), b.matrix ns j k) ∧ b.matrix ns j k ≠ 0 := by
  rw [used, List.mem_map]
  constructor
  · rintro ⟨e, he, rfl⟩
    obtain ⟨j, hj, k, hk, rfl, hne⟩ := (h.mem_mapNullspace hfree).1 he
    refine ⟨j, hj, k, hk, ?_, hne⟩
    dsimp only
    rw [if_neg (by omega), show (b.y + j - b.y).toNat = j by omega]
  · rintro ⟨j, hj, k, hk, rfl, hne⟩
    refine ⟨_, (h.mem_mapNullspace hfree).2 ⟨j, hj, k, hk, rfl, hne⟩, ?_⟩
    dsimp only
    rw [if_neg (by omega), show (b.y + j - b.y).toNat = j by omega]

theorem Shaped.mem_used_none (h : b.Shaped ns) (hfree : b.nCols = 0) : entry ∈ b.used ns ↔
    ∃ j < b.nRows, entry = ((b.group.columns.getD j 0, 0), 0) := by
  rw [used, List.mem_map]
  constructor
  · rintro ⟨e, he, rfl⟩
    obtain ⟨j, hj, rfl⟩ := (h.mem_mapNullspace_none hfree).1 he
    refine ⟨j, hj, ?_⟩
    dsimp only
    rw [if_pos (by decide), show (b.y + j - b.y).toNat = j by omega]
  · rintro ⟨j, hj, rfl⟩
    refine ⟨_, (h.mem_mapNullspace_none hfree).2 ⟨j, hj, rfl⟩, ?_⟩
    dsimp only
    rw [if_pos (by decide), show (b.y + j - b.y).toNat = j by omega]

end Block

end BlockEntries

end Redux.Momfbd.Constraints
