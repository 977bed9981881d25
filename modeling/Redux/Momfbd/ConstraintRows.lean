import Mathlib.Algebra.Order.Ring.Nat
import Mathlib.Data.List.Range
import Redux.Momfbd.ConstraintGroups

/-!
# Momfbd.ConstraintRows — the constraints of a job

For each mode `Constraints::init` goes through the images of all channels: an image whose wavefront has been
seen before gets the same coefficient as the first one.  For the two tilts there is also a constraint that
the coefficients of the images of the first channel have the sum zero.  Each constraint has a parameter of
its own (`own_nodup`), which for the sum is that of the first image.
-/

namespace Redux.Momfbd.Constraints

open Redux.Lib

/-! ## Model -/

/-- `entries[i] = v`. -/
def Entries.put (i v : ℤ) (entries : Entries) : Entries :=
  Entries.insert (i, v) (OrderedSet.erase (fun a b => decide (a.1 < b.1)) (i, v) entries)

theorem Entries.put_ne_nil {i v : ℤ} {entries : Entries} : entries.put i v ≠ [] := by
  unfold Entries.put Entries.insert OrderedSet.insert
  split_ifs with h
  · obtain ⟨entry, hentry, -⟩ := List.any_eq_true.1 h
    exact List.ne_nil_of_mem hentry
  · exact List.ne_nil_of_mem ((List.mem_orderedInsert _).2 (.inl rfl))

/-- The entries of a constraint. -/
abbrev Row := { entries : Entries // entries ≠ [] }

/-- A `Channel` has one wavefront for each of its images. -/
structure Channel where
  waveFrontList : List ℕ

def Channel.nImages (ch : Channel) : ℕ := ch.waveFrontList.length

structure Object where
  channels : List Channel
  ne : channels ≠ []

def Object.nImages (obj : Object) : ℕ := (obj.channels.map Channel.nImages).sum

structure MomfbdJob where
  nModes : ℕ
  objects : List Object

namespace MomfbdJob

variable (job : MomfbdJob)

def nImages : ℕ := (job.objects.map Object.nImages).sum

def nParameters : ℕ := job.nImages * job.nModes

/-- The wavefronts of all images, in the order in which `init` comes to them. -/
def waveFronts : List ℕ := job.objects.flatMap fun obj => obj.channels.flatMap Channel.waveFrontList

/-- `objects[0]->getChannels()[0]->nImages()`. -/
def nFirst : ℕ :=
  match job.objects with
  | [] => 0
  | obj :: _ => (obj.channels.head obj.ne).nImages

end MomfbdJob

/-- The constraint on the sum: the parameter of the first image, then those of `count` images. -/
def sumConstraint (nModes modeIndex count : ℕ) : Row :=
  (List.range count).foldl
    (fun con (imageCount : ℕ) => ⟨con.1.put (imageCount * nModes + modeIndex) 1, Entries.put_ne_nil⟩)
    ⟨[((modeIndex : ℤ), 1)], List.cons_ne_nil _ _⟩

/-- The loop over the images for one mode; `wfCons` has the constraint that the first image with a wavefront
has begun. -/
def waveFrontConstraints (nModes modeIndex : ℕ) : ℕ → (ℕ → Option Entries) → List ℕ → List Row
  | _, _, [] => []
  | imageCount, wfCons, wf :: wfs =>
    let index : ℤ := imageCount * nModes + modeIndex
    match wfCons wf with
    | none =>
      waveFrontConstraints nModes modeIndex (imageCount + 1) (Function.update wfCons wf (some [(index, 1)])) wfs
    | some con =>
      ⟨con.put index (-1), Entries.put_ne_nil⟩ :: waveFrontConstraints nModes modeIndex (imageCount + 1) wfCons wfs

namespace MomfbdJob

variable (job : MomfbdJob)

/-- The constraints that `init` adds, mode by mode. -/
def rows : List Row :=
  if job.nParameters = 0 then []
  else (List.range job.nModes).flatMap fun modeIndex =>
    if modeIndex = 0 ∨ modeIndex = 1 then
      sumConstraint job.nModes modeIndex job.nFirst ::
        waveFrontConstraints job.nModes modeIndex 0 (fun _ => none) job.waveFronts
    else waveFrontConstraints job.nModes modeIndex 0 (fun _ => none) job.waveFronts

/-- Each of them at an address of its own. -/
def constraints : List Constraint := job.rows.zipIdx.map fun row => ⟨row.2, row.1.1, row.1.2⟩

def nFreeParameters : ℤ := job.nParameters - job.constraints.length

end MomfbdJob

/-! ## The kinds of constraints -/

/-- The sum of the tilts of the first images, or an image with the wavefront of an earlier one. -/
inductive Kind where
  | sum (modeIndex : ℕ)
  | pair (modeIndex i : ℕ)
  deriving DecidableEq

namespace MomfbdJob

variable (job : MomfbdJob)

/-- The parameter of an image and a mode. -/
def param (modeIndex i : ℕ) : ℤ := i * job.nModes + modeIndex

/-- The first image with the wavefront of the image. -/
def first (i : ℕ) : ℕ := job.waveFronts.idxOf (job.waveFronts.getD i 0)

/-- The images in the constraints on the sums. -/
def nSummed : ℕ := max 1 job.nFirst

def entriesOf : Kind → Entries
  | .sum modeIndex => (List.range job.nSummed).map fun i => (job.param modeIndex i, 1)
  | .pair modeIndex i => [(job.param modeIndex (job.first i), 1), (job.param modeIndex i, -1)]

/-- The images with the wavefront of an earlier one. -/
def later : List ℕ := (List.range job.waveFronts.length).filter fun i => job.first i < i

def kinds : List Kind :=
  if job.nParameters = 0 then []
  else (List.range job.nModes).flatMap fun modeIndex =>
    (if modeIndex < 2 then [.sum modeIndex] else []) ++ job.later.map (.pair modeIndex)

/-- The parameter that a constraint has for itself. -/
def own : Kind → ℤ
  | .sum modeIndex => job.param modeIndex 0
  | .pair modeIndex i => job.param modeIndex i

end MomfbdJob

/-! ## What the loops build -/

section Loops

variable {nModes modeIndex : ℕ}

namespace Entries

theorem same_iff {a b : ℤ × ℤ} : OrderedSet.same (fun a b : ℤ × ℤ => decide (a.1 < b.1)) a b = true ↔ a.1 = b.1 := by
  simp only [OrderedSet.same, Bool.and_eq_true, Bool.not_eq_true', decide_eq_false_iff_not, not_lt]
  exact ⟨fun h => le_antisymm h.2 h.1, fun h => ⟨h.ge, h.le⟩⟩

/-- An entry behind all others. -/
theorem put_append {i v : ℤ} {entries : Entries} (h : ∀ entry ∈ entries, entry.1 < i) :
    entries.put i v = entries ++ [(i, v)] := by
  have hnew : ∀ entry ∈ entries, ¬ OrderedSet.same (fun a b : ℤ × ℤ => decide (a.1 < b.1)) (i, v) entry = true :=
    fun entry hentry hsame => absurd (same_iff.1 hsame) (h entry hentry).ne'
  rw [put, OrderedSet.erase, List.eraseP_of_forall_not hnew, Entries.insert, OrderedSet.insert,
    if_neg fun hany => ?_]
  · clear hnew
    induction entries with
    | nil => rfl
    | cons entry entries ih =>
      have hlt : ¬ (decide ((i, v).1 < entry.1) = true) := by
        rw [decide_eq_true_iff]
        exact not_lt.2 (h entry List.mem_cons_self).le
      rw [List.orderedInsert_cons, if_neg hlt, ih fun e he => h e (List.mem_cons_of_mem _ he), List.cons_append]
  · obtain ⟨entry, hentry, hsame⟩ := List.any_eq_true.1 hany
    exact hnew entry hentry hsame

/-- The entry that there is. -/
theorem put_self {i v : ℤ} : put i v [(i, v)] = [(i, v)] := by
  simp [put, Entries.insert, OrderedSet.insert, OrderedSet.erase, OrderedSet.same]

end Entries

/-- The sum has the first image, counted or not. -/
theorem sumConstraint_eq (hmode : modeIndex < nModes) (count : ℕ) : (sumConstraint nModes modeIndex count).1 =
    (List.range (max 1 count)).map fun i : ℕ => ((i * nModes + modeIndex : ℤ), 1) := by
  induction count with
  | zero => simp [sumConstraint]
  | succ count ih =>
    rw [sumConstraint, List.range_succ, List.foldl_append, ← sumConstraint]
    show (sumConstraint nModes modeIndex count).1.put (count * nModes + modeIndex) 1 = _
    rw [ih]
    cases count with
    | zero => simp [Entries.put_self]
    | succ count =>
      rw [Nat.max_eq_right (by omega), Nat.max_eq_right (by omega), List.range_succ (n := count + 1), List.map_append]
      refine Entries.put_append fun entry hentry => ?_
      obtain ⟨i, hi, rfl⟩ := List.mem_map.1 hentry
      have hlt : (i : ℤ) < count + 1 := by exact_mod_cast List.mem_range.1 hi
      have hpos : (0 : ℤ) < nModes := by omega
      show (i * nModes + modeIndex : ℤ) < ((count + 1 : ℕ) : ℤ) * nModes + modeIndex
      rw [Int.natCast_succ]
      exact Int.add_lt_add_right (Int.mul_lt_mul_of_pos_right hlt hpos) _

/-- The images of `wfs` after those of `seen`. -/
theorem waveFrontConstraints_eq (hmode : modeIndex < nModes) :
    ∀ (wfs seen : List ℕ) (wfCons : ℕ → Option Entries),
      (∀ w, wfCons w = if w ∈ seen then some [((seen.idxOf w * nModes + modeIndex : ℤ), 1)] else none) →
      (waveFrontConstraints nModes modeIndex seen.length wfCons wfs).map Subtype.val =
        ((List.range' seen.length wfs.length).filter fun i =>
          (seen ++ wfs).idxOf ((seen ++ wfs).getD i 0) < i).map fun i =>
            [(((seen ++ wfs).idxOf ((seen ++ wfs).getD i 0) * nModes + modeIndex : ℤ), 1),
              ((i * nModes + modeIndex : ℤ), -1)]
  | [], _, _, _ => rfl
  | wf :: wfs, seen, wfCons, hcons => by
    have hnext : seen ++ wf :: wfs = (seen ++ [wf]) ++ wfs := by rw [List.append_assoc, List.singleton_append]
    have hget : (seen ++ wf :: wfs).getD seen.length 0 = wf := by simp
    have hlen : (seen ++ [wf]).length = seen.length + 1 := by simp
    rw [List.length_cons, List.range'_succ, List.filter_cons, hget, waveFrontConstraints]
    by_cases hmem : wf ∈ seen
    · have hfirst : (seen ++ wf :: wfs).idxOf wf = seen.idxOf wf := List.idxOf_append_of_mem hmem
      have hlt := List.idxOf_lt_length_of_mem hmem
      rw [hcons wf, if_pos hmem, hfirst, if_pos (by simpa using hlt), List.map_cons, List.map_cons, hget,
          hfirst, hnext, ← hlen]
      dsimp only
      have hcons' : ∀ w, wfCons w = if w ∈ seen ++ [wf] then
          some [(((seen ++ [wf]).idxOf w * nModes + modeIndex : ℤ), 1)] else none := by
        intro w
        rw [hcons w]
        by_cases hw : w ∈ seen
        · rw [if_pos hw, if_pos (List.mem_append_left _ hw), List.idxOf_append_of_mem hw]
        · have hne : w ≠ wf := fun h => hw (h ▸ hmem)
          rw [if_neg hw, if_neg (by simp [hw, hne])]
      rw [waveFrontConstraints_eq hmode wfs (seen ++ [wf]) wfCons hcons', Entries.put_append]
      · rfl
      · intro entry hentry
        rw [List.mem_singleton.1 hentry]
        have hpos : (0 : ℤ) < nModes := by omega
        have hlt' : (seen.idxOf wf : ℤ) < seen.length := by exact_mod_cast hlt
        exact Int.add_lt_add_right (Int.mul_lt_mul_of_pos_right hlt' hpos) _
    · have hfirst : (seen ++ wf :: wfs).idxOf wf = seen.length := by
        rw [List.idxOf_append_of_notMem hmem, List.idxOf_cons_self, Nat.add_zero]
      rw [hcons wf, if_neg hmem, hfirst, if_neg (by simp), hnext, ← hlen]
      dsimp only
      refine waveFrontConstraints_eq hmode wfs (seen ++ [wf]) _ fun w => ?_
      by_cases hw : w = wf
      · subst hw
        rw [Function.update_self, if_pos (by simp), List.idxOf_append_of_notMem hmem, List.idxOf_cons_self,
            Nat.add_zero]
      · rw [Function.update_of_ne hw, hcons w]
        by_cases hw' : w ∈ seen
        · rw [if_pos hw', if_pos (List.mem_append_left _ hw'), List.idxOf_append_of_mem hw']
        · rw [if_neg hw', if_neg (by simp [hw, hw'])]

end Loops

/-! ## The constraints of a job -/

section Job

variable (job : MomfbdJob)

namespace MomfbdJob

theorem length_waveFronts : job.waveFronts.length = job.nImages := by
  have hobj : ∀ obj : Object, (obj.channels.flatMap Channel.waveFrontList).length = obj.nImages :=
    fun obj => List.length_flatMap
  rw [waveFronts, List.length_flatMap, nImages]
  exact congrArg List.sum (List.map_congr_left fun obj _ => hobj obj)

/-- The images of the first channel come first. -/
theorem exists_waveFronts : ∃ wfs rest, job.waveFronts = wfs ++ rest ∧ wfs.length = job.nFirst := by
  unfold waveFronts nFirst
  cases job.objects with
  | nil => exact ⟨[], [], rfl, rfl⟩
  | cons obj objects =>
    obtain ⟨ch, chs, hchannels⟩ := List.exists_cons_of_ne_nil obj.ne
    refine ⟨ch.waveFrontList, chs.flatMap Channel.waveFrontList ++
      objects.flatMap fun obj => obj.channels.flatMap Channel.waveFrontList, ?_, ?_⟩
    · rw [List.flatMap_cons, hchannels, List.flatMap_cons, List.append_assoc]
    · simp only [hchannels, List.head_cons]
      rfl

theorem nFirst_le : job.nFirst ≤ job.nImages := by
  obtain ⟨wfs, rest, heq, hlen⟩ := job.exists_waveFronts
  rw [← job.length_waveFronts, heq, List.length_append, hlen]
  exact Nat.le_add_right _ _

theorem nSummed_pos : 0 < job.nSummed := Nat.lt_of_lt_of_le Nat.one_pos (Nat.le_max_left ..)

theorem nSummed_le (h : job.nImages ≠ 0) : job.nSummed ≤ job.nImages :=
  Nat.max_le.2 ⟨Nat.one_le_iff_ne_zero.2 h, job.nFirst_le⟩

/-- **The constraints are of the two kinds.** -/
theorem rows_eq : job.rows.map Subtype.val = job.kinds.map job.entriesOf := by
  unfold rows kinds
  split_ifs with h
  · rfl
  · rw [List.map_flatMap, List.map_flatMap]
    refine List.flatMap_congr fun modeIndex hmode => ?_
    have hlt := List.mem_range.1 hmode
    have hpairs := waveFrontConstraints_eq hlt job.waveFronts [] (fun _ => none) fun w => by simp
    rw [List.length_nil, List.nil_append, ← List.range_eq_range'] at hpairs
    have hlater : (job.later.map (Kind.pair modeIndex)).map job.entriesOf =
        (waveFrontConstraints job.nModes modeIndex 0 (fun _ => none) job.waveFronts).map Subtype.val := by
      rw [hpairs, List.map_map]
      rfl
    rw [List.map_append, hlater]
    by_cases htilt : modeIndex < 2
    · rw [if_pos (by omega), if_pos htilt, List.map_cons, sumConstraint_eq hlt]
      rfl
    · rw [if_neg (by omega), if_neg htilt, List.map_nil, List.nil_append]

theorem mem_kinds {kind : Kind} (h : kind ∈ job.kinds) : job.nImages ≠ 0 ∧
    ((∃ modeIndex, kind = .sum modeIndex ∧ modeIndex < 2 ∧ modeIndex < job.nModes) ∨
      ∃ modeIndex i, kind = .pair modeIndex i ∧ modeIndex < job.nModes ∧ i < job.nImages ∧ job.first i < i) := by
  unfold kinds at h
  split_ifs at h with hpar
  · exact absurd h List.not_mem_nil
  · refine ⟨fun h0 => hpar (by rw [nParameters, h0, Nat.zero_mul]), ?_⟩
    obtain ⟨modeIndex, hmode, hkind⟩ := List.mem_flatMap.1 h
    have hlt := List.mem_range.1 hmode
    rcases List.mem_append.1 hkind with hkind | hkind
    · split_ifs at hkind with htilt
      · exact .inl ⟨modeIndex, List.mem_singleton.1 hkind, htilt, hlt⟩
      · exact absurd hkind List.not_mem_nil
    · obtain ⟨i, hi, rfl⟩ := List.mem_map.1 hkind
      obtain ⟨hi, hfirst⟩ := List.mem_filter.1 hi
      rw [List.mem_range, length_waveFronts] at hi
      exact .inr ⟨modeIndex, i, rfl, hlt, hi, of_decide_eq_true hfirst⟩

theorem mem_kinds_pair {modeIndex i : ℕ} (hmode : modeIndex < job.nModes) (hi : i < job.nImages)
    (hlater : job.first i < i) : Kind.pair modeIndex i ∈ job.kinds := by
  have hpar : job.nParameters ≠ 0 := Nat.mul_ne_zero (by omega) (by omega)
  rw [kinds, if_neg hpar]
  refine List.mem_flatMap.2 ⟨modeIndex, List.mem_range.2 hmode, List.mem_append_right _ (List.mem_map_of_mem ?_)⟩
  rw [later, List.mem_filter, List.mem_range, length_waveFronts]
  exact ⟨hi, decide_eq_true hlater⟩

theorem param_injective {m m' i i' : ℕ} (hm : m < job.nModes) (hm' : m' < job.nModes)
    (h : job.param m i = job.param m' i') : m = m' ∧ i = i' := by
  unfold param at h
  have hnat : i * job.nModes + m = i' * job.nModes + m' := by exact_mod_cast h
  have hmode := congrArg (· % job.nModes) hnat
  simp only [Nat.mul_add_mod_self_right, Nat.mod_eq_of_lt hm, Nat.mod_eq_of_lt hm'] at hmode
  subst hmode
  exact ⟨rfl, Nat.eq_of_mul_eq_mul_right (Nat.zero_lt_of_lt hm) (Nat.add_right_cancel hnat)⟩

/-- **No two constraints have the same parameter for themselves.** -/
theorem own_nodup : (job.kinds.map job.own).Nodup := by
  unfold kinds
  split_ifs
  · exact List.nodup_nil
  rw [List.map_flatMap]
  have hsum : ∀ m, ((if m < 2 then [Kind.sum m] else []) ++ job.later.map (Kind.pair m)).map job.own =
      ((if m < 2 then [0] else []) ++ job.later).map (job.param m) := by
    intro m
    rw [List.map_append, List.map_append, List.map_map]
    split_ifs <;> rfl
  have hlater : ∀ i ∈ job.later, 0 < i := fun i hi =>
    Nat.zero_lt_of_lt (of_decide_eq_true (List.mem_filter.1 hi).2)
  simp only [hsum]
  refine List.nodup_flatMap.2 ⟨fun m hm => ?_, ?_⟩
  · refine List.Nodup.map_on (fun i _ i' _ heq =>
      (job.param_injective (List.mem_range.1 hm) (List.mem_range.1 hm) heq).2) ?_
    refine List.Nodup.append (by split_ifs <;> simp) (List.Nodup.filter _ List.nodup_range) fun i hi hi' => ?_
    have hpos := hlater i hi'
    split_ifs at hi
    · exact absurd (List.mem_singleton.1 hi) hpos.ne'
    · exact absurd hi List.not_mem_nil
  · refine List.nodup_range.imp_of_mem fun {m m'} hm hm' hne x hx hx' => ?_
    obtain ⟨i, -, rfl⟩ := List.mem_map.1 hx
    obtain ⟨i', -, heq⟩ := List.mem_map.1 hx'
    exact hne (job.param_injective (List.mem_range.1 hm') (List.mem_range.1 hm) heq).1.symm

/-- The kind of a constraint, which has its number as the address. -/
def kindOf (con : Constraint) : Kind := job.kinds.getD con.address (.sum 0)

theorem mem_constraints {con : Constraint} : con ∈ job.constraints ↔
    ∃ kind, job.kinds[con.address]? = some kind ∧ con.entries = job.entriesOf kind := by
  have hrows : ∀ a : ℕ, (job.rows[a]?).map Subtype.val = (job.kinds[a]?).map job.entriesOf := by
    intro a
    rw [← List.getElem?_map, ← List.getElem?_map, job.rows_eq]
  unfold constraints
  rw [List.mem_map]
  constructor
  · rintro ⟨row, hrow, rfl⟩
    have hget := hrows row.2
    rw [List.mem_zipIdx_iff_getElem?.1 hrow, Option.map_some] at hget
    obtain ⟨kind, hkind, heq⟩ := Option.map_eq_some_iff.1 hget.symm
    exact ⟨kind, hkind, heq.symm⟩
  · rintro ⟨kind, hkind, hentries⟩
    have hget := hrows con.address
    rw [hkind, Option.map_some] at hget
    obtain ⟨row, hrow, heq⟩ := Option.map_eq_some_iff.1 hget
    refine ⟨(row, con.address), List.mem_zipIdx_iff_getElem?.2 hrow, ?_⟩
    cases con
    simp only [Constraint.mk.injEq, true_and]
    exact heq.trans hentries.symm

variable {job} {con d : Constraint}

theorem kindOf_mem (h : con ∈ job.constraints) : job.kindOf con ∈ job.kinds := by
  obtain ⟨kind, hkind, -⟩ := job.mem_constraints.1 h
  rw [kindOf, List.getD_eq_getElem?_getD, hkind]
  exact List.mem_of_getElem? hkind

theorem entries_eq (h : con ∈ job.constraints) : con.entries = job.entriesOf (job.kindOf con) := by
  obtain ⟨kind, hkind, hentries⟩ := job.mem_constraints.1 h
  rw [kindOf, List.getD_eq_getElem?_getD, hkind]
  exact hentries

theorem exists_constraint {kind : Kind} (h : kind ∈ job.kinds) : ∃ con ∈ job.constraints, job.kindOf con = kind := by
  obtain ⟨a, ha⟩ := List.getElem?_of_mem h
  have hne : job.entriesOf kind ≠ [] := by
    cases kind with
    | sum m => simp [entriesOf, nSummed]
    | pair m i => exact List.cons_ne_nil _ _
  refine ⟨⟨a, job.entriesOf kind, hne⟩, job.mem_constraints.2 ⟨kind, ha, rfl⟩, ?_⟩
  rw [kindOf, List.getD_eq_getElem?_getD, ha]
  rfl

/-- **A constraint is the only one with its own parameter.** -/
theorem eq_of_own (h : con ∈ job.constraints) (hd : d ∈ job.constraints)
    (heq : job.own (job.kindOf con) = job.own (job.kindOf d)) : con = d := by
  obtain ⟨kind, hkind, hentries⟩ := job.mem_constraints.1 h
  obtain ⟨kind', hkind', hentries'⟩ := job.mem_constraints.1 hd
  rw [kindOf, List.getD_eq_getElem?_getD, hkind, kindOf, List.getD_eq_getElem?_getD, hkind'] at heq
  have hown : ∀ {a : ℕ} {k : Kind}, job.kinds[a]? = some k → (job.kinds.map job.own)[a]? = some (job.own k) := by
    intro a k hk
    rw [List.getElem?_map, hk]
    rfl
  have haddress : con.address = d.address := by
    refine (List.getElem?_inj (List.getElem?_eq_some_iff.1 (hown hkind)).1 job.own_nodup).1 ?_
    rw [hown hkind, hown hkind']
    exact congrArg some heq
  obtain rfl : kind = kind' := Option.some.inj (hkind.symm.trans (haddress ▸ hkind'))
  cases con
  cases d
  simp only [Constraint.mk.injEq]
  exact ⟨haddress, hentries.trans hentries'.symm⟩

end MomfbdJob

end Job

end Redux.Momfbd.Constraints
