import Mathlib.Data.Int.Basic
import Mathlib.Logic.Function.Basic
import Redux.Lib.OrderedSet
import Redux.Lib.Run

/-!
# Momfbd.NullSpaceCache — the nullspaces of the constraint groups, and where they are kept

`Constraints::NullSpace` objects are shared between groups: in memory under the hash of the group's
entries, on disk under a path made of the hash and of the numbers of parameters and constraints.
`calculateNullspace` is a parameter here, with the numbers it computes; what is kept beside the numbers
is the labels they were computed for.  A file is what `cunpack` reads from it.  The file of an object
that is not loaded is read over the object's own labels, and the entries in it are inserted into those
of the object, so that `verify` compares the group with its own entries (`usesOwn_iff`).
-/

namespace Redux.Momfbd.Constraints

open Redux.Lib

/-! ## Labels -/

/-- `map<int32_t,int8_t>`: the elements of a constraint matrix by their index, in its order. -/
abbrev Entries := List (ℤ × ℤ)

namespace Entries

/-- `insert( entry )`, which leaves alone an entry that is there. -/
def insert (entry : ℤ × ℤ) (entries : Entries) : Entries :=
  OrderedSet.insert (fun a b => decide (a.1 < b.1)) entry entries

/-- `unpack` into a map, which is not cleared first. -/
def unpack (entries : Entries) (read : List (ℤ × ℤ)) : Entries :=
  read.foldl (fun entries entry => entries.insert entry) entries

end Entries

/-- What a nullspace is calculated from. -/
structure Labels where
  c_entries : Entries
  nParameters : ℤ
  nConstraints : ℤ
  deriving DecidableEq

def Labels.nFree (l : Labels) : ℤ := l.nParameters - l.nConstraints

/-! ## A nullspace object -/

section Model

variable {V : Type}

/-- `ns`, with dimensions: its numbers row by row, and what they were calculated from, if they were. -/
structure Matrix (V : Type) where
  numbers : List V
  source : Option Labels

/-- `ns_entries`, with the source of the numbers and the number of columns they were laid out in. -/
structure Mapped (V : Type) where
  entries : List ((ℤ × ℤ) × V)
  source : Option Labels
  nCols : ℤ

def Mapped.cleared : Mapped V := ⟨[], none, 0⟩

/-- The name of the file of a nullspace. -/
structure Path where
  nParameters : ℤ
  nConstraints : ℤ
  entriesHash : BitVec 64
  deriving DecidableEq

/-- What `cunpack` reads from a file, and if it reads to the end of the file without an exception. -/
structure CacheFile (V : Type) where
  entriesHash : BitVec 64
  nParameters : ℤ
  nConstraints : ℤ
  c_entries : List (ℤ × ℤ)
  ns : Option (Matrix V)
  complete : Bool

/-- The files there are. -/
abbrev Files (V : Type) := Path → Option (CacheFile V)

structure NullSpace (V : Type) where
  labels : Labels
  entriesHash : BitVec 64
  path : Path
  isLoaded : Bool
  ns : Option (Matrix V)
  ns_entries : Mapped V

namespace NullSpace

/-- `NullSpace( e, np, nc, false )`. -/
def construct (hash : Entries → BitVec 64) (l : Labels) : NullSpace V :=
  ⟨l, hash l.c_entries, ⟨l.nParameters, l.nConstraints, hash l.c_entries⟩, false, none, .cleared⟩

/-- The indices of the numbers that are large enough. -/
def mappedEntries (significant : V → Bool) (nCols : ℤ) (numbers : List V) : List ((ℤ × ℤ) × V) :=
  (numbers.zipIdx.filter fun value => significant value.1).map fun value =>
    (((value.2 : ℤ).tdiv nCols, (value.2 : ℤ).tmod nCols), value.1)

/-- `mapNullspace`, which divides by the number of columns once for each number that is large enough. -/
def mapNullspace (significant : V → Bool) (o : NullSpace V) : Option (NullSpace V) :=
  let nCols := o.labels.nFree
  let numbers := o.ns.elim [] Matrix.numbers
  if nCols = 0 ∧ numbers.any significant = true then none
  else some { o with ns_entries := ⟨mappedEntries significant nCols numbers, o.ns.bind Matrix.source, nCols⟩ }

/-- `cpack`. -/
def cpack (o : NullSpace V) : CacheFile V :=
  ⟨o.entriesHash, o.labels.nParameters, o.labels.nConstraints, o.labels.c_entries, o.ns, true⟩

/-- `cunpack`: the entries are read into the map of the object. -/
def cunpack (o : NullSpace V) (file : CacheFile V) : NullSpace V :=
  { o with
    labels := ⟨o.labels.c_entries.unpack file.c_entries, file.nParameters, file.nConstraints⟩
    entriesHash := file.entriesHash
    ns := file.ns }

/-- `cacheLoad`, with its result. -/
def cacheLoad (files : Files V) (o : NullSpace V) : NullSpace V × Bool :=
  if o.isLoaded then (o, false)
  else match files o.path with
    | none => (o, false)
    | some file =>
      let o := o.cunpack file
      if file.complete then ({ o with isLoaded := true }, true) else (o, false)

/-- `cacheStore`. -/
def cacheStore (files : Files V) (o : NullSpace V) : Files V :=
  if o.isLoaded then Function.update files o.path (some o.cpack) else files

/-- `calculateNullspace`, with the files after it. -/
def calculateNullspace (calculate : Labels → List V) (store : Bool) (files : Files V) (o : NullSpace V) :
    NullSpace V × Files V :=
  if o.labels.nFree < 1 then ({ o with ns := none }, files)
  else
    let o := { o with ns := some ⟨calculate o.labels, some o.labels⟩, isLoaded := true }
    (o, if store then o.cacheStore files else files)

/-- `verify`: once the labels have been compared, the result does not depend on what is loaded. -/
def verify (files : Files V) (o : NullSpace V) (g : Labels) : NullSpace V × Bool :=
  if o.labels ≠ g then (o, false)
  else if o.isLoaded then (o, true)
  else
    let loaded := o.cacheLoad files
    if loaded.2 then (loaded.1, true)
    else ({ loaded.1 with ns := none, ns_entries := .cleared }, true)

/-- What `Group::mapNullspace` does with the object it has settled on: it is calculated if it has no
numbers, and mapped if it has no entries. -/
def prepare (calculate : Labels → List V) (significant : V → Bool) (store : Bool) (files : Files V)
    (o : NullSpace V) : Option (NullSpace V × Files V) :=
  let calculated := if o.ns.isNone then o.calculateNullspace calculate store files else (o, files)
  (if calculated.1.ns_entries.entries = [] then calculated.1.mapNullspace significant
    else some calculated.1).map fun o => (o, calculated.2)

end NullSpace

/-! ## The cache -/

/-- The nullspaces in memory, by the hash of their entries, and the files. -/
structure Store (V : Type) where
  cache : BitVec 64 → Option (NullSpace V)
  files : Files V

/-- `Group::mapNullspace` for a group with free parameters: the nullspace that it finally uses, with
the cache and the files after it. -/
def useNullspace (hash : Entries → BitVec 64) (calculate : Labels → List V) (significant : V → Bool)
    (s : Store V) (g : Labels) : Option (Store V × Mapped V) :=
  let tmpNS := NullSpace.construct hash g
  let entriesHash := hash g.c_entries
  let cached := (s.cache entriesHash).getD tmpNS
  let verified := cached.verify s.files g
  let nullspace := if verified.2 then verified.1 else { tmpNS with ns := none }
  (nullspace.prepare calculate significant verified.2 s.files).map fun prepared =>
    let kept := if verified.2 then prepared.1 else verified.1
    (⟨Function.update s.cache entriesHash (some kept), prepared.2⟩, prepared.1.ns_entries)

/-- `Group::mapNullspace`: the `ns_entries` of a group at an offset (row and column). -/
def mapNullspace [Zero V] (hash : Entries → BitVec 64) (calculate : Labels → List V)
    (significant : V → Bool) (s : Store V) (g : Labels) (groupOffset : ℤ × ℤ) :
    Option (Store V × List ((ℤ × ℤ) × V)) :=
  if g.nConstraints < g.nParameters then
    (useNullspace hash calculate significant s g).map fun used =>
      (used.1, used.2.entries.map fun entry =>
        ((entry.1.1 + groupOffset.1, entry.1.2 + groupOffset.2), entry.2))
  else if g.nParameters = g.nConstraints then
    some (s, (List.range g.nParameters.toNat).map fun i : ℕ => ((groupOffset.1 + i, -1), 0))
  else some (s, [])

end Model

/-! ## Whose nullspace it is -/

section Owners

variable {V : Type} {hash : Entries → BitVec 64} {calculate : Labels → List V} {significant : V → Bool}
  {s s' : Store V} {g : Labels} {o : NullSpace V}

/-- The entries were made from the nullspace of the group, in its columns. -/
def Mapped.Owned (g : Labels) (u : Mapped V) : Prop := u.source = some g ∧ u.nCols = g.nFree

/-- The group uses the nullspace that was computed for it. -/
def UsesOwn (hash : Entries → BitVec 64) (calculate : Labels → List V) (significant : V → Bool)
    (s : Store V) (g : Labels) : Prop :=
  ∃ s' u, useNullspace hash calculate significant s g = some (s', u) ∧ u.Owned g

/-- An object as `prepare` needs it: its entries are the group's, or without entries its numbers are,
or without numbers its labels are. -/
def NullSpace.Ready (g : Labels) (o : NullSpace V) : Prop :=
  if o.ns_entries.entries = [] then
    match o.ns with
    | none => o.labels = g
    | some m => m.source = some g ∧ o.labels.nFree = g.nFree
  else o.ns_entries.Owned g

/-- What may be found for a group: in memory an object with other labels, a ready one that is loaded, or
one that is not and has no file or one that makes it ready; a file that is not read to its end leaves
its labels behind. -/
def Sound (hash : Entries → BitVec 64) (s : Store V) (g : Labels) : Prop :=
  let o := (s.cache (hash g.c_entries)).getD (.construct hash g)
  o.labels = g →
    if o.isLoaded then o.Ready g
    else match s.files o.path with
      | none => True
      | some file => if file.complete then (o.cunpack file).Ready g else (o.cunpack file).labels = g

/-- With a column at least, mapping numbers does not divide by zero. -/
theorem mapNullspace_owned (hg : 0 < g.nFree) :
    (∃ o', o.mapNullspace significant = some o' ∧ o'.ns_entries.Owned g) ↔
      o.ns.bind Matrix.source = some g ∧ o.labels.nFree = g.nFree := by
  unfold NullSpace.mapNullspace
  constructor
  · rintro ⟨o', hmap, howned⟩
    dsimp only at hmap
    split_ifs at hmap
    rw [← Option.some.inj hmap] at howned
    exact howned
  · rintro ⟨hsource, hfree⟩
    refine ⟨_, if_neg ?_, hsource, hfree⟩
    rintro ⟨hzero, -⟩
    omega

/-- What comes of an object that has its numbers. -/
theorem mapped_owned (hg : 0 < g.nFree) (files : Files V) :
    (∃ p, (if o.ns_entries.entries = [] then o.mapNullspace significant else some o).map (fun o => (o, files))
        = some p ∧ p.1.ns_entries.Owned g) ↔
      if o.ns_entries.entries = [] then o.ns.bind Matrix.source = some g ∧ o.labels.nFree = g.nFree
      else o.ns_entries.Owned g := by
  split_ifs with hentries
  · rw [← @mapNullspace_owned _ significant _ _ hg]
    constructor
    · rintro ⟨p, hp, howned⟩
      obtain ⟨o', hmap, rfl⟩ := Option.map_eq_some_iff.1 hp
      exact ⟨o', hmap, howned⟩
    · rintro ⟨o', hmap, howned⟩
      exact ⟨(o', files), by rw [hmap, Option.map_some], howned⟩
  · constructor
    · rintro ⟨p, hp, howned⟩
      rwa [← Option.some.inj hp] at howned
    · exact fun howned => ⟨(o, files), rfl, howned⟩

/-- **An object gives a group its own nullspace exactly if it is ready for it.** -/
theorem prepare_owned (hg : 0 < g.nFree) (store : Bool) (files : Files V) :
    (∃ p, o.prepare calculate significant store files = some p ∧ p.1.ns_entries.Owned g) ↔ o.Ready g := by
  unfold NullSpace.prepare NullSpace.Ready
  dsimp only
  cases hns : o.ns with
  | some m =>
    rw [Option.isNone_some, if_neg Bool.false_ne_true, mapped_owned hg, hns, Option.bind_some]
  | none =>
    rw [Option.isNone_none, if_pos rfl, mapped_owned hg]
    unfold NullSpace.calculateNullspace
    by_cases hfree : o.labels.nFree < 1
    · -- without free parameters nothing is calculated, and the group has some
      rw [if_pos hfree]
      refine (if_congr Iff.rfl (propext ⟨fun h => (nomatch h.1), ?_⟩) rfl).to_iff
      rintro rfl
      omega
    · rw [if_neg hfree]
      refine (if_congr Iff.rfl (propext ⟨fun h => Option.some.inj h.1, ?_⟩) rfl).to_iff
      rintro rfl
      exact ⟨rfl, rfl⟩

/-- The object that a group settles on. -/
theorem usesOwn_iff_ready (hg : 0 < g.nFree) :
    UsesOwn hash calculate significant s g ↔
      let tmpNS : NullSpace V := .construct hash g
      let verified := ((s.cache (hash g.c_entries)).getD tmpNS).verify s.files g
      (if verified.2 then verified.1 else { tmpNS with ns := none }).Ready g := by
  dsimp only
  rw [← @prepare_owned _ calculate significant _ _ hg
    (((s.cache (hash g.c_entries)).getD (.construct hash g)).verify s.files g).2 s.files]
  constructor
  · rintro ⟨s', u, huse, howned⟩
    obtain ⟨p, hp, heq⟩ := Option.map_eq_some_iff.1 huse
    rw [← (Prod.mk.inj heq).2] at howned
    exact ⟨p, hp, howned⟩
  · rintro ⟨p, hp, howned⟩
    exact ⟨_, p.1.ns_entries, Option.map_eq_some_iff.2 ⟨p, hp, rfl⟩, howned⟩

/-- **A group uses its own nullspace exactly if what is found for it is sound.** -/
theorem usesOwn_iff (hg : g.nConstraints < g.nParameters) :
    UsesOwn hash calculate significant s g ↔ Sound hash s g := by
  rw [usesOwn_iff_ready (Int.sub_pos.2 hg), Sound]
  dsimp only
  generalize (s.cache (hash g.c_entries)).getD (.construct hash g) = o
  unfold NullSpace.verify
  by_cases hlabels : o.labels = g
  · rw [if_neg (not_not.2 hlabels), imp_iff_right hlabels]
    by_cases hloaded : o.isLoaded = true
    · rw [if_pos hloaded, if_pos hloaded, if_pos rfl]
    · rw [if_neg hloaded, if_neg hloaded, NullSpace.cacheLoad, if_neg hloaded]
      cases s.files o.path with
      | none => exact iff_of_true hlabels trivial
      | some file =>
        obtain ⟨_, _, _, _, _, complete⟩ := file
        cases complete with
        | true => exact Iff.rfl
        | false => exact Iff.rfl
  · rw [if_pos hlabels, if_neg Bool.false_ne_true]
    exact iff_of_true rfl fun h => absurd h hlabels

end Owners

/-! ## Runs that start without files -/

section Runs

variable {V : Type} {hash : Entries → BitVec 64} {calculate : Labels → List V} {significant : V → Bool}
  {s s' : Store V} {g : Labels} {o : NullSpace V} {store : Bool} {files : Files V} {p : NullSpace V × Files V}

/-- The next group gets its nullspace. -/
def step (hash : Entries → BitVec 64) (calculate : Labels → List V) (significant : V → Bool)
    (s : Store V) (g : Labels) : Option (Store V) :=
  if g.nConstraints < g.nParameters then (useNullspace hash calculate significant s g).map Prod.fst
  else some s

/-- A cached object: it is loaded, and ready for a group with its labels. -/
structure NullSpace.Honest (entriesHash : BitVec 64) (o : NullSpace V) : Prop where
  path : o.path.entriesHash = entriesHash
  loaded : o.isLoaded = true
  ready : o.Ready o.labels

/-- What is cached is honest, and there is no file without its object. -/
structure Tidy (s : Store V) : Prop where
  cached : ∀ h o, s.cache h = some o → o.Honest h
  stored : ∀ p file, s.files p = some file → ∃ o, s.cache p.entriesHash = some o

theorem mapNullspace_eq {o' : NullSpace V} (h : o.mapNullspace significant = some o') :
    o' = { o with ns_entries :=
      ⟨NullSpace.mappedEntries significant o.labels.nFree (o.ns.elim [] Matrix.numbers),
        o.ns.bind Matrix.source, o.labels.nFree⟩ } := by
  unfold NullSpace.mapNullspace at h
  dsimp only at h
  split_ifs at h
  exact (Option.some.inj h).symm

/-- What `prepare` makes of an object: it calculates it if need be, and keeps the entries it has. -/
theorem prepare_eq (h : o.prepare calculate significant store files = some p) :
    ∃ c u, (if o.ns.isNone then o.calculateNullspace calculate store files else (o, files)) = c ∧
      p = ({ c.1 with ns_entries := u }, c.2) ∧
      (c.1.ns_entries.entries = [] → u.source = c.1.ns.bind Matrix.source) ∧
      (c.1.ns_entries.entries ≠ [] → u = c.1.ns_entries) := by
  unfold NullSpace.prepare at h
  obtain ⟨o', hmap, rfl⟩ := Option.map_eq_some_iff.1 h
  dsimp only at hmap ⊢
  generalize (if o.ns.isNone then o.calculateNullspace calculate store files else (o, files)) = c at hmap ⊢
  by_cases hentries : c.1.ns_entries.entries = []
  · rw [if_pos hentries] at hmap
    obtain rfl := mapNullspace_eq hmap
    exact ⟨c, _, rfl, rfl, fun _ => rfl, absurd hentries⟩
  · rw [if_neg hentries] at hmap
    obtain rfl := Option.some.inj hmap
    exact ⟨c, _, rfl, rfl, fun h => absurd h hentries, fun _ => rfl⟩

/-- An object that is calculated keeps its labels, its path and its entries, and writes to no other
file. -/
theorem calculateNullspace_frame :
    (o.calculateNullspace calculate store files).1.labels = o.labels ∧
    (o.calculateNullspace calculate store files).1.path = o.path ∧
    ∀ q, (o.calculateNullspace calculate store files).2 q ≠ files q → store = true ∧ q = o.path := by
  unfold NullSpace.calculateNullspace
  split_ifs with hfree hstore
  · exact ⟨rfl, rfl, fun q hq => absurd rfl hq⟩
  · refine ⟨rfl, rfl, fun q hq => ⟨hstore, ?_⟩⟩
    by_contra hne
    exact hq (Function.update_of_ne hne _ _)
  · exact ⟨rfl, rfl, fun q hq => absurd rfl hq⟩

/-- `prepare` keeps the labels and the path, and writes to no other file. -/
theorem prepare_frame (h : o.prepare calculate significant store files = some p) :
    p.1.labels = o.labels ∧ p.1.path = o.path ∧ ∀ q, p.2 q ≠ files q → store = true ∧ q = o.path := by
  obtain ⟨c, u, rfl, rfl, -⟩ := prepare_eq h
  split_ifs
  · exact calculateNullspace_frame
  · exact ⟨rfl, rfl, fun q hq => absurd rfl hq⟩

/-- `prepare` leaves an object loaded that was, or that had nothing. -/
theorem prepare_loaded (hfree : 0 < o.labels.nFree) (h : o.prepare calculate significant store files = some p)
    (ho : o.isLoaded = true ∨ o.ns = none) : p.1.isLoaded = true := by
  obtain ⟨c, u, rfl, rfl, -⟩ := prepare_eq h
  split_ifs with hns
  · rw [NullSpace.calculateNullspace, if_neg (by omega)]
  · rcases ho with hloaded | hnone
    · exact hloaded
    · rw [hnone] at hns
      exact absurd rfl hns

/-- `prepare` leaves an object ready. -/
theorem prepare_ready (hfree : 0 < o.labels.nFree) (h : o.prepare calculate significant store files = some p)
    (ho : o.Ready o.labels) : p.1.Ready o.labels := by
  obtain ⟨p', hp', howned⟩ := (@prepare_owned _ calculate significant _ _ hfree store files).2 ho
  obtain rfl := Option.some.inj (h.symm.trans hp')
  have hlabels := (prepare_frame h).1
  unfold NullSpace.Ready
  split_ifs with hentries
  · obtain ⟨c, u, -, rfl, hmapped, hkept⟩ := prepare_eq h
    dsimp only at hentries hlabels howned ⊢
    cases hns : c.1.ns with
    | none => exact hlabels
    | some m =>
      have hempty : c.1.ns_entries.entries = [] := by
        by_contra hne
        rw [hkept hne] at hentries
        exact hne hentries
      have hsource := hmapped hempty
      rw [hns, howned.1] at hsource
      exact ⟨hsource.symm, congrArg Labels.nFree hlabels⟩
  · exact howned

theorem not_loaded : ¬ (NullSpace.construct (V := V) hash g).isLoaded = true := Bool.false_ne_true

/-- A group without an object has no file, which would have an object. -/
theorem Tidy.no_file (hs : Tidy s) (hcache : s.cache (hash g.c_entries) = none) :
    s.files (NullSpace.construct (V := V) hash g).path = none := by
  by_contra hne
  obtain ⟨file, hfile⟩ := Option.ne_none_iff_exists'.1 hne
  obtain ⟨o, ho⟩ := hs.stored _ file hfile
  exact nomatch hcache.symm.trans ho

/-- What `verify` does in a tidy store: it turns down an honest object, or the group gets an object that
is ready. -/
theorem verify_tidy (hs : Tidy s) :
    let o := (s.cache (hash g.c_entries)).getD (.construct hash g)
    let verified := o.verify s.files g
    (verified.2 = false ∧ verified.1.Honest (hash g.c_entries)) ∨
      (verified.2 = true ∧ verified.1.labels = g ∧ verified.1.path.entriesHash = hash g.c_entries ∧
        (verified.1.isLoaded = true ∨ verified.1.ns = none) ∧ verified.1.Ready g) := by
  dsimp only
  cases hcache : s.cache (hash g.c_entries) with
  | some o =>
    have ho := hs.cached _ o hcache
    rw [Option.getD_some]
    unfold NullSpace.verify
    by_cases hlabels : o.labels = g
    · rw [if_neg (not_not.2 hlabels), if_pos ho.loaded]
      exact .inr ⟨rfl, hlabels, ho.path, .inl ho.loaded, hlabels ▸ ho.ready⟩
    · rw [if_pos hlabels]
      exact .inl ⟨rfl, ho⟩
  | none =>
    have hlabels : (NullSpace.construct (V := V) hash g).labels = g := rfl
    rw [Option.getD_none, NullSpace.verify, if_neg (not_not.2 hlabels), if_neg not_loaded,
      NullSpace.cacheLoad, if_neg not_loaded, hs.no_file hcache]
    exact .inr ⟨rfl, rfl, rfl, .inr rfl, rfl⟩

theorem Tidy.usesOwn (hs : Tidy s) (hg : 0 < g.nFree) : UsesOwn hash calculate significant s g := by
  rw [usesOwn_iff_ready hg]
  have hverify := @verify_tidy V hash s g hs
  dsimp only at hverify ⊢
  rcases hverify with ⟨hfalse, -⟩ | ⟨htrue, -, -, -, hready⟩
  · rw [hfalse, if_neg Bool.false_ne_true]
    exact rfl
  · rw [htrue, if_pos rfl]
    exact hready

/-- An honest object may be kept, and its file written. -/
theorem Tidy.update {h : BitVec 64} (hs : Tidy s) (ho : o.Honest h)
    (hfiles : ∀ q, files q ≠ s.files q → q.entriesHash = h) :
    Tidy ⟨Function.update s.cache h (some o), files⟩ := by
  refine ⟨fun h' o' ho' => ?_, fun q file hfile => ?_⟩ <;> dsimp only at *
  · by_cases hh : h' = h
    · rw [hh, Function.update_self] at ho'
      exact hh ▸ Option.some.inj ho' ▸ ho
    · rw [Function.update_of_ne hh] at ho'
      exact hs.cached h' o' ho'
  · by_cases hh : q.entriesHash = h
    · exact ⟨o, by rw [hh, Function.update_self]⟩
    · rw [Function.update_of_ne hh]
      refine hs.stored q file ?_
      rw [← hfile]
      by_contra hne
      exact hh (hfiles q (Ne.symm hne))

theorem step_tidy (hs : Tidy s) (h : step hash calculate significant s g = some s') : Tidy s' := by
  unfold step at h
  split_ifs at h with hg
  · have hfree : 0 < g.nFree := Int.sub_pos.2 hg
    obtain ⟨used, huse, rfl⟩ := Option.map_eq_some_iff.1 h
    obtain ⟨p, hp, rfl⟩ := Option.map_eq_some_iff.1 huse
    have hverify := @verify_tidy V hash s g hs
    dsimp only at hp hverify ⊢
    generalize ((s.cache (hash g.c_entries)).getD (.construct hash g)).verify s.files g = verified at *
    rcases hverify with ⟨hfalse, ho⟩ | ⟨htrue, hlabels, hpath, hloaded, hready⟩
    · rw [hfalse, if_neg Bool.false_ne_true]
      rw [hfalse] at hp
      refine hs.update ho fun q hq => ?_
      exact absurd ((prepare_frame hp).2.2 q hq).1 Bool.false_ne_true
    · rw [htrue, if_pos rfl]
      rw [htrue, if_pos rfl] at hp
      rw [← hlabels] at hfree hready
      obtain ⟨hsame, hpath', hfiles⟩ := prepare_frame hp
      refine hs.update ⟨?_, prepare_loaded hfree hp hloaded, ?_⟩ fun q hq => ?_
      · rw [hpath', hpath]
      · rw [hsame]
        exact prepare_ready hfree hp hready
      · rw [(hfiles q hq).2, hpath]
  · exact Option.some.inj h ▸ hs

/-- No group of such a run fails. -/
theorem Tidy.exists_step (hs : Tidy s) (g : Labels) : ∃ s', step hash calculate significant s g = some s' := by
  unfold step
  split_ifs with hg
  · have howns : UsesOwn hash calculate significant s g := hs.usesOwn (Int.sub_pos.2 hg)
    obtain ⟨s', u, huse, -⟩ := howns
    exact ⟨s', by rw [huse]; rfl⟩
  · exact ⟨s, rfl⟩

theorem Tidy.exists_run (hs : Tidy s) (gs : List Labels) :
    ∃ s', gs.foldlM (step hash calculate significant) s = some s' := by
  induction gs generalizing s with
  | nil => exact ⟨s, rfl⟩
  | cons g gs ih =>
    obtain ⟨s₁, hstep⟩ : ∃ s₁, step hash calculate significant s g = some s₁ := hs.exists_step g
    obtain ⟨s', hrun⟩ := ih (step_tidy hs hstep)
    refine ⟨s', ?_⟩
    rw [List.foldlM_cons, hstep]
    exact hrun

/-- **Groups that find no files but those of their own run always use their own nullspace**, and none fails. -/
theorem usesOwn_of_run (hash : Entries → BitVec 64) (calculate : Labels → List V) (significant : V → Bool)
    (gs : List Labels) :
    (∃ s, gs.foldlM (step hash calculate significant) ⟨fun _ => none, fun _ => none⟩ = some s) ∧
      Each (step hash calculate significant)
        (fun s g _ => g.nConstraints < g.nParameters → UsesOwn hash calculate significant s g)
        ⟨fun _ => none, fun _ => none⟩ gs := by
  have hempty : Tidy (⟨fun _ => none, fun _ => none⟩ : Store V) :=
    ⟨fun _ _ ho => (nomatch ho), fun _ _ hfile => (nomatch hfile)⟩
  refine ⟨hempty.exists_run gs, @each_of_each _ _ _ Tidy (fun _ _ _ => True) _ ?_ _ _ hempty each_true⟩
  intro s g s' hs _ hstep
  exact ⟨step_tidy hs hstep, fun hg => hs.usesOwn (Int.sub_pos.2 hg)⟩

end Runs

/-! ## A file of another group -/

/-- Two images that are equal, and two whose sum is zero. -/
def equalPair : Labels := ⟨[(0, 1), (1, -1)], 2, 1⟩

def oppositePair : Labels := ⟨[(0, 1), (1, 1)], 2, 1⟩

/-- The nullspaces of the two. -/
def pairNumbers (l : Labels) : List ℤ := if l.c_entries = equalPair.c_entries then [1, 1] else [1, -1]

/-- No object, and the file that an object leaves. -/
def leftBy (l : Labels) : Store ℤ where
  cache := fun _ => none
  files := ((NullSpace.construct (fun _ => 0) l).calculateNullspace pairNumbers true fun _ => none).2

theorem equalPair_usesOwn : UsesOwn (fun _ => 0) pairNumbers (· ≠ 0) (leftBy equalPair) equalPair :=
  (usesOwn_iff (by decide)).2 fun _ => ⟨rfl, rfl⟩

/-- Under a hash that does not tell the two apart, the second one reads the file of the first and uses
its nullspace. -/
theorem file_of_another_group : ¬ ∀ (hash : Entries → BitVec 64) (calculate : Labels → List ℤ)
    (significant : ℤ → Bool) (s : Store ℤ) (g : Labels), g.nConstraints < g.nParameters →
      UsesOwn hash calculate significant s g := by
  intro h
  obtain ⟨s', u, huse, howned⟩ := h (fun _ => 0) pairNumbers (· ≠ 0) (leftBy equalPair) oppositePair (by decide)
  have hu : u = ⟨[((0, 0), 1), ((1, 0), 1)], some equalPair, 1⟩ := (congrArg Prod.snd (Option.some.inj huse)).symm
  rw [hu] at howned
  exact absurd howned.1 (by decide)

end Redux.Momfbd.Constraints
