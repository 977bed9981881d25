import Redux.Network.Host

/-!
# Momfbd.RegisterJob — the types of jobs that are registered

`Job::registerJob` puts the creator of a type of job into a map, under its name in upper case, with the number of
types plus one for its id, and returns the number of types before it is counted up.  So what is returned for a new
name is not what is stored for it, and what is stored for one name is returned for the next one.  The calls are
consistent exactly if they add no name (`consistent_iff`).
-/

namespace Redux.Momfbd

open Redux.Network

section Model

variable {F : Type*}

/-- `boost::to_upper_copy`. -/
def to_upper_copy (name : List (Fin 256)) : List (Fin 256) := name.map toupper

/-- `nJobTypes`, and what `getMap()` refers to.  The ids in the map are not above the number of types, and no two
names have the same. -/
structure Registry (F : Type*) where
  nJobTypes : ℕ
  map : List (Fin 256) → Option (ℕ × F)
  le : ∀ {key id f}, map key = some (id, f) → id ≤ nJobTypes
  inj : ∀ {key key' id f f'}, map key = some (id, f) → map key' = some (id, f') → key = key'

namespace Registry

/-- Before the first call. -/
def start : Registry F where
  nJobTypes := 2
  map _ := none
  le h := nomatch h
  inj h _ := nomatch h

/-- The next id for a key, which is then counted. -/
def add (r : Registry F) (key : List (Fin 256)) (f : F) : Registry F where
  nJobTypes := r.nJobTypes + 1
  map := Function.update r.map key (some (r.nJobTypes + 1, f))
  le {key' id f'} h := by
    by_cases hkey : key' = key
    · rw [hkey, Function.update_self] at h
      cases h
      exact le_rfl
    · rw [Function.update_of_ne hkey] at h
      exact (r.le h).trans (Nat.le_succ _)
  inj {key₁ key₂ id f₁ f₂} h₁ h₂ := by
    -- an id that was there is not the new one
    have hne : ∀ {k f'}, r.map k ≠ some (r.nJobTypes + 1, f') := fun h => Nat.not_succ_le_self _ (r.le h)
    by_cases hkey₁ : key₁ = key <;> by_cases hkey₂ : key₂ = key
    · rw [hkey₁, hkey₂]
    · rw [hkey₁, Function.update_self] at h₁
      rw [Function.update_of_ne hkey₂] at h₂
      cases h₁
      exact absurd h₂ hne
    · rw [hkey₂, Function.update_self] at h₂
      rw [Function.update_of_ne hkey₁] at h₁
      cases h₂
      exact absurd h₁ hne
    · rw [Function.update_of_ne hkey₁] at h₁
      rw [Function.update_of_ne hkey₂] at h₂
      exact r.inj h₁ h₂

/-- `registerJob( name, f )`: what it returns, and the registry after it. -/
def registerJob (r : Registry F) (name : List (Fin 256)) (f : F) : ℕ × Registry F :=
  match r.map (to_upper_copy name) with
  | some stored => (stored.1, r)
  | none => (r.nJobTypes, r.add (to_upper_copy name) f)

end Registry

/-- A call of `registerJob`. -/
structure JobType (F : Type*) where
  name : List (Fin 256)
  create : F

namespace JobType

def key (c : JobType F) : List (Fin 256) := to_upper_copy c.name

end JobType

namespace Registry

/-- Calls one after the other: each with the id that is returned, and the registry after them. -/
def registerAll (r : Registry F) : List (JobType F) → List (JobType F × ℕ) × Registry F
  | [] => ([], r)
  | c :: calls =>
    let called := r.registerJob c.name c.create
    let rest := called.2.registerAll calls
    ((c, called.1) :: rest.1, rest.2)

/-- What is expected of some calls. -/
structure Consistent (r : Registry F) (calls : List (JobType F)) : Prop where
  stored : ∀ c ∈ (r.registerAll calls).1, ((r.registerAll calls).2.map c.1.key).map Prod.fst = some c.2
  different : ∀ c ∈ (r.registerAll calls).1, ∀ d ∈ (r.registerAll calls).1, c.1.key ≠ d.1.key → c.2 ≠ d.2
  again : ∀ c ∈ (r.registerAll calls).1, ∀ d ∈ (r.registerAll calls).1, c.1.key = d.1.key → c.2 = d.2
  first : ∀ key, ((r.registerAll calls).2.map key).map Prod.snd =
    ((r.map key).map Prod.snd).or ((calls.find? fun c => c.key = key).map JobType.create)

end Registry

end Model

/-! ## One call -/

section Calls

variable {F : Type*} {r : Registry F} {c : JobType F} {calls : List (JobType F)} {key : List (Fin 256)} {s : ℕ × F}

namespace Registry

theorem registerJob_of_some (h : r.map c.key = some s) : r.registerJob c.name c.create = (s.1, r) := by
  rw [registerJob, ← JobType.key, h]

/-- **A new name**: the id that is stored is not the one that is returned. -/
theorem registerJob_of_none (h : r.map c.key = none) :
    r.registerJob c.name c.create = (r.nJobTypes, r.add c.key c.create) := by
  rw [registerJob, ← JobType.key, h]

theorem add_map_self (r : Registry F) (key : List (Fin 256)) (f : F) :
    (r.add key f).map key = some (r.nJobTypes + 1, f) := Function.update_self _ _ _

theorem add_map_of_ne {key' : List (Fin 256)} (h : key' ≠ key) (f : F) : (r.add key f).map key' = r.map key' :=
  Function.update_of_ne h _ _

/-- What is in the map stays as it is. -/
theorem registerJob_map_of_some (c : JobType F) (h : r.map key = some s) :
    (r.registerJob c.name c.create).2.map key = some s := by
  cases hc : r.map c.key with
  | some t => rw [registerJob_of_some hc, h]
  | none =>
    have hne : key ≠ c.key := by
      rintro rfl
      rw [hc] at h
      cases h
    rw [registerJob_of_none hc, add_map_of_ne hne, h]

/-- A call does not add other names than its own. -/
theorem registerJob_map_of_ne (h : key ≠ c.key) : (r.registerJob c.name c.create).2.map key = r.map key := by
  cases hc : r.map c.key with
  | some t => rw [registerJob_of_some hc]
  | none => rw [registerJob_of_none hc, add_map_of_ne h]

/-! ## Many calls -/

theorem registerAll_map_of_some : ∀ {calls : List (JobType F)} {r : Registry F}, r.map key = some s →
    (r.registerAll calls).2.map key = some s
  | [], _, h => h
  | c :: calls, _, h => @registerAll_map_of_some calls _ (registerJob_map_of_some c h)

/-- The names that are registered. -/
theorem registerAll_map_isSome : ∀ {calls : List (JobType F)} {r : Registry F},
    ((r.registerAll calls).2.map key).isSome = true ↔ (r.map key).isSome = true ∨ ∃ c ∈ calls, c.key = key
  | [], r => by simp [registerAll]
  | c :: calls, r => by
    rw [registerAll, registerAll_map_isSome, List.exists_mem_cons_iff, ← or_assoc]
    refine or_congr ?_ Iff.rfl
    by_cases hkey : c.key = key
    · subst hkey
      cases hc : r.map c.key with
      | some t => simp [registerJob_of_some hc, hc]
      | none => simp [registerJob_of_none hc, add_map_self]
    · rw [registerJob_map_of_ne (Ne.symm hkey), or_iff_left hkey]

/-- **The creator of a name is the one it was first registered with.** -/
theorem registerAll_creator : ∀ {calls : List (JobType F)} {r : Registry F},
    ((r.registerAll calls).2.map key).map Prod.snd =
      ((r.map key).map Prod.snd).or ((calls.find? fun c => c.key = key).map JobType.create)
  | [], r => by simp [registerAll]
  | c :: calls, r => by
    rw [registerAll, registerAll_creator]
    by_cases hkey : c.key = key
    · subst hkey
      cases hc : r.map c.key with
      | some t => simp [registerJob_of_some hc, hc]
      | none => simp [registerJob_of_none hc, add_map_self]
    · rw [registerJob_map_of_ne (Ne.symm hkey), List.find?_cons_of_neg (by simpa using hkey)]

/-- Calls with names that are in the map return the ids in it, and leave it as it is. -/
theorem registerAll_of_known : ∀ {calls : List (JobType F)}, (∀ c ∈ calls, (r.map c.key).isSome = true) →
    (r.registerAll calls).2 = r ∧ ∀ d ∈ (r.registerAll calls).1, (r.map d.1.key).map Prod.fst = some d.2
  | [], _ => ⟨rfl, fun _ h => absurd h List.not_mem_nil⟩
  | c :: calls, h => by
    obtain ⟨hc, hcalls⟩ := List.forall_mem_cons.1 h
    obtain ⟨s, hs⟩ := Option.isSome_iff_exists.1 hc
    obtain ⟨hlast, hids⟩ := registerAll_of_known hcalls
    rw [registerAll, registerJob_of_some hs]
    refine ⟨hlast, List.forall_mem_cons.2 ⟨?_, hids⟩⟩
    rw [hs]
    rfl

/-- **Of the calls with a new name** the first one returns less than what it stores. -/
theorem exists_id_lt (key : List (Fin 256)) : ∀ {calls : List (JobType F)} {r : Registry F}, r.map key = none →
    (∃ c ∈ calls, c.key = key) →
      ∃ d ∈ (r.registerAll calls).1, d.1.key = key ∧ ((r.registerAll calls).2.map key).map Prod.fst = some (d.2 + 1)
  | [], _, _, h => by
    obtain ⟨c, hc, -⟩ := h
    exact absurd hc List.not_mem_nil
  | c :: calls, r, hnone, h => by
    by_cases hkey : c.key = key
    · subst hkey
      refine ⟨(c, r.nJobTypes), ?_, rfl, ?_⟩
      · rw [registerAll, registerJob_of_none hnone]
        exact List.mem_cons_self
      · rw [registerAll, registerJob_of_none hnone, registerAll_map_of_some (add_map_self r c.key c.create)]
        rfl
    · have hrest := ((List.exists_mem_cons_iff _ _ _).1 h).resolve_left hkey
      obtain ⟨d, hd, hdkey, hstored⟩ := exists_id_lt key ((registerJob_map_of_ne (Ne.symm hkey)).trans hnone) hrest
      exact ⟨d, List.mem_cons_of_mem _ hd, hdkey, hstored⟩

theorem consistent_iff_known : r.Consistent calls ↔ ∀ c ∈ calls, (r.map c.key).isSome = true := by
  constructor
  · intro h c hc
    by_contra hnone
    rw [Option.not_isSome_iff_eq_none] at hnone
    obtain ⟨d, hd, hkey, hstored⟩ := exists_id_lt c.key hnone ⟨c, hc, rfl⟩
    have hsame := h.stored d hd
    rw [hkey, hstored, Option.some.injEq] at hsame
    exact Nat.succ_ne_self _ hsame
  · intro h
    obtain ⟨hlast, hids⟩ := registerAll_of_known h
    refine ⟨fun c hc => ?_, fun c hc d hd hne heq => hne ?_, fun c hc d hd hkey => ?_, fun key => registerAll_creator⟩
    · rw [hlast]
      exact hids c hc
    · obtain ⟨⟨i, f⟩, hi, hic⟩ := Option.map_eq_some_iff.1 (hids c hc)
      obtain ⟨⟨j, g⟩, hj, hjd⟩ := Option.map_eq_some_iff.1 (hids d hd)
      obtain rfl : i = j := (hic.trans heq).trans hjd.symm
      exact r.inj hi hj
    · have hc' := hids c hc
      rw [hkey, hids d hd, Option.some.injEq] at hc'
      exact hc'.symm

/-- **The calls are consistent exactly if their names have all been registered before.** -/
theorem consistent_iff (earlier calls : List (JobType F)) :
    ((start : Registry F).registerAll earlier).2.Consistent calls ↔ ∀ c ∈ calls, ∃ e ∈ earlier, e.key = c.key := by
  rw [consistent_iff_known]
  refine forall₂_congr fun c _ => ?_
  rw [registerAll_map_isSome]
  exact or_iff_right Bool.false_ne_true

/-- `registerJob( "momfbd", MomfbdJob::create )`. -/
theorem momfbd_not_consistent :
    ¬(start : Registry Unit).Consistent [⟨[109, 111, 109, 102, 98, 100], ()⟩] := by
  intro h
  have hstored := h.stored (⟨[109, 111, 109, 102, 98, 100], ()⟩, 2) (List.mem_singleton.2 rfl)
  exact absurd hstored (by decide)

end Registry

end Calls

end Redux.Momfbd
