import Mathlib.Algebra.Order.Ring.Rat
import Mathlib.Algebra.BigOperators.Group.List.Basic
import Mathlib.Logic.Function.Basic
import Redux.Lib.Run
import Redux.Lib.Sharing

/-!
# Momfbd.ModeCache — the mode sets that jobs share

`GlobalData::get` hands out pointers to the mode sets of the process-wide cache.  The set for a scale is
made from the unscaled one ("copy/rescale it"), and it is the same set: the cache stores the pointer, and
the scaling works in place.  Sets are filled by whoever gets an empty one.
-/

namespace Redux.Momfbd.Modes

open Redux.Lib

/-! ## Model -/

/-- `modePointers[i]`, with its pixels, and `norms[i]`. -/
structure Mode where
  pixels : List ℚ
  norm : ℚ
  deriving DecidableEq

abbrev ModeSet := List Mode

structure Pupil where
  pixels : List ℚ
  area : ℚ
  deriving DecidableEq

/-- What the modes are, without the norms that are stored with them. -/
def content (ms : ModeSet) : List (List ℚ) := ms.map Mode.pixels

/-- `norms[i]` as `getNorms` computes it. -/
def normOf (sqrtl : ℚ → ℚ) (pup : Pupil) (pixels : List ℚ) : ℚ :=
  sqrtl ((List.zipWith (fun a p => if p > 0 then a * p * a else 0) pixels pup.pixels).sum / pup.area)

def getNorms (sqrtl : ℚ → ℚ) (pup : Pupil) (ms : ModeSet) : ModeSet :=
  ms.map fun m => { m with norm := normOf sqrtl pup m.pixels }

def normalize (scale : ℚ) (ms : ModeSet) : ModeSet :=
  ms.map fun m => ⟨m.pixels.map (· * (scale / m.norm)), scale / m.norm⟩

/-- The maps of a `GlobalData`.  Keys are told apart by equality.  The source's maps order them by
`ModeInfo::operator<`, which is a strict weak ordering, with equal keys alone equivalent, only where no keys are
`Lookalikes` or `Crossed`. -/
structure GlobalData (ι : Type) where
  modes : ι → Option ℕ
  scaled_modes : ι × ℚ → Option ℕ

namespace GlobalData

variable {ι : Type} [DecidableEq ι] (d : GlobalData ι)

/-- `modes.emplace( id, ret )`. -/
def emplace (id : ι) (r : ℕ) : GlobalData ι := { d with modes := Function.update d.modes id (some r) }

/-- `scaled_modes.emplace( id, ret )`. -/
def emplaceScaled (id : ι × ℚ) (r : ℕ) : GlobalData ι :=
  { d with scaled_modes := Function.update d.scaled_modes id (some r) }

end GlobalData

/-- All mode sets, each at its pointer, the two maps of the cache, and every `GlobalData`.  `loaded` is what
a set was loaded or generated with, `out` are the sets handed out for an unscaled info, and `scaledOut`
those handed out for a scale, with the scale and the pupil. -/
structure State (ι : Type) where
  sets : List ModeSet
  cache : ι → Option ℕ
  scaledCache : ι × ℚ → Option ℕ
  data : ℕ → GlobalData ι
  loaded : ℕ → List (List ℚ)
  out : List ℕ
  scaledOut : List (ℕ × ℚ × Option Pupil)

/-- A call by a `GlobalData`, or a caller that loads or generates the empty set it was given. -/
inductive Call (ι : Type) where
  | get (g : ℕ) (id : ι) (ms : Option ℕ)
  | getScaled (g : ℕ) (id : ι) (scale : ℚ) (pupil : Option Pupil) (ms : Option ℕ)
  | load (r : ℕ) (modes : ModeSet)

namespace State

variable {ι : Type} [DecidableEq ι] (sqrtl : ℚ → ℚ) (s : State ι)

def init : State ι := ⟨[], fun _ => none, fun _ => none, fun _ => ⟨fun _ => none, fun _ => none⟩, fun _ => [], [], []⟩

/-- `Cache::get( id, ms )`, and a new set if there is none yet. -/
def fetch (id : ι) (ms : Option ℕ) : State ι × ℕ :=
  match s.cache id with
  | some r => (s, r)
  | none =>
    match ms with
    | some r => ({ s with cache := Function.update s.cache id (some r) }, r)
    | none => ({ s with sets := s.sets ++ [[]], cache := Function.update s.cache id (some s.sets.length) },
        s.sets.length)

/-- `get( id, ms )`. -/
def get (g : ℕ) (id : ι) (ms : Option ℕ) : State ι × ℕ :=
  match (s.data g).modes id with
  | some r => (s, r)
  | none =>
    let (s, r) := s.fetch id ms
    ({ s with data := Function.update s.data g ((s.data g).emplace id r) }, r)

/-- `getNorms` if there is a pupil, then `normalize`. -/
def rescale (pupil : Option Pupil) (scale : ℚ) (ms : ModeSet) : ModeSet :=
  match pupil with
  | some pup => normalize scale (getNorms sqrtl pup ms)
  | none => normalize scale ms

/-- The first use of a scale by a `GlobalData`, after the unscaled set `r` has been found. -/
def enter (g : ℕ) (id : ι) (scale : ℚ) (pupil : Option Pupil) (r : ℕ) : State ι × ℕ :=
  let r := (s.scaledCache (id, scale)).getD r
  ({ s with
      scaledCache := Function.update s.scaledCache (id, scale) (some r)
      data := Function.update s.data g ((s.data g).emplaceScaled (id, scale) r)
      sets := s.sets.modify r (rescale sqrtl pupil scale) }, r)

/-- `get( id, scale, pupil, ms )`. -/
def getScaled (g : ℕ) (id : ι) (scale : ℚ) (pupil : Option Pupil) (ms : Option ℕ) : State ι × ℕ :=
  match (s.data g).scaled_modes (id, scale) with
  | some r => (s, r)
  | none =>
    let (s, r) := s.get g id ms
    s.enter sqrtl g id scale pupil r

/-- A set passed as `ms` exists, and only a set that has been handed out and is empty is loaded. -/
def step : Call ι → Option (State ι)
  | .get g id ms =>
    if ∀ r ∈ ms, r < s.sets.length then
      let (s, r) := s.get g id ms
      some { s with out := r :: s.out }
    else none
  | .getScaled g id scale pupil ms =>
    if ∀ r ∈ ms, r < s.sets.length then
      let (s, r) := s.getScaled sqrtl g id scale pupil ms
      some { s with scaledOut := (r, scale, pupil) :: s.scaledOut }
    else none
  | .load r modes =>
    if r ∈ s.out ∧ s.sets[r]? = some [] then
      some { s with sets := s.sets.set r modes, loaded := Function.update s.loaded r (content modes) }
    else none

/-- The modes are normalised to the scale over the pupil. -/
def Normalised (scale : ℚ) (pupil : Option Pupil) (ms : ModeSet) : Prop :=
  ∀ pup, pupil = some pup → ∀ m ∈ ms, normOf sqrtl pup m.pixels = scale

/-- The sets handed out for a scale have it, and those handed out unscaled are as they were loaded. -/
structure Kept : Prop where
  scaled : Promised (fun o : ℕ × ℚ × Option Pupil => some o.1) (fun o => Normalised sqrtl o.2.1 o.2.2)
    s.scaledOut s.sets
  unscaled : Promised some (fun r ms => content ms = s.loaded r) s.out s.sets

/-- The set that the first use of a scale works on, if it exists already. -/
def source (g : ℕ) (id : ι) (scale : ℚ) (ms : Option ℕ) : Option ℕ :=
  (((s.scaledCache (id, scale)).or ((s.data g).modes id)).or (s.cache id)).or ms

/-- The norm that the first use of a scale divides by. -/
def normUsed (pupil : Option Pupil) (m : Mode) : ℚ :=
  match pupil with
  | some pup => normOf sqrtl pup m.pixels
  | none => m.norm

/-- What a call must find: the first use of a scale, a set that has this scale already, if any modes; a later
use and whoever loads a set, the scale that the set has been handed out for. -/
def Settled : Call ι → Prop
  | .get _ _ _ => True
  | .getScaled g id scale pupil ms =>
    match (s.data g).scaled_modes (id, scale) with
    | some r => ∀ set, s.sets[r]? = some set → Normalised sqrtl scale pupil set
    | none => ∀ r, s.source g id scale ms = some r → ∀ set, s.sets[r]? = some set →
        ∀ m ∈ set, normUsed sqrtl pupil m = scale ∧ scale ≠ 0
  | .load r modes => ∀ o ∈ s.scaledOut, o.1 = r → Normalised sqrtl o.2.1 o.2.2 modes

end State

section Results

variable {ι : Type} {sqrtl : ℚ → ℚ} {s s' : State ι} {r : ℕ}

/-! ## Rescaling -/

namespace State

theorem rescale_nil (pupil : Option Pupil) (scale : ℚ) : rescale sqrtl pupil scale [] = [] := by
  cases pupil <;> rfl

/-- **A set that has the scale already keeps its contents.** -/
theorem content_rescale {pupil : Option Pupil} {scale : ℚ} {set : ModeSet}
    (h : ∀ m ∈ set, normUsed sqrtl pupil m = scale ∧ scale ≠ 0) :
    content (rescale sqrtl pupil scale set) = content set := by
  have hone : ∀ pixels : List ℚ, scale ≠ 0 → pixels.map (· * (scale / scale)) = pixels := by
    intro pixels hne
    rw [div_self hne]
    simp only [mul_one, List.map_id']
  cases pupil with
  | none =>
    rw [rescale, normalize, content, content, List.map_map]
    refine List.map_congr_left fun m hm => ?_
    obtain ⟨hnorm, hne⟩ := h m hm
    rw [normUsed] at hnorm
    show m.pixels.map (· * (scale / m.norm)) = m.pixels
    rw [hnorm, hone _ hne]
  | some pup =>
    rw [rescale, normalize, getNorms, content, content, List.map_map, List.map_map]
    refine List.map_congr_left fun m hm => ?_
    obtain ⟨hnorm, hne⟩ := h m hm
    rw [normUsed] at hnorm
    show m.pixels.map (· * (scale / normOf sqrtl pup m.pixels)) = m.pixels
    rw [hnorm, hone _ hne]

/-- Whether a set is normalised is a matter of its contents. -/
theorem normalised_iff {scale : ℚ} {pupil : Option Pupil} {set : ModeSet} : Normalised sqrtl scale pupil set ↔
    ∀ pup, pupil = some pup → ∀ pixels ∈ content set, normOf sqrtl pup pixels = scale := by
  unfold Normalised content
  simp only [List.forall_mem_map]

theorem Normalised.congr {scale : ℚ} {pupil : Option Pupil} {set set' : ModeSet}
    (h : Normalised sqrtl scale pupil set) (heq : content set' = content set) :
    Normalised sqrtl scale pupil set' := by
  rw [normalised_iff, heq]
  exact normalised_iff.1 h

/-! ## Pointers -/

/-- Every pointer points to a set, and what has not been handed out is empty. -/
structure Valid (s : State ι) : Prop where
  cache : ∀ id r, s.cache id = some r → r < s.sets.length
  scaledCache : ∀ id r, s.scaledCache id = some r → r < s.sets.length
  modes : ∀ g id r, (s.data g).modes id = some r → r < s.sets.length
  scaled_modes : ∀ g id r, (s.data g).scaled_modes id = some r → r < s.sets.length
  out : ∀ r ∈ s.out, r < s.sets.length
  unloaded : ∀ r, r ∉ s.out → s.loaded r = [] ∧ ∀ set, s.sets[r]? = some set → set = []

/-- Some empty sets are new. -/
structure Extends (s s' : State ι) : Prop where
  sets : ∃ n, s'.sets = s.sets ++ List.replicate n []
  scaledCache : s'.scaledCache = s.scaledCache
  scaled_modes : ∀ g, (s'.data g).scaled_modes = (s.data g).scaled_modes
  loaded : s'.loaded = s.loaded
  out : s'.out = s.out
  scaledOut : s'.scaledOut = s.scaledOut

theorem valid_init : Valid (init : State ι) where
  cache _ _ h := absurd h.symm (Option.some_ne_none _)
  scaledCache _ _ h := absurd h.symm (Option.some_ne_none _)
  modes _ _ _ h := absurd h.symm (Option.some_ne_none _)
  scaled_modes _ _ _ h := absurd h.symm (Option.some_ne_none _)
  out _ h := absurd h List.not_mem_nil
  unloaded _ _ := ⟨rfl, fun _ h => absurd h.symm (Option.some_ne_none _)⟩

namespace Extends

theorem refl (s : State ι) : Extends s s :=
  ⟨⟨0, (List.append_nil _).symm⟩, rfl, fun _ => rfl, rfl, rfl, rfl⟩

/-- A set of the extension is one of before or empty. -/
theorem set_cases (h : Extends s s') {set : ModeSet} (hr : s'.sets[r]? = some set) :
    s.sets[r]? = some set ∨ s.sets.length ≤ r ∧ set = [] := by
  obtain ⟨n, hn⟩ := h.sets
  rw [hn] at hr
  by_cases hlt : r < s.sets.length
  · rw [List.getElem?_append_left hlt] at hr
    exact .inl hr
  · rw [List.getElem?_append_right (Nat.le_of_not_lt hlt)] at hr
    exact .inr ⟨Nat.le_of_not_lt hlt, List.eq_of_mem_replicate (List.mem_of_getElem? hr)⟩

theorem kept (h : Extends s s') (hk : Kept sqrtl s) : Kept sqrtl s' := by
  obtain ⟨n, hn⟩ := h.sets
  refine ⟨?_, ?_⟩
  · rw [hn, h.scaledOut]
    exact hk.scaled.append _
  · rw [hn, h.out, h.loaded]
    exact hk.unscaled.append _

end Extends

/-- Every set is as it was loaded. -/
theorem Kept.intact (hk : Kept sqrtl s) (h : Valid s) {set : ModeSet} (hget : s.sets[r]? = some set) :
    content set = s.loaded r := by
  by_cases hout : r ∈ s.out
  · exact hk.unscaled.get hout rfl hget
  · obtain ⟨hloaded, hset⟩ := h.unloaded r hout
    rw [hset set hget, hloaded]
    rfl

/-- A set whose contents stay is kept. -/
theorem Kept.modify (hk : Kept sqrtl s) {f : ModeSet → ModeSet}
    (hf : ∀ set, s.sets[r]? = some set → content (f set) = content set) :
    Kept sqrtl { s with sets := s.sets.modify r f } where
  scaled := hk.scaled.modify fun _ _ _ set hget hnorm => hnorm.congr (hf set hget)
  unscaled := hk.unscaled.modify fun _ _ _ set hget hset => (hf set hget).trans hset

/-- A pointer that is stored under one key. -/
theorem forall_update {κ : Type} [DecidableEq κ] {f : κ → Option ℕ} {n : ℕ} (h : ∀ k r, f k = some r → r < n) {k : κ}
    (hr : r < n) : ∀ k' r', Function.update f k (some r) k' = some r' → r' < n := by
  refine (Function.forall_update_iff f fun k' o => ∀ r', o = some r' → r' < n).2 ⟨fun r' h' => ?_, fun k' _ => h k'⟩
  rwa [← Option.some.inj h']

variable [DecidableEq ι] (g : ℕ) (id : ι) {ms : Option ℕ}

/-! ## The calls -/

theorem Valid.fetch (h : Valid s) (hms : ∀ r, ms = some r → r < s.sets.length) :
    Valid (s.fetch id ms).1 ∧ Extends s (s.fetch id ms).1 ∧
      (s.fetch id ms).2 < (s.fetch id ms).1.sets.length := by
  unfold State.fetch
  cases hcache : s.cache id with
  | some r => exact ⟨h, .refl s, h.cache id r hcache⟩
  | none =>
    cases ms with
    | some r =>
      have hr := hms r rfl
      exact ⟨{ h with cache := forall_update h.cache hr }, ⟨⟨0, (List.append_nil _).symm⟩, rfl, fun _ => rfl,
        rfl, rfl, rfl⟩, hr⟩
    | none =>
      have hlen : s.sets.length < (s.sets ++ [[]]).length := by
        rw [List.length_append]
        exact Nat.lt_succ_self _
      have hlt : ∀ {r}, r < s.sets.length → r < (s.sets ++ [[]]).length := fun hr => hr.trans hlen
      have hext : Extends s { s with
          sets := s.sets ++ [[]], cache := Function.update s.cache id (some s.sets.length) } :=
        ⟨⟨1, rfl⟩, rfl, fun _ => rfl, rfl, rfl, rfl⟩
      refine ⟨⟨?_, fun id r hr => hlt (h.scaledCache id r hr), fun g id r hr => hlt (h.modes g id r hr),
        fun g id r hr => hlt (h.scaled_modes g id r hr), fun r hr => hlt (h.out r hr), fun r hr => ?_⟩, hext, hlen⟩
      · exact forall_update (fun id r hr => hlt (h.cache id r hr)) hlen
      · obtain ⟨hloaded, hset⟩ := h.unloaded r hr
        exact ⟨hloaded, fun set hget => (hext.set_cases hget).elim (hset set) And.right⟩

theorem get_of_none (h : (s.data g).modes id = none) : s.get g id ms =
    ({ (s.fetch id ms).1 with
      data := Function.update (s.fetch id ms).1.data g (((s.fetch id ms).1.data g).emplace id (s.fetch id ms).2) },
      (s.fetch id ms).2) := by
  rw [get, h]

theorem Valid.get (h : Valid s) (hms : ∀ r, ms = some r → r < s.sets.length) :
    Valid (s.get g id ms).1 ∧ Extends s (s.get g id ms).1 ∧ (s.get g id ms).2 < (s.get g id ms).1.sets.length := by
  cases hmodes : (s.data g).modes id with
  | some r =>
    rw [State.get, hmodes]
    exact ⟨h, .refl s, h.modes g id r hmodes⟩
  | none =>
    obtain ⟨hvalid, hext, hr⟩ := h.fetch id hms
    rw [get_of_none g id hmodes]
    refine ⟨{ hvalid with modes := ?_, scaled_modes := ?_ }, { hext with scaled_modes := ?_ }, hr⟩
    · exact (Function.forall_update_iff _ fun _ d => ∀ id r, GlobalData.modes d id = some r → r < _).2
        ⟨forall_update (hvalid.modes g) hr, fun g' _ => hvalid.modes g'⟩
    · exact (Function.forall_update_iff _ fun _ d => ∀ id r, GlobalData.scaled_modes d id = some r → r < _).2
        ⟨hvalid.scaled_modes g, fun g' _ => hvalid.scaled_modes g'⟩
    · exact (Function.forall_update_iff _ fun g' d => GlobalData.scaled_modes d = (s.data g').scaled_modes).2
        ⟨hext.scaled_modes g, fun g' _ => hext.scaled_modes g'⟩

/-- The set that `get` finds, or a new one. -/
theorem get_snd : (s.get g id ms).2 = ((((s.data g).modes id).or (s.cache id)).or ms).getD s.sets.length := by
  cases hmodes : (s.data g).modes id with
  | some r =>
    rw [get, hmodes]
    rfl
  | none =>
    rw [get_of_none g id hmodes]
    unfold State.fetch
    cases s.cache id with
    | some r => rfl
    | none => cases ms <;> rfl

theorem Valid.enter {scale : ℚ} {pupil : Option Pupil} (h : Valid s) (hr : r < s.sets.length) :
    Valid (s.enter sqrtl g id scale pupil r).1 ∧
      (s.enter sqrtl g id scale pupil r).2 < (s.enter sqrtl g id scale pupil r).1.sets.length := by
  have hlt : (s.scaledCache (id, scale)).getD r < s.sets.length := by
    cases hscaled : s.scaledCache (id, scale) with
    | none => exact hr
    | some r' => exact h.scaledCache _ r' hscaled
  unfold State.enter
  dsimp only
  refine ⟨⟨?_, ?_, ?_, ?_, ?_, ?_⟩, ?_⟩
  · rw [List.length_modify]
    exact h.cache
  · rw [List.length_modify]
    exact forall_update h.scaledCache hlt
  · rw [List.length_modify]
    exact (Function.forall_update_iff _ fun _ d => ∀ id r, GlobalData.modes d id = some r → r < _).2
      ⟨h.modes g, fun g' _ => h.modes g'⟩
  · rw [List.length_modify]
    exact (Function.forall_update_iff _ fun _ d => ∀ id r, GlobalData.scaled_modes d id = some r → r < _).2
      ⟨forall_update (h.scaled_modes g) hlt, fun g' _ => h.scaled_modes g'⟩
  · rw [List.length_modify]
    exact h.out
  · intro r' hout
    obtain ⟨hloaded, hset⟩ := h.unloaded r' hout
    refine ⟨hloaded, fun set hget => ?_⟩
    rw [List.getElem?_modify] at hget
    obtain ⟨set', hget', rfl⟩ := Option.map_eq_some_iff.1 hget
    rw [hset set' hget']
    split_ifs
    · exact rescale_nil pupil scale
    · rfl
  · rwa [List.length_modify]

/-- **Every call leaves valid pointers.** -/
theorem Valid.step {call : Call ι} (h : Valid s) (hs : s.step sqrtl call = some s') : Valid s' := by
  cases call with
  | get g id ms =>
    rw [State.step] at hs
    split_ifs at hs with hms
    obtain rfl := Option.some.inj hs
    obtain ⟨hvalid, hext, hr⟩ := h.get g id hms
    refine { hvalid with out := List.forall_mem_cons.2 ⟨hr, hvalid.out⟩, unloaded := fun r hout => ?_ }
    exact hvalid.unloaded r fun hmem => hout (List.mem_cons_of_mem _ hmem)
  | getScaled g id scale pupil ms =>
    rw [State.step] at hs
    split_ifs at hs with hms
    obtain rfl := Option.some.inj hs
    have hvalid : Valid (s.getScaled sqrtl g id scale pupil ms).1 := by
      rw [getScaled]
      cases hscaled : (s.data g).scaled_modes (id, scale) with
      | some r => exact h
      | none =>
        obtain ⟨hvalid, -, hr⟩ := h.get g id hms
        exact (hvalid.enter g id hr).1
    exact { hvalid with }
  | load r modes =>
    rw [State.step] at hs
    split_ifs at hs with hload
    obtain rfl := Option.some.inj hs
    obtain ⟨hout, hget⟩ := hload
    refine ⟨?_, ?_, ?_, ?_, ?_, fun r' hr' => ?_⟩
    · rw [List.length_set]
      exact h.cache
    · rw [List.length_set]
      exact h.scaledCache
    · rw [List.length_set]
      exact h.modes
    · rw [List.length_set]
      exact h.scaled_modes
    · rw [List.length_set]
      exact h.out
    · have hne : r ≠ r' := fun heq => hr' (heq ▸ hout)
      obtain ⟨hloaded, hset⟩ := h.unloaded r' hr'
      rw [List.getElem?_set_ne hne]
      exact ⟨(Function.update_of_ne (Ne.symm hne) _ _).trans hloaded, hset⟩

/-! ## What the calls keep -/

theorem Kept.get (hk : Kept sqrtl s) (h : Valid s) (hms : ∀ r, ms = some r → r < s.sets.length) :
    Kept sqrtl { (s.get g id ms).1 with out := (s.get g id ms).2 :: (s.get g id ms).1.out } := by
  obtain ⟨hvalid, hext, hr⟩ := h.get g id hms
  have hk' := hext.kept hk
  refine ⟨hk'.scaled, promised_cons.2 ⟨fun r hr' => ?_, hk'.unscaled⟩⟩
  obtain rfl := Option.some.inj hr'
  have hget := List.getElem?_eq_getElem hr
  exact ⟨_, hget, hk'.intact hvalid hget⟩

/-- **Rescaling a set that has the scale already, or is empty, keeps everything.** -/
theorem Kept.enter (hk : Kept sqrtl s) (h : Valid s) {scale : ℚ} {pupil : Option Pupil} (hr : r < s.sets.length)
    (hset : ∀ set, s.sets[(s.scaledCache (id, scale)).getD r]? = some set →
      ∀ m ∈ set, normUsed sqrtl pupil m = scale ∧ scale ≠ 0) :
    Kept sqrtl { (s.enter sqrtl g id scale pupil r).1 with
      scaledOut := ((s.enter sqrtl g id scale pupil r).2, scale, pupil) ::
        (s.enter sqrtl g id scale pupil r).1.scaledOut } := by
  have hm := hk.modify fun set hget => content_rescale (hset set hget)
  have hlt : (s.enter sqrtl g id scale pupil r).2 < (s.enter sqrtl g id scale pupil r).1.sets.length :=
    (h.enter g id hr).2
  refine ⟨promised_cons.2 ⟨fun r' hr' => ?_, hm.scaled⟩, hm.unscaled⟩
  obtain rfl := Option.some.inj hr'
  refine ⟨_, List.getElem?_eq_getElem hlt, ?_⟩
  unfold State.enter at hlt ⊢
  dsimp only at hlt ⊢
  rw [List.length_modify] at hlt
  have hold := hset _ (List.getElem?_eq_getElem hlt)
  rw [List.getElem_modify, if_pos rfl]
  have hnorm : Normalised sqrtl scale pupil s.sets[(s.scaledCache (id, scale)).getD r] := by
    rintro pup rfl m hmem
    exact (hold m hmem).1
  exact hnorm.congr (content_rescale hold)

theorem Kept.getScaled (hk : Kept sqrtl s) (h : Valid s) {scale : ℚ} {pupil : Option Pupil}
    (hms : ∀ r, ms = some r → r < s.sets.length)
    (hsettled : Settled sqrtl s (.getScaled g id scale pupil ms)) :
    Kept sqrtl { (s.getScaled sqrtl g id scale pupil ms).1 with
      scaledOut := ((s.getScaled sqrtl g id scale pupil ms).2, scale, pupil) ::
        (s.getScaled sqrtl g id scale pupil ms).1.scaledOut } := by
  rw [Settled] at hsettled
  rw [State.getScaled]
  cases hscaled : (s.data g).scaled_modes (id, scale) with
  | some r =>
    rw [hscaled] at hsettled
    dsimp only at hsettled ⊢
    refine ⟨promised_cons.2 ⟨fun r' hr' => ?_, hk.scaled⟩, hk.unscaled⟩
    obtain rfl := Option.some.inj hr'
    have hget := List.getElem?_eq_getElem (h.scaled_modes g _ _ hscaled)
    exact ⟨_, hget, hsettled _ hget⟩
  | none =>
    rw [hscaled] at hsettled
    dsimp only at hsettled ⊢
    obtain ⟨hvalid, hext, hr⟩ := h.get g id hms
    refine (hext.kept hk).enter g id hvalid hr fun set hget => ?_
    have hsource : ((s.scaledCache (id, scale)).getD (s.get g id ms).2) =
        (s.source g id scale ms).getD s.sets.length := by
      simp only [get_snd, source, Option.getD_or]
    rw [hext.scaledCache, hsource] at hget
    rcases hext.set_cases hget with hget | ⟨-, rfl⟩
    · cases hfound : s.source g id scale ms with
      | some r =>
        rw [hfound] at hget
        exact hsettled r hfound set hget
      | none =>
        rw [hfound, Option.getD_none, List.getElem?_eq_none le_rfl] at hget
        exact absurd hget.symm (Option.some_ne_none _)
    · exact fun m hm => absurd hm List.not_mem_nil

/-- **A settled call keeps what has been handed out.** -/
theorem Kept.step {call : Call ι} (hk : Kept sqrtl s) (h : Valid s) (hsettled : Settled sqrtl s call)
    (hs : s.step sqrtl call = some s') : Kept sqrtl s' := by
  cases call with
  | get g id ms =>
    rw [State.step] at hs
    split_ifs at hs with hms
    obtain rfl := Option.some.inj hs
    exact hk.get g id h hms
  | getScaled g id scale pupil ms =>
    rw [State.step] at hs
    split_ifs at hs with hms
    obtain rfl := Option.some.inj hs
    exact hk.getScaled g id h hms hsettled
  | load r modes =>
    rw [State.step] at hs
    split_ifs at hs with hload
    obtain rfl := Option.some.inj hs
    obtain ⟨hout, hget⟩ := hload
    have hlt := (List.getElem?_eq_some_iff.1 hget).1
    refine ⟨(hk.scaled.set_iff hlt).2 fun o ho hr => hsettled o ho (Option.some.inj hr), ?_⟩
    intro r' hr' i hi
    obtain rfl := Option.some.inj hi
    show ∃ b, (s.sets.set r modes)[r']? = some b ∧ content b = Function.update s.loaded r (content modes) r'
    by_cases hne : r = r'
    · subst hne
      exact ⟨modes, List.getElem?_set_self hlt, by rw [Function.update_self]⟩
    · rw [List.getElem?_set_ne hne, Function.update_of_ne (Ne.symm hne)]
      exact hk.unscaled r' hr' r' rfl

/-- **The mode sets keep their own scales in every run all of whose calls are settled.** -/
theorem scales_kept (sqrtl : ℚ → ℚ) (calls : List (Call ι))
    (hsettled : Each (step sqrtl) (fun s call _ => Settled sqrtl s call) init calls) :
    Always (step sqrtl) (Kept sqrtl) init calls := by
  have hkept : Kept sqrtl (init : State ι) := ⟨promised_nil, promised_nil⟩
  have hstep : ∀ (s : State ι) call s', Valid s ∧ Kept sqrtl s → Settled sqrtl s call → s.step sqrtl call = some s' →
      Valid s' ∧ Kept sqrtl s' := fun s call s' h hsettled hs => ⟨h.1.step hs, h.2.step h.1 hsettled hs⟩
  exact (always_of_each hstep ⟨valid_init, hkept⟩ hsettled).mono fun _ h => h.2

end State

end Results

section Runs

open State

theorem norm_one : normOf (fun x => x) ⟨[1], 1⟩ [1] = 1 := by
  simp [normOf]

/-- One mode of norm 1 over the pupil, handed out unscaled and for the scale 1. -/
theorem scale_one_kept : Always (step fun x => x) (Kept fun x => x) (init : State Unit)
    [.get 0 () none, .load 0 [⟨[1], 1⟩], .getScaled 0 () 1 (some ⟨[1], 1⟩) none] := by
  refine scales_kept _ _ (.cons rfl trivial (.cons rfl (fun o ho => absurd ho List.not_mem_nil)
    (.cons rfl ?_ trivial)))
  intro r hr set hget m hm
  obtain rfl := Option.some.inj hr
  obtain rfl := Option.some.inj hget
  rw [List.mem_singleton.1 hm]
  exact ⟨norm_one, one_ne_zero⟩

/-- The scale 2 for the same mode changes the set that was handed out unscaled. -/
theorem scaled_in_place : ¬ Always (step fun x => x) (Kept fun x => x) (init : State Unit)
    [.get 0 () none, .load 0 [⟨[1], 1⟩], .getScaled 0 () 2 (some ⟨[1], 1⟩) none] := by
  intro h
  have hget : content (rescale (fun x => x) (some ⟨[1], 1⟩) 2 [⟨[1], 1⟩]) = [[1]] :=
    (h.last rfl).unscaled.get (i := 0) (r := 0) List.mem_cons_self rfl rfl
  simp [content, rescale, getNorms, normalize, norm_one] at hget

end Runs

end Redux.Momfbd.Modes
