import Mathlib.Tactic.Cases
import Redux.Lib.Fuel

/-!
# Lib.Attempt — computations that may throw and may not end

An attempt throws or returns, unless its loops have too few rounds.  As the rounds grow it comes to an
outcome for good, or it stalls: these exclude each other, and both go through a sequence of attempts.
-/

namespace Redux.Lib

/-- A computation that may throw, `none` if its loops have too few rounds. -/
abbrev Attempt (ε α : Type) := ExceptT ε Option α

section Attempt

variable {ε α β : Type} {f : ℕ → Attempt ε α} {g : α → ℕ → Attempt ε β} {a : α} {e : ε} {o : Except ε β}

/-- With enough rounds, it throws or returns `o`. -/
def Comes (f : ℕ → Attempt ε β) (o : Except ε β) : Prop := Settles (fun fuel => (f fuel).run) o

/-- From some number on, no number of rounds is enough. -/
def Stalls (f : ℕ → Attempt ε β) : Prop := ∃ n, ∀ fuel, n ≤ fuel → (f fuel).run = none

/-- With enough rounds, it throws or returns. -/
def Ends (f : ℕ → Attempt ε β) : Prop := ∃ o, Comes f o

theorem comes_pure (a : α) : Comes (fun _ => (pure a : Attempt ε α)) (.ok a) := settles_some _

theorem Stalls.not_ends (h : Stalls f) : ¬Ends f := by
  obtain ⟨n, hn⟩ := h
  rintro ⟨o, n', hn'⟩
  have hsome : (f (max n n')).run = some o := hn' _ (le_max_right n n')
  rw [hn _ (le_max_left n n')] at hsome
  cases hsome

/-! ## One after the other -/

theorem run_bind_of_ok {x : Attempt ε α} {k : α → Attempt ε β} (h : x.run = some (.ok a)) :
    (x >>= k).run = (k a).run := by
  rw [ExceptT.run_bind, h]
  rfl

theorem run_bind_of_error {x : Attempt ε α} {k : α → Attempt ε β} (h : x.run = some (.error e)) :
    (x >>= k).run = some (.error e) := by
  rw [ExceptT.run_bind, h]
  rfl

theorem run_bind_of_none {x : Attempt ε α} {k : α → Attempt ε β} (h : x.run = none) :
    (x >>= k).run = none := by
  rw [ExceptT.run_bind, h]
  rfl

theorem Comes.bind (h : Comes f (.ok a)) (hg : Comes (g a) o) :
    Comes (fun fuel => f fuel >>= fun a => g a fuel) o := by
  obtain ⟨n, hn⟩ := h
  obtain ⟨n', hn'⟩ := hg
  refine ⟨max n n', fun fuel hfuel => ?_⟩
  exact (run_bind_of_ok (hn fuel (le_trans (le_max_left n n') hfuel))).trans
    (hn' fuel (le_trans (le_max_right n n') hfuel))

theorem Comes.bind_error (h : Comes f (.error e)) :
    Comes (fun fuel => f fuel >>= fun a => g a fuel) (.error e) := by
  obtain ⟨n, hn⟩ := h
  exact ⟨n, fun fuel hfuel => run_bind_of_error (hn fuel hfuel)⟩

theorem Stalls.bind (h : Stalls f) : Stalls fun fuel => f fuel >>= fun a => g a fuel := by
  obtain ⟨n, hn⟩ := h
  exact ⟨n, fun fuel hfuel => run_bind_of_none (hn fuel hfuel)⟩

theorem Comes.bind_stalls (h : Comes f (.ok a)) (hg : Stalls (g a)) :
    Stalls fun fuel => f fuel >>= fun a => g a fuel := by
  obtain ⟨n, hn⟩ := h
  obtain ⟨n', hn'⟩ := hg
  refine ⟨max n n', fun fuel hfuel => ?_⟩
  exact (run_bind_of_ok (hn fuel (le_trans (le_max_left n n') hfuel))).trans
    (hn' fuel (le_trans (le_max_right n n') hfuel))

/-- It returns `a`. -/
def Returns (x : Attempt ε α) (a : α) : Prop := x.run = some (.ok a)

@[simp] theorem returns_pure {b : α} : Returns (pure a : Attempt ε α) b ↔ a = b := by
  show some (Except.ok a) = some (Except.ok b) ↔ a = b
  rw [Option.some.injEq, Except.ok.injEq]

@[simp] theorem not_returns_throw : ¬Returns (throw e : Attempt ε α) a := by
  show ¬some (Except.error e) = some (Except.ok a)
  rw [Option.some.injEq]
  exact nofun

@[simp] theorem not_returns_none : ¬Returns (ExceptT.lift none : Attempt ε α) a := nofun

@[simp] theorem returns_bind {x : Attempt ε α} {k : α → Attempt ε β} {b : β} :
    Returns (x >>= k) b ↔ ∃ a, Returns x a ∧ Returns (k a) b := by
  unfold Returns
  rcases h : x.run with _ | e | a
  · rw [run_bind_of_none h]
    exact ⟨nofun, fun ⟨a, ha, _⟩ => nomatch ha⟩
  · rw [run_bind_of_error h]
    exact ⟨nofun, fun ⟨a, ha, _⟩ => nomatch ha⟩
  · rw [run_bind_of_ok h]
    refine ⟨fun hb => ⟨a, rfl, hb⟩, ?_⟩
    rintro ⟨a', ha', hb⟩
    cases ha'
    exact hb

/-- What is returned, if anything is. -/
def result (x : Attempt ε α) : Option α := x.run.bind Except.toOption

@[simp] theorem result_pure (a : α) : result (pure a : Attempt ε α) = some a := rfl

@[simp] theorem result_throw (e : ε) : result (throw e : Attempt ε α) = none := rfl

@[simp] theorem result_lift (x : Option α) : result (ExceptT.lift x : Attempt ε α) = x := by
  cases x <;> rfl

@[simp] theorem result_bind (x : Attempt ε α) (k : α → Attempt ε β) :
    result (x >>= k) = (result x).bind fun a => result (k a) := by
  unfold result
  rcases h : x.run with _ | e | a
  · rw [run_bind_of_none h]
    rfl
  · rw [run_bind_of_error h]
    rfl
  · rw [run_bind_of_ok h]
    rfl

end Attempt

/-! ## A list of attempts -/

section List

variable {ε α κ : Type}

/-- What each element of a list adds to a result. -/
def attemptAll (parse : κ → Attempt ε (List α)) : List κ → Attempt ε (List α)
  | [] => pure []
  | x :: xs => do
    let res ← parse x
    let result ← attemptAll parse xs
    return res ++ result

/-- Attempts that each return one element, under a condition. -/
theorem returns_attemptAll {parse : κ → Attempt ε (List α)} {P : κ → Prop} {g : κ → α}
    (h : ∀ x out, Returns (parse x) out ↔ P x ∧ [g x] = out) : ∀ {xs : List κ} {out : List α},
    Returns (attemptAll parse xs) out ↔ (∀ x ∈ xs, P x) ∧ xs.map g = out
  | [], out => by
    rw [attemptAll, returns_pure]
    exact ⟨fun hout => ⟨nofun, hout⟩, fun hout => hout.2⟩
  | x :: xs, out => by
    simp only [attemptAll, returns_bind, returns_pure, h, returns_attemptAll h, List.forall_mem_cons, List.map_cons]
    constructor
    · rintro ⟨_, ⟨hx, rfl⟩, _, ⟨hxs, rfl⟩, rfl⟩
      exact ⟨⟨hx, hxs⟩, rfl⟩
    · rintro ⟨⟨hx, hxs⟩, rfl⟩
      exact ⟨_, ⟨hx, rfl⟩, _, ⟨hxs, rfl⟩, rfl⟩

/-- The element is known to throw, to return, or to stall: it stalls exactly if it is not `Fine`, and it
throws exactly if it is `Thrown`. -/
structure Known (parse : κ → ℕ → Attempt ε (List α)) (Fine Thrown : κ → Prop) : Prop where
  stalls : ∀ x, ¬Fine x → Stalls (parse x)
  throws : ∀ x, Thrown x → ∃ e, Comes (parse x) (.error e)
  returns : ∀ x, Fine x → ¬Thrown x → ∃ out, Comes (parse x) (.ok out)

/-- Every element up to the first that throws is fine. -/
def FineAll (Fine Thrown : κ → Prop) : List κ → Prop
  | [] => True
  | x :: xs => Fine x ∧ (Thrown x ∨ FineAll Fine Thrown xs)

instance decidableFineAll {Fine Thrown : κ → Prop} [DecidablePred Fine] [DecidablePred Thrown] :
    DecidablePred (FineAll Fine Thrown)
  | [] => inferInstanceAs (Decidable True)
  | x :: xs =>
    haveI : Decidable (FineAll Fine Thrown xs) := decidableFineAll xs
    inferInstanceAs (Decidable (Fine x ∧ (Thrown x ∨ FineAll Fine Thrown xs)))

variable {parse : κ → ℕ → Attempt ε (List α)} {Fine Thrown : κ → Prop}

theorem attemptAll_cases (h : Known parse Fine Thrown) : ∀ xs : List κ,
    (FineAll Fine Thrown xs → Ends fun fuel => attemptAll (parse · fuel) xs) ∧
      (¬FineAll Fine Thrown xs → Stalls fun fuel => attemptAll (parse · fuel) xs)
  | [] => ⟨fun _ => ⟨_, comes_pure []⟩, fun hnot => absurd trivial hnot⟩
  | x :: xs => by
    have ih := attemptAll_cases h xs
    by_cases hfine : Fine x
    · by_cases hthrown : Thrown x
      · obtain ⟨e, he⟩ := h.throws x hthrown
        exact ⟨fun _ => ⟨_, he.bind_error⟩, fun hnot => absurd ⟨hfine, .inl hthrown⟩ hnot⟩
      · obtain ⟨out, hout⟩ := h.returns x hfine hthrown
        constructor
        · rintro ⟨-, hthrown' | hxs⟩
          · exact absurd hthrown' hthrown
          · obtain ⟨o, ho⟩ := ih.1 hxs
            cases o with
            | error e => exact ⟨_, hout.bind ho.bind_error⟩
            | ok result => exact ⟨_, hout.bind (ho.bind (comes_pure (out ++ result)))⟩
        · intro hnot
          have hxs : ¬FineAll Fine Thrown xs := fun hxs => hnot ⟨hfine, .inr hxs⟩
          exact hout.bind_stalls (ih.2 hxs).bind
    · exact ⟨fun hall => absurd hall.1 hfine, fun _ => (h.stalls x hfine).bind⟩

/-- **The list ends** exactly if every element up to the first that throws is fine. -/
theorem attemptAll_ends_iff (h : Known parse Fine Thrown) (xs : List κ) :
    (Ends fun fuel => attemptAll (parse · fuel) xs) ↔ FineAll Fine Thrown xs := by
  refine ⟨fun hends => ?_, (attemptAll_cases h xs).1⟩
  by_contra hnot
  exact ((attemptAll_cases h xs).2 hnot).not_ends hends

end List

end Redux.Lib
