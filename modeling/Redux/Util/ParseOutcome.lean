import Redux.Lib.Attempt
import Redux.Lib.Residues
import Redux.Util.VectorTranslator

/-!
# Util.ParseOutcome — when the parsing of a number list ends

`VectorTranslator::get_value` once more, with a call that throws apart from one that never ends.  The
loops count up to the last number in the arithmetic of its type, so they end only if they come by a
number beyond it: `LoopEnds` says when that is, from the ends and the step alone.  A list ends exactly if
all its segments do, up to the first that throws (`get_value_ends_iff`).
-/

namespace Redux.Util

open Redux.Lib

/-- What the translators throw. -/
inductive ParseError
  | bad_lexical_cast | logic_error
  deriving DecidableEq

/-- `boost::lexical_cast<T>`. -/
def castOrThrow {w : ℕ} (B : Boost w) (text : List Char) : Attempt ParseError (BitVec w) :=
  match B.lexical_cast text with
  | some v => pure v
  | none => throw .bad_lexical_cast

/-- `parseSegment`, with at most `fuel` rounds for its loop. -/
def parseSegment {w : ℕ} (B : Boost w) (fuel : ℕ) (elem : List Char) : Attempt ParseError (List (BitVec w)) :=
  let n1 := elem.count '-'
  let n2 := elem.count ':'
  if n1 + n2 = 0 then do
    return [← castOrThrow B elem]
  else if n1 + n2 = 1 then do
    let n := elem.findIdx fun c => c == ':' || c == '-'
    let first ← castOrThrow B (elem.take n)
    let last ← castOrThrow B (elem.drop (n + 1))
    ExceptT.lift (expand fuel first 1 last)
  else if n2 = 2 then do
    let n := elem.findIdx (· == ':')
    let rest := elem.drop (n + 1)
    let nn := rest.findIdx (· == ':')
    let first ← castOrThrow B (elem.take n)
    let step ← castOrThrow B (rest.take nn)
    let last ← castOrThrow B (rest.drop (nn + 1))
    ExceptT.lift (expand fuel first (toInt step.toNat) last)
  else return []

/-! ## The loops -/

/-- The loop comes by a number beyond the larger end: of the numbers that the steps from the smaller end
come by, modulo the size of the type, the largest one is. -/
def LoopEnds {w : ℕ} (first : BitVec w) (step : ℤ) (last : BitVec w) : Prop :=
  if last < first then first.toNat < farthest (2 ^ w) last.toNat (BitVec.ofInt w (intAbs step)).toNat
  else last.toNat < farthest (2 ^ w) first.toNat (BitVec.ofInt w step).toNat

instance {w : ℕ} (first : BitVec w) (step : ℤ) (last : BitVec w) : Decidable (LoopEnds first step last) :=
  inferInstanceAs (Decidable (ite _ _ _))

section Loops

variable {w : ℕ} {first last σ : BitVec w} {step : ℤ}

theorem toNat_add_nsmul_mod (a σ : BitVec w) : ∀ i : ℕ, (a + i • σ).toNat = residueAt (2 ^ w) a.toNat σ.toNat i
  | 0 => by rw [zero_nsmul, add_zero, residueAt_zero a.isLt]
  | i + 1 => by
    rw [succ_nsmul, ← add_assoc, BitVec.toNat_add, toNat_add_nsmul_mod a σ i, residueAt_succ]

/-- A loop that comes by a number beyond `last` ends at the first of them. -/
theorem endsAfter_of_exists (h : ∃ i : ℕ, ¬first + i • σ ≤ last) : ∃ m, EndsAfter (· ≤ last) first σ m := by
  classical
  exact ⟨Nat.find h, fun i hi => not_not.1 (Nat.find_min h hi), Nat.find_spec h⟩

theorem countUp_cases (first last σ : BitVec w) :
    (last.toNat < farthest (2 ^ w) first.toNat σ.toNat →
        ∃ m, ∃ out, ∀ fuel, m < fuel → countUp last σ fuel first = some out) ∧
      (¬last.toNat < farthest (2 ^ w) first.toNat σ.toNat → ∀ fuel, countUp last σ fuel first = none) := by
  rw [← passes_iff (Nat.two_pow_pos w)]
  simp only [← toNat_add_nsmul_mod]
  constructor
  · rintro ⟨i, hi⟩
    obtain ⟨m, hm⟩ := endsAfter_of_exists ⟨i, BitVec.not_le.2 (BitVec.lt_def.2 hi)⟩
    exact ⟨m, _, fun fuel hfuel => countUp_of_endsAfter hm hfuel⟩
  · intro hnot fuel
    cases hc : countUp last σ fuel first with
    | none => rfl
    | some out =>
      obtain ⟨m, hm, -⟩ := countUp_some hc
      exact absurd ⟨m, BitVec.lt_def.1 (BitVec.not_le.1 hm.ended)⟩ hnot

theorem expand_cases (first : BitVec w) (step : ℤ) (last : BitVec w) :
    (LoopEnds first step last → ∃ m, ∃ out, ∀ fuel, m < fuel → expand fuel first step last = some out) ∧
      (¬LoopEnds first step last → ∀ fuel, expand fuel first step last = none) := by
  unfold LoopEnds expand
  by_cases hlt : last < first
  · simp only [if_pos hlt]
    obtain ⟨hends, hstays⟩ := countUp_cases last first (BitVec.ofInt w (intAbs step))
    refine ⟨fun h => ?_, fun h fuel => by rw [hstays h fuel, Option.map_none]⟩
    obtain ⟨m, out, hout⟩ := hends h
    exact ⟨m, out.reverse, fun fuel hfuel => by rw [hout fuel hfuel, Option.map_some]⟩
  · simp only [if_neg hlt]
    exact countUp_cases first last (BitVec.ofInt w step)

end Loops

/-! ## Segments -/

/-- What a segment says once its numbers are read: the numbers themselves, or the ends of a loop. -/
inductive Reading (w : ℕ)
  | numbers (out : List (BitVec w))
  | loop (first : BitVec w) (step : ℤ) (last : BitVec w)

/-- The numbers of a segment are read before any loop, none if one of them is no number. -/
def reading {w : ℕ} (B : Boost w) (elem : List Char) : Option (Reading w) :=
  let n1 := elem.count '-'
  let n2 := elem.count ':'
  if n1 + n2 = 0 then do
    return .numbers [← B.lexical_cast elem]
  else if n1 + n2 = 1 then do
    let n := elem.findIdx fun c => c == ':' || c == '-'
    return .loop (← B.lexical_cast (elem.take n)) 1 (← B.lexical_cast (elem.drop (n + 1)))
  else if n2 = 2 then do
    let n := elem.findIdx (· == ':')
    let rest := elem.drop (n + 1)
    let nn := rest.findIdx (· == ':')
    let first ← B.lexical_cast (elem.take n)
    let step ← B.lexical_cast (rest.take nn)
    return .loop first (toInt step.toNat) (← B.lexical_cast (rest.drop (nn + 1)))
  else return .numbers []

/-- The loop of the segment ends, if it comes to one. -/
def SegmentEnds {w : ℕ} (B : Boost w) (elem : List Char) : Prop :=
  match reading B elem with
  | some (.loop first step last) => LoopEnds first step last
  | _ => True

/-- A number of the segment is none. -/
def SegmentThrows {w : ℕ} (B : Boost w) (elem : List Char) : Prop := (reading B elem).isNone

instance {w : ℕ} (B : Boost w) : DecidablePred (SegmentEnds B) := fun elem => by
  unfold SegmentEnds
  split <;> infer_instance

instance {w : ℕ} (B : Boost w) : DecidablePred (SegmentThrows B) := fun elem =>
  inferInstanceAs (Decidable ((reading B elem).isNone = true))

section Segments

variable {w : ℕ} (B : Boost w)

theorem castOrThrow_some {text : List Char} {v : BitVec w} (h : B.lexical_cast text = some v) :
    castOrThrow B text = pure v := by
  rw [castOrThrow, h]

theorem castOrThrow_none {text : List Char} (h : B.lexical_cast text = none) :
    castOrThrow B text = throw .bad_lexical_cast := by
  rw [castOrThrow, h]

/-- What comes of a segment that is read. -/
def Reading.outcome (fuel : ℕ) : Option (Reading w) → Option (Except ParseError (List (BitVec w)))
  | none => some (.error .bad_lexical_cast)
  | some (.numbers out) => some (.ok out)
  | some (.loop first step last) => (expand fuel first step last).map .ok

/-- **A segment is read, and then its loop runs.** -/
theorem parseSegment_run (fuel : ℕ) (elem : List Char) :
    (parseSegment B fuel elem).run = Reading.outcome fuel (reading B elem) := by
  unfold parseSegment reading
  dsimp only
  split_ifs
  · cases h : B.lexical_cast elem with
    | none => rw [castOrThrow_none B h]; rfl
    | some v => rw [castOrThrow_some B h]; rfl
  · generalize elem.take _ = s₁
    generalize elem.drop _ = s₂
    cases h₁ : B.lexical_cast s₁ with
    | none => rw [castOrThrow_none B h₁]; rfl
    | some first =>
      cases h₂ : B.lexical_cast s₂ with
      | none => rw [castOrThrow_some B h₁, castOrThrow_none B h₂]; rfl
      | some last => rw [castOrThrow_some B h₁, castOrThrow_some B h₂]; rfl
  · generalize elem.take _ = s₁
    generalize List.take _ (List.drop _ elem) = s₂
    generalize List.drop _ (List.drop _ elem) = s₃
    cases h₁ : B.lexical_cast s₁ with
    | none => rw [castOrThrow_none B h₁]; rfl
    | some first =>
      cases h₂ : B.lexical_cast s₂ with
      | none => rw [castOrThrow_some B h₁, castOrThrow_none B h₂]; rfl
      | some step =>
        cases h₃ : B.lexical_cast s₃ with
        | none => rw [castOrThrow_some B h₁, castOrThrow_some B h₂, castOrThrow_none B h₃]; rfl
        | some last => rw [castOrThrow_some B h₁, castOrThrow_some B h₂, castOrThrow_some B h₃]; rfl
  · rfl

theorem segment_known : Known (fun elem fuel => parseSegment B fuel elem) (SegmentEnds B) (SegmentThrows B) where
  stalls elem h := by
    refine ⟨0, fun fuel _ => (parseSegment_run B fuel elem).trans ?_⟩
    unfold SegmentEnds at h
    rcases hr : reading B elem with _ | out | ⟨first, step, last⟩
    · rw [hr] at h
      exact absurd trivial h
    · rw [hr] at h
      exact absurd trivial h
    · rw [hr] at h
      rw [Reading.outcome, (expand_cases first step last).2 h fuel, Option.map_none]
  throws elem h := by
    refine ⟨.bad_lexical_cast, 0, fun fuel _ => (parseSegment_run B fuel elem).trans ?_⟩
    rw [Option.isNone_iff_eq_none.1 h]
    rfl
  returns elem h hnot := by
    rcases hr : reading B elem with _ | out | ⟨first, step, last⟩
    · rw [SegmentThrows, hr] at hnot
      exact absurd rfl hnot
    · refine ⟨out, 0, fun fuel _ => (parseSegment_run B fuel elem).trans ?_⟩
      rw [hr]
      rfl
    · rw [SegmentEnds, hr] at h
      obtain ⟨m, out, hout⟩ := (expand_cases first step last).1 h
      refine ⟨out, m + 1, fun fuel hfuel => (parseSegment_run B fuel elem).trans ?_⟩
      rw [hr, Reading.outcome, hout fuel hfuel, Option.map_some]

@[simp] theorem result_castOrThrow (text : List Char) : result (castOrThrow B text) = B.lexical_cast text := by
  unfold castOrThrow
  split
  · next v h => rw [h, result_pure]
  · next h => rw [h, result_throw]

end Segments

/-! ## Lists -/

namespace VectorTranslator

section Lists

variable {w : ℕ} (B : Boost w)

/-- The body of the loop over the tokens. -/
def parseToken (fuel : ℕ) (token : List Char) : Attempt ParseError (List (BitVec w)) :=
  if token = [] then pure [] else parseSegment B fuel token

/-- `get_value`, with at most `fuel` rounds for each loop. -/
def getValue (fuel : ℕ) (str : List Char) : Attempt ParseError (List (BitVec w)) :=
  if str = [] then pure []
  else attemptAll (parseToken B fuel) (B.split str fun c => c == ',' || c == ' ')

def TokenEnds (token : List Char) : Prop := token = [] ∨ SegmentEnds B token

def TokenThrows (token : List Char) : Prop := token ≠ [] ∧ SegmentThrows B token

instance : DecidablePred (TokenEnds B) := fun _ => inferInstanceAs (Decidable (_ ∨ _))

instance : DecidablePred (TokenThrows B) := fun _ => inferInstanceAs (Decidable (_ ∧ _))

/-- Every token up to the first that throws has numbers whose loop ends. -/
def ListEnds (str : List Char) : Prop :=
  FineAll (TokenEnds B) (TokenThrows B) (B.split str fun c => c == ',' || c == ' ')

instance : DecidablePred (ListEnds B) := fun _ => decidableFineAll _

theorem token_known : Known (fun token fuel => parseToken B fuel token) (TokenEnds B) (TokenThrows B) := by
  have hcons : ∀ {token : List Char}, token ≠ [] →
      (fun fuel => parseToken B fuel token) = fun fuel => parseSegment B fuel token := by
    intro token h
    funext fuel
    rw [parseToken, if_neg h]
  constructor
  · intro token h
    rw [TokenEnds, not_or] at h
    show Stalls fun fuel => parseToken B fuel token
    rw [hcons h.1]
    exact (segment_known B).stalls token h.2
  · intro token h
    show ∃ e, Comes (fun fuel => parseToken B fuel token) (.error e)
    rw [hcons h.1]
    exact (segment_known B).throws token h.2
  · intro token h hnot
    by_cases hnil : token = []
    · refine ⟨[], 0, fun fuel _ => ?_⟩
      show (parseToken B fuel token).run = some (.ok [])
      rw [parseToken, if_pos hnil]
      rfl
    · show ∃ out, Comes (fun fuel => parseToken B fuel token) (.ok out)
      rw [hcons hnil]
      exact (segment_known B).returns token (h.resolve_left hnil) fun hthrows => hnot ⟨hnil, hthrows⟩

/-- **A list of numbers ends** exactly if its segments do, up to the first that throws. -/
theorem getValue_ends_iff (str : List Char) : (Ends fun fuel => getValue B fuel str) ↔ ListEnds B str := by
  unfold getValue
  by_cases hstr : str = []
  · simp only [if_pos hstr]
    refine ⟨fun _ => ?_, fun _ => ⟨_, comes_pure []⟩⟩
    rw [ListEnds, B.split_eq, hstr, List.splitOnP_nil]
    exact ⟨.inl rfl, .inr trivial⟩
  · simp only [if_neg hstr]
    exact attemptAll_ends_iff (token_known B) _

end Lists

end VectorTranslator

end Redux.Util
