import Redux.Momfbd.ModeList
import Redux.Util.ParseOutcome

/-!
# Momfbd.ParseEnds — when the parsing of a mode list ends

`ModeListTranslator::get_value` with its throws told apart from loops that never end, as
`Util.ParseOutcome` has it for plain numbers.  The modes are read by the same loops, in `uint16_t`.
-/

namespace Redux.Momfbd

open Redux.Util Redux.Lib

namespace ModeListTranslator

section Lists

variable (B : Boost 16)

/-- The segment has letters for two types. -/
def Conflicting (str : List Char) : Prop := str.countP isZ ≠ 0 ∧ str.countP isK ≠ 0

instance : DecidablePred Conflicting := fun _ => inferInstanceAs (Decidable (_ ∧ _))

/-- The segment without its letters. -/
def withoutLetters (str : List Char) : List Char := B.remove_erase_if str fun c => isZ c || isK c

/-- The type that the letters stand for. -/
def typeOf (str : List Char) : ModeBase :=
  if str.countP isK ≠ 0 then .KARHUNEN_LOEVE else if str.countP isZ ≠ 0 then .ZERNIKE else .MB_NONE

/-- `parseSegment`, which throws a `logic_error` for two letters. -/
def parseToken (fuel : ℕ) (str : List Char) : Attempt ParseError (List ModeID) :=
  if Conflicting str then throw .logic_error else do
    let numbers ← Util.parseSegment B fuel (withoutLetters B str)
    return numbers.map (⟨typeOf str, ·⟩)

/-- `get_value`, with at most `fuel` rounds for each loop. -/
def getValue (fuel : ℕ) (str : List Char) : Attempt ParseError ModeList :=
  if str = [] then return ⟨[], .MB_NONE⟩ else do
    let modes ← attemptAll (parseToken B fuel) (B.split str (· == ','))
    return ⟨modes, .MB_NONE⟩

def TokenEnds (str : List Char) : Prop := Conflicting str ∨ SegmentEnds B (withoutLetters B str)

def TokenThrows (str : List Char) : Prop := Conflicting str ∨ SegmentThrows B (withoutLetters B str)

instance : DecidablePred (TokenEnds B) := fun _ => inferInstanceAs (Decidable (_ ∨ _))

instance : DecidablePred (TokenThrows B) := fun _ => inferInstanceAs (Decidable (_ ∨ _))

/-- Every segment up to the first that throws has numbers whose loop ends. -/
def ListEnds (str : List Char) : Prop := FineAll (TokenEnds B) (TokenThrows B) (B.split str (· == ','))

instance : DecidablePred (ListEnds B) := fun _ => decidableFineAll _

theorem token_known : Lib.Known (fun str fuel => parseToken B fuel str) (TokenEnds B) (TokenThrows B) := by
  have hplain : ∀ {str : List Char}, ¬Conflicting str → (fun fuel => parseToken B fuel str) = fun fuel =>
      Util.parseSegment B fuel (withoutLetters B str) >>= fun numbers => pure (numbers.map (⟨typeOf str, ·⟩)) := by
    intro str h
    funext fuel
    rw [parseToken, if_neg h]
  constructor
  · intro str h
    rw [TokenEnds, not_or] at h
    show Stalls fun fuel => parseToken B fuel str
    rw [hplain h.1]
    exact ((segment_known B).stalls _ h.2).bind
  · intro str h
    show ∃ e, Comes (fun fuel => parseToken B fuel str) (.error e)
    by_cases hconf : Conflicting str
    · refine ⟨.logic_error, 0, fun fuel _ => ?_⟩
      show (parseToken B fuel str).run = some (.error .logic_error)
      rw [parseToken, if_pos hconf]
      rfl
    · rw [hplain hconf]
      obtain ⟨e, he⟩ := (segment_known B).throws _ (h.resolve_left hconf)
      exact ⟨e, he.bind_error⟩
  · intro str h hnot
    rw [TokenThrows, not_or] at hnot
    show ∃ out, Comes (fun fuel => parseToken B fuel str) (.ok out)
    rw [hplain hnot.1]
    obtain ⟨numbers, hnumbers⟩ := (segment_known B).returns _ (h.resolve_left hnot.1) hnot.2
    exact ⟨_, hnumbers.bind (comes_pure _)⟩

/-- An empty list says nothing that could loop. -/
theorem listEnds_nil : ListEnds B [] := by
  have hends : SegmentEnds B (withoutLetters B []) := by
    rw [withoutLetters, B.remove_eq]
    unfold SegmentEnds reading
    cases h : B.lexical_cast [] with
    | none => simp [h]
    | some v => simp [h]
  rw [ListEnds, B.split_eq, List.splitOnP_nil]
  exact ⟨.inr hends, .inr trivial⟩

/-- **A mode list ends** exactly if its segments do, up to the first that throws. -/
theorem getValue_ends_iff (str : List Char) : (Ends fun fuel => getValue B fuel str) ↔ ListEnds B str := by
  unfold getValue
  by_cases hstr : str = []
  · simp only [if_pos hstr]
    exact ⟨fun _ => hstr ▸ listEnds_nil B, fun _ => ⟨_, comes_pure _⟩⟩
  · simp only [if_neg hstr]
    have hcases := attemptAll_cases (token_known B) (B.split str (· == ','))
    constructor
    · intro hends
      by_contra hnot
      exact (hcases.2 hnot).bind.not_ends hends
    · intro hends
      obtain ⟨o, ho⟩ := hcases.1 hends
      cases o with
      | error e => exact ⟨_, ho.bind_error⟩
      | ok modes => exact ⟨_, ho.bind (comes_pure _)⟩

end Lists

end ModeListTranslator

/-- **The parsing of a number list ends** exactly if every token up to the first that throws has a loop
that comes by a number beyond its larger end. -/
theorem parsing_ends_iff (T : Unsigned) (B : Boost T.bits) (B₁₆ : Boost 16) (str : List Char) :
    ((Ends fun fuel => VectorTranslator.getValue B fuel str) ↔ VectorTranslator.ListEnds B str) ∧
      ((Ends fun fuel => ModeListTranslator.getValue B₁₆ fuel str) ↔ ModeListTranslator.ListEnds B₁₆ str) :=
  ⟨VectorTranslator.getValue_ends_iff B str, ModeListTranslator.getValue_ends_iff B₁₆ str⟩

/-- Steps of zero, equal ends at the maximum, a step that always wraps back below the end: none of these
end. -/
theorem parsing_never_ends :
    (∀ str ∈ ["7:0:9", "65535-65535", "2:32768:32770"],
      ¬Ends fun fuel => VectorTranslator.getValue (scanf Unsigned.uint16_t.bits) fuel str.toList) ∧
    ¬Ends fun fuel => ModeListTranslator.getValue (scanf 16) fuel "Z7:0:9".toList := by
  simp only [VectorTranslator.getValue_ends_iff, ModeListTranslator.getValue_ends_iff]
  decide

end Redux.Momfbd
