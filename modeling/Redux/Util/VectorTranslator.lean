import Redux.Util.RunText

/-!
# Util.VectorTranslator — lists of unsigned numbers as text

`redux::VectorTranslator<T>` for `uint16_t`, `uint32_t` and `size_t`: a list is written with its runs
folded, and read back.  It is read back as it was exactly if its folded runs are `Readable`
(`readsBack_iff`); a run of equal numbers is not, nor is one whose numbers wrap, nor, in
`uint16_t`, one that descends.
-/

namespace Redux.Util

/-- The unsigned types that lists are used with. -/
inductive Unsigned
  | uint16_t | uint32_t | size_t
  deriving DecidableEq

def Unsigned.bits : Unsigned → ℕ
  | .uint16_t => 16
  | .uint32_t => 32
  | .size_t => 64

namespace VectorTranslator

section Translator

variable {w : ℕ}

/-- The runs of a list: all its elements are of one type. -/
def runs (vec : List (BitVec w)) : List (Segment Unit w) :=
  segments vec.length (vec.map fun x => ⟨(), x⟩)

/-- `put_value`: the segments with commas between them. -/
def put_value (vec : List (BitVec w)) : List Char := [','].intercalate ((runs vec).map Segment.text)

/-- The loop of `get_value` over the tokens. -/
def parseTokens (B : Boost w) (fuel : ℕ) : List (List Char) → Option (List (BitVec w))
  | [] => some []
  | token :: tokens =>
    if token = [] then parseTokens B fuel tokens else do
      let res ← parseNumbers B fuel token
      let result ← parseTokens B fuel tokens
      return res ++ result

/-- `get_value`, with at most `fuel` rounds for each loop. -/
def get_value (B : Boost w) (fuel : ℕ) (str : List Char) : Option (List (BitVec w)) :=
  if str = [] then some []
  else parseTokens B fuel (B.split str fun c => c == ',' || c == ' ')

theorem itemsOf_runs (vec : List (BitVec w)) : itemsOf (runs vec) = vec.map (Element.mk ()) :=
  (segments_spec (by rw [List.length_map])).1

theorem runs_folded (vec : List (BitVec w)) : Folded (runs vec) :=
  (segments_spec (by rw [List.length_map])).2

variable (B : Boost w) (fuel : ℕ)

theorem parseTokens_text : ∀ segs : List (Segment Unit w),
    parseTokens B fuel (segs.map Segment.text) = (readAll fuel segs).map (List.map Element.number)
  | [] => rfl
  | seg :: segs => by
    rw [List.map_cons, parseTokens, if_neg seg.text_ne_nil, parseNumbers_text, parseTokens_text segs, readAll]
    cases seg.read fuel with
    | none => rfl
    | some res =>
      cases readAll fuel segs with
      | none => rfl
      | some result => exact congrArg some (List.map_append).symm

/-- What is written is read segment by segment. -/
theorem get_value_put_value (vec : List (BitVec w)) :
    get_value B fuel (put_value vec) = (readAll fuel (runs vec)).map (List.map Element.number) := by
  rw [get_value, put_value]
  by_cases hnil : runs vec = []
  · rw [hnil]
    rfl
  · have hsplit : ([','].intercalate ((runs vec).map Segment.text)).splitOnP
        (fun c => c == ',' || c == ' ') = (runs vec).map Segment.text := by
      refine splitOnP_intercalate (by decide) (by simpa using hnil) fun t ht c hc => ?_
      obtain ⟨seg, -, rfl⟩ := List.mem_map.1 ht
      rw [Bool.or_eq_false_iff, beq_eq_false_iff_ne, beq_eq_false_iff_ne]
      constructor
      · rintro rfl
        rcases seg.mem_text hc with h | h | h <;> exact absurd h (by decide)
      · rintro rfl
        rcases seg.mem_text hc with h | h | h <;> exact absurd h (by decide)
    have hstr : [','].intercalate ((runs vec).map Segment.text) ≠ [] := by
      intro hempty
      rw [hempty, List.splitOnP_nil] at hsplit
      obtain ⟨seg, -, hseg⟩ := List.mem_map.1 (hsplit ▸ List.mem_singleton_self ([] : List Char))
      exact seg.text_ne_nil hseg
    rw [if_neg hstr, B.split_eq, hsplit, parseTokens_text]

variable {B fuel}

variable (B fuel)

/-- What a list of plain numbers is read as, and what it is, without the types. -/
theorem get_value_eq_iff (vec : List (BitVec w)) :
    get_value B fuel (put_value vec) = some vec ↔ readAll fuel (runs vec) = some (itemsOf (runs vec)) := by
  rw [get_value_put_value, itemsOf_runs]
  cases readAll fuel (runs vec) with
  | none => exact ⟨nofun, nofun⟩
  | some result =>
    rw [Option.map_some, Option.some.injEq, Option.some.injEq]
    constructor
    · rintro rfl
      rw [List.map_map]
      exact (List.map_id _).symm
    · rintro rfl
      rw [List.map_map]
      exact List.map_id _

end Translator

/-- Written and read again, with as many rounds as it takes, the list is what it was. -/
def ReadsBack (T : Unsigned) (B : Boost T.bits) (vec : List (BitVec T.bits)) : Prop :=
  ∃ fuel, get_value B fuel (put_value vec) = some vec

/-- **A list of unsigned numbers is read back exactly if its folded runs are readable.** -/
theorem readsBack_iff (T : Unsigned) (B : Boost T.bits) (vec : List (BitVec T.bits)) :
    ReadsBack T B vec ↔ ∀ seg ∈ runs vec, seg.Readable := by
  simp only [ReadsBack, get_value_eq_iff]
  exact read_back_iff (runs_folded vec)

/-- An ascending list comes back. -/
theorem ascending_back : ReadsBack .uint16_t (scanf _) [3, 5, 7, 9, 4] :=
  (readsBack_iff .uint16_t (scanf _) [3, 5, 7, 9, 4]).2 (by decide)

/-- A descending list of `uint16_t` does not, nor does a list of equal numbers. -/
theorem descending_lost :
    ¬ReadsBack .uint16_t (scanf _) [5, 3, 1] ∧ ¬ReadsBack .size_t (scanf _) [7, 7, 7] := by
  simp only [ReadsBack, get_value_eq_iff]
  rw [read_back_iff (runs_folded _), read_back_iff (runs_folded _)]
  decide

end VectorTranslator

end Redux.Util
