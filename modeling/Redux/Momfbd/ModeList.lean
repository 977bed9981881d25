import Redux.Util.RunText

/-!
# Momfbd.ModeList — lists of modes as text

`redux::ModeListTranslator`: a mode list is written with its runs folded, each segment with a letter
for its type unless that is the default of the list, and read back.  Setting the default type gives
the modes without a letter their type again.  A list is read back as it was exactly if its folded runs
are `Readable`, which for mode numbers means that they ascend (`modesReadBack_iff`).
-/

namespace Redux.Momfbd

open Redux.Util

inductive ModeBase
  | MB_NONE | ZERNIKE | KARHUNEN_LOEVE | MB_ZKL | MB_FILE
  deriving DecidableEq

/-- A mode number with its type. -/
abbrev ModeID := Element ModeBase 16

structure ModeList where
  modes : List ModeID
  defaultType : ModeBase

/-- What `setDefaultModeType` does to a mode. -/
def setType (new_mb : ModeBase) (a : ModeID) : ModeID :=
  if a.type = .MB_NONE then ⟨new_mb, a.number⟩ else a

/-- `setDefaultModeType( new_mb )`, with `MB_NONE` for the old type. -/
def ModeList.setDefaultModeType (list : ModeList) (new_mb : ModeBase) : ModeList where
  modes := list.modes.map (setType new_mb)
  defaultType := new_mb

namespace ModeListTranslator

/-! ## Writing -/

/-- The runs of a list: each is of one type. -/
def runs (modes : List ModeID) : List (Segment ModeBase 16) := segments modes.length modes

/-- The letter before a segment. -/
def letter (defaultType type : ModeBase) : List Char :=
  if defaultType = .MB_NONE ∨ type ≠ defaultType then
    if type = .KARHUNEN_LOEVE then ['K'] else ['Z']
  else []

def token (defaultType : ModeBase) (seg : Segment ModeBase 16) : List Char :=
  letter defaultType seg.type ++ seg.text

/-- `if( ret.back() == ',' ) ret.pop_back()`.  Of an empty string, which only an empty list leaves, `back()` is
undefined; it is taken to have no comma. -/
def popComma (ret : List Char) : List Char := if ret.getLast? = some ',' then ret.dropLast else ret

/-- `put_value`: the segments with commas between them. -/
def put_value (list : ModeList) : List Char :=
  popComma ([','].intercalate ((runs list.modes).map (token list.defaultType)))

/-! ## Reading -/

def isZ (a : Char) : Bool := a == 'z' || a == 'Z'

def isK (a : Char) : Bool := a == 'k' || a == 'K'

/-- `parseSegment`, which throws for two letters.  Taking the letters out first leaves the marks to be
counted as they are. -/
def parseSegment (B : Boost 16) (fuel : ℕ) (str : List Char) : Option (List ModeID) :=
  let nz := str.countP isZ
  let nk := str.countP isK
  if nz ≠ 0 ∧ nk ≠ 0 then none else
    let tp := if nk ≠ 0 then .KARHUNEN_LOEVE else if nz ≠ 0 then .ZERNIKE else .MB_NONE
    let tmpIn := B.remove_erase_if str fun c => isZ c || isK c
    (parseNumbers B fuel tmpIn).map fun numbers => numbers.map (⟨tp, ·⟩)

def parseTokens (B : Boost 16) (fuel : ℕ) : List (List Char) → Option (List ModeID)
  | [] => some []
  | token :: tokens => do
    let res ← parseSegment B fuel token
    let modes ← parseTokens B fuel tokens
    return res ++ modes

/-- `get_value`, with at most `fuel` rounds for each loop. -/
def get_value (B : Boost 16) (fuel : ℕ) (str : List Char) : Option ModeList :=
  if str = [] then some ⟨[], .MB_NONE⟩
  else (parseTokens B fuel (B.split str (· == ','))).map (⟨·, .MB_NONE⟩)

/-! ## Back again -/

section Back

variable {seg : Segment ModeBase 16} {defaultType : ModeBase} {c : Char} (B : Boost 16) (fuel : ℕ)

/-- The types that the translator has letters for. -/
def Known (type : ModeBase) : Prop := type = .ZERNIKE ∨ type = .KARHUNEN_LOEVE

instance (type : ModeBase) : Decidable (Known type) := inferInstanceAs (Decidable (_ ∨ _))

theorem not_letter (h : c ∈ seg.text) : isZ c = false ∧ isK c = false := by
  have hdigit : ∀ d : Char, d.isDigit = false → d ≠ '-' → d ≠ ':' → c ≠ d := by
    rintro d hd hminus hcolon rfl
    rcases seg.mem_text h with h | h | h
    · rw [hd] at h
      cases h
    · exact hminus h
    · exact hcolon h
  constructor
  · rw [isZ, Bool.or_eq_false_iff, beq_eq_false_iff_ne, beq_eq_false_iff_ne]
    exact ⟨hdigit _ (by decide) (by decide) (by decide), hdigit _ (by decide) (by decide) (by decide)⟩
  · rw [isK, Bool.or_eq_false_iff, beq_eq_false_iff_ne, beq_eq_false_iff_ne]
    exact ⟨hdigit _ (by decide) (by decide) (by decide), hdigit _ (by decide) (by decide) (by decide)⟩

/-- A letter before a segment says nothing but the type. -/
theorem parseSegment_append (l : List Char) (hl : ∀ c ∈ l, isZ c = true ∨ isK c = true)
    (hone : ¬(l.countP isZ ≠ 0 ∧ l.countP isK ≠ 0)) :
    parseSegment B fuel (l ++ seg.text) = (parseNumbers B fuel seg.text).map fun numbers => numbers.map
      (⟨if l.countP isK ≠ 0 then .KARHUNEN_LOEVE else if l.countP isZ ≠ 0 then .ZERNIKE else .MB_NONE, ·⟩) := by
  have hz : seg.text.countP isZ = 0 := List.countP_eq_zero.2 fun c hc => by simp [(not_letter hc).1]
  have hk : seg.text.countP isK = 0 := List.countP_eq_zero.2 fun c hc => by simp [(not_letter hc).2]
  have hfilter : (l ++ seg.text).filter (fun c => !(isZ c || isK c)) = seg.text := by
    rw [List.filter_append, List.filter_eq_nil_iff.2, List.filter_eq_self.2, List.nil_append]
    · intro c hc
      simp [(not_letter hc).1, (not_letter hc).2]
    · intro c hc
      rcases hl c hc with h | h <;> simp [h]
  rw [parseSegment, List.countP_append, List.countP_append, hz, hk, Nat.add_zero, Nat.add_zero]
  dsimp only
  rw [if_neg hone, B.remove_eq, hfilter]

/-- What a type is read as: the letters are those of two types, and a default needs none. -/
def readType (defaultType type : ModeBase) : ModeBase :=
  if type = defaultType ∧ defaultType ≠ .MB_NONE then defaultType
  else if type = .KARHUNEN_LOEVE then .KARHUNEN_LOEVE else .ZERNIKE

/-- A mode with the type that its own is read as. -/
def readMode (defaultType : ModeBase) (a : ModeID) : ModeID := ⟨readType defaultType a.type, a.number⟩

theorem readType_of_known {type : ModeBase} (h : Known type) : readType defaultType type = type := by
  rw [readType]
  split_ifs with hdefault hkl
  · exact hdefault.1.symm
  · exact hkl.symm
  · exact (h.resolve_right hkl).symm

theorem readType_readType (defaultType type : ModeBase) :
    readType defaultType (readType defaultType type) = readType defaultType type := by
  cases defaultType <;> cases type <;> rfl

theorem letter_cases (defaultType type : ModeBase) :
    (letter defaultType type = [] ∧ readType defaultType type = defaultType) ∨
      (letter defaultType type = ['K'] ∧ readType defaultType type = .KARHUNEN_LOEVE) ∨
      (letter defaultType type = ['Z'] ∧ readType defaultType type = .ZERNIKE) := by
  cases defaultType <;> cases type <;> decide

theorem read_type {modes : List ModeID} (h : seg.read fuel = some modes) : ∀ a ∈ modes, a.type = seg.type := by
  cases seg with
  | single x =>
    obtain rfl := Option.some.inj h
    exact fun a ha => congrArg Element.type (List.mem_singleton.1 ha)
  | folded r =>
    obtain ⟨ns, -, rfl⟩ := Option.map_eq_some_iff.1 h
    intro a ha
    obtain ⟨n, -, rfl⟩ := List.mem_map.1 ha
    rfl

/-- The numbers that are read of a segment, with a type that the default type turns into what its own is read as. -/
theorem map_setType {tp : ModeBase} (htp : ∀ n, setType defaultType ⟨tp, n⟩ = ⟨readType defaultType seg.type, n⟩) :
    ((parseNumbers B fuel seg.text).map fun numbers => numbers.map (⟨tp, ·⟩)).map
      (List.map (setType defaultType)) = (seg.read fuel).map (List.map (readMode defaultType)) := by
  rw [parseNumbers_text]
  cases hread : seg.read fuel with
  | none => rfl
  | some modes =>
    rw [Option.map_some, Option.map_some, Option.map_some, Option.map_some, List.map_map, List.map_map]
    refine congrArg some (List.map_congr_left fun a ha => ?_)
    rw [Function.comp_apply, Function.comp_apply, htp, ← read_type fuel hread a ha]
    rfl

/-- **With the default type set, a token is read as its segment.** -/
theorem parseSegment_token : (parseSegment B fuel (token defaultType seg)).map (List.map (setType defaultType)) =
    (seg.read fuel).map (List.map (readMode defaultType)) := by
  rw [token]
  rcases letter_cases defaultType seg.type with ⟨hletter, htype⟩ | ⟨hletter, htype⟩ | ⟨hletter, htype⟩
  · rw [hletter, parseSegment_append B fuel [] (fun _ hc => nomatch hc) (by decide)]
    exact map_setType B fuel fun n => by rw [htype]; rfl
  · rw [hletter, parseSegment_append B fuel ['K'] (List.forall_mem_singleton.2 (.inr rfl)) (by decide)]
    exact map_setType B fuel fun n => by rw [htype]; rfl
  · rw [hletter, parseSegment_append B fuel ['Z'] (List.forall_mem_singleton.2 (.inl rfl)) (by decide)]
    exact map_setType B fuel fun n => by rw [htype]; rfl

theorem parseTokens_token : ∀ segs : List (Segment ModeBase 16),
    (parseTokens B fuel (segs.map (token defaultType))).map (List.map (setType defaultType)) =
      (readAll fuel segs).map (List.map (readMode defaultType))
  | [] => rfl
  | seg :: segs => by
    have hseg := @parseSegment_token seg defaultType B fuel
    have hsegs := parseTokens_token segs
    rw [List.map_cons, parseTokens, readAll]
    cases hres : parseSegment B fuel (token defaultType seg) with
    | none =>
      rw [hres, Option.map_none] at hseg
      rw [Option.map_eq_none_iff.1 hseg.symm]
      rfl
    | some res =>
      rw [hres, Option.map_some] at hseg
      obtain ⟨read, hread, hmodes⟩ := Option.map_eq_some_iff.1 hseg.symm
      rw [hread]
      cases hrest : parseTokens B fuel (segs.map (token defaultType)) with
      | none =>
        rw [hrest, Option.map_none] at hsegs
        rw [Option.map_eq_none_iff.1 hsegs.symm]
        rfl
      | some modes =>
        rw [hrest, Option.map_some] at hsegs
        obtain ⟨result, hresult, hmodes'⟩ := Option.map_eq_some_iff.1 hsegs.symm
        rw [hresult]
        refine congrArg some ?_
        rw [List.map_append, List.map_append, hmodes, hmodes']

theorem token_ne_nil (seg : Segment ModeBase 16) : token defaultType seg ≠ [] :=
  List.append_ne_nil_of_right_ne_nil _ seg.text_ne_nil

theorem no_comma_token (seg : Segment ModeBase 16) : ∀ c ∈ token defaultType seg, (c == ',') = false := by
  intro c hc
  rw [beq_eq_false_iff_ne]
  rintro rfl
  rcases List.mem_append.1 hc with h | h
  · rw [letter] at h
    split_ifs at h <;> exact absurd h (by decide)
  · rcases seg.mem_text h with h | h | h <;> exact absurd h (by decide)

/-- What `put_value` writes is split into its tokens; it has no comma at its end. -/
theorem split_put_value (list : ModeList) (h : runs list.modes ≠ []) :
    put_value list ≠ [] ∧
      (put_value list).splitOnP (· == ',') = (runs list.modes).map (token list.defaultType) := by
  have hsplit : ([','].intercalate ((runs list.modes).map (token list.defaultType))).splitOnP (· == ',') =
      (runs list.modes).map (token list.defaultType) := by
    refine splitOnP_intercalate (by decide) (by simpa using h) fun t ht => ?_
    obtain ⟨seg, -, rfl⟩ := List.mem_map.1 ht
    exact no_comma_token seg
  -- an empty token would come from a comma at the end
  have hnil : [] ∉ (runs list.modes).map (token list.defaultType) := by
    intro hmem
    obtain ⟨seg, -, hseg⟩ := List.mem_map.1 hmem
    exact token_ne_nil seg hseg
  have hcomma : ([','].intercalate ((runs list.modes).map (token list.defaultType))).getLast? ≠ some ',' := by
    intro hlast
    obtain ⟨init, hinit⟩ := List.getLast?_eq_some_iff.1 hlast
    rw [hinit, List.splitOnP_append_cons _ _ (by decide), List.splitOnP_nil] at hsplit
    exact hnil (hsplit ▸ List.mem_append_right _ (List.mem_singleton_self _))
  rw [put_value, popComma, if_neg hcomma]
  refine ⟨fun hempty => ?_, hsplit⟩
  rw [hempty, List.splitOnP_nil] at hsplit
  exact hnil (hsplit ▸ List.mem_singleton_self _)

theorem runs_spec (modes : List ModeID) : itemsOf (runs modes) = modes ∧ Folded (runs modes) :=
  segments_spec le_rfl

/-- The type of a segment is that of its elements. -/
theorem types_of_runs {P : ModeBase → Prop} {modes : List ModeID} (h : ∀ a ∈ modes, P a.type) :
    ∀ seg ∈ runs modes, P seg.type := by
  intro seg hseg
  have hitems : ∀ a ∈ seg.items, P a.type := fun a ha => h a <| by
    rw [← (runs_spec modes).1]
    exact List.mem_flatten.2 ⟨_, List.mem_map_of_mem hseg, ha⟩
  cases seg with
  | single x => exact hitems x (List.mem_singleton_self x)
  | folded r => exact hitems ⟨r.type, r.first⟩ (by rw [Segment.items, Run.items_eq]; exact List.mem_cons_self)

theorem types_of_read {P : ModeBase → Prop} : ∀ {segs : List (Segment ModeBase 16)} {modes : List ModeID},
    (∀ seg ∈ segs, P seg.type) → readAll fuel segs = some modes → ∀ a ∈ modes, P a.type
  | [], _, _, h => by
    obtain rfl := Option.some.inj h
    exact fun _ ha => absurd ha List.not_mem_nil
  | seg :: segs, _, hP, h => by
    obtain ⟨res, hres, h⟩ := Option.bind_eq_some_iff.1 h
    obtain ⟨result, hresult, h⟩ := Option.bind_eq_some_iff.1 h
    obtain rfl := Option.some.inj h
    obtain ⟨hseg, hsegs⟩ := List.forall_mem_cons.1 hP
    intro a ha
    rcases List.mem_append.1 ha with ha | ha
    · rw [read_type fuel hres a ha]
      exact hseg
    · exact types_of_read hsegs hresult a ha

/-- With the default type set, what is written is read segment by segment, each mode with what its type is read as. -/
theorem get_value_put_value (list : ModeList) :
    ((get_value B fuel (put_value list)).map fun read => (read.setDefaultModeType list.defaultType).modes) =
      (readAll fuel (runs list.modes)).map (List.map (readMode list.defaultType)) := by
  rw [get_value, ← @parseTokens_token list.defaultType B fuel (runs list.modes)]
  by_cases hnil : runs list.modes = []
  · have hempty : put_value list = [] := by rw [put_value, hnil]; rfl
    rw [hnil, if_pos hempty]
    rfl
  · obtain ⟨hne, hsplit⟩ := split_put_value list hnil
    rw [if_neg hne, B.split_eq, hsplit, Option.map_map]
    rfl

theorem map_readMode {defaultType : ModeBase} {modes : List ModeID}
    (h : ∀ a ∈ modes, readType defaultType a.type = a.type) : modes.map (readMode defaultType) = modes := by
  refine (List.map_congr_left fun a ha => ?_).trans (List.map_id modes)
  rw [readMode, h a ha]
  rfl

/-- The modes come back if the segments do and every type is read as itself. -/
theorem readModes_iff (list : ModeList) :
    ((get_value B fuel (put_value list)).map fun read => (read.setDefaultModeType list.defaultType).modes) =
        some list.modes ↔
      readAll fuel (runs list.modes) = some list.modes ∧
        ∀ a ∈ list.modes, readType list.defaultType a.type = a.type := by
  rw [get_value_put_value]
  constructor
  · intro h
    obtain ⟨read, hread, hmodes⟩ := Option.map_eq_some_iff.1 h
    have htypes : ∀ a ∈ list.modes, readType list.defaultType a.type = a.type := by
      rw [← hmodes]
      intro a ha
      obtain ⟨b, -, rfl⟩ := List.mem_map.1 ha
      exact readType_readType _ b.type
    have hread_types : ∀ a ∈ read, readType list.defaultType a.type = a.type :=
      @types_of_read fuel (fun tp => readType list.defaultType tp = tp) _ _
        (@types_of_runs (fun tp => readType list.defaultType tp = tp) _ htypes) hread
    rw [map_readMode hread_types] at hmodes
    exact ⟨hmodes ▸ hread, htypes⟩
  · rintro ⟨hread, htypes⟩
    rw [hread, Option.map_some, map_readMode htypes]

variable {B fuel}

theorem parseSegment_mono {fuel' : ℕ} (hfuel : fuel ≤ fuel') {str : List Char} {out : List ModeID}
    (h : parseSegment B fuel str = some out) : parseSegment B fuel' str = some out := by
  rw [parseSegment] at h ⊢
  dsimp only at h ⊢
  split_ifs at h ⊢
  all_goals
    obtain ⟨numbers, hnumbers, rfl⟩ := Option.map_eq_some_iff.1 h
    rw [parseNumbers_mono hfuel hnumbers, Option.map_some]

theorem parseTokens_mono {fuel' : ℕ} (hfuel : fuel ≤ fuel') {tokens : List (List Char)} {out : List ModeID}
    (h : parseTokens B fuel tokens = some out) : parseTokens B fuel' tokens = some out := by
  induction tokens generalizing out with
  | nil => exact h
  | cons token tokens ih =>
    obtain ⟨res, hres, h⟩ := Option.bind_eq_some_iff.1 h
    obtain ⟨modes, hmodes, h⟩ := Option.bind_eq_some_iff.1 h
    rw [parseTokens, parseSegment_mono hfuel hres, ih hmodes]
    exact h

/-- What is read is read with more rounds, too. -/
theorem get_value_mono {fuel' : ℕ} (hfuel : fuel ≤ fuel') {str : List Char} {out : ModeList}
    (h : get_value B fuel str = some out) : get_value B fuel' str = some out := by
  rw [get_value] at h ⊢
  split_ifs at h ⊢
  · exact h
  · obtain ⟨modes, hmodes, rfl⟩ := Option.map_eq_some_iff.1 h
    rw [parseTokens_mono hfuel hmodes, Option.map_some]

end Back

/-- Written, read again and given its default type, the list is what it was. -/
def ReadsBack (B : Boost 16) (list : ModeList) : Prop :=
  ∃ fuel, ((get_value B fuel (put_value list)).map fun read =>
    (read.setDefaultModeType list.defaultType).modes) = some list.modes

/-- A mode list is read back exactly if its folded runs are readable and every type is read as itself. -/
theorem modesReadBack_iff_readType (B : Boost 16) (list : ModeList) : ReadsBack B list ↔
    (∀ seg ∈ runs list.modes, seg.Readable) ∧ ∀ a ∈ list.modes, readType list.defaultType a.type = a.type := by
  have hback := read_back_iff (runs_spec list.modes).2
  rw [(runs_spec list.modes).1] at hback
  simp only [ReadsBack, readModes_iff]
  rw [← hback]
  exact ⟨fun ⟨fuel, hread, htypes⟩ => ⟨⟨fuel, hread⟩, htypes⟩, fun ⟨⟨fuel, hread⟩, htypes⟩ => ⟨fuel, hread, htypes⟩⟩

/-- **A mode list is read back exactly if its folded runs are readable.** -/
theorem modesReadBack_iff (B : Boost 16) (list : ModeList) (h : ∀ a ∈ list.modes, Known a.type) :
    ReadsBack B list ↔ ∀ seg ∈ runs list.modes, seg.Readable := by
  rw [modesReadBack_iff_readType]
  exact and_iff_left fun a ha => readType_of_known (h a ha)

/-- A list that ascends, with both types in it. -/
def mixed : ModeList := ⟨[⟨.ZERNIKE, 2⟩, ⟨.ZERNIKE, 3⟩, ⟨.ZERNIKE, 4⟩, ⟨.KARHUNEN_LOEVE, 5⟩], .KARHUNEN_LOEVE⟩

theorem mixed_back : ReadsBack (scanf 16) mixed :=
  (modesReadBack_iff (scanf 16) mixed (by decide)).2 (by decide)

/-- A list whose modes descend. -/
def descending : ModeList := ⟨[⟨.ZERNIKE, 6⟩, ⟨.ZERNIKE, 5⟩, ⟨.ZERNIKE, 4⟩], .ZERNIKE⟩

theorem descending_not_back : (∀ a ∈ descending.modes, Known a.type) ∧ ¬ReadsBack (scanf 16) descending := by
  refine ⟨by decide, fun hback => ?_⟩
  exact absurd ((modesReadBack_iff_readType (scanf 16) descending).1 hback).1 (by decide)

end ModeListTranslator

end Redux.Momfbd
