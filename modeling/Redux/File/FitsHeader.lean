import Mathlib.Tactic.IntervalCases
import Redux.File.FitsCard

/-!
# File.FitsHeader — looking up and replacing the cards of a FITS header

`getValue` finds the card of a key and takes its value apart once more: up to the first slash of the card, from the first
quote to the last, and on in the `CONTINUE` cards for every `&` at the end.  A string is read back if and only if it has no
slash, is not empty and does not end with `&`, an integer if its type is not of eight bits, and `emplaceCard` keeps that
(`answers_emplace_iff`).
-/

namespace Redux.File.Fits

open Redux.Lib Redux.Lib.Doubling Redux.Util Redux.Util.Text FileTypeTranslator

/-! ## Model -/

/-- `s.find_last_of( c )`, of a text with such a character. -/
def find_last_of (c : Char) (s : List Char) : ℕ := (s.rdropWhile (· ≠ c)).length - 1

/-- `trimStringValue`. -/
def trimStringValue (str : List Char) : List Char :=
  match (trim str).findIdx? (· = quote) with
  | none => single quote (trim str)
  | some first => single quote (((trim str).drop (first + 1)).take (find_last_of quote (trim str) - first - 1))

/-- `k.substr( 10, k.find('/')-10 )`, with a difference of unsigned numbers. -/
def beforeComment (card : List Char) : List Char :=
  match card.findIdx? (· = '/') with
  | some commentStart => if commentStart < 10 then card.drop 10 else (card.drop 10).take (commentStart - 10)
  | none => card.drop 10

/-- The comparison of a card with a key. -/
def named (key card : List Char) : Bool := iequals (card.take 8) (resize 8 key)

/-- The loop over the cards that continue a text, which ends with `&` for that: the text, and the cards that are left.
The last character of an empty text is not defined. -/
def continued : List (List Char) → List Char → Option (List Char × List (List Char))
  -- there is no card any more, but every & at the end goes
  | [], ret => if ret.rdropWhile (· = '&') = [] then none else some (ret.rdropWhile (· = '&'), [])
  | c :: hdr, ret =>
    if ret = [] then none
    else if ret.getLast? = some '&' then
      continued hdr (ret.dropLast ++
        if iequals (c.take 8) "CONTINUE".toList then trimStringValue (beforeComment c) else [])
    else some (ret, c :: hdr)

/-- The cards that are left are the last ones. -/
theorem continued_suffix : ∀ {hdr rest : List (List Char)} {ret ret' : List Char},
    continued hdr ret = some (ret', rest) → rest <:+ hdr
  | [], rest, ret, ret', h => by
    rw [continued] at h
    split at h
    · exact absurd h (by simp)
    · rw [← (Prod.mk.inj (Option.some.inj h)).2]
  | c :: hdr, rest, ret, ret', h => by
    rw [continued] at h
    split at h
    · exact absurd h (by simp)
    · split at h
      · exact (continued_suffix h).trans (List.suffix_cons c hdr)
      · rw [← (Prod.mk.inj (Option.some.inj h)).2]

/-- The loop of `getValue<string>`.  A card behind, with the same key, has the last word. -/
def stringFrom (key : List Char) (hdr : List (List Char)) (ret : List Char) : Option (List Char) :=
  match hdr with
  | [] => some ret
  | c :: hdr =>
    if named key c = true then
      match _h : continued hdr (trimStringValue (beforeComment c)) with
      | none => none
      | some (ret, rest) => stringFrom key rest ret
    else stringFrom key hdr ret
termination_by hdr.length
decreasing_by
  · exact Nat.lt_succ_of_le (continued_suffix ‹_›).length_le
  · exact Nat.lt_succ_self _

/-- `getValue<string>( hdr, key )`. -/
def getStringValue (hdr : List (List Char)) (key : List Char) : Option (List Char) := stringFrom key hdr []

/-- `getValue<T>( hdr, key )` of an integer type. -/
def getIntegerValue (L : LexicalCast) (t : CardInt) (key : List Char) : List (List Char) → ℤ
  | [] => 0
  | k :: hdr =>
    if named key k = true then
      (L.integer t.type (trimStringValue (beforeComment k))).getD (getIntegerValue L t key hdr)
    else getIntegerValue L t key hdr

/-- `multiKeys`. -/
def multiKeys : List (List Char) :=
  ["        ".toList, "COMMENT ".toList, "HISTORY ".toList, "CONTINUE".toList]

/-- `multiKeys.count( key )`. -/
def isMulti (key : List Char) : Bool := multiKeys.any fun k => iequals k key

/-- `updateCard` at a location, which may be `npos`. -/
def updateAt (hdr : List (List Char)) (location : Option ℕ) (card : List Char) : List (List Char) × Bool :=
  match location with
  | some i => if i < hdr.length then (hdr.set i card, true) else (hdr, false)
  | none => (hdr, false)

/-- `updateCard( hdr, key, card )`. -/
def updateKey (hdr : List (List Char)) (key card : List Char) : Option (List (List Char) × Bool) :=
  (makeKey key).map fun k =>
    updateAt hdr (if isMulti k = true then none else hdr.findIdx? fun c => c.take 8 = k) card

/-- `updateCard( hdr, card )`. -/
def updateCard (hdr : List (List Char)) (card : List Char) : Option (List (List Char) × Bool) :=
  (makeKey (card.take 8)).bind fun key => updateKey hdr key card

/-- `insertCard`, at the end. -/
def insertCard (hdr : List (List Char)) (card : List Char) : List (List Char) := hdr ++ [card]

/-- What both kinds of `emplaceCard` do after the update. -/
def inserted (card : List Char) (updated : List (List Char) × Bool) : List (List Char) × Bool :=
  (if updated.2 then updated.1 else insertCard updated.1 card, !updated.2)

/-- `emplaceCard( hdr, key, card )`. -/
def emplaceKey (hdr : List (List Char)) (key card : List Char) : Option (List (List Char) × Bool) :=
  (updateKey hdr key card).map (inserted card)

/-- `emplaceCard( hdr, card )`. -/
def emplaceCard (hdr : List (List Char)) (card : List Char) : Option (List (List Char) × Bool) :=
  (updateCard hdr card).map (inserted card)

/-! ## Keys -/

section Keys

variable {key k : List Char}

theorem toUpper_allowed : ∀ c ∈ allowed_key_chars, c.toUpper = c := by
  rw [allowed_key_chars_eq]
  exact forall_of_all (by decide)

/-- **A key** is eight characters: the allowed ones, and blanks behind them. -/
theorem makeKey_spec (h : makeKey key = some k) :
    ∃ s, Key s ∧ upper s = s ∧ k = s ++ List.replicate (8 - s.length) ' ' := by
  have hmake : ∀ l : List Char, (∀ c ∈ l.take 8, c ∈ allowed_key_chars) →
      ∃ s, Key s ∧ upper s = s ∧ resize 8 l = s ++ List.replicate (8 - s.length) ' ' := fun l hl => by
    refine ⟨l.take 8, ⟨fun c hc => ?_, List.length_take_le 8 l⟩, ?_, ?_⟩
    · rw [toUpper_allowed c (hl c hc)]
      exact hl c hc
    · exact (List.map_congr_left fun c hc => toUpper_allowed c (hl c hc)).trans (List.map_id _)
    · by_cases hle : l.length ≤ 8
      · rw [resize_of_le hle, List.take_of_length_le hle]
      · rw [resize_of_ge (by omega), List.length_take, min_eq_left (by omega), Nat.sub_self, List.replicate_zero,
          List.append_nil]
  rw [makeKey] at h
  split at h
  next found hfound =>
    split at h
    · exact absurd h (by simp)
    next hlarge =>
      rw [← Option.some.inj h]
      refine hmake _ fun c hc => ?_
      obtain ⟨i, hi, rfl⟩ := List.mem_take_iff_getElem.1 hc
      obtain ⟨hlt, -, hbefore⟩ := List.findIdx?_eq_some_iff_getElem.1 hfound
      have hallowed := hbefore i (by omega)
      simpa using hallowed
  next hnone =>
    rw [← Option.some.inj h]
    refine hmake _ fun c hc => ?_
    have hallowed := List.findIdx?_eq_none_iff.1 hnone c (List.mem_of_mem_take hc)
    simpa using hallowed

theorem length_makeKey (h : makeKey key = some k) : k.length = 8 := by
  obtain ⟨s, hs, -, rfl⟩ := makeKey_spec h
  have hle := hs.length
  rw [List.length_append, List.length_replicate]
  omega

theorem toUpper_makeKey (h : makeKey key = some k) : k.map Char.toUpper = k := by
  obtain ⟨s, -, hs, rfl⟩ := makeKey_spec h
  rw [List.map_append, ← upper, hs, List.map_replicate]
  rfl

theorem slash_not_mem_makeKey (h : makeKey key = some k) : '/' ∉ k := by
  obtain ⟨s, hs, hup, rfl⟩ := makeKey_spec h
  intro hmem
  rcases List.mem_append.1 hmem with hmem | hmem
  · rw [← hup] at hmem
    have hallowed := mem_allowed_of_mem_upper hs hmem
    rw [allowed_key_chars_eq] at hallowed
    exact absurd hallowed (by decide)
  · exact absurd (List.eq_of_mem_replicate hmem) (by decide)

/-- A key stays what it is. -/
theorem makeKey_makeKey (h : makeKey key = some k) : makeKey k = some k := by
  obtain ⟨s, hs, hup, rfl⟩ := makeKey_spec h
  have htrim := trim_key hs
  have hself : trim s = s := trim_of_bare (bare_of_forall fun c hc => isspace_of_allowed (hs.allowed c hc))
  have heq := makeKey_eq hs
  rw [hup] at htrim heq
  rw [makeKey, hself] at heq
  rw [makeKey, htrim, heq]

/-- A key that is compared with two cards. -/
theorem take_eq_of_named {c c' : List Char} (h : makeKey k = some (c.take 8)) {k' : List Char}
    (h' : makeKey k' = some (c'.take 8)) (hc : named key c = true) (hc' : named key c' = true) :
    c.take 8 = c'.take 8 := by
  rw [named, iequals, decide_eq_true_eq] at hc hc'
  rw [← toUpper_makeKey h, hc, ← hc', toUpper_makeKey h']

theorem named_of_take_eq {c c' : List Char} (h : c.take 8 = c'.take 8) : named key c = named key c' := by
  rw [named, named, h]

end Keys

/-! ## What is read from a card -/

section Fields

/-- **The field of a value** ends before the first slash behind it. -/
theorem beforeComment_append {head field : List Char} (hlength : head.length = 10) (hslash : '/' ∉ head) :
    beforeComment (head ++ field) = field.takeWhile (· ≠ '/') := by
  have hnone : head.findIdx? (fun c => c = '/') = none :=
    List.findIdx?_eq_none_iff.2 fun c hc => decide_eq_false fun heq => hslash (heq ▸ hc)
  have hdrop : (head ++ field).drop 10 = field := List.drop_left' hlength
  rw [beforeComment, List.findIdx?_append, hnone, Option.none_or, hdrop, List.takeWhile_eq_take_findIdx_not]
  cases hfind : field.findIdx? (fun c => c = '/') with
  | none =>
    have hall : ∀ c ∈ field, (!decide (c ≠ '/')) = false := fun c hc => by
      simpa using List.findIdx?_eq_none_iff.1 hfind c hc
    rw [List.findIdx_eq_length_of_false hall, List.take_length]
    rfl
  | some i =>
    have hi : field.findIdx (fun c => !decide (c ≠ '/')) = i := by
      have hindex := (List.findIdx?_eq_some_iff_findIdx_eq.1 hfind).2
      simpa using hindex
    rw [hi]
    show (if i + head.length < 10 then _ else _) = _
    rw [if_neg (by omega), hlength, Nat.add_sub_cancel]

theorem mem_of_mem_trim {c : Char} {s : List Char} (h : c ∈ trim s) : c ∈ s :=
  (List.rdropWhile_prefix isspace s).subset ((List.dropWhile_suffix isspace).subset h)

/-- A text without quotes is trimmed. -/
theorem trimStringValue_of_not_mem {s : List Char} (h : quote ∉ s) : trimStringValue s = trim s := by
  have hnot : quote ∉ trim s := fun hmem => h (mem_of_mem_trim hmem)
  have hnone : (trim s).findIdx? (fun c => c = quote) = none :=
    List.findIdx?_eq_none_iff.2 fun c hc => decide_eq_false fun heq => hnot (heq ▸ hc)
  rw [trimStringValue, hnone]
  exact single_of_not_mem hnot

/-- **A text that begins with a quote** is read up to its last one. -/
theorem trimStringValue_quote (s : List Char) :
    trimStringValue (quote :: s) = single quote (s.rdropWhile (· ≠ quote)).dropLast := by
  obtain ⟨r, z, hs, hr, hz⟩ : ∃ r z, s = r ++ z ∧ r = s.rdropWhile (· ≠ quote) ∧ ∀ c ∈ z, c ≠ quote := by
    refine ⟨_, s.rtakeWhile (· ≠ quote), List.rdropWhile_append_rtakeWhile.symm, rfl, fun c hc => ?_⟩
    simpa using List.mem_rtakeWhile_imp hc
  obtain ⟨r', hr'⟩ : ∃ r', quote :: r = r' ++ [quote] := by
    rcases List.eq_nil_or_concat r with hnil | ⟨r', a, ha⟩
    · exact ⟨[], by rw [hnil]; rfl⟩
    · have hne : s.rdropWhile (· ≠ quote) ≠ [] := by rw [← hr, ha]; simp
      have hlast := List.rdropWhile_last_not (fun c => decide (c ≠ quote)) s hne
      have haq : a = quote := by
        simp only [← hr, ha] at hlast
        simpa using hlast
      exact ⟨quote :: r', by rw [ha, haq, List.concat_eq_append, List.cons_append]⟩
  have htrim : trim (quote :: s) = quote :: (r ++ trim_right z) := by
    rw [hs, ← List.cons_append, trim, hr', trim_right_append_of_last isspace_quote, ← hr', List.cons_append]
    exact List.dropWhile_cons_of_neg (by rw [isspace_quote]; exact Bool.false_ne_true)
  have hlast : find_last_of quote (quote :: (r ++ trim_right z)) = r.length := by
    have hpos : ∀ c ∈ trim_right z, decide (c ≠ quote) = true := fun c hc =>
      decide_eq_true (hz c ((List.rdropWhile_prefix isspace z).subset hc))
    rw [find_last_of, ← List.cons_append, rdropWhile_append_of_pos _ hpos, hr',
      List.rdropWhile_concat_neg _ _ _ (by simp), ← hr', List.length_cons, Nat.add_sub_cancel]
  rw [trimStringValue, htrim]
  show single quote (((quote :: (r ++ trim_right z)).drop 1).take _) = _
  rw [hlast, ← hr, List.drop_one, List.tail_cons, List.take_append_of_le_length (by omega), List.dropLast_eq_take,
    Nat.sub_zero]

/-- A quoted text, with blanks behind it. -/
theorem trimStringValue_closed (y : List Char) (n : ℕ) :
    trimStringValue (quote :: y ++ [quote] ++ List.replicate n ' ') = single quote y := by
  have hpos : ∀ c ∈ List.replicate n ' ', decide (c ≠ quote) = true := fun c hc => by
    rw [List.eq_of_mem_replicate hc]
    rfl
  rw [List.cons_append, List.cons_append, trimStringValue_quote, rdropWhile_append_of_pos _ hpos,
    List.rdropWhile_concat_neg _ _ _ (by simp), List.dropLast_concat]

theorem trimStringValue_quoted (w : List Char) (n : ℕ) :
    trimStringValue (quote :: double quote w ++ [quote] ++ List.replicate n ' ') = w := by
  rw [trimStringValue_closed, single_double]

/-- A number, with blanks around it. -/
theorem trimStringValue_decimalInt (z : ℤ) (a b : ℕ) :
    trimStringValue (List.replicate a ' ' ++ decimalInt z ++ List.replicate b ' ') = decimalInt z := by
  have hquote : quote ∉ List.replicate a ' ' ++ decimalInt z ++ List.replicate b ' ' := fun hmem => by
    rcases List.mem_append.1 hmem with hmem | hmem
    · rcases List.mem_append.1 hmem with hmem | hmem
      · exact absurd (List.eq_of_mem_replicate hmem) (by decide)
      · exact (isspace_of_mem_decimalInt hmem).2 rfl
    · exact absurd (List.eq_of_mem_replicate hmem) (by decide)
  rw [trimStringValue_of_not_mem hquote, trim_blanks (bare_of_forall fun c hc => (isspace_of_mem_decimalInt hc).1)]

end Fields

/-! ## Cards that hold a value -/

/-- The values that a header is asked for: strings, and integers.  An empty string makes a card without a value. -/
def Asked : Value → Prop
  | .string s => s ≠ []
  | .bool _ => False
  | .integer _ _ => True

/-- The card was made of the value, and has all of its text. -/
structure Holds (v : Value) (card : List Char) : Prop where
  asked : Asked v
  made : ∃ key comment allowLong, makeCard key v comment allowLong = some card
  length : card.length = 80
  whole : ∃ text, makeValue v = some text ∧ 10 + text.length ≤ 80

section Holds

variable {s card : List Char}

/-- There are only blanks before the comment. -/
def BlankBefore (s : List Char) : Prop := ∀ c ∈ s.takeWhile (· ≠ '/'), c = ' '

theorem blankBefore_append (n : ℕ) (h : BlankBefore s) : BlankBefore (List.replicate n ' ' ++ s) := fun c hc => by
  rw [List.takeWhile_append_of_pos fun x hx => by rw [List.eq_of_mem_replicate hx]; rfl] at hc
  exact (List.mem_append.1 hc).elim List.eq_of_mem_replicate (h c)

theorem blankBefore_nil : BlankBefore [] := fun _ hc => absurd hc List.not_mem_nil

theorem blankBefore_take (n : ℕ) (h : BlankBefore s) : BlankBefore (s.take n) := fun c hc => by
  rw [← List.take_takeWhile] at hc
  exact h c (List.mem_of_mem_take hc)

theorem length_takeWhile_ne (h : '/' ∈ s) : (s.takeWhile (· ≠ '/')).length ≠ s.length := fun heq => by
  have hall := List.takeWhile_eq_self_iff.1 ((List.takeWhile_prefix _).eq_of_length heq) '/' h
  simp at hall

theorem takeWhile_of_blankBefore (h : BlankBefore s) :
    ∃ n, s.takeWhile (· ≠ '/') = List.replicate n ' ' := ⟨_, List.eq_replicate_of_mem h⟩

/-- A comment is behind its separator. -/
theorem blankBefore_comment {ret comment full : List Char} (h : withComment ret [' ', '/', ' '] comment = some full)
    (n : ℕ) : ∃ behind, full = ret ++ behind ∧ BlankBefore (behind ++ List.replicate n ' ') := by
  rw [withComment] at h
  split at h
  · refine ⟨[], by rw [List.append_nil, Option.some.inj h], ?_⟩
    have hblank := blankBefore_append n blankBefore_nil
    rwa [List.append_nil] at hblank
  · obtain ⟨text, -, rfl⟩ := Option.map_eq_some_iff.1 h
    refine ⟨[' ', '/', ' '] ++ text, List.append_assoc _ _ _, fun c hc => ?_⟩
    have hone : c ∈ [' '] := hc
    exact List.mem_singleton.1 hone

theorem padCard_eq {allowLong : Bool} {ret : List Char} (h : (padCard allowLong ret).length = 80) :
    padCard allowLong ret = resize 80 ret := by
  rw [padCard] at h ⊢
  split at h
  next hpad => rw [if_pos hpad]
  next hlong => rw [if_neg hlong, resize_of_ge h.ge, ← h, List.take_length]

/-- What fits stays in front when a card is padded. -/
theorem resize_append {head behind : List Char} (h : head.length ≤ 80)
    (hblank : BlankBefore (behind ++ List.replicate (80 - (head ++ behind).length) ' ')) :
    ∃ tail, resize 80 (head ++ behind) = head ++ tail ∧ BlankBefore tail := by
  refine ⟨_, ?_, blankBefore_take (80 - head.length) hblank⟩
  rw [resize, List.append_assoc, List.take_append, List.take_of_length_le h]

/-- **A card that holds a value**: the key, the text of the value, blanks and the comment. -/
theorem Holds.shape {v : Value} (h : Holds v card) :
    ∃ key k text tail, makeKey key = some k ∧ makeValue v = some text ∧
      card = k ++ ['=', ' '] ++ (text ++ tail) ∧ BlankBefore tail := by
  obtain ⟨hasked, ⟨key, comment, allowLong, hmade⟩, hlength, text, htext, hwhole⟩ := h
  have hhead : ∀ {k}, makeKey key = some k → (k ++ ['=', ' '] ++ text).length = 10 + text.length := fun hk => by
    rw [List.length_append, List.length_append, length_makeKey hk]
    rfl
  have hnumber : ((makeKey key).bind fun k => (makeValue v).bind fun text =>
      (withComment (k ++ ['=', ' '] ++ text) [' ', '/', ' '] comment).map (resize 80)) = some card →
      ∃ key k text tail, makeKey key = some k ∧ makeValue v = some text ∧
        card = k ++ ['=', ' '] ++ (text ++ tail) ∧ BlankBefore tail := fun hcard => by
    obtain ⟨k, hk, hcard⟩ := Option.bind_eq_some_iff.1 hcard
    rw [htext, Option.bind_some] at hcard
    obtain ⟨full, hfull, rfl⟩ := Option.map_eq_some_iff.1 hcard
    obtain ⟨behind, rfl, hblank⟩ := blankBefore_comment hfull (80 - full.length)
    obtain ⟨tail, htail, hblank⟩ := resize_append ((hhead hk).trans_le hwhole) hblank
    exact ⟨key, k, text, tail, hk, htext, htail.trans (List.append_assoc _ _ _), hblank⟩
  cases v with
  | string s =>
    obtain ⟨c, s, rfl⟩ := List.exists_cons_of_ne_nil hasked
    have hcard : ((makeKey key).bind fun k => (makeValue (.string (c :: s))).bind fun text =>
      (withComment (stringField allowLong (k ++ ['=', ' '] ++ text)) [' ', '/', ' '] comment).map
        (padCard allowLong)) = some card := hmade
    obtain ⟨k, hk, hcard⟩ := Option.bind_eq_some_iff.1 hcard
    rw [htext, Option.bind_some, stringField_eq _ ((hhead hk).trans_le hwhole)] at hcard
    obtain ⟨full, hfull, rfl⟩ := Option.map_eq_some_iff.1 hcard
    obtain ⟨behind, rfl, hblank⟩ := blankBefore_comment hfull (80 - full.length)
    rw [padCard_eq hlength, List.append_assoc (_ ++ text)]
    rw [List.append_assoc (_ ++ text)] at hblank
    have hbehind := blankBefore_append (30 - (k ++ ['=', ' '] ++ text).length) hblank
    rw [← List.append_assoc] at hbehind
    obtain ⟨tail, htail, hblank⟩ := resize_append ((hhead hk).trans_le hwhole) hbehind
    exact ⟨key, k, text, tail, hk, htext, htail.trans (List.append_assoc _ _ _), hblank⟩
  | bool b => exact absurd hasked id
  | integer t z => exact hnumber hmade

/-- The field of a card that holds a value, if there is a slash in its text and if there is none. -/
theorem Holds.field {v : Value} (h : Holds v card) : ∃ text, makeValue v = some text ∧
    ('/' ∈ text → beforeComment card = text.takeWhile (· ≠ '/')) ∧
    ('/' ∉ text → ∃ n, beforeComment card = text ++ List.replicate n ' ') := by
  obtain ⟨key, k, text, tail, hk, htext, rfl, hblank⟩ := h.shape
  have hlength : (k ++ ['=', ' ']).length = 10 := by
    rw [List.length_append, length_makeKey hk]
    rfl
  have hslash : '/' ∉ k ++ ['=', ' '] := fun hmem =>
    (List.mem_append.1 hmem).elim (slash_not_mem_makeKey hk) (by decide)
  refine ⟨text, htext, fun hin => ?_, fun hout => ?_⟩
  · rw [beforeComment_append hlength hslash, List.takeWhile_append, if_neg (length_takeWhile_ne hin)]
  · obtain ⟨n, hn⟩ := takeWhile_of_blankBefore hblank
    have hpos : ∀ c ∈ text, decide (c ≠ '/') = true := fun c hc => decide_eq_true fun heq => hout (heq ▸ hc)
    exact ⟨n, by rw [beforeComment_append hlength hslash, List.takeWhile_append_of_pos hpos, hn]⟩

/-- **The text of a string is read** without what is behind a slash in it. -/
theorem Holds.read_string (h : Holds (.string s) card) : trimStringValue (beforeComment card) =
    if '/' ∈ trim_right s then ((trim_right s).takeWhile (· ≠ '/')).rdropWhile (· ≠ quote) else trim_right s := by
  obtain ⟨text, htext, hcut, hwhole⟩ := h.field
  obtain rfl : quote :: double quote (trim_right s) ++ [quote] = text := by
    rw [makeValue, makeString] at htext
    split at htext
    · exact Option.some.inj htext
    · exact absurd htext (by simp)
  have hmem : '/' ∈ quote :: double quote (trim_right s) ++ [quote] ↔ '/' ∈ trim_right s := by
    have hne : '/' ≠ quote := by decide
    rw [List.mem_append, List.mem_cons, or_iff_right hne, mem_double hne, List.mem_singleton, or_iff_left hne]
  by_cases hslash : '/' ∈ trim_right s
  · rw [if_pos hslash, hcut (hmem.2 hslash), List.cons_append, List.takeWhile_cons_of_pos (by decide),
      List.takeWhile_append, if_neg (length_takeWhile_ne ((mem_double (by decide)).2 hslash)),
      takeWhile_double (by decide), trimStringValue_quote, single_dropLast_rdropWhile]
  · obtain ⟨n, hn⟩ := hwhole fun h => hslash (hmem.1 h)
    rw [if_neg hslash, hn, trimStringValue_quoted]

/-- **The text of an integer is read.** -/
theorem Holds.read_integer {t : CardInt} {z : t.type.Value} (h : Holds (.integer t z) card) :
    trimStringValue (beforeComment card) = decimalInt z := by
  obtain ⟨text, htext, -, hwhole⟩ := h.field
  obtain ⟨hlow, hhigh, -⟩ := integer_bounds t z
  have halign : text = List.replicate (20 - (decimalInt z).length) ' ' ++ decimalInt z :=
    (Option.some.inj htext).symm.trans (alignRight_eq (length_decimalInt hlow hhigh))
  have hslash : '/' ∉ text := fun hmem => by
    rw [halign, List.mem_append] at hmem
    rcases hmem with hmem | hmem
    · exact absurd (List.eq_of_mem_replicate hmem) (by decide)
    · rcases mem_decimalInt hmem with heq | hdigit
      · exact absurd heq (by decide)
      · exact absurd hdigit (by decide)
  obtain ⟨n, hn⟩ := hwhole hslash
  rw [hn, halign, trimStringValue_decimalInt]

end Holds

/-! ## Looking up -/

section Lookup

variable {key c ret : List Char} {before hdr : List (List Char)}

/-- A text that does not end with `&` is not continued. -/
theorem continued_of_plain (hne : ret ≠ []) (hlast : ret.getLast? ≠ some '&') (hdr : List (List Char)) :
    continued hdr ret = some (ret, hdr) := by
  cases hdr with
  | nil =>
    have hself : ret.rdropWhile (· = '&') = ret := List.rdropWhile_eq_self_iff.2 fun hl heq =>
      hlast ((List.getLast?_eq_some_getLast hl).trans (congrArg some (of_decide_eq_true heq)))
    rw [continued, hself, if_neg hne]
  | cons c hdr => rw [continued, if_neg hne, if_neg hlast]

/-- What is read at last does not end with `&`. -/
theorem continued_last : ∀ {hdr rest : List (List Char)} {ret ret' : List Char}, continued hdr ret = some (ret', rest) →
    ret' ≠ [] ∧ ret'.getLast? ≠ some '&'
  | [], rest, ret, ret', h => by
    rw [continued] at h
    split at h
    · exact absurd h (by simp)
    next hne =>
      obtain ⟨rfl, -⟩ := Prod.mk.inj (Option.some.inj h)
      refine ⟨hne, fun heq => ?_⟩
      have hlast := List.rdropWhile_last_not (fun c => decide (c = '&')) ret hne
      rw [List.getLast?_eq_some_getLast hne, Option.some.injEq] at heq
      exact hlast (decide_eq_true heq)
  | c :: hdr, rest, ret, ret', h => by
    rw [continued] at h
    split at h
    · exact absurd h (by simp)
    next hne =>
      split at h
      · exact continued_last h
      next hlast =>
        obtain ⟨rfl, -⟩ := Prod.mk.inj (Option.some.inj h)
        exact ⟨hne, hlast⟩

theorem stringFrom_cons_of_named (h : named key c = true) : stringFrom key (c :: hdr) ret =
    (continued hdr (trimStringValue (beforeComment c))).bind fun found => stringFrom key found.2 found.1 := by
  rw [stringFrom, if_pos h]
  split
  next hnone => rw [hnone, Option.bind_none]
  next hsome => rw [hsome, Option.bind_some]

theorem stringFrom_append (h : ∀ c ∈ before, named key c = false) : stringFrom key (before ++ hdr) ret =
    stringFrom key hdr ret := by
  induction before with
  | nil => rfl
  | cons c before ih =>
    rw [List.cons_append, stringFrom, if_neg (by rw [h c List.mem_cons_self]; exact Bool.false_ne_true),
      ih fun x hx => h x (List.mem_cons_of_mem c hx)]

theorem stringFrom_of_forall (h : ∀ c ∈ hdr, named key c = false) : stringFrom key hdr ret = some ret := by
  have happend : stringFrom key (hdr ++ []) ret = stringFrom key [] ret := stringFrom_append h
  rwa [List.append_nil, stringFrom] at happend

/-- **A string is looked up** in the only card with the key, and in those that continue it. -/
theorem getStringValue_eq (hbefore : ∀ x ∈ before, named key x = false) (hc : named key c = true)
    (hbehind : ∀ x ∈ hdr, named key x = false) : getStringValue (before ++ c :: hdr) key =
    (continued hdr (trimStringValue (beforeComment c))).map Prod.fst := by
  rw [getStringValue, stringFrom_append hbefore, stringFrom_cons_of_named hc]
  cases hfound : continued hdr (trimStringValue (beforeComment c)) with
  | none => rfl
  | some found => exact stringFrom_of_forall fun x hx => hbehind x ((continued_suffix hfound).subset hx)

theorem getStringValue_singleton (hc : named key c = true) :
    getStringValue [c] key = (continued [] (trimStringValue (beforeComment c))).map Prod.fst := by
  have hnone : ∀ x ∈ ([] : List (List Char)), named key x = false := fun x hx => absurd hx List.not_mem_nil
  exact getStringValue_eq hnone hc hnone

variable (L : LexicalCast) (t : CardInt)

theorem getIntegerValue_append (h : ∀ c ∈ before, named key c = false) : getIntegerValue L t key (before ++ hdr) =
    getIntegerValue L t key hdr := by
  induction before with
  | nil => rfl
  | cons c before ih =>
    rw [List.cons_append, getIntegerValue, if_neg (by rw [h c List.mem_cons_self]; exact Bool.false_ne_true),
      ih fun x hx => h x (List.mem_cons_of_mem c hx)]

theorem getIntegerValue_of_forall (h : ∀ c ∈ hdr, named key c = false) : getIntegerValue L t key hdr = 0 := by
  have happend : getIntegerValue L t key (hdr ++ []) = getIntegerValue L t key [] := getIntegerValue_append L t h
  rwa [List.append_nil, getIntegerValue] at happend

/-- **An integer is looked up** in the only card with the key. -/
theorem getIntegerValue_eq (hbefore : ∀ x ∈ before, named key x = false) (hc : named key c = true)
    (hbehind : ∀ x ∈ hdr, named key x = false) : getIntegerValue L t key (before ++ c :: hdr) =
    (L.integer t.type (trimStringValue (beforeComment c))).getD 0 := by
  rw [getIntegerValue_append L t hbefore, getIntegerValue, if_pos hc, getIntegerValue_of_forall L t hbehind]

end Lookup

/-! ## What is read back -/

/-- The values that `getValue` gives back: strings that are not blank, have no slash and do not end with `&`, and the
integers that are not cast as characters. -/
def Readable : Value → Prop
  | .string s => trim_right s ≠ [] ∧ '/' ∉ trim_right s ∧ (trim_right s).getLast? ≠ some '&'
  | .bool _ => True
  | .integer t _ => t.type.bits ≠ 8

/-- `getValue` gives the value, a string but for the blanks at its end. -/
def Found (L : LexicalCast) (hdr : List (List Char)) (key : List Char) : Value → Prop
  | .string s => getStringValue hdr key = some (trim_right s)
  | .bool _ => True
  | .integer t z => getIntegerValue L t key hdr = z

section Found

variable {L : LexicalCast} {key c : List Char} {before hdr : List (List Char)}

theorem continued_nil (hdr : List (List Char)) : continued hdr [] = none := by
  cases hdr with
  | nil => rfl
  | cons c hdr => exact if_pos rfl

/-- **What is read of a string** is the string exactly if it is readable, whatever cards are behind. -/
theorem continued_iff {s : List Char} (h : Holds (.string s) c) (hdr : List (List Char)) :
    (continued hdr (trimStringValue (beforeComment c))).map Prod.fst = some (trim_right s) ↔ Readable (.string s) := by
  rw [h.read_string]
  refine ⟨fun heq => ?_, fun ⟨hne, hslash, hlast⟩ => ?_⟩
  · obtain ⟨⟨ret, rest⟩, hfound, hret⟩ := Option.map_eq_some_iff.1 heq
    obtain rfl : ret = trim_right s := hret
    obtain ⟨hne, hlast⟩ := continued_last hfound
    refine ⟨hne, fun hslash => ?_, hlast⟩
    rw [if_pos hslash] at hfound
    by_cases hnil : ((trim_right s).takeWhile (· ≠ '/')).rdropWhile (· ≠ quote) = []
    · rw [hnil, continued_nil] at hfound
      exact absurd hfound (by simp)
    · -- what is before a slash ends with a quote, and is not continued
      have hquote := List.rdropWhile_last_not (fun c => decide (c ≠ quote)) _ hnil
      have hplain := continued_of_plain hnil (fun hamp => by
        rw [List.getLast?_eq_some_getLast hnil, Option.some.injEq] at hamp
        rw [hamp] at hquote
        exact absurd hquote (by decide)) hdr
      have hself := (Prod.mk.inj (Option.some.inj (hplain.symm.trans hfound))).1
      rw [← hself] at hslash
      have hmem := List.mem_takeWhile_imp ((List.rdropWhile_prefix _ _).subset hslash)
      simp at hmem
  · rw [if_neg hslash, continued_of_plain hne hlast]
    rfl

/-- A type of eight bits reads no number. -/
theorem integer_char_ne {t : CardInt} (h : t.type.bits = 8) (z : ℤ) : (L.integer t.type (decimalInt z)).getD 0 ≠ z := by
  rw [L.integer_char _ _ h]
  by_cases hdigit : 0 ≤ z ∧ z < 10
  · obtain ⟨hlow, hhigh⟩ := hdigit
    cases t <;> first | exact absurd h (by decide) | (interval_cases z <;> decide)
  · have hlength : 1 < (decimalInt z).length := by
      rw [decimalInt]
      split
      · exact Nat.succ_lt_succ (List.length_pos_of_ne_nil decimal_ne_nil)
      · have hiff := Nat.length_toDigits_le_iff (n := z.natAbs) (b := 10) (k := 1) (by decide) (by decide)
        rw [decimal]
        omega
    have hzero : (0 : ℤ) ≠ z := by omega
    split
    next c hc =>
      rw [hc] at hlength
      exact absurd hlength (Nat.lt_irrefl 1)
    next => exact hzero

theorem integer_decimal {t : CardInt} (h : t.type.bits ≠ 8) (z : t.type.Value) :
    L.integer t.type (decimalInt z) = some (z : ℤ) :=
  L.integer_decimal t.type z (by cases t <;> first | exact absurd rfl h | decide) z.2

/-- **A value is found exactly if it is readable**, in the only card with the key. -/
theorem found_iff {v : Value} (h : Holds v c) (hbefore : ∀ x ∈ before, named key x = false) (hc : named key c = true)
    (hbehind : ∀ x ∈ hdr, named key x = false) : Found L (before ++ c :: hdr) key v ↔ Readable v := by
  cases v with
  | string s =>
    rw [Found, getStringValue_eq hbefore hc hbehind]
    exact continued_iff h hdr
  | bool b => exact Iff.rfl
  | integer t z =>
    rw [Found, getIntegerValue_eq L t hbefore hc hbehind, h.read_integer, Readable]
    refine ⟨fun heq hbits => integer_char_ne hbits z heq, fun hbits => ?_⟩
    rw [integer_decimal hbits, Option.getD_some]

end Found

/-! ## Headers -/

/-- A card, and the value that it holds if it holds one. -/
structure Entry where
  card : List Char
  value : Option Value

def Entry.key (e : Entry) : List Char := e.card.take 8

def cards (es : List Entry) : List (List Char) := es.map Entry.card

/-- A card of 80 characters, with a key of `makeKey`. -/
structure Entry.Made (e : Entry) : Prop where
  length : e.card.length = 80
  key : ∃ key, makeKey key = some e.key
  holds : ∀ v, e.value = some v → Holds v e.card

/-- Cards with distinct keys. -/
structure Header (es : List Entry) : Prop where
  made : ∀ e ∈ es, e.Made
  distinct : (es.map Entry.key).Nodup

/-- The values of the cards are found in the header, whatever the case of the keys. -/
def Answers (L : LexicalCast) (hdr : List (List Char)) (es : List Entry) : Prop :=
  ∀ e ∈ es, ∀ v, e.value = some v → ∀ key, named key e.card = true → Found L hdr key v

section Header

variable {L : LexicalCast} {es before behind : List Entry} {e x : Entry} {key : List Char}

theorem named_self (h : e.Made) : named e.key e.card = true := by
  obtain ⟨key, hkey⟩ := h.key
  have hlength := length_makeKey hkey
  rw [named, resize_of_ge hlength.ge, List.take_of_length_le hlength.le]
  exact decide_eq_true rfl

theorem named_of_ne (hx : x.Made) (he : e.Made) (hkey : named key e.card = true) (hne : x.key ≠ e.key) :
    named key x.card = false := by
  obtain ⟨k, hk⟩ := hx.key
  obtain ⟨k', hk'⟩ := he.key
  by_contra hnamed
  have hown := makeKey_makeKey hk
  exact hne (take_eq_of_named hown hk' (Bool.eq_true_of_not_eq_false hnamed) hkey)

/-- The other cards of a header do not have the key of a card. -/
theorem Header.others (h : Header (before ++ e :: behind)) (hkey : named key e.card = true) :
    (∀ c ∈ cards before, named key c = false) ∧ ∀ c ∈ cards behind, named key c = false := by
  have he := h.made e (List.mem_append_right _ List.mem_cons_self)
  have hdistinct := h.distinct
  rw [List.map_append, List.map_cons, List.nodup_append, List.nodup_cons] at hdistinct
  obtain ⟨-, ⟨hbehind, -⟩, hbefore⟩ := hdistinct
  refine ⟨fun c hc => ?_, fun c hc => ?_⟩
  · obtain ⟨x, hx, rfl⟩ := List.mem_map.1 hc
    exact named_of_ne (h.made x (List.mem_append_left _ hx)) he hkey
      (hbefore x.key (List.mem_map_of_mem hx) e.key List.mem_cons_self)
  · obtain ⟨x, hx, rfl⟩ := List.mem_map.1 hc
    exact named_of_ne (h.made x (List.mem_append_right _ (List.mem_cons_of_mem e hx))) he hkey fun heq =>
      hbehind (List.mem_map.2 ⟨x, hx, heq⟩)

/-- **A value is found in a header exactly if it is readable.** -/
theorem Header.found_iff (h : Header es) (he : e ∈ es) {v : Value} (hv : e.value = some v)
    (hkey : named key e.card = true) : Found L (cards es) key v ↔ Readable v := by
  obtain ⟨before, behind, rfl⟩ := List.append_of_mem he
  obtain ⟨hbefore, hbehind⟩ := h.others hkey
  rw [cards, List.map_append, List.map_cons]
  exact Fits.found_iff ((h.made e he).holds v hv) hbefore hkey hbehind

theorem Header.answers_iff (h : Header es) :
    Answers L (cards es) es ↔ ∀ e ∈ es, ∀ v, e.value = some v → Readable v := by
  refine ⟨fun hall e he v hv => ?_, fun hall e he v hv key hkey => (h.found_iff he hv hkey).2 (hall e he v hv)⟩
  have hself := named_self (h.made e he)
  exact (h.found_iff he hv hself).1 (hall e he v hv e.key hself)

end Header

/-! ## Replacing cards -/

/-- What `emplaceCard` makes of the cards. -/
def emplaced (es : List Entry) (e : Entry) : List Entry :=
  if isMulti e.key = true then es ++ [e]
  else match es.findIdx? fun x => x.key = e.key with
    | some i => es.set i e
    | none => es ++ [e]

/-- The card that is kept before a new one with the same key. -/
def kept (es : List Entry) (e : Entry) : Option Entry :=
  if isMulti e.key = true then es.find? fun x => x.key = e.key else none

/-- The text of a value. -/
def textOf : Value → List Char
  | .string s => trim_right s
  | .bool b => [if b then 'T' else 'F']
  | .integer _ z => decimalInt z

/-- The values that are read behind a card with the same key and the value `u`, if there is one: an integer must not be
read from that card already. -/
def ReadableBehind (L : LexicalCast) (u : Option Value) : Value → Prop
  | .integer t z => match u.bind fun u => L.integer t.type (textOf u) with
    | some y => y = z
    | none => t.type.bits ≠ 8
  | v => Readable v

section Emplace

variable {L : LexicalCast} {es before behind : List Entry} {e x : Entry} {key : List Char} {v : Value}

theorem findIdx_cards (es : List Entry) (k : List Char) :
    (cards es).findIdx? (fun c => c.take 8 = k) = es.findIdx? fun x => x.key = k := List.findIdx?_map

/-- **What `emplaceCard` does**: it puts the card in the place of the one with its key, or at the end. -/
theorem emplaceKey_eq (h : makeKey key = some e.key) :
    ∃ added, emplaceKey (cards es) key e.card = some (cards (emplaced es e), added) := by
  rw [emplaceKey, updateKey, h, Option.map_some, Option.map_some, findIdx_cards, emplaced]
  by_cases hmulti : isMulti e.key = true
  · refine ⟨true, ?_⟩
    rw [if_pos hmulti, if_pos hmulti, cards, cards, List.map_append]
    rfl
  · rw [if_neg hmulti, if_neg hmulti]
    cases hfind : es.findIdx? (fun x => x.key = e.key) with
    | none =>
      refine ⟨true, ?_⟩
      show _ = some ((es ++ [e]).map Entry.card, true)
      rw [List.map_append]
      rfl
    | some i =>
      have hlt : i < (cards es).length := by
        rw [cards, List.length_map]
        exact (List.findIdx?_eq_some_iff_getElem.1 hfind).1
      refine ⟨false, ?_⟩
      show _ = some ((es.set i e).map Entry.card, false)
      rw [updateAt, if_pos hlt, List.map_set]
      rfl

theorem emplaceCard_eq (h : e.Made) : emplaceCard (cards es) e.card = emplaceKey (cards es) e.key e.card := by
  obtain ⟨key, hkey⟩ := h.key
  have hown : makeKey (e.card.take 8) = some e.key := makeKey_makeKey hkey
  rw [emplaceCard, updateCard, hown, Option.bind_some, emplaceKey]

theorem emplaceKey_congr {k : List Char} (h : makeKey key = some e.key) (hk : makeKey k = some e.key) :
    emplaceKey (cards es) key e.card = emplaceKey (cards es) k e.card := by
  rw [emplaceKey, emplaceKey, updateKey, updateKey, h, hk]

/-- **Without a card that is kept the keys stay distinct.** -/
theorem header_emplaced (h : Header es) (he : e.Made) (hkept : kept es e = none) : Header (emplaced es e) := by
  have happend : (∀ x ∈ es, x.key ≠ e.key) → Header (es ++ [e]) := fun hnew => by
    refine ⟨fun x hx => ?_, ?_⟩
    · rcases List.mem_append.1 hx with hx | hx
      · exact h.made x hx
      · rw [List.mem_singleton.1 hx]
        exact he
    · rw [List.map_append, List.map_cons, List.map_nil]
      refine List.nodup_append.2 ⟨h.distinct, List.nodup_singleton _, fun k hk k' hk' => ?_⟩
      obtain ⟨x, hx, rfl⟩ := List.mem_map.1 hk
      rw [List.mem_singleton.1 hk']
      exact hnew x hx
  rw [emplaced]
  by_cases hmulti : isMulti e.key = true
  · rw [kept, if_pos hmulti, List.find?_eq_none] at hkept
    rw [if_pos hmulti]
    exact happend fun x hx heq => hkept x hx (decide_eq_true heq)
  · rw [if_neg hmulti]
    cases hfind : es.findIdx? (fun x => x.key = e.key) with
    | none =>
      have hnone := List.findIdx?_eq_none_iff.1 hfind
      exact happend fun x hx => of_decide_eq_false (hnone x hx)
    | some i =>
      obtain ⟨hlt, hi, -⟩ := List.findIdx?_eq_some_iff_getElem.1 hfind
      refine ⟨fun x hx => ?_, ?_⟩
      · rcases List.mem_or_eq_of_mem_set hx with hx | rfl
        · exact h.made x hx
        · exact he
      · have hsame : (es.set i e).map Entry.key = es.map Entry.key := by
          rw [List.map_set, ← of_decide_eq_true hi, ← List.getElem_map Entry.key (h := by rwa [List.length_map])]
          exact List.set_getElem_self _
        show ((es.set i e).map Entry.key).Nodup
        rw [hsame]
        exact h.distinct

/-- The cards with other keys are still there, and the new one. -/
theorem mem_emplaced (h : x ∈ e :: es.filter fun x => x.key ≠ e.key) : x ∈ emplaced es e := by
  have hend : x ∈ es ++ [e] := by
    rcases List.mem_cons.1 h with rfl | h
    · exact List.mem_append_right _ List.mem_cons_self
    · exact List.mem_append_left _ (List.mem_of_mem_filter h)
  rw [emplaced]
  split
  · exact hend
  · split
    next i hfind =>
      obtain ⟨hlt, hi, -⟩ := List.findIdx?_eq_some_iff_getElem.1 hfind
      rcases List.mem_cons.1 h with rfl | h
      · exact List.mem_set hlt x
      · obtain ⟨hx, hne⟩ := List.mem_filter.1 h
        obtain ⟨j, hj, rfl⟩ := List.getElem_of_mem hx
        have hij : i ≠ j := fun heq => by
          subst heq
          simp [of_decide_eq_true hi] at hne
        exact List.mem_iff_getElem.2 ⟨j, by rwa [List.length_set], List.getElem_set_ne hij _⟩
    next => exact hend

/-- The cards with other keys do not care about a new one. -/
theorem found_append_iff (h : Header es) (he : e.Made) (hx : x ∈ es) (hne : x.key ≠ e.key) {u : Value}
    (hu : x.value = some u) (hkey : named key x.card = true) : Found L (cards (es ++ [e])) key u ↔ Readable u := by
  obtain ⟨before, behind, rfl⟩ := List.append_of_mem hx
  obtain ⟨hbefore, hbehind⟩ := h.others hkey
  have hcards : cards (before ++ x :: behind ++ [e]) = cards before ++ x.card :: (cards behind ++ [e.card]) := by
    rw [cards, cards, cards, List.map_append, List.map_append, List.map_cons, List.append_assoc]
    rfl
  rw [hcards]
  refine Fits.found_iff ((h.made x hx).holds u hu) hbefore hkey fun c hc => ?_
  rcases List.mem_append.1 hc with hc | hc
  · exact hbehind c hc
  · rw [List.mem_singleton.1 hc]
    exact named_of_ne he (h.made x hx) hkey hne.symm

/-- The text of a readable value is not continued. -/
theorem Holds.read_readable {u : Value} {c : List Char} (h : Holds u c) (hu : Readable u) :
    trimStringValue (beforeComment c) = textOf u ∧ textOf u ≠ [] ∧ (textOf u).getLast? ≠ some '&' := by
  cases u with
  | string s =>
    obtain ⟨hne, hslash, hlast⟩ := hu
    exact ⟨by rw [h.read_string, if_neg hslash, textOf], hne, hlast⟩
  | bool b => exact absurd h.asked id
  | integer t z =>
    refine ⟨h.read_integer, fun hnil => ?_, fun hlast => ?_⟩
    · rw [textOf, decimalInt] at hnil
      split at hnil
      · exact absurd hnil (List.cons_ne_nil _ _)
      · exact absurd hnil decimal_ne_nil
    · rcases mem_decimalInt (List.mem_of_getLast? hlast) with heq | hdigit
      · exact absurd heq (by decide)
      · exact absurd hdigit (by decide)

/-- **A new card behind one that is kept**: a string is the last one of its key, but an integer is looked for in the
kept one first. -/
theorem found_behind_iff {old : Entry} {u : Value} (h : Header es) (he : e.Made) (hold : old ∈ es)
    (heq : old.key = e.key) (hu : old.value = some u) (hreadable : Readable u) (hv : e.value = some v)
    (hkey : named key e.card = true) : Found L (cards (es ++ [e])) key v ↔ ReadableBehind L (some u) v := by
  obtain ⟨before, behind, rfl⟩ := List.append_of_mem hold
  have hnamed : named key old.card = true := (named_of_take_eq heq).trans hkey
  obtain ⟨hbefore, hbehind⟩ := h.others hnamed
  obtain ⟨hread, hne, hlast⟩ := ((h.made old hold).holds u hu).read_readable hreadable
  have hholds := he.holds v hv
  have hcards : cards (before ++ old :: behind ++ [e]) = cards before ++ old.card :: (cards behind ++ [e.card]) := by
    rw [cards, cards, cards, List.map_append, List.map_append, List.map_cons, List.append_assoc]
    rfl
  rw [hcards]
  cases v with
  | string s =>
    show getStringValue _ key = _ ↔ Readable (.string s)
    rw [getStringValue, stringFrom_append hbefore, stringFrom_cons_of_named hnamed, hread,
      continued_of_plain hne hlast, Option.bind_some, stringFrom_append hbehind, stringFrom_cons_of_named hkey]
    have hend : ((continued [] (trimStringValue (beforeComment e.card))).bind fun found =>
        stringFrom key found.2 found.1) = (continued [] (trimStringValue (beforeComment e.card))).map Prod.fst := by
      cases hfound : continued [] (trimStringValue (beforeComment e.card)) with
      | none => rfl
      | some found =>
        have hnil := List.suffix_nil.1 (continued_suffix hfound)
        rw [Option.bind_some, hnil, stringFrom]
        rfl
    rw [hend]
    exact continued_iff hholds []
  | bool b => exact absurd hholds.asked id
  | integer t z =>
    show getIntegerValue L t key _ = _ ↔ ReadableBehind L (some u) (.integer t z)
    rw [getIntegerValue_append L t hbefore, getIntegerValue, if_pos hnamed, hread, ReadableBehind, Option.bind_some]
    cases hcast : L.integer t.type (textOf u) with
    | some y => exact Iff.rfl
    | none =>
      have hfound : Found L (cards behind ++ e.card :: []) key (.integer t z) ↔ Readable (.integer t z) :=
        Fits.found_iff hholds hbehind hkey fun c hc => absurd hc List.not_mem_nil
      exact hfound

theorem readableBehind_none : ReadableBehind L none v ↔ Readable v := by cases v <;> exact Iff.rfl

/-- The values that are found after `emplaceCard`. -/
theorem answers_emplaced_iff (h : Header es) (he : e.Made) (hv : e.value = some v)
    (hkept : ∀ old, kept es e = some old → old.value ≠ none)
    (hreadable : ∀ x ∈ es, ∀ u, x.value = some u → Readable u) :
    Answers L (cards (emplaced es e)) (e :: es.filter fun x => x.key ≠ e.key) ↔
      ReadableBehind L ((kept es e).bind Entry.value) v := by
  have hnew : (∀ key, named key e.card = true →
        (Found L (cards (emplaced es e)) key v ↔ ReadableBehind L ((kept es e).bind Entry.value) v)) →
      (∀ x ∈ es, x.key ≠ e.key → ∀ u, x.value = some u → ∀ key, named key x.card = true →
        Found L (cards (emplaced es e)) key u) →
      (Answers L (cards (emplaced es e)) (e :: es.filter fun x => x.key ≠ e.key) ↔
        ReadableBehind L ((kept es e).bind Entry.value) v) := fun hown hothers => by
    refine ⟨fun hall => ?_, fun hbehind x hx u hu key hkey => ?_⟩
    · exact (hown e.key (named_self he)).1 (hall e List.mem_cons_self v hv e.key (named_self he))
    · rcases List.mem_cons.1 hx with rfl | hx
      · obtain rfl : v = u := Option.some.inj (hv.symm.trans hu)
        exact (hown key hkey).2 hbehind
      · obtain ⟨hmem, hne⟩ := List.mem_filter.1 hx
        exact hothers x hmem (of_decide_eq_true hne) u hu key hkey
  cases hold : kept es e with
  | none =>
    have hheader := header_emplaced h he hold
    rw [hold] at hnew
    refine hnew (fun key hkey => ?_) fun x hx hne u hu key hkey => ?_
    · exact (hheader.found_iff (mem_emplaced List.mem_cons_self) hv hkey).trans readableBehind_none.symm
    · have hmem := mem_emplaced (List.mem_cons_of_mem e (List.mem_filter.2 ⟨hx, decide_eq_true hne⟩))
      exact (hheader.found_iff hmem hu hkey).2 (hreadable x hx u hu)
  | some old =>
    rw [hold] at hnew
    have hmulti : isMulti e.key = true := by
      by_contra hnot
      rw [kept, if_neg hnot] at hold
      exact absurd hold (by simp)
    have hfind : es.find? (fun x => x.key = e.key) = some old := by rwa [kept, if_pos hmulti] at hold
    obtain ⟨u, hu⟩ := Option.ne_none_iff_exists'.1 (hkept old hold)
    have hmem := List.mem_of_find?_eq_some hfind
    have hpred := List.find?_some hfind
    have heq : old.key = e.key := of_decide_eq_true hpred
    have hend : emplaced es e = es ++ [e] := if_pos hmulti
    rw [hend] at hnew ⊢
    refine hnew (fun key hkey => ?_) fun x hx hne u hu key hkey => ?_
    · rw [Option.bind_some, hu]
      exact found_behind_iff h he hmem heq hu (hreadable old hmem u hu) hv hkey
    · exact (found_append_iff h he hx hne hu hkey).2 (hreadable x hx u hu)

end Emplace

/-! ## Result -/

/-- `getValue` finds the values of a header, and after `emplaceCard`, with either kind of it, the new value and those of
the other keys. -/
def Keeps (L : LexicalCast) (es : List Entry) (e : Entry) : Prop :=
  Answers L (cards es) es ∧ ∃ hdr added, emplaceCard (cards es) e.card = some (hdr, added) ∧
    (∀ key, makeKey key = some e.key → emplaceKey (cards es) key e.card = some (hdr, added)) ∧
    Answers L hdr (e :: es.filter fun x => x.key ≠ e.key)

/-- **A header gives back what was stored in it if and only if every value is readable**: no string is blank, has a slash
or ends with `&`, and no integer is of eight bits; behind a card with the same key that is kept, an integer is the one
that is read there if there is one. -/
theorem answers_emplace_iff (L : LexicalCast) {es : List Entry} {e : Entry} {v : Value} (h : Header es) (he : e.Made)
    (hv : e.value = some v) (hkept : ∀ old, kept es e = some old → old.value ≠ none) :
    Keeps L es e ↔ (∀ x ∈ es, ∀ u, x.value = some u → Readable u) ∧
      ReadableBehind L ((kept es e).bind Entry.value) v := by
  obtain ⟨key, hkey⟩ := he.key
  obtain ⟨added, hadded⟩ : ∃ added, emplaceKey (cards es) e.key e.card = some (cards (emplaced es e), added) :=
    emplaceKey_eq (makeKey_makeKey hkey)
  have hcard : emplaceCard (cards es) e.card = some (cards (emplaced es e), added) :=
    (emplaceCard_eq he).trans hadded
  rw [Keeps, h.answers_iff]
  refine and_congr_right fun hreadable => ?_
  rw [← answers_emplaced_iff h he hv hkept hreadable]
  refine ⟨fun ⟨hdr, added', hemplace, _, hall⟩ => ?_, fun hall => ⟨_, added, hcard, fun k hk => ?_, hall⟩⟩
  · obtain ⟨rfl, -⟩ := Prod.mk.inj (Option.some.inj (hcard.symm.trans hemplace))
    exact hall
  · exact (emplaceKey_congr hk (makeKey_makeKey hkey)).trans hadded

/-! ### Two headers -/

/-- The cards of `makeCard`, if the value fits, can stand in a header. -/
theorem made_cardOf {key text comment : List Char} {v : Value} (hkey : Key key) (hv : Storable v) (hasked : Asked v)
    (htext : makeValue v = some text) (hc : Comment comment) (hfits : cardLength text comment ≤ 80) :
    (⟨cardOf key text comment, some v⟩ : Entry).Made := by
  have hlength := length_cardOf hkey hfits
  have hfield : 10 + text.length ≤ 80 := (le_max_right 30 _).trans ((Nat.le_add_right _ _).trans hfits)
  refine ⟨hlength, ⟨key, ?_⟩, fun u hu => ?_⟩
  · rw [makeKey_eq hkey, Entry.key, cardOf, List.take_left' (length_key hkey)]
  · obtain rfl := Option.some.inj hu
    exact ⟨hasked, ⟨key, comment, false, makeCard_eq hkey hv htext hc hfits⟩, hlength, text, htext, hfield⟩

theorem comment_nil : Comment [] := ⟨rfl, bare_of_forall (forall_of_all (by decide)), by decide⟩

def exposures : CardInt.int32.type.Value := ⟨12, by decide⟩

/-- A card with a string, and one with a number. -/
def cameraEntry : Entry := ⟨cardOf "camera".toList "'it''s red'".toList [], some (.string "it's red".toList)⟩

def exposuresEntry : Entry :=
  ⟨cardOf "nexp".toList (alignRight "12".toList 20) [], some (.integer .int32 exposures)⟩

theorem made_camera : cameraEntry.Made :=
  made_cardOf (v := .string "it's red".toList) ⟨allowed_key_chars_eq ▸ forall_of_all (by decide), by decide⟩
    ⟨by decide, by decide⟩ (List.cons_ne_nil _ _) (by decide) comment_nil (by decide)

theorem made_exposures : exposuresEntry.Made :=
  made_cardOf (v := .integer .int32 exposures) ⟨allowed_key_chars_eq ▸ forall_of_all (by decide), by decide⟩
    trivial trivial (by decide) comment_nil (by decide)

theorem header_camera : Header [cameraEntry] :=
  ⟨fun e he => by rw [List.mem_singleton.1 he]; exact made_camera, List.nodup_singleton _⟩

theorem keeps_exposures : Keeps documented [cameraEntry] exposuresEntry := by
  have hkept : kept [cameraEntry] exposuresEntry = none := by decide +kernel
  refine (answers_emplace_iff documented header_camera made_exposures rfl fun old hold => ?_).2
    ⟨fun x hx u hu => ?_, ?_⟩
  · rw [hkept] at hold
    exact absurd hold (by simp)
  · obtain rfl := List.mem_singleton.1 hx
    obtain rfl := Option.some.inj hu
    exact ⟨by decide, by decide, by decide⟩
  · rw [hkept]
    exact (by decide : CardInt.int32.type.bits ≠ 8)

/-- A card with a slash in its string. -/
def noteEntry : Entry := ⟨cardOf "note".toList "'it''s a/b'".toList [], some (.string "it's a/b".toList)⟩

/-- What is before the slash is read up to its last quote. -/
theorem note_cut : Header [noteEntry] ∧ getStringValue (cards [noteEntry]) "note".toList = some "it'".toList ∧
    ¬Answers documented (cards [noteEntry]) [noteEntry] := by
  have hmade : noteEntry.Made :=
    made_cardOf (v := .string "it's a/b".toList) ⟨allowed_key_chars_eq ▸ forall_of_all (by decide), by decide⟩ ⟨by decide, by decide⟩
      (List.cons_ne_nil _ _) (by decide) comment_nil (by decide)
  have hheader : Header [noteEntry] :=
    ⟨fun e he => by rw [List.mem_singleton.1 he]; exact hmade, List.nodup_singleton _⟩
  refine ⟨hheader, ?_, fun hall => ?_⟩
  · have hread := (hmade.holds _ rfl).read_string
    have hnamed : named "note".toList noteEntry.card = true := by decide +kernel
    show getStringValue [noteEntry.card] _ = _
    rw [getStringValue_singleton hnamed, hread]
    decide +kernel
  · have hreadable := hheader.answers_iff.1 hall noteEntry List.mem_cons_self _ rfl
    exact hreadable.2.1 (by decide)

end Redux.File.Fits
