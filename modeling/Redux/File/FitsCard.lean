import Redux.Lib.Doubling
import Redux.Util.StringUtil

/-!
# File.FitsCard — the cards of a FITS header

`makeCard` writes a key, a value and a comment into 80 characters, and `splitCard` takes them apart again: for every
card with a value that fits, the value is the text of `makeValue` without the blanks on its left, and it is read as what
it was (`splitCard_makeCard`).  A card without a value has all of its comment again, but where the first two characters
of the comment are taken for the mark of a value.
-/

namespace Redux.File.Fits

open Redux.Lib Redux.Lib.Doubling Redux.Util Redux.Util.Text

/-! ## Model -/

def quote : Char := '\''

/-- `allowed_value_chars`, of `generate_avc`. -/
def allowed_value (c : Char) : Bool := 32 ≤ c.toNat && c.toNat < 127

def allowed_key_chars : List Char := "ABCDEFGHIJKLMNOPQRSTUVWXYZ01923456789-_".toList

/-- `makeKey`, which may throw. -/
def makeKey (key : List Char) : Option (List Char) :=
  match ((trim key).map Char.toUpper).findIdx? fun c => c ∉ allowed_key_chars with
  | some found => if found < 8 then none else some (resize 8 ((trim key).map Char.toUpper))
  | none => some (resize 8 ((trim key).map Char.toUpper))

/-- The integers that there are cards of. -/
inductive CardInt
  | int8 | uint8 | int16 | uint16 | int32 | uint32 | int64 | uint64
  deriving DecidableEq

theorem pos_8 : 0 < 8 := by decide
theorem pos_16 : 0 < 16 := by decide
theorem pos_32 : 0 < 32 := by decide
theorem pos_64 : 0 < 64 := by decide

def CardInt.type : CardInt → IntType
  | .int8 => ⟨8, true, pos_8⟩
  | .uint8 => ⟨8, false, pos_8⟩
  | .int16 => ⟨16, true, pos_16⟩
  | .uint16 => ⟨16, false, pos_16⟩
  | .int32 => ⟨32, true, pos_32⟩
  | .uint32 => ⟨32, false, pos_32⟩
  | .int64 => ⟨64, true, pos_64⟩
  | .uint64 => ⟨64, false, pos_64⟩

/-- The values of cards. -/
inductive Value
  | string (s : List Char)
  | bool (b : Bool)
  | integer (t : CardInt) (z : t.type.Value)

/-- `makeValue` of a string, which may throw. -/
def makeString (str : List Char) (quoted : Bool) : Option (List Char) :=
  if (trim_right str).all allowed_value = true then
    some (if quoted then quote :: double quote (trim_right str) ++ [quote] else trim_right str)
  else none

/-- `makeValue`. -/
def makeValue : Value → Option (List Char)
  | .string s => makeString s true
  | .bool b => some (alignRight [if b then 'T' else 'F'] 20)
  | .integer _ z => some (alignRight (decimalInt z) 20)

/-- A card with its comment, if there is one. -/
def withComment (ret separator comment : List Char) : Option (List Char) :=
  if comment = [] then some ret else (makeString comment false).map fun text => ret ++ separator ++ text

/-- A card with a string, before its comment. -/
def stringField (allowLong : Bool) (ret : List Char) : List Char :=
  let ret := if !allowLong ∧ 80 < ret.length then ret.set 79 quote else ret
  if ret.length < 30 then resize 30 ret else ret

/-- `if( !allowLong || ret.size()<80 ) ret.resize( 80, ' ' )`. -/
def padCard (allowLong : Bool) (ret : List Char) : List Char :=
  if !allowLong ∨ ret.length < 80 then resize 80 ret else ret

/-- `makeCard` without a value. -/
def makeComment (key comment : List Char) (allowLong : Bool) : Option (List Char) :=
  (makeKey key).bind fun k => (withComment k [] comment).map (padCard allowLong)

/-- `makeCard`.  There is no value field for an empty string. -/
def makeCard (key : List Char) (v : Value) (comment : List Char) (allowLong : Bool) : Option (List Char) :=
  match v with
  | .string [] => makeComment key comment allowLong
  | .string s => (makeKey key).bind fun k => (makeValue (.string s)).bind fun text =>
      (withComment (stringField allowLong (k ++ ['=', ' '] ++ text)) [' ', '/', ' '] comment).map (padCard allowLong)
  | v => (makeKey key).bind fun k => (makeValue v).bind fun text =>
      (withComment (k ++ ['=', ' '] ++ text) [' ', '/', ' '] comment).map (resize 80)

/-- The comment behind the blanks and slashes, if there is any. -/
def behindSlashes (comment : List Char) : List Char :=
  if comment.dropWhile (fun c => c = ' ' || c = '/') = [] then comment
  else comment.dropWhile fun c => c = ' ' || c = '/'

/-- The value field and what is behind it.  The end of a string that has no end is not looked for behind the card. -/
def valueField (card : List Char) : List Char × List Char :=
  match (card.drop 9).dropWhile (· = ' ') with
  | c :: rest =>
    if c = quote then (c :: (upTo quote rest).1 ++ (upTo quote rest).2.take 1, (upTo quote rest).2.drop 1)
    else ((card.drop 10).take 20, card.drop 30)
  | [] => ((card.drop 10).take 20, card.drop 30)

/-- `splitCard`: key, value and comment. -/
def splitCard (card : List Char) : List Char × List Char × List Char :=
  if card[8]? = some '=' ∨ card[9]? = some ' ' then
    (trim (card.take 8), trim (valueField card).1, trim (behindSlashes (valueField card).2))
  else (trim (card.take 8), [], trim (behindSlashes (card.drop 8)))

/-- `getValue<string>` of the text of a value. -/
def getString (v : List Char) : List Char :=
  match (trim v).findIdx? (· = quote) with
  | none => single quote (trim v)
  | some first =>
    let found := upTo quote (v.drop (first + 1))
    -- the quotes are left out if there are two
    if v[first]? = some quote ∧ found.2 ≠ [] then single quote found.1
    else single quote ((v.drop first).take (found.1.length + 2))

/-- `getValue<T>` of an integer type. -/
def getInteger (L : LexicalCast) (t : CardInt) (v : List Char) : Option ℤ := stringTo L t.type (trim v)

/-- `getValue<bool>`. -/
def getBool (L : LexicalCast) (v : List Char) : Option Bool := stringToBool L (trim v)

/-! ## What a card should give -/

/-- The value is read from its text, a string but for the blanks at its end. -/
def Reads (L : LexicalCast) (text : List Char) : Value → Prop
  | .string s => getString text = trim_right s
  | .bool b => getBool L text = some b
  | .integer t z => getInteger L t text = some z

/-- A key: letters, digits and so on, not more than eight. -/
structure Key (key : List Char) : Prop where
  allowed : ∀ c ∈ key, c.toUpper ∈ allowed_key_chars
  length : key.length ≤ 8

/-- A comment: printable, with no blanks around it and no slashes in front. -/
structure Comment (comment : List Char) : Prop where
  printable : comment.all allowed_value = true
  bare : Bare comment
  slash : comment.head? ≠ some '/'

/-- The characters of a card with a value: at least 30 without the comment. -/
def cardLength (text comment : List Char) : ℕ :=
  max 30 (10 + text.length) + if comment = [] then 0 else 3 + comment.length

/-! ## Characters -/

section Characters

variable {c : Char} {s : List Char}

/-- The characters of a key one by one. -/
theorem allowed_key_chars_eq : allowed_key_chars =
    ['A', 'B', 'C', 'D', 'E', 'F', 'G', 'H', 'I', 'J', 'K', 'L', 'M', 'N', 'O', 'P', 'Q', 'R', 'S', 'T', 'U', 'V', 'W',
      'X', 'Y', 'Z', '0', '1', '9', '2', '3', '4', '5', '6', '7', '8', '9', '-', '_'] :=
  String.toList_ofList

/-- A blank is in no key, not even a tab or the end of a line. -/
theorem not_allowed_of_isspace (h : isspace c = true) : c.toUpper ∉ allowed_key_chars := by
  have hnat : c.toNat = 32 ∨ c.toNat = 9 ∨ c.toNat = 10 ∨ c.toNat = 11 ∨ c.toNat = 12 ∨ c.toNat = 13 := by
    rw [isspace, Bool.or_eq_true, decide_eq_true_eq, Bool.and_eq_true, decide_eq_true_eq, decide_eq_true_eq] at h
    rcases h with rfl | h
    · exact .inl rfl
    · omega
  rw [← Char.ofNat_toNat c, allowed_key_chars_eq]
  rcases hnat with h | h | h | h | h | h <;> rw [h] <;> decide

theorem isspace_of_allowed (h : c.toUpper ∈ allowed_key_chars) : isspace c = false := by
  by_contra hne
  exact not_allowed_of_isspace (Bool.eq_true_of_not_eq_false hne) h

theorem isspace_allowed : ∀ c ∈ allowed_key_chars, isspace c = false := by
  rw [allowed_key_chars_eq]
  exact forall_of_all (by decide)

/-- The upper-case key. -/
def upper (key : List Char) : List Char := key.map Char.toUpper

theorem mem_allowed_of_mem_upper {key : List Char} (h : Key key) (hc : c ∈ upper key) : c ∈ allowed_key_chars := by
  obtain ⟨c', hc', rfl⟩ := List.mem_map.1 hc
  exact h.allowed c' hc'

/-- **A key is padded.** -/
theorem makeKey_eq {key : List Char} (h : Key key) :
    makeKey key = some (upper key ++ List.replicate (8 - key.length) ' ') := by
  have htrim : trim key = key := trim_of_bare (bare_of_forall fun c hc => isspace_of_allowed (h.allowed c hc))
  have hnone : (upper key).findIdx? (fun c => c ∉ allowed_key_chars) = none := by
    rw [List.findIdx?_eq_none_iff]
    exact fun c hc => decide_eq_false (not_not_intro (mem_allowed_of_mem_upper h hc))
  have hlength : (upper key).length = key.length := List.length_map _
  rw [makeKey, htrim, ← upper, hnone, resize_of_le (hlength.trans_le h.length), hlength]

theorem length_key {key : List Char} (h : Key key) :
    (upper key ++ List.replicate (8 - key.length) ' ').length = 8 := by
  have hle := h.length
  rw [List.length_append, List.length_replicate, upper, List.length_map]
  omega

theorem trim_key {key : List Char} (h : Key key) : trim (upper key ++ List.replicate (8 - key.length) ' ') = upper key :=
  trim_blanks (bare_of_forall fun c hc => isspace_allowed c (mem_allowed_of_mem_upper h hc)) 0 _

theorem isspace_of_mem_decimalInt {z : ℤ} (h : c ∈ decimalInt z) : isspace c = false ∧ c ≠ quote := by
  rcases mem_decimalInt h with rfl | hdigit
  · exact ⟨rfl, by decide⟩
  · have hnat : 48 ≤ c.toNat ∧ c.toNat ≤ 57 := by
      rw [Char.isDigit, Bool.and_eq_true, decide_eq_true_eq, decide_eq_true_eq] at hdigit
      exact ⟨UInt32.le_iff_toNat_le.1 hdigit.1, UInt32.le_iff_toNat_le.1 hdigit.2⟩
    refine ⟨?_, fun heq => ?_⟩
    · rw [isspace, Bool.or_eq_false_iff, Bool.and_eq_false_iff, decide_eq_false_iff_not, decide_eq_false_iff_not,
        decide_eq_false_iff_not]
      exact ⟨fun heq => by rw [heq] at hnat; exact absurd hnat.1 (by decide), by omega⟩
    · rw [heq] at hnat
      exact absurd hnat.1 (by decide)

end Characters

/-! ## The texts of values -/

section Values

variable {text tail K : List Char}

theorem drop_behind (hK : K.length = 8) (n : ℕ) (rest : List Char) : (K ++ rest).drop (8 + n) = rest.drop n := by
  rw [← hK, List.drop_length_add_append]

/-- **The field of a string is found**, if it is not a quote that follows. -/
theorem valueField_string (hK : K.length = 8) (w : List Char) (htail : tail.head? ≠ some quote) :
    valueField (K ++ '=' :: ' ' :: ((quote :: double quote w ++ [quote]) ++ tail)) =
      (quote :: double quote w ++ [quote], tail) := by
  have hdrop : (K ++ '=' :: ' ' :: ((quote :: double quote w ++ [quote]) ++ tail)).drop 9 =
      ' ' :: quote :: (double quote w ++ quote :: tail) := by
    rw [drop_behind hK 1, List.append_cons (double quote w) quote tail]
    rfl
  rw [valueField, hdrop, List.dropWhile_cons_of_pos (by decide), List.dropWhile_cons_of_neg (by decide)]
  dsimp only
  rw [if_pos rfl, upTo_double htail]
  rfl

theorem dropWhile_blanks (n : ℕ) {c : Char} (hc : c ≠ ' ') (rest : List Char) :
    (List.replicate n ' ' ++ c :: rest).dropWhile (fun x => x = ' ') = c :: rest := by
  rw [List.dropWhile_append_of_pos fun x hx => by rw [List.eq_of_mem_replicate hx]; rfl,
    List.dropWhile_cons_of_neg (by simpa using hc)]

/-- **The field of a number is found**: twenty characters, blanks in front. -/
theorem valueField_aligned (hK : K.length = 8) {n : ℕ} {c : Char} {body : List Char} (hc : c ≠ ' ')
    (hquote : c ≠ quote) (hlength : (List.replicate n ' ' ++ c :: body).length = 20) :
    valueField (K ++ '=' :: ' ' :: ((List.replicate n ' ' ++ c :: body) ++ tail)) =
      (List.replicate n ' ' ++ c :: body, tail) := by
  have hdrop : (K ++ '=' :: ' ' :: ((List.replicate n ' ' ++ c :: body) ++ tail)).drop 9 =
      List.replicate (n + 1) ' ' ++ c :: (body ++ tail) := by
    rw [drop_behind hK 1, List.append_assoc, List.replicate_succ]
    rfl
  have hvalue : (K ++ '=' :: ' ' :: ((List.replicate n ' ' ++ c :: body) ++ tail)).drop 10 =
      (List.replicate n ' ' ++ c :: body) ++ tail := drop_behind hK 2 _
  have hbehind : (K ++ '=' :: ' ' :: ((List.replicate n ' ' ++ c :: body) ++ tail)).drop 30 = tail := by
    rw [drop_behind hK 22, List.drop_succ_cons, List.drop_succ_cons, ← hlength, List.drop_left]
  rw [valueField, hdrop, dropWhile_blanks _ hc]
  dsimp only
  rw [if_neg hquote, hvalue, hbehind, ← hlength, List.take_left]

/-- What a text needs to be the one of a value: it is written, found again and read. -/
structure Stored (L : LexicalCast) (v : Value) (text : List Char) : Prop where
  written : makeValue v = some text
  found : ∀ K tail : List Char, K.length = 8 → tail.head? ≠ some quote →
    valueField (K ++ '=' :: ' ' :: (text ++ tail)) = (text, tail)
  reads : Reads L (trim text) v

/-- The values that there are cards of: strings that are printable and not empty, and all others. -/
def Storable : Value → Prop
  | .string s => s ≠ [] ∧ s.all allowed_value = true
  | _ => True

variable {L : LexicalCast}

theorem all_trim_right {s : List Char} (h : s.all allowed_value = true) :
    (trim_right s).all allowed_value = true :=
  List.all_eq_true.2 fun c hc => List.all_eq_true.1 h c ((List.rdropWhile_prefix isspace s).subset hc)

theorem isspace_quote : isspace quote = false := rfl

theorem bare_quoted (w : List Char) : Bare (quote :: w ++ [quote]) := by
  refine ⟨fun c hc => ?_, fun c hc => ?_⟩
  · obtain rfl : quote = c := Option.some.inj hc
    exact isspace_quote
  · rw [List.getLast?_append, List.getLast?_singleton, Option.some_or, Option.some.injEq] at hc
    rw [← hc]
    exact isspace_quote

/-- **A string is read from its text.** -/
theorem getString_quoted (w : List Char) : getString (quote :: double quote w ++ [quote]) = w := by
  have hfirst : (quote :: double quote w ++ [quote]).findIdx? (· = quote) = some 0 := rfl
  have hfound : upTo quote ((quote :: double quote w ++ [quote]).drop (0 + 1)) = (double quote w, [quote]) :=
    upTo_double (by simp) w
  rw [getString, trim_of_bare (bare_quoted _), hfirst]
  dsimp only
  rw [hfound, if_pos ⟨rfl, List.cons_ne_nil _ _⟩, single_double]

theorem stored_string {s : List Char} (h : s.all allowed_value = true) :
    Stored L (.string s) (quote :: double quote (trim_right s) ++ [quote]) where
  written := by
    rw [makeValue, makeString, if_pos (all_trim_right h)]
    rfl
  found := fun K tail hK htail => valueField_string hK (trim_right s) htail
  reads := by
    rw [trim_of_bare (bare_quoted _)]
    exact getString_quoted _

/-- A text of up to twenty characters without blanks, aligned. -/
theorem alignRight_eq {body : List Char} (h : body.length ≤ 20) :
    alignRight body 20 = List.replicate (20 - body.length) ' ' ++ body := if_neg (by omega)

theorem stored_aligned {v : Value} {c : Char} {body : List Char} (hmake : makeValue v = some (alignRight (c :: body) 20))
    (hplain : ∀ x ∈ c :: body, isspace x = false ∧ x ≠ quote) (hlength : (c :: body).length ≤ 20)
    (hreads : Reads L (c :: body) v) : Stored L v (alignRight (c :: body) 20) := by
  have hc := hplain c List.mem_cons_self
  rw [alignRight_eq hlength] at hmake ⊢
  refine ⟨hmake, fun K tail hK _ => ?_, ?_⟩
  · refine valueField_aligned hK (fun heq => ?_) hc.2 ?_
    · rw [heq] at hc
      exact absurd hc.1 (by decide)
    · rw [List.length_append, List.length_replicate]
      omega
  · have htrim := trim_blanks (bare_of_forall fun x hx => (hplain x hx).1) (20 - (c :: body).length) 0
    rw [List.replicate_zero, List.append_nil] at htrim
    rwa [htrim]

theorem stored_bool (b : Bool) : Stored L (.bool b) (alignRight [if b then 'T' else 'F'] 20) := by
  cases b with
  | false =>
    exact stored_aligned rfl (forall_of_all (by decide)) (by decide) rfl
  | true =>
    exact stored_aligned rfl (forall_of_all (by decide)) (by decide) rfl

/-- The numbers of all types have up to twenty characters. -/
theorem integer_bounds (t : CardInt) (z : t.type.Value) : -2 ^ 63 ≤ (z : ℤ) ∧ (z : ℤ) < 2 ^ 64 ∧
    (t.type.signed = false → 0 ≤ (z : ℤ)) := by
  obtain ⟨z, hlow, hhigh⟩ := z
  dsimp only
  cases t <;>
  simp only [CardInt.type, IntType.lowest, IntType.highest, if_true, Bool.false_eq_true, if_false] at hlow hhigh ⊢ <;>
    norm_num at hlow hhigh ⊢ <;> omega

theorem length_decimalInt {z : ℤ} (hlow : -2 ^ 63 ≤ z) (hhigh : z < 2 ^ 64) : (decimalInt z).length ≤ 20 := by
  have hdigits : ∀ {n k : ℕ}, 0 < k → n < 10 ^ k → (decimal n).length ≤ k := fun hk h =>
    (Nat.length_toDigits_le_iff (by decide) hk).2 h
  rw [decimalInt]
  split
  · rw [List.length_cons]
    have := hdigits (n := z.natAbs) (k := 19) (by decide) (by omega)
    omega
  · exact hdigits (by decide) (by omega)

theorem stored_integer (t : CardInt) (z : t.type.Value) : Stored L (.integer t z) (alignRight (decimalInt z) 20) := by
  obtain ⟨hlow, hhigh, hunsigned⟩ := integer_bounds t z
  have hreads : Reads L (decimalInt z) (.integer t z) := by
    have hbare : Bare (decimalInt z) := bare_of_forall fun c hc => (isspace_of_mem_decimalInt hc).1
    have hsign : ¬(t.type.signed = false ∧ '-' ∈ decimalInt z) := fun h => by
      have hnonneg := hunsigned h.1
      have hmem := h.2
      rw [decimalInt, if_neg (by omega)] at hmem
      exact not_mem_decimal (by decide) hmem
    show getInteger L t (decimalInt z) = some (z : ℤ)
    rw [getInteger, stringTo, trim_of_bare hbare, if_neg hsign, trim_of_bare hbare,
      L.int128_decimal z (by omega) (by omega), Option.bind_some, if_neg (not_lt.2 z.2.2), if_neg (not_lt.2 z.2.1)]
  have hplain : ∀ c ∈ decimalInt z, isspace c = false ∧ c ≠ quote := fun c hc => isspace_of_mem_decimalInt hc
  have hlength := length_decimalInt hlow hhigh
  have hmake : makeValue (.integer t z) = some (alignRight (decimalInt z) 20) := rfl
  cases hz : decimalInt z with
  | nil =>
    unfold decimalInt at hz
    split at hz
    · exact absurd hz (List.cons_ne_nil _ _)
    · exact absurd hz decimal_ne_nil
  | cons c body =>
    rw [hz] at hreads hplain hlength hmake
    exact stored_aligned hmake hplain hlength hreads

/-- **Every value has a text that it is found and read from.** -/
theorem exists_stored (L : LexicalCast) {v : Value} (h : Storable v) : ∃ text, Stored L v text := by
  cases v with
  | string s => exact ⟨_, stored_string h.2⟩
  | bool b => exact ⟨_, stored_bool b⟩
  | integer t z => exact ⟨_, stored_integer t z⟩

end Values

/-! ## Cards with a value -/

section Cards

variable {key comment text K : List Char} {v : Value}

/-- What is behind a value: blanks, the comment if there is one, and blanks up to the end. -/
def rest (a : ℕ) (comment : List Char) (b : ℕ) : List Char :=
  List.replicate a ' ' ++ (if comment = [] then [] else [' ', '/', ' '] ++ comment) ++ List.replicate b ' '

theorem length_alignRight (s : List Char) : (alignRight s 20).length = 20 := by
  rw [alignRight]
  split
  · rw [List.length_take]
    omega
  · rw [List.length_append, List.length_replicate]
    omega

/-- A string that fits is padded to the column of the comments. -/
theorem stringField_eq (allowLong : Bool) {ret : List Char} (h : ret.length ≤ 80) :
    stringField allowLong ret = ret ++ List.replicate (30 - ret.length) ' ' := by
  have hshort : ¬(!allowLong ∧ 80 < ret.length) := fun hlong => absurd hlong.2 (by omega)
  rw [stringField, if_neg hshort]
  split
  next hlt => exact resize_of_le hlt.le
  next hge => rw [Nat.sub_eq_zero_of_le (by omega), List.replicate_zero, List.append_nil]

theorem padCard_false (ret : List Char) : padCard false ret = resize 80 ret := if_pos (Or.inl rfl)

theorem makeString_comment (h : Comment comment) : makeString comment false = some comment := by
  rw [makeString, trim_right_of_bare h.bare, if_pos h.printable]
  rfl

theorem withComment_eq (h : Comment comment) (ret : List Char) : withComment ret [' ', '/', ' '] comment =
    some (ret ++ if comment = [] then [] else [' ', '/', ' '] ++ comment) := by
  rw [withComment]
  split
  · rw [List.append_nil]
  · rw [makeString_comment h, Option.map_some, List.append_assoc]

/-- The card of a value of which the text is known, all of it in 80 characters. -/
def cardOf (key text comment : List Char) : List Char :=
  upper key ++ List.replicate (8 - key.length) ' ' ++ '=' :: ' ' ::
    (text ++ rest (30 - (10 + text.length)) comment (80 - cardLength text comment))

/-- What is written before the last padding. -/
theorem resize_eq (hkey : Key key) (hfits : cardLength text comment ≤ 80) :
    resize 80 (upper key ++ List.replicate (8 - key.length) ' ' ++ ['=', ' '] ++ text ++
      List.replicate (30 - (10 + text.length)) ' ' ++ if comment = [] then [] else [' ', '/', ' '] ++ comment) =
      cardOf key text comment := by
  have hK := length_key hkey
  have hlength : (upper key ++ List.replicate (8 - key.length) ' ' ++ ['=', ' '] ++ text ++
      List.replicate (30 - (10 + text.length)) ' ' ++ if comment = [] then [] else [' ', '/', ' '] ++ comment).length =
      cardLength text comment := by
    rw [List.length_append, List.length_append, List.length_append, List.length_append, hK, List.length_replicate,
      cardLength, apply_ite List.length, List.length_append]
    show 8 + 2 + text.length + _ + (if comment = [] then 0 else 3 + comment.length) = _
    omega
  rw [resize_of_le (hlength.trans_le hfits), hlength, cardOf, rest]
  simp only [List.append_assoc, List.cons_append, List.nil_append]

theorem length_cardOf (hkey : Key key) (hfits : cardLength text comment ≤ 80) :
    (cardOf key text comment).length = 80 := by
  rw [← resize_eq hkey hfits, length_resize]

/-- **What `makeCard` writes** for a value that fits. -/
theorem makeCard_eq (hkey : Key key) (hv : Storable v) (hmake : makeValue v = some text) (hc : Comment comment)
    (hfits : cardLength text comment ≤ 80) : makeCard key v comment false = some (cardOf key text comment) := by
  have hK := length_key hkey
  have hlength : (upper key ++ List.replicate (8 - key.length) ' ' ++ ['=', ' '] ++ text).length = 10 + text.length := by
    rw [List.length_append, List.length_append, hK]
    rfl
  have hfield : 10 + text.length ≤ 80 := (le_max_right 30 _).trans ((Nat.le_add_right _ _).trans hfits)
  have hnumber : text.length = 20 → (withComment (upper key ++ List.replicate (8 - key.length) ' ' ++ ['=', ' '] ++ text)
      [' ', '/', ' '] comment).map (resize 80) = some (cardOf key text comment) := fun h20 => by
    have hresize := resize_eq hkey hfits
    rw [h20, show 30 - (10 + 20) = 0 from rfl, List.replicate_zero, List.append_nil] at hresize
    rw [withComment_eq hc, Option.map_some, hresize]
  cases v with
  | string s =>
    obtain ⟨c, s, rfl⟩ := List.exists_cons_of_ne_nil hv.1
    show ((makeKey key).bind fun k => (makeValue (.string (c :: s))).bind fun text =>
      (withComment (stringField false (k ++ ['=', ' '] ++ text)) [' ', '/', ' '] comment).map (padCard false)) = _
    rw [makeKey_eq hkey, Option.bind_some, hmake, Option.bind_some, stringField_eq _ (hlength.trans_le hfield),
      withComment_eq hc, Option.map_some, padCard_false, hlength, resize_eq hkey hfits]
  | bool b =>
    show ((makeKey key).bind fun k => (makeValue (.bool b)).bind fun text =>
      (withComment (k ++ ['=', ' '] ++ text) [' ', '/', ' '] comment).map (resize 80)) = _
    rw [makeKey_eq hkey, Option.bind_some, hmake, Option.bind_some, hnumber]
    rw [← Option.some.inj hmake]
    exact length_alignRight _
  | integer t z =>
    show ((makeKey key).bind fun k => (makeValue (.integer t z)).bind fun text =>
      (withComment (k ++ ['=', ' '] ++ text) [' ', '/', ' '] comment).map (resize 80)) = _
    rw [makeKey_eq hkey, Option.bind_some, hmake, Option.bind_some, hnumber]
    rw [← Option.some.inj hmake]
    exact length_alignRight _

/-- A comment is found behind blanks and slashes. -/
theorem trim_behindSlashes_append (h : Comment comment) (hne : comment ≠ []) {r : List Char}
    (hr : ∀ c ∈ r, (decide (c = ' ') || decide (c = '/')) = true) (b : ℕ) :
    trim (behindSlashes (r ++ comment ++ List.replicate b ' ')) = comment := by
  obtain ⟨c, comment, rfl⟩ := List.exists_cons_of_ne_nil hne
  have hc : ¬(fun c => decide (c = ' ') || decide (c = '/')) c = true := by
    rw [Bool.or_eq_true, decide_eq_true_eq, decide_eq_true_eq]
    rintro (rfl | rfl)
    · exact absurd (h.bare.head ' ' rfl) (by decide)
    · exact h.slash rfl
  have hdrop : (r ++ c :: comment ++ List.replicate b ' ').dropWhile (fun c => c = ' ' || c = '/') =
      c :: comment ++ List.replicate b ' ' := by
    rw [List.append_assoc, List.dropWhile_append_of_pos hr]
    exact List.dropWhile_cons_of_neg hc
  have htrim := trim_blanks h.bare 0 b
  rw [List.replicate_zero, List.nil_append] at htrim
  rw [behindSlashes, hdrop, if_neg (by simp), htrim]

/-- **The comment is found behind the slash.** -/
theorem trim_behindSlashes (h : Comment comment) (a b : ℕ) : trim (behindSlashes (rest a comment b)) = comment := by
  by_cases hne : comment = []
  · subst hne
    have hblanks : rest a [] b = List.replicate (a + b) ' ' := by
      rw [rest, if_pos rfl, List.append_nil, List.replicate_append_replicate]
    have hnone : (List.replicate (a + b) ' ').dropWhile (fun c => c = ' ' || c = '/') = [] :=
      List.dropWhile_eq_nil_iff.2 fun c hc => by rw [List.eq_of_mem_replicate hc]; rfl
    have htrim := trim_blanks (s := []) h.bare 0 (a + b)
    rw [List.replicate_zero, List.nil_append, List.nil_append] at htrim
    rw [behindSlashes, hblanks, if_pos hnone, htrim]
  · rw [rest, if_neg hne, ← List.append_assoc]
    refine trim_behindSlashes_append h hne (fun c hc => ?_) b
    rcases List.mem_append.1 hc with hc | hc
    · rw [List.eq_of_mem_replicate hc]
      rfl
    · have hall : ∀ c ∈ [' ', '/', ' '], (decide (c = ' ') || decide (c = '/')) = true :=
        forall_of_all (by decide)
      exact hall c hc

theorem head_rest (a b : ℕ) : (rest a comment b).head? ≠ some quote := by
  rw [rest]
  cases a with
  | succ a => rw [List.replicate_succ]; simp [quote]
  | zero =>
    split
    · cases b with
      | zero => simp
      | succ b => rw [List.replicate_succ]; simp [quote]
    · simp [quote]

/-- **A card with a value is taken apart.** -/
theorem splitCard_cardOf {L : LexicalCast} (hkey : Key key) (hv : Stored L v text) (hc : Comment comment) :
    splitCard (cardOf key text comment) = (upper key, trim text, comment) := by
  have hK := length_key hkey
  have hmark : (cardOf key text comment)[8]? = some '=' := by
    rw [cardOf, List.getElem?_append_right hK.le, hK]
    rfl
  have htake : (cardOf key text comment).take 8 = upper key ++ List.replicate (8 - key.length) ' ' :=
    List.take_left' hK
  have hfield : valueField (cardOf key text comment) = (text, _) := hv.found _ _ hK (head_rest _ _)
  rw [splitCard, if_pos (Or.inl hmark), htake, hfield, trim_key hkey, trim_behindSlashes hc]

end Cards

/-! ## Cards without a value -/

section NoValue

variable {key comment : List Char}

/-- A comment that is not taken for a value: there is none, or it does not begin with an equals sign, and has a second
character that is no blank. -/
def Plain (comment : List Char) : Prop :=
  comment = [] ∨ (comment[0]? ≠ some '=' ∧ comment[1]?.getD ' ' ≠ ' ')

instance (comment : List Char) : Decidable (Plain comment) := inferInstanceAs (Decidable (_ ∨ _))

/-- The card of a comment. -/
def commentOf (key comment : List Char) : List Char :=
  upper key ++ List.replicate (8 - key.length) ' ' ++ (comment ++ List.replicate (72 - comment.length) ' ')

/-- **What `makeCard` writes** without a value. -/
theorem makeComment_eq (hkey : Key key) (hc : Comment comment) (hfits : 8 + comment.length ≤ 80) :
    makeComment key comment false = some (commentOf key comment) := by
  have hK := length_key hkey
  have hwith : withComment (upper key ++ List.replicate (8 - key.length) ' ') [] comment =
      some (upper key ++ List.replicate (8 - key.length) ' ' ++ comment) := by
    rw [withComment]
    split
    next hnil => rw [hnil, List.append_nil]
    next => rw [makeString_comment hc, Option.map_some, List.append_nil]
  have hlength : (upper key ++ List.replicate (8 - key.length) ' ' ++ comment).length = 8 + comment.length := by
    rw [List.length_append, hK]
  rw [makeComment, makeKey_eq hkey, Option.bind_some, hwith, Option.map_some, padCard_false,
    resize_of_le (hlength.trans_le hfits), hlength, commentOf, List.append_assoc,
    show 80 - (8 + comment.length) = 72 - comment.length by omega]

theorem length_commentOf (hkey : Key key) (hfits : 8 + comment.length ≤ 80) : (commentOf key comment).length = 80 := by
  rw [commentOf, List.length_append, length_key hkey, List.length_append, List.length_replicate]
  omega

/-- **A card without a value is taken apart.** -/
theorem splitCard_commentOf (hkey : Key key) (hc : Comment comment) (hplain : Plain comment) :
    splitCard (commentOf key comment) = (upper key, [], comment) := by
  have hK := length_key hkey
  have htake : (commentOf key comment).take 8 = upper key ++ List.replicate (8 - key.length) ' ' :=
    List.take_left' hK
  have hdrop : ∀ n, (commentOf key comment).drop (8 + n) =
      (comment ++ List.replicate (72 - comment.length) ' ').drop n := fun n => drop_behind hK n _
  have hget : ∀ n, (commentOf key comment)[8 + n]? = (comment ++ List.replicate (72 - comment.length) ' ')[n]? :=
    fun n => by rw [← List.head?_drop, hdrop n, List.head?_drop]
  rcases hplain with rfl | ⟨hfirst, hsecond⟩
  · -- the blanks behind the key are taken for a value
    have hmark : (commentOf key [])[9]? = some ' ' := hget 1
    have hfield : valueField (commentOf key []) = (List.replicate 20 ' ', List.replicate 50 ' ') := by
      rw [valueField, hdrop 1]
      show ((commentOf key []).drop (8 + 2) |>.take 20, (commentOf key []).drop (8 + 22)) = _
      rw [hdrop 2, hdrop 22]
      rfl
    rw [splitCard, if_pos (Or.inr hmark), htake, trim_key hkey, hfield]
    rfl
  · obtain ⟨a, b, comment, rfl⟩ : ∃ a b l, comment = a :: b :: l := by
      cases comment with
      | nil => exact absurd rfl hsecond
      | cons a l =>
        cases l with
        | nil => exact absurd rfl hsecond
        | cons b l => exact ⟨a, b, l, rfl⟩
    have hmark : ¬((commentOf key (a :: b :: comment))[8]? = some '=' ∨
        (commentOf key (a :: b :: comment))[9]? = some ' ') := by
      rintro (h | h)
      · exact hfirst ((hget 0).symm.trans h)
      · exact hsecond (Option.some.inj ((hget 1).symm.trans h))
    have hbehind := trim_behindSlashes_append hc (List.cons_ne_nil _ _) (r := [])
      (fun c hc => absurd hc List.not_mem_nil) (72 - (a :: b :: comment).length)
    rw [splitCard, if_neg hmark, htake, trim_key hkey, hdrop 0]
    exact congrArg (fun c => (upper key, [], c)) hbehind

end NoValue

/-! ## Round trip -/

/-- **A value is found in its card**, and the comment.  The text of a number has no blanks in front of it any more. -/
theorem value_roundtrip (L : LexicalCast) {key comment : List Char} {v : Value} (hkey : Key key) (hv : Storable v)
    (hc : Comment comment) : ∃ text, makeValue v = some text ∧ (cardLength text comment ≤ 80 →
      ∃ card, makeCard key v comment false = some card ∧ card.length = 80 ∧
        splitCard card = (upper key, trim text, comment) ∧ Reads L (trim text) v) := by
  obtain ⟨text, hstored⟩ := exists_stored L hv
  refine ⟨text, hstored.written, fun hfits => ?_⟩
  refine ⟨_, makeCard_eq hkey hv hstored.written hc hfits, ?_, ?_, hstored.reads⟩
  · exact length_cardOf hkey hfits
  · exact splitCard_cardOf hkey hstored hc

/-- The text of a string has a quote at both ends. -/
theorem trim_makeValue_string {s text : List Char} (h : makeValue (.string s) = some text) : trim text = text := by
  rw [makeValue, makeString] at h
  split at h
  · obtain rfl := Option.some.inj h
    exact trim_of_bare (bare_quoted _)
  · exact absurd h (by simp)

/-- **A comment is found in its card**, and no value. -/
theorem comment_roundtrip {key comment : List Char} (hkey : Key key) (hc : Comment comment) (hplain : Plain comment)
    (hfits : 8 + comment.length ≤ 80) : ∃ card, makeComment key comment false = some card ∧ card.length = 80 ∧
      splitCard card = (upper key, [], comment) :=
  ⟨_, makeComment_eq hkey hc hfits, length_commentOf hkey hfits, splitCard_commentOf hkey hc hplain⟩

/-- **Cards are taken apart as they were put together.**  A value is found as the text of it without the blanks on its
left, and is read from that; without a value, or with an empty string, there is only the comment. -/
theorem splitCard_makeCard (L : LexicalCast) {key comment : List Char} (hkey : Key key) (hc : Comment comment) :
    (∀ v, Storable v → ∃ text, makeValue v = some text ∧ (∀ s, v = .string s → trim text = text) ∧
      (cardLength text comment ≤ 80 → ∃ card, makeCard key v comment false = some card ∧ card.length = 80 ∧
        splitCard card = (upper key, trim text, comment) ∧ Reads L (trim text) v)) ∧
    (Plain comment → 8 + comment.length ≤ 80 → ∃ card, makeComment key comment false = some card ∧
      makeCard key (.string []) comment false = some card ∧ card.length = 80 ∧
      splitCard card = (upper key, [], comment) ∧ getString [] = []) := by
  refine ⟨fun v hv => ?_, fun hplain hfits => ?_⟩
  · obtain ⟨text, hmake, hcard⟩ := value_roundtrip L hkey hv hc
    refine ⟨text, hmake, fun s hs => ?_, hcard⟩
    subst hs
    exact trim_makeValue_string hmake
  · obtain ⟨card, hmake, hlength, hsplit⟩ := comment_roundtrip hkey hc hplain hfits
    exact ⟨card, hmake, hmake, hlength, hsplit, rfl⟩

theorem key_gain : Key "gain".toList where
  allowed := by
    rw [allowed_key_chars_eq]
    exact forall_of_all (by decide)
  length := by decide

theorem comment_units : Comment "e-/ADU".toList :=
  ⟨by decide, bare_of_forall (forall_of_all (by decide)), by decide⟩

theorem splitCard_makeCard_gain :
    (∀ v, Storable v → ∃ text, makeValue v = some text ∧ (∀ s, v = .string s → trim text = text) ∧
      (cardLength text "e-/ADU".toList ≤ 80 → ∃ card, makeCard "gain".toList v "e-/ADU".toList false = some card ∧
        card.length = 80 ∧ splitCard card = (upper "gain".toList, trim text, "e-/ADU".toList) ∧
        Reads documented (trim text) v)) ∧
    ∃ card, makeComment "gain".toList "e-/ADU".toList false = some card ∧
      makeCard "gain".toList (.string []) "e-/ADU".toList false = some card ∧ card.length = 80 ∧
      splitCard card = (upper "gain".toList, [], "e-/ADU".toList) ∧ getString [] = [] :=
  ⟨(splitCard_makeCard documented key_gain comment_units).1,
    (splitCard_makeCard documented key_gain comment_units).2 (by decide) (by decide)⟩

/-- The text of `true` is aligned in its card, and does not come back so. -/
theorem aligned_not_returned : Key "gain".toList ∧ Comment [] ∧
    cardLength (alignRight ['T'] 20) [] ≤ 80 ∧ makeValue (.bool true) = some (alignRight ['T'] 20) ∧
    ∀ card, makeCard "gain".toList (.bool true) [] false = some card →
      splitCard card ≠ ("GAIN".toList, alignRight ['T'] 20, []) := by
  have hnone : Comment [] := ⟨rfl, bare_of_forall (forall_of_all (by decide)), by decide⟩
  refine ⟨key_gain, hnone, by decide, rfl, fun card hcard => ?_⟩
  have hvalue : (makeCard "gain".toList (.bool true) [] false).map splitCard ≠
      some ("GAIN".toList, alignRight ['T'] 20, []) := by decide +kernel
  rw [hcard, Option.map_some] at hvalue
  exact fun heq => hvalue (congrArg some heq)

end Redux.File.Fits
