import Mathlib.Data.List.DropRight
import Redux.Lib.IntType
import Redux.Util.Boost
import Redux.Util.FileTypes

/-!
# Util.StringUtil — trimmed and aligned texts, and the numbers in them

What `stringutil` and its users take from the string algorithms of Boost is modelled on characters of a byte.
`boost::lexical_cast` is a parameter with what is documented of it: a number is read from its decimal digits, and
a type of eight bits is a character.
-/

namespace Redux.Util.Text

open Redux.Lib FileTypeTranslator

/-! ## Model -/

def isspace (c : Char) : Bool := c = ' ' || (9 ≤ c.toNat && c.toNat ≤ 13)

def trim_right (s : List Char) : List Char := s.rdropWhile isspace

def trim_left (s : List Char) : List Char := s.dropWhile isspace

def trim (s : List Char) : List Char := trim_left (trim_right s)

/-- `s.resize( n, ' ' )`. -/
def resize (n : ℕ) (s : List Char) : List Char := (s ++ List.replicate (n - s.length) ' ').take n

def alignRight (s : List Char) (n : ℕ) : List Char :=
  if n < s.length then s.take n else List.replicate (n - s.length) ' ' ++ s

/-- `boost::lexical_cast` to integers, of 128 bits and of the types of the standard library. -/
structure LexicalCast where
  int128 : List Char → Option ℤ
  integer : IntType → List Char → Option ℤ
  int128_decimal : ∀ z : ℤ, -2 ^ 127 ≤ z → z < 2 ^ 127 → int128 (decimalInt z) = some z
  integer_decimal : ∀ (t : IntType) (z : ℤ), 8 < t.bits → t.Fits z → integer t (decimalInt z) = some z
  /-- The types of eight bits are characters. -/
  integer_char : ∀ (t : IntType) (s : List Char), t.bits = 8 → integer t s = match s with
    | [c] => some (t.wrap c.toNat)
    | _ => none

/-- `stringTo` of an integer type, which may throw. -/
def stringTo (L : LexicalCast) (t : IntType) (v : List Char) : Option ℤ :=
  if t.signed = false ∧ '-' ∈ v then none
  else (L.int128 (trim v)).bind fun tmp => if t.highest < tmp then none else if tmp < t.lowest then none else some tmp

/-- `stringTo<bool>`. -/
def stringToBool (L : LexicalCast) (v : List Char) : Option Bool :=
  if iequals (trim v) ['T'] || iequals (trim v) ['t', 'r', 'u', 'e'] || iequals (trim v) ['y', 'e', 's'] then some true
  else if iequals (trim v) ['F'] || iequals (trim v) ['f', 'a', 'l', 's', 'e'] || iequals (trim v) ['n', 'o'] then
    some false
  else (stringTo L IntType.int (trim v)).map fun n => n != 0

/-- A check of all characters of a text, one after the other. -/
theorem forall_of_all {P : Char → Prop} [DecidablePred P] {s : List Char} (h : (s.all fun c => P c) = true) :
    ∀ c ∈ s, P c := fun c hc => of_decide_eq_true (List.all_eq_true.1 h c hc)

/-! ## Blanks -/

/-- There is no blank at either end. -/
structure Bare (s : List Char) : Prop where
  head : ∀ c, s.head? = some c → isspace c = false
  last : ∀ c, s.getLast? = some c → isspace c = false

section Blanks

variable {s : List Char}

@[simp] theorem isspace_blank : isspace ' ' = true := rfl

theorem rdropWhile_append_of_pos {p : Char → Bool} (s : List Char) {r : List Char} (h : ∀ c ∈ r, p c = true) :
    (s ++ r).rdropWhile p = s.rdropWhile p := by
  rw [List.rdropWhile, List.rdropWhile, List.reverse_append,
    List.dropWhile_append_of_pos fun c hc => h c (List.mem_reverse.1 hc)]

theorem trim_right_append_blanks (s : List Char) (n : ℕ) : trim_right (s ++ List.replicate n ' ') = trim_right s :=
  rdropWhile_append_of_pos s fun c hc => by rw [List.eq_of_mem_replicate hc]; rfl

/-- What is behind a character that is no blank is trimmed for itself. -/
theorem trim_right_append_of_last {c : Char} (hc : isspace c = false) (s r : List Char) :
    trim_right (s ++ [c] ++ r) = s ++ [c] ++ trim_right r := by
  induction r using List.reverseRecOn with
  | nil =>
    rw [List.append_nil, trim_right, List.rdropWhile_concat_neg _ _ _ (by rw [hc]; exact Bool.false_ne_true)]
    exact (List.append_nil _).symm
  | append_singleton r a ih =>
    by_cases ha : isspace a = true
    · rw [← List.append_assoc, trim_right, trim_right, List.rdropWhile_concat_pos _ _ _ ha,
        List.rdropWhile_concat_pos _ _ _ ha]
      exact ih
    · rw [← List.append_assoc, trim_right, trim_right, List.rdropWhile_concat_neg _ _ _ ha,
        List.rdropWhile_concat_neg _ _ _ ha, List.append_assoc]

theorem trim_left_blanks_append (n : ℕ) (s : List Char) : trim_left (List.replicate n ' ' ++ s) = trim_left s := by
  induction n with
  | zero => rfl
  | succ n ih =>
    rw [List.replicate_succ, List.cons_append, trim_left, List.dropWhile_cons_of_pos isspace_blank]
    exact ih

theorem trim_left_of_bare (h : Bare s) : trim_left s = s := by
  cases s with
  | nil => rfl
  | cons c s => exact List.dropWhile_cons_of_neg (by rw [h.head c rfl]; exact Bool.false_ne_true)

/-- What ends without a blank stays as it is on the right. -/
theorem trim_right_append (r : List Char) (h : Bare s) (hne : s ≠ []) : trim_right (r ++ s) = r ++ s := by
  refine List.rdropWhile_eq_self_iff.2 fun hl => ?_
  rw [List.getLast_append_of_ne_nil hl hne, h.last _ (List.getLast?_eq_some_getLast hne)]
  exact Bool.false_ne_true

theorem trim_right_of_bare (h : Bare s) : trim_right s = s := by
  by_cases hne : s = []
  · rw [hne]
    rfl
  · exact trim_right_append [] h hne

/-- **The blanks around a text go, and no others.** -/
theorem trim_blanks (h : Bare s) (a b : ℕ) : trim (List.replicate a ' ' ++ s ++ List.replicate b ' ') = s := by
  rw [trim, trim_right_append_blanks]
  by_cases hne : s = []
  · subst hne
    rw [List.append_nil, ← List.nil_append (List.replicate a ' '), trim_right_append_blanks]
    rfl
  · rw [trim_right_append _ h hne, trim_left_blanks_append, trim_left_of_bare h]

theorem trim_of_bare (h : Bare s) : trim s = s := by
  have hblanks := trim_blanks h 0 0
  rwa [List.replicate_zero, List.nil_append, List.append_nil] at hblanks

theorem bare_of_forall (h : ∀ c ∈ s, isspace c = false) : Bare s :=
  ⟨fun c hc => h c (List.mem_of_head? hc), fun c hc => h c (List.mem_of_getLast? hc)⟩

theorem length_resize (n : ℕ) (s : List Char) : (resize n s).length = n := by
  rw [resize, List.length_take, List.length_append, List.length_replicate]
  omega

theorem resize_of_le {n : ℕ} (h : s.length ≤ n) : resize n s = s ++ List.replicate (n - s.length) ' ' := by
  refine List.take_of_length_le ?_
  rw [List.length_append, List.length_replicate]
  omega

theorem resize_of_ge {n : ℕ} (h : n ≤ s.length) : resize n s = s.take n := by
  rw [resize, List.take_append_of_le_length h]

end Blanks

/-! ## A model of the casts -/

section Documented

/-- Digits, and nothing else. -/
def readNatural (s : List Char) : Option ℕ :=
  if s ≠ [] ∧ s.all Char.isDigit = true then some (Nat.ofDigitChars 10 s 0) else none

/-- Digits, after a minus sign for a negative number. -/
def readInteger : List Char → Option ℤ
  | '-' :: s => (readNatural s).map fun n : ℕ => -(n : ℤ)
  | s => (readNatural s).map fun n : ℕ => (n : ℤ)

theorem readNatural_decimal (n : ℕ) : readNatural (decimal n) = some n := by
  have hvalue : Nat.ofDigitChars 10 (decimal n) 0 = n := Nat.ofDigitChars_ten_toDigits
  rw [readNatural, hvalue, if_pos ⟨decimal_ne_nil, List.all_eq_true.2 fun c hc => isDigit_of_mem_decimal hc⟩]

theorem readInteger_decimalInt (z : ℤ) : readInteger (decimalInt z) = some z := by
  rw [decimalInt]
  by_cases hneg : z < 0
  · rw [if_pos hneg, readInteger, readNatural_decimal, Option.map_some]
    exact congrArg some (by omega)
  · rw [if_neg hneg]
    have hcast : (z.natAbs : ℤ) = z := by omega
    rw [← hcast, Int.natAbs_natCast, ← Option.map_some (f := fun n : ℕ => (n : ℤ)), ← readNatural_decimal]
    unfold readInteger
    split
    · next s heq => exact absurd (heq ▸ List.mem_cons_self) (not_mem_decimal (c := '-') (by decide))
    · rfl

/-- The casts as they are documented. -/
def documented : LexicalCast where
  int128 s := (readInteger s).filter fun z => -2 ^ 127 ≤ z ∧ z < 2 ^ 127
  integer t s := if t.bits = 8 then
    match s with
    | [c] => some (t.wrap c.toNat)
    | _ => none
  else (readInteger s).filter fun z => t.Fits z
  int128_decimal z hlow hhigh := by
    rw [readInteger_decimalInt, Option.filter_some, if_pos (decide_eq_true ⟨hlow, hhigh⟩)]
  integer_decimal t z hbits hfits := by
    rw [if_neg (by omega), readInteger_decimalInt, Option.filter_some, if_pos (decide_eq_true hfits)]
  integer_char t s hbits := if_pos hbits

end Documented

end Redux.Util.Text
