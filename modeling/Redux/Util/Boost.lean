import Mathlib.Algebra.Order.Ring.Nat
import Mathlib.Data.Int.Notation
import Mathlib.Data.List.Basic
import Mathlib.Tactic.SplitIfs

/-!
# Util.Boost — what the translators use of Boost

Boost is not part of the program: `Boost w` holds the functions that the translators call, for an
unsigned type of `w` bits, with what is documented of them.  A number read with a minus sign is, as
with `scanf`, the negative one in the arithmetic of its type.  `scanf` is a model of it.
-/

namespace Redux.Util

/-- `<<` of an unsigned number. -/
def decimal (n : ℕ) : List Char := Nat.toDigits 10 n

/-- `<<` of an `int`. -/
def decimalInt (n : ℤ) : List Char := if n < 0 then '-' :: decimal n.natAbs else decimal n.natAbs

/-- `boost::split`, `boost::remove_erase_if` and `boost::lexical_cast<T>`, which may throw. -/
structure Boost (w : ℕ) where
  split : List Char → (Char → Bool) → List (List Char)
  remove_erase_if : List Char → (Char → Bool) → List Char
  lexical_cast : List Char → Option (BitVec w)
  split_eq : ∀ s p, split s p = s.splitOnP p
  remove_eq : ∀ s p, remove_erase_if s p = s.filter fun c => !p c
  cast_decimal : ∀ n < 2 ^ w, lexical_cast (decimal n) = some (BitVec.ofNat w n)
  cast_minus : ∀ n < 2 ^ w, lexical_cast ('-' :: decimal n) = some (-BitVec.ofNat w n)

section Decimals

variable {n : ℕ} {c : Char}

theorem isDigit_of_mem_decimal (h : c ∈ decimal n) : c.isDigit = true :=
  Nat.isDigit_of_mem_toDigits (by decide) (by decide) h

/-- A character that is no digit is not in a number. -/
theorem not_mem_decimal (hc : c.isDigit = false) : c ∉ decimal n := fun h => by
  rw [isDigit_of_mem_decimal h] at hc
  cases hc

theorem decimal_ne_nil : decimal n ≠ [] := Nat.toDigits_ne_nil

theorem mem_decimalInt {n : ℤ} (h : c ∈ decimalInt n) : c = '-' ∨ c.isDigit = true := by
  unfold decimalInt at h
  split_ifs at h
  · rcases List.mem_cons.1 h with h | h
    · exact .inl h
    · exact .inr (isDigit_of_mem_decimal h)
  · exact .inr (isDigit_of_mem_decimal h)

end Decimals

/-! ## Splitting -/

/-- Joined with a separator that occurs in none of them, the tokens are split again. -/
theorem splitOnP_intercalate {p : Char → Bool} {sep : Char} (hsep : p sep = true) :
    ∀ {tokens : List (List Char)}, tokens ≠ [] → (∀ t ∈ tokens, ∀ c ∈ t, p c = false) →
      ([sep].intercalate tokens).splitOnP p = tokens
  | [], h, _ => absurd rfl h
  | [t], _, ht => by
    rw [List.intercalate_singleton]
    exact List.splitOnP_eq_singleton (ht t List.mem_cons_self)
  | t :: t' :: tokens, _, ht => by
    have ih := @splitOnP_intercalate p sep hsep (t' :: tokens) (List.cons_ne_nil _ _)
      fun u hu => ht u (List.mem_cons_of_mem t hu)
    rw [List.intercalate_cons_cons, List.append_assoc, List.singleton_append,
      List.splitOnP_append_cons_of_forall_mem (ht t List.mem_cons_self) sep hsep, ih]

/-! ## A model -/

/-- The digits of a number that the type holds. -/
def scanDigits (w : ℕ) (s : List Char) : Option (BitVec w) :=
  if s ≠ [] ∧ s.all Char.isDigit = true ∧ Nat.ofDigitChars 10 s 0 < 2 ^ w then
    some (BitVec.ofNat w (Nat.ofDigitChars 10 s 0))
  else none

theorem scanDigits_decimal {w n : ℕ} (h : n < 2 ^ w) : scanDigits w (decimal n) = some (BitVec.ofNat w n) := by
  have hvalue : Nat.ofDigitChars 10 (decimal n) 0 = n := Nat.ofDigitChars_ten_toDigits
  rw [scanDigits, hvalue, if_pos ⟨decimal_ne_nil, List.all_eq_true.2 fun c hc => isDigit_of_mem_decimal hc, h⟩]

/-- Numbers with an optional sign, as `scanf` reads them. -/
def scanNumber (w : ℕ) : List Char → Option (BitVec w)
  | '-' :: s => (scanDigits w s).map fun v => -v
  | '+' :: s => scanDigits w s
  | s => scanDigits w s

theorem scanNumber_decimal {w n : ℕ} (h : n < 2 ^ w) :
    scanNumber w (decimal n) = some (BitVec.ofNat w n) := by
  rw [← scanDigits_decimal h]
  unfold scanNumber
  split
  · next s heq => exact absurd (heq ▸ List.mem_cons_self) (not_mem_decimal (c := '-') (by decide))
  · next s heq => exact absurd (heq ▸ List.mem_cons_self) (not_mem_decimal (c := '+') (by decide))
  · rfl

theorem scanNumber_minus {w n : ℕ} (h : n < 2 ^ w) :
    scanNumber w ('-' :: decimal n) = some (-BitVec.ofNat w n) := by
  rw [scanNumber, scanDigits_decimal h]
  rfl

/-- Boost as it is documented. -/
def scanf (w : ℕ) : Boost w where
  split s p := s.splitOnP p
  remove_erase_if s p := s.filter fun c => !p c
  lexical_cast := scanNumber w
  split_eq _ _ := rfl
  remove_eq _ _ := rfl
  cast_decimal _ h := scanNumber_decimal h
  cast_minus _ h := scanNumber_minus h

end Redux.Util
