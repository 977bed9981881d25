import Mathlib.Logic.Function.Basic
import Mathlib.Data.Nat.Bitwise
import Mathlib.Data.List.Basic

/-!
# Lib.BitStream — code words laid out in a bit stream

A stream is the bit at each position.  `Holds f p bs` says that the code word `bs` lies at position
`p`; `Appends f f' p bs` says that a writer which had filled `f` up to `p` has added `bs`, left what
was written before alone and kept the rest of the last byte zero.  Writers compose by
`Appends.trans`, readers take a stream apart by `holds_append`.  The byte memory below it is read
least significant bit first (`lsb`) or most significant bit first (`msb`).
-/

namespace Redux.Lib

/-! ## Streams and code words -/

/-- The bit at every position. -/
abbrev Bits := ℕ → Bool

/-- The code word `bs` lies at position `p`. -/
def Holds (f : Bits) (p : ℕ) (bs : List Bool) : Prop :=
  ∀ i (h : i < bs.length), f (p + i) = bs[i]

/-- The byte that contains position `p` is zero from `p` on (nothing is asked at a byte boundary). -/
def Clean (f : Bits) (p : ℕ) : Prop :=
  ∀ k, p ≤ k → k < 8 * ((p + 7) / 8) → f k = false

/-- `f'` is `f` with the code word `bs` added at the end position `p`. -/
structure Appends (f f' : Bits) (p : ℕ) (bs : List Bool) : Prop where
  before : ∀ k < p, f' k = f k
  word : Holds f' p bs
  clean : Clean f' (p + bs.length)

section Streams

variable {f f' f'' : Bits} {p : ℕ} {as bs : List Bool}

@[simp] theorem holds_nil : Holds f p [] := fun i h => absurd h (Nat.not_lt_zero i)

/-- What stands at a place of a function of the positions, piece by piece. -/
theorem forall_getElem_append {β : Type*} {f : ℕ → β} {as bs : List β} :
    (∀ i (h : i < (as ++ bs).length), f (p + i) = (as ++ bs)[i]) ↔
      (∀ i (h : i < as.length), f (p + i) = as[i]) ∧ ∀ i (h : i < bs.length), f (p + as.length + i) = bs[i] := by
  constructor
  · intro h
    refine ⟨fun i hi => ?_, fun i hi => ?_⟩
    · rw [h i (by simp; omega), List.getElem_append_left hi]
    · rw [Nat.add_assoc, h (as.length + i) (by simp; omega), List.getElem_append_right (by omega)]
      simp
  · rintro ⟨ha, hb⟩ i hi
    by_cases hlt : i < as.length
    · rw [ha i hlt, List.getElem_append_left hlt]
    · have hle : as.length ≤ i := Nat.le_of_not_lt hlt
      have hi' : i - as.length < bs.length := by simp at hi; omega
      rw [show p + i = p + as.length + (i - as.length) by omega, hb _ hi',
        List.getElem_append_right hle]

theorem holds_append : Holds f p (as ++ bs) ↔ Holds f p as ∧ Holds f (p + as.length) bs := forall_getElem_append

theorem holds_cons {b : Bool} : Holds f p (b :: bs) ↔ f p = b ∧ Holds f (p + 1) bs := by
  rw [← List.singleton_append, holds_append]
  refine and_congr ⟨fun h => h 0 (by simp), fun h i hi => ?_⟩ (by simp)
  obtain rfl : i = 0 := by simpa using hi
  simpa using h

theorem Holds.congr (h : Holds f p bs) (he : ∀ k, p ≤ k → k < p + bs.length → f' k = f k) :
    Holds f' p bs := fun i hi => by rw [he _ (by omega) (by omega), h i hi]

theorem clean_of_dvd (h : p % 8 = 0) : Clean f p := fun k h₁ h₂ => by omega

theorem Appends.refl (h : Clean f p) : Appends f f p [] :=
  ⟨fun _ _ => rfl, holds_nil, by simpa using h⟩

/-- **Writers compose**: a second word goes behind the first. -/
theorem Appends.trans (h₁ : Appends f f' p as) (h₂ : Appends f' f'' (p + as.length) bs) :
    Appends f f'' p (as ++ bs) := by
  refine ⟨fun k hk => ?_, holds_append.mpr ⟨?_, h₂.word⟩, ?_⟩
  · rw [h₂.before k (by omega), h₁.before k hk]
  · exact h₁.word.congr fun k _ hk => h₂.before k hk
  · rw [List.length_append, ← Nat.add_assoc]
    exact h₂.clean

/-- Only what lies before the added word matters of the stream it is added to. -/
theorem Appends.of_before (h : Appends f' f'' p bs) (he : ∀ k < p, f' k = f k) :
    Appends f f'' p bs :=
  ⟨fun k hk => (h.before k hk).trans (he k hk), h.word, h.clean⟩

/-- The zero bits up to the next byte boundary. -/
def padding (p : ℕ) : List Bool := List.replicate (8 * ((p + 7) / 8) - p) false

@[simp] theorem padding_length (p : ℕ) : (padding p).length = 8 * ((p + 7) / 8) - p := by
  simp [padding]

/-- A clean byte already holds its padding. -/
theorem Appends.pad (h : Appends f f' p bs) :
    Appends f f' p (bs ++ padding (p + bs.length)) := by
  refine h.trans ⟨fun _ _ => rfl, fun i hi => ?_, clean_of_dvd ?_⟩
  · rw [padding_length] at hi
    rw [h.clean _ (by omega) (by omega)]
    simp [padding]
  · rw [padding_length]; omega

end Streams

/-! ## Fixed-width and unary words -/

/-- The `m` low bits of `v`, least significant first. -/
def lowBits (m v : ℕ) : List Bool := (List.range m).map v.testBit

/-- `r` zeros and a closing one. -/
def unary (r : ℕ) : List Bool := List.replicate r false ++ [true]

@[simp] theorem lowBits_length (m v : ℕ) : (lowBits m v).length = m := by simp [lowBits]

@[simp] theorem unary_length (r : ℕ) : (unary r).length = r + 1 := by simp [unary]

theorem lowBits_getElem {m v i : ℕ} (h : i < (lowBits m v).length) :
    (lowBits m v)[i] = v.testBit i := by simp [lowBits]

theorem holds_lowBits {f : Bits} {p m v : ℕ} :
    Holds f p (lowBits m v) ↔ ∀ i < m, f (p + i) = v.testBit i := by
  constructor
  · intro h i hi
    rw [h i (by simpa using hi), lowBits_getElem]
  · intro h i hi
    rw [lowBits_getElem, h i (by simpa using hi)]

theorem holds_unary {f : Bits} {p r : ℕ} :
    Holds f p (unary r) ↔ (∀ i < r, f (p + i) = false) ∧ f (p + r) = true := by
  unfold unary
  rw [holds_append, holds_cons, List.length_replicate]
  refine and_congr ⟨fun h i hi => ?_, fun h i hi => ?_⟩ (by simp)
  · rw [h i (by simpa using hi), List.getElem_replicate]
  · rw [List.getElem_replicate]
    exact h i (by simpa using hi)

/-- A number below `2 ^ m` is its `m` low bits. -/
theorem eq_of_lowBits {m u v : ℕ} (hu : u < 2 ^ m) (hv : v < 2 ^ m)
    (h : ∀ i < m, u.testBit i = v.testBit i) : u = v := by
  refine Nat.eq_of_testBit_eq fun i => ?_
  by_cases hi : i < m
  · exact h i hi
  · have hpow : 2 ^ m ≤ 2 ^ i := Nat.pow_le_pow_right (by decide) (by omega)
    rw [Nat.testBit_lt_two_pow (by omega), Nat.testBit_lt_two_pow (by omega)]

end Redux.Lib
