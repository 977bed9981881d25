import Redux.File.AnaRun

/-!
# File.AnaToken — a block as a list of runs and stretches

The abstract form of a run-length coded block: `tokenize` cuts the differences of a block into runs
and literal stretches the way the encoder does, without buffers and counters, and `tokensWord` is
what a list of tokens looks like in the stream.  `crunchLine_spec` says that the encoder's loop
appends exactly these words.
-/

namespace Redux.Ana

open Redux.Lib

/-! ## Tokens -/

/-- A run of one difference, or a stretch of differences. -/
inductive Token
  | run (n : ℕ) (y : ℤ)
  | literal (ds : List ℤ)

/-- The differences a token stands for. -/
def Token.diffs : Token → List ℤ
  | .run n y => List.replicate n y
  | .literal ds => ds

/-- The lengths that have a count byte. -/
def Token.Valid : Token → Prop
  | .run n _ => 2 ≤ n ∧ n ≤ 128
  | .literal ds => 1 ≤ ds.length ∧ ds.length ≤ 127

theorem Token.Valid.pos {t : Token} (h : t.Valid) : 0 < t.diffs.length := by
  cases t with
  | run n y => simpa [Token.diffs] using Nat.lt_of_lt_of_le (by decide) h.1
  | literal ds => exact h.1

/-- Runs of at most 128; 129 is not split into 128 and 1. -/
def runTokens (n : ℕ) (y : ℤ) : List Token :=
  if n > 128 then
    if n = 129 then .run 127 y :: runTokens (n - 127) y else .run 128 y :: runTokens (n - 128) y
  else [.run n y]
termination_by n

/-- A stretch that is not empty. -/
def flush (lits : List ℤ) : List Token := if lits = [] then [] else [.literal lits]

/-- How many of the next differences are equal to `y`. -/
def sameAs (y : ℤ) : List ℤ → ℕ
  | [] => 0
  | z :: ds => if y = z then sameAs y ds + 1 else 0

theorem sameAs_le (y : ℤ) : ∀ ds : List ℤ, sameAs y ds ≤ ds.length
  | [] => Nat.le_refl 0
  | z :: ds => by
    rw [sameAs, List.length_cons]
    have := sameAs_le y ds
    split_ifs <;> omega

theorem sameAs_split (y : ℤ) : ∀ ds : List ℤ,
    List.replicate (sameAs y ds) y ++ ds.drop (sameAs y ds) = ds
  | [] => rfl
  | z :: ds => by
    rw [sameAs]
    split_ifs with h
    · rw [List.replicate_succ, List.drop_succ_cons, List.cons_append, sameAs_split y ds, h]
    · rfl

theorem length_drop_lt (y : ℤ) (ds : List ℤ) (n : ℕ) : (ds.drop n).length < (y :: ds).length := by
  rw [List.length_drop, List.length_cons]
  omega

theorem length_lt_cons (y : ℤ) (ds : List ℤ) : ds.length < (y :: ds).length := Nat.lt_succ_self _

/-- The tokens of a block whose last differences `lits` are in an open stretch: runs from a length
of 4 on, stretches up to 127. -/
def tokenize (lits : List ℤ) : List ℤ → List Token
  | [] => flush lits
  | y :: ds =>
    if 4 ≤ 1 + sameAs y ds then
      flush lits ++ runTokens (1 + sameAs y ds) y ++ tokenize [] (ds.drop (sameAs y ds))
    else if lits.length = 127 then flush lits ++ tokenize [y] ds
    else tokenize (lits ++ [y]) ds
termination_by ds => ds.length
decreasing_by
  · exact length_drop_lt y ds _
  · exact length_lt_cons y ds
  · exact length_lt_cons y ds

section Tokens

variable {y : ℤ} {n : ℕ} {lits ds : List ℤ}

theorem runTokens_diffs : (runTokens n y).flatMap Token.diffs = List.replicate n y := by
  fun_induction runTokens n y with
  | case1 h ih => rw [List.flatMap_cons, ih, Token.diffs, List.replicate_append_replicate]
  | case2 n h h129 ih =>
    rw [List.flatMap_cons, ih, Token.diffs, List.replicate_append_replicate,
      show 128 + (n - 128) = n by omega]
  | case3 n h => simp [Token.diffs]

theorem runTokens_valid (h : 2 ≤ n) : ∀ t ∈ runTokens n y, t.Valid := by
  fun_induction runTokens n y with
  | case1 h1 ih =>
    intro t ht
    rcases List.mem_cons.mp ht with rfl | ht
    · exact ⟨by decide, by decide⟩
    · exact ih (by omega) t ht
  | case2 n h1 h129 ih =>
    intro t ht
    rcases List.mem_cons.mp ht with rfl | ht
    · exact ⟨by decide, by decide⟩
    · exact ih (by omega) t ht
  | case3 n h1 =>
    intro t ht
    obtain rfl : t = .run n y := by simpa using ht
    exact ⟨h, by omega⟩

@[simp] theorem flush_diffs : (flush lits).flatMap Token.diffs = lits := by
  unfold flush
  split_ifs with h <;> simp [Token.diffs, h]

theorem flush_valid (h : lits.length ≤ 127) : ∀ t ∈ flush lits, t.Valid := by
  unfold flush
  split_ifs with h0
  · simp
  · intro t ht
    obtain rfl : t = .literal lits := by simpa using ht
    exact ⟨List.length_pos_iff.mpr h0, h⟩

/-- Nothing is lost or reordered. -/
theorem tokenize_diffs : (tokenize lits ds).flatMap Token.diffs = lits ++ ds := by
  fun_induction tokenize lits ds with
  | case1 lits => simp
  | case2 lits y ds h ih =>
    rw [List.flatMap_append, List.flatMap_append, ih, flush_diffs, runTokens_diffs, Nat.add_comm,
      List.replicate_succ, List.nil_append, List.append_assoc, List.cons_append, sameAs_split]
  | case3 lits y ds h h127 ih => rw [List.flatMap_append, ih, flush_diffs]; simp
  | case4 lits y ds h h127 ih => rw [ih]; simp

/-- Every token has a count byte. -/
theorem tokenize_valid (hl : lits.length ≤ 127) : ∀ t ∈ tokenize lits ds, t.Valid := by
  fun_induction tokenize lits ds with
  | case1 lits => exact flush_valid hl
  | case2 lits y ds h ih =>
    intro t ht
    rw [List.mem_append, List.mem_append] at ht
    rcases ht with (ht | ht) | ht
    · exact flush_valid hl t ht
    · exact runTokens_valid (by omega) t ht
    · exact ih (by simp) t ht
  | case3 lits y ds h h127 ih =>
    intro t ht
    rcases List.mem_append.mp ht with ht | ht
    · exact flush_valid hl t ht
    · exact ih (by simp) t ht
  | case4 lits y ds h h127 ih => exact ih (by simp; omega)

end Tokens

/-! ## Tokens in the stream -/

section Words

variable (c : Codec) (slice : ℕ)

/-- A count byte and two bytes of difference, or a count byte and the padded code words. -/
def Token.word : Token → List Bool
  | .run n y => lowBits 8 (257 - n) ++ lowBits 16 (y % 2 ^ 32).toNat
  | .literal ds =>
    lowBits 8 ds.length ++ (diffsWord c slice ds ++ padding (diffsWord c slice ds).length)

def tokensWord (ts : List Token) : List Bool := ts.flatMap (Token.word c slice)

variable {c slice}

@[simp] theorem tokensWord_nil : tokensWord c slice [] = [] := rfl

@[simp] theorem tokensWord_append {ts us : List Token} :
    tokensWord c slice (ts ++ us) = tokensWord c slice ts ++ tokensWord c slice us := by
  simp [tokensWord]

@[simp] theorem tokensWord_cons {t : Token} {ts : List Token} :
    tokensWord c slice (t :: ts) = t.word c slice ++ tokensWord c slice ts := by
  simp [tokensWord]

/-- Tokens are whole bytes. -/
theorem Token.word_bytes (t : Token) : (t.word c slice).length % 8 = 0 := by
  cases t with
  | run n y => simp [Token.word]
  | literal ds =>
    simp only [Token.word, List.length_append, lowBits_length, padding_length]
    omega

theorem tokensWord_bytes (ts : List Token) : (tokensWord c slice ts).length % 8 = 0 := by
  induction ts with
  | nil => simp
  | cons t ts ih =>
    have := @Token.word_bytes c slice t
    rw [tokensWord_cons, List.length_append]
    omega

theorem flush_word_length {lits : List ℤ} (h : lits ≠ []) :
    (tokensWord c slice (flush lits)).length =
      8 + 8 * (((diffsWord c slice lits).length + 7) / 8) := by
  simp only [flush, if_neg h, tokensWord_cons, tokensWord_nil, Token.word, List.length_append,
    lowBits_length, padding_length, List.length_nil]
  omega

/-- An open stretch ends up in the stream. -/
theorem tokenize_length {lits ds : List ℤ} (h : lits ≠ []) :
    8 + (diffsWord c slice lits).length ≤ (tokensWord c slice (tokenize lits ds)).length := by
  fun_induction tokenize lits ds with
  | case1 lits => rw [flush_word_length h]; omega
  | case2 lits y ds hr ih =>
    simp only [tokensWord_append, List.length_append, flush_word_length h]
    omega
  | case3 lits y ds hr h127 ih =>
    simp only [tokensWord_append, List.length_append, flush_word_length h]
    omega
  | case4 lits y ds hr h127 ih =>
    have := ih (by simp)
    rw [diffsWord_append, List.length_append] at this
    omega

end Words

end Redux.Ana
