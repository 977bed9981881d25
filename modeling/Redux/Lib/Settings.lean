import Mathlib.Data.BitVec
import Mathlib.Tactic.SplitIfs

/-!
# Lib.Settings — values that are written where they differ from their defaults

A setting has a text only if it is not the same as its default; where it has none, the reader falls back.
A setting comes back exactly if the fallback is the default where the two are the same, and its text is
read as what it was where they are not.  Flags that share a mask are settings of their own.
-/

namespace Redux.Lib

/-! ## One setting -/

section Setting

variable {α T : Type*} {read : T → Option α} {same : Bool} {text : T} {fallback v : α}

/-- The text of a value, unless it is the same as its default. -/
def putUnless (same : Bool) (text : T) : Option T := if same then none else some text

/-- What is read of a text, or what to fall back to where there is none. -/
def getOr (read : T → Option α) (text : Option T) (fallback : α) : Option α := text.elim (some fallback) read

/-- As `getOr`, and a text that cannot be read is as good as none. -/
def getElse (read : T → Option α) (text : Option T) (fallback : α) : α := (text.bind read).getD fallback

theorem getOr_putUnless_iff : getOr read (putUnless same text) fallback = some v ↔
    (same = true → fallback = v) ∧ (same = false → read text = some v) := by
  cases same with
  | true => exact ⟨fun h => ⟨fun _ => Option.some.inj h, nofun⟩, fun h => congrArg some (h.1 rfl)⟩
  | false => exact ⟨fun h => ⟨nofun, fun _ => h⟩, fun h => h.2 rfl⟩

theorem getElse_putUnless_iff (hread : read text = some v) :
    getElse read (putUnless same text) fallback = v ↔ (same = true → fallback = v) := by
  cases same with
  | true => exact ⟨fun h _ => h, fun h => h rfl⟩
  | false => exact ⟨fun _ => nofun, fun _ => by simp [getElse, putUnless, hread]⟩

variable [BEq α] [LawfulBEq α] {put : α → T} {d : α}

/-- **A setting whose text is always read comes back from its default.** -/
theorem getElse_put (hread : read (put v) = some v) : getElse read (putUnless (v == d) (put v)) d = v :=
  (getElse_putUnless_iff hread).2 fun h => (eq_of_beq h).symm

/-- **A setting comes back from its default exactly if its text is read where it differs.** -/
theorem getOr_put_iff : getOr read (putUnless (v == d) text) d = some v ↔ (v ≠ d → read text = some v) := by
  rw [getOr_putUnless_iff, beq_eq_false_iff_ne]
  exact ⟨fun h => h.2, fun h => ⟨fun hsame => (eq_of_beq hsame).symm, h⟩⟩

end Setting

/-! ## Flags -/

section Flags

variable {κ : Type*} {w : ℕ} {bit : κ → BitVec w} {set set' : κ → Bool} {flags : List κ} {mask : BitVec w} {k : κ}

/-- Every flag that is set is added to a mask, in order. -/
def setFlags (bit : κ → BitVec w) (set : κ → Bool) : List κ → BitVec w → BitVec w
  | [], mask => mask
  | k :: flags, mask => setFlags bit set flags (if set k then mask ||| bit k else mask)

/-- Whether a mask has a flag. -/
def hasFlag (mask bit : BitVec w) : Bool := mask &&& bit != 0#w

/-- No flag is empty, and no two share a bit. -/
def Separate (bit : κ → BitVec w) (flags : List κ) : Prop :=
  (∀ k ∈ flags, bit k ≠ 0#w) ∧ flags.Pairwise fun a b => bit a &&& bit b = 0#w

instance (bit : κ → BitVec w) (flags : List κ) : Decidable (Separate bit flags) := inferInstanceAs (Decidable (_ ∧ _))

theorem Separate.tail (h : Separate bit (k :: flags)) : Separate bit flags :=
  ⟨fun k' hk' => h.1 k' (List.mem_cons_of_mem k hk'), (List.pairwise_cons.1 h.2).2⟩

/-- Flags beside a bit leave it as it is. -/
theorem setFlags_and_of_disjoint {b : BitVec w} (h : ∀ k ∈ flags, bit k &&& b = 0#w) :
    setFlags bit set flags mask &&& b = mask &&& b := by
  induction flags generalizing mask with
  | nil => rfl
  | cons k flags ih =>
    obtain ⟨hk, hflags⟩ := List.forall_mem_cons.1 h
    rw [setFlags, ih hflags]
    split_ifs
    · rw [BitVec.and_or_distrib_right, hk, BitVec.or_zero]
    · rfl

/-- **The mask has exactly the flags that are set.** -/
theorem hasFlag_setFlags (h : Separate bit flags) (hk : k ∈ flags) (hmask : mask &&& bit k = 0#w) :
    hasFlag (setFlags bit set flags mask) (bit k) = set k := by
  induction flags generalizing mask with
  | nil => exact absurd hk List.not_mem_nil
  | cons a flags ih =>
    obtain ⟨ha, -⟩ := List.pairwise_cons.1 h.2
    rw [setFlags]
    rcases List.mem_cons.1 hk with rfl | hmem
    · rw [hasFlag, setFlags_and_of_disjoint fun b hb => by rw [BitVec.and_comm, ha b hb]]
      cases hset : set k with
      | true =>
        rw [if_pos rfl, BitVec.and_or_distrib_right, hmask, BitVec.and_self, BitVec.zero_or, bne_iff_ne]
        exact h.1 k hk
      | false =>
        rw [if_neg Bool.false_ne_true, hmask]
        exact bne_self_eq_false _
    · refine ih h.tail hmem ?_
      split_ifs
      · rw [BitVec.and_or_distrib_right, hmask, ha k hmem, BitVec.or_zero]
      · exact hmask

theorem setFlags_congr (h : ∀ k ∈ flags, set k = set' k) : setFlags bit set flags mask =
    setFlags bit set' flags mask := by
  induction flags generalizing mask with
  | nil => rfl
  | cons k flags ih =>
    obtain ⟨hk, hflags⟩ := List.forall_mem_cons.1 h
    rw [setFlags, setFlags, hk, ih hflags]

/-- **Clearing a flag is as good as not setting it.** -/
theorem setFlags_and_not [DecidableEq κ] (h : ∀ a ∈ flags, a ≠ k → bit a &&& bit k = 0#w) :
    setFlags bit set flags mask &&& ~~~bit k = setFlags bit (fun a => set a && a != k) flags (mask &&& ~~~bit k) := by
  induction flags generalizing mask with
  | nil => rfl
  | cons a flags ih =>
    obtain ⟨ha, hflags⟩ := List.forall_mem_cons.1 h
    rw [setFlags, setFlags, ih hflags]
    refine congrArg (setFlags bit _ flags) ?_
    by_cases hak : a = k
    · subst hak
      rw [bne_self_eq_false, Bool.and_false, if_neg Bool.false_ne_true]
      split_ifs
      · rw [BitVec.and_or_distrib_right, BitVec.and_not_self]
        exact BitVec.or_zero
      · rfl
    · rw [bne_iff_ne.2 hak, Bool.and_true]
      -- what a flag has outside another one is all of it
      have houtside : bit a &&& ~~~bit k = bit a := by
        have hsplit := @BitVec.and_or_distrib_left w (bit a) (bit k) (~~~bit k)
        rw [ha hak, BitVec.or_not_self, BitVec.and_allOnes] at hsplit
        exact (hsplit.trans BitVec.zero_or).symm
      split_ifs
      · rw [BitVec.and_or_distrib_right, houtside]
      · rfl

/-- A single bit of a difference says whether the two have it both or neither. -/
theorem hasFlag_xor {x y b : BitVec w} {i : ℕ} (hb : b = BitVec.twoPow w i) :
    hasFlag (x ^^^ y) b = (hasFlag x b ^^ hasFlag y b) := by
  have hbit : ∀ z : BitVec w, hasFlag z b = (decide (i < w) && z.getLsbD i) := by
    intro z
    rw [hasFlag, hb, BitVec.and_twoPow]
    cases hz : z.getLsbD i with
    | false => rw [if_neg Bool.false_ne_true, Bool.and_false]; exact bne_self_eq_false _
    | true =>
      have hlt : i < w := BitVec.lt_of_getLsbD hz
      rw [if_pos rfl, decide_eq_true hlt, Bool.and_self, bne_iff_ne]
      intro hzero
      have hself := congrArg (fun v => v.getLsbD i) hzero
      simp [hlt] at hself
  rw [hbit, hbit, hbit, BitVec.getLsbD_xor]
  cases decide (i < w) <;> simp

end Flags

end Redux.Lib
