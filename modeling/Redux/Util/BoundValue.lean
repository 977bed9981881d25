import Redux.Lib.Run
import Redux.Util.Restrict

/-!
# Util.BoundValue — numbers that are kept between two bounds

`BoundValue<T>` of an integer type `T`, with the default trimming (`TRUNCATE`).  The result of an operation is
computed in the type that `T` is promoted to, stored in a `T` and only then trimmed.  The value is always
between the bounds (`always_inBounds`), but a result that does not fit in `T` may come back on the wrong side
of them (`saturates_iff`).
-/

namespace Redux.Util

open Redux.Lib

/-! ## Model -/

theorem restrict_mem {P : ℤ → Prop} {v mx mn : ℤ} (hv : P v) (hmx : P mx) (hmn : P mn) : P (restrict v mx mn) := by
  unfold restrict ordered
  split_ifs
  · dsimp only
    split_ifs <;> assumption
  · dsimp only
    split_ifs <;> assumption

structure BoundValue (t : IntType) where
  val_ : t.Value
  minVal_ : t.Value
  maxVal_ : t.Value
  le : minVal_.1 ≤ maxVal_.1

namespace BoundValue

variable {t : IntType}

/-- `trim_( val, minVal_, maxVal_ )`, where `trim_` is `restrict`. -/
def assignWithRestriction (b : BoundValue t) (val : t.Value) : BoundValue t :=
  { b with val_ := ⟨restrict val b.minVal_ b.maxVal_, restrict_mem val.2 b.minVal_.2 b.maxVal_.2⟩ }

/-- `BoundValue( val, minVal, maxVal )`. -/
def construct (val minVal maxVal : t.Value) : BoundValue t :=
  if h : minVal.1 > maxVal.1 then assignWithRestriction ⟨val, maxVal, minVal, h.le⟩ val
  else assignWithRestriction ⟨val, minVal, maxVal, not_lt.1 h⟩ val

/-- `=`, `+=`, `-=`, `*=`, `/=`, `++` and `--`, before or after the value is read. -/
inductive Op (t : IntType)
  | assign (val : t.Value)
  | add (val : t.Value)
  | sub (val : t.Value)
  | mul (val : t.Value)
  | div (val : t.Value) (ne : val.1 ≠ 0)
  | inc
  | dec

/-- The result in the integers; a quotient is cut off, as in C. -/
def Op.exact : Op t → ℤ → ℤ
  | .assign val, _ => val
  | .add val, x => x + val
  | .sub val, x => x - val
  | .mul val, x => x * val
  | .div val _, x => x.tdiv val
  | .inc, x => x + 1
  | .dec, x => x - 1

/-- The result as a `T`; `none` if it is undefined. -/
def Op.result (x : t.Value) : Op t → Option t.Value
  | .assign val => some val
  | op => (t.promoted.arith (op.exact x)).map t.cast

/-- An operation. -/
def step (b : BoundValue t) (op : Op t) : Option (BoundValue t) := (op.result b.val_).map b.assignWithRestriction

/-! ## What it is for -/

def InBounds (b : BoundValue t) : Prop := b.minVal_.1 ≤ b.val_ ∧ b.val_.1 ≤ b.maxVal_

/-- The nearest number between two bounds. -/
def clamp (lo hi x : ℤ) : ℤ := max lo (min hi x)

/-- The operation has a result, which is the exact one between the bounds, and these stay. -/
structure Saturated (b : BoundValue t) (op : Op t) (b' : BoundValue t) : Prop where
  step : b.step op = some b'
  min_eq : b'.minVal_ = b.minVal_
  max_eq : b'.maxVal_ = b.maxVal_
  val_eq : b'.val_.1 = clamp b.minVal_ b.maxVal_ (op.exact b.val_)

/-- In a run the value is between the bounds all the time, and every operation saturates. -/
def Saturates : BoundValue t → List (Op t) → Prop
  | b, [] => b.InBounds
  | b, op :: ops => b.InBounds ∧ ∃ b', Saturated b op b' ∧ Saturates b' ops

/-- The exact result `r` fits in `T`; or it has a residue in `T`, which is beyond the same bound. -/
def Returns (t : IntType) (lo hi r : ℤ) : Prop :=
  t.Fits r ∨ ((t.promoted.Fits r ∨ t.promoted.signed = false) ∧
    (lo = hi ∨ (t.highest < r ∧ hi ≤ t.wrap r) ∨ (r < t.lowest ∧ t.wrap r ≤ lo)))

/-- All results of the run that is exact and clamped return to the side of the bounds that they are on. -/
def Return (lo hi : ℤ) : ℤ → List (Op t) → Prop
  | _, [] => True
  | x, op :: ops => Returns t lo hi (op.exact x) ∧ Return lo hi (clamp lo hi (op.exact x)) ops

/-! ## One operation -/

section Step

variable {b b' : BoundValue t} {op : Op t} {lo hi r : ℤ}

theorem clamp_mem (h : lo ≤ hi) (x : ℤ) : lo ≤ clamp lo hi x ∧ clamp lo hi x ≤ hi := by
  unfold clamp
  omega

/-- The bounds are passed in the wrong order, which `restrict` puts right. -/
theorem restrict_eq (h : lo ≤ hi) (x : ℤ) : restrict x lo hi = clamp lo hi x := by
  unfold restrict ordered clamp
  by_cases hlt : hi > lo
  · rw [if_pos hlt]
    dsimp only
    split_ifs
    · omega
    · omega
    · omega
  · rw [if_neg hlt]
    dsimp only
    split_ifs
    · omega
    · omega
    · omega

theorem val_assign (val : t.Value) : (b.assignWithRestriction val).val_.1 = clamp b.minVal_ b.maxVal_ val :=
  restrict_eq b.le val

theorem inBounds_assign (val : t.Value) : (b.assignWithRestriction val).InBounds := by
  rw [InBounds, val_assign]
  exact clamp_mem b.le val

theorem inBounds_construct (val minVal maxVal : t.Value) : (construct val minVal maxVal).InBounds := by
  unfold construct
  split_ifs
  · exact inBounds_assign val
  · exact inBounds_assign val

/-- **The value is between the bounds whatever is computed.** -/
theorem always_inBounds (val minVal maxVal : t.Value) (ops : List (Op t)) :
    Always step InBounds (construct val minVal maxVal) ops := by
  have hstep : ∀ (b : BoundValue t) op b', b.InBounds → True → b.step op = some b' → b'.InBounds := by
    intro b op b' _ _ hs
    obtain ⟨val, -, rfl⟩ := Option.map_eq_some_iff.1 hs
    exact inBounds_assign val
  refine always_of_each hstep (inBounds_construct val minVal maxVal) ?_
  generalize construct val minVal maxVal = b
  induction ops generalizing b with
  | nil => trivial
  | cons op ops ih => exact fun b' _ => ⟨trivial, ih b'⟩

/-- What an operation is computed to be. -/
theorem result_eq (op : Op t) (x : t.Value) : op.result x =
    if t.promoted.Fits (op.exact x) ∨ t.promoted.signed = false then some (t.cast (op.exact x)) else none := by
  cases op with
  | assign val =>
    rw [if_pos (.inl val.2.promoted)]
    exact congrArg some (IntType.cast_value val).symm
  | add val => exact t.arith_cast _
  | sub val => exact t.arith_cast _
  | mul val => exact t.arith_cast _
  | div val ne => exact t.arith_cast _
  | inc => exact t.arith_cast _
  | dec => exact t.arith_cast _

/-- The residue ends up where the number itself does. -/
theorem clamp_wrap_iff (hle : lo ≤ hi) (hlo : t.lowest ≤ lo) (hhi : hi ≤ t.highest) :
    clamp lo hi (t.wrap r) = clamp lo hi r ↔
      t.Fits r ∨ lo = hi ∨ (t.highest < r ∧ hi ≤ t.wrap r) ∨ (r < t.lowest ∧ t.wrap r ≤ lo) := by
  by_cases hfits : t.Fits r
  · rw [IntType.wrap_of_fits hfits]
    exact iff_of_true rfl (.inl hfits)
  · rw [or_iff_right hfits]
    have hrange := hlo.trans (hle.trans hhi)
    by_cases habove : t.highest < r
    · -- the number is clamped to the upper bound
      have hr : clamp lo hi r = hi := by rw [clamp, min_eq_left (by omega), max_eq_right hle]
      have hw : clamp lo hi (t.wrap r) = hi ↔ lo = hi ∨ hi ≤ t.wrap r := by
        unfold clamp
        omega
      rw [hr, hw, and_iff_right habove, iff_false_intro (show ¬(r < t.lowest ∧ t.wrap r ≤ lo) by omega), or_false]
    · have hbelow : r < t.lowest := by
        by_contra hnot
        exact hfits ⟨not_lt.1 hnot, not_lt.1 habove⟩
      have hr : clamp lo hi r = lo := by rw [clamp, min_eq_right (by omega), max_eq_left (by omega)]
      have hw : clamp lo hi (t.wrap r) = lo ↔ lo = hi ∨ t.wrap r ≤ lo := by
        unfold clamp
        omega
      rw [hr, hw, and_iff_right hbelow, iff_false_intro (show ¬(t.highest < r ∧ hi ≤ t.wrap r) by omega), false_or]

/-- **An operation saturates exactly if its result returns to the side of the bounds that it is on.** -/
theorem saturated_iff (b : BoundValue t) (op : Op t) :
    (∃ b', Saturated b op b') ↔ Returns t b.minVal_ b.maxVal_ (op.exact b.val_) := by
  have hclamp := @clamp_wrap_iff t b.minVal_ b.maxVal_ (op.exact b.val_) b.le b.minVal_.2.1 b.maxVal_.2.2
  have hval := b.val_assign (t.cast (op.exact b.val_))
  have hresult := result_eq op b.val_
  by_cases hdefined : t.promoted.Fits (op.exact b.val_) ∨ t.promoted.signed = false
  · rw [if_pos hdefined] at hresult
    have hreturns : Returns t b.minVal_ b.maxVal_ (op.exact b.val_) ↔
        clamp b.minVal_ b.maxVal_ (t.wrap (op.exact b.val_)) = clamp b.minVal_ b.maxVal_ (op.exact b.val_) := by
      rw [Returns, and_iff_right hdefined, hclamp]
    have hstep : b.step op = some (b.assignWithRestriction (t.cast (op.exact b.val_))) := by
      rw [BoundValue.step, hresult, Option.map_some]
    rw [hreturns]
    constructor
    · rintro ⟨b', hs, -, -, heq⟩
      rw [← Option.some.inj (hstep.symm.trans hs)] at heq
      exact hval.symm.trans heq
    · exact fun heq => ⟨_, hstep, rfl, rfl, hval.trans heq⟩
  · rw [if_neg hdefined] at hresult
    refine iff_of_false ?_ ?_
    · rintro ⟨b', hs, -⟩
      rw [BoundValue.step, hresult, Option.map_none] at hs
      cases hs
    · rintro (hfits | ⟨h, -⟩)
      · exact hdefined (.inl hfits.promoted)
      · exact hdefined h

end Step

/-! ## Runs -/

section Run

variable {b : BoundValue t} {ops : List (Op t)}

theorem inBounds_of_saturated {op : Op t} {b' : BoundValue t} (h : Saturated b op b') : b'.InBounds := by
  rw [InBounds, h.val_eq, h.min_eq, h.max_eq]
  exact clamp_mem b.le _

/-- From any value between the bounds. -/
theorem saturates_of_inBounds (h : b.InBounds) : b.Saturates ops ↔ Return b.minVal_ b.maxVal_ b.val_ ops := by
  induction ops generalizing b with
  | nil => exact iff_of_true h trivial
  | cons op ops ih =>
    rw [Saturates, and_iff_right h, Return, ← saturated_iff]
    constructor
    · rintro ⟨b', hs, hrest⟩
      refine ⟨⟨b', hs⟩, ?_⟩
      have hreturn := (ih (inBounds_of_saturated hs)).1 hrest
      rwa [hs.val_eq, hs.min_eq, hs.max_eq] at hreturn
    · rintro ⟨⟨b', hs⟩, hreturn⟩
      refine ⟨b', hs, (ih (inBounds_of_saturated hs)).2 ?_⟩
      rwa [hs.val_eq, hs.min_eq, hs.max_eq]

/-- **A run saturates exactly if the residues of all results that do not fit in the type are beyond the bound
that the results themselves are beyond.** -/
theorem saturates_iff (val minVal maxVal : t.Value) (ops : List (Op t)) :
    (construct val minVal maxVal).Saturates ops ↔
      Return (construct val minVal maxVal).minVal_ (construct val minVal maxVal).maxVal_
        (construct val minVal maxVal).val_ ops :=
  saturates_of_inBounds (inBounds_construct val minVal maxVal)

/-- `--` of a `BoundValue<uint64_t>` that is at its lower bound 0. -/
theorem zero_not_kept : ¬ ∀ (t : IntType) (val minVal maxVal : t.Value) (ops : List (Op t)), minVal.1 ≤ maxVal →
    (construct val minVal maxVal).Saturates ops := by
  intro h
  let t : IntType := ⟨64, false, by decide⟩
  obtain ⟨-, b', ⟨hs, -, -, hval⟩, -⟩ := h t (t.cast 0) (t.cast 0) (t.cast 10) [.dec] (by decide)
  have hten : ((construct (t.cast 0) (t.cast 0) (t.cast 10)).step .dec).map (fun b => b.val_.1) = some 10 := by decide
  rw [hs, Option.map_some, hval] at hten
  exact absurd hten (by decide)

end Run

end BoundValue

end Redux.Util
