import Redux.Lib.Comparison
import Redux.Momfbd.ModeList

/-!
# Momfbd.ModeInfo — the keys of the mode sets

`ModeInfo::operator<` compares ten fields one after the other.  Mode lists it compares by their modes, to
see whether they differ, and by their default types first, to see which comes first.  The comparison is what
a map asks of it exactly for keys of which no two differ in their default type only, and none crosses two
others (`faithful_iff`).
-/

namespace Redux.Momfbd

open Lib Lib.OrderedSet Lib.Comparison Util

/-! ## Model -/

/-- The value of the enumerator. -/
def ModeBase.value : ModeBase → ℕ
  | .MB_NONE => 0
  | .ZERNIKE => 1
  | .KARHUNEN_LOEVE => 2
  | .MB_ZKL => 3
  | .MB_FILE => 4

/-- `ModeID::operator<`. -/
def ModeID.lt (a b : ModeID) : Bool :=
  if a.type = b.type then decide (a.number < b.number) else decide (a.type.value < b.type.value)

/-- `ModeList::operator<`. -/
def ModeList.lt (a b : ModeList) : Bool :=
  if a.defaultType = b.defaultType then lexicographical_compare ModeID.lt a.modes b.modes
  else decide (a.defaultType.value < b.defaultType.value)

/-- `ModeInfo`, with the finite numbers in `R`. -/
structure ModeInfo (R : Type) where
  firstMode : BitVec 16
  lastMode : BitVec 16
  modeNumber : BitVec 16
  nPupilPixels : BitVec 16
  modeList : ModeList
  pupilRadius : R
  angle : R
  cutoff : R
  filename : List (BitVec 8)
  normalize : Bool

/-- `operator<` of strings. -/
def stringLt : List (BitVec 8) → List (BitVec 8) → Bool := lexicographical_compare fun c d => decide (c < d)

namespace ModeInfo

variable {R : Type} [LinearOrder R]

/-- The comparison from the mode number on. -/
def restLt (a b : ModeInfo R) : Bool :=
  if a.modeNumber ≠ b.modeNumber then decide (a.modeNumber < b.modeNumber)
  else if a.nPupilPixels ≠ b.nPupilPixels then decide (a.nPupilPixels < b.nPupilPixels)
  else if a.pupilRadius ≠ b.pupilRadius then decide (a.pupilRadius < b.pupilRadius)
  else if a.angle ≠ b.angle then decide (a.angle < b.angle)
  else decide (a.cutoff < b.cutoff)

/-- `operator<`; `modeList != rhs.modeList` is that of the vectors. -/
def lt (a b : ModeInfo R) : Bool :=
  if a.filename ≠ b.filename then stringLt a.filename b.filename
  else if a.normalize ≠ b.normalize then !a.normalize
  else if a.firstMode ≠ b.firstMode then decide (a.firstMode < b.firstMode)
  else if a.lastMode ≠ b.lastMode then decide (a.lastMode < b.lastMode)
  else if a.modeList.modes ≠ b.modeList.modes then a.modeList.lt b.modeList
  else restLt a b

/-- The fields that are compared before the mode lists are equal. -/
def SameRange (a b : ModeInfo R) : Prop :=
  a.filename = b.filename ∧ a.normalize = b.normalize ∧ a.firstMode = b.firstMode ∧ a.lastMode = b.lastMode

/-- Two keys differ in the default type only. -/
def Lookalikes (S : Set (ModeInfo R)) : Prop :=
  ∃ a ∈ S, ∃ b ∈ S, a.modeList.defaultType ≠ b.modeList.defaultType ∧
    b = { a with modeList := ⟨a.modeList.modes, b.modeList.defaultType⟩ }

/-- A key with other modes lies between two with the same modes, by the default types, and the other way
round than they do by the fields behind the mode lists. -/
def Crossed (S : Set (ModeInfo R)) : Prop :=
  ∃ a ∈ S, ∃ b ∈ S, ∃ c ∈ S, SameRange a b ∧ SameRange b c ∧ a.modeList.modes = b.modeList.modes ∧
    b.modeList.modes ≠ c.modeList.modes ∧ restLt a b = true ∧ b.modeList.lt c.modeList = true ∧
    c.modeList.lt a.modeList = true

end ModeInfo

/-! ## The orders of the fields -/

section Orders

theorem strictTotal_bitVec {w : ℕ} : StrictTotal fun x y : BitVec w => decide (x < y) where
  irrefl x := decide_eq_false (BitVec.lt_irrefl x)
  trans _ _ _ hxy hyz := decide_eq_true (BitVec.lt_trans (of_decide_eq_true hxy) (of_decide_eq_true hyz))
  connected x y hxy hyx := by
    rw [decide_eq_false_iff_not, BitVec.lt_def] at hxy hyx
    exact BitVec.eq_of_toNat_eq (by omega)

theorem strictTotal_bool : StrictTotal fun x y : Bool => !x && y where
  irrefl := by decide
  trans := by decide
  connected := by decide

theorem strictTotal_modeBase : StrictTotal fun x y : ModeBase => decide (x.value < y.value) := by
  have hinj : Function.Injective ModeBase.value := by
    intro x y h
    cases x <;> cases y <;> first | rfl | cases h
  exact (strictTotal_lt (β := ℕ)).comap hinj

/-- A field and one more that is behind it, if there are no others. -/
theorem strictTotal_two {α β γ : Type} [DecidableEq β] {lt : β → β → Bool} {lt' : γ → γ → Bool} {f : α → β} {g : α → γ}
    (h : StrictTotal lt) (h' : StrictTotal lt') (hfg : ∀ a b, f a = f b → g a = g b → a = b) :
    StrictTotal (byField lt f fun a b => lt' (g a) (g b)) := by
  refine ((faithful_byField_iff h).2 fun v => ⟨strictWeak_field h', ?_⟩).strictTotal
  rintro a ⟨-, ha⟩ b ⟨-, hb⟩
  rw [OrderedSet.same, Bool.and_eq_true, Bool.not_eq_true', Bool.not_eq_true']
  constructor
  · rintro ⟨h₁, h₂⟩
    exact hfg a b (ha.trans hb.symm) (h'.connected _ _ h₁ h₂)
  · rintro rfl
    exact ⟨h'.irrefl _, h'.irrefl _⟩

theorem strictTotal_modeID : StrictTotal ModeID.lt := by
  have heq : ModeID.lt = byField (fun x y : ModeBase => decide (x.value < y.value)) Element.type
      (fun a b => decide (a.number < b.number)) := by
    funext a b
    by_cases h : a.type = b.type
    · rw [ModeID.lt, if_pos h, byField_of_eq h]
    · rw [ModeID.lt, if_neg h, byField_of_ne h]
  rw [heq]
  refine strictTotal_two strictTotal_modeBase strictTotal_bitVec ?_
  rintro ⟨s, m⟩ ⟨t, n⟩ rfl rfl
  rfl

theorem strictTotal_modeList : StrictTotal ModeList.lt := by
  have heq : ModeList.lt = byField (fun x y : ModeBase => decide (x.value < y.value)) ModeList.defaultType
      (fun a b => lexicographical_compare ModeID.lt a.modes b.modes) := by
    funext a b
    by_cases h : a.defaultType = b.defaultType
    · rw [ModeList.lt, if_pos h, byField_of_eq h]
    · rw [ModeList.lt, if_neg h, byField_of_ne h]
  rw [heq]
  refine strictTotal_two strictTotal_modeBase strictTotal_modeID.lexicographical_compare ?_
  rintro ⟨l, s⟩ ⟨m, t⟩ rfl rfl
  rfl

end Orders

namespace ModeInfo

section Compare

variable {R : Type} [LinearOrder R] {a b : ModeInfo R} {S : Set (ModeInfo R)}

/-- The fields behind the mode list, one after the other. -/
theorem restLt_eq : (restLt : ModeInfo R → ModeInfo R → Bool) =
    byField (fun x y => decide (x < y)) modeNumber (byField (fun x y => decide (x < y)) nPupilPixels
      (byField (fun x y => decide (x < y)) pupilRadius (byField (fun x y => decide (x < y)) angle
        fun a b => decide (a.cutoff < b.cutoff)))) := rfl

/-- All fields, one after the other, with the mode list as a part. -/
theorem lt_eq : (lt : ModeInfo R → ModeInfo R → Bool) =
    byField stringLt filename (byField (fun x y => !x && y) normalize (byField (fun x y => decide (x < y)) firstMode
      (byField (fun x y => decide (x < y)) lastMode
        (byPart (fun a => a.modeList.modes) (fun a b => a.modeList.lt b.modeList) restLt)))) := by
  funext a b
  rw [lt, byField]
  refine if_congr Iff.rfl rfl ?_
  by_cases h : a.normalize ≠ b.normalize
  · rw [if_pos h, byField_of_ne h]
    revert h
    cases a.normalize <;> cases b.normalize <;> decide
  · rw [if_neg h, byField_of_eq (not_not.1 h)]
    rfl

theorem same_restLt : same restLt a b = true ↔ a.modeNumber = b.modeNumber ∧ a.nPupilPixels = b.nPupilPixels ∧
    a.pupilRadius = b.pupilRadius ∧ a.angle = b.angle ∧ a.cutoff = b.cutoff := by
  rw [restLt_eq, same_byField strictTotal_bitVec, same_byField strictTotal_bitVec, same_byField strictTotal_lt,
    same_byField strictTotal_lt, OrderedSet.same, Bool.and_eq_true, Bool.not_eq_true', Bool.not_eq_true']
  refine and_congr_right fun _ => and_congr_right fun _ => and_congr_right fun _ => and_congr_right fun _ => ?_
  constructor
  · rintro ⟨h₁, h₂⟩
    exact strictTotal_lt.connected _ _ h₁ h₂
  · intro h
    rw [h]
    exact ⟨strictTotal_lt.irrefl _, strictTotal_lt.irrefl _⟩

theorem strictWeak_restLt : StrictWeak restLt S := by
  rw [restLt_eq]
  refine (strictWeak_byField_iff strictTotal_bitVec).2 fun _ => ?_
  refine (strictWeak_byField_iff strictTotal_bitVec).2 fun _ => ?_
  refine (strictWeak_byField_iff strictTotal_lt).2 fun _ => (strictWeak_byField_iff strictTotal_lt).2 fun _ => ?_
  exact strictWeak_field strictTotal_lt

omit [LinearOrder R] in
/-- The order of the mode lists tells apart those with other modes. -/
theorem modes_eq_of_same (h : same (fun a b : ModeInfo R => a.modeList.lt b.modeList) a b = true) :
    a.modeList.modes = b.modeList.modes := by
  rw [OrderedSet.same, Bool.and_eq_true, Bool.not_eq_true', Bool.not_eq_true'] at h
  rw [strictTotal_modeList.connected _ _ h.1 h.2]

end Compare

/-- **The comparison is a strict weak ordering in which only equal keys are equivalent** exactly if no two
keys differ in the default type only, and none crosses two others. -/
theorem faithful_iff {R : Type} [LinearOrder R] (S : Set (ModeInfo R)) :
    Faithful lt S ↔ ¬Lookalikes S ∧ ¬Crossed S := by
  have hlist : StrictWeak (fun a b : ModeInfo R => a.modeList.lt b.modeList) Set.univ :=
    strictWeak_field strictTotal_modeList
  have hstring : StrictTotal stringLt := strictTotal_bitVec.lexicographical_compare
  simp only [lt_eq, faithful_byField_iff hstring, faithful_byField_iff strictTotal_bool,
    faithful_byField_iff (strictTotal_bitVec (w := 16)),
    faithful_byPart_iff hlist strictWeak_restLt fun a b => modes_eq_of_same]
  constructor
  · intro h
    constructor
    · rintro ⟨a, ha, b, hb, hne, heq⟩
      have hab := (h a.filename a.normalize a.firstMode a.lastMode).1 a ⟨⟨⟨⟨ha, rfl⟩, rfl⟩, rfl⟩, rfl⟩ b
        ⟨⟨⟨⟨hb, by rw [heq]⟩, by rw [heq]⟩, by rw [heq]⟩, by rw [heq]⟩ (by rw [heq])
        (same_restLt.2 ⟨by rw [heq], by rw [heq], by rw [heq], by rw [heq], by rw [heq]⟩)
      rw [hab] at hne
      exact hne rfl
    · rintro ⟨a, ha, b, hb, c, hc, ⟨hf, hz, hm, hn⟩, ⟨hf', hz', hm', hn'⟩, hab, hbc, hrest, hlt, hlt'⟩
      exact (h b.filename b.normalize b.firstMode b.lastMode).2 ⟨a, ⟨⟨⟨⟨ha, hf⟩, hz⟩, hm⟩, hn⟩,
        b, ⟨⟨⟨⟨hb, rfl⟩, rfl⟩, rfl⟩, rfl⟩, c, ⟨⟨⟨⟨hc, hf'.symm⟩, hz'.symm⟩, hm'.symm⟩, hn'.symm⟩,
        hab, hbc, hrest, hlt, hlt'⟩
  · rintro ⟨hlook, hcross⟩ f z m n
    constructor
    · rintro a ⟨⟨⟨⟨ha, hf⟩, hz⟩, hm⟩, hn⟩ b ⟨⟨⟨⟨hb, hf'⟩, hz'⟩, hm'⟩, hn'⟩ hmodes hrest
      obtain ⟨h₁, h₂, h₃, h₄, h₅⟩ := same_restLt.1 hrest
      have heq : b = { a with modeList := ⟨a.modeList.modes, b.modeList.defaultType⟩ } := by
        cases a
        cases b
        simp_all
      by_contra hne
      refine hlook ⟨a, ha, b, hb, fun htype => hne ?_, heq⟩
      rw [heq, ← htype]
    · rintro ⟨a, ⟨⟨⟨⟨ha, hf⟩, hz⟩, hm⟩, hn⟩, b, ⟨⟨⟨⟨hb, hf'⟩, hz'⟩, hm'⟩, hn'⟩, c,
        ⟨⟨⟨⟨hc, hf''⟩, hz''⟩, hm''⟩, hn''⟩, hab, hbc, hrest, hlt, hlt'⟩
      exact hcross ⟨a, ha, b, hb, c, hc,
        ⟨hf.trans hf'.symm, hz.trans hz'.symm, hm.trans hm'.symm, hn.trans hn'.symm⟩,
        ⟨hf'.trans hf''.symm, hz'.trans hz''.symm, hm'.trans hm''.symm, hn'.trans hn''.symm⟩,
        hab, hbc, hrest, hlt, hlt'⟩

/-- The key of a mode set for a list of modes, as the constructor makes it. -/
def ofList (modes : List ModeID) (defaultType : ModeBase) (nPoints : BitVec 16) : ModeInfo ℤ :=
  ⟨2, 50, 0, nPoints, ⟨modes, defaultType⟩, 40, 0, 0, [], true⟩

/-- Three keys in a circle: the first two have the same modes, the third one another mode. -/
theorem keys_in_circle :
    let a := ofList [⟨.ZERNIKE, 2⟩] .KARHUNEN_LOEVE 80
    let b := ofList [⟨.ZERNIKE, 2⟩] .ZERNIKE 88
    let c := ofList [⟨.ZERNIKE, 3⟩] .ZERNIKE 80
    lt a b = true ∧ lt b c = true ∧ lt c a = true ∧ ¬Faithful lt (Set.univ : Set (ModeInfo ℤ)) := by
  intro a b c
  have hab : lt a b = true := by decide
  have hbc : lt b c = true := by decide
  have hca : lt c a = true := by decide
  refine ⟨hab, hbc, hca, fun h => ?_⟩
  have haa := h.strictWeak.trans a trivial c trivial a trivial
    (h.strictWeak.trans a trivial b trivial c trivial hab hbc) hca
  rw [h.strictWeak.irrefl a trivial] at haa
  cases haa

end ModeInfo

end Redux.Momfbd
