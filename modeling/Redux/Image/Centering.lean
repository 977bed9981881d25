import Redux.Image.Reorder
import Mathlib.Tactic.Ring

/-!
# Image.Centering — the zero frequency in the middle, and back

`center` and `decenter` both call `reorder`, which turns the coefficients by half in either direction.  To turn
twice is to turn by the parity of the sizes, so that what was centred comes back exactly if the coefficients do not
change by that (`invertible_iff_periodic`), as for even sizes.  A half-complex transform is not turned at all.
-/

namespace Redux.Image

open Redux.Image.FourierTransform

/-! ## Model -/

/-- A transform: its sizes, whether the flags have `FULLCOMPLEX`, and the blocks that `ftPtr` and `tmpPtr` point
to. -/
structure FourierTransform (R : Type*) where
  (sizeY sizeX : ℕ)
  fullComplex : Bool
  centered : Bool
  (ft tmp : ℤ → R)
  posY : 0 < sizeY
  posX : 0 < sizeX
  /-- The sizes are `int`s. -/
  ltY : sizeY < 2 ^ 31

namespace FourierTransform

variable {R : Type*}

/-- The stored columns. -/
def ftSizeX (s : FourierTransform R) : ℕ := if s.fullComplex then s.sizeX else s.sizeX / 2 + 1

/-- A stored coefficient. -/
def coefficient (s : FourierTransform R) (y x : ℕ) : R := s.ft (y * s.ftSizeX + x : ℕ)

/-- The call of `reorderInto`: without an output size, and not centred in one. -/
def reorderCall (s : FourierTransform R) : Call := ⟨s.sizeY, s.sizeX, 0, 0, false⟩

/-- `reorder()`. -/
def reorder (s : FourierTransform R) : Option (FourierTransform R) :=
  if s.fullComplex then s.reorderCall.reorderInto.map fun copies =>
    { s with ft := Request.output copies (fun i : ℕ => s.ft i) s.tmp, tmp := s.ft }
  else some s

def center (force : Bool) (s : FourierTransform R) : Option (FourierTransform R) :=
  if force || !s.centered then s.reorder.map ({ · with centered := true }) else some s

def decenter (force : Bool) (s : FourierTransform R) : Option (FourierTransform R) :=
  if force || s.centered then s.reorder.map ({ · with centered := false }) else some s

/-- The calls, without `force`. -/
inductive CenterCall
  | center
  | decenter

def CenterCall.run : CenterCall → FourierTransform R → Option (FourierTransform R)
  | .center => FourierTransform.center false
  | .decenter => FourierTransform.decenter false

/-- A sequence of calls. -/
def run (calls : List CenterCall) (s : FourierTransform R) : Option (FourierTransform R) :=
  calls.foldlM (fun s call => call.run s) s

/-! ## What the coefficients should be -/

/-- Index `i` of `n`, shifted by `d`. -/
def shifted (d n i : ℕ) : ℕ := (i + d) % n

/-- By how much the coefficients are shifted, to have the zero frequency in the middle. -/
def shiftY (s : FourierTransform R) : ℕ := if s.centered then s.sizeY / 2 else 0

def shiftX (s : FourierTransform R) : ℕ := if s.centered then s.sizeX / 2 else 0

/-- **The transform has the coefficients `c`**: as they are, or shifted if it is centred. -/
def Represents (c : ℕ → ℕ → R) (s : FourierTransform R) : Prop := ∀ y < s.sizeY, ∀ x < s.ftSizeX,
  s.coefficient (shifted s.shiftY s.sizeY y) (shifted s.shiftX s.ftSizeX x) = c y x

/-- The coefficients stay the same if they are shifted: for a full-complex transform by the parity of the sizes, so
that there is nothing to ask of even ones, and for a half-complex one by half of them. -/
def Periodic (c : ℕ → ℕ → R) (s : FourierTransform R) : Prop := ∀ y < s.sizeY, ∀ x < s.ftSizeX,
  if s.fullComplex then c (shifted (s.sizeY % 2) s.sizeY y) (shifted (s.sizeX % 2) s.ftSizeX x) = c y x
  else c (shifted (s.sizeY / 2) s.sizeY y) (shifted (s.sizeX / 2) s.ftSizeX x) = c y x

/-! ## Shifts -/

section Shifts

variable {d n i : ℕ}

theorem shifted_lt (hn : 0 < n) : shifted d n i < n := Nat.mod_lt _ hn

@[simp] theorem shifted_zero (hi : i < n) : shifted 0 n i = i := Nat.mod_eq_of_lt hi

/-- Every index is one that is shifted. -/
theorem exists_shifted (d : ℕ) (hi : i < n) : ∃ j < n, shifted d n j = i := by
  refine ⟨shifted (n - d % n) n i, shifted_lt (Nat.zero_lt_of_lt hi), ?_⟩
  have hd : d % n < n := Nat.mod_lt _ (Nat.zero_lt_of_lt hi)
  have hsum : i + (n - d % n) + d = i + n * (d / n + 1) := by
    have hdiv := Nat.mod_add_div d n
    rw [Nat.mul_add, Nat.mul_one]
    omega
  rw [shifted, shifted, Nat.mod_add_mod, hsum, Nat.add_mul_mod_self_left, Nat.mod_eq_of_lt hi]

/-- **To turn twice is to turn back by the parity.** -/
theorem turned_turned (hi : i < n) : turned n (turned n (shifted (n % 2) n i)) = i := by
  have hsum : i + n % 2 + (n / 2 + n / 2) = i + n := by omega
  rw [turned, turned, shifted, Nat.mod_add_mod, Nat.add_assoc, Nat.mod_add_mod, hsum, Nat.add_mod_right,
    Nat.mod_eq_of_lt hi]

end Shifts

/-! ## One call -/

section Reorder

variable {s s' : FourierTransform R}

/-- `reorderInto`, between equal sizes. -/
def request (s : FourierTransform R) : Request where
  inSizeY := s.sizeY
  inSizeX := s.sizeX
  outSizeY := s.sizeY
  outSizeX := s.sizeX
  center := false
  posY := s.posY
  posX := s.posX
  leY := Nat.le_refl s.sizeY
  leX := Nat.le_refl s.sizeX

theorem reorderCall_reorderInto : s.reorderCall.reorderInto = s.request.reorderInto := by
  have hpos := s.posY
  have hcall : s.reorderCall.outSized = s.request.toCall := if_pos ⟨rfl, rfl⟩
  have hrequest : s.request.outSized = s.request.toCall := if_neg fun h => by
    have hzero : s.sizeY = 0 := h.1
    omega
  rw [Call.reorderInto, hcall, Call.reorderInto, hrequest]

theorem request_fitsInt : s.request.FitsInt := by
  have hlt := s.ltY
  refine ⟨?_, fun h => absurd h Bool.false_ne_true⟩
  show (s.sizeY + 1) / 2 ≤ 2 ^ 31
  omega

/-- **A full-complex transform is turned.** -/
theorem reorder_full (h : s.fullComplex = true) : ∃ ft tmp, s.reorder = some { s with ft := ft, tmp := tmp } ∧
    ∀ y < s.sizeY, ∀ x < s.sizeX,
      ft (turned s.sizeY y * s.sizeX + turned s.sizeX x : ℕ) = s.ft (y * s.sizeX + x : ℕ) := by
  have hcopies : s.request.reorderInto = some s.request.copies := s.request.reorderInto_eq
  rw [reorder, if_pos h, reorderCall_reorderInto, hcopies]
  refine ⟨_, _, rfl, fun y hy x hx => ?_⟩
  have hplace : ∀ n i, place false n n i = turned n i := fun n i => by
    rw [place, if_neg Bool.false_ne_true, Nat.sub_self, Nat.add_zero, ite_self]
  have htarget : s.request.target (y * s.sizeX + x) = ((turned s.sizeY y * s.sizeX + turned s.sizeX x : ℕ) : ℤ) := by
    rw [← hplace, ← hplace, Nat.cast_add, Nat.cast_mul]
    exact s.request.target_eq hx
  rw [← htarget]
  refine Request.output_target request_fitsInt hcopies ?_
  calc y * s.sizeX + x < (y + 1) * s.sizeX := by rw [Nat.succ_mul]; exact Nat.add_lt_add_left hx _
    _ ≤ s.sizeY * s.sizeX := Nat.mul_le_mul_right _ hy

/-- A half-complex transform is not. -/
theorem reorder_half (h : s.fullComplex = false) : s.reorder = some s := if_neg (by rw [h]; exact Bool.false_ne_true)

end Reorder

/-! ## The coefficients after a call -/

section Represents

variable {c : ℕ → ℕ → R} {s : FourierTransform R}

theorem represents_of_not_centered (h : s.centered = false) :
    Represents c s ↔ ∀ y < s.sizeY, ∀ x < s.ftSizeX, s.coefficient y x = c y x := by
  have hY : s.shiftY = 0 := if_neg (by rw [h]; exact Bool.false_ne_true)
  have hX : s.shiftX = 0 := if_neg (by rw [h]; exact Bool.false_ne_true)
  rw [Represents, hY, hX]
  refine forall₂_congr fun y hy => forall₂_congr fun x hx => ?_
  rw [shifted_zero hy, shifted_zero hx]

theorem represents_of_centered (h : s.centered = true) : Represents c s ↔ ∀ y < s.sizeY, ∀ x < s.ftSizeX,
    s.coefficient (shifted (s.sizeY / 2) s.sizeY y) (shifted (s.sizeX / 2) s.ftSizeX x) = c y x := by
  have hY : s.shiftY = s.sizeY / 2 := if_pos h
  have hX : s.shiftX = s.sizeX / 2 := if_pos h
  rw [Represents, hY, hX]

/-- The transform with other blocks, centred or not. -/
def updated (s : FourierTransform R) (ft tmp : ℤ → R) (centered : Bool) : FourierTransform R :=
  { s with ft := ft, tmp := tmp, centered := centered }

theorem represents_updated_true {ft tmp : ℤ → R} : Represents c (s.updated ft tmp true) ↔
    ∀ y < s.sizeY, ∀ x < s.ftSizeX, ft
      (shifted (s.sizeY / 2) s.sizeY y * s.ftSizeX + shifted (s.sizeX / 2) s.ftSizeX x : ℕ) = c y x :=
  represents_of_centered rfl

theorem represents_updated_false {ft tmp : ℤ → R} : Represents c (s.updated ft tmp false) ↔
    ∀ y < s.sizeY, ∀ x < s.ftSizeX, ft (y * s.ftSizeX + x : ℕ) = c y x :=
  represents_of_not_centered rfl

theorem ftSizeX_full (h : s.fullComplex = true) : s.ftSizeX = s.sizeX := if_pos h

theorem ftSizeX_pos : 0 < s.ftSizeX := by
  rw [ftSizeX]
  split
  · exact s.posX
  · exact Nat.succ_pos _

/-- **To centre a full-complex transform is right.** -/
theorem represents_center_full (hfull : s.fullComplex = true) (hc : s.centered = false) (h : Represents c s) :
    ∃ ft tmp, s.reorder = some (s.updated ft tmp s.centered) ∧ Represents c (s.updated ft tmp true) := by
  obtain ⟨ft, tmp, hreorder, hget⟩ := reorder_full hfull
  refine ⟨ft, tmp, hreorder, represents_updated_true.2 fun y hy x hx => ?_⟩
  have hstored := (represents_of_not_centered hc).1 h y hy x hx
  rw [coefficient] at hstored
  rw [ftSizeX_full hfull] at hx hstored ⊢
  exact (hget y hy x hx).trans hstored

/-- **To bring it back is right exactly if the coefficients do not change by a shift by the parity.** -/
theorem represents_decenter_full (hfull : s.fullComplex = true) (hc : s.centered = true) (h : Represents c s) :
    ∃ ft tmp, s.reorder = some (s.updated ft tmp s.centered) ∧
      (Represents c (s.updated ft tmp false) ↔ Periodic c s) := by
  obtain ⟨ft, tmp, hreorder, hget⟩ := reorder_full hfull
  refine ⟨ft, tmp, hreorder, represents_updated_false.trans ?_⟩
  refine forall₂_congr fun y hy => forall₂_congr fun x hx => ?_
  -- the coefficient that is turned twice to get here
  have hstored := (represents_of_centered hc).1 h (shifted (s.sizeY % 2) s.sizeY y) (shifted_lt s.posY)
    (shifted (s.sizeX % 2) s.ftSizeX x) (shifted_lt ftSizeX_pos)
  rw [coefficient] at hstored
  rw [ftSizeX_full hfull] at hx hstored ⊢
  have hturned := hget (turned s.sizeY (shifted (s.sizeY % 2) s.sizeY y)) (Nat.mod_lt _ s.posY)
    (turned s.sizeX (shifted (s.sizeX % 2) s.sizeX x)) (Nat.mod_lt _ s.posX)
  rw [turned_turned hy, turned_turned hx] at hturned
  rw [if_pos hfull, hturned.trans hstored]

/-- **A half-complex transform, of which only the flag changes, is right exactly if its coefficients do not change by
the shift.** -/
theorem represents_half (hhalf : s.fullComplex = false) (h : Represents c s) :
    Represents c (s.updated s.ft s.tmp !s.centered) ↔ Periodic c s := by
  have hperiodic : Periodic c s ↔ ∀ y < s.sizeY, ∀ x < s.ftSizeX,
      c (shifted (s.sizeY / 2) s.sizeY y) (shifted (s.sizeX / 2) s.ftSizeX x) = c y x :=
    forall₂_congr fun y _ => forall₂_congr fun x _ => by
      rw [if_neg (by rw [hhalf]; exact Bool.false_ne_true)]
  rw [hperiodic]
  cases hc : s.centered with
  | false =>
    have hstored := (represents_of_not_centered hc).1 h
    refine represents_updated_true.trans (forall₂_congr fun y _ => forall₂_congr fun x _ => ?_)
    rw [← hstored (shifted (s.sizeY / 2) s.sizeY y) (shifted_lt s.posY) (shifted (s.sizeX / 2) s.ftSizeX x)
      (shifted_lt ftSizeX_pos), coefficient]
  | true =>
    have hstored := (represents_of_centered hc).1 h
    refine represents_updated_false.trans ⟨fun hback y hy x hx => ?_, fun hshift y hy x hx => ?_⟩
    · rw [← hback _ (shifted_lt s.posY) _ (shifted_lt ftSizeX_pos)]
      exact hstored y hy x hx
    · obtain ⟨y, hy', rfl⟩ := exists_shifted (s.sizeY / 2) hy
      obtain ⟨x, hx', rfl⟩ := exists_shifted (s.sizeX / 2) hx
      exact (hstored y hy' x hx').trans (hshift y hy' x hx').symm

end Represents

/-! ## Results -/

section Runs

variable {c : ℕ → ℕ → R} {s : FourierTransform R}

/-- What a call leaves that changes whether the transform is centred. -/
theorem represents_toggle (h : Represents c s) : ∃ ft tmp, s.reorder = some (s.updated ft tmp s.centered) ∧
    (Periodic c s → Represents c (s.updated ft tmp !s.centered)) := by
  cases hfull : s.fullComplex with
  | false => exact ⟨s.ft, s.tmp, reorder_half hfull, (represents_half hfull h).2⟩
  | true =>
    cases hc : s.centered with
    | false =>
      obtain ⟨ft, tmp, hreorder, hcenter⟩ := represents_center_full hfull hc h
      exact ⟨ft, tmp, hc ▸ hreorder, fun _ => hcenter⟩
    | true =>
      obtain ⟨ft, tmp, hreorder, hdecenter⟩ := represents_decenter_full hfull hc h
      exact ⟨ft, tmp, hc ▸ hreorder, hdecenter.2⟩

/-- The call that is not one for nothing. -/
def turning (s : FourierTransform R) : CenterCall := if s.centered then .decenter else .center

theorem run_turning {ft tmp : ℤ → R} (h : s.reorder = some (s.updated ft tmp s.centered)) :
    s.turning.run s = some (s.updated ft tmp !s.centered) := by
  rw [turning]
  cases hc : s.centered with
  | false =>
    show center false s = _
    rw [center, hc, h]
    rfl
  | true =>
    show decenter false s = _
    rw [decenter, hc, h]
    rfl

theorem run_of_ne_turning {call : CenterCall} (h : call ≠ s.turning) : call.run s = some s := by
  rw [turning] at h
  cases hc : s.centered <;> rw [hc] at h <;> cases call
  · exact absurd rfl h
  · exact if_neg (by simp [hc])
  · exact if_neg (by simp [hc])
  · exact absurd rfl h

/-- **What one call preserves.** -/
theorem represents_call (h : Represents c s) (hp : Periodic c s) (call : CenterCall) :
    ∃ s', call.run s = some s' ∧ Represents c s' ∧ Periodic c s' := by
  obtain ⟨ft, tmp, hreorder, htoggle⟩ := represents_toggle h
  by_cases hturning : call = s.turning
  · subst hturning
    exact ⟨_, run_turning hreorder, htoggle hp, hp⟩
  · exact ⟨s, run_of_ne_turning hturning, h, hp⟩

theorem run_cons (call : CenterCall) (calls : List CenterCall) {s₁ : FourierTransform R} (h : call.run s = some s₁) :
    run (call :: calls) s = run calls s₁ := by
  rw [run, List.foldlM_cons, h]
  rfl

/-- **What a sequence of calls preserves.** -/
theorem represents_calls : ∀ (calls : List CenterCall) {s : FourierTransform R}, Represents c s → Periodic c s →
    ∃ s', run calls s = some s' ∧ Represents c s'
  | [], s, h, _ => ⟨s, rfl, h⟩
  | call :: calls, s, h, hp => by
    obtain ⟨s₁, hcall, h₁, hp₁⟩ := represents_call h hp call
    obtain ⟨s₂, hrun, h₂⟩ := represents_calls calls h₁ hp₁
    exact ⟨s₂, (run_cons call calls hcall).trans hrun, h₂⟩

/-- **Whatever is called, the transform has the coefficients it had.** -/
def Invertible (c : ℕ → ℕ → R) (s : FourierTransform R) : Prop :=
  ∀ calls, ∃ s', run calls s = some s' ∧ Represents c s'

/-- **`center` and `decenter` keep the coefficients exactly if these do not change by the shift that remains.** -/
theorem invertible_iff_periodic (h : Represents c s) : Invertible c s ↔ Periodic c s := by
  refine ⟨fun hinv => ?_, fun hp calls => represents_calls calls h hp⟩
  -- what the call that changes something leaves
  have hone : ∀ {s : FourierTransform R} {ft tmp : ℤ → R}, Invertible c s →
      s.reorder = some (s.updated ft tmp s.centered) → Represents c (s.updated ft tmp !s.centered) := by
    intro s ft tmp hinv hreorder
    obtain ⟨s', hrun, hrep⟩ := hinv [s.turning]
    rw [run_cons _ _ (run_turning hreorder)] at hrun
    obtain rfl := Option.some.inj hrun
    exact hrep
  cases hfull : s.fullComplex with
  | false => exact (represents_half hfull h).1 (hone hinv (reorder_half hfull))
  | true =>
    cases hc : s.centered with
    | true =>
      obtain ⟨ft, tmp, hreorder, hdecenter⟩ := represents_decenter_full hfull hc h
      have hrep := hone hinv hreorder
      rw [hc] at hrep
      exact hdecenter.1 hrep
    | false =>
      obtain ⟨ft, tmp, hreorder, hcenter⟩ := represents_center_full hfull hc h
      have hrun := run_turning hreorder
      rw [hc] at hrun
      obtain ⟨ft', tmp', hreorder', hdecenter⟩ :=
        represents_decenter_full (s := s.updated ft tmp true) hfull rfl hcenter
      refine hdecenter.1 (hone (s := s.updated ft tmp true) (fun calls => ?_) hreorder')
      obtain ⟨s', hcalls, hrep⟩ := hinv (s.turning :: calls)
      rw [run_cons _ _ hrun] at hcalls
      exact ⟨s', hcalls, hrep⟩

theorem shifted_parity {n i : ℕ} (h : n = 1 ∨ n % 2 = 0) (hi : i < n) : shifted (n % 2) n i = i := by
  rcases h with rfl | heven
  · rw [shifted, Nat.mod_one, Nat.lt_one_iff.1 hi]
  · rw [heven, shifted_zero hi]

/-- **Even sizes ask for nothing**, nor does a single row or column. -/
theorem periodic_of_even (hfull : s.fullComplex = true) (hY : s.sizeY = 1 ∨ s.sizeY % 2 = 0)
    (hX : s.sizeX = 1 ∨ s.sizeX % 2 = 0) : Periodic c s := fun y hy x hx => by
  rw [ftSizeX_full hfull] at hx ⊢
  rw [if_pos hfull, shifted_parity hY hy, shifted_parity hX hx]

theorem line_ltY : 1 < 2 ^ 31 := by norm_num

/-- One row of coefficients, each of them its own index. -/
def line (n : ℕ) (h : 0 < n) : FourierTransform ℤ where
  sizeY := 1
  sizeX := n
  fullComplex := true
  centered := false
  ft := fun i => i
  tmp := fun _ => 0
  posY := Nat.one_pos
  posX := h
  ltY := line_ltY

theorem line_represents (n : ℕ) (h : 0 < n) : Represents (fun _ x => (x : ℤ)) (line n h) := by
  refine (represents_of_not_centered rfl).2 fun y hy x _ => ?_
  obtain rfl : y = 0 := Nat.lt_one_iff.1 hy
  show ((0 * (line n h).ftSizeX + x : ℕ) : ℤ) = x
  rw [Nat.zero_mul, Nat.zero_add]

/-- An even row comes back. -/
theorem line_two_invertible : Invertible (fun _ x => (x : ℤ)) (line 2 two_pos) :=
  (invertible_iff_periodic (line_represents 2 two_pos)).2 (periodic_of_even rfl (Or.inl rfl) (Or.inr rfl))

/-- The first of three coefficients is the second one after `center` and `decenter`. -/
theorem line_three_not_invertible :
    Represents (fun _ x => (x : ℤ)) (line 3 three_pos) ∧ ¬Invertible (fun _ x => (x : ℤ)) (line 3 three_pos) := by
  refine ⟨line_represents 3 three_pos, fun hinv => ?_⟩
  obtain ⟨s', hrun, hrep⟩ := hinv [.center, .decenter]
  have hfirst : (run [.center, .decenter] (line 3 three_pos)).map
      (fun s => (s.centered, s.sizeY, s.ftSizeX, s.coefficient 0 0)) = some (false, 1, 3, 1) := by decide +kernel
  rw [hrun, Option.map_some] at hfirst
  obtain ⟨hc, hY, hX, hone⟩ : s'.centered = false ∧ s'.sizeY = 1 ∧ s'.ftSizeX = 3 ∧ s'.coefficient 0 0 = 1 := by
    simpa using hfirst
  have hzero := (represents_of_not_centered hc).1 hrep 0 (by omega) 0 (by omega)
  rw [hone] at hzero
  exact one_ne_zero hzero

end Runs

end FourierTransform

end Redux.Image
