import Mathlib.Tactic.Linarith
import Redux.Lib.Folds
import Redux.Util.RunFold

/-!
# Util.RunTrip — which lists of runs are read back

`read_back_iff`: the segments of a list are read back as the list exactly if every folded run of it
is `Readable`, that is, its numbers do not wrap, and neither do the loops that read it.
-/

namespace Redux.Util

open Redux.Lib

/-! ## The segments of a list -/

section Segments

variable {τ : Type} {w : ℕ}

@[simp] theorem Run.length_items (r : Run τ w) : r.items.length = r.count := by simp [Run.items]

/-- A run's items are its first two elements and what goes on with them. -/
theorem Run.items_eq (r : Run τ w) :
    r.items = ⟨r.type, r.first⟩ :: ⟨r.type, r.second⟩ ::
      (List.range r.more).map fun i => ⟨r.type, r.second + r.wstep + i • r.wstep⟩ := by
  unfold Run.items Run.count
  rw [List.range_succ_eq_map, List.map_cons, List.map_map, List.range_succ_eq_map, List.map_cons,
    List.map_map]
  have hshift : ∀ i : ℕ, r.value (i + 2) = r.second + r.wstep + i • r.wstep := fun i => by
    rw [Run.value, runValue, succ_nsmul', add_assoc]
  rw [← List.map_congr_left fun i _ => congrArg (Element.mk r.type) (hshift i)]
  simp [Run.value]

/-- A segment is followed by nothing that could be folded into it. -/
def Segment.Stops : Segment τ w → List (Element τ w) → Prop
  | .single x, rest => ∀ y z rest', rest = y :: z :: rest' → y.type = x.type → z.type = x.type →
      z.number ≠ y.number + BitVec.ofInt w (toInt (y.number.toNat - x.number.toNat))
  | .folded r, rest => 0 < r.more ∧ rest.head? ≠ some ⟨r.type, r.value r.count⟩

/-- What the segments stand for. -/
def itemsOf (segs : List (Segment τ w)) : List (Element τ w) := (segs.map Segment.items).flatten

/-- Each segment goes on as long as it can. -/
def Folded : List (Segment τ w) → Prop
  | [] => True
  | seg :: segs => seg.Stops (itemsOf segs) ∧ Folded segs

theorem Folded.stops {before after : List (Segment τ w)} {seg : Segment τ w}
    (h : Folded (before ++ seg :: after)) : seg.Stops (itemsOf after) := by
  induction before with
  | nil => exact h.1
  | cons s before ih => exact ih h.2

variable [DecidableEq τ] {type : τ} {step : BitVec w}

theorem countRun_split : ∀ {rest : List (Element τ w)} {next : BitVec w},
    (List.range (countRun type step next rest)).map (fun i => (⟨type, next + i • step⟩ : Element τ w)) ++
      rest.drop (countRun type step next rest) = rest
  | [], _ => rfl
  | x :: rest, next => by
    rw [countRun]
    by_cases hx : x.number = next ∧ x.type = type
    · have hshift : (fun i : ℕ => (⟨type, next + (i + 1) • step⟩ : Element τ w)) =
          fun i => ⟨type, next + step + i • step⟩ := by
        funext i
        rw [succ_nsmul', add_assoc]
      rw [if_pos hx, List.range_succ_eq_map, List.map_cons, List.map_map, List.drop_succ_cons,
        List.cons_append, Function.comp_def]
      simp only [Nat.succ_eq_add_one, hshift, countRun_split, zero_nsmul, add_zero]
      rw [← hx.1, ← hx.2]
    · rw [if_neg hx]
      rfl

theorem countRun_stop : ∀ {rest : List (Element τ w)} {next : BitVec w},
    (rest.drop (countRun type step next rest)).head? ≠
      some ⟨type, next + countRun type step next rest • step⟩
  | [], _ => by simp
  | x :: rest, next => by
    rw [countRun]
    by_cases hx : x.number = next ∧ x.type = type
    · rw [if_pos hx, List.drop_succ_cons, succ_nsmul', ← add_assoc]
      exact countRun_stop
    · rw [if_neg hx, List.drop_zero, List.head?_cons, zero_nsmul, add_zero]
      rintro heq
      have := Option.some.inj heq
      exact hx ⟨by rw [this], by rw [this]⟩

/-- **The segments stand for the list, and each goes on as long as it can.** -/
theorem segments_spec : ∀ {fuel : ℕ} {v : List (Element τ w)}, v.length ≤ fuel →
    itemsOf (segments fuel v) = v ∧ Folded (segments fuel v)
  | 0, v, h => by
    rw [List.length_eq_zero_iff.1 (Nat.le_zero.1 h)]
    exact ⟨rfl, trivial⟩
  | _ + 1, [], _ => ⟨rfl, trivial⟩
  | _ + 1, [x], _ => ⟨rfl, fun y z rest' h => by simp [itemsOf] at h, trivial⟩
  | fuel + 1, x :: y :: rest, h => by
    have hlen : (y :: rest).length ≤ fuel := Nat.le_of_succ_le_succ h
    obtain ⟨hitems, hfolded⟩ := segments_spec hlen
    rw [segments]
    by_cases htype : y.type ≠ x.type
    · rw [if_pos htype]
      refine ⟨congrArg (x :: ·) hitems, ?_, hfolded⟩
      intro y' z rest' heq hy
      rw [hitems] at heq
      rw [← (List.cons.inj heq).1] at hy
      exact absurd hy htype
    · rw [if_neg htype]
      have htype' : y.type = x.type := not_not.1 htype
      dsimp only
      by_cases hmore : 0 < countRun x.type (BitVec.ofInt w (toInt (y.number.toNat - x.number.toNat)))
          (y.number + BitVec.ofInt w (toInt (y.number.toNat - x.number.toNat))) rest
      · rw [if_pos hmore]
        set r : Run τ w := ⟨x.type, x.number, y.number, _⟩
        have hdrop : (rest.drop r.more).length ≤ fuel := by
          rw [List.length_drop]
          simp only [List.length_cons] at hlen
          omega
        obtain ⟨hitems', hfolded'⟩ := segments_spec hdrop
        have hsplit : (List.range r.more).map (fun i => (⟨r.type, r.second + r.wstep + i • r.wstep⟩ :
            Element τ w)) ++ rest.drop r.more = rest := countRun_split
        refine ⟨?_, ⟨hmore, ?_⟩, hfolded'⟩
        · have : itemsOf (.folded r :: segments fuel (rest.drop r.more)) =
              r.items ++ itemsOf (segments fuel (rest.drop r.more)) := rfl
          have hy : (⟨r.type, r.second⟩ : Element τ w) = y := by rw [show r.type = y.type from htype'.symm]
          rw [this, hitems', Run.items_eq, List.cons_append, List.cons_append, hsplit, hy]
        · rw [hitems', Run.value, Run.count, runValue, succ_nsmul', ← add_assoc]
          exact countRun_stop
      · rw [if_neg hmore]
        refine ⟨congrArg (x :: ·) hitems, ?_, hfolded⟩
        intro y' z rest' heq hy hz hnumber
        rw [hitems] at heq
        obtain ⟨rfl, rfl⟩ := List.cons.inj heq
        rw [countRun, if_pos ⟨hnumber, hz⟩] at hmore
        exact hmore (Nat.succ_pos _)

end Segments

/-! ## What a run is read as -/

section Steps

variable {w : ℕ} {n : ℤ}

theorem toInt_range (n : ℤ) : -2 ^ 31 ≤ toInt n ∧ toInt n < 2 ^ 31 := by
  unfold toInt
  have hlow := Int.le_bmod (x := n) (m := 2 ^ 32) (by decide)
  have hhigh := Int.bmod_lt (x := n) (m := 2 ^ 32) (by decide)
  omega

theorem toInt_of_range (hlow : -2 ^ 31 ≤ n) (hhigh : n < 2 ^ 31) : toInt n = n := by
  unfold toInt
  rw [Int.bmod_def]
  omega

theorem toInt_emod (h : 32 ≤ w) : toInt (n % 2 ^ w) = toInt n := by
  unfold toInt
  rw [← Int.emod_bmod (n % 2 ^ w), Int.emod_emod_of_dvd n (by exact_mod_cast pow_dvd_pow 2 h),
    Int.emod_bmod]

theorem toInt_emod_self : toInt n % 2 ^ 32 = n % 2 ^ 32 := Int.bmod_emod

theorem ofInt_eq_iff {m : ℤ} : BitVec.ofInt w n = BitVec.ofInt w m ↔ n % 2 ^ w = m % 2 ^ w := by
  rw [← BitVec.toNat_inj, BitVec.toNat_ofInt, BitVec.toNat_ofInt]
  have hpos : (0 : ℤ) < (2 ^ w : ℕ) := by positivity
  have hn := Int.emod_nonneg n hpos.ne'
  have hm := Int.emod_nonneg m hpos.ne'
  push_cast at *
  omega

theorem toNat_ofInt (n : ℤ) : ((BitVec.ofInt w n).toNat : ℤ) = n % 2 ^ w := by
  have hpos : (0 : ℤ) < (2 ^ w : ℕ) := by positivity
  rw [BitVec.toNat_ofInt, Int.toNat_of_nonneg (Int.emod_nonneg n hpos.ne')]
  push_cast
  rfl

theorem ofInt_toInt (h : w ≤ 32) (n : ℤ) : BitVec.ofInt w (toInt n) = BitVec.ofInt w n := by
  have hdvd : (2 ^ w : ℤ) ∣ 2 ^ 32 := pow_dvd_pow 2 h
  rw [ofInt_eq_iff, ← Int.emod_emod_of_dvd _ hdvd, toInt_emod_self, Int.emod_emod_of_dvd _ hdvd]

theorem ofInt_toNat (v : BitVec w) : BitVec.ofInt w v.toNat = v := by
  rw [BitVec.ofInt_natCast, BitVec.ofNat_toNat, BitVec.setWidth_eq]

theorem ofInt_sub_toNat (x y : BitVec w) : BitVec.ofInt w (x.toNat - y.toNat) = x - y := by
  rw [Int.sub_eq_add_neg, BitVec.ofInt_add, BitVec.ofInt_neg, ofInt_toNat, ofInt_toNat, sub_eq_add_neg]

end Steps

section Loops

variable {w : ℕ} {last step : BitVec w} {P : List (BitVec w)}

theorem countUp_some : ∀ {fuel : ℕ} {first : BitVec w} {P : List (BitVec w)},
    countUp last step fuel first = some P →
      ∃ m, EndsAfter (· ≤ last) first step m ∧ P = (List.range m).map fun i => first + i • step
  | 0, _, _, h => nomatch h
  | fuel + 1, first, P, h => by
    rw [countUp] at h
    by_cases hle : first ≤ last
    · rw [if_pos hle] at h
      obtain ⟨P', hP', rfl⟩ := Option.map_eq_some_iff.1 h
      obtain ⟨m, hends, rfl⟩ := countUp_some hP'
      refine ⟨m + 1, ⟨?_, ?_⟩, ?_⟩
      · rintro (_ | i) hi
        · rw [zero_nsmul, add_zero]
          exact hle
        · rw [succ_nsmul', ← add_assoc]
          exact hends.going i (by omega)
      · rw [succ_nsmul', ← add_assoc]
        exact hends.ended
      · rw [List.range_succ_eq_map, List.map_cons, List.map_map, zero_nsmul, add_zero]
        simp only [Function.comp_def, Nat.succ_eq_add_one, succ_nsmul', add_assoc]
    · rw [if_neg hle] at h
      obtain rfl := Option.some.inj h
      exact ⟨0, ⟨fun i hi => absurd hi (Nat.not_lt_zero i), by rwa [zero_nsmul, add_zero]⟩, rfl⟩

theorem countUp_of_endsAfter : ∀ {m fuel : ℕ} {first : BitVec w},
    EndsAfter (· ≤ last) first step m → m < fuel →
      countUp last step fuel first = some ((List.range m).map fun i => first + i • step)
  | _, 0, _, _, hfuel => absurd hfuel (Nat.not_lt_zero _)
  | 0, fuel + 1, first, h, _ => by
    have hended := h.ended
    rw [zero_nsmul, add_zero] at hended
    rw [countUp, if_neg hended]
    rfl
  | m + 1, fuel + 1, first, h, hfuel => by
    have hfirst := h.going 0 (Nat.succ_pos m)
    rw [zero_nsmul, add_zero] at hfirst
    have hrest : EndsAfter (· ≤ last) (first + step) step m := by
      refine ⟨fun i hi => ?_, ?_⟩
      · rw [add_assoc, ← succ_nsmul']
        exact h.going (i + 1) (by omega)
      · rw [add_assoc, ← succ_nsmul']
        exact h.ended
    rw [countUp, if_pos hfirst, countUp_of_endsAfter hrest (by omega), Option.map_some,
      List.range_succ_eq_map, List.map_cons, List.map_map, zero_nsmul, add_zero]
    simp only [Function.comp_def, Nat.succ_eq_add_one, succ_nsmul', add_assoc]

theorem range_map_reverse {α : Type*} (m : ℕ) (f : ℕ → α) :
    ((List.range m).map f).reverse = (List.range m).map fun i => f (m - 1 - i) := by
  apply List.ext_getElem
  · simp
  · intro i hi hi'
    simp

end Loops

section Reading

variable {τ : Type} {w : ℕ}

namespace Run

/-- The step of the run as it is read back: it is read as a number of the list's type. -/
def reread (r : Run τ w) : ℤ := toInt r.wstep.toNat

/-- The three ways in which a run is read: `m` numbers, the `i`-th of which is `p i`. -/
inductive ReadAs (r : Run τ w) (m : ℕ) : (ℕ → BitVec w) → Prop
  | upwards (hle : r.first ≤ r.last) (hends : EndsAfter (· ≤ r.last) r.first r.wstep m) :
      ReadAs r m fun i => r.first + i • r.wstep
  | turned (hlt : r.last < r.first) (hends : EndsAfter (· ≤ r.first) r.last r.wstep m) :
      ReadAs r m fun i => r.last + (m - 1 - i) • r.wstep
  | downwards (hw : 32 ≤ w) (hstep : -2 ^ 31 < r.step) (hneg : r.step < 0) (hlt : r.last < r.first)
      (hends : EndsAfter (· ≤ r.first) r.last (-r.wstep) m) :
      ReadAs r m fun i => r.last + (m - 1 - i) • (-r.wstep)

variable {r : Run τ w}

theorem step_range (r : Run τ w) : -2 ^ 31 ≤ r.step ∧ r.step < 2 ^ 31 := toInt_range _

theorem reread_of_le (h : 32 ≤ w) : r.reread = r.step := by
  have hrange := r.step_range
  rw [reread, wstep, toNat_ofInt, toInt_emod h, toInt_of_range hrange.1 hrange.2]

/-- In a type smaller than `int` no step is read as negative. -/
theorem reread_of_lt (h : w < 32) : r.reread = r.wstep.toNat := by
  have hlt := r.wstep.isLt
  have hpow : 2 ^ w ≤ 2 ^ 31 := Nat.pow_le_pow_right (by decide) (by omega)
  exact toInt_of_range (by omega) (by omega)

theorem ofInt_reread : BitVec.ofInt w r.reread = r.wstep := by
  rcases Nat.lt_or_ge w 32 with h | h
  · rw [reread_of_lt h, ofInt_toNat]
  · rw [reread_of_le h, wstep]

/-- What the step is when a descending run is read from its end. -/
theorem ofInt_intAbs_of_neg (hw : 32 ≤ w) (hmin : -2 ^ 31 < r.step) (hneg : r.step < 0) :
    BitVec.ofInt w (intAbs r.reread) = -r.wstep := by
  rw [reread_of_le hw, intAbs, if_pos hneg, toInt_of_range (by omega) (by omega), BitVec.ofInt_neg, wstep]

theorem ofInt_intAbs_of_not (h : ¬(32 ≤ w ∧ -2 ^ 31 < r.step ∧ r.step < 0)) :
    BitVec.ofInt w (intAbs r.reread) = r.wstep := by
  have hrange := r.step_range
  rw [intAbs]
  by_cases hneg : r.reread < 0
  · rw [if_pos hneg]
    have hw : 32 ≤ w := by
      by_contra hlt
      rw [reread_of_lt (by omega)] at hneg
      omega
    rw [reread_of_le hw] at hneg ⊢
    -- `abs` of the smallest `int` is itself
    have hmin : r.step = -2 ^ 31 := by
      by_contra hne
      exact h ⟨hw, by omega, hneg⟩
    rw [wstep, hmin]
    rfl
  · rw [if_neg hneg]
    exact ofInt_reread

theorem expand_some {fuel : ℕ} {P : List (BitVec w)} (h : expand fuel r.first r.reread r.last = some P) :
    ∃ m p, r.ReadAs m p ∧ P = (List.range m).map p := by
  rw [expand] at h
  by_cases hlt : r.last < r.first
  · rw [if_pos hlt] at h
    obtain ⟨P', hP', rfl⟩ := Option.map_eq_some_iff.1 h
    obtain ⟨m, hends, rfl⟩ := countUp_some hP'
    rw [range_map_reverse]
    by_cases hdown : 32 ≤ w ∧ -2 ^ 31 < r.step ∧ r.step < 0
    · rw [ofInt_intAbs_of_neg hdown.1 hdown.2.1 hdown.2.2] at hends ⊢
      exact ⟨m, _, .downwards hdown.1 hdown.2.1 hdown.2.2 hlt hends, rfl⟩
    · rw [ofInt_intAbs_of_not hdown] at hends ⊢
      exact ⟨m, _, .turned hlt hends, rfl⟩
  · rw [if_neg hlt, ofInt_reread] at h
    obtain ⟨m, hends, rfl⟩ := countUp_some h
    exact ⟨m, _, .upwards (BitVec.not_lt.1 hlt) hends, rfl⟩

end Run

end Reading

/-! ## Numbers that do not wrap -/

section NoWrap

variable {w : ℕ} {f σ last : BitVec w} {m : ℕ}

theorem toNat_add_nsmul (h : f.toNat + m * σ.toNat < 2 ^ w) :
    ∀ i ≤ m, (f + i • σ).toNat = f.toNat + i * σ.toNat
  | 0, _ => by rw [zero_nsmul, add_zero, Nat.zero_mul, Nat.add_zero]
  | i + 1, hi => by
    have hle : (i + 1) * σ.toNat ≤ m * σ.toNat := Nat.mul_le_mul_right _ hi
    rw [Nat.succ_mul] at hle
    rw [succ_nsmul, ← add_assoc, BitVec.toNat_add, toNat_add_nsmul h i (by omega), Nat.succ_mul,
      Nat.mod_eq_of_lt (by omega), Nat.add_assoc]

/-- A loop over numbers that do not wrap. -/
theorem endsAfter_of_lt (hσ : 0 < σ.toNat) (hm : 0 < m) (h : f.toNat + m * σ.toNat < 2 ^ w) :
    EndsAfter (· ≤ f + (m - 1) • σ) f σ m := by
  refine ⟨fun i hi => ?_, ?_⟩
  · rw [BitVec.le_def, toNat_add_nsmul h i (by omega), toNat_add_nsmul h (m - 1) (by omega)]
    exact Nat.add_le_add_left (Nat.mul_le_mul_right _ (by omega)) _
  · obtain ⟨k, rfl⟩ := Nat.exists_eq_add_one.2 hm
    rw [Nat.add_sub_cancel, BitVec.not_le, BitVec.lt_def, toNat_add_nsmul h _ le_rfl,
      toNat_add_nsmul h k (by omega), Nat.succ_mul]
    omega

/-- A loop that ends right after its last number goes over numbers that do not wrap. -/
theorem lt_of_endsAfter (hm : 0 < m) (h : EndsAfter (· ≤ f + (m - 1) • σ) f σ m) :
    0 < σ.toNat ∧ f.toNat + m * σ.toNat < 2 ^ w := by
  obtain ⟨n, rfl⟩ := Nat.exists_eq_add_one.2 hm
  rw [Nat.add_sub_cancel] at h
  have hlast := (f + n • σ).isLt
  have hσlt := σ.isLt
  have hended : (f + n • σ).toNat < (f + n • σ + σ).toNat := by
    have := h.ended
    rwa [BitVec.not_le, BitVec.lt_def, succ_nsmul, ← add_assoc] at this
  rw [BitVec.toNat_add (f + n • σ)] at hended
  have hnext : (f + n • σ).toNat + σ.toNat < 2 ^ w := by
    by_contra hge
    rw [Nat.mod_eq_sub_mod (by omega), Nat.mod_eq_of_lt (by omega)] at hended
    omega
  rw [Nat.mod_eq_of_lt hnext] at hended
  -- from the last number downwards
  have hdown : ∀ k ≤ n, k * σ.toNat ≤ (f + n • σ).toNat ∧
      (f + (n - k) • σ).toNat + k * σ.toNat = (f + n • σ).toNat := by
    intro k
    induction k with
    | zero => intro _; simp
    | succ k ih =>
      intro hk
      obtain ⟨hle, heq⟩ := ih (by omega)
      have hsucc : n - k = n - (k + 1) + 1 := by omega
      have hgoing := BitVec.le_def.1 (h.going (n - (k + 1)) (by omega))
      rw [hsucc, succ_nsmul, ← add_assoc, BitVec.toNat_add] at heq
      have hprev := (f + (n - (k + 1)) • σ).isLt
      rw [Nat.succ_mul]
      by_cases hwrap : (f + (n - (k + 1)) • σ).toNat + σ.toNat < 2 ^ w
      · rw [Nat.mod_eq_of_lt hwrap] at heq
        omega
      · rw [Nat.mod_eq_sub_mod (by omega), Nat.mod_eq_of_lt (by omega)] at heq
        omega
  obtain ⟨-, hfirst⟩ := hdown n le_rfl
  rw [Nat.sub_self, zero_nsmul, add_zero] at hfirst
  rw [Nat.succ_mul]
  omega

end NoWrap

/-! ## The runs that are read back -/

section Readable

variable {τ : Type} {w : ℕ}

namespace Run

/-- The step of the run is what its numbers differ by, and either it ascends and does not come to the
end of the type within one more step, or it descends, in a type that is not smaller than `int`, and
neither its numbers nor the one above its first one leave the type. -/
def Readable (r : Run τ w) : Prop :=
  (r.second.toNat : ℤ) - r.first.toNat = r.step ∧
    ((0 < r.step ∧ r.first.toNat + r.count * r.step < 2 ^ w) ∨
      (32 ≤ w ∧ -2 ^ 31 < r.step ∧ r.step < 0 ∧ 0 ≤ r.first.toNat + (r.count - 1) * r.step ∧
        r.first.toNat - r.step < 2 ^ w))

instance (r : Run τ w) : Decidable r.Readable := by unfold Readable; infer_instance

variable {r : Run τ w}

/-- Three steps of the run do not wrap: the step is the step of the numbers. -/
theorem step_eq (hlt : 3 * r.wstep.toNat < 2 ^ w)
    (hsecond : r.second.toNat = r.first.toNat + r.wstep.toNat) : r.step = r.wstep.toNat := by
  have hrange := r.step_range
  rcases Nat.lt_or_ge 32 w with hw | hw
  · have hwstep : (r.wstep.toNat : ℤ) = r.step % 2 ^ w := toNat_ofInt _
    have hpow : (2 : ℤ) ^ 33 ≤ 2 ^ w := pow_le_pow_right₀ (by decide) hw
    have hlt' : 3 * (r.wstep.toNat : ℤ) < 2 ^ w := by exact_mod_cast hlt
    by_cases hneg : r.step < 0
    · rw [← Int.add_emod_right, Int.emod_eq_of_lt (by omega) (by omega)] at hwstep
      omega
    · rw [Int.emod_eq_of_lt (by omega) (by omega)] at hwstep
      exact hwstep.symm
  · have hpow : 2 ^ w ≤ 2 ^ 32 := Nat.pow_le_pow_right (by decide) hw
    have hdiff : (r.second.toNat : ℤ) - r.first.toNat = r.wstep.toNat := by omega
    rw [step, hdiff]
    exact toInt_of_range (by omega) (by omega)

theorem last_eq (h : r.second = r.first + r.wstep) :
    r.last = r.first + (r.count - 1) • r.wstep := runValue_of_eq h (r.count - 1)

theorem value_eq (h : r.second = r.first + r.wstep) (i : ℕ) : r.value i = r.first + i • r.wstep :=
  runValue_of_eq h i

theorem count_ge (hmore : 0 < r.more) : 3 ≤ r.count := by rw [count]; omega

/-- **A run that is read as what it was is readable.** -/
theorem ReadAs.readable {p : ℕ → BitVec w} (h : r.ReadAs r.count p) (hmore : 0 < r.more)
    (heq : ∀ i < r.count, p i = r.value i) : r.Readable := by
  have hn := count_ge hmore
  have hone : r.value 1 = r.second := runValue_one
  cases h with
  | upwards hle hends =>
    have hb : r.second = r.first + r.wstep := by
      rw [← hone, ← heq 1 (by omega)]
      exact congrArg _ (one_nsmul _)
    rw [last_eq hb] at hends
    obtain ⟨hpos, hlt⟩ := lt_of_endsAfter (by omega) hends
    have hthree : 3 * r.wstep.toNat ≤ r.count * r.wstep.toNat := Nat.mul_le_mul_right _ hn
    have hsecond := toNat_add_nsmul hlt 1 (by omega)
    rw [one_nsmul, ← hb, Nat.one_mul] at hsecond
    have hstep := step_eq (by omega) hsecond
    refine ⟨by omega, .inl ⟨by omega, ?_⟩⟩
    rw [hstep]
    exact_mod_cast hlt
  | turned hlt hends =>
    -- two steps back from the first number is the third one, which is two steps on
    have h0 : r.last + (r.count - 1 - 0) • r.wstep = r.first := heq 0 (by omega)
    have h2 : r.last + (r.count - 1 - 2) • r.wstep = r.second + r.wstep :=
      (heq 2 (by omega)).trans runValue_two
    have h1 : r.last + (r.count - 1 - 1) • r.wstep = r.second := (heq 1 (by omega)).trans hone
    have hfirst : r.first = r.second + r.wstep := by
      have hsucc : r.count - 1 - 0 = r.count - 1 - 1 + 1 := by omega
      rw [← h0, ← h1, add_assoc, ← succ_nsmul, hsucc]
    rw [← hfirst, ← h0] at h2
    have htwo : r.count - 1 - 0 = r.count - 1 - 2 + 2 := by omega
    rw [htwo, add_nsmul, ← add_assoc] at h2
    exact absurd (add_eq_left.1 h2.symm) (hends.nsmul_ne_zero (by omega) (by omega))
  | downwards hw hmin hneg hlt hends =>
    have h0 : r.last + (r.count - 1) • (-r.wstep) = r.first := heq 0 (by omega)
    have h1 : r.last + (r.count - 1 - 1) • (-r.wstep) = r.second := (heq 1 (by omega)).trans hone
    rw [← h0] at hends
    obtain ⟨hpos, hlt'⟩ := lt_of_endsAfter (by omega) hends
    have hstep : ((-r.wstep).toNat : ℤ) = -r.step := by
      have hpow : (2 : ℤ) ^ 32 ≤ 2 ^ w := pow_le_pow_right₀ (by decide) hw
      rw [wstep, ← BitVec.ofInt_neg, toNat_ofInt, Int.emod_eq_of_lt (by omega) (by omega)]
    obtain ⟨k, hk⟩ : ∃ k, r.count = k + 2 := ⟨r.more, rfl⟩
    rw [hk] at hlt' h0 h1
    have hfirst := toNat_add_nsmul hlt' (k + 1) (by omega)
    have hsecond := toNat_add_nsmul hlt' k (by omega)
    have h0' : r.last + (k + 1) • (-r.wstep) = r.first := h0
    have h1' : r.last + k • (-r.wstep) = r.second := h1
    rw [h0', Nat.succ_mul] at hfirst
    rw [h1'] at hsecond
    rw [Nat.add_mul] at hlt'
    zify [hstep] at hfirst hsecond hlt'
    refine ⟨by linarith, .inr ⟨hw, hmin, hneg, ?_, ?_⟩⟩
    · have hlast : (0 : ℤ) ≤ r.last.toNat := Int.natCast_nonneg _
      rw [hk]
      push_cast
      linarith
    · linarith

/-- **A readable run is read as what it was**, given enough rounds. -/
theorem Readable.expand (h : r.Readable) (hmore : 0 < r.more) {fuel : ℕ} (hfuel : r.count < fuel) :
    expand fuel r.first r.reread r.last = some ((List.range r.count).map r.value) := by
  have hn := count_ge hmore
  have hrange := r.step_range
  obtain ⟨hdiff, ⟨hpos, hlt⟩ | ⟨hw, hmin, hneg, hlow, hhigh⟩⟩ := h
  · have hle : 3 * r.step ≤ r.count * r.step :=
      mul_le_mul_of_nonneg_right (by exact_mod_cast hn) hpos.le
    have hstep : (r.wstep.toNat : ℤ) = r.step := by
      rw [wstep, toNat_ofInt, Int.emod_eq_of_lt (by omega) (by omega)]
    have hb : r.second = r.first + r.wstep := by
      rw [← BitVec.toNat_inj, BitVec.toNat_add, Nat.mod_eq_of_lt] <;> zify [hstep] <;> omega
    have hlt' : r.first.toNat + r.count * r.wstep.toNat < 2 ^ w := by
      zify [hstep]
      exact hlt
    have hends := endsAfter_of_lt (by omega) (by omega) hlt'
    rw [← last_eq hb] at hends
    have hnot : ¬r.last < r.first := by
      have hfirst := hends.going 0 (by omega)
      rwa [zero_nsmul, add_zero, ← BitVec.not_lt] at hfirst
    rw [Util.expand, if_neg hnot, ofInt_reread, countUp_of_endsAfter hends hfuel]
    exact congrArg some (List.map_congr_left fun i _ => (value_eq hb i).symm)
  · have hstep : ((-r.wstep).toNat : ℤ) = -r.step := by
      have hpow : (2 : ℤ) ^ 32 ≤ 2 ^ w := pow_le_pow_right₀ (by decide) hw
      rw [wstep, ← BitVec.ofInt_neg, toNat_ofInt, Int.emod_eq_of_lt (by omega) (by omega)]
    have hb : r.first = r.second + -r.wstep := by
      have hfirst := r.first.isLt
      have hlt : r.second.toNat + (-r.wstep).toNat < 2 ^ w := by omega
      rw [← BitVec.toNat_inj, BitVec.toNat_add, Nat.mod_eq_of_lt hlt]
      omega
    have hb' : r.second = r.first + r.wstep := by rw [hb, neg_add_cancel_right]
    have hlast : r.last + (r.count - 1) • (-r.wstep) = r.first := by
      rw [last_eq hb', neg_nsmul, add_neg_cancel_right]
    -- the last number, by what it is as a natural number
    obtain ⟨x, hx⟩ := Int.eq_ofNat_of_zero_le hlow
    have hcount : ((r.count - 1 : ℕ) : ℤ) = r.count - 1 := by omega
    have hmul : (r.count : ℤ) * r.step = (r.count - 1) * r.step + r.step := by
      rw [sub_mul, one_mul, sub_add_cancel]
    have hle : (r.count - 1 : ℤ) * r.step ≤ 0 :=
      mul_nonpos_of_nonneg_of_nonpos (by omega) hneg.le
    have hxlt : x < 2 ^ w := by
      have hfirst := r.first.isLt
      omega
    have hlastNat : (BitVec.ofNat w x).toNat = x := by
      rw [BitVec.toNat_ofNat, Nat.mod_eq_of_lt hxlt]
    have hlt : (BitVec.ofNat w x).toNat + r.count * (-r.wstep).toNat < 2 ^ w := by
      rw [hlastNat]
      zify [hstep]
      linarith
    have hx' : BitVec.ofNat w x = r.last := by
      have hfirst := toNat_add_nsmul hlt (r.count - 1) (by omega)
      refine add_right_cancel (b := (r.count - 1) • (-r.wstep)) ?_
      rw [hlast, ← BitVec.toNat_inj, hfirst, hlastNat]
      zify [hstep]
      rw [hcount]
      linarith
    rw [hx'] at hlt hlastNat
    have hends := endsAfter_of_lt (by omega) (by omega) hlt
    rw [hlast] at hends
    have hdesc : r.last < r.first := by
      have htwo : (2 : ℤ) * (-r.step) ≤ (r.count - 1) * (-r.step) :=
        mul_le_mul_of_nonneg_right (by omega) (by omega)
      rw [BitVec.lt_def, hlastNat]
      linarith
    rw [Util.expand, if_pos hdesc, ofInt_intAbs_of_neg hw hmin hneg, countUp_of_endsAfter hends hfuel,
      Option.map_some, range_map_reverse]
    refine congrArg some (List.map_congr_left fun i hi => ?_)
    have hi' := List.mem_range.1 hi
    have hsplit : r.count - 1 = (r.count - 1 - i) + i := by omega
    rw [value_eq hb']
    conv_rhs => rw [← hlast, hsplit, add_nsmul]
    rw [neg_nsmul _ i]
    abel

end Run

end Readable

/-! ## The segments that are read back -/

/-- Only a folded run can be read as something else. -/
def Segment.Readable {τ : Type} {w : ℕ} : Segment τ w → Prop
  | .single _ => True
  | .folded r => r.Readable

instance {τ : Type} {w : ℕ} : (seg : Segment τ w) → Decidable seg.Readable
  | .single _ => inferInstanceAs (Decidable True)
  | .folded r => inferInstanceAs (Decidable r.Readable)

section Trip

variable {τ : Type} {w : ℕ} {r : Run τ w} {before after segs : List (Segment τ w)}
  {front missing : List (Element τ w)}

/-- What a segment is read as. -/
def Segment.read (fuel : ℕ) : Segment τ w → Option (List (Element τ w))
  | .single x => some [x]
  | .folded r => (expand fuel r.first r.reread r.last).map fun ns => ns.map (⟨r.type, ·⟩)

theorem getElem?_append_length_add {α : Type*} (xs ys : List α) (i : ℕ) :
    (xs ++ ys)[xs.length + i]? = ys[i]? := by
  rw [List.getElem?_append_right (Nat.le_add_right _ _), Nat.add_sub_cancel_left]

theorem itemsOf_append (segs segs' : List (Segment τ w)) :
    itemsOf (segs ++ segs') = itemsOf segs ++ itemsOf segs' := by
  unfold itemsOf
  rw [List.map_append, List.flatten_append]

theorem itemsOf_singleton (seg : Segment τ w) : itemsOf [seg] = seg.items := by
  unfold itemsOf
  rw [List.map_singleton, List.flatten_singleton]

/-- The step between numbers a step of a run apart is the step of the run. -/
theorem Run.ofInt_toInt_sub (r : Run τ w) (x : BitVec w) :
    BitVec.ofInt w (toInt (x.toNat - (x - r.wstep).toNat)) = r.wstep := by
  rcases Nat.le_total w 32 with hw | hw
  · rw [ofInt_toInt hw, ofInt_sub_toNat, sub_sub_cancel]
  · have hrange := r.step_range
    have hmod : ((x.toNat : ℤ) - (x - r.wstep).toNat) % 2 ^ w = r.step % 2 ^ w := by
      rw [← ofInt_eq_iff, ofInt_sub_toNat, sub_sub_cancel, wstep]
    rw [← toInt_emod hw, hmod, toInt_emod hw, toInt_of_range hrange.1 hrange.2, wstep]

/-- Before a run in equal steps there are no two numbers that it would have gone on from. -/
theorem Folded.not_before (h : Folded (before ++ .folded r :: after))
    (hb : r.second = r.first + r.wstep) (hfront : itemsOf before = front ++ missing)
    (hlen : 2 ≤ missing.length)
    (hone : missing[missing.length - 1]? = some ⟨r.type, r.first - r.wstep⟩)
    (htwo : missing[missing.length - 2]? = some ⟨r.type, r.first - 2 • r.wstep⟩) : False := by
  rcases List.eq_nil_or_concat before with rfl | ⟨init, seg, rfl⟩
  · have hnil : front ++ missing = [] := hfront.symm
    rw [(List.append_eq_nil_iff.1 hnil).2, List.length_nil] at hlen
    exact absurd hlen (by decide)
  · rw [List.concat_eq_append] at h hfront
    rw [List.append_assoc, List.singleton_append] at h
    have hstops := h.stops
    rw [itemsOf_append, itemsOf_singleton] at hfront
    have hrest : itemsOf (.folded r :: after) = r.items ++ itemsOf after := rfl
    -- the elements from the end on, in both ways of cutting the list
    have hget : ∀ k, 0 < k → k ≤ seg.items.length → k ≤ missing.length →
        seg.items[seg.items.length - k]? = missing[missing.length - k]? := by
      intro k hk hseg hmissing
      have hsum : (itemsOf init).length + seg.items.length = front.length + missing.length := by
        rw [← List.length_append, hfront, List.length_append]
      have hindex : (itemsOf init).length + (seg.items.length - k) =
          front.length + (missing.length - k) := by omega
      rw [← getElem?_append_length_add (itemsOf init), hfront, hindex, getElem?_append_length_add]
    cases seg with
    | single x =>
      have hx := hget 1 (by omega) (by simp [Segment.items]) (by omega)
      rw [hone] at hx
      obtain rfl : x = ⟨r.type, r.first - r.wstep⟩ := by simpa [Segment.items] using hx
      refine hstops ⟨r.type, r.first⟩ ⟨r.type, r.second⟩ _
        (by rw [hrest, Run.items_eq, List.cons_append, List.cons_append]) rfl rfl ?_
      rw [Run.ofInt_toInt_sub]
      exact hb
    | folded r' =>
      obtain ⟨hmore, hhead⟩ := hstops
      have hcount := Run.count_ge hmore
      have hlen' : (Segment.folded r').items.length = r'.count := Run.length_items r'
      have hitem : ∀ i < r'.count, (Segment.folded r').items[i]? = some ⟨r'.type, r'.value i⟩ := by
        intro i hi
        simp [Segment.items, Run.items, hi]
      have h1 := hget 1 (by omega) (by omega) (by omega)
      have h2 := hget 2 (by omega) (by omega) (by omega)
      rw [hlen', hitem _ (by omega), hone] at h1
      rw [hlen', hitem _ (by omega), htwo] at h2
      simp only [Option.some.injEq, Element.mk.injEq] at h1 h2
      obtain ⟨k, hk⟩ : ∃ k, r'.count = k + 3 := ⟨r'.count - 3, by omega⟩
      have hnext : ∀ i, r'.value (i + 2) = r'.value (i + 1) + r'.wstep := fun i => by
        rw [Run.value, runValue, runValue, succ_nsmul, add_assoc]
      rw [hk] at h1 h2
      have hv1 : r'.value (k + 2) = r.first - r.wstep := h1.2
      have hv2 : r'.value (k + 1) = r.first - 2 • r.wstep := h2.2
      have hstep : r'.wstep = r.wstep := by
        have hnext' := hnext k
        rw [hv1, hv2, two_nsmul] at hnext'
        have hcancel : r.first - (r.wstep + r.wstep) + r.wstep = r.first - (r.wstep + r.wstep) + r'.wstep := by
          rw [← hnext']
          abel
        exact (add_left_cancel hcancel).symm
      refine hhead ?_
      have hv0 : r'.value (k + 3) = r.first := by
        rw [hnext (k + 1), hv1, hstep, sub_add_cancel]
      rw [hrest, Run.items_eq, List.cons_append, List.head?_cons, hk, hv0, h1.1]

/-- No reading of a run catches up with what is missing before it. -/
theorem Run.ReadAs.caught {m : ℕ} {p : ℕ → BitVec w} (hread : r.ReadAs m p)
    (h : Folded (before ++ .folded r :: after)) (hfront : itemsOf before = front ++ missing)
    (hmissing : missing = [] ∨ 2 ≤ missing.length)
    (hpre : (List.range m).map (fun i => (⟨r.type, p i⟩ : Element τ w)) <+:
      missing ++ r.items ++ itemsOf after) :
    (missing.length = 0 ∧ m = r.count) ∨ m + 2 ≤ missing.length + r.count := by
  obtain ⟨hmore, hhead⟩ := h.stops
  have hn := r.count_ge hmore
  have hd : missing.length = 0 ∨ 2 ≤ missing.length := hmissing.imp_left List.length_eq_zero_iff.2
  have hget : ∀ i < m, (missing ++ r.items ++ itemsOf after)[i]? = some ⟨r.type, p i⟩ := by
    obtain ⟨rest, hrest⟩ := hpre
    intro i hi
    rw [← hrest, List.getElem?_append_left (by simpa using hi)]
    simp [hi]
  have hvalue : ∀ j < r.count, missing.length + j < m → p (missing.length + j) = r.value j := by
    intro j hj hlt
    have hitem := hget _ hlt
    rw [List.append_assoc, getElem?_append_length_add,
      List.getElem?_append_left (by simpa using hj)] at hitem
    simp only [Run.items, List.getElem?_map, List.getElem?_range hj, Option.map_some,
      Option.some.injEq, Element.mk.injEq, true_and] at hitem
    exact hitem.symm
  cases hread with
  | upwards hle hends =>
    refine caught_upwards hends (BitVec.le_refl _) hn hd hvalue fun hzero hlt heq => ?_
    have hnext := hget r.count hlt
    rw [List.length_eq_zero_iff.1 hzero, List.nil_append,
      List.getElem?_append_right (Nat.le_of_eq r.length_items), r.length_items, Nat.sub_self] at hnext
    rw [← List.head?_eq_getElem?] at hnext
    exact hhead (hnext.trans (congrArg (fun x => some (Element.mk r.type x)) heq))
  | turned hlt hends =>
    exact .inr (caught_turned hends hn (BitVec.ne_of_lt hlt) hvalue)
  | downwards hw hmin hneg hlt hends =>
    refine caught_downwards hends hn hd hvalue fun htwo hlt' hb hone htwo' => ?_
    have hlast : ∀ k, 0 < k → k ≤ 2 → missing[missing.length - k]? =
        some ⟨r.type, r.last + (m - 1 - (missing.length - k)) • (-r.wstep)⟩ := by
      intro k hk hk2
      have hitem := hget (missing.length - k) (by omega)
      rwa [List.append_assoc, List.getElem?_append_left (by omega)] at hitem
    refine h.not_before hb hfront htwo ?_ ?_
    · rw [hlast 1 (by decide) (by decide)]
      exact congrArg (fun x => some (Element.mk r.type x)) hone
    · rw [hlast 2 (by decide) (by decide)]
      exact congrArg (fun x => some (Element.mk r.type x)) htwo'

/-- The segments of a list, read one after the other. -/
def readAll (fuel : ℕ) : List (Segment τ w) → Option (List (Element τ w))
  | [] => some []
  | seg :: segs => do
    let res ← seg.read fuel
    let result ← readAll fuel segs
    return res ++ result

/-- A segment with what is read of it. -/
def Segment.piece (fuel : ℕ) (seg : Segment τ w) : List (Element τ w) × List (Element τ w) :=
  (seg.items, (seg.read fuel).getD [])

theorem readAll_some {fuel : ℕ} : ∀ {segs : List (Segment τ w)} {L : List (Element τ w)},
    readAll fuel segs = some L → (∀ seg ∈ segs, seg.read fuel = some (seg.piece fuel).2) ∧
      L = ((segs.map (Segment.piece fuel)).map Prod.snd).flatten
  | [], _, h => ⟨fun _ hseg => absurd hseg List.not_mem_nil, (Option.some.inj h).symm⟩
  | seg :: segs, L, h => by
    simp only [readAll, Option.bind_eq_bind, Option.bind_eq_some_iff, Option.pure_def,
      Option.some.injEq] at h
    obtain ⟨res, hres, result, hresult, rfl⟩ := h
    obtain ⟨hall, rfl⟩ := readAll_some hresult
    have hpiece : (seg.piece fuel).2 = res := by rw [Segment.piece, hres, Option.getD_some]
    refine ⟨List.forall_mem_cons.2 ⟨by rw [hpiece, hres], hall⟩, ?_⟩
    rw [List.map_cons, List.map_cons, List.flatten_cons, hpiece]

theorem map_fst_pieces (fuel : ℕ) (segs : List (Segment τ w)) :
    (segs.map (Segment.piece fuel)).map Prod.fst = segs.map Segment.items := by
  rw [List.map_map]
  rfl

/-- What is read never catches up with what is missing. -/
theorem Folded.neverCatchesUp (h : Folded segs) {fuel : ℕ}
    (hread : ∀ seg ∈ segs, seg.read fuel = some (seg.piece fuel).2) :
    NeverCatchesUp (segs.map (Segment.piece fuel)) := by
  intro before written read after front missing hpieces hfront hmissing hpre
  obtain ⟨before, rest, rfl, rfl, hrest⟩ := List.map_eq_append_iff.1 hpieces
  obtain ⟨seg, after, rfl, hseg, rfl⟩ := List.map_eq_cons_iff.1 hrest
  rw [map_fst_pieces] at hfront hpre
  have hsome := hread seg (List.mem_append_right _ List.mem_cons_self)
  rw [hseg] at hsome
  obtain rfl : seg.items = written := congrArg Prod.fst hseg
  cases seg with
  | single x =>
    obtain rfl : [x] = read := Option.some.inj hsome
    rcases hmissing with rfl | hlen
    · exact .inl ⟨rfl, rfl⟩
    · right
      simp only [List.length_singleton, Segment.items]
      omega
  | folded r =>
    obtain ⟨ns, hns, rfl⟩ := Option.map_eq_some_iff.1 hsome
    obtain ⟨m, p, hreadAs, rfl⟩ := r.expand_some hns
    rw [List.map_map] at hpre
    rcases hreadAs.caught h hfront hmissing hpre with ⟨hzero, rfl⟩ | hshort
    · left
      rw [List.length_eq_zero_iff.1 hzero] at hpre ⊢
      refine ⟨rfl, ?_⟩
      rw [List.map_map]
      refine List.IsPrefix.eq_of_length (List.prefix_of_prefix_length_le hpre
        (List.prefix_append _ _) ?_) ?_
      all_goals simp [Segment.items]
    · right
      rw [List.length_map, List.length_map, List.length_range]
      exact hshort.trans_eq (congrArg _ r.length_items.symm)

theorem Segment.readable_of_read {fuel : ℕ} {rest : List (Element τ w)}
    (h : (Segment.folded r).Stops rest) (hread : (Segment.folded r).read fuel = some r.items) :
    r.Readable := by
  obtain ⟨ns, hns, heq⟩ := Option.map_eq_some_iff.1 hread
  obtain ⟨m, p, hreadAs, rfl⟩ := r.expand_some hns
  have hlen : m = r.count := by
    have := congrArg List.length heq
    simpa using this
  subst hlen
  refine hreadAs.readable h.1 fun i hi => ?_
  have := congrArg (fun l => l[i]?) heq
  simpa [Run.items, hi] using this

/-- With enough rounds, a list whose runs are readable is read back. -/
theorem readAll_of_readable : ∀ {segs : List (Segment τ w)}, Folded segs →
    (∀ seg ∈ segs, seg.Readable) →
      ∃ N, ∀ fuel, N ≤ fuel → readAll fuel segs = some (itemsOf segs)
  | [], _, _ => ⟨0, fun _ _ => rfl⟩
  | seg :: segs, h, hreadable => by
    obtain ⟨hhead, htail⟩ := List.forall_mem_cons.1 hreadable
    obtain ⟨N, hN⟩ := readAll_of_readable h.2 htail
    have hitems : itemsOf (seg :: segs) = seg.items ++ itemsOf segs := rfl
    cases seg with
    | single x =>
      refine ⟨N, fun fuel hfuel => ?_⟩
      rw [readAll, hN fuel hfuel, hitems]
      rfl
    | folded r =>
      refine ⟨max N (r.count + 1), fun fuel hfuel => ?_⟩
      have hr := Run.Readable.expand hhead h.1.1 (show r.count < fuel by omega)
      rw [readAll, hN fuel (by omega), hitems, Segment.read, hr, Option.map_some, List.map_map]
      rfl

/-- **The segments of a list are read back as the list exactly if its runs are readable.** -/
theorem read_back_iff (h : Folded segs) :
    (∃ fuel, readAll fuel segs = some (itemsOf segs)) ↔ ∀ seg ∈ segs, seg.Readable := by
  constructor
  · rintro ⟨fuel, hread⟩ seg hseg
    obtain ⟨hall, heq⟩ := readAll_some hread
    rw [itemsOf, ← map_fst_pieces fuel segs] at heq
    have hpieces := (flatten_read_iff (h.neverCatchesUp hall)).1 heq.symm
    have hpiece : (seg.piece fuel).2 = seg.items := hpieces _ (List.mem_map_of_mem hseg)
    have hback := hall _ hseg
    rw [hpiece] at hback
    obtain ⟨before, after, rfl⟩ := List.append_of_mem hseg
    cases seg with
    | single x => trivial
    | folded r => exact Segment.readable_of_read h.stops hback
  · intro hreadable
    obtain ⟨N, hN⟩ := readAll_of_readable h hreadable
    exact ⟨N, hN N le_rfl⟩

end Trip

end Redux.Util
