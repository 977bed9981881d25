import Mathlib.Data.Int.Basic

/-!
# Util.ProgressWatch — a counter that calls a handler at its target

`step` takes the handler out when the counter reaches the target, so that it is called once.  The
ticker, which only redraws a progress string, is left out.
-/

namespace Redux

/-- `ProgressWatch`, with handlers of type `η`. -/
structure ProgressWatch (η : Type) where
  start : ℤ
  counter : ℤ
  target : ℤ
  completed : Bool
  onCompletion : Option η
  deriving DecidableEq, Repr

namespace ProgressWatch

variable {η : Type} (w : ProgressWatch η)

/-- `clear()`. -/
def clear : ProgressWatch η := ⟨0, 0, 0, false, none⟩

/-- `set( end, start )`. -/
def set (target : ℤ) (start : ℤ) : ProgressWatch η :=
  { w with target := target, counter := start, start := start, completed := decide (start = target) }

/-- `setTarget( t )`. -/
def setTarget (t : ℤ) : ProgressWatch η := { w with target := t }

/-- `increaseTarget( count )`. -/
def increaseTarget (count : ℤ) : ProgressWatch η := { w with target := w.target + count }

/-- `setHandler( cb )`. -/
def setHandler (cb : η) : ProgressWatch η := { w with onCompletion := some cb }

/-- `step()`, that is `++`: the handler to call, if the target is reached. -/
def step : ProgressWatch η × Option η :=
  let counter := w.counter + 1
  let notify := decide (w.start ≠ w.target ∧ counter = w.target)
  if notify then
    ({ w with counter := w.start, completed := notify, onCompletion := none }, w.onCompletion)
  else ({ w with counter := counter, completed := notify }, none)

/-- `increase( count )`, that is `step( count )`. -/
def increase (count : ℤ) : ProgressWatch η × Option η :=
  let counter := w.counter + count
  let notify := decide (w.start ≠ w.target ∧ counter = w.target)
  if notify then
    ({ w with counter := w.start, completed := notify, onCompletion := none }, w.onCompletion)
  else ({ w with counter := counter, completed := notify }, none)

/-- `test()`: the same without the step. -/
def test : ProgressWatch η × Option η :=
  let notify := decide (w.start ≠ w.target ∧ w.counter = w.target)
  if notify then
    ({ w with counter := w.start, completed := notify, onCompletion := none }, w.onCompletion)
  else ({ w with completed := notify }, none)

@[simp] theorem set_target (target start : ℤ) : (w.set target start).target = target := rfl

theorem step_of_eq (h₁ : w.start ≠ w.target) (h₂ : w.counter + 1 = w.target) : w.step =
    ({ w with counter := w.start, completed := true, onCompletion := none }, w.onCompletion) := by
  simp [step, h₁, h₂]

theorem step_of_ne (h : w.counter + 1 ≠ w.target) :
    w.step = ({ w with counter := w.counter + 1, completed := false }, none) := by
  simp [step, h]

theorem step_start : w.step.1.start = w.start := by
  rw [step]
  split_ifs <;> rfl

theorem step_target : w.step.1.target = w.target := by
  rw [step]
  split_ifs <;> rfl

theorem step_completed : w.step.1.completed = true ↔ w.start ≠ w.target ∧ w.counter + 1 = w.target := by
  rw [step]
  split_ifs with h
  · exact decide_eq_true_iff
  · exact decide_eq_true_iff

/-- A step that does not complete the watch is counted. -/
theorem step_counter (h : w.step.1.completed = false) : w.step.1.counter = w.counter + 1 := by
  by_cases hit : w.start ≠ w.target ∧ w.counter + 1 = w.target
  · exact absurd (w.step_completed.2 hit) (by rw [h]; exact Bool.false_ne_true)
  · simp [step, hit]

theorem test_of_ne (h : w.counter ≠ w.target) : w.test = ({ w with completed := false }, none) := by
  simp [test, h]

/-! ## A watch for a known number of steps -/

theorem increase_of_eq {count : ℤ} (h₁ : w.start ≠ w.target) (h₂ : w.counter + count = w.target) :
    w.increase count = ({ w with counter := w.start, completed := true, onCompletion := none }, w.onCompletion) := by
  simp [increase, h₁, h₂]

theorem increase_of_ne {count : ℤ} (h : w.counter + count ≠ w.target) :
    w.increase count = ({ w with counter := w.counter + count, completed := false }, none) := by
  simp [increase, h]

/-- Of the `n` steps that the watch waits for, `k` have been made. -/
structure Counts (n k : ℕ) : Prop where
  start : w.start = 0
  target : w.target = n
  completed : w.completed = true ↔ k = n
  counter : k < n → w.counter = k

theorem counts_set (n : ℕ) : (w.set n 0).Counts n 0 where
  start := rfl
  target := rfl
  completed := by
    show decide ((0 : ℤ) = n) = true ↔ 0 = n
    rw [decide_eq_true_iff]
    omega
  counter _ := rfl

variable {w} {n k : ℕ}

/-- **The watch completes with the last of its steps, however many are made at once.** -/
theorem Counts.increase (h : w.Counts n k) {c : ℕ} (hpos : 0 < c) (hle : k + c ≤ n) :
    (w.increase c).1.Counts n (k + c) := by
  obtain ⟨hstart, htarget, -, hcounter⟩ := h
  have hcount := hcounter (by omega)
  by_cases hit : k + c = n
  · rw [w.increase_of_eq (by omega) (by omega)]
    exact ⟨hstart, htarget, iff_of_true rfl hit, fun hlt => absurd hit (Nat.ne_of_lt hlt)⟩
  · rw [w.increase_of_ne (by omega)]
    refine ⟨hstart, htarget, iff_of_false Bool.false_ne_true hit, fun _ => ?_⟩
    show w.counter + c = _
    omega

theorem Counts.step (h : w.Counts n k) (hlt : k < n) : w.step.1.Counts n (k + 1) :=
  h.increase Nat.one_pos hlt

/-- The handler is taken out by the last step. -/
theorem Counts.step_last (h : w.Counts n k) (hlast : k + 1 = n) : w.step.2 = w.onCompletion := by
  have hcount := h.counter (by omega)
  have hstart := h.start
  have htarget := h.target
  rw [w.step_of_eq (by omega) (by omega)]

/-- The steps before leave it where it is. -/
theorem Counts.step_before (h : w.Counts n k) (hlt : k + 1 < n) :
    w.step.2 = none ∧ w.step.1.onCompletion = w.onCompletion := by
  have hcount := h.counter (by omega)
  have htarget := h.target
  rw [w.step_of_ne (by omega)]
  exact ⟨rfl, rfl⟩

end ProgressWatch

end Redux
