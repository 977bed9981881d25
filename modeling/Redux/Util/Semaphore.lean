import Mathlib.Data.List.Basic
import Mathlib.Data.Int.Basic
import Mathlib.Algebra.Order.Ring.Nat
import Mathlib.Algebra.Order.Ring.Int
import Redux.Lib.Run

/-!
# Util.Semaphore — transfer slots whose number may change while they are taken

`counter` is the number of free slots and `init` the configured number; both are 32 bit.  Every change of
the size is made to both of them, and a slot that is taken is in neither.  So the books balance as long as
the size does not go below the number of slots that are taken, and `reset` is left to times when there
are none (`semaphore_balanced`).  Below that, `set` wraps the counter around, and `decrease` leaves it at
zero but forgets how many slots are to come back.
-/

namespace Redux

open Redux.Lib

/-- `Semaphore`, with the scopes that hold a slot. -/
structure Semaphore where
  counter : ℕ
  init : ℕ
  holders : List ℕ
  deriving DecidableEq

namespace Semaphore

section Model

/-- `unsigned int` arithmetic. -/
def wrap (n : ℤ) : ℕ := (n % 2 ^ 32).toNat

/-- The atomic operations.  `timeout` is a timed `get` that returns `false`. -/
inductive Op where
  | get (scope : ℕ)
  | timeout
  | release (scope : ℕ)
  | decrease (val : ℕ)
  | increase (val : ℕ)
  | set (val : ℕ)
  | reset
  deriving DecidableEq

/-- `Semaphore( cnt )`. -/
def new (cnt : ℕ) : Semaphore := ⟨wrap cnt, wrap cnt, []⟩

variable (s : Semaphore)

/-- `get()` waits for the counter to be positive. -/
def get (scope : ℕ) : Option Semaphore :=
  if s.counter > 0 then some { s with counter := s.counter - 1, holders := scope :: s.holders } else none

/-- `Scope::release()`, which does nothing the second time. -/
def release (scope : ℕ) : Semaphore :=
  if scope ∈ s.holders then { s with counter := wrap (s.counter + 1), holders := s.holders.erase scope } else s

def decrease (val : ℕ) : Semaphore :=
  if val < s.init then
    { s with init := s.init - val, counter := if val < s.counter then s.counter - val else 0 }
  else { s with init := 0, counter := 0 }

def increase (val : ℕ) : Semaphore :=
  { s with init := wrap (s.init + val), counter := wrap (s.counter + val) }

/-- `set( val )`: the difference is signed, and added to both of the unsigned numbers. -/
def set (val : ℕ) : Semaphore :=
  let diff : ℤ := val - s.init
  if diff ≠ 0 then { s with init := wrap (s.init + diff), counter := wrap (s.counter + diff) } else s

def reset : Semaphore := { s with counter := s.init }

/-- One operation of one of the threads; `none` if it has to wait. -/
def step : Op → Option Semaphore
  | .get scope => s.get scope
  | .timeout => if s.counter > 0 then none else some s
  | .release scope => some (s.release scope)
  | .decrease val => some (s.decrease (wrap val))
  | .increase val => some (s.increase (wrap val))
  | .set val => some (s.set (wrap val))
  | .reset => some s.reset

/-- Slots that are taken. -/
def held : ℕ := s.holders.length

/-- The counter and the slots that are taken make up the size, unless more are taken than that. -/
def Balanced : Prop := s.held ≤ s.init → s.counter + s.held = s.init

/-- The counter does not wrap around below zero. -/
def NoWrap (s : Semaphore) (op : Op) (s' : Semaphore) : Prop :=
  match op with
  | .get _ => s'.counter + 1 = s.counter
  | .decrease _ => s'.counter ≤ s.counter
  | .set val => (s'.counter : ℤ) = s.counter + ((wrap val : ℤ) - s.init)
  | _ => True

/-- A slot is only granted while there are less taken than the size. -/
def Grants (s : Semaphore) (op : Op) : Prop := ∀ scope, op = .get scope → s.held < s.init

/-- The new size has room for the slots that are taken, and `reset` finds none of them taken. -/
def KeepsRoom (s : Semaphore) (op : Op) (s' : Semaphore) : Prop := s.held ≤ s'.init ∧ (op = .reset → s.held = 0)

/-- What the operations keep, if the size keeps room. -/
structure Sound : Prop where
  sum : s.counter + s.held = s.init
  bound : s.init < 2 ^ 32

end Model

section Steps

variable {s s' : Semaphore} {op : Op} {n : ℕ}

/-- The size changes, but not who holds a slot. -/
theorem held_decrease : (s.decrease n).held = s.held := by
  unfold decrease held
  split_ifs <;> rfl

theorem wrap_lt (n : ℤ) : wrap n < 2 ^ 32 := by
  unfold wrap
  omega

theorem sound_new (cnt : ℕ) : (new cnt).Sound := ⟨Nat.add_zero _, show wrap cnt < 2 ^ 32 from wrap_lt _⟩

/-- A balanced semaphore grants a slot if one is free. -/
theorem Sound.grants (h : s.Sound) (hs : s.step op = some s') : s.Grants op := by
  rintro scope rfl
  have hsum := h.sum
  unfold step get at hs
  split_ifs at hs with hc
  omega

/-- **An operation that keeps room keeps the books balanced, and does not wrap the counter around.** -/
theorem Sound.step (h : s.Sound) (hs : s.step op = some s') (hroom : s.KeepsRoom op s') :
    s'.Sound ∧ s.NoWrap op s' := by
  have hsum := h.sum
  have hbound := h.bound
  obtain ⟨hroom, hreset⟩ := hroom
  cases op with
  | get scope =>
    unfold Semaphore.step get at hs
    split_ifs at hs with hc
    obtain rfl := Option.some.inj hs
    refine ⟨⟨?_, hbound⟩, ?_⟩
    · simp only [held, List.length_cons] at hsum ⊢
      omega
    · unfold NoWrap
      dsimp only
      omega
  | timeout =>
    unfold Semaphore.step at hs
    split_ifs at hs with hc
    obtain rfl := Option.some.inj hs
    exact ⟨h, trivial⟩
  | release scope =>
    obtain rfl := Option.some.inj hs
    refine ⟨?_, trivial⟩
    unfold release
    split_ifs with hmem
    · have hlen := List.length_erase_of_mem hmem
      have hpos := List.length_pos_of_mem hmem
      refine ⟨?_, hbound⟩
      simp only [held, wrap] at hsum ⊢
      omega
    · exact h
  | decrease val =>
    obtain rfl := Option.some.inj hs
    have hheld := @held_decrease s (wrap val)
    unfold NoWrap
    refine ⟨⟨?_, ?_⟩, ?_⟩
    · rw [hheld]
      unfold decrease at hroom ⊢
      split_ifs at hroom ⊢ <;> dsimp only at hroom ⊢ <;> omega
    · unfold decrease
      split_ifs <;> dsimp only <;> omega
    · unfold decrease
      split_ifs <;> dsimp only <;> omega
  | increase val =>
    obtain rfl := Option.some.inj hs
    refine ⟨⟨?_, show wrap (s.init + wrap val) < 2 ^ 32 from wrap_lt _⟩, trivial⟩
    have hval := wrap_lt (val : ℤ)
    generalize wrap (val : ℤ) = v at hroom hval ⊢
    simp only [Semaphore.increase, held, wrap] at hroom hsum ⊢
    omega
  | set val =>
    obtain rfl := Option.some.inj hs
    have hval := wrap_lt (val : ℤ)
    unfold NoWrap
    dsimp only
    generalize wrap (val : ℤ) = v at hroom hval ⊢
    unfold Semaphore.set at hroom ⊢
    dsimp only at hroom ⊢
    split_ifs at hroom ⊢ with hdiff
    · simp only [held, wrap] at hroom hsum
      refine ⟨⟨?_, ?_⟩, ?_⟩ <;> simp only [held, wrap] <;> omega
    · exact ⟨h, by omega⟩
  | reset =>
    obtain rfl := Option.some.inj hs
    have hheld := hreset rfl
    refine ⟨⟨?_, hbound⟩, trivial⟩
    simp only [Semaphore.reset, held] at hheld ⊢
    omega

end Steps

section Runs

/-- **The books stay balanced in every run whose changes of the size keep room**: the counter and the
slots that are taken make up the size, the counter never wraps around below zero, and no slot is granted
beyond the size. -/
theorem semaphore_balanced (cnt : ℕ) (ops : List Op) (hroom : Each step KeepsRoom (new cnt) ops) :
    Always step Balanced (new cnt) ops ∧
      Each step (fun s op s' => s.NoWrap op s' ∧ s.Grants op) (new cnt) ops := by
  refine ⟨?_, ?_⟩
  · have hsound : Always step Sound (new cnt) ops :=
      always_of_each (fun s op s' h hG hs => (h.step hs hG).1) (sound_new cnt) hroom
    exact hsound.mono fun s h _ => h.sum
  · exact each_of_each (fun s op s' h hG hs => ⟨(h.step hs hG).1, (h.step hs hG).2, h.grants hs⟩)
      (sound_new cnt) hroom

/-- Two transfers, and a limit that goes up and comes down again. -/
theorem two_transfers : Always step Balanced (new 1) [.get 0, .increase 1, .get 1, .release 0, .set 1] ∧
    Each step (fun s op s' => s.NoWrap op s' ∧ s.Grants op) (new 1)
      [.get 0, .increase 1, .get 1, .release 0, .set 1] := by
  refine semaphore_balanced 1 _ ?_
  refine .cons rfl ⟨by decide, fun h => nomatch h⟩ (.cons rfl ⟨by decide, fun h => nomatch h⟩
    (.cons rfl ⟨by decide, fun h => nomatch h⟩ (.cons rfl ⟨by decide, fun h => nomatch h⟩
    (.cons rfl ⟨by decide, fun h => nomatch h⟩ trivial))))

/-- The limit goes down to one while there are two transfers: the counter wraps around, and a third one
is let in. -/
theorem third_transfer : ¬ ∀ (cnt : ℕ) (ops : List Op), Always step Balanced (new cnt) ops ∧
    Each step (fun s op s' => s.NoWrap op s' ∧ s.Grants op) (new cnt) ops := by
  intro h
  have hset := ((h 2 [.get 0, .get 1, .set 1]).2 _ rfl).2 _ rfl |>.2 _ rfl
  have hwrap := hset.1.1
  revert hwrap
  unfold NoWrap
  decide

end Runs

end Semaphore

end Redux
