import Redux.Lib.Stretches

/-!
# Util.LongestStreak — the longest streak of a number in an array

`findLongestStreak` counts the elements of a streak, and looks at the count when another element ends the streak.  So
it finds the longest streak of the data in front of the last element that ends one (`findLongestStreak_closed`), and a
streak that goes up to the end of the data is not counted.
-/

namespace Redux.Util

open Redux.Lib Redux.Lib.Stretches

section Model

variable {T : Type*} [BEq T] (value : T)

/-- The loop of `findLongestStreak`. -/
def streakLoop : List T → ℕ → ℕ → ℕ
  | [], longestStreak, _ => longestStreak
  | x :: data, longestStreak, currentStreak =>
    if x == value then streakLoop data longestStreak (currentStreak + 1)
    else if currentStreak ≠ 0 then
      streakLoop data (if currentStreak > longestStreak then currentStreak else longestStreak) 0
    else streakLoop data longestStreak currentStreak

def findLongestStreak (data : List T) : ℕ := streakLoop value data 0 0

/-- `k` is the length of the longest streak of elements that equal the value. -/
def LongestStreak (data : List T) (k : ℕ) : Prop := Longest (· == value) data k

end Model

section Streaks

variable {T : Type*} [BEq T] {value x : T} {data a b : List T} {k longest current : ℕ}

/-- A streak that is not ended does not count. -/
theorem streakLoop_open : ∀ {b : List T} {current : ℕ}, (∀ y ∈ b, (y == value) = true) →
    streakLoop value b longest current = longest
  | [], _, _ => rfl
  | y :: b, current, h => by
    obtain ⟨hy, hb⟩ := List.forall_mem_cons.1 h
    rw [streakLoop, if_pos hy, streakLoop_open hb]

/-- At the end of a streak. -/
theorem streakLoop_end (hx : (x == value) = false) :
    streakLoop value (x :: b) longest current = streakLoop value b (max longest current) 0 := by
  rw [streakLoop, if_neg (by rw [hx]; exact Bool.false_ne_true)]
  by_cases hzero : current = 0
  · rw [if_neg (not_not.2 hzero), hzero, Nat.max_zero]
  · have hmax : (if current > longest then current else longest) = max longest current := by
      split_ifs <;> omega
    rw [if_pos hzero, hmax]

/-- **In front of the last element that ends a streak** the longest streak is found. -/
theorem streakLoop_closed (hx : (x == value) = false) (hb : ∀ y ∈ b, (y == value) = true) :
    ∀ {a run : List T} {longest : ℕ}, (∀ y ∈ run, (y == value) = true) →
      ∃ k, LongestStreak value (run ++ a) k ∧ streakLoop value (a ++ x :: b) longest run.length = max longest k
  | [], run, longest, hrun => by
    refine ⟨run.length, ?_, ?_⟩
    · rw [List.append_nil]
      exact longest_of_all hrun
    · rw [List.nil_append, streakLoop_end hx, streakLoop_open hb]
  | y :: a, run, longest, hrun => by
    cases hy : y == value with
    | true =>
      have hmore : ∀ z ∈ run ++ [y], (z == value) = true := by
        intro z hz
        rcases List.mem_append.1 hz with hz | hz
        · exact hrun z hz
        · rwa [List.mem_singleton.1 hz]
      obtain ⟨k, hk, hloop⟩ := @streakLoop_closed hx hb a (run ++ [y]) longest hmore
      refine ⟨k, ?_, ?_⟩
      · rwa [List.append_assoc, List.singleton_append] at hk
      · rw [List.length_append, List.length_singleton] at hloop
        rw [List.cons_append, streakLoop, if_pos hy]
        exact hloop
    | false =>
      obtain ⟨k, hk, hloop⟩ :=
        @streakLoop_closed hx hb a [] (max longest run.length) fun _ h => absurd h List.not_mem_nil
      refine ⟨max run.length k, (longest_of_all hrun).append_cons hk hy, ?_⟩
      rw [List.cons_append, streakLoop_end hy, ← max_assoc]
      exact hloop

/-- What `findLongestStreak` returns. -/
theorem findLongestStreak_closed (hx : (x == value) = false) (hb : ∀ y ∈ b, (y == value) = true) :
    LongestStreak value a (findLongestStreak value (a ++ x :: b)) := by
  obtain ⟨k, hk, hloop⟩ := @streakLoop_closed _ _ value x b hx hb a [] 0 fun _ h => absurd h List.not_mem_nil
  rw [Nat.zero_max] at hloop
  rw [findLongestStreak]
  exact hloop ▸ hk

/-- **The longest streak is found exactly if a longest one ends before the last element.** -/
theorem findLongestStreak_iff (value : T) (data : List T) :
    LongestStreak value data (findLongestStreak value data) ↔
      ∃ l, Stretch (· == value) l data.dropLast ∧ LongestStreak value data l.length := by
  rcases exists_tail (· == value) data with hall | ⟨a, x, b, rfl, hx, hb⟩
  · -- all is one streak, and its end is not seen
    have hdata : LongestStreak value data data.length := longest_of_all hall
    have hzero : findLongestStreak value data = 0 := streakLoop_open hall
    rw [hzero]
    constructor
    · intro h
      have hnil := List.eq_nil_of_length_eq_zero (hdata.unique h)
      exact ⟨[], ⟨List.nil_infix, fun _ h => absurd h List.not_mem_nil⟩, h⟩
    · rintro ⟨l, hl, hlong⟩
      have hle := hl.part.length_le
      have hlength := hlong.unique hdata
      rw [List.length_dropLast] at hle
      have hzero : data.length = 0 := by omega
      rwa [hlength, hzero] at hlong
  · have ha := findLongestStreak_closed (a := a) hx hb
    have hdata : LongestStreak value (a ++ x :: b) (max (findLongestStreak value (a ++ x :: b)) b.length) :=
      ha.append_cons (longest_of_all hb) hx
    constructor
    · intro h
      obtain ⟨l, hl, hlength⟩ := ha.1
      refine ⟨l, ⟨?_, hl.all⟩, hlength ▸ h⟩
      rw [List.dropLast_append_cons]
      exact hl.part.trans (List.prefix_append a _).isInfix
    · rintro ⟨l, hl, hlong⟩
      have hlength := hlong.unique hdata
      suffices hle : l.length ≤ findLongestStreak value (a ++ x :: b) by
        rwa [le_antisymm hle (hlength ▸ le_max_left _ _)] at hlong
      rw [List.dropLast_append_cons] at hl
      cases b with
      | nil =>
        rw [hlength, List.length_nil, Nat.max_zero]
      | cons y b =>
        rw [List.dropLast_cons_cons, stretch_append_cons (p := (· == value)) hx] at hl
        rcases hl with hl | hl
        · exact hl.length_le ha
        · have hle := hl.part.length_le
          have hge := le_max_right (findLongestStreak value (a ++ x :: y :: b)) (y :: b).length
          rw [List.length_dropLast] at hle
          rw [List.length_cons] at *
          omega

/-- One element that equals the value. -/
theorem findLongestStreak_last : ¬LongestStreak 5 [5] (findLongestStreak 5 [5]) := by
  intro h
  have hle := h.2 ⟨[5], ⟨List.infix_refl _, by decide⟩, rfl⟩
  exact absurd hle (by decide)

end Streaks

end Redux.Util
