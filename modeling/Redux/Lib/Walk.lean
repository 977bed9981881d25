import Mathlib.Data.List.Chain

/-!
# Lib.Walk — loops over the positions of a sequence

A sequence is gone through by a step that may fail, forwards from its first position until its end, or
backwards from its end until its first position.  If each step leads from one position to the next
one, the loop visits all of them and ends.
-/

namespace Redux.Lib

section Walk

variable {α : Type*} [DecidableEq α] {next prev : α → Option α} {stop p : α}

/-- `for( ; p != stop; ++p )` with what it visits, for at most `fuel` rounds. -/
def walk (next : α → Option α) (stop : α) : ℕ → α → Option (List α)
  | 0, _ => none
  | fuel + 1, p => if p = stop then some [] else (next p).bind fun q => (walk next stop fuel q).map (p :: ·)

/-- `while( p != stop ) { --p; … }` with what it visits, for at most `fuel` rounds. -/
def walkBack (prev : α → Option α) (stop : α) : ℕ → α → Option (List α)
  | 0, _ => none
  | fuel + 1, p =>
    if p = stop then some [] else (prev p).bind fun q => (walkBack prev stop fuel q).map (q :: ·)

/-- Forwards over the positions of `l`, the last of which leads to `stop`. -/
theorem walk_of_isChain : ∀ {l : List α} {fuel : ℕ} {p : α}, (l ++ [stop]).head? = some p →
    (l ++ [stop]).IsChain (fun p q => next p = some q) → stop ∉ l → l.length < fuel →
      walk next stop fuel p = some l
  | _, 0, _, _, _, _, h => absurd h (Nat.not_lt_zero _)
  | [], fuel + 1, p, hp, _, _, _ => by
    obtain rfl : stop = p := Option.some.inj hp
    rw [walk, if_pos rfl]
  | a :: l, fuel + 1, p, hp, hchain, hstop, hfuel => by
    obtain rfl : a = p := Option.some.inj hp
    obtain ⟨hne, hstop'⟩ := not_or.1 (mt List.mem_cons.2 hstop)
    obtain ⟨q, hq⟩ : ∃ q, (l ++ [stop]).head? = some q :=
      Option.isSome_iff_exists.1 (by cases l <;> rfl)
    rw [List.cons_append, List.isChain_cons] at hchain
    rw [walk, if_neg (Ne.symm hne), hchain.1 q hq, Option.bind_some,
      walk_of_isChain hq hchain.2 hstop' (Nat.lt_of_succ_lt_succ hfuel)]
    rfl

/-- Backwards from `p` over the positions of `l`, the last of which is `stop`. -/
theorem walkBack_of_isChain : ∀ {l : List α} {fuel : ℕ} {p : α}, (p :: l).getLast? = some stop →
    (p :: l).IsChain (fun p q => prev p = some q) → stop ∉ (p :: l).dropLast → l.length < fuel →
      walkBack prev stop fuel p = some l
  | _, 0, _, _, _, _, h => absurd h (Nat.not_lt_zero _)
  | [], fuel + 1, p, hp, _, _, _ => by
    obtain rfl : p = stop := Option.some.inj hp
    rw [walkBack, if_pos rfl]
  | a :: l, fuel + 1, p, hp, hchain, hstop, hfuel => by
    rw [List.dropLast_cons_cons] at hstop
    obtain ⟨hne, hstop'⟩ := not_or.1 (mt List.mem_cons.2 hstop)
    rw [List.isChain_cons_cons] at hchain
    rw [walkBack, if_neg (Ne.symm hne), hchain.1, Option.bind_some,
      walkBack_of_isChain (by rwa [List.getLast?_cons_cons] at hp) hchain.2 hstop'
        (Nat.lt_of_succ_lt_succ hfuel)]
    rfl

/-- `n` times `*p++`, with what is passed. -/
def steps (next : α → Option α) : ℕ → α → Option (List α)
  | 0, _ => some []
  | n + 1, p => (next p).bind fun q => (steps next n q).map (p :: ·)

omit [DecidableEq α] in
theorem steps_of_isChain : ∀ {l : List α} {n : ℕ} {p : α}, (l ++ [stop]).head? = some p →
    (l ++ [stop]).IsChain (fun p q => next p = some q) → n ≤ l.length → steps next n p = some (l.take n)
  | _, 0, _, _, _, _ => by rw [steps, List.take_zero]
  | [], _ + 1, _, _, _, h => absurd h (Nat.not_succ_le_zero _)
  | a :: l, n + 1, p, hp, hchain, hn => by
    obtain rfl : a = p := Option.some.inj hp
    obtain ⟨q, hq⟩ : ∃ q, (l ++ [stop]).head? = some q :=
      Option.isSome_iff_exists.1 (by cases l <;> rfl)
    rw [List.cons_append, List.isChain_cons] at hchain
    rw [steps, hchain.1 q hq, Option.bind_some, steps_of_isChain hq hchain.2 (Nat.le_of_succ_le_succ hn)]
    rfl

end Walk

theorem isChain_and {α : Type*} {R S : α → α → Prop} {l : List α} (hR : l.IsChain R) (hS : l.IsChain S) :
    l.IsChain fun a b => R a b ∧ S a b := by
  rw [List.isChain_iff_getElem] at *
  exact fun i hi => ⟨hR i hi, hS i hi⟩

end Redux.Lib
