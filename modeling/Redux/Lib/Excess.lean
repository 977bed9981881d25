import Mathlib.Algebra.Order.Ring.Int
import Mathlib.Data.List.Nodup
import Mathlib.Logic.Function.Basic

/-!
# Lib.Excess — parts that may be larger than what was announced of them

Parts are written one behind the other, those that are asked for and that are there, and a part that does
not go to its end ends it all.  What is announced of a part is announced whenever it is asked for.  The
`excess` of the parts is by how much they can be larger than what is announced, over all that may be asked
for (`amount_le`, `exists_excess`).
-/

namespace Redux.Lib.Excess

section Portions

variable {κ : Type*}

/-- A part under its key: whether it is there, how much of it is written, and whether it goes on behind it. -/
structure Portion (κ : Type*) where
  key : κ
  there : Bool
  got : ℕ
  whole : Bool

/-- What is written of the parts that are asked for. -/
def amount (ask : κ → Bool) : List (Portion κ) → ℕ
  | [] => 0
  | c :: cs =>
    if ask c.key ∧ c.there then if c.whole then c.got + amount ask cs else c.got else amount ask cs

/-- What is announced of the parts that are asked for. -/
def announced (ask : κ → Bool) : List (κ × ℤ) → ℤ
  | [] => 0
  | (k, n) :: ns => (if ask k then n else 0) + announced ask ns

/-- By how much the parts exceed what is announced, at the most. -/
def excess : List (Portion κ × ℤ) → ℤ
  | [] => 0
  | (c, n) :: cs =>
    if c.there then if c.whole then max 0 (c.got - n) + excess cs else max (excess cs) (c.got - n) else excess cs

variable {ask ask' : κ → Bool} {cs : List (Portion κ × ℤ)}

/-- What is announced of parts. -/
def announcements (cs : List (Portion κ × ℤ)) : List (κ × ℤ) := cs.map fun c => (c.1.key, c.2)

theorem excess_nonneg : ∀ cs : List (Portion κ × ℤ), 0 ≤ excess cs
  | [] => le_rfl
  | (c, n) :: cs => by
    have ih := excess_nonneg cs
    rw [excess]
    split_ifs
    · exact Int.add_nonneg (le_max_left 0 _) ih
    · exact le_max_of_le_left ih
    · exact ih

theorem announced_nonneg : ∀ {ns : List (κ × ℤ)}, (∀ n ∈ ns, 0 ≤ n.2) → 0 ≤ announced ask ns
  | [], _ => le_rfl
  | (k, n) :: ns, h => by
    obtain ⟨hn, hns⟩ := List.forall_mem_cons.1 h
    rw [announced]
    refine Int.add_nonneg ?_ (announced_nonneg hns)
    split_ifs
    · exact hn
    · exact le_rfl

/-- **No choice of parts exceeds what is announced of it by more than the excess.** -/
theorem amount_le (ask : κ → Bool) : ∀ {cs : List (Portion κ × ℤ)}, (∀ c ∈ cs, 0 ≤ c.2) →
    (amount ask (cs.map Prod.fst) : ℤ) ≤ announced ask (announcements cs) + excess cs
  | [], _ => le_rfl
  | (c, n) :: cs, h => by
    obtain ⟨hn, hcs⟩ := List.forall_mem_cons.1 h
    have ih := amount_le ask hcs
    have hrest : 0 ≤ announced ask (announcements cs) := announced_nonneg (List.forall_mem_map.2 hcs)
    have hexcess := excess_nonneg cs
    simp only [List.map_cons, amount, announcements, announced, excess] at ih hrest ⊢
    cases hask : ask c.key <;> cases hthere : c.there <;> cases hwhole : c.whole <;>
      simp only [Bool.false_eq_true, false_and, and_false, and_self, if_true, if_false] <;> omega

theorem amount_congr : ∀ {ps : List (Portion κ)}, (∀ p ∈ ps, ask p.key = ask' p.key) → amount ask ps = amount ask' ps
  | [], _ => rfl
  | p :: ps, h => by
    obtain ⟨hp, hps⟩ := List.forall_mem_cons.1 h
    rw [amount, amount, hp, amount_congr hps]

theorem announced_congr : ∀ {ns : List (κ × ℤ)}, (∀ n ∈ ns, ask n.1 = ask' n.1) →
    announced ask ns = announced ask' ns
  | [], _ => rfl
  | (k, n) :: ns, h => by
    obtain ⟨hn, hns⟩ := List.forall_mem_cons.1 h
    have hk : ask k = ask' k := hn
    rw [announced, announced, hk, announced_congr hns]

variable [DecidableEq κ]

/-- One more part may be asked for or not. -/
theorem update_rest (ask : κ → Bool) {c : Portion κ} (h : c.key ∉ cs.map fun c => c.1.key) (b : Bool) :
    amount (Function.update ask c.key b) (cs.map Prod.fst) = amount ask (cs.map Prod.fst) ∧
      announced (Function.update ask c.key b) (announcements cs) = announced ask (announcements cs) := by
  have hne : ∀ d ∈ cs, Function.update ask c.key b d.1.key = ask d.1.key := by
    intro d hd
    refine Function.update_of_ne (fun heq => h ?_) ..
    rw [← heq]
    exact List.mem_map_of_mem (f := fun c => c.1.key) hd
  refine ⟨amount_congr fun p hp => ?_, announced_congr fun n hn => ?_⟩
  · obtain ⟨d, hd, rfl⟩ := List.mem_map.1 hp
    exact hne d hd
  · obtain ⟨d, hd, rfl⟩ := List.mem_map.1 hn
    exact hne d hd

/-- **Some choice of parts exceeds what is announced of it by just the excess.** -/
theorem exists_excess : ∀ {cs : List (Portion κ × ℤ)}, (cs.map fun c => c.1.key).Nodup →
    ∃ ask : κ → Bool, (amount ask (cs.map Prod.fst) : ℤ) = announced ask (announcements cs) + excess cs
  | [], _ => ⟨fun _ => false, rfl⟩
  | (c, n) :: cs, h => by
    obtain ⟨hkey, hcs⟩ := List.nodup_cons.1 h
    obtain ⟨ask, hask⟩ := exists_excess hcs
    have hskip := update_rest ask hkey false
    have htake := update_rest ask hkey true
    have hnone := update_rest (fun _ => false) hkey true
    have hempty : announced (fun _ : κ => false) (announcements cs) = 0 := by
      clear * -
      induction cs with
      | nil => rfl
      | cons c cs ih => simpa [announcements, announced] using ih
    by_cases hthere : c.there
    · by_cases hwhole : c.whole
      · by_cases hlt : n < c.got
        · refine ⟨Function.update ask c.key true, ?_⟩
          simp only [List.map_cons, amount, announcements, announced, excess, Function.update_self, hthere, hwhole,
            and_self, if_true] at hask htake ⊢
          rw [htake.1, htake.2, max_eq_right (by omega), Nat.cast_add]
          omega
        · refine ⟨Function.update ask c.key false, ?_⟩
          simp only [List.map_cons, amount, announcements, announced, excess, Function.update_self, hthere, hwhole,
            Bool.false_eq_true, false_and, if_true, if_false] at hask hskip ⊢
          rw [hskip.1, hskip.2, max_eq_left (by omega)]
          omega
      · by_cases hlt : excess cs < c.got - n
        · refine ⟨Function.update (fun _ => false) c.key true, ?_⟩
          simp only [List.map_cons, amount, announcements, announced, excess, Function.update_self, hthere, hwhole,
            and_self, if_true, Bool.false_eq_true, if_false] at hempty hnone ⊢
          rw [hnone.2, hempty, max_eq_right (le_of_lt hlt)]
          omega
        · refine ⟨Function.update ask c.key false, ?_⟩
          simp only [List.map_cons, amount, announcements, announced, excess, Function.update_self, hthere, hwhole,
            Bool.false_eq_true, false_and, if_true, if_false] at hask hskip ⊢
          rw [hskip.1, hskip.2, max_eq_left (not_lt.1 hlt)]
          omega
    · refine ⟨Function.update ask c.key false, ?_⟩
      simp only [List.map_cons, amount, announcements, announced, excess, Function.update_self, hthere,
        Bool.false_eq_true, false_and, if_false] at hask hskip ⊢
      rw [hskip.1, hskip.2]
      omega

end Portions

end Redux.Lib.Excess
