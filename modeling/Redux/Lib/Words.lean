import Mathlib.Data.List.Basic
import Mathlib.Order.Lattice

/-!
# Lib.Words — where words differ, and which commute

`Parts c d s t n` says that `s` and `t` part at the position `n`, where `s` has the letter `c` and `t` has
`d`.  Steps that all part with the same two letters do not come back to where they began: they part at
their earliest position.  A word that comes before a power of another one as it comes behind it commutes
with it.
-/

namespace Redux.Lib

section Parting

variable {α : Type*} {c d : α} {s t u : List α} {n m : ℕ}

/-- The words agree up to `n`, where the first one has a `c` and the second one a `d`. -/
structure Parts (c d : α) (s t : List α) (n : ℕ) : Prop where
  agree : ∀ i < n, s[i]? = t[i]?
  left : s[n]? = some c
  right : t[n]? = some d

theorem parts_append (x l s' t' : List α) :
    Parts c d (x ++ (l ++ c :: s')) (x ++ (l ++ d :: t')) (x.length + l.length) where
  agree i hi := by
    rw [← List.length_append] at hi
    rw [← List.append_assoc, List.getElem?_append_left hi, ← List.append_assoc, List.getElem?_append_left hi]
  left := by
    rw [← List.append_assoc, ← List.length_append, List.getElem?_append_right le_rfl, Nat.sub_self]
    rfl
  right := by
    rw [← List.append_assoc, ← List.length_append, List.getElem?_append_right le_rfl, Nat.sub_self]
    rfl

theorem Parts.unique (hcd : c ≠ d) (h : Parts c d s t n) (h' : Parts c d s t m) : n = m := by
  rcases lt_trichotomy n m with hlt | heq | hlt
  · have hsame := h'.agree n hlt
    rw [h.left, h.right, Option.some.injEq] at hsame
    exact absurd hsame hcd
  · exact heq
  · have hsame := h.agree m hlt
    rw [h'.left, h'.right, Option.some.injEq] at hsame
    exact absurd hsame hcd

/-- **Two partings in a row** part at the earlier one of the positions. -/
theorem Parts.trans (hcd : c ≠ d) (h : Parts c d s t n) (h' : Parts c d t u m) : Parts c d s u (min n m) := by
  rcases lt_trichotomy n m with hlt | heq | hlt
  · rw [min_eq_left hlt.le]
    exact ⟨fun i hi => (h.agree i hi).trans (h'.agree i (hi.trans hlt)), h.left, (h'.agree n hlt).symm.trans h.right⟩
  · have hboth := h.right
    rw [heq, h'.left, Option.some.injEq] at hboth
    exact absurd hboth hcd
  · rw [min_eq_right hlt.le]
    exact ⟨fun i hi => (h.agree i (hi.trans hlt)).trans (h'.agree i hi), (h.agree m hlt).trans h'.left, h'.right⟩

/-- Two words of which none begins with the other one have a first letter in which they differ. -/
theorem exists_parting : ∀ {s t : List α}, ¬s <+: t → ¬t <+: s →
    ∃ l c d s' t', c ≠ d ∧ s = l ++ c :: s' ∧ t = l ++ d :: t'
  | [], _, h, _ => absurd List.nil_prefix h
  | _ :: _, [], _, h => absurd List.nil_prefix h
  | a :: s, b :: t, hst, hts => by
    by_cases hab : a = b
    · obtain rfl := hab
      rw [List.cons_prefix_cons, not_and] at hst hts
      obtain ⟨l, c, d, s', t', hcd, rfl, rfl⟩ := exists_parting (hst rfl) (hts rfl)
      exact ⟨a :: l, c, d, s', t', hcd, rfl, rfl⟩
    · exact ⟨[], a, b, s, t, hab, rfl, rfl⟩

end Parting

section Powers

variable {α : Type*} {v t : List α}

/-- The word `n` times. -/
def power (v : List α) (n : ℕ) : List α := (List.replicate n v).flatten

@[simp] theorem power_zero (v : List α) : power v 0 = [] := rfl

theorem power_succ (v : List α) (n : ℕ) : power v (n + 1) = v ++ power v n := by
  rw [power, List.replicate_succ, List.flatten_cons, power]

theorem power_succ' (v : List α) : ∀ n, power v (n + 1) = power v n ++ v
  | 0 => by rw [power_succ, power_zero, List.append_nil, List.nil_append]
  | n + 1 => by rw [power_succ v (n + 1), power_succ' v n, ← List.append_assoc, ← power_succ, ← power_succ' v n]

/-- What commutes with a word commutes with its powers. -/
theorem append_power_comm (h : t ++ v = v ++ t) : ∀ n, t ++ power v n = power v n ++ t
  | 0 => by rw [power_zero, List.append_nil, List.nil_append]
  | n + 1 => by
    rw [power_succ, ← List.append_assoc, h, List.append_assoc, append_power_comm h n, List.append_assoc]

/-- **A word whose continuation by `v` is the beginning of powers of `v` commutes with it.** -/
theorem comm_of_prefix {v : List α} {n : ℕ} {t : List α} (h : t ++ v <+: power v (n + 1) ++ t) : t ++ v = v ++ t := by
  by_cases hlen : v.length ≤ t.length
  · by_cases hv : v = []
    · rw [hv, List.append_nil, List.nil_append]
    · -- `t` begins with `v`, which is taken off
      have hvt : v <+: t := by
        refine List.prefix_of_prefix_length_le ?_ ((List.prefix_append t v).trans h) hlen
        rw [power_succ, List.append_assoc]
        exact List.prefix_append _ _
      obtain ⟨t', ht⟩ := hvt
      have hshorter : t'.length < t.length := by
        have := List.length_pos_iff.2 hv
        rw [← ht, List.length_append]
        omega
      rw [← ht] at h ⊢
      rw [List.append_assoc, power_succ', List.append_assoc, ← List.append_assoc (power v n), ← power_succ', power_succ,
        List.append_assoc, List.prefix_append_right_inj, ← List.append_assoc (power v n), ← power_succ'] at h
      rw [List.append_assoc, comm_of_prefix h]
  · have htv : t <+: v := by
      refine List.prefix_of_prefix_length_le ((List.prefix_append t v).trans h) ?_ (by omega)
      rw [power_succ, List.append_assoc]
      exact List.prefix_append _ _
    obtain ⟨w, rfl⟩ := htv
    -- behind the first factor there is `t` again
    obtain ⟨rest, hrest⟩ : t <+: power (t ++ w) n ++ t := by
      cases n with
      | zero => exact List.prefix_rfl
      | succ n =>
        rw [power_succ, List.append_assoc, List.append_assoc]
        exact List.prefix_append _ _
    rw [power_succ, List.append_assoc (t ++ w), ← hrest, List.append_assoc t w, List.prefix_append_right_inj,
      ← List.append_assoc w] at h
    have heq : t ++ w = w ++ t := by
      refine (List.prefix_of_prefix_length_le h (List.prefix_append _ _) ?_).eq_of_length ?_
      · rw [List.length_append, List.length_append, Nat.add_comm]
      · rw [List.length_append, List.length_append, Nat.add_comm]
    rw [List.append_assoc, ← heq]
termination_by t.length
decreasing_by exact hshorter

end Powers

end Redux.Lib
