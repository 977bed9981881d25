import Mathlib.Data.Finset.Card
import Mathlib.Data.Fintype.Pigeonhole
import Mathlib.Order.Lattice.Nat
import Mathlib.Dynamics.PeriodicPts.Defs
import Redux.Lib.Fuel

/-!
# Lib.CycleLeader — permuting a data block in place, cycle by cycle

The elements of a block are moved along the cycles of a permutation that is given by two functions, one for
each direction.  A cycle is moved when its least element, its leader, comes up, which is found out by going
around the cycle (`search`).  The elements of a cycle change places by swaps (`rotate`).  Counters and indices
are numbers of 64 bits.
-/

namespace Redux.Lib.CycleLeader

open Function

section Model

variable {α : Type*} (next prev : ℕ → ℕ) (n : ℕ)

/-- `for( j = next( i ); j > i; j = next( j ) ) ;`. -/
def search (i : ℕ) : ℕ → ℕ → Option ℕ
  | 0, _ => none
  | fuel + 1, j => if j > i then search i fuel (next j) else some j

def swap (data : ℕ → α) (k j : ℕ) : ℕ → α := fun p => if p = k then data j else if p = j then data k else data p

/-- `--count`. -/
def pred (count : ℕ) : ℕ := (count + (2 ^ 64 - 1)) % 2 ^ 64

/-- `for( k = i, j = prev( i ); j != i; k = j, j = prev( j ) ) { swap; --stillToMove; }`; a swap of an element
that is not there is undefined. -/
def rotate (i : ℕ) : ℕ → ℕ → ℕ → ℕ → (ℕ → α) → Option ((ℕ → α) × ℕ)
  | 0, _, _, _, _ => none
  | fuel + 1, k, j, stillToMove, data =>
    if j ≠ i then
      if k < n ∧ j < n then rotate i fuel j (prev j) (pred stillToMove) (swap data k j) else none
    else some (data, stillToMove)

/-- `for( i; stillToMove; ++i )`. -/
def permute : ℕ → ℕ → ℕ → (ℕ → α) → Option (ℕ → α)
  | 0, _, _, _ => none
  | fuel + 1, i, stillToMove, data =>
    if stillToMove = 0 then some data
    else
      (search next i fuel (next i)).bind fun j =>
        if j < i then permute fuel ((i + 1) % 2 ^ 64) stillToMove data
        else
          (rotate prev n i fuel i (prev i) stillToMove data).bind fun r =>
            permute fuel ((i + 1) % 2 ^ 64) (pred r.2) r.1

end Model

/-! ## Cycles -/

/-- Two functions that undo each other below `n`. -/
structure Inverse (n : ℕ) (next prev : ℕ → ℕ) : Prop where
  next_lt : ∀ p < n, next p < n
  prev_lt : ∀ p < n, prev p < n
  prev_next : ∀ p < n, prev (next p) = p
  next_prev : ∀ p < n, next (prev p) = p

section Cycles

variable {n : ℕ} {next prev : ℕ → ℕ} {p q i : ℕ}

theorem Inverse.symm (h : Inverse n next prev) : Inverse n prev next :=
  ⟨h.prev_lt, h.next_lt, h.next_prev, h.prev_next⟩

theorem Inverse.iterate_lt (h : Inverse n next prev) (hp : p < n) (m : ℕ) : next^[m] p < n := by
  induction m generalizing p with
  | zero => exact hp
  | succ m ih => exact ih (h.next_lt p hp)

/-- Going back as far as one came. -/
theorem Inverse.back (h : Inverse n next prev) (hp : p < n) (m : ℕ) : prev^[m] (next^[m] p) = p := by
  induction m generalizing p with
  | zero => rfl
  | succ m ih =>
    rw [iterate_succ_apply next, iterate_succ_apply' prev, ih (h.next_lt p hp), h.prev_next p hp]

/-- **Every element comes round again.** -/
theorem Inverse.periodic (h : Inverse n next prev) (hp : p < n) : p ∈ periodicPts next := by
  obtain ⟨a, b, hne, heq⟩ :=
    Finite.exists_ne_map_eq_of_infinite fun m : ℕ => (⟨next^[m] p, h.iterate_lt hp m⟩ : Fin n)
  have heq := Fin.mk.inj heq
  have hreturn : ∀ a b : ℕ, a < b → next^[a] p = next^[b] p → p ∈ periodicPts next := by
    intro a b hlt heq
    refine mk_mem_periodicPts (Nat.sub_pos_of_lt hlt) ?_
    have hsplit : next^[b] p = next^[a] (next^[b - a] p) := by
      rw [← iterate_add_apply, Nat.add_sub_cancel' hlt.le]
    rw [IsPeriodicPt, IsFixedPt, ← h.back (h.iterate_lt hp (b - a)) a, ← hsplit, ← heq, h.back hp]
  rcases Nat.lt_or_gt_of_ne hne with hlt | hlt
  · exact hreturn a b hlt heq
  · exact hreturn b a hlt heq.symm

/-- The least element of the cycle. -/
noncomputable def lead (next : ℕ → ℕ) (p : ℕ) : ℕ := sInf { q | ∃ m, next^[m] p = q }

theorem exists_lead (next : ℕ → ℕ) (p : ℕ) : ∃ m, next^[m] p = lead next p :=
  Nat.sInf_mem (s := { q | ∃ m, next^[m] p = q }) ⟨p, 0, rfl⟩

theorem lead_le_iterate (next : ℕ → ℕ) (p m : ℕ) : lead next p ≤ next^[m] p := Nat.sInf_le ⟨m, rfl⟩

theorem lead_le (next : ℕ → ℕ) (p : ℕ) : lead next p ≤ p := lead_le_iterate next p 0

/-- The leader is that of the whole cycle. -/
theorem Inverse.lead_next (h : Inverse n next prev) (hp : p < n) : lead next (next p) = lead next p := by
  obtain ⟨m, hm, hperiod⟩ := mem_periodicPts.1 (h.periodic hp)
  obtain ⟨k, rfl⟩ : ∃ k, m = k + 1 := ⟨m - 1, by omega⟩
  unfold lead
  congr 1
  ext q
  constructor
  · rintro ⟨a, rfl⟩
    exact ⟨a + 1, rfl⟩
  · rintro ⟨a, rfl⟩
    refine ⟨a + k, ?_⟩
    rw [← iterate_succ_apply, Nat.succ_eq_add_one, Nat.add_assoc, iterate_add_apply, hperiod]

theorem Inverse.lead_prev (h : Inverse n next prev) (hp : p < n) : lead next (prev p) = lead next p := by
  rw [← h.lead_next (h.prev_lt p hp), h.next_prev p hp]

theorem Inverse.lead_iterate (h : Inverse n next prev) (hp : p < n) (m : ℕ) :
    lead next (next^[m] p) = lead next p := by
  induction m generalizing p with
  | zero => rfl
  | succ m ih => exact (ih (h.next_lt p hp)).trans (h.lead_next hp)

theorem Inverse.lead_iterate_prev (h : Inverse n next prev) (hp : p < n) (m : ℕ) :
    lead next (prev^[m] p) = lead next p := by
  induction m generalizing p with
  | zero => rfl
  | succ m ih => exact (ih (h.prev_lt p hp)).trans (h.lead_prev hp)

/-- The cycle of a leader, backwards. -/
theorem Inverse.lead_eq_iff (h : Inverse n next prev) (hi : i < n) (hlead : lead next i = i) (hp : p < n) :
    lead next p = i ↔ ∃ m < minimalPeriod prev i, prev^[m] i = p := by
  constructor
  · intro heq
    obtain ⟨m, hm⟩ := exists_lead next p
    have hback : prev^[m] i = p := by
      rw [← heq, ← hm]
      exact h.back hp m
    have hperiodic := h.symm.periodic hi
    refine ⟨m % minimalPeriod prev i, Nat.mod_lt _ (minimalPeriod_pos_of_mem_periodicPts hperiodic), ?_⟩
    rw [iterate_mod_minimalPeriod_eq, hback]
  · rintro ⟨m, -, rfl⟩
    rw [h.lead_iterate_prev hi, hlead]

/-! ## Going around -/

/-- Where the search ends: at the first element that is not greater. -/
theorem settles_search {m : ℕ} : ∀ {j : ℕ}, (∀ k < m, i < next^[k] j) → next^[m] j ≤ i →
    Settles (fun fuel => search next i fuel j) (next^[m] j) := by
  induction m with
  | zero =>
    intro j _ hle
    refine ⟨1, fun fuel hfuel => ?_⟩
    obtain ⟨fuel, rfl⟩ := Nat.exists_eq_add_of_le' hfuel
    exact if_neg (not_lt.2 hle)
  | succ m ih =>
    intro j hgt hle
    obtain ⟨bound, hbound⟩ := ih (fun k hk => hgt (k + 1) (by omega)) hle
    refine ⟨bound + 1, fun fuel hfuel => ?_⟩
    obtain ⟨fuel, rfl⟩ := Nat.exists_eq_add_of_le' (Nat.le_of_add_left_le hfuel)
    exact (if_pos (hgt 0 (Nat.succ_pos m))).trans (hbound fuel (by omega))

/-- **The search tells a leader from the other elements of a cycle.** -/
theorem Inverse.settles_search (h : Inverse n next prev) (hi : i < n) :
    ∃ j, Settles (fun fuel => search next i fuel (next i)) j ∧ (j < i ↔ lead next i ≠ i) := by
  have hex : ∃ m, next^[m] (next i) ≤ i := by
    obtain ⟨m, hm, hperiod⟩ := mem_periodicPts.1 (h.periodic hi)
    obtain ⟨k, rfl⟩ : ∃ k, m = k + 1 := ⟨m - 1, by omega⟩
    exact ⟨k, hperiod.le⟩
  obtain ⟨m, hle, hleast⟩ : ∃ m, next^[m] (next i) ≤ i ∧ ∀ k < m, i < next^[k] (next i) :=
    ⟨Nat.find hex, Nat.find_spec hex, fun k hk => not_le.1 (Nat.find_min hex hk)⟩
  refine ⟨_, CycleLeader.settles_search hleast hle, fun hlt => ?_, fun hne => ?_⟩
  · have hlead := lead_le_iterate next i (m + 1)
    rw [iterate_succ_apply] at hlead
    omega
  · -- an element that is met again without a smaller one in between is a leader
    refine lt_of_le_of_ne hle fun hreturn => hne (le_antisymm (lead_le next i) ?_)
    obtain ⟨k, hk⟩ := exists_lead next i
    have hperiod : IsPeriodicPt next (m + 1) i := hreturn
    rw [← hk, ← hperiod.iterate_mod_apply k]
    rcases Nat.eq_zero_or_pos (k % (m + 1)) with hzero | hpos
    · rw [hzero]
      rfl
    · obtain ⟨s, hs⟩ : ∃ s, k % (m + 1) = s + 1 := ⟨k % (m + 1) - 1, by omega⟩
      have hlt : k % (m + 1) < m + 1 := Nat.mod_lt k (Nat.succ_pos m)
      rw [hs]
      exact (hleast s (by omega)).le

end Cycles

/-! ## Moving a cycle -/

section Rotate

variable {α : Type*} {n : ℕ} {next prev : ℕ → ℕ} {i stillToMove m : ℕ} {data : ℕ → α}

theorem pred_of_pos {count : ℕ} (hpos : 0 < count) (hlt : count < 2 ^ 64) : pred count = count - 1 := by
  rw [pred, show count + (2 ^ 64 - 1) = count - 1 + 2 ^ 64 by omega, Nat.add_mod_right, Nat.mod_eq_of_lt (by omega)]

/-- After `m` swaps: the elements behind have moved, and what was at the leader is where the last swap has
put it. -/
def moved (prev : ℕ → ℕ) (i : ℕ) (data : ℕ → α) (m p : ℕ) : α :=
  if p = prev^[m] i then data i else if ∃ s < m, prev^[s] i = p then data (prev p) else data p

theorem moved_zero : moved prev i data 0 = data := by
  funext p
  unfold moved
  by_cases hp : p = i
  · exact (if_pos hp).trans (by rw [hp])
  · refine (if_neg hp).trans (if_neg ?_)
    rintro ⟨s, hs, -⟩
    exact Nat.not_lt_zero s hs

/-- The elements of a cycle are different until it comes round. -/
theorem iterate_ne {a b : ℕ} (hb : b < minimalPeriod prev i) (hab : a < b) : prev^[a] i ≠ prev^[b] i := fun heq =>
  hab.ne (iterate_injOn_Iio_minimalPeriod (hab.trans hb) hb heq)

theorem swap_moved (hm : m + 1 < minimalPeriod prev i) :
    swap (moved prev i data m) (prev^[m] i) (prev^[m + 1] i) = moved prev i data (m + 1) := by
  have hne : prev^[m] i ≠ prev^[m + 1] i := iterate_ne hm (Nat.lt_succ_self m)
  have hfresh : ¬ ∃ s < m, prev^[s] i = prev^[m + 1] i := fun ⟨s, hs, heq⟩ => iterate_ne hm (by omega) heq
  funext p
  unfold swap
  by_cases hk : p = prev^[m] i
  · have hbehind : ∃ s < m + 1, prev^[s] i = p := ⟨m, Nat.lt_succ_self m, hk.symm⟩
    rw [if_pos hk, moved, if_neg hne.symm, if_neg hfresh, moved, if_neg (hk ▸ hne), if_pos hbehind, hk,
      iterate_succ_apply']
  · rw [if_neg hk]
    by_cases hj : p = prev^[m + 1] i
    · rw [if_pos hj, moved, if_pos rfl, moved, if_pos hj]
    · rw [if_neg hj, moved, if_neg hk, moved, if_neg hj]
      refine if_congr ⟨fun ⟨s, hs, heq⟩ => ⟨s, by omega, heq⟩, fun ⟨s, hs, heq⟩ => ⟨s, ?_, heq⟩⟩ rfl rfl
      have hsm : s ≠ m := fun h => hk (h ▸ heq.symm)
      omega

/-- **A cycle is moved by as many swaps as it has elements besides its leader.** -/
theorem Inverse.settles_rotate (h : Inverse n next prev) (hi : i < n) (hcount : stillToMove < 2 ^ 64)
    (hstill : minimalPeriod prev i ≤ stillToMove) : ∀ m < minimalPeriod prev i,
      Settles (fun fuel => rotate prev n i fuel (prev^[m] i) (prev^[m + 1] i) (stillToMove - m) (moved prev i data m))
        (moved prev i data (minimalPeriod prev i - 1), stillToMove - (minimalPeriod prev i - 1)) := by
  intro m hm
  induction hrest : minimalPeriod prev i - 1 - m generalizing m with
  | zero =>
    obtain rfl : m = minimalPeriod prev i - 1 := by omega
    refine ⟨1, fun fuel hfuel => ?_⟩
    obtain ⟨fuel, rfl⟩ := Nat.exists_eq_add_of_le' hfuel
    refine if_neg (not_not.2 ?_)
    rw [Nat.sub_add_cancel (by omega), iterate_minimalPeriod]
  | succ rest ih =>
    have hlt : m + 1 < minimalPeriod prev i := by omega
    obtain ⟨bound, hbound⟩ := ih (m + 1) hlt (by omega)
    refine ⟨bound + 1, fun fuel hfuel => ?_⟩
    obtain ⟨fuel, rfl⟩ := Nat.exists_eq_add_of_le' (Nat.le_of_add_left_le hfuel)
    have hne : prev^[m + 1] i ≠ i := fun heq => iterate_ne hlt (Nat.succ_pos m) heq.symm
    have hstep : rotate prev n i (fuel + 1) (prev^[m] i) (prev^[m + 1] i) (stillToMove - m) (moved prev i data m) =
        rotate prev n i fuel (prev^[m + 1] i) (prev^[m + 1 + 1] i) (stillToMove - (m + 1))
          (moved prev i data (m + 1)) := by
      rw [rotate, if_pos hne, if_pos ⟨h.symm.iterate_lt hi m, h.symm.iterate_lt hi (m + 1)⟩, swap_moved hlt,
        pred_of_pos (by omega) (by omega), iterate_succ_apply' prev (m + 1), Nat.sub_sub]
    exact hstep.trans (hbound fuel (by omega))

end Rotate

/-! ## All cycles -/

section Permute

variable {α : Type*} {n : ℕ} {next prev : ℕ → ℕ} {data : ℕ → α}

/-- The block when the cycles with a leader below `i` have been moved. -/
noncomputable def partly (n : ℕ) (next prev : ℕ → ℕ) (data : ℕ → α) (i p : ℕ) : α :=
  if p < n ∧ lead next p < i then data (prev p) else data p

/-- The elements of the other cycles. -/
noncomputable def left (n : ℕ) (next : ℕ → ℕ) (i : ℕ) : Finset ℕ := (Finset.range n).filter fun p => i ≤ lead next p

theorem left_card_le (i : ℕ) : (left n next i).card ≤ n :=
  (Finset.card_filter_le _ _).trans (Finset.card_range n).le

/-- The elements of a cycle. -/
theorem Inverse.left_leader (h : Inverse n next prev) {i : ℕ} (hi : i < n) (hlead : lead next i = i) :
    (left n next i).card = (left n next (i + 1)).card + minimalPeriod prev i := by
  have hcycle : (Finset.range (minimalPeriod prev i)).image (fun m => prev^[m] i) =
      (left n next i).filter fun p => lead next p = i := by
    ext p
    simp only [left, Finset.mem_image, Finset.mem_filter, Finset.mem_range]
    constructor
    · rintro ⟨m, hm, rfl⟩
      have hp := h.symm.iterate_lt hi m
      have heq := (h.lead_eq_iff hi hlead hp).2 ⟨m, hm, rfl⟩
      exact ⟨⟨hp, heq.ge⟩, heq⟩
    · rintro ⟨⟨hp, -⟩, heq⟩
      exact (h.lead_eq_iff hi hlead hp).1 heq
  have hcard : ((Finset.range (minimalPeriod prev i)).image fun m => prev^[m] i).card = minimalPeriod prev i := by
    rw [Finset.card_image_of_injOn, Finset.card_range]
    intro a ha b hb heq
    exact iterate_injOn_Iio_minimalPeriod (Finset.mem_range.1 ha) (Finset.mem_range.1 hb) heq
  have hrest : (left n next i).filter (fun p => ¬ lead next p = i) = left n next (i + 1) := by
    ext p
    simp only [left, Finset.mem_filter, Finset.mem_range]
    omega
  rw [← Finset.card_filter_add_card_filter_not (s := left n next i) fun p => lead next p = i, ← hcycle, hcard, hrest,
    add_comm]

/-- An element that does not lead its cycle. -/
theorem Inverse.left_follower (h : Inverse n next prev) {i : ℕ} (hlead : lead next i ≠ i) (data : ℕ → α) :
    left n next i = left n next (i + 1) ∧ partly n next prev data i = partly n next prev data (i + 1) := by
  have hne : ∀ p < n, lead next p ≠ i := by
    intro p hp heq
    obtain ⟨m, hm⟩ := exists_lead next p
    refine hlead ?_
    rw [← heq, ← hm, h.lead_iterate hp, hm]
  constructor
  · ext p
    simp only [left, Finset.mem_filter, Finset.mem_range]
    refine and_congr_right fun hp => ?_
    have := hne p hp
    omega
  · funext p
    refine if_congr (and_congr_right fun hp => ?_) rfl rfl
    have := hne p hp
    omega

/-- When all cycles have been moved. -/
theorem partly_of_left {i : ℕ} (h : left n next i = ∅) :
    partly n next prev data i = fun p => if p < n then data (prev p) else data p := by
  funext p
  refine if_congr (and_iff_left_of_imp fun hp => ?_) rfl rfl
  by_contra hge
  have hmem : p ∈ left n next i := Finset.mem_filter.2 ⟨Finset.mem_range.2 hp, not_lt.1 hge⟩
  rw [h] at hmem
  exact absurd hmem (Finset.notMem_empty p)

theorem left_end : left n next n = ∅ := by
  ext p
  simp only [left, Finset.mem_filter, Finset.mem_range, Finset.notMem_empty, iff_false, not_and, not_le]
  exact fun hp => (lead_le next p).trans_lt hp

theorem Inverse.moved_leader (h : Inverse n next prev) {i : ℕ} (hi : i < n) (hlead : lead next i = i) :
    moved prev i (partly n next prev data i) (minimalPeriod prev i - 1) = partly n next prev data (i + 1) := by
  have hpos := minimalPeriod_pos_of_mem_periodicPts (h.symm.periodic hi)
  have hcycle : ∀ {p m}, m < minimalPeriod prev i → prev^[m] i = p → p < n ∧ lead next p = i := by
    rintro p m hm rfl
    have hp := h.symm.iterate_lt hi m
    exact ⟨hp, (h.lead_eq_iff hi hlead hp).2 ⟨m, hm, rfl⟩⟩
  funext p
  unfold moved
  by_cases hlast : p = prev^[minimalPeriod prev i - 1] i
  · obtain ⟨hp, heq⟩ := hcycle (by omega) hlast.symm
    have hprev : prev p = i := by
      rw [hlast, ← iterate_succ_apply' prev, Nat.succ_eq_add_one, Nat.sub_add_cancel hpos, iterate_minimalPeriod]
    rw [if_pos hlast, partly, if_neg (by omega), partly, if_pos ⟨hp, by omega⟩, hprev]
  · rw [if_neg hlast]
    split_ifs with hmoved
    · obtain ⟨m, hm, heq⟩ := hmoved
      obtain ⟨hp, hleadp⟩ := hcycle (by omega) heq
      rw [partly, if_neg (by rw [h.lead_prev hp]; omega), partly, if_pos ⟨hp, by omega⟩]
    · refine if_congr (and_congr_right fun hp => ?_) rfl rfl
      have hne : lead next p ≠ i := by
        intro heq
        obtain ⟨m, hm, heq⟩ := (h.lead_eq_iff hi hlead hp).1 heq
        by_cases hlt : m < minimalPeriod prev i - 1
        · exact hmoved ⟨m, hlt, heq⟩
        · exact hlast (by rw [← heq, show m = minimalPeriod prev i - 1 by omega])
      omega

/-- **From any leader on the cycles that are left are moved.** -/
theorem Inverse.settles_partly (h : Inverse n next prev) (hn : n < 2 ^ 64) (data : ℕ → α) : ∀ i ≤ n,
    Settles (fun fuel => permute next prev n fuel i (left n next i).card (partly n next prev data i))
      (fun p => if p < n then data (prev p) else data p) := by
  intro i hi
  induction hrest : n - i generalizing i with
  | zero =>
    obtain rfl : i = n := by omega
    refine ⟨1, fun fuel hfuel => ?_⟩
    obtain ⟨fuel, rfl⟩ := Nat.exists_eq_add_of_le' hfuel
    dsimp only
    rw [permute, left_end, if_pos Finset.card_empty, partly_of_left left_end]
  | succ rest ih =>
    by_cases hdone : left n next i = ∅
    · refine ⟨1, fun fuel hfuel => ?_⟩
      obtain ⟨fuel, rfl⟩ := Nat.exists_eq_add_of_le' hfuel
      dsimp only
      rw [permute, hdone, if_pos Finset.card_empty, partly_of_left hdone]
    have hlt : i < n := by omega
    have hnext : (i + 1) % 2 ^ 64 = i + 1 := Nat.mod_eq_of_lt (by omega)
    have hsome : (left n next i).card ≠ 0 := fun hzero => hdone (Finset.card_eq_zero.1 hzero)
    obtain ⟨bound, hbound⟩ := ih (i + 1) hlt (by omega)
    obtain ⟨j, ⟨bound₁, hsearch⟩, hj⟩ := h.settles_search hlt
    by_cases hlead : lead next i = i
    · have hcount := h.left_leader hlt hlead
      have hle : (left n next i).card ≤ n := left_card_le i
      have hpos := minimalPeriod_pos_of_mem_periodicPts (h.symm.periodic hlt)
      obtain ⟨bound₂, hrotate⟩ := @Inverse.settles_rotate α n next prev i (left n next i).card
        (partly n next prev data i) h hlt (by omega) (by omega) 0 hpos
      rw [moved_zero, h.moved_leader hlt hlead] at hrotate
      refine ⟨max bound (max bound₁ bound₂) + 1, fun fuel hfuel => ?_⟩
      obtain ⟨fuel, rfl⟩ := Nat.exists_eq_add_of_le' (Nat.le_of_add_left_le hfuel)
      have hrot : rotate prev n i fuel i (prev i) (left n next i).card (partly n next prev data i) =
          some (partly n next prev data (i + 1), (left n next i).card - (minimalPeriod prev i - 1)) :=
        hrotate fuel (by omega)
      have hfound : search next i fuel (next i) = some j := hsearch fuel (by omega)
      have hlast : pred ((left n next i).card - (minimalPeriod prev i - 1)) =
          (left n next i).card - (minimalPeriod prev i - 1) - 1 := pred_of_pos (by omega) (by omega)
      dsimp only
      rw [permute, if_neg hsome, hfound, Option.bind_some, if_neg (fun hlt => hj.1 hlt hlead), hrot, Option.bind_some,
        hnext]
      dsimp only
      rw [hlast, show (left n next i).card - (minimalPeriod prev i - 1) - 1 = (left n next (i + 1)).card by omega]
      exact hbound fuel (by omega)
    · obtain ⟨hleft, hpartly⟩ := h.left_follower hlead data
      refine ⟨max bound bound₁ + 1, fun fuel hfuel => ?_⟩
      obtain ⟨fuel, rfl⟩ := Nat.exists_eq_add_of_le' (Nat.le_of_add_left_le hfuel)
      have hfound : search next i fuel (next i) = some j := hsearch fuel (by omega)
      dsimp only
      rw [permute, if_neg hsome, hfound, Option.bind_some, if_pos (hj.2 hlead), hnext, hleft, hpartly]
      exact hbound fuel (by omega)

/-- **The elements of the block are permuted.** -/
theorem Inverse.settles_permute (h : Inverse n next prev) (hn : n < 2 ^ 64) (data : ℕ → α) :
    Settles (fun fuel => permute next prev n fuel 0 n data) (fun p => if p < n then data (prev p) else data p) := by
  have hall : left n next 0 = Finset.range n := Finset.filter_true_of_mem fun p _ => Nat.zero_le _
  have hnone : partly n next prev data 0 = data := funext fun p => if_neg fun hp => Nat.not_lt_zero _ hp.2
  have hsettles := h.settles_partly hn data 0 (Nat.zero_le n)
  rwa [hall, Finset.card_range, hnone] at hsettles

end Permute

end Redux.Lib.CycleLeader
