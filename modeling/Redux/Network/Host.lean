import Mathlib.Data.List.Lex
import Mathlib.Order.Fin.Basic
import Mathlib.Data.Set.Basic
import Redux.Lib.OrderedSet

/-!
# Network.Host — the order of the peers

`Host::operator<` orders hosts of one name, in any letter case, by their pids, and other hosts by their
names as they are spelled.  A third name that lies between two spellings of one name closes a circle
(`strictWeak_iff`).  `operator>` compares the pids the other way round, but not the names
(`converse_iff`).
-/

namespace Redux.Network

open Redux.Lib

section Model

/-- The part of `HostInfo` that hosts are compared by. -/
structure Host where
  name : List (Fin 256)
  pid : ℤ
  deriving DecidableEq

/-- `toupper` of the classic locale. -/
def toupper (c : Fin 256) : Fin 256 := if 97 ≤ c ∧ c ≤ 122 then c - 32 else c

/-- `boost::algorithm::iequals`. -/
def iequals (a b : List (Fin 256)) : Bool := decide (a.map toupper = b.map toupper)

namespace Host

/-- `operator<`. -/
def lt (a b : Host) : Bool :=
  if iequals a.name b.name then decide (a.pid < b.pid) else decide (a.name < b.name)

/-- `operator>`, where `compare` is negative if the left name comes first. -/
def gt (a b : Host) : Bool :=
  if iequals a.name b.name then decide (b.pid < a.pid) else decide (a.name < b.name)

/-- The same peer. -/
def SamePeer (a b : Host) : Prop := iequals a.name b.name = true ∧ a.pid = b.pid

/-- What the sets of hosts rely on, for the hosts in `S`. -/
structure Consistent (S : Set Host) : Prop where
  strictWeak : OrderedSet.StrictWeak lt S
  same : ∀ a ∈ S, ∀ b ∈ S, (OrderedSet.same lt a b = true ↔ SamePeer a b)
  converse : ∀ a ∈ S, ∀ b ∈ S, gt a b = lt b a

/-- Another name lies between two spellings of a name, whose order is not that of the pids. -/
def Crossed (S : Set Host) : Prop :=
  ∃ a ∈ S, ∃ a' ∈ S, ∃ c ∈ S, iequals a.name a'.name = true ∧ iequals a.name c.name = false ∧
    a'.name < c.name ∧ c.name < a.name ∧ a.pid ≤ a'.pid

/-- All hosts have one name, in any letter case. -/
def OneName (S : Set Host) : Prop := ∀ a ∈ S, ∀ b ∈ S, iequals a.name b.name = true

end Host

end Model

/-! ## One comparison -/

section Compare

variable {a b c : Host} {m n k : List (Fin 256)}

theorem iequals_iff : iequals m n = true ↔ m.map toupper = n.map toupper := decide_eq_true_iff

theorem iequals_refl : iequals m m = true := iequals_iff.2 rfl

theorem iequals_comm : iequals m n = iequals n m := by
  rw [Bool.eq_iff_iff, iequals_iff, iequals_iff]
  exact eq_comm

theorem iequals_trans (h : iequals m n = true) : iequals m k = iequals n k := by
  rw [Bool.eq_iff_iff, iequals_iff, iequals_iff, iequals_iff.1 h]

/-- Names that are not equal in any letter case are spelled differently. -/
theorem ne_of_iequals (h : iequals m n = false) : m ≠ n := by
  rintro rfl
  rw [iequals_refl] at h
  exact Bool.false_ne_true h.symm

namespace Host

theorem lt_of_iequals (h : iequals a.name b.name = true) : lt a b = true ↔ a.pid < b.pid := by
  rw [lt, if_pos h, decide_eq_true_iff]

theorem lt_of_not_iequals (h : iequals a.name b.name = false) : lt a b = true ↔ a.name < b.name := by
  rw [lt, if_neg (Bool.eq_false_iff.1 h), decide_eq_true_iff]

theorem lt_irrefl : lt a a = false := by
  rw [Bool.eq_false_iff, ne_eq, lt_of_iequals iequals_refl]
  exact Int.lt_irrefl _

/-- **Two hosts compare equivalent exactly when they are the same peer.** -/
theorem same_iff : OrderedSet.same lt a b = true ↔ SamePeer a b := by
  rw [OrderedSet.same, Bool.and_eq_true, Bool.not_eq_true', Bool.not_eq_true', SamePeer, Bool.eq_false_iff,
    Bool.eq_false_iff]
  by_cases h : iequals a.name b.name = true
  · rw [ne_eq, ne_eq, lt_of_iequals h, lt_of_iequals (iequals_comm.trans h)]
    constructor
    · rintro ⟨h1, h2⟩
      exact ⟨h, by omega⟩
    · rintro ⟨-, h⟩
      omega
  · have h' : iequals a.name b.name = false := Bool.eq_false_iff.2 h
    rw [ne_eq, ne_eq, lt_of_not_iequals h', lt_of_not_iequals (iequals_comm.trans h')]
    refine iff_of_false ?_ fun hs => h hs.1
    rintro ⟨h1, h2⟩
    exact ne_of_iequals h' (le_antisymm (not_lt.1 h2) (not_lt.1 h1))

/-- `operator>` is the converse exactly for hosts of one name. -/
theorem gt_eq_iff : gt a b = lt b a ↔ iequals a.name b.name = true := by
  by_cases h : iequals a.name b.name = true
  · rw [gt, if_pos h, lt, if_pos (iequals_comm.trans h)]
    exact iff_of_true rfl h
  · have h' : iequals a.name b.name = false := Bool.eq_false_iff.2 h
    rw [gt, if_neg h, lt, if_neg (Bool.eq_false_iff.1 (iequals_comm.trans h'))]
    refine iff_of_false (fun heq => ?_) h
    rw [decide_eq_decide] at heq
    rcases lt_or_gt_of_ne (ne_of_iequals h') with hlt | hlt
    · exact lt_asymm hlt (heq.1 hlt)
    · exact lt_asymm hlt (heq.2 hlt)

end Host

end Compare

/-! ## Sets of hosts -/

section Sets

variable {S : Set Host} {a b c : Host}

namespace Host

/-- Hosts that no name crosses are ordered transitively. -/
theorem lt_of_not_crossed (hS : ¬ Crossed S) (ha : a ∈ S) (hb : b ∈ S) (hc : c ∈ S) (hab : lt a b = true)
    (hbc : lt b c = true) : lt a c = true := by
  have hcross : ∀ {x y z : Host}, x ∈ S → y ∈ S → z ∈ S → iequals x.name y.name = true →
      iequals x.name z.name = false → y.name < z.name → x.pid ≤ y.pid → x.name < z.name := by
    intro x y z hx hy hz hxy hxz hyz hpid
    rcases lt_or_gt_of_ne (ne_of_iequals hxz) with hlt | hlt
    · exact hlt
    · exact absurd ⟨x, hx, y, hy, z, hz, hxy, hxz, hyz, hlt, hpid⟩ hS
  by_cases h1 : iequals a.name b.name = true <;> by_cases h2 : iequals b.name c.name = true
  · -- one name
    rw [lt_of_iequals h1] at hab
    rw [lt_of_iequals h2] at hbc
    rw [lt_of_iequals ((iequals_trans h1).trans h2)]
    omega
  · -- `c` has another name than `a` and `b`
    have h2 := Bool.eq_false_iff.2 h2
    have h3 : iequals a.name c.name = false := (iequals_trans h1).trans h2
    rw [lt_of_iequals h1] at hab
    rw [lt_of_not_iequals h2] at hbc
    rw [lt_of_not_iequals h3]
    exact hcross ha hb hc h1 h3 hbc hab.le
  · -- `a` has another name than `b` and `c`
    have h1 := Bool.eq_false_iff.2 h1
    have h3 : iequals c.name a.name = false := (iequals_trans h2).symm.trans (iequals_comm.trans h1)
    rw [lt_of_not_iequals h1] at hab
    rw [lt_of_iequals h2] at hbc
    rw [lt_of_not_iequals (iequals_comm.trans h3)]
    rcases lt_or_gt_of_ne (ne_of_iequals h3) with hlt | hlt
    · exact absurd ⟨b, hb, c, hc, a, ha, h2, iequals_comm.trans h1, hlt, hab, hbc.le⟩ hS
    · exact hlt
  · have h1 := Bool.eq_false_iff.2 h1
    have h2 := Bool.eq_false_iff.2 h2
    rw [lt_of_not_iequals h1] at hab
    rw [lt_of_not_iequals h2] at hbc
    by_cases h3 : iequals a.name c.name = true
    · -- `b` lies between two spellings
      rw [lt_of_iequals h3]
      by_contra hpid
      have h4 : iequals c.name b.name = false := iequals_comm.trans h2
      exact hS ⟨c, hc, a, ha, b, hb, iequals_comm.trans h3, h4, hab, hbc, not_lt.1 hpid⟩
    · rw [lt_of_not_iequals (Bool.eq_false_iff.2 h3)]
      exact lt_trans hab hbc

/-- **`operator<` is a strict weak ordering of the hosts that no name crosses.** -/
theorem strictWeak_iff : OrderedSet.StrictWeak lt S ↔ ¬ Crossed S := by
  constructor
  · rintro h ⟨a, ha, a', ha', c, hc, heq, hne, hlt, hlt', hpid⟩
    have h1 : lt a' c = true := (lt_of_not_iequals ((iequals_trans heq).symm.trans hne)).2 hlt
    have h2 : lt c a = true := (lt_of_not_iequals (iequals_comm.trans hne)).2 hlt'
    have h3 := (lt_of_iequals (iequals_comm.trans heq)).1 (h.trans a' ha' c hc a ha h1 h2)
    omega
  · intro hS
    refine ⟨fun a _ => lt_irrefl, fun a ha b hb c hc => lt_of_not_crossed hS ha hb hc, ?_⟩
    intro a _ b _ c _ hab hbc
    obtain ⟨h1, h2⟩ := same_iff.1 hab
    obtain ⟨h3, h4⟩ := same_iff.1 hbc
    exact same_iff.2 ⟨(iequals_trans h1).trans h3, h2.trans h4⟩

theorem converse_iff : (∀ a ∈ S, ∀ b ∈ S, gt a b = lt b a) ↔ OneName S :=
  forall₂_congr fun _ _ => forall₂_congr fun _ _ => gt_eq_iff

/-- One name is not crossed by another one. -/
theorem OneName.not_crossed (h : OneName S) : ¬ Crossed S := by
  rintro ⟨a, ha, -, -, c, hc, -, hne, -⟩
  rw [h a ha c hc] at hne
  exact Bool.false_ne_true hne.symm

/-- **The comparisons are consistent on hosts of one name only**; `operator<` by itself is a strict weak
ordering where no name crosses another one, and always tells apart different peers. -/
theorem hosts_consistent_iff (S : Set Host) : (Consistent S ↔ OneName S) ∧
    (OrderedSet.StrictWeak lt S ↔ ¬ Crossed S) ∧
    (∀ a ∈ S, ∀ b ∈ S, (OrderedSet.same lt a b = true ↔ SamePeer a b)) ∧
    ((∀ a ∈ S, ∀ b ∈ S, gt a b = lt b a) ↔ OneName S) := by
  refine ⟨⟨fun h => converse_iff.1 h.converse, fun h => ?_⟩, strictWeak_iff, fun a _ b _ => same_iff, converse_iff⟩
  exact ⟨strictWeak_iff.2 h.not_crossed, fun a _ b _ => same_iff, converse_iff.2 h⟩

/-- `b` with pid 1 comes before `B` with pid 2, `B` before `a`, and `a` before `b`. -/
theorem circle : ¬ Consistent Set.univ := by
  intro h
  have hlt := h.strictWeak.trans ⟨[98], 1⟩ trivial ⟨[66], 2⟩ trivial ⟨[97], 1⟩ trivial (by decide) (by decide)
  revert hlt
  decide

end Host

end Sets

end Redux.Network
