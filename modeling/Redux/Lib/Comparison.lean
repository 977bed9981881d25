import Mathlib.Order.Basic
import Redux.Lib.OrderedSet

/-!
# Lib.Comparison — comparisons made field by field

`byField lt f rest` compares a field where it differs, and goes on with `rest` where it does not.  It is a
strict weak ordering exactly if `rest` is one among the elements with the same field
(`strictWeak_byField_iff`).  A comparison that decides whether to go on by one thing and orders by another
one is `byPart`: what can go wrong with it is a cycle of three (`faithful_byPart_iff`).  One that leaves the field
out for wildcards is `byWild` (`strictWeak_byWild_iff`).
-/

namespace Redux.Lib.Comparison

open OrderedSet

variable {α β γ : Type*}

/-- A strict total order. -/
structure StrictTotal (lt : β → β → Bool) : Prop where
  irrefl : ∀ x, lt x x = false
  trans : ∀ x y z, lt x y = true → lt y z = true → lt x z = true
  connected : ∀ x y, lt x y = false → lt y x = false → x = y

/-- `if( f != rhs.f ) return lt( f, rhs.f )`, and `rest` otherwise. -/
def byField [DecidableEq β] (lt : β → β → Bool) (f : α → β) (rest : α → α → Bool) (a b : α) : Bool :=
  if f a ≠ f b then lt (f a) (f b) else rest a b

/-- `if( c != rhs.c ) return lt`, and `rest` otherwise. -/
def byPart [DecidableEq β] (c : α → β) (lt rest : α → α → Bool) (a b : α) : Bool :=
  if c a ≠ c b then lt a b else rest a b

/-- `if( wild || rhs.wild || (f == rhs.f) ) return g < rhs.g`, and `f < rhs.f` otherwise. -/
def byWild [LinearOrder β] [LinearOrder γ] (wild : α → Prop) [DecidablePred wild] (f : α → β) (g : α → γ)
    (a b : α) : Bool :=
  if wild a ∨ wild b ∨ f a = f b then decide (g a < g b) else decide (f a < f b)

/-- `std::lexicographical_compare`. -/
def lexicographical_compare (lt : β → β → Bool) : List β → List β → Bool
  | [], [] => false
  | [], _ :: _ => true
  | _ :: _, [] => false
  | x :: xs, y :: ys => if lt x y then true else if lt y x then false else lexicographical_compare lt xs ys

/-- What a map asks of the comparison of its keys, if they are those of `S`: a strict weak ordering in which
only equal keys are equivalent. -/
structure Faithful (lt : α → α → Bool) (S : Set α) : Prop where
  strictWeak : StrictWeak lt S
  same : ∀ a ∈ S, ∀ b ∈ S, (same lt a b = true ↔ a = b)

/-! ## Total orders -/

section Total

variable {lt : β → β → Bool}

theorem strictTotal_lt [LinearOrder β] : StrictTotal fun x y : β => decide (x < y) where
  irrefl x := decide_eq_false (lt_irrefl x)
  trans _ _ _ hxy hyz := decide_eq_true ((of_decide_eq_true hxy).trans (of_decide_eq_true hyz))
  connected _ _ hxy hyx := le_antisymm (not_lt.1 (of_decide_eq_false hyx)) (not_lt.1 (of_decide_eq_false hxy))

theorem strictTotal_gt [LinearOrder β] : StrictTotal fun x y : β => decide (y < x) where
  irrefl x := decide_eq_false (lt_irrefl x)
  trans _ _ _ hxy hyz := decide_eq_true ((of_decide_eq_true hyz).trans (of_decide_eq_true hxy))
  connected _ _ hxy hyx := le_antisymm (not_lt.1 (of_decide_eq_false hxy)) (not_lt.1 (of_decide_eq_false hyx))

/-- An order of what values are mapped to, if they are told apart there. -/
theorem StrictTotal.comap (h : StrictTotal lt) {f : α → β} (hf : Function.Injective f) :
    StrictTotal fun x y => lt (f x) (f y) where
  irrefl x := h.irrefl (f x)
  trans x y z := h.trans (f x) (f y) (f z)
  connected x y hxy hyx := hf (h.connected (f x) (f y) hxy hyx)

theorem lexicographical_compare_cons (h : StrictTotal lt) (x : β) (xs ys : List β) :
    lexicographical_compare lt (x :: xs) (x :: ys) = lexicographical_compare lt xs ys := by
  rw [lexicographical_compare, h.irrefl]
  rfl

theorem lexicographical_compare_of_ne (h : StrictTotal lt) {x y : β} (hne : x ≠ y) (xs ys : List β) :
    lexicographical_compare lt (x :: xs) (y :: ys) = lt x y := by
  rw [lexicographical_compare]
  cases hxy : lt x y with
  | true => rfl
  | false =>
    cases hyx : lt y x with
    | true => rfl
    | false => exact absurd (h.connected x y hxy hyx) hne

theorem lexicographical_compare_irrefl (h : StrictTotal lt) (xs : List β) :
    lexicographical_compare lt xs xs = false := by
  induction xs with
  | nil => rfl
  | cons x xs ih => rw [lexicographical_compare_cons h, ih]

theorem lexicographical_compare_trans (h : StrictTotal lt) :
    ∀ {xs ys zs : List β}, lexicographical_compare lt xs ys = true → lexicographical_compare lt ys zs = true →
      lexicographical_compare lt xs zs = true
  | [], [], _, hxy, _ => nomatch hxy
  | [], _ :: _, [], _, hyz => nomatch hyz
  | [], _ :: _, _ :: _, _, _ => rfl
  | _ :: _, [], _, hxy, _ => nomatch hxy
  | _ :: _, _ :: _, [], _, hyz => nomatch hyz
  | x :: xs, y :: ys, z :: zs, hxy, hyz => by
    by_cases h₁ : x = y <;> by_cases h₂ : y = z
    · obtain rfl := h₁
      obtain rfl := h₂
      rw [lexicographical_compare_cons h] at hxy hyz ⊢
      exact lexicographical_compare_trans h hxy hyz
    · obtain rfl := h₁
      rw [lexicographical_compare_of_ne h h₂] at hyz ⊢
      exact hyz
    · obtain rfl := h₂
      rw [lexicographical_compare_of_ne h h₁] at hxy ⊢
      exact hxy
    · rw [lexicographical_compare_of_ne h h₁] at hxy
      rw [lexicographical_compare_of_ne h h₂] at hyz
      have hxz := h.trans x y z hxy hyz
      have h₃ : x ≠ z := by
        rintro rfl
        rw [h.irrefl] at hxz
        cases hxz
      rwa [lexicographical_compare_of_ne h h₃]

theorem lexicographical_compare_connected (h : StrictTotal lt) :
    ∀ {xs ys : List β}, lexicographical_compare lt xs ys = false → lexicographical_compare lt ys xs = false → xs = ys
  | [], [], _, _ => rfl
  | [], _ :: _, hxy, _ => nomatch hxy
  | _ :: _, [], _, hyx => nomatch hyx
  | x :: xs, y :: ys, hxy, hyx => by
    by_cases hne : x = y
    · obtain rfl := hne
      rw [lexicographical_compare_cons h] at hxy hyx
      rw [lexicographical_compare_connected h hxy hyx]
    · rw [lexicographical_compare_of_ne h hne] at hxy
      rw [lexicographical_compare_of_ne h (Ne.symm hne)] at hyx
      exact absurd (h.connected x y hxy hyx) hne

/-- **Lists of values in a total order are in one**, too. -/
theorem StrictTotal.lexicographical_compare (h : StrictTotal lt) :
    StrictTotal (Comparison.lexicographical_compare lt) where
  irrefl := lexicographical_compare_irrefl h
  trans _ _ _ := lexicographical_compare_trans h
  connected _ _ := lexicographical_compare_connected h

end Total

/-! ## Fields -/

section Fields

variable [DecidableEq β] {lt : β → β → Bool} {f : α → β} {rest : α → α → Bool} {S : Set α} {a b : α}

theorem byField_of_eq (h : f a = f b) : byField lt f rest a b = rest a b := if_neg (not_not.2 h)

theorem byField_of_ne (h : f a ≠ f b) : byField lt f rest a b = lt (f a) (f b) := if_pos h

/-- What is the same to the comparison has the same field. -/
theorem same_byField (h : StrictTotal lt) :
    same (byField lt f rest) a b = true ↔ f a = f b ∧ same rest a b = true := by
  rw [OrderedSet.same, OrderedSet.same]
  by_cases hf : f a = f b
  · rw [byField_of_eq hf, byField_of_eq hf.symm]
    exact ⟨fun hs => ⟨hf, hs⟩, fun hs => hs.2⟩
  · rw [byField_of_ne hf, byField_of_ne (Ne.symm hf)]
    refine iff_of_false (fun hs => hf ?_) fun hs => hf hs.1
    rw [Bool.and_eq_true, Bool.not_eq_true', Bool.not_eq_true'] at hs
    exact h.connected _ _ hs.1 hs.2

/-- **A comparison by a field is as good as it is among the elements with one value of the field.** -/
theorem strictWeak_byField_iff (h : StrictTotal lt) :
    StrictWeak (byField lt f rest) S ↔ ∀ v, StrictWeak rest {x ∈ S | f x = v} := by
  constructor
  · rintro hS v
    have heq : ∀ x y, f x = v → f y = v → byField lt f rest x y = rest x y := fun x y hx hy =>
      byField_of_eq (hx.trans hy.symm)
    refine ⟨fun x hx => ?_, fun x hx y hy z hz hxy hyz => ?_, fun x hx y hy z hz hxy hyz => ?_⟩
    · rw [← heq x x hx.2 hx.2]
      exact hS.irrefl x hx.1
    · rw [← heq x y hx.2 hy.2] at hxy
      rw [← heq y z hy.2 hz.2] at hyz
      rw [← heq x z hx.2 hz.2]
      exact hS.trans x hx.1 y hy.1 z hz.1 hxy hyz
    · exact ((same_byField h).1 (hS.same_trans x hx.1 y hy.1 z hz.1 ((same_byField h).2 ⟨hx.2.trans hy.2.symm, hxy⟩)
        ((same_byField h).2 ⟨hy.2.trans hz.2.symm, hyz⟩))).2
  · intro hv
    refine ⟨fun x hx => ?_, fun x hx y hy z hz hxy hyz => ?_, fun x hx y hy z hz hxy hyz => ?_⟩
    · rw [byField_of_eq rfl]
      exact (hv (f x)).irrefl x ⟨hx, rfl⟩
    · by_cases h₁ : f x = f y <;> by_cases h₂ : f y = f z
      · rw [byField_of_eq h₁] at hxy
        rw [byField_of_eq h₂] at hyz
        rw [byField_of_eq (h₁.trans h₂)]
        exact (hv (f z)).trans x ⟨hx, h₁.trans h₂⟩ y ⟨hy, h₂⟩ z ⟨hz, rfl⟩ hxy hyz
      · rw [byField_of_ne h₂] at hyz
        rwa [byField_of_ne (h₁.trans_ne h₂), h₁]
      · rw [byField_of_ne h₁] at hxy
        rwa [byField_of_ne (fun heq => h₁ (heq.trans h₂.symm)), ← h₂]
      · rw [byField_of_ne h₁] at hxy
        rw [byField_of_ne h₂] at hyz
        have hxz := h.trans _ _ _ hxy hyz
        rwa [byField_of_ne fun heq => ?_]
        rw [heq, h.irrefl] at hxz
        cases hxz
    · obtain ⟨h₁, hxy⟩ := (same_byField h).1 hxy
      obtain ⟨h₂, hyz⟩ := (same_byField h).1 hyz
      exact (same_byField h).2 ⟨h₁.trans h₂,
        (hv (f z)).same_trans x ⟨hx, h₁.trans h₂⟩ y ⟨hy, h₂⟩ z ⟨hz, rfl⟩ hxy hyz⟩

theorem faithful_byField_iff (h : StrictTotal lt) :
    Faithful (byField lt f rest) S ↔ ∀ v, Faithful rest {x ∈ S | f x = v} := by
  constructor
  · rintro ⟨hweak, hsame⟩ v
    refine ⟨(strictWeak_byField_iff h).1 hweak v, fun a ha b hb => ?_⟩
    rw [← hsame a ha.1 b hb.1, same_byField h]
    exact ⟨fun hs => ⟨ha.2.trans hb.2.symm, hs⟩, fun hs => hs.2⟩
  · intro hv
    refine ⟨(strictWeak_byField_iff h).2 fun v => (hv v).strictWeak, fun a ha b hb => ?_⟩
    rw [same_byField h]
    constructor
    · rintro ⟨heq, hs⟩
      exact ((hv (f b)).same a ⟨ha, heq⟩ b ⟨hb, rfl⟩).1 hs
    · rintro rfl
      exact ⟨rfl, ((hv (f a)).same a ⟨ha, rfl⟩ a ⟨ha, rfl⟩).2 rfl⟩

omit [DecidableEq β] in
/-- What is faithful for all values is a strict total order. -/
theorem Faithful.strictTotal (h : Faithful rest Set.univ) : StrictTotal rest where
  irrefl x := h.strictWeak.irrefl x trivial
  trans x y z := h.strictWeak.trans x trivial y trivial z trivial
  connected x y hxy hyx := (h.same x trivial y trivial).1 (by rw [OrderedSet.same, hxy, hyx]; rfl)

omit [DecidableEq β] in
/-- The last field. -/
theorem strictWeak_field (h : StrictTotal lt) : StrictWeak (fun a b => lt (f a) (f b)) S where
  irrefl x _ := h.irrefl (f x)
  trans x _ y _ z _ := h.trans (f x) (f y) (f z)
  same_trans x _ y _ z _ hxy hyz := by
    rw [OrderedSet.same, Bool.and_eq_true, Bool.not_eq_true', Bool.not_eq_true'] at *
    rw [h.connected _ _ hxy.1 hxy.2]
    exact hyz

end Fields

/-! ## Parts -/

section Parts

variable [DecidableEq β] {c : α → β} {lt rest : α → α → Bool} {S : Set α} {a b : α}

theorem byPart_of_eq (h : c a = c b) : byPart c lt rest a b = rest a b := if_neg (not_not.2 h)

theorem byPart_of_ne (h : c a ≠ c b) : byPart c lt rest a b = lt a b := if_pos h

/-- An element with another part lies between two with one part, and the other way round than they do. -/
def Crossed (c : α → β) (lt rest : α → α → Bool) (S : Set α) : Prop :=
  ∃ a ∈ S, ∃ b ∈ S, ∃ d ∈ S, c a = c b ∧ c b ≠ c d ∧ rest a b = true ∧ lt b d = true ∧ lt d a = true

/-- What is the same to the comparison has the same part, if the ordering tells apart what has not. -/
theorem same_byPart (hpart : ∀ a b, same lt a b = true → c a = c b) :
    same (byPart c lt rest) a b = true ↔ c a = c b ∧ same rest a b = true := by
  rw [OrderedSet.same, OrderedSet.same]
  by_cases hc : c a = c b
  · rw [byPart_of_eq hc, byPart_of_eq hc.symm]
    exact ⟨fun hs => ⟨hc, hs⟩, fun hs => hs.2⟩
  · rw [byPart_of_ne hc, byPart_of_ne (Ne.symm hc)]
    exact iff_of_false (fun hs => hc (hpart a b hs)) fun hs => hc hs.1

theorem byPart_asymm (hlt : StrictWeak lt Set.univ) (hrest : StrictWeak rest Set.univ)
    (hab : byPart c lt rest a b = true) : byPart c lt rest b a = false := by
  have hasymm : ∀ r : α → α → Bool, StrictWeak r Set.univ → r a b = true → r b a = false := by
    intro r hr h
    by_contra hba
    have haa := hr.trans a trivial b trivial a trivial h (Bool.not_eq_false _ ▸ hba)
    rw [hr.irrefl a trivial] at haa
    cases haa
  by_cases h : c a = c b
  · rw [byPart_of_eq h] at hab
    rw [byPart_of_eq h.symm]
    exact hasymm rest hrest hab
  · rw [byPart_of_ne h] at hab
    rw [byPart_of_ne (Ne.symm h)]
    exact hasymm lt hlt hab

/-- No three elements follow each other in a circle, unless one of them crosses the other two. -/
theorem byPart_acyclic (hlt : StrictWeak lt Set.univ) (hrest : StrictWeak rest Set.univ) (hS : ¬Crossed c lt rest S)
    {x y z : α} (hx : x ∈ S) (hy : y ∈ S) (hz : z ∈ S) (hxy : byPart c lt rest x y = true)
    (hyz : byPart c lt rest y z = true) (hzx : byPart c lt rest z x = true) : False := by
  have hloop : ∀ r : α → α → Bool, StrictWeak r Set.univ → r x y = true → r y z = true → r z x = true → False := by
    intro r hr h₁ h₂ h₃
    have hxx := hr.trans x trivial z trivial x trivial (hr.trans x trivial y trivial z trivial h₁ h₂) h₃
    rw [hr.irrefl x trivial] at hxx
    cases hxx
  by_cases h₁ : c x = c y <;> by_cases h₂ : c y = c z
  · rw [byPart_of_eq h₁] at hxy
    rw [byPart_of_eq h₂] at hyz
    rw [byPart_of_eq (h₁.trans h₂).symm] at hzx
    exact hloop rest hrest hxy hyz hzx
  · rw [byPart_of_eq h₁] at hxy
    rw [byPart_of_ne h₂] at hyz
    rw [byPart_of_ne fun h => h₂ (h₁.symm.trans h.symm)] at hzx
    exact hS ⟨x, hx, y, hy, z, hz, h₁, h₂, hxy, hyz, hzx⟩
  · rw [byPart_of_ne h₁] at hxy
    rw [byPart_of_eq h₂] at hyz
    rw [byPart_of_ne fun h => h₁ (h.symm.trans h₂.symm)] at hzx
    exact hS ⟨y, hy, z, hz, x, hx, h₂, fun h => h₁ (h.symm.trans h₂.symm), hyz, hzx, hxy⟩
  · rw [byPart_of_ne h₁] at hxy
    rw [byPart_of_ne h₂] at hyz
    by_cases h₃ : c z = c x
    · rw [byPart_of_eq h₃] at hzx
      exact hS ⟨z, hz, x, hx, y, hy, h₃, h₁, hzx, hxy, hyz⟩
    · rw [byPart_of_ne h₃] at hzx
      exact hloop lt hlt hxy hyz hzx

/-- **A comparison by a part is faithful** exactly if it tells all elements apart, and none crosses two
others. -/
theorem faithful_byPart_iff (hlt : StrictWeak lt Set.univ) (hrest : StrictWeak rest Set.univ)
    (hpart : ∀ a b, same lt a b = true → c a = c b) :
    Faithful (byPart c lt rest) S ↔
      (∀ a ∈ S, ∀ b ∈ S, c a = c b → same rest a b = true → a = b) ∧ ¬Crossed c lt rest S := by
  constructor
  · rintro ⟨hweak, hsame⟩
    refine ⟨fun a ha b hb hc hs => (hsame a ha b hb).1 ((same_byPart hpart).2 ⟨hc, hs⟩), ?_⟩
    rintro ⟨a, ha, b, hb, d, hd, hab, hbd, hrab, hlbd, hlda⟩
    have h₁ : byPart c lt rest a b = true := (byPart_of_eq hab).trans hrab
    have h₂ : byPart c lt rest b d = true := (byPart_of_ne hbd).trans hlbd
    have h₃ : byPart c lt rest d a = true := (byPart_of_ne fun h => hbd (h.trans hab).symm).trans hlda
    have hloop := hweak.trans a ha d hd a ha (hweak.trans a ha b hb d hd h₁ h₂) h₃
    rw [hweak.irrefl a ha] at hloop
    cases hloop
  · rintro ⟨hapart, hS⟩
    have hsame : ∀ a ∈ S, ∀ b ∈ S, (same (byPart c lt rest) a b = true ↔ a = b) := by
      intro a ha b hb
      rw [same_byPart hpart]
      constructor
      · rintro ⟨hc, hs⟩
        exact hapart a ha b hb hc hs
      · rintro rfl
        exact ⟨rfl, by rw [OrderedSet.same, hrest.irrefl a trivial]; rfl⟩
    have hirrefl : ∀ a, byPart c lt rest a a = false := fun a => by
      rw [byPart_of_eq rfl]
      exact hrest.irrefl a trivial
    refine ⟨⟨fun a _ => hirrefl a, fun x hx y hy z hz hxy hyz => ?_, fun x hx y hy z hz hxy hyz => ?_⟩, hsame⟩
    · by_contra hxz
      rw [Bool.not_eq_true] at hxz
      cases hzx : byPart c lt rest z x with
      | true => exact byPart_acyclic hlt hrest hS hx hy hz hxy hyz hzx
      | false =>
        obtain rfl := (hsame x hx z hz).1 (by rw [OrderedSet.same, hxz, hzx]; rfl)
        rw [byPart_asymm hlt hrest hxy] at hyz
        cases hyz
    · rw [hsame x hx y hy] at hxy
      rwa [hxy]

end Parts

/-! ## Wildcards -/

section Wild

variable [LinearOrder β] [LinearOrder γ] {wild : α → Prop} [DecidablePred wild] {f : α → β} {g : α → γ} {S : Set α}
  {a b : α}

/-- A wildcard lies between two elements, and the other way round than they do. -/
def Interposed (wild : α → Prop) (f : α → β) (g : α → γ) (S : Set α) : Prop :=
  ∃ z ∈ S, ∃ a ∈ S, ∃ b ∈ S, wild z ∧ ¬wild a ∧ ¬wild b ∧ f a < f b ∧ g b ≤ g z ∧ g z ≤ g a

theorem byWild_of_or (h : wild a ∨ wild b ∨ f a = f b) : byWild wild f g a b = true ↔ g a < g b := by
  simp [byWild, if_pos h]

theorem byWild_of_not (h : ¬(wild a ∨ wild b ∨ f a = f b)) : byWild wild f g a b = true ↔ f a < f b := by
  simp [byWild, if_neg h]

/-- What is the same to the comparison can be compared by `g`. -/
theorem same_byWild : same (byWild wild f g) a b = true ↔ (wild a ∨ wild b ∨ f a = f b) ∧ g a = g b := by
  rw [OrderedSet.same, Bool.and_eq_true, Bool.not_eq_true', Bool.not_eq_true', ← Bool.not_eq_true, ← Bool.not_eq_true]
  by_cases h : wild a ∨ wild b ∨ f a = f b
  · have h' : wild b ∨ wild a ∨ f b = f a := by
      rcases h with h | h | h
      · exact .inr (.inl h)
      · exact .inl h
      · exact .inr (.inr h.symm)
    rw [byWild_of_or h, byWild_of_or h', and_iff_right h, not_lt, not_lt, and_comm]
    exact le_antisymm_iff.symm
  · have h' : ¬(wild b ∨ wild a ∨ f b = f a) := fun h' => h (by tauto)
    rw [byWild_of_not h, byWild_of_not h', not_lt, not_lt]
    refine iff_of_false (fun hle => h (.inr (.inr (le_antisymm hle.2 hle.1)))) fun heq => h heq.1

/-- **A comparison with wildcards is a strict weak ordering** exactly if no wildcard lies between two
elements that are ordered the other way round. -/
theorem strictWeak_byWild_iff : StrictWeak (byWild wild f g) S ↔ ¬Interposed wild f g S := by
  constructor
  · rintro hS ⟨z, hz, a, ha, b, hb, hwz, hwa, hwb, hlt, hbz, hza⟩
    have hwild : ∀ x, wild z ∨ wild x ∨ f z = f x := fun x => .inl hwz
    have hwild' : ∀ x, wild x ∨ wild z ∨ f x = f z := fun x => .inr (.inl hwz)
    have hor : ¬(wild a ∨ wild b ∨ f a = f b) := by
      rintro (h | h | h)
      · exact hwa h
      · exact hwb h
      · exact hlt.ne h
    have hab : byWild wild f g a b = true := (byWild_of_not hor).2 hlt
    rcases hbz.lt_or_eq with hbz | hbz
    · -- `a`, then `b`, then `z`
      have haz := hS.trans a ha b hb z hz hab ((byWild_of_or (hwild' b)).2 hbz)
      exact ((byWild_of_or (hwild' a)).1 haz).not_ge hza
    · rcases hza.lt_or_eq with hza | hza
      · have hzb := hS.trans z hz a ha b hb ((byWild_of_or (hwild a)).2 hza) hab
        exact ((byWild_of_or (hwild b)).1 hzb).ne hbz.symm
      · have hsame := hS.same_trans a ha z hz b hb (same_byWild.2 ⟨hwild' a, hza.symm⟩)
          (same_byWild.2 ⟨hwild b, hbz.symm⟩)
        exact hor (same_byWild.1 hsame).1
  · intro hS
    have hfree : ∀ z ∈ S, ∀ a ∈ S, ∀ b ∈ S, wild z → ¬wild a → ¬wild b → f a < f b → g b ≤ g z → g a < g z := by
      intro z hz a ha b hb hwz hwa hwb hlt hbz
      by_contra hza
      exact hS ⟨z, hz, a, ha, b, hb, hwz, hwa, hwb, hlt, hbz, not_lt.1 hza⟩
    refine ⟨fun x _ => ?_, fun x hx y hy z hz hxy hyz => ?_, fun x hx y hy z hz hxy hyz => ?_⟩
    · rw [← Bool.not_eq_true, byWild_of_or (.inr (.inr rfl))]
      exact lt_irrefl _
    · by_cases hwy : wild y
      · -- the wildcard is between the two, so that they are not the other way round
        have hxy := (byWild_of_or (.inr (.inl hwy))).1 hxy
        have hyz := (byWild_of_or (.inl hwy)).1 hyz
        by_cases hor : wild x ∨ wild z ∨ f x = f z
        · exact (byWild_of_or hor).2 (hxy.trans hyz)
        · rw [byWild_of_not hor]
          rw [not_or, not_or] at hor
          refine (lt_or_gt_of_ne hor.2.2).resolve_right fun hgt => ?_
          exact (hfree y hy z hz x hx hwy hor.2.1 hor.1 hgt hxy.le).not_gt hyz
      · unfold byWild at *
        grind
    · rw [same_byWild] at *
      obtain ⟨hxy, hgxy⟩ := hxy
      obtain ⟨hyz, hgyz⟩ := hyz
      refine ⟨?_, hgxy.trans hgyz⟩
      by_contra hor
      rw [not_or, not_or] at hor
      obtain ⟨hwx, hwz, hne⟩ := hor
      have hwy : wild y := by
        by_contra hwy
        exact hne (((hxy.resolve_left hwx).resolve_left hwy).trans ((hyz.resolve_left hwy).resolve_left hwz))
      rcases lt_or_gt_of_ne hne with hlt | hlt
      · exact (hfree y hy x hx z hz hwy hwx hwz hlt hgyz.ge).ne hgxy
      · exact (hfree y hy z hz x hx hwy hwz hwx hlt hgxy.le).ne hgyz.symm

end Wild

end Redux.Lib.Comparison
