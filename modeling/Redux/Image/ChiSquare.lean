import Mathlib.Algebra.Field.Basic
import Mathlib.Algebra.Field.Rat
import Redux.Util.ArrayCopy

/-!
# Image.ChiSquare — how far two images are apart

`chisq` of two arrays goes through them side by side, and is the mean of the squares (`chisq_eq`).  With weights
the iterator of the weights is to start one step before the first of them, as it is moved on before it is read:
`weight.begin()--` steps back from the beginning, which an iterator does not do.  So the weighted form throws,
whatever its arrays are (`never_weighs`).
-/

namespace Redux.Image.ChiSquare

open Redux.Util.Arrays

/-! ## Model -/

/-- An array, and what is in its cells. -/
structure Operand (T : Type*) where
  view : View
  value : ℤ → T

section Model

section Unweighted

variable {T U K : Type*} [Field K] (a : Operand T) (b : Operand U)

/-- `*it`; `none` outside of the array. -/
def Operand.read (p : ℤ) : Option T := if p ∈ a.view.array.elements then some (a.value p) else none

/-- The elements, in row-major order. -/
def Operand.values : List T := a.view.array.elements.map a.value

-- `avalue - *bit`, in the common type of both, as a `double`
variable (minus : T → U → K)

/-- The loop of `chisq( a, b )`, for at most `fuel` rounds. -/
def chisqLoop : ℕ → ℤ → ℤ → K → Option K
  | 0, _, _, _ => none
  | fuel + 1, it, bit, chisq =>
    if it = a.view.array.end_ then some chisq
    else
      (a.read it).bind fun avalue => (b.read bit).bind fun bvalue => (b.view.array.increment bit).bind fun bit =>
        let tmp := minus avalue bvalue
        (a.view.array.increment it).bind fun it => chisqLoop fuel it bit (chisq + tmp * tmp)

/-- `chisq( a, b )`; `none` if it throws. -/
def chisq : Option K :=
  if !View.sameSizes a.view b.view then none
  else
    let nElements := a.view.array.nElements_
    if nElements = 0 then some 0
    else (chisqLoop a b minus (nElements + 1) a.view.array.begin_ b.view.array.begin_ 0).map (· / nElements)

end Unweighted

variable {K : Type*} [Field K] [DecidableEq K] (a b weight : Operand K)

/-- The loop of `chisq( a, b, weight )`: `chisq` and `count` at its end. -/
def weightedLoop : ℕ → ℤ → ℤ → ℤ → K → ℕ → Option (K × ℕ)
  | 0, _, _, _, _, _ => none
  | fuel + 1, it, bit, wit, chisq, count =>
    if it = a.view.array.end_ then some (chisq, count)
    else
      (a.read it).bind fun avalue => (weight.view.array.increment wit).bind fun wit => (weight.read wit).bind fun w =>
        if w ≠ 0 then
          (b.read bit).bind fun bvalue => (b.view.array.increment bit).bind fun bit =>
            let tmp := (avalue - bvalue) * w
            (a.view.array.increment it).bind fun it => weightedLoop fuel it bit wit (chisq + tmp * tmp) (count + 1)
        else (a.view.array.increment it).bind fun it => weightedLoop fuel it bit wit chisq count

/-- `chisq( a, b, weight )`; `none` if it throws, or if an iterator is dereferenced outside of its array. -/
def chisqWeighted : Option K :=
  if !View.sameSizes a.view b.view || !View.sameSizes a.view weight.view then none
  else
    -- `weight.begin()--` is the iterator before the step, and takes the step
    (weight.view.array.decrement weight.view.array.begin_).bind fun _ =>
      let wit := weight.view.array.begin_
      (weightedLoop a b weight (a.view.array.nElements_ + 1) a.view.array.begin_ b.view.array.begin_ wit 0 0).map
        fun r => if r.2 = 0 then 0 else r.1 / r.2

/-! ## What is to hold -/

/-- The elements side by side, where the weight is not zero. -/
def counted : List ((K × K) × K) := ((a.values.zip b.values).zip weight.values).filter fun t => t.2 ≠ 0

def weightedMean : K :=
  if counted a b weight = [] then 0
  else ((counted a b weight).map fun t => ((t.1.1 - t.1.2) * t.2) ^ 2).sum / (counted a b weight).length

/-- The weighted form is the weighted mean, and without weights the other one; neither leaves its arrays. -/
structure Weighs : Prop where
  value : chisqWeighted a b weight = some (weightedMean a b weight)
  unweighted : (∀ w ∈ weight.values, w = 1) → chisqWeighted a b weight = chisq a b fun x y => x - y

end Model

/-! ## Two arrays -/

section Two

variable {T U K : Type*} [Field K] {a : Operand T} {b : Operand U} {minus : T → U → K}

/-- **The loop adds the squares**, over the positions of two arrays of as many elements. -/
theorem chisqLoop_eq : ∀ {ps qs : List ℤ} {fuel : ℕ} {p q : ℤ} {sum : K},
    (∀ p ∈ ps, p ∈ a.view.array.elements) → (∀ q ∈ qs, q ∈ b.view.array.elements) →
    (ps ++ [a.view.array.end_]).head? = some p →
    (ps ++ [a.view.array.end_]).IsChain (fun p p' => a.view.array.increment p = some p') → a.view.array.end_ ∉ ps →
    (qs ++ [b.view.array.end_]).head? = some q →
    (qs ++ [b.view.array.end_]).IsChain (fun q q' => b.view.array.increment q = some q') → ps.length = qs.length →
    ps.length < fuel → chisqLoop a b minus fuel p q sum =
      some (sum + ((ps.zip qs).map fun r => minus (a.value r.1) (b.value r.2) ^ 2).sum)
  | _, _, 0, _, _, _, _, _, _, _, _, _, _, _, h => absurd h (Nat.not_lt_zero _)
  | [], [], fuel + 1, p, q, sum, _, _, hp, _, _, _, _, _, _ => by
    obtain rfl : a.view.array.end_ = p := Option.some.inj hp
    rw [chisqLoop, if_pos rfl]
    simp
  | p₀ :: ps, q₀ :: qs, fuel + 1, p, q, sum, hps, hqs, hp, hchain, hstop, hq, hchain', hlen, hfuel => by
    obtain rfl : p₀ = p := Option.some.inj hp
    obtain rfl : q₀ = q := Option.some.inj hq
    obtain ⟨hne, hstop'⟩ := not_or.1 (mt List.mem_cons.2 hstop)
    obtain ⟨hp₀, hps⟩ := List.forall_mem_cons.1 hps
    obtain ⟨hq₀, hqs⟩ := List.forall_mem_cons.1 hqs
    obtain ⟨p', hp'⟩ : ∃ p', (ps ++ [a.view.array.end_]).head? = some p' :=
      Option.isSome_iff_exists.1 (by cases ps <;> rfl)
    obtain ⟨q', hq'⟩ : ∃ q', (qs ++ [b.view.array.end_]).head? = some q' :=
      Option.isSome_iff_exists.1 (by cases qs <;> rfl)
    rw [List.cons_append, List.isChain_cons] at hchain hchain'
    have ih := @chisqLoop_eq ps qs fuel p' q' (sum + minus (a.value p₀) (b.value q₀) * minus (a.value p₀) (b.value q₀))
      hps hqs hp' hchain.2 hstop' hq' hchain'.2 (Nat.succ.inj hlen) (Nat.lt_of_succ_lt_succ hfuel)
    rw [chisqLoop, if_neg (Ne.symm hne), Operand.read, if_pos hp₀, Option.bind_some, Operand.read, if_pos hq₀,
      Option.bind_some, hchain'.1 q' hq', Option.bind_some, hchain.1 p' hp', Option.bind_some, ih, List.zip_cons_cons,
      List.map_cons, List.sum_cons, sq, add_assoc]

/-- The unweighted form is the mean of the squares of what `-` makes of the elements. -/
theorem chisq_eq (minus : T → U → K) (ha : a.view.array.Constructed) (hb : b.view.array.Constructed)
    (hshape : a.view.shape = b.view.shape) :
    chisq a b minus = some (((a.values.zip b.values).map fun t : T × U => minus t.1 t.2 ^ 2).sum /
      (a.view.array.nElements_ : K)) := by
  have hcount : a.view.array.nElements_ = b.view.array.nElements_ := by
    rw [← View.prod_shape ha.good, hshape, View.prod_shape hb.good]
  have hhead : ∀ {v : View}, v.array.Good → (v.array.elements ++ [v.array.end_]).head? = some v.array.begin_ := by
    intro v h
    rw [List.head?_append, h.head?_elements]
    rfl
  have hloop := @chisqLoop_eq T U K _ a b minus a.view.array.elements b.view.array.elements (a.view.array.nElements_ + 1) _ _ 0
    (fun _ h => h) (fun _ h => h) (hhead ha.good) ha.good.isChain_increment
    (fun hmem => lt_irrefl _ (ha.good.mem_elements hmem).2) (hhead hb.good) hb.good.isChain_increment
    (by rw [ha.good.length_elements, hb.good.length_elements, hcount]) (by rw [ha.good.length_elements]; omega)
  rw [chisq, View.sameSizes_iff.2 hshape, Bool.not_true, if_neg Bool.false_ne_true]
  dsimp only
  rw [if_neg ha.good.nElements_pos.ne', hloop, Option.map_some, zero_add, Operand.values, Operand.values,
    List.zip_map, List.map_map]
  rfl

/-- Zero and one against two ones, of type `uint32_t`: the first difference is the largest number of the type. -/
theorem chisq_eq_pair : chisq (⟨⟨Array.construct [2], 0⟩, fun p => BitVec.ofInt 32 p⟩ : Operand (BitVec 32))
    ⟨⟨Array.construct [2], 1⟩, fun _ => 1⟩ (fun x y => ((x - y).toNat : ℚ)) = some (4294967295 ^ 2 / 2) := by
  have hpair : (Array.construct [2]).Constructed := ⟨[2], [], by decide, rfl, by decide⟩
  refine (@chisq_eq (BitVec 32) (BitVec 32) ℚ _ ⟨⟨Array.construct [2], 0⟩, fun p => BitVec.ofInt 32 p⟩
    ⟨⟨Array.construct [2], 1⟩, fun _ => 1⟩ (fun x y => ((x - y).toNat : ℚ)) hpair hpair rfl).trans ?_
  decide +kernel

end Two

/-! ## Weights -/

section Weighted

variable {K : Type*} [Field K] [DecidableEq K]

/-- There is no way back from the beginning of an array. -/
theorem decrement_begin (a : Array) : a.decrement a.begin_ = none := if_pos le_rfl

theorem chisqWeighted_eq (a b weight : Operand K) : chisqWeighted a b weight = none := by
  unfold chisqWeighted
  rw [decrement_begin, Option.bind_none, ite_self]

/-- **The weighted form is never the weighted mean**, for it throws. -/
theorem never_weighs (a b weight : Operand K) : ¬Weighs a b weight := by
  intro h
  have hvalue := h.value
  rw [chisqWeighted_eq] at hvalue
  cases hvalue

/-- One element in each of the arrays, and it has a weight. -/
theorem single_not_weighed :
    let a : Operand ℚ := ⟨⟨Array.construct [1], 0⟩, fun _ => 1⟩
    View.sameSizes a.view a.view = true ∧ weightedMean a a a = 0 ∧ ¬Weighs a a a := by
  intro a
  refine ⟨rfl, by decide +kernel, fun h => ?_⟩
  have hvalue := h.value
  rw [chisqWeighted_eq] at hvalue
  cases hvalue

end Weighted

end Redux.Image.ChiSquare
