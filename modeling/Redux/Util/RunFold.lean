import Mathlib.Data.BitVec
import Redux.Lib.Progression
import Redux.Util.Boost

/-!
# Util.RunFold — what the translators of number lists share

`redux::VectorTranslator` and `redux::ModeListTranslator` write a list with runs of equal steps folded
into `first-last` or `first:step:last`, and both read these back with the same loops.  The numbers are
those of an unsigned type of `w` bits; each has a type beside it (of one value for plain numbers), and
a run is of one type.
-/

namespace Redux.Util

open Redux.Lib

/-- An element of a list: a number and what type it is of. -/
structure Element (τ : Type) (w : ℕ) where
  type : τ
  number : BitVec w
  deriving DecidableEq

/-- An integer stored in an `int`. -/
def toInt (n : ℤ) : ℤ := n.bmod (2 ^ 32)

/-! ## Writing -/

section Write

variable {τ : Type} {w : ℕ}

/-- A run as it is folded: `more` elements after the first two. -/
structure Run (τ : Type) (w : ℕ) where
  type : τ
  first : BitVec w
  second : BitVec w
  more : ℕ
  deriving DecidableEq

namespace Run

/-- `int step = *last - *first`. -/
def step (r : Run τ w) : ℤ := toInt (r.second.toNat - r.first.toNat)

/-- The step in the arithmetic of the numbers' type. -/
def wstep (r : Run τ w) : BitVec w := BitVec.ofInt w r.step

def count (r : Run τ w) : ℕ := r.more + 2

/-- The numbers of the run; beyond its end, what it would have gone on with. -/
def value (r : Run τ w) : ℕ → BitVec w := runValue r.first r.second r.wstep

def last (r : Run τ w) : BitVec w := r.value (r.count - 1)

def items (r : Run τ w) : List (Element τ w) := (List.range r.count).map fun i => ⟨r.type, r.value i⟩

/-- `a-b` for a step of one, `a:s:b` for any other. -/
def text (r : Run τ w) : List Char :=
  decimal r.first.toNat ++ (if r.step = 1 then ['-'] else [':']) ++
    (if r.step ≠ 1 then decimalInt r.step ++ [':'] else []) ++ decimal r.last.toNat

end Run

/-- What is written between two commas. -/
inductive Segment (τ : Type) (w : ℕ)
  | single (x : Element τ w)
  | folded (r : Run τ w)
  deriving DecidableEq

namespace Segment

def type : Segment τ w → τ
  | .single x => x.type
  | .folded r => r.type

def items : Segment τ w → List (Element τ w)
  | .single x => [x]
  | .folded r => r.items

def text : Segment τ w → List Char
  | .single x => decimal x.number.toNat
  | .folded r => r.text

end Segment

/-- `while( ++last != end && *last == next ) { next += step; count++; }` -/
def countRun [DecidableEq τ] (type : τ) (step : BitVec w) : BitVec w → List (Element τ w) → ℕ
  | _, [] => 0
  | next, x :: rest =>
    if x.number = next ∧ x.type = type then countRun type step (next + step) rest + 1 else 0

/-- The loop of `put_value`, for a list of at most `fuel` elements: the first two elements say what the
step is, and the run is folded if it goes on. -/
def segments [DecidableEq τ] : ℕ → List (Element τ w) → List (Segment τ w)
  | 0, _ => []
  | _ + 1, [] => []
  | _ + 1, [x] => [.single x]
  | fuel + 1, x :: y :: rest =>
    if y.type ≠ x.type then .single x :: segments fuel (y :: rest) else
      let step := BitVec.ofInt w (toInt (y.number.toNat - x.number.toNat))
      let more := countRun x.type step (y.number + step) rest
      if 0 < more then .folded ⟨x.type, x.number, y.number, more⟩ :: segments fuel (rest.drop more)
      else .single x :: segments fuel (y :: rest)

end Write

/-! ## Reading -/

section Read

variable {w : ℕ}

/-- `while( first <= last ) { out.push_back( first ); first += step; }`, for at most `fuel` rounds. -/
def countUp (last step : BitVec w) : ℕ → BitVec w → Option (List (BitVec w))
  | 0, _ => none
  | fuel + 1, first =>
    if first ≤ last then (countUp last step fuel (first + step)).map (first :: ·) else some []

/-- `abs` of an `int`. -/
def intAbs (n : ℤ) : ℤ := if n < 0 then toInt (-n) else n

/-- The numbers from `first` to `last`: read from the smaller end, and turned around if they descend. -/
def expand (fuel : ℕ) (first : BitVec w) (step : ℤ) (last : BitVec w) : Option (List (BitVec w)) :=
  if last < first then (countUp first (BitVec.ofInt w (intAbs step)) fuel last).map List.reverse
  else countUp last (BitVec.ofInt w step) fuel first

/-- The numbers that a segment stands for: one, `a-b` or `a:b`, or `a:s:b`. -/
def parseNumbers (B : Boost w) (fuel : ℕ) (elem : List Char) : Option (List (BitVec w)) := do
  let n1 := elem.count '-'
  let n2 := elem.count ':'
  if n1 + n2 = 0 then
    return [← B.lexical_cast elem]
  else if n1 + n2 = 1 then
    let n := elem.findIdx fun c => c == ':' || c == '-'
    let first ← B.lexical_cast (elem.take n)
    let last ← B.lexical_cast (elem.drop (n + 1))
    expand fuel first 1 last
  else if n2 = 2 then
    let n := elem.findIdx (· == ':')
    let rest := elem.drop (n + 1)
    let nn := rest.findIdx (· == ':')
    let first ← B.lexical_cast (elem.take n)
    let step ← B.lexical_cast (rest.take nn)
    let last ← B.lexical_cast (rest.drop (nn + 1))
    expand fuel first (toInt step.toNat) last
  else return []

/-! ### More rounds change nothing -/

variable {fuel fuel' : ℕ}

theorem countUp_mono {last step : BitVec w} (hfuel : fuel ≤ fuel') {first : BitVec w} {out : List (BitVec w)}
    (h : countUp last step fuel first = some out) : countUp last step fuel' first = some out := by
  induction fuel generalizing fuel' first out with
  | zero => cases h
  | succ fuel ih =>
    obtain ⟨n, rfl⟩ := Nat.exists_eq_add_of_lt hfuel
    rw [countUp] at h ⊢
    split_ifs at h ⊢
    · obtain ⟨rest, hrest, rfl⟩ := Option.map_eq_some_iff.1 h
      rw [ih (Nat.le_add_right fuel n) hrest, Option.map_some]
    · exact h

theorem expand_mono {first last : BitVec w} {step : ℤ} (hfuel : fuel ≤ fuel') {out : List (BitVec w)}
    (h : expand fuel first step last = some out) : expand fuel' first step last = some out := by
  rw [expand] at h ⊢
  split_ifs at h ⊢
  · obtain ⟨up, hup, rfl⟩ := Option.map_eq_some_iff.1 h
    rw [countUp_mono hfuel hup, Option.map_some]
  · exact countUp_mono hfuel h

theorem parseNumbers_mono {B : Boost w} {elem : List Char} (hfuel : fuel ≤ fuel') {out : List (BitVec w)}
    (h : parseNumbers B fuel elem = some out) : parseNumbers B fuel' elem = some out := by
  unfold parseNumbers at h ⊢
  dsimp only at h ⊢
  split_ifs at h ⊢
  · exact h
  · obtain ⟨first, hfirst, h⟩ := Option.bind_eq_some_iff.1 h
    obtain ⟨last, hlast, h⟩ := Option.bind_eq_some_iff.1 h
    rw [hfirst, hlast]
    exact expand_mono hfuel h
  · obtain ⟨first, hfirst, h⟩ := Option.bind_eq_some_iff.1 h
    obtain ⟨step, hstep, h⟩ := Option.bind_eq_some_iff.1 h
    obtain ⟨last, hlast, h⟩ := Option.bind_eq_some_iff.1 h
    rw [hfirst, hstep, hlast]
    exact expand_mono hfuel h
  · exact h

end Read

end Redux.Util
