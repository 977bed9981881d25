import Mathlib.Algebra.BigOperators.Group.List.Basic
import Mathlib.Algebra.Field.Rat
import Mathlib.Algebra.Order.Ring.Unbundled.Rat
import Mathlib.Algebra.Ring.Pi
import Mathlib.Algebra.Ring.Prod
import Mathlib.Tactic.LinearCombination
import Redux.Lib.IntType
import Redux.Lib.Run
import Redux.Lib.Scatter
import Redux.Lib.Tally
import Redux.Util.ProgressWatch

/-!
# Image.Mozaic — patches put together to an image by several tasks

`mozaic` puts its patches into a queue, and each of its tasks adds the ones it takes out to sums of its own, which it
merges into the common ones when the queue is empty.  One lock guards the queue and the common sums, and a
`ProgressWatch` counts patches and tasks.  What the tasks hold, the queue and the common sums always make up the
same total (`Accounts`), so that the image is the weighted mean of the patches whatever the schedule.

`insertPatch` clips a patch with unsigned differences, which are wrong for one that lies beyond the image, and
without a task nobody takes the patches out of the queue (`mosaics_iff`).
-/

namespace Redux.Image.Mozaic

open Redux.Lib Redux.Lib.Scatter

/-! ## Model -/

section Model

variable {K : Type*} [Field K]

/-- Two values for each pixel, the first in the image and the second in the sum of weights. -/
abbrev Buffers (K : Type*) := ℕ × ℕ → K × K

/-- The sizes of arrays in memory. -/
structure Sizes where
  imgRows : ℕ
  imgCols : ℕ
  pRows : ℕ
  pCols : ℕ
  imgRows_lt : imgRows < 2 ^ 63
  imgCols_lt : imgCols < 2 ^ 63
  pRows_lt : pRows < 2 ^ 63
  pCols_lt : pCols < 2 ^ 63
  deriving DecidableEq

/-- A patch, by row and column, with its position. -/
structure Patch (K : Type*) where
  pixels : ℕ × ℕ → K
  posY : ℕ
  posX : ℕ
  posY_lt : posY < 2 ^ 31
  posX_lt : posX < 2 ^ 31

namespace Sizes

variable (z : Sizes) (transpose : Bool)

/-- `pRows`, after `std::swap` if transposed. -/
def height : ℕ := if transpose then z.pCols else z.pRows

/-- `pCols`, after `std::swap` if transposed. -/
def width : ℕ := if transpose then z.pRows else z.pCols

end Sizes

/-- `if( pos + n >= size ) n = size-pos;` -/
def clipped (pos n size : ℕ) : ℕ := if size ≤ (pos + n) % 2 ^ 64 then (size + (2 ^ 64 - pos)) % 2 ^ 64 else n

/-- Where the value for row `r` and column `c` is in the patch and in the window. -/
def source (transpose : Bool) (r c : ℕ) : ℕ × ℕ := if transpose then (c, r) else (r, c)

/-- What the loops do to a pixel of the image and of the sum of weights. -/
def insertPixel (weight : Option K) (globalSum : Bool) (value : K) (pixel : K × K) : K × K :=
  match weight with
  | some w => if globalSum then (pixel.1 + w * value, pixel.2 + w) else (pixel.1 * (1 - w) + w * value, pixel.2)
  | none => (value, pixel.2)

section InsertPatch

variable (z : Sizes) (p : Patch K) (weight : Option (ℕ × ℕ → K)) (globalSum transpose : Bool)

/-- The body of the loops; `none` if the pixel is not in the row of the image, or the value not in the patch. -/
def insertAt (r : ℕ) (buf : Buffers K) (c : ℕ) : Option (Buffers K) :=
  let src := source transpose r c
  if p.posX + c < z.imgCols ∧ src.1 < z.pRows ∧ src.2 < z.pCols then
    some (Function.update buf (p.posY + r, p.posX + c)
      (insertPixel (weight.map fun w => w src) globalSum (p.pixels src) (buf (p.posY + r, p.posX + c))))
  else none

/-- The inner loop; `none` also if the image has no such row. -/
def insertRow (buf : Buffers K) (r : ℕ) : Option (Buffers K) :=
  if p.posY + r < z.imgRows then
    (List.range (clipped p.posX (z.width transpose) z.imgCols)).foldlM
      (insertAt z p weight globalSum transpose r) buf
  else none

/-- `insertPatch( img, imgRows, imgCols, patch, pRows, pCols, posY, posX, weight, globalSum, transpose )` -/
def insertPatch (buf : Buffers K) : Option (Buffers K) :=
  (List.range (clipped p.posY (z.height transpose) z.imgRows)).foldlM
    (insertRow z p weight globalSum transpose) buf

end InsertPatch

/-- The arguments of a call, with the window as `apodizeInPlace` leaves it. -/
structure Request (K : Type*) where
  sizes : Sizes
  patches : List (Patch K)
  weights : ℕ × ℕ → K
  transpose : Bool
  nThreads : ℕ

/-- Where a task is, with its own sums. -/
inductive Task (K : Type*)
  | posted
  /-- It has the lock, and looks at the queue. -/
  | locked (buf : Buffers K)
  | inserting (p : Patch K) (buf : Buffers K)
  | inserted (buf : Buffers K)
  | finished

def Task.hasLock : Task K → Bool
  | .locked _ => true
  | _ => false

/-- The queue, the tasks, the common sums and the watch; `undefined` after a step that has no defined outcome. -/
structure State (K : Type*) where
  q : List (Patch K)
  tasks : List (Task K)
  merged : Buffers K
  pw : ProgressWatch Unit
  undefined : Bool

namespace State

variable (s : State K)

/-- The lock is taken. -/
def Locked : Prop := ∃ t ∈ s.tasks, t.hasLock = true

instance : Decidable s.Locked := inferInstanceAs (Decidable (∃ t ∈ s.tasks, t.hasLock = true))

def put (i : ℕ) (t : Task K) : State K := { s with tasks := s.tasks.set i t }

/-- `++pw`, whose counter is an `int`. -/
def count : State K :=
  if s.pw.counter < IntType.int.highest then { s with pw := s.pw.step.1 } else { s with undefined := true }

end State

variable (m : Request K)

/-- `std::min<size_t>( nPatches, nThreads )` -/
def Request.tasks : ℕ := min m.patches.length m.nThreads

/-- The tasks have been posted.  `newArray` writes a pointer to the first row, also if there is none. -/
def begin : State K where
  q := m.patches
  tasks := List.replicate m.tasks .posted
  merged := 0
  pw := ProgressWatch.clear.set (IntType.int.wrap (m.patches.length + m.tasks : ℕ)) 0
  undefined := decide (m.sizes.imgRows = 0 ∨ m.sizes.pRows = 0)

/-- The next step of task `i`: up to the next point at which it needs the lock or has given it back. -/
def step (s : State K) (i : ℕ) : Option (State K) :=
  if s.undefined then none else
    match s.tasks[i]? with
    | some .posted => if s.Locked then none else some (s.put i (.locked 0))
    | some (.locked buf) =>
      match s.q with
      | p :: q => some (({ s with q := q } : State K).put i (.inserting p buf))
      | [] => some (({ s with merged := s.merged + buf } : State K).put i .finished).count
    | some (.inserting p buf) =>
      match insertPatch m.sizes p (some m.weights) true m.transpose buf with
      | some buf' => some (s.put i (.inserted buf'))
      | none => some { s with undefined := true }
    | some (.inserted buf) => if s.Locked then none else some (s.put i (.locked buf)).count
    | some .finished => none
    | none => none

variable [LinearOrder K]

/-- What is written to a pixel of the image after `pw.wait()`. -/
def State.result (s : State K) (pixel : ℕ × ℕ) : K :=
  if (s.merged pixel).2 > 1 / 10 ^ 6 then (s.merged pixel).1 / (s.merged pixel).2 else (s.merged pixel).1

end Model

/-! ## What is to hold -/

section Spec

variable {K : Type*} [Field K]

/-- The patch covers a pixel. -/
def Covers (z : Sizes) (transpose : Bool) (p : Patch K) (pixel : ℕ × ℕ) : Prop :=
  (p.posY ≤ pixel.1 ∧ pixel.1 < p.posY + z.height transpose) ∧ p.posX ≤ pixel.2 ∧ pixel.2 < p.posX + z.width transpose

instance (z : Sizes) (transpose : Bool) (p : Patch K) : DecidablePred (Covers z transpose p) :=
  fun _ => inferInstanceAs (Decidable (_ ∧ _))

/-- The pixel of the patch, or of the window, that lies on a pixel. -/
def under (transpose : Bool) (p : Patch K) (pixel : ℕ × ℕ) : ℕ × ℕ :=
  source transpose (pixel.1 - p.posY) (pixel.2 - p.posX)

/-- The sum, over the patches that cover a pixel, of weight times value. -/
def weightedSum (m : Request K) (pixel : ℕ × ℕ) : K :=
  (m.patches.map fun p => if Covers m.sizes m.transpose p pixel then
    m.weights (under m.transpose p pixel) * p.pixels (under m.transpose p pixel) else 0).sum

/-- The sum of their weights. -/
def weightSum (m : Request K) (pixel : ℕ × ℕ) : K :=
  (m.patches.map fun p => if Covers m.sizes m.transpose p pixel then
    m.weights (under m.transpose p pixel) else 0).sum

/-- All patches have been added, and no task goes on. -/
def State.Finished (s : State K) : Prop := s.q = [] ∧ ∀ t ∈ s.tasks, t = .finished

variable [LinearOrder K]

/-- The mean of the patches that cover a pixel, or their sum where there is hardly any weight. -/
def expected (m : Request K) (pixel : ℕ × ℕ) : K :=
  if weightSum m pixel > 1 / 10 ^ 6 then weightedSum m pixel / weightSum m pixel else weightedSum m pixel

/-- A state that some schedule leads to. -/
def Reachable (m : Request K) (s : State K) : Prop := Reaches (step m) (fun _ _ _ => True) (begin m) s

/-- **Under every schedule** no step is undefined, the tasks come to their end, the call returns then and not before,
and the image is the weighted mean of the patches. -/
structure Mosaics (m : Request K) : Prop where
  defined : ∀ s, Reachable m s → s.undefined = false
  ends : ∃ n, ∀ (is : List ℕ) s, is.foldlM (step m) (begin m) = some s → is.length ≤ n
  returns : ∀ s, Reachable m s → (∀ i, step m s i = none) → s.pw.completed = true
  mean : ∀ s, Reachable m s → s.pw.completed = true → s.Finished ∧
    ∀ y < m.sizes.imgRows, ∀ x < m.sizes.imgCols, s.result (y, x) = expected m (y, x)

/-- The patch starts in the image or directly behind its last row or column; the column is of no account for one
that has no row in it. -/
def Inside (z : Sizes) (transpose : Bool) (p : Patch K) : Prop :=
  p.posY ≤ z.imgRows ∧ (p.posX ≤ z.imgCols ∨ p.posY = z.imgRows ∨ z.height transpose = 0)

instance (z : Sizes) (transpose : Bool) (p : Patch K) : Decidable (Inside z transpose p) :=
  inferInstanceAs (Decidable (_ ∧ _))

/-- **The calls that make a mosaic.** -/
structure Fits (m : Request K) : Prop where
  rows : m.sizes.imgRows ≠ 0 ∧ m.sizes.pRows ≠ 0
  tasks : m.patches = [] ∨ m.nThreads ≠ 0
  counted : m.patches.length + m.tasks < 2 ^ 31
  inside : ∀ p ∈ m.patches, Inside m.sizes m.transpose p

end Spec

/-! ## A patch -/

section Insert

variable {K : Type*} [Field K] {z : Sizes} {p : Patch K} {weight : Option (ℕ × ℕ → K)} {globalSum transpose : Bool}
  {buf : Buffers K} {pos n size r : ℕ}

theorem clipped_of_le (hpos : pos < 2 ^ 31) (hn : n < 2 ^ 63) (hsize : size < 2 ^ 63) (hle : pos ≤ size) :
    clipped pos n size = min n (size - pos) := by
  have hsum : (pos + n) % 2 ^ 64 = pos + n := Nat.mod_eq_of_lt (by omega)
  have hdiff : (size + (2 ^ 64 - pos)) % 2 ^ 64 = size - pos := by
    rw [show size + (2 ^ 64 - pos) = size - pos + 2 ^ 64 by omega, Nat.add_mod_right, Nat.mod_eq_of_lt (by omega)]
  rw [clipped, hsum, hdiff]
  split_ifs with hover
  · exact (min_eq_right (Nat.sub_le_iff_le_add'.2 hover)).symm
  · exact (min_eq_left (Nat.le_sub_of_add_le' (not_le.1 hover).le)).symm

/-- Beyond the image, the difference is wrong. -/
theorem clipped_of_lt (hpos : pos < 2 ^ 31) (hn : n < 2 ^ 63) (hlt : size < pos) : 0 < clipped pos n size := by
  unfold clipped
  split_ifs <;> omega

theorem Sizes.height_lt (z : Sizes) (transpose : Bool) : z.height transpose < 2 ^ 63 := by
  unfold Sizes.height
  split_ifs
  · exact z.pCols_lt
  · exact z.pRows_lt

theorem Sizes.width_lt (z : Sizes) (transpose : Bool) : z.width transpose < 2 ^ 63 := by
  unfold Sizes.width
  split_ifs
  · exact z.pRows_lt
  · exact z.pCols_lt

theorem source_lt {c : ℕ} (hr : r < z.height transpose) (hc : c < z.width transpose) :
    (source transpose r c).1 < z.pRows ∧ (source transpose r c).2 < z.pCols := by
  cases transpose with
  | true => exact ⟨hc, hr⟩
  | false => exact ⟨hr, hc⟩

/-- What a patch does to the pixels that it covers. -/
def covered (p : Patch K) (weight : Option (ℕ × ℕ → K)) (globalSum transpose : Bool) (pixel : ℕ × ℕ) : K × K → K × K :=
  insertPixel (weight.map fun w => w (under transpose p pixel)) globalSum (p.pixels (under transpose p pixel))

theorem insertAt_eq (buf : Buffers K) (c : ℕ) : insertAt z p weight globalSum transpose r buf c =
    if p.posX + c < z.imgCols ∧ (source transpose r c).1 < z.pRows ∧ (source transpose r c).2 < z.pCols then
      some (changed (covered p weight globalSum transpose) (· = (p.posY + r, p.posX + c)) buf) else none := by
  have hunder : under transpose p (p.posY + r, p.posX + c) = source transpose r c := by
    rw [under, Nat.add_sub_cancel_left, Nat.add_sub_cancel_left]
  rw [insertAt, ← update_eq_changed, covered, hunder]

/-- A row is inserted if the image has it, and the columns. -/
theorem insertRow_eq (buf : Buffers K) (r : ℕ) : insertRow z p weight globalSum transpose buf r =
    if p.posY + r < z.imgRows ∧ ∀ c < clipped p.posX (z.width transpose) z.imgCols, p.posX + c < z.imgCols ∧
        (source transpose r c).1 < z.pRows ∧ (source transpose r c).2 < z.pCols then
      some (changed (covered p weight globalSum transpose)
        (fun pixel => ∃ c < clipped p.posX (z.width transpose) z.imgCols, pixel = (p.posY + r, p.posX + c)) buf)
    else none := by
  have hapart : ∀ (c c' : ℕ) (pixel : ℕ × ℕ), pixel = (p.posY + r, p.posX + c) → pixel = (p.posY + r, p.posX + c') →
      c = c' := by
    rintro c c' pixel rfl h
    exact Nat.add_left_cancel (congrArg Prod.snd h)
  unfold insertRow
  rw [foldlM_range_changed hapart insertAt_eq]
  by_cases hrow : p.posY + r < z.imgRows
  · simp only [hrow, if_true, true_and]
  · rw [if_neg hrow, if_neg fun h => hrow h.1]

omit [Field K] in
/-- The rounds of the two loops can all be made exactly for a patch that is inside. -/
theorem rounds_iff : (∀ r < clipped p.posY (z.height transpose) z.imgRows, p.posY + r < z.imgRows ∧
    ∀ c < clipped p.posX (z.width transpose) z.imgCols, p.posX + c < z.imgCols ∧
      (source transpose r c).1 < z.pRows ∧ (source transpose r c).2 < z.pCols) ↔ Inside z transpose p := by
  have hheight := z.height_lt transpose
  have hwidth := z.width_lt transpose
  constructor
  · intro h
    have hY : p.posY ≤ z.imgRows := by
      by_contra hlt
      have hrow := (h 0 (clipped_of_lt p.posY_lt hheight (not_le.1 hlt))).1
      omega
    refine ⟨hY, ?_⟩
    by_contra hnot
    obtain ⟨hX, hend, hzero⟩ : z.imgCols < p.posX ∧ p.posY ≠ z.imgRows ∧ z.height transpose ≠ 0 := by
      simpa only [not_or, not_le] using hnot
    have hrow : 0 < clipped p.posY (z.height transpose) z.imgRows := by
      rw [clipped_of_le p.posY_lt hheight z.imgRows_lt hY]
      omega
    have hcol := ((h 0 hrow).2 0 (clipped_of_lt p.posX_lt hwidth hX)).1
    omega
  · rintro ⟨hY, hX⟩ r hr
    rw [clipped_of_le p.posY_lt hheight z.imgRows_lt hY] at hr
    refine ⟨by omega, fun c hc => ?_⟩
    rw [clipped_of_le p.posX_lt hwidth z.imgCols_lt (by omega)] at hc
    exact ⟨by omega, source_lt (by omega) (by omega)⟩

/-- **A patch that is inside changes the pixels of the image that it covers**, and any other is out of bounds. -/
theorem insertPatch_eq (buf : Buffers K) : insertPatch z p weight globalSum transpose buf =
    if Inside z transpose p then some (changed (covered p weight globalSum transpose)
      (fun pixel => (pixel.1 < z.imgRows ∧ pixel.2 < z.imgCols) ∧ Covers z transpose p pixel) buf) else none := by
  have hapart : ∀ (r r' : ℕ) (pixel : ℕ × ℕ),
      (∃ c < clipped p.posX (z.width transpose) z.imgCols, pixel = (p.posY + r, p.posX + c)) →
      (∃ c < clipped p.posX (z.width transpose) z.imgCols, pixel = (p.posY + r', p.posX + c)) → r = r' := by
    rintro r r' pixel ⟨c, -, rfl⟩ ⟨c', -, h⟩
    exact Nat.add_left_cancel (congrArg Prod.fst h)
  rw [insertPatch, foldlM_range_changed hapart insertRow_eq]
  by_cases hin : Inside z transpose p
  · rw [if_pos hin, if_pos (rounds_iff.2 hin)]
    refine congrArg some (changed_congr fun pixel => ?_)
    obtain ⟨y, x⟩ := pixel
    have hrows := clipped_of_le p.posY_lt (z.height_lt transpose) z.imgRows_lt hin.1
    constructor
    · rintro ⟨r, hr, c, hc, h⟩
      obtain ⟨rfl, rfl⟩ := Prod.mk.inj h
      rw [clipped_of_le p.posX_lt (z.width_lt transpose) z.imgCols_lt (by have := hin.2; omega)] at hc
      rw [hrows] at hr
      exact ⟨⟨by omega, by omega⟩, ⟨by omega, by omega⟩, by omega, by omega⟩
    · rintro ⟨⟨hy, hx⟩, ⟨hY, hY'⟩, hX, hX'⟩
      refine ⟨y - p.posY, by rw [hrows]; omega, x - p.posX, ?_, ?_⟩
      · rw [clipped_of_le p.posX_lt (z.width_lt transpose) z.imgCols_lt (by omega)]
        omega
      · rw [Nat.add_sub_cancel' hY, Nat.add_sub_cancel' hX]
  · rw [if_neg hin, if_neg fun h => hin (rounds_iff.1 h)]

end Insert

/-! ## What a step does -/

section Steps

variable {K : Type*} [Field K] {m : Request K} {s s' : State K} {i : ℕ}

/-- What a patch adds to the sums. -/
def contribution (m : Request K) (p : Patch K) : Buffers K := fun pixel =>
  if (pixel.1 < m.sizes.imgRows ∧ pixel.2 < m.sizes.imgCols) ∧ Covers m.sizes m.transpose p pixel then
    (m.weights (under m.transpose p pixel) * p.pixels (under m.transpose p pixel),
      m.weights (under m.transpose p pixel))
  else 0

/-- With a window and a sum of weights, a patch is added to what is there. -/
theorem insertPatch_sums (p : Patch K) (buf : Buffers K) :
    insertPatch m.sizes p (some m.weights) true m.transpose buf =
      if Inside m.sizes m.transpose p then some (buf + contribution m p) else none := by
  rw [insertPatch_eq]
  refine if_congr Iff.rfl (congrArg some (funext fun pixel => ?_)) rfl
  rw [Pi.add_apply, contribution, changed]
  split_ifs
  · rfl
  · rw [add_zero]

/-- The steps of a task, one by one. -/
inductive Steps (m : Request K) (s : State K) (i : ℕ) : State K → Prop
  | start (h : s.tasks[i]? = some .posted) : Steps m s i (s.put i (.locked 0))
  | take {buf : Buffers K} {p : Patch K} {q : List (Patch K)} (h : s.tasks[i]? = some (.locked buf))
      (hq : s.q = p :: q) :
      Steps m s i (({ s with q := q } : State K).put i (.inserting p buf))
  | merge {buf : Buffers K} (h : s.tasks[i]? = some (.locked buf)) (hq : s.q = []) :
      Steps m s i (({ s with merged := s.merged + buf } : State K).put i .finished).count
  | insert {p : Patch K} {buf : Buffers K} (h : s.tasks[i]? = some (.inserting p buf))
      (hin : Inside m.sizes m.transpose p) : Steps m s i (s.put i (.inserted (buf + contribution m p)))
  | miss {p : Patch K} {buf : Buffers K} (h : s.tasks[i]? = some (.inserting p buf))
      (hin : ¬Inside m.sizes m.transpose p) : Steps m s i { s with undefined := true }
  | relock {buf : Buffers K} (h : s.tasks[i]? = some (.inserted buf)) : Steps m s i (s.put i (.locked buf)).count

theorem step_steps (h : step m s i = some s') : s.undefined = false ∧ Steps m s i s' := by
  by_cases hundefined : s.undefined = true
  · rw [step, if_pos hundefined] at h
    exact absurd h.symm (Option.some_ne_none _)
  refine ⟨Bool.eq_false_of_not_eq_true hundefined, ?_⟩
  rw [step, if_neg hundefined] at h
  cases htask : s.tasks[i]? with
  | none => simp [htask] at h
  | some t =>
    rw [htask] at h
    cases t with
    | posted =>
      obtain ⟨-, hs⟩ := Option.ite_none_left_eq_some.1 h
      exact Option.some_inj.1 hs ▸ .start htask
    | locked buf =>
      dsimp only at h
      split at h
      · next p q hq => exact Option.some_inj.1 h ▸ .take htask hq
      · next hq => exact Option.some_inj.1 h ▸ .merge htask hq
    | inserting p buf =>
      simp only [insertPatch_sums] at h
      by_cases hin : Inside m.sizes m.transpose p
      · rw [if_pos hin] at h
        exact Option.some_inj.1 h ▸ .insert htask hin
      · rw [if_neg hin] at h
        exact Option.some_inj.1 h ▸ .miss htask hin
    | inserted buf =>
      obtain ⟨-, hs⟩ := Option.ite_none_left_eq_some.1 h
      exact Option.some_inj.1 hs ▸ .relock htask
    | finished => exact absurd h.symm (Option.some_ne_none _)

omit [Field K] in
@[simp] theorem count_q (s : State K) : s.count.q = s.q := by
  unfold State.count
  split_ifs <;> rfl

omit [Field K] in
@[simp] theorem count_tasks (s : State K) : s.count.tasks = s.tasks := by
  unfold State.count
  split_ifs <;> rfl

omit [Field K] in
@[simp] theorem count_merged (s : State K) : s.count.merged = s.merged := by
  unfold State.count
  split_ifs <;> rfl

/-- A task that neither is at its end nor waits for the lock can take a step. -/
theorem exists_step (hdefined : s.undefined = false) (hopen : ∃ t ∈ s.tasks, t ≠ .finished) :
    ∃ i, step m s i ≠ none := by
  have hundefined : ¬s.undefined = true := fun h => Bool.false_ne_true (hdefined ▸ h)
  by_cases hlocked : s.Locked
  · obtain ⟨t, ht, hlock⟩ := hlocked
    obtain ⟨i, hi⟩ := List.getElem?_of_mem ht
    refine ⟨i, ?_⟩
    cases t with
    | locked buf =>
      rw [step, if_neg hundefined, hi]
      dsimp only
      split <;> exact Option.some_ne_none _
    | posted => exact absurd hlock Bool.false_ne_true
    | inserting p buf => exact absurd hlock Bool.false_ne_true
    | inserted buf => exact absurd hlock Bool.false_ne_true
    | finished => exact absurd hlock Bool.false_ne_true
  · obtain ⟨t, ht, hopen⟩ := hopen
    obtain ⟨i, hi⟩ := List.getElem?_of_mem ht
    refine ⟨i, ?_⟩
    rw [step, if_neg hundefined, hi]
    cases t with
    | posted => exact ne_of_eq_of_ne (if_neg hlocked) (Option.some_ne_none _)
    | locked buf => exact absurd ⟨_, ht, rfl⟩ hlocked
    | inserting p buf =>
      dsimp only
      split <;> exact Option.some_ne_none _
    | inserted buf => exact ne_of_eq_of_ne (if_neg hlocked) (Option.some_ne_none _)
    | finished => exact absurd rfl hopen

end Steps

/-! ## What all schedules have in common -/

section Accounts

variable {K : Type*} [Field K] {m : Request K} {s s' : State K} {i : ℕ}

/-- What a task still has to merge. -/
def Task.owed (m : Request K) : Task K → Buffers K
  | .posted => 0
  | .locked buf => buf
  | .inserting p buf => buf + contribution m p
  | .inserted buf => buf
  | .finished => 0

/-- The patch that a task has taken and not yet added. -/
def Task.held : Task K → Multiset (Patch K)
  | .inserting p _ => {p}
  | _ => 0

/-- How often a task still counts, before it takes another patch. -/
def Task.left : Task K → ℕ
  | .posted => 1
  | .locked _ => 1
  | .inserting _ _ => 2
  | .inserted _ => 2
  | .finished => 0

/-- All that has been added, or still is to be. -/
def State.total (m : Request K) (s : State K) : Buffers K :=
  s.merged + (s.tasks.map (Task.owed m)).sum + (s.q.map (contribution m)).sum

/-- The patches that have not been added. -/
def State.pending (s : State K) : Multiset (Patch K) := (s.tasks.map Task.held).sum + s.q

/-- How often the watch will still be stepped. -/
def State.left (s : State K) : ℕ := s.q.length + (s.tasks.map Task.left).sum

/-- **The invariant of all schedules**: sums, tasks and queue make up the total. -/
structure Accounts (m : Request K) (s : State K) : Prop where
  total : s.total m = (m.patches.map (contribution m)).sum
  tasks : s.tasks.length = m.tasks
  queue : (∃ t ∈ s.tasks, t = .finished) → s.q = []
  pending : ∀ p ∈ s.pending, p ∈ m.patches
  added : ∀ p ∈ m.patches, p ∈ s.pending ∨ Inside m.sizes m.transpose p

omit [Field K] in
/-- One task goes on, and what it owes changes. -/
theorem sum_put {M : Type*} [AddCommMonoid M] (f : Task K → M) {t : Task K} (h : s.tasks[i]? = some t) (t' : Task K) :
    ((s.tasks.set i t').map f).sum + f t = (s.tasks.map f).sum + f t' := by
  obtain ⟨rest, hsum, hset⟩ := sum_map_set f h
  rw [hset, hsum, add_right_comm, add_comm (f t'), add_right_comm]

theorem Steps.total (h : Steps m s i s') : s'.total m = s.total m := by
  unfold State.total
  cases h with
  | start ht =>
    have hput := sum_put (Task.owed m) ht (.locked 0)
    rw [Task.owed, Task.owed, add_left_inj] at hput
    simp only [State.put, hput]
  | @take buf p q ht hq =>
    have hput := sum_put (Task.owed m) ht (.inserting p buf)
    simp only [Task.owed] at hput
    simp only [State.put, hq, List.map_cons, List.sum_cons]
    linear_combination hput
  | merge ht hq =>
    have hput := sum_put (Task.owed m) ht .finished
    simp only [Task.owed] at hput
    simp only [State.put, count_merged, count_tasks, count_q]
    linear_combination hput
  | @insert p buf ht hin =>
    have hput := sum_put (Task.owed m) ht (.inserted (buf + contribution m p))
    simp only [Task.owed] at hput
    simp only [State.put]
    linear_combination hput
  | miss ht hin => rfl
  | @relock buf ht =>
    have hput := sum_put (Task.owed m) ht (.locked buf)
    rw [Task.owed, Task.owed, add_left_inj] at hput
    simp only [State.put, count_merged, count_tasks, count_q, hput]

/-- A patch stops to be pending when it is added, which can only be done with one that is inside. -/
theorem Steps.pending (h : Steps m s i s') : s'.pending = s.pending ∨
    ∃ p, Inside m.sizes m.transpose p ∧ s.pending = p ::ₘ s'.pending := by
  unfold State.pending
  cases h with
  | start ht =>
    have hput := sum_put Task.held ht (.locked 0)
    simp only [Task.held, add_zero] at hput
    exact .inl (by simp only [State.put, hput])
  | @take buf p q ht hq =>
    have hput := sum_put Task.held ht (.inserting p buf)
    simp only [Task.held, add_zero] at hput
    refine .inl ?_
    simp only [State.put, hput, hq, ← Multiset.cons_coe, ← Multiset.singleton_add, add_assoc]
  | merge ht hq =>
    have hput := sum_put Task.held ht .finished
    simp only [Task.held, add_zero] at hput
    exact .inl (by simp only [State.put, count_tasks, count_q, hput])
  | @insert p buf ht hin =>
    have hput := sum_put Task.held ht (.inserted (buf + contribution m p))
    simp only [Task.held, add_zero] at hput
    refine .inr ⟨p, hin, ?_⟩
    simp only [State.put, ← hput, ← Multiset.singleton_add, add_comm, add_left_comm]
  | miss ht hin => exact .inl rfl
  | @relock buf ht =>
    have hput := sum_put Task.held ht (.locked buf)
    simp only [Task.held, add_zero] at hput
    exact .inl (by simp only [State.put, count_tasks, count_q, hput])

omit [Field K] in
/-- A task that has not come to its end leaves those at their end what they are. -/
theorem finished_of_set {t : Task K} (ht : t ≠ .finished) (h : ∃ t' ∈ s.tasks.set i t, t' = .finished) :
    ∃ t' ∈ s.tasks, t' = .finished := by
  obtain ⟨t', ht', hfinished⟩ := h
  rcases List.mem_or_eq_of_mem_set ht' with hmem | rfl
  · exact ⟨t', hmem, hfinished⟩
  · exact absurd hfinished ht

/-- A task comes to its end when the queue is empty, and nothing is put into it again. -/
theorem Steps.queue (h : Steps m s i s') (hqueue : (∃ t ∈ s.tasks, t = .finished) → s.q = []) :
    (∃ t ∈ s'.tasks, t = .finished) → s'.q = [] := by
  cases h with
  | start ht => exact fun hmem => hqueue (finished_of_set (by simp) hmem)
  | take ht hq =>
    intro hmem
    exact absurd (hq.symm.trans (hqueue (finished_of_set (by simp) hmem))) (List.cons_ne_nil _ _)
  | merge ht hq => exact fun _ => (count_q _).trans hq
  | insert ht hin => exact fun hmem => hqueue (finished_of_set (by simp) hmem)
  | miss ht hin => exact hqueue
  | relock ht =>
    rw [count_tasks, count_q]
    exact fun hmem => hqueue (finished_of_set (by simp) hmem)

theorem Steps.length_tasks (h : Steps m s i s') : s'.tasks.length = s.tasks.length := by
  cases h <;> simp [State.put]

theorem accounts_begin (m : Request K) : Accounts m (begin m) where
  total := by simp [State.total, begin, Task.owed]
  tasks := List.length_replicate
  queue := by
    rintro ⟨t, ht, hfinished⟩
    have hposted : t = .posted := List.eq_of_mem_replicate ht
    rw [hposted] at hfinished
    exact absurd hfinished (by simp)
  pending := by simp [State.pending, begin, Task.held]
  added p hp := by simp [State.pending, begin, Task.held, hp]

/-- **Every step keeps the accounts.** -/
theorem Accounts.step (h : Accounts m s) (hstep : Steps m s i s') : Accounts m s' where
  total := hstep.total.trans h.total
  tasks := hstep.length_tasks.trans h.tasks
  queue := hstep.queue h.queue
  pending p hp := by
    rcases hstep.pending with hsame | ⟨p', -, hcons⟩
    · exact h.pending p (hsame ▸ hp)
    · exact h.pending p (hcons ▸ Multiset.mem_cons_of_mem hp)
  added p hp := by
    rcases hstep.pending with hsame | ⟨p', hin, hcons⟩
    · rw [hsame]
      exact h.added p hp
    · rcases h.added p hp with hmem | hinside
      · rw [hcons, Multiset.mem_cons] at hmem
        exact hmem.elim (fun heq => .inr (heq ▸ hin)) .inl
      · exact .inr hinside

end Accounts

/-! ## The watch -/

section Watch

variable {K : Type*} [Field K] {m : Request K} {s s' : State K} {i : ℕ}

theorem highest_int : IntType.int.highest = 2 ^ 31 - 1 := by decide

/-- The number of steps that the watch is to wait for. -/
def Request.steps (m : Request K) : ℕ := m.patches.length + m.tasks

omit [Field K] in
/-- What is left for the watch, when one task goes on. -/
theorem left_put {t : Task K} (h : s.tasks[i]? = some t) (t' : Task K) :
    (s.put i t').left + t.left = s.left + t'.left := by
  have hput := sum_put Task.left h t'
  unfold State.left State.put
  dsimp only
  omega

/-- **A step either leaves the watch and what is left for it, or steps it.** -/
theorem Steps.watch (h : Steps m s i s') :
    (s'.left = s.left ∧ s'.pw = s.pw ∧
      (s'.undefined = s.undefined ∨ ∃ p ∈ s.pending, ¬Inside m.sizes m.transpose p)) ∨
    ∃ t : State K, s' = t.count ∧ t.pw = s.pw ∧ t.undefined = s.undefined ∧ t.left + 1 = s.left := by
  cases h with
  | start ht =>
    have hput := left_put ht (.locked 0)
    rw [Task.left, Task.left] at hput
    exact .inl ⟨by omega, rfl, .inl rfl⟩
  | @take buf p q ht hq =>
    have hput := @left_put K { s with q := q } i _ ht (.inserting p buf)
    have htaken : ({ s with q := q } : State K).left + 1 = s.left := by
      rw [State.left, State.left, hq, List.length_cons, Nat.add_right_comm]
    rw [Task.left, Task.left] at hput
    exact .inl ⟨by omega, rfl, .inl rfl⟩
  | @merge buf ht hq =>
    have hput := @left_put K { s with merged := s.merged + buf } i _ ht .finished
    have hsame : ({ s with merged := s.merged + buf } : State K).left = s.left := rfl
    rw [Task.left, Task.left] at hput
    exact .inr ⟨_, rfl, rfl, rfl, by omega⟩
  | @insert p buf ht hin =>
    have hput := left_put ht (.inserted (buf + contribution m p))
    rw [Task.left, Task.left] at hput
    exact .inl ⟨by omega, rfl, .inl rfl⟩
  | @miss p buf ht hin =>
    obtain ⟨rest, hheld, -⟩ := sum_map_set Task.held ht
    refine .inl ⟨rfl, rfl, .inr ⟨p, ?_, hin⟩⟩
    rw [State.pending, hheld, Task.held]
    simp
  | @relock buf ht =>
    have hput := left_put ht (.locked buf)
    rw [Task.left, Task.left] at hput
    exact .inr ⟨_, rfl, rfl, rfl, by omega⟩

omit [Field K] in
theorem count_of_lt (h : s.pw.counter < IntType.int.highest) : s.count = { s with pw := s.pw.step.1 } := if_pos h

/-- Nothing undefined has happened, and the watch waits for what is left. -/
structure Counted (m : Request K) (s : State K) : Prop where
  defined : s.undefined = false
  left_le : s.left ≤ m.steps
  pw : s.pw.Counts m.steps (m.steps - s.left)

theorem left_begin (m : Request K) : (begin m).left = m.steps := by
  simp [State.left, begin, Task.left, Request.steps]

theorem counted_begin (h : Fits m) : Counted m (begin m) where
  defined := decide_eq_false fun hor => hor.elim h.rows.1 h.rows.2
  left_le := (left_begin m).le
  pw := by
    have hfits : IntType.int.Fits (m.patches.length + m.tasks : ℕ) := by
      have hlt := h.counted
      constructor
      · exact (show IntType.int.lowest ≤ 0 by decide).trans (Int.natCast_nonneg _)
      · rw [highest_int]
        omega
    rw [left_begin, Nat.sub_self, begin, IntType.wrap_of_fits hfits]
    exact ProgressWatch.counts_set _ _

/-- **If the request fits, every step keeps the count.** -/
theorem Counted.step (h : Fits m) (hs : Counted m s) (haccounts : Accounts m s) (hstep : Steps m s i s') :
    Counted m s' := by
  obtain ⟨hdefined, hle, hpw⟩ := hs
  rcases hstep.watch with ⟨hleft, hwatch, hundefined⟩ | ⟨t, rfl, hwatch, hundefined, hleft⟩
  · refine ⟨?_, hleft ▸ hle, hleft ▸ hwatch ▸ hpw⟩
    rcases hundefined with hsame | ⟨p, hp, hnot⟩
    · exact hsame.trans hdefined
    · exact absurd (h.inside p (haccounts.pending p hp)) hnot
  · have hcount := hpw.counter (by omega)
    have hlt : t.pw.counter < IntType.int.highest := by
      have hsteps : m.steps < 2 ^ 31 := h.counted
      rw [hwatch, hcount, highest_int]
      omega
    have hnext := hpw.step (by omega)
    rw [show m.steps - s.left + 1 = m.steps - t.left by omega, ← hwatch] at hnext
    rw [count_of_lt hlt]
    exact ⟨hundefined.trans hdefined, show t.left ≤ _ by omega, hnext⟩

/-- How much a task has still to do. -/
def Task.toDo : Task K → ℕ
  | .posted => 2
  | .locked _ => 1
  | .inserting _ _ => 4
  | .inserted _ => 3
  | .finished => 0

/-- How much there is to do. -/
def State.toDo (s : State K) : ℕ :=
  4 * s.q.length + (s.tasks.map Task.toDo).sum + if s.undefined then 0 else 1

omit [Field K] in
theorem toDo_put {t : Task K} (h : s.tasks[i]? = some t) (t' : Task K) :
    (s.put i t').toDo + t.toDo = s.toDo + t'.toDo := by
  have hput := sum_put Task.toDo h t'
  unfold State.toDo State.put
  dsimp only
  omega

omit [Field K] in
/-- What is undefined is at its end. -/
theorem toDo_undefined (s : State K) : ({ s with undefined := true } : State K).toDo ≤ s.toDo := by
  unfold State.toDo
  rw [if_pos rfl]
  exact Nat.le_add_right _ _

omit [Field K] in
theorem toDo_count (s : State K) : s.count.toDo ≤ s.toDo := by
  unfold State.count
  split_ifs
  · exact le_rfl
  · exact toDo_undefined s

/-- **There is less to do after every step.** -/
theorem toDo_lt (h : step m s i = some s') : s'.toDo < s.toDo := by
  obtain ⟨hdefined, hstep⟩ := step_steps h
  cases hstep with
  | start ht =>
    have hput := toDo_put ht (.locked 0)
    rw [Task.toDo, Task.toDo] at hput
    omega
  | @take buf p q ht hq =>
    have hput := @toDo_put K { s with q := q } i _ ht (.inserting p buf)
    have htaken : ({ s with q := q } : State K).toDo + 4 = s.toDo := by
      rw [State.toDo, State.toDo, hq, List.length_cons]
      dsimp only
      omega
    rw [Task.toDo, Task.toDo] at hput
    omega
  | @merge buf ht hq =>
    have hput := @toDo_put K { s with merged := s.merged + buf } i _ ht .finished
    have hsame : ({ s with merged := s.merged + buf } : State K).toDo = s.toDo := rfl
    rw [Task.toDo, Task.toDo] at hput
    exact (toDo_count _).trans_lt (by omega)
  | @insert p buf ht hin =>
    have hput := toDo_put ht (.inserted (buf + contribution m p))
    rw [Task.toDo, Task.toDo] at hput
    omega
  | miss ht hin =>
    rw [State.toDo, State.toDo, if_pos rfl, hdefined, if_neg Bool.false_ne_true]
    exact Nat.lt_succ_self _
  | @relock buf ht =>
    have hput := toDo_put ht (.locked buf)
    rw [Task.toDo, Task.toDo] at hput
    exact (toDo_count _).trans_lt (by omega)

end Watch

/-! ## Mosaics -/

section Mosaics

variable {K : Type*} [Field K] {m : Request K} {s : State K}

theorem accounts_of_reachable (h : Reachable m s) : Accounts m s :=
  h.invariant (fun _ _ _ hs _ hstep => hs.step (step_steps hstep).2) (accounts_begin m)

theorem counted_of_reachable (hfits : Fits m) (h : Reachable m s) : Accounts m s ∧ Counted m s := by
  induction h with
  | refl => exact ⟨accounts_begin m, counted_begin hfits⟩
  | next i _ hstep _ ih =>
    have hsteps := (step_steps hstep).2
    exact ⟨ih.1.step hsteps, ih.2.step hfits ih.1 hsteps⟩

omit [Field K] in
/-- Nothing is left to be counted exactly at the end. -/
theorem left_eq_zero_iff : s.left = 0 ↔ s.Finished := by
  unfold State.left State.Finished
  rw [Nat.add_eq_zero_iff, List.length_eq_zero_iff, List.sum_eq_zero_iff, List.forall_mem_map]
  refine and_congr_right fun _ => forall₂_congr fun t _ => ?_
  cases t <;> simp [Task.left]

omit [Field K] in
/-- The watch completes at the end. -/
theorem completed_iff (h : Counted m s) : s.pw.completed = true ↔ s.Finished := by
  have hle := h.left_le
  rw [h.pw.completed, ← left_eq_zero_iff]
  omega

/-- The total of a pixel of the image. -/
theorem sum_contribution (m : Request K) {y x : ℕ} (hy : y < m.sizes.imgRows) (hx : x < m.sizes.imgCols) :
    (m.patches.map (contribution m)).sum (y, x) = (weightedSum m (y, x), weightSum m (y, x)) := by
  unfold weightedSum weightSum
  induction m.patches with
  | nil => rfl
  | cons p ps ih =>
    simp only [List.map_cons, List.sum_cons]
    rw [Pi.add_apply, ih, contribution]
    by_cases hcovers : Covers m.sizes m.transpose p (y, x)
    · rw [if_pos ⟨⟨hy, hx⟩, hcovers⟩, if_pos hcovers, if_pos hcovers]
      rfl
    · rw [if_neg fun h => hcovers h.2, if_neg hcovers, if_neg hcovers]
      simp

/-- **At the end the common sums are the total.** -/
theorem merged_of_finished (h : Accounts m s) (hfinished : s.Finished) :
    s.merged = (m.patches.map (contribution m)).sum := by
  obtain ⟨hq, htasks⟩ := hfinished
  have howed : (s.tasks.map (Task.owed m)).sum = 0 := sum_map_eq_zero fun t ht => by rw [htasks t ht]; rfl
  rw [← h.total, State.total, howed, hq, List.map_nil, List.sum_nil, add_zero, add_zero]

variable [LinearOrder K]

/-- **A request that fits makes a mosaic under every schedule.** -/
theorem mosaics_of_fits (h : Fits m) : Mosaics m where
  defined s hs := (counted_of_reachable h hs).2.defined
  ends := by
    refine ⟨(begin m).toDo, fun is s hs => ?_⟩
    have hle := length_add_le (fun _ _ _ hstep => toDo_lt hstep) hs
    omega
  returns s hs hstuck := by
    obtain ⟨haccounts, hcounted⟩ := counted_of_reachable h hs
    have htasks : ∀ t ∈ s.tasks, t = .finished := by
      by_contra hopen
      push Not at hopen
      obtain ⟨i, hi⟩ := exists_step hcounted.defined hopen
      exact hi (hstuck i)
    refine (completed_iff hcounted).2 ⟨?_, htasks⟩
    rcases List.eq_nil_or_concat s.tasks with hnil | ⟨ts, t, hts⟩
    · -- without tasks there were no patches
      have hpatches : m.patches = [] := by
        have hlength := haccounts.tasks
        rw [hnil, List.length_nil, Request.tasks] at hlength
        rcases h.tasks with hpatches | hthreads
        · exact hpatches
        · exact List.length_eq_zero_iff.1 (by omega)
      refine List.eq_nil_iff_forall_not_mem.2 fun p hp => ?_
      have hmem := haccounts.pending p (Multiset.mem_add.2 (.inr hp))
      rw [hpatches] at hmem
      exact List.not_mem_nil hmem
    · have ht : t ∈ s.tasks := by rw [hts]; simp
      exact haccounts.queue ⟨t, ht, htasks t ht⟩
  mean s hs hcompleted := by
    obtain ⟨haccounts, hcounted⟩ := counted_of_reachable h hs
    have hfinished := (completed_iff hcounted).1 hcompleted
    refine ⟨hfinished, fun y hy x hx => ?_⟩
    rw [State.result, merged_of_finished haccounts hfinished, sum_contribution m hy hx, expected]

/-- A schedule that goes on as long as it can comes to the end, if the request makes a mosaic. -/
theorem Mosaics.exists_end (h : Mosaics m) : ∃ s, Reachable m s ∧ s.Finished := by
  obtain ⟨is, s, hrun, hstuck⟩ := exists_maximal (fun _ _ _ hstep => toDo_lt hstep) (begin m)
  have hreached : Reachable m s := reaches_of_foldlM .refl hrun
  exact ⟨s, hreached, (h.mean s hreached (h.returns s hreached hstuck)).1⟩

/-- **Every patch has to be inside**, as all of them are added. -/
theorem Mosaics.inside (h : Mosaics m) : ∀ p ∈ m.patches, Inside m.sizes m.transpose p := by
  obtain ⟨s, hreached, hq, htasks⟩ := h.exists_end
  intro p hp
  have hheld : (s.tasks.map Task.held).sum = 0 := sum_map_eq_zero fun t ht => by rw [htasks t ht]; rfl
  have hpending : s.pending = 0 := by
    rw [State.pending, hheld, hq]
    rfl
  refine ((accounts_of_reachable hreached).added p hp).resolve_left ?_
  rw [hpending]
  exact Multiset.notMem_zero p

/-- **There has to be a task**, as without one the call never returns. -/
theorem Mosaics.tasks (h : Mosaics m) : m.patches = [] ∨ m.nThreads ≠ 0 := by
  by_contra hnot
  obtain ⟨hne, hzero⟩ : m.patches ≠ [] ∧ m.nThreads = 0 := by simpa only [not_or, not_not] using hnot
  have htasks : (begin m).tasks = [] := by rw [begin, Request.tasks, hzero, Nat.min_zero]; rfl
  have hstuck : ∀ i, step m (begin m) i = none := by
    intro i
    rw [step, htasks, List.getElem?_nil]
    exact ite_self _
  exact hne (h.mean _ .refl (h.returns _ .refl hstuck)).1.1

/-- As long as the watch has not completed it has counted all steps. -/
theorem Mosaics.counter (h : Mosaics m) (hlarge : IntType.int.highest < m.steps) (hs : Reachable m s) :
    s.left ≤ m.steps ∧ s.pw.counter = m.steps - s.left ∧ s.pw.target ≤ IntType.int.highest ∧
      s.pw.counter ≤ IntType.int.highest := by
  induction hs with
  | refl =>
    refine ⟨(left_begin m).le, ?_, ?_, ?_⟩
    · rw [left_begin, sub_self]
      rfl
    · rw [begin, ProgressWatch.set_target]
      exact (IntType.int.fits_wrap _).2
    · rw [highest_int]
      exact show (0 : ℤ) ≤ 2 ^ 31 - 1 by norm_num
  | @next s s' i hs hstep _ ih =>
    obtain ⟨hle, hcounter, htarget, hbound⟩ := ih
    have hreached : Reachable m s' := hs.next i hstep trivial
    rcases (step_steps hstep).2.watch with ⟨hleft, hwatch, -⟩ | ⟨t, rfl, hwatch, -, hleft⟩
    · rw [hleft, hwatch]
      exact ⟨hle, hcounter, htarget, hbound⟩
    · have hdefined := h.defined _ hreached
      have hlt : t.pw.counter < IntType.int.highest := by
        by_contra hnot
        rw [State.count, if_neg hnot] at hdefined
        exact Bool.false_ne_true hdefined.symm
      have hmean := h.mean _ hreached
      rw [← left_eq_zero_iff] at hmean
      rw [count_of_lt hlt] at hmean ⊢
      rw [← hwatch] at hcounter htarget
      have hleft' : ({ t with pw := t.pw.step.1 } : State K).left = t.left := rfl
      rw [hleft'] at hmean ⊢
      cases hcompleted : t.pw.step.1.completed with
      | true =>
        -- it has to be the last step, so that their number is the target
        have hzero := (hmean hcompleted).1
        have hhit := (t.pw.step_completed.1 hcompleted).2
        omega
      | false =>
        have hnext := t.pw.step_counter hcompleted
        refine ⟨by omega, ?_, t.pw.step_target ▸ htarget, ?_⟩
        · show t.pw.step.1.counter = _
          omega
        · show t.pw.step.1.counter ≤ _
          omega

/-- **The steps have to fit the counter.** -/
theorem Mosaics.counted (h : Mosaics m) : m.patches.length + m.tasks < 2 ^ 31 := by
  have hhighest := highest_int
  by_contra hnot
  have hsteps : m.steps = m.patches.length + m.tasks := rfl
  obtain ⟨s, hreached, hfinished⟩ := h.exists_end
  obtain ⟨-, hcounter, -, hle⟩ := h.counter (by omega) hreached
  rw [left_eq_zero_iff.2 hfinished] at hcounter
  omega

theorem Mosaics.rows (h : Mosaics m) : m.sizes.imgRows ≠ 0 ∧ m.sizes.pRows ≠ 0 :=
  not_or.1 (of_decide_eq_false (h.defined _ .refl))

/-- **Exactly the requests that fit make a mosaic.** -/
theorem mosaics_iff (m : Request K) : Mosaics m ↔ Fits m :=
  ⟨fun h => ⟨h.rows, h.tasks, h.counted, h.inside⟩, mosaics_of_fits⟩

/-- A patch of one pixel in row 3 of an image that has two rows. -/
def patchBeyond : Request ℚ where
  sizes := ⟨2, 2, 1, 1, by norm_num, by norm_num, by norm_num, by norm_num⟩
  patches := [⟨fun _ => 1, 3, 0, by norm_num, by norm_num⟩]
  weights _ := 1
  transpose := false
  nThreads := 1

theorem patchBeyond_no_mosaic : ¬Mosaics patchBeyond := by
  intro h
  have hin := h.inside _ (List.mem_singleton_self _)
  exact absurd hin (by decide)

end Mosaics

end Redux.Image.Mozaic
