import Mathlib.Algebra.BigOperators.Group.List.Basic
import Redux.File.MomfbdOrder
import Redux.Lib.Excess
import Redux.Lib.IntType

/-!
# File.MomfbdSize — the announced size of a patch, and what `load` writes

`getPatchSize` takes the number of channels from the head of the file, and all other numbers from the first
patch; `PatchInfo::load` takes all of them from the patch that it loads.  Both multiply numbers of type `int`,
which is undefined beyond it.  Where no number of the first patch is negative, what is written stays inside the
announced size for all masks exactly if all products stay in the type and the patch does not exceed the first
one in any of its parts by more than the numbers of its channels leave free (`load_inside_iff`).
-/

namespace Redux.MomfbdFile

open Redux.Lib Redux.Lib.Excess

/-! ## The announced size -/

section Announced

/-- `while( n % alignTo ) n++`. -/
def padTo (alignTo n : ℕ) : ℕ := n + (alignTo - n % alignTo) % alignTo

/-- The product of numbers of type `int`, from the left to the right; `none` if it leaves the type. -/
def intProduct (ns : List ℤ) : Option ℤ := ns.foldlM (fun product n => IntType.int.arith (product * n)) 1

/-- What is multiplied for the parts of the first patch, in floats. -/
def PatchInfo.partFactors (p : PatchInfo) : List (BitVec 8 × List ℤ) :=
  [(MOMFBD_IMG, [p.nPixelsX, p.nPixelsY]), (MOMFBD_PSF, [p.npsf.toInt, p.nPixelsX, p.nPixelsY]),
    (MOMFBD_OBJ, [p.nobj.toInt, p.nPixelsX, p.nPixelsY]), (MOMFBD_RES, [p.nPixelsX, p.nPixelsY, p.nres.toInt]),
    (MOMFBD_ALPHA, [p.nm.toInt, p.nalpha.toInt]), (MOMFBD_DIV, [p.nphx.toInt, p.nphy.toInt, p.ndiv.toInt])]

/-- The numbers of floats of these parts. -/
def PatchInfo.partSizes (p : PatchInfo) : List (BitVec 8 × ℤ) := p.partFactors.map fun part => (part.1, part.2.prod)

/-- The sum over the parts that are asked for. -/
def addSizes {κ : Type} (ask : κ → Bool) : List (κ × List ℤ) → Option ℤ
  | [] => some 0
  | (bit, factors) :: rest =>
    (if ask bit then intProduct factors else some 0).bind fun n => (addSizes ask rest).map fun sum => n + sum

variable {τ : Type} (m : FileMomfbd τ) (mask : BitVec 8) (alignTo : ℕ)

/-- A bit of the mask. -/
def asks (mask bit : BitVec 8) : Bool := decide (mask &&& bit ≠ 0)

/-- The part of a patch before its floats, for `n` numbers of channels. -/
def FileMomfbd.headOf (n : ℤ) : ℕ :=
  padTo alignTo ((8 + (if 20110714 ≤ m.version then 4 else 0) + n * 2) % (2 ^ 64 : ℕ)).toNat

/-- The same for the channels of the file.  Nothing is aligned to zero. -/
def FileMomfbd.headSize : Option ℕ :=
  if alignTo = 0 then none else (intProduct [3, m.nChannels.toInt]).map (m.headOf alignTo)

/-- `FileMomfbd::getPatchSize`, with `size_t` arithmetic for the sums. -/
def FileMomfbd.getPatchSize : Option ℕ :=
  match m.patches with
  | [] => some 0
  | p :: _ =>
    (m.headSize alignTo).bind fun patchSize =>
      if mask &&& MOMFBD_PATCH = 0 then some patchSize
      else (addSizes (asks mask) p.partFactors).map fun nFloats =>
        (((patchSize : ℤ) + 4 * nFloats) % (2 ^ 64 : ℕ)).toNat

end Announced

/-! ## What is written -/

section Written

/-- Bytes of memory. -/
def Cell.size : Cell → ℕ
  | .short _ => 2
  | .gap => 1
  | .float _ => 4

def cellBytes (cells : List Cell) : ℕ := (cells.map Cell.size).sum

variable (swapNeeded : Bool) (version : ℚ) (file : Str)

/-- `readOrThrow` of `n` floats at `pos`: it writes what there is of them. -/
def floatPart (bit : BitVec 8) (there : Bool) (pos n : ℤ) : Portion (BitVec 8) :=
  if n < 0 ∨ pos < 0 then ⟨bit, there, 0, false⟩
  else ⟨bit, there, min (4 * n.toNat) (file.length - pos.toNat),
    decide (n.toNat = 0 ∨ pos.toNat + 4 * n.toNat ≤ file.length)⟩

/-- Diversities of `n` floats, each with a byte before it that is not kept. -/
def divRows (n : ℤ) : ℕ → ℕ → ℕ × Bool
  | 0, _ => (0, true)
  | ndiv + 1, pos =>
    if pos + 1 ≤ file.length ∧ 0 ≤ n then
      if n.toNat = 0 ∨ pos + 1 + 4 * n.toNat ≤ file.length then
        (4 * n.toNat + (divRows n ndiv (pos + 1 + 4 * n.toNat)).1, (divRows n ndiv (pos + 1 + 4 * n.toNat)).2)
      else (file.length - (pos + 1), false)
    else (0, false)

/-- The diversities.  If their number is negative, none is read, but their bytes are still put in order. -/
def PatchInfo.divPart (p : PatchInfo) : Portion (BitVec 8) :=
  if 20110916 ≤ version then
    if p.ndiv.toInt < 0 then
      ⟨MOMFBD_DIV, true, if swapNeeded then
        4 * ((p.ndiv.toInt * p.nphy.toInt * p.nphx.toInt) % (2 ^ 64 : ℕ)).toNat else 0, true⟩
    else if p.diversityPos < 0 then ⟨MOMFBD_DIV, decide (p.ndiv ≠ 0), 0, false⟩
    else
      ⟨MOMFBD_DIV, decide (p.ndiv ≠ 0),
        (divRows file (p.nphy.toInt * p.nphx.toInt) p.ndiv.toInt.toNat p.diversityPos.toNat).1,
        (divRows file (p.nphy.toInt * p.nphx.toInt) p.ndiv.toInt.toNat p.diversityPos.toNat).2⟩
  else floatPart file MOMFBD_DIV (decide (p.ndiv ≠ 0)) p.diversityPos (p.ndiv.toInt * p.nphy.toInt * p.nphx.toInt)

/-- The parts of a patch, as far as the file has them. -/
def PatchInfo.parts (p : PatchInfo) : List (Portion (BitVec 8)) :=
  [floatPart file MOMFBD_IMG (decide (p.imgPos ≠ 0)) p.imgPos (p.nPixelsX * p.nPixelsY),
    floatPart file MOMFBD_PSF (decide (p.npsf ≠ 0)) p.psfPos (p.npsf.toInt * (p.nPixelsX * p.nPixelsY)),
    floatPart file MOMFBD_OBJ (decide (p.nobj ≠ 0)) p.objPos (p.nobj.toInt * (p.nPixelsX * p.nPixelsY)),
    floatPart file MOMFBD_RES (decide (p.nres ≠ 0)) p.resPos (p.nres.toInt * (p.nPixelsX * p.nPixelsY)),
    floatPart file MOMFBD_ALPHA (decide (p.nalpha ≠ 0)) p.alphaPos (p.nalpha.toInt * p.nm.toInt),
    p.divPart swapNeeded version file]

/-- The numbers before the floats, and the gap behind them. -/
def PatchInfo.blockSize (p : PatchInfo) (alignTo : ℕ) : ℕ := cellBytes (p.block version alignTo)

/-- The numbers of type `int` that `load` multiplies. -/
def PatchInfo.loadFactors (p : PatchInfo) (mask : BitVec 8) : List (List ℤ) :=
  [[3, p.nChannels.toInt], [p.nPixelsX, p.nPixelsY]] ++
    (if asks mask MOMFBD_ALPHA ∧ p.nalpha ≠ 0 then [[p.nalpha.toInt, p.nm.toInt]] else []) ++
    (if asks mask MOMFBD_DIV ∧ p.ndiv ≠ 0 then
      [p.ndiv.toInt, p.nphy.toInt, p.nphx.toInt] ::
        (if 20110916 ≤ version ∧ 0 < p.ndiv.toInt then [[p.nphy.toInt, p.nphx.toInt]] else [])
    else [])

/-- How many bytes `PatchInfo::load` writes, whether it returns or throws, if no product leaves its type. -/
def PatchInfo.bytesWritten (p : PatchInfo) (mask : BitVec 8) (alignTo : ℕ) : ℕ :=
  p.blockSize version alignTo + amount (asks mask) (p.parts swapNeeded version file)

/-- How many bytes `PatchInfo::load` writes; `none` if it divides by zero or a product leaves its type. -/
def PatchInfo.written (p : PatchInfo) (mask : BitVec 8) (alignTo : ℕ) : Option ℕ :=
  if alignTo ≠ 0 ∧ ∀ factors ∈ p.loadFactors version mask, (intProduct factors).isSome then
    some (p.bytesWritten swapNeeded version file mask alignTo)
  else none

end Written

/-! ## The claim of the callers -/

section Callers

variable {τ : Type} (m : FileMomfbd τ) (file : Str) (alignTo : ℕ)

/-- The alphas that `PatchInfo::load` returns start at an offset. -/
def PatchInfo.AlphasAt (p : PatchInfo) (swapNeeded : Bool) (version : ℚ) (offset : ℕ) : Prop :=
  ∀ q cells q' before v after, p.load swapNeeded version MOMFBD_ALPHA alignTo file q = some (cells, q') →
    cells = before ++ .float v :: after → (∀ w, Cell.float w ∉ before) → cellBytes before = offset

/-- A patch is loaded into a block of the announced size. -/
def FileMomfbd.holds (p : PatchInfo) (mask : BitVec 8) : Bool :=
  (p.written m.swapNeeded m.version file mask alignTo).any fun n =>
    (m.getPatchSize mask alignTo).any fun patchSize => n ≤ patchSize

/-- Every patch is loaded into a block of the announced size, whatever is asked for, with its alphas behind
the announced head. -/
def FileMomfbd.Inside : Prop :=
  ∀ p ∈ m.patches, (∀ mask, m.holds file alignTo p mask = true) ∧
    ∃ offset, m.getPatchSize 0 alignTo = some offset ∧ p.AlphasAt file alignTo m.swapNeeded m.version offset

/-- Neither the number of channels nor one of the first patch's numbers is negative. -/
def FileMomfbd.Nonnegative : Prop :=
  0 ≤ m.nChannels.toInt ∧ ∀ first ∈ m.patches.head?, ∀ s ∈ first.partSizes, 0 ≤ s.2

/-- The file has all alphas of the patch, and there are some. -/
def PatchInfo.HasAlphas (p : PatchInfo) : Prop :=
  0 < p.nalpha.toInt * p.nm.toInt ∧ 0 ≤ p.alphaPos ∧
    p.alphaPos.toNat + 4 * (p.nalpha.toInt * p.nm.toInt).toNat ≤ file.length

/-- The parts of a patch beside those of the first one. -/
def PatchInfo.beside (p first : PatchInfo) (swapNeeded : Bool) (version : ℚ) : List (Portion (BitVec 8) × ℤ) :=
  (p.parts swapNeeded version file).zip (first.partSizes.map fun s => 4 * s.2)

/-- The numbers of the head and of the first patch can be multiplied. -/
def FileMomfbd.Announceable (first : PatchInfo) : Prop :=
  alignTo ≠ 0 ∧ (intProduct [3, m.nChannels.toInt]).isSome ∧ ∀ part ∈ first.partFactors, (intProduct part.2).isSome

/-- A patch fits: its numbers can be multiplied, and what it has more than the first one in each part finds
room that its numbers of channels leave, and these leave none if there are alphas. -/
structure FileMomfbd.Fits : Prop where
  nonnegative : m.Nonnegative
  announceable : ∀ first ∈ m.patches.head?, m.Announceable alignTo first
  multiplies : ∀ p ∈ m.patches, ∀ factors ∈ p.loadFactors m.version MOMFBD_PATCH, (intProduct factors).isSome
  alphas : ∀ p ∈ m.patches, p.HasAlphas file →
    p.blockSize m.version alignTo = m.headOf alignTo (3 * m.nChannels.toInt)
  room : ∀ p ∈ m.patches, ∀ first ∈ m.patches.head?,
    p.blockSize m.version alignTo + excess (p.beside file first m.swapNeeded m.version) ≤
      m.headOf alignTo (3 * m.nChannels.toInt)

end Callers

/-! ## Sizes -/

section Sizes

variable {τ : Type} {m : FileMomfbd τ} {mask : BitVec 8} {alignTo : ℕ} {first p : PatchInfo} {swapNeeded : Bool}
  {version : ℚ} {file : Str}

theorem getPatchSize_zero (hfirst : m.patches.head? = some first) :
    m.getPatchSize 0 alignTo = m.headSize alignTo := by
  unfold FileMomfbd.getPatchSize
  cases hpatches : m.patches with
  | nil =>
    rw [hpatches] at hfirst
    exact absurd hfirst.symm (Option.some_ne_none _)
  | cons _ _ =>
    have hnone : (0 : BitVec 8) &&& MOMFBD_PATCH = 0 := by decide
    simp only [hnone, if_true]
    exact Option.bind_fun_some _

/-- Without a bit for the patches, none of their parts is asked for. -/
theorem asks_eq_false (h : mask &&& MOMFBD_PATCH = 0) {bit : BitVec 8} (hbit : MOMFBD_PATCH &&& bit = bit) :
    asks mask bit = false := by
  have hnone : mask &&& bit = 0 := by
    rw [← hbit, ← BitVec.and_assoc, h]
    exact BitVec.zero_and
  exact decide_eq_false (not_not.2 hnone)

theorem announced_of_none (h : mask &&& MOMFBD_PATCH = 0) : announced (asks mask) first.partSizes = 0 := by
  have hbits : ∀ bit : BitVec 8, MOMFBD_PATCH &&& bit = bit → asks mask bit = false := fun _ => asks_eq_false h
  simp [PatchInfo.partSizes, PatchInfo.partFactors, announced, hbits MOMFBD_IMG rfl, hbits MOMFBD_PSF rfl, hbits MOMFBD_OBJ rfl,
    hbits MOMFBD_RES rfl, hbits MOMFBD_ALPHA rfl, hbits MOMFBD_DIV rfl]

theorem announced_le {κ : Type} (ask : κ → Bool) : ∀ {ns : List (κ × ℤ)}, (∀ n ∈ ns, 0 ≤ n.2) →
    announced ask ns ≤ (ns.map Prod.snd).sum
  | [], _ => le_rfl
  | (k, n) :: ns, h => by
    obtain ⟨hn, hns⟩ := List.forall_mem_cons.1 h
    have ih := announced_le ask hns
    rw [announced, List.map_cons, List.sum_cons]
    split_ifs <;> omega

theorem int_arith_eq_some {x y : ℤ} (h : IntType.int.arith x = some y) : y = x ∧ IntType.int.Fits x := by
  unfold IntType.arith at h
  split_ifs at h with hfits hsigned
  · exact ⟨(Option.some.inj h).symm, hfits⟩
  · exact absurd rfl hsigned

/-- A product that stays in the type is the product of its numbers. -/
theorem intProduct_eq_some : ∀ {ns : List ℤ} {k x : ℤ}, IntType.int.Fits k →
    ns.foldlM (fun product n => IntType.int.arith (product * n)) k = some x → x = k * ns.prod ∧ IntType.int.Fits x
  | [], k, x, hk, h => by
    obtain rfl : k = x := Option.some.inj h
    exact ⟨by rw [List.prod_nil, mul_one], hk⟩
  | n :: ns, k, x, _, h => by
    rw [List.foldlM_cons] at h
    obtain ⟨y, hy, hx⟩ := Option.bind_eq_some_iff.1 h
    obtain ⟨rfl, hfits⟩ := int_arith_eq_some hy
    obtain ⟨rfl, hx⟩ := intProduct_eq_some hfits hx
    exact ⟨by rw [List.prod_cons, mul_assoc], hx⟩

theorem exists_intProduct {ns : List ℤ} (h : (intProduct ns).isSome) :
    intProduct ns = some ns.prod ∧ IntType.int.Fits ns.prod := by
  obtain ⟨x, hx⟩ := Option.isSome_iff_exists.1 h
  obtain ⟨rfl, hfits⟩ := intProduct_eq_some (by decide) hx
  rw [one_mul] at hx hfits
  exact ⟨hx, hfits⟩

theorem addSizes_eq {κ : Type} (ask : κ → Bool) : ∀ {parts : List (κ × List ℤ)},
    (∀ part ∈ parts, (intProduct part.2).isSome) →
    addSizes ask parts = some (announced ask (parts.map fun part => (part.1, part.2.prod)))
  | [], _ => rfl
  | (k, factors) :: parts, h => by
    obtain ⟨hfactors, hparts⟩ := List.forall_mem_cons.1 h
    have hproduct : (if ask k then intProduct factors else some 0) = some (if ask k then factors.prod else 0) := by
      split_ifs
      · exact (exists_intProduct hfactors).1
      · rfl
    rw [addSizes, hproduct, addSizes_eq ask hparts]
    rfl

/-- What is asked for has a product where there is a sum. -/
theorem isSome_of_addSizes {κ : Type} {ask : κ → Bool} : ∀ {parts : List (κ × List ℤ)},
    (addSizes ask parts).isSome → ∀ part ∈ parts, ask part.1 = true → (intProduct part.2).isSome
  | [], _ => List.forall_mem_nil _
  | (k, factors) :: parts, h => by
    obtain ⟨x, hx⟩ := Option.isSome_iff_exists.1 h
    obtain ⟨n, hn, hx⟩ := Option.bind_eq_some_iff.1 hx
    obtain ⟨sum, hsum, -⟩ := Option.map_eq_some_iff.1 hx
    refine List.forall_mem_cons.2 ⟨fun hask => ?_, isSome_of_addSizes (Option.isSome_iff_exists.2 ⟨sum, hsum⟩)⟩
    dsimp only at hask
    rw [if_pos hask] at hn
    exact Option.isSome_iff_exists.2 ⟨n, hn⟩

theorem padTo_lt (alignTo n : ℕ) (h : alignTo ≠ 0) : padTo alignTo n < n + alignTo :=
  Nat.add_lt_add_left (Nat.mod_lt _ (Nat.pos_of_ne_zero h)) n

theorem headSize_eq (ha : m.Announceable alignTo first) :
    m.headSize alignTo = some (m.headOf alignTo (3 * m.nChannels.toInt)) := by
  have hproduct := (exists_intProduct ha.2.1).1
  rw [List.prod_cons, List.prod_singleton] at hproduct
  rw [FileMomfbd.headSize, if_neg ha.1, hproduct]
  rfl

/-- Where there is a size, its numbers have been multiplied. -/
theorem announceable_of_some {patchSize : ℕ} (hfirst : m.patches.head? = some first)
    (h : m.getPatchSize MOMFBD_PATCH alignTo = some patchSize) : m.Announceable alignTo first := by
  have hasks : ∀ part ∈ first.partFactors, asks MOMFBD_PATCH part.1 = true := by
    simp only [PatchInfo.partFactors, List.forall_mem_cons]
    decide
  unfold FileMomfbd.getPatchSize at h
  cases hpatches : m.patches with
  | nil => simp [hpatches] at hfirst
  | cons q qs =>
    obtain rfl : q = first := by simpa [hpatches] using hfirst
    rw [hpatches] at h
    obtain ⟨size, hsize, h⟩ := Option.bind_eq_some_iff.1 h
    rw [if_neg (by decide)] at h
    obtain ⟨sum, hsum, -⟩ := Option.map_eq_some_iff.1 h
    rw [FileMomfbd.headSize] at hsize
    split_ifs at hsize with hzero
    obtain ⟨product, hproduct, -⟩ := Option.map_eq_some_iff.1 hsize
    exact ⟨hzero, Option.isSome_iff_exists.2 ⟨product, hproduct⟩, fun part hpart =>
      isSome_of_addSizes (Option.isSome_iff_exists.2 ⟨sum, hsum⟩) part hpart (hasks part hpart)⟩

/-- The numbers of the first patch make up the announced size. -/
theorem getPatchSize_eq (mask : BitVec 8) (halign : alignTo < 256) (hn : m.Nonnegative)
    (hfirst : m.patches.head? = some first) (ha : m.Announceable alignTo first) :
    ∃ patchSize : ℕ, m.getPatchSize mask alignTo = some patchSize ∧ (patchSize : ℤ) =
      m.headOf alignTo (3 * m.nChannels.toInt) + 4 * announced (asks mask) first.partSizes := by
  have hsize := headSize_eq ha
  obtain ⟨hzero, hhead, hparts⟩ := ha
  have hfits := (exists_intProduct hhead).2
  obtain ⟨hchannels, hnonneg⟩ := hn
  have hge : 0 ≤ announced (asks mask) first.partSizes := announced_nonneg (hnonneg first hfirst)
  have hle : announced (asks mask) first.partSizes ≤ (first.partSizes.map Prod.snd).sum :=
    announced_le _ (hnonneg first hfirst)
  have hsum : (first.partSizes.map Prod.snd).sum ≤ 6 * 2 ^ 31 := by
    have hall : ∀ n ∈ first.partSizes.map Prod.snd, n ≤ 2 ^ 31 := by
      intro n hn
      obtain ⟨s, hs, rfl⟩ := List.mem_map.1 hn
      obtain ⟨part, hpart, rfl⟩ := List.mem_map.1 hs
      have hpart' : part.2.prod ≤ 2 ^ 31 - 1 := (exists_intProduct (hparts part hpart)).2.2
      dsimp only
      omega
    exact List.sum_le_card_nsmul _ _ hall
  rw [List.prod_cons, List.prod_singleton] at hfits
  have hsmall : 3 * m.nChannels.toInt ≤ 2 ^ 31 - 1 := hfits.2
  have hlt : m.headOf alignTo (3 * m.nChannels.toInt) < 2 ^ 34 := by
    have hpad := padTo_lt alignTo
      ((8 + (if 20110714 ≤ m.version then 4 else 0) + 3 * m.nChannels.toInt * 2) % (2 ^ 64 : ℕ)).toNat hzero
    unfold FileMomfbd.headOf
    rw [Int.emod_eq_of_lt (by split_ifs <;> omega) (by split_ifs <;> omega)] at hpad ⊢
    split_ifs at hpad ⊢ <;> omega
  unfold FileMomfbd.getPatchSize
  cases hpatches : m.patches with
  | nil => simp [hpatches] at hfirst
  | cons q qs =>
    obtain rfl : q = first := by simpa [hpatches] using hfirst
    dsimp only
    rw [hsize, Option.bind_some, addSizes_eq _ hparts, ← PatchInfo.partSizes]
    split_ifs with hmask
    · exact ⟨_, rfl, by rw [announced_of_none hmask, Int.mul_zero, Int.add_zero]⟩
    · refine ⟨_, rfl, ?_⟩
      dsimp only
      rw [Int.emod_eq_of_lt (by omega) (by omega), Int.toNat_of_nonneg (by omega)]

theorem floatPart_key (bit : BitVec 8) (there : Bool) (pos n : ℤ) : (floatPart file bit there pos n).key = bit := by
  unfold floatPart
  split_ifs <;> rfl

theorem divPart_key : (p.divPart swapNeeded version file).key = MOMFBD_DIV := by
  unfold PatchInfo.divPart
  by_cases hversion : 20110916 ≤ version
  · rw [if_pos hversion]
    split_ifs <;> rfl
  · rw [if_neg hversion]
    exact floatPart_key ..

theorem parts_keys : (p.parts swapNeeded version file).map Portion.key =
    [MOMFBD_IMG, MOMFBD_PSF, MOMFBD_OBJ, MOMFBD_RES, MOMFBD_ALPHA, MOMFBD_DIV] := by
  simp [PatchInfo.parts, floatPart_key, divPart_key]

theorem beside_keys : (p.beside file first swapNeeded version).map (fun c => c.1.key) =
    [MOMFBD_IMG, MOMFBD_PSF, MOMFBD_OBJ, MOMFBD_RES, MOMFBD_ALPHA, MOMFBD_DIV] := by
  simp [PatchInfo.beside, PatchInfo.parts, PatchInfo.partSizes, PatchInfo.partFactors, floatPart_key, divPart_key]

theorem beside_parts : (p.beside file first swapNeeded version).map Prod.fst = p.parts swapNeeded version file := rfl

theorem announced_beside {ask : BitVec 8 → Bool} :
    announced ask (announcements (p.beside file first swapNeeded version)) = 4 * announced ask first.partSizes := by
  simp only [announcements, PatchInfo.beside, PatchInfo.parts, PatchInfo.partSizes, PatchInfo.partFactors,
    List.map_cons, List.map_nil, List.zip_cons_cons, List.zip_nil_right, announced, floatPart_key, divPart_key, mul_add, mul_ite, mul_zero]

/-- The mask that asks for some parts. -/
def maskOf (ask : BitVec 8 → Bool) : BitVec 8 :=
  flag (ask MOMFBD_IMG) MOMFBD_IMG ||| flag (ask MOMFBD_PSF) MOMFBD_PSF ||| flag (ask MOMFBD_OBJ) MOMFBD_OBJ |||
    flag (ask MOMFBD_RES) MOMFBD_RES ||| flag (ask MOMFBD_ALPHA) MOMFBD_ALPHA ||| flag (ask MOMFBD_DIV) MOMFBD_DIV

theorem asks_flags : ∀ i p o r a d : Bool, ∀ mask, mask = (flag i MOMFBD_IMG ||| flag p MOMFBD_PSF |||
      flag o MOMFBD_OBJ ||| flag r MOMFBD_RES ||| flag a MOMFBD_ALPHA ||| flag d MOMFBD_DIV) →
    asks mask MOMFBD_IMG = i ∧ asks mask MOMFBD_PSF = p ∧ asks mask MOMFBD_OBJ = o ∧ asks mask MOMFBD_RES = r ∧
      asks mask MOMFBD_ALPHA = a ∧ asks mask MOMFBD_DIV = d := by
  intro i p o r a d mask hmask
  subst hmask
  revert i p o r a d
  decide +kernel

/-- **A patch is written into its block for every mask exactly if its excess finds room.** -/
theorem written_le_iff (halign : alignTo < 256) (hn : m.Nonnegative) (hfirst : m.patches.head? = some first)
    (ha : m.Announceable alignTo first) :
    (∀ mask, ∃ patchSize ∈ m.getPatchSize mask alignTo,
        p.bytesWritten swapNeeded version file mask alignTo ≤ patchSize) ↔
      p.blockSize version alignTo + excess (p.beside file first swapNeeded version) ≤
        m.headOf alignTo (3 * m.nChannels.toInt) := by
  have hnonneg : ∀ c ∈ p.beside file first swapNeeded version, 0 ≤ c.2 := by
    intro c hc
    obtain ⟨s, hs, hs'⟩ := List.mem_map.1 (List.of_mem_zip hc).2
    have := hn.2 first hfirst s hs
    omega
  constructor
  · intro h
    obtain ⟨ask, hask⟩ := @exists_excess _ _ (p.beside file first swapNeeded version)
      (by rw [beside_keys]; decide)
    obtain ⟨patchSize, hsome, hmask⟩ := h (maskOf ask)
    have hasks := asks_flags (ask MOMFBD_IMG) (ask MOMFBD_PSF) (ask MOMFBD_OBJ) (ask MOMFBD_RES) (ask MOMFBD_ALPHA)
      (ask MOMFBD_DIV) (maskOf ask) rfl
    have hsame : ∀ bit ∈ [MOMFBD_IMG, MOMFBD_PSF, MOMFBD_OBJ, MOMFBD_RES, MOMFBD_ALPHA, MOMFBD_DIV],
        asks (maskOf ask) bit = ask bit := by
      simpa [List.forall_mem_cons] using hasks
    have hwritten : amount (asks (maskOf ask)) (p.parts swapNeeded version file) =
        amount ask (p.parts swapNeeded version file) := by
      refine amount_congr fun c hc => hsame c.key ?_
      rw [← parts_keys]
      exact List.mem_map_of_mem hc
    have hannounced : announced (asks (maskOf ask)) first.partSizes = announced ask first.partSizes :=
      announced_congr fun n hn => hsame n.1 (by
        have hmem := List.mem_map_of_mem (f := Prod.fst) hn
        exact hmem)
    obtain ⟨size, hsize, hcount⟩ := getPatchSize_eq (maskOf ask) halign hn hfirst ha
    obtain rfl : size = patchSize := Option.some.inj (hsize.symm.trans hsome)
    rw [beside_parts, announced_beside] at hask
    rw [PatchInfo.bytesWritten, hwritten] at hmask
    rw [hannounced] at hcount
    omega
  · intro h mask
    have hle := amount_le (asks mask) hnonneg
    obtain ⟨size, hsize, hcount⟩ := getPatchSize_eq mask halign hn hfirst ha
    refine ⟨size, hsize, ?_⟩
    rw [beside_parts, announced_beside] at hle
    rw [PatchInfo.bytesWritten]
    omega

end Sizes

/-! ## What is loaded -/

section Loads

variable {τ : Type} {m : FileMomfbd τ} {mask : BitVec 8} {alignTo q q' : ℕ} {p : PatchInfo} {swapNeeded : Bool}
  {version : ℚ} {file : Str} {ws : List Word} {cells : List Cell} {pos n : ℤ}

theorem cellBytes_append (as bs : List Cell) : cellBytes (as ++ bs) = cellBytes as + cellBytes bs := by
  rw [cellBytes, List.map_append, List.sum_append]
  rfl

theorem cellBytes_floats : ∀ ws : List Word, cellBytes (ws.map .float) = 4 * ws.length
  | [] => rfl
  | w :: ws => by
    have ih := cellBytes_floats ws
    rw [List.map_cons, cellBytes, List.map_cons, List.sum_cons, List.length_cons, ← cellBytes, ih]
    change 4 + _ = _
    omega

theorem floatsAt_of_some (h : floatsAt swapNeeded pos n file q = some (ws, q')) :
    0 ≤ n ∧ 0 ≤ pos ∧ ws.length = n.toNat ∧ (n.toNat = 0 ∨ pos.toNat + 4 * n.toNat ≤ file.length) := by
  rw [floatsAt] at h
  split_ifs at h with hn
  · exact absurd h.symm (Option.some_ne_none _)
  · rw [Reader.next, Reader.seekTo] at h
    split_ifs at h with hpos
    · rw [Option.bind_some] at h
      have hsome := Reader.numbers_isSome_iff.1 (Option.isSome_iff_exists.2 ⟨_, h⟩)
      exact ⟨not_lt.1 hn, hpos, (Reader.numbers_of_some h).1, by omega⟩
    · exact absurd h.symm (Option.some_ne_none _)

theorem exists_floatsAt (hn : 0 ≤ n) (hpos : 0 ≤ pos) (h : pos.toNat + 4 * n.toNat ≤ file.length) (q : ℕ) :
    ∃ ws q', floatsAt swapNeeded pos n file q = some (ws, q') := by
  obtain ⟨⟨ws, q'⟩, hx⟩ := Option.isSome_iff_exists.1
    ((@Reader.numbers_isSome_iff pos.toNat 32 file swapNeeded n.toNat).2 (.inr (by omega)))
  refine ⟨ws, q', ?_⟩
  rw [floatsAt, if_neg (not_lt.2 hn), Reader.next, Reader.seekTo, if_pos hpos, Option.bind_some]
  exact hx

/-- The floats of a part that is loaded are what is written of it. -/
theorem written_part {bit : BitVec 8} {b : Prop} [Decidable b] (cs : List (Portion (BitVec 8)))
    (h : loadPart swapNeeded (mask &&& bit ≠ 0 ∧ b) pos n file q = some (ws, q')) :
    amount (asks mask) (floatPart file bit (decide b) pos n :: cs) =
      4 * ws.length + amount (asks mask) cs := by
  have hthere : (floatPart file bit (decide b) pos n).there = decide b := by
    unfold floatPart
    split_ifs <;> rfl
  have hif : (asks mask bit = true ∧ decide b = true) ↔ mask &&& bit ≠ 0 ∧ b := by
    rw [asks, decide_eq_true_iff, decide_eq_true_iff]
  rw [amount, floatPart_key, hthere]
  by_cases hwanted : mask &&& bit ≠ 0 ∧ b
  · rw [loadPart, if_pos hwanted] at h
    obtain ⟨hn, hpos, hlen, hwhole⟩ := floatsAt_of_some h
    have hpart : floatPart file bit (decide b) pos n = ⟨bit, decide b, 4 * n.toNat, true⟩ := by
      rw [floatPart, if_neg (by omega), Nat.min_eq_left (by omega), decide_eq_true hwhole]
    rw [if_pos (hif.2 hwanted), hpart, hlen]
    rfl
  · rw [loadPart, if_neg hwanted] at h
    obtain ⟨rfl, -⟩ := Prod.mk.inj (Option.some.inj h)
    rw [if_neg fun hboth => hwanted (hif.1 hboth), List.length_nil, Nat.mul_zero, Nat.zero_add]

/-- The diversities that are read, row by row. -/
theorem divRows_of_some {k : ℤ} (hk : 0 ≤ k) : ∀ {ndiv q q' : ℕ} {rows : List (List Word)},
    Reader.times ndiv (readByte.next fun _ => Reader.numbers 32 swapNeeded k.toNat) file q = some (rows, q') →
    (divRows file k ndiv q).1 = 4 * rows.flatten.length
  | 0, _, _, _, h => by
    obtain ⟨rfl, -⟩ := Prod.mk.inj (Option.some.inj h)
    rfl
  | ndiv + 1, q, q', rows, h => by
    obtain ⟨row, q₁, rest, hrow, hrest, rfl⟩ := Reader.times_succ_of_some h
    rw [Reader.next, readByte, Reader.word, Reader.next, Reader.read] at hrow
    by_cases hbyte : q + 8 / 8 ≤ file.length
    · rw [if_pos hbyte, Option.bind_some, Reader.pure, Option.bind_some] at hrow
      obtain ⟨hlen, rfl⟩ := Reader.numbers_of_some hrow
      have hsome := Reader.numbers_isSome_iff.1 (Option.isSome_iff_exists.2 ⟨_, hrow⟩)
      have hpos : q + 8 / 8 + k.toNat * (32 / 8) = q + 1 + 4 * k.toNat := by omega
      dsimp only at hrest
      rw [hpos] at hrest
      have ih := divRows_of_some hk hrest
      rw [divRows, if_pos ⟨hbyte, hk⟩, if_pos (by omega), List.flatten_cons, List.length_append, hlen]
      dsimp only
      omega
    · rw [if_neg hbyte] at hrow
      exact absurd hrow.symm (Option.some_ne_none _)

theorem length_rows {k : ℕ} : ∀ {ndiv q q' : ℕ} {rows : List (List Word)},
    Reader.times ndiv (readByte.next fun _ => Reader.numbers 32 swapNeeded k) file q = some (rows, q') →
    rows.flatten.length = ndiv * k
  | 0, _, _, _, h => by
    obtain ⟨rfl, -⟩ := Prod.mk.inj (Option.some.inj h)
    rw [Nat.zero_mul]
    rfl
  | ndiv + 1, q, q', rows, h => by
    obtain ⟨row, q₁, rest, hrow, hrest, rfl⟩ := Reader.times_succ_of_some h
    obtain ⟨⟨b, q₃⟩, -, hrow⟩ := Option.bind_eq_some_iff.1 hrow
    rw [List.flatten_cons, List.length_append, (Reader.numbers_of_some hrow).1, length_rows hrest, Nat.succ_mul,
      Nat.add_comm]

theorem written_diversity (h : p.loadDiversity swapNeeded version mask file q = some (ws, q')) :
    4 * ws.length ≤ amount (asks mask) [p.divPart swapNeeded version file] := by
  rw [PatchInfo.loadDiversity] at h
  split_ifs at h with hwanted hversion
  · -- a byte before each
    rw [Reader.next, Reader.seekTo] at h
    split_ifs at h with hpos
    · rw [Option.bind_some] at h
      obtain ⟨⟨rows, q₁⟩, hrows, h⟩ := Option.bind_eq_some_iff.1 h
      obtain ⟨rfl, -⟩ := Prod.mk.inj (Option.some.inj h)
      by_cases hneg : p.ndiv.toInt < 0
      · rw [Int.toNat_of_nonpos (le_of_lt hneg)] at hrows
        obtain ⟨rfl, -⟩ := Prod.mk.inj (Option.some.inj hrows)
        exact Nat.zero_le _
      · have hasks : asks mask MOMFBD_DIV = true ∧ decide (p.ndiv ≠ 0) = true :=
          ⟨decide_eq_true hwanted.1, decide_eq_true hwanted.2⟩
        rw [amount, amount, PatchInfo.divPart, if_pos hversion, if_neg hneg, if_neg (not_lt.2 hpos),
          if_pos hasks, Nat.add_zero, ite_self]
        by_cases hk : 0 ≤ p.nphy.toInt * p.nphx.toInt
        · exact Nat.le_of_eq (divRows_of_some hk hrows).symm
        · -- no float is read for a negative number
          rw [length_rows hrows, Int.toNat_of_nonpos (le_of_lt (not_le.1 hk)), Nat.mul_zero]
          exact Nat.zero_le _
    · exact absurd h.symm (Option.some_ne_none _)
  · by_cases hn : p.ndiv.toInt * p.nphy.toInt * p.nphx.toInt < 0
    · obtain ⟨⟨_, q₁⟩, -, h⟩ := Option.bind_eq_some_iff.1 h
      rw [(Reader.numbers_of_some h).1, Int.toNat_of_nonpos (le_of_lt hn)]
      exact Nat.zero_le _
    · have hpart : loadPart swapNeeded (mask &&& MOMFBD_DIV ≠ 0 ∧ p.ndiv ≠ 0) p.diversityPos
          (p.ndiv.toInt * p.nphy.toInt * p.nphx.toInt) file q = some (ws, q') := by
        rw [loadPart, if_pos hwanted, floatsAt, if_neg hn]
        exact h
      rw [PatchInfo.divPart, if_neg hversion, written_part [] hpart]
      exact Nat.le_add_right _ _
  · obtain ⟨rfl, -⟩ := Prod.mk.inj (Option.some.inj h)
    exact Nat.zero_le _

/-- **What `load` returns is part of what is written.** -/
theorem load_le_written (h : p.load swapNeeded version mask alignTo file q = some (cells, q')) :
    cellBytes cells ≤ p.bytesWritten swapNeeded version file mask alignTo := by
  obtain ⟨⟨img, q₁⟩, himg, h⟩ := Option.bind_eq_some_iff.1 h
  obtain ⟨⟨psf, q₂⟩, hpsf, h⟩ := Option.bind_eq_some_iff.1 h
  obtain ⟨⟨obj, q₃⟩, hobj, h⟩ := Option.bind_eq_some_iff.1 h
  obtain ⟨⟨res, q₄⟩, hres, h⟩ := Option.bind_eq_some_iff.1 h
  obtain ⟨⟨alpha, q₅⟩, halpha, h⟩ := Option.bind_eq_some_iff.1 h
  obtain ⟨⟨div, q₆⟩, hdiv, h⟩ := Option.bind_eq_some_iff.1 h
  obtain ⟨rfl, -⟩ := Prod.mk.inj (Option.some.inj h)
  have hlast := written_diversity hdiv
  rw [PatchInfo.bytesWritten, PatchInfo.parts, written_part _ himg, written_part _ hpsf, written_part _ hobj,
    written_part _ hres, written_part _ halpha, cellBytes_append, cellBytes_floats, PatchInfo.blockSize]
  simp only [List.length_append]
  omega

/-- With the mask for the alphas, `load` brings the numbers before the floats, and the alphas. -/
theorem load_alpha (q : ℕ) : p.load swapNeeded version MOMFBD_ALPHA alignTo file q =
    (loadPart swapNeeded (p.nalpha ≠ 0) p.alphaPos (p.nalpha.toInt * p.nm.toInt) file q).map
      fun x => (p.block version alignTo ++ x.1.map .float, x.2) := by
  have hskip : ∀ bit ∈ [MOMFBD_IMG, MOMFBD_PSF, MOMFBD_OBJ, MOMFBD_RES, MOMFBD_DIV],
      ¬ MOMFBD_ALPHA &&& bit ≠ 0 := by decide
  have halpha : MOMFBD_ALPHA &&& MOMFBD_ALPHA ≠ 0 := by decide
  simp only [List.forall_mem_cons] at hskip
  obtain ⟨himg, hpsf, hobj, hres, hdiv, -⟩ := hskip
  simp only [PatchInfo.load, PatchInfo.loadDiversity, loadPart, himg, hpsf, hobj, hres, hdiv, false_and, if_false,
    and_iff_right halpha, Reader.next, Reader.pure, Option.bind_some, List.nil_append, List.append_nil]
  split_ifs
  · cases floatsAt swapNeeded p.alphaPos (p.nalpha.toInt * p.nm.toInt) file q <;> rfl
  · rfl

theorem block_no_floats (w : Word) : Cell.float w ∉ p.block version alignTo := by
  simp [PatchInfo.block]

/-- The first float of a list is where the other cells end. -/
theorem before_first_float {as before after : List Cell} {v w : Word} {ws : List Word}
    (h : as ++ .float w :: ws.map .float = before ++ .float v :: after) (has : ∀ u, Cell.float u ∉ as)
    (hbefore : ∀ u, Cell.float u ∉ before) : before = as := by
  rcases List.append_eq_append_iff.1 h with ⟨cs, rfl, hcs⟩ | ⟨cs, rfl, hcs⟩
  · cases cs with
    | nil => rw [List.append_nil]
    | cons c cs =>
      obtain ⟨rfl, -⟩ := List.cons.inj hcs
      exact absurd (List.mem_append_right as List.mem_cons_self) (hbefore w)
  · cases cs with
    | nil => rw [List.append_nil]
    | cons c cs =>
      obtain ⟨rfl, -⟩ := List.cons.inj hcs
      exact absurd (List.mem_append_right before List.mem_cons_self) (has v)

/-- **The alphas start behind the numbers of the patch.** -/
theorem alphasAt_iff {offset : ℕ} : p.AlphasAt file alignTo swapNeeded version offset ↔
    (p.HasAlphas file → p.blockSize version alignTo = offset) := by
  constructor
  · rintro h ⟨hn, hpos, hlen⟩
    obtain ⟨ws, q', hws⟩ := @exists_floatsAt swapNeeded file p.alphaPos (p.nalpha.toInt * p.nm.toInt) (le_of_lt hn) hpos
      hlen 0
    have hthere : p.nalpha ≠ 0 := by
      intro hzero
      rw [hzero] at hn
      exact absurd hn (by simp)
    obtain ⟨-, -, hcount, -⟩ := floatsAt_of_some hws
    cases ws with
    | nil =>
      rw [List.length_nil] at hcount
      omega
    | cons w ws =>
      have hload := @load_alpha alignTo p swapNeeded version file 0
      rw [loadPart, if_pos hthere, hws, Option.map_some, List.map_cons] at hload
      exact h 0 _ q' (p.block version alignTo) w (ws.map .float) hload rfl block_no_floats
  · intro h q cells q' before v after hload hcells hbefore
    rw [load_alpha] at hload
    obtain ⟨⟨ws, q₁⟩, hws, hx⟩ := Option.map_eq_some_iff.1 hload
    obtain ⟨rfl, -⟩ := Prod.mk.inj hx
    cases ws with
    | nil =>
      dsimp only at hcells
      rw [List.map_nil, List.append_nil] at hcells
      exact absurd (hcells ▸ List.mem_append_right before List.mem_cons_self) (block_no_floats v)
    | cons w ws =>
      obtain rfl : before = p.block version alignTo := before_first_float hcells block_no_floats hbefore
      refine h ?_
      rw [loadPart] at hws
      split_ifs at hws
      · obtain ⟨hn, hpos, hcount, hlen⟩ := floatsAt_of_some hws
        rw [List.length_cons] at hcount
        exact ⟨by omega, hpos, by omega⟩
      · exact absurd (Prod.mk.inj (Option.some.inj hws)).1 (List.cons_ne_nil w ws).symm

theorem of_written {n : ℕ} (h : p.written swapNeeded version file mask alignTo = some n) :
    alignTo ≠ 0 ∧ ∀ factors ∈ p.loadFactors version mask, (intProduct factors).isSome := by
  unfold PatchInfo.written at h
  split_ifs at h with hall
  exact hall

theorem holds_iff : m.holds file alignTo p mask = true ↔
    p.written m.swapNeeded m.version file mask alignTo =
      some (p.bytesWritten m.swapNeeded m.version file mask alignTo) ∧
    ∃ patchSize ∈ m.getPatchSize mask alignTo,
      p.bytesWritten m.swapNeeded m.version file mask alignTo ≤ patchSize := by
  rw [FileMomfbd.holds, PatchInfo.written]
  split_ifs
  · cases m.getPatchSize mask alignTo <;> simp
  · simp

/-- With all parts, everything is multiplied that is with some of them. -/
theorem loadFactors_subset (mask : BitVec 8) : p.loadFactors version mask ⊆ p.loadFactors version MOMFBD_PATCH := by
  have halpha : asks MOMFBD_PATCH MOMFBD_ALPHA = true := by decide
  have hdiv : asks MOMFBD_PATCH MOMFBD_DIV = true := by decide
  intro factors hmem
  simp only [PatchInfo.loadFactors, List.mem_append, List.mem_ite_nil_right] at hmem ⊢
  exact hmem.imp (Or.imp id fun h => ⟨⟨halpha, h.1.2⟩, h.2⟩) fun h => ⟨⟨hdiv, h.1.2⟩, h.2⟩

/-- **Loading stays inside the announced size exactly where every patch fits**, if no number of the head and of
the first patch is negative: where all numbers can be multiplied, and a patch exceeds the first one by no more
than its channels leave free, and by nothing before its alphas. -/
theorem load_inside_iff (m : FileMomfbd τ) (file : Str) (alignTo : BitVec 8) :
    m.Nonnegative ∧ m.Inside file alignTo.toNat ↔ m.Fits file alignTo.toNat := by
  have halign : alignTo.toNat < 256 := alignTo.isLt
  have hfirst : ∀ p ∈ m.patches, ∃ first, m.patches.head? = some first := by
    intro p hp
    exact Option.isSome_iff_exists.1 (List.isSome_head?.2 (List.ne_nil_of_mem hp))
  constructor
  · rintro ⟨hn, h⟩
    have hannounceable : ∀ first ∈ m.patches.head?, m.Announceable alignTo.toNat first := by
      intro first hfirst
      obtain ⟨-, patchSize, hsize, -⟩ := holds_iff.1 ((h first (List.mem_of_mem_head? hfirst)).1 MOMFBD_PATCH)
      exact announceable_of_some hfirst hsize
    have hwritten := fun p hp => (holds_iff.1 ((h p hp).1 MOMFBD_PATCH)).1
    refine ⟨hn, hannounceable, fun p hp => (of_written (hwritten p hp)).2, fun p hp => ?_, fun p hp first hhead => ?_⟩
    · obtain ⟨first, hhead⟩ := hfirst p hp
      obtain ⟨offset, hoffset, halphas⟩ := (h p hp).2
      rw [getPatchSize_zero hhead, headSize_eq (hannounceable first hhead)] at hoffset
      rw [Option.some.inj hoffset]
      exact alphasAt_iff.1 halphas
    · exact (written_le_iff halign hn hhead (hannounceable first hhead)).1 fun mask =>
        (holds_iff.1 ((h p hp).1 mask)).2
  · intro h
    refine ⟨h.nonnegative, fun p hp => ?_⟩
    obtain ⟨first, hhead⟩ := hfirst p hp
    have ha := h.announceable first hhead
    refine ⟨fun mask => holds_iff.2 ⟨?_, ?_⟩, _, ?_, alphasAt_iff.2 (h.alphas p hp)⟩
    · exact if_pos ⟨ha.1, fun factors hmem => h.multiplies p hp factors (loadFactors_subset mask hmem)⟩
    · exact (written_le_iff halign h.nonnegative hhead ha).2 (h.room p hp first hhead) mask
    · rw [getPatchSize_zero hhead, headSize_eq ha]

end Loads

/-! ### A file with a wider patch behind the first one -/

section Sample

/-- Two pixels of one channel, with an image. -/
def widerContent : PatchContent (sampleTexts.atof [50, 48, 49, 57, 48, 52, 48, 56]) :=
  { sampleContent with
    region := ⟨0, 1, 0, 0⟩
    hasImage := 1
    img := [0, 0]
    nphx := 1
    img_length := rfl
    nph_version := fun _ => ⟨rfl, rfl⟩ }

def widerFileContent : FileContent sampleTexts :=
  { sampleFileContent with
    nPatchesX := 2
    patches := [sampleContent, widerContent]
    patchesX_nonneg := by decide
    patches_length := rfl }

/-- The second image takes eight bytes where four were announced. -/
theorem wider_not_inside : ¬ ∀ (file : Str) (m : FileMomfbd Unit) (q : ℕ),
    FileMomfbd.read sampleTexts file 0 = some (m, q) → m.Inside file 4 := by
  intro h
  obtain ⟨q, hread⟩ := read_bytes (@sameHeads_false _ widerFileContent.patches)
  have hinside := (h _ _ q hread _ (List.getLast_mem (l := (widerFileContent.found false).patches)
    (by decide +kernel))).1 MOMFBD_IMG
  exact absurd hinside (by decide +kernel)

end Sample

end Redux.MomfbdFile
