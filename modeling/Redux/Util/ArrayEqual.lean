import Redux.Util.ArrayAccess

/-!
# Util.ArrayEqual — views compared

`operator==` has three ways: two views of one data block are compared by their sizes, two dense ones by the
bytes at the beginning of their blocks, and others element by element.  None of the ways looks at all
of what makes two views equal.  `equality_iff` says for which views and contents the answer is right, and
for which views it is right whatever the contents, if the elements are equal when their bytes are.
-/

namespace Redux.Util.Arrays

open Redux.Lib

/-! ## Model -/

/-- A view, and where its data block is. -/
structure View where
  array : Array
  block : ℕ

namespace View

/-- `ptr()`; an array without dimensions has no data block. -/
def ptr (a : View) : Option ℕ := if a.array.dataSize = 0 then none else some a.block

/-- `sameSize`. -/
def sameSize (a b : View) : Bool := a.array.nElements_ == b.array.nElements_

/-- The sizes other than one. -/
def shape (a : View) : List ℕ := a.array.sizes.filter (1 < ·)

/-- `sameSizes`. -/
def sameSizes (a b : View) : Bool := a.shape == b.shape

section Contents

variable {T : Type*} [BEq T]

/-- `memcmp` finds no difference in the first `n` elements of two data blocks. -/
def sameBytes (bytes : T → List (BitVec 8)) (n : ℕ) (p q : ℤ → T) : Bool :=
  (List.range n).flatMap (fun i : ℕ => bytes (p i)) == (List.range n).flatMap fun i : ℕ => bytes (q i)

/-- The loop over the elements of the first view, with an iterator of the other one beside it. -/
def compareLoop (store : ℕ → ℤ → T) (a b : View) : ℕ → ℤ → ℤ → Option Bool
  | 0, _, _ => none
  | fuel + 1, it, rhsit =>
    if it = a.array.end_ then some true
    else
      -- the iterator of the other view is moved on before the elements are compared
      (b.array.increment rhsit).bind fun rhsit' =>
        if store a.block it != store b.block rhsit then some false
        else (a.array.increment it).bind fun it' => compareLoop store a b fuel it' rhsit'

/-- `operator==`; `none` if elements of a missing data block are read or an iterator throws. -/
def equals (bytes : T → List (BitVec 8)) (store : ℕ → ℤ → T) (a b : View) : Option Bool :=
  if !sameSize a b then some false
  else if a.ptr = b.ptr then some (sameSizes a b)
  else if (a.ptr = none ∨ b.ptr = none) ∧ a.array.nElements_ ≠ 0 then none
  else if a.array.dense_ && b.array.dense_ then some (sameBytes bytes a.array.nElements_ (store a.block)
    (store b.block))
  else compareLoop store a b (a.array.nElements_ + 1) a.array.begin_ b.array.begin_

/-! ## What it stands for -/

/-- Equal elements, one by one in row-major order. -/
def SameElements (store : ℕ → ℤ → T) (a b : View) : Prop :=
  List.Forall₂ (fun p q => store a.block p == store b.block q) a.array.elements b.array.elements

/-- The same dimensions, trivial ones apart, and equal elements. -/
def Equal (store : ℕ → ℤ → T) (a b : View) : Prop := a.shape = b.shape ∧ SameElements store a b

/-- The answer is right. -/
structure Answers (bytes : T → List (BitVec 8)) (store : ℕ → ℤ → T) (a b : View) : Prop where
  equal : Equal store a b → equals bytes store a b = some true
  different : ¬Equal store a b → equals bytes store a b = some false

/-- When the answer is right for these contents. -/
def Settled (bytes : T → List (BitVec 8)) (store : ℕ → ℤ → T) (a b : View) : Prop :=
  if a.array.dims = [] ∨ b.array.dims = [] then
    (a.array.nElements_ = b.array.nElements_ ↔ a.array.dims = [] ∧ b.array.dims = [])
  else
    a.array.nElements_ = b.array.nElements_ →
      if a.block = b.block then a.shape = b.shape → SameElements store a b
      else if a.array.dense_ = true ∧ b.array.dense_ = true then
        (sameBytes bytes a.array.nElements_ (store a.block) (store b.block) = true ↔ Equal store a b)
      else SameElements store a b → a.shape = b.shape

/-- When the answer is right whatever the contents. -/
def Placed (a b : View) : Prop :=
  if a.array.dims = [] ∨ b.array.dims = [] then
    (a.array.nElements_ = b.array.nElements_ ↔ a.array.dims = [] ∧ b.array.dims = [])
  else
    a.array.nElements_ = b.array.nElements_ →
      if a.block = b.block then a.shape = b.shape → a.array.elements = b.array.elements
      else a.shape = b.shape ∧
        (a.array.dense_ = true ∧ b.array.dense_ = true → a.array.begin_ = 0 ∧ b.array.begin_ = 0)

/-! ## The loop -/

section Loop

variable {bytes : T → List (BitVec 8)} {store : ℕ → ℤ → T} {a b : View}

/-- **Over the positions of two views of as many elements, the loop compares the elements in pairs.** -/
theorem compareLoop_eq : ∀ {ps qs : List ℤ} {fuel : ℕ} {p q : ℤ}, (ps ++ [a.array.end_]).head? = some p →
    (ps ++ [a.array.end_]).IsChain (fun p p' => a.array.increment p = some p') → a.array.end_ ∉ ps →
    (qs ++ [b.array.end_]).head? = some q →
    (qs ++ [b.array.end_]).IsChain (fun q q' => b.array.increment q = some q') → ps.length = qs.length →
      ps.length < fuel →
      compareLoop store a b fuel p q = some ((ps.zip qs).all fun r => store a.block r.1 == store b.block r.2)
  | _, _, 0, _, _, _, _, _, _, _, _, h => absurd h (Nat.not_lt_zero _)
  | [], [], fuel + 1, p, q, hp, _, _, _, _, _, _ => by
    obtain rfl : a.array.end_ = p := Option.some.inj hp
    rw [compareLoop, if_pos rfl]
    rfl
  | p₀ :: ps, q₀ :: qs, fuel + 1, p, q, hp, hchain, hstop, hq, hchain', hlen, hfuel => by
    obtain rfl : p₀ = p := Option.some.inj hp
    obtain rfl : q₀ = q := Option.some.inj hq
    obtain ⟨hne, hstop'⟩ := not_or.1 (mt List.mem_cons.2 hstop)
    obtain ⟨p', hp'⟩ : ∃ p', (ps ++ [a.array.end_]).head? = some p' := Option.isSome_iff_exists.1 (by cases ps <;> rfl)
    obtain ⟨q', hq'⟩ : ∃ q', (qs ++ [b.array.end_]).head? = some q' := Option.isSome_iff_exists.1 (by cases qs <;> rfl)
    rw [List.cons_append, List.isChain_cons] at hchain hchain'
    have ih := @compareLoop_eq ps qs fuel p' q' hp' hchain.2 hstop' hq' hchain'.2 (Nat.succ.inj hlen)
      (Nat.lt_of_succ_lt_succ hfuel)
    rw [compareLoop, if_neg (Ne.symm hne), hchain'.1 q' hq', Option.bind_some, hchain.1 p' hp', Option.bind_some, ih,
      List.zip_cons_cons, List.all_cons]
    cases heq : store a.block p₀ == store b.block q₀ with
    | true => rw [bne, heq, if_neg (by decide), Bool.true_and]
    | false => rw [bne, heq, if_pos (by decide), Bool.false_and]

/-- Two views as they should be, compared element by element. -/
theorem compareLoop_good (ha : a.array.Good) (hb : b.array.Good) (hcount : a.array.nElements_ = b.array.nElements_) :
    ∃ r, compareLoop store a b (a.array.nElements_ + 1) a.array.begin_ b.array.begin_ = some r ∧
      (r = true ↔ SameElements store a b) := by
  have hlen : a.array.elements.length = b.array.elements.length :=
    by rw [ha.length_elements, hb.length_elements, hcount]
  have hhead : ∀ {v : View}, v.array.Good → (v.array.elements ++ [v.array.end_]).head? = some v.array.begin_ :=
    fun h => by
    rw [List.head?_append, h.head?_elements]
    rfl
  refine ⟨_, compareLoop_eq (hhead ha) ha.isChain_increment (fun hmem => lt_irrefl _ (ha.mem_elements hmem).2)
    (hhead hb)
    hb.isChain_increment hlen (by rw [ha.length_elements]; omega), ?_⟩
  rw [List.all_eq_true, SameElements, List.forall₂_iff_zip, and_iff_right hlen]
  exact ⟨fun h p q hpq => h (p, q) hpq, fun h r hr => h hr⟩

end Loop

/-! ## The three ways -/

section Ways

variable {bytes : T → List (BitVec 8)} {store : ℕ → ℤ → T} {a b : View}

theorem answers_of_eq {r : Bool} (h : equals bytes store a b = some r) : Answers bytes store a b ↔
    (r = true ↔ Equal store a b) := by
  constructor
  · intro hanswers
    by_cases heq : Equal store a b
    · exact iff_of_true (Option.some.inj (h.symm.trans (hanswers.equal heq))) heq
    · have hr : r = false := Option.some.inj (h.symm.trans (hanswers.different heq))
      exact iff_of_false (by rw [hr]; exact Bool.false_ne_true) heq
  · intro hiff
    refine ⟨fun heq => ?_, fun hne => ?_⟩
    · rw [h, hiff.2 heq]
    · rw [h, Bool.eq_false_iff.2 (mt hiff.1 hne)]

theorem equals_of_count (h : a.array.nElements_ ≠ b.array.nElements_) : equals bytes store a b = some false := by
  rw [equals, sameSize, beq_eq_false_iff_ne.2 h, Bool.not_false, if_pos rfl]

/-- As many elements as positions. -/
theorem not_equal_of_count (ha : a.array.elements.length ≠ b.array.elements.length) : ¬Equal store a b :=
  fun h => ha h.2.length_eq

theorem sameSizes_iff : sameSizes a b = true ↔ a.shape = b.shape := beq_iff_eq

theorem ptr_good {v : View} (h : v.array.Good) : v.ptr = some v.block := by
  rw [ptr, if_neg]
  rw [h.dataSize_eq]
  exact h.valid.extent_pos.ne'

/-- Two views of at least one dimension. -/
theorem answers_good (ha : a.array.Good) (hb : b.array.Good) : Answers bytes store a b ↔ Settled bytes store a b := by
  rw [Settled, if_neg (by rw [not_or]; exact ⟨ha.ne_nil, hb.ne_nil⟩)]
  by_cases hcount : a.array.nElements_ = b.array.nElements_
  · have hguard : (!sameSize a b) = false := by rw [sameSize, hcount, beq_self_eq_true, Bool.not_true]
    have hequals : equals bytes store a b = if a.block = b.block then some (sameSizes a b)
        else if a.array.dense_ && b.array.dense_ then
          some (sameBytes bytes a.array.nElements_ (store a.block) (store b.block))
        else compareLoop store a b (a.array.nElements_ + 1) a.array.begin_ b.array.begin_ := by
      rw [equals, hguard, if_neg Bool.false_ne_true, ptr_good ha, ptr_good hb]
      simp only [Option.some_inj, reduceCtorEq, or_self, false_and, if_false]
    rw [imp_iff_right hcount]
    by_cases hblock : a.block = b.block
    · rw [if_pos hblock] at hequals ⊢
      rw [answers_of_eq hequals, sameSizes_iff]
      exact ⟨fun h hshape => (h.1 hshape).2, fun h => ⟨fun hshape => ⟨hshape, h hshape⟩, fun h => h.1⟩⟩
    · rw [if_neg hblock] at hequals ⊢
      by_cases hdense : a.array.dense_ = true ∧ b.array.dense_ = true
      · rw [if_pos (by rw [hdense.1, hdense.2]; rfl)] at hequals
        rw [if_pos hdense, answers_of_eq hequals]
      · rw [if_neg (by rwa [Bool.and_eq_true])] at hequals
        obtain ⟨r, hr, hsame⟩ := @compareLoop_good _ _ store a b ha hb hcount
        rw [if_neg hdense, answers_of_eq (hequals.trans hr), hsame]
        exact ⟨fun h he => (h.1 he).1, fun h => ⟨fun he => ⟨h he, he⟩, fun h => h.2⟩⟩
  · refine iff_of_true ?_ fun h => absurd h hcount
    rw [answers_of_eq (equals_of_count hcount)]
    exact iff_of_false Bool.false_ne_true (not_equal_of_count
      (by rw [ha.length_elements, hb.length_elements]; exact hcount))

/-- What operations lead to: a view as it should be, or an array without dimensions. -/
def Reached (a : View) : Prop := a.array.Good ∨ (a.array.dims = [] ∧ a.array.dataSize = 0)

/-- Two arrays without dimensions. -/
theorem answers_nil (ha : a.array.dims = []) (hb : b.array.dims = []) (hptr : a.ptr = b.ptr) :
    Answers bytes store a b ↔ a.array.nElements_ = b.array.nElements_ := by
  have hshape : a.shape = b.shape := by rw [shape, shape, Array.sizes, Array.sizes, ha, hb]
  have hequal : Equal store a b := by
    refine ⟨hshape, ?_⟩
    rw [SameElements, Array.elements, Array.elements, if_pos ha, if_pos hb]
    exact .nil
  by_cases hcount : a.array.nElements_ = b.array.nElements_
  · have hequals : equals bytes store a b = some true := by
      rw [equals, sameSize, hcount, beq_self_eq_true, Bool.not_true, if_neg Bool.false_ne_true, if_pos hptr,
        sameSizes_iff.2 hshape]
    rw [answers_of_eq hequals]
    exact iff_of_true (iff_of_true rfl hequal) hcount
  · rw [answers_of_eq (equals_of_count hcount)]
    exact iff_of_false (fun h => Bool.false_ne_true (h.2 hequal)) hcount

/-- An array without dimensions, and a view with an element. -/
theorem answers_mixed (hptr : a.ptr ≠ b.ptr) (hnull : a.ptr = none ∨ b.ptr = none)
    (hpos : a.array.nElements_ = b.array.nElements_ → a.array.nElements_ ≠ 0)
    (hlen : a.array.elements.length ≠ b.array.elements.length) :
    Answers bytes store a b ↔ ¬a.array.nElements_ = b.array.nElements_ := by
  have hne : ¬Equal store a b := not_equal_of_count hlen
  by_cases hcount : a.array.nElements_ = b.array.nElements_
  · have hequals : equals bytes store a b = none := by
      rw [equals, sameSize, hcount, beq_self_eq_true, Bool.not_true, if_neg Bool.false_ne_true, if_neg hptr,
        if_pos ⟨hnull, hcount ▸ hpos hcount⟩]
    refine iff_of_false (fun h => ?_) (not_not.2 hcount)
    exact absurd (hequals.symm.trans (h.different hne)) (by simp)
  · rw [answers_of_eq (equals_of_count hcount)]
    exact iff_of_true (iff_of_false Bool.false_ne_true hne) hcount

theorem answers_iff (ha : a.Reached) (hb : b.Reached) : Answers bytes store a b ↔ Settled bytes store a b := by
  have hnull : ∀ {v : View}, v.array.dataSize = 0 → v.ptr = none := fun h => if_pos h
  have hempty : ∀ {v : View}, v.array.dims = [] → v.array.elements.length = 0 := fun h => by
    rw [Array.elements, if_pos h]
    rfl
  rcases ha with ha | ⟨hnil, hdata⟩ <;> rcases hb with hb | ⟨hnil', hdata'⟩
  · exact answers_good ha hb
  · have hptr : a.ptr ≠ b.ptr := by
      rw [hnull hdata', ptr_good ha]
      exact Option.some_ne_none _
    rw [Settled, if_pos (.inr hnil'), answers_mixed hptr (.inr (hnull hdata')) (fun _ => ha.nElements_pos.ne')
      (by rw [hempty hnil', ha.length_elements]; exact ha.nElements_pos.ne')]
    simp [ha.ne_nil]
  · have hptr : a.ptr ≠ b.ptr := by
      rw [hnull hdata, ptr_good hb]
      exact (Option.some_ne_none _).symm
    rw [Settled, if_pos (.inl hnil), answers_mixed hptr (.inl (hnull hdata)) (fun h => h ▸ hb.nElements_pos.ne')
      (by rw [hempty hnil, hb.length_elements]; exact hb.nElements_pos.ne)]
    simp [hb.ne_nil]
  · rw [Settled, if_pos (.inl hnil), answers_nil hnil hnil' ((hnull hdata).trans (hnull hdata').symm)]
    simp [hnil, hnil']

end Ways

/-! ## Whatever the contents -/

section Layout

variable {bytes : T → List (BitVec 8)} {a b : View}

theorem flatMap_eq_iff {f g : ℕ → List (BitVec 8)} (hlen : ∀ i, (f i).length = (g i).length) :
    ∀ {l : List ℕ}, l.flatMap f = l.flatMap g ↔ ∀ i ∈ l, f i = g i
  | [] => iff_of_true rfl fun i hi => absurd hi List.not_mem_nil
  | i :: l => by
    rw [List.flatMap_cons, List.flatMap_cons, List.forall_mem_cons, ← flatMap_eq_iff hlen]
    exact ⟨fun h => List.append_inj h (hlen i), fun h => by rw [h.1, h.2]⟩

omit [BEq T] in
theorem sameBytes_iff (hwidth : ∀ x y : T, (bytes x).length = (bytes y).length) {n : ℕ} {p q : ℤ → T} :
    sameBytes bytes n p q = true ↔ ∀ i < n, bytes (p i) = bytes (q i) := by
  rw [sameBytes, beq_iff_eq, flatMap_eq_iff fun i => hwidth _ _]
  exact forall_congr' fun i => by rw [List.mem_range]

/-- **Dense views from the beginning of their blocks on**: the bytes that are compared are those of their
elements. -/
theorem sameBytes_iff_sameElements (hbytes : ∀ x y : T, (x == y) = true ↔ bytes x = bytes y)
    (hwidth : ∀ x y : T, (bytes x).length = (bytes y).length) (store : ℕ → ℤ → T) (ha : a.array.Good)
      (hb : b.array.Good)
    (hcount : a.array.nElements_ = b.array.nElements_) (hdense : a.array.dense_ = true ∧ b.array.dense_ = true)
    (hbegin : a.array.begin_ = 0 ∧ b.array.begin_ = 0) :
    sameBytes bytes a.array.nElements_ (store a.block) (store b.block) = true ↔ SameElements store a b := by
  rw [sameBytes_iff hwidth, SameElements, ha.elements_of_dense hdense.1, hb.elements_of_dense hdense.2,
      ← hcount, hbegin.1,
    hbegin.2, List.forall₂_map_left_iff, List.forall₂_map_right_iff, List.forall₂_same]
  refine forall_congr' fun i => ?_
  rw [List.mem_range, hbytes, zero_add]

/-- Two lists of numbers that are not the same are told apart by the contents at one of them. -/
theorem exists_ne_of_ne {α : Type*} : ∀ {ps qs : List α}, ps.length = qs.length → ps ≠ qs → ∃ p q,
    (p, q) ∈ ps.zip qs ∧ p ≠ q
  | [], [], _, h => absurd rfl h
  | p :: ps, q :: qs, hlen, h => by
    by_cases hpq : p = q
    · obtain ⟨p', q', hmem, hne⟩ := exists_ne_of_ne (Nat.succ.inj hlen) fun hps => h (by rw [hpq, hps])
      exact ⟨p', q', List.mem_cons_of_mem _ hmem, hne⟩
    · exact ⟨p, q, List.mem_cons_self .., hpq⟩

/-- One data block: the elements are the same whatever they are only for the same positions. -/
theorem shared_iff (hbytes : ∀ x y : T, (x == y) = true ↔ bytes x = bytes y) (htwo : ∃ x y : T, bytes x ≠ bytes y)
    (hlen : a.array.elements.length = b.array.elements.length) (hblock : a.block = b.block) :
    (∀ store : ℕ → ℤ → T, SameElements store a b) ↔ a.array.elements = b.array.elements := by
  obtain ⟨x, y, hxy⟩ := htwo
  constructor
  · intro h
    by_contra hne
    obtain ⟨p, q, hmem, hpq⟩ := exists_ne_of_ne hlen hne
    have hsame := List.forall₂_zip (h fun _ o => if o = p then x else y) hmem
    dsimp only at hsame
    rw [if_pos rfl, if_neg (Ne.symm hpq), hbytes] at hsame
    exact hxy hsame
  · intro h store
    rw [SameElements, h, hblock, List.forall₂_same]
    exact fun p _ => (hbytes _ _).2 rfl

/-- Two data blocks: the sizes have to agree, since all elements may, and a dense view has to begin with its
block, since what is before it may differ. -/
theorem apart_iff (hbytes : ∀ x y : T, (x == y) = true ↔ bytes x = bytes y)
    (hwidth : ∀ x y : T, (bytes x).length = (bytes y).length) (htwo : ∃ x y : T, bytes x ≠ bytes y) (ha : a.array.Good)
    (hb : b.array.Good) (hcount : a.array.nElements_ = b.array.nElements_) (hblock : a.block ≠ b.block) :
    (∀ store : ℕ → ℤ → T, if a.array.dense_ = true ∧ b.array.dense_ = true then
        (sameBytes bytes a.array.nElements_ (store a.block) (store b.block) = true ↔ Equal store a b)
      else SameElements store a b → a.shape = b.shape) ↔
    a.shape = b.shape ∧ (a.array.dense_ = true ∧ b.array.dense_ = true → a.array.begin_ = 0 ∧ b.array.begin_ = 0) := by
  obtain ⟨x, y, hxy⟩ := htwo
  have hlen : a.array.elements.length = b.array.elements.length :=
    by rw [ha.length_elements, hb.length_elements, hcount]
  -- contents that are the same everywhere in the two views
  have hsame : ∀ store : ℕ → ℤ → T, (∀ p ∈ a.array.elements, store a.block p = x) →
    (∀ q ∈ b.array.elements, store b.block q = x) →
      SameElements store a b := by
    intro store hp hq
    refine List.forall₂_iff_zip.2 ⟨hlen, fun {p q} hpq => ?_⟩
    obtain ⟨hpa, hqb⟩ := List.of_mem_zip hpq
    rw [hp p hpa, hq q hqb, hbytes]
  -- one of them differs at the beginning of its block
  have hbegin : ∀ {v : View}, v.array.Good → v.array.begin_ ≠ 0 → ∀ p ∈ v.array.elements, p ≠ 0 := by
    intro v hv hne p hp
    have hle := (hv.mem_elements hp).1
    have hlo := hv.valid.lo_nonneg
    rw [← hv.begin_eq] at hlo
    omega
  constructor
  · intro h
    have hshape : a.shape = b.shape := by
      have hall := h fun _ _ => x
      have hsame' := hsame (fun _ _ => x) (fun _ _ => rfl) fun _ _ => rfl
      split_ifs at hall
      · exact (hall.1 ((sameBytes_iff hwidth).2 fun _ _ => rfl)).1
      · exact hall hsame'
    refine ⟨hshape, fun hdense => ?_⟩
    simp only [if_pos hdense, sameBytes_iff hwidth] at h
    have hpos := ha.nElements_pos
    constructor
    · by_contra hne
      have hheads := (h fun v o => if v = a.block ∧ o = 0 then y else x).2 ⟨hshape, hsame _
        (fun p hp => if_neg fun hand => hbegin ha hne p hp hand.2) fun q _ => if_neg fun hand =>
          hblock hand.1.symm⟩ 0 hpos
      rw [if_pos ⟨rfl, rfl⟩, if_neg fun hand => hblock hand.1.symm] at hheads
      exact hxy hheads.symm
    · by_contra hne
      have hheads := (h fun v o => if v = b.block ∧ o = 0 then y else x).2 ⟨hshape, hsame _
        (fun p _ => if_neg fun hand => hblock hand.1) fun q hq => if_neg fun hand => hbegin hb hne q hq hand.2⟩ 0 hpos
      rw [if_neg fun hand => hblock hand.1, if_pos ⟨rfl, rfl⟩] at hheads
      exact hxy hheads
  · rintro ⟨hshape, hzero⟩ store
    by_cases hdense : a.array.dense_ = true ∧ b.array.dense_ = true
    · rw [if_pos hdense, sameBytes_iff_sameElements hbytes hwidth store ha hb hcount hdense (hzero hdense), Equal,
        and_iff_right hshape]
    · rw [if_neg hdense]
      exact fun _ => hshape

theorem settled_iff_placed (hbytes : ∀ x y : T, (x == y) = true ↔ bytes x = bytes y)
    (hwidth : ∀ x y : T, (bytes x).length = (bytes y).length) (htwo : ∃ x y : T, bytes x ≠ bytes y)
    (ha : a.Reached) (hb : b.Reached) : (∀ store, Settled bytes store a b) ↔ Placed a b := by
  by_cases hdims : a.array.dims = [] ∨ b.array.dims = []
  · obtain ⟨x, -⟩ := htwo
    simp only [Settled, Placed, if_pos hdims]
    exact ⟨fun h => h fun _ _ => x, fun h _ => h⟩
  obtain ⟨hna, hnb⟩ := not_or.1 hdims
  replace ha : a.array.Good := ha.resolve_right fun h => hna h.1
  replace hb : b.array.Good := hb.resolve_right fun h => hnb h.1
  simp only [Settled, Placed, if_neg hdims]
  by_cases hcount : a.array.nElements_ = b.array.nElements_
  · simp only [imp_iff_right hcount]
    by_cases hblock : a.block = b.block
    · have hlen : a.array.elements.length = b.array.elements.length :=
        by rw [ha.length_elements, hb.length_elements, hcount]
      simp only [if_pos hblock, ← shared_iff hbytes htwo hlen hblock]
      exact ⟨fun h hshape store => h store hshape, fun h store hshape => h hshape store⟩
    · simp only [if_neg hblock]
      exact apart_iff hbytes hwidth htwo ha hb hcount hblock
  · exact iff_of_true (fun _ h => absurd h hcount) fun h => absurd h hcount

end Layout

variable {a b : View}

/-- **When two views are compared right**: for given contents, and whatever the contents, if elements are equal
when their bytes are. -/
theorem equality_iff (sizes sizes' : List ℕ) (hfits : (sizes.filter (· ≠ 0)).prod < 2 ^ 63)
    (hfits' : (sizes'.filter (· ≠ 0)).prod < 2 ^ 63) (ops ops' : List Array.Op)
    (ha : ops.foldlM Array.apply (Array.construct sizes) = some a.array)
    (hb : ops'.foldlM Array.apply (Array.construct sizes') = some b.array) (bytes : T → List (BitVec 8)) :
    (∀ store, Answers bytes store a b ↔ Settled bytes store a b) ∧
    ((∀ x y : T, (x == y) = true ↔ bytes x = bytes y) → (∀ x y : T, (bytes x).length = (bytes y).length) →
      (∃ x y : T, bytes x ≠ bytes y) → ((∀ store, Answers bytes store a b) ↔ Placed a b)) := by
  have hra : a.Reached := Array.reached hfits ha
  have hrb : b.Reached := Array.reached hfits' hb
  refine ⟨fun store => answers_iff hra hrb, fun hbytes hwidth htwo => ?_⟩
  rw [← settled_iff_placed hbytes hwidth htwo hra hrb]
  exact forall_congr' fun store => answers_iff hra hrb

/-- Two arrays, from the beginning of their blocks on. -/
theorem whole_arrays_answer :
    Answers (fun x : BitVec 8 => [x]) (fun _ _ => 0) ⟨Array.construct [2, 2], 0⟩ ⟨Array.construct [2, 2], 1⟩ :=
  ((@equality_iff (BitVec 8) _ ⟨Array.construct [2, 2], 0⟩ ⟨Array.construct [2, 2], 1⟩ [2, 2] [2, 2] (by decide)
    (by decide) [] []
    rfl rfl fun x => [x]).2 (by simp) (by simp) ⟨0, 1, by decide⟩).2 (by unfold Placed; decide) _

end Contents

/-- The two rows of an array that has different ones are taken for equal. -/
theorem rows_not_told_apart : ∃ a b : Array, [Array.Op.setLimits [0, 0] [0, 1]].foldlM Array.apply
    (Array.construct [2, 2]) = some a ∧
    [Array.Op.setLimits [1, 0] [1, 1]].foldlM Array.apply (Array.construct [2, 2]) = some b ∧
    ¬Answers (fun x : BitVec 8 => [x]) (fun _ p => BitVec.ofInt 8 p) ⟨a, 0⟩ ⟨b, 0⟩ := by
  refine ⟨⟨[⟨2, 2, 0, 0, 1⟩, ⟨2, 1, 0, 1, 2⟩], 4, 2, true, 0, 2⟩,
    ⟨[⟨2, 2, 1, 1, 1⟩, ⟨2, 1, 0, 1, 2⟩], 4, 2, true, 2, 4⟩, rfl, rfl,
    fun h => ?_⟩
  have hne : ¬Equal (fun _ p => BitVec.ofInt 8 p) ⟨⟨[⟨2, 2, 0, 0, 1⟩, ⟨2, 1, 0, 1, 2⟩], 4, 2, true, 0, 2⟩, 0⟩
      ⟨⟨[⟨2, 2, 1, 1, 1⟩, ⟨2, 1, 0, 1, 2⟩], 4, 2, true, 2, 4⟩, 0⟩ := fun heq => by
    have hsame := List.forall₂_zip heq.2 (show ((0 : ℤ), (2 : ℤ)) ∈ _ from List.mem_cons_self ..)
    exact absurd hsame (by decide)
  exact absurd (h.different hne) (by decide)

end View

end Redux.Util.Arrays
