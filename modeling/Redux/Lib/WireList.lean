import Redux.Lib.Wire

/-!
# Lib.WireList — lists on the wire

A list is sent as its length, a word of 64 bits, and its elements one behind the other.  The length has a
byte order like any number; what happens to an element in the other byte order is up to its unpacker.
-/

namespace Redux.Lib

/-- `for( … ) count += u( ptr+count )`, `n` times. -/
def Unpacker.times {α : Type} (u : Unpacker α) : ℕ → Unpacker (List α)
  | 0 => .pure []
  | n + 1 => u.next fun a => (u.times n).next fun as => .pure (a :: as)

/-- The bytes at `ptr`, the other way round if they are taken for a number of the other byte order. -/
def unpackRaw (n : ℕ) (swap_endian : Bool) : Unpacker (List (BitVec 8)) := fun x p =>
  some (if swap_endian then (bytesAt x p n).reverse else bytesAt x p n, n)

/-- `pack` of a list. -/
def packList (reversed : Bool) (elements : List Packer) : Packer :=
  (packNumber reversed (BitVec.ofNat 64 elements.length)).next (Packer.all elements)

/-- `unpack` of a list. -/
def unpackList {α : Type} (swap_endian : Bool) (u : Unpacker α) : Unpacker (List α) :=
  (unpackNumber 64 swap_endian).next fun sz => u.times sz.toNat

/-- `pack` of a list of numbers. -/
def packNumbers {w : ℕ} (reversed : Bool) (vs : List (BitVec w)) : Packer :=
  packList reversed (vs.map (packNumber reversed))

/-- `unpack` of a list of numbers. -/
def unpackNumbers (w : ℕ) (swap_endian : Bool) : Unpacker (List (BitVec w)) :=
  unpackList swap_endian (unpackNumber w swap_endian)

/-- The bytes of a length. -/
def lengthBytes (reversed : Bool) (n : ℕ) : List (BitVec 8) :=
  leBytes 8 (inOrder reversed (BitVec.ofNat 64 n)).toNat

/-- The bytes of a list whose elements have the bytes `elements`. -/
def listBytes (reversed : Bool) (elements : List (List (BitVec 8))) : List (BitVec 8) :=
  lengthBytes reversed elements.length ++ elements.flatten

/-- The bytes of a list of numbers. -/
def numbersBytes {w : ℕ} (reversed : Bool) (vs : List (BitVec w)) : List (BitVec 8) :=
  listBytes reversed (vs.map fun v => leBytes (w / 8) (inOrder reversed v).toNat)

section Lists

variable {α ι : Type} {u : Unpacker α} {w : ℕ} {swap reversed : Bool}

theorem unpacks_raw (bs : List (BitVec 8)) :
    Unpacks (unpackRaw bs.length swap) bs (if swap then bs.reverse else bs) := by
  intro x p h
  have hbytes : bytesAt x p bs.length = bs := by
    refine List.ext_getElem bytesAt_length fun i hi hi' => ?_
    simp [bytesAt, h i hi']
  rw [unpackRaw, hbytes]

theorem unpacks_times {f : ι → List (BitVec 8)} {g : ι → α} : ∀ {is : List ι},
    (∀ i ∈ is, Unpacks u (f i) (g i)) → Unpacks (u.times is.length) (is.map f).flatten (is.map g)
  | [], _ => unpacks_pure
  | i :: is, h => by
    obtain ⟨hi, his⟩ := List.forall_mem_cons.1 h
    exact hi.next ((unpacks_times his).last unpacks_pure)

theorem packs_list {fs : List Packer} {bss : List (List (BitVec 8))}
    (h : List.Forall₂ (fun f bs => Packs f (.only bs)) fs bss) :
    Packs (packList reversed fs) (.only (listBytes reversed bss)) := by
  rw [listBytes, ← h.length_eq]
  exact (packs_number reversed _).next_only (packs_sequence h)

/-- **A list comes back as what its elements come back as**, if its length fits in its 64 bits and both
sides agree on the byte order of the length. -/
theorem unpacks_list {f : ι → List (BitVec 8)} {g : ι → α} {is : List ι} (hlen : is.length < 2 ^ 64)
    (h : ∀ i ∈ is, Unpacks u (f i) (g i)) :
    Unpacks (unpackList swap u) (listBytes swap (is.map f)) (is.map g) := by
  have hnum := unpacks_number (by decide) swap swap (BitVec.ofNat 64 is.length)
  rw [inOrder_inOrder (by decide)] at hnum
  rw [listBytes, List.length_map]
  refine hnum.next ?_
  rw [BitVec.toNat_ofNat, Nat.mod_eq_of_lt hlen]
  exact unpacks_times h

theorem packs_numbers (vs : List (BitVec w)) :
    Packs (packNumbers reversed vs) (.only (numbersBytes reversed vs)) := by
  refine packs_list ?_
  rw [List.forall₂_map_left_iff, List.forall₂_map_right_iff, List.forall₂_same]
  exact fun v _ => packs_number reversed v

theorem unpacks_numbers (hw : w % 8 = 0) {vs : List (BitVec w)} (hlen : vs.length < 2 ^ 64) :
    Unpacks (unpackNumbers w swap) (numbersBytes swap vs) vs := by
  have hlist := @unpacks_list _ _ (unpackNumber w swap) swap
    (fun v => leBytes (w / 8) (inOrder swap v).toNat) _ vs hlen
    fun v _ => unpacks_number hw swap swap v
  simp only [inOrder_inOrder hw, List.map_id'] at hlist
  exact hlist

theorem flatten_length {k : ℕ} : ∀ {bss : List (List (BitVec 8))}, (∀ bs ∈ bss, bs.length = k) →
    bss.flatten.length = bss.length * k
  | [], _ => (Nat.zero_mul k).symm
  | bs :: bss, h => by
    obtain ⟨hbs, htail⟩ := List.forall_mem_cons.1 h
    rw [List.flatten_cons, List.length_append, hbs, flatten_length htail, List.length_cons, Nat.succ_mul,
      Nat.add_comm]

theorem listBytes_length {k : ℕ} {elements : List (List (BitVec 8))} (h : ∀ bs ∈ elements, bs.length = k) :
    (listBytes reversed elements).length = 8 + elements.length * k := by
  rw [listBytes, List.length_append, lengthBytes, leBytes_length, flatten_length h]

theorem numbersBytes_length (vs : List (BitVec w)) :
    (numbersBytes reversed vs).length = 8 + vs.length * (w / 8) := by
  rw [numbersBytes, listBytes_length (k := w / 8), List.length_map]
  intro bs hbs
  obtain ⟨v, -, rfl⟩ := List.mem_map.1 hbs
  exact leBytes_length

end Lists

/-! ## Numbers of bytes -/

/-- `f` writes `n` bytes, always the same ones, and counts them. -/
def Writes (f : Packer) (n : ℕ) : Prop := ∃ bs, bs.length = n ∧ Packs f (.only bs)

section Writes

variable {f g : Packer} {n m w : ℕ}

theorem Writes.count (h : Writes f n) (x : Buf) (p : ℕ) : (f x p).2 = n := by
  obtain ⟨bs, hlen, hf⟩ := h
  obtain ⟨_, rfl, heq⟩ := hf x p
  rw [heq, hlen]

/-- **The bytes add up.** -/
theorem Writes.next (hf : Writes f n) (hg : Writes g m) : Writes (f.next g) (n + m) := by
  obtain ⟨as, rfl, has⟩ := hf
  obtain ⟨bs, rfl, hbs⟩ := hg
  exact ⟨as ++ bs, List.length_append, has.next_only hbs⟩

theorem writes_nop : Writes .nop 0 := ⟨[], rfl, packs_nop⟩

theorem writes_word (v : BitVec w) : Writes (packWord v) (w / 8) := ⟨_, leBytes_length, packs_word v⟩

theorem writes_string (s : List (BitVec 8)) : Writes (packString s) (s.length + 1) :=
  ⟨_, stringBytes_length, packs_string s⟩

theorem writes_vector (vs : List (BitVec w)) : Writes (packVector vs) (8 + vs.length * (w / 8)) :=
  ⟨_, vectorBytes_length vs, packs_vector vs⟩

/-- Packers one behind the other. -/
theorem writes_all {fs : List Packer} {ns : List ℕ} (h : List.Forall₂ Writes fs ns) :
    Writes (Packer.all fs) ns.sum := by
  induction h with
  | nil => exact writes_nop
  | cons hf _ ih =>
    rw [List.sum_cons]
    exact hf.next ih

/-- As many packers as there are items, each with its number of bytes. -/
theorem writes_map {α : Type*} {f : α → Packer} {size : α → ℕ} (h : ∀ a, Writes (f a) (size a)) (as : List α) :
    Writes (Packer.all (as.map f)) (as.map size).sum := by
  refine writes_all ?_
  induction as with
  | nil => exact .nil
  | cons a as ih => exact .cons (h a) ih

/-- The same for items that all take as many bytes. -/
theorem writes_times {α : Type*} {f : α → Packer} {k : ℕ} (h : ∀ a, Writes (f a) k) (as : List α) :
    Writes (Packer.all (as.map f)) (as.length * k) := by
  have hall := writes_map h as
  rwa [List.map_const', List.sum_replicate_nat] at hall

end Writes

end Redux.Lib
