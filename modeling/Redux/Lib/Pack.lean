import Mathlib.Data.List.Forall2
import Redux.Lib.ByteBuffer

/-!
# Lib.Pack — packing values into memory and unpacking them

A packer writes at a pointer and returns how many bytes it counts; packers are put one behind the
other (`next`, the usual `count += pack( ptr+count, … )`) or at one place (`atop`).  `Packs f L` says
that `f` writes one of the byte strings of the layout `L` and counts it exactly; a layout with
several strings is one whose bytes do not all come from the value.  `Unpacks u bs a` says that `u`
takes `a` off the bytes `bs` and counts them.
-/

namespace Redux.Lib

/-! ## Byte strings in memory -/

/-- The bytes `bs` are stored from `p` on. -/
def writeBytes (x : Buf) (p : ℕ) : List (BitVec 8) → Buf
  | [] => x
  | b :: bs => writeBytes (put x p b) (p + 1) bs

/-- The bytes from `p` on are `bs`. -/
def Reads (x : Buf) (p : ℕ) (bs : List (BitVec 8)) : Prop :=
  ∀ i (h : i < bs.length), x (p + i) = bs[i]

/-- The `n` bytes of `v`, the least significant first. -/
def leBytes (n v : ℕ) : List (BitVec 8) := (List.range n).map (byteOf v)

section Memory

variable {x y : Buf} {p q k n v : ℕ} {as bs : List (BitVec 8)} {b : BitVec 8}

@[simp] theorem reads_nil : Reads x p [] := fun i h => absurd h (Nat.not_lt_zero i)

theorem reads_append : Reads x p (as ++ bs) ↔ Reads x p as ∧ Reads x (p + as.length) bs := forall_getElem_append

theorem Reads.congr (h : Reads x p bs) (he : ∀ k, p ≤ k → k < p + bs.length → y k = x k) :
    Reads y p bs := fun i hi => by rw [he _ (by omega) (by omega), h i hi]

theorem writeBytes_of_lt (h : k < p) : writeBytes x p bs k = x k := by
  induction bs generalizing x p with
  | nil => rfl
  | cons b bs ih => rw [writeBytes, ih (by omega), put_of_ne (by omega)]

theorem writeBytes_of_ge (h : p + bs.length ≤ k) : writeBytes x p bs k = x k := by
  induction bs generalizing x p with
  | nil => rfl
  | cons b bs ih =>
    rw [List.length_cons] at h
    rw [writeBytes, ih (by omega), put_of_ne (by omega)]

theorem reads_writeBytes : Reads (writeBytes x p bs) p bs := by
  induction bs generalizing x p with
  | nil => exact reads_nil
  | cons b bs ih =>
    intro i hi
    cases i with
    | zero =>
      rw [writeBytes, writeBytes_of_lt (by omega), Nat.add_zero, put_self, List.getElem_cons_zero]
    | succ i =>
      rw [writeBytes, List.getElem_cons_succ, show p + (i + 1) = p + 1 + i by omega]
      exact ih i (by simpa using hi)

theorem writeBytes_append : writeBytes x p (as ++ bs) = writeBytes (writeBytes x p as) (p + as.length) bs := by
  induction as generalizing x p with
  | nil => rfl
  | cons a as ih => rw [List.cons_append, writeBytes, writeBytes, ih, List.length_cons, Nat.add_right_comm,
      Nat.add_assoc]

/-- Bytes that are there already need not be written. -/
theorem writeBytes_of_reads (h : Reads x p bs) : writeBytes x p bs = x := by
  funext k
  by_cases hk : p ≤ k ∧ k < p + bs.length
  · have h₁ := @reads_writeBytes x p bs (k - p) (by omega)
    rw [show p + (k - p) = k by omega] at h₁
    rw [h₁, ← h (k - p) (by omega), show p + (k - p) = k by omega]
  · by_cases hlt : k < p
    · exact writeBytes_of_lt hlt
    · exact writeBytes_of_ge (by omega)

/-- The `n` bytes at `p`. -/
def bytesAt (x : Buf) (p n : ℕ) : List (BitVec 8) := (List.range n).map fun i => x (p + i)

@[simp] theorem bytesAt_length : (bytesAt x p n).length = n := by simp [bytesAt]

theorem reads_bytesAt : Reads x p (bytesAt x p n) := fun i hi => by simp [bytesAt]

/-- A string over another one. -/
theorem writeBytes_over :
    writeBytes (writeBytes x p bs) p as = writeBytes x p (as ++ bs.drop as.length) := by
  rw [writeBytes_append]
  funext k
  by_cases hk : k < p + as.length
  · rw [writeBytes_of_lt hk]
    by_cases hkp : k < p
    · rw [writeBytes_of_lt hkp, writeBytes_of_lt hkp, writeBytes_of_lt hkp]
    · have h₁ := @reads_writeBytes (writeBytes x p bs) p as (k - p) (by omega)
      have h₂ := @reads_writeBytes x p as (k - p) (by omega)
      rw [show p + (k - p) = k by omega] at h₁ h₂
      rw [h₁, h₂]
  · rw [writeBytes_of_ge (by omega)]
    by_cases hkl : k < p + bs.length
    · have h₁ := @reads_writeBytes x p bs (k - p) (by omega)
      have h₂ := @reads_writeBytes (writeBytes x p as) (p + as.length) (bs.drop as.length)
          (k - (p + as.length)) (by rw [List.length_drop]; omega)
      rw [show p + (k - p) = k by omega] at h₁
      rw [show p + as.length + (k - (p + as.length)) = k by omega] at h₂
      rw [h₁, h₂, List.getElem_drop]
      congr 1
      omega
    · rw [writeBytes_of_ge (by omega), writeBytes_of_ge (by rw [List.length_drop]; omega),
        writeBytes_of_ge (by omega)]

/-- Bytes behind a string that keep what they were count as written. -/
theorem writeBytes_keep : writeBytes x p as = writeBytes x p (as ++ bytesAt x (p + as.length) n) := by
  rw [writeBytes_append]
  exact (writeBytes_of_reads (reads_bytesAt.congr fun k hk _ => writeBytes_of_ge hk)).symm

@[simp] theorem leBytes_length : (leBytes n v).length = n := by simp [leBytes]

/-- A little-endian load gives back the number stored. -/
theorem load_of_reads (h : Reads x p (leBytes n v)) : load x p 0 n = v % 2 ^ (8 * n) := by
  refine Nat.eq_of_testBit_eq fun t => ?_
  rw [testBit_load, Nat.testBit_mod_two_pow]
  by_cases ht : t < 8 * n
  · rw [if_pos ht, decide_eq_true ht, Bool.true_and, lsb, show (8 * p + t) / 8 = p + t / 8 by omega,
      h (t / 8) (by rw [leBytes_length]; omega)]
    simp only [leBytes, List.getElem_map, List.getElem_range, getLsbD_byteOf]
    rw [decide_eq_true (by omega), Bool.true_and]
    congr 1
    omega
  · rw [if_neg ht, decide_eq_false ht, Nat.zero_testBit, Bool.false_and]

end Memory

/-! ## Packers -/

/-- Writes to memory at a pointer and counts bytes. -/
abbrev Packer := Buf → ℕ → Buf × ℕ

/-- A set of byte strings. -/
abbrev Layout := List (BitVec 8) → Prop

namespace Packer

/-- Nothing. -/
def nop : Packer := fun x _ => (x, 0)

/-- `count += g( ptr+count )` after `f`. -/
def next (f g : Packer) : Packer := fun x p =>
  let r := f x p
  let s := g r.1 (p + r.2)
  (s.1, r.2 + s.2)

/-- `count += g( ptr )` after `f`. -/
def atop (f g : Packer) : Packer := fun x p =>
  let r := f x p
  let s := g r.1 p
  (s.1, r.2 + s.2)

/-- `for( … ) count += f( ptr+count )`. -/
def all : List Packer → Packer
  | [] => nop
  | f :: fs => f.next (all fs)

end Packer

/-- `memcpy` of a word of `w/8` bytes. -/
def packWord {w : ℕ} (v : BitVec w) : Packer := fun x p => (writeBytes x p (leBytes (w / 8) v.toNat), w / 8)

/-- `pack` of a vector: its length, its elements. -/
def packVector {w : ℕ} (vs : List (BitVec w)) : Packer :=
  (packWord (BitVec.ofNat 64 vs.length)).next (Packer.all (vs.map packWord))

/-- The bytes of a packed vector. -/
def vectorBytes {w : ℕ} (vs : List (BitVec w)) : List (BitVec 8) :=
  leBytes 8 (BitVec.ofNat 64 vs.length).toNat ++ vs.flatMap fun v => leBytes (w / 8) v.toNat

theorem flatMap_length {w k : ℕ} {f : BitVec w → List (BitVec 8)} (hf : ∀ v, (f v).length = k) :
    ∀ vs : List (BitVec w), (vs.flatMap f).length = vs.length * k
  | [] => by simp
  | v :: vs => by
    rw [List.flatMap_cons, List.length_append, hf, flatMap_length hf vs, List.length_cons, Nat.succ_mul,
      Nat.add_comm]

theorem vectorBytes_length {w : ℕ} (vs : List (BitVec w)) :
    (vectorBytes vs).length = 8 + vs.length * (w / 8) := by
  rw [vectorBytes, List.length_append, leBytes_length, flatMap_length fun v => leBytes_length]

/-- `f` writes one of the strings of `L` and counts it. -/
def Packs (f : Packer) (L : Layout) : Prop :=
  ∀ x p, ∃ bs, L bs ∧ f x p = (writeBytes x p bs, bs.length)

namespace Layout

/-- The one string `bs`. -/
def only (bs : List (BitVec 8)) : Layout := fun cs => cs = bs

/-- A string of `L`, then one of `M`. -/
def append (L M : Layout) : Layout := fun cs => ∃ as bs, L as ∧ M bs ∧ cs = as ++ bs

/-- A string of each layout in turn. -/
def concat : List Layout → Layout
  | [] => only []
  | L :: Ls => L.append (concat Ls)

end Layout

section Packers

variable {f g : Packer} {L M : Layout} {as bs : List (BitVec 8)}

theorem Packer.next_assoc {h : Packer} : (f.next g).next h = f.next (g.next h) := by
  funext x p
  simp only [Packer.next, Nat.add_assoc]

theorem packs_nop : Packs .nop (.only []) := fun _ _ => ⟨[], rfl, rfl⟩

/-- **Packers compose.** -/
theorem Packs.next (hf : Packs f L) (hg : Packs g M) : Packs (f.next g) (L.append M) := by
  intro x p
  obtain ⟨as, hL, h₁⟩ := hf x p
  obtain ⟨bs, hM, h₂⟩ := hg (writeBytes x p as) (p + as.length)
  refine ⟨as ++ bs, ⟨as, bs, hL, hM, rfl⟩, ?_⟩
  rw [Packer.next, h₁]
  dsimp only
  rw [h₂, writeBytes_append, List.length_append]

theorem packs_word {w : ℕ} (v : BitVec w) : Packs (packWord v) (.only (leBytes (w / 8) v.toNat)) :=
  fun x p => ⟨_, rfl, by rw [packWord, leBytes_length]⟩

theorem Packs.next_only (hf : Packs f (.only as)) (hg : Packs g (.only bs)) :
    Packs (f.next g) (.only (as ++ bs)) := fun x p => by
  obtain ⟨_, ⟨_, _, rfl, rfl, rfl⟩, h⟩ := hf.next hg x p
  exact ⟨_, rfl, h⟩

theorem packs_words {w : ℕ} : ∀ vs : List (BitVec w),
    Packs (Packer.all (vs.map packWord)) (.only (vs.flatMap fun v => leBytes (w / 8) v.toNat))
  | [] => packs_nop
  | v :: vs => by
    rw [List.flatMap_cons]
    exact (packs_word v).next_only (packs_words vs)

theorem packs_vector {w : ℕ} (vs : List (BitVec w)) : Packs (packVector vs) (.only (vectorBytes vs)) :=
  (packs_word _).next_only (packs_words vs)

theorem packs_all {ι : Type} {f : ι → Packer} {L : ι → Layout} :
    ∀ is : List ι, (∀ i ∈ is, Packs (f i) (L i)) → Packs (Packer.all (is.map f)) (.concat (is.map L))
  | [], _ => packs_nop
  | i :: is, h => (h i List.mem_cons_self).next (packs_all is fun j hj => h j (List.mem_cons_of_mem i hj))

/-- A packer of one string is a packer of no other. -/
theorem Packs.only_inj (h : Packs f (.only as)) (h' : Packs f (.only bs)) : as = bs := by
  obtain ⟨cs, hcs, hf⟩ := h (fun _ => 0) 0
  obtain ⟨cs', hcs', hf'⟩ := h' (fun _ => 0) 0
  rw [show cs = as from hcs] at hf
  rw [show cs' = bs from hcs', hf, Prod.mk.injEq] at hf'
  refine List.ext_getElem hf'.2 fun i hi hi' => ?_
  have hleft := @reads_writeBytes (fun _ => 0) 0 as i hi
  have hright := @reads_writeBytes (fun _ => 0) 0 bs i hi'
  rw [← hleft, ← hright, hf'.1]

end Packers

/-! ## Unpackers -/

/-- Reads from memory at a pointer: the value and the count of bytes, or an exception. -/
abbrev Unpacker (α : Type) := Buf → ℕ → Option (α × ℕ)

namespace Unpacker

variable {α β : Type}

/-- A value that takes no bytes. -/
def pure (a : α) : Unpacker α := fun _ _ => some (a, 0)

/-- A value computed from what was read, or an exception. -/
def check (a : Option α) : Unpacker α := fun _ _ => a.map fun a => (a, 0)

/-- `count += k( ptr+count )` after `u`. -/
def next (u : Unpacker α) (k : α → Unpacker β) : Unpacker β := fun x p =>
  (u x p).bind fun r => (k r.1 x (p + r.2)).map fun s => (s.1, r.2 + s.2)

/-- `count += k( ptr )` after `u`. -/
def atop (u : Unpacker α) (k : α → Unpacker β) : Unpacker β := fun x p =>
  (u x p).bind fun r => (k r.1 x p).map fun s => (s.1, r.2 + s.2)

/-- `for( … ) count += u( ptr+count )`. -/
def each (u : α → Unpacker β) : List α → Unpacker (List β)
  | [] => pure []
  | a :: as => (u a).next fun b => (each u as).next fun bs => pure (b :: bs)

end Unpacker

/-- A word of `w/8` bytes. -/
def unpackWord (w : ℕ) : Unpacker (BitVec w) := fun x p => some (BitVec.ofNat w (load x p 0 (w / 8)), w / 8)

/-- `n` words. -/
def unpackWords (w : ℕ) : ℕ → Unpacker (List (BitVec w))
  | 0 => .pure []
  | n + 1 => (unpackWord w).next fun v => (unpackWords w n).next fun vs => .pure (v :: vs)

/-- `unpack` of a vector. -/
def unpackVector (w : ℕ) : Unpacker (List (BitVec w)) :=
  (unpackWord 64).next fun sz => unpackWords w sz.toNat

/-- `u` takes `a` off the bytes `bs`. -/
def Unpacks {α : Type} (u : Unpacker α) (bs : List (BitVec 8)) (a : α) : Prop :=
  ∀ x p, Reads x p bs → u x p = some (a, bs.length)

section Unpackers

variable {α β γ : Type} {u : Unpacker α} {k : α → Unpacker β} {a : α} {b : β} {w : ℕ}
  {as bs : List (BitVec 8)}

theorem unpacks_pure : Unpacks (.pure a) [] a := fun _ _ _ => rfl

theorem unpacks_check : Unpacks (.check (some a)) [] a := fun _ _ _ => rfl

/-- **Unpackers compose.** -/
theorem Unpacks.next (hu : Unpacks u as a) (hk : Unpacks (k a) bs b) :
    Unpacks (u.next k) (as ++ bs) b := by
  intro x p h
  obtain ⟨h₁, h₂⟩ := reads_append.mp h
  rw [Unpacker.next, hu x p h₁, Option.bind_some, hk x _ h₂, Option.map_some, List.length_append]

/-- The last one of a chain. -/
theorem Unpacks.last (hu : Unpacks u as a) (hk : Unpacks (k a) [] b) : Unpacks (u.next k) as b := by
  have h := hu.next hk
  rwa [List.append_nil] at h

theorem unpacks_word (hw : w % 8 = 0) (v : BitVec w) :
    Unpacks (unpackWord w) (leBytes (w / 8) v.toNat) v := by
  intro x p h
  rw [unpackWord, load_of_reads h, leBytes_length, show 8 * (w / 8) = w by omega,
    Nat.mod_eq_of_lt v.isLt, BitVec.ofNat_toNat, BitVec.setWidth_eq]

theorem unpacks_words (hw : w % 8 = 0) : ∀ vs : List (BitVec w),
    Unpacks (unpackWords w vs.length) (vs.flatMap fun v => leBytes (w / 8) v.toNat) vs
  | [] => unpacks_pure
  | v :: vs => by
    rw [List.flatMap_cons, List.length_cons, unpackWords]
    exact (unpacks_word hw v).next ((unpacks_words hw vs).last unpacks_pure)

/-- A vector comes back if its length fits in its 64 bits. -/
theorem unpacks_vector (hw : w % 8 = 0) {vs : List (BitVec w)} (hvs : vs.length < 2 ^ 64) :
    Unpacks (unpackVector w) (vectorBytes vs) vs := by
  refine (unpacks_word (by decide) _).next ?_
  rw [BitVec.toNat_ofNat, Nat.mod_eq_of_lt hvs]
  exact unpacks_words hw vs

/-- Words are always there to be read. -/
theorem unpackWords_count (w : ℕ) (x : Buf) : ∀ (n p : ℕ), ∃ vs, unpackWords w n x p = some (vs, n * (w / 8))
  | 0, _ => ⟨[], by rw [Nat.zero_mul]; rfl⟩
  | n + 1, p => by
    obtain ⟨vs, hvs⟩ := unpackWords_count w x n (p + w / 8)
    refine ⟨BitVec.ofNat w (load x p 0 (w / 8)) :: vs, ?_⟩
    rw [unpackWords, Unpacker.next, unpackWord, Option.bind_some, Unpacker.next, hvs, Nat.succ_mul,
      Nat.add_comm (n * _)]
    rfl

/-- What each receiver takes off its sender's bytes, the list takes off all of them. -/
theorem unpacks_each {u : α → Unpacker β} {L : γ → Layout} {result : γ → β} {R : α → γ → Prop}
    (hu : ∀ a c, R a c → ∀ bs, L c bs → Unpacks (u a) bs (result c)) {rs : List α} {ss : List γ}
    (h : List.Forall₂ R rs ss) :
    ∀ bs, Layout.concat (ss.map L) bs → Unpacks (Unpacker.each u rs) bs (ss.map result) := by
  induction h with
  | nil =>
    intro bs hbs
    rw [show bs = [] from hbs]
    exact unpacks_pure
  | cons hR _ ih =>
    rintro _ ⟨as, bs, ha, hb, rfl⟩
    exact (hu _ _ hR as ha).next ((ih bs hb).last unpacks_pure)

end Unpackers

end Redux.Lib
