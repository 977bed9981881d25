import Mathlib.Data.List.TakeWhile
import Redux.Lib.Pack

/-!
# Lib.Wire — byte orders, strings and arrays on the wire

A number sent by a machine of the other byte order arrives with its bytes reversed (`swapEndian`), and
a receiver that swaps it once more gets it back.  Strings go as they are, with a zero at the end, and
arrays of a fixed length without anything around them.
-/

namespace Redux.Lib

/-! ## Byte orders -/

/-- The number with the bytes `bs`, the least significant first. -/
def ofBytes : List (BitVec 8) → ℕ
  | [] => 0
  | b :: bs => b.toNat + 2 ^ 8 * ofBytes bs

/-- The bytes reversed. -/
def swapEndian {w : ℕ} (v : BitVec w) : BitVec w :=
  BitVec.ofNat w (ofBytes (leBytes (w / 8) v.toNat).reverse)

/-- `if(swap_endian) swapEndian( v )`. -/
def inOrder {w : ℕ} (swap_endian : Bool) (v : BitVec w) : BitVec w :=
  if swap_endian then swapEndian v else v

section Orders

variable {w : ℕ} {bs : List (BitVec 8)} {b : BitVec 8} {n k : ℕ}

theorem byteOf_cons_zero : byteOf (b.toNat + 2 ^ 8 * n) 0 = b := by
  have hb := b.isLt
  apply BitVec.eq_of_toNat_eq
  rw [byteOf, BitVec.toNat_ofNat, Nat.mul_zero, Nat.shiftRight_zero]
  omega

theorem byteOf_cons_succ : byteOf (b.toNat + 2 ^ 8 * n) (k + 1) = byteOf n k := by
  have hb := b.isLt
  rw [byteOf, byteOf, Nat.mul_succ, Nat.add_comm (8 * k), Nat.shiftRight_add,
    show (b.toNat + 2 ^ 8 * n) >>> 8 = n by rw [Nat.shiftRight_eq_div_pow]; omega]

/-- The bytes of a number made of bytes. -/
theorem leBytes_ofBytes : ∀ {bs : List (BitVec 8)}, leBytes bs.length (ofBytes bs) = bs
  | [] => rfl
  | b :: bs => by
    have htail : (List.range bs.length).map (byteOf (b.toNat + 2 ^ 8 * ofBytes bs) ∘ Nat.succ) =
        leBytes bs.length (ofBytes bs) :=
      List.map_congr_left fun i _ => byteOf_cons_succ
    rw [leBytes, List.length_cons, List.range_succ_eq_map, List.map_cons, List.map_map, ofBytes,
      byteOf_cons_zero, htail, leBytes_ofBytes]

theorem ofBytes_lt : ∀ {bs : List (BitVec 8)}, ofBytes bs < 2 ^ (8 * bs.length)
  | [] => by decide
  | b :: bs => by
    have hb := b.isLt
    have ih := @ofBytes_lt bs
    rw [ofBytes, List.length_cons, Nat.mul_succ, Nat.pow_add]
    omega

/-- The bytes tell the number. -/
theorem leBytes_inj (hw : w % 8 = 0) {u v : BitVec w} (h : leBytes (w / 8) u.toNat = leBytes (w / 8) v.toNat) :
    u = v := by
  have hu := unpacks_word hw u (writeBytes (fun _ => 0) 0 (leBytes (w / 8) u.toNat)) 0 reads_writeBytes
  have hv := unpacks_word hw v (writeBytes (fun _ => 0) 0 (leBytes (w / 8) v.toNat)) 0 reads_writeBytes
  rw [h, hv] at hu
  exact (Prod.mk.inj (Option.some_inj.1 hu)).1.symm

theorem leBytes_byte (v : BitVec 8) : leBytes 1 v.toNat = [v] := by
  have hb := @byteOf_cons_zero v 0
  rw [Nat.mul_zero, Nat.add_zero] at hb
  rw [leBytes, List.range_one, List.map_singleton, hb]

/-- The number made of the bytes of a number. -/
theorem ofBytes_leBytes (v : BitVec w) (hw : w % 8 = 0) : BitVec.ofNat w (ofBytes (leBytes (w / 8) v.toNat)) = v := by
  refine leBytes_inj hw ?_
  have hlt := @ofBytes_lt (leBytes (w / 8) v.toNat)
  rw [leBytes_length, show 8 * (w / 8) = w by omega] at hlt
  have hbytes := @leBytes_ofBytes (leBytes (w / 8) v.toNat)
  rw [leBytes_length] at hbytes
  rw [BitVec.toNat_ofNat, Nat.mod_eq_of_lt hlt, hbytes]

/-- A swapped number has its bytes the other way round. -/
theorem leBytes_swapEndian (hw : w % 8 = 0) (v : BitVec w) :
    leBytes (w / 8) (swapEndian v).toNat = (leBytes (w / 8) v.toNat).reverse := by
  have hlen : (leBytes (w / 8) v.toNat).reverse.length = w / 8 := by simp
  have hlt := @ofBytes_lt (leBytes (w / 8) v.toNat).reverse
  rw [hlen, show 8 * (w / 8) = w by omega] at hlt
  rw [swapEndian, BitVec.toNat_ofNat, Nat.mod_eq_of_lt hlt]
  have hbytes := @leBytes_ofBytes (leBytes (w / 8) v.toNat).reverse
  rwa [hlen] at hbytes

@[simp]
theorem swapEndian_swapEndian (hw : w % 8 = 0) (v : BitVec w) : swapEndian (swapEndian v) = v := by
  apply leBytes_inj hw
  rw [leBytes_swapEndian hw, leBytes_swapEndian hw, List.reverse_reverse]

@[simp]
theorem inOrder_inOrder (hw : w % 8 = 0) (swap : Bool) (v : BitVec w) : inOrder swap (inOrder swap v) = v := by
  cases swap
  · rfl
  · exact swapEndian_swapEndian hw v

/-- A single byte has no order. -/
@[simp]
theorem inOrder_byte (swap : Bool) (v : BitVec 8) : inOrder swap v = v := by
  cases swap
  · rfl
  · apply leBytes_inj (by decide)
    exact leBytes_swapEndian (by decide) v

end Orders

/-! ## Numbers, strings and arrays -/

/-- A number sent in one's own byte order or in the other one. -/
def packNumber {w : ℕ} (reversed : Bool) (v : BitVec w) : Packer := packWord (inOrder reversed v)

/-- `unpack( ptr, out, swap_endian )`. -/
def unpackNumber (w : ℕ) (swap_endian : Bool) : Unpacker (BitVec w) :=
  (unpackWord w).next fun v => .pure (inOrder swap_endian v)

/-- `strncpy( ptr, in.c_str(), in.length()+1 )`: behind the first zero there are only zeros. -/
def stringBytes (s : List (BitVec 8)) : List (BitVec 8) :=
  s.takeWhile (· ≠ 0) ++ List.replicate (s.length + 1 - (s.takeWhile (· ≠ 0)).length) 0

/-- `pack` of a string. -/
def packString (s : List (BitVec 8)) : Packer := fun x p => (writeBytes x p (stringBytes s), s.length + 1)

/-- The length of the string at `p`, if there is a zero in the first `fuel` bytes. -/
def strlen (x : Buf) : ℕ → ℕ → Option ℕ
  | _, 0 => none
  | p, fuel + 1 => if x p = 0 then some 0 else (strlen x (p + 1) fuel).map (· + 1)

/-- `unpack` of a string: `out = std::string( ptr )`. -/
def unpackString (fuel : ℕ) : Unpacker (List (BitVec 8)) := fun x p =>
  (strlen x p fuel).map fun n => (bytesAt x p n, n + 1)

/-- `memcpy` of an array of `n` bytes. -/
def packArray {n : ℕ} (v : Vector (BitVec 8) n) : Packer := fun x p => (writeBytes x p v.toList, n)

def unpackArray (n : ℕ) : Unpacker (Vector (BitVec 8) n) := fun x p => some (.ofFn fun i => x (p + i), n)

section Values

variable {w : ℕ} {s : List (BitVec 8)} {x : Buf} {p fuel : ℕ}

theorem packs_number (reversed : Bool) (v : BitVec w) :
    Packs (packNumber reversed v) (.only (leBytes (w / 8) (inOrder reversed v).toNat)) :=
  packs_word _

/-- What comes of a number depends on whether both sides agree on the byte order. -/
theorem unpacks_number (hw : w % 8 = 0) (swap reversed : Bool) (v : BitVec w) :
    Unpacks (unpackNumber w swap) (leBytes (w / 8) (inOrder reversed v).toNat)
      (inOrder swap (inOrder reversed v)) :=
  (unpacks_word hw _).last unpacks_pure

theorem stringBytes_length : (stringBytes s).length = s.length + 1 := by
  have hle := (List.takeWhile_prefix (l := s) fun c => decide (c ≠ 0)).length_le
  rw [stringBytes, List.length_append, List.length_replicate]
  omega

theorem packs_string (s : List (BitVec 8)) : Packs (packString s) (.only (stringBytes s)) :=
  fun x p => ⟨_, rfl, by rw [packString, stringBytes_length]⟩

theorem stringBytes_eq (hs : ∀ c ∈ s, c ≠ 0) : stringBytes s = s ++ [0] := by
  have htake : s.takeWhile (fun c => decide (c ≠ 0)) = s :=
    List.takeWhile_eq_self_iff.2 fun c hc => decide_eq_true (hs c hc)
  rw [stringBytes, htake, Nat.add_sub_cancel_left]
  rfl

theorem strlen_eq : ∀ {s : List (BitVec 8)} {p fuel : ℕ}, (∀ c ∈ s, c ≠ 0) → s.length < fuel →
    Reads x p (s ++ [0]) → strlen x p fuel = some s.length
  | [], p, fuel + 1, _, _, h => by
    have h0 := h 0 (by simp)
    rw [strlen, if_pos (by simpa using h0)]
    rfl
  | c :: s, p, fuel + 1, hs, hlt, h => by
    have h0 := h 0 (by simp)
    simp only [List.cons_append, List.getElem_cons_zero, Nat.add_zero] at h0
    have hcons : Reads x p ([c] ++ (s ++ [0])) := h
    have htail : Reads x (p + 1) (s ++ [0]) := (reads_append.1 hcons).2
    rw [strlen, h0, if_neg (hs c List.mem_cons_self),
      strlen_eq (fun d hd => hs d (List.mem_cons_of_mem c hd)) (by simpa using hlt) htail]
    rfl

/-- A string without zeros comes back, given the bytes to look for its end. -/
theorem unpacks_string (hs : ∀ c ∈ s, c ≠ 0) (hfuel : s.length < fuel) :
    Unpacks (unpackString fuel) (stringBytes s) s := by
  intro x p h
  rw [stringBytes_eq hs] at h
  rw [unpackString, strlen_eq hs hfuel h, Option.map_some, stringBytes_length]
  congr 2
  refine List.ext_getElem (by simp) fun i hi hi' => ?_
  have hget := (reads_append.1 h).1 i hi'
  simpa [bytesAt] using hget

theorem packs_array {n : ℕ} (v : Vector (BitVec 8) n) : Packs (packArray v) (.only v.toList) :=
  fun x p => ⟨_, rfl, by rw [packArray, Vector.length_toList]⟩

theorem unpacks_array {n : ℕ} (v : Vector (BitVec 8) n) : Unpacks (unpackArray n) v.toList v := by
  intro x p h
  rw [unpackArray, Vector.length_toList]
  congr 2
  ext i hi
  rw [Vector.getElem_ofFn, h i (by rwa [Vector.length_toList]), Vector.getElem_toList]

/-- Packers of one string each, one behind the other. -/
theorem packs_sequence {fs : List Packer} {bss : List (List (BitVec 8))}
    (h : List.Forall₂ (fun f bs => Packs f (.only bs)) fs bss) :
    Packs (Packer.all fs) (.only bss.flatten) := by
  induction h with
  | nil => exact packs_nop
  | cons hf _ ih => exact hf.next_only ih

end Values

end Redux.Lib
