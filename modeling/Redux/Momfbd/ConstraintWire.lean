import Redux.Momfbd.ModeSizes

/-!
# Momfbd.ConstraintWire — constraints that are sent

`Constraints::unpack` hands the byte order on to all it reads but the values of the nullspace, which from a
machine of the other byte order come with their bytes reversed.
-/

namespace Redux.Momfbd.ModeSizes.Constraints

open Lib

/-- A point of the nullspace and its value. -/
abbrev Entry := (BitVec 32 × BitVec 32) × Double

/-- `ns_entries.insert( entry )`, which leaves alone an entry that is there. -/
def insert (entries : List Entry) (entry : Entry) : List Entry :=
  if entries.any (·.1 = entry.1) then entries else entries ++ [entry]

/-- `pack` of an entry, as a machine of the same byte order or of the other one sees it. -/
def packEntry (reversed : Bool) (entry : Entry) : Packer :=
  ((packNumber reversed entry.1.1).next (packNumber reversed entry.1.2)).next (packNumber reversed entry.2)

/-- `pack`, seen so. -/
def packIn (reversed : Bool) (c : Constraints) : Packer :=
  Packer.all [packNumber reversed c.nParameters, packNumber reversed c.nFreeParameters,
    packList reversed (c.ns_entries.map (packEntry reversed))]

/-- `unpack` of an entry: a point, and a value without `swap_endian`. -/
def unpackEntry (swap_endian : Bool) : Unpacker Entry :=
  (unpackNumber 32 swap_endian).next fun x => (unpackNumber 32 swap_endian).next fun y =>
    (unpackNumber 64 false).next fun value => .pure ((x, y), value)

/-- `unpack`, into constraints that have the entries `ns_entries`. -/
def unpack (swap_endian : Bool) (ns_entries : List Entry) : Unpacker Constraints :=
  (unpackNumber 32 swap_endian).next fun nParameters => (unpackNumber 32 swap_endian).next fun nFreeParameters =>
    (unpackList swap_endian (unpackEntry swap_endian)).next fun entries =>
      .pure ⟨nParameters, nFreeParameters, entries.foldl insert ns_entries⟩

def entryBytes (reversed : Bool) (entry : Entry) : List (BitVec 8) :=
  leBytes 4 (inOrder reversed entry.1.1).toNat ++ (leBytes 4 (inOrder reversed entry.1.2).toNat ++
    leBytes 8 (inOrder reversed entry.2).toNat)

/-- What the receiver makes of them. -/
def received (reversed : Bool) (c : Constraints) : Constraints :=
  { c with ns_entries := c.ns_entries.map fun entry => (entry.1, inOrder reversed entry.2) }

variable {swap : Bool} {c : Constraints} {entries rest : List Entry}

theorem packs_entry (entry : Entry) : Packs (packEntry swap entry) (.only (entryBytes swap entry)) := by
  rw [packEntry, Packer.next_assoc]
  exact (packs_number swap _).next_only ((packs_number swap _).next_only (packs_number swap _))

theorem unpacks_entry (entry : Entry) :
    Unpacks (unpackEntry swap) (entryBytes swap entry) (entry.1, inOrder swap entry.2) := by
  have hx := unpacks_number (by decide) swap swap entry.1.1
  have hy := unpacks_number (by decide) swap swap entry.1.2
  rw [inOrder_inOrder (by decide)] at hx hy
  exact hx.next (hy.next ((unpacks_number (by decide) false swap entry.2).last unpacks_pure))

/-- Entries of different points all go in. -/
theorem foldl_insert (h : ((entries ++ rest).map Prod.fst).Nodup) : rest.foldl insert entries = entries ++ rest := by
  induction rest generalizing entries with
  | nil => simp
  | cons entry rest ih =>
    have hnew : ¬ entries.any (·.1 = entry.1) := by
      rw [List.map_append, List.nodup_append] at h
      simp only [List.any_eq_true, decide_eq_true_eq, not_exists, not_and]
      exact fun e he => h.2.2 _ (List.mem_map_of_mem he) _ (by simp)
    rw [List.foldl_cons, insert, if_neg hnew, ih (by simpa using h), List.append_assoc, List.singleton_append]

theorem exists_bytes (hlen : c.ns_entries.length < 2 ^ 64) (hpoints : (c.ns_entries.map Prod.fst).Nodup) :
    ∃ bs, Packs (c.packIn swap) (.only bs) ∧ Unpacks (unpack swap []) bs (c.received swap) := by
  have hn := unpacks_number (by decide) swap swap c.nParameters
  have hm := unpacks_number (by decide) swap swap c.nFreeParameters
  rw [inOrder_inOrder (by decide)] at hn hm
  refine ⟨_, (packs_number swap _).next_only ((packs_number swap _).next_only ((packs_list ?_).next_only packs_nop)),
    hn.next (hm.next ((unpacks_list hlen fun entry _ => unpacks_entry entry).next ?_))⟩
  · rw [List.forall₂_map_left_iff, List.forall₂_map_right_iff, List.forall₂_same]
    exact fun entry _ => packs_entry entry
  · rw [foldl_insert (by simpa [Function.comp_def] using hpoints)]
    exact unpacks_pure

/-- **Constraints come back** but for the values, and these too if both machines have one byte order or the values
read the same in both. -/
theorem unpack_packIn_iff (c : Constraints) (hlen : c.ns_entries.length < 2 ^ 64)
    (hpoints : (c.ns_entries.map Prod.fst).Nodup) (reversed : Bool) (x : Buf) (p : ℕ) :
    let r := c.packIn reversed x p
    unpack reversed [] r.1 p = some (c.received reversed, r.2) ∧ (unpack reversed [] r.1 p = some (c, r.2) ↔
      reversed = false ∨ ∀ entry ∈ c.ns_entries, swapEndian entry.2 = entry.2) := by
  intro r
  obtain ⟨bs, hpacks, hunpacks⟩ := @exists_bytes reversed c hlen hpoints
  have hfirst : unpack reversed [] r.1 p = some (c.received reversed, r.2) := by
    obtain ⟨_, rfl, hpack⟩ := hpacks x p
    rw [show r = _ from hpack]
    exact hunpacks _ p reads_writeBytes
  refine ⟨hfirst, ?_⟩
  rw [hfirst, Option.some_inj, Prod.mk.injEq, and_iff_left rfl]
  cases reversed with
  | false => simp [received, inOrder]
  | true =>
    obtain ⟨n, m, entries⟩ := c
    have hmap := @List.map_inj_left _ _ entries (fun entry => (entry.1, swapEndian entry.2)) id
    simpa [received, inOrder, Prod.ext_iff] using hmap

theorem unpack_packIn_one :
    received true ⟨1, 1, [((0, 0), 0x3FF0000000000000)]⟩ ≠ ⟨1, 1, [((0, 0), 0x3FF0000000000000)]⟩ := fun h => by
  have hone := unpack_packIn_iff ⟨1, 1, [((0, 0), 0x3FF0000000000000)]⟩ (by decide) (by decide) true (fun _ => 0) 0
  rw [h] at hone
  exact absurd ((hone.2.1 hone.1).resolve_left (by decide) _ (List.mem_singleton_self _)) (by decide)

end Redux.Momfbd.ModeSizes.Constraints
