import Redux.Lib.Wire

/-!
# Lib.Stream — reading a file that another program has written

A file is its bytes; a reader goes on from a position, and gives what it read and where it stopped, or
nothing if it threw an exception.  `Takes r p bs a` says that `r` gives `a` for the bytes `bs` when they
stand at `p`, whatever is before and behind them, and stops behind them.  Readers compose as the bytes
they take do (`Takes.next`).
-/

namespace Redux.Lib

/-! ## Numbers in a file -/

section Numbers

variable {w : ℕ} {reversed : Bool} {v : BitVec w} {vs ws : List (BitVec w)}

/-- The bytes of a number in the one or the other order. -/
def numBytes (reversed : Bool) (v : BitVec w) : List (BitVec 8) := leBytes (w / 8) (inOrder reversed v).toNat

/-- The bytes of numbers one behind the other. -/
def numsBytes (reversed : Bool) (vs : List (BitVec w)) : List (BitVec 8) := vs.flatMap (numBytes reversed)

theorem numBytes_length : (numBytes reversed v).length = w / 8 := leBytes_length

theorem numsBytes_length : (numsBytes reversed vs).length = w / 8 * vs.length := by
  induction vs with
  | nil => rfl
  | cons v vs ih =>
    rw [numsBytes, List.flatMap_cons, List.length_append, numBytes_length, ← numsBytes, ih, List.length_cons,
      Nat.mul_succ, Nat.add_comm]

theorem numsBytes_append : numsBytes reversed (vs ++ ws) = numsBytes reversed vs ++ numsBytes reversed ws :=
  List.flatMap_append

theorem numsBytes_cons : numsBytes reversed (v :: vs) = numBytes reversed v ++ numsBytes reversed vs :=
  List.flatMap_cons

end Numbers

/-! ## Readers -/

/-- Goes on from a position in a file. -/
abbrev Reader (α : Type) := List (BitVec 8) → ℕ → Option (α × ℕ)

namespace Reader

section Model

variable {α β : Type}

def pure (a : α) : Reader α := fun _ p => some (a, p)

/-- An exception. -/
def fail : Reader α := fun _ _ => none

/-- One after the other. -/
def next (r : Reader α) (k : α → Reader β) : Reader β := fun file p => (r file p).bind fun x => k x.1 file x.2

/-- `file.read( ptr, n )`, of which a file that ends before has too little. -/
def read (n : ℕ) : Reader (List (BitVec 8)) := fun file p =>
  if p + n ≤ file.length then some ((file.drop p).take n, p + n) else none

/-- `file.tellg()`. -/
def tell : Reader ℕ := fun _ p => some (p, p)

/-- `file.seekg( n, ios_base::cur )`. -/
def skip (n : ℕ) : Reader Unit := fun _ p => some ((), p + n)

/-- A number of `w` bits. -/
def word (w : ℕ) : Reader (BitVec w) := (read (w / 8)).next fun bs => pure (BitVec.ofNat w (ofBytes bs))

/-- `n` of them. -/
def words (w : ℕ) : ℕ → Reader (List (BitVec w))
  | 0 => pure []
  | n + 1 => (word w).next fun v => (words w n).next fun vs => pure (v :: vs)

/-- A number in one's own byte order or in the other one. -/
def number (w : ℕ) (swapNeeded : Bool) : Reader (BitVec w) := (word w).next fun v => pure (inOrder swapNeeded v)

/-- `n` of them. -/
def numbers (w : ℕ) (swapNeeded : Bool) (n : ℕ) : Reader (List (BitVec w)) :=
  (words w n).next fun vs => pure (vs.map (inOrder swapNeeded))

/-- `file.seekg( n, ios_base::cur )` for an `n` that may be negative; a file has no position before its start. -/
def seek (n : ℤ) : Reader Unit := fun _ p => if 0 ≤ p + n then some ((), (p + n).toNat) else none

/-- `file.seekg( pos )`. -/
def seekTo (pos : ℤ) : Reader Unit := fun _ _ => if 0 ≤ pos then some ((), pos.toNat) else none

/-- The same `n` times. -/
def times : ℕ → Reader α → Reader (List α)
  | 0, _ => pure []
  | n + 1, r => r.next fun a => (times n r).next fun as => pure (a :: as)

/-- `for( auto& a: as ) …`. -/
def each (r : α → Reader β) : List α → Reader (List β)
  | [] => pure []
  | a :: as => (r a).next fun b => (each r as).next fun bs => pure (b :: bs)

/-- The reader gives `a` for the bytes `bs` at `p`, and stops behind them. -/
def Takes (r : Reader α) (p : ℕ) (bs : List (BitVec 8)) (a : α) : Prop :=
  ∀ before behind : List (BitVec 8), before.length = p →
    r (before ++ (bs ++ behind)) p = some (a, p + bs.length)

/-- The bytes `bs` stand at `p`. -/
def Stands (file : List (BitVec 8)) (p : ℕ) (bs : List (BitVec 8)) : Prop :=
  ∃ before behind : List (BitVec 8), before.length = p ∧ file = before ++ (bs ++ behind)

/-- Whatever the reader gives is a `P`. -/
def Gives (r : Reader α) (P : α → Prop) : Prop := ∀ file p a p', r file p = some (a, p') → P a

/-- Wherever it starts, the reader gives `a` for this file. -/
def Finds (r : Reader α) (file : List (BitVec 8)) (a : α) : Prop := ∀ q, ∃ q', r file q = some (a, q')

end Model

section Rules

variable {α β : Type} {r : Reader α} {k : α → Reader β} {p w : ℕ} {as bs : List (BitVec 8)} {a : α} {b : β}

theorem takes_pure : Takes (pure a) p [] a := fun _ _ _ => rfl

theorem takes_tell : Takes tell p [] p := fun _ _ _ => rfl

/-- What has been read several times has been read once, and then the rest. -/
theorem times_succ_of_some {file : List (BitVec 8)} {n p q : ℕ} {xs : List α} (h : times (n + 1) r file p = some (xs, q)) :
    ∃ x p₁ rest, r file p = some (x, p₁) ∧ times n r file p₁ = some (rest, q) ∧ xs = x :: rest := by
  rw [times, Reader.next] at h
  obtain ⟨⟨x, p₁⟩, hx, h⟩ := Option.bind_eq_some_iff.1 h
  obtain ⟨⟨rest, p₂⟩, hrest, h⟩ := Option.bind_eq_some_iff.1 h
  obtain ⟨rfl, rfl⟩ := Prod.mk.inj (Option.some.inj h)
  exact ⟨x, p₁, rest, hx, hrest, rfl⟩

/-- **Readers compose.** -/
theorem Takes.next (hr : Takes r p as a) (hk : Takes (k a) (p + as.length) bs b) :
    Takes (r.next k) p (as ++ bs) b := by
  intro before behind hp
  have h1 := hr before (bs ++ behind) hp
  have h2 := hk (before ++ as) behind (by rw [List.length_append, hp])
  rw [List.append_assoc] at h2
  rw [List.append_assoc, Reader.next, h1, Option.bind_some, h2, List.length_append, Nat.add_assoc]

/-- The last one of a chain takes no bytes. -/
theorem Takes.last (hr : Takes r p as a) (hk : Takes (k a) (p + as.length) [] b) : Takes (r.next k) p as b := by
  have h := hr.next hk
  rwa [List.append_nil] at h

/-- A reader that takes no bytes, and what follows. -/
theorem Takes.after (hr : Takes r p [] a) (hk : Takes (k a) p bs b) : Takes (r.next k) p bs b :=
  hr.next hk

theorem takes_read : Takes (read bs.length) p bs bs := by
  intro before behind hp
  have hle : p + bs.length ≤ (before ++ (bs ++ behind)).length := by
    rw [List.length_append, List.length_append, hp]
    omega
  rw [read, if_pos hle, List.drop_left' hp, List.take_left' rfl]

theorem takes_skip : Takes (skip bs.length) p bs () := fun _ _ _ => rfl

theorem takes_word (hw : w % 8 = 0) (v : BitVec w) : Takes (word w) p (leBytes (w / 8) v.toNat) v := by
  have hread := @takes_read p (leBytes (w / 8) v.toNat)
  rw [leBytes_length] at hread
  refine hread.last ?_
  rw [ofBytes_leBytes v hw]
  exact takes_pure

/-- Words one behind the other. -/
theorem takes_words (hw : w % 8 = 0) : ∀ {vs : List (BitVec w)} {p : ℕ},
    Takes (words w vs.length) p (vs.flatMap fun v => leBytes (w / 8) v.toNat) vs
  | [], _ => takes_pure
  | v :: vs, p => by
    rw [List.flatMap_cons, List.length_cons, words]
    exact (takes_word hw v).next ((takes_words hw).last takes_pure)

/-- Numbers come back for a reader that agrees on the byte order. -/
theorem takes_number (hw : w % 8 = 0) (reversed : Bool) (v : BitVec w) :
    Takes (number w reversed) p (numBytes reversed v) v := by
  refine (takes_word hw _).last ?_
  rw [inOrder_inOrder hw]
  exact takes_pure

theorem takes_rawNumber (hw : w % 8 = 0) (reversed : Bool) (v : BitVec w) :
    Takes (word w) p (numBytes reversed v) (inOrder reversed v) :=
  takes_word hw _

theorem takes_rawNumbers (hw : w % 8 = 0) (reversed : Bool) {vs : List (BitVec w)} {n : ℕ} (hn : vs.length = n) :
    Takes (words w n) p (numsBytes reversed vs) (vs.map (inOrder reversed)) := by
  subst hn
  have hwords := @takes_words w hw (vs.map (inOrder reversed)) p
  rw [List.length_map, List.flatMap_map] at hwords
  exact hwords

theorem takes_numbers (hw : w % 8 = 0) (reversed : Bool) {vs : List (BitVec w)} {n : ℕ} (hn : vs.length = n) :
    Takes (numbers w reversed n) p (numsBytes reversed vs) vs := by
  refine (takes_rawNumbers hw reversed hn).last ?_
  rw [List.map_map, show inOrder reversed ∘ inOrder reversed = (id : BitVec w → BitVec w) from
    funext fun v => inOrder_inOrder hw reversed v, List.map_id]
  exact takes_pure

theorem takes_seek {n : ℤ} (hn : n = bs.length) : Takes (seek n) p bs () := by
  intro before behind _
  rw [hn, seek, if_pos (by omega)]
  rfl

/-! ### Bytes at a position -/

theorem stands_self : Stands bs 0 bs := ⟨[], [], rfl, (List.append_nil bs).symm⟩

theorem Takes.apply {file : List (BitVec 8)} (h : Takes r p bs a) (hs : Stands file p bs) :
    r file p = some (a, p + bs.length) := by
  obtain ⟨before, behind, hp, rfl⟩ := hs
  exact h before behind hp

theorem Stands.left {file : List (BitVec 8)} (h : Stands file p (as ++ bs)) : Stands file p as := by
  obtain ⟨before, behind, hp, rfl⟩ := h
  exact ⟨before, bs ++ behind, hp, by rw [List.append_assoc]⟩

theorem Stands.right {file : List (BitVec 8)} (h : Stands file p (as ++ bs)) : Stands file (p + as.length) bs := by
  obtain ⟨before, behind, hp, rfl⟩ := h
  exact ⟨before ++ as, behind, by rw [List.length_append, hp], by simp only [List.append_assoc]⟩

/-! ### Readers that go to a position of their own -/

section Finds

variable {file : List (BitVec 8)}

theorem finds_pure : Finds (pure a) file a := fun q => ⟨q, rfl⟩

theorem Finds.next (hr : Finds r file a) (hk : Finds (k a) file b) : Finds (r.next k) file b := by
  intro q
  obtain ⟨q', hq'⟩ := hr q
  obtain ⟨q'', hq''⟩ := hk q'
  exact ⟨q'', by rw [Reader.next, hq', Option.bind_some, hq'']⟩

/-- What stands where the reader goes to. -/
theorem Takes.finds {pos : ℤ} (h : Takes r p bs a) (hs : Stands file p bs) (hpos : pos = p) :
    Finds ((seekTo pos).next fun _ => r) file a := by
  intro q
  subst hpos
  rw [Reader.next, seekTo, if_pos (Int.natCast_nonneg p), Option.bind_some]
  exact ⟨_, h.apply hs⟩

end Finds

/-! ### Whatever is read -/

section Gives

variable {P : α → Prop} {Q : β → Prop}

theorem gives_pure (h : P a) : Gives (pure a) P := by
  intro file p b p' hb
  obtain ⟨rfl, rfl⟩ := Prod.mk.inj (Option.some.inj hb)
  exact h

theorem gives_fail : Gives (fail : Reader α) P := fun _ _ _ _ h => absurd h.symm (Option.some_ne_none _)

theorem Gives.next (hr : Gives r P) (hk : ∀ a, P a → Gives (k a) Q) : Gives (r.next k) Q := by
  intro file p b p' hb
  rw [Reader.next] at hb
  obtain ⟨⟨a, q⟩, ha, hb⟩ := Option.bind_eq_some_iff.1 hb
  exact hk a (hr file p a q ha) file q b p' hb

/-- A reader of which nothing is asked. -/
theorem gives_next (hk : ∀ a, Gives (k a) Q) : Gives (r.next k) Q :=
  Gives.next (P := fun _ => True) (fun _ _ _ _ _ => trivial) fun a _ => hk a

end Gives

/-! ### How much a file must have -/

section Length

variable {file : List (BitVec 8)}

theorem words_of_some : ∀ {n p q : ℕ} {vs : List (BitVec w)}, words w n file p = some (vs, q) →
    vs.length = n ∧ q = p + n * (w / 8)
  | 0, p, q, vs, h => by
    obtain ⟨rfl, rfl⟩ := Prod.mk.inj (Option.some.inj h)
    exact ⟨rfl, by rw [Nat.zero_mul, Nat.add_zero]⟩
  | n + 1, p, q, vs, h => by
    rw [words, Reader.next] at h
    obtain ⟨⟨v, p₁⟩, hv, h⟩ := Option.bind_eq_some_iff.1 h
    obtain ⟨⟨us, p₂⟩, hus, h⟩ := Option.bind_eq_some_iff.1 h
    obtain ⟨rfl, rfl⟩ := Prod.mk.inj (Option.some.inj h)
    obtain ⟨hlen, rfl⟩ := words_of_some hus
    rw [word, Reader.next, Reader.read] at hv
    split_ifs at hv
    · obtain ⟨-, rfl⟩ := Prod.mk.inj (Option.some.inj hv)
      exact ⟨by rw [List.length_cons, hlen], by rw [Nat.succ_mul]; dsimp only; omega⟩
    · exact absurd hv.symm (Option.some_ne_none _)

/-- How many numbers were read, and how far. -/
theorem numbers_of_some {reversed : Bool} {n q : ℕ} {vs : List (BitVec w)}
    (h : numbers w reversed n file p = some (vs, q)) : vs.length = n ∧ q = p + n * (w / 8) := by
  rw [numbers, Reader.next] at h
  obtain ⟨⟨us, p₁⟩, hus, h⟩ := Option.bind_eq_some_iff.1 h
  obtain ⟨rfl, rfl⟩ := Prod.mk.inj (Option.some.inj h)
  rw [List.length_map]
  exact words_of_some hus

theorem words_isSome_iff : ∀ {n p : ℕ}, (words w n file p).isSome ↔ n = 0 ∨ p + n * (w / 8) ≤ file.length
  | 0, _ => iff_of_true rfl (.inl rfl)
  | n + 1, p => by
    have ih := @words_isSome_iff n (p + w / 8)
    have hmul : (n + 1) * (w / 8) = n * (w / 8) + w / 8 := Nat.succ_mul n (w / 8)
    rw [words, Reader.next, word, Reader.next, Reader.read, hmul]
    by_cases hle : p + w / 8 ≤ file.length
    · rw [if_pos hle]
      simp only [Option.bind_some, Reader.pure, Reader.next, Option.isSome_bind, Option.any_eq_true] at ih ⊢
      constructor
      · rintro ⟨x, hx, -⟩
        rcases ih.1 (Option.isSome_iff_exists.2 ⟨x, hx⟩) with rfl | h
        · exact .inr (by simpa using hle)
        · exact .inr (by omega)
      · intro h
        obtain ⟨x, hx⟩ := Option.isSome_iff_exists.1 (ih.2 (.inr (by omega)))
        exact ⟨x, hx, rfl⟩
    · rw [if_neg hle]
      refine iff_of_false Bool.noConfusion fun h => ?_
      omega

theorem numbers_isSome_iff {reversed : Bool} {n : ℕ} :
    (numbers w reversed n file p).isSome ↔ n = 0 ∨ p + n * (w / 8) ≤ file.length := by
  rw [← words_isSome_iff, numbers, Reader.next]
  cases words w n file p <;> rfl

end Length

/-- What is read from a file starts with the bytes. -/
theorem Takes.run (h : Takes r 0 bs a) (behind : List (BitVec 8)) : r (bs ++ behind) 0 = some (a, bs.length) := by
  have hrun := h [] behind rfl
  rwa [List.nil_append, Nat.zero_add] at hrun

end Rules

end Reader

end Redux.Lib
