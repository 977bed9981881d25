import Redux.Util.RunTrip

/-!
# Util.RunText — the segments of a list as text

What is written of a segment is parsed as the segment is read (`Segment.read`): `parseNumbers_text`.
-/

namespace Redux.Util

/-! ## Cutting at a character -/

section Cut

variable {p : Char → Bool} {c : Char} {xs ys : List Char}

theorem findIdx_cut (hxs : ∀ x ∈ xs, p x = false) (hc : p c = true) :
    (xs ++ c :: ys).findIdx p = xs.length := by
  induction xs with
  | nil => rw [List.nil_append, List.findIdx_cons, hc]; rfl
  | cons x xs ih =>
    rw [List.cons_append, List.findIdx_cons, hxs x List.mem_cons_self, cond_false,
      ih fun y hy => hxs y (List.mem_cons_of_mem x hy), List.length_cons]

theorem take_cut : (xs ++ c :: ys).take xs.length = xs := List.take_left

theorem drop_cut : (xs ++ c :: ys).drop (xs.length + 1) = ys := by
  rw [← List.drop_drop, List.drop_left, List.drop_one, List.tail_cons]

end Cut

/-! ## Counting the marks -/

section Counts

variable {n : ℕ}

@[simp] theorem count_decimal_minus : (decimal n).count '-' = 0 :=
  List.count_eq_zero.2 (not_mem_decimal (by decide))

@[simp] theorem count_decimal_colon : (decimal n).count ':' = 0 :=
  List.count_eq_zero.2 (not_mem_decimal (by decide))

theorem count_decimalInt_colon {n : ℤ} : (decimalInt n).count ':' = 0 := by
  rw [List.count_eq_zero]
  intro h
  rcases mem_decimalInt h with h | h
  · exact absurd h (by decide)
  · exact absurd h (by decide)

theorem not_of_decimal {p : Char → Bool} (hp : ∀ c, p c = true → c.isDigit = false) :
    ∀ c ∈ decimal n, p c = false := by
  intro c hc
  rw [← Bool.not_eq_true]
  intro hpc
  exact absurd hc (not_mem_decimal (hp c hpc))

end Counts

/-! ## Parsing -/

section Parse

variable {τ : Type} {w : ℕ} (B : Boost w)

theorem cast_toNat (x : BitVec w) : B.lexical_cast (decimal x.toNat) = some x := by
  rw [B.cast_decimal _ x.isLt, BitVec.ofNat_toNat, BitVec.setWidth_eq]

theorem cast_decimalInt {n : ℤ} (h : n.natAbs < 2 ^ w) :
    B.lexical_cast (decimalInt n) = some (BitVec.ofInt w n) := by
  rw [decimalInt]
  by_cases hneg : n < 0
  · have hn : n = -(n.natAbs : ℤ) := by omega
    rw [if_pos hneg, B.cast_minus _ h]
    conv_rhs => rw [hn, BitVec.ofInt_neg, BitVec.ofInt_natCast]
  · have hn : n = (n.natAbs : ℤ) := by omega
    rw [if_neg hneg, B.cast_decimal _ h]
    conv_rhs => rw [hn, BitVec.ofInt_natCast]

/-- The step of a run is a number that its type can read. -/
theorem Run.natAbs_step_lt (r : Run τ w) : r.step.natAbs < 2 ^ w := by
  have hrange := r.step_range
  rcases Nat.lt_or_ge w 32 with hw | hw
  · have hfirst := r.first.isLt
    have hsecond := r.second.isLt
    have hpow : 2 ^ w ≤ 2 ^ 31 := Nat.pow_le_pow_right (by decide) (by omega)
    rw [step, toInt_of_range (by omega) (by omega)]
    omega
  · have hpow : 2 ^ 32 ≤ 2 ^ w := Nat.pow_le_pow_right (by decide) hw
    omega

theorem parseNumbers_single (fuel : ℕ) (x : BitVec w) :
    parseNumbers B fuel (decimal x.toNat) = some [x] := by
  rw [parseNumbers, count_decimal_minus, count_decimal_colon, if_pos rfl, cast_toNat]
  rfl

/-- **A folded run is parsed as it is read.** -/
theorem parseNumbers_run (fuel : ℕ) (r : Run τ w) :
    parseNumbers B fuel r.text = expand fuel r.first r.reread r.last := by
  have hmark : ∀ {p : Char → Bool}, (∀ c, p c = true → c = ':' ∨ c = '-') →
      ∀ {n : ℕ}, ∀ c ∈ decimal n, p c = false := by
    intro p hp n
    refine not_of_decimal fun c hc => ?_
    rcases hp c hc with rfl | rfl
    · decide
    · decide
  by_cases hone : r.step = 1
  · have htext : r.text = decimal r.first.toNat ++ '-' :: decimal r.last.toNat := by
      rw [Run.text, if_pos hone, if_neg (not_not.2 hone), List.append_nil, List.append_assoc]
      rfl
    have hreread : r.reread = 1 := by
      have hlt := r.natAbs_step_lt
      rcases Nat.lt_or_ge w 32 with hw | hw
      · rw [Run.reread_of_lt hw, Run.wstep, hone, toNat_ofInt]
        exact Int.emod_eq_of_lt (by decide) (by exact_mod_cast (hone ▸ hlt))
      · rw [Run.reread_of_le hw, hone]
    have hcut : r.text.findIdx (fun c => c == ':' || c == '-') = (decimal r.first.toNat).length := by
      rw [htext]
      exact findIdx_cut (hmark (by simp)) (by decide)
    have hminus : r.text.count '-' = 1 := by simp [htext]
    have hcolon : r.text.count ':' = 0 := by simp [htext]
    rw [parseNumbers, hminus, hcolon, hcut, htext, if_neg (by decide), if_pos (by decide)]
    dsimp only
    rw [take_cut, drop_cut, cast_toNat, cast_toNat, hreread]
    rfl
  · have htext : r.text = decimal r.first.toNat ++ ':' :: (decimalInt r.step ++ ':' :: decimal r.last.toNat) := by
      rw [Run.text, if_neg hone, if_pos hone]
      simp
    have hcolon : r.text.count ':' = 2 := by simp [htext, count_decimalInt_colon]
    have hcut : r.text.findIdx (· == ':') = (decimal r.first.toNat).length := by
      rw [htext]
      exact findIdx_cut (hmark (by simp)) (by decide)
    have hcut' : (decimalInt r.step ++ ':' :: decimal r.last.toNat).findIdx (· == ':') =
        (decimalInt r.step).length := by
      refine findIdx_cut (fun c hc => ?_) (by decide)
      rcases mem_decimalInt hc with rfl | hdigit
      · rfl
      · rw [beq_eq_false_iff_ne]
        rintro rfl
        exact absurd hdigit (by decide)
    rw [parseNumbers, hcolon, hcut, htext, if_neg (by omega), if_neg (by omega), if_pos rfl]
    dsimp only
    rw [take_cut, drop_cut, hcut', take_cut, drop_cut, cast_toNat, cast_toNat,
      cast_decimalInt B r.natAbs_step_lt]
    rfl

/-- What is written of a segment is parsed as the segment is read. -/
theorem parseNumbers_text (fuel : ℕ) (seg : Segment τ w) :
    parseNumbers B fuel seg.text = (seg.read fuel).map (List.map Element.number) := by
  cases seg with
  | single x => exact parseNumbers_single B fuel x.number
  | folded r =>
    rw [Segment.text, parseNumbers_run, Segment.read, Option.map_map]
    have hid : (List.map Element.number ∘ fun ns : List (BitVec w) => ns.map (Element.mk r.type ·)) = id := by
      funext ns
      simp [Function.comp_def]
    rw [hid, Option.map_id, id]

theorem Segment.mem_text {seg : Segment τ w} {c : Char} (h : c ∈ seg.text) :
    c.isDigit = true ∨ c = '-' ∨ c = ':' := by
  cases seg with
  | single x => exact .inl (isDigit_of_mem_decimal h)
  | folded r =>
    simp only [Segment.text, Run.text, List.mem_append] at h
    rcases h with ((h | h) | h) | h
    · exact .inl (isDigit_of_mem_decimal h)
    · split_ifs at h
      · exact .inr (.inl (List.mem_singleton.1 h))
      · exact .inr (.inr (List.mem_singleton.1 h))
    · by_cases hone : r.step = 1
      · rw [if_neg (not_not.2 hone)] at h
        exact absurd h List.not_mem_nil
      · rw [if_pos hone] at h
        rcases List.mem_append.1 h with h | h
        · exact (mem_decimalInt h).symm.imp_right .inl
        · exact .inr (.inr (List.mem_singleton.1 h))
    · exact .inl (isDigit_of_mem_decimal h)

theorem Segment.text_ne_nil (seg : Segment τ w) : seg.text ≠ [] := by
  cases seg with
  | single x => exact decimal_ne_nil
  | folded r => exact List.append_ne_nil_of_right_ne_nil _ decimal_ne_nil

end Parse

end Redux.Util
