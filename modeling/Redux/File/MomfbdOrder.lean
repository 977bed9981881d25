import Redux.File.MomfbdTrip

/-!
# File.MomfbdOrder — the same file in the other byte order

A file whose flag is inverted and whose numbers are reversed is read and loaded as the one it was made of
only where it makes no difference: of a region only the first number is put in order, the offsets, the number
of channels of a patch and the modes are not, and the names come with the zeros at their ends and once more
with every `load`.
-/

namespace Redux.MomfbdFile

open Redux.Lib

/-! ## Where it makes no difference -/

/-- A region that is the same as a region when all of it but the first number is reversed. -/
def Region.SameReversed (r : Region) : Prop :=
  Lib.swapEndian r.lastX = r.lastX ∧
    ((Lib.swapEndian r.firstY = r.firstY ∧ Lib.swapEndian r.lastY = r.lastY) ∨ Lib.swapEndian r.firstY = r.lastY)

/-- A patch with such a region, and with the same offset and number of channels. -/
structure PatchContent.SameReversed {version : ℚ} (c : PatchContent version) : Prop where
  region : c.region.SameReversed
  offset : 20110714 ≤ version → swapEndian c.offx = c.offx ∧ swapEndian c.offy = c.offy
  nChannels : swapEndian c.nChannels = c.nChannels

section Patches

variable {version : ℚ} {c : PatchContent version} {a b a' b' : Word}

theorem ordered_inj : ordered a b = ordered a' b' ↔ (a = a' ∧ b = b') ∨ (a = b' ∧ b = a') := by
  constructor
  · intro h
    unfold ordered at h
    split_ifs at h
    · exact .inl ⟨(Prod.mk.inj h).2, (Prod.mk.inj h).1⟩
    · exact .inr ⟨(Prod.mk.inj h).2, (Prod.mk.inj h).1⟩
    · exact .inr ⟨(Prod.mk.inj h).1, (Prod.mk.inj h).2⟩
    · exact .inl ⟨(Prod.mk.inj h).1, (Prod.mk.inj h).2⟩
  · rintro (⟨rfl, rfl⟩ | ⟨rfl, rfl⟩)
    · rfl
    · unfold ordered
      split_ifs with h1 h2
      · omega
      · rfl
      · rfl
      · have heq : a = b := BitVec.toInt_inj.1 (by omega)
        rw [heq]

theorem taken_true {r : Region} : r.taken true = r.taken false ↔ r.SameReversed := by
  have hparts : r.taken true = r.taken false ↔ ordered r.firstX (swapEndian r.lastX) = ordered r.firstX r.lastX ∧
      ordered (swapEndian r.firstY) (swapEndian r.lastY) = ordered r.firstY r.lastY := by
    constructor
    · intro h
      obtain ⟨h1, h2, h3, h4⟩ := Region.mk.inj h
      exact ⟨Prod.ext h1 h2, Prod.ext h3 h4⟩
    · rintro ⟨h1, h2⟩
      change Region.mk _ _ _ _ = Region.mk _ _ _ _
      exact congr (congr (congr (congrArg _ (congrArg Prod.fst h1)) (congrArg Prod.snd h1)) (congrArg Prod.fst h2))
        (congrArg Prod.snd h2)
  rw [hparts, ordered_inj, ordered_inj, Region.SameReversed]
  refine and_congr ⟨?_, fun h => .inl ⟨rfl, h⟩⟩ (or_congr Iff.rfl ⟨And.left, fun h => ⟨h, ?_⟩⟩)
  · rintro (⟨-, h⟩ | ⟨h1, h2⟩)
    · exact h
    · rw [h2, h1]
  · rw [← h, swapEndian_swapEndian (by decide)]

/-- **The first numbers of a patch** are the same in order or not. -/
theorem head_true {p : ℕ} : c.head true p = c.head false p ↔ c.SameReversed := by
  have hoff : ∀ v : Word, ((if 20110714 ≤ version then inOrder true v else 0) =
      if 20110714 ≤ version then inOrder false v else 0) ↔ (20110714 ≤ version → swapEndian v = v) := by
    intro v
    split_ifs with hversion
    · exact ⟨fun h _ => h, fun h => h hversion⟩
    · exact ⟨fun _ h => absurd h hversion, fun _ => rfl⟩
  constructor
  · intro h
    obtain ⟨-, hregion, hx, hy, hn⟩ := PatchHead.ext_iff.1 h
    exact ⟨taken_true.1 hregion, fun hv => ⟨(hoff _).1 hx hv, (hoff _).1 hy hv⟩, hn⟩
  · intro h
    have hregion := taken_true.2 h.region
    have hx := (hoff c.offx).2 fun hv => (h.offset hv).1
    have hy := (hoff c.offy).2 fun hv => (h.offset hv).2
    have hn : inOrder true c.nChannels = inOrder false c.nChannels := h.nChannels
    exact PatchHead.ext rfl hregion hx hy hn

/-- Whatever is found of a patch has its first numbers. -/
theorem gives_rest (swapNeeded : Bool) (head : PatchHead) : Reader.Gives (parseRest swapNeeded version head)
    fun x => x.2.region = head.region ∧ x.2.nChannels = head.nChannels ∧ x.2.offx = head.offx ∧ x.2.offy =
      head.offy := by
  unfold parseRest
  split_ifs
  · exact Reader.gives_fail
  · exact Reader.gives_next fun _ => Reader.gives_next fun _ => Reader.gives_next fun _ => Reader.gives_next fun _ =>
      Reader.gives_next fun _ => Reader.gives_next fun _ => Reader.gives_next fun _ => Reader.gives_next fun _ =>
        Reader.gives_next fun _ => Reader.gives_pure ⟨rfl, rfl, rfl, rfl⟩

/-- Where the same is found in patches of the other order, it makes no difference for any of them. -/
theorem same_of_patches {file : Str} : ∀ {cs : List (PatchContent version)} {p q : ℕ}
    {ps : List (BitVec 8 × PatchInfo)},
    Reader.Stands file p (cs.flatMap fun c => c.bytes true) →
    Reader.times cs.length (PatchInfo.parse true version) file p = some (ps, q) →
    ps.map Prod.snd = (infos cs p).map Prod.snd → ∀ c ∈ cs, c.SameReversed
  | [], _, _, _, _, _, _ => fun _ hc => absurd hc List.not_mem_nil
  | c :: cs, p, q, ps, hs, hread, hsame => by
    obtain ⟨x, p1, xs, hx, hxs, rfl⟩ := Reader.times_succ_of_some hread
    obtain ⟨hfst, hrest⟩ := List.cons.inj hsame
    have hhead : Reader.Stands file p (c.headBytes true) := hs.left.left
    have hgives : PatchInfo.parse true version file p =
        parseRest true version (c.head true p) file (p + (c.headBytes true).length) := by
      rw [PatchInfo.parse, Reader.next, takes_head.apply hhead, Option.bind_some]
    obtain ⟨hregion, hn, hox, hoy⟩ := gives_rest true (c.head true p) _ _ _ _ (hgives ▸ hx)
    rw [hfst] at hregion hn hox hoy
    have hc : c.SameReversed := by
      exact (head_true (p := p)).1 (PatchHead.ext rfl hregion.symm hox.symm hoy.symm hn.symm)
    have hp1 : p1 = p + (c.bytes true).length := by
      rw [(takes_patch ((head_true (p := p)).2 hc)).apply hs.left] at hx
      exact (Prod.mk.inj (Option.some.inj hx)).2.symm
    subst hp1
    have hcs := same_of_patches hs.right hxs (by rw [← bytes_length] at hrest; exact hrest)
    exact List.forall_mem_cons.2 ⟨hc, hcs⟩

end Patches

/-! ## The modes -/

section Modes

variable {f g : Str} {w : ℕ}

/-- Numbers that were read stand where they were read. -/
theorem stands_words : ∀ {n p q : ℕ} {vs : List Word}, Reader.words 32 (n + 1) f p = some (vs, q) →
    vs.length = n + 1 ∧ q = p + 4 * (n + 1) ∧ Reader.Stands f p (numsBytes false vs)
  | n, p, q, vs, h => by
    rw [Reader.words, Reader.next] at h
    obtain ⟨⟨v, p1⟩, hv, h⟩ := Option.bind_eq_some_iff.1 h
    obtain ⟨⟨us, p2⟩, hus, h⟩ := Option.bind_eq_some_iff.1 h
    obtain ⟨rfl, rfl⟩ := Prod.mk.inj (Option.some.inj h)
    rw [Reader.word, Reader.next, Reader.read] at hv
    by_cases hle : p + 32 / 8 ≤ f.length
    · rw [if_pos hle, Option.bind_some] at hv
      obtain ⟨rfl, rfl⟩ := Prod.mk.inj (Option.some.inj hv)
      have hbytes : ((f.drop p).take 4).length = 4 := by
        rw [List.length_take, List.length_drop]
        omega
      have hnum : numBytes false (BitVec.ofNat 32 (ofBytes ((f.drop p).take (32 / 8)))) = (f.drop p).take 4 := by
        have hlt := @ofBytes_lt ((f.drop p).take 4)
        have hle := @leBytes_ofBytes ((f.drop p).take 4)
        rw [hbytes] at hlt hle
        change leBytes 4 (BitVec.ofNat 32 _).toNat = _
        rw [BitVec.toNat_ofNat, Nat.mod_eq_of_lt hlt, hle]
      have hsplit : f = f.take p ++ ((f.drop p).take 4 ++ f.drop (p + 4)) := by
        rw [← List.drop_drop, List.take_append_drop, List.take_append_drop]
      cases n with
      | zero =>
        obtain ⟨rfl, rfl⟩ := Prod.mk.inj (Option.some.inj hus)
        refine ⟨rfl, rfl, f.take p, f.drop (p + 4), by rw [List.length_take]; omega, ?_⟩
        rw [numsBytes_cons, hnum, numsBytes, List.flatMap_nil, List.append_nil]
        exact hsplit
      | succ n =>
        obtain ⟨hlen, rfl, before, behind, hbefore, hf⟩ := stands_words hus
        refine ⟨by rw [List.length_cons, hlen], by dsimp only; omega, f.take p, behind,
          by rw [List.length_take]; omega, ?_⟩
        have htail : f.drop (p + 4) = numsBytes false us ++ behind := by
          rw [hf, List.drop_left' hbefore]
        rw [numsBytes_cons, hnum, List.append_assoc, ← htail]
        exact hsplit
    · rw [if_neg hle] at hv
      exact absurd hv.symm (Option.some_ne_none _)

/-- The bytes that are taken for `n` modes from `p` on are the same in two files. -/
def SameModes (f g : Str) (w n p : ℕ) : Prop :=
  ∀ i < n, ∃ bs : Str, bs.length = 4 * w ∧ Reader.Stands f (p + i * (4 * w + 1) + 1) bs ∧
    Reader.Stands g (p + i * (4 * w + 1) + 1) bs

/-- What is read for the modes, one byte of each left out. -/
abbrev readModeWords (w n : ℕ) : Reader (List (List Word)) :=
  Reader.times n ((Reader.skip 1).next fun _ => Reader.words 32 w)

/-- Bytes make numbers. -/
theorem words_of_bytes : ∀ {w : ℕ} {bs : Str}, bs.length = 4 * w → ∃ vs : List Word, vs.length = w ∧ bs =
    numsBytes false vs
  | 0, bs, h => ⟨[], rfl, List.eq_nil_of_length_eq_zero h⟩
  | w + 1, bs, h => by
    obtain ⟨vs, hlen, hvs⟩ := @words_of_bytes w (bs.drop 4) (by rw [List.length_drop]; omega)
    have hbytes : (bs.take 4).length = 4 := by
      rw [List.length_take]
      omega
    refine ⟨BitVec.ofNat 32 (ofBytes (bs.take 4)) :: vs, by rw [List.length_cons, hlen], ?_⟩
    have hlt := @ofBytes_lt (bs.take 4)
    have hle := @leBytes_ofBytes (bs.take 4)
    rw [hbytes] at hlt hle
    rw [numsBytes_cons, ← hvs]
    change bs = leBytes 4 (BitVec.ofNat 32 _).toNat ++ _
    rw [BitVec.toNat_ofNat, Nat.mod_eq_of_lt hlt, hle, List.take_append_drop]

/-- **The same is read for the modes** exactly where the same bytes are taken. -/
theorem sameModes_iff : ∀ {n p : ℕ}, SameModes f g (w + 1) n p ↔
    ∃ ms ms' q q', readModeWords (w + 1) n f p = some (ms, q) ∧ readModeWords (w + 1) n g p = some (ms', q') ∧
      ms.flatten = ms'.flatten
  | 0, p => ⟨fun _ => ⟨[], [], p, p, rfl, rfl, rfl⟩, fun _ i hi => absurd hi (Nat.not_lt_zero i)⟩
  | n + 1, p => by
    have ih := @sameModes_iff n (p + (4 * (w + 1) + 1))
    have hnext : ∀ i, p + (i + 1) * (4 * (w + 1) + 1) = p + (4 * (w + 1) + 1) + i * (4 * (w + 1) + 1) :=
      fun i => by ring
    have hsplit : SameModes f g (w + 1) (n + 1) p ↔ (∃ bs : Str, bs.length = 4 * (w + 1) ∧ Reader.Stands f (p + 1) bs ∧
        Reader.Stands g (p + 1) bs) ∧ SameModes f g (w + 1) n (p + (4 * (w + 1) + 1)) := by
      constructor
      · intro h
        refine ⟨by simpa using h 0 (Nat.succ_pos n), fun i hi => ?_⟩
        have hi := h (i + 1) (by omega)
        rwa [hnext] at hi
      · rintro ⟨h0, h⟩ i hi
        cases i with
        | zero => simpa using h0
        | succ i =>
          rw [hnext]
          exact h i (by omega)
    rw [hsplit, ih]
    constructor
    · rintro ⟨⟨bs, hlen, hf, hg⟩, ms, ms', q, q', hms, hms', hsame⟩
      obtain ⟨vs, hvs, rfl⟩ := words_of_bytes hlen
      have hread : Reader.Takes (Reader.words 32 (w + 1)) (p + 1) (numsBytes false vs) (vs.map (inOrder false)) :=
        Reader.takes_rawNumbers (by decide) false hvs
      have hend : p + 1 + (numsBytes false vs).length = p + (4 * (w + 1) + 1) := by
        rw [hlen]
        omega
      have hf := hread.apply hf
      have hg := hread.apply hg
      rw [hend] at hf hg
      refine ⟨vs.map (inOrder false) :: ms, vs.map (inOrder false) :: ms', q, q', ?_, ?_, ?_⟩
      · change (((Reader.words 32 (w + 1)) f (p + 1)).bind _) = _
        rw [hf, Option.bind_some]
        change ((readModeWords (w + 1) n f (p + (4 * (w + 1) + 1))).bind _) = _
        rw [hms]
        rfl
      · change (((Reader.words 32 (w + 1)) g (p + 1)).bind _) = _
        rw [hg, Option.bind_some]
        change ((readModeWords (w + 1) n g (p + (4 * (w + 1) + 1))).bind _) = _
        rw [hms']
        rfl
      · rw [List.flatten_cons, List.flatten_cons, hsame]
    · rintro ⟨ms, ms', q, q', hms, hms', hsame⟩
      obtain ⟨⟨vs, p1⟩, hvs, hms⟩ := Option.bind_eq_some_iff.1 hms
      obtain ⟨⟨us, p2⟩, hus, hms⟩ := Option.bind_eq_some_iff.1 hms
      obtain ⟨⟨vs', p1'⟩, hvs', hms'⟩ := Option.bind_eq_some_iff.1 hms'
      obtain ⟨⟨us', p2'⟩, hus', hms'⟩ := Option.bind_eq_some_iff.1 hms'
      obtain ⟨rfl, rfl⟩ := Prod.mk.inj (Option.some.inj hms)
      obtain ⟨rfl, rfl⟩ := Prod.mk.inj (Option.some.inj hms')
      obtain ⟨hlen, rfl, hf⟩ := stands_words hvs
      obtain ⟨hlen', rfl, hg⟩ := stands_words hvs'
      rw [List.flatten_cons, List.flatten_cons] at hsame
      obtain ⟨rfl, hrest⟩ := List.append_inj hsame (hlen.trans hlen'.symm)
      refine ⟨⟨numsBytes false vs, by rw [numsBytes_length, hlen], hf, hg⟩, us, us', p2, p2', ?_, ?_, hrest⟩
      · rw [← hus]
        congr 1
        dsimp only
        omega
      · rw [← hus']
        congr 1
        dsimp only
        omega

end Modes

/-! ## Files -/

section Files

variable {τ : Type} {T : Texts τ}

/-- `load`, `k + 1` times one after the other on the same object: what the last one has brought, and the object
afterwards. -/
def FileMomfbd.loadTimes (mask : BitVec 8) (alignTo : ℕ) (m : FileMomfbd τ) : ℕ → Reader (List Cell × FileMomfbd τ)
  | 0 => (m.load mask alignTo).next fun x => .pure (x.1, m.withNames x.2)
  | k + 1 => (m.loadTimes mask alignTo k).next fun x =>
      (x.2.load mask alignTo).next fun y => .pure (y.1, x.2.withNames y.2)

/-- The same object, but of a file whose numbers are put in order. -/
def FileMomfbd.swapped (m : FileMomfbd τ) : FileMomfbd τ := { m with swapNeeded := true }

/-- The file and the one with reversed numbers give the same header, and the same with every `load`; and the
names are those of the file, as far as they are asked for. -/
def FileContent.SameEitherWay (c : FileContent T) (mask : BitVec 8) (alignTo : ℕ) : Prop :=
  ∃ r q q', FileMomfbd.read T (c.bytes false) 0 = some (r, q) ∧ FileMomfbd.read T (c.bytes true) 0 =
    some (r.swapped, q') ∧
    ∀ k, ∃ cells m m' p p', r.loadTimes mask alignTo k (c.bytes false) q = some ((cells, m), p) ∧
      r.swapped.loadTimes mask alignTo k (c.bytes true) q' = some ((cells, m'), p') ∧
      m.fileNames = asked mask MOMFBD_NAMES (c.names.getD []) ∧ m'.fileNames = asked mask MOMFBD_NAMES (c.names.getD [])

/-- What is not put in order, if it is read, is the same in both files, and there are no names to be loaded. -/
structure FileContent.SameReversed (c : FileContent T) (mask : BitVec 8) : Prop where
  region : regionVersion ≤ c.version → c.region.SameReversed
  patches : ∀ p ∈ c.patches, p.SameReversed
  modes : mask &&& MOMFBD_MODES ≠ 0 → ∀ m, c.modes = some m → m.nPH ≠ 0 →
    SameModes (c.bytes false) (c.bytes true) m.pupil.length m.modes.length (m.modesAt c.version c.modesAt)
  names : mask &&& MOMFBD_NAMES ≠ 0 → c.names.getD [] = []

variable {c : FileContent T} {mask : BitVec 8} {alignTo : ℕ} {reversed : Bool} {file : Str}

/-- What is taken for the modes does not depend on where the file was before. -/
theorem finds_of_some {ms : List Word} {q q' : ℕ} {m : FileMomfbd τ} (h : m.loadModes mask file q = some (ms, q')) :
    Reader.Finds (m.loadModes mask) file ms := by
  unfold FileMomfbd.loadModes at h ⊢
  split_ifs at h ⊢ with hwanted
  · intro q1
    refine ⟨q', ?_⟩
    rw [← h]
    simp only [Reader.next, Reader.seekTo, if_pos (Int.le_of_lt hwanted.2.2.2)]
  · obtain ⟨rfl, -⟩ := Prod.mk.inj (Option.some.inj h)
    exact Reader.finds_pure

/-- Where nothing is taken for the modes. -/
theorem finds_noModes (h : ¬ (mask &&& MOMFBD_MODES ≠ 0 ∧ ∃ m, c.modes = some m ∧ m.nPH ≠ 0 ∧ m.nModes ≠ 0)) :
    Reader.Finds ((c.found reversed).loadModes mask) file [] := by
  unfold FileMomfbd.loadModes
  rw [if_neg]
  · exact Reader.finds_pure
  · rintro ⟨hmask, hph, hcount, -⟩
    cases hm : c.modes with
    | none => exact hph (found_noModes hm)
    | some m =>
      obtain ⟨h1, h2, -, -⟩ := @found_modes _ _ c reversed m hm
      exact h ⟨hmask, m, hm, h1 ▸ hph, h2 ▸ hcount⟩

/-- What is taken for the modes is what is read from their position on. -/
theorem loadModes_iff {m : ModesContent} (hm : c.modes = some m) (hmask : mask &&& MOMFBD_MODES ≠ 0) (hph : m.nPH ≠ 0)
    (hcount : m.nModes ≠ 0) {ms : List Word} : Reader.Finds ((c.found reversed).loadModes mask) file ms ↔
      ∃ rows q, readModeWords m.pupil.length m.modes.length file (m.modesAt c.version c.modesAt) = some (rows, q) ∧
        ms = rows.flatten := by
  obtain ⟨h1, h2, -, h4⟩ := @found_modes _ _ c reversed m hm
  have hpos : (0 : ℤ) < m.modesAt c.version c.modesAt := Int.natCast_pos.2 (@pupilAt_pos _ _ c c.modesAt m).2
  have hw : (m.nPH.toInt * m.nPH.toInt).toNat = m.pupil.length := by
    have hlen := m.pupil_length
    omega
  have hn : m.nModes.toInt.toNat = m.modes.length := by
    have hlen := m.modes_length
    omega
  unfold FileMomfbd.loadModes
  rw [h1, h2, h4, hw, hn, if_pos ⟨hmask, hph, hcount, hpos⟩]
  have hseek : ∀ q, ((Reader.seekTo (m.modesAt c.version c.modesAt)).next fun _ =>
      (readModeWords m.pupil.length m.modes.length).next fun modes => .pure modes.flatten) file q =
      (readModeWords m.pupil.length m.modes.length file (m.modesAt c.version c.modesAt)).map fun x =>
        (x.1.flatten, x.2) := by
    intro q
    rw [Reader.next, Reader.seekTo, if_pos (Int.le_of_lt hpos), Option.bind_some, Reader.next, Int.toNat_natCast]
    cases readModeWords m.pupil.length m.modes.length file (m.modesAt c.version c.modesAt) with
    | none => rfl
    | some x => rfl
  constructor
  · intro h
    obtain ⟨q, hq⟩ := h 0
    rw [hseek] at hq
    obtain ⟨⟨rows, q'⟩, hrows, heq⟩ := Option.map_eq_some_iff.1 hq
    exact ⟨rows, q', hrows, (Prod.mk.inj heq).1.symm⟩
  · rintro ⟨rows, q, hrows, rfl⟩ q0
    exact ⟨q, by rw [hseek, hrows, Option.map_some]⟩

/-- **The same is taken for the modes** of both files exactly where the same bytes stand there. -/
theorem modes_iff : (mask &&& MOMFBD_MODES ≠ 0 → ∀ m, c.modes = some m → m.nPH ≠ 0 →
      SameModes (c.bytes false) (c.bytes true) m.pupil.length m.modes.length (m.modesAt c.version c.modesAt)) ↔
    ∃ ms, Reader.Finds ((c.found false).loadModes mask) (c.bytes false) ms ∧
      Reader.Finds ((c.found true).loadModes mask) (c.bytes true) ms := by
  by_cases hwanted : mask &&& MOMFBD_MODES ≠ 0 ∧ ∃ m, c.modes = some m ∧ m.nPH ≠ 0 ∧ m.nModes ≠ 0
  · obtain ⟨hmask, m, hm, hph, hcount⟩ := hwanted
    have hpos : ∃ w, m.pupil.length = w + 1 := by
      have hlen := m.pupil_length
      have hne : m.nPH.toInt ≠ 0 := fun h => hph (BitVec.toInt_inj.1 h)
      have hsq := mul_self_pos.2 hne
      exact Nat.exists_eq_succ_of_ne_zero (by omega)
    obtain ⟨w, hw⟩ := hpos
    simp only [loadModes_iff hm hmask hph hcount]
    rw [hw]
    constructor
    · intro h
      have hsame := h hmask m hm hph
      rw [hw] at hsame
      obtain ⟨ms, ms', q, q', hms, hms', heq⟩ := sameModes_iff.1 hsame
      exact ⟨ms.flatten, ⟨ms, q, hms, rfl⟩, ⟨ms', q', hms', heq⟩⟩
    · rintro ⟨-, ⟨ms, q, hms, rfl⟩, ⟨ms', q', hms', heq⟩⟩ - m' hm' -
      obtain rfl := Option.some.inj (hm'.symm.trans hm)
      rw [hw]
      exact sameModes_iff.2 ⟨ms, ms', q, q', hms, hms', heq⟩
  · refine iff_of_true (fun hmask m hm hph => ?_) ⟨[], finds_noModes hwanted, finds_noModes hwanted⟩
    have hzero : m.nModes = 0 := not_not.1 fun hcount => hwanted ⟨hmask, m, hm, hph, hcount⟩
    have hlen := m.modes_length
    rw [hzero, show (0 : Word).toInt = 0 from rfl] at hlen
    intro i hi
    omega

theorem sameHeads_false {version : ℚ} {cs : List (PatchContent version)} : SameHeads false cs := fun _ _ _ => rfl

/-- The names that come with `load` where there are none to come. -/
theorem namesAfter_nil (h : mask &&& MOMFBD_NAMES ≠ 0 → c.names.getD [] = []) :
    c.namesAfter mask [] = asked mask MOMFBD_NAMES (c.names.getD []) ∧
      asked mask MOMFBD_NAMES (c.names.getD []) = [] := by
  have hnil : asked mask MOMFBD_NAMES (c.names.getD []) = [] := by
    unfold asked
    split_ifs with hmask
    · exact h hmask
    · rfl
  refine ⟨?_, hnil⟩
  rw [hnil]
  unfold FileContent.namesAfter
  cases hnames : c.names with
  | none => rfl
  | some ns =>
    dsimp only
    split_ifs with hmask
    · have hns := h hmask
      rw [hnames, Option.getD_some] at hns
      rw [hns]
      rfl
    · rfl

/-- Every `load` brings the same as long as there are no names. -/
theorem finds_loadTimes {ms : List Word} (hms : Reader.Finds ((c.found reversed).loadModes mask) (c.bytes reversed) ms)
    (h : mask &&& MOMFBD_NAMES ≠ 0 → c.names.getD [] = []) (k : ℕ) :
    Reader.Finds ((c.found reversed).loadTimes mask alignTo k) (c.bytes reversed)
      (c.cells mask alignTo ms, (c.found reversed).withNames []) := by
  have hload : Reader.Finds ((c.found reversed).load mask alignTo) (c.bytes reversed)
    (c.cells mask alignTo ms, []) := by
    have hfinds := @finds_load _ _ c reversed mask alignTo [] ms hms
    rwa [(namesAfter_nil h).1, (namesAfter_nil h).2] at hfinds
  induction k with
  | zero => exact hload.next Reader.finds_pure
  | succ k ih => exact ih.next (hload.next Reader.finds_pure)

theorem found_true (h : regionVersion ≤ c.version → c.region.SameReversed) : c.found true =
    (c.found false).swapped := by
  have hhead : c.head true = { c.head false with swapNeeded := true } := by
    have hroi : (if regionVersion ≤ c.version then some (c.region.taken true) else none) =
        if regionVersion ≤ c.version then some (c.region.taken false) else none := by
      split_ifs with hversion
      · rw [taken_true.2 (h hversion)]
      · rfl
    rw [FileContent.head, hroi]
    rfl
  rw [FileContent.found, hhead]
  rfl

/-- What the first `load` has brought. -/
theorem loadTimes_zero {q p : ℕ} {cells : List Cell} {m : FileMomfbd τ}
    (h : (c.found reversed).loadTimes mask alignTo 0 (c.bytes reversed) q = some ((cells, m), p)) :
    ∃ ms, Reader.Finds ((c.found reversed).loadModes mask) (c.bytes reversed) ms ∧ cells = c.cells mask alignTo ms ∧
      m.fileNames = c.namesAfter mask [] := by
  obtain ⟨⟨⟨cs, names⟩, p1⟩, hload, h⟩ := Option.bind_eq_some_iff.1 h
  obtain ⟨hcm, -⟩ := Prod.mk.inj (Option.some.inj h)
  obtain ⟨rfl, rfl⟩ := Prod.mk.inj hcm
  obtain ⟨ms, q1, q2, hms, hcells, hnames⟩ := @load_some _ _ c reversed mask alignTo [] q p1 _ _ hload
  exact ⟨ms, finds_of_some hms, hcells, hnames⟩

/-- **Where it makes no difference, both files are read and loaded as the same.** -/
theorem same_of_reversed (h : c.SameReversed mask) : c.SameEitherWay mask alignTo := by
  have hheads : SameHeads true c.patches := fun p hp q => head_true.2 (h.patches p hp)
  obtain ⟨q, hread⟩ := read_bytes (@sameHeads_false _ c.patches)
  obtain ⟨q', hread'⟩ := read_bytes hheads
  have hfound := found_true h.region
  obtain ⟨ms, hms, hms'⟩ := modes_iff.1 h.modes
  refine ⟨c.found false, q, q', hread, hfound ▸ hread', fun k => ?_⟩
  obtain ⟨p, hp⟩ := @finds_loadTimes _ _ c mask alignTo false ms hms h.names k q
  obtain ⟨p', hp'⟩ := @finds_loadTimes _ _ c mask alignTo true ms hms' h.names k q'
  rw [hfound] at hp'
  have hnil := (namesAfter_nil (c := c) h.names).2.symm
  exact ⟨_, _, _, p, p', hp, hp', hnil, hnil⟩

/-- A name that was loaded is longer than the one that was stored. -/
theorem names_of_same (hmask : mask &&& MOMFBD_NAMES ≠ 0)
    (h : c.namesAfter mask [] = asked mask MOMFBD_NAMES (c.names.getD [])) : c.names.getD [] = [] := by
  unfold FileContent.namesAfter asked at h
  cases hnames : c.names with
  | none => rfl
  | some ns =>
    rw [hnames, Option.getD_some] at h
    rw [Option.getD_some]
    dsimp only at h
    rw [if_pos hmask, if_pos hmask, List.nil_append] at h
    cases ns with
    | nil => rfl
    | cons n ns =>
      have hn := congrArg List.length (List.cons.inj h).1
      rw [List.length_append, List.length_singleton] at hn
      omega

/-- **Where both files are read and loaded as the same**, it makes no difference. -/
theorem reversed_of_same (h : c.SameEitherWay mask alignTo) : c.SameReversed mask := by
  obtain ⟨r, q, q', hread, hread', hloads⟩ := h
  obtain ⟨q0, hfound⟩ := read_bytes (@sameHeads_false _ c.patches)
  obtain ⟨rfl, -⟩ := Prod.mk.inj (Option.some.inj (hfound.symm.trans hread))
  rw [read_eq] at hread'
  obtain ⟨⟨ps, p1⟩, hps, hread'⟩ := Option.bind_eq_some_iff.1 hread'
  obtain ⟨⟨names, p2⟩, -, hread'⟩ := Option.bind_eq_some_iff.1 hread'
  have hsame : (c.head true).found ps names = (c.found false).swapped := (Prod.mk.inj (Option.some.inj hread')).1
  have hpatches : ∀ p ∈ c.patches, p.SameReversed :=
    same_of_patches stands_patches hps (congrArg FileMomfbd.patches hsame)
  have hregion : regionVersion ≤ c.version → c.region.SameReversed := by
    intro hversion
    have hroi := congrArg FileMomfbd.region hsame
    change (if regionVersion ≤ c.version then some (c.region.taken true) else none).getD _ =
      (if regionVersion ≤ c.version then some (c.region.taken false) else none).getD _ at hroi
    rw [if_pos hversion, if_pos hversion] at hroi
    exact taken_true.1 hroi
  obtain ⟨cells, m, m', p, p', hload, hload', hnames, -⟩ := hloads 0
  rw [← found_true hregion] at hload'
  obtain ⟨ms, hms, hcells, hbrought⟩ := loadTimes_zero hload
  obtain ⟨ms', hms', hcells', -⟩ := loadTimes_zero hload'
  have hsameModes : ms = ms' := by
    rw [hcells, FileContent.cells, FileContent.cells] at hcells'
    have hfloats := List.append_cancel_right hcells'
    rw [List.map_append, List.map_append] at hfloats
    exact List.map_injective_iff.2 (fun _ _ => Cell.float.inj) (List.append_cancel_left hfloats)
  subst hsameModes
  exact ⟨hregion, hpatches, modes_iff.2 ⟨ms, hms, hms'⟩, fun hmask => names_of_same hmask (hbrought.symm.trans hnames)⟩

/-- **A file and the one with reversed numbers are read and loaded as the same**, with the names that were
written, exactly where what is not put in order is the same, and no names are loaded. -/
theorem sameEitherWay_iff (c : FileContent T) (mask : BitVec 8) (alignTo : ℕ) :
    c.SameEitherWay mask alignTo ↔ c.SameReversed mask :=
  ⟨reversed_of_same, same_of_reversed⟩

end Files

/-! ### A file of one patch -/

section Sample

/-- One pixel of one channel, without any part. -/
def sampleContent : PatchContent (sampleTexts.atof [50, 48, 49, 57, 48, 52, 48, 56]) where
  region := ⟨0, 0, 0, 0⟩
  offx := 0
  offy := 0
  nChannels := 1
  nim := [1]
  dx := [0]
  dy := [0]
  hasImage := 0
  img := []
  npsf := 0
  psf := []
  nobj := 0
  obj := []
  nres := 0
  res := []
  nalpha := 0
  nm := 0
  alpha := []
  ndiv := 0
  nphx := 0
  nphy := 0
  div := []
  nim_length := rfl
  dx_length := rfl
  dy_length := rfl
  img_length := rfl
  psf_length := rfl
  obj_length := rfl
  res_length := rfl
  alpha_length := rfl
  div_length := rfl
  div_size := fun _ hd => absurd hd List.not_mem_nil
  div_version := fun _ => rfl
  nph_version := fun _ => ⟨rfl, rfl⟩

def sampleFileContent : FileContent sampleTexts where
  versionString := [50, 48, 49, 57, 48, 52, 48, 56]
  modified := sampleTexts.to_iso_extended_string ()
  timeString := []
  dateString := []
  modifiedTime := some ()
  region := ⟨0, 0, 0, 0⟩
  modes := none
  nChannels := 1
  clipStartX := [0]
  clipEndX := [0]
  clipStartY := [0]
  clipEndY := [0]
  nPatchesY := 1
  nPatchesX := 1
  nPoints := 1
  patches := [sampleContent]
  names := none
  version_storable := by decide
  modified_storable := by decide
  time_storable := by decide
  date_storable := by decide
  modified_time := fun _ => ⟨(), rfl, by decide⟩
  modified_absent := fun h => absurd (by change (20190408 : ℚ) ≤ ((20190408 : ℕ) : ℚ); norm_num) h
  startX_length := rfl
  endX_length := rfl
  startY_length := rfl
  endY_length := rfl
  patchesY_nonneg := by decide
  patchesX_nonneg := by decide
  patches_length := rfl
  names_length := fun ns hns => absurd hns.symm (Option.some_ne_none ns)
  name_length := fun ns hns => absurd hns.symm (Option.some_ne_none ns)

/-- One channel becomes 2^24 of them. -/
theorem patch_not_same : ¬ ∀ (c : FileContent sampleTexts) (mask : BitVec 8) (alignTo : ℕ),
    c.SameEitherWay mask alignTo := by
  intro h
  have hsame := (reversed_of_same (h sampleFileContent 255 4)).patches sampleContent List.mem_cons_self
  exact absurd hsame.nChannels (by decide)

end Sample

end Redux.MomfbdFile
