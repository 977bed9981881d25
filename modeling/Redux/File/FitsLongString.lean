import Redux.File.FitsHeader

/-!
# File.FitsLongString — long strings in the cards of a FITS header

`splitLongString` cuts a card that is too long into the card of its key and cards with the key `CONTINUE`, after every 67
characters of the quoted text; each part ends with `&`, and the comment follows in the same way.  There are always such
cards, of 80 characters each (`splitLongString_cards`), but the string comes back only if no doubled quote is cut in two
and the last part leaves some room (`splitLongString_iff`).
-/

namespace Redux.File.Fits

open Redux.Lib Redux.Lib.Doubling Redux.Util Redux.Util.Text FileTypeTranslator

/-! ## Model -/

/-- `s.insert( pos, t )`. -/
def insertAt (s : List Char) (pos : ℕ) (t : List Char) : List Char := s.take pos ++ t ++ s.drop pos

/-- `cs`. -/
def endOfPart : List Char := "&'CONTINUE  '".toList

/-- What a card begins with that has nothing but a comment. -/
def emptyPart : List Char := "CONTINUE  ''".toList

/-- The loop over the value: the cards, and what is left. -/
def cutValue (tmpCard : List Char) : List (List Char) × List Char :=
  if 80 < tmpCard.length then
    ((insertAt tmpCard 78 endOfPart).take 80 :: (cutValue ((insertAt tmpCard 78 endOfPart).drop 80)).1,
      (cutValue ((insertAt tmpCard 78 endOfPart).drop 80)).2)
  else ([], tmpCard)
termination_by tmpCard.length
decreasing_by
  all_goals
    rw [insertAt, List.length_drop, List.length_append, List.length_append, List.length_take, List.length_drop,
      show endOfPart.length = 13 from rfl]
    omega

/-- `remainder`, a number without a sign. -/
def remainder (tmpCard : List Char) : ℕ := (2 ^ 64 + 80 - tmpCard.length) % 2 ^ 64

/-- A card with as much of the comment as there is place for, and what is left of that. -/
def withPart (tmpCard comment : List Char) : List Char × List Char :=
  if 5 < remainder tmpCard then
    (tmpCard ++ [' ', '/', ' '] ++ comment.take (remainder tmpCard - 3), comment.drop (remainder tmpCard - 3))
  else (tmpCard, comment)

/-- One round of the loop over the comment: the card, what is left of it and what is left of the comment. -/
def cutCard (tmpCard comment : List Char) : List Char × List Char × List Char :=
  let part := withPart (insertAt tmpCard (tmpCard.length - 1) ['&']) comment
  let tmpCard := resize 80 part.1 ++ emptyPart
  (tmpCard.take 80, tmpCard.drop 80, part.2)

theorem cutCard_eq (tmpCard comment : List Char) : cutCard tmpCard comment =
    (resize 80 (withPart (insertAt tmpCard (tmpCard.length - 1) ['&']) comment).1, emptyPart,
      (withPart (insertAt tmpCard (tmpCard.length - 1) ['&']) comment).2) := by
  rw [cutCard, List.take_left' (length_resize _ _), List.drop_left' (length_resize _ _)]

theorem length_withPart_le (tmpCard comment : List Char) : (withPart tmpCard comment).2.length ≤ comment.length := by
  rw [withPart]
  split
  · rw [List.length_drop]
    omega
  · exact le_rfl

/-- Behind a card with nothing but a comment. -/
theorem cutCard_emptyPart (comment : List Char) : cutCard emptyPart comment =
    (resize 80 ("CONTINUE  '&'".toList ++ [' ', '/', ' '] ++ comment.take 64), emptyPart, comment.drop 64) := by
  rw [cutCard_eq]
  rfl

/-- The loop over the comment. -/
def cutComment (tmpCard comment : List Char) : Option (List (List Char)) :=
  if tmpCard.length + comment.length = 0 then some []
  else if tmpCard.length + comment.length < 78 then
    some [(if tmpCard = emptyPart then tmpCard ++ [' '] else tmpCard) ++ [' ', '/', ' '] ++ comment]
  -- there is no place before the last character of an empty text
  else if tmpCard = [] then none
  else (cutComment (cutCard tmpCard comment).2.1 (cutCard tmpCard comment).2.2).map
    fun ret => (cutCard tmpCard comment).1 :: ret
termination_by 2 * comment.length + if tmpCard = emptyPart then 0 else 1
decreasing_by
  rw [cutCard_eq, if_pos rfl]
  by_cases hempty : tmpCard = emptyPart
  · have hlong : ¬12 + comment.length < 78 := by
      have hlength : tmpCard.length = 12 := by rw [hempty]; rfl
      omega
    rw [hempty, ← cutCard_eq, cutCard_emptyPart, if_pos rfl, List.length_drop]
    omega
  · have hle := length_withPart_le (insertAt tmpCard (tmpCard.length - 1) ['&']) comment
    rw [if_neg hempty]
    dsimp only
    omega

/-- `splitLongString`. -/
def splitLongString (card : List Char) : Option (List (List Char)) :=
  if card.length ≤ 80 ∨ card[8]? ≠ some '=' ∨ card[9]? ≠ some ' ' then some [resize 80 card]
  else match (card.drop 9).dropWhile (· = ' ') with
    | [] => some [resize 80 card]
    | c :: rest =>
      -- the place of the first quote is card.length - (rest.length + 1)
      if c ≠ quote ∨ (upTo quote rest).2 = [] then some [resize 80 card]
      else
        let tmpCard := card.take (card.length - (rest.length + 1) + 1 + (upTo quote rest).1.length + 1)
        let comment := behindSlashes ((upTo quote rest).2.drop 1)
        (cutComment (cutValue tmpCard).2 comment).map fun ret => ((cutValue tmpCard).1 ++ ret).map (resize 80)

/-! ## The cards -/

section Cards

variable {k tmpCard card : List Char} {cs ret : List (List Char)}

/-- The key of the cards that continue a string. -/
def continueKey : List Char := "CONTINUE".toList

/-- A card with the key `k`, and cards that continue it. -/
def Parts (k : List Char) : List (List Char) → Prop
  | [] => True
  | c :: cs => k <+: c ∧ ∀ x ∈ cs, continueKey <+: x

/-- The key of the next card. -/
def nextKey (k : List Char) (cs : List (List Char)) : List Char := if cs = [] then k else continueKey

theorem Parts.append (h : Parts k cs) (hret : Parts (nextKey k cs) ret) : Parts k (cs ++ ret) := by
  cases cs with
  | nil => exact hret
  | cons c cs =>
    refine ⟨h.1, fun x hx => ?_⟩
    rcases List.mem_append.1 hx with hx | hx
    · exact h.2 x hx
    · cases ret with
      | nil => exact absurd hx List.not_mem_nil
      | cons d ret => exact (List.mem_cons.1 hx).elim (fun heq => heq ▸ hret.1) (hret.2 x)

theorem prefix_resize (hk : k.length = 8) (h : k <+: card) : k <+: resize 80 card :=
  List.prefix_take_iff.2 ⟨h.trans (List.prefix_append _ _), by omega⟩

theorem Parts.resize (hk : k.length = 8) (h : Parts k cs) : Parts k (cs.map (Text.resize 80)) := by
  cases cs with
  | nil => trivial
  | cons c cs =>
    refine ⟨prefix_resize hk h.1, fun x hx => ?_⟩
    obtain ⟨y, hy, rfl⟩ := List.mem_map.1 hx
    exact prefix_resize rfl (h.2 y hy)

/-- **One cut**: the card gets `&` and a quote, and what is left a new head. -/
theorem cutValue_of_long (h : 80 < tmpCard.length) : cutValue tmpCard =
    ((tmpCard.take 78 ++ ['&', quote]) :: (cutValue ("CONTINUE  '".toList ++ tmpCard.drop 78)).1,
      (cutValue ("CONTINUE  '".toList ++ tmpCard.drop 78)).2) := by
  have hsplit : insertAt tmpCard 78 endOfPart =
      (tmpCard.take 78 ++ ['&', quote]) ++ ("CONTINUE  '".toList ++ tmpCard.drop 78) := by
    rw [insertAt, show endOfPart = ['&', quote] ++ "CONTINUE  '".toList from rfl, List.append_assoc, List.append_assoc,
      List.append_assoc]
  have hlength : (tmpCard.take 78 ++ ['&', quote]).length = 80 := by
    rw [List.length_append, List.length_take, min_eq_left (by omega)]
    rfl
  rw [cutValue, if_pos h, hsplit, List.take_left' hlength, List.drop_left' hlength]

theorem cutValue_of_short (h : tmpCard.length ≤ 80) : cutValue tmpCard = ([], tmpCard) := by
  rw [cutValue, if_neg (by omega)]

/-- The cards of the value have the keys that they should, and what is left begins with the next. -/
theorem parts_cutValue (hk : k.length = 8) (h : k <+: tmpCard) (hlength : 8 < tmpCard.length) :
    Parts k (cutValue tmpCard).1 ∧ nextKey k (cutValue tmpCard).1 <+: (cutValue tmpCard).2 ∧
      8 < (cutValue tmpCard).2.length := by
  induction hn : tmpCard.length using Nat.strong_induction_on generalizing k tmpCard with
  | _ n ih =>
    by_cases hlong : 80 < tmpCard.length
    · have hnext : continueKey <+: "CONTINUE  '".toList ++ tmpCard.drop 78 := ⟨"  '".toList ++ tmpCard.drop 78, rfl⟩
      have hrest : ("CONTINUE  '".toList ++ tmpCard.drop 78).length = 11 + (tmpCard.length - 78) := by
        rw [List.length_append, List.length_drop]
        rfl
      obtain ⟨hparts, hhead, hleft⟩ := ih _ (by omega) (k := continueKey) rfl hnext (by omega) rfl
      rw [cutValue_of_long hlong]
      refine ⟨⟨?_, ?_⟩, ?_, hleft⟩
      · exact (List.prefix_take_iff.2 ⟨h, by omega⟩).trans (List.prefix_append _ _)
      · cases hcs : (cutValue ("CONTINUE  '".toList ++ tmpCard.drop 78)).1 with
        | nil => exact fun x hx => absurd hx List.not_mem_nil
        | cons c cs =>
          rw [hcs] at hparts
          exact fun x hx => (List.mem_cons.1 hx).elim (fun heq => heq ▸ hparts.1) (hparts.2 x)
      · have hsame : nextKey continueKey (cutValue ("CONTINUE  '".toList ++ tmpCard.drop 78)).1 = continueKey := ite_self _
        rw [hsame] at hhead
        exact hhead
    · rw [cutValue_of_short (by omega)]
      exact ⟨trivial, h, hlength⟩

/-- The comment is put into cards too, at least one. -/
theorem parts_cutComment (comment : List Char) (hk : k.length = 8) (h : k <+: tmpCard) (hlength : 8 < tmpCard.length) :
    ∃ c ret, cutComment tmpCard comment = some (c :: ret) ∧ Parts k (c :: ret) := by
  induction tmpCard, comment using cutComment.induct generalizing k with
  | case1 tmpCard comment hzero => omega
  | case2 tmpCard comment hzero hshort =>
    have hcut := cutComment.eq_1 tmpCard comment
    rw [if_neg hzero, if_pos hshort] at hcut
    refine ⟨_, [], hcut, ?_, fun x hx => absurd hx List.not_mem_nil⟩
    · rw [List.append_assoc]
      refine List.IsPrefix.trans ?_ (List.prefix_append _ _)
      split
      · exact h.trans (List.prefix_append _ _)
      · exact h
  | case3 comment hzero hshort => exact absurd hlength (by simp)
  | case4 tmpCard comment hzero hshort hne ih =>
    rw [cutCard_eq] at ih
    have hhead : continueKey <+: emptyPart := by decide
    have hlong : 8 < emptyPart.length := by decide
    obtain ⟨c, ret, hcut, hparts⟩ := ih (k := continueKey) rfl hhead hlong
    refine ⟨(cutCard tmpCard comment).1, c :: ret, ?_, ?_, fun x hx => ?_⟩
    · rw [cutComment, if_neg hzero, if_neg hshort, if_neg hne, cutCard_eq, hcut, Option.map_some]
    · have hinsert : k <+: insertAt tmpCard (tmpCard.length - 1) ['&'] := by
        rw [insertAt, List.append_assoc]
        exact (List.prefix_take_iff.2 ⟨h, by omega⟩).trans (List.prefix_append _ _)
      rw [cutCard_eq, withPart]
      refine prefix_resize hk ?_
      split
      · rw [List.append_assoc]
        exact hinsert.trans (List.prefix_append _ _)
      · exact hinsert
    · exact (List.mem_cons.1 hx).elim (fun heq => heq ▸ hparts.1) (hparts.2 x)

theorem take_eq_of_prefix (hk : k.length = 8) (h : k <+: card) : card.take 8 = k := by
  rw [← hk]
  exact (List.prefix_iff_eq_take.1 h).symm

/-- **The cards are 80 characters long**: the first has the key of the card, and all others are `CONTINUE` cards. -/
theorem splitLongString_cards (h : 8 ≤ card.length) : ∃ c ret, splitLongString card = some (c :: ret) ∧
    (c.length = 80 ∧ c.take 8 = card.take 8) ∧ ∀ x ∈ ret, x.length = 80 ∧ x.take 8 = continueKey := by
  have hk : (card.take 8).length = 8 := by rw [List.length_take, min_eq_left h]
  have hparts : ∀ {cs : List (List Char)}, cs ≠ [] → splitLongString card = some (cs.map (Text.resize 80)) →
      Parts (card.take 8) cs → ∃ c ret, splitLongString card = some (c :: ret) ∧
        (c.length = 80 ∧ c.take 8 = card.take 8) ∧ ∀ x ∈ ret, x.length = 80 ∧ x.take 8 = continueKey := by
    intro cs hne hcs hparts
    obtain ⟨c, ret, rfl⟩ := List.exists_cons_of_ne_nil hne
    have hresize := hparts.resize hk
    refine ⟨_, _, hcs, ⟨length_resize _ _, take_eq_of_prefix hk hresize.1⟩, fun x hx => ⟨?_, ?_⟩⟩
    · obtain ⟨y, -, rfl⟩ := List.mem_map.1 hx
      exact length_resize _ _
    · exact take_eq_of_prefix rfl (hresize.2 x hx)
  have hone : Parts (card.take 8) [card] := ⟨List.take_prefix 8 card, fun x hx => absurd hx List.not_mem_nil⟩
  have hwhole : splitLongString card = some [resize 80 card] → _ := fun hsplit =>
    hparts (List.cons_ne_nil card []) hsplit hone
  by_cases hfield : card.length ≤ 80 ∨ card[8]? ≠ some '=' ∨ card[9]? ≠ some ' '
  · exact hwhole (by rw [splitLongString, if_pos hfield])
  · have hunfold := splitLongString.eq_1 card
    rw [if_neg hfield] at hunfold
    cases hvalue : (card.drop 9).dropWhile (fun c => decide (c = ' ')) with
    | nil =>
      rw [hvalue] at hunfold
      exact hwhole hunfold
    | cons c rest =>
      rw [hvalue] at hunfold
      dsimp only at hunfold
      by_cases hquote : c ≠ quote ∨ (upTo quote rest).2 = []
      · rw [if_pos hquote] at hunfold
        exact hwhole hunfold
      · rw [if_neg hquote] at hunfold
        have hpos : rest.length + 1 ≤ card.length - 9 := by
          have hsuffix := (List.dropWhile_suffix (fun c => decide (c = ' ')) (l := card.drop 9)).length_le
          rw [hvalue, List.length_cons, List.length_drop] at hsuffix
          exact hsuffix
        have hprefix : card.take 8 <+:
            card.take (card.length - (rest.length + 1) + 1 + (upTo quote rest).1.length + 1) :=
          List.prefix_take_iff.2 ⟨List.take_prefix 8 card, by omega⟩
        obtain ⟨hcut, hnext, hleft⟩ := parts_cutValue hk hprefix (by rw [List.length_take]; omega)
        have hnextlength : ∀ cs : List (List Char), (nextKey (card.take 8) cs).length = 8 := fun cs => by
          rw [nextKey]
          split
          · exact hk
          · rfl
        obtain ⟨c, ret, hcomment, hret⟩ :=
          parts_cutComment (behindSlashes ((upTo quote rest).2.drop 1)) (hnextlength _) hnext hleft
        rw [hcomment, Option.map_some] at hunfold
        exact hparts (List.append_ne_nil_of_right_ne_nil _ (List.cons_ne_nil _ _)) hunfold (hcut.append hret)

end Cards

/-! ## Parts of a string -/

section Parts

/-- A text in quotes, behind the ten characters that a card begins with. -/
def part (head x : List Char) : List Char := head ++ (quote :: x ++ [quote])

def continueHead : List Char := "CONTINUE  ".toList

/-- Where a text is cut: after every 67 characters, while there are more than 68. -/
def pieces (x : List Char) : List (List Char) × List Char :=
  if 68 < x.length then (x.take 67 :: (pieces (x.drop 67)).1, (pieces (x.drop 67)).2) else ([], x)
termination_by x.length
decreasing_by all_goals rw [List.length_drop]; omega

/-- The cards of the pieces. -/
def partCards (head : List Char) : List (List Char) → List (List Char)
  | [] => []
  | p :: ps => part head (p ++ ['&']) :: partCards continueHead ps

variable {head x : List Char}

theorem length_part (hhead : head.length = 10) : (part head x).length = 12 + x.length := by
  rw [part, List.length_append, List.length_append, hhead, List.length_cons, List.length_singleton]
  omega

theorem pieces_of_long (h : 68 < x.length) :
    pieces x = (x.take 67 :: (pieces (x.drop 67)).1, (pieces (x.drop 67)).2) := by rw [pieces, if_pos h]

theorem pieces_of_short (h : x.length ≤ 68) : pieces x = ([], x) := by rw [pieces, if_neg (by omega)]

/-- Nothing is lost. -/
theorem flatten_pieces (x : List Char) : (pieces x).1.flatten ++ (pieces x).2 = x := by
  induction x using pieces.induct with
  | case1 x h ih => rw [pieces_of_long h, List.flatten_cons, List.append_assoc, ih, List.take_append_drop]
  | case2 x h => rw [pieces_of_short (by omega), List.flatten_nil, List.nil_append]

theorem length_pieces (x : List Char) : (∀ p ∈ (pieces x).1, p.length = 67) ∧ (pieces x).2.length ≤ 68 := by
  induction x using pieces.induct with
  | case1 x h ih =>
    rw [pieces_of_long h]
    refine ⟨fun p hp => ?_, ih.2⟩
    rcases List.mem_cons.1 hp with rfl | hp
    · rw [List.length_take, min_eq_left (by omega)]
    · exact ih.1 p hp
  | case2 x h =>
    rw [pieces_of_short (by omega)]
    exact ⟨fun p hp => absurd hp List.not_mem_nil, not_lt.1 h⟩

/-- What the card of the last piece begins with. -/
def lastHead (head : List Char) (ps : List (List Char)) : List Char := if ps = [] then head else continueHead

/-- **The value is cut into its pieces.** -/
theorem cutValue_part (hhead : head.length = 10) : cutValue (part head x) =
    (partCards head (pieces x).1, part (lastHead head (pieces x).1) (pieces x).2) := by
  induction x using pieces.induct generalizing head with
  | case1 x h ih =>
    have htake : (part head x).take 78 = head ++ quote :: x.take 67 := by
      rw [part, List.take_append, hhead, List.take_of_length_le (by omega), List.cons_append, List.take_succ_cons,
        List.take_append_of_le_length (by omega)]
    have hdrop : (part head x).drop 78 = x.drop 67 ++ [quote] := by
      rw [part, List.drop_append, hhead, List.drop_of_length_le (by omega), List.nil_append, List.cons_append,
        List.drop_succ_cons, List.drop_append_of_le_length (by omega)]
    have hcard : head ++ quote :: x.take 67 ++ ['&', quote] = part head (x.take 67 ++ ['&']) := by
      rw [part]
      simp only [List.append_assoc, List.cons_append, List.nil_append]
    have hrest : "CONTINUE  '".toList ++ (x.drop 67 ++ [quote]) = part continueHead (x.drop 67) := rfl
    rw [cutValue_of_long (by rw [length_part hhead]; omega), htake, hdrop, hcard, hrest, ih rfl, pieces_of_long h, lastHead,
      ite_self, lastHead, if_neg (List.cons_ne_nil _ _)]
    rfl
  | case2 x h =>
    rw [cutValue_of_short (by rw [length_part hhead]; omega), pieces_of_short (by omega)]
    rfl

end Parts

/-! ## What is read of them -/

section Reading

variable {head x comment F : List Char} {hdr ret : List (List Char)}

/-- The head of a card that may stand before a text. -/
structure Head (head : List Char) : Prop where
  length : head.length = 10
  slash : '/' ∉ head

theorem head_continueHead : Head continueHead := ⟨rfl, by decide⟩

/-- The text of a card. -/
def textIn (card : List Char) : List Char := trimStringValue (beforeComment card)

/-- **A part is read** between its quotes, with only blanks before a comment. -/
theorem textIn_part (hhead : Head head) (hx : '/' ∉ x) (hlength : x.length ≤ 68) (behind : List Char)
    (hblank : ∀ n, BlankBefore (behind ++ List.replicate n ' ')) :
    textIn (resize 80 (part head x ++ behind)) = single quote x := by
  have hpart := length_part (x := x) hhead.length
  have hle : (part head x).length ≤ 80 := by omega
  obtain ⟨tail, htail, htailblank⟩ := resize_append hle (hblank _)
  obtain ⟨n, hn⟩ := takeWhile_of_blankBefore htailblank
  have hpos : ∀ c ∈ quote :: x ++ [quote], decide (c ≠ '/') = true := fun c hc => by
    refine decide_eq_true fun heq => ?_
    rw [heq, List.mem_append, List.mem_cons, List.mem_singleton] at hc
    rcases hc with (hc | hc) | hc
    · exact absurd hc (by decide)
    · exact hx hc
    · exact absurd hc (by decide)
  rw [textIn, htail, part, List.append_assoc, beforeComment_append hhead.length hhead.slash,
    List.takeWhile_append_of_pos hpos, hn, trimStringValue_closed]

theorem blankBefore_blanks (n : ℕ) : BlankBefore ([] ++ List.replicate n ' ') := by
  have hblank := blankBefore_append n blankBefore_nil
  rwa [List.append_nil] at hblank

theorem blankBefore_slash (m : ℕ) (s : List Char) : BlankBefore (List.replicate m ' ' ++ '/' :: s) :=
  blankBefore_append m fun c hc => by
    rw [List.takeWhile_cons_of_neg (by simp)] at hc
    exact absurd hc List.not_mem_nil

/-- The text of the cards together, if each of them continues the one before. -/
def joined : List (List Char) → List Char → Option (List Char × List (List Char))
  | [], F => continued [] F
  | c :: hdr, F => continued hdr (F ++ textIn c)

/-- A text that is continued is joined with what comes. -/
theorem continued_eq_joined (hkey : ∀ c ∈ hdr.head?, c.take 8 = continueKey) (F : List Char) :
    continued hdr (F ++ ['&']) = joined hdr F := by
  cases hdr with
  | nil => rw [continued, joined, continued, List.rdropWhile_concat_pos _ _ _ (by decide)]
  | cons c hdr =>
    have hcontinue : iequals (c.take 8) "CONTINUE".toList = true := by rw [hkey c rfl]; rfl
    rw [continued, if_neg (by simp), if_pos List.getLast?_concat, List.dropLast_concat, if_pos hcontinue]
    rfl

theorem resize_resize (s : List Char) : resize 80 (resize 80 s) = resize 80 s := by
  rw [resize_of_ge (length_resize 80 s).ge, List.take_of_length_le (length_resize 80 s).le]

/-- A comment with its separator. -/
theorem blankBefore_separator (comment : List Char) (n : ℕ) :
    BlankBefore ([' ', '/', ' '] ++ comment ++ List.replicate n ' ') := blankBefore_slash 1 _

theorem cutComment_emptyPart (comment : List Char) : cutComment emptyPart comment =
    if 12 + comment.length < 78 then some [part continueHead [] ++ ([' '] ++ ([' ', '/', ' '] ++ comment))]
    else (cutComment emptyPart (comment.drop 64)).map fun ret =>
      resize 80 (part continueHead ['&'] ++ ([' ', '/', ' '] ++ comment.take 64)) :: ret := by
  have hzero : ¬emptyPart.length + comment.length = 0 := fun h => absurd (Nat.add_eq_zero_iff.1 h).1 (by decide)
  have hne : emptyPart ≠ [] := by decide
  have hunfold := cutComment.eq_1 emptyPart comment
  rw [if_neg hzero, if_pos rfl, if_neg hne, cutCard_emptyPart, List.append_assoc, List.append_assoc] at hunfold
  exact hunfold

theorem take_head_resize {k : List Char} (hk : k.length = 8) {cs : List (List Char)} (h : Parts k cs) :
    ∀ c ∈ (cs.map (Text.resize 80)).head?, c.take 8 = k := by
  cases cs with
  | nil => exact fun c hc => absurd hc (by simp)
  | cons d cs =>
    intro c hc
    obtain rfl : Text.resize 80 d = c := Option.some.inj hc
    exact take_eq_of_prefix hk (prefix_resize hk h.1)

/-- **The cards of the comment** continue the text, and add nothing to it. -/
theorem continued_comment {comment : List Char} {ret : List (List Char)} (h : cutComment emptyPart comment = some ret)
    (F : List Char) : continued (ret.map (resize 80)) (F ++ ['&']) = continued [] F := by
  induction hn : comment.length using Nat.strong_induction_on generalizing comment ret F with
  | _ n ih =>
    have hhead : continueKey <+: emptyPart := by decide
    obtain ⟨c, cs, hcs, hparts⟩ := parts_cutComment comment (k := continueKey) rfl hhead (by decide)
    obtain rfl : c :: cs = ret := Option.some.inj (hcs.symm.trans h)
    rw [continued_eq_joined (take_head_resize rfl hparts), List.map_cons, joined]
    rw [cutComment_emptyPart] at h
    split at h
    · obtain ⟨rfl, rfl⟩ := List.cons.inj (Option.some.inj h)
      have htext := textIn_part head_continueHead (x := []) List.not_mem_nil (by simp)
        ([' '] ++ ([' ', '/', ' '] ++ comment)) fun n => blankBefore_slash 2 _
      rw [htext, single, List.append_nil, List.map_nil]
    · obtain ⟨ret, hret, hcons⟩ := Option.map_eq_some_iff.1 h
      obtain ⟨rfl, rfl⟩ := List.cons.inj hcons
      have htext := textIn_part head_continueHead (x := ['&']) (by decide) (by simp)
        ([' ', '/', ' '] ++ comment.take 64) (blankBefore_separator _)
      rw [resize_resize, htext, show single quote ['&'] = ['&'] from rfl]
      exact ih _ (by rw [List.length_drop]; omega) hret F rfl

/-! ### The last piece -/

theorem insertAt_part (head x : List Char) :
    insertAt (part head x) ((part head x).length - 1) ['&'] = part head (x ++ ['&']) := by
  have hsplit : part head x = (head ++ quote :: x) ++ [quote] := (List.append_assoc _ _ _).symm
  have hlength : (part head x).length - 1 = (head ++ quote :: x).length := by
    rw [hsplit, List.length_append, List.length_singleton, Nat.add_sub_cancel]
  rw [insertAt, hlength, hsplit, List.take_left, List.drop_left, part]
  simp only [List.append_assoc, List.cons_append, List.nil_append]

/-- The cards of the last piece: one with the rest of the comment, or one with a part of it and others. -/
theorem cutComment_part (hhead : Head head) (x comment : List Char) : cutComment (part head x) comment =
    if 12 + x.length + comment.length < 78 then
      some [(if part head x = emptyPart then part head x ++ [' '] else part head x) ++ [' ', '/', ' '] ++ comment]
    else (cutComment emptyPart (withPart (part head (x ++ ['&'])) comment).2).map
      fun ret => resize 80 (withPart (part head (x ++ ['&'])) comment).1 :: ret := by
  have hlength := length_part (x := x) hhead.length
  have hzero : ¬(part head x).length + comment.length = 0 := by omega
  have hne : part head x ≠ [] := List.ne_nil_of_length_pos (by omega)
  have hunfold := cutComment.eq_1 (part head x) comment
  rw [if_neg hzero, if_neg hne, cutCard_eq, insertAt_part, hlength] at hunfold
  exact hunfold

/-- **The last piece is joined**, if its card has place for `&`. -/
theorem joined_cutComment (hhead : Head head) (hx : '/' ∉ x) (hlength : x.length ≤ 67)
    (h : cutComment (part head x) comment = some ret) (F : List Char) :
    joined (ret.map (resize 80)) F = continued [] (F ++ single quote x) := by
  rw [cutComment_part hhead] at h
  split at h
  · obtain rfl := Option.some.inj h
    have htext : textIn (resize 80 ((if part head x = emptyPart then part head x ++ [' '] else part head x) ++
        [' ', '/', ' '] ++ comment)) = single quote x := by
      split
      · rw [List.append_assoc, List.append_assoc]
        exact textIn_part hhead hx (by omega) _ fun n => blankBefore_slash 2 _
      · rw [List.append_assoc]
        exact textIn_part hhead hx (by omega) _ (blankBefore_separator _)
    rw [List.map_singleton, joined, htext]
  · obtain ⟨ret, hret, rfl⟩ := Option.map_eq_some_iff.1 h
    have hslash : '/' ∉ x ++ ['&'] := fun hmem => (List.mem_append.1 hmem).elim hx (by decide)
    have hle : (x ++ ['&']).length ≤ 68 := by
      rw [List.length_append, List.length_singleton]
      omega
    have htext : textIn (resize 80 (withPart (part head (x ++ ['&'])) comment).1) = single quote (x ++ ['&']) := by
      rw [withPart]
      split
      · rw [List.append_assoc]
        exact textIn_part hhead hslash hle _ (blankBefore_separator _)
      · have hplain := textIn_part hhead hslash hle [] blankBefore_blanks
        rwa [List.append_nil] at hplain
    rw [List.map_cons, joined, resize_resize, htext, single_append_of_ne (by decide), ← List.append_assoc,
      continued_comment hret]

/-- **The last piece is not ended**, if its card has no place for `&`. -/
theorem cutComment_full (hhead : Head head) (hx : '/' ∉ x) (hlength : x.length = 68)
    (h : cutComment (part head x) comment = some ret) : ∃ c rest comment', ret = c :: rest ∧
      cutComment emptyPart comment' = some rest ∧
      textIn (resize 80 c) = single quote (x.rdropWhile (· ≠ quote)).dropLast := by
  rw [cutComment_part hhead, if_neg (by omega)] at h
  obtain ⟨ret, hret, rfl⟩ := Option.map_eq_some_iff.1 h
  refine ⟨_, ret, _, rfl, hret, ?_⟩
  have hsplit : part head (x ++ ['&']) = (head ++ quote :: (x ++ ['&'])) ++ [quote] := (List.append_assoc _ _ _).symm
  have h80 : (head ++ quote :: (x ++ ['&'])).length = 80 := by
    rw [List.length_append, hhead.length, List.length_cons, List.length_append, hlength]
    rfl
  -- the quote at the end is cut off, whatever is behind it
  have hcut : ∀ behind, resize 80 (part head (x ++ ['&']) ++ behind) = head ++ quote :: (x ++ ['&']) := fun behind => by
    rw [hsplit, List.append_assoc, resize_of_ge (by rw [List.length_append]; omega), List.take_left' h80]
  have hcard : resize 80 (withPart (part head (x ++ ['&'])) comment).1 = head ++ quote :: (x ++ ['&']) := by
    rw [withPart]
    split
    · rw [List.append_assoc]
      exact hcut _
    · have hplain := hcut []
      rwa [List.append_nil] at hplain
  have hall : ∀ c ∈ quote :: (x ++ ['&']), decide (c ≠ '/') = true := fun c hc => by
    refine decide_eq_true fun heq => ?_
    rw [heq, List.mem_cons, List.mem_append, List.mem_singleton] at hc
    rcases hc with hc | hc | hc
    · exact absurd hc (by decide)
    · exact hx hc
    · exact absurd hc (by decide)
  rw [resize_resize, hcard, textIn, beforeComment_append hhead.length hhead.slash, List.takeWhile_eq_self_iff.2 hall,
    trimStringValue_quote, List.rdropWhile_concat_pos _ _ _ (by decide)]

end Reading

/-! ## The string again -/

section String

variable {k w behind : List Char} {ret : List (List Char)}

theorem parts_partCards {head : List Char} (h : k <+: head) (ps : List (List Char)) : Parts k (partCards head ps) := by
  have hcontinue : ∀ ps : List (List Char), ∀ x ∈ partCards continueHead ps, continueKey <+: x := fun ps => by
    induction ps with
    | nil => exact fun x hx => absurd hx List.not_mem_nil
    | cons p ps ih =>
      intro x hx
      rcases List.mem_cons.1 hx with rfl | hx
      · exact ⟨"  ".toList ++ (quote :: (p ++ ['&']) ++ [quote]), rfl⟩
      · exact ih x hx
  cases ps with
  | nil => trivial
  | cons p ps => exact ⟨h.trans (List.prefix_append _ _), hcontinue ps⟩

/-- **The pieces are joined**, up to the cards of the last one. -/
theorem joined_partCards {head : List Char} (hhead : Head head) {ps : List (List Char)}
    (hps : ∀ p ∈ ps, p.length = 67 ∧ '/' ∉ p) (hret : ps ≠ [] → Parts continueKey ret) (F : List Char) :
    joined ((partCards head ps ++ ret).map (resize 80)) F =
      joined (ret.map (resize 80)) (F ++ ps.flatMap (single quote)) := by
  induction ps generalizing head F with
  | nil => rw [partCards, List.nil_append, List.flatMap_nil, List.append_nil]
  | cons p ps ih =>
    obtain ⟨hlength, hslash⟩ := hps p List.mem_cons_self
    have hmem : '/' ∉ p ++ ['&'] := fun hmem => (List.mem_append.1 hmem).elim hslash (by decide)
    have hle : (p ++ ['&']).length ≤ 68 := by rw [List.length_append, hlength]; rfl
    have htext := textIn_part hhead hmem hle [] blankBefore_blanks
    have hnext : Parts continueKey (partCards continueHead ps ++ ret) :=
      (parts_partCards (k := continueKey) (by decide) ps).append
        (by rw [nextKey, ite_self]; exact hret (List.cons_ne_nil _ _))
    rw [List.append_nil] at htext
    rw [partCards, List.cons_append, List.map_cons, joined, htext, single_append_of_ne (by decide), ← List.append_assoc,
      continued_eq_joined (take_head_resize rfl hnext),
      ih head_continueHead (fun x hx => hps x (List.mem_cons_of_mem p hx)) fun _ => hret (List.cons_ne_nil _ _),
      List.flatMap_cons, List.append_assoc]

/-- **What `splitLongString` does** with a card of a string that is too long. -/
theorem splitLongString_part (hk : k.length = 8) (hbehind : behind.head? ≠ some quote)
    (hlong : 80 < (part (k ++ ['=', ' ']) (double quote w) ++ behind).length) :
    splitLongString (part (k ++ ['=', ' ']) (double quote w) ++ behind) =
      (cutComment (cutValue (part (k ++ ['=', ' ']) (double quote w))).2 (behindSlashes behind)).map
        fun ret => ((cutValue (part (k ++ ['=', ' ']) (double quote w))).1 ++ ret).map (resize 80) := by
  have hshape : part (k ++ ['=', ' ']) (double quote w) ++ behind =
      k ++ '=' :: ' ' :: quote :: (double quote w ++ quote :: behind) := by
    rw [part]
    simp only [List.append_assoc, List.cons_append, List.nil_append]
  have hunfold := splitLongString.eq_1 (part (k ++ ['=', ' ']) (double quote w) ++ behind)
  have heq : (part (k ++ ['=', ' ']) (double quote w) ++ behind)[8]? = some '=' := by
    rw [hshape, List.getElem?_append_right hk.le, hk]
    rfl
  have hblank : (part (k ++ ['=', ' ']) (double quote w) ++ behind)[9]? = some ' ' := by
    rw [hshape, List.getElem?_append_right (by omega), hk]
    rfl
  have hdrop : (part (k ++ ['=', ' ']) (double quote w) ++ behind).drop 9 =
      ' ' :: quote :: (double quote w ++ quote :: behind) := by
    rw [hshape]
    exact drop_behind hk 1 _
  have hfield : ¬((part (k ++ ['=', ' ']) (double quote w) ++ behind).length ≤ 80 ∨
      (part (k ++ ['=', ' ']) (double quote w) ++ behind)[8]? ≠ some '=' ∨
      (part (k ++ ['=', ' ']) (double quote w) ++ behind)[9]? ≠ some ' ') := by
    rintro (h | h | h)
    · omega
    · exact h heq
    · exact h hblank
  have hquote : ¬(quote ≠ quote ∨ (quote :: behind : List Char) = []) := by
    rintro (h | h)
    · exact h rfl
    · exact absurd h (List.cons_ne_nil _ _)
  rw [if_neg hfield, hdrop, List.dropWhile_cons_of_pos (by decide), List.dropWhile_cons_of_neg (by decide)] at hunfold
  dsimp only at hunfold
  rw [upTo_double hbehind] at hunfold
  have htake : (part (k ++ ['=', ' ']) (double quote w) ++ behind).take
      ((part (k ++ ['=', ' ']) (double quote w) ++ behind).length - ((double quote w ++ quote :: behind).length + 1) + 1 +
        (double quote w).length + 1) = part (k ++ ['=', ' ']) (double quote w) := by
    refine List.take_left' ?_
    rw [hshape, length_part (by rw [List.length_append, hk]; rfl)]
    simp only [List.length_append, List.length_cons, hk]
    omega
  dsimp only at hunfold
  rw [if_neg hquote, htake] at hunfold
  exact hunfold

/-- A text that does not end with `&` is the end. -/
theorem continued_of_not_mem {G : List Char} (h : '&' ∉ G) (hdr : List (List Char)) :
    continued hdr G = if G = [] then none else some (G, hdr) := by
  split
  next hnil => rw [hnil, continued_nil]
  next hne => exact continued_of_plain hne (fun hlast => h (List.mem_of_getLast? hlast)) hdr

theorem getStringValue_joined {name c : List Char} {hdr : List (List Char)} (h : named name c = true) :
    getStringValue (c :: hdr) name = (joined (c :: hdr) []).bind fun found => stringFrom name found.2 found.1 :=
  stringFrom_cons_of_named h

/-- What the cut leaves of the characters of a string. -/
theorem not_mem_pieces {c : Char} (hc : c ≠ quote) (h : c ∉ w) : (∀ p ∈ (pieces (double quote w)).1, c ∉ p) ∧
    c ∉ (pieces (double quote w)).2 := by
  have hdouble : c ∉ double quote w := fun hmem => h ((mem_double hc).1 hmem)
  rw [← flatten_pieces (double quote w), List.mem_append, not_or] at hdouble
  exact ⟨fun p hp hmem => hdouble.1 (List.mem_flatten.2 ⟨p, hp, hmem⟩), hdouble.2⟩

/-- The cards of the comment have no text of their own: they are not looked at, or are read as one that is not
defined. -/
theorem stringFrom_comment {key name comment G : List Char} (hk : makeKey key = some k)
    (hname : iequals k (resize 8 name) = true) (h : cutComment emptyPart comment = some ret) :
    stringFrom name (ret.map (resize 80)) G = if k = continueKey then none else some G := by
  have hhead : continueKey <+: emptyPart := by decide
  obtain ⟨c, cs, hcs, hparts⟩ := parts_cutComment comment (k := continueKey) rfl hhead (by decide)
  obtain rfl : c :: cs = ret := Option.some.inj (hcs.symm.trans h)
  have htake : ∀ x ∈ (c :: cs).map (Text.resize 80), x.take 8 = continueKey := fun x hx => by
    obtain ⟨y, hy, rfl⟩ := List.mem_map.1 hx
    exact take_eq_of_prefix rfl (prefix_resize rfl ((List.mem_cons.1 hy).elim (fun heq => heq ▸ hparts.1) (hparts.2 y)))
  rw [iequals, decide_eq_true_eq, toUpper_makeKey hk] at hname
  split
  next heq =>
    have hnamed : named name (resize 80 c) = true := by
      rw [named, htake _ List.mem_cons_self, iequals, ← hname, heq]
      rfl
    have hnone := continued_comment h []
    rw [continued_eq_joined (take_head_resize rfl hparts), List.map_cons] at hnone
    rw [List.map_cons, stringFrom_cons_of_named hnamed]
    exact (congrArg (Option.bind · _) hnone).trans (by rw [continued_nil, Option.bind_none])
  next hne =>
    refine stringFrom_of_forall fun x hx => ?_
    rw [named, htake x hx, iequals, ← hname]
    exact decide_eq_false fun heq => hne heq.symm

/-- When a string comes back from the cards that it is cut into: no doubled quote is cut in two, and the last piece has
place for its end, or the quote that is missing there is the last character itself. -/
def Whole (k w : List Char) : Prop :=
  (∀ p ∈ (pieces (double quote w)).1, p.count quote % 2 = 0) ∧
    ((pieces (double quote w)).2.length = 68 → w.getLast? = some quote ∧ k ≠ continueKey)

theorem amp_not_mem_read (h : '&' ∉ w) :
    '&' ∉ (pieces (double quote w)).1.flatMap (single quote) := fun hmem => by
  obtain ⟨p, hp, hmem⟩ := List.mem_flatMap.1 hmem
  exact (not_mem_pieces (by decide) h).1 p hp (mem_of_mem_single hmem)

/-- **A string of which the last piece has place for its end** comes back exactly if no doubled quote is cut. -/
theorem getString_short_iff {name head comment : List Char} (hhead : Head head) (hslash : '/' ∉ w) (hamp : '&' ∉ w)
    (hshort : (pieces (double quote w)).2.length ≤ 67)
    (hret : cutComment (part head (pieces (double quote w)).2) comment = some ret) :
    ((joined (ret.map (resize 80)) ((pieces (double quote w)).1.flatMap (single quote))).bind fun found =>
        stringFrom name found.2 found.1) = some w ↔
      w ≠ [] ∧ ∀ p ∈ (pieces (double quote w)).1, p.count quote % 2 = 0 := by
  have hampG : '&' ∉ (pieces (double quote w)).1.flatMap (single quote) ++ single quote (pieces (double quote w)).2 :=
    fun hmem => (List.mem_append.1 hmem).elim (amp_not_mem_read hamp) fun hmem =>
      (not_mem_pieces (by decide) hamp).2 (mem_of_mem_single hmem)
  rw [joined_cutComment hhead (not_mem_pieces (by decide) hslash).2 hshort hret, continued_of_not_mem hampG,
    ← flatMap_single_append_iff (flatten_pieces (double quote w))]
  split
  next hnil =>
    rw [Option.bind_none, hnil]
    exact ⟨fun h => absurd h (by simp), fun ⟨hne, heq⟩ => absurd heq.symm hne⟩
  next hne =>
    rw [Option.bind_some, stringFrom, Option.some.injEq]
    exact ⟨fun heq => ⟨heq ▸ hne, heq⟩, fun h => h.2⟩

/-- **A string of which the last piece fills its card** loses its end: it comes back if the quote that is missing there is
its own, and the cards of the comment are not taken for more of it. -/
theorem getString_full_iff {key name head comment : List Char} (hk : makeKey key = some k)
    (hname : iequals k (resize 8 name) = true) (hhead : Head head) (hslash : '/' ∉ w) (hamp : '&' ∉ w)
    (hfull : (pieces (double quote w)).2.length = 68)
    (hret : cutComment (part head (pieces (double quote w)).2) comment = some ret) :
    ((joined (ret.map (resize 80)) ((pieces (double quote w)).1.flatMap (single quote))).bind fun found =>
        stringFrom name found.2 found.1) = some w ↔
      (∀ p ∈ (pieces (double quote w)).1, p.count quote % 2 = 0) ∧ w.getLast? = some quote ∧ k ≠ continueKey := by
  obtain ⟨d, rest, comment', rfl, hrest, htext⟩ :=
    cutComment_full hhead (not_mem_pieces (by decide) hslash).2 hfull hret
  have hampG : '&' ∉ (pieces (double quote w)).1.flatMap (single quote) ++
      single quote ((pieces (double quote w)).2.rdropWhile (· ≠ quote)).dropLast := fun hmem =>
    (List.mem_append.1 hmem).elim (amp_not_mem_read hamp) fun hmem => (not_mem_pieces (by decide) hamp).2
      ((List.rdropWhile_prefix _ _).subset ((List.dropLast_sublist _).subset (mem_of_mem_single hmem)))
  have hopen := flatMap_single_open_iff (flatten_pieces (double quote w)) (List.ne_nil_of_length_pos (by omega))
    (by omega)
  rw [List.map_cons, joined, htext, continued_of_not_mem hampG]
  split
  next hnil =>
    rw [Option.bind_none]
    refine ⟨fun h => absurd h (by simp), fun ⟨heven, hlast, _⟩ => ?_⟩
    obtain rfl := hnil.symm.trans (hopen.2 ⟨heven, hlast⟩)
    exact absurd hlast (by simp)
  next hG =>
    rw [Option.bind_some, stringFrom_comment hk hname hrest]
    split
    next heq => exact ⟨fun h => absurd h (by simp), fun h => absurd heq h.2.2⟩
    next hkne =>
      rw [Option.some.injEq, hopen]
      exact ⟨fun h => ⟨h.1, h.2, hkne⟩, fun h => ⟨h.1, h.2.1⟩⟩

/-- **A string that is too long comes back from its cards exactly if it is whole.** -/
theorem getStringValue_split_iff {key name card c : List Char} {hdr : List (List Char)} (hk : makeKey key = some k)
    (hslash : '/' ∉ w) (hamp : '&' ∉ w) (hcard : card = part (k ++ ['=', ' ']) (double quote w) ++ behind)
    (hbehind : behind.head? ≠ some quote) (hlong : 80 < card.length) (hsplit : splitLongString card = some (c :: hdr))
    (hc : c.take 8 = k) (hname : iequals k (resize 8 name) = true) :
    getStringValue (c :: hdr) name = some w ↔ w ≠ [] ∧ Whole k w := by
  have hlength := length_makeKey hk
  have hhead : Head (k ++ ['=', ' ']) := by
    refine ⟨by rw [List.length_append, hlength]; rfl, fun hmem => ?_⟩
    exact (List.mem_append.1 hmem).elim (slash_not_mem_makeKey hk) (by decide)
  have hlast : Head (lastHead (k ++ ['=', ' ']) (pieces (double quote w)).1) := by
    rw [lastHead]
    split
    · exact hhead
    · exact head_continueHead
  have hnamed : named name c = true := by rwa [named, hc]
  obtain ⟨hpslash, -⟩ := not_mem_pieces (by decide) hslash
  obtain ⟨hplength, hxlength⟩ := length_pieces (double quote w)
  subst hcard
  rw [splitLongString_part hlength hbehind hlong, cutValue_part hhead.length] at hsplit
  obtain ⟨ret, hret, hcards⟩ := Option.map_eq_some_iff.1 hsplit
  have hparts : (pieces (double quote w)).1 ≠ [] → Parts continueKey ret := fun hne => by
    rw [lastHead, if_neg hne] at hret
    have hprefix : continueKey <+: part continueHead (pieces (double quote w)).2 :=
      ⟨"  ".toList ++ (quote :: (pieces (double quote w)).2 ++ [quote]), rfl⟩
    obtain ⟨d, ret', hcut, hparts⟩ := parts_cutComment (behindSlashes behind) (k := continueKey) rfl hprefix
      (by rw [length_part rfl]; omega)
    rw [← Option.some.inj (hcut.symm.trans hret)]
    exact hparts
  have hjoined : joined (c :: hdr) [] = joined (ret.map (resize 80))
      ((pieces (double quote w)).1.flatMap (single quote)) := by
    rw [← hcards]
    exact joined_partCards hhead (fun p hp => ⟨hplength p hp, hpslash p hp⟩) hparts []
  rw [getStringValue_joined hnamed, hjoined, Whole]
  rcases Nat.lt_or_ge (pieces (double quote w)).2.length 68 with hshort | hfull
  · rw [getString_short_iff hlast hslash hamp (by omega) hret]
    exact and_congr_right fun _ => (and_iff_left fun h => absurd h hshort.ne).symm
  · have hfull : (pieces (double quote w)).2.length = 68 := by omega
    have hne : w ≠ [] := fun hnil => by
      rw [hnil, show double quote ([] : List Char) = [] from rfl, pieces_of_short (by simp)] at hfull
      exact absurd hfull (by decide)
    rw [getString_full_iff hk hname hlast hslash hamp hfull hret]
    exact ⟨fun h => ⟨hne, h.1, fun _ => h.2⟩, fun h => ⟨h.2.1, h.2.2 hfull⟩⟩

/-- What is read of a key that is there is never empty. -/
theorem stringFrom_ne_nil {name r : List Char} {hdr : List (List Char)} {F : List Char}
    (h : stringFrom name hdr F = some r) (hne : F ≠ [] ∨ ∃ c ∈ hdr, named name c = true) : r ≠ [] := by
  induction hn : hdr.length using Nat.strong_induction_on generalizing hdr F with
  | _ n ih =>
    cases hdr with
    | nil =>
      rw [stringFrom] at h
      obtain rfl := Option.some.inj h
      refine hne.resolve_right ?_
      rintro ⟨c, hc, -⟩
      exact List.not_mem_nil hc
    | cons c hdr =>
      by_cases hc : named name c = true
      · rw [stringFrom_cons_of_named hc] at h
        obtain ⟨⟨G, rest⟩, hfound, hrest⟩ := Option.bind_eq_some_iff.1 h
        have hle := (continued_suffix hfound).length_le
        exact ih rest.length (by rw [← hn, List.length_cons]; omega) hrest (.inl (continued_last hfound).1) rfl
      · rw [stringFrom, if_neg hc] at h
        refine ih hdr.length (by rw [← hn, List.length_cons]; omega) h (hne.imp_right ?_) rfl
        rintro ⟨x, hx, hnamed⟩
        exact ⟨x, (List.mem_cons.1 hx).resolve_left fun heq => hc (heq ▸ hnamed), hnamed⟩

/-! ### The cards of `makeCard` -/

theorem prefix_padCard (hk : k.length = 8) {card : List Char} (h : k <+: card) (allowLong : Bool) :
    k <+: padCard allowLong card := by
  rw [padCard]
  split
  · exact prefix_resize hk h
  · exact h

theorem length_padCard (card : List Char) : 80 ≤ (padCard true card).length ∧
    card.length ≤ (padCard true card).length := by
  rw [padCard]
  split
  next h =>
    rw [length_resize]
    exact ⟨le_rfl, (h.resolve_left (by decide)).le⟩
  next h => exact ⟨not_lt.1 fun hlt => h (.inr hlt), le_rfl⟩

theorem padCard_of_long {card : List Char} (h : 80 < (padCard true card).length) : padCard true card = card := by
  rw [padCard] at h ⊢
  split at h
  · rw [length_resize] at h
    exact absurd h (lt_irrefl 80)
  next hpad => rw [if_neg hpad]

/-- A comment does not begin with a quote. -/
theorem withComment_shape {ret comment full : List Char} (h : withComment ret [' ', '/', ' '] comment = some full) :
    ∃ behind, full = ret ++ behind ∧ behind.head? ≠ some quote := by
  rw [withComment] at h
  split at h
  · exact ⟨[], by rw [List.append_nil, Option.some.inj h], by simp⟩
  · obtain ⟨text, -, rfl⟩ := Option.map_eq_some_iff.1 h
    exact ⟨[' ', '/', ' '] ++ text, List.append_assoc _ _ _, fun heq => absurd (Option.some.inj heq) (by decide)⟩

theorem prefix_withComment {ret sep comment full : List Char} (h : withComment ret sep comment = some full) :
    ret <+: full := by
  rw [withComment] at h
  split at h
  · rw [← Option.some.inj h]
  · obtain ⟨text, -, rfl⟩ := Option.map_eq_some_iff.1 h
    exact (List.prefix_append ret _).trans (List.prefix_append _ _)

/-- The field of a string that may be long is not cut, and at most gets blanks at its end. -/
theorem stringField_long (head x : List Char) :
    ∃ n, stringField true (head ++ (quote :: x ++ [quote])) = part head x ++ List.replicate n ' ' := by
  have hkept : ¬((!true) = true ∧ 80 < (head ++ (quote :: x ++ [quote])).length) := fun h => absurd h.1 (by decide)
  rw [stringField, if_neg hkept]
  split
  next hlt => exact ⟨_, resize_of_le hlt.le⟩
  next => exact ⟨0, (List.append_nil _).symm⟩

/-- **A card that may be long**: it has its key, and with a string that is not empty it either holds all of it, or is the
field, a comment and nothing else. -/
theorem makeCard_long {key s comment card : List Char} (h : makeCard key (.string s) comment true = some card) :
    ∃ k, makeKey key = some k ∧ k <+: card ∧ (s ≠ [] → (card.length ≤ 80 → Holds (.string s) card) ∧
      (80 < card.length → ∃ behind, card = part (k ++ ['=', ' ']) (double quote (trim_right s)) ++ behind ∧
        behind.head? ≠ some quote)) := by
  have hmade := h
  cases s with
  | nil =>
    have hcard : ((makeKey key).bind fun k => (withComment k [] comment).map (padCard true)) = some card := h
    obtain ⟨k, hk, hcard⟩ := Option.bind_eq_some_iff.1 hcard
    obtain ⟨full, hfull, rfl⟩ := Option.map_eq_some_iff.1 hcard
    exact ⟨k, hk, prefix_padCard (length_makeKey hk) (prefix_withComment hfull) true, fun hne => absurd rfl hne⟩
  | cons c s =>
    have hcard : ((makeKey key).bind fun k => (makeValue (.string (c :: s))).bind fun text =>
      (withComment (stringField true (k ++ ['=', ' '] ++ text)) [' ', '/', ' '] comment).map
        (padCard true)) = some card := h
    obtain ⟨k, hk, hcard⟩ := Option.bind_eq_some_iff.1 hcard
    obtain ⟨text, htext, hcard⟩ := Option.bind_eq_some_iff.1 hcard
    obtain ⟨full, hfull, rfl⟩ := Option.map_eq_some_iff.1 hcard
    obtain ⟨behind, rfl, hhead⟩ := withComment_shape hfull
    obtain rfl : quote :: double quote (trim_right (c :: s)) ++ [quote] = text := by
      rw [makeValue, makeString] at htext
      split at htext
      · exact Option.some.inj htext
      · exact absurd htext (by simp)
    obtain ⟨n, hn⟩ := stringField_long (k ++ ['=', ' ']) (double quote (trim_right (c :: s)))
    have hprefix : k <+: part (k ++ ['=', ' ']) (double quote (trim_right (c :: s))) ++
        List.replicate n ' ' ++ behind := by
      rw [part, List.append_assoc k, List.append_assoc k, List.append_assoc k]
      exact List.prefix_append _ _
    rw [hn] at hmade ⊢
    refine ⟨k, hk, prefix_padCard (length_makeKey hk) hprefix true, fun hne => ⟨fun hle => ?_, fun hlt => ?_⟩⟩
    · obtain ⟨hlow, hwhole⟩ := length_padCard
        (part (k ++ ['=', ' ']) (double quote (trim_right (c :: s))) ++ List.replicate n ' ' ++ behind)
      refine ⟨hne, ⟨key, comment, true, hmade⟩, le_antisymm hle hlow, _, htext, ?_⟩
      have hhead : (k ++ ['=', ' ']).length = 10 := by rw [List.length_append, length_makeKey hk]; rfl
      have hpart := length_part (x := double quote (trim_right (c :: s))) hhead
      rw [List.length_append, List.length_append, hpart] at hwhole
      rw [List.length_append, List.length_cons, List.length_singleton]
      omega
    · refine ⟨List.replicate n ' ' ++ behind, (padCard_of_long hlt).trans (List.append_assoc _ _ _), ?_⟩
      cases n with
      | zero => exact hhead
      | succ n => exact fun heq => absurd (Option.some.inj heq) (by decide)

end String

/-! ## Result -/

/-- **Long strings are split into cards of 80 characters**, the one of the key and `CONTINUE` cards, and come back from
them if and only if they are not blank, and are in one card or whole. -/
theorem splitLongString_iff {key s comment k card : List Char} (hslash : '/' ∉ s) (hamp : '&' ∉ s)
    (hk : makeKey key = some k) (hcard : makeCard key (.string s) comment true = some card) :
    ∃ c hdr, splitLongString card = some (c :: hdr) ∧ (c.length = 80 ∧ c.take 8 = k) ∧
      (∀ x ∈ hdr, x.length = 80 ∧ x.take 8 = continueKey) ∧ ∀ name, iequals k (resize 8 name) = true →
        (getStringValue (c :: hdr) name = some (trim_right s) ↔
          trim_right s ≠ [] ∧ (card.length ≤ 80 ∨ Whole k (trim_right s))) := by
  obtain ⟨k', hk', hprefix, hstring⟩ := makeCard_long hcard
  obtain rfl : k = k' := Option.some.inj (hk.symm.trans hk')
  have h8 := length_makeKey hk
  have htake := take_eq_of_prefix h8 hprefix
  obtain ⟨c, hdr, hsplit, ⟨hlength, hkey⟩, hhdr⟩ := splitLongString_cards (h8 ▸ hprefix.length_le)
  rw [htake] at hkey
  refine ⟨c, hdr, hsplit, ⟨hlength, hkey⟩, hhdr, fun name hname => ?_⟩
  have hnamed : named name c = true := by rwa [named, hkey]
  have hsub : ∀ x ∈ trim_right s, x ∈ s := fun x hx => (List.rdropWhile_prefix isspace s).subset hx
  by_cases hne : s = []
  · subst hne
    refine ⟨fun h => absurd rfl (stringFrom_ne_nil h (.inr ⟨c, List.mem_cons_self, hnamed⟩)), fun h => absurd rfl h.1⟩
  · obtain ⟨hholds, hshape⟩ := hstring hne
    by_cases hle : card.length ≤ 80
    · -- there is nothing to do for a card that is short
      have hself : splitLongString card = some [resize 80 card] := by rw [splitLongString, if_pos (.inl hle)]
      obtain ⟨rfl, rfl⟩ := List.cons.inj (Option.some.inj (hsplit.symm.trans hself))
      have h80 : resize 80 card = card := by
        rw [resize_of_ge (hholds hle).length.ge, List.take_of_length_le hle]
      rw [h80] at hnamed ⊢
      rw [getStringValue_singleton hnamed, continued_iff (hholds hle)]
      refine ⟨fun h => ⟨h.1, .inl hle⟩, fun h => ⟨h.1, fun hmem => hslash (hsub _ hmem), fun hlast => ?_⟩⟩
      exact hamp (hsub _ (List.mem_of_getLast? hlast))
    · obtain ⟨behind, hform, hbehind⟩ := hshape (by omega)
      rw [getStringValue_split_iff hk (fun hmem => hslash (hsub _ hmem)) (fun hmem => hamp (hsub _ hmem)) hform hbehind
        (by omega) hsplit hkey hname, or_iff_right hle]

/-! ### Two strings -/

/-- A text of a hundred letters. -/
def hundred : List Char := List.replicate 100 'x'

def hundredCard : List Char := "TITLE   = '".toList ++ hundred ++ "'".toList

theorem splitLongString_hundred : ∃ c hdr, splitLongString hundredCard = some (c :: hdr) ∧
    (c.length = 80 ∧ c.take 8 = "TITLE   ".toList) ∧ (∀ x ∈ hdr, x.length = 80 ∧ x.take 8 = continueKey) ∧
    getStringValue (c :: hdr) "title".toList = some hundred := by
  have hmake : makeKey "title".toList = some "TITLE   ".toList := by decide +kernel
  have hcard : makeCard "title".toList (.string hundred) [] true = some hundredCard := by decide +kernel
  obtain ⟨c, hdr, hsplit, hkey, hhdr, hread⟩ :=
    splitLongString_iff (s := hundred) (by decide +kernel) (by decide +kernel) hmake hcard
  have hpieces : pieces (double quote hundred) = ([List.replicate 67 'x'], List.replicate 33 'x') := by decide +kernel
  have htrim : trim_right hundred = hundred := by decide +kernel
  rw [htrim] at hread
  refine ⟨c, hdr, hsplit, hkey, hhdr, (hread _ (by decide +kernel)).2 ⟨by decide +kernel, .inr ?_⟩⟩
  rw [Whole, hpieces]
  exact ⟨by decide +kernel, fun h => absurd h (by decide +kernel)⟩

/-- A text with a quote in its place 67, of which the second half gets into the next card. -/
def quoted : List Char := List.replicate 66 'x' ++ "'yyyyy".toList

/-- The quote comes back twice. -/
theorem quoted_twice : '/' ∉ quoted ∧ '&' ∉ quoted ∧
    ((makeCard "note".toList (.string quoted) [] true).bind splitLongString).bind
      (fun ret => getStringValue ret "note".toList) = some (List.replicate 66 'x' ++ "''yyyyy".toList) :=
  ⟨by decide +kernel, by decide +kernel, by decide +kernel⟩

end Redux.File.Fits
