import Mathlib.Data.List.Infix
import Redux.Lib.Settings
import Redux.Momfbd.ModeList
import Redux.Util.VectorTranslator

/-!
# Momfbd.Properties — settings and their texts

The translators between the settings of a configuration and the texts in a property tree.  What they rest
on outside of the program is a parameter, and so are `cleanPath`, which asks the file system, and the
Karhunen-Loève modes.  For each kind of setting it is said when its text is read as what it was.
-/

namespace Redux.Momfbd.Properties

open Redux.Util Redux.Lib

/-- A string of the standard library. -/
abbrev Str := List Char

/-! ## What the properties rest on -/

/-- Floating-point numbers: `==`, the text in a stream, the text with all digits that a property tree
asks for, `boost::lexical_cast` and `>>`. -/
structure Floating (F : Type) where
  eq : F → F → Bool
  text : F → Str
  fullText : F → Str
  lexical_cast : Str → Option F
  extract : Str → Option F
  eq_symm : ∀ x y, eq x y = eq y x
  text_ne_nil : ∀ x, text x ≠ []
  text_plain : ∀ x, ∀ ch ∈ text x, ch ∉ [',', ' ', 'c', 'm', '"']

/-- A Karhunen-Loève mode. -/
structure KL (D : Type) where
  id : BitVec 16
  covariance : D

/-- The libraries under the configurations, for `float` and `double`. -/
structure Library (F D : Type) where
  float : Floating F
  double : Floating D
  boost : ∀ w, Boost w
  /-- `>>` of an unsigned number. -/
  extract : ∀ w, Str → Option (BitVec w)
  /-- `>>` of an `int16_t`. -/
  extract_int16 : Str → Option (BitVec 16)
  lexical_cast_int16 : Str → Option (BitVec 16)
  extract_decimal : ∀ {w} (x : BitVec w), extract w (decimal x.toNat) = some x
  extract_decimalInt : ∀ x : BitVec 16, extract_int16 (decimalInt x.toInt) = some x
  cast_decimalInt : ∀ x : BitVec 16, lexical_cast_int16 (decimalInt x.toInt) = some x
  one : F
  (unity kilo milli centi : D)
  mul : D → D → D
  gt : D → D → Bool
  cleanPath : Str → Str
  cleanPath_idem : ∀ p, cleanPath (cleanPath p) = cleanPath p
  karhunenLoeveExpansion : BitVec 16 → BitVec 16 → List (KL D)

variable {F D α : Type} (L : Library F D)

/-- A path that is not empty is cleaned. -/
def Library.cleanFile (path : Str) : Str := if path = [] then [] else L.cleanPath path

theorem cleanFile_idem (path : Str) : L.cleanFile (L.cleanFile path) = L.cleanFile path := by
  unfold Library.cleanFile
  by_cases hpath : path = []
  · rw [if_pos hpath, if_pos rfl]
  · rw [if_neg hpath, L.cleanPath_idem]
    split_ifs with hclean
    · exact hclean.symm
    · rfl

/-- `boost::algorithm::iequals`. -/
def iequals (a b : Str) : Bool := a.map Char.toUpper == b.map Char.toUpper

/-- A tag out of a table. -/
def tag (tags : List String) (i : ℕ) : Str := (tags.getD i "").toList

/-- `getFromMap`, in a map that does not tell upper and lower case apart. -/
def getFromMap (str : Str) (m : List (String × ℕ)) : ℕ :=
  ((m.find? fun e => iequals e.1.toList str).map Prod.snd).getD 0

/-! ## Flags, bases and file types -/

namespace BoolTranslator

def get_value (str : Str) : Option Bool :=
  if str = [] then some true
  else some (iequals str "true".toList || iequals str "yes".toList || str == "y".toList || str == "1".toList)

def put_value (b : Bool) : Str := if b then "1".toList else "0".toList

theorem get_put (b : Bool) : get_value (put_value b) = some b := by
  cases b <;> decide

end BoolTranslator

/-- `tree.get<bool>( key, fallback )`. -/
def getBool (text : Option Str) (fallback : Bool) : Bool := getElse BoolTranslator.get_value text fallback

theorem getBool_put (same b fallback : Bool) :
    getBool (putUnless same (BoolTranslator.put_value b)) fallback = if same then fallback else b := by
  cases same with
  | true => rfl
  | false =>
    rw [getBool, getElse, putUnless, if_neg Bool.false_ne_true, Option.bind_some, BoolTranslator.get_put]
    rfl

theorem getBool_put_default (b d : Bool) : getBool (putUnless (b == d) (BoolTranslator.put_value b)) d = b :=
  getElse_put (BoolTranslator.get_put b)

namespace ModeBaseTranslator

def get_value (str : Str) : Option ModeBase :=
  if iequals str "Zernike".toList then some .ZERNIKE
  else if iequals str "Karhunen-Loeve".toList then some .KARHUNEN_LOEVE
  else some .MB_NONE

def put_value : ModeBase → Str
  | .ZERNIKE => "Zernike".toList
  | .KARHUNEN_LOEVE => "Karhunen-Loeve".toList
  | _ => []

/-- The bases that there is a text for. -/
def Read (basis : ModeBase) : Prop := basis = .MB_NONE ∨ basis = .ZERNIKE ∨ basis = .KARHUNEN_LOEVE

theorem get_put {basis : ModeBase} (h : Read basis) : get_value (put_value basis) = some basis := by
  rcases h with rfl | rfl | rfl <;> decide

theorem read_of_get {str : Str} {basis : ModeBase} (h : get_value str = some basis) : Read basis := by
  unfold get_value at h
  split_ifs at h
  · exact .inr (.inl (Option.some.inj h).symm)
  · exact .inr (.inr (Option.some.inj h).symm)
  · exact .inl (Option.some.inj h).symm

end ModeBaseTranslator

/-- The number of a basis. -/
def ModeBase.value : ModeBase → ℕ
  | .MB_NONE => 0
  | .ZERNIKE => 1
  | .KARHUNEN_LOEVE => 2
  | .MB_ZKL => 3
  | .MB_FILE => 4

inductive FileType
  | FT_NONE | FT_ANA | FT_FITS | FT_MOMFBD
  deriving DecidableEq

def FileType.value : FileType → BitVec 8
  | .FT_NONE => 0
  | .FT_ANA => 1
  | .FT_FITS => 2
  | .FT_MOMFBD => 4

def FileTypeTranslator.get_value (str : Str) : FileType :=
  if iequals str "ANA".toList then .FT_ANA
  else if iequals str "FITS".toList then .FT_FITS
  else if iequals str "MOMFBD".toList then .FT_MOMFBD
  else .FT_NONE

/-- `VectorTranslator<FileType>::get_value`: what is no file type is left out. -/
def getFileTypes (str : Str) : List FileType :=
  if str = [] then []
  else (((L.boost 8).split str (· == ',')).map FileTypeTranslator.get_value).filter (· ≠ .FT_NONE)

def ftTags : List String := ["", "ANA", "FITS", "ANA,FITS", "MOMFBD", "ANA,MOMFBD", "FITS,MOMFBD", "ANA,FITS,MOMFBD"]

/-- The types of files added to a mask. -/
def addFileTypes (mask : BitVec 8) (types : List FileType) : BitVec 8 := types.foldl (fun m t => m ||| t.value) mask

/-- **Every mask of file types is read of its tag.** -/
theorem fileTypes_of_tag {mask : BitVec 8} (h : mask.toNat < 8) :
    addFileTypes 0 (getFileTypes L (tag ftTags (mask.toNat % 8))) = mask := by
  unfold getFileTypes
  rw [(L.boost 8).split_eq]
  have hall : ∀ m < 8, addFileTypes 0 (if tag ftTags (m % 8) = [] then [] else
      (((tag ftTags (m % 8)).splitOnP (· == ',')).map FileTypeTranslator.get_value).filter (· ≠ .FT_NONE)) =
        BitVec.ofNat 8 m := by decide
  exact (hall _ h).trans (by rw [BitVec.ofNat_toNat, BitVec.setWidth_eq])

/-! ## Lists with one text for each element -/

section Lists

variable {text : α → Str} {cast : Str → Option α} {eq : α → α → Bool}

/-- The texts of a list with commas between them. -/
def joined (text : α → Str) (vec : List α) : Str := [','].intercalate (vec.map text)

/-- Every text is read. -/
def castAll (cast : Str → Option α) : List Str → Option (List α)
  | [] => some []
  | token :: tokens => do
    let x ← cast token
    let xs ← castAll cast tokens
    return x :: xs

/-- A list of texts that are split at the separators. -/
def getList (split : Str → (Char → Bool) → List Str) (sep : Char → Bool) (cast : Str → Option α) (str : Str) :
    Option (List α) :=
  if str = [] then some [] else castAll cast (split str sep)

/-- What is joined is split again and read text by text. -/
theorem getList_joined {w : ℕ} (B : Boost w) {sep : Char → Bool} (hsep : sep ',' = true) {vec : List α}
    (hnil : ∀ x ∈ vec, text x ≠ []) (hplain : ∀ x ∈ vec, ∀ ch ∈ text x, sep ch = false) :
    getList B.split sep cast (joined text vec) = castAll cast (vec.map text) := by
  rw [getList, joined]
  by_cases hvec : vec = []
  · subst hvec
    rfl
  · have hmap : vec.map text ≠ [] := fun h => hvec (List.map_eq_nil_iff.1 h)
    have hsplit := @splitOnP_intercalate sep ',' hsep (vec.map text) hmap fun t ht => by
      obtain ⟨x, hx, rfl⟩ := List.mem_map.1 ht
      exact hplain x hx
    have hne : [','].intercalate (vec.map text) ≠ [] := by
      intro hempty
      rw [hempty, List.splitOnP_nil] at hsplit
      obtain ⟨x, hx, hxnil⟩ := List.mem_map.1 (hsplit ▸ List.mem_singleton_self ([] : Str))
      exact hnil x hx hxnil
    rw [if_neg hne, B.split_eq, hsplit]

theorem castAll_text {vec : List α} (h : ∀ x ∈ vec, cast (text x) = some x) :
    castAll cast (vec.map text) = some vec := by
  induction vec with
  | nil => rfl
  | cons x vec ih =>
    obtain ⟨hx, hvec⟩ := List.forall_mem_cons.1 h
    rw [List.map_cons, castAll, hx, ih hvec]
    rfl

/-- **A list comes back, up to `==`, exactly if each of its elements does.** -/
theorem castAll_eq_iff {vec : List α} : (∃ out, castAll cast (vec.map text) = some out ∧ out.isEqv vec eq = true) ↔
    ∀ x ∈ vec, ∃ y, cast (text x) = some y ∧ eq y x = true := by
  induction vec with
  | nil => exact ⟨fun _ _ hx => absurd hx List.not_mem_nil, fun _ => ⟨[], rfl, rfl⟩⟩
  | cons x vec ih =>
    rw [List.forall_mem_cons, ← ih, List.map_cons, castAll]
    constructor
    · rintro ⟨out, hout, heq⟩
      obtain ⟨y, hy, hout⟩ := Option.bind_eq_some_iff.1 hout
      obtain ⟨ys, hys, hout⟩ := Option.bind_eq_some_iff.1 hout
      obtain rfl := Option.some.inj hout
      obtain ⟨hyx, hrest⟩ := Bool.and_eq_true_iff.1 heq
      exact ⟨⟨y, hy, hyx⟩, ys, hys, hrest⟩
    · rintro ⟨⟨y, hy, hyx⟩, ys, hys, hrest⟩
      exact ⟨y :: ys, by rw [hy, hys]; rfl, Bool.and_eq_true_iff.2 ⟨hyx, hrest⟩⟩

theorem castAll_length {tokens : List Str} {out : List α} (h : castAll cast tokens = some out) :
    out.length = tokens.length := by
  induction tokens generalizing out with
  | nil => exact congrArg List.length (Option.some.inj h).symm
  | cons token tokens ih =>
    obtain ⟨y, -, h⟩ := Option.bind_eq_some_iff.1 h
    obtain ⟨ys, hys, h⟩ := Option.bind_eq_some_iff.1 h
    rw [← Option.some.inj h, List.length_cons, List.length_cons, ih hys]

theorem isEqv_symm (hsymm : ∀ x y, eq x y = eq y x) : ∀ xs ys : List α, xs.isEqv ys eq = ys.isEqv xs eq
  | [], [] => rfl
  | [], _ :: _ => rfl
  | _ :: _, [] => rfl
  | x :: xs, y :: ys => by
    rw [List.isEqv, List.isEqv, hsymm x y, isEqv_symm hsymm xs ys]

theorem length_of_isEqv : ∀ {xs ys : List α}, xs.isEqv ys eq = true → xs.length = ys.length
  | [], [], _ => rfl
  | _ :: _, _ :: _, h => congrArg Nat.succ (length_of_isEqv (Bool.and_eq_true_iff.1 h).2)

/-- A list that is written where it is not `==` its default comes back exactly if its elements do where it is
written. -/
theorem getOr_list_iff {read : Str → Option (List α)} (hsymm : ∀ x y, eq x y = eq y x) {vec d : List α}
    (hread : read (joined text vec) = castAll cast (vec.map text)) :
    (∃ out, getOr read (putUnless (vec.isEqv d eq) (joined text vec)) d = some out ∧ out.isEqv vec eq = true) ↔
      (vec.isEqv d eq = false → ∀ x ∈ vec, ∃ y, cast (text x) = some y ∧ eq y x = true) := by
  cases hsame : vec.isEqv d eq with
  | true => exact ⟨fun _ => nofun, fun _ => ⟨d, rfl, by rw [isEqv_symm hsymm]; exact hsame⟩⟩
  | false =>
    rw [← castAll_eq_iff, ← hread]
    exact ⟨fun h _ => h, fun h => h rfl⟩

end Lists

/-! ## Strings -/

/-- Split at the commas, a text falls into the parts of each string that was joined. -/
theorem split_joined : ∀ {files : List Str}, files ≠ [] →
    (joined id files).splitOnP (· == ',') = files.flatMap (List.splitOnP (· == ','))
  | [], h => absurd rfl h
  | [f], _ => by rw [joined, List.map_singleton, List.intercalate_singleton, List.flatMap_singleton]; rfl
  | f :: f' :: files, _ => by
    have ih := @split_joined (f' :: files) (List.cons_ne_nil _ _)
    rw [List.flatMap_cons, ← ih, joined, joined, List.map_cons, List.map_cons, List.intercalate_cons_cons,
      List.append_assoc, List.singleton_append, List.splitOnP_append_cons _ _ (by decide)]
    rfl

theorem mem_joined {files : List Str} {f : Str} (hf : f ∈ files) {ch : Char} (hch : ch ∈ f) : ch ∈ joined id files := by
  induction files with
  | nil => exact absurd hf List.not_mem_nil
  | cons g files ih =>
    cases files with
    | nil =>
      rw [List.mem_singleton.1 hf] at hch
      rwa [joined, List.map_singleton, List.intercalate_singleton]
    | cons g' files =>
      rw [joined, List.map_cons, List.map_cons, List.intercalate_cons_cons]
      rcases List.mem_cons.1 hf with rfl | hmem
      · exact List.mem_append_left _ (List.mem_append_left _ hch)
      · exact List.mem_append_right _ (ih hmem)

/-- A string with a comma falls into two parts or more, one without into one. -/
theorem length_split (f : Str) : 1 ≤ (f.splitOnP (· == ',')).length ∧
    ((f.splitOnP (· == ',')).length = 1 → ',' ∉ f) := by
  have hpos : ∀ g : Str, 1 ≤ (g.splitOnP (· == ',')).length := fun g =>
    List.length_pos_of_ne_nil (List.splitOnP_ne_nil _ g)
  refine ⟨hpos f, fun hone hmem => ?_⟩
  obtain ⟨a, b, rfl⟩ := List.append_of_mem hmem
  rw [List.splitOnP_append_cons _ _ (by decide), List.length_append] at hone
  have ha := hpos a
  have hb := hpos b
  omega

theorem length_parts : ∀ files : List Str, files.length ≤ (files.flatMap (List.splitOnP (· == ','))).length ∧
    ((files.flatMap (List.splitOnP (· == ','))).length = files.length → ∀ f ∈ files, ',' ∉ f)
  | [] => ⟨le_rfl, fun _ _ hf => absurd hf List.not_mem_nil⟩
  | f :: files => by
    obtain ⟨hle, hno⟩ := length_parts files
    obtain ⟨hpos, hone⟩ := length_split f
    rw [List.flatMap_cons, List.length_append, List.length_cons, List.forall_mem_cons]
    exact ⟨by omega, fun h => ⟨hone (by omega), hno (by omega)⟩⟩

theorem split_of_no_comma {files : List Str} (hne : files ≠ []) (h : ∀ f ∈ files, ',' ∉ f) :
    (joined id files).splitOnP (· == ',') = files := by
  rw [joined, List.map_id]
  refine splitOnP_intercalate (by decide) hne fun f hf ch hch => ?_
  rw [beq_eq_false_iff_ne]
  rintro rfl
  exact h f hf hch

/-- **As many strings as there were are read exactly if there is no comma in them**, and they are the same. -/
theorem split_joined_iff {files : List Str} (hne : files ≠ []) :
    ((joined id files).splitOnP (· == ',')).length = files.length ↔ ∀ f ∈ files, ',' ∉ f := by
  constructor
  · rw [split_joined hne]
    exact (length_parts files).2
  · intro h
    rw [split_of_no_comma hne h]

/-! ## Numbers -/

/-- A comma or a blank. -/
def commaOrBlank (ch : Char) : Bool := ch == ',' || ch == ' '

/-- `VectorTranslator<int16_t>::get_value`. -/
def getInt16s (str : Str) : Option (List (BitVec 16)) :=
  getList (L.boost 16).split commaOrBlank L.lexical_cast_int16 str

/-- `<<` of an `int16_t`. -/
def int16Text (x : BitVec 16) : Str := decimalInt x.toInt

theorem decimalInt_ne_nil (n : ℤ) : decimalInt n ≠ [] := by
  unfold decimalInt
  split_ifs
  · exact List.cons_ne_nil _ _
  · exact decimal_ne_nil

/-- **A list of `int16_t` always comes back.** -/
theorem getInt16s_joined (vec : List (BitVec 16)) : getInt16s L (joined int16Text vec) = some vec := by
  rw [getInt16s, getList_joined (L.boost 16) (by decide) (fun x _ => decimalInt_ne_nil x.toInt), castAll_text]
  · exact fun x _ => L.cast_decimalInt x
  · intro x _ ch hch
    rw [int16Text] at hch
    rcases mem_decimalInt hch with rfl | hdigit
    · decide
    · rw [commaOrBlank, Bool.or_eq_false_iff, beq_eq_false_iff_ne, beq_eq_false_iff_ne]
      constructor
      · rintro rfl
        exact absurd hdigit (by decide)
      · rintro rfl
        exact absurd hdigit (by decide)

/-- `VectorTranslator<float>::get_value`. -/
def getFloats (str : Str) : Option (List F) := getList (L.boost 32).split commaOrBlank L.float.lexical_cast str

theorem getFloats_joined (vec : List F) :
    getFloats L (joined L.float.text vec) = castAll L.float.lexical_cast (vec.map L.float.text) := by
  refine getList_joined (L.boost 32) (by decide) (fun x _ => L.float.text_ne_nil x) fun x _ ch hch => ?_
  have hplain := L.float.text_plain x ch hch
  rw [commaOrBlank, Bool.or_eq_false_iff, beq_eq_false_iff_ne, beq_eq_false_iff_ne]
  constructor
  · rintro rfl
    exact hplain (by decide)
  · rintro rfl
    exact hplain (by decide)

/-- Each number is `==` to what its text is read as. -/
def FloatsBack (vec : List F) : Prop :=
  ∀ x ∈ vec, ∃ y, L.float.lexical_cast (L.float.text x) = some y ∧ L.float.eq y x = true

/-- An unsigned number always comes back. -/
theorem getElse_decimal {w : ℕ} (x d : BitVec w) :
    getElse (L.extract w) (putUnless (x == d) (decimal x.toNat)) d = x :=
  @getElse_put _ _ (L.extract w) x _ _ (fun x => decimal x.toNat) d (L.extract_decimal x)

/-! ## Diversity values -/

structure DiversityValue (D : Type) where
  coefficient : D
  physical : Bool

namespace DiversityValue

/-- `operator==`. -/
def eq (a b : DiversityValue D) : Bool := a.physical == b.physical && L.double.eq a.coefficient b.coefficient

theorem eq_symm (a b : DiversityValue D) : eq L a b = eq L b a := by
  rw [eq, eq, L.double.eq_symm, Bool.beq_comm]

/-- `1.0E3` for a length, which is in millimetres by default. -/
def number (v : DiversityValue D) : D := if v.physical then L.mul v.coefficient L.kilo else v.coefficient

/-- A value in `put_value`. -/
def text (v : DiversityValue D) : Str := L.double.text (v.number L) ++ if v.physical then " mm".toList else []

/-- `parseSegment`. -/
def parseSegment (str : Str) : Option (DiversityValue D) :=
  let mm := decide ("mm".toList <:+: str)
  let cm := decide ("cm".toList <:+: str)
  let tmpD := if mm then L.milli else if cm then L.centi else L.unity
  let tmpIn := (L.boost 64).remove_erase_if str (fun ch => "cm \"".toList.contains ch)
  (L.double.lexical_cast tmpIn).map fun x => ⟨L.mul tmpD x, mm || cm⟩

/-- What a value comes back as, if the text of its number is read as `x`. -/
def back (v : DiversityValue D) (x : D) : DiversityValue D :=
    ⟨L.mul (if v.physical then L.milli else L.unity) x, v.physical⟩

variable {L} {v : DiversityValue D}

theorem not_infix_text {a b : Char} (x : D) (hb : b ∈ [',', ' ', 'c', 'm', '"']) : ¬[a, b] <:+: L.double.text x :=
  fun h => L.double.text_plain x b (h.subset (by simp)) hb

/-- **A value is read by its number, with its unit.** -/
theorem parseSegment_text : parseSegment L (v.text L) =
    (L.double.lexical_cast (L.double.text (v.number L))).map (v.back L) := by
  have hletters : ∀ tail : Str, (∀ ch ∈ tail, "cm \"".toList.contains ch = true) →
      (L.double.text (v.number L) ++ tail).filter (fun ch => !"cm \"".toList.contains ch) =
        L.double.text (v.number L) := by
    intro tail htail
    rw [List.filter_append, List.filter_eq_self.2, List.filter_eq_nil_iff.2, List.append_nil]
    · intro ch hch
      rw [htail ch hch]
      decide
    · intro ch hch
      rw [Bool.not_eq_true', ← Bool.not_eq_true, List.contains_iff_mem]
      exact fun hmem => L.double.text_plain _ ch hch (List.mem_cons_of_mem _ (by revert hmem; simp; tauto))
  rw [parseSegment, text, (L.boost 64).remove_eq]
  cases hphysical : v.physical with
  | true =>
    have hmm : "mm".toList <:+: L.double.text (v.number L) ++ " mm".toList :=
      ⟨L.double.text (v.number L) ++ [' '], [], by simp⟩
    rw [if_pos rfl, hletters _ (List.all_eq_true.1 (by decide))]
    refine congrArg (fun f => Option.map f _) (funext fun x => ?_)
    rw [decide_eq_true hmm, if_pos rfl, Bool.true_or, back, hphysical, if_pos rfl]
  | false =>
    rw [if_neg Bool.false_ne_true, hletters [] (fun _ h => absurd h List.not_mem_nil), List.append_nil]
    have hmm : ¬"mm".toList <:+: L.double.text (v.number L) := not_infix_text _ (by decide)
    have hcm : ¬"cm".toList <:+: L.double.text (v.number L) := not_infix_text _ (by decide)
    refine congrArg (fun f => Option.map f _) (funext fun x => ?_)
    rw [decide_eq_false hmm, decide_eq_false hcm, if_neg Bool.false_ne_true, if_neg Bool.false_ne_true, Bool.or_self,
      back, hphysical, if_neg Bool.false_ne_true]

theorem text_ne_nil : v.text L ≠ [] := List.append_ne_nil_of_left_ne_nil (L.double.text_ne_nil _) _

theorem no_comma {ch : Char} (h : ch ∈ v.text L) : (ch == ',') = false := by
  rw [beq_eq_false_iff_ne]
  rintro rfl
  rcases List.mem_append.1 h with h | h
  · exact L.double.text_plain _ _ h (by decide)
  · split_ifs at h
    · exact absurd h (by decide)
    · exact absurd h List.not_mem_nil

end DiversityValue

/-- `VectorTranslator<DiversityValue>::get_value`. -/
def getDiversityValues (str : Str) : Option (List (DiversityValue D)) :=
  getList (L.boost 64).split (· == ',') (DiversityValue.parseSegment L) str

theorem getDiversityValues_joined (vec : List (DiversityValue D)) :
    getDiversityValues L (joined (DiversityValue.text L) vec) =
      castAll (DiversityValue.parseSegment L) (vec.map (DiversityValue.text L)) :=
  getList_joined (L.boost 64) (by decide) (fun _ _ => DiversityValue.text_ne_nil) fun _ _ _ => DiversityValue.no_comma

/-- Each value is `==` to what its text is read as. -/
def ValuesBack (vec : List (DiversityValue D)) : Prop :=
  ∀ v ∈ vec, ∃ x, L.double.lexical_cast (L.double.text (v.number L)) = some x ∧
    L.double.eq (v.back L x).coefficient v.coefficient = true

theorem valuesBack_iff {vec : List (DiversityValue D)} : ValuesBack L vec ↔
    ∀ v ∈ vec, ∃ v', DiversityValue.parseSegment L (v.text L) = some v' ∧ DiversityValue.eq L v' v = true := by
  refine forall₂_congr fun v _ => ?_
  rw [DiversityValue.parseSegment_text]
  constructor
  · rintro ⟨x, hx, heq⟩
    exact ⟨v.back L x, by rw [hx, Option.map_some], Bool.and_eq_true_iff.2 ⟨beq_self_eq_true _, heq⟩⟩
  · rintro ⟨v', hv', heq⟩
    obtain ⟨x, hx, rfl⟩ := Option.map_eq_some_iff.1 hv'
    exact ⟨x, hx, (Bool.and_eq_true_iff.1 heq).2⟩

/-! ## Lists that are folded -/

section Folded

variable {w : ℕ}

/-- `VectorTranslator<T>::get_value` for an unsigned type. -/
def getNumbers (fuel : ℕ) (str : Str) : Option (List (BitVec w)) := VectorTranslator.get_value (L.boost w) fuel str

/-- The runs of a list are read as what they were. -/
def NumbersBack (vec : List (BitVec w)) : Prop := ∀ seg ∈ VectorTranslator.runs vec, seg.Readable

instance (vec : List (BitVec w)) : Decidable (NumbersBack vec) := inferInstanceAs (Decidable (∀ seg ∈ _, _))

theorem numbersBack_of_read {fuel : ℕ} {vec : List (BitVec w)}
    (h : getNumbers L fuel (VectorTranslator.put_value vec) = some vec) : NumbersBack vec :=
  (read_back_iff (VectorTranslator.runs_folded vec)).1 ⟨fuel, (VectorTranslator.get_value_eq_iff _ _ vec).1 h⟩

theorem read_of_numbersBack {vec : List (BitVec w)} (h : NumbersBack vec) :
    ∃ N, ∀ fuel, N ≤ fuel → getNumbers L fuel (VectorTranslator.put_value vec) = some vec := by
  obtain ⟨N, hN⟩ := readAll_of_readable (VectorTranslator.runs_folded vec) h
  exact ⟨N, fun fuel hfuel => (VectorTranslator.get_value_eq_iff _ _ vec).2 (hN fuel hfuel)⟩

/-- A list that is written where it differs from its default is read, given enough rounds. -/
theorem getOr_numbers {v d : List (BitVec w)} (h : v ≠ d → NumbersBack v) : ∃ N, ∀ fuel, N ≤ fuel →
    getOr (getNumbers L fuel) (putUnless (v == d) (VectorTranslator.put_value v)) d = some v := by
  by_cases hsame : v = d
  · exact ⟨0, fun fuel _ => getOr_put_iff.2 fun hne => absurd hsame hne⟩
  · obtain ⟨N, hN⟩ := read_of_numbersBack L (h hsame)
    exact ⟨N, fun fuel hfuel => getOr_put_iff.2 fun _ => hN fuel hfuel⟩

/-- `ModeListTranslator::get_value`. -/
def getModes (fuel : ℕ) (str : Str) : Option ModeList := ModeListTranslator.get_value (L.boost 16) fuel str

/-- A mode list comes back: its text is read, the modes without a type get that of the basis, and what the
program does with them afterwards gives the same modes. -/
def ModesBack (basis : ModeBase) (finish : List ModeID → List ModeID) (list : ModeList) : Prop :=
  ∃ fuel, ((getModes L fuel (ModeListTranslator.put_value list)).map fun read =>
    finish (read.setDefaultModeType basis).modes) = some list.modes

theorem read_of_modesBack {basis : ModeBase} {finish : List ModeID → List ModeID} {list : ModeList}
    (h : ModesBack L basis finish list) :
    ∃ N, ∀ fuel, N ≤ fuel → ∃ read, getModes L fuel (ModeListTranslator.put_value list) = some read ∧
      finish (read.setDefaultModeType basis).modes = list.modes := by
  obtain ⟨N, hN⟩ := h
  obtain ⟨read, hread, hmodes⟩ := Option.map_eq_some_iff.1 hN
  exact ⟨N, fun fuel hfuel => ⟨read, ModeListTranslator.get_value_mono hfuel hread, hmodes⟩⟩

/-- **With nothing done afterwards, a mode list comes back exactly if its folded runs are readable.** -/
theorem modesBack_id_iff {list : ModeList} (htypes : ∀ a ∈ list.modes, ModeListTranslator.Known a.type) :
    ModesBack L list.defaultType id list ↔ ∀ seg ∈ ModeListTranslator.runs list.modes, seg.Readable :=
  (ModeListTranslator.modesReadBack_iff_readType (L.boost 16) list).trans
    (and_iff_left fun a ha => ModeListTranslator.readType_of_known (htypes a ha))

/-- Readable runs come back if what is done afterwards changes nothing. -/
theorem modesBack_of_readable {finish : List ModeID → List ModeID} {list : ModeList}
    (htypes : ∀ a ∈ list.modes, ModeListTranslator.Known a.type)
    (hread : ∀ seg ∈ ModeListTranslator.runs list.modes, seg.Readable) (hfinish : finish list.modes = list.modes) :
    ModesBack L list.defaultType finish list := by
  obtain ⟨fuel, h⟩ := (modesBack_id_iff L htypes).2 hread
  obtain ⟨read, hget, hmodes⟩ := Option.map_eq_some_iff.1 h
  refine ⟨fuel, ?_⟩
  rw [hget, Option.map_some, show (read.setDefaultModeType list.defaultType).modes = list.modes from hmodes, hfinish]

end Folded

end Redux.Momfbd.Properties
