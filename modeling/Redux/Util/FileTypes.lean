import Redux.Util.Boost

/-!
# Util.FileTypes — lists of file types as text

`VectorTranslator<FileType>`, which has its own loops: `put_value` leaves out the last element, and its
loop over an empty list passes the end before it gets to the element in front of it.  Whatever is written
is read as the list without its last element (`get_value_put_value`), so that no list is kept
(`never_kept`).
-/

namespace Redux.Util

/-- `FileType`. -/
inductive FileType
  | FT_NONE | FT_ANA | FT_FITS | FT_MOMFBD | FT_MASK
  deriving DecidableEq

namespace FileTypeTranslator

/-- `boost::algorithm::iequals` in the classic locale. -/
def iequals (a b : List Char) : Bool := decide (a.map Char.toUpper = b.map Char.toUpper)

def get_value (str : List Char) : FileType :=
  if str = [] then .FT_NONE
  else if iequals str "ANA".toList then .FT_ANA
  else if iequals str "FITS".toList then .FT_FITS
  else if iequals str "MOMFBD".toList then .FT_MOMFBD
  else .FT_NONE

def put_value : FileType → List Char
  | .FT_ANA => "ANA".toList
  | .FT_FITS => "FITS".toList
  | .FT_MOMFBD => "MOMFBD".toList
  | _ => []

/-- The types that have a name. -/
def named (t : FileType) : Bool := decide (put_value t ≠ [])

theorem get_value_put_value (t : FileType) : get_value (put_value t) = if named t then t else .FT_NONE := by
  cases t <;> decide

theorem not_comma_of_mem_put_value {t : FileType} {c : Char} (h : c ∈ put_value t) : (c == ',') = false := by
  have hall : ∀ c ∈ put_value t, (c == ',') = false := by cases t <;> simp [put_value]
  exact hall c h

end FileTypeTranslator

namespace FileTypes

open FileTypeTranslator (named)

/-- `parseSegment`. -/
def parseSegment (out : List FileType) (elem : List Char) : List FileType :=
  let tmp := FileTypeTranslator.get_value elem
  if tmp ≠ .FT_NONE then out ++ [FileTypeTranslator.get_value elem] else out

/-- `get_value`: the string is split at the commas. -/
def get_value (str : List Char) : List FileType :=
  if str = [] then [] else (str.splitOnP (· == ',')).foldl parseSegment []

/-- The loop of `put_value` from `vec.begin() + it` on, while the iterator is not `vec.end() - 1`; none if
an element is read that is not there. -/
def putFrom (vec : List FileType) (it : ℕ) : Option (List Char) :=
  if (it : ℤ) = vec.length - 1 then some []
  else if h : it < vec.length then
    (putFrom vec (it + 1)).map fun oss => FileTypeTranslator.put_value vec[it] ++ ',' :: oss
  else none
termination_by vec.length - it

def put_value (vec : List FileType) : Option (List Char) := putFrom vec 0

/-- A list is kept if it is written and read back, the empty list as the empty string. -/
def Kept (vec : List FileType) : Prop :=
  ∃ str, put_value vec = some str ∧ get_value str = vec ∧ (vec = [] → str = [])

/-! ## What is written -/

/-- A comma behind each. -/
def text (vec : List FileType) : List Char := vec.flatMap fun t => FileTypeTranslator.put_value t ++ [',']

section Written

variable {vec : List FileType}

theorem putFrom_eq : ∀ {n it : ℕ}, it + n + 1 = vec.length →
    putFrom vec it = some (text (vec.dropLast.drop it))
  | 0, it, h => by
    rw [putFrom, if_pos (by omega), List.drop_eq_nil_of_le (by rw [List.length_dropLast]; omega)]
    rfl
  | n + 1, it, h => by
    have hit : it < vec.dropLast.length := by rw [List.length_dropLast]; omega
    rw [putFrom, if_neg (by omega), dif_pos (by omega), putFrom_eq (n := n) (by omega), Option.map_some,
      List.drop_eq_getElem_cons hit, List.getElem_dropLast, text, text, List.flatMap_cons, List.append_assoc]
    rfl

theorem put_value_eq (h : vec ≠ []) : put_value vec = some (text vec.dropLast) := by
  have hlen := List.length_pos_iff.2 h
  exact putFrom_eq (n := vec.length - 1) (by omega)

/-- The loop over an empty list reads what is behind its end. -/
theorem put_value_nil : put_value [] = none := by
  rw [put_value, putFrom, if_neg (by decide), dif_neg (by decide)]

/-! ## What is read -/

theorem foldl_parseSegment : ∀ (tokens : List (List Char)) (out : List FileType),
    tokens.foldl parseSegment out =
      out ++ (tokens.map FileTypeTranslator.get_value).filter (· ≠ .FT_NONE)
  | [], out => (List.append_nil out).symm
  | token :: tokens, out => by
    rw [List.foldl_cons, foldl_parseSegment tokens, parseSegment, List.map_cons]
    by_cases h : FileTypeTranslator.get_value token = .FT_NONE
    · simp [h]
    · simp [h]

theorem split_text : ∀ vec : List FileType,
    (text vec).splitOnP (· == ',') = vec.map FileTypeTranslator.put_value ++ [[]]
  | [] => rfl
  | t :: vec => by
    rw [text, List.flatMap_cons, List.append_assoc, List.singleton_append,
      List.splitOnP_append_cons_of_forall_mem (fun c hc => FileTypeTranslator.not_comma_of_mem_put_value hc) ',' rfl]
    exact congrArg _ (split_text vec)

theorem filter_read : ∀ vec : List FileType,
    ((vec.map FileTypeTranslator.put_value).map FileTypeTranslator.get_value).filter (· ≠ .FT_NONE) =
      vec.filter named
  | [] => rfl
  | t :: vec => by
    rw [List.map_cons, List.map_cons, FileTypeTranslator.get_value_put_value, List.filter_cons, List.filter_cons,
      filter_read vec]
    cases t <;> rfl

theorem get_value_text (vec : List FileType) : get_value (text vec) = vec.filter named := by
  have hread : ((text vec).splitOnP (· == ',')).foldl parseSegment [] = vec.filter named := by
    rw [split_text, foldl_parseSegment, List.nil_append, List.map_append, List.filter_append, filter_read]
    exact List.append_nil _
  rw [get_value]
  split_ifs with h
  · rw [← hread, h]
    rfl
  · exact hread

/-- **What comes back** of a list is the list without its last element, and without those that have no
name. -/
theorem get_value_put_value (h : vec ≠ []) :
    (put_value vec).map get_value = some (vec.dropLast.filter named) := by
  rw [put_value_eq h, Option.map_some, get_value_text]

end Written

/-- **No list is kept.** -/
theorem never_kept (vec : List FileType) : ¬Kept vec := by
  rintro ⟨str, hput, hget, -⟩
  by_cases h : vec = []
  · rw [h, put_value_nil] at hput
    cases hput
  · have hback := get_value_put_value h
    rw [hput, Option.map_some, Option.some.injEq, hget] at hback
    have hle := List.length_filter_le named vec.dropLast
    have hlen := List.length_pos_iff.2 h
    rw [← hback, List.length_dropLast] at hle
    omega

/-- `FILE_TYPE=ANA,FITS` is written as one type. -/
theorem fits_lost : put_value [.FT_ANA, .FT_FITS] = some "ANA,".toList ∧ ¬Kept [.FT_ANA, .FT_FITS] := by
  have hput : put_value [.FT_ANA, .FT_FITS] = some "ANA,".toList := put_value_eq (by decide)
  refine ⟨hput, ?_⟩
  rintro ⟨str, hstr, hget, -⟩
  rw [hput, Option.some.injEq] at hstr
  rw [← hstr] at hget
  exact absurd hget (by decide)

end FileTypes

end Redux.Util
