import Mathlib.Algebra.Group.Nat.Defs
import Mathlib.Data.Finset.Card
import Mathlib.Data.Rat.Defs
import Redux.Util.ReplaceN

/-!
# Momfbd.TraceObjects — trace objects and their data

`generateTraceObjects` makes old-style trace objects of objects without weight, and a new trace object for
each set of wavefronts among the objects that are left.  All new ones get the same ID.  The data of an object
are looked up by its ID, so that they are found exactly if no two objects have the same (`ownData_iff_distinct`).
-/

namespace Redux.Momfbd.TraceObjects

open Redux.Util

/-! ## Objects -/

abbrev Text := List Char

/-- An `Object`, with the names of the files of each of its channels. -/
structure Object where
  ID : ℕ
  traceID : ℤ
  traceObject : Bool
  weight : ℚ
  waveFrontList : List ℕ
  nObjectImages : ℕ
  outputFileName : Text
  channels : List (List Text)
  deriving DecidableEq

/-- The part of a `MomfbdJob` that trace objects are about. -/
structure Job where
  trace : Bool
  objects : List Object
  trace_objects : List Object
  deriving DecidableEq

def Object.waveFronts (o : Object) : Finset ℕ := o.waveFrontList.toFinset

/-- The first object that has the wavefronts of all. -/
def Job.getReferenceObject (job : Job) : Option ℕ :=
  (job.objects.find? fun o => decide ((job.objects.flatMap Object.waveFrontList).toFinset ⊆ o.waveFronts)).map
    Object.ID

/-- The IDs up to the object that is to be the reference, and which one this is, if any. -/
def untilReference : List Object → List ℕ × Option ℕ
  | [] => ([], none)
  | o :: os => if o.traceObject then ([o.ID], some o.ID) else (o.ID :: (untilReference os).1, (untilReference os).2)

def Job.refID (job : Job) : Option ℕ := (untilReference job.objects).2.or job.getReferenceObject

/-- `while( idSet.count(idCnt) ) idCnt++`, for a counter of so many values. -/
def freeID (idSet : List ℕ) : ℕ → ℕ → Option ℕ
  | 0, _ => none
  | values + 1, idCnt => if idCnt ∈ idSet then freeID idSet values (idCnt + 1) else some idCnt

def Job.idCnt (job : Job) : Option ℕ := freeID (untilReference job.objects).1 (2 ^ 16) 0

/-- The tag at the beginning of a file name.  Without a slash there is none: the search for its end begins
at `npos`. -/
def tag (outputFileName : Text) : Text :=
  match outputFileName.reverse.findIdx? (· = '/') with
  | none => []
  | some k =>
    match (outputFileName.drop (outputFileName.length - 1 - k)).findIdx? fun c => c = '_' ∨ c = '.' with
    | none => []
    | some found =>
      (outputFileName.drop (outputFileName.length - 1 - k)).take (outputFileName.length - 1 - k + found)

/-- A file name with the tag of the reference in place of its own. -/
def retag (refTag name : Text) : Text :=
  if refTag ≠ [] ∧ tag name ≠ [] ∧ tag name ≠ refTag then
    (ReplaceN.replace_n (name.length + 1) name (tag name) refTag 1).getD name
  else name

/-- The trace objects get the tag of the reference. -/
def Object.retag (refTag : Text) (o : Object) : Object :=
  { o with outputFileName := TraceObjects.retag refTag o.outputFileName }

section Generate

variable {φ : Type} [DecidableEq φ] (canonical : Text → φ)

/-- The files of an object, `bfs::canonical` of all names. -/
def Object.fileSet (o : Object) : Finset φ := (o.channels.flatten.map canonical).toFinset

/-- An old-style trace object: without weight, and with a part of what the reference has. -/
def Object.converts (refID : ℕ) (ref o : Object) : Bool :=
  decide (o.ID ≠ refID ∧ o.weight = 0 ∧ o.waveFronts ≠ ref.waveFronts ∧ o.waveFronts ⊆ ref.waveFronts ∧
    o.fileSet canonical ⊆ ref.fileSet canonical)

def Object.converted (refID : ℕ) (o : Object) : Object := { o with traceID := refID, channels := [] }

/-- A new trace object for each set of wavefronts that is not in `wfSets`. -/
def generateNew (refID : ℕ) (ref : Object) (idCnt : ℕ) : List (Finset ℕ) → List Object → List Object
  | _, [] => []
  | wfSets, o :: os =>
    if o.ID ≠ refID ∧ o.waveFronts ∉ wfSets then
      { ref with ID := idCnt, traceID := refID, outputFileName := o.outputFileName,
                 waveFrontList := o.waveFrontList, nObjectImages := o.waveFrontList.length } ::
        generateNew refID ref idCnt (o.waveFronts :: wfSets) os
    else generateNew refID ref idCnt wfSets os

/-- `MomfbdJob::generateTraceObjects`; nothing, if `objects[refID]` does not exist. -/
def Job.generateTraceObjects (job : Job) : Option Job :=
  if job.trace then
    match job.refID with
    | none => some job
    | some refID =>
      job.objects[refID]?.bind fun ref => job.idCnt.map fun idCnt =>
        let old := job.objects.filter (Object.converts canonical refID ref)
        let objects := job.objects.filter (fun o => !Object.converts canonical refID ref o)
        let new := generateNew refID ref idCnt (old.map Object.waveFronts) objects
        { job with objects := objects,
                   trace_objects := (job.trace_objects ++ old.map (Object.converted refID) ++ new).map
                     (Object.retag (tag ref.outputFileName)) }
  else some job

/-- The sets of wavefronts that get a new trace object. -/
def Job.newWaveFronts (job : Job) (refID : ℕ) (ref : Object) : Finset (Finset ℕ) :=
  ((job.objects.filter fun o => !Object.converts canonical refID ref o && decide (o.ID ≠ refID)).map
      Object.waveFronts).toFinset \
    ((job.objects.filter (Object.converts canonical refID ref)).map Object.waveFronts).toFinset

end Generate

/-! ## Data -/

/-- An `ObjectData`; its contents are of any type. -/
structure ObjectData (δ : Type) where
  myObject : Option Object
  content : δ

structure PatchData (δ : Type) where
  objects : List (Option (ObjectData δ))
  trace_data : List (Option (ObjectData δ))

section Data

variable {δ : Type}

def ofID (id : ℕ) (o : Option (ObjectData δ)) : Option (ObjectData δ) :=
  o.filter fun d => d.myObject.any fun obj => decide (obj.ID = id)

/-- `PatchData::getObjectData`. -/
def PatchData.getObjectData (patch : PatchData δ) (id : ℕ) : Option (ObjectData δ) :=
  (patch.objects.findSome? (ofID id)).or (patch.trace_data.findSome? (ofID id))

/-- `PatchData::copyResults`, nothing if it throws. -/
def PatchData.copyResults (job : Job) (patch rhs : PatchData δ) : Option (PatchData δ) :=
  if patch.objects.length ≠ rhs.objects.length ∨ rhs.trace_data.length ≠ job.trace_objects.length then none
  else
    some
      { objects := List.zipWith (fun o r => o.map fun d => ⟨d.myObject, (r.map ObjectData.content).getD d.content⟩)
          patch.objects rhs.objects
        trace_data := (List.range rhs.trace_data.length).map fun i =>
          match rhs.trace_data[i]? with
          | some (some r) => some ⟨job.trace_objects[i]?, r.content⟩
          | _ => (patch.trace_data[i]?).join }

/-- The data are those of the objects of the job, as the constructor and `copyResults` leave them. -/
structure PatchData.BelongsTo (patch : PatchData δ) (job : Job) : Prop where
  objects : ∀ d, some d ∈ patch.objects → ∃ obj ∈ job.objects, d.myObject = some obj
  trace_data : ∀ (i : ℕ) (d : ObjectData δ), patch.trace_data[i]? = some (some d) →
    ∃ obj, job.trace_objects[i]? = some obj ∧ d.myObject = some obj

end Data

/-- No two objects have the same ID. -/
def Job.Distinct (job : Job) : Prop := ((job.objects ++ job.trace_objects).map Object.ID).Nodup

/-- All IDs are distinct, and in every patch of the job the data of a trace object are found by its ID. -/
def Job.OwnData (δ : Type) (job : Job) : Prop :=
  job.Distinct ∧ ∀ patch : PatchData δ, patch.BelongsTo job → ∀ (i : ℕ) d obj,
    patch.trace_data[i]? = some (some d) → job.trace_objects[i]? = some obj → patch.getObjectData obj.ID = some d

/-! ## The IDs -/

section Results

variable {φ δ : Type} [DecidableEq φ] {canonical : Text → φ} {job job' : Job} {refID idCnt : ℕ} {ref : Object}

theorem map_ID_generateNew : ∀ (os : List Object) (wfSets : List (Finset ℕ)),
    (generateNew refID ref idCnt wfSets os).map Object.ID =
      List.replicate (generateNew refID ref idCnt wfSets os).length idCnt
  | [], _ => rfl
  | o :: os, wfSets => by
    rw [generateNew]
    split_ifs
    · rw [List.map_cons, List.length_cons, List.replicate_succ, map_ID_generateNew os]
    · exact map_ID_generateNew os wfSets

/-- One for each set of wavefronts that is new. -/
theorem length_generateNew (refID : ℕ) (ref : Object) (idCnt : ℕ) : ∀ (os : List Object) (wfSets : List (Finset ℕ)),
    (generateNew refID ref idCnt wfSets os).length =
      (((os.filter fun o => decide (o.ID ≠ refID)).map Object.waveFronts).toFinset \ wfSets.toFinset).card
  | [], _ => by simp [generateNew]
  | o :: os, wfSets => by
    rw [generateNew]
    by_cases hid : o.ID = refID
    · rw [if_neg fun h => h.1 hid, length_generateNew refID ref idCnt os, List.filter_cons_of_neg (by simpa using hid)]
    · rw [List.filter_cons_of_pos (by simpa using hid), List.map_cons, List.toFinset_cons]
      by_cases hmem : o.waveFronts ∈ wfSets
      · rw [if_neg fun h => h.2 hmem, length_generateNew refID ref idCnt os,
          Finset.insert_sdiff_of_mem _ (List.mem_toFinset.2 hmem)]
      · rw [if_pos ⟨hid, hmem⟩, List.length_cons, length_generateNew refID ref idCnt os, List.toFinset_cons,
          Finset.sdiff_insert, Finset.insert_sdiff_of_notMem _ fun h => hmem (List.mem_toFinset.1 h),
          ← Finset.erase_insert_eq_erase]
        exact Finset.card_erase_add_one (Finset.mem_insert_self _ _)

theorem map_ID_retag (refTag : Text) (os : List Object) :
    (os.map (Object.retag refTag)).map Object.ID = os.map Object.ID := by
  rw [List.map_map]
  rfl

theorem map_ID_converted (os : List Object) : (os.map (Object.converted refID)).map Object.ID = os.map Object.ID := by
  rw [List.map_map]
  rfl

/-- **The IDs afterwards: those of before, and as many copies of one more as there are new sets of
wavefronts.** -/
theorem ids_generateTraceObjects (htrace : job.trace = true) (hrefID : job.refID = some refID)
    (href : job.objects[refID]? = some ref) (hidCnt : job.idCnt = some idCnt)
    (h : job.generateTraceObjects canonical = some job') :
    ((job'.objects ++ job'.trace_objects).map Object.ID).Perm
      ((job.objects ++ job.trace_objects).map Object.ID ++
        List.replicate (job.newWaveFronts canonical refID ref).card idCnt) := by
  rw [Job.generateTraceObjects, if_pos htrace, hrefID] at h
  simp only [href, hidCnt, Option.bind_some, Option.map_some, Option.some_inj] at h
  subst h
  have hlen := length_generateNew refID ref idCnt
    (job.objects.filter fun o => !Object.converts canonical refID ref o)
    ((job.objects.filter (Object.converts canonical refID ref)).map Object.waveFronts)
  rw [List.filter_filter] at hlen
  have hnew : (job.newWaveFronts canonical refID ref).card = (generateNew refID ref idCnt
      ((job.objects.filter (Object.converts canonical refID ref)).map Object.waveFronts)
      (job.objects.filter fun o => !Object.converts canonical refID ref o)).length := by
    rw [hlen, Job.newWaveFronts]
    simp only [Bool.and_comm]
  rw [hnew]
  simp only [List.map_append, map_ID_retag, map_ID_converted, map_ID_generateNew, ← List.append_assoc]
  refine List.Perm.append_right _ ?_
  rw [List.append_assoc]
  refine (List.Perm.append_left _ List.perm_append_comm).trans ?_
  rw [← List.append_assoc]
  refine List.Perm.append_right _ ?_
  rw [← List.map_append]
  exact (List.perm_append_comm.trans (List.filter_append_perm _ _)).map _

/-- What remains as it was, or becomes undefined. -/
theorem generateTraceObjects_cases (h : job.generateTraceObjects canonical = some job') :
    (job.trace = false ∨ job.refID = none) ∧ job' = job ∨ ∃ refID ref idCnt, job.trace = true ∧
      job.refID = some refID ∧ job.objects[refID]? = some ref ∧ job.idCnt = some idCnt := by
  rw [Job.generateTraceObjects] at h
  cases htrace : job.trace with
  | false =>
    rw [htrace] at h
    exact .inl ⟨.inl rfl, (Option.some.inj h).symm⟩
  | true =>
    rw [htrace, if_pos rfl] at h
    cases hrefID : job.refID with
    | none =>
      rw [hrefID] at h
      exact .inl ⟨.inr rfl, (Option.some.inj h).symm⟩
    | some refID =>
      rw [hrefID] at h
      obtain ⟨ref, href, h⟩ := Option.bind_eq_some_iff.1 h
      obtain ⟨idCnt, hidCnt, -⟩ := Option.map_eq_some_iff.1 h
      exact .inr ⟨refID, ref, idCnt, rfl, rfl, href, hidCnt⟩

/-- At most one new trace object, and none whose ID an object or a trace object has. -/
def Job.OneNew (canonical : Text → φ) (job : Job) : Prop :=
  job.trace = true → ∀ refID ref idCnt, job.refID = some refID → job.objects[refID]? = some ref →
    job.idCnt = some idCnt → (job.newWaveFronts canonical refID ref).card = 0 ∨
      (job.newWaveFronts canonical refID ref).card = 1 ∧
        idCnt ∉ (job.objects ++ job.trace_objects).map Object.ID

theorem distinct_iff (h : job.generateTraceObjects canonical = some job') :
    job'.Distinct ↔ job.Distinct ∧ job.OneNew canonical := by
  rcases generateTraceObjects_cases h with ⟨hnone, rfl⟩ | ⟨refID, ref, idCnt, htrace, hrefID, href, hidCnt⟩
  · refine (and_iff_left fun htrace refID ref idCnt hrefID => ?_).symm
    rcases hnone with hfalse | hnone
    · exact Bool.noConfusion (htrace.symm.trans hfalse)
    · exact absurd (hrefID.symm.trans hnone) (Option.some_ne_none refID)
  · rw [Job.Distinct, (ids_generateTraceObjects htrace hrefID href hidCnt h).nodup_iff, List.nodup_append]
    refine and_congr_right fun _ => ⟨fun hnew _ refID' ref' idCnt' hrefID' href' hidCnt' => ?_, fun hnew => ?_⟩
    · obtain rfl := Option.some.inj (hrefID.symm.trans hrefID')
      obtain rfl := Option.some.inj (href.symm.trans href')
      obtain rfl := Option.some.inj (hidCnt.symm.trans hidCnt')
      have hle := List.nodup_replicate.1 hnew.1
      rcases Nat.eq_zero_or_pos (job.newWaveFronts canonical refID ref).card with hzero | hpos
      · exact .inl hzero
      · refine .inr ⟨by omega, fun hmem => hnew.2 idCnt hmem idCnt ?_ rfl⟩
        exact List.mem_replicate.2 ⟨by omega, rfl⟩
    · rcases hnew htrace refID ref idCnt hrefID href hidCnt with hzero | ⟨hone, hfree⟩
      · rw [hzero]
        exact ⟨List.nodup_nil, fun _ _ b hb => absurd hb List.not_mem_nil⟩
      · rw [hone]
        refine ⟨List.nodup_singleton _, fun a ha b hb heq => hfree ?_⟩
        obtain rfl := List.mem_singleton.1 hb
        exact heq ▸ ha

/-! ## The lookup -/

theorem ofID_of_eq {d : ObjectData δ} {obj : Object} (h : d.myObject = some obj) : ofID obj.ID (some d) = some d := by
  simp [ofID, h]

theorem ofID_of_ne {d : ObjectData δ} {obj : Object} {id : ℕ} (h : d.myObject = some obj) (hne : obj.ID ≠ id) :
    ofID id (some d) = none := by
  simp [ofID, h, hne]

/-- **With distinct IDs, the data of a trace object are found.** -/
theorem getObjectData_of_distinct (h : job.Distinct) {patch : PatchData δ} (hpatch : patch.BelongsTo job) {i : ℕ}
    {d : ObjectData δ} {obj : Object} (hd : patch.trace_data[i]? = some (some d))
    (hobj : job.trace_objects[i]? = some obj) : patch.getObjectData obj.ID = some d := by
  rw [Job.Distinct, List.map_append, List.nodup_append] at h
  obtain ⟨-, htrace, hdisjoint⟩ := h
  have hmem : obj.ID ∈ job.trace_objects.map Object.ID := List.mem_map_of_mem (List.mem_of_getElem? hobj)
  have hobjects : patch.objects.findSome? (ofID obj.ID) = none := by
    refine List.findSome?_eq_none_iff.2 fun o ho => ?_
    cases o with
    | none => rfl
    | some d' =>
      obtain ⟨obj', hobj', hmy⟩ := hpatch.objects d' ho
      exact ofID_of_ne hmy (hdisjoint _ (List.mem_map_of_mem hobj') _ hmem)
  have hlt : i < patch.trace_data.length := (List.getElem?_eq_some_iff.1 hd).1
  have hsplit : patch.trace_data = patch.trace_data.take i ++ some d :: patch.trace_data.drop (i + 1) := by
    rw [← (List.getElem?_eq_some_iff.1 hd).2, List.cons_getElem_drop_succ, List.take_append_drop]
  obtain ⟨obj', hobj', hmy⟩ := hpatch.trace_data i d hd
  obtain rfl := Option.some.inj (hobj.symm.trans hobj')
  rw [PatchData.getObjectData, hobjects, Option.none_or]
  refine List.findSome?_eq_some_iff.2 ⟨_, _, _, hsplit, ofID_of_eq hmy, fun o ho => ?_⟩
  obtain ⟨j, hj, rfl⟩ := List.mem_iff_getElem.1 ho
  have hji : j < i := lt_of_lt_of_le hj (List.length_take_le _ _)
  rw [List.getElem_take, ← List.get_eq_getElem (i := ⟨j, hji.trans hlt⟩)]
  cases hget : patch.trace_data.get ⟨j, hji.trans hlt⟩ with
  | none => rfl
  | some d' =>
    have hgot : patch.trace_data[j]? = some (some d') := by
      rw [List.getElem?_eq_getElem (hji.trans hlt), ← hget, List.get_eq_getElem]
    obtain ⟨obj', hobj', hmy'⟩ := hpatch.trace_data j d' hgot
    refine ofID_of_ne hmy' fun heq => Nat.ne_of_lt hji ?_
    have hj' : (job.trace_objects.map Object.ID)[j]? = some obj.ID := by
      rw [List.getElem?_map, hobj', Option.map_some, heq]
    have hi' : (job.trace_objects.map Object.ID)[i]? = some obj.ID := by
      rw [List.getElem?_map, hobj, Option.map_some]
    have hjlt : j < (job.trace_objects.map Object.ID).length := (List.getElem?_eq_some_iff.1 hj').1
    exact (List.getElem?_inj hjlt htrace).1 (hj'.trans hi'.symm)

theorem ownData_iff_distinct : job.OwnData δ ↔ job.Distinct :=
  and_iff_left_of_imp fun h _ hpatch _ _ _ hd hobj => getObjectData_of_distinct h hpatch hd hobj

/-- What `copyResults` leaves are data of the objects of the job. -/
theorem copyResults_belongsTo {patch rhs patch' : PatchData δ} (hpatch : patch.BelongsTo job)
    (h : patch.copyResults job rhs = some patch') : patch'.BelongsTo job := by
  rw [PatchData.copyResults] at h
  split_ifs at h with hlen
  obtain rfl := Option.some.inj h
  rw [not_or, not_not, not_not] at hlen
  refine ⟨fun d hd => ?_, fun i d hd => ?_⟩
  · obtain ⟨k, hk, hget⟩ := List.mem_iff_getElem.1 hd
    rw [List.getElem_zipWith, Option.map_eq_some_iff] at hget
    obtain ⟨d', hd', rfl⟩ := hget
    exact hpatch.objects d' (hd' ▸ List.getElem_mem _)
  · obtain ⟨hi, hget⟩ := List.getElem?_eq_some_iff.1 hd
    have hi' : i < job.trace_objects.length := by simpa [hlen.2] using hi
    simp only [List.getElem_map, List.getElem_range] at hget
    split at hget
    · obtain rfl := Option.some.inj hget
      exact ⟨job.trace_objects[i], List.getElem?_eq_getElem hi', List.getElem?_eq_getElem hi'⟩
    · exact hpatch.trace_data i d (Option.join_eq_some_iff.1 hget)

/-- **The trace objects get their own data exactly if the IDs were distinct, and if there is at most one new
trace object, with an ID that nobody has.** -/
theorem ownData_generated_iff (h : job.generateTraceObjects canonical = some job') :
    job'.OwnData δ ↔ job.Distinct ∧ job.OneNew canonical :=
  ownData_iff_distinct.trans (distinct_iff h)

/-- An object with channels that have no files. -/
def plain (ID : ℕ) (waveFrontList : List ℕ) : Object := ⟨ID, -1, false, 1, waveFrontList, 0, [], []⟩

/-- One set of wavefronts besides that of the reference, and two objects. -/
def oneSet : Job := ⟨true, [plain 0 [1, 2], plain 1 [1]], []⟩

theorem oneSet_generates : oneSet.generateTraceObjects (id : Text → Text) =
    some { oneSet with trace_objects := [{ plain 2 [1] with traceID := 0, nObjectImages := 1 }] } := by
  decide +kernel

theorem oneSet_oneNew : oneSet.OneNew (id : Text → Text) := by
  intro _ refID ref idCnt hrefID href hidCnt
  have hrefID' : oneSet.refID = some 0 := by decide +kernel
  have hidCnt' : oneSet.idCnt = some 2 := by decide +kernel
  obtain rfl := Option.some.inj (hrefID'.symm.trans hrefID)
  obtain rfl := Option.some.inj (hidCnt'.symm.trans hidCnt)
  have href' : oneSet.objects[0]? = some (plain 0 [1, 2]) := rfl
  obtain rfl := Option.some.inj (href'.symm.trans href)
  exact .inr (by decide +kernel)

/-- The one trace object gets the ID 2, and its own data. -/
theorem ownData_generated_iff_oneNew : ∃ job', oneSet.generateTraceObjects (id : Text → Text) = some job' ∧
    job'.trace_objects.map Object.ID = [2] ∧ job'.OwnData ℕ :=
  ⟨_, oneSet_generates, rfl,
    (ownData_generated_iff oneSet_generates).2 ⟨by unfold Job.Distinct; decide, oneSet_oneNew⟩⟩

/-- Two sets of wavefronts besides that of the reference: both trace objects have the ID 3. -/
theorem two_new_share_ID : ¬ ∀ job', (Job.mk true [plain 0 [1, 2], plain 1 [1], plain 2 [2]] []).generateTraceObjects
    (id : Text → Text) = some job' → job'.OwnData ℕ := by
  intro h
  have hgen : (Job.mk true [plain 0 [1, 2], plain 1 [1], plain 2 [2]] []).generateTraceObjects
      (id : Text → Text) = some ⟨true, [plain 0 [1, 2], plain 1 [1], plain 2 [2]],
        [{ plain 3 [1] with traceID := 0, nObjectImages := 1 },
         { plain 3 [2] with traceID := 0, nObjectImages := 1 }]⟩ := by decide +kernel
  exact absurd (h _ hgen).1 (by unfold Job.Distinct; decide)

end Results

end Redux.Momfbd.TraceObjects
