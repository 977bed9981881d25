import Redux.Momfbd.ObjectMetric

/-!
# Momfbd.MetricWatch — the handler of an object comes once, when its sums are complete

The counter lacks as many steps of the target as the running batches have left, and for each batch that is
not yet posted its images, and its own step once the target has been raised for it.  As such a batch has an
image at least, the counter cannot reach the target before all of them are posted and done.
-/

namespace Redux.Momfbd.Metric

open Redux.Lib

section Owed

variable {ι : Type} (obj : Object ι)

/-! ## What a batch has left to do -/

def BatchOp.isStep : BatchOp ι → Bool
  | .step => true
  | _ => false

def BatchOp.isHandler : BatchOp ι → Bool
  | .handler => true
  | _ => false

namespace Batch

/-- The steps of the watch. -/
def steps (b : Batch ι) : ℕ := b.ops.countP BatchOp.isStep

/-- The calls of the handler. -/
def handlers (b : Batch ι) : ℕ := b.ops.countP BatchOp.isHandler

end Batch

/-- What the operations add to the sums of the object, with `tmp` in the storage. -/
def owed : Sums ι → List (BatchOp ι) → Sums ι
  | _, [] => 0
  | tmp, .addPQ im :: ops => owed (obj.addPQ im tmp) ops
  | tmp, .addToPQ :: ops => obj.onSupport tmp + owed tmp ops
  | tmp, _ :: ops => owed tmp ops

/-- Whoever adds to the sums makes a step after that. -/
def Announced : List (BatchOp ι) → Prop
  | [] => True
  | .addToPQ :: ops => 0 < ops.countP BatchOp.isStep ∧ Announced ops
  | _ :: ops => Announced ops

theorem owed_batchOps (imgs : List ι) (tmp : Sums ι) :
    owed obj tmp (batchOps imgs) = obj.onSupport tmp + (imgs.map obj.part).sum := by
  induction imgs generalizing tmp with
  | nil => simp only [batchOps, List.flatMap_nil, List.nil_append, owed, List.map_nil, List.sum_nil]
  | cons im imgs ih =>
    have hnext : owed obj tmp (batchOps (im :: imgs)) = owed obj (obj.addPQ im tmp) (batchOps imgs) := rfl
    rw [hnext, ih, Object.addPQ_eq, Object.onSupport_add, Object.onSupport_part, List.map_cons, List.sum_cons,
      add_assoc]

theorem steps_batchOps (imgs : List ι) : (batchOps imgs).countP BatchOp.isStep = imgs.length + 1 := by
  induction imgs with
  | nil => rfl
  | cons im imgs ih =>
    have hnext : batchOps (im :: imgs) = .addPQ im :: .step :: batchOps imgs := rfl
    rw [hnext, List.countP_cons_of_neg Bool.false_ne_true, List.countP_cons_of_pos rfl, ih, List.length_cons]

theorem handlers_batchOps (imgs : List ι) : (batchOps imgs).countP BatchOp.isHandler = 0 := by
  induction imgs with
  | nil => rfl
  | cons im imgs ih => exact ih

theorem announced_batchOps (imgs : List ι) : Announced (batchOps imgs) := by
  induction imgs with
  | nil => exact ⟨Nat.one_pos, trivial⟩
  | cons im imgs ih => exact ih

variable {obj}

theorem Announced.tail {op : BatchOp ι} {ops : List (BatchOp ι)} (h : Announced (op :: ops)) : Announced ops := by
  cases op with
  | addToPQ => exact h.2
  | addPQ im => exact h
  | step => exact h
  | handler => exact h

/-- **Without a step left nothing is left to be added.** -/
theorem Announced.owed_eq_zero {ops : List (BatchOp ι)} {tmp : Sums ι} (h : Announced ops)
    (hsteps : ops.countP BatchOp.isStep = 0) : owed obj tmp ops = 0 := by
  induction ops generalizing tmp with
  | nil => rfl
  | cons op ops ih =>
    cases op with
    | addPQ im =>
      rw [List.countP_cons_of_neg Bool.false_ne_true] at hsteps
      exact ih h.tail hsteps
    | step =>
      rw [List.countP_cons_of_pos rfl] at hsteps
      exact absurd hsteps (Nat.succ_ne_zero _)
    | addToPQ =>
      rw [List.countP_cons_of_neg Bool.false_ne_true] at hsteps
      exact absurd hsteps (Nat.ne_of_gt h.1)
    | handler =>
      rw [List.countP_cons_of_neg Bool.false_ne_true] at hsteps
      exact ih h.tail hsteps

end Owed

section Program

variable {ι : Type} {obj : Object ι}

/-! ## What is left to be posted -/

def Instr.unposted : Instr ι → Option (List ι)
  | .post imgs => some imgs
  | _ => none

def Instr.isRaise : Instr ι → Bool
  | .increaseTarget => true
  | _ => false

/-- The batches that are not yet posted. -/
def unposted (q : List (Instr ι)) : List (List ι) := q.filterMap Instr.unposted

/-- How often the target is still raised. -/
def raises (q : List (Instr ι)) : ℕ := q.countP Instr.isRaise

/-- The raises and posts of some batches. -/
def pairs (bs : List (List ι)) : List (Instr ι) := bs.flatMap fun imgs => [.increaseTarget, .post imgs]

theorem batches_eq (imgs : List ι) (begIndex : ℕ) : (batches imgs begIndex).flatten = imgs.drop begIndex ∧
    ∀ b ∈ batches imgs begIndex, b ≠ [] := by
  induction begIndex using batches.induct imgs with
  | case1 begIndex hlt endIndex ih =>
    have hend : begIndex < endIndex ∧ endIndex ≤ imgs.length := by
      have h30 : endIndex = min (begIndex + 30) imgs.length := rfl
      omega
    rw [batches, if_pos hlt]
    refine ⟨?_, List.forall_mem_cons.2 ⟨?_, ih.2⟩⟩
    · have hsplit : imgs.drop begIndex = (imgs.take endIndex ++ imgs.drop endIndex).drop begIndex := by
        rw [List.take_append_drop]
      rw [List.flatten_cons, ih.1, hsplit, List.drop_append_of_le_length]
      rw [List.length_take]
      omega
    · intro hnil
      have hlen := congrArg List.length hnil
      rw [List.length_drop, List.length_take, List.length_nil] at hlen
      omega
  | case2 begIndex hge =>
    rw [batches, if_neg hge, List.drop_eq_nil_of_le (Nat.le_of_not_lt hge)]
    exact ⟨rfl, fun b hb => absurd hb List.not_mem_nil⟩

/-- What is left of the raises and posts at any time. -/
theorem suffix_pairs {q : List (Instr ι)} : ∀ {bs : List (List ι)}, q <:+ pairs bs →
    (∃ bs', bs' <:+ bs ∧ q = pairs bs') ∨ ∃ b bs', b :: bs' <:+ bs ∧ q = .post b :: pairs bs'
  | [], h => .inl ⟨[], List.suffix_refl _, List.suffix_nil.1 h⟩
  | b :: bs, h => by
    have hpairs : pairs (b :: bs) = .increaseTarget :: .post b :: pairs bs := rfl
    rw [hpairs, List.suffix_cons_iff, List.suffix_cons_iff] at h
    rcases h with rfl | rfl | h
    · exact .inl ⟨b :: bs, List.suffix_refl _, rfl⟩
    · exact .inr ⟨b, bs, List.suffix_refl _, rfl⟩
    · rcases suffix_pairs h with ⟨bs', hbs', rfl⟩ | ⟨b', bs', hbs', rfl⟩
      · exact .inl ⟨bs', hbs'.trans (List.suffix_cons _ _), rfl⟩
      · exact .inr ⟨b', bs', hbs'.trans (List.suffix_cons _ _), rfl⟩

theorem unposted_pairs (bs : List (List ι)) : unposted (pairs bs) = bs := by
  induction bs with
  | nil => rfl
  | cons b bs ih => exact congrArg (b :: ·) ih

theorem raises_pairs (bs : List (List ι)) : raises (pairs bs) = bs.length := by
  induction bs with
  | nil => rfl
  | cons b bs ih =>
    have hpairs : pairs (b :: bs) = .increaseTarget :: .post b :: pairs bs := rfl
    rw [raises, hpairs, List.countP_cons_of_pos rfl, List.countP_cons_of_neg Bool.false_ne_true]
    exact congrArg (· + 1) ih

theorem length_le_flatten {bs : List (List ι)} (h : ∀ b ∈ bs, b ≠ []) : bs.length ≤ bs.flatten.length := by
  induction bs with
  | nil => exact le_rfl
  | cons b bs ih =>
    have hb := List.length_pos_iff.2 (h b List.mem_cons_self)
    have hbs := ih fun b' hb' => h b' (List.mem_cons_of_mem _ hb')
    rw [List.flatten_cons, List.length_append, List.length_cons]
    omega

/-- **The steps that batches not yet posted will make are more than the raises that are left for them.** -/
theorem raises_lt {bs : List (List ι)} {q : List (Instr ι)} (h : ∀ b ∈ bs, b ≠ []) (hq : q <:+ pairs bs)
    (hne : q ≠ []) : raises q < (unposted q).flatten.length + (unposted q).length := by
  rcases suffix_pairs hq with ⟨bs', hbs', rfl⟩ | ⟨b, bs', hbs', rfl⟩
  · have hle := length_le_flatten fun b hb => h b (hbs'.subset hb)
    rw [raises_pairs, unposted_pairs]
    cases bs' with
    | nil => exact absurd rfl hne
    | cons b bs' =>
      rw [List.length_cons] at hle ⊢
      omega
  · have hraises : raises (.post b :: pairs bs') = bs'.length := raises_pairs bs'
    have hunposted : unposted (.post b :: pairs bs') = b :: bs' := congrArg (b :: ·) (unposted_pairs bs')
    rw [hraises, hunposted, List.length_cons]
    omega

namespace Object

variable (obj)

/-- The batches of all channels. -/
def batchList : List (List ι) := obj.channels.flatMap fun c => batches c.subImages 0

theorem flatten_batchList : obj.batchList.flatten = obj.subImages := by
  rw [batchList, subImages]
  induction obj.channels with
  | nil => rfl
  | cons c cs ih =>
    rw [List.flatMap_cons, List.flatten_append, ih, (batches_eq c.subImages 0).1, List.drop_zero]
    rfl

theorem batchList_ne_nil : ∀ b ∈ obj.batchList, b ≠ [] := by
  intro b hb
  obtain ⟨c, -, hb⟩ := List.mem_flatMap.1 hb
  exact (batches_eq c.subImages 0).2 b hb

theorem channel_nImages (c : Channel ι) : c.nImages = c.subImages.length := by
  rw [Channel.nImages, if_neg c.files, ← c.counted, ite_self, c.sized]

/-- **The target that the watch starts with is the number of sub-images.** -/
theorem nImages_eq : obj.nImages = obj.subImages.length := by
  have hsum : (obj.channels.map Channel.nImages).sum = obj.subImages.length := by
    rw [subImages, List.length_flatMap]
    exact congrArg List.sum (List.map_congr_left fun c _ => channel_nImages c)
  rw [nImages]
  rcases obj.counted with h | h
  · rw [if_pos h, hsum]
  · split_ifs with h0
    · exact hsum
    · rw [h, hsum]

theorem mem_posts {i : Instr ι} (h : i ∈ obj.posts) : i = .increaseTarget ∨ ∃ imgs, i = .post imgs := by
  obtain ⟨imgs, -, hi⟩ := List.mem_flatMap.1 h
  rcases List.mem_pair.1 hi with rfl | rfl
  · exact .inl rfl
  · exact .inr ⟨imgs, rfl⟩

theorem not_mem_posts : .initPQ ∉ obj.posts ∧ .set ∉ obj.posts ∧ .setHandler ∉ obj.posts := by
  refine ⟨fun h => ?_, fun h => ?_, fun h => ?_⟩
  all_goals rcases obj.mem_posts h with h | ⟨imgs, h⟩ <;> cases h

variable {obj}

/-- The instruction that comes next. -/
theorem program_cases {i : Instr ι} {q : List (Instr ι)} (h : i :: q <:+ obj.program) :
    (i = .initPQ ∧ q = .set :: .setHandler :: obj.posts) ∨ (i = .set ∧ q = .setHandler :: obj.posts) ∨
      (i = .setHandler ∧ q = obj.posts) ∨ i :: q <:+ obj.posts := by
  rw [program, List.suffix_cons_iff, List.suffix_cons_iff, List.suffix_cons_iff] at h
  rcases h with h | h | h | h
  · exact .inl (List.cons.inj h)
  · exact .inr (.inl (List.cons.inj h))
  · exact .inr (.inr (.inl (List.cons.inj h)))
  · exact .inr (.inr (.inr h))

theorem posting {q : List (Instr ι)} (h : q <:+ obj.program) (hset : .setHandler ∉ q) : q <:+ obj.posts := by
  cases q with
  | nil => exact List.nil_suffix
  | cons i q =>
    rcases program_cases h with ⟨rfl, rfl⟩ | ⟨rfl, rfl⟩ | ⟨rfl, rfl⟩ | h
    · exact absurd (by simp) hset
    · exact absurd (by simp) hset
    · exact absurd (by simp) hset
    · exact h

end Object

end Program

section Invariant

variable {ι : Type}

/-! ## The invariant of an object -/

namespace ObjectState

variable (st : ObjectState ι)

/-- The steps that the posted batches have left. -/
def steps : ℕ := (st.batches.map Batch.steps).sum

/-- How often the handler has been called (`called`) or will be. -/
def calls (called : ℕ) : ℕ := (st.batches.map Batch.handlers).sum + called

/-- What the posted batches add to the sums. -/
def owed (obj : Object ι) : Sums ι := (st.batches.map fun b => Metric.owed obj b.tmp b.ops).sum

end ObjectState

/-- `q` is what `metric()` has left to do for the object, and the handler has been called `called` times. -/
structure Inv (obj : Object ι) (q : List (Instr ι)) (st : ObjectState ι) (called : ℕ) : Prop where
  own : q <:+ obj.program
  announced : ∀ b ∈ st.batches, Announced b.ops
  idle : .setHandler ∈ q → st.batches = [] ∧ called = 0
  sums : .initPQ ∉ q → st.sums + st.owed obj + ((unposted q).flatten.map obj.part).sum = obj.full
  start : .set ∉ q → st.progWatch.start = 0
  due : st.calls called = 0 → .set ∉ q → 0 ≤ st.progWatch.counter ∧ st.progWatch.counter < st.progWatch.target ∧
    st.progWatch.target + raises q =
      st.progWatch.counter + st.steps + (unposted q).flatten.length + (unposted q).length
  handler : st.calls called = 0 → .setHandler ∉ q → st.progWatch.onCompletion = some ()
  fired : st.calls called ≠ 0 → st.calls called = 1 ∧ q = [] ∧ st.steps = 0

variable {obj : Object ι} {q : List (Instr ι)} {st st' : ObjectState ι} {called : ℕ}

/-- Before `metric()` comes to the object. -/
theorem inv_begin (hbatches : st.batches = []) : Inv obj obj.program st 0 where
  own := List.suffix_refl _
  announced b hb := by
    rw [hbatches] at hb
    exact absurd hb List.not_mem_nil
  idle _ := ⟨hbatches, rfl⟩
  sums h := absurd (by simp [Object.program]) h
  start h := absurd (by simp [Object.program]) h
  due _ h := absurd (by simp [Object.program]) h
  handler _ h := absurd (by simp [Object.program]) h
  fired h := absurd (by simp [ObjectState.calls, hbatches]) h

/-- `calcMetric` changes its result only. -/
theorem Object.calcMetric_eq (st : ObjectState ι) : (obj.calcMetric st).sums = st.sums ∧
    (obj.calcMetric st).progWatch = st.progWatch ∧ (obj.calcMetric st).batches = st.batches := by
  unfold calcMetric
  split_ifs
  · exact ⟨rfl, rfl, rfl⟩
  · exact ⟨rfl, rfl, rfl⟩

namespace Inv

/-- Before the handler is set, no batch has been posted. -/
theorem quiet (h : Inv obj q st called) (hset : .setHandler ∈ q) :
    st.steps = 0 ∧ st.calls called = 0 ∧ st.owed obj = 0 := by
  obtain ⟨hbatches, rfl⟩ := h.idle hset
  simp [ObjectState.steps, ObjectState.calls, ObjectState.owed, hbatches]

/-- **A call of the handler finds all sub-images in the sums.** -/
theorem sums_full (h : Inv obj q st called) (hcalls : st.calls called ≠ 0) : st.sums = obj.full := by
  obtain ⟨-, rfl, hsteps⟩ := h.fired hcalls
  have howed : st.owed obj = 0 := by
    refine sum_map_eq_zero fun b hb => (h.announced b hb).owed_eq_zero ?_
    exact List.sum_eq_zero_iff.1 hsteps _ (List.mem_map_of_mem hb)
  have hsums := h.sums List.not_mem_nil
  rw [howed, add_zero] at hsums
  exact (add_zero _).symm.trans hsums

/-- **What the main thread does for the object keeps the invariant.** -/
theorem exec {i : Instr ι} (h : Inv obj (i :: q) st called) : Inv obj q (obj.exec st i) called := by
  have hown : q <:+ obj.program := (List.suffix_cons _ _).trans h.own
  obtain ⟨hnoInit, hnoSet, hnoHandler⟩ := obj.not_mem_posts
  have hlist : unposted obj.posts = obj.batchList := unposted_pairs obj.batchList
  rcases Object.program_cases h.own with ⟨rfl, rfl⟩ | ⟨rfl, rfl⟩ | ⟨rfl, rfl⟩ | hposts
  · -- `initPQ`
    obtain ⟨hsteps, hcalls, howed⟩ := h.quiet (by simp)
    refine ⟨hown, h.announced, fun _ => h.idle (by simp), fun _ => ?_, fun hs => ?_, fun _ hs => ?_,
      fun _ hs => ?_, fun hc => absurd hcalls hc⟩
    · have hunposted : unposted (.set :: .setHandler :: obj.posts) = obj.batchList := hlist
      have hzero : (obj.exec st .initPQ).owed obj = 0 := howed
      rw [hunposted, Object.flatten_batchList, hzero, add_zero, Object.full_eq]
      rfl
    · exact absurd (by simp) hs
    · exact absurd (by simp) hs
    · exact absurd (by simp) hs
  · -- `progWatch.set`
    obtain ⟨hsteps, hcalls, howed⟩ := h.quiet (by simp)
    have hunposted : unposted (.setHandler :: obj.posts) = obj.batchList := hlist
    have hraises : raises (.setHandler :: obj.posts) = obj.batchList.length := raises_pairs obj.batchList
    refine ⟨hown, h.announced, fun _ => h.idle (by simp), fun _ => h.sums ?_, fun _ => rfl, fun _ _ => ⟨le_rfl, ?_, ?_⟩,
      fun _ hs => absurd (by simp) hs, fun hc => absurd hcalls hc⟩
    · simpa using hnoInit
    · have hpos := List.length_pos_iff.2 obj.hasImages
      have hn := obj.nImages_eq
      show (0 : ℤ) < obj.nImages
      rw [Object.subImages] at hn
      omega
    · have hzero : (obj.exec st .set).steps = 0 := hsteps
      rw [hunposted, hraises, hzero, Object.flatten_batchList, ← obj.nImages_eq]
      show (obj.nImages : ℤ) + _ = 0 + _ + _ + _
      omega
  · -- `progWatch.setHandler`
    obtain ⟨hsteps, hcalls, howed⟩ := h.quiet (by simp)
    refine ⟨hown, h.announced, fun hs => absurd hs hnoHandler, fun _ => h.sums (by simpa using hnoInit),
      fun _ => h.start (by simpa using hnoSet), fun hc _ => h.due hc (by simpa using hnoSet), fun _ _ => rfl,
      fun hc => absurd hcalls hc⟩
  · have hrest : q <:+ obj.posts := (List.suffix_cons _ _).trans hposts
    have hcalls : st.calls called = 0 := by
      by_contra hc
      exact List.cons_ne_nil _ _ (h.fired hc).2.1
    have hinit : .initPQ ∉ i :: q := fun hs => hnoInit (hposts.subset hs)
    have hset : .set ∉ i :: q := fun hs => hnoSet (hposts.subset hs)
    have hhandler : .setHandler ∉ i :: q := fun hs => hnoHandler (hposts.subset hs)
    obtain ⟨hnonneg, hlt, hdue⟩ := h.due hcalls hset
    rcases obj.mem_posts (hposts.subset List.mem_cons_self) with rfl | ⟨imgs, rfl⟩
    · -- `increaseTarget`
      refine ⟨hown, h.announced, fun hs => absurd (hrest.subset hs) hnoHandler, fun _ => h.sums hinit,
        fun _ => h.start hset, fun _ _ => ⟨hnonneg, ?_, ?_⟩, fun hc _ => h.handler hc hhandler, fun hc =>
          absurd hcalls hc⟩
      · exact hlt.trans (lt_add_one _)
      · have hraises : raises (.increaseTarget :: q) = raises q + 1 := List.countP_cons_of_pos rfl
        have hunposted : unposted (.increaseTarget :: q) = unposted q := rfl
        have hsteps : (obj.exec st .increaseTarget).steps = st.steps := rfl
        rw [hraises, hunposted] at hdue
        rw [hsteps]
        show st.progWatch.target + 1 + _ = st.progWatch.counter + _ + _ + _
        omega
    · -- `post`
      have hunposted : unposted (.post imgs :: q) = imgs :: unposted q := rfl
      have hraises : raises (.post imgs :: q) = raises q := rfl
      have hsteps : (obj.exec st (.post imgs)).steps = st.steps + (imgs.length + 1) := by
        rw [← steps_batchOps imgs]
        exact sum_map_concat Batch.steps
      have hcalls' : (obj.exec st (.post imgs)).calls called = 0 := by
        rw [← hcalls]
        refine congrArg (· + called) ((sum_map_concat Batch.handlers).trans ?_)
        rw [Batch.handlers, handlers_batchOps, add_zero]
      have howed : (obj.exec st (.post imgs)).owed obj = st.owed obj + (imgs.map obj.part).sum := by
        refine (sum_map_concat _).trans (congrArg (st.owed obj + ·) ?_)
        rw [owed_batchOps, Object.onSupport_zero, zero_add]
      refine ⟨hown, ?_, fun hs => absurd (hrest.subset hs) hnoHandler, fun _ => ?_,
        fun _ => h.start hset, fun _ _ => ⟨hnonneg, hlt, ?_⟩, fun _ _ => h.handler hcalls hhandler,
        fun hc => absurd hcalls' hc⟩
      · exact List.forall_mem_append.2 ⟨h.announced, List.forall_mem_singleton.2 (announced_batchOps imgs)⟩
      · have hsums := h.sums hinit
        rw [hunposted, List.flatten_cons, List.map_append, List.sum_append] at hsums
        rw [howed, ← hsums]
        simp only [add_assoc]
        rfl
      · rw [hunposted, hraises, List.flatten_cons, List.length_append, List.length_cons] at hdue
        rw [hsteps]
        show st.progWatch.target + _ = st.progWatch.counter + _ + _ + _
        push_cast at hdue ⊢
        omega

/-- An operation other than `++` moves what is owed, and leaves the watch alone. -/
theorem of_eq {called' : ℕ} (h : Inv obj q st called) (hset : .setHandler ∉ q)
    (hannounced : ∀ b ∈ st'.batches, Announced b.ops) (hwatch : st'.progWatch = st.progWatch)
    (hsteps : st'.steps = st.steps) (hcalls : st'.calls called' = st.calls called)
    (hsums : st'.sums + st'.owed obj = st.sums + st.owed obj) : Inv obj q st' called' where
  own := h.own
  announced := hannounced
  idle hs := absurd hs hset
  sums hs := by rw [hsums, h.sums hs]
  start hs := by rw [hwatch, h.start hs]
  due hc hs := by
    rw [hcalls] at hc
    rw [hwatch, hsteps]
    exact h.due hc hs
  handler hc hs := by
    rw [hcalls] at hc
    rw [hwatch]
    exact h.handler hc hs
  fired hc := by
    rw [hcalls] at hc ⊢
    rw [hsteps]
    exact h.fired hc

/-- **The step of the watch: the target is reached once, by the last step of all.** -/
theorem step_watch {tmp : Sums ι} {ops : List (BatchOp ι)} {k : ℕ} (h : Inv obj q st called)
    (hset : .setHandler ∉ q) (hk : st.batches[k]? = some ⟨tmp, .step :: ops⟩) :
    Inv obj q { st with
      progWatch := st.progWatch.step.1
      batches := st.batches.set k ⟨tmp, st.progWatch.step.2.toList.map (fun _ => .handler) ++ ops⟩ } called := by
  have hposts := Object.posting h.own hset
  have hnoSet : .set ∉ q := fun hs => obj.not_mem_posts.2.1 (hposts.subset hs)
  obtain ⟨stepsRest, hsteps, hsteps'⟩ := sum_map_set Batch.steps hk
  obtain ⟨callsRest, hcalls, hcalls'⟩ := sum_map_set Batch.handlers hk
  obtain ⟨owedRest, howed, howed'⟩ := sum_map_set (fun b => owed obj b.tmp b.ops) hk
  have hannounced := (h.announced _ (List.mem_of_getElem? hk)).tail
  have hone : st.steps = ops.countP BatchOp.isStep + 1 + stepsRest := by
    rw [ObjectState.steps, hsteps, Batch.steps, List.countP_cons_of_pos rfl]
  have hnone : st.calls called = 0 := by
    by_contra hc
    have hzero := (h.fired hc).2.2
    omega
  obtain ⟨hnonneg, hlt, hdue⟩ := h.due hnone hnoSet
  have hstart := h.start hnoSet
  have hnoCalls : ops.countP BatchOp.isHandler = 0 ∧ callsRest + called = 0 := by
    rw [ObjectState.calls, hcalls, Batch.handlers, List.countP_cons_of_neg Bool.false_ne_true] at hnone
    omega
  have hsums : .initPQ ∉ q → st.sums + (owed obj tmp ops + owedRest) +
      ((unposted q).flatten.map obj.part).sum = obj.full := by
    intro hs
    have h' := h.sums hs
    rwa [ObjectState.owed, howed] at h'
  by_cases hit : st.progWatch.counter + 1 = st.progWatch.target
  · have hq : q = [] := by
      by_contra hne
      have hlt' := raises_lt obj.batchList_ne_nil hposts hne
      omega
    subst hq
    have hwatch := st.progWatch.step_of_eq (by omega) hit
    rw [h.handler hnone hset] at hwatch
    rw [hwatch]
    show Inv obj [] { st with
      progWatch := { st.progWatch with counter := st.progWatch.start, completed := true, onCompletion := none }
      batches := st.batches.set k ⟨tmp, .handler :: ops⟩ } called
    have hdue' : (0 : ℤ) + 1 = st.steps := by
      have hzero : raises ([] : List (Instr ι)) = 0 := rfl
      have hnil : unposted ([] : List (Instr ι)) = [] := rfl
      rw [hzero, hnil] at hdue
      simp only [List.flatten_nil, List.length_nil] at hdue
      omega
    have hcalls₁ : (st.batches.set k ⟨tmp, .handler :: ops⟩ |>.map Batch.handlers).sum + called = 1 := by
      rw [hcalls', Batch.handlers, List.countP_cons_of_pos rfl]
      omega
    have hsteps₁ : (st.batches.set k ⟨tmp, .handler :: ops⟩ |>.map Batch.steps).sum = 0 := by
      rw [hsteps', Batch.steps, List.countP_cons_of_neg Bool.false_ne_true]
      omega
    refine ⟨h.own, ?_, fun hs => absurd hs hset, fun hs => ?_, fun _ => hstart, fun hc => ?_, fun hc => ?_,
      fun _ => ⟨hcalls₁, rfl, hsteps₁⟩⟩
    · exact forall_mem_set h.announced hannounced
    · refine Eq.trans ?_ (hsums hs)
      rw [ObjectState.owed, howed']
      rfl
    · exact absurd (hcalls₁.symm.trans hc) Nat.one_ne_zero
    · exact absurd (hcalls₁.symm.trans hc) Nat.one_ne_zero
  · rw [st.progWatch.step_of_ne hit]
    show Inv obj q { st with
      progWatch := { st.progWatch with counter := st.progWatch.counter + 1, completed := false }
      batches := st.batches.set k ⟨tmp, ops⟩ } called
    have hcalls₁ : (st.batches.set k ⟨tmp, ops⟩ |>.map Batch.handlers).sum + called = 0 := by
      rw [hcalls', Batch.handlers]
      dsimp only
      omega
    have hsteps₁ : (st.batches.set k ⟨tmp, ops⟩ |>.map Batch.steps).sum = ops.countP BatchOp.isStep + stepsRest :=
      hsteps' _
    refine ⟨h.own, ?_, fun hs => absurd hs hset, fun hs => ?_, fun _ => hstart, fun _ _ => ⟨?_, ?_, ?_⟩,
      fun _ => h.handler hnone, fun hc => absurd hcalls₁ hc⟩
    · exact forall_mem_set h.announced hannounced
    · rw [ObjectState.owed, howed']
      exact hsums hs
    · dsimp only
      omega
    · dsimp only
      omega
    · rw [ObjectState.steps, hsteps₁]
      dsimp only
      push_cast
      omega

/-- **What the threads do for the object keeps the invariant.** -/
theorem work {k : ℕ} {ran : Bool} (h : Inv obj q st called) (hw : obj.work st k = some (st', ran)) :
    Inv obj q st' (called + ran.toNat) := by
  have hset : ∀ {b}, st.batches[k]? = some b → .setHandler ∉ q := by
    intro b hk hs
    rw [(h.idle hs).1, List.getElem?_nil] at hk
    exact Option.some_ne_none _ hk.symm
  rw [Object.work] at hw
  split at hw
  · next tmp im ops hk =>
    obtain ⟨rfl, rfl⟩ := Prod.mk.inj (Option.some.inj hw)
    refine h.of_eq (hset hk) (forall_mem_set h.announced (h.announced _ (List.mem_of_getElem? hk)).tail) rfl ?_ ?_ ?_
    · exact sum_map_set_of_eq hk rfl
    · exact congrArg (· + called) (sum_map_set_of_eq hk rfl)
    · exact congrArg (st.sums + ·) (sum_map_set_of_eq hk rfl)
  · next tmp ops hk =>
    obtain ⟨rfl, rfl⟩ := Prod.mk.inj (Option.some.inj hw)
    exact h.step_watch (hset hk) hk
  · next tmp ops hk =>
    obtain ⟨rfl, rfl⟩ := Prod.mk.inj (Option.some.inj hw)
    refine h.of_eq (hset hk) (forall_mem_set h.announced (h.announced _ (List.mem_of_getElem? hk)).tail) rfl ?_ ?_ ?_
    · exact sum_map_set_of_eq hk rfl
    · exact congrArg (· + called) (sum_map_set_of_eq hk rfl)
    · obtain ⟨owedRest, howed, howed'⟩ := sum_map_set (fun b => owed obj b.tmp b.ops) hk
      rw [ObjectState.owed, ObjectState.owed, howed, howed', Object.addToPQ_eq]
      dsimp only [owed]
      simp only [add_assoc]
  · next tmp ops hk =>
    obtain ⟨rfl, rfl⟩ := Prod.mk.inj (Option.some.inj hw)
    obtain ⟨hsums, hwatch, hbatches⟩ := obj.calcMetric_eq { st with batches := st.batches.set k ⟨tmp, ops⟩ }
    refine h.of_eq (hset hk) ?_ hwatch ?_ ?_ ?_
    · rw [hbatches]
      exact forall_mem_set h.announced (h.announced _ (List.mem_of_getElem? hk)).tail
    · rw [ObjectState.steps, hbatches]
      exact sum_map_set_of_eq hk rfl
    · obtain ⟨callsRest, hcalls, hcalls'⟩ := sum_map_set Batch.handlers hk
      rw [ObjectState.calls, ObjectState.calls, hbatches, hcalls, hcalls', Batch.handlers, Batch.handlers,
        List.countP_cons_of_pos rfl]
      dsimp only [Bool.toNat_true]
      omega
    · rw [hsums, ObjectState.owed, hbatches]
      exact congrArg (st.sums + ·) (sum_map_set_of_eq hk rfl)
  · exact absurd hw.symm (Option.some_ne_none _)

end Inv

end Invariant

end Redux.Momfbd.Metric
