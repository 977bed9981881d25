import Redux.Momfbd.PatchData

/-!
# Momfbd.PatchTrip — what a packed patch gives back

Each class is matched with the bytes it writes, from the points up to the patch, and its `unpack` with
what it takes off these bytes.  A channel writes its first four members to the same place; what is read
there afterwards is the channel offset, which is the member written last, and the corner of the cutout
region behind it.
-/

namespace Redux.Momfbd

open Lib

/-! ## Points, regions and arrays -/

section Points

variable {w : ℕ}

def Point.bytes (p : Point w) : List (BitVec 8) := leBytes (w / 8) p.x.toNat ++ leBytes (w / 8) p.y.toNat

def Region.bytes (r : Region w) : List (BitVec 8) := r.first.bytes ++ r.last.bytes

@[simp] theorem Point.bytes_length (p : Point w) : p.bytes.length = p.size := by
  simp [Point.bytes, Point.size]; omega

@[simp] theorem Region.bytes_length (r : Region w) : r.bytes.length = r.size := by
  simp [Region.bytes, Region.size, Point.size]; omega

theorem packs_point (p : Point w) : Packs p.pack (.only p.bytes) :=
  (packs_word p.x).next_only (packs_word p.y)

theorem packs_region (r : Region w) : Packs r.pack (.only r.bytes) :=
  (packs_point r.first).next_only (packs_point r.last)

theorem unpacks_point (hw : w % 8 = 0) (p : Point w) : Unpacks Point.unpack p.bytes p :=
  (unpacks_word hw p.x).next ((unpacks_word hw p.y).last unpacks_pure)

theorem unpacks_region (hw : w % 8 = 0) (r : Region w) : Unpacks Region.unpack r.bytes r :=
  (unpacks_point hw r.first).next ((unpacks_point hw r.last).last unpacks_pure)

end Points

namespace FArray

variable (a : FArray)

def bytes : List (BitVec 8) :=
  leBytes 8 (BitVec.ofNat 64 a.size).toNat ++
    if a.data = [] then [] else vectorBytes a.dims ++ a.data.flatMap fun v => leBytes 4 v.toNat

/-- An array without elements has no dimensions either. -/
theorem dims_eq_nil (h : a.data = []) : a.dims = [] := by
  by_contra hd
  have hprod : (a.dims.map BitVec.toNat).prod = 0 := by
    have := a.length_eq
    rw [h, nElements, if_neg hd] at this
    exact this.symm
  obtain ⟨_, hmem, rfl⟩ := List.prod_eq_zero_iff_exists_zero_nat.mp hprod
  obtain ⟨d, hd, h0⟩ := List.mem_map.mp hmem
  exact a.dims_pos d hd (BitVec.eq_of_toNat_eq h0)

theorem eq_empty (h : a.data = []) : a = .empty := by
  have hd := a.dims_eq_nil h
  obtain ⟨dims, data, _, _, _⟩ := a
  obtain rfl : dims = [] := hd
  obtain rfl : data = [] := h
  rfl

theorem make_self (h : a.data ≠ []) : make a.dims a.data = some a := by
  have hd : a.dims ≠ [] := fun h0 => h (List.eq_nil_of_length_eq_zero (by rw [a.length_eq, h0]; rfl))
  rw [make, dif_pos ⟨hd, a.dims_pos, a.length_eq, a.fits⟩]

theorem size_lt : a.size < 2 ^ 64 := by
  have := a.fits
  unfold size
  split_ifs <;> omega

theorem lt_size : 8 < a.size ↔ a.data ≠ [] := by
  unfold size
  by_cases h : a.data = []
  · rw [if_pos h]; simp [h]
  · rw [if_neg h]
    exact iff_of_true (by omega) h

@[simp] theorem bytes_length : a.bytes.length = a.size := by
  rw [bytes, List.length_append, leBytes_length, size]
  split_ifs with h
  · rfl
  · rw [List.length_append, vectorBytes_length, flatMap_length fun v => leBytes_length]

theorem packs : Packs a.pack (.only a.bytes) := by
  refine (packs_word _).next_only ?_
  split_ifs
  · exact packs_nop
  · exact (packs_vector a.dims).next_only (packs_words a.data)

/-- **An array comes back.** -/
theorem unpacks : Unpacks unpack a.bytes a := by
  refine (unpacks_word (by decide) _).next ?_
  rw [BitVec.toNat_ofNat, Nat.mod_eq_of_lt a.size_lt]
  by_cases h : a.data = []
  · rw [if_pos h, if_neg (mt a.lt_size.mp (not_not_intro h)), ← a.eq_empty h]
    exact unpacks_pure
  · rw [if_neg h, if_pos (a.lt_size.mpr h)]
    have hdims : a.dims.filter (· ≠ 0) = a.dims :=
      List.filter_eq_self.mpr fun d hd => decide_eq_true (a.dims_pos d hd)
    refine (unpacks_vector (by decide) (by have := a.fits; omega)).next ?_
    dsimp only
    rw [hdims, ← a.length_eq]
    refine (unpacks_words (by decide) a.data).last ?_
    rw [a.make_self h]
    exact unpacks_check

end FArray

/-! ## Channels -/

namespace ChannelData

variable (c : ChannelData)

/-- The front part of a channel: 24 of its 40 bytes are not written. -/
def front : Layout := fun bs =>
  ∃ junk : List (BitVec 8), junk.length = 24 ∧ bs = c.channelOffset.bytes ++ c.cutoutRegion.last.bytes ++ junk

def tail : List (BitVec 8) :=
  c.patchStart.bytes ++ c.residualOffset.bytes ++ leBytes 1 c.hasImages.toNat ++
    if c.hasImages ≠ 0 then c.images.bytes else []

def layout : Layout := c.front.append (.only c.tail)

/-- What the receiver takes for the channel. -/
def received : ChannelData :=
  { c with
    exactPatchPosition := c.channelOffset
    cutoutPosition := c.channelOffset
    cutoutRegion := ⟨c.channelOffset, c.cutoutRegion.last⟩ }

/-- The four members written to one place agree where they overlap. -/
def OneOffset : Prop :=
  c.exactPatchPosition = c.channelOffset ∧ c.cutoutPosition = c.channelOffset ∧
    c.cutoutRegion.first = c.channelOffset

theorem received_eq_iff : c.received = c ↔ c.OneOffset := by
  obtain ⟨im, e, p, ⟨f, l⟩, o, s, r⟩ := c
  simp only [received, OneOffset, mk.injEq, Region.mk.injEq, true_and, and_true]
  constructor
  · rintro ⟨he, hp, hf⟩
    exact ⟨he.symm, hp.symm, hf.symm⟩
  · rintro ⟨he, hp, hf⟩
    exact ⟨he.symm, hp.symm, hf.symm⟩

theorem hasImages_ne : c.hasImages ≠ 0 ↔ c.images.data ≠ [] := by
  rw [hasImages, ← c.images.lt_size]
  split_ifs with h <;> simp [h]

/-- **The first four members overwrite each other.** -/
theorem packs_front : Packs (((c.exactPatchPosition.pack.atop c.cutoutPosition.pack).atop
    c.cutoutRegion.pack).atop c.channelOffset.pack) c.front := by
  intro x p
  obtain ⟨_, rfl, h₁⟩ := packs_point c.exactPatchPosition x p
  obtain ⟨_, rfl, h₂⟩ := packs_point c.cutoutPosition (writeBytes x p c.exactPatchPosition.bytes) p
  obtain ⟨_, rfl, h₃⟩ := packs_region c.cutoutRegion
    (writeBytes (writeBytes x p c.exactPatchPosition.bytes) p c.cutoutPosition.bytes) p
  obtain ⟨_, rfl, h₄⟩ := packs_point c.channelOffset (writeBytes (writeBytes (writeBytes x p
    c.exactPatchPosition.bytes) p c.cutoutPosition.bytes) p c.cutoutRegion.bytes) p
  have hpoint : ∀ q : Point 32, q.bytes.length = 8 := fun q => q.bytes_length
  have hregion : c.cutoutRegion.bytes.length = 16 := c.cutoutRegion.bytes_length
  have hdrop : c.cutoutRegion.bytes.drop c.channelOffset.bytes.length = c.cutoutRegion.last.bytes :=
    List.drop_left' ((hpoint _).trans (hpoint _).symm)
  refine ⟨_, ⟨bytesAt x (p + (c.channelOffset.bytes ++ c.cutoutRegion.last.bytes).length) 24,
    bytesAt_length, rfl⟩, ?_⟩
  rw [Packer.atop, Packer.atop, Packer.atop, h₁]
  dsimp only
  rw [h₂]
  dsimp only
  rw [h₃]
  dsimp only
  rw [h₄]
  refine Prod.ext ?_ (by simp [hpoint, hregion])
  dsimp only
  -- the region covers the positions before it, the offset the region's first corner
  rw [← writeBytes_keep, @writeBytes_over _ _ _ c.exactPatchPosition.bytes,
    List.drop_eq_nil_of_le (by rw [hpoint, hpoint]), List.append_nil,
    @writeBytes_over _ _ _ c.cutoutPosition.bytes,
    List.drop_eq_nil_of_le (by rw [hpoint, hregion]; decide), List.append_nil, writeBytes_over,
    hdrop]

theorem packs : Packs c.pack c.layout := by
  have htail : Packs (((c.patchStart.pack.next c.residualOffset.pack).next (packWord c.hasImages)).next
      (if c.hasImages ≠ 0 then c.images.pack else .nop)) (.only c.tail) := by
    refine (((packs_point _).next_only (packs_point _)).next_only (packs_word _)).next_only ?_
    by_cases himages : c.hasImages ≠ 0
    · rw [if_pos himages, if_pos himages]
      exact c.images.packs
    · rw [if_neg himages, if_neg himages]
      exact packs_nop
  have h := c.packs_front.next htail
  rwa [← Packer.next_assoc, ← Packer.next_assoc, ← Packer.next_assoc] at h

/-- What is read at the place of the first four members. -/
theorem unpacks_front {bs : List (BitVec 8)} (h : c.front bs) :
    Unpacks (Point.unpack.atop fun exactPatchPosition => Point.unpack.atop fun cutoutPosition =>
      Region.unpack.atop fun cutoutRegion => Point.unpack.next fun channelOffset =>
        .pure (exactPatchPosition, cutoutPosition, cutoutRegion, channelOffset)) bs
      (c.channelOffset, c.channelOffset, ⟨c.channelOffset, c.cutoutRegion.last⟩, c.channelOffset) := by
  obtain ⟨junk, hjunk, rfl⟩ := h
  intro x p hx
  have hpair : Reads x p (Region.bytes ⟨c.channelOffset, c.cutoutRegion.last⟩) := (reads_append.mp hx).1
  have hone : Point.unpack x p = some (c.channelOffset, 8) :=
    (unpacks_point (by decide) c.channelOffset x p (reads_append.mp hpair).1).trans (by rw [Point.bytes_length]; rfl)
  have htwo : Region.unpack x p = some (⟨c.channelOffset, c.cutoutRegion.last⟩, 16) :=
    (unpacks_region (by decide) _ x p hpair).trans (by rw [Region.bytes_length]; rfl)
  simp only [Unpacker.atop, Unpacker.next, Unpacker.pure, hone, htwo, Option.bind_some, Option.map_some,
    List.length_append, hjunk, Point.bytes_length, Point.size]

/-- **A receiver without images takes off the channel as overwritten.** -/
theorem unpacks {r : ChannelData} (hr : r.images = .empty) {bs : List (BitVec 8)} (h : c.layout bs) :
    Unpacks r.unpack bs c.received := by
  obtain ⟨as, _, hfront, rfl, rfl⟩ := h
  refine (c.unpacks_front hfront).next ?_
  unfold tail
  rw [List.append_assoc, List.append_assoc]
  refine (unpacks_point (by decide) _).next ((unpacks_point (by decide) _).next
    ((unpacks_word (by decide) _).next ?_))
  by_cases himages : c.images.data = []
  · rw [if_neg (mt c.hasImages_ne.mp (not_not_intro himages)),
      if_neg (mt c.hasImages_ne.mp (not_not_intro himages)), hr, ← c.images.eq_empty himages]
    exact unpacks_pure.last unpacks_pure
  · rw [if_pos (c.hasImages_ne.mpr himages), if_pos (c.hasImages_ne.mpr himages)]
    exact c.images.unpacks.last unpacks_pure

theorem length_le {bs : List (BitVec 8)} (h : c.layout bs) : bs.length ≤ c.size := by
  obtain ⟨_, _, ⟨junk, hjunk, rfl⟩, rfl, rfl⟩ := h
  simp only [tail, List.length_append, Point.bytes_length, leBytes_length, Point.size, hjunk, size,
    Region.size]
  split_ifs
  · rw [FArray.bytes_length]; omega
  · rw [List.length_nil]; omega

end ChannelData

/-! ## Objects and wavefronts -/

theorem map_eq_self {α : Type} {f : α → α} {as : List α} : as.map f = as ↔ ∀ a ∈ as, f a = a := by
  have h := List.map_inj_left (l := as) (f := f) (g := fun a => a)
  rwa [List.map_id'] at h

theorem concat_length_le {α : Type} {L : α → Layout} {size : α → ℕ} : ∀ {as : List α},
    (∀ a ∈ as, ∀ bs, L a bs → bs.length ≤ size a) → ∀ {bs}, Layout.concat (as.map L) bs →
      bs.length ≤ (as.map size).sum
  | [], _, bs, h => by rw [show bs = [] from h]; exact Nat.zero_le _
  | a :: as, hlen, _, ⟨_, _, ha, has, rfl⟩ => by
    have h₁ := hlen a List.mem_cons_self _ ha
    have h₂ := concat_length_le (fun b hb => hlen b (List.mem_cons_of_mem a hb)) has
    rw [List.length_append, List.map_cons, List.sum_cons]
    omega

namespace ObjectData

variable (o : ObjectData)

def arrays : List (BitVec 8) :=
  o.img.bytes ++ o.psf.bytes ++ o.cobj.bytes ++ o.res.bytes ++ o.alpha.bytes ++ o.div.bytes

def layout : Layout := Layout.append (.only o.arrays) (.concat (o.channels.map ChannelData.layout))

def received : ObjectData := { o with channels := o.channels.map ChannelData.received }

/-- The receiver has the same channels, without images. -/
def SameChannels (r o : ObjectData) : Prop :=
  List.Forall₂ (fun rc _ => rc.images = .empty) r.channels o.channels

theorem packs : Packs o.pack o.layout :=
  ((((((o.img.packs.next_only o.psf.packs).next_only o.cobj.packs).next_only o.res.packs).next_only
    o.alpha.packs).next_only o.div.packs)).next (packs_all _ fun c _ => c.packs)

theorem unpacks {r o : ObjectData} (hr : SameChannels r o) {bs : List (BitVec 8)} (h : o.layout bs) :
    Unpacks r.unpack bs o.received := by
  obtain ⟨_, bs, rfl, hbs, rfl⟩ := h
  simp only [arrays, List.append_assoc]
  refine o.img.unpacks.next (o.psf.unpacks.next (o.cobj.unpacks.next (o.res.unpacks.next
    (o.alpha.unpacks.next (o.div.unpacks.next (Unpacks.last ?_ unpacks_pure))))))
  exact unpacks_each (fun _ c hrc _ hc => c.unpacks hrc hc) hr bs hbs

/-- A list of objects, each with its receiver. -/
theorem unpacks_all {rs os : List ObjectData} (h : List.Forall₂ SameChannels rs os)
    {bs : List (BitVec 8)} (hbs : Layout.concat (os.map layout) bs) :
    Unpacks (Unpacker.each unpack rs) bs (os.map received) :=
  unpacks_each (R := SameChannels) (fun _ _ hr _ ho => unpacks hr ho) h bs hbs

theorem length_le {bs : List (BitVec 8)} (h : o.layout bs) : bs.length ≤ o.size := by
  obtain ⟨_, bs, rfl, hbs, rfl⟩ := h
  have := concat_length_le (fun c _ _ hc => c.length_le hc) hbs
  simp only [arrays, List.length_append, FArray.bytes_length, size]
  omega

theorem received_eq_iff : o.received = o ↔ ∀ c ∈ o.channels, c.OneOffset := by
  constructor
  · intro h c hc
    have hmap : o.channels.map ChannelData.received = o.channels := congrArg ObjectData.channels h
    exact c.received_eq_iff.mp (map_eq_self.mp hmap c hc)
  · intro h
    rw [received, map_eq_self.mpr fun c hc => c.received_eq_iff.mpr (h c hc)]

/-- A trace object has no channel that could change. -/
theorem received_trace (h : o.channels = []) : o.received = o :=
  o.received_eq_iff.mpr fun c hc => by rw [h] at hc; cases hc

end ObjectData

namespace WavefrontData

variable (wf : WavefrontData)

def bytes : List (BitVec 8) := wf.alpha.bytes ++ vectorBytes wf.ids

theorem packs : Packs wf.pack (.only wf.bytes) := wf.alpha.packs.next_only (packs_vector wf.ids)

theorem unpacks : Unpacks unpack wf.bytes wf := by
  refine wf.alpha.unpacks.next ((unpacks_vector (by decide) wf.ids_length).last ?_)
  rw [make, dif_pos wf.ids_length]
  exact unpacks_check

@[simp] theorem bytes_length : wf.bytes.length = wf.size := by
  rw [bytes, List.length_append, FArray.bytes_length, vectorBytes_length, size, Nat.add_comm 8]

end WavefrontData

/-! ## The patch -/

namespace Part

variable (p : Part)

def bytes : List (BitVec 8) :=
  leBytes 8 p.id.toNat ++ leBytes 2 p.step.toNat ++ leBytes 1 p.nRetries.toNat ++
    leBytes 1 p.partType.toNat ++ leBytes 2 p.nThreads.toNat ++ leBytes 4 p.runtime_wall.toNat ++
    leBytes 4 p.runtime_cpu.toNat

theorem packs : Packs p.pack (.only p.bytes) :=
  ((((((packs_word p.id).next_only (packs_word p.step)).next_only (packs_word p.nRetries)).next_only
    (packs_word p.partType)).next_only (packs_word p.nThreads)).next_only
    (packs_word p.runtime_wall)).next_only (packs_word p.runtime_cpu)

theorem unpacks : Unpacks unpack p.bytes p := by
  simp only [bytes, List.append_assoc]
  exact (unpacks_word (by decide) p.id).next ((unpacks_word (by decide) p.step).next
    ((unpacks_word (by decide) p.nRetries).next ((unpacks_word (by decide) p.partType).next
      ((unpacks_word (by decide) p.nThreads).next ((unpacks_word (by decide) p.runtime_wall).next
        ((unpacks_word (by decide) p.runtime_cpu).last unpacks_pure))))))

@[simp] theorem bytes_length : p.bytes.length = p.size := by
  simp [bytes, size]

end Part

namespace PatchData

variable (p : PatchData)

def head : List (BitVec 8) :=
  p.part.bytes ++ p.index.bytes ++ p.position.bytes ++ p.roi.bytes ++ leBytes 4 p.finalMetric.toNat ++
    vectorBytes p.metrics

def middle : List (BitVec 8) :=
  p.waveFronts.bytes ++ leBytes 2 (BitVec.ofNat 16 p.trace_data.length).toNat

def layout : Layout :=
  (Layout.append (.only p.head) (.concat (p.objects.map ObjectData.layout))).append
    (Layout.append (.only p.middle) (.concat (p.trace_data.map ObjectData.layout)))

def received (q : PatchData) : PatchData :=
  { p with objects := p.objects.map ObjectData.received, packed := q.packed }

/-- The receiver is built from the same configuration: the same objects with the same channels, and no
images yet. -/
def SameConfiguration (q p : PatchData) : Prop :=
  List.Forall₂ ObjectData.SameChannels q.objects p.objects

/-- All that is sent is the same. -/
def SameContents (q p : PatchData) : Prop :=
  q.part = p.part ∧ q.index = p.index ∧ q.position = p.position ∧ q.roi = p.roi ∧
    q.finalMetric = p.finalMetric ∧ q.metrics = p.metrics ∧ q.objects = p.objects ∧
    q.waveFronts = p.waveFronts ∧ q.trace_data = p.trace_data

theorem trace_count_ne : BitVec.ofNat 16 p.trace_data.length ≠ 0 ↔ p.trace_data ≠ [] := by
  have := p.trace_length
  rw [ne_eq, ← BitVec.toNat_inj, BitVec.toNat_ofNat, Nat.mod_eq_of_lt this]
  simp

theorem packs (h : p.packed = []) : Packs p.pack p.layout := by
  have hhead : Packs (((((p.part.pack.next p.index.pack).next p.position.pack).next p.roi.pack).next
      (packWord p.finalMetric)).next (packVector p.metrics)) (.only p.head) :=
    ((((p.part.packs.next_only (packs_point _)).next_only (packs_point _)).next_only
      (packs_region _)).next_only (packs_word _)).next_only (packs_vector _)
  have htrace : Packs (if BitVec.ofNat 16 p.trace_data.length ≠ 0 then
      .all (p.trace_data.map ObjectData.pack) else .nop) (.concat (p.trace_data.map ObjectData.layout)) := by
    by_cases htd : p.trace_data = []
    · rw [if_neg (mt p.trace_count_ne.mp (not_not_intro htd)), htd]
      exact packs_nop
    · rw [if_pos (p.trace_count_ne.mpr htd)]
      exact packs_all _ fun o _ => o.packs
  have hobjects : Packs (.all (p.objects.map ObjectData.pack))
      (.concat (p.objects.map ObjectData.layout)) := packs_all _ fun o _ => o.packs
  have hall := (hhead.next hobjects).next ((p.waveFronts.packs.next_only
    (packs_word (BitVec.ofNat 16 p.trace_data.length))).next htrace)
  rw [← Packer.next_assoc, ← Packer.next_assoc] at hall
  rw [pack, if_neg (not_not_intro h)]
  exact hall

theorem forall₂_replicate_blank : ∀ ts : List ObjectData, (∀ t ∈ ts, t.channels = []) →
    List.Forall₂ ObjectData.SameChannels (List.replicate ts.length .blank) ts
  | [], _ => .nil
  | t :: ts, h => by
    refine .cons ?_ (forall₂_replicate_blank ts fun t' ht => h t' (List.mem_cons_of_mem t ht))
    rw [ObjectData.SameChannels, h t List.mem_cons_self]
    exact .nil

/-- **What a receiver of the same configuration takes off the bytes of a patch.** -/
theorem unpacks {q p : PatchData} (hq : SameConfiguration q p) {bs : List (BitVec 8)}
    (h : p.layout bs) : Unpacks q.unpack bs (p.received q) := by
  obtain ⟨_, _, ⟨_, as, rfl, has, rfl⟩, ⟨_, bs, rfl, hbs, rfl⟩, rfl⟩ := h
  simp only [head, middle, List.append_assoc]
  refine p.part.unpacks.next ((unpacks_point (by decide) _).next ((unpacks_point (by decide) _).next
    ((unpacks_region (by decide) _).next ((unpacks_word (by decide) _).next
      ((unpacks_vector (by decide) p.metrics_length).next ((ObjectData.unpacks_all hq has).next
        (p.waveFronts.unpacks.next ((unpacks_word (by decide) _).next ?_))))))))
  rw [BitVec.toNat_ofNat, Nat.mod_eq_of_lt p.trace_length]
  have htrace : p.trace_data.map ObjectData.received = p.trace_data :=
    map_eq_self.mpr fun t ht => t.received_trace (p.trace_channels t ht)
  have hlast := ObjectData.unpacks_all (forall₂_replicate_blank _ p.trace_channels) hbs
  rw [htrace] at hlast
  refine hlast.last ?_
  rw [make, dif_pos ⟨p.metrics_length, p.trace_length, p.trace_channels⟩]
  exact unpacks_check

theorem length_le {bs : List (BitVec 8)} (h : p.layout bs) : bs.length ≤ p.size := by
  obtain ⟨_, _, ⟨_, as, rfl, has, rfl⟩, ⟨_, bs, rfl, hbs, rfl⟩, rfl⟩ := h
  have h₁ := concat_length_le (fun o _ _ ho => o.length_le ho) has
  have h₂ := concat_length_le (fun o _ _ ho => o.length_le ho) hbs
  simp only [head, middle, List.length_append, Part.bytes_length, Point.bytes_length, Region.bytes_length,
    leBytes_length, vectorBytes_length, WavefrontData.bytes_length, size]
  omega

theorem received_iff (q : PatchData) :
    SameContents (p.received q) p ↔ ∀ o ∈ p.objects, ∀ c ∈ o.channels, c.OneOffset := by
  simp only [SameContents, received, true_and, and_true, map_eq_self,
    ObjectData.received_eq_iff]

variable {p} {q : PatchData} {x y : Buf} {ptr ptr' : ℕ}

/-- The bytes that `pack` counts, as they arrive in the memory of the receiver. -/
def Delivered (p : PatchData) (x : Buf) (ptr : ℕ) (y : Buf) (ptr' : ℕ) : Prop :=
  ∀ k < (p.pack x ptr).2, y (ptr' + k) = (p.pack x ptr).1 (ptr + k)

/-- The receiver consumes what was packed and has the patch with its channels overwritten. -/
theorem unpack_of_delivered (hp : p.packed = []) (hq : SameConfiguration q p)
    (hy : Delivered p x ptr y ptr') : (p.pack x ptr).2 ≤ p.size ∧
      q.unpack y ptr' = some (p.received q, (p.pack x ptr).2) := by
  obtain ⟨bs, hbs, hpack⟩ := p.packs hp x ptr
  rw [Delivered, hpack] at hy
  rw [hpack]
  refine ⟨p.length_le hbs, unpacks hq hbs y ptr' fun i hi => ?_⟩
  rw [hy i hi]
  exact reads_writeBytes i hi

/-- **A patch is transferred unchanged exactly when each channel has one offset in its first four
members.** -/
theorem patch_roundTrip (hp : p.packed = []) (hq : SameConfiguration q p)
    (hy : Delivered p x ptr y ptr') :
    ((p.pack x ptr).2 ≤ p.size ∧
      ∃ q', q.unpack y ptr' = some (q', (p.pack x ptr).2) ∧ SameContents q' p) ↔
    ∀ o ∈ p.objects, ∀ c ∈ o.channels, c.OneOffset := by
  obtain ⟨hsize, hunpack⟩ := unpack_of_delivered hp hq hy
  rw [← p.received_iff q, hunpack]
  constructor
  · rintro ⟨-, q', hq', hsame⟩
    rw [Option.some.injEq, Prod.mk.injEq] at hq'
    rwa [hq'.1]
  · exact fun h => ⟨hsize, _, rfl, h⟩

/-- The patch of a receiver that has the configuration but no images. -/
def fresh (p : PatchData) : PatchData :=
  { p with objects := p.objects.map fun o =>
      { o with channels := o.channels.map fun c => { c with images := .empty } } }

theorem sameConfiguration_fresh (p : PatchData) : SameConfiguration p.fresh p := by
  refine List.forall₂_map_left_iff.mpr (List.forall₂_same.mpr fun o _ => ?_)
  exact List.forall₂_map_left_iff.mpr (List.forall₂_same.mpr fun c _ => rfl)

/-- One object with one channel of two pixels, at this offset from the reference channel. -/
def single (offset : PointI) : PatchData where
  part := ⟨1, 0x10, 0, 0, 1, 0, 0⟩
  index := ⟨1, 1⟩
  position := ⟨64, 64⟩
  roi := ⟨⟨32, 32⟩, ⟨95, 95⟩⟩
  finalMetric := 0
  metrics := []
  objects := [{ ObjectData.blank with
    channels := [{ images := ⟨[1, 2], [5, 7], by simp, by simp [nElements], by simp⟩
                   exactPatchPosition := ⟨0, 0⟩
                   cutoutPosition := ⟨0, 0⟩
                   cutoutRegion := ⟨⟨0, 0⟩, ⟨1, 0⟩⟩
                   channelOffset := offset
                   patchStart := ⟨0, 0⟩
                   residualOffset := ⟨0, 0⟩ }] }]
  waveFronts := ⟨[3], .empty, by decide⟩
  trace_data := []
  packed := []
  metrics_length := by decide
  trace_length := by decide
  trace_channels := by simp

theorem patch_roundTrip_single :
    let p := single ⟨0, 0⟩
    (p.pack (fun _ => 0xff) 8).2 ≤ p.size ∧ ∃ q',
      p.fresh.unpack (p.pack (fun _ => 0xff) 8).1 8 = some (q', (p.pack (fun _ => 0xff) 8).2) ∧
        SameContents q' p :=
  (patch_roundTrip rfl (sameConfiguration_fresh _) fun _ _ => rfl).mpr fun o ho c hc => by
    rw [List.mem_singleton.mp ho] at hc
    rw [List.mem_singleton.mp hc]
    exact ⟨rfl, rfl, rfl⟩

/-- An offset of (4,3) pixels takes the place of the patch position. -/
theorem patch_roundTrip_offset :
    let p := single ⟨4, 3⟩
    ¬ ((p.pack (fun _ => 0xff) 8).2 ≤ p.size ∧ ∃ q',
      p.fresh.unpack (p.pack (fun _ => 0xff) 8).1 8 = some (q', (p.pack (fun _ => 0xff) 8).2) ∧
        SameContents q' p) := by
  intro p
  have hunpack := (@PatchData.unpack_of_delivered p _ (fun _ => 0xff) _ 8 _ rfl (sameConfiguration_fresh p)
      fun _ _ => rfl).2
  rintro ⟨-, q', hq', hsame⟩
  rw [hunpack, Option.some.injEq, Prod.mk.injEq] at hq'
  rw [← hq'.1, received_iff] at hsame
  have h := (hsame _ List.mem_cons_self _ List.mem_cons_self).1
  exact absurd h (by decide)

end PatchData

end Redux.Momfbd
