import Redux.Lib.Pack

/-!
# Momfbd.PatchData — what is sent for a patch, and how it is packed

The manager sends a patch as `PatchData` with one `ObjectData` for each object and in it one
`ChannelData` for each channel; the results come back in the same format.  Floating point numbers and
integers are the bits `memcpy` moves.  Sender and receiver have the same byte order, so that nothing is
swapped.
-/

namespace Redux.Momfbd

open Lib

/-! ## Points, regions and arrays -/

structure Point (w : ℕ) where
  x : BitVec w
  y : BitVec w
  deriving DecidableEq

structure Region (w : ℕ) where
  first : Point w
  last : Point w
  deriving DecidableEq

abbrev PointF := Point 32
abbrev PointI := Point 32
abbrev Point16 := Point 16
abbrev RegionI := Region 32
abbrev Region16 := Region 16

section Points

variable {w : ℕ}

def Point.size (_ : Point w) : ℕ := 2 * (w / 8)

def Point.pack (p : Point w) : Packer := (packWord p.x).next (packWord p.y)

def Point.unpack : Unpacker (Point w) :=
  (unpackWord w).next fun x => (unpackWord w).next fun y => .pure ⟨x, y⟩

def Region.size (r : Region w) : ℕ := 2 * r.first.size

def Region.pack (r : Region w) : Packer := r.first.pack.next r.last.pack

def Region.unpack : Unpacker (Region w) :=
  Point.unpack.next fun first => Point.unpack.next fun last => .pure ⟨first, last⟩

end Points

/-- The product of the dimensions; no dimension means no element. -/
def nElements (dims : List (BitVec 64)) : ℕ := if dims = [] then 0 else (dims.map BitVec.toNat).prod

/-- An array of `float`: its dimensions, none of them zero, and its elements, which fit in memory. -/
structure FArray where
  dims : List (BitVec 64)
  data : List (BitVec 32)
  dims_pos : ∀ d ∈ dims, d ≠ 0
  length_eq : data.length = nElements dims
  fits : 16 + 8 * dims.length + 4 * data.length < 2 ^ 64
  deriving DecidableEq

namespace FArray

/-- `resize()`. -/
def empty : FArray := ⟨[], [], by simp, rfl, by decide⟩

/-- The array of these dimensions with these elements, if it can be allocated. -/
def make (dims : List (BitVec 64)) (data : List (BitVec 32)) : Option FArray :=
  if h : dims ≠ [] ∧ (∀ d ∈ dims, d ≠ 0) ∧ data.length = nElements dims ∧
      16 + 8 * dims.length + 4 * data.length < 2 ^ 64 then
    some ⟨dims, data, h.2.1, h.2.2.1, h.2.2.2⟩
  else none

/-- The packed size: the size itself, then the number of dimensions, the dimensions, the elements. -/
def size (a : FArray) : ℕ := if a.data = [] then 8 else 8 + (8 + a.dims.length * 8 + a.data.length * 4)

def pack (a : FArray) : Packer :=
  (packWord (BitVec.ofNat 64 a.size)).next
    (if a.data = [] then .nop else (packVector a.dims).next (.all (a.data.map packWord)))

/-- `resize` drops zero dimensions; without a data block the call throws. -/
def unpack : Unpacker FArray :=
  (unpackWord 64).next fun sz =>
    if 8 < sz.toNat then
      (unpackVector 64).next fun tmp =>
        let dims := tmp.filter (· ≠ 0)
        (unpackWords 32 (nElements dims)).next fun data => .check (make dims data)
    else .pure empty

end FArray

/-! ## Channels, objects and wavefronts -/

structure ChannelData where
  images : FArray
  exactPatchPosition : PointF
  cutoutPosition : PointI
  cutoutRegion : RegionI
  channelOffset : PointI
  patchStart : PointI
  residualOffset : PointF
  deriving DecidableEq

namespace ChannelData

def size (c : ChannelData) : ℕ :=
  c.exactPatchPosition.size + c.cutoutPosition.size + c.cutoutRegion.size + c.channelOffset.size +
    c.patchStart.size + c.residualOffset.size + 1 + c.images.size

def hasImages (c : ChannelData) : BitVec 8 := if 8 < c.images.size then 1 else 0

/-- The first four go to `ptr`, the others to `ptr+count`. -/
def pack (c : ChannelData) : Packer :=
  ((((((c.exactPatchPosition.pack.atop c.cutoutPosition.pack).atop c.cutoutRegion.pack).atop
    c.channelOffset.pack).next c.patchStart.pack).next c.residualOffset.pack).next
    (packWord c.hasImages)).next (if c.hasImages ≠ 0 then c.images.pack else .nop)

/-- Without images in the message the receiver keeps its own. -/
def unpack (c : ChannelData) : Unpacker ChannelData :=
  (Point.unpack.atop fun exactPatchPosition => Point.unpack.atop fun cutoutPosition =>
    Region.unpack.atop fun cutoutRegion => Point.unpack.next fun channelOffset =>
      .pure (exactPatchPosition, cutoutPosition, cutoutRegion, channelOffset)).next
  fun (exactPatchPosition, cutoutPosition, cutoutRegion, channelOffset) =>
    Point.unpack.next fun patchStart => Point.unpack.next fun residualOffset =>
      (unpackWord 8).next fun hasImages =>
        (if hasImages ≠ 0 then FArray.unpack else .pure c.images).next fun images =>
          .pure ⟨images, exactPatchPosition, cutoutPosition, cutoutRegion, channelOffset, patchStart,
            residualOffset⟩

end ChannelData

structure ObjectData where
  img : FArray
  psf : FArray
  cobj : FArray
  res : FArray
  alpha : FArray
  div : FArray
  channels : List ChannelData
  deriving DecidableEq

namespace ObjectData

/-- `ObjectData()`: no object behind it, so no channels. -/
def blank : ObjectData := ⟨.empty, .empty, .empty, .empty, .empty, .empty, []⟩

def size (o : ObjectData) : ℕ :=
  o.img.size + o.psf.size + o.cobj.size + o.res.size + o.alpha.size + o.div.size +
    (o.channels.map ChannelData.size).sum

def pack (o : ObjectData) : Packer :=
  (((((o.img.pack.next o.psf.pack).next o.cobj.pack).next o.res.pack).next o.alpha.pack).next
    o.div.pack).next (.all (o.channels.map ChannelData.pack))

def unpack (o : ObjectData) : Unpacker ObjectData :=
  FArray.unpack.next fun img => FArray.unpack.next fun psf => FArray.unpack.next fun cobj =>
    FArray.unpack.next fun res => FArray.unpack.next fun alpha => FArray.unpack.next fun div =>
      (Unpacker.each ChannelData.unpack o.channels).next fun channels =>
        .pure ⟨img, psf, cobj, res, alpha, div, channels⟩

end ObjectData

/-- The indices of the wavefronts and their mode coefficients. -/
structure WavefrontData where
  ids : List (BitVec 32)
  alpha : FArray
  ids_length : ids.length < 2 ^ 64
  deriving DecidableEq

namespace WavefrontData

def make (ids : List (BitVec 32)) (alpha : FArray) : Option WavefrontData :=
  if h : ids.length < 2 ^ 64 then some ⟨ids, alpha, h⟩ else none

def size (wf : WavefrontData) : ℕ := wf.alpha.size + (wf.ids.length * 4 + 8)

def pack (wf : WavefrontData) : Packer := wf.alpha.pack.next (packVector wf.ids)

def unpack : Unpacker WavefrontData :=
  FArray.unpack.next fun alpha => (unpackVector 32).next fun ids => .check (make ids alpha)

end WavefrontData

/-! ## The patch -/

/-- The bookkeeping that every part of a job has. -/
structure Part where
  id : BitVec 64
  step : BitVec 16
  nRetries : BitVec 8
  partType : BitVec 8
  nThreads : BitVec 16
  runtime_wall : BitVec 32
  runtime_cpu : BitVec 32
  deriving DecidableEq

namespace Part

def size (_ : Part) : ℕ := 8 + 2 + 1 + 1 + 2 + 4 + 4

def pack (p : Part) : Packer :=
  ((((((packWord p.id).next (packWord p.step)).next (packWord p.nRetries)).next
    (packWord p.partType)).next (packWord p.nThreads)).next (packWord p.runtime_wall)).next
    (packWord p.runtime_cpu)

def unpack : Unpacker Part :=
  (unpackWord 64).next fun id => (unpackWord 16).next fun step => (unpackWord 8).next fun nRetries =>
    (unpackWord 8).next fun partType => (unpackWord 16).next fun nThreads =>
      (unpackWord 32).next fun runtime_wall => (unpackWord 32).next fun runtime_cpu =>
        .pure ⟨id, step, nRetries, partType, nThreads, runtime_wall, runtime_cpu⟩

end Part

/-- A patch.  Trace objects are built with `ObjectData()`, and a job has fewer than `2^16` of them. -/
structure PatchData where
  part : Part
  index : Point16
  position : Point16
  roi : Region16
  finalMetric : BitVec 32
  metrics : List (BitVec 32)
  objects : List ObjectData
  waveFronts : WavefrontData
  trace_data : List ObjectData
  packed : List (BitVec 8)
  metrics_length : metrics.length < 2 ^ 64
  trace_length : trace_data.length < 2 ^ 16
  trace_channels : ∀ t ∈ trace_data, t.channels = []
  deriving DecidableEq

namespace PatchData

def size (p : PatchData) : ℕ :=
  p.part.size + (p.index.size + p.position.size + p.roi.size) + 4 +
    (p.metrics.length * 4 + 8 + 2) + (p.objects.map ObjectData.size).sum +
    (p.trace_data.map ObjectData.size).sum + p.waveFronts.size

/-- A patch packed before is copied. -/
def pack (p : PatchData) : Packer :=
  if p.packed ≠ [] then fun x ptr => (writeBytes x ptr p.packed, p.packed.length)
  else
    let tmp := BitVec.ofNat 16 p.trace_data.length
    ((((((((p.part.pack.next p.index.pack).next p.position.pack).next p.roi.pack).next
      (packWord p.finalMetric)).next (packVector p.metrics)).next
      (.all (p.objects.map ObjectData.pack))).next p.waveFronts.pack).next (packWord tmp)).next
      (if tmp ≠ 0 then .all (p.trace_data.map ObjectData.pack) else .nop)

/-- The patch with the contents of a message, if its lengths are possible. -/
def make (part : Part) (index position : Point16) (roi : Region16) (finalMetric : BitVec 32)
    (metrics : List (BitVec 32)) (objects : List ObjectData) (waveFronts : WavefrontData)
    (trace_data : List ObjectData) (packed : List (BitVec 8)) : Option PatchData :=
  if h : metrics.length < 2 ^ 64 ∧ trace_data.length < 2 ^ 16 ∧ ∀ t ∈ trace_data, t.channels = [] then
    some ⟨part, index, position, roi, finalMetric, metrics, objects, waveFronts, trace_data, packed,
      h.1, h.2.1, h.2.2⟩
  else none

/-- The objects are the receiver's, the trace objects are new ones. -/
def unpack (p : PatchData) : Unpacker PatchData :=
  Part.unpack.next fun part => Point.unpack.next fun index => Point.unpack.next fun position =>
    Region.unpack.next fun roi => (unpackWord 32).next fun finalMetric =>
      (unpackVector 32).next fun metrics =>
        (Unpacker.each ObjectData.unpack p.objects).next fun objects =>
          WavefrontData.unpack.next fun waveFronts => (unpackWord 16).next fun tmp =>
            (Unpacker.each ObjectData.unpack (List.replicate tmp.toNat .blank)).next fun trace_data =>
              .check (make part index position roi finalMetric metrics objects waveFronts trace_data
                p.packed)

end PatchData

end Redux.Momfbd
