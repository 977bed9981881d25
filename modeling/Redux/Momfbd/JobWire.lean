import Redux.Daemon.JobInfo
import Redux.Momfbd.ConfigTrip

/-!
# Momfbd.JobWire — unpacking a job

`MomfbdJob::unpack` and what it calls, as far as it is about the info of the job and the bytes that are
taken.  `unpacks_job` is what comes of a job that has no objects yet.
-/

namespace Redux.Momfbd

open Redux.Lib Redux.Job Config

/-- `ArrayStats::unpack`: the clip and twelve numbers of double precision. -/
def ArrayStats.unpack (swap_endian : Bool) : Unpacker Unit :=
  (unpackNumber 32 swap_endian).next fun _ => ((unpackNumber 64 swap_endian).times 12).next fun _ => .pure ()

/-- `PointType<uint16_t>::unpack`. -/
def Point16.unpack (swap_endian : Bool) : Unpacker Unit :=
  (unpackNumber 16 swap_endian).next fun _ => (unpackNumber 16 swap_endian).next fun _ => .pure ()

/-- `RegionType<uint16_t>::unpack`. -/
def Region16.unpack (swap_endian : Bool) : Unpacker Unit :=
  (Point16.unpack swap_endian).next fun _ => Point16.unpack swap_endian

/-- `Channel::unpack`. -/
def Channel.unpack (swap_endian : Bool) (fuel : ℕ) : Unpacker Unit :=
  (ChannelCfg.unpack swap_endian fuel).next fun _ =>
  (unpackNumber 16 swap_endian).next fun _ID =>
  (unpackNumber 32 swap_endian).next fun _nTotalFrames =>
  (unpackNumbers 64 swap_endian).next fun _nFrames =>
  (unpackNumber 64 swap_endian).next fun nFpF =>
  ((unpackNumbers 64 swap_endian).times nFpF.toNat).next fun _frameNumbersPerFile =>
  (unpackNumber 8 false).next fun _flipX =>
  (unpackNumber 8 false).next fun _flipY =>
  (Point16.unpack swap_endian).next fun _imgSize =>
  (unpackNumber 16 swap_endian).next fun statSize =>
  ((ArrayStats.unpack swap_endian).times statSize.toNat).next fun _imageStats =>
  .pure ()

/-- `Object::unpack`. -/
def Object.unpack (swap_endian : Bool) (fuel : ℕ) : Unpacker Unit :=
  (ObjectCfg.unpack swap_endian fuel).next fun _ =>
  (unpackNumber 16 swap_endian).next fun _ID =>
  (unpackNumber 32 swap_endian).next fun _traceID =>
  (unpackNumber 64 swap_endian).next fun _currentMetric =>
  (unpackNumber 64 swap_endian).next fun _frequencyCutoff =>
  (unpackNumber 64 swap_endian).next fun _pupilRadiusInPixels =>
  (unpackNumber 64 swap_endian).next fun _normalizeTo =>
  (Point16.unpack swap_endian).next fun _imgSize =>
  (unpackNumber 16 swap_endian).next fun nChannels =>
  ((Channel.unpack swap_endian fuel).times nChannels.toNat).next fun _channels =>
  (unpackNumber 32 swap_endian).next fun _nObjectImages =>
  .pure ()

/-- `MomfbdJob::unpack`. -/
def MomfbdJob.unpack (swap_endian : Bool) (now : BitVec 64) (fuel : ℕ) : Unpacker Info :=
  (Info.unpack swap_endian now fuel).next fun info =>
  (GlobalCfg.unpack swap_endian fuel).next fun _ =>
  (Region16.unpack swap_endian).next fun _roi =>
  (unpackNumber 8 false).next fun _cfgChecked =>
  (unpackNumber 8 false).next fun _dataChecked =>
  (unpackNumber 16 swap_endian).next fun nObjects =>
  ((Object.unpack swap_endian fuel).times nObjects.toNat).next fun _objects =>
  (unpackNumber 16 swap_endian).next fun nTraceObjects =>
  ((Object.unpack swap_endian fuel).times nTraceObjects.toNat).next fun _trace_objects =>
  .pure info

/-! ## A job without objects -/

/-- The bytes of a job without objects, from a machine of the same byte order: the info, the configuration,
and zeros for the region, the two flags and the two numbers of objects. -/
def jobBytes (info : Info) (pad : ℕ → Padding) (c : GlobalCfg) : List (BitVec 8) :=
  (info.fieldBytes false).flatten ++ (c.bytes false pad ++ List.replicate 14 0)

section Sent

variable {info : Info} {now : BitVec 64} {pad : ℕ → Padding} {c : GlobalCfg} {fuel : ℕ}

theorem jobBytes_length : (jobBytes info pad c).length = info.size + (c.size + 14) := by
  rw [jobBytes, List.length_append, List.length_append, Info.fieldBytes_length, GlobalCfg.bytes_length,
    List.length_replicate]

theorem unpacks_point16 : Unpacks (Point16.unpack false) [0, 0, 0, 0] () :=
  have hword := unpacks_number (by decide) false false (0 : BitVec 16)
  hword.next (hword.last unpacks_pure)

theorem unpacks_region16 : Unpacks (Region16.unpack false) [0, 0, 0, 0, 0, 0, 0, 0] () :=
  unpacks_point16.next unpacks_point16

/-- **What a receiver makes of a job without objects**: its info comes back, and all bytes are taken. -/
theorem unpacks_job (hinfo : info.Sendable now) (hsize : info.size ≤ fuel) (hc : Sendable c.strings c.lengths)
    (hfuel : ∀ s ∈ c.strings, s.length < fuel) :
    Unpacks (MomfbdJob.unpack false now fuel) (jobBytes info pad c) info := by
  have hflag := unpacks_number (by decide) false false (0 : BitVec 8)
  have hcount := unpacks_number (by decide) false false (0 : BitVec 16)
  refine (@Info.unpacks_info _ _ false _ hinfo hsize).next ?_
  refine (GlobalCfg.unpacks hc.nulFree hfuel hc.fits).next ?_
  refine unpacks_region16.next (hflag.next (hflag.next ?_))
  -- no objects, and no trace objects
  refine hcount.next (unpacks_pure.next (hcount.next ?_))
  exact unpacks_pure.last unpacks_pure

end Sent

end Redux.Momfbd
