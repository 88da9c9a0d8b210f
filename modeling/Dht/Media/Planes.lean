/-
# Planes of decoded sound

A decoder hands samples out in one of twelve formats: six types, packed with the channels
side by side in one plane, or planar with a plane for each. `readAudio` and `extractAudio`
look at the first plane only and take it for an array of `double`, packed. This file says
for which frames that is what it is.
-/

import Dht.Lib.Buffer
import Dht.Media.Draining

namespace Dht

/-! ## Formats -/

/-- The sample types of libavutil. -/
inductive SampleType
  | u8
  | s16
  | s32
  | s64
  | flt
  | dbl
  deriving DecidableEq

/-- The column `bits` of `sample_fmt_info`. -/
def SampleType.bits : SampleType → ℕ
  | .u8 => 8
  | .s16 => 16
  | .s32 => 32
  | .s64 => 64
  | .flt => 32
  | .dbl => 64

/-- `AVSampleFormat`. -/
structure AVSampleFormat where
  type : SampleType
  planar : Bool
  deriving DecidableEq

/-- `av_get_bytes_per_sample`. -/
def AVSampleFormat.bytesPerSample (format : AVSampleFormat) : ℕ := format.type.bits >>> 3

/-- What libavutil says about the size of a frame. -/
structure SamplesSize where
  /-- The bytes of one plane. -/
  lineSize : ℕ
  bufferSize : ℕ

/-- `av_samples_get_buffer_size` without padding, that is, with an alignment of one. -/
def avSamplesGetBufferSize (nbChannels nbSamples : ℕ) (format : AVSampleFormat) :
    Option SamplesSize :=
  if format.bytesPerSample = 0 ∨ nbSamples = 0 ∨ nbChannels = 0 then none
  else if (2 ^ 31 - 1 - nbChannels) / format.bytesPerSample < nbChannels * nbSamples then none
  else
    let lineSize :=
      if format.planar then nbSamples * format.bytesPerSample
      else nbSamples * format.bytesPerSample * nbChannels
    some ⟨lineSize, if format.planar then lineSize * nbChannels else lineSize⟩

/-! ## Frames -/

/-- A sample in memory: an object of its type. -/
structure SampleObject where
  type : SampleType
  bytes : Bytes
  deriving DecidableEq

/-- The sound of a frame. -/
structure AudioFrame where
  format : AVSampleFormat
  channels : ℕ
  nbSamples : ℕ
  channels_pos : 0 < channels
  /-- The bytes of sample `i` of channel `c`. -/
  sampleBytes : ℕ → ℕ → List.Vector UInt8 format.bytesPerSample

namespace AudioFrame

variable (frame : AudioFrame)

/-- Sample `i` of channel `c`. -/
def sample (i c : ℕ) : SampleObject := ⟨frame.format.type, (frame.sampleBytes i c).toList⟩

/-- The samples of one channel. -/
def planarData (c : ℕ) : Bytes :=
  (List.range frame.nbSamples).flatMap fun i => (frame.sampleBytes i c).toList

/-- All samples, the channels side by side. -/
def packedData : Bytes :=
  (List.range frame.nbSamples).flatMap fun i => (List.range frame.channels).flatMap fun c =>
    (frame.sampleBytes i c).toList

/-- `data[0]`. -/
def firstPlane : Bytes := if frame.format.planar then frame.planarData 0 else frame.packedData

/-- What stands at an index of `data`, taken for an array of `double`. -/
def doubleAt (index : ℤ) : SampleObject :=
  ⟨.dbl, Buffer.slice frame.firstPlane (8 * index.toNat) 8⟩

/-- A read of eight bytes from `data`. -/
def readDouble (index : ℤ) : Outcome SampleObject :=
  if 0 ≤ index ∧ 8 * index + 8 ≤ frame.firstPlane.length then .ok (frame.doubleAt index)
  else undefined

/-- `data[i * channels + c]`. -/
def readChannel (i c : ℕ) : Outcome SampleObject := do
  let start ← intResult (i * frame.channels)
  let index ← intResult (start + c)
  frame.readDouble index

/-- Every read is inside the first plane. -/
def InPlane : Prop :=
  ∀ i < frame.nbSamples, ∀ c < frame.channels, frame.readChannel i c ≠ undefined

/-- And it yields the sample it is meant for. -/
def ReadsSamples : Prop :=
  ∀ i < frame.nbSamples, ∀ c < frame.channels, frame.readChannel i c = .ok (frame.sample i c)

/-! ## Sizes of planes -/

theorem length_planarData (c : ℕ) :
    (frame.planarData c).length = frame.nbSamples * frame.format.bytesPerSample :=
  Buffer.length_flatMap_range fun i _ => (frame.sampleBytes i c).toList_length

theorem length_packedRow (i : ℕ) :
    ((List.range frame.channels).flatMap fun c => (frame.sampleBytes i c).toList).length =
      frame.channels * frame.format.bytesPerSample :=
  Buffer.length_flatMap_range fun c _ => (frame.sampleBytes i c).toList_length

theorem length_packedData :
    frame.packedData.length =
      frame.nbSamples * (frame.channels * frame.format.bytesPerSample) :=
  Buffer.length_flatMap_range fun i _ => frame.length_packedRow i

/-- The plane has the size libavutil gives it. -/
theorem length_firstPlane {size : SamplesSize}
    (hsize : avSamplesGetBufferSize frame.channels frame.nbSamples frame.format = some size) :
    frame.firstPlane.length = size.lineSize := by
  rw [avSamplesGetBufferSize] at hsize
  split at hsize
  · cases hsize
  · split at hsize
    · cases hsize
    · cases hsize
      rw [firstPlane]
      cases frame.format.planar with
      | true => exact frame.length_planarData 0
      | false =>
          show frame.packedData.length = _
          rw [frame.length_packedData, Nat.mul_comm frame.channels, ← Nat.mul_assoc]
          rfl

/-! ## Reads inside the plane -/

/-- A read needs an index that is an `int` and eight bytes behind it. -/
theorem readChannel_eq (i c : ℕ) :
    frame.readChannel i c =
      if i * frame.channels + c < 2 ^ 31 ∧
          8 * (i * frame.channels + c) + 8 ≤ frame.firstPlane.length then
        .ok (frame.doubleAt ((i * frame.channels + c : ℕ) : ℤ))
      else undefined := by
  rw [readChannel, ← Nat.cast_mul]
  by_cases hindex : i * frame.channels + c < 2 ^ 31
  · rw [intResult_natCast (by omega), ok_bind, ← Nat.cast_add, intResult_natCast hindex, ok_bind,
      readDouble]
    split
    · rw [if_pos (by omega)]
    · rw [if_neg (by omega)]
  · rw [if_neg (by omega)]
    by_cases hstart : i * frame.channels < 2 ^ 31
    · rw [intResult_natCast hstart, ok_bind, intResult, if_neg (by omega), undefined_bind]
    · rw [intResult, if_neg (by omega), undefined_bind]

theorem readChannel_ne_undefined_iff (i c : ℕ) :
    frame.readChannel i c ≠ undefined ↔
      i * frame.channels + c < 2 ^ 31 ∧
        8 * (i * frame.channels + c) + 8 ≤ frame.firstPlane.length := by
  rw [readChannel_eq]
  split
  · next hinside => exact ⟨fun _ => hinside, fun _ hundefined => by cases hundefined⟩
  · next houtside =>
      exact ⟨fun hdefined => absurd rfl hdefined, fun hinside => absurd hinside houtside⟩

/-- The last read decides about all of them. -/
theorem inPlane_iff_last :
    frame.InPlane ↔ frame.nbSamples = 0 ∨ (frame.nbSamples * frame.channels ≤ 2 ^ 31 ∧
      8 * (frame.nbSamples * frame.channels) ≤ frame.firstPlane.length) := by
  have hchannels := frame.channels_pos
  constructor
  · intro hall
    rcases Nat.eq_zero_or_pos frame.nbSamples with hzero | hpos
    · exact .inl hzero
    · have hlast := hall (frame.nbSamples - 1) (by omega) (frame.channels - 1) (by omega)
      have hcount : (frame.nbSamples - 1) * frame.channels + frame.channels =
          frame.nbSamples * frame.channels := Buffer.last_row_end hpos
      rw [readChannel_ne_undefined_iff] at hlast
      exact .inr (by omega)
  · rintro (hzero | ⟨hindices, hbytes⟩) i hi c hc
    · omega
    · have hindex := Buffer.area_le_iff.mp le_rfl i hi c hc
      rw [readChannel_ne_undefined_iff]
      omega

theorem bytesPerSample_le (format : AVSampleFormat) : format.bytesPerSample ≤ 8 := by
  rw [AVSampleFormat.bytesPerSample]
  cases format.type <;> decide

/-- The format has eight bytes to a sample, and the first plane has all channels. -/
def Doubled : Prop :=
  frame.format.bytesPerSample = 8 ∧ (frame.format.planar = false ∨ frame.channels = 1)

theorem doubled_of_dbl (htype : frame.format.type = .dbl)
    (hlayout : frame.format.planar = false ∨ frame.channels = 1) : frame.Doubled := by
  refine ⟨?_, hlayout⟩
  rw [AVSampleFormat.bytesPerSample, htype]
  rfl

theorem bytes_le_iff (hpos : 0 < frame.nbSamples) :
    8 * (frame.nbSamples * frame.channels) ≤ frame.firstPlane.length ↔ frame.Doubled := by
  have hchannels := frame.channels_pos
  have hwidth := bytesPerSample_le frame.format
  have hmul (width : ℕ) : 8 * (frame.nbSamples * frame.channels) ≤ frame.nbSamples * width ↔
      8 * frame.channels ≤ width := by
    rw [Nat.mul_left_comm]
    exact Nat.mul_le_mul_left_iff hpos
  rw [firstPlane, Doubled]
  cases frame.format.planar with
  | true =>
      rw [if_pos rfl, length_planarData, hmul]
      constructor
      · intro hbytes
        exact ⟨by omega, .inr (by omega)⟩
      · rintro ⟨height, hfalse | hmono⟩
        · cases hfalse
        · omega
  | false =>
      rw [if_neg Bool.false_ne_true, length_packedData, hmul, Nat.mul_comm,
        Nat.mul_le_mul_left_iff hchannels]
      constructor
      · intro hbytes
        exact ⟨by omega, .inl rfl⟩
      · intro hdoubled
        omega

/-- Every read is inside the plane exactly for a frame of eight-byte samples that are all
in the first plane. -/
theorem inPlane_iff :
    frame.InPlane ↔ frame.nbSamples = 0 ∨
      (frame.Doubled ∧ frame.nbSamples * frame.channels ≤ 2 ^ 31) := by
  rw [inPlane_iff_last]
  rcases Nat.eq_zero_or_pos frame.nbSamples with hzero | hpos
  · exact ⟨fun _ => .inl hzero, fun _ => .inl hzero⟩
  · rw [bytes_le_iff frame hpos, and_comm]

/-! ## Samples that are read -/

/-- With one channel both layouts are the same. -/
theorem firstPlane_eq (hlayout : frame.format.planar = false ∨ frame.channels = 1) :
    frame.firstPlane = frame.packedData := by
  rw [firstPlane]
  split
  · next hplanar =>
      rcases hlayout with hpacked | hmono
      · rw [hplanar] at hpacked
        cases hpacked
      · rw [planarData, packedData]
        apply List.flatMap_congr
        intro i _
        rw [hmono, List.range_one, List.flatMap_singleton]
  · rfl

/-- Eight-byte samples stand where the loops look for them. -/
theorem doubleAt_eq (hdoubled : frame.Doubled) {i c : ℕ} (hi : i < frame.nbSamples)
    (hc : c < frame.channels) :
    frame.doubleAt ((i * frame.channels + c : ℕ) : ℤ) =
      ⟨.dbl, (frame.sampleBytes i c).toList⟩ := by
  obtain ⟨hwidth, hlayout⟩ := hdoubled
  have hbytes (i c : ℕ) : (frame.sampleBytes i c).toList.length = 8 := by
    rw [List.Vector.toList_length, hwidth]
  have hrow (i : ℕ) : ((List.range frame.channels).flatMap fun c =>
      (frame.sampleBytes i c).toList).length = frame.channels * 8 := by
    rw [length_packedRow, hwidth]
  have hposition : 8 * (i * frame.channels + c) = i * (frame.channels * 8) + (c * 8 + 0) := by
    rw [← Nat.mul_assoc]
    omega
  rw [doubleAt, Int.toNat_natCast, firstPlane_eq frame hlayout, hposition, packedData,
    Buffer.slice_flatMap_range (fun i _ => hrow i) hi (by omega),
    Buffer.slice_flatMap_range (fun c _ => hbytes i c) hc (by decide), Buffer.slice,
    List.drop_zero, ← hbytes i c, List.take_length]

/-- The loops read the samples of a frame exactly if these are `double`s and all of them
are in the first plane, or if there are none. -/
theorem readsSamples_iff :
    frame.ReadsSamples ↔ frame.nbSamples = 0 ∨ (frame.format.type = .dbl ∧
      (frame.format.planar = false ∨ frame.channels = 1) ∧
      frame.nbSamples * frame.channels ≤ 2 ^ 31) := by
  constructor
  · intro hreads
    have hinside : frame.InPlane := by
      intro i hi c hc
      rw [hreads i hi c hc]
      intro hundefined
      cases hundefined
    rcases frame.inPlane_iff.mp hinside with hzero | ⟨⟨hwidth, hlayout⟩, hindices⟩
    · exact .inl hzero
    · rcases Nat.eq_zero_or_pos frame.nbSamples with hzero | hpos
      · exact .inl hzero
      · have hfirst := hreads 0 hpos 0 frame.channels_pos
        rw [readChannel_eq] at hfirst
        split at hfirst
        · have htype := congrArg SampleObject.type (Except.ok.inj hfirst)
          exact .inr ⟨htype.symm, hlayout, hindices⟩
        · cases hfirst
  · rintro (hzero | ⟨htype, hlayout, hindices⟩) i hi c hc
    · omega
    · have hdoubled := frame.doubled_of_dbl htype hlayout
      have hinside := frame.inPlane_iff.mpr (.inr ⟨hdoubled, hindices⟩) i hi c hc
      rw [readChannel_ne_undefined_iff] at hinside
      rw [readChannel_eq, if_pos hinside, frame.doubleAt_eq hdoubled hi hc, sample, htype]

/-! ## The samples the readers return -/

section Samples

variable {Picture Sample : Type}

/-- The first plane, taken for an array of `double`. -/
def doubles : List SampleObject :=
  (List.range (frame.firstPlane.length / 8)).map fun k => frame.doubleAt (k : ℕ)

/-- The frame as the readers see it, given the number each object stands for. -/
def toAVFrame (value : SampleObject → Sample) (picture : Picture) :
    AVFrame Picture Sample where
  picture := picture
  channels := frame.channels
  nbSamples := frame.nbSamples
  data := frame.doubles.map value

theorem length_data_toAVFrame (value : SampleObject → Sample) (picture : Picture) :
    (frame.toAVFrame value picture).data.length = frame.firstPlane.length / 8 := by
  rw [toAVFrame, doubles, List.length_map, List.length_map, List.length_range]

theorem getElem?_data_toAVFrame (value : SampleObject → Sample) (picture : Picture) {k : ℕ}
    (hk : k < frame.firstPlane.length / 8) :
    (frame.toAVFrame value picture).data[k]? = some (value (frame.doubleAt k)) := by
  rw [toAVFrame, doubles, List.map_map, List.getElem?_map, List.getElem?_range hk]
  rfl

/-- The readers leave the plane of one exactly if they leave that of the other. -/
theorem inPlane_toAVFrame_iff (value : SampleObject → Sample) (picture : Picture) :
    (frame.toAVFrame value picture).InPlane ↔ frame.InPlane := by
  have hproduct (hzero : frame.nbSamples = 0) : frame.nbSamples * frame.channels = 0 := by
    rw [hzero, Nat.zero_mul]
  rw [AVFrame.InPlane, length_data_toAVFrame, inPlane_iff_last]
  change frame.nbSamples * frame.channels ≤ _ ∧ frame.nbSamples * frame.channels ≤ _ ↔ _
  omega

variable [Zero Sample] [Add Sample] [Div Sample] [NatCast Sample]

/-- Packed `double`s are averaged over the channels, sample by sample. -/
theorem samples_toAVFrame (value : SampleObject → Sample) (picture : Picture)
    (hsize : frame.nbSamples * frame.channels ≤ 2 ^ 31) (htype : frame.format.type = .dbl)
    (hlayout : frame.format.planar = false ∨ frame.channels = 1) :
    (frame.toAVFrame value picture).samples = (List.range frame.nbSamples).map fun i =>
      (List.range frame.channels).foldl (fun sum c => sum + value (frame.sample i c)) 0 /
        (frame.channels : Sample) := by
  have hdoubled := frame.doubled_of_dbl htype hlayout
  have hinside := (frame.inPlane_toAVFrame_iff value picture).mpr
    (frame.inPlane_iff.mpr (.inr ⟨hdoubled, hsize⟩))
  apply List.map_congr_left
  intro i hi
  rw [AVFrame.mean]
  congr 1
  apply List.foldl_ext
  intro sum c hc
  have hindex := ((inPlane_iff_forall _).mp hinside i hi c hc).2
  rw [length_data_toAVFrame] at hindex
  rw [List.mem_range] at hi hc
  rw [List.getD_eq_getElem?_getD, frame.getElem?_data_toAVFrame value picture hindex,
    Option.getD_some]
  change sum + value (frame.doubleAt ((i * frame.channels + c : ℕ) : ℤ)) = _
  rw [frame.doubleAt_eq hdoubled hi hc, sample, htype]

end Samples

end AudioFrame

/-- One sample of two channels, in the format most decoders of compressed sound use. -/
def stereoFloat : AudioFrame where
  format := ⟨.flt, true⟩
  channels := 2
  nbSamples := 1
  channels_pos := by decide
  sampleBytes := fun _ _ => List.Vector.replicate 4 0

/-- Its first plane has four bytes, and sixteen are read. -/
theorem not_readsSamples_stereoFloat : ¬ ∀ frame : AudioFrame, frame.ReadsSamples := by
  intro hall
  have hread := hall stereoFloat 0 (by decide) 0 (by decide)
  revert hread
  decide

end Dht
