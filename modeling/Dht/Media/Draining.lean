/-
# What extraction misses

The packet loops never send the null packet, so what they see of a stream is the
frames its packets made available and not those the decoder holds back. For every
decoder this is decided by the frames held back: extraction is complete if and only
if none of them would have added to the result. The audio readers also have to stay
inside the plane of every frame they receive.
-/

import Dht.Core.Guarded
import Dht.Lib.Buffer
import Dht.Media.Extraction
import Mathlib.Data.List.Induction

namespace Dht

open SendReceive

variable {Packet State Picture Sample σ : Type}

/-! ## The packet loop -/

/-- Packets of other streams do not matter. -/
theorem foldlM_packetsOf (media : Media Packet State Picture Sample) (index : ℕ)
    (turn : σ → Packet → Outcome σ) (value : σ) :
    media.packets.foldlM
        (fun value packet => if packet.1 = index then turn value packet.2 else .ok value)
        value =
      (media.packetsOf index).foldlM turn value := by
  rw [Media.packetsOf]
  induction media.packets generalizing value with
  | nil => rfl
  | cons packet packets ih =>
      rw [List.foldlM_cons]
      by_cases hindex : packet.1 = index
      · rw [if_pos hindex, List.filter_cons_of_pos (by simp [hindex]), List.map_cons,
          List.foldlM_cons]
        congr 1
        funext next
        exact ih next
      · rw [if_neg hindex, ok_bind, List.filter_cons_of_neg (by simp [hindex]), ih]

/-- The loop over packets runs its body on the frames they make available. -/
theorem readPackets_eq (media : Media Packet State Picture Sample) (index : ℕ)
    (codec : Codec Packet (AVFrame Picture Sample) State)
    (body : σ → AVFrame Picture Sample → Outcome σ) (value : σ) :
    media.readPackets index codec body value =
      (codec.yields codec.initial (media.packetsOf index)).foldlM body value := by
  rw [Media.readPackets, foldlM_packetsOf media index (sendTurn body), Context.opened,
    foldlM_sendTurn, bind_assoc]
  simp only [pure_bind, bind_pure]

/-- A loop that drained would run on the complete sequence. -/
theorem collect_complete (codec : Codec Packet (AVFrame Picture Sample) State)
    (packets : List Packet) (value : σ) (body : σ → AVFrame Picture Sample → Outcome σ) :
    (do
      let client ← drainingClient body codec packets value
      pure client.1) = (codec.complete packets).foldlM body value := by
  rw [drainingClient_eq, bind_assoc]
  simp only [pure_bind, bind_pure]

/-! ## Pictures -/

/-- The pixels of an RGB buffer. -/
def rgbPixels (size : VideoSize) (rgbBuffer : Bytes) : List RGB :=
  (List.range size.height).flatMap fun y => (List.range size.width).map fun x =>
    ⟨rgbBuffer.getD (y * size.width * 3 + x * 3) 0,
      rgbBuffer.getD (y * size.width * 3 + x * 3 + 1) 0,
      rgbBuffer.getD (y * size.width * 3 + x * 3 + 2) 0⟩

/-- Inside the size all three bytes of a pixel are read, without overflow. -/
theorem bufferPixel_eq (size : VideoSize)
    (rgbBuffer : List.Vector UInt8 (size.width * size.height * 3)) {x y : ℕ}
    (hx : x < size.width) (hy : y < size.height) :
    bufferPixel rgbBuffer.toList size.width y x =
      .ok ⟨rgbBuffer.toList.getD (y * size.width * 3 + x * 3) 0,
        rgbBuffer.toList.getD (y * size.width * 3 + x * 3 + 1) 0,
        rgbBuffer.toList.getD (y * size.width * 3 + x * 3 + 2) 0⟩ := by
  have hlength := rgbBuffer.toList_length
  have hbytes := size.bytes_lt
  have hrow : y * size.width + size.width ≤ size.width * size.height := by
    rw [← Nat.succ_mul, Nat.mul_comm size.width]
    exact Nat.mul_le_mul_right _ hy
  have hlast : y * size.width * 3 + x * 3 + 2 < rgbBuffer.toList.length := by omega
  rw [bufferPixel, ← Nat.cast_mul, intResult_natCast (by omega), ok_bind]
  have hthree (n : ℕ) : (n : ℤ) * 3 = ((n * 3 : ℕ) : ℤ) := by simp
  rw [hthree, intResult_natCast (by omega), ok_bind, hthree, intResult_natCast (by omega),
    ok_bind, ← Nat.cast_add, intResult_natCast (by omega), ok_bind,
    vectorAt_eq_getD (by omega) 0, ok_bind]
  have hone : ((y * size.width * 3 + x * 3 : ℕ) : ℤ) + 1 =
      ((y * size.width * 3 + x * 3 + 1 : ℕ) : ℤ) := by simp
  have htwo : ((y * size.width * 3 + x * 3 : ℕ) : ℤ) + 2 =
      ((y * size.width * 3 + x * 3 + 2 : ℕ) : ℤ) := by simp
  rw [hone, htwo, vectorAt_eq_getD (by omega) 0, ok_bind, vectorAt_eq_getD hlast 0, ok_bind]
  rfl

theorem copyPixels_eq (size : VideoSize)
    (rgbBuffer : List.Vector UInt8 (size.width * size.height * 3)) :
    copyPixels rgbBuffer.toList size.width size.height =
      .ok (rgbPixels size rgbBuffer.toList) := by
  have hbytes := size.bytes_lt
  have hrow (y : ℕ) (hy : y ∈ List.range size.height) :=
    mapM_eq_ok fun x (hx : x ∈ List.range size.width) =>
      bufferPixel_eq size rgbBuffer (List.mem_range.mp hx) (List.mem_range.mp hy)
  rw [copyPixels, ← Nat.cast_mul, intResult_natCast (by omega), ok_bind, Int.toNat_natCast,
    Int.toNat_natCast, mapM_eq_ok hrow, ok_bind, rgbPixels, List.flatMap_def]
  rfl

/-- The frame as it is stored. -/
def SwsContext.pixels (sws : SwsContext Picture) (frame : AVFrame Picture Sample) : List RGB :=
  rgbPixels sws.size (sws.scale frame.picture).toList

/-! ## Every frame of an interval -/

/-- The elements number `0`, `interval`, `2 * interval` and so on, counted from
`start`. -/
def everyNth {α : Type} (interval : ℤ) (start : ℕ) (values : List α) : List α :=
  ((values.zipIdx start).filter fun value => (value.2 : ℤ) % interval = 0).map Prod.fst

section EveryNth

variable {α : Type} (interval : ℤ)

theorem everyNth_append (start : ℕ) (front back : List α) :
    everyNth interval start (front ++ back) =
      everyNth interval start front ++ everyNth interval (start + front.length) back := by
  rw [everyNth, List.zipIdx_append, List.filter_append, List.map_append]
  rfl

theorem everyNth_singleton (start : ℕ) (value : α) :
    everyNth interval start [value] = if (start : ℤ) % interval = 0 then [value] else [] := by
  rw [everyNth, List.zipIdx_singleton, List.filter_singleton]
  by_cases hzero : (start : ℤ) % interval = 0
  · rw [if_pos hzero, decide_eq_true hzero]
    rfl
  · rw [if_neg hzero, decide_eq_false hzero]
    rfl

/-- None is selected if no number is a multiple. -/
theorem everyNth_eq_nil_iff (start : ℕ) (values : List α) :
    everyNth interval start values = [] ↔
      ∀ i < values.length, ((start + i : ℕ) : ℤ) % interval ≠ 0 := by
  induction values generalizing start with
  | nil => exact ⟨fun _ i hi => absurd hi (Nat.not_lt_zero i), fun _ => rfl⟩
  | cons value values ih =>
      rw [← List.singleton_append, everyNth_append, List.append_eq_nil_iff,
        everyNth_singleton, List.length_singleton, ih, List.length_append,
        List.length_singleton]
      refine ⟨fun ⟨hfirst, hrest⟩ i hi => ?_, fun hall => ⟨if_neg (hall 0 (by omega)), ?_⟩⟩
      · cases i with
        | zero =>
            intro hzero
            rw [Nat.add_zero] at hzero
            rw [if_pos hzero] at hfirst
            cases hfirst
        | succ i =>
            rw [Nat.add_comm i 1, ← Nat.add_assoc]
            exact hrest i (by omega)
      · intro i hi
        rw [Nat.add_assoc, Nat.add_comm 1 i]
        exact hall (i + 1) (by omega)

end EveryNth

/-- One received frame. -/
theorem extractFrame_eq (sws : SwsContext Picture) (interval : ℤ)
    (frames : List (AVFrame Picture Sample)) (frame : AVFrame Picture Sample)
    (hcount : frames.length + 1 < 2 ^ 31) :
    extractFrame sws interval
        ⟨(everyNth interval 0 frames).map sws.pixels, frames.length⟩ frame =
      .ok ⟨(everyNth interval 0 (frames ++ [frame])).map sws.pixels,
        ((frames ++ [frame]).length : ℕ)⟩ := by
  have hnext : intResult ((frames.length : ℤ) + 1) =
      .ok (((frames ++ [frame]).length : ℕ) : ℤ) := by
    rw [List.length_append, List.length_singleton, ← Nat.cast_succ, intResult_natCast hcount]
  rw [extractFrame, storeFrame, everyNth_append, Nat.zero_add, everyNth_singleton,
    List.map_append]
  dsimp only
  rw [hnext]
  by_cases hzero : (frames.length : ℤ) % interval = 0
  · rw [if_pos hzero, if_pos hzero, copyPixels_eq]
    rfl
  · rw [if_neg hzero, if_neg hzero, List.map_nil, List.append_nil]
    rfl

/-- All received frames, as long as they can be counted. -/
theorem foldlM_extractFrame (sws : SwsContext Picture) (interval : ℤ)
    {frames : List (AVFrame Picture Sample)} (hcount : frames.length < 2 ^ 31) :
    frames.foldlM (extractFrame sws interval) ⟨[], 0⟩ =
      .ok ⟨(everyNth interval 0 frames).map sws.pixels, frames.length⟩ := by
  induction frames using List.reverseRecOn with
  | nil => rfl
  | append_singleton frames frame ih =>
      rw [List.length_append, List.length_singleton] at hcount
      exact foldlM_concat_eq_ok_iff.mpr
        ⟨_, ih (by omega), extractFrame_eq sws interval frames frame hcount⟩

/-- More frames than an `int` can count are never counted. -/
theorem length_lt_of_foldlM_extractFrame {sws : SwsContext Picture} {interval : ℤ}
    {frames : List (AVFrame Picture Sample)} {list : FrameList}
    (hrun : frames.foldlM (extractFrame sws interval) ⟨[], 0⟩ = .ok list) :
    frames.length < 2 ^ 31 := by
  induction frames using List.reverseRecOn generalizing list with
  | nil => simp
  | append_singleton frames frame ih =>
      obtain ⟨before, hbefore, hframe⟩ := foldlM_concat_eq_ok_iff.mp hrun
      have hcount := ih hbefore
      rw [foldlM_extractFrame sws interval hcount] at hbefore
      cases hbefore
      rw [extractFrame] at hframe
      obtain ⟨_, _, hrest⟩ := bind_eq_ok_iff.mp hframe
      obtain ⟨_, hcounted, _⟩ := bind_eq_ok_iff.mp hrest
      have hlt := lt_of_intResult hcounted
      dsimp only at hlt
      rw [List.length_append, List.length_singleton]
      omega

/-! ## Sound -/

/-- The plane has an element for each channel of each sample, and their indices are
`int`s. -/
def AVFrame.InPlane (frame : AVFrame Picture Sample) : Prop :=
  frame.nbSamples * frame.channels ≤ frame.data.length ∧
    frame.nbSamples * frame.channels ≤ 2 ^ 31

/-- This is so exactly if every index that is read is inside the plane and an `int`. -/
theorem inPlane_iff_forall (frame : AVFrame Picture Sample) :
    frame.InPlane ↔ ∀ i ∈ List.range frame.nbSamples, ∀ c ∈ List.range frame.channels,
      i * frame.channels + c < 2 ^ 31 ∧ i * frame.channels + c < frame.data.length := by
  rw [AVFrame.InPlane, and_comm, Buffer.area_le_iff, Buffer.area_le_iff]
  simp only [List.mem_range, imp_and, forall_and]

section Audio

variable [Zero Sample] [Add Sample] [Div Sample] [NatCast Sample]

/-- The mean of the channels at one sample. -/
def AVFrame.mean (frame : AVFrame Picture Sample) (i : ℕ) : Sample :=
  (List.range frame.channels).foldl
    (fun sample c => sample + frame.data.getD (i * frame.channels + c) 0) 0 / frame.channels

/-- What a frame adds to the result. -/
def AVFrame.samples (frame : AVFrame Picture Sample) : List Sample :=
  (List.range frame.nbSamples).map frame.mean

/-- A frame without samples adds nothing. -/
theorem samples_eq_nil_iff (frame : AVFrame Picture Sample) :
    frame.samples = [] ↔ frame.nbSamples = 0 := by
  rw [AVFrame.samples, List.map_eq_nil_iff, List.range_eq_nil]

omit [Div Sample] [NatCast Sample] in
/-- A channel is read if its index is an `int` and inside the plane. -/
theorem addSample_eq (frame : AVFrame Picture Sample) (i c : ℕ) (sample : Sample) :
    addSample frame i sample c =
      if i * frame.channels + c < 2 ^ 31 ∧ i * frame.channels + c < frame.data.length then
        .ok (sample + frame.data.getD (i * frame.channels + c) 0)
      else undefined := by
  rw [addSample, ← Nat.cast_mul]
  by_cases hindex : i * frame.channels + c < 2 ^ 31
  · rw [intResult_natCast (by omega), ok_bind, ← Nat.cast_add, intResult_natCast hindex, ok_bind]
    by_cases hinside : i * frame.channels + c < frame.data.length
    · rw [if_pos ⟨hindex, hinside⟩, vectorAt_eq_getD hinside 0, ok_bind]
      rfl
    · have hrange : ¬ InRange frame.data.length ((i * frame.channels + c : ℕ) : ℤ) :=
        fun hrange => hinside (Int.ofNat_lt.mp hrange.2)
      rw [if_neg fun hboth => hinside hboth.2, (guarded_vectorAt _ _).eq_undefined hrange,
        undefined_bind]
  · rw [if_neg fun hboth => hindex hboth.1]
    by_cases hstart : i * frame.channels < 2 ^ 31
    · rw [intResult_natCast hstart, ok_bind, (guarded_intResult _).eq_undefined (by omega),
        undefined_bind]
    · rw [(guarded_intResult _).eq_undefined (by omega), undefined_bind]

omit [Div Sample] [NatCast Sample] in
/-- So are the channels of a sample. -/
theorem guarded_channelSum (frame : AVFrame Picture Sample) (i : ℕ) :
    Guarded (∀ c ∈ List.range frame.channels,
        i * frame.channels + c < 2 ^ 31 ∧ i * frame.channels + c < frame.data.length)
      (fun _ => True) (channelSum frame i) := by
  refine Guarded.foldlM (fun c _ sample _ => ?_) trivial
  rw [addSample_eq]
  split
  · next hinside => exact .inl ⟨hinside, _, rfl, trivial⟩
  · next houtside => exact .inr ⟨houtside, rfl⟩

/-- A frame that lies in the plane is read, and no other. -/
theorem guarded_readFrame (samples : List Sample) (frame : AVFrame Picture Sample) :
    Guarded frame.InPlane (fun _ => True) (readFrame samples frame) := by
  rw [inPlane_iff_forall]
  refine Guarded.foldlM (fun i _ samples _ => ?_) trivial
  exact ((guarded_channelSum frame i).bind fun sample _ =>
    Guarded.ok (samples ++ [sample / frame.channels])).congr (and_iff_left trivial)

omit [Div Sample] [NatCast Sample] in
/-- The sum of the channels, as far as the plane has them. -/
theorem channelSum_eq {frame : AVFrame Picture Sample} (hinside : frame.InPlane) {i : ℕ}
    (hi : i ∈ List.range frame.nbSamples) :
    channelSum frame i = .ok ((List.range frame.channels).foldl
      (fun sample c => sample + frame.data.getD (i * frame.channels + c) 0) 0) := by
  apply foldlM_eq_ok
  intro c hc sample
  rw [addSample_eq, if_pos ((inPlane_iff_forall frame).mp hinside i hi c hc)]

/-- One received frame. -/
theorem readFrame_eq {frame : AVFrame Picture Sample} (hinside : frame.InPlane)
    (samples : List Sample) : readFrame samples frame = .ok (samples ++ frame.samples) := by
  have hturn (i : ℕ) (hi : i ∈ List.range frame.nbSamples) (samples : List Sample) :
      (do
        let sample ← channelSum frame i
        pure (samples ++ [sample / frame.channels]) : Outcome (List Sample)) =
      .ok (samples ++ [frame.mean i]) := by
    rw [channelSum_eq hinside hi, ok_bind]
    rfl
  rw [readFrame, foldlM_eq_ok hturn, List.foldl_append_eq_append, AVFrame.samples,
    ← List.flatMap_def, ← List.map_eq_flatMap]

/-- All received frames. -/
theorem foldlM_readFrame_eq_ok_iff (frames : List (AVFrame Picture Sample))
    {samples : List Sample} :
    frames.foldlM readFrame [] = .ok samples ↔
      (∀ frame ∈ frames, frame.InPlane) ∧ samples = frames.flatMap AVFrame.samples := by
  have hguarded : Guarded (∀ frame ∈ frames, frame.InPlane) (fun _ => True)
      (frames.foldlM readFrame ([] : List Sample)) :=
    Guarded.foldlM (fun frame _ samples _ => guarded_readFrame samples frame) trivial
  have hvalue (hinside : ∀ frame ∈ frames, frame.InPlane) :
      frames.foldlM readFrame [] = .ok (frames.flatMap AVFrame.samples) := by
    rw [foldlM_eq_ok fun frame hframe samples => readFrame_eq (hinside frame hframe) samples,
      List.foldl_append_eq_append, List.nil_append, List.flatMap_def]
  constructor
  · intro hrun
    have hinside : ∀ frame ∈ frames, frame.InPlane := by
      rw [← hguarded.ne_undefined_iff, hrun]
      intro hundefined
      cases hundefined
    exact ⟨hinside, Except.ok.inj (hrun.symm.trans (hvalue hinside))⟩
  · rintro ⟨hinside, rfl⟩
    exact hvalue hinside

end Audio

/-! ## Extraction in terms of the decoder -/

/-- The file opens, `stream` at `index` is its first stream of a type, and `codec` is
opened for it. -/
structure Media.Selects (media : Media Packet State Picture Sample) (type : MediaType)
    (stream : AVStream Packet State Picture Sample) (index : ℕ)
    (codec : Codec Packet (AVFrame Picture Sample) State) : Prop where
  openInput : media.openInput = true
  findStreamInfo : media.findStreamInfo = true
  found : media.findStream type = some (stream, index)
  decoder : stream.decoder = some codec
  allocContext : media.allocContext = true
  parametersToContext : media.parametersToContext = true
  openDecoder : media.openDecoder = true
  allocFrames : media.allocFrames = true

section Selects

variable {media : Media Packet State Picture Sample} {type : MediaType}
  {stream : AVStream Packet State Picture Sample} {index : ℕ}
  {codec : Codec Packet (AVFrame Picture Sample) State}

theorem openMedia_eq (hselects : media.Selects type stream index codec) (texts : OpenTexts)
    (path : Bytes) : openMedia texts media path = .ok () := by
  rw [openMedia, hselects.openInput, hselects.findStreamInfo]
  rfl

theorem openStream_eq (hselects : media.Selects type stream index codec)
    (texts : OpenTexts) : openStream texts media stream = .ok codec := by
  rw [openStream, hselects.decoder, hselects.allocContext, hselects.parametersToContext,
    hselects.openDecoder]
  rfl

/-- The frames a packet loop receives. -/
def received (media : Media Packet State Picture Sample) (index : ℕ)
    (codec : Codec Packet (AVFrame Picture Sample) State) : List (AVFrame Picture Sample) :=
  codec.yields codec.initial (media.packetsOf index)

theorem extractFrames_eq (hselects : media.Selects .video stream index codec)
    {sws : SwsContext Picture} (hsws : stream.sws = some sws) {targetFps ratio : ℤ}
    (hratio : stream.frameRatio targetFps = .ok ratio) (path : Bytes) :
    extractFrames media path targetFps = (do
      let list ← (received media index codec).foldlM (extractFrame sws (clampInterval ratio))
        ⟨[], 0⟩
      pure (list.frames, (sws.size.width : ℤ), (sws.size.height : ℤ))) := by
  rw [extractFrames, openMedia_eq hselects, ok_bind, hselects.found, orThrow_some, ok_bind]
  dsimp only
  rw [openStream_eq hselects, ok_bind, hsws, orThrow_some, ok_bind, hselects.allocFrames,
    require_true, ok_bind, hratio, ok_bind, readPackets_eq]
  rfl

section Audio

variable [Zero Sample] [Add Sample] [Div Sample] [NatCast Sample]

theorem readStream_eq_ok_iff (hselects : media.Selects .audio stream index codec)
    (texts : OpenTexts) {samples : List Sample} :
    readStream texts media stream index = .ok samples ↔
      (∀ frame ∈ received media index codec, frame.InPlane) ∧
        samples = (received media index codec).flatMap AVFrame.samples := by
  rw [readStream, openStream_eq hselects, ok_bind, hselects.allocFrames, require_true, ok_bind,
    readPackets_eq]
  exact foldlM_readFrame_eq_ok_iff _

/-- Both audio readers return the samples of the frames received, if all of these can be
read. -/
theorem readAudio_eq_ok_iff (hselects : media.Selects .audio stream index codec) (path : Bytes)
    {samples : List Sample} :
    (readAudio media path = .ok samples ↔
      (∀ frame ∈ received media index codec, frame.InPlane) ∧
        samples = (received media index codec).flatMap AVFrame.samples) ∧
      (extractAudio media path = .ok samples ↔
        (∀ frame ∈ received media index codec, frame.InPlane) ∧
          samples = (received media index codec).flatMap AVFrame.samples) := by
  refine ⟨?_, ?_⟩
  · rw [readAudio, openMedia_eq hselects, ok_bind, hselects.found, orThrow_some, ok_bind]
    exact readStream_eq_ok_iff hselects audioReaderTexts
  · rw [extractAudio, openMedia_eq hselects, ok_bind, hselects.found]
    exact readStream_eq_ok_iff hselects audioExtractorTexts

end Audio

end Selects

/-! ## Completeness -/

section Complete

variable {media : Media Packet State Picture Sample} {type : MediaType}
  {stream : AVStream Packet State Picture Sample} {index : ℕ}
  {codec : Codec Packet (AVFrame Picture Sample) State}

/-- `extractFrames` returns frames number `0`, `interval`, `2 * interval` and so on of
the complete decoded sequence. -/
def FramesComplete (media : Media Packet State Picture Sample) (index : ℕ)
    (codec : Codec Packet (AVFrame Picture Sample) State) (sws : SwsContext Picture)
    (interval : ℤ) (path : Bytes) (targetFps : ℤ) : Prop :=
  extractFrames media path targetFps =
    .ok ((everyNth interval 0 (codec.complete (media.packetsOf index))).map sws.pixels,
      sws.size.width, sws.size.height)

/-- The frames are complete exactly if they can be counted and none of those held back
is due. -/
theorem framesComplete_iff (hselects : media.Selects .video stream index codec)
    {sws : SwsContext Picture} (hsws : stream.sws = some sws) {targetFps ratio : ℤ}
    (hratio : stream.frameRatio targetFps = .ok ratio) (path : Bytes) :
    FramesComplete media index codec sws (clampInterval ratio) path targetFps ↔
      (received media index codec).length < 2 ^ 31 ∧
      ∀ i < (codec.heldBack (media.packetsOf index)).length,
        (((received media index codec).length + i : ℕ) : ℤ) % clampInterval ratio ≠ 0 := by
  have hrun := extractFrames_eq hselects hsws hratio path
  by_cases hcount : (received media index codec).length < 2 ^ 31
  · rw [foldlM_extractFrame sws (clampInterval ratio) hcount, ok_bind] at hrun
    rw [FramesComplete, hrun, Codec.complete, everyNth_append, Nat.zero_add, List.map_append,
      ← everyNth_eq_nil_iff]
    refine ⟨fun hequal => ⟨hcount, ?_⟩, fun hcondition => ?_⟩
    · have hframes := congrArg Prod.fst (Except.ok.inj hequal)
      exact List.map_eq_nil_iff.mp (List.self_eq_append_right.mp hframes)
    · have hnone := hcondition.2
      rw [received] at hnone
      rw [hnone, List.map_nil, List.append_nil]
      rfl
  · refine ⟨fun hcomplete => ?_, fun hcondition => absurd hcondition.1 hcount⟩
    obtain ⟨list, hlist, _⟩ := bind_eq_ok_iff.mp (hrun.symm.trans hcomplete)
    exact absurd (length_lt_of_foldlM_extractFrame hlist) hcount

variable [Zero Sample] [Add Sample] [Div Sample] [NatCast Sample]

/-- An audio reader returns the samples of every frame of the complete decoded
sequence. -/
def SamplesComplete (media : Media Packet State Picture Sample) (index : ℕ)
    (codec : Codec Packet (AVFrame Picture Sample) State) (result : Outcome (List Sample)) :
    Prop :=
  result = .ok ((codec.complete (media.packetsOf index)).flatMap AVFrame.samples)

/-- The samples are complete exactly if all frames received can be read and there are no
samples in the frames held back. -/
theorem samplesComplete_iff {result : Outcome (List Sample)}
    (hresult : ∀ samples, result = .ok samples ↔
      (∀ frame ∈ received media index codec, frame.InPlane) ∧
        samples = (received media index codec).flatMap AVFrame.samples) :
    SamplesComplete media index codec result ↔
      (∀ frame ∈ received media index codec, frame.InPlane) ∧
        ∀ frame ∈ codec.heldBack (media.packetsOf index), frame.nbSamples = 0 := by
  rw [SamplesComplete, hresult, Codec.complete, List.flatMap_append, received,
    List.append_right_eq_self, List.flatMap_eq_nil_iff]
  simp only [samples_eq_nil_iff]

end Complete

section Extraction

variable [Zero Sample] [Add Sample] [Div Sample] [NatCast Sample]
  {video audio : Media Packet State Picture Sample}
  {videoStream audioStream : AVStream Packet State Picture Sample} {videoIndex audioIndex : ℕ}
  {videoCodec audioCodec : Codec Packet (AVFrame Picture Sample) State}

/-- What is lost at extraction, of a video and of an audio stream, is what the decoder
holds back: nothing is lost exactly if that would not have added to the result, and, for
sound, every frame received lies in its plane. -/
theorem extraction_complete_iff
    (hvideo : video.Selects .video videoStream videoIndex videoCodec)
    {sws : SwsContext Picture} (hsws : videoStream.sws = some sws) {targetFps ratio : ℤ}
    (hratio : videoStream.frameRatio targetFps = .ok ratio)
    (haudio : audio.Selects .audio audioStream audioIndex audioCodec) (path : Bytes) :
    (FramesComplete video videoIndex videoCodec sws (clampInterval ratio) path targetFps ↔
      (received video videoIndex videoCodec).length < 2 ^ 31 ∧
      ∀ i < (videoCodec.heldBack (video.packetsOf videoIndex)).length,
        (((received video videoIndex videoCodec).length + i : ℕ) : ℤ) %
          clampInterval ratio ≠ 0) ∧
    (SamplesComplete audio audioIndex audioCodec (readAudio audio path) ↔
      (∀ frame ∈ received audio audioIndex audioCodec, frame.InPlane) ∧
      ∀ frame ∈ audioCodec.heldBack (audio.packetsOf audioIndex), frame.nbSamples = 0) ∧
    (SamplesComplete audio audioIndex audioCodec (extractAudio audio path) ↔
      (∀ frame ∈ received audio audioIndex audioCodec, frame.InPlane) ∧
      ∀ frame ∈ audioCodec.heldBack (audio.packetsOf audioIndex), frame.nbSamples = 0) :=
  ⟨framesComplete_iff hvideo hsws hratio path,
    samplesComplete_iff fun _ => (readAudio_eq_ok_iff haudio path).1,
    samplesComplete_iff fun _ => (readAudio_eq_ok_iff haudio path).2⟩

end Extraction

/-! ## A decoder with a delay of one frame -/

/-- A frame of one red pixel and one sample. -/
def shortFrame : AVFrame Unit ℚ where
  picture := ()
  channels := 1
  nbSamples := 1
  data := [1]

/-- The decoder hands out the frame of a packet when the next packet arrives. -/
def delayedCodec : Codec (AVFrame Unit ℚ) (AVFrame Unit ℚ) (Option (AVFrame Unit ℚ)) where
  initial := none
  decode held packet := (some held.toList, some packet)
  drain held := held.toList

def redScaler : SwsContext Unit where
  size := ⟨1, 1, by norm_num⟩
  scale := fun _ => ⟨[255, 0, 0], rfl⟩

/-- A stream of 25 frames per second. -/
def delayedStream (type : MediaType) :
    AVStream (AVFrame Unit ℚ) (Option (AVFrame Unit ℚ)) Unit ℚ where
  codecType := type
  decoder := some delayedCodec
  sws := some redScaler
  frameRatio := fun targetFps => if targetFps = 0 then undefined else .ok (25 / targetFps)

/-- A file of one packet of video and one of audio. -/
def shortMedia : Media (AVFrame Unit ℚ) (Option (AVFrame Unit ℚ)) Unit ℚ where
  openInput := true
  findStreamInfo := true
  streams := [delayedStream .video, delayedStream .audio]
  allocContext := true
  parametersToContext := true
  openDecoder := true
  allocFrames := true
  packets := [(0, shortFrame), (1, shortFrame)]

theorem shortMedia_selects :
    shortMedia.Selects .video (delayedStream .video) 0 delayedCodec ∧
      shortMedia.Selects .audio (delayedStream .audio) 1 delayedCodec :=
  ⟨⟨rfl, rfl, rfl, rfl, rfl, rfl, rfl, rfl⟩, ⟨rfl, rfl, rfl, rfl, rfl, rfl, rfl, rfl⟩⟩

theorem delayedStream_ratio : (delayedStream .video).frameRatio 25 = .ok 1 := rfl

theorem extraction_complete_iff_short :
    (FramesComplete shortMedia 0 delayedCodec redScaler 1 (ascii "a.mp4") 25 ↔
      (received shortMedia 0 delayedCodec).length < 2 ^ 31 ∧
      ∀ i < (delayedCodec.heldBack (shortMedia.packetsOf 0)).length,
        (((received shortMedia 0 delayedCodec).length + i : ℕ) : ℤ) % 1 ≠ 0) ∧
    (SamplesComplete shortMedia 1 delayedCodec (readAudio shortMedia (ascii "a.mp4")) ↔
      (∀ frame ∈ received shortMedia 1 delayedCodec, frame.InPlane) ∧
      ∀ frame ∈ delayedCodec.heldBack (shortMedia.packetsOf 1), frame.nbSamples = 0) ∧
    (SamplesComplete shortMedia 1 delayedCodec (extractAudio shortMedia (ascii "a.mp4")) ↔
      (∀ frame ∈ received shortMedia 1 delayedCodec, frame.InPlane) ∧
      ∀ frame ∈ delayedCodec.heldBack (shortMedia.packetsOf 1), frame.nbSamples = 0) :=
  extraction_complete_iff shortMedia_selects.1 rfl delayedStream_ratio shortMedia_selects.2
    (ascii "a.mp4")

/-- The only frame and the only sample of the file are lost. -/
theorem not_extraction_complete_short :
    ¬ FramesComplete shortMedia 0 delayedCodec redScaler 1 (ascii "a.mp4") 25 ∧
      ¬ SamplesComplete shortMedia 1 delayedCodec (readAudio shortMedia (ascii "a.mp4")) ∧
      ¬ SamplesComplete shortMedia 1 delayedCodec (extractAudio shortMedia (ascii "a.mp4")) := by
  obtain ⟨hvideo, haudio⟩ := shortMedia_selects
  have hheld : shortFrame ∈ delayedCodec.heldBack (shortMedia.packetsOf 1) := List.mem_cons_self
  refine ⟨fun hcomplete => ?_, fun hcomplete => ?_, fun hcomplete => ?_⟩
  · have hframes := framesComplete_iff hvideo rfl delayedStream_ratio (ascii "a.mp4")
    exact absurd rfl ((hframes.mp hcomplete).2 0 (by decide))
  · have hsamples := samplesComplete_iff fun _ => (readAudio_eq_ok_iff haudio (ascii "a.mp4")).1
    exact absurd ((hsamples.mp hcomplete).2 _ hheld) Nat.one_ne_zero
  · have hsamples := samplesComplete_iff fun _ => (readAudio_eq_ok_iff haudio (ascii "a.mp4")).2
    exact absurd ((hsamples.mp hcomplete).2 _ hheld) Nat.one_ne_zero

end Dht
