/-
# Extracting frames and samples

`extractFrames`, `readAudio` and `extractAudio` open a file, select the first stream
of their kind, and run the same loop: read a packet, send it to the decoder if it is
of that stream, and receive frames until there are none. They differ in the texts of
their exceptions and in what they do with a frame.

What is outside this code (the demuxer, the decoder, the scaler, and the calls that
allocate or open something) is the environment of a call.
-/

import Dht.Color.Codec
import Dht.Lib.SendReceive
import Mathlib.Data.Vector.Basic

namespace Dht

open SendReceive

/-! ## Frames -/

/-- `AVFrame`: its picture, which only the scaler reads, and its sound. -/
structure AVFrame (Picture Sample : Type) where
  picture : Picture
  channels : ℕ
  nbSamples : ℕ
  /-- The plane `data[0]`, taken for an array of `double`. -/
  data : List Sample

/-- The size of a video, as libavcodec admits it: the bytes of an RGB picture are
counted by an `int`. -/
structure VideoSize where
  width : ℕ
  height : ℕ
  bytes_lt : width * height * 3 < 2 ^ 31

/-- An `SwsContext` to RGB24 in the size of the video. -/
structure SwsContext (Picture : Type) where
  size : VideoSize
  scale : Picture → List.Vector UInt8 (size.width * size.height * 3)

/-! ## Files -/

inductive MediaType
  | video
  | audio
  | other
  deriving DecidableEq

variable {Packet State Picture Sample : Type}

/-- A stream of a file. -/
structure AVStream (Packet State Picture Sample : Type) where
  codecType : MediaType
  /-- `avcodec_find_decoder`. -/
  decoder : Option (Codec Packet (AVFrame Picture Sample) State)
  /-- `sws_getContext`. -/
  sws : Option (SwsContext Picture)
  /-- `(int)(fps / targetFps)`, undefined if that is no `int`. -/
  frameRatio : ℤ → Outcome ℤ

/-- A file and what the calls on it grant. -/
structure Media (Packet State Picture Sample : Type) where
  openInput : Bool
  findStreamInfo : Bool
  streams : List (AVStream Packet State Picture Sample)
  allocContext : Bool
  parametersToContext : Bool
  openDecoder : Bool
  allocFrames : Bool
  /-- What `av_read_frame` reads: packets with their `stream_index`. -/
  packets : List (ℕ × Packet)

namespace Media

variable (media : Media Packet State Picture Sample)

/-- The first stream of a type, with its index. -/
def findStream (type : MediaType) : Option (AVStream Packet State Picture Sample × ℕ) :=
  media.streams.zipIdx.find? fun stream => stream.1.codecType = type

/-- The packets of a stream. -/
def packetsOf (index : ℕ) : List Packet :=
  (media.packets.filter (·.1 = index)).map Prod.snd

/-- The loop over packets. -/
def readPackets {σ : Type} (index : ℕ) (codec : Codec Packet (AVFrame Picture Sample) State)
    (body : σ → AVFrame Picture Sample → Outcome σ) (value : σ) : Outcome σ := do
  let client ← media.packets.foldlM
    (fun client packet =>
      if packet.1 = index then sendTurn body client packet.2 else .ok client)
    (value, Context.opened codec)
  pure client.1

end Media

/-- The texts in which the three functions differ. -/
structure OpenTexts where
  cannotOpen : Bytes
  codecNotFound : Bytes
  allocContext : Bytes
  parametersToContext : Bytes
  openDecoder : Bytes

/-- Open the file at `path`. -/
def openMedia (texts : OpenTexts) (media : Media Packet State Picture Sample) (path : Bytes) :
    Outcome Unit := do
  require media.openInput (.dhtError (texts.cannotOpen ++ path))
  require media.findStreamInfo (.dhtError (ascii "Cannot find stream info"))

/-- Open the decoder of a stream. -/
def openStream (texts : OpenTexts) (media : Media Packet State Picture Sample)
    (stream : AVStream Packet State Picture Sample) :
    Outcome (Codec Packet (AVFrame Picture Sample) State) := do
  let codec ← orThrow (.dhtError texts.codecNotFound) stream.decoder
  require media.allocContext (.dhtError texts.allocContext)
  require media.parametersToContext (.dhtError texts.parametersToContext)
  require media.openDecoder (.dhtError texts.openDecoder)
  pure codec

/-! ## Frames of a video -/

def frameExtractorTexts : OpenTexts where
  cannotOpen := ascii "Cannot open video file: "
  codecNotFound := ascii "Video codec not found"
  allocContext := ascii "Failed to allocate video codec context"
  parametersToContext := ascii "Failed to copy video codec params"
  openDecoder := ascii "Failed to open video codec"

/-- `RGB(rgbBuffer[idx], rgbBuffer[idx + 1], rgbBuffer[idx + 2])`. -/
def bufferPixel (rgbBuffer : Bytes) (width y x : ℤ) : Outcome RGB := do
  let start ← intResult (y * width)
  let row ← intResult (start * 3)
  let column ← intResult (x * 3)
  let idx ← intResult (row + column)
  let r ← vectorAt rgbBuffer idx
  let g ← vectorAt rgbBuffer (idx + 1)
  let b ← vectorAt rgbBuffer (idx + 2)
  pure ⟨r, g, b⟩

/-- The loops that fill `pixels`. -/
def copyPixels (rgbBuffer : Bytes) (width height : ℤ) : Outcome (List RGB) := do
  let _ ← intResult (width * height)
  let rows ← (List.range height.toNat).mapM fun (y : ℕ) =>
    (List.range width.toNat).mapM fun (x : ℕ) => bufferPixel rgbBuffer width y x
  pure rows.flatten

/-- The local variables `frames` and `frameCount`. -/
structure FrameList where
  frames : List (List RGB)
  frameCount : ℤ

/-- The frames after one was received: it is converted and stored if its number is a
multiple of the interval. -/
def storeFrame (sws : SwsContext Picture) (frameInterval : ℤ) (list : FrameList)
    (frame : AVFrame Picture Sample) : Outcome (List (List RGB)) :=
  if list.frameCount % frameInterval = 0 then do
    let pixels ← copyPixels (sws.scale frame.picture).toList sws.size.width sws.size.height
    pure (list.frames ++ [pixels])
  else pure list.frames

/-- What `extractFrames` does with a frame. -/
def extractFrame (sws : SwsContext Picture) (frameInterval : ℤ) (list : FrameList)
    (frame : AVFrame Picture Sample) : Outcome FrameList := do
  let frames ← storeFrame sws frameInterval list frame
  let frameCount ← intResult (list.frameCount + 1)
  pure ⟨frames, frameCount⟩

/-- `if (frameInterval < 1) frameInterval = 1`. -/
def clampInterval (ratio : ℤ) : ℤ := if ratio < 1 then 1 else ratio

/-- `extractFrames`: the frames and the two reference arguments. -/
def extractFrames (media : Media Packet State Picture Sample) (path : Bytes) (targetFps : ℤ) :
    Outcome (List (List RGB) × ℤ × ℤ) := do
  openMedia frameExtractorTexts media path
  let (stream, index) ← orThrow (.dhtError (ascii "No video stream found"))
    (media.findStream .video)
  let codec ← openStream frameExtractorTexts media stream
  let sws ← orThrow (.dhtError (ascii "Failed to create sws context")) stream.sws
  require media.allocFrames (.dhtError (ascii "Failed to allocate frames/packet"))
  let ratio ← stream.frameRatio targetFps
  let list ← media.readPackets index codec (extractFrame sws (clampInterval ratio)) ⟨[], 0⟩
  pure (list.frames, sws.size.width, sws.size.height)

/-! ## Samples of an audio track -/

section Audio

variable [Zero Sample] [Add Sample] [Div Sample] [NatCast Sample]

/-- `sample += data[i * channels + c]`. -/
def addSample (frame : AVFrame Picture Sample) (i : ℕ) (sample : Sample) (c : ℕ) :
    Outcome Sample := do
  let start ← intResult (i * frame.channels)
  let index ← intResult (start + c)
  let value ← vectorAt frame.data index
  pure (sample + value)

/-- The loop over the channels of one sample. -/
def channelSum (frame : AVFrame Picture Sample) (i : ℕ) : Outcome Sample :=
  (List.range frame.channels).foldlM (addSample frame i) 0

/-- What the two audio readers do with a frame: append the mean of the channels for
each sample. -/
def readFrame (samples : List Sample) (frame : AVFrame Picture Sample) :
    Outcome (List Sample) :=
  (List.range frame.nbSamples).foldlM
    (fun samples i => do
      let sample ← channelSum frame i
      pure (samples ++ [sample / frame.channels]))
    samples

/-- The part of the two audio readers behind the choice of a stream. -/
def readStream (texts : OpenTexts) (media : Media Packet State Picture Sample)
    (stream : AVStream Packet State Picture Sample) (index : ℕ) : Outcome (List Sample) := do
  let codec ← openStream texts media stream
  require media.allocFrames (.dhtError (ascii "Failed to allocate packet/frame"))
  media.readPackets index codec readFrame []

def audioReaderTexts : OpenTexts where
  cannotOpen := ascii "Cannot open audio file: "
  codecNotFound := ascii "Codec not found"
  allocContext := ascii "Failed to allocate codec context"
  parametersToContext := ascii "Failed to copy codec params"
  openDecoder := ascii "Failed to open codec"

/-- `readAudio`. -/
def readAudio (media : Media Packet State Picture Sample) (path : Bytes) :
    Outcome (List Sample) := do
  openMedia audioReaderTexts media path
  let (stream, index) ← orThrow (.dhtError (ascii "No audio stream found"))
    (media.findStream .audio)
  readStream audioReaderTexts media stream index

def audioExtractorTexts : OpenTexts where
  cannotOpen := ascii "Cannot open file: "
  codecNotFound := ascii "Audio codec not found"
  allocContext := ascii "Failed to allocate audio codec context"
  parametersToContext := ascii "Failed to copy audio codec params"
  openDecoder := ascii "Failed to open audio codec"

/-- `extractAudio`. A file without an audio stream has no samples. -/
def extractAudio (media : Media Packet State Picture Sample) (path : Bytes) :
    Outcome (List Sample) := do
  openMedia audioExtractorTexts media path
  match media.findStream .audio with
  | none => pure []
  | some (stream, index) => readStream audioExtractorTexts media stream index

end Audio

end Dht
