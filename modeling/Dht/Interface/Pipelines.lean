/-
# The six operations on files

Each operation of the interface reads its input file, converts it in a chain of steps, each
of which may throw, and writes one output file at the end. The encrypting operations open
the output only when there is nothing left that could fail. The decrypting ones leave that
to the image writers, and these open the file before they know whether the image can be
written. A refused image therefore costs the file that was there.
-/

import Dht.Audio.Text
import Dht.Compression.XZ
import Dht.Crypto.Envelope
import Dht.Interface.Files
import Dht.Media.Extraction
import Dht.Video.Decoding

namespace Dht

/-- What the operations find outside their own code. -/
structure Environment (Packet State Picture : Type) where
  ssl : OpenSSL
  easyEncoder : Option NextCoder
  streamDecoder : Option NextCoder
  order : IterationOrder
  libpng : Libpng
  libjpeg : Libjpeg
  pngWriter : LibpngWriter
  jpegWriter : LibjpegWriter
  /-- What libav makes of the contents of a file. -/
  media : Option Bytes → Media Packet State Picture ℚ

variable {Packet State Picture : Type} (env : Environment Packet State Picture) (fuel : ℕ)
  (inputPath outputPath password : Bytes)

/-! ## Encryption -/

/-- The last steps of every encrypting operation. -/
def writeEncrypted (textData : Bytes) : FileCall PUnit := do
  let compressed ← Call.ofResult (compressXZ env.easyEncoder textData fuel)
  let encrypted ← compute (encryptData env.ssl compressed password)
  writeFile outputPath encrypted

/-- How `encryptImage` reads its input. -/
def readImage : FileCall Decoded :=
  let ext := getFileExtension inputPath
  if ext = ascii "png" then do
    let contents ← readFile inputPath
    compute (readPNG env.libpng contents)
  else if ext = ascii "jpg" ∨ ext = ascii "jpeg" then do
    let contents ← readFile inputPath
    compute (readJPEG env.libjpeg contents)
  else if ext = ascii "bmp" then do
    let contents ← readFile inputPath
    compute (readBMP contents)
  else throw (.thrown (.unsupportedFormatError ext))

/-- `encryptImage`. -/
def encryptImage : FileCall PUnit := do
  let image ← readImage env inputPath
  let textData ← compute (pixelToText env.order image.pixels image.width image.height)
  writeEncrypted env fuel outputPath password textData

/-- The file libav is given the path of. -/
def mediaAt : FileCall (Media Packet State Picture ℚ) :=
  Call.query fun files => .ok (env.media (files.contents inputPath))

/-- `encryptVideo`. -/
def encryptVideo (fps audioSamplesPerSecond : ℤ) : FileCall PUnit := do
  let media ← mediaAt env inputPath
  let extracted ← compute (extractFrames media inputPath fps)
  let frameTexts ← compute (extracted.1.mapM fun frame =>
    frameToText env.order frame extracted.2.1 extracted.2.2)
  let audioSamples ← compute (extractAudio media inputPath)
  let audioText ← compute (audioToText audioSamples audioSamplesPerSecond)
  writeEncrypted env fuel outputPath password (joinVideoText frameTexts audioText)

/-- `encryptAudio`. -/
def encryptAudio (samplesPerSecond : ℤ) : FileCall PUnit := do
  let media ← mediaAt env inputPath
  let samples ← compute (readAudio media inputPath)
  let textData ← compute (sampleToText samples samplesPerSecond)
  writeEncrypted env fuel outputPath password textData

/-! ## Decryption -/

/-- The first steps of every decrypting operation. -/
def readDecrypted : FileCall Bytes := do
  let encrypted ← readFile inputPath
  let decrypted ← compute (decryptData env.ssl encrypted password)
  Call.ofResult (decompressXZ env.streamDecoder decrypted fuel)

/-- The default of `quality`. -/
def defaultQuality : ℤ := 90

/-- How `decryptImage` writes its output. -/
def writeImage (image : Decoded) : FileCall PUnit :=
  let ext := getFileExtension outputPath
  if ext = ascii "png" then
    writePNG env.pngWriter outputPath image.pixels image.width image.height
  else if ext = ascii "jpg" ∨ ext = ascii "jpeg" then
    writeJPEG env.jpegWriter outputPath image.pixels image.width image.height defaultQuality
  else if ext = ascii "bmp" then writeBMP outputPath image.pixels image.width image.height
  else throw (.thrown (.unsupportedFormatError ext))

/-- `decryptImage`. -/
def decryptImage : FileCall PUnit := do
  let textData ← readDecrypted env fuel inputPath password
  let image ← compute (textToPixel textData)
  writeImage env outputPath image

/-- How `decryptVideo` writes its output. -/
def writeVideo (video : Decoded) : FileCall PUnit :=
  let ext := getFileExtension outputPath
  if ext = ascii "png" then
    writePNG env.pngWriter outputPath video.pixels video.width video.height
  else if ext = ascii "jpg" ∨ ext = ascii "jpeg" then
    writeJPEG env.jpegWriter outputPath video.pixels video.width video.height defaultQuality
  else throw (.thrown (.unsupportedFormatError ext))

/-- `decryptVideo`. -/
def decryptVideo : FileCall PUnit := do
  let textData ← readDecrypted env fuel inputPath password
  let video ← compute (decryptVideoText textData)
  writeVideo env outputPath video

/-- `decryptAudio`. -/
def decryptAudio : FileCall PUnit := do
  let textData ← readDecrypted env fuel inputPath password
  let _ ← compute (textToAudio textData)
  throw (.thrown (.dhtError (ascii "Audio decoding not implemented yet")))

/-! ## What a failed operation leaves -/

/-- The operations, with the arguments only some of them have. -/
inductive Operation
  | encryptImage
  | encryptVideo (fps audioSamplesPerSecond : ℤ)
  | encryptAudio (samplesPerSecond : ℤ)
  | decryptImage
  | decryptVideo
  | decryptAudio

/-- A call of an operation. -/
def Operation.call : Operation → FileCall PUnit
  | .encryptImage => Dht.encryptImage env fuel inputPath outputPath password
  | .encryptVideo fps audioSamplesPerSecond =>
      Dht.encryptVideo env fuel inputPath outputPath password fps audioSamplesPerSecond
  | .encryptAudio samplesPerSecond =>
      Dht.encryptAudio env fuel inputPath outputPath password samplesPerSecond
  | .decryptImage => Dht.decryptImage env fuel inputPath outputPath password
  | .decryptVideo => Dht.decryptVideo env fuel inputPath outputPath password
  | .decryptAudio => Dht.decryptAudio env fuel inputPath password

/-- Whenever the operation throws, the output file is what it was. A writer that has opened
the file and is undefined on the image has not thrown. -/
def LeavesOutput (operation : Operation) (files : FileSystem) : Prop :=
  ∀ fuel, Call.KeepsOnFailure (fun files => files.contents outputPath) Failure.IsThrown
    (operation.call env fuel inputPath outputPath password) files

/-- The input file is decrypted and decompressed to a text. -/
def DecryptsTo (files : FileSystem) (textData : Bytes) : Prop :=
  ∃ encrypted decrypted, files.contents inputPath = some encrypted ∧
    decryptData env.ssl encrypted password = .ok decrypted ∧
    decompressXZ env.streamDecoder decrypted fuel = some (.ok textData)

/-- The image an operation decodes from a text and hands to a writer. -/
def Operation.Decodes (textData : Bytes) (image : Decoded) : Operation → Prop
  | .encryptImage => False
  | .encryptVideo _ _ => False
  | .encryptAudio _ => False
  | .decryptImage => textToPixel textData = .ok image
  | .decryptVideo => decryptVideoText textData = .ok image
  | .decryptAudio => False

/-- The image is refused by the writer, for a reason that is no fault of the file system. -/
def Operation.Refuses (image : Decoded) : Operation → Prop
  | .encryptImage => False
  | .encryptVideo _ _ => False
  | .encryptAudio _ => False
  | .decryptImage =>
      (getFileExtension outputPath = ascii "png" ∧
          env.pngWriter.accepts image.width image.height = false) ∨
        (getFileExtension outputPath = ascii "bmp" ∧ BmpRefuses image.width image.height)
  | .decryptVideo => getFileExtension outputPath = ascii "png" ∧
      env.pngWriter.accepts image.width image.height = false
  | .decryptAudio => False

/-- An image is decoded that the writer refuses, and there is a file to lose or one that
should not be there. -/
def SpoilsOutput (operation : Operation) (files : FileSystem) : Prop :=
  files.writable outputPath = true ∧ files.contents outputPath ≠ some [] ∧
    ∃ fuel textData image, DecryptsTo env fuel inputPath password files textData ∧
      operation.Decodes textData image ∧ operation.Refuses env outputPath image

section Steps

variable {env fuel inputPath outputPath password} {files : FileSystem}

theorem readOnly_compute {α : Type} (outcome : Outcome α) : (compute outcome).ReadOnly :=
  Call.readOnly_ofResult _

theorem ends_compute_iff {α : Type} {outcome result : Outcome α} {after : FileSystem} :
    (compute outcome).Ends files result after ↔ outcome = result ∧ after = files := by
  rw [compute, Call.ends_ofResult_iff, Option.some_inj]

theorem readOnly_readFile (path : Bytes) : (readFile path).ReadOnly := Call.readOnly_query _

theorem readOnly_readDecrypted : (readDecrypted env fuel inputPath password).ReadOnly :=
  (readOnly_readFile _).bind fun _ => (readOnly_compute _).bind fun _ => Call.readOnly_ofResult _

theorem ends_readDecrypted_iff {textData : Bytes} :
    (readDecrypted env fuel inputPath password).Ends files (.ok textData) files ↔
      DecryptsTo env fuel inputPath password files textData := by
  rw [readDecrypted, DecryptsTo]
  simp only [Call.ends_bind_iff, ends_compute_iff, Call.ends_ofResult_iff, readFile,
    Call.ends_query_iff, orThrow_eq_ok_iff]
  constructor
  · rintro (⟨failure, -, hfailure⟩ | ⟨encrypted, between, ⟨hfile, rfl⟩, hrest⟩)
    · cases hfailure
    · rcases hrest with ⟨failure, -, hfailure⟩ | ⟨decrypted, between, ⟨hdecrypt, rfl⟩, hunpack⟩
      · cases hfailure
      · exact ⟨encrypted, decrypted, hfile, hdecrypt, hunpack.1⟩
  · rintro ⟨encrypted, decrypted, hfile, hdecrypt, hunpack⟩
    exact .inr ⟨encrypted, files, ⟨hfile, rfl⟩,
      .inr ⟨decrypted, files, ⟨hdecrypt, rfl⟩, hunpack, rfl⟩⟩

theorem readOnly_readImage : (readImage env inputPath).ReadOnly := by
  rw [readImage]
  split
  · exact (readOnly_readFile _).bind fun _ => readOnly_compute _
  · split
    · exact (readOnly_readFile _).bind fun _ => readOnly_compute _
    · split
      · exact (readOnly_readFile _).bind fun _ => readOnly_compute _
      · exact Call.readOnly_throw _

theorem readOnly_mediaAt : (mediaAt env inputPath).ReadOnly := Call.readOnly_query _

/-- The last steps of encryption open the output when nothing can throw any more. -/
theorem keepsOnFailure_writeEncrypted (textData : Bytes) :
    Call.KeepsOnFailure (fun files => files.contents outputPath) Failure.IsThrown
      (writeEncrypted env fuel outputPath password textData) files := by
  rw [writeEncrypted, Call.keepsOnFailure_bind_iff (Call.readOnly_ofResult _)]
  intro compressed _
  rw [Call.keepsOnFailure_bind_iff (readOnly_compute _)]
  intro encrypted _
  rw [writeFile, keepsOnFailure_createFile_iff]
  intro hspoils
  exact not_throws_ok encrypted hspoils.2.2

/-- The output is spoilt by a writer that refuses the image. -/
theorem keepsOnFailure_writeImage_iff (image : Decoded) :
    Call.KeepsOnFailure (fun files => files.contents outputPath) Failure.IsThrown
        (writeImage env outputPath image) files ↔
      ¬ (files.writable outputPath = true ∧ files.contents outputPath ≠ some [] ∧
        Operation.decryptImage.Refuses env outputPath image) := by
  rw [writeImage, Operation.Refuses]
  split
  · next hpng =>
      have hbmp : getFileExtension outputPath ≠ ascii "bmp" := by
        rw [hpng]
        decide
      rw [writePNG, keepsOnFailure_createFile_iff, throws_pngFile_iff, and_iff_right hpng,
        or_iff_left fun hrefused => hbmp hrefused.1]
  · next hpng =>
      have hnotPNG : ¬ (getFileExtension outputPath = ascii "png" ∧
          env.pngWriter.accepts image.width image.height = false) := fun hrefused =>
        hpng hrefused.1
      split
      · next hjpg =>
          have hbmp : getFileExtension outputPath ≠ ascii "bmp" := by
            rcases hjpg with hjpg | hjpeg
            · rw [hjpg]
              decide
            · rw [hjpeg]
              decide
          rw [writeJPEG, keepsOnFailure_createFile_iff, or_iff_right hnotPNG]
          refine iff_of_true (fun hspoils => ?_) fun hspoils => hbmp hspoils.2.2.1
          exact not_throws_jpegFile _ _ _ _ _ hspoils.2.2
      · rw [or_iff_right hnotPNG]
        split
        · next hbmp =>
            rw [writeBMP, keepsOnFailure_createFile_iff, throws_bmpFile_iff, and_iff_right hbmp]
        · next hbmp =>
            exact iff_of_true (Call.readOnly_throw _).keepsOnFailure
              fun hspoils => hbmp hspoils.2.2.1

/-- A video is written like an image, except that there is no BMP writer for it. -/
theorem writeVideo_eq (video : Decoded) :
    writeVideo env outputPath video =
      if getFileExtension outputPath = ascii "bmp" then
        throw (.thrown (.unsupportedFormatError (ascii "bmp")))
      else writeImage env outputPath video := by
  by_cases hbmp : getFileExtension outputPath = ascii "bmp"
  · rw [if_pos hbmp, writeVideo, hbmp]
    rfl
  · rw [if_neg hbmp, writeVideo, writeImage, if_neg hbmp]

theorem keepsOnFailure_writeVideo_iff (video : Decoded) :
    Call.KeepsOnFailure (fun files => files.contents outputPath) Failure.IsThrown
        (writeVideo env outputPath video) files ↔
      ¬ (files.writable outputPath = true ∧ files.contents outputPath ≠ some [] ∧
        Operation.decryptVideo.Refuses env outputPath video) := by
  rw [writeVideo_eq]
  split
  · next hbmp =>
      have hpng : getFileExtension outputPath ≠ ascii "png" := by
        rw [hbmp]
        decide
      exact iff_of_true (Call.readOnly_throw _).keepsOnFailure fun hspoils => hpng hspoils.2.2.1
  · next hbmp =>
      rw [keepsOnFailure_writeImage_iff, Operation.Refuses, Operation.Refuses,
        or_iff_left fun hrefused => hbmp hrefused.1]

/-- A decryption spoils its output exactly if its writer does for some image. -/
theorem keepsOnFailure_decrypt_iff {decode : Bytes → Outcome Decoded}
    {write : Decoded → FileCall PUnit} {Refuses : Decoded → Prop}
    (hwrite : ∀ image, Call.KeepsOnFailure (fun files => files.contents outputPath)
        Failure.IsThrown (write image) files ↔
      ¬ (files.writable outputPath = true ∧ files.contents outputPath ≠ some [] ∧
        Refuses image)) :
    (∀ fuel, Call.KeepsOnFailure (fun files => files.contents outputPath) Failure.IsThrown
        (do
          let textData ← readDecrypted env fuel inputPath password
          let image ← compute (decode textData)
          write image) files) ↔
      ¬ (files.writable outputPath = true ∧ files.contents outputPath ≠ some [] ∧
        ∃ fuel textData image, DecryptsTo env fuel inputPath password files textData ∧
          decode textData = .ok image ∧ Refuses image) := by
  have hsteps (fuel : ℕ) : Call.KeepsOnFailure (fun files => files.contents outputPath)
      Failure.IsThrown (do
        let textData ← readDecrypted env fuel inputPath password
        let image ← compute (decode textData)
        write image) files ↔
      ∀ textData, DecryptsTo env fuel inputPath password files textData → ∀ image,
        decode textData = .ok image → ¬ (files.writable outputPath = true ∧
          files.contents outputPath ≠ some [] ∧ Refuses image) := by
    rw [Call.keepsOnFailure_bind_iff readOnly_readDecrypted]
    simp only [Call.keepsOnFailure_bind_iff (readOnly_compute _), ends_readDecrypted_iff,
      ends_compute_iff, and_true, hwrite]
  simp only [hsteps]
  constructor
  · rintro hkeeps ⟨hwritable, hchanged, fuel, textData, image, htext, hdecode, hrefuses⟩
    exact hkeeps fuel textData htext image hdecode ⟨hwritable, hchanged, hrefuses⟩
  · rintro hunspoilt fuel textData htext image hdecode ⟨hwritable, hchanged, hrefuses⟩
    exact hunspoilt ⟨hwritable, hchanged, fuel, textData, image, htext, hdecode, hrefuses⟩

/-- An operation that hands no image to a writer spoils nothing. -/
theorem not_spoilsOutput {operation : Operation}
    (hnone : ∀ textData image, ¬ operation.Decodes textData image) :
    ¬ SpoilsOutput env inputPath outputPath password operation files := by
  rintro ⟨-, -, fuel, textData, image, -, hdecodes, -⟩
  exact hnone textData image hdecodes

end Steps

section Encryption

variable {env inputPath outputPath password} {files : FileSystem}

theorem leavesOutput_encryptImage :
    LeavesOutput env inputPath outputPath password .encryptImage files := by
  intro fuel
  rw [Operation.call, encryptImage, Call.keepsOnFailure_bind_iff readOnly_readImage]
  intro image _
  rw [Call.keepsOnFailure_bind_iff (readOnly_compute _)]
  intro textData _
  exact keepsOnFailure_writeEncrypted textData

theorem leavesOutput_encryptVideo (fps audioSamplesPerSecond : ℤ) :
    LeavesOutput env inputPath outputPath password (.encryptVideo fps audioSamplesPerSecond)
      files := by
  intro fuel
  rw [Operation.call, encryptVideo, Call.keepsOnFailure_bind_iff readOnly_mediaAt]
  intro media _
  rw [Call.keepsOnFailure_bind_iff (readOnly_compute _)]
  intro extracted _
  rw [Call.keepsOnFailure_bind_iff (readOnly_compute _)]
  intro frameTexts _
  rw [Call.keepsOnFailure_bind_iff (readOnly_compute _)]
  intro audioSamples _
  rw [Call.keepsOnFailure_bind_iff (readOnly_compute _)]
  intro audioText _
  exact keepsOnFailure_writeEncrypted (joinVideoText frameTexts audioText)

theorem leavesOutput_encryptAudio (samplesPerSecond : ℤ) :
    LeavesOutput env inputPath outputPath password (.encryptAudio samplesPerSecond) files := by
  intro fuel
  rw [Operation.call, encryptAudio, Call.keepsOnFailure_bind_iff readOnly_mediaAt]
  intro media _
  rw [Call.keepsOnFailure_bind_iff (readOnly_compute _)]
  intro samples _
  rw [Call.keepsOnFailure_bind_iff (readOnly_compute _)]
  intro textData _
  exact keepsOnFailure_writeEncrypted textData

/-- The decoder of audio never gets as far as a file. -/
theorem leavesOutput_decryptAudio :
    LeavesOutput env inputPath outputPath password .decryptAudio files := by
  intro fuel
  apply Call.ReadOnly.keepsOnFailure
  exact readOnly_readDecrypted.bind fun _ => (readOnly_compute _).bind fun _ =>
    Call.readOnly_throw _

end Encryption

/-- A failed operation leaves its output file alone, unless it is a decryption that has
decoded an image the writer refuses. -/
theorem leavesOutput_iff (operation : Operation) (files : FileSystem) :
    LeavesOutput env inputPath outputPath password operation files ↔
      ¬ SpoilsOutput env inputPath outputPath password operation files := by
  cases operation with
  | encryptImage =>
      exact iff_of_true leavesOutput_encryptImage (not_spoilsOutput fun _ _ => id)
  | encryptVideo fps audioSamplesPerSecond =>
      exact iff_of_true (leavesOutput_encryptVideo fps audioSamplesPerSecond)
        (not_spoilsOutput fun _ _ => id)
  | encryptAudio samplesPerSecond =>
      exact iff_of_true (leavesOutput_encryptAudio samplesPerSecond)
        (not_spoilsOutput fun _ _ => id)
  | decryptImage => exact keepsOnFailure_decrypt_iff keepsOnFailure_writeImage_iff
  | decryptVideo => exact keepsOnFailure_decrypt_iff keepsOnFailure_writeVideo_iff
  | decryptAudio =>
      exact iff_of_true leavesOutput_decryptAudio (not_spoilsOutput fun _ _ => id)

/-! ## A file that is lost -/

/-- The limits of libpng and libjpeg, and no media files. -/
def plainEnvironment : Environment Unit Unit Unit where
  ssl := recordedSSL
  easyEncoder := some recordedEncoder
  streamDecoder := some recordedDecoder
  order := sourceOrder
  libpng := Libpng.only redPixel
  libjpeg := ⟨fun _ => none⟩
  pngWriter := {
    accepts := fun width height =>
      0 < width ∧ width ≤ 1000000 ∧ 0 < height ∧ height ≤ 1000000
    accepts_pos := by
      intro width height haccepts
      rw [decide_eq_true_iff] at haccepts
      exact ⟨haccepts.1, haccepts.2.2.1⟩
    encode := fun _ _ imageData => imageData }
  jpegWriter := {
    accepts := fun width height => 0 < width ∧ width ≤ 65500 ∧ 0 < height ∧ height ≤ 65500
    accepts_pos := by
      intro width height haccepts
      rw [decide_eq_true_iff] at haccepts
      exact ⟨haccepts.1, haccepts.2.2.1⟩
    encode := fun _ _ _ lines => lines.flatten }
  media := fun _ => ⟨false, false, [], false, false, false, false, []⟩

/-- The blob of the empty text under the first recorded key. -/
def emptyBlob : Bytes :=
  envelope zeroIv (recordedGcm.encrypt (passwordKey firstPassword) zeroIv [])

/-- An encrypted empty text, and an image that is already there. -/
def plainFiles : FileSystem where
  contents path :=
    if path = ascii "silence.dht" then some emptyBlob
    else if path = ascii "photo.png" then some (ascii "photo")
    else none
  writable _ := true

/-- The empty text has no pixels, libpng refuses the header, and the image is gone. -/
theorem not_leavesOutput_empty :
    ¬ ∀ operation files inputPath outputPath password,
      LeavesOutput plainEnvironment inputPath outputPath password operation files := by
  intro hall
  have hkeeps := keepsOnFailure_decrypt_iff keepsOnFailure_writeImage_iff |>.mp
    (hall .decryptImage plainFiles (ascii "silence.dht") (ascii "photo.png") firstPassword)
  apply hkeeps
  refine ⟨rfl, by decide, 0, [], ⟨[], 0, 0⟩, ⟨emptyBlob, [], by decide, ?_, rfl⟩, rfl,
    .inl ⟨by decide, by decide⟩⟩
  decide

end Dht
