/-
# JPEG files, and the sizes both libraries admit

`readJPEG` does with any number of channels what `readPNG` does with three. Neither
library limits the area of an image to what an `int` can count, and neither reader checks
it: their products are right exactly for the images whose samples can be counted.
-/

import Dht.Image.Png

namespace Dht

/-! ## Reader -/

/-- A decompressed image. -/
structure JpegImage where
  width : ℕ
  height : ℕ
  channels : ℕ
  width_pos : 0 < width
  height_pos : 0 < height
  channels_mem : channels ∈ [1, 3, 4]
  samples : ℕ → ℕ → Fin channels → UInt8

/-- The bytes of a pixel. -/
def JpegImage.pixelBytes (image : JpegImage) (y x : ℕ) : Bytes := List.ofFn (image.samples y x)

/-- A line as `jpeg_read_scanlines` writes it. -/
def JpegImage.scanline (image : JpegImage) (y : ℕ) : Bytes :=
  sampleRow image.width image.pixelBytes y

/-- libjpeg, as far as the reader sees it. Its default error handler ends the process. -/
structure Libjpeg where
  decode : Bytes → Option JpegImage

/-- The vectors that are filled by the library. -/
structure JpegBuffers where
  rowBuffer : Bytes
  imageData : Bytes

/-- Their allocation. -/
def jpegBuffers (width height channels : ℤ) : Outcome JpegBuffers := do
  let rowSize ← intResult (width * channels)
  let rowBuffer ← newVector rowSize 0
  let size ← intProduct width height channels
  let imageData ← newVector size 0
  pure ⟨rowBuffer, imageData⟩

/-- One turn of the loop over the lines. A line fills the row buffer, so nothing of the
line before it is left there. -/
def readScanline (image : JpegImage) (rowBuffer imageData : Bytes) (row : ℕ) : Outcome Bytes := do
  let rowBuffer ← storeAt rowBuffer 0 (image.scanline row)
  let start ← intProduct row image.width image.channels
  let size ← intResult (image.width * image.channels)
  storeAt imageData start (rowBuffer.take size.toNat)

/-- `pixels`. -/
def jpegPixelVector (width height : ℤ) : Outcome (List RGB) := do
  let count ← intResult (width * height)
  newVector count ⟨0, 0, 0⟩

/-- `readJPEG` behind `jpeg_start_decompress`. -/
def jpegPixels (image : JpegImage) : Outcome Decoded := do
  let buffers ← jpegBuffers image.width image.height image.channels
  let imageData ← (List.range image.height).foldlM (readScanline image buffers.rowBuffer)
    buffers.imageData
  let pixels ← jpegPixelVector image.width image.height
  let pixels ← readSamples imageData image.width image.height image.channels pixels
  pure ⟨pixels, image.width, image.height⟩

/-- `readJPEG` on the contents of a file. -/
def readJPEG (lib : Libjpeg) (contents : Bytes) : Outcome Decoded :=
  match lib.decode contents with
  | none => .error .exited
  | some image => jpegPixels image

/-! ## What the reader returns -/

section Buffers

variable {width height channels : ℕ} (hlt : width * height * channels < 2 ^ 31)

include hlt

theorem rowSize_lt (hheight : 0 < height) : width * channels < 2 ^ 31 := by
  apply lt_of_le_of_lt _ hlt
  exact Nat.mul_le_mul_right _ (Nat.le_mul_of_pos_right _ hheight)

variable (hpos : 0 < channels)

include hpos

theorem jpegPixelVector_eq :
    jpegPixelVector width height = .ok (List.replicate (width * height) ⟨0, 0, 0⟩) := by
  have harea : width * height < 2 ^ 31 := lt_of_le_of_lt (Nat.le_mul_of_pos_right _ hpos) hlt
  rw [jpegPixelVector, ← Nat.cast_mul, intResult_natCast harea, ok_bind, newVector_natCast]

theorem jpegBuffers_eq (hheight : 0 < height) :
    jpegBuffers width height channels = .ok ⟨List.replicate (width * channels) 0,
      List.replicate (width * height * channels) 0⟩ := by
  have hproduct := intProduct_natCast hpos hlt
  rw [← Nat.cast_mul, ← Nat.cast_mul] at hproduct
  rw [jpegBuffers, ← Nat.cast_mul, intResult_natCast (rowSize_lt hlt hheight), ok_bind,
    newVector_natCast, ok_bind, hproduct, ok_bind, newVector_natCast, ok_bind]
  rfl

end Buffers

section Reader

variable {image : JpegImage}

theorem JpegImage.channels_pos (image : JpegImage) : 0 < image.channels := by
  have hmem := image.channels_mem
  simp only [List.mem_cons, List.not_mem_nil, or_false] at hmem
  omega

theorem JpegImage.length_pixelBytes (image : JpegImage) (y x : ℕ) :
    (image.pixelBytes y x).length = image.channels := List.length_ofFn

theorem JpegImage.length_scanline (image : JpegImage) (y : ℕ) :
    (image.scanline y).length = image.width * image.channels :=
  Buffer.length_flatMap_range fun x _ => image.length_pixelBytes y x

variable (hlt : image.width * image.height * image.channels < 2 ^ 31)

include hlt

/-- A line is copied to its place. -/
theorem readScanline_eq {row : ℕ} (hrow : row < image.height) (imageData : Bytes) :
    readScanline image (List.replicate (image.width * image.channels) 0) imageData row =
      storeAt imageData ((row * image.width * image.channels : ℕ) : ℤ) (image.scanline row) := by
  have hpos := image.channels_pos
  have hlength := image.length_scanline row
  have hend := samples_row_le hrow image.width image.channels
  have hsize : image.width * image.channels < 2 ^ 31 :=
    rowSize_lt hlt (Nat.lt_of_le_of_lt (Nat.zero_le _) hrow)
  have hproduct : intProduct row image.width image.channels =
      .ok ((row * image.width * image.channels : ℕ) : ℤ) := by
    rw [intProduct_natCast hpos (by omega), Nat.cast_mul, Nat.cast_mul]
  have hfill : storeAt (List.replicate (image.width * image.channels) 0) 0 (image.scanline row) =
      .ok (image.scanline row) := by
    rw [storeAt, if_pos (by rw [List.length_replicate]; omega), Int.toNat_zero,
      Buffer.overwrite_zero]
    rw [List.length_replicate, hlength]
  rw [readScanline, hfill, ok_bind, hproduct, ok_bind, ← Nat.cast_mul, intResult_natCast hsize,
    ok_bind, Int.toNat_natCast, ← hlength, List.take_length]

/-- The image is returned with its first three channels, or its only one as grey. -/
theorem jpegPixels_eq :
    jpegPixels image = .ok ⟨(List.range image.height).flatMap fun y =>
      (List.range image.width).flatMap fun x =>
        [pieceColor image.channels (image.pixelBytes y x)], image.width, image.height⟩ := by
  have hpos := image.channels_pos
  have hpiece : ∀ y < image.height, ∀ x < image.width,
      (image.pixelBytes y x).length = image.channels :=
    fun y _ x _ => image.length_pixelBytes y x
  have hlines := foldlM_storeAt hpiece
    (fun row hrow imageData => readScanline_eq hlt hrow imageData)
    (List.length_replicate (n := image.width * image.height * image.channels) (a := 0))
  rw [jpegPixels, jpegBuffers_eq hlt hpos image.height_pos, ok_bind]
  dsimp only
  rw [hlines, ok_bind, jpegPixelVector_eq hlt hpos, ok_bind,
    readSamples_sampleRows hpiece hpos hlt List.length_replicate, ok_bind]
  rfl

end Reader

/-! ## Sizes -/

/-- The products of `readPNG` are exact. -/
structure PngExact (width height : ℕ) : Prop where
  buffers : ∃ buffers, pngBuffers width height = .ok buffers ∧
    buffers.pixels.length = width * height ∧ buffers.imageData.length = height * width * 3
  positions : SamplesExact width height 3

/-- The products of `readJPEG` are exact. -/
structure JpegExact (width height channels : ℕ) : Prop where
  buffers : ∃ buffers, jpegBuffers width height channels = .ok buffers ∧
    buffers.rowBuffer.length = width * channels ∧
    buffers.imageData.length = width * height * channels
  pixels : ∃ pixels, jpegPixelVector width height = .ok pixels ∧ pixels.length = width * height
  positions : SamplesExact width height channels

theorem pngExact_iff (width height : ℕ) : PngExact width height ↔ width * height * 3 < 2 ^ 31 := by
  constructor
  · intro hexact
    obtain ⟨buffers, hbuffers, -, hsize⟩ := hexact.buffers
    rw [pngBuffers] at hbuffers
    obtain ⟨count, -, hbuffers⟩ := bind_eq_ok_iff.mp hbuffers
    obtain ⟨pixels, -, hbuffers⟩ := bind_eq_ok_iff.mp hbuffers
    obtain ⟨size, hproduct, -⟩ := bind_eq_ok_iff.mp hbuffers
    have hlt : height * width * 3 < 2 ^ 31 :=
      lt_of_intProduct (show intProduct height width ((3 : ℕ) : ℤ) = .ok size from hproduct)
    rw [Nat.mul_comm width]
    exact hlt
  · intro hlt
    refine ⟨⟨_, pngBuffers_eq hlt, List.length_replicate, ?_⟩, samplesExact_of_lt (by decide) hlt⟩
    rw [List.length_replicate, Nat.mul_comm height]

theorem jpegExact_iff {width height channels : ℕ} (hheight : 0 < height) (hpos : 0 < channels) :
    JpegExact width height channels ↔ width * height * channels < 2 ^ 31 := by
  constructor
  · intro hexact
    obtain ⟨buffers, hbuffers, -, -⟩ := hexact.buffers
    rw [jpegBuffers] at hbuffers
    obtain ⟨rowSize, -, hbuffers⟩ := bind_eq_ok_iff.mp hbuffers
    obtain ⟨rowBuffer, -, hbuffers⟩ := bind_eq_ok_iff.mp hbuffers
    obtain ⟨size, hproduct, -⟩ := bind_eq_ok_iff.mp hbuffers
    exact lt_of_intProduct hproduct
  · intro hlt
    exact ⟨⟨_, jpegBuffers_eq hlt hpos hheight, List.length_replicate, List.length_replicate⟩,
      ⟨_, jpegPixelVector_eq hlt hpos, List.length_replicate⟩, samplesExact_of_lt hpos hlt⟩

/-- Both readers compute with the true sizes exactly if the samples can be counted. -/
theorem sizes_exact_iff (width : ℕ) {height channels : ℕ} (hheight : 1 ≤ height)
    (hchannels : 1 ≤ channels) :
    (PngExact width height ↔ 3 * width * height < 2 ^ 31) ∧
      (JpegExact width height channels ↔ width * height * channels < 2 ^ 31) := by
  constructor
  · rw [Nat.mul_assoc, Nat.mul_comm]
    exact pngExact_iff width height
  · exact jpegExact_iff hheight hchannels

/-- Ten pixels in each direction. -/
theorem sizes_exact_ten : PngExact 10 10 ∧ JpegExact 10 10 4 :=
  ⟨(sizes_exact_iff 10 (by decide) (show 1 ≤ 4 by decide)).1.mpr (by decide),
    (sizes_exact_iff 10 (by decide) (by decide)).2.mpr (by decide)⟩

/-- Both libraries admit images for which they do not. -/
theorem not_sizes_exact :
    (¬ ∀ width height : ℕ, 1 ≤ width → width ≤ 1000000 → 1 ≤ height → height ≤ 1000000 →
        PngExact width height) ∧
      ¬ ∀ width height channels : ℕ, 1 ≤ width → width ≤ 65500 → 1 ≤ height → height ≤ 65500 →
        channels ∈ [1, 3, 4] → JpegExact width height channels := by
  constructor
  · intro hall
    have hexact := hall 30000 30000 (by decide) (by decide) (by decide) (by decide)
    rw [pngExact_iff] at hexact
    revert hexact
    decide
  · intro hall
    have hexact := hall 30000 30000 3 (by decide) (by decide) (by decide) (by decide) (by decide)
    rw [jpegExact_iff (by decide) (by decide)] at hexact
    revert hexact
    decide

end Dht
