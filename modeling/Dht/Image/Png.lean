/-
# PNG files

libpng is not part of the repository. What the reader relies on is modelled from its
documented behaviour: a decoded image, the transforms `readPNG` asks for, and rows that
are written without gaps. How a sample is reduced or expanded to a byte stays a parameter.

The transforms are chosen one by one from the header, while the vector, the offsets of the
rows and the loop over the pixels all count three bytes to a pixel.
-/

import Dht.Image.Samples

namespace Dht

/-! ## Images -/

/-- The colour types of the format. -/
inductive PngColorType
  | gray
  | grayAlpha
  | rgb
  | palette
  | rgbAlpha
  deriving DecidableEq

namespace PngColorType

/-- The bit depths each of them allows. -/
def bitDepths : PngColorType → List ℕ
  | .gray => [1, 2, 4, 8, 16]
  | .grayAlpha => [8, 16]
  | .rgb => [8, 16]
  | .palette => [1, 2, 4, 8]
  | .rgbAlpha => [8, 16]

/-- Whether the pixels have an alpha sample. The format has no `tRNS` chunk for these. -/
def hasAlpha : PngColorType → Bool
  | .gray => false
  | .grayAlpha => true
  | .rgb => false
  | .palette => false
  | .rgbAlpha => true

/-- The samples of one pixel. A pixel of a palette image is an entry of the palette. -/
def Samples (bitDepth : ℕ) (palette : List RGB) : PngColorType → Type
  | .gray => Fin (2 ^ bitDepth)
  | .grayAlpha => Fin (2 ^ bitDepth) × Fin (2 ^ bitDepth)
  | .rgb => Fin (2 ^ bitDepth) × Fin (2 ^ bitDepth) × Fin (2 ^ bitDepth)
  | .palette => Fin palette.length
  | .rgbAlpha =>
      Fin (2 ^ bitDepth) × Fin (2 ^ bitDepth) × Fin (2 ^ bitDepth) × Fin (2 ^ bitDepth)

end PngColorType

/-- A well-formed image. -/
structure PngImage where
  width : ℕ
  height : ℕ
  width_pos : 0 < width
  height_pos : 0 < height
  width_lt : width < 2 ^ 31
  height_lt : height < 2 ^ 31
  colorType : PngColorType
  bitDepth : ℕ
  bitDepth_mem : bitDepth ∈ colorType.bitDepths
  palette : List RGB
  /-- The entries of the `tRNS` chunk. -/
  tRNS : Option (List ℕ)
  tRNS_legal : tRNS.isSome → colorType.hasAlpha = false
  samples : ℕ → ℕ → colorType.Samples bitDepth palette

/-- libpng, as far as the reader sees it. -/
structure Libpng where
  /-- An error on the way, reported by `longjmp`, leaves nothing. -/
  decode : Bytes → Option PngImage
  /-- A sample of 16 bits as one of 8. -/
  strip16 : ℕ → UInt8
  /-- A grey sample of fewer than 8 bits as one of 8, by bit depth. -/
  expandGray : ℕ → ℕ → UInt8
  /-- The alpha value a `tRNS` chunk gives to the colour samples of a pixel. -/
  alpha : List ℕ → List ℕ → UInt8

/-! ## Transforms -/

/-- A pixel on its way through the transforms. -/
structure PngPixel where
  bitDepth : ℕ
  colors : List ℕ
  alpha : Option ℕ

/-- A pixel as it stands in the file. -/
def PngColorType.pixel {bitDepth : ℕ} {palette : List RGB} :
    (colorType : PngColorType) → colorType.Samples bitDepth palette → PngPixel
  | .gray, sample => ⟨bitDepth, [sample.val], none⟩
  | .grayAlpha, samples => ⟨bitDepth, [samples.1.val], some samples.2.val⟩
  | .rgb, samples => ⟨bitDepth, [samples.1.val, samples.2.1.val, samples.2.2.val], none⟩
  | .palette, entry => ⟨bitDepth, [entry.val], none⟩
  | .rgbAlpha, samples =>
      ⟨bitDepth, [samples.1.val, samples.2.1.val, samples.2.2.1.val], some samples.2.2.2.val⟩

/-- The transforms of libpng that the reader uses. -/
inductive PngTransform
  | strip16
  | paletteToRgb
  | expandGray124To8
  | tRNSToAlpha
  | stripAlpha
  deriving DecidableEq

/-- The transforms `readPNG` asks for, in the order of its calls. -/
def pngTransforms (colorType : PngColorType) (bitDepth : ℕ) (tRNS : Option (List ℕ)) :
    List PngTransform :=
  (if bitDepth = 16 then [.strip16] else []) ++
    (if colorType = .palette then [.paletteToRgb] else []) ++
    (if colorType = .gray ∧ bitDepth < 8 then [.expandGray124To8] else []) ++
    (if tRNS.isSome then [.tRNSToAlpha] else []) ++
    (if colorType = .rgbAlpha then [.stripAlpha] else [])

section Transforms

variable (lib : Libpng) (palette : List RGB) (tRNS : Option (List ℕ))

/-- The alpha value of a pixel, if the image has transparency. -/
def Libpng.transparency (colors : List ℕ) : Option ℕ :=
  tRNS.map fun entries => (lib.alpha entries colors).toNat

/-- What each transform does to a pixel. -/
def Libpng.transform (pixel : PngPixel) : PngTransform → PngPixel
  | .strip16 =>
      ⟨8, pixel.colors.map fun sample => (lib.strip16 sample).toNat,
        pixel.alpha.map fun sample => (lib.strip16 sample).toNat⟩
  | .paletteToRgb =>
      let color := palette.getD (pixel.colors.headD 0) ⟨0, 0, 0⟩
      ⟨8, [color.r.toNat, color.g.toNat, color.b.toNat], lib.transparency tRNS pixel.colors⟩
  | .expandGray124To8 =>
      ⟨8, pixel.colors.map fun sample => (lib.expandGray pixel.bitDepth sample).toNat, pixel.alpha⟩
  | .tRNSToAlpha => ⟨pixel.bitDepth, pixel.colors, pixel.alpha <|> lib.transparency tRNS pixel.colors⟩
  | .stripAlpha => ⟨pixel.bitDepth, pixel.colors, none⟩

/-- A pixel behind all transforms. -/
def Libpng.transformed {bitDepth : ℕ} {palette : List RGB} (colorType : PngColorType)
    (samples : colorType.Samples bitDepth palette) : PngPixel :=
  (pngTransforms colorType bitDepth tRNS).foldl (lib.transform palette tRNS)
    (colorType.pixel samples)

/-- The bytes of a pixel, colours before alpha. -/
def PngPixel.bytes (pixel : PngPixel) : Bytes :=
  (pixel.colors ++ pixel.alpha.toList).map UInt8.ofNat

end Transforms

namespace PngImage

variable (lib : Libpng) (image : PngImage)

/-- The bytes in row `y` and column `x`. -/
def pixelBytes (y x : ℕ) : Bytes :=
  (lib.transformed image.tRNS image.colorType (image.samples y x)).bytes

/-- A row as `png_read_image` writes it. -/
def row (y : ℕ) : Bytes := sampleRow image.width (image.pixelBytes lib) y

end PngImage

/-! ## Reader -/

/-- The vectors of the reader. -/
structure PngBuffers where
  pixels : List RGB
  imageData : Bytes

/-- Their allocation. -/
def pngBuffers (width height : ℤ) : Outcome PngBuffers := do
  let count ← intResult (width * height)
  let pixels ← newVector count ⟨0, 0, 0⟩
  let size ← intProduct height width 3
  let imageData ← newVector size 0
  pure ⟨pixels, imageData⟩

/-- `png_read_image`. -/
def pngReadImage (lib : Libpng) (image : PngImage) (rowPointers : List ℤ) (imageData : Bytes) :
    Outcome Bytes :=
  (List.range image.height).foldlM
    (fun imageData (y : ℕ) => do
      let start ← vectorAt rowPointers y
      storeAt imageData start (image.row lib y))
    imageData

/-- `readPNG` behind `png_read_info`. -/
def pngPixels (lib : Libpng) (image : PngImage) : Outcome Decoded := do
  let buffers ← pngBuffers image.width image.height
  let rowPointers ← (List.range image.height).mapM fun (y : ℕ) => intProduct y image.width 3
  let imageData ← pngReadImage lib image rowPointers buffers.imageData
  let pixels ← readSamples imageData image.width image.height 3 buffers.pixels
  pure ⟨pixels, image.width, image.height⟩

/-- `readPNG` on the contents of a file. -/
def readPNG (lib : Libpng) (contents : Bytes) : Outcome Decoded := do
  let image ← orThrow (.dhtError (ascii "PNG read error")) (lib.decode contents)
  pngPixels lib image

/-! ## The colours of an image -/

/-- A sample as a byte. -/
def Libpng.eightBit (lib : Libpng) (bitDepth sample : ℕ) : UInt8 :=
  if bitDepth = 16 then lib.strip16 sample
  else if bitDepth < 8 then lib.expandGray bitDepth sample
  else UInt8.ofNat sample

/-- The colour of a pixel, whatever a reader makes of it. -/
def PngColorType.color (lib : Libpng) {bitDepth : ℕ} {palette : List RGB} :
    (colorType : PngColorType) → colorType.Samples bitDepth palette → RGB
  | .gray, sample =>
      let value := lib.eightBit bitDepth sample.val
      ⟨value, value, value⟩
  | .grayAlpha, samples =>
      let value := lib.eightBit bitDepth samples.1.val
      ⟨value, value, value⟩
  | .rgb, samples =>
      ⟨lib.eightBit bitDepth samples.1.val, lib.eightBit bitDepth samples.2.1.val,
        lib.eightBit bitDepth samples.2.2.val⟩
  | .palette, entry => palette.get entry
  | .rgbAlpha, samples =>
      ⟨lib.eightBit bitDepth samples.1.val, lib.eightBit bitDepth samples.2.1.val,
        lib.eightBit bitDepth samples.2.2.1.val⟩

namespace PngImage

variable (lib : Libpng) (image : PngImage)

/-- The colour in row `y` and column `x`. -/
def color (y x : ℕ) : RGB := image.colorType.color lib (image.samples y x)

/-- All colours, row by row. -/
def colors : List RGB :=
  (List.range image.height).flatMap fun y => (List.range image.width).flatMap fun x =>
    [image.color lib y x]

end PngImage

/-- The channels behind the transforms. -/
def PngColorType.channels : PngColorType → ℕ
  | .gray => 1
  | .grayAlpha => 2
  | .rgb => 3
  | .palette => 3
  | .rgbAlpha => 3

/-- Whether the transforms leave red, green and blue alone. -/
def PngImage.ThreeChannels (image : PngImage) : Prop :=
  image.colorType = .rgbAlpha ∨
    (image.colorType = .rgb ∨ image.colorType = .palette) ∧ image.tRNS = none

section Channels

variable (lib : Libpng) {bitDepth : ℕ} {palette : List RGB} {tRNS : Option (List ℕ)}

/-- Every layout leaves the transforms with 8 bits to a sample, its channels and one more
for transparency. -/
theorem transformed_shape (colorType : PngColorType) (hdepth : bitDepth ∈ colorType.bitDepths)
    (htRNS : tRNS.isSome → colorType.hasAlpha = false)
    (samples : colorType.Samples bitDepth palette) :
    (lib.transformed tRNS colorType samples).bitDepth = 8 ∧
      (lib.transformed tRNS colorType samples).bytes.length =
        colorType.channels + tRNS.toList.length := by
  cases colorType with
  | gray =>
      simp only [PngColorType.bitDepths, List.mem_cons, List.not_mem_nil, or_false] at hdepth
      rcases hdepth with rfl | rfl | rfl | rfl | rfl <;> cases tRNS <;> exact ⟨rfl, rfl⟩
  | grayAlpha =>
      simp only [PngColorType.bitDepths, List.mem_cons, List.not_mem_nil, or_false] at hdepth
      cases tRNS with
      | none => rcases hdepth with rfl | rfl <;> exact ⟨rfl, rfl⟩
      | some entries => cases htRNS rfl
  | rgb =>
      simp only [PngColorType.bitDepths, List.mem_cons, List.not_mem_nil, or_false] at hdepth
      rcases hdepth with rfl | rfl <;> cases tRNS <;> exact ⟨rfl, rfl⟩
  | palette =>
      simp only [PngColorType.bitDepths, List.mem_cons, List.not_mem_nil, or_false] at hdepth
      rcases hdepth with rfl | rfl | rfl | rfl <;> cases tRNS <;> exact ⟨rfl, rfl⟩
  | rgbAlpha =>
      simp only [PngColorType.bitDepths, List.mem_cons, List.not_mem_nil, or_false] at hdepth
      cases tRNS with
      | none => rcases hdepth with rfl | rfl <;> exact ⟨rfl, rfl⟩
      | some entries => cases htRNS rfl

theorem ofNat_toNat_bytes (color : RGB) :
    [color.r.toNat, color.g.toNat, color.b.toNat].map UInt8.ofNat = [color.r, color.g, color.b] := by
  simp

/-- Where only three channels are left, they are the colour. -/
theorem transformed_bytes (colorType : PngColorType) (hdepth : bitDepth ∈ colorType.bitDepths)
    (htRNS : tRNS = none) (hthree : colorType.channels = 3)
    (samples : colorType.Samples bitDepth palette) :
    (lib.transformed tRNS colorType samples).bytes =
      [(colorType.color lib samples).r, (colorType.color lib samples).g,
        (colorType.color lib samples).b] := by
  subst htRNS
  cases colorType with
  | gray => cases hthree
  | grayAlpha => cases hthree
  | rgb =>
      simp only [PngColorType.bitDepths, List.mem_cons, List.not_mem_nil, or_false] at hdepth
      rcases hdepth with rfl | rfl
      · rfl
      · exact ofNat_toNat_bytes (PngColorType.rgb.color lib samples)
  | palette =>
      have hentry : palette.getD samples.val ⟨0, 0, 0⟩ = palette.get samples := by
        rw [List.getD_eq_getElem?_getD, List.getElem?_eq_getElem samples.isLt]
        rfl
      simp only [PngColorType.bitDepths, List.mem_cons, List.not_mem_nil, or_false] at hdepth
      have hbytes := ofNat_toNat_bytes (palette.getD samples.val ⟨0, 0, 0⟩)
      change _ = [(palette.get samples).r, (palette.get samples).g, (palette.get samples).b]
      rw [← hentry]
      rcases hdepth with rfl | rfl | rfl | rfl <;> exact hbytes
  | rgbAlpha =>
      simp only [PngColorType.bitDepths, List.mem_cons, List.not_mem_nil, or_false] at hdepth
      rcases hdepth with rfl | rfl
      · rfl
      · exact ofNat_toNat_bytes (PngColorType.rgbAlpha.color lib samples)

end Channels

namespace PngImage

variable (lib : Libpng) (image : PngImage)

/-- The number of bytes to a pixel in the rows libpng writes. -/
def channels : ℕ := image.colorType.channels + image.tRNS.toList.length

theorem length_pixelBytes (y x : ℕ) : (image.pixelBytes lib y x).length = image.channels :=
  (transformed_shape lib image.colorType image.bitDepth_mem image.tRNS_legal _).2

theorem length_row (y : ℕ) : (image.row lib y).length = image.width * image.channels :=
  Buffer.length_flatMap_range fun x _ => image.length_pixelBytes lib y x

/-- Three bytes to a pixel: colours without anything else. -/
theorem channels_eq_three_iff : image.channels = 3 ↔ image.ThreeChannels := by
  have hlegal := image.tRNS_legal
  revert hlegal
  rw [channels, ThreeChannels]
  cases image.colorType <;> cases image.tRNS <;>
    simp [PngColorType.channels, PngColorType.hasAlpha]

theorem pixelBytes_of_threeChannels (hthree : image.ThreeChannels) (y x : ℕ) :
    image.pixelBytes lib y x =
      [(image.color lib y x).r, (image.color lib y x).g, (image.color lib y x).b] := by
  have hlegal := image.tRNS_legal
  apply transformed_bytes lib image.colorType image.bitDepth_mem
  · rcases hthree with halpha | ⟨-, hnone⟩
    · cases htRNS : image.tRNS with
      | none => rfl
      | some entries =>
          rw [htRNS, halpha] at hlegal
          cases hlegal rfl
    · exact hnone
  · rcases hthree with halpha | ⟨hrgb | hpalette, -⟩
    · rw [halpha]
      rfl
    · rw [hrgb]
      rfl
    · rw [hpalette]
      rfl

/-- Every row takes three bytes to a pixel exactly if there are three channels. -/
theorem row_exact_iff :
    (∀ y < image.height, (image.row lib y).length = 3 * image.width) ↔ image.ThreeChannels := by
  rw [← channels_eq_three_iff]
  simp only [length_row]
  constructor
  · intro hrows
    have hfirst := hrows 0 image.height_pos
    rw [Nat.mul_comm 3] at hfirst
    exact Nat.eq_of_mul_eq_mul_left image.width_pos hfirst
  · intro hthree y _
    rw [hthree, Nat.mul_comm]

end PngImage

/-! ## What the reader returns -/

section Reader

variable (lib : Libpng) {image : PngImage}

/-- The products with three channels. -/
theorem intProduct_three {first second : ℕ} (hlt : first * second * 3 < 2 ^ 31) :
    intProduct first second 3 = .ok ((first * second * 3 : ℕ) : ℤ) := by
  have hproduct : intProduct first second ((3 : ℕ) : ℤ) = .ok (first * second * (3 : ℕ)) :=
    intProduct_natCast (by decide) hlt
  rw [Nat.cast_mul, Nat.cast_mul]
  exact hproduct

theorem pngBuffers_eq {width height : ℕ} (hsize : width * height * 3 < 2 ^ 31) :
    pngBuffers width height =
      .ok ⟨List.replicate (width * height) ⟨0, 0, 0⟩, List.replicate (width * height * 3) 0⟩ := by
  have harea : width * height < 2 ^ 31 := by omega
  have hproduct : intProduct height width 3 = .ok ((width * height * 3 : ℕ) : ℤ) := by
    rw [intProduct_three (by rw [Nat.mul_comm height]; exact hsize), Nat.mul_comm height]
  rw [pngBuffers, ← Nat.cast_mul, intResult_natCast harea, ok_bind, newVector_natCast, ok_bind,
    hproduct, ok_bind, newVector_natCast, ok_bind]
  rfl

/-- The offsets of the rows. -/
theorem mapM_rowPointers (hsize : image.width * image.height * 3 < 2 ^ 31) :
    ((List.range image.height).mapM fun (y : ℕ) => intProduct y image.width 3) =
      .ok ((List.range image.height).map fun y => ((y * image.width * 3 : ℕ) : ℤ)) := by
  apply mapM_eq_ok
  intro y hy
  rw [List.mem_range] at hy
  have hend := samples_row_le hy image.width 3
  exact intProduct_three (by omega)

/-- One turn of `png_read_image`. -/
theorem vectorAt_rowPointers {y : ℕ} (hy : y < image.height) :
    vectorAt ((List.range image.height).map fun y => ((y * image.width * 3 : ℕ) : ℤ)) y =
      .ok ((y * image.width * 3 : ℕ) : ℤ) := by
  apply vectorAt_of_getElem?
  rw [List.getElem?_map, List.getElem?_range hy]
  rfl

/-- Three channels are read as they are. -/
theorem pngPixels_eq (hsize : image.width * image.height * 3 < 2 ^ 31)
    (hthree : image.ThreeChannels) :
    pngPixels lib image = .ok ⟨image.colors lib, image.width, image.height⟩ := by
  have hpiece : ∀ y < image.height, ∀ x < image.width,
      (image.pixelBytes lib y x).length = 3 := by
    intro y _ x _
    rw [image.length_pixelBytes, image.channels_eq_three_iff.mpr hthree]
  have hrows : pngReadImage lib image
      ((List.range image.height).map fun y => ((y * image.width * 3 : ℕ) : ℤ))
      (List.replicate (image.width * image.height * 3) 0) =
      .ok (sampleRows image.width image.height (image.pixelBytes lib)) := by
    apply foldlM_storeAt hpiece _ List.length_replicate
    intro y hy imageData
    rw [vectorAt_rowPointers hy, ok_bind]
    rfl
  have hread := readSamples_sampleRows hpiece (by decide) hsize
    (List.length_replicate (n := image.width * image.height) (a := (⟨0, 0, 0⟩ : RGB)))
  rw [pngPixels, pngBuffers_eq hsize, ok_bind, mapM_rowPointers hsize, ok_bind]
  dsimp only
  rw [hrows, ok_bind]
  change (readSamples _ _ _ ((3 : ℕ) : ℤ) _ >>= _) = _
  rw [hread, ok_bind]
  simp only [image.pixelBytes_of_threeChannels lib hthree]
  rfl

/-- Four channels run over the end of the vector in the last row. -/
theorem pngPixels_of_overrun (hsize : image.width * image.height * 3 < 2 ^ 31)
    (hmore : 3 < image.channels) : pngPixels lib image = undefined := by
  have hturns (y : ℕ) (hy : y ∈ List.range image.height) (imageData : Bytes)
      (hdata : imageData.length = image.width * image.height * 3) :
      Guarded (y * image.width * 3 + image.width * image.channels ≤
          image.width * image.height * 3)
        (fun imageData => imageData.length = image.width * image.height * 3)
        (do
          let start ← vectorAt
            ((List.range image.height).map fun y => ((y * image.width * 3 : ℕ) : ℤ)) (y : ℤ)
          storeAt imageData start (image.row lib y)) := by
    rw [List.mem_range] at hy
    have hrow := image.length_row lib y
    have hstore := guarded_storeAt imageData ((y * image.width * 3 : ℕ) : ℤ) (image.row lib y)
    rw [vectorAt_rowPointers hy, ok_bind]
    rw [hdata] at hstore
    apply hstore.congr
    omega
  have hlast : ¬ ∀ y ∈ List.range image.height, y * image.width * 3 +
      image.width * image.channels ≤ image.width * image.height * 3 := by
    intro hall
    have hpos := image.height_pos
    have hwidth := image.width_pos
    have hend := hall (image.height - 1) (List.mem_range.mpr (by omega))
    have hrow : image.width * 3 < image.width * image.channels :=
      Nat.mul_lt_mul_of_pos_left hmore hwidth
    have hheight : (image.height - 1) * image.width + image.width = image.height * image.width :=
      Buffer.last_row_end hpos
    rw [Nat.mul_comm image.width image.height, ← hheight, Nat.add_mul] at hend
    omega
  have hrows : pngReadImage lib image
      ((List.range image.height).map fun y => ((y * image.width * 3 : ℕ) : ℤ))
      (List.replicate (image.width * image.height * 3) 0) = undefined :=
    (Guarded.foldlM hturns List.length_replicate).eq_undefined hlast
  rw [pngPixels, pngBuffers_eq hsize, ok_bind, mapM_rowPointers hsize, ok_bind]
  dsimp only
  rw [hrows, undefined_bind]

end Reader

/-- An image is read exactly, every row in its place and every colour as it is, exactly if
the transforms leave three channels. -/
theorem readPNG_exact_iff (lib : Libpng) {contents : Bytes} {image : PngImage}
    (hdecode : lib.decode contents = some image)
    (hsize : 3 * image.width * image.height < 2 ^ 31) :
    ((∀ y < image.height, (image.row lib y).length = 3 * image.width) ∧
        readPNG lib contents = .ok ⟨image.colors lib, image.width, image.height⟩) ↔
      image.ThreeChannels := by
  rw [image.row_exact_iff lib]
  constructor
  · intro hexact
    exact hexact.1
  · intro hthree
    rw [Nat.mul_assoc, Nat.mul_comm] at hsize
    rw [readPNG, hdecode, orThrow_some, ok_bind, pngPixels_eq lib hsize hthree]
    exact ⟨hthree, rfl⟩

/-- One grey pixel. -/
def greyPixel : PngImage where
  width := 1
  height := 1
  width_pos := by decide
  height_pos := by decide
  width_lt := by decide
  height_lt := by decide
  colorType := .gray
  bitDepth := 8
  bitDepth_mem := by decide
  palette := []
  tRNS := none
  tRNS_legal := by decide
  samples := fun _ _ => (7 : Fin (2 ^ 8))

/-- A library that knows one image. -/
def Libpng.only (image : PngImage) : Libpng where
  decode _ := some image
  strip16 sample := UInt8.ofNat (sample / 256)
  expandGray bitDepth sample := UInt8.ofNat (sample * 255 / (2 ^ bitDepth - 1))
  alpha _ _ := 255

/-- Its row takes one byte, and the colour that is returned has no green and no blue. -/
theorem not_readPNG_exact_grey :
    ¬ ∀ (lib : Libpng) (contents : Bytes) (image : PngImage), lib.decode contents = some image →
      3 * image.width * image.height < 2 ^ 31 →
      (∀ y < image.height, (image.row lib y).length = 3 * image.width) ∧
        readPNG lib contents = .ok ⟨image.colors lib, image.width, image.height⟩ := by
  intro hall
  have hrow := (hall (Libpng.only greyPixel) [] greyPixel rfl (by decide)).1 0 (by decide)
  revert hrow
  decide

/-- One red pixel. -/
def redPixel : PngImage where
  width := 1
  height := 1
  width_pos := by decide
  height_pos := by decide
  width_lt := by decide
  height_lt := by decide
  colorType := .rgb
  bitDepth := 8
  bitDepth_mem := by decide
  palette := []
  tRNS := none
  tRNS_legal := by decide
  samples := fun _ _ => ((255 : Fin (2 ^ 8)), (0 : Fin (2 ^ 8)), (0 : Fin (2 ^ 8)))

theorem readPNG_exact_red : readPNG (Libpng.only redPixel) [] = .ok ⟨[⟨255, 0, 0⟩], 1, 1⟩ :=
  ((@readPNG_exact_iff (Libpng.only redPixel) [] redPixel rfl (by decide)).mpr
    (.inr ⟨.inl rfl, rfl⟩)).2

end Dht
