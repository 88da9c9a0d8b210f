/-
# What the image writers read

`writePNG` copies the pixels into one vector for libpng, `writeJPEG` into one row after the
other for libjpeg. Both index `pixels[y * width + x]` in loops over width and height, and
nothing compares these with the number of pixels. `scan` is the sequence of these reads.

It succeeds exactly if there are enough pixels and their number is an `int`; what it reads
is then what both writers hand over.
-/

import Dht.Image.Samples

namespace Dht

/-! ## Writers -/

/-- `vector[start]` and the two elements behind it. -/
def storeColor (vector : Bytes) (start : ℤ) (color : RGB) : Outcome Bytes := do
  let vector ← vectorSet vector start color.r
  let vector ← vectorSet vector (start + 1) color.g
  vectorSet vector (start + 2) color.b

/-- One turn of the inner loop of `writePNG`. -/
def writePngPixel (pixels : List RGB) (width : ℤ) (y : ℕ) (imageData : Bytes) (x : ℕ) :
    Outcome Bytes := do
  let idx ← sampleIndex width 3 y x
  let color ← pixelAt pixels width y x
  storeColor imageData idx color

/-- One turn of the outer loop, which also computes the address of the row. -/
def writePngRow (pixels : List RGB) (width : ℤ) (imageData : Bytes) (y : ℕ) : Outcome Bytes := do
  let _ ← intProduct y width 3
  (List.range width.toNat).foldlM (writePngPixel pixels width y) imageData

/-- The image data `writePNG` hands to libpng. -/
def pngImageData (pixels : List RGB) (width height : ℤ) : Outcome Bytes := do
  let _ ← newVector height (0 : ℤ)
  let size ← intProduct height width 3
  let imageData ← newVector size 0
  (List.range height.toNat).foldlM (writePngRow pixels width) imageData

/-- The lines `writeJPEG` has handed to libjpeg, and its row buffer. -/
structure JpegLines where
  lines : List Bytes
  rowBuffer : Bytes

/-- One turn of the inner loop of `writeJPEG`. -/
def writeJpegPixel (pixels : List RGB) (width : ℤ) (y : ℕ) (rowBuffer : Bytes) (x : ℕ) :
    Outcome Bytes := do
  let color ← pixelAt pixels width y x
  let start ← intResult ((x : ℤ) * 3)
  storeColor rowBuffer start color

/-- One turn of the outer loop. -/
def writeJpegRow (pixels : List RGB) (width : ℤ) (state : JpegLines) (y : ℕ) :
    Outcome JpegLines := do
  let rowBuffer ← (List.range width.toNat).foldlM (writeJpegPixel pixels width y) state.rowBuffer
  pure ⟨state.lines ++ [rowBuffer], rowBuffer⟩

/-- The lines of an image. -/
def jpegLines (pixels : List RGB) (width height : ℤ) : Outcome (List Bytes) := do
  let size ← intResult (width * 3)
  let rowBuffer ← newVector size 0
  let state ← (List.range height.toNat).foldlM (writeJpegRow pixels width) ⟨[], rowBuffer⟩
  pure state.lines

/-! ## Their reads -/

/-- The pixels that the loops of `writePNG` and `writeJPEG` read, in their order. -/
def scan (image : Decoded) : Outcome (List RGB) := do
  let rows ← (List.range image.height.toNat).mapM fun (y : ℕ) =>
    (List.range image.width.toNat).mapM fun (x : ℕ) => pixelAt image.pixels image.width y x
  pure rows.flatten

section Scan

variable {pixels : List RGB} {width height : ℕ}

/-- A read is fine if its index is inside the vector and an `int`. -/
theorem pixelAt_eq_ok_iff {y x : ℕ} :
    (∃ color, pixelAt pixels width y x = .ok color) ↔
      y * width + x < pixels.length ∧ y * width + x < 2 ^ 31 := by
  constructor
  · rintro ⟨color, hcolor⟩
    rw [pixelAt, ← Nat.cast_mul] at hcolor
    obtain ⟨start, hstart, hrest⟩ := bind_eq_ok_iff.mp hcolor
    rw [intResult_natCast (by exact_mod_cast lt_of_intResult hstart)] at hstart
    obtain rfl := Except.ok.inj hstart
    obtain ⟨index, hindex, hread⟩ := bind_eq_ok_iff.mp hrest
    rw [← Nat.cast_add] at hindex
    have hsmall : y * width + x < 2 ^ 31 := by exact_mod_cast lt_of_intResult hindex
    rw [intResult_natCast hsmall] at hindex
    obtain rfl := Except.ok.inj hindex
    have hinside : InRange pixels.length ((y * width + x : ℕ) : ℤ) := by
      rw [← (guarded_vectorAt pixels _).ne_undefined_iff, hread]
      intro hundefined
      cases hundefined
    exact ⟨Int.ofNat_lt.mp hinside.2, hsmall⟩
  · rintro ⟨hinside, hsmall⟩
    exact ⟨_, pixelAt_of_lt hinside hsmall⟩

/-- Enough pixels for the dimensions, and no more than an `int` counts: then exactly those
that fill the dimensions are read. -/
theorem scan_eq (hpixels : width * height ≤ pixels.length) (hsmall : width * height ≤ 2 ^ 31) :
    scan ⟨pixels, width, height⟩ = .ok (pixels.take (width * height)) := by
  have hrow (y : ℕ) (hy : y ∈ List.range height) :
      ((List.range width).mapM fun (x : ℕ) => pixelAt pixels width y x) =
        .ok ((pixels.drop (y * width)).take width) := by
    rw [List.mem_range] at hy
    rw [← map_getD_range _ _ _ ⟨0, 0, 0⟩ (row_end_le hpixels hy)]
    apply mapM_eq_ok
    intro x hx
    have hindex := index_lt_area hy (List.mem_range.mp hx)
    exact pixelAt_of_lt (hindex.trans_le hpixels) (hindex.trans_le hsmall)
  simp only [scan, Int.toNat_natCast]
  rw [mapM_eq_ok hrow, ok_bind]
  change Except.ok (rows width height pixels).flatten = _
  rw [flatten_rows, Nat.mul_comm]

/-- If the loops come to their end, every pixel of the dimensions was read on the way. -/
theorem exists_pixelAt_of_scan {image : Decoded} {colors : List RGB}
    (hscan : scan image = .ok colors) {y x : ℕ} (hy : (y : ℤ) < image.height)
    (hx : (x : ℤ) < image.width) :
    ∃ color, pixelAt image.pixels image.width y x = .ok color := by
  obtain ⟨rows, hrows, -⟩ := bind_eq_ok_iff.mp hscan
  obtain ⟨row, hrow⟩ := (exists_mapM_iff _).mp ⟨rows, hrows⟩ y (List.mem_range.mpr (by omega))
  exact (exists_mapM_iff _).mp ⟨row, hrow⟩ x (List.mem_range.mpr (by omega))

/-- The loops come to their end exactly if there are enough pixels, not too many to count. -/
theorem scan_eq_ok_iff {colors : List RGB} :
    scan ⟨pixels, width, height⟩ = .ok colors ↔
      (width * height ≤ pixels.length ∧ width * height ≤ 2 ^ 31) ∧
        colors = pixels.take (width * height) := by
  constructor
  · intro hscan
    have hreads {y : ℕ} (hy : y < height) {x : ℕ} (hx : x < width) :=
      pixelAt_eq_ok_iff.mp
        (exists_pixelAt_of_scan hscan (Int.ofNat_lt.mpr hy) (Int.ofNat_lt.mpr hx))
    have hbounds : width * height ≤ pixels.length ∧ width * height ≤ 2 ^ 31 := by
      rw [Nat.mul_comm, Buffer.area_le_iff, Buffer.area_le_iff]
      exact ⟨fun y hy x hx => (hreads hy hx).1, fun y hy x hx => (hreads hy hx).2⟩
    exact ⟨hbounds, Except.ok.inj (hscan.symm.trans (scan_eq hbounds.1 hbounds.2))⟩
  · rintro ⟨⟨hpixels, hsmall⟩, rfl⟩
    exact scan_eq hpixels hsmall

end Scan

/-! ## What they hand over -/

/-- The bytes of a colour in the order of the libraries. -/
def RGB.bytes (color : RGB) : Bytes := [color.r, color.g, color.b]

theorem length_bytes (color : RGB) : color.bytes.length = 3 := rfl

theorem length_flatMap_bytes (colors : List RGB) :
    (colors.flatMap RGB.bytes).length = colors.length * 3 := by
  induction colors with
  | nil => rfl
  | cons color colors ih =>
      rw [List.flatMap_cons, List.length_append, ih, length_bytes, List.length_cons]
      omega

theorem storeColor_eq {vector : Bytes} {start : ℕ} (hfit : start + 3 ≤ vector.length)
    (color : RGB) :
    storeColor vector start color = .ok (Buffer.overwrite vector start color.bytes) :=
  vectorSet_three hfit _ _ _

/-- One line is handed over. -/
def JpegLines.append (state : JpegLines) (line : Bytes) : JpegLines := ⟨state.lines ++ [line], line⟩

theorem lines_foldl_append (lines : List Bytes) (state : JpegLines) :
    (lines.foldl JpegLines.append state).lines = state.lines ++ lines := by
  induction lines generalizing state with
  | nil => exact (List.append_nil _).symm
  | cons line lines ih =>
      rw [List.foldl_cons, ih, JpegLines.append, List.append_assoc, List.singleton_append]

section HandedOver

variable {pixels : List RGB} {width height : ℕ} (hpixels : width * height ≤ pixels.length)
  (hlt : width * height * 3 < 2 ^ 31)

/-- The colours of a row, read by index. -/
theorem flatMap_getD_range {y : ℕ} (hend : y * width + width ≤ pixels.length) :
    ((List.range width).flatMap fun x => (pixels.getD (y * width + x) ⟨0, 0, 0⟩).bytes) =
      ((pixels.drop (y * width)).take width).flatMap RGB.bytes := by
  rw [← map_getD_range _ _ _ ⟨0, 0, 0⟩ hend, List.flatMap_map]

theorem flatMap_rows (piece : RGB → Bytes) :
    (rows width height pixels).flatMap (·.flatMap piece) =
      (pixels.take (width * height)).flatMap piece := by
  rw [Nat.mul_comm, ← flatten_rows, List.flatten_eq_flatMap, List.flatMap_assoc]
  rfl

include hpixels hlt

/-- One turn of the inner loop of `writePNG`. -/
theorem writePngPixel_eq {y x : ℕ} (hy : y < height) (hx : x < width) {imageData : Bytes}
    (hdata : imageData.length = width * height * 3) :
    writePngPixel pixels width y imageData x =
      .ok (Buffer.overwrite imageData ((y * width + x) * 3)
        (pixels.getD (y * width + x) ⟨0, 0, 0⟩).bytes) := by
  have hindex := index_lt_area hy hx
  have hend := position_end_le hy hx 3
  have hposition : sampleIndex width 3 y x = .ok (((y * width + x) * 3 : ℕ) : ℤ) := by
    exact_mod_cast sampleIndex_natCast hy hx (by decide : 0 < 3) hlt
  rw [writePngPixel, hposition, ok_bind, pixelAt_of_lt (hindex.trans_le hpixels) (by omega),
    ok_bind, storeColor_eq (by omega)]

/-- libpng is handed the pixels of the dimensions, in their order. -/
theorem pngImageData_eq :
    pngImageData pixels width height =
      .ok ((pixels.take (width * height)).flatMap RGB.bytes) := by
  have hlt' : height * width * 3 < 2 ^ 31 := Nat.mul_comm width height ▸ hlt
  have hsize : intProduct height width 3 = .ok ((height * width * 3 : ℕ) : ℤ) := by
    exact_mod_cast intProduct_natCast (by decide : 0 < 3) hlt'
  have hrow (y : ℕ) (hy : y < height) (imageData : Bytes) :
      writePngRow pixels width imageData y =
        (List.range width).foldlM (writePngPixel pixels width y) imageData := by
    have hend := samples_row_le hy width 3
    have hstart : intProduct y width 3 = .ok ((y * width * 3 : ℕ) : ℤ) := by
      exact_mod_cast intProduct_natCast (by decide : 0 < 3) (by omega)
    rw [writePngRow, hstart, ok_bind, Int.toNat_natCast]
  have hlength : (List.replicate (height * width * 3) (0 : UInt8)).length =
      width * height * 3 := by
    rw [List.length_replicate, Nat.mul_comm height]
  rw [pngImageData, newVector_natCast, ok_bind, hsize, ok_bind, newVector_natCast, ok_bind,
    Int.toNat_natCast, foldlM_raster (fun _ _ _ _ => length_bytes _) hrow
      (fun y hy x hx _ hdata => writePngPixel_eq hpixels hlt hy hx hdata) hlength,
    ← flatMap_rows, rows, List.flatMap_map]
  refine congrArg Except.ok (List.flatMap_congr fun y hy => ?_)
  exact flatMap_getD_range (row_end_le hpixels (List.mem_range.mp hy))

/-- One turn of the inner loop of `writeJPEG`. -/
theorem writeJpegPixel_eq {y x : ℕ} (hy : y < height) (hx : x < width) {rowBuffer : Bytes}
    (hbuffer : rowBuffer.length = width * 3) :
    writeJpegPixel pixels width y rowBuffer x =
      .ok (Buffer.overwrite rowBuffer (0 + x * 3)
        (pixels.getD (y * width + x) ⟨0, 0, 0⟩).bytes) := by
  have hindex := index_lt_area hy hx
  have hend := position_end_le hy hx 3
  have hthree : (x : ℤ) * 3 = ((x * 3 : ℕ) : ℤ) := by simp
  rw [writeJpegPixel, pixelAt_of_lt (hindex.trans_le hpixels) (by omega), ok_bind, hthree,
    intResult_natCast (by omega), ok_bind, storeColor_eq (by omega), Nat.zero_add]

/-- One line. -/
theorem writeJpegRow_eq {y : ℕ} (hy : y < height) {state : JpegLines}
    (hbuffer : state.rowBuffer.length = width * 3) :
    writeJpegRow pixels width state y =
      .ok (state.append (((pixels.drop (y * width)).take width).flatMap RGB.bytes)) := by
  have hcolor (x : ℕ) (_ : x < width) := length_bytes (pixels.getD (y * width + x) ⟨0, 0, 0⟩)
  have hlength := Buffer.length_flatMap_range hcolor
  have hrow := foldlM_overwrite hcolor (Nat.zero_add _).le
    (fun x hx _ hbuffer => writeJpegPixel_eq hpixels hlt hy hx hbuffer) hbuffer
  rw [Buffer.overwrite_zero (hbuffer.trans hlength.symm).le,
    flatMap_getD_range (row_end_le hpixels hy)] at hrow
  rw [writeJpegRow, Int.toNat_natCast, hrow, ok_bind]
  rfl

/-- libjpeg is handed the same, row by row. -/
theorem jpegLines_eq (hheight : 0 < height) :
    jpegLines pixels width height =
      .ok ((rows width height pixels).map (·.flatMap RGB.bytes)) := by
  have hwidth : width * 3 ≤ width * height * 3 :=
    Nat.mul_le_mul_right 3 (Nat.le_mul_of_pos_right width hheight)
  have hthree : (width : ℤ) * 3 = ((width * 3 : ℕ) : ℤ) := by simp
  have hturn (y : ℕ) (hy : y ∈ List.range height) (state : JpegLines)
      (hbuffer : state.rowBuffer.length = width * 3) :
      writeJpegRow pixels width state y =
          .ok (state.append (((pixels.drop (y * width)).take width).flatMap RGB.bytes)) ∧
        (state.append (((pixels.drop (y * width)).take width).flatMap
          RGB.bytes)).rowBuffer.length = width * 3 := by
    rw [List.mem_range] at hy
    have hend := row_end_le hpixels hy
    refine ⟨writeJpegRow_eq hpixels hlt hy hbuffer, ?_⟩
    have hline : ((pixels.drop (y * width)).take width).length = width := by
      rw [List.length_take, List.length_drop]
      omega
    rw [JpegLines.append, length_flatMap_bytes, hline]
  rw [jpegLines, hthree, intResult_natCast (by omega), ok_bind, newVector_natCast, ok_bind,
    Int.toNat_natCast, foldlM_eq_ok_of_invariant
      (fun state => state.rowBuffer.length = width * 3) hturn List.length_replicate, ok_bind]
  refine congrArg Except.ok ?_
  rw [rows, List.map_map, ← List.foldl_map (g := JpegLines.append), lines_foldl_append]
  rfl

end HandedOver

end Dht
