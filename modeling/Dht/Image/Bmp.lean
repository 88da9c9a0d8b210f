/-
# BMP files

`writeBMP` and `readBMP` lay out the same file by hand: a header of 54 bytes whose
fields are `int`s of a little-endian host, then the rows from the bottom up, each padded
to a multiple of four bytes, each pixel as blue, green, red. The writer walks the image
backwards; the reader walks the file backwards and flips the row index instead. Both
walks meet, so a written image is read back as it was.

The arithmetic of the reader is modulo `2 ^ 32`, because its operands come from the file.
-/

import Dht.Image.Samples
import Dht.Lib.Positional

namespace Dht

/-! ## Header fields -/

/-- The lowest `width` bytes of an integer, least significant first. -/
def littleEndian (width : ℕ) (value : ℤ) : Bytes :=
  (Positional.field 256 width (value % 256 ^ width).toNat).map UInt8.ofNat

/-- `*(int*)&header[offset] = value`, and the same for a `short`. -/
def setField (width : ℕ) (header : Bytes) (offset : ℕ) (value : ℤ) : Bytes :=
  Buffer.overwrite header offset (littleEndian width value)

/-- The bytes at an offset as a number. -/
def fieldAt (width : ℕ) (header : Bytes) (offset : ℕ) : ℕ :=
  Nat.ofDigits 256 ((Buffer.slice header offset width).map UInt8.toNat)

/-- `*(int*)&header[offset]`. -/
def intAt (header : Bytes) (offset : ℕ) : ℤ := toInt32 (fieldAt 4 header offset)

/-- Conversion of an integer to `short`. -/
def toInt16 (value : ℤ) : ℤ :=
  if value % 2 ^ 16 < 2 ^ 15 then value % 2 ^ 16 else value % 2 ^ 16 - 2 ^ 16

/-- `*(short*)&header[offset]`. -/
def shortAt (header : Bytes) (offset : ℕ) : ℤ := toInt16 (fieldAt 2 header offset)

/-! ## Writer -/

/-- `rowSize` of the writer. -/
def bmpRowSize (width : ℤ) : Outcome ℤ := do
  let bits ← intResult (24 * width)
  let bits ← intResult (bits + 31)
  intResult (bits.tdiv 32 * 4)

/-- `header`. -/
def bmpHeader (width height imageSize fileSize : ℤ) : Bytes :=
  let header := List.replicate 54 0
  let header := Buffer.overwrite header 0 (ascii "BM")
  let header := setField 4 header 2 fileSize
  let header := setField 4 header 10 54
  let header := setField 4 header 14 40
  let header := setField 4 header 18 width
  let header := setField 4 header 22 height
  let header := setField 2 header 26 1
  let header := setField 2 header 28 24
  setField 4 header 34 imageSize

/-- One turn of the inner loop. -/
def writeBmpPixel (pixels : List RGB) (width y : ℤ) (rowData : Bytes) (x : ℕ) : Outcome Bytes := do
  let color ← pixelAt pixels width y x
  let start ← intResult ((x : ℤ) * 3)
  let rowData ← vectorSet rowData start color.b
  let rowData ← vectorSet rowData (start + 1) color.g
  vectorSet rowData (start + 2) color.r

/-- The inner loop. -/
def writeBmpRow (pixels : List RGB) (width y : ℤ) (rowData : Bytes) : Outcome Bytes :=
  (List.range width.toNat).foldlM (writeBmpPixel pixels width y) rowData

/-- What `writeBMP` has written and its row buffer. The buffer is not cleared between
rows. -/
structure BmpFile where
  written : Bytes
  rowData : Bytes

/-- One turn of the outer loop. -/
def writeBmpRows (pixels : List RGB) (width : ℤ) (file : BmpFile) (y : ℕ) : Outcome BmpFile := do
  let rowData ← writeBmpRow pixels width y file.rowData
  pure ⟨file.written ++ rowData, rowData⟩

/-- `writeBMP` behind the opening of the file: everything it writes. -/
def bmpFile (pixels : List RGB) (width height : ℤ) : Outcome Bytes := do
  let rowSize ← bmpRowSize width
  let imageSize ← intResult (rowSize * height)
  let fileSize ← intResult (54 + imageSize)
  let rowData ← newVector rowSize 0
  let file ← (List.range height.toNat).reverse.foldlM (writeBmpRows pixels width)
    ⟨bmpHeader width height imageSize fileSize, rowData⟩
  pure file.written

/-! ## Reader -/

/-- `rowSize` of the reader. -/
def readRowSize (bitsPerPixel width : ℤ) : ℤ :=
  toInt32 ((toInt32 (toInt32 (bitsPerPixel * width) + 31)).tdiv 32 * 4)

/-- The pixel at `idx`. An `int` index below zero becomes a huge `size_t`. -/
def bmpPixel (imageData : Bytes) (bitsPerPixel idx : ℤ) : Outcome RGB :=
  if 24 ≤ bitsPerPixel then do
    let r ← vectorAt imageData (idx + 2)
    let g ← vectorAt imageData (idx + 1)
    let b ← vectorAt imageData idx
    pure ⟨r, g, b⟩
  else do
    let grey ← vectorAt imageData idx
    pure ⟨grey, grey, grey⟩

/-- What the reader takes from the header. -/
structure BmpInfo where
  width : ℤ
  height : ℤ
  bitsPerPixel : ℤ
  rowSize : ℤ
  dataOffset : ℤ

/-- The header fields. -/
def bmpInfo (header : Bytes) : BmpInfo where
  width := intAt header 18
  height := intAt header 22
  bitsPerPixel := shortAt header 28
  rowSize := readRowSize (shortAt header 28) (intAt header 18)
  dataOffset := intAt header 10

/-- `image_data`. `fseek` does not move to a negative offset, and what lies behind the end
of the file is not read. -/
def bmpImageData (info : BmpInfo) (contents : Bytes) : Outcome Bytes := do
  let imageData ← newVector (toInt32 (info.height * info.rowSize)) 0
  let position := if info.dataOffset < 0 then 54 else info.dataOffset.toNat
  pure (Buffer.overwrite imageData 0 (Buffer.slice contents position imageData.length))

/-- The index into the file's data. -/
def BmpInfo.source (info : BmpInfo) (y x : ℤ) : ℤ :=
  toInt32 (toInt32 (y * info.rowSize) + toInt32 (x * info.bitsPerPixel.tdiv 8))

/-- The index into the pixels. -/
def BmpInfo.target (info : BmpInfo) (y x : ℤ) : ℤ :=
  toInt32 (toInt32 (toInt32 (toInt32 (info.height - 1) - y) * info.width) + x)

/-- One turn of the inner loop. -/
def readBmpPixel (info : BmpInfo) (imageData : Bytes) (y : ℕ) (pixels : List RGB) (x : ℕ) :
    Outcome (List RGB) := do
  let color ← bmpPixel imageData info.bitsPerPixel (info.source y x)
  vectorSet pixels (info.target y x) color

/-- The inner loop. -/
def readBmpRow (info : BmpInfo) (imageData : Bytes) (pixels : List RGB) (y : ℕ) :
    Outcome (List RGB) :=
  (List.range info.width.toNat).foldlM (readBmpPixel info imageData y) pixels

/-- `pixels` and the outer loop. -/
def readBmpRows (info : BmpInfo) (imageData : Bytes) : Outcome (List RGB) := do
  let pixels ← newVector (toInt32 (info.width * info.height)) ⟨0, 0, 0⟩
  (List.range (toInt32 (info.height - 1) + 1).toNat).reverse.foldlM
    (readBmpRow info imageData) pixels

/-- `readBMP` on the contents of a file. A file without a whole header leaves `header`
uninitialised. -/
def readBMP (contents : Bytes) : Outcome Decoded :=
  if contents.length < 54 then undefined
  else do
    let info := bmpInfo contents
    let imageData ← bmpImageData info contents
    let pixels ← readBmpRows info imageData
    pure ⟨pixels, info.width, info.height⟩

/-! ## Fields are read as they were set -/

section Fields

variable {width : ℕ}

@[simp]
theorem length_littleEndian (width : ℕ) (value : ℤ) : (littleEndian width value).length = width := by
  rw [littleEndian, List.length_map, Positional.length_field]

theorem ofDigits_littleEndian (width : ℕ) (value : ℤ) :
    Nat.ofDigits 256 ((littleEndian width value).map UInt8.toNat) =
      (value % 256 ^ width).toNat := by
  have hdigits : (littleEndian width value).map UInt8.toNat =
      Positional.field 256 width (value % 256 ^ width).toNat := by
    rw [littleEndian, List.map_map]
    conv_rhs => rw [← List.map_id (Positional.field 256 width _)]
    apply List.map_congr_left
    intro digit hdigit
    have hlt := Positional.lt_of_mem_field (by decide) hdigit
    rw [Function.comp_apply, UInt8.toNat_ofNat']
    exact Nat.mod_eq_of_lt hlt
  have hpos : (0 : ℤ) < 256 ^ width := by positivity
  have hbound := Int.emod_lt_of_pos value hpos
  have hcast : ((256 ^ width : ℕ) : ℤ) = 256 ^ width := by norm_cast
  rw [hdigits, Positional.ofDigits_field]
  apply Nat.mod_eq_of_lt
  omega

/-- Setting a field of the header: it is read as it was set, and fields that do not
overlap it are read as before. -/
theorem setField_spec {header : Bytes} (hheader : header.length = 54) {offset : ℕ}
    (hfit : offset + width ≤ 54) (value : ℤ) :
    (setField width header offset value).length = 54 ∧
      fieldAt width (setField width header offset value) offset = (value % 256 ^ width).toNat ∧
      ∀ otherWidth other, other + otherWidth ≤ offset ∨ offset + width ≤ other →
        fieldAt otherWidth (setField width header offset value) other =
          fieldAt otherWidth header other := by
  have hlength := length_littleEndian width value
  have hroom : offset + (littleEndian width value).length ≤ header.length := by omega
  refine ⟨?_, ?_, ?_⟩
  · rw [setField, Buffer.length_overwrite hroom, hheader]
  · have hslice : Buffer.slice (Buffer.overwrite header offset (littleEndian width value)) offset
        (littleEndian width value).length = littleEndian width value :=
      Buffer.slice_overwrite (by omega)
    rw [hlength] at hslice
    rw [fieldAt, setField, hslice, ofDigits_littleEndian]
  · intro otherWidth other hdisjoint
    rw [fieldAt, setField, Buffer.slice_overwrite_of_disjoint hroom (by omega), fieldAt]

end Fields

/-- The fields the reader looks at. -/
theorem bmpHeader_spec (width height imageSize fileSize : ℤ) :
    (bmpHeader width height imageSize fileSize).length = 54 ∧
      fieldAt 4 (bmpHeader width height imageSize fileSize) 10 = 54 ∧
      fieldAt 4 (bmpHeader width height imageSize fileSize) 18 = (width % 256 ^ 4).toNat ∧
      fieldAt 4 (bmpHeader width height imageSize fileSize) 22 = (height % 256 ^ 4).toNat ∧
      fieldAt 2 (bmpHeader width height imageSize fileSize) 28 = 24 := by
  have hmagic : (Buffer.overwrite (List.replicate 54 0) 0 (ascii "BM")).length = 54 := by decide
  obtain ⟨hfile, -, -⟩ := setField_spec hmagic (show 2 + 4 ≤ 54 by decide) fileSize
  obtain ⟨hoffset, hoffsetAt, -⟩ :=
    setField_spec hfile (show 10 + 4 ≤ 54 by decide) 54
  obtain ⟨hinfo, -, hkeepInfo⟩ :=
    setField_spec hoffset (show 14 + 4 ≤ 54 by decide) 40
  obtain ⟨hwidth, hwidthAt, hkeepWidth⟩ :=
    setField_spec hinfo (show 18 + 4 ≤ 54 by decide) width
  obtain ⟨hheight, hheightAt, hkeepHeight⟩ :=
    setField_spec hwidth (show 22 + 4 ≤ 54 by decide) height
  obtain ⟨hplanes, -, hkeepPlanes⟩ :=
    setField_spec hheight (show 26 + 2 ≤ 54 by decide) 1
  obtain ⟨hbits, hbitsAt, hkeepBits⟩ :=
    setField_spec hplanes (show 28 + 2 ≤ 54 by decide) 24
  obtain ⟨himage, -, hkeepImage⟩ :=
    setField_spec hbits (show 34 + 4 ≤ 54 by decide) imageSize
  refine ⟨himage, ?_, ?_, ?_, ?_⟩
  · rw [bmpHeader, hkeepImage 4 10 (by decide), hkeepBits 4 10 (by decide),
      hkeepPlanes 4 10 (by decide), hkeepHeight 4 10 (by decide), hkeepWidth 4 10 (by decide),
      hkeepInfo 4 10 (by decide), hoffsetAt]
    decide
  · rw [bmpHeader, hkeepImage 4 18 (by decide), hkeepBits 4 18 (by decide),
      hkeepPlanes 4 18 (by decide), hkeepHeight 4 18 (by decide), hwidthAt]
  · rw [bmpHeader, hkeepImage 4 22 (by decide), hkeepBits 4 22 (by decide),
      hkeepPlanes 4 22 (by decide), hheightAt]
  · rw [bmpHeader, hkeepImage 2 28 (by decide), hbitsAt]
    decide

/-! ## What the writer writes -/

/-- A size for which all numbers of the writer are `int`s. -/
structure BmpSize where
  width : ℕ
  height : ℕ
  width_pos : 0 < width
  height_pos : 0 < height
  bits_lt : 24 * width + 31 < 2 ^ 31
  file_lt : 54 + (24 * width + 31) / 32 * 4 * height < 2 ^ 31

namespace BmpSize

variable (size : BmpSize)

/-- The bytes of a row with its padding. -/
def rowSize : ℕ := (24 * size.width + 31) / 32 * 4

/-- A row has room for its pixels. -/
theorem row_le : size.width * 3 ≤ size.rowSize := by
  rw [rowSize]
  omega

theorem file_lt' : 54 + size.rowSize * size.height < 2 ^ 31 := size.file_lt

theorem area_lt : size.width * size.height < 2 ^ 31 := by
  have hrow : size.width * size.height ≤ size.rowSize * size.height :=
    Nat.mul_le_mul_right _ (le_trans (Nat.le_mul_of_pos_right _ (by decide)) size.row_le)
  have hfile := size.file_lt'
  omega

/-- The size as one whose pixels can be indexed. -/
def dimensions : Dimensions :=
  Dimensions.ofArea size.width size.height size.width_pos size.height_pos size.area_lt

theorem rowSize_lt : size.rowSize < 2 ^ 31 := by
  have hbits := size.bits_lt
  rw [rowSize]
  omega

/-- The three steps of `rowSize`, for the writer and for the reader. -/
theorem rowSize_steps :
    (24 : ℤ) * size.width = ((24 * size.width : ℕ) : ℤ) ∧
      ((24 * size.width : ℕ) : ℤ) + 31 = ((24 * size.width + 31 : ℕ) : ℤ) ∧
      ((24 * size.width + 31 : ℕ) : ℤ).tdiv 32 * 4 = (size.rowSize : ℤ) := by
  refine ⟨(Nat.cast_mul 24 size.width).symm, (Nat.cast_add _ 31).symm, ?_⟩
  rw [rowSize, Nat.cast_mul, Int.ofNat_tdiv]
  rfl

theorem bmpRowSize_eq : bmpRowSize size.width = .ok (size.rowSize : ℤ) := by
  have hbits := size.bits_lt
  obtain ⟨hproduct, hsum, hquotient⟩ := size.rowSize_steps
  rw [bmpRowSize, hproduct, intResult_natCast (by omega), ok_bind, hsum,
    intResult_natCast hbits, ok_bind, hquotient, intResult_natCast size.rowSize_lt]

theorem readRowSize_eq : readRowSize 24 size.width = (size.rowSize : ℤ) := by
  have hbits := size.bits_lt
  obtain ⟨hproduct, hsum, hquotient⟩ := size.rowSize_steps
  rw [readRowSize, hproduct, toInt32_of_lt (by omega), hsum, toInt32_of_lt hbits, hquotient,
    toInt32_of_lt size.rowSize_lt]

end BmpSize

/-- A pixel in the order of the file. -/
def RGB.bgr (color : RGB) : Bytes := [color.b, color.g, color.r]

theorem length_bgr (color : RGB) : color.bgr.length = 3 := rfl

section Writer

variable (size : BmpSize) (pixels : size.dimensions.Raster)

/-- The pixel in row `y` and column `x`. -/
def rasterPixel (y x : ℕ) : RGB := pixels.toList.getD (y * size.width + x) ⟨0, 0, 0⟩

/-- The bytes of a row, without padding. -/
def rowBytes (y : ℕ) : Bytes :=
  (List.range size.width).flatMap fun x => (rasterPixel size pixels y x).bgr

theorem length_rowBytes (y : ℕ) : (rowBytes size pixels y).length = size.width * 3 :=
  Buffer.length_flatMap_range fun x _ => length_bgr (rasterPixel size pixels y x)

/-- The bytes of a row. -/
def paddedRow (y : ℕ) : Bytes :=
  rowBytes size pixels y ++ List.replicate (size.rowSize - size.width * 3) 0

theorem length_paddedRow (y : ℕ) : (paddedRow size pixels y).length = size.rowSize := by
  have hroom := size.row_le
  rw [paddedRow, List.length_append, length_rowBytes, List.length_replicate]
  omega

variable {y x : ℕ} {rowData : Bytes}

theorem pixelAt_raster (hy : y < size.height) (hx : x < size.width) :
    pixelAt pixels.toList size.width y x = .ok (rasterPixel size pixels y x) := by
  have hbound : y * size.width + x < size.width * size.height := size.dimensions.index_lt hx hy
  have harea := size.area_lt
  apply pixelAt_of_lt
  · rw [pixels.toList_length]
    exact hbound
  · omega

/-- Three bytes of the row buffer are set. -/
theorem writeBmpPixel_eq (hy : y < size.height) (hx : x < size.width)
    (hrow : rowData.length = size.rowSize) :
    writeBmpPixel pixels.toList size.width y rowData x =
      .ok (Buffer.overwrite rowData (x * 3) (rasterPixel size pixels y x).bgr) := by
  have hroom := size.row_le
  have hbits := size.bits_lt
  have hthree : (x : ℤ) * 3 = ((x * 3 : ℕ) : ℤ) := by simp
  rw [writeBmpPixel, pixelAt_raster size pixels hy hx, ok_bind, hthree,
    intResult_natCast (by omega), ok_bind]
  exact vectorSet_three (by omega) _ _ _

/-- The inner loop leaves the pixels of a row in front of what was behind them. -/
theorem writeBmpRow_eq (hy : y < size.height) (hrow : rowData.length = size.rowSize) :
    writeBmpRow pixels.toList size.width y rowData =
      .ok (Buffer.overwrite rowData 0 (rowBytes size pixels y)) := by
  have hroom : 0 + size.width * 3 ≤ size.rowSize := (Nat.zero_add _).trans_le size.row_le
  rw [writeBmpRow, Int.toNat_natCast]
  refine foldlM_overwrite (fun x _ => length_bgr (rasterPixel size pixels y x)) hroom ?_ hrow
  intro x hx rowData hrow
  rw [Nat.zero_add, writeBmpPixel_eq size pixels hy hx hrow]

/-- The state of the writer between rows: the padding of its buffer is still zero. -/
def PaddingClear (rowData : Bytes) : Prop :=
  rowData.length = size.rowSize ∧
    rowData.drop (size.width * 3) = List.replicate (size.rowSize - size.width * 3) 0

theorem paddingClear_replicate : PaddingClear size (List.replicate size.rowSize 0) := by
  refine ⟨List.length_replicate, ?_⟩
  rw [List.drop_replicate]

theorem paddingClear_paddedRow (y : ℕ) : PaddingClear size (paddedRow size pixels y) := by
  refine ⟨length_paddedRow size pixels y, ?_⟩
  rw [paddedRow, ← length_rowBytes size pixels y, List.drop_left]

theorem writeBmpRow_paddedRow (hy : y < size.height) (hclear : PaddingClear size rowData) :
    writeBmpRow pixels.toList size.width y rowData = .ok (paddedRow size pixels y) := by
  rw [writeBmpRow_eq size pixels hy hclear.1, Buffer.overwrite, List.take_zero, List.nil_append,
    Nat.zero_add, length_rowBytes, hclear.2, paddedRow]

/-- One row is written. -/
def BmpFile.append (file : BmpFile) (row : Bytes) : BmpFile := ⟨file.written ++ row, row⟩

theorem written_foldl_append (rows : List Bytes) (file : BmpFile) :
    (rows.foldl BmpFile.append file).written = file.written ++ rows.flatten := by
  induction rows generalizing file with
  | nil => simp
  | cons row rows ih =>
      rw [List.foldl_cons, ih, List.flatten_cons, BmpFile.append, List.append_assoc]

/-- The rows of the file, from the bottom of the image up. -/
def fileRows : Bytes :=
  (List.range size.height).flatMap fun j => paddedRow size pixels (size.height - 1 - j)

theorem reverse_range (count : ℕ) :
    (List.range count).reverse = (List.range count).map (count - 1 - ·) := by
  rw [List.range_eq_range', List.reverse_range', ← List.range_eq_range', Nat.zero_add]

/-- The whole file. -/
theorem bmpFile_eq :
    bmpFile pixels.toList size.width size.height =
      .ok (bmpHeader size.width size.height (size.rowSize * size.height : ℕ)
        (54 + size.rowSize * size.height : ℕ) ++ fileRows size pixels) := by
  have hfile := size.file_lt'
  have himage : (size.rowSize : ℤ) * size.height = ((size.rowSize * size.height : ℕ) : ℤ) := by
    rw [Nat.cast_mul]
  have hsize : (54 : ℤ) + ((size.rowSize * size.height : ℕ) : ℤ) =
      ((54 + size.rowSize * size.height : ℕ) : ℤ) := by
    rw [Nat.cast_add]
    rfl
  have hturn (y : ℕ) (hy : y ∈ (List.range size.height).reverse) (file : BmpFile)
      (hclear : PaddingClear size file.rowData) :
      writeBmpRows pixels.toList size.width file y =
          .ok (file.append (paddedRow size pixels y)) ∧
        PaddingClear size (file.append (paddedRow size pixels y)).rowData := by
    rw [List.mem_reverse, List.mem_range] at hy
    refine ⟨?_, paddingClear_paddedRow size pixels y⟩
    rw [writeBmpRows, writeBmpRow_paddedRow size pixels hy hclear, ok_bind]
    rfl
  have hstart : PaddingClear size (BmpFile.rowData
      ⟨bmpHeader size.width size.height (size.rowSize * size.height : ℕ)
        (54 + size.rowSize * size.height : ℕ), List.replicate size.rowSize 0⟩) :=
    paddingClear_replicate size
  rw [bmpFile, size.bmpRowSize_eq, ok_bind, himage, intResult_natCast (by omega), ok_bind, hsize,
    intResult_natCast hfile, ok_bind, newVector_natCast, ok_bind, Int.toNat_natCast,
    foldlM_eq_ok_of_invariant (fun file => PaddingClear size file.rowData) hturn hstart, ok_bind,
    ← List.foldl_map, written_foldl_append, reverse_range, List.map_map, fileRows,
    List.flatMap_def]
  rfl

end Writer

/-! ## Reading it back -/

/-- The header fields of a written file. -/
def BmpSize.info (size : BmpSize) : BmpInfo where
  width := size.width
  height := size.height
  bitsPerPixel := 24
  rowSize := size.rowSize
  dataOffset := 54

section Reader

variable (size : BmpSize) (pixels : size.dimensions.Raster)

theorem length_fileRows : (fileRows size pixels).length = size.height * size.rowSize :=
  Buffer.length_flatMap_range fun j _ => length_paddedRow size pixels (size.height - 1 - j)

variable {y x : ℕ}

/-- The index into the file's data does not overflow. -/
theorem source_eq (hy : y < size.height) (hx : x < size.width) :
    size.info.source y x = ((y * size.rowSize + x * 3 : ℕ) : ℤ) := by
  have hroom := size.row_le
  have hfile := size.file_lt'
  have hrow : y * size.rowSize + size.rowSize ≤ size.rowSize * size.height := by
    rw [← Nat.succ_mul, Nat.mul_comm size.rowSize]
    exact Nat.mul_le_mul_right _ hy
  have hthree : (x : ℤ) * (24 : ℤ).tdiv 8 = ((x * 3 : ℕ) : ℤ) := by
    rw [Nat.cast_mul]
    rfl
  change toInt32 (toInt32 ((y : ℤ) * (size.rowSize : ℤ)) + toInt32 ((x : ℤ) * (24 : ℤ).tdiv 8)) = _
  rw [← Nat.cast_mul, toInt32_of_lt (by omega), hthree, toInt32_of_lt (by omega), ← Nat.cast_add,
    toInt32_of_lt (by omega)]

/-- Neither does the one into the pixels, and it counts the rows from the other end. -/
theorem target_eq (hy : y < size.height) (hx : x < size.width) :
    size.info.target y x = (((size.height - 1 - y) * size.width + x : ℕ) : ℤ) := by
  have harea := size.area_lt
  have hheight := size.dimensions.height_lt
  have hbound : (size.height - 1 - y) * size.width + x < size.width * size.height :=
    size.dimensions.index_lt hx (show size.height - 1 - y < size.height by omega)
  have hlast : (size.height : ℤ) - 1 = ((size.height - 1 : ℕ) : ℤ) := by omega
  have hflip : ((size.height - 1 : ℕ) : ℤ) - y = ((size.height - 1 - y : ℕ) : ℤ) := by omega
  have hsmall : size.height < 2 ^ 31 := hheight
  change toInt32 (toInt32 (toInt32 (toInt32 ((size.height : ℤ) - 1) - y) * (size.width : ℤ)) + x) = _
  rw [hlast, toInt32_of_lt (by omega), hflip, toInt32_of_lt (by omega), ← Nat.cast_mul,
    toInt32_of_lt (by omega), ← Nat.cast_add, toInt32_of_lt (by omega)]

/-- The bytes of a pixel, where the reader looks for them. -/
theorem getElem?_fileRows (hy : y < size.height) (hx : x < size.width) {c : ℕ} (hc : c < 3) :
    (fileRows size pixels)[y * size.rowSize + x * 3 + c]? =
      (rasterPixel size pixels (size.height - 1 - y) x).bgr[c]? := by
  have hroom := size.row_le
  have hcolumn : x * 3 + c < (rowBytes size pixels (size.height - 1 - y)).length := by
    rw [length_rowBytes]
    omega
  rw [fileRows, Nat.add_assoc, Buffer.getElem?_flatMap_range
    (fun j _ => length_paddedRow size pixels (size.height - 1 - j)) hy (by omega), paddedRow,
    List.getElem?_append_left hcolumn, rowBytes, Buffer.getElem?_flatMap_range
    (fun x _ => length_bgr (rasterPixel size pixels (size.height - 1 - y) x)) hx hc]

theorem bmpPixel_eq (hy : y < size.height) (hx : x < size.width) :
    bmpPixel (fileRows size pixels) 24 (size.info.source y x) =
      .ok (rasterPixel size pixels (size.height - 1 - y) x) := by
  have hone : ((y * size.rowSize + x * 3 : ℕ) : ℤ) + 1 =
      ((y * size.rowSize + x * 3 + 1 : ℕ) : ℤ) := by rw [Nat.cast_succ]
  have htwo : ((y * size.rowSize + x * 3 : ℕ) : ℤ) + 2 =
      ((y * size.rowSize + x * 3 + 2 : ℕ) : ℤ) := by
    rw [Nat.cast_add _ 2]
    rfl
  have hblue := vectorAt_of_getElem? (getElem?_fileRows size pixels hy hx (show 0 < 3 by decide))
  rw [Nat.add_zero] at hblue
  rw [source_eq size hy hx, bmpPixel, if_pos (by decide), hone, htwo,
    vectorAt_of_getElem? (getElem?_fileRows size pixels hy hx (show 2 < 3 by decide)), ok_bind,
    vectorAt_of_getElem? (getElem?_fileRows size pixels hy hx (show 1 < 3 by decide)), ok_bind,
    hblue, ok_bind]
  rfl

variable {read : List RGB}

/-- One turn of the reader puts a pixel where it was. -/
theorem readBmpPixel_eq (hy : y < size.height) (hx : x < size.width)
    (hread : read.length = size.width * size.height) :
    readBmpPixel size.info (fileRows size pixels) y read x =
      .ok (Buffer.overwrite read ((size.height - 1 - y) * size.width + x)
        [rasterPixel size pixels (size.height - 1 - y) x]) := by
  have hbound : (size.height - 1 - y) * size.width + x < size.width * size.height :=
    size.dimensions.index_lt hx (show size.height - 1 - y < size.height by omega)
  rw [readBmpPixel]
  change (do
    let color ← bmpPixel (fileRows size pixels) 24 (size.info.source y x)
    vectorSet read (size.info.target y x) color) = _
  rw [bmpPixel_eq size pixels hy hx, ok_bind, target_eq size hy hx, vectorSet_overwrite]
  rw [hread]
  exact hbound

/-- The row `j` of the image. -/
def rasterRow (j : ℕ) : List RGB := (List.range size.width).flatMap fun x =>
  [rasterPixel size pixels j x]

/-- All rows together are the image. -/
theorem flatMap_rasterRow :
    (List.range size.height).flatMap (rasterRow size pixels) = pixels.toList := by
  have hrow (j : ℕ) (hj : j ∈ List.range size.height) :
      rasterRow size pixels j = (pixels.toList.drop (j * size.width)).take size.width := by
    rw [List.mem_range] at hj
    have hend : j * size.width + size.width ≤ pixels.toList.length := by
      rw [pixels.toList_length, ← Nat.succ_mul]
      change _ ≤ size.width * size.height
      rw [Nat.mul_comm size.width]
      exact Nat.mul_le_mul_right _ hj
    rw [← map_getD_range _ _ _ ⟨0, 0, 0⟩ hend, rasterRow, ← List.map_eq_flatMap]
    rfl
  rw [List.flatMap_congr hrow, List.flatMap_def]
  exact flatten_rows_raster pixels

/-- The reader's loops rebuild the image. -/
theorem foldlM_readBmpRow :
    (List.range size.height).reverse.foldlM (readBmpRow size.info (fileRows size pixels))
        (List.replicate (size.width * size.height) ⟨0, 0, 0⟩) =
      .ok pixels.toList := by
  have hturn : ∀ j < size.height, ∀ x < size.width, ∀ read : List RGB,
      read.length = size.width * size.height * 1 →
      readBmpPixel size.info (fileRows size pixels) (size.height - 1 - j) read x =
        .ok (Buffer.overwrite read ((j * size.width + x) * 1) [rasterPixel size pixels j x]) := by
    intro j hj x hx read hread
    have hflip : size.height - 1 - (size.height - 1 - j) = j := by omega
    rw [Nat.mul_one] at hread
    rw [readBmpPixel_eq size pixels (by omega) hx hread, hflip, Nat.mul_one]
  rw [reverse_range, List.foldlM_map]
  -- Turned around, the outer loop fills the rows from the top.
  refine (foldlM_raster (fun _ _ _ _ => List.length_singleton) (fun _ _ _ => rfl) hturn
    (List.length_replicate.trans (Nat.mul_one _).symm)).trans ?_
  exact congrArg Except.ok (flatMap_rasterRow size pixels)

/-- A field of the header is read from the file. -/
theorem fieldAt_append {width offset : ℕ} {header : Bytes} (hfit : offset + width ≤ header.length)
    (rest : Bytes) : fieldAt width (header ++ rest) offset = fieldAt width header offset := by
  rw [fieldAt, Buffer.slice_append hfit, fieldAt]

/-- A number that is an `int` survives four bytes. -/
theorem toInt32_field {value : ℕ} (hlt : value < 2 ^ 31) :
    toInt32 (((value : ℤ) % 256 ^ 4).toNat : ℕ) = value := by
  have hmod : ((value : ℤ) % 256 ^ 4).toNat = value := by omega
  rw [hmod, toInt32_of_lt hlt]

section Header

variable {header : Bytes} (hheader : header.length = 54)

include hheader

/-- The header is read back. -/
theorem bmpInfo_eq (hoffset : fieldAt 4 header 10 = 54)
    (hwidth : fieldAt 4 header 18 = ((size.width : ℤ) % 256 ^ 4).toNat)
    (hheight : fieldAt 4 header 22 = ((size.height : ℤ) % 256 ^ 4).toNat)
    (hbits : fieldAt 2 header 28 = 24) (rest : Bytes) :
    bmpInfo (header ++ rest) = size.info := by
  have hreadOffset : intAt (header ++ rest) 10 = 54 := by
    rw [intAt, fieldAt_append (by omega), hoffset]
    decide
  have hwidthLt : size.width < 2 ^ 31 := size.dimensions.width_lt
  have hheightLt : size.height < 2 ^ 31 := size.dimensions.height_lt
  have hreadWidth : intAt (header ++ rest) 18 = size.width := by
    rw [intAt, fieldAt_append (by omega), hwidth, toInt32_field hwidthLt]
  have hreadHeight : intAt (header ++ rest) 22 = size.height := by
    rw [intAt, fieldAt_append (by omega), hheight, toInt32_field hheightLt]
  have hreadBits : shortAt (header ++ rest) 28 = 24 := by
    rw [shortAt, fieldAt_append (by omega), hbits]
    decide
  rw [bmpInfo, hreadOffset, hreadWidth, hreadHeight, hreadBits, size.readRowSize_eq, BmpSize.info]

/-- The data behind it are the rows. -/
theorem bmpImageData_eq :
    bmpImageData size.info (header ++ fileRows size pixels) = .ok (fileRows size pixels) := by
  have hfile := size.file_lt'
  have hrows := length_fileRows size pixels
  have hproduct : size.info.height * size.info.rowSize =
      ((size.height * size.rowSize : ℕ) : ℤ) := by
    rw [Nat.cast_mul]
    rfl
  have hlt : size.height * size.rowSize < 2 ^ 31 := by
    rw [Nat.mul_comm]
    omega
  have hposition : ¬ size.info.dataOffset < 0 := by
    show ¬ (54 : ℤ) < 0
    decide
  have hslice : Buffer.slice (header ++ fileRows size pixels) 54 (size.height * size.rowSize) =
      fileRows size pixels := by
    rw [Buffer.slice, List.drop_left' hheader, ← hrows, List.take_length]
  rw [bmpImageData, hproduct, toInt32_of_lt hlt, newVector_natCast, ok_bind, if_neg hposition,
    List.length_replicate]
  change Except.ok (Buffer.overwrite _ 0 (Buffer.slice (header ++ fileRows size pixels) 54 _)) = _
  rw [hslice, Buffer.overwrite_zero]
  rw [List.length_replicate, hrows]

end Header

/-- The loops over the data rebuild the image. -/
theorem readBmpRows_eq : readBmpRows size.info (fileRows size pixels) = .ok pixels.toList := by
  have harea := size.area_lt
  have hpos := size.height_pos
  have hheight : size.height < 2 ^ 31 := size.dimensions.height_lt
  have hproduct : size.info.width * size.info.height = ((size.width * size.height : ℕ) : ℤ) := by
    rw [Nat.cast_mul]
    rfl
  have hlast : size.info.height - 1 = ((size.height - 1 : ℕ) : ℤ) := by
    rw [Nat.cast_sub hpos]
    rfl
  have hcount : (((size.height - 1 : ℕ) : ℤ) + 1).toNat = size.height := by omega
  rw [readBmpRows, hproduct, toInt32_of_lt harea, newVector_natCast, ok_bind, hlast,
    toInt32_of_lt (by omega), hcount, foldlM_readBmpRow]

/-- The reader on a header of the size and the rows of the image. -/
theorem readBMP_fileRows (imageSize fileSize : ℤ) :
    readBMP (bmpHeader size.width size.height imageSize fileSize ++ fileRows size pixels) =
      .ok ⟨pixels.toList, size.width, size.height⟩ := by
  obtain ⟨hlength, hoffsetAt, hwidthAt, hheightAt, hbitsAt⟩ :=
    bmpHeader_spec size.width size.height imageSize fileSize
  have hwhole : ¬ (bmpHeader size.width size.height imageSize fileSize ++
      fileRows size pixels).length < 54 := by
    rw [List.length_append, hlength]
    omega
  rw [readBMP, if_neg hwhole]
  dsimp only
  rw [bmpInfo_eq size hlength hoffsetAt hwidthAt hheightAt hbitsAt,
    bmpImageData_eq size pixels hlength, ok_bind, readBmpRows_eq size pixels, ok_bind]
  rfl

end Reader

/-- A written image is read back, every pixel in its place. -/
theorem readBMP_writeBMP {width height : ℕ} (hwidth : 1 ≤ width) (hheight : 1 ≤ height)
    (hbits : 24 * width + 31 < 2 ^ 31)
    (hfile : 54 + (24 * width + 31) / 32 * 4 * height < 2 ^ 31) {pixels : List RGB}
    (hpixels : pixels.length = width * height) :
    ∃ file, bmpFile pixels width height = .ok file ∧
      readBMP file = .ok ⟨pixels, width, height⟩ := by
  let size : BmpSize := ⟨width, height, hwidth, hheight, hbits, hfile⟩
  let raster : size.dimensions.Raster := ⟨pixels, hpixels⟩
  exact ⟨_, bmpFile_eq size raster, readBMP_fileRows size raster _ _⟩

/-- Two rows of three pixels, each padded by three bytes. -/
theorem readBMP_writeBMP_rows :
    ∃ file, bmpFile [red, green, blue, blue, red, red] (3 : ℕ) (2 : ℕ) = .ok file ∧
      readBMP file = .ok ⟨[red, green, blue, blue, red, red], (3 : ℕ), (2 : ℕ)⟩ :=
  readBMP_writeBMP (by decide) (by decide) (by decide) (by decide) rfl

end Dht
