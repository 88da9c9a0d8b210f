/-
# Images as text

`pixelToText` writes a row of colour codes per line; `textToPixel` reads codes line
by line and recovers the dimensions from the separators alone, the height as the
number of non-empty lines and the width by a division at the first line that gives a
non-zero one.

Pixel indices are products of `int`s. `Dimensions` are those for which they do not
overflow, and on these a text is read back with every pixel in its place and in the
colour of its shade.
-/

import Dht.Color.Codec
import Dht.Lib.Buffer
import Dht.Lib.Text
import Mathlib.Data.List.Induction
import Mathlib.Data.Vector.Basic

namespace Dht

def newline : UInt8 := '\n'.toUInt8
def blank : UInt8 := ' '.toUInt8

/-- What formatted extraction skips: the blank and the controls from `\t` to `\r`. -/
def isSpace (c : UInt8) : Bool := c = blank ∨ (9 ≤ c ∧ c ≤ 13)

/-! ## Encoder -/

/-- `pixels[y * width + x]`, in `int` arithmetic. -/
def pixelAt (pixels : List RGB) (width y x : ℤ) : Outcome RGB := do
  let start ← intResult (y * width)
  let index ← intResult (start + x)
  vectorAt pixels index

/-- `pixelToText`. Both loops write to the end of one string. -/
def pixelToText (order : IterationOrder) (pixels : List RGB) (width height : ℤ) :
    Outcome Bytes :=
  Text.separated [newline] height.toNat
    (fun y => Text.separated [blank] width.toNat
      (fun x => do
        let pixel ← pixelAt pixels width y x
        pure (rgbToCode order pixel))
      [])
    []

/-! ## Decoder -/

/-- What `textToPixel` returns, and its two reference arguments. -/
structure Decoded where
  pixels : List RGB
  width : ℤ
  height : ℤ
  deriving DecidableEq

/-- The body of the loop behind the test for an empty line. -/
def readRow (image : Decoded) (codes : List Bytes) : Outcome Decoded := do
  let colors ← codes.mapM codeToRGB
  let pixels := image.pixels ++ colors
  let height ← intResult (image.height + 1)
  -- the quotient is a `size_t`, assigned to an `int`
  let width := if image.width = 0 then toInt32 (pixels.length / height) else image.width
  pure ⟨pixels, width, height⟩

/-- The body of the loop. -/
def readLine (image : Decoded) (line : Bytes) : Outcome Decoded :=
  if line = [] then .ok image else readRow image (Text.tokens isSpace line)

/-- `textToPixel`. -/
def textToPixel (text : Bytes) : Outcome Decoded :=
  (Text.lines newline text).foldlM readLine ⟨[], 0, 0⟩

/-- `textToPixel` is the loop over `getline`: one line and then the rest. -/
theorem foldlM_lines_eq (image : Decoded) (text : Bytes) :
    (Text.lines newline text).foldlM readLine image =
      match Text.getline newline text with
      | none => .ok image
      | some (line, rest) => (do
          let image ← readLine image line
          (Text.lines newline rest).foldlM readLine image) := by
  rw [Text.lines_eq_getline]
  cases Text.getline newline text with
  | none => rfl
  | some extracted => rfl

/-- And the codes of a line are those `lineStream >> code` extracts one by one. -/
theorem mapM_tokens_eq (line : Bytes) :
    (Text.tokens isSpace line).mapM codeToRGB =
      match Text.extract isSpace line with
      | none => .ok []
      | some (code, rest) => (do
          let color ← codeToRGB code
          let colors ← (Text.tokens isSpace rest).mapM codeToRGB
          pure (color :: colors)) := by
  rw [Text.tokens_eq_extract]
  cases Text.extract isSpace line with
  | none => rfl
  | some extracted => exact List.mapM_cons

/-! ## Dimensions -/

/-- A width and a height of at least one for which all pixel indices are `int`s. -/
structure Dimensions where
  width : ℕ
  height : ℕ
  width_pos : 0 < width
  height_pos : 0 < height
  width_lt : width < 2 ^ 31
  height_lt : height < 2 ^ 31
  area_le : width * height ≤ 2 ^ 31

/-- Every area below `2 ^ 31` will do. -/
def Dimensions.ofArea (width height : ℕ) (hwidth : 1 ≤ width) (hheight : 1 ≤ height)
    (harea : width * height < 2 ^ 31) : Dimensions where
  width := width
  height := height
  width_pos := hwidth
  height_pos := hheight
  width_lt := lt_of_le_of_lt (Nat.le_mul_of_pos_right width hheight) harea
  height_lt := lt_of_le_of_lt (Nat.le_mul_of_pos_left height hwidth) harea
  area_le := Nat.le_of_lt harea

/-- The pixel vectors that fill the dimensions. -/
abbrev Dimensions.Raster (size : Dimensions) := List.Vector RGB (size.width * size.height)

/-- Reading a stretch of a list by index. -/
theorem map_getD_range {α : Type} (values : List α) (start count : ℕ) (default : α)
    (hend : start + count ≤ values.length) :
    (List.range count).map (fun i => values.getD (start + i) default) =
      (values.drop start).take count := by
  apply List.ext_getElem
  · rw [List.length_map, List.length_range, List.length_take, List.length_drop]
    omega
  · intro i hi _
    rw [List.length_map, List.length_range] at hi
    have hlt : start + i < values.length := by omega
    simp [List.getElem?_eq_getElem hlt]

/-- A pixel inside the vector is read if its index is an `int`. -/
theorem pixelAt_of_lt {pixels : List RGB} {width y x : ℕ}
    (hbound : y * width + x < pixels.length) (hsmall : y * width + x < 2 ^ 31) :
    pixelAt pixels width y x = .ok (pixels.getD (y * width + x) ⟨0, 0, 0⟩) := by
  rw [pixelAt, ← Nat.cast_mul, intResult_natCast (by omega), ok_bind, ← Nat.cast_add,
    intResult_natCast hsmall, ok_bind, vectorAt_eq_getD hbound]

/-- The rows of a pixel vector. -/
def rows (width height : ℕ) (pixels : List RGB) : List (List RGB) :=
  (List.range height).map fun y => (pixels.drop (y * width)).take width

theorem flatten_rows (width height : ℕ) (pixels : List RGB) :
    (rows width height pixels).flatten = pixels.take (height * width) := by
  induction height with
  | zero => simp [rows]
  | succ height ih =>
      rw [rows, List.range_succ, List.map_append, List.flatten_append]
      change (rows width height pixels).flatten ++ _ = _
      rw [ih, Nat.succ_mul, List.take_add]
      simp

@[simp]
theorem length_rows (width height : ℕ) (pixels : List RGB) :
    (rows width height pixels).length = height := by
  simp [rows]

/-- The row of a height lies inside a vector that fills the dimensions. -/
theorem row_end_le {pixels : List RGB} {width height y : ℕ}
    (hpixels : width * height ≤ pixels.length) (hy : y < height) :
    y * width + width ≤ pixels.length := by
  refine le_trans ?_ hpixels
  rw [← Nat.succ_mul, Nat.mul_comm width]
  exact Nat.mul_le_mul_right _ hy

section Size

variable {size : Dimensions} {x y : ℕ}

theorem Dimensions.index_lt (hx : x < size.width) (hy : y < size.height) :
    y * size.width + x < size.width * size.height := by
  calc y * size.width + x < y * size.width + size.width := Nat.add_lt_add_left hx _
    _ = (y + 1) * size.width := (Nat.succ_mul y size.width).symm
    _ ≤ size.height * size.width := Nat.mul_le_mul_right _ hy
    _ = size.width * size.height := Nat.mul_comm _ _

/-- Inside the dimensions every pixel can be read. -/
theorem pixelAt_of_mem {pixels : List RGB} (hpixels : size.width * size.height ≤ pixels.length)
    (hx : x < size.width) (hy : y < size.height) :
    pixelAt pixels size.width y x =
      .ok (pixels.getD (y * size.width + x) ⟨0, 0, 0⟩) := by
  have hindex := size.index_lt hx hy
  exact pixelAt_of_lt (lt_of_lt_of_le hindex hpixels) (lt_of_lt_of_le hindex size.area_le)

/-- All rows have the full width. -/
theorem length_of_mem_rows (pixels : size.Raster) {row : List RGB}
    (hrow : row ∈ rows size.width size.height pixels.toList) : row.length = size.width := by
  obtain ⟨y, hy, rfl⟩ := List.mem_map.mp hrow
  have hend := row_end_le (Nat.le_of_eq pixels.toList_length.symm) (List.mem_range.mp hy)
  rw [List.length_take, List.length_drop]
  omega

theorem flatten_rows_raster (pixels : size.Raster) :
    (rows size.width size.height pixels.toList).flatten = pixels.toList := by
  rw [flatten_rows, Nat.mul_comm]
  exact List.take_of_length_le (Nat.le_of_eq pixels.toList_length)

end Size

/-! ## The text -/

def rowText (order : IterationOrder) (row : List RGB) : Bytes :=
  [blank].intercalate (row.map (rgbToCode order))

def imageText (order : IterationOrder) (image : List (List RGB)) : Bytes :=
  [newline].intercalate (image.map (rowText order))

/-- The inner loop writes one row. -/
theorem separated_row (order : IterationOrder) {size : Dimensions} (pixels : size.Raster)
    {y : ℕ} (hy : y < size.height) :
    Text.separated [blank] (size.width : ℤ).toNat
        (fun x => do
          let pixel ← pixelAt pixels.toList size.width y x
          pure (rgbToCode order pixel))
        [] =
      (pure (rowText order ((pixels.toList.drop (y * size.width)).take size.width)) :
        Outcome Bytes) := by
  have hfull := Nat.le_of_eq pixels.toList_length.symm
  have hpiece (x : ℕ) (hx : x < size.width) :
      (do
        let pixel ← pixelAt pixels.toList size.width y x
        pure (rgbToCode order pixel) : Outcome Bytes) =
      pure (rgbToCode order (pixels.toList.getD (y * size.width + x) ⟨0, 0, 0⟩)) := by
    rw [pixelAt_of_mem hfull hx hy, ok_bind]
  rw [Int.toNat_natCast, Text.separated_eq_intercalate [blank] hpiece, List.nil_append,
    rowText, ← map_getD_range _ _ _ ⟨0, 0, 0⟩ (row_end_le hfull hy), List.map_map]
  rfl

/-- The loops of the encoder write the rows, codes separated by blanks. -/
theorem pixelToText_eq (order : IterationOrder) {size : Dimensions} (pixels : size.Raster) :
    pixelToText order pixels.toList size.width size.height =
      .ok (imageText order (rows size.width size.height pixels.toList)) := by
  rw [pixelToText, Int.toNat_natCast,
    Text.separated_eq_intercalate [newline] fun y hy => separated_row order pixels hy,
    List.nil_append, imageText, rows, List.map_map]
  rfl

/-- An encoder that returns has not overflowed at the last pixel. -/
theorem area_le_of_pixelToText {order : IterationOrder} {pixels : List RGB} {width height : ℕ}
    (hwidth : 0 < width) (hheight : 0 < height) {text : Bytes}
    (htext : pixelToText order pixels width height = .ok text) :
    width * height ≤ 2 ^ 31 := by
  have hx : width - 1 < (width : ℤ).toNat := by
    rw [Int.toNat_natCast]
    exact Nat.sub_lt hwidth Nat.one_pos
  have hy : height - 1 < (height : ℤ).toNat := by
    rw [Int.toNat_natCast]
    exact Nat.sub_lt hheight Nat.one_pos
  obtain ⟨row, hrow⟩ := Text.exists_piece_of_separated htext hy
  obtain ⟨code, hcode⟩ := Text.exists_piece_of_separated hrow hx
  have hindex : (height - 1) * width + (width - 1) < 2 ^ 31 := by
    by_contra hlarge
    have hover : pixelAt pixels width (height - 1 : ℕ) (width - 1 : ℕ) = undefined := by
      rw [pixelAt, ← Nat.cast_mul]
      by_cases hstart : (height - 1) * width < 2 ^ 31
      · rw [intResult_natCast hstart, ok_bind, ← Nat.cast_add, intResult, if_neg (by omega),
          undefined_bind]
      · rw [intResult, if_neg (by omega), undefined_bind]
    rw [hover, undefined_bind] at hcode
    cases hcode
  have harea : (height - 1) * width + width = height * width := Buffer.last_row_end hheight
  rw [Nat.mul_comm]
  omega

/-- `Dimensions` are exactly the sizes, of at least one pixel, that can be encoded. -/
theorem exists_pixelToText_iff (order : IterationOrder) {width height : ℕ}
    (hwidth : 0 < width ∧ width < 2 ^ 31) (hheight : 0 < height ∧ height < 2 ^ 31)
    {pixels : List RGB} (hpixels : pixels.length = width * height) :
    (∃ text, pixelToText order pixels width height = .ok text) ↔
      width * height ≤ 2 ^ 31 := by
  refine ⟨fun ⟨_, htext⟩ => area_le_of_pixelToText hwidth.1 hheight.1 htext, fun harea => ?_⟩
  let size : Dimensions := ⟨width, height, hwidth.1, hheight.1, hwidth.2, hheight.2, harea⟩
  let raster : size.Raster := ⟨pixels, hpixels⟩
  exact ⟨_, pixelToText_eq order raster⟩

/-! ## Reading it back -/

/-- The colour a pixel comes back in. -/
def RGB.recoded (color : RGB) : RGB := color.shade.decoded

theorem mapM_codeToRGB (order : IterationOrder) (row : List RGB) :
    (row.map (rgbToCode order)).mapM codeToRGB = .ok (row.map RGB.recoded) := by
  rw [List.mapM_map]
  exact mapM_eq_ok fun color _ => codeToRGB_rgbToCode order color

/-- Codes hold neither blanks nor newlines. -/
theorem isSpace_of_mem_code (order : IterationOrder) {color : RGB} {c : UInt8}
    (hc : c ∈ rgbToCode order color) : isSpace c = false := by
  have hletters : (ascii "RGBLD").all (fun letter => !isSpace letter) = true := by decide
  have hletter := List.all_eq_true.mp hletters c ((rgbToCode_letters order color).2 hc)
  exact Bool.not_eq_eq_eq_not.mp hletter

/-- The tokens of a row are its codes. -/
theorem tokens_rowText (order : IterationOrder) (row : List RGB) :
    Text.tokens isSpace (rowText order row) = row.map (rgbToCode order) := by
  apply Text.tokens_intercalate (by decide)
  intro word hword
  obtain ⟨color, -, rfl⟩ := List.mem_map.mp hword
  exact ⟨fun c hc => isSpace_of_mem_code order hc, (rgbToCode_letters order color).1⟩

/-- The characters of a row. -/
theorem rowText_letters (order : IterationOrder) (row : List RGB) :
    rowText order row ⊆ blank :: ascii "RGBLD" := by
  intro c hc
  rcases Text.mem_of_mem_intercalate hc with hsep | ⟨code, hcode, hmem⟩
  · rw [List.mem_singleton] at hsep
    exact hsep ▸ List.mem_cons_self
  · obtain ⟨color, -, rfl⟩ := List.mem_map.mp hcode
    exact List.mem_cons_of_mem _ ((rgbToCode_letters order color).2 hmem)

/-- Rows are lines: not empty, if they have a pixel, and without a newline. -/
theorem rowText_line (order : IterationOrder) {row : List RGB} (hrow : row ≠ []) :
    newline ∉ rowText order row ∧ rowText order row ≠ [] := by
  refine ⟨fun hnewline => ?_, fun hempty => ?_⟩
  · exact absurd (rowText_letters order row hnewline) (by decide)
  · have htokens := tokens_rowText order row
    rw [hempty, Text.tokens_nil] at htokens
    exact hrow (List.map_eq_nil_iff.mp htokens.symm)

theorem readLine_rowText (order : IterationOrder) {row : List RGB} (hrow : row ≠ [])
    (image : Decoded) :
    readLine image (rowText order row) = readRow image (row.map (rgbToCode order)) := by
  rw [readLine, if_neg (rowText_line order hrow).2, tokens_rowText]

/-- The decoder after some rows of one width: it knows the width from the first. -/
def decodedRows (width : ℕ) (image : List (List RGB)) : Decoded where
  pixels := image.flatten.map RGB.recoded
  width := if image = [] then 0 else width
  height := image.length

/-- One more row of the same width. -/
theorem readRow_decodedRows (order : IterationOrder) {width : ℕ} (hwidth : 0 < width)
    (hlt : width < 2 ^ 31) {image : List (List RGB)} {row : List RGB}
    (hrow : row.length = width) (hheight : image.length + 1 < 2 ^ 31) :
    readRow (decodedRows width image) (row.map (rgbToCode order)) =
      .ok (decodedRows width (image ++ [row])) := by
  have hsucc : intResult ((image.length : ℤ) + 1) = .ok ((image.length + 1 : ℕ) : ℤ) := by
    rw [← Nat.cast_succ, intResult_natCast hheight]
  rw [readRow, mapM_codeToRGB, ok_bind]
  simp only [decodedRows, hsucc, ok_bind]
  by_cases hfirst : image = []
  · subst hfirst
    simp [hrow, toInt32_of_lt hlt, pure, Except.pure]
  · simp [hfirst, Nat.ne_of_gt hwidth, pure, Except.pure]

/-- Reading a whole image, row by row. -/
theorem foldlM_readLine (order : IterationOrder) {width : ℕ} (hwidth : 0 < width)
    (hlt : width < 2 ^ 31) {image : List (List RGB)} (hrows : ∀ row ∈ image, row.length = width)
    (hheight : image.length < 2 ^ 31) :
    (image.map (rowText order)).foldlM readLine ⟨[], 0, 0⟩ = .ok (decodedRows width image) := by
  induction image using List.reverseRecOn with
  | nil => rfl
  | append_singleton image row ih =>
      rw [List.length_append, List.length_singleton] at hheight
      have hrow : row.length = width := hrows row (by simp)
      have hne : row ≠ [] := List.ne_nil_of_length_pos (hrow ▸ hwidth)
      rw [List.map_append, List.foldlM_append,
        ih (fun other hother => hrows other (List.mem_append_left _ hother)) (by omega),
        ok_bind, List.map_singleton, List.foldlM_cons, readLine_rowText order hne,
        readRow_decodedRows order hwidth hlt hrow hheight]
      rfl

/-- The text of an image is a block of lines without an empty one. -/
theorem imageLines_block (order : IterationOrder) {size : Dimensions} (pixels : size.Raster) :
    (rows size.width size.height pixels.toList).map (rowText order) ≠ [] ∧
      ∀ line ∈ (rows size.width size.height pixels.toList).map (rowText order),
        newline ∉ line ∧ line ≠ [] := by
  refine ⟨?_, fun line hline => ?_⟩
  · apply List.ne_nil_of_length_pos
    rw [List.length_map, length_rows]
    exact size.height_pos
  · obtain ⟨row, hrow, rfl⟩ := List.mem_map.mp hline
    have hwidth := length_of_mem_rows pixels hrow
    exact rowText_line order (List.ne_nil_of_length_pos (hwidth ▸ size.width_pos))

/-- The text of an image is read back as the image, every pixel in its shade. -/
theorem textToPixel_imageText (order : IterationOrder) {size : Dimensions}
    (pixels : size.Raster) :
    textToPixel (imageText order (rows size.width size.height pixels.toList)) =
      .ok ⟨pixels.toList.map RGB.recoded, size.width, size.height⟩ := by
  obtain ⟨hne, hlines⟩ := imageLines_block order pixels
  have hheight := length_rows size.width size.height pixels.toList
  rw [textToPixel, imageText, Text.lines_intercalate hlines,
    foldlM_readLine order size.width_pos size.width_lt
      (fun row hrow => length_of_mem_rows pixels hrow) (lt_of_eq_of_lt hheight size.height_lt),
    decodedRows, if_neg fun h => hne (List.map_eq_nil_iff.mpr h), hheight, flatten_rows_raster]

/-- No pixel is lost, duplicated or moved. -/
theorem textToPixel_pixelToText (order : IterationOrder) {width height : ℕ}
    (hwidth : 1 ≤ width) (hheight : 1 ≤ height) (harea : width * height < 2 ^ 31)
    {pixels : List RGB} (hpixels : pixels.length = width * height) :
    ∃ text image,
      pixelToText order pixels width height = .ok text ∧
      textToPixel text = .ok image ∧
      image.width = width ∧ image.height = height ∧
      image.pixels.length = width * height ∧
      ∀ x < width, ∀ y < height, ∃ pixel color,
        pixels[y * width + x]? = some pixel ∧
        codeToRGB (rgbToCode order pixel) = .ok color ∧
        image.pixels[y * width + x]? = some color := by
  let size := Dimensions.ofArea width height hwidth hheight harea
  let raster : size.Raster := ⟨pixels, hpixels⟩
  have hlength : (pixels.map RGB.recoded).length = width * height := by
    rw [List.length_map, hpixels]
  refine ⟨_, _, pixelToText_eq order raster, textToPixel_imageText order raster, rfl, rfl,
    hlength, ?_⟩
  intro x hx y hy
  have hindex : y * width + x < pixels.length := by
    rw [hpixels]
    exact size.index_lt hx hy
  refine ⟨pixels[y * width + x], _, List.getElem?_eq_getElem hindex,
    codeToRGB_rgbToCode order _, ?_⟩
  change (pixels.map RGB.recoded)[y * width + x]? = _
  rw [List.getElem?_map, List.getElem?_eq_getElem hindex]
  rfl

/-- The order in which the source lists the map. -/
def sourceOrder : IterationOrder := ⟨baseColors, .refl _⟩

/-- Two rows of two pixels, one of them black. The second row begins with the third pixel. -/
theorem textToPixel_pixelToText_rows :
    ∃ text image, pixelToText sourceOrder [red, ⟨0, 0, 0⟩, blue, red] (2 : ℕ) (2 : ℕ) = .ok text ∧
      textToPixel text = .ok image ∧ image.width = (2 : ℕ) ∧ image.height = (2 : ℕ) ∧
      image.pixels.length = 4 ∧
      ∃ color, codeToRGB (rgbToCode sourceOrder blue) = .ok color ∧
        image.pixels[2]? = some color := by
  obtain ⟨text, image, htext, himage, hwidth, hheight, hlength, hpixels⟩ :=
    textToPixel_pixelToText sourceOrder (by decide : 1 ≤ 2) (by decide : 1 ≤ 2) (by decide)
      (rfl : ([red, ⟨0, 0, 0⟩, blue, red] : List RGB).length = 2 * 2)
  obtain ⟨pixel, color, hpixel, hcolor, hdecoded⟩ := hpixels 0 (by decide) 1 (by decide)
  cases hpixel
  exact ⟨text, image, htext, himage, hwidth, hheight, hlength, color, hcolor, hdecoded⟩

/-! ## The order of the map -/

/-- A code names the one base colour a colour is near, if there is one, and neither the
code of a colour nor the text of an image shows in which order the map was walked. -/
theorem pixelToText_order (first second : IterationOrder) :
    (∀ color : RGB,
      rgbToCode first color = rgbToCode second color ∧
      (∀ entry ∈ baseColors, color.Near entry.2 →
        (∀ other ∈ baseColors, color.Near other.2 → other = entry) ∧
          codeToRGB (rgbToCode first color) = .ok entry.2) ∧
      ((∀ entry ∈ baseColors, ¬ color.Near entry.2) →
        rgbToCode first color = ascii "RGB" ∨ rgbToCode first color = ascii "RGBD")) ∧
    ∀ (pixels : List RGB) (width height : ℤ),
      pixelToText first pixels width height = pixelToText second pixels width height := by
  have hcodes : rgbToCode first = rgbToCode second := by
    funext color
    exact rgbToCode_order first second color
  refine ⟨fun color => ⟨rgbToCode_order first second color, ?_, ?_⟩, ?_⟩
  · intro entry hentry hnear
    refine ⟨fun other hother hboth => hboth.unique hother hentry hnear, ?_⟩
    exact codeToRGB_rgbToCode_of_near first hentry hnear
  · intro hfar
    rw [rgbToCode_of_not_near first hfar]
    by_cases hblack : color.NearBlack
    · exact .inr (if_pos hblack)
    · exact .inl (if_neg hblack)
  · intro pixels width height
    rw [pixelToText, pixelToText, hcodes]

/-! ## Encoding again -/

/-- Encode an image and decode the text. -/
def reencode (order : IterationOrder) (image : Decoded) : Outcome Decoded := do
  let text ← pixelToText order image.pixels image.width image.height
  textToPixel text

theorem reencode_raster (order : IterationOrder) {size : Dimensions} (pixels : size.Raster) :
    reencode order ⟨pixels.toList, size.width, size.height⟩ =
      .ok ⟨(pixels.map RGB.recoded).toList, size.width, size.height⟩ := by
  rw [reencode, pixelToText_eq, ok_bind, textToPixel_imageText, List.Vector.toList_map]

/-- A decoded colour is stable unless it came from the darkest shade. -/
theorem recoded_recoded (color : RGB) :
    color.recoded.recoded = if color.NearBlack then Shade.grey.decoded else color.recoded := by
  change color.shade.decoded.shade.decoded = _
  rw [shade_decoded]
  by_cases hblack : color.NearBlack
  · rw [if_pos hblack, if_pos ((shade_eq_nearBlack_iff color).mpr hblack)]
  · rw [if_neg hblack, if_neg fun hshade => hblack ((shade_eq_nearBlack_iff color).mp hshade)]
    rfl

theorem recoded_recoded_eq_iff (color : RGB) :
    color.recoded.recoded = color.recoded ↔ ¬ color.NearBlack := by
  rw [recoded_recoded]
  by_cases hblack : color.NearBlack
  · have hdark : color.recoded = Shade.nearBlack.decoded :=
      congrArg Shade.decoded ((shade_eq_nearBlack_iff color).mpr hblack)
    rw [if_pos hblack, hdark]
    exact ⟨fun hequal => absurd hequal (by decide), fun hnot => absurd hblack hnot⟩
  · rw [if_neg hblack]
    exact ⟨fun _ => hblack, fun _ => rfl⟩

/-- One more time changes nothing for any colour. -/
theorem recoded_recoded_recoded (color : RGB) :
    color.recoded.recoded.recoded = color.recoded.recoded := by
  rw [recoded_recoded color.recoded]
  exact if_neg (not_nearBlack_decoded color.shade)

/-- Encoding an image that came out of the decoder changes nothing exactly if the
image it came from had no almost black pixel, and never does a second time. -/
theorem reencode_reencode (order : IterationOrder) (size : Dimensions)
    (pixels : size.Raster) :
    ∃ once twice,
      reencode order ⟨pixels.toList, size.width, size.height⟩ = .ok once ∧
      reencode order once = .ok twice ∧
      (twice = once ↔ ∀ pixel ∈ pixels.toList, ¬ pixel.NearBlack) ∧
      reencode order twice = .ok twice := by
  refine ⟨_, _, reencode_raster order pixels, reencode_raster order _, ?_, ?_⟩
  · rw [Decoded.mk.injEq, List.Vector.toList_map, List.Vector.toList_map, List.map_map]
    simp only [and_self, and_true]
    rw [List.map_inj_left]
    simp only [Function.comp_apply, recoded_recoded_eq_iff]
  · rw [reencode_raster order]
    congr 2
    simp [List.Vector.toList_map, recoded_recoded_recoded]

/-- A black pixel comes back dark yellow, and that one grey. -/
theorem reencode_black :
    reencode sourceOrder ⟨[⟨0, 0, 0⟩], 1, 1⟩ = .ok ⟨[⟨85, 85, 42⟩], 1, 1⟩ ∧
      reencode sourceOrder ⟨[⟨85, 85, 42⟩], 1, 1⟩ = .ok ⟨[⟨85, 85, 85⟩], 1, 1⟩ := by
  decide

end Dht
