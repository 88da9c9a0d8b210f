/-
# Formatted texts

`formatText` puts a line break behind every `width`-th blank. It counts blanks over the
whole text, and a row of the encoder has one blank fewer than it has pixels, so from the
second row on the count runs ahead and the breaks fall inside rows. A break inside a row
makes one line more, and the decoder counts lines: the height of a formatted image is
too large, unless the image has a single row or a single column.
-/

import Dht.Image.Rectangular

namespace Dht

/-- `result` and `count`. The count stays below the width and does not overflow. -/
structure Formatted where
  result : Bytes
  count : ℤ

/-- The body of the loop. -/
def Formatted.add (width : ℤ) (formatted : Formatted) (c : UInt8) : Formatted :=
  if c = blank then
    if width ≤ formatted.count + 1 then ⟨formatted.result ++ [c] ++ [newline], 0⟩
    else ⟨formatted.result ++ [c], formatted.count + 1⟩
  else ⟨formatted.result ++ [c], formatted.count⟩

/-- `formatText`. -/
def formatText (text : Bytes) (width : ℤ) : Bytes :=
  (text.foldl (Formatted.add width) ⟨[], 0⟩).result

/-! ## Where lines are broken -/

/-- What is appended from a count on. -/
def broken (width : ℤ) : ℤ → Bytes → Bytes
  | _, [] => []
  | count, c :: text =>
      if c = blank then
        if width ≤ count + 1 then c :: newline :: broken width 0 text
        else c :: broken width (count + 1) text
      else c :: broken width count text

theorem foldl_format (width : ℤ) (text : Bytes) (formatted : Formatted) :
    (text.foldl (Formatted.add width) formatted).result =
      formatted.result ++ broken width formatted.count text := by
  induction text generalizing formatted with
  | nil => exact (List.append_nil _).symm
  | cons c text ih =>
      rw [List.foldl_cons, ih, Formatted.add, broken]
      split
      · split
        · simp
        · simp
      · simp

theorem formatText_eq (text : Bytes) (width : ℤ) : formatText text width = broken width 0 text :=
  foldl_format width text ⟨[], 0⟩

/-- Up to the first break nothing happens. -/
theorem broken_append {width count : ℤ} {before : Bytes}
    (hfew : count + before.count blank < width) (text : Bytes) :
    broken width count (before ++ text) =
      before ++ broken width (count + before.count blank) text := by
  induction before generalizing count with
  | nil => simp
  | cons c before ih =>
      by_cases hc : c = blank
      · subst hc
        rw [List.count_cons_self, Nat.cast_succ, ← add_assoc, add_right_comm] at hfew ⊢
        rw [List.cons_append, broken, if_pos rfl, if_neg (by omega), ih hfew, List.cons_append]
      · rw [List.count_cons_of_ne hc] at hfew ⊢
        rw [List.cons_append, broken, if_neg hc, ih hfew, List.cons_append]

/-- A text with few blanks is left as it is. -/
theorem formatText_of_few {text : Bytes} {width : ℤ} (hfew : (text.count blank : ℤ) < width) :
    formatText text width = text := by
  have hwhole := @broken_append width 0 text (by rwa [zero_add]) []
  rw [List.append_nil, broken, List.append_nil] at hwhole
  rw [formatText_eq, hwhole]

theorem head?_broken (width count : ℤ) (text : Bytes) :
    (broken width count text).head? = text.head? := by
  cases text with
  | nil => rfl
  | cons c text =>
      rw [broken]
      split
      · split <;> rfl
      · rfl

/-! ## Lines are never lost -/

theorem length_codeRows_cons (c : UInt8) (text : Bytes) :
    (codeRows (c :: text)).length = (codeRows text).length +
      if c ≠ newline ∧ text.head?.all (· = newline) then 1 else 0 := by
  rw [codeRows, codeRows, List.length_map, List.length_map, Text.length_filter_lines_cons]

/-- A line followed by a newline is a row of its own. -/
theorem codeRows_append_newline {line : Bytes} (hfree : newline ∉ line) (hne : line ≠ [])
    (text : Bytes) :
    codeRows (line ++ newline :: text) = Text.tokens isSpace line :: codeRows text := by
  have hkept : decide (line ≠ []) = true := decide_eq_true hne
  rw [codeRows, Text.lines_append_sep hfree, List.filter_cons_of_pos (by exact hkept),
    List.map_cons, codeRows]

/-- A blank before a break ends a line. -/
theorem length_codeRows_break (text : Bytes) :
    (codeRows (blank :: newline :: text)).length = (codeRows text).length + 1 := by
  have hblank : blank ≠ newline ∧ (newline :: text).head?.all (· = newline) := by
    refine ⟨by decide, ?_⟩
    rw [List.head?_cons, Option.all_some]
    exact decide_eq_true rfl
  rw [length_codeRows_cons, length_codeRows_cons, if_pos hblank, if_neg fun h => h.1 rfl]

/-- Breaking lines never makes fewer of them. -/
theorem length_codeRows_le_broken (width count : ℤ) (text : Bytes) :
    (codeRows text).length ≤ (codeRows (broken width count text)).length := by
  induction text generalizing count with
  | nil => exact le_rfl
  | cons c text ih =>
      -- a character that is no break adds to both sides the same
      have hsame (count : ℤ) :
          (codeRows (c :: text)).length ≤ (codeRows (c :: broken width count text)).length := by
        rw [length_codeRows_cons, length_codeRows_cons, head?_broken]
        exact Nat.add_le_add_right (ih count) _
      rw [broken]
      by_cases hc : c = blank
      · rw [if_pos hc]
        by_cases hfull : width ≤ count + 1
        · rw [if_pos hfull, hc, length_codeRows_break, length_codeRows_cons]
          have hrest := ih 0
          split <;> omega
        · rw [if_neg hfull]
          exact hsame (count + 1)
      · rw [if_neg hc]
        exact hsame count

/-! ## Texts of images -/

section Images

variable (order : IterationOrder)

theorem count_blank_code (color : RGB) : (rgbToCode order color).count blank = 0 :=
  List.count_eq_zero.mpr fun hmem => absurd (isSpace_of_mem_code order hmem) (by decide)

/-- A row has a blank between two pixels. -/
theorem count_blank_rowText (row : List RGB) :
    (rowText order row).count blank = row.length - 1 := by
  have hcodes : ((row.map (rgbToCode order)).map (List.count blank)).sum = 0 := by
    apply List.sum_eq_zero
    intro count hcount
    obtain ⟨code, hcode, rfl⟩ := List.mem_map.mp hcount
    obtain ⟨color, -, rfl⟩ := List.mem_map.mp hcode
    exact count_blank_code order color
  rw [rowText, Text.count_intercalate, hcodes, List.length_map, List.count_singleton_self,
    Nat.mul_one, Nat.zero_add]

theorem count_blank_imageText {width : ℕ} {image : List (List RGB)}
    (hrows : ∀ row ∈ image, row.length = width) :
    (imageText order image).count blank = image.length * (width - 1) := by
  have hcounts : (image.map (rowText order)).map (List.count blank) =
      List.replicate image.length (width - 1) := by
    rw [List.map_map, List.eq_replicate_iff, List.length_map]
    refine ⟨rfl, fun count hcount => ?_⟩
    obtain ⟨row, hrow, rfl⟩ := List.mem_map.mp hcount
    rw [Function.comp_apply, count_blank_rowText, hrows row hrow]
  have hnewline : [newline].count blank = 0 := by decide
  rw [imageText, Text.count_intercalate, hcounts, List.sum_replicate_nat, hnewline,
    Nat.mul_zero, Nat.add_zero]

/-- A text of rows has as many lines. -/
theorem length_codeRows_imageText {image : List (List RGB)} (hrows : ∀ row ∈ image, row ≠ []) :
    (codeRows (imageText order image)).length = image.length := by
  have hlines : ∀ line ∈ image.map (rowText order), newline ∉ line ∧ line ≠ [] := by
    intro line hline
    obtain ⟨row, hrow, rfl⟩ := List.mem_map.mp hline
    exact rowText_line order (hrows row hrow)
  have hkept : (image.map (rowText order)).filter (· ≠ []) = image.map (rowText order) :=
    List.filter_eq_self.mpr fun line hline => decide_eq_true (hlines line hline).2
  rw [codeRows, imageText, Text.lines_intercalate hlines, hkept, List.length_map, List.length_map]

/-- The first break behind a full row falls behind the first pixel of the next one. -/
theorem length_codeRows_formatText {width : ℕ} {first row : List RGB} (second : RGB)
    {image : List (List RGB)} (hfirst : first.length = width) (hpos : 0 < width)
    (hrow : row ≠ []) (himage : ∀ row ∈ image, row ≠ []) :
    image.length + 2 <
      (codeRows (formatText (imageText order (first :: (second :: row) :: image)) width)).length := by
  have hne : first ≠ [] := List.ne_nil_of_length_pos (hfirst ▸ hpos)
  obtain ⟨hfree, hline⟩ := rowText_line order hne
  have hfew : (0 : ℤ) + (rowText order first ++ newline :: rgbToCode order second).count blank =
      width - 1 := by
    have hnewline : (newline :: rgbToCode order second).count blank = 0 := by
      rw [List.count_cons_of_ne (by decide), count_blank_code]
    rw [List.count_append, hnewline, count_blank_rowText, hfirst]
    omega
  have htext : imageText order (first :: (second :: row) :: image) =
      (rowText order first ++ newline :: rgbToCode order second) ++
        blank :: imageText order (row :: image) := by
    cases row with
    | nil => exact absurd rfl hrow
    | cons third row =>
        simp [imageText, rowText, Text.intercalate_cons_eq_flatMap]
  have hcode : newline ∉ rgbToCode order second ++ [blank] := by
    rw [List.mem_append, not_or]
    exact ⟨fun hmem => absurd (isSpace_of_mem_code order hmem) (by decide), by decide⟩
  have hrest := length_codeRows_le_broken width 0 (imageText order (row :: image))
  rw [length_codeRows_imageText order (List.forall_mem_cons.mpr ⟨hrow, himage⟩),
    List.length_cons] at hrest
  rw [formatText_eq, htext, broken_append (by omega), hfew, broken, if_pos rfl, if_pos (by omega)]
  have hbroken (rest : Bytes) :
      (rowText order first ++ newline :: rgbToCode order second) ++ blank :: newline :: rest =
        rowText order first ++ newline :: ((rgbToCode order second ++ [blank]) ++ newline :: rest) := by
    simp
  rw [hbroken, codeRows_append_newline hfree hline, codeRows_append_newline hcode (by simp),
    List.length_cons, List.length_cons]
  omega

/-- So an image of two rows and two columns or more comes out with more lines than rows. -/
theorem length_lt_codeRows_formatText {width : ℕ} {image : List (List RGB)}
    (hrows : ∀ row ∈ image, row.length = width) (hwide : 2 ≤ width) (htall : 2 ≤ image.length) :
    image.length < (codeRows (formatText (imageText order image) width)).length := by
  match image with
  | [] => simp at htall
  | [_] => simp at htall
  | first :: [] :: rest => simp at hrows; omega
  | first :: [_] :: rest => simp at hrows; omega
  | first :: (second :: third :: row) :: rest =>
      have hne : ∀ row ∈ rest, row ≠ [] := by
        intro row hrow
        have hlength := hrows row (List.mem_cons_of_mem _ (List.mem_cons_of_mem _ hrow))
        exact List.ne_nil_of_length_pos (by omega)
      exact length_codeRows_formatText order second (hrows first List.mem_cons_self)
        (by omega) (List.cons_ne_nil third row) hne

end Images

/-- Formatting keeps exactly the images of one column or one row. -/
theorem formatText_keeps_iff (order : IterationOrder) {width height : ℕ}
    (hwidth : 1 ≤ width ∧ width < 2 ^ 31) (hheight : 1 ≤ height ∧ height < 2 ^ 31)
    {pixels : List RGB} (hpixels : pixels.length = width * height) {text : Bytes}
    (htext : pixelToText order pixels width height = .ok text) :
    (∃ image, textToPixel text = .ok image ∧ textToPixel (formatText text width) = .ok image) ↔
      width = 1 ∨ height = 1 := by
  let size : Dimensions := ⟨width, height, hwidth.1, hheight.1, hwidth.2, hheight.2,
    area_le_of_pixelToText hwidth.1 hheight.1 htext⟩
  let raster : size.Raster := ⟨pixels, hpixels⟩
  have hrows : ∀ row ∈ rows width height pixels, row.length = width :=
    fun row hrow => length_of_mem_rows raster hrow
  have hcount := length_rows width height pixels
  have himage : text = imageText order (rows width height pixels) :=
    Except.ok.inj (htext.symm.trans (pixelToText_eq order raster))
  have hdecoded : textToPixel text = .ok ⟨pixels.map RGB.recoded, width, height⟩ := by
    rw [himage]
    exact textToPixel_imageText order raster
  constructor
  · rintro ⟨image, hplain, hformatted⟩
    by_contra hlarge
    rw [not_or] at hlarge
    have hsame : image.height = height := by
      rw [hdecoded] at hplain
      cases hplain
      rfl
    rw [textToPixel_eq_codeRows] at hformatted
    have hlines := (readsRows_of_foldlM hformatted).height
    rw [himage] at hlines
    have hmore := length_lt_codeRows_formatText order hrows (by omega) (by omega)
    omega
  · intro hsmall
    have hfew : (text.count blank : ℤ) < width := by
      rw [himage, count_blank_imageText order hrows, hcount]
      rcases hsmall with hcolumn | hrow
      · rw [hcolumn]
        simp
      · rw [hrow, Nat.one_mul]
        omega
    exact ⟨_, hdecoded, by rw [formatText_of_few hfew, hdecoded]⟩

/-- Two pixels in a row stay two pixels in a row. -/
theorem formatText_keeps_row :
    ∃ image, textToPixel (ascii "RL GL") = .ok image ∧
      textToPixel (formatText (ascii "RL GL") (2 : ℕ)) = .ok image :=
  (formatText_keeps_iff sourceOrder (by decide) (by decide)
    (rfl : ([red, green] : List RGB).length = 2 * 1) (by decide)).mpr (.inr rfl)

/-- Two rows of two pixels become three. -/
theorem not_formatText_keeps_square :
    textToPixel (formatText (ascii "RL GL\nBL RL") 2) =
        .ok ⟨[red, green, blue, red], 2, 3⟩ ∧
      ¬ ∀ (order : IterationOrder) (width height : ℕ) (pixels : List RGB) (text : Bytes),
        1 ≤ width → 1 ≤ height → pixels.length = width * height →
        pixelToText order pixels width height = .ok text →
        ∃ image, textToPixel text = .ok image ∧
          textToPixel (formatText text width) = .ok image := by
  have hthree : textToPixel (formatText (ascii "RL GL\nBL RL") 2) =
      .ok ⟨[red, green, blue, red], 2, 3⟩ := by decide
  refine ⟨hthree, fun hall => ?_⟩
  obtain ⟨image, hplain, hformatted⟩ := hall sourceOrder 2 2 [red, green, blue, red]
    (ascii "RL GL\nBL RL") (by decide) (by decide) rfl (by decide)
  have htwo : textToPixel (ascii "RL GL\nBL RL") = .ok ⟨[red, green, blue, red], 2, 2⟩ := by decide
  have hequal := (htwo.symm.trans hplain).trans (hformatted.symm.trans hthree)
  exact absurd hequal (by decide)

end Dht
