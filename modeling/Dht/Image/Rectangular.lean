/-
# Which texts decode to a rectangle

The writers index `pixels[y * width + x]` without a check, so the decoder's three
results have to fit together. Nothing in `textToPixel` enforces that: the height
counts lines, the pixels count codes, and the width is fixed once, at the first line
where the codes so far divided by the lines so far is not zero.

Whether they fit is a matter of how many codes stand on each line, and the theorem
here says which numbers fit, for every text. The codes of a rectangle have to be counted
by an `int` as well, or the last of them have no index.
-/

import Dht.Image.Writers

namespace Dht

/-! ## Lines as rows of codes -/

/-- The codes of each non-empty line. -/
def codeRows (text : Bytes) : List (List Bytes) :=
  ((Text.lines newline text).filter (· ≠ [])).map (Text.tokens isSpace)

theorem foldlM_readLine_eq (lines : List Bytes) (image : Decoded) :
    lines.foldlM readLine image =
      ((lines.filter (· ≠ [])).map (Text.tokens isSpace)).foldlM readRow image := by
  induction lines generalizing image with
  | nil => rfl
  | cons line lines ih =>
      by_cases hempty : line = []
      · rw [List.foldlM_cons, readLine, if_pos hempty, ok_bind, ih,
          List.filter_cons_of_neg (by simp [hempty])]
      · rw [List.foldlM_cons, readLine, if_neg hempty,
          List.filter_cons_of_pos (by simp [hempty]), List.map_cons, List.foldlM_cons]
        congr 1
        funext next
        exact ih next

/-- The decoder reads the rows of codes. -/
theorem textToPixel_eq_codeRows (text : Bytes) :
    textToPixel text = (codeRows text).foldlM readRow ⟨[], 0, 0⟩ :=
  foldlM_readLine_eq _ _

/-! ## The width -/

/-- The number of codes on some lines divided by the number of lines, as an `int`. -/
def average (counts : List ℕ) : ℤ := toInt32 ((counts.sum : ℤ) / counts.length)

theorem average_nil : average [] = 0 := rfl

/-- The width the decoder settles on: the first average that is not zero. -/
def SettlesOn (counts : List ℕ) (width : ℤ) : Prop :=
  (width = 0 ∧ ∀ n ≤ counts.length, average (counts.take n) = 0) ∨
    (width ≠ 0 ∧ ∃ n ≤ counts.length, average (counts.take n) = width ∧
      ∀ m < n, average (counts.take m) = 0)

theorem settlesOn_nil : SettlesOn [] 0 := by
  left
  refine ⟨rfl, fun n _ => ?_⟩
  rw [List.take_nil, average_nil]

/-- A width that was found stays. -/
theorem SettlesOn.keep {counts : List ℕ} {width : ℤ} (hsettles : SettlesOn counts width)
    (hfound : width ≠ 0) (count : ℕ) : SettlesOn (counts ++ [count]) width := by
  rcases hsettles with ⟨hzero, -⟩ | ⟨-, n, hn, hwidth, hbefore⟩
  · exact absurd hzero hfound
  · have htake (m : ℕ) (hm : m ≤ counts.length) : (counts ++ [count]).take m = counts.take m :=
      List.take_append_of_le_length hm
    refine .inr ⟨hfound, n, ?_, ?_, fun m hm => ?_⟩
    · rw [List.length_append]
      exact Nat.le_add_right_of_le hn
    · rw [htake n hn]
      exact hwidth
    · rw [htake m (Nat.le_of_lt (lt_of_lt_of_le hm hn))]
      exact hbefore m hm

/-- As long as there is none the next average is tried. -/
theorem SettlesOn.next {counts : List ℕ} (hsettles : SettlesOn counts 0) (count : ℕ) :
    SettlesOn (counts ++ [count]) (average (counts ++ [count])) := by
  rcases hsettles with ⟨-, hbefore⟩ | ⟨hne, -⟩
  · have hfront (m : ℕ) (hm : m ≤ counts.length) :
        average ((counts ++ [count]).take m) = 0 := by
      rw [List.take_append_of_le_length hm]
      exact hbefore m hm
    have hwhole : (counts ++ [count]).take (counts.length + 1) = counts ++ [count] :=
      List.take_of_length_le (by simp)
    by_cases hzero : average (counts ++ [count]) = 0
    · refine .inl ⟨hzero, fun n hn => ?_⟩
      rw [List.length_append, List.length_singleton] at hn
      rcases Nat.le_succ_iff.mp hn with hle | rfl
      · exact hfront n hle
      · rw [hwhole]
        exact hzero
    · refine .inr ⟨hzero, counts.length + 1, by simp, ?_, fun m hm => ?_⟩
      · rw [hwhole]
      · exact hfront m (Nat.le_of_lt_succ hm)
  · exact absurd rfl hne

/-! ## A run of the decoder -/

/-- What the decoder has computed after some rows. -/
structure ReadsRows (rows : List (List Bytes)) (image : Decoded) : Prop where
  pixels : image.pixels.length = (rows.map List.length).sum
  height : image.height = rows.length
  width : SettlesOn (rows.map List.length) image.width

/-- What one row does: its colours are appended, the height is one more, and the width
is computed unless it is known. -/
theorem readRow_eq_ok_iff {image next : Decoded} {row : List Bytes}
    (hheight : 0 ≤ image.height) :
    readRow image row = .ok next ↔
      ∃ colors, row.mapM codeToRGB = .ok colors ∧ image.height + 1 < 2 ^ 31 ∧
        next = ⟨image.pixels ++ colors,
          if image.width = 0 then
            toInt32 ((image.pixels ++ colors).length / (image.height + 1))
          else image.width,
          image.height + 1⟩ := by
  rw [readRow, bind_eq_ok_iff]
  refine exists_congr fun colors => and_congr_right fun _ => ?_
  rw [intResult]
  by_cases hlt : image.height + 1 < 2 ^ 31
  · rw [if_pos ⟨by omega, hlt⟩, ok_bind]
    exact ⟨fun hnext => ⟨hlt, (Except.ok.inj hnext).symm⟩, fun hnext => hnext.2 ▸ rfl⟩
  · rw [if_neg fun hrange => hlt hrange.2, undefined_bind]
    refine ⟨fun hnext => ?_, fun hnext => absurd hnext.1 hlt⟩
    cases hnext

/-- A row can be read if its codes can and there is room for one more line. -/
theorem exists_readRow_iff (image : Decoded) (hheight : 0 ≤ image.height) (row : List Bytes) :
    (∃ next, readRow image row = .ok next) ↔
      (∀ code ∈ row, letterCount code < 2 ^ 31) ∧ image.height + 1 < 2 ^ 31 := by
  have hcodes := exists_mapM_iff (f := codeToRGB) row
  simp only [exists_codeToRGB_iff] at hcodes
  rw [← hcodes]
  refine ⟨fun hnext => ?_, fun hboth => ?_⟩
  · obtain ⟨next, hnext⟩ := hnext
    obtain ⟨colors, hcolors, hlt, -⟩ := (readRow_eq_ok_iff hheight).mp hnext
    exact ⟨⟨colors, hcolors⟩, hlt⟩
  · obtain ⟨⟨colors, hcolors⟩, hlt⟩ := hboth
    exact ⟨_, (readRow_eq_ok_iff hheight).mpr ⟨colors, hcolors, hlt, rfl⟩⟩

/-- One row more. -/
theorem ReadsRows.step {rows : List (List Bytes)} {image next : Decoded} {row : List Bytes}
    (hreads : ReadsRows rows image) (hrow : readRow image row = .ok next) :
    ReadsRows (rows ++ [row]) next := by
  have hnonneg : 0 ≤ image.height := hreads.height ▸ Int.natCast_nonneg _
  obtain ⟨colors, hcolors, -, rfl⟩ := (readRow_eq_ok_iff hnonneg).mp hrow
  have hpixels : (image.pixels ++ colors).length = ((rows ++ [row]).map List.length).sum := by
    rw [List.length_append, hreads.pixels, length_of_mapM hcolors]
    simp
  have hheight : image.height + 1 = ((rows ++ [row]).length : ℤ) := by
    rw [hreads.height, List.length_append]
    rfl
  refine ⟨hpixels, hheight, ?_⟩
  have hwidth := hreads.width
  dsimp only
  rw [List.map_append, List.map_singleton]
  by_cases hzero : image.width = 0
  · rw [if_pos hzero, hpixels, hheight]
    rw [hzero] at hwidth
    have hnext := hwidth.next row.length
    rw [average] at hnext
    simpa using hnext
  · rw [if_neg hzero]
    exact hwidth.keep hzero row.length

/-- All rows. -/
theorem readsRows_of_foldlM {rows : List (List Bytes)} {image : Decoded}
    (hrun : rows.foldlM readRow ⟨[], 0, 0⟩ = .ok image) : ReadsRows rows image := by
  induction rows using List.reverseRecOn generalizing image with
  | nil =>
      cases hrun
      exact ⟨rfl, rfl, settlesOn_nil⟩
  | append_singleton rows row ih =>
      obtain ⟨before, hbefore, hrow⟩ := foldlM_concat_eq_ok_iff.mp hrun
      exact (ih hbefore).step hrow

/-- The decoder returns exactly when every code and the lines can be counted. -/
theorem exists_foldlM_readRow_iff (rows : List (List Bytes)) :
    (∃ image, rows.foldlM readRow ⟨[], 0, 0⟩ = .ok image) ↔
      rows.length < 2 ^ 31 ∧ ∀ row ∈ rows, ∀ code ∈ row, letterCount code < 2 ^ 31 := by
  induction rows using List.reverseRecOn with
  | nil => exact ⟨fun _ => ⟨by simp, by simp⟩, fun _ => ⟨_, rfl⟩⟩
  | append_singleton rows row ih =>
      have hcodes : (∀ other ∈ rows ++ [row], ∀ code ∈ other, letterCount code < 2 ^ 31) ↔
          (∀ other ∈ rows, ∀ code ∈ other, letterCount code < 2 ^ 31) ∧
            ∀ code ∈ row, letterCount code < 2 ^ 31 := by
        rw [List.forall_mem_append, List.forall_mem_singleton]
      simp only [foldlM_concat_eq_ok_iff, hcodes, List.length_append, List.length_singleton]
      have hlast (before : Decoded) (hbefore : rows.foldlM readRow ⟨[], 0, 0⟩ = .ok before) :
          (∃ image, readRow before row = .ok image) ↔
            (∀ code ∈ row, letterCount code < 2 ^ 31) ∧ rows.length + 1 < 2 ^ 31 := by
        have hheight := (readsRows_of_foldlM hbefore).height
        rw [exists_readRow_iff before (by omega), hheight]
        apply and_congr_right
        intro _
        omega
      refine ⟨fun ⟨image, before, hbefore, hrow⟩ => ?_, fun ⟨hheight, hrows, hrow⟩ => ?_⟩
      · obtain ⟨hrow, hheight⟩ := (hlast before hbefore).mp ⟨image, hrow⟩
        exact ⟨hheight, (ih.mp ⟨before, hbefore⟩).2, hrow⟩
      · obtain ⟨before, hbefore⟩ := ih.mpr ⟨by omega, hrows⟩
        obtain ⟨image, himage⟩ := (hlast before hbefore).mpr ⟨hrow, hheight⟩
        exact ⟨image, before, hbefore, himage⟩

/-! ## Rectangles -/

/-- There are as many pixels as the dimensions say, every index of the writers is inside
the vector, and their loops leave no pixel out. -/
structure Decoded.FillsRectangle (image : Decoded) : Prop where
  length : (image.pixels.length : ℤ) = image.width * image.height
  reads : ∀ y x : ℕ, (y : ℤ) < image.height → (x : ℤ) < image.width →
    ∃ color, pixelAt image.pixels image.width y x = .ok color
  scan : scan image = .ok image.pixels

/-- The decoder returns, and its results fit together. -/
def Rectangular (text : Bytes) : Prop :=
  ∃ image, textToPixel text = .ok image ∧ image.FillsRectangle

/-- The numbers of codes per line that fit: there are none at all, or together they
are the number of lines times the average over the first lines on which it is not
zero. -/
def EvenRows (counts : List ℕ) : Prop :=
  counts.sum = 0 ∨ ∃ n ≤ counts.length, average (counts.take n) ≠ 0 ∧
    (∀ m < n, average (counts.take m) = 0) ∧
    (counts.sum : ℤ) = average (counts.take n) * counts.length

/-- Without codes no width is found. -/
theorem average_eq_zero {counts : List ℕ} (hnone : counts.sum = 0) (n : ℕ) :
    average (counts.take n) = 0 := by
  have hfront : (counts.take n).sum = 0 := by
    have hsplit := List.sum_take_add_sum_drop counts n
    omega
  rw [average, hfront]
  simp [toInt32]

/-- The numbers fit for the width the decoder settles on if they fit at all. -/
theorem SettlesOn.evenRows_iff {counts : List ℕ} {width : ℤ}
    (hsettles : SettlesOn counts width) :
    (counts.sum : ℤ) = width * counts.length ↔ EvenRows counts := by
  rcases hsettles with ⟨rfl, hzero⟩ | ⟨hne, n, hn, hwidth, hbefore⟩
  · rw [Int.zero_mul, Int.natCast_eq_zero]
    refine ⟨Or.inl, ?_⟩
    rintro (hnone | ⟨n, hn, hfound, -⟩)
    · exact hnone
    · exact absurd (hzero n hn) hfound
  · refine ⟨fun hfit => .inr ⟨n, hn, hwidth ▸ hne, hbefore, hwidth ▸ hfit⟩, ?_⟩
    rintro (hnone | ⟨m, hm, hfound, hearlier, hfit⟩)
    · exact absurd (hwidth ▸ average_eq_zero hnone n) hne
    · have hsame : m = n := by
        rcases lt_trichotomy m n with hlt | heq | hgt
        · exact absurd (hbefore m hlt) hfound
        · exact heq
        · exact absurd (hwidth ▸ hearlier n hgt) hne
      rw [← hwidth, ← hsame]
      exact hfit

/-- If there are codes on the first line, they set the width, and the lines have to hold
as many codes as if all were as long. -/
theorem evenRows_cons_iff {count : ℕ} (hpos : 0 < count) (hlt : count < 2 ^ 31)
    (counts : List ℕ) :
    EvenRows (count :: counts) ↔
      (count :: counts).sum = count * (count :: counts).length := by
  have hfirst : average [count] = count := by
    rw [average, List.sum_singleton, List.length_singleton, Nat.cast_one, Int.ediv_one,
      toInt32_of_lt hlt]
  have hsettles : SettlesOn (count :: counts) count := by
    refine .inr ⟨by omega, 1, Nat.le_add_left 1 _, hfirst, fun m hm => ?_⟩
    rw [Nat.lt_one_iff.mp hm, List.take_zero, average_nil]
  rw [← hsettles.evenRows_iff, ← Nat.cast_mul, Nat.cast_inj]

/-- A rectangle is read whole if its pixels are counted by an `int`. -/
theorem fillsRectangle_iff {image : Decoded} (hheight : 0 ≤ image.height) :
    image.FillsRectangle ↔
      image.pixels.length ≤ 2 ^ 31 ∧
        (image.pixels.length : ℤ) = image.width * image.height := by
  obtain ⟨pixels, width, height⟩ := image
  obtain ⟨height, rfl⟩ := Int.eq_ofNat_of_zero_le hheight
  have hscan (harea : (pixels.length : ℤ) = width * height) :
      scan ⟨pixels, width, height⟩ = .ok pixels ↔ pixels.length ≤ 2 ^ 31 := by
    rcases Nat.eq_zero_or_pos height with rfl | hpos
    · have hnil : pixels = [] := List.length_eq_zero_iff.mp (by omega)
      subst hnil
      exact iff_of_true rfl (Nat.zero_le _)
    · have hwidth : 0 ≤ width := by
        by_contra hnegative
        have hproduct := mul_neg_of_neg_of_pos (not_le.mp hnegative) (Int.natCast_pos.mpr hpos)
        omega
      obtain ⟨width, rfl⟩ := Int.eq_ofNat_of_zero_le hwidth
      have hlength : pixels.length = width * height := by exact_mod_cast harea
      rw [scan_eq_ok_iff, ← hlength, List.take_length]
      exact ⟨fun hboth => hboth.1.2, fun hsmall => ⟨⟨le_rfl, hsmall⟩, rfl⟩⟩
  constructor
  · rintro ⟨harea, -, hall⟩
    exact ⟨(hscan harea).mp hall, harea⟩
  · rintro ⟨hsmall, harea⟩
    have hall := (hscan harea).mpr hsmall
    exact ⟨harea, fun y x hy hx => exists_pixelAt_of_scan hall hy hx, hall⟩

/-- Exactly these texts decode to a rectangle. -/
theorem rectangular_iff (text : Bytes) :
    Rectangular text ↔
      (codeRows text).length < 2 ^ 31 ∧
      (∀ row ∈ codeRows text, ∀ code ∈ row, letterCount code < 2 ^ 31) ∧
      ((codeRows text).map List.length).sum ≤ 2 ^ 31 ∧
      EvenRows ((codeRows text).map List.length) := by
  rw [Rectangular, textToPixel_eq_codeRows, ← and_assoc, ← exists_foldlM_readRow_iff]
  have hfit (image : Decoded) (hrun : (codeRows text).foldlM readRow ⟨[], 0, 0⟩ = .ok image) :
      image.FillsRectangle ↔ ((codeRows text).map List.length).sum ≤ 2 ^ 31 ∧
        EvenRows ((codeRows text).map List.length) := by
    have hreads := readsRows_of_foldlM hrun
    have hheight : 0 ≤ image.height := hreads.height ▸ Int.natCast_nonneg _
    rw [fillsRectangle_iff hheight, hreads.pixels, hreads.height, ← hreads.width.evenRows_iff,
      List.length_map]
  refine ⟨fun ⟨image, hrun, hfills⟩ => ?_, fun ⟨⟨image, hrun⟩, heven⟩ => ?_⟩
  · exact ⟨⟨image, hrun⟩, (hfit image hrun).mp hfills⟩
  · exact ⟨image, hrun, (hfit image hrun).mpr heven⟩

/-- Two codes above one: the second row is read behind the end of the pixels. -/
theorem not_rectangular_ragged :
    textToPixel (ascii "R R\nR") = .ok ⟨[red, red, red], 2, 2⟩ ∧
      pixelAt [red, red, red] 2 1 1 = undefined ∧ ¬ Rectangular (ascii "R R\nR") := by
  have hread : textToPixel (ascii "R R\nR") = .ok ⟨[red, red, red], 2, 2⟩ := by decide
  refine ⟨hread, by decide, fun ⟨image, himage, hfills⟩ => ?_⟩
  rw [hread] at himage
  cases himage
  exact absurd hfills.length (by decide)

end Dht
