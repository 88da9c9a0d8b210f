/-
# Where the BMP reader looks

`readBMP` takes the width, the height and the bits per pixel from the file and checks
none of them. Two sizes and two indices are computed from these three numbers modulo
`2 ^ 32`. This file says for which headers every index stays inside its vector.
-/

import Dht.Core.Guarded
import Dht.Image.Bmp

namespace Dht

/-! ## Guards of the loops -/

namespace BmpInfo

variable (info : BmpInfo)

/-- The number of data bytes the reader makes room for. -/
def dataSize : ℤ := toInt32 (info.height * info.rowSize)

/-- The number of pixels the reader makes room for. -/
def pixelCount : ℤ := toInt32 (info.width * info.height)

/-- The number of turns of the outer loop. -/
def rows : ℕ := (toInt32 (info.height - 1) + 1).toNat

/-- The indices of one turn are inside vectors of the given lengths. -/
def InBounds (data pixels : ℕ) (y x : ℕ) : Prop :=
  InRange data (info.source y x) ∧ (24 ≤ info.bitsPerPixel → InRange data (info.source y x + 2)) ∧
    InRange pixels (info.target y x)

end BmpInfo

/-- A pixel needs its index, and the two behind it if it has three colours. -/
theorem guarded_bmpPixel (imageData : Bytes) (bitsPerPixel idx : ℤ) :
    Guarded (InRange imageData.length idx ∧
        (24 ≤ bitsPerPixel → InRange imageData.length (idx + 2)))
      (fun _ => True) (bmpPixel imageData bitsPerPixel idx) := by
  have hread (index : ℤ) := guarded_vectorAt imageData index
  rw [bmpPixel]
  split
  · next hcolour =>
      have hall := (hread (idx + 2)).bind fun r _ => (hread (idx + 1)).bind fun g _ =>
        (hread idx).bind fun b _ => Guarded.ok (⟨r, g, b⟩ : RGB)
      apply hall.congr
      constructor
      · intro hreads
        exact ⟨hreads.2.2.1, fun _ => hreads.1⟩
      · rintro ⟨hzero, htwo⟩
        refine ⟨htwo hcolour, ⟨?_, ?_⟩, hzero, trivial⟩
        · exact le_trans hzero.1 (by omega)
        · exact lt_trans (by omega) (htwo hcolour).2
  · next hgrey =>
      have hall := (hread idx).bind fun grey _ => Guarded.ok (⟨grey, grey, grey⟩ : RGB)
      apply hall.congr
      constructor
      · intro hread
        exact ⟨hread.1, fun hcolour => absurd hcolour hgrey⟩
      · intro hreads
        exact ⟨hreads.1, trivial⟩

section Loops

variable (info : BmpInfo) (imageData : Bytes) {pixels : List RGB} {count : ℕ}

theorem guarded_readBmpPixel (hcount : pixels.length = count) (y x : ℕ) :
    Guarded (info.InBounds imageData.length count y x) (fun pixels => pixels.length = count)
      (readBmpPixel info imageData y pixels x) := by
  subst hcount
  have hall := (guarded_bmpPixel imageData info.bitsPerPixel (info.source y x)).bind
    fun color _ => guarded_vectorSet pixels (info.target y x) color
  exact hall.congr and_assoc

theorem guarded_readBmpRow (hcount : pixels.length = count) (y : ℕ) :
    Guarded (∀ x ∈ List.range info.width.toNat, info.InBounds imageData.length count y x)
      (fun pixels => pixels.length = count) (readBmpRow info imageData pixels y) :=
  Guarded.foldlM (fun x _ _ hstored => guarded_readBmpPixel info imageData hstored y x) hcount

/-- Both loops are defined exactly if every turn is. -/
theorem guarded_readBmpRows (hcount : pixels.length = count) :
    Guarded (∀ y < info.rows, ∀ x < info.width.toNat, info.InBounds imageData.length count y x)
      (fun pixels => pixels.length = count)
      ((List.range info.rows).reverse.foldlM (readBmpRow info imageData) pixels) := by
  have hturns : ∀ y ∈ (List.range info.rows).reverse, ∀ stored : List RGB,
      stored.length = count → Guarded _ _ (readBmpRow info imageData stored y) :=
    fun y _ _ hstored => guarded_readBmpRow info imageData hstored y
  apply (Guarded.foldlM hturns hcount).congr
  simp only [List.mem_reverse, List.mem_range]

end Loops

theorem length_bmpImageData {info : BmpInfo} {contents imageData : Bytes}
    (hdata : bmpImageData info contents = .ok imageData) :
    imageData.length = info.dataSize.toNat := by
  rw [bmpImageData, newVector] at hdata
  split at hdata
  · cases hdata
  · rw [ok_bind] at hdata
    cases hdata
    rw [Buffer.length_overwrite, List.length_replicate]
    · rfl
    · rw [Nat.zero_add]
      exact Buffer.length_slice_le _ _ _

/-- The reader throws, or all of its turns stay inside both vectors. -/
theorem readBMP_ne_undefined_iff_inBounds {contents : Bytes} (hwhole : 54 ≤ contents.length) :
    readBMP contents ≠ undefined ↔
      (bmpInfo contents).dataSize < 0 ∨ (bmpInfo contents).pixelCount < 0 ∨
        ∀ y < (bmpInfo contents).rows, ∀ x < (bmpInfo contents).width.toNat,
          (bmpInfo contents).InBounds (bmpInfo contents).dataSize.toNat
            (bmpInfo contents).pixelCount.toNat y x := by
  rw [readBMP, if_neg (by omega)]
  dsimp only
  generalize bmpInfo contents = info
  by_cases hdata : info.dataSize < 0
  · have hthrows : bmpImageData info contents = .error .lengthError := by
      rw [bmpImageData, ← BmpInfo.dataSize, newVector, if_pos hdata]
      rfl
    rw [hthrows]
    refine ⟨fun _ => .inl hdata, fun _ hundefined => ?_⟩
    cases hundefined
  · have hreturns : ∃ imageData, bmpImageData info contents = .ok imageData := by
      rw [bmpImageData, ← BmpInfo.dataSize, newVector, if_neg hdata]
      exact ⟨_, rfl⟩
    obtain ⟨imageData, himage⟩ := hreturns
    rw [himage, ok_bind, readBmpRows, ← BmpInfo.pixelCount, ← BmpInfo.rows,
      ← length_bmpImageData himage]
    by_cases hpixels : info.pixelCount < 0
    · rw [newVector, if_pos hpixels]
      refine ⟨fun _ => .inr (.inl hpixels), fun _ hundefined => ?_⟩
      cases hundefined
    · have hguarded := (guarded_readBmpRows info imageData
        (List.length_replicate (n := info.pixelCount.toNat) (a := (⟨0, 0, 0⟩ : RGB)))).bind
        fun pixels _ => Guarded.ok (⟨pixels, info.width, info.height⟩ : Decoded)
      rw [newVector, if_neg hpixels, ok_bind]
      refine hguarded.ne_undefined_iff.trans ?_
      constructor
      · exact fun hturns => .inr (.inr hturns.1)
      · rintro (hnegative | hnegative | hturns)
        · exact absurd hnegative hdata
        · exact absurd hnegative hpixels
        · exact ⟨hturns, trivial⟩

/-! ## The numbers of a header -/

/-- What holds of the fields of every file. -/
structure BmpInfo.WellFormed (info : BmpInfo) : Prop where
  width_lt : info.width < 2 ^ 31
  height_ge : -2 ^ 31 ≤ info.height
  height_lt : info.height < 2 ^ 31
  bits_ge : -2 ^ 15 ≤ info.bitsPerPixel
  bits_lt : info.bitsPerPixel < 2 ^ 15
  row_eq : info.rowSize = readRowSize info.bitsPerPixel info.width

theorem intAt_bounds (header : Bytes) (offset : ℕ) :
    -2 ^ 31 ≤ intAt header offset ∧ intAt header offset < 2 ^ 31 := by
  rw [intAt]
  exact toInt32_bounds _

theorem shortAt_bounds (header : Bytes) (offset : ℕ) :
    -2 ^ 15 ≤ shortAt header offset ∧ shortAt header offset < 2 ^ 15 := by
  rw [shortAt, toInt16]
  split <;> omega

theorem wellFormed_bmpInfo (header : Bytes) : (bmpInfo header).WellFormed := by
  constructor <;> dsimp only [bmpInfo]
  · exact (intAt_bounds header 18).2
  · exact (intAt_bounds header 22).1
  · exact (intAt_bounds header 22).2
  · exact (shortAt_bounds header 28).1
  · exact (shortAt_bounds header 28).2

/-- Division by a literal rounds towards zero. -/
theorem tdiv_bounds (value : ℤ) {divisor : ℤ} (hpos : 0 < divisor) :
    (0 ≤ value ∧ value.tdiv divisor * divisor ≤ value ∧
      value < value.tdiv divisor * divisor + divisor) ∨
    (value < 0 ∧ value ≤ value.tdiv divisor * divisor ∧
      value.tdiv divisor * divisor < value + divisor) := by
  have hsum := Int.tdiv_mul_add_tmod value divisor
  have hlow := Int.lt_tmod_of_pos value hpos
  have hhigh := Int.tmod_lt_of_pos value hpos
  rcases le_or_gt 0 value with hnonneg | hnegative
  · have hrest := Int.tmod_nonneg divisor hnonneg
    exact .inl ⟨hnonneg, by omega, by omega⟩
  · have hrest : value.tmod divisor ≤ 0 := by
      have hopposite := Int.tmod_nonneg divisor (show 0 ≤ -value by omega)
      rw [Int.neg_tmod] at hopposite
      omega
    exact .inr ⟨hnegative, by omega, by omega⟩

/-- The bits of a row, rounded to words. -/
theorem readRowSize_eq_tdiv (bitsPerPixel width : ℤ) :
    readRowSize bitsPerPixel width = (toInt32 (bitsPerPixel * width + 31)).tdiv 32 * 4 := by
  have hbounds := toInt32_bounds (bitsPerPixel * width + 31)
  have hquotient := tdiv_bounds (toInt32 (bitsPerPixel * width + 31)) (show (0 : ℤ) < 32 by decide)
  rw [readRowSize, toInt32_toInt32_add]
  apply toInt32_of_bounds
  · omega
  · omega

namespace BmpInfo

variable {info : BmpInfo}

theorem source_eq_toInt32 (y x : ℤ) :
    info.source y x = toInt32 (y * info.rowSize + x * info.bitsPerPixel.tdiv 8) := by
  rw [source, toInt32_toInt32_add, toInt32_add_toInt32]

theorem target_eq_toInt32 (y x : ℤ) :
    info.target y x = toInt32 ((info.height - 1 - y) * info.width + x) := by
  rw [target, toInt32_toInt32_add, sub_eq_add_neg (toInt32 _), toInt32_toInt32_add,
    ← sub_eq_add_neg, ← toInt32_toInt32_add, toInt32_toInt32_mul, toInt32_toInt32_add]

/-- A header whose rows and pixels fit into `int`s. The steps along a row either stay on
the first byte or stay inside the row. -/
structure Fits (info : BmpInfo) : Prop where
  width_pos : 0 < info.width
  height_pos : 0 < info.height
  area_lt : info.width * info.height < 2 ^ 31
  row_pos : 0 < info.rowSize
  data_lt : info.height * info.rowSize < 2 ^ 31
  steps : -8 < info.bitsPerPixel ∧ info.bitsPerPixel < 8 ∨
    8 ≤ info.bitsPerPixel ∧ info.bitsPerPixel * info.width + 31 < 2 ^ 31

/-! ### Headers that fit -/

/-- Along a row the reader stays inside it. -/
theorem Fits.row_bounds (hinfo : info.WellFormed) (hfits : info.Fits) {x : ℤ} (hnonneg : 0 ≤ x)
    (hx : x < info.width) :
    0 ≤ x * info.bitsPerPixel.tdiv 8 ∧ x * info.bitsPerPixel.tdiv 8 < info.rowSize ∧
      (24 ≤ info.bitsPerPixel → x * info.bitsPerPixel.tdiv 8 + 2 < info.rowSize) := by
  have hstep := tdiv_bounds info.bitsPerPixel (show (0 : ℤ) < 8 by decide)
  have hrow := hfits.row_pos
  rcases hfits.steps with ⟨hlow, hhigh⟩ | ⟨hbyte, hbits⟩
  · have hzero : info.bitsPerPixel.tdiv 8 = 0 := by omega
    rw [hzero, mul_zero]
    exact ⟨le_refl 0, hrow, by omega⟩
  · set step := info.bitsPerPixel.tdiv 8
    have hproduct : 0 ≤ info.bitsPerPixel * info.width :=
      mul_nonneg (by omega) (le_of_lt hfits.width_pos)
    have hwords := tdiv_bounds (info.bitsPerPixel * info.width + 31) (show (0 : ℤ) < 32 by decide)
    have hrowEq : info.rowSize = (info.bitsPerPixel * info.width + 31).tdiv 32 * 4 := by
      rw [hinfo.row_eq, readRowSize_eq_tdiv, toInt32_of_bounds (by omega) hbits]
    have hnext : (x + 1) * step ≤ info.width * step :=
      mul_le_mul_of_nonneg_right (by omega) (by omega)
    have hwhole : info.width * step * 8 ≤ info.width * info.bitsPerPixel := by
      rw [mul_assoc]
      exact mul_le_mul_of_nonneg_left (by omega) (le_of_lt hfits.width_pos)
    have hfirst : 0 ≤ x * step := mul_nonneg hnonneg (by omega)
    rw [mul_comm info.width info.bitsPerPixel] at hwhole
    rw [add_mul, one_mul] at hnext
    exact ⟨hfirst, by omega, by omega⟩

theorem Fits.inBounds (hinfo : info.WellFormed) (hfits : info.Fits) {y x : ℕ}
    (hy : (y : ℤ) < info.height) (hx : (x : ℤ) < info.width) :
    info.InBounds info.dataSize.toNat info.pixelCount.toNat y x := by
  obtain ⟨hstart, hend, hcolour⟩ := hfits.row_bounds hinfo (Int.natCast_nonneg x) hx
  have hdataPos : 0 < info.height * info.rowSize := mul_pos hfits.height_pos hfits.row_pos
  have hareaPos : 0 < info.width * info.height := mul_pos hfits.width_pos hfits.height_pos
  have hdataLt := hfits.data_lt
  have hareaLt := hfits.area_lt
  have hdata : info.dataSize = info.height * info.rowSize :=
    toInt32_of_bounds (by omega) hdataLt
  have hpixels : info.pixelCount = info.width * info.height :=
    toInt32_of_bounds (by omega) hareaLt
  have hrows : (y + 1) * info.rowSize ≤ info.height * info.rowSize :=
    mul_le_mul_of_nonneg_right (by omega) (le_of_lt hfits.row_pos)
  have hfront : 0 ≤ y * info.rowSize := mul_nonneg (by omega) (le_of_lt hfits.row_pos)
  have hflip : 0 ≤ (info.height - 1 - y) * info.width :=
    mul_nonneg (by omega) (le_of_lt hfits.width_pos)
  have hlast : (info.height - 1 - y + 1) * info.width ≤ info.height * info.width :=
    mul_le_mul_of_nonneg_right (by omega) (le_of_lt hfits.width_pos)
  rw [add_mul, one_mul] at hrows hlast
  rw [mul_comm info.height info.width] at hlast
  have hsource : info.source y x = y * info.rowSize + x * info.bitsPerPixel.tdiv 8 := by
    rw [source_eq_toInt32]
    exact toInt32_of_bounds (by omega) (by omega)
  have htarget : info.target y x = (info.height - 1 - y) * info.width + x := by
    rw [target_eq_toInt32]
    exact toInt32_of_bounds (by omega) (by omega)
  rw [InBounds, InRange, InRange, InRange, hsource, htarget, hdata, hpixels]
  exact ⟨⟨by omega, by omega⟩, fun hbits => ⟨by omega, by have := hcolour hbits; omega⟩,
    ⟨by omega, by omega⟩⟩

/-! ### Headers that do not -/

/-- Between `2 ^ 31` and `2 ^ 32` the conversion gives a negative number. -/
theorem toInt32_neg {value : ℤ} (hlow : 2 ^ 31 ≤ value) (hhigh : value < 2 ^ 32) :
    toInt32 value < 0 := by
  unfold toInt32
  split <;> omega

/-- The first step that leaves a row lands less than a step behind it. -/
theorem exists_first_multiple {step row bound : ℤ} (hstep : 0 < step) (hrow : 0 < row)
    (hreach : row ≤ bound * step) :
    ∃ x, 0 < x ∧ x ≤ bound ∧ row ≤ x * step ∧ x * step < row + step := by
  have hdivision := Int.ediv_mul_add_emod (row - 1) step
  have hrestNonneg := Int.emod_nonneg (row - 1) (ne_of_gt hstep)
  have hrestLt := Int.emod_lt_of_pos (row - 1) hstep
  have hquotient : 0 ≤ (row - 1) / step := Int.ediv_nonneg (by omega) (le_of_lt hstep)
  have hinside : (row - 1) / step < bound := by
    apply Int.ediv_lt_of_lt_mul hstep
    omega
  refine ⟨(row - 1) / step + 1, by omega, by omega, ?_⟩
  rw [add_mul, one_mul]
  omega

section Necessary

variable (hwidth : 0 < info.width)

include hwidth

/-- The pixel whose index is their number is written if that number is too small. -/
theorem area_lt_of_target (hcount : 0 ≤ info.pixelCount)
    (htarget : ∀ y x : ℤ, 0 ≤ y → y < info.height → 0 ≤ x → x < info.width →
      info.target y x < info.pixelCount) :
    info.width * info.height < 2 ^ 31 := by
  by_contra hlarge
  have hsmall : info.pixelCount < 2 ^ 31 := (toInt32_bounds _).2
  have hrow : info.pixelCount / info.width < info.height := by
    apply Int.ediv_lt_of_lt_mul hwidth
    rw [mul_comm]
    omega
  have hrowNonneg : 0 ≤ info.pixelCount / info.width := Int.ediv_nonneg hcount (le_of_lt hwidth)
  have hcolumn := Int.emod_nonneg info.pixelCount (ne_of_gt hwidth)
  have hcolumnLt := Int.emod_lt_of_pos info.pixelCount hwidth
  have hindex := htarget (info.height - 1 - info.pixelCount / info.width)
    (info.pixelCount % info.width) (by omega) (by omega) hcolumn hcolumnLt
  rw [target_eq_toInt32, sub_sub_cancel, Int.ediv_mul_add_emod,
    toInt32_of_bounds (by omega) hsmall] at hindex
  exact lt_irrefl _ hindex

variable (hsource : ∀ y x : ℤ, 0 ≤ y → y < info.height → 0 ≤ x → x < info.width →
  InRange info.dataSize.toNat (info.source y x))

include hsource

/-- A row size of zero leaves no data, a negative one goes backwards. -/
theorem row_pos_of_source (hdata : 0 ≤ info.dataSize) (hheight : 0 < info.height)
    (hinfo : info.WellFormed) : 0 < info.rowSize := by
  have hbounds : -2 ^ 31 ≤ info.rowSize ∧ info.rowSize < 2 ^ 31 := by
    rw [hinfo.row_eq, readRowSize]
    exact toInt32_bounds _
  rcases lt_trichotomy info.rowSize 0 with hnegative | hzero | hpositive
  · rcases eq_or_lt_of_le (Int.add_one_le_of_lt hheight) with hone | hmore
    · rw [dataSize, ← hone, zero_add, one_mul, toInt32_of_bounds hbounds.1 hbounds.2] at hdata
      omega
    · have hsecond := (hsource 1 0 (by decide) (by omega) (by decide) hwidth).1
      rw [source_eq_toInt32, one_mul, zero_mul, add_zero,
        toInt32_of_bounds hbounds.1 hbounds.2] at hsecond
      omega
  · have hempty : info.dataSize = 0 := by
      rw [dataSize, hzero, mul_zero]
      rfl
    have hfirst := hsource 0 0 (by decide) hheight (by decide) hwidth
    rw [hempty, InRange] at hfirst
    omega
  · exact hpositive

/-- Rows that do not fit into an `int` contain one whose offset is negative. -/
theorem data_lt_of_source (hdata : 0 ≤ info.dataSize) (hrow : 0 < info.rowSize)
    (hrowLt : info.rowSize < 2 ^ 31) : info.height * info.rowSize < 2 ^ 31 := by
  by_contra hlarge
  -- the first row that starts at or behind `2 ^ 31`
  set y := (2 ^ 31 - 1) / info.rowSize + 1 with hy
  have hdivision := Int.ediv_mul_add_emod (2 ^ 31 - 1) info.rowSize
  have hrestNonneg := Int.emod_nonneg (2 ^ 31 - 1) (ne_of_gt hrow)
  have hrestLt := Int.emod_lt_of_pos (2 ^ 31 - 1) hrow
  have hquotient : 0 ≤ (2 ^ 31 - 1) / info.rowSize :=
    Int.ediv_nonneg (by decide) (le_of_lt hrow)
  have hstart : y * info.rowSize = (2 ^ 31 - 1) / info.rowSize * info.rowSize + info.rowSize := by
    rw [hy, add_mul, one_mul]
  have hnegative : toInt32 (y * info.rowSize) < 0 := toInt32_neg (by omega) (by omega)
  rcases lt_trichotomy y info.height with hinside | hlast | hbehind
  · have hread := (hsource y 0 (by omega) hinside (le_refl 0) hwidth).1
    rw [source_eq_toInt32, zero_mul, add_zero] at hread
    omega
  · rw [hlast] at hnegative
    exact absurd hdata (not_le_of_gt hnegative)
  · have hbefore : info.height * info.rowSize ≤ (2 ^ 31 - 1) / info.rowSize * info.rowSize :=
      mul_le_mul_of_nonneg_right (by omega) (le_of_lt hrow)
    omega

/-- A step backwards leaves the data in the first row. One that was rounded from more bits
than an `int` holds leaves them in the last. -/
theorem steps_of_source (hheight : 0 < info.height) (hinfo : info.WellFormed)
    (hrow : 0 < info.rowSize) (hdataLt : info.height * info.rowSize < 2 ^ 31) :
    -8 < info.bitsPerPixel ∧ info.bitsPerPixel < 8 ∨
      8 ≤ info.bitsPerPixel ∧ info.bitsPerPixel * info.width + 31 < 2 ^ 31 := by
  have hstep := tdiv_bounds info.bitsPerPixel (show (0 : ℤ) < 8 by decide)
  have hwords := tdiv_bounds (toInt32 (info.bitsPerPixel * info.width + 31))
    (show (0 : ℤ) < 32 by decide)
  have hrowEq := hinfo.row_eq
  rw [readRowSize_eq_tdiv] at hrowEq
  have hbits := hinfo.bits_lt
  set step := info.bitsPerPixel.tdiv 8 with hstepEq
  rcases lt_or_ge (-8) info.bitsPerPixel with hlow | hbackwards
  · rcases lt_or_ge info.bitsPerPixel 8 with hhigh | hbyte
    · exact .inl ⟨hlow, hhigh⟩
    · refine .inr ⟨hbyte, ?_⟩
      by_contra hlarge
      obtain ⟨k, hk⟩ := exists_toInt32_eq (info.bitsPerPixel * info.width + 31)
      have hbounds := toInt32_bounds (info.bitsPerPixel * info.width + 31)
      have hwrapped : 2 ^ 32 < info.bitsPerPixel * info.width := by omega
      have hscaled : info.bitsPerPixel * info.width ≤ step * 15 * info.width :=
        mul_le_mul_of_nonneg_right (by omega) (le_of_lt hwidth)
      have hreach : info.rowSize ≤ (info.width - 1) * step := by
        rw [sub_mul, one_mul, mul_comm info.width]
        rw [mul_right_comm] at hscaled
        omega
      -- the first step that leaves a row, taken in the last one
      obtain ⟨x, hxPos, hxLe, hbehind, hnear⟩ := exists_first_multiple (by omega) hrow hreach
      have hdataPos : 0 < info.height * info.rowSize := mul_pos hheight hrow
      have hdataEq : info.dataSize = info.height * info.rowSize :=
        toInt32_of_bounds (by omega) hdataLt
      have hread := hsource (info.height - 1) x (by omega) (by omega) (by omega) (by omega)
      rw [source_eq_toInt32, ← hstepEq, hdataEq, sub_mul, one_mul, InRange] at hread
      rcases lt_or_ge (info.height * info.rowSize - info.rowSize + x * step) (2 ^ 31)
        with hsmall | hwraps
      · rw [toInt32_of_bounds (by omega) hsmall] at hread
        omega
      · have hnegative := toInt32_neg hwraps (by omega)
        omega
  · have hmore : 1 < info.width := by
      by_contra hone
      have hwidthEq : info.width = 1 := by omega
      have hlow := hinfo.bits_ge
      rw [hwidthEq, mul_one, toInt32_of_bounds (by omega) (by omega)] at hwords hrowEq
      omega
    have hlow := hinfo.bits_ge
    have hread := (hsource 0 1 (le_refl 0) hheight (by decide) hmore).1
    rw [source_eq_toInt32, ← hstepEq, zero_mul, zero_add, one_mul,
      toInt32_of_bounds (by omega) (by omega)] at hread
    omega

end Necessary

/-- Where there are turns and both vectors can be made, only headers that fit are safe. -/
theorem inBounds_iff_fits (hinfo : info.WellFormed) (hwidth : 0 < info.width)
    (hheight : 0 < info.height) (hdata : 0 ≤ info.dataSize) (hpixels : 0 ≤ info.pixelCount) :
    (∀ y x : ℕ, (y : ℤ) < info.height → (x : ℤ) < info.width →
      info.InBounds info.dataSize.toNat info.pixelCount.toNat y x) ↔ info.Fits := by
  constructor
  · intro hall
    have hindices (y x : ℤ) (hy : 0 ≤ y) (hheight : y < info.height) (hx : 0 ≤ x)
        (hwidth : x < info.width) :
        InRange info.dataSize.toNat (info.source y x) ∧ info.target y x < info.pixelCount := by
      lift y to ℕ using hy
      lift x to ℕ using hx
      obtain ⟨hsource, -, -, htarget⟩ := hall y x hheight hwidth
      exact ⟨hsource, by omega⟩
    have hsource := fun y x hy hheight hx hwidth => (hindices y x hy hheight hx hwidth).1
    have htarget := fun y x hy hheight hx hwidth => (hindices y x hy hheight hx hwidth).2
    have hrow := row_pos_of_source hwidth hsource hdata hheight hinfo
    have hrowLt : info.rowSize < 2 ^ 31 := by
      rw [hinfo.row_eq, readRowSize]
      exact (toInt32_bounds _).2
    have hdataLt := data_lt_of_source hwidth hsource hdata hrow hrowLt
    exact ⟨hwidth, hheight, area_lt_of_target hwidth hpixels htarget, hrow, hdataLt,
      steps_of_source hwidth hsource hheight hinfo hrow hdataLt⟩
  · intro hfits y x hy hx
    exact hfits.inBounds hinfo hy hx

/-- The lowest height wraps to the largest number of turns, and leaves no data for them. -/
theorem dataSize_of_lowest (hinfo : info.WellFormed) (hheight : info.height = -2 ^ 31) :
    info.dataSize = 0 := by
  have hproduct : info.height * info.rowSize = 0 + 2 ^ 32 *
      (-2 * (toInt32 (info.bitsPerPixel * info.width + 31)).tdiv 32) := by
    rw [hinfo.row_eq, readRowSize_eq_tdiv, hheight]
    ring
  rw [dataSize, hproduct, toInt32_add_mul]
  rfl

end BmpInfo

/-! ## The headers that are read safely -/

/-- Nothing is visited, one of the sizes is negative modulo `2 ^ 32`, or everything fits. -/
def HeaderInBounds (width height bitsPerPixel : ℤ) : Prop :=
  width ≤ 0 ∨ (-2 ^ 31 < height ∧ height ≤ 0) ∨
    2 ^ 31 ≤ height * readRowSize bitsPerPixel width % 2 ^ 32 ∨
    2 ^ 31 ≤ width * height % 2 ^ 32 ∨
    (0 < height ∧ width * height < 2 ^ 31 ∧ 0 < readRowSize bitsPerPixel width ∧
      height * readRowSize bitsPerPixel width < 2 ^ 31 ∧
      (-8 < bitsPerPixel ∧ bitsPerPixel < 8 ∨
        8 ≤ bitsPerPixel ∧ bitsPerPixel * width + 31 < 2 ^ 31))

theorem toInt32_neg_iff_emod (value : ℤ) : toInt32 value < 0 ↔ 2 ^ 31 ≤ value % 2 ^ 32 := by
  unfold toInt32
  split <;> omega

namespace BmpInfo

variable {info : BmpInfo}

theorem rows_eq_zero (hlow : -2 ^ 31 < info.height) (hhigh : info.height ≤ 0) :
    info.rows = 0 := by
  rw [rows, toInt32_of_bounds (by omega) (by omega)]
  omega

theorem rows_pos_of_lowest (hheight : info.height = -2 ^ 31) : 0 < info.rows := by
  rw [rows, hheight]
  decide

variable (hinfo : info.WellFormed)

include hinfo

theorem headerInBounds_iff :
    HeaderInBounds info.width info.height info.bitsPerPixel ↔
      info.width ≤ 0 ∨ (-2 ^ 31 < info.height ∧ info.height ≤ 0) ∨
        info.dataSize < 0 ∨ info.pixelCount < 0 ∨ info.Fits := by
  rw [HeaderInBounds, ← hinfo.row_eq, dataSize, pixelCount, toInt32_neg_iff_emod,
    toInt32_neg_iff_emod]
  constructor
  · rintro (hwidth | hheight | hdata | hpixels | ⟨hheight, harea, hrow, hdata, hsteps⟩)
    · exact .inl hwidth
    · exact .inr (.inl hheight)
    · exact .inr (.inr (.inl hdata))
    · exact .inr (.inr (.inr (.inl hpixels)))
    · rcases le_or_gt info.width 0 with hwidth | hwidth
      · exact .inl hwidth
      · exact .inr (.inr (.inr (.inr ⟨hwidth, hheight, harea, hrow, hdata, hsteps⟩)))
  · rintro (hwidth | hheight | hdata | hpixels | hfits)
    · exact .inl hwidth
    · exact .inr (.inl hheight)
    · exact .inr (.inr (.inl hdata))
    · exact .inr (.inr (.inr (.inl hpixels)))
    · exact .inr (.inr (.inr (.inr ⟨hfits.height_pos, hfits.area_lt, hfits.row_pos,
        hfits.data_lt, hfits.steps⟩)))

/-- The turns of the loops, if there are any. -/
theorem rows_eq (hheight : 0 < info.height) : (info.rows : ℤ) = info.height := by
  have hlt := hinfo.height_lt
  rw [rows, toInt32_of_bounds (by omega) (by omega)]
  omega

/-- All turns are in bounds, or the reader throws, exactly for a safe header. -/
theorem turns_inBounds_iff :
    (info.dataSize < 0 ∨ info.pixelCount < 0 ∨ ∀ y < info.rows, ∀ x < info.width.toNat,
        info.InBounds info.dataSize.toNat info.pixelCount.toNat y x) ↔
      HeaderInBounds info.width info.height info.bitsPerPixel := by
  rw [headerInBounds_iff hinfo]
  by_cases hdata : info.dataSize < 0
  · exact ⟨fun _ => .inr (.inr (.inl hdata)), fun _ => .inl hdata⟩
  by_cases hpixels : info.pixelCount < 0
  · exact ⟨fun _ => .inr (.inr (.inr (.inl hpixels))), fun _ => .inr (.inl hpixels)⟩
  rcases le_or_gt info.width 0 with hwidth | hwidth
  · refine ⟨fun _ => .inl hwidth, fun _ => .inr (.inr fun y _ x hx => ?_)⟩
    omega
  rcases lt_or_ge 0 info.height with hheight | hheight
  · have hrows := rows_eq hinfo hheight
    have hiff := inBounds_iff_fits hinfo hwidth hheight (not_lt.mp hdata) (not_lt.mp hpixels)
    constructor
    · rintro (hnegative | hnegative | hturns)
      · exact absurd hnegative hdata
      · exact absurd hnegative hpixels
      · refine .inr (.inr (.inr (.inr (hiff.mp fun y x hy hx => ?_))))
        exact hturns y (by omega) x (by omega)
    · rintro (hnone | hnone | hnegative | hnegative | hfits)
      · omega
      · omega
      · exact absurd hnegative hdata
      · exact absurd hnegative hpixels
      · exact .inr (.inr fun y hy x hx => hiff.mpr hfits y x (by omega) (by omega))
  · rcases eq_or_lt_of_le hinfo.height_ge with hlowest | hlow
    · have hrows := rows_pos_of_lowest hlowest.symm
      have hempty := dataSize_of_lowest hinfo hlowest.symm
      constructor
      · rintro (hnegative | hnegative | hturns)
        · exact absurd hnegative hdata
        · exact absurd hnegative hpixels
        · have hfirst := (hturns 0 hrows 0 (by omega)).1
          rw [hempty, InRange] at hfirst
          omega
      · rintro (hnone | hnone | hnegative | hnegative | hfits)
        · omega
        · omega
        · exact absurd hnegative hdata
        · exact absurd hnegative hpixels
        · exact absurd hfits.height_pos (not_lt.mpr hheight)
    · have hrows := rows_eq_zero hlow hheight
      refine ⟨fun _ => .inr (.inl ⟨hlow, hheight⟩), fun _ => .inr (.inr fun y hy => ?_)⟩
      omega

end BmpInfo

/-- The reader stays inside its vectors, or throws, exactly for these headers. -/
theorem readBMP_ne_undefined_iff {contents : Bytes} (hwhole : 54 ≤ contents.length) :
    readBMP contents ≠ undefined ↔
      HeaderInBounds (intAt contents 18) (intAt contents 22) (shortAt contents 28) := by
  have hturns := BmpInfo.turns_inBounds_iff (wellFormed_bmpInfo contents)
  dsimp only [bmpInfo] at hturns
  rw [readBMP_ne_undefined_iff_inBounds hwhole]
  dsimp only [bmpInfo]
  exact hturns

/-- One pixel of no bits. -/
def noBits : Bytes :=
  List.replicate 18 0 ++ [1, 0, 0, 0] ++ [1, 0, 0, 0] ++ List.replicate 28 0

/-- Its row takes no bytes, and yet one is read. -/
theorem not_readBMP_inBounds :
    ¬ ∀ contents : Bytes, 54 ≤ contents.length → readBMP contents ≠ undefined := by
  intro hall
  exact hall noBits (by decide) (by decide +kernel)

/-- One pixel of three bytes, whose data are missing. -/
theorem readBMP_ne_undefined_header : readBMP (bmpHeader 1 1 4 58) ≠ undefined :=
  (readBMP_ne_undefined_iff (by decide)).mpr (by rw [HeaderInBounds]; decide +kernel)

end Dht
