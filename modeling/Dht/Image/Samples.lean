/-
# Interleaved samples

The image libraries hand an image over row by row, a fixed number of channels to a pixel.
`readPNG` and `readJPEG` collect the rows in one vector and look the colours up by
position afterwards. All sizes and positions are products of `int`s, and all of them are
right exactly if the largest one is: the number of samples.
-/

import Dht.Core.Guarded
import Dht.Image.Text
import Dht.Lib.Buffer

namespace Dht

/-- `first * second * third`. -/
def intProduct (first second third : ℤ) : Outcome ℤ := do
  let part ← intResult (first * second)
  intResult (part * third)

/-- `y * width + x`. -/
def pixelIndex (width y x : ℤ) : Outcome ℤ := do
  let start ← intResult (y * width)
  intResult (start + x)

/-- `(y * width + x) * channels`. -/
def sampleIndex (width channels y x : ℤ) : Outcome ℤ := do
  let index ← pixelIndex width y x
  intResult (index * channels)

/-- A block of bytes stored from an address on. -/
def storeAt (vector : Bytes) (start : ℤ) (block : Bytes) : Outcome Bytes :=
  if 0 ≤ start ∧ start + block.length ≤ vector.length then
    .ok (Buffer.overwrite vector start.toNat block)
  else undefined

/-- The colour at `idx`, which is a `size_t`. -/
def colorAt (imageData : Bytes) (channels idx : ℤ) : Outcome RGB :=
  if 3 ≤ channels then do
    let r ← vectorAt imageData idx
    let g ← vectorAt imageData (idx + 1)
    let b ← vectorAt imageData (idx + 2)
    pure ⟨r, g, b⟩
  else do
    let grey ← vectorAt imageData idx
    pure ⟨grey, grey, grey⟩

/-- One turn of the inner loop. -/
def readSamplePixel (imageData : Bytes) (width channels : ℤ) (y : ℕ) (pixels : List RGB) (x : ℕ) :
    Outcome (List RGB) := do
  let idx ← sampleIndex width channels y x
  let color ← colorAt imageData channels idx
  let index ← pixelIndex width y x
  vectorSet pixels index color

/-- The two loops over the pixels. -/
def readSamples (imageData : Bytes) (width height channels : ℤ) (pixels : List RGB) :
    Outcome (List RGB) :=
  (List.range height.toNat).foldlM
    (fun pixels y =>
      (List.range width.toNat).foldlM (readSamplePixel imageData width channels y) pixels)
    pixels

/-- A write inside the bounds is an overwrite of one element. -/
theorem vectorSet_overwrite {α : Type} {vector : List α} {index : ℕ} {value : α}
    (hindex : index + [value].length ≤ vector.length) :
    vectorSet vector (index : ℤ) value = .ok (Buffer.overwrite vector index [value]) := by
  rw [List.length_singleton] at hindex
  rw [vectorSet_natCast hindex, Buffer.set_eq_overwrite hindex]

/-- Three elements, one after the other. -/
theorem vectorSet_three {α : Type} {vector : List α} {index : ℕ} (hfit : index + 3 ≤ vector.length)
    (first second third : α) :
    (do
      let vector ← vectorSet vector (index : ℤ) first
      let vector ← vectorSet vector ((index : ℤ) + 1) second
      vectorSet vector ((index : ℤ) + 2) third) =
      (.ok (Buffer.overwrite vector index [first, second, third]) : Outcome (List α)) := by
  have hone : (index : ℤ) + 1 = ((index + 1 : ℕ) : ℤ) := by simp
  have htwo : (index : ℤ) + 2 = ((index + 2 : ℕ) : ℤ) := by simp
  have hfirst : index + [first].length ≤ vector.length := by
    rw [List.length_singleton]
    omega
  have hpair : index + [first, second].length ≤ vector.length := by
    rw [List.length_cons, List.length_singleton]
    omega
  have hsecond : Buffer.overwrite (Buffer.overwrite vector index [first]) (index + 1) [second] =
      Buffer.overwrite vector index [first, second] := Buffer.overwrite_overwrite hfirst [second]
  rw [vectorSet_overwrite hfirst, ok_bind, hone,
    vectorSet_overwrite (by rw [Buffer.length_overwrite hfirst]; exact hpair), ok_bind, hsecond,
    htwo, vectorSet_overwrite
      (by rw [Buffer.length_overwrite hpair, List.length_singleton]; exact hfit)]
  exact congrArg Except.ok (Buffer.overwrite_overwrite hpair [third])

theorem guarded_storeAt (vector : Bytes) (start : ℤ) (block : Bytes) :
    Guarded (0 ≤ start ∧ start + block.length ≤ vector.length)
      (fun stored => stored.length = vector.length) (storeAt vector start block) := by
  rw [storeAt]
  split
  · next hinside =>
      refine .inl ⟨hinside, _, rfl, Buffer.length_overwrite ?_⟩
      omega
  · next houtside => exact .inr ⟨houtside, rfl⟩

/-! ## Products -/

/-- Every position a reader computes is the number it stands for, and every row and every
pixel lies inside its vector. -/
structure SamplesExact (width height channels : ℕ) : Prop where
  rows : ∀ y < height, intProduct y width channels = .ok (y * width * channels) ∧
    y * width * channels + width * channels ≤ width * height * channels
  indices : ∀ y < height, ∀ x < width,
    pixelIndex width y x = .ok (y * width + x) ∧ y * width + x < width * height
  positions : ∀ y < height, ∀ x < width,
    sampleIndex width channels y x = .ok ((y * width + x) * channels) ∧
      (y * width + x) * channels + channels ≤ width * height * channels

theorem intProduct_natCast {first second third : ℕ} (hpos : 0 < third)
    (hlt : first * second * third < 2 ^ 31) :
    intProduct first second third = .ok (first * second * third) := by
  have hpart : first * second < 2 ^ 31 :=
    lt_of_le_of_lt (Nat.le_mul_of_pos_right _ hpos) hlt
  rw [intProduct, ← Nat.cast_mul, intResult_natCast hpart, ok_bind, ← Nat.cast_mul,
    intResult_natCast hlt]

theorem lt_of_intProduct {first second third : ℕ} {result : ℤ}
    (hresult : intProduct first second third = .ok result) : first * second * third < 2 ^ 31 := by
  obtain ⟨part, hpart, hwhole⟩ := bind_eq_ok_iff.mp hresult
  have hvalue : part = (first : ℤ) * second := by
    rw [intResult] at hpart
    split at hpart
    · exact (Except.ok.inj hpart).symm
    · cases hpart
  have hlt := lt_of_intResult hwhole
  rw [hvalue] at hlt
  exact_mod_cast hlt

section Sizes

variable {width height : ℕ} {y x : ℕ} (hy : y < height)

include hy

theorem samples_row_le (width channels : ℕ) :
    y * width * channels + width * channels ≤ width * height * channels := by
  rw [← Nat.add_mul, ← Nat.succ_mul, Nat.mul_comm width]
  exact Nat.mul_le_mul_right _ (Nat.mul_le_mul_right _ hy)

variable (hx : x < width)

include hx

theorem index_lt_area : y * width + x < width * height := by
  have hend := samples_row_le hy width 1
  rw [Nat.mul_one, Nat.mul_one, Nat.mul_one] at hend
  exact lt_of_lt_of_le (Nat.add_lt_add_left hx _) hend

theorem position_end_le (channels : ℕ) :
    (y * width + x) * channels + channels ≤ width * height * channels := by
  rw [← Nat.succ_mul]
  exact Nat.mul_le_mul_right _ (index_lt_area hy hx)

theorem pixelIndex_natCast (harea : width * height < 2 ^ 31) :
    pixelIndex width y x = .ok (y * width + x) := by
  have hindex := index_lt_area hy hx
  have hstart : y * width < 2 ^ 31 := by omega
  rw [pixelIndex, ← Nat.cast_mul, intResult_natCast hstart, ok_bind, ← Nat.cast_add,
    intResult_natCast (by omega)]

theorem sampleIndex_natCast {channels : ℕ} (hpos : 0 < channels)
    (hlt : width * height * channels < 2 ^ 31) :
    sampleIndex width channels y x = .ok ((y * width + x) * channels) := by
  have harea : width * height < 2 ^ 31 := lt_of_le_of_lt (Nat.le_mul_of_pos_right _ hpos) hlt
  have hend := position_end_le hy hx channels
  rw [sampleIndex, pixelIndex_natCast hy hx harea, ok_bind, ← Nat.cast_mul, ← Nat.cast_add,
    ← Nat.cast_mul, intResult_natCast (by omega)]

end Sizes

/-- The number of samples decides about all of them. -/
theorem samplesExact_of_lt {width height channels : ℕ} (hpos : 0 < channels)
    (hlt : width * height * channels < 2 ^ 31) : SamplesExact width height channels := by
  have harea : width * height < 2 ^ 31 := lt_of_le_of_lt (Nat.le_mul_of_pos_right _ hpos) hlt
  constructor
  · intro y hy
    have hend := samples_row_le hy width channels
    exact ⟨intProduct_natCast hpos (by omega), hend⟩
  · intro y hy x hx
    exact ⟨pixelIndex_natCast hy hx harea, index_lt_area hy hx⟩
  · intro y hy x hx
    exact ⟨sampleIndex_natCast hy hx hpos hlt, position_end_le hy hx channels⟩

/-! ## Loops over the pixels -/

section Raster

variable {α : Type}

/-- A loop that stores one piece per turn, each behind the one before. -/
theorem foldlM_overwrite {body : List α → ℕ → Outcome (List α)} {piece : ℕ → List α}
    {length start width count : ℕ} (hpiece : ∀ i < count, (piece i).length = width)
    (hfit : start + count * width ≤ length)
    (hbody : ∀ i < count, ∀ buffer : List α, buffer.length = length →
      body buffer i = .ok (Buffer.overwrite buffer (start + i * width) (piece i)))
    {buffer : List α} (hbuffer : buffer.length = length) :
    (List.range count).foldlM body buffer =
      .ok (Buffer.overwrite buffer start ((List.range count).flatMap piece)) := by
  have hturn (i : ℕ) (hi : i ∈ List.range count) (buffer : List α)
      (hbuffer : buffer.length = length) :
      body buffer i = .ok (Buffer.overwrite buffer (start + i * width) (piece i)) ∧
        (Buffer.overwrite buffer (start + i * width) (piece i)).length = length := by
    rw [List.mem_range] at hi
    have hend := Nat.mul_le_mul_right width (Nat.succ_le_of_lt hi)
    rw [Nat.succ_mul] at hend
    refine ⟨hbody i hi buffer hbuffer, ?_⟩
    rw [Buffer.length_overwrite, hbuffer]
    rw [hpiece i hi, hbuffer]
    omega
  rw [foldlM_eq_ok_of_invariant (fun buffer => buffer.length = length) hturn hbuffer,
    Buffer.foldl_overwrite hpiece (by omega)]

/-- Two nested loops that store one pixel per turn, each in its place, fill the vector. -/
theorem foldlM_raster {body : ℕ → List α → ℕ → Outcome (List α)} {piece : ℕ → ℕ → List α}
    {rowBody : List α → ℕ → Outcome (List α)} {width height channels : ℕ}
    (hpiece : ∀ y < height, ∀ x < width, (piece y x).length = channels)
    (hrow : ∀ y < height, ∀ vector : List α,
      rowBody vector y = (List.range width).foldlM (body y) vector)
    (hbody : ∀ y < height, ∀ x < width, ∀ vector : List α,
      vector.length = width * height * channels →
      body y vector x = .ok (Buffer.overwrite vector ((y * width + x) * channels) (piece y x)))
    {start : List α} (hstart : start.length = width * height * channels) :
    (List.range height).foldlM rowBody start =
      .ok ((List.range height).flatMap fun y => (List.range width).flatMap (piece y)) := by
  have hlength (y : ℕ) (hy : y < height) :
      ((List.range width).flatMap (piece y)).length = width * channels :=
    Buffer.length_flatMap_range (hpiece y hy)
  have hwhole : height * (width * channels) = width * height * channels := by
    rw [← Nat.mul_assoc, Nat.mul_comm height]
  have hfit : 0 + height * (width * channels) ≤ width * height * channels := by omega
  rw [foldlM_overwrite hlength hfit ?_ hstart, Buffer.overwrite_zero]
  · rw [Buffer.length_flatMap_range hlength, hstart, hwhole]
  · intro y hy vector hvector
    have hend := samples_row_le hy width channels
    rw [hrow y hy, Nat.zero_add, ← Nat.mul_assoc]
    refine foldlM_overwrite (hpiece y hy) hend (fun x hx vector hvector => ?_) hvector
    rw [hbody y hy x hx vector hvector, Nat.add_mul]

end Raster

/-! ## Rows and colours -/

section Image

variable {width height channels : ℕ} {piece : ℕ → ℕ → Bytes}

/-- The bytes of a row, given those of each pixel. -/
def sampleRow (width : ℕ) (piece : ℕ → ℕ → Bytes) (y : ℕ) : Bytes :=
  (List.range width).flatMap (piece y)

/-- The bytes of an image. -/
def sampleRows (width height : ℕ) (piece : ℕ → ℕ → Bytes) : Bytes :=
  (List.range height).flatMap (sampleRow width piece)

/-- The colour a reader takes from the bytes of a pixel. -/
def pieceColor (channels : ℕ) (piece : Bytes) : RGB :=
  if 3 ≤ channels then ⟨piece.getD 0 0, piece.getD 1 0, piece.getD 2 0⟩
  else ⟨piece.getD 0 0, piece.getD 0 0, piece.getD 0 0⟩

variable (hpiece : ∀ y < height, ∀ x < width, (piece y x).length = channels)

include hpiece

theorem length_sampleRow {y : ℕ} (hy : y < height) :
    (sampleRow width piece y).length = width * channels :=
  Buffer.length_flatMap_range (hpiece y hy)

theorem length_sampleRows :
    (sampleRows width height piece).length = width * height * channels := by
  rw [sampleRows, Buffer.length_flatMap_range fun y hy => length_sampleRow hpiece hy,
    ← Nat.mul_assoc, Nat.mul_comm height]

/-- The bytes of a pixel stand where the readers look for them. -/
theorem getElem?_sampleRows {y x k : ℕ} (hy : y < height) (hx : x < width) (hk : k < channels) :
    (sampleRows width height piece)[(y * width + x) * channels + k]? = (piece y x)[k]? := by
  have hcolumn : x * channels + k < width * channels := by
    have hnext := Nat.mul_le_mul_right channels (Nat.succ_le_of_lt hx)
    rw [Nat.succ_mul] at hnext
    omega
  rw [Nat.add_mul, Nat.mul_assoc, Nat.add_assoc, sampleRows,
    Buffer.getElem?_flatMap_range (fun y hy => length_sampleRow hpiece hy) hy hcolumn, sampleRow,
    Buffer.getElem?_flatMap_range (hpiece y hy) hx hk]

/-- Storing the rows one after the other fills the vector. -/
theorem foldlM_storeAt {body : Bytes → ℕ → Outcome Bytes}
    (hbody : ∀ y < height, ∀ imageData, body imageData y =
      storeAt imageData ((y * width * channels : ℕ) : ℤ) (sampleRow width piece y))
    {start : Bytes} (hstart : start.length = width * height * channels) :
    (List.range height).foldlM body start = .ok (sampleRows width height piece) := by
  have hwhole : height * (width * channels) = width * height * channels := by
    rw [← Nat.mul_assoc, Nat.mul_comm height]
  have hfit : 0 + height * (width * channels) ≤ width * height * channels := by omega
  rw [foldlM_overwrite (fun y hy => length_sampleRow hpiece hy) hfit ?_ hstart, ← sampleRows,
    Buffer.overwrite_zero]
  · rw [length_sampleRows hpiece, hstart]
  · intro y hy imageData hdata
    have hrow := length_sampleRow hpiece hy
    have hend := samples_row_le hy width channels
    rw [Nat.zero_add, ← Nat.mul_assoc, hbody y hy, storeAt, if_pos (by omega), Int.toNat_natCast]

/-- The colour of a pixel is found. -/
theorem colorAt_sampleRows (hchannels : 0 < channels) {y x : ℕ} (hy : y < height)
    (hx : x < width) :
    colorAt (sampleRows width height piece) channels
        (((y * width + x) * channels : ℕ) : ℤ) =
      .ok (pieceColor channels (piece y x)) := by
  have hread (k : ℕ) (hk : k < channels) :
      vectorAt (sampleRows width height piece) (((y * width + x) * channels + k : ℕ) : ℤ) =
        .ok ((piece y x).getD k 0) := by
    apply vectorAt_of_getElem?
    have hlength := hpiece y hy x hx
    have hget : (piece y x)[k]? = some ((piece y x).get ⟨k, by omega⟩) :=
      List.getElem?_eq_getElem (by omega)
    rw [getElem?_sampleRows hpiece hy hx hk, List.getD_eq_getElem?_getD, hget]
    rfl
  have hzero := hread 0 hchannels
  rw [Nat.add_zero] at hzero
  rw [colorAt, pieceColor]
  by_cases hcolour : 3 ≤ channels
  · have hone := hread 1 (by omega)
    have htwo := hread 2 (by omega)
    rw [Nat.cast_add _ 1] at hone
    rw [Nat.cast_add _ 2] at htwo
    rw [if_pos (by omega), if_pos hcolour, hzero, ok_bind]
    change (vectorAt _ (_ + ((1 : ℕ) : ℤ)) >>= fun g => vectorAt _ (_ + ((2 : ℕ) : ℤ)) >>= _) = _
    rw [hone, ok_bind, htwo, ok_bind]
    rfl
  · rw [if_neg (by omega), if_neg hcolour, hzero, ok_bind]
    rfl

/-- And all of them, in order. -/
theorem readSamples_sampleRows (hchannels : 0 < channels)
    (hlt : width * height * channels < 2 ^ 31) {pixels : List RGB}
    (hpixels : pixels.length = width * height) :
    readSamples (sampleRows width height piece) width height channels pixels =
      .ok ((List.range height).flatMap fun y => (List.range width).flatMap fun x =>
        [pieceColor channels (piece y x)]) := by
  have harea : width * height < 2 ^ 31 :=
    lt_of_le_of_lt (Nat.le_mul_of_pos_right _ hchannels) hlt
  rw [readSamples, Int.toNat_natCast, Int.toNat_natCast]
  refine foldlM_raster (fun _ _ _ _ => List.length_singleton) (fun _ _ _ => rfl) ?_
    (hpixels.trans (Nat.mul_one _).symm)
  intro y hy x hx pixels hpixels
  have hindex := index_lt_area hy hx
  rw [Nat.mul_one] at hpixels
  rw [← hpixels] at hindex
  rw [Nat.mul_one, readSamplePixel, sampleIndex_natCast hy hx hchannels hlt, ok_bind,
    ← Nat.cast_mul, ← Nat.cast_add, ← Nat.cast_mul, colorAt_sampleRows hpiece hchannels hy hx, ok_bind,
    pixelIndex_natCast hy hx harea, ok_bind, ← Nat.cast_mul, ← Nat.cast_add,
    vectorSet_natCast hindex, Buffer.set_eq_overwrite hindex]

end Image

end Dht
