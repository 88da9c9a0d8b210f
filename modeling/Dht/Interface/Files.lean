/-
# Files and the functions that write them

The functions of `file_utils.cpp` and the three image writers, on an explicit file system.
All of them open a file for writing, which empties it at once, and then write what they
have or have computed by then. What is still in a buffer of the stream when an exception
leaves the function is not in the file.
-/

import Dht.Image.BmpBounds
import Dht.Image.Jpeg
import Dht.Image.Writers
import Dht.Lib.Call

namespace Dht

/-! ## File system -/

/-- The contents of files by path, and the paths that can be opened for writing. -/
structure FileSystem where
  contents : Bytes → Option Bytes
  writable : Bytes → Bool

/-- A function of the library that works on files. -/
abbrev FileCall (α : Type) := Call FileSystem Failure α

/-- The file system with other contents at a path. -/
def FileSystem.write (files : FileSystem) (path data : Bytes) : FileSystem where
  contents := Function.update files.contents path (some data)
  writable := files.writable

@[simp]
theorem FileSystem.contents_write (files : FileSystem) (path data : Bytes) :
    (files.write path data).contents path = some data := Function.update_self _ _ _

/-- A computation on values. -/
def compute {α : Type} (outcome : Outcome α) : FileCall α := Call.ofResult (some outcome)

/-- `readFile`, and how the image readers open their file. -/
def readFile (path : Bytes) : FileCall Bytes :=
  Call.query fun files => orThrow (.fileNotFoundError path) (files.contents path)

/-- `tolower` in the locale `C`. -/
def toLower (c : UInt8) : UInt8 := if 65 ≤ c ∧ c ≤ 90 then c + 32 else c

/-- `getFileExtension`. -/
def getFileExtension (path : Bytes) : Bytes :=
  if '.'.toUInt8 ∈ path then (path.reverse.takeWhile (· ≠ '.'.toUInt8)).reverse.map toLower else []

/-- Open a file for writing, in mode `wb` or as an `ofstream`. -/
def openFile (path : Bytes) : FileCall Bool := do
  let writable ← Call.query fun files => .ok (files.writable path)
  if writable then do
    Call.modify fun files => files.write path []
    pure true
  else pure false

/-- Open a file and write `data`, computed while it is open. -/
def createFile (cannot path : Bytes) (data : Outcome Bytes) : FileCall PUnit := do
  let opened ← openFile path
  if opened then do
    let data ← compute data
    Call.modify fun files => files.write path data
  else throw (.thrown (.dhtError (cannot ++ path)))

/-- `writeFile`. -/
def writeFile (path data : Bytes) : FileCall PUnit :=
  createFile (ascii "Cannot write file: ") path (.ok data)

/-! ## Image writers -/

/-- The writing half of libpng. -/
structure LibpngWriter where
  /-- `png_set_IHDR` takes the dimensions. -/
  accepts : ℤ → ℤ → Bool
  /-- It takes none below one. -/
  accepts_pos : ∀ width height, accepts width height = true → 0 < width ∧ 0 < height
  encode : ℤ → ℤ → Bytes → Bytes

/-- What `writePNG` writes to the open file. Errors of libpng arrive by `longjmp`. -/
def pngFile (lib : LibpngWriter) (pixels : List RGB) (width height : ℤ) : Outcome Bytes :=
  if lib.accepts width height then do
    let imageData ← pngImageData pixels width height
    pure (lib.encode width height imageData)
  else throwing (.dhtError (ascii "PNG write error"))

/-- `writePNG`. -/
def writePNG (lib : LibpngWriter) (path : Bytes) (pixels : List RGB) (width height : ℤ) :
    FileCall PUnit :=
  createFile (ascii "Cannot create PNG file: ") path (pngFile lib pixels width height)

/-- The writing half of libjpeg. -/
structure LibjpegWriter where
  /-- `jpeg_start_compress` takes the dimensions. -/
  accepts : ℤ → ℤ → Bool
  /-- It takes none below one. -/
  accepts_pos : ∀ width height, accepts width height = true → 0 < width ∧ 0 < height
  encode : ℤ → ℤ → ℤ → List Bytes → Bytes

/-- What `writeJPEG` writes to the open file. The error handler of libjpeg ends the
process. -/
def jpegFile (lib : LibjpegWriter) (pixels : List RGB) (width height quality : ℤ) :
    Outcome Bytes :=
  if lib.accepts width height then do
    let lines ← jpegLines pixels width height
    pure (lib.encode width height quality lines)
  else .error .exited

/-- `writeJPEG`. -/
def writeJPEG (lib : LibjpegWriter) (path : Bytes) (pixels : List RGB) (width height : ℤ)
    (quality : ℤ) : FileCall PUnit :=
  createFile (ascii "Cannot create JPEG file: ") path (jpegFile lib pixels width height quality)

/-- `writeBMP`. -/
def writeBMP (path : Bytes) (pixels : List RGB) (width height : ℤ) : FileCall PUnit :=
  createFile (ascii "Cannot create BMP file: ") path (bmpFile pixels width height)

/-! ## Exceptions of the writers -/

section Loops

theorem not_throws_vectorSet {α : Type} (vector : List α) (index : ℤ) (value : α) :
    ¬ Throws (vectorSet vector index value) := (guarded_vectorSet vector index value).not_throws

theorem not_throws_intResult (value : ℤ) : ¬ Throws (intResult value) :=
  (guarded_intResult value).not_throws

theorem not_throws_intProduct (first second third : ℤ) :
    ¬ Throws (intProduct first second third) :=
  not_throws_bind (not_throws_intResult _) fun _ _ => not_throws_intResult _

theorem not_throws_storeColor (vector : Bytes) (start : ℤ) (color : RGB) :
    ¬ Throws (storeColor vector start color) :=
  not_throws_bind (not_throws_vectorSet _ _ _) fun _ _ =>
    not_throws_bind (not_throws_vectorSet _ _ _) fun _ _ => not_throws_vectorSet _ _ _

theorem not_throws_pixelAt (pixels : List RGB) (width y x : ℤ) :
    ¬ Throws (pixelAt pixels width y x) :=
  not_throws_bind (not_throws_intResult _) fun _ _ =>
    not_throws_bind (not_throws_intResult _) fun _ _ => (guarded_vectorAt _ _).not_throws

theorem not_throws_sampleIndex (width channels y x : ℤ) :
    ¬ Throws (sampleIndex width channels y x) :=
  not_throws_bind
    (not_throws_bind (not_throws_intResult _) fun _ _ => not_throws_intResult _)
    fun _ _ => not_throws_intResult _

theorem not_throws_newVector {α : Type} {size : ℤ} (hsize : 0 ≤ size) (value : α) :
    ¬ Throws (newVector size value) := by
  rw [newVector, if_neg (not_lt.mpr hsize)]
  exact not_throws_ok _

variable (pixels : List RGB) {width height : ℤ}

theorem intResult_nonneg {value result : ℤ} (hvalue : 0 ≤ value)
    (hresult : intResult value = .ok result) : 0 ≤ result := by
  obtain ⟨-, other, hother, hequal⟩ | ⟨-, hundefined⟩ := guarded_intResult value
  · rw [hother] at hresult
    cases hresult
    rw [hequal]
    exact hvalue
  · rw [hundefined] at hresult
    cases hresult

/-- With dimensions that libpng accepts nothing is thrown behind the header. -/
theorem not_throws_pngImageData (hwidth : 0 < width) (hheight : 0 < height) :
    ¬ Throws (pngImageData pixels width height) := by
  apply not_throws_bind (not_throws_newVector (le_of_lt hheight) _)
  intro _ _
  apply not_throws_bind (not_throws_intProduct _ _ _)
  intro size hsize
  have hnonneg : 0 ≤ size := by
    obtain ⟨part, hpart, hwhole⟩ := bind_eq_ok_iff.mp hsize
    have hpartNonneg := intResult_nonneg (mul_nonneg (le_of_lt hheight) (le_of_lt hwidth)) hpart
    exact intResult_nonneg (mul_nonneg hpartNonneg (by decide)) hwhole
  apply not_throws_bind (not_throws_newVector hnonneg _)
  intro imageData _
  apply not_throws_foldlM
  intro imageData y
  apply not_throws_bind (not_throws_intProduct _ _ _)
  intro _ _
  apply not_throws_foldlM
  intro imageData x
  exact not_throws_bind (not_throws_sampleIndex _ _ _ _) fun _ _ =>
    not_throws_bind (not_throws_pixelAt _ _ _ _) fun _ _ => not_throws_storeColor _ _ _

theorem not_throws_jpegLines (hwidth : 0 < width) : ¬ Throws (jpegLines pixels width height) := by
  apply not_throws_bind (not_throws_intResult _)
  intro size hsize
  have hnonneg := intResult_nonneg (mul_nonneg (le_of_lt hwidth) (by decide)) hsize
  apply not_throws_bind (not_throws_newVector hnonneg _)
  intro rowBuffer _
  refine not_throws_bind (not_throws_foldlM ?_ _ _) fun _ _ => not_throws_ok _
  intro state y
  refine not_throws_bind (not_throws_foldlM ?_ _ _) fun _ _ => not_throws_ok _
  intro rowBuffer x
  exact not_throws_bind (not_throws_pixelAt _ _ _ _) fun _ _ =>
    not_throws_bind (not_throws_intResult _) fun _ _ => not_throws_storeColor _ _ _

end Loops

/-- `writePNG` throws on an open file exactly if libpng refuses the dimensions. -/
theorem throws_pngFile_iff (lib : LibpngWriter) (pixels : List RGB) (width height : ℤ) :
    Throws (pngFile lib pixels width height) ↔ lib.accepts width height = false := by
  rw [pngFile]
  cases haccepts : lib.accepts width height with
  | true =>
      obtain ⟨hwidth, hheight⟩ := lib.accepts_pos width height haccepts
      have hquiet := not_throws_bind (not_throws_pngImageData pixels hwidth hheight)
        fun imageData _ => not_throws_ok (lib.encode width height imageData)
      refine ⟨fun hthrows => absurd hthrows hquiet, fun hfalse => ?_⟩
      cases hfalse
  | false => exact ⟨fun _ => rfl, fun _ => ⟨_, rfl, trivial⟩⟩

/-- `writeJPEG` never does. -/
theorem not_throws_jpegFile (lib : LibjpegWriter) (pixels : List RGB)
    (width height quality : ℤ) : ¬ Throws (jpegFile lib pixels width height quality) := by
  rw [jpegFile]
  split
  · next haccepts =>
      obtain ⟨hwidth, -⟩ := lib.accepts_pos width height haccepts
      exact not_throws_bind (not_throws_jpegLines pixels hwidth) fun _ _ => not_throws_ok _
  · rintro ⟨failure, hfailure, hthrown⟩
    cases hfailure
    exact hthrown

/-- A width for which the row size comes out negative, without any overflow on the way. -/
def BmpRefuses (width height : ℤ) : Prop :=
  -2 ^ 31 ≤ 24 * width ∧ width ≤ -3 ∧
    -2 ^ 31 ≤ (24 * width + 31).tdiv 32 * 4 * height ∧
    54 + (24 * width + 31).tdiv 32 * 4 * height < 2 ^ 31

theorem not_throws_writeBmpRows (pixels : List RGB) (width : ℤ) (file : BmpFile) (y : ℕ) :
    ¬ Throws (writeBmpRows pixels width file y) := by
  refine not_throws_bind (not_throws_foldlM ?_ _ _) fun _ _ => not_throws_ok _
  intro rowData x
  exact not_throws_bind (not_throws_pixelAt _ _ _ _) fun _ _ =>
    not_throws_bind (not_throws_intResult _) fun _ _ =>
      not_throws_bind (not_throws_vectorSet _ _ _) fun _ _ =>
        not_throws_bind (not_throws_vectorSet _ _ _) fun _ _ => not_throws_vectorSet _ _ _

/-- `writeBMP` throws on an open file exactly if no row of a negative size can be made. -/
theorem throws_bmpFile_iff (pixels : List RGB) (width height : ℤ) :
    Throws (bmpFile pixels width height) ↔ BmpRefuses width height := by
  have hquotient := tdiv_bounds (24 * width + 31) (show (0 : ℤ) < 32 by decide)
  rw [bmpFile, bmpRowSize]
  simp only [bind_assoc, throws_intResult_bind_iff]
  set rowSize := (24 * width + 31).tdiv 32 * 4 with hrowSize
  have hvector : Throws (do
      let rowData ← newVector rowSize (0 : UInt8)
      let file ← (List.range height.toNat).reverse.foldlM (writeBmpRows pixels width)
        ⟨bmpHeader width height (rowSize * height) (54 + rowSize * height), rowData⟩
      pure file.written) ↔ rowSize < 0 := by
    rw [newVector]
    split
    · next hnegative => exact ⟨fun _ => hnegative, fun _ => ⟨.lengthError, rfl, trivial⟩⟩
    · next hnonneg =>
        rw [ok_bind]
        refine ⟨fun hthrows => absurd hthrows ?_, fun hnegative => absurd hnegative hnonneg⟩
        exact not_throws_bind (not_throws_foldlM (not_throws_writeBmpRows pixels width) _ _)
          fun _ _ => not_throws_ok _
  rw [hvector, BmpRefuses, ← hrowSize]
  constructor
  · rintro ⟨hbits, hrounded, hrow, himage, hfile, hnegative⟩
    exact ⟨hbits.1, by omega, himage.1, hfile.2⟩
  · rintro ⟨hbits, hwidth, himage, hfile⟩
    exact ⟨⟨hbits, by omega⟩, ⟨by omega, by omega⟩, ⟨by omega, by omega⟩, ⟨himage, by omega⟩,
      ⟨by omega, hfile⟩, by omega⟩

/-! ## What a failed writer leaves -/

section Keeps

variable {cannot path : Bytes} {data : Outcome Bytes} {files after : FileSystem}

theorem ends_openFile_iff {result : Outcome Bool} :
    (openFile path).Ends files result after ↔
      result = .ok (files.writable path) ∧
        after = if files.writable path then files.write path [] else files := by
  rw [openFile, Call.ends_bind_iff]
  simp only [Call.ends_query_iff]
  cases files.writable path with
  | true => simp [Call.ends_bind_iff, -bind_pure_comp]
  | false => simp

/-- How a writer fails. -/
theorem ends_createFile_error_iff {failure : Failure} :
    (createFile cannot path data).Ends files (.error failure) after ↔
      if files.writable path then data = .error failure ∧ after = files.write path []
      else failure = .thrown (.dhtError (cannot ++ path)) ∧ after = files := by
  rw [createFile, Call.ends_bind_iff]
  simp only [ends_openFile_iff]
  cases files.writable path with
  | true => simp [Call.ends_bind_iff, compute]
  | false => simp

/-- A file is spoilt exactly if it was opened before the exception and was not empty. -/
theorem keepsOnFailure_createFile_iff :
    Call.KeepsOnFailure (fun files => files.contents path) Failure.IsThrown
        (createFile cannot path data) files ↔
      ¬ (files.writable path = true ∧ files.contents path ≠ some [] ∧ Throws data) := by
  rw [Call.KeepsOnFailure]
  simp only [ends_createFile_error_iff]
  cases files.writable path with
  | true =>
      constructor
      · rintro hkeeps ⟨-, hchanged, failure, hfailure, hthrown⟩
        have hsame := hkeeps failure _ ⟨hfailure, rfl⟩ hthrown
        rw [FileSystem.contents_write] at hsame
        exact hchanged hsame.symm
      · intro hunspoilt failure after hends hthrown
        obtain ⟨hfailure, rfl⟩ := hends
        rw [FileSystem.contents_write]
        by_contra hchanged
        exact hunspoilt ⟨rfl, fun hempty => hchanged hempty.symm, failure, hfailure, hthrown⟩
  | false =>
      constructor
      · rintro - ⟨hfalse, -⟩
        cases hfalse
      · intro _ failure after hends _
        rw [hends.2]

end Keeps

end Dht
