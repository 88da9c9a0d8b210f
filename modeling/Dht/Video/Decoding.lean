/-
# The frames a decrypted video keeps

`decryptVideo` decodes every frame text and appends the pixels of all of them to one
vector, but takes width and height from the first frame only. The writers read no
more pixels than these say. A video of one frame is written whole; of a longer one
only the first frame is.
-/

import Dht.Image.Writers
import Dht.Video.Framing

namespace Dht

/-- The body of the loop over frame texts. Only the first frame sets the size. -/
def decodeFrame (video : Decoded) (frame : Bytes × ℕ) : Outcome Decoded := do
  let image ← textToPixel frame.1
  pure {
    pixels := video.pixels ++ image.pixels
    width := if frame.2 = 0 then image.width else video.width
    height := if frame.2 = 0 then image.height else video.height }

/-- The loop over frame texts: `allPixels`, `width` and `height`. -/
def decodeFrames (frameTexts : List Bytes) : Outcome Decoded :=
  frameTexts.zipIdx.foldlM decodeFrame ⟨[], 0, 0⟩

/-- What `decryptVideo` makes of a text before it calls a writer. -/
def decryptVideoText (textData : Bytes) : Outcome Decoded := do
  let (videoText, _) ← splitAudio textData
  decodeFrames (splitFrames videoText)

/-- The frame texts of `encryptVideo`, joined. -/
def encryptVideoText (order : IterationOrder) (frames : List (List RGB)) (width height : ℤ)
    (audioText : Bytes) : Outcome Bytes := do
  let frameTexts ← frames.mapM fun frame => frameToText order frame width height
  pure (joinVideoText frameTexts audioText)

section Decoding

variable (order : IterationOrder) {size : Dimensions}

theorem decodeFrame_frameText (video : Decoded) (frame : size.Raster) (i : ℕ) :
    decodeFrame video (frameText order frame, i) =
      .ok ⟨video.pixels ++ frame.toList.map RGB.recoded,
        if i = 0 then size.width else video.width,
        if i = 0 then size.height else video.height⟩ := by
  have hread : textToPixel (frameText order frame) =
      .ok ⟨frame.toList.map RGB.recoded, size.width, size.height⟩ :=
    textToPixel_imageText order frame
  rw [decodeFrame, hread]
  rfl

/-- All pixels are kept, and the size of the first frame. -/
theorem decodeFrames_frameText (first : size.Raster) (rest : List size.Raster) :
    decodeFrames ((first :: rest).map (frameText order)) =
      .ok ⟨(first :: rest).flatMap (·.toList.map RGB.recoded), size.width, size.height⟩ := by
  induction rest using List.reverseRecOn with
  | nil =>
      have hfirst := decodeFrame_frameText order ⟨[], 0, 0⟩ first 0
      rw [if_pos rfl, if_pos rfl, List.nil_append] at hfirst
      rw [List.flatMap_singleton]
      exact bind_eq_ok_iff.mpr ⟨_, hfirst, rfl⟩
  | append_singleton rest last ih =>
      have hlast := decodeFrame_frameText order
        ⟨(first :: rest).flatMap (·.toList.map RGB.recoded), size.width, size.height⟩ last
        (0 + ((first :: rest).map (frameText order)).length)
      rw [if_neg (by simp), if_neg (by simp)] at hlast
      rw [← List.cons_append, List.map_append, List.flatMap_append, List.flatMap_singleton,
        decodeFrames, List.zipIdx_append]
      exact foldlM_concat_eq_ok_iff.mpr ⟨_, ih, hlast⟩

/-- The way from the frames to what the writer is passed. -/
theorem decryptVideoText_encryptVideoText (first : size.Raster) (rest : List size.Raster)
    (audioText : Bytes) :
    ∃ textData,
      encryptVideoText order ((first :: rest).map List.Vector.toList) size.width size.height
        audioText = .ok textData ∧
      decryptVideoText textData =
        .ok ⟨(first :: rest).flatMap (·.toList.map RGB.recoded), size.width, size.height⟩ := by
  obtain ⟨videoText, hsplit, hframes⟩ := exists_splitAudio order (first :: rest) audioText
  refine ⟨joinVideoText ((first :: rest).map (frameText order)) audioText, ?_, ?_⟩
  · rw [encryptVideoText, List.mapM_map]
    exact bind_eq_ok_iff.mpr ⟨_, mapM_frameToText order (first :: rest), rfl⟩
  · rw [decryptVideoText, hsplit, ok_bind]
    dsimp only
    rw [hframes, decodeFrames_frameText]

/-- As many pixels are decoded as were encoded. -/
theorem length_flatMap_recoded (frames : List size.Raster) :
    (frames.flatMap (·.toList.map RGB.recoded)).length =
      frames.length * (size.width * size.height) := by
  induction frames with
  | nil => simp
  | cons frame frames ih =>
      rw [List.flatMap_cons, List.length_append, ih, List.length_map, List.Vector.toList_length,
        List.length_cons, Nat.succ_mul, Nat.add_comm]

end Decoding

/-- The writers hand every pixel of the video to their library, in order. -/
def HandsOverAll (video : Decoded) : Prop :=
  pngImageData video.pixels video.width video.height = .ok (video.pixels.flatMap RGB.bytes) ∧
    ∃ lines, jpegLines video.pixels video.width video.height = .ok lines ∧
      lines.flatten = video.pixels.flatMap RGB.bytes

/-- For an encoded video, the size passed to the writer is that of all decoded pixels,
these are all there were, and the writer reads every one of them. Frames of a size that
libavcodec admits, as all extracted ones are, are also handed to the image library whole. -/
def LosesNoFrame (order : IterationOrder) (frames : List (List RGB)) (width height : ℕ)
    (audioText : Bytes) : Prop :=
  ∀ textData, encryptVideoText order frames width height audioText = .ok textData →
    ∃ video, decryptVideoText textData = .ok video ∧
      video.width * video.height = video.pixels.length ∧
      video.pixels.length = frames.length * width * height ∧
      scan video = .ok video.pixels ∧
      (width * height * 3 < 2 ^ 31 → HandsOverAll video)

/-- A video that fills its size is handed over whole. -/
theorem handsOverAll_of_length {width height : ℕ} {pixels : List RGB} (hheight : 0 < height)
    (hlength : pixels.length = width * height) (hlt : width * height * 3 < 2 ^ 31) :
    HandsOverAll ⟨pixels, width, height⟩ := by
  have hpixels := Nat.le_of_eq hlength.symm
  have htake : pixels.take (width * height) = pixels := by rw [← hlength, List.take_length]
  refine ⟨?_, _, jpegLines_eq hpixels hlt hheight, ?_⟩
  · rw [pngImageData_eq hpixels hlt, htake]
  · rw [← List.flatMap_def, flatMap_rows, htake]

/-- Nothing is lost exactly of videos with a single frame. -/
theorem losesNoFrame_iff (order : IterationOrder) {size : Dimensions} (first : size.Raster)
    (rest : List size.Raster) (audioText : Bytes) :
    LosesNoFrame order ((first :: rest).map List.Vector.toList) size.width size.height
      audioText ↔ rest = [] := by
  obtain ⟨textData, hencrypt, hdecrypt⟩ :=
    decryptVideoText_encryptVideoText order first rest audioText
  have hlength := length_flatMap_recoded (first :: rest)
  refine ⟨fun hall => ?_, fun hsingle => ?_⟩
  · obtain ⟨video, hvideo, harea, -, -, -⟩ := hall textData hencrypt
    cases hdecrypt.symm.trans hvideo
    rw [hlength, ← Nat.cast_mul, Nat.cast_inj, List.length_cons] at harea
    have hpos : 0 < size.width * size.height := Nat.mul_pos size.width_pos size.height_pos
    have hnone : rest.length + 1 = 1 :=
      Nat.eq_of_mul_eq_mul_right hpos (by rw [Nat.one_mul, ← harea])
    exact List.length_eq_zero_iff.mp (Nat.succ_inj.mp hnone)
  · subst hsingle
    intro other hother
    cases hencrypt.symm.trans hother
    rw [List.length_singleton, Nat.one_mul] at hlength
    refine ⟨_, hdecrypt, ?_, ?_, ?_, handsOverAll_of_length size.height_pos hlength⟩
    · rw [hlength, Nat.cast_mul]
    · rw [hlength, List.length_map, List.length_singleton, Nat.one_mul]
    · rw [scan_eq (Nat.le_of_eq hlength.symm) size.area_le,
        List.take_of_length_le (Nat.le_of_eq hlength)]

/-- Two frames of one pixel: the writer is passed two pixels and the size of one. -/
theorem not_losesNoFrame_two :
    encryptVideoText sourceOrder [[red], [blue]] 1 1 [] = .ok (ascii "RL\n\nBL") ∧
      decryptVideoText (ascii "RL\n\nBL") = .ok ⟨[red, blue], 1, 1⟩ ∧
      scan ⟨[red, blue], 1, 1⟩ = .ok [red] ∧
      pngImageData [red, blue] 1 1 = .ok red.bytes ∧
      ¬ LosesNoFrame sourceOrder [[red], [blue]] 1 1 [] := by
  have hencrypt : encryptVideoText sourceOrder [[red], [blue]] (1 : ℕ) (1 : ℕ) [] =
      .ok (ascii "RL\n\nBL") := by decide
  have hdecrypt : decryptVideoText (ascii "RL\n\nBL") = .ok ⟨[red, blue], 1, 1⟩ := by decide
  refine ⟨hencrypt, hdecrypt, by decide, by decide, fun hall => ?_⟩
  obtain ⟨video, hvideo, harea, -, -, -⟩ := hall _ hencrypt
  cases hdecrypt.symm.trans hvideo
  exact absurd harea (by decide)

end Dht
