/-
# Splitting any text

What `decryptVideo` does with the text of a video before it decodes frames, on texts
that need not come from `joinVideoText`.

The first part is the cut at the marker. It skips 18 bytes, one more than the marker
has, and so relies on the newline behind it: a marker at the end of the text is an
exception, and any other byte behind it is dropped.

The second part is the cut into frames. It only regroups lines. Frame by frame the
decoder sees the same non-empty lines in the same order as in the whole text, so the
pixels of the frames are those of the text.
-/

import Dht.Video.Decoding

namespace Dht

/-! ## The audio marker -/

/-- A text without the newline it starts with, if it starts with one. -/
def stripNewline (text : Bytes) : Bytes :=
  if text.head? = some newline then text.tail else text

/-- The cut at the marker completes, and drops the first marker and a newline behind it
but nothing else. -/
def SplitsExactly (textData : Bytes) : Prop :=
  ∃ videoText audioText, splitAudio textData = .ok (videoText, audioText) ∧
    (∀ video rest, Text.FirstOccurrence audioMarker textData video rest →
      videoText = video ∧ audioText = stripNewline rest) ∧
    ((∀ video rest, textData ≠ video ++ audioMarker ++ rest) →
      videoText = textData ∧ audioText = [])

theorem length_audioMarker : audioMarker.length = 17 := by decide

/-- One byte behind the first marker is skipped with it, and there has to be one. -/
theorem splitAudio_of_firstOccurrence {textData video rest : Bytes}
    (hfirst : Text.FirstOccurrence audioMarker textData video rest) :
    splitAudio textData =
      if rest = [] then .error .outOfRange else .ok (video, rest.tail) := by
  obtain ⟨position, hfind⟩ : ∃ position, Text.find audioMarker textData = some position := by
    apply Option.ne_none_iff_exists'.mp
    intro hnone
    exact Text.find_eq_none hnone video rest hfirst.1
  obtain ⟨before, after, hfound, rfl⟩ := Text.find_eq_some hfind
  obtain ⟨rfl, rfl⟩ := hfound.unique hfirst
  have htext := hfirst.1
  have hlength : textData.length = before.length + 17 + after.length := by
    rw [htext, List.length_append, List.length_append, length_audioMarker]
  have htake : textData.take before.length = before := by
    rw [htext, List.append_assoc, List.take_left]
  have hdrop : textData.drop (before.length + 18) = after.tail := by
    have hmarker : (before ++ audioMarker).length = before.length + 17 := by
      rw [List.length_append, length_audioMarker]
    rw [htext, ← Nat.add_assoc before.length 17 1, ← hmarker, ← List.drop_drop, List.drop_left,
      List.drop_one]
  rw [splitAudio, hfind]
  dsimp only
  by_cases hempty : after = []
  · have hshort : textData.length < before.length + 18 := by
      rw [hlength, hempty, List.length_nil]
      omega
    rw [if_pos hempty, substr, if_pos hshort]
    rfl
  · have hpos := List.length_pos_iff.mpr hempty
    rw [if_neg hempty, substr, if_neg (by omega), ok_bind, htake, hdrop]
    rfl

/-- What is left of a text behind its first byte is the text without its newline exactly
if that byte is a newline. -/
theorem tail_eq_stripNewline_iff {text : Bytes} (hne : text ≠ []) :
    text.tail = stripNewline text ↔ text.head? = some newline := by
  rw [stripNewline]
  by_cases hnewline : text.head? = some newline
  · rw [if_pos hnewline]
    exact ⟨fun _ => hnewline, fun _ => rfl⟩
  · rw [if_neg hnewline]
    refine ⟨fun hequal => ?_, fun hhead => absurd hhead hnewline⟩
    have hlength := congrArg List.length hequal
    have hpos := List.length_pos_iff.mpr hne
    rw [List.length_tail] at hlength
    omega

/-- The cut is exact exactly if the first marker, where there is one, is followed by a
newline. -/
theorem splitsExactly_iff (textData : Bytes) :
    SplitsExactly textData ↔
      ∀ video rest, Text.FirstOccurrence audioMarker textData video rest →
        rest.head? = some newline := by
  constructor
  · rintro ⟨videoText, audioText, hsplit, hexact, -⟩ video rest hfirst
    obtain ⟨-, haudio⟩ := hexact video rest hfirst
    rw [splitAudio_of_firstOccurrence hfirst] at hsplit
    by_cases hempty : rest = []
    · rw [if_pos hempty] at hsplit
      cases hsplit
    · rw [if_neg hempty] at hsplit
      cases hsplit
      exact (tail_eq_stripNewline_iff hempty).mp haudio
  · intro hnewline
    cases hfind : Text.find audioMarker textData with
    | none =>
        have hnever := Text.find_eq_none hfind
        refine ⟨textData, [], ?_, ?_, fun _ => ⟨rfl, rfl⟩⟩
        · rw [splitAudio, hfind]
        · intro video rest hfirst
          exact absurd hfirst.1 (hnever video rest)
    | some position =>
        obtain ⟨before, after, hfirst, -⟩ := Text.find_eq_some hfind
        have hhead := hnewline before after hfirst
        have hne : after ≠ [] := by
          rintro rfl
          cases hhead
        refine ⟨before, after.tail, ?_, ?_, fun hnever => absurd hfirst.1 (hnever before after)⟩
        · rw [splitAudio_of_firstOccurrence hfirst, if_neg hne]
        · intro video rest hother
          obtain ⟨rfl, rfl⟩ := hfirst.unique hother
          exact ⟨rfl, (tail_eq_stripNewline_iff hne).mpr hhead⟩

/-- Behind a bare marker there is nothing to skip, and a letter behind it is lost. -/
theorem not_splitsExactly_bare :
    splitAudio (ascii "RL---AUDIO_START---") = .error .outOfRange ∧
      splitAudio (ascii "RL---AUDIO_START---A(1)") = .ok (ascii "RL", ascii "(1)") ∧
      ¬ SplitsExactly (ascii "RL---AUDIO_START---") ∧
      ¬ SplitsExactly (ascii "RL---AUDIO_START---A(1)") := by
  have hbare : splitAudio (ascii "RL---AUDIO_START---") = .error .outOfRange := by decide
  have hletter : splitAudio (ascii "RL---AUDIO_START---A(1)") =
      .ok (ascii "RL", ascii "(1)") := by decide
  refine ⟨hbare, hletter, ?_, ?_⟩
  · rintro ⟨videoText, audioText, hsplit, -⟩
    rw [hbare] at hsplit
    cases hsplit
  · rintro ⟨videoText, audioText, hsplit, hexact, -⟩
    rw [hletter] at hsplit
    cases hsplit
    obtain ⟨before, after, hfirst, hlength⟩ :=
      Text.find_eq_some (show Text.find audioMarker (ascii "RL---AUDIO_START---A(1)") = some 2 by
        decide)
    have hafter : after = ascii "A(1)" := by
      have hdrop : (ascii "RL---AUDIO_START---A(1)").drop 19 = after := by
        have hfront : (before ++ audioMarker).length = 19 := by
          rw [List.length_append, hlength, length_audioMarker]
        rw [hfirst.1, ← hfront, List.drop_left]
      rw [← hdrop]
      decide
    have haudio := (hexact before after hfirst).2
    rw [hafter] at haudio
    exact absurd haudio (by decide)

/-! ## Frames as blocks of lines -/

/-- The lines `getline` delivers, without the empty ones. -/
def textLines (text : Bytes) : List Bytes := (Text.lines newline text).filter (· ≠ [])

theorem textLines_line {text line : Bytes} (hline : line ∈ textLines text) :
    newline ∉ line ∧ line ≠ [] := by
  obtain ⟨hmem, hne⟩ := List.mem_filter.mp hline
  exact ⟨Text.not_mem_of_mem_lines hmem, of_decide_eq_true hne⟩

/-- The state of the loop over lines: what it has stored are blocks of the non-empty
lines so far, in order, with a last block that is still open. -/
structure FrameSplit.Regroups (split : FrameSplit) (lines : List Bytes)
    (blocks : List (List Bytes)) (current : List Bytes) : Prop where
  frameTexts : split.frameTexts = blocks.map [newline].intercalate
  currentFrame : split.currentFrame = [newline].intercalate current
  lines_eq : blocks.flatten ++ current = lines.filter (· ≠ [])

/-- The open block is empty exactly if its text is. -/
theorem FrameSplit.Regroups.currentFrame_eq_nil_iff {split : FrameSplit} {lines : List Bytes}
    {blocks : List (List Bytes)} {current : List Bytes}
    (hregroups : split.Regroups lines blocks current) :
    split.currentFrame = [] ↔ current = [] := by
  rw [hregroups.currentFrame]
  refine ⟨fun hempty => ?_, fun hempty => by rw [hempty]; rfl⟩
  by_contra hne
  apply Text.intercalate_ne_nil hne _ hempty
  intro line hline
  have hmem : line ∈ lines.filter (· ≠ []) := by
    rw [← hregroups.lines_eq]
    exact List.mem_append_right _ hline
  exact of_decide_eq_true (List.mem_filter.mp hmem).2

/-- One more line is appended to the open block, or closes it. -/
theorem FrameSplit.Regroups.addLine {split : FrameSplit} {lines : List Bytes}
    {blocks : List (List Bytes)} {current : List Bytes}
    (hregroups : split.Regroups lines blocks current) (line : Bytes) :
    ∃ nextBlocks next, (split.addLine line).Regroups (lines ++ [line]) nextBlocks next := by
  have hopen := hregroups.currentFrame_eq_nil_iff
  have hlines := hregroups.lines_eq
  rw [FrameSplit.addLine]
  by_cases hempty : line = []
  · have hfilter : (lines ++ [line]).filter (· ≠ []) = lines.filter (· ≠ []) := by
      rw [List.filter_append, hempty]
      exact List.append_nil _
    by_cases hcurrent : split.currentFrame = []
    · rw [if_neg fun h => h.2 hcurrent, if_neg fun h => h hempty]
      exact ⟨blocks, current, hregroups.frameTexts, hregroups.currentFrame,
        hlines.trans hfilter.symm⟩
    · rw [if_pos ⟨hempty, hcurrent⟩]
      refine ⟨blocks ++ [current], [], ?_, rfl, ?_⟩
      · rw [hregroups.frameTexts, hregroups.currentFrame, List.map_append]
        rfl
      · rw [hfilter, ← hlines, List.flatten_append, List.append_nil]
        simp
  · have hfilter : (lines ++ [line]).filter (· ≠ []) = lines.filter (· ≠ []) ++ [line] := by
      rw [List.filter_append, List.filter_singleton, decide_eq_true hempty]
      rfl
    rw [if_neg fun h => hempty h.1, if_pos hempty]
    refine ⟨blocks, current ++ [line], hregroups.frameTexts, ?_, ?_⟩
    · dsimp only
      by_cases hcurrent : split.currentFrame = []
      · rw [if_neg fun h => h hcurrent, hcurrent, hopen.mp hcurrent, List.nil_append,
          List.nil_append, List.intercalate_singleton]
      · rw [if_pos hcurrent, hregroups.currentFrame]
        exact (Text.intercalate_append_singleton [newline] (fun h => hcurrent (hopen.mpr h))
          line).symm
    · rw [hfilter, ← hlines, List.append_assoc]

/-- The whole loop. -/
theorem regroups_foldl (lines : List Bytes) :
    ∃ blocks current,
      (lines.foldl FrameSplit.addLine ⟨[], []⟩).Regroups lines blocks current := by
  induction lines using List.reverseRecOn with
  | nil => exact ⟨[], [], rfl, rfl, rfl⟩
  | append_singleton lines line ih =>
      obtain ⟨blocks, current, hregroups⟩ := ih
      rw [List.foldl_append]
      exact hregroups.addLine line

/-- The frames of a text are the texts of blocks that make up its non-empty lines. -/
theorem exists_splitFrames_blocks (videoText : Bytes) :
    ∃ blocks : List (List Bytes), splitFrames videoText = blocks.map [newline].intercalate ∧
      blocks.flatten = textLines videoText := by
  obtain ⟨blocks, current, hregroups⟩ := regroups_foldl (Text.lines newline videoText)
  have hopen := hregroups.currentFrame_eq_nil_iff
  have hlines := hregroups.lines_eq
  rw [splitFrames, FrameSplit.flush]
  by_cases hcurrent : ((Text.lines newline videoText).foldl FrameSplit.addLine
      ⟨[], []⟩).currentFrame = []
  · rw [if_neg fun h => h hcurrent]
    rw [hopen.mp hcurrent, List.append_nil] at hlines
    exact ⟨blocks, hregroups.frameTexts, hlines⟩
  · rw [if_pos hcurrent]
    refine ⟨blocks ++ [current], ?_, ?_⟩
    · rw [hregroups.frameTexts, hregroups.currentFrame, List.map_append]
      rfl
    · rw [List.flatten_append, List.flatten_singleton]
      exact hlines

/-- The decoder finds the rows of the text in its frames, in order. -/
theorem flatMap_codeRows_splitFrames (videoText : Bytes) :
    (splitFrames videoText).flatMap codeRows = codeRows videoText := by
  obtain ⟨blocks, hframes, hlines⟩ := exists_splitFrames_blocks videoText
  have hblock (block : List Bytes) (hmem : block ∈ blocks) :
      codeRows ([newline].intercalate block) = block.map (Text.tokens isSpace) := by
    have hlegal (line : Bytes) (hline : line ∈ block) : newline ∉ line ∧ line ≠ [] := by
      have htext : line ∈ textLines videoText := by
        rw [← hlines]
        exact List.mem_flatten_of_mem hmem hline
      exact textLines_line htext
    rw [codeRows, Text.lines_intercalate hlegal, List.filter_eq_self.mpr]
    intro line hline
    exact decide_eq_true (hlegal line hline).2
  rw [hframes, List.flatMap_map, List.flatMap_congr hblock]
  change _ = (textLines videoText).map (Text.tokens isSpace)
  rw [← hlines, List.map_flatten, List.flatMap_def]

/-! ## Decoding frame by frame -/

/-- The colours of a row, if its codes can be decoded. -/
def rowColors (row : List Bytes) : List RGB :=
  match row.mapM codeToRGB with
  | .ok colors => colors
  | .error _ => []

/-- The decoder returns the colours of all rows. -/
theorem pixels_of_foldlM {rows : List (List Bytes)} {image : Decoded}
    (hrun : rows.foldlM readRow ⟨[], 0, 0⟩ = .ok image) :
    image.pixels = rows.flatMap rowColors := by
  induction rows using List.reverseRecOn generalizing image with
  | nil =>
      cases hrun
      rfl
  | append_singleton rows row ih =>
      obtain ⟨before, hbefore, hrow⟩ := foldlM_concat_eq_ok_iff.mp hrun
      have hheight : 0 ≤ before.height :=
        (readsRows_of_foldlM hbefore).height ▸ Int.natCast_nonneg _
      obtain ⟨colors, hcolors, -, rfl⟩ := (readRow_eq_ok_iff hheight).mp hrow
      rw [List.flatMap_append, List.flatMap_singleton, ← ih hbefore, rowColors, hcolors]

/-- The pixels and the height of a text. -/
theorem textToPixel_spec {text : Bytes} {image : Decoded} (himage : textToPixel text = .ok image) :
    image.pixels = (codeRows text).flatMap rowColors ∧ image.height = (codeRows text).length := by
  rw [textToPixel_eq_codeRows] at himage
  exact ⟨pixels_of_foldlM himage, (readsRows_of_foldlM himage).height⟩

/-- A text is decoded exactly if its lines and the letters of each code can be counted. -/
theorem exists_textToPixel_iff (text : Bytes) :
    (∃ image, textToPixel text = .ok image) ↔
      (codeRows text).length < 2 ^ 31 ∧
        ∀ row ∈ codeRows text, ∀ code ∈ row, letterCount code < 2 ^ 31 := by
  rw [textToPixel_eq_codeRows]
  exact exists_foldlM_readRow_iff (codeRows text)

/-- The pixels and the heights of several texts, taken together. -/
theorem mapM_textToPixel_spec {texts : List Bytes} {images : List Decoded}
    (himages : texts.mapM textToPixel = .ok images) :
    images.flatMap Decoded.pixels = (texts.flatMap codeRows).flatMap rowColors ∧
      (images.map Decoded.height).sum = (texts.flatMap codeRows).length := by
  induction texts generalizing images with
  | nil =>
      cases himages
      exact ⟨rfl, rfl⟩
  | cons text texts ih =>
      obtain ⟨image, rest, himage, hrest, rfl⟩ := mapM_cons_eq_ok_iff.mp himages
      obtain ⟨hpixels, hheight⟩ := textToPixel_spec himage
      obtain ⟨hrestPixels, hrestHeight⟩ := ih hrest
      refine ⟨?_, ?_⟩
      · rw [List.flatMap_cons, List.flatMap_cons, List.flatMap_append, hpixels, hrestPixels]
      · rw [List.map_cons, List.sum_cons, List.flatMap_cons, List.length_append, hheight,
          hrestHeight, Nat.cast_add]

/-- Frames decoded one by one give the pixels of the text they were cut from, and as many
lines. The text can be decoded exactly if its frames can and an `int` can count the lines
of all of them. -/
theorem mapM_textToPixel_splitFrames (videoText : Bytes) :
    (∀ image, textToPixel videoText = .ok image →
      ∃ images, (splitFrames videoText).mapM textToPixel = .ok images ∧
        images.flatMap Decoded.pixels = image.pixels ∧
        (images.map Decoded.height).sum = image.height) ∧
    ∀ images, (splitFrames videoText).mapM textToPixel = .ok images →
      (images.map Decoded.height).sum < 2 ^ 31 →
      ∃ image, textToPixel videoText = .ok image := by
  have hrows := flatMap_codeRows_splitFrames videoText
  -- a frame holds some of the rows of the text
  have hmem (frame : Bytes) (hframe : frame ∈ splitFrames videoText) (row : List Bytes)
      (hrow : row ∈ codeRows frame) : row ∈ codeRows videoText := by
    rw [← hrows]
    exact List.mem_flatMap.mpr ⟨frame, hframe, hrow⟩
  refine ⟨fun image himage => ?_, fun images himages hcount => ?_⟩
  · obtain ⟨hlines, hcodes⟩ := (exists_textToPixel_iff videoText).mp ⟨image, himage⟩
    have hframes : ∃ images, (splitFrames videoText).mapM textToPixel = .ok images := by
      apply (exists_mapM_iff _).mpr
      intro frame hframe
      apply (exists_textToPixel_iff frame).mpr
      refine ⟨?_, fun row hrow => hcodes row (hmem frame hframe row hrow)⟩
      have hsome : (codeRows frame).length ≤ (codeRows videoText).length := by
        rw [← hrows]
        exact (List.sublist_flatten_of_mem (List.mem_map_of_mem hframe)).length_le
      omega
    obtain ⟨images, himages⟩ := hframes
    obtain ⟨hpixels, hheights⟩ := mapM_textToPixel_spec himages
    obtain ⟨hpixel, hheight⟩ := textToPixel_spec himage
    rw [hrows] at hpixels hheights
    exact ⟨images, himages, hpixels.trans hpixel.symm, hheights.trans hheight.symm⟩
  · apply (exists_textToPixel_iff videoText).mpr
    obtain ⟨-, hheights⟩ := mapM_textToPixel_spec himages
    rw [hrows] at hheights
    refine ⟨by omega, fun row hrow => ?_⟩
    rw [← hrows] at hrow
    obtain ⟨frame, hframe, hrow⟩ := List.mem_flatMap.mp hrow
    have hframes := (exists_mapM_iff _).mp ⟨images, himages⟩ frame hframe
    exact ((exists_textToPixel_iff frame).mp hframes).2 row hrow

end Dht
