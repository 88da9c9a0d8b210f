/-
# Frames and audio in one text

`joinVideoText` puts an empty line between frames and a marker line before the audio
text. `decryptVideo` takes the text apart again: at the first marker, then at empty
lines. Writer and reader agree on bytes that neither of them spells out: the newline
before the marker ends up in the video part, where it does no harm, and the one
behind it is skipped with the marker.

They agree for every list of frames and every audio text, since the text of a frame
has no empty line and no character of the marker.
-/

import Dht.Image.Rectangular

namespace Dht

/-! ## Writer -/

/-- `frameToText`. -/
def frameToText (order : IterationOrder) (pixels : List RGB) (width height : ℤ) :
    Outcome Bytes :=
  pixelToText order pixels width height

def audioMarker : Bytes := ascii "---AUDIO_START---"

/-- `joinVideoText`. -/
def joinVideoText (frames : List Bytes) (audioText : Bytes) : Bytes :=
  let result := Id.run (Text.separated (ascii "\n\n") frames.length
    (fun i => pure (frames.getD i [])) [])
  if audioText = [] then result
  else result ++ ascii "\n---AUDIO_START---\n" ++ audioText

/-! ## Reader -/

/-- The video part and the audio part. The marker has 17 characters, 18 are skipped. -/
def splitAudio (textData : Bytes) : Outcome (Bytes × Bytes) :=
  match Text.find audioMarker textData with
  | some audioPos => do
      let audioText ← substr textData (audioPos + 18)
      pure (textData.take audioPos, audioText)
  | none => .ok (textData, [])

/-- The local variables of the loop over lines. -/
structure FrameSplit where
  frameTexts : List Bytes
  currentFrame : Bytes

/-- The body of the loop. -/
def FrameSplit.addLine (split : FrameSplit) (line : Bytes) : FrameSplit :=
  if line = [] ∧ split.currentFrame ≠ [] then
    ⟨split.frameTexts ++ [split.currentFrame], []⟩
  else if line ≠ [] then
    ⟨split.frameTexts,
      (if split.currentFrame ≠ [] then split.currentFrame ++ [newline]
        else split.currentFrame) ++ line⟩
  else split

/-- What follows the loop. -/
def FrameSplit.flush (split : FrameSplit) : List Bytes :=
  if split.currentFrame ≠ [] then split.frameTexts ++ [split.currentFrame]
  else split.frameTexts

/-- The frames of the video part. -/
def splitFrames (videoText : Bytes) : List Bytes :=
  ((Text.lines newline videoText).foldl FrameSplit.addLine ⟨[], []⟩).flush

/-! ## The joined text -/

theorem joinVideoText_eq (frames : List Bytes) (audioText : Bytes) :
    joinVideoText frames audioText =
      [newline, newline].intercalate frames ++
        (if audioText = [] then [] else newline :: (audioMarker ++ newline :: audioText)) := by
  have hpieces : (List.range frames.length).map (fun i => frames.getD i []) = frames := by
    have hall := map_getD_range frames 0 frames.length [] (Nat.le_of_eq (Nat.zero_add _))
    simpa using hall
  have hframes : Id.run (Text.separated (ascii "\n\n") frames.length
      (fun i => pure (frames.getD i [])) []) = [newline, newline].intercalate frames := by
    rw [Text.separated_eq_intercalate (ascii "\n\n") fun _ _ => rfl, hpieces]
    rfl
  rw [joinVideoText, hframes]
  by_cases hempty : audioText = []
  · rw [if_pos hempty, if_pos hempty, List.append_nil]
  · rw [if_neg hempty, if_neg hempty, List.append_assoc]
    rfl

/-- A text without a dash is split before the marker that was written, or not at
all. -/
theorem splitAudio_join {video : Bytes} (hdash : '-'.toUInt8 ∉ video) (audioText : Bytes) :
    splitAudio (video ++
        (if audioText = [] then [] else newline :: (audioMarker ++ newline :: audioText))) =
      .ok (if audioText = [] then video else video ++ [newline], audioText) := by
  by_cases hempty : audioText = []
  · have hnone : Text.find audioMarker video = none := Text.find_eq_none_of_not_mem hdash
    rw [if_pos hempty, if_pos hempty, List.append_nil, splitAudio, hnone, hempty]
  · have hbefore : '-'.toUInt8 ∉ video ++ [newline] := by
      rw [List.mem_append, not_or]
      exact ⟨hdash, by decide⟩
    have hfound : Text.find audioMarker
        (video ++ [newline] ++ (audioMarker ++ newline :: audioText)) =
          some (video ++ [newline]).length :=
      Text.find_append_of_not_mem hbefore _
    have hskip : (video ++ [newline] ++ (audioMarker ++ newline :: audioText)).drop
        ((video ++ [newline]).length + 18) = audioText := by
      rw [← List.drop_drop, List.drop_left]
      rfl
    have hlong : ¬ (video ++ [newline] ++ (audioMarker ++ newline :: audioText)).length <
        (video ++ [newline]).length + 18 := by
      have hmarker : audioMarker.length = 17 := by decide
      simp only [List.length_append, List.length_cons, hmarker]
      omega
    rw [if_neg hempty, if_neg hempty, List.append_cons, splitAudio, hfound]
    dsimp only
    rw [substr, if_neg hlong, ok_bind, hskip, List.take_left]
    rfl

/-! ## Splitting blocks of lines -/

/-- A line is appended to the frame, behind a newline if it is not the first. -/
theorem FrameSplit.addLine_line (done : List Bytes) (current : Bytes) {line : Bytes}
    (hline : line ≠ []) :
    FrameSplit.addLine ⟨done, current⟩ line =
      ⟨done, (if current ≠ [] then current ++ [newline] else current) ++ line⟩ := by
  rw [FrameSplit.addLine, if_neg fun h => hline h.1, if_pos hline]

/-- An empty line ends the frame. -/
theorem FrameSplit.addLine_empty (done : List Bytes) {current : Bytes}
    (hcurrent : current ≠ []) :
    FrameSplit.addLine ⟨done, current⟩ [] = ⟨done ++ [current], []⟩ := by
  rw [FrameSplit.addLine, if_pos ⟨rfl, hcurrent⟩]

theorem foldl_addLine_lines (done : List Bytes) {current : Bytes} (hcurrent : current ≠ [])
    {lines : List Bytes} (hlines : ∀ line ∈ lines, line ≠ []) :
    lines.foldl FrameSplit.addLine ⟨done, current⟩ =
      ⟨done, current ++ lines.flatMap ([newline] ++ ·)⟩ := by
  induction lines generalizing current with
  | nil => rw [List.foldl_nil, List.flatMap_nil, List.append_nil]
  | cons line lines ih =>
      rw [List.forall_mem_cons] at hlines
      have hnext : current ++ [newline] ++ line ≠ [] := by
        simp [hcurrent]
      rw [List.foldl_cons, FrameSplit.addLine_line done current hlines.1, if_pos hcurrent,
        ih hnext hlines.2, List.flatMap_cons, List.append_assoc, List.append_assoc,
        List.append_assoc]

/-- The lines of a block are collected. -/
theorem foldl_addLine_block (done : List Bytes) {block : List Bytes}
    (hlines : ∀ line ∈ block, line ≠ []) :
    block.foldl FrameSplit.addLine ⟨done, []⟩ = ⟨done, [newline].intercalate block⟩ := by
  cases block with
  | nil => rfl
  | cons line block =>
      rw [List.forall_mem_cons] at hlines
      rw [List.foldl_cons, FrameSplit.addLine_line done [] hlines.1, if_neg (by simp),
        List.nil_append, foldl_addLine_lines done hlines.1 hlines.2,
        Text.intercalate_cons_eq_flatMap]

/-- Blocks with an empty line between them are the frames. -/
theorem flush_foldl_addLine (done : List Bytes) {blocks : List (List Bytes)}
    (hblocks : ∀ block ∈ blocks, block ≠ [] ∧ ∀ line ∈ block, line ≠ []) :
    (([[]].intercalate blocks).foldl FrameSplit.addLine ⟨done, []⟩).flush =
      done ++ blocks.map [newline].intercalate := by
  induction blocks generalizing done with
  | nil => simp [FrameSplit.flush]
  | cons block blocks ih =>
      rw [List.forall_mem_cons] at hblocks
      obtain ⟨⟨hne, hlines⟩, hrest⟩ := hblocks
      have hframe : [newline].intercalate block ≠ [] := Text.intercalate_ne_nil hne hlines
      cases blocks with
      | nil =>
          rw [List.intercalate_singleton, foldl_addLine_block done hlines, FrameSplit.flush,
            if_pos hframe, List.map_singleton]
      | cons next blocks =>
          rw [List.intercalate_cons_cons, List.foldl_append, List.foldl_append,
            foldl_addLine_block done hlines, List.foldl_cons, List.foldl_nil,
            FrameSplit.addLine_empty done hframe, ih _ hrest, List.append_assoc,
            List.singleton_append]
          rfl

/-- The frames of a joined video part, with or without the newline at its end. -/
theorem splitFrames_blocks {blocks : List (List Bytes)}
    (hblocks : ∀ block ∈ blocks, block ≠ [] ∧ ∀ line ∈ block, newline ∉ line ∧ line ≠ []) :
    splitFrames ([newline, newline].intercalate (blocks.map [newline].intercalate)) =
        blocks.map [newline].intercalate ∧
      splitFrames ([newline, newline].intercalate (blocks.map [newline].intercalate) ++
        [newline]) = blocks.map [newline].intercalate := by
  have hnonempty : ∀ block ∈ blocks, block ≠ [] ∧ ∀ line ∈ block, line ≠ [] :=
    fun block hblock => ⟨(hblocks block hblock).1,
      fun line hline => ((hblocks block hblock).2 line hline).2⟩
  obtain ⟨hopen, hclosed⟩ := Text.lines_blocks hblocks
  have hflush := flush_foldl_addLine [] hnonempty
  rw [List.nil_append] at hflush
  refine ⟨?_, ?_⟩
  · rw [splitFrames, hopen, hflush]
  · by_cases hnone : blocks = []
    · subst hnone
      rfl
    · rw [splitFrames, hclosed hnone, hflush]

/-! ## The round trip -/

section Frames

variable (order : IterationOrder) {size : Dimensions}

/-- The lines of the text of a frame. -/
def frameLines (frame : size.Raster) : List Bytes :=
  (rows size.width size.height frame.toList).map (rowText order)

/-- The text of a frame. -/
def frameText (frame : size.Raster) : Bytes :=
  [newline].intercalate (frameLines order frame)

theorem mapM_frameToText (frames : List size.Raster) :
    frames.mapM (fun frame => frameToText order frame.toList size.width size.height) =
      .ok (frames.map (frameText order)) :=
  mapM_eq_ok fun frame _ => pixelToText_eq order frame

/-- There is no dash in the text of the frames. -/
theorem dash_not_mem_frames (frames : List size.Raster) :
    '-'.toUInt8 ∉ [newline, newline].intercalate (frames.map (frameText order)) := by
  intro hdash
  rcases Text.mem_of_mem_intercalate hdash with hsep | ⟨text, htext, hmem⟩
  · exact absurd hsep (by decide)
  obtain ⟨frame, -, rfl⟩ := List.mem_map.mp htext
  rcases Text.mem_of_mem_intercalate hmem with hsep | ⟨line, hline, hmem⟩
  · exact absurd hsep (by decide)
  obtain ⟨row, -, rfl⟩ := List.mem_map.mp hline
  exact absurd (rowText_letters order row hmem) (by decide)

theorem splitFrames_frames (frames : List size.Raster) :
    splitFrames ([newline, newline].intercalate (frames.map (frameText order))) =
        frames.map (frameText order) ∧
      splitFrames ([newline, newline].intercalate (frames.map (frameText order)) ++
        [newline]) = frames.map (frameText order) := by
  have hblocks : ∀ block ∈ frames.map (frameLines order),
      block ≠ [] ∧ ∀ line ∈ block, newline ∉ line ∧ line ≠ [] := by
    intro block hblock
    obtain ⟨frame, -, rfl⟩ := List.mem_map.mp hblock
    exact imageLines_block order frame
  have hsplit := splitFrames_blocks hblocks
  rw [List.map_map] at hsplit
  exact hsplit

/-- Joined frame texts are found again. -/
theorem exists_splitAudio (frames : List size.Raster) (audioText : Bytes) :
    ∃ videoText,
      splitAudio (joinVideoText (frames.map (frameText order)) audioText) =
        .ok (videoText, audioText) ∧
      splitFrames videoText = frames.map (frameText order) := by
  obtain ⟨hopen, hclosed⟩ := splitFrames_frames order frames
  have hsplit := splitAudio_join (dash_not_mem_frames order frames) audioText
  rw [← joinVideoText_eq] at hsplit
  refine ⟨_, hsplit, ?_⟩
  by_cases hempty : audioText = []
  · rw [if_pos hempty, hopen]
  · rw [if_neg hempty, hclosed]

/-- The reader finds the frames and the audio text the writer was given. -/
theorem splitAudio_joinVideoText (frames : List size.Raster) (audioText : Bytes) :
    ∃ frameTexts videoText,
      frames.mapM (fun frame => frameToText order frame.toList size.width size.height) =
        .ok frameTexts ∧
      splitAudio (joinVideoText frameTexts audioText) = .ok (videoText, audioText) ∧
      splitFrames videoText = frameTexts := by
  obtain ⟨videoText, hsplit, hframes⟩ := exists_splitAudio order frames audioText
  exact ⟨_, videoText, mapM_frameToText order frames, hsplit, hframes⟩

end Frames

end Dht
