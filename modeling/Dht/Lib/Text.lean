/-
# Reading and writing separated text

A text is a list over an alphabet. `lines` is what repeated `getline` calls
deliver, `tokens` what repeated formatted extraction delivers, `find` the first
occurrence of a pattern, and `separated` the loop that appends pieces with a
separator after each of them but the last. Each reader is tied to the single
stream operation it repeats, and the writer to `List.intercalate`, so that round
trips are inversions of an intercalation.
-/

import Mathlib.Algebra.GroupWithZero.Nat
import Mathlib.Data.List.Basic
import Mathlib.Data.List.TakeWhile

namespace Text

universe u

variable {α : Type u}

/-! ## Lines -/

section Lines

variable [DecidableEq α]

/-- One `getline`: the characters up to the separator, which is consumed and
dropped. At the end of the input nothing is extracted and the call fails. -/
def getline (sep : α) : List α → Option (List α × List α)
  | [] => none
  | text => some (text.takeWhile (· ≠ sep), (text.dropWhile (· ≠ sep)).drop 1)

/-- All lines of a text. A separator at the very end does not start an empty
last line; one anywhere else ends a line, possibly an empty one. -/
def lines (sep : α) : List α → List (List α)
  | [] => []
  | c :: text =>
      if c = sep then [] :: lines sep text
      else
        match lines sep text with
        | [] => [[c]]
        | line :: rest => (c :: line) :: rest

@[simp]
theorem lines_nil (sep : α) : lines sep [] = [] := rfl

@[simp]
theorem lines_sep_cons (sep : α) (text : List α) :
    lines sep (sep :: text) = [] :: lines sep text := by
  simp [lines]

/-- A line followed by its separator is delivered first. -/
theorem lines_append_sep {sep : α} {line : List α} (hline : sep ∉ line)
    (text : List α) : lines sep (line ++ sep :: text) = line :: lines sep text := by
  induction line with
  | nil => simp
  | cons c line ih =>
      rw [List.mem_cons, not_or] at hline
      obtain ⟨hc, hrest⟩ := hline
      rw [List.cons_append, lines, if_neg (Ne.symm hc), ih hrest]

/-- The last line needs no separator, provided it has a character. -/
theorem lines_of_not_mem {sep : α} {line : List α} (hline : sep ∉ line)
    (hne : line ≠ []) : lines sep line = [line] := by
  induction line with
  | nil => exact absurd rfl hne
  | cons c line ih =>
      rw [List.mem_cons, not_or] at hline
      obtain ⟨hc, hrest⟩ := hline
      rw [lines, if_neg (Ne.symm hc)]
      cases line with
      | nil => rfl
      | cons d line => rw [ih hrest (List.cons_ne_nil d line)]

/-- `lines` is the loop `while (getline(...))`: it delivers what one call
extracts and then the lines of what that call left. -/
theorem lines_eq_getline (sep : α) (text : List α) :
    lines sep text =
      match getline sep text with
      | none => []
      | some (line, rest) => line :: lines sep rest := by
  induction text with
  | nil => rfl
  | cons c text ih =>
      by_cases hc : c = sep
      · simp [getline, hc]
      · have hcall : getline sep (c :: text) =
            some (c :: text.takeWhile (· ≠ sep),
              (text.dropWhile (· ≠ sep)).drop 1) := by
          simp [getline, hc]
        rw [lines, if_neg hc, ih, hcall]
        cases text with
        | nil => rfl
        | cons d text => rfl

/-- **Induction on lines.** A text is empty, a last line without a separator, or a line, its
separator and a text. -/
theorem lines_induction (sep : α) {motive : List α → Prop} (nil : motive [])
    (last : ∀ line, sep ∉ line → line ≠ [] → motive line)
    (next : ∀ line text, sep ∉ line → motive text → motive (line ++ sep :: text))
    (text : List α) : motive text := by
  induction hlength : text.length using Nat.strong_induction_on generalizing text with
  | _ length ih =>
      by_cases hmem : sep ∈ text
      · obtain ⟨line, rest, rfl, hline⟩ := List.eq_append_cons_of_mem hmem
        rw [List.length_append, List.length_cons] at hlength
        exact next line rest hline (ih rest.length (by omega) rest rfl)
      · by_cases hempty : text = []
        · rw [hempty]
          exact nil
        · exact last text hmem hempty

/-- No line holds the separator. -/
theorem not_mem_of_mem_lines {sep : α} {text line : List α} (hline : line ∈ lines sep text) :
    sep ∉ line := by
  induction text generalizing line with
  | nil => exact absurd hline List.not_mem_nil
  | cons c text ih =>
      rw [lines] at hline
      by_cases hc : c = sep
      · rw [if_pos hc, List.mem_cons] at hline
        rcases hline with rfl | hrest
        · exact List.not_mem_nil
        · exact ih hrest
      · rw [if_neg hc] at hline
        cases hlines : lines sep text with
        | nil =>
            rw [hlines, List.mem_singleton] at hline
            rw [hline, List.mem_singleton]
            exact Ne.symm hc
        | cons first rest =>
            rw [hlines] at hline ih
            rcases List.mem_cons.mp hline with rfl | hrest
            · rw [List.mem_cons, not_or]
              exact ⟨Ne.symm hc, ih List.mem_cons_self⟩
            · exact ih (List.mem_cons_of_mem first hrest)

/-- The number of non-empty lines of a text: one more wherever a character stands before a
separator or at the end. -/
theorem length_filter_lines_cons (sep c : α) (text : List α) :
    ((lines sep (c :: text)).filter (· ≠ [])).length =
      ((lines sep text).filter (· ≠ [])).length +
        if c ≠ sep ∧ text.head?.all (· = sep) then 1 else 0 := by
  by_cases hc : c = sep
  · subst hc
    simp
  · cases text with
    | nil => simp [lines, hc]
    | cons d text =>
        by_cases hd : d = sep
        · subst hd
          simp [lines, hc]
        · rw [lines, if_neg hc, lines, if_neg hd]
          cases lines sep text with
          | nil => simp [hd]
          | cons line rest => simp [hd]

/-- Non-empty separator-free lines survive being joined and split again. -/
theorem lines_intercalate {sep : α} {pieces : List (List α)}
    (hpieces : ∀ piece ∈ pieces, sep ∉ piece ∧ piece ≠ []) :
    lines sep ([sep].intercalate pieces) = pieces := by
  induction pieces with
  | nil => rfl
  | cons piece pieces ih =>
      obtain ⟨hfree, hne⟩ := hpieces piece List.mem_cons_self
      cases pieces with
      | nil => simpa [List.intercalate] using lines_of_not_mem hfree hne
      | cons next pieces =>
          have hrest := ih fun other hother =>
            hpieces other (List.mem_cons_of_mem piece hother)
          rw [List.intercalate_cons_cons, List.append_assoc, List.singleton_append,
            lines_append_sep hfree, hrest]

/-- Lines that all end with the separator are delivered as they are, empty ones too. -/
theorem lines_flatMap {sep : α} {pieces : List (List α)} (hpieces : ∀ piece ∈ pieces, sep ∉ piece) :
    lines sep (pieces.flatMap (· ++ [sep])) = pieces := by
  induction pieces with
  | nil => rfl
  | cons piece pieces ih =>
      rw [List.forall_mem_cons] at hpieces
      rw [List.flatMap_cons, List.append_assoc, List.singleton_append,
        lines_append_sep hpieces.1, ih hpieces.2]

/-- A block of lines followed by a separator is delivered line by line. -/
theorem lines_block_append {sep : α} {block : List (List α)} (hne : block ≠ [])
    (hblock : ∀ line ∈ block, sep ∉ line) (text : List α) :
    lines sep ([sep].intercalate block ++ sep :: text) = block ++ lines sep text := by
  induction block with
  | nil => exact absurd rfl hne
  | cons line block ih =>
      rw [List.forall_mem_cons] at hblock
      cases block with
      | nil =>
          rw [List.intercalate_singleton, lines_append_sep hblock.1, List.singleton_append]
      | cons next block =>
          rw [List.intercalate_cons_cons, List.append_assoc, List.append_assoc,
            List.singleton_append, lines_append_sep hblock.1,
            ih (List.cons_ne_nil next block) hblock.2]
          rfl

/-- Blocks with an empty line between them. The separator at the end of the text may
be there or not. -/
theorem lines_blocks {sep : α} {blocks : List (List (List α))}
    (hblocks : ∀ block ∈ blocks, block ≠ [] ∧ ∀ line ∈ block, sep ∉ line ∧ line ≠ []) :
    lines sep ([sep, sep].intercalate (blocks.map [sep].intercalate)) =
        [[]].intercalate blocks ∧
      (blocks ≠ [] → lines sep ([sep, sep].intercalate (blocks.map [sep].intercalate) ++ [sep]) =
        [[]].intercalate blocks) := by
  induction blocks with
  | nil => exact ⟨rfl, fun hne => absurd rfl hne⟩
  | cons block blocks ih =>
      rw [List.forall_mem_cons] at hblocks
      obtain ⟨⟨hne, hlines⟩, hrest⟩ := hblocks
      have hfree : ∀ line ∈ block, sep ∉ line := fun line hline => (hlines line hline).1
      cases blocks with
      | nil =>
          simp only [List.map_cons, List.map_nil, List.intercalate_singleton]
          refine ⟨lines_intercalate hlines, fun _ => ?_⟩
          rw [lines_block_append hne hfree, lines_nil, List.append_nil]
      | cons next blocks =>
          obtain ⟨hopen, hclosed⟩ := ih hrest
          have hsplit (text : List α) :
              [sep].intercalate block ++ [sep, sep] ++ text =
                [sep].intercalate block ++ sep :: sep :: text := by
            simp
          simp only [List.map_cons, List.intercalate_cons_cons] at hopen hclosed ⊢
          refine ⟨?_, fun _ => ?_⟩
          · rw [hsplit, lines_block_append hne hfree, lines_sep_cons, hopen,
              List.append_assoc, List.singleton_append]
          · rw [hsplit, List.append_assoc, List.cons_append, List.cons_append,
              lines_block_append hne hfree, lines_sep_cons,
              hclosed (List.cons_ne_nil next blocks), List.append_assoc, List.singleton_append]

end Lines

/-! ## Tokens -/

section Tokens

variable (space : α → Bool)

/-- One formatted extraction: skip spaces, then take the characters up to the
next space. With nothing but spaces left the call fails. -/
def extract (text : List α) : Option (List α × List α) :=
  match text.dropWhile space with
  | [] => none
  | c :: rest =>
      some ((c :: rest).takeWhile (!space ·), (c :: rest).dropWhile (!space ·))

/-- All tokens of a text: its maximal non-empty runs free of spaces. -/
def tokens (text : List α) : List (List α) :=
  (text.splitOnP space).filter (!·.isEmpty)

@[simp]
theorem tokens_nil : tokens space [] = [] := rfl

variable {space}

/-- A space separates: the tokens on its two sides never merge. -/
theorem tokens_append_space {sep : α} (hsep : space sep) (before after : List α) :
    tokens space (before ++ sep :: after) =
      tokens space before ++ tokens space after := by
  rw [tokens, List.splitOnP_append_cons before after hsep, List.filter_append]
  rfl

@[simp]
theorem tokens_space_cons {sep : α} (hsep : space sep) (text : List α) :
    tokens space (sep :: text) = tokens space text := by
  simpa using tokens_append_space hsep [] text

/-- A non-empty word is its own only token. -/
theorem tokens_of_free {word : List α} (hfree : ∀ c ∈ word, space c = false)
    (hne : word ≠ []) : tokens space word = [word] := by
  rw [tokens, List.splitOnP_eq_singleton hfree]
  simp [hne]

theorem tokens_dropWhile (text : List α) :
    tokens space (text.dropWhile space) = tokens space text := by
  induction text with
  | nil => rfl
  | cons c text ih =>
      by_cases hc : space c
      · rw [List.dropWhile_cons_of_pos hc, tokens_space_cons hc, ih]
      · rw [List.dropWhile_cons_of_neg hc]

/-- `tokens` is the loop `while (stream >> word)`: it delivers what one call
extracts and then the tokens of what that call left. -/
theorem tokens_eq_extract (text : List α) :
    tokens space text =
      match extract space text with
      | none => []
      | some (word, rest) => word :: tokens space rest := by
  rw [← tokens_dropWhile text, extract]
  cases htext : text.dropWhile space with
  | nil => rfl
  | cons c rest =>
      have hc : space c = false := by
        simpa [htext] using List.head?_dropWhile_not space text
      have hsplit : (c :: rest).takeWhile (!space ·) ++
          (c :: rest).dropWhile (!space ·) = c :: rest :=
        List.takeWhile_append_dropWhile
      have hfree : ∀ d ∈ (c :: rest).takeWhile (!space ·), space d = false := by
        intro d hd
        simpa using List.mem_takeWhile_imp hd
      have hne : (c :: rest).takeWhile (!space ·) ≠ [] := by simp [hc]
      change tokens space (c :: rest) = (c :: rest).takeWhile (!space ·) ::
        tokens space ((c :: rest).dropWhile (!space ·))
      conv_lhs => rw [← hsplit]
      -- what is left is empty or starts at the space that ended the word
      cases hleft : (c :: rest).dropWhile (!space ·) with
      | nil => rw [List.append_nil, tokens_of_free hfree hne, tokens_nil]
      | cons d after =>
          have hd : space d := by
            simpa [hleft] using List.head?_dropWhile_not (!space ·) (c :: rest)
          rw [tokens_append_space hd, tokens_of_free hfree hne,
            tokens_space_cons hd, List.singleton_append]

/-- Space-free words survive being joined and split again. -/
theorem tokens_intercalate {sep : α} (hsep : space sep) {words : List (List α)}
    (hwords : ∀ word ∈ words, (∀ c ∈ word, space c = false) ∧ word ≠ []) :
    tokens space ([sep].intercalate words) = words := by
  induction words with
  | nil => rfl
  | cons word words ih =>
      obtain ⟨hfree, hne⟩ := hwords word List.mem_cons_self
      cases words with
      | nil => simpa [List.intercalate] using tokens_of_free hfree hne
      | cons next words =>
          have hrest := ih fun other hother =>
            hwords other (List.mem_cons_of_mem word hother)
          rw [List.intercalate_cons_cons, List.append_assoc, List.singleton_append,
            tokens_append_space hsep, tokens_of_free hfree hne, hrest,
            List.singleton_append]

end Tokens

/-! ## First occurrence -/

section Find

variable [DecidableEq α]

/-- Position of the first occurrence of `pattern`, if there is one. -/
def find (pattern : List α) : List α → Option ℕ
  | [] => if pattern = [] then some 0 else none
  | c :: text =>
      if pattern <+: c :: text then some 0
      else (find pattern text).map (· + 1)

/-- `text` is `before`, the pattern and `after`, and no occurrence starts earlier. -/
def FirstOccurrence (pattern text before after : List α) : Prop :=
  text = before ++ pattern ++ after ∧
    ∀ earlier later, text = earlier ++ pattern ++ later → before.length ≤ earlier.length

omit [DecidableEq α] in
theorem FirstOccurrence.unique {pattern text before after : List α}
    (hfirst : FirstOccurrence pattern text before after) {earlier later : List α}
    (hother : FirstOccurrence pattern text earlier later) :
    before = earlier ∧ after = later := by
  have hlength : before.length = earlier.length :=
    le_antisymm (hfirst.2 earlier later hother.1) (hother.2 before after hfirst.1)
  have hequal := hfirst.1.symm.trans hother.1
  rw [List.append_assoc, List.append_assoc] at hequal
  obtain ⟨hbefore, hrest⟩ := List.append_inj hequal hlength
  exact ⟨hbefore, List.append_cancel_left hrest⟩

omit [DecidableEq α] in
/-- A character that starts no occurrence is part of what stands before the first. -/
theorem FirstOccurrence.cons {pattern text before after : List α} {c : α}
    (hstart : ¬ pattern <+: c :: text) (hfirst : FirstOccurrence pattern text before after) :
    FirstOccurrence pattern (c :: text) (c :: before) after := by
  refine ⟨congrArg (c :: ·) hfirst.1, fun earlier later hother => ?_⟩
  cases earlier with
  | nil =>
      rw [List.nil_append] at hother
      exact absurd ⟨later, hother.symm⟩ hstart
  | cons d earlier =>
      rw [List.cons_append, List.cons_append, List.cons.injEq] at hother
      exact Nat.succ_le_succ (hfirst.2 earlier later hother.2)

/-- What is found is the first occurrence. -/
theorem find_eq_some {pattern text : List α} {position : ℕ}
    (hfind : find pattern text = some position) :
    ∃ before after, FirstOccurrence pattern text before after ∧ before.length = position := by
  induction text generalizing position with
  | nil =>
      rw [find] at hfind
      by_cases hempty : pattern = []
      · rw [if_pos hempty, Option.some.injEq] at hfind
        refine ⟨[], [], ⟨by rw [hempty]; rfl, fun _ _ _ => Nat.zero_le _⟩, hfind⟩
      · rw [if_neg hempty] at hfind
        cases hfind
  | cons c text ih =>
      rw [find] at hfind
      by_cases hstart : pattern <+: c :: text
      · rw [if_pos hstart, Option.some.injEq] at hfind
        obtain ⟨after, hafter⟩ := hstart
        exact ⟨[], after, ⟨hafter.symm, fun _ _ _ => Nat.zero_le _⟩, hfind⟩
      · rw [if_neg hstart, Option.map_eq_some_iff] at hfind
        obtain ⟨shorter, hshorter, rfl⟩ := hfind
        obtain ⟨before, after, hfirst, hlength⟩ := ih hshorter
        exact ⟨c :: before, after, hfirst.cons hstart, congrArg (· + 1) hlength⟩

/-- What is not found does not occur. -/
theorem find_eq_none {pattern text : List α} (hfind : find pattern text = none)
    (before after : List α) : text ≠ before ++ pattern ++ after := by
  induction text generalizing before with
  | nil =>
      intro hequal
      obtain ⟨hfront, -⟩ := List.append_eq_nil_iff.mp hequal.symm
      rw [find, if_pos (List.append_eq_nil_iff.mp hfront).2] at hfind
      cases hfind
  | cons c text ih =>
      rw [find] at hfind
      by_cases hstart : pattern <+: c :: text
      · rw [if_pos hstart] at hfind
        cases hfind
      · rw [if_neg hstart, Option.map_eq_none_iff] at hfind
        intro hequal
        cases before with
        | nil => exact hstart ⟨after, hequal.symm⟩
        | cons d before =>
            rw [List.cons_append, List.cons_append, List.cons.injEq] at hequal
            exact ih hfind before hequal.2

/-- A text without the pattern's first character does not contain it. -/
theorem find_eq_none_of_not_mem {first : α} {rest text : List α}
    (htext : first ∉ text) : find (first :: rest) text = none := by
  induction text with
  | nil => rfl
  | cons c text ih =>
      rw [List.mem_cons, not_or] at htext
      have hstart : ¬ first :: rest <+: c :: text := fun h =>
        htext.1 (List.cons_prefix_cons.mp h).1
      rw [find, if_neg hstart, ih htext.2, Option.map_none]

/-- Behind a part without the pattern's first character, the first occurrence
is the one that follows at once. -/
theorem find_append_of_not_mem {first : α} {rest before : List α}
    (hbefore : first ∉ before) (after : List α) :
    find (first :: rest) (before ++ (first :: rest ++ after)) =
      some before.length := by
  induction before with
  | nil => simp [find]
  | cons c before ih =>
      rw [List.mem_cons, not_or] at hbefore
      have hstart : ¬ first :: rest <+: c :: (before ++ (first :: rest ++ after)) :=
        fun h => hbefore.1 (List.cons_prefix_cons.mp h).1
      rw [List.cons_append, find, if_neg hstart, ih hbefore.2]
      rfl

end Find

/-! ## Writing pieces with a separator -/

section Separated

variable {m : Type u → Type u} [Monad m]

/-- The loop `for (i = 0; i < count; ++i)` that appends a piece for each `i` and
the separator after every piece but the last. -/
def separated (sep : List α) (count : ℕ) (piece : ℕ → m (List α))
    (result : List α) : m (List α) :=
  (List.range count).foldlM
    (fun result i => do
      let text ← piece i
      pure (if i + 1 < count then result ++ text ++ sep else result ++ text))
    result

/-- A joined text has no characters of its own. -/
theorem mem_of_mem_intercalate {c : α} {sep : List α} {pieces : List (List α)}
    (hc : c ∈ sep.intercalate pieces) : c ∈ sep ∨ ∃ piece ∈ pieces, c ∈ piece := by
  induction pieces with
  | nil => exact absurd hc List.not_mem_nil
  | cons piece pieces ih =>
      cases pieces with
      | nil =>
          rw [List.intercalate_singleton] at hc
          exact .inr ⟨piece, List.mem_cons_self, hc⟩
      | cons next pieces =>
          rw [List.intercalate_cons_cons, List.mem_append, List.mem_append] at hc
          rcases hc with (hpiece | hsep) | hrest
          · exact .inr ⟨piece, List.mem_cons_self, hpiece⟩
          · exact .inl hsep
          · rcases ih hrest with hsep | ⟨other, hother, hmem⟩
            · exact .inl hsep
            · exact .inr ⟨other, List.mem_cons_of_mem piece hother, hmem⟩

/-- A joined text is its first piece and the others, each behind a separator. -/
theorem intercalate_cons_eq_flatMap (sep first : List α) (pieces : List (List α)) :
    sep.intercalate (first :: pieces) = first ++ pieces.flatMap (sep ++ ·) := by
  induction pieces generalizing first with
  | nil => simp
  | cons next pieces ih =>
      rw [List.intercalate_cons_cons, ih, List.flatMap_cons]
      simp

/-- One more piece stands behind a separator, unless it is the first. -/
theorem intercalate_append_singleton (sep : List α) {pieces : List (List α)} (hne : pieces ≠ [])
    (last : List α) :
    sep.intercalate (pieces ++ [last]) = sep.intercalate pieces ++ sep ++ last := by
  cases pieces with
  | nil => exact absurd rfl hne
  | cons first pieces =>
      rw [List.cons_append, intercalate_cons_eq_flatMap, intercalate_cons_eq_flatMap,
        List.flatMap_append, List.flatMap_singleton, List.append_assoc, List.append_assoc]

theorem count_intercalate [DecidableEq α] (c : α) (sep : List α) (pieces : List (List α)) :
    (sep.intercalate pieces).count c =
      (pieces.map (List.count c)).sum + (pieces.length - 1) * sep.count c := by
  induction pieces with
  | nil => simp
  | cons piece pieces ih =>
      cases pieces with
      | nil => simp
      | cons next pieces =>
          have hlength : (piece :: next :: pieces).length - 1 = (next :: pieces).length - 1 + 1 :=
            rfl
          rw [List.intercalate_cons_cons, List.count_append, List.count_append, ih, hlength,
            Nat.add_mul, Nat.one_mul]
          simp only [List.map_cons, List.sum_cons]
          omega

theorem intercalate_ne_nil {sep : List α} {pieces : List (List α)} (hne : pieces ≠ [])
    (hpieces : ∀ piece ∈ pieces, piece ≠ []) : sep.intercalate pieces ≠ [] := by
  cases pieces with
  | nil => exact absurd rfl hne
  | cons first pieces =>
      rw [intercalate_cons_eq_flatMap]
      exact List.append_ne_nil_of_left_ne_nil (hpieces first List.mem_cons_self) _

theorem intercalate_concat (sep last : List α) (pieces : List (List α)) :
    sep.intercalate (pieces ++ [last]) =
      pieces.flatMap (· ++ sep) ++ last := by
  induction pieces with
  | nil => simp
  | cons piece pieces ih =>
      rw [List.cons_append, List.intercalate_cons_of_ne_nil (by simp), ih]
      simp

variable [LawfulMonad m]

/-- Before its last turn the loop has written a separator after every piece. -/
theorem foldlM_separated_of_lt (sep : List α) (count : ℕ)
    {piece : ℕ → m (List α)} {text : ℕ → List α}
    (hpiece : ∀ i < count, piece i = pure (text i)) (result : List α)
    {done : ℕ} (hdone : done < count) :
    (List.range done).foldlM
        (fun result i => do
          let text ← piece i
          pure (if i + 1 < count then result ++ text ++ sep else result ++ text))
        result =
      pure (result ++ ((List.range done).map text).flatMap (· ++ sep)) := by
  induction done with
  | zero => simp
  | succ done ih =>
      have hlt : done < count := Nat.lt_of_succ_lt hdone
      rw [List.range_succ, List.foldlM_append, ih hlt, pure_bind]
      simp [hpiece done hlt, hdone, List.append_assoc]

/-- The loop writes the intercalation of its pieces. -/
theorem separated_eq_intercalate (sep : List α) {count : ℕ}
    {piece : ℕ → m (List α)} {text : ℕ → List α}
    (hpiece : ∀ i < count, piece i = pure (text i)) (result : List α) :
    separated sep count piece result =
      pure (result ++ sep.intercalate ((List.range count).map text)) := by
  cases count with
  | zero => simp [separated]
  | succ last =>
      rw [separated, List.range_succ, List.foldlM_append,
        foldlM_separated_of_lt sep (last + 1) hpiece result (Nat.lt_succ_self last),
        pure_bind, List.map_append, List.map_singleton, intercalate_concat]
      simp [hpiece last (Nat.lt_succ_self last), List.append_assoc]

end Separated

section Failing

variable {ε : Type u} {σ : Type u} {β : Type*}

/-- A loop that returns has returned in every turn. -/
theorem exists_of_foldlM_eq_ok {body : σ → β → Except ε σ} {turns : List β} {start stop : σ}
    (hloop : turns.foldlM body start = .ok stop) {turn : β} (hturn : turn ∈ turns) :
    ∃ before after, body before turn = .ok after := by
  induction turns generalizing start with
  | nil => exact absurd hturn List.not_mem_nil
  | cons first turns ih =>
      rw [List.foldlM_cons] at hloop
      cases hfirst : body start first with
      | error failure =>
          rw [hfirst] at hloop
          cases hloop
      | ok next =>
          rw [hfirst] at hloop
          rcases List.mem_cons.mp hturn with rfl | hrest
          · exact ⟨start, next, hfirst⟩
          · exact ih hloop hrest

/-- The writing loop returns only if all its pieces do. -/
theorem exists_piece_of_separated {sep : List α} {count : ℕ}
    {piece : ℕ → Except ε (List α)} {result text : List α}
    (hloop : separated sep count piece result = .ok text) {i : ℕ} (hi : i < count) :
    ∃ written, piece i = .ok written := by
  obtain ⟨before, after, hbody⟩ := exists_of_foldlM_eq_ok hloop (List.mem_range.mpr hi)
  cases hpiece : piece i with
  | error failure =>
      rw [hpiece] at hbody
      cases hbody
  | ok written => exact ⟨written, rfl⟩

end Failing

end Text
