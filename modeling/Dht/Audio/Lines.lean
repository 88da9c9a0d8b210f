/-
# The lines the audio reader takes

The format `textToAudio` is written for is a line `A(n)` with a decimal integer. The
reader looks for `A(` and for the first closing parenthesis anywhere in the line, and
hands whatever stands between the first opening one and that to `stoi`. So a line that
holds both marks always counts: either it adds a sample or it ends the call with an
exception of the standard library. The reader therefore keeps to the format exactly on
the texts in which no other line holds both marks.
-/

import Dht.Audio.Text

namespace Dht

/-! ## The format -/

/-- The `n` of a line `A(n)`, if the line is one and `n` fits in an `int`. -/
def lineNumber (line : Bytes) : Option ℤ :=
  let numeral := (line.drop 2).dropLast
  if line = ascii "A(" ++ numeral ++ ascii ")" then
    (decimal numeral).filter fun number => -2 ^ 31 ≤ number ∧ number < 2 ^ 31
  else none

/-- `textToAudio` returns the numbers of the lines `A(n)`, in order and as fractions,
and nothing for any other line. -/
def ReadsFormat (text : Bytes) : Prop :=
  textToAudio text =
    .ok (((Text.lines newline text).filterMap lineNumber).map fun number : ℤ => (number : ℚ) / 100)

/-- Both marks the reader looks for occur in the line. -/
def marked (line : Bytes) : Bool :=
  (Text.find (ascii "A(") line).isSome && (Text.find (ascii ")") line).isSome

/-! ## Lines -/

section Line

variable {line : Bytes} {number : ℤ}

/-- The shape of a line `A(n)`. -/
theorem lineNumber_eq_some (hline : lineNumber line = some number) :
    ∃ numeral, line = ascii "A(" ++ numeral ++ ascii ")" ∧ decimal numeral = some number ∧
      -2 ^ 31 ≤ number ∧ number < 2 ^ 31 := by
  rw [lineNumber] at hline
  split at hline
  · next hshape =>
      obtain ⟨hdecimal, hfits⟩ := Option.filter_eq_some_iff.mp hline
      exact ⟨_, hshape, hdecimal, of_decide_eq_true hfits⟩
  · cases hline

/-- The reader takes a line `A(n)` for what it is. -/
theorem readSample_of_lineNumber (hline : lineNumber line = some number) (samples : List ℚ) :
    readSample samples line = .ok (samples ++ [(number : ℚ) / 100]) := by
  obtain ⟨numeral, rfl, hdecimal, hfits⟩ := lineNumber_eq_some hline
  have hfree : ')'.toUInt8 ∉ numeral := fun hmem => (not_mem_of_decimal hdecimal hmem).2 rfl
  exact readSample_between hfree (stoi_of_decimal hdecimal hfits) samples

/-- A line without one of the marks is passed over. -/
theorem readSample_of_not_marked (hline : marked line = false) (samples : List ℚ) :
    readSample samples line = .ok samples := by
  rw [readSample]
  cases hopen : Text.find (ascii "A(") line with
  | none => rfl
  | some _ =>
      cases hclose : Text.find (ascii ")") line with
      | none => rfl
      | some _ => simp [marked, hopen, hclose] at hline

/-- A line with both marks is never passed over. -/
theorem length_readSample (hline : marked line = true) {samples next : List ℚ}
    (hread : readSample samples line = .ok next) : next.length = samples.length + 1 := by
  rw [marked, Bool.and_eq_true, Option.isSome_iff_exists, Option.isSome_iff_exists] at hline
  obtain ⟨⟨_, hopen⟩, ⟨_, hclose⟩⟩ := hline
  rw [readSample, hopen, hclose] at hread
  dsimp only at hread
  obtain ⟨value, -, hnext⟩ := bind_eq_ok_iff.mp hread
  cases hnext
  rw [List.length_append, List.length_singleton]

/-- A line `A(n)` holds both marks. -/
theorem marked_of_lineNumber (hline : (lineNumber line).isSome = true) : marked line = true := by
  obtain ⟨number, hnumber⟩ := Option.isSome_iff_exists.mp hline
  by_contra hunmarked
  have hread := readSample_of_lineNumber hnumber []
  rw [readSample_of_not_marked (Bool.not_eq_true _ ▸ hunmarked)] at hread
  cases hread

end Line

/-! ## Texts -/

/-- What one line adds under the format. -/
def formatSample (samples : List ℚ) (line : Bytes) : List ℚ :=
  samples ++ (lineNumber line).toList.map fun number : ℤ => (number : ℚ) / 100

theorem foldl_formatSample (lines : List Bytes) (samples : List ℚ) :
    lines.foldl formatSample samples =
      samples ++ (lines.filterMap lineNumber).map fun number : ℤ => (number : ℚ) / 100 := by
  induction lines generalizing samples with
  | nil => simp
  | cons line lines ih =>
      rw [List.foldl_cons, ih, formatSample, List.append_assoc, ← List.map_append]
      cases hline : lineNumber line <;> simp [hline]

/-- A run of the loop adds a sample for every line with both marks. -/
theorem length_foldlM_readSample {lines : List Bytes} {samples result : List ℚ}
    (hread : lines.foldlM readSample samples = .ok result) :
    result.length = samples.length + lines.countP marked := by
  induction lines generalizing samples with
  | nil =>
      cases hread
      rfl
  | cons line lines ih =>
      rw [List.foldlM_cons, bind_eq_ok_iff] at hread
      obtain ⟨next, hline, hrest⟩ := hread
      rw [ih hrest, List.countP_cons]
      by_cases hmarked : marked line = true
      · rw [length_readSample hmarked hline, if_pos hmarked]
        omega
      · rw [readSample_of_not_marked (Bool.not_eq_true _ ▸ hmarked)] at hline
        cases hline
        rw [if_neg hmarked, Nat.add_zero]

/-- The reader keeps to its format exactly on the texts in which every line that holds
both `A(` and `)` is a line `A(n)`. -/
theorem readsFormat_iff (text : Bytes) :
    ReadsFormat text ↔
      ∀ line ∈ Text.lines newline text, marked line = true → (lineNumber line).isSome = true := by
  constructor
  · intro hformat line hline hmarked
    -- as many lines hold both marks as have a number, so they are the same lines
    have hlength := length_foldlM_readSample hformat
    rw [List.length_map, List.length_filterMap_eq_countP, List.countP_eq_length_filter,
      List.countP_eq_length_filter, List.length_nil, Nat.zero_add] at hlength
    have hsame : (Text.lines newline text).filter (fun line => (lineNumber line).isSome) =
        (Text.lines newline text).filter marked := by
      refine List.Sublist.eq_of_length ?_ hlength
      exact List.monotone_filter_right _ fun line hnumber => marked_of_lineNumber hnumber
    have hmem : line ∈ (Text.lines newline text).filter marked :=
      List.mem_filter.mpr ⟨hline, hmarked⟩
    rw [← hsame] at hmem
    exact (List.mem_filter.mp hmem).2
  · intro hlines
    have hturns : ∀ line ∈ Text.lines newline text, ∀ samples,
        readSample samples line = .ok (formatSample samples line) := by
      intro line hline samples
      rw [formatSample]
      cases hnumber : lineNumber line with
      | some number =>
          rw [readSample_of_lineNumber hnumber]
          rfl
      | none =>
          have hunmarked : marked line = false := by
            by_contra hmarked
            have hsome := hlines line hline (Bool.not_eq_false _ ▸ hmarked)
            rw [hnumber] at hsome
            cases hsome
          rw [readSample_of_not_marked hunmarked]
          simp
    rw [ReadsFormat, textToAudio, foldlM_eq_ok hturns, foldl_formatSample, List.nil_append]

/-- On `A(x)` the call ends with the exception of `stoi`, and of `A(1.5)` the reader takes
the digits before the point. -/
theorem not_readsFormat_letter :
    textToAudio (ascii "A(x)") = .error .invalidArgument ∧ ¬ ReadsFormat (ascii "A(x)") ∧
      textToAudio (ascii "A(1.5)") = .ok [1 / 100] ∧ ¬ ReadsFormat (ascii "A(1.5)") := by
  have hletter : textToAudio (ascii "A(x)") = .error .invalidArgument := by decide
  have hpoint : textToAudio (ascii "A(1.5)") = .ok [1 / 100] := by decide +kernel
  have hnone : (Text.lines newline (ascii "A(1.5)")).filterMap lineNumber = [] := by decide
  refine ⟨hletter, fun hformat => ?_, hpoint, fun hformat => ?_⟩
  · rw [ReadsFormat, hletter] at hformat
    cases hformat
  · rw [ReadsFormat, hpoint, hnone] at hformat
    cases hformat

end Dht
