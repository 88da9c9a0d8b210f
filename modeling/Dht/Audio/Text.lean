/-
# Audio as text

`sampleToText` writes one line for every `step`-th sample, its amplitude in percent;
`textToAudio` reads the number between the parentheses of a line. Samples are exact
rationals here: what the code computes of a `double` below 100 percent is a product by
100 and an integer part.

The reader takes any line with `A(` in it and trusts what follows to be a number, so on
other texts it throws what `stoi` throws. On the writer's lines it returns the
amplitudes, in order.
-/

import Dht.Image.Text
import Dht.Lib.Positional
import Mathlib.Algebra.Order.Floor.Div
import Mathlib.Data.PNat.Defs
import Mathlib.Data.Rat.Floor

namespace Dht

/-! ## Decimal numbers -/

def isDigit (c : UInt8) : Bool := 48 ≤ c ∧ c ≤ 57

/-- The character of a digit. -/
def digitByte (digit : ℕ) : UInt8 := UInt8.ofNat (48 + digit)

/-- `std::to_string` of an `int`. -/
def intText (value : ℤ) : Bytes :=
  let digits := (Positional.numeral 10 value.natAbs).map digitByte
  if value < 0 then '-'.toUInt8 :: digits else digits

/-- The sign of a number and what follows it. -/
def takeSign : Bytes → ℤ × Bytes
  | [] => (1, [])
  | c :: text =>
      if c = '-'.toUInt8 then (-1, text) else if c = '+'.toUInt8 then (1, text) else (1, c :: text)

/-- `std::stoi`: spaces, a sign and digits; what follows them is not looked at. -/
def stoi (text : Bytes) : Outcome ℤ :=
  let (sign, rest) := takeSign (text.dropWhile isSpace)
  let digits := rest.takeWhile isDigit
  if digits = [] then .error .invalidArgument
  else
    let value := sign * Positional.value 10 (digits.map fun c => c.toNat - 48)
    if -2 ^ 31 ≤ value ∧ value < 2 ^ 31 then .ok value else .error .outOfRange

/-- What a decimal integer denotes: a sign or none, and at least one digit. -/
def decimal (text : Bytes) : Option ℤ :=
  let (sign, digits) := takeSign text
  if digits ≠ [] ∧ digits.all isDigit then
    some (sign * Positional.value 10 (digits.map fun c => c.toNat - 48))
  else none

/-! ## Writer -/

/-- `amplitude`, in percent and at most 100. -/
def amplitude (sample : ℚ) : ℚ :=
  let amplitude := |sample| * 100
  if 100 < amplitude then 100 else amplitude

/-- What one turn of the loop appends, up to the newline. The conversion to `int` cuts
off the fraction of a number that is not negative. -/
def audioLine (sample : ℚ) : Bytes :=
  ascii "A(" ++ intText ⌊amplitude sample⌋ ++ ascii ")"

/-- `if (step < 1) step = 1`. -/
def clampStep (step : ℤ) : ℕ+ :=
  if step < 1 then 1 else step.toNat.toPNat'

/-- `step`. The size is divided as a `size_t`, and so is the other operand. -/
def sampleStep (size : ℕ) (samplesPerSecond : ℤ) : Outcome ℕ+ :=
  if samplesPerSecond = 0 then undefined
  else .ok (clampStep (toInt32 (size / (samplesPerSecond % 2 ^ 64))))

/-- The loop from index `i` on. -/
def sampleLoop (samples : List ℚ) (step : ℕ+) (i : ℕ) (result : Bytes) : Bytes :=
  if hi : i < samples.length then
    sampleLoop samples step (i + step) (result ++ (audioLine (samples.get ⟨i, hi⟩) ++ [newline]))
  else result
termination_by samples.length - i
decreasing_by
  have hpos := step.pos
  omega

/-- `sampleToText`. -/
def sampleToText (samples : List ℚ) (samplesPerSecond : ℤ) : Outcome Bytes := do
  let step ← sampleStep samples.length samplesPerSecond
  pure (sampleLoop samples step 0 [])

/-- `audioToText`. -/
def audioToText (samples : List ℚ) (samplesPerSecond : ℤ) : Outcome Bytes :=
  sampleToText samples samplesPerSecond

/-! ## Reader -/

/-- The number between two positions. With the parentheses in the wrong order
`end - start` wraps around, and everything behind `start` is taken. -/
def numberBetween (line : Bytes) (start finish : ℕ) : Outcome ℤ := do
  let rest ← substr line start
  stoi (if start ≤ finish then rest.take (finish - start) else rest)

/-- The body of the loop over lines. -/
def readSample (samples : List ℚ) (line : Bytes) : Outcome (List ℚ) :=
  match Text.find (ascii "A(") line with
  | none => .ok samples
  | some _ =>
      -- `npos + 1` is zero, so `start != npos` is always true
      let start := (Text.find (ascii "(") line).elim 0 (· + 1)
      match Text.find (ascii ")") line with
      | none => .ok samples
      | some finish => do
          let value ← numberBetween line start finish
          pure (samples ++ [(value : ℚ) / 100])

/-- `textToAudio`. -/
def textToAudio (text : Bytes) : Outcome (List ℚ) :=
  (Text.lines newline text).foldlM readSample []

/-! ## Numbers come back -/

/-- Digits are read as digits, and are no spaces, signs, parentheses or newlines. -/
theorem digitByte_spec {digit : ℕ} (hdigit : digit < 10) :
    isDigit (digitByte digit) = true ∧ (digitByte digit).toNat - 48 = digit ∧
      isSpace (digitByte digit) = false ∧ digitByte digit ∉ ascii "-+()\n" := by
  have hall : ∀ digit < 10,
      isDigit (digitByte digit) = true ∧ (digitByte digit).toNat - 48 = digit ∧
        isSpace (digitByte digit) = false ∧ digitByte digit ∉ ascii "-+()\n" := by
    decide
  exact hall digit hdigit

/-- What counts as a digit is the character of one. -/
theorem exists_digitByte {c : UInt8} (hdigit : isDigit c = true) :
    ∃ digit < 10, c = digitByte digit := by
  rw [isDigit, decide_eq_true_eq, UInt8.le_iff_toNat_le, UInt8.le_iff_toNat_le] at hdigit
  obtain ⟨hlow, hhigh⟩ := hdigit
  change 48 ≤ c.toNat at hlow
  change c.toNat ≤ 57 at hhigh
  refine ⟨c.toNat - 48, by omega, ?_⟩
  rw [digitByte, Nat.add_sub_cancel' hlow, UInt8.ofNat_toNat]

section Decimal

variable {text : Bytes} {number : ℤ}

/-- The parts of a decimal integer. -/
theorem decimal_eq_some (hdecimal : decimal text = some number) :
    (takeSign text).2 ≠ [] ∧ (∀ c ∈ (takeSign text).2, isDigit c = true) ∧
      number = (takeSign text).1 *
        Positional.value 10 ((takeSign text).2.map fun c => c.toNat - 48) := by
  rw [decimal] at hdecimal
  dsimp only at hdecimal
  split at hdecimal
  · next hdigits =>
      exact ⟨hdigits.1, List.all_eq_true.mp hdigits.2, (Option.some.inj hdecimal).symm⟩
  · cases hdecimal

/-- Every character of a decimal integer is a sign or a digit. -/
theorem mem_of_decimal (hdecimal : decimal text = some number) {c : UInt8} (hc : c ∈ text) :
    c = '-'.toUInt8 ∨ c = '+'.toUInt8 ∨ isDigit c = true := by
  obtain ⟨-, hdigits, -⟩ := decimal_eq_some hdecimal
  cases text with
  | nil => exact absurd hc List.not_mem_nil
  | cons first rest =>
      rw [takeSign] at hdigits
      by_cases hminus : first = '-'.toUInt8
      · rw [if_pos hminus] at hdigits
        rcases List.mem_cons.mp hc with rfl | hrest
        · exact .inl hminus
        · exact .inr (.inr (hdigits c hrest))
      · rw [if_neg hminus] at hdigits
        by_cases hplus : first = '+'.toUInt8
        · rw [if_pos hplus] at hdigits
          rcases List.mem_cons.mp hc with rfl | hrest
          · exact .inr (.inl hplus)
          · exact .inr (.inr (hdigits c hrest))
        · rw [if_neg hplus] at hdigits
          exact .inr (.inr (hdigits c hc))

/-- None of them is a space or a parenthesis. -/
theorem not_mem_of_decimal (hdecimal : decimal text = some number) {c : UInt8} (hc : c ∈ text) :
    isSpace c = false ∧ c ≠ ')'.toUInt8 := by
  rcases mem_of_decimal hdecimal hc with rfl | rfl | hdigit
  · decide
  · decide
  · obtain ⟨digit, hlt, rfl⟩ := exists_digitByte hdigit
    obtain ⟨-, -, hspace, hmarks⟩ := digitByte_spec hlt
    refine ⟨hspace, fun hequal => ?_⟩
    rw [hequal] at hmarks
    exact hmarks (by decide)

/-- `stoi` reads a decimal integer that fits in an `int`. -/
theorem stoi_of_decimal (hdecimal : decimal text = some number)
    (hfits : -2 ^ 31 ≤ number ∧ number < 2 ^ 31) : stoi text = .ok number := by
  have hspaces : text.dropWhile isSpace = text := by
    cases text with
    | nil => rfl
    | cons first rest =>
        have hfirst := (not_mem_of_decimal hdecimal List.mem_cons_self).1
        rw [List.dropWhile_cons_of_neg (by simp [hfirst])]
  obtain ⟨hne, hdigits, hnumber⟩ := decimal_eq_some hdecimal
  have htake : (takeSign text).2.takeWhile isDigit = (takeSign text).2 :=
    List.takeWhile_eq_self_iff.mpr hdigits
  rw [stoi, hspaces]
  dsimp only
  rw [htake, if_neg hne, ← hnumber, if_pos hfits]

end Decimal

section Numbers

variable (value : ℕ)

theorem intText_natCast :
    intText value = (Positional.numeral 10 value).map digitByte := by
  rw [intText, if_neg (by omega), Int.natAbs_natCast]

/-- A number is printed without characters that mean something else. -/
theorem not_mem_intText {c : UInt8} (hc : c ∈ ascii "-+()\n") : c ∉ intText value := by
  rw [intText_natCast]
  intro hmem
  obtain ⟨digit, hdigit, rfl⟩ := List.mem_map.mp hmem
  exact (digitByte_spec (Positional.lt_of_mem_numeral (by decide) hdigit)).2.2.2 hc

/-- It consists of digits. -/
theorem isDigit_of_mem_intText {c : UInt8} (hc : c ∈ intText value) : isDigit c = true := by
  rw [intText_natCast] at hc
  obtain ⟨digit, hdigit, rfl⟩ := List.mem_map.mp hc
  exact (digitByte_spec (Positional.lt_of_mem_numeral (by decide) hdigit)).1

theorem takeSign_intText : takeSign (intText value) = (1, intText value) := by
  cases htext : intText value with
  | nil => rfl
  | cons c rest =>
      have hmem : c ∈ intText value := by
        rw [htext]
        exact List.mem_cons_self
      have hminus : c ≠ '-'.toUInt8 := by
        rintro rfl
        exact not_mem_intText value (by decide) hmem
      have hplus : c ≠ '+'.toUInt8 := by
        rintro rfl
        exact not_mem_intText value (by decide) hmem
      rw [takeSign, if_neg hminus, if_neg hplus]

/-- What `to_string` prints is a decimal integer. -/
theorem decimal_intText : decimal (intText value) = some (value : ℤ) := by
  have hne : intText value ≠ [] := by
    rw [intText_natCast, Ne, List.map_eq_nil_iff]
    exact Positional.numeral_ne_nil 10 value
  have hdigits : (intText value).all isDigit = true :=
    List.all_eq_true.mpr fun c hc => isDigit_of_mem_intText value hc
  have hvalues : (intText value).map (fun c => c.toNat - 48) = Positional.numeral 10 value := by
    rw [intText_natCast, List.map_map]
    conv_rhs => rw [← List.map_id (Positional.numeral 10 value)]
    apply List.map_congr_left
    intro digit hdigit
    exact (digitByte_spec (Positional.lt_of_mem_numeral (by decide) hdigit)).2.1
  rw [decimal, takeSign_intText]
  dsimp only
  rw [if_pos ⟨hne, hdigits⟩, hvalues, Positional.value_numeral, one_mul]

/-- So `stoi` reads what `to_string` prints. -/
theorem stoi_intText (hlt : value < 2 ^ 31) : stoi (intText value) = .ok value :=
  stoi_of_decimal (decimal_intText value) (by omega)

end Numbers

/-- A line with nothing but a number between its parentheses. -/
theorem readSample_between {numeral : Bytes} {value : ℤ} (hfree : ')'.toUInt8 ∉ numeral)
    (hvalue : stoi numeral = .ok value) (samples : List ℚ) :
    readSample samples (ascii "A(" ++ numeral ++ ascii ")") =
      .ok (samples ++ [(value : ℚ) / 100]) := by
  have hopen : Text.find (ascii "A(") (ascii "A(" ++ numeral ++ ascii ")") = some 0 := by
    have hprefix : ascii "A(" <+: 'A'.toUInt8 :: '('.toUInt8 :: (numeral ++ ascii ")") :=
      ⟨numeral ++ ascii ")", rfl⟩
    exact if_pos hprefix
  have hstart : Text.find (ascii "(") (ascii "A(" ++ numeral ++ ascii ")") = some 1 := by
    have hletter : '('.toUInt8 ∉ ascii "A" := by decide
    exact Text.find_append_of_not_mem hletter (numeral ++ ascii ")")
  have hfinish : Text.find (ascii ")") (ascii "A(" ++ numeral ++ ascii ")") =
      some (ascii "A(" ++ numeral).length := by
    have hfront : ')'.toUInt8 ∉ ascii "A(" ++ numeral := by
      rw [List.mem_append, not_or]
      exact ⟨by decide, hfree⟩
    exact Text.find_append_of_not_mem hfront []
  have hlength : (ascii "A(" ++ numeral).length = 2 + numeral.length :=
    List.length_append
  have hbetween : numberBetween (ascii "A(" ++ numeral ++ ascii ")") 2
      (ascii "A(" ++ numeral).length = .ok value := by
    rw [numberBetween, substr, if_neg (by simp [ascii]), ok_bind, if_pos (by omega), hlength,
      Nat.add_sub_cancel_left]
    change stoi ((numeral ++ ascii ")").take numeral.length) = _
    rw [List.take_left, hvalue]
  rw [readSample, hopen]
  dsimp only
  rw [hstart, hfinish]
  dsimp only [Option.elim_some]
  rw [hbetween, ok_bind]
  rfl

/-- The line of a number. -/
theorem readSample_line {value : ℕ} (hlt : value < 2 ^ 31) (samples : List ℚ) :
    readSample samples (ascii "A(" ++ intText value ++ ascii ")") =
      .ok (samples ++ [(value : ℚ) / 100]) :=
  readSample_between (not_mem_intText value (by decide)) (stoi_intText value hlt) samples

/-! ## Amplitudes -/

theorem amplitude_eq (sample : ℚ) : amplitude sample = min 100 (100 * |sample|) := by
  rw [amplitude, mul_comm |sample|]
  by_cases hloud : 100 < 100 * |sample|
  · rw [if_pos hloud, min_eq_left (le_of_lt hloud)]
  · rw [if_neg hloud, min_eq_right (not_lt.mp hloud)]

/-- An amplitude is written as a number from 0 to 100. -/
theorem exists_floor_amplitude (sample : ℚ) :
    ∃ percent : ℕ, ⌊amplitude sample⌋ = percent ∧ percent ≤ 100 := by
  have hnonneg : 0 ≤ ⌊amplitude sample⌋ := by
    rw [Int.floor_nonneg, amplitude_eq]
    exact le_min (by norm_num) (mul_nonneg (by norm_num) (abs_nonneg sample))
  have hle : ⌊amplitude sample⌋ ≤ 100 := by
    have hmin : amplitude sample ≤ 100 := by
      rw [amplitude_eq]
      exact min_le_left _ _
    have hfloor := Int.floor_mono hmin
    rwa [Int.floor_ofNat] at hfloor
  exact ⟨⌊amplitude sample⌋.toNat, (Int.toNat_of_nonneg hnonneg).symm, by omega⟩

/-- What a sample comes back as. -/
def level (sample : ℚ) : ℚ := (⌊min 100 (100 * |sample|)⌋ : ℤ) / 100

theorem readSample_audioLine (samples : List ℚ) (sample : ℚ) :
    readSample samples (audioLine sample) = .ok (samples ++ [level sample]) := by
  obtain ⟨percent, hpercent, hle⟩ := exists_floor_amplitude sample
  rw [audioLine, hpercent, readSample_line (by omega), level, ← amplitude_eq, hpercent]
  rfl

theorem newline_not_mem_audioLine (sample : ℚ) : newline ∉ audioLine sample := by
  obtain ⟨percent, hpercent, -⟩ := exists_floor_amplitude sample
  rw [audioLine, hpercent, List.mem_append, List.mem_append, not_or, not_or]
  exact ⟨⟨by decide, not_mem_intText percent (by decide)⟩, by decide⟩

/-- The reader returns the levels of the samples that were written. -/
theorem textToAudio_flatMap (written : List ℚ) :
    textToAudio (written.flatMap fun sample => audioLine sample ++ [newline]) =
      .ok (written.map level) := by
  have htext : (written.flatMap fun sample => audioLine sample ++ [newline]) =
      (written.map audioLine).flatMap (· ++ [newline]) := by
    rw [List.flatMap_map]
  have hfree : ∀ line ∈ written.map audioLine, newline ∉ line := by
    intro line hline
    obtain ⟨sample, -, rfl⟩ := List.mem_map.mp hline
    exact newline_not_mem_audioLine sample
  rw [textToAudio, htext, Text.lines_flatMap hfree, List.foldlM_map,
    foldlM_eq_ok fun sample _ samples => readSample_audioLine samples sample,
    List.foldl_append_eq_append, List.nil_append, ← List.flatMap_def, ← List.map_eq_flatMap]

/-! ## The strided loop -/

/-- One step less is one line less. -/
theorem ceilDiv_step {count : ℕ} (hcount : 0 < count) (step : ℕ+) :
    count ⌈/⌉ (step : ℕ) = (count - step) ⌈/⌉ (step : ℕ) + 1 := by
  have hpos := step.pos
  have hshift : count + (step : ℕ) - 1 = count - 1 + (step : ℕ) := by omega
  rw [Nat.ceilDiv_eq_add_pred_div, Nat.ceilDiv_eq_add_pred_div, hshift,
    Nat.add_div_right _ hpos]
  by_cases hle : (step : ℕ) ≤ count
  · rw [Nat.sub_add_cancel hle]
  · have hlast : count - (step : ℕ) = 0 := by omega
    rw [hlast, Nat.div_eq_of_lt (by omega), Nat.div_eq_of_lt (by omega)]

/-- The samples the loop visits from index `i` on. -/
def visited (samples : List ℚ) (step : ℕ+) (i : ℕ) : List ℚ :=
  (List.range ((samples.length - i) ⌈/⌉ (step : ℕ))).map fun k => samples.getD (i + k * step) 0

/-- The loop stops at the end of the samples. -/
theorem visited_of_le {samples : List ℚ} {i : ℕ} (hi : samples.length ≤ i) (step : ℕ+) :
    visited samples step i = [] := by
  rw [visited, Nat.sub_eq_zero_of_le hi, zero_ceilDiv, List.range_zero, List.map_nil]

/-- The sample at `i` and then those a step further on. -/
theorem visited_of_lt {samples : List ℚ} {i : ℕ} (hi : i < samples.length) (step : ℕ+) :
    visited samples step i = samples.get ⟨i, hi⟩ :: visited samples step (i + step) := by
  rw [visited, ceilDiv_step (by omega), List.range_succ_eq_map, List.map_cons, List.map_map,
    visited, Nat.sub_sub, Nat.zero_mul, Nat.add_zero]
  congr 1
  · simp [hi]
  · apply List.map_congr_left
    intro k _
    rw [Function.comp_apply, Nat.succ_mul, Nat.add_assoc, Nat.add_comm (step : ℕ)]

theorem sampleLoop_eq (samples : List ℚ) (step : ℕ+) (i : ℕ) (result : Bytes) :
    sampleLoop samples step i result =
      result ++ (visited samples step i).flatMap fun sample => audioLine sample ++ [newline] := by
  induction i, result using sampleLoop.induct samples step with
  | case1 i result hi ih =>
      rw [sampleLoop, dif_pos hi, ih, visited_of_lt hi, List.flatMap_cons, List.append_assoc]
  | case2 i result hi =>
      rw [sampleLoop, dif_neg hi, visited_of_le (not_lt.mp hi), List.flatMap_nil, List.append_nil]

/-! ## The round trip -/

section RoundTrip

variable {size samplesPerSecond : ℕ}

/-- For a positive rate no conversion changes a number. -/
theorem sampleStep_eq (hsize : size < 2 ^ 31) (hpos : 1 ≤ samplesPerSecond)
    (hint : samplesPerSecond < 2 ^ 31) :
    ∃ step : ℕ+, sampleStep size samplesPerSecond = .ok step ∧
      (step : ℕ) = max 1 (size / samplesPerSecond) := by
  have hquotient : size / samplesPerSecond < 2 ^ 31 := lt_of_le_of_lt (Nat.div_le_self _ _) hsize
  have hsame : (samplesPerSecond : ℤ) % 2 ^ 64 = samplesPerSecond := by omega
  have hstep : toInt32 ((size : ℤ) / samplesPerSecond) = (size / samplesPerSecond : ℕ) := by
    rw [← Int.natCast_div, toInt32_of_lt hquotient]
  rw [sampleStep, if_neg (by omega), hsame, hstep]
  refine ⟨_, rfl, ?_⟩
  rw [clampStep]
  by_cases hsmall : ((size / samplesPerSecond : ℕ) : ℤ) < 1
  · rw [if_pos hsmall, max_eq_left (by omega)]
    rfl
  · rw [if_neg hsmall, max_eq_right (by omega), Nat.toPNat'_coe, Int.toNat_natCast,
      if_pos (by omega)]

/-- There are fewer than twice as many lines as asked for. -/
theorem ceilDiv_max_le (hpos : 1 ≤ samplesPerSecond) :
    size ⌈/⌉ max 1 (size / samplesPerSecond) ≤ 2 * samplesPerSecond - 1 := by
  rw [ceilDiv_le_iff_le_mul (lt_of_lt_of_le Nat.one_pos (le_max_left _ _))]
  have hdiv := Nat.div_add_mod size samplesPerSecond
  have hmod := Nat.mod_lt size hpos
  by_cases hfew : size / samplesPerSecond = 0
  · rw [hfew, max_eq_left (Nat.zero_le 1), Nat.one_mul]
    rw [hfew, Nat.mul_zero] at hdiv
    omega
  · have hstep : 1 ≤ size / samplesPerSecond := Nat.one_le_iff_ne_zero.mpr hfew
    rw [max_eq_right hstep]
    calc size = samplesPerSecond * (size / samplesPerSecond) + size % samplesPerSecond := hdiv.symm
      _ ≤ samplesPerSecond * (size / samplesPerSecond) + (samplesPerSecond - 1) := by omega
      _ ≤ samplesPerSecond * (size / samplesPerSecond) +
            (size / samplesPerSecond) * (samplesPerSecond - 1) :=
          Nat.add_le_add_left (Nat.le_mul_of_pos_left _ hstep) _
      _ = (size / samplesPerSecond) * (samplesPerSecond + (samplesPerSecond - 1)) := by
          rw [Nat.mul_add, Nat.mul_comm samplesPerSecond]
      _ = (size / samplesPerSecond) * (2 * samplesPerSecond - 1) := by
          congr 1
          omega

/-- Every `step`-th sample comes back at its level, in order. -/
theorem textToAudio_sampleToText {samples : List ℚ} (hsize : samples.length < 2 ^ 31)
    (hpos : 1 ≤ samplesPerSecond) (hint : samplesPerSecond < 2 ^ 31) :
    ∃ text result,
      sampleToText samples samplesPerSecond = .ok text ∧
      textToAudio text = .ok result ∧
      result.length = samples.length ⌈/⌉ max 1 (samples.length / samplesPerSecond) ∧
      result.length ≤ 2 * samplesPerSecond - 1 ∧
      ∀ k < result.length, ∃ sample,
        samples[k * max 1 (samples.length / samplesPerSecond)]? = some sample ∧
        result[k]? = some ((⌊min 100 (100 * |sample|)⌋ : ℤ) / 100 : ℚ) := by
  obtain ⟨step, hstep, hvalue⟩ := sampleStep_eq hsize hpos hint
  have htext : sampleToText samples samplesPerSecond =
      .ok ((visited samples step 0).flatMap fun sample => audioLine sample ++ [newline]) := by
    rw [sampleToText, hstep, ok_bind, sampleLoop_eq, List.nil_append]
    rfl
  have hlength : ((visited samples step 0).map level).length =
      samples.length ⌈/⌉ max 1 (samples.length / samplesPerSecond) := by
    rw [List.length_map, visited, List.length_map, List.length_range, Nat.sub_zero, hvalue]
  refine ⟨_, _, htext, textToAudio_flatMap _, hlength, ?_, ?_⟩
  · rw [hlength]
    exact ceilDiv_max_le hpos
  · intro k hk
    rw [hlength] at hk
    have hinside : k * (step : ℕ) < samples.length := by
      by_contra hoff
      rw [← hvalue] at hk
      have hle : samples.length ⌈/⌉ (step : ℕ) ≤ k := by
        rw [ceilDiv_le_iff_le_mul step.pos, Nat.mul_comm]
        exact not_lt.mp hoff
      exact absurd hk (not_lt.mpr hle)
    rw [← hvalue] at hk ⊢
    refine ⟨samples[k * (step : ℕ)], List.getElem?_eq_getElem hinside, ?_⟩
    rw [List.getElem?_map, visited, List.getElem?_map, Nat.sub_zero,
      List.getElem?_range hk]
    simp [hinside, level]

end RoundTrip

/-- Five samples at two a second: every second one is written. -/
theorem textToAudio_sampleToText_five :
    ∃ text result, sampleToText [0, 1 / 2, -1 / 4, 3, 2] (2 : ℕ) = .ok text ∧
      textToAudio text = .ok result ∧ result.length = 3 ∧ result[1]? = some (1 / 4) := by
  have hsize : ([0, 1 / 2, -1 / 4, 3, 2] : List ℚ).length < 2 ^ 31 := by decide
  obtain ⟨text, result, htext, hresult, hlength, -, hsamples⟩ :=
    textToAudio_sampleToText hsize (by decide : 1 ≤ 2) (by decide)
  have hthree : result.length = 3 := hlength.trans (by decide)
  obtain ⟨sample, hsample, hlevel⟩ := hsamples 1 (by omega)
  have hquarter : sample = -1 / 4 := (Option.some.inj hsample).symm
  refine ⟨text, result, htext, hresult, hthree, ?_⟩
  rw [hlevel, hquarter]
  norm_num

end Dht
