/-
# When audio is written at all

`sampleToText` divides the number of samples by a rate that nobody has checked, narrows
the quotient to an `int` and adds that to an index of type `size_t`. A rate of zero is a
division by zero. Every other rate gives a step of at least one, negative ones because
they are huge as a `size_t`. The index then wraps around only for numbers of samples
close to `2 ^ 64`, and for most of these the loop still ends.

The loop is modelled here with its wrapping index; where nothing wraps around it is the
loop of `sampleToText`.
-/

import Dht.Audio.Text
import Dht.Lib.Stride

namespace Dht

/-- One turn of the loop, on the index and the text so far. -/
def sampleTurn (samples : List ℚ) (step : ℕ+) (loop : ℕ × Bytes) :
    (ℕ × Bytes) ⊕ Outcome Bytes :=
  if loop.1 < samples.length then
    match vectorAt samples loop.1 with
    | .ok sample => .inl ((loop.1 + step) % 2 ^ 64, loop.2 ++ (audioLine sample ++ [newline]))
    | .error failure => .inr (.error failure)
  else .inr (.ok loop.2)

/-- `sampleToText` with its index modulo `2 ^ 64`, for a number of turns. -/
def sampleToTextFor (samples : List ℚ) (samplesPerSecond : ℤ) (fuel : ℕ) :
    Option (Outcome Bytes) :=
  match sampleStep samples.length samplesPerSecond with
  | .error failure => some (.error failure)
  | .ok step => Loop.runFor (sampleTurn samples step) fuel (0, [])

/-- The rate is no divisor of zero, the step is at least one, and the loop ends with a text;
reading outside the samples would end it with something else. -/
def WritesText (samples : List ℚ) (samplesPerSecond : ℤ) : Prop :=
  ∃ step : ℕ+, sampleStep samples.length samplesPerSecond = .ok step ∧
    ((step : ℕ) : ℤ) = max 1 (toInt32 (samples.length / (samplesPerSecond % 2 ^ 64))) ∧
    ∃ fuel text, sampleToTextFor samples samplesPerSecond fuel = some (.ok text)

/-! ## The loop -/

section Turns

variable {samples : List ℚ} {step : ℕ+}

/-- Every sample the loop looks at is there. -/
theorem sampleTurn_eq (samples : List ℚ) (step : ℕ+) :
    sampleTurn samples step = Stride.turn (2 ^ 64) samples.length step
      (fun i result => result ++ (audioLine (samples.getD i 0) ++ [newline])) .ok := by
  funext loop
  obtain ⟨i, result⟩ := loop
  rw [sampleTurn, Stride.turn]
  by_cases hi : i < samples.length
  · rw [if_pos hi, if_pos hi, vectorAt_eq_getD hi 0]
  · rw [if_neg hi, if_neg hi]

/-- The loop ends, and then with a text, exactly if there is room for the last index. -/
theorem exists_returns_sampleTurn_iff :
    (∃ text, Loop.Returns (sampleTurn samples step) (0, []) (.ok text)) ↔
      samples.length + Nat.gcd step (2 ^ 64) ≤ 2 ^ 64 := by
  rw [sampleTurn_eq, ← Stride.exists_returns_iff (by decide) ([] : Bytes)]
  refine ⟨fun ⟨text, hreturns⟩ => ⟨_, hreturns⟩, fun ⟨result, hreturns⟩ => ?_⟩
  have htext : ∃ text, result = .ok text := by
    refine hreturns.of_invariant (fun _ => True) (fun result => ∃ text, result = .ok text)
      (fun _ _ _ _ => trivial) ?_ trivial
    rintro ⟨i, result⟩ left - hturn
    rw [Stride.turn] at hturn
    split at hturn
    · cases hturn
    · cases hturn
      exact ⟨result, rfl⟩
  obtain ⟨text, rfl⟩ := htext
  exact ⟨text, hreturns⟩

/-- As long as no index wraps around, the loop is the one without wrapping. -/
theorem returns_sampleLoop (samples : List ℚ) (step : ℕ+)
    (hroom : samples.length + (step : ℕ) ≤ 2 ^ 64) (i : ℕ) (result : Bytes) :
    Loop.Returns (sampleTurn samples step) (i, result)
      (.ok (sampleLoop samples step i result)) := by
  induction i, result using sampleLoop.induct samples step with
  | case1 i result hi ih =>
      have hturn : sampleTurn samples step (i, result) =
          .inl (i + step, result ++ (audioLine (samples.get ⟨i, hi⟩) ++ [newline])) := by
        have hget : samples.getD i 0 = samples.get ⟨i, hi⟩ := by simp [hi]
        rw [sampleTurn_eq, Stride.turn_of_lt hi, Nat.mod_eq_of_lt (by omega), hget]
      rw [sampleLoop, dif_pos hi]
      exact (Loop.returns_iff_of_inl hturn).mpr ih
  | case2 i result hi =>
      rw [sampleLoop, dif_neg hi]
      apply Loop.returns_of_inr
      rw [sampleTurn_eq, Stride.turn_of_le (not_lt.mp hi)]

end Turns

/-! ## The step -/

theorem coe_clampStep (step : ℤ) : ((clampStep step : ℕ) : ℤ) = max 1 step := by
  rw [clampStep]
  by_cases hsmall : step < 1
  · rw [if_pos hsmall, max_eq_left (by omega)]
    rfl
  · rw [if_neg hsmall, max_eq_right (by omega), Nat.toPNat'_coe, if_pos (by omega),
      Int.toNat_of_nonneg (by omega)]

theorem sampleStep_of_ne_zero {size : ℕ} {samplesPerSecond : ℤ} (hrate : samplesPerSecond ≠ 0) :
    sampleStep size samplesPerSecond =
      .ok (clampStep (toInt32 (size / (samplesPerSecond % 2 ^ 64)))) := if_neg hrate

/-- As a `size_t` a negative rate is so large that the step is one. -/
theorem clampStep_of_neg {size : ℕ} (hsize : size < 2 ^ 64) {samplesPerSecond : ℤ}
    (hlow : -2 ^ 31 ≤ samplesPerSecond) (hneg : samplesPerSecond < 0) :
    (clampStep (toInt32 (size / (samplesPerSecond % 2 ^ 64))) : ℕ) = 1 := by
  have hrate : samplesPerSecond % 2 ^ 64 = samplesPerSecond + 2 ^ 64 := by omega
  have hpos : 0 < samplesPerSecond + 2 ^ 64 := by omega
  have hnonneg : 0 ≤ (size : ℤ) / (samplesPerSecond + 2 ^ 64) :=
    Int.ediv_nonneg (by omega) hpos.le
  have hlt : (size : ℤ) / (samplesPerSecond + 2 ^ 64) < 2 :=
    Int.ediv_lt_of_lt_mul hpos (by omega)
  have hstep := coe_clampStep (toInt32 (size / (samplesPerSecond % 2 ^ 64)))
  rw [hrate, toInt32_of_bounds (by omega) (by omega)] at hstep
  rw [hrate, toInt32_of_bounds (by omega) (by omega)]
  omega

/-- The wrapping loop computes what `sampleToText` does, for every number of samples that a
machine can hold. -/
theorem exists_sampleToTextFor_eq {samples : List ℚ} (hsize : samples.length + 2 ^ 31 ≤ 2 ^ 64)
    (samplesPerSecond : ℤ) :
    ∃ fuel, sampleToTextFor samples samplesPerSecond fuel =
      some (sampleToText samples samplesPerSecond) := by
  by_cases hrate : samplesPerSecond = 0
  · refine ⟨0, ?_⟩
    rw [sampleToTextFor, sampleToText, sampleStep, if_pos hrate]
    rfl
  · have hstep := @sampleStep_of_ne_zero samples.length samplesPerSecond hrate
    have hcoe := coe_clampStep (toInt32 (samples.length / (samplesPerSecond % 2 ^ 64)))
    have hbounds := toInt32_bounds (samples.length / (samplesPerSecond % 2 ^ 64))
    obtain ⟨fuel, hfuel⟩ := returns_sampleLoop samples
      (clampStep (toInt32 (samples.length / (samplesPerSecond % 2 ^ 64)))) (by omega) 0 []
    refine ⟨fuel, ?_⟩
    rw [sampleToTextFor, sampleToText, hstep]
    exact hfuel

/-- A positive rate gives the quotient, if it is a positive `int`, and one otherwise. -/
theorem clampStep_of_pos (size : ℕ) {rate : ℕ} (hrate : 0 < rate) (hint : rate < 2 ^ 31) :
    (clampStep (toInt32 (size / ((rate : ℤ) % 2 ^ 64))) : ℕ) =
      if 0 < size / rate % 2 ^ 32 ∧ size / rate % 2 ^ 32 < 2 ^ 31 then size / rate % 2 ^ 32
      else 1 := by
  have hsame : (rate : ℤ) % 2 ^ 64 = rate := by omega
  have hquotient : (size : ℤ) / rate = (size / rate : ℕ) := by rw [Int.natCast_div]
  have hstep := coe_clampStep (toInt32 (size / ((rate : ℤ) % 2 ^ 64)))
  rw [hsame, hquotient] at hstep ⊢
  by_cases hsmall : size / rate % 2 ^ 32 < 2 ^ 31
  · rw [toInt32_of_mod_lt hsmall] at hstep ⊢
    split <;> omega
  · have hneg := (toInt32_neg_iff (size / rate)).mpr (not_lt.mp hsmall)
    rw [if_neg fun h => hsmall h.2]
    omega

/-! ## All lengths and rates -/

/-- Behind the samples there is room for the largest power of two that divides the step.
Only lengths above `2 ^ 64 - 2 ^ 30` can lack it. -/
def LastStepFits (size : ℕ) (samplesPerSecond : ℤ) : Prop :=
  let quotient := size / samplesPerSecond.toNat % 2 ^ 32
  0 < samplesPerSecond → 0 < quotient → quotient < 2 ^ 31 →
    size + Nat.gcd quotient (2 ^ 64) ≤ 2 ^ 64

theorem writesText_iff_gcd {samples : List ℚ} {samplesPerSecond : ℤ}
    (hrate : samplesPerSecond ≠ 0) :
    WritesText samples samplesPerSecond ↔
      samples.length +
        Nat.gcd (clampStep (toInt32 (samples.length / (samplesPerSecond % 2 ^ 64)))) (2 ^ 64) ≤
          2 ^ 64 := by
  have hstep := @sampleStep_of_ne_zero samples.length samplesPerSecond hrate
  rw [← exists_returns_sampleTurn_iff]
  constructor
  · rintro ⟨step, -, -, fuel, text, htext⟩
    rw [sampleToTextFor, hstep] at htext
    exact ⟨text, fuel, htext⟩
  · rintro ⟨text, fuel, htext⟩
    refine ⟨_, hstep, coe_clampStep _, fuel, text, ?_⟩
    rw [sampleToTextFor, hstep]
    exact htext

/-- A text is written for every rate but zero, unless the index wraps around for good. -/
theorem writesText_iff {samples : List ℚ} (hsize : samples.length < 2 ^ 64)
    {samplesPerSecond : ℤ} (hlow : -2 ^ 31 ≤ samplesPerSecond)
    (hhigh : samplesPerSecond < 2 ^ 31) :
    WritesText samples samplesPerSecond ↔
      samplesPerSecond ≠ 0 ∧ LastStepFits samples.length samplesPerSecond := by
  by_cases hzero : samplesPerSecond = 0
  · refine iff_of_false ?_ fun h => h.1 hzero
    rintro ⟨step, hstep, -⟩
    rw [sampleStep, if_pos hzero] at hstep
    cases hstep
  · rw [and_iff_right hzero, writesText_iff_gcd hzero, LastStepFits]
    by_cases hpos : 0 < samplesPerSecond
    · obtain ⟨rate, rfl⟩ := Int.eq_ofNat_of_zero_le hpos.le
      rw [clampStep_of_pos samples.length (by omega) (by omega), Int.toNat_natCast]
      by_cases hquotient : 0 < samples.length / rate % 2 ^ 32 ∧
          samples.length / rate % 2 ^ 32 < 2 ^ 31
      · rw [if_pos hquotient]
        exact ⟨fun hroom _ _ _ => hroom, fun hroom => hroom hpos hquotient.1 hquotient.2⟩
      · rw [if_neg hquotient, Nat.gcd_one_left]
        exact iff_of_true hsize fun _ hlower hupper => absurd ⟨hlower, hupper⟩ hquotient
    · rw [clampStep_of_neg hsize hlow (by omega), Nat.gcd_one_left]
      exact iff_of_true hsize fun hrate => absurd hrate hpos

/-- Two samples at a negative rate. -/
theorem writesText_negative : WritesText [0, 1 / 2] (-1) :=
  (writesText_iff (by decide) (by decide) (by decide)).mpr
    ⟨by decide, fun hpos => absurd hpos (by decide)⟩

/-- A rate of zero is divided by. -/
theorem not_writesText_zero :
    ¬ ∀ (samples : List ℚ) (samplesPerSecond : ℤ), samples.length < 2 ^ 64 →
      -2 ^ 31 ≤ samplesPerSecond → samplesPerSecond < 2 ^ 31 →
      WritesText samples samplesPerSecond := by
  intro hall
  obtain ⟨step, hstep, -⟩ := hall [0] 0 (by decide) (by decide) (by decide)
  cases hstep

end Dht
