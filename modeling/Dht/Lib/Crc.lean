/-
# Cyclic redundancy checks by tables

A reflected CRC of any width shifts the register to the right, bit by bit, and adds the
polynomial when a bit falls out. Everything about tables follows from two facts: the shift
is linear in exclusive or, and a register whose lowest bits are clear is only moved.

`slices` takes several bytes of the register at once: the shift by some bytes is the sum of
one table entry for each of them and of what is left of the register. With it a routine
that reads words and looks their bytes up in several tables is the routine that takes one
byte after the other.
-/

import Mathlib.Logic.Function.Iterate

namespace Crc

variable {w : ℕ} (poly : BitVec w)

/-- Shift one bit out. -/
def bitStep (register : BitVec w) : BitVec w :=
  if register.getLsbD 0 then (register >>> 1) ^^^ poly else register >>> 1

/-- Shift one byte out. -/
def byteStep : BitVec w → BitVec w := (bitStep poly)^[8]

/-- The register that shifting out some bytes makes of a byte. -/
def table (slice : ℕ) (byte : BitVec 8) : BitVec w :=
  (byteStep poly)^[slice + 1] (byte.setWidth w)

/-- Take one byte in. -/
def update (register : BitVec w) (byte : BitVec 8) : BitVec w :=
  byteStep poly (register ^^^ byte.setWidth w)

/-! ## Linearity -/

section Linear

theorem bitStep_xor (first second : BitVec w) :
    bitStep poly (first ^^^ second) = bitStep poly first ^^^ bitStep poly second := by
  have hcancel (a b : BitVec w) : a ^^^ poly ^^^ (b ^^^ poly) = a ^^^ b := by
    rw [BitVec.xor_assoc, ← BitVec.xor_assoc poly, BitVec.xor_comm poly, BitVec.xor_assoc b,
      BitVec.xor_self, BitVec.xor_zero]
  simp only [bitStep, BitVec.getLsbD_xor, BitVec.ushiftRight_xor_distrib]
  cases first.getLsbD 0 with
  | false =>
      cases second.getLsbD 0 with
      | false => simp
      | true => simp [BitVec.xor_assoc]
  | true =>
      cases second.getLsbD 0 with
      | false =>
          simp only [Bool.xor_false, ↓reduceIte, Bool.false_eq_true]
          ac_rfl
      | true => simp [hcancel]

theorem iterate_xor {step : BitVec w → BitVec w}
    (hstep : ∀ first second, step (first ^^^ second) = step first ^^^ step second) (count : ℕ)
    (first second : BitVec w) :
    step^[count] (first ^^^ second) = step^[count] first ^^^ step^[count] second := by
  induction count generalizing first second with
  | zero => rfl
  | succ count ih => rw [Function.iterate_succ_apply, hstep, ih]; rfl

theorem byteStep_xor (first second : BitVec w) :
    byteStep poly (first ^^^ second) = byteStep poly first ^^^ byteStep poly second :=
  iterate_xor (bitStep_xor poly) 8 first second

theorem byteSteps_xor (count : ℕ) (first second : BitVec w) :
    (byteStep poly)^[count] (first ^^^ second) =
      (byteStep poly)^[count] first ^^^ (byteStep poly)^[count] second :=
  iterate_xor (byteStep_xor poly) count first second

end Linear

/-! ## Bytes of the register -/

section Bytes

/-- A register whose lowest bits are clear is only moved. -/
theorem bitSteps_of_clear (count : ℕ) {register : BitVec w}
    (hclear : ∀ i < count, register.getLsbD i = false) :
    (bitStep poly)^[count] register = register >>> count := by
  induction count generalizing register with
  | zero => simp
  | succ count ih =>
      have hfirst : bitStep poly register = register >>> 1 := by
        simp [bitStep, hclear 0 (Nat.succ_pos count)]
      rw [Function.iterate_succ_apply, hfirst, ih, ← BitVec.shiftRight_add, Nat.add_comm]
      intro i hi
      rw [BitVec.getLsbD_ushiftRight]
      exact hclear (1 + i) (by omega)

theorem byteStep_shiftLeft (register : BitVec w) :
    byteStep poly (register <<< 8) = (register <<< 8) >>> 8 := by
  apply bitSteps_of_clear
  intro i hi
  simp [hi]

/-- The lowest byte of a register, and the others. -/
theorem split_byte (register : BitVec w) :
    register = (register.setWidth 8).setWidth w ^^^ ((register >>> 8) <<< 8) := by
  apply BitVec.eq_of_getLsbD_eq
  intro i hi
  by_cases hlow : i < 8
  · simp [hi, hlow]
  · have hback : 8 + (i - 8) = i := by omega
    simp [hi, hlow, hback]

/-- Shifting out a byte looks it up and moves the others. -/
theorem byteStep_eq (register : BitVec w) :
    byteStep poly register = table poly 0 (register.setWidth 8) ^^^ (register >>> 8) := by
  have hmove : ((register >>> 8) <<< 8) >>> 8 = register >>> 8 := by
    apply BitVec.eq_of_getLsbD_eq
    intro i hi
    by_cases hinside : 8 + i < w
    · simp [hinside]
    · simp [hinside, BitVec.getLsbD_of_ge register (8 + i) (by omega)]
  calc byteStep poly register
      = byteStep poly ((register.setWidth 8).setWidth w ^^^ ((register >>> 8) <<< 8)) := by
        rw [← split_byte]
    _ = table poly 0 (register.setWidth 8) ^^^ (register >>> 8) := by
        rw [byteStep_xor, byteStep_shiftLeft, hmove]
        rfl

/-- Taking a byte in looks up its sum with the lowest byte of the register. -/
theorem update_eq (hbyte : 8 ≤ w) (register : BitVec w) (byte : BitVec 8) :
    update poly register byte =
      table poly 0 (byte ^^^ register.setWidth 8) ^^^ (register >>> 8) := by
  have hhigh : (byte.setWidth w) >>> 8 = 0#w := by
    apply BitVec.eq_of_getLsbD_eq
    intro i hi
    simp
  have hlow : (byte.setWidth w).setWidth 8 = byte := by
    rw [BitVec.setWidth_setWidth_of_le byte hbyte, BitVec.setWidth_eq]
  rw [update, byteStep_eq, BitVec.setWidth_xor, BitVec.ushiftRight_xor_distrib, hhigh, hlow,
    BitVec.xor_zero, BitVec.xor_comm byte]

theorem byteSteps_table (count slice : ℕ) (byte : BitVec 8) :
    (byteStep poly)^[count] (table poly slice byte) = table poly (slice + count) byte := by
  rw [table, ← Function.iterate_add_apply, table]
  congr 1
  omega

/-- The sum of the table entries of the lowest bytes, the lowest one in the last table. -/
def slices (first : ℕ) : ℕ → BitVec w → BitVec w
  | 0, _ => 0
  | count + 1, register =>
      table poly (first + count) (register.setWidth 8) ^^^ slices first count (register >>> 8)

theorem byteSteps_slices (first more count : ℕ) (register : BitVec w) :
    (byteStep poly)^[more] (slices poly first count register) =
      slices poly (first + more) count register := by
  induction count generalizing register with
  | zero =>
      have hself := byteSteps_xor poly more 0 0
      rw [BitVec.xor_self, BitVec.xor_self] at hself
      exact hself
  | succ count ih =>
      rw [slices, byteSteps_xor, byteSteps_table, ih, slices, Nat.add_right_comm]

/-- **Slicing.** Shifting out several bytes looks each of them up. -/
theorem byteSteps_eq (count : ℕ) (register : BitVec w) :
    (byteStep poly)^[count] register =
      slices poly 0 count register ^^^ (register >>> (8 * count)) := by
  induction count generalizing register with
  | zero => simp [slices]
  | succ count ih =>
      rw [Function.iterate_succ_apply, byteStep_eq, byteSteps_xor, byteSteps_table,
        ih (register >>> 8), slices, ← BitVec.shiftRight_add, BitVec.xor_assoc]
      congr 3
      omega

end Bytes

/-! ## Words -/

section Words

/-- The word that some bytes are in memory, the first one lowest. -/
def word : List (BitVec 8) → BitVec w
  | [] => 0
  | byte :: bytes => byte.setWidth w ^^^ (word bytes <<< 8)

theorem getLsbD_word {bytes : List (BitVec 8)} {i : ℕ} (hi : 8 * bytes.length ≤ i) :
    (word bytes : BitVec w).getLsbD i = false := by
  induction bytes generalizing i with
  | nil => simp [word]
  | cons byte bytes ih =>
      rw [List.length_cons] at hi
      have hbyte : byte.getLsbD i = false := BitVec.getLsbD_of_ge byte i (by omega)
      have hrest : (word bytes : BitVec w).getLsbD (i - 8) = false := ih (by omega)
      simp [word, hbyte, hrest]

/-- The bits of a word do not depend on its width. -/
theorem getLsbD_word_eq {v i : ℕ} (hv : i < v) (hw : i < w) (bytes : List (BitVec 8)) :
    (word bytes : BitVec v).getLsbD i = (word bytes : BitVec w).getLsbD i := by
  induction bytes generalizing i with
  | nil => simp [word]
  | cons byte bytes ih =>
      have hrest := ih (Nat.lt_of_le_of_lt (Nat.sub_le i 8) hv)
        (Nat.lt_of_le_of_lt (Nat.sub_le i 8) hw)
      simp only [word, BitVec.getLsbD_xor, BitVec.getLsbD_setWidth, BitVec.getLsbD_shiftLeft, hv,
        hw, hrest]

/-- A word cut to a smaller width. -/
theorem setWidth_word {v : ℕ} (hv : v ≤ w) (bytes : List (BitVec 8)) :
    (word bytes : BitVec w).setWidth v = word bytes := by
  apply BitVec.eq_of_getLsbD_eq
  intro i hi
  rw [BitVec.getLsbD_setWidth, getLsbD_word_eq (Nat.lt_of_lt_of_le hi hv) hi]
  simp [hi]

theorem shiftLeft_shiftRight_word {bytes : List (BitVec 8)}
    (hfits : 8 * (bytes.length + 1) ≤ w) :
    (word bytes <<< 8) >>> 8 = (word bytes : BitVec w) := by
  apply BitVec.eq_of_getLsbD_eq
  intro i hi
  rw [BitVec.getLsbD_ushiftRight, BitVec.getLsbD_shiftLeft, Nat.add_sub_cancel_left]
  by_cases hinside : 8 + i < w
  · simp [hinside, Nat.not_lt.mpr (Nat.le_add_right 8 i)]
  · rw [getLsbD_word (by omega), Bool.and_false]

/-- **Words.** Taking in the bytes of a word is taking in the word. -/
theorem foldl_update (bytes : List (BitVec 8)) (hfits : 8 * bytes.length ≤ w)
    (register : BitVec w) :
    bytes.foldl (update poly) register =
      (byteStep poly)^[bytes.length] (register ^^^ word bytes) := by
  induction bytes generalizing register with
  | nil => simp [word]
  | cons byte bytes ih =>
      rw [List.length_cons] at hfits
      rw [List.foldl_cons, ih (by omega), List.length_cons, Function.iterate_succ_apply, word,
        ← BitVec.xor_assoc, byteStep_xor poly (register ^^^ byte.setWidth w),
        byteStep_shiftLeft, shiftLeft_shiftRight_word hfits, update]

/-- The same with the tables: the bytes of the word that have been summed with the register
are looked up, and what lies above them is moved down. -/
theorem foldl_update_eq_slices (bytes : List (BitVec 8)) (hfits : 8 * bytes.length ≤ w)
    (register : BitVec w) :
    bytes.foldl (update poly) register =
      slices poly 0 bytes.length (register ^^^ word bytes) ^^^
        (register >>> (8 * bytes.length)) := by
  have hclear : (word bytes : BitVec w) >>> (8 * bytes.length) = 0#w := by
    apply BitVec.eq_of_getLsbD_eq
    intro i hi
    rw [BitVec.getLsbD_ushiftRight, getLsbD_word (Nat.le_add_right _ _), BitVec.getLsbD_zero]
  rw [foldl_update poly bytes hfits, byteSteps_eq, BitVec.ushiftRight_xor_distrib, hclear,
    BitVec.xor_zero]

/-- The lowest byte of a word, and the others. -/
theorem word_cons (byte : BitVec 8) {bytes : List (BitVec 8)}
    (hfits : 8 * (bytes.length + 1) ≤ w) :
    (word (byte :: bytes) : BitVec w).setWidth 8 = byte ∧
      (word (byte :: bytes) : BitVec w) >>> 8 = word bytes := by
  have hbyte : 8 ≤ w := by omega
  constructor
  · apply BitVec.eq_of_getLsbD_eq
    intro i hi
    simp [word, hi, Nat.lt_of_lt_of_le hi hbyte]
  · have hhigh : (byte.setWidth w) >>> 8 = 0#w := by
      apply BitVec.eq_of_getLsbD_eq
      intro i hi
      simp
    rw [word, BitVec.ushiftRight_xor_distrib, hhigh, BitVec.zero_xor,
      shiftLeft_shiftRight_word hfits]

/-- The lowest bytes of a register, as they are in memory. -/
def bytes : ℕ → BitVec w → List (BitVec 8)
  | 0, _ => []
  | count + 1, register => register.setWidth 8 :: bytes count (register >>> 8)

theorem word_bytes {count : ℕ} {register : BitVec w} (hclear : register >>> (8 * count) = 0#w) :
    word (bytes count register) = register := by
  induction count generalizing register with
  | zero =>
      rw [Nat.mul_zero, BitVec.ushiftRight_zero] at hclear
      rw [hclear]
      rfl
  | succ count ih =>
      have hrest : (register >>> 8) >>> (8 * count) = 0#w := by
        rw [← BitVec.shiftRight_add, ← hclear]
        congr 1
        omega
      rw [bytes, word, ih hrest, ← split_byte]

theorem bytes_word {text : List (BitVec 8)} (hfits : 8 * text.length ≤ w) :
    bytes text.length (word text : BitVec w) = text := by
  induction text with
  | nil => rfl
  | cons byte text ih =>
      rw [List.length_cons] at hfits
      obtain ⟨hbyte, hrest⟩ := word_cons byte hfits
      rw [List.length_cons, bytes, hbyte, hrest, ih (by omega)]

theorem word_injective {first second : List (BitVec 8)} (hlength : first.length = second.length)
    (hfits : 8 * first.length ≤ w) (hword : (word first : BitVec w) = word second) :
    first = second := by
  rw [← bytes_word hfits, hword, hlength, bytes_word (hlength ▸ hfits)]

end Words

/-! ## Errors -/

section Errors

variable {poly}

/-- The highest bit of the polynomial says which bit fell out. -/
theorem bitStep_injective (hpoly : poly.msb = true) : Function.Injective (bitStep poly) := by
  intro first second heq
  have hwidth : 0 < w := by
    rcases Nat.eq_zero_or_pos w with hzero | hpos
    · subst hzero
      simp [BitVec.eq_nil poly] at hpoly
    · exact hpos
  have hmsb (register : BitVec w) : (bitStep poly register).msb = register.getLsbD 0 := by
    cases hbit : register.getLsbD 0 <;> simp [bitStep, hbit, hpoly, BitVec.msb_ushiftRight]
  have hlow : first.getLsbD 0 = second.getLsbD 0 := by rw [← hmsb, ← hmsb, heq]
  have hhigh : first >>> 1 = second >>> 1 := by
    cases hbit : first.getLsbD 0 with
    | false =>
        rw [hbit] at hlow
        simpa [bitStep, hbit, ← hlow] using heq
    | true =>
        rw [hbit] at hlow
        simpa [bitStep, hbit, ← hlow] using heq
  apply BitVec.eq_of_getLsbD_eq
  intro i hi
  cases i with
  | zero => exact hlow
  | succ i =>
      have hi := congrArg (fun register => register.getLsbD i) hhigh
      simpa [BitVec.getLsbD_ushiftRight, Nat.add_comm] using hi

theorem byteSteps_injective (hpoly : poly.msb = true) (count : ℕ) :
    Function.Injective (byteStep poly)^[count] :=
  ((bitStep_injective hpoly).iterate 8).iterate count

theorem foldl_update_injective (hpoly : poly.msb = true) (bytes : List (BitVec 8)) :
    Function.Injective fun register : BitVec w => bytes.foldl (update poly) register := by
  induction bytes with
  | nil => exact Function.injective_id
  | cons byte bytes ih =>
      intro first second heq
      have hupdate : update poly first byte = update poly second byte := ih heq
      have hsum := byteSteps_injective hpoly 1 hupdate
      exact (BitVec.xor_left_inj _).mp hsum

/-- **Burst errors.** Two texts that differ only in a stretch of at most the width of the
register leave different registers. -/
theorem eq_of_foldl_update (hpoly : poly.msb = true) {before first second after : List (BitVec 8)}
    (hlength : first.length = second.length) (hfits : 8 * first.length ≤ w)
    {register : BitVec w}
    (heq : (before ++ first ++ after).foldl (update poly) register =
      (before ++ second ++ after).foldl (update poly) register) : first = second := by
  rw [List.foldl_append, List.foldl_append, List.foldl_append, List.foldl_append] at heq
  have hmiddle := foldl_update_injective hpoly after heq
  rw [foldl_update poly first hfits, foldl_update poly second (hlength ▸ hfits),
    hlength] at hmiddle
  have hwords := byteSteps_injective hpoly second.length hmiddle
  exact word_injective hlength hfits ((BitVec.xor_right_inj _).mp hwords)

end Errors

end Crc
