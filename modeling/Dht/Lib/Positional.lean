/-
# Numbers in positional notation

Two ways to write a natural number as a list of digits. A numeral has the most
significant digit first and no leading zeros; it is read by a loop that multiplies by
the base and adds the next digit. A field of fixed width has the least significant
digit first and is filled up with zeros; what does not fit is cut off.

Both are tied to `Nat.ofDigits`, and both come back: a numeral as the number, a field
as the number modulo a power of the base.
-/

import Mathlib.Data.List.Induction
import Mathlib.Data.Nat.Digits.Defs
import Mathlib.Tactic.Ring

namespace Positional

variable {base : ℕ}

/-! ## Numerals -/

/-- The digits of a number, most significant first; zero has one digit. -/
def numeral (base number : ℕ) : List ℕ :=
  if number = 0 then [0] else (base.digits number).reverse

/-- What the reading loop computes. -/
def value (base : ℕ) (digits : List ℕ) : ℕ :=
  digits.foldl (fun number digit => base * number + digit) 0

theorem numeral_ne_nil (base number : ℕ) : numeral base number ≠ [] := by
  rw [numeral]
  by_cases hzero : number = 0
  · rw [if_pos hzero]
    exact List.cons_ne_nil _ _
  · rw [if_neg hzero, Ne, List.reverse_eq_nil_iff]
    exact Nat.digits_ne_nil_iff_ne_zero.mpr hzero

theorem lt_of_mem_numeral (hbase : 1 < base) {number digit : ℕ}
    (hdigit : digit ∈ numeral base number) : digit < base := by
  rw [numeral] at hdigit
  by_cases hzero : number = 0
  · rw [if_pos hzero, List.mem_singleton] at hdigit
    omega
  · rw [if_neg hzero, List.mem_reverse] at hdigit
    exact Nat.digits_lt_base hbase hdigit

/-- The loop reads digits as `Nat.ofDigits` does, from the other end. -/
theorem value_eq_ofDigits (digits : List ℕ) :
    value base digits = Nat.ofDigits base digits.reverse := by
  induction digits using List.reverseRecOn with
  | nil => rfl
  | append_singleton digits digit ih =>
      rw [value, List.foldl_append, List.reverse_append, List.reverse_singleton,
        List.singleton_append, Nat.ofDigits_cons, ← ih]
      exact Nat.add_comm _ _

/-- Digits behind others. -/
theorem value_append (left right : List ℕ) :
    value base (left ++ right) = value base left * base ^ right.length + value base right := by
  rw [value_eq_ofDigits, value_eq_ofDigits, value_eq_ofDigits, List.reverse_append,
    Nat.ofDigits_append, List.length_reverse]
  ring

theorem value_cons (digit : ℕ) (digits : List ℕ) :
    value base (digit :: digits) = digit * base ^ digits.length + value base digits := by
  rw [← List.singleton_append, value_append]
  simp [value]

/-- Digits stay below the power of the base that has one more. -/
theorem value_lt {digits : List ℕ} (hdigits : ∀ digit ∈ digits, digit < base) :
    value base digits < base ^ digits.length := by
  induction digits with
  | nil => exact Nat.one_pos
  | cons digit digits ih =>
      rw [List.forall_mem_cons] at hdigits
      calc value base (digit :: digits)
          = digit * base ^ digits.length + value base digits := value_cons digit digits
        _ < (digit + 1) * base ^ digits.length := by
            rw [Nat.add_mul, Nat.one_mul]
            exact Nat.add_lt_add_left (ih hdigits.2) _
        _ ≤ base * base ^ digits.length := Nat.mul_le_mul_right _ hdigits.1
        _ = base ^ (digit :: digits).length := (pow_succ' _ _).symm

/-- A numeral is read as the number it was written for. -/
theorem value_numeral (base number : ℕ) : value base (numeral base number) = number := by
  rw [value_eq_ofDigits, numeral]
  by_cases hzero : number = 0
  · rw [if_pos hzero, hzero]
    rfl
  · rw [if_neg hzero, List.reverse_reverse, Nat.ofDigits_digits]

/-! ## Fields of fixed width -/

/-- The lowest `width` digits of a number, least significant first. -/
def field (base : ℕ) : ℕ → ℕ → List ℕ
  | 0, _ => []
  | width + 1, number => number % base :: field base width (number / base)

@[simp]
theorem length_field (width number : ℕ) : (field base width number).length = width := by
  induction width generalizing number with
  | zero => rfl
  | succ width ih => rw [field, List.length_cons, ih]

theorem lt_of_mem_field (hbase : 0 < base) {width number digit : ℕ}
    (hdigit : digit ∈ field base width number) : digit < base := by
  induction width generalizing number with
  | zero => exact absurd hdigit List.not_mem_nil
  | succ width ih =>
      rcases List.mem_cons.mp hdigit with rfl | hrest
      · exact Nat.mod_lt number hbase
      · exact ih hrest

/-- A field is read as the number modulo the power of the base that fits into it. -/
theorem ofDigits_field (width number : ℕ) :
    Nat.ofDigits base (field base width number) = number % base ^ width := by
  induction width generalizing number with
  | zero => rw [pow_zero, Nat.mod_one, field, Nat.ofDigits_nil]
  | succ width ih =>
      rw [field, Nat.ofDigits_cons, ih, pow_succ', Nat.mod_mul]

end Positional
