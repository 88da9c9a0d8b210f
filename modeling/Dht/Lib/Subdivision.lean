/-
# Intervals that are narrowed and zoomed

An arithmetic coder keeps an interval of naturals. Coding a symbol narrows it to the
part that belongs to the symbol; when it has become too narrow to be divided, it is
zoomed, that is, seen with one more digit. Whatever happens to an interval later, what
is left of it lies inside, and the leading digits of any point that is left therefore
say which part was chosen. That is all a decoder needs.
-/

import Mathlib.Algebra.Order.Ring.Nat
import Mathlib.Tactic.Ring

/-- The naturals from `low` up to, but not including, `low + width`. -/
structure Span where
  low : ℕ
  width : ℕ

namespace Span

/-- The same interval with one more digit. -/
def zoom (base : ℕ) (span : Span) : Span := ⟨span.low * base, span.width * base⟩

/-- The part of `width` that begins at `offset`. -/
def narrow (offset width : ℕ) (span : Span) : Span := ⟨span.low + offset, width⟩

/-- `inner` is part of `outer` seen with `digits` more digits. -/
structure Within (base digits : ℕ) (inner outer : Span) : Prop where
  low_le : outer.low * base ^ digits ≤ inner.low
  le_high : inner.low + inner.width ≤ (outer.low + outer.width) * base ^ digits

variable {base first second digits offset width : ℕ} {inner middle outer span : Span}

theorem within_self : Within base 0 span span := by
  constructor
  · rw [pow_zero, Nat.mul_one]
  · rw [pow_zero, Nat.mul_one]

theorem Within.trans (hinner : Within base first inner middle)
    (hmiddle : Within base second middle outer) :
    Within base (second + first) inner outer := by
  constructor
  · calc outer.low * base ^ (second + first)
        = outer.low * base ^ second * base ^ first := by ring
      _ ≤ middle.low * base ^ first := Nat.mul_le_mul_right _ hmiddle.low_le
      _ ≤ inner.low := hinner.low_le
  · calc inner.low + inner.width
        ≤ (middle.low + middle.width) * base ^ first := hinner.le_high
      _ ≤ (outer.low + outer.width) * base ^ second * base ^ first :=
          Nat.mul_le_mul_right _ hmiddle.le_high
      _ = (outer.low + outer.width) * base ^ (second + first) := by ring

theorem zoom_within : Within base 1 (span.zoom base) span := by
  constructor
  · rw [pow_one, zoom]
  · rw [pow_one, zoom, Nat.add_mul]

theorem narrow_within (hpart : offset + width ≤ span.width) :
    Within base 0 (span.narrow offset width) span := by
  constructor
  · rw [pow_zero, Nat.mul_one, narrow]
    exact Nat.le_add_right _ _
  · rw [pow_zero, Nat.mul_one, narrow]
    dsimp only
    omega

/-- The leading digits of what is left lie in the interval. -/
theorem Within.div_mem (hwithin : Within base digits inner outer) (hbase : 0 < base)
    (hinner : 0 < inner.width) :
    outer.low ≤ inner.low / base ^ digits ∧
      inner.low / base ^ digits < outer.low + outer.width := by
  have hpower : 0 < base ^ digits := pow_pos hbase _
  refine ⟨(Nat.le_div_iff_mul_le hpower).mpr hwithin.low_le, ?_⟩
  rw [Nat.div_lt_iff_lt_mul hpower]
  have hhigh := hwithin.le_high
  omega

end Span
