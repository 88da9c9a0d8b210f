/-
# Distance slots

A match distance is coded as a slot, which is its two highest bits and their place, and
the bits below. `fastpos.h` finds the slot of a distance in a table of the distances of
at most thirteen bits, shifting larger ones down first; two macros do this with different
shifts, and a third version counts bits instead. The table is modelled as
`fastpos_tablegen.c` fills it.

`InSlot` says that a distance belongs to a slot. A distance belongs to one slot only, all
three versions return it, and what is left of the distance then fits into the footer.
-/

import Mathlib.Data.Nat.Log
import Mathlib.Data.Nat.Bitwise
import Mathlib.Tactic.IntervalCases
import Mathlib.Tactic.NormNum
import Mathlib.Tactic.Ring

namespace Dht

/-! ## The source -/

/-- The table up to a slot: each slot takes half as many entries as there are so far, or a
third. -/
def fastposUpTo : ℕ → List ℕ
  | 0 => [0, 1]
  | slots + 1 =>
      fastposUpTo slots ++ List.replicate (1 <<< ((slots + 2) >>> 1 - 1)) (slots + 2)

/-- `lzma_fastpos`, with `FASTPOS_BITS` thirteen. -/
def lzmaFastpos : List ℕ := fastposUpTo 24

/-- `fastpos_shift`. -/
def fastposShift (extra n : ℕ) : ℕ := extra + n * (13 - 1)

/-- `fastpos_limit`. -/
def fastposLimit (extra n : ℕ) : ℕ := 1 <<< (13 + fastposShift extra n)

/-- `fastpos_result`. -/
def fastposResult (dist extra n : ℕ) : ℕ :=
  lzmaFastpos.getD (dist >>> fastposShift extra n) 0 + 2 * fastposShift extra n

/-- `get_dist_slot`. -/
def getDistSlot (dist : ℕ) : ℕ :=
  if dist < fastposLimit 0 0 then lzmaFastpos.getD dist 0
  else if dist < fastposLimit 0 1 then fastposResult dist 0 1
  else fastposResult dist 0 2

/-- `get_dist_slot_2`, for distances that are not small. -/
def getDistSlot2 (dist : ℕ) : ℕ :=
  if dist < fastposLimit (7 - 1) 0 then fastposResult dist (7 - 1) 0
  else if dist < fastposLimit (7 - 1) 1 then fastposResult dist (7 - 1) 1
  else fastposResult dist (7 - 1) 2

/-- `get_dist_slot_2` of the size-optimised build; `bsr32` is the place of the highest
bit. -/
def getDistSlot2Small (dist : ℕ) : ℕ :=
  let i := Nat.log2 dist
  (i + i) + ((dist >>> (i - 1)) &&& 1)

/-- `get_dist_slot` of the size-optimised build. -/
def getDistSlotSmall (dist : ℕ) : ℕ := if dist ≤ 4 then dist else getDistSlot2Small dist

/-- The lowest distance of a slot, `(2 | (dist_slot & 1)) << footer_bits`. -/
def distBase (slot : ℕ) : ℕ := (2 ||| (slot &&& 1)) <<< (slot >>> 1 - 1)

/-! ## Slots -/

/-- The distances of a slot that has bits below its two highest. -/
def InSlot (slot dist : ℕ) : Prop :=
  2 ≤ slot ∧ distBase slot ≤ dist ∧ dist < distBase slot + 2 ^ (slot / 2 - 1)

theorem distBase_eq (slot : ℕ) : distBase slot = (2 + slot % 2) * 2 ^ (slot / 2 - 1) := by
  rw [distBase, Nat.and_one_is_mod, Nat.shiftLeft_eq, Nat.shiftRight_eq_div_pow, pow_one]
  rcases Nat.mod_two_eq_zero_or_one slot with hbit | hbit
  · rw [hbit]
    rfl
  · rw [hbit]
    rfl

/-- The slots lie one behind the other. -/
theorem distBase_succ {slot : ℕ} (hslot : 2 ≤ slot) :
    distBase (slot + 1) = distBase slot + 2 ^ (slot / 2 - 1) := by
  rw [distBase_eq, distBase_eq]
  rcases Nat.mod_two_eq_zero_or_one slot with hbit | hbit
  · have hhalf : (slot + 1) / 2 = slot / 2 := by omega
    have hnext : (slot + 1) % 2 = 1 := by omega
    rw [hbit, hnext, hhalf]
    ring
  · have hhalf : (slot + 1) / 2 - 1 = slot / 2 - 1 + 1 := by omega
    have hnext : (slot + 1) % 2 = 0 := by omega
    rw [hbit, hnext, hhalf, pow_succ]
    ring

theorem distBase_le {slot other : ℕ} (hslot : 2 ≤ slot) (hle : slot ≤ other) :
    distBase slot ≤ distBase other := by
  induction other, hle using Nat.le_induction with
  | base => exact le_rfl
  | succ other hle ih =>
      rw [distBase_succ (hslot.trans hle)]
      exact Nat.le_add_right_of_le ih

/-- The slot of a distance is its two highest bits. -/
theorem InSlot.div_eq {slot dist : ℕ} (hslot : InSlot slot dist) :
    dist / 2 ^ (slot / 2 - 1) = 2 + slot % 2 := by
  obtain ⟨-, hlow, hhigh⟩ := hslot
  rw [distBase_eq] at hlow hhigh
  refine Nat.div_eq_of_lt_le hlow ?_
  rw [Nat.add_mul, Nat.one_mul]
  exact hhigh

/-- A distance belongs to one slot only. -/
theorem InSlot.unique {slot other dist : ℕ} (hslot : InSlot slot dist)
    (hother : InSlot other dist) : slot = other := by
  have hle {low high : ℕ} (hlow : InSlot low dist) (hhigh : InSlot high dist) : ¬low < high := by
    intro hlt
    have hstep := distBase_succ hlow.1
    have hmono : distBase (low + 1) ≤ distBase high :=
      distBase_le (Nat.le_succ_of_le hlow.1) hlt
    have hfirst := hlow.2.2
    have hsecond := hhigh.2.1
    omega
  exact Nat.le_antisymm (Nat.not_lt.mp (hle hother hslot)) (Nat.not_lt.mp (hle hslot hother))

/-- Bits shifted out move the slot by two each. -/
theorem InSlot.of_shiftRight {slot dist count : ℕ} (hslot : InSlot slot (dist >>> count)) :
    InSlot (slot + 2 * count) dist := by
  obtain ⟨htwo, hlow, hhigh⟩ := hslot
  rw [Nat.shiftRight_eq_div_pow] at hlow hhigh
  have hpower : 0 < 2 ^ count := Nat.two_pow_pos count
  have hfooter : (slot + 2 * count) / 2 - 1 = slot / 2 - 1 + count := by omega
  have hbase : distBase (slot + 2 * count) = distBase slot * 2 ^ count := by
    rw [distBase_eq, distBase_eq, hfooter, Nat.add_mul_mod_self_left, pow_add]
    ring
  refine ⟨Nat.le_add_right_of_le htwo, ?_, ?_⟩
  · rw [hbase]
    exact (Nat.le_div_iff_mul_le hpower).mp hlow
  · rw [hbase, hfooter, pow_add, ← Nat.add_mul]
    exact (Nat.div_lt_iff_lt_mul hpower).mp hhigh

/-! ## The table -/

theorem length_fastposUpTo (slots : ℕ) : (fastposUpTo slots).length = distBase (slots + 2) := by
  induction slots with
  | zero => rfl
  | succ slots ih =>
      rw [fastposUpTo, List.length_append, List.length_replicate, ih,
        distBase_succ (Nat.le_add_left 2 slots), Nat.shiftLeft_eq, Nat.one_mul,
        Nat.shiftRight_eq_div_pow, pow_one]

/-- Every entry of the table but the first two is the slot of its index. -/
theorem inSlot_fastposUpTo {slots dist : ℕ} (hlow : 2 ≤ dist)
    (hhigh : dist < (fastposUpTo slots).length) :
    InSlot ((fastposUpTo slots).getD dist 0) dist ∧
      (fastposUpTo slots).getD dist 0 < slots + 2 := by
  induction slots with
  | zero =>
      have : dist < 2 := hhigh
      omega
  | succ slots ih =>
      have hlength := length_fastposUpTo slots
      have hnext := length_fastposUpTo (slots + 1)
      rw [fastposUpTo]
      by_cases hfront : dist < (fastposUpTo slots).length
      · rw [List.getD_append _ _ _ _ hfront]
        exact ⟨(ih hfront).1, Nat.lt_succ_of_lt (ih hfront).2⟩
      · rw [Nat.not_lt] at hfront
        rw [hnext, Nat.add_right_comm, distBase_succ (Nat.le_add_left 2 slots)] at hhigh
        have hblock : dist - (fastposUpTo slots).length <
            1 <<< ((slots + 2) >>> 1 - 1) := by
          rw [Nat.shiftLeft_eq, Nat.one_mul, Nat.shiftRight_eq_div_pow, pow_one]
          omega
        rw [List.getD_append_right _ _ _ _ hfront, List.getD_replicate _ hblock]
        exact ⟨⟨Nat.le_add_left 2 slots, hlength ▸ hfront, hhigh⟩, Nat.lt_succ_self _⟩

/-- The table holds the slot of every distance of at most thirteen bits. -/
theorem inSlot_lzmaFastpos {dist : ℕ} (hlow : 2 ≤ dist) (hhigh : dist < 2 ^ 13) :
    InSlot (lzmaFastpos.getD dist 0) dist ∧ lzmaFastpos.getD dist 0 < 26 := by
  refine inSlot_fastposUpTo hlow ?_
  rw [length_fastposUpTo, distBase_eq]
  exact hhigh

/-- And, shifted, the slot of every distance that then has at most thirteen. -/
theorem inSlot_fastposResult {dist extra n : ℕ} (hlow : 2 ^ (fastposShift extra n + 1) ≤ dist)
    (hhigh : dist < fastposLimit extra n) :
    InSlot (fastposResult dist extra n) dist ∧
      fastposResult dist extra n < 26 + 2 * fastposShift extra n := by
  rw [fastposLimit, Nat.shiftLeft_eq, Nat.one_mul, pow_add] at hhigh
  have htwo : 2 ≤ dist >>> fastposShift extra n := by
    rw [Nat.shiftRight_eq_div_pow, Nat.le_div_iff_mul_le (Nat.two_pow_pos _), ← pow_succ']
    exact hlow
  have hsmall : dist >>> fastposShift extra n < 2 ^ 13 := by
    rw [Nat.shiftRight_eq_div_pow, Nat.div_lt_iff_lt_mul (Nat.two_pow_pos _)]
    exact hhigh
  obtain ⟨hslot, hlt⟩ := inSlot_lzmaFastpos htwo hsmall
  exact ⟨hslot.of_shiftRight, Nat.add_lt_add_right hlt _⟩

/-- `get_dist_slot` returns the slot of the distance. -/
theorem inSlot_getDistSlot {dist : ℕ} (hlow : 2 ≤ dist) (hhigh : dist < 2 ^ 32) :
    InSlot (getDistSlot dist) dist ∧ getDistSlot dist < 64 := by
  rw [getDistSlot]
  by_cases hfirst : dist < fastposLimit 0 0
  · rw [if_pos hfirst]
    obtain ⟨hslot, hlt⟩ := inSlot_lzmaFastpos hlow hfirst
    exact ⟨hslot, hlt.trans (by norm_num)⟩
  · rw [if_neg hfirst]
    norm_num [fastposLimit, fastposShift] at hfirst
    by_cases hsecond : dist < fastposLimit 0 1
    · rw [if_pos hsecond]
      obtain ⟨hslot, hlt⟩ := inSlot_fastposResult (by norm_num [fastposShift]; omega) hsecond
      exact ⟨hslot, hlt.trans (by norm_num [fastposShift])⟩
    · rw [if_neg hsecond]
      norm_num [fastposLimit, fastposShift] at hsecond
      -- the last range ends beyond 32 bits, and not every slot it could give is reached
      have hslot : InSlot (fastposResult dist 0 2) dist :=
        (inSlot_fastposResult (by norm_num [fastposShift]; omega)
          (by norm_num [fastposLimit, fastposShift]; omega)).1
      refine ⟨hslot, ?_⟩
      by_contra hlarge
      have hmono : distBase 64 ≤ distBase (fastposResult dist 0 2) :=
        distBase_le (by norm_num) (Nat.not_lt.mp hlarge)
      have hbase := hslot.2.1
      have hvalue : distBase 64 = 2 ^ 32 := rfl
      omega

/-- A distance below four is its own slot. -/
theorem getDistSlot_cases {dist : ℕ} (hdist : dist < 2 ^ 32) :
    getDistSlot dist < 4 ∧ getDistSlot dist = dist ∨
      4 ≤ getDistSlot dist ∧ getDistSlot dist < 64 ∧ InSlot (getDistSlot dist) dist := by
  by_cases hsmall : dist < 4
  · refine .inl ?_
    interval_cases dist <;> exact ⟨by decide, rfl⟩
  · obtain ⟨hslot, hlt⟩ := inSlot_getDistSlot (by omega) hdist
    refine .inr ⟨?_, hlt, hslot⟩
    obtain ⟨htwo, -, hhigh⟩ := hslot
    by_contra hfour
    generalize getDistSlot dist = slot at *
    have hcases : slot = 2 ∨ slot = 3 := by omega
    obtain rfl | rfl := hcases
    · have hvalue : distBase 2 + 2 ^ (2 / 2 - 1) = 3 := rfl
      omega
    · have hvalue : distBase 3 + 2 ^ (3 / 2 - 1) = 4 := rfl
      omega

/-- So does `get_dist_slot_2` for the distances it is used for. -/
theorem inSlot_getDistSlot2 {dist : ℕ} (hlow : 2 ^ 7 ≤ dist) (hhigh : dist < 2 ^ 32) :
    InSlot (getDistSlot2 dist) dist := by
  rw [getDistSlot2]
  by_cases hfirst : dist < fastposLimit (7 - 1) 0
  · rw [if_pos hfirst]
    exact (inSlot_fastposResult hlow hfirst).1
  · rw [if_neg hfirst]
    norm_num [fastposLimit, fastposShift] at hfirst
    by_cases hsecond : dist < fastposLimit (7 - 1) 1
    · rw [if_pos hsecond]
      exact (inSlot_fastposResult (by norm_num [fastposShift]; omega) hsecond).1
    · rw [if_neg hsecond]
      norm_num [fastposLimit, fastposShift] at hsecond
      exact (inSlot_fastposResult (by norm_num [fastposShift]; omega)
        (by norm_num [fastposLimit, fastposShift]; omega)).1

/-- And so does the version that looks for the highest bit. -/
theorem inSlot_getDistSlot2Small {dist : ℕ} (hlow : 2 ≤ dist) :
    InSlot (getDistSlot2Small dist) dist := by
  have hne : dist ≠ 0 := by omega
  have hlog : 1 ≤ dist.log2 := (Nat.le_log2 hne).mpr hlow
  obtain ⟨place, hplace⟩ := Nat.exists_eq_add_of_le' hlog
  have hfloor : 2 ^ (place + 1) ≤ dist := hplace ▸ Nat.log2_self_le hne
  have hceil : dist < 2 ^ (place + 2) := by
    have hlt := Nat.lt_log2_self (n := dist)
    rwa [hplace] at hlt
  have hpower : 0 < 2 ^ place := Nat.two_pow_pos place
  have hquotient : 2 ≤ dist / 2 ^ place ∧ dist / 2 ^ place < 4 := by
    rw [Nat.le_div_iff_mul_le hpower, Nat.div_lt_iff_lt_mul hpower]
    rw [pow_succ] at hfloor
    rw [pow_add] at hceil
    omega
  have hslot : getDistSlot2Small dist = 2 * (place + 1) + dist / 2 ^ place % 2 := by
    rw [getDistSlot2Small, hplace, Nat.and_one_is_mod, Nat.shiftRight_eq_div_pow,
      Nat.add_sub_cancel]
    omega
  have hhalf : (2 * (place + 1) + dist / 2 ^ place % 2) / 2 - 1 = place := by omega
  have hbit : (2 * (place + 1) + dist / 2 ^ place % 2) % 2 = dist / 2 ^ place % 2 := by omega
  have htop : 2 + dist / 2 ^ place % 2 = dist / 2 ^ place := by omega
  rw [hslot]
  refine ⟨by omega, ?_, ?_⟩
  · rw [distBase_eq, hhalf, hbit, htop]
    exact Nat.div_mul_le_self _ _
  · rw [distBase_eq, hhalf, hbit, htop]
    exact Nat.lt_div_mul_add hpower

/-- **All versions agree.** For every distance of 32 bits the tables and the search for the
highest bit give the same slot. -/
theorem getDistSlot_eq_small {dist : ℕ} (hdist : dist < 2 ^ 32) :
    getDistSlot dist = getDistSlotSmall dist ∧
      (2 ^ 7 ≤ dist → getDistSlot2 dist = getDistSlot2Small dist) := by
  refine ⟨?_, fun hlow => ?_⟩
  · rw [getDistSlotSmall]
    by_cases hsmall : dist ≤ 4
    · rw [if_pos hsmall]
      interval_cases dist <;> rfl
    · rw [if_neg hsmall]
      exact (inSlot_getDistSlot (by omega) hdist).1.unique (inSlot_getDistSlot2Small (by omega))
  · exact (inSlot_getDistSlot2 hlow hdist).unique
      (inSlot_getDistSlot2Small (le_trans (by norm_num) hlow))

theorem getDistSlot_eq_small_last :
    getDistSlot (2 ^ 32 - 1) = getDistSlotSmall (2 ^ 32 - 1) ∧
      (2 ^ 7 ≤ 2 ^ 32 - 1 → getDistSlot2 (2 ^ 32 - 1) = getDistSlot2Small (2 ^ 32 - 1)) :=
  getDistSlot_eq_small (by decide)

end Dht
