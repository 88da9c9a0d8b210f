/-
# Buffers that are filled piece by piece

A buffer is a list of fixed length. `overwrite` replaces a stretch of it; a loop that
overwrites one stretch after the other leaves what a single overwrite with all pieces
would have left. Read back by index, a row of pieces of one width is cut where it was
put together.
-/

import Mathlib.Data.List.Basic

namespace Buffer

universe u

variable {α : Type u}

/-- Replace the elements from `position` on by `values`. -/
def overwrite (buffer : List α) (position : ℕ) (values : List α) : List α :=
  buffer.take position ++ values ++ buffer.drop (position + values.length)

@[simp]
theorem overwrite_nil (buffer : List α) (position : ℕ) : overwrite buffer position [] = buffer := by
  simp [overwrite]

/-- Inside the buffer its length does not change. -/
theorem length_overwrite {buffer values : List α} {position : ℕ}
    (hfit : position + values.length ≤ buffer.length) :
    (overwrite buffer position values).length = buffer.length := by
  rw [overwrite, List.length_append, List.length_append, List.length_take, List.length_drop]
  omega

/-- Filling the whole buffer leaves nothing of it. -/
theorem overwrite_zero {buffer values : List α} (hfull : buffer.length ≤ values.length) :
    overwrite buffer 0 values = values := by
  rw [overwrite, List.take_zero, List.nil_append, Nat.zero_add, List.drop_of_length_le hfull,
    List.append_nil]

/-- Setting one element. -/
theorem set_eq_overwrite {buffer : List α} {position : ℕ} (hfit : position < buffer.length)
    (value : α) : buffer.set position value = overwrite buffer position [value] := by
  rw [List.set_eq_take_append_cons_drop, if_pos hfit, overwrite, List.append_assoc]
  rfl

/-- A stretch of a buffer. -/
def slice (buffer : List α) (position count : ℕ) : List α := (buffer.drop position).take count

theorem length_slice_le (buffer : List α) (position count : ℕ) :
    (slice buffer position count).length ≤ count := List.length_take_le _ _

theorem slice_append {front : List α} {position count : ℕ}
    (hfit : position + count ≤ front.length) (back : List α) :
    slice (front ++ back) position count = slice front position count := by
  rw [slice, List.drop_append_of_le_length (by omega), List.take_append_of_le_length, slice]
  rw [List.length_drop]
  omega

/-- A stretch between two others. -/
theorem slice_middle {front middle : List α} {position count : ℕ} (hfront : front.length = position)
    (hmiddle : middle.length = count) (back : List α) :
    slice (front ++ (middle ++ back)) position count = middle := by
  rw [slice, List.drop_left' hfront, List.take_left' hmiddle]

/-- A stretch and what is behind it. -/
theorem slice_append_drop (buffer : List α) (position count : ℕ) :
    slice buffer position count ++ buffer.drop (position + count) = buffer.drop position := by
  rw [slice, ← List.drop_drop, List.take_append_drop]

/-- What was written is read. -/
theorem slice_overwrite {buffer values : List α} {position : ℕ}
    (hfit : position ≤ buffer.length) :
    slice (overwrite buffer position values) position values.length = values := by
  have hfront : (buffer.take position).length = position := by
    rw [List.length_take]
    omega
  rw [slice, overwrite, List.append_assoc, List.drop_left' hfront, List.take_left]

/-- What lies before or behind an overwritten stretch stays. -/
theorem slice_overwrite_of_disjoint {buffer values : List α} {position other count : ℕ}
    (hfit : position + values.length ≤ buffer.length)
    (hdisjoint : other + count ≤ position ∨ position + values.length ≤ other) :
    slice (overwrite buffer position values) other count = slice buffer other count := by
  apply List.ext_getElem?
  intro i
  rw [slice, slice, List.getElem?_take, List.getElem?_take]
  by_cases hi : i < count
  · rw [if_pos hi, if_pos hi, List.getElem?_drop, List.getElem?_drop, overwrite]
    rcases hdisjoint with hbefore | hbehind
    · rw [List.append_assoc, List.getElem?_append_left, List.getElem?_take, if_pos (by omega)]
      rw [List.length_take]
      omega
    · rw [List.getElem?_append_right, List.getElem?_drop]
      · congr 1
        rw [List.length_append, List.length_take]
        omega
      · rw [List.length_append, List.length_take]
        omega
  · rw [if_neg hi, if_neg hi]

/-- The same for one element. -/
theorem getElem?_overwrite_of_disjoint {buffer values : List α} {position i : ℕ}
    (hfit : position + values.length ≤ buffer.length)
    (hdisjoint : i < position ∨ position + values.length ≤ i) :
    (overwrite buffer position values)[i]? = buffer[i]? := by
  have hslice : slice (overwrite buffer position values) i 1 = slice buffer i 1 :=
    slice_overwrite_of_disjoint hfit (by omega)
  have hhead (list : List α) : (slice list i 1)[0]? = list[i]? := by
    rw [slice, List.getElem?_take, if_pos Nat.one_pos, List.getElem?_drop, Nat.add_zero]
  rw [← hhead, hslice, hhead]

/-- One element more. -/
theorem slice_succ {buffer : List α} {position count : ℕ} {value : α}
    (hvalue : buffer[position + count]? = some value) :
    slice buffer position (count + 1) = slice buffer position count ++ [value] := by
  rw [slice, slice, List.take_add_one, List.getElem?_drop, hvalue]
  rfl

/-- Two adjacent stretches. -/
theorem overwrite_overwrite {buffer first : List α} {position : ℕ}
    (hfit : position + first.length ≤ buffer.length) (second : List α) :
    overwrite (overwrite buffer position first) (position + first.length) second =
      overwrite buffer position (first ++ second) := by
  have hfront : (buffer.take position ++ first).length = position + first.length := by
    rw [List.length_append, List.length_take]
    omega
  have htake : (overwrite buffer position first).take (position + first.length) =
      buffer.take position ++ first := by
    rw [overwrite, ← hfront, List.take_left]
  have hdrop : (overwrite buffer position first).drop (position + first.length) =
      buffer.drop (position + first.length) := by
    rw [overwrite, ← hfront, List.drop_left]
  rw [overwrite, htake, ← List.drop_drop, hdrop, List.drop_drop, overwrite, List.length_append,
    Nat.add_assoc, List.append_assoc (buffer.take position)]

section Pieces

variable {piece : ℕ → List α} {width count : ℕ}

theorem length_flatMap_range (hpiece : ∀ i < count, (piece i).length = width) :
    ((List.range count).flatMap piece).length = count * width := by
  induction count with
  | zero => simp
  | succ count ih =>
      rw [List.range_succ, List.flatMap_append, List.flatMap_singleton, List.length_append,
        ih fun i hi => hpiece i (Nat.lt_succ_of_lt hi), hpiece count (Nat.lt_succ_self count),
        Nat.succ_mul]

/-- A loop over pieces overwrites the buffer with all of them. -/
theorem foldl_overwrite (hpiece : ∀ i < count, (piece i).length = width) {buffer : List α}
    {start : ℕ} (hfit : start + count * width ≤ buffer.length) :
    (List.range count).foldl (fun buffer i => overwrite buffer (start + i * width) (piece i))
        buffer =
      overwrite buffer start ((List.range count).flatMap piece) := by
  induction count with
  | zero => simp
  | succ count ih =>
      have hbefore := fun i hi => hpiece i (Nat.lt_succ_of_lt hi)
      have hlength := length_flatMap_range hbefore
      rw [Nat.succ_mul] at hfit
      rw [List.range_succ, List.foldl_append, ih hbefore (by omega), List.foldl_cons,
        List.foldl_nil, List.flatMap_append, List.flatMap_singleton, ← hlength]
      exact overwrite_overwrite (by omega) (piece count)

/-- The element `j` of the piece `i`. -/
theorem getElem?_flatMap_range (hpiece : ∀ i < count, (piece i).length = width) {i j : ℕ}
    (hi : i < count) (hj : j < width) :
    ((List.range count).flatMap piece)[i * width + j]? = (piece i)[j]? := by
  have hsplit : List.range count = List.range i ++ (List.range (count - i)).map (i + ·) := by
    rw [← List.range_add, Nat.add_sub_cancel' (Nat.le_of_lt hi)]
  have hfront : ((List.range i).flatMap piece).length = i * width :=
    length_flatMap_range fun k hk => hpiece k (Nat.lt_trans hk hi)
  have hpos : count - i = (count - i - 1) + 1 := by omega
  rw [hsplit, List.flatMap_append, ← hfront,
    List.getElem?_append_right (Nat.le_add_right _ _), Nat.add_sub_cancel_left, hpos,
    List.range_succ_eq_map, List.map_cons, List.flatMap_cons, Nat.add_zero]
  apply List.getElem?_append_left
  rw [hpiece i hi]
  exact hj

/-- A stretch inside the piece `i`. -/
theorem slice_flatMap_range (hpiece : ∀ i < count, (piece i).length = width) {i offset n : ℕ}
    (hi : i < count) (hfit : offset + n ≤ width) :
    slice ((List.range count).flatMap piece) (i * width + offset) n =
      slice (piece i) offset n := by
  apply List.ext_getElem?
  intro j
  rw [slice, slice, List.getElem?_take, List.getElem?_take]
  by_cases hj : j < n
  · rw [if_pos hj, if_pos hj, List.getElem?_drop, List.getElem?_drop, Nat.add_assoc,
      getElem?_flatMap_range hpiece hi (by omega)]
  · rw [if_neg hj, if_neg hj]

end Pieces

section Rows

variable {width height : ℕ}

/-- The last row ends where the buffer does. -/
theorem last_row_end (hheight : 0 < height) : (height - 1) * width + width = height * width := by
  rw [← Nat.succ_mul, Nat.succ_eq_add_one, Nat.sub_add_cancel hheight]

/-- The last position of all rows decides whether every one is below a bound. -/
theorem area_le_iff {bound : ℕ} :
    height * width ≤ bound ↔ ∀ y < height, ∀ x < width, y * width + x < bound := by
  constructor
  · intro harea y hy x hx
    have hend := Nat.mul_le_mul_right width (Nat.succ_le_of_lt hy)
    rw [Nat.succ_mul] at hend
    omega
  · intro hall
    rcases Nat.eq_zero_or_pos (height * width) with hzero | hpos
    · rw [hzero]
      exact Nat.zero_le _
    · have hheight := Nat.pos_of_mul_pos_right hpos
      have hwidth := Nat.pos_of_mul_pos_left hpos
      have hlast := hall (height - 1) (by omega) (width - 1) (by omega)
      have hend : (height - 1) * width + width = height * width := last_row_end hheight
      omega

end Rows

end Buffer
