/-
# The string cleaner

`removeExtraSpaces` walks a string with one flag and drops every blank behind a blank;
`trim` cuts off blanks, tabs, newlines and carriage returns at both ends. The first is
squeezing, the second finds the core of a text, so both are what the library says of
these. A cleaned text is decoded to the same image: a newline resets the flag, so lines
are cleaned one by one, none of them becomes empty, and blanks only separate codes.
-/

import Dht.Image.Rectangular
import Dht.Lib.Squeeze

namespace Dht

/-- `result` and `spaceFound`. -/
structure Cleaned where
  result : Bytes
  spaceFound : Bool

/-- The body of the loop. -/
def Cleaned.add (cleaned : Cleaned) (c : UInt8) : Cleaned :=
  if c = blank then
    if !cleaned.spaceFound then ⟨cleaned.result ++ [c], true⟩ else cleaned
  else ⟨cleaned.result ++ [c], false⟩

/-- `removeExtraSpaces`. -/
def removeExtraSpaces (str : Bytes) : Bytes := (str.foldl Cleaned.add ⟨[], false⟩).result

/-- `find_first_not_of`. -/
def findFirstNotOf (chars str : Bytes) : Option ℕ := str.findIdx? (· ∉ chars)

/-- `find_last_not_of`. -/
def findLastNotOf (chars str : Bytes) : Option ℕ :=
  (str.reverse.findIdx? (· ∉ chars)).map (str.length - 1 - ·)

/-- `std::string::npos`. -/
def npos : ℕ := 2 ^ 64 - 1

/-- `trim`. -/
def trim (str : Bytes) : Bytes :=
  match findFirstNotOf (ascii " \t\n\r") str with
  | none => []
  | some start =>
      let finish := (findLastNotOf (ascii " \t\n\r") str).getD npos
      (str.drop start).take (finish - start + 1)

/-! ## Both are library operations -/

theorem foldl_clean (str : Bytes) (cleaned : Cleaned) :
    (str.foldl Cleaned.add cleaned).result =
      cleaned.result ++ Text.squeeze blank cleaned.spaceFound str := by
  induction str generalizing cleaned with
  | nil => exact (List.append_nil _).symm
  | cons c str ih =>
      rw [List.foldl_cons, ih, Cleaned.add]
      by_cases hc : c = blank
      · subst hc
        rw [if_pos rfl]
        cases hfound : cleaned.spaceFound with
        | true =>
            rw [if_neg (by simp), hfound, Text.squeeze_self_true]
        | false =>
            rw [if_pos (by simp), Text.squeeze_self_false, List.append_assoc,
              List.singleton_append]
      · rw [if_neg hc, Text.squeeze_cons_of_ne hc, List.append_assoc, List.singleton_append]

theorem removeExtraSpaces_eq (str : Bytes) : removeExtraSpaces str = Text.squeeze blank false str :=
  foldl_clean str ⟨[], false⟩

/-- What `trim` cuts off. -/
def isTrimmed (c : UInt8) : Bool := c ∈ ascii " \t\n\r"

/-- The index of the first character that is kept. -/
theorem findIdx?_of_keep {front : Bytes} (hfront : ∀ c ∈ front, isTrimmed c = true) {c : UInt8}
    (hc : isTrimmed c = false) (rest : Bytes) :
    (front ++ c :: rest).findIdx? (· ∉ ascii " \t\n\r") = some front.length := by
  have hkeep : c ∉ ascii " \t\n\r" := of_decide_eq_false hc
  induction front with
  | nil => rw [List.nil_append, List.findIdx?_cons, if_pos (decide_eq_true hkeep)]; rfl
  | cons d front ih =>
      rw [List.forall_mem_cons] at hfront
      have hd : ¬ d ∉ ascii " \t\n\r" := not_not.mpr (of_decide_eq_true hfront.1)
      rw [List.cons_append, List.findIdx?_cons, if_neg (by simpa using hd), ih hfront.2]
      rfl

/-- `trim` returns the core. -/
theorem trim_eq_core {str before core after : Bytes}
    (hcuts : Text.CutsTo isTrimmed str before core after) : trim str = core := by
  cases core with
  | nil =>
      have hnone : findFirstNotOf (ascii " \t\n\r") str = none := by
        rw [findFirstNotOf, List.findIdx?_eq_none_iff]
        intro c hc
        rw [hcuts.eq, List.append_nil, List.mem_append] at hc
        have hdrop : isTrimmed c = true := hc.elim (hcuts.before_drop c) (hcuts.after_drop c)
        simpa [isTrimmed] using hdrop
      rw [trim, hnone]
  | cons first rest =>
      have hfirst : findFirstNotOf (ascii " \t\n\r") str = some before.length := by
        rw [findFirstNotOf, hcuts.eq, List.append_assoc]
        exact findIdx?_of_keep hcuts.before_drop (hcuts.head_keep first rfl) _
      obtain ⟨init, last, hcore⟩ := List.eq_nil_or_concat (first :: rest) |>.resolve_left
        (List.cons_ne_nil _ _)
      rw [List.concat_eq_append] at hcore
      have hlength : str.length = before.length + (first :: rest).length + after.length := by
        rw [hcuts.eq, List.length_append, List.length_append]
      have hlast : findLastNotOf (ascii " \t\n\r") str =
          some (str.length - 1 - after.length) := by
        have hkeep : isTrimmed last = false := hcuts.last_keep last (by
          rw [hcore]
          exact List.getLast?_concat)
        have hreverse : str.reverse = after.reverse ++ last :: (before ++ init).reverse := by
          rw [hcuts.eq, hcore]
          simp
        rw [findLastNotOf, hreverse, findIdx?_of_keep _ hkeep, List.length_reverse]
        · rfl
        · intro c hc
          exact hcuts.after_drop c (List.mem_reverse.mp hc)
      have hcount : str.length - 1 - after.length - before.length + 1 = (first :: rest).length := by
        rw [List.length_cons] at hlength ⊢
        omega
      rw [trim, hfirst, hlast]
      dsimp only [Option.getD_some]
      rw [hcount, hcuts.eq, List.append_assoc, List.drop_left, List.take_left]

/-! ## Cleaning -/

theorem codeRows_removeExtraSpaces (text : Bytes) :
    codeRows (removeExtraSpaces text) = codeRows text := by
  rw [removeExtraSpaces_eq, codeRows, Text.lines_squeeze (by decide), List.filter_map, List.map_map,
    codeRows]
  have hempty : (fun line => decide (line ≠ [])) ∘ Text.squeeze blank false =
      fun line => decide (line ≠ []) := by
    funext line
    exact decide_eq_decide.mpr Text.squeeze_eq_nil_iff.not
  rw [hempty]
  apply List.map_congr_left
  intro line _
  exact Text.tokens_squeeze (by decide) line

/-- Cleaning a text changes neither the image nor, when done again, the text, and it can be
done before or after trimming. -/
theorem removeExtraSpaces_spec (text : Bytes) :
    textToPixel (removeExtraSpaces text) = textToPixel text ∧
      removeExtraSpaces (removeExtraSpaces text) = removeExtraSpaces text ∧
      removeExtraSpaces (trim text) = trim (removeExtraSpaces text) := by
  refine ⟨?_, ?_, ?_⟩
  · rw [textToPixel_eq_codeRows, codeRows_removeExtraSpaces, textToPixel_eq_codeRows]
  · rw [removeExtraSpaces_eq, removeExtraSpaces_eq, Text.squeeze_squeeze]
  · obtain ⟨before, core, after, hcuts⟩ := Text.exists_cutsTo isTrimmed text
    obtain ⟨_, _, hsqueezed⟩ := hcuts.squeeze (show isTrimmed blank = true by decide)
    rw [trim_eq_core hcuts, removeExtraSpaces_eq, removeExtraSpaces_eq, trim_eq_core hsqueezed]

end Dht
