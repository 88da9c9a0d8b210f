/-
# Squeezed and stripped text

Squeezing keeps the first of several equal characters in a row, for one chosen character;
stripping drops what satisfies a predicate from both ends. Neither moves anything else,
so a squeezed text has the lines and the tokens of the text it was made from, and the two
operations can be done in either order. The flag of the squeezing automaton is reset by
every other character: that is the one equation all of this rests on.
-/

import Dht.Lib.Text
import Mathlib.Data.List.DropRight

namespace Text

universe u

variable {α : Type u} [DecidableEq α]

/-! ## Squeezing -/

/-- Drop every `a` behind an `a`. `seen` tells whether the character before the text was
one. -/
def squeeze (a : α) : Bool → List α → List α
  | _, [] => []
  | seen, c :: text =>
      if c = a then
        if seen then squeeze a true text else c :: squeeze a true text
      else c :: squeeze a false text

section Squeeze

variable {a : α}

@[simp]
theorem squeeze_nil (seen : Bool) : squeeze a seen [] = [] := rfl

theorem squeeze_self_true (text : List α) : squeeze a true (a :: text) = squeeze a true text := by
  rw [squeeze, if_pos rfl, if_pos rfl]

theorem squeeze_self_false (text : List α) :
    squeeze a false (a :: text) = a :: squeeze a true text := by
  rw [squeeze, if_pos rfl, if_neg Bool.false_ne_true]

/-- Another character stays and resets the flag. -/
theorem squeeze_cons_of_ne {c : α} (hc : c ≠ a) (seen : Bool) (text : List α) :
    squeeze a seen (c :: text) = c :: squeeze a false text := by
  rw [squeeze, if_neg hc]

theorem squeeze_append_cons {c : α} (hc : c ≠ a) (seen : Bool) (before text : List α) :
    squeeze a seen (before ++ c :: text) = squeeze a seen before ++ c :: squeeze a false text := by
  induction before generalizing seen with
  | nil => exact squeeze_cons_of_ne hc seen text
  | cons d before ih =>
      by_cases hd : d = a
      · subst hd
        cases seen with
        | true => rw [List.cons_append, squeeze_self_true, ih, squeeze_self_true]
        | false =>
            rw [List.cons_append, squeeze_self_false, ih, squeeze_self_false, List.cons_append]
      · rw [List.cons_append, squeeze_cons_of_ne hd, ih, squeeze_cons_of_ne hd, List.cons_append]

/-- Squeezing twice is squeezing once. -/
theorem squeeze_squeeze (seen : Bool) (text : List α) :
    squeeze a seen (squeeze a seen text) = squeeze a seen text := by
  induction text generalizing seen with
  | nil => rfl
  | cons c text ih =>
      by_cases hc : c = a
      · subst hc
        cases seen with
        | true => rw [squeeze_self_true, ih]
        | false => rw [squeeze_self_false, squeeze_self_false, ih]
      · rw [squeeze_cons_of_ne hc, squeeze_cons_of_ne hc, ih]

theorem mem_of_mem_squeeze {c : α} {seen : Bool} {text : List α} (hc : c ∈ squeeze a seen text) :
    c ∈ text := by
  induction text generalizing seen with
  | nil => exact hc
  | cons d text ih =>
      rw [squeeze] at hc
      split at hc
      · split at hc
        · exact List.mem_cons_of_mem _ (ih hc)
        · rcases List.mem_cons.mp hc with rfl | hrest
          · exact List.mem_cons_self
          · exact List.mem_cons_of_mem _ (ih hrest)
      · rcases List.mem_cons.mp hc with rfl | hrest
        · exact List.mem_cons_self
        · exact List.mem_cons_of_mem _ (ih hrest)

theorem squeeze_eq_nil_iff {text : List α} : squeeze a false text = [] ↔ text = [] := by
  cases text with
  | nil => exact Iff.rfl
  | cons c text =>
      refine iff_of_false ?_ (List.cons_ne_nil _ _)
      by_cases hc : c = a
      · subst hc
        rw [squeeze_self_false]
        exact List.cons_ne_nil _ _
      · rw [squeeze_cons_of_ne hc]
        exact List.cons_ne_nil _ _

/-- The lines of a squeezed text are the squeezed lines. -/
theorem lines_squeeze {sep : α} (hsep : sep ≠ a) (text : List α) :
    lines sep (squeeze a false text) = (lines sep text).map (squeeze a false) := by
  induction text using lines_induction sep with
  | nil => rfl
  | last line hline hne =>
      have hfree : sep ∉ squeeze a false line := fun hmem => hline (mem_of_mem_squeeze hmem)
      rw [lines_of_not_mem hline hne, lines_of_not_mem hfree (squeeze_eq_nil_iff.not.mpr hne),
        List.map_singleton]
  | next line text hline ih =>
      have hfree : sep ∉ squeeze a false line := fun hmem => hline (mem_of_mem_squeeze hmem)
      rw [squeeze_append_cons hsep, lines_append_sep hfree, lines_append_sep hline, List.map_cons,
        ih]

/-- The tokens of a squeezed text are those of the text, if the squeezed character separates
tokens. The text may stand behind another, which ends with that character if one was seen. -/
theorem tokens_append_squeeze {space : α → Bool} (ha : space a) (text before : List α) :
    tokens space (before ++ squeeze a false text) = tokens space (before ++ text) ∧
      tokens space (before ++ a :: squeeze a true text) = tokens space (before ++ a :: text) := by
  induction text generalizing before with
  | nil => exact ⟨rfl, rfl⟩
  | cons c text ih =>
      by_cases hc : c = a
      · subst hc
        rw [squeeze_self_false, squeeze_self_true]
        refine ⟨(ih before).2, ?_⟩
        rw [(ih before).2, tokens_append_space ha, tokens_append_space ha, tokens_space_cons ha]
      · have hone := (ih (before ++ [c])).1
        have htwo := (ih (before ++ [a, c])).1
        simp only [List.append_assoc, List.cons_append, List.nil_append] at hone htwo
        rw [squeeze_cons_of_ne hc, squeeze_cons_of_ne hc]
        exact ⟨hone, htwo⟩

theorem tokens_squeeze {space : α → Bool} (ha : space a) (text : List α) :
    tokens space (squeeze a false text) = tokens space text :=
  (tokens_append_squeeze ha text []).1

end Squeeze

/-! ## Stripping -/

section Strip

variable {drop : α → Bool}

omit [DecidableEq α] in
/-- A text is what is dropped before, the core that is kept, and what is dropped behind. -/
structure CutsTo (drop : α → Bool) (text before core after : List α) : Prop where
  eq : text = before ++ core ++ after
  before_drop : ∀ c ∈ before, drop c = true
  after_drop : ∀ c ∈ after, drop c = true
  head_keep : ∀ c ∈ core.head?, drop c = false
  last_keep : ∀ c ∈ core.getLast?, drop c = false

omit [DecidableEq α] in
theorem exists_cutsTo (drop : α → Bool) (text : List α) :
    ∃ before core after, CutsTo drop text before core after := by
  refine ⟨text.takeWhile drop, (text.dropWhile drop).rdropWhile drop,
    (text.dropWhile drop).rtakeWhile drop, ?_, ?_, ?_, ?_, ?_⟩
  · rw [List.append_assoc, List.rdropWhile_append_rtakeWhile, List.takeWhile_append_dropWhile]
  · intro c hc
    exact List.mem_takeWhile_imp hc
  · intro c hc
    exact List.mem_rtakeWhile_imp hc
  · intro c hc
    obtain ⟨rest, hrest⟩ := List.rdropWhile_prefix drop (l := text.dropWhile drop)
    have hhead := List.head?_dropWhile_not drop text
    rw [← hrest, List.head?_append, hc] at hhead
    simpa using hhead
  · intro c hc
    obtain ⟨hne, hlast⟩ := List.mem_getLast?_eq_getLast hc
    have hkeep := List.rdropWhile_last_not drop _ hne
    rw [← hlast] at hkeep
    simpa using hkeep

variable {a : α}

theorem squeeze_append_of_head {text : List α} (hhead : ∀ c ∈ text.head?, c ≠ a) (seen : Bool)
    (before : List α) :
    squeeze a seen (before ++ text) = squeeze a seen before ++ squeeze a false text := by
  cases text with
  | nil => rw [List.append_nil, squeeze_nil, List.append_nil]
  | cons c text =>
      rw [squeeze_append_cons (hhead c rfl), squeeze_cons_of_ne (hhead c rfl)]

theorem squeeze_append_of_last {before : List α} (hlast : ∀ c ∈ before.getLast?, c ≠ a)
    (text : List α) :
    squeeze a false (before ++ text) = squeeze a false before ++ squeeze a false text := by
  induction before using List.reverseRecOn with
  | nil => rfl
  | append_singleton before c _ =>
      have hc : c ≠ a := hlast c List.getLast?_concat
      rw [List.append_assoc, List.singleton_append, squeeze_append_cons hc,
        squeeze_append_cons hc, squeeze_nil, List.append_assoc, List.singleton_append]

/-- Squeezing goes through the cut, if the squeezed character is one that is dropped. -/
theorem CutsTo.squeeze (ha : drop a = true) {text before core after : List α}
    (hcuts : CutsTo drop text before core after) :
    ∃ before after, CutsTo drop (squeeze a false text) before (squeeze a false core) after := by
  have hkeep (c : α) (hc : drop c = false) : c ≠ a := by
    rintro rfl
    rw [ha] at hc
    cases hc
  have hhead (c : α) (hc : c ∈ core.head?) : c ≠ a := hkeep c (hcuts.head_keep c hc)
  have hlast (c : α) (hc : c ∈ core.getLast?) : c ≠ a := hkeep c (hcuts.last_keep c hc)
  by_cases hempty : core = []
  · refine ⟨Text.squeeze a false text, [], ?_, ?_, fun _ hc => absurd hc List.not_mem_nil, ?_, ?_⟩
    · rw [hempty, squeeze_nil, List.append_nil, List.append_nil]
    · intro c hc
      have hmem := mem_of_mem_squeeze hc
      rw [hcuts.eq, hempty, List.append_nil, List.mem_append] at hmem
      rcases hmem with hbefore | hafter
      · exact hcuts.before_drop c hbefore
      · exact hcuts.after_drop c hafter
    · rw [hempty]
      intro c hc
      cases hc
    · rw [hempty]
      intro c hc
      cases hc
  · refine ⟨Text.squeeze a false before, Text.squeeze a false after, ?_, ?_, ?_, ?_, ?_⟩
    · rw [hcuts.eq, squeeze_append_of_last, squeeze_append_of_head hhead]
      rw [List.getLast?_append_of_ne_nil _ hempty]
      exact hlast
    · intro c hc
      exact hcuts.before_drop c (mem_of_mem_squeeze hc)
    · intro c hc
      exact hcuts.after_drop c (mem_of_mem_squeeze hc)
    · cases core with
      | nil => exact absurd rfl hempty
      | cons first rest =>
          rw [squeeze_cons_of_ne (hhead first rfl)]
          exact hcuts.head_keep
    · induction core using List.reverseRecOn with
      | nil => exact absurd rfl hempty
      | append_singleton rest last _ =>
          rw [squeeze_append_cons (hlast last List.getLast?_concat), squeeze_nil,
            List.getLast?_concat]
          exact fun c hc => hcuts.last_keep c (List.getLast?_concat.trans hc)

end Strip

end Text
