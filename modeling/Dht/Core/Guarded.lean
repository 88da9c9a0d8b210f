/-
# Computations that are defined exactly under a condition

An unchecked index is fine or it is not, and which of the two is decided before the
element is looked at. `Guarded` says this of a whole computation: it returns exactly if a
condition holds, and otherwise its behaviour is undefined. The condition of a loop is
that of all its turns, as long as none of them depends on what the others have stored.
-/

import Dht.Core.Outcome

namespace Dht

variable {α β σ : Type}

/-- The outcome is a value that satisfies `Inv` if `Safe` holds, and undefined if not. -/
def Guarded (Safe : Prop) (Inv : α → Prop) (outcome : Outcome α) : Prop :=
  (Safe ∧ ∃ value, outcome = .ok value ∧ Inv value) ∨ (¬ Safe ∧ outcome = undefined)

namespace Guarded

variable {Safe First Next : Prop} {Inv : α → Prop}

theorem ne_undefined_iff {outcome : Outcome α} (hguarded : Guarded Safe Inv outcome) :
    outcome ≠ undefined ↔ Safe := by
  rcases hguarded with ⟨hsafe, value, rfl, -⟩ | ⟨houtside, rfl⟩
  · exact ⟨fun _ => hsafe, fun _ hundefined => by cases hundefined⟩
  · exact ⟨fun hdefined => absurd rfl hdefined, fun hsafe => absurd hsafe houtside⟩

theorem eq_undefined {outcome : Outcome α} (hguarded : Guarded Safe Inv outcome)
    (houtside : ¬ Safe) : outcome = undefined := by
  rcases hguarded with ⟨hsafe, -⟩ | ⟨-, hundefined⟩
  · exact absurd hsafe houtside
  · exact hundefined

theorem congr {Safe' : Prop} (hiff : Safe ↔ Safe') {outcome : Outcome α}
    (hguarded : Guarded Safe Inv outcome) : Guarded Safe' Inv outcome := by
  rw [← propext hiff]
  exact hguarded

theorem ok (value : α) : Guarded True (fun _ => True) (.ok value) :=
  .inl ⟨trivial, value, rfl, trivial⟩

/-- One computation after the other. -/
theorem bind {Result : β → Prop} {first : Outcome α} {next : α → Outcome β}
    (hfirst : Guarded First Inv first)
    (hnext : ∀ value, Inv value → Guarded Next Result (next value)) :
    Guarded (First ∧ Next) Result (first >>= next) := by
  rcases hfirst with ⟨hsafe, value, rfl, hvalue⟩ | ⟨houtside, rfl⟩
  · rw [ok_bind]
    exact (hnext value hvalue).congr (and_iff_right hsafe).symm
  · exact .inr ⟨fun hboth => houtside hboth.1, undefined_bind next⟩

/-- A loop whose turns keep an invariant. -/
theorem foldlM {Turn : α → Prop} {Inv : σ → Prop} {body : σ → α → Outcome σ} {turns : List α}
    (hturns : ∀ turn ∈ turns, ∀ state, Inv state → Guarded (Turn turn) Inv (body state turn))
    {start : σ} (hstart : Inv start) :
    Guarded (∀ turn ∈ turns, Turn turn) Inv (turns.foldlM body start) := by
  induction turns generalizing start with
  | nil =>
      refine .inl ⟨?_, start, rfl, hstart⟩
      intro turn hturn
      cases hturn
  | cons turn turns ih =>
      rw [List.forall_mem_cons] at hturns
      rw [List.foldlM_cons, List.forall_mem_cons]
      exact bind (hturns.1 start hstart) fun _ hstate => ih hturns.2 hstate

end Guarded

/-! ## The primitive operations -/

/-- An index into a vector of that length. -/
def InRange (length : ℕ) (index : ℤ) : Prop := 0 ≤ index ∧ index < length

instance (length : ℕ) (index : ℤ) : Decidable (InRange length index) :=
  inferInstanceAs (Decidable (_ ∧ _))

theorem guarded_vectorAt (vector : List α) (index : ℤ) :
    Guarded (InRange vector.length index) (fun _ => True) (vectorAt vector index) := by
  by_cases hrange : InRange vector.length index
  · obtain ⟨hnonneg, hlt⟩ := hrange
    have hvalue : vector[index.toNat]? = some (vector.get ⟨index.toNat, by omega⟩) :=
      List.getElem?_eq_getElem (by omega)
    refine .inl ⟨⟨hnonneg, hlt⟩, vector.get ⟨index.toNat, by omega⟩, ?_, trivial⟩
    rw [vectorAt, if_pos hnonneg, hvalue]
  · refine .inr ⟨hrange, ?_⟩
    rw [vectorAt]
    split
    · next hnonneg =>
        have hnone : vector[index.toNat]? = none := by
          apply List.getElem?_eq_none
          by_contra hlt
          exact hrange ⟨hnonneg, by omega⟩
        rw [hnone]
    · rfl

theorem guarded_vectorSet (vector : List α) (index : ℤ) (value : α) :
    Guarded (InRange vector.length index) (fun stored => stored.length = vector.length)
      (vectorSet vector index value) := by
  rw [vectorSet]
  split
  · next hrange => exact .inl ⟨hrange, _, rfl, List.length_set⟩
  · next hrange => exact .inr ⟨hrange, rfl⟩

theorem guarded_intResult (value : ℤ) :
    Guarded (-2 ^ 31 ≤ value ∧ value < 2 ^ 31) (fun result => result = value)
      (intResult value) := by
  rw [intResult]
  split
  · next hrange => exact .inl ⟨hrange, value, rfl, rfl⟩
  · next hrange => exact .inr ⟨hrange, rfl⟩

/-! ## Computations that do not throw -/

/-- The computation throws an exception. -/
def Throws (outcome : Outcome α) : Prop := ∃ failure, outcome = .error failure ∧ failure.IsThrown

theorem not_throws_ok (value : α) : ¬ Throws (.ok value : Outcome α) := by
  rintro ⟨failure, hfailure, -⟩
  cases hfailure

theorem Guarded.not_throws {Safe : Prop} {Inv : α → Prop} {outcome : Outcome α}
    (hguarded : Guarded Safe Inv outcome) : ¬ Throws outcome := by
  rintro ⟨failure, hfailure, hthrown⟩
  rcases hguarded with ⟨-, value, hvalue, -⟩ | ⟨-, hundefined⟩
  · rw [hvalue] at hfailure
    cases hfailure
  · rw [hundefined] at hfailure
    cases hfailure
    exact hthrown

theorem not_throws_bind {first : Outcome α} {next : α → Outcome β} (hfirst : ¬ Throws first)
    (hnext : ∀ value, first = .ok value → ¬ Throws (next value)) : ¬ Throws (first >>= next) := by
  cases first with
  | error failure =>
      rintro ⟨other, hother, hthrown⟩
      cases hother
      exact hfirst ⟨failure, rfl, hthrown⟩
  | ok value => exact hnext value rfl

/-- An `int` operation does not throw, and what follows it is reached without overflow. -/
theorem throws_intResult_bind_iff {value : ℤ} {next : ℤ → Outcome α} :
    Throws (intResult value >>= next) ↔
      (-2 ^ 31 ≤ value ∧ value < 2 ^ 31) ∧ Throws (next value) := by
  rw [intResult]
  split
  · next hrange =>
      rw [ok_bind]
      exact (and_iff_right hrange).symm
  · next hrange =>
      constructor
      · rintro ⟨failure, hfailure, hthrown⟩
        cases hfailure
        exact hthrown.elim
      · intro hboth
        exact absurd hboth.1 hrange

theorem not_throws_foldlM {body : σ → α → Outcome σ}
    (hbody : ∀ state turn, ¬ Throws (body state turn))
    (turns : List α) (start : σ) : ¬ Throws (turns.foldlM body start) := by
  induction turns generalizing start with
  | nil => exact not_throws_ok start
  | cons turn turns ih =>
      rw [List.foldlM_cons]
      exact not_throws_bind (hbody start turn) fun state _ => ih state

end Dht
