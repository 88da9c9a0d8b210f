/-
# Loops that may run forever

A `while` loop whose body ends by going round again or by leaving with a result
is a function `State → State ⊕ Result`. Nothing bounds the number of turns, so
the runner takes fuel; `Returns` forgets how much of it was needed. A loop that
never leaves returns nothing, and is told apart from one that leaves with an
error, which returns that error.

Three rules carry the proofs. The invariant rule constrains whatever the loop
leaves with; the variant rule says that it does leave; and a loop whose state
holds more than another's runs as that one does, as long as what it holds more
does not show. For a body that may fail, the rule of total correctness says all
of this at once.
-/

import Mathlib.Order.WellFounded

namespace Loop

universe u v

variable {State : Type u} {Result : Type v}

/-- Run at most `fuel` turns. Running out of fuel is not a result. -/
def runFor (turn : State → State ⊕ Result) : ℕ → State → Option Result
  | 0, _ => none
  | fuel + 1, state =>
      match turn state with
      | .inl next => runFor turn fuel next
      | .inr result => some result

/-- The loop leaves `state` with `result`, after however many turns. -/
def Returns (turn : State → State ⊕ Result) (state : State)
    (result : Result) : Prop :=
  ∃ fuel, runFor turn fuel state = some result

section

variable {turn : State → State ⊕ Result}

theorem runFor_succ_of_inl {fuel : ℕ} {state next : State}
    (hturn : turn state = .inl next) :
    runFor turn (fuel + 1) state = runFor turn fuel next := by
  rw [runFor, hturn]

theorem runFor_succ_of_inr {fuel : ℕ} {state : State} {result : Result}
    (hturn : turn state = .inr result) :
    runFor turn (fuel + 1) state = some result := by
  rw [runFor, hturn]

/-- A turn that leaves decides the result. -/
theorem returns_of_inr {state : State} {result : Result}
    (hturn : turn state = .inr result) : Returns turn state result :=
  ⟨1, runFor_succ_of_inr hturn⟩

/-- A turn that goes round again hands the question to the next state. -/
theorem returns_iff_of_inl {state next : State} {result : Result}
    (hturn : turn state = .inl next) :
    Returns turn state result ↔ Returns turn next result := by
  constructor
  · rintro ⟨fuel, hrun⟩
    cases fuel with
    | zero => cases hrun
    | succ fuel => exact ⟨fuel, (runFor_succ_of_inl hturn).symm.trans hrun⟩
  · rintro ⟨fuel, hrun⟩
    exact ⟨fuel + 1, (runFor_succ_of_inl hturn).trans hrun⟩

/-- More fuel never changes a result already reached. -/
theorem runFor_mono {fuel : ℕ} (extra : ℕ) {state : State} {result : Result}
    (hrun : runFor turn fuel state = some result) :
    runFor turn (fuel + extra) state = some result := by
  induction fuel generalizing state with
  | zero => cases hrun
  | succ fuel ih =>
      rw [Nat.add_right_comm]
      cases hturn : turn state with
      | inl next =>
          rw [runFor_succ_of_inl hturn] at hrun ⊢
          exact ih hrun
      | inr left =>
          rw [runFor_succ_of_inr hturn] at hrun ⊢
          exact hrun

/-- A loop leaves with at most one result. -/
theorem Returns.unique {state : State} {first second : Result}
    (hfirst : Returns turn state first) (hsecond : Returns turn state second) :
    first = second := by
  obtain ⟨firstFuel, hfirst⟩ := hfirst
  obtain ⟨secondFuel, hsecond⟩ := hsecond
  have hone := runFor_mono secondFuel hfirst
  have htwo := runFor_mono firstFuel hsecond
  rw [Nat.add_comm] at htwo
  exact Option.some.inj (hone.symm.trans htwo)

/-- **Invariant rule.** What every turn preserves holds at the turn that leaves,
so whatever follows from it there holds of the result. -/
theorem Returns.of_invariant (Inv : State → Prop) (Post : Result → Prop)
    (step : ∀ state next, Inv state → turn state = .inl next → Inv next)
    (leave : ∀ state result, Inv state → turn state = .inr result → Post result)
    {state : State} {result : Result} (start : Inv state)
    (returned : Returns turn state result) : Post result := by
  obtain ⟨fuel, hrun⟩ := returned
  induction fuel generalizing state with
  | zero => cases hrun
  | succ fuel ih =>
      cases hturn : turn state with
      | inl next =>
          rw [runFor_succ_of_inl hturn] at hrun
          exact ih (step state next start hturn) hrun
      | inr left =>
          rw [runFor_succ_of_inr hturn] at hrun
          cases hrun
          exact leave state result start hturn

/-- **Variant rule.** A loop whose turns lower a natural number under an
invariant leaves with something. -/
theorem exists_returns_of_variant {Inv : State → Prop} (variant : State → ℕ)
    (step : ∀ state next, Inv state → turn state = .inl next →
      Inv next ∧ variant next < variant state)
    {state : State} (start : Inv state) : ∃ result, Returns turn state result := by
  induction hvariant : variant state using Nat.strong_induction_on
      generalizing state with
  | _ bound ih =>
      cases hturn : turn state with
      | inr result => exact ⟨result, returns_of_inr hturn⟩
      | inl next =>
          obtain ⟨hinv, hlt⟩ := step state next start hturn
          obtain ⟨result, hreturns⟩ := ih (variant next) (hvariant ▸ hlt) hinv rfl
          exact ⟨result, (returns_iff_of_inl hturn).mpr hreturns⟩

/-- **Refinement rule.** Turns that agree up to forgetting part of the state under an
invariant leave with the same result after the same number of turns. -/
theorem runFor_forget {Full : Type u} {fullTurn : Full → Full ⊕ Result} {Inv : Full → Prop}
    (forget : Full → State)
    (agree : ∀ full, Inv full → turn (forget full) = (fullTurn full).map forget id)
    (step : ∀ full next, Inv full → fullTurn full = .inl next → Inv next)
    (fuel : ℕ) {full : Full} (start : Inv full) :
    runFor fullTurn fuel full = runFor turn fuel (forget full) := by
  induction fuel generalizing full with
  | zero => rfl
  | succ fuel ih =>
      have hagree := agree full start
      cases hturn : fullTurn full with
      | inl next =>
          rw [hturn, Sum.map_inl] at hagree
          rw [runFor_succ_of_inl hturn, runFor_succ_of_inl hagree,
            ih (step full next start hturn)]
      | inr result =>
          rw [hturn, Sum.map_inr] at hagree
          rw [runFor_succ_of_inr hturn, runFor_succ_of_inr hagree]
          rfl

end

section Fallible

variable {Failure : Type v} {body : State → Except Failure (State ⊕ Result)}

/-- A turn that may fail leaves with its failure. -/
def fallible (body : State → Except Failure (State ⊕ Result)) (state : State) :
    State ⊕ Except Failure Result :=
  match body state with
  | .ok (.inl next) => .inl next
  | .ok (.inr result) => .inr (.ok result)
  | .error failure => .inr (.error failure)

theorem fallible_of_inl {state next : State} (hbody : body state = .ok (.inl next)) :
    fallible body state = .inl next := by
  rw [fallible, hbody]

theorem fallible_of_inr {state : State} {result : Result}
    (hbody : body state = .ok (.inr result)) : fallible body state = .inr (.ok result) := by
  rw [fallible, hbody]

/-- **Total correctness.** If under an invariant every turn succeeds, and either lowers a
natural number or leaves with what is wanted, the loop leaves with it; the number it
starts from bounds the turns. -/
theorem exists_runFor_fallible (Inv : State → Prop) {Post : Result → Prop} (variant : State → ℕ)
    (step : ∀ state, Inv state →
      (∃ next, body state = .ok (.inl next) ∧ Inv next ∧ variant next < variant state) ∨
        ∃ result, body state = .ok (.inr result) ∧ Post result)
    {state : State} (start : Inv state) {fuel : ℕ} (hfuel : variant state < fuel) :
    ∃ result, runFor (fallible body) fuel state = some (.ok result) ∧ Post result := by
  induction fuel generalizing state with
  | zero => exact absurd hfuel (Nat.not_lt_zero _)
  | succ fuel ih =>
      obtain ⟨next, hbody, hinv, hlt⟩ | ⟨result, hbody, hpost⟩ := step state start
      · rw [runFor_succ_of_inl (fallible_of_inl hbody)]
        exact ih hinv (by omega)
      · exact ⟨result, runFor_succ_of_inr (fallible_of_inr hbody), hpost⟩

end Fallible

end Loop
