/-
# Calls on a store

A call may run on without end, it may return or fail, and it may have changed the store in
either case. `Ends` relates a store to the result and the store behind it, and has one rule
for each way to build a call. A call that only reads can be taken off the front of another
when the question is what a failure has done to the store.
-/

import Mathlib.Tactic.Common

universe u

/-- A call on a store of type `σ` that may fail with an `ε`. -/
abbrev Call (σ ε α : Type u) := ExceptT ε (StateT σ Option) α

namespace Call

variable {σ ε α β τ : Type u}

/-- The call ends with the given result and store. -/
def Ends (call : Call σ ε α) (before : σ) (result : Except ε α) (after : σ) : Prop :=
  call.run before = some (result, after)

/-- A computation that does not look at the store. -/
def ofResult (result : Option (Except ε α)) : Call σ ε α :=
  ExceptT.mk fun store => result.map fun value => (value, store)

/-- A look at the store. -/
def query (f : σ → Except ε α) : Call σ ε α := ExceptT.mk fun store => some (f store, store)

/-- A change of the store. -/
def modify (f : σ → σ) : Call σ ε PUnit := ExceptT.mk fun store => some (.ok ⟨⟩, f store)

/-! ## How calls end -/

section Rules

variable {before after : σ}

@[simp]
theorem ends_pure_iff {value : α} {result : Except ε α} :
    (pure value : Call σ ε α).Ends before result after ↔ result = .ok value ∧ after = before := by
  change some (Except.ok value, before) = some (result, after) ↔ _
  rw [Option.some_inj, Prod.mk.injEq, eq_comm, @eq_comm _ before]

@[simp]
theorem ends_throw_iff {error : ε} {result : Except ε α} :
    (throw error : Call σ ε α).Ends before result after ↔
      result = .error error ∧ after = before := by
  change some (Except.error error, before) = some (result, after) ↔ _
  rw [Option.some_inj, Prod.mk.injEq, eq_comm, @eq_comm _ before]

@[simp]
theorem ends_ofResult_iff {value : Option (Except ε α)} {result : Except ε α} :
    (ofResult value : Call σ ε α).Ends before result after ↔
      value = some result ∧ after = before := by
  cases value with
  | none =>
      change none = some (result, after) ↔ _
      simp
  | some value =>
      change some (value, before) = some (result, after) ↔ _
      rw [Option.some_inj, Prod.mk.injEq, Option.some_inj, @eq_comm _ before]

@[simp]
theorem ends_query_iff {f : σ → Except ε α} {result : Except ε α} :
    (query f).Ends before result after ↔ f before = result ∧ after = before := by
  change some (f before, before) = some (result, after) ↔ _
  rw [Option.some_inj, Prod.mk.injEq, @eq_comm _ before]

@[simp]
theorem ends_modify_iff {f : σ → σ} {result : Except ε PUnit} :
    (modify f).Ends before result after ↔ result = .ok ⟨⟩ ∧ after = f before := by
  change some (Except.ok ⟨⟩, f before) = some (result, after) ↔ _
  rw [Option.some_inj, Prod.mk.injEq, eq_comm, @eq_comm _ (f before)]

/-- One call after the other. -/
theorem ends_bind_iff {first : Call σ ε α} {next : α → Call σ ε β} {result : Except ε β} :
    (first >>= next).Ends before result after ↔
      (∃ error, first.Ends before (.error error) after ∧ result = .error error) ∨
        ∃ value between, first.Ends before (.ok value) between ∧
          (next value).Ends between result after := by
  change (first.run before >>= fun ended => ExceptT.bindCont next ended.1 ended.2) =
    some (result, after) ↔ _
  simp only [Ends]
  cases hfirst : first.run before with
  | none => simp
  | some ended =>
      obtain ⟨value, between⟩ := ended
      cases value with
      | error error =>
          change some (Except.error error, between) = some (result, after) ↔ _
          simp [eq_comm, and_comm]
      | ok value =>
          change (next value).run between = some (result, after) ↔ _
          simp

end Rules

/-! ## Calls that only read -/

/-- The store is never changed. -/
def ReadOnly (call : Call σ ε α) : Prop :=
  ∀ before result after, call.Ends before result after → after = before

theorem readOnly_throw (error : ε) : ReadOnly (throw error : Call σ ε α) := by
  intro before result after hends
  exact (ends_throw_iff.mp hends).2

theorem readOnly_ofResult (result : Option (Except ε α)) :
    ReadOnly (ofResult result : Call σ ε α) := by
  intro before result after hends
  exact (ends_ofResult_iff.mp hends).2

theorem readOnly_query (f : σ → Except ε α) : ReadOnly (query f) := by
  intro before result after hends
  exact (ends_query_iff.mp hends).2

theorem ReadOnly.bind {first : Call σ ε α} {next : α → Call σ ε β} (hfirst : first.ReadOnly)
    (hnext : ∀ value, (next value).ReadOnly) : (first >>= next).ReadOnly := by
  intro before result after hends
  rcases ends_bind_iff.mp hends with ⟨error, herror, -⟩ | ⟨value, between, hvalue, hrest⟩
  · exact hfirst before _ after herror
  · rw [hnext value between result after hrest, hfirst before _ between hvalue]

/-! ## What a failure leaves -/

/-- A failure that counts leaves what is observed of the store as it was. -/
def KeepsOnFailure (observe : σ → τ) (Counts : ε → Prop) (call : Call σ ε α) (before : σ) : Prop :=
  ∀ error after, call.Ends before (.error error) after → Counts error →
    observe after = observe before

section Keeps

variable {observe : σ → τ} {Counts : ε → Prop} {before : σ}

theorem ReadOnly.keepsOnFailure {call : Call σ ε α} (hread : call.ReadOnly) :
    KeepsOnFailure observe Counts call before := by
  intro error after hends _
  rw [hread before _ after hends]

/-- Behind a call that only reads, it is the rest that decides. -/
theorem keepsOnFailure_bind_iff {first : Call σ ε α} {next : α → Call σ ε β}
    (hread : first.ReadOnly) :
    KeepsOnFailure observe Counts (first >>= next) before ↔
      ∀ value, first.Ends before (.ok value) before →
        KeepsOnFailure observe Counts (next value) before := by
  constructor
  · intro hkeeps value hvalue error after hends hcounts
    exact hkeeps error after (ends_bind_iff.mpr (.inr ⟨value, before, hvalue, hends⟩)) hcounts
  · intro hrest error after hends hcounts
    rcases ends_bind_iff.mp hends with ⟨failed, hfailed, -⟩ | ⟨value, between, hvalue, hnext⟩
    · rw [hread before _ after hfailed]
    · have hsame := hread before _ between hvalue
      subst hsame
      exact hrest value hvalue error after hnext hcounts

end Keeps

end Call
