/-
# Writers that stop when their buffer is full

A routine is given room for some symbols. Either it writes all it has to write and is
finished, or it fills the room, says so, and is called again later with another buffer.
What such a routine has to write is a text that does not depend on the buffers: a call
writes the front of it and leaves a state that has to write the rest.

`Fills` says this of one call and composes along the routine's own steps. `calls` is a
run of the routine over a list of buffers; from the one-call property it follows that
the buffers together receive the text, however it is cut.
-/

import Mathlib.Data.List.TakeDrop

namespace Resumable

/-- What one call leaves behind: whether it stopped because the buffer was full, what it
wrote, and its state. -/
structure Written (Symbol State : Type) where
  full : Bool
  out : List Symbol
  state : State

variable {Symbol State Next : Type}

/-- Do one step of a routine and, unless it filled the buffer, the rest of it. -/
def Written.andThen (written : Written Symbol State) (room : ℕ) (pause : State → Next)
    (rest : ℕ → State → Written Symbol Next) : Written Symbol Next :=
  if written.full then ⟨true, written.out, pause written.state⟩
  else
    let later := rest (room - written.out.length) written.state
    ⟨later.full, written.out ++ later.out, later.state⟩

/-- One call with `room` writes `text` as far as it goes. A finished call leaves what
`Done` describes, a stopped one a state that `Paused` relates to the rest of the text. -/
inductive Fills (room : ℕ) (text : List Symbol) (Done : State → Prop)
    (Paused : List Symbol → State → Prop) : Written Symbol State → Prop
  | finished {state : State} (hroom : text.length ≤ room) (hdone : Done state) :
      Fills room text Done Paused ⟨false, text, state⟩
  | stopped {state : State} (hroom : room < text.length)
      (hpaused : Paused (text.drop room) state) :
      Fills room text Done Paused ⟨true, text.take room, state⟩

variable {room : ℕ} {first second : List Symbol} {Done : State → Prop}
  {Paused : List Symbol → State → Prop} {NextDone : Next → Prop}
  {NextPaused : List Symbol → Next → Prop}

/-- With enough room the whole text is written. -/
theorem Fills.out_eq {text : List Symbol} {written : Written Symbol State}
    (hfills : Fills room text Done Paused written) (henough : text.length ≤ room) :
    written.out = text := by
  cases hfills with
  | finished _ _ => rfl
  | stopped hroom _ => exact absurd hroom (Nat.not_lt.mpr henough)

/-- Steps that fill the buffer one after the other. -/
theorem Fills.andThen {written : Written Symbol State}
    (hfirst : Fills room first Done Paused written) (pause : State → Next)
    (rest : ℕ → State → Written Symbol Next)
    (hpause : ∀ left state, Paused left state → NextPaused (left ++ second) (pause state))
    (hrest : ∀ state, Done state → first.length ≤ room →
      Fills (room - first.length) second NextDone NextPaused
        (rest (room - first.length) state)) :
    Fills room (first ++ second) NextDone NextPaused (written.andThen room pause rest) := by
  cases hfirst with
  | stopped hroom hpaused =>
      have htake : first.take room = (first ++ second).take room :=
        (List.take_append_of_le_length (Nat.le_of_lt hroom)).symm
      rw [Written.andThen, if_pos rfl, htake]
      refine .stopped ?_ ?_
      · rw [List.length_append]
        omega
      · rw [List.drop_append_of_le_length (Nat.le_of_lt hroom)]
        exact hpause _ _ hpaused
  | @finished state hroom hdone =>
      rw [Written.andThen, if_neg Bool.false_ne_true]
      have hsecond := hrest state hdone hroom
      dsimp only
      generalize rest (room - first.length) state = later at hsecond ⊢
      cases hsecond with
      | finished hleft hnext =>
          refine .finished ?_ hnext
          rw [List.length_append]
          omega
      | stopped hleft hnext =>
          have htake : first ++ second.take (room - first.length) =
              (first ++ second).take room := by
            rw [List.take_append, List.take_of_length_le hroom]
          rw [htake]
          refine .stopped ?_ ?_
          · rw [List.length_append]
            omega
          · rwa [List.drop_append, List.drop_of_length_le hroom, List.nil_append]

/-- A call that leaves more than was asked for. -/
theorem Fills.imp {text : List Symbol} {Less : State → Prop}
    {LessPaused : List Symbol → State → Prop} {written : Written Symbol State}
    (hfills : Fills room text Done Paused written) (hdone : ∀ state, Done state → Less state)
    (hpaused : ∀ left state, Paused left state → LessPaused left state) :
    Fills room text Less LessPaused written := by
  cases hfills with
  | finished hroom hstate => exact .finished hroom (hdone _ hstate)
  | stopped hroom hstate => exact .stopped hroom (hpaused _ _ hstate)

/-- Call the routine with one buffer after the other until it is finished. -/
def calls (routine : ℕ → State → Written Symbol State) :
    List ℕ → State → Written Symbol State
  | [], state => ⟨true, [], state⟩
  | room :: rooms, state =>
      let written := routine room state
      if written.full then
        let later := calls routine rooms written.state
        ⟨later.full, written.out ++ later.out, later.state⟩
      else written

/-- The room of all buffers together. -/
def total : List ℕ → ℕ
  | [] => 0
  | room :: rooms => room + total rooms

/-- **Independence of the buffers.** If every call writes the front of the text its state
owes, a run over any buffers writes that text up to the room they have, and is finished
exactly if it has all been written. -/
theorem fills_calls {routine : ℕ → State → Written Symbol State}
    {Owes : List Symbol → State → Prop}
    (hroutine : ∀ room text state, Owes text state →
      Fills room text Done Owes (routine room state))
    {text : List Symbol} {state : State} (howes : Owes text state) (room : ℕ)
    (rooms : List ℕ) :
    Fills (total (room :: rooms)) text Done Owes (calls routine (room :: rooms) state) := by
  induction rooms generalizing room text state with
  | nil =>
      have hcall := hroutine room text state howes
      rw [calls]
      generalize routine room state = written at hcall ⊢
      cases hcall with
      | finished hroom hdone => exact .finished hroom hdone
      | stopped hroom hpaused =>
          rw [if_pos rfl]
          dsimp only [calls]
          rw [List.append_nil]
          exact .stopped hroom hpaused
  | cons next rooms ih =>
      have hcall := hroutine room text state howes
      rw [calls]
      generalize routine room state = written at hcall ⊢
      cases hcall with
      | finished hroom hdone =>
          exact .finished (Nat.le_add_right_of_le hroom) hdone
      | @stopped middle hroom hpaused =>
          rw [if_pos rfl]
          have hlater := ih hpaused next
          dsimp only
          generalize calls routine (next :: rooms) middle = later at hlater ⊢
          cases hlater with
          | finished hleft hdone =>
              rw [List.take_append_drop]
              rw [List.length_drop] at hleft
              exact .finished (Nat.sub_le_iff_le_add'.mp hleft) hdone
          | stopped hleft hpaused =>
              rw [← List.take_add]
              rw [List.length_drop] at hleft
              refine .stopped (Nat.add_lt_of_lt_sub' hleft) ?_
              rwa [List.drop_drop] at hpaused

end Resumable
