/-
# Dialogues

A decoder that may run out of input in the middle of a symbol has to remember how far
it was. What it remembers is a tree: the question it asks next and, for each answer,
how it goes on. An encoder that codes the same symbol writes down the questions with
their answers; following them through the tree gives the symbol back.
-/

import Mathlib.Data.List.Basic

/-- A question with two answers and what follows each, or the end. -/
inductive Dialogue (Query Result : Type)
  | done (result : Result)
  | ask (query : Query) (next : Bool → Dialogue Query Result)

namespace Dialogue

variable {Query Result Next : Type}

/-- Go on with what the first dialogue ends in. -/
def bind : Dialogue Query Result → (Result → Dialogue Query Next) → Dialogue Query Next
  | done result, rest => rest result
  | ask query next, rest => ask query fun answer => (next answer).bind rest

/-- The dialogue ends in `result` if the questions are answered as in the list, and the
list then has `rest` left. -/
inductive Follows : Dialogue Query Result → List (Query × Bool) → Result →
    List (Query × Bool) → Prop
  | done (result : Result) (rest : List (Query × Bool)) :
      Follows (done result) rest result rest
  | ask {query : Query} {next : Bool → Dialogue Query Result} {answer : Bool}
      {answers rest : List (Query × Bool)} {result : Result}
      (htail : Follows (next answer) answers result rest) :
      Follows (ask query next) ((query, answer) :: answers) result rest

theorem Follows.bind {first : Dialogue Query Result} {next : Result → Dialogue Query Next}
    {answers middle rest : List (Query × Bool)} {result : Result} {final : Next}
    (hfirst : first.Follows answers result middle)
    (hnext : (next result).Follows middle final rest) :
    (first.bind next).Follows answers final rest := by
  induction hfirst with
  | done result rest => exact hnext
  | ask _ ih => exact .ask (ih hnext)

/-- Whatever the answers, every question satisfies `Asked` and every end `Ended`. -/
def Meets (Asked : Query → Prop) (Ended : Result → Prop) : Dialogue Query Result → Prop
  | done result => Ended result
  | ask query next => Asked query ∧ ∀ answer, (next answer).Meets Asked Ended

variable {Asked : Query → Prop} {Ended : Result → Prop}

theorem Meets.bind {NextEnded : Next → Prop} {first : Dialogue Query Result}
    {next : Result → Dialogue Query Next} (hfirst : first.Meets Asked Ended)
    (hnext : ∀ result, Ended result → (next result).Meets Asked NextEnded) :
    (first.bind next).Meets Asked NextEnded := by
  induction first with
  | done result => exact hnext result hfirst
  | ask query rest ih => exact ⟨hfirst.1, fun answer => ih answer (hfirst.2 answer)⟩

theorem Meets.imp {Weaker : Result → Prop} {dialogue : Dialogue Query Result}
    (hmeets : dialogue.Meets Asked Ended) (himp : ∀ result, Ended result → Weaker result) :
    dialogue.Meets Asked Weaker := by
  induction dialogue with
  | done result => exact himp result hmeets
  | ask query next ih => exact ⟨hmeets.1, fun answer => ih answer (hmeets.2 answer)⟩

end Dialogue
