/-
# Sessions with an object

An object answers one call after the other; each call gets a reply and may move the
object to another state. A session is a list of calls. What holds in every state of a
session is proved step by step, and a call that moves nothing can be put into a session
or taken out of it without a trace in the replies to the others.
-/

import Mathlib.Data.List.Induction

namespace Session

universe u v w

variable {State : Type u} {Call : Type v} {Reply : Type w} (answer : State → Call → Reply × State)

/-- The state behind a session. -/
def after (state : State) (calls : List Call) : State :=
  calls.foldl (fun state call => (answer state call).2) state

/-- The replies of a session, in order. -/
def replies : State → List Call → List Reply
  | _, [] => []
  | state, call :: calls => (answer state call).1 :: replies (answer state call).2 calls

@[simp]
theorem after_nil (state : State) : after answer state [] = state := rfl

@[simp]
theorem after_cons (state : State) (call : Call) (calls : List Call) :
    after answer state (call :: calls) = after answer (answer state call).2 calls := rfl

@[simp]
theorem length_replies (state : State) (calls : List Call) :
    (replies answer state calls).length = calls.length := by
  induction calls generalizing state with
  | nil => rfl
  | cons call calls ih => rw [replies, List.length_cons, List.length_cons, ih]

theorem after_append (state : State) (earlier later : List Call) :
    after answer state (earlier ++ later) = after answer (after answer state earlier) later :=
  List.foldl_append

theorem replies_append (state : State) (earlier later : List Call) :
    replies answer state (earlier ++ later) =
      replies answer state earlier ++ replies answer (after answer state earlier) later := by
  induction earlier generalizing state with
  | nil => rfl
  | cons call earlier ih => rw [List.cons_append, replies, ih, replies, after_cons, List.cons_append]

variable {answer}

/-- **Invariant rule.** A relation between the calls made, the replies given and the state
holds behind a session if the last call always carries it on. -/
theorem invariant (Inv : List Call → List Reply → State → Prop) {Legal : Call → Prop}
    {state : State} (start : Inv [] [] state)
    (step : ∀ calls replies state call, Inv calls replies state → Legal call →
      Inv (calls ++ [call]) (replies ++ [(answer state call).1]) (answer state call).2)
    {calls : List Call} (legal : ∀ call ∈ calls, Legal call) :
    Inv calls (replies answer state calls) (after answer state calls) := by
  induction calls using List.reverseRecOn with
  | nil => exact start
  | append_singleton calls call ih =>
      rw [replies_append, after_append]
      exact step _ _ _ _ (ih fun other hother => legal other (List.mem_append_left _ hother))
        (legal call (List.mem_append_right _ List.mem_cons_self))

/-- A call that moves nothing adds its own reply and changes nothing else. -/
theorem insert_idle {state : State} {earlier : List Call} {call : Call}
    (hidle : (answer (after answer state earlier) call).2 = after answer state earlier)
    (later : List Call) :
    replies answer state (earlier ++ call :: later) =
        replies answer state earlier ++ (answer (after answer state earlier) call).1 ::
          (replies answer state (earlier ++ later)).drop earlier.length ∧
      after answer state (earlier ++ call :: later) = after answer state (earlier ++ later) := by
  constructor
  · rw [replies_append, replies_append, replies, hidle,
      List.drop_left' (length_replies answer state earlier)]
  · rw [after_append, after_append, after_cons, hidle]

end Session
