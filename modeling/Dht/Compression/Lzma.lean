/-
# The streaming interface of liblzma

`lzma_code` is the wrapper through which every coder is driven. It checks that the
requested action is legal in the current sequence, calls the coder once, moves the
buffers by what that call consumed and emitted, and turns a second consecutive
call without progress into `LZMA_BUF_ERROR`. The wrapper is modelled as it stands
in `common.c`; the coder behind it is a parameter that can only consume a prefix
of its input and fill the space it was given.
-/

import Dht.Core.Outcome

namespace Dht

/-- `lzma_ret`, with the internal `LZMA_TIMED_OUT` a coder may hand the wrapper. -/
inductive LzmaRet
  | ok | streamEnd | noCheck | unsupportedCheck | getCheck | memError | memlimitError
  | formatError | optionsError | dataError | bufError | progError | timedOut
  deriving DecidableEq

/-- `lzma_action`. -/
inductive LzmaAction
  | run | syncFlush | fullFlush | fullBarrier | finish
  deriving DecidableEq

/-- The sequence the wrapper is in, `ISEQ_*`. -/
inductive LzmaSequence
  | run | syncFlush | fullFlush | finish | fullBarrier | ended | error
  deriving DecidableEq

/-- What one call of a coder does to the buffers. -/
structure CodeResult (State : Type) where
  ret : LzmaRet
  /-- Bytes consumed from the front of the input. -/
  inPos : ℕ
  /-- Bytes written to the output buffer. -/
  out : Bytes
  state : State

/-- `lzma_next_coder` with the actions its initialiser declared supported. -/
structure NextCoder where
  State : Type
  initial : State
  supported : LzmaAction → Bool
  code : State → Bytes → ℕ → LzmaAction → CodeResult State
  inPos_le : ∀ state input availOut action,
    (code state input availOut action).inPos ≤ input.length
  out_le : ∀ state input availOut action,
    (code state input availOut action).out.length ≤ availOut

/-- `lzma_stream` with its `internal` part. `nextIn` is the input from `next_in`
on, so `avail_in` is its length. -/
structure LzmaStream (coder : NextCoder) where
  nextIn : Bytes
  availOut : ℕ
  sequence : LzmaSequence
  allowBufError : Bool
  internalAvailIn : ℕ
  state : coder.State

namespace LzmaStream

variable {coder : NextCoder}

/-- A stream just initialised, with `data` as its input. `internal.avail_in` is
not read before the first call has set it. -/
def start (coder : NextCoder) (data : Bytes) : LzmaStream coder where
  nextIn := data
  availOut := 0
  sequence := .run
  allowBufError := false
  internalAvailIn := 0
  state := coder.initial

/-- The sequence an action is carried out in, or the code `lzma_code` returns
without calling the coder. -/
def enter (stream : LzmaStream coder) (action : LzmaAction) :
    Except LzmaRet LzmaSequence :=
  let same (expected : LzmaAction) : Except LzmaRet LzmaSequence :=
    -- the same action must be used, and the amount of input must not change
    if action ≠ expected ∨ stream.internalAvailIn ≠ stream.nextIn.length then
      .error .progError
    else .ok stream.sequence
  match stream.sequence with
  | .run =>
      match action with
      | .run => .ok .run
      | .syncFlush => .ok .syncFlush
      | .fullFlush => .ok .fullFlush
      | .finish => .ok .finish
      | .fullBarrier => .ok .fullBarrier
  | .syncFlush => same .syncFlush
  | .fullFlush => same .fullFlush
  | .finish => same .finish
  | .fullBarrier => same .fullBarrier
  | .ended => .error .streamEnd
  | .error => .error .progError

/-- The buffers and the coder after a call that did `result`. -/
def advance (stream : LzmaStream coder) (sequence : LzmaSequence)
    (result : CodeResult coder.State) : LzmaStream coder where
  nextIn := stream.nextIn.drop result.inPos
  availOut := stream.availOut - result.out.length
  sequence := sequence
  allowBufError := stream.allowBufError
  internalAvailIn := (stream.nextIn.drop result.inPos).length
  state := result.state

/-- What the wrapper makes of the coder's return code. -/
def conclude (stream : LzmaStream coder) (result : CodeResult coder.State) :
    LzmaRet × LzmaStream coder :=
  match result.ret with
  | .ok =>
      if result.out.length = 0 ∧ result.inPos = 0 then
        if stream.allowBufError then (.bufError, stream)
        else (.ok, { stream with allowBufError := true })
      else (.ok, { stream with allowBufError := false })
  | .timedOut => (.ok, { stream with allowBufError := false })
  | .streamEnd =>
      match stream.sequence with
      | .syncFlush | .fullFlush | .fullBarrier =>
          (.streamEnd, { stream with sequence := .run, allowBufError := false })
      | _ => (.streamEnd, { stream with sequence := .ended, allowBufError := false })
  | .noCheck => (.noCheck, { stream with allowBufError := false })
  | .unsupportedCheck => (.unsupportedCheck, { stream with allowBufError := false })
  | .getCheck => (.getCheck, { stream with allowBufError := false })
  | .memlimitError => (.memlimitError, { stream with allowBufError := false })
  | ret => (ret, { stream with sequence := .error })

/-- `lzma_code`: the return code, the bytes written at `next_out`, and the
stream afterwards. -/
def lzmaCode (stream : LzmaStream coder) (action : LzmaAction) :
    LzmaRet × Bytes × LzmaStream coder :=
  if coder.supported action then
    match stream.enter action with
    | .error ret => (ret, [], stream)
    | .ok sequence =>
        let result := coder.code stream.state stream.nextIn stream.availOut action
        let (ret, after) := (stream.advance sequence result).conclude result
        (ret, result.out, after)
  else (.progError, [], stream)

/-! ## One call

A call is refused without being made, or it reaches the coder. Either way it only
shortens the two buffers. -/

section Call

variable {stream : LzmaStream coder}

/-- What becomes of a call that reaches the coder. -/
def reached (stream : LzmaStream coder) (sequence : LzmaSequence) (action : LzmaAction) :
    LzmaRet × Bytes × LzmaStream coder :=
  let result := coder.code stream.state stream.nextIn stream.availOut action
  let concluded := (stream.advance sequence result).conclude result
  (concluded.1, result.out, concluded.2)

/-- A call that the wrapper lets through. -/
theorem lzmaCode_eq_reached {action : LzmaAction} {sequence : LzmaSequence}
    (hsupported : coder.supported action) (henter : stream.enter action = .ok sequence) :
    stream.lzmaCode action = stream.reached sequence action := by
  rw [lzmaCode, if_pos hsupported, henter]
  rfl

/-- In the run sequence `LZMA_RUN` is let through. -/
theorem enter_run (hrun : stream.sequence = .run) : stream.enter .run = .ok .run := by
  rw [enter, hrun]

/-- A refusal is never `LZMA_OK`. -/
theorem enter_error_ne_ok {action : LzmaAction} {ret : LzmaRet}
    (henter : stream.enter action = .error ret) : ret ≠ .ok := by
  rintro rfl
  unfold enter at henter
  cases hsequence : stream.sequence <;> rw [hsequence] at henter <;> dsimp only at henter
  case run => cases action <;> cases henter
  case ended => cases henter
  case error => cases henter
  all_goals
    split at henter <;> cases henter

theorem lzmaCode_cases (stream : LzmaStream coder) (action : LzmaAction) :
    (∃ ret, ret ≠ .ok ∧ stream.lzmaCode action = (ret, [], stream)) ∨
      ∃ sequence, stream.enter action = .ok sequence ∧
        stream.lzmaCode action = stream.reached sequence action := by
  by_cases hsupported : coder.supported action
  · cases henter : stream.enter action with
    | error ret =>
        refine .inl ⟨ret, enter_error_ne_ok henter, ?_⟩
        rw [lzmaCode, if_pos hsupported, henter]
    | ok sequence => exact .inr ⟨sequence, rfl, lzmaCode_eq_reached hsupported henter⟩
  · refine .inl ⟨.progError, LzmaRet.noConfusion, ?_⟩
    rw [lzmaCode, if_neg hsupported]

/-- The return code decides about the sequence and the next call without progress, and
about nothing else. -/
theorem conclude_eq (stream : LzmaStream coder) (result : CodeResult coder.State) :
    ∃ sequence allowed, (stream.conclude result).2 =
      { stream with sequence := sequence, allowBufError := allowed } := by
  unfold conclude
  split
  · split
    · split <;> exact ⟨_, _, rfl⟩
    · exact ⟨_, _, rfl⟩
  · exact ⟨_, _, rfl⟩
  · split <;> exact ⟨_, _, rfl⟩
  all_goals exact ⟨_, _, rfl⟩

/-- What a call does to the buffers: it fills as much of the output space as it emits
bytes, and leaves no more input than there was. -/
theorem lzmaCode_buffers (stream : LzmaStream coder) (action : LzmaAction) :
    (stream.lzmaCode action).2.1.length ≤ stream.availOut ∧
      (stream.lzmaCode action).2.2.availOut =
        stream.availOut - (stream.lzmaCode action).2.1.length ∧
      (stream.lzmaCode action).2.2.nextIn.length ≤ stream.nextIn.length := by
  rcases lzmaCode_cases stream action with ⟨ret, -, hcode⟩ | ⟨sequence, -, hcode⟩
  · rw [hcode]
    exact ⟨Nat.zero_le _, rfl, le_rfl⟩
  · rw [hcode, reached]
    dsimp only
    obtain ⟨sequence, allowed, hafter⟩ := conclude_eq
      (stream.advance sequence (coder.code stream.state stream.nextIn stream.availOut action))
      (coder.code stream.state stream.nextIn stream.availOut action)
    rw [hafter]
    refine ⟨coder.out_le _ _ _ _, rfl, ?_⟩
    simp only [advance, List.length_drop]
    omega

/-- Progress is answered with what the coder answers. -/
theorem conclude_of_progress {result : CodeResult coder.State} (hret : result.ret = .ok)
    (hprogress : 0 < result.out.length + result.inPos) :
    stream.conclude result = (.ok, { stream with allowBufError := false }) := by
  rw [conclude, hret]
  dsimp only
  rw [if_neg (by omega)]

/-- `LZMA_OK` is the answer to `LZMA_OK` or to a coder that ran out of time. -/
theorem ret_of_conclude_ok {result : CodeResult coder.State}
    (hok : (stream.conclude result).1 = .ok) : result.ret = .ok ∨ result.ret = .timedOut := by
  cases hret : result.ret with
  | ok => exact .inl rfl
  | timedOut => exact .inr rfl
  | streamEnd =>
      rw [conclude, hret] at hok
      cases hsequence : stream.sequence <;> simp [hsequence] at hok
  | _ => simp [conclude, hret] at hok

end Call

/-! ## Runs of the wrapper

A driver that only ever asks for `LZMA_RUN` stays in the run sequence, and the
wrapper then never calls the end on its own account. -/

section Run

variable {stream : LzmaStream coder}

/-- In the run sequence a supported `LZMA_RUN` reaches the coder. -/
theorem lzmaCode_run (hrun : stream.sequence = .run)
    (hsupported : coder.supported .run) :
    stream.lzmaCode .run =
      let result := coder.code stream.state stream.nextIn stream.availOut .run
      let concluded := (stream.advance .run result).conclude result
      (concluded.1, result.out, concluded.2) := by
  exact lzmaCode_eq_reached hsupported (enter_run hrun)

/-- A call that is answered `LZMA_OK` leaves the sequence as it was. -/
theorem conclude_sequence {result : CodeResult coder.State}
    (hok : (stream.conclude result).1 = .ok) :
    (stream.conclude result).2.sequence = stream.sequence := by
  rcases ret_of_conclude_ok hok with hret | hret
  · rw [conclude, hret]
    dsimp only
    split
    · split <;> rfl
    · rfl
  · rw [conclude, hret]

/-- The end is reported exactly when the coder reports it. -/
theorem conclude_streamEnd_iff {result : CodeResult coder.State} :
    (stream.conclude result).1 = .streamEnd ↔ result.ret = .streamEnd := by
  cases hret : result.ret with
  | ok =>
      rw [conclude, hret]
      dsimp only
      split
      · split <;> simp
      · simp
  | streamEnd =>
      rw [conclude, hret]
      cases stream.sequence <;> simp
  | _ => simp [conclude, hret]

/-- A call answered `LZMA_OK` made progress, or it is the first of its kind and
the next one without progress will be an error. Nothing else of the stream
changes. -/
theorem conclude_ok {result : CodeResult coder.State}
    (hok : (stream.conclude result).1 = .ok) (huntimed : result.ret ≠ .timedOut) :
    ∃ allowed, (stream.conclude result).2 = { stream with allowBufError := allowed } ∧
      (0 < result.out.length + result.inPos ∨
        result.out.length + result.inPos = 0 ∧
          stream.allowBufError = false ∧ allowed = true) := by
  have hret := (ret_of_conclude_ok hok).resolve_right huntimed
  by_cases hprogress : 0 < result.out.length + result.inPos
  · rw [conclude_of_progress hret hprogress]
    exact ⟨false, rfl, .inl hprogress⟩
  · rw [conclude, hret] at hok ⊢
    dsimp only at hok ⊢
    have hnone : result.out.length = 0 ∧ result.inPos = 0 := by omega
    rw [if_pos hnone] at hok ⊢
    cases hallowed : stream.allowBufError with
    | true => simp [hallowed] at hok
    | false => exact ⟨true, rfl, .inr ⟨by omega, rfl, rfl⟩⟩

end Run

end LzmaStream

/-! ## What liblzma documents about its coders -/

namespace NextCoder

/-- With `LZMA_CONCATENATED` a decoder cannot know that no further stream follows
until it is told so: it reports the end only to `LZMA_FINISH`. -/
def EndsOnlyOnFinish (decoder : NextCoder) : Prop :=
  ∀ state input availOut,
    (decoder.code state input availOut .run).ret ≠ .streamEnd

/-- The output still to come from a state and an input is finite, each call
spends what it emits of it, and the coder runs without a time limit. -/
structure FiniteOutput (coder : NextCoder) (budget : coder.State → Bytes → ℕ) : Prop where
  spends : ∀ state input availOut action,
    let result := coder.code state input availOut action
    budget result.state (input.drop result.inPos) + result.out.length ≤ budget state input
  untimed : ∀ state input availOut action,
    (coder.code state input availOut action).ret ≠ .timedOut

end NextCoder

namespace LzmaStream

variable {coder : NextCoder}

/-- What a run of `LZMA_RUN` calls can still spend: bytes to consume, bytes to
emit, and one call without either. -/
def runBudget (budget : coder.State → Bytes → ℕ) (stream : LzmaStream coder) : ℕ :=
  2 * (stream.nextIn.length + budget stream.state stream.nextIn) +
    if stream.allowBufError then 0 else 1

/-- Every `LZMA_RUN` call answered `LZMA_OK` spends some of that. -/
theorem runBudget_lt {budget : coder.State → Bytes → ℕ}
    (hfinite : coder.FiniteOutput budget) (stream : LzmaStream coder)
    (hrun : stream.sequence = .run) (hsupported : coder.supported .run)
    (hok : (stream.lzmaCode .run).1 = .ok) :
    runBudget budget (stream.lzmaCode .run).2.2 < runBudget budget stream := by
  rw [lzmaCode_run hrun hsupported] at hok ⊢
  have hspends := hfinite.spends stream.state stream.nextIn stream.availOut .run
  have huntimed := hfinite.untimed stream.state stream.nextIn stream.availOut .run
  have hconsumed := coder.inPos_le stream.state stream.nextIn stream.availOut .run
  dsimp only at hok hspends ⊢
  obtain ⟨allowed, hafter, hprogress⟩ := conclude_ok hok huntimed
  rw [hafter]
  simp only [runBudget, advance, List.length_drop]
  rcases hprogress with hprogress | ⟨hnone, hfirst, rfl⟩
  · split <;> split <;> omega
  · have hbefore : stream.allowBufError = false := hfirst
    rw [hbefore, if_pos rfl, if_neg Bool.false_ne_true]
    omega

end LzmaStream

end Dht
