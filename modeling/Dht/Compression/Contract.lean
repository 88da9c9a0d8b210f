/-
# The coding loops as clients of liblzma

What liblzma promises of a coder it promises to clients that call it legally, so the
promises here are about the states a coder can be in after legal calls. Under them the
compressor's loop ends with everything its encoder emitted, whatever pieces it consumed
and emitted on the way, and the decompressor's loop ends, with everything its decoder
emitted if that reported the end and with an exception otherwise.

The loops copy out of a buffer that the coder writes to. `copyingTurn` keeps that buffer,
which `codingTurn` forgets.
-/

import Dht.Compression.XZ
import Mathlib.Data.List.Chain

namespace Dht

/-! ## Promises -/

namespace NextCoder

/-- The coder can be brought to `state` by legal calls, each of which it answered with
`LZMA_OK`: with `data` as its input it has left `input` of it and emitted `emitted`.
`finishing` says that `LZMA_FINISH` has been asked for, and it is then asked for to the
end. -/
inductive Driven (coder : NextCoder) (data : Bytes) :
    Bool → coder.State → Bytes → Bytes → Prop
  | start : Driven coder data false coder.initial data []
  | run {state : coder.State} {input emitted : Bytes} (availOut : ℕ)
      (before : Driven coder data false state input emitted)
      (ret_eq : (coder.code state input availOut .run).ret = .ok) :
      Driven coder data false (coder.code state input availOut .run).state
        (input.drop (coder.code state input availOut .run).inPos)
        (emitted ++ (coder.code state input availOut .run).out)
  | finish {finishing : Bool} {state : coder.State} {input emitted : Bytes} (availOut : ℕ)
      (before : Driven coder data finishing state input emitted)
      (ret_eq : (coder.code state input availOut .finish).ret = .ok) :
      Driven coder data true (coder.code state input availOut .finish).state
        (input.drop (coder.code state input availOut .finish).inPos)
        (emitted ++ (coder.code state input availOut .finish).out)

/-- What liblzma promises of an encoder for `data`. -/
structure EncoderContract (encoder : NextCoder) (data : Bytes) : Prop where
  supported : encoder.supported .run = true ∧ encoder.supported .finish = true
  /-- With input and output space left `LZMA_RUN` makes progress and is not the end. -/
  run : ∀ {state input emitted availOut}, encoder.Driven data false state input emitted →
    input ≠ [] → 0 < availOut →
    let result := encoder.code state input availOut .run
    result.ret = .ok ∧ 0 < result.out.length + result.inPos
  /-- With output space left `LZMA_FINISH` emits a byte or is the end, and the end comes
  only when all input is consumed. -/
  finish : ∀ {finishing state input emitted availOut},
    encoder.Driven data finishing state input emitted → 0 < availOut →
    let result := encoder.code state input availOut .finish
    result.ret = .ok ∧ 0 < result.out.length ∨
      result.ret = .streamEnd ∧ result.inPos = input.length
  /-- The output is finite. -/
  bounded : ∃ bound, ∀ {finishing state input emitted},
    encoder.Driven data finishing state input emitted → emitted.length ≤ bound

/-- What liblzma promises of a decoder for `data` that is only asked to run. Without a
time limit `lzma_code` itself turns the second call without progress into an error. -/
structure DecoderContract (decoder : NextCoder) (data : Bytes) : Prop where
  untimed : ∀ {state input emitted availOut}, decoder.Driven data false state input emitted →
    (decoder.code state input availOut .run).ret ≠ .timedOut
  bounded : ∃ bound, ∀ {state input emitted},
    decoder.Driven data false state input emitted → emitted.length ≤ bound

end NextCoder

/-! ## Coders that keep them

A coder that takes all its input at once, as the recorded ones do, keeps both contracts. -/

section Recorded

variable {transform : Bytes → Bytes} {eager : Bool} {data : Bytes}

/-- A coder that takes everything at once has emitted a part of what it owes. -/
def BufferedState (transform : Bytes → Bytes) (data : Bytes) (state : Bytes × ℕ)
    (input emitted : Bytes) : Prop :=
  state.1 ++ input = data ∧ state.2 = emitted.length ∧
    emitted.length ≤ (transform data).length

theorem BufferedState.code {state : Bytes × ℕ} {input emitted : Bytes}
    (hstate : BufferedState transform data state input emitted) (availOut : ℕ)
    (request : LzmaAction) :
    let result := (bufferedCoder transform eager).code state input availOut request
    BufferedState transform data result.state (input.drop result.inPos)
      (emitted ++ result.out) := by
  obtain ⟨htaken, hemitted, hle⟩ := hstate
  by_cases hdue : eager = true ∨ request = .finish
  · simp [bufferedCoder, BufferedState, htaken, hdue, hemitted]
    omega
  · simp [bufferedCoder, BufferedState, htaken, hdue, hemitted, hle]

theorem bufferedState_of_driven {finishing : Bool} {input emitted : Bytes}
    {state : (bufferedCoder transform eager).State}
    (hdriven : (bufferedCoder transform eager).Driven data finishing state input emitted) :
    BufferedState transform data state input emitted := by
  induction hdriven with
  | start => exact ⟨rfl, rfl, Nat.zero_le _⟩
  | run availOut _ _ ih => exact ih.code availOut .run
  | finish availOut _ _ ih => exact ih.code availOut .finish

theorem bufferedCoder_encoderContract :
    (bufferedCoder transform false).EncoderContract data where
  supported := ⟨rfl, rfl⟩
  run := by
    intro state input emitted availOut hdriven hinput havail
    have hlength := List.length_pos_iff.mpr hinput
    refine ⟨rfl, Nat.add_pos_right _ hlength⟩
  finish := by
    intro finishing state input emitted availOut hdriven havail
    by_cases hfits : ((transform (state.1 ++ input)).drop state.2).length ≤ availOut
    · refine .inr ⟨?_, rfl⟩
      simp [bufferedCoder] at hfits ⊢
      omega
    · refine .inl ?_
      simp [bufferedCoder] at hfits ⊢
      omega
  bounded := ⟨(transform data).length, fun hdriven => (bufferedState_of_driven hdriven).2.2⟩

theorem bufferedCoder_decoderContract :
    (bufferedCoder transform eager).DecoderContract data where
  untimed := by
    intro state input emitted availOut _
    simp [bufferedCoder]
  bounded := ⟨(transform data).length, fun hdriven => (bufferedState_of_driven hdriven).2.2⟩

end Recorded

/-! ## Calls -/

/-- A call of `lzma_code` as its client sees it. -/
structure LzmaCall where
  action : LzmaAction
  /-- `avail_in` before the call. -/
  availIn : ℕ
  ret : LzmaRet
  /-- The bytes emitted. -/
  out : Bytes
  /-- `avail_in` after the call. -/
  left : ℕ
  deriving DecidableEq

/-- Any action but `LZMA_RUN` has to be asked for again, with the input the last call
left. -/
def LegalCalls (calls : List LzmaCall) : Prop :=
  calls.IsChain fun call next =>
    call.action ≠ .run → next.action = call.action ∧ next.availIn = call.left

section Turns

variable {coder : NextCoder} (action : Bytes → LzmaAction) (failure : String)

/-- The call of a turn. -/
def CodingLoop.call (loop : CodingLoop coder) : LzmaCall where
  action := action loop.stream.nextIn
  availIn := loop.stream.nextIn.length
  ret := (loop.coded action).1
  out := (loop.coded action).2.1
  left := (loop.coded action).2.2.nextIn.length

/-- The calls of the loop from here on. -/
def codingCalls : ℕ → CodingLoop coder → List LzmaCall
  | 0, _ => []
  | fuel + 1, loop =>
      if loop.ret = .streamEnd then []
      else
        loop.call action ::
          match codingTurn action failure loop with
          | .inl next => codingCalls fuel next
          | .inr _ => []

end Turns

/-! ## What a run comes to

For any coder: what the loop leaves with is decided by whether a call was answered with
`LZMA_STREAM_END`. -/

section Runs

variable {coder : NextCoder} {action : Bytes → LzmaAction} {failure : String}
  {loop : CodingLoop coder}

section Calls

variable (fuel : ℕ)

theorem codingCalls_of_end (hend : loop.ret = .streamEnd) :
    codingCalls action failure (fuel + 1) loop = [] := by
  rw [codingCalls, if_pos hend]

theorem codingCalls_of_ok (hgoing : loop.ret ≠ .streamEnd)
    (hgood : (loop.coded action).1 = .ok ∨ (loop.coded action).1 = .streamEnd) :
    codingCalls action failure (fuel + 1) loop =
      loop.call action :: codingCalls action failure fuel (loop.next action) := by
  rw [codingCalls, if_neg hgoing, codingTurn_of_ne hgoing, if_pos hgood]

theorem codingCalls_of_failed (hgoing : loop.ret ≠ .streamEnd)
    (hbad : ¬ ((loop.coded action).1 = .ok ∨ (loop.coded action).1 = .streamEnd)) :
    codingCalls action failure (fuel + 1) loop = [loop.call action] := by
  rw [codingCalls, if_neg hgoing, codingTurn_of_ne hgoing, if_neg hbad]

end Calls

/-- The first call is that of the state the loop is in. -/
theorem head?_codingCalls {fuel : ℕ} {call : LzmaCall}
    (hcall : call ∈ (codingCalls action failure fuel loop).head?) : call = loop.call action := by
  cases fuel with
  | zero => cases hcall
  | succ fuel =>
      rw [codingCalls] at hcall
      by_cases hend : loop.ret = .streamEnd
      · rw [if_pos hend] at hcall
        cases hcall
      · rw [if_neg hend] at hcall
        exact (Option.some.inj hcall).symm

/-- The stream with the whole buffer as its output space. -/
def CodingLoop.offered (loop : CodingLoop coder) : LzmaStream coder :=
  { loop.stream with availOut := outBufferSize }

/-- What the coder itself does in a turn that asks it for `request`. -/
def CodingLoop.result (loop : CodingLoop coder) (request : LzmaAction) : CodeResult coder.State :=
  coder.code loop.stream.state loop.stream.nextIn outBufferSize request

section Reached

variable {sequence : LzmaSequence} {request : LzmaAction}
  (haction : action loop.stream.nextIn = request) (hsupported : coder.supported request)
  (henter : loop.stream.enter request = .ok sequence)

include haction hsupported henter

/-- The call of a turn reaches the coder. -/
theorem coded_eq :
    loop.coded action =
      let result := loop.result request
      let concluded := (loop.offered.advance sequence result).conclude result
      (concluded.1, result.out, concluded.2) := by
  rw [CodingLoop.coded, haction]
  exact LzmaStream.lzmaCode_eq_reached hsupported henter

/-- The loop after a call with progress that the coder answered `LZMA_OK`. -/
theorem next_of_progress (hret : (loop.result request).ret = .ok)
    (hprogress : 0 < (loop.result request).out.length + (loop.result request).inPos) :
    loop.next action =
      { ret := .ok
        stream :=
          { nextIn := loop.stream.nextIn.drop (loop.result request).inPos
            availOut := outBufferSize - (loop.result request).out.length
            sequence := sequence
            allowBufError := false
            internalAvailIn := (loop.stream.nextIn.drop (loop.result request).inPos).length
            state := (loop.result request).state }
        output := loop.output ++ (loop.result request).out } := by
  rw [CodingLoop.next, coded_eq haction hsupported henter]
  dsimp only
  rw [LzmaStream.conclude_of_progress hret hprogress]
  rfl

/-- The loop after a call that the coder ended. -/
theorem next_of_end (hret : (loop.result request).ret = .streamEnd) :
    (loop.next action).ret = .streamEnd := by
  rw [CodingLoop.next, coded_eq haction hsupported henter]
  exact LzmaStream.conclude_streamEnd_iff.mpr hret

end Reached

/-- A run that leaves has copied everything its calls emitted if one of them reported the
end, and otherwise has thrown. -/
theorem result_of_runFor {fuel : ℕ} {result : Outcome Bytes}
    (hrun : Loop.runFor (codingTurn action failure) fuel loop = some result) :
    let calls := codingCalls action failure fuel loop
    ((loop.ret = .streamEnd ∨ ∃ call ∈ calls, call.ret = .streamEnd) ∧
        (∀ call ∈ calls, call.ret = .ok ∨ call.ret = .streamEnd) ∧
        result = .ok (loop.output ++ calls.flatMap LzmaCall.out)) ∨
      ((loop.ret ≠ .streamEnd ∧ ∀ call ∈ calls, call.ret ≠ .streamEnd) ∧
        result = throwing (.dhtError (ascii failure))) := by
  induction fuel generalizing loop with
  | zero => cases hrun
  | succ fuel ih =>
      dsimp only at ih ⊢
      by_cases hend : loop.ret = .streamEnd
      · rw [Loop.runFor_succ_of_inr (codingTurn_of_end hend)] at hrun
        cases hrun
        rw [codingCalls_of_end fuel hend]
        exact .inl ⟨.inl hend, List.forall_mem_nil _, by rw [List.flatMap_nil, List.append_nil]⟩
      have hturn : codingTurn action failure loop = _ := codingTurn_of_ne hend
      by_cases hgood : (loop.coded action).1 = .ok ∨ (loop.coded action).1 = .streamEnd
      · rw [if_pos hgood] at hturn
        rw [Loop.runFor_succ_of_inl hturn] at hrun
        rw [codingCalls_of_ok fuel hend hgood]
        rcases ih hrun with ⟨hreported, hcalls, rfl⟩ | ⟨⟨hlast, hcalls⟩, rfl⟩
        · refine .inl ⟨.inr ?_, List.forall_mem_cons.mpr ⟨hgood, hcalls⟩, ?_⟩
          · rcases hreported with hlast | ⟨call, hmem, hcall⟩
            · exact ⟨_, List.mem_cons_self, hlast⟩
            · exact ⟨call, List.mem_cons_of_mem _ hmem, hcall⟩
          · rw [List.flatMap_cons, ← List.append_assoc]
            rfl
        · exact .inr ⟨⟨hend, List.forall_mem_cons.mpr ⟨hlast, hcalls⟩⟩, rfl⟩
      · rw [if_neg hgood] at hturn
        rw [Loop.runFor_succ_of_inr hturn] at hrun
        cases hrun
        rw [codingCalls_of_failed fuel hend hgood]
        refine .inr ⟨⟨hend, ?_⟩, rfl⟩
        rw [List.forall_mem_singleton]
        exact (not_or.mp hgood).2

end Runs

/-! ## The output buffer -/

/-- The variables of the coding loop and what stands in `outBuffer`. -/
structure CopyingLoop (coder : NextCoder) extends CodingLoop coder where
  outBuffer : Bytes

def CopyingLoop.start (coder : NextCoder) (data : Bytes) : CopyingLoop coder where
  toCodingLoop := .start coder data
  outBuffer := List.replicate outBufferSize 0

section Copying

variable {coder : NextCoder} (action : Bytes → LzmaAction) (failure : String)

/-- `codingTurn` with its buffer: the coder writes to the front of it, and the loop
copies as many bytes from there as `avail_out` has gone down. -/
def copyingTurn (loop : CopyingLoop coder) : CopyingLoop coder ⊕ Outcome Bytes :=
  if loop.ret = .streamEnd then .inr (.ok loop.output)
  else
    let stream := { loop.stream with availOut := loop.outBuffer.length }
    let (ret, out, stream) := stream.lzmaCode (action stream.nextIn)
    let outBuffer := writeAt loop.outBuffer 0 out
    if ret ≠ .ok ∧ ret ≠ .streamEnd then
      .inr (throwing (.dhtError (ascii failure)))
    else
      let bytesWritten := outBuffer.length - stream.availOut
      .inl { ret, stream, output := loop.output ++ outBuffer.take bytesWritten, outBuffer }

/-- A buffer that was written to at its front. -/
theorem writeAt_zero {buffer bytes : Bytes} (hfits : bytes.length ≤ buffer.length) :
    (writeAt buffer 0 bytes).length = buffer.length ∧
      (writeAt buffer 0 bytes).take bytes.length = bytes := by
  refine ⟨?_, ?_⟩
  · simp only [writeAt, List.take_zero, List.nil_append, List.length_append, List.length_drop]
    omega
  · rw [writeAt, List.take_zero, List.nil_append, List.take_left]

variable {action failure}

/-- What a turn does with its buffer does not show: it copies what was emitted. -/
theorem copyingTurn_agrees {loop : CopyingLoop coder}
    (hsize : loop.outBuffer.length = outBufferSize) :
    codingTurn action failure loop.toCodingLoop =
        (copyingTurn action failure loop).map CopyingLoop.toCodingLoop id ∧
      ∀ next, copyingTurn action failure loop = .inl next →
        next.outBuffer.length = outBufferSize := by
  by_cases hend : loop.ret = .streamEnd
  · have hcopying : copyingTurn action failure loop = .inr (.ok loop.output) := by
      rw [copyingTurn, if_pos hend]
    rw [hcopying, codingTurn_of_end hend]
    exact ⟨rfl, fun next hnext => absurd hnext Sum.inr_ne_inl⟩
  · obtain ⟨hfits, hspace, -⟩ := LzmaStream.lzmaCode_buffers
      { loop.stream with availOut := outBufferSize } (action loop.stream.nextIn)
    change (loop.coded action).2.1.length ≤ outBufferSize at hfits
    change (loop.coded action).2.2.availOut =
      outBufferSize - (loop.coded action).2.1.length at hspace
    obtain ⟨hlength, hfront⟩ := writeAt_zero (hfits.trans_eq hsize.symm)
    have hcopied : (writeAt loop.outBuffer 0 (loop.coded action).2.1).take
        ((writeAt loop.outBuffer 0 (loop.coded action).2.1).length -
          (loop.coded action).2.2.availOut) = (loop.coded action).2.1 := by
      rw [hlength, hsize, hspace, Nat.sub_sub_self hfits, hfront]
    have hcopying : copyingTurn action failure loop =
        if (loop.coded action).1 ≠ .ok ∧ (loop.coded action).1 ≠ .streamEnd then
          .inr (throwing (.dhtError (ascii failure)))
        else .inl ⟨⟨(loop.coded action).1, (loop.coded action).2.2,
          loop.output ++ (writeAt loop.outBuffer 0 (loop.coded action).2.1).take
            ((writeAt loop.outBuffer 0 (loop.coded action).2.1).length -
              (loop.coded action).2.2.availOut)⟩,
          writeAt loop.outBuffer 0 (loop.coded action).2.1⟩ := by
      rw [copyingTurn, if_neg hend, hsize]
      rfl
    rw [hcopying, hcopied, codingTurn_of_ne hend]
    by_cases hgood : (loop.coded action).1 = .ok ∨ (loop.coded action).1 = .streamEnd
    · rw [if_pos hgood, if_neg (not_and_or.mpr (hgood.imp not_not.mpr not_not.mpr))]
      refine ⟨rfl, fun next hnext => ?_⟩
      cases hnext
      exact hlength.trans hsize
    · rw [if_neg hgood, if_pos (not_or.mp hgood)]
      exact ⟨rfl, fun next hnext => absurd hnext Sum.inr_ne_inl⟩

/-- So a run with the buffer is a run without it. -/
theorem runFor_copyingTurn (data : Bytes) (fuel : ℕ) :
    Loop.runFor (copyingTurn action failure) fuel (CopyingLoop.start coder data) =
      Loop.runFor (codingTurn action failure) fuel (CodingLoop.start coder data) :=
  Loop.runFor_forget CopyingLoop.toCodingLoop
    (fun _ hsize => (copyingTurn_agrees hsize).1)
    (fun _ next hsize hturn => (copyingTurn_agrees hsize).2 next hturn)
    fuel (List.length_replicate : (CopyingLoop.start coder data).outBuffer.length = outBufferSize)

end Copying

/-- `(stream.avail_in == 0) ? LZMA_FINISH : LZMA_RUN`. -/
def compressAction (nextIn : Bytes) : LzmaAction :=
  if nextIn.length = 0 then .finish else .run

/-- `compressXZ` with its buffer. -/
def compressXZCopying (easyEncoder : Option NextCoder) (data : Bytes) (fuel : ℕ) :
    Option (Outcome Bytes) :=
  if data = [] then some (.ok [])
  else
    match easyEncoder with
    | none => some (throwing (.dhtError (ascii "Failed to initialize XZ encoder")))
    | some encoder =>
        Loop.runFor (copyingTurn compressAction "XZ compression failed") fuel
          (CopyingLoop.start encoder data)

/-- `decompressXZ` with its buffer. -/
def decompressXZCopying (streamDecoder : Option NextCoder) (data : Bytes) (fuel : ℕ) :
    Option (Outcome Bytes) :=
  if data = [] then some (.ok [])
  else
    match streamDecoder with
    | none => some (throwing (.dhtError (ascii "Failed to initialize XZ decoder")))
    | some decoder =>
        Loop.runFor (copyingTurn (fun _ => .run) "XZ decompression failed") fuel
          (CopyingLoop.start decoder data)

theorem compressXZCopying_eq (easyEncoder : Option NextCoder) (data : Bytes) (fuel : ℕ) :
    compressXZCopying easyEncoder data fuel = compressXZ easyEncoder data fuel := by
  cases easyEncoder with
  | none => rfl
  | some encoder =>
      rw [compressXZCopying, compressXZ]
      rw [runFor_copyingTurn]
      rfl

theorem decompressXZCopying_eq (streamDecoder : Option NextCoder) (data : Bytes) (fuel : ℕ) :
    decompressXZCopying streamDecoder data fuel = decompressXZ streamDecoder data fuel := by
  cases streamDecoder with
  | none => rfl
  | some decoder =>
      rw [decompressXZCopying, decompressXZ]
      rw [runFor_copyingTurn]
      rfl

/-! ## The compressor -/

section Compress

variable {encoder : NextCoder} {data : Bytes}

/-- The calls of `compressXZ` on `data`, which is not empty. -/
def compressCalls (encoder : NextCoder) (data : Bytes) (fuel : ℕ) : List LzmaCall :=
  codingCalls compressAction "XZ compression failed" fuel (CodingLoop.start encoder data)

/-- The action follows from what is left of the input, and the loop leaves the input to
its encoder: once it is consumed, only `LZMA_FINISH` is asked for. -/
theorem legalCalls_codingCalls {failure : String} (fuel : ℕ) (loop : CodingLoop encoder) :
    LegalCalls (codingCalls compressAction failure fuel loop) := by
  induction fuel generalizing loop with
  | zero => exact .nil
  | succ fuel ih =>
      by_cases hend : loop.ret = .streamEnd
      · rw [codingCalls_of_end fuel hend]
        exact .nil
      by_cases hgood : (loop.coded compressAction).1 = .ok ∨
          (loop.coded compressAction).1 = .streamEnd
      · rw [codingCalls_of_ok fuel hend hgood]
        refine List.isChain_cons.mpr ⟨fun next hnext hfinish => ?_, ih (loop.next compressAction)⟩
        rw [head?_codingCalls hnext]
        have hleft := (LzmaStream.lzmaCode_buffers
          { loop.stream with availOut := outBufferSize } (compressAction loop.stream.nextIn)).2.2
        have hconsumed : loop.stream.nextIn.length = 0 := by
          by_contra hinput
          exact hfinish (if_neg hinput)
        have hnothing : (loop.coded compressAction).2.2.nextIn.length = 0 :=
          Nat.le_zero.mp (hleft.trans_eq hconsumed)
        exact ⟨(if_pos hnothing).trans (if_pos hconsumed).symm, rfl⟩
      · rw [codingCalls_of_failed fuel hend hgood]
        exact List.isChain_singleton _

/-- Where the compressor is at the head of its loop. -/
inductive Compressing (data : Bytes) : CodingLoop encoder → Prop
  | running {loop : CodingLoop encoder} (ret_eq : loop.ret = .ok)
      (sequence_eq : loop.stream.sequence = .run)
      (driven : encoder.Driven data false loop.stream.state loop.stream.nextIn loop.output) :
      Compressing data loop
  | finishing {loop : CodingLoop encoder} (ret_eq : loop.ret = .ok)
      (sequence_eq : loop.stream.sequence = .finish) (consumed : loop.stream.nextIn = [])
      (unchanged : loop.stream.internalAvailIn = 0)
      (driven : encoder.Driven data true loop.stream.state loop.stream.nextIn loop.output) :
      Compressing data loop
  | ended {loop : CodingLoop encoder} (ret_eq : loop.ret = .streamEnd) : Compressing data loop

/-- What the compressor can still spend, if its encoder emits at most `bound` bytes. -/
def CodingLoop.compressBudget (bound : ℕ) (loop : CodingLoop encoder) : ℕ :=
  if loop.ret = .streamEnd then 0
  else 1 + loop.stream.nextIn.length + (bound - loop.output.length)

section Step

variable {loop next : CodingLoop encoder} {bound : ℕ}

/-- The end costs less than anything else. -/
theorem compressBudget_lt_of_end (hgoing : loop.ret ≠ .streamEnd)
    (hend : next.ret = .streamEnd) : next.compressBudget bound < loop.compressBudget bound := by
  rw [CodingLoop.compressBudget, if_pos hend, CodingLoop.compressBudget, if_neg hgoing]
  omega

/-- Progress within the bound spends. -/
theorem compressBudget_lt_of_progress {out : Bytes} {inPos : ℕ} (hgoing : loop.ret ≠ .streamEnd)
    (hnext : next.ret = .ok) (hinput : next.stream.nextIn = loop.stream.nextIn.drop inPos)
    (hle : inPos ≤ loop.stream.nextIn.length) (houtput : next.output = loop.output ++ out)
    (hbounded : next.output.length ≤ bound) (hprogress : 0 < out.length + inPos) :
    next.compressBudget bound < loop.compressBudget bound := by
  have hnextGoing : next.ret ≠ .streamEnd := by
    rw [hnext]
    exact LzmaRet.noConfusion
  rw [houtput, List.length_append] at hbounded
  rw [CodingLoop.compressBudget, if_neg hnextGoing, CodingLoop.compressBudget, if_neg hgoing,
    hinput, houtput, List.length_drop, List.length_append]
  omega

variable (hcontract : encoder.EncoderContract data)
  (hbound : ∀ {finishing state input emitted},
    encoder.Driven data finishing state input emitted → emitted.length ≤ bound)

include hcontract hbound

/-- A turn with input left. -/
theorem step_run (hgoing : loop.ret ≠ .streamEnd) (hsequence : loop.stream.sequence = .run)
    (hdriven : encoder.Driven data false loop.stream.state loop.stream.nextIn loop.output)
    (hinput : loop.stream.nextIn.length ≠ 0) :
    Compressing data (loop.next compressAction) ∧
      (loop.next compressAction).compressBudget bound < loop.compressBudget bound := by
  have haction : compressAction loop.stream.nextIn = .run := if_neg hinput
  have henter := LzmaStream.enter_run hsequence
  have hne : loop.stream.nextIn ≠ [] := List.ne_nil_of_length_pos (Nat.pos_of_ne_zero hinput)
  obtain ⟨hret, hprogress⟩ := hcontract.run hdriven hne (by decide : 0 < outBufferSize)
  have hnext := next_of_progress haction hcontract.supported.1 henter hret hprogress
  have hafter := hdriven.run outBufferSize hret
  rw [hnext]
  exact ⟨.running rfl rfl hafter,
    compressBudget_lt_of_progress hgoing rfl rfl (encoder.inPos_le _ _ _ _) rfl (hbound hafter)
      hprogress⟩

/-- A turn with no input left. -/
theorem step_finish {finishing : Bool} (hgoing : loop.ret ≠ .streamEnd)
    (henter : loop.stream.enter .finish = .ok .finish)
    (hdriven : encoder.Driven data finishing loop.stream.state loop.stream.nextIn loop.output)
    (hconsumed : loop.stream.nextIn = []) :
    Compressing data (loop.next compressAction) ∧
      (loop.next compressAction).compressBudget bound < loop.compressBudget bound := by
  have haction : compressAction loop.stream.nextIn = .finish := by
    rw [hconsumed]
    rfl
  rcases hcontract.finish hdriven (by decide : 0 < outBufferSize) with ⟨hret, hout⟩ | ⟨hret, -⟩
  · have hprogress := Nat.add_pos_left hout (loop.result .finish).inPos
    have hnext := next_of_progress haction hcontract.supported.2 henter hret hprogress
    have hafter := hdriven.finish outBufferSize hret
    have hnothing : loop.stream.nextIn.drop (loop.result .finish).inPos = [] := by
      rw [hconsumed, List.drop_nil]
    rw [hnext]
    exact ⟨.finishing rfl rfl hnothing (congrArg List.length hnothing) hafter,
      compressBudget_lt_of_progress hgoing rfl rfl (encoder.inPos_le _ _ _ _) rfl (hbound hafter)
        hprogress⟩
  · have hend := next_of_end haction hcontract.supported.2 henter hret
    exact ⟨.ended hend, compressBudget_lt_of_end hgoing hend⟩

/-- A turn keeps the compressor on its way and spends some of what it can spend. -/
theorem Compressing.step (hinv : Compressing data loop) (hgoing : loop.ret ≠ .streamEnd) :
    Compressing data (loop.next compressAction) ∧
      (loop.next compressAction).compressBudget bound < loop.compressBudget bound := by
  cases hinv with
  | ended hend => exact absurd hend hgoing
  | running hok hsequence hdriven =>
      by_cases hinput : loop.stream.nextIn.length = 0
      · have henter : loop.stream.enter .finish = .ok .finish := by
          rw [LzmaStream.enter, hsequence]
        exact step_finish hcontract hbound hgoing henter hdriven (List.length_eq_zero_iff.mp hinput)
      · exact step_run hcontract hbound hgoing hsequence hdriven hinput
  | finishing hok hsequence hconsumed hunchanged hdriven =>
      have henter : loop.stream.enter .finish = .ok .finish := by
        rw [LzmaStream.enter, hsequence]
        simp [hconsumed, hunchanged]
      exact step_finish hcontract hbound hgoing henter hdriven hconsumed

end Step

/-- As long as the compressor is on its way, its calls are answered as it wants them. -/
theorem Compressing.ret {loop : CodingLoop encoder} (hinv : Compressing data loop) :
    loop.ret = .ok ∨ loop.ret = .streamEnd := by
  cases hinv with
  | running hok _ _ => exact .inl hok
  | finishing hok _ _ _ _ => exact .inl hok
  | ended hend => exact .inr hend

/-- A turn goes round again until the end, and then leaves with the output. -/
theorem Compressing.turn (hcontract : encoder.EncoderContract data) {bound : ℕ}
    (hbound : ∀ {finishing state input emitted},
      encoder.Driven data finishing state input emitted → emitted.length ≤ bound)
    {loop : CodingLoop encoder} (hinv : Compressing data loop) :
    compressTurn encoder loop =
      if loop.ret = .streamEnd then .inr (.ok loop.output)
      else .inl (loop.next compressAction) := by
  by_cases hend : loop.ret = .streamEnd
  · rw [if_pos hend]
    exact codingTurn_of_end hend
  · have hgood := (hinv.step hcontract hbound hend).1.ret
    rw [if_neg hend]
    exact (codingTurn_of_ne hend).trans (if_pos hgood)

/-- The loop leaves, and not with an exception. -/
theorem exists_returns_compressTurn (hcontract : encoder.EncoderContract data) :
    ∃ output, Loop.Returns (compressTurn encoder) (CodingLoop.start encoder data)
      (.ok output) := by
  obtain ⟨bound, hbound⟩ := hcontract.bounded
  have hstart : Compressing data (CodingLoop.start encoder data) := .running rfl rfl .start
  have hstep : ∀ loop next : CodingLoop encoder, Compressing data loop →
      compressTurn encoder loop = .inl next →
      Compressing data next ∧ next.compressBudget bound < loop.compressBudget bound := by
    intro loop next hinv hturn
    rw [hinv.turn hcontract hbound] at hturn
    by_cases hend : loop.ret = .streamEnd
    · rw [if_pos hend] at hturn
      cases hturn
    · rw [if_neg hend] at hturn
      cases hturn
      exact hinv.step hcontract hbound hend
  have hleave : ∀ (loop : CodingLoop encoder) result, Compressing data loop →
      compressTurn encoder loop = .inr result → ∃ output, result = .ok output := by
    intro loop result hinv hturn
    rw [hinv.turn hcontract hbound] at hturn
    by_cases hend : loop.ret = .streamEnd
    · rw [if_pos hend] at hturn
      exact ⟨loop.output, (Sum.inr.inj hturn).symm⟩
    · rw [if_neg hend] at hturn
      cases hturn
  obtain ⟨result, hreturns⟩ :=
    Loop.exists_returns_of_variant (fun loop => loop.compressBudget bound) hstep hstart
  obtain ⟨output, rfl⟩ := hreturns.of_invariant (Compressing data) (∃ output, · = .ok output)
    (fun loop next hinv hturn => (hstep loop next hinv hturn).1) hleave hstart
  exact ⟨output, hreturns⟩

/-- **The compressor is a correct client.** It calls its encoder legally, every call is
answered as it wants it, the last one with the end, and it returns everything the calls
emitted, in order and through its buffer. -/
theorem compressXZ_of_contract (hdata : data ≠ []) (hcontract : encoder.EncoderContract data) :
    ∃ fuel,
      let calls := compressCalls encoder data fuel
      compressXZ (some encoder) data fuel = some (.ok (calls.flatMap LzmaCall.out)) ∧
        compressXZCopying (some encoder) data fuel = some (.ok (calls.flatMap LzmaCall.out)) ∧
        LegalCalls calls ∧
        (∀ call ∈ calls, call.ret = .ok ∨ call.ret = .streamEnd) ∧
        ∃ call ∈ calls, call.ret = .streamEnd := by
  obtain ⟨output, fuel, hrun⟩ := exists_returns_compressTurn hcontract
  have hresult : compressXZ (some encoder) data fuel = some (.ok output) := by
    rw [compressXZ, if_neg hdata]
    exact hrun
  refine ⟨fuel, ?_⟩
  dsimp only
  rcases result_of_runFor hrun with ⟨hreported, hcalls, houtput⟩ | ⟨-, hthrown⟩
  · rw [compressXZCopying_eq, hresult, houtput]
    refine ⟨rfl, rfl, legalCalls_codingCalls fuel _, hcalls, ?_⟩
    exact hreported.resolve_left LzmaRet.noConfusion
  · cases hthrown

/-- The recorded encoder keeps its contract, and `compressXZ` delivers what it emits. -/
theorem compressXZ_of_contract_recorded :
    recordedEncoder.EncoderContract (ascii "R") ∧
      ∃ fuel, compressXZ (some recordedEncoder) (ascii "R") fuel =
        some (.ok ((compressCalls recordedEncoder (ascii "R") fuel).flatMap LzmaCall.out)) := by
  have hcontract : recordedEncoder.EncoderContract (ascii "R") := bufferedCoder_encoderContract
  obtain ⟨fuel, hresult, -⟩ := compressXZ_of_contract (by decide : ascii "R" ≠ []) hcontract
  exact ⟨hcontract, fuel, hresult⟩

end Compress

/-! ## The decompressor -/

section Decompress

variable {decoder : NextCoder} {data : Bytes}

def decompressAction (_ : Bytes) : LzmaAction := .run

/-- The calls of `decompressXZ`, which makes none without input or without a decoder. -/
def decompressCalls (streamDecoder : Option NextCoder) (data : Bytes) (fuel : ℕ) :
    List LzmaCall :=
  if data = [] then []
  else
    match streamDecoder with
    | none => []
    | some decoder =>
        codingCalls decompressAction "XZ decompression failed" fuel
          (CodingLoop.start decoder data)

/-- Where the decompressor is at the head of its loop, whatever its decoder reports. -/
inductive Decoding (data : Bytes) : CodingLoop decoder → Prop
  | running {loop : CodingLoop decoder} (ret_eq : loop.ret = .ok)
      (sequence_eq : loop.stream.sequence = .run)
      (driven : decoder.Driven data false loop.stream.state loop.stream.nextIn loop.output) :
      Decoding data loop
  | ended {loop : CodingLoop decoder} (ret_eq : loop.ret = .streamEnd) : Decoding data loop

/-- What the decompressor can still spend, if its decoder emits at most `bound` bytes: input,
output, and one call without either. -/
def CodingLoop.decompressBudget (bound : ℕ) (loop : CodingLoop decoder) : ℕ :=
  if loop.ret = .streamEnd then 0
  else
    1 + 2 * (loop.stream.nextIn.length + (bound - loop.output.length)) +
      if loop.stream.allowBufError then 0 else 1

/-- The loop after a call answered `LZMA_OK`. -/
theorem next_of_ok {loop : CodingLoop decoder} (hsequence : loop.stream.sequence = .run)
    (huntimed : (loop.result .run).ret ≠ .timedOut)
    (hok : (loop.coded decompressAction).1 = .ok) :
    (loop.result .run).ret = .ok ∧
      ∃ allowed,
        loop.next decompressAction =
          { ret := .ok
            stream :=
              { nextIn := loop.stream.nextIn.drop (loop.result .run).inPos
                availOut := outBufferSize - (loop.result .run).out.length
                sequence := .run
                allowBufError := allowed
                internalAvailIn := (loop.stream.nextIn.drop (loop.result .run).inPos).length
                state := (loop.result .run).state }
            output := loop.output ++ (loop.result .run).out } ∧
        (0 < (loop.result .run).out.length + (loop.result .run).inPos ∨
          (loop.result .run).out.length + (loop.result .run).inPos = 0 ∧
            loop.stream.allowBufError = false ∧ allowed = true) := by
  have hsupported : decoder.supported .run = true := by
    by_contra hunsupported
    rw [CodingLoop.coded, decompressAction, LzmaStream.lzmaCode, if_neg hunsupported] at hok
    cases hok
  have henter := LzmaStream.enter_run hsequence
  have hcoded : loop.coded decompressAction = _ := coded_eq rfl hsupported henter
  rw [CodingLoop.next, hok]
  rw [hcoded] at hok ⊢
  have hret := (LzmaStream.ret_of_conclude_ok hok).resolve_right huntimed
  obtain ⟨allowed, hafter, hprogress⟩ := LzmaStream.conclude_ok hok huntimed
  refine ⟨hret, allowed, ?_, hprogress⟩
  dsimp only
  rw [hafter]
  rfl

section Step

variable {loop : CodingLoop decoder} {bound : ℕ} (hcontract : decoder.DecoderContract data)
  (hbound : ∀ {state input emitted},
    decoder.Driven data false state input emitted → emitted.length ≤ bound)

include hcontract hbound

/-- A turn that goes round again keeps the decompressor on its way and spends some of what
it can spend. -/
theorem Decoding.step (hinv : Decoding data loop) (hgoing : loop.ret ≠ .streamEnd)
    (hgood : (loop.coded decompressAction).1 = .ok ∨
      (loop.coded decompressAction).1 = .streamEnd) :
    Decoding data (loop.next decompressAction) ∧
      (loop.next decompressAction).decompressBudget bound < loop.decompressBudget bound := by
  cases hinv with
  | ended hend => exact absurd hend hgoing
  | running _ hsequence hdriven =>
      rcases hgood with hok | hend
      · obtain ⟨hret, allowed, hnext, hprogress⟩ :=
          next_of_ok hsequence (hcontract.untimed hdriven) hok
        have hafter := hdriven.run outBufferSize hret
        have hbounded : (loop.output ++ (loop.result .run).out).length ≤ bound := hbound hafter
        have hconsumed : (loop.result .run).inPos ≤ loop.stream.nextIn.length :=
          decoder.inPos_le _ _ _ _
        rw [hnext]
        refine ⟨.running rfl rfl hafter, ?_⟩
        rw [List.length_append] at hbounded
        rw [CodingLoop.decompressBudget, CodingLoop.decompressBudget, if_neg hgoing]
        dsimp only
        rw [if_neg LzmaRet.noConfusion, List.length_drop, List.length_append]
        rcases hprogress with hprogress | ⟨hnone, hfirst, rfl⟩
        · split <;> split <;> omega
        · rw [hfirst, if_pos rfl, if_neg Bool.false_ne_true]
          omega
      · have hlast : (loop.next decompressAction).ret = .streamEnd := hend
        refine ⟨.ended hlast, ?_⟩
        rw [CodingLoop.decompressBudget, if_pos hlast, CodingLoop.decompressBudget, if_neg hgoing]
        omega

end Step

/-- The loop leaves, with whatever it leaves. -/
theorem exists_returns_decompressTurn (hcontract : decoder.DecoderContract data) :
    ∃ result, Loop.Returns (decompressTurn decoder) (CodingLoop.start decoder data) result := by
  obtain ⟨bound, hbound⟩ := hcontract.bounded
  have hstart : Decoding data (CodingLoop.start decoder data) := .running rfl rfl .start
  refine Loop.exists_returns_of_variant (fun loop => loop.decompressBudget bound) ?_ hstart
  intro loop next hinv hturn
  change codingTurn decompressAction "XZ decompression failed" loop = .inl next at hturn
  by_cases hend : loop.ret = .streamEnd
  · rw [codingTurn_of_end hend] at hturn
    cases hturn
  · rw [codingTurn_of_ne hend] at hturn
    by_cases hgood : (loop.coded decompressAction).1 = .ok ∨
        (loop.coded decompressAction).1 = .streamEnd
    · rw [if_pos hgood] at hturn
      cases hturn
      exact hinv.step hcontract hbound hend hgood
    · rw [if_neg hgood] at hturn
      cases hturn

/-- `decompressXZ` leaves with everything its decoder emitted if the decoder reported the
end, and with a `DhtError` otherwise. -/
def ReturnsAtEnd (streamDecoder : Option NextCoder) (data : Bytes) : Prop :=
  ∃ fuel result,
    let calls := decompressCalls streamDecoder data fuel
    decompressXZ streamDecoder data fuel = some result ∧
      decompressXZCopying streamDecoder data fuel = some result ∧
      ((∃ call ∈ calls, call.ret = .streamEnd) ∧ result = .ok (calls.flatMap LzmaCall.out) ∨
        (∀ call ∈ calls, call.ret ≠ .streamEnd) ∧
          ∃ message, result = throwing (.dhtError message))

/-- **The decompressor ends and returns nothing partial**, whatever its decoder makes of the
input. Without input it returns nothing at all and starts no decoder. -/
theorem decompressXZ_of_contract {streamDecoder : Option NextCoder}
    (hcontract : ∀ decoder ∈ streamDecoder, decoder.DecoderContract data) :
    (data = [] → ∀ fuel, decompressXZ streamDecoder data fuel = some (.ok []) ∧
        decompressCalls streamDecoder data fuel = []) ∧
      (data ≠ [] → ReturnsAtEnd streamDecoder data) := by
  refine ⟨fun hempty fuel => ⟨?_, ?_⟩, fun hdata => ?_⟩
  · exact if_pos hempty
  · exact if_pos hempty
  · cases streamDecoder with
    | none =>
        refine ⟨0, _, ?_, ?_, .inr ⟨?_, ascii "Failed to initialize XZ decoder", rfl⟩⟩
        · rw [decompressXZ, if_neg hdata]
        · rw [decompressXZCopying, if_neg hdata]
        · rw [decompressCalls, if_neg hdata]
          exact List.forall_mem_nil _
    | some decoder =>
        obtain ⟨result, fuel, hrun⟩ := exists_returns_decompressTurn (hcontract decoder rfl)
        have hresult : decompressXZ (some decoder) data fuel = some result := by
          rw [decompressXZ, if_neg hdata]
          exact hrun
        refine ⟨fuel, result, hresult, (decompressXZCopying_eq _ _ _).trans hresult, ?_⟩
        rw [decompressCalls, if_neg hdata]
        rcases result_of_runFor hrun with ⟨hreported, -, houtput⟩ | ⟨⟨-, hcalls⟩, hthrown⟩
        · exact .inl ⟨hreported.resolve_left LzmaRet.noConfusion, houtput⟩
        · exact .inr ⟨hcalls, _, hthrown⟩

/-- The recorded decoder keeps its contract on the recorded stream. -/
theorem decompressXZ_of_contract_recorded :
    recordedDecoder.DecoderContract recordedStream ∧
      ReturnsAtEnd (some recordedDecoder) recordedStream := by
  have hcontract : recordedDecoder.DecoderContract recordedStream := bufferedCoder_decoderContract
  have hall : ∀ decoder ∈ some recordedDecoder, decoder.DecoderContract recordedStream := by
    intro decoder hdecoder
    cases hdecoder
    exact hcontract
  exact ⟨hcontract, (decompressXZ_of_contract hall).2 (by decide)⟩

/-- The empty vector is answered with the empty string, and no decoder reports anything. -/
theorem not_returnsAtEnd_nil :
    recordedDecoder.DecoderContract [] ∧ ¬ ReturnsAtEnd (some recordedDecoder) [] := by
  refine ⟨bufferedCoder_decoderContract, ?_⟩
  rintro ⟨fuel, result, hresult, -, hreported | hthrown⟩
  · obtain ⟨⟨call, hcall, -⟩, -⟩ := hreported
    cases hcall
  · obtain ⟨-, message, rfl⟩ := hthrown
    cases hresult

end Decompress

end Dht
