/-
# The XZ layer

`compressXZ` and `decompressXZ` are the same loop around `lzma_code`: 8192 bytes of
output space a turn, any code but `LZMA_OK` and `LZMA_STREAM_END` an exception, and
no way out but `LZMA_STREAM_END`. They differ in the action they ask for. The
compressor asks for `LZMA_FINISH` once its input is consumed. The decompressor
always asks for `LZMA_RUN`, although it opens its decoder with
`LZMA_CONCATENATED`, and such a decoder ends only on `LZMA_FINISH`. So the
decompressor never leaves its loop with a result.
-/

import Dht.Compression.Lzma
import Dht.Lib.Loop

namespace Dht

/-- `outBuffer(8192)`. -/
def outBufferSize : ℕ := 8192

/-- The variables of the coding loop. -/
structure CodingLoop (coder : NextCoder) where
  ret : LzmaRet
  stream : LzmaStream coder
  output : Bytes

/-- The loop is entered with `ret == LZMA_OK` and nothing written yet. -/
def CodingLoop.start (coder : NextCoder) (data : Bytes) : CodingLoop coder where
  ret := .ok
  stream := .start coder data
  output := []

/-- One turn of the loop both directions share. `action` chooses what to ask for
from what is left of the input, `failure` is the text of the exception. -/
def codingTurn {coder : NextCoder} (action : Bytes → LzmaAction) (failure : String)
    (loop : CodingLoop coder) : CodingLoop coder ⊕ Outcome Bytes :=
  if loop.ret = .streamEnd then .inr (.ok loop.output)
  else
    let stream := { loop.stream with availOut := outBufferSize }
    let (ret, out, stream) := stream.lzmaCode (action stream.nextIn)
    if ret ≠ .ok ∧ ret ≠ .streamEnd then
      .inr (throwing (.dhtError (ascii failure)))
    else .inl { ret, stream, output := loop.output ++ out }

/-- `(stream.avail_in == 0) ? LZMA_FINISH : LZMA_RUN`. -/
def compressTurn (encoder : NextCoder) :
    CodingLoop encoder → CodingLoop encoder ⊕ Outcome Bytes :=
  codingTurn (fun nextIn => if nextIn.length = 0 then .finish else .run)
    "XZ compression failed"

def decompressTurn (decoder : NextCoder) :
    CodingLoop decoder → CodingLoop decoder ⊕ Outcome Bytes :=
  codingTurn (fun _ => .run) "XZ decompression failed"

/-- `compressXZ`. `easyEncoder` is the coder `lzma_easy_encoder` sets up, absent
when that fails; no result means that the fuel ran out. -/
def compressXZ (easyEncoder : Option NextCoder) (data : Bytes) (fuel : ℕ) :
    Option (Outcome Bytes) :=
  if data = [] then some (.ok [])
  else
    match easyEncoder with
    | none => some (throwing (.dhtError (ascii "Failed to initialize XZ encoder")))
    | some encoder =>
        Loop.runFor (compressTurn encoder) fuel (CodingLoop.start encoder data)

/-- `decompressXZ`, with the coder `lzma_stream_decoder` sets up. -/
def decompressXZ (streamDecoder : Option NextCoder) (data : Bytes) (fuel : ℕ) :
    Option (Outcome Bytes) :=
  if data = [] then some (.ok [])
  else
    match streamDecoder with
    | none => some (throwing (.dhtError (ascii "Failed to initialize XZ decoder")))
    | some decoder =>
        Loop.runFor (decompressTurn decoder) fuel (CodingLoop.start decoder data)

/-! ## One turn -/

section Turn

variable {coder : NextCoder} (action : Bytes → LzmaAction)

/-- What the call of a turn returns. -/
def CodingLoop.coded (loop : CodingLoop coder) : LzmaRet × Bytes × LzmaStream coder :=
  LzmaStream.lzmaCode { loop.stream with availOut := outBufferSize } (action loop.stream.nextIn)

/-- The loop after a call that it goes round again on. -/
def CodingLoop.next (loop : CodingLoop coder) : CodingLoop coder where
  ret := (loop.coded action).1
  stream := (loop.coded action).2.2
  output := loop.output ++ (loop.coded action).2.1

variable {action} {failure : String} {loop : CodingLoop coder}

theorem codingTurn_of_end (hend : loop.ret = .streamEnd) :
    codingTurn action failure loop = .inr (.ok loop.output) := by
  rw [codingTurn, if_pos hend]

/-- A turn that makes a call goes round again or throws. -/
theorem codingTurn_of_ne (hgoing : loop.ret ≠ .streamEnd) :
    codingTurn action failure loop =
      if (loop.coded action).1 = .ok ∨ (loop.coded action).1 = .streamEnd then
        .inl (loop.next action)
      else .inr (throwing (.dhtError (ascii failure))) := by
  rw [codingTurn, if_neg hgoing]
  change (if (loop.coded action).1 ≠ .ok ∧ (loop.coded action).1 ≠ .streamEnd then _ else _) = _
  by_cases hgood : (loop.coded action).1 = .ok ∨ (loop.coded action).1 = .streamEnd
  · rw [if_pos hgood, if_neg (not_and_or.mpr (hgood.imp not_not.mpr not_not.mpr))]
    rfl
  · rw [if_neg hgood, if_pos (not_or.mp hgood)]

end Turn

/-! ## The decompressor's loop -/

section Decompress

variable {decoder : NextCoder}

/-- Where the decompressor is at the head of its loop, as long as its decoder
reports no end to `LZMA_RUN`. -/
structure Decompressing (loop : CodingLoop decoder) : Prop where
  ret_eq : loop.ret = .ok
  sequence_eq : loop.stream.sequence = .run

theorem decompressing_start (data : Bytes) :
    Decompressing (CodingLoop.start decoder data) :=
  ⟨rfl, rfl⟩

/-- Such a decoder does not end an `LZMA_RUN` call of the wrapper either. -/
theorem lzmaCode_run_ne_streamEnd (hends : decoder.EndsOnlyOnFinish)
    (stream : LzmaStream decoder) (hrun : stream.sequence = .run) :
    (stream.lzmaCode .run).1 ≠ .streamEnd := by
  by_cases hsupported : decoder.supported .run
  · rw [LzmaStream.lzmaCode_run hrun hsupported]
    intro hend
    exact hends _ _ _ (LzmaStream.conclude_streamEnd_iff.mp hend)
  · rw [LzmaStream.lzmaCode, if_neg hsupported]
    exact LzmaRet.noConfusion

/-- The call a turn makes. -/
def CodingLoop.called (loop : CodingLoop decoder) :
    LzmaRet × Bytes × LzmaStream decoder :=
  LzmaStream.lzmaCode { loop.stream with availOut := outBufferSize } .run

/-- A turn answered `LZMA_OK` goes round again, and any other turn throws. -/
theorem decompressTurn_eq (hends : decoder.EndsOnlyOnFinish)
    {loop : CodingLoop decoder} (hinv : Decompressing loop) :
    decompressTurn decoder loop =
      if loop.called.1 = .ok then
        .inl ⟨loop.called.1, loop.called.2.2, loop.output ++ loop.called.2.1⟩
      else .inr (throwing (.dhtError (ascii "XZ decompression failed"))) := by
  have hret : loop.ret ≠ .streamEnd := by
    rw [hinv.ret_eq]
    exact LzmaRet.noConfusion
  have hend : loop.called.1 ≠ .streamEnd :=
    lzmaCode_run_ne_streamEnd hends _ hinv.sequence_eq
  have hturn : decompressTurn decoder loop = _ := codingTurn_of_ne hret
  rw [hturn]
  exact if_congr (or_iff_left hend) rfl rfl

/-- A call answered `LZMA_OK` leaves the wrapper in the run sequence. -/
theorem called_sequence {loop : CodingLoop decoder} (hinv : Decompressing loop)
    (hok : loop.called.1 = .ok) : loop.called.2.2.sequence = .run := by
  have hrun : ({ loop.stream with availOut := outBufferSize } :
      LzmaStream decoder).sequence = .run := hinv.sequence_eq
  unfold CodingLoop.called at hok ⊢
  by_cases hsupported : decoder.supported .run
  · rw [LzmaStream.lzmaCode_run hrun hsupported] at hok ⊢
    exact LzmaStream.conclude_sequence hok
  · rw [LzmaStream.lzmaCode, if_neg hsupported] at hok
    cases hok

/-- Going round again keeps the decompressor where it was. -/
theorem Decompressing.step (hends : decoder.EndsOnlyOnFinish)
    {loop next : CodingLoop decoder} (hinv : Decompressing loop)
    (hturn : decompressTurn decoder loop = .inl next) :
    Decompressing next ∧ loop.called.1 = .ok ∧ next.stream = loop.called.2.2 := by
  rw [decompressTurn_eq hends hinv] at hturn
  by_cases hok : loop.called.1 = .ok
  · rw [if_pos hok] at hturn
    cases hturn
    exact ⟨⟨hok, called_sequence hinv hok⟩, hok, rfl⟩
  · rw [if_neg hok] at hturn
    cases hturn

/-- Leaving the loop means throwing. -/
theorem Decompressing.leave (hends : decoder.EndsOnlyOnFinish)
    {loop : CodingLoop decoder} {result : Outcome Bytes} (hinv : Decompressing loop)
    (hturn : decompressTurn decoder loop = .inr result) :
    result = throwing (.dhtError (ascii "XZ decompression failed")) := by
  rw [decompressTurn_eq hends hinv] at hturn
  by_cases hok : loop.called.1 = .ok
  · rw [if_pos hok] at hturn
    cases hturn
  · rw [if_neg hok] at hturn
    cases hturn
    rfl

/-- Whatever comes back from a non-empty input is the exception, for every
number of turns and every way the decoder cuts its output. -/
theorem decompressXZ_eq_throwing (hends : decoder.EndsOnlyOnFinish) {data : Bytes}
    (hdata : data ≠ []) {fuel : ℕ} {result : Outcome Bytes}
    (hresult : decompressXZ (some decoder) data fuel = some result) :
    result = throwing (.dhtError (ascii "XZ decompression failed")) := by
  rw [decompressXZ, if_neg hdata] at hresult
  exact Loop.Returns.of_invariant Decompressing
    (· = throwing (.dhtError (ascii "XZ decompression failed")))
    (fun _ _ hinv hturn => (hinv.step hends hturn).1)
    (fun _ _ hinv hturn => hinv.leave hends hturn)
    (decompressing_start data) ⟨fuel, hresult⟩

/-- And something does come back: the loop cannot spin on calls without
progress, because the second of them is an error. -/
theorem exists_decompressXZ_eq_throwing (hends : decoder.EndsOnlyOnFinish)
    {budget : decoder.State → Bytes → ℕ} (hfinite : decoder.FiniteOutput budget)
    {data : Bytes} (hdata : data ≠ []) :
    ∃ fuel, decompressXZ (some decoder) data fuel =
      some (throwing (.dhtError (ascii "XZ decompression failed"))) := by
  have hstep : ∀ loop next : CodingLoop decoder, Decompressing loop →
      decompressTurn decoder loop = .inl next →
      Decompressing next ∧ next.stream.runBudget budget < loop.stream.runBudget budget := by
    intro loop next hinv hturn
    obtain ⟨hnext, hok, hstream⟩ := hinv.step hends hturn
    refine ⟨hnext, ?_⟩
    rw [hstream]
    by_cases hsupported : decoder.supported .run
    · exact LzmaStream.runBudget_lt hfinite
        { loop.stream with availOut := outBufferSize } hinv.sequence_eq hsupported hok
    · rw [CodingLoop.called, LzmaStream.lzmaCode, if_neg hsupported] at hok
      cases hok
  obtain ⟨result, fuel, hrun⟩ := Loop.exists_returns_of_variant
    (fun loop => loop.stream.runBudget budget) hstep (decompressing_start data)
  have hresult : decompressXZ (some decoder) data fuel = some result := by
    rw [decompressXZ, if_neg hdata]
    exact hrun
  exact ⟨fuel, hresult.trans
    (congrArg some (decompressXZ_eq_throwing hends hdata hresult))⟩

end Decompress

/-! ## The round trip -/

/-- `decompressXZ(compressXZ(data))` returns `data`. -/
def RoundTripsXZ (encoder decoder : NextCoder) (data : Bytes) : Prop :=
  ∃ fuel blob, compressXZ (some encoder) data fuel = some (.ok blob) ∧
    ∃ fuel, decompressXZ (some decoder) blob fuel = some (.ok data)

/-- A non-empty stream is never decompressed, and an empty one decompresses to
the empty string. -/
theorem RoundTripsXZ.eq_nil {encoder decoder : NextCoder}
    (hends : decoder.EndsOnlyOnFinish) {data : Bytes}
    (htrip : RoundTripsXZ encoder decoder data) : data = [] := by
  obtain ⟨_, blob, _, fuel, hdecompress⟩ := htrip
  by_cases hblob : blob = []
  · rw [decompressXZ, if_pos hblob] at hdecompress
    simpa using hdecompress.symm
  · have hthrown := decompressXZ_eq_throwing hends hblob hdecompress
    cases hthrown

/-- Only the empty string survives the XZ layer, whatever the encoder emits and
however the decoder cuts its output. -/
theorem roundTripsXZ_iff (encoder : NextCoder) {decoder : NextCoder}
    (hends : decoder.EndsOnlyOnFinish) (data : Bytes) :
    RoundTripsXZ encoder decoder data ↔ data = [] := by
  constructor
  · exact RoundTripsXZ.eq_nil hends
  · rintro rfl
    exact ⟨0, [], rfl, 0, rfl⟩

/-! ## A recorded stream

The smallest pair of coders that behaves as liblzma does on one input: the encoder
turns the byte `R` into the stream liblzma emits for it, the decoder takes that
stream back. Both report the end to `LZMA_FINISH` once everything is emitted. -/

/-- A coder that takes all input it is offered and owes `transform` of everything
taken, at once if it is `eager` and otherwise under `LZMA_FINISH`. -/
def bufferedCoder (transform : Bytes → Bytes) (eager : Bool) : NextCoder where
  State := Bytes × ℕ
  initial := ([], 0)
  supported action := action = .run ∨ action = .finish
  code state input availOut action :=
    let taken := state.1 ++ input
    let due := if eager ∨ action = .finish then (transform taken).drop state.2 else []
    { ret := if action = .finish ∧ due.length ≤ availOut then .streamEnd else .ok
      inPos := input.length
      out := due.take availOut
      state := (taken, state.2 + (due.take availOut).length) }
  inPos_le _ _ _ _ := le_rfl
  out_le _ _ _ _ := by simp

theorem bufferedCoder_endsOnlyOnFinish (transform : Bytes → Bytes) (eager : Bool) :
    (bufferedCoder transform eager).EndsOnlyOnFinish := by
  intro state input availOut
  simp [bufferedCoder]

/-- What `lzma_easy_encoder` emits for the byte `R` at preset 9 with CRC64. -/
def recordedStream : Bytes :=
  [253, 55, 122, 88, 90, 0, 0, 4, 230, 214, 180, 70, 2, 0, 33, 1, 28, 0, 0, 0, 16, 207,
    88, 204, 1, 0, 0, 82, 0, 0, 0, 0, 234, 126, 215, 118, 214, 29, 4, 242, 0, 1, 25, 1,
    165, 44, 129, 204, 31, 182, 243, 125, 1, 0, 0, 0, 0, 4, 89, 90]

def recordedEncoder : NextCoder :=
  bufferedCoder (fun taken => if taken = ascii "R" then recordedStream else []) false

def recordedDecoder : NextCoder :=
  bufferedCoder (fun taken => if taken = recordedStream then ascii "R" else []) true

theorem roundTripsXZ_iff_recorded :
    recordedDecoder.EndsOnlyOnFinish ∧
      (RoundTripsXZ recordedEncoder recordedDecoder (ascii "R") ↔ ascii "R" = []) :=
  ⟨bufferedCoder_endsOnlyOnFinish _ _,
    roundTripsXZ_iff recordedEncoder (bufferedCoder_endsOnlyOnFinish _ _) _⟩

/-- The compressor delivers the stream, and the decompressor throws on it. -/
theorem not_roundTripsXZ_recorded :
    compressXZ (some recordedEncoder) (ascii "R") 3 = some (.ok recordedStream) ∧
      decompressXZ (some recordedDecoder) recordedStream 3 =
        some (throwing (.dhtError (ascii "XZ decompression failed"))) ∧
      ¬ RoundTripsXZ recordedEncoder recordedDecoder (ascii "R") := by
  refine ⟨by decide, by decide, fun htrip => ?_⟩
  have hempty := htrip.eq_nil (bufferedCoder_endsOnlyOnFinish _ _)
  exact absurd hempty (by decide)

end Dht
