/-
# The range encoder of liblzma

`range_encoder.h` collects symbols in a queue and encodes them when `rc_encode` is
called. A symbol is a bit coded with an adaptive probability, a bit coded without one, or
a request to flush. The encoder's interval is `low`, of 33 bits, and `range`; the
digits above `low` are the bytes already written, one byte `cache` and then
`cache_size - 1` bytes `0xFF` through which a carry may still run.

The abstract layer has no carry. Its interval is a `Span` with a lower end of any size,
narrowed by each symbol and zoomed by one byte when it has become too narrow. `Holds`
reads the encoder's state as such an interval, and what a flush writes is the lower end
of the last one, byte by byte. Output buffers of any size cut the same bytes.
-/

import Dht.Core.Outcome
import Dht.Lib.Positional
import Dht.Lib.Resumable
import Dht.Lib.Subdivision
import Mathlib.Data.Nat.Bitwise
import Mathlib.Logic.Function.Basic

namespace Dht

open Resumable

/-! ## Probabilities -/

/-- `probability`. Adapting one keeps it away from both ends, so `uint16_t` does not
overflow and no symbol has an empty part of the interval. -/
@[ext]
structure Probability where
  value : ℕ
  lower : 31 ≤ value
  upper : value ≤ 2017
  deriving DecidableEq

/-- `bit_reset`. -/
def bitReset : Probability := ⟨2 ^ 11 >>> 1, by decide, by decide⟩

/-- The probability after a bit was coded with it: `rc_update_0` and `rc_update_1`. -/
def Probability.update (prob : Probability) : Bool → Probability
  | false =>
      ⟨prob.value + (2 ^ 11 - prob.value) >>> 5, by have := prob.lower; omega, by
        have := prob.upper
        rw [Nat.shiftRight_eq_div_pow]
        omega⟩
  | true =>
      ⟨prob.value - prob.value >>> 5, by
        have := prob.lower
        rw [Nat.shiftRight_eq_div_pow]
        omega, by have := prob.upper; omega⟩

/-- How a bit is coded: with the probability at an index, or with none. -/
inductive RcContext (ι : Type)
  | prob (index : ι)
  | direct
  deriving DecidableEq

/-- A symbol of the queue: `RC_BIT_0`, `RC_BIT_1`, `RC_DIRECT_0`, `RC_DIRECT_1` and
`RC_FLUSH`. -/
inductive RcSymbol (ι : Type)
  | bit (context : RcContext ι) (value : Bool)
  | flush

/-! ## The encoder -/

/-- `lzma_range_encoder` without its queue. -/
@[ext]
structure LzmaRangeEncoder where
  low : ℕ
  cacheSize : ℕ
  range : ℕ
  cache : UInt8
  deriving DecidableEq

/-- `rc_reset`. -/
def rcReset : LzmaRangeEncoder where
  low := 0
  cacheSize := 1
  range := 2 ^ 32 - 1
  cache := 0

/-- Whether `rc_shift_low` writes: the highest byte of `low` can no longer change, or a
carry has arrived. -/
def LzmaRangeEncoder.Settled (rc : LzmaRangeEncoder) : Prop :=
  rc.low % 2 ^ 32 < 0xFF000000 ∨ rc.low >>> 32 % 2 ^ 32 ≠ 0

instance (rc : LzmaRangeEncoder) : Decidable rc.Settled :=
  inferInstanceAs (Decidable (_ ∨ _))

/-- The `do` loop of `rc_shift_low`. A call that finds the buffer full has moved the
cache on, and the next one continues there. -/
def rcWriteCache (carry : UInt8) : ℕ → LzmaRangeEncoder → Written UInt8 LzmaRangeEncoder
  | 0, rc => ⟨true, [], rc⟩
  | room + 1, rc =>
      let byte := rc.cache + carry
      let rc := { rc with cache := 0xFF, cacheSize := rc.cacheSize - 1 }
      if rc.cacheSize = 0 then ⟨false, [byte], rc⟩
      else
        let later := rcWriteCache carry room rc
        ⟨later.full, byte :: later.out, later.state⟩

/-- The end of `rc_shift_low`: `low` loses its highest byte. -/
def rcDropByte (rc : LzmaRangeEncoder) : LzmaRangeEncoder :=
  { rc with cacheSize := rc.cacheSize + 1, low := (rc.low &&& 0x00FFFFFF) <<< 8 }

/-- `rc_shift_low`. -/
def rcShiftLow (room : ℕ) (rc : LzmaRangeEncoder) : Written UInt8 LzmaRangeEncoder :=
  if rc.Settled then
    (rcWriteCache (UInt8.ofNat (rc.low >>> 32)) room rc).andThen room id fun _ rc =>
      ⟨false, [], rcDropByte { rc with cache := UInt8.ofNat (rc.low >>> 24 &&& 0xFF) }⟩
  else ⟨false, [], rcDropByte rc⟩

/-- The normalisation at the top of the loop of `rc_encode`. -/
def rcNormalize (room : ℕ) (rc : LzmaRangeEncoder) : Written UInt8 LzmaRangeEncoder :=
  if rc.range < 2 ^ 24 then
    (rcShiftLow room rc).andThen room id fun _ rc =>
      ⟨false, [], { rc with range := (rc.range <<< 8) % 2 ^ 32 }⟩
  else ⟨false, [], rc⟩

variable {ι : Type}

/-- The lower part of the interval, which belongs to the bit `0`. -/
def rcBound (range : ℕ) (probs : ι → Probability) : RcContext ι → ℕ
  | .prob index => range >>> 11 * (probs index).value
  | .direct => range >>> 1

/-- The cases of `rc_encode` that encode a bit. Without a probability both bits get the
same part of the interval, and an odd `range` loses one. -/
def rcEncodeBit (rc : LzmaRangeEncoder) (probs : ι → Probability) (context : RcContext ι)
    (bit : Bool) : LzmaRangeEncoder :=
  let bound := rcBound rc.range probs context
  match context, bit with
  | _, false => { rc with range := bound }
  | .prob _, true => { rc with low := (rc.low + bound) % 2 ^ 64, range := rc.range - bound }
  | .direct, true => { rc with low := (rc.low + bound) % 2 ^ 64, range := bound }

/-- The probabilities after a bit. -/
def rcUpdate [DecidableEq ι] (probs : ι → Probability) (context : RcContext ι) (bit : Bool) :
    ι → Probability :=
  match context with
  | .prob index => Function.update probs index ((probs index).update bit)
  | .direct => probs

/-- The beginning of `RC_FLUSH`, which prevents further normalisations. -/
def rcWiden (rc : LzmaRangeEncoder) : LzmaRangeEncoder := { rc with range := 2 ^ 32 - 1 }

/-- The loop of `RC_FLUSH`, which takes every symbol that is left for a flush. -/
def rcFlushLoop : ℕ → LzmaRangeEncoder × List (RcSymbol ι) →
    Written UInt8 (LzmaRangeEncoder × List (RcSymbol ι))
  | _, (_, []) => ⟨false, [], (rcReset, [])⟩
  | room, (rc, symbol :: symbols) =>
      (rcShiftLow room rc).andThen room (fun rc => (rc, symbol :: symbols))
        fun room rc => rcFlushLoop room (rc, symbols)
  termination_by _ pair => pair.2.length

/-- What a call of `rc_encode` works on: the encoder, the probabilities its symbols point
to, and the symbols from `pos` on. -/
structure RcQueue (ι : Type) where
  rc : LzmaRangeEncoder
  probs : ι → Probability
  symbols : List (RcSymbol ι)

/-- `rc_encode`. -/
def rcEncode [DecidableEq ι] (room : ℕ) (rc : LzmaRangeEncoder) (probs : ι → Probability) :
    List (RcSymbol ι) → Written UInt8 (RcQueue ι)
  | [] => ⟨false, [], ⟨rc, probs, []⟩⟩
  | symbol :: symbols =>
      (rcNormalize room rc).andThen room (fun rc => ⟨rc, probs, symbol :: symbols⟩)
        fun room rc =>
          match symbol with
          | .bit context bit =>
              rcEncode room (rcEncodeBit rc probs context bit) (rcUpdate probs context bit)
                symbols
          | .flush =>
              (rcFlushLoop room (rcWiden rc, symbol :: symbols)).andThen room
                (fun left => ⟨left.1, probs, left.2⟩) fun _ left => ⟨false, [], ⟨left.1, probs, left.2⟩⟩

/-! ## Independence of the output buffers -/

namespace LzmaRangeEncoder

/-- The cached bytes after a carry has run through them. -/
def cacheText (carry : UInt8) (rc : LzmaRangeEncoder) : Bytes :=
  (rc.cache + carry) :: List.replicate (rc.cacheSize - 1) (0xFF + carry)

/-- What `rc_shift_low` writes if there is room for it. -/
def shiftText (rc : LzmaRangeEncoder) : Bytes :=
  if rc.Settled then rc.cacheText (UInt8.ofNat (rc.low >>> 32)) else []

/-- What `rc_shift_low` leaves when it has written. -/
def shiftNext (rc : LzmaRangeEncoder) : LzmaRangeEncoder :=
  if rc.Settled then
    rcDropByte { rc with cache := UInt8.ofNat (rc.low >>> 24 &&& 0xFF), cacheSize := 0 }
  else rcDropByte rc

/-- What the normalisation writes. -/
def normalizeText (rc : LzmaRangeEncoder) : Bytes :=
  if rc.range < 2 ^ 24 then rc.shiftText else []

/-- What the normalisation leaves. -/
def normalizeNext (rc : LzmaRangeEncoder) : LzmaRangeEncoder :=
  if rc.range < 2 ^ 24 then { rc.shiftNext with range := (rc.range <<< 8) % 2 ^ 32 } else rc

/-- What some flushes write. -/
def flushText : ℕ → LzmaRangeEncoder → Bytes
  | 0, _ => []
  | flushes + 1, rc => rc.shiftText ++ flushText flushes rc.shiftNext

/-- What some flushes leave before the reset. -/
def flushNext : ℕ → LzmaRangeEncoder → LzmaRangeEncoder
  | 0, rc => rc
  | flushes + 1, rc => flushNext flushes rc.shiftNext

/-- What a queue of bits and then some flushes writes. -/
def encodeText [DecidableEq ι] (rc : LzmaRangeEncoder) (probs : ι → Probability) :
    List (RcContext ι × Bool) → ℕ → Bytes
  | [], 0 => []
  | [], flushes + 1 =>
      rc.normalizeText ++ flushText (flushes + 1) (rcWiden rc.normalizeNext)
  | (context, bit) :: bits, flushes =>
      rc.normalizeText ++
        encodeText (rcEncodeBit rc.normalizeNext probs context bit)
          (rcUpdate probs context bit) bits flushes

/-- What it leaves. -/
def encodeNext [DecidableEq ι] (rc : LzmaRangeEncoder) (probs : ι → Probability) :
    List (RcContext ι × Bool) → ℕ → RcQueue ι
  | [], 0 => ⟨rc, probs, []⟩
  | [], _ + 1 => ⟨rcReset, probs, []⟩
  | (context, bit) :: bits, flushes =>
      encodeNext (rcEncodeBit rc.normalizeNext probs context bit)
        (rcUpdate probs context bit) bits flushes

end LzmaRangeEncoder

section Buffers

open LzmaRangeEncoder

theorem one_le_cacheSize_shiftNext (rc : LzmaRangeEncoder) : 1 ≤ rc.shiftNext.cacheSize := by
  rw [shiftNext]
  split
  · exact Nat.le_add_left 1 _
  · exact Nat.le_add_left 1 _

theorem range_shiftNext (rc : LzmaRangeEncoder) : rc.shiftNext.range = rc.range := by
  rw [shiftNext]
  split
  · rfl
  · rfl

theorem one_le_cacheSize_normalizeNext {rc : LzmaRangeEncoder} (hcache : 1 ≤ rc.cacheSize) :
    1 ≤ rc.normalizeNext.cacheSize := by
  rw [normalizeNext]
  split
  · exact one_le_cacheSize_shiftNext rc
  · exact hcache

theorem cacheSize_rcEncodeBit (rc : LzmaRangeEncoder) (probs : ι → Probability)
    (context : RcContext ι) (bit : Bool) :
    (rcEncodeBit rc probs context bit).cacheSize = rc.cacheSize := by
  cases context <;> cases bit <;> rfl

/-- The loop of `rc_shift_low` writes the cached bytes. -/
theorem fills_rcWriteCache (carry : UInt8) (room : ℕ) {rc : LzmaRangeEncoder}
    (hcache : 1 ≤ rc.cacheSize) :
    Fills room (rc.cacheText carry) (fun after => after = { rc with cache := 0xFF, cacheSize := 0 })
      (fun left after => left = after.cacheText carry ∧ 1 ≤ after.cacheSize ∧
        after.low = rc.low ∧ after.range = rc.range)
      (rcWriteCache carry room rc) := by
  induction room generalizing rc with
  | zero => exact .stopped (Nat.zero_lt_succ _) ⟨rfl, hcache, rfl, rfl⟩
  | succ room ih =>
      rw [rcWriteCache]
      dsimp only
      by_cases hlast : rc.cacheSize - 1 = 0
      · have htext : rc.cacheText carry = [rc.cache + carry] := by
          rw [cacheText, hlast, List.replicate_zero]
        rw [if_pos hlast, htext]
        refine .finished (Nat.succ_le_succ (Nat.zero_le _)) ?_
        rw [hlast]
      · rw [if_neg hlast]
        have hmore : 1 ≤ rc.cacheSize - 1 := Nat.one_le_iff_ne_zero.mpr hlast
        obtain ⟨more, hsize⟩ : ∃ more, rc.cacheSize - 1 = more + 1 :=
          ⟨rc.cacheSize - 2, by omega⟩
        have htext : rc.cacheText carry = [rc.cache + carry] ++
            cacheText carry { rc with cache := 0xFF, cacheSize := rc.cacheSize - 1 } := by
          rw [cacheText, cacheText, hsize, List.replicate_succ, Nat.add_sub_cancel]
          rfl
        rw [htext]
        have hfirst : Fills (room + 1) [rc.cache + carry]
            (fun after => after = { rc with cache := 0xFF, cacheSize := rc.cacheSize - 1 })
            (fun _ _ => False)
            (⟨false, [rc.cache + carry],
              { rc with cache := 0xFF, cacheSize := rc.cacheSize - 1 }⟩ :
              Written UInt8 LzmaRangeEncoder) :=
          .finished (Nat.succ_le_succ (Nat.zero_le _)) rfl
        refine hfirst.andThen id (fun room => rcWriteCache carry room)
          (fun _ _ hfalse => hfalse.elim) ?_
        rintro _ rfl -
        exact ih hmore

/-- What is left of a stopped `rc_shift_low`, or of a routine that begins with one. -/
def StillShifts (rc : LzmaRangeEncoder) (left : Bytes) (after : LzmaRangeEncoder) : Prop :=
  left = after.shiftText ∧ after.shiftNext = rc.shiftNext ∧ 1 ≤ after.cacheSize ∧
    after.range = rc.range

theorem fills_rcShiftLow (room : ℕ) {rc : LzmaRangeEncoder} (hcache : 1 ≤ rc.cacheSize) :
    Fills room rc.shiftText (· = rc.shiftNext) (StillShifts rc) (rcShiftLow room rc) := by
  rw [rcShiftLow, shiftText, shiftNext]
  by_cases hsettled : rc.Settled
  · rw [if_pos hsettled, if_pos hsettled, if_pos hsettled, ← List.append_nil (cacheText _ _)]
    refine (fills_rcWriteCache _ room hcache).andThen _ _ ?_ ?_
    · rintro left after ⟨rfl, hsize, hlow, hrange⟩
      have hafter : after.Settled := by rwa [Settled, hlow]
      refine ⟨?_, ?_, hsize, hrange⟩
      · rw [List.append_nil, shiftText, id_eq, if_pos hafter, hlow]
      · rw [shiftNext, id_eq, if_pos hafter, shiftNext, if_pos hsettled]
        ext <;> simp [rcDropByte, hlow, hrange]
    · rintro _ rfl -
      exact .finished (Nat.zero_le _) rfl
  · rw [if_neg hsettled, if_neg hsettled, if_neg hsettled]
    exact .finished (Nat.zero_le _) rfl

theorem fills_rcNormalize (room : ℕ) {rc : LzmaRangeEncoder} (hcache : 1 ≤ rc.cacheSize) :
    Fills room rc.normalizeText (· = rc.normalizeNext)
      (fun left after => left = after.normalizeText ∧
        after.normalizeNext = rc.normalizeNext ∧ 1 ≤ after.cacheSize)
      (rcNormalize room rc) := by
  rw [rcNormalize, normalizeText, normalizeNext]
  by_cases hnarrow : rc.range < 2 ^ 24
  · rw [if_pos hnarrow, if_pos hnarrow, if_pos hnarrow, ← List.append_nil (shiftText _)]
    refine (fills_rcShiftLow room hcache).andThen _ _ ?_ ?_
    · rintro left after ⟨rfl, hnext, hsize, hrange⟩
      have hafter : after.range < 2 ^ 24 := by rwa [hrange]
      refine ⟨?_, ?_, hsize⟩
      · rw [List.append_nil, normalizeText, id_eq, if_pos hafter]
      · rw [normalizeNext, id_eq, if_pos hafter, hnext, hrange]
    · rintro _ rfl -
      rw [range_shiftNext]
      exact .finished (Nat.zero_le _) rfl
  · rw [if_neg hnarrow, if_neg hnarrow, if_neg hnarrow]
    exact .finished (Nat.zero_le _) rfl

/-- The queue of some bits and then some flushes. -/
def rcSymbols (bits : List (RcContext ι × Bool)) (flushes : ℕ) : List (RcSymbol ι) :=
  bits.map (fun coded => .bit coded.1 coded.2) ++ List.replicate flushes .flush

theorem fills_rcFlushLoop (room flushes : ℕ) {rc : LzmaRangeEncoder}
    (hcache : 1 ≤ rc.cacheSize) :
    Fills room (flushText flushes rc) (· = (rcReset, []))
      (fun left after => ∃ fewer, left = flushText (fewer + 1) after.1 ∧
        after.2 = List.replicate (fewer + 1) (.flush : RcSymbol ι) ∧ 1 ≤ after.1.cacheSize ∧
        after.1.range = rc.range)
      (rcFlushLoop room (rc, List.replicate flushes .flush)) := by
  induction flushes generalizing room rc with
  | zero =>
      rw [List.replicate_zero, rcFlushLoop]
      exact .finished (Nat.zero_le _) rfl
  | succ flushes ih =>
      rw [List.replicate_succ, rcFlushLoop, flushText]
      refine (fills_rcShiftLow room hcache).andThen _ _ ?_ ?_
      · rintro left after ⟨rfl, hnext, hsize, hrange⟩
        exact ⟨flushes, by rw [flushText, hnext], rfl, hsize, hrange⟩
      · rintro _ rfl -
        rw [← range_shiftNext rc]
        exact ih _ (one_le_cacheSize_shiftNext rc)

variable [DecidableEq ι]

/-- A queue that has still to write `left` and will then be `final`. -/
def RcQueue.Owes (final : RcQueue ι) (left : Bytes) (queue : RcQueue ι) : Prop :=
  ∃ bits flushes, queue.symbols = rcSymbols bits flushes ∧ 1 ≤ queue.rc.cacheSize ∧
    left = queue.rc.encodeText queue.probs bits flushes ∧
    queue.rc.encodeNext queue.probs bits flushes = final

/-- One call of `rc_encode` writes the front of what its queue owes. -/
theorem fills_rcEncode (room : ℕ) (bits : List (RcContext ι × Bool)) (flushes : ℕ)
    {rc : LzmaRangeEncoder} (probs : ι → Probability) (hcache : 1 ≤ rc.cacheSize) :
    Fills room (rc.encodeText probs bits flushes) (· = rc.encodeNext probs bits flushes)
      (RcQueue.Owes (rc.encodeNext probs bits flushes))
      (rcEncode room rc probs (rcSymbols bits flushes)) := by
  induction bits generalizing room rc probs with
  | nil =>
      cases flushes with
      | zero => exact .finished (Nat.zero_le _) rfl
      | succ flushes =>
          rw [encodeText]
          refine (fills_rcNormalize room hcache).andThen _ _ ?_ ?_
          · rintro left after ⟨rfl, hnext, hsize⟩
            exact ⟨[], flushes + 1, rfl, hsize, by rw [encodeText, hnext], rfl⟩
          · rintro _ rfl -
            rw [← List.append_nil (flushText _ _)]
            have hflush : 1 ≤ (rcWiden rc.normalizeNext).cacheSize :=
              one_le_cacheSize_normalizeNext hcache
            refine (fills_rcFlushLoop _ (flushes + 1) hflush).andThen _ _ ?_ ?_
            · rintro left ⟨after, symbols⟩ ⟨fewer, rfl, rfl, hsize, hrange⟩
              refine ⟨[], fewer + 1, rfl, hsize, ?_, rfl⟩
              -- the flush has set `range`, so the next call does not normalise
              have hsame : rcWiden after = after := by
                rw [rcWiden]
                ext
                · rfl
                · rfl
                · exact hrange.symm
                · rfl
              have hwide : ¬after.range < 2 ^ 24 := by
                rw [← hsame, rcWiden]
                norm_num
              rw [List.append_nil, encodeText, normalizeText, if_neg hwide, List.nil_append,
                normalizeNext, if_neg hwide, hsame]
            · rintro _ rfl -
              exact .finished (Nat.zero_le _) rfl
  | cons coded bits ih =>
      obtain ⟨context, bit⟩ := coded
      rw [encodeText]
      refine (fills_rcNormalize room hcache).andThen _ _ ?_ ?_
      · rintro left after ⟨rfl, hnext, hsize⟩
        exact ⟨(context, bit) :: bits, flushes, rfl, hsize, by rw [encodeText, hnext],
          by rw [encodeNext, encodeNext, hnext]⟩
      · rintro _ rfl -
        exact ih _ _ ((one_le_cacheSize_normalizeNext hcache).trans_eq
          (cacheSize_rcEncodeBit _ _ _ _).symm)

/-- Call `rc_encode` with one buffer after the other. -/
def rcEncodeCalls (rooms : List ℕ) (queue : RcQueue ι) : Written UInt8 (RcQueue ι) :=
  calls (fun room queue => rcEncode room queue.rc queue.probs queue.symbols) rooms queue

/-- Whatever buffers `rc_encode` is given, it writes the same bytes. -/
theorem fills_rcEncodeCalls (bits : List (RcContext ι × Bool)) (flushes : ℕ)
    {rc : LzmaRangeEncoder} (probs : ι → Probability) (hcache : 1 ≤ rc.cacheSize) (room : ℕ)
    (rooms : List ℕ) :
    Fills (total (room :: rooms)) (rc.encodeText probs bits flushes)
      (· = rc.encodeNext probs bits flushes) (RcQueue.Owes (rc.encodeNext probs bits flushes))
      (rcEncodeCalls (room :: rooms) ⟨rc, probs, rcSymbols bits flushes⟩) := by
  refine fills_calls ?_ ⟨bits, flushes, rfl, hcache, rfl, rfl⟩ room rooms
  rintro room text queue ⟨bits, flushes, hsymbols, hsize, rfl, hnext⟩
  rw [hsymbols, ← hnext]
  exact fills_rcEncode room bits flushes queue.probs hsize

end Buffers

/-! ## The interval -/

/-- The normalisation of an interval. -/
def normalizeSpan (span : Span) : Span :=
  if span.width < 2 ^ 24 then span.zoom 256 else span

/-- The digits the normalisation adds. -/
def normalizeDigits (span : Span) : ℕ := if span.width < 2 ^ 24 then 1 else 0

/-- The part of an interval that belongs to a bit. -/
def partSpan (span : Span) (probs : ι → Probability) (context : RcContext ι)
    (bit : Bool) : Span :=
  let bound := rcBound span.width probs context
  match context, bit with
  | _, false => span.narrow 0 bound
  | .prob _, true => span.narrow bound (span.width - bound)
  | .direct, true => span.narrow bound bound

/-- What some bits leave of an interval, normalised once more at the end. -/
def codeSpan [DecidableEq ι] (span : Span) (probs : ι → Probability) :
    List (RcContext ι × Bool) → Span
  | [] => normalizeSpan span
  | (context, bit) :: bits =>
      codeSpan (partSpan (normalizeSpan span) probs context bit)
        (rcUpdate probs context bit) bits

/-- The digits added on the way. -/
def codeDigits [DecidableEq ι] (span : Span) (probs : ι → Probability) :
    List (RcContext ι × Bool) → ℕ
  | [] => normalizeDigits span
  | (context, bit) :: bits =>
      normalizeDigits span +
        codeDigits (partSpan (normalizeSpan span) probs context bit)
          (rcUpdate probs context bit) bits

/-- An interval between two symbols: narrow, but not so narrow that one more digit would
not make it wide enough to be divided. -/
def BetweenSymbols (span : Span) : Prop := 2 ^ 16 ≤ span.width ∧ span.width < 2 ^ 32

section Interval

theorem normalizeSpan_within (span : Span) :
    (normalizeSpan span).Within 256 (normalizeDigits span) span := by
  rw [normalizeSpan, normalizeDigits]
  split
  · exact Span.zoom_within
  · exact Span.within_self

theorem width_normalizeSpan {span : Span} (hspan : BetweenSymbols span) :
    2 ^ 24 ≤ (normalizeSpan span).width ∧ (normalizeSpan span).width < 2 ^ 32 := by
  obtain ⟨hlow, hhigh⟩ := hspan
  rw [normalizeSpan]
  split
  · dsimp only [Span.zoom]
    omega
  · omega

theorem rcBound_bounds {range : ℕ} (hlow : 2 ^ 24 ≤ range) (probs : ι → Probability)
    (context : RcContext ι) :
    2 ^ 16 ≤ rcBound range probs context ∧
      rcBound range probs context + 2 ^ 16 ≤ range := by
  cases context with
  | direct =>
      rw [rcBound, Nat.shiftRight_eq_div_pow]
      omega
  | prob index =>
      rw [rcBound, Nat.shiftRight_eq_div_pow]
      have hlower := (probs index).lower
      have hupper := (probs index).upper
      have hshift : 2 ^ 13 ≤ range / 2 ^ 11 := by omega
      have hback : range / 2 ^ 11 * 2 ^ 11 ≤ range := Nat.div_mul_le_self range _
      constructor
      · calc 2 ^ 16 ≤ 2 ^ 13 * 31 := by norm_num
          _ ≤ range / 2 ^ 11 * (probs index).value := Nat.mul_le_mul hshift hlower
      · calc range / 2 ^ 11 * (probs index).value + 2 ^ 16
            ≤ range / 2 ^ 11 * 2017 + range / 2 ^ 11 * 31 :=
              Nat.add_le_add (Nat.mul_le_mul_left _ hupper) (by omega)
          _ = range / 2 ^ 11 * 2 ^ 11 := by ring
          _ ≤ range := hback

/-- A bit takes a part of the interval that is again wide enough for the next. -/
theorem betweenSymbols_partSpan {span : Span} (hlow : 2 ^ 24 ≤ span.width)
    (hhigh : span.width < 2 ^ 32) (probs : ι → Probability) (context : RcContext ι)
    (bit : Bool) : BetweenSymbols (partSpan span probs context bit) := by
  obtain ⟨hbound, hrest⟩ := rcBound_bounds hlow probs context
  cases context <;> cases bit <;>
    simp only [partSpan, Span.narrow, BetweenSymbols] <;> omega

theorem partSpan_within {span : Span} (hlow : 2 ^ 24 ≤ span.width)
    (probs : ι → Probability) (context : RcContext ι) (bit : Bool) :
    (partSpan span probs context bit).Within 256 0 span := by
  obtain ⟨hbound, hrest⟩ := rcBound_bounds hlow probs context
  cases context with
  | prob index =>
      cases bit with
      | false => exact Span.narrow_within (by omega)
      | true => exact Span.narrow_within (by omega)
  | direct =>
      have hdouble : rcBound span.width probs .direct * 2 ≤ span.width := by
        rw [rcBound, Nat.shiftRight_eq_div_pow]
        exact Nat.div_mul_le_self _ _
      cases bit with
      | false => exact Span.narrow_within (by omega)
      | true => exact Span.narrow_within (by omega)

variable [DecidableEq ι]

/-- What the bits leave lies in the interval they began with, and is not empty. -/
theorem codeSpan_within {span : Span} (hspan : BetweenSymbols span) (probs : ι → Probability)
    (bits : List (RcContext ι × Bool)) :
    (codeSpan span probs bits).Within 256 (codeDigits span probs bits) span ∧
      0 < (codeSpan span probs bits).width := by
  induction bits generalizing span probs with
  | nil =>
      exact ⟨normalizeSpan_within span,
        (Nat.two_pow_pos 24).trans_le (width_normalizeSpan hspan).1⟩
  | cons coded bits ih =>
      obtain ⟨context, bit⟩ := coded
      obtain ⟨hlow, hhigh⟩ := width_normalizeSpan hspan
      obtain ⟨hwithin, hpos⟩ := ih (betweenSymbols_partSpan hlow hhigh probs context bit)
        (rcUpdate probs context bit)
      refine ⟨?_, hpos⟩
      have hpart := (partSpan_within hlow probs context bit).trans (normalizeSpan_within span)
      exact hwithin.trans hpart

/-- A normalised interval is left as it is. -/
theorem normalizeSpan_normalizeSpan {span : Span} (hspan : BetweenSymbols span) :
    normalizeSpan (normalizeSpan span) = normalizeSpan span ∧
      normalizeDigits (normalizeSpan span) = 0 := by
  have hwide := Nat.not_lt.mpr (width_normalizeSpan hspan).1
  rw [normalizeDigits, if_neg hwide]
  refine ⟨?_, rfl⟩
  generalize normalizeSpan span = wide at hwide ⊢
  rw [normalizeSpan, if_neg hwide]

theorem codeSpan_normalizeSpan {span : Span} (hspan : BetweenSymbols span)
    (probs : ι → Probability) (bits : List (RcContext ι × Bool)) :
    codeSpan (normalizeSpan span) probs bits = codeSpan span probs bits := by
  have hsame := (normalizeSpan_normalizeSpan hspan).1
  cases bits with
  | nil => rw [codeSpan, codeSpan, hsame]
  | cons coded bits => rw [codeSpan, codeSpan, hsame]

theorem codeDigits_normalizeSpan {span : Span} (hspan : BetweenSymbols span)
    (probs : ι → Probability) (bits : List (RcContext ι × Bool)) :
    normalizeDigits span + codeDigits (normalizeSpan span) probs bits =
      codeDigits span probs bits := by
  obtain ⟨hsame, hzero⟩ := normalizeSpan_normalizeSpan hspan
  cases bits with
  | nil => rw [codeDigits, codeDigits, hzero, Nat.add_zero]
  | cons coded bits => rw [codeDigits, codeDigits, hsame, hzero, Nat.zero_add]

end Interval

/-! ## The encoder's state as an interval -/

/-- Bytes as a number, the highest first. -/
def byteValue (bytes : Bytes) : ℕ := Positional.value 256 (bytes.map UInt8.toNat)

/-- The bytes written, the cached ones and `low` spell out a number. The cached bytes are
one less than a number that ends in zeros, hence the added `2 ^ 32`. -/
def Spells (written : Bytes) (rc : LzmaRangeEncoder) (number : ℕ) : Prop :=
  number + 2 ^ 32 =
    (byteValue written * 256 ^ rc.cacheSize +
      (rc.cache.toNat + 1) * 256 ^ (rc.cacheSize - 1)) * 2 ^ 32 + rc.low

/-- An interval of `width` above `low` makes at most one carry, and none into a cache it
would run through. -/
structure Fits (width : ℕ) (rc : LzmaRangeEncoder) : Prop where
  cached : 1 ≤ rc.cacheSize
  oneCarry : rc.low + width ≤ 2 ^ 33
  noCarry : rc.cache.toNat = 255 → rc.low + width ≤ 2 ^ 32

/-- The encoder holds an interval, given what it has written. -/
structure Holds (written : Bytes) (rc : LzmaRangeEncoder) (span : Span) : Prop where
  spells : Spells written rc span.low
  fits : Fits span.width rc
  range_eq : rc.range = span.width

section Spelling

open LzmaRangeEncoder

theorem byteValue_append (left right : Bytes) :
    byteValue (left ++ right) = byteValue left * 256 ^ right.length + byteValue right := by
  rw [byteValue, List.map_append, Positional.value_append, List.length_map]
  rfl

theorem byteValue_cons (byte : UInt8) (bytes : Bytes) :
    byteValue (byte :: bytes) = byte.toNat * 256 ^ bytes.length + byteValue bytes := by
  rw [byteValue, List.map_cons, Positional.value_cons, List.length_map]
  rfl

theorem byteValue_lt (bytes : Bytes) : byteValue bytes < 256 ^ bytes.length := by
  have hdigits : ∀ digit ∈ bytes.map UInt8.toNat, digit < 256 := by
    intro digit hdigit
    obtain ⟨byte, -, rfl⟩ := List.mem_map.mp hdigit
    exact byte.toNat_lt
  have hlt := Positional.value_lt hdigits
  rwa [List.length_map] at hlt

theorem byteValue_replicate_ff (count : ℕ) :
    byteValue (List.replicate count 0xFF) + 1 = 256 ^ count := by
  induction count with
  | zero => rfl
  | succ count ih =>
      rw [List.replicate_succ, byteValue_cons, List.length_replicate, Nat.add_assoc, ih, pow_succ]
      have hbyte : (0xFF : UInt8).toNat = 255 := rfl
      rw [hbyte]
      ring

theorem byteValue_replicate_zero (count : ℕ) :
    byteValue (List.replicate count 0) = 0 := by
  induction count with
  | zero => rfl
  | succ count ih => rw [List.replicate_succ, byteValue_cons, ih, UInt8.toNat_zero, Nat.zero_mul]

/-- A carry that runs through the cached bytes adds one to them. -/
theorem byteValue_cacheText {rc : LzmaRangeEncoder} {carry : ℕ} (hcarry : carry ≤ 1)
    (hroom : rc.cache.toNat + carry ≤ 255) :
    byteValue (rc.cacheText (UInt8.ofNat carry)) + 1 =
      (rc.cache.toNat + 1) * 256 ^ (rc.cacheSize - 1) + carry := by
  rw [cacheText, byteValue_cons, List.length_replicate]
  obtain rfl | rfl : carry = 0 ∨ carry = 1 := by omega
  · have hfirst : (rc.cache + UInt8.ofNat 0).toNat = rc.cache.toNat := by
      rw [UInt8.toNat_add]
      exact Nat.mod_eq_of_lt (rc.cache.toNat_lt)
    have hrest : (0xFF : UInt8) + UInt8.ofNat 0 = 0xFF := rfl
    rw [hfirst, hrest, Nat.add_assoc, byteValue_replicate_ff]
    ring
  · have hfirst : (rc.cache + UInt8.ofNat 1).toNat = rc.cache.toNat + 1 := by
      rw [UInt8.toNat_add]
      exact Nat.mod_eq_of_lt (by change rc.cache.toNat + 1 < 256; omega)
    have hrest : (0xFF : UInt8) + UInt8.ofNat 1 = 0 := rfl
    rw [hfirst, hrest, byteValue_replicate_zero, Nat.add_zero]

theorem low_shiftNext (rc : LzmaRangeEncoder) :
    rc.shiftNext.low = rc.low % 2 ^ 24 * 2 ^ 8 := by
  have hmask : rc.low &&& 0x00FFFFFF = rc.low % 2 ^ 24 := Nat.and_two_pow_sub_one_eq_mod _ 24
  rw [shiftNext]
  split
  · rw [rcDropByte, hmask, Nat.shiftLeft_eq]
  · rw [rcDropByte, hmask, Nat.shiftLeft_eq]

theorem settled_iff {rc : LzmaRangeEncoder} (hlow : rc.low < 2 ^ 33) :
    rc.Settled ↔ rc.low < 255 * 2 ^ 24 ∨ 2 ^ 32 ≤ rc.low := by
  rw [Settled, Nat.shiftRight_eq_div_pow]
  omega

theorem cache_shiftNext_of_settled {rc : LzmaRangeEncoder} (hsettled : rc.Settled) :
    rc.shiftNext.cacheSize = 1 ∧ rc.shiftNext.cache.toNat = rc.low / 2 ^ 24 % 256 := by
  rw [shiftNext, if_pos hsettled]
  refine ⟨rfl, ?_⟩
  have hmask : rc.low >>> 24 &&& 0xFF = rc.low >>> 24 % 2 ^ 8 :=
    Nat.and_two_pow_sub_one_eq_mod _ 8
  rw [rcDropByte, UInt8.toNat_ofNat', hmask, Nat.shiftRight_eq_div_pow]
  omega

theorem cache_shiftNext_of_not_settled {rc : LzmaRangeEncoder} (hsettled : ¬rc.Settled) :
    rc.shiftNext.cacheSize = rc.cacheSize + 1 ∧ rc.shiftNext.cache = rc.cache := by
  rw [shiftNext, if_neg hsettled]
  exact ⟨rfl, rfl⟩

/-- `rc_shift_low` multiplies the number by 256. -/
theorem Spells.shift {written : Bytes} {rc : LzmaRangeEncoder} {number width : ℕ}
    (hspells : Spells written rc number) (hfits : Fits width rc) (hwidth : 0 < width) :
    Spells (written ++ rc.shiftText) rc.shiftNext (number * 256) := by
  have hcarry := hfits.oneCarry
  have hlow : rc.low < 2 ^ 33 := by omega
  rw [Spells] at hspells ⊢
  rw [low_shiftNext]
  by_cases hsettled : rc.Settled
  · obtain ⟨hsize, hcache⟩ := cache_shiftNext_of_settled hsettled
    have hcache_lt := rc.cache.toNat_lt
    have hno := hfits.noCarry
    have hcarried : rc.cache.toNat + rc.low >>> 32 ≤ 255 := by
      rw [Nat.shiftRight_eq_div_pow]
      omega
    have hone : rc.low >>> 32 ≤ 1 := by
      rw [Nat.shiftRight_eq_div_pow]
      omega
    have htext := byteValue_cacheText hone hcarried
    have hlength : (rc.cacheText (UInt8.ofNat (rc.low >>> 32))).length = rc.cacheSize := by
      have hcached := hfits.cached
      rw [cacheText, List.length_cons, List.length_replicate]
      omega
    rw [hsize, hcache, shiftText, if_pos hsettled, byteValue_append, hlength]
    rw [Nat.shiftRight_eq_div_pow] at htext ⊢
    generalize byteValue written * 256 ^ rc.cacheSize = front at hspells ⊢
    generalize (rc.cache.toNat + 1) * 256 ^ (rc.cacheSize - 1) = cached at hspells htext
    generalize byteValue (rc.cacheText (UInt8.ofNat (rc.low / 2 ^ 32))) = text at htext ⊢
    rw [Nat.sub_self, pow_zero, pow_one, Nat.mul_one]
    omega
  · obtain ⟨hsize, hcache⟩ := cache_shiftNext_of_not_settled hsettled
    rw [settled_iff hlow] at hsettled
    rw [hsize, hcache, shiftText, if_neg (by rwa [settled_iff hlow]), List.append_nil,
      Nat.add_sub_cancel]
    obtain ⟨size, hsize⟩ : ∃ size, rc.cacheSize = size + 1 :=
      ⟨rc.cacheSize - 1, by have := hfits.cached; omega⟩
    rw [hsize, Nat.add_sub_cancel] at hspells
    have hfront : byteValue written * 256 ^ (size + 1 + 1) =
        byteValue written * 256 ^ (size + 1) * 256 := by ring
    have hcached : (rc.cache.toNat + 1) * 256 ^ (size + 1) =
        (rc.cache.toNat + 1) * 256 ^ size * 256 := by ring
    rw [hsize, hfront, hcached]
    generalize byteValue written * 256 ^ (size + 1) = front at hspells ⊢
    generalize (rc.cache.toNat + 1) * 256 ^ size = cached at hspells ⊢
    omega

/-- And it makes room for one more byte of the interval. -/
theorem Fits.shift {rc : LzmaRangeEncoder} {width : ℕ} (hfits : Fits width rc)
    (hpos : 0 < width) (hwidth : width ≤ 2 ^ 24) : Fits (width * 256) rc.shiftNext := by
  obtain ⟨hcached, hone, hno⟩ := hfits
  have hlow : rc.low < 2 ^ 33 := by omega
  refine ⟨one_le_cacheSize_shiftNext rc, ?_, ?_⟩
  · rw [low_shiftNext]
    omega
  · rw [low_shiftNext]
    by_cases hsettled : rc.Settled
    · rw [(cache_shiftNext_of_settled hsettled).2]
      rw [settled_iff hlow] at hsettled
      omega
    · rw [(cache_shiftNext_of_not_settled hsettled).2]
      rw [settled_iff hlow] at hsettled
      intro hcache
      have := hno hcache
      omega

/-- The bytes written and cached grow by one in every shift. -/
theorem length_shift (written : Bytes) {rc : LzmaRangeEncoder} (hcached : 1 ≤ rc.cacheSize) :
    (written ++ rc.shiftText).length + rc.shiftNext.cacheSize =
      written.length + rc.cacheSize + 1 := by
  rw [List.length_append, shiftText]
  by_cases hsettled : rc.Settled
  · rw [if_pos hsettled, (cache_shiftNext_of_settled hsettled).1, cacheText, List.length_cons,
      List.length_replicate]
    omega
  · rw [if_neg hsettled, (cache_shiftNext_of_not_settled hsettled).1, List.length_nil]
    omega

theorem Fits.mono {rc : LzmaRangeEncoder} {width narrower : ℕ} (hfits : Fits width rc)
    (hle : narrower ≤ width) : Fits narrower rc := by
  obtain ⟨hcached, hone, hno⟩ := hfits
  exact ⟨hcached, by omega, fun hcache => by have := hno hcache; omega⟩

theorem Holds.normalize {written : Bytes} {rc : LzmaRangeEncoder} {span : Span}
    (hholds : Holds written rc span) (hspan : BetweenSymbols span) :
    Holds (written ++ rc.normalizeText) rc.normalizeNext (normalizeSpan span) := by
  obtain ⟨hspells, hfits, hrange⟩ := hholds
  obtain ⟨hlower, hupper⟩ := hspan
  rw [normalizeText, normalizeNext, normalizeSpan, hrange]
  by_cases hnarrow : span.width < 2 ^ 24
  · rw [if_pos hnarrow, if_pos hnarrow, if_pos hnarrow]
    have hpos : 0 < span.width := by omega
    refine ⟨hspells.shift hfits hpos, ?_, ?_⟩
    · obtain ⟨hcached, hone, hno⟩ := hfits.shift hpos hnarrow.le
      exact ⟨hcached, hone, hno⟩
    · dsimp only [Span.zoom]
      rw [Nat.shiftLeft_eq]
      omega
  · rw [if_neg hnarrow, if_neg hnarrow, if_neg hnarrow, List.append_nil]
    exact ⟨hspells, hfits, hrange⟩

theorem length_normalize (written : Bytes) {rc : LzmaRangeEncoder} {span : Span}
    (hholds : Holds written rc span) :
    (written ++ rc.normalizeText).length + rc.normalizeNext.cacheSize =
      written.length + rc.cacheSize + normalizeDigits span := by
  rw [normalizeText, normalizeNext, normalizeDigits, hholds.range_eq]
  by_cases hnarrow : span.width < 2 ^ 24
  · rw [if_pos hnarrow, if_pos hnarrow, if_pos hnarrow]
    exact length_shift written hholds.fits.cached
  · rw [if_neg hnarrow, if_neg hnarrow, if_neg hnarrow, List.append_nil, Nat.add_zero]

theorem Holds.encodeBit {written : Bytes} {rc : LzmaRangeEncoder} {span : Span}
    (hholds : Holds written rc span) (hlow : 2 ^ 24 ≤ span.width) (probs : ι → Probability)
    (context : RcContext ι) (bit : Bool) :
    Holds written (rcEncodeBit rc probs context bit) (partSpan span probs context bit) := by
  obtain ⟨hspells, ⟨hcached, hone, hno⟩, hrange⟩ := hholds
  obtain ⟨hbound, hrest⟩ := rcBound_bounds hlow probs context
  -- a part begins at the bound or at the start, and ends where the interval does at most
  have hinside := partSpan_within hlow probs context bit
  have hlower : (partSpan span probs context bit).low + rc.low =
      span.low + (rcEncodeBit rc probs context bit).low := by
    cases context <;> cases bit <;>
      simp only [partSpan, rcEncodeBit, Span.narrow, hrange] <;> omega
  have hwidth : (rcEncodeBit rc probs context bit).range =
      (partSpan span probs context bit).width := by
    cases context <;> cases bit <;> simp only [partSpan, rcEncodeBit, Span.narrow, hrange]
  have hsame : (rcEncodeBit rc probs context bit).cacheSize = rc.cacheSize ∧
      (rcEncodeBit rc probs context bit).cache = rc.cache := by
    cases context <;> cases bit <;> exact ⟨rfl, rfl⟩
  have hhigh := hinside.le_high
  rw [pow_zero, Nat.mul_one] at hhigh
  refine ⟨?_, ⟨?_, ?_, ?_⟩, hwidth⟩
  · rw [Spells] at hspells ⊢
    rw [hsame.1, hsame.2]
    omega
  · rwa [hsame.1]
  · omega
  · rw [hsame.2]
    intro hcache
    have := hno hcache
    omega

theorem Spells.flush {written : Bytes} {rc : LzmaRangeEncoder} {number : ℕ} (flushes : ℕ)
    (hspells : Spells written rc number) (hfits : Fits 1 rc) :
    Spells (written ++ flushText flushes rc) (flushNext flushes rc) (number * 256 ^ flushes) ∧
      (written ++ flushText flushes rc).length + (flushNext flushes rc).cacheSize =
        written.length + rc.cacheSize + flushes := by
  induction flushes generalizing written rc number with
  | zero =>
      rw [flushText, flushNext, List.append_nil, pow_zero, Nat.mul_one]
      exact ⟨hspells, rfl⟩
  | succ flushes ih =>
      have hnext := (hfits.shift Nat.one_pos (by norm_num)).mono (by norm_num : 1 ≤ 1 * 256)
      obtain ⟨hlater, hlength⟩ := ih (hspells.shift hfits Nat.one_pos) hnext
      rw [flushText, flushNext, ← List.append_assoc]
      refine ⟨?_, ?_⟩
      · rwa [Nat.mul_assoc, ← pow_succ'] at hlater
      · rw [hlength, length_shift written hfits.cached]
        omega

/-- Four shifts move all of `low` into the cache, and the fifth writes it. -/
theorem flushNext_five (rc : LzmaRangeEncoder) :
    (flushNext 5 rc).low = 0 ∧ (flushNext 5 rc).cacheSize = 1 ∧
      (flushNext 5 rc).cache.toNat = 0 := by
  have hfour : (flushNext 4 rc).low = 0 := by
    simp only [flushNext, low_shiftNext]
    omega
  have hlast : flushNext 5 rc = (flushNext 4 rc).shiftNext := rfl
  have hsettled : (flushNext 4 rc).Settled := by
    rw [Settled, hfour]
    norm_num
  obtain ⟨hsize, hcache⟩ := cache_shiftNext_of_settled hsettled
  rw [hlast, low_shiftNext, hsize, hcache, hfour]
  exact ⟨rfl, rfl, rfl⟩

/-- A flush of five symbols leaves the number behind, byte by byte. -/
theorem Spells.flushed {written : Bytes} {rc : LzmaRangeEncoder} {number : ℕ}
    (hspells : Spells written rc number) (hfits : Fits 1 rc) :
    byteValue (written ++ flushText 5 rc) = number ∧
      (written ++ flushText 5 rc).length = written.length + rc.cacheSize + 4 := by
  obtain ⟨hlater, hlength⟩ := hspells.flush 5 hfits
  obtain ⟨hlow, hsize, hcache⟩ := flushNext_five rc
  rw [Spells, hlow, hsize, hcache] at hlater
  rw [hsize] at hlength
  constructor
  · norm_num at hlater
    omega
  · omega

variable [DecidableEq ι]

/-- What a queue of bits and a flush writes is the lower end of what the bits leave of the
interval. -/
theorem Holds.encode {written : Bytes} {rc : LzmaRangeEncoder} {span : Span}
    (hholds : Holds written rc span) (hspan : BetweenSymbols span) (probs : ι → Probability)
    (bits : List (RcContext ι × Bool)) :
    byteValue (written ++ rc.encodeText probs bits 5) = (codeSpan span probs bits).low ∧
      (written ++ rc.encodeText probs bits 5).length =
        written.length + rc.cacheSize + 4 + codeDigits span probs bits := by
  induction bits generalizing written rc span probs with
  | nil =>
      obtain ⟨hspells, hfits, hrange⟩ := hholds.normalize hspan
      have hone : Fits 1 (rcWiden rc.normalizeNext) := by
        have hwide := (width_normalizeSpan hspan).1
        obtain ⟨hcached, hone, hno⟩ := hfits.mono (Nat.one_le_two_pow.trans hwide)
        exact ⟨hcached, hone, hno⟩
      have hwidened : Spells (written ++ rc.normalizeText) (rcWiden rc.normalizeNext)
          (normalizeSpan span).low := hspells
      obtain ⟨hvalue, hlength⟩ := hwidened.flushed hone
      rw [encodeText, ← List.append_assoc, codeSpan, codeDigits]
      refine ⟨hvalue, ?_⟩
      have hcount := length_normalize written hholds
      rw [hlength]
      change _ + rc.normalizeNext.cacheSize + 4 = _
      omega
  | cons coded bits ih =>
      obtain ⟨context, bit⟩ := coded
      obtain ⟨hlow, hhigh⟩ := width_normalizeSpan hspan
      obtain ⟨hvalue, hlength⟩ := ih
        ((hholds.normalize hspan).encodeBit hlow probs context bit)
        (betweenSymbols_partSpan hlow hhigh probs context bit) (rcUpdate probs context bit)
      rw [encodeText, ← List.append_assoc, codeSpan, codeDigits]
      refine ⟨hvalue, ?_⟩
      have hcount := length_normalize written hholds
      rw [hlength, cacheSize_rcEncodeBit]
      omega

/-- The interval of `rc_reset`. -/
def initialSpan : Span := ⟨0, 2 ^ 32 - 1⟩

theorem betweenSymbols_initialSpan : BetweenSymbols initialSpan := by
  constructor <;> norm_num [initialSpan]

theorem holds_rcReset : Holds [] rcReset initialSpan := by
  refine ⟨?_, ⟨le_rfl, ?_, ?_⟩, rfl⟩
  · norm_num [Spells, rcReset, byteValue, Positional.value, initialSpan]
  · norm_num [rcReset, initialSpan]
  · norm_num [rcReset, initialSpan]

/-- The bytes of a fresh encoder. -/
theorem encodeText_rcReset (probs : ι → Probability) (bits : List (RcContext ι × Bool)) :
    byteValue (rcReset.encodeText probs bits 5) = (codeSpan initialSpan probs bits).low ∧
      (rcReset.encodeText probs bits 5).length = 5 + codeDigits initialSpan probs bits :=
  holds_rcReset.encode betweenSymbols_initialSpan probs bits

end Spelling

end Dht
