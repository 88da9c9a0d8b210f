/-
# The LZMA encoder

`lzma_lzma_encode` asks an optimiser for the next symbol, queues its bits and lets the
range encoder write them, until the input or the chunk is used up; then it flushes. Which
symbols the optimiser chooses decides how well the data are compressed, but not what they
decode to: all that matters is that a match it chooses is one. The choices are a
parameter here, and `Parses` says that they are such.

In LZMA2 the output buffer holds a whole chunk, so the range encoder never stops in the
middle. What a chunk then consists of is the text of all bits of its symbols, in one.
-/

import Dht.Liblzma.Dictionary
import Dht.Liblzma.LzmaSymbols
import Dht.Liblzma.RangeDecoder

namespace Dht

open Resumable

/-- What decides about the output of the LZMA encoder. -/
structure LzmaEncoder where
  rc : LzmaRangeEncoder
  probs : LzmaProb → Probability
  model : LzmaModel

/-- `lzma_lzma_encoder_reset`, without the prices. -/
def LzmaEncoder.reset : LzmaEncoder := ⟨rcReset, fun _ => bitReset, .reset⟩

/-- What the encoder finds in its window around the next symbol. -/
def symbolContext (model : LzmaModel) (history : Bytes) : LiteralContext :=
  ⟨history.length, history.getD 0 0, history.getD model.rep0 0⟩

/-- One symbol of the data ahead. -/
def encodeNextSymbol (props : LzmaProps) (model : LzmaModel) (history ahead : Bytes)
    (back len : ℕ) : List LzmaBit × LzmaModel :=
  encodeSymbol props model (symbolContext model history) (ahead.headD 0) back len

/-- `encode_init`, which encodes the first byte of all. -/
def encodeInit (byte : UInt8) : List LzmaBit :=
  (.prob (.isMatch .litLit 0), false) :: rcBittree (.literal 0) 8 byte.toNat

/-- The first symbol need not be treated apart. -/
theorem encodeInit_eq (props : LzmaProps) (byte : UInt8) (data : Bytes) :
    encodeNextSymbol props .reset [] (byte :: data) (2 ^ 32 - 1) 1 =
      (encodeInit byte, .reset) := by
  have hposition : props.posState 0 = 0 := Nat.zero_and _
  have hsubcoder : props.literalSubcoder 0 0 = 0 := by
    rw [LzmaProps.literalSubcoder, Nat.zero_and, Nat.zero_shiftLeft, UInt8.toNat_zero,
      Nat.zero_shiftRight]
  rw [encodeNextSymbol, encodeSymbol, if_pos rfl]
  change ((RcContext.prob (LzmaProb.isMatch .litLit (props.posState 0)), false) ::
    rcBittree (LzmaProb.literal (props.literalSubcoder 0 0)) 8 byte.toNat, LzmaModel.reset) = _
  rw [hposition, hsubcoder]
  rfl

/-- The loop of `lzma_lzma_encode` over the choices of the optimiser, and the flush. -/
def lzmaEncode (props : LzmaProps) (room : ℕ) (coder : LzmaEncoder) (history ahead : Bytes) :
    List (ℕ × ℕ) → Written UInt8 LzmaEncoder
  | [] =>
      (rcEncode room coder.rc coder.probs (rcSymbols [] 5)).andThen room
        (fun queue => ⟨queue.rc, queue.probs, coder.model⟩)
        fun _ queue => ⟨false, [], ⟨queue.rc, queue.probs, coder.model⟩⟩
  | (back, len) :: choices =>
      let coded := encodeNextSymbol props coder.model history ahead back len
      (rcEncode room coder.rc coder.probs (rcSymbols coded.1 0)).andThen room
        (fun queue => ⟨queue.rc, queue.probs, coded.2⟩)
        fun room queue => lzmaEncode props room ⟨queue.rc, queue.probs, coded.2⟩
          ((ahead.take len).reverse ++ history) (ahead.drop len) choices

/-! ## All bits of a chunk -/

/-- The bits of the symbols that were chosen, and the state after them. -/
def chunkBits (props : LzmaProps) (model : LzmaModel) (history ahead : Bytes) :
    List (ℕ × ℕ) → List LzmaBit × LzmaModel
  | [] => ([], model)
  | (back, len) :: choices =>
      let coded := encodeNextSymbol props model history ahead back len
      let rest := chunkBits props coded.2 ((ahead.take len).reverse ++ history)
        (ahead.drop len) choices
      (coded.1 ++ rest.1, rest.2)

section Text

variable {ι : Type} [DecidableEq ι]

/-- The range encoder writes the bits of two queues as those of one. -/
theorem encodeText_append (rc : LzmaRangeEncoder) (probs : ι → Probability)
    (bits more : List (RcContext ι × Bool)) (flushes : ℕ) :
    rc.encodeText probs (bits ++ more) flushes =
      rc.encodeText probs bits 0 ++
        (rc.encodeNext probs bits 0).rc.encodeText (rc.encodeNext probs bits 0).probs more
          flushes := by
  induction bits generalizing rc probs with
  | nil => rfl
  | cons coded bits ih =>
      obtain ⟨context, bit⟩ := coded
      rw [List.cons_append, LzmaRangeEncoder.encodeText, ih, LzmaRangeEncoder.encodeText,
        LzmaRangeEncoder.encodeNext, List.append_assoc]

theorem rcUpdates_append (probs : ι → Probability) (bits more : List (RcContext ι × Bool)) :
    rcUpdates probs (bits ++ more) = rcUpdates (rcUpdates probs bits) more := by
  induction bits generalizing probs with
  | nil => rfl
  | cons coded bits ih => exact ih _

theorem probs_encodeNext (rc : LzmaRangeEncoder) (probs : ι → Probability)
    (bits : List (RcContext ι × Bool)) :
    (rc.encodeNext probs bits 0).probs = rcUpdates probs bits := by
  induction bits generalizing rc probs with
  | nil => rfl
  | cons coded bits ih => exact ih _ _

theorem one_le_cacheSize_encodeNext {rc : LzmaRangeEncoder} (hcache : 1 ≤ rc.cacheSize)
    (probs : ι → Probability) (bits : List (RcContext ι × Bool)) :
    1 ≤ (rc.encodeNext probs bits 0).rc.cacheSize := by
  induction bits generalizing rc probs with
  | nil => exact hcache
  | cons coded bits ih =>
      exact ih ((one_le_cacheSize_normalizeNext hcache).trans_eq
        (cacheSize_rcEncodeBit _ _ _ _).symm) _

end Text

/-- **A chunk.** Whatever the choices, the symbols of a chunk are written as one text, as
far as there is room for it, and the encoder is left as a decoder of the same bits is:
with a fresh range coder and adapted probabilities. -/
theorem fills_lzmaEncode (props : LzmaProps) (room : ℕ) (coder : LzmaEncoder)
    (hcache : 1 ≤ coder.rc.cacheSize) (history ahead : Bytes) (choices : List (ℕ × ℕ)) :
    Fills room
      (coder.rc.encodeText coder.probs (chunkBits props coder.model history ahead choices).1 5)
      (· = ⟨rcReset,
        rcUpdates coder.probs (chunkBits props coder.model history ahead choices).1,
        (chunkBits props coder.model history ahead choices).2⟩)
      (fun _ _ => True) (lzmaEncode props room coder history ahead choices) := by
  induction choices generalizing room coder history ahead with
  | nil =>
      rw [lzmaEncode, chunkBits]
      rw [← List.append_nil (coder.rc.encodeText _ _ _)]
      refine (fills_rcEncode room [] 5 coder.probs hcache).andThen _ _ (fun _ _ _ => trivial) ?_
      rintro _ rfl -
      exact .finished (Nat.zero_le _) rfl
  | cons choice choices ih =>
      obtain ⟨back, len⟩ := choice
      rw [lzmaEncode, chunkBits]
      dsimp only
      generalize encodeNextSymbol props coder.model history ahead back len = coded
      rw [encodeText_append]
      refine (fills_rcEncode room coded.1 0 coder.probs hcache).andThen _ _
        (fun _ _ _ => trivial) ?_
      rintro _ rfl -
      have hrest := ih (room - (coder.rc.encodeText coder.probs coded.1 0).length)
        ⟨(coder.rc.encodeNext coder.probs coded.1 0).rc,
          (coder.rc.encodeNext coder.probs coded.1 0).probs, coded.2⟩
        (one_le_cacheSize_encodeNext hcache _ _) ((ahead.take len).reverse ++ history)
        (ahead.drop len)
      rw [rcUpdates_append, ← probs_encodeNext coder.rc coder.probs coded.1]
      exact hrest

/-! ## Choices -/

/-- What may be chosen where `history` has been encoded and `data` is ahead: a literal, or
a match at a distance that the decoder still has in its dictionary. -/
structure Chooses (window : ℕ) (history data : Bytes) (distance back len : ℕ) : Prop where
  codable : Codable back len
  len_le : len ≤ data.length
  literal : back = 2 ^ 32 - 1 → len = 1
  repeats : back ≠ 2 ^ 32 - 1 → distance < min history.length window ∧
    copyHistory distance len history = (data.take len).reverse ++ history

/-- All choices of a chunk are allowed, and together they cover its data. -/
def Parses (props : LzmaProps) (window : ℕ) (model : LzmaModel) (history data : Bytes) :
    List (ℕ × ℕ) → Prop
  | [] => data = []
  | (back, len) :: choices =>
      let after := (encodeNextSymbol props model history data back len).2
      Chooses window history data after.rep0 back len ∧
        Parses props window after ((data.take len).reverse ++ history) (data.drop len) choices

end Dht
