/-
# The range decoder of liblzma

`range_decoder.h` is a set of macros that decode one bit each and leave the function they
are used in when the input is used up. What such a function does between two bits is a
`Dialogue`: the context of the next bit and, for either value of it, how to go on. A
decoder that ran out of input keeps the dialogue it is in, which is what the C code keeps
in `sequence` and the variables saved beside it.

`Synced` relates a decoder and its input to the bits an encoder has put into it. Decoding
one bit keeps it, so whatever dialogue an encoder has followed, the decoder follows too;
it ends with `code` zero and with the input used up to the last byte.
-/

import Dht.Compression.Lzma
import Dht.Lib.Dialogue
import Dht.Liblzma.RangeEncoder

namespace Dht

/-- `lzma_range_decoder`. -/
@[ext]
structure LzmaRangeDecoder where
  range : ℕ
  code : ℕ
  initBytesLeft : ℕ
  deriving DecidableEq

namespace LzmaRangeDecoder

/-- `rc_reset` of the decoder. -/
def reset : LzmaRangeDecoder where
  range := 2 ^ 32 - 1
  code := 0
  initBytesLeft := 5

/-- `rc.code = (rc.code << 8) | byte` -/
def shiftIn (code : ℕ) (byte : UInt8) : ℕ := (code <<< 8) % 2 ^ 32 ||| byte.toNat

/-- `rc_read_init`: the return code, the decoder and the input that is left. -/
def readInit (rc : LzmaRangeDecoder) : Bytes → LzmaRet × LzmaRangeDecoder × Bytes
  | [] => if rc.initBytesLeft = 0 then (.streamEnd, rc, []) else (.ok, rc, [])
  | byte :: input =>
      if rc.initBytesLeft = 0 then (.streamEnd, rc, byte :: input)
      -- the first byte is always `0x00`
      else if rc.initBytesLeft = 5 ∧ byte ≠ 0 then (.dataError, rc, byte :: input)
      else
        readInit { rc with
          code := shiftIn rc.code byte, initBytesLeft := rc.initBytesLeft - 1 } input

/-- `rc_normalize`, with nothing if it needs a byte that is not there. -/
def normalize (rc : LzmaRangeDecoder) : Bytes → Option (LzmaRangeDecoder × Bytes)
  | [] => if rc.range < 2 ^ 24 then none else some (rc, [])
  | byte :: input =>
      if rc.range < 2 ^ 24 then
        some ({ rc with range := (rc.range <<< 8) % 2 ^ 32, code := shiftIn rc.code byte }, input)
      else some (rc, byte :: input)

/-- `rc_is_finished`. -/
def isFinished (rc : LzmaRangeDecoder) : Bool := rc.code = 0

/-- `rc_direct` after its normalisation. The sign of the difference makes a mask that
adds the subtracted half back. -/
def directBit (rc : LzmaRangeDecoder) : Bool × LzmaRangeDecoder :=
  let range := rc.range >>> 1
  let code := (rc.code + (2 ^ 32 - range)) % 2 ^ 32
  let bound := (2 ^ 32 - code >>> 31) % 2 ^ 32
  (decide ((bound + 1) % 2 ^ 32 = 1),
    { rc with range := range, code := (code + (range &&& bound)) % 2 ^ 32 })

variable {ι : Type}

/-- `rc_if_0` with `rc_update_0` and `rc_update_1`, or `rc_direct`, after the
normalisation. -/
def decodeBit (rc : LzmaRangeDecoder) (probs : ι → Probability) :
    RcContext ι → Bool × LzmaRangeDecoder
  | .prob index =>
      let bound := rcBound rc.range probs (.prob index)
      if rc.code < bound then (false, { rc with range := bound })
      else (true, { rc with range := rc.range - bound, code := rc.code - bound })
  | .direct => rc.directBit

end LzmaRangeDecoder

variable {ι α : Type}

/-- The decoder with the probabilities it adapts. -/
structure RangeReader (ι : Type) where
  rc : LzmaRangeDecoder
  probs : ι → Probability

/-- Where a dialogue stops: at its end, or at a question for which input is missing. -/
inductive Reading (ι α : Type)
  | finished (result : α) (reader : RangeReader ι) (rest : Bytes)
  | starved (dialogue : Dialogue (RcContext ι) α) (reader : RangeReader ι)

/-- Answer the questions of a dialogue from the input. Every index has a probability. -/
def RangeReader.read [DecidableEq ι] :
    Dialogue (RcContext ι) α → RangeReader ι → Bytes → Reading ι α
  | .done result, reader, input => .finished result reader input
  | .ask context next, reader, input =>
      match reader.rc.normalize input with
      | none => .starved (.ask context next) reader
      | some (rc, rest) =>
          let (bit, rc) := rc.decodeBit reader.probs context
          read (next bit) ⟨rc, rcUpdate reader.probs context bit⟩ rest

/-- The same where the probabilities are elements of arrays. An index outside its array is
undefined as soon as the bit is decoded. -/
def RangeReader.readWithin [DecidableEq ι] (Inside : RcContext ι → Prop)
    [DecidablePred Inside] :
    Dialogue (RcContext ι) α → RangeReader ι → Bytes → Outcome (Reading ι α)
  | .done result, reader, input => .ok (.finished result reader input)
  | .ask context next, reader, input =>
      match reader.rc.normalize input with
      | none => .ok (.starved (.ask context next) reader)
      | some (rc, rest) =>
          if Inside context then
            let (bit, rc) := rc.decodeBit reader.probs context
            readWithin Inside (next bit) ⟨rc, rcUpdate reader.probs context bit⟩ rest
          else undefined

/-- Go on with more input. -/
def Reading.resume [DecidableEq ι] (reading : Reading ι α) (more : Bytes) : Reading ι α :=
  match reading with
  | .finished result reader rest => .finished result reader (rest ++ more)
  | .starved dialogue reader => reader.read dialogue more

/-! ## Independence of the input buffers -/

theorem LzmaRangeDecoder.normalize_wide {rc : LzmaRangeDecoder} (hwide : ¬rc.range < 2 ^ 24)
    (input : Bytes) : rc.normalize input = some (rc, input) := by
  cases input with
  | nil => rw [normalize, if_neg hwide]
  | cons byte input => rw [normalize, if_neg hwide]

/-- A normalisation that has its byte does not look further. -/
theorem LzmaRangeDecoder.normalize_append {rc after : LzmaRangeDecoder} {input rest : Bytes}
    (hsome : rc.normalize input = some (after, rest)) (more : Bytes) :
    rc.normalize (input ++ more) = some (after, rest ++ more) := by
  by_cases hnarrow : rc.range < 2 ^ 24
  · cases input with
    | nil =>
        rw [normalize, if_pos hnarrow] at hsome
        cases hsome
    | cons byte input =>
        rw [normalize, if_pos hnarrow] at hsome
        cases hsome
        rw [List.cons_append, normalize, if_pos hnarrow]
  · rw [normalize_wide hnarrow] at hsome ⊢
    cases hsome
    rfl

/-- A normalisation fails on an empty input only. -/
theorem LzmaRangeDecoder.eq_nil_of_normalize {rc : LzmaRangeDecoder} {input : Bytes}
    (hnone : rc.normalize input = none) : input = [] := by
  cases input with
  | nil => rfl
  | cons byte input =>
      rw [normalize] at hnone
      split at hnone
      · cases hnone
      · cases hnone

/-- Input that arrives in two parts is read as one. -/
theorem RangeReader.read_append [DecidableEq ι] (dialogue : Dialogue (RcContext ι) α)
    (reader : RangeReader ι) (input more : Bytes) :
    reader.read dialogue (input ++ more) = (reader.read dialogue input).resume more := by
  induction dialogue generalizing reader input with
  | done result => rfl
  | ask context next ih =>
      cases hnormalize : reader.rc.normalize input with
      | none =>
          cases LzmaRangeDecoder.eq_nil_of_normalize hnormalize
          have hstarved : reader.read (.ask context next) [] =
              .starved (.ask context next) reader := by
            rw [read, hnormalize]
          rw [hstarved]
          rfl
      | some pair =>
          obtain ⟨rc, rest⟩ := pair
          rw [read, read, hnormalize, LzmaRangeDecoder.normalize_append hnormalize more]
          exact ih _ _ _

/-! ## Any input -/

/-- The range of a decoder between two bits, whatever its input. -/
def LzmaRangeDecoder.InRange (rc : LzmaRangeDecoder) : Prop :=
  2 ^ 16 ≤ rc.range ∧ rc.range < 2 ^ 32

/-- A decoder that has read its first bytes. -/
def LzmaRangeDecoder.Ready (rc : LzmaRangeDecoder) : Prop := rc.initBytesLeft = 0 ∧ rc.InRange

section Ready

variable {rc after : LzmaRangeDecoder} {input rest : Bytes}

theorem LzmaRangeDecoder.inRange_reset : reset.InRange := by
  rw [InRange, reset]
  norm_num

/-- `rc_read_init` does not touch the range, and ends ready or in want of input. -/
theorem LzmaRangeDecoder.InRange.readInit (hrange : rc.InRange) (input : Bytes) :
    (∃ after rest, rc.readInit input = (.streamEnd, after, rest) ∧ after.Ready ∧
        rest <:+ input) ∨
      (∃ after, rc.readInit input = (.ok, after, []) ∧ after.InRange) ∨
      ∃ after rest, rc.readInit input = (.dataError, after, rest) ∧ after.InRange ∧
        rest <:+ input := by
  induction input generalizing rc with
  | nil =>
      rw [LzmaRangeDecoder.readInit]
      by_cases hdone : rc.initBytesLeft = 0
      · rw [if_pos hdone]
        exact .inl ⟨_, _, rfl, ⟨hdone, hrange⟩, List.suffix_refl _⟩
      · rw [if_neg hdone]
        exact .inr (.inl ⟨_, rfl, hrange⟩)
  | cons byte input ih =>
      rw [LzmaRangeDecoder.readInit]
      by_cases hdone : rc.initBytesLeft = 0
      · rw [if_pos hdone]
        exact .inl ⟨_, _, rfl, ⟨hdone, hrange⟩, List.suffix_refl _⟩
      · rw [if_neg hdone]
        by_cases hfirst : rc.initBytesLeft = 5 ∧ byte ≠ 0
        · rw [if_pos hfirst]
          exact .inr (.inr ⟨_, _, rfl, hrange, List.suffix_refl _⟩)
        · rw [if_neg hfirst]
          have hnext : InRange { rc with
              code := shiftIn rc.code byte, initBytesLeft := rc.initBytesLeft - 1 } := hrange
          obtain ⟨after, rest, hread, hready, hsuffix⟩ | ⟨after, hread, hafter⟩ |
            ⟨after, rest, hread, hafter, hsuffix⟩ := ih hnext
          · exact .inl ⟨after, rest, hread, hready, hsuffix.trans (List.suffix_cons byte input)⟩
          · exact .inr (.inl ⟨after, hread, hafter⟩)
          · exact .inr (.inr ⟨after, rest, hread, hafter,
              hsuffix.trans (List.suffix_cons byte input)⟩)

theorem LzmaRangeDecoder.Ready.normalize (hready : rc.Ready)
    (hnormalize : rc.normalize input = some (after, rest)) :
    after.Ready ∧ 2 ^ 24 ≤ after.range ∧ rest <:+ input := by
  obtain ⟨hinit, hlow, hhigh⟩ := hready
  by_cases hnarrow : rc.range < 2 ^ 24
  · cases input with
    | nil =>
        rw [LzmaRangeDecoder.normalize, if_pos hnarrow] at hnormalize
        cases hnormalize
    | cons byte input =>
        rw [LzmaRangeDecoder.normalize, if_pos hnarrow] at hnormalize
        cases hnormalize
        have hrange : rc.range <<< 8 % 2 ^ 32 = rc.range * 256 := by
          rw [Nat.shiftLeft_eq, Nat.mod_eq_of_lt (by omega)]
        refine ⟨⟨hinit, ?_, ?_⟩, ?_, List.suffix_cons byte rest⟩ <;>
          · dsimp only
            omega
  · rw [normalize_wide hnarrow] at hnormalize
    cases hnormalize
    exact ⟨⟨hinit, hlow, hhigh⟩, Nat.not_lt.mp hnarrow, List.suffix_refl _⟩

theorem LzmaRangeDecoder.Ready.decodeBit (hready : rc.Ready) (hwide : 2 ^ 24 ≤ rc.range)
    (probs : ι → Probability) (context : RcContext ι) :
    (rc.decodeBit probs context).2.Ready := by
  obtain ⟨hinit, hlow, hhigh⟩ := hready
  obtain ⟨hbound, hrest⟩ := rcBound_bounds hwide probs context
  cases context with
  | prob index =>
      rw [LzmaRangeDecoder.decodeBit]
      split
      · exact ⟨hinit, hbound, by dsimp only; omega⟩
      · exact ⟨hinit, by dsimp only; omega, by dsimp only; omega⟩
  | direct => exact ⟨hinit, hbound, show rcBound rc.range probs .direct < 2 ^ 32 by omega⟩

/-- Reading keeps a decoder ready, a dialogue what it meets, and the rest of the input a
rest of it. -/
theorem RangeReader.read_cases [DecidableEq ι] {Asked : RcContext ι → Prop} {Ended : α → Prop}
    {dialogue : Dialogue (RcContext ι) α} (hmeets : dialogue.Meets Asked Ended)
    {reader : RangeReader ι} (hready : reader.rc.Ready) (input : Bytes) :
    (∃ result after rest, reader.read dialogue input = .finished result after rest ∧
        Ended result ∧ after.rc.Ready ∧ rest <:+ input) ∨
      ∃ left after, reader.read dialogue input = .starved left after ∧
        left.Meets Asked Ended ∧ after.rc.Ready := by
  induction dialogue generalizing reader input with
  | done result => exact .inl ⟨result, reader, input, rfl, hmeets, hready, List.suffix_refl _⟩
  | ask context next ih =>
      cases hnormalize : reader.rc.normalize input with
      | none =>
          refine .inr ⟨.ask context next, reader, ?_, hmeets, hready⟩
          rw [read, hnormalize]
      | some pair =>
          obtain ⟨rc, rest⟩ := pair
          obtain ⟨hrc, hwide, hsuffix⟩ := hready.normalize hnormalize
          have hbit : (⟨(rc.decodeBit reader.probs context).2, rcUpdate reader.probs context
              (rc.decodeBit reader.probs context).1⟩ : RangeReader ι).rc.Ready :=
            hrc.decodeBit hwide reader.probs context
          rw [read, hnormalize]
          obtain ⟨result, after, left, hread, hresult, hafter, hleft⟩ |
            ⟨left, after, hread, hleft, hafter⟩ := ih _ (hmeets.2 _) hbit rest
          · exact .inl ⟨result, after, left, hread, hresult, hafter, hleft.trans hsuffix⟩
          · exact .inr ⟨left, after, hread, hleft, hafter⟩

end Ready

section Within

variable [DecidableEq ι] {Inside : RcContext ι → Prop} [DecidablePred Inside]
  {dialogue : Dialogue (RcContext ι) α}

/-- A dialogue that asks for nothing outside is read. -/
theorem RangeReader.readWithin_of_meets {Ended : α → Prop}
    (hmeets : dialogue.Meets Inside Ended) (reader : RangeReader ι) (input : Bytes) :
    reader.readWithin Inside dialogue input = .ok (reader.read dialogue input) := by
  induction dialogue generalizing reader input with
  | done result => rfl
  | ask context next ih =>
      rw [readWithin, read]
      cases reader.rc.normalize input with
      | none => rfl
      | some pair => exact (if_pos hmeets.1).trans (ih _ (hmeets.2 _) _ _)

/-- What is read does not depend on where the arrays end. -/
theorem RangeReader.eq_read_of_readWithin {reader : RangeReader ι} {input : Bytes}
    {reading : Reading ι α} (hread : reader.readWithin Inside dialogue input = .ok reading) :
    reading = reader.read dialogue input := by
  induction dialogue generalizing reader input with
  | done result => exact (Except.ok.inj hread).symm
  | ask context next ih =>
      rw [readWithin] at hread
      rw [read]
      cases hnormalize : reader.rc.normalize input with
      | none =>
          rw [hnormalize] at hread
          exact (Except.ok.inj hread).symm
      | some pair =>
          rw [hnormalize] at hread
          dsimp only at hread
          by_cases hinside : Inside context
          · rw [if_pos hinside] at hread
            exact ih _ hread
          · rw [if_neg hinside] at hread
            cases hread

end Within

/-! ## Bits an encoder has put into the input -/

/-- The probabilities after some bits. -/
def rcUpdates [DecidableEq ι] (probs : ι → Probability) :
    List (RcContext ι × Bool) → ι → Probability
  | [] => probs
  | (context, bit) :: bits => rcUpdates (rcUpdate probs context bit) bits

/-- The decoder is about to read `bits`, and nothing else, from `input`: with the interval
it has in common with the encoder, its `code` and the input spell out the lower end of
what the bits leave of that interval. -/
def RangeReader.Synced [DecidableEq ι] (reader : RangeReader ι) (input : Bytes)
    (bits : List (RcContext ι × Bool)) : Prop :=
  ∃ low, BetweenSymbols ⟨low, reader.rc.range⟩ ∧
    input.length = codeDigits ⟨low, reader.rc.range⟩ reader.probs bits ∧
    (low + reader.rc.code) * 256 ^ input.length + byteValue input =
      (codeSpan ⟨low, reader.rc.range⟩ reader.probs bits).low

section Bits

theorem shiftIn_eq {code : ℕ} (hcode : code < 2 ^ 24) (byte : UInt8) :
    LzmaRangeDecoder.shiftIn code byte = code * 256 + byte.toNat := by
  have hbyte := byte.toNat_lt
  rw [LzmaRangeDecoder.shiftIn, Nat.shiftLeft_eq, Nat.mod_eq_of_lt (by omega)]
  rw [Nat.mul_comm, ← Nat.two_pow_add_eq_or_of_lt hbyte, Nat.mul_comm]

/-- The mask arithmetic of `rc_direct` is a comparison with half of the interval. -/
theorem directBit_eq {rc : LzmaRangeDecoder} (hrange : rc.range < 2 ^ 32)
    (hcode : rc.code < rc.range) :
    rc.directBit =
      if rc.code < rc.range / 2 then (false, { rc with range := rc.range / 2 })
      else (true, { rc with range := rc.range / 2, code := rc.code - rc.range / 2 }) := by
  have hhalf : rc.range >>> 1 = rc.range / 2 := by rw [Nat.shiftRight_eq_div_pow, pow_one]
  rw [LzmaRangeDecoder.directBit, hhalf]
  by_cases hlower : rc.code < rc.range / 2
  · -- the difference is negative, and the mask adds the half back
    have hsign : ((rc.code + (2 ^ 32 - rc.range / 2)) % 2 ^ 32) >>> 31 = 1 := by
      rw [Nat.shiftRight_eq_div_pow]
      omega
    have hmask : rc.range / 2 &&& (2 ^ 32 - 1) % 2 ^ 32 = rc.range / 2 := by
      rw [Nat.mod_eq_of_lt (by omega), Nat.and_two_pow_sub_one_eq_mod]
      omega
    have hback : ((rc.code + (2 ^ 32 - rc.range / 2)) % 2 ^ 32 + rc.range / 2) % 2 ^ 32 =
        rc.code := by omega
    rw [if_pos hlower, hsign, hmask, hback]
    rfl
  · have hsign : ((rc.code + (2 ^ 32 - rc.range / 2)) % 2 ^ 32) >>> 31 = 0 := by
      rw [Nat.shiftRight_eq_div_pow]
      omega
    have hmask : rc.range / 2 &&& (2 ^ 32 - 0) % 2 ^ 32 = 0 := by
      rw [Nat.sub_zero, Nat.mod_self, Nat.and_zero]
    have hrest : ((rc.code + (2 ^ 32 - rc.range / 2)) % 2 ^ 32 + 0) % 2 ^ 32 =
        rc.code - rc.range / 2 := by omega
    rw [if_neg hlower, hsign, hmask, hrest]
    rfl

/-- In either context a bit is read by comparing `code` with the bound of its lower
part. -/
theorem decodeBit_eq {rc : LzmaRangeDecoder} (hrange : rc.range < 2 ^ 32)
    (hcode : rc.code < rc.range) (probs : ι → Probability) (context : RcContext ι) (low : ℕ) :
    rc.decodeBit probs context =
      if rc.code < rcBound rc.range probs context then
        (false, { rc with range := (partSpan ⟨low, rc.range⟩ probs context false).width })
      else
        (true, { rc with
          range := (partSpan ⟨low, rc.range⟩ probs context true).width,
          code := rc.code - rcBound rc.range probs context }) := by
  cases context with
  | prob index => rfl
  | direct =>
      have hbound : rcBound rc.range probs .direct = rc.range / 2 := by
        rw [rcBound, Nat.shiftRight_eq_div_pow, pow_one]
      rw [LzmaRangeDecoder.decodeBit, directBit_eq hrange hcode, ← hbound]
      rfl

theorem low_partSpan (span : Span) (probs : ι → Probability) (context : RcContext ι)
    (bit : Bool) :
    (partSpan span probs context bit).low =
      span.low + if bit then rcBound span.width probs context else 0 := by
  cases context <;> cases bit <;> rfl

variable [DecidableEq ι]

/-- `code` is where the rest of the input points to in the interval. -/
theorem code_lt_of_synced {low : ℕ} {rc : LzmaRangeDecoder} {probs : ι → Probability}
    {input : Bytes} {bits : List (RcContext ι × Bool)} (hspan : BetweenSymbols ⟨low, rc.range⟩)
    (hlength : input.length = codeDigits ⟨low, rc.range⟩ probs bits)
    (hvalue : (low + rc.code) * 256 ^ input.length + byteValue input =
      (codeSpan ⟨low, rc.range⟩ probs bits).low) :
    low + rc.code = (codeSpan ⟨low, rc.range⟩ probs bits).low / 256 ^ input.length ∧
      rc.code < rc.range := by
  obtain ⟨hwithin, hpos⟩ := codeSpan_within hspan probs bits
  have hmem := (hwithin.div_mem (by norm_num) hpos).2
  have hdiv : (codeSpan ⟨low, rc.range⟩ probs bits).low / 256 ^ input.length =
      low + rc.code := by
    rw [← hvalue, Nat.add_comm, Nat.add_mul_div_right _ _ (by positivity),
      Nat.div_eq_of_lt (byteValue_lt input), Nat.zero_add]
  rw [← hlength, hdiv] at hmem
  exact ⟨hdiv.symm, Nat.lt_of_add_lt_add_left hmem⟩

/-- The normalisation reads the byte by which the interval is zoomed. -/
theorem exists_normalize {low : ℕ} {rc : LzmaRangeDecoder} {input : Bytes}
    (hcode : rc.code < rc.range) (hinput : normalizeDigits ⟨low, rc.range⟩ ≤ input.length) :
    ∃ after rest, rc.normalize input = some (after, rest) ∧
      (normalizeSpan ⟨low, rc.range⟩).width = after.range ∧ after.code < after.range ∧
      rest.length + normalizeDigits ⟨low, rc.range⟩ = input.length ∧
      ((normalizeSpan ⟨low, rc.range⟩).low + after.code) * 256 ^ rest.length + byteValue rest =
        (low + rc.code) * 256 ^ input.length + byteValue input := by
  by_cases hnarrow : rc.range < 2 ^ 24
  · rw [normalizeDigits, if_pos hnarrow] at hinput ⊢
    rw [normalizeSpan, if_pos hnarrow]
    cases input with
    | nil => cases hinput
    | cons byte rest =>
        have hbyte := byte.toNat_lt
        have hshift := shiftIn_eq (hcode.trans hnarrow) byte
        have hrange : rc.range <<< 8 % 2 ^ 32 = rc.range * 256 := by
          rw [Nat.shiftLeft_eq, Nat.mod_eq_of_lt (by omega)]
        rw [LzmaRangeDecoder.normalize, if_pos hnarrow, hshift, hrange]
        refine ⟨_, _, rfl, rfl, ?_, rfl, ?_⟩
        · dsimp only
          omega
        · rw [byteValue_cons, List.length_cons, pow_succ]
          dsimp only [Span.zoom]
          ring
  · rw [normalizeSpan, normalizeDigits, if_neg hnarrow, if_neg hnarrow]
    exact ⟨rc, input, LzmaRangeDecoder.normalize_wide hnarrow input, rfl, hcode, rfl, rfl⟩

/-- **One bit.** A decoder that is about to read a bit reads it, and is then about to read
the rest. -/
theorem RangeReader.Synced.step {reader : RangeReader ι} {input : Bytes}
    {context : RcContext ι} {bit : Bool} {bits : List (RcContext ι × Bool)}
    (hsynced : reader.Synced input ((context, bit) :: bits)) :
    ∃ rc rest after, reader.rc.normalize input = some (rc, rest) ∧
      rc.decodeBit reader.probs context = (bit, after) ∧
      (⟨after, rcUpdate reader.probs context bit⟩ : RangeReader ι).Synced rest bits := by
  obtain ⟨low, hspan, hlength, hvalue⟩ := hsynced
  obtain ⟨-, hcode⟩ := code_lt_of_synced hspan hlength hvalue
  obtain ⟨hlow, hhigh⟩ := width_normalizeSpan hspan
  have henough : normalizeDigits ⟨low, reader.rc.range⟩ ≤ input.length := by
    rw [hlength, codeDigits]
    exact Nat.le_add_right _ _
  obtain ⟨rc, rest, hnormalize, hwidth, hafter, hrest, hsame⟩ := exists_normalize hcode henough
  have hbetween := betweenSymbols_partSpan hlow hhigh reader.probs context bit
  rw [hvalue, codeSpan] at hsame
  rw [hlength, codeDigits, Nat.add_comm, Nat.add_left_cancel_iff] at hrest
  generalize normalizeSpan ⟨low, reader.rc.range⟩ = span at *
  obtain ⟨start, width⟩ := span
  dsimp only at hwidth
  subst hwidth
  -- the point the input spells out lies in the part that belongs to the bit
  obtain ⟨hwithin, hpos⟩ := codeSpan_within hbetween (rcUpdate reader.probs context bit) bits
  have hmem := hwithin.div_mem (by norm_num) hpos
  rw [← hrest, ← hsame, Nat.add_comm (_ * _), Nat.add_mul_div_right _ _ (by positivity),
    Nat.div_eq_of_lt (byteValue_lt rest), Nat.zero_add, low_partSpan] at hmem
  dsimp only at hmem hhigh
  have hdecode := decodeBit_eq hhigh hafter reader.probs context start
  refine ⟨rc, rest, ?_⟩
  cases bit with
  | false =>
      have hlower : rc.code < rcBound rc.range reader.probs context := by
        have hpart : (partSpan ⟨start, rc.range⟩ reader.probs context false).width =
            rcBound rc.range reader.probs context := by
          cases context <;> rfl
        rw [hpart] at hmem
        simp only [Bool.false_eq_true, if_false] at hmem
        omega
      rw [if_pos hlower] at hdecode
      exact ⟨_, hnormalize, hdecode, _, hbetween, hrest, hsame⟩
  | true =>
      have hupper : ¬rc.code < rcBound rc.range reader.probs context := by
        simp only [if_true] at hmem
        omega
      rw [if_neg hupper] at hdecode
      have hpoint : (partSpan ⟨start, rc.range⟩ reader.probs context true).low +
          (rc.code - rcBound rc.range reader.probs context) = start + rc.code := by
        rw [low_partSpan, if_pos rfl]
        dsimp only
        omega
      rw [← hpoint] at hsame
      exact ⟨_, hnormalize, hdecode, _, hbetween, hrest, hsame⟩

/-- At the end of the bits one more normalisation leaves `code` zero. -/
theorem RangeReader.Synced.finish {reader : RangeReader ι} {input : Bytes}
    (hsynced : reader.Synced input []) :
    ∃ rc, reader.rc.normalize input = some (rc, []) ∧ rc.isFinished = true := by
  obtain ⟨low, hspan, hlength, hvalue⟩ := hsynced
  obtain ⟨-, hcode⟩ := code_lt_of_synced hspan hlength hvalue
  obtain ⟨rc, rest, hnormalize, -, -, hrest, hsame⟩ := exists_normalize hcode hlength.ge
  rw [hlength, codeDigits, Nat.add_eq_right] at hrest
  cases List.eq_nil_of_length_eq_zero hrest
  rw [hvalue, codeSpan] at hsame
  refine ⟨rc, hnormalize, ?_⟩
  simp only [List.length_nil, pow_zero, Nat.mul_one] at hsame
  rw [LzmaRangeDecoder.isFinished, decide_eq_true_iff]
  omega

/-- **A dialogue.** The decoder follows whatever dialogue the encoder has followed. -/
theorem RangeReader.Synced.read {reader : RangeReader ι} {input : Bytes}
    {bits left : List (RcContext ι × Bool)} {dialogue : Dialogue (RcContext ι) α} {result : α}
    (hsynced : reader.Synced input bits) (hfollows : dialogue.Follows bits result left) :
    ∃ after rest, reader.read dialogue input = .finished result after rest ∧
      after.Synced rest left ∧ rcUpdates after.probs left = rcUpdates reader.probs bits := by
  induction hfollows generalizing reader input with
  | done result left => exact ⟨reader, input, rfl, hsynced, rfl⟩
  | @ask context next bit bits left result htail ih =>
      obtain ⟨rc, rest, after, hnormalize, hdecode, hnext⟩ := hsynced.step
      obtain ⟨final, final_rest, hread, hfinal, hprobs⟩ := ih hnext
      refine ⟨final, final_rest, ?_, hfinal, hprobs⟩
      rw [RangeReader.read, hnormalize]
      dsimp only
      rw [hdecode]
      exact hread

/-- A normalisation before it is needed leaves the bits that are about to be read. -/
theorem RangeReader.Synced.normalize {reader : RangeReader ι} {input : Bytes}
    {bits : List (RcContext ι × Bool)} (hsynced : reader.Synced input bits) :
    ∃ rc rest, reader.rc.normalize input = some (rc, rest) ∧
      (⟨rc, reader.probs⟩ : RangeReader ι).Synced rest bits := by
  obtain ⟨low, hspan, hlength, hvalue⟩ := hsynced
  obtain ⟨-, hcode⟩ := code_lt_of_synced hspan hlength hvalue
  obtain ⟨hlow, hhigh⟩ := width_normalizeSpan hspan
  have hdigits := codeDigits_normalizeSpan hspan reader.probs bits
  have henough : normalizeDigits ⟨low, reader.rc.range⟩ ≤ input.length := by omega
  obtain ⟨rc, rest, hnormalize, hwidth, hafter, hrest, hsame⟩ := exists_normalize hcode henough
  refine ⟨rc, rest, hnormalize, (normalizeSpan ⟨low, reader.rc.range⟩).low, ?_⟩
  have hspanEq : (⟨(normalizeSpan ⟨low, reader.rc.range⟩).low, rc.range⟩ : Span) =
      normalizeSpan ⟨low, reader.rc.range⟩ := by rw [← hwidth]
  rw [hspanEq]
  refine ⟨⟨?_, hhigh⟩, ?_, ?_⟩
  · exact (by norm_num : 2 ^ 16 ≤ 2 ^ 24).trans hlow
  · dsimp only
    omega
  · rw [hsame, hvalue, codeSpan_normalizeSpan hspan]

/-- **A front of the input.** With only a front of what the encoder has written, and
maybe with more behind it, the decoder follows the dialogue to its end or as far as the
input goes. -/
theorem RangeReader.Synced.read_front {reader : RangeReader ι} {stream : Bytes}
    {bits left : List (RcContext ι × Bool)} {dialogue : Dialogue (RcContext ι) α} {result : α}
    (hsynced : reader.Synced stream bits) (hfollows : dialogue.Follows bits result left)
    {input later more : Bytes} (htotal : input ++ later = stream ++ more) :
    (∃ after rest still, reader.read dialogue input = .finished result after rest ∧
        after.Synced still left ∧ rest ++ later = still ++ more ∧
        rcUpdates after.probs left = rcUpdates reader.probs bits) ∨
      ∃ pending after rest still, reader.read dialogue input = .starved pending after ∧
        pending.Follows rest result left ∧ after.Synced still rest ∧ later = still ++ more ∧
        still ≠ [] ∧ rcUpdates after.probs rest = rcUpdates reader.probs bits := by
  induction hfollows generalizing reader stream input with
  | done result left => exact .inl ⟨reader, input, stream, rfl, hsynced, htotal, rfl⟩
  | @ask context next bit bits left result htail ih =>
      obtain ⟨rc, rest, after, hnormalize, hdecode, hnext⟩ := hsynced.step
      cases hinput : reader.rc.normalize input with
      | none =>
          cases LzmaRangeDecoder.eq_nil_of_normalize hinput
          refine .inr ⟨.ask context next, reader, _, stream, ?_, .ask htail, hsynced, htotal, ?_,
            rfl⟩
          · rw [RangeReader.read, hinput]
          · rintro rfl
            rw [hinput] at hnormalize
            cases hnormalize
      | some pair =>
          obtain ⟨rc', rest'⟩ := pair
          have hwhole := LzmaRangeDecoder.normalize_append hinput later
          rw [htotal, LzmaRangeDecoder.normalize_append hnormalize more] at hwhole
          obtain ⟨rfl, hrest⟩ := Prod.mk.inj (Option.some.inj hwhole)
          rw [RangeReader.read, hinput]
          dsimp only
          rw [hdecode]
          exact ih hnext hrest.symm

/-- `rc_read_init` of a front of the input. -/
theorem readInit_front {rc after : LzmaRangeDecoder} {stream rest : Bytes}
    (hstream : rc.readInit stream = (.streamEnd, after, rest)) {input later more : Bytes}
    (htotal : input ++ later = stream ++ more) :
    (∃ left, rc.readInit input = (.streamEnd, after, left) ∧ left ++ later = rest ++ more) ∨
      ∃ middle still, rc.readInit input = (.ok, middle, []) ∧
        middle.readInit still = (.streamEnd, after, rest) ∧ later = still ++ more ∧
        still ≠ [] := by
  have hready {rc : LzmaRangeDecoder} (hdone : rc.initBytesLeft = 0) (bytes : Bytes) :
      rc.readInit bytes = (.streamEnd, rc, bytes) := by
    cases bytes with
    | nil => rw [LzmaRangeDecoder.readInit, if_pos hdone]
    | cons byte bytes => rw [LzmaRangeDecoder.readInit, if_pos hdone]
  induction input generalizing rc stream with
  | nil =>
      by_cases hdone : rc.initBytesLeft = 0
      · rw [hready hdone] at hstream
        cases hstream
        exact .inl ⟨[], hready hdone [], htotal⟩
      · refine .inr ⟨rc, stream, ?_, hstream, htotal, ?_⟩
        · rw [LzmaRangeDecoder.readInit, if_neg hdone]
        · rintro rfl
          rw [LzmaRangeDecoder.readInit, if_neg hdone] at hstream
          cases hstream
  | cons byte input ih =>
      by_cases hdone : rc.initBytesLeft = 0
      · rw [hready hdone] at hstream
        cases hstream
        exact .inl ⟨_, hready hdone _, htotal⟩
      · cases stream with
        | nil =>
            rw [LzmaRangeDecoder.readInit, if_neg hdone] at hstream
            cases hstream
        | cons first stream =>
            rw [List.cons_append, List.cons_append, List.cons.injEq] at htotal
            obtain ⟨rfl, htotal⟩ := htotal
            rw [LzmaRangeDecoder.readInit, if_neg hdone] at hstream ⊢
            by_cases hbad : rc.initBytesLeft = 5 ∧ byte ≠ 0
            · rw [if_pos hbad] at hstream
              cases hstream
            · rw [if_neg hbad] at hstream ⊢
              exact ih hstream htotal

/-- `rc_read_init` on five bytes, the first of which is zero. -/
theorem readInit_five (second third fourth fifth : UInt8) (rest : Bytes) :
    LzmaRangeDecoder.reset.readInit (0 :: second :: third :: fourth :: fifth :: rest) =
      (.streamEnd, ⟨2 ^ 32 - 1, byteValue [second, third, fourth, fifth], 0⟩, rest) := by
  have hdone (code : ℕ) : (⟨2 ^ 32 - 1, code, 0⟩ : LzmaRangeDecoder).readInit rest =
      (.streamEnd, ⟨2 ^ 32 - 1, code, 0⟩, rest) := by
    cases rest with
    | nil => rfl
    | cons byte rest => rfl
  have htwo := second.toNat_lt
  have hthree := third.toNat_lt
  have hfour := fourth.toNat_lt
  have hcode : LzmaRangeDecoder.shiftIn (LzmaRangeDecoder.shiftIn (LzmaRangeDecoder.shiftIn
      (LzmaRangeDecoder.shiftIn (LzmaRangeDecoder.shiftIn 0 0) second) third) fourth) fifth =
      byteValue [second, third, fourth, fifth] := by
    have hzero : LzmaRangeDecoder.shiftIn 0 0 = 0 := rfl
    have hone : LzmaRangeDecoder.shiftIn 0 second = second.toNat := by
      rw [shiftIn_eq (by norm_num), Nat.zero_mul, Nat.zero_add]
    rw [hzero, hone, shiftIn_eq (htwo.trans (by norm_num)),
      shiftIn_eq (by omega : second.toNat * 256 + third.toNat < 2 ^ 24),
      shiftIn_eq (by omega :
        (second.toNat * 256 + third.toNat) * 256 + fourth.toNat < 2 ^ 24)]
    simp only [byteValue, Positional.value, List.map_cons, List.map_nil, List.foldl_cons,
      List.foldl_nil]
    ring
  simp only [LzmaRangeDecoder.reset, LzmaRangeDecoder.readInit]
  norm_num
  rw [hcode]
  exact hdone _

theorem exists_five {text : Bytes} {count : ℕ} (hlength : text.length = 5 + count) :
    ∃ first second third fourth fifth rest,
      text = first :: second :: third :: fourth :: fifth :: rest ∧ rest.length = count := by
  match text, hlength with
  | first :: second :: third :: fourth :: fifth :: rest, hlength =>
      refine ⟨first, second, third, fourth, fifth, rest, rfl, ?_⟩
      simp only [List.length_cons] at hlength
      omega
  | [], hlength | [_], hlength | [_, _], hlength | [_, _, _], hlength
  | [_, _, _, _], hlength =>
      simp only [List.length_cons, List.length_nil] at hlength
      omega

/-- `rc_read_init` reads the first five bytes an encoder has written. -/
theorem exists_readInit (probs : ι → Probability) (bits : List (RcContext ι × Bool))
    (more : Bytes) :
    ∃ rc rest, LzmaRangeDecoder.reset.readInit (rcReset.encodeText probs bits 5 ++ more) =
        (.streamEnd, rc, rest ++ more) ∧
      (⟨rc, probs⟩ : RangeReader ι).Synced rest bits := by
  obtain ⟨hvalue, hlength⟩ := encodeText_rcReset probs bits
  obtain ⟨first, second, third, fourth, fifth, rest, htext, hrest⟩ := exists_five hlength
  have hsplit : byteValue (second :: third :: fourth :: fifth :: rest) =
      byteValue [second, third, fourth, fifth] * 256 ^ rest.length + byteValue rest :=
    byteValue_append [second, third, fourth, fifth] rest
  have hpower : (256 : ℕ) ^ (second :: third :: fourth :: fifth :: rest).length =
      2 ^ 32 * 256 ^ rest.length := by
    simp only [List.length_cons, pow_succ]
    ring
  rw [htext, byteValue_cons, hpower, hsplit] at hvalue
  -- the interval never reaches the first byte
  have hfirst : first = 0 := by
    obtain ⟨hwithin, hpos⟩ := codeSpan_within betweenSymbols_initialSpan probs bits
    have hhigh := hwithin.le_high
    rw [← hrest] at hhigh
    have hbelow : (initialSpan.low + initialSpan.width) * 256 ^ rest.length ≤
        2 ^ 32 * 256 ^ rest.length := Nat.mul_le_mul_right _ (by norm_num [initialSpan])
    have hlt : first.toNat * (2 ^ 32 * 256 ^ rest.length) < 1 * (2 ^ 32 * 256 ^ rest.length) := by
      omega
    have hone : first.toNat < 1 := Nat.lt_of_mul_lt_mul_right hlt
    exact UInt8.toNat_inj.mp (Nat.lt_one_iff.mp hone)
  subst hfirst
  refine ⟨⟨2 ^ 32 - 1, byteValue [second, third, fourth, fifth], 0⟩, rest, ?_, 0,
    betweenSymbols_initialSpan, hrest, ?_⟩
  · rw [htext]
    exact readInit_five second third fourth fifth (rest ++ more)
  · rw [UInt8.toNat_zero, Nat.zero_mul, Nat.zero_add] at hvalue
    rw [Nat.zero_add]
    exact hvalue

/-- What a queue of bits and a flush leaves: a fresh encoder and adapted probabilities. -/
theorem encodeNext_flush (rc : LzmaRangeEncoder) (probs : ι → Probability)
    (bits : List (RcContext ι × Bool)) (flushes : ℕ) :
    rc.encodeNext probs bits (flushes + 1) = ⟨rcReset, rcUpdates probs bits, []⟩ := by
  induction bits generalizing rc probs with
  | nil => rfl
  | cons coded bits ih => exact ih _ _

end Bits

/-- **Round trip of the range coder.** Some bytes are what `rc_encode` writes for a queue
of bits and a flush, whatever buffers it is given; and a decoder with the same
probabilities reads from them the result of the dialogue the bits answer, ends with
`code` zero and the encoder's probabilities, and leaves what follows the bytes. -/
theorem exists_rcEncode_read [DecidableEq ι] (probs : ι → Probability)
    {bits : List (RcContext ι × Bool)} {dialogue : Dialogue (RcContext ι) α} {result : α}
    (hfollows : dialogue.Follows bits result []) :
    ∃ text : Bytes,
      (∀ room rooms, Resumable.Fills (Resumable.total (room :: rooms)) text
        (· = ⟨rcReset, rcUpdates probs bits, []⟩)
        (RcQueue.Owes ⟨rcReset, rcUpdates probs bits, []⟩)
        (rcEncodeCalls (room :: rooms) ⟨rcReset, probs, rcSymbols bits 5⟩)) ∧
      ∀ more, ∃ rc input reader rest after,
        LzmaRangeDecoder.reset.readInit (text ++ more) = (.streamEnd, rc, input) ∧
        RangeReader.read dialogue ⟨rc, probs⟩ input = .finished result reader rest ∧
        reader.rc.normalize rest = some (after, more) ∧ after.isFinished = true ∧
        reader.probs = rcUpdates probs bits := by
  refine ⟨rcReset.encodeText probs bits 5, fun room rooms => ?_, fun more => ?_⟩
  · rw [← encodeNext_flush rcReset probs bits 4]
    exact fills_rcEncodeCalls bits 5 probs le_rfl room rooms
  · obtain ⟨rc, input, hinit, hsynced⟩ := exists_readInit probs bits more
    obtain ⟨reader, rest, hread, hdone, hprobs⟩ := hsynced.read hfollows
    obtain ⟨after, hnormalize, hfinished⟩ := hdone.finish
    refine ⟨rc, input ++ more, reader, rest ++ more, after, hinit, ?_, ?_, hfinished, hprobs⟩
    · rw [RangeReader.read_append, hread]
      rfl
    · exact LzmaRangeDecoder.normalize_append hnormalize more

/-- A bit with a probability and a direct one. -/
theorem exists_rcEncode_read_two :
    ∃ text : Bytes,
      (∀ room rooms, Resumable.Fills (Resumable.total (room :: rooms)) text
        (· = ⟨rcReset, rcUpdates (fun _ : Unit => bitReset)
          [(.prob (), true), (.direct, false)], []⟩)
        (RcQueue.Owes ⟨rcReset, rcUpdates (fun _ : Unit => bitReset)
          [(.prob (), true), (.direct, false)], []⟩)
        (rcEncodeCalls (room :: rooms)
          ⟨rcReset, fun _ => bitReset, rcSymbols [(.prob (), true), (.direct, false)] 5⟩)) ∧
      ∀ more, ∃ rc input reader rest after,
        LzmaRangeDecoder.reset.readInit (text ++ more) = (.streamEnd, rc, input) ∧
        RangeReader.read (.ask (.prob ()) fun first => .ask .direct fun second =>
          .done (first, second)) ⟨rc, fun _ => bitReset⟩ input =
            .finished (true, false) reader rest ∧
        reader.rc.normalize rest = some (after, more) ∧ after.isFinished = true ∧
        reader.probs = rcUpdates (fun _ => bitReset) [(.prob (), true), (.direct, false)] :=
  exists_rcEncode_read (fun _ => bitReset) (.ask (.ask (.done _ _)))

end Dht
