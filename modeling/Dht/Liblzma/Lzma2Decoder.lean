/-
# The LZMA2 decoder

LZMA2 cuts the data into chunks. A chunk has a header of a few bytes, which may ask for a
reset of the dictionary, of the properties and of the state, and is either an LZMA chunk
of known size or copied as it is. `lzma2_decode` reads a header byte by byte and then
hands the chunk to the LZMA decoder or to the dictionary.

An LZMA chunk that does not reset the state goes on with the distances of the one before,
which point into the dictionary. That is safe because a reset of the dictionary makes
new properties, and with them a reset of the state, mandatory before the next such chunk:
`Resets` says where in the loop that is still to come.
-/

import Dht.Liblzma.LzmaDecoder

namespace Dht

/-! ## Properties -/

/-- `lzma_lzma_lclppb_decode`, with nothing for a byte it refuses. -/
def lclppbDecode (byte : UInt8) : Option LzmaProps :=
  if hmax : byte.toNat ≤ (4 * 5 + 4) * 9 + 8 then
    let pb := byte.toNat / (9 * 5)
    let left := byte.toNat - pb * 9 * 5
    let lp := left / 9
    let lc := left - lp * 9
    if hlclp : lc + lp ≤ 4 then
      some ⟨lc, lp, pb, hlclp, by
        change byte.toNat / (9 * 5) ≤ 4
        omega⟩
    else none
  else none

/-- `lzma_lzma_lclppb_encode`. -/
def lclppbEncode (props : LzmaProps) : UInt8 :=
  UInt8.ofNat ((props.pb * 5 + props.lp) * 9 + props.lc)

theorem lclppbDecode_lclppbEncode (props : LzmaProps) :
    lclppbDecode (lclppbEncode props) = some props := by
  obtain ⟨lc, lp, pb, hlclp, hpb⟩ := props
  have hbyte : (UInt8.ofNat ((pb * 5 + lp) * 9 + lc)).toNat = (pb * 5 + lp) * 9 + lc := by
    rw [UInt8.toNat_ofNat', Nat.mod_eq_of_lt (by omega)]
  have hpb' : ((pb * 5 + lp) * 9 + lc) / (9 * 5) = pb := by omega
  have hlp' : ((pb * 5 + lp) * 9 + lc - pb * 9 * 5) / 9 = lp := by omega
  have hlc' : (pb * 5 + lp) * 9 + lc - pb * 9 * 5 - lp * 9 = lc := by omega
  rw [lclppbDecode, lclppbEncode]
  simp only [hbyte, hpb', hlp', hlc']
  rw [dif_pos (by omega), dif_pos hlclp]

/-! ## The decoder -/

/-- `sequence`. -/
inductive Lzma2Sequence
  | control | uncompressed1 | uncompressed2 | compressed0 | compressed1 | properties
  | lzma | copy
  deriving DecidableEq

/-- `lzma_coder` of the LZMA2 decoder. -/
structure Lzma2Decoder where
  sequence : Lzma2Sequence
  nextSequence : Lzma2Sequence
  lzma : LzmaDecoder
  uncompressedSize : ℕ
  compressedSize : ℕ
  needProperties : Bool
  needDictionaryReset : Bool
  props : LzmaProps

/-- What one byte of a header leads to: the next byte, a return that asks for a reset of
the dictionary, or another return. -/
inductive HeaderStep
  | next (coder : Lzma2Decoder)
  | dictReset (coder : Lzma2Decoder)
  | leave (ret : LzmaRet) (coder : Lzma2Decoder)

namespace Lzma2Decoder

/-- The end of `SEQ_CONTROL`. -/
def endControl (coder : Lzma2Decoder) : HeaderStep :=
  if coder.needDictionaryReset then .dictReset { coder with needDictionaryReset := false }
  else .next coder

/-- The kind of the chunk. -/
def chunkControl (coder : Lzma2Decoder) (control : ℕ) : HeaderStep :=
  if 0x80 ≤ control then
    let coder := { coder with
      uncompressedSize := (control &&& 0x1F) <<< 16, sequence := .uncompressed1 }
    if 0xC0 ≤ control then
      endControl { coder with needProperties := false, nextSequence := .properties }
    else if coder.needProperties then .leave .dataError coder
    else
      endControl { coder with
        nextSequence := .lzma
        lzma := if 0xA0 ≤ control then coder.lzma.reset coder.props else coder.lzma }
  else if 2 < control then .leave .dataError coder
  else endControl { coder with sequence := .compressed0, nextSequence := .copy }

/-- `SEQ_CONTROL`. -/
def control (coder : Lzma2Decoder) (control : ℕ) : HeaderStep :=
  if control = 0 then .leave .streamEnd coder
  else if 0xE0 ≤ control ∨ control = 1 then
    chunkControl { coder with needProperties := true, needDictionaryReset := true } control
  else if coder.needDictionaryReset then .leave .dataError coder
  else coder.chunkControl control

/-- The cases of `lzma2_decode` that read one byte of a header. -/
def header (coder : Lzma2Decoder) (byte : UInt8) : HeaderStep :=
  match coder.sequence with
  | .control => coder.control byte.toNat
  | .uncompressed1 => .next { coder with
      uncompressedSize := coder.uncompressedSize + byte.toNat <<< 8, sequence := .uncompressed2 }
  | .uncompressed2 => .next { coder with
      uncompressedSize := coder.uncompressedSize + (byte.toNat + 1)
      lzma := coder.lzma.setUncompressed (some (coder.uncompressedSize + (byte.toNat + 1)))
      sequence := .compressed0 }
  | .compressed0 => .next { coder with
      compressedSize := byte.toNat <<< 8, sequence := .compressed1 }
  | .compressed1 => .next { coder with
      compressedSize := coder.compressedSize + (byte.toNat + 1), sequence := coder.nextSequence }
  | .properties =>
      match lclppbDecode byte with
      | none => .leave .dataError coder
      | some props => .next { coder with
          props := props, lzma := coder.lzma.reset props, sequence := .lzma }
  | .lzma => .leave .progError coder
  | .copy => .leave .progError coder

end Lzma2Decoder

/-- What the loop of `lzma2_decode` works on. -/
structure Lzma2Loop where
  coder : Lzma2Decoder
  dict : LzmaDict
  input : Bytes

namespace Lzma2Loop

/-- `SEQ_LZMA`. -/
def decodeLzma (loop : Lzma2Loop) : Outcome (Lzma2Loop ⊕ LzmaRet × Lzma2Loop) := do
  let (ret, after) ← loop.coder.lzma.lzmaDecode loop.dict loop.input
  let inUsed := loop.input.length - after.input.length
  let coder := { loop.coder with
    lzma := after.coder, compressedSize := loop.coder.compressedSize - inUsed }
  if loop.coder.compressedSize < inUsed then
    return .inr (.dataError, ⟨{ loop.coder with lzma := after.coder }, after.dict, after.input⟩)
  else if ret ≠ .streamEnd then return .inr (ret, ⟨coder, after.dict, after.input⟩)
  else if coder.compressedSize ≠ 0 then
    return .inr (.dataError, ⟨coder, after.dict, after.input⟩)
  else return .inl ⟨{ coder with sequence := .control }, after.dict, after.input⟩

/-- `SEQ_COPY`. -/
def decodeCopy (loop : Lzma2Loop) : Outcome (Lzma2Loop ⊕ LzmaRet × Lzma2Loop) := do
  let (taken, dict) ← loop.dict.write loop.input loop.coder.compressedSize
  let coder := { loop.coder with compressedSize := loop.coder.compressedSize - taken }
  if coder.compressedSize ≠ 0 then
    return .inr (.ok, ⟨coder, dict, loop.input.drop taken⟩)
  else return .inl ⟨{ coder with sequence := .control }, dict, loop.input.drop taken⟩

/-- A byte of a header. -/
def decodeHeader (loop : Lzma2Loop) (byte : UInt8) (rest : Bytes) :
    Lzma2Loop ⊕ LzmaRet × Lzma2Loop :=
  match loop.coder.header byte with
  | .next coder => .inl ⟨coder, loop.dict, rest⟩
  | .dictReset coder => .inr (.ok, ⟨coder, { loop.dict with needReset := true }, rest⟩)
  | .leave ret coder => .inr (ret, ⟨coder, loop.dict, rest⟩)

/-- One turn of the loop. Only an LZMA chunk may go on without input. -/
def turn (loop : Lzma2Loop) : Outcome (Lzma2Loop ⊕ LzmaRet × Lzma2Loop) :=
  if loop.coder.sequence = .lzma then loop.decodeLzma
  else
    match loop.input with
    | [] => .ok (.inr (.ok, loop))
    | byte :: rest =>
        if loop.coder.sequence = .copy then loop.decodeCopy
        else .ok (loop.decodeHeader byte rest)

end Lzma2Loop

/-- `lzma2_decode`. A byte takes at most two turns. -/
def Lzma2Decoder.lzma2Decode (coder : Lzma2Decoder) (dict : LzmaDict) (input : Bytes) :
    Outcome (LzmaRet × Lzma2Loop) :=
  (Loop.runFor (Loop.fallible Lzma2Loop.turn) (2 * input.length + 2)
    ⟨coder, dict, input⟩).getD undefined

/-- `lzma2_decoder_init`. What is not set is not read before it is. -/
def Lzma2Decoder.init (garbage : Lzma2Decoder) : Lzma2Decoder :=
  { garbage with sequence := .control, needProperties := true, needDictionaryReset := true }

/-! ## Any input -/

namespace Lzma2Decoder

/-- Before the LZMA decoder is used again, its state will be reset. Where its size has
been read, that is known. -/
def Resets (coder : Lzma2Decoder) : Prop :=
  let copies := coder.nextSequence = .copy ∧ coder.needProperties = true
  let known := coder.lzma.uncompressedSize.isSome = true
  match coder.sequence with
  | .control => coder.needProperties = true
  | .uncompressed1 => coder.nextSequence = .properties ∨ copies
  | .uncompressed2 => coder.nextSequence = .properties ∨ copies
  | .compressed0 => coder.nextSequence = .properties ∧ known ∨ copies
  | .compressed1 => coder.nextSequence = .properties ∧ known ∨ copies
  | .properties => known
  | .lzma => False
  | .copy => coder.needProperties = true

/-- The LZMA decoder can be used for a chunk of known size. -/
structure Usable (full : ℕ) (lzma : LzmaDecoder) : Prop where
  valid : lzma.Valid full
  known : lzma.uncompressedSize.isSome = true

/-- A coder between two turns: the state of its LZMA decoder will be reset, or is between
two chunks, or in the middle of one. -/
def Valid (full : ℕ) (coder : Lzma2Decoder) : Prop :=
  coder.Resets ∨ Usable full coder.lzma ∧
    (coder.sequence = .lzma ∨ coder.lzma.sequence = .isMatch)

section Header

variable {full : ℕ} {coder : Lzma2Decoder}

/-- The state after a reset suits any dictionary. -/
theorem valid_lzmaReset (full : ℕ) (lzma : LzmaDecoder) (props : LzmaProps) :
    (lzma.reset props).Valid full := by
  have hzero : WithinFull full 0 := .inl rfl
  exact ⟨LzmaRangeDecoder.inRange_reset, ⟨hzero, hzero, hzero, hzero⟩, fun hstate => by cases hstate⟩

theorem valid_setUncompressed {lzma : LzmaDecoder} (hvalid : lzma.Valid full)
    (hknown : lzma.uncompressedSize.isSome = true) (size : ℕ) :
    (lzma.setUncompressed (some size)).Valid full := by
  obtain ⟨hrange, hsequence⟩ := hvalid
  refine ⟨hrange, ?_⟩
  obtain ⟨known, hknown⟩ := Option.isSome_iff_exists.mp hknown
  rw [hknown] at hsequence
  exact LzmaDecoder.valid_map hsequence fun _ => size

/-- What one byte of a header may lead to. -/
inductive Heads (full : ℕ) : HeaderStep → Prop
  | next {coder : Lzma2Decoder} (hvalid : coder.Valid full) : Heads full (.next coder)
  | dictReset {coder : Lzma2Decoder} (hresets : coder.Resets) : Heads full (.dictReset coder)
  | leave {coder : Lzma2Decoder} {ret : LzmaRet} (hret : ret ≠ .ok)
      (hvalid : ret = .streamEnd → coder.Valid full) : Heads full (.leave ret coder)

/-- A reset of the dictionary is asked for only together with one of the state. -/
theorem heads_endControl (hvalid : coder.Valid full)
    (hreset : coder.needDictionaryReset = true → coder.Resets) :
    Heads full coder.endControl := by
  rw [endControl]
  by_cases hneed : coder.needDictionaryReset
  · rw [if_pos hneed]
    exact .dictReset (hreset hneed)
  · rw [if_neg hneed]
    exact .next hvalid

theorem heads_chunkControl {control : ℕ}
    (hlzma : coder.needProperties = true ∨
      Usable full coder.lzma ∧ coder.lzma.sequence = .isMatch)
    (hreset : coder.needDictionaryReset = true →
      coder.needProperties = true ∧ (0xC0 ≤ control ∨ control < 0x80)) :
    Heads full (coder.chunkControl control) := by
  rw [chunkControl]
  by_cases hchunk : 0x80 ≤ control
  · rw [if_pos hchunk]
    dsimp only
    by_cases hprops : 0xC0 ≤ control
    · rw [if_pos hprops]
      exact heads_endControl (.inl (.inl rfl)) fun _ => .inl rfl
    · rw [if_neg hprops]
      by_cases hneed : coder.needProperties
      · rw [if_pos hneed]
        exact .leave (by simp) (by simp)
      · rw [if_neg hneed]
        obtain ⟨⟨hvalid, hknown⟩, hat⟩ := hlzma.resolve_left hneed
        refine heads_endControl (.inr ?_) fun hdict => absurd (hreset hdict).1 hneed
        dsimp only
        split
        · exact ⟨⟨valid_lzmaReset _ _ _, hknown⟩, .inr rfl⟩
        · exact ⟨⟨hvalid, hknown⟩, .inr hat⟩
  · rw [if_neg hchunk]
    by_cases hinvalid : 2 < control
    · rw [if_pos hinvalid]
      exact .leave (by simp) (by simp)
    · rw [if_neg hinvalid]
      refine heads_endControl ?_ fun hdict => .inr ⟨rfl, (hreset hdict).1⟩
      exact hlzma.imp (fun hneed => .inr ⟨rfl, hneed⟩) fun husable => ⟨husable.1, .inr husable.2⟩

/-- **One byte of a header.** -/
theorem heads_header (hvalid : coder.Valid full) (byte : UInt8) (hat : coder.sequence ≠ .lzma) :
    Heads full (coder.header byte) := by
  have hbetween : coder.Resets ∨ Usable full coder.lzma ∧ coder.lzma.sequence = .isMatch :=
    hvalid.imp_right fun husable => ⟨husable.1, husable.2.resolve_left hat⟩
  rw [Resets] at hbetween
  rw [header]
  cases hat : coder.sequence with
  | control =>
      rw [hat] at hbetween
      dsimp only at hbetween ⊢
      rw [control]
      by_cases hend : byte.toNat = 0
      · rw [if_pos hend]
        exact .leave (by simp) fun _ => hvalid
      · rw [if_neg hend]
        by_cases hdict : 0xE0 ≤ byte.toNat ∨ byte.toNat = 1
        · rw [if_pos hdict]
          exact heads_chunkControl (.inl rfl) fun _ => ⟨rfl, by omega⟩
        · rw [if_neg hdict]
          by_cases hneed : coder.needDictionaryReset
          · rw [if_pos hneed]
            exact .leave (by simp) (by simp)
          · rw [if_neg hneed]
            exact heads_chunkControl hbetween fun hreset => absurd hreset hneed
  | uncompressed1 =>
      rw [hat] at hbetween
      exact .next (hbetween.imp_right fun husable => ⟨husable.1, .inr husable.2⟩)
  | uncompressed2 =>
      rw [hat] at hbetween
      refine .next (hbetween.imp (fun hresets => ?_) fun husable => ?_)
      · exact hresets.imp_left fun hprops => ⟨hprops, rfl⟩
      · exact ⟨⟨valid_setUncompressed husable.1.valid husable.1.known _, rfl⟩, .inr husable.2⟩
  | compressed0 =>
      rw [hat] at hbetween
      exact .next (hbetween.imp_right fun husable => ⟨husable.1, .inr husable.2⟩)
  | compressed1 =>
      rw [hat] at hbetween
      refine .next (hbetween.imp (fun hresets => ?_) fun husable => ⟨husable.1, .inr husable.2⟩)
      rw [Resets]
      dsimp only
      obtain ⟨hprops, hknown⟩ | ⟨hcopy, hneed⟩ := hresets
      · rw [hprops]
        exact hknown
      · rw [hcopy]
        exact hneed
  | properties =>
      rw [hat] at hbetween
      dsimp only at hbetween ⊢
      have hknown : coder.lzma.uncompressedSize.isSome = true :=
        hbetween.elim id fun husable => husable.1.known
      cases hdecode : lclppbDecode byte with
      | none => exact .leave (by simp) (by simp)
      | some props => exact .next (.inr ⟨⟨valid_lzmaReset _ _ _, hknown⟩, .inl rfl⟩)
  | lzma => exact .leave (by simp) (by simp)
  | copy => exact .leave (by simp) (by simp)

end Header

end Lzma2Decoder

namespace Lzma2Loop

/-- A loop from which nothing undefined is reached. -/
structure Safe (loop : Lzma2Loop) (history : Bytes) : Prop where
  dict : loop.dict.Safe history
  valid : loop.coder.Valid loop.dict.full
  needReset : loop.dict.needReset = false

/-- What does not change while some bytes are written. -/
structure Extends (loop next : Lzma2Loop) (written : Bytes) : Prop where
  pos : next.dict.pos = loop.dict.pos + written.length
  limit : next.dict.limit = loop.dict.limit
  size : next.dict.size = loop.dict.size
  input : next.input <:+ loop.input

theorem Extends.refl (loop : Lzma2Loop) : loop.Extends loop [] :=
  ⟨rfl, rfl, rfl, List.suffix_refl _⟩

theorem Extends.trans {first second third : Lzma2Loop} {before after : Bytes}
    (hfirst : first.Extends second before) (hsecond : second.Extends third after) :
    first.Extends third (after ++ before) := by
  refine ⟨?_, hsecond.limit.trans hfirst.limit, hsecond.size.trans hfirst.size,
    hsecond.input.trans hfirst.input⟩
  rw [hsecond.pos, hfirst.pos, List.length_append]
  omega

/-- A chunk may end without input, but not twice. -/
def variant (loop : Lzma2Loop) : ℕ :=
  2 * loop.input.length +
    if loop.coder.sequence = .lzma ∨ loop.coder.sequence = .copy then 1 else 0

/-- What the decoder may be left with. -/
inductive Left (loop : Lzma2Loop) (history : Bytes) : LzmaRet × Lzma2Loop → Prop
  | pause {next : Lzma2Loop} {ret : LzmaRet} (written : Bytes)
      (hret : ret = .ok ∨ ret = .streamEnd) (hsafe : next.Safe (written ++ history))
      (hextends : loop.Extends next written) : Left loop history (ret, next)
  | dictReset {next : Lzma2Loop} (written : Bytes) (hdict : next.dict.Safe (written ++ history))
      (hneed : next.dict.needReset = true) (hresets : next.coder.Resets)
      (hextends : loop.Extends next written) (hinput : next.input.length < loop.input.length) :
      Left loop history (.ok, next)
  | error {next : Lzma2Loop} {ret : LzmaRet} (written : Bytes)
      (hret : ret ≠ .ok ∧ ret ≠ .streamEnd) (hdict : next.dict.Safe (written ++ history))
      (hneed : next.dict.needReset = false) (hextends : loop.Extends next written) :
      Left loop history (ret, next)

/-- What one turn may do. -/
def Steps (loop : Lzma2Loop) (history : Bytes) : Lzma2Loop ⊕ LzmaRet × Lzma2Loop → Prop
  | .inl next => ∃ written, next.Safe (written ++ history) ∧ loop.Extends next written ∧
      next.variant < loop.variant
  | .inr left => loop.Left history left

section Turn

variable {loop : Lzma2Loop} {history : Bytes}

/-- The LZMA decoder between two chunks when bytes are added to the dictionary. -/
theorem usable_mono {full more : ℕ} (hmore : full ≤ more) {lzma : LzmaDecoder}
    (husable : Lzma2Decoder.Usable full lzma) (hat : lzma.sequence = .isMatch) :
    Lzma2Decoder.Usable more lzma := by
  obtain ⟨⟨hrange, hsequence⟩, hknown⟩ := husable
  rw [hat] at hsequence
  refine ⟨⟨hrange, ?_⟩, hknown⟩
  rw [hat]
  exact LzmaLoop.valid_mono hmore hsequence

/-- `SEQ_LZMA`. -/
theorem steps_decodeLzma (hsafe : loop.Safe history) (hat : loop.coder.sequence = .lzma) :
    ∃ result, loop.decodeLzma = .ok result ∧ loop.Steps history result := by
  have hresets : ¬loop.coder.Resets := by
    rw [Lzma2Decoder.Resets, hat]
    exact id
  obtain ⟨⟨hlzma, hknown⟩, -⟩ := hsafe.valid.resolve_left hresets
  obtain ⟨size, hsize⟩ := Option.isSome_iff_exists.mp hknown
  obtain ⟨written, ret, after, hdecode, hdecoded⟩ :=
    LzmaDecoder.decoded_lzmaDecode hsafe.dict hlzma loop.input
  have hneed : after.dict.needReset = false := hdecoded.needReset.trans hsafe.needReset
  have husable (hret : ret ≠ .dataError) :
      Lzma2Decoder.Usable after.dict.full after.coder := by
    refine ⟨hdecoded.valid hret, ?_⟩
    rw [(hdecoded.remaining size hsize).2]
    rfl
  have hextends (coder : Lzma2Decoder) :
      loop.Extends ⟨coder, after.dict, after.input⟩ written :=
    ⟨hdecoded.pos, hdecoded.limit, hdecoded.size, hdecoded.suffix⟩
  rw [decodeLzma, hdecode, ok_bind]
  dsimp only
  by_cases hused : loop.coder.compressedSize < loop.input.length - after.input.length
  · rw [if_pos hused]
    exact ⟨_, rfl, .error written (by simp) hdecoded.safe hneed (hextends _)⟩
  · rw [if_neg hused]
    by_cases hret : ret = .streamEnd
    · rw [if_neg (not_not_intro hret)]
      by_cases hleft : loop.coder.compressedSize - (loop.input.length - after.input.length) = 0
      · rw [if_neg (not_not_intro hleft)]
        have hbetween := (hdecoded.complete hret size hsize).2
        refine ⟨_, rfl, written, ⟨hdecoded.safe, .inr ⟨husable (by simp [hret]), .inr hbetween⟩,
          hneed⟩, hextends _, ?_⟩
        have hlength := hdecoded.suffix.length_le
        have hbefore : loop.variant = 2 * loop.input.length + 1 := by
          rw [variant, hat, if_pos (.inl rfl)]
        rw [hbefore, variant, if_neg (by simp)]
        dsimp only
        omega
      · rw [if_pos hleft]
        exact ⟨_, rfl, .error written (by simp) hdecoded.safe hneed (hextends _)⟩
    · rw [if_pos hret]
      refine ⟨_, rfl, ?_⟩
      obtain rfl | hend | rfl := hdecoded.answer
      · exact .pause written (.inl rfl) ⟨hdecoded.safe, .inr ⟨husable (by simp), .inl hat⟩, hneed⟩
          (hextends _)
      · exact absurd hend hret
      · exact .error written (by simp) hdecoded.safe hneed (hextends _)

/-- `SEQ_COPY`. -/
theorem steps_decodeCopy (hsafe : loop.Safe history) (hat : loop.coder.sequence = .copy) :
    ∃ result, loop.decodeCopy = .ok result ∧ loop.Steps history result := by
  obtain ⟨hkeeps, hpos, hlimit⟩ := hsafe.dict
  obtain ⟨after, hwrite, hafter, hafterPos, hafterLimit, hafterSize, hneed, hfull⟩ :=
    hkeeps.write hpos hlimit loop.input loop.coder.compressedSize
  generalize htaken : min (min loop.input.length loop.coder.compressedSize)
    (loop.dict.limit - loop.dict.pos) = taken at hwrite hafter hafterPos
  have hlength : (loop.input.take taken).length = taken := by
    rw [List.length_take]
    omega
  have hdict : after.Safe ((loop.input.take taken).reverse ++ history) := by
    refine ⟨hafter, by omega, ?_⟩
    rw [hafterLimit, hafterSize]
    exact hlimit
  have hextends (coder : Lzma2Decoder) :
      loop.Extends ⟨coder, after, loop.input.drop taken⟩ (loop.input.take taken).reverse := by
    refine ⟨?_, hafterLimit, hafterSize, List.drop_suffix _ _⟩
    rw [List.length_reverse, hlength]
    exact hafterPos
  -- what has been copied does not touch the LZMA decoder
  have hvalid : loop.coder.needProperties = true ∨
      Lzma2Decoder.Usable after.full loop.coder.lzma ∧ loop.coder.lzma.sequence = .isMatch := by
    have hbefore := hsafe.valid
    rw [Lzma2Decoder.Valid, Lzma2Decoder.Resets, hat] at hbefore
    refine hbefore.imp_right fun husable => ?_
    have hbetween := husable.2.resolve_left (by simp)
    exact ⟨usable_mono hfull husable.1 hbetween, hbetween⟩
  rw [decodeCopy, hwrite, ok_bind]
  dsimp only
  by_cases hleft : loop.coder.compressedSize - taken = 0
  · rw [if_neg (not_not_intro hleft)]
    refine ⟨_, rfl, _, ⟨hdict, hvalid.imp_right fun husable => ⟨husable.1, .inr husable.2⟩,
      hneed.trans hsafe.needReset⟩, hextends _, ?_⟩
    have hbefore : loop.variant = 2 * loop.input.length + 1 := by
      rw [variant, hat, if_pos (.inr rfl)]
    rw [hbefore, variant, if_neg (by simp)]
    dsimp only
    rw [List.length_drop]
    omega
  · rw [if_pos hleft]
    refine ⟨_, rfl, .pause _ (.inl rfl) ⟨hdict, ?_, hneed.trans hsafe.needReset⟩ (hextends _)⟩
    rw [Lzma2Decoder.Valid, Lzma2Decoder.Resets]
    dsimp only
    rw [hat]
    exact hvalid.imp_right fun husable => ⟨husable.1, .inr husable.2⟩

theorem steps_decodeHeader (hsafe : loop.Safe history) {byte : UInt8} {rest : Bytes}
    (hinput : loop.input = byte :: rest)
    (hat : ¬(loop.coder.sequence = .lzma ∨ loop.coder.sequence = .copy)) :
    loop.Steps history (loop.decodeHeader byte rest) := by
  have hsuffix : rest <:+ loop.input := by
    rw [hinput]
    exact List.suffix_cons byte rest
  have hshorter : rest.length < loop.input.length := by
    rw [hinput, List.length_cons]
    exact Nat.lt_succ_self _
  have hheads := Lzma2Decoder.heads_header hsafe.valid byte fun hlzma => hat (.inl hlzma)
  rw [decodeHeader]
  cases hheader : loop.coder.header byte with
  | next coder =>
      rw [hheader] at hheads
      cases hheads with
      | next hvalid =>
          refine ⟨[], ⟨hsafe.dict, hvalid, hsafe.needReset⟩, ⟨rfl, rfl, rfl, hsuffix⟩, ?_⟩
          rw [variant, variant, if_neg hat]
          dsimp only
          split <;> omega
  | dictReset coder =>
      rw [hheader] at hheads
      cases hheads with
      | dictReset hresets =>
          have hdict := hsafe.dict
          exact .dictReset [] ⟨⟨hdict.keeps.nonempty, hdict.keeps.pos_le, hdict.keeps.full_eq,
            hdict.keeps.pos_mod, hdict.keeps.reads, hdict.keeps.zero⟩, hdict.pos_le,
            hdict.limit_le⟩ rfl hresets ⟨rfl, rfl, rfl, hsuffix⟩ hshorter
  | leave ret coder =>
      rw [hheader] at hheads
      cases hheads with
      | leave hret hvalid =>
          by_cases hend : ret = .streamEnd
          · exact .pause [] (.inr hend) ⟨hsafe.dict, hvalid hend, hsafe.needReset⟩
              ⟨rfl, rfl, rfl, hsuffix⟩
          · exact .error [] ⟨hret, hend⟩ hsafe.dict hsafe.needReset ⟨rfl, rfl, rfl, hsuffix⟩

/-- **One turn.** -/
theorem Safe.turn (hsafe : loop.Safe history) :
    ∃ result, loop.turn = .ok result ∧ loop.Steps history result := by
  rw [Lzma2Loop.turn]
  by_cases hlzma : loop.coder.sequence = .lzma
  · rw [if_pos hlzma]
    exact steps_decodeLzma hsafe hlzma
  · rw [if_neg hlzma]
    cases hinput : loop.input with
    | nil => exact ⟨_, rfl, .pause [] (.inl rfl) hsafe (Extends.refl loop)⟩
    | cons byte rest =>
        dsimp only
        by_cases hcopy : loop.coder.sequence = .copy
        · rw [if_pos hcopy]
          exact steps_decodeCopy hsafe hcopy
        · rw [if_neg hcopy]
          exact ⟨_, rfl, steps_decodeHeader hsafe hinput (not_or_intro hlzma hcopy)⟩

/-- **The loop.** -/
theorem Safe.run (hsafe : loop.Safe history) {fuel : ℕ} (hfuel : loop.variant < fuel) :
    ∃ left, Loop.runFor (Loop.fallible Lzma2Loop.turn) fuel loop = some (.ok left) ∧
      loop.Left history left := by
  refine Loop.exists_runFor_fallible
    (fun state => ∃ written, state.Safe (written ++ history) ∧ loop.Extends state written)
    variant ?_ ⟨[], hsafe, Extends.refl loop⟩ hfuel
  rintro state ⟨before, hstate, hbefore⟩
  obtain ⟨result, hturn, hsteps⟩ := hstate.turn
  cases result with
  | inl next =>
      obtain ⟨written, hnext, hextends, hvariant⟩ := hsteps
      rw [← List.append_assoc] at hnext
      exact .inl ⟨next, hturn, ⟨_, hnext, hbefore.trans hextends⟩, hvariant⟩
  | inr left =>
      refine .inr ⟨left, hturn, ?_⟩
      cases hsteps with
      | pause written hret hnext hextends =>
          rw [← List.append_assoc] at hnext
          exact .pause _ hret hnext (hbefore.trans hextends)
      | dictReset written hdict hneed hresets hextends hinput =>
          rw [← List.append_assoc] at hdict
          exact .dictReset _ hdict hneed hresets (hbefore.trans hextends)
            (hinput.trans_le hbefore.input.length_le)
      | error written hret hdict hneed hextends =>
          rw [← List.append_assoc] at hdict
          exact .error _ hret hdict hneed (hbefore.trans hextends)

end Turn

theorem variant_lt (loop : Lzma2Loop) : loop.variant < 2 * loop.input.length + 2 := by
  rw [variant]
  split <;> omega

end Lzma2Loop

/-- **Any input.** From a valid coder a call of `lzma2_decode` returns whatever the input
contains, without touching anything outside the dictionary; and unless the data are in
error it can be called again, if it has asked for that after the dictionary has been
reset. -/
theorem Lzma2Decoder.left_lzma2Decode {coder : Lzma2Decoder} {dict : LzmaDict}
    {history input : Bytes} (hsafe : (⟨coder, dict, input⟩ : Lzma2Loop).Safe history) :
    ∃ left, coder.lzma2Decode dict input = .ok left ∧
      (⟨coder, dict, input⟩ : Lzma2Loop).Left history left := by
  obtain ⟨left, hrun, hleft⟩ := hsafe.run (Lzma2Loop.variant_lt _)
  refine ⟨left, ?_, hleft⟩
  rw [lzma2Decode, hrun, Option.getD_some]

end Dht
