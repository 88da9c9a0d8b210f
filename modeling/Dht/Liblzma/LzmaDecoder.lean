/-
# The LZMA decoder

`lzma_decode` is one loop with a `switch` around it, by which a call enters the loop where
the call before had to leave it: because the input was used up in the middle of a symbol,
or because the dictionary had no room for what the symbol stands for. `sequence` says
where that was. One turn of the loop here is a symbol up to the point where it writes, or
the writing.

Whatever the input, a call returns; it reads and writes nothing outside the dictionary and
the arrays of probabilities, and leaves a state from which the next call can be made. This
rests on what `Valid` says of a state: distances that were accepted once stay inside the part
of the dictionary that has been written.
-/

import Dht.Lib.Loop
import Dht.Liblzma.Dictionary
import Dht.Liblzma.LzmaSymbols

namespace Dht

/-- Where the loop is entered. -/
inductive DecoderSequence
  | normalize
  | isMatch
  /-- In the middle of a symbol. -/
  | symbol (dialogue : Dialogue (RcContext LzmaProb) (LzmaEvent × LzmaModel))
  | literalWrite (byte : UInt8)
  | shortRep
  | copy (len : ℕ)
  | eopm

/-- `lzma_coder` of the LZMA decoder. The size is missing if an end of payload marker is
expected. -/
structure LzmaDecoder where
  reader : RangeReader LzmaProb
  model : LzmaModel
  props : LzmaProps
  uncompressedSize : Option ℕ
  sequence : DecoderSequence

/-- What the loop works on: the coder, the dictionary and the input that is left. -/
structure LzmaLoop where
  coder : LzmaDecoder
  dict : LzmaDict
  input : Bytes

namespace LzmaLoop

/-- The loop at another place. -/
def goTo (loop : LzmaLoop) (sequence : DecoderSequence) : LzmaLoop :=
  { loop with coder := { loop.coder with sequence := sequence } }

/-- What follows a symbol. -/
def conclude (loop : LzmaLoop) : LzmaEvent → LzmaLoop ⊕ LzmaRet × LzmaLoop
  | .literal byte => .inl (loop.goTo (.literalWrite byte))
  | .shortRep => .inl (loop.goTo .shortRep)
  | .copy len => .inl (loop.goTo (.copy len))
  | .checkedCopy len =>
      if loop.dict.isDistanceValid loop.coder.model.rep0 then .inl (loop.goTo (.copy len))
      else .inr (.dataError, loop)
  | .endMarker =>
      if loop.coder.uncompressedSize.isSome then .inr (.dataError, loop)
      else .inl (loop.goTo .eopm)
  | .invalid => .inr (.dataError, loop)

/-- Where the loop goes on after a symbol, or leaves in the middle of it. -/
def takeSymbol (loop : LzmaLoop) :
    Reading LzmaProb (LzmaEvent × LzmaModel) → LzmaLoop ⊕ LzmaRet × LzmaLoop
  | .starved left reader =>
      .inr (.ok, ⟨{ loop.coder with reader := reader, sequence := .symbol left }, loop.dict, []⟩)
  | .finished (event, model) reader rest =>
      conclude ⟨{ loop.coder with reader := reader, model := model }, loop.dict, rest⟩ event

/-- Decode a symbol from where its dialogue stands. -/
def decodeSymbol (loop : LzmaLoop)
    (dialogue : Dialogue (RcContext LzmaProb) (LzmaEvent × LzmaModel)) :
    Outcome (LzmaLoop ⊕ LzmaRet × LzmaLoop) := do
  let reading ← loop.coder.reader.readWithin RcContext.InBounds dialogue loop.input
  return loop.takeSymbol reading

/-- The bytes a literal is coded with. They are looked up before it is known whether the
symbol is one. -/
def literalContext (loop : LzmaLoop) : Outcome LiteralContext := do
  let prevByte ← loop.dict.get 0
  let matchByte ←
    if loop.coder.model.state.isLiteral then .ok 0 else loop.dict.get loop.coder.model.rep0
  return ⟨loop.dict.pos, prevByte, matchByte⟩

/-- Behind the loop: the last normalisation. -/
def finish (loop : LzmaLoop) : LzmaRet × LzmaLoop :=
  match loop.coder.reader.rc.normalize loop.input with
  | none => (.ok, loop.goTo .normalize)
  | some (rc, rest) =>
      (.ok, ⟨{ loop.coder with
        reader := { loop.coder.reader with rc := rc }, sequence := .isMatch }, loop.dict, rest⟩)

/-- `SEQ_NORMALIZE` and `SEQ_IS_MATCH`. -/
def isMatch (loop : LzmaLoop) : Outcome (LzmaLoop ⊕ LzmaRet × LzmaLoop) :=
  if loop.coder.uncompressedSize.isSome ∧ loop.dict.pos = loop.dict.limit then
    .ok (.inr loop.finish)
  else
    match loop.coder.reader.rc.normalize loop.input with
    | none => .ok (.inr (.ok, loop.goTo .isMatch))
    | some _ => do
        let context ← loop.literalContext
        loop.decodeSymbol (readSymbol loop.coder.props loop.coder.model context
          (!loop.dict.isDistanceValid 0))

/-- After a write: leave if the dictionary was full, else start the next symbol. -/
def written (loop : LzmaLoop) (full : Bool) (dict : LzmaDict) (sequence : DecoderSequence) :
    LzmaLoop ⊕ LzmaRet × LzmaLoop :=
  if full then .inr (.ok, { loop.goTo sequence with dict := dict })
  else .inl { loop.goTo .isMatch with dict := dict }

/-- One turn. -/
def turn (loop : LzmaLoop) : Outcome (LzmaLoop ⊕ LzmaRet × LzmaLoop) :=
  match loop.coder.sequence with
  | .normalize => loop.isMatch
  | .isMatch => loop.isMatch
  | .symbol dialogue => loop.decodeSymbol dialogue
  | .literalWrite byte => do
      let (full, dict) ← loop.dict.put byte
      return loop.written full dict (.literalWrite byte)
  | .shortRep => do
      let byte ← loop.dict.get loop.coder.model.rep0
      let (full, dict) ← loop.dict.put byte
      return loop.written full dict .shortRep
  | .copy len => do
      let (left, dict) ← loop.dict.dictRepeat loop.coder.model.rep0 len
      return loop.written (left ≠ 0) dict (.copy left)
  | .eopm =>
      match loop.coder.reader.rc.normalize loop.input with
      | none => .ok (.inr (.ok, loop))
      | some (rc, rest) =>
          .ok (.inr (.streamEnd, ⟨{ loop.coder with
            reader := { loop.coder.reader with rc := rc } }, loop.dict, rest⟩))

/-- The return code once everything that was expected has been written. -/
def finalRet (size : Option ℕ) (ret : LzmaRet) (sequence : DecoderSequence) : LzmaRet :=
  if size = some 0 ∧ ret = .ok then
    match sequence with
    | .normalize => .ok
    | .isMatch => .streamEnd
    | _ => .dataError
  else ret

/-- The label `out`. The limit of the dictionary is not saved. -/
def save (loop : LzmaLoop) (dict : LzmaDict) (ret : LzmaRet) : LzmaRet × LzmaLoop :=
  let size := loop.coder.uncompressedSize.map (· - (loop.dict.pos - dict.pos))
  let ret := finalRet size ret loop.coder.sequence
  let coder := { loop.coder with uncompressedSize := size }
  let dict := { loop.dict with limit := dict.limit }
  if ret = .streamEnd then
    (if coder.reader.rc.isFinished then .streamEnd else .dataError,
      ⟨{ coder with reader := { coder.reader with rc := .reset } }, dict, loop.input⟩)
  else (ret, ⟨coder, dict, loop.input⟩)

end LzmaLoop

namespace LzmaDecoder

/-- The limit of the dictionary during a call. -/
def limit (coder : LzmaDecoder) (dict : LzmaDict) : ℕ :=
  match coder.uncompressedSize with
  | some size => if size < dict.limit - dict.pos then dict.pos + size else dict.limit
  | none => dict.limit

/-- The coder, the dictionary and the input with which the loop is entered. -/
def enter (coder : LzmaDecoder) (rc : LzmaRangeDecoder) (dict : LzmaDict) (input : Bytes) :
    LzmaLoop :=
  ⟨{ coder with reader := { coder.reader with rc := rc } },
    { dict with limit := coder.limit dict }, input⟩

/-- `lzma_decode`. Each byte takes at most two turns. -/
def lzmaDecode (coder : LzmaDecoder) (dict : LzmaDict) (input : Bytes) :
    Outcome (LzmaRet × LzmaLoop) :=
  match coder.reader.rc.readInit input with
  | (.streamEnd, rc, rest) => do
      let (ret, loop) ← (Loop.runFor (Loop.fallible LzmaLoop.turn)
        (2 * (coder.limit dict - dict.pos) + 3) (coder.enter rc dict rest)).getD undefined
      return loop.save dict ret
  | (ret, rc, rest) =>
      .ok (ret, ⟨{ coder with reader := { coder.reader with rc := rc } }, dict, rest⟩)

/-- `lzma_decoder_reset`. Probabilities that the properties rule out are reset too, and
nothing reads them. -/
def reset (coder : LzmaDecoder) (props : LzmaProps) : LzmaDecoder :=
  { coder with
    reader := ⟨.reset, fun _ => bitReset⟩
    model := .reset
    props := props
    sequence := .isMatch }

/-- `lzma_decoder_uncompressed`. -/
def setUncompressed (coder : LzmaDecoder) (size : Option ℕ) : LzmaDecoder :=
  { coder with uncompressedSize := size }

end LzmaDecoder

/-! ## Any input -/

/-- A dictionary with a limit, and the history it keeps. -/
structure LzmaDict.Safe (dict : LzmaDict) (history : Bytes) : Prop where
  keeps : dict.Keeps history
  pos_le : dict.pos ≤ dict.limit
  limit_le : dict.limit ≤ dict.size

/-- A distance that has been used lies inside what has been written, and one that has
not is zero. -/
def WithinFull (full distance : ℕ) : Prop := distance = 0 ∨ distance < full

/-- The last symbol was a match only if something has been written. -/
structure LzmaModel.Valid (full : ℕ) (model : LzmaModel) : Prop where
  reps : model.Reps (WithinFull full)
  state : model.state.isLiteral = false → 0 < full

/-- A place the loop may be entered at. -/
def DecoderSequence.Valid (full : ℕ) (size : Option ℕ) (model : LzmaModel) :
    DecoderSequence → Prop
  | .normalize => model.Valid full
  | .isMatch => model.Valid full
  | .symbol dialogue =>
      dialogue.Meets RcContext.InBounds (LzmaEvent.Leaves (WithinFull full) (decide (full = 0)))
  | .literalWrite _ => model.Valid full
  | .shortRep => model.Valid full ∧ 0 < full
  | .copy len => model.Valid full ∧ model.rep0 < full ∧ 0 < len
  | .eopm => size = none

/-- A coder between two calls, given how much of the dictionary has been written. -/
structure LzmaDecoder.Valid (full : ℕ) (coder : LzmaDecoder) : Prop where
  inRange : coder.reader.rc.InRange
  sequence : coder.sequence.Valid full coder.uncompressedSize coder.model

namespace LzmaLoop

/-- A loop from which nothing undefined is reached. -/
structure Safe (loop : LzmaLoop) (history : Bytes) : Prop where
  dict : loop.dict.Safe history
  ready : loop.coder.reader.rc.Ready
  sequence : loop.coder.sequence.Valid loop.dict.full loop.coder.uncompressedSize loop.coder.model

/-- What a loop that goes on or leaves has not changed, if it has written some bytes. -/
structure Extends (loop next : LzmaLoop) (written : Bytes) : Prop where
  pos : next.dict.pos = loop.dict.pos + written.length
  limit : next.dict.limit = loop.dict.limit
  size : next.dict.size = loop.dict.size
  needReset : next.dict.needReset = loop.dict.needReset
  props : next.coder.props = loop.coder.props
  uncompressed : next.coder.uncompressedSize = loop.coder.uncompressedSize
  input : next.input <:+ loop.input

theorem Extends.refl (loop : LzmaLoop) : loop.Extends loop [] :=
  ⟨rfl, rfl, rfl, rfl, rfl, rfl, List.suffix_refl _⟩

theorem Extends.trans {first second third : LzmaLoop} {before after : Bytes}
    (hfirst : first.Extends second before) (hsecond : second.Extends third after) :
    first.Extends third (after ++ before) := by
  refine ⟨?_, hsecond.limit.trans hfirst.limit, hsecond.size.trans hfirst.size,
    hsecond.needReset.trans hfirst.needReset, hsecond.props.trans hfirst.props,
    hsecond.uncompressed.trans hfirst.uncompressed, hsecond.input.trans hfirst.input⟩
  rw [hsecond.pos, hfirst.pos, List.length_append]
  omega

/-- The turns that may follow without a byte being written. -/
def phase : DecoderSequence → ℕ
  | .normalize => 2
  | .isMatch => 2
  | .symbol _ => 2
  | .literalWrite _ => 1
  | .shortRep => 1
  | .copy _ => 1
  | .eopm => 1

/-- What the turns of the loop lower. -/
def variant (loop : LzmaLoop) : ℕ :=
  2 * (loop.dict.limit - loop.dict.pos) + phase loop.coder.sequence

/-- What one turn may do. -/
inductive Steps (loop : LzmaLoop) (history : Bytes) : LzmaLoop ⊕ LzmaRet × LzmaLoop → Prop
  | next {next : LzmaLoop} (written : Bytes) (hsafe : next.Safe (written ++ history))
      (hextends : loop.Extends next written) (hvariant : next.variant < loop.variant) :
      Steps loop history (.inl next)
  | pause {next : LzmaLoop} (written : Bytes) (hsafe : next.Safe (written ++ history))
      (hextends : loop.Extends next written) : Steps loop history (.inr (.ok, next))
  | marker {next : LzmaLoop} (hsafe : next.Safe history) (hextends : loop.Extends next [])
      (hsize : loop.coder.uncompressedSize = none) : Steps loop history (.inr (.streamEnd, next))
  | error {next : LzmaLoop} (hdict : next.dict.Safe history) (hextends : loop.Extends next []) :
      Steps loop history (.inr (.dataError, next))

section Turn

variable {loop : LzmaLoop} {history : Bytes}

theorem valid_mono {full more : ℕ} (hmore : full ≤ more) {model : LzmaModel}
    (hvalid : model.Valid full) : model.Valid more := by
  have hwithin (distance : ℕ) (hdistance : WithinFull full distance) :
      WithinFull more distance := hdistance.imp_right (hmore.trans_lt' ·)
  obtain ⟨⟨h0, h1, h2, h3⟩, hstate⟩ := hvalid
  exact ⟨⟨hwithin _ h0, hwithin _ h1, hwithin _ h2, hwithin _ h3⟩,
    fun hnonliteral => (hstate hnonliteral).trans_le hmore⟩

theorem lt_of_withinFull {full distance : ℕ} (hwithin : WithinFull full distance)
    (hpos : 0 < full) : distance < full := by
  obtain rfl | hlt := hwithin
  · exact hpos
  · exact hlt

/-- After a symbol. The event has been decoded in the state `loop` is in now. -/
theorem steps_conclude {before : LzmaLoop} (hdict : loop.dict.Safe history)
    (hready : loop.coder.reader.rc.Ready) (hextends : before.Extends loop [])
    (hphase : phase before.coder.sequence = 2) {event : LzmaEvent}
    (hleaves : LzmaEvent.Leaves (WithinFull loop.dict.full) (decide (loop.dict.full = 0))
      (event, loop.coder.model)) : before.Steps history (loop.conclude event) := by
  have hnext (sequence : DecoderSequence) (hone : phase sequence = 1)
      (hvalid : sequence.Valid loop.dict.full loop.coder.uncompressedSize loop.coder.model) :
      before.Steps history (.inl (loop.goTo sequence)) := by
    refine .next [] ⟨hdict, hready, hvalid⟩
      ⟨hextends.pos, hextends.limit, hextends.size, hextends.needReset, hextends.props,
        hextends.uncompressed, hextends.input⟩ ?_
    have hpos := hextends.pos
    have hlimit := hextends.limit
    rw [List.length_nil, Nat.add_zero] at hpos
    change 2 * (loop.dict.limit - loop.dict.pos) + phase sequence < before.variant
    rw [variant, hphase, hone, hpos, hlimit]
    omega
  cases event with
  | literal byte =>
      obtain ⟨hliteral, hreps⟩ := hleaves
      refine hnext (.literalWrite byte) rfl ⟨hreps, fun hnonliteral => ?_⟩
      rw [hliteral] at hnonliteral
      cases hnonliteral
  | shortRep =>
      obtain ⟨hempty, hreps⟩ := hleaves
      have hfull : 0 < loop.dict.full := Nat.pos_of_ne_zero (of_decide_eq_false hempty)
      exact hnext .shortRep rfl ⟨⟨hreps, fun _ => hfull⟩, hfull⟩
  | copy len =>
      obtain ⟨hempty, hlen, hreps⟩ := hleaves
      have hfull : 0 < loop.dict.full := Nat.pos_of_ne_zero (of_decide_eq_false hempty)
      exact hnext (.copy len) rfl ⟨⟨hreps, fun _ => hfull⟩,
        lt_of_withinFull hreps.rep0 hfull, by omega⟩
  | checkedCopy len =>
      obtain ⟨hlen, -, h1, h2, h3⟩ := hleaves
      rw [conclude]
      by_cases hvalid : loop.dict.isDistanceValid loop.coder.model.rep0
      · rw [if_pos hvalid]
        rw [LzmaDict.isDistanceValid, decide_eq_true_iff] at hvalid
        exact hnext (.copy len) rfl ⟨⟨⟨.inr hvalid, h1, h2, h3⟩,
          fun _ => Nat.zero_lt_of_lt hvalid⟩, hvalid, by omega⟩
      · rw [if_neg hvalid]
        exact .error hdict hextends
  | endMarker =>
      rw [conclude]
      by_cases hsome : loop.coder.uncompressedSize.isSome
      · rw [if_pos hsome]
        exact .error hdict hextends
      · rw [if_neg hsome]
        exact hnext .eopm rfl (Option.not_isSome_iff_eq_none.mp hsome)
  | invalid => exact .error hdict hextends

theorem steps_decodeSymbol {before : LzmaLoop} (hdict : loop.dict.Safe history)
    (hready : loop.coder.reader.rc.Ready) (hextends : before.Extends loop [])
    (hphase : phase before.coder.sequence = 2)
    {dialogue : Dialogue (RcContext LzmaProb) (LzmaEvent × LzmaModel)}
    (hmeets : dialogue.Meets RcContext.InBounds
      (LzmaEvent.Leaves (WithinFull loop.dict.full) (decide (loop.dict.full = 0)))) :
    ∃ result, loop.decodeSymbol dialogue = .ok result ∧ before.Steps history result := by
  refine ⟨loop.takeSymbol (loop.coder.reader.read dialogue loop.input),
    bind_eq_ok_iff.mpr ⟨_, RangeReader.readWithin_of_meets hmeets _ _, rfl⟩, ?_⟩
  obtain ⟨⟨event, model⟩, reader, rest, hread, hleaves, hafter, hsuffix⟩ |
    ⟨left, reader, hread, hleft, hafter⟩ := RangeReader.read_cases hmeets hready loop.input
  · rw [hread]
    let after : LzmaLoop :=
      ⟨{ loop.coder with reader := reader, model := model }, loop.dict, rest⟩
    have hafterDict : after.dict.Safe history := hdict
    exact steps_conclude hafterDict hafter
      ⟨hextends.pos, hextends.limit, hextends.size, hextends.needReset, hextends.props,
        hextends.uncompressed, hsuffix.trans hextends.input⟩ hphase hleaves
  · rw [hread]
    exact .pause [] ⟨hdict, hafter, hleft⟩
      ⟨hextends.pos, hextends.limit, hextends.size, hextends.needReset, hextends.props,
        hextends.uncompressed, List.nil_suffix⟩

theorem exists_literalContext (hdict : loop.dict.Safe history)
    (hvalid : loop.coder.model.Valid loop.dict.full) :
    loop.literalContext = .ok ⟨loop.dict.pos, history.getD 0 0,
      if loop.coder.model.state.isLiteral then 0 else history.getD loop.coder.model.rep0 0⟩ := by
  rw [literalContext, hdict.keeps.get_zero, ok_bind]
  by_cases hliteral : loop.coder.model.state.isLiteral
  · rw [if_pos hliteral, if_pos hliteral]
    rfl
  · rw [if_neg hliteral, if_neg hliteral]
    have hfull := hvalid.state (Bool.not_eq_true _ ▸ hliteral)
    rw [hdict.keeps.get_eq (lt_of_withinFull hvalid.reps.rep0 hfull)]
    rfl

theorem steps_finish (hdict : loop.dict.Safe history) (hready : loop.coder.reader.rc.Ready)
    (hvalid : loop.coder.model.Valid loop.dict.full) :
    loop.Steps history (.inr loop.finish) := by
  rw [finish]
  cases hnormalize : loop.coder.reader.rc.normalize loop.input with
  | none =>
      exact .pause [] ⟨hdict, hready, hvalid⟩ ⟨rfl, rfl, rfl, rfl, rfl, rfl, List.suffix_refl _⟩
  | some pair =>
      obtain ⟨rc, rest⟩ := pair
      obtain ⟨hrc, -, hsuffix⟩ := hready.normalize hnormalize
      exact .pause [] ⟨hdict, hrc, hvalid⟩ ⟨rfl, rfl, rfl, rfl, rfl, rfl, hsuffix⟩

/-- The start of a symbol. -/
theorem steps_isMatch (hdict : loop.dict.Safe history) (hready : loop.coder.reader.rc.Ready)
    (hphase : phase loop.coder.sequence = 2) (hvalid : loop.coder.model.Valid loop.dict.full) :
    ∃ result, loop.isMatch = .ok result ∧ loop.Steps history result := by
  rw [isMatch]
  by_cases hend : loop.coder.uncompressedSize.isSome ∧ loop.dict.pos = loop.dict.limit
  · rw [if_pos hend]
    exact ⟨_, rfl, steps_finish hdict hready hvalid⟩
  · rw [if_neg hend]
    cases loop.coder.reader.rc.normalize loop.input with
    | none =>
        exact ⟨_, rfl, .pause [] ⟨hdict, hready, hvalid⟩
          ⟨rfl, rfl, rfl, rfl, rfl, rfl, List.suffix_refl _⟩⟩
    | some _ =>
        rw [exists_literalContext hdict hvalid]
        refine steps_decodeSymbol hdict hready (Extends.refl loop) hphase ?_
        have hempty : (!loop.dict.isDistanceValid 0) = decide (loop.dict.full = 0) := by
          rw [LzmaDict.isDistanceValid, ← decide_not]
          exact decide_eq_decide.mpr (by omega)
        rw [hempty]
        exact meets_readSymbol loop.coder.props hvalid.reps _ _

/-- A single byte. -/
theorem steps_put (hdict : loop.dict.Safe history) (hready : loop.coder.reader.rc.Ready)
    (hphase : phase loop.coder.sequence = 1) (hvalid : loop.coder.model.Valid loop.dict.full)
    (hsequence : loop.coder.sequence.Valid loop.dict.full loop.coder.uncompressedSize
      loop.coder.model) (byte : UInt8) :
    ∃ full dict, loop.dict.put byte = .ok (full, dict) ∧
      loop.Steps history (loop.written full dict loop.coder.sequence) := by
  by_cases hend : loop.dict.pos = loop.dict.limit
  · refine ⟨_, _, LzmaDict.put_full hend byte, ?_⟩
    rw [written, if_pos rfl]
    exact .pause [] ⟨hdict, hready, hsequence⟩ ⟨rfl, rfl, rfl, rfl, rfl, rfl, List.suffix_refl _⟩
  · have hroom : loop.dict.pos < loop.dict.limit := Nat.lt_of_le_of_ne hdict.pos_le hend
    obtain ⟨hput, hkeeps⟩ := hdict.keeps.put hroom hdict.limit_le byte
    have hlimit := hdict.limit_le
    refine ⟨_, _, hput, ?_⟩
    rw [written, if_neg Bool.false_ne_true]
    refine .next [byte] ⟨⟨hkeeps, hroom, ?_⟩, hready, valid_mono (le_max_left _ _) hvalid⟩
      ⟨rfl, rfl, LzmaDict.size_append byte, rfl, rfl, rfl, List.suffix_refl _⟩ ?_
    · rw [LzmaDict.size_append]
      exact hlimit
    · change 2 * (loop.dict.limit - (loop.dict.pos + 1)) + 2 < loop.variant
      rw [variant, hphase]
      omega

theorem length_copyHistory (distance count : ℕ) (history : Bytes) :
    ∃ bytes, copyHistory distance count history = bytes ++ history ∧ bytes.length = count := by
  induction count generalizing history with
  | zero => exact ⟨[], rfl, rfl⟩
  | succ count ih =>
      obtain ⟨bytes, hcopy, hlength⟩ := ih (history.getD distance 0 :: history)
      refine ⟨bytes ++ [history.getD distance 0], ?_, ?_⟩
      · rw [copyHistory, hcopy, List.append_assoc, List.singleton_append]
      · rw [List.length_append, hlength, List.length_singleton]

/-- A match. -/
theorem steps_copy (hdict : loop.dict.Safe history) (hready : loop.coder.reader.rc.Ready)
    (hphase : phase loop.coder.sequence = 1) (hvalid : loop.coder.model.Valid loop.dict.full)
    (hdistance : loop.coder.model.rep0 < loop.dict.full) {len : ℕ} (hlen : 0 < len) :
    ∃ left dict, loop.dict.dictRepeat loop.coder.model.rep0 len = .ok (left, dict) ∧
      loop.Steps history (loop.written (left ≠ 0) dict (.copy left)) := by
  have hlimit := hdict.limit_le
  have hpos := hdict.pos_le
  obtain ⟨after, hrepeat, hkeeps, hafter, hsame, hsize, hreset, hfull⟩ :=
    hdict.keeps.dictRepeat hpos hlimit (decide_eq_true hdistance) len
  obtain ⟨bytes, hbytes, hlength⟩ := length_copyHistory loop.coder.model.rep0
    (min (loop.dict.limit - loop.dict.pos) len) history
  rw [hbytes] at hkeeps
  refine ⟨_, after, hrepeat, ?_⟩
  have hafterSafe : after.Safe (bytes ++ history) := by
    refine ⟨hkeeps, ?_, ?_⟩
    · omega
    · rw [hsame, hsize]
      exact hlimit
  by_cases hleft : len - min (loop.dict.limit - loop.dict.pos) len = 0
  · rw [hleft, written, if_neg (by simp)]
    refine .next bytes ⟨hafterSafe, hready, valid_mono hfull hvalid⟩
      ⟨by rw [hlength]; exact hafter, hsame, hsize, hreset, rfl, rfl, List.suffix_refl _⟩ ?_
    change 2 * (after.limit - after.pos) + 2 < loop.variant
    rw [variant, hphase, hsame, hafter]
    omega
  · rw [written, if_pos (by simpa using hleft)]
    exact .pause bytes ⟨hafterSafe, hready, valid_mono hfull hvalid,
        hdistance.trans_le hfull, Nat.pos_of_ne_zero hleft⟩
      ⟨by rw [hlength]; exact hafter, hsame, hsize, hreset, rfl, rfl, List.suffix_refl _⟩

/-- **One turn.** From a safe state a turn is defined, and ends in a safe state or with
an error of the data. -/
theorem Safe.turn (hsafe : loop.Safe history) :
    ∃ result, loop.turn = .ok result ∧ loop.Steps history result := by
  obtain ⟨hdict, hready, hsequence⟩ := hsafe
  rw [LzmaLoop.turn]
  cases hat : loop.coder.sequence with
  | normalize =>
      rw [hat] at hsequence
      exact steps_isMatch hdict hready (by rw [hat]; rfl) hsequence
  | isMatch =>
      rw [hat] at hsequence
      exact steps_isMatch hdict hready (by rw [hat]; rfl) hsequence
  | symbol dialogue =>
      rw [hat] at hsequence
      exact steps_decodeSymbol hdict hready (Extends.refl loop) (by rw [hat]; rfl) hsequence
  | literalWrite byte =>
      have hvalid := hsequence
      rw [hat] at hvalid
      obtain ⟨full, dict, hput, hsteps⟩ := steps_put hdict hready (by rw [hat]; rfl) hvalid
        hsequence byte
      dsimp only
      rw [hput, ok_bind, ← hat]
      exact ⟨_, rfl, hsteps⟩
  | shortRep =>
      have hvalid := hsequence
      rw [hat] at hvalid
      obtain ⟨full, dict, hput, hsteps⟩ := steps_put hdict hready (by rw [hat]; rfl) hvalid.1
        hsequence (history.getD loop.coder.model.rep0 0)
      dsimp only
      rw [hdict.keeps.get_eq (lt_of_withinFull hvalid.1.reps.rep0 hvalid.2), ok_bind, hput,
        ok_bind, ← hat]
      exact ⟨_, rfl, hsteps⟩
  | copy len =>
      rw [hat] at hsequence
      obtain ⟨hvalid, hdistance, hlen⟩ := hsequence
      obtain ⟨left, dict, hrepeat, hsteps⟩ := steps_copy hdict hready (by rw [hat]; rfl) hvalid
        hdistance hlen
      dsimp only
      rw [hrepeat, ok_bind]
      exact ⟨_, rfl, hsteps⟩
  | eopm =>
      dsimp only
      cases hnormalize : loop.coder.reader.rc.normalize loop.input with
      | none => exact ⟨_, rfl, .pause [] ⟨hdict, hready, hsequence⟩ (Extends.refl loop)⟩
      | some pair =>
          obtain ⟨rc, rest⟩ := pair
          obtain ⟨hrc, -, hsuffix⟩ := hready.normalize hnormalize
          have hsize := hsequence
          rw [hat] at hsize
          exact ⟨_, rfl, .marker ⟨hdict, hrc, hsequence⟩
            ⟨rfl, rfl, rfl, rfl, rfl, rfl, hsuffix⟩ hsize⟩

end Turn

/-- How the loop may be left. -/
inductive Left (loop : LzmaLoop) (history : Bytes) : LzmaRet × LzmaLoop → Prop
  | pause {next : LzmaLoop} (written : Bytes) (hsafe : next.Safe (written ++ history))
      (hextends : loop.Extends next written) : Left loop history (.ok, next)
  | marker {next : LzmaLoop} (written : Bytes) (hsafe : next.Safe (written ++ history))
      (hextends : loop.Extends next written) (hsize : loop.coder.uncompressedSize = none) :
      Left loop history (.streamEnd, next)
  | error {next : LzmaLoop} (written : Bytes) (hdict : next.dict.Safe (written ++ history))
      (hextends : loop.Extends next written) : Left loop history (.dataError, next)

/-- **The loop.** It is left, after at most two turns for each byte there is room for. -/
theorem Safe.run {loop : LzmaLoop} {history : Bytes} (hsafe : loop.Safe history) {fuel : ℕ}
    (hfuel : loop.variant < fuel) :
    ∃ result, Loop.runFor (Loop.fallible LzmaLoop.turn) fuel loop = some (.ok result) ∧
      loop.Left history result := by
  refine Loop.exists_runFor_fallible
    (fun state => ∃ written, state.Safe (written ++ history) ∧ loop.Extends state written)
    variant ?_ ⟨[], hsafe, Extends.refl loop⟩ hfuel
  rintro state ⟨before, hstate, hbefore⟩
  obtain ⟨result, hturn, hsteps⟩ := hstate.turn
  cases hsteps with
  | next written hsafe hextends hvariant =>
      rw [← List.append_assoc] at hsafe
      exact .inl ⟨_, hturn, ⟨_, hsafe, hbefore.trans hextends⟩, hvariant⟩
  | pause written hsafe hextends =>
      rw [← List.append_assoc] at hsafe
      exact .inr ⟨_, hturn, .pause _ hsafe (hbefore.trans hextends)⟩
  | marker hsafe hextends hsize =>
      rw [hbefore.uncompressed] at hsize
      exact .inr ⟨_, hturn, .marker _ hsafe (hbefore.trans hextends) hsize⟩
  | error hdict hextends => exact .inr ⟨_, hturn, .error _ hdict (hbefore.trans hextends)⟩

end LzmaLoop

namespace LzmaDecoder

/-- What a call of the decoder leaves: the bytes it has written, last one first, extend
the history, and a known size is counted down and reached exactly at the end. -/
structure Decoded (coder : LzmaDecoder) (dict : LzmaDict) (input history : Bytes)
    (written : Bytes) (ret : LzmaRet) (after : LzmaLoop) : Prop where
  safe : after.dict.Safe (written ++ history)
  pos : after.dict.pos = dict.pos + written.length
  limit : after.dict.limit = dict.limit
  size : after.dict.size = dict.size
  needReset : after.dict.needReset = dict.needReset
  props : after.coder.props = coder.props
  suffix : after.input <:+ input
  answer : ret = .ok ∨ ret = .streamEnd ∨ ret = .dataError
  valid : ret ≠ .dataError → after.coder.Valid after.dict.full
  remaining : ∀ size, coder.uncompressedSize = some size →
    written.length ≤ size ∧ after.coder.uncompressedSize = some (size - written.length)
  complete : ret = .streamEnd → ∀ size, coder.uncompressedSize = some size →
    written.length = size ∧ after.coder.sequence = .isMatch

section Decode

variable {coder : LzmaDecoder} {dict : LzmaDict} {history : Bytes}

theorem limit_bounds (hpos : dict.pos ≤ dict.limit) :
    dict.pos ≤ coder.limit dict ∧ coder.limit dict ≤ dict.limit := by
  rw [limit]
  cases coder.uncompressedSize with
  | none => exact ⟨hpos, le_rfl⟩
  | some size =>
      dsimp only
      split <;> omega

/-- A known size bounds what may be written. -/
theorem limit_le_size (hpos : dict.pos ≤ dict.limit) {size : ℕ}
    (hsize : coder.uncompressedSize = some size) : coder.limit dict ≤ dict.pos + size := by
  rw [limit, hsize]
  dsimp only
  split <;> omega

/-- Below the known size the limit is that of the dictionary. -/
theorem limit_eq_of_lt {size : ℕ} (hsize : coder.uncompressedSize = some size)
    (hlt : coder.limit dict < dict.pos + size) : coder.limit dict = dict.limit := by
  rw [limit, hsize] at hlt ⊢
  dsimp only at hlt ⊢
  split at hlt
  · omega
  · rw [if_neg (by assumption)]

/-- The loop is entered in a safe state. -/
theorem safe_enter (hdict : dict.Safe history) {rc : LzmaRangeDecoder} (hready : rc.Ready)
    (hvalid : coder.Valid dict.full) (input : Bytes) :
    (coder.enter rc dict input).Safe history := by
  obtain ⟨hlow, hhigh⟩ : dict.pos ≤ coder.limit dict ∧ coder.limit dict ≤ dict.limit :=
    limit_bounds hdict.pos_le
  exact ⟨⟨hdict.keeps.setLimit _, hlow, hhigh.trans hdict.limit_le⟩, hready, hvalid.sequence⟩

theorem variant_enter_lt (coder : LzmaDecoder) (rc : LzmaRangeDecoder) (dict : LzmaDict)
    (input : Bytes) :
    (coder.enter rc dict input).variant < 2 * (coder.limit dict - dict.pos) + 3 := by
  have hphase : LzmaLoop.phase coder.sequence ≤ 2 := by
    cases coder.sequence <;> simp [LzmaLoop.phase]
  change 2 * (coder.limit dict - dict.pos) + LzmaLoop.phase coder.sequence < _
  omega

/-- The size that is left concerns no place of the loop but the end of payload marker. -/
theorem valid_map {sequence : DecoderSequence} {full : ℕ} {size : Option ℕ} {model : LzmaModel}
    (hvalid : sequence.Valid full size model) (f : ℕ → ℕ) :
    sequence.Valid full (size.map f) model := by
  cases sequence with
  | eopm =>
      have hnone : size = none := hvalid
      rw [hnone]
      rfl
  | normalize => exact hvalid
  | isMatch => exact hvalid
  | symbol dialogue => exact hvalid
  | literalWrite byte => exact hvalid
  | shortRep => exact hvalid
  | copy len => exact hvalid

/-- `LZMA_STREAM_END` means that the expected size has been reached, unless it is the
answer to a marker. -/
theorem finalRet_cases (size : Option ℕ) (ret : LzmaRet) (sequence : DecoderSequence) :
    LzmaLoop.finalRet size ret sequence = ret ∨
      size = some 0 ∧ ret = .ok ∧
        (LzmaLoop.finalRet size ret sequence = .streamEnd ∧ sequence = .isMatch ∨
          LzmaLoop.finalRet size ret sequence = .dataError) := by
  unfold LzmaLoop.finalRet
  by_cases hend : size = some 0 ∧ ret = .ok
  · rw [if_pos hend]
    obtain ⟨hsize, rfl⟩ := hend
    cases sequence with
    | normalize => exact .inl rfl
    | isMatch => exact .inr ⟨hsize, rfl, .inl ⟨rfl, rfl⟩⟩
    | symbol dialogue => exact .inr ⟨hsize, rfl, .inr rfl⟩
    | literalWrite byte => exact .inr ⟨hsize, rfl, .inr rfl⟩
    | shortRep => exact .inr ⟨hsize, rfl, .inr rfl⟩
    | copy len => exact .inr ⟨hsize, rfl, .inr rfl⟩
    | eopm => exact .inr ⟨hsize, rfl, .inr rfl⟩
  · rw [if_neg hend]
    exact .inl rfl

/-- What is saved when the loop has been left. -/
theorem decoded_save {rc : LzmaRangeDecoder} {input rest written : Bytes} {ret : LzmaRet}
    {next : LzmaLoop} (hsuffix : rest <:+ input) (hpos : dict.pos ≤ dict.limit)
    (hlimit : dict.limit ≤ dict.size) (hextends : (coder.enter rc dict rest).Extends next written)
    (hdict : next.dict.Safe (written ++ history))
    (hret : ret = .ok ∧ next.Safe (written ++ history) ∨
      ret = .streamEnd ∧ next.Safe (written ++ history) ∧ coder.uncompressedSize = none ∨
      ret = .dataError) :
    coder.Decoded dict input history written (next.save dict ret).1 (next.save dict ret).2 := by
  have hafter : next.dict.pos = dict.pos + written.length := hextends.pos
  have hcount : next.dict.pos - dict.pos = written.length := by omega
  have hinside : next.dict.pos ≤ coder.limit dict := hdict.pos_le.trans_eq hextends.limit
  have hsize : next.coder.uncompressedSize = coder.uncompressedSize := hextends.uncompressed
  have hsame : next.dict.size = dict.size := hextends.size
  have hsafe : LzmaDict.Safe { next.dict with limit := dict.limit } (written ++ history) :=
    ⟨hdict.keeps.setLimit _, hinside.trans (limit_bounds hpos).2, hlimit.trans_eq hsame.symm⟩
  have hremaining : ∀ size, coder.uncompressedSize = some size → written.length ≤ size ∧
      next.coder.uncompressedSize.map (· - (next.dict.pos - dict.pos)) =
        some (size - written.length) := by
    intro size hknown
    have hbound := limit_le_size hpos hknown
    refine ⟨by omega, ?_⟩
    rw [hsize, hknown, hcount]
    rfl
  have hvalid (hnoerror : ret ≠ .dataError) : next.Safe (written ++ history) := by
    obtain ⟨-, hsafe⟩ | ⟨-, hsafe, -⟩ | herror := hret
    · exact hsafe
    · exact hsafe
    · exact absurd herror hnoerror
  have hcases := finalRet_cases
    (next.coder.uncompressedSize.map (· - (next.dict.pos - dict.pos))) ret next.coder.sequence
  rw [LzmaLoop.save]
  dsimp only
  generalize LzmaLoop.finalRet (next.coder.uncompressedSize.map
    (· - (next.dict.pos - dict.pos))) ret next.coder.sequence = final at hcases ⊢
  -- an error of the loop is never taken for anything else
  have hnoerror (hfinalRet : final ≠ .dataError) : ret ≠ .dataError := by
    rintro rfl
    obtain hsame | ⟨-, hok, -⟩ := hcases
    · exact hfinalRet hsame
    · cases hok
  by_cases hend : final = .streamEnd
  · rw [if_pos hend]
    subst hend
    have hsafeNext := hvalid (hnoerror (by simp))
    refine ⟨hsafe, hafter, rfl, hsame, hextends.needReset, hextends.props,
      hextends.input.trans hsuffix, ?_, fun _ => ?_, hremaining, fun _ size hknown => ?_⟩
    · split
      · exact .inr (.inl rfl)
      · exact .inr (.inr rfl)
    · exact ⟨LzmaRangeDecoder.inRange_reset, valid_map hsafeNext.sequence _⟩
    · obtain ⟨hle, hleft⟩ := hremaining size hknown
      obtain hret' | ⟨hzero, -, ⟨-, hat⟩ | herror⟩ := hcases
      · -- the marker is not expected when the size is known
        subst hret'
        obtain ⟨hok, -⟩ | ⟨-, -, hnone⟩ | herror := hret
        · cases hok
        · rw [hnone] at hknown
          cases hknown
        · cases herror
      · rw [hleft] at hzero
        have hnone := Option.some.inj hzero
        exact ⟨by omega, hat⟩
      · cases herror
  · rw [if_neg hend]
    refine ⟨hsafe, hafter, rfl, hsame, hextends.needReset, hextends.props,
      hextends.input.trans hsuffix, ?_, fun hfinalRet => ?_, hremaining,
      fun hstreamEnd => absurd hstreamEnd hend⟩
    · obtain rfl | ⟨-, -, ⟨hstreamEnd, -⟩ | herror⟩ := hcases
      · obtain ⟨rfl, -⟩ | ⟨rfl, -⟩ | rfl := hret
        · exact .inl rfl
        · exact .inr (.inl rfl)
        · exact .inr (.inr rfl)
      · exact absurd hstreamEnd hend
      · exact .inr (.inr herror)
    · have hsafeNext := hvalid (hnoerror hfinalRet)
      exact ⟨hsafeNext.ready.2, valid_map hsafeNext.sequence _⟩

/-- **Any input.** From a valid coder and a dictionary that keeps a history, a call of
`lzma_decode` returns whatever the input contains. It touches nothing outside the
dictionary and never writes past its limit; what it writes extends the history; a known
uncompressed size is never exceeded and is reached exactly when the call reports the end;
and unless the data are in error the coder can be called again. -/
theorem decoded_lzmaDecode (hdict : dict.Safe history) (hvalid : coder.Valid dict.full)
    (input : Bytes) :
    ∃ written ret after, coder.lzmaDecode dict input = .ok (ret, after) ∧
      coder.Decoded dict input history written ret after := by
  have hstart (rc : LzmaRangeDecoder) (rest : Bytes) (ret : LzmaRet) (hrange : rc.InRange)
      (hsuffix : rest <:+ input) (hret : ret = .ok ∨ ret = .dataError) :
      coder.Decoded dict input history [] ret
        ⟨{ coder with reader := { coder.reader with rc := rc } }, dict, rest⟩ := by
    refine ⟨hdict, rfl, rfl, rfl, rfl, rfl, hsuffix, hret.imp_right .inr,
      fun _ => ⟨hrange, hvalid.sequence⟩, fun size hsize => ⟨Nat.zero_le _, hsize⟩, ?_⟩
    rintro rfl
    obtain hok | herror := hret
    · cases hok
    · cases herror
  rw [lzmaDecode]
  obtain ⟨rc, rest, hread, hready, hsuffix⟩ | ⟨rc, hread, hrange⟩ |
    ⟨rc, rest, hread, hrange, hsuffix⟩ := hvalid.inRange.readInit input
  · rw [hread]
    dsimp only
    have hsafe := safe_enter hdict hready hvalid rest
    obtain ⟨⟨ret, next⟩, hrun, hleft⟩ := hsafe.run (variant_enter_lt coder rc dict rest)
    rw [hrun, Option.getD_some, ok_bind]
    cases hleft with
    | pause written hsafe hextends =>
        exact ⟨written, _, _, rfl, decoded_save hsuffix hdict.pos_le hdict.limit_le hextends
          hsafe.dict (.inl ⟨rfl, hsafe⟩)⟩
    | marker written hsafe hextends hsize =>
        exact ⟨written, _, _, rfl, decoded_save hsuffix hdict.pos_le hdict.limit_le hextends
          hsafe.dict (.inr (.inl ⟨rfl, hsafe, hsize⟩))⟩
    | error written hsafe hextends =>
        exact ⟨written, _, _, rfl, decoded_save hsuffix hdict.pos_le hdict.limit_le hextends
          hsafe (.inr (.inr rfl))⟩
  · rw [hread]
    exact ⟨[], _, _, rfl, hstart rc [] .ok hrange List.nil_suffix (.inl rfl)⟩
  · rw [hread]
    exact ⟨[], _, _, rfl, hstart rc rest .dataError hrange hsuffix (.inr rfl)⟩

end Decode

end LzmaDecoder

end Dht
