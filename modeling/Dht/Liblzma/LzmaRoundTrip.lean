/-
# What the LZMA encoder writes, the LZMA decoder reads

An encoder has written a chunk of data: any data, any choices of the optimiser that parse
them. `Expects` says of a decoder that what it has still to do is to read the bits of the
rest of those choices and to write the rest of those data, wherever in its loop it is:
before a symbol, in the middle of one, or in the middle of a match. A turn of the loop
keeps this, and so does a call, whatever part of the chunk it is given and however much
room the dictionary has; the call that has both reports the end, with the state the
encoder was left in.
-/

import Dht.Liblzma.LzmaDecoder
import Dht.Liblzma.LzmaEncoder

namespace Dht

/-! ## Contexts -/

section Context

theorem and_mask_eq {first second : ℕ} (hsame : first % 16 = second % 16) {bits : ℕ}
    (hbits : bits ≤ 4) : first &&& ((1 <<< bits) - 1) = second &&& ((1 <<< bits) - 1) := by
  have hdvd : 2 ^ bits ∣ 16 := pow_dvd_pow 2 hbits
  rw [Nat.shiftLeft_eq, Nat.one_mul, Nat.and_two_pow_sub_one_eq_mod,
    Nat.and_two_pow_sub_one_eq_mod, ← Nat.mod_mod_of_dvd first hdvd, hsame,
    Nat.mod_mod_of_dvd second hdvd]

/-- The coders need not agree on the position but for its lowest bits, and on the byte a
match would have gone on with only after a match. -/
theorem encodeSymbol_congr (props : LzmaProps) (model : LzmaModel)
    {first second : LiteralContext} (hposition : first.position % 16 = second.position % 16)
    (hprev : first.prevByte = second.prevByte)
    (hmatch : model.state.isLiteral = false → first.matchByte = second.matchByte)
    (curByte : UInt8) (back len : ℕ) :
    encodeSymbol props model first curByte back len =
      encodeSymbol props model second curByte back len := by
  have hlp : props.lp ≤ 4 := by
    have hlclp := props.lclp_le
    omega
  have hstate : props.posState first.position = props.posState second.position :=
    and_mask_eq hposition props.pb_le
  have hsubcoder : props.literalSubcoder first.position first.prevByte =
      props.literalSubcoder second.position second.prevByte := by
    rw [LzmaProps.literalSubcoder, LzmaProps.literalSubcoder, hprev, and_mask_eq hposition hlp]
  have hliteral : encodeLiteral props model first curByte =
      encodeLiteral props model second curByte := by
    rw [encodeLiteral, encodeLiteral, hsubcoder]
    by_cases hlit : model.state.isLiteral
    · rw [if_pos hlit, if_pos hlit]
    · rw [if_neg hlit, if_neg hlit, hmatch (Bool.not_eq_true _ ▸ hlit)]
  rw [encodeSymbol, encodeSymbol, hstate, hliteral]

end Context

/-! ## What is still to be done -/

/-- The bytes a symbol stands for. -/
def LzmaEvent.Produces (window distance : ℕ) (history bytes : Bytes) : LzmaEvent → Prop
  | .literal byte => bytes = [byte]
  | .shortRep => bytes = [history.getD distance 0]
  | .copy len => copyHistory distance len history = bytes.reverse ++ history
  | .checkedCopy len => distance < min history.length window ∧
      copyHistory distance len history = bytes.reverse ++ history
  | .endMarker => False
  | .invalid => False

/-- The bytes that are still to be written of a symbol. -/
def DecoderSequence.Produces (distance : ℕ) (history bytes : Bytes) : DecoderSequence → Prop
  | .literalWrite byte => bytes = [byte]
  | .shortRep => bytes = [history.getD distance 0]
  | .copy len => copyHistory distance len history = bytes.reverse ++ history
  | .normalize => False
  | .isMatch => False
  | .symbol _ => False
  | .eopm => False

/-- The decoder has to read some bits and to write some data, and will then be in a
state. -/
inductive LzmaDecoder.Expects (window : ℕ) (coder : LzmaDecoder) (history : Bytes) :
    Bytes → List LzmaBit → LzmaModel → Prop
  | parse {data : Bytes} {choices : List (ℕ × ℕ)}
      (hat : coder.sequence = .isMatch ∨ coder.sequence = .normalize)
      (hparses : Parses coder.props window coder.model history data choices) :
      Expects window coder history data
        (chunkBits coder.props coder.model history data choices).1
        (chunkBits coder.props coder.model history data choices).2
  | symbol {dialogue : Dialogue (RcContext LzmaProb) (LzmaEvent × LzmaModel)}
      {event : LzmaEvent} {after : LzmaModel} {bits : List LzmaBit} {bytes data : Bytes}
      {choices : List (ℕ × ℕ)} (hat : coder.sequence = .symbol dialogue)
      (hfollows : dialogue.Follows bits (event, after)
        (chunkBits coder.props after (bytes.reverse ++ history) data choices).1)
      (hproduces : event.Produces window after.rep0 history bytes) (hbytes : bytes ≠ [])
      (hparses : Parses coder.props window after (bytes.reverse ++ history) data choices) :
      Expects window coder history (bytes ++ data) bits
        (chunkBits coder.props after (bytes.reverse ++ history) data choices).2
  | write {bytes data : Bytes} {choices : List (ℕ × ℕ)}
      (hproduces : coder.sequence.Produces coder.model.rep0 history bytes) (hbytes : bytes ≠ [])
      (hparses : Parses coder.props window coder.model (bytes.reverse ++ history) data choices) :
      Expects window coder history (bytes ++ data)
        (chunkBits coder.props coder.model (bytes.reverse ++ history) data choices).1
        (chunkBits coder.props coder.model (bytes.reverse ++ history) data choices).2

/-- The input of the loop and what comes `later` are what the decoder has to read, and
`more` behind it. -/
def LzmaLoop.Awaits (window : ℕ) (loop : LzmaLoop) (history data later more : Bytes)
    (final : LzmaEncoder) : Prop :=
  ∃ bits stream, loop.coder.Expects window history data bits final.model ∧
    loop.coder.reader.Synced stream bits ∧ loop.input ++ later = stream ++ more ∧
    rcUpdates loop.coder.reader.probs bits = final.probs

/-- A loop that decodes a chunk of known size. -/
structure LzmaLoop.Decodes (window : ℕ) (loop : LzmaLoop) (history data later more : Bytes)
    (final : LzmaEncoder) : Prop where
  safe : loop.Safe history
  known : loop.coder.uncompressedSize.isSome
  limit : loop.dict.limit ≤ loop.dict.pos + data.length
  window_le : window ≤ loop.dict.size
  aligned : 16 ∣ loop.dict.size
  awaits : loop.Awaits window history data later more final

namespace LzmaLoop

/-- What a turn may do with a chunk: go on, stop because the input is used up or because
the dictionary has no room left, or come to its end. -/
inductive Progresses (window : ℕ) (loop : LzmaLoop) (history data later more : Bytes)
    (final : LzmaEncoder) : LzmaLoop ⊕ LzmaRet × LzmaLoop → Prop
  | next {next : LzmaLoop} (bytes rest : Bytes) (hdata : data = bytes ++ rest)
      (hdecodes : next.Decodes window (bytes.reverse ++ history) rest later more final)
      (hextends : loop.Extends next bytes.reverse) (hvariant : next.variant < loop.variant) :
      Progresses window loop history data later more final (.inl next)
  | starved {next : LzmaLoop} (bytes : Bytes) {rest still : Bytes} (hdata : data = bytes ++ rest)
      (hdecodes : next.Decodes window (bytes.reverse ++ history) rest later more final)
      (hextends : loop.Extends next bytes.reverse) (hinput : next.input = [])
      (hstill : still ≠ []) (hlater : later = still ++ more)
      (hend : rest = [] → next.coder.sequence = .normalize) :
      Progresses window loop history data later more final (.inr (.ok, next))
  | full {next : LzmaLoop} (bytes : Bytes) {rest : Bytes} (hdata : data = bytes ++ rest)
      (hdecodes : next.Decodes window (bytes.reverse ++ history) rest later more final)
      (hextends : loop.Extends next bytes.reverse) (hroom : next.dict.pos = next.dict.limit)
      (hrest : rest ≠ []) :
      Progresses window loop history data later more final (.inr (.ok, next))
  | finished {next : LzmaLoop} (bytes : Bytes) (hdata : data = bytes)
      (hdecodes : next.Decodes window (bytes.reverse ++ history) [] later more final)
      (hextends : loop.Extends next bytes.reverse) (hat : next.coder.sequence = .isMatch)
      (hfinished : next.coder.reader.rc.isFinished = true)
      (hinput : next.input ++ later = more) (hmodel : next.coder.model = final.model)
      (hprobs : next.coder.reader.probs = final.probs) :
      Progresses window loop history data later more final (.inr (.ok, next))

/-! ## One turn -/

section Turn

variable {window : ℕ} {loop next : LzmaLoop} {history data bytes rest later more : Bytes}
  {final : LzmaEncoder}

/-- A state that is reached by writing `bytes` still decodes the rest. -/
theorem Decodes.of_extends (hdecodes : loop.Decodes window history data later more final)
    (hdata : data = bytes ++ rest) (hsafe : next.Safe (bytes.reverse ++ history))
    (hextends : loop.Extends next bytes.reverse)
    (hawaits : next.Awaits window (bytes.reverse ++ history) rest later more final) :
    next.Decodes window (bytes.reverse ++ history) rest later more final := by
  obtain ⟨-, hknown, hlimit, hwindow, haligned, -⟩ := hdecodes
  refine ⟨hsafe, ?_, ?_, ?_, ?_, hawaits⟩
  · rwa [hextends.uncompressed]
  · rw [hdata, List.length_append] at hlimit
    rw [hextends.limit, hextends.pos, List.length_reverse]
    omega
  · rwa [hextends.size]
  · rwa [hextends.size]

/-- How many bytes a turn has written is all that it says of them. -/
theorem extends_of_length {written : Bytes} (hextends : loop.Extends next written)
    (hpos : next.dict.pos = loop.dict.pos + bytes.length) :
    loop.Extends next bytes.reverse :=
  ⟨by rw [hpos, List.length_reverse], hextends.limit, hextends.size, hextends.needReset,
    hextends.props, hextends.uncompressed, hextends.input⟩

/-- A turn that goes on. -/
theorem Decodes.goesOn (hdecodes : loop.Decodes window history data later more final)
    (bytes : Bytes) (hsteps : loop.Steps history (.inl next)) (hdata : data = bytes ++ rest)
    (hkeeps : next.dict.Keeps (bytes.reverse ++ history))
    (hpos : next.dict.pos = loop.dict.pos + bytes.length)
    (hawaits : next.Awaits window (bytes.reverse ++ history) rest later more final) :
    loop.Progresses window history data later more final (.inl next) := by
  cases hsteps with
  | next written hsafe hextends hvariant =>
      have hextends' := extends_of_length hextends hpos
      have hsafe' : next.Safe (bytes.reverse ++ history) :=
        ⟨⟨hkeeps, hsafe.dict.pos_le, hsafe.dict.limit_le⟩, hsafe.ready, hsafe.sequence⟩
      exact .next bytes rest hdata (hdecodes.of_extends hdata hsafe' hextends' hawaits) hextends'
        hvariant

/-- A turn that leaves the loop. -/
theorem Decodes.stops (hdecodes : loop.Decodes window history data later more final)
    (bytes : Bytes) (hsteps : loop.Steps history (.inr (.ok, next))) (hdata : data = bytes ++ rest)
    (hkeeps : next.dict.Keeps (bytes.reverse ++ history))
    (hpos : next.dict.pos = loop.dict.pos + bytes.length)
    (hawaits : next.Awaits window (bytes.reverse ++ history) rest later more final) :
    next.Decodes window (bytes.reverse ++ history) rest later more final ∧
      loop.Extends next bytes.reverse := by
  cases hsteps with
  | pause written hsafe hextends =>
      have hextends' := extends_of_length hextends hpos
      have hsafe' : next.Safe (bytes.reverse ++ history) :=
        ⟨⟨hkeeps, hsafe.dict.pos_le, hsafe.dict.limit_le⟩, hsafe.ready, hsafe.sequence⟩
      exact ⟨hdecodes.of_extends hdata hsafe' hextends' hawaits, hextends'⟩

/-- A choice stands for bytes of the data. -/
theorem produces_of_chooses {distance back len : ℕ}
    (hchooses : Chooses window history data distance back len) :
    (eventOf (data.headD 0) back len).Produces window distance history (data.take len) ∧
      data.take len ≠ [] := by
  obtain ⟨hcodable, hlen, hliteral, hrepeats⟩ := hchooses
  have hpos : 0 < len := by
    obtain hback | ⟨-, hlong | hshort⟩ | hmatch := hcodable
    · rw [hliteral hback]
      exact Nat.one_pos
    · omega
    · omega
    · omega
  have hne : data.take len ≠ [] := by
    rw [Ne, List.take_eq_nil_iff, not_or]
    refine ⟨by omega, ?_⟩
    rintro rfl
    exact absurd hlen (Nat.not_le.mpr hpos)
  refine ⟨?_, hne⟩
  rw [eventOf]
  by_cases hback : back = 2 ^ 32 - 1
  · rw [if_pos hback, hliteral hback]
    cases data with
    | nil => exact absurd rfl (List.ne_nil_of_length_pos (hpos.trans_le hlen))
    | cons byte data => rfl
  · rw [if_neg hback]
    obtain ⟨hdistance, hcopy⟩ := hrepeats hback
    by_cases hfour : back < 4
    · rw [if_pos hfour]
      by_cases hone : len = 1
      · subst hone
        rw [if_pos rfl]
        change data.take 1 = [history.getD distance 0]
        rw [copyHistory, copyHistory] at hcopy
        have hreverse := List.append_cancel_right
          (hcopy.symm.trans (List.singleton_append).symm)
        rw [List.reverse_eq_iff] at hreverse
        exact hreverse
      · rw [if_neg hone]
        exact hcopy
    · rw [if_neg hfour]
      exact ⟨hdistance, hcopy⟩

/-- After a symbol of the chunk its bytes are to be written. -/
theorem conclude_of_produces (loop : LzmaLoop) {event : LzmaEvent}
    (hproduces : event.Produces window loop.coder.model.rep0 history bytes)
    (hfull : min history.length window ≤ loop.dict.full) :
    ∃ sequence, loop.conclude event = .inl (loop.goTo sequence) ∧
      sequence.Produces loop.coder.model.rep0 history bytes := by
  cases event with
  | literal byte => exact ⟨.literalWrite byte, rfl, hproduces⟩
  | shortRep => exact ⟨.shortRep, rfl, hproduces⟩
  | copy len => exact ⟨.copy len, rfl, hproduces⟩
  | checkedCopy len =>
      refine ⟨.copy len, ?_, hproduces.2⟩
      rw [conclude, if_pos]
      exact decide_eq_true (hproduces.1.trans_le hfull)
  | endMarker => exact hproduces.elim
  | invalid => exact hproduces.elim

/-- What the decoder can look back at is at least the window of the encoder. -/
theorem Decodes.window_le_full (hdecodes : loop.Decodes window history data later more final) :
    min history.length window ≤ loop.dict.full := by
  have hwindow := hdecodes.window_le
  rw [hdecodes.safe.dict.keeps.full_eq]
  omega

/-- A symbol, or the rest of one. -/
theorem Decodes.decodeSymbol (hdecodes : loop.Decodes window history (bytes ++ rest) later more
      final) {dialogue : Dialogue (RcContext LzmaProb) (LzmaEvent × LzmaModel)}
    (hturn : loop.turn = loop.decodeSymbol dialogue)
    {event : LzmaEvent} {after : LzmaModel} {bits : List LzmaBit} {choices : List (ℕ × ℕ)}
    (hfollows : dialogue.Follows bits (event, after)
      (chunkBits loop.coder.props after (bytes.reverse ++ history) rest choices).1)
    (hproduces : event.Produces window after.rep0 history bytes) (hbytes : bytes ≠ [])
    (hparses : Parses loop.coder.props window after (bytes.reverse ++ history) rest choices)
    (hmodel : (chunkBits loop.coder.props after (bytes.reverse ++ history) rest choices).2 =
      final.model) {stream : Bytes} (hsynced : loop.coder.reader.Synced stream bits)
    (htotal : loop.input ++ later = stream ++ more)
    (hprobs : rcUpdates loop.coder.reader.probs bits = final.probs) :
    ∃ result, loop.turn = .ok result ∧
      loop.Progresses window history (bytes ++ rest) later more final result := by
  obtain ⟨result, hresult, hsteps⟩ := hdecodes.safe.turn
  refine ⟨result, hresult, ?_⟩
  have hdefined := hresult
  rw [hturn, LzmaLoop.decodeSymbol] at hdefined
  obtain ⟨reading, hreading, htaken⟩ := bind_eq_ok_iff.mp hdefined
  have heq := (Except.ok.inj htaken).symm
  rw [RangeReader.eq_read_of_readWithin hreading] at heq
  obtain ⟨reader, left, still, hread, hnext, hrest, hupdates⟩ |
    ⟨pending, reader, left, still, hread, hopen, hnext, hlater, hstill, hupdates⟩ :=
    hsynced.read_front hfollows htotal
  · rw [hread, LzmaLoop.takeSymbol] at heq
    obtain ⟨sequence, hconclude, hwrites⟩ := conclude_of_produces
      ⟨{ loop.coder with reader := reader, model := after }, loop.dict, left⟩ hproduces
      hdecodes.window_le_full
    rw [hconclude] at heq
    subst heq
    refine hdecodes.goesOn [] hsteps rfl hdecodes.safe.dict.keeps rfl
      ⟨_, still, ?_, hnext, hrest, ?_⟩
    · rw [← hmodel]
      exact .write hwrites hbytes hparses
    · rw [← hprobs, ← hupdates]
      rfl
  · rw [hread, LzmaLoop.takeSymbol] at heq
    subst heq
    have hawaits : Awaits window
        ⟨{ loop.coder with reader := reader, sequence := .symbol pending }, loop.dict, []⟩ history
        (bytes ++ rest) later more final := by
      refine ⟨left, still, ?_, hnext, hlater, ?_⟩
      · rw [← hmodel]
        exact .symbol rfl hopen hproduces hbytes hparses
      · rw [← hprobs, ← hupdates]
    obtain ⟨hstopped, hextends⟩ := hdecodes.stops [] hsteps rfl
      hdecodes.safe.dict.keeps rfl hawaits
    refine .starved [] rfl hstopped hextends rfl hstill hlater fun hnil => ?_
    have hboth : bytes ++ rest = [] := hnil
    exact absurd (List.append_eq_nil_iff.mp hboth).1 hbytes

/-- The bits of a chosen symbol lead the decoder to it, although it sees its position in
the dictionary and not in the data. -/
theorem Decodes.follows (hdecodes : loop.Decodes window history data later more final)
    {back len : ℕ} (hchooses : Chooses window history data
      (encodeNextSymbol loop.coder.props loop.coder.model history data back len).2.rep0 back len)
    (bits : List LzmaBit) :
    (readSymbol loop.coder.props loop.coder.model ⟨loop.dict.pos, history.getD 0 0,
        if loop.coder.model.state.isLiteral then 0 else history.getD loop.coder.model.rep0 0⟩
        (!loop.dict.isDistanceValid 0)).Follows
      ((encodeNextSymbol loop.coder.props loop.coder.model history data back len).1 ++ bits)
      (eventOf (data.headD 0) back len,
        (encodeNextSymbol loop.coder.props loop.coder.model history data back len).2) bits := by
  have hposition : history.length % 16 = loop.dict.pos % 16 := by
    rw [← Nat.mod_mod_of_dvd _ hdecodes.aligned, ← hdecodes.safe.dict.keeps.pos_mod,
      Nat.mod_mod_of_dvd _ hdecodes.aligned]
  have hsame : encodeNextSymbol loop.coder.props loop.coder.model history data back len =
      encodeSymbol loop.coder.props loop.coder.model ⟨loop.dict.pos, history.getD 0 0,
        if loop.coder.model.state.isLiteral then 0 else history.getD loop.coder.model.rep0 0⟩
        (data.headD 0) back len := by
    rw [encodeNextSymbol]
    apply encodeSymbol_congr
    · exact hposition
    · rfl
    · intro hstate
      rw [hstate, if_neg Bool.false_ne_true]
      rfl
  rw [hsame]
  refine readSymbol_follows _ _ _ _ hchooses.codable (fun hfour => ?_) bits
  have hdistance := (hchooses.repeats (by omega)).1
  have hfull : 0 < loop.dict.full :=
    (Nat.zero_le _).trans_lt (hdistance.trans_le hdecodes.window_le_full)
  rw [LzmaDict.isDistanceValid, decide_eq_true hfull]
  rfl

/-- The normalisation behind the loop. -/
theorem Decodes.finish (hdecodes : loop.Decodes window history data later more final)
    (hsteps : loop.Steps history (.inr loop.finish)) {choices : List (ℕ × ℕ)}
    (hparses : Parses loop.coder.props window loop.coder.model history data choices)
    (hmodel : (chunkBits loop.coder.props loop.coder.model history data choices).2 = final.model)
    {stream : Bytes} (hsynced : loop.coder.reader.Synced stream
      (chunkBits loop.coder.props loop.coder.model history data choices).1)
    (htotal : loop.input ++ later = stream ++ more)
    (hprobs : rcUpdates loop.coder.reader.probs
      (chunkBits loop.coder.props loop.coder.model history data choices).1 = final.probs)
    (hroom : loop.dict.pos = loop.dict.limit) :
    loop.Progresses window history data later more final (.inr loop.finish) := by
  obtain ⟨rc, rest, hnormalize, hnext⟩ := hsynced.normalize
  have hwhole := LzmaRangeDecoder.normalize_append hnormalize more
  rw [LzmaLoop.finish] at hsteps ⊢
  cases hinput : loop.coder.reader.rc.normalize loop.input with
  | none =>
      rw [hinput] at hsteps
      have hnil := LzmaRangeDecoder.eq_nil_of_normalize hinput
      have hlater : later = stream ++ more := by rwa [hnil] at htotal
      have hawaits : (loop.goTo .normalize).Awaits window history data later more final := by
        refine ⟨_, stream, ?_, hsynced, htotal, hprobs⟩
        rw [← hmodel]
        exact .parse (.inr rfl) hparses
      obtain ⟨hstopped, hextends⟩ := hdecodes.stops [] hsteps rfl hdecodes.safe.dict.keeps rfl
        hawaits
      refine .starved [] rfl hstopped hextends hnil ?_ hlater fun _ => rfl
      rintro rfl
      rw [hnil, hnormalize] at hinput
      cases hinput
  | some pair =>
      obtain ⟨rc', left⟩ := pair
      rw [hinput] at hsteps
      dsimp only at hsteps ⊢
      have hsame := LzmaRangeDecoder.normalize_append hinput later
      rw [htotal, hwhole] at hsame
      obtain ⟨rfl, hleft⟩ := Prod.mk.inj (Option.some.inj hsame)
      have hawaits : Awaits window ⟨{ loop.coder with
          reader := { loop.coder.reader with rc := rc }, sequence := .isMatch }, loop.dict, left⟩
          history data later more final := by
        refine ⟨_, rest, ?_, hnext, hleft.symm, hprobs⟩
        rw [← hmodel]
        exact .parse (.inl rfl) hparses
      obtain ⟨hstopped, hextends⟩ := hdecodes.stops [] hsteps rfl hdecodes.safe.dict.keeps rfl
        hawaits
      cases choices with
      | cons choice choices =>
          refine .full [] rfl hstopped hextends hroom ?_
          rintro rfl
          exact (produces_of_chooses hparses.1).2 List.take_nil
      | nil =>
          have hdata : data = [] := hparses
          subst hdata
          obtain ⟨rc', hdone, hfinished⟩ := hsynced.finish
          rw [hnormalize] at hdone
          obtain ⟨rfl, rfl⟩ := Prod.mk.inj (Option.some.inj hdone)
          exact .finished [] rfl hstopped hextends rfl hfinished hleft.symm hmodel hprobs

/-- Before a symbol. -/
theorem Decodes.isMatch (hdecodes : loop.Decodes window history data later more final)
    (hturn : loop.turn = loop.isMatch) {choices : List (ℕ × ℕ)}
    (hparses : Parses loop.coder.props window loop.coder.model history data choices)
    (hmodel : (chunkBits loop.coder.props loop.coder.model history data choices).2 = final.model)
    (hvalid : loop.coder.model.Valid loop.dict.full)
    {stream : Bytes} (hsynced : loop.coder.reader.Synced stream
      (chunkBits loop.coder.props loop.coder.model history data choices).1)
    (htotal : loop.input ++ later = stream ++ more)
    (hprobs : rcUpdates loop.coder.reader.probs
      (chunkBits loop.coder.props loop.coder.model history data choices).1 = final.probs) :
    ∃ result, loop.turn = .ok result ∧
      loop.Progresses window history data later more final result := by
  have hsafe := hdecodes.safe
  by_cases hend : loop.dict.pos = loop.dict.limit
  · have hresult : loop.turn = .ok (.inr loop.finish) := by
      rw [hturn, LzmaLoop.isMatch, if_pos ⟨hdecodes.known, hend⟩]
    obtain ⟨result, hstep, hsteps⟩ := hsafe.turn
    rw [hresult] at hstep
    cases hstep
    exact ⟨_, hresult, hdecodes.finish hsteps hparses hmodel hsynced htotal hprobs hend⟩
  · cases choices with
    | nil =>
        -- without room for a byte the data would be at their end
        have hdata : data = [] := hparses
        have hlimit := hdecodes.limit
        have hpos := hsafe.dict.pos_le
        rw [hdata, List.length_nil] at hlimit
        omega
    | cons choice choices =>
        obtain ⟨back, len⟩ := choice
        obtain ⟨hchooses, hrest⟩ := hparses
        obtain ⟨hproduces, hbytes⟩ := produces_of_chooses hchooses
        cases hinput : loop.coder.reader.rc.normalize loop.input with
        | none =>
            have hresult : loop.turn = .ok (.inr (.ok, loop.goTo .isMatch)) := by
              rw [hturn, LzmaLoop.isMatch, if_neg (fun hboth => hend hboth.2), hinput]
            obtain ⟨result, hstep, hsteps⟩ := hsafe.turn
            rw [hresult] at hstep
            cases hstep
            have hnil := LzmaRangeDecoder.eq_nil_of_normalize hinput
            have hlater : later = stream ++ more := by rwa [hnil] at htotal
            have hawaits : (loop.goTo .isMatch).Awaits window history data later more final := by
              refine ⟨_, stream, ?_, hsynced, htotal, hprobs⟩
              rw [← hmodel]
              exact .parse (.inl rfl) ⟨hchooses, hrest⟩
            obtain ⟨hstopped, hextends⟩ := hdecodes.stops [] hsteps rfl hsafe.dict.keeps rfl
              hawaits
            refine ⟨_, hresult, .starved [] rfl hstopped hextends hnil ?_ hlater
              fun hdata => ?_⟩
            · rintro rfl
              obtain ⟨rc, rest, hnormalize, -⟩ := hsynced.normalize
              rw [hnil, hnormalize] at hinput
              cases hinput
            · rw [hdata] at hbytes
              exact absurd List.take_nil hbytes
        | some pair =>
            have hresult : loop.turn = loop.decodeSymbol
                (readSymbol loop.coder.props loop.coder.model ⟨loop.dict.pos, history.getD 0 0,
                  if loop.coder.model.state.isLiteral then 0
                  else history.getD loop.coder.model.rep0 0⟩ (!loop.dict.isDistanceValid 0)) := by
              rw [hturn, LzmaLoop.isMatch, if_neg (fun hboth => hend hboth.2), hinput,
                exists_literalContext hsafe.dict hvalid]
              rfl
            have hfollows := hdecodes.follows hchooses
              (chunkBits loop.coder.props
                (encodeNextSymbol loop.coder.props loop.coder.model history data back len).2
                ((data.take len).reverse ++ history) (data.drop len) choices).1
            have hsplit : data = data.take len ++ data.drop len :=
              (List.take_append_drop len data).symm
            have hdecodes' := hdecodes
            rw [hsplit] at hdecodes' ⊢
            exact hdecodes'.decodeSymbol hresult hfollows hproduces hbytes hrest hmodel hsynced
              htotal hprobs

/-- A copy in two parts. -/
theorem copyHistory_split {distance count total : ℕ} (hcount : count ≤ total)
    (hcopy : copyHistory distance total history = bytes.reverse ++ history) :
    ∃ front back, bytes = front ++ back ∧ front.length = count ∧ back.length = total - count ∧
      copyHistory distance count history = front.reverse ++ history ∧
      copyHistory distance (total - count) (front.reverse ++ history) =
        back.reverse ++ (front.reverse ++ history) := by
  obtain ⟨first, hfirst, hfirstLength⟩ := length_copyHistory distance count history
  obtain ⟨second, hsecond, hsecondLength⟩ := length_copyHistory distance (total - count)
    (first ++ history)
  have hboth : copyHistory distance total history = second ++ (first ++ history) := by
    rw [← hsecond, ← hfirst, ← copyHistory_add, Nat.add_sub_cancel' hcount]
  rw [hboth, ← List.append_assoc] at hcopy
  have hbytes : bytes = first.reverse ++ second.reverse := by
    rw [← List.reverse_append, List.append_cancel_right hcopy, List.reverse_reverse]
  refine ⟨first.reverse, second.reverse, hbytes, ?_, ?_, ?_, ?_⟩
  · rw [List.length_reverse, hfirstLength]
  · rw [List.length_reverse, hsecondLength]
  · rw [List.reverse_reverse, hfirst]
  · rw [List.reverse_reverse, List.reverse_reverse, hsecond]

/-- A byte, from a literal or a short repeat. -/
theorem Decodes.put (hdecodes : loop.Decodes window history (bytes ++ rest) later more final)
    {byte : UInt8} (hturn : loop.turn = do
      let (full, dict) ← loop.dict.put byte
      return loop.written full dict loop.coder.sequence)
    (hbytes : bytes = [byte]) {choices : List (ℕ × ℕ)}
    (hparses : Parses loop.coder.props window loop.coder.model (bytes.reverse ++ history) rest
      choices)
    (hmodel : (chunkBits loop.coder.props loop.coder.model (bytes.reverse ++ history) rest
      choices).2 = final.model) {stream : Bytes}
    (hsynced : loop.coder.reader.Synced stream
      (chunkBits loop.coder.props loop.coder.model (bytes.reverse ++ history) rest choices).1)
    (htotal : loop.input ++ later = stream ++ more)
    (hprobs : rcUpdates loop.coder.reader.probs
      (chunkBits loop.coder.props loop.coder.model (bytes.reverse ++ history) rest choices).1 =
        final.probs) :
    ∃ result, loop.turn = .ok result ∧
      loop.Progresses window history (bytes ++ rest) later more final result := by
  obtain ⟨result, hresult, hsteps⟩ := hdecodes.safe.turn
  refine ⟨result, hresult, ?_⟩
  rw [hturn] at hresult
  by_cases hend : loop.dict.pos = loop.dict.limit
  · rw [LzmaDict.put_full hend, ok_bind] at hresult
    cases hresult
    have hsame : { loop.goTo loop.coder.sequence with dict := loop.dict } = loop := rfl
    rw [written, if_pos rfl, hsame] at hsteps ⊢
    obtain ⟨hstopped, hextends⟩ := hdecodes.stops [] hsteps rfl hdecodes.safe.dict.keeps rfl
      hdecodes.awaits
    refine .full [] rfl hstopped hextends hend ?_
    rw [hbytes]
    exact List.cons_ne_nil _ _
  · have hroom := Nat.lt_of_le_of_ne hdecodes.safe.dict.pos_le hend
    obtain ⟨hput, hkeeps⟩ := hdecodes.safe.dict.keeps.put hroom hdecodes.safe.dict.limit_le byte
    rw [hput, ok_bind] at hresult
    cases hresult
    rw [written, if_neg Bool.false_ne_true] at hsteps ⊢
    refine hdecodes.goesOn bytes hsteps rfl (by rw [hbytes]; exact hkeeps) (by rw [hbytes]; rfl)
      ⟨_, stream, ?_, hsynced, htotal, hprobs⟩
    rw [← hmodel]
    exact .parse (.inl rfl) hparses

/-- A match, or the rest of one. -/
theorem Decodes.copy (hdecodes : loop.Decodes window history (bytes ++ rest) later more final)
    {len : ℕ} (hat : loop.coder.sequence = .copy len)
    (hcopy : copyHistory loop.coder.model.rep0 len history = bytes.reverse ++ history)
    {choices : List (ℕ × ℕ)}
    (hparses : Parses loop.coder.props window loop.coder.model (bytes.reverse ++ history) rest
      choices)
    (hmodel : (chunkBits loop.coder.props loop.coder.model (bytes.reverse ++ history) rest
      choices).2 = final.model) {stream : Bytes}
    (hsynced : loop.coder.reader.Synced stream
      (chunkBits loop.coder.props loop.coder.model (bytes.reverse ++ history) rest choices).1)
    (htotal : loop.input ++ later = stream ++ more)
    (hprobs : rcUpdates loop.coder.reader.probs
      (chunkBits loop.coder.props loop.coder.model (bytes.reverse ++ history) rest choices).1 =
        final.probs) :
    ∃ result, loop.turn = .ok result ∧
      loop.Progresses window history (bytes ++ rest) later more final result := by
  obtain ⟨result, hresult, hsteps⟩ := hdecodes.safe.turn
  refine ⟨result, hresult, ?_⟩
  have hsequence := hdecodes.safe.sequence
  have hpos := hdecodes.safe.dict.pos_le
  rw [hat] at hsequence
  obtain ⟨-, hdistance, -⟩ := hsequence
  obtain ⟨after, hrepeat, hkeeps, hafter, hlimit, -⟩ := hdecodes.safe.dict.keeps.dictRepeat hpos
    hdecodes.safe.dict.limit_le (decide_eq_true hdistance) len
  obtain ⟨front, back, rfl, hfront, hback, hcopied, hleft⟩ := copyHistory_split
    (Nat.min_le_right (loop.dict.limit - loop.dict.pos) len) hcopy
  rw [hcopied] at hkeeps
  rw [LzmaLoop.turn, hat] at hresult
  dsimp only at hresult
  rw [hrepeat, ok_bind] at hresult
  cases hresult
  rw [← hfront] at hafter
  rw [← hback] at hleft hsteps ⊢
  rw [List.reverse_append, List.append_assoc] at hparses hmodel hsynced hprobs
  rw [List.append_assoc] at hdecodes ⊢
  cases back with
  | nil =>
      rw [written, if_neg (by simp)] at hsteps ⊢
      refine hdecodes.goesOn front hsteps rfl hkeeps hafter ⟨_, stream, ?_, hsynced, htotal,
        hprobs⟩
      rw [← hmodel]
      exact .parse (.inl rfl) hparses
  | cons byte back =>
      rw [written, if_pos (by simp)] at hsteps ⊢
      have hawaits : Awaits window
          { loop.goTo (.copy (byte :: back).length) with dict := after }
          (front.reverse ++ history) (byte :: back ++ rest) later more final := by
        refine ⟨_, stream, ?_, hsynced, htotal, hprobs⟩
        rw [← hmodel]
        exact .write hleft (List.cons_ne_nil _ _) hparses
      obtain ⟨hstopped, hextends⟩ := hdecodes.stops front hsteps rfl hkeeps hafter hawaits
      refine .full front rfl hstopped hextends ?_ (List.cons_ne_nil _ _)
      change after.pos = after.limit
      rw [List.length_cons] at hback
      omega

/-- **One turn.** -/
theorem Decodes.turn (hdecodes : loop.Decodes window history data later more final) :
    ∃ result, loop.turn = .ok result ∧
      loop.Progresses window history data later more final result := by
  obtain ⟨bits, stream, hexpects, hsynced, htotal, hprobs⟩ := hdecodes.awaits
  generalize hfinal : final.model = model at hexpects
  cases hexpects with
  | parse hat hparses =>
      have hsequence := hdecodes.safe.sequence
      obtain hat | hat := hat
      · rw [hat] at hsequence
        exact hdecodes.isMatch (by rw [LzmaLoop.turn, hat]) hparses hfinal.symm hsequence hsynced
          htotal hprobs
      · rw [hat] at hsequence
        exact hdecodes.isMatch (by rw [LzmaLoop.turn, hat]) hparses hfinal.symm hsequence hsynced
          htotal hprobs
  | symbol hat hfollows hproduces hbytes hparses =>
      exact hdecodes.decodeSymbol (by rw [LzmaLoop.turn, hat]) hfollows hproduces hbytes hparses
        hfinal.symm hsynced htotal hprobs
  | write hproduces hbytes hparses =>
      cases hat : loop.coder.sequence with
      | literalWrite byte =>
          rw [hat] at hproduces
          exact hdecodes.put (by rw [LzmaLoop.turn, hat]) hproduces hparses hfinal.symm hsynced
            htotal hprobs
      | shortRep =>
          rw [hat] at hproduces
          have hsequence := hdecodes.safe.sequence
          rw [hat] at hsequence
          have hget := hdecodes.safe.dict.keeps.get_eq
            (lt_of_withinFull hsequence.1.reps.rep0 hsequence.2)
          refine hdecodes.put ?_ hproduces hparses hfinal.symm hsynced htotal hprobs
          rw [LzmaLoop.turn, hat]
          dsimp only
          rw [hget, ok_bind]
      | copy len =>
          rw [hat] at hproduces
          exact hdecodes.copy hat hproduces hparses hfinal.symm hsynced htotal hprobs
      | normalize =>
          rw [hat] at hproduces
          exact hproduces.elim
      | isMatch =>
          rw [hat] at hproduces
          exact hproduces.elim
      | symbol dialogue =>
          rw [hat] at hproduces
          exact hproduces.elim
      | eopm =>
          rw [hat] at hproduces
          exact hproduces.elim

/-- What a turn does after some bytes have been written. -/
theorem Progresses.after {state : LzmaLoop} (before : Bytes) (hdata : data = before ++ rest)
    (hextends : loop.Extends state before.reverse) {result : LzmaRet × LzmaLoop}
    (hprogresses : state.Progresses window (before.reverse ++ history) rest later more final
      (.inr result)) :
    loop.Progresses window history data later more final (.inr result) := by
  have hreverse (bytes : Bytes) : (before ++ bytes).reverse = bytes.reverse ++ before.reverse :=
    List.reverse_append
  subst hdata
  cases hprogresses with
  | starved bytes hrest hdecodes hmore hinput hstill hlater hend =>
      rw [← List.append_assoc, ← hreverse] at hdecodes
      refine .starved (before ++ bytes) ?_ hdecodes ?_ hinput hstill hlater hend
      · rw [hrest, List.append_assoc]
      · rw [hreverse]
        exact hextends.trans hmore
  | full bytes hrest hdecodes hmore hroom hne =>
      rw [← List.append_assoc, ← hreverse] at hdecodes
      refine .full (before ++ bytes) ?_ hdecodes ?_ hroom hne
      · rw [hrest, List.append_assoc]
      · rw [hreverse]
        exact hextends.trans hmore
  | finished bytes hrest hdecodes hmore hat hfinished hinput hmodel hprobs =>
      rw [← List.append_assoc, ← hreverse] at hdecodes
      refine .finished (before ++ bytes) ?_ hdecodes ?_ hat hfinished hinput hmodel hprobs
      · rw [hrest]
      · rw [hreverse]
        exact hextends.trans hmore

/-- **The loop.** -/
theorem Decodes.run (hdecodes : loop.Decodes window history data later more final) {fuel : ℕ}
    (hfuel : loop.variant < fuel) :
    ∃ result, Loop.runFor (Loop.fallible LzmaLoop.turn) fuel loop = some (.ok result) ∧
      loop.Progresses window history data later more final (.inr result) := by
  refine Loop.exists_runFor_fallible
    (fun state => ∃ bytes rest, data = bytes ++ rest ∧ loop.Extends state bytes.reverse ∧
      state.Decodes window (bytes.reverse ++ history) rest later more final)
    variant ?_ ⟨[], data, rfl, Extends.refl loop, hdecodes⟩ hfuel
  rintro state ⟨before, left, hdata, hextends, hstate⟩
  obtain ⟨result, hturn, hprogresses⟩ := hstate.turn
  cases result with
  | inl next =>
      cases hprogresses with
      | next bytes rest hleft hnext hmore hvariant =>
          refine .inl ⟨next, hturn, ⟨before ++ bytes, rest, ?_, ?_, ?_⟩, hvariant⟩
          · rw [hdata, hleft, List.append_assoc]
          · rw [List.reverse_append]
            exact hextends.trans hmore
          · rw [List.reverse_append, List.append_assoc]
            exact hnext
  | inr result => exact .inr ⟨result, hturn, hprogresses.after before hdata hextends⟩

end Turn

end LzmaLoop

/-! ## One call -/

namespace LzmaDecoder

/-- Between two calls, the decoder has to read `stream` and to write `data`. -/
structure Awaits (window : ℕ) (coder : LzmaDecoder) (history data stream : Bytes)
    (final : LzmaEncoder) : Prop where
  size : coder.uncompressedSize = some data.length
  reads : ∃ rc rest bits, coder.reader.rc.readInit stream = (.streamEnd, rc, rest) ∧
    coder.Expects window history data bits final.model ∧
    (⟨rc, coder.reader.probs⟩ : RangeReader LzmaProb).Synced rest bits ∧
    rcUpdates coder.reader.probs bits = final.probs

/-- What a call leaves of a chunk: a decoder that has still to read and to write
something, for want of input or of room; or, at the end, the state the encoder was left
in, and the input behind the chunk. -/
inductive Leaves (window : ℕ) (history rest later more : Bytes) (final : LzmaEncoder)
    (limit : ℕ) : LzmaRet → LzmaLoop → Prop
  | pause {after : LzmaLoop} {still : Bytes}
      (hawaits : after.coder.Awaits window history rest still final)
      (htotal : after.input ++ later = still ++ more)
      (hwhy : after.input = [] ∧ still ≠ [] ∨ after.dict.pos = limit ∧ rest ≠ []) :
      Leaves window history rest later more final limit .ok after
  | finished {after : LzmaLoop} (hrest : rest = []) (hinput : after.input ++ later = more)
      (hat : after.coder.sequence = .isMatch) (hmodel : after.coder.model = final.model)
      (hreader : after.coder.reader = ⟨.reset, final.probs⟩) :
      Leaves window history rest later more final limit .streamEnd after

section Call

variable {window : ℕ} {coder : LzmaDecoder} {dict : LzmaDict}
  {history data stream input later more : Bytes} {final : LzmaEncoder}

/-- What is expected depends neither on the range decoder nor on the size. -/
theorem Expects.setReader {bits : List LzmaBit} {model : LzmaModel}
    (hexpects : coder.Expects window history data bits model) (reader : RangeReader LzmaProb)
    (size : Option ℕ) :
    Expects window ⟨reader, coder.model, coder.props, size, coder.sequence⟩ history data bits
      model := by
  cases hexpects with
  | parse hat hparses => exact .parse hat hparses
  | symbol hat hfollows hproduces hbytes hparses =>
      exact .symbol hat hfollows hproduces hbytes hparses
  | write hproduces hbytes hparses => exact .write hproduces hbytes hparses

theorem readInit_of_ready {rc : LzmaRangeDecoder} (hready : rc.Ready) (bytes : Bytes) :
    rc.readInit bytes = (.streamEnd, rc, bytes) := by
  cases bytes with
  | nil => rw [LzmaRangeDecoder.readInit, if_pos hready.1]
  | cons byte bytes => rw [LzmaRangeDecoder.readInit, if_pos hready.1]

/-- A pause is saved as such, unless nothing is left to be written and the loop is before
a symbol. -/
theorem save_of_ok (next : LzmaLoop) (dict : LzmaDict)
    (hnot : next.coder.uncompressedSize.map (· - (next.dict.pos - dict.pos)) = some 0 →
      next.coder.sequence = .normalize) :
    next.save dict .ok = (.ok,
      ⟨{ next.coder with
        uncompressedSize := next.coder.uncompressedSize.map (· - (next.dict.pos - dict.pos)) },
        { next.dict with limit := dict.limit }, next.input⟩) := by
  have hfinal : LzmaLoop.finalRet (next.coder.uncompressedSize.map
      (· - (next.dict.pos - dict.pos))) .ok next.coder.sequence = .ok := by
    by_cases hzero : next.coder.uncompressedSize.map (· - (next.dict.pos - dict.pos)) = some 0
    · rw [hnot hzero]
      unfold LzmaLoop.finalRet
      split <;> rfl
    · unfold LzmaLoop.finalRet
      rw [if_neg fun hboth => hzero hboth.1]
  rw [LzmaLoop.save, hfinal]
  rfl

theorem save_of_finished {next : LzmaLoop}
    (hsize : next.coder.uncompressedSize.map (· - (next.dict.pos - dict.pos)) = some 0)
    (hat : next.coder.sequence = .isMatch)
    (hfinished : next.coder.reader.rc.isFinished = true) :
    next.save dict .ok = (.streamEnd,
      ⟨{ next.coder with
        reader := { next.coder.reader with rc := .reset }
        uncompressedSize := some 0 }, { next.dict with limit := dict.limit }, next.input⟩) := by
  have hfinal : LzmaLoop.finalRet (some 0) .ok .isMatch = .streamEnd := rfl
  rw [LzmaLoop.save, hsize, hat, hfinal, if_pos rfl, if_pos hfinished]
  dsimp only
  rw [hat]

/-- What is saved after the loop. -/
theorem leaves_save {rc : LzmaRangeDecoder} {front : Bytes} {next : LzmaLoop}
    (hsize : coder.uncompressedSize = some data.length)
    (hprogresses : (coder.enter rc dict front).Progresses window history data later more final
      (.inr (.ok, next))) :
    ∃ bytes rest, data = bytes ++ rest ∧
      next.Safe (bytes.reverse ++ history) ∧
      (coder.enter rc dict front).Extends next bytes.reverse ∧
      Leaves window (bytes.reverse ++ history) rest later more final dict.limit
        (next.save dict .ok).1 (next.save dict .ok).2 := by
  -- the size that is left is that of the rest of the data
  have hleft {bytes rest : Bytes} (hdata : data = bytes ++ rest)
      (hextends : (coder.enter rc dict front).Extends next bytes.reverse) :
      next.coder.uncompressedSize.map (· - (next.dict.pos - dict.pos)) = some rest.length := by
    have hafter : next.dict.pos = dict.pos + bytes.reverse.length := hextends.pos
    have hcount : next.coder.uncompressedSize = some data.length :=
      hextends.uncompressed.trans hsize
    rw [hcount, hafter, Nat.add_sub_cancel_left, List.length_reverse, hdata, List.length_append]
    simp
  have hpause {bytes rest : Bytes} (hdata : data = bytes ++ rest)
      (hextends : (coder.enter rc dict front).Extends next bytes.reverse)
      (hdecodes : next.Decodes window (bytes.reverse ++ history) rest later more final)
      (hnot : rest = [] → next.coder.sequence = .normalize)
      (hwhy : ∀ still, next.input ++ later = still ++ more →
        next.input = [] ∧ still ≠ [] ∨ next.dict.pos = dict.limit ∧ rest ≠ []) :
      Leaves window (bytes.reverse ++ history) rest later more final dict.limit
        (next.save dict .ok).1 (next.save dict .ok).2 := by
    have hsaved := save_of_ok next dict fun hzero => by
      rw [hleft hdata hextends] at hzero
      exact hnot (List.eq_nil_of_length_eq_zero (Option.some.inj hzero))
    obtain ⟨bits, stream, hexpects, hsynced, htotal, hprobs⟩ := hdecodes.awaits
    have hsame : Expects window { next.coder with
        uncompressedSize := next.coder.uncompressedSize.map (· - (next.dict.pos - dict.pos)) }
        (bytes.reverse ++ history) rest bits final.model := hexpects.setReader _ _
    rw [hsaved]
    exact .pause ⟨hleft hdata hextends, _, stream, bits,
      readInit_of_ready hdecodes.safe.ready stream, hsame, hsynced, hprobs⟩ htotal
      (hwhy stream htotal)
  cases hprogresses with
  | starved bytes hdata hdecodes hextends hinput hstill hlater hend =>
      refine ⟨bytes, _, hdata, hdecodes.safe, hextends,
        hpause hdata hextends hdecodes hend fun still htotal => .inl ⟨hinput, ?_⟩⟩
      rw [hinput, hlater, List.nil_append] at htotal
      rwa [← List.append_cancel_right htotal]
  | full bytes hdata hdecodes hextends hroom hrest =>
      refine ⟨bytes, _, hdata, hdecodes.safe, hextends,
        hpause hdata hextends hdecodes (fun hnil => absurd hnil hrest)
          fun still _ => .inr ⟨?_, hrest⟩⟩
      -- the limit of the size is not reached before the end of the data
      have hafter : next.dict.pos = dict.pos + bytes.reverse.length := hextends.pos
      have hlimit : next.dict.limit = coder.limit dict := hextends.limit
      have hlength := List.length_pos_iff.mpr hrest
      rw [List.length_reverse] at hafter
      rw [hroom, hlimit]
      refine limit_eq_of_lt hsize ?_
      rw [hdata, List.length_append]
      omega
  | finished bytes hdata hdecodes hextends hat hfinished hinput hmodel hprobs =>
      have hzero := hleft (hdata.trans (List.append_nil bytes).symm) hextends
      have hsaved := save_of_finished hzero hat hfinished
      refine ⟨bytes, [], by rw [hdata, List.append_nil], hdecodes.safe, hextends, ?_⟩
      rw [hsaved]
      exact .finished rfl hinput hat hmodel (by rw [← hprobs])

/-- **Round trip of a chunk.** A decoder that awaits a chunk, and is given any front of it
with or without something behind, writes a front of its data and awaits the rest. It
stops only for want of input or of room in the dictionary, and otherwise reports the end,
in the state the encoder was left in and having read no further than the chunk. -/
theorem leaves_lzmaDecode (hdict : dict.Safe history) (hvalid : coder.Valid dict.full)
    (hwindow : window ≤ dict.size) (haligned : 16 ∣ dict.size)
    (hawaits : coder.Awaits window history data stream final)
    (htotal : input ++ later = stream ++ more) :
    ∃ bytes rest ret after, data = bytes ++ rest ∧
      coder.lzmaDecode dict input = .ok (ret, after) ∧
      coder.Decoded dict input history bytes.reverse ret after ∧
      Leaves window (bytes.reverse ++ history) rest later more final dict.limit ret after := by
  obtain ⟨hsize, rc, left, bits, hread, hexpects, hsynced, hprobs⟩ := hawaits
  obtain ⟨front, hfront, hfrontTotal⟩ | ⟨middle, still, hmiddle, hstill, hlater, hne⟩ :=
    readInit_front hread htotal
  · have hready : rc.Ready ∧ front <:+ input := by
      obtain ⟨after, rest, hinit, hready, hsuffix⟩ | ⟨after, hinit, -⟩ |
        ⟨after, rest, hinit, -, -⟩ := hvalid.inRange.readInit input
      · rw [hfront] at hinit
        cases hinit
        exact ⟨hready, hsuffix⟩
      · rw [hfront] at hinit
        cases hinit
      · rw [hfront] at hinit
        cases hinit
    have hsafe := safe_enter hdict hready.1 hvalid front
    have hdecodes : (coder.enter rc dict front).Decodes window history data later more final := by
      refine ⟨hsafe, ?_, limit_le_size hdict.pos_le hsize, hwindow, haligned, bits, left, ?_,
        hsynced, hfrontTotal, hprobs⟩
      · change coder.uncompressedSize.isSome = true
        rw [hsize]
        rfl
      · exact hexpects.setReader _ _
    have hfuel := variant_enter_lt coder rc dict front
    obtain ⟨⟨ret, next⟩, hrun, hprogresses⟩ := hdecodes.run hfuel
    have hok : ret = .ok := by
      cases hprogresses with
      | starved => rfl
      | full => rfl
      | finished => rfl
    subst hok
    obtain ⟨bytes, rest, hdata, hnext, hextends, hleaves⟩ := leaves_save hsize hprogresses
    refine ⟨bytes, rest, _, _, hdata, ?_, decoded_save hready.2 hdict.pos_le hdict.limit_le hextends
      hnext.dict (.inl ⟨rfl, hnext⟩), hleaves⟩
    rw [lzmaDecode, hfront]
    dsimp only
    rw [hrun, Option.getD_some, ok_bind]
    rfl
  · have hcall : coder.lzmaDecode dict input =
        .ok (.ok, ⟨{ coder with reader := { coder.reader with rc := middle } }, dict, []⟩) := by
      rw [lzmaDecode, hmiddle]
    obtain ⟨written, ret, after, hdecode, hdecoded⟩ := decoded_lzmaDecode hdict hvalid input
    rw [hcall] at hdecode
    cases hdecode
    have hnone : written = [] := by
      have hpos : dict.pos = dict.pos + written.length := hdecoded.pos
      exact List.eq_nil_of_length_eq_zero (by omega)
    subst hnone
    refine ⟨[], data, _, _, rfl, hcall, hdecoded, .pause ⟨hsize, rc, left, bits, hstill, ?_,
      hsynced, hprobs⟩ hlater (.inl ⟨rfl, hne⟩)⟩
    exact hexpects.setReader _ _

/-- A decoder at the start of a chunk awaits what an encoder with the same probabilities
and the same state makes of it. -/
theorem awaits_chunk {choices : List (ℕ × ℕ)} {bits : List LzmaBit} {model : LzmaModel}
    (hreader : coder.reader.rc = .reset) (hat : coder.sequence = .isMatch)
    (hsize : coder.uncompressedSize = some data.length)
    (hparses : Parses coder.props window coder.model history data choices)
    (hbits : chunkBits coder.props coder.model history data choices = (bits, model)) :
    coder.Awaits window history data (rcReset.encodeText coder.reader.probs bits 5)
      ⟨rcReset, rcUpdates coder.reader.probs bits, model⟩ := by
  obtain ⟨rc, rest, hread, hsynced⟩ := exists_readInit coder.reader.probs bits []
  rw [List.append_nil, List.append_nil] at hread
  refine ⟨hsize, rc, rest, bits, ?_, ?_, hsynced, rfl⟩
  · rw [hreader]
    exact hread
  · have hexpects : coder.Expects window history data _ _ := .parse (.inl hat) hparses
    rw [hbits] at hexpects
    exact hexpects

end Call

end LzmaDecoder

end Dht
