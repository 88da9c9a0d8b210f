/-
# The LZ decoder

`decode_buffer` calls the LZMA2 decoder with as much room in the dictionary as there is in
the output buffer and before the end of the circular buffer, copies what has been decoded
to the output, and starts over at the front of the circular buffer when its end has been
reached. LZMA2 is the last filter of a chain here, so this is all of `lz_decode`.

What comes out is what was added to the history of the dictionary, in order.
-/

import Dht.Liblzma.Lzma2Decoder

namespace Dht

/-- `lzma_coder` of the LZ decoder. -/
structure LzDecoder where
  dict : LzmaDict
  lz : Lzma2Decoder

/-- `decode_buffer` inside its loop: `room` is what is left of the output buffer. -/
structure LzLoop where
  coder : LzDecoder
  input : Bytes
  room : ℕ
  out : Bytes

namespace LzLoop

/-- The dictionary as it is handed to the coder. -/
def limited (loop : LzLoop) : LzmaDict :=
  let dict := loop.coder.dict.wrap
  { dict with limit := dict.pos + min loop.room (dict.size - dict.pos) }

/-- What follows the call of the coder. -/
def copyOut (loop : LzLoop) (ret : LzmaRet) (after : Lzma2Loop) :
    Outcome (LzLoop ⊕ LzmaRet × LzLoop) :=
  let start := loop.limited.pos
  let copySize := after.dict.pos - start
  if start + copySize ≤ after.dict.size ∧ copySize ≤ loop.room then
    let room := loop.room - copySize
    let out := loop.out ++ Buffer.slice after.dict.buf start copySize
    if after.dict.needReset then
      let next : LzLoop := ⟨⟨after.dict.reset, after.coder⟩, after.input, room, out⟩
      -- the dictionary is not checked for being full after a reset
      if ret ≠ .ok ∨ room = 0 then .ok (.inr (ret, next)) else .ok (.inl next)
    else
      let next : LzLoop := ⟨⟨after.dict, after.coder⟩, after.input, room, out⟩
      if ret ≠ .ok ∨ room = 0 ∨ after.dict.pos < after.dict.size then .ok (.inr (ret, next))
      else .ok (.inl next)
  else undefined

/-- One turn of `decode_buffer`. -/
def turn (loop : LzLoop) : Outcome (LzLoop ⊕ LzmaRet × LzLoop) := do
  let (ret, after) ← loop.coder.lz.lzma2Decode loop.limited loop.input
  loop.copyOut ret after

end LzLoop

/-- `decode_buffer`. Every turn but the last fills the dictionary or resets it. -/
def LzDecoder.decodeBuffer (coder : LzDecoder) (input : Bytes) (room : ℕ) :
    Outcome (LzmaRet × LzLoop) :=
  (Loop.runFor (Loop.fallible LzLoop.turn) (input.length + room + 1)
    ⟨coder, input, room, []⟩).getD undefined

/-- What a run of the decoder leaves: its last answer, the input it has not read, and all
it has written. -/
structure LzReading where
  ret : LzmaRet
  coder : LzDecoder
  unread : Bytes
  out : Bytes

/-- Call the decoder again and again, each time with more input behind what it has left
and with another output buffer, until it answers something else than `LZMA_OK`. -/
def LzDecoder.calls (coder : LzDecoder) (pending : Bytes) :
    List (Bytes × ℕ) → Outcome LzReading
  | [] => .ok ⟨.ok, coder, pending, []⟩
  | (supply, room) :: calls => do
      let (ret, after) ← coder.decodeBuffer (pending ++ supply) room
      if ret = .ok then
        let later ← after.coder.calls after.input calls
        return { later with out := after.out ++ later.out }
      else
        return ⟨ret, after.coder, after.input ++ (calls.map Prod.fst).flatten, after.out⟩

/-- The size of the dictionary that is allocated: at least 4096, and a multiple of 16. -/
def lzDictSize (dictSize : ℕ) : ℕ := (max dictSize 4096 + 15) / 16 * 16

/-- `lzma_lz_decoder_init` with a buffer of any content. -/
def LzDecoder.init (buf : Bytes) (garbage : Lzma2Decoder) : LzDecoder :=
  ⟨LzmaDict.reset ⟨buf, 0, 0, 0, false⟩, garbage.init⟩

/-! ## Any input -/

/-- The stretch of the buffer before `pos` is what was written last. -/
theorem LzmaDict.Keeps.slice {dict : LzmaDict} {written history : Bytes}
    (hkeeps : dict.Keeps (written ++ history)) {start : ℕ}
    (hpos : dict.pos = start + written.length) :
    Buffer.slice dict.buf start written.length = written.reverse := by
  have hfull := hkeeps.full_le
  have hle := hkeeps.pos_le
  apply List.ext_getElem?
  intro i
  by_cases hi : i < written.length
  · have hinside : start + i < dict.buf.length := by
      change _ < dict.size
      omega
    have hread := hkeeps.reads (written.length - 1 - i) (by omega)
    have hplace : LzmaDict.place dict.pos dict.size (written.length - 1 - i) = start + i := by
      rw [LzmaDict.place, if_pos (by omega)]
      omega
    rw [LzmaDict.peek, hplace, List.getD_eq_getElem?_getD, List.getD_eq_getElem?_getD,
      List.getElem?_append_left (by omega)] at hread
    rw [Buffer.slice, List.getElem?_take_of_lt hi, List.getElem?_drop,
      List.getElem?_reverse hi]
    have hback : written.length - 1 - i < written.length := by omega
    rw [List.getElem?_eq_getElem hinside, List.getElem?_eq_getElem hback] at hread ⊢
    exact congrArg some hread
  · have hbehind : written.reverse.length ≤ i := by
      rw [List.length_reverse]
      exact Nat.not_lt.mp hi
    rw [List.getElem?_eq_none hbehind,
      List.getElem?_eq_none ((Buffer.length_slice_le _ _ _).trans (Nat.not_lt.mp hi))]

/-- A decoder between two calls, and the history its dictionary keeps. -/
structure LzDecoder.Safe (coder : LzDecoder) (history : Bytes) : Prop where
  keeps : coder.dict.Keeps history
  valid : coder.lz.Valid coder.dict.full
  needReset : coder.dict.needReset = false

namespace LzLoop

section Turn

variable {loop : LzLoop} {history : Bytes}

/-- The dictionary that is handed to the coder. -/
theorem safe_limited (hkeeps : loop.coder.dict.Keeps history) : loop.limited.Safe history := by
  obtain ⟨hwrap, hpos⟩ := hkeeps.wrap
  refine ⟨hwrap.setLimit _, Nat.le_add_right _ _, ?_⟩
  change loop.coder.dict.wrap.pos +
    min loop.room (loop.coder.dict.wrap.size - loop.coder.dict.wrap.pos) ≤
      loop.coder.dict.wrap.size
  omega

theorem pos_limited_lt (hkeeps : loop.coder.dict.Keeps history) :
    loop.limited.pos < loop.limited.size := hkeeps.wrap.2

/-- The wrap and the limit leave the rest of the dictionary as it is. -/
theorem limited_same (loop : LzLoop) : loop.limited.full = loop.coder.dict.full ∧
    loop.limited.size = loop.coder.dict.size ∧
    loop.limited.needReset = loop.coder.dict.needReset := by
  rw [limited, LzmaDict.wrap]
  dsimp only
  split
  · exact ⟨rfl, rfl, rfl⟩
  · exact ⟨rfl, rfl, rfl⟩

theorem safe_lzma2 (hsafe : loop.coder.Safe history) :
    (⟨loop.coder.lz, loop.limited, loop.input⟩ : Lzma2Loop).Safe history := by
  obtain ⟨hfull, -, hneed⟩ := limited_same loop
  refine ⟨safe_limited hsafe.keeps, ?_, hneed.trans hsafe.needReset⟩
  dsimp only
  rw [hfull]
  exact hsafe.valid

/-- What the call has written fits the output buffer and is what is copied to it. -/
theorem copyOut_eq (loop : LzLoop) (ret : LzmaRet) {after : Lzma2Loop} {written : Bytes}
    (hdict : after.dict.Safe (written ++ history))
    (hextends : (⟨loop.coder.lz, loop.limited, loop.input⟩ : Lzma2Loop).Extends after written) :
    written.length ≤ loop.room ∧
      loop.copyOut ret after =
        if after.dict.needReset then
          if ret ≠ .ok ∨ loop.room - written.length = 0 then
            .ok (.inr (ret, ⟨⟨after.dict.reset, after.coder⟩, after.input,
              loop.room - written.length, loop.out ++ written.reverse⟩))
          else .ok (.inl ⟨⟨after.dict.reset, after.coder⟩, after.input,
            loop.room - written.length, loop.out ++ written.reverse⟩)
        else if ret ≠ .ok ∨ loop.room - written.length = 0 ∨ after.dict.pos < after.dict.size then
          .ok (.inr (ret, ⟨⟨after.dict, after.coder⟩, after.input,
            loop.room - written.length, loop.out ++ written.reverse⟩))
        else .ok (.inl ⟨⟨after.dict, after.coder⟩, after.input,
          loop.room - written.length, loop.out ++ written.reverse⟩) := by
  have hpos : after.dict.pos = loop.limited.pos + written.length := hextends.pos
  have hlimit : after.dict.limit =
      loop.limited.pos + min loop.room (loop.limited.size - loop.limited.pos) := hextends.limit
  have hinside := hdict.pos_le
  have hsize := hdict.limit_le
  have hcount : after.dict.pos - loop.limited.pos = written.length := by omega
  refine ⟨by omega, ?_⟩
  rw [copyOut]
  dsimp only
  rw [hcount, if_pos (by omega), hdict.keeps.slice hpos]

/-- What the decoder may be left with: the output buffer holds what has been added to it,
and unless there was an error the decoder can be called again. -/
structure Left (loop : LzLoop) (ret : LzmaRet) (next : LzLoop) : Prop where
  out : ∃ bytes, next.out = loop.out ++ bytes ∧ next.room + bytes.length = loop.room
  input : next.input <:+ loop.input
  safe : ret = .ok ∨ ret = .streamEnd → ∃ history, next.coder.Safe history ∧
    next.coder.dict.size = loop.coder.dict.size

/-- **One turn.** -/
theorem turn_cases (hsafe : loop.coder.Safe history) :
    (∃ next, loop.turn = .ok (.inl next) ∧ loop.Left .ok next ∧
        next.input.length + next.room < loop.input.length + loop.room) ∨
      ∃ ret next, loop.turn = .ok (.inr (ret, next)) ∧ loop.Left ret next := by
  obtain ⟨-, hsame, -⟩ := limited_same loop
  obtain ⟨⟨ret, after⟩, hdecode, hleft⟩ := Lzma2Decoder.left_lzma2Decode (safe_lzma2 hsafe)
  have hturn : loop.turn = loop.copyOut ret after := by rw [turn, hdecode, ok_bind]
  rw [hturn]
  cases hleft with
  | pause written hret hnext hextends =>
      obtain ⟨hroom, hcopy⟩ := copyOut_eq loop ret hnext.dict hextends
      have hpos : after.dict.pos = loop.limited.pos + written.length := hextends.pos
      have hstart := pos_limited_lt hsafe.keeps
      have hsize : after.dict.size = loop.limited.size := hextends.size
      have hinput : after.input.length ≤ loop.input.length := hextends.input.length_le
      rw [hcopy, hnext.needReset, if_neg Bool.false_ne_true]
      have hleft : loop.Left ret ⟨⟨after.dict, after.coder⟩, after.input,
          loop.room - written.length, loop.out ++ written.reverse⟩ := by
        refine ⟨⟨written.reverse, rfl, ?_⟩, hextends.input, fun _ => ⟨_,
          ⟨hnext.dict.keeps, hnext.valid, hnext.needReset⟩, hsize.trans hsame⟩⟩
        rw [List.length_reverse]
        exact Nat.sub_add_cancel hroom
      by_cases hstop : ret ≠ .ok ∨ loop.room - written.length = 0 ∨
          after.dict.pos < after.dict.size
      · rw [if_pos hstop]
        exact .inr ⟨_, _, rfl, hleft⟩
      · rw [if_neg hstop]
        rw [not_or, not_or, not_not] at hstop
        obtain ⟨rfl, hmore, hfull⟩ := hstop
        refine .inl ⟨_, rfl, hleft, ?_⟩
        dsimp only
        omega
  | dictReset written hdict hneed hresets hextends hinput =>
      obtain ⟨hroom, hcopy⟩ := copyOut_eq loop .ok hdict hextends
      have hsize : after.dict.size = loop.limited.size := hextends.size
      have hreset : after.dict.reset.size = after.dict.size := List.length_set
      rw [hcopy, hneed, if_pos rfl]
      have hleft : loop.Left .ok ⟨⟨after.dict.reset, after.coder⟩, after.input,
          loop.room - written.length, loop.out ++ written.reverse⟩ := by
        refine ⟨⟨written.reverse, rfl, ?_⟩, hextends.input, fun _ => ⟨[],
          ⟨LzmaDict.keeps_reset hdict.keeps.nonempty, .inl hresets, rfl⟩,
          (hreset.trans hsize).trans hsame⟩⟩
        rw [List.length_reverse]
        exact Nat.sub_add_cancel hroom
      by_cases hstop : LzmaRet.ok ≠ .ok ∨ loop.room - written.length = 0
      · rw [if_pos hstop]
        exact .inr ⟨_, _, rfl, hleft⟩
      · rw [if_neg hstop]
        refine .inl ⟨_, rfl, hleft, ?_⟩
        have hshorter : after.input.length < loop.input.length := hinput
        dsimp only
        omega
  | error written hret hdict hneed hextends =>
      obtain ⟨hroom, hcopy⟩ := copyOut_eq loop ret hdict hextends
      rw [hcopy, hneed, if_neg Bool.false_ne_true, if_pos (.inl hret.1)]
      refine .inr ⟨_, _, rfl, ⟨written.reverse, rfl, ?_⟩, hextends.input, fun hgood => ?_⟩
      · rw [List.length_reverse]
        exact Nat.sub_add_cancel hroom
      · exact absurd hgood (not_or_intro hret.1 hret.2)

theorem Left.trans {first second third : LzLoop} {ret : LzmaRet} (hfirst : first.Left .ok second)
    (hsecond : second.Left ret third) : first.Left ret third := by
  obtain ⟨before, hbefore, hroom⟩ := hfirst.out
  obtain ⟨bytes, hbytes, hmore⟩ := hsecond.out
  obtain ⟨_, -, hsize⟩ := hfirst.safe (.inl rfl)
  refine ⟨⟨before ++ bytes, ?_, ?_⟩, hsecond.input.trans hfirst.input, fun hgood => ?_⟩
  · rw [hbytes, hbefore, List.append_assoc]
  · rw [List.length_append]
    omega
  · obtain ⟨history, hsafe, hsame⟩ := hsecond.safe hgood
    exact ⟨history, hsafe, hsame.trans hsize⟩

end Turn

end LzLoop

/-- **Any input.** Whatever bytes it is given, the LZ decoder returns; it reads and writes
nothing outside its dictionary, and writes no more than the output buffer holds. -/
theorem LzDecoder.left_decodeBuffer {coder : LzDecoder} {history : Bytes}
    (hsafe : coder.Safe history) (input : Bytes) (room : ℕ) :
    ∃ ret after, coder.decodeBuffer input room = .ok (ret, after) ∧
      (⟨coder, input, room, []⟩ : LzLoop).Left ret after := by
  have hstart : (⟨coder, input, room, []⟩ : LzLoop).Left .ok ⟨coder, input, room, []⟩ :=
    ⟨⟨[], rfl, rfl⟩, List.suffix_refl _, fun _ => ⟨history, hsafe, rfl⟩⟩
  have hrun : ∃ result : LzmaRet × LzLoop, Loop.runFor (Loop.fallible LzLoop.turn)
      (input.length + room + 1) ⟨coder, input, room, []⟩ = some (.ok result) ∧
      (⟨coder, input, room, []⟩ : LzLoop).Left result.1 result.2 := by
    refine Loop.exists_runFor_fallible
      (fun state => (⟨coder, input, room, []⟩ : LzLoop).Left .ok state)
      (fun state => state.input.length + state.room) ?_ hstart (Nat.lt_succ_self _)
    intro state hstate
    obtain ⟨current, hcurrent, -⟩ := hstate.safe (.inl rfl)
    obtain ⟨next, hturn, hleft, hvariant⟩ | ⟨ret, next, hturn, hleft⟩ :=
      LzLoop.turn_cases hcurrent
    · exact .inl ⟨next, hturn, hstate.trans hleft, hvariant⟩
    · exact .inr ⟨(ret, next), hturn, hstate.trans hleft⟩
  obtain ⟨⟨ret, after⟩, hresult, hleft⟩ := hrun
  refine ⟨ret, after, ?_, hleft⟩
  rw [decodeBuffer, hresult, Option.getD_some]

/-- The decoder that is created has nothing in its history. -/
theorem LzDecoder.safe_init {buf : Bytes} (hbuf : 0 < buf.length) (garbage : Lzma2Decoder) :
    (LzDecoder.init buf garbage).Safe [] :=
  ⟨LzmaDict.keeps_reset hbuf, .inl rfl, rfl⟩

/-- Any run, from any state between two calls. -/
theorem LzDecoder.Safe.exists_calls {coder : LzDecoder} {history : Bytes}
    (hsafe : coder.Safe history) (pending : Bytes) (calls : List (Bytes × ℕ)) :
    ∃ reading, coder.calls pending calls = .ok reading ∧
      reading.unread <:+ pending ++ (calls.map Prod.fst).flatten ∧
      reading.out.length ≤ (calls.map Prod.snd).sum := by
  induction calls generalizing coder history pending with
  | nil => exact ⟨_, rfl, by simp, le_rfl⟩
  | cons call calls ih =>
      obtain ⟨supply, room⟩ := call
      obtain ⟨ret, after, hdecode, hleft⟩ := left_decodeBuffer hsafe (pending ++ supply) room
      obtain ⟨bytes, hout, hroom⟩ := hleft.out
      have hinput : after.input <:+ pending ++ supply := hleft.input
      dsimp only at hroom
      rw [List.nil_append] at hout
      rw [LzDecoder.calls, hdecode, ok_bind, List.map_cons, List.map_cons, List.flatten_cons,
        List.sum_cons, ← List.append_assoc]
      by_cases hok : ret = .ok
      · obtain ⟨current, hcurrent, -⟩ := hleft.safe (.inl hok)
        obtain ⟨reading, hcalls, hunread, hlength⟩ := ih hcurrent after.input
        dsimp only
        rw [if_pos hok, hcalls, ok_bind]
        refine ⟨_, rfl, hunread.trans (List.suffix_append_self_iff.mpr hinput), ?_⟩
        dsimp only
        rw [List.length_append, hout]
        omega
      · dsimp only
        rw [if_neg hok]
        refine ⟨_, rfl, List.suffix_append_self_iff.mpr hinput, ?_⟩
        dsimp only
        rw [hout]
        omega

/-- **Any run.** A decoder that has just been created can be fed any bytes, in any pieces and
with any room for the output: it always returns, reads and writes nothing outside its
dictionary, asks for no probability outside its array, reads no more than it is given and
writes no more than it has room for. -/
theorem LzDecoder.exists_calls_init (dictSize : ℕ) {buf : Bytes}
    (hbuf : buf.length = lzDictSize dictSize) (garbage : Lzma2Decoder)
    (calls : List (Bytes × ℕ)) :
    ∃ reading, (LzDecoder.init buf garbage).calls [] calls = .ok reading ∧
      reading.unread <:+ (calls.map Prod.fst).flatten ∧
      reading.out.length ≤ (calls.map Prod.snd).sum := by
  have hpos : 0 < buf.length := by
    rw [hbuf, lzDictSize]
    omega
  exact (safe_init hpos garbage).exists_calls [] calls

/-- A stored chunk in two pieces, and a byte that no chunk starts with. -/
theorem LzDecoder.exists_calls_init_stored :
    ∃ reading, (LzDecoder.init (List.replicate 4096 0) ⟨.control, .control,
        ⟨⟨.reset, fun _ => bitReset⟩, .reset, ⟨3, 0, 2, by decide, by decide⟩, none, .isMatch⟩,
        0, 0, true, true, ⟨3, 0, 2, by decide, by decide⟩⟩).calls []
        [([1, 0, 1, 65], 9), ([66, 3], 9)] = .ok reading ∧
      reading.unread <:+ [1, 0, 1, 65, 66, 3] ∧ reading.out.length ≤ 18 :=
  LzDecoder.exists_calls_init 4096 List.length_replicate _ [([1, 0, 1, 65], 9), ([66, 3], 9)]

end Dht
