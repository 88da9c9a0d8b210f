/-
# Variable-length integers

The sizes in an `.xz` file are written seven bits a byte, lowest bits first, with the
highest bit of a byte set if another one follows. Both directions may stop when a buffer
is used up and go on in the next call; `vli_pos` says how many bytes have been done.

The decoder refuses an integer with zeros at its end, so that every number has exactly
one encoding: what it accepts is what the encoder writes.
-/

import Dht.Compression.Lzma
import Dht.Lib.Resumable
import Mathlib.Tactic.Ring

namespace Dht

open Resumable

/-- `LZMA_VLI_MAX`. -/
def vliMax : ℕ := 2 ^ 63 - 1

/-- `*vli` and `*vli_pos`. -/
structure VliState where
  vli : ℕ
  pos : ℕ

/-- The loop of `lzma_vli_size`. -/
def vliSizeLoop : ℕ → ℕ → ℕ
  | 0, _ => 0
  | fuel + 1, vli => if vli >>> 7 = 0 then 1 else vliSizeLoop fuel (vli >>> 7) + 1

/-- `lzma_vli_size`. -/
def vliSize (vli : ℕ) : ℕ := if vliMax < vli then 0 else vliSizeLoop 9 vli

/-- The loop of `lzma_vli_encode`; `vli` is what is left to be written. -/
def vliEncodeLoop : ℕ → VliState → Written UInt8 ℕ
  | 0, state => ⟨true, [], state.pos⟩
  | room + 1, ⟨vli, pos⟩ =>
      if 0x80 ≤ vli then
        let later := vliEncodeLoop room ⟨vli >>> 7, pos + 1⟩
        ⟨later.full, UInt8.ofNat (vli ||| 0x80) :: later.out, later.state⟩
      else ⟨false, [UInt8.ofNat vli], pos + 1⟩

/-- `lzma_vli_encode` with arguments that it accepts; it is called again with the position
it has left if it has filled the buffer. -/
def vliEncode (room : ℕ) (state : VliState) : Written UInt8 ℕ :=
  vliEncodeLoop room ⟨state.vli >>> (state.pos * 7), state.pos⟩

/-- `lzma_vli_encode` in one call, with nothing if it is not successful. -/
def vliEncodeSingle (room vli : ℕ) : Option Bytes :=
  if room = 0 ∨ vliMax < vli then none
  else
    let written := vliEncode room ⟨vli, 0⟩
    if written.full then none else some written.out

/-- The loop of `lzma_vli_decode`. -/
def vliDecodeLoop : VliState → Bytes → LzmaRet × VliState × Bytes
  | state, [] => (.ok, state, [])
  | ⟨vli, pos⟩, byte :: rest =>
      let vli := vli + (byte.toNat &&& 0x7F) <<< (pos * 7)
      let pos := pos + 1
      if byte.toNat &&& 0x80 = 0 then
        if byte = 0 ∧ 1 < pos then (.dataError, ⟨vli, pos⟩, rest) else (.streamEnd, ⟨vli, pos⟩, rest)
      else if pos = 9 then (.dataError, ⟨vli, pos⟩, rest)
      else vliDecodeLoop ⟨vli, pos⟩ rest

/-- A new integer starts at zero. -/
def VliState.begun (state : VliState) : VliState := if state.pos = 0 then ⟨0, 0⟩ else state

/-- `lzma_vli_decode` with a position. -/
def vliDecode (state : VliState) (input : Bytes) : LzmaRet × VliState × Bytes :=
  let state := state.begun
  if 9 ≤ state.pos ∨ state.vli >>> (state.pos * 7) ≠ 0 then (.progError, state, input)
  else if input = [] then (.bufError, state, input)
  else vliDecodeLoop state input

/-- `lzma_vli_decode` in one call. -/
def vliDecodeSingle (input : Bytes) : Except LzmaRet (ℕ × Bytes) :=
  match vliDecodeLoop ⟨0, 0⟩ input with
  | (.streamEnd, state, rest) => .ok (state.vli, rest)
  | (.ok, _, _) => .error .dataError
  | (ret, _, _) => .error ret

/-! ## The bytes of a number -/

/-- The bytes of a number. -/
def vliText (vli : ℕ) : Bytes :=
  if vli < 0x80 then [UInt8.ofNat vli]
  else UInt8.ofNat (vli ||| 0x80) :: vliText (vli >>> 7)
termination_by vli
decreasing_by
  rw [Nat.shiftRight_eq_div_pow]
  omega

section Text

theorem vliText_of_lt {vli : ℕ} (hlast : vli < 0x80) : vliText vli = [UInt8.ofNat vli] := by
  rw [vliText, if_pos hlast]

theorem vliText_of_le {vli : ℕ} (hmore : 0x80 ≤ vli) :
    vliText vli = UInt8.ofNat (vli ||| 0x80) :: vliText (vli >>> 7) := by
  rw [vliText, if_neg (Nat.not_lt.mpr hmore)]

theorem vliText_ne_nil (vli : ℕ) : vliText vli ≠ [] := by
  by_cases hlast : vli < 0x80
  · simp [vliText_of_lt hlast]
  · simp [vliText_of_le (Nat.not_lt.mp hlast)]

theorem shiftRight_seven (vli : ℕ) : vli >>> 7 = vli / 128 := Nat.shiftRight_eq_div_pow vli 7

/-- A byte that another one follows. -/
theorem toNat_more (vli : ℕ) :
    (UInt8.ofNat (vli ||| 0x80)).toNat = vli % 128 + 128 := by
  have hbytes : ∀ low : Fin 256, low.val ||| 0x80 = low.val % 128 + 128 := by
    decide +kernel
  have hlow := hbytes ⟨vli % 256, Nat.mod_lt _ (by decide)⟩
  rw [Nat.mod_mod_of_dvd vli (by decide)] at hlow
  simpa using hlow

/-- The seven bits of a byte, and its highest one. -/
theorem byte_bits (byte : UInt8) :
    byte.toNat &&& 0x7F = byte.toNat % 128 ∧ (byte.toNat &&& 0x80 = 0 ↔ byte.toNat < 128) := by
  have hbytes : ∀ number : Fin 256, number.val &&& 0x80 = 0 ↔ number.val < 128 := by
    decide +kernel
  exact ⟨Nat.and_two_pow_sub_one_eq_mod _ 7, hbytes ⟨byte.toNat, byte.toNat_lt⟩⟩

/-- What the seven bits of a byte add. -/
theorem shiftLeft_pos (number pos : ℕ) : number <<< (pos * 7) = number * 128 ^ pos := by
  rw [Nat.shiftLeft_eq, Nat.mul_comm pos 7, Nat.pow_mul]

end Text

/-! ## Encoding -/

section Encode

/-- What is left of a number, written from a position on. -/
theorem fills_vliEncodeLoop (room vli pos : ℕ) :
    Fills room (vliText vli) (· = pos + (vliText vli).length)
      (fun left after => ∃ done, after = pos + done ∧ left = vliText (vli >>> (done * 7)) ∧
        left.length + done = (vliText vli).length)
      (vliEncodeLoop room ⟨vli, pos⟩) := by
  induction room generalizing vli pos with
  | zero =>
      apply Fills.stopped (List.length_pos_iff.mpr (vliText_ne_nil vli))
      exact ⟨0, by simp⟩
  | succ room ih =>
      rw [vliEncodeLoop]
      by_cases hmore : 0x80 ≤ vli
      · rw [if_pos hmore, vliText_of_le hmore]
        have hrest := ih (vli >>> 7) (pos + 1)
        dsimp only
        generalize vliEncodeLoop room ⟨vli >>> 7, pos + 1⟩ = later at hrest ⊢
        cases hrest with
        | finished hroom hdone =>
            subst hdone
            apply Fills.finished
            · simpa using hroom
            · simp only [List.length_cons]
              omega
        | stopped hroom hpaused =>
            apply Fills.stopped
            · simpa using hroom
            · obtain ⟨done, rfl, hleft, hlength⟩ := hpaused
              refine ⟨done + 1, Nat.add_right_comm pos 1 done, ?_, ?_⟩
              · rw [List.drop_succ_cons, hleft, ← Nat.shiftRight_add]
                congr 2
                omega
              · rw [List.drop_succ_cons, List.length_cons]
                omega
      · rw [if_neg hmore, vliText_of_lt (Nat.not_le.mp hmore)]
        exact .finished (by simp) (by simp)

/-- Call `lzma_vli_encode` with one buffer after the other. -/
def vliEncodeCalls (vli : ℕ) (rooms : List ℕ) : Written UInt8 ℕ :=
  calls (fun room pos => vliEncode room ⟨vli, pos⟩) rooms 0

/-- Whatever buffers it is given, the encoder writes the same bytes. -/
theorem fills_vliEncodeCalls (vli room : ℕ) (rooms : List ℕ) :
    Fills (total (room :: rooms)) (vliText vli) (· = (vliText vli).length)
      (fun left pos => left = vliText (vli >>> (pos * 7)) ∧
        left.length + pos = (vliText vli).length)
      (vliEncodeCalls vli (room :: rooms)) := by
  apply fills_calls
  · rintro room _ pos ⟨rfl, hlength⟩
    apply (fills_vliEncodeLoop room (vli >>> (pos * 7)) pos).imp
    · rintro after rfl
      omega
    · rintro left after ⟨done, rfl, rfl, hdone⟩
      constructor
      · rw [← Nat.shiftRight_add, Nat.add_mul]
      · omega
  · simp

/-- One call with enough room. -/
theorem vliEncodeSingle_eq {room vli : ℕ} (hvli : vli ≤ vliMax)
    (hroom : (vliText vli).length ≤ room) : vliEncodeSingle room vli = some (vliText vli) := by
  have hpos : room ≠ 0 := by
    have hlength := List.length_pos_iff.mpr (vliText_ne_nil vli)
    omega
  have hfills := fills_vliEncodeLoop room vli 0
  rw [vliEncodeSingle, if_neg (not_or.mpr ⟨hpos, Nat.not_lt.mpr hvli⟩), vliEncode, Nat.zero_mul,
    Nat.shiftRight_zero]
  generalize vliEncodeLoop room ⟨vli, 0⟩ = written at hfills ⊢
  cases hfills with
  | finished hfits hdone => simp
  | stopped hshort hpaused => exact absurd hroom (Nat.not_le.mpr hshort)

end Encode

/-! ## Decoding -/

/-- The decoder has read some bytes of a number and has still to read `stream`. A number
does not end in zeros. -/
def VliState.Awaits (state : VliState) (value : ℕ) (stream : Bytes) : Prop :=
  ∃ rest, value = state.vli + rest * 128 ^ state.pos ∧ stream = vliText rest ∧
    state.vli < 128 ^ state.pos ∧ (0 < state.pos → 0 < rest)

section Decode

variable {state : VliState} {value : ℕ} {stream input later more : Bytes}

/-- A number below the maximum has at most nine bytes. -/
theorem pos_lt_nine {pos vli rest : ℕ} (hvalue : vli + rest * 128 ^ pos ≤ vliMax)
    (hrest : 0 < rest) : pos < 9 := by
  by_contra hlong
  have hpower : 128 ^ 9 ≤ 128 ^ pos := Nat.pow_le_pow_right (by decide) (Nat.not_lt.mp hlong)
  have hproduct : 1 * 128 ^ pos ≤ rest * 128 ^ pos := Nat.mul_le_mul_right _ hrest
  have hmax : vliMax < 128 ^ 9 := by decide
  omega

/-- A byte of a number: the last one, or one that others follow. -/
theorem VliState.Awaits.read (hawaits : state.Awaits value stream) (hvalue : value ≤ vliMax) :
    ∃ byte rest, stream = byte :: rest ∧
      ((rest = [] ∧ ∀ tail, vliDecodeLoop state (byte :: tail) =
          (.streamEnd, ⟨value, state.pos + 1⟩, tail)) ∨
        ∃ next : VliState, next.pos = state.pos + 1 ∧ next.Awaits value rest ∧
          ∀ tail, vliDecodeLoop state (byte :: tail) = vliDecodeLoop next tail) := by
  obtain ⟨vli, pos⟩ := state
  obtain ⟨left, hsum, rfl, hlow, hminimal⟩ := hawaits
  dsimp only at hsum hlow hminimal
  by_cases hlast : left < 0x80
  · refine ⟨_, [], vliText_of_lt hlast, .inl ⟨rfl, fun tail => ?_⟩⟩
    have hbyte : (UInt8.ofNat left).toNat = left := by
      simp only [UInt8.toNat_ofNat']
      omega
    obtain ⟨hbits, hend⟩ := byte_bits (UInt8.ofNat left)
    rw [hbyte] at hbits hend
    have hnonzero : ¬(UInt8.ofNat left = 0 ∧ 1 < pos + 1) := by
      rintro ⟨hzero, hpos⟩
      have hleft : left = 0 := by rw [← hbyte, hzero]; rfl
      have hmore := hminimal (by omega)
      omega
    rw [vliDecodeLoop, hbyte, if_pos (hend.mpr hlast), if_neg hnonzero, hbits,
      Nat.mod_eq_of_lt hlast, shiftLeft_pos, ← hsum]
  · have hmore : 0x80 ≤ left := Nat.not_lt.mp hlast
    have hrest : 0 < left >>> 7 := by
      rw [shiftRight_seven]
      omega
    have hnext : value = vli + left % 128 * 128 ^ pos + (left >>> 7) * 128 ^ (pos + 1) := by
      rw [hsum, shiftRight_seven, Nat.pow_succ]
      have hsplit := Nat.mod_add_div left 128
      calc vli + left * 128 ^ pos
          = vli + (left % 128 + 128 * (left / 128)) * 128 ^ pos := by rw [hsplit]
        _ = vli + left % 128 * 128 ^ pos + left / 128 * (128 ^ pos * 128) := by ring
    refine ⟨_, _, vliText_of_le hmore, .inr ⟨⟨vli + left % 128 * 128 ^ pos, pos + 1⟩, rfl,
      ⟨left >>> 7, hnext, rfl, ?_, fun _ => hrest⟩, fun tail => ?_⟩⟩
    · have hdigit : left % 128 ≤ 127 := by omega
      have hproduct : left % 128 * 128 ^ pos ≤ 127 * 128 ^ pos := Nat.mul_le_mul_right _ hdigit
      dsimp only
      rw [Nat.pow_succ]
      omega
    · obtain ⟨hbits, hend⟩ := byte_bits (UInt8.ofNat (left ||| 0x80))
      rw [toNat_more] at hbits hend
      have hlong : pos + 1 < 9 := pos_lt_nine (hnext.symm.le.trans hvalue) hrest
      rw [vliDecodeLoop, toNat_more, if_neg (by omega), if_neg (by omega), hbits, shiftLeft_pos]
      congr 4
      omega

/-- The loop reads a number from any front of its bytes: it comes to the end and leaves what
follows, or it awaits the rest. -/
theorem VliState.Awaits.loop (hawaits : state.Awaits value stream) (hvalue : value ≤ vliMax)
    (htotal : input ++ later = stream ++ more) :
    (∃ left, vliDecodeLoop state input = (.streamEnd, ⟨value, state.pos + stream.length⟩, left) ∧
        left ++ later = more) ∨
      ∃ (next : VliState) (still : Bytes), vliDecodeLoop state input = (.ok, next, []) ∧
        next.Awaits value still ∧ later = still ++ more ∧ next.pos = state.pos + input.length := by
  induction input generalizing state stream with
  | nil => exact .inr ⟨state, stream, by rw [vliDecodeLoop], hawaits, htotal, rfl⟩
  | cons byte input ih =>
      obtain ⟨first, rest, rfl, hread⟩ := hawaits.read hvalue
      obtain ⟨rfl, htail⟩ := List.cons.inj htotal
      obtain ⟨rfl, hend⟩ | ⟨next, hpos, hnext, hloop⟩ := hread
      · exact .inl ⟨input, hend input, htail⟩
      · rw [hloop, List.length_cons, List.length_cons]
        apply (ih hnext htail).imp
        · rintro ⟨left, hdone, hleft⟩
          refine ⟨left, ?_, hleft⟩
          rw [hdone, hpos, Nat.add_right_comm, Nat.add_assoc]
        · rintro ⟨after, still, hgoing, hafter, hlater, hcount⟩
          refine ⟨after, still, hgoing, hafter, hlater, ?_⟩
          rw [hcount, hpos, Nat.add_right_comm, Nat.add_assoc]

/-- A new integer. -/
theorem awaits_vliText (value : ℕ) : (⟨0, 0⟩ : VliState).Awaits value (vliText value) :=
  ⟨value, by simp, rfl, by simp, fun hpos => absurd hpos (Nat.lt_irrefl 0)⟩

/-- **One call.** -/
theorem VliState.Awaits.decode (hawaits : state.begun.Awaits value stream)
    (hvalue : value ≤ vliMax) (hinput : input ≠ []) (htotal : input ++ later = stream ++ more) :
    (∃ left pos, vliDecode state input = (.streamEnd, ⟨value, pos⟩, left) ∧
        left ++ later = more) ∨
      ∃ (next : VliState) (still : Bytes), vliDecode state input = (.ok, next, []) ∧
        next.begun.Awaits value still ∧ later = still ++ more := by
  have hvalid : ¬(9 ≤ state.begun.pos ∨ state.begun.vli >>> (state.begun.pos * 7) ≠ 0) := by
    obtain ⟨rest, hsum, -, hlow, hminimal⟩ := hawaits
    rw [not_or, not_not]
    constructor
    · by_cases hpos : 0 < state.begun.pos
      · exact Nat.not_le.mpr (pos_lt_nine (hsum.symm.le.trans hvalue) (hminimal hpos))
      · omega
    · rw [Nat.shiftRight_eq_div_pow, Nat.mul_comm, Nat.pow_mul]
      exact Nat.div_eq_of_lt hlow
  rw [vliDecode]
  rw [if_neg hvalid, if_neg hinput]
  apply (hawaits.loop hvalue htotal).imp
  · rintro ⟨left, hdone, hleft⟩
    exact ⟨left, _, hdone, hleft⟩
  · rintro ⟨next, still, hgoing, hnext, hlater, hcount⟩
    refine ⟨next, still, hgoing, ?_, hlater⟩
    have hpos : next.pos ≠ 0 := by
      have hlength := List.length_pos_iff.mpr hinput
      omega
    rw [VliState.begun, if_neg hpos]
    exact hnext

/-- What the loop accepts is a number with all its bytes. -/
theorem text_of_vliDecodeLoop {after : VliState} {rest : Bytes}
    (hdecode : vliDecodeLoop state input = (.streamEnd, after, rest))
    (hlow : state.vli < 128 ^ state.pos) (hpos : state.pos < 9) :
    ∃ left, input = vliText left ++ rest ∧ after.vli = state.vli + left * 128 ^ state.pos ∧
      (0 < state.pos → 0 < left) ∧ after.vli ≤ vliMax ∧
      after.pos = state.pos + (vliText left).length := by
  induction input generalizing state with
  | nil =>
      rw [vliDecodeLoop] at hdecode
      cases hdecode
  | cons byte input ih =>
      obtain ⟨vli, pos⟩ := state
      dsimp only at hlow hpos
      obtain ⟨hbits, hend⟩ := byte_bits byte
      have hdigit : byte.toNat % 128 * 128 ^ pos ≤ 127 * 128 ^ pos :=
        Nat.mul_le_mul_right _ (by omega)
      have hnext : vli + byte.toNat % 128 * 128 ^ pos < 128 ^ (pos + 1) := by
        rw [Nat.pow_succ]
        omega
      rw [vliDecodeLoop, hbits, shiftLeft_pos] at hdecode
      by_cases hlast : byte.toNat < 128
      · rw [if_pos (hend.mpr hlast)] at hdecode
        by_cases hzero : byte = 0 ∧ 1 < pos + 1
        · rw [if_pos hzero] at hdecode
          cases hdecode
        · rw [if_neg hzero] at hdecode
          cases hdecode
          have hmax : 128 ^ (pos + 1) ≤ vliMax + 1 := Nat.pow_le_pow_right (by decide) hpos
          rw [Nat.mod_eq_of_lt hlast] at hnext ⊢
          refine ⟨byte.toNat, ?_, rfl, fun hmore => ?_, ?_, ?_⟩
          · simp [vliText_of_lt hlast]
          · apply Nat.pos_of_ne_zero
            intro hnone
            exact hzero ⟨UInt8.toNat_inj.mp hnone, Nat.lt_add_of_pos_left hmore⟩
          · dsimp only
            omega
          · simp [vliText_of_lt hlast]
      · rw [if_neg (fun hbit => hlast (hend.mp hbit))] at hdecode
        by_cases hnine : pos + 1 = 9
        · rw [if_pos hnine] at hdecode
          cases hdecode
        · rw [if_neg hnine] at hdecode
          have hroom : pos + 1 < 9 := by omega
          obtain ⟨left, hinput, hvalue, hmore, hmax, hcount⟩ := ih hdecode hnext hroom
          dsimp only at hvalue hcount
          have hleft : 0 < left := hmore (Nat.succ_pos pos)
          have hsum : byte.toNat % 128 + 128 * left = byte.toNat - 128 + 128 * left := by
            have hlt := byte.toNat_lt
            omega
          have hshift : (byte.toNat - 128 + 128 * left) >>> 7 = left := by
            have hlt := byte.toNat_lt
            rw [shiftRight_seven]
            omega
          have hfirst : UInt8.ofNat ((byte.toNat - 128 + 128 * left) ||| 0x80) = byte := by
            have hlt := byte.toNat_lt
            apply UInt8.toNat_inj.mp
            rw [toNat_more]
            omega
          have htext : vliText (byte.toNat - 128 + 128 * left) = byte :: vliText left := by
            rw [vliText_of_le (by omega), hshift, hfirst]
          refine ⟨byte.toNat - 128 + 128 * left, ?_, ?_, fun _ => by omega, hmax, ?_⟩
          · rw [htext, hinput, List.cons_append]
          · rw [hvalue, ← hsum, Nat.pow_succ]
            ring
          · rw [hcount, htext, List.length_cons]
            dsimp only
            omega

/-- `lzma_vli_size` counts the bytes. -/
theorem vliSize_eq {vli : ℕ} (hvli : vli ≤ vliMax) : vliSize vli = (vliText vli).length := by
  have hloop (fuel vli : ℕ) (hvli : vli < 128 ^ fuel) (hfuel : 0 < fuel) :
      vliSizeLoop fuel vli = (vliText vli).length := by
    induction fuel generalizing vli with
    | zero => exact absurd hfuel (Nat.lt_irrefl 0)
    | succ fuel ih =>
        rw [vliSizeLoop]
        by_cases hlast : vli < 0x80
        · rw [if_pos (by rw [shiftRight_seven]; omega), vliText_of_lt hlast]
          rfl
        · rw [if_neg (by rw [shiftRight_seven]; omega), vliText_of_le (Nat.not_lt.mp hlast),
            List.length_cons, ih]
          · rw [shiftRight_seven, Nat.div_lt_iff_lt_mul (by decide), ← Nat.pow_succ]
            exact hvli
          · apply Nat.pos_of_ne_zero
            rintro rfl
            rw [Nat.zero_add, Nat.pow_one] at hvli
            exact hlast hvli
  rw [vliSize, if_neg (Nat.not_lt.mpr hvli)]
  exact hloop 9 vli (Nat.lt_succ_of_le hvli) (by decide)

theorem length_vliText_le {vli : ℕ} (hvli : vli ≤ vliMax) : (vliText vli).length ≤ 9 := by
  have hloop (fuel vli : ℕ) : vliSizeLoop fuel vli ≤ fuel := by
    induction fuel generalizing vli with
    | zero => exact le_rfl
    | succ fuel ih =>
        rw [vliSizeLoop]
        split
        · exact Nat.succ_le_succ (Nat.zero_le _)
        · exact Nat.succ_le_succ (ih _)
  rw [← vliSize_eq hvli, vliSize, if_neg (Nat.not_lt.mpr hvli)]
  exact hloop 9 vli

/-- A number in one call. -/
theorem vliDecodeSingle_append {value : ℕ} (hvalue : value ≤ vliMax) (more : Bytes) :
    vliDecodeSingle (vliText value ++ more) = .ok (value, more) := by
  have htotal : (vliText value ++ more) ++ [] = vliText value ++ more := List.append_nil _
  obtain ⟨left, hdone, hleft⟩ | ⟨next, still, hgoing, hnext, hlater, hcount⟩ :=
    (awaits_vliText value).loop hvalue htotal
  · rw [List.append_nil] at hleft
    rw [vliDecodeSingle, hdone, hleft]
  · obtain ⟨rest, -, rfl, -⟩ := hnext
    exact absurd (List.append_eq_nil_iff.mp hlater.symm).1 (vliText_ne_nil rest)

end Decode

/-- **One encoding for every number.** A new integer is decoded from some input exactly if it
is at most `LZMA_VLI_MAX` and the input starts with the bytes that the encoder writes for
it, whatever buffers the encoder is given. -/
theorem vliDecode_iff_encode (garbage value pos : ℕ) (input rest : Bytes) :
    vliDecode ⟨garbage, 0⟩ input = (.streamEnd, ⟨value, pos⟩, rest) ↔
      value ≤ vliMax ∧ pos = vliSize value ∧ ∃ text, input = text ++ rest ∧
        ∀ room rooms, Fills (total (room :: rooms)) text (· = pos) (fun _ _ => True)
          (vliEncodeCalls value (room :: rooms)) := by
  have hbegun : (⟨garbage, 0⟩ : VliState).begun = ⟨0, 0⟩ := rfl
  have hfills (room : ℕ) (rooms : List ℕ) :
      Fills (total (room :: rooms)) (vliText value) (· = (vliText value).length)
        (fun _ _ => True) (vliEncodeCalls value (room :: rooms)) :=
    (fills_vliEncodeCalls value room rooms).imp (fun _ hdone => hdone) fun _ _ _ => trivial
  rw [vliDecode, hbegun, if_neg (by simp)]
  constructor
  · intro hdecode
    by_cases hinput : input = []
    · rw [if_pos hinput] at hdecode
      cases hdecode
    · rw [if_neg hinput] at hdecode
      obtain ⟨left, rfl, hvalue, -, hmax, hpos⟩ :=
        text_of_vliDecodeLoop hdecode (by simp) (by decide)
      simp only [Nat.pow_zero, Nat.mul_one, Nat.zero_add] at hvalue hpos
      subst hvalue hpos
      exact ⟨hmax, (vliSize_eq hmax).symm, _, rfl, hfills⟩
  · rintro ⟨hvalue, hpos, text, rfl, htheirs⟩
    rw [vliSize_eq hvalue] at hpos
    -- with enough room for both there is one text
    have htext : text = vliText value := by
      have hours := hfills (text.length + (vliText value).length) []
      have hgiven := htheirs (text.length + (vliText value).length) []
      rw [← hgiven.out_eq (Nat.le_add_right _ _), hours.out_eq (Nat.le_add_left _ _)]
    have hne : text ++ rest ≠ [] := by
      rw [htext]
      exact List.append_ne_nil_of_left_ne_nil (vliText_ne_nil value) _
    have htotal : (text ++ rest) ++ [] = vliText value ++ rest := by simp [htext]
    rw [if_neg hne]
    obtain ⟨left, hdone, hleft⟩ | ⟨next, still, -, hnext, hlater, -⟩ :=
      (awaits_vliText value).loop hvalue htotal
    · rw [List.append_nil] at hleft
      rw [hdone, hleft, hpos, Nat.zero_add]
    · obtain ⟨last, -, rfl, -⟩ := hnext
      exact absurd (List.append_eq_nil_iff.mp hlater.symm).1 (vliText_ne_nil last)

end Dht
