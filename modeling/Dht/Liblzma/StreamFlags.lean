/-
# Stream Header and Stream Footer

A stream starts with twelve bytes that name the check of its blocks and ends with twelve
bytes that repeat this and give the size of the index. Both have magic bytes and a CRC32.

Each decoder accepts exactly what its encoder writes, so that no two headers mean the same.
-/

import Dht.Compression.Lzma
import Dht.Lib.Buffer
import Dht.Liblzma.Crc

namespace Dht

/-- `LZMA_VLI_UNKNOWN`. -/
def vliUnknown : ℕ := 2 ^ 64 - 1

/-- `LZMA_CHECK_ID_MAX`. -/
def checkIdMax : ℕ := 15

/-- `LZMA_STREAM_HEADER_SIZE`. -/
def streamHeaderSize : ℕ := 12

/-- `lzma_stream_flags`. -/
structure StreamFlags where
  version : ℕ
  backwardSize : ℕ
  check : ℕ
  deriving DecidableEq

/-- `lzma_header_magic`. -/
def headerMagic : Bytes := [0xFD, 0x37, 0x7A, 0x58, 0x5A, 0x00]

/-- `lzma_footer_magic`. -/
def footerMagic : Bytes := [0x59, 0x5A]

/-- `lzma_crc32`, by `lzmaCrc32` or by `crcSmall`. -/
def crc32 (buf : Bytes) (crc : BitVec 32) : BitVec 32 := crcSmall poly32 buf crc

namespace StreamFlags

/-- `is_backward_size_valid`. -/
def isBackwardSizeValid (options : StreamFlags) : Bool :=
  4 ≤ options.backwardSize ∧ options.backwardSize ≤ 2 ^ 34 ∧ options.backwardSize &&& 3 = 0

/-- `stream_flags_encode`. -/
def flagsEncode (options : StreamFlags) : Option Bytes :=
  if checkIdMax < options.check then none else some [0, UInt8.ofNat options.check]

/-- `lzma_stream_header_encode`. -/
def headerEncode (options : StreamFlags) : Except LzmaRet Bytes :=
  if options.version ≠ 0 then .error .optionsError
  else
    match options.flagsEncode with
    | none => .error .progError
    | some flags => .ok (headerMagic ++ flags ++ write32le (crc32 flags 0))

/-- `lzma_stream_footer_encode`. -/
def footerEncode (options : StreamFlags) : Except LzmaRet Bytes :=
  if options.version ≠ 0 then .error .optionsError
  else if options.isBackwardSizeValid then
    let size := write32le (BitVec.ofNat 32 (options.backwardSize / 4 - 1))
    match options.flagsEncode with
    | none => .error .progError
    | some flags => .ok (write32le (crc32 (size ++ flags) 0) ++ size ++ flags ++ footerMagic)
  else .error .progError

/-- `stream_flags_decode`: the check. -/
def flagsDecode (input : Bytes) : Option ℕ :=
  match input with
  | [reserved, check] =>
      if reserved ≠ 0 ∨ check.toNat &&& 0xF0 ≠ 0 then none else some (check.toNat &&& 0x0F)
  | _ => none

/-- `lzma_stream_header_decode` of a buffer of twelve bytes. -/
def headerDecode (input : Bytes) : Except LzmaRet StreamFlags :=
  let flags := Buffer.slice input 6 2
  if input.take 6 ≠ headerMagic then .error .formatError
  else if crc32 flags 0 ≠ crcWord (Buffer.slice input 8 4) then .error .dataError
  else
    match flagsDecode flags with
    | none => .error .optionsError
    | some check => .ok ⟨0, vliUnknown, check⟩

/-- `lzma_stream_footer_decode` of a buffer of twelve bytes. -/
def footerDecode (input : Bytes) : Except LzmaRet StreamFlags :=
  if Buffer.slice input 10 2 ≠ footerMagic then .error .formatError
  else if crc32 (Buffer.slice input 4 6) 0 ≠ crcWord (input.take 4) then .error .dataError
  else
    match flagsDecode (Buffer.slice input 8 2) with
    | none => .error .optionsError
    | some check => .ok ⟨0, ((crcWord (Buffer.slice input 4 4)).toNat + 1) * 4, check⟩

/-- `lzma_stream_flags_compare`. -/
def compare (a b : StreamFlags) : LzmaRet :=
  if a.version ≠ 0 ∨ b.version ≠ 0 then .optionsError
  else if checkIdMax < a.check ∨ checkIdMax < b.check then .progError
  else if a.check ≠ b.check then .dataError
  else if a.backwardSize ≠ vliUnknown ∧ b.backwardSize ≠ vliUnknown then
    if ¬ (a.isBackwardSizeValid ∧ b.isBackwardSizeValid) then .progError
    else if a.backwardSize ≠ b.backwardSize then .dataError
    else .ok
  else .ok

/-! ## The flags -/

section Flags

/-- The bits of a byte that names a check. -/
theorem check_bits (check : UInt8) :
    (check.toNat &&& 0xF0 = 0 ↔ check.toNat ≤ checkIdMax) ∧
      (check.toNat ≤ checkIdMax → check.toNat &&& 0x0F = check.toNat) := by
  have hbytes : ∀ number : Fin 256, (number.val &&& 0xF0 = 0 ↔ number.val ≤ 15) ∧
      (number.val ≤ 15 → number.val &&& 0x0F = number.val) := by
    decide +kernel
  exact hbytes ⟨check.toNat, check.toNat_lt⟩

theorem length_flagsEncode {options : StreamFlags} {flags : Bytes}
    (hflags : options.flagsEncode = some flags) : flags.length = 2 := by
  rw [flagsEncode] at hflags
  split at hflags
  · cases hflags
  · cases hflags
    rfl

/-- What is accepted is what is written. -/
theorem flagsDecode_eq_some_iff {input : Bytes} {options : StreamFlags} :
    flagsDecode input = some options.check ↔ options.flagsEncode = some input := by
  rw [flagsEncode]
  constructor
  · intro hdecode
    match input, hdecode with
    | [reserved, check], hdecode =>
        obtain ⟨hhigh, hlow⟩ := check_bits check
        rw [flagsDecode] at hdecode
        split at hdecode
        · cases hdecode
        · rename_i hvalid
          rw [not_or, not_not, not_not] at hvalid
          have hle := hhigh.mp hvalid.2
          rw [hlow hle, Option.some_inj] at hdecode
          rw [if_neg (by omega), hvalid.1, ← hdecode]
          simp
  · intro hencode
    split at hencode
    · cases hencode
    · rename_i hle
      rw [checkIdMax, Nat.not_lt] at hle
      cases hencode
      have hcheck : (UInt8.ofNat options.check).toNat = options.check := by
        simp
        omega
      obtain ⟨hhigh, hlow⟩ := check_bits (UInt8.ofNat options.check)
      rw [hcheck] at hhigh hlow
      rw [flagsDecode, hcheck, hhigh.mpr hle, hlow hle]
      simp

end Flags

/-! ## Header and footer -/

section Fields

variable {options : StreamFlags} {magic flags field size input : Bytes}

/-- What both decoders check, in the order in which they check it. -/
theorem accepts_iff {expected covered : Bytes} {backwardSize : ℕ} (hfield : field.length = 4) :
    (if magic ≠ expected then .error .formatError
      else if crc32 covered 0 ≠ crcWord field then .error .dataError
      else
        match flagsDecode flags with
        | none => .error .optionsError
        | some check => .ok ⟨0, backwardSize, check⟩ : Except LzmaRet StreamFlags) =
          .ok options ↔
      magic = expected ∧ field = write32le (crc32 covered 0) ∧
        flagsDecode flags = some options.check ∧ options.version = 0 ∧
        options.backwardSize = backwardSize := by
  by_cases hwrong : magic = expected
  · rw [if_neg (not_not.mpr hwrong)]
    by_cases hvalid : crc32 covered 0 = crcWord field
    · rw [if_neg (not_not.mpr hvalid), hvalid, write32le_crcWord hfield]
      cases hdecode : flagsDecode flags with
      | none => simp
      | some check =>
          cases options with
          | mk version size other => simp [hwrong]; tauto
    · rw [if_pos hvalid]
      constructor
      · intro habsurd
        cases habsurd
      · rintro ⟨-, rfl, -⟩
        rw [crcWord_write32le] at hvalid
        exact absurd rfl hvalid
  · rw [if_pos hwrong]
    simp [hwrong]

/-- A header in its parts. -/
theorem headerDecode_parts (hmagic : magic.length = 6) (hflags : flags.length = 2)
    (hfield : field.length = 4) :
    headerDecode (magic ++ (flags ++ field)) = .ok options ↔
      magic = headerMagic ∧ field = write32le (crc32 flags 0) ∧
        flagsDecode flags = some options.check ∧ options.version = 0 ∧
        options.backwardSize = vliUnknown := by
  have htake : (magic ++ (flags ++ field)).take 6 = magic := List.take_left' hmagic
  have hslice : Buffer.slice (magic ++ (flags ++ field)) 6 2 = flags :=
    Buffer.slice_middle hmagic hflags _
  have hcrc : Buffer.slice (magic ++ (flags ++ field)) 8 4 = field := by
    have hfront : (magic ++ flags).length = 8 := by rw [List.length_append, hmagic, hflags]
    have hmiddle := Buffer.slice_middle hfront hfield []
    rwa [List.append_nil, List.append_assoc] at hmiddle
  rw [headerDecode, htake, hslice, hcrc]
  exact accepts_iff hfield

/-- The header is decoded exactly if it is what the encoder writes. -/
theorem headerDecode_eq_ok_iff (hlength : input.length = streamHeaderSize) :
    headerDecode input = .ok options ↔
      options.headerEncode = .ok input ∧ options.backwardSize = vliUnknown := by
  rw [streamHeaderSize] at hlength
  obtain ⟨magic, flags, field, rfl, hmagic, hflags, hfield⟩ :
      ∃ magic flags field : Bytes, input = magic ++ (flags ++ field) ∧ magic.length = 6 ∧
        flags.length = 2 ∧ field.length = 4 := by
    refine ⟨input.take 6, Buffer.slice input 6 2, input.drop 8, ?_, ?_, ?_, ?_⟩
    · rw [Buffer.slice_append_drop, List.take_append_drop]
    · rw [List.length_take, hlength]
      rfl
    · rw [Buffer.slice, List.length_take, List.length_drop, hlength]
      rfl
    · rw [List.length_drop, hlength]
  rw [headerDecode_parts hmagic hflags hfield, flagsDecode_eq_some_iff, headerEncode]
  constructor
  · rintro ⟨rfl, rfl, hencode, hversion, hbackward⟩
    rw [hversion, if_neg (not_not.mpr rfl), hencode]
    exact ⟨congrArg Except.ok (List.append_assoc _ _ _), hbackward⟩
  · rintro ⟨hencode, hbackward⟩
    by_cases hversion : options.version = 0
    · rw [if_neg (not_not.mpr hversion)] at hencode
      cases hwritten : options.flagsEncode with
      | none =>
          rw [hwritten] at hencode
          cases hencode
      | some written =>
          rw [hwritten] at hencode
          injection hencode with hbytes
          rw [List.append_assoc] at hbytes
          obtain ⟨hfirst, hrest⟩ := List.append_inj hbytes hmagic.symm
          obtain ⟨hsecond, hthird⟩ :=
            List.append_inj hrest ((length_flagsEncode hwritten).trans hflags.symm)
          subst hsecond
          exact ⟨hfirst.symm, hthird.symm, rfl, hversion, hbackward⟩
    · rw [if_pos hversion] at hencode
      cases hencode

/-- The size of the index is a multiple of four, and what is stored is its quotient less one. -/
theorem isBackwardSizeValid_iff (options : StreamFlags) :
    options.isBackwardSizeValid ↔
      options.backwardSize =
        ((BitVec.ofNat 32 (options.backwardSize / 4 - 1)).toNat + 1) * 4 := by
  have hmod : options.backwardSize &&& 3 = options.backwardSize % 4 :=
    Nat.and_two_pow_sub_one_eq_mod _ 2
  rw [isBackwardSizeValid, decide_eq_true_iff, hmod, BitVec.toNat_ofNat]
  omega

theorem footerDecode_parts (hfield : field.length = 4) (hsize : size.length = 4)
    (hflags : flags.length = 2) (hmagic : magic.length = 2) :
    footerDecode (field ++ (size ++ (flags ++ magic))) = .ok options ↔
      magic = footerMagic ∧ field = write32le (crc32 (size ++ flags) 0) ∧
        flagsDecode flags = some options.check ∧ options.version = 0 ∧
        options.backwardSize = ((crcWord size).toNat + 1) * 4 := by
  have hfront : (field ++ size).length = 8 := by rw [List.length_append, hfield, hsize]
  have hcovered : (size ++ flags).length = 6 := by rw [List.length_append, hsize, hflags]
  have hbefore : (field ++ (size ++ flags)).length = 10 := by
    rw [List.length_append, hfield, hcovered]
  have htake : (field ++ (size ++ (flags ++ magic))).take 4 = field := List.take_left' hfield
  have hsliceSize : Buffer.slice (field ++ (size ++ (flags ++ magic))) 4 4 = size :=
    Buffer.slice_middle hfield hsize _
  have hsliceCovered : Buffer.slice (field ++ (size ++ (flags ++ magic))) 4 6 = size ++ flags := by
    rw [← List.append_assoc size]
    exact Buffer.slice_middle hfield hcovered _
  have hsliceFlags : Buffer.slice (field ++ (size ++ (flags ++ magic))) 8 2 = flags := by
    rw [← List.append_assoc field]
    exact Buffer.slice_middle hfront hflags _
  have hsliceMagic : Buffer.slice (field ++ (size ++ (flags ++ magic))) 10 2 = magic := by
    have hmiddle := Buffer.slice_middle hbefore hmagic []
    rwa [List.append_nil, List.append_assoc, List.append_assoc] at hmiddle
  rw [footerDecode, htake, hsliceSize, hsliceCovered, hsliceFlags, hsliceMagic]
  exact accepts_iff hfield

/-- The footer is decoded exactly if it is what the encoder writes. -/
theorem footerDecode_eq_ok_iff (hlength : input.length = streamHeaderSize) :
    footerDecode input = .ok options ↔ options.footerEncode = .ok input := by
  rw [streamHeaderSize] at hlength
  obtain ⟨field, size, flags, magic, rfl, hfield, hsize, hflags, hmagic⟩ :
      ∃ field size flags magic : Bytes, input = field ++ (size ++ (flags ++ magic)) ∧
        field.length = 4 ∧ size.length = 4 ∧ flags.length = 2 ∧ magic.length = 2 := by
    refine ⟨input.take 4, Buffer.slice input 4 4, Buffer.slice input 8 2, input.drop 10, ?_, ?_⟩
    · rw [Buffer.slice_append_drop, Buffer.slice_append_drop, List.take_append_drop]
    · simp [Buffer.slice, hlength]
  rw [footerDecode_parts hfield hsize hflags hmagic, flagsDecode_eq_some_iff, footerEncode]
  constructor
  · rintro ⟨rfl, rfl, hencode, hversion, hbackward⟩
    have hstored : BitVec.ofNat 32 (options.backwardSize / 4 - 1) = crcWord size := by
      rw [hbackward, Nat.mul_div_cancel _ (by decide), Nat.add_sub_cancel]
      exact BitVec.ofNat_toNat 32 _
    have hvalid : options.isBackwardSizeValid = true := by
      rw [isBackwardSizeValid_iff, hstored]
      exact hbackward
    rw [if_neg (not_not.mpr hversion), if_pos hvalid, hencode, hstored, write32le_crcWord hsize]
    simp
  · intro hencode
    by_cases hversion : options.version = 0
    · rw [if_neg (not_not.mpr hversion)] at hencode
      by_cases hvalid : options.isBackwardSizeValid = true
      · rw [if_pos hvalid] at hencode
        cases hwritten : options.flagsEncode with
        | none =>
            rw [hwritten] at hencode
            cases hencode
        | some written =>
            rw [hwritten] at hencode
            injection hencode with hbytes
            rw [List.append_assoc, List.append_assoc] at hbytes
            obtain ⟨hfirst, hrest⟩ := List.append_inj hbytes hfield.symm
            obtain ⟨hsecond, hlater⟩ := List.append_inj hrest hsize.symm
            obtain ⟨hthird, hfourth⟩ :=
              List.append_inj hlater ((length_flagsEncode hwritten).trans hflags.symm)
            subst hthird hsecond
            refine ⟨hfourth.symm, hfirst.symm, rfl, hversion, ?_⟩
            rw [crcWord_write32le]
            exact (isBackwardSizeValid_iff options).mp hvalid
      · rw [if_neg hvalid] at hencode
        cases hencode
    · rw [if_pos hversion] at hencode
      cases hencode

/-- What the encoder writes names a check that exists. -/
theorem check_le {encoded : Bytes} (hflags : options.flagsEncode = some encoded) :
    options.check ≤ checkIdMax := by
  rw [flagsEncode] at hflags
  split at hflags
  · cases hflags
  · rename_i hle
    exact Nat.not_lt.mp hle

/-- A header and a footer are compared by their checks only, since the header does not know
the size of the index. -/
theorem compare_of_header {header footer : StreamFlags} {headerFlags footerFlags : Bytes}
    (hheader : header.flagsEncode = some headerFlags)
    (hfooter : footer.flagsEncode = some footerFlags) (hversion : header.version = 0)
    (hother : footer.version = 0) (hunknown : header.backwardSize = vliUnknown) :
    header.compare footer = if header.check = footer.check then .ok else .dataError := by
  have hheaderLe := check_le hheader
  have hfooterLe := check_le hfooter
  rw [compare, if_neg (by simp [hversion, hother]), if_neg (by omega), hunknown]
  by_cases hsame : header.check = footer.check
  · simp [hsame]
  · simp [hsame]

/-- **Headers and footers are canonical.** Of all buffers each decoder accepts exactly those
that its encoder writes, and gives back what was encoded. -/
theorem decode_iff_encode (hlength : input.length = streamHeaderSize) :
    (headerDecode input = .ok options ↔
      options.headerEncode = .ok input ∧ options.backwardSize = vliUnknown) ∧
    (footerDecode input = .ok options ↔ options.footerEncode = .ok input) :=
  ⟨headerDecode_eq_ok_iff hlength, footerDecode_eq_ok_iff hlength⟩

/-- The header of a stream whose blocks have a CRC64, and the footer behind an index of
eight bytes. -/
theorem decode_iff_encode_crc64 :
    headerDecode [253, 55, 122, 88, 90, 0, 0, 4, 230, 214, 180, 70] = .ok ⟨0, vliUnknown, 4⟩ ∧
      footerDecode [31, 182, 243, 125, 1, 0, 0, 0, 0, 4, 89, 90] = .ok ⟨0, 8, 4⟩ :=
  ⟨(decode_iff_encode rfl).1.mpr ⟨by decide +kernel, rfl⟩,
    (decode_iff_encode rfl).2.mpr (by decide +kernel)⟩

end Fields

end StreamFlags

end Dht
