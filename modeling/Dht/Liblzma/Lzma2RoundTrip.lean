/-
# What the LZMA2 encoder writes, the LZMA2 decoder reads

The encoder asks in the header of a chunk for the resets that what came before makes
necessary, and so that the decoder is in the state the encoder was in when it started the
chunk. Both keep flags for this purpose. They need not be equal, since the options of the
encoder may change between two chunks, but have to agree as `InStep` says.

`Awaits` follows a stream of chunks through the decoder, byte by byte in a header and by
the round trip of the LZMA coder inside a chunk.
-/

import Dht.Liblzma.LzDecoder
import Dht.Liblzma.Lzma2Encoder
import Dht.Liblzma.LzmaRoundTrip

namespace Dht

/-! ## What the decoder has still to do -/

/-- The decoder has to read a stream of chunks, or the rest of one, and to write the
data. -/
inductive Lzma2Decoder.Awaits (window : ℕ) : Lzma2Decoder → Bytes → Bytes → Bytes → Prop
  | ends {coder : Lzma2Decoder} {history : Bytes} (hat : coder.sequence = .control) :
      Awaits window coder history [] [0]
  | header {coder next : Lzma2Decoder} {history data stream : Bytes} {byte : UInt8}
      (hat : ¬(coder.sequence = .lzma ∨ coder.sequence = .copy))
      (hheader : coder.header byte = .next next) (hnext : Awaits window next history data stream) :
      Awaits window coder history data (byte :: stream)
  | dictReset {coder next : Lzma2Decoder} {history data stream : Bytes} {byte : UInt8}
      (hat : ¬(coder.sequence = .lzma ∨ coder.sequence = .copy))
      (hheader : coder.header byte = .dictReset next) (hnext : Awaits window next [] data stream) :
      Awaits window coder history data (byte :: stream)
  | lzma {coder : Lzma2Decoder} {history front text back stream : Bytes} {final : LzmaEncoder}
      (hat : coder.sequence = .lzma) (hsize : coder.compressedSize = text.length)
      (hlzma : coder.lzma.Awaits window history front text final)
      (hrest : Awaits window { coder with
        sequence := .control
        compressedSize := 0
        lzma := ⟨⟨.reset, final.probs⟩, final.model, coder.lzma.props, some 0, .isMatch⟩ }
        (front.reverse ++ history) back stream) :
      Awaits window coder history (front ++ back) (text ++ stream)
  | copy {coder : Lzma2Decoder} {history bytes back stream : Bytes}
      (hat : coder.sequence = .copy) (hsize : coder.compressedSize = bytes.length)
      (hbytes : bytes ≠ [])
      (hrest : Awaits window { coder with sequence := .control, compressedSize := 0 }
        (bytes.reverse ++ history) back stream) :
      Awaits window coder history (bytes ++ back) (bytes ++ stream)

/-- A decoder and an encoder between the same two chunks. -/
structure InStep (encoder : Lzma2Encoder) (decoder : Lzma2Decoder) : Prop where
  sequence : decoder.sequence = .control
  rc : encoder.lzma.rc = rcReset
  properties : decoder.needProperties = true → encoder.needProperties = true
  dictionary : decoder.needDictionaryReset = encoder.needDictionaryReset
  both : encoder.needDictionaryReset = true → encoder.needProperties = true
  fresh : encoder.needProperties = true → encoder.needStateReset = false →
    encoder.lzma = .reset
  props : encoder.needProperties = false →
    decoder.props = encoder.props ∧ decoder.lzma.props = encoder.props ∧
      decoder.lzma.sequence = .isMatch
  state : encoder.needProperties = false → encoder.needStateReset = false →
    decoder.lzma.reader = ⟨.reset, encoder.lzma.probs⟩ ∧
      decoder.lzma.model = encoder.lzma.model

/-! ## Headers -/

section Header

variable {window : ℕ} {coder : Lzma2Decoder} {history data stream : Bytes}

/-- A number below `2 ^ 16` is the two bytes of a header. -/
theorem twoBytes_eq (size : ℕ) (hsize : size < 2 ^ 16) :
    (UInt8.ofNat (size >>> 8)).toNat <<< 8 + (UInt8.ofNat (size &&& 0xFF)).toNat = size := by
  have hhigh : size >>> 8 = size / 256 := Nat.shiftRight_eq_div_pow size 8
  have hlow : size &&& 0xFF = size % 256 := Nat.and_two_pow_sub_one_eq_mod size 8
  rw [hhigh, hlow, UInt8.toNat_ofNat', UInt8.toNat_ofNat', Nat.shiftLeft_eq]
  omega

/-- The two bytes of the size of a chunk as it is stored. -/
theorem awaits_compressedSize (hat : coder.sequence = .compressed0) {size : ℕ} (hpos : 0 < size)
    (hsize : size ≤ 2 ^ 16)
    (hnext : Lzma2Decoder.Awaits window
      { coder with compressedSize := size, sequence := coder.nextSequence } history data stream) :
    coder.Awaits window history data (UInt8.ofNat ((size - 1) >>> 8) ::
      UInt8.ofNat ((size - 1) &&& 0xFF) :: stream) := by
  obtain ⟨sequence, nextSequence, lzma, uncompressed, compressed, properties, dictionary, props⟩ :=
    coder
  subst hat
  have hbytes := twoBytes_eq (size - 1) (by omega)
  refine .header (by simp) rfl (.header (by simp) rfl ?_)
  dsimp only
  rw [← Nat.add_assoc, hbytes, Nat.sub_add_cancel hpos]
  exact hnext

/-- The two bytes that complete the size of an LZMA chunk. -/
theorem awaits_uncompressedSize (hat : coder.sequence = .uncompressed1) {size : ℕ}
    (hpos : 0 < size) (hhigh : coder.uncompressedSize = (size - 1) >>> 16 <<< 16)
    (hnext : Lzma2Decoder.Awaits window
      { coder with
        uncompressedSize := size
        lzma := coder.lzma.setUncompressed (some size)
        sequence := .compressed0 } history data stream) :
    coder.Awaits window history data (UInt8.ofNat ((size - 1) >>> 8 &&& 0xFF) ::
      UInt8.ofNat ((size - 1) &&& 0xFF) :: stream) := by
  obtain ⟨sequence, nextSequence, lzma, uncompressed, compressed, properties, dictionary, props⟩ :=
    coder
  subst hat
  have hbytes : uncompressed + (UInt8.ofNat ((size - 1) >>> 8 &&& 0xFF)).toNat <<< 8 +
      ((UInt8.ofNat ((size - 1) &&& 0xFF)).toNat + 1) = size := by
    have hmiddle : (size - 1) >>> 8 &&& 0xFF = (size - 1) / 256 % 256 := by
      rw [Nat.shiftRight_eq_div_pow]
      exact Nat.and_two_pow_sub_one_eq_mod _ 8
    have hlow : (size - 1) &&& 0xFF = (size - 1) % 256 :=
      Nat.and_two_pow_sub_one_eq_mod _ 8
    change uncompressed = _ at hhigh
    rw [hhigh, hmiddle, hlow, UInt8.toNat_ofNat', UInt8.toNat_ofNat', Nat.shiftLeft_eq,
      Nat.shiftLeft_eq, Nat.shiftRight_eq_div_pow]
    omega
  refine .header (by simp) rfl (.header (by simp) rfl ?_)
  dsimp only
  rw [hbytes]
  exact hnext

/-- The first byte of an LZMA chunk: three bits of control and five of the size. -/
theorem controlByte_eq (control : ℕ) (hcontrol : control % 32 = 0) (hle : control ≤ 0xE0)
    {high : ℕ} (hhigh : high < 32) :
    (UInt8.ofNat (control + high)).toNat = control + high ∧
      (control + high) &&& 0x1F = high := by
  have hlow : (control + high) &&& 0x1F = (control + high) % 32 :=
    Nat.and_two_pow_sub_one_eq_mod _ 5
  rw [hlow, UInt8.toNat_ofNat']
  omega

variable {high : ℕ}

theorem header_newDictionary (hat : coder.sequence = .control) (hhigh : high < 32) :
    coder.header (UInt8.ofNat (0xE0 + high)) = .dictReset { coder with
      uncompressedSize := high <<< 16
      sequence := .uncompressed1
      needProperties := false
      nextSequence := .properties
      needDictionaryReset := false } := by
  obtain ⟨hbyte, hlow⟩ := controlByte_eq 0xE0 rfl le_rfl hhigh
  rw [Lzma2Decoder.header, hat]
  dsimp only
  rw [hbyte, Lzma2Decoder.control, if_neg (by omega), if_pos (.inl (by omega)),
    Lzma2Decoder.chunkControl, if_pos (by omega)]
  dsimp only
  rw [if_pos (by omega), Lzma2Decoder.endControl, if_pos rfl, hlow]

theorem header_newProperties (hat : coder.sequence = .control)
    (hdict : coder.needDictionaryReset = false) (hhigh : high < 32) :
    coder.header (UInt8.ofNat (0xC0 + high)) = .next { coder with
      uncompressedSize := high <<< 16
      sequence := .uncompressed1
      needProperties := false
      nextSequence := .properties } := by
  obtain ⟨hbyte, hlow⟩ := controlByte_eq 0xC0 rfl (by decide) hhigh
  rw [Lzma2Decoder.header, hat]
  dsimp only
  rw [hbyte, Lzma2Decoder.control, if_neg (by omega), if_neg (by omega),
    hdict, if_neg Bool.false_ne_true, Lzma2Decoder.chunkControl, if_pos (by omega)]
  dsimp only
  rw [if_pos (by omega), Lzma2Decoder.endControl, hdict, if_neg Bool.false_ne_true, hlow]

theorem header_oldProperties (hat : coder.sequence = .control)
    (hdict : coder.needDictionaryReset = false) (hprops : coder.needProperties = false)
    (reset : Bool) (hhigh : high < 32) :
    coder.header (UInt8.ofNat ((if reset then 0xA0 else 0x80) + high)) = .next { coder with
      uncompressedSize := high <<< 16
      sequence := .uncompressed1
      nextSequence := .lzma
      lzma := if reset then coder.lzma.reset coder.props else coder.lzma } := by
  have hcontrol : (if reset then 0xA0 else 0x80) % 32 = 0 ∧
      (if reset then 0xA0 else 0x80) ≤ 0xA0 ∧ 0x80 ≤ (if reset then 0xA0 else 0x80) := by
    cases reset with
    | false => decide
    | true => decide
  have hkind : 0xA0 ≤ (if reset then 0xA0 else 0x80) + high ↔ reset = true := by
    cases reset with
    | false =>
        have hbelow : ¬0xA0 ≤ 0x80 + high := by omega
        simp [hbelow]
    | true => simp
  obtain ⟨hbyte, hlow⟩ := controlByte_eq (if reset then 0xA0 else 0x80) hcontrol.1
    (by omega) hhigh
  rw [Lzma2Decoder.header, hat]
  dsimp only
  rw [hbyte, Lzma2Decoder.control, if_neg (by omega), if_neg (by omega),
    hdict, if_neg Bool.false_ne_true, Lzma2Decoder.chunkControl, if_pos (by omega)]
  dsimp only
  rw [if_neg (by omega), hprops, if_neg Bool.false_ne_true, Lzma2Decoder.endControl, hdict,
    if_neg Bool.false_ne_true, hlow]
  simp only [hkind]

theorem header_storedFirst (hat : coder.sequence = .control) :
    coder.header 1 = .dictReset { coder with
      sequence := .compressed0
      nextSequence := .copy
      needProperties := true
      needDictionaryReset := false } := by
  rw [Lzma2Decoder.header, hat]
  rfl

theorem header_stored (hat : coder.sequence = .control)
    (hdict : coder.needDictionaryReset = false) :
    coder.header 2 = .next { coder with sequence := .compressed0, nextSequence := .copy } := by
  obtain ⟨sequence, nextSequence, lzma, uncompressed, compressed, properties, dictionary, props⟩ :=
    coder
  subst hat hdict
  rfl

end Header

/-! ## Chunks -/

/-- A decoder that has read the header of an LZMA chunk is in the state in which the encoder
started the chunk. -/
structure AtLzma (encoder : Lzma2Encoder) (size compressed : ℕ) (decoder : Lzma2Decoder) :
    Prop where
  sequence : decoder.sequence = .lzma
  compressed : decoder.compressedSize = compressed
  properties : decoder.needProperties = false
  dictionary : decoder.needDictionaryReset = false
  props : decoder.props = encoder.props
  lzma : decoder.lzma = ⟨⟨.reset, encoder.chunkLzma.probs⟩, encoder.chunkLzma.model,
    encoder.props, some size, .isMatch⟩

/-- A decoder that has read the header of a stored chunk. -/
structure AtCopy (encoder : Lzma2Encoder) (decoder : Lzma2Decoder) (size : ℕ)
    (next : Lzma2Decoder) : Prop where
  sequence : next.sequence = .copy
  compressed : next.compressedSize = size
  properties : next.needProperties = true → encoder.needProperties = true
  dictionary : next.needDictionaryReset = false
  props : next.props = decoder.props
  lzma : next.lzma = decoder.lzma

section Chunk

variable {window : ℕ} {encoder : Lzma2Encoder} {decoder : Lzma2Decoder}
  {before history data stream : Bytes}

/-- The sizes of an LZMA chunk, and what follows them. -/
theorem awaits_sizes {size compressed : ℕ} (hpos : 0 < size) (hcompressed : 0 < compressed)
    (hle : compressed ≤ 2 ^ 16) (hat : decoder.sequence = .uncompressed1)
    (hhigh : decoder.uncompressedSize = (size - 1) >>> 16 <<< 16)
    (hnext : Lzma2Decoder.Awaits window
      { decoder with
        uncompressedSize := size
        lzma := decoder.lzma.setUncompressed (some size)
        compressedSize := compressed
        sequence := decoder.nextSequence } history data stream) :
    decoder.Awaits window history data (UInt8.ofNat ((size - 1) >>> 8 &&& 0xFF) ::
      UInt8.ofNat ((size - 1) &&& 0xFF) :: UInt8.ofNat ((compressed - 1) >>> 8) ::
      UInt8.ofNat ((compressed - 1) &&& 0xFF) :: stream) :=
  awaits_uncompressedSize hat hpos hhigh (awaits_compressedSize rfl hcompressed hle hnext)

/-- The properties, and the reset of the state that comes with them. -/
theorem awaits_properties (hat : decoder.sequence = .properties) (props : LzmaProps)
    (hnext : Lzma2Decoder.Awaits window
      { decoder with props := props, lzma := decoder.lzma.reset props, sequence := .lzma }
      history data stream) :
    decoder.Awaits window history data (lclppbEncode props :: stream) := by
  refine .header (by simp [hat]) ?_ hnext
  rw [Lzma2Decoder.header, hat, lclppbDecode_lclppbEncode]

/-- With new properties the encoder has reset its state too. -/
theorem InStep.chunkLzma_reset (hstep : InStep encoder decoder)
    (hprops : encoder.needProperties = true) : encoder.chunkLzma = .reset := by
  rw [Lzma2Encoder.chunkLzma]
  by_cases hstate : encoder.needStateReset
  · rw [if_pos hstate]
  · rw [if_neg hstate]
    exact hstep.fresh hprops (Bool.not_eq_true _ ▸ hstate)

/-- The header of an LZMA chunk brings the decoder into the state of the encoder. -/
theorem InStep.awaits_headerLzma (hstep : InStep encoder decoder)
    (hsame : encoder.needDictionaryReset = false → before = history)
    (hempty : encoder.needDictionaryReset = true → history = [])
    {size compressed : ℕ} (hpos : 0 < size) (hsize : size ≤ 2 ^ 21) (hcompressed : 0 < compressed)
    (hle : compressed ≤ 2 ^ 16)
    (hnext : ∀ ready, AtLzma encoder size compressed ready →
      ready.Awaits window history data stream) :
    decoder.Awaits window before data (encoder.headerLzma size compressed ++ stream) := by
  have hhigh : (size - 1) >>> 16 < 32 := by
    rw [Nat.shiftRight_eq_div_pow]
    omega
  rw [Lzma2Encoder.headerLzma]
  by_cases hprops : encoder.needProperties
  · have hreset := hstep.chunkLzma_reset hprops
    rw [if_pos hprops, if_pos hprops]
    by_cases hdict : encoder.needDictionaryReset
    · rw [if_pos hdict]
      have hheader := header_newDictionary hstep.sequence hhigh
      rw [hempty hdict] at hnext
      refine .dictReset (by simp [hstep.sequence]) hheader ?_
      refine awaits_sizes hpos hcompressed hle rfl rfl (awaits_properties rfl encoder.props ?_)
      exact hnext _ ⟨rfl, rfl, rfl, rfl, rfl, by rw [hreset]; rfl⟩
    · rw [if_neg hdict]
      have hnone : encoder.needDictionaryReset = false := Bool.not_eq_true _ ▸ hdict
      have hheader := header_newProperties hstep.sequence (hstep.dictionary.trans hnone) hhigh
      rw [hsame hnone]
      refine .header (by simp [hstep.sequence]) hheader ?_
      refine awaits_sizes hpos hcompressed hle rfl rfl (awaits_properties rfl encoder.props ?_)
      exact hnext _ ⟨rfl, rfl, rfl, hstep.dictionary.trans hnone, rfl, by rw [hreset]; rfl⟩
  · have hold : encoder.needProperties = false := Bool.not_eq_true _ ▸ hprops
    have hnone : encoder.needDictionaryReset = false := by
      by_contra hdict
      exact hprops (hstep.both (Bool.not_eq_false _ ▸ hdict))
    obtain ⟨hsameProps, hlzmaProps, hat⟩ := hstep.props hold
    have hkept : decoder.needProperties = false := by
      by_contra hneed
      exact hprops (hstep.properties (Bool.not_eq_false _ ▸ hneed))
    have hheader := header_oldProperties hstep.sequence (hstep.dictionary.trans hnone) hkept
      encoder.needStateReset hhigh
    rw [if_neg hprops, if_neg hprops, hsame hnone]
    refine .header (by simp [hstep.sequence]) hheader ?_
    refine awaits_sizes hpos hcompressed hle rfl rfl (hnext _ ⟨rfl, rfl, hkept,
      hstep.dictionary.trans hnone, hsameProps, ?_⟩)
    rw [Lzma2Encoder.chunkLzma]
    by_cases hstate : encoder.needStateReset
    · rw [if_pos hstate, if_pos hstate, hsameProps]
      rfl
    · rw [if_neg hstate, if_neg hstate]
      obtain ⟨hreader, hmodel⟩ := hstep.state hold (Bool.not_eq_true _ ▸ hstate)
      rw [LzmaDecoder.setUncompressed, hreader, hmodel, hlzmaProps, hat]

/-- The header of a stored chunk. -/
theorem InStep.awaits_headerUncompressed (hstep : InStep encoder decoder)
    (hsame : encoder.needDictionaryReset = false → before = history)
    (hempty : encoder.needDictionaryReset = true → history = [])
    {size : ℕ} (hpos : 0 < size) (hsize : size ≤ 2 ^ 16)
    (hnext : ∀ next, AtCopy encoder decoder size next →
      next.Awaits window history data stream) :
    decoder.Awaits window before data (encoder.headerUncompressed size ++ stream) := by
  rw [Lzma2Encoder.headerUncompressed]
  by_cases hdict : encoder.needDictionaryReset
  · rw [if_pos hdict]
    rw [hempty hdict] at hnext
    refine .dictReset (by simp [hstep.sequence]) (header_storedFirst hstep.sequence) ?_
    exact awaits_compressedSize rfl hpos hsize
      (hnext _ ⟨rfl, rfl, fun _ => hstep.both hdict, rfl, rfl, rfl⟩)
  · rw [if_neg hdict]
    have hnone : encoder.needDictionaryReset = false := Bool.not_eq_true _ ▸ hdict
    have hdecoder := hstep.dictionary.trans hnone
    rw [hsame hnone]
    refine .header (by simp [hstep.sequence]) (header_stored hstep.sequence hdecoder) ?_
    exact awaits_compressedSize rfl hpos hsize
      (hnext _ ⟨rfl, rfl, hstep.properties, hdecoder, rfl, rfl⟩)

/-- A chunk. -/
theorem InStep.awaits_chunk (hstep : InStep encoder decoder) {chunk : Lzma2Chunk}
    (hfits : encoder.ChunkFits window history chunk)
    (hsame : encoder.needDictionaryReset = false → before = history)
    (hempty : encoder.needDictionaryReset = true → history = [])
    (hrest : ∀ after, InStep (encoder.afterChunk history chunk) after →
      after.Awaits window ((encoder.consumed history chunk).reverse ++ history) data stream) :
    decoder.Awaits window before (encoder.consumed history chunk ++ data)
      (encoder.chunkBytes history chunk ++ stream) := by
  generalize hbits :
    chunkBits encoder.props encoder.chunkLzma.model history chunk.data chunk.choices = coded
  obtain ⟨bits, model⟩ := coded
  obtain ⟨hdata, hle, hcompressed⟩ := hfits.fits hstep.rc hbits
  have hout := congrArg Resumable.Written.out hcompressed
  have hstate := congrArg Resumable.Written.state hcompressed
  rw [Lzma2Encoder.consumed, Lzma2Encoder.chunkBytes]
  rw [Lzma2Encoder.afterChunk, Lzma2Encoder.consumed] at hrest
  by_cases hstores : encoder.stores history chunk
  · rw [if_pos hstores, if_pos hstores, List.append_assoc (encoder.headerUncompressed _)]
    rw [if_pos hstores, if_pos hstores] at hrest
    have hne : chunk.data ++ chunk.readAhead ≠ [] :=
      List.append_ne_nil_of_left_ne_nil hfits.nonempty _
    refine hstep.awaits_headerUncompressed hsame hempty (List.length_pos_iff.mpr hne)
      (hfits.stored_le hstores) ?_
    rintro next ⟨hat, hsize, hproperties, hdictionary, hprops, hlzma⟩
    refine .copy hat hsize hne (hrest _ ⟨rfl, ?_, hproperties, hdictionary, ?_, ?_, ?_, ?_⟩)
    · exact congrArg LzmaEncoder.rc hstate
    · exact fun hdict => by cases hdict
    · exact fun _ hreset => by cases hreset
    · dsimp only
      rw [hprops, hlzma]
      exact hstep.props
    · exact fun _ hreset => by cases hreset
  · rw [if_neg hstores, if_neg hstores, List.append_assoc (encoder.headerLzma _ _)]
    rw [if_neg hstores, if_neg hstores, hstate] at hrest
    have hpos : 0 < (encoder.compressed history chunk).out.length := by
      rw [hout, (encodeText_rcReset encoder.chunkLzma.probs bits).2]
      omega
    refine hstep.awaits_headerLzma hsame hempty (List.length_pos_iff.mpr hfits.nonempty)
      hdata hpos hle ?_
    rintro ready ⟨hat, hcompressed, hproperties, hdictionary, hprops, hlzma⟩
    have hawaits : ready.lzma.Awaits window history chunk.data
        (encoder.compressed history chunk).out
        ⟨rcReset, rcUpdates encoder.chunkLzma.probs bits, model⟩ := by
      rw [hout, hlzma]
      exact LzmaDecoder.awaits_chunk rfl rfl rfl hfits.parses hbits
    refine .lzma hat hcompressed hawaits (hrest _ ⟨rfl, rfl, ?_, hdictionary, ?_, ?_,
      fun _ => ⟨hprops, by rw [hlzma], rfl⟩, fun _ _ => ⟨rfl, rfl⟩⟩)
    · exact fun hneed => by
        rw [hproperties] at hneed
        cases hneed
    · exact fun hdict => by cases hdict
    · exact fun hnew => by cases hnew

/-- New options make the next LZMA chunk reset the state. -/
theorem InStep.optionsUpdate (hstep : InStep encoder decoder) (props : LzmaProps) :
    InStep (encoder.optionsUpdate props) decoder := by
  rw [Lzma2Encoder.optionsUpdate]
  by_cases hchanged : encoder.props ≠ props
  · rw [if_pos hchanged]
    refine ⟨hstep.sequence, hstep.rc, fun _ => rfl, hstep.dictionary, fun _ => rfl, ?_, ?_, ?_⟩
    · exact fun _ hkept => by cases hkept
    · exact fun hold => by cases hold
    · exact fun hold => by cases hold
  · rw [if_neg hchanged]
    exact hstep

/-- **What the encoder writes, the decoder awaits.** -/
theorem InStep.awaits (hstep : InStep encoder decoder) {actions : List Lzma2Action}
    (hfits : encoder.ChunksFit window history actions)
    (hsame : encoder.needDictionaryReset = false → before = history)
    (hempty : encoder.needDictionaryReset = true → history = []) :
    decoder.Awaits window before (encoder.lzma2Data history actions)
      (encoder.lzma2Encode history actions) := by
  induction actions generalizing encoder decoder before history with
  | nil => exact .ends hstep.sequence
  | cons action actions ih =>
      cases action with
      | options props =>
          have hdict : (encoder.optionsUpdate props).needDictionaryReset =
              encoder.needDictionaryReset := by
            rw [Lzma2Encoder.optionsUpdate]
            split
            · rfl
            · rfl
          exact ih (hstep.optionsUpdate props) hfits (fun hnone => hsame (hdict ▸ hnone))
            fun hneed => hempty (hdict ▸ hneed)
      | encode chunk =>
          obtain ⟨hchunk, hchunks⟩ := hfits
          have hlater : (encoder.afterChunk history chunk).needDictionaryReset = false := by
            rw [Lzma2Encoder.afterChunk]
            split
            · rfl
            · rfl
          refine hstep.awaits_chunk hchunk hsame hempty fun after hafter => ?_
          exact ih hafter hchunks (fun _ => rfl) fun hdict => by
            rw [hlater] at hdict
            cases hdict

/-- An encoder and a decoder that have just been created. -/
theorem inStep_init (props : LzmaProps) (garbage : Lzma2Decoder) :
    InStep (.init props) garbage.init :=
  ⟨rfl, rfl, fun _ => rfl, rfl, fun _ => rfl, fun _ _ => rfl, fun hnone => (by cases hnone),
    fun hnone => (by cases hnone)⟩

end Chunk

/-! ## The loop -/

/-- Nothing ends without the end marker. -/
theorem Lzma2Decoder.Awaits.stream_ne_nil {window : ℕ} {coder : Lzma2Decoder}
    {history data stream : Bytes} (hawaits : coder.Awaits window history data stream) :
    stream ≠ [] := by
  induction hawaits with
  | ends hat => exact List.cons_ne_nil _ _
  | header hat hheader hnext ih => exact List.cons_ne_nil _ _
  | dictReset hat hheader hnext ih => exact List.cons_ne_nil _ _
  | lzma hat hsize hlzma hrest ih => exact List.append_ne_nil_of_right_ne_nil _ ih
  | copy hat hsize hbytes hrest ih => exact List.append_ne_nil_of_right_ne_nil _ ih

namespace Lzma2Loop

/-- A loop whose input, with what comes `later`, is what the decoder has to read, and `more`
behind it. -/
structure Decodes (window : ℕ) (loop : Lzma2Loop) (history data later more : Bytes) : Prop where
  safe : loop.Safe history
  window_le : window ≤ loop.dict.size
  aligned : 16 ∣ loop.dict.size
  awaits : ∃ stream, loop.coder.Awaits window history data stream ∧
    loop.input ++ later = stream ++ more

/-- What a turn may do with a stream: go on, stop because the input is used up or the
dictionary has no room left, ask for a reset of the dictionary, or come to the end. -/
inductive Progresses (window : ℕ) (loop : Lzma2Loop) (history data later more : Bytes) :
    Lzma2Loop ⊕ LzmaRet × Lzma2Loop → Prop
  | next {next : Lzma2Loop} (bytes rest : Bytes) (hdata : data = bytes ++ rest)
      (hdecodes : next.Decodes window (bytes.reverse ++ history) rest later more)
      (hextends : loop.Extends next bytes.reverse) (hvariant : next.variant < loop.variant) :
      Progresses window loop history data later more (.inl next)
  | pause {next : Lzma2Loop} (bytes rest : Bytes) (hdata : data = bytes ++ rest)
      (hdecodes : next.Decodes window (bytes.reverse ++ history) rest later more)
      (hextends : loop.Extends next bytes.reverse)
      (hwhy : next.input = [] ∨ next.dict.pos = next.dict.limit ∧ rest ≠ []) :
      Progresses window loop history data later more (.inr (.ok, next))
  | dictReset {next : Lzma2Loop} (bytes rest : Bytes) {stream : Bytes}
      (hdata : data = bytes ++ rest) (hdict : next.dict.Safe (bytes.reverse ++ history))
      (hneed : next.dict.needReset = true) (hresets : next.coder.Resets)
      (hextends : loop.Extends next bytes.reverse)
      (hinput : next.input.length < loop.input.length)
      (hawaits : next.coder.Awaits window [] rest stream)
      (htotal : next.input ++ later = stream ++ more) :
      Progresses window loop history data later more (.inr (.ok, next))
  | finished {next : Lzma2Loop} (hsafe : next.Safe (data.reverse ++ history))
      (hextends : loop.Extends next data.reverse) (hinput : next.input ++ later = more) :
      Progresses window loop history data later more (.inr (.streamEnd, next))

section Turn

variable {window : ℕ} {loop next : Lzma2Loop} {history data bytes rest stream later more : Bytes}

/-- How many bytes a turn has written is all that it says of them. -/
theorem extends_of_length {written : Bytes} (hextends : loop.Extends next written)
    (hpos : next.dict.pos = loop.dict.pos + bytes.length) :
    loop.Extends next bytes.reverse :=
  ⟨by rw [hpos, List.length_reverse], hextends.limit, hextends.size, hextends.input⟩

/-- A turn that goes on. -/
theorem Decodes.goesOn (hdecodes : loop.Decodes window history data later more)
    (hsteps : loop.Steps history (.inl next)) (bytes : Bytes) (hdata : data = bytes ++ rest)
    (hdict : next.dict.Safe (bytes.reverse ++ history))
    (hpos : next.dict.pos = loop.dict.pos + bytes.length)
    (hawaits : next.coder.Awaits window (bytes.reverse ++ history) rest stream)
    (htotal : next.input ++ later = stream ++ more) :
    loop.Progresses window history data later more (.inl next) := by
  obtain ⟨written, hsafe, hextends, hvariant⟩ := hsteps
  refine .next bytes rest hdata ⟨⟨hdict, hsafe.valid, hsafe.needReset⟩, ?_, ?_, stream, hawaits,
    htotal⟩ (extends_of_length hextends hpos) hvariant
  · rw [hextends.size]
    exact hdecodes.window_le
  · rw [hextends.size]
    exact hdecodes.aligned

/-- A turn that leaves the loop. -/
theorem Decodes.stops (hdecodes : loop.Decodes window history data later more)
    (hsteps : loop.Steps history (.inr (.ok, next))) (hneed : next.dict.needReset = false)
    (bytes : Bytes) (hdata : data = bytes ++ rest)
    (hdict : next.dict.Safe (bytes.reverse ++ history))
    (hpos : next.dict.pos = loop.dict.pos + bytes.length)
    (hawaits : next.coder.Awaits window (bytes.reverse ++ history) rest stream)
    (htotal : next.input ++ later = stream ++ more)
    (hwhy : next.input = [] ∨ next.dict.pos = next.dict.limit ∧ rest ≠ []) :
    loop.Progresses window history data later more (.inr (.ok, next)) := by
  cases hsteps with
  | pause written hret hsafe hextends =>
      refine .pause bytes rest hdata ⟨⟨hdict, hsafe.valid, hneed⟩, ?_, ?_, stream, hawaits,
        htotal⟩ (extends_of_length hextends hpos) hwhy
      · rw [hextends.size]
        exact hdecodes.window_le
      · rw [hextends.size]
        exact hdecodes.aligned
  | dictReset written hsafe hreset hresets hextends hinput =>
      rw [hneed] at hreset
      cases hreset
  | error written hret hsafe hnone hextends => exact absurd rfl hret.1

/-- A byte of a header. -/
theorem Decodes.decodeHeader (hdecodes : loop.Decodes window history data later more)
    {byte : UInt8} {tail : Bytes} (hinput : loop.input = byte :: tail)
    (hat : ¬(loop.coder.sequence = .lzma ∨ loop.coder.sequence = .copy)) {coder : Lzma2Decoder}
    (hheader : loop.coder.header byte = .next coder)
    (hnext : coder.Awaits window history data stream) (htotal : tail ++ later = stream ++ more) :
    loop.Progresses window history data later more (loop.decodeHeader byte tail) := by
  have hsteps := steps_decodeHeader hdecodes.safe hinput hat
  rw [Lzma2Loop.decodeHeader, hheader] at hsteps ⊢
  exact hdecodes.goesOn hsteps [] rfl hdecodes.safe.dict rfl hnext htotal

theorem Decodes.decodeDictReset (hdecodes : loop.Decodes window history data later more)
    {byte : UInt8} {tail : Bytes} (hinput : loop.input = byte :: tail)
    (hat : ¬(loop.coder.sequence = .lzma ∨ loop.coder.sequence = .copy)) {coder : Lzma2Decoder}
    (hheader : loop.coder.header byte = .dictReset coder)
    (hnext : coder.Awaits window [] data stream) (htotal : tail ++ later = stream ++ more) :
    loop.Progresses window history data later more (loop.decodeHeader byte tail) := by
  have hsteps := steps_decodeHeader hdecodes.safe hinput hat
  rw [Lzma2Loop.decodeHeader, hheader] at hsteps ⊢
  cases hsteps with
  | pause written hret hsafe hextends => cases hsafe.needReset
  | dictReset written hdict hneed hresets hextends hshorter =>
      have hpos : loop.dict.pos = loop.dict.pos + written.length := hextends.pos
      have hnone : written = [] := List.eq_nil_of_length_eq_zero (by omega)
      subst hnone
      exact .dictReset [] data rfl hdict rfl hresets hextends hshorter hnext htotal
  | error written hret hdict hneed hextends => exact absurd rfl hret.1

/-- `SEQ_LZMA`. -/
theorem Decodes.decodeLzma {front text back : Bytes} {final : LzmaEncoder}
    (hdecodes : loop.Decodes window history (front ++ back) later more)
    (hat : loop.coder.sequence = .lzma) (hsize : loop.coder.compressedSize = text.length)
    (hlzma : loop.coder.lzma.Awaits window history front text final)
    (hrest : Lzma2Decoder.Awaits window { loop.coder with
      sequence := .control
      compressedSize := 0
      lzma := ⟨⟨.reset, final.probs⟩, final.model, loop.coder.lzma.props, some 0, .isMatch⟩ }
      (front.reverse ++ history) back stream)
    (htotal : loop.input ++ later = text ++ (stream ++ more)) :
    ∃ result, loop.decodeLzma = .ok result ∧
      loop.Progresses window history (front ++ back) later more result := by
  obtain ⟨result, hresult, hsteps⟩ := steps_decodeLzma hdecodes.safe hat
  refine ⟨result, hresult, ?_⟩
  have hresets : ¬loop.coder.Resets := by
    rw [Lzma2Decoder.Resets, hat]
    exact id
  obtain ⟨⟨hvalid, -⟩, -⟩ := hdecodes.safe.valid.resolve_left hresets
  obtain ⟨bytes, left, ret, after, hfront, hdecode, hdecoded, hleaves⟩ :=
    LzmaDecoder.leaves_lzmaDecode hdecodes.safe.dict hvalid hdecodes.window_le hdecodes.aligned
      hlzma htotal
  have hneed : after.dict.needReset = false :=
    hdecoded.needReset.trans hdecodes.safe.needReset
  have hpos : after.dict.pos = loop.dict.pos + bytes.length := by
    rw [hdecoded.pos, List.length_reverse]
  have hsuffix := hdecoded.suffix.length_le
  have hlengths := congrArg List.length htotal
  rw [List.length_append, List.length_append] at hlengths
  rw [Lzma2Loop.decodeLzma, hdecode, ok_bind] at hresult
  dsimp only at hresult
  cases hleaves with
  | @pause _ still hawaits hstill hwhy =>
      have hrestLengths := congrArg List.length hstill
      rw [List.length_append, List.length_append] at hrestLengths
      have hused : ¬loop.coder.compressedSize < loop.input.length - after.input.length := by
        omega
      have hleft : loop.coder.compressedSize - (loop.input.length - after.input.length) =
          still.length := by omega
      rw [if_neg hused, if_pos (by simp), hleft] at hresult
      cases hresult
      have hnext : Lzma2Decoder.Awaits window
          { loop.coder with lzma := after.coder, compressedSize := still.length }
          (bytes.reverse ++ history) (left ++ back) (still ++ stream) := by
        refine .lzma hat rfl hawaits ?_
        rw [hdecoded.props, ← List.append_assoc, ← List.reverse_append, ← hfront]
        exact hrest
      refine hdecodes.stops hsteps hneed bytes ?_ hdecoded.safe hpos hnext ?_ ?_
      · rw [hfront, List.append_assoc]
      · rw [List.append_assoc]
        exact hstill
      · refine hwhy.imp And.left fun hfull => ⟨?_, ?_⟩
        · exact hfull.1.trans hdecoded.limit.symm
        · exact List.append_ne_nil_of_left_ne_nil hfull.2 _
  | finished hnone hinput hsequence hmodel hreader =>
      subst hnone
      rw [List.append_nil] at hfront
      subst hfront
      have hrestLengths := congrArg List.length hinput
      rw [List.length_append] at hrestLengths
      have hused : ¬loop.coder.compressedSize < loop.input.length - after.input.length := by
        omega
      have hleft : loop.coder.compressedSize - (loop.input.length - after.input.length) = 0 := by
        omega
      have hcoder : after.coder = ⟨⟨.reset, final.probs⟩, final.model, loop.coder.lzma.props,
          some 0, .isMatch⟩ := by
        have hsizeLeft := (hdecoded.remaining _ hlzma.size).2
        rw [List.length_reverse, Nat.sub_self] at hsizeLeft
        rw [← hmodel, ← hreader, ← hdecoded.props, ← hsizeLeft, ← hsequence]
      rw [if_neg hused, if_neg (by simp), hleft, if_neg (by simp), hcoder] at hresult
      cases hresult
      exact hdecodes.goesOn hsteps front rfl hdecoded.safe hpos hrest hinput

/-- `SEQ_COPY`. -/
theorem Decodes.decodeCopy {back : Bytes}
    (hdecodes : loop.Decodes window history (bytes ++ back) later more)
    (hat : loop.coder.sequence = .copy) (hsize : loop.coder.compressedSize = bytes.length)
    (hrest : Lzma2Decoder.Awaits window { loop.coder with
      sequence := .control, compressedSize := 0 } (bytes.reverse ++ history) back stream)
    (htotal : loop.input ++ later = bytes ++ (stream ++ more)) :
    ∃ result, loop.decodeCopy = .ok result ∧
      loop.Progresses window history (bytes ++ back) later more result := by
  obtain ⟨result, hresult, hsteps⟩ := steps_decodeCopy hdecodes.safe hat
  refine ⟨result, hresult, ?_⟩
  obtain ⟨hkeeps, hpos, hlimit⟩ := hdecodes.safe.dict
  obtain ⟨after, hwrite, hafter, hafterPos, hafterLimit, hafterSize, hneed, -⟩ :=
    hkeeps.write hpos hlimit loop.input loop.coder.compressedSize
  rw [hsize] at hwrite hafter hafterPos
  generalize htaken : min (min loop.input.length bytes.length)
    (loop.dict.limit - loop.dict.pos) = taken at hwrite hafter hafterPos
  -- what is taken of the input is a front of the chunk
  have htake : loop.input.take taken = bytes.take taken := by
    have hprefix := congrArg (List.take taken) htotal
    rw [List.take_append_of_le_length (by omega), List.take_append_of_le_length (by omega)]
      at hprefix
    exact hprefix
  have hdrop : loop.input.drop taken ++ later = bytes.drop taken ++ (stream ++ more) := by
    have hsuffix := congrArg (List.drop taken) htotal
    rw [List.drop_append_of_le_length (by omega), List.drop_append_of_le_length (by omega)]
      at hsuffix
    exact hsuffix
  have hlength : (bytes.take taken).length = taken := by
    rw [List.length_take]
    omega
  have hdict : after.Safe ((bytes.take taken).reverse ++ history) := by
    rw [← htake]
    refine ⟨hafter, by omega, ?_⟩
    rw [hafterLimit, hafterSize]
    exact hlimit
  have hgrown : after.pos = loop.dict.pos + (bytes.take taken).length := by
    rw [hlength]
    exact hafterPos
  have hcount : bytes.length - taken = (bytes.drop taken).length := List.length_drop.symm
  rw [Lzma2Loop.decodeCopy, hsize, hwrite, ok_bind] at hresult
  dsimp only at hresult
  rw [hcount] at hresult
  by_cases hleft : (bytes.drop taken).length = 0
  · have hall : bytes.take taken = bytes := by
      rw [List.take_eq_self_iff]
      rw [List.length_drop] at hleft
      omega
    have hnil := List.eq_nil_of_length_eq_zero hleft
    rw [if_neg (not_not_intro hleft), hleft] at hresult
    cases hresult
    rw [hall] at hdict hgrown
    rw [hnil, List.nil_append] at hdrop
    exact hdecodes.goesOn hsteps bytes rfl hdict hgrown hrest hdrop
  · rw [if_pos hleft] at hresult
    cases hresult
    have hne : bytes.drop taken ≠ [] := fun hnil => hleft (congrArg List.length hnil)
    have hnext : Lzma2Decoder.Awaits window
        { loop.coder with compressedSize := (bytes.drop taken).length }
        ((bytes.take taken).reverse ++ history) (bytes.drop taken ++ back)
        (bytes.drop taken ++ stream) := by
      refine .copy hat rfl hne ?_
      rw [← List.append_assoc, ← List.reverse_append, List.take_append_drop]
      exact hrest
    refine hdecodes.stops hsteps (hneed.trans hdecodes.safe.needReset) (bytes.take taken) ?_
      hdict hgrown hnext ?_ ?_
    · rw [← List.append_assoc, List.take_append_drop]
    · rw [List.append_assoc]
      exact hdrop
    · rw [List.length_drop] at hleft
      by_cases hinput : loop.input.length ≤ taken
      · exact .inl (List.drop_eq_nil_of_le hinput)
      · refine .inr ⟨?_, List.append_ne_nil_of_left_ne_nil hne _⟩
        dsimp only
        omega

/-- Without input only an LZMA chunk goes on. -/
theorem Decodes.starved (hdecodes : loop.Decodes window history data later more)
    (hat : loop.coder.sequence ≠ .lzma) (hinput : loop.input = []) :
    ∃ result, loop.turn = .ok result ∧ loop.Progresses window history data later more result := by
  refine ⟨.inr (.ok, loop), ?_, .pause [] data rfl hdecodes (Extends.refl loop) (.inl hinput)⟩
  rw [turn, if_neg hat, hinput]

theorem turn_of_header {byte : UInt8} {tail : Bytes} (hinput : loop.input = byte :: tail)
    (hat : ¬(loop.coder.sequence = .lzma ∨ loop.coder.sequence = .copy)) :
    loop.turn = .ok (loop.decodeHeader byte tail) := by
  rw [not_or] at hat
  rw [turn, if_neg hat.1, hinput]
  dsimp only
  rw [if_neg hat.2]

/-- **One turn.** -/
theorem Decodes.turn (hdecodes : loop.Decodes window history data later more) :
    ∃ result, loop.turn = .ok result ∧ loop.Progresses window history data later more result := by
  obtain ⟨stream, hawaits, htotal⟩ := hdecodes.awaits
  cases hawaits with
  | ends hat =>
      have hheader : ¬(loop.coder.sequence = .lzma ∨ loop.coder.sequence = .copy) := by
        simp [hat]
      cases hinput : loop.input with
      | nil => exact hdecodes.starved (by simp [hat]) hinput
      | cons byte tail =>
          rw [hinput] at htotal
          obtain ⟨rfl, htail⟩ := List.cons.inj htotal
          have hstep : loop.decodeHeader 0 tail =
              .inr (.streamEnd, ⟨loop.coder, loop.dict, tail⟩) := by
            rw [Lzma2Loop.decodeHeader, Lzma2Decoder.header, hat]
            rfl
          refine ⟨_, turn_of_header hinput hheader, ?_⟩
          rw [hstep]
          refine .finished ⟨hdecodes.safe.dict, hdecodes.safe.valid, hdecodes.safe.needReset⟩
            ⟨rfl, rfl, rfl, ?_⟩ htail
          rw [hinput]
          exact List.suffix_cons _ _
  | header hat hheader hnext =>
      cases hinput : loop.input with
      | nil => exact hdecodes.starved (not_or.mp hat).1 hinput
      | cons byte tail =>
          rw [hinput] at htotal
          obtain ⟨rfl, htail⟩ := List.cons.inj htotal
          exact ⟨_, turn_of_header hinput hat, hdecodes.decodeHeader hinput hat hheader hnext htail⟩
  | dictReset hat hheader hnext =>
      cases hinput : loop.input with
      | nil => exact hdecodes.starved (not_or.mp hat).1 hinput
      | cons byte tail =>
          rw [hinput] at htotal
          obtain ⟨rfl, htail⟩ := List.cons.inj htotal
          exact ⟨_, turn_of_header hinput hat,
            hdecodes.decodeDictReset hinput hat hheader hnext htail⟩
  | lzma hat hsize hlzma hrest =>
      rw [List.append_assoc] at htotal
      rw [Lzma2Loop.turn, if_pos hat]
      exact hdecodes.decodeLzma hat hsize hlzma hrest htotal
  | copy hat hsize hbytes hrest =>
      have hnot : loop.coder.sequence ≠ .lzma := by simp [hat]
      cases hinput : loop.input with
      | nil => exact hdecodes.starved hnot hinput
      | cons byte tail =>
          have hcopy : loop.turn = loop.decodeCopy := by
            rw [Lzma2Loop.turn, if_neg hnot, hinput]
            exact if_pos hat
          rw [List.append_assoc] at htotal
          rw [hcopy]
          exact hdecodes.decodeCopy hat hsize hrest htotal

/-- What a turn has done after others. -/
theorem Progresses.after {state : Lzma2Loop} (before : Bytes) (hdata : data = before ++ rest)
    (hextends : loop.Extends state before.reverse) {left : LzmaRet × Lzma2Loop}
    (hprogresses : state.Progresses window (before.reverse ++ history) rest later more
      (.inr left)) :
    loop.Progresses window history data later more (.inr left) := by
  have hhistory (bytes : Bytes) : bytes.reverse ++ (before.reverse ++ history) =
      (before ++ bytes).reverse ++ history := by
    rw [List.reverse_append, List.append_assoc]
  have htrans {next : Lzma2Loop} {bytes : Bytes} (hmore : state.Extends next bytes.reverse) :
      loop.Extends next (before ++ bytes).reverse := by
    rw [List.reverse_append]
    exact hextends.trans hmore
  cases hprogresses with
  | pause bytes left hrest hdecodes hmore hwhy =>
      rw [hhistory] at hdecodes
      refine .pause (before ++ bytes) left ?_ hdecodes (htrans hmore) hwhy
      rw [hdata, hrest, List.append_assoc]
  | dictReset bytes left hrest hdict hneed hresets hmore hinput hawaits htotal =>
      rw [hhistory] at hdict
      refine .dictReset (before ++ bytes) left ?_ hdict hneed hresets (htrans hmore)
        (hinput.trans_le hextends.input.length_le) hawaits htotal
      rw [hdata, hrest, List.append_assoc]
  | finished hsafe hmore hinput =>
      rw [hhistory, ← hdata] at hsafe
      refine .finished hsafe ?_ hinput
      rw [hdata]
      exact htrans hmore

/-- **The loop.** -/
theorem Decodes.run (hdecodes : loop.Decodes window history data later more) {fuel : ℕ}
    (hfuel : loop.variant < fuel) :
    ∃ left, Loop.runFor (Loop.fallible Lzma2Loop.turn) fuel loop = some (.ok left) ∧
      loop.Progresses window history data later more (.inr left) := by
  refine Loop.exists_runFor_fallible
    (fun state => ∃ before rest, data = before ++ rest ∧
      state.Decodes window (before.reverse ++ history) rest later more ∧
      loop.Extends state before.reverse)
    variant ?_ ⟨[], data, rfl, hdecodes, Extends.refl loop⟩ hfuel
  rintro state ⟨before, rest, hdata, hstate, hextends⟩
  obtain ⟨result, hturn, hprogresses⟩ := hstate.turn
  cases result with
  | inl next =>
      cases hprogresses with
      | next bytes left hrest hnext hmore hvariant =>
          refine .inl ⟨next, hturn, ⟨before ++ bytes, left, ?_, ?_, ?_⟩, hvariant⟩
          · rw [hdata, hrest, List.append_assoc]
          · rw [List.reverse_append, List.append_assoc]
            exact hnext
          · rw [List.reverse_append]
            exact hextends.trans hmore
  | inr left => exact .inr ⟨left, hturn, hprogresses.after before hdata hextends⟩

end Turn

end Lzma2Loop

/-- **Round trip of LZMA2, one call.** -/
theorem Lzma2Decoder.progresses_lzma2Decode {window : ℕ} {coder : Lzma2Decoder} {dict : LzmaDict}
    {history data input later more : Bytes}
    (hdecodes : (⟨coder, dict, input⟩ : Lzma2Loop).Decodes window history data later more) :
    ∃ left, coder.lzma2Decode dict input = .ok left ∧
      (⟨coder, dict, input⟩ : Lzma2Loop).Progresses window history data later more
        (.inr left) := by
  obtain ⟨left, hrun, hleft⟩ := hdecodes.run (Lzma2Loop.variant_lt _)
  refine ⟨left, ?_, hleft⟩
  rw [lzma2Decode, hrun, Option.getD_some]

/-! ## Calls and runs -/

/-- Between two calls, the decoder has to read `stream` and to write `data`. -/
structure LzDecoder.Awaits (window : ℕ) (coder : LzDecoder) (history data stream : Bytes) :
    Prop where
  safe : coder.Safe history
  window_le : window ≤ coder.dict.size
  aligned : 16 ∣ coder.dict.size
  awaits : coder.lz.Awaits window history data stream

namespace LzLoop

/-- The input, with what comes `later`, is what the decoder has to read, and `more` behind
it. -/
def Decodes (window : ℕ) (loop : LzLoop) (data later more : Bytes) : Prop :=
  ∃ history stream, loop.coder.Awaits window history data stream ∧
    loop.input ++ later = stream ++ more

/-- The output buffer has received some bytes. -/
structure Emits (loop next : LzLoop) (bytes : Bytes) : Prop where
  out : next.out = loop.out ++ bytes
  room : next.room + bytes.length = loop.room

/-- What a turn may do: go on, stop because the input is used up or there is no room left,
or come to the end. -/
inductive Progresses (window : ℕ) (loop : LzLoop) (data later more : Bytes) :
    LzLoop ⊕ LzmaRet × LzLoop → Prop
  | next {next : LzLoop} (bytes rest : Bytes) (hdata : data = bytes ++ rest)
      (hdecodes : next.Decodes window rest later more) (hemits : loop.Emits next bytes)
      (hvariant : next.input.length + next.room < loop.input.length + loop.room) :
      Progresses window loop data later more (.inl next)
  | pause {next : LzLoop} (bytes rest : Bytes) (hdata : data = bytes ++ rest)
      (hdecodes : next.Decodes window rest later more) (hemits : loop.Emits next bytes)
      (hwhy : next.input = [] ∨ next.room = 0) :
      Progresses window loop data later more (.inr (.ok, next))
  | finished {next : LzLoop} (hemits : loop.Emits next data)
      (hinput : next.input ++ later = more) :
      Progresses window loop data later more (.inr (.streamEnd, next))

section Turn

variable {window : ℕ} {loop next : LzLoop} {data bytes rest later more : Bytes}

theorem Emits.trans {third : LzLoop} (hfirst : loop.Emits next bytes)
    (hsecond : next.Emits third rest) : loop.Emits third (bytes ++ rest) := by
  refine ⟨?_, ?_⟩
  · rw [hsecond.out, hfirst.out, List.append_assoc]
  · rw [← hfirst.room, ← hsecond.room, List.length_append]
    omega

/-- **One turn.** -/
theorem Decodes.turn (hdecodes : loop.Decodes window data later more) :
    ∃ result, loop.turn = .ok result ∧ loop.Progresses window data later more result := by
  obtain ⟨history, stream, ⟨hsafe, hwindow, haligned, hawaits⟩, htotal⟩ := hdecodes
  obtain ⟨-, hsame, -⟩ := limited_same loop
  have hstart := pos_limited_lt hsafe.keeps
  have hlzma2 : (⟨loop.coder.lz, loop.limited, loop.input⟩ : Lzma2Loop).Decodes window history
      data later more :=
    ⟨safe_lzma2 hsafe, by rwa [hsame], by rwa [hsame], stream, hawaits, htotal⟩
  obtain ⟨⟨ret, after⟩, hdecode, hprogresses⟩ := Lzma2Decoder.progresses_lzma2Decode hlzma2
  have hturn : loop.turn = loop.copyOut ret after := by rw [LzLoop.turn, hdecode, ok_bind]
  have hemits {coder : LzDecoder} {bytes : Bytes} (hroom : bytes.reverse.length ≤ loop.room) :
      loop.Emits ⟨coder, after.input, loop.room - bytes.reverse.length,
        loop.out ++ bytes.reverse.reverse⟩ bytes := by
    refine ⟨?_, ?_⟩
    · rw [List.reverse_reverse]
    · rw [List.length_reverse] at hroom ⊢
      exact Nat.sub_add_cancel hroom
  rw [hturn]
  cases hprogresses with
  | pause bytes rest hdata hnext hextends hwhy =>
      obtain ⟨hroom, hcopy⟩ := copyOut_eq loop .ok hnext.safe.dict hextends
      have hpos : after.dict.pos = loop.limited.pos + bytes.reverse.length := hextends.pos
      have hlimit : after.dict.limit =
          loop.limited.pos + min loop.room (loop.limited.size - loop.limited.pos) :=
        hextends.limit
      have hsize : after.dict.size = loop.limited.size := hextends.size
      have hshorter : after.input.length ≤ loop.input.length := hextends.input.length_le
      have hafter : LzLoop.Decodes window ⟨⟨after.dict, after.coder⟩, after.input,
          loop.room - bytes.reverse.length, loop.out ++ bytes.reverse.reverse⟩ rest later more := by
        obtain ⟨still, hstill, hmore⟩ := hnext.awaits
        exact ⟨_, still, ⟨⟨hnext.safe.dict.keeps, hnext.safe.valid, hnext.safe.needReset⟩,
          hnext.window_le, hnext.aligned, hstill⟩, hmore⟩
      rw [hcopy, hnext.safe.needReset, if_neg Bool.false_ne_true]
      by_cases hstop : LzmaRet.ok ≠ .ok ∨ loop.room - bytes.reverse.length = 0 ∨
          after.dict.pos < after.dict.size
      · rw [if_pos hstop]
        refine ⟨_, rfl, .pause bytes rest hdata hafter (hemits hroom) ?_⟩
        refine hwhy.imp_right fun hfull => ?_
        have hleft := hstop.resolve_left (not_not_intro rfl)
        dsimp only
        omega
      · rw [if_neg hstop]
        rw [not_or, not_or] at hstop
        refine ⟨_, rfl, .next bytes rest hdata hafter (hemits hroom) ?_⟩
        dsimp only
        omega
  | @dictReset _ bytes rest still hdata hdict hneed hresets hextends hinput hstill hmore =>
      obtain ⟨hroom, hcopy⟩ := copyOut_eq loop .ok hdict hextends
      have hsize : after.dict.size = loop.limited.size := hextends.size
      have hreset : after.dict.reset.size = loop.coder.dict.size :=
        (List.length_set.trans hsize).trans hsame
      have hafter : LzLoop.Decodes window ⟨⟨after.dict.reset, after.coder⟩, after.input,
          loop.room - bytes.reverse.length, loop.out ++ bytes.reverse.reverse⟩ rest later more :=
        ⟨[], still, ⟨⟨LzmaDict.keeps_reset hdict.keeps.nonempty, .inl hresets, rfl⟩,
          by rwa [hreset], by rwa [hreset], hstill⟩, hmore⟩
      rw [hcopy, hneed, if_pos rfl]
      by_cases hstop : LzmaRet.ok ≠ .ok ∨ loop.room - bytes.reverse.length = 0
      · rw [if_pos hstop]
        exact ⟨_, rfl, .pause bytes rest hdata hafter (hemits hroom)
          (.inr (hstop.resolve_left (not_not_intro rfl)))⟩
      · rw [if_neg hstop]
        refine ⟨_, rfl, .next bytes rest hdata hafter (hemits hroom) ?_⟩
        have hshorter : after.input.length < loop.input.length := hinput
        dsimp only
        omega
  | finished hnext hextends hinput =>
      obtain ⟨hroom, hcopy⟩ := copyOut_eq loop .streamEnd hnext.dict hextends
      rw [hcopy, hnext.needReset, if_neg Bool.false_ne_true, if_pos (.inl (by simp))]
      exact ⟨_, rfl, .finished (hemits hroom) hinput⟩

/-- What a turn has done after others. -/
theorem Progresses.after {state : LzLoop} {left : LzmaRet × LzLoop} (before : Bytes)
    (hdata : data = before ++ rest) (hemits : loop.Emits state before)
    (hprogresses : state.Progresses window rest later more (.inr left)) :
    loop.Progresses window data later more (.inr left) := by
  cases hprogresses with
  | pause bytes left hrest hdecodes hmore hwhy =>
      refine .pause (before ++ bytes) left ?_ hdecodes (hemits.trans hmore) hwhy
      rw [hdata, hrest, List.append_assoc]
  | finished hmore hinput =>
      refine .finished ?_ hinput
      rw [hdata]
      exact hemits.trans hmore

end Turn

end LzLoop

namespace LzDecoder

section Run

variable {window : ℕ} {coder : LzDecoder} {history data stream later more : Bytes}

/-- One call. -/
theorem Awaits.decodeBuffer (hawaits : coder.Awaits window history data stream) {input : Bytes}
    (htotal : input ++ later = stream ++ more) (room : ℕ) :
    ∃ left, coder.decodeBuffer input room = .ok left ∧
      (⟨coder, input, room, []⟩ : LzLoop).Progresses window data later more (.inr left) := by
  have hrun : ∃ left, Loop.runFor (Loop.fallible LzLoop.turn) (input.length + room + 1)
      ⟨coder, input, room, []⟩ = some (.ok left) ∧
      (⟨coder, input, room, []⟩ : LzLoop).Progresses window data later more (.inr left) := by
    refine Loop.exists_runFor_fallible
      (fun state => ∃ before rest, data = before ++ rest ∧ state.Decodes window rest later more ∧
        (⟨coder, input, room, []⟩ : LzLoop).Emits state before)
      (fun state => state.input.length + state.room) ?_
      ⟨[], data, rfl, ⟨history, stream, hawaits, htotal⟩, rfl, rfl⟩ (Nat.lt_succ_self _)
    rintro state ⟨before, rest, hdata, hstate, hemits⟩
    obtain ⟨result, hturn, hprogresses⟩ := hstate.turn
    cases result with
    | inl next =>
        cases hprogresses with
        | next bytes left hrest hnext hmore hvariant =>
            refine .inl ⟨next, hturn, ⟨before ++ bytes, left, ?_, hnext, hemits.trans hmore⟩,
              hvariant⟩
            rw [hdata, hrest, List.append_assoc]
    | inr left => exact .inr ⟨left, hturn, hprogresses.after before hdata hemits⟩
  obtain ⟨left, hresult, hleft⟩ := hrun
  refine ⟨left, ?_, hleft⟩
  rw [LzDecoder.decodeBuffer, hresult, Option.getD_some]

/-- What a run may leave: everything has been written, and what follows the stream has not
been read; or a front has been written, and the last call was short of input or has filled
all its room. -/
def Reads (coder : LzDecoder) (pending data later more : Bytes) (calls : List (Bytes × ℕ))
    (reading : LzReading) : Prop :=
  reading.ret = .streamEnd ∧ reading.out = data ∧ reading.unread ++ later = more ∨
    reading.ret = .ok ∧ reading.out <+: data ∧
      ∀ earlier supply room, calls = earlier ++ [(supply, room)] →
        more.length < later.length ∨
          ∃ before, coder.calls pending earlier = .ok before ∧
            reading.out.length = before.out.length + room

/-- A run. -/
theorem Awaits.calls (hawaits : coder.Awaits window history data stream) {pending : Bytes}
    (calls : List (Bytes × ℕ))
    (htotal : pending ++ (calls.map Prod.fst).flatten ++ later = stream ++ more) :
    ∃ reading, coder.calls pending calls = .ok reading ∧
      coder.Reads pending data later more calls reading := by
  induction calls generalizing coder history data stream pending with
  | nil =>
      refine ⟨_, rfl, .inr ⟨rfl, List.nil_prefix, fun earlier supply room hcalls => ?_⟩⟩
      exact absurd hcalls.symm (List.append_ne_nil_of_right_ne_nil _ (List.cons_ne_nil _ _))
  | cons call calls ih =>
      obtain ⟨supply, room⟩ := call
      rw [List.map_cons, List.flatten_cons, ← List.append_assoc, List.append_assoc] at htotal
      obtain ⟨⟨ret, after⟩, hdecode, hprogresses⟩ := hawaits.decodeBuffer htotal room
      rw [LzDecoder.calls, hdecode, ok_bind]
      cases hprogresses with
      | pause bytes rest hdata hdecodes hemits hwhy =>
          obtain ⟨current, still, hcurrent, hstill⟩ := hdecodes
          have hout : after.out = bytes := hemits.out
          have hroom : after.room + bytes.length = room := hemits.room
          rw [← List.append_assoc] at hstill
          obtain ⟨reading, hcalls, hreads⟩ := ih hcurrent hstill
          dsimp only
          rw [if_pos rfl, hcalls, ok_bind]
          refine ⟨_, rfl, ?_⟩
          rw [hout, hdata]
          obtain ⟨hret, hread, hunread⟩ | ⟨hret, hfront, hlast⟩ := hreads
          · exact .inl ⟨hret, congrArg (bytes ++ ·) hread, hunread⟩
          · refine .inr ⟨hret, (List.prefix_append_right_inj bytes).mpr hfront, ?_⟩
            intro earlier lastSupply lastRoom hsplit
            cases earlier with
            | cons first earlier =>
                obtain ⟨rfl, htail⟩ := List.cons_eq_cons.mp hsplit
                refine (hlast earlier lastSupply lastRoom htail).imp_right ?_
                rintro ⟨before, hbefore, hlength⟩
                refine ⟨{ before with out := after.out ++ before.out }, ?_, ?_⟩
                · rw [LzDecoder.calls, hdecode, ok_bind]
                  dsimp only
                  rw [if_pos rfl, hbefore, ok_bind]
                  rfl
                · rw [List.length_append, List.length_append, hlength, hout, Nat.add_assoc]
            | nil =>
                obtain ⟨hcall, rfl⟩ := List.cons_eq_cons.mp hsplit
                cases hcall
                refine hwhy.imp (fun hinput => ?_) fun hfull => ⟨_, rfl, ?_⟩
                · -- the end of the stream has not been supplied
                  have hpos := List.length_pos_iff.mpr hcurrent.awaits.stream_ne_nil
                  have hlengths := congrArg List.length hstill
                  rw [hinput] at hlengths
                  simp only [List.map_nil, List.flatten_nil, List.append_nil, List.nil_append,
                    List.length_append] at hlengths
                  omega
                · obtain rfl := Except.ok.inj hcalls
                  rw [hfull, Nat.zero_add] at hroom
                  rw [List.length_append, hroom]
                  exact Nat.add_comm _ _
      | finished hemits hinput =>
          dsimp only
          rw [if_neg (by simp)]
          refine ⟨_, rfl, .inl ⟨rfl, hemits.out, ?_⟩⟩
          rw [List.append_assoc]
          exact hinput

end Run

end LzDecoder

/-- The window of the encoder is in the dictionary of the decoder. -/
theorem lzDictSize_spec (dictSize : ℕ) :
    dictSize ≤ lzDictSize dictSize ∧ 16 ∣ lzDictSize dictSize ∧ 0 < lzDictSize dictSize := by
  rw [lzDictSize]
  exact ⟨by omega, Nat.dvd_mul_left _ _, by omega⟩

/-- A decoder whose dictionary holds the window of the encoder reads what it has written. -/
theorem exists_calls_of_window (props : LzmaProps) {window : ℕ} {actions : List Lzma2Action}
    (hfits : (Lzma2Encoder.init props).ChunksFit window [] actions) {buf : Bytes}
    (hwindow : window ≤ buf.length) (haligned : 16 ∣ buf.length) (hpos : 0 < buf.length)
    (garbage : Lzma2Decoder) (calls : List (Bytes × ℕ)) {later more : Bytes}
    (htotal : (calls.map Prod.fst).flatten ++ later =
      (Lzma2Encoder.init props).lzma2Encode [] actions ++ more) :
    ∃ reading, (LzDecoder.init buf garbage).calls [] calls = .ok reading ∧
      (LzDecoder.init buf garbage).Reads [] ((Lzma2Encoder.init props).lzma2Data [] actions) later
        more calls reading := by
  have hsize : (LzDecoder.init buf garbage).dict.size = buf.length := List.length_set
  have hawaits : (LzDecoder.init buf garbage).Awaits window []
      ((Lzma2Encoder.init props).lzma2Data [] actions)
      ((Lzma2Encoder.init props).lzma2Encode [] actions) :=
    ⟨LzDecoder.safe_init hpos garbage, by rwa [hsize], by rwa [hsize],
      (inStep_init props garbage).awaits hfits (fun _ => rfl) fun _ => rfl⟩
  exact hawaits.calls calls htotal

/-- **Round trip of LZMA2.** Whatever the data are, however the optimiser parses them,
wherever the chunks end and the options change, a new decoder with a dictionary of the same
size reproduces them from what the encoder has written. It may be given the stream in any
pieces, with anything behind it, and any room for the output: what it writes is always a
front of the data, it never reports an error, and if the last call has the end of the
stream and does not fill its room it reports the end, without having read anything
behind it. -/
theorem lzma2_roundTrip (props : LzmaProps) (dictSize : ℕ) {actions : List Lzma2Action}
    (hfits : (Lzma2Encoder.init props).ChunksFit dictSize [] actions) {buf : Bytes}
    (hbuf : buf.length = lzDictSize dictSize) (garbage : Lzma2Decoder)
    (calls : List (Bytes × ℕ)) {later more : Bytes}
    (htotal : (calls.map Prod.fst).flatten ++ later =
      (Lzma2Encoder.init props).lzma2Encode [] actions ++ more) :
    ∃ reading, (LzDecoder.init buf garbage).calls [] calls = .ok reading ∧
      (LzDecoder.init buf garbage).Reads [] ((Lzma2Encoder.init props).lzma2Data [] actions) later
        more calls reading := by
  obtain ⟨hwindow, haligned, hpos⟩ := lzDictSize_spec dictSize
  rw [← hbuf] at hwindow haligned hpos
  exact exists_calls_of_window props hfits hwindow haligned hpos garbage calls htotal

/-- A new decoder with the smallest dictionary. -/
def sampleDecoder : LzDecoder :=
  .init (List.replicate 4096 0) ⟨.control, .control,
    ⟨⟨.reset, fun _ => bitReset⟩, .reset, sampleProps, none, .isMatch⟩, 0, 0, true, true,
    sampleProps⟩

/-- Twelve bytes, in two pieces and with one byte behind them. -/
theorem lzma2_roundTrip_sample :
    ∃ reading, sampleDecoder.calls []
        [([224, 0, 11, 0], 5), ([6, 93, 0, 48, 236, 60, 0, 0, 0, 0, 7], 20)] = .ok reading ∧
      sampleDecoder.Reads [] ((Lzma2Encoder.init sampleProps).lzma2Data [] [.encode sampleChunk])
        [] [7] [([224, 0, 11, 0], 5), ([6, 93, 0, 48, 236, 60, 0, 0, 0, 0, 7], 20)] reading :=
  lzma2_roundTrip sampleProps 4096 chunksFit_sample (by decide +kernel) _ _ (by decide +kernel)

end Dht
