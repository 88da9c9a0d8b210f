/-
# The LZMA2 encoder

`lzma2_encode` lets the LZMA encoder fill a buffer of the size of a chunk. Before every
symbol `lzma_lzma_encode` looks at the sizes and ends the chunk early enough for what a
symbol and the flush may still need. If the chunk has not become smaller it is stored as
it is, together with what the optimiser has read ahead. Which resets the next header asks
for follows from what the chunks before were.

That the buffer is never too small, and neither the queue of bits of the range encoder, is
proved here: a bit makes at most one byte, and a symbol has at most 48 bits.
-/

import Dht.Liblzma.LzmaEncoder
import Dht.Liblzma.Lzma2Decoder

namespace Dht

open LzmaRangeEncoder

/-! ## The end of a chunk -/

/-- `rc_pending`. -/
def rcPending (rc : LzmaRangeEncoder) : ℕ := rc.cacheSize + 5 - 1

/-- Whether `lzma_lzma_encode` ends a chunk of LZMA2 before the next symbol. -/
def endsChunk (used outPos : ℕ) (rc : LzmaRangeEncoder) : Bool :=
  2 ^ 21 - 273 ≤ used ∨ 2 ^ 16 - (2 ^ 12 + 1) ≤ outPos + rcPending rc

/-- No choice was made where the chunk had to be ended. -/
def GoesOn (props : LzmaProps) (used outPos : ℕ) (coder : LzmaEncoder) (history ahead : Bytes) :
    List (ℕ × ℕ) → Prop
  | [] => True
  | (back, len) :: choices =>
      let coded := encodeNextSymbol props coder.model history ahead back len
      let written := rcEncode (2 ^ 16 - outPos) coder.rc coder.probs (rcSymbols coded.1 0)
      endsChunk used outPos coder.rc = false ∧
        GoesOn props (used + len) (outPos + written.out.length)
          ⟨written.state.rc, written.state.probs, coded.2⟩ ((ahead.take len).reverse ++ history)
          (ahead.drop len) choices

section Length

variable {ι : Type} [DecidableEq ι]

/-- The bytes written and cached grow by at most one in a normalisation. -/
theorem length_normalizeText_le {rc : LzmaRangeEncoder} (hcached : 1 ≤ rc.cacheSize) :
    rc.normalizeText.length + rc.normalizeNext.cacheSize ≤ rc.cacheSize + 1 := by
  rw [normalizeText, normalizeNext]
  by_cases hnarrow : rc.range < 2 ^ 24
  · rw [if_pos hnarrow, if_pos hnarrow]
    have hshift := length_shift [] hcached
    rw [List.nil_append, List.length_nil, Nat.zero_add] at hshift
    exact hshift.le
  · rw [if_neg hnarrow, if_neg hnarrow, List.length_nil, Nat.zero_add]
    exact Nat.le_succ _

/-- A bit writes or caches at most one byte. -/
theorem length_encodeText_le {rc : LzmaRangeEncoder} (hcached : 1 ≤ rc.cacheSize)
    (probs : ι → Probability) (bits : List (RcContext ι × Bool)) :
    (rc.encodeText probs bits 0).length + (rc.encodeNext probs bits 0).rc.cacheSize ≤
      rc.cacheSize + bits.length := by
  induction bits generalizing rc probs with
  | nil => exact (Nat.zero_add _).le
  | cons coded bits ih =>
      obtain ⟨context, bit⟩ := coded
      have hnormalize := length_normalizeText_le hcached
      have hnext := cacheSize_rcEncodeBit rc.normalizeNext probs context bit
      have hrest := ih ((one_le_cacheSize_normalizeNext hcached).trans_eq hnext.symm)
        (rcUpdate probs context bit)
      rw [encodeText, encodeNext, List.length_append, List.length_cons]
      omega

theorem length_flushText {rc : LzmaRangeEncoder} (hcached : 1 ≤ rc.cacheSize) (flushes : ℕ) :
    (flushText flushes rc).length + (flushNext flushes rc).cacheSize =
      rc.cacheSize + flushes := by
  induction flushes generalizing rc with
  | zero => exact Nat.zero_add _
  | succ flushes ih =>
      have hshift := length_shift [] hcached
      have hrest := ih (one_le_cacheSize_shiftNext rc)
      rw [List.nil_append, List.length_nil, Nat.zero_add] at hshift
      rw [flushText, flushNext, List.length_append]
      omega

/-- A flush writes what is pending and at most two bytes more. -/
theorem length_encodeText_flush {rc : LzmaRangeEncoder} (hcached : 1 ≤ rc.cacheSize)
    (probs : ι → Probability) :
    (rc.encodeText probs [] 5).length ≤ rcPending rc + 2 := by
  have hnormalize := length_normalizeText_le hcached
  have hwiden : 1 ≤ (rcWiden rc.normalizeNext).cacheSize :=
    one_le_cacheSize_normalizeNext hcached
  have hflush : (flushText (4 + 1) (rcWiden rc.normalizeNext)).length ≤
      rc.normalizeNext.cacheSize + 5 :=
    Nat.le_of_add_right_le (length_flushText hwiden 5).le
  rw [encodeText, rcPending, List.length_append]
  omega

end Length

/-! ## The queue of bits -/

section Queue

theorem length_rcBittree {ι : Type} (tree : ℕ → ι) (bitCount symbol : ℕ) :
    (rcBittree tree bitCount symbol).length = bitCount := by
  rw [rcBittree]
  generalize 1 = modelIndex
  induction bitCount generalizing modelIndex with
  | zero => rfl
  | succ count ih => rw [rcBittreeLoop, List.length_cons, ih]

theorem length_rcBittreeReverse {ι : Type} (tree : ℕ → ι) (bitCount symbol : ℕ) :
    (rcBittreeReverse tree bitCount symbol).length = bitCount := by
  rw [rcBittreeReverse]
  generalize 1 = modelIndex
  induction bitCount generalizing symbol modelIndex with
  | zero => rfl
  | succ count ih => rw [rcBittreeReverseLoop, List.length_cons, ih]

theorem length_rcDirect {ι : Type} (value count : ℕ) :
    (rcDirect value count : List (RcContext ι × Bool)).length = count := by
  induction count with
  | zero => rfl
  | succ count ih => rw [rcDirect, List.length_cons, ih]

theorem length_literalMatched (tree : ℕ → LzmaProb) (matchByte symbol : ℕ) :
    (literalMatched tree matchByte symbol).length = 8 := by
  have hloop (count matchByte symbol offset : ℕ) :
      (literalMatchedLoop tree count matchByte symbol offset).length = count := by
    induction count generalizing matchByte symbol offset with
    | zero => rfl
    | succ count ih => rw [literalMatchedLoop, List.length_cons, ih]
  exact hloop 8 _ _ _

theorem length_encodeLength_le (coder : LenProb → LzmaProb) (posState len : ℕ) :
    (encodeLength coder posState len).length ≤ 10 := by
  rw [encodeLength]
  dsimp only
  split
  · rw [List.length_cons, length_rcBittree]
    omega
  · rw [List.length_cons]
    split
    · rw [List.length_cons, length_rcBittree]
      omega
    · rw [List.length_cons, length_rcBittree]

theorem length_encodeDistance_le {distance : ℕ} (hdistance : distance < 2 ^ 32) (len : ℕ) :
    (encodeDistance distance len).length ≤ 36 := by
  have hslot : getDistSlot distance < 64 := by
    obtain ⟨hlt, -⟩ | ⟨-, hlt, -⟩ := getDistSlot_cases hdistance
    · omega
    · exact hlt
  have hhalf : getDistSlot distance >>> 1 = getDistSlot distance / 2 :=
    Nat.shiftRight_eq_div_pow _ 1
  rw [encodeDistance, List.length_append, length_rcBittree, encodeFooter, hhalf]
  split
  · split
    · rw [length_rcBittreeReverse]
      omega
    · rw [List.length_append, length_rcDirect, length_rcBittreeReverse]
      omega
  · rw [List.length_nil]
    omega

theorem length_encodeRepMatch_le (model : LzmaModel) (posState rep len : ℕ) :
    (encodeRepMatch model posState rep len).1.length ≤ 13 := by
  have hlength := length_encodeLength_le .repLen posState len
  rw [encodeRepMatch]
  generalize hchoice : (ite (rep = 0) _ _ : List LzmaBit) = choice
  have hcount : choice.length ≤ 3 := by
    rw [← hchoice]
    split
    · simp
    · split <;> simp
  dsimp only
  split
  · exact hcount.trans (by decide)
  · rw [List.length_append]
    omega

/-- A symbol and a flush fit the arrays `symbols` and `probs` of the range encoder, which
have room for 58. -/
theorem length_encodeSymbol_le (props : LzmaProps) (model : LzmaModel) (context : LiteralContext)
    (curByte : UInt8) {back len : ℕ} (hcodable : Codable back len) :
    (encodeSymbol props model context curByte back len).1.length ≤ 48 := by
  rw [encodeSymbol]
  dsimp only
  by_cases hliteral : back = 2 ^ 32 - 1
  · rw [if_pos hliteral, List.length_cons, encodeLiteral]
    dsimp only
    split
    · rw [length_rcBittree]
      omega
    · rw [length_literalMatched]
      omega
  · rw [if_neg hliteral]
    by_cases hrep : back < 4
    · have hlength := length_encodeRepMatch_le model (props.posState context.position) back len
      rw [if_pos hrep, List.length_cons, List.length_cons]
      omega
    · have hdistance : back - 4 < 2 ^ 32 := by
        obtain habsurd | ⟨habsurd, -⟩ | ⟨-, hlt, -⟩ := hcodable
        · exact absurd habsurd hliteral
        · exact absurd habsurd hrep
        · omega
      have hlength := length_encodeLength_le .matchLen (props.posState context.position) len
      have hfooter := length_encodeDistance_le hdistance len
      rw [if_neg hrep, List.length_cons, List.length_cons, encodeMatch, List.length_append]
      omega

end Queue

/-! ## The buffer of a chunk -/

/-- What a chunk still writes and reads stays within the limits, if no choice was made where
the chunk had to be ended. -/
theorem GoesOn.fits {props : LzmaProps} {window used outPos : ℕ} {coder : LzmaEncoder}
    {history data : Bytes} {choices : List (ℕ × ℕ)} (hcached : 1 ≤ coder.rc.cacheSize)
    (hparses : Parses props window coder.model history data choices)
    (hgoes : GoesOn props used outPos coder history data choices) (hused : used ≤ 2 ^ 21)
    (hout : outPos + rcPending coder.rc ≤ 2 ^ 16 - 2 ^ 12 + 46) :
    used + data.length ≤ 2 ^ 21 ∧
      outPos + (coder.rc.encodeText coder.probs
        (chunkBits props coder.model history data choices).1 5).length ≤ 2 ^ 16 := by
  induction choices generalizing used outPos coder history data with
  | nil =>
      subst hparses
      have hflush := length_encodeText_flush hcached coder.probs
      rw [chunkBits, List.length_nil]
      dsimp only
      omega
  | cons choice choices ih =>
      obtain ⟨back, len⟩ := choice
      obtain ⟨hchooses, hrest⟩ := hparses
      obtain ⟨hends, hlater⟩ := hgoes
      rw [endsChunk, decide_eq_false_iff_not, not_or] at hends
      have hlen : len ≤ 273 := by
        obtain hback | ⟨-, hlong | hshort⟩ | hmatch := hchooses.codable
        · rw [hchooses.literal hback]
          decide
        · exact hlong.2
        · omega
        · omega
      have hqueue : (encodeNextSymbol props coder.model history data back len).1.length ≤ 48 :=
        length_encodeSymbol_le props coder.model _ _ hchooses.codable
      rw [chunkBits]
      dsimp only at hrest hlater ⊢
      generalize encodeNextSymbol props coder.model history data back len = coded at *
      have htext := length_encodeText_le hcached coder.probs coded.1
      have hnext := one_le_cacheSize_encodeNext hcached coder.probs coded.1
      have hfills := fills_rcEncode (2 ^ 16 - outPos) coded.1 0 coder.probs hcached
      generalize rcEncode (2 ^ 16 - outPos) coder.rc coder.probs (rcSymbols coded.1 0) =
        written at hfills hlater
      rw [rcPending] at hends hout
      cases hfills with
      | stopped hroom hpaused => omega
      | finished hroom hdone =>
          subst hdone
          have hpending : rcPending (coder.rc.encodeNext coder.probs coded.1 0).rc =
              (coder.rc.encodeNext coder.probs coded.1 0).rc.cacheSize + 5 - 1 := rfl
          obtain ⟨hdata, hbytes⟩ := ih hnext hrest hlater (by omega) (by
            dsimp only
            omega)
          have hle := hchooses.len_le
          rw [List.length_drop] at hdata
          dsimp only at hbytes
          rw [encodeText_append, List.length_append]
          omega

/-! ## The encoder -/

/-- `lzma_coder` of the LZMA2 encoder, between two chunks. -/
structure Lzma2Encoder where
  lzma : LzmaEncoder
  props : LzmaProps
  needProperties : Bool
  needStateReset : Bool
  needDictionaryReset : Bool

/-- `lzma2_encoder_init`. -/
def Lzma2Encoder.init (props : LzmaProps) : Lzma2Encoder := ⟨.reset, props, true, false, true⟩

namespace Lzma2Encoder

/-- `lzma2_header_lzma`. -/
def headerLzma (coder : Lzma2Encoder) (uncompressedSize compressedSize : ℕ) : Bytes :=
  let control :=
    if coder.needProperties then
      if coder.needDictionaryReset then 0x80 + 3 <<< 5 else 0x80 + 2 <<< 5
    else if coder.needStateReset then 0x80 + 1 <<< 5 else 0x80
  let size := uncompressedSize - 1
  let compressed := compressedSize - 1
  [UInt8.ofNat (control + size >>> 16), UInt8.ofNat ((size >>> 8) &&& 0xFF),
    UInt8.ofNat (size &&& 0xFF), UInt8.ofNat (compressed >>> 8),
    UInt8.ofNat (compressed &&& 0xFF)] ++
    if coder.needProperties then [lclppbEncode coder.props] else []

/-- `lzma2_header_uncompressed`. -/
def headerUncompressed (coder : Lzma2Encoder) (uncompressedSize : ℕ) : Bytes :=
  [if coder.needDictionaryReset then 1 else 2, UInt8.ofNat ((uncompressedSize - 1) >>> 8),
    UInt8.ofNat ((uncompressedSize - 1) &&& 0xFF)]

end Lzma2Encoder

/-- `lzma2_encoder_options_update`. Options that would be refused are not `LzmaProps`. -/
def Lzma2Encoder.optionsUpdate (coder : Lzma2Encoder) (props : LzmaProps) : Lzma2Encoder :=
  if coder.props ≠ props then
    { coder with props := props, needProperties := true, needStateReset := true }
  else coder

/-- What decides about a chunk: the data it encodes, the choices that parse them, and the
data the optimiser had read ahead when the chunk was ended. -/
structure Lzma2Chunk where
  data : Bytes
  choices : List (ℕ × ℕ)
  readAhead : Bytes

/-- What is asked of the encoder between two chunks. -/
inductive Lzma2Action
  | options (props : LzmaProps)
  | encode (chunk : Lzma2Chunk)

namespace Lzma2Encoder

/-- The LZMA encoder at the start of a chunk. -/
def chunkLzma (coder : Lzma2Encoder) : LzmaEncoder :=
  if coder.needStateReset then .reset else coder.lzma

/-- What the LZMA encoder makes of a chunk. -/
def compressed (coder : Lzma2Encoder) (history : Bytes) (chunk : Lzma2Chunk) :
    Resumable.Written UInt8 LzmaEncoder :=
  lzmaEncode coder.props (2 ^ 16) coder.chunkLzma history chunk.data chunk.choices

/-- Whether a chunk is stored: the test after the LZMA encoder has ended it. -/
def stores (coder : Lzma2Encoder) (history : Bytes) (chunk : Lzma2Chunk) : Bool :=
  chunk.data.length ≤ (coder.compressed history chunk).out.length

/-- The data that go into a chunk. -/
def consumed (coder : Lzma2Encoder) (history : Bytes) (chunk : Lzma2Chunk) : Bytes :=
  if coder.stores history chunk then chunk.data ++ chunk.readAhead else chunk.data

/-- The bytes of a chunk with its header. -/
def chunkBytes (coder : Lzma2Encoder) (history : Bytes) (chunk : Lzma2Chunk) : Bytes :=
  if coder.stores history chunk then
    coder.headerUncompressed (chunk.data ++ chunk.readAhead).length ++
      (chunk.data ++ chunk.readAhead)
  else
    coder.headerLzma chunk.data.length (coder.compressed history chunk).out.length ++
      (coder.compressed history chunk).out

/-- The encoder after a chunk. -/
def afterChunk (coder : Lzma2Encoder) (history : Bytes) (chunk : Lzma2Chunk) : Lzma2Encoder :=
  let lzma := (coder.compressed history chunk).state
  if coder.stores history chunk then
    { coder with lzma := lzma, needStateReset := true, needDictionaryReset := false }
  else ⟨lzma, coder.props, false, false, false⟩

/-- `lzma2_encode` until everything has been encoded, with the end marker. -/
def lzma2Encode (coder : Lzma2Encoder) (history : Bytes) : List Lzma2Action → Bytes
  | [] => [0]
  | .options props :: actions => (coder.optionsUpdate props).lzma2Encode history actions
  | .encode chunk :: actions =>
      coder.chunkBytes history chunk ++
        (coder.afterChunk history chunk).lzma2Encode
          ((coder.consumed history chunk).reverse ++ history) actions

/-- The data that are encoded. -/
def lzma2Data (coder : Lzma2Encoder) (history : Bytes) : List Lzma2Action → Bytes
  | [] => []
  | .options props :: actions => (coder.optionsUpdate props).lzma2Data history actions
  | .encode chunk :: actions =>
      coder.consumed history chunk ++
        (coder.afterChunk history chunk).lzma2Data
          ((coder.consumed history chunk).reverse ++ history) actions

/-- What a chunk is, by what the encoder does: the choices parse its data, and none of them
was made where the chunk had to be ended. -/
structure ChunkParses (window : ℕ) (coder : Lzma2Encoder) (history : Bytes)
    (chunk : Lzma2Chunk) : Prop where
  parses : Parses coder.props window coder.chunkLzma.model history chunk.data chunk.choices
  goesOn : GoesOn coder.props 0 0 coder.chunkLzma history chunk.data chunk.choices

/-- A chunk that also keeps what the encoder asserts: it is not empty, and if it is stored it
has the size of such a chunk. -/
structure ChunkFits (window : ℕ) (coder : Lzma2Encoder) (history : Bytes)
    (chunk : Lzma2Chunk) : Prop extends ChunkParses window coder history chunk where
  nonempty : chunk.data ≠ []
  stored_le : coder.stores history chunk → (chunk.data ++ chunk.readAhead).length ≤ 2 ^ 16

/-- Something holds of every chunk, in the state in which it is started. -/
def AllChunks (P : Lzma2Encoder → Bytes → Lzma2Chunk → Prop) (coder : Lzma2Encoder)
    (history : Bytes) : List Lzma2Action → Prop
  | [] => True
  | .options props :: actions => (coder.optionsUpdate props).AllChunks P history actions
  | .encode chunk :: actions =>
      P coder history chunk ∧
        (coder.afterChunk history chunk).AllChunks P
          ((coder.consumed history chunk).reverse ++ history) actions

/-- Every chunk is parsed. -/
def ChunksParse (window : ℕ) : Lzma2Encoder → Bytes → List Lzma2Action → Prop :=
  AllChunks (ChunkParses window)

/-- Every chunk is parsed and keeps the assertions. -/
def ChunksFit (window : ℕ) : Lzma2Encoder → Bytes → List Lzma2Action → Prop :=
  AllChunks (ChunkFits window)

/-- A chunk is started with a fresh range encoder. -/
theorem chunkLzma_rc {coder : Lzma2Encoder} (hrc : coder.lzma.rc = rcReset) :
    coder.chunkLzma.rc = rcReset ∧ 1 ≤ coder.chunkLzma.rc.cacheSize := by
  have hchunk : coder.chunkLzma.rc = rcReset := by
    rw [chunkLzma]
    split
    · rfl
    · exact hrc
  refine ⟨hchunk, ?_⟩
  rw [hchunk]
  exact le_rfl

/-- What the LZMA encoder makes of a chunk: the sizes fit its header, and the buffer holds
everything that is written. -/
theorem ChunkParses.fits {window : ℕ} {coder : Lzma2Encoder} {history : Bytes}
    {chunk : Lzma2Chunk} (hchunk : coder.ChunkParses window history chunk)
    (hrc : coder.lzma.rc = rcReset) {bits : List LzmaBit} {model : LzmaModel}
    (hbits : chunkBits coder.props coder.chunkLzma.model history chunk.data chunk.choices =
      (bits, model)) :
    chunk.data.length ≤ 2 ^ 21 ∧ (coder.compressed history chunk).out.length ≤ 2 ^ 16 ∧
      coder.compressed history chunk =
        ⟨false, rcReset.encodeText coder.chunkLzma.probs bits 5,
          ⟨rcReset, rcUpdates coder.chunkLzma.probs bits, model⟩⟩ := by
  obtain ⟨hreset, hcached⟩ := chunkLzma_rc hrc
  obtain ⟨hdata, hbytes⟩ := hchunk.goesOn.fits hcached hchunk.parses (Nat.zero_le _) (by
    rw [hreset]
    decide)
  rw [Nat.zero_add] at hdata hbytes
  refine ⟨hdata, ?_⟩
  have hfills := fills_lzmaEncode coder.props (2 ^ 16) coder.chunkLzma hcached history
    chunk.data chunk.choices
  rw [compressed]
  generalize lzmaEncode coder.props (2 ^ 16) coder.chunkLzma history chunk.data chunk.choices =
    written at hfills ⊢
  cases hfills with
  | stopped hroom hpaused => exact absurd hbytes (Nat.not_le.mpr hroom)
  | finished hroom hdone =>
      refine ⟨hroom, ?_⟩
      subst hdone
      rw [hbits, hreset]

/-- A chunk leaves the range encoder as it found it. -/
theorem ChunkParses.rc_afterChunk {window : ℕ} {coder : Lzma2Encoder} {history : Bytes}
    {chunk : Lzma2Chunk} (hchunk : coder.ChunkParses window history chunk)
    (hrc : coder.lzma.rc = rcReset) : (coder.afterChunk history chunk).lzma.rc = rcReset := by
  obtain ⟨-, -, hcompressed⟩ := hchunk.fits hrc rfl
  rw [afterChunk, hcompressed]
  split
  · rfl
  · rfl

theorem rc_optionsUpdate (coder : Lzma2Encoder) (props : LzmaProps) :
    (coder.optionsUpdate props).lzma.rc = coder.lzma.rc := by
  rw [optionsUpdate]
  split
  · rfl
  · rfl

/-- What the buffers of a chunk hold: `rc_encode` has not run out of room, the sizes are
those the asserts allow, and a chunk takes no more bytes than the data in it and the
longest header that saves a byte. -/
structure Buffered (coder : Lzma2Encoder) (history : Bytes) (chunk : Lzma2Chunk) : Prop where
  uncompressed : chunk.data.length ≤ 2 ^ 21
  buffer : (coder.compressed history chunk).full = false
  compressed : (coder.compressed history chunk).out.length ≤ 2 ^ 16
  expansion : (coder.chunkBytes history chunk).length ≤ (coder.consumed history chunk).length + 5

theorem ChunkParses.buffered {window : ℕ} {coder : Lzma2Encoder} {history : Bytes}
    {chunk : Lzma2Chunk} (hchunk : coder.ChunkParses window history chunk)
    (hrc : coder.lzma.rc = rcReset) : coder.Buffered history chunk := by
  obtain ⟨hdata, hout, hcompressed⟩ := hchunk.fits hrc rfl
  refine ⟨hdata, congrArg Resumable.Written.full hcompressed, hout, ?_⟩
  rw [chunkBytes, consumed]
  by_cases hstores : coder.stores history chunk
  · rw [if_pos hstores, if_pos hstores, List.length_append, headerUncompressed]
    simp only [List.length_cons, List.length_nil]
    omega
  · have hheader (size compressedSize : ℕ) :
        (coder.headerLzma size compressedSize).length ≤ 6 := by
      rw [headerLzma]
      split <;> simp
    have hsix := hheader chunk.data.length (coder.compressed history chunk).out.length
    rw [if_neg hstores, if_neg hstores, List.length_append]
    rw [stores, decide_eq_true_iff, Nat.not_le] at hstores
    omega

/-- **The buffer is big enough.** In no chunk of any run does `rc_encode` run out of room, as
the comment in `lzma_lzma_encode` has it. -/
theorem allChunks_buffered {window : ℕ} {coder : Lzma2Encoder} {history : Bytes}
    {actions : List Lzma2Action} (hrc : coder.lzma.rc = rcReset)
    (hparse : coder.ChunksParse window history actions) :
    coder.AllChunks Buffered history actions := by
  induction actions generalizing coder history with
  | nil => trivial
  | cons action actions ih =>
      cases action with
      | options props => exact ih ((rc_optionsUpdate coder props).trans hrc) hparse
      | encode chunk =>
          obtain ⟨hchunk, hlater⟩ := hparse
          exact ⟨hchunk.buffered hrc, ih (hchunk.rc_afterChunk hrc) hlater⟩

end Lzma2Encoder

/-- The default properties. -/
def sampleProps : LzmaProps := ⟨3, 0, 2, by decide, by decide⟩

/-- A literal, and a match that repeats it. -/
def sampleChunk : Lzma2Chunk := ⟨List.replicate 12 97, [(2 ^ 32 - 1, 1), (0, 11)], []⟩

theorem chunkParses_sample :
    (Lzma2Encoder.init sampleProps).ChunkParses 4096 [] sampleChunk := by
  have hliteral : Chooses 4096 [] sampleChunk.data 0 (2 ^ 32 - 1) 1 :=
    ⟨.inl rfl, by decide, fun _ => rfl, fun hmatch => absurd rfl hmatch⟩
  have hmatch : Chooses 4096 [97] (List.replicate 11 97) 0 0 11 :=
    ⟨.inr (.inl ⟨by decide, .inl ⟨by decide, by decide⟩⟩), by decide,
      fun hback => (by cases hback), fun _ => ⟨by decide, rfl⟩⟩
  exact ⟨⟨hliteral, hmatch, rfl⟩, by decide +kernel, by decide +kernel, trivial⟩

theorem chunksFit_sample :
    (Lzma2Encoder.init sampleProps).ChunksFit 4096 [] [.encode sampleChunk] :=
  ⟨⟨chunkParses_sample, List.cons_ne_nil _ _, fun _ => by decide⟩, trivial⟩

theorem allChunks_buffered_sample :
    (Lzma2Encoder.init sampleProps).AllChunks Lzma2Encoder.Buffered [] [.encode sampleChunk] :=
  Lzma2Encoder.allChunks_buffered rfl ⟨chunkParses_sample, trivial⟩

end Dht
