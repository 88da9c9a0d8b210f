/-
# The index

Behind the blocks of a stream follows a list of their sizes. The decoder does not keep the
sizes of the blocks it has decoded: `lzma_index_hash` adds them up and hashes them, does
the same with the sizes it reads from the index, and compares.

The index may come in pieces of any size. `lzma_index_hash_decode` computes the CRC32 of it
piece by piece, up to the place where a call ends or the padding does. However the pieces
are cut, the index that the encoder writes for the blocks is accepted, and nothing behind
it is read.
-/

import Dht.Lib.Loop
import Dht.Liblzma.StreamFlags
import Dht.Liblzma.Vli
import Mathlib.Data.List.Induction

namespace Dht

/-- `vli_ceil4`. -/
def vliCeil4 (vli : ℕ) : ℕ := (vli + 3) / 4 * 4

/-- `index_size_unpadded`. -/
def indexSizeUnpadded (count indexListSize : ℕ) : ℕ := 1 + vliSize count + indexListSize + 4

/-- `index_size`. -/
def indexSize (count indexListSize : ℕ) : ℕ := vliCeil4 (indexSizeUnpadded count indexListSize)

/-- `index_stream_size`. -/
def indexStreamSize (blocksSize count indexListSize : ℕ) : ℕ :=
  streamHeaderSize + blocksSize + indexSize count indexListSize + streamHeaderSize

/-- `UNPADDED_SIZE_MIN`. -/
def unpaddedSizeMin : ℕ := 5

/-- `UNPADDED_SIZE_MAX`. -/
def unpaddedSizeMax : ℕ := vliMax / 4 * 4

/-- The sizes of a block. -/
structure IndexRecord where
  unpaddedSize : ℕ
  uncompressedSize : ℕ
  deriving DecidableEq

/-- `lzma_index_hash_info`; `check` is what has been given to the hash. -/
structure IndexInfo where
  blocksSize : ℕ
  uncompressedSize : ℕ
  count : ℕ
  indexListSize : ℕ
  check : List IndexRecord
  deriving DecidableEq

/-- `hash_append`. -/
def IndexInfo.hashAppend (info : IndexInfo) (record : IndexRecord) : IndexInfo where
  blocksSize := info.blocksSize + vliCeil4 record.unpaddedSize
  uncompressedSize := info.uncompressedSize + record.uncompressedSize
  count := info.count + 1
  indexListSize := info.indexListSize + (vliSize record.unpaddedSize +
    vliSize record.uncompressedSize)
  check := info.check ++ [record]

/-- `sequence` of `lzma_index_hash`. -/
inductive IndexSequence
  | block | count | unpadded | uncompressed | paddingInit | padding | crc32
  deriving DecidableEq

/-- `lzma_index_hash`. -/
structure IndexHash where
  sequence : IndexSequence
  blocks : IndexInfo
  records : IndexInfo
  remaining : ℕ
  unpaddedSize : ℕ
  uncompressedSize : ℕ
  pos : ℕ
  crc32 : BitVec 32
  deriving DecidableEq

/-- `lzma_index_hash_decode` inside its loop: what is left of the input, and what has been
read since `in_start`. -/
structure IndexLoop where
  hash : IndexHash
  input : Bytes
  taken : Bytes

namespace IndexHash

/-- `lzma_index_hash_init`, which leaves `remaining` as it is. -/
def init (remaining : ℕ) : IndexHash :=
  ⟨.block, ⟨0, 0, 0, 0, []⟩, ⟨0, 0, 0, 0, []⟩, remaining, 0, 0, 0, 0⟩

/-- `lzma_index_hash_size`. -/
def size (hash : IndexHash) : ℕ := indexSize hash.blocks.count hash.blocks.indexListSize

/-- `lzma_index_hash_append`. -/
def append (hash : IndexHash) (record : IndexRecord) : LzmaRet × IndexHash :=
  if hash.sequence ≠ .block ∨ record.unpaddedSize < unpaddedSizeMin ∨
      unpaddedSizeMax < record.unpaddedSize ∨ vliMax < record.uncompressedSize then
    (.progError, hash)
  else
    let blocks := hash.blocks.hashAppend record
    let ret :=
      if vliMax < blocks.blocksSize ∨ vliMax < blocks.uncompressedSize ∨
          2 ^ 34 < indexSize blocks.count blocks.indexListSize ∨
          vliMax < indexStreamSize blocks.blocksSize blocks.count blocks.indexListSize then
        .dataError
      else .ok
    (ret, { hash with blocks := blocks })

/-- The loop of `SEQ_CRC32`. -/
def crcLoop (hash : IndexHash) : Bytes → LzmaRet × IndexHash × Bytes
  | [] => (.ok, hash, [])
  | byte :: input =>
      if crcByte hash.pos hash.crc32 ≠ byte.toBitVec then (.dataError, hash, input)
      else if hash.pos + 1 < 4 then crcLoop { hash with pos := hash.pos + 1 } input
      else (.streamEnd, { hash with pos := hash.pos + 1 }, input)

end IndexHash

namespace IndexLoop

variable {Digest : Type} [DecidableEq Digest] (digest : List IndexRecord → Digest)

/-- The label `out`. -/
def finish (loop : IndexLoop) (ret : LzmaRet) : LzmaRet × IndexHash × Bytes :=
  (ret, { loop.hash with crc32 := Dht.crc32 loop.taken loop.hash.crc32 }, loop.input)

/-- `return LZMA_DATA_ERROR`. -/
def refuse (loop : IndexLoop) : LzmaRet × IndexHash × Bytes := (.dataError, loop.hash, loop.input)

/-- A call of `lzma_vli_decode` for one of the variables. -/
def decodeVli (loop : IndexLoop) (current : ℕ) (set : IndexHash → ℕ → IndexHash) :
    LzmaRet × IndexLoop :=
  let (ret, vli, left) := vliDecode ⟨current, loop.hash.pos⟩ loop.input
  (ret, ⟨set { loop.hash with pos := vli.pos } vli.vli, left,
    loop.taken ++ loop.input.take (loop.input.length - left.length)⟩)

/-- `SEQ_COUNT`, behind the call. -/
def decodedCount (loop : IndexLoop) : IndexLoop ⊕ LzmaRet × IndexHash × Bytes :=
  if loop.hash.remaining ≠ loop.hash.blocks.count then .inr loop.refuse
  else
    .inl { loop with hash := { loop.hash with
      pos := 0, sequence := if loop.hash.remaining = 0 then .paddingInit else .unpadded } }

/-- `SEQ_UNPADDED`, behind the call. -/
def decodedUnpadded (loop : IndexLoop) : IndexLoop ⊕ LzmaRet × IndexHash × Bytes :=
  if loop.hash.unpaddedSize < unpaddedSizeMin ∨ unpaddedSizeMax < loop.hash.unpaddedSize then
    .inr loop.refuse
  else .inl { loop with hash := { loop.hash with pos := 0, sequence := .uncompressed } }

/-- `SEQ_UNCOMPRESSED`, behind the call. -/
def decodedUncompressed (loop : IndexLoop) : IndexLoop ⊕ LzmaRet × IndexHash × Bytes :=
  let hash := loop.hash
  let records := hash.records.hashAppend ⟨hash.unpaddedSize, hash.uncompressedSize⟩
  if hash.blocks.blocksSize < records.blocksSize ∨
      hash.blocks.uncompressedSize < records.uncompressedSize ∨
      hash.blocks.indexListSize < records.indexListSize then
    .inr loop.refuse
  else
    .inl { loop with hash := { hash with
      pos := 0, records := records, remaining := hash.remaining - 1,
      sequence := if hash.remaining - 1 = 0 then .paddingInit else .unpadded } }

/-- `SEQ_PADDING` with the next byte and what is behind it. -/
def padding (loop : IndexLoop) (byte : UInt8) (input : Bytes) :
    IndexLoop ⊕ LzmaRet × IndexHash × Bytes :=
  let hash := loop.hash
  if 0 < hash.pos then
    let hash := { hash with pos := hash.pos - 1 }
    if byte ≠ 0 then .inr (.dataError, hash, input)
    else .inl ⟨hash, input, loop.taken ++ [byte]⟩
  else if hash.blocks.blocksSize ≠ hash.records.blocksSize ∨
      hash.blocks.uncompressedSize ≠ hash.records.uncompressedSize ∨
      hash.blocks.indexListSize ≠ hash.records.indexListSize then
    .inr loop.refuse
  else if digest hash.blocks.check ≠ digest hash.records.check then .inr loop.refuse
  else
    let crc := Dht.crc32 loop.taken hash.crc32
    .inr (IndexHash.crcLoop { hash with crc32 := crc, sequence := .crc32 } loop.input)

/-- The padding that makes the index a multiple of four bytes long. -/
def paddingInit (loop : IndexLoop) : IndexLoop :=
  let records := loop.hash.records
  { loop with hash := { loop.hash with
    pos := (4 - indexSizeUnpadded records.count records.indexListSize % 4) % 4,
    sequence := .padding } }

/-- One turn. -/
def turn (loop : IndexLoop) : IndexLoop ⊕ LzmaRet × IndexHash × Bytes :=
  match loop.input with
  | [] => .inr (loop.finish .ok)
  | byte :: input =>
      match loop.hash.sequence with
      | .block =>
          if byte ≠ 0 then .inr (.dataError, loop.hash, input)
          else .inl ⟨{ loop.hash with sequence := .count }, input, loop.taken ++ [byte]⟩
      | .count =>
          let (ret, loop) := loop.decodeVli loop.hash.remaining
            fun hash value => { hash with remaining := value }
          if ret ≠ .streamEnd then .inr (loop.finish ret) else loop.decodedCount
      | .unpadded =>
          let (ret, loop) := loop.decodeVli loop.hash.unpaddedSize
            fun hash value => { hash with unpaddedSize := value }
          if ret ≠ .streamEnd then .inr (loop.finish ret) else loop.decodedUnpadded
      | .uncompressed =>
          let (ret, loop) := loop.decodeVli loop.hash.uncompressedSize
            fun hash value => { hash with uncompressedSize := value }
          if ret ≠ .streamEnd then .inr (loop.finish ret) else loop.decodedUncompressed
      | .paddingInit => loop.paddingInit.padding digest byte input
      | .padding => loop.padding digest byte input
      | .crc32 => .inr (loop.hash.crcLoop loop.input)

end IndexLoop

/-- `lzma_index_hash_decode`; the hash that the sizes are given to is a parameter. -/
def IndexHash.decode {Digest : Type} [DecidableEq Digest] (digest : List IndexRecord → Digest)
    (hash : IndexHash) (input : Bytes) : Outcome (LzmaRet × IndexHash × Bytes) :=
  if input = [] then .ok (.bufError, hash, input)
  else
    (Loop.runFor (Loop.fallible fun loop => .ok (IndexLoop.turn digest loop))
      (input.length + 1) ⟨hash, input, []⟩).getD undefined

/-! ## The bytes of an index -/

/-- The sums and the hash of some sizes. -/
def indexInfo (records : List IndexRecord) : IndexInfo :=
  records.foldl IndexInfo.hashAppend ⟨0, 0, 0, 0, []⟩

def recordText (record : IndexRecord) : Bytes :=
  vliText record.unpaddedSize ++ vliText record.uncompressedSize

def recordsText (records : List IndexRecord) : Bytes := records.flatMap recordText

/-- `lzma_index_padding_size`. -/
def indexPadding (records : List IndexRecord) : ℕ :=
  (4 - indexSizeUnpadded (indexInfo records).count (indexInfo records).indexListSize % 4) % 4

/-- The index up to its CRC32. -/
def indexBody (records : List IndexRecord) : Bytes :=
  0 :: (vliText records.length ++ (recordsText records ++
    List.replicate (indexPadding records) 0))

/-- What `index_encode` writes. -/
def indexEncode (records : List IndexRecord) : Bytes :=
  indexBody records ++ write32le (crc32 (indexBody records) 0)

section Info

theorem indexInfo_concat (records : List IndexRecord) (record : IndexRecord) :
    indexInfo (records ++ [record]) = (indexInfo records).hashAppend record := by
  rw [indexInfo, List.foldl_append]
  rfl

theorem count_indexInfo (records : List IndexRecord) :
    (indexInfo records).count = records.length := by
  induction records using List.reverseRecOn with
  | nil => rfl
  | append_singleton records record ih =>
      rw [indexInfo_concat, List.length_append]
      exact congrArg (· + 1) ih

/-- The sums over a front are not greater. -/
theorem indexInfo_append_le (front back : List IndexRecord) :
    (indexInfo front).blocksSize ≤ (indexInfo (front ++ back)).blocksSize ∧
      (indexInfo front).uncompressedSize ≤ (indexInfo (front ++ back)).uncompressedSize ∧
      (indexInfo front).indexListSize ≤ (indexInfo (front ++ back)).indexListSize := by
  induction back using List.reverseRecOn with
  | nil =>
      rw [List.append_nil]
      exact ⟨le_rfl, le_rfl, le_rfl⟩
  | append_singleton back record ih =>
      rw [← List.append_assoc, indexInfo_concat]
      exact ⟨ih.1.trans (Nat.le_add_right _ _), ih.2.1.trans (Nat.le_add_right _ _),
        ih.2.2.trans (Nat.le_add_right _ _)⟩

/-- `lzma_crc32` of two pieces. -/
theorem crc32_append (first second : Bytes) (crc : BitVec 32) :
    crc32 (first ++ second) crc = crc32 second (crc32 first crc) := by
  rw [crc32, crc32, crc32, crcSmall, crcSmall, crcSmall, List.foldl_append, BitVec.not_not]

end Info

/-! ## Reading it -/

/-- The sizes that `lzma_index_hash_append` accepts. -/
structure IndexRecord.Valid (record : IndexRecord) : Prop where
  unpadded : unpaddedSizeMin ≤ record.unpaddedSize ∧ record.unpaddedSize ≤ unpaddedSizeMax
  uncompressed : record.uncompressedSize ≤ vliMax

namespace IndexHash

/-- Where the decoder is in the index, and what is left of it up to the CRC32. -/
inductive Phase (all : List IndexRecord) (hash : IndexHash) : Bytes → Prop
  | block (sequence_eq : hash.sequence = .block) (pos_eq : hash.pos = 0)
      (records_eq : hash.records = indexInfo []) :
      Phase all hash (indexBody all)
  | count {stream : Bytes} (sequence_eq : hash.sequence = .count)
      (records_eq : hash.records = indexInfo [])
      (awaits : (⟨hash.remaining, hash.pos⟩ : VliState).begun.Awaits all.length stream) :
      Phase all hash (stream ++ (recordsText all ++ List.replicate (indexPadding all) 0))
  | unpadded {front back : List IndexRecord} {record : IndexRecord} {stream : Bytes}
      (sequence_eq : hash.sequence = .unpadded) (all_eq : all = front ++ [record] ++ back)
      (records_eq : hash.records = indexInfo front)
      (remaining_eq : hash.remaining = back.length + 1)
      (awaits : (⟨hash.unpaddedSize, hash.pos⟩ : VliState).begun.Awaits record.unpaddedSize
        stream) :
      Phase all hash (stream ++ (vliText record.uncompressedSize ++ (recordsText back ++
        List.replicate (indexPadding all) 0)))
  | uncompressed {front back : List IndexRecord} {record : IndexRecord} {stream : Bytes}
      (sequence_eq : hash.sequence = .uncompressed) (all_eq : all = front ++ [record] ++ back)
      (records_eq : hash.records = indexInfo front)
      (remaining_eq : hash.remaining = back.length + 1)
      (unpadded_eq : hash.unpaddedSize = record.unpaddedSize)
      (awaits : (⟨hash.uncompressedSize, hash.pos⟩ : VliState).begun.Awaits
        record.uncompressedSize stream) :
      Phase all hash (stream ++ (recordsText back ++ List.replicate (indexPadding all) 0))
  | paddingInit (sequence_eq : hash.sequence = .paddingInit)
      (records_eq : hash.records = indexInfo all) :
      Phase all hash (List.replicate (indexPadding all) 0)
  | padding (sequence_eq : hash.sequence = .padding) (records_eq : hash.records = indexInfo all) :
      Phase all hash (List.replicate hash.pos 0)

/-- The decoder in front of the rest of the CRC32. -/
structure AtCrc (all : List IndexRecord) (hash : IndexHash) (stream : Bytes) : Prop where
  sequence_eq : hash.sequence = .crc32
  crc_eq : hash.crc32 = Dht.crc32 (indexBody all) 0
  pos_lt : hash.pos < 4
  stream_eq : stream = (write32le hash.crc32).drop hash.pos

/-- The decoder has decoded the blocks, and awaits the rest of their index. -/
inductive Awaits (all : List IndexRecord) (hash : IndexHash) (stream : Bytes) : Prop
  | body {read rest : Bytes} (blocks_eq : hash.blocks = indexInfo all) (phase : hash.Phase all rest)
      (body_eq : read ++ rest = indexBody all) (crc_eq : hash.crc32 = Dht.crc32 read 0)
      (stream_eq : stream = rest ++ write32le (Dht.crc32 (indexBody all) 0))
  | crc (atCrc : hash.AtCrc all stream)

/-- The sums and the position do not depend on the CRC32. -/
theorem Phase.setCrc {all : List IndexRecord} {hash : IndexHash} {rest : Bytes}
    (hphase : hash.Phase all rest) (crc : BitVec 32) :
    ({ hash with crc32 := crc } : IndexHash).Phase all rest := by
  cases hphase with
  | block hsequence hpos hrecords => exact .block hsequence hpos hrecords
  | count hsequence hrecords hawaits => exact .count hsequence hrecords hawaits
  | unpadded hsequence hall hrecords hremaining hawaits =>
      exact .unpadded hsequence hall hrecords hremaining hawaits
  | uncompressed hsequence hall hrecords hremaining hunpadded hawaits =>
      exact .uncompressed hsequence hall hrecords hremaining hunpadded hawaits
  | paddingInit hsequence hrecords => exact .paddingInit hsequence hrecords
  | padding hsequence hrecords => exact .padding hsequence hrecords

/-- What a call may leave: it has read all of its input and awaits more, or it has read the
index and nothing behind it. -/
inductive Left (all : List IndexRecord) (later more : Bytes) : LzmaRet × IndexHash × Bytes → Prop
  | pause {hash : IndexHash} {still : Bytes} (awaits : hash.Awaits all still)
      (later_eq : later = still ++ more) : Left all later more (.ok, hash, [])
  | done {hash : IndexHash} {unread : Bytes} (more_eq : unread ++ later = more) :
      Left all later more (.streamEnd, hash, unread)

/-- The bytes of the CRC32. -/
theorem drop_write32le (number : BitVec 32) {pos : ℕ} (hpos : pos < 4) :
    (write32le number).drop pos =
      .ofBitVec (crcByte pos number) :: (write32le number).drop (pos + 1) := by
  match pos, hpos with
  | 0, _ => rfl
  | 1, _ => rfl
  | 2, _ => rfl
  | 3, _ => rfl

theorem AtCrc.crcLoop {all : List IndexRecord} {hash : IndexHash}
    {stream input later more : Bytes} (hcrc : hash.AtCrc all stream)
    (htotal : input ++ later = stream ++ more) :
    Left all later more (hash.crcLoop input) := by
  induction input generalizing hash stream with
  | nil => exact .pause (.crc hcrc) htotal
  | cons byte input ih =>
      rw [hcrc.stream_eq, drop_write32le _ hcrc.pos_lt, List.cons_append,
        List.cons_append] at htotal
      obtain ⟨rfl, hrest⟩ := List.cons.inj htotal
      rw [IndexHash.crcLoop, if_neg (not_not.mpr rfl)]
      by_cases hmore : hash.pos + 1 < 4
      · rw [if_pos hmore]
        exact ih ⟨hcrc.sequence_eq, hcrc.crc_eq, hmore, rfl⟩ hrest
      · rw [if_neg hmore]
        have hend : (write32le hash.crc32).drop (hash.pos + 1) = [] :=
          List.drop_of_length_le (Nat.not_lt.mp hmore)
        rw [hend] at hrest
        exact .done hrest

end IndexHash

namespace IndexLoop

/-- The loop inside the index. -/
inductive Decodes (all : List IndexRecord) (later more : Bytes) (loop : IndexLoop) : Prop
  | body {read rest : Bytes} (blocks_eq : loop.hash.blocks = indexInfo all)
      (phase : loop.hash.Phase all rest) (body_eq : read ++ rest = indexBody all)
      (crc_eq : crc32 loop.taken loop.hash.crc32 = crc32 read 0)
      (total : loop.input ++ later =
        rest ++ (write32le (crc32 (indexBody all) 0) ++ more))
  | crc {stream : Bytes} (atCrc : loop.hash.AtCrc all stream) (input_ne : loop.input ≠ [])
      (total : loop.input ++ later = stream ++ more)

section Turn

variable {all : List IndexRecord} {loop : IndexLoop} {later more read rest : Bytes}

/-- The CRC32 of what has been read goes on. -/
theorem crc_taken (hcrc : crc32 loop.taken loop.hash.crc32 = crc32 read 0) (bytes : Bytes) :
    crc32 (loop.taken ++ bytes) loop.hash.crc32 = crc32 (read ++ bytes) 0 := by
  rw [crc32_append, hcrc, crc32_append]

/-- A number is read to its end, or all of the input is and more is awaited. -/
theorem decodeVli_cases (set : IndexHash → ℕ → IndexHash) {current value : ℕ} {stream : Bytes}
    (hawaits : (⟨current, loop.hash.pos⟩ : VliState).begun.Awaits value stream)
    (hvalue : value ≤ vliMax) (hinput : loop.input ≠ [])
    (htotal : loop.input ++ later = stream ++ more) :
    (∃ pos left, loop.decodeVli current set =
        (.streamEnd, ⟨set { loop.hash with pos := pos } value, left, loop.taken ++ stream⟩) ∧
        left ++ later = more ∧ left.length < loop.input.length) ∨
      ∃ (next : VliState) (still : Bytes), loop.decodeVli current set =
        (.ok, ⟨set { loop.hash with pos := next.pos } next.vli, [], loop.taken ++ loop.input⟩) ∧
        next.begun.Awaits value still ∧ loop.input ++ still = stream ∧ later = still ++ more := by
  have hnonempty : stream ≠ [] := by
    obtain ⟨number, -, rfl, -⟩ := hawaits
    exact vliText_ne_nil number
  obtain ⟨left, pos, hdecode, hleft⟩ | ⟨next, still, hdecode, hnext, hlater⟩ :=
    hawaits.decode hvalue hinput htotal
  · left
    have hsplit : loop.input = stream ++ left := by
      rw [← hleft, ← List.append_assoc] at htotal
      exact List.append_cancel_right htotal
    refine ⟨pos, left, ?_, hleft, ?_⟩
    · rw [decodeVli, hdecode]
      dsimp only
      rw [hsplit, List.length_append, Nat.add_sub_cancel, List.take_left]
    · rw [hsplit, List.length_append]
      have hpos := List.length_pos_iff.mpr hnonempty
      omega
  · right
    refine ⟨next, still, ?_, hnext, ?_, hlater⟩
    · rw [decodeVli, hdecode]
      dsimp only
      rw [List.length_nil, Nat.sub_zero, List.take_length]
    · rw [hlater, ← List.append_assoc] at htotal
      exact List.append_cancel_right htotal

section Turns

variable {Digest : Type} [DecidableEq Digest] (digest : List IndexRecord → Digest)

theorem turn_block {byte : UInt8} {input : Bytes} (hinput : loop.input = byte :: input)
    (hsequence : loop.hash.sequence = .block) :
    loop.turn digest =
      if byte ≠ 0 then .inr (.dataError, loop.hash, input)
      else .inl ⟨{ loop.hash with sequence := .count }, input, loop.taken ++ [byte]⟩ := by
  rw [turn, hinput]
  dsimp only
  rw [hsequence]

theorem turn_count (hinput : loop.input ≠ []) (hsequence : loop.hash.sequence = .count) :
    loop.turn digest =
      let coded := loop.decodeVli loop.hash.remaining
        fun hash value => { hash with remaining := value }
      if coded.1 ≠ .streamEnd then .inr (coded.2.finish coded.1) else coded.2.decodedCount := by
  obtain ⟨byte, input, hcons⟩ := List.exists_cons_of_ne_nil hinput
  rw [turn, hcons]
  dsimp only
  rw [hsequence]

theorem turn_unpadded (hinput : loop.input ≠ []) (hsequence : loop.hash.sequence = .unpadded) :
    loop.turn digest =
      let coded := loop.decodeVli loop.hash.unpaddedSize
        fun hash value => { hash with unpaddedSize := value }
      if coded.1 ≠ .streamEnd then .inr (coded.2.finish coded.1)
      else coded.2.decodedUnpadded := by
  obtain ⟨byte, input, hcons⟩ := List.exists_cons_of_ne_nil hinput
  rw [turn, hcons]
  dsimp only
  rw [hsequence]

theorem turn_uncompressed (hinput : loop.input ≠ [])
    (hsequence : loop.hash.sequence = .uncompressed) :
    loop.turn digest =
      let coded := loop.decodeVli loop.hash.uncompressedSize
        fun hash value => { hash with uncompressedSize := value }
      if coded.1 ≠ .streamEnd then .inr (coded.2.finish coded.1)
      else coded.2.decodedUncompressed := by
  obtain ⟨byte, input, hcons⟩ := List.exists_cons_of_ne_nil hinput
  rw [turn, hcons]
  dsimp only
  rw [hsequence]

theorem turn_paddingInit {byte : UInt8} {input : Bytes} (hinput : loop.input = byte :: input)
    (hsequence : loop.hash.sequence = .paddingInit) :
    loop.turn digest = loop.paddingInit.padding digest byte input := by
  rw [turn, hinput]
  dsimp only
  rw [hsequence]

theorem turn_padding {byte : UInt8} {input : Bytes} (hinput : loop.input = byte :: input)
    (hsequence : loop.hash.sequence = .padding) :
    loop.turn digest = loop.padding digest byte input := by
  rw [turn, hinput]
  dsimp only
  rw [hsequence]

theorem turn_crc (hinput : loop.input ≠ []) (hsequence : loop.hash.sequence = .crc32) :
    loop.turn digest = .inr (loop.hash.crcLoop loop.input) := by
  obtain ⟨byte, input, hcons⟩ := List.exists_cons_of_ne_nil hinput
  rw [turn, hcons]
  dsimp only
  rw [hsequence]

theorem turn_nil (hinput : loop.input = []) : loop.turn digest = .inr (loop.finish .ok) := by
  rw [turn, hinput]

end Turns

/-- What a turn may do. -/
inductive Steps (all : List IndexRecord) (later more : Bytes) (loop : IndexLoop) :
    IndexLoop ⊕ LzmaRet × IndexHash × Bytes → Prop
  | next {next : IndexLoop} (decodes : next.Decodes all later more)
      (input_lt : next.input.length < loop.input.length) : Steps all later more loop (.inl next)
  | leave {left : LzmaRet × IndexHash × Bytes} (left_of : IndexHash.Left all later more left) :
      Steps all later more loop (.inr left)

/-- A call that has used up its input. -/
theorem left_finish (hblocks : loop.hash.blocks = indexInfo all) (hphase : loop.hash.Phase all rest)
    (hbody : read ++ rest = indexBody all)
    (hcrc : crc32 loop.taken loop.hash.crc32 = crc32 read 0) (hinput : loop.input = [])
    (hlater : later = rest ++ (write32le (crc32 (indexBody all) 0) ++ more)) :
    IndexHash.Left all later more (loop.finish .ok) := by
  rw [finish, hinput]
  refine .pause (.body hblocks (hphase.setCrc _) hbody hcrc rfl) ?_
  rw [hlater, List.append_assoc]

/-- The next record, or the padding. -/
theorem phase_records {front back : List IndexRecord} {hash : IndexHash}
    (hall : all = front ++ back) (hrecords : hash.records = indexInfo front)
    (hremaining : hash.remaining = back.length) (hpos : hash.pos = 0)
    (hsequence : hash.sequence = if back.length = 0 then .paddingInit else .unpadded) :
    hash.Phase all (recordsText back ++ List.replicate (indexPadding all) 0) := by
  cases back with
  | nil =>
      rw [List.append_nil] at hall
      rw [← hall] at hrecords
      exact .paddingInit hsequence hrecords
  | cons record back =>
      have hall' : all = front ++ [record] ++ back := by rw [hall, List.append_assoc]; rfl
      have hbegun : (⟨hash.unpaddedSize, hash.pos⟩ : VliState).begun = ⟨0, 0⟩ := by
        rw [hpos]
        rfl
      have hawaits := awaits_vliText record.unpaddedSize
      rw [← hbegun] at hawaits
      have hphase : hash.Phase all (vliText record.unpaddedSize ++
          (vliText record.uncompressedSize ++ (recordsText back ++
            List.replicate (indexPadding all) 0))) :=
        .unpadded hsequence hall' hrecords hremaining hawaits
      rwa [recordsText, List.flatMap_cons, recordText, List.append_assoc, List.append_assoc]

section Phases

variable {Digest : Type} [DecidableEq Digest] (digest : List IndexRecord → Digest)
  (hblocks : loop.hash.blocks = indexInfo all) (hbody : read ++ rest = indexBody all)
  (hcrc : crc32 loop.taken loop.hash.crc32 = crc32 read 0)

include hblocks hbody hcrc

/-- The padding, and the comparison behind it. -/
theorem steps_padding {byte : UInt8} {input : Bytes} (hinput : loop.input = byte :: input)
    (hsequence : loop.hash.sequence = .padding) (hrecords : loop.hash.records = indexInfo all)
    (hrest : rest = List.replicate loop.hash.pos 0)
    (htotal : loop.input ++ later = rest ++ (write32le (crc32 (indexBody all) 0) ++ more)) :
    Steps all later more loop (loop.padding digest byte input) := by
  rw [padding]
  dsimp only
  by_cases hmore : 0 < loop.hash.pos
  · obtain ⟨count, hcount⟩ := Nat.exists_eq_succ_of_ne_zero (Nat.ne_of_gt hmore)
    rw [hrest, hcount, List.replicate_succ] at hbody
    rw [hrest, hinput, hcount, List.replicate_succ, List.cons_append, List.cons_append] at htotal
    obtain ⟨rfl, htail⟩ := List.cons.inj htotal
    have hnext : read ++ [0] ++ List.replicate (loop.hash.pos - 1) 0 = indexBody all := by
      rw [hcount, List.append_assoc]
      exact hbody
    rw [if_pos hmore, if_neg (not_not.mpr rfl)]
    refine .next (.body hblocks (.padding hsequence hrecords) hnext (crc_taken hcrc [0]) ?_) ?_
    · rw [hcount]
      exact htail
    · rw [hinput]
      exact Nat.lt_succ_self _
  · have hzero : loop.hash.pos = 0 := Nat.eq_zero_of_not_pos hmore
    rw [hrest, hzero, List.replicate_zero] at hbody htotal
    rw [List.append_nil] at hbody
    rw [if_neg hmore, hblocks, hrecords, if_neg (by simp), if_neg (not_not.mpr rfl), hcrc, hbody]
    refine .leave (IndexHash.AtCrc.crcLoop ⟨rfl, rfl, ?_, rfl⟩ ?_)
    · dsimp only
      rw [hzero]
      decide
    · dsimp only
      rw [hzero]
      exact htotal

/-- The byte in front of the index. -/
theorem steps_block {byte : UInt8} {input : Bytes} (hinput : loop.input = byte :: input)
    (hsequence : loop.hash.sequence = .block) (hpos : loop.hash.pos = 0)
    (hrecords : loop.hash.records = indexInfo []) (hrest : rest = indexBody all)
    (htotal : loop.input ++ later = rest ++ (write32le (crc32 (indexBody all) 0) ++ more)) :
    Steps all later more loop (loop.turn digest) := by
  rw [hrest] at hbody
  rw [hrest, hinput, indexBody, List.cons_append, List.cons_append] at htotal
  obtain ⟨rfl, htail⟩ := List.cons.inj htotal
  have hbegun : (⟨loop.hash.remaining, loop.hash.pos⟩ : VliState).begun = ⟨0, 0⟩ := by
    rw [hpos]
    rfl
  have hawaits := awaits_vliText all.length
  rw [← hbegun] at hawaits
  have hnext : read ++ [0] ++ (vliText all.length ++
      (recordsText all ++ List.replicate (indexPadding all) 0)) = indexBody all := by
    rw [List.append_assoc]
    exact hbody
  rw [turn_block digest hinput hsequence, if_neg (not_not.mpr rfl)]
  refine .next (.body hblocks (.count rfl hrecords hawaits) hnext (crc_taken hcrc [0]) htail) ?_
  rw [hinput]
  exact Nat.lt_succ_self _

/-- The number of records. -/
theorem steps_count (hcount : all.length ≤ vliMax) {stream : Bytes} (hinput : loop.input ≠ [])
    (hsequence : loop.hash.sequence = .count) (hrecords : loop.hash.records = indexInfo [])
    (hawaits : (⟨loop.hash.remaining, loop.hash.pos⟩ : VliState).begun.Awaits all.length stream)
    (hrest : rest = stream ++ (recordsText all ++ List.replicate (indexPadding all) 0))
    (htotal : loop.input ++ later = rest ++ (write32le (crc32 (indexBody all) 0) ++ more)) :
    Steps all later more loop (loop.turn digest) := by
  rw [hrest] at hbody
  rw [hrest, List.append_assoc] at htotal
  rw [turn_count digest hinput hsequence]
  dsimp only
  obtain ⟨pos, left, hdecode, hleft, hlt⟩ | ⟨next, still, hdecode, hnext, hstream, hlater⟩ :=
    decodeVli_cases (fun hash value => { hash with remaining := value }) hawaits hcount hinput
      htotal
  · rw [hdecode]
    dsimp only
    rw [if_neg (not_not.mpr rfl), decodedCount]
    dsimp only
    rw [if_neg (not_not.mpr (by rw [hblocks, count_indexInfo]))]
    have hread : read ++ stream ++ (recordsText all ++ List.replicate (indexPadding all) 0) =
        indexBody all := by
      rw [List.append_assoc]
      exact hbody
    refine .next (.body hblocks ?_ hread (crc_taken hcrc stream) hleft) hlt
    exact phase_records (List.nil_append all).symm hrecords rfl rfl rfl
  · rw [hdecode]
    dsimp only
    rw [if_pos (by simp)]
    rw [← hstream, List.append_assoc, ← List.append_assoc] at hbody
    refine .leave (left_finish hblocks (.count hsequence hrecords hnext) hbody
      (crc_taken hcrc loop.input) rfl ?_)
    rw [hlater, List.append_assoc still]

/-- The first size of a record. -/
theorem steps_unpadded {front back : List IndexRecord} {record : IndexRecord}
    (hvalid : record.Valid) {stream : Bytes} (hinput : loop.input ≠ [])
    (hsequence : loop.hash.sequence = .unpadded) (hall : all = front ++ [record] ++ back)
    (hrecords : loop.hash.records = indexInfo front)
    (hremaining : loop.hash.remaining = back.length + 1)
    (hawaits : (⟨loop.hash.unpaddedSize, loop.hash.pos⟩ : VliState).begun.Awaits
      record.unpaddedSize stream)
    (hrest : rest = stream ++ (vliText record.uncompressedSize ++ (recordsText back ++
      List.replicate (indexPadding all) 0)))
    (htotal : loop.input ++ later = rest ++ (write32le (crc32 (indexBody all) 0) ++ more)) :
    Steps all later more loop (loop.turn digest) := by
  have hmax : record.unpaddedSize ≤ vliMax :=
    hvalid.unpadded.2.trans (Nat.div_mul_le_self vliMax 4)
  rw [hrest] at hbody
  rw [hrest, List.append_assoc] at htotal
  rw [turn_unpadded digest hinput hsequence]
  dsimp only
  obtain ⟨pos, left, hdecode, hleft, hlt⟩ | ⟨next, still, hdecode, hnext, hstream, hlater⟩ :=
    decodeVli_cases (fun hash value => { hash with unpaddedSize := value }) hawaits hmax hinput
      htotal
  · rw [hdecode]
    dsimp only
    rw [if_neg (not_not.mpr rfl), decodedUnpadded]
    dsimp only
    rw [if_neg (not_or.mpr ⟨Nat.not_lt.mpr hvalid.unpadded.1, Nat.not_lt.mpr hvalid.unpadded.2⟩)]
    have hread : read ++ stream ++ (vliText record.uncompressedSize ++ (recordsText back ++
        List.replicate (indexPadding all) 0)) = indexBody all := by
      rw [List.append_assoc]
      exact hbody
    refine .next (.body hblocks ?_ hread (crc_taken hcrc stream) hleft) hlt
    exact .uncompressed rfl hall hrecords hremaining rfl (awaits_vliText record.uncompressedSize)
  · rw [hdecode]
    dsimp only
    rw [if_pos (by simp)]
    rw [← hstream, List.append_assoc, ← List.append_assoc] at hbody
    refine .leave (left_finish hblocks (.unpadded hsequence hall hrecords hremaining hnext) hbody
      (crc_taken hcrc loop.input) rfl ?_)
    rw [hlater, List.append_assoc still]

/-- The second size of a record. -/
theorem steps_uncompressed {front back : List IndexRecord} {record : IndexRecord}
    (hvalid : record.Valid) {stream : Bytes} (hinput : loop.input ≠ [])
    (hsequence : loop.hash.sequence = .uncompressed) (hall : all = front ++ [record] ++ back)
    (hrecords : loop.hash.records = indexInfo front)
    (hremaining : loop.hash.remaining = back.length + 1)
    (hunpadded : loop.hash.unpaddedSize = record.unpaddedSize)
    (hawaits : (⟨loop.hash.uncompressedSize, loop.hash.pos⟩ : VliState).begun.Awaits
      record.uncompressedSize stream)
    (hrest : rest = stream ++ (recordsText back ++ List.replicate (indexPadding all) 0))
    (htotal : loop.input ++ later = rest ++ (write32le (crc32 (indexBody all) 0) ++ more)) :
    Steps all later more loop (loop.turn digest) := by
  have hrecord : (⟨loop.hash.unpaddedSize, record.uncompressedSize⟩ : IndexRecord) = record := by
    rw [hunpadded]
  have hsums : loop.hash.records.hashAppend
      ⟨loop.hash.unpaddedSize, record.uncompressedSize⟩ = indexInfo (front ++ [record]) := by
    rw [hrecord, hrecords, indexInfo_concat]
  obtain ⟨hblocksSize, huncompressedSize, hlistSize⟩ := indexInfo_append_le (front ++ [record]) back
  rw [← hall, ← hsums, ← hblocks] at hblocksSize huncompressedSize hlistSize
  rw [hrest] at hbody
  rw [hrest, List.append_assoc] at htotal
  rw [turn_uncompressed digest hinput hsequence]
  dsimp only
  obtain ⟨pos, left, hdecode, hleft, hlt⟩ | ⟨next, still, hdecode, hnext, hstream, hlater⟩ :=
    decodeVli_cases (fun hash value => { hash with uncompressedSize := value }) hawaits
      hvalid.uncompressed hinput htotal
  · rw [hdecode]
    dsimp only
    rw [if_neg (not_not.mpr rfl), decodedUncompressed]
    dsimp only
    rw [if_neg (by omega)]
    have hread : read ++ stream ++ (recordsText back ++ List.replicate (indexPadding all) 0) =
        indexBody all := by
      rw [List.append_assoc]
      exact hbody
    refine .next (.body hblocks ?_ hread (crc_taken hcrc stream) hleft) hlt
    have hback : loop.hash.remaining - 1 = back.length := by rw [hremaining, Nat.add_sub_cancel]
    refine phase_records hall hsums hback rfl ?_
    rw [hback]
  · rw [hdecode]
    dsimp only
    rw [if_pos (by simp)]
    rw [← hstream, List.append_assoc, ← List.append_assoc] at hbody
    refine .leave (left_finish hblocks
      (.uncompressed hsequence hall hrecords hremaining hunpadded hnext) hbody
      (crc_taken hcrc loop.input) rfl ?_)
    rw [hlater, List.append_assoc still]

end Phases

/-- **One turn.** -/
theorem Decodes.turn {Digest : Type} [DecidableEq Digest] (digest : List IndexRecord → Digest)
    (hvalid : ∀ record ∈ all, record.Valid) (hcount : all.length ≤ vliMax)
    (hdecodes : loop.Decodes all later more) : Steps all later more loop (loop.turn digest) := by
  cases hdecodes with
  | crc hcrc hinput htotal =>
      rw [turn_crc digest hinput hcrc.sequence_eq]
      exact .leave (hcrc.crcLoop htotal)
  | body hblocks hphase hbody hcrc htotal =>
      by_cases hinput : loop.input = []
      · rw [hinput, List.nil_append] at htotal
        rw [turn_nil digest hinput]
        exact .leave (left_finish hblocks hphase hbody hcrc hinput htotal)
      · obtain ⟨byte, input, hcons⟩ := List.exists_cons_of_ne_nil hinput
        cases hphase with
        | block hsequence hpos hrecords =>
            exact steps_block digest hblocks hbody hcrc hcons hsequence hpos hrecords rfl htotal
        | count hsequence hrecords hawaits =>
            exact steps_count digest hblocks hbody hcrc hcount hinput hsequence hrecords hawaits rfl
              htotal
        | unpadded hsequence hall hrecords hremaining hawaits =>
            exact steps_unpadded digest hblocks hbody hcrc (hvalid _ (by simp [hall])) hinput
              hsequence hall hrecords hremaining hawaits rfl htotal
        | uncompressed hsequence hall hrecords hremaining hunpadded hawaits =>
            exact steps_uncompressed digest hblocks hbody hcrc (hvalid _ (by simp [hall])) hinput
              hsequence hall hrecords hremaining hunpadded hawaits rfl htotal
        | paddingInit hsequence hrecords =>
            have hpos : indexPadding all = loop.paddingInit.hash.pos := by
              rw [paddingInit, hrecords]
              rfl
            have hinitBlocks : loop.paddingInit.hash.blocks = indexInfo all := hblocks
            have hinitCrc : crc32 loop.paddingInit.taken loop.paddingInit.hash.crc32 = _ := hcrc
            have hsteps := steps_padding digest hinitBlocks hbody hinitCrc hcons rfl hrecords
              (congrArg (List.replicate · 0) hpos) htotal
            rw [turn_paddingInit digest hcons hsequence]
            generalize loop.paddingInit.padding digest byte input = result at hsteps ⊢
            cases hsteps with
            | next hnext hlt => exact .next hnext hlt
            | leave hleft => exact .leave hleft
        | padding hsequence hrecords =>
            rw [turn_padding digest hcons hsequence]
            exact steps_padding digest hblocks hbody hcrc hcons hsequence hrecords rfl htotal

end Turn

end IndexLoop

namespace IndexHash

section Run

variable {Digest : Type} [DecidableEq Digest] (digest : List IndexRecord → Digest)
  {all : List IndexRecord} {hash : IndexHash} {stream later more : Bytes}

/-- One call. -/
theorem Awaits.decode (hvalid : ∀ record ∈ all, record.Valid) (hcount : all.length ≤ vliMax)
    (hawaits : hash.Awaits all stream) {input : Bytes} (hinput : input ≠ [])
    (htotal : input ++ later = stream ++ more) :
    ∃ left, hash.decode digest input = .ok left ∧ Left all later more left := by
  have hstart : (⟨hash, input, []⟩ : IndexLoop).Decodes all later more := by
    cases hawaits with
    | crc hcrc => exact .crc hcrc hinput htotal
    | body hblocks hphase hbody hcrc hstream =>
        rw [hstream, List.append_assoc] at htotal
        refine .body hblocks hphase hbody ?_ htotal
        rw [← hcrc]
        exact BitVec.not_not
  have hrun : ∃ left, Loop.runFor
      (Loop.fallible fun loop => (.ok (IndexLoop.turn digest loop) : Outcome _))
      (input.length + 1) ⟨hash, input, []⟩ = some (.ok left) ∧ Left all later more left := by
    refine Loop.exists_runFor_fallible (fun loop => loop.Decodes all later more)
      (fun loop => loop.input.length) ?_ hstart (Nat.lt_succ_self _)
    intro loop hloop
    have hsteps := hloop.turn digest hvalid hcount
    generalize loop.turn digest = result at hsteps
    cases hsteps with
    | next hnext hlt => exact .inl ⟨_, rfl, hnext, hlt⟩
    | leave hleft => exact .inr ⟨_, rfl, hleft⟩
  obtain ⟨left, hresult, hleft⟩ := hrun
  refine ⟨left, ?_, hleft⟩
  rw [IndexHash.decode, if_neg hinput, hresult, Option.getD_some]

/-- `SEQ_INDEX` of the stream decoder over several calls, each with more input behind what the
last one has left; without input it does not call `lzma_index_hash_decode`. -/
def decodeCalls (hash : IndexHash) (pending : Bytes) :
    List Bytes → Outcome (LzmaRet × IndexHash × Bytes)
  | [] => .ok (.ok, hash, pending)
  | piece :: pieces =>
      if pending ++ piece = [] then decodeCalls hash [] pieces
      else do
        let (ret, hash, left) ← hash.decode digest (pending ++ piece)
        if ret = .ok then decodeCalls hash left pieces
        else return (ret, hash, left ++ pieces.flatten)

/-- What several calls leave. -/
def Reads (later more : Bytes) (result : LzmaRet × IndexHash × Bytes) : Prop :=
  result.1 = .streamEnd ∧ result.2.2 ++ later = more ∨
    result.1 = .ok ∧ result.2.2 = [] ∧ more.length < later.length

theorem Awaits.stream_ne_nil (hawaits : hash.Awaits all stream) : stream ≠ [] := by
  intro hempty
  cases hawaits with
  | body hblocks hphase hbody hcrc hstream =>
      rw [hempty] at hstream
      exact absurd (List.append_eq_nil_iff.mp hstream.symm).2 (List.cons_ne_nil _ _)
  | crc hcrc =>
      have hrest := hcrc.stream_eq
      rw [hempty, drop_write32le _ hcrc.pos_lt] at hrest
      cases hrest

theorem Awaits.decodeCalls (hvalid : ∀ record ∈ all, record.Valid) (hcount : all.length ≤ vliMax)
    (hawaits : hash.Awaits all stream) (pieces : List Bytes)
    (htotal : pieces.flatten ++ later = stream ++ more) :
    ∃ result, hash.decodeCalls digest [] pieces = .ok result ∧ Reads later more result := by
  induction pieces generalizing hash stream with
  | nil =>
      refine ⟨_, rfl, .inr ⟨rfl, rfl, ?_⟩⟩
      have hlength := congrArg List.length htotal
      have hpos := List.length_pos_iff.mpr hawaits.stream_ne_nil
      rw [List.flatten_nil, List.nil_append, List.length_append] at hlength
      omega
  | cons piece pieces ih =>
      rw [List.flatten_cons, List.append_assoc] at htotal
      rw [IndexHash.decodeCalls, List.nil_append]
      by_cases hempty : piece = []
      · rw [hempty, List.nil_append] at htotal
        rw [if_pos hempty]
        exact ih hawaits htotal
      · obtain ⟨⟨ret, after, left⟩, hdecode, hleft⟩ :=
          hawaits.decode digest hvalid hcount hempty htotal
        rw [if_neg hempty, hdecode, ok_bind]
        cases hleft with
        | pause hafter hlater => exact ih hafter hlater
        | done hmore =>
            refine ⟨_, rfl, .inl ⟨rfl, ?_⟩⟩
            rw [List.append_assoc]
            exact hmore

end Run

/-! ## The sizes of the blocks -/

section Append

/-- Every block is added to the sums. -/
def appendAll (hash : IndexHash) : List IndexRecord → Except LzmaRet IndexHash
  | [] => .ok hash
  | record :: records =>
      match hash.append record with
      | (.ok, hash) => hash.appendAll records
      | (ret, _) => .error ret

/-- What a call that was answered `LZMA_OK` has done. -/
theorem append_eq_ok {hash after : IndexHash} {record : IndexRecord}
    (happend : hash.append record = (.ok, after)) :
    record.Valid ∧ after = { hash with blocks := hash.blocks.hashAppend record } ∧
      after.blocks.blocksSize ≤ vliMax := by
  rw [append] at happend
  split at happend
  · cases happend
  · rename_i hvalid
    rw [not_or, not_or, not_or, Nat.not_lt, Nat.not_lt, Nat.not_lt] at hvalid
    obtain ⟨hret, hafter⟩ := Prod.mk.inj happend
    split at hret
    · cases hret
    · rename_i hlimits
      rw [not_or, Nat.not_lt] at hlimits
      refine ⟨⟨⟨hvalid.2.1, hvalid.2.2.1⟩, hvalid.2.2.2⟩, hafter.symm, ?_⟩
      rw [← hafter]
      exact hlimits.1

/-- A block is not empty. -/
theorem count_le_blocksSize {records : List IndexRecord}
    (hvalid : ∀ record ∈ records, record.Valid) :
    (indexInfo records).count ≤ (indexInfo records).blocksSize := by
  induction records using List.reverseRecOn with
  | nil => exact le_rfl
  | append_singleton records record ih =>
      have hfront := ih fun other hother => hvalid other (List.mem_append_left _ hother)
      have hsize := (hvalid record (by simp)).unpadded.1
      rw [indexInfo_concat, IndexInfo.hashAppend]
      dsimp only
      rw [unpaddedSizeMin] at hsize
      rw [vliCeil4]
      omega

/-- The sums of the blocks, if all of them have been accepted. -/
theorem appendAll_eq_ok {hash after : IndexHash} {front records : List IndexRecord}
    (hblocks : hash.blocks = indexInfo front) (happend : hash.appendAll records = .ok after) :
    (∀ record ∈ records, record.Valid) ∧
      after = { hash with blocks := indexInfo (front ++ records) } ∧
      (records ≠ [] → after.blocks.blocksSize ≤ vliMax) := by
  induction records generalizing hash front with
  | nil =>
      rw [appendAll] at happend
      cases happend
      rw [List.append_nil, ← hblocks]
      exact ⟨List.forall_mem_nil _, rfl, fun habsurd => absurd rfl habsurd⟩
  | cons record records ih =>
      rw [appendAll] at happend
      generalize hone : hash.append record = answered at happend
      obtain ⟨ret, next⟩ := answered
      cases ret with
      | ok =>
          obtain ⟨hvalid, hnext, hlimit⟩ := append_eq_ok hone
          have hsums : next.blocks = indexInfo (front ++ [record]) := by
            rw [hnext, indexInfo_concat, hblocks]
          obtain ⟨hrest, hafter, hlimits⟩ := ih hsums happend
          rw [List.append_assoc, List.singleton_append] at hafter
          refine ⟨List.forall_mem_cons.mpr ⟨hvalid, hrest⟩, ?_, fun _ => ?_⟩
          · rw [hafter, hnext]
          · cases records with
            | nil =>
                cases happend
                exact hlimit
            | cons other records => exact hlimits (List.cons_ne_nil _ _)
      | _ => cases happend

end Append

section Size

theorem length_recordsText {records : List IndexRecord}
    (hvalid : ∀ record ∈ records, record.Valid) :
    (recordsText records).length = (indexInfo records).indexListSize := by
  induction records using List.reverseRecOn with
  | nil => rfl
  | append_singleton records record ih =>
      have hfront := ih fun other hother => hvalid other (List.mem_append_left _ hother)
      have hrecord := hvalid record (by simp)
      have hmax : record.unpaddedSize ≤ vliMax :=
        hrecord.unpadded.2.trans (Nat.div_mul_le_self vliMax 4)
      rw [recordsText] at hfront
      rw [indexInfo_concat, IndexInfo.hashAppend, recordsText, List.flatMap_append,
        List.length_append, hfront, List.flatMap_singleton, recordText, List.length_append,
        vliSize_eq hmax, vliSize_eq hrecord.uncompressed]

/-- The size of the index is known from the sums. -/
theorem length_indexEncode {records : List IndexRecord}
    (hvalid : ∀ record ∈ records, record.Valid) (hcount : records.length ≤ vliMax) :
    (indexEncode records).length =
      indexSize (indexInfo records).count (indexInfo records).indexListSize := by
  have hsum : (indexEncode records).length =
      1 + vliSize records.length + (indexInfo records).indexListSize +
        indexPadding records + 4 := by
    rw [indexEncode, List.length_append, indexBody, List.length_cons, List.length_append,
      List.length_append, List.length_replicate, length_recordsText hvalid, vliSize_eq hcount]
    simp only [write32le, List.length_cons, List.length_nil]
    omega
  rw [hsum, indexSize, vliCeil4, indexPadding, indexSizeUnpadded, count_indexInfo]
  omega

end Size

/-- **Round trip of the index.** If all blocks have been added to the sums, the size of the
index is the one that is compared with the footer, and the index that the encoder writes
is accepted, in whatever pieces it comes and whatever is behind it: no call reports an
error, and the end is reported as soon as it has been supplied, without anything behind it
having been read. -/
theorem decodeCalls_indexEncode {Digest : Type} [DecidableEq Digest]
    (digest : List IndexRecord → Digest) (garbage : ℕ) {records : List IndexRecord}
    {hash : IndexHash} (happend : (init garbage).appendAll records = .ok hash)
    (pieces : List Bytes) {later more : Bytes}
    (htotal : pieces.flatten ++ later = indexEncode records ++ more) :
    hash.size = (indexEncode records).length ∧
      ∃ result, hash.decodeCalls digest [] pieces = .ok result ∧ Reads later more result := by
  have hblocks : (init garbage).blocks = indexInfo [] := rfl
  obtain ⟨hvalid, hhash, hlimit⟩ := appendAll_eq_ok hblocks happend
  rw [List.nil_append] at hhash
  have hcount : records.length ≤ vliMax := by
    by_cases hempty : records = []
    · rw [hempty]
      exact Nat.zero_le _
    · have hsums := hlimit hempty
      rw [hhash] at hsums
      rw [← count_indexInfo]
      exact (count_le_blocksSize hvalid).trans hsums
  have hawaits : hash.Awaits records (indexEncode records) := by
    rw [hhash]
    exact .body rfl (.block rfl rfl rfl) (List.nil_append _) rfl rfl
  refine ⟨?_, hawaits.decodeCalls digest hvalid hcount pieces htotal⟩
  rw [size, hhash, length_indexEncode hvalid hcount]

/-- The sizes of two blocks, whose index needs padding. -/
def sampleRecords : List IndexRecord := [⟨25, 1⟩, ⟨300, 70000⟩]

/-- The decoder that has been given them. -/
def sampleHash : IndexHash :=
  ⟨.block, ⟨328, 70001, 2, 7, sampleRecords⟩, ⟨0, 0, 0, 0, []⟩, 0, 0, 0, 0, 0⟩

theorem appendAll_sample : (init 0).appendAll sampleRecords = .ok sampleHash := rfl

/-- The bytes of their index. -/
theorem indexBody_sample :
    indexBody sampleRecords = [0, 2, 25, 1, 172, 2, 240, 162, 4, 0, 0, 0] := by
  have hunpadded : vliText 300 = [172, 2] := by
    rw [vliText_of_le (by decide), vliText_of_lt (by decide)]
    rfl
  have huncompressed : vliText 70000 = [240, 162, 4] := by
    rw [vliText_of_le (by decide), vliText_of_le (by decide), vliText_of_lt (by decide)]
    rfl
  have hcount : vliText 2 = [2] := vliText_of_lt (by decide)
  have hfirst : recordText ⟨25, 1⟩ = [25, 1] := by
    rw [recordText, vliText_of_lt (by decide), vliText_of_lt (by decide)]
    rfl
  have hsecond : recordText ⟨300, 70000⟩ = [172, 2, 240, 162, 4] := by
    rw [recordText, hunpadded, huncompressed]
    rfl
  have hrecords : recordsText sampleRecords = [25, 1, 172, 2, 240, 162, 4] := by
    rw [recordsText, sampleRecords, List.flatMap_cons, List.flatMap_singleton, hfirst, hsecond]
    rfl
  have hpadding : indexPadding sampleRecords = 3 := by decide
  rw [indexBody, hrecords, hpadding]
  change 0 :: (vliText 2 ++ _) = _
  rw [hcount]
  rfl

/-- The index of two blocks in four pieces, with a byte of the footer behind it. -/
theorem decodeCalls_indexEncode_two :
    ∃ result, sampleHash.decodeCalls id []
        [[0, 2], [], [25, 1, 172], [2, 240, 162, 4, 0, 0, 0, 157, 96, 19, 21, 31]] =
          .ok result ∧ Reads [] [31] result := by
  have htotal : [[0, 2], [], [25, 1, 172], [2, 240, 162, 4, 0, 0, 0, 157, 96, 19, 21, 31]].flatten
      ++ [] = indexEncode sampleRecords ++ [31] := by
    rw [indexEncode, indexBody_sample]
    decide +kernel
  exact (decodeCalls_indexEncode id 0 appendAll_sample _ htotal).2

end IndexHash

end Dht
