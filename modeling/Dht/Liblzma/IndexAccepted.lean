/-
# What is accepted as an index

Whatever `lzma_index_hash_decode` accepts, in whatever pieces it has come, is an index that
the encoder writes for some list of records. Their number and their sums are those of the
blocks, and so is their hash.

Nothing is assumed of the hash. An index with a burst error of up to four bytes is refused
by its CRC32 alone.
-/

import Dht.Liblzma.IndexHash

namespace Dht

/-! ## A number in pieces -/

/-- The bytes of a number that have been read. -/
def VliState.Seen (state : VliState) (part : Bytes) : Prop :=
  ∀ tail, vliDecodeLoop ⟨0, 0⟩ (part ++ tail) = vliDecodeLoop state.begun tail

section Numbers

variable {state after : VliState} {part input left : Bytes} {ret : LzmaRet}

theorem seen_nil (vli : ℕ) : (⟨vli, 0⟩ : VliState).Seen [] := fun _ => rfl

/-- A loop that asks for more has read everything, and goes on with what comes. -/
theorem vliDecodeLoop_ok (hloop : vliDecodeLoop state input = (.ok, after, left)) :
    left = [] ∧ after.pos = state.pos + input.length ∧
      ∀ tail, vliDecodeLoop state (input ++ tail) = vliDecodeLoop after tail := by
  induction input generalizing state with
  | nil =>
      rw [vliDecodeLoop] at hloop
      cases hloop
      exact ⟨rfl, rfl, fun _ => rfl⟩
  | cons byte input ih =>
      obtain ⟨vli, pos⟩ := state
      rw [vliDecodeLoop] at hloop
      by_cases hlast : byte.toNat &&& 0x80 = 0
      · rw [if_pos hlast] at hloop
        split at hloop
        · cases hloop
        · cases hloop
      · rw [if_neg hlast] at hloop
        by_cases hlong : pos + 1 = 9
        · rw [if_pos hlong] at hloop
          cases hloop
        · rw [if_neg hlong] at hloop
          obtain ⟨hleft, hpos, htail⟩ := ih hloop
          refine ⟨hleft, ?_, fun tail => ?_⟩
          · rw [hpos, List.length_cons]
            dsimp only
            omega
          · rw [List.cons_append, vliDecodeLoop, if_neg hlast, if_neg hlong, htail]

theorem suffix_of_vliDecodeLoop (hloop : vliDecodeLoop state input = (ret, after, left)) :
    left <:+ input := by
  induction input generalizing state with
  | nil =>
      rw [vliDecodeLoop] at hloop
      cases hloop
      exact List.suffix_refl _
  | cons byte input ih =>
      obtain ⟨vli, pos⟩ := state
      rw [vliDecodeLoop] at hloop
      have hrest := List.suffix_cons byte input
      split at hloop
      · split at hloop
        · cases hloop
          exact hrest
        · cases hloop
          exact hrest
      · split at hloop
        · cases hloop
          exact hrest
        · exact (ih hloop).trans hrest

/-- What a call has done that reported the end, or that asks for more. -/
theorem VliState.Seen.decode (hseen : state.Seen part)
    (hdecode : vliDecode state input = (ret, after, left)) :
    (ret = .streamEnd → after.vli ≤ vliMax ∧
      ∃ used, input = used ++ left ∧ part ++ used = vliText after.vli) ∧
    (ret = .ok → left = [] ∧ after.Seen (part ++ input)) := by
  rw [vliDecode] at hdecode
  split at hdecode
  · cases hdecode
    exact ⟨fun habsurd => (by cases habsurd), fun habsurd => (by cases habsurd)⟩
  · split at hdecode
    · cases hdecode
      exact ⟨fun habsurd => (by cases habsurd), fun habsurd => (by cases habsurd)⟩
    · rename_i hinput
      constructor
      · rintro rfl
        obtain ⟨used, hused⟩ := suffix_of_vliDecodeLoop hdecode
        have hwhole : vliDecodeLoop ⟨0, 0⟩ (part ++ input) = (.streamEnd, after, left) :=
          (hseen input).trans hdecode
        obtain ⟨number, htext, hvalue, -, hmax, -⟩ :=
          text_of_vliDecodeLoop hwhole (by simp) (by decide)
        have hnumber : after.vli = number := by simpa using hvalue
        refine ⟨hmax, used, hused.symm, ?_⟩
        rw [← hused, ← List.append_assoc] at htext
        rw [hnumber]
        exact List.append_cancel_right htext
      · rintro rfl
        obtain ⟨hleft, hpos, htail⟩ := vliDecodeLoop_ok hdecode
        refine ⟨hleft, fun tail => ?_⟩
        have hnonzero : after.pos ≠ 0 := by
          have hlength := List.length_pos_iff.mpr hinput
          omega
        rw [List.append_assoc, hseen, htail, VliState.begun, if_neg hnonzero]

end Numbers

/-! ## The index in pieces -/

/-- The records and the blocks agree in everything that is compared. -/
structure IndexInfo.Agrees {Digest : Type} (digest : List IndexRecord → Digest)
    (blocks : IndexInfo) (records : List IndexRecord) : Prop where
  count : records.length = blocks.count
  blocksSize : (indexInfo records).blocksSize = blocks.blocksSize
  uncompressedSize : (indexInfo records).uncompressedSize = blocks.uncompressedSize
  indexListSize : (indexInfo records).indexListSize = blocks.indexListSize
  hashes : digest (indexInfo records).check = digest blocks.check

namespace IndexHash

/-- The bytes in front of the CRC32 that have been read. -/
inductive Seen (hash : IndexHash) : Bytes → Prop
  | block (sequence_eq : hash.sequence = .block) (pos_eq : hash.pos = 0)
      (records_eq : hash.records = indexInfo []) : Seen hash []
  | count {part : Bytes} (sequence_eq : hash.sequence = .count)
      (records_eq : hash.records = indexInfo [])
      (seen : (⟨hash.remaining, hash.pos⟩ : VliState).Seen part) : Seen hash (0 :: part)
  | unpadded {front : List IndexRecord} {part : Bytes} (sequence_eq : hash.sequence = .unpadded)
      (records_eq : hash.records = indexInfo front) (valid : ∀ record ∈ front, record.Valid)
      (remaining_pos : 0 < hash.remaining)
      (remaining_eq : front.length + hash.remaining = hash.blocks.count)
      (seen : (⟨hash.unpaddedSize, hash.pos⟩ : VliState).Seen part) :
      Seen hash (0 :: (vliText hash.blocks.count ++ (recordsText front ++ part)))
  | uncompressed {front : List IndexRecord} {part : Bytes}
      (sequence_eq : hash.sequence = .uncompressed)
      (records_eq : hash.records = indexInfo front) (valid : ∀ record ∈ front, record.Valid)
      (unpadded_valid : unpaddedSizeMin ≤ hash.unpaddedSize ∧ hash.unpaddedSize ≤ unpaddedSizeMax)
      (remaining_pos : 0 < hash.remaining)
      (remaining_eq : front.length + hash.remaining = hash.blocks.count)
      (seen : (⟨hash.uncompressedSize, hash.pos⟩ : VliState).Seen part) :
      Seen hash (0 :: (vliText hash.blocks.count ++ (recordsText front ++
        (vliText hash.unpaddedSize ++ part))))
  | paddingInit {front : List IndexRecord} (sequence_eq : hash.sequence = .paddingInit)
      (records_eq : hash.records = indexInfo front) (valid : ∀ record ∈ front, record.Valid)
      (count_eq : front.length = hash.blocks.count) :
      Seen hash (0 :: (vliText hash.blocks.count ++ (recordsText front ++ [])))
  | padding {front : List IndexRecord} {done : ℕ} (sequence_eq : hash.sequence = .padding)
      (records_eq : hash.records = indexInfo front) (valid : ∀ record ∈ front, record.Valid)
      (count_eq : front.length = hash.blocks.count)
      (padding_eq : done + hash.pos = indexPadding front) :
      Seen hash (0 :: (vliText hash.blocks.count ++ (recordsText front ++
        List.replicate done 0)))

section Crc

variable {Digest : Type} (digest : List IndexRecord → Digest)

/-- The bytes that have been read up to somewhere in the CRC32. -/
structure SeenCrc (hash : IndexHash) (text : Bytes) (records : List IndexRecord) : Prop where
  sequence_eq : hash.sequence = .crc32
  valid : ∀ record ∈ records, record.Valid
  agrees : hash.blocks.Agrees digest records
  crc_eq : hash.crc32 = Dht.crc32 (indexBody records) 0
  pos_lt : hash.pos < 4
  text_eq : text = indexBody records ++ (write32le hash.crc32).take hash.pos

/-- The text that has been read when a call returns. -/
inductive Read (hash : IndexHash) (text : Bytes) : Prop
  | body (seen : hash.Seen text) (crc_eq : hash.crc32 = Dht.crc32 text 0)
  | crc {records : List IndexRecord} (seenCrc : hash.SeenCrc digest text records)

/-- What is known of a call that leaves, if `text` is everything it has been given so far: a
call that asks for more has read all of it, and a call that reports the end has read an
index of valid records that agrees with the blocks. -/
def Accepts (blocks : IndexInfo) (text : Bytes) : LzmaRet × IndexHash × Bytes → Prop
  | (.ok, hash, left) => left = [] ∧ hash.blocks = blocks ∧ hash.Read digest text
  | (.streamEnd, _, left) => ∃ records, text = indexEncode records ++ left ∧
      (∀ record ∈ records, record.Valid) ∧ blocks.Agrees digest records
  | _ => True

theorem take_write32le (number : BitVec 32) {pos : ℕ} (hpos : pos < 4) :
    (write32le number).take (pos + 1) =
      (write32le number).take pos ++ [.ofBitVec (crcByte pos number)] := by
  match pos, hpos with
  | 0, _ => rfl
  | 1, _ => rfl
  | 2, _ => rfl
  | 3, _ => rfl

theorem SeenCrc.crcLoop {hash : IndexHash} {text : Bytes} {records : List IndexRecord}
    (hcrc : hash.SeenCrc digest text records) (input : Bytes) :
    Accepts digest hash.blocks (text ++ input) (hash.crcLoop input) := by
  induction input generalizing hash text with
  | nil =>
      rw [List.append_nil]
      exact ⟨rfl, rfl, .crc hcrc⟩
  | cons byte input ih =>
      rw [IndexHash.crcLoop]
      by_cases hbyte : crcByte hash.pos hash.crc32 = byte.toBitVec
      · have hnext : text ++ [byte] =
            indexBody records ++ (write32le hash.crc32).take (hash.pos + 1) := by
          rw [hcrc.text_eq, take_write32le _ hcrc.pos_lt, hbyte, List.append_assoc]
        have hsplit : text ++ byte :: input = text ++ [byte] ++ input := by
          rw [List.append_assoc, List.singleton_append]
        rw [if_neg (not_not.mpr hbyte), hsplit]
        by_cases hmore : hash.pos + 1 < 4
        · rw [if_pos hmore]
          have hafter : ({ hash with pos := hash.pos + 1 } : IndexHash).SeenCrc digest
              (text ++ [byte]) records :=
            ⟨hcrc.sequence_eq, hcrc.valid, hcrc.agrees, hcrc.crc_eq, hmore, hnext⟩
          exact ih hafter
        · rw [if_neg hmore]
          refine ⟨records, ?_, hcrc.valid, hcrc.agrees⟩
          have hall : (write32le hash.crc32).take (hash.pos + 1) = write32le hash.crc32 :=
            List.take_of_length_le (Nat.not_lt.mp hmore)
          rw [hnext, hall, hcrc.crc_eq, indexEncode]
      · rw [if_pos hbyte]
        trivial

end Crc

/-- What has been read does not depend on the CRC32. -/
theorem Seen.setCrc {hash : IndexHash} {text : Bytes} (hseen : hash.Seen text) (crc : BitVec 32) :
    ({ hash with crc32 := crc } : IndexHash).Seen text := by
  cases hseen with
  | block hsequence hpos hrecords => exact .block hsequence hpos hrecords
  | count hsequence hrecords hpart => exact .count hsequence hrecords hpart
  | unpadded hsequence hrecords hvalid hpositive hremaining hpart =>
      exact .unpadded hsequence hrecords hvalid hpositive hremaining hpart
  | uncompressed hsequence hrecords hvalid hunpadded hpositive hremaining hpart =>
      exact .uncompressed hsequence hrecords hvalid hunpadded hpositive hremaining hpart
  | paddingInit hsequence hrecords hvalid hcount =>
      exact .paddingInit hsequence hrecords hvalid hcount
  | padding hsequence hrecords hvalid hcount hpadding =>
      exact .padding hsequence hrecords hvalid hcount hpadding

/-- The next record, or the padding. -/
theorem seen_records {front : List IndexRecord} {hash : IndexHash}
    (hrecords : hash.records = indexInfo front) (hvalid : ∀ record ∈ front, record.Valid)
    (hremaining : front.length + hash.remaining = hash.blocks.count) (hpos : hash.pos = 0)
    (hsequence : hash.sequence = if hash.remaining = 0 then .paddingInit else .unpadded) :
    hash.Seen (0 :: (vliText hash.blocks.count ++ (recordsText front ++ []))) := by
  by_cases hzero : hash.remaining = 0
  · rw [if_pos hzero] at hsequence
    rw [hzero, Nat.add_zero] at hremaining
    exact .paddingInit hsequence hrecords hvalid hremaining
  · rw [if_neg hzero] at hsequence
    have hseen : (⟨hash.unpaddedSize, hash.pos⟩ : VliState).Seen [] := by
      rw [hpos]
      exact seen_nil _
    exact .unpadded hsequence hrecords hvalid (Nat.pos_of_ne_zero hzero) hremaining hseen

end IndexHash

namespace IndexLoop

variable {Digest : Type} (digest : List IndexRecord → Digest)

/-- The loop, if `text` is everything that has been given to the decoder so far. -/
inductive Scans (blocks : IndexInfo) (text : Bytes) (loop : IndexLoop) : Prop
  | body {read : Bytes} (blocks_eq : loop.hash.blocks = blocks) (seen : loop.hash.Seen read)
      (crc_eq : crc32 loop.taken loop.hash.crc32 = crc32 read 0)
      (text_eq : text = read ++ loop.input)
  | crc {read : Bytes} {records : List IndexRecord} (blocks_eq : loop.hash.blocks = blocks)
      (seenCrc : loop.hash.SeenCrc digest read records) (input_ne : loop.input ≠ [])
      (text_eq : text = read ++ loop.input)

/-- What a turn may do. -/
def Scanned (blocks : IndexInfo) (text : Bytes) :
    IndexLoop ⊕ LzmaRet × IndexHash × Bytes → Prop
  | .inl next => next.Scans digest blocks text
  | .inr left => IndexHash.Accepts digest blocks text left

section Turn

variable {loop : IndexLoop} {blocks : IndexInfo} {text read : Bytes}

/-- A call that has used up its input. -/
theorem accepts_finish (hblocks : loop.hash.blocks = blocks) (hseen : loop.hash.Seen text)
    (hcrc : crc32 loop.taken loop.hash.crc32 = crc32 text 0) (hinput : loop.input = []) :
    IndexHash.Accepts digest blocks text (loop.finish .ok) :=
  ⟨hinput, hblocks, .body (hseen.setCrc _) hcrc⟩

/-- A call that reports an error accepts nothing. -/
theorem accepts_finish_error {ret : LzmaRet} (hok : ret ≠ .ok) (hend : ret ≠ .streamEnd) :
    IndexHash.Accepts digest blocks text (loop.finish ret) := by
  cases ret with
  | ok => exact absurd rfl hok
  | streamEnd => exact absurd rfl hend
  | _ => trivial

/-- A number is read to its end, or all of the input is, or there is an error. -/
theorem decodeVli_scan (set : IndexHash → ℕ → IndexHash) {current : ℕ} {part : Bytes}
    (hseen : (⟨current, loop.hash.pos⟩ : VliState).Seen part) :
    (∃ after left used, loop.decodeVli current set =
        (.streamEnd, ⟨set { loop.hash with pos := VliState.pos after } after.vli, left,
          loop.taken ++ used⟩) ∧
        loop.input = used ++ left ∧ part ++ used = vliText after.vli ∧ after.vli ≤ vliMax) ∨
      (∃ after, loop.decodeVli current set =
        (.ok, ⟨set { loop.hash with pos := VliState.pos after } after.vli, [],
          loop.taken ++ loop.input⟩) ∧ after.Seen (part ++ loop.input)) ∨
      ∃ ret after, loop.decodeVli current set = (ret, after) ∧ ret ≠ .ok ∧ ret ≠ .streamEnd := by
  obtain ⟨⟨ret, after, left⟩, hdecode⟩ : ∃ result, vliDecode ⟨current, loop.hash.pos⟩ loop.input =
      result := ⟨_, rfl⟩
  obtain ⟨hend, hok⟩ := hseen.decode hdecode
  by_cases hisEnd : ret = .streamEnd
  · obtain ⟨hmax, used, hinput, htext⟩ := hend hisEnd
    refine .inl ⟨after, left, used, ?_, hinput, htext, hmax⟩
    rw [decodeVli, hdecode, hisEnd]
    dsimp only
    rw [hinput, List.length_append, Nat.add_sub_cancel, List.take_left]
  · by_cases hisOk : ret = .ok
    · obtain ⟨hleft, hafter⟩ := hok hisOk
      refine .inr (.inl ⟨after, ?_, hafter⟩)
      rw [decodeVli, hdecode, hisOk, hleft]
      dsimp only
      rw [List.length_nil, Nat.sub_zero, List.take_length]
    · refine .inr (.inr ⟨ret, (loop.decodeVli current set).2, ?_, hisOk, hisEnd⟩)
      rw [decodeVli, hdecode]

section Phases

variable [DecidableEq Digest] (hblocks : loop.hash.blocks = blocks)
  (hcrc : crc32 loop.taken loop.hash.crc32 = crc32 read 0) (htext : text = read ++ loop.input)

include hblocks hcrc htext

/-- The padding, and the comparison behind it. -/
theorem scanned_padding {byte : UInt8} {input : Bytes} (hinput : loop.input = byte :: input)
    {front : List IndexRecord} {done : ℕ} (hsequence : loop.hash.sequence = .padding)
    (hrecords : loop.hash.records = indexInfo front) (hvalid : ∀ record ∈ front, record.Valid)
    (hcount : front.length = loop.hash.blocks.count)
    (hpadding : done + loop.hash.pos = indexPadding front)
    (hread : read = 0 :: (vliText loop.hash.blocks.count ++ (recordsText front ++
      List.replicate done 0))) :
    Scanned digest blocks text (loop.padding digest byte input) := by
  rw [padding]
  dsimp only
  by_cases hmore : 0 < loop.hash.pos
  · rw [if_pos hmore]
    by_cases hbyte : byte = 0
    · have hnext :
          ({ loop.hash with pos := loop.hash.pos - 1 } : IndexHash).Seen (read ++ [0]) := by
        have hseen : ({ loop.hash with pos := loop.hash.pos - 1 } : IndexHash).Seen
            (0 :: (vliText loop.hash.blocks.count ++ (recordsText front ++
              List.replicate (done + 1) 0))) :=
          .padding hsequence hrecords hvalid hcount (by dsimp only; omega)
        rw [hread, List.cons_append, List.append_assoc, List.append_assoc, ← List.replicate_succ']
        exact hseen
      rw [if_neg (not_not.mpr hbyte), hbyte]
      refine .body hblocks hnext (crc_taken hcrc [0]) ?_
      rw [htext, hinput, hbyte, List.append_assoc]
      rfl
    · rw [if_pos hbyte]
      trivial
  · rw [if_neg hmore]
    have hzero : loop.hash.pos = 0 := Nat.eq_zero_of_not_pos hmore
    split
    · trivial
    · rename_i hsums
      split
      · trivial
      · rename_i hhashes
        rw [not_or, not_or, not_not, not_not, not_not, hrecords] at hsums
        rw [not_not, hrecords] at hhashes
        have hagrees : loop.hash.blocks.Agrees digest front :=
          ⟨hcount, hsums.1.symm, hsums.2.1.symm, hsums.2.2.symm, hhashes.symm⟩
        have hbody : read = indexBody front := by
          rw [hzero, Nat.add_zero] at hpadding
          rw [hread, ← hcount, hpadding, indexBody]
        have hseen : ({ loop.hash with
            crc32 := crc32 loop.taken loop.hash.crc32
            sequence := .crc32 } : IndexHash).SeenCrc digest read front := by
          refine ⟨rfl, hvalid, hagrees, ?_, ?_, ?_⟩
          · rw [← hbody]
            exact hcrc
          · dsimp only
            rw [hzero]
            decide
          · dsimp only
            rw [hzero, List.take_zero, List.append_nil]
            exact hbody
        have haccepts := IndexHash.SeenCrc.crcLoop digest hseen loop.input
        rw [← htext] at haccepts
        rw [← hblocks]
        exact haccepts

/-- The byte in front of the index. -/
theorem scanned_block {byte : UInt8} {input : Bytes} (hinput : loop.input = byte :: input)
    (hsequence : loop.hash.sequence = .block) (hpos : loop.hash.pos = 0)
    (hrecords : loop.hash.records = indexInfo []) (hread : read = []) :
    Scanned digest blocks text (loop.turn digest) := by
  rw [turn_block digest hinput hsequence]
  by_cases hbyte : byte = 0
  · rw [if_neg (not_not.mpr hbyte), hbyte]
    have hseen : (⟨loop.hash.remaining, loop.hash.pos⟩ : VliState).Seen [] := by
      rw [hpos]
      exact seen_nil _
    have hnext : ({ loop.hash with sequence := .count } : IndexHash).Seen (read ++ [0]) := by
      rw [hread]
      exact .count rfl hrecords hseen
    refine .body hblocks hnext (crc_taken hcrc [0]) ?_
    rw [htext, hinput, hbyte, List.append_assoc]
    rfl
  · rw [if_pos hbyte]
    trivial

/-- The number of records. -/
theorem scanned_count (hinput : loop.input ≠ []) {part : Bytes}
    (hsequence : loop.hash.sequence = .count) (hrecords : loop.hash.records = indexInfo [])
    (hseen : (⟨loop.hash.remaining, loop.hash.pos⟩ : VliState).Seen part)
    (hread : read = 0 :: part) : Scanned digest blocks text (loop.turn digest) := by
  rw [turn_count digest hinput hsequence]
  dsimp only
  obtain ⟨after, left, used, hdecode, hsplit, hnumber, -⟩ | ⟨after, hdecode, hafter⟩ |
      ⟨ret, after, hdecode, hok, hend⟩ :=
    decodeVli_scan (fun hash value => { hash with remaining := value }) hseen
  · rw [hdecode]
    dsimp only
    rw [if_neg (not_not.mpr rfl), decodedCount]
    dsimp only
    split
    · trivial
    · rename_i hagrees
      rw [not_not] at hagrees
      have hnext : read ++ used = 0 :: (vliText loop.hash.blocks.count ++
          (recordsText [] ++ [])) := by
        rw [hread, List.cons_append, hnumber, hagrees]
        simp [recordsText]
      refine .body hblocks ?_ (crc_taken hcrc used) ?_
      · rw [hnext]
        exact IndexHash.seen_records hrecords (List.forall_mem_nil _) (by rw [← hagrees]; simp) rfl
          rfl
      · rw [htext, hsplit, List.append_assoc]
  · rw [hdecode]
    dsimp only
    rw [if_pos (by simp)]
    have hnext : read ++ loop.input = 0 :: (part ++ loop.input) := by rw [hread]; rfl
    have hcrcNext := crc_taken hcrc loop.input
    rw [htext, hnext]
    rw [hnext] at hcrcNext
    exact accepts_finish digest hblocks (.count hsequence hrecords hafter) hcrcNext rfl
  · rw [hdecode]
    dsimp only
    rw [if_pos hend]
    exact accepts_finish_error digest hok hend

/-- The first size of a record. -/
theorem scanned_unpadded (hinput : loop.input ≠ []) {front : List IndexRecord} {part : Bytes}
    (hsequence : loop.hash.sequence = .unpadded)
    (hrecords : loop.hash.records = indexInfo front) (hvalid : ∀ record ∈ front, record.Valid)
    (hpositive : 0 < loop.hash.remaining)
    (hremaining : front.length + loop.hash.remaining = loop.hash.blocks.count)
    (hseen : (⟨loop.hash.unpaddedSize, loop.hash.pos⟩ : VliState).Seen part)
    (hread : read = 0 :: (vliText loop.hash.blocks.count ++ (recordsText front ++ part))) :
    Scanned digest blocks text (loop.turn digest) := by
  have happend (bytes : Bytes) : read ++ bytes =
      0 :: (vliText loop.hash.blocks.count ++ (recordsText front ++ (part ++ bytes))) := by
    rw [hread, List.cons_append, List.append_assoc, List.append_assoc]
  rw [turn_unpadded digest hinput hsequence]
  dsimp only
  obtain ⟨after, left, used, hdecode, hsplit, hnumber, -⟩ | ⟨after, hdecode, hafter⟩ |
      ⟨ret, after, hdecode, hok, hend⟩ :=
    decodeVli_scan (fun hash value => { hash with unpaddedSize := value }) hseen
  · rw [hdecode]
    dsimp only
    rw [if_neg (not_not.mpr rfl), decodedUnpadded]
    dsimp only
    split
    · trivial
    · rename_i hbounds
      rw [not_or, Nat.not_lt, Nat.not_lt] at hbounds
      have hnext := happend used
      rw [hnumber, ← List.append_nil (vliText after.vli)] at hnext
      refine .body hblocks ?_ (crc_taken hcrc used) ?_
      · rw [hnext]
        exact .uncompressed rfl hrecords hvalid hbounds hpositive hremaining (seen_nil _)
      · rw [htext, hsplit, List.append_assoc]
  · rw [hdecode]
    dsimp only
    rw [if_pos (by simp)]
    have hcrcNext := crc_taken hcrc loop.input
    rw [htext, happend]
    rw [happend] at hcrcNext
    exact accepts_finish digest hblocks
      (.unpadded hsequence hrecords hvalid hpositive hremaining hafter) hcrcNext rfl
  · rw [hdecode]
    dsimp only
    rw [if_pos hend]
    exact accepts_finish_error digest hok hend

/-- The second size of a record. -/
theorem scanned_uncompressed (hinput : loop.input ≠ []) {front : List IndexRecord} {part : Bytes}
    (hsequence : loop.hash.sequence = .uncompressed)
    (hrecords : loop.hash.records = indexInfo front) (hvalid : ∀ record ∈ front, record.Valid)
    (hunpadded : unpaddedSizeMin ≤ loop.hash.unpaddedSize ∧
      loop.hash.unpaddedSize ≤ unpaddedSizeMax) (hpositive : 0 < loop.hash.remaining)
    (hremaining : front.length + loop.hash.remaining = loop.hash.blocks.count)
    (hseen : (⟨loop.hash.uncompressedSize, loop.hash.pos⟩ : VliState).Seen part)
    (hread : read = 0 :: (vliText loop.hash.blocks.count ++ (recordsText front ++
      (vliText loop.hash.unpaddedSize ++ part)))) :
    Scanned digest blocks text (loop.turn digest) := by
  have happend (bytes : Bytes) : read ++ bytes =
      0 :: (vliText loop.hash.blocks.count ++ (recordsText front ++
        (vliText loop.hash.unpaddedSize ++ (part ++ bytes)))) := by
    rw [hread, List.cons_append, List.append_assoc, List.append_assoc, List.append_assoc]
  rw [turn_uncompressed digest hinput hsequence]
  dsimp only
  obtain ⟨after, left, used, hdecode, hsplit, hnumber, hmax⟩ | ⟨after, hdecode, hafter⟩ |
      ⟨ret, after, hdecode, hok, hend⟩ :=
    decodeVli_scan (fun hash value => { hash with uncompressedSize := value }) hseen
  · rw [hdecode]
    dsimp only
    rw [if_neg (not_not.mpr rfl), decodedUncompressed]
    dsimp only
    split
    · trivial
    · have hnext : read ++ used = 0 :: (vliText loop.hash.blocks.count ++
          (recordsText (front ++ [⟨loop.hash.unpaddedSize, after.vli⟩]) ++ [])) := by
        rw [happend, hnumber, recordsText, recordsText, List.flatMap_append, List.flatMap_singleton,
          recordText, List.append_nil]
      have hsums : loop.hash.records.hashAppend ⟨loop.hash.unpaddedSize, after.vli⟩ =
          indexInfo (front ++ [⟨loop.hash.unpaddedSize, after.vli⟩]) := by
        rw [hrecords, indexInfo_concat]
      have hall : ∀ record ∈ front ++ [⟨loop.hash.unpaddedSize, after.vli⟩], record.Valid :=
        List.forall_mem_append.mpr ⟨hvalid, List.forall_mem_singleton.mpr ⟨hunpadded, hmax⟩⟩
      refine .body hblocks ?_ (crc_taken hcrc used) ?_
      · rw [hnext]
        refine IndexHash.seen_records hsums hall ?_ rfl rfl
        dsimp only
        rw [List.length_append, List.length_singleton]
        omega
      · rw [htext, hsplit, List.append_assoc]
  · rw [hdecode]
    dsimp only
    rw [if_pos (by simp)]
    have hcrcNext := crc_taken hcrc loop.input
    rw [htext, happend]
    rw [happend] at hcrcNext
    exact accepts_finish digest hblocks
      (.uncompressed hsequence hrecords hvalid hunpadded hpositive hremaining hafter) hcrcNext rfl
  · rw [hdecode]
    dsimp only
    rw [if_pos hend]
    exact accepts_finish_error digest hok hend

end Phases

/-- One turn. -/
theorem Scans.turn [DecidableEq Digest] (hscans : loop.Scans digest blocks text) :
    Scanned digest blocks text (loop.turn digest) := by
  cases hscans with
  | crc hblocks hcrc hinput htext =>
      rw [turn_crc digest hinput hcrc.sequence_eq, htext, ← hblocks]
      exact IndexHash.SeenCrc.crcLoop digest hcrc loop.input
  | body hblocks hseen hcrc htext =>
      by_cases hinput : loop.input = []
      · rw [hinput, List.append_nil] at htext
        rw [← htext] at hseen hcrc
        rw [turn_nil digest hinput]
        exact accepts_finish digest hblocks hseen hcrc hinput
      · obtain ⟨byte, input, hcons⟩ := List.exists_cons_of_ne_nil hinput
        cases hseen with
        | block hsequence hpos hrecords =>
            exact scanned_block digest hblocks hcrc htext hcons hsequence hpos hrecords rfl
        | count hsequence hrecords hpart =>
            exact scanned_count digest hblocks hcrc htext hinput hsequence hrecords hpart rfl
        | unpadded hsequence hrecords hvalid hpositive hremaining hpart =>
            exact scanned_unpadded digest hblocks hcrc htext hinput hsequence hrecords hvalid
              hpositive hremaining hpart rfl
        | uncompressed hsequence hrecords hvalid hunpadded hpositive hremaining hpart =>
            exact scanned_uncompressed digest hblocks hcrc htext hinput hsequence hrecords hvalid
              hunpadded hpositive hremaining hpart rfl
        | @paddingInit front hsequence hrecords hvalid hcount =>
            have hinitBlocks : loop.paddingInit.hash.blocks = blocks := hblocks
            have hinitCrc : crc32 loop.paddingInit.taken loop.paddingInit.hash.crc32 = _ := hcrc
            have hinitText : text = _ ++ loop.paddingInit.input := htext
            have hpos : 0 + loop.paddingInit.hash.pos = indexPadding front := by
              rw [paddingInit, hrecords, Nat.zero_add]
              rfl
            rw [turn_paddingInit digest hcons hsequence]
            exact scanned_padding digest hinitBlocks hinitCrc hinitText hcons rfl hrecords
              hvalid hcount hpos rfl
        | padding hsequence hrecords hvalid hcount hpadding =>
            rw [turn_padding digest hcons hsequence]
            exact scanned_padding digest hblocks hcrc htext hcons hsequence hrecords hvalid hcount
              hpadding rfl

end Turn

end IndexLoop

namespace IndexHash

section Run

variable {Digest : Type} [DecidableEq Digest] (digest : List IndexRecord → Digest)
  {hash : IndexHash} {text : Bytes}

/-- One call. -/
theorem Read.decode (hread : hash.Read digest text) {input : Bytes} (hinput : input ≠ [])
    {left : LzmaRet × IndexHash × Bytes} (hdecode : hash.decode digest input = .ok left) :
    Accepts digest hash.blocks (text ++ input) left := by
  have hstart : (⟨hash, input, []⟩ : IndexLoop).Scans digest hash.blocks (text ++ input) := by
    cases hread with
    | body hseen hcrc =>
        refine .body rfl hseen ?_ rfl
        rw [← hcrc]
        exact BitVec.not_not
    | crc hcrc => exact .crc rfl hcrc hinput rfl
  rw [IndexHash.decode, if_neg hinput] at hdecode
  generalize hrun : Loop.runFor _ _ _ = returned at hdecode
  cases returned with
  | none => cases hdecode
  | some result =>
      rw [Option.getD_some] at hdecode
      subst hdecode
      have hpost := Loop.Returns.of_invariant
        (fun loop => loop.Scans digest hash.blocks (text ++ input))
        (fun result => ∀ left, result = .ok left → Accepts digest hash.blocks (text ++ input) left)
        ?_ ?_ hstart ⟨_, hrun⟩
      · exact hpost left rfl
      · intro loop next hscans hturn
        have hscanned := hscans.turn digest
        rw [Loop.fallible] at hturn
        cases hnext : loop.turn digest with
        | inl after =>
            rw [hnext] at hturn hscanned
            cases hturn
            exact hscanned
        | inr after =>
            rw [hnext] at hturn
            cases hturn
      · intro loop result hscans hturn left hresult
        have hscanned := hscans.turn digest
        rw [Loop.fallible] at hturn
        cases hnext : loop.turn digest with
        | inl after =>
            rw [hnext] at hturn
            cases hturn
        | inr after =>
            rw [hnext] at hturn hscanned
            cases hturn
            cases hresult
            exact hscanned

/-- Several calls. -/
theorem Read.decodeCalls (hread : hash.Read digest text) (pieces : List Bytes)
    {after : IndexHash} {unread : Bytes}
    (haccept : hash.decodeCalls digest [] pieces = .ok (.streamEnd, after, unread)) :
    ∃ records, text ++ pieces.flatten = indexEncode records ++ unread ∧
      (∀ record ∈ records, record.Valid) ∧ hash.blocks.Agrees digest records := by
  induction pieces generalizing hash text with
  | nil =>
      rw [IndexHash.decodeCalls] at haccept
      cases haccept
  | cons piece pieces ih =>
      rw [IndexHash.decodeCalls, List.nil_append] at haccept
      rw [List.flatten_cons]
      by_cases hempty : piece = []
      · rw [if_pos hempty] at haccept
        rw [hempty, List.nil_append]
        exact ih hread haccept
      · rw [if_neg hempty] at haccept
        obtain ⟨⟨ret, next, left⟩, hdecode, hrest⟩ := bind_eq_ok_iff.mp haccept
        have haccepts := hread.decode digest hempty hdecode
        dsimp only at hrest
        by_cases hok : ret = .ok
        · rw [if_pos hok] at hrest
          rw [hok] at haccepts
          obtain ⟨hleft, hblocks, hnext⟩ := haccepts
          rw [hleft] at hrest
          obtain ⟨records, htext, hvalid, hagrees⟩ := ih hnext hrest
          rw [hblocks] at hagrees
          exact ⟨records, by rw [← htext, List.append_assoc], hvalid, hagrees⟩
        · rw [if_neg hok] at hrest
          cases hrest
          obtain ⟨records, htext, hvalid, hagrees⟩ := haccepts
          exact ⟨records, by rw [← List.append_assoc, htext, List.append_assoc], hvalid, hagrees⟩

end Run

section Accepted

variable {Digest : Type} (digest : List IndexRecord → Digest) {records : List IndexRecord}
  {hash : IndexHash}

/-- The decoder that has only been given the sizes of blocks has read nothing of an index. -/
theorem read_appendAll {garbage : ℕ} (happend : (init garbage).appendAll records = .ok hash) :
    hash.blocks = indexInfo records ∧ hash.Read digest [] := by
  have hblocks : (init garbage).blocks = indexInfo [] := rfl
  obtain ⟨-, hhash, -⟩ := appendAll_eq_ok hblocks happend
  rw [List.nil_append] at hhash
  rw [hhash]
  exact ⟨rfl, .body (.block rfl rfl rfl) rfl⟩

variable [DecidableEq Digest]

/-- **What is accepted is an index of the blocks.** If the end is reported, what has been
read is what the encoder writes for some records that could be those of blocks and agree with
the blocks in number, in all sums and in their hash. -/
theorem exists_agrees_of_accepted (garbage : ℕ)
    (happend : (init garbage).appendAll records = .ok hash) (pieces : List Bytes)
    {after : IndexHash} {unread : Bytes}
    (haccept : hash.decodeCalls digest [] pieces = .ok (.streamEnd, after, unread)) :
    ∃ others, pieces.flatten = indexEncode others ++ unread ∧
      (∀ other ∈ others, other.Valid) ∧ (indexInfo records).Agrees digest others := by
  obtain ⟨hblocks, hread⟩ := read_appendAll digest happend
  obtain ⟨others, htext, hvalid, hagrees⟩ := hread.decodeCalls digest pieces haccept
  rw [hblocks] at hagrees
  exact ⟨others, htext, hvalid, hagrees⟩

/-- The index of two blocks in two pieces. -/
theorem exists_agrees_of_accepted_two :
    ∃ others, [[0, 2, 25, 1, 172], [2, 240, 162, 4, 0, 0, 0, 157, 96, 19, 21, 31]].flatten =
        indexEncode others ++ [31] ∧
      (∀ other ∈ others, other.Valid) ∧ (indexInfo sampleRecords).Agrees id others := by
  have haccept : sampleHash.decodeCalls id []
      [[0, 2, 25, 1, 172], [2, 240, 162, 4, 0, 0, 0, 157, 96, 19, 21, 31]] =
      .ok (.streamEnd, ⟨.crc32, sampleHash.blocks, sampleHash.blocks, 0, 300, 70000, 4,
        crcWord [157, 96, 19, 21]⟩, [31]) := by
    decide +kernel
  exact exists_agrees_of_accepted id 0 appendAll_sample _ haccept

/-- **Burst errors.** Whatever the blocks are, an index that differs from one that the encoder
writes in up to four adjacent bytes, in the CRC32 or before it, is not accepted. -/
theorem not_accepted_of_burst (garbage : ℕ)
    (happend : (init garbage).appendAll records = .ok hash) {written : List IndexRecord}
    {before first second behind : Bytes}
    (hwritten : before ++ first ++ behind = indexEncode written)
    (hlength : first.length = second.length) (hburst : first.length ≤ 4) (hne : first ≠ second)
    {pieces : List Bytes} (hpieces : pieces.flatten = before ++ second ++ behind)
    (after : IndexHash) :
    hash.decodeCalls digest [] pieces ≠ .ok (.streamEnd, after, []) := by
  intro haccept
  obtain ⟨-, hread⟩ := read_appendAll digest happend
  obtain ⟨others, htext, -, -⟩ := hread.decodeCalls digest pieces haccept
  have hcrc (list : List IndexRecord) : crcSmall poly32 (indexBody list) 0 =
      crcWord (write32le (Dht.crc32 (indexBody list) 0)) := by
    rw [crcWord_write32le, Dht.crc32]
  rw [List.nil_append, hpieces, List.append_nil] at htext
  exact hne (eq_of_crc32_eq hwritten htext rfl rfl hlength hburst (hcrc written) (hcrc others))

/-- A size that has been changed. -/
theorem not_accepted_of_burst_two :
    ¬ ∃ after, sampleHash.decodeCalls id []
      [[0, 2, 25, 1, 172], [2, 240, 163, 4, 0, 0, 0, 157, 96, 19, 21]] =
        .ok (.streamEnd, after, []) := by
  rintro ⟨after, haccept⟩
  have hwritten : [0, 2, 25, 1, 172, 2, 240] ++ [162] ++ [4, 0, 0, 0, 157, 96, 19, 21] =
      indexEncode sampleRecords := by
    rw [indexEncode, indexBody_sample]
    decide +kernel
  have hpieces : List.flatten [[0, 2, 25, 1, 172], [2, 240, 163, 4, 0, 0, 0, 157, 96, 19, 21]] =
      ([0, 2, 25, 1, 172, 2, 240] ++ [163] ++ [4, 0, 0, 0, 157, 96, 19, 21] : Bytes) := rfl
  have hlength : ([162] : Bytes).length = ([163] : Bytes).length := rfl
  exact not_accepted_of_burst id 0 appendAll_sample hwritten hlength (by decide) (by decide)
    hpieces after haccept

end Accepted

end IndexHash

end Dht
