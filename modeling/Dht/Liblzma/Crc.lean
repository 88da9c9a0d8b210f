/-
# The integrity checks CRC32 and CRC64

`lzma_crc32` fixes the alignment byte by byte, takes eight bytes a turn with eight tables,
and takes what is left byte by byte; `lzma_crc64` takes four bytes a turn with four tables.
The versions of `crc32_small.c` and `crc64_small.c` take one byte after the other.

The tables are those that `crc32_tablegen.c` and `crc64_tablegen.c` compute. A read past the
end of the buffer would be undefined.
-/

import Dht.Core.Outcome
import Dht.Lib.Crc
import Mathlib.Data.List.Basic

namespace Dht

open Crc

/-- `poly32`. -/
def poly32 : BitVec 32 := 0xEDB88320

/-- `poly64`. -/
def poly64 : BitVec 64 := 0xC96C5795D7870F42

section Tables

variable {w : ℕ} (poly : BitVec w)

/-- `init_crc32_table` and `init_crc64_table`: every table is made from the one before. -/
def crcTable : ℕ → BitVec 8 → BitVec w
  | 0, b => (bitStep poly)^[8] (b.setWidth w)
  | s + 1, b => (bitStep poly)^[8] (crcTable s b)

/-- `A`, `B`, `C` and `D`. -/
def crcByte (i : ℕ) (x : BitVec w) : BitVec 8 := (x >>> (8 * i)).setWidth 8

/-- A byte that is taken alone. -/
def crcNext (crc : BitVec w) (byte : UInt8) : BitVec w :=
  crcTable poly 0 (byte.toBitVec ^^^ crcByte 0 crc) ^^^ (crc >>> 8)

/-- `lzma_crc32` of `crc32_small.c` and `lzma_crc64` of `crc64_small.c`. -/
def crcSmall (buf : Bytes) (crc : BitVec w) : BitVec w := ~~~(buf.foldl (crcNext poly) (~~~crc))

/-- The loop that fixes the alignment: bytes are taken until the address is a multiple of
`size`. -/
def crcAlign (size : ℕ) : ℕ → Bytes → BitVec w → Outcome (Bytes × BitVec w)
  | address, [], crc => if address % size = 0 then .ok ([], crc) else undefined
  | address, byte :: buf, crc =>
      if address % size = 0 then .ok (byte :: buf, crc)
      else crcAlign size (address + 1) buf (crcNext poly crc byte)

/-- The loop over the words: every turn takes `size` bytes. -/
def crcWords (size : ℕ) (turn : BitVec w → Bytes → BitVec w) :
    ℕ → Bytes → BitVec w → Outcome (Bytes × BitVec w)
  | 0, buf, crc => .ok (buf, crc)
  | turns + 1, buf, crc =>
      if size ≤ buf.length then
        crcWords size turn turns (buf.drop size) (turn crc (buf.take size))
      else undefined

/-- What `crc32_fast.c` and `crc64_fast.c` share, for a buffer at an address. -/
def crcFast (size : ℕ) (turn : BitVec w → Bytes → BitVec w) (address : ℕ) (buf : Bytes)
    (crc : BitVec w) : Outcome (BitVec w) := do
  let crc := ~~~crc
  let (buf, crc) ←
    if size < buf.length then do
      let (buf, crc) ← crcAlign poly size address buf crc
      crcWords size turn (buf.length / size) buf crc
    else pure (buf, crc)
  return ~~~(buf.foldl (crcNext poly) crc)

end Tables

/-- The word at an address, with its lowest byte first. -/
def crcWord (bytes : Bytes) : BitVec 32 := word (bytes.map UInt8.toBitVec)

/-- The two words that `lzma_crc32` takes in one turn. -/
def crc32Turn (crc : BitVec 32) (bytes : Bytes) : BitVec 32 :=
  let crc := crc ^^^ crcWord (bytes.take 4)
  let crc := crcTable poly32 7 (crcByte 0 crc) ^^^ crcTable poly32 6 (crcByte 1 crc) ^^^
    crcTable poly32 5 (crcByte 2 crc) ^^^ crcTable poly32 4 (crcByte 3 crc)
  let tmp := crcWord (bytes.drop 4)
  crcTable poly32 3 (crcByte 0 tmp) ^^^ crcTable poly32 2 (crcByte 1 tmp) ^^^ crc ^^^
    crcTable poly32 1 (crcByte 2 tmp) ^^^ crcTable poly32 0 (crcByte 3 tmp)

/-- `lzma_crc32` of `crc32_fast.c`. -/
def lzmaCrc32 : ℕ → Bytes → BitVec 32 → Outcome (BitVec 32) := crcFast poly32 8 crc32Turn

/-- The word that `lzma_crc64` takes in one turn. -/
def crc64Turn (crc : BitVec 64) (bytes : Bytes) : BitVec 64 :=
  let tmp := crc.setWidth 32 ^^^ crcWord bytes
  crcTable poly64 3 (crcByte 0 tmp) ^^^ crcTable poly64 2 (crcByte 1 tmp) ^^^ (crc >>> 32) ^^^
    crcTable poly64 1 (crcByte 2 tmp) ^^^ crcTable poly64 0 (crcByte 3 tmp)

/-- `lzma_crc64` of `crc64_fast.c`. -/
def lzmaCrc64 : ℕ → Bytes → BitVec 64 → Outcome (BitVec 64) := crcFast poly64 4 crc64Turn

/-! ## One byte after the other -/

section Bytes

variable {w : ℕ} (poly : BitVec w)

theorem crcTable_eq (slice : ℕ) (b : BitVec 8) : crcTable poly slice b = table poly slice b := by
  induction slice with
  | zero => rfl
  | succ slice ih =>
      rw [crcTable, ih]
      exact byteSteps_table poly 1 slice b

theorem crcByte_zero (x : BitVec w) : crcByte 0 x = x.setWidth 8 := by
  rw [crcByte, Nat.mul_zero, BitVec.ushiftRight_zero]

/-- A byte that is taken alone is taken as the definition of the check says. -/
theorem crcNext_eq (hw : 8 ≤ w) (crc : BitVec w) (byte : UInt8) :
    crcNext poly crc byte = update poly crc byte.toBitVec := by
  rw [crcNext, crcTable_eq, crcByte_zero, update_eq poly hw]

theorem foldl_crcNext (hw : 8 ≤ w) (buf : Bytes) (crc : BitVec w) :
    buf.foldl (crcNext poly) crc = (buf.map UInt8.toBitVec).foldl (update poly) crc := by
  rw [List.foldl_map]
  congr 1
  funext register byte
  exact crcNext_eq poly hw register byte

/-- The alignment takes a front of the buffer that is shorter than what it aligns to. -/
theorem crcAlign_eq {size : ℕ} (address : ℕ) (hsize : 0 < size) {buf : Bytes}
    (hlength : size ≤ buf.length + address % size ∨ address % size = 0) (crc : BitVec w) :
    ∃ front rest, buf = front ++ rest ∧
      crcAlign poly size address buf crc = .ok (rest, front.foldl (crcNext poly) crc) := by
  induction buf generalizing address crc with
  | nil =>
      have haligned : address % size = 0 := by
        rcases hlength with hshort | haligned
        · have hlt := Nat.mod_lt address hsize
          rw [List.length_nil] at hshort
          omega
        · exact haligned
      exact ⟨[], [], rfl, by rw [crcAlign, if_pos haligned]; rfl⟩
  | cons byte buf ih =>
      by_cases haligned : address % size = 0
      · exact ⟨[], byte :: buf, rfl, by rw [crcAlign, if_pos haligned]; rfl⟩
      · have hlater : size ≤ buf.length + (address + 1) % size ∨ (address + 1) % size = 0 := by
          have hstep : address % size < size := Nat.mod_lt address hsize
          have hshort := hlength.resolve_right haligned
          rw [List.length_cons] at hshort
          rw [← Nat.mod_add_mod]
          by_cases hlast : address % size + 1 = size
          · right
            rw [hlast, Nat.mod_self]
          · left
            rw [Nat.mod_eq_of_lt (by omega)]
            omega
        obtain ⟨front, rest, hbuf, halign⟩ := ih (address + 1) hlater (crcNext poly crc byte)
        refine ⟨byte :: front, rest, by rw [hbuf]; rfl, ?_⟩
        rw [crcAlign, if_neg haligned, halign]
        rfl

end Bytes

/-! ## Words -/

section Words

/-- The tables that four bytes are looked up in. -/
theorem slices_four {w : ℕ} (poly : BitVec w) (first : ℕ) (x : BitVec w) :
    slices poly first 4 x =
      crcTable poly (first + 3) (crcByte 0 x) ^^^ (crcTable poly (first + 2) (crcByte 1 x) ^^^
        (crcTable poly (first + 1) (crcByte 2 x) ^^^ crcTable poly first (crcByte 3 x))) := by
  simp only [slices, crcTable_eq, crcByte, ← BitVec.shiftRight_add, Nat.mul_zero,
    BitVec.ushiftRight_zero]
  simp

/-- Two words taken at once are taken as their bytes. -/
theorem crc32Turn_eq (crc : BitVec 32) {bytes : Bytes} (hlength : bytes.length = 8) :
    crc32Turn crc bytes = bytes.foldl (crcNext poly32) crc := by
  generalize hfirst : (bytes.take 4).map UInt8.toBitVec = first
  generalize hsecond : (bytes.drop 4).map UInt8.toBitVec = second
  have hfour : first.length = 4 ∧ second.length = 4 := by
    rw [← hfirst, ← hsecond, List.length_map, List.length_map, List.length_take,
      List.length_drop]
    omega
  have hbytes : bytes.map UInt8.toBitVec = first ++ second := by
    rw [← hfirst, ← hsecond, ← List.map_append, List.take_append_drop]
  have hout (x : BitVec 32) : x >>> (8 * 4) = 0#32 := BitVec.ushiftRight_eq_zero (by decide)
  have hword : (byteStep poly32)^[4] (word second) = slices poly32 0 4 (word second) := by
    rw [byteSteps_eq, hout, BitVec.xor_zero]
  rw [foldl_crcNext poly32 (by decide), hbytes, List.foldl_append,
    foldl_update poly32 second (by omega), byteSteps_xor,
    foldl_update_eq_slices poly32 first (by omega), hfour.1, hfour.2, hout, BitVec.xor_zero,
    byteSteps_slices, hword, slices_four, slices_four, crc32Turn, crcWord, crcWord, hfirst, hsecond]
  ac_rfl

theorem crcByte_setWidth {i : ℕ} (hi : i < 4) (x : BitVec 64) :
    crcByte i (x.setWidth 32) = crcByte i x := by
  apply BitVec.eq_of_getLsbD_eq
  intro bit hbit
  have hinside : 8 * i + bit < 32 := by omega
  simp [crcByte, hbit, hinside]

/-- A word taken at once is taken as its bytes. -/
theorem crc64Turn_eq (crc : BitVec 64) {bytes : Bytes} (hlength : bytes.length = 4) :
    crc64Turn crc bytes = bytes.foldl (crcNext poly64) crc := by
  generalize hmap : bytes.map UInt8.toBitVec = mapped
  have hfour : mapped.length = 4 := by rw [← hmap, List.length_map, hlength]
  have htmp : crc.setWidth 32 ^^^ word mapped = (crc ^^^ word mapped).setWidth 32 := by
    rw [BitVec.setWidth_xor, setWidth_word (by decide)]
  rw [foldl_crcNext poly64 (by decide), hmap, foldl_update_eq_slices poly64 mapped (by omega),
    hfour, slices_four, crc64Turn, crcWord, hmap, htmp, crcByte_setWidth (by decide),
    crcByte_setWidth (by decide), crcByte_setWidth (by decide), crcByte_setWidth (by decide)]
  ac_rfl

end Words

/-! ## The fast versions -/

section Fast

variable {w : ℕ} {poly : BitVec w} {size : ℕ} {turn : BitVec w → Bytes → BitVec w}

theorem crcWords_eq
    (hturn : ∀ crc {bytes : Bytes}, bytes.length = size →
      turn crc bytes = bytes.foldl (crcNext poly) crc)
    (turns : ℕ) {buf : Bytes} (hturns : turns * size ≤ buf.length) (crc : BitVec w) :
    ∃ front rest, buf = front ++ rest ∧
      crcWords size turn turns buf crc = .ok (rest, front.foldl (crcNext poly) crc) := by
  induction turns generalizing buf crc with
  | zero => exact ⟨[], buf, rfl, rfl⟩
  | succ turns ih =>
      rw [Nat.succ_mul] at hturns
      have hsize : size ≤ buf.length := by omega
      have htake : (buf.take size).length = size := by
        rw [List.length_take]
        omega
      have hdrop : turns * size ≤ (buf.drop size).length := by
        rw [List.length_drop]
        omega
      obtain ⟨front, rest, hbuf, hwords⟩ := ih hdrop (turn crc (buf.take size))
      refine ⟨buf.take size ++ front, rest, ?_, ?_⟩
      · rw [List.append_assoc, ← hbuf, List.take_append_drop]
      · rw [crcWords, if_pos hsize, hwords, hturn crc htake, List.foldl_append]

/-- Whatever the alignment is, no byte is taken twice, left out, or read behind the end. -/
theorem crcFast_eq (hsize : 0 < size)
    (hturn : ∀ crc {bytes : Bytes}, bytes.length = size →
      turn crc bytes = bytes.foldl (crcNext poly) crc)
    (address : ℕ) (buf : Bytes) (crc : BitVec w) :
    crcFast poly size turn address buf crc = .ok (crcSmall poly buf crc) := by
  rw [crcFast, crcSmall]
  by_cases hlong : size < buf.length
  · have hroom : size ≤ buf.length + address % size ∨ address % size = 0 := .inl (by omega)
    obtain ⟨front, rest, hbuf, halign⟩ := crcAlign_eq poly address hsize hroom (~~~crc)
    obtain ⟨middle, last, hrest, hwords⟩ :=
      crcWords_eq hturn (rest.length / size) (Nat.div_mul_le_self _ _)
        (front.foldl (crcNext poly) (~~~crc))
    simp only [if_pos hlong, halign, ok_bind, hwords]
    rw [hbuf, hrest, List.foldl_append, List.foldl_append]
    rfl
  · simp only [if_neg hlong]
    rfl

end Fast

/-- **The fast versions are the small ones**, for every buffer at every address of a
little-endian machine. -/
theorem lzmaCrc_eq_small (address : ℕ) (buf : Bytes) (crc32 : BitVec 32) (crc64 : BitVec 64) :
    lzmaCrc32 address buf crc32 = .ok (crcSmall poly32 buf crc32) ∧
      lzmaCrc64 address buf crc64 = .ok (crcSmall poly64 buf crc64) :=
  ⟨crcFast_eq (by decide) crc32Turn_eq address buf crc32,
    crcFast_eq (by decide) crc64Turn_eq address buf crc64⟩

/-! ## Fields with a CRC32 -/

/-- `unaligned_write32le`. -/
def write32le (number : BitVec 32) : Bytes :=
  [.ofBitVec (crcByte 0 number), .ofBitVec (crcByte 1 number), .ofBitVec (crcByte 2 number),
    .ofBitVec (crcByte 3 number)]

section Fields

theorem map_write32le (number : BitVec 32) :
    (write32le number).map UInt8.toBitVec = bytes 4 number := by
  simp only [write32le, List.map_cons, List.map_nil, bytes, crcByte, ← BitVec.shiftRight_add,
    Nat.mul_zero, BitVec.ushiftRight_zero]

/-- `unaligned_read32le` reads what was written. -/
theorem crcWord_write32le (number : BitVec 32) : crcWord (write32le number) = number := by
  rw [crcWord, map_write32le]
  exact word_bytes (BitVec.ushiftRight_eq_zero (by decide))

theorem write32le_crcWord {field : Bytes} (hfield : field.length = 4) :
    write32le (crcWord field) = field := by
  have hmap : (field.map UInt8.toBitVec).length = 4 := by rw [List.length_map, hfield]
  have hinjective : Function.Injective UInt8.toBitVec := fun _ _ => UInt8.toBitVec_inj.mp
  apply hinjective.list_map
  rw [map_write32le, crcWord, ← hmap]
  exact bytes_word (by omega)

/-- A CRC32 behind what it is of leaves always the same register. -/
theorem crc32_eq_iff {field : Bytes} (hfield : field.length = 4) (buf : Bytes) :
    crcSmall poly32 buf 0 = crcWord field ↔
      (buf ++ field).foldl (crcNext poly32) (~~~0) = (byteStep poly32)^[4] (~~~0#32) := by
  have hmap : (field.map UInt8.toBitVec).length = 4 := by rw [List.length_map, hfield]
  rw [crcSmall, List.foldl_append, foldl_crcNext poly32 (by decide) field,
    foldl_update poly32 _ (by omega), hmap, crcWord]
  generalize buf.foldl (crcNext poly32) (~~~0) = register
  generalize (word (field.map UInt8.toBitVec) : BitVec 32) = stored
  constructor
  · intro heq
    rw [← heq, ← BitVec.not_xor_right, BitVec.xor_self]
  · intro heq
    have hsum := byteSteps_injective (by decide) 4 heq
    have hzero : ~~~register ^^^ stored = 0#32 := by
      rw [← BitVec.not_xor_left, hsum, BitVec.not_not]
    exact BitVec.xor_eq_zero_iff.mp hzero

/-- **Burst errors in a field with its CRC32.** If two such fields of the same length differ
in four adjacent bytes at most, in the CRC32 or not, only one of them can be valid. -/
theorem eq_of_crc32_eq {before first second after : Bytes} {buf other field otherField : Bytes}
    (hfirst : before ++ first ++ after = buf ++ field)
    (hsecond : before ++ second ++ after = other ++ otherField) (hfield : field.length = 4)
    (hother : otherField.length = 4) (hlength : first.length = second.length)
    (hburst : first.length ≤ 4) (hvalid : crcSmall poly32 buf 0 = crcWord field)
    (hotherValid : crcSmall poly32 other 0 = crcWord otherField) : first = second := by
  rw [crc32_eq_iff hfield, ← hfirst, foldl_crcNext poly32 (by decide)] at hvalid
  rw [crc32_eq_iff hother, ← hsecond, foldl_crcNext poly32 (by decide), ← hvalid] at hotherValid
  rw [List.map_append, List.map_append, List.map_append, List.map_append] at hotherValid
  have hinjective : Function.Injective UInt8.toBitVec := fun _ _ => UInt8.toBitVec_inj.mp
  apply hinjective.list_map
  exact (eq_of_foldl_update (by decide) (by simpa using hlength.symm)
    (by rw [List.length_map]; omega) hotherValid).symm

end Fields

end Dht
