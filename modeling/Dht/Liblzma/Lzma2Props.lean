/-
# The properties of LZMA2

The one byte of properties of an LZMA2 filter gives the size of the dictionary: a power of
two, or a half more, or the largest size there is. The encoder rounds the size that it was
asked for up to one of these, by copying the highest bit of the size below one into all
bits below the two highest.

Every byte the decoder accepts is the one the encoder writes for the size read from it, and
the size written is the least that is enough. So a decoder opened with it has a dictionary
that holds the window of the encoder.
-/

import Dht.Compression.Lzma
import Dht.Liblzma.DistSlot
import Dht.Liblzma.Lzma2RoundTrip
import Mathlib.Order.Bounds.Basic

namespace Dht

/-! ## The source -/

/-- The part of `lzma_lzma2_props_encode` that rounds up to one below a power of two or one
below a half more. -/
def lzma2PropsRound (d : ℕ) : ℕ :=
  let d := d ||| d >>> 2
  let d := d ||| d >>> 3
  let d := d ||| d >>> 4
  let d := d ||| d >>> 8
  d ||| d >>> 16

/-- `lzma_lzma2_props_encode`. -/
def lzma2PropsEncode (dictSize : ℕ) : UInt8 :=
  let d := lzma2PropsRound (max dictSize 4096 - 1)
  if d = 2 ^ 32 - 1 then 40 else UInt8.ofNat (getDistSlot (d + 1) - 24)

/-- `lzma_lzma2_props_decode`: the size of the dictionary. -/
def lzma2PropsDecode (props : Bytes) : Except LzmaRet ℕ :=
  match props with
  | [byte] =>
      -- reserved bits
      if byte &&& 0xC0 ≠ 0 then .error .optionsError
      else if 40 < byte then .error .optionsError
      else if byte = 40 then .ok (2 ^ 32 - 1)
      else .ok ((2 ||| (byte.toNat &&& 1)) <<< (byte.toNat / 2 + 11))
  | _ => .error .optionsError

/-! ## Rounding up -/

/-- The bits at these places below the highest are set. -/
def SetBelow (places : ℕ → Prop) (top d : ℕ) : Prop :=
  ∀ bit place, places place → bit + place = top → d.testBit bit = true

/-- A shift copies them. -/
theorem SetBelow.or_shiftRight {places : ℕ → Prop} {top d : ℕ} (hset : SetBelow places top d)
    (shift : ℕ) (more : ℕ → Prop)
    (hmore : ∀ place, more place → places place ∨ shift ≤ place ∧ places (place - shift)) :
    SetBelow more top (d ||| d >>> shift) := by
  intro bit place hplace hbit
  rw [Nat.testBit_or, Nat.testBit_shiftRight, Bool.or_eq_true]
  obtain hold | ⟨hshift, hcopied⟩ := hmore place hplace
  · exact .inl (hset bit place hold hbit)
  · exact .inr (hset (shift + bit) (place - shift) hcopied (by omega))

/-- The five shifts together set every bit below the two highest. -/
theorem setBelow_lzma2PropsRound {top d : ℕ} (htop : d.testBit top = true) :
    SetBelow (fun place => 2 ≤ place ∧ place < 32) top (lzma2PropsRound d) := by
  have hstart : SetBelow (fun place => place = 0) top d := by
    intro bit place hplace hbit
    obtain rfl : bit = top := by omega
    exact htop
  have hshift₂ := hstart.or_shiftRight 2 (fun place => place = 0 ∨ place = 2) (by omega)
  have hshift₃ := hshift₂.or_shiftRight 3
    (fun place => place = 0 ∨ place = 2 ∨ place = 3 ∨ place = 5) (by omega)
  have hshift₄ := hshift₃.or_shiftRight 4
    (fun place => place = 0 ∨ 2 ≤ place ∧ place < 8 ∨ place = 9) (by omega)
  have hshift₈ := hshift₄.or_shiftRight 8
    (fun place => place = 0 ∨ 2 ≤ place ∧ place < 16 ∨ place = 17) (by omega)
  exact hshift₈.or_shiftRight 16 _ (by omega)

/-- A shift by two or more leaves the two highest bits as they are. -/
theorem or_shiftRight_div {place d : ℕ} (hd : d < 2 ^ (place + 2)) (shift : ℕ)
    (hshift : 2 ≤ shift) :
    (d ||| d >>> shift) < 2 ^ (place + 2) ∧
      (d ||| d >>> shift) / 2 ^ place = d / 2 ^ place := by
  have hcopy : d >>> shift < 2 ^ place := by
    rw [Nat.shiftRight_eq_div_pow, Nat.div_lt_iff_lt_mul (Nat.two_pow_pos shift), ← pow_add]
    exact hd.trans_le (Nat.pow_le_pow_right (by norm_num) (by omega))
  have hfits : d >>> shift < 2 ^ (place + 2) :=
    hcopy.trans_le (Nat.pow_le_pow_right (by norm_num) (by omega))
  refine ⟨Nat.or_lt_two_pow hd hfits, ?_⟩
  rw [← Nat.shiftRight_eq_div_pow, Nat.shiftRight_or_distrib,
    Nat.shiftRight_eq_div_pow (d >>> shift), Nat.div_eq_of_lt hcopy, Nat.or_zero,
    Nat.shiftRight_eq_div_pow]

theorem lzma2PropsRound_div {place d : ℕ} (hd : d < 2 ^ (place + 2)) :
    lzma2PropsRound d / 2 ^ place = d / 2 ^ place := by
  obtain ⟨hlt₂, hdiv₂⟩ := or_shiftRight_div hd 2 (by norm_num)
  obtain ⟨hlt₃, hdiv₃⟩ := or_shiftRight_div hlt₂ 3 (by norm_num)
  obtain ⟨hlt₄, hdiv₄⟩ := or_shiftRight_div hlt₃ 4 (by norm_num)
  obtain ⟨hlt₈, hdiv₈⟩ := or_shiftRight_div hlt₄ 8 (by norm_num)
  obtain ⟨-, hdiv₁₆⟩ := or_shiftRight_div hlt₈ 16 (by norm_num)
  rw [lzma2PropsRound, hdiv₁₆, hdiv₈, hdiv₄, hdiv₃, hdiv₂]

/-- Rounding up goes to the end of the slot. -/
theorem lzma2PropsRound_eq {slot d : ℕ} (hslot : InSlot slot d) (hd : d < 2 ^ 32) :
    lzma2PropsRound d + 1 = distBase (slot + 1) := by
  have hdiv := hslot.div_eq
  have hsucc := distBase_succ hslot.1
  rw [distBase_eq slot] at hsucc
  generalize slot / 2 - 1 = place at hdiv hsucc
  have hpower : 0 < 2 ^ place := Nat.two_pow_pos place
  have hlt : d < 2 ^ (place + 2) := by
    rw [pow_add, Nat.mul_comm, ← Nat.div_lt_iff_lt_mul hpower, hdiv]
    omega
  have hhighest : d.testBit (place + 1) = true := by
    rw [Nat.testBit_eq_decide_div_mod_eq, pow_succ, ← Nat.div_div_eq_div_mul, hdiv,
      decide_eq_true_iff]
    omega
  have hplace : place + 1 < 32 := by
    by_contra hlarge
    have hzero := Nat.testBit_lt_two_pow
      (hd.trans_le (Nat.pow_le_pow_right (by norm_num) (Nat.not_lt.mp hlarge)))
    rw [hhighest] at hzero
    exact Bool.noConfusion hzero
  have hbelow : lzma2PropsRound d % 2 ^ place = 2 ^ place - 1 := by
    refine Nat.eq_of_testBit_eq fun bit => ?_
    rw [Nat.testBit_mod_two_pow, Nat.testBit_two_pow_sub_one]
    by_cases hbit : bit < place
    · rw [setBelow_lzma2PropsRound hhighest bit (place + 1 - bit) (by omega) (by omega),
        Bool.and_true]
    · rw [decide_eq_false hbit, Bool.false_and]
  have hsplit := Nat.div_add_mod (lzma2PropsRound d) (2 ^ place)
  rw [lzma2PropsRound_div hlt, hdiv, hbelow, Nat.mul_comm] at hsplit
  omega

/-! ## Sizes -/

/-- The size that a byte of at most forty stands for: the start of a slot, but the last is
one more than fits. -/
def lzma2PropsSize (byte : ℕ) : ℕ := min (distBase (byte + 24)) (2 ^ 32 - 1)

theorem lzma2PropsSize_mono {byte other : ℕ} (hle : byte ≤ other) :
    lzma2PropsSize byte ≤ lzma2PropsSize other :=
  min_le_min_right _ (distBase_le (by omega) (by omega))

theorem lzma2PropsSize_of_lt {byte : ℕ} (hbyte : byte < 40) :
    lzma2PropsSize byte = distBase (byte + 24) := by
  have hlast : distBase (byte + 24) ≤ distBase 63 := distBase_le (by omega) (by omega)
  have hvalue : distBase 63 = 3 * 2 ^ 30 := rfl
  exact min_eq_left (by omega)

theorem lzma2PropsBase_eq (byte : ℕ) :
    (2 ||| (byte &&& 1)) <<< (byte / 2 + 11) = distBase (byte + 24) := by
  rw [distBase, Nat.and_one_is_mod, Nat.and_one_is_mod, Nat.shiftRight_eq_div_pow, pow_one]
  have hbit : (byte + 24) % 2 = byte % 2 := by omega
  have hshift : (byte + 24) / 2 - 1 = byte / 2 + 11 := by omega
  rw [hbit, hshift]

/-- The decoder accepts one byte of at most forty. -/
theorem lzma2PropsDecode_eq_ok_iff {props : Bytes} {size : ℕ} :
    lzma2PropsDecode props = .ok size ↔
      ∃ byte, props = [byte] ∧ byte.toNat ≤ 40 ∧ size = lzma2PropsSize byte.toNat := by
  constructor
  · intro hdecode
    match props, hdecode with
    | [byte], hdecode =>
        refine ⟨byte, rfl, ?_⟩
        rw [lzma2PropsDecode] at hdecode
        split_ifs at hdecode with hreserved hlarge hlast
        · subst hlast
          exact ⟨le_rfl, (Except.ok.inj hdecode).symm⟩
        · have hle : byte.toNat ≤ 40 := Nat.not_lt.mp hlarge
          have hne : byte.toNat ≠ 40 := fun heq => hlast (UInt8.toNat_inj.mp heq)
          refine ⟨hle, ?_⟩
          rw [lzma2PropsSize_of_lt (by omega), ← lzma2PropsBase_eq]
          exact (Except.ok.inj hdecode).symm
  · rintro ⟨byte, rfl, hbyte, rfl⟩
    have hreserved : byte &&& 0xC0 = 0 := by
      rw [← UInt8.toNat_inj, UInt8.toNat_and]
      have hbits : ∀ value < 41, value &&& 192 = 0 := by decide
      exact hbits _ (Nat.lt_succ_of_le hbyte)
    have hlarge : ¬40 < byte := Nat.not_lt.mpr hbyte
    rw [lzma2PropsDecode, if_neg (not_not.mpr hreserved), if_neg hlarge]
    by_cases hlast : byte = 40
    · rw [if_pos hlast, hlast]
      rfl
    · have hne : byte.toNat ≠ 40 := fun heq => hlast (UInt8.toNat_inj.mp heq)
      rw [if_neg hlast, lzma2PropsSize_of_lt (by omega), lzma2PropsBase_eq]

/-- The byte written for a size tells the slot of the size below it. -/
theorem lzma2PropsEncode_eq {slot dictSize : ℕ} (hdict : dictSize < 2 ^ 32)
    (hslot : InSlot slot (max dictSize 4096 - 1)) :
    23 ≤ slot ∧ slot < 64 ∧ lzma2PropsEncode dictSize = UInt8.ofNat (slot - 23) := by
  have hround := lzma2PropsRound_eq hslot (by omega)
  obtain ⟨htwo, hstart, hend⟩ := hslot
  have hnext := distBase_succ htwo
  have hlow : 23 ≤ slot := by
    by_contra hsmall
    have hle : distBase (slot + 1) ≤ distBase 23 := distBase_le (by omega) (by omega)
    have hvalue : distBase 23 = 3072 := rfl
    omega
  have hhigh : slot < 64 := by
    by_contra hlarge
    have hle : distBase 64 ≤ distBase slot := distBase_le (by norm_num) (by omega)
    have hvalue : distBase 64 = 2 ^ 32 := rfl
    omega
  refine ⟨hlow, hhigh, ?_⟩
  rw [lzma2PropsEncode]
  by_cases hlast : slot = 63
  · subst hlast
    have hvalue : distBase (63 + 1) = 2 ^ 32 := rfl
    rw [if_pos (by omega)]
    rfl
  · have hle : distBase (slot + 1) ≤ distBase 63 := distBase_le (by omega) (by omega)
    have hvalue : distBase 63 = 3 * 2 ^ 30 := rfl
    have hfirst : InSlot (slot + 1) (distBase (slot + 1)) :=
      ⟨by omega, le_rfl, Nat.lt_add_of_pos_right (Nat.two_pow_pos _)⟩
    have hfound : getDistSlot (distBase (slot + 1)) = slot + 1 :=
      (inSlot_getDistSlot (by omega) (by omega)).1.unique hfirst
    rw [if_neg (by omega), hround, hfound, Nat.add_sub_add_right slot 1 23]

/-- The size below the one that a byte stands for is in the slot before. -/
theorem inSlot_lzma2PropsSize {byte : ℕ} (hbyte : byte ≤ 40) :
    InSlot (byte + 23) (max (lzma2PropsSize byte) 4096 - 1) := by
  by_cases hlast : byte = 40
  · subst hlast
    exact ⟨by norm_num, by decide, by decide⟩
  · have hfirst : distBase 24 ≤ distBase (byte + 24) := distBase_le (by norm_num) (by omega)
    have hvalue : distBase 24 = 4096 := rfl
    have hsucc : distBase (byte + 24) = distBase (byte + 23) + 2 ^ ((byte + 23) / 2 - 1) :=
      distBase_succ (by omega)
    have hpower : 0 < 2 ^ ((byte + 23) / 2 - 1) := Nat.two_pow_pos _
    rw [lzma2PropsSize_of_lt (by omega), max_eq_left (hvalue ▸ hfirst)]
    exact ⟨by omega, by omega, by omega⟩

/-- A byte the decoder accepts is the byte written for the size read from it. -/
theorem eq_lzma2PropsEncode_of_decode {props : Bytes} {size : ℕ}
    (hdecode : lzma2PropsDecode props = .ok size) : props = [lzma2PropsEncode size] := by
  obtain ⟨byte, rfl, hbyte, rfl⟩ := lzma2PropsDecode_eq_ok_iff.mp hdecode
  have hsize : lzma2PropsSize byte.toNat < 2 ^ 32 :=
    (min_le_right _ _).trans_lt (by norm_num)
  rw [(lzma2PropsEncode_eq hsize (inSlot_lzma2PropsSize hbyte)).2.2, Nat.add_sub_cancel,
    UInt8.ofNat_toNat]

/-- The byte written is the first whose size is enough. -/
theorem exists_lzma2PropsEncode {dictSize : ℕ} (hdict : dictSize < 2 ^ 32) :
    ∃ byte, lzma2PropsDecode [lzma2PropsEncode dictSize] = .ok (lzma2PropsSize byte) ∧
      dictSize ≤ lzma2PropsSize byte ∧ ∀ other < byte, lzma2PropsSize other < dictSize := by
  have hfound := (inSlot_getDistSlot (by omega : 2 ≤ max dictSize 4096 - 1) (by omega)).1
  generalize getDistSlot (max dictSize 4096 - 1) = slot at hfound
  obtain ⟨hlow, hhigh, hencode⟩ := lzma2PropsEncode_eq hdict hfound
  obtain ⟨htwo, hstart, hend⟩ := hfound
  rw [← distBase_succ htwo] at hend
  have hbyte : (lzma2PropsEncode dictSize).toNat = slot - 23 := by
    have hsmall : slot - 23 < 41 := by omega
    rw [hencode]
    exact UInt8.toNat_ofNat_of_lt (hsmall.trans (by decide))
  refine ⟨slot - 23, ?_, ?_, fun other hother => ?_⟩
  · exact lzma2PropsDecode_eq_ok_iff.mpr ⟨_, rfl, by omega, by rw [hbyte]⟩
  · have hnext : slot - 23 + 24 = slot + 1 := by omega
    rw [lzma2PropsSize, hnext]
    exact le_min (by omega) (by omega)
  · -- a smaller byte gives at most the start of the slot
    have hbase : lzma2PropsSize other ≤ distBase slot :=
      (min_le_left _ _).trans (distBase_le (by omega) (by omega))
    have hfirst : distBase 24 ≤ distBase slot := distBase_le (by norm_num) (by omega)
    have hvalue : distBase 24 = 4096 := rfl
    omega

/-- **The properties are canonical, and the size written is the least that is enough.** What
the decoder accepts is what the encoder writes for the size read. It reads a size of at
least the one asked for from what the encoder wrote, and no properties give a smaller one. -/
theorem lzma2PropsDecode_encode {dictSize : ℕ} (hdict : dictSize < 2 ^ 32) :
    (∀ props size, lzma2PropsDecode props = .ok size → props = [lzma2PropsEncode size]) ∧
      ∃ size, lzma2PropsDecode [lzma2PropsEncode dictSize] = .ok size ∧
        IsLeast {other | dictSize ≤ other ∧ ∃ props, lzma2PropsDecode props = .ok other}
          size := by
  refine ⟨fun props size => eq_lzma2PropsEncode_of_decode, ?_⟩
  obtain ⟨byte, hdecode, henough, hsmaller⟩ := exists_lzma2PropsEncode hdict
  refine ⟨_, hdecode, ⟨henough, _, hdecode⟩, ?_⟩
  rintro other ⟨hother, props, hprops⟩
  obtain ⟨given, rfl, -, rfl⟩ := lzma2PropsDecode_eq_ok_iff.mp hprops
  refine lzma2PropsSize_mono ?_
  by_contra hless
  exact absurd (hsmaller _ (Nat.not_le.mp hless)) (Nat.not_lt.mpr hother)

theorem lzma2PropsDecode_encode_last :
    (∀ props size, lzma2PropsDecode props = .ok size → props = [lzma2PropsEncode size]) ∧
      ∃ size, lzma2PropsDecode [lzma2PropsEncode (2 ^ 32 - 1)] = .ok size ∧
        IsLeast {other | 2 ^ 32 - 1 ≤ other ∧ ∃ props, lzma2PropsDecode props = .ok other}
          size :=
  lzma2PropsDecode_encode (by norm_num)

/-! ## The stream behind the properties -/

/-- **Round trip with the properties.** A decoder that is opened with the properties that
the encoder has written for its dictionary, whatever size was asked for, reproduces the
data from the stream that follows. -/
theorem lzma2_roundTrip_of_decoded (props : LzmaProps) {dictSize : ℕ} (hdict : dictSize < 2 ^ 32)
    {actions : List Lzma2Action}
    (hfits : (Lzma2Encoder.init props).ChunksFit dictSize [] actions) {size : ℕ}
    (hsize : lzma2PropsDecode [lzma2PropsEncode dictSize] = .ok size) {buf : Bytes}
    (hbuf : buf.length = lzDictSize size) (garbage : Lzma2Decoder)
    (calls : List (Bytes × ℕ)) {later more : Bytes}
    (htotal : (calls.map Prod.fst).flatten ++ later =
      (Lzma2Encoder.init props).lzma2Encode [] actions ++ more) :
    ∃ reading, (LzDecoder.init buf garbage).calls [] calls = .ok reading ∧
      (LzDecoder.init buf garbage).Reads [] ((Lzma2Encoder.init props).lzma2Data [] actions) later
        more calls reading := by
  obtain ⟨byte, hdecode, henough, -⟩ := exists_lzma2PropsEncode hdict
  obtain rfl : lzma2PropsSize byte = size := Except.ok.inj (hdecode.symm.trans hsize)
  obtain ⟨hwindow, haligned, hpos⟩ := lzDictSize_spec (lzma2PropsSize byte)
  rw [← hbuf] at hwindow haligned hpos
  exact exists_calls_of_window props hfits (henough.trans hwindow) haligned hpos garbage calls
    htotal

/-- The smallest dictionary has the properties zero, and they are written for it. -/
theorem lzma2PropsDecode_encode_smallest :
    lzma2PropsDecode [lzma2PropsEncode 4096] = .ok 4096 := by
  have hzero : lzma2PropsDecode [0] = .ok 4096 := by decide
  rwa [eq_lzma2PropsEncode_of_decode hzero] at hzero

theorem lzma2_roundTrip_of_decoded_sample :
    ∃ reading, sampleDecoder.calls []
        [([224, 0, 11, 0], 5), ([6, 93, 0, 48, 236, 60, 0, 0, 0, 0, 7], 20)] = .ok reading ∧
      sampleDecoder.Reads [] ((Lzma2Encoder.init sampleProps).lzma2Data [] [.encode sampleChunk])
        [] [7] [([224, 0, 11, 0], 5), ([6, 93, 0, 48, 236, 60, 0, 0, 0, 0, 7], 20)] reading :=
  lzma2_roundTrip_of_decoded sampleProps (by norm_num) chunksFit_sample
    lzma2PropsDecode_encode_smallest (by decide +kernel) _ _ (by decide +kernel)

end Dht
