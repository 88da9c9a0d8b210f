/-
# The dictionary of the LZ decoder

`lzma_dict` is a circular buffer of the last bytes that were decoded. Bytes are put at
`pos`, one at a time or, for a match, as a stretch of earlier ones; the stretch is copied
with `memcpy` where source and target do not overlap, which may take two calls when the
source wraps around the end of the buffer. A write outside the buffer and a `memcpy` of
overlapping areas are undefined, and undefined here.

What the dictionary is for is a history: a list of bytes, the last one first, that grows
at the front. `Keeps` relates the two. Every operation keeps it, all three ways to copy a
match do the same as copying byte by byte, and none of them is undefined.
-/

import Dht.Core.Outcome
import Dht.Lib.Buffer
import Mathlib.Data.List.GetD

namespace Dht

/-- `lzma_dict`. Its `size` is the length of the buffer. -/
structure LzmaDict where
  buf : Bytes
  pos : ℕ
  full : ℕ
  limit : ℕ
  needReset : Bool
  deriving DecidableEq

/-- A copy of a stretch of a buffer to another place in it. Both have to be inside. -/
def memmove (buf : Bytes) (target source count : ℕ) : Outcome Bytes :=
  if target + count ≤ buf.length ∧ source + count ≤ buf.length then
    .ok (Buffer.overwrite buf target (Buffer.slice buf source count))
  else undefined

/-- A copy that the language defines only if the two stretches do not overlap. -/
def memcpy (buf : Bytes) (target source count : ℕ) : Outcome Bytes :=
  if source + count ≤ target ∨ target + count ≤ source then memmove buf target source count
  else undefined

namespace LzmaDict

/-- `dict->size`. -/
def size (dict : LzmaDict) : ℕ := dict.buf.length

/-- `dict_get`. -/
def get (dict : LzmaDict) (distance : ℕ) : Outcome UInt8 :=
  vectorAt dict.buf (dict.pos - distance - 1 + if distance < dict.pos then 0 else dict.size)

/-- `dict_is_distance_valid`. -/
def isDistanceValid (dict : LzmaDict) (distance : ℕ) : Bool := distance < dict.full

/-- `if (dict->pos > dict->full) dict->full = dict->pos` -/
def updateFull (dict : LzmaDict) : LzmaDict := { dict with full := max dict.full dict.pos }

/-- `dict_put`: whether the dictionary was full, and the dictionary. -/
def put (dict : LzmaDict) (byte : UInt8) : Outcome (Bool × LzmaDict) :=
  if dict.pos = dict.limit then .ok (true, dict)
  else do
    let buf ← vectorSet dict.buf dict.pos byte
    return (false, { dict with buf := buf, pos := dict.pos + 1 }.updateFull)

/-- The loop of `dict_repeat` for areas that overlap. -/
def repeatLoop (distance : ℕ) : ℕ → LzmaDict → Outcome LzmaDict
  | 0, dict => .ok dict
  | left + 1, dict => do
      let byte ← dict.get distance
      let buf ← vectorSet dict.buf dict.pos byte
      repeatLoop distance left { dict with buf := buf, pos := dict.pos + 1 }

/-- The three ways `dict_repeat` copies `left` bytes. -/
def copyLeft (dict : LzmaDict) (distance left : ℕ) : Outcome LzmaDict :=
  if distance < left then repeatLoop distance left dict
  else if distance < dict.pos then do
    let buf ← memcpy dict.buf dict.pos (dict.pos - distance - 1) left
    return { dict with buf := buf, pos := dict.pos + left }
  else do
    let copyPos := dict.pos + dict.size - distance - 1
    let copySize := dict.size - copyPos
    if copySize < left then
      let front ← memmove dict.buf dict.pos copyPos copySize
      let buf ← memcpy front (dict.pos + copySize) 0 (left - copySize)
      return { dict with buf := buf, pos := dict.pos + copySize + (left - copySize) }
    else
      let buf ← memmove dict.buf dict.pos copyPos left
      return { dict with buf := buf, pos := dict.pos + left }

/-- `dict_repeat`: the length that is left to repeat, and the dictionary. -/
def dictRepeat (dict : LzmaDict) (distance len : ℕ) : Outcome (ℕ × LzmaDict) := do
  let left := min (dict.limit - dict.pos) len
  let dict ← dict.copyLeft distance left
  return (len - left, dict.updateFull)

/-- `dict_write` of a front of the input: how much of it was taken, and the dictionary.
`left` bounds what may be taken. -/
def write (dict : LzmaDict) (input : Bytes) (left : ℕ) : Outcome (ℕ × LzmaDict) :=
  let taken := min (min input.length left) (dict.limit - dict.pos)
  if dict.pos + taken ≤ dict.size then
    .ok (taken, { dict with
      buf := Buffer.overwrite dict.buf dict.pos (input.take taken),
      pos := dict.pos + taken }.updateFull)
  else undefined

/-- `lz_decoder_reset`. -/
def reset (dict : LzmaDict) : LzmaDict :=
  { dict with
    buf := dict.buf.set (dict.size - 1) 0
    pos := 0
    full := 0
    needReset := false }

/-- The wrap at the top of `decode_buffer`. -/
def wrap (dict : LzmaDict) : LzmaDict :=
  if dict.pos = dict.size then { dict with pos := 0 } else dict

/-! ## Byte by byte -/

/-- The place of the byte at a distance before `pos`. -/
def place (pos size distance : ℕ) : ℕ :=
  if distance < pos then pos - distance - 1 else pos + size - distance - 1

/-- The byte at a distance. -/
def peek (dict : LzmaDict) (distance : ℕ) : UInt8 :=
  dict.buf.getD (place dict.pos dict.size distance) 0

/-- One more byte. -/
def append (dict : LzmaDict) (byte : UInt8) : LzmaDict :=
  { dict with buf := dict.buf.set dict.pos byte, pos := dict.pos + 1 }.updateFull

/-- Some bytes, each of them the one at `distance`. -/
def copyBytes (distance : ℕ) : ℕ → LzmaDict → LzmaDict
  | 0, dict => dict
  | count + 1, dict => copyBytes distance count (dict.append (dict.peek distance))

/-- A dictionary whose positions are in order. -/
structure Ordered (dict : LzmaDict) : Prop where
  nonempty : 0 < dict.size
  pos_le : dict.pos ≤ dict.limit
  limit_le : dict.limit ≤ dict.size
  pos_le_full : dict.pos ≤ dict.full

section Operations

variable {dict : LzmaDict} {distance : ℕ}

theorem get_eq (hpos : dict.pos ≤ dict.size) (hdistance : distance < dict.size) :
    dict.get distance = .ok (dict.peek distance) := by
  have hindex : (dict.pos : ℤ) - distance - 1 +
      (if distance < dict.pos then 0 else dict.size : ℕ) =
      (place dict.pos dict.size distance : ℕ) := by
    rw [place]
    split <;> omega
  have hlt : place dict.pos dict.size distance < dict.buf.length := by
    rw [place]
    change _ < dict.size
    split <;> omega
  rw [get, hindex, vectorAt_eq_getD hlt 0]
  rfl

@[simp]
theorem size_append (byte : UInt8) : (dict.append byte).size = dict.size := by
  simp [append, updateFull, size]

theorem Ordered.append (hordered : dict.Ordered) (hroom : dict.pos < dict.limit) (byte : UInt8) :
    (dict.append byte).Ordered := by
  obtain ⟨hnonempty, hpos, hlimit, hfull⟩ := hordered
  refine ⟨by rwa [size_append], hroom, by rwa [size_append], le_max_right _ _⟩

/-- `dict_put` with room. -/
theorem put_eq (hordered : dict.Ordered) (hroom : dict.pos < dict.limit) (byte : UInt8) :
    dict.put byte = .ok (false, dict.append byte) := by
  have hinside : dict.pos < dict.buf.length := hroom.trans_le hordered.limit_le
  rw [put, if_neg hroom.ne, vectorSet_natCast hinside]
  rfl

theorem put_full (hfull : dict.pos = dict.limit) (byte : UInt8) :
    dict.put byte = .ok (true, dict) := by
  rw [put, if_pos hfull]

/-- The last of some bytes. -/
theorem copyBytes_succ (count : ℕ) :
    copyBytes distance (count + 1) dict =
      (copyBytes distance count dict).append ((copyBytes distance count dict).peek distance) := by
  induction count generalizing dict with
  | zero => rfl
  | succ count ih =>
      rw [copyBytes, ih]
      rfl

theorem copyBytes_add (first second : ℕ) :
    copyBytes distance (first + second) dict =
      copyBytes distance second (copyBytes distance first dict) := by
  induction first generalizing dict with
  | zero => rw [Nat.zero_add, copyBytes]
  | succ first ih => rw [Nat.succ_add_eq_add_succ, Nat.add_succ, copyBytes, ih, copyBytes]

theorem size_copyBytes (count : ℕ) : (copyBytes distance count dict).size = dict.size := by
  induction count with
  | zero => rfl
  | succ count ih => rw [copyBytes_succ, size_append, ih]

theorem pos_copyBytes (count : ℕ) : (copyBytes distance count dict).pos = dict.pos + count := by
  induction count with
  | zero => rfl
  | succ count ih =>
      rw [copyBytes_succ]
      change (copyBytes distance count dict).pos + 1 = _
      rw [ih, Nat.add_assoc]

/-- A stretch whose bytes are read from where nothing is written before is the same as its
bytes one by one. -/
theorem copyBytes_eq_overwrite {source count : ℕ} (hfull : dict.pos ≤ dict.full)
    (htarget : dict.pos + count ≤ dict.size) (hsource : source + count ≤ dict.size)
    (happart : source + count ≤ dict.pos ∨ dict.pos ≤ source)
    (hplace : ∀ i < count, place (dict.pos + i) dict.size distance = source + i) :
    copyBytes distance count dict =
      { dict with
        buf := Buffer.overwrite dict.buf dict.pos (Buffer.slice dict.buf source count)
        pos := dict.pos + count
        full := max dict.full (dict.pos + count) } := by
  induction count with
  | zero =>
      have hnil : Buffer.slice dict.buf source 0 = [] := List.take_zero
      rw [hnil, Buffer.overwrite_nil, Nat.add_zero, max_eq_left hfull]
      rfl
  | succ count ih =>
      have hslice : (Buffer.slice dict.buf source count).length = count := by
        rw [Buffer.slice, List.length_take, List.length_drop]
        change min count (dict.size - source) = count
        omega
      have hbefore := ih (by omega) (by omega) (by omega) fun i hi => hplace i (by omega)
      have hlength : (Buffer.overwrite dict.buf dict.pos
          (Buffer.slice dict.buf source count)).length = dict.buf.length :=
        Buffer.length_overwrite (by rw [hslice]; change _ ≤ dict.size; omega)
      have hinside : source + count < dict.buf.length := by
        change _ < dict.size
        omega
      -- the byte is read from where it was before the first write
      have hpeek : (copyBytes distance count dict).peek distance =
          dict.buf.getD (source + count) 0 := by
        rw [hbefore, peek, size, hlength]
        dsimp only
        change (Buffer.overwrite _ _ _).getD (place _ dict.size _) 0 = _
        rw [hplace count (Nat.lt_succ_self count), List.getD_eq_getElem?_getD,
          List.getD_eq_getElem?_getD, Buffer.getElem?_overwrite_of_disjoint]
        · rw [hslice]
          change _ ≤ dict.size
          omega
        · rw [hslice]
          omega
      have hmore : Buffer.slice dict.buf source (count + 1) =
          Buffer.slice dict.buf source count ++ [dict.buf.getD (source + count) 0] := by
        refine Buffer.slice_succ ?_
        rw [List.getD_eq_getElem?_getD, List.getElem?_eq_getElem hinside, Option.getD_some]
      have hset : (Buffer.overwrite dict.buf dict.pos (Buffer.slice dict.buf source count)).set
          (dict.pos + count) (dict.buf.getD (source + count) 0) =
          Buffer.overwrite dict.buf dict.pos (Buffer.slice dict.buf source (count + 1)) := by
        have hfit : dict.pos + (Buffer.slice dict.buf source count).length ≤ dict.buf.length := by
          rw [hslice]
          change _ ≤ dict.size
          omega
        have hadjacent := Buffer.overwrite_overwrite hfit [dict.buf.getD (source + count) 0]
        rw [hslice] at hadjacent
        rw [hmore, ← hadjacent, Buffer.set_eq_overwrite]
        rw [hlength]
        change _ < dict.size
        omega
      rw [copyBytes_succ, hpeek, hbefore, append, updateFull]
      dsimp only
      rw [hset, max_assoc, Nat.add_assoc]
      congr 1
      omega

/-- The loop for areas that overlap. -/
theorem repeatLoop_eq (hdistance : distance < dict.size) {left : ℕ}
    (hroom : dict.pos + left ≤ dict.size) :
    ∃ after, repeatLoop distance left dict = .ok after ∧
      after.updateFull = copyBytes distance left dict.updateFull := by
  induction left generalizing dict with
  | zero => exact ⟨dict, rfl, rfl⟩
  | succ left ih =>
      have hget := get_eq (by omega : dict.pos ≤ dict.size) hdistance
      have hinside : dict.pos < dict.buf.length := by
        change _ < dict.size
        omega
      have hsize : ({ dict with
          buf := dict.buf.set dict.pos (dict.peek distance)
          pos := dict.pos + 1 } : LzmaDict).size = dict.size := List.length_set
      rw [← hsize] at hdistance hroom
      obtain ⟨after, hloop, hafter⟩ := ih hdistance (by dsimp only; omega)
      refine ⟨after, ?_, ?_⟩
      · rw [repeatLoop, hget, ok_bind, vectorSet_natCast hinside, ok_bind, hloop]
      · rw [hafter, copyBytes]
        congr 1
        simp only [append, updateFull, peek, size]
        congr 1
        omega

theorem updateFull_eq_self (hfull : dict.pos ≤ dict.full) : dict.updateFull = dict := by
  rw [updateFull, max_eq_left hfull]

/-- All ways to copy a match do the same, and none of them is undefined. -/
theorem copyLeft_eq (hordered : dict.Ordered) (hdistance : distance < dict.size) {left : ℕ}
    (hroom : dict.pos + left ≤ dict.limit) :
    ∃ after, dict.copyLeft distance left = .ok after ∧
      after.updateFull = copyBytes distance left dict := by
  obtain ⟨hnonempty, hpos, hlimit, hfull⟩ := hordered
  rw [copyLeft]
  by_cases hoverlap : distance < left
  · rw [if_pos hoverlap]
    have hloop := repeatLoop_eq hdistance (hroom.trans hlimit)
    rwa [updateFull_eq_self hfull] at hloop
  · rw [if_neg hoverlap]
    by_cases hbehind : distance < dict.pos
    · rw [if_pos hbehind, memcpy, if_pos (by omega), memmove,
        if_pos (by change _ ≤ dict.size ∧ _ ≤ dict.size; omega)]
      refine ⟨_, rfl, ?_⟩
      have hplace : ∀ i < left, place (dict.pos + i) dict.size distance =
          dict.pos - distance - 1 + i := by
        intro i hi
        rw [place, if_pos (by omega)]
        omega
      rw [copyBytes_eq_overwrite hfull (by omega) (by omega) (by omega) hplace]
      rfl
    · -- the source begins behind `pos`, and may go on at the start of the buffer
      rw [if_neg hbehind]
      have hcopySize : dict.size - (dict.pos + dict.size - distance - 1) =
          distance + 1 - dict.pos := by omega
      have hplace : ∀ i < distance + 1 - dict.pos, place (dict.pos + i) dict.size distance =
          dict.pos + dict.size - distance - 1 + i := by
        intro i hi
        rw [place, if_neg (by omega)]
        omega
      dsimp only
      rw [hcopySize]
      by_cases hwraps : distance + 1 - dict.pos < left
      · have hfirst := copyBytes_eq_overwrite hfull (by omega) (by omega) (by omega) hplace
        have hsize : (copyBytes distance (distance + 1 - dict.pos) dict).size = dict.size :=
          size_copyBytes _
        have hsplit : left = distance + 1 - dict.pos + (left - (distance + 1 - dict.pos)) := by
          omega
        rw [if_pos hwraps, memmove, if_pos (by change _ ≤ dict.size ∧ _ ≤ dict.size; omega),
          ok_bind]
        rw [hfirst] at hsize
        have hlength : (Buffer.overwrite dict.buf dict.pos (Buffer.slice dict.buf
            (dict.pos + dict.size - distance - 1) (distance + 1 - dict.pos))).length =
            dict.size := hsize
        rw [memcpy, if_pos (by omega), memmove, if_pos (by rw [hlength]; omega)]
        refine ⟨_, rfl, ?_⟩
        have htwo : copyBytes distance left dict =
            copyBytes distance (left - (distance + 1 - dict.pos))
              (copyBytes distance (distance + 1 - dict.pos) dict) := by
          rw [← copyBytes_add, ← hsplit]
        have hstart : ∀ i < left - (distance + 1 - dict.pos),
            place (dict.pos + (distance + 1 - dict.pos) + i) dict.size distance = 0 + i := by
          intro i hi
          rw [place, if_pos (by omega)]
          omega
        rw [← hsize] at hstart
        rw [htwo, hfirst, copyBytes_eq_overwrite (le_max_right _ _) (by rw [hsize]; dsimp only; omega)
          (by rw [hsize]; omega) (by dsimp only; omega) hstart, updateFull]
        dsimp only
        congr 1
        omega
      · rw [if_neg hwraps, memmove, if_pos (by change _ ≤ dict.size ∧ _ ≤ dict.size; omega)]
        refine ⟨_, rfl, ?_⟩
        rw [copyBytes_eq_overwrite hfull (by omega) (by omega) (by omega)
          fun i hi => hplace i (by omega)]
        rfl

end Operations

end LzmaDict

/-! ## History -/

/-- Some bytes, each of them the one `distance` before, at the front of a history. -/
def copyHistory (distance : ℕ) : ℕ → Bytes → Bytes
  | 0, history => history
  | count + 1, history => copyHistory distance count (history.getD distance 0 :: history)

theorem copyHistory_add (distance first second : ℕ) (history : Bytes) :
    copyHistory distance (first + second) history =
      copyHistory distance second (copyHistory distance first history) := by
  induction first generalizing history with
  | zero => rw [Nat.zero_add, copyHistory]
  | succ first ih => rw [Nat.succ_add_eq_add_succ, Nat.add_succ, copyHistory, ih, copyHistory]

namespace LzmaDict

/-- The dictionary holds the last bytes of a history, as many as it has room for. Before
the first byte it reads as zero at distance zero. -/
structure Keeps (dict : LzmaDict) (history : Bytes) : Prop where
  nonempty : 0 < dict.size
  pos_le : dict.pos ≤ dict.full
  full_eq : dict.full = min history.length dict.size
  pos_mod : dict.pos % dict.size = history.length % dict.size
  reads : ∀ distance < dict.full, dict.peek distance = history.getD distance 0
  zero : history = [] → dict.peek 0 = 0

section History

variable {dict : LzmaDict} {history : Bytes} {distance : ℕ}

theorem Keeps.full_le (hkeeps : dict.Keeps history) : dict.full ≤ dict.size := by
  rw [hkeeps.full_eq]
  exact min_le_right _ _

theorem Keeps.get_eq (hkeeps : dict.Keeps history) (hdistance : distance < dict.full) :
    dict.get distance = .ok (history.getD distance 0) := by
  have hfull := hkeeps.full_le
  have hpos := hkeeps.pos_le
  rw [LzmaDict.get_eq (by omega) (by omega), hkeeps.reads distance hdistance]

/-- The byte before the next one is zero at the beginning. -/
theorem Keeps.get_zero (hkeeps : dict.Keeps history) :
    dict.get 0 = .ok (history.getD 0 0) := by
  cases history with
  | nil =>
      have hfull := hkeeps.full_le
      have hpos := hkeeps.pos_le
      rw [LzmaDict.get_eq (by omega) hkeeps.nonempty, hkeeps.zero rfl]
      rfl
  | cons byte history =>
      refine hkeeps.get_eq ?_
      have hnonempty := hkeeps.nonempty
      rw [hkeeps.full_eq, List.length_cons]
      omega

/-- One more byte is one more byte of the history. -/
theorem Keeps.append (hkeeps : dict.Keeps history) (hroom : dict.pos < dict.size)
    (byte : UInt8) : (dict.append byte).Keeps (byte :: history) := by
  obtain ⟨hnonempty, hpos, hfull, hmod, hreads, -⟩ := hkeeps
  have hposition : (dict.append byte).pos = dict.pos + 1 := rfl
  have hmax : (dict.append byte).full = max dict.full (dict.pos + 1) := rfl
  have hbuf : (dict.append byte).buf = dict.buf.set dict.pos byte := rfl
  refine ⟨by rwa [size_append], by omega, ?_, ?_, ?_, by simp⟩
  · rw [hmax, size_append, List.length_cons, hfull]
    -- before the dictionary is full, `pos` is the length of the history
    by_cases hshort : history.length < dict.size
    · rw [Nat.mod_eq_of_lt hroom, Nat.mod_eq_of_lt hshort] at hmod
      omega
    · omega
  · rw [hposition, size_append, List.length_cons, Nat.add_mod, hmod, ← Nat.add_mod]
  · intro distance hdistance
    rw [hmax] at hdistance
    have hsize : max dict.full (dict.pos + 1) ≤ dict.size := by omega
    cases distance with
    | zero =>
        rw [peek, hposition, size_append, place, if_pos (Nat.succ_pos _), hbuf,
          List.getD_cons_zero, List.getD_eq_getElem?_getD]
        have hlast : dict.pos + 1 - 0 - 1 = dict.pos := rfl
        rw [hlast, List.getElem?_set_self hroom, Option.getD_some]
    | succ distance =>
        have hbefore : distance < dict.full := by
          rw [hfull] at hdistance ⊢
          by_cases hshort : history.length < dict.size
          · rw [Nat.mod_eq_of_lt hroom, Nat.mod_eq_of_lt hshort] at hmod
            omega
          · omega
        have hplace : place (dict.pos + 1) dict.size (distance + 1) =
            place dict.pos dict.size distance := by
          rw [place, place]
          split <;> split <;> omega
        have hother : dict.pos ≠ place dict.pos dict.size distance := by
          rw [place]
          split <;> omega
        rw [List.getD_cons_succ, ← hreads distance hbefore, peek, hposition, size_append, hplace,
          hbuf, List.getD_eq_getElem?_getD, List.getElem?_set_ne hother, peek,
          List.getD_eq_getElem?_getD]

theorem Keeps.copyBytes (hkeeps : dict.Keeps history) (hdistance : distance < dict.full)
    {count : ℕ} (hroom : dict.pos + count ≤ dict.size) :
    (copyBytes distance count dict).Keeps (copyHistory distance count history) := by
  induction count generalizing dict history with
  | zero => exact hkeeps
  | succ count ih =>
      rw [LzmaDict.copyBytes, copyHistory, hkeeps.reads distance hdistance]
      refine ih (hkeeps.append (by omega) _) ?_ ?_
      · exact lt_max_of_lt_left hdistance
      · rw [size_append]
        change dict.pos + 1 + count ≤ dict.size
        omega

theorem full_le_copyBytes (count : ℕ) :
    dict.full ≤ (LzmaDict.copyBytes distance count dict).full := by
  induction count with
  | zero => exact le_rfl
  | succ count ih =>
      rw [copyBytes_succ]
      exact ih.trans (le_max_left _ _)

theorem limit_copyBytes (count : ℕ) : (LzmaDict.copyBytes distance count dict).limit =
    dict.limit ∧ (LzmaDict.copyBytes distance count dict).needReset = dict.needReset := by
  induction count with
  | zero => exact ⟨rfl, rfl⟩
  | succ count ih =>
      rw [copyBytes_succ]
      exact ih

/-- The positions of a dictionary that keeps a history are in order once it has a limit. -/
theorem Keeps.ordered (hkeeps : dict.Keeps history) (hpos : dict.pos ≤ dict.limit)
    (hlimit : dict.limit ≤ dict.size) : dict.Ordered :=
  ⟨hkeeps.nonempty, hpos, hlimit, hkeeps.pos_le⟩

/-- **A match.** `dict_repeat` with a valid distance is defined whichever way it copies,
and the history grows by bytes that are each the one at the distance, as many as there is
room for. -/
theorem Keeps.dictRepeat (hkeeps : dict.Keeps history) (hpos : dict.pos ≤ dict.limit)
    (hlimit : dict.limit ≤ dict.size) (hdistance : dict.isDistanceValid distance = true)
    (len : ℕ) :
    ∃ after, dict.dictRepeat distance len =
        .ok (len - min (dict.limit - dict.pos) len, after) ∧
      after.Keeps (copyHistory distance (min (dict.limit - dict.pos) len) history) ∧
      after.pos = dict.pos + min (dict.limit - dict.pos) len ∧ after.limit = dict.limit ∧
      after.size = dict.size ∧ after.needReset = dict.needReset ∧ dict.full ≤ after.full := by
  rw [isDistanceValid, decide_eq_true_iff] at hdistance
  have hsize : distance < dict.size := hdistance.trans_le hkeeps.full_le
  obtain ⟨after, hcopy, hafter⟩ := copyLeft_eq (hkeeps.ordered hpos hlimit) hsize
    (by omega : dict.pos + min (dict.limit - dict.pos) len ≤ dict.limit)
  refine ⟨_, ?_, hkeeps.copyBytes hdistance (by omega), pos_copyBytes _, (limit_copyBytes _).1,
    size_copyBytes _, (limit_copyBytes _).2, ?_⟩
  · rw [LzmaDict.dictRepeat, hcopy, ok_bind, ← hafter]
    rfl
  · exact full_le_copyBytes _

theorem Keeps.put (hkeeps : dict.Keeps history) (hpos : dict.pos < dict.limit)
    (hlimit : dict.limit ≤ dict.size) (byte : UInt8) :
    dict.put byte = .ok (false, dict.append byte) ∧
      (dict.append byte).Keeps (byte :: history) :=
  ⟨put_eq (hkeeps.ordered hpos.le hlimit) hpos byte, hkeeps.append (hpos.trans_le hlimit) byte⟩

/-- Many bytes, appended one by one. -/
def appendAll (dict : LzmaDict) (bytes : Bytes) : LzmaDict := bytes.foldl append dict

theorem Keeps.appendAll (hkeeps : dict.Keeps history) {bytes : Bytes}
    (hroom : dict.pos + bytes.length ≤ dict.size) :
    (dict.appendAll bytes).Keeps (bytes.reverse ++ history) := by
  induction bytes generalizing dict history with
  | nil => exact hkeeps
  | cons byte bytes ih =>
      rw [List.length_cons] at hroom
      rw [List.reverse_cons, List.append_assoc]
      refine ih (hkeeps.append (by omega) byte) ?_
      rw [size_append]
      change dict.pos + 1 + bytes.length ≤ dict.size
      omega

theorem appendAll_eq_overwrite (hfull : dict.pos ≤ dict.full) {bytes : Bytes}
    (hroom : dict.pos + bytes.length ≤ dict.size) :
    dict.appendAll bytes =
      { dict with
        buf := Buffer.overwrite dict.buf dict.pos bytes
        pos := dict.pos + bytes.length
        full := max dict.full (dict.pos + bytes.length) } := by
  induction bytes generalizing dict with
  | nil =>
      rw [Buffer.overwrite_nil, List.length_nil, Nat.add_zero, max_eq_left hfull]
      rfl
  | cons byte bytes ih =>
      have hinside : dict.pos + 1 ≤ dict.buf.length := by
        rw [List.length_cons] at hroom
        change _ ≤ dict.size
        omega
      have hfit : (dict.append byte).pos + bytes.length ≤ (dict.append byte).size := by
        rw [size_append]
        rw [List.length_cons] at hroom
        change dict.pos + 1 + bytes.length ≤ dict.size
        omega
      have hnext := ih (le_max_right _ _ : (dict.append byte).pos ≤ (dict.append byte).full) hfit
      have hfirst : dict.pos + [byte].length ≤ dict.buf.length := hinside
      have hadjacent := Buffer.overwrite_overwrite hfirst bytes
      rw [LzmaDict.appendAll, List.foldl_cons]
      rw [LzmaDict.appendAll] at hnext
      rw [hnext, LzmaDict.append, updateFull]
      dsimp only
      rw [Buffer.set_eq_overwrite hinside]
      rw [List.length_singleton, List.singleton_append] at hadjacent
      rw [hadjacent, List.length_cons]
      congr 1 <;> omega

/-- `dict_write` appends a front of the input. -/
theorem Keeps.write (hkeeps : dict.Keeps history) (hpos : dict.pos ≤ dict.limit)
    (hlimit : dict.limit ≤ dict.size) (input : Bytes) (left : ℕ) :
    ∃ after, dict.write input left =
        .ok (min (min input.length left) (dict.limit - dict.pos), after) ∧
      after.Keeps ((input.take (min (min input.length left) (dict.limit - dict.pos))).reverse ++
        history) ∧
      after.pos = dict.pos + min (min input.length left) (dict.limit - dict.pos) ∧
      after.limit = dict.limit ∧ after.size = dict.size ∧
      after.needReset = dict.needReset ∧ dict.full ≤ after.full := by
  have hlength : (input.take (min (min input.length left) (dict.limit - dict.pos))).length =
      min (min input.length left) (dict.limit - dict.pos) := by
    rw [List.length_take]
    omega
  have hroom : dict.pos +
      (input.take (min (min input.length left) (dict.limit - dict.pos))).length ≤ dict.size := by
    rw [hlength]
    omega
  have heq := appendAll_eq_overwrite hkeeps.pos_le hroom
  have hafter := hkeeps.appendAll hroom
  rw [hlength] at heq hroom
  rw [LzmaDict.write, if_pos hroom, updateFull]
  dsimp only
  rw [← heq]
  refine ⟨_, rfl, hafter, ?_, ?_, ?_, ?_, ?_⟩
  · rw [heq]
  · rw [heq]
  · rw [heq]
    exact Buffer.length_overwrite (by rw [hlength]; exact hroom)
  · rw [heq]
  · rw [heq]
    exact le_max_left _ _

/-- The wrap moves `pos` and nothing a reader sees. -/
theorem Keeps.wrap (hkeeps : dict.Keeps history) :
    dict.wrap.Keeps history ∧ dict.wrap.pos < dict.wrap.size := by
  rw [LzmaDict.wrap]
  by_cases hend : dict.pos = dict.size
  · rw [if_pos hend]
    obtain ⟨hnonempty, hpos, hfull, hmod, hreads, hzero⟩ := hkeeps
    refine ⟨⟨hnonempty, Nat.zero_le _, hfull, ?_, ?_, ?_⟩, hnonempty⟩
    · rw [hend, Nat.mod_self] at hmod
      exact (Nat.zero_mod _).trans hmod
    · intro distance hdistance
      rw [← hreads distance hdistance, peek, peek, place, place]
      have hsize : distance < dict.size := by
        rw [hfull] at hdistance
        omega
      rw [if_neg (Nat.not_lt_zero _), if_pos (by omega), hend]
      dsimp only
      rw [Nat.zero_add]
      rfl
    · rintro rfl
      have hempty : dict.full = 0 := by
        rw [hfull]
        exact Nat.zero_min _
      omega
  · rw [if_neg hend]
    have hpos := hkeeps.pos_le
    have hfull := hkeeps.full_le
    exact ⟨hkeeps, by omega⟩

/-- A reset dictionary keeps nothing. -/
theorem keeps_reset (hnonempty : 0 < dict.size) : dict.reset.Keeps [] := by
  have hsize : dict.reset.size = dict.size := List.length_set
  refine ⟨by rwa [hsize], le_rfl, ?_, rfl, ?_, fun _ => ?_⟩
  · exact (Nat.zero_min _).symm
  · intro distance hdistance
    exact absurd hdistance (Nat.not_lt_zero _)
  · have hlast : dict.size - 1 < dict.buf.length := by
      change _ < dict.size
      omega
    have hplace : place dict.reset.pos dict.size 0 = dict.size - 1 := by
      have hpos : dict.reset.pos = 0 := rfl
      rw [hpos, place, if_neg (Nat.not_lt_zero _)]
      omega
    rw [peek, hsize, hplace, List.getD_eq_getElem?_getD]
    change ((dict.buf.set (dict.size - 1) 0)[dict.size - 1]?).getD 0 = 0
    rw [List.getElem?_set_self hlast, Option.getD_some]

/-- Another limit changes nothing a reader sees. -/
theorem Keeps.setLimit (hkeeps : dict.Keeps history) (limit : ℕ) :
    ({ dict with limit := limit } : LzmaDict).Keeps history :=
  ⟨hkeeps.nonempty, hkeeps.pos_le, hkeeps.full_eq, hkeeps.pos_mod, hkeeps.reads, hkeeps.zero⟩

end History

end LzmaDict

end Dht
