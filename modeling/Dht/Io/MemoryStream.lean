/-
# The memory stream

A vector of bytes that is written at its end and read from a cursor. The cursor may be
set anywhere, far behind the end too, and one comparison guards every read. Its left side
is a sum of two `size_t`s, which wraps around.

Without `seek` the cursor never passes the end, the sum stays small, and the stream is a
queue: what is read is what was there and what was written, in order. With `seek` the
guard lets through exactly those reads whose sum wraps around to a number that is not
behind the end, and such a read copies bytes from outside the vector.
-/

import Dht.Core.Outcome
import Dht.Lib.Buffer
import Dht.Lib.Session

namespace Dht

/-- `MemoryStream`. A vector of bytes holds fewer than `2 ^ 63` of them. -/
structure MemoryStream where
  data : Bytes
  position : UInt64
  size_lt : data.length < 2 ^ 63

namespace MemoryStream

/-- The constructor from a vector. -/
def ofData (data : Bytes) (hdata : data.length < 2 ^ 63) : MemoryStream := ⟨data, 0, hdata⟩

/-- `write`. A vector that would become too long is left as it is. -/
def write (stream : MemoryStream) (buffer : Bytes) : Outcome MemoryStream :=
  if hfit : (stream.data ++ buffer).length < 2 ^ 63 then
    .ok ⟨stream.data ++ buffer, stream.position, hfit⟩
  else .error .lengthError

/-- `read`: the bytes copied and the stream behind them. A `memcpy` from outside the vector
is undefined. -/
def read (stream : MemoryStream) (size : UInt64) : Outcome (Bytes × MemoryStream) :=
  if stream.data.length < (stream.position + size).toNat then .error .outOfRange
  else if stream.position.toNat + size.toNat ≤ stream.data.length then
    .ok (Buffer.slice stream.data stream.position.toNat size.toNat,
      { stream with position := stream.position + size })
  else undefined

/-- `seek`, which checks nothing. -/
def seek (stream : MemoryStream) (pos : UInt64) : MemoryStream := { stream with position := pos }

end MemoryStream

/-- The calls that do something to a stream. -/
inductive StreamCall
  | write (buffer : Bytes)
  | read (size : UInt64)
  | seek (pos : UInt64)
  deriving DecidableEq

namespace MemoryStream

/-- One call: what it returns or fails with, and the stream behind it. A call that throws
has assigned nothing. -/
def answer (stream : MemoryStream) : StreamCall → Outcome Bytes × MemoryStream
  | .write buffer =>
      match stream.write buffer with
      | .ok next => (.ok [], next)
      | .error failure => (.error failure, stream)
  | .read size =>
      match stream.read size with
      | .ok (bytes, next) => (.ok bytes, next)
      | .error failure => (.error failure, stream)
  | .seek pos => (.ok [], stream.seek pos)

/-! ## Reads -/

section Reads

variable (stream : MemoryStream) (size : UInt64)

/-- A read that does what it should: it throws and changes nothing if it would pass the end,
and otherwise copies the next bytes and moves behind them. -/
def ReadsExactly : Prop :=
  if stream.data.length < stream.position.toNat + size.toNat then
    stream.answer (.read size) = (.error .outOfRange, stream)
  else
    (stream.answer (.read size)).1 =
        .ok (Buffer.slice stream.data stream.position.toNat size.toNat) ∧
      (stream.answer (.read size)).2.data = stream.data ∧
      (stream.answer (.read size)).2.position.toNat = stream.position.toNat + size.toNat

/-- The sum in the guard wraps around, and what is left of it does not pass the end. -/
def WrapsInside : Prop :=
  2 ^ 64 ≤ stream.position.toNat + size.toNat ∧
    stream.position.toNat + size.toNat - 2 ^ 64 ≤ stream.data.length

/-- The sum the guard computes. -/
theorem toNat_position_add :
    (stream.position + size).toNat = (stream.position.toNat + size.toNat) % 2 ^ 64 :=
  UInt64.toNat_add _ _

variable {stream size}

theorem answer_read_of_fits (hfits : stream.position.toNat + size.toNat ≤ stream.data.length) :
    stream.answer (.read size) =
      (.ok (Buffer.slice stream.data stream.position.toNat size.toNat),
        { stream with position := stream.position + size }) := by
  have hsize := stream.size_lt
  have hsum := toNat_position_add stream size
  rw [answer, read, if_neg (by omega), if_pos hfits]

theorem answer_read_of_guard (hguard : stream.data.length < (stream.position + size).toNat) :
    stream.answer (.read size) = (.error .outOfRange, stream) := by
  rw [answer, read, if_pos hguard]

/-- A read does what it should unless the guard is deceived. -/
theorem readsExactly_iff : stream.ReadsExactly size ↔ ¬ stream.WrapsInside size := by
  have hsize := stream.size_lt
  have hsum := toNat_position_add stream size
  have hposition := stream.position.toNat_lt
  have hcount := size.toNat_lt
  rw [ReadsExactly, WrapsInside]
  by_cases hpast : stream.data.length < stream.position.toNat + size.toNat
  · rw [if_pos hpast]
    by_cases hguard : stream.data.length < (stream.position + size).toNat
    · exact iff_of_true (answer_read_of_guard hguard) (by omega)
    · refine iff_of_false (fun hexact => ?_) (by omega)
      rw [answer, read, if_neg hguard, if_neg (by omega)] at hexact
      cases hexact
  · rw [if_neg hpast, answer_read_of_fits (by omega)]
    refine iff_of_true ⟨rfl, rfl, ?_⟩ (by omega)
    rw [hsum, Nat.mod_eq_of_lt (by omega)]

end Reads

/-! ## Sessions -/

/-- The stream behind some calls. -/
def after (stream : MemoryStream) (calls : List StreamCall) : MemoryStream :=
  Session.after answer stream calls

/-- What the calls return. -/
def replies (stream : MemoryStream) (calls : List StreamCall) : List (Outcome Bytes) :=
  Session.replies answer stream calls

/-- In a session all reads do what they should, exactly if no guard is deceived. -/
theorem readsExactly_session_iff (stream : MemoryStream) (calls : List StreamCall) :
    (∀ earlier size later, calls = earlier ++ .read size :: later →
        (stream.after earlier).ReadsExactly size) ↔
      ∀ earlier size later, calls = earlier ++ .read size :: later →
        ¬ (stream.after earlier).WrapsInside size := by
  simp only [readsExactly_iff]

/-- The last position of all, and one byte more. -/
theorem not_readsExactly_last :
    ¬ ∀ (stream : MemoryStream) (calls : List StreamCall) earlier size later,
      calls = earlier ++ .read size :: later → (stream.after earlier).ReadsExactly size := by
  intro hall
  have hread := hall (ofData [] (by decide)) _ [.seek 0xFFFFFFFFFFFFFFFF] 1 [] rfl
  rw [readsExactly_iff] at hread
  exact hread ⟨by decide, by decide⟩

/-! ## The queue -/

/-- The bytes of all writes. -/
def written (calls : List StreamCall) : Bytes :=
  calls.flatMap fun call =>
    match call with
    | .write buffer => buffer
    | _ => []

/-- The bytes all reads returned. -/
def received (replies : List (Outcome Bytes)) : Bytes :=
  replies.flatMap fun reply =>
    match reply with
    | .ok bytes => bytes
    | .error _ => []

/-- No `seek`, and no buffer of `2 ^ 63` bytes. -/
def QueueCall : StreamCall → Prop
  | .write _ => True
  | .read size => size.toNat < 2 ^ 63
  | .seek _ => False

/-- Where a queue is: the stream holds what it began with and all that was written, and
what was read is the part of it before the cursor. -/
structure Queues (data : Bytes) (calls : List StreamCall) (replies : List (Outcome Bytes))
    (stream : MemoryStream) : Prop where
  data_eq : stream.data = data ++ written calls
  position_le : stream.position.toNat ≤ stream.data.length
  received_eq : received replies = stream.data.take stream.position.toNat

theorem Queues.write {data buffer : Bytes} {calls : List StreamCall}
    {replies : List (Outcome Bytes)} {stream : MemoryStream}
    (hqueues : Queues data calls replies stream)
    (hfit : (data ++ written (calls ++ [.write buffer])).length < 2 ^ 63) :
    Queues data (calls ++ [.write buffer]) (replies ++ [(stream.answer (.write buffer)).1])
      (stream.answer (.write buffer)).2 := by
  have hwritten : data ++ written (calls ++ [.write buffer]) = stream.data ++ buffer := by
    rw [written, List.flatMap_append, hqueues.data_eq, List.append_assoc, List.flatMap_singleton]
    rfl
  have hreceived (bytes : Bytes) :
      received (replies ++ [.ok bytes]) = received replies ++ bytes := by
    rw [received, List.flatMap_append, List.flatMap_singleton]
    rfl
  rw [hwritten] at hfit
  rw [answer, MemoryStream.write, dif_pos hfit]
  refine ⟨hwritten.symm, ?_, ?_⟩
  · rw [List.length_append]
    exact Nat.le_add_right_of_le hqueues.position_le
  · rw [hreceived, List.append_nil, hqueues.received_eq,
      List.take_append_of_le_length hqueues.position_le]

theorem Queues.read {data : Bytes} {size : UInt64} {calls : List StreamCall}
    {replies : List (Outcome Bytes)} {stream : MemoryStream}
    (hqueues : Queues data calls replies stream) (hsize : size.toNat < 2 ^ 63) :
    Queues data (calls ++ [.read size]) (replies ++ [(stream.answer (.read size)).1])
      (stream.answer (.read size)).2 := by
  have hlength := stream.size_lt
  have hposition := hqueues.position_le
  have hsum := toNat_position_add stream size
  rw [Nat.mod_eq_of_lt (by omega)] at hsum
  have hwritten : written (calls ++ [.read size]) = written calls := by
    rw [written, List.flatMap_append, List.flatMap_singleton]
    exact List.append_nil _
  have hreceived (reply : Outcome Bytes) :
      received (replies ++ [reply]) = received replies ++ received [reply] := List.flatMap_append
  by_cases hfits : stream.position.toNat + size.toNat ≤ stream.data.length
  · rw [answer_read_of_fits hfits]
    refine ⟨hqueues.data_eq.trans (by rw [hwritten]), hsum.trans_le hfits, ?_⟩
    dsimp only
    rw [hreceived, hqueues.received_eq, hsum, List.take_add]
    exact congrArg _ (List.append_nil _)
  · rw [answer_read_of_guard (by omega)]
    refine ⟨hqueues.data_eq.trans (by rw [hwritten]), hposition, ?_⟩
    rw [hreceived, hqueues.received_eq]
    exact List.append_nil _

/-- What fits in the end fits on the way. -/
theorem length_written_lt {data : Bytes} {earlier later : List StreamCall} {bound : ℕ}
    (hfit : (data ++ written (earlier ++ later)).length < bound) :
    (data ++ written earlier).length < bound := by
  rw [written, List.flatMap_append, List.length_append, List.length_append] at hfit
  rw [List.length_append, written]
  omega

/-- A whole session keeps the queue. -/
theorem queues_session {data : Bytes} (hdata : data.length < 2 ^ 63) {calls : List StreamCall}
    (hcalls : ∀ call ∈ calls, QueueCall call) (hfit : (data ++ written calls).length < 2 ^ 63) :
    Queues data calls ((ofData data hdata).replies calls) ((ofData data hdata).after calls) := by
  -- the bound is on the whole session, so the invariant asks for it of each part
  refine Session.invariant (fun calls replies stream =>
    (data ++ written calls).length < 2 ^ 63 → Queues data calls replies stream)
    (fun _ => ⟨(List.append_nil data).symm, Nat.zero_le _, rfl⟩) ?_ hcalls hfit
  intro calls replies stream call hinv hcall hfit
  have hqueues := hinv (length_written_lt hfit)
  cases call with
  | write buffer => exact hqueues.write hfit
  | read size => exact hqueues.read hcall
  | seek pos => exact absurd hcall id

/-- A read that throws can be put into a session or taken out of it. -/
theorem insert_failing_read {stream : MemoryStream} {earlier : List StreamCall} {size : UInt64}
    (hfails : ((stream.after earlier).answer (.read size)).1 = .error .outOfRange)
    (later : List StreamCall) :
    stream.replies (earlier ++ .read size :: later) =
        stream.replies earlier ++
          .error .outOfRange :: (stream.replies (earlier ++ later)).drop earlier.length ∧
      stream.after (earlier ++ .read size :: later) = stream.after (earlier ++ later) := by
  have hidle : ((stream.after earlier).answer (.read size)).2 = stream.after earlier := by
    rw [answer] at hfails ⊢
    cases hread : (stream.after earlier).read size with
    | ok result =>
        rw [hread] at hfails
        cases hfails
    | error failure => rfl
  have hinsert := Session.insert_idle hidle later
  rw [show (answer (Session.after answer stream earlier) (.read size)).1 = _ from hfails] at hinsert
  exact hinsert

/-- The stream as a queue: the cursor never passes the end, nothing that was there first or
was written is lost, a read that does not pass the end returns the next bytes of it, all that
is read is read in order, and reads that fail leave no trace. -/
theorem queue_session {data : Bytes} (hdata : data.length < 2 ^ 63) {calls : List StreamCall}
    (hcalls : ∀ call ∈ calls, QueueCall call) (hfit : (data ++ written calls).length < 2 ^ 63) :
    (∀ earlier, earlier <+: calls →
      ((ofData data hdata).after earlier).position.toNat ≤
        ((ofData data hdata).after earlier).data.length) ∧
    ((ofData data hdata).after calls).data = data ++ written calls ∧
    (∀ (earlier : List StreamCall) (size : UInt64), earlier <+: calls →
      ((ofData data hdata).after earlier).position.toNat + size.toNat ≤
        (data ++ written earlier).length →
      (((ofData data hdata).after earlier).answer (.read size)).1 =
        .ok (Buffer.slice (data ++ written earlier)
          ((ofData data hdata).after earlier).position.toNat size.toNat)) ∧
    received ((ofData data hdata).replies calls) <+: data ++ written calls ∧
    (received ((ofData data hdata).replies calls)).length =
      ((ofData data hdata).after calls).position.toNat ∧
    ∀ earlier size later, calls = earlier ++ later →
      (((ofData data hdata).after earlier).answer (.read size)).1 = .error .outOfRange →
      (ofData data hdata).replies (earlier ++ .read size :: later) =
          (ofData data hdata).replies earlier ++
            .error .outOfRange :: ((ofData data hdata).replies calls).drop earlier.length ∧
        (ofData data hdata).after (earlier ++ .read size :: later) =
          (ofData data hdata).after calls := by
  have hqueues := queues_session hdata hcalls hfit
  have hfront {earlier : List StreamCall} (hearlier : earlier <+: calls) :
      Queues data earlier ((ofData data hdata).replies earlier)
        ((ofData data hdata).after earlier) := by
    obtain ⟨later, rfl⟩ := hearlier
    exact queues_session hdata (fun call hcall => hcalls call (List.mem_append_left _ hcall))
      (length_written_lt hfit)
  refine ⟨fun earlier hearlier => (hfront hearlier).position_le, hqueues.data_eq, ?_, ?_, ?_, ?_⟩
  · intro earlier size hearlier hfits
    rw [← (hfront hearlier).data_eq] at hfits ⊢
    rw [answer_read_of_fits hfits]
  · rw [hqueues.received_eq, ← hqueues.data_eq]
    exact List.take_prefix _ _
  · rw [hqueues.received_eq, List.length_take, min_eq_left hqueues.position_le]
  · rintro earlier size later rfl hfails
    exact insert_failing_read hfails later

/-- Two writes and three reads, one of which asks for too much. -/
theorem queue_session_three :
    ((ofData [1] (by decide)).after
        [.write [2, 3], .read 2, .read 5, .write [4], .read 2]).data = [1, 2, 3, 4] ∧
      (((ofData [1] (by decide)).after [.write [2, 3]]).answer (.read 2)).1 = .ok [1, 2] ∧
      received ((ofData [1] (by decide)).replies
          [.write [2, 3], .read 2, .read 5, .write [4], .read 2]) <+: [1, 2, 3, 4] := by
  obtain ⟨-, hdata, hfits, hreceived, -⟩ := @queue_session [1] (by decide)
    [.write [2, 3], .read 2, .read 5, .write [4], .read 2] (by simp [QueueCall]) (by decide)
  exact ⟨hdata, hfits [.write [2, 3]] 2 ⟨_, rfl⟩ (by decide), hreceived⟩

end MemoryStream

end Dht
