/-
# Decoders with decoupled input and output

A decoder takes packets and hands out frames at its own pace: a packet makes any
number of frames available, and some are held back until more input arrives or until
draining starts with a null packet. A client sends a packet and then receives until
there is nothing to receive.

Such a client sees exactly the frames its packets made available, whatever it does
with them. The frames held back after the last packet reach only a client that
drains; together these two parts are the complete decoded sequence.
-/

import Mathlib.Data.List.Basic

namespace SendReceive

/-- A decoder. What it holds back is part of its state. -/
structure Codec (Packet Frame State : Type) where
  initial : State
  /-- The frames a packet makes available, none at all if it is refused as invalid. -/
  decode : State → Packet → Option (List Frame) × State
  /-- The frames that draining makes available. -/
  drain : State → List Frame

variable {Packet Frame State : Type}

/-! ## The interface -/

/-- An opened decoder with its queue of frames to be received. -/
structure Context (codec : Codec Packet Frame State) where
  state : State
  ready : List Frame
  draining : Bool

/-- What a call returns. -/
inductive Reply
  | success
  | again
  | ended
  | invalid
  deriving DecidableEq

variable {codec : Codec Packet Frame State}

def Context.opened (codec : Codec Packet Frame State) : Context codec where
  state := codec.initial
  ready := []
  draining := false

/-- Send a packet, or the null packet that starts draining. Input is not accepted
before all output has been received, nor after draining has started. -/
def Context.sendPacket (ctx : Context codec) (packet : Option Packet) :
    Reply × Context codec :=
  if ctx.draining then (.ended, ctx)
  else if ctx.ready.isEmpty then
    match packet with
    | none => (.success, ⟨ctx.state, codec.drain ctx.state, true⟩)
    | some packet =>
        match codec.decode ctx.state packet with
        | (none, state) => (.invalid, ⟨state, [], false⟩)
        | (some frames, state) => (.success, ⟨state, frames, false⟩)
  else (.again, ctx)

/-- Receive the next frame, if there is one. -/
def Context.receiveFrame (ctx : Context codec) : Except Reply (Frame × Context codec) :=
  match ctx.ready with
  | [] => .error (if ctx.draining then .ended else .again)
  | frame :: rest => .ok (frame, ⟨ctx.state, rest, ctx.draining⟩)

/-! ## A client -/

variable {σ ε : Type} (body : σ → Frame → Except ε σ)

/-- The loop `while (receive(frame) succeeds)`. -/
def receiveLoop (ctx : Context codec) (value : σ) : Except ε (σ × Context codec) :=
  match _hreceive : ctx.receiveFrame with
  | .error _ => .ok (value, ctx)
  | .ok (frame, next) =>
      match body value frame with
      | .error failure => .error failure
      | .ok value => receiveLoop next value
termination_by ctx.ready.length
decreasing_by
  rcases ctx with ⟨state, ready, draining⟩
  cases ready with
  | nil => cases _hreceive
  | cons first rest =>
      cases _hreceive
      exact Nat.lt_succ_self _

/-- Send one packet and receive what it makes available. A packet that is not
accepted is dropped. -/
def sendTurn (client : σ × Context codec) (packet : Packet) :
    Except ε (σ × Context codec) :=
  match client.2.sendPacket (some packet) with
  | (.success, ctx) => receiveLoop body ctx client.1
  | (_, ctx) => .ok (client.1, ctx)

/-- The client that sends the null packet in the end. -/
def drainingClient (codec : Codec Packet Frame State) (packets : List Packet) (value : σ) :
    Except ε (σ × Context codec) := do
  let client ← packets.foldlM (sendTurn body) (value, Context.opened codec)
  receiveLoop body (client.2.sendPacket none).2 client.1

/-! ## What there is to receive -/

/-- The frames that packets make available, in order. -/
def Codec.yields (codec : Codec Packet Frame State) : State → List Packet → List Frame
  | _, [] => []
  | state, packet :: packets =>
      ((codec.decode state packet).1.getD []) ++
        codec.yields (codec.decode state packet).2 packets

/-- The state after packets. -/
def Codec.after (codec : Codec Packet Frame State) : State → List Packet → State
  | state, [] => state
  | state, packet :: packets => codec.after (codec.decode state packet).2 packets

/-- The frames still held back when all packets have been sent. -/
def Codec.heldBack (codec : Codec Packet Frame State) (packets : List Packet) : List Frame :=
  codec.drain (codec.after codec.initial packets)

/-- The complete decoded sequence. -/
def Codec.complete (codec : Codec Packet Frame State) (packets : List Packet) : List Frame :=
  codec.yields codec.initial packets ++ codec.heldBack packets

/-- The receiving loop runs its body on the queue and leaves it empty. -/
theorem receiveLoop_eq (state : State) (ready : List Frame) (draining : Bool)
    (value : σ) :
    receiveLoop body (⟨state, ready, draining⟩ : Context codec) value = (do
      let value ← ready.foldlM body value
      pure (value, ⟨state, [], draining⟩)) := by
  induction ready generalizing value with
  | nil =>
      rw [receiveLoop]
      rfl
  | cons frame rest ih =>
      rw [receiveLoop, List.foldlM_cons]
      dsimp only [Context.receiveFrame]
      cases hbody : body value frame with
      | error failure => rfl
      | ok next =>
          dsimp only
          rw [ih next]
          rfl

/-- One turn runs the body on the frames its packet makes available. -/
theorem sendTurn_eq (packet : Packet) (state : State) (value : σ) :
    sendTurn body (value, (⟨state, [], false⟩ : Context codec)) packet = (do
      let value ← ((codec.decode state packet).1.getD []).foldlM body value
      pure (value, ⟨(codec.decode state packet).2, [], false⟩)) := by
  rw [sendTurn, Context.sendPacket]
  dsimp only
  rcases codec.decode state packet with ⟨frames, next⟩
  cases frames with
  | none => rfl
  | some frames => exact receiveLoop_eq body next frames false value

/-- Turn after turn the client runs its body on everything that is made available. -/
theorem foldlM_sendTurn (codec : Codec Packet Frame State) (packets : List Packet)
    (state : State) (value : σ) :
    packets.foldlM (sendTurn body) (value, (⟨state, [], false⟩ : Context codec)) = (do
      let value ← (codec.yields state packets).foldlM body value
      pure (value, ⟨codec.after state packets, [], false⟩)) := by
  induction packets generalizing state value with
  | nil => rfl
  | cons packet packets ih =>
      rw [List.foldlM_cons, sendTurn_eq, Codec.yields, Codec.after, List.foldlM_append,
        bind_assoc, bind_assoc]
      congr 1
      funext next
      rw [pure_bind]
      exact ih _ next

/-- A client that drains has run its body on the complete sequence. -/
theorem drainingClient_eq (codec : Codec Packet Frame State) (packets : List Packet) (value : σ) :
    drainingClient body codec packets value = (do
      let value ← (codec.complete packets).foldlM body value
      pure (value, ⟨codec.after codec.initial packets, [], true⟩)) := by
  have hsent := foldlM_sendTurn body codec packets codec.initial value
  rw [drainingClient, Context.opened, hsent, Codec.complete, List.foldlM_append, bind_assoc,
    bind_assoc]
  congr 1
  funext next
  rw [pure_bind]
  exact receiveLoop_eq body _ _ true next

end SendReceive
