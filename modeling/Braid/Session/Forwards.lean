import Braid.Daemon.Forward
import Braid.Session.Attachment

/-! The forwards a session carries, keyed by client and stream: a forward belongs to the client and not to
the attachment it arrived on, so it outlives a reconnect. One turn of the pump acknowledges, transmits,
delivers and refills through the sink of its client's attachment. Each forward is held with the buffer of
the thread that writes its socket. -/

namespace Braid.Session

open Daemon (Forward ForwardWrite)
open Forwarding

def maxForwards : ℕ := 8

def closedRing : ℕ := maxForwards * 2

structure LiveForward where
  forward : Forward
  write : ForwardWrite
  deriving DecidableEq

abbrev ForwardKey := ℕ × ℕ

structure Forwards where
  live : List (ForwardKey × LiveForward)
  /-- The ids each client has closed, oldest first. -/
  closed : List ForwardKey
  deriving DecidableEq

/-- What a turn of the pump finds out about a forward. -/
inductive Pumped where
  | kept
  | failed
  | done
  deriving DecidableEq

namespace LiveForward

variable (wire : Wire) (f : LiveForward)

def new : LiveForward := ⟨.new, .new⟩

/-- Poll and queue segments until none is owed or the sink refuses one. A segment the sink took has used
room of its lane, which bounds the loop. -/
def transmit (id now budget wrap : ℕ) : ℕ → Attachment → Stream → Attachment × Stream
  | 0, a, stream => (a, stream)
  | room + 1, a, stream =>
    match stream.pollTransmit now budget wrap with
    | (stream, none) => (a, stream)
    | (stream, some (segment, bytes)) =>
      match a.sendForward wire (.forwardData id segment bytes) with
      | .error _ => (a, stream)
      | .ok a => transmit id now budget wrap room a (stream.transmitted segment now)

/-- Queue the acknowledgement owed; one the sink refuses stays owed. -/
def acknowledge (id : ℕ) (a : Attachment) (f : Forward) : Attachment × Forward :=
  let f := f.pollOwedAck
  match f.owedAck with
  | none => (a, f)
  | some ack =>
    match a.sendForward wire (.forwardAck id ack.off ack.window ack.held) with
    | .ok a => (a, f.acked)
    | .error _ => (a, f)

/-- `false` is a reset rather than a stall. -/
def drainToSocket (wrap : ℕ) : LiveForward × Bool :=
  if f.forward.connected = false then (f, true)
  else if f.write.isFailed then (f, false)
  else
    let (first, second) := f.forward.stream.readable wrap
    let (write, taken) := f.write.write first
    let (write, more) := if taken = first.length then write.write second else (write, 0)
    let stream := f.forward.stream.consume (taken + more)
    (⟨{ f.forward with stream }, if stream.peerFinished then write.shutdown else write⟩, true)

/-- One turn of the pump for one forward of an attached client. -/
def pump (id now wrap : ℕ) (a : Attachment) : Attachment × LiveForward × Pumped :=
  let (a, forward) := acknowledge wire id a f.forward
  let (a, stream) := transmit wire id now a.framing.forwardChunk wrap (forwardLane + 1) a forward.stream
  match ({ f with forward := { forward with stream } } : LiveForward).drainToSocket wrap with
  | (f, false) => (a, f, .failed)
  | (f, true) =>
    let f := { f with forward := f.forward.grantCredit }
    (a, f, if f.forward.isDone then .done else .kept)

def deadline (now : ℕ) : Option ℕ := f.forward.stream.deadline now

end LiveForward

namespace Forwards

variable (t : Forwards)

def empty : Forwards := ⟨[], []⟩

variable (key : ForwardKey)

def get? : Option LiveForward := (t.live.find? (·.1 = key)).map Prod.snd

def modify (step : LiveForward → LiveForward) : Forwards :=
  { t with live := t.live.map fun entry => if entry.1 = key then (entry.1, step entry.2) else entry }

def insert (f : LiveForward) : Forwards :=
  { t with live := t.live.filter (·.1 ≠ key) ++ [(key, f)] }

def heldBy (client : ℕ) : ℕ := t.live.countP (·.1.1 = client)

instance (key : ForwardKey) : Decidable (key ∈ t.closed) := inferInstance

/-- Remembered even for a forward that never existed. -/
def retire : Forwards :=
  let live := t.live.filter (·.1 ≠ key)
  if key ∈ t.closed then { t with live }
  else
    let closed := if t.closed.countP (·.1 = key.1) = closedRing then t.closed.eraseP (·.1 = key.1) else t.closed
    ⟨live, closed ++ [key]⟩

def forget (client : ℕ) : Forwards :=
  ⟨t.live.filter (·.1.1 ≠ client), t.closed.filter (·.1 ≠ client)⟩

def deadline (now : ℕ) : Option ℕ := (t.live.filterMap fun entry => entry.2.deadline now).min?

end Forwards

end Braid.Session
