import Braid.Foundation.System
import Braid.Forwarding.Arrival
import Braid.Daemon.Forward

/-! One forwarded connection at the daemon, with the three threads that share
it: the session actor, the socket's reader and the socket's writer. A step is
one lock acquisition, so a turn of `pump_forwards` is a sequence of steps of
the actor between which the other two run. The socket makes no errors and the
peer does not contradict itself: either would end the forward with a reset.
`received` records what the stream has placed and `eofHandled` whether the
reader's end of file has been handled. -/

namespace Braid.Daemon

open Foundation Forwarding

/-- Where the actor stands in a turn of `pump_forwards`. -/
inductive Phase where
  | idle
  | handing
  | second (rest : List UInt8) (taken : ℕ)
  | shutting
  | granting
  | checking
  | retiring
  | retired
  deriving DecidableEq

/-- What the reader thread posts to the actor. -/
inductive ReaderEvent where
  | bytes (chunk : List UInt8)
  | eof
  deriving DecidableEq

/-- The reader thread: credit taken and not yet spent on a read, and whether it
has left. -/
structure Reader where
  allowance : ℕ
  left : Bool
  deriving DecidableEq

structure Tunnel where
  forward : Forward
  write : ForwardWrite
  phase : Phase
  reader : Reader
  mailbox : List ReaderEvent
  received : List UInt8
  eofHandled : Bool
  deriving DecidableEq

inductive TunnelAction where
  /-- The reader takes credit, reads, or meets the end of its socket. -/
  | take
  | read (chunk : List UInt8)
  | readEnd
  /-- The actor handles an event. -/
  | connect
  | absorb (now : ℕ)
  | finish (now : ℕ)
  | onData (off : ℕ) (fin : Bool) (bytes : List UInt8)
  | onAck (off window : ℕ) (held : SackRuns) (now : ℕ)
  /-- The actor pumps the forward. -/
  | pump (now budget wrap : ℕ) (ackTaken : Bool) (room : ℕ)
  | handFirst (wrap : ℕ)
  | handSecond
  | shutdown
  | grant
  | check
  | retire
  /-- The writer works. -/
  | work (step : WorkerStep)
  deriving DecidableEq

namespace Tunnel

def new : Tunnel where
  forward := Forward.new
  write := ForwardWrite.new
  phase := .idle
  reader := ⟨0, false⟩
  mailbox := []
  received := []
  eofHandled := false

def read (t : Tunnel) : TunnelAction → Option Tunnel
  | .take =>
    if t.reader.left then none
    else
      (t.forward.credit.take readChunk).map fun (credit, taken) =>
        { t with
          forward := { t.forward with credit := credit }
          reader := ⟨t.reader.allowance + taken, decide (taken = 0)⟩ }
  | .read chunk =>
    if t.reader.left = false ∧ 0 < chunk.length ∧ chunk.length ≤ t.reader.allowance then
      some { t with
        reader := { t.reader with allowance := t.reader.allowance - chunk.length }
        mailbox := t.mailbox ++ [.bytes chunk] }
    else none
  | .readEnd =>
    if t.reader.left then none
    else some { t with reader := { t.reader with left := true }, mailbox := t.mailbox ++ [.eof] }
  | _ => none

def handle (t : Tunnel) : TunnelAction → Option Tunnel
  | .connect => some { t with forward := { t.forward with connected := true }.grantCredit }
  | .absorb now =>
    match t.mailbox with
    | .bytes chunk :: rest => some { t with forward := t.forward.absorb chunk now, mailbox := rest }
    | _ => none
  | .finish now =>
    match t.mailbox with
    | .eof :: rest => some { t with forward := t.forward.finish now, mailbox := rest, eofHandled := true }
    | _ => none
  | .onData off fin bytes =>
    match t.forward.stream.onData off fin bytes with
    | .ok stream =>
      some { t with
        forward := { t.forward with stream := stream }
        received := t.received ++ stream.recv.ready.drop t.forward.stream.recv.ready.length }
    | .error _ => none
  | .onAck off window held now =>
    match t.forward.stream.onAck off window held now with
    | (stream, .ok _) => some { t with forward := { t.forward with stream := stream } }
    | (_, .error _) => none
  | _ => none

/-- The steps of a turn of `pump_forwards`, of which `handFirst`, `handSecond`
and `shutdown` are `drain_to_socket`. -/
def pump (t : Tunnel) : Phase → TunnelAction → Option Tunnel
  | .idle, .pump now budget wrap ackTaken room =>
    some { t with forward := t.forward.pumpOut now budget wrap ackTaken room, phase := .handing }
  | .handing, .handFirst wrap =>
    if t.forward.connected = false then some { t with phase := .granting }
    else if t.write.isFailed then none
    else
      let (first, second) := t.forward.stream.readable wrap
      let (write, taken) := t.write.write first
      some (if taken = first.length then { t with write := write, phase := .second second taken }
        else { t with
          write := write
          forward := { t.forward with stream := t.forward.stream.consume taken }
          phase := .shutting })
  | .second rest taken, .handSecond =>
    let (write, more) := t.write.write rest
    some { t with
      write := write
      forward := { t.forward with stream := t.forward.stream.consume (taken + more) }
      phase := .shutting }
  | .shutting, .shutdown =>
    some { t with
      write := if t.forward.stream.peerFinished then t.write.shutdown else t.write
      phase := .granting }
  | .granting, .grant => some { t with forward := t.forward.grantCredit, phase := .checking }
  | .checking, .check => some { t with phase := if t.forward.isDone then .retiring else .idle }
  -- Dropping the forward closes its credit, shuts its socket down and closes its buffer.
  | .retiring, .retire =>
    some { t with
      forward := { t.forward with credit := t.forward.credit.close }
      write := { t.write with outlet := { t.write.outlet with closed := true } }
      phase := .retired }
  | _, _ => none

def work (t : Tunnel) (step : WorkerStep) : Option Tunnel :=
  if t.phase = .retired then none else (t.write.work step).map fun write => { t with write }

def next (t : Tunnel) (a : TunnelAction) : Option Tunnel :=
  match a with
  | .take | .read _ | .readEnd => t.read a
  | .connect | .absorb _ | .finish _ | .onData _ _ _ | .onAck _ _ _ _ =>
    if t.phase = .idle then t.handle a else none
  | .work step => t.work step
  | _ => t.pump t.phase a

def system : System Tunnel TunnelAction := ⟨(· = new), next⟩

end Tunnel

end Braid.Daemon
