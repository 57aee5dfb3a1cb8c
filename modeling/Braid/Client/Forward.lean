import Braid.Foundation.Outlet
import Braid.Foundation.System
import Braid.Forwarding.Arrival

/-! The client's half of a forwarded connection. The pump holds the table for a
whole pass, so frames and reads of the local socket fall between passes; inside
one, every call on the local writer is a lock of its own, and the writer thread
runs between them. The socket makes no errors and the peer does not contradict
itself. `received` records what the stream has placed. -/

namespace Braid.Client

open Foundation Forwarding

/-- Bytes waiting for one local socket. -/
def localBacklog : ℕ := 65536

/-- The local buffer with its writer thread: the outlet's queue, end and close
are the buffer's `bytes`, `ended` and `closed`, and its output is the socket. -/
structure LocalWriter where
  outlet : Outlet UInt8
  failed : Bool
  deriving DecidableEq

namespace LocalWriter

def new : LocalWriter := ⟨.new, false⟩

variable (w : LocalWriter)

/-- Take a prefix of `bytes`, and say how long it is. -/
def write (bytes : List UInt8) : LocalWriter × ℕ :=
  if bytes = [] then (w, 0)
  else if w.outlet.closed || w.failed then (w, 0)
  else
    let take := min (localBacklog - w.outlet.queue.length) bytes.length
    ({ w with outlet := w.outlet.push (bytes.take take) }, take)

def finish : LocalWriter := { w with outlet := { w.outlet with ended := true } }

def close : LocalWriter := { w with outlet := { w.outlet with closed := true } }

/-- Whether the buffer is empty; the batch in the writer's hands is not asked. -/
def drained : Bool := w.outlet.queue.isEmpty

theorem write_contents (bytes : List UInt8) :
    (w.write bytes).1.outlet.contents = w.outlet.contents ++ bytes.take (w.write bytes).2 := by
  unfold write
  split_ifs
  · simp
  · simp
  · exact Outlet.contents_push _ _

theorem write_le (bytes : List UInt8) : (w.write bytes).2 ≤ bytes.length := by
  unfold write
  split_ifs
  · exact Nat.zero_le _
  · exact Nat.zero_le _
  · exact min_le_right _ _

end LocalWriter

structure Credit where
  allowed : ℕ
  closed : Bool
  deriving DecidableEq

inductive Phase where
  | idle
  | second (rest : List UInt8) (moved : ℕ)
  | ending
  | outgoing
  | checking
  | retiring
  | retired
  deriving DecidableEq

structure Conn where
  stream : Stream
  writer : LocalWriter
  credit : Credit
  phase : Phase
  received : List UInt8
  deriving DecidableEq

inductive ConnAction where
  /-- Between passes: the local socket is read, or ends, and frames arrive. -/
  | ingest (bytes : List UInt8) (now : ℕ)
  | localEnd
  | onData (off : ℕ) (fin : Bool) (bytes : List UInt8)
  | onAck (off window : ℕ) (held : SackRuns) (now : ℕ)
  /-- The pass. -/
  | moveFirst (wrap : ℕ)
  | moveSecond
  | handEnd
  | transmit (now budget wrap : ℕ) (ackTaken : Bool) (room : ℕ)
  | skip
  | check
  | retire
  /-- The writer works. -/
  | work (step : WorkerStep)
  deriving DecidableEq

namespace Conn

def new : Conn := ⟨Stream.new, LocalWriter.new, ⟨0, false⟩, .idle, []⟩

/-- Acknowledge and transmit, as far as the outbox takes frames: nothing is
transmitted once it has refused the acknowledgement. -/
def pumpOut (s : Stream) (now budget wrap : ℕ) (ackTaken : Bool) (room : ℕ) : Stream :=
  match s.pollAck with
  | (s, some _) => if ackTaken then s.transmitAll now budget wrap room else s
  | (s, none) => s.transmitAll now budget wrap room

def handle (c : Conn) : ConnAction → Option Conn
  | .ingest bytes now => some { c with stream := (c.stream.write bytes now).1 }
  | .localEnd => some { c with stream := c.stream.finish }
  | .onData off fin bytes =>
    match c.stream.onData off fin bytes with
    | .ok stream =>
      some { c with
        stream := stream
        received := c.received ++ stream.recv.ready.drop c.stream.recv.ready.length }
    | .error _ => none
  -- A contradiction queues a reset for the peer and leaves the connection as it is.
  | .onAck off window held now => some { c with stream := (c.stream.onAck off window held now).1 }
  | _ => none

def pump (c : Conn) : Phase → ConnAction → Option Conn
  | .idle, .moveFirst wrap =>
    let (front, back) := c.stream.readable wrap
    let (writer, moved) := c.writer.write front
    some (if moved = front.length then { c with writer := writer, phase := .second back moved }
      else { c with writer := writer, stream := c.stream.consume moved, phase := .ending })
  | .second rest moved, .moveSecond =>
    let (writer, more) := c.writer.write rest
    some { c with writer := writer, stream := c.stream.consume (moved + more), phase := .ending }
  | .ending, .handEnd =>
    if c.writer.failed then none
    else some { c with
      writer := if c.stream.peerFinished ∧ c.stream.recv.ready = [] then c.writer.finish else c.writer
      credit := { c.credit with allowed := c.stream.writable }
      phase := .outgoing }
  | .outgoing, .transmit now budget wrap ackTaken room =>
    some { c with stream := pumpOut c.stream now budget wrap ackTaken room, phase := .checking }
  -- No link, or an outbox that refused an earlier frame of the pass.
  | .outgoing, .skip => some { c with phase := .checking }
  | .checking, .check =>
    some { c with phase := if c.stream.isDone && c.writer.drained then .retiring else .idle }
  -- Dropping the connection shuts its socket down and closes its buffer and credit.
  | .retiring, .retire =>
    some { c with writer := c.writer.close, credit := { c.credit with closed := true }, phase := .retired }
  | _, _ => none

def work (c : Conn) (step : WorkerStep) : Option Conn :=
  if c.phase = .retired then none
  else (c.writer.outlet.step step).map fun outlet => { c with writer := { c.writer with outlet } }

def next (c : Conn) (a : ConnAction) : Option Conn :=
  match a with
  | .ingest _ _ | .localEnd | .onData _ _ _ | .onAck _ _ _ _ => if c.phase = .idle then c.handle a else none
  | .work step => c.work step
  | _ => c.pump c.phase a

def system : System Conn ConnAction := ⟨(· = new), next⟩

end Conn

end Braid.Client
