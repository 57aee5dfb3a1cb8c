import Braid.Foundation.Outlet
import Braid.Forwarding.Stream

/-! The daemon's half of a forwarded connection: the stream, the bounded buffer
its socket's writer thread empties, the credit its reader thread spends, and
the bytes read that the send window had no room for. -/

namespace Braid.Daemon

open Foundation Forwarding

def backlog : ℕ := forwardWindow

def readChunk : ℕ := maxForwardChunk

/-- The write buffer with its worker: the outlet's queue, end and close are the
buffer's `bytes`, `finished` and `closed`, and its output is the socket. -/
structure ForwardWrite where
  outlet : Outlet UInt8
  writing : ℕ
  failed : Bool
  deriving DecidableEq

namespace ForwardWrite

def new : ForwardWrite := ⟨.new, 0, false⟩

variable (w : ForwardWrite)

/-- What the backlog is charged with: the queue and the batch being written. -/
def charged : ℕ := w.outlet.queue.length + w.writing

def write (bytes : List UInt8) : ForwardWrite × ℕ :=
  if w.outlet.closed || w.failed || w.outlet.ended then (w, 0)
  else
    let take := min (backlog - w.charged) bytes.length
    ({ w with outlet := w.outlet.push (bytes.take take) }, take)

def shutdown : ForwardWrite := { w with outlet := { w.outlet with ended := true } }

def isFailed : Bool := w.failed || w.outlet.closed

/-- A step of the worker. At the lock the batch just written stops being
charged, and the one it takes starts to be. -/
def work (step : WorkerStep) : Option ForwardWrite :=
  (w.outlet.step step).map fun outlet =>
    { w with outlet, writing := if step = .turn then w.outlet.queue.length else w.writing }

end ForwardWrite

structure Credit where
  available : ℕ
  closed : Bool
  deriving DecidableEq

namespace Credit

def new : Credit := ⟨0, false⟩

/-- A ceiling rather than a sum. -/
def grant (c : Credit) (bytes : ℕ) : Credit :=
  if bytes ≤ c.available then c else { c with available := bytes }

/-- What a reader that does not wait is given; zero means it must retire. -/
def take (c : Credit) (most : ℕ) : Option (Credit × ℕ) :=
  if c.closed then some (c, 0)
  else if 0 < c.available then
    let taken := min c.available most
    some ({ c with available := c.available - taken }, taken)
  else none

def close (c : Credit) : Credit := { c with closed := true }

end Credit

structure Forward where
  stream : Stream
  connected : Bool
  credit : Credit
  pending : List UInt8
  owedAck : Option Ack
  deriving DecidableEq

namespace Forward

def new : Forward := ⟨Stream.new, false, Credit.new, [], none⟩

variable (f : Forward)

def drainPending (now : ℕ) : Forward :=
  if f.pending = [] then f
  else
    let (stream, taken) := f.stream.write f.pending now
    { f with stream := stream, pending := f.pending.drop taken }

def absorb (bytes : List UInt8) (now : ℕ) : Forward :=
  if f.pending = [] then
    let (stream, taken) := f.stream.write bytes now
    { f with stream := stream, pending := bytes.drop taken }
  else { f with pending := f.pending ++ bytes }.drainPending now

/-- The half is closed only once the window has taken everything read. -/
def finish (f : Forward) (now : ℕ) : Forward :=
  let f := f.drainPending now
  if f.pending = [] then { f with stream := f.stream.finish } else f

/-- Poll the acknowledgement owed, keeping one the sink has yet to take. -/
def pollOwedAck : Forward :=
  let (stream, next) := f.stream.pollAck
  { f with stream := stream, owedAck := next.or f.owedAck }

def acked : Forward := { f with owedAck := none }

/-- Nothing is granted while a remainder is held. -/
def grantCredit : Forward :=
  if f.pending = [] then { f with credit := f.credit.grant f.stream.writable } else f

def isDone (f : Forward) : Bool := f.pending.isEmpty && f.owedAck.isNone && f.stream.isDone

/-- The first half of a turn of `pump_forwards`: acknowledge, then transmit.
`ackTaken` is whether the sink takes the acknowledgement. -/
def pumpOut (now budget wrap : ℕ) (ackTaken : Bool) (room : ℕ) : Forward :=
  let f := f.pollOwedAck
  let f := if ackTaken then f.acked else f
  { f with stream := f.stream.transmitAll now budget wrap room }

end Forward

end Braid.Daemon
