import Braid.Commands.Gate
import Braid.Daemon.Ledger
import Braid.Forwarding.Stream
import Braid.Session.Deferred
import Braid.Session.Link
import Braid.Session.Sink

/-! One attached client: what a session keeps per screen rather than per terminal. A client is streamed
the output until its queue overruns, and is then sent whole screens until it has caught up. The codec is a
parameter `wire` that gives the length of the frame a message encodes to, and the cut of a screen into
pieces is an input. Echo acknowledgements and cursor cues are left out. -/

namespace Braid.Session

open Commands (ClientStream)
open Daemon (RepaintFrame RowMask ScreenLedger)
open Forwarding (Segment SackRuns maxForwardChunk u64Max)
open Foundation (Text)
open Screen (GridSize)

def maxOutputChunk : ℕ := 65536

def minDatagramFrame : ℕ := 1160

def outputOverhead : ℕ := 28

def forwardOverhead : ℕ := 22

def encodeAttempts : ℕ := 2

def maxFrame : ℕ := 1048576

def maxTitle : ℕ := 512

def maxDeferred : ℕ := 16

def maxDeferredBytes : ℕ := 4096

/-- What a screen's header takes beside the title and the deferred sequences. -/
def headerSlop : ℕ := 128

inductive ForwardResetReason where
  | refused
  | unreachable
  | closed
  | limit
  | internal
  deriving DecidableEq

/-- The messages of a session, and of a screen the stamp its pieces carry and the deferred sequences in
its head. The marks of those do not travel. A message that ends an attachment leaves the session with its
sink. -/
inductive Message where
  | hello
  | helloForward
  | commandAck (highest : Option ℕ)
  | outputSkipped (bytes : ℕ)
  | ping (token intervalMs : ℕ)
  | output (off : ℕ) (bytes : List UInt8)
  | screen (generation version nextOff : ℕ) (deferred : List (ℕ × Text))
  | screenTail (generation version : ℕ)
  | forwardData (stream : ℕ) (segment : Segment) (bytes : List UInt8)
  | forwardAck (stream off window : ℕ) (held : SackRuns)
  | forwardReset (stream : ℕ) (reason : ForwardResetReason)
  deriving DecidableEq

/-- The length of the frame a message encodes to, if it does. -/
abbrev Wire := Message → Option ℕ

/-- What bounds one message to the client. -/
inductive Framing where
  | stream
  | datagram (budget : { n : ℕ // minDatagramFrame ≤ n })
  deriving DecidableEq

namespace Framing

def frameBudget : Framing → ℕ
  | stream => maxOutputChunk
  | datagram budget => budget.1

def outputChunk (f : Framing) : ℕ := f.frameBudget - outputOverhead

def screenBudget : Framing → ℕ
  | stream => maxFrame
  | datagram budget => budget.1

def deferredBudget (f : Framing) : ℕ := f.screenBudget - (maxTitle + headerSlop)

def forwardChunk (f : Framing) : ℕ := min (f.frameBudget - forwardOverhead) maxForwardChunk

end Framing

inductive OutputMode where
  | passthrough
  | awaitingScreen
  | screenSent
  deriving DecidableEq

/-- Which attachments a repaint is for. -/
inductive Painted where
  | due
  | one (id : ℕ)
  deriving DecidableEq

inductive Painting where
  | sent
  | withheld
  deriving DecidableEq

/-- The lengths of the pieces a screen is cut into, of which there is at least one. -/
structure Cut where
  head : ℕ
  tails : List ℕ

structure Attachment where
  id : ℕ
  client : ℕ
  stream : ClientStream
  sink : Sink Message
  framing : Framing
  ledger : ScreenLedger
  link : LinkTiming
  size : GridSize
  mode : OutputMode
  generation : ℕ
  version : ℕ
  screenSentAt : ℕ
  lastRepaint : ℕ
  repaintPending : Bool
  consumed : ℕ
  /-- Where the next screen starts carrying deferred sequences from. -/
  deferredFrom : ℕ
  /-- Where the screen the ledger holds carried up to. -/
  deferredSent : ℕ
  encodeFailures : ℕ
  pressure : ScreenPressure

/-- Half of what puts a datagram client into a sync episode. -/
def datagramWindow : ℕ := streamLimit / 2

/-- Cut a run of output into chunks; the recursion is on the bytes left. -/
def chunksOf (n : ℕ) : ℕ → List UInt8 → List (List UInt8)
  | 0, _ => []
  | left + 1, bytes => if bytes = [] then [] else bytes.take n :: chunksOf n left (bytes.drop n)

def chunks (n : ℕ) (bytes : List UInt8) : List (List UInt8) := chunksOf n bytes.length bytes

/-- Oldest out first, where two bytes are charged for the length of each. -/
def deferredStart (deferred : List (ℕ × Text)) : ℕ :=
  deferred.length - DeferredOsc.fitting maxDeferredBytes (deferred.reverse.take maxDeferred) 0

/-- What the head of a screen restates of the deferred sequences it is given. -/
def encodeSticky (deferred : List (ℕ × Text)) : List (ℕ × Text) := deferred.drop (deferredStart deferred)

namespace Attachment

variable (wire : Wire) (a : Attachment)

def new (id client : ℕ) (stream : ClientStream) (sink : Sink Message) (framing : Framing) (size : GridSize)
    (generation now : ℕ) : Attachment where
  id := id
  client := client
  stream := stream
  sink := sink
  framing := framing
  ledger := .new
  link := .new now
  size := size
  mode := .passthrough
  generation := generation
  version := Daemon.initialVersion
  screenSentAt := now
  lastRepaint := now
  repaintPending := false
  consumed := 0
  deferredFrom := 0
  deferredSent := 0
  encodeFailures := 0
  pressure := .clear

/-- Queue a message the client cannot be left without. -/
def send (message : Message) : Except SinkError Attachment :=
  match wire message with
  | none => .error .unusable
  | some len => (a.sink.sendControl ⟨message, len⟩ .back).map fun sink => { a with sink }

/-- Queue a message whose loss costs nothing. -/
def offer (message : Message) : Attachment :=
  match a.send wire message with
  | .ok a => a
  | .error _ => a

def sendForward (message : Message) : Except SinkError Attachment :=
  match wire message with
  | none => .error .unusable
  | some len => (a.sink.sendForward ⟨message, len⟩).map fun sink => { a with sink }

/-- The grid is the smallest attached terminal, and a larger one wraps it early. -/
def fits (grid : GridSize) : Bool := a.size = grid

def consume (off : ℕ) : Attachment := { a with consumed := max a.consumed off }

def regrid (generation rows : ℕ) : Attachment :=
  { a with
    generation := generation
    ledger := (a.ledger.invalidate rows).releaseInFlight
    mode := if a.mode = .screenSent then .awaitingScreen else a.mode }

/-- The same, numbering this client's screens again from one. -/
def restart (generation rows : ℕ) : Attachment := { a.regrid generation rows with version := Daemon.initialVersion }

def isSyncing : Bool := a.mode ≠ .passthrough

def resumed : Attachment := { a with mode := .passthrough }

def painting (painted : Painted) (now : ℕ) : Attachment :=
  { a with
    version := if painted = .due then min (a.version + 1) u64Max else a.version
    repaintPending := false
    lastRepaint := now }

/-- The deferred sequences the client has not been given, the newest that the framing has room for. -/
def owedDeferred (log : DeferredOsc) : List (ℕ × Text) := log.carry a.deferredFrom a.framing.deferredBudget

/-- Those of them that its next screen carries. -/
def screenDeferred (log : DeferredOsc) : List (ℕ × Text) := encodeSticky (a.owedDeferred log)

def sent (mark now : ℕ) : Attachment :=
  { a with
    deferredSent := mark
    screenSentAt := now
    mode := if a.mode = .passthrough then .passthrough else .screenSent }

def confirm (generation version : ℕ) : Attachment :=
  let (ledger, confirmed) := a.ledger.confirm generation version
  { a with ledger, deferredFrom := if confirmed then a.deferredSent else a.deferredFrom }

def caughtUp (offset : ℕ) : Bool :=
  match a.framing with
  | .stream => a.sink.isDrained
  | .datagram _ => a.sink.isDrained && decide (offset - a.consumed ≤ datagramWindow)

/-- The client has caught up, or the terminal has been quiet for a repaint interval. -/
def mayReturnToPassthrough (offset now : ℕ) (lastOutput : Option ℕ) : Bool :=
  a.caughtUp offset || lastOutput.all fun last => a.link.repaintInterval ≤ now - last

/-- Leave the sync episode, or keep a repaint armed so that the decision is taken again. -/
def settle (caughtUp : Bool) (grid : GridSize) : Attachment :=
  if caughtUp then { a with mode := if a.fits grid then .passthrough else .screenSent }
  else { a with repaintPending := true }

def settleBeforeOutput (offset now : ℕ) (lastOutput : Option ℕ) (grid : GridSize) : Attachment :=
  if a.mode = .screenSent then a.settle (a.mayReturnToPassthrough offset now lastOutput) grid else a

/-- How much longer the screen awaiting acknowledgement holds the next back. -/
def ackHold (now : ℕ) : ℕ :=
  if a.ledger.pending.isSome then a.link.ackTimeout - (now - a.screenSentAt) else 0

/-- How much longer a client still holding an oversized screen keeps the next one back. -/
def screenHold : ℕ :=
  if a.pressure = .over ∧ a.sink.isDrained = false then a.link.repaintInterval else 0

def repaintHold (now : ℕ) : ℕ :=
  max (max (a.link.repaintInterval - (now - a.lastRepaint)) (a.ackHold now)) a.screenHold

def repaintDue (now : ℕ) : Bool := a.repaintPending && a.repaintHold now == 0

/-- Enter whole-screen mode. What a screen in flight carried is still owed. -/
def beginSync (mark : ℕ) : Attachment :=
  { a with
    deferredFrom := if a.mode = .passthrough ∧ a.ledger.pending.isNone then mark else a.deferredFrom
    mode := if a.mode = .passthrough then .awaitingScreen else a.mode
    repaintPending := true }

/-- How long the client may be left alone before something is owed. -/
def deadline (now : ℕ) : ℕ :=
  let ping := a.link.pingInterval - (now - a.link.lastProbe)
  if a.repaintPending then min ping (a.repaintHold now) else ping

def wants (painted : Painted) (now : ℕ) : Bool :=
  match painted with
  | .due => a.repaintDue now
  | .one id => a.id == id && a.repaintPending && a.ackHold now == 0

/-- Queue the chunks of a run of output one after another. A refusal for want of room drops the stream
that is queued and begins a sync episode. -/
def pushChunks (mark : ℕ) (a : Attachment) (offset : ℕ) : List (List UInt8) → Attachment × Except SinkError Unit
  | [] => (a, .ok ())
  | chunk :: rest =>
    match wire (.output offset chunk) with
    | none => (a, .error .unusable)
    | some len =>
      match a.sink.sendOutput ⟨.output offset chunk, len⟩ with
      | .ok sink => pushChunks mark { a with sink } (offset + chunk.length) rest
      | .error .full => ({ a with sink := a.sink.discardStream }.beginSync mark, .ok ())
      | .error .unusable => (a, .error .unusable)

/-- Further behind than a stream's window would have let a datagram client get. -/
def farBehind (offset : ℕ) : Bool :=
  match a.framing with
  | .stream => false
  | .datagram _ => streamLimit < offset - a.consumed

/-- Output is traffic. -/
def stirredBy (bytes : List UInt8) : Attachment := if bytes = [] then a else { a with link := a.link.stirred }

/-- Hand one run of output to the client. -/
def pushOutput (offset : ℕ) (bytes : List UInt8) (mark : ℕ) : Attachment × Except SinkError Unit :=
  let a := a.stirredBy bytes
  if a.farBehind offset then (a.beginSync mark, .ok ())
  else a.pushChunks wire mark offset (chunks a.framing.outputChunk bytes)

/-- The pieces of the screen stamped on the attachment. -/
def pieces (nextOff : ℕ) (deferred : List (ℕ × Text)) (cut : Cut) : List (SinkFrame Message) :=
  ⟨.screen a.generation a.version nextOff (encodeSticky deferred), cut.head⟩ ::
    cut.tails.map fun len => ⟨.screenTail a.generation a.version, len⟩

/-- A screen that will not encode is tried again on a timer a bounded number of times. -/
def withhold : Attachment :=
  let failures := min (a.encodeFailures + 1) 4294967295
  { a with
    ledger := a.ledger.releaseInFlight
    encodeFailures := failures
    repaintPending := a.repaintPending || decide (failures < encodeAttempts) }

/-- Send the client the current screen. The ledger decides and records in one call. -/
def pushScreen (frame : RepaintFrame) (nextOff : ℕ) (deferred : List (ℕ × Text)) (cut : Option Cut) :
    Attachment × Except SinkError Painting :=
  let a := { a with ledger := (a.ledger.plan frame a.generation a.version).1 }
  match cut with
  | none => (a.withhold, .ok .withheld)
  | some cut =>
    let a := { a with encodeFailures := 0 }
    match a.sink.sendScreen (a.pieces nextOff deferred cut) with
    | .ok (sink, pressure) => ({ a with sink, pressure }, .ok .sent)
    | .error error => ({ a with ledger := a.ledger.releaseInFlight }, .error error)

/-- The command that detaches is admitted, and acknowledged if it is fresh. -/
def detaching (seq : ℕ) : Attachment :=
  let (stream, admission) := a.stream.admit_ seq
  { a with stream := if admission = .fresh then (stream.acknowledged seq).1 else stream }

/-- One attachment's part of a repaint, and whether its transport is gone. -/
def repaint (painted : Painted) (frame : RepaintFrame) (dirty : RowMask) (offset : ℕ) (grid : GridSize)
    (lastOutput : Option ℕ) (log : DeferredOsc) (cut : Option Cut) (now : ℕ) : Attachment × Bool :=
  let a := { a with ledger := a.ledger.noteDamage dirty }
  if a.wants painted now then
    match (a.painting painted now).pushScreen frame offset (a.owedDeferred log) cut with
    | (a, .ok .sent) =>
      let a := a.sent log.mark now
      (if a.isSyncing then a.settle (a.mayReturnToPassthrough offset now lastOutput) grid else a, false)
    | (a, .ok .withheld) => (a, false)
    | (a, .error _) => (a, true)
  else (a, false)

/-- One attachment's part of a run of output, and whether its transport is gone. -/
def forward (offset : ℕ) (bytes : List UInt8) (grid : GridSize) (lastOutput : Option ℕ) (mark now : ℕ) :
    Attachment × Bool :=
  let a := a.settleBeforeOutput offset now lastOutput grid
  if a.isSyncing || !a.fits grid then (a.beginSync mark, false)
  else match a.pushOutput wire offset bytes mark with
    | (a, .ok _) => (a, false)
    | (a, .error _) => (a, true)

/-- One attachment's part of a tick, and whether it is given up: its sink is closed, its client has
stopped answering, or a probe is due that the sink will not take. -/
def probe (now : ℕ) : Attachment × Bool :=
  if a.sink.isClosed || a.link.isDead now then (a, true)
  else match a.link.probe now with
    | (link, none) => ({ a with link }, false)
    | (link, some token) =>
      match { a with link }.send wire (.ping token link.intervalMs) with
      | .ok a => (a, false)
      | .error _ => ({ a with link }, true)

end Attachment

end Braid.Session
