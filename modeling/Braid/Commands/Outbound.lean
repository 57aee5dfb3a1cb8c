import Braid.Screen.Cut

/-! The sending half of a client. Typed bytes wait in `pending` until a transport can
carry them; a command is numbered when it is queued for one, kept in the journal until
it is acknowledged, and sent again under the same number, by the resend timer on a
datagram link and all at once on a replacement. A sink that refuses a frame is dropped.
`numbered` and `wire` record what was numbered and every frame a sink has taken; frames
are the messages they encode. The commands that end a session are left out. -/

namespace Braid.Commands

open Foundation

/-- Commands are numbered from one, and the last number there is follows itself. -/
def maxSeq : ℕ := 2 ^ 64 - 1

def firstSeq : ℕ := 1

def nextSeq (seq : ℕ) : ℕ := min (seq + 1) maxSeq

structure ForwardTarget where
  host : Text
  port : ℕ
  deriving DecidableEq

inductive Command where
  | input (bytes : List UInt8)
  | resize (size : Screen.GridSize)
  | requestRepaint
  | forwardOpen (stream : ℕ) (target : ForwardTarget)
  deriving DecidableEq

structure ClientMessage where
  seq : ℕ
  command : Command
  deriving DecidableEq

def maxInputChunk : ℕ := 64 * 1024

def maxForwardHost : ℕ := 255

def hasControl (text : Text) : Bool := text.any fun char => char.val < 0x20 || (0x7f ≤ char.val && char.val < 0xa0)

def Command.encodes : Command → Bool
  | .input bytes => bytes.length ≤ maxInputChunk
  | .resize _ | .requestRepaint => true
  | .forwardOpen _ target =>
    !(target.host.isEmpty || maxForwardHost < target.host.byteLen || hasControl target.host || target.port = 0)

def Command.isInput : Command → Bool
  | .input _ => true
  | _ => false

def Command.typed : Command → List UInt8
  | .input bytes => bytes
  | _ => []

inductive Carriage where
  | stream
  | datagram
  deriving DecidableEq

def minDatagramFrame : ℕ := 1200 - 40

def inputOverhead : ℕ := 4 + 1 + 8 + 4

def Carriage.inputChunk : Carriage → ℕ
  | .stream => maxInputChunk
  | .datagram => minDatagramFrame - inputOverhead

/-- A transport: which link it is, how it carries frames, and whether it takes the next ones;
it takes every frame past the end of the list. -/
structure Sink where
  link : ℕ
  carriage : Carriage
  answers : List Bool

def Sink.send (sink : Sink) : Sink × Bool := ({ sink with answers := sink.answers.tail }, sink.answers.headD true)

/-! ### The journal -/

def journalCapacity : ℕ := 1024

structure Journal where
  entries : List (ℕ × ClientMessage)

namespace Journal

def new : Journal := ⟨[]⟩

variable (j : Journal)

def isFull : Bool := j.entries.length = journalCapacity

def push (seq : ℕ) (message : ClientMessage) : Option Journal :=
  if j.isFull then none else some ⟨j.entries ++ [(seq, message)]⟩

def acknowledge (highest : ℕ) : Journal := ⟨j.entries.dropWhile fun entry => entry.1 ≤ highest⟩

def all : List ClientMessage := j.entries.map Prod.snd

def oldest (most : ℕ) : List (ℕ × ClientMessage) := j.entries.take most

end Journal

/-! ### Resending -/

/-- Times are in nanoseconds. -/
def initialResend : ℕ := 250000000
def minResend : ℕ := 50000000
def maxResend : ℕ := 2000000000
def resendBatch : ℕ := 4

structure Resend where
  srtt : Option ℕ
  sample : Option (ℕ × ℕ)
  waiting : Option ℕ
  attempts : ℕ
  acked : Option ℕ
  retried : Bool

inductive Progress where
  | advanced
  | stalled
  | repeated
  deriving DecidableEq

namespace Resend

def new : Resend := ⟨none, none, none, 0, none, false⟩

variable (r : Resend)

/-- Two round trips, doubling for every resend nothing answered. -/
def interval : ℕ :=
  max minResend (min maxResend ((r.srtt.map (· * 2)).getD initialResend * 2 ^ min r.attempts 5))

def transmitted (timed : Option ℕ) (now : ℕ) : Resend :=
  { r with
    waiting := some (r.waiting.getD now)
    sample := r.sample <|> timed.map fun seq => (seq, now) }

def observe (sample : ℕ) : Resend :=
  { r with srtt := some (match r.srtt with
    | none => sample
    | some srtt => (srtt * 7 + sample) / 8) }

def acknowledged (highest now : ℕ) : Resend × Progress :=
  let r := match r.sample with
    | some (seq, sent) => if seq ≤ highest then { r.observe (now - sent) with sample := none } else r
    | none => r
  if r.acked.all (· < highest) then
    ({ r with acked := some highest, attempts := 0, waiting := none, retried := false }, .advanced)
  else ({ r with retried := true }, if r.retried then .repeated else .stalled)

/-- Whether the front is owed another copy, starting the next wait when so. -/
def due (now : ℕ) : Resend × Bool :=
  let waiting := r.waiting.getD now
  let r := { r with waiting := some waiting }
  if now - waiting < r.interval then (r, false)
  else ({ r with attempts := min (r.attempts + 1) (2 ^ 32 - 1), waiting := some now }, true)

def resent (highest : ℕ) : Resend :=
  if r.sample.any fun sample => sample.1 ≤ highest then { r with sample := none } else r

def remaining (now : ℕ) : ℕ := r.interval - (r.waiting.map (now - ·)).getD 0

end Resend

/-! ### What goes out -/

structure Deferred where
  resize : Option Screen.GridSize
  repaint : Bool

structure Outbound where
  output : Option Sink
  next : ℕ
  journal : Journal
  pending : List UInt8
  deferred : Deferred
  resend : Resend
  numbered : List ClientMessage
  wire : List (ℕ × ClientMessage)

namespace Outbound

variable (o : Outbound)

/-- Hand a frame to the sink; one that does not take it is dropped. -/
def transmit (sink : Sink) (message : ClientMessage) : Outbound × Bool :=
  match sink.send with
  | (_, false) => ({ o with output := none }, false)
  | (sink', true) => ({ o with output := some sink', wire := o.wire ++ [(sink.link, message)] }, true)

/-- Send a message that is kept; only input is worth timing. -/
def dispatch (now : ℕ) (message : ClientMessage) : Outbound :=
  match o.output with
  | none => o
  | some sink =>
    let (o, queued) := o.transmit sink message
    if queued && sink.carriage = .datagram then
      { o with resend := o.resend.transmitted (if message.command.isInput then some message.seq else none) now }
    else o

/-- Number a command, keep it and send it; none if it was never numbered. -/
def queue (now : ℕ) (command : Command) : Outbound × Option ℕ :=
  let message : ClientMessage := ⟨o.next, command⟩
  if !command.encodes then (o, none)
  else match o.journal.push o.next message with
    | none => (o, none)
    | some journal =>
      ({ o with journal, next := nextSeq o.next, numbered := o.numbered ++ [message] }.dispatch now message, some o.next)

/-- None if the journal is full. -/
def send (now : ℕ) (command : Command) : Option (Outbound × Option ℕ) :=
  if o.journal.isFull then none else some (o.queue now command)

def resendLoop : List (ℕ × ClientMessage) → Outbound → Option ℕ → Outbound × Option ℕ
  | [], o, highest => (o, highest)
  | (seq, message) :: entries, o, highest =>
    if !message.command.encodes then resendLoop entries o highest
    else match o.output with
      | none => (o, highest)
      | some sink => match o.transmit sink message with
        | (o, false) => (o, highest)
        | (o, true) => resendLoop entries o (some seq)

def resendFront : Outbound :=
  match resendLoop (o.journal.oldest resendBatch) o none with
  | (o, none) => o
  | (o, some highest) => { o with resend := o.resend.resent highest }

/-- Number the waiting input chunk by chunk until the journal is full. A pass takes a byte at
least, so there are no more passes than bytes. -/
def drainInput (chunk now : ℕ) : ℕ → Outbound → List UInt8 → Option ℕ → Outbound × List UInt8 × Option ℕ
  | 0, o, rest, last => (o, rest, last)
  | passes + 1, o, rest, last =>
    if rest = [] then (o, rest, last)
    else match o.send now (.input (rest.take chunk)) with
      | none => (o, rest, last)
      | some (o, seq) => drainInput chunk now passes o (rest.drop chunk) (seq <|> last)

def drainResize (now : ℕ) : Outbound :=
  match o.deferred.resize with
  | none => o
  | some size => match o.send now (.resize size) with
    | none => o
    | some (o, _) => { o with deferred := { o.deferred with resize := none } }

def drainRepaint (now : ℕ) : Outbound :=
  if o.deferred.repaint then
    match o.send now .requestRepaint with
    | none => o
    | some (o, _) => { o with deferred := { o.deferred with repaint := false } }
  else o

/-- Control first, then the input that waits; the number the last of it took. -/
def drain (now : ℕ) : Outbound × Option ℕ :=
  match o.output with
  | none => (o, none)
  | some sink =>
    let o := (o.drainResize now).drainRepaint now
    let (o, rest, last) := drainInput sink.carriage.inputChunk now o.pending.length o o.pending none
    ({ o with pending := rest }, last)

/-- Replay the journal onto a link, as far as the link takes it; false if a message has no encoding. -/
def replay : List ClientMessage → Outbound → Outbound × Bool
  | [], o => (o, true)
  | message :: messages, o =>
    if !message.command.encodes then (o, false)
    else match o.output with
      | none => replay messages o
      | some sink => match o.transmit sink message with
        | (o, false) => (o, true)
        | (o, true) => replay messages o

end Outbound

/-! ### The writer -/

def maxPendingInput : ℕ := 256 * 1024

inductive Accepted where
  | all (seq : Option ℕ)
  | partly (queued : ℕ) (seq : Option ℕ)
  deriving DecidableEq

inductive Resending where
  | idle
  | due (remaining : ℕ)
  | done
  deriving DecidableEq

/-- The flags beside the lock; `accepted` records the bytes `input` has taken. -/
structure ClientWriter where
  state : Outbound
  droppedInput : Bool
  repaintOutstanding : Bool
  linkEpoch : ℕ
  accepted : List UInt8

namespace ClientWriter

def new (output : Sink) (firstSeq : ℕ) : ClientWriter where
  state := ⟨some output, firstSeq, .new, [], ⟨none, false⟩, .new, [], []⟩
  droppedInput := false
  repaintOutstanding := false
  linkEpoch := 0
  accepted := []

def drain (w : ClientWriter) (now : ℕ) : ClientWriter × Option ℕ :=
  let (state, last) := w.state.drain now
  ({ w with state, droppedInput := if state.pending = [] then false else w.droppedInput }, last)

variable (w : ClientWriter)

def input (bytes : List UInt8) (now : ℕ) : ClientWriter × Accepted :=
  let queued := min (maxPendingInput - w.state.pending.length) bytes.length
  let w := { w with
    state := { w.state with pending := w.state.pending ++ bytes.take queued }
    accepted := w.accepted ++ bytes.take queued }
  let (w, last) := w.drain now
  let seq := if w.state.pending = [] then last else none
  if queued = bytes.length then (w, .all seq) else ({ w with droppedInput := true }, .partly queued seq)

def disconnect : ClientWriter :=
  { w with state := { w.state with output := none }, linkEpoch := w.linkEpoch + 1 }

/-- Install a replacement, replay what is unacknowledged, then release the input that waits. -/
def reconnect (output : Sink) (now : ℕ) : ClientWriter × Bool :=
  let state := { w.state with output := some output, resend := .new }
  match state.replay state.journal.all with
  | (state, false) => ({ w with state }, false)
  | (state, true) =>
    let w := ({ w with state }.drain now).1
    ({ w with linkEpoch := w.linkEpoch + 1 }, true)

def retransmit (now epoch : ℕ) : ClientWriter × Resending :=
  if w.linkEpoch ≠ epoch ∨ w.state.output.map Sink.carriage ≠ some .datagram then (w, .done)
  else if w.state.journal.entries = [] then
    ({ w with state := { w.state with resend := { w.state.resend with waiting := none } } }, .idle)
  else
    let (resend, due) := w.state.resend.due now
    let state := { w.state with resend }
    let state := if due then state.resendFront else state
    ({ w with state }, .due (state.resend.remaining now))

def requestRepaint (w : ClientWriter) (now : ℕ) : ClientWriter :=
  if w.repaintOutstanding then w
  else
    let w := { w with repaintOutstanding := true }
    match w.state.send now .requestRepaint with
    | none => { w with state := { w.state with deferred := { w.state.deferred with repaint := true } } }
    | some (state, _) => { w with state }

def repaintArrived : ClientWriter := { w with repaintOutstanding := false }

def resize (w : ClientWriter) (size : Screen.GridSize) (now : ℕ) : ClientWriter :=
  match w.state.send now (.resize size) with
  | none => { w with state := { w.state with deferred := { w.state.deferred with resize := some size } } }
  | some (state, _) => { w with state }

/-- Whether the forward was numbered. -/
def forwardOpen (w : ClientWriter) (stream : ℕ) (target : ForwardTarget) (now : ℕ) : ClientWriter × Bool :=
  match w.state.send now (.forwardOpen stream target) with
  | none => (w, false)
  | some (state, seq) => ({ w with state }, seq.isSome)

def acknowledge (w : ClientWriter) (highest now : ℕ) : ClientWriter :=
  let state := { w.state with journal := w.state.journal.acknowledge highest }
  let state := if state.output.map Sink.carriage = some .datagram then
      match state.resend.acknowledged highest now with
      | (resend, .stalled) => { state with resend }.resendFront
      | (resend, _) => { state with resend }
    else state
  ({ w with state }.drain now).1

end ClientWriter

end Braid.Commands
