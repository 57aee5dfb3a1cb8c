import Braid.Foundation.System
import Braid.Session.Forwards

/-! The session actor: one terminal, the clients attached to it, the command streams of clients that are
away and the forwards they all own. A turn is atomic and reads the clock once. What the shell, the emulator,
the socket threads and the daemon's budgets answer during a turn is an input, `World`; output arrives with
the queries already cut from it. The recent output is the ring's contents, and `forwarded` records all of
the output there has been. -/

namespace Braid.Session

open Foundation
open Commands (ClientStream ClientMessage)
open Daemon (RepaintFrame RowMask)
open Forwarding (SackRuns u64Max)
open Screen (GridSize)

def maxAttachments : ℕ := 8

def idleDeadline : ℕ := 30000000000

/-- How long a session without a terminal survives with nothing to carry and nobody attached. -/
def forwardSessionGrace : ℕ := 300000000000

def backlogBytes : ℕ := 8388608

inductive Turn where
  | continue
  | stop
  deriving DecidableEq

inductive ServerError where
  | emulator
  | setup
  deriving DecidableEq

inductive ReplayError where
  | evicted
  | filled (reached : ℕ)
  | sink
  deriving DecidableEq

/-- The answers of everything outside the session during one turn. -/
structure World where
  now : ℕ
  /-- The shell has exited. -/
  exited : Bool
  /-- The shell and the emulator both take a new grid. -/
  resized : Bool
  /-- They take the grid a refused one is replaced by. -/
  restored : Bool
  /-- The emulator's replies reach the shell, overrun it or fail. -/
  flushed : Option Bool
  /-- The shell has room for a command's input. -/
  inputTaken : Bool
  /-- What the emulator renders, and the rows it marks. -/
  frame : Option (RepaintFrame × RowMask)
  /-- How the screen of each attachment is cut, if it encodes. -/
  cut : ℕ → Option Cut
  /-- The daemon has room for another attachment, or for another forward. -/
  reserved : Bool
  /-- The forward's threads start. -/
  opened : Bool
  /-- Where rings wrap. -/
  wrap : ℕ

structure Terminal where
  lastOutput : Option ℕ
  backlog : List UInt8
  deferred : DeferredOsc
  forwarded : List UInt8

/-- The output position a resuming client confirmed. -/
structure ConfirmedOutput where
  generation : ℕ
  nextOff : ℕ

structure SessionActor where
  terminal : Option Terminal
  size : GridSize
  attachments : List Attachment
  /-- The command streams of the clients that are away, newest last. -/
  retired : List (ℕ × ClientStream)
  offset : ℕ
  generation : ℕ
  forwards : Forwards
  detachedSince : Option ℕ

/-- What a client sends: a command with a number, or a message outside the ordered stream. -/
inductive Request where
  | command (message : ClientMessage)
  | screenAck (generation version : ℕ)
  | close
  | detach (seq : ℕ)
  | pong (token consumed : ℕ)
  | consumed (off : ℕ)
  | forwardData (stream off : ℕ) (fin : Bool) (bytes : List UInt8)
  | forwardAck (stream off window : ℕ) (held : SackRuns)
  | forwardReset (stream : ℕ)

inductive ActorEvent where
  /-- A client attaches through a new sink, which may be closed by now. -/
  | attach (id client : ℕ) (closed : Bool) (resume : Option ConfirmedOutput) (framing : Framing)
  | command (id : ℕ) (request : Request)
  | detached (id : ℕ)
  /-- A run of output with its queries cut, unless the emulator failed on it. -/
  | ptyOutput (bytes : Option (List UInt8))
  | ptyEnded
  | kill
  | forwardConnected (key : ForwardKey) (failure : Option ForwardResetReason)
  | forwardBytes (key : ForwardKey) (bytes : List UInt8)
  | forwardEof (key : ForwardKey) (failed : Bool)

/-- Do `step` to the first attachment that `p` picks. -/
def serve {β : Type*} (p : Attachment → Bool) (step : Attachment → Attachment × β) :
    List Attachment → Option (List Attachment × β)
  | [] => none
  | a :: rest =>
    if p a then some ((step a).1 :: rest, (step a).2)
    else (serve p step rest).map fun (rest, result) => (a :: rest, result)

namespace SessionActor

variable (wire : Wire) (s : SessionActor)

/-- A session without a terminal is started for a client that may never attach. -/
def new (terminal : Bool) (size : GridSize) (now : ℕ) : SessionActor :=
  ⟨if terminal then some ⟨none, [], .new, []⟩ else none, size, [], [], 0, 1, .empty, if terminal then none else some now⟩

def mark : ℕ := s.terminal.elim 0 fun terminal => terminal.deferred.mark

def update (id : ℕ) (step : Attachment → Attachment) : SessionActor :=
  match serve (·.id == id) (fun a => (step a, ())) s.attachments with
  | none => s
  | some (attachments, _) => { s with attachments }

/-! ### Leaving and being remembered -/

/-- The clock a session without a terminal is ended on starts when nobody is attached any more. -/
def noteAttachments (now : ℕ) : SessionActor :=
  { s with detachedSince := if s.attachments.isEmpty then s.detachedSince.or (some now) else none }

/-- Keep a client's command stream. The client evicted for it loses its forwards. -/
def retire (client : ℕ) (stream : ClientStream) : SessionActor :=
  let kept := s.retired.filter (·.1 ≠ client) ++ [(client, stream)]
  if maxAttachments < kept.length then
    { s with retired := kept.tail, forwards := kept.head?.elim s.forwards fun gone => s.forwards.forget gone.1 }
  else { s with retired := kept }

/-- Give up on the first attachment that `p` picks. -/
def dropFirst (p : Attachment → Bool) (now : ℕ) : SessionActor :=
  match s.attachments.find? p with
  | none => s
  | some a => ({ s with attachments := s.attachments.eraseP p }.retire a.client a.stream).noteAttachments now

def dropAll (gone : List ℕ) (now : ℕ) : SessionActor :=
  gone.foldl (fun s id => s.dropFirst (·.id == id) now) s

/-- Drop every attachment, from the last to the first. -/
def dismiss (now : ℕ) : SessionActor := s.dropAll (s.attachments.reverse.map Attachment.id) now

/-- Do `step` to every attachment and drop those it gives up. -/
def sweep (step : Attachment → Attachment × Bool) (now : ℕ) : SessionActor :=
  let swept := s.attachments.map step
  let gone := (swept.filter Prod.snd).map fun entry => entry.1.id
  { s with attachments := swept.map Prod.fst }.dropAll gone now

def takeStream (client : ℕ) : SessionActor × ClientStream :=
  match s.retired.find? (·.1 = client) with
  | none => (s, .new)
  | some (_, stream) => ({ s with retired := s.retired.eraseP (·.1 = client) }, stream)

def nextGeneration : SessionActor := { s with generation := min (s.generation + 1) u64Max }

/-! ### The grid -/

/-- The largest grid every attached terminal can show. -/
def requestedGrid : Option GridSize :=
  match s.attachments with
  | [] => none
  | a :: rest => some (rest.foldl (fun grid a => ⟨min grid.cols a.size.cols, min grid.rows a.size.rows⟩) a.size)

/-- Fit the terminal to the smallest attached one, and say whether it took. -/
def regrid (resized : Bool) : SessionActor × Bool :=
  match s.requestedGrid with
  | none => (s, true)
  | some size =>
    if size = s.size ∨ s.terminal.isNone then (s, true)
    else if resized = false then (s, false)
    else
      let s := { s with size }.nextGeneration
      ({ s with attachments := s.attachments.map fun a => (a.regrid s.generation size.rows).beginSync s.mark }, true)

/-! ### Screens -/

/-- Render the screen once, and send it to every attachment that `painted` picks. -/
def repaint (painted : Painted) (w : World) : SessionActor × Except ServerError Unit :=
  if s.attachments.all fun a => !a.wants painted w.now then (s, .ok ())
  else match s.terminal with
    | none => (s, .ok ())
    | some terminal =>
      match w.frame with
      | none => (s, .error .emulator)
      | some (frame, dirty) =>
        (s.sweep (fun a => a.repaint painted frame dirty s.offset s.size terminal.lastOutput terminal.deferred (w.cut a.id)
          w.now) w.now, .ok ())

/-! ### Output -/

def replayFrom (backlog : List UInt8) (start : ℕ) : Option (List UInt8) :=
  if s.offset - backlog.length ≤ start ∧ start ≤ s.offset then
    some (backlog.drop (start - (s.offset - backlog.length)))
  else none

/-- Scan the output while some client is sent whole screens, and forget what every client already holds. -/
def scan (bytes : List UInt8) (attachments : List Attachment) : SessionActor :=
  { s with
    terminal := s.terminal.map fun terminal =>
      let deferred := if attachments.any (·.isSyncing) then terminal.deferred.feed bytes else terminal.deferred
      let carried := (attachments.map (·.deferredFrom)).min?.getD deferred.mark
      { terminal with deferred := deferred.forgetBefore carried } }

/-- Record the output and hand it to every attached client. -/
def forward (bytes : List UInt8) (lastOutput : Option ℕ) (w : World) : SessionActor × Except ServerError Unit :=
  match s.terminal with
  | none => (s, .ok ())
  | some terminal =>
    let pushed := terminal.backlog ++ bytes
    let terminal := { terminal with
      backlog := pushed.drop (pushed.length - backlogBytes)
      forwarded := terminal.forwarded ++ bytes }
    let start := s.offset
    let s := { s with terminal := some terminal }
    if u64Max < start + bytes.length then (s, .error .setup)
    else
      let s := { s with offset := start + bytes.length }
      match w.flushed with
      | none => (s, .error .setup)
      | some false => (s.dismiss w.now, .ok ())
      | some true =>
        if s.attachments.isEmpty then (s, .ok ())
        else
          let step (a : Attachment) : Attachment × Bool := a.forward wire start bytes s.size lastOutput s.mark w.now
          ((s.scan bytes (s.attachments.map fun a => (step a).1)).sweep step w.now).repaint .due w

def output (bytes : Option (List UInt8)) (w : World) : SessionActor × Except ServerError Unit :=
  match s.terminal with
  | none => (s, .ok ())
  | some terminal =>
    let s := { s with terminal := some { terminal with lastOutput := some w.now } }
    match bytes with
    | none => (s, .error .emulator)
    | some bytes => s.forward wire bytes terminal.lastOutput w

/-! ### Attaching -/

/-- Queue the chunks of history one after another. -/
def replayChunks (a : Attachment) (offset : ℕ) : List (List UInt8) → Attachment × Except ReplayError Unit
  | [] => (a, .ok ())
  | chunk :: rest =>
    match wire (.output offset chunk) with
    | none => (a, .error .sink)
    | some len =>
      match a.sink.sendOutput ⟨.output offset chunk, len⟩ with
      | .ok sink => replayChunks { a with sink } (offset + chunk.length) rest
      | .error .full => (a, .error (.filled offset))
      | .error .unusable => (a, .error .sink)

variable (a : Attachment)

/-- Push the output kept since `start` to a resuming client. -/
def replay (start : ℕ) (wrap : ℕ) : Attachment × Except ReplayError Unit :=
  match s.terminal with
  | none => (a, .ok ())
  | some terminal =>
    match s.replayFrom terminal.backlog start with
    | none => (a, .error .evicted)
    | some kept =>
      let budget := a.framing.outputChunk
      replayChunks wire a start (chunks budget (kept.take wrap) ++ chunks budget (kept.drop wrap))

/-- Tell a client how much of the stream it will never be handed. -/
def reportSkipped (bytes : ℕ) : Attachment :=
  if bytes = 0 then a else a.offer wire (.outputSkipped bytes)

/-- Bring a resuming client to where the session is, by the bytes it missed or by a screen. -/
def resume (confirmed : ConfirmedOutput) (w : World) : Attachment × Bool :=
  let behind := s.offset - confirmed.nextOff
  if confirmed.generation ≠ a.generation then ((reportSkipped wire a behind).beginSync s.mark, true)
  else if streamLimit < behind then
    ((reportSkipped wire { a with sink := a.sink.discardStream } behind).beginSync s.mark, true)
  else match s.replay wire a confirmed.nextOff w.wrap with
    | (a, .ok _) => (a.resumed, true)
    | (a, .error .evicted) => ((reportSkipped wire a behind).beginSync s.mark, true)
    | (a, .error (.filled reached)) => ((reportSkipped wire a (s.offset - reached)).beginSync s.mark, true)
    | (a, .error .sink) => (a, false)

/-- Greet a new attachment. `false` means that it is dropped again. -/
def greet (confirmed : Option ConfirmedOutput) (w : World) : Attachment × Bool :=
  match a.send wire (if s.terminal.isSome then .hello else .helloForward) with
  | .error _ => (a, false)
  | .ok a =>
    match confirmed with
    | none => (a, true)
    | some confirmed =>
      match a.send wire (.commandAck a.stream.highestCommand) with
      | .error _ => (a, false)
      -- A repaint armed with no emulator could never be painted.
      | .ok a => if s.terminal.isNone then (a, true) else s.resume wire a confirmed w

/-- Nothing a client that attaches holds could be the base of a delta. -/
def newcomer (id client : ℕ) (stream : ClientStream) (sink : Sink Message) (framing : Framing) (now : ℕ) : Attachment :=
  let a := Attachment.new id client stream sink framing s.size s.generation now
  { a with ledger := a.ledger.invalidate s.size.rows }

/-- Install an attachment; the same client on an older transport is replaced. -/
def attach (id client : ℕ) (sink : Sink Message) (confirmed : Option ConfirmedOutput) (framing : Framing) (w : World) :
    SessionActor :=
  if (s.attachments.all fun a => a.client != client) && decide (maxAttachments ≤ s.attachments.length) then s
  else
    let s := s.dropFirst (·.client == client) w.now
    if w.reserved = false then s
    else
      let (s, stream) := s.takeStream client
      let (a, stays) := s.greet wire (s.newcomer id client stream sink framing w.now) confirmed w
      let s := { s with attachments := s.attachments ++ [a] }.noteAttachments w.now
      if stays then s else s.dropFirst (·.id == id) w.now

/-! ### Commands -/

def reject (id now : ℕ) : SessionActor := s.dropFirst (·.id == id) now

def ack (id seq : ℕ) : SessionActor :=
  s.update id fun a =>
    let (stream, highest) := a.stream.acknowledged seq
    { a with stream }.offer wire (.commandAck highest)

/-- An out-of-order command costs a stream its attachment. -/
def gap (now : ℕ) : SessionActor :=
  match a.framing with
  | .stream => s.reject a.id now
  | .datagram _ => s

/-- Admit a command and do `effect` if it is fresh. -/
def gated (seq now : ℕ) (effect : SessionActor → SessionActor) : SessionActor :=
  let (stream, admission) := a.stream.admit_ seq
  let s := s.update a.id fun a => { a with stream }
  match admission with
  | .fresh => effect s
  | .duplicate => s.ack wire a.id seq
  | .gap => s.gap a now

def input (seq : ℕ) (w : World) : SessionActor :=
  match a.stream.check seq with
  | .fresh =>
    if w.inputTaken then (s.update a.id fun a => { a with stream := a.stream.applied seq w.now }).ack wire a.id seq
    else s.reject a.id w.now
  | .duplicate => s.ack wire a.id seq
  | .gap => s.gap a w.now

/-- A new size is applied to the grid; a client whose size nothing could apply is dropped. -/
def resize (id : ℕ) (size : GridSize) (seq : ℕ) (w : World) : SessionActor :=
  match (s.update id fun a => { a with size }).regrid w.resized with
  | (s, true) => s.ack wire id seq
  | (s, false) => ((s.reject id w.now).regrid w.restored).1

/-- A client that asks for a screen has its screens numbered from one again. -/
def requestRepaint (id seq : ℕ) (w : World) : SessionActor :=
  let s := s.nextGeneration
  match (s.update id fun a => (a.restart s.generation s.size.rows).beginSync s.mark).repaint (.one id) w with
  | (s, .ok _) => s.ack wire id seq
  | (s, .error _) => s.reject id w.now

/-! ### Forwards -/

/-- Offer a message to the client's attachment, if it has one. -/
def offerForward (client : ℕ) (message : Message) : SessionActor :=
  match serve (·.client == client) (fun a => ((a.sendForward wire message).toOption.getD a, ())) s.attachments with
  | none => s
  | some (attachments, _) => { s with attachments }

variable (key : ForwardKey)

def retireForward (reason : ForwardResetReason) : SessionActor :=
  let s := s.offerForward wire key.1 (.forwardReset key.2 reason)
  { s with forwards := s.forwards.retire key }

def startForward (w : World) : SessionActor :=
  if key ∈ s.forwards.closed ∨ (s.forwards.get? key).isSome then s.retireForward wire key .internal
  else if maxForwards ≤ s.forwards.heldBy key.1 then s.retireForward wire key .limit
  else if w.reserved = false then s.retireForward wire key .limit
  else if w.opened = false then s.retireForward wire key .internal
  else { s with forwards := s.forwards.insert key .new }

/-- Change a live forward, or answer for one that is not. -/
def withForward (step : LiveForward → Option LiveForward) : SessionActor :=
  match s.forwards.get? key with
  | none =>
    if key ∈ s.forwards.closed then s.offerForward wire key.1 (.forwardReset key.2 .closed) else s
  | some f =>
    match step f with
    | some f => { s with forwards := s.forwards.modify key fun _ => f }
    | none => s.retireForward wire key .internal

def onData (off : ℕ) (fin : Bool) (bytes : List UInt8) (f : LiveForward) : Option LiveForward :=
  (f.forward.stream.onData off fin bytes).toOption.map fun stream => { f with forward := { f.forward with stream } }

def onAck (off window : ℕ) (held : SackRuns) (now : ℕ) (f : LiveForward) : Option LiveForward :=
  match f.forward.stream.onAck off window held now with
  | (stream, .ok _) => some { f with forward := { f.forward with stream } }
  | (_, .error _) => none

def forwardConnected (failure : Option ForwardResetReason) : SessionActor :=
  match failure with
  | some reason => s.retireForward wire key reason
  | none =>
    { s with forwards := s.forwards.modify key fun f => { f with forward := { f.forward with connected := true }.grantCredit } }

def forwardRead (bytes : List UInt8) (now : ℕ) : SessionActor :=
  { s with forwards := s.forwards.modify key fun f => { f with forward := f.forward.absorb bytes now } }

def forwardEof (failed : Bool) (now : ℕ) : SessionActor :=
  if failed then s.retireForward wire key .internal
  else { s with forwards := s.forwards.modify key fun f => { f with forward := f.forward.finish now } }

/-- Pump the forwards one after another. One whose client is not attached is skipped whole and kept. -/
def pumpAll (now wrap : ℕ) : List Attachment → List (ForwardKey × LiveForward) →
    List Attachment × List ((ForwardKey × LiveForward) × Pumped)
  | attachments, [] => (attachments, [])
  | attachments, (key, f) :: rest =>
    match serve (·.client == key.1) (f.pump wire key.2 now wrap) attachments with
    | none =>
      let (attachments, pumped) := pumpAll now wrap attachments rest
      (attachments, ((key, f), .kept) :: pumped)
    | some (attachments, f, outcome) =>
      let (attachments, pumped) := pumpAll now wrap attachments rest
      (attachments, ((key, f), outcome) :: pumped)

/-- Retire a forward the pump found failed or done. -/
def finishForward (outcome : Pumped) : SessionActor :=
  match outcome with
  | .kept => s
  | .failed => s.retireForward wire key .internal
  | .done => { s with forwards := s.forwards.retire key }

def pumpForwards (now wrap : ℕ) : SessionActor :=
  let (attachments, pumped) := pumpAll wire now wrap s.attachments s.forwards.live
  let s := { s with attachments, forwards := { s.forwards with live := pumped.map Prod.fst } }
  pumped.foldl (fun s entry => s.finishForward wire entry.1.1 entry.2) s

/-! ### Turns -/

/-- How long the actor may sleep. -/
def deadline (now : ℕ) : ℕ :=
  let attachments := (s.attachments.map (·.deadline now)).min?.getD idleDeadline
  match s.forwards.deadline now with
  | some owed => min attachments owed
  | none => attachments

/-- Everything that falls due on a clock rather than on an event. -/
def tick (w : World) : SessionActor × Except ServerError Turn :=
  if s.terminal.isSome ∧ w.exited = true then (s.dismiss w.now, .ok .stop)
  else if s.terminal.isNone ∧ s.forwards.live.isEmpty = true ∧
      (s.detachedSince.any fun since => forwardSessionGrace ≤ w.now - since) = true then
    (s.dismiss w.now, .ok .stop)
  else
    let s := (s.sweep (·.probe wire w.now) w.now).pumpForwards wire w.now w.wrap
    match s.repaint .due w with
    | (s, .ok _) => (s, .ok .continue)
    | (s, .error error) => (s, .error error)

def command (id : ℕ) (request : Request) (w : World) : SessionActor × Turn :=
  match s.attachments.find? (·.id == id) with
  | none => (s, .continue)
  | some a =>
    let s := match request with
      | .pong _ _ => s
      | _ => s.update id fun a => { a with link := a.link.stirred }
    match request with
    | .command message =>
      (match message.command with
        | .input _ =>
          if s.terminal.isSome then s.input wire a message.seq w
          else s.gated wire a message.seq w.now (·.ack wire id message.seq)
        | .resize size => s.gated wire a message.seq w.now (·.resize wire id size message.seq w)
        | .requestRepaint =>
          if s.terminal.isSome then s.gated wire a message.seq w.now (·.requestRepaint wire id message.seq w)
          else s.gated wire a message.seq w.now (·.ack wire id message.seq)
        | .forwardOpen stream _ =>
          s.gated wire a message.seq w.now fun s => (s.startForward wire (a.client, stream) w).ack wire id message.seq,
        .continue)
    | .screenAck generation version => (s.update id (·.confirm generation version), .continue)
    | .close => (s.dismiss w.now, .stop)
    | .detach seq =>
      ((s.update id (·.detaching seq)).dropFirst (·.id == id) w.now, .continue)
    | .pong token consumed =>
      (s.update id fun a => { a with link := a.link.answered token w.now }.consume consumed, .continue)
    | .consumed off => (s.update id (·.consume off), .continue)
    | .forwardData stream off fin bytes => (s.withForward wire (a.client, stream) (onData off fin bytes), .continue)
    | .forwardAck stream off window held => (s.withForward wire (a.client, stream) (onAck off window held w.now), .continue)
    | .forwardReset stream => ({ s with forwards := s.forwards.retire (a.client, stream) }, .continue)

def handle (event : ActorEvent) (w : World) : SessionActor × Turn :=
  match event with
  | .attach id client closed confirmed framing =>
    (s.attach wire id client (if closed then Sink.new.close else .new) confirmed framing w, .continue)
  | .command id request => s.command wire id request w
  | .detached id => (s.dropFirst (·.id == id) w.now, .continue)
  | .ptyOutput bytes =>
    match s.output wire bytes w with
    | (s, .ok _) => (s, .continue)
    | (s, .error _) => (s.dismiss w.now, .stop)
  | .ptyEnded => if s.terminal.isSome then (s.dismiss w.now, .stop) else (s, .continue)
  | .kill => (s.dismiss w.now, .stop)
  | .forwardConnected key failure => (s.forwardConnected wire key failure, .continue)
  | .forwardBytes key bytes => (s.forwardRead key bytes w.now, .continue)
  | .forwardEof key failed => (s.forwardEof wire key failed w.now, .continue)

/-! ### The session and its threads -/

end SessionActor

/-- One turn of the actor, or one step of a thread it shares state with. -/
inductive Step where
  | regrid (w : World)
  | tick (w : World)
  | event (event : ActorEvent) (w : World)
  | writer (id : ℕ) (step : WriterStep)
  | socket (key : ForwardKey) (step : WorkerStep)
  | socketFailed (key : ForwardKey)
  | path (id : ℕ) (framing : Framing)
  | rehash (live : List (ForwardKey × LiveForward))

namespace SessionActor

variable (wire : Wire) (s : SessionActor)

/-- Whether the step is one that can be taken: an attachment has a number of its own. -/
def admits : Step → Bool
  | .event (.attach id _ _ _ _) _ => s.attachments.all fun a => a.id != id
  | _ => true

def write (id : ℕ) (step : WriterStep) : Option SessionActor :=
  let stepped (a : Attachment) : Attachment × Bool := match a.sink.write step with
    | some sink => ({ a with sink }, true)
    | none => (a, false)
  match serve (·.id == id) stepped s.attachments with
  | some (attachments, true) => some { s with attachments }
  | _ => none

def work (key : ForwardKey) (step : WorkerStep) : Option SessionActor :=
  (s.forwards.get? key).bind fun f => (f.write.work step).map fun write =>
    { s with forwards := s.forwards.modify key fun f => { f with write } }

/-- The path of a datagram attachment changes width. -/
def repath (framing : Framing) (a : Attachment) : Attachment :=
  { a with
    framing := match a.framing, framing with
      | .datagram _, .datagram budget => .datagram budget
      | framing, _ => framing }

/-- A turn that ends the session is its last. The table of forwards is read in any order. -/
def next (step : Step) : Option SessionActor :=
  if s.admits step then
    match step with
    | .regrid w => some (s.regrid w.resized).1
    | .tick w =>
      match s.tick wire w with
      | (s, .ok .continue) => some s
      | _ => none
    | .event event w =>
      match s.handle wire event w with
      | (s, .continue) => some (s.pumpForwards wire w.now w.wrap)
      | (_, .stop) => none
    | .writer id step => s.write id step
    | .socket key step => s.work key step
    | .socketFailed key =>
      some { s with forwards := s.forwards.modify key fun f => { f with write := { f.write with failed := true } } }
    | .path id framing => some (s.update id (repath framing))
    | .rehash live => if live.Perm s.forwards.live then some { s with forwards := { s.forwards with live } } else none
  else none

def system : System SessionActor Step where
  init s := ∃ terminal size now, s = new terminal size now
  next := next wire

/-! ### Runs to look at -/

/-- A world in which every turn goes well and nothing is painted. -/
def calmWorld (now : ℕ) : World := ⟨now, false, true, true, some true, true, none, fun _ => none, true, true, 0⟩

/-- A world in which every turn goes well and an empty grid is painted, each screen in one piece. -/
def noRows : RepaintFrame := ⟨[], by decide⟩

def paintWorld (now : ℕ) : World :=
  { calmWorld now with frame := some (noRows, .empty), cut := fun _ => some ⟨32, []⟩ }

def evenWire : Wire := fun _ => some 32

end SessionActor

end Braid.Session
