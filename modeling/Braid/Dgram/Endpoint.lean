import Braid.Dgram.Keys
import Braid.Dgram.Window

/-! One end of a datagram connection. Every input is an argument and every output a
return value; a datagram that is emitted is returned as its bytes, and a call in which
an assertion fails returns nothing at all. What the endpoint knows of its path, that is
path validation, congestion control, loss detection and the search for the path's width,
only ever permits or refuses, and is a parameter: nothing here depends on its answers. -/

namespace Braid.Dgram

/-- What an echoed challenge did to the path. -/
inductive Answered (Addr : Type*) where
  | validated
  | migrated (dest : Addr)

/-- What the endpoint asks of its path, its congestion window, its loss detector and its
width search, and what it tells them. -/
structure Transport (τ Addr : Type*) where
  current : τ → Addr
  maySend : τ → Addr → ℕ → Bool
  spent : τ → Addr → ℕ → τ
  arrived : τ → Addr → ℕ → ℕ → τ
  answered : τ → Addr → List UInt8 → τ × Option (Answered Addr)
  pollChallenge : τ → ℕ → τ × Option (Addr × List UInt8)
  /-- The flight has room for a packet that is tracked. -/
  admits : τ → Bool
  writable : τ → ℕ → ℕ → Bool
  /-- A tracked packet of this number and size was sealed. -/
  sealed : τ → ℕ → ℕ → ℕ → τ
  expire : τ → ℕ → τ
  /-- An acknowledgement, checked against the numbers used so far. -/
  acknowledged : τ → Ack → ℕ → ℕ → τ
  migrated : τ → τ
  datagram : τ → ℕ
  confirming : τ → Bool
  pollProbe : τ → ℕ → τ × Option ℕ
  probing : τ → ℕ → τ
  refused : τ → ℕ → ℕ → τ

inductive SendError where
  | tooLarge (actual limit : ℕ)
  | exhausted
  | closed
  | blocked
  deriving DecidableEq

inductive RecvError where
  | malformed (error : MalformedPacket)
  | wrongConnection
  | unknownEpoch
  | auth
  | replayed (number : ℕ)
  deriving DecidableEq

inductive Received (Addr : Type*) where
  | frame (bytes : List UInt8)
  | nothing
  | migrated (dest : Addr)
  | closed

inductive AckDebt where
  | settled
  | owed (at_ since eliciting : ℕ)

/-- So traffic that must be answered cannot exhaust the nonce space. -/
def rekeyAfter : ℕ := 2 ^ 40

def u64Max : ℕ := 2 ^ 64 - 1

def maxAckDelay : ℕ := 25000000

def ackEvery : ℕ := 2

def keepaliveAfter : ℕ := 1000000000

structure Endpoint (Secret Key τ Addr : Type*) where
  cid : ConnectionId
  keys : KeySchedule Secret Key
  next : ℕ
  window : ReplayWindow
  transport : τ
  answer : Option (Addr × List UInt8)
  closed : Bool
  role : Direction
  sealedSincePoll : Bool
  quietSince : Option ℕ
  debt : AckDebt
  rekeyEvery : ℕ
  rekeyAt : ℕ

namespace Endpoint

variable {Secret Key τ Addr : Type*} (c : Cipher Secret Key) (t : Transport τ Addr)

def new (cid : ConnectionId) (root : Secret) (transport : τ) (sending : Direction) : Endpoint Secret Key τ Addr where
  cid
  keys := .new c root sending
  next := 0
  window := .new
  transport
  answer := none
  closed := false
  role := sending
  sealedSincePoll := false
  quietSince := none
  debt := .settled
  rekeyEvery := rekeyAfter
  rekeyAt := rekeyAfter

variable (e : Endpoint Secret Key τ Addr)

def rekeyEveryPackets (packets : ℕ) : Endpoint Secret Key τ Addr :=
  let every := if packets = 0 then 1 else packets
  { e with rekeyEvery := every, rekeyAt := min (e.next + every) u64Max }

def payloadLimit : ℕ := t.datagram e.transport - headerBytes - tagBytes

def admits (e : Endpoint Secret Key τ Addr) (dest : Addr) (bytes : ℕ) : Bool :=
  t.admits e.transport && t.maySend e.transport dest bytes

def writable (e : Endpoint Secret Key τ Addr) (now frameLen : ℕ) : Bool :=
  let bytes := frameLen + headerBytes + tagBytes
  !e.closed && e.admits t (t.current e.transport) bytes && t.writable e.transport now bytes

/-- The key is rotated once its packets are spent; none if there is no further epoch. -/
def rekey : Option (Endpoint Secret Key τ Addr) :=
  if e.rekeyAt ≤ e.next then
    (e.keys.rotate c).map fun keys => { e with keys, rekeyAt := min (e.next + e.rekeyEvery) u64Max }
  else some e

/-- Seal a datagram. It is sealed before its size is known, and one past the budget is
taken back without using its number up. -/
def seal_ (kind : Kind) (body : List UInt8) (dest : Addr) (now : ℕ) :
    Option (Endpoint Secret Key τ Addr × Except SendError (List UInt8)) :=
  if e.closed then some (e, .error .closed)
  else if kind.tracked && !t.admits e.transport then some (e, .error .blocked)
  else match e.rekey c with
    | none => some (e, .error .exhausted)
    | some e =>
      (Header.encode ⟨kind, e.cid, e.keys.send.epoch, e.next⟩).map fun head =>
        let (payload, tag) := c.encrypt e.keys.sendKey head e.next body
        let datagram := head ++ payload ++ tag
        if !t.maySend e.transport dest datagram.length then (e, .error .blocked)
        else
          let transport := t.spent e.transport dest datagram.length
          ({ e with
            next := e.next + 1
            sealedSincePoll := true
            transport := if kind.tracked then t.sealed transport e.next datagram.length now else transport },
            .ok datagram)

def send (frame : List UInt8) (now : ℕ) :
    Option (Endpoint Secret Key τ Addr × Except SendError (Addr × List UInt8)) :=
  if e.payloadLimit t < frame.length then some (e, .error (.tooLarge frame.length (e.payloadLimit t)))
  else if !e.writable t now frame.length then some (e, .error (if e.closed then .closed else .blocked))
  else
    let dest := t.current e.transport
    (e.seal_ c t .frame frame dest now).map fun (e, result) => (e, result.map fun datagram => (dest, datagram))

def close (e : Endpoint Secret Key τ Addr) (now : ℕ) :
    Option (Endpoint Secret Key τ Addr × Except SendError (Addr × List UInt8)) :=
  let dest := t.current e.transport
  (e.seal_ c t .close [] dest now).map fun (e, result) =>
    ({ e with closed := true }, result.map fun datagram => (dest, datagram))

def rotate (e : Endpoint Secret Key τ Addr) : Endpoint Secret Key τ Addr × Except SendError Epoch :=
  match e.keys.rotate c with
  | none => (e, .error .exhausted)
  | some keys => ({ e with keys }, .ok keys.send.epoch)

def pathRefused (carries now : ℕ) : Endpoint Secret Key τ Addr :=
  { e with transport := t.refused e.transport carries now }

/-! ### Polling -/

def attempt (kind : Kind) (body : List UInt8) (dest : Addr) (now : ℕ) :
    Option (Endpoint Secret Key τ Addr × Option (Addr × List UInt8)) :=
  (e.seal_ c t kind body dest now).map fun (e, result) => (e, result.toOption.map fun datagram => (dest, datagram))

def sendAnswer (now : ℕ) :
    Option (Endpoint Secret Key τ Addr × Option (Addr × List UInt8)) :=
  match e.answer with
  | none => some (e, none)
  | some (dest, token) => { e with answer := none }.attempt c t .response token dest now

def acknowledge (now : ℕ) :
    Option (Endpoint Secret Key τ Addr × Option (Addr × List UInt8)) :=
  match e.debt with
  | .settled => some (e, none)
  | .owed at_ since _ =>
    if now < at_ then some (e, none)
    else match e.window.acknowledgement with
      | none => some (e, none)
      | some (largest, map) => (Ack.encode ⟨largest, now - since, map⟩).bind fun body =>
          (e.attempt c t .ack body (t.current e.transport) now).map fun (e, sent) =>
            (if sent.isSome then { e with debt := .settled } else e, sent)

def probePathMtu (now : ℕ) :
    Option (Endpoint Secret Key τ Addr × Option (Addr × List UInt8)) :=
  let confirming := t.confirming e.transport
  let polled := t.pollProbe e.transport now
  let e := { e with transport := polled.1 }
  match polled.2 with
  | none => some (e, none)
  | some candidate =>
    if !confirming && !t.writable e.transport now candidate then some (e, none)
    else
      let padding := List.replicate (candidate - headerBytes - tagBytes) 0
      (e.attempt c t .probe padding (t.current e.transport) now).map fun (e', sent) =>
        (if sent.isSome then { e' with transport := t.probing e'.transport e.next } else e', sent)

def keepalive (now : ℕ) :
    Option (Endpoint Secret Key τ Addr × Option (Addr × List UInt8)) :=
  if e.role ≠ .clientToServer ∨ e.closed then some (e, none)
  else if e.sealedSincePoll then some ({ e with sealedSincePoll := false, quietSince := some now }, none)
  else
    let since := e.quietSince.getD now
    let e := { e with quietSince := some since }
    if now - since < keepaliveAfter then some (e, none)
    else (e.attempt c t .alive [] (t.current e.transport) now).map fun (e, sent) =>
      (if sent.isSome then { e with quietSince := some now, sealedSincePoll := false } else e, sent)

/-- A challenge that is due, or else the width search and last the keep-alive. -/
def challengeOrRest (now : ℕ) :
    Option (Endpoint Secret Key τ Addr × Option (Addr × List UInt8)) :=
  let polled := t.pollChallenge e.transport now
  let e := { e with transport := polled.1 }
  match polled.2 with
  | some (dest, token) =>
    if !t.maySend e.transport dest (headerBytes + token.length + tagBytes) then some (e, none)
    else e.attempt c t .challenge token dest now
  | none => (e.probePathMtu c t now).bind fun
    | (e, some sent) => some (e, some sent)
    | (e, none) => e.keepalive c t now

/-- Answers first, then acknowledgements, a challenge, the width search and the keep-alive. -/
def pollTransmit (now : ℕ) :
    Option (Endpoint Secret Key τ Addr × Option (Addr × List UInt8)) :=
  let e := { e with transport := t.expire e.transport now }
  (e.sendAnswer c t now).bind fun
    | (e, some sent) => some (e, some sent)
    | (e, none) => (e.acknowledge c t now).bind fun
      | (e, some sent) => some (e, some sent)
      | (e, none) => e.challengeOrRest c t now

/-! ### Receiving -/

def oweAcknowledgement (now : ℕ) (kind : Kind) : Endpoint Secret Key τ Addr :=
  let eliciting := match e.debt with
    | .settled => 1
    | .owed _ _ eliciting => min (eliciting + 1) 255
  let at_ := if kind = .probe ∨ ackEvery ≤ eliciting then now
    else match e.debt with
      | .settled => now + maxAckDelay
      | .owed at_ _ _ => at_
  { e with debt := .owed at_ now eliciting }

/-- What a datagram that was opened and admitted does. -/
def dispatch (src : Addr) (now : ℕ) (kind : Kind) (body : List UInt8) :
    Endpoint Secret Key τ Addr × Received Addr :=
  match kind with
  | .frame => (e, .frame body)
  | .challenge => (if body.length = 8 then { e with answer := some (src, body) } else e, .nothing)
  | .response =>
    if body.length = 8 then
      let answered := t.answered e.transport src body
      let e := { e with transport := answered.1 }
      match answered.2 with
      | none | some .validated => (e, .nothing)
      | some (.migrated dest) =>
        let e := (e.rotate c).1
        ({ e with transport := t.migrated e.transport }, .migrated dest)
    else (e, .nothing)
  | .ack =>
    match Ack.decode body with
    | none => (e, .nothing)
    | some ack => ({ e with transport := t.acknowledged e.transport ack e.next now }, .nothing)
  | .alive | .probe => (e, .nothing)
  | .close => ({ e with closed := true }, .closed)

/-- An opened datagram against the replay window, and then what it does. -/
def admitted (src : Addr) (now size : ℕ) (header : Header) (body : List UInt8) :
    Endpoint Secret Key τ Addr × Except RecvError (Received Addr) :=
  let admission := e.window.admit_ header.number
  let e := { e with window := admission.1 }
  if admission.2 ≠ .fresh then (e, .error (.replayed header.number))
  else
    let e := { e with transport := t.arrived e.transport src size now }
    let e := if header.kind.ackEliciting then e.oweAcknowledgement now header.kind else e
    let (e, received) := e.dispatch c t src now header.kind body
    (e, .ok received)

/-- Authenticate, then admit against the replay window, then let it touch the path. -/
def recv (src : Addr) (now : ℕ) (datagram : List UInt8) :
    Endpoint Secret Key τ Addr × Except RecvError (Received Addr) :=
  match Header.decode datagram with
  | .error error => (e, .error (.malformed error))
  | .ok header =>
    if header.cid ≠ e.cid then (e, .error .wrongConnection)
    else
      let head := datagram.take headerBytes
      let payload := (datagram.take (datagram.length - tagBytes)).drop headerBytes
      let tag := datagram.drop (datagram.length - tagBytes)
      match e.keys.reach header.epoch with
      | .unreachable => (e, .error .unknownEpoch)
      | .ahead count =>
        let peeked := e.keys.peekAhead c count
        let e := { e with keys := peeked.1 }
        match peeked.2 with
        | none => (e, .error .unknownEpoch)
        | some key => match c.decrypt key head header.number payload tag with
          | none => (e, .error .auth)
          | some body => match e.keys.follow c count with
            | (keys, none) => ({ e with keys }, .error .unknownEpoch)
            | (keys, some _) => { e with keys }.admitted c t src now datagram.length header body
      | reach => match e.keys.reading reach with
        | none => (e, .error .unknownEpoch)
        | some key => match c.decrypt key head header.number payload tag with
          | none => (e, .error .auth)
          | some body => e.admitted c t src now datagram.length header body

/-- Construct and feed in one call; the endpoint is there only if the datagram opened. -/
def accept (cid : ConnectionId) (root : Secret) (claimed : Addr → τ) (src : Addr) (now : ℕ) (datagram : List UInt8) :
    Except RecvError (Endpoint Secret Key τ Addr × Received Addr) :=
  match (new c cid root (claimed src) .serverToClient : Endpoint Secret Key τ Addr).recv c t src now datagram with
  | (e, .ok received) => .ok (e, received)
  | (_, .error error) => .error error

end Endpoint

end Braid.Dgram
