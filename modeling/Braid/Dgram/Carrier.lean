import Braid.Dgram.Party
import Braid.Dgram.Path
import Braid.Dgram.Congestion
import Braid.Dgram.Mtu

/-! What an endpoint has below it: the path and the randomness it is challenged with, the
congestion window, the flight and the width search. What the loss detector took off the
flight reaches the window and the search in one place, after each call that can take
anything off. -/

namespace Braid.Dgram

structure Carrier (Addr : Type*) where
  path : PathValidator Addr
  entropy : Entropy
  congestion : Congestion
  loss : LossDetector
  mtu : Mtu

namespace Carrier

variable {Addr : Type*}

def new (path : PathValidator Addr) (entropy : Entropy) (fragmentation : Fragmentation) : Carrier Addr :=
  ⟨path, entropy, .new baseDatagram, .new, .new fragmentation⟩

variable (r : Carrier Addr)

def absorbArrived (arrived : InFlight) : Carrier Addr :=
  { r with
    congestion := r.congestion.acknowledged arrived.bytes arrived.sent r.loss.rtt arrived.limited
    mtu := r.mtu.acknowledged arrived.number arrived.bytes }

/-- Only a loss moves the window: silence is not a full queue, and overflow is not a fact. -/
def absorbGone (now : ℕ) (r : Carrier Addr) (gone : Gone) : Carrier Addr :=
  match gone.cause with
  | .lost => { r with
      congestion := r.congestion.lost gone.bytes gone.sent now
      mtu := r.mtu.lost gone.number gone.bytes now }
  | .silent => { r with
      congestion := r.congestion.abandoned gone.bytes
      mtu := r.mtu.silent gone.number gone.bytes now }
  | .overflowed => { r with
      congestion := r.congestion.abandoned gone.bytes
      mtu := r.mtu.forgotten gone.number now }

/-- A write-off that arrived after all gives the window back, before the losses that would
overwrite what it gives back. -/
def revive : Carrier Addr :=
  if r.loss.revived then { r with congestion := r.congestion.spurious } else r

/-- The window is denominated in datagrams, and the search may have changed what one is. -/
def settle (now : ℕ) : Carrier Addr :=
  let r := { r with congestion := r.congestion.setDatagram r.mtu.datagram }
  if r.loss.persistent then { r with congestion := r.congestion.collapse now } else r

/-- What the last call of the loss detector found, in the order its readers need it. -/
def absorb (now : ℕ) : Carrier Addr :=
  (r.loss.gone.foldl (absorbGone now) (r.loss.arrived.foldl absorbArrived r.revive)).settle now

def sealed (r : Carrier Addr) (number bytes now : ℕ) : Carrier Addr :=
  let (congestion, limited) := r.congestion.sealed bytes now
  { r with congestion, loss := r.loss.sealed ⟨number, bytes, now, limited⟩ }.absorb now

def expire (r : Carrier Addr) (now : ℕ) : Carrier Addr := { r with loss := r.loss.expire now }.absorb now

/-- Only an acknowledgement of numbers already used is believed; it proves the path. -/
def acknowledged (r : Carrier Addr) (ack : Ack) (next now : ℕ) : Carrier Addr :=
  if ack.largest < next then
    let r := { r with loss := r.loss.acknowledged ack now }.absorb now
    { r with mtu := r.mtu.proven }
  else r

/-- The width goes first, since the window reopens at ten of whatever a datagram is. -/
def migrated (r : Carrier Addr) : Carrier Addr :=
  let mtu := r.mtu.migrated
  { r with
    mtu
    congestion := (r.congestion.setDatagram mtu.datagram).migrated
    loss := r.loss.migrated }

def refused (r : Carrier Addr) (carries now : ℕ) : Carrier Addr :=
  let mtu := r.mtu.refused carries now
  { r with mtu, congestion := r.congestion.setDatagram mtu.datagram }

def pollChallenge [DecidableEq Addr] (r : Carrier Addr) (now : ℕ) : Carrier Addr × Option (Addr × List UInt8) :=
  let (path, entropy, challenge) := r.path.pollChallenge now r.entropy
  ({ r with path, entropy }, challenge.map fun (dest, token) => (dest, token.bytes))

end Carrier

/-- The endpoint's transport. -/
def carriage (Addr : Type*) [DecidableEq Addr] : Transport (Carrier Addr) Addr where
  current r := r.path.current
  maySend r dest bytes := r.path.maySend dest bytes
  spent r dest bytes := { r with path := r.path.spent dest bytes }
  arrived r src bytes now := { r with path := r.path.arrived src bytes now }
  answered r src token :=
    let (path, answered) := r.path.answered src token
    ({ r with path }, answered)
  pollChallenge := Carrier.pollChallenge
  admits r := r.loss.admits
  writable r now bytes := r.congestion.writable now bytes
  sealed := Carrier.sealed
  expire := Carrier.expire
  acknowledged := Carrier.acknowledged
  migrated := Carrier.migrated
  datagram r := r.mtu.datagram
  confirming r := r.mtu.confirming
  pollProbe r now :=
    let (mtu, size) := r.mtu.poll now
    ({ r with mtu }, size)
  probing r number := { r with mtu := r.mtu.probing number }
  refused := Carrier.refused

namespace Endpoint

variable {Secret Key τ Addr : Type*}

def owedDeadline (e : Endpoint Secret Key τ Addr) : Option ℕ :=
  match e.debt with
  | .settled => none
  | .owed at_ _ _ => some at_

def keepaliveDeadline (e : Endpoint Secret Key τ Addr) : Option ℕ :=
  if e.role = .clientToServer then e.quietSince.map (· + keepaliveAfter) else none

variable (e : Endpoint Secret Key (Carrier Addr) Addr)

/-- What a caller holding a socket sleeps on. -/
def pollDeadline : Option ℕ :=
  if e.closed then none
  else earliest [e.transport.loss.deadline, e.owedDeadline, e.transport.mtu.deadline, e.transport.path.challengeDeadline,
    e.keepaliveDeadline]

/-- When the window lets the frame go and the pacer has the tokens; none if the window refuses it. -/
def ready [DecidableEq Addr] (now frameLen : ℕ) : Option ℕ :=
  let bytes := frameLen + headerBytes + tagBytes
  if !e.admits (carriage Addr) ((carriage Addr).current e.transport) bytes then none
  else e.transport.congestion.ready now bytes

end Endpoint

/-- What a side brings to a connection of its own. -/
structure Side where
  entropy : Entropy
  fragmentation : Fragmentation

/-- A connection over this transport. -/
def carried {Secret Key Addr : Type*} [DecidableEq Addr] (cipher : Cipher Secret Key) (root : Secret) (cid : ConnectionId)
    (dialling listening : Side) : Setting Secret Key (Carrier Addr) Addr where
  cipher
  transport := carriage Addr
  root
  cid
  dialled peer := .new (.dialled peer) dialling.entropy dialling.fragmentation
  claimed peer := .new (.claimed peer) listening.entropy listening.fragmentation

/-- A connection whose tokens count up, under a cipher that writes the key into the tag. -/
def sample : Setting ℕ (Direction × ℕ) (Carrier ℕ) ℕ :=
  carried Party.plain.cipher Party.plain.root Party.plain.cid ⟨⟨counted, 0⟩, .refused⟩ ⟨⟨counted, 0⟩, .refused⟩
where
  counted (n : ℕ) : Option Token := some ⟨Foundation.beBytes 8 n, Foundation.length_beBytes 8 n⟩

/-- A datagram of that connection, as a side emits it before any rotation. -/
def sampled (sending : Direction) (kind : Kind) (number : ℕ) (body : List UInt8) : List UInt8 :=
  (Header.encode ⟨kind, sample.cid, Epoch.first, number⟩).getD [] ++ body ++
    Party.plain.stamp (sending, sample.root) number

end Braid.Dgram
