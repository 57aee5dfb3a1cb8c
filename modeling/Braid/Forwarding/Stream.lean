import Braid.Forwarding.Recv

/-! One forwarded connection's two halves. Both ends of a tunnel run the same
type with the sockets swapped. -/

namespace Braid.Forwarding

structure Stream where
  send : Sender
  recv : Receiver
  deriving DecidableEq

namespace Stream

def new : Stream := ⟨Sender.new, Receiver.new⟩

def writable (s : Stream) : ℕ := s.send.writable

def write (s : Stream) (bytes : List UInt8) (now : ℕ) : Stream × ℕ :=
  let (send, taken) := s.send.write bytes now
  ({ s with send }, taken)

def finish (s : Stream) : Stream := { s with send := s.send.finish }

def pollTransmit (s : Stream) (now budget wrap : ℕ) : Stream × Option (Segment × List UInt8) :=
  let (send, segment) := s.send.pollTransmit now budget wrap
  ({ s with send }, segment)

def transmitted (s : Stream) (segment : Segment) (now : ℕ) : Stream :=
  { s with send := s.send.transmitted segment now }

def onAck (s : Stream) (off window : ℕ) (held : SackRuns) (now : ℕ) :
    Stream × Except Contradiction Unit :=
  let (send, answer) := s.send.onAck off window held now
  ({ s with send }, answer)

def onData (s : Stream) (off : ℕ) (fin : Bool) (bytes : List UInt8) : Except Contradiction Stream := do
  let recv ← s.recv.onData off fin bytes
  return { s with recv }

def pollAck (s : Stream) : Stream × Option Ack :=
  let (recv, ack) := s.recv.pollAck
  ({ s with recv }, ack)

def readable (s : Stream) (wrap : ℕ) : List UInt8 × List UInt8 := s.recv.readable wrap

def consume (s : Stream) (n : ℕ) : Stream := { s with recv := s.recv.consume n }

def peerFinished (s : Stream) : Bool := s.recv.finished

/-- Both halves closed and nothing owed. -/
def isDone (s : Stream) : Bool := s.send.isDone && s.recv.finished && s.recv.readableLen == 0

def deadline (s : Stream) (now : ℕ) : Option ℕ := s.send.deadline now

/-- Poll and hand over segments until none is owed or the sink, which has room
for `room` of them, refuses one. -/
def transmitAll (s : Stream) (now budget wrap : ℕ) : ℕ → Stream
  | 0 => (s.pollTransmit now budget wrap).1
  | room + 1 =>
    match s.pollTransmit now budget wrap with
    | (s, none) => s
    | (s, some (segment, _)) => (s.transmitted segment now).transmitAll now budget wrap room

theorem transmitAll_rule (P : Stream → Prop) {now budget wrap : ℕ}
    (hpoll : ∀ s, P s → P (s.pollTransmit now budget wrap).1)
    (hsent : ∀ s segment, P s → P (s.transmitted segment now)) (room : ℕ) {s : Stream} (h : P s) :
    P (s.transmitAll now budget wrap room) := by
  induction room generalizing s with
  | zero => exact hpoll s h
  | succ room ih =>
    have hp := hpoll s h
    unfold transmitAll
    split <;> rename_i heq <;> rw [heq] at hp
    · exact hp
    · exact ih (hsent _ _ hp)

end Stream

end Braid.Forwarding
