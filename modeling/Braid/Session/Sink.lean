import Mathlib.Data.List.Basic
import Mathlib.Data.Nat.Notation
import Mathlib.Algebra.GroupWithZero.Nat

/-! The queue in front of one attached client, and the thread that empties it. The screen lane is one
slot that a newer screen overwrites in place, keeping the position it already held in the order. A step of
the writer is one acquisition of the queue's lock; `handed` records the frames it has taken, in the
order in which the transport is offered them. The pools of spent buffers are left out. -/

namespace Braid.Session

/-- Bytes of output that may wait for one client before it is switched to whole screens. -/
def streamLimit : ℕ := 262144

def controlSlack : ℕ := 65536

def batchLimit : ℕ := 32768

def screenLimit : ℕ := 524288

def forwardLane : ℕ := 65536

inductive SinkError where
  | full
  | unusable
  deriving DecidableEq

inductive ScreenPressure where
  | clear
  | over
  deriving DecidableEq

inductive Position where
  | back
  | front
  deriving DecidableEq

structure SinkFrame (α : Type*) where
  content : α
  len : ℕ
  deriving DecidableEq

inductive Slot (α : Type*) where
  | stream (frame : SinkFrame α)
  | control (frame : SinkFrame α)
  | forward (frame : SinkFrame α)
  | screen
  deriving DecidableEq

/-- The bytes of a lane that are queued, and those the writer took and has not given back. -/
structure Lane where
  queued : ℕ
  taken : ℕ
  deriving DecidableEq

namespace Lane

def empty : Lane := ⟨0, 0⟩

def charged (lane : Lane) : ℕ := lane.queued + lane.taken

def take (lane : Lane) (bytes : ℕ) : Lane := ⟨lane.queued - bytes, lane.taken + bytes⟩

def takeAll (lane : Lane) : Lane := ⟨0, lane.taken + lane.queued⟩

def release (lane : Lane) : Lane := { lane with taken := 0 }

end Lane

/-- A `screen` slot is in `order` exactly while `pieces` is not empty. -/
structure Queue (α : Type*) where
  order : List (Slot α)
  pieces : List (SinkFrame α)
  screen : Lane
  stream : Lane
  forward : Lane
  forwardEntries : ℕ
  inFlight : Bool
  closed : Bool
  deriving DecidableEq

/-- Where the writer stands: its batch is written, given back, being written, or it has left. -/
inductive Writer where
  | spent
  | retired
  | holding
  | left
  deriving DecidableEq

inductive WriterStep where
  | retire
  | take
  | settle (failed : Bool)
  | leave
  deriving DecidableEq

structure Sink (α : Type*) where
  queue : Queue α
  writer : Writer
  handed : List (SinkFrame α)
  deriving DecidableEq

variable {α : Type*}

namespace Slot

/-- What the entry occupies of its own lane. -/
def bytes : Slot α → ℕ
  | stream frame | control frame | forward frame => frame.len
  | screen => 0

def isForward : Slot α → Bool
  | forward _ => true
  | _ => false

end Slot

namespace Queue

def new : Queue α := ⟨[], [], .empty, .empty, .empty, 0, false, false⟩

variable (q : Queue α)

/-- What a reader that does not take the lock sees of the queue. -/
def outstanding : ℕ := q.order.length - q.forwardEntries + if q.inFlight then 1 else 0

/-- Charge a frame to its lane and put it in the order, unless the lane has no room for it. -/
def admit_ (slot : Slot α) (limit : ℕ) (position : Position) : Option (Queue α) :=
  let lane := if slot.isForward then q.forward else q.stream
  if limit < lane.charged + slot.bytes then none
  else
    let order := match position with
      | .back => q.order ++ [slot]
      | .front => slot :: q.order
    let lane := { lane with queued := lane.queued + slot.bytes }
    if slot.isForward then some { q with order, forward := lane, forwardEntries := q.forwardEntries + 1 }
    else some { q with order, stream := lane }

/-- Take one entry off the front, with the frames it stands for. The screen slot empties whole. -/
def popFront : Option (Queue α × List (SinkFrame α)) :=
  match q.order with
  | [] => none
  | .stream frame :: rest => some ({ q with order := rest, stream := q.stream.take frame.len }, [frame])
  | .control frame :: rest => some ({ q with order := rest, stream := q.stream.take frame.len }, [frame])
  | .forward frame :: rest =>
    some ({ q with order := rest, forward := q.forward.take frame.len, forwardEntries := q.forwardEntries - 1 }, [frame])
  | .screen :: rest => some ({ q with order := rest, screen := q.screen.takeAll, pieces := [] }, q.pieces)

def batchBytes (batch : List (SinkFrame α)) : ℕ := (batch.map SinkFrame.len).sum

/-- Move entries into the batch until it is full; the recursion is on the entries waiting. -/
def fillFrom (q : Queue α) (batch : List (SinkFrame α)) : ℕ → Queue α × List (SinkFrame α)
  | 0 => (q, batch)
  | waiting + 1 =>
    if batchBytes batch < batchLimit then
      match q.popFront with
      | none => (q, batch)
      | some (q, frames) => fillFrom q (batch ++ frames) waiting
    else (q, batch)

def fill : Queue α × List (SinkFrame α) :=
  let (q, batch) := q.fillFrom [] q.order.length
  ({ q with inFlight := true }, batch)

/-- The byte stream goes, and what no screen carries stays. -/
def discardStream : Queue α :=
  let order := q.order.filter fun slot => match slot with
    | .stream _ => false
    | _ => true
  let kept := (order.filter (!·.isForward)).map Slot.bytes
  { q with order, stream := { q.stream with queued := kept.sum } }

end Queue

namespace Sink

def new : Sink α := ⟨.new, .spent, []⟩

variable (s : Sink α)

def isClosed : Bool := s.queue.closed

def isDrained : Bool := !s.queue.closed && s.queue.outstanding == 0

def close : Sink α := { s with queue := { s.queue with closed := true } }

def push (slot : Slot α) (limit : ℕ) (position : Position) : Except SinkError (Sink α) :=
  if s.queue.closed then .error .unusable
  else match s.queue.admit_ slot limit position with
    | none => .error .full
    | some queue => .ok { s with queue }

/-- Queue a message the client cannot be left without. -/
def sendControl (frame : SinkFrame α) (position : Position) : Except SinkError (Sink α) :=
  s.push (.control frame) (streamLimit + controlSlack) position

def sendOutput (frame : SinkFrame α) : Except SinkError (Sink α) :=
  s.push (.stream frame) streamLimit .back

def sendForward (frame : SinkFrame α) : Except SinkError (Sink α) :=
  s.push (.forward frame) forwardLane .back

/-- Queue a screen as its pieces, replacing one already waiting, and say what the client holds. -/
def sendScreen (pieces : List (SinkFrame α)) : Except SinkError (Sink α × ScreenPressure) :=
  if s.queue.closed then .error .unusable
  else if pieces = [] then .ok (s, .clear)
  else
    let order := if s.queue.pieces = [] then s.queue.order ++ [.screen] else s.queue.order
    let screen := { s.queue.screen with queued := Queue.batchBytes pieces }
    .ok ({ s with queue := { s.queue with order, screen, pieces } },
      if screenLimit < screen.charged then .over else .clear)

def discardStream (s : Sink α) : Sink α := { s with queue := s.queue.discardStream }

/-- A step of the writer. A batch the transport took is settled before its bytes are given back. -/
def write : WriterStep → Option (Sink α)
  | .retire =>
    if s.writer = .spent then
      some { s with
        writer := .retired
        queue := { s.queue with
          stream := s.queue.stream.release
          forward := s.queue.forward.release
          screen := s.queue.screen.release } }
    else none
  | .take =>
    if s.writer = .retired ∧ s.queue.order ≠ [] then
      let (queue, batch) := s.queue.fill
      some ⟨queue, .holding, s.handed ++ batch⟩
    else none
  | .settle failed =>
    if s.writer = .holding then
      some { s with
        writer := if failed then .left else .spent
        queue := { s.queue with inFlight := false, closed := s.queue.closed || failed } }
    else none
  | .leave =>
    if s.writer = .retired ∧ s.queue.order = [] ∧ s.queue.closed = true then some { s with writer := .left } else none

variable {s s' : Sink α}

section

variable {slot : Slot α} {limit : ℕ} {position : Position} (h : s.push slot limit position = .ok s')

include h

theorem push_ok :
    ∃ queue, s.queue.closed = false ∧ s.queue.admit_ slot limit position = some queue ∧ s' = { s with queue } := by
  unfold push at h
  split_ifs at h with hclosed
  split at h
  · cases h
  · rename_i queue hadmitted
    cases h
    exact ⟨queue, by simpa using hclosed, hadmitted, rfl⟩

theorem push_closed :
    s'.isClosed = s.isClosed := by
  obtain ⟨queue, -, hadmitted, rfl⟩ := push_ok h
  unfold Queue.admit_ at hadmitted
  dsimp only at hadmitted
  split_ifs at hadmitted <;> cases hadmitted <;> rfl

end

end Sink

end Braid.Session
