import Braid.Forwarding.Timer
import Mathlib.Data.List.Basic

/-! The half of a forwarded stream that owes bytes. `base` is what the peer has
confirmed, `next` is what has been on the wire at least once, and `cursor` is
where a repair walk stands. The retransmission buffer is a ring of two slices;
where the ring wraps is the caller's `wrap`, since nothing here chooses it.
Offsets are natural numbers: an offset past `u64::MAX` stops the process. -/

namespace Braid.Forwarding

def u64Max : ℕ := 18446744073709551615

def forwardWindow : ℕ := 262144

def maxForwardChunk : ℕ := 32768

def chunkWindow : ℕ := 32768

def initialWindow : ℕ := chunkWindow

def maxAckRuns : ℕ := 32

/-- The peer declared two ends for one half, or payload past an end. -/
inductive Contradiction where
  | contradiction
  deriving DecidableEq

abbrev NonZeroU32 := { n : ℕ // 0 < n ∧ n < 4294967296 }

/-- A run held past a gap: how far it starts from the run before, and its length. -/
structure SackRun where
  gap : NonZeroU32
  len : NonZeroU32
  deriving DecidableEq

structure SackRuns where
  runs : List SackRun
  bounded : runs.length ≤ maxAckRuns
  deriving DecidableEq

namespace SackRuns

def empty : SackRuns := ⟨[], Nat.zero_le _⟩

/-- Runs as `[start, end)` ranges, the first measured from `cursor`. -/
def absoluteFrom : ℕ → List SackRun → List (ℕ × ℕ)
  | _, [] => []
  | cursor, run :: runs =>
    let start := min (cursor + run.gap.1) u64Max
    let stop := min (start + run.len.1) u64Max
    (start, stop) :: absoluteFrom stop runs

def absolute (held : SackRuns) (base : ℕ) : List (ℕ × ℕ) := absoluteFrom base held.runs

/-- Where the next gap starts after `runs`, the first measured from `cursor`. -/
def stopFrom (cursor : ℕ) (runs : List SackRun) : ℕ :=
  runs.foldl (fun cursor run => min (min (cursor + run.gap.1) u64Max + run.len.1) u64Max) cursor

theorem absoluteFrom_append (cursor : ℕ) (runs more : List SackRun) :
    absoluteFrom cursor (runs ++ more) = absoluteFrom cursor runs ++ absoluteFrom (stopFrom cursor runs) more := by
  induction runs generalizing cursor with
  | nil => rfl
  | cons run runs ih => simp only [List.cons_append, absoluteFrom, ih, stopFrom, List.foldl_cons]

end SackRuns

/-- One piece of a stream, handed back to `transmitted` once its frame is sent. -/
structure Segment where
  off : ℕ
  fin : Bool
  len : ℕ
  deriving DecidableEq

structure Ack where
  off : ℕ
  window : ℕ
  held : SackRuns
  deriving DecidableEq

structure Sender where
  base : ℕ
  buffer : List UInt8
  next : ℕ
  cursor : ℕ
  fin : Option ℕ
  finSent : Bool
  finAcked : Bool
  window : ℕ
  held : List (ℕ × ℕ)
  timer : Timer
  deriving DecidableEq

/-- What a poll owes, in precedence order. -/
inductive Owed where
  | repair (off len : ℕ)
  | fresh (off len : ℕ)
  | endAt (off : ℕ)
  | probe (off : ℕ)
  | nothing
  deriving DecidableEq

namespace Sender

def new : Sender where
  base := 0
  buffer := []
  next := 0
  cursor := 0
  fin := none
  finSent := false
  finAcked := false
  window := initialWindow
  held := []
  timer := Timer.new

variable (s : Sender)

def endOff : ℕ := s.base + s.buffer.length

def writable : ℕ :=
  if s.fin.isSome then 0 else forwardWindow - s.buffer.length

/-- The sender after a write, and how many of the bytes it took. -/
def write (bytes : List UInt8) (now : ℕ) : Sender × ℕ :=
  let take := min s.writable bytes.length
  let s := { s with buffer := s.buffer ++ bytes.take take }
  (if 0 < take then { s with timer := s.timer.arm now } else s, take)

def finish : Sender :=
  if s.fin.isNone then { s with fin := some s.endOff } else s

def unheld (off : ℕ) : ℕ :=
  s.held.foldl (fun off run => if run.1 ≤ off ∧ off < run.2 then run.2 else off) off

def nextHeld (off : ℕ) : Option ℕ :=
  (s.held.map Prod.fst).find? fun start => off < start

def awaitingAck : Bool :=
  s.base < s.endOff || (s.fin.isSome && !s.finAcked)

def isDone : Bool := s.fin.isSome && s.finAcked

def deadline (now : ℕ) : Option ℕ := s.timer.remaining now

/-- The repair due at the cursor, if the walk is still behind `next`. -/
def repairOwed (budget : ℕ) : Option Owed :=
  if s.cursor < s.next then
    let off := s.unheld s.cursor
    if off < s.next then
      let stop := min ((s.nextHeld off).getD s.next) s.next
      some (.repair off (min (stop - off) budget))
    else none
  else none

def owed (woken : Bool) (budget : ℕ) : Owed :=
  let stop := s.endOff
  match s.repairOwed budget with
  | some repair => repair
  | none =>
    let granted := min (s.base + s.window) u64Max
    let limit := min stop granted
    if s.next < limit then .fresh s.next (min (limit - s.next) budget)
    else if s.fin = some stop ∧ s.next = stop ∧ s.finSent = false ∧ s.finAcked = false then .endAt stop
    else if woken = true ∧ s.next = s.base ∧ s.next < stop then .probe s.base
    else .nothing

/-- The bytes a cut of at most `len` at `start` takes from a ring of two
slices: a cut that reaches the wrap ends there. -/
def cutRing (front back : List UInt8) (start len : ℕ) : List UInt8 :=
  if start < front.length then (front.drop start).take (min len (front.length - start))
  else (back.drop (start - front.length)).take (min len (back.length - (start - front.length)))

/-- The segment at `off` of at most `len` bytes, with its bytes. -/
def fill (off len wrap : ℕ) : Option (Segment × List UInt8) :=
  let body := cutRing (s.buffer.take wrap) (s.buffer.drop wrap) (off - s.base) len
  let fin : Bool := s.fin = some (off + body.length)
  if 0 < body.length ∨ fin = true then some (⟨off, fin, body.length⟩, body) else none

def wake (now : ℕ) : Sender :=
  if s.timer.due now then { s with cursor := s.base, finSent := false, timer := s.timer.expired } else s

def pollTransmit (now budget wrap : ℕ) : Sender × Option (Segment × List UInt8) :=
  let budget := min budget maxForwardChunk
  if budget = 0 then (s, none)
  else
    let woken := s.timer.due now
    let s := s.wake now
    (s, match s.owed woken budget with
      | .repair off len => s.fill off len wrap
      | .fresh off len => s.fill off len wrap
      | .endAt off => s.fill off 0 wrap
      | .probe off => s.fill off 1 wrap
      | .nothing => none)

def transmitted (s : Sender) (segment : Segment) (now : ℕ) : Sender :=
  let stop := segment.off + segment.len
  let fresh := if s.next < stop then some stop else none
  { s with
    next := max s.next stop
    cursor := max s.cursor stop
    finSent := s.finSent || segment.fin
    timer := s.timer.transmitted fresh now }

/-- Drop what an acknowledgement of everything below `off` covers. -/
def release (off : ℕ) : Sender :=
  if s.base < off then
    let advance := min off s.endOff - s.base
    let base := s.base + advance
    { s with
      buffer := s.buffer.drop advance
      base := base
      next := max s.next base
      cursor := max s.cursor base
      finAcked := s.finAcked || s.fin.any (· < off) }
  else s

/-- Note the window and the clock of an acknowledgement, and walk again from
`base` when the head is reported stalled into an open window. -/
def settleAck (off window now : ℕ) : Sender :=
  let s := { s with window := window }
  let awaiting := s.awaitingAck
  let (timer, progress) := s.timer.acknowledged off now awaiting
  let s := { s with timer := timer }
  if progress = .stalled ∧ 0 < window ∧ awaiting = true then
    { s with cursor := s.base, finSent := false }
  else s

def onAck (off window : ℕ) (held : SackRuns) (now : ℕ) :
    Sender × Except Contradiction Unit :=
  if off < s.base then (s, .ok ())
  else
    let s := s.release off
    let runs := held.absolute off
    -- A run past what was sent is refused, after the bytes it acknowledged have gone.
    if runs.all fun run => run.2 ≤ s.next then ({ s with held := runs }.settleAck off window now, .ok ())
    else ({ s with held := [] }, .error .contradiction)

end Sender

end Braid.Forwarding
