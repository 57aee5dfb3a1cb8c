import Mathlib.Order.Lattice
import Mathlib.Data.Nat.Notation
import Mathlib.Algebra.Group.Nat.Defs

/-! The retransmission timer of a forwarded stream: a smoothed round trip,
Karn's rule and one fast retransmit per stalled acknowledgement, keyed by byte
offset. Instants and durations are nanosecond counts. -/

namespace Braid.Forwarding

namespace Timer

def initialWait : ℕ := 250000000

def minWait : ℕ := 50000000

def maxWait : ℕ := 2000000000

end Timer

inductive Progress where
  | advanced
  | stalled
  | repeated
  deriving DecidableEq

structure Timer where
  srtt : Option ℕ
  /-- One past the last byte of the segment being timed, and when it went. -/
  sample : Option (ℕ × ℕ)
  waiting : Option ℕ
  attempts : ℕ
  acked : ℕ
  retried : Bool
  deriving DecidableEq

namespace Timer

def new : Timer := ⟨none, none, none, 0, 0, false⟩

variable (t : Timer)

/-- Two round trips, doubled for each attempt that went unanswered. -/
def interval : ℕ :=
  let base := (t.srtt.map (· * 2)).getD initialWait
  min (max (base * 2 ^ min t.attempts 5) minWait) maxWait

/-- A wait already running is not restarted. -/
def arm (now : ℕ) : Timer :=
  if t.waiting.isNone then { t with waiting := some now } else t

def due (now : ℕ) : Bool :=
  t.waiting.any fun since => t.interval ≤ now - since

def remaining (now : ℕ) : Option ℕ :=
  t.waiting.map fun since => t.interval - (now - since)

def expired : Timer :=
  { t with attempts := min (t.attempts + 1) 4294967295, waiting := none, sample := none }

/-- Timed only when it is the first copy of bytes never sent before. -/
def transmitted (freshEnd : Option ℕ) (now : ℕ) : Timer :=
  let t := t.arm now
  match freshEnd with
  | some e => if t.sample.isNone then { t with sample := some (e, now) } else t
  | none => t

def observe (sample : ℕ) : Timer :=
  match t.srtt with
  | none => { t with srtt := some sample }
  | some srtt => { t with srtt := some (srtt * 7 / 8 + sample / 8) }

/-- The sample an acknowledgement of everything below `off` ends, if any. -/
def takeSample (off now : ℕ) : Timer :=
  match t.sample with
  | some (e, sent) => if e ≤ off then { t.observe (now - sent) with sample := none } else t
  | none => t

/-- What the acknowledgement says of the head. -/
def progress (off : ℕ) : Timer × Progress :=
  if t.acked < off then ({ t with acked := off, attempts := 0, retried := false }, .advanced)
  else if t.retried then (t, .repeated)
  else ({ t with retried := true }, .stalled)

def acknowledged (off now : ℕ) (owed : Bool) : Timer × Progress :=
  let (t, progress) := (t.takeSample off now).progress off
  let t := { t with waiting := if owed then some now else none }
  (if owed then t else { t with sample := none }, progress)

end Timer

end Braid.Forwarding
