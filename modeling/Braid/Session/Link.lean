import Mathlib.Order.Lattice
import Mathlib.Data.Nat.Notation
import Mathlib.Algebra.Group.Nat.Defs

/-! The timing of one attachment's link: a smoothed round trip measured by
probes, and the intervals derived from it. An interval is clamped, so none of
them is ever zero. Instants and durations are nanosecond counts. -/

namespace Braid.Session

def repaintFloor : ℕ := 16000000

def repaintCeiling : ℕ := 250000000

def pingFloor : ℕ := 250000000

def pingCeiling : ℕ := 2000000000

def pingDeadIntervals : ℕ := 5

def pingDeadFloor : ℕ := 5000000000

def rttShift : ℕ := 3

/-- Doublings the probe interval may take while the session carries nothing. -/
def idleBackoffSteps : ℕ := 3

structure LinkTiming where
  srtt : Option ℕ
  /-- The probe token last sent, and when. -/
  outstanding : Option (ℕ × ℕ)
  nextToken : ℕ
  lastProbe : ℕ
  lastAnswer : ℕ
  idleProbes : ℕ
  quiet : Bool

namespace LinkTiming

def new (now : ℕ) : LinkTiming := ⟨none, none, 1, now, now, 0, true⟩

variable (l : LinkTiming)

/-- How often the attachment is probed, backed off while the session carries nothing. -/
def pingInterval : ℕ :=
  let paced := l.srtt.elim pingCeiling fun srtt => min (max (srtt * 2) pingFloor) pingCeiling
  min (paced * 2 ^ l.idleProbes) pingCeiling

def intervalMs : ℕ := min (l.pingInterval / 1000000) 65535

/-- How long a screen waits before the next one is worth sending. -/
def repaintInterval : ℕ :=
  l.srtt.elim (min repaintCeiling 33000000) fun srtt => min (max (srtt / 2) repaintFloor) repaintCeiling

/-- How long an unanswered screen holds the next one back. -/
def ackTimeout : ℕ :=
  min (max (l.srtt.elim repaintCeiling (· * 2)) repaintCeiling) 2000000000

def isDead (now : ℕ) : Bool :=
  max (l.pingInterval * pingDeadIntervals) pingDeadFloor < now - l.lastAnswer

def probeDue (now : ℕ) : Bool := l.pingInterval ≤ now - l.lastProbe

/-- The next probe token, if one is due. -/
def probe (now : ℕ) : LinkTiming × Option ℕ :=
  if l.probeDue now then
    ({ l with
        nextToken := (l.nextToken + 1) % 2 ^ 64
        lastProbe := now
        outstanding := some (l.nextToken, now)
        quiet := true },
      some l.nextToken)
  else (l, none)

/-- One eighth of the error, in whichever direction it falls. -/
def observe (sample : ℕ) : LinkTiming :=
  { l with
    srtt := some (l.srtt.elim sample fun srtt =>
      (srtt + (sample - srtt) / 2 ^ rttShift) - (srtt - sample) / 2 ^ rttShift) }

def answered (token now : ℕ) : LinkTiming :=
  let l := { l with lastAnswer := now }
  match l.outstanding with
  | none => l
  | some (sentToken, sentAt) =>
    if sentToken ≠ token then l
    else
      let idle := if l.quiet then min (l.idleProbes + 1) idleBackoffSteps else l.idleProbes
      { l with outstanding := none, idleProbes := idle }.observe (now - sentAt)

/-- The session carried a byte: the link is paced by the link again. -/
def stirred : LinkTiming := { l with quiet := false, idleProbes := 0 }

/-! ### No interval is zero -/

variable (l : LinkTiming)

theorem pingInterval_pos : 0 < l.pingInterval := by
  have hpaced : 0 < l.srtt.elim pingCeiling fun srtt => min (max (srtt * 2) pingFloor) pingCeiling := by
    cases l.srtt with
    | none => decide
    | some srtt => simp [pingFloor, pingCeiling]
  exact lt_min (Nat.mul_pos hpaced (Nat.two_pow_pos _)) (by decide)

theorem repaintInterval_pos : 0 < l.repaintInterval := by
  unfold repaintInterval
  cases l.srtt with
  | none => decide
  | some srtt => simp [repaintFloor, repaintCeiling]

theorem probe_waits (now : ℕ) : 0 < (l.probe now).1.pingInterval - (now - (l.probe now).1.lastProbe) := by
  unfold probe
  split_ifs with h
  · simpa [pingInterval] using l.pingInterval_pos
  · simp only [probeDue, decide_eq_true_eq, not_le] at h
    exact Nat.sub_pos_of_lt h

end LinkTiming

end Braid.Session
