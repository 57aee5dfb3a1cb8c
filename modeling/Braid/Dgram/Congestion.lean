import Braid.Dgram.Loss

/-! How much may be in flight, and how fast it may leave: a window in bytes that grows with
what is acknowledged and halves with what is lost, a token bucket that spaces what leaves,
and a trigger that ends slow start once the round trip rises over its minimum. -/

namespace Braid.Dgram

def initialDatagrams : ℕ := 10

def minDatagrams : ℕ := 2

def maxDatagrams : ℕ := 512

def burstDatagrams : ℕ := 10

def paceNumerator : ℕ := 5

def paceDenominator : ℕ := 4

def initialPace : ℕ := 100000000

def overshootSamples : ℕ := 3

def overshootFloor : ℕ := 4000000

def overshootCeiling : ℕ := 16000000

def usizeMax : ℕ := 2 ^ 64 - 1

/-- A token bucket, refilled at the window's own rate. -/
structure Pacer where
  tokens : ℕ
  refilled : Option ℕ
  deriving DecidableEq

namespace Pacer

def new : Pacer := ⟨0, none⟩

def available (p : Pacer) (now window burst : ℕ) (srtt : Option ℕ) : ℕ :=
  match p.refilled with
  | none => burst
  | some refilled =>
    let elapsed := micros (now - refilled)
    let gained := match srtt with
      | some srtt => elapsed * paceNumerator * window / (paceDenominator * max (micros srtt) 1)
      | none => elapsed * window / micros initialPace
    min (p.tokens + gained) burst

def spend (p : Pacer) (bytes now window burst : ℕ) (srtt : Option ℕ) : Pacer :=
  ⟨p.available now window burst srtt - bytes, some now⟩

/-- Rounded up: truncating names an instant at which it is one byte short. -/
def ready (p : Pacer) (now bytes window burst : ℕ) (srtt : Option ℕ) : ℕ :=
  let short := bytes - p.available now window burst srtt
  if short = 0 then now
  else
    let window := max window 1
    let wait := match srtt with
      | some srtt => divCeil (micros srtt * paceDenominator * short) (paceNumerator * window)
      | none => divCeil (micros initialPace * short) window
    now + ofMicros (min wait u64Max)
where
  divCeil (a b : ℕ) : ℕ := (a + (b - 1)) / b

end Pacer

structure Undo where
  window : ℕ
  ssthresh : ℕ
  deriving DecidableEq

structure Congestion where
  window : ℕ
  ssthresh : ℕ
  inFlight : ℕ
  credit : ℕ
  recoveryStart : Option ℕ
  undo : Option Undo
  datagram : ℕ
  overshoot : ℕ
  pacer : Pacer
  srtt : Option ℕ
  deriving DecidableEq

namespace Congestion

def new (datagram : ℕ) : Congestion where
  window := datagram * initialDatagrams
  ssthresh := usizeMax
  inFlight := 0
  credit := 0
  recoveryStart := none
  undo := none
  datagram
  overshoot := 0
  pacer := .new
  srtt := none

variable (c : Congestion)

/-- The window is in bytes and stays put. -/
def setDatagram (bytes : ℕ) : Congestion := { c with datagram := bytes }

/-- Never above the window, or a loss could raise it after a search widened the path. -/
def minimum : ℕ := min (c.datagram * minDatagrams) c.window

def ceiling : ℕ := c.datagram * maxDatagrams

def initial : ℕ := c.datagram * initialDatagrams

def burst : ℕ := min c.window (c.datagram * burstDatagrams)

def writable (now bytes : ℕ) : Bool :=
  decide (c.inFlight + bytes ≤ c.window) && decide (bytes ≤ c.pacer.available now c.window c.burst c.srtt)

/-- None if the window is what refuses them. -/
def ready (c : Congestion) (now bytes : ℕ) : Option ℕ :=
  if c.window < c.inFlight + bytes then none
  else some (c.pacer.ready now bytes c.window c.burst c.srtt)

def sealed (bytes now : ℕ) : Congestion × Limited :=
  let limited := if c.inFlight + bytes + c.datagram ≤ c.window then Limited.application else Limited.window
  ({ c with
    inFlight := c.inFlight + bytes
    pacer := c.pacer.spend bytes now c.window c.burst c.srtt }, limited)

/-- Ends slow start after three samples in a row above the trigger. -/
def checkOvershoot (rtt : Rtt) : Congestion :=
  match rtt.minAdjusted with
  | none => c
  | some (us, _) =>
    let minimum := ofMicros us
    let trigger := minimum + max overshootFloor (min (minimum / 8) overshootCeiling)
    if ofMicros rtt.latestAdjusted ≤ trigger then { c with overshoot := 0 }
    else
      let c := { c with overshoot := c.overshoot + 1 }
      if overshootSamples ≤ c.overshoot then { c with ssthresh := max c.window c.initial } else c

/-- One datagram per window acknowledged. The credit goes down by the window each turn, so
it bounds the turns. -/
def grow : ℕ → Congestion → Congestion
  | 0, c => c
  | turns + 1, c =>
    if c.window ≤ c.credit then
      grow turns { c with
        credit := c.credit - c.window
        window := min (c.window + c.datagram) c.ceiling }
    else c

/-- What an arrival says whether or not the window may grow for it. -/
def noteArrival (bytes sent : ℕ) (rtt : Rtt) : Congestion :=
  let c := { c with
    inFlight := c.inFlight - bytes
    srtt := rtt.smoothed.map ofMicros
    recoveryStart := if c.recoveryStart.any (· < sent) then none else c.recoveryStart }
  if c.window < c.ssthresh then c.checkOvershoot rtt else c

/-- The window grows only for a sender the window is what stopped. -/
def openWindow (bytes : ℕ) (limited : Limited) : Congestion :=
  if limited = .application then c
  else if c.window < c.ssthresh then { c with window := min (c.window + bytes) c.ceiling }
  else grow (c.credit + bytes) { c with credit := c.credit + bytes }

def acknowledged (bytes sent : ℕ) (rtt : Rtt) (limited : Limited) : Congestion :=
  (c.noteArrival bytes sent rtt).openWindow bytes limited

def remember : Congestion := { c with undo := some ⟨c.window, c.ssthresh⟩ }

def lost (bytes sent now : ℕ) : Congestion :=
  let c := { c with inFlight := c.inFlight - bytes }
  if c.recoveryStart.any (sent < ·) then c
  else
    let window := max (c.window / 2) c.minimum
    { c.remember with
      recoveryStart := some now
      window := window
      ssthresh := window
      credit := 0
      overshoot := 0 }

/-- The peer acknowledged a packet already answered for, so the window comes back. -/
def spurious : Congestion :=
  match c.undo with
  | none => c
  | some undo =>
    { c with
      undo := none
      window := min (max c.window undo.window) c.ceiling
      ssthresh := max c.ssthresh undo.ssthresh
      recoveryStart := none
      credit := 0
      overshoot := 0 }

def abandoned (bytes : ℕ) : Congestion := { c with inFlight := c.inFlight - bytes }

def collapse (now : ℕ) : Congestion :=
  { c.remember with
    ssthresh := max (c.window / 2) c.initial
    window := c.minimum
    credit := 0
    recoveryStart := some now
    overshoot := 0 }

def migrated : Congestion :=
  { c with
    window := c.initial
    ssthresh := usizeMax
    credit := 0
    recoveryStart := none
    undo := none
    overshoot := 0
    srtt := none
    pacer := .new }

end Congestion

end Braid.Dgram
