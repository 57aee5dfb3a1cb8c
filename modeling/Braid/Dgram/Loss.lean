import Braid.Dgram.Endpoint

/-! What is in flight, how long the round trip is, and what did not arrive. Nothing is
retransmitted. A packet the peer acknowledged around is lost; one nothing was said about
is given up after a probe timeout; the lists of what the last call took off the flight
are read by the caller before the next. Instants and durations are in nanoseconds, the
estimates in microseconds. -/

namespace Braid.Dgram

def packetThreshold : ℕ := 3

/-- In microseconds; only the first flight is timed against it. -/
def initialRtt : ℕ := 333000

def minLossDelay : ℕ := 1000000

/-- In microseconds. -/
def timerGranularity : ℕ := 1000

def maxTracked : ℕ := 4096

def persistentCongestionThreshold : ℕ := 3

/-- How long a minimum round trip stands before a fresh sample replaces it. -/
def rttMinWindow : ℕ := 10000000000

def maxPtoBackoff : ℕ := 6

def micros (duration : ℕ) : ℕ := min (duration / 1000) u64Max

def ofMicros (us : ℕ) : ℕ := us * 1000

/-- The round trip, in microseconds; the minimum with the instant it was taken at. -/
structure Rtt where
  smoothed : Option ℕ
  var : ℕ
  latestAdjusted : ℕ
  minAdjusted : Option (ℕ × ℕ)
  deriving DecidableEq

namespace Rtt

def default : Rtt := ⟨none, 0, 0, none⟩

/-- What the peer admits to holding it comes off the top. -/
def sample (r : Rtt) (taken delay now : ℕ) : Rtt :=
  let adjusted := max (micros taken - micros delay) 1
  let replace : Bool := match r.minAdjusted with
    | none => true
    | some (min, since) => adjusted < min ∨ rttMinWindow ≤ now - since
  let r := { r with
    latestAdjusted := adjusted
    minAdjusted := if replace then some (adjusted, now) else r.minAdjusted }
  match r.smoothed with
  | none => { r with smoothed := some adjusted, var := adjusted / 2 }
  | some smoothed =>
    { r with
      var := (r.var * 3 + ((smoothed - adjusted) + (adjusted - smoothed))) / 4
      smoothed := some ((smoothed * 7 + adjusted) / 8) }

/-- How long a packet may go unacknowledged, with later ones acknowledged. -/
def lossDelay (r : Rtt) : ℕ :=
  let base := match r.smoothed with
    | none => initialRtt
    | some smoothed => max (max smoothed r.latestAdjusted) r.var
  max (ofMicros (base * 9 / 8)) minLossDelay

def probeTimeout (r : Rtt) : ℕ :=
  ofMicros (r.smoothed.getD initialRtt + max (4 * r.var) timerGranularity) + maxAckDelay

def persistentCongestionPeriod (r : Rtt) : ℕ := r.probeTimeout * persistentCongestionThreshold

end Rtt

/-- What stopped the sender at the moment a packet was sealed. -/
inductive Limited where
  | application
  | window
  deriving DecidableEq

structure InFlight where
  number : ℕ
  bytes : ℕ
  sent : ℕ
  limited : Limited
  deriving DecidableEq

inductive Cause where
  | lost
  | silent
  | overflowed
  deriving DecidableEq

structure Gone where
  number : ℕ
  bytes : ℕ
  sent : ℕ
  cause : Cause
  deriving DecidableEq

structure WrittenOff where
  number : ℕ
  cause : Cause
  deriving DecidableEq

/-- The acknowledgement names the number: the largest, or one in its map. -/
def Ack.covers (ack : Ack) (number : ℕ) : Bool :=
  number = ack.largest ∨
    (number ≤ ack.largest ∧ ack.largest - number ≤ 64 ∧ ack.map.testBit (ack.largest - number - 1) = true)

structure LossDetector where
  sent : List InFlight
  rtt : Rtt
  largestAcked : Option ℕ
  arrived : List InFlight
  gone : List Gone
  writtenOff : List WrittenOff
  silence : ℕ
  silentSince : Option ℕ
  answered : Bool
  persistent : Bool
  revived : Bool
  losses : ℕ
  spurious : ℕ
  deriving DecidableEq

namespace LossDetector

def new : LossDetector where
  sent := []
  rtt := .default
  largestAcked := none
  arrived := []
  gone := []
  writtenOff := []
  silence := 0
  silentSince := none
  answered := false
  persistent := false
  revived := false
  losses := 0
  spurious := 0

/-- Doubled per consecutive timeout, reset by anything the peer says. -/
def probeTimeout (d : LossDetector) : ℕ := d.rtt.probeTimeout * 2 ^ min d.silence maxPtoBackoff

variable (d : LossDetector)

/-- Nothing measured on the old path is evidence about the new one. The flight stays. -/
def migrated : LossDetector :=
  { d with
    rtt := .default
    silence := 0
    silentSince := none
    answered := false
    largestAcked := none
    writtenOff := [] }

def admits : Bool := d.sent.length < maxTracked

def clear : LossDetector :=
  { d with arrived := [], gone := [], persistent := false, revived := false }

/-- Note a packet that has left the flight; the last 64 are kept for a late acknowledgement. -/
def retire (packet : InFlight) (cause : Cause) : LossDetector :=
  let writtenOff := d.writtenOff ++ [⟨packet.number, cause⟩]
  { d with
    losses := if cause = .lost then d.losses + 1 else d.losses
    writtenOff := writtenOff.drop (writtenOff.length - 64)
    gone := d.gone ++ [⟨packet.number, packet.bytes, packet.sent, cause⟩] }

/-- The oldest of a flight past the bound leave as overflowed. -/
def shed : List InFlight → LossDetector → LossDetector
  | [], d => { d with sent := [] }
  | oldest :: rest, d =>
    if maxTracked < rest.length + 1 then shed rest (d.retire oldest .overflowed)
    else { d with sent := oldest :: rest }

def sealed (packet : InFlight) : LossDetector := shed (d.sent ++ [packet]) d.clear

/-- Walk the flight from the oldest: lost, silent, or the first that is neither. The flag
says whether any was given up in silence. -/
def giveUp (now lossDelay probeTimeout : ℕ) : List InFlight → LossDetector → Bool → LossDetector × Bool
  | [], d, abandoned => ({ d with sent := [] }, abandoned)
  | oldest :: rest, d, abandoned =>
    let age := now - oldest.sent
    let overtaken := d.largestAcked.any fun largest => oldest.number + packetThreshold ≤ largest
    let stale := d.largestAcked.any (fun largest => oldest.number < largest) && decide (lossDelay ≤ age)
    if overtaken || stale then giveUp now lossDelay probeTimeout rest (d.retire oldest .lost) abandoned
    else if probeTimeout ≤ age then
      let since := d.silentSince.getD oldest.sent
      -- A run long enough to be the path being gone, and only once.
      let gone := !d.answered && d.rtt.smoothed.isSome &&
        decide (d.rtt.persistentCongestionPeriod ≤ oldest.sent - since)
      let d := { d with
        silentSince := some since
        persistent := d.persistent || gone
        answered := d.answered || gone }
      giveUp now lossDelay probeTimeout rest (d.retire oldest .silent) true
    else ({ d with sent := oldest :: rest }, abandoned)

def detect (now : ℕ) : LossDetector :=
  let (d, abandoned) := giveUp now d.rtt.lossDelay d.probeTimeout d.sent d false
  if abandoned then { d with silence := d.silence + 1 } else d

/-- Walk the flight down from `index` to `start`, taking out what the acknowledgement
names: what is left of the flight, and what was named, oldest first. -/
def takeCovered (ack : Ack) (start : ℕ) : ℕ → List InFlight → List InFlight × List InFlight
  | 0, sent => (sent, [])
  | index + 1, sent =>
    if index + 1 ≤ start then (sent, [])
    else match sent[index]? with
      | none => (sent, [])
      | some packet =>
        if ack.covers packet.number then
          let (left, arrived) := takeCovered ack start index (sent.eraseIdx index)
          (left, arrived ++ [packet])
        else takeCovered ack start index sent

/-- A packet given up and now named was a mistake; one that overflowed moved nothing. -/
def countSpurious (ack : Ack) : LossDetector :=
  let writtenOff := d.writtenOff.dropWhile fun written => written.number < ack.largest - 64
  let named := writtenOff.filter fun written => ack.covers written.number
  { d with
    writtenOff := writtenOff.filter fun written => !ack.covers written.number
    spurious := d.spurious + named.length
    revived := d.revived || named.any fun written => written.cause ≠ .overflowed }

/-- Anything the peer says ends a silence. -/
def heard (largest : ℕ) : LossDetector :=
  { d.clear with
    silence := 0
    silentSince := none
    answered := false
    largestAcked := some ((d.largestAcked.map fun seen => max seen largest).getD largest) }

/-- The flight ascends by number, so the bounds of the walk are where a number passes the
largest named and where it reaches the last the map can name. -/
def takeNamed (ack : Ack) : LossDetector :=
  let stop := (d.sent.takeWhile fun packet => packet.number ≤ ack.largest).length
  let start := (d.sent.takeWhile fun packet => packet.number < ack.largest - 64).length
  let (sent, arrived) := takeCovered ack start stop d.sent
  { d with sent, arrived }

/-- The round trip is sampled from the largest alone, if it was in flight. -/
def measured (ack : Ack) (now : ℕ) : LossDetector :=
  match d.arrived.find? fun packet => packet.number = ack.largest with
  | none => d
  | some packet => { d with rtt := d.rtt.sample (now - packet.sent) ack.delay now }

def acknowledged (ack : Ack) (now : ℕ) : LossDetector :=
  ((((d.heard ack.largest).takeNamed ack).countSpurious ack).measured ack now).detect now

def expire (now : ℕ) : LossDetector := d.clear.detect now

def deadline : Option ℕ :=
  d.sent.head?.map fun oldest =>
    let timeout := oldest.sent + d.probeTimeout
    if d.largestAcked.any fun largest => oldest.number < largest then min timeout (oldest.sent + d.rtt.lossDelay)
    else timeout

end LossDetector

end Braid.Dgram
