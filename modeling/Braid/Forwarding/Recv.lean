import Braid.Foundation.SortedMap
import Braid.Forwarding.Send

/-! The half of a forwarded stream that owes a socket. Bytes in order wait in
`ready`, segments past the gap at `next` wait in `held`, and the peer's end
occupies the offset after its last byte. The buffers kept for reuse (`spare`
and `runs`) hold nothing between calls and are left out. -/

namespace Braid.Forwarding

open Foundation

/-- Segments held past a gap before the receiver stops holding any. -/
def maxHeldSegments : ℕ := 256

def endOf (off : ℕ) (bytes : List UInt8) : ℕ := min (off + bytes.length) u64Max

structure Receiver where
  next : ℕ
  ready : List UInt8
  held : SortedMap ℕ (List UInt8)
  heldBytes : ℕ
  fin : Option ℕ
  finished : Bool
  ackOwed : Bool
  deriving DecidableEq

namespace Receiver

def new : Receiver where
  next := 0
  ready := []
  held := SortedMap.empty
  heldBytes := 0
  fin := none
  finished := false
  ackOwed := false

variable (r : Receiver)

/-- The two slices of a ring that wraps after `wrap` bytes. -/
def readable (wrap : ℕ) : List UInt8 × List UInt8 :=
  (r.ready.take wrap, r.ready.drop wrap)

def readableLen : ℕ := r.ready.length

/-- Room past `next`: what the peer may have in flight. -/
def window : ℕ := forwardWindow - (r.ready.length + r.heldBytes)

def admits (len : ℕ) : Bool := r.ready.length + len ≤ forwardWindow

/-- An acknowledgement is owed when a whole segment fits again. -/
def consume (n : ℕ) : Receiver :=
  let before := r.window
  let r := { r with ready := r.ready.drop (min n r.ready.length) }
  if before < chunkWindow ∧ chunkWindow ≤ r.window then { r with ackOwed := true } else r

/-- A run as the gap from `cursor` and its length; one that does not fit the
relative form is dropped. Returns the runs and where the next gap starts. -/
def pushRun (runs : List SackRun) (cursor : ℕ) (run : ℕ × ℕ) : List SackRun × ℕ :=
  let gap := run.1 - cursor
  let len := run.2 - run.1
  if h : (0 < gap ∧ gap < 4294967296) ∧ (0 < len ∧ len < 4294967296) then
    (runs ++ [⟨⟨gap, h.1⟩, ⟨len, h.2⟩⟩], run.2)
  else (runs, cursor)

/-- Walk the held segments upwards, merging those that overlap or abut the
`open` run, and stop at the bound on runs. -/
def walkRuns : List (ℕ × List UInt8) → List SackRun → ℕ → Option (ℕ × ℕ) → List SackRun
  | [], runs, cursor, some run => if runs.length < maxAckRuns then (pushRun runs cursor run).1 else runs
  | [], runs, _, none => runs
  | (off, held) :: rest, runs, cursor, none =>
    if runs.length = maxAckRuns then runs else walkRuns rest runs cursor (some (off, endOf off held))
  | (off, held) :: rest, runs, cursor, some (start, seen) =>
    if off ≤ seen then
      if runs.length = maxAckRuns then runs
      else walkRuns rest runs cursor (some (start, max seen (endOf off held)))
    else
      let pushed := pushRun runs cursor (start, seen)
      if pushed.1.length = maxAckRuns then pushed.1
      else walkRuns rest pushed.1 pushed.2 (some (off, endOf off held))

theorem pushRun_length_le (runs : List SackRun) (cursor : ℕ) (run : ℕ × ℕ) :
    (pushRun runs cursor run).1.length ≤ runs.length + 1 := by
  simp only [pushRun]
  split_ifs <;> simp

theorem walkRuns_length_le (held : List (ℕ × List UInt8)) (runs : List SackRun) (cursor : ℕ)
    (run : Option (ℕ × ℕ)) (h : runs.length < maxAckRuns) :
    (walkRuns held runs cursor run).length ≤ maxAckRuns := by
  induction held generalizing runs cursor run with
  | nil =>
    cases run with
    | none => exact h.le
    | some run =>
      have := pushRun_length_le runs cursor run
      simp only [walkRuns, if_pos h]
      omega
  | cons e rest ih =>
    cases run with
    | none =>
      simp only [walkRuns, if_neg h.ne]
      exact ih _ _ _ h
    | some run =>
      have hpush := pushRun_length_le runs cursor (run.1, run.2)
      simp only [walkRuns, if_neg h.ne]
      split_ifs
      · exact ih _ _ _ h
      · omega
      · exact ih _ _ _ (by omega)

def heldRuns : SackRuns :=
  ⟨walkRuns r.held.entries [] r.next none, walkRuns_length_le _ _ _ _ (by decide)⟩

def pollAck : Receiver × Option Ack :=
  if r.ackOwed then ({ r with ackOwed := false }, some ⟨r.next, r.window, r.heldRuns⟩) else (r, none)

def heldPast (stop : ℕ) : Bool := r.held.entries.any fun e => stop < endOf e.1 e.2

/-- Keep a segment past the gap. It is refused rather than truncated, and it
replaces one at the same offset only when it is longer. -/
def hold (off : ℕ) (bytes : List UInt8) : Receiver :=
  if bytes = [] ∨ maxHeldSegments ≤ r.held.size ∨ min (r.next + forwardWindow) u64Max ≤ off ∨
      forwardWindow < r.ready.length + r.heldBytes + bytes.length then r
  else
    let entry := (r.held.get? off).getD []
    if entry.length < bytes.length then
      { r with heldBytes := r.heldBytes + bytes.length - entry.length, held := r.held.insert off bytes }
    else r

def append (off : ℕ) (bytes : List UInt8) : Receiver :=
  { r with ready := r.ready ++ bytes.drop (r.next - off), next := endOf off bytes }

def popLowest (bytes : List UInt8) : Receiver :=
  { r with held := r.held.dropLowest 1, heldBytes := r.heldBytes - bytes.length }

/-- At most `n` turns of the loop that places held segments at or below `next`. -/
def drainTurns : ℕ → Receiver → Receiver
  | 0, r => r
  | n + 1, r =>
    match r.held.entries with
    | [] => r
    | (off, bytes) :: _ =>
      if r.next < off then r
      else
        let r := r.popLowest bytes
        drainTurns n (if r.next < endOf off bytes then r.append off bytes else r)

/-- Each turn takes a segment out, so as many turns as segments end the loop. -/
def drainHeld : Receiver := drainTurns r.held.size r

/-- The end occupies its own offset, so `next` moves past it. -/
def settleEnd : Receiver :=
  if r.finished = false ∧ r.fin = some r.next then { r with next := r.next + 1, finished := true } else r

/-- Check an arrival that ends at `stop` against the end known, or record the
end it declares. -/
def declareEnd (stop : ℕ) (fin : Bool) : Except Contradiction Receiver :=
  match r.fin with
  | some known =>
    if known < stop ∨ (fin = true ∧ stop ≠ known) then .error .contradiction else .ok r
  | none =>
    if fin = true then
      if stop < r.next ∨ r.heldPast stop = true then .error .contradiction
      else .ok { r with fin := some stop }
    else .ok r

/-- Hold a segment past the gap, or append it and what it was holding up. -/
def place (off : ℕ) (bytes : List UInt8) : Receiver :=
  if r.next < endOf off bytes then
    if r.next < off then r.hold off bytes
    -- Moving `next` past bytes this side dropped would tell the peer they arrived.
    else if r.admits (bytes.drop (r.next - off)).length then (r.append off bytes).drainHeld
    else r
  else r

def onData (off : ℕ) (fin : Bool) (bytes : List UInt8) :
    Except Contradiction Receiver := do
  let r ← r.declareEnd (endOf off bytes) fin
  return ({ r with ackOwed := true }.place off bytes).settleEnd

end Receiver

end Braid.Forwarding
