import Mathlib.Algebra.Group.Nat.Defs
import Mathlib.Order.Lattice

/-! The packing of a datagram's payload: a tag, and then the payload stored or deflated. The
payload is packed behind a prefix of a buffer that is used again and again, and deflated only
into less room than storing it takes. What is inflated is offered room that doubles up to a
limit. The codec is a parameter: it deflates all it is given in one call, and inflates in
calls that see what the buffer holds so far. -/

namespace Braid.Proto

inductive DecodeError where
  | truncated
  | invalidField
  deriving DecidableEq

namespace Wire

inductive DeflateStatus where
  | badParam
  | putBufFailed
  | okay
  | done
  deriving DecidableEq

inductive InflateStatus where
  | failedCannotMakeProgress
  | badParam
  | adler32Mismatch
  | failed
  | done
  | needsMoreInput
  | hasMoreOutput
  deriving DecidableEq

structure Codec where
  State : Type
  init : State
  /-- The payload into so much room: the status, how much was read, and what was written. -/
  compress : List UInt8 → ℕ → DeflateStatus × ℕ × List UInt8
  /-- The input, what the buffer holds and how long it is: the status, how much was read, and
  what was written behind what was there. -/
  decompress : State → List UInt8 → List UInt8 → ℕ → State × InflateStatus × ℕ × List UInt8

def tagStored : UInt8 := 0

def tagDeflate : UInt8 := 1

/-- A payload below this is not deflated. -/
def deflateFloor : ℕ := 256

def inflateGuess : ℕ := 1024

def inflateRatio : ℕ := 8

/-- How long the inflated buffer stays between calls. -/
def inflateRetain : ℕ := 128 * 1024

def saturatingMul (a b : ℕ) : ℕ := min (a * b) (2 ^ 64 - 1)

/-- Room for `len` bytes: the buffer grows and is never cleared. -/
def roomFor (out : List UInt8) (len : ℕ) : List UInt8 :=
  if out.length < len then out ++ List.replicate (len - out.length) 0 else out

/-- Bytes written over a part of the buffer. -/
def overwrite (out : List UInt8) (at_ : ℕ) (bytes : List UInt8) : List UInt8 :=
  out.take at_ ++ bytes ++ out.drop (at_ + bytes.length)

def storeFrom (payload out : List UInt8) (at_ : ℕ) : List UInt8 := out.take at_ ++ [tagStored] ++ payload

/-- The room is a byte less than storing would take, so that what did not fit did not win. -/
def deflateInto (z : Codec) (payload out : List UInt8) (at_ : ℕ) : List UInt8 × Bool :=
  let out := overwrite (roomFor out (at_ + payload.length)) at_ [tagDeflate]
  let (status, read, written) := z.compress payload (payload.length - 1)
  let out := overwrite out (at_ + 1) written
  if status = .done ∧ read = payload.length then (out.take (at_ + 1 + written.length), true) else (out, false)

def packFrom (z : Codec) (payload out : List UInt8) (at_ : ℕ) : List UInt8 :=
  if deflateFloor ≤ payload.length then
    match deflateInto z payload out at_ with
    | (out, true) => out
    | (out, false) => storeFrom payload out at_
  else storeFrom payload out at_

def grown (limit : UInt64) (room : ℕ) : ℕ := min (saturatingMul room 2) limit.toNat

theorem lt_grown {limit : UInt64} {room : ℕ} (h : room < limit.toNat) (hpos : 0 < room) : room < grown limit room := by
  have hlimit := limit.toNat_lt
  unfold grown saturatingMul
  omega

/-- The calls that inflate, each with twice the room of the last. -/
def inflateLoop (z : Codec) (limit : UInt64) (state : z.State) (input out : List UInt8) (filled room : ℕ)
    (hroom : room < limit.toNat → 0 < room) : List UInt8 × Except DecodeError ℕ :=
  match z.decompress state input (out.take filled) room with
  | (state, status, read, written) =>
    let out := overwrite out filled written
    let filled := filled + written.length
    match status with
    | .done => (out, if read = input.length then .ok filled else .error .invalidField)
    | .hasMoreOutput =>
      if h : read ≤ input.length ∧ room < limit.toNat then
        inflateLoop z limit state (input.drop read) (roomFor out (grown limit room)) filled (grown limit room)
          fun _ => (hroom h.2).trans (lt_grown h.2 (hroom h.2))
      else (out, .error .invalidField)
    | _ => (out, .error .invalidField)
  termination_by limit.toNat - room
  decreasing_by
    have hlt := lt_grown h.2 (hroom h.2)
    omega

def firstRoom (limit : UInt64) (len : ℕ) : ℕ := min (max (saturatingMul len inflateRatio) inflateGuess) limit.toNat

theorem firstRoom_pos {limit : UInt64} {len : ℕ} (h : firstRoom limit len < limit.toNat) : 0 < firstRoom limit len := by
  unfold firstRoom inflateGuess at *
  omega

/-- A buffer left long by a wide payload is cut back by the next that is not. -/
def inflateInto (z : Codec) (body : List UInt8) (limit : UInt64) (out : List UInt8) : List UInt8 × Except DecodeError ℕ :=
  let room := firstRoom limit body.length
  match inflateLoop z limit z.init body (roomFor out room) 0 room firstRoom_pos with
  | (out, .ok filled) =>
    (if filled ≤ inflateRetain ∧ inflateRetain < out.length then out.take inflateRetain else out, .ok filled)
  | (out, .error error) => (out, .error error)

/-- The payload, out of the datagram if it was stored and out of the buffer if it was inflated. -/
def unpack (z : Codec) (datagram : List UInt8) (limit : UInt64) (out : List UInt8) :
    List UInt8 × Except DecodeError (List UInt8) :=
  match datagram with
  | [] => (out, .error .truncated)
  | tag :: body =>
    if tag = tagStored then (out, if limit.toNat < body.length then .error .invalidField else .ok body)
    else if tag = tagDeflate then
      match inflateInto z body limit out with
      | (out, .ok filled) => (out, .ok (out.take filled))
      | (out, .error error) => (out, .error error)
    else (out, .error .invalidField)

/-! ### What is asked of the codec -/

/-- The codec keeps to the room it is given, and inflates what it deflated: `pending` says
which state and input still stand for which bytes behind those inflated so far. A call with
room for all of them ends the stream, and one with less room says that there is more. -/
structure Codec.Lawful (z : Codec) (pending : z.State → List UInt8 → List UInt8 → List UInt8 → Prop) : Prop where
  compress_fits : ∀ payload room, (z.compress payload room).2.2.length ≤ room
  decompress_fits : ∀ state input filled room, filled.length ≤ room →
    filled.length + (z.decompress state input filled room).2.2.2.length ≤ room
  start : ∀ payload room body, z.compress payload room = (.done, payload.length, body) →
    pending z.init body [] payload
  last : ∀ state input filled rest room, pending state input filled rest → filled.length + rest.length ≤ room →
    ∃ state', z.decompress state input filled room = (state', .done, input.length, rest)
  more : ∀ state input filled rest room, pending state input filled rest → filled.length ≤ room →
    room < filled.length + rest.length → ∃ state' read written rest',
      z.decompress state input filled room = (state', .hasMoreOutput, read, written) ∧ read ≤ input.length ∧
      rest = written ++ rest' ∧ pending state' (input.drop read) (filled ++ written) rest'

end Wire

end Braid.Proto
