import Braid.Commands.Outbound
import Braid.Foundation.Utf8

/-! The sequences a sync episode would swallow. While some client is sent whole screens the output is
scanned for the operating system commands no screen restates: titles, the working directory, links, the
clipboard, prompt marks and notifications. A sequence is recorded under the mark it is numbered with; a
newer title supersedes an older one, and the oldest entries go when the log is full. -/

namespace Braid.Session

open Foundation

def oscScanLimit : ℕ := 4096

def deferredEntries : ℕ := 16

def deferredBytes : ℕ := 4096

def escByte : UInt8 := 0x1b

def belByte : UInt8 := 0x07

inductive Osc where
  | ground
  | escape
  | body
  | bodyEscape
  deriving DecidableEq

inductive DeferredKind where
  | sticky (number : ℕ)
  | event
  deriving DecidableEq

/-- A decimal number with an optional plus sign. It has three characters at most, so it is in range. -/
def parseNumber (head : Text) : Option ℕ :=
  let digits := match head with
    | '+' :: digits => digits
    | digits => digits
  if digits.isEmpty || !digits.all Char.isDigit then none
  else some (digits.foldl (fun n digit => 10 * n + (digit.toNat - 48)) 0)

/-- A clipboard write names a selection and a payload; the payload of a read is a question mark. -/
def clipboardWrite (body : Text) : Option DeferredKind :=
  match ((body.dropWhile (· ≠ ';')).drop 1).dropWhile (· ≠ ';') with
  | [] => none
  | _ :: data => if data = ['?'] then none else some .event

def deferredCommand (body : Text) : Option DeferredKind :=
  let head := body.takeWhile (· ≠ ';')
  if head.isEmpty || 3 < Text.byteLen head then none
  else (parseNumber head).bind fun number =>
    if number = 0 ∨ number = 1 ∨ number = 2 ∨ number = 7 then some (.sticky number)
    else if number = 8 ∨ number = 9 ∨ number = 133 ∨ number = 777 then some .event
    else if number = 52 then clipboardWrite body
    else none

/-- `held` is what the scanner has of a body, and `truncated` that there was more of it. -/
structure DeferredOsc where
  scan : Osc
  held : List UInt8
  truncated : Bool
  entries : List (ℕ × Text)
  bytes : ℕ
  next : ℕ
  deriving DecidableEq

namespace DeferredOsc

def new : DeferredOsc := ⟨.ground, [], false, [], 0, 0⟩

variable (d : DeferredOsc)

def mark : ℕ := d.next

/-- What was recorded at a mark or after it. -/
def since (start : ℕ) : List (ℕ × Text) := d.entries.filter fun entry => start ≤ entry.1

/-- How many entries fit, counted from the front. -/
def fitting (budget : ℕ) : List (ℕ × Text) → ℕ → ℕ
  | [], _ => 0
  | entry :: rest, total =>
    if total + (entry.2.byteLen + 2) ≤ budget then fitting budget rest (total + (entry.2.byteLen + 2)) + 1 else 0

/-- The newest that fit, in order. -/
def carry (start budget : ℕ) : List (ℕ × Text) :=
  let owed := d.since start
  owed.drop (owed.length - fitting budget owed.reverse 0)

def forgetBefore (mark : ℕ) : DeferredOsc :=
  { d with
    entries := d.entries.dropWhile fun entry => entry.1 < mark
    bytes := d.bytes - ((d.entries.takeWhile fun entry => entry.1 < mark).map fun entry => entry.2.byteLen).sum }

def push (byte : UInt8) : DeferredOsc :=
  if d.held.length < oscScanLimit then { d with held := d.held ++ [byte] } else { d with truncated := true }

def abandon : DeferredOsc := { d with scan := .ground, held := [], truncated := false }

/-- Drop the oldest entries while the log is over its bounds. -/
def evict : List (ℕ × Text) → ℕ → List (ℕ × Text) × ℕ
  | [], bytes => ([], bytes)
  | entry :: rest, bytes =>
    if deferredEntries < (entry :: rest).length ∨ deferredBytes < bytes then evict rest (bytes - entry.2.byteLen)
    else (entry :: rest, bytes)

def record (command : DeferredKind) (body : Text) : DeferredOsc :=
  let isStale (entry : ℕ × Text) : Bool := match command with
    | .sticky number => deferredCommand entry.2 = some (.sticky number)
    | .event => false
  let freed := ((d.entries.filter isStale).map fun entry => entry.2.byteLen).sum
  let kept := d.entries.filter (!isStale ·)
  let (entries, bytes) := evict (kept ++ [(d.next, body)]) (d.bytes - freed + body.byteLen)
  { d with entries, bytes, next := d.next + 1 }

def finish : DeferredOsc :=
  let body := d.held
  let truncated := d.truncated
  let d := d.abandon
  if truncated then d
  else match fromUtf8 body with
    | none => d
    | some body =>
      if Commands.hasControl body then d
      else match deferredCommand body with
        | none => d
        | some command => d.record command body

def step (byte : UInt8) : DeferredOsc :=
  match d.scan with
  | .ground => if byte = escByte then { d with scan := .escape } else d
  | .escape =>
    if byte = 0x5d then { d with scan := .body, held := [], truncated := false }
    else if byte = escByte then d
    else { d with scan := .ground }
  | .body =>
    if byte = belByte then d.finish
    else if byte = escByte then { d with scan := .bodyEscape }
    else if byte ≤ 0x1f then d.abandon
    else d.push byte
  | .bodyEscape =>
    if byte = 0x5c then d.finish
    else if byte = escByte then d
    else d.abandon

/-- Between sequences the scan skips to the next escape. Every round consumes a byte. -/
def feedRounds : ℕ → DeferredOsc → List UInt8 → DeferredOsc
  | 0, d, _ => d
  | _ + 1, d, [] => d
  | rounds + 1, d, byte :: rest =>
    if d.scan = .ground then
      match (byte :: rest).dropWhile (· ≠ escByte) with
      | [] => d
      | _ :: behind => feedRounds rounds { d with scan := .escape } behind
    else feedRounds rounds (d.step byte) rest

def feed (bytes : List UInt8) : DeferredOsc := feedRounds bytes.length d bytes

end DeferredOsc

end Braid.Session
