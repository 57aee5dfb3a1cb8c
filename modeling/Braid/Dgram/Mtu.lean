import Braid.Dgram.Endpoint

/-! What size datagram the path carries, found by trying: a search over four fixed widths,
each asked with a padded probe. Losses above the base size only raise the question whether
the path has narrowed; probes at the width in force answer it. -/

namespace Braid.Dgram

def baseDatagram : ℕ := 1200

def maxDatagram : ℕ := 9000

def candidates : List ℕ := [1400, 1500, 4000, 8900]

def candidateLosses : ℕ := 2

def pmtuBlackholeLosses : ℕ := 3

def pmtuBlackholeSilences : ℕ := 2

def confirmLosses : ℕ := 2

def probeSpacing : ℕ := 1000000000

def cooldown : ℕ := 60000000000

def searchRetry : ℕ := 60000000000

/-- Whether a probe that comes back is evidence of anything. -/
inductive Fragmentation where
  | refused
  | permitted
  deriving DecidableEq

inductive Search where
  /-- Nothing has proved the path carries anything yet. -/
  | unproven
  | asking (candidate : ℕ) (outstanding : Option ℕ) (lost : ℕ) (due : Option ℕ)
  /-- Nothing above the size in force is left, or this connection may never probe. -/
  | settled
  | confirming (due : ℕ) (outstanding : Option ℕ) (lost : ℕ)
  /-- The path stopped carrying a size it had accepted. -/
  | cooling (until_ : ℕ)
  deriving DecidableEq

structure Mtu where
  plpmtu : ℕ
  search : Search
  next : ℕ
  blackhole : ℕ
  silences : ℕ
  suspect : ℕ
  smallArrived : Bool
  fragmentation : Fragmentation
  deriving DecidableEq

namespace Mtu

def new (fragmentation : Fragmentation) : Mtu where
  plpmtu := baseDatagram
  search := match fragmentation with
    | .refused => .unproven
    | .permitted => .settled
  next := 0
  blackhole := 0
  silences := 0
  suspect := 2 ^ 64 - 1
  smallArrived := false
  fragmentation

variable (m : Mtu)

def datagram : ℕ := m.plpmtu

/-- The first candidate above the size in force, from an index on, and the index it is at. -/
def seek (plpmtu : ℕ) : ℕ → List ℕ → ℕ × Option ℕ
  | next, [] => (next, none)
  | next, candidate :: rest => if plpmtu < candidate then (next, some candidate) else seek plpmtu (next + 1) rest

def begin_ : Mtu :=
  let (next, found) := seek m.plpmtu m.next (candidates.drop m.next)
  { m with
    next
    search := match found with
      | some candidate => .asking candidate none 0 none
      | none => .settled }

def isConfirming : Search → Bool
  | .confirming .. => true
  | _ => false

def confirming : Bool := isConfirming m.search

def proven : Mtu := if m.search = .unproven then m.begin_ else m

def migrated : Mtu := new m.fragmentation

def cooled (now : ℕ) : Mtu :=
  match m.search with
  | .cooling until_ => if until_ ≤ now then m.begin_ else m
  | _ => m

/-- The size to probe with now. A confirmation is charged on being offered. -/
def poll (now : ℕ) : Mtu × Option ℕ :=
  let m := m.cooled now
  match m.search with
  | .asking candidate none _ due => (m, if due.all (· ≤ now) then some candidate else none)
  | .confirming due none lost =>
    if due ≤ now then ({ m with search := .confirming (now + probeSpacing) none lost }, some m.plpmtu) else (m, none)
  | _ => (m, none)

def probing (number : ℕ) : Mtu :=
  match m.search with
  | .asking candidate _ lost due => { m with search := .asking candidate (some number) lost due }
  | .confirming due _ lost => { m with search := .confirming due (some number) lost }
  | _ => m

def deadline : Option ℕ :=
  match m.search with
  | .cooling until_ => some until_
  | .asking _ none _ due => due
  | .confirming due none _ => some due
  | _ => none

def withdraw : Mtu :=
  let m := { m with blackhole := 0, silences := 0, suspect := 2 ^ 64 - 1, smallArrived := false }
  if m.confirming then m.begin_ else m

/-- Whether the packet is the answer to the probe outstanding; an answer to a search is the new size. -/
def answer (number : ℕ) : Mtu × Bool :=
  match m.search with
  | .asking candidate (some outstanding) _ _ =>
    if outstanding = number then ({ m with plpmtu := min candidate maxDatagram, next := m.next + 1 }, true)
    else (m, false)
  | .confirming _ (some outstanding) _ => (m, decide (outstanding = number))
  | _ => (m, false)

/-- A packet arrived: the probe's answer, or evidence that its size is carried. -/
def acknowledged (number bytes : ℕ) : Mtu :=
  let m := if bytes ≤ baseDatagram then { m with smallArrived := true } else m
  let (m, answered) := m.answer number
  let m := if answered || decide (m.suspect ≤ bytes) then m.withdraw else m
  if answered then m.begin_ else m

def narrowed (carries now : ℕ) : Mtu :=
  { m with
    plpmtu := carries
    blackhole := 0
    suspect := 2 ^ 64 - 1
    smallArrived := false
    next := 0
    search := .cooling (now + cooldown) }

def confirmedLost (lost now : ℕ) : Mtu :=
  if lost < confirmLosses then { m with search := .confirming (now + probeSpacing) none lost }
  else if !m.smallArrived then m.withdraw
  else m.narrowed baseDatagram now

/-- Whether the packet was the probe outstanding, and what its going says. -/
def probeGone (number now : ℕ) : Mtu × Bool :=
  match m.search with
  | .asking candidate (some outstanding) lost _ =>
    if outstanding = number then
      ({ m with search :=
        if candidateLosses ≤ lost + 1 then .cooling (now + searchRetry)
        else .asking candidate none (lost + 1) (some (now + probeSpacing)) }, true)
    else (m, false)
  | .confirming _ (some outstanding) lost =>
    if outstanding = number then (m.confirmedLost (lost + 1) now, true) else (m, false)
  | _ => (m, false)

def oversize (bytes : ℕ) : Bool := decide (baseDatagram < bytes) && decide (baseDatagram < m.plpmtu)

/-- One more piece of evidence that this path stopped carrying `bytes`. -/
def suspected (bytes now : ℕ) : Mtu :=
  if !m.oversize bytes then m
  else
    let m := { m with blackhole := m.blackhole + 1, suspect := min m.suspect bytes }
    if m.blackhole < pmtuBlackholeLosses ∨ m.smallArrived = false then m
    else if m.confirming then m
    else { m with search := .confirming now none 0 }

def lost (number bytes now : ℕ) : Mtu :=
  match m.probeGone number now with
  | (m, true) => m
  | (m, false) => m.suspected bytes now

def silent (number bytes now : ℕ) : Mtu :=
  match m.probeGone number now with
  | (m, true) => m
  | (m, false) =>
    if !m.oversize bytes then m
    else
      let m := { m with silences := m.silences + 1 }
      if m.silences < pmtuBlackholeSilences then m else { m with silences := 0 }.suspected bytes now

def forgotten (number now : ℕ) : Mtu := (m.probeGone number now).1

/-- The kernel refused a datagram and named the width the path has; never upwards. -/
def refused (carries now : ℕ) : Mtu :=
  let carries := max baseDatagram (min carries maxDatagram)
  if m.plpmtu ≤ carries then m else m.narrowed carries now

end Mtu

end Braid.Dgram
