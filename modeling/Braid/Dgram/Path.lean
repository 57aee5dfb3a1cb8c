import Braid.Dgram.Endpoint

/-! Which address an endpoint sends to, and what has to happen before that changes. An
address that has not echoed an unguessable token is sent no more than three times what it
has sent. The address in use is proven or has a probe of its own; beside it there is at
most one candidate to replace it. Randomness is drawn from a pool, and a draw may fail.
Instants and durations are in nanoseconds. -/

namespace Braid.Dgram

def amplificationLimit : ℕ := 3

def probeInterval : ℕ := 250000000

def probeLimit : ℕ := 4

structure Token where
  bytes : List UInt8
  length_eq : bytes.length = 8

theorem Token.ext_bytes {a b : Token} (h : a.bytes = b.bytes) : a = b := by
  cases a
  cases b
  cases h
  rfl

instance : DecidableEq Token := fun a b =>
  decidable_of_iff (a.bytes = b.bytes) ⟨Token.ext_bytes, congrArg Token.bytes⟩

/-- What the system's generator gives, draw by draw. -/
structure Entropy where
  pool : ℕ → Option Token
  drawn : ℕ

def Entropy.draw (s : Entropy) : Entropy × Option Token := ({ s with drawn := s.drawn + 1 }, s.pool s.drawn)

def earliest (instants : List (Option ℕ)) : Option ℕ := (instants.filterMap id).min?

structure Probe where
  token : Option Token
  due : Option ℕ
  sent : ℕ
  credit : ℕ
  deriving DecidableEq

namespace Probe

def new : Probe := ⟨none, none, 0, 0⟩

/-- Credit only: the chance count is earned separately. -/
def earned (p : Probe) (bytes : ℕ) : Probe :=
  { p with credit := min (p.credit + min (amplificationLimit * bytes) u64Max) u64Max }

def arrived (p : Probe) (bytes now : ℕ) : Probe :=
  { p.earned bytes with sent := 0, due := some (p.due.getD now) }

def deadline (p : Probe) : Option ℕ := if p.sent < probeLimit then p.due else none

/-- The token to send now; it is drawn when the first challenge goes out. A failed draw
waits a whole interval. -/
def challenge (p : Probe) (now : ℕ) (s : Entropy) : Probe × Entropy × Option Token :=
  match p.deadline with
  | none => (p, s, none)
  | some due =>
    if now < due then (p, s, none)
    else match p.token with
      | some token => ({ p with sent := p.sent + 1, due := some (now + probeInterval) }, s, some token)
      | none =>
        let (s, fresh) := s.draw
        match fresh with
        | none => ({ p with due := some (now + probeInterval) }, s, none)
        | some token =>
          ({ p with token := some token, sent := p.sent + 1, due := some (now + probeInterval) }, s, some token)

end Probe

inductive Candidate where
  /-- Nothing contradicts the move, so its own datagrams renew its chances. -/
  | proposed (probe : Probe)
  /-- Traffic since arrived on the address in use; renewed by nothing. -/
  | retiring (probe : Probe)
  deriving DecidableEq

namespace Candidate

def probe : Candidate → Probe
  | proposed probe | retiring probe => probe

def modify (f : Probe → Probe) : Candidate → Candidate
  | proposed probe => proposed (f probe)
  | retiring probe => retiring (f probe)

def arrived (bytes now : ℕ) : Candidate → Candidate
  | proposed probe => proposed (probe.arrived bytes now)
  | retiring probe => retiring (probe.earned bytes)

def contradicted : Candidate → Candidate
  | proposed probe => retiring probe
  | retiring probe => retiring probe

end Candidate

inductive Standing where
  /-- This side dialled it, or it answered a challenge. -/
  | proven
  /-- A source address and nothing more, with the budget it has earned. -/
  | claimed (probe : Probe)
  deriving DecidableEq

structure PathValidator (Addr : Type*) where
  current : Addr
  standing : Standing
  candidate : Option (Addr × Candidate)
  deriving DecidableEq

namespace PathValidator

variable {Addr : Type*} [DecidableEq Addr]

def dialled (peer : Addr) : PathValidator Addr := ⟨peer, .proven, none⟩

def claimed (peer : Addr) : PathValidator Addr := ⟨peer, .claimed .new, none⟩

/-- A datagram that verified and was fresh came from `src`. -/
def arrived (p : PathValidator Addr) (src : Addr) (bytes now : ℕ) : PathValidator Addr :=
  if src = p.current then
    { p with
      candidate := p.candidate.map fun (at_, candidate) => (at_, candidate.contradicted)
      standing := match p.standing with
        | .proven => .proven
        | .claimed probe => .claimed (probe.arrived bytes now) }
  else
    let fresh := (src, Candidate.proposed (Probe.new.arrived bytes now))
    { p with candidate := some (match p.candidate with
      | some (at_, candidate) => if at_ = src then (at_, candidate.arrived bytes now) else fresh
      | none => fresh) }

variable (p : PathValidator Addr)

/-- The candidate's challenge, if it is due; a candidate that had all its chances is dropped. -/
def challengeCandidate (now : ℕ) (s : Entropy) :
    PathValidator Addr × Entropy × Option (Addr × Token) :=
  match p.candidate with
  | none => (p, s, none)
  | some (at_, candidate) =>
    let (probe, s, token) := candidate.probe.challenge now s
    let p := { p with candidate := some (at_, candidate.modify fun _ => probe) }
    match token with
    | some token => (p, s, some (at_, token))
    | none => (if probeLimit ≤ probe.sent then { p with candidate := none } else p, s, none)

/-- The address in use goes first when it is the unproven one. -/
def pollChallenge (now : ℕ) (s : Entropy) :
    PathValidator Addr × Entropy × Option (Addr × Token) :=
  match p.standing with
  | .proven => p.challengeCandidate now s
  | .claimed probe =>
    let (probe, s, token) := probe.challenge now s
    let p := { p with standing := .claimed probe }
    match token with
    | some token => (p, s, some (p.current, token))
    | none => p.challengeCandidate now s

def challengeDeadline : Option ℕ :=
  earliest [
    match p.standing with
      | .proven => none
      | .claimed probe => probe.deadline,
    p.candidate.bind fun (_, candidate) => candidate.probe.deadline]

def unproven (dest : Addr) : Option Probe :=
  if dest = p.current then
    match p.standing with
    | .proven => none
    | .claimed probe => some probe
  else match p.candidate with
    | some (at_, candidate) => if at_ = dest then some candidate.probe else none
    | none => none

/-- An unanswered address may be sent what it has earned and no more. -/
def maySend (dest : Addr) (bytes : ℕ) : Bool :=
  match p.unproven dest with
  | some probe => bytes ≤ probe.credit
  | none => dest = p.current

def spent (dest : Addr) (bytes : ℕ) : PathValidator Addr :=
  let spend := fun probe : Probe => { probe with credit := probe.credit - bytes }
  if dest = p.current then
    { p with standing := match p.standing with
      | .proven => .proven
      | .claimed probe => .claimed (spend probe) }
  else
    { p with candidate := p.candidate.map fun (at_, candidate) =>
      (at_, if at_ = dest then candidate.modify spend else candidate) }

def validates (src : Addr) (token : List UInt8) : Bool :=
  match p.standing with
  | .proven => false
  | .claimed probe => src = p.current ∧ probe.token.map Token.bytes = some token

/-- The address is checked as well as the token. -/
def answered (src : Addr) (token : List UInt8) :
    PathValidator Addr × Option (Answered Addr) :=
  if p.validates src token then ({ p with standing := .proven }, some .validated)
  else match p.candidate with
    | none => (p, none)
    | some (at_, candidate) =>
      if at_ ≠ src ∨ candidate.probe.token.map Token.bytes ≠ some token then (p, none)
      else (⟨src, .proven, none⟩, some (.migrated src))

end PathValidator

end Braid.Dgram
