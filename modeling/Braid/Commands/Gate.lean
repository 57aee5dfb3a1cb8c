import Braid.Commands.Outbound

/-! The session's side of a client's command stream. The gate holds the number the next
command must have; a command that has it is applied, one below it is acknowledged again
and one above it is a gap, which costs a stream its attachment and is waited out on
datagrams. The stream outlives the attachment it is read through. `applied` and `acks`
record the commands the gate was advanced over and the acknowledgements that were sent. -/

namespace Braid.Commands

inductive Admission where
  | fresh
  | duplicate
  | gap
  deriving DecidableEq

structure CommandGate where
  next : ℕ

namespace CommandGate

def new : CommandGate := ⟨firstSeq⟩

def check (g : CommandGate) (seq : ℕ) : Admission :=
  if seq = g.next then .fresh else if seq < g.next then .duplicate else .gap

def commit (g : CommandGate) : CommandGate := ⟨nextSeq g.next⟩

def admit_ (g : CommandGate) (seq : ℕ) : CommandGate × Admission :=
  (if g.check seq = .fresh then g.commit else g, g.check seq)

end CommandGate

def echoHistory : ℕ := 64

/-- Commands the application has been given, and when. -/
structure EchoAck where
  pending : List (ℕ × ℕ)

def EchoAck.recorded (echo : EchoAck) (seq now : ℕ) : EchoAck :=
  ⟨(if echo.pending.length = echoHistory then echo.pending.tail else echo.pending) ++ [(seq, now)]⟩

structure ClientStream where
  gate : CommandGate
  highestCommand : Option ℕ
  echo : EchoAck

namespace ClientStream

def new : ClientStream := ⟨.new, none, ⟨[]⟩⟩

def check (s : ClientStream) (seq : ℕ) : Admission := s.gate.check seq

def admit_ (s : ClientStream) (seq : ℕ) : ClientStream × Admission :=
  ({ s with gate := (s.gate.admit_ seq).1 }, (s.gate.admit_ seq).2)

def applied (s : ClientStream) (seq now : ℕ) : ClientStream :=
  { s with gate := s.gate.commit, echo := s.echo.recorded seq now }

def acknowledged (s : ClientStream) (seq : ℕ) : ClientStream × Option ℕ :=
  let highest := if s.highestCommand.all (· < seq) then some seq else s.highestCommand
  ({ s with highestCommand := highest }, highest)

end ClientStream

/-- How a link is framed, which is how it is carried. -/
abbrev Framing := Carriage

/-- One client's stream in a session, and the link it is attached through. -/
structure Session where
  stream : ClientStream
  terminal : Bool
  attached : Option (ℕ × Framing)
  applied : List ClientMessage
  acks : List ℕ

/-- What the terminal does with a command: whether it takes the bytes, fits the grid, paints. -/
structure Effect where
  writes : Bool
  regrids : Bool
  repaints : Bool

namespace Session

def new (terminal : Bool) : Session := ⟨.new, terminal, none, [], []⟩

variable (s : Session)

def attach (link : ℕ) (framing : Framing) : Session :=
  { s with attached := some (link, framing), acks := s.acks ++ s.stream.highestCommand.toList }

def dropAttachment : Session := { s with attached := none }

def reject : Session := s.dropAttachment

variable (framing : Framing)

def gap : Session :=
  match framing with
  | .stream => s.reject
  | .datagram => s

def ack (seq : ℕ) : Session :=
  let (stream, highest) := s.stream.acknowledged seq
  { s with stream, acks := s.acks ++ highest.toList }

variable (message : ClientMessage)

/-- Admit a command and do `effect` if it is fresh; one that was applied is acknowledged again. -/
def gated (effect : Session → Session) : Session :=
  let (stream, admission) := s.stream.admit_ message.seq
  match admission with
  | .fresh => effect { s with stream, applied := s.applied ++ [message] }
  | .duplicate => { s with stream }.ack message.seq
  | .gap => { s with stream }.gap framing

/-- Advance the gate over a command this session cannot carry out. -/
def ignore : Session :=
  s.gated framing message fun s => s.ack message.seq

def input (effect : Effect) (now : ℕ) : Session :=
  match s.stream.check message.seq with
  | .fresh =>
    if effect.writes then
      { s with stream := s.stream.applied message.seq now, applied := s.applied ++ [message] }.ack message.seq
    else s.reject
  | .duplicate => s.ack message.seq
  | .gap => s.gap framing

def command (s : Session) (link : ℕ) (message : ClientMessage) (effect : Effect) (now : ℕ) : Session :=
  match s.attached with
  | none => s
  | some (id, framing) =>
    if id ≠ link then s
    else match message.command with
      | .input _ => if s.terminal then s.input framing message effect now else s.ignore framing message
      | .resize _ => s.gated framing message fun s => if effect.regrids then s.ack message.seq else s.reject
      | .requestRepaint =>
        if s.terminal then s.gated framing message fun s => if effect.repaints then s.ack message.seq else s.reject
        else s.ignore framing message
      | .forwardOpen _ _ => s.gated framing message fun s => s.ack message.seq

/-! ### What a command does to the gate -/

variable {s : Session} {message : ClientMessage}

/-- The gate stands behind the commands applied. -/
def Stands (s : Session) : Prop := s.stream.gate.next = min (s.applied.length + 1) maxSeq

/-- Nothing is applied, or the one command the gate waits for. -/
def Advances (s s' : Session) (message : ClientMessage) : Prop :=
  (s'.applied = s.applied ∧ s'.stream.gate = s.stream.gate) ∨
    (message.seq = s.stream.gate.next ∧ s'.applied = s.applied ++ [message] ∧ s'.stream.gate = s.stream.gate.commit)

theorem Advances.same {s₁ s' : Session} (h : s.Advances s₁ message) (happlied : s'.applied = s₁.applied)
    (hgate : s'.stream.gate = s₁.stream.gate) : s.Advances s' message := by
  unfold Advances
  rw [happlied, hgate]
  exact h

theorem advances_refl (s : Session) (message : ClientMessage) : s.Advances s message := .inl ⟨rfl, rfl⟩

theorem check_fresh {g : CommandGate} {seq : ℕ} (h : g.check seq = .fresh) : seq = g.next := by
  unfold CommandGate.check at h
  split_ifs at h
  assumption

theorem advances_gap : s.Advances (s.gap framing) message := by
  cases framing <;> exact .inl ⟨rfl, rfl⟩

theorem advances_gated {effect : Session → Session}
    (heffect : ∀ s, (effect s).applied = s.applied ∧ (effect s).stream.gate = s.stream.gate) :
    s.Advances (s.gated framing message effect) message := by
  unfold gated ClientStream.admit_ CommandGate.admit_
  cases hcheck : s.stream.gate.check message.seq with
  | fresh =>
    refine .inr ⟨check_fresh hcheck, ?_, ?_⟩
    · exact (heffect _).1
    · exact (heffect _).2
  | duplicate => exact .inl ⟨rfl, rfl⟩
  | gap => exact (advances_gap framing).same rfl (by cases framing <;> rfl)

theorem advances_input (effect : Effect) (now : ℕ) :
    s.Advances (s.input framing message effect now) message := by
  unfold input ClientStream.check
  cases hcheck : s.stream.gate.check message.seq with
  | fresh =>
    dsimp only
    split
    · exact .inr ⟨check_fresh hcheck, rfl, rfl⟩
    · exact .inl ⟨rfl, rfl⟩
  | duplicate => exact .inl ⟨rfl, rfl⟩
  | gap => exact advances_gap framing

theorem advances_command (s : Session) (link : ℕ) (message : ClientMessage) (effect : Effect) (now : ℕ) :
    s.Advances (s.command link message effect now) message := by
  have hack : ∀ s : Session, (s.ack message.seq).applied = s.applied ∧
      (s.ack message.seq).stream.gate = s.stream.gate := fun s => ⟨rfl, rfl⟩
  have htry : ∀ (taken : Bool) (s : Session), (if taken then s.ack message.seq else s.reject).applied = s.applied ∧
      (if taken then s.ack message.seq else s.reject).stream.gate = s.stream.gate := fun taken s => by
    cases taken <;> exact ⟨rfl, rfl⟩
  unfold command
  split
  · exact advances_refl s message
  · split
    · exact advances_refl s message
    · split
      · split
        · exact advances_input _ effect now
        · exact advances_gated _ hack
      · exact advances_gated _ (htry effect.regrids)
      · split
        · exact advances_gated _ (htry effect.repaints)
        · exact advances_gated _ hack
      · exact advances_gated _ hack

theorem Stands.advances {s' : Session} (h : s.Stands) (hadv : s.Advances s' message) : s'.Stands := by
  unfold Stands at h ⊢
  obtain ⟨happlied, hgate⟩ | ⟨-, happlied, hgate⟩ := hadv
  · rw [happlied, hgate, h]
  · rw [happlied, hgate, CommandGate.commit, nextSeq, h, List.length_append, List.length_singleton]
    dsimp only
    omega

end Session

end Braid.Commands
