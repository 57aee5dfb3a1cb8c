import Braid.Commands.Gate
import Braid.Commands.Numbering
import Braid.Foundation.System

/-! A client and the session its commands go to. The links between them lose, repeat and
reorder: any frame a sink ever took may arrive over its link at any time and any number
of times, and so may any acknowledgement that was sent. As long as the numbers last, a
number names one command and the gate takes them in order. -/

namespace Braid.Commands

open Foundation

structure World where
  client : ClientWriter
  session : Session

inductive Event where
  | input (bytes : List UInt8) (now : ℕ)
  | resize (size : Screen.GridSize) (now : ℕ)
  | requestRepaint (now : ℕ)
  | repaintArrived
  | forwardOpen (stream : ℕ) (target : ForwardTarget) (now : ℕ)
  | acknowledge (highest now : ℕ)
  | retransmit (now epoch : ℕ)
  | disconnect
  | reconnect (output : Sink) (now : ℕ)
  | attach (link : ℕ) (framing : Framing)
  | dropAttachment
  | arrive (link : ℕ) (message : ClientMessage) (effect : Effect) (now : ℕ)

namespace World

def next (w : World) : Event → Option World
  | .input bytes now => some { w with client := (w.client.input bytes now).1 }
  | .resize size now => some { w with client := w.client.resize size now }
  | .requestRepaint now => some { w with client := w.client.requestRepaint now }
  | .repaintArrived => some { w with client := w.client.repaintArrived }
  | .forwardOpen stream target now => some { w with client := (w.client.forwardOpen stream target now).1 }
  | .acknowledge highest now =>
    if highest ∈ w.session.acks then some { w with client := w.client.acknowledge highest now } else none
  | .retransmit now epoch => some { w with client := (w.client.retransmit now epoch).1 }
  | .disconnect => some { w with client := w.client.disconnect }
  | .reconnect output now => some { w with client := (w.client.reconnect output now).1 }
  | .attach link framing => some { w with session := w.session.attach link framing }
  | .dropAttachment => some { w with session := w.session.dropAttachment }
  | .arrive link message effect now =>
    if (link, message) ∈ w.client.state.wire then some { w with session := w.session.command link message effect now }
    else none

def system : System World Event where
  init w := ∃ output terminal, w = ⟨.new output firstSeq, .new terminal⟩
  next := next

structure InStep (w : World) : Prop where
  client : w.client.Sound
  stands : w.session.Stands
  applied : w.client.state.numbered.length < maxSeq → w.session.applied <+: w.client.state.numbered

variable {w w' : World} {event : Event}

theorem inStep_init (h : system.init w) : w.InStep := by
  obtain ⟨output, terminal, rfl⟩ := h
  refine ⟨⟨⟨?_, nofun, nofun, nofun⟩, rfl⟩, ?_, fun _ => List.prefix_rfl⟩
  · exact (min_eq_left (show 0 + 1 ≤ maxSeq by decide)).symm
  · exact (min_eq_left (show 0 + 1 ≤ maxSeq by decide)).symm

theorem InStep.client_leads (h : w.InStep) {client : ClientWriter} (hleads : w.client.Leads client) :
    InStep { w with client } :=
  ⟨hleads.1, h.stands, fun hlt => (h.applied (hleads.2.length_le.trans_lt hlt)).trans hleads.2⟩

variable {message : ClientMessage}

/-- While the numbers last, the command the gate waits for is the one behind those applied. -/
theorem InStep.advances (h : w.InStep) (hmem : message ∈ w.client.state.numbered)
    {session : Session} (hadv : w.session.Advances session message) : InStep { w with session } := by
  refine ⟨h.client, h.stands.advances hadv, fun hlt => ?_⟩
  have hfront := h.applied hlt
  obtain ⟨happlied, -⟩ | ⟨hseq, happlied, -⟩ := hadv
  · rw [happlied]
    exact hfront
  · obtain ⟨i, hi⟩ := List.getElem?_of_mem hmem
    have hil := (List.getElem?_eq_some_iff.mp hi).1
    have hnumber := h.client.tracks.seq_eq i message hi
    have hstands : w.session.stream.gate.next = min (w.session.applied.length + 1) maxSeq := h.stands
    obtain rfl : i = w.session.applied.length := by
      dsimp only at hlt
      omega
    obtain ⟨rest, hrest⟩ := hfront
    rw [happlied, ← hrest]
    rw [← hrest, List.getElem?_append_right (Nat.le_refl _), Nat.sub_self] at hi
    obtain ⟨tail, rfl⟩ : ∃ tail, rest = message :: tail := by
      cases rest with
      | nil => cases hi
      | cons head tail => exact ⟨tail, by rw [Option.some.inj hi]⟩
    exact ⟨tail, by rw [List.append_assoc]; rfl⟩

theorem InStep.next (h : w.InStep) (hs : next w event = some w') : w'.InStep := by
  cases event with
  | input bytes now => exact Option.some.inj hs ▸ h.client_leads (h.client.input bytes)
  | resize size now => exact Option.some.inj hs ▸ h.client_leads (h.client.resize size)
  | requestRepaint now => exact Option.some.inj hs ▸ h.client_leads h.client.requestRepaint
  | repaintArrived => exact Option.some.inj hs ▸ h.client_leads (h.client.same rfl rfl rfl rfl rfl rfl)
  | forwardOpen stream target now => exact Option.some.inj hs ▸ h.client_leads (h.client.forwardOpen stream target)
  | acknowledge highest now =>
    rw [World.next] at hs
    split_ifs at hs
    exact Option.some.inj hs ▸ h.client_leads (h.client.acknowledge highest)
  | retransmit now epoch => exact Option.some.inj hs ▸ h.client_leads (h.client.retransmit epoch)
  | disconnect => exact Option.some.inj hs ▸ h.client_leads h.client.disconnect
  | reconnect output now => exact Option.some.inj hs ▸ h.client_leads (h.client.reconnect output)
  | attach link framing =>
    cases hs
    exact { h with }
  | dropAttachment =>
    cases hs
    exact { h with }
  | arrive link message effect now =>
    rw [World.next] at hs
    split_ifs at hs with hwire
    cases hs
    exact h.advances (h.client.tracks.wire _ hwire) (Session.advances_command _ link message effect now)

theorem inStep_of_reachable (h : system.Reachable w) : w.InStep :=
  h.invariant (fun _ => inStep_init) fun _ _ _ hp hs => hp.next hs

/-- As long as the numbers last: the commands applied are a prefix of those numbered, which
are numbered one after another from one, and the bytes applied are a prefix of those typed. -/
theorem commands_applied_once (h : system.Reachable w) (hlast : w.client.state.numbered.length < maxSeq) :
    w.session.applied <+: w.client.state.numbered ∧
    (∀ i message, w.client.state.numbered[i]? = some message → message.seq = i + 1) ∧
    (w.session.applied.flatMap fun message => message.command.typed) <+: w.client.accepted := by
  have hstep := inStep_of_reachable h
  have hfront := hstep.applied hlast
  refine ⟨hfront, fun i message hi => ?_, ?_⟩
  · have hil := (List.getElem?_eq_some_iff.mp hi).1
    rw [hstep.client.tracks.seq_eq i message hi]
    omega
  · obtain ⟨rest, hrest⟩ := hfront
    rw [← hstep.client.typed, Outbound.typed, ← hrest, List.flatMap_append, List.append_assoc]
    exact List.prefix_append _ _

/-- A keystroke is refused and its attachment dropped; the replacement replays it, and the
second keystroke overtakes the copy of the first. -/
def replayRun : List Event :=
  [.attach 0 .stream, .input [104] 0, .arrive 0 ⟨1, .input [104]⟩ ⟨false, true, true⟩ 0, .reconnect ⟨1, .datagram, []⟩ 0,
    .attach 1 .datagram, .input [105] 0, .arrive 1 ⟨2, .input [105]⟩ ⟨true, true, true⟩ 0,
    .arrive 1 ⟨1, .input [104]⟩ ⟨true, true, true⟩ 0, .arrive 1 ⟨1, .input [104]⟩ ⟨true, true, true⟩ 0,
    .acknowledge 1 0, .arrive 1 ⟨2, .input [105]⟩ ⟨true, true, true⟩ 0]

theorem commands_applied_once_replayRun : ∃ w, system.Reachable w ∧
    w.session.applied = [⟨1, .input [104]⟩, ⟨2, .input [105]⟩] ∧ w.session.applied <+: w.client.state.numbered ∧
    (w.session.applied.flatMap fun message => message.command.typed) <+: w.client.accepted := by
  obtain ⟨w, hreach, happlied, hnumbered⟩ : ∃ w, system.Reachable w ∧
      w.session.applied = [⟨1, .input [104]⟩, ⟨2, .input [105]⟩] ∧ w.client.state.numbered.length = 2 :=
    System.Reachable.of_run ⟨.new ⟨0, .stream, []⟩ firstSeq, .new true⟩ replayRun ⟨_, _, rfl⟩ (by decide)
  have honce := commands_applied_once hreach (by rw [hnumbered]; decide)
  exact ⟨w, hreach, happlied, honce.1, honce.2.2⟩

/-! ### When the numbers run out -/

/-- A client whose sink takes everything, with these commands kept. -/
def typist (kept : List (ℕ × ClientMessage)) (next : ℕ) (numbered : List ClientMessage) (wire : List (ℕ × ClientMessage))
    (accepted : List UInt8) : ClientWriter where
  state := ⟨some ⟨0, .stream, []⟩, next, ⟨kept⟩, [], ⟨none, false⟩, .new, numbered, wire⟩
  droppedInput := false
  repaintOutstanding := false
  linkEpoch := 0
  accepted := accepted

variable {seq highest : ℕ} {numbered : List ClientMessage} {wire : List (ℕ × ClientMessage)} {accepted : List UInt8}

theorem typist_input : ((typist [] seq numbered wire accepted).input [0] 0).1 =
    typist [(seq, ⟨seq, .input [0]⟩)] (nextSeq seq) (numbered ++ [⟨seq, .input [0]⟩])
      (wire ++ [(0, ⟨seq, .input [0]⟩)]) (accepted ++ [0]) := rfl

theorem typist_acknowledge {next : ℕ} (hle : seq ≤ highest) :
    (typist [(seq, message)] next numbered wire accepted).acknowledge highest 0 =
      typist [] next numbered wire accepted := by
  have hdrop : Journal.acknowledge ⟨[(seq, message)]⟩ highest = ⟨[]⟩ := by
    simp [Journal.acknowledge, hle]
  have hkept : (typist [(seq, message)] next numbered wire accepted).state.journal.acknowledge highest = ⟨[]⟩ := hdrop
  unfold ClientWriter.acknowledge
  rw [hkept]
  rfl

theorem next_arrive {link : ℕ} (h : (link, message) ∈ w.client.state.wire) (effect : Effect)
    (now : ℕ) :
    system.next w (.arrive link message effect now) = some { w with session := w.session.command link message effect now } :=
  if_pos h

theorem next_acknowledge (h : highest ∈ w.session.acks) (now : ℕ) :
    system.next w (.acknowledge highest now) = some { w with client := w.client.acknowledge highest now } :=
  if_pos h

/-- The acknowledgement that follows reaches the command. -/
theorem exists_ack (s : Session) (seq : ℕ) : ∃ highest ∈ (s.ack seq).acks, seq ≤ highest := by
  unfold Session.ack ClientStream.acknowledged
  cases hbest : s.stream.highestCommand with
  | none => exact ⟨seq, by simp, Nat.le_refl _⟩
  | some best =>
    obtain hlt | hge := Nat.lt_or_ge best seq
    · exact ⟨seq, by simp [hlt], Nat.le_refl _⟩
    · exact ⟨best, by simp [Nat.not_lt.mpr hge], hge⟩

theorem exists_typed (n : ℕ) : ∃ numbered wire accepted stream applied acks,
    system.Reachable ⟨typist [] (min (n + 1) maxSeq) numbered wire accepted,
      ⟨stream, true, some (0, .stream), applied, acks⟩⟩ ∧ numbered.length = n ∧ applied.length = n ∧
      (0 < n → (0, ⟨min n maxSeq, .input [0]⟩) ∈ wire) := by
  induction n with
  | zero =>
    have hinit : system.init ⟨.new ⟨0, .stream, []⟩ firstSeq, .new true⟩ := ⟨_, _, rfl⟩
    exact ⟨[], [], [], .new, [], [], (System.Reachable.init hinit).step (a := .attach 0 .stream) rfl, rfl, rfl, nofun⟩
  | succ n ih =>
    obtain ⟨numbered, wire, accepted, stream, applied, acks, hreach, hnumbered, happlied, -⟩ := ih
    -- the gate waits for the number the keystroke takes
    have hgate : stream.gate.next = min (n + 1) maxSeq := by
      have hstands : stream.gate.next = min (applied.length + 1) maxSeq := (inStep_of_reachable hreach).stands
      rw [hstands, happlied]
    generalize hseq : min (n + 1) maxSeq = seq at hreach hgate
    have hcheck : stream.check seq = .fresh := by
      rw [ClientStream.check, CommandGate.check, hgate, if_pos rfl]
    have hsent := hreach.step (a := .input [0] 0) rfl
    rw [typist_input] at hsent
    let session := Session.ack ⟨stream.applied seq 0, true, some (0, .stream), applied ++ [⟨seq, .input [0]⟩], acks⟩ seq
    have hcommand : Session.command ⟨stream, true, some (0, .stream), applied, acks⟩ 0 ⟨seq, .input [0]⟩
        ⟨true, true, true⟩ 0 = session := by
      simp only [Session.command, Session.input, hcheck, ne_eq, not_true_eq_false, if_false, if_true]
      rfl
    have harrived := hsent.step (next_arrive (List.mem_append_right wire (List.mem_singleton_self _)) ⟨true, true, true⟩ 0)
    rw [hcommand] at harrived
    obtain ⟨highest, hack, hle⟩ := exists_ack
      ⟨stream.applied seq 0, true, some (0, .stream), applied ++ [⟨seq, .input [0]⟩], acks⟩ seq
    have hacked := harrived.step (next_acknowledge hack 0)
    rw [typist_acknowledge hle] at hacked
    have hnext : nextSeq seq = min (n + 1 + 1) maxSeq := by
      rw [nextSeq, ← hseq]
      omega
    rw [hnext] at hacked
    refine ⟨_, _, _, session.stream, session.applied, session.acks, hacked, ?_, ?_, fun _ => ?_⟩
    · rw [List.length_append, hnumbered, List.length_singleton]
    · change (applied ++ [_]).length = n + 1
      rw [List.length_append, happlied, List.length_singleton]
    · exact List.mem_append_right _ (List.mem_singleton_self _)

/-- The last number follows itself on both sides, so a second copy of the command that has it
is applied again. -/
theorem last_number_applied_again : ∃ w, system.Reachable w ∧ ¬ w.session.applied <+: w.client.state.numbered := by
  obtain ⟨numbered, wire, accepted, stream, applied, acks, hreach, hnumbered, happlied, hwire⟩ := exists_typed maxSeq
  have hlast : min (maxSeq + 1) maxSeq = maxSeq := by omega
  have hgate : stream.gate.next = maxSeq := by
    have hstands : stream.gate.next = min (applied.length + 1) maxSeq := (inStep_of_reachable hreach).stands
    rw [hstands, happlied, hlast]
  have hcheck : stream.check maxSeq = .fresh := by
    rw [ClientStream.check, CommandGate.check, hgate, if_pos rfl]
  have hmem := hwire (by decide)
  rw [min_self] at hmem
  have hcommand : Session.applied (Session.command ⟨stream, true, some (0, .stream), applied, acks⟩ 0
      ⟨maxSeq, .input [0]⟩ ⟨true, true, true⟩ 0) = applied ++ [⟨maxSeq, .input [0]⟩] := by
    simp only [Session.command, Session.input, hcheck, ne_eq, not_true_eq_false, if_false, if_true]
    rfl
  refine ⟨_, hreach.step (next_arrive hmem ⟨true, true, true⟩ 0), fun hfront => ?_⟩
  have hlength := hfront.length_le
  rw [hcommand, List.length_append, happlied, List.length_singleton] at hlength
  exact absurd (hlength.trans_eq hnumbered) (Nat.not_succ_le_self _)

end World

end Braid.Commands
