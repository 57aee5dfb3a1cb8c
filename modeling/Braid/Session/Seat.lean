import Mathlib.Logic.Relation
import Braid.Session.Actor

/-! One attachment of a session, followed from the turn that installs it. A seat is the attachment together
with what its turns read of the session: the terminal and the position of its output. The grid, the clock,
the emulator's frames and how screens are cut are inputs. A turn of a session comes down to acts on each
of its attachments, which is what the rest of the development is built on. -/

namespace Braid.Session

open Commands (ClientStream)
open Daemon (RepaintFrame RowMask ScreenLedger)
open Foundation
open Screen (GridSize)

/-- Not a part of the output or of a screen. -/
def Message.isPlain : Message → Bool
  | .output _ _ | .screen _ _ _ _ | .screenTail _ _ => false
  | _ => true

/-- The lane of a message that is not a part of the output or of a screen, and its bound. -/
def Slot.plainLimit : Slot Message → Option ℕ
  | .control frame => if frame.content.isPlain then some (streamLimit + controlSlack) else none
  | .forward frame => if frame.content.isPlain then some forwardLane else none
  | _ => none

/-- Take a run of output down. `scanned` says that some client is sent whole screens, and every client
holds the deferred sequences below `floor`. -/
def Terminal.record (t : Terminal) (bytes : List UInt8) (scanned : Bool) (floor now : ℕ) : Terminal where
  lastOutput := some now
  backlog := (t.backlog ++ bytes).drop ((t.backlog ++ bytes).length - backlogBytes)
  deferred := (if scanned then t.deferred.feed bytes else t.deferred).forgetBefore floor
  forwarded := t.forwarded ++ bytes

structure Seat where
  attachment : Attachment
  terminal : Option Terminal
  offset : ℕ

/-- What can happen to an attachment. -/
inductive Act where
  /-- Its client is heard of: the link, the command stream, the client's size and what it has consumed. -/
  | aside (link : LinkTiming) (stream : ClientStream) (size : GridSize) (consumed : ℕ)
  | path (framing : Framing)
  | queue (slot : Slot Message)
  | confirm (generation version : ℕ)
  | regrid (generation rows : ℕ)
  | restart (generation rows : ℕ)
  | repaint (painted : Painted) (frame : RepaintFrame) (dirty : RowMask) (grid : GridSize) (cut : Option Cut) (now : ℕ)
  | output (bytes : List UInt8) (grid : GridSize) (scanned : Bool) (floor now : ℕ)
  | write (step : WriterStep)

namespace Act

def isOutput : Act → Bool
  | .output _ _ _ _ _ => true
  | _ => false

end Act

namespace Seat

variable (wire : Wire) (v : Seat)

def log : DeferredOsc := v.terminal.elim .new Terminal.deferred

def forwarded : List UInt8 := v.terminal.elim [] Terminal.forwarded

/-- An attachment whose transport fails in an act is dropped. Output is scanned when this client is one of
those sent whole screens, and nothing it is owed is forgotten. -/
def next (act : Act) : Option Seat :=
  match act with
  | .aside link stream size consumed => some { v with attachment := { v.attachment with link, stream, size, consumed } }
  | .path framing => some { v with attachment := SessionActor.repath framing v.attachment }
  | .queue slot =>
    slot.plainLimit.bind fun limit => (v.attachment.sink.push slot limit .back).toOption.map fun sink =>
      { v with attachment := { v.attachment with sink } }
  | .confirm generation version => some { v with attachment := v.attachment.confirm generation version }
  | .regrid generation rows => v.terminal.map fun terminal =>
    { v with attachment := (v.attachment.regrid generation rows).beginSync terminal.deferred.mark }
  | .restart generation rows => v.terminal.map fun terminal =>
    { v with attachment := (v.attachment.restart generation rows).beginSync terminal.deferred.mark }
  | .repaint painted frame dirty grid cut now => v.terminal.bind fun terminal =>
    match v.attachment.repaint painted frame dirty v.offset grid terminal.lastOutput terminal.deferred cut now with
    | (attachment, false) => some { v with attachment }
    | (_, true) => none
  | .output bytes grid scanned floor now => v.terminal.bind fun terminal =>
    match v.attachment.forward wire v.offset bytes grid terminal.lastOutput terminal.deferred.mark now with
    | (attachment, false) =>
      if (attachment.isSyncing = true → scanned = true) ∧ floor ≤ attachment.deferredFrom then
        some ⟨attachment, terminal.record bytes scanned floor now, v.offset + bytes.length⟩
      else none
    | (_, true) => none
  | .write step => (v.attachment.sink.write step).map fun sink => { v with attachment := { v.attachment with sink } }

variable {wire v} {v' : Seat}

theorem next_queue {slot : Slot Message} (h : v.next wire (.queue slot) = some v') :
    ∃ limit sink, slot.plainLimit = some limit ∧ v.attachment.sink.push slot limit .back = .ok sink ∧
      v' = { v with attachment := { v.attachment with sink } } := by
  obtain ⟨limit, hlimit, hmap⟩ := Option.bind_eq_some_iff.1 h
  obtain ⟨sink, hpush, heq⟩ := Option.map_eq_some_iff.1 hmap
  cases hsent : v.attachment.sink.push slot limit .back with
  | error _ => simp [hsent, Except.toOption] at hpush
  | ok sink' =>
    simp only [hsent, Except.toOption, Option.some.injEq] at hpush
    exact ⟨limit, sink, hlimit, hpush ▸ hsent, heq.symm⟩

theorem next_repaint {painted : Painted} {frame : RepaintFrame} {dirty : RowMask} {grid : GridSize} {cut : Option Cut} {now : ℕ}
    (h : v.next wire (.repaint painted frame dirty grid cut now) = some v') :
    ∃ terminal attachment, v.terminal = some terminal ∧
      v.attachment.repaint painted frame dirty v.offset grid terminal.lastOutput terminal.deferred cut now =
        (attachment, false) ∧ v' = { v with attachment } := by
  obtain ⟨terminal, hterminal, hmatch⟩ := Option.bind_eq_some_iff.1 h
  split at hmatch
  · rename_i attachment hpainted
    exact ⟨terminal, attachment, hterminal, hpainted, (Option.some.inj hmatch).symm⟩
  · cases hmatch

theorem next_output {bytes : List UInt8} {grid : GridSize} {scanned : Bool} {floor now : ℕ}
    (h : v.next wire (.output bytes grid scanned floor now) = some v') :
    ∃ terminal attachment, v.terminal = some terminal ∧
      v.attachment.forward wire v.offset bytes grid terminal.lastOutput terminal.deferred.mark now = (attachment, false) ∧
      (attachment.isSyncing = true → scanned = true) ∧ floor ≤ attachment.deferredFrom ∧
      v' = ⟨attachment, terminal.record bytes scanned floor now, v.offset + bytes.length⟩ := by
  obtain ⟨terminal, hterminal, hmatch⟩ := Option.bind_eq_some_iff.1 h
  split at hmatch
  · rename_i attachment hforwarded
    split_ifs at hmatch with hpossible
    exact ⟨terminal, attachment, hterminal, hforwarded, hpossible.1, hpossible.2, (Option.some.inj hmatch).symm⟩
  · cases hmatch

theorem next_context {act : Act} (hact : act.isOutput = false) (h : v.next wire act = some v') :
    v'.terminal = v.terminal ∧ v'.offset = v.offset := by
  cases act with
  | aside => cases h; exact ⟨rfl, rfl⟩
  | path => cases h; exact ⟨rfl, rfl⟩
  | queue =>
    obtain ⟨_, _, -, -, rfl⟩ := next_queue h
    exact ⟨rfl, rfl⟩
  | confirm => cases h; exact ⟨rfl, rfl⟩
  | regrid =>
    obtain ⟨_, -, rfl⟩ := Option.map_eq_some_iff.1 h
    exact ⟨rfl, rfl⟩
  | restart =>
    obtain ⟨_, -, rfl⟩ := Option.map_eq_some_iff.1 h
    exact ⟨rfl, rfl⟩
  | repaint =>
    obtain ⟨_, _, -, -, rfl⟩ := next_repaint h
    exact ⟨rfl, rfl⟩
  | output => cases hact
  | write =>
    obtain ⟨_, -, rfl⟩ := Option.map_eq_some_iff.1 h
    exact ⟨rfl, rfl⟩

end Seat

variable {wire : Wire} {terminal : Option Terminal} {offset : ℕ} {a a' a'' : Attachment}

/-! ### Painting -/

/-- What a repaint makes of an attachment that it does not drop: nothing is wanted of it, its screen will not
encode, or it is sent a screen. -/
inductive Repainted (a : Attachment) (offset : ℕ) (log : DeferredOsc) (cut : Option Cut) (wanted : Bool) :
    Attachment → Prop where
  | idle (ledger : ScreenLedger) (hwanted : wanted = false) (hpending : ledger.pending = a.ledger.pending) :
      Repainted a offset log cut wanted { a with ledger }
  | withheld (ledger : ScreenLedger) (version encodeFailures lastRepaint : ℕ) (repaintPending : Bool)
      (hwanted : wanted = true) (hcut : cut = none) (hpending : ledger.pending = none) :
      Repainted a offset log cut wanted { a with ledger, version, encodeFailures, lastRepaint, repaintPending }
  | sent (sheet : Cut) (ledger : ScreenLedger) (sink : Sink Message) (pressure : ScreenPressure) (mode : OutputMode)
      (version lastRepaint screenSentAt : ℕ) (repaintPending : Bool) (hwanted : wanted = true) (hcut : cut = some sheet)
      (hpending : ledger.pending = some (a.generation, version))
      (hsink : a.sink.sendScreen ({ a with version }.pieces offset (a.owedDeferred log) sheet) = .ok (sink, pressure))
      (hmode : mode = .passthrough ∨ a.mode ≠ .passthrough ∧ mode = .screenSent) :
      Repainted a offset log cut wanted
        { a with
          ledger, sink, pressure, mode, version, lastRepaint, screenSentAt, repaintPending
          encodeFailures := 0
          deferredSent := log.mark }

theorem pending_plan (ledger : ScreenLedger) (frame : RepaintFrame) (generation version : ℕ) :
    (ledger.plan frame generation version).1.pending = some (generation, version) := by
  rfl

theorem pending_releaseInFlight (ledger : ScreenLedger) : ledger.releaseInFlight.pending = none := by
  unfold ScreenLedger.releaseInFlight
  split_ifs with h
  · rfl
  · simpa using h

namespace Attachment

/-- A client that is sent a screen returns to the stream if it may, and stays on screens otherwise. -/
theorem sent_settled (a : Attachment) (mark now offset : ℕ) (lastOutput : Option ℕ) (grid : GridSize) :
    ∃ mode repaintPending, (mode = .passthrough ∨ a.mode ≠ .passthrough ∧ mode = .screenSent) ∧
      (if (a.sent mark now).isSyncing = true then
          (a.sent mark now).settle ((a.sent mark now).mayReturnToPassthrough offset now lastOutput) grid
        else a.sent mark now) =
      { a with deferredSent := mark, screenSentAt := now, mode, repaintPending } := by
  by_cases hmode : a.mode = .passthrough
  · have hsyncing : (a.sent mark now).isSyncing = false := by simp [isSyncing, sent, hmode]
    rw [if_neg (by rw [hsyncing]; exact Bool.false_ne_true)]
    exact ⟨_, _, .inl (if_pos hmode), rfl⟩
  · have hsent : (a.sent mark now).mode = .screenSent := if_neg hmode
    have hsyncing : (a.sent mark now).isSyncing = true := by simp [isSyncing, hsent]
    unfold settle
    split_ifs
    · exact ⟨_, _, .inl rfl, rfl⟩
    · exact ⟨_, _, .inr ⟨hmode, rfl⟩, rfl⟩
    · exact ⟨_, _, .inr ⟨hmode, hsent⟩, rfl⟩

theorem repaint_cases {painted : Painted} {frame : RepaintFrame} {dirty : RowMask} {grid : GridSize}
    {lastOutput : Option ℕ} {log : DeferredOsc} {cut : Option Cut} {now : ℕ}
    (h : a.repaint painted frame dirty offset grid lastOutput log cut now = (a', false)) :
    Repainted a offset log cut (a.wants painted now) a' := by
  have hdamaged : { a with ledger := a.ledger.noteDamage dirty }.wants painted now = a.wants painted now := rfl
  unfold repaint at h
  dsimp only at h
  split_ifs at h with hwants
  · unfold pushScreen at h
    cases cut with
    | none =>
      cases h
      exact .withheld _ _ _ _ _ hwants rfl (pending_releaseInFlight _)
    | some sheet =>
      cases hsend : a.sink.sendScreen ({ a with version := (a.painting painted now).version }.pieces offset
          (a.owedDeferred log) sheet) with
      | error error =>
        simp only [painting, pieces, owedDeferred] at h hsend
        rw [hsend] at h
        cases h
      | ok sent =>
        obtain ⟨sink, pressure⟩ := sent
        have hsent := hsend
        simp only [painting, pieces, owedDeferred] at h hsend
        rw [hsend] at h
        dsimp only at h
        obtain ⟨mode, repaintPending, hmode, hsettled⟩ := sent_settled _ log.mark now offset lastOutput grid
        rw [hsettled] at h
        cases h
        exact .sent sheet _ sink pressure mode _ _ _ _ hwants rfl (pending_plan _ _ _ _) hsent hmode
  · cases h
    exact .idle _ (Bool.eq_false_iff.mpr hwants) rfl

end Attachment

/-! ### Queueing -/

/-- The same attachment with more messages queued, none of them a part of the output or of a screen. -/
def Queued : Attachment → Attachment → Prop :=
  Relation.ReflTransGen fun a a' => ∃ slot limit sink, slot.plainLimit = some limit ∧
    a.sink.push slot limit .back = .ok sink ∧ a' = { a with sink }

namespace Attachment

theorem send_ok {message : Message} (h : a.send wire message = .ok a') :
    ∃ len sink, wire message = some len ∧ a.sink.sendControl ⟨message, len⟩ .back = .ok sink ∧ a' = { a with sink } := by
  unfold send at h
  split at h
  · cases h
  · rename_i len hlen
    cases hs : a.sink.sendControl ⟨message, len⟩ .back with
    | error _ => simp [hs, Except.map] at h
    | ok sink =>
      simp only [hs, Except.map, Except.ok.injEq] at h
      exact ⟨len, sink, hlen, hs, h.symm⟩

theorem sendForward_ok {message : Message} (h : a.sendForward wire message = .ok a') :
    ∃ len sink, wire message = some len ∧ a.sink.sendForward ⟨message, len⟩ = .ok sink ∧ a' = { a with sink } := by
  unfold sendForward at h
  split at h
  · cases h
  · rename_i len hlen
    cases hs : a.sink.sendForward ⟨message, len⟩ with
    | error _ => simp [hs, Except.map] at h
    | ok sink =>
      simp only [hs, Except.map, Except.ok.injEq] at h
      exact ⟨len, sink, hlen, hs, h.symm⟩

section

variable {message : Message} (hplain : message.isPlain = true)

include hplain

theorem queued_send (h : a.send wire message = .ok a') :
    Queued a a' := by
  obtain ⟨len, sink, -, hpush, rfl⟩ := send_ok h
  exact .single ⟨.control ⟨message, len⟩, _, sink, if_pos hplain, hpush, rfl⟩

theorem queued_sendForward (h : a.sendForward wire message = .ok a') :
    Queued a a' := by
  obtain ⟨len, sink, -, hpush, rfl⟩ := sendForward_ok h
  exact .single ⟨.forward ⟨message, len⟩, _, sink, if_pos hplain, hpush, rfl⟩

theorem queued_offer : Queued a (a.offer wire message) := by
  unfold offer
  split
  · rename_i h
    exact queued_send hplain h
  · exact .refl

end

end Attachment

namespace LiveForward

variable {id now budget wrap : ℕ}

theorem queued_transmit (room : ℕ) (stream : Forwarding.Stream) :
    Queued a (transmit wire id now budget wrap room a stream).1 := by
  induction room generalizing a stream with
  | zero => exact .refl
  | succ room ih =>
    unfold transmit
    split
    · exact .refl
    · split
      · exact .refl
      · rename_i h
        exact (Attachment.queued_sendForward rfl h).trans (ih _)

theorem queued_acknowledge (f : Daemon.Forward) : Queued a (acknowledge wire id a f).1 := by
  unfold acknowledge
  dsimp only
  split
  · exact .refl
  · split
    · rename_i h
      exact Attachment.queued_sendForward rfl h
    · exact .refl

theorem queued_pump (f : LiveForward) : Queued a (f.pump wire id now wrap a).1 := by
  have hacknowledged : Queued a (acknowledge wire id a f.forward).1 := queued_acknowledge _
  unfold pump
  dsimp only
  split <;> exact hacknowledged.trans (queued_transmit _ _)

end LiveForward

/-! ### Acts that leave the output alone -/

/-- One attachment led to the other by acts that leave the session's output alone. -/
def Acts (wire : Wire) (terminal : Option Terminal) (offset : ℕ) : Attachment → Attachment → Prop :=
  Relation.ReflTransGen fun a a' => ∃ act : Act, act.isOutput = false ∧
    Seat.next wire ⟨a, terminal, offset⟩ act = some ⟨a', terminal, offset⟩

theorem acts_single (act : Act) (hact : act.isOutput = false)
    (h : Seat.next wire ⟨a, terminal, offset⟩ act = some ⟨a', terminal, offset⟩) : Acts wire terminal offset a a' :=
  .single ⟨act, hact, h⟩

theorem acts_aside (link : LinkTiming) (stream : ClientStream) (size : GridSize) (consumed : ℕ) :
    Acts wire terminal offset a { a with link, stream, size, consumed } :=
  acts_single (.aside link stream size consumed) rfl rfl

theorem Queued.acts (h : Queued a a') : Acts wire terminal offset a a' := by
  refine Relation.ReflTransGen.mono ?_ _ _ h
  rintro a _ ⟨slot, limit, sink, hlimit, hpush, rfl⟩
  refine ⟨.queue slot, rfl, ?_⟩
  simp [Seat.next, hlimit, hpush, Except.toOption]

theorem acts_probe {now : ℕ} : Acts wire terminal offset a (a.probe wire now).1 := by
  have hlink : ∀ link, Acts wire terminal offset a { a with link } := fun link =>
    acts_aside link a.stream a.size a.consumed
  unfold Attachment.probe
  split_ifs
  · exact .refl
  · split
    · exact hlink _
    · split
      · rename_i h
        exact (hlink _).trans (Attachment.queued_send rfl h).acts
      · exact hlink _

end Braid.Session
