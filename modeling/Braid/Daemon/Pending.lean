import Braid.Daemon.Handover
import Braid.Forwarding.Transmission

/-! The bytes the daemon read from a forwarded socket and its send window had
no room for. They are drained when another chunk is read or the end of file is
handled, and never by the pump, so an acknowledgement that makes room while
some are pending strands them: the credit that would bring another chunk is
withheld for as long as they wait. If no acknowledgement makes room while bytes
are pending, bytes are pending only while the window is full. The end of file
is never lost: once it is handled with nothing pending, the end is declared. -/

namespace Braid.Daemon

open Foundation Forwarding

structure SameOwed (s s' : Sender) : Prop where
  base : s'.base = s.base
  buffer : s'.buffer = s.buffer
  fin : s'.fin = s.fin

variable (s : Sender)

theorem SameOwed.refl : SameOwed s s := ⟨rfl, rfl, rfl⟩

theorem SameOwed.trans {s s' s'' : Sender} (h : SameOwed s s') (h' : SameOwed s' s'') : SameOwed s s'' :=
  ⟨h'.base.trans h.base, h'.buffer.trans h.buffer, h'.fin.trans h.fin⟩

theorem SameOwed.writable {s s' : Sender} (h : SameOwed s s') : s'.writable = s.writable := by
  rw [Sender.writable, Sender.writable, h.buffer, h.fin]

theorem sameOwed_poll (now budget wrap : ℕ) : SameOwed s (s.pollTransmit now budget wrap).1 := by
  rw [Sender.pollTransmit_eq]
  split_ifs
  · exact .refl s
  · unfold Sender.wake
    split_ifs <;> exact ⟨rfl, rfl, rfl⟩

theorem Forward.pumpOut_sameOwed (f : Forward) (now budget wrap : ℕ) (ackTaken : Bool) (room : ℕ) :
    SameOwed f.stream.send (f.pumpOut now budget wrap ackTaken room).stream.send ∧
      (f.pumpOut now budget wrap ackTaken room).pending = f.pending := by
  have hack : SameOwed f.stream.send (if ackTaken then f.pollOwedAck.acked else f.pollOwedAck).stream.send := by
    split_ifs <;> exact .refl _
  refine ⟨Stream.transmitAll_rule (fun s => SameOwed f.stream.send s.send)
    (fun s h => h.trans (sameOwed_poll s.send now budget wrap)) (fun _ _ h => h.trans ⟨rfl, rfl, rfl⟩) room hack, ?_⟩
  unfold Forward.pumpOut
  split_ifs <;> rfl

theorem Forward.pumpOut_connected (f : Forward) (now budget wrap : ℕ) (ackTaken : Bool) (room : ℕ) :
    (f.pumpOut now budget wrap ackTaken room).connected = f.connected := by
  unfold Forward.pumpOut
  split_ifs <;> rfl

theorem onAck_owed (off window : ℕ) (held : SackRuns) (now : ℕ) :
    (s.onAck off window held now).1.fin = s.fin ∧
      (off ≤ s.base → SameOwed s (s.onAck off window held now).1) := by
  have hrelease : (s.release off).fin = s.fin ∧ (off ≤ s.base → s.release off = s) := by
    unfold Sender.release
    split_ifs with h
    · exact ⟨rfl, fun hle => absurd h (not_lt.mpr hle)⟩
    · exact ⟨rfl, fun _ => rfl⟩
  rcases s.onAck_cases off window held now with ⟨-, heq⟩ | ⟨-, -, _, _, _, heq, -⟩ | ⟨-, -, heq⟩ <;> rw [heq]
  · exact ⟨rfl, fun _ => .refl s⟩
  · refine ⟨hrelease.1, fun hle => ?_⟩
    rw [hrelease.2 hle]
    exact ⟨rfl, rfl, rfl⟩
  · refine ⟨hrelease.1, fun hle => ?_⟩
    rw [hrelease.2 hle]
    exact ⟨rfl, rfl, rfl⟩

theorem write_fin (bytes : List UInt8) (now : ℕ) : (s.write bytes now).1.fin = s.fin := by
  unfold Sender.write
  dsimp only
  split_ifs <;> rfl

theorem write_full {s : Sender} {bytes : List UInt8} {now : ℕ} (h : bytes.drop (s.write bytes now).2 ≠ []) :
    (s.write bytes now).1.writable = 0 := by
  have htaken : (s.write bytes now).2 = min s.writable bytes.length := rfl
  have hshort : s.writable < bytes.length := by
    by_contra hle
    refine h (List.drop_eq_nil_of_le ?_)
    omega
  have hbuffer : (s.write bytes now).1.buffer = s.buffer ++ bytes.take s.writable := by
    unfold Sender.write
    dsimp only
    rw [min_eq_left hshort.le]
    split_ifs <;> rfl
  unfold Sender.writable at hshort hbuffer ⊢
  rw [write_fin, hbuffer]
  split_ifs at hshort hbuffer ⊢ with hf
  · rfl
  · rw [List.length_append, List.length_take]
    omega

namespace Forward

variable {f : Forward} {now : ℕ}

/-- Bytes wait only for a window that is full. -/
def Held (f : Forward) : Prop := f.pending = [] ∨ f.stream.writable = 0

theorem held_drainPending (f : Forward) (now : ℕ) : Held (f.drainPending now) := by
  unfold Forward.drainPending
  split_ifs with h
  · exact .inl h
  · by_cases hrest : f.pending.drop (f.stream.send.write f.pending now).2 = []
    · exact .inl hrest
    · exact .inr (write_full hrest)

theorem held_absorb (f : Forward) (bytes : List UInt8) (now : ℕ) : Held (f.absorb bytes now) := by
  unfold Forward.absorb
  split_ifs with h
  · by_cases hrest : bytes.drop (f.stream.send.write bytes now).2 = []
    · exact .inl hrest
    · exact .inr (write_full hrest)
  · exact held_drainPending _ now

theorem held_finish (f : Forward) (now : ℕ) : Held (f.finish now) := by
  unfold Forward.finish
  dsimp only
  split_ifs with h
  · exact .inl h
  · exact held_drainPending f now

theorem finish_declares (f : Forward) (now : ℕ) (h : (f.finish now).pending = []) :
    (f.finish now).stream.send.fin.isSome = true := by
  unfold Forward.finish at h ⊢
  dsimp only at h ⊢
  split_ifs at h ⊢ with hp
  · simp only [Stream.finish, Sender.finish]
    split_ifs with hf
    · rfl
    · simpa [Option.isSome_iff_ne_none] using hf
  · exact absurd h hp

theorem Held.same {f' : Forward} (h : Held f) (hs : SameOwed f.stream.send f'.stream.send)
    (hp : f'.pending = f.pending) : Held f' := by
  rw [Held, hp, Stream.writable, hs.writable]
  exact h

end Forward

namespace Tunnel

variable {t t' : Tunnel} {a : TunnelAction}

def send (t : Tunnel) : Sender := t.forward.stream.send

inductive Owes (t : Tunnel) : TunnelAction → Tunnel → Prop where
  /-- Nothing; a reader may leave. -/
  | aside {a : TunnelAction} {t' : Tunnel} (hs : SameOwed t.send t'.send)
      (hp : t'.forward.pending = t.forward.pending) (hm : t'.mailbox = t.mailbox)
      (hl : t.reader.left = true → t'.reader.left = true) (he : t'.eofHandled = t.eofHandled) : Owes t a t'
  /-- The reader posts a chunk, or the end of file as its last. -/
  | post {a : TunnelAction} {t' : Tunnel} {event : ReaderEvent} (hf : t'.forward = t.forward)
      (hm : t'.mailbox = t.mailbox ++ [event]) (hl : t.reader.left = false)
      (hlast : event = .eof → t'.reader.left = true) (he : t'.eofHandled = t.eofHandled) : Owes t a t'
  | absorb {chunk : List UInt8} {rest : List ReaderEvent} {now : ℕ} (hm : t.mailbox = .bytes chunk :: rest) :
      Owes t (.absorb now) { t with forward := t.forward.absorb chunk now, mailbox := rest }
  | finish {rest : List ReaderEvent} {now : ℕ} (hm : t.mailbox = .eof :: rest) :
      Owes t (.finish now) { t with forward := t.forward.finish now, mailbox := rest, eofHandled := true }
  | ack {off window now : ℕ} {held : SackRuns} {t' : Tunnel} (hs : t'.send = (t.send.onAck off window held now).1)
      (hp : t'.forward.pending = t.forward.pending) (hm : t'.mailbox = t.mailbox)
      (hl : t'.reader = t.reader) (he : t'.eofHandled = t.eofHandled) : Owes t (.onAck off window held now) t'

theorem read_owes (h : t.read a = some t') : Owes t a t' := by
  unfold Tunnel.read at h
  split at h
  · split_ifs at h with hl
    obtain ⟨⟨credit, taken⟩, -, rfl⟩ := Option.map_eq_some_iff.mp h
    exact .aside (.refl _) rfl rfl (fun hl' => absurd hl' hl) rfl
  · split_ifs at h with hc
    cases h
    exact .post rfl rfl hc.1 nofun rfl
  · split_ifs at h with hl
    cases h
    exact .post rfl rfl (by simpa using hl) (fun _ => rfl) rfl
  · cases h

theorem handle_owes (h : t.handle a = some t') : Owes t a t' := by
  unfold Tunnel.handle at h
  split at h
  · cases h
    obtain ⟨hs, hp, -⟩ := Forward.grantCredit_frame { t.forward with connected := true }
    exact .aside (by rw [send, send, hs]; exact .refl _) hp rfl id rfl
  · split at h
    · rename_i hm
      cases h
      exact .absorb hm
    · cases h
  · split at h
    · rename_i hm
      cases h
      exact .finish hm
    · cases h
  · split at h
    · rename_i stream hok
      cases h
      obtain ⟨recv, -, rfl⟩ := Stream.onData_ok hok
      exact .aside (.refl _) rfl rfl id rfl
    · cases h
  · split at h
    · rename_i stream _ hok
      cases h
      simp only [Stream.onAck, Prod.mk.injEq] at hok
      obtain ⟨rfl, -⟩ := hok
      exact .ack rfl rfl rfl rfl rfl
    · cases h
  · cases h

theorem pump_owes {phase : Phase} (h : t.pump phase a = some t') : Owes t a t' := by
  have haside : ∀ {t' : Tunnel}, SameOwed t.send t'.send → t'.forward.pending = t.forward.pending →
      t'.mailbox = t.mailbox → t'.reader = t.reader → t'.eofHandled = t.eofHandled → Owes t a t' :=
    fun hs hp hm hl he => .aside hs hp hm (fun h => by rw [hl]; exact h) he
  unfold Tunnel.pump at h
  split at h
  · cases h
    obtain ⟨hs, hp⟩ := t.forward.pumpOut_sameOwed _ _ _ _ _
    exact haside hs hp rfl rfl rfl
  · split_ifs at h
    · cases h
      exact haside (.refl _) rfl rfl rfl rfl
    · cases h
      split <;> exact haside (.refl _) rfl rfl rfl rfl
  · cases h
    exact haside (.refl _) rfl rfl rfl rfl
  · cases h
    exact haside (.refl _) rfl rfl rfl rfl
  · cases h
    obtain ⟨hs, hp, -⟩ := t.forward.grantCredit_frame
    exact haside (by rw [send, send, hs]; exact .refl _) hp rfl rfl rfl
  · cases h
    exact haside (.refl _) rfl rfl rfl rfl
  · cases h
    exact haside (.refl _) rfl rfl rfl rfl
  · cases h

/-- Every step of the tunnel is one of these. -/
theorem next_owes (h : t.next a = some t') : Owes t a t' := by
  unfold Tunnel.next at h
  split at h
  · exact read_owes h
  · exact read_owes h
  · exact read_owes h
  · split_ifs at h
    exact handle_owes h
  · split_ifs at h
    exact handle_owes h
  · split_ifs at h
    exact handle_owes h
  · split_ifs at h
    exact handle_owes h
  · split_ifs at h
    exact handle_owes h
  · unfold Tunnel.work at h
    split_ifs at h
    obtain ⟨write, -, rfl⟩ := Option.map_eq_some_iff.mp h
    exact .aside (.refl _) rfl rfl id rfl
  · exact pump_owes h

/-! ### The end of file -/

/-- The reader's end of file is the last thing it posts, and once handled with
nothing pending it has declared the stream's end. -/
structure EofLast (t : Tunnel) : Prop where
  posted : .eof ∈ t.mailbox → t.reader.left = true ∧ ∃ chunks, t.mailbox = chunks ++ [.eof] ∧ .eof ∉ chunks
  handled : t.eofHandled = true → t.reader.left = true ∧ t.mailbox = []
  declared : t.eofHandled = true → t.forward.pending = [] → t.send.fin.isSome = true

theorem eofLast_new : EofLast new := ⟨nofun, nofun, nofun⟩

theorem EofLast.unhandled (h : EofLast t) {event : ReaderEvent} {rest : List ReaderEvent}
    (hm : t.mailbox = event :: rest) : t.eofHandled ≠ true := by
  intro he
  rw [(h.handled he).2] at hm
  cases hm

theorem EofLast.next (h : EofLast t) (hs : t.next a = some t') : EofLast t' := by
  cases next_owes hs with
  | aside hs hp hm hl he =>
    refine ⟨?_, ?_, ?_⟩
    · rw [hm]
      exact fun hmem => ⟨hl (h.posted hmem).1, (h.posted hmem).2⟩
    · rw [he, hm]
      exact fun hh => ⟨hl (h.handled hh).1, (h.handled hh).2⟩
    · rw [he, hp, hs.fin]
      exact h.declared
  | post hf hm hl hlast he =>
    have hopen : ¬ t.reader.left = true := by simp [hl]
    have hnone : .eof ∉ t.mailbox := fun hmem => hopen (h.posted hmem).1
    refine ⟨fun hmem => ?_, fun hh => ?_, fun hh => ?_⟩
    · rw [hm, List.mem_append, List.mem_singleton] at hmem
      have hevent := hmem.resolve_left hnone
      exact ⟨hlast hevent.symm, t.mailbox, hevent ▸ hm, hnone⟩
    · exact absurd (h.handled (he ▸ hh)).1 hopen
    · exact absurd (h.handled (he ▸ hh)).1 hopen
  | @absorb chunk rest now hm =>
    refine ⟨fun hmem => ?_, fun hh => absurd hh (h.unhandled hm), fun hh => absurd hh (h.unhandled hm)⟩
    obtain ⟨hl, chunks, hc, hno⟩ := h.posted (by rw [hm]; exact List.mem_cons_of_mem _ hmem)
    refine ⟨hl, ?_⟩
    rw [hm] at hc
    cases chunks with
    | nil => cases hc
    | cons first chunks =>
      obtain ⟨-, hc⟩ := List.cons.inj hc
      exact ⟨chunks, hc, fun hmem => hno (List.mem_cons_of_mem _ hmem)⟩
  | @finish rest now hm =>
    obtain ⟨hl, chunks, hc, hno⟩ := h.posted (by rw [hm]; exact List.mem_cons_self)
    have hrest : rest = [] := by
      rw [hm] at hc
      cases chunks with
      | nil => exact (List.cons.inj hc).2
      | cons first chunks =>
        obtain ⟨rfl, -⟩ := List.cons.inj hc
        exact absurd List.mem_cons_self hno
    subst hrest
    exact ⟨nofun, fun _ => ⟨hl, rfl⟩, fun _ hp => Forward.finish_declares t.forward now hp⟩
  | ack hs hp hm hl he =>
    refine ⟨?_, ?_, ?_⟩
    · rw [hm, hl]
      exact h.posted
    · rw [he, hm, hl]
      exact h.handled
    · rw [he, hp, hs, (onAck_owed _ _ _ _ _).1]
      exact h.declared

/-! ### Room made while bytes wait -/

/-- What an acknowledgement acknowledges everything below. -/
def ackedOff : TunnelAction → ℕ
  | .onAck off _ _ _ => off
  | _ => 0

/-- No acknowledgement makes room in the window while bytes are pending. -/
def AckMeetsNoPending (t : Tunnel) (a : TunnelAction) : Prop :=
  t.forward.pending ≠ [] → ackedOff a ≤ t.send.base

instance (t : Tunnel) (a : TunnelAction) : Decidable (AckMeetsNoPending t a) :=
  inferInstanceAs (Decidable (_ → _))

theorem held_next (h : t.forward.Held) (hok : AckMeetsNoPending t a) (hs : t.next a = some t') :
    t'.forward.Held := by
  cases next_owes hs with
  | aside hs hp _ _ _ => exact h.same hs hp
  | post hf _ _ _ _ => rwa [hf]
  | absorb hm => exact Forward.held_absorb _ _ _
  | finish hm => exact Forward.held_finish _ _
  | ack hs hp _ _ _ =>
    by_cases hpend : t.forward.pending = []
    · exact .inl (hp.trans hpend)
    · have hsame : SameOwed t.send t'.send := by
        rw [hs]
        exact (onAck_owed _ _ _ _ _).2 (hok hpend)
      exact h.same hsame hp

/-- Runs in which no acknowledgement makes room over pending bytes keep bytes
pending only for a full window; and the end of file, handled with nothing
pending, has declared the stream's end. -/
theorem pending_waits_for_room (h : system.Via AckMeetsNoPending t) :
    (t.forward.pending = [] ∨ t.forward.stream.writable = 0) ∧
      (t.eofHandled = true → t.forward.pending = [] → t.send.fin.isSome = true) := by
  obtain ⟨hheld, heof⟩ := h.invariant (P := fun t => t.forward.Held ∧ EofLast t)
    (by rintro _ rfl; exact ⟨.inl rfl, eofLast_new⟩)
    fun _ _ _ h hok hs => ⟨held_next h.1 hok hs, h.2.next hs⟩
  exact ⟨hheld, heof.declared⟩

/-- A chunk is read and forwarded, its end of file follows. -/
def shortRead : List TunnelAction :=
  [.connect, .take, .read [1, 2, 3], .absorb 0, .readEnd, .finish 0, .pump 0 1138 3 true 4, .handFirst 0,
    .handSecond, .shutdown, .grant, .check]

theorem pending_waits_for_room_shortRead : ∃ t, system.Via AckMeetsNoPending t ∧ t.eofHandled = true ∧
    t.forward.pending = [] ∧ t.send.fin.isSome = true := by
  obtain ⟨t, hvia, heof, hnone⟩ : ∃ t, system.Via AckMeetsNoPending t ∧ t.eofHandled = true ∧ t.forward.pending = [] :=
    System.Via.of_run new shortRead rfl (by decide)
  exact ⟨t, hvia, heof, hnone, (pending_waits_for_room hvia).2 heof hnone⟩

/-! ### Room made over pending bytes -/

/-- The actor is between turns of a connected forward with nothing to hand over. -/
structure Resting (t : Tunnel) : Prop where
  phase : t.phase = .idle
  connected : t.forward.connected = true
  unfailed : t.write.isFailed = false
  ready : t.recv.ready = []
  unfinished : t.recv.finished = false

def handTurn (now budget wrap room : ℕ) : List TunnelAction :=
  [.pump now budget wrap true room, .handFirst 0, .handSecond, .shutdown]

theorem Resting.run_handTurn {t : Tunnel} (h : Resting t) (now budget wrap room : ℕ) :
    system.run t (handTurn now budget wrap room) = some { t with
      forward := t.forward.pumpOut now budget wrap true room, phase := .granting } := by
  have hread := t.forward.pumpOut_sameRead now budget wrap true room
  have hconn := t.forward.pumpOut_connected now budget wrap true room
  generalize hf : t.forward.pumpOut now budget wrap true room = f at hread hconn
  have hready : f.stream.recv.ready = [] := hread.ready.trans h.ready
  have hfin : f.stream.recv.finished = false := hread.finished.trans h.unfinished
  have hc : f.connected = true := hconn.trans h.connected
  have hconsume : f.stream.consume 0 = f.stream := by rw [Stream.consume, Receiver.consume_zero]
  simp only [handTurn, System.run, system, next, pump, h.phase, hf, hc, h.unfailed, Option.bind_some,
    Bool.true_eq_false, if_false, Bool.false_eq_true, Stream.readable, Receiver.readable, hready, List.take_nil,
    List.drop_nil, ForwardWrite.write_nil, List.length_nil, if_true, Nat.add_zero, hconsume, Stream.peerFinished, hfin]
  rw [← hc]

theorem Resting.pumpTurn {t : Tunnel} (h : Resting t) (now budget wrap room : ℕ) :
    ∃ t₁ t₂, system.run t (handTurn now budget wrap room ++ [.grant]) = some t₁ ∧
      system.next t₁ .check = some t₂ ∧ Resting t₂ ∧ SameOwed t.send t₂.send ∧
      t₂.forward.pending = t.forward.pending := by
  have hrun := h.run_handTurn now budget wrap room
  obtain ⟨hsend, hpending⟩ := t.forward.pumpOut_sameOwed now budget wrap true room
  have hread := t.forward.pumpOut_sameRead now budget wrap true room
  have hconn := t.forward.pumpOut_connected now budget wrap true room
  generalize t.forward.pumpOut now budget wrap true room = f at hrun hsend hpending hread hconn
  have hready : f.stream.recv.ready = [] := hread.ready.trans h.ready
  have hfin : f.stream.recv.finished = false := hread.finished.trans h.unfinished
  obtain ⟨hgs, hgp, hgc⟩ := f.grantCredit_frame
  refine ⟨{ t with forward := f.grantCredit, phase := .checking }, { t with forward := f.grantCredit, phase := .idle },
    ?_, ?_, ⟨rfl, hgc.trans (hconn.trans h.connected), h.unfailed, ?_, ?_⟩, ?_, hgp.trans hpending⟩
  · rw [System.run_append, hrun]
    rfl
  · simp [system, next, pump, Forward.isDone, Stream.isDone, hgs, hfin]
  · rw [recv, hgs]
    exact hready
  · rw [recv, hgs]
    exact hfin
  · rw [send, send, hgs]
    exact hsend

/-- `n` zero bytes fill the send buffer, and the reader has `avail` credit left. -/
def filling (n avail : ℕ) (pending : List UInt8) : Tunnel where
  forward := ⟨⟨{ Sender.new with buffer := List.replicate n 0, timer := Timer.new.arm 0 }, Receiver.new⟩, true,
    ⟨avail, false⟩, pending, none⟩
  write := ForwardWrite.new
  phase := .idle
  reader := ⟨0, false⟩
  mailbox := []
  received := []
  eofHandled := false

theorem run_readTurn {n avail k : ℕ} (hk : 0 < k) (hchunk : min avail readChunk = k) (hn : n ≤ forwardWindow) :
    system.run (filling n avail []) [.take, .read (List.replicate k 0), .absorb 0] =
      some (filling (min (n + k) forwardWindow) (avail - k) (List.replicate (n + k - forwardWindow) 0)) := by
  have hav : 0 < avail := by omega
  have harm : (Timer.new.arm 0).arm 0 = Timer.new.arm 0 := rfl
  have hlen : n + min (forwardWindow - n) k = min (n + k) forwardWindow := by omega
  have hrest : k - min (forwardWindow - n) k = n + k - forwardWindow := by omega
  simp [System.run, system, next, read, handle, filling, Credit.take, hav, hchunk, hk, hk.ne', Forward.absorb,
    Stream.write, Sender.write, Sender.writable, Sender.new, harm, hlen, hrest]

/-- A connected forward that has read nothing into its stream yet. -/
def granted (avail allowance : ℕ) (mailbox : List ReaderEvent) : Tunnel :=
  { new with
    forward := { Forward.new with connected := true, credit := ⟨avail, false⟩ }
    reader := ⟨allowance, false⟩
    mailbox := mailbox }

/-- Credit is granted again while the first chunk is still on its way to the
actor, which absorbs it after. -/
theorem run_overgrant {k : ℕ} (hk : 0 < k) (hkw : k ≤ forwardWindow) :
    system.run (granted (forwardWindow - k) k []) (.read (List.replicate k 0) ::
      (handTurn 0 1138 0 1 ++ [.grant, .check, .absorb 0])) = some (filling k forwardWindow []) := by
  have hread : system.next (granted (forwardWindow - k) k []) (.read (List.replicate k 0)) =
      some (granted (forwardWindow - k) 0 [.bytes (List.replicate k 0)]) := by
    simp [system, next, read, granted, hk]
  have hrest : Resting (granted (forwardWindow - k) 0 [.bytes (List.replicate k 0)]) := ⟨rfl, rfl, rfl, rfl, rfl⟩
  have hstream : (granted (forwardWindow - k) 0 [.bytes (List.replicate k 0)]).forward.pumpOut 0 1138 0 true 1 =
      (granted (forwardWindow - k) 0 []).forward := rfl
  have hraise : Credit.grant ⟨forwardWindow - k, false⟩ forwardWindow = ⟨forwardWindow, false⟩ :=
    if_neg (by simp only; omega)
  have hmin : min forwardWindow k = k := min_eq_right hkw
  have hwindow : forwardWindow ≠ 0 := by decide
  rw [System.run_cons_of_next hread, System.run_append, hrest.run_handTurn, hstream, Option.bind_some]
  simp [System.run, system, next, pump, handle, granted, filling, new, Forward.new, Forward.grantCredit, hraise,
    Forward.isDone, Stream.isDone, Sender.isDone, Stream.writable, Forward.absorb, Stream.new, Stream.write,
    Sender.write, Sender.writable, Sender.new, hmin, hk, hwindow]

theorem reachable_filling (m : ℕ) (h : (m + 1) * readChunk ≤ forwardWindow) :
    system.Reachable (filling ((m + 1) * readChunk) (forwardWindow - m * readChunk) []) := by
  have hpos : 0 < readChunk := by decide
  induction m with
  | zero =>
    have hstart : system.run new [.connect, .take] = some (granted (forwardWindow - readChunk) readChunk []) := by decide
    have := ((System.Reachable.init rfl).run hstart).run (run_overgrant hpos (by decide))
    simpa using this
  | succ m ih =>
    rw [Nat.succ_mul] at h
    have hstep := (ih (by omega)).run (run_readTurn hpos (by rw [Nat.succ_mul] at h; omega) (by omega))
    rw [min_eq_left h, Nat.sub_eq_zero_of_le h, List.replicate_zero] at hstep
    have hcredit : forwardWindow - (m + 1) * readChunk = forwardWindow - m * readChunk - readChunk := by
      rw [Nat.succ_mul, Nat.sub_sub]
    rw [Nat.succ_mul (m + 1), hcredit]
    exact hstep

theorem onAck_frees {s : Sender} {k : ℕ} (hb : s.base = 0) (hf : s.fin = none)
    (hlen : s.buffer.length = forwardWindow) (hkw : k ≤ forwardWindow) (window now : ℕ) :
    (s.onAck k window .empty now).2 = .ok () ∧ (s.onAck k window .empty now).1.writable = k := by
  have hrelease : (s.release k).writable = k := by
    unfold Sender.release Sender.endOff
    split_ifs with h
    · simp only [Sender.writable, hf, Option.isSome_none, Bool.false_eq_true, if_false, List.length_drop, hlen]
      omega
    · simp only [Sender.writable, hf, Option.isSome_none, Bool.false_eq_true, if_false, hlen]
      omega
  rcases s.onAck_cases k window .empty now with ⟨hstale, -⟩ | ⟨-, -, _, _, _, heq, -⟩ | ⟨-, ⟨run, hrun, -⟩, -⟩
  · rw [hb] at hstale
    exact absurd hstale (Nat.not_lt_zero k)
  · rw [heq]
    exact ⟨rfl, hrelease⟩
  · cases hrun

/-- Nine chunks are read on the credit for eight, and the ninth does not fit;
an acknowledgement then makes room for it, and the pump leaves it pending. -/
theorem pending_stranded : ∃ t t', system.Reachable t ∧ system.next t .check = some t' ∧
    t'.forward.pending.length = 32768 ∧ t'.forward.stream.writable = 32768 := by
  have hpos : 0 < readChunk := by decide
  have height : 8 * readChunk = forwardWindow := by decide
  -- The buffer is full and there is credit for one more chunk.
  have hfull : system.Reachable (filling forwardWindow readChunk []) := by
    have := reachable_filling 7 height.le
    have hleft : forwardWindow - 7 * readChunk = readChunk := by decide
    rwa [height, hleft] at this
  have hninth := hfull.run (run_readTurn hpos (min_self _) le_rfl)
  have hrest : Resting (filling forwardWindow 0 (List.replicate readChunk 0)) := ⟨rfl, rfl, rfl, rfl, rfl⟩
  -- A pump transmits the first chunk, and its acknowledgement arrives.
  obtain ⟨t₁, t₂, hrun, hcheck, hrest₂, hsame, hpend⟩ := hrest.pumpTurn 0 maxForwardChunk forwardWindow 1
  have hr₂ : system.Reachable t₂ := (hninth.run hrun).step hcheck
  obtain ⟨hok, hroom⟩ := onAck_frees (s := t₂.send) (k := readChunk) hsame.base hsame.fin
    (by rw [hsame.buffer]; exact List.length_replicate) (by decide) forwardWindow 1
  have hack : system.next t₂ (.onAck readChunk forwardWindow .empty 1) = some { t₂ with
      forward := { t₂.forward with stream := (t₂.forward.stream.onAck readChunk forwardWindow .empty 1).1 } } := by
    have hpair : t₂.forward.stream.onAck readChunk forwardWindow .empty 1 =
        ((t₂.forward.stream.onAck readChunk forwardWindow .empty 1).1, .ok ()) := Prod.ext rfl hok
    simp only [system, next, hrest₂.phase, if_true, handle]
    rw [hpair]
  have hrest₃ : Resting { t₂ with
      forward := { t₂.forward with stream := (t₂.forward.stream.onAck readChunk forwardWindow .empty 1).1 } } :=
    ⟨hrest₂.phase, hrest₂.connected, hrest₂.unfailed, hrest₂.ready, hrest₂.unfinished⟩
  -- The turn after it leaves the ninth chunk where it was.
  obtain ⟨t₃, t₄, hrun₃, hcheck₃, -, hsame₃, hpend₃⟩ := hrest₃.pumpTurn 1 maxForwardChunk forwardWindow 0
  refine ⟨t₃, t₄, (hr₂.step hack).run hrun₃, hcheck₃, ?_, ?_⟩
  · rw [hpend₃, hpend]
    exact List.length_replicate
  · rw [Stream.writable, ← send, hsame₃.writable]
    exact hroom

end Tunnel

end Braid.Daemon
