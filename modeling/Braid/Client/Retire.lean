import Braid.Client.Forward
import Braid.Daemon.Handover

/-! Retiring a finished forward, at both ends. What the peer sent is written,
or in the writer's batch, or in its queue, or still readable; a forward is
retired with nothing readable, and the client's also with an empty queue. So
the retirement loses exactly what the writer has not written by then: the queue
and the batch at the daemon, the batch at the client. -/

namespace Braid.Client.Conn

open Foundation Forwarding
open Forwarding.Receiver (SameRead)

variable {c c' : Conn} {a : ConnAction}

/-- What the stream has placed and the local buffer has not been given. -/
def unhanded (c : Conn) : List UInt8 :=
  match c.phase with
  | .second rest _ => rest
  | _ => c.stream.recv.ready

/-- No byte is lost or repeated between the peer and the local socket. -/
structure Conserves (c : Conn) : Prop where
  conserve : c.writer.outlet.contents ++ c.unhanded = c.received
  counts : c.stream.recv.Counts c.received.length
  inHand : ∀ rest moved, c.phase = .second rest moved → rest = c.stream.recv.ready.drop moved
  done : c.phase = .retiring → c.stream.recv.ready = [] ∧ c.writer.outlet.queue = []

theorem conserves_new : Conserves new := ⟨rfl, Receiver.counts_new, nofun, nofun⟩

theorem Conserves.aside (h : Conserves c) (hp : c.unhanded = c.stream.recv.ready)
    (hr : SameRead c.stream.recv c'.stream.recv)
    (hw : c'.writer.outlet.contents = c.writer.outlet.contents) (hrec : c'.received = c.received)
    (hp' : ∀ rest moved, c'.phase ≠ .second rest moved)
    (hd : c'.phase = .retiring → c'.stream.recv.ready = [] ∧ c'.writer.outlet.queue = []) : Conserves c' := by
  have hu : c'.unhanded = c'.stream.recv.ready := by
    unfold unhanded
    split
    · exact absurd ‹_› (hp' _ _)
    · rfl
  refine ⟨?_, ?_, fun rest moved hs => absurd hs (hp' rest moved), hd⟩
  · rw [hw, hu, hr.ready, ← hp, hrec]
    exact h.conserve
  · rw [hrec]
    exact hr.counts h.counts

theorem unhanded_idle (hp : c.phase = .idle) : c.unhanded = c.stream.recv.ready := by rw [unhanded, hp]

theorem Conserves.handle (h : Conserves c) (hp : c.phase = .idle) (hs : c.handle a = some c') : Conserves c' := by
  have haside : ∀ {stream : Stream}, stream.recv = c.stream.recv → Conserves { c with stream := stream } :=
    fun hr => h.aside (unhanded_idle hp) (hr ▸ .refl _) rfl rfl (by simp [hp]) (by simp [hp])
  unfold Conn.handle at hs
  split at hs
  · cases hs
    exact haside rfl
  · cases hs
    exact haside rfl
  · split at hs
    · rename_i stream hok
      cases hs
      obtain ⟨recv, hrecv, rfl⟩ := Stream.onData_ok hok
      obtain ⟨added, hready, hc, -⟩ := h.counts.onData hrecv
      refine ⟨?_, ?_, by simp [hp], by simp [hp]⟩
      · have hrec := h.conserve
        rw [unhanded_idle hp] at hrec
        rw [unhanded_idle (by exact hp)]
        simp only [hready, List.drop_left, ← hrec, List.append_assoc]
      · simp only [hready, List.drop_left, List.length_append]
        exact hc
    · cases hs
  · cases hs
    exact haside rfl
  · cases hs

/-- What a hand-over leaves: the bytes the buffer took are consumed. -/
theorem Conserves.handed (h : Conserves c) (bytes rest : List UInt8) {moved : ℕ} (hu : c.unhanded = bytes ++ rest)
    (hmoved : c.stream.recv.ready.drop moved = bytes.drop (c.writer.write bytes).2 ++ rest) :
    Conserves { c with
      writer := (c.writer.write bytes).1, stream := c.stream.consume moved, phase := .ending } := by
  obtain ⟨hnext, -, hfin, hfinished⟩ := c.stream.recv.consume_frame moved
  refine ⟨?_, ?_, nofun, nofun⟩
  · change (c.writer.write bytes).1.outlet.contents ++ (c.stream.recv.consume moved).ready = c.received
    rw [Receiver.consume_ready, hmoved, LocalWriter.write_contents, List.append_assoc,
      ← List.append_assoc (bytes.take _), List.take_append_drop, ← hu]
    exact h.conserve
  · exact ⟨by rw [Stream.consume, hnext, hfinished]; exact h.counts.next_eq,
      by rw [Stream.consume, hfinished, hfin]; exact h.counts.fin_eq⟩

theorem pumpOut_sameRead (s : Stream) (now budget wrap : ℕ) (ackTaken : Bool) (room : ℕ) :
    SameRead s.recv (pumpOut s now budget wrap ackTaken room).recv := by
  have hack := s.recv.pollAck_sameRead
  have hloop : ∀ s' : Stream, SameRead s.recv s'.recv → SameRead s.recv (s'.transmitAll now budget wrap room).recv :=
    fun s' h => Stream.transmitAll_rule (fun s' => SameRead s.recv s'.recv) (fun _ h => h) (fun _ _ h => h) room h
  unfold pumpOut
  split <;> rename_i heq <;> simp only [Stream.pollAck, Prod.mk.injEq] at heq <;> obtain ⟨rfl, -⟩ := heq
  · split_ifs
    · exact hloop _ hack
    · exact hack
  · exact hloop _ hack

theorem Conserves.pump (h : Conserves c) {phase : Phase} (hp : c.phase = phase) (hs : c.pump phase a = some c') :
    Conserves c' := by
  unfold Conn.pump at hs
  split at hs
  · rename_i wrap
    have hu : c.unhanded = c.stream.recv.ready := unhanded_idle hp
    have hsplit : c.unhanded = c.stream.recv.ready.take wrap ++ c.stream.recv.ready.drop wrap := by
      rw [hu, List.take_append_drop]
    cases hs
    by_cases hall : (c.writer.write (c.stream.recv.ready.take wrap)).2 = (c.stream.recv.ready.take wrap).length
    · refine (if_pos hall).symm ▸ ⟨?_, h.counts, ?_, nofun⟩
      · change (c.writer.write (c.stream.recv.ready.take wrap)).1.outlet.contents ++ c.stream.recv.ready.drop wrap =
          c.received
        rw [LocalWriter.write_contents, hall, List.take_length, List.append_assoc, ← hsplit]
        exact h.conserve
      · rintro rest moved ⟨⟩
        change c.stream.recv.ready.drop wrap =
          c.stream.recv.ready.drop (c.writer.write (c.stream.recv.ready.take wrap)).2
        rw [hall, List.length_take]
        rcases Nat.le_total wrap c.stream.recv.ready.length with hle | hle
        · rw [min_eq_left hle]
        · rw [min_eq_right hle, List.drop_length, List.drop_eq_nil_of_le hle]
    · refine (if_neg hall).symm ▸ h.handed _ _ hsplit ?_
      change c.stream.recv.ready.drop (c.writer.write (c.stream.recv.ready.take wrap)).2 = _
      rw [← List.drop_append_of_le_length (LocalWriter.write_le _ _), List.take_append_drop]
  · rename_i rest moved
    change some { c with
      writer := (c.writer.write rest).1
      stream := c.stream.consume (moved + (c.writer.write rest).2)
      phase := .ending } = some c' at hs
    cases hs
    refine h.handed rest [] (by rw [List.append_nil, unhanded, hp]) ?_
    rw [List.append_nil, ← List.drop_drop, ← h.inHand rest moved hp]
  · split_ifs at hs <;> cases hs <;>
      exact h.aside (by rw [unhanded, hp]) (.refl _) rfl rfl (by simp) (by simp)
  · cases hs
    exact h.aside (by rw [unhanded, hp]) (pumpOut_sameRead _ _ _ _ _ _) rfl rfl (by simp) (by simp)
  · cases hs
    exact h.aside (by rw [unhanded, hp]) (.refl _) rfl rfl (by simp) (by simp)
  · cases hs
    refine h.aside (by rw [unhanded, hp]) (.refl _) rfl rfl (fun _ _ => ?_) fun hret => ?_
    · dsimp only
      split_ifs <;> nofun
    · dsimp only at hret
      split_ifs at hret with hdone
      simp only [Stream.isDone, Bool.and_eq_true, beq_iff_eq, Receiver.readableLen, LocalWriter.drained,
        List.isEmpty_iff] at hdone
      exact ⟨List.length_eq_zero_iff.mp hdone.1.2, hdone.2⟩
  · cases hs
    exact h.aside (by rw [unhanded, hp]) (.refl _) rfl rfl (by simp) (by simp)
  · cases hs

theorem Conserves.next (h : Conserves c) (hs : c.next a = some c') : Conserves c' := by
  unfold Conn.next at hs
  split at hs
  · split_ifs at hs with hp
    exact h.handle hp hs
  · split_ifs at hs with hp
    exact h.handle hp hs
  · split_ifs at hs with hp
    exact h.handle hp hs
  · split_ifs at hs with hp
    exact h.handle hp hs
  · unfold Conn.work at hs
    split_ifs at hs with hp
    obtain ⟨outlet, ho, rfl⟩ := Option.map_eq_some_iff.mp hs
    refine ⟨?_, h.counts, h.inHand, fun hret => ?_⟩
    · rw [Outlet.step_contents ho]
      exact h.conserve
    · obtain ⟨hr, hq⟩ := h.done hret
      refine ⟨hr, ?_⟩
      rw [(Outlet.step_frame ho).2.2]
      split_ifs
      · rfl
      · exact hq
  · exact h.pump rfl hs

theorem reachable_conserves (h : system.Reachable c) : Conserves c :=
  h.invariant (by rintro _ rfl; exact conserves_new) fun _ _ _ h hs => h.next hs

end Braid.Client.Conn

namespace Braid

open Foundation Forwarding

/-- A forward about to be retired as finished has written all that it received
exactly when its writer has nothing left: no queue and no batch at the daemon,
and no batch at the client, which waits for the queue. -/
theorem retired_forward_written_iff (t : Daemon.Tunnel) (c : Client.Conn) :
    (Daemon.Tunnel.system.Reachable t → t.phase = .retiring →
      (t.write.outlet.out = t.received ↔
        t.write.outlet.queue = [] ∧ t.write.outlet.worker.unwritten = [])) ∧
    (Client.Conn.system.Reachable c → c.phase = .retiring →
      (c.writer.outlet.out = c.received ↔ c.writer.outlet.worker.unwritten = [])) := by
  constructor
  · intro ht hp
    have h := Daemon.Tunnel.reachable_conserves ht
    have hrec := h.conserve
    rw [Daemon.Tunnel.unhanded_of_inHand (by rw [hp]; rfl), h.done hp, List.append_nil] at hrec
    rw [← hrec, Outlet.contents, List.append_assoc, List.self_eq_append_right, List.append_eq_nil_iff, and_comm]
  · intro hc hp
    have h := Client.Conn.reachable_conserves hc
    obtain ⟨hready, hqueue⟩ := h.done hp
    have hrec := h.conserve
    rw [Client.Conn.unhanded, hp] at hrec
    simp only [hready, List.append_nil] at hrec
    rw [← hrec, Outlet.contents, hqueue, List.append_nil, List.self_eq_append_right]

/-- A pass of the daemon's pump, and one of the client's. -/
def daemonPass (room : ℕ) : List Daemon.TunnelAction :=
  [.pump 0 1138 1 true room, .handFirst 8, .handSecond, .shutdown, .grant, .check]

def clientPass (room : ℕ) : List Client.ConnAction :=
  [.moveFirst 8, .moveSecond, .handEnd, .transmit 0 1138 1 true room, .check]

/-- One byte and the end arrive, and the local socket ends; the pass that sends
that end hands the byte over. What the writer does then is `work`; the end is
acknowledged and the next pass retires the forward. -/
def daemonTransfer (work : List WorkerStep) : List Daemon.TunnelAction :=
  [.connect, .onData 0 true [7], .readEnd, .finish 0] ++ daemonPass 1 ++ work.map .work ++
    [.onAck 1 8 .empty 0] ++ daemonPass 0

def clientTransfer (work : List WorkerStep) : List Client.ConnAction :=
  [.onData 0 true [7], .localEnd] ++ clientPass 1 ++ work.map .work ++ [.onAck 1 8 .empty 0] ++ clientPass 0

theorem retired_forward_written_iff_transfer :
    (∃ t, Daemon.Tunnel.system.Reachable t ∧ t.phase = .retiring ∧ t.write.outlet.out = t.received ∧
      t.received = [7]) ∧
    (∃ c, Client.Conn.system.Reachable c ∧ c.phase = .retiring ∧ c.writer.outlet.out = c.received ∧
      c.received = [7]) := by
  constructor
  · obtain ⟨t, hr, hp, hq, hw, hrec⟩ : ∃ t, Daemon.Tunnel.system.Reachable t ∧ t.phase = .retiring ∧
        t.write.outlet.queue = [] ∧ t.write.outlet.worker.unwritten = [] ∧ t.received = [7] :=
      System.Reachable.of_run .new (daemonTransfer [.turn, .put 1]) rfl (by decide)
    exact ⟨t, hr, hp, ((retired_forward_written_iff t .new).1 hr hp).mpr ⟨hq, hw⟩, hrec⟩
  · obtain ⟨c, hr, hp, hw, hrec⟩ : ∃ c, Client.Conn.system.Reachable c ∧ c.phase = .retiring ∧
        c.writer.outlet.worker.unwritten = [] ∧ c.received = [7] :=
      System.Reachable.of_run .new (clientTransfer [.turn, .put 1]) rfl (by decide)
    exact ⟨c, hr, hp, ((retired_forward_written_iff .new c).2 hr hp).mpr hw, hrec⟩

/-- Both ends retire a forward whose only byte was never written: the daemon's
writer has not woken, the client's holds the byte in its batch. -/
theorem retired_forward_loses_tail :
    (∃ t, Daemon.Tunnel.system.Reachable t ∧ t.phase = .retiring ∧ t.write.outlet.out = [] ∧
      t.received = [7]) ∧
    (∃ c, Client.Conn.system.Reachable c ∧ c.phase = .retiring ∧ c.writer.outlet.out = [] ∧
      c.received = [7]) := by
  constructor
  · exact System.Reachable.of_run .new (daemonTransfer []) rfl (by decide)
  · exact System.Reachable.of_run .new (clientTransfer [.turn]) rfl (by decide)

end Braid
