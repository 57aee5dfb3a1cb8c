import Braid.Daemon.Tunnel

/-! The bytes on their way from the peer to the daemon's socket. Every step
either leaves them alone or moves a prefix of one stage to the next, so what
the worker has written, its batch, the write buffer and the receive buffer
always concatenate to what the peer sent. -/

namespace Braid.Daemon

open Foundation Forwarding
open Forwarding.Receiver (SameRead)

variable (f : Forward)

theorem Forward.pumpOut_sameRead (now budget wrap : ℕ) (ackTaken : Bool) (room : ℕ) :
    SameRead f.stream.recv (f.pumpOut now budget wrap ackTaken room).stream.recv := by
  have hack : SameRead f.stream.recv (if ackTaken then f.pollOwedAck.acked else f.pollOwedAck).stream.recv := by
    split_ifs <;> exact f.stream.recv.pollAck_sameRead
  exact Stream.transmitAll_rule (fun s => SameRead f.stream.recv s.recv) (fun _ h => h) (fun _ _ h => h) room hack

theorem Forward.drainPending_recv (now : ℕ) :
    (f.drainPending now).stream.recv = f.stream.recv := by
  unfold Forward.drainPending
  split_ifs <;> rfl

variable (bytes : List UInt8)

theorem Forward.absorb_recv (now : ℕ) :
    (f.absorb bytes now).stream.recv = f.stream.recv := by
  unfold Forward.absorb
  split_ifs
  · rfl
  · exact Forward.drainPending_recv _ now

theorem Forward.finish_recv (now : ℕ) : (f.finish now).stream.recv = f.stream.recv := by
  unfold Forward.finish
  dsimp only
  split_ifs
  · exact Forward.drainPending_recv f now
  · exact Forward.drainPending_recv f now

theorem Forward.grantCredit_frame : f.grantCredit.stream = f.stream ∧
    f.grantCredit.pending = f.pending ∧ f.grantCredit.connected = f.connected := by
  unfold Forward.grantCredit
  split_ifs <;> exact ⟨rfl, rfl, rfl⟩

namespace ForwardWrite

variable (w : ForwardWrite)

theorem write_contents :
    (w.write bytes).1.outlet.contents = w.outlet.contents ++ bytes.take (w.write bytes).2 := by
  unfold write
  split_ifs
  · simp
  · exact Outlet.contents_push _ _

theorem write_nil : w.write [] = (w, 0) := by
  unfold write
  split_ifs
  · rfl
  · simp [Outlet.push]

theorem write_settled {w : ForwardWrite} (h : w.outlet.Settled) (bytes : List UInt8) :
    (w.write bytes).1.outlet.Settled := by
  unfold write
  split_ifs with hrefuse
  · exact h
  · simp only [Bool.or_eq_true, not_or, Bool.not_eq_true] at hrefuse
    exact h.push hrefuse.2 _

theorem write_frame :
    (w.write bytes).1.outlet.ended = w.outlet.ended ∧ (w.write bytes).1.outlet.closed = w.outlet.closed ∧
      (w.write bytes).1.failed = w.failed := by
  unfold write
  split_ifs <;> exact ⟨rfl, rfl, rfl⟩

theorem write_fits {w : ForwardWrite} (hc : w.outlet.closed = false) (hf : w.failed = false)
    (he : w.outlet.ended = false) {bytes : List UInt8} (hfit : bytes.length ≤ backlog - w.charged) :
    (w.write bytes).2 = bytes.length ∧ (w.write bytes).1.charged = w.charged + bytes.length := by
  unfold write
  simp only [hc, hf, he, Bool.or_self, Bool.false_eq_true, if_false, min_eq_right hfit, true_and]
  simp only [charged, Outlet.push, List.length_append, List.take_length]
  omega

theorem work_cases {w w' : ForwardWrite} {step : WorkerStep} (h : w.work step = some w') :
    w.outlet.step step = some w'.outlet ∧ w'.failed = w.failed ∧
      w'.writing = if step = .turn then w.outlet.queue.length else w.writing := by
  obtain ⟨o, ho, rfl⟩ := Option.map_eq_some_iff.mp h
  exact ⟨ho, rfl, rfl⟩

theorem work_charged_le {w w' : ForwardWrite} {step : WorkerStep} (h : w.work step = some w') :
    w'.charged ≤ w.charged := by
  obtain ⟨ho, -, hw⟩ := work_cases h
  rw [charged, charged, hw, (Outlet.step_frame ho).2.2]
  split_ifs
  · simp
  · exact le_rfl

theorem write_le : (w.write bytes).2 ≤ bytes.length := by
  unfold write
  split_ifs
  · exact Nat.zero_le _
  · exact min_le_right _ _

end ForwardWrite

namespace Tunnel

variable {t t' : Tunnel} {a : TunnelAction}

def recv (t : Tunnel) : Receiver := t.forward.stream.recv

def inHand : Phase → Option (List UInt8 × ℕ)
  | .second rest taken => some (rest, taken)
  | _ => none

/-- Whether the forward is alive and the actor is not in the middle of handing
bytes over. -/
def between : Phase → Bool
  | .second _ _ | .shutting | .retired => false
  | _ => true

theorem inHand_of_between {phase : Phase} (h : between phase = true) : inHand phase = none := by
  cases phase <;> first | rfl | cases h

inductive Moves (t : Tunnel) : TunnelAction → Tunnel → Prop where
  /-- Nothing. -/
  | aside {a : TunnelAction} {t' : Tunnel} (hr : SameRead t.recv t'.recv) (hw : t'.write = t.write)
      (hrec : t'.received = t.received)
      (hp : t'.phase = t.phase ∨ inHand t.phase = none ∧ t.phase ≠ .retired ∧ between t'.phase = true)
      (hd : t'.phase = .retiring → t.phase = .retiring ∨ t'.forward.stream.isDone = true) : Moves t a t'
  /-- A segment arrives. -/
  | arrive {off : ℕ} {fin : Bool} {bytes : List UInt8} {t' : Tunnel} (hp : t.phase = .idle)
      (hok : t.recv.onData off fin bytes = .ok t'.recv) (hw : t'.write = t.write)
      (hrec : t'.received = t.received ++ t'.recv.ready.drop t.recv.ready.length) (hp' : t'.phase = .idle) :
      Moves t (.onData off fin bytes) t'
  /-- The write buffer takes the whole first slice. -/
  | first {wrap : ℕ} (hp : t.phase = .handing)
      (hall : (t.write.write (t.recv.ready.take wrap)).2 = (t.recv.ready.take wrap).length) :
      Moves t (.handFirst wrap) { t with
        write := (t.write.write (t.recv.ready.take wrap)).1
        phase := .second (t.recv.ready.drop wrap) (t.write.write (t.recv.ready.take wrap)).2 }
  /-- The write buffer takes a prefix of the first slice, and it is consumed. -/
  | part {wrap : ℕ} (hp : t.phase = .handing)
      (hpart : (t.write.write (t.recv.ready.take wrap)).2 < (t.recv.ready.take wrap).length) :
      Moves t (.handFirst wrap) { t with
        write := (t.write.write (t.recv.ready.take wrap)).1
        forward := { t.forward with
          stream := t.forward.stream.consume (t.write.write (t.recv.ready.take wrap)).2 }
        phase := .shutting }
  /-- The write buffer takes a prefix of the second slice, and all is consumed. -/
  | second {rest : List UInt8} {taken : ℕ} (hp : t.phase = .second rest taken) :
      Moves t .handSecond { t with
        write := (t.write.write rest).1
        forward := { t.forward with stream := t.forward.stream.consume (taken + (t.write.write rest).2) }
        phase := .shutting }
  /-- The write buffer is ended. -/
  | finish (hp : t.phase = .shutting) (hf : t.recv.finished = true) :
      Moves t .shutdown { t with write := t.write.shutdown, phase := .granting }
  /-- The forward is dropped. -/
  | drop (hp : t.phase = .retiring) :
      Moves t .retire { t with
        forward := { t.forward with credit := t.forward.credit.close }
        write := { t.write with outlet := { t.write.outlet with closed := true } }
        phase := .retired }
  /-- The worker works. -/
  | work {step : WorkerStep} {write : ForwardWrite} (hp : t.phase ≠ .retired)
      (hw : t.write.work step = some write) : Moves t (.work step) { t with write }

theorem read_moves (h : t.read a = some t') : Moves t a t' := by
  unfold Tunnel.read at h
  split at h
  · split_ifs at h
    obtain ⟨⟨credit, taken⟩, -, rfl⟩ := Option.map_eq_some_iff.mp h
    exact .aside (.refl _) rfl rfl (.inl rfl) .inl
  · split_ifs at h
    obtain rfl : _ = t' := by simpa using h
    exact .aside (.refl _) rfl rfl (.inl rfl) .inl
  · split_ifs at h
    obtain rfl : _ = t' := by simpa using h
    exact .aside (.refl _) rfl rfl (.inl rfl) .inl
  · cases h

theorem handle_moves (hp : t.phase = .idle) (h : t.handle a = some t') : Moves t a t' := by
  have haside : ∀ {t' : Tunnel}, t'.recv = t.recv → t'.write = t.write → t'.received = t.received →
      t'.phase = t.phase → Moves t a t' := fun hr hw hrec hp =>
    .aside (hr ▸ .refl _) hw hrec (.inl hp) fun h => .inl (hp ▸ h)
  unfold Tunnel.handle at h
  split at h
  · obtain rfl : _ = t' := by simpa using h
    exact haside (congrArg Stream.recv (Forward.grantCredit_frame _).1) rfl rfl rfl
  · split at h
    · obtain rfl : _ = t' := by simpa using h
      exact haside (Forward.absorb_recv _ _ _) rfl rfl rfl
    · cases h
  · split at h
    · obtain rfl : _ = t' := by simpa using h
      exact haside (Forward.finish_recv _ _) rfl rfl rfl
    · cases h
  · split at h
    · rename_i stream hok
      obtain rfl : _ = t' := by simpa using h
      obtain ⟨recv, hrecv, rfl⟩ := Stream.onData_ok hok
      exact .arrive hp hrecv rfl rfl hp
    · cases h
  · split at h
    · rename_i stream _ hok
      obtain rfl : _ = t' := by simpa using h
      simp only [Stream.onAck, Prod.mk.injEq] at hok
      obtain ⟨rfl, -⟩ := hok
      exact haside rfl rfl rfl rfl
    · cases h
  · cases h

theorem pump_moves {phase : Phase} (hp : t.phase = phase) (h : t.pump phase a = some t') : Moves t a t' := by
  have haside : ∀ {t' : Tunnel}, SameRead t.recv t'.recv → t'.write = t.write → t'.received = t.received →
      inHand phase = none → phase ≠ .retired → between t'.phase = true →
      (t'.phase = .retiring → t'.forward.stream.isDone = true) → Moves t a t' :=
    fun hr hw hrec h₁ h₂ h₃ hd => .aside hr hw hrec (.inr ⟨hp ▸ h₁, hp ▸ h₂, h₃⟩) fun h => .inr (hd h)
  unfold Tunnel.pump at h
  split at h
  · obtain rfl : _ = t' := by simpa using h
    exact haside (Forward.pumpOut_sameRead _ _ _ _ _ _) rfl rfl rfl nofun rfl nofun
  · rename_i wrap
    split_ifs at h with hc hfailed
    · obtain rfl : _ = t' := by simpa using h
      exact haside (.refl _) rfl rfl rfl nofun rfl nofun
    · cases h
      by_cases hall : (t.write.write (t.recv.ready.take wrap)).2 = (t.recv.ready.take wrap).length
      · exact (if_pos hall).symm ▸ .first hp hall
      · exact (if_neg hall).symm ▸ .part hp (lt_of_le_of_ne (ForwardWrite.write_le _ _) hall)
  · obtain rfl : _ = t' := by simpa using h
    exact .second hp
  · rw [Option.some.injEq] at h
    subst h
    split_ifs with hf
    · exact .finish hp hf
    · exact haside (.refl _) rfl rfl rfl nofun rfl nofun
  · obtain rfl : _ = t' := by simpa using h
    refine haside ?_ rfl rfl rfl nofun rfl nofun
    rw [recv, recv, (Forward.grantCredit_frame _).1]
    exact .refl _
  · rw [Option.some.injEq] at h
    subst h
    split_ifs with hd
    · refine haside (.refl _) rfl rfl rfl nofun rfl fun _ => ?_
      simp only [Forward.isDone, Bool.and_eq_true] at hd
      exact hd.2
    · exact haside (.refl _) rfl rfl rfl nofun rfl nofun
  · obtain rfl : _ = t' := by simpa using h
    exact .drop hp
  · cases h

/-- Every step of the tunnel is one of these. -/
theorem next_moves (h : t.next a = some t') : Moves t a t' := by
  unfold Tunnel.next at h
  split at h
  · exact read_moves h
  · exact read_moves h
  · exact read_moves h
  · split_ifs at h with hp
    exact handle_moves hp h
  · split_ifs at h with hp
    exact handle_moves hp h
  · split_ifs at h with hp
    exact handle_moves hp h
  · split_ifs at h with hp
    exact handle_moves hp h
  · split_ifs at h with hp
    exact handle_moves hp h
  · unfold Tunnel.work at h
    split_ifs at h with hp
    obtain ⟨write, hw, rfl⟩ := Option.map_eq_some_iff.mp h
    exact .work hp hw
  · exact pump_moves rfl h

/-! ### Conservation -/

def unhanded (t : Tunnel) : List UInt8 :=
  match t.phase with
  | .second rest _ => rest
  | _ => t.recv.ready

theorem unhanded_of_inHand (h : inHand t.phase = none) : t.unhanded = t.recv.ready := by
  unfold unhanded
  split
  · rename_i hp
    rw [hp] at h
    cases h
  · rfl

/-- No byte is lost or repeated between the peer and the socket. -/
structure Conserves (t : Tunnel) : Prop where
  conserve : t.write.outlet.contents ++ t.unhanded = t.received
  counts : t.recv.Counts t.received.length
  inHand : ∀ rest taken, t.phase = .second rest taken → rest = t.recv.ready.drop taken
  settled : t.write.outlet.Settled
  unfailed : t.write.failed = false
  closed : t.write.outlet.closed = true → t.phase = .retired
  done : t.phase = .retiring → t.recv.ready = []

theorem conserves_new : Conserves new where
  conserve := rfl
  counts := Receiver.counts_new
  inHand := nofun
  settled := Outlet.settled_new
  unfailed := rfl
  closed := nofun
  done := nofun

theorem Conserves.hand {bytes rest : List UInt8} (h : Conserves t) (hu : t.unhanded = bytes ++ rest) :
    (t.write.write bytes).1.outlet.contents ++ (bytes.drop (t.write.write bytes).2 ++ rest) = t.received := by
  rw [ForwardWrite.write_contents, List.append_assoc, ← List.append_assoc (bytes.take _), List.take_append_drop,
    ← hu]
  exact h.conserve

theorem aside_unhanded (hr : SameRead t.recv t'.recv)
    (hp : t'.phase = t.phase ∨ inHand t.phase = none ∧ t.phase ≠ .retired ∧ between t'.phase = true) :
    t'.unhanded = t.unhanded := by
  rcases hp with hp | ⟨hp, -, hp'⟩
  · unfold unhanded
    rw [hp, hr.ready]
  · rw [unhanded_of_inHand hp, unhanded_of_inHand (inHand_of_between hp'), hr.ready]

theorem Conserves.aside (h : Conserves t) (hr : SameRead t.recv t'.recv) (hw : t'.write = t.write)
    (hrec : t'.received = t.received)
    (hp : t'.phase = t.phase ∨
      Tunnel.inHand t.phase = none ∧ t.phase ≠ .retired ∧ between t'.phase = true)
    (hd : t'.phase = .retiring → t.phase = .retiring ∨ t'.forward.stream.isDone = true) : Conserves t' := by
  have hun := aside_unhanded hr hp
  refine ⟨?_, ?_, ?_, hw ▸ h.settled, hw ▸ h.unfailed, ?_, ?_⟩
  · rw [hw, hun, hrec]
    exact h.conserve
  · rw [hrec]
    exact hr.counts h.counts
  · intro rest taken hp'
    rcases hp with hp | ⟨-, -, hp⟩
    · rw [hr.ready]
      exact h.inHand rest taken (hp ▸ hp')
    · rw [hp'] at hp
      cases hp
  · intro hc
    have hret := h.closed (hw ▸ hc)
    rcases hp with hp | ⟨-, hp, -⟩
    · exact hp.trans hret
    · exact absurd hret hp
  · intro hp'
    rcases hd hp' with hp' | hdone
    · rw [hr.ready]
      exact h.done hp'
    · simp only [Stream.isDone, Bool.and_eq_true, beq_iff_eq, Receiver.readableLen] at hdone
      exact List.length_eq_zero_iff.mp hdone.2

theorem Conserves.arrive (h : Conserves t) {off : ℕ} {fin : Bool} {bytes : List UInt8} (hp : t.phase = .idle)
    (hok : t.recv.onData off fin bytes = .ok t'.recv) (hw : t'.write = t.write)
    (hrec : t'.received = t.received ++ t'.recv.ready.drop t.recv.ready.length) (hp' : t'.phase = .idle) :
    Conserves t' := by
  obtain ⟨added, hready, hc, -⟩ := h.counts.onData hok
  have hadded : t'.recv.ready.drop t.recv.ready.length = added := by rw [hready, List.drop_left]
  rw [hadded] at hrec
  have hu : t.unhanded = t.recv.ready := unhanded_of_inHand (by rw [hp]; rfl)
  have hu' : t'.unhanded = t'.recv.ready := unhanded_of_inHand (by rw [hp']; rfl)
  refine ⟨?_, ?_, by simp [hp'], hw ▸ h.settled, hw ▸ h.unfailed, ?_, by simp [hp']⟩
  · rw [hw, hu', hready, hrec, ← h.conserve, hu, List.append_assoc]
  · rw [hrec, List.length_append]
    exact hc
  · intro hcl
    have := h.closed (hw ▸ hcl)
    rw [hp] at this
    cases this

/-- What a hand-over leaves: the bytes the buffer took are consumed. -/
theorem Conserves.handed (h : Conserves t) (bytes rest : List UInt8) {taken : ℕ}
    (hu : t.unhanded = bytes ++ rest) (hret : t.phase ≠ .retired)
    (htaken : t.recv.ready.drop taken = bytes.drop (t.write.write bytes).2 ++ rest) :
    Conserves { t with
      write := (t.write.write bytes).1
      forward := { t.forward with stream := t.forward.stream.consume taken }
      phase := .shutting } := by
  obtain ⟨-, hclosed, hfailed⟩ := t.write.write_frame bytes
  obtain ⟨hnext, -, hfin, hfinished⟩ := t.recv.consume_frame taken
  have hsame : (t.recv.consume taken).Counts t.received.length :=
    ⟨by rw [hnext, hfinished]; exact h.counts.next_eq, by rw [hfinished, hfin]; exact h.counts.fin_eq⟩
  refine ⟨?_, hsame, nofun, ForwardWrite.write_settled h.settled bytes, hfailed.trans h.unfailed, ?_, nofun⟩
  · have hready : (t.recv.consume taken).ready = bytes.drop (t.write.write bytes).2 ++ rest := by
      rw [Receiver.consume_ready, htaken]
    change (t.write.write bytes).1.outlet.contents ++ (t.recv.consume taken).ready = t.received
    rw [hready]
    exact h.hand hu
  · intro hc
    exact absurd (h.closed (hclosed ▸ hc)) hret

theorem Conserves.next (h : Conserves t) (hs : t.next a = some t') : Conserves t' := by
  cases next_moves hs with
  | aside hr hw hrec hp hd => exact h.aside hr hw hrec hp hd
  | arrive hp hok hw hrec hp' => exact h.arrive hp hok hw hrec hp'
  | @first wrap hp hall =>
    obtain ⟨-, hclosed, hfailed⟩ := t.write.write_frame (t.recv.ready.take wrap)
    have hu : t.unhanded = t.recv.ready.take wrap ++ t.recv.ready.drop wrap := by
      rw [unhanded_of_inHand (by rw [hp]; rfl), List.take_append_drop]
    refine ⟨?_, h.counts, ?_, ForwardWrite.write_settled h.settled _, hfailed.trans h.unfailed, ?_, nofun⟩
    · have := h.hand hu
      rwa [hall, List.drop_length, List.nil_append] at this
    · rintro rest taken ⟨⟩
      rw [hall]
      change t.recv.ready.drop wrap = t.recv.ready.drop (t.recv.ready.take wrap).length
      rw [List.length_take]
      rcases Nat.le_total wrap t.recv.ready.length with hle | hle
      · rw [min_eq_left hle]
      · rw [min_eq_right hle, List.drop_length, List.drop_eq_nil_of_le hle]
    · intro hc
      have := h.closed (hclosed ▸ hc)
      rw [hp] at this
      cases this
  | @part wrap hp hpart =>
    refine h.handed (t.recv.ready.take wrap) (t.recv.ready.drop wrap) ?_ (by rw [hp]; nofun) ?_
    · rw [unhanded_of_inHand (by rw [hp]; rfl), List.take_append_drop]
    · rw [← List.drop_append_of_le_length (ForwardWrite.write_le _ _), List.take_append_drop]
  | @second rest taken hp =>
    refine h.handed rest [] ?_ (by rw [hp]; nofun) ?_
    · rw [List.append_nil, unhanded, hp]
    · rw [List.append_nil, ← List.drop_drop, ← h.inHand rest taken hp]
  | finish hp hf =>
    refine ⟨?_, h.counts, nofun, ?_, h.unfailed, ?_, nofun⟩
    · have := h.conserve
      rwa [unhanded_of_inHand (by rw [hp]; rfl)] at this
    · intro hs
      obtain ⟨-, hw, hq⟩ := h.settled hs
      exact ⟨rfl, hw, hq⟩
    · intro hc
      have := h.closed hc
      rw [hp] at this
      cases this
  | drop hp =>
    refine ⟨?_, h.counts, nofun, h.settled, h.unfailed, fun _ => rfl, nofun⟩
    have := h.conserve
    rwa [unhanded_of_inHand (by rw [hp]; rfl)] at this
  | work hp hw =>
    obtain ⟨ho, hfailed, -⟩ := ForwardWrite.work_cases hw
    refine ⟨?_, h.counts, h.inHand, h.settled.step ho, hfailed.trans h.unfailed, ?_, h.done⟩
    · rw [Outlet.step_contents ho]
      exact h.conserve
    · intro hc
      exact h.closed ((Outlet.step_frame ho).2.1 ▸ hc)

theorem reachable_conserves (h : system.Reachable t) : Conserves t :=
  h.invariant (by rintro _ rfl; exact conserves_new) fun _ _ _ h hs => h.next hs

end Tunnel

end Braid.Daemon
