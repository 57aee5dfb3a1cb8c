import Braid.Daemon.Handover

/-! When the daemon half-closes a forwarded socket. `drain_to_socket` ends the
write buffer as soon as the peer's end has been placed, whether or not the
buffer took all that precedes the end. If at every hand-over made with the end
in place the backlog has room for what is readable, the socket is half-closed
over exactly the bytes that precede the end; without that the end overtakes the
tail, which an ended buffer then refuses for ever. -/

namespace Braid.Daemon.Tunnel

open Foundation Forwarding

variable {t t' : Tunnel} {a : TunnelAction}

/-- Whether the actor starts a hand-over. -/
def handsOver : TunnelAction → Bool
  | .handFirst _ => true
  | _ => false

/-- A hand-over made with the peer's end in place finds room in the backlog for
everything readable. -/
def EndHasRoom (t : Tunnel) (a : TunnelAction) : Prop :=
  handsOver a = true → t.recv.finished = true → t.recv.ready.length ≤ backlog - t.write.charged

instance (t : Tunnel) (a : TunnelAction) : Decidable (EndHasRoom t a) :=
  inferInstanceAs (Decidable (_ → _))

/-- An ended buffer has been given everything, and a hand-over in progress with
the end in place will be taken whole. -/
structure EndFits (t : Tunnel) : Prop where
  ended : t.write.outlet.ended = true → t.recv.finished = true ∧ t.unhanded = []
  second : ∀ rest taken, t.phase = .second rest taken → t.recv.finished = true →
    t.write.outlet.ended = false → rest.length ≤ backlog - t.write.charged
  shutting : t.phase = .shutting → t.recv.finished = true → t.recv.ready = []

theorem endFits_new : EndFits new := ⟨nofun, nofun, nofun⟩

theorem unhanded_idle (hp : t.phase = .idle) : t.unhanded = t.recv.ready :=
  unhanded_of_inHand (by rw [hp]; rfl)

/-- A write of all there is, into a buffer with room for it or already ended,
leaves nothing. -/
theorem EndFits.write_all (h : EndFits t) (hc : Conserves t) (hret : t.phase ≠ .retired)
    {bytes rest : List UInt8} (hu : t.unhanded = bytes ++ rest)
    (hroom : t.write.outlet.ended = false → bytes.length ≤ backlog - t.write.charged) :
    (t.write.write bytes).2 = bytes.length := by
  cases he : t.write.outlet.ended with
  | true =>
    have hnil := (h.ended he).2
    rw [hu, List.append_eq_nil_iff] at hnil
    have := t.write.write_le bytes
    rw [hnil.1] at this ⊢
    exact Nat.le_zero.mp this
  | false =>
    have hopen : t.write.outlet.closed = false := by
      by_contra hcl
      exact hret (hc.closed (by simpa using hcl))
    exact (ForwardWrite.write_fits hopen hc.unfailed he (hroom he)).1

theorem EndFits.next (h : EndFits t) (hc : Conserves t) (hok : EndHasRoom t a) (hs : t.next a = some t') :
    EndFits t' := by
  cases next_moves hs with
  | aside hr hw hrec hp hd =>
    have hun := aside_unhanded hr hp
    refine ⟨?_, ?_, ?_⟩
    · rw [hw, hr.finished, hun]
      exact h.ended
    · intro rest taken hp'
      rw [hw, hr.finished]
      rcases hp with hp | ⟨-, -, hp⟩
      · exact h.second rest taken (hp ▸ hp')
      · rw [hp'] at hp
        cases hp
    · intro hp'
      rw [hr.finished, hr.ready]
      rcases hp with hp | ⟨-, -, hp⟩
      · exact h.shutting (hp ▸ hp')
      · rw [hp'] at hp
        cases hp
  | arrive hp hok' hw hrec hp' =>
    refine ⟨?_, by simp [hp'], by simp [hp']⟩
    rw [hw]
    intro he
    obtain ⟨hf, hnil⟩ := h.ended he
    obtain ⟨added, hready, -, hfin⟩ := hc.counts.onData hok'
    obtain ⟨hf', hadd⟩ := hfin hf
    refine ⟨hf', ?_⟩
    rw [unhanded_idle hp', hready, hadd, List.append_nil, ← unhanded_idle hp]
    exact hnil
  | @first wrap hp hall =>
    obtain ⟨hended, -, -⟩ := t.write.write_frame (t.recv.ready.take wrap)
    have hu : t.unhanded = t.recv.ready := unhanded_of_inHand (by rw [hp]; rfl)
    have hopen : t.write.outlet.closed = false := by
      by_contra hcl
      have := hc.closed (by simpa using hcl)
      rw [hp] at this
      cases this
    refine ⟨?_, ?_, by rintro ⟨⟩⟩
    · intro he
      obtain ⟨hf, hnil⟩ := h.ended (hended ▸ he)
      refine ⟨hf, ?_⟩
      rw [hu] at hnil
      change t.recv.ready.drop wrap = []
      rw [hnil, List.drop_nil]
    · rintro rest taken ⟨⟩ hf he
      have hroom := hok rfl hf
      have hsplit := List.length_append.symm.trans (congrArg List.length (List.take_append_drop wrap t.recv.ready))
      have hfirst : (t.recv.ready.take wrap).length ≤ backlog - t.write.charged := by omega
      have hch := (ForwardWrite.write_fits hopen hc.unfailed (hended ▸ he) hfirst).2
      change (t.recv.ready.drop wrap).length ≤ backlog - (t.write.write (t.recv.ready.take wrap)).1.charged
      omega
  | @part wrap hp hpart =>
    have hu : t.unhanded = t.recv.ready.take wrap ++ t.recv.ready.drop wrap := by
      rw [unhanded_of_inHand (by rw [hp]; rfl), List.take_append_drop]
    have hunfinished : t.recv.finished = false := by
      by_contra hf
      have hroom := hok rfl (by simpa using hf)
      have := h.write_all hc (by rw [hp]; rintro ⟨⟩) hu fun _ => by rw [List.length_take]; omega
      omega
    obtain ⟨hended, -, -⟩ := t.write.write_frame (t.recv.ready.take wrap)
    have hfinished : (t.recv.consume (t.write.write (t.recv.ready.take wrap)).2).finished = false :=
      (t.recv.consume_frame _).2.2.2.trans hunfinished
    refine ⟨fun he => ?_, by rintro _ _ ⟨⟩, fun _ hf => ?_⟩
    · have := (h.ended (hended ▸ he)).1
      rw [hunfinished] at this
      cases this
    · rw [recv] at hf
      cases hfinished.symm.trans hf
  | @second rest taken hp =>
    obtain ⟨hended, -, -⟩ := t.write.write_frame rest
    have hu : t.unhanded = rest := by rw [unhanded, hp]
    have hready : (t.recv.consume (taken + (t.write.write rest).2)).ready = rest.drop (t.write.write rest).2 := by
      rw [Receiver.consume_ready, ← List.drop_drop, ← hc.inHand rest taken hp]
    have hfinished := (t.recv.consume_frame (taken + (t.write.write rest).2)).2.2.2
    refine ⟨fun he => ?_, by rintro _ _ ⟨⟩, fun _ hf => ?_⟩
    · obtain ⟨hf, hnil⟩ := h.ended (hended ▸ he)
      refine ⟨hfinished.trans hf, hready.trans ?_⟩
      rw [← hu, hnil, List.drop_nil]
    · have hall := h.write_all hc (by rw [hp]; rintro ⟨⟩) (hu.trans (List.append_nil _).symm)
        (h.second rest taken hp (hfinished.symm.trans hf))
      exact hready.trans (by rw [hall, List.drop_length])
  | finish hp hf => exact ⟨fun _ => ⟨hf, h.shutting hp hf⟩, by rintro _ _ ⟨⟩, by rintro ⟨⟩⟩
  | drop hp =>
    refine ⟨fun he => ?_, by rintro _ _ ⟨⟩, by rintro ⟨⟩⟩
    have := h.ended he
    rwa [unhanded_of_inHand (by rw [hp]; rfl)] at this
  | @work _ write hp hw =>
    have hch := ForwardWrite.work_charged_le hw
    obtain ⟨ho, -, -⟩ := ForwardWrite.work_cases hw
    obtain ⟨hended, -, -⟩ := Outlet.step_frame ho
    refine ⟨fun he => h.ended (hended ▸ he), fun rest taken hp hf he => ?_, h.shutting⟩
    have := h.second rest taken hp hf (hended ▸ he)
    change rest.length ≤ backlog - write.charged
    omega

/-- Runs in which the end always finds room half-close the socket over exactly
the bytes that precede the peer's declared end. -/
theorem half_close_exact (h : system.Via EndHasRoom t) (hc : t.write.outlet.halfClosed = true) :
    t.write.outlet.out = t.received ∧ t.recv.fin = some (min t.write.outlet.out.length u64Max) := by
  obtain ⟨hcons, hfits⟩ := h.invariant (P := fun t => Conserves t ∧ EndFits t)
    (by rintro _ rfl; exact ⟨conserves_new, endFits_new⟩)
    fun _ _ _ h hok hs => ⟨h.1.next hs, h.2.next h.1 hok hs⟩
  obtain ⟨hfinished, hnil⟩ := hfits.ended (hcons.settled (.inr hc)).1
  have hall : t.write.outlet.out = t.received := by
    rw [hcons.settled.written hc, ← hcons.conserve, hnil, List.append_nil]
  exact ⟨hall, hall ▸ hcons.counts.fin_eq hfinished⟩

/-- One byte and the end, handed over, written and half-closed. -/
def shortClose : List TunnelAction :=
  [.connect, .onData 0 true [104], .pump 0 1138 0 true 0, .handFirst 1, .handSecond, .shutdown,
    .work .turn, .work (.put 1), .work .turn, .work .halfClose]

theorem half_close_exact_shortClose : ∃ t, system.Via EndHasRoom t ∧ t.write.outlet.halfClosed = true ∧
    t.write.outlet.out = [104] ∧ t.recv.fin = some 1 := by
  obtain ⟨t, hvia, hclosed, hrec⟩ : ∃ t, system.Via EndHasRoom t ∧ t.write.outlet.halfClosed = true ∧ t.received = [104] :=
    System.Via.of_run new shortClose rfl (by decide)
  obtain ⟨hout, hfin⟩ := half_close_exact hvia hclosed
  rw [hrec] at hout
  rw [hout] at hfin
  exact ⟨t, hvia, hclosed, hout, hfin⟩

/-! ### The end overtakes the tail -/

/-- `n` zero bytes have been received and wait for a writer that has not run. -/
def queued (n : ℕ) : Tunnel where
  forward := ⟨⟨Sender.new, { Receiver.new with next := n }⟩, true, ⟨forwardWindow, false⟩, [], none⟩
  write := ⟨{ Outlet.new with queue := List.replicate n 0 }, 0, false⟩
  phase := .idle
  reader := ⟨0, false⟩
  mailbox := []
  received := List.replicate n 0
  eofHandled := false

/-- A whole turn of the pump, handing a readable buffer over in one slice. -/
def pumpTurn : List TunnelAction :=
  [.pump 0 1138 0 true 0, .handFirst forwardWindow, .handSecond, .shutdown, .grant, .check]

/-- A segment with room for it has arrived over `queued n`. -/
def arrived (n k : ℕ) (fin : Bool) : Tunnel :=
  { queued n with
    forward := { (queued n).forward with
      stream := ⟨Sender.new, { Receiver.new with
        next := n + k + (if fin then 1 else 0)
        ready := List.replicate k 0
        fin := if fin then some (n + k) else none
        finished := fin
        ackOwed := true }⟩ }
    received := List.replicate (n + k) 0 }

theorem next_onData (n k : ℕ) (fin : Bool) (hk : 0 < k) (hfit : k ≤ forwardWindow) (hmax : n + k ≤ u64Max) :
    system.next (queued n) (.onData n fin (List.replicate k 0)) = some (arrived n k fin) := by
  have hok : { Receiver.new with next := n }.onData n fin (List.replicate k 0) = _ :=
    Receiver.onData_in_order rfl rfl rfl (by simpa using hk.ne') (by simpa [Receiver.new] using hfit)
      (by simpa using hmax)
  simp only [system, next, queued, handle, Stream.onData, hok, if_true, bind, Except.bind, pure, Except.pure, arrived]
  simp [Receiver.new, List.replicate_append_replicate]

theorem next_pump (n k : ℕ) (fin : Bool) :
    system.next (arrived n k fin) (.pump 0 1138 0 true 0) = some { arrived n k fin with
      forward := { (arrived n k fin).forward with
        stream := ⟨Sender.new, { (arrived n k fin).recv with ackOwed := false }⟩ }
      phase := .handing } := by
  have hpoll : Sender.new.pollTransmit 0 1138 0 = (Sender.new, none) := by decide
  simp [system, next, pump, arrived, queued, Forward.pumpOut, Forward.pollOwedAck, Forward.acked,
    Stream.transmitAll, Stream.pollTransmit, hpoll, Stream.pollAck, Receiver.pollAck, recv]

theorem run_arrival {n k : ℕ} (hk : 0 < k) (hk' : k ≤ maxForwardChunk) (h : n + k ≤ backlog) :
    system.run (queued n) (.onData n false (List.replicate k 0) :: pumpTurn) = some (queued (n + k)) := by
  have hmax : n + k ≤ u64Max := h.trans (by decide)
  have hroom : min (backlog - n) k = k := by omega
  have hkw : k ≤ forwardWindow := hk'.trans (by decide)
  have hwin : ¬ (forwardWindow - k < chunkWindow ∧ chunkWindow ≤ forwardWindow) := by
    simp only [forwardWindow, chunkWindow, maxForwardChunk] at *
    omega
  have hconsume : ∀ r : Receiver, r.ready = List.replicate k 0 → r.heldBytes = 0 →
      r.consume k = { r with ready := [] } := by
    intro r hr hb
    simp [Receiver.consume, Receiver.window, hr, hb, hwin]
  rw [System.run_cons_of_next (next_onData n k false hk hkw hmax), pumpTurn,
    System.run_cons_of_next (next_pump n k false)]
  simp only [System.run, system, next, pump, arrived, queued, ForwardWrite.isFailed, ForwardWrite.write, recv,
    ForwardWrite.charged, Outlet.new, Outlet.push, Stream.readable, Receiver.readable, Option.bind_some,
    List.length_replicate, Bool.or_self, Bool.false_eq_true, if_false, List.take_replicate, Nat.add_zero,
    List.drop_replicate, reduceCtorEq, min_eq_right hkw, hroom, if_true, min_self,
    List.replicate_append_replicate, Nat.sub_eq_zero_of_le hkw, Nat.min_zero, Stream.consume, hconsume, Receiver.new]
  simp [Forward.grantCredit, Forward.isDone, Stream.isDone, Stream.peerFinished, Credit.grant, Stream.writable,
    Sender.writable, Sender.new]

theorem run_writer {t : Tunnel} (hp : t.phase ≠ .retired) {x : UInt8} {xs : List UInt8}
    (ho : t.write.outlet = ⟨x :: xs, true, false, .ready, [], false⟩) :
    ∃ t', system.run t [.work .turn, .work (.put (x :: xs).length), .work .turn, .work .halfClose] = some t' ∧
      t'.write.outlet.halfClosed = true ∧ t'.write.outlet.out = x :: xs ∧ t'.received = t.received := by
  simp [System.run, system, next, Tunnel.work, hp, ForwardWrite.work, Outlet.step, Outlet.turn, ho, Worker.wrote]

/-- The turn that ends a full buffer over the last byte. -/
theorem run_overtaken {n : ℕ} (hfull : backlog ≤ n) : ∃ t, system.run (arrived n 1 true)
      [.pump 0 1138 0 true 0, .handFirst forwardWindow, .shutdown, .grant, .check] = some t ∧
    t.phase = .idle ∧ t.write.outlet = ⟨List.replicate n 0, true, false, .ready, [], false⟩ ∧
    t.received = List.replicate (n + 1) 0 := by
  have hkw : 1 ≤ forwardWindow := by decide
  rw [System.run_cons_of_next (next_pump n 1 true)]
  simp only [System.run, system, next, pump, arrived, queued, ForwardWrite.isFailed, ForwardWrite.write, recv,
    ForwardWrite.charged, Outlet.new, Outlet.push, Stream.readable, Receiver.readable, Option.bind_some,
    List.length_replicate, Bool.or_self, Bool.false_eq_true, if_false, List.take_replicate, Nat.add_zero,
    List.drop_replicate, reduceCtorEq, min_eq_right hkw, if_true, Nat.sub_eq_zero_of_le hfull, Nat.zero_min,
    List.replicate_append_replicate, Nat.sub_eq_zero_of_le hkw, Stream.consume, Receiver.new, Nat.zero_ne_one,
    Receiver.consume_zero]
  simp [Forward.grantCredit, Forward.isDone, Stream.isDone, Stream.peerFinished, ForwardWrite.shutdown,
    Receiver.readableLen]

theorem reachable_queued (k : ℕ) (h : k * maxForwardChunk ≤ backlog) :
    system.Reachable (queued (k * maxForwardChunk)) := by
  induction k with
  | zero =>
    have hconnect : system.next new .connect = some (queued 0) := by decide
    exact (System.Reachable.init rfl).step hconnect
  | succ k ih =>
    rw [Nat.succ_mul] at h ⊢
    exact (ih (by omega)).run (run_arrival (by decide) le_rfl h)

/-- With the backlog full, one more byte and the end arrive: the socket is
half-closed with that byte still unwritten. -/
theorem half_close_truncates : ∃ t, system.Reachable t ∧ t.write.outlet.halfClosed = true ∧
    t.write.outlet.out.length = 262144 ∧ t.received.length = 262145 := by
  have height : 8 * maxForwardChunk = backlog := by decide
  have hfull : system.Reachable (queued backlog) := height ▸ reachable_queued 8 height.le
  obtain ⟨t₁, hrun₁, hp, ho, hrec⟩ := run_overtaken (le_refl backlog)
  have hr₁ : system.Reachable t₁ :=
    (hfull.step (next_onData backlog 1 true (by decide) (by decide) (by decide))).run hrun₁
  have hbacklog : backlog = 262143 + 1 := by decide
  obtain ⟨t₂, hrun₂, hclosed, hout, hrec₂⟩ := run_writer (by rw [hp]; nofun) ho
  refine ⟨t₂, hr₁.run hrun₂, hclosed, ?_, ?_⟩
  · rw [hout, List.length_cons, List.length_replicate]
  · rw [hrec₂, hrec, List.length_replicate, hbacklog]

end Braid.Daemon.Tunnel
