import Braid.Forwarding.Link

/-! Two honest ends never contradict one another. Whatever is on the link was
sent, so everything a receiver holds ends at or below what its peer has had on
the wire, and so does every run an acknowledgement names, however old. -/

namespace Braid.Forwarding

open Foundation

/-! ### What an acknowledgement names -/

namespace SackRuns

/-- Runs that end at or below `limit`, and before `cursor`. -/
def Below (limit base : ℕ) (runs : List SackRun) (cursor : ℕ) : Prop :=
  (∀ run ∈ absoluteFrom base runs, run.2 ≤ limit) ∧ stopFrom base runs ≤ cursor

end SackRuns

namespace Receiver

open SackRuns

variable {r r' : Receiver} {limit base off : ℕ} {fin : Bool} {bytes : List UInt8}

theorem pushRun_below {runs : List SackRun} {cursor : ℕ} {run : ℕ × ℕ} (h : Below limit base runs cursor)
    (hrun : run.2 ≤ limit) : Below limit base (pushRun runs cursor run).1 (pushRun runs cursor run).2 := by
  unfold pushRun
  dsimp only
  split_ifs with hfits
  · have hstop : min (min (stopFrom base runs + (run.1 - cursor)) u64Max + (run.2 - run.1)) u64Max ≤ run.2 := by
      have := h.2
      omega
    refine ⟨fun one hone => ?_, ?_⟩
    · rw [absoluteFrom_append] at hone
      rcases List.mem_append.mp hone with hone | hone
      · exact h.1 one hone
      · obtain rfl := List.mem_singleton.mp hone
        exact hstop.trans hrun
    · rw [stopFrom, List.foldl_append]
      exact hstop
  · exact h

theorem walkRuns_below {held : List (ℕ × List UInt8)} {runs : List SackRun} {cursor : ℕ} {run : Option (ℕ × ℕ)}
    (h : Below limit base runs cursor) (hrun : ∀ one ∈ run, one.2 ≤ limit)
    (hheld : ∀ e ∈ held, endOf e.1 e.2 ≤ limit) :
    ∀ one ∈ absoluteFrom base (walkRuns held runs cursor run), one.2 ≤ limit := by
  induction held generalizing runs cursor run with
  | nil =>
    cases run with
    | none => exact h.1
    | some run =>
      rw [walkRuns]
      split_ifs
      · exact (pushRun_below h (hrun run rfl)).1
      · exact h.1
  | cons e held ih =>
    obtain ⟨hfirst, hheld⟩ := List.forall_mem_cons.mp hheld
    cases run with
    | none =>
      rw [walkRuns]
      split_ifs
      · exact h.1
      · exact ih h (by rintro _ ⟨⟩; exact hfirst) hheld
    | some run =>
      obtain ⟨start, seen⟩ := run
      have hseen : seen ≤ limit := hrun (start, seen) rfl
      have hpushed := @pushRun_below limit base runs cursor (start, seen) h hseen
      rw [walkRuns]
      dsimp only
      split_ifs
      · exact h.1
      · exact ih h (by rintro _ ⟨⟩; exact max_le hseen hfirst) hheld
      · exact hpushed.1
      · exact ih hpushed (by rintro _ ⟨⟩; exact hfirst) hheld

theorem onData_held {P : ℕ × List UInt8 → Prop} (h : ∀ e ∈ r.held.entries, P e) (hnew : P (off, bytes))
    (hok : r.onData off fin bytes = .ok r') : ∀ e ∈ r'.held.entries, P e := by
  obtain ⟨r₁, hd, rfl⟩ := onData_ok hok
  have hstart : ∀ e ∈ { r₁ with ackOwed := true }.held.entries, P e := by
    obtain ⟨rfl, -, -⟩ | ⟨-, -, -, -, rfl⟩ := declareEnd_ok hd <;> exact h
  have hplace : ∀ e ∈ ({ r₁ with ackOwed := true }.place off bytes).held.entries, P e := by
    refine place_cases (fun r => ∀ e ∈ r.held.entries, P e) hstart (fun _ => ?_) fun _ _ => ?_
    · refine hold_cases (fun r => ∀ e ∈ r.held.entries, P e) hstart fun count e he => ?_
      rcases SortedMap.mem_insert he with rfl | he
      · exact hnew
      · exact hstart e he
    · refine drainHeld_rule (fun r => ∀ e ∈ r.held.entries, P e) hstart fun r off bytes h _ _ => ?_
      have hpop : ∀ e ∈ (r.popLowest bytes).held.entries, P e := fun e he => h e (List.mem_of_mem_drop he)
      unfold drainTurn
      split_ifs <;> exact hpop
  unfold settleEnd
  split_ifs <;> exact hplace

variable {S consumed : List UInt8} {peerFin : Option ℕ}

/-- A reader of one sequence refuses no piece of it. -/
theorem Follows.accepts (h : Follows S peerFin consumed r) (hend : ∀ f, peerFin = some f → f = S.length)
    (hp : Piece S off bytes) (hfin : fin = true → peerFin = some (off + bytes.length)) :
    ∃ r', r.onData off fin bytes = .ok r' := by
  have hstop := hp.endOf_eq
  have hle := hp.1.length_le
  have hdeclare : ∃ r₁, r.declareEnd (endOf off bytes) fin = .ok r₁ := by
    unfold declareEnd
    cases hknown : r.fin with
    | some known =>
      have hpeer := h.fin known hknown
      have := hend known hpeer
      dsimp only
      rw [if_neg]
      · exact ⟨_, rfl⟩
      · rintro (hlt | ⟨ht, hne⟩)
        · omega
        · rw [hpeer, Option.some.injEq] at hfin
          exact hne (hstop.trans (hfin ht).symm)
    | none =>
      split_ifs with ht hpast
      · -- The end is all of the sequence, so nothing placed or held is past it.
        have hall := hend _ (hfin ht)
        have hopen : r.finished = false := by
          rw [Bool.eq_false_iff]
          intro hf
          rw [(h.finished hf).1] at hknown
          cases hknown
        have hnext : r.next ≤ S.length := by
          have := h.placed_le
          simpa [placedEnd, hopen] using this
        rcases hpast with hlt | hheld
        · omega
        · obtain ⟨e, he, hlt⟩ := List.any_eq_true.mp hheld
          have hpiece := h.held e he
          have := hpiece.1.length_le
          rw [decide_eq_true_eq, hpiece.endOf_eq] at hlt
          omega
      · exact ⟨_, rfl⟩
      · exact ⟨_, rfl⟩
  obtain ⟨r₁, hdeclare⟩ := hdeclare
  exact ⟨_, by rw [Receiver.onData, hdeclare]; rfl⟩

end Receiver

/-! ### What has been on the wire -/

namespace Sender

variable {s : Sender}

theorem onAck_ok {off window now : ℕ} {held : SackRuns} (h : ∀ run ∈ held.absolute off, run.2 ≤ s.next) :
    (s.onAck off window held now).2 = .ok () ∧ s.next ≤ (s.onAck off window held now).1.next := by
  have hrelease := s.next_le_release off
  rcases s.onAck_cases off window held now with ⟨-, heq⟩ | ⟨-, -, _, _, _, heq, -⟩ | ⟨-, ⟨run, hrun, hlt⟩, -⟩
  · rw [heq]
    exact ⟨rfl, le_rfl⟩
  · rw [heq]
    exact ⟨rfl, hrelease⟩
  · exact absurd ((h run hrun).trans hrelease) hlt.not_ge

theorem write_next (s : Sender) (bytes : List UInt8) (now : ℕ) : (s.write bytes now).1.next = s.next := by
  unfold write
  dsimp only
  split_ifs <;> rfl

theorem finish_next (s : Sender) : s.finish.next = s.next := by
  unfold finish
  split_ifs <;> rfl

theorem pollTransmit_next (s : Sender) (now budget wrap : ℕ) : (s.pollTransmit now budget wrap).1.next = s.next := by
  rw [pollTransmit_eq]
  split_ifs
  · rfl
  · unfold wake
    split_ifs <;> rfl

end Sender

namespace Link

/-- One direction: all that is on the link, held or acknowledged has been sent. -/
structure Wired (snd : Sender) (rcv : Receiver) (data : List DataFrame) (acks : List Ack) : Prop where
  data : ∀ d ∈ data, d.off + d.bytes.length ≤ snd.next
  held : ∀ e ∈ rcv.held.entries, e.1 + e.2.length ≤ snd.next
  acks : ∀ a ∈ acks, ∀ run ∈ a.held.absolute a.off, run.2 ≤ snd.next

variable {snd snd' : Sender} {rcv rcv' : Receiver} {data : List DataFrame} {acks : List Ack}

theorem wired_new : Wired Sender.new Receiver.new [] [] where
  data := by simp
  held := by simp [Receiver.new]
  acks := by simp

section

variable (h : Wired snd rcv data acks)

include h

theorem Wired.mono (hle : snd.next ≤ snd'.next) : Wired snd' rcv data acks where
  data d hd := (h.data d hd).trans hle
  held e he := (h.held e he).trans hle
  acks a ha run hrun := (h.acks a ha run hrun).trans hle

theorem Wired.transmit {segment : Segment} {body : List UInt8}
    (hlen : segment.len = body.length) (now : ℕ) :
    Wired (snd.transmitted segment now) rcv (data ++ [⟨segment.off, segment.fin, body⟩]) acks := by
  have hnext : (snd.transmitted segment now).next = max snd.next (segment.off + segment.len) := rfl
  have hle : snd.next ≤ (snd.transmitted segment now).next := le_max_left _ _
  obtain ⟨hdata, hheld, hacks⟩ := h.mono hle
  refine ⟨fun d hd => ?_, hheld, hacks⟩
  rcases List.mem_append.mp hd with hd | hd
  · exact hdata d hd
  · obtain rfl := List.mem_singleton.mp hd
    rw [hnext, ← hlen]
    exact le_max_right _ _

theorem Wired.onData {frame : DataFrame} (hframe : frame ∈ data)
    (hok : rcv.onData frame.off frame.fin frame.bytes = .ok rcv') : Wired snd rcv' data acks :=
  ⟨h.data, Receiver.onData_held h.held (h.data frame hframe) hok, h.acks⟩

theorem Wired.sameHeld (hheld : rcv'.held = rcv.held) : Wired snd rcv' data acks :=
  ⟨h.data, hheld ▸ h.held, h.acks⟩

/-- What an acknowledgement names is held. -/
theorem Wired.addAck {ack : Ack} (hack : rcv.pollAck.2 = some ack) :
    Wired snd rcv data (acks ++ [ack]) := by
  refine ⟨h.data, h.held, fun a ha => ?_⟩
  rcases List.mem_append.mp ha with ha | ha
  · exact h.acks a ha
  · obtain rfl := List.mem_singleton.mp ha
    obtain ⟨hoff, hheld⟩ := Receiver.pollAck_eq hack
    rw [hoff, hheld]
    refine Receiver.walkRuns_below ⟨by simp [SackRuns.absoluteFrom], le_rfl⟩ (by simp) fun e he => ?_
    exact (min_le_left _ _).trans (h.held e he)

end

/-- The direction from `p` to the other end. -/
def WiredFrom (l : Link) (p : Side) : Prop :=
  Wired (l.ends p).stream.send (l.ends p.other).stream.recv (l.data p) (l.acks p.other)

theorem wired_put {l : Link} {p : Side} {e : LinkEnd} {data : List DataFrame} {acks : List Ack}
    (hsend : Wired e.stream.send (l.ends p.other).stream.recv data (l.acks p.other))
    (hrecv : Wired (l.ends p.other).stream.send e.stream.recv (l.data p.other) acks) (q : Side) :
    (l.put p e data acks).WiredFrom q := by
  rcases p.eq_or_eq_other q with rfl | rfl
  · simpa [WiredFrom, put] using hsend
  · simpa [WiredFrom, put] using hrecv

theorem next_wired {l l' : Link} {a : Side × LinkAction} (hhalf : ∀ p, l.HalfFrom p) (h : ∀ p, l.WiredFrom p)
    (hs : l.next a = some l') : ∀ p, l'.WiredFrom p := by
  obtain ⟨p, a⟩ := a
  have hsend := h p
  have hrecv := h p.other
  rw [WiredFrom, Side.other_other] at hrecv
  cases a with
  | write bytes now =>
    obtain rfl : _ = l' := by simpa [next] using hs
    exact wired_put (hsend.mono (Sender.write_next _ bytes now).ge) hrecv
  | finish =>
    obtain rfl : _ = l' := by simpa [next] using hs
    exact wired_put (hsend.mono (Sender.finish_next _).ge) hrecv
  | transmit now budget wrap =>
    have hpoll := hsend.mono (Sender.pollTransmit_next _ now budget wrap).ge
    simp only [next] at hs
    split_ifs at hs
    split at hs
    · rename_i stream segment body hp
      obtain rfl : _ = l' := by simpa using hs
      simp only [Stream.pollTransmit, Prod.mk.injEq] at hp
      obtain ⟨rfl, hp⟩ := hp
      have hlen := ((hhalf p).sends.pollTransmit now budget wrap).2.2.2 segment body hp
      exact wired_put (hpoll.transmit hlen.2.1 now) hrecv
    · rename_i stream hp
      obtain rfl : _ = l' := by simpa using hs
      simp only [Stream.pollTransmit, Prod.mk.injEq] at hp
      obtain ⟨rfl, -⟩ := hp
      exact wired_put hpoll hrecv
  | refuse now budget wrap =>
    simp only [next] at hs
    split_ifs at hs
    obtain rfl : _ = l' := by simpa using hs
    exact wired_put (hsend.mono (Sender.pollTransmit_next _ now budget wrap).ge) hrecv
  | consume n =>
    obtain rfl : _ = l' := by simpa [next] using hs
    exact wired_put hsend (hrecv.sameHeld (Receiver.consume_frame _ n).2.1)
  | acknowledge =>
    simp only [next] at hs
    split at hs
    · rename_i stream ack hp
      obtain rfl : _ = l' := by simpa using hs
      simp only [Stream.pollAck, Prod.mk.injEq] at hp
      obtain ⟨rfl, hp⟩ := hp
      exact wired_put hsend ((hrecv.addAck hp).sameHeld (Receiver.pollAck_frame _).2.2.1)
    · rename_i stream hp
      obtain rfl : _ = l' := by simpa using hs
      simp only [Stream.pollAck, Prod.mk.injEq] at hp
      obtain ⟨rfl, -⟩ := hp
      exact wired_put hsend (hrecv.sameHeld (Receiver.pollAck_frame _).2.2.1)
  | deliverData frame =>
    simp only [next] at hs
    split_ifs at hs with hframe
    split at hs
    · rename_i stream hok
      obtain rfl : _ = l' := by simpa using hs
      obtain ⟨rcv', hok', rfl⟩ := Stream.onData_ok hok
      exact wired_put hsend (hrecv.onData hframe hok')
    · obtain rfl : _ = l' := by simpa using hs
      exact h
  | deliverAck ack now =>
    simp only [next] at hs
    split_ifs at hs with hack
    obtain rfl : _ = l' := by simpa using hs
    exact wired_put (hsend.mono (Sender.onAck_ok (hsend.acks ack hack)).2) hrecv

theorem reachable_wired {l : Link} (h : system.Reachable l) : ∀ p, l.WiredFrom p := by
  have hboth : (∀ p, l.HalfFrom p) ∧ ∀ p, l.WiredFrom p := by
    refine h.invariant (P := fun l => (∀ p, l.HalfFrom p) ∧ ∀ p, l.WiredFrom p) ?_ fun l _ l' hl hs => ?_
    · rintro _ rfl
      exact ⟨fun _ => half_new, fun _ => wired_new⟩
    · exact ⟨next_halves hl.1 hs, next_wired hl.1 hl.2 hs⟩
  exact hboth.2

/-- Whatever frame of the peer arrives, and whenever, it is accepted. -/
theorem honest_ends_never_contradict {l : Link} (h : system.Reachable l) (p : Side) :
    (∀ frame ∈ l.data p.other,
      (l.ends p).stream.onData frame.off frame.fin frame.bytes ≠ .error .contradiction) ∧
      ∀ ack ∈ l.acks p.other, ∀ now,
        ((l.ends p).stream.onAck ack.off ack.window ack.held now).2 ≠ .error .contradiction := by
  have hhalf := reachable_halves h p.other
  rw [HalfFrom, Side.other_other] at hhalf
  refine ⟨fun frame hframe => ?_, fun ack hack now => ?_⟩
  · obtain ⟨rcv', hok⟩ := hhalf.follows.accepts hhalf.sends.fin (hhalf.data_piece frame hframe)
      (hhalf.data_fin frame hframe)
    rw [Stream.onData, hok]
    rintro ⟨⟩
  · have hok : ((l.ends p).stream.onAck ack.off ack.window ack.held now).2 = .ok () :=
      (Sender.onAck_ok ((reachable_wired h p).acks ack hack)).1
    rw [hok]
    rintro ⟨⟩

/-- Two bytes go in two segments, the first is lost, and the second is held and
acknowledged past the gap. -/
def gapRun : List (Side × LinkAction) :=
  [(.left, .write [104, 105] 0), (.left, .finish), (.left, .transmit 0 1 2), (.left, .transmit 0 1 2),
    (.right, .deliverData ⟨1, true, [105]⟩), (.right, .acknowledge)]

theorem honest_ends_never_contradict_gapRun : ∃ l, system.Reachable l ∧ ∃ ack ∈ l.acks Side.left.other,
    ack.held.absolute ack.off = [(1, 2)] ∧
      ((l.ends .left).stream.onAck ack.off ack.window ack.held 9).2 ≠ .error .contradiction := by
  obtain ⟨l, hr, hacks⟩ : ∃ l, system.Reachable l ∧
      ((l.acks Side.left.other).map fun ack => ack.held.absolute ack.off) = [[(1, 2)]] :=
    System.Reachable.of_run new gapRun rfl (by decide)
  obtain ⟨ack, rest, hack, hheld, -⟩ := List.map_eq_cons_iff.mp hacks
  have hmem : ack ∈ l.acks Side.left.other := hack ▸ List.mem_cons_self
  exact ⟨l, hr, ack, hmem, hheld, (honest_ends_never_contradict hr .left).2 ack hmem 9⟩

/-- However late an acknowledgement arrives, what it covers is with the receiver. -/
theorem acknowledged_received {l : Link} (h : system.Reachable l) (p : Side) {ack : Ack}
    (hack : ack ∈ l.acks p.other) :
    (l.ends p).accepted.take ack.off <+: received (l.ends p.other) := by
  have hhalf := reachable_halves h p
  rw [received, hhalf.follows.placed]
  cases hf : (l.ends p.other).stream.recv.finished with
  | false =>
    simp only [Receiver.placedEnd, hf, Bool.false_eq_true, if_false]
    exact List.take_prefix_take_left (hhalf.acks_le ack hack)
  | true =>
    -- with the end placed, so is every byte before it
    rw [hhalf.sends.fin _ (hhalf.follows.fin _ (hhalf.follows.finished hf).1), List.take_length]
    exact List.take_prefix _ _

theorem acknowledged_received_shortTransfer : ∃ l, system.Reachable l ∧ [104, 105] <+: received (l.ends .right) := by
  obtain ⟨l, hr, hacc, hack⟩ : ∃ l, system.Reachable l ∧ (l.ends .left).accepted = [104, 105] ∧
      ⟨3, forwardWindow - 2 + 1, .empty⟩ ∈ l.acks Side.left.other :=
    System.Reachable.of_run new shortTransfer rfl (by decide)
  have hplaced := acknowledged_received hr .left hack
  rw [hacc] at hplaced
  exact ⟨l, hr, hplaced⟩

end Link

end Braid.Forwarding
