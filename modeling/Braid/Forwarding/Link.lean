import Braid.Foundation.System
import Braid.Forwarding.Arrival
import Braid.Forwarding.Transmission

/-! Two streams joined by a link that loses, reorders, duplicates and delays
frames. The link remembers every frame ever put on it, and any of them may be
delivered at any time and any number of times, so a frame that is never
delivered is lost. A polled segment is either put on the link, and reported
transmitted, or refused. Each end also records what its `write` accepted, what
its reader consumed and whether it was told to finish. -/

namespace Braid.Forwarding

open Foundation

inductive Side where
  | left
  | right
  deriving DecidableEq

def Side.other : Side → Side
  | .left => .right
  | .right => .left

@[simp] theorem Side.other_other (p : Side) : p.other.other = p := by cases p <;> rfl

@[simp] theorem Side.other_ne (p : Side) : p.other ≠ p := by cases p <;> decide

theorem Side.eq_or_eq_other (p q : Side) : q = p ∨ q = p.other := by
  cases p <;> cases q <;> decide

structure DataFrame where
  off : ℕ
  fin : Bool
  bytes : List UInt8
  deriving DecidableEq

structure LinkEnd where
  stream : Stream
  accepted : List UInt8
  consumed : List UInt8
  ended : Bool
  deriving DecidableEq

/-- Both ends, and all each of them has put on the link. -/
structure Link where
  ends : Side → LinkEnd
  data : Side → List DataFrame
  acks : Side → List Ack

inductive LinkAction where
  | write (bytes : List UInt8) (now : ℕ)
  | finish
  | transmit (now budget wrap : ℕ)
  | refuse (now budget wrap : ℕ)
  | consume (n : ℕ)
  | acknowledge
  | deliverData (frame : DataFrame)
  | deliverAck (ack : Ack) (now : ℕ)
  deriving DecidableEq

namespace Link

def new : Link where
  ends _ := ⟨Stream.new, [], [], false⟩
  data _ := []
  acks _ := []

/-- Replace the end at `p` and what it has put on the link. -/
def put (l : Link) (p : Side) (e : LinkEnd) (data : List DataFrame) (acks : List Ack) : Link where
  ends := Function.update l.ends p e
  data := Function.update l.data p data
  acks := Function.update l.acks p acks

def putEnd (l : Link) (p : Side) (e : LinkEnd) : Link := l.put p e (l.data p) (l.acks p)

/-- One action at the end `p`. A poll of a stream that has accepted more than
`u64::MAX` bytes overflows and stops the process; a contradiction leaves the
stream to its caller, which may go on. -/
def next (l : Link) : Side × LinkAction → Option Link
  | (p, .write bytes now) =>
    let e := l.ends p
    let (stream, taken) := e.stream.write bytes now
    some (l.putEnd p { e with stream := stream, accepted := e.accepted ++ bytes.take taken })
  | (p, .finish) =>
    let e := l.ends p
    some (l.putEnd p { e with stream := e.stream.finish, ended := true })
  | (p, .transmit now budget wrap) =>
    let e := l.ends p
    if u64Max < e.stream.send.endOff then none
    else
      match e.stream.pollTransmit now budget wrap with
      | (stream, some (segment, body)) =>
        some (l.put p { e with stream := stream.transmitted segment now }
          (l.data p ++ [⟨segment.off, segment.fin, body⟩]) (l.acks p))
      | (stream, none) => some (l.putEnd p { e with stream := stream })
  | (p, .refuse now budget wrap) =>
    let e := l.ends p
    if u64Max < e.stream.send.endOff then none
    else some (l.putEnd p { e with stream := (e.stream.pollTransmit now budget wrap).1 })
  | (p, .consume n) =>
    let e := l.ends p
    some (l.putEnd p { e with
      stream := e.stream.consume n, consumed := e.consumed ++ e.stream.recv.ready.take n })
  | (p, .acknowledge) =>
    let e := l.ends p
    match e.stream.pollAck with
    | (stream, some ack) => some (l.put p { e with stream := stream } (l.data p) (l.acks p ++ [ack]))
    | (stream, none) => some (l.putEnd p { e with stream := stream })
  | (p, .deliverData frame) =>
    let e := l.ends p
    if frame ∈ l.data p.other then
      match e.stream.onData frame.off frame.fin frame.bytes with
      | .ok stream => some (l.putEnd p { e with stream := stream })
      | .error _ => some l
    else none
  | (p, .deliverAck ack now) =>
    let e := l.ends p
    if ack ∈ l.acks p.other then
      some (l.putEnd p { e with stream := (e.stream.onAck ack.off ack.window ack.held now).1 })
    else none

def system : System Link (Side × LinkAction) := ⟨(· = new), next⟩

/-! ### One direction -/

/-- One direction of the link: `snd` has accepted `S` and put `data` on the
link, and `rcv` has consumed `consumed` and put `acks` on it. -/
structure Half (snd : Sender) (S : List UInt8) (ended : Bool) (rcv : Receiver) (consumed : List UInt8)
    (data : List DataFrame) (acks : List Ack) : Prop where
  sends : snd.Sends S
  ended : ∀ f, snd.fin = some f → ended = true
  data_piece : ∀ d ∈ data, Receiver.Piece S d.off d.bytes
  data_fin : ∀ d ∈ data, d.fin = true → snd.fin = some (d.off + d.bytes.length)
  follows : rcv.Follows S snd.fin consumed
  acks_le : ∀ a ∈ acks, a.off ≤ rcv.next
  acked : snd.finAcked = true → rcv.finished = true

variable {snd : Sender} {S consumed : List UInt8} {ended : Bool} {rcv : Receiver} {data : List DataFrame}
  {acks : List Ack}

theorem half_new : Half Sender.new [] false Receiver.new [] [] [] where
  sends := Sender.sends_new
  ended := by simp [Sender.new]
  data_piece := by simp
  data_fin := by simp
  follows := Receiver.follows_new
  acks_le := by simp
  acked := by simp [Sender.new]

section

variable (h : Half snd S ended rcv consumed data acks)

include h

theorem Half.write (bytes : List UInt8) (now : ℕ) :
    Half (snd.write bytes now).1 (S ++ bytes.take (snd.write bytes now).2) ended rcv consumed data acks := by
  obtain ⟨hs, hfin, hacked, -⟩ := h.sends.write bytes now
  exact { h with
    sends := hs
    ended := by rw [hfin]; exact h.ended
    data_piece := fun d hd => ⟨(h.data_piece d hd).1.append _, (h.data_piece d hd).2⟩
    data_fin := by rw [hfin]; exact h.data_fin
    follows := h.follows.extend _ (by rw [hfin]; exact fun _ hf => hf)
    acked := by rw [hacked]; exact h.acked }

theorem Half.finish :
    Half snd.finish S true rcv consumed data acks := by
  obtain ⟨hs, hacked, hfin⟩ := h.sends.finish
  exact { h with
    sends := hs
    ended := fun _ _ => rfl
    data_fin := fun d hd ht => hfin _ (h.data_fin d hd ht)
    follows := by simpa using h.follows.extend [] hfin
    acked := by rw [hacked]; exact h.acked }

theorem Half.poll (now budget wrap : ℕ) :
    Half (snd.pollTransmit now budget wrap).1 S ended rcv consumed data acks := by
  obtain ⟨hs, hfin, hacked, -⟩ := h.sends.pollTransmit now budget wrap
  exact { h with
    sends := hs
    ended := by rw [hfin]; exact h.ended
    data_fin := by rw [hfin]; exact h.data_fin
    follows := by rw [hfin]; exact h.follows
    acked := by rw [hacked]; exact h.acked }

theorem Half.transmit {now budget wrap : ℕ}
    {segment : Segment} {body : List UInt8} (hend : snd.endOff ≤ u64Max)
    (hp : (snd.pollTransmit now budget wrap).2 = some (segment, body)) :
    Half ((snd.pollTransmit now budget wrap).1.transmitted segment now) S ended rcv consumed
      (data ++ [⟨segment.off, segment.fin, body⟩]) acks := by
  obtain ⟨hat, hlen, hsegfin⟩ := (h.sends.pollTransmit now budget wrap).2.2.2 segment body hp
  have hle := hat.length_le
  have hpoll := h.poll now budget wrap
  have hfin := (h.sends.pollTransmit now budget wrap).2.1
  have hpiece : Receiver.Piece S segment.off body := ⟨hat, by rw [h.sends.endOff_eq] at hend; omega⟩
  exact { hpoll with
    sends := hpoll.sends.transmitted (by omega) now
    data_piece := by
      intro d hd
      rcases List.mem_append.mp hd with hd | hd
      · exact hpoll.data_piece d hd
      · rw [List.mem_singleton.mp hd]
        exact hpiece
    data_fin := by
      intro d hd
      rcases List.mem_append.mp hd with hd | hd
      · exact hpoll.data_fin d hd
      · rw [List.mem_singleton.mp hd]
        exact fun ht => hfin.trans (hsegfin ht) }

/-- An acknowledgement the receiver made, however old, acknowledges the end
only if the receiver has placed it. -/
theorem Half.onAck {ack : Ack} (hack : ack ∈ acks) (now : ℕ) :
    Half (snd.onAck ack.off ack.window ack.held now).1 S ended rcv consumed data acks := by
  obtain ⟨hs, hfin, hacked⟩ := h.sends.onAck ack.off ack.window ack.held now
  exact { h with
    sends := hs
    ended := by rw [hfin]; exact h.ended
    data_fin := by rw [hfin]; exact h.data_fin
    follows := by rw [hfin]; exact h.follows
    acked := by
      intro ha
      rcases hacked ha with ha | ⟨f, hf, hlt⟩
      · exact h.acked ha
      · by_contra hnot
        have hend : rcv.placedEnd = rcv.next := by simp [Receiver.placedEnd, hnot]
        have := h.sends.fin f hf
        have := h.acks_le ack hack
        have := h.follows.placed_le
        omega }

theorem Half.onData {frame : DataFrame} (hframe : frame ∈ data)
    {rcv' : Receiver} (hok : rcv.onData frame.off frame.fin frame.bytes = .ok rcv') :
    Half snd S ended rcv' consumed data acks :=
  { h with
    follows := h.follows.onData (h.data_piece frame hframe) (h.data_fin frame hframe) hok
    acks_le a ha := (h.acks_le a ha).trans (Receiver.onData_next_le hok)
    acked := by
      intro ha
      have hf := h.acked ha
      obtain ⟨hfin, hnext⟩ := h.follows.finished hf
      rw [Receiver.onData_finished hf hfin hnext hok]
      exact hf }

theorem Half.consume (n : ℕ) :
    Half snd S ended (rcv.consume n) (consumed ++ rcv.ready.take n) data acks := by
  obtain ⟨hnext, -, -, hfinished⟩ := rcv.consume_frame n
  exact { h with
    follows := h.follows.consume n
    acks_le := by rw [hnext]; exact h.acks_le
    acked := by rw [hfinished]; exact h.acked }

theorem Half.pollAck :
    Half snd S ended rcv.pollAck.1 consumed data acks := by
  obtain ⟨hnext, -, -, -, hfinished⟩ := rcv.pollAck_frame
  exact { h with
    follows := h.follows.pollAck
    acks_le := by rw [hnext]; exact h.acks_le
    acked := by rw [hfinished]; exact h.acked }

theorem Half.addAck {ack : Ack} (hle : ack.off ≤ rcv.next) :
    Half snd S ended rcv consumed data (acks ++ [ack]) :=
  { h with
    acks_le := by
      intro a ha
      rcases List.mem_append.mp ha with ha | ha
      · exact h.acks_le a ha
      · rwa [List.mem_singleton.mp ha] }

end

/-! ### Both directions -/

/-- The direction from `p` to the other end. -/
def HalfFrom (l : Link) (p : Side) : Prop :=
  Half (l.ends p).stream.send (l.ends p).accepted (l.ends p).ended (l.ends p.other).stream.recv
    (l.ends p.other).consumed (l.data p) (l.acks p.other)

/-- To keep both directions when `p` acts, keep the one it sends in and the one
it receives in. -/
theorem halves_put {l : Link} {p : Side} {e : LinkEnd} {data : List DataFrame} {acks : List Ack}
    (hsend : Half e.stream.send e.accepted e.ended (l.ends p.other).stream.recv (l.ends p.other).consumed data
      (l.acks p.other))
    (hrecv : Half (l.ends p.other).stream.send (l.ends p.other).accepted (l.ends p.other).ended e.stream.recv
      e.consumed (l.data p.other) acks) (q : Side) : (l.put p e data acks).HalfFrom q := by
  rcases p.eq_or_eq_other q with rfl | rfl
  · simpa [HalfFrom, put] using hsend
  · simpa [HalfFrom, put] using hrecv

theorem next_halves {l l' : Link} {a : Side × LinkAction} (h : ∀ p, l.HalfFrom p)
    (hs : l.next a = some l') : ∀ p, l'.HalfFrom p := by
  obtain ⟨p, a⟩ := a
  have hsend := h p
  have hrecv := h p.other
  rw [HalfFrom, Side.other_other] at hrecv
  cases a with
  | write bytes now =>
    obtain rfl : _ = l' := by simpa [next] using hs
    exact halves_put (hsend.write bytes now) hrecv
  | finish =>
    obtain rfl : _ = l' := by simpa [next] using hs
    exact halves_put hsend.finish hrecv
  | transmit now budget wrap =>
    simp only [next] at hs
    split_ifs at hs with hend
    split at hs
    · rename_i stream segment body hp
      obtain rfl : _ = l' := by simpa using hs
      simp only [Stream.pollTransmit, Prod.mk.injEq] at hp
      obtain ⟨rfl, hp⟩ := hp
      exact halves_put (hsend.transmit (not_lt.mp hend) hp) hrecv
    · rename_i stream hp
      obtain rfl : _ = l' := by simpa using hs
      simp only [Stream.pollTransmit, Prod.mk.injEq] at hp
      obtain ⟨rfl, -⟩ := hp
      exact halves_put (hsend.poll now budget wrap) hrecv
  | refuse now budget wrap =>
    simp only [next] at hs
    split_ifs at hs
    obtain rfl : _ = l' := by simpa using hs
    exact halves_put (hsend.poll now budget wrap) hrecv
  | consume n =>
    obtain rfl : _ = l' := by simpa [next] using hs
    exact halves_put hsend (hrecv.consume n)
  | acknowledge =>
    simp only [next] at hs
    split at hs
    · rename_i stream ack hp
      obtain rfl : _ = l' := by simpa using hs
      simp only [Stream.pollAck, Prod.mk.injEq] at hp
      obtain ⟨rfl, hp⟩ := hp
      refine halves_put hsend (hrecv.pollAck.addAck ?_)
      rw [(Receiver.pollAck_eq hp).1, (Receiver.pollAck_frame _).1]
    · rename_i stream hp
      obtain rfl : _ = l' := by simpa using hs
      simp only [Stream.pollAck, Prod.mk.injEq] at hp
      obtain ⟨rfl, -⟩ := hp
      exact halves_put hsend hrecv.pollAck
  | deliverData frame =>
    simp only [next] at hs
    split_ifs at hs with hframe
    split at hs
    · rename_i stream hok
      obtain rfl : _ = l' := by simpa using hs
      obtain ⟨rcv', hok', rfl⟩ := Stream.onData_ok hok
      exact halves_put hsend (hrecv.onData hframe hok')
    · obtain rfl : _ = l' := by simpa using hs
      exact h
  | deliverAck ack now =>
    simp only [next] at hs
    split_ifs at hs with hack
    obtain rfl : _ = l' := by simpa using hs
    exact halves_put (hsend.onAck hack now) hrecv

theorem reachable_halves {l : Link} (h : system.Reachable l) (p : Side) : l.HalfFrom p := by
  refine h.invariant (P := fun l => ∀ p, l.HalfFrom p) ?_ (fun _ _ _ h hs => next_halves h hs) p
  rintro _ rfl p
  exact half_new

def received (e : LinkEnd) : List UInt8 := e.consumed ++ e.stream.recv.ready

/-- What the receiver has is always a prefix of what the sender accepted; the
peer's end is seen only after the sender finished and every byte it accepted
has been placed; and the sender is done only when the receiver has placed every
byte and the end. -/
theorem forwarded_stream_safe {l : Link} (h : system.Reachable l) (p : Side) :
    received (l.ends p.other) <+: (l.ends p).accepted ∧
      ((l.ends p.other).stream.peerFinished = true →
        (l.ends p).ended = true ∧ received (l.ends p.other) = (l.ends p).accepted) ∧
      ((l.ends p).stream.send.isDone = true →
        (l.ends p.other).stream.peerFinished = true ∧ received (l.ends p.other) = (l.ends p).accepted) := by
  have hh : l.HalfFrom p := reachable_halves h p
  have hall : (l.ends p.other).stream.peerFinished = true →
      (l.ends p).ended = true ∧ received (l.ends p.other) = (l.ends p).accepted := by
    intro hf
    have hfin := hh.follows.fin _ (hh.follows.finished hf).1
    refine ⟨hh.ended _ hfin, ?_⟩
    rw [received, hh.follows.placed, hh.sends.fin _ hfin, List.take_length]
  refine ⟨?_, hall, fun hd => ?_⟩
  · rw [received, hh.follows.placed]
    exact List.take_prefix _ _
  · have hf := hh.acked (by simp only [Sender.isDone, Bool.and_eq_true] at hd; exact hd.2)
    exact ⟨hf, (hall hf).2⟩

/-- A whole transfer of two bytes with their end, acknowledged. -/
def shortTransfer : List (Side × LinkAction) :=
  [(.left, .write [104, 105] 0), (.left, .finish), (.left, .transmit 0 1138 2),
    (.right, .deliverData ⟨0, true, [104, 105]⟩), (.right, .consume 1), (.right, .acknowledge),
    (.left, .deliverAck ⟨3, forwardWindow - 2 + 1, .empty⟩ 9)]

theorem forwarded_stream_safe_shortTransfer :
    ∃ l, system.Reachable l ∧ (l.ends .left).stream.send.isDone = true ∧
      (l.ends .left).accepted = [104, 105] ∧ received (l.ends .right) = [104, 105] := by
  obtain ⟨l, hr, hdone, hacc⟩ : ∃ l, system.Reachable l ∧ (l.ends .left).stream.send.isDone = true ∧
      (l.ends .left).accepted = [104, 105] :=
    System.Reachable.of_run new shortTransfer rfl (by decide)
  exact ⟨l, hr, hdone, hacc, hacc ▸ ((forwarded_stream_safe hr .left).2.2 hdone).2⟩

end Link

end Braid.Forwarding
