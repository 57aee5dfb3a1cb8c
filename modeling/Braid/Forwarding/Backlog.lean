import Braid.Foundation.System
import Braid.Forwarding.Arrival
import Mathlib.Algebra.GroupWithZero.Nat

/-! How much a receiver can be made to hold for its socket. A segment in order is
admitted only while what is readable fits the window. A segment past the gap is
admitted by the bytes held, not by where it ends, and it is readable as soon as the
gap is filled: a receiver is bounded when every segment past the gap ends within a
window of what its socket has taken. -/

namespace Braid.Forwarding

open Foundation

inductive ReceiverAction where
  | data (off : ℕ) (fin : Bool) (bytes : List UInt8)
  | consume (n : ℕ)
  | pollAck
  deriving DecidableEq

namespace Receiver

/-- One call of the receiver's owner, for any peer. A contradicted arrival leaves the receiver as it is. -/
def act (r : Receiver) : ReceiverAction → Option Receiver
  | .data off fin bytes =>
    if maxForwardChunk < bytes.length ∨ u64Max < off then none
    else
      match r.onData off fin bytes with
      | .ok r => some r
      | .error _ => some r
  | .consume n => some (r.consume n)
  | .pollAck => some r.pollAck.1

def system : System Receiver ReceiverAction := ⟨(· = new), act⟩

/-- A segment past the gap ends within a window of the bytes the socket has taken. -/
def Within (r : Receiver) : ReceiverAction → Prop
  | .data off _ bytes => r.next < off → r.ready.length + (off + bytes.length - r.next) ≤ forwardWindow
  | _ => True

instance (r : Receiver) (a : ReceiverAction) : Decidable (r.Within a) := by
  cases a <;> unfold Within <;> infer_instance

/-- What is readable fits the window, also with any held segment and all before it. -/
structure Roomy (r : Receiver) : Prop where
  ready : r.ready.length ≤ forwardWindow
  held : ∀ e ∈ r.held.entries, r.next < endOf e.1 e.2 →
    r.ready.length + (e.1 + e.2.length - r.next) ≤ forwardWindow

variable {r r' : Receiver} {off n : ℕ} {fin : Bool} {bytes : List UInt8}

theorem roomy_new : Roomy new := ⟨Nat.zero_le _, by simp [new]⟩

section

variable (h : r.Roomy)

include h

theorem Roomy.append (ho : off ≤ r.next) (he : r.next < endOf off bytes)
    (hfit : r.ready.length + (off + bytes.length - r.next) ≤ forwardWindow) : (r.append off bytes).Roomy := by
  have hlen : (r.append off bytes).ready.length = r.ready.length + (off + bytes.length - r.next) := by
    rw [Receiver.append, List.length_append, List.length_drop]
    omega
  refine ⟨by rw [hlen]; exact hfit, fun e hmem hlt => ?_⟩
  -- A segment that still reaches past `next` lies behind the one appended, so that one was not cut off.
  have hnext : (r.append off bytes).next = off + bytes.length := by
    change endOf off bytes < endOf e.1 e.2 at hlt
    change endOf off bytes = _
    rw [endOf] at hlt ⊢
    rw [endOf] at hlt
    omega
  have hend : endOf off bytes = off + bytes.length := hnext
  rw [hnext] at hlt ⊢
  have := h.held e hmem (he.trans (hend ▸ hlt))
  omega

theorem Roomy.drainTurn (hmem : (off, bytes) ∈ r.held.entries) (ho : off ≤ r.next) :
    (r.drainTurn off bytes).Roomy := by
  have hpop : (r.popLowest bytes).Roomy :=
    ⟨h.ready, fun e he => h.held e (List.mem_of_mem_drop he)⟩
  unfold Receiver.drainTurn
  split_ifs with hend
  · exact hpop.append ho hend (h.held _ hmem hend)
  · exact hpop

theorem Roomy.hold (hfit : r.ready.length + (off + bytes.length - r.next) ≤ forwardWindow) :
    (r.hold off bytes).Roomy := by
  refine hold_cases Roomy h fun count => ⟨h.ready, fun e he => ?_⟩
  rcases SortedMap.mem_insert he with rfl | he
  · exact fun _ => hfit
  · exact h.held e he

theorem Roomy.place (hfit : r.next < off → r.ready.length + (off + bytes.length - r.next) ≤ forwardWindow) :
    (r.place off bytes).Roomy := by
  unfold Receiver.place
  split_ifs with hend hgap hadmitted
  · exact h.hold (hfit hgap)
  · have hadmitted : r.ready.length + (off + bytes.length - r.next) ≤ forwardWindow := by
      simp only [admits, List.length_drop, decide_eq_true_eq] at hadmitted
      omega
    exact drainHeld_rule Roomy (h.append (not_lt.mp hgap) hend hadmitted) fun _ _ _ h hmem ho => h.drainTurn hmem ho
  · exact h
  · exact h

theorem Roomy.settleEnd : r.settleEnd.Roomy := by
  unfold Receiver.settleEnd
  split_ifs
  · refine ⟨h.ready, fun e he hlt => ?_⟩
    have := h.held e he (Nat.lt_of_succ_lt hlt)
    dsimp only
    omega
  · exact h

theorem Roomy.onData (hfit : r.next < off → r.ready.length + (off + bytes.length - r.next) ≤ forwardWindow)
    (hok : r.onData off fin bytes = .ok r') : r'.Roomy := by
  obtain ⟨r₁, hdeclare, rfl⟩ := onData_ok hok
  have hstart : { r₁ with ackOwed := true }.Roomy ∧ r₁.next = r.next ∧ r₁.ready = r.ready := by
    obtain ⟨rfl, -, -⟩ | ⟨-, -, -, -, rfl⟩ := declareEnd_ok hdeclare
    · exact ⟨⟨h.ready, h.held⟩, rfl, rfl⟩
    · exact ⟨⟨h.ready, h.held⟩, rfl, rfl⟩
  refine (hstart.1.place ?_).settleEnd
  rw [hstart.2.1, hstart.2.2]
  exact hfit

theorem Roomy.consume (n : ℕ) : (r.consume n).Roomy := by
  obtain ⟨hnext, hheld, -, -⟩ := consume_frame r n
  have hlen : (r.consume n).ready.length ≤ r.ready.length := by
    rw [consume_ready, List.length_drop]
    omega
  refine ⟨hlen.trans h.ready, fun e he hlt => ?_⟩
  rw [hheld] at he
  rw [hnext] at hlt ⊢
  have := h.held e he hlt
  omega

theorem Roomy.act {a : ReceiverAction} (hok : r.Within a) (hs : r.act a = some r') : r'.Roomy := by
  cases a with
  | data off fin bytes =>
    rw [Receiver.act] at hs
    split_ifs at hs
    cases hdata : r.onData off fin bytes with
    | ok r₁ =>
      rw [hdata] at hs
      cases hs
      exact h.onData hok hdata
    | error e =>
      rw [hdata] at hs
      cases hs
      exact h
  | consume n =>
    cases hs
    exact h.consume n
  | pollAck =>
    cases hs
    obtain ⟨hnext, hready, hheld, -⟩ := pollAck_frame r
    exact ⟨by rw [hready]; exact h.ready, by rw [hheld, hready, hnext]; exact h.held⟩

end

/-- A receiver whose segments past the gap all end within a window of what its socket
has taken never has more than the window readable. -/
theorem readable_le_window (h : system.Via Within r) : r.readableLen ≤ forwardWindow :=
  (h.invariant (P := Roomy) (by rintro _ rfl; exact roomy_new) fun _ _ _ h hok hs => h.act hok hs).ready

theorem readable_le_window_gapFilled : ∃ r, system.Via Within r ∧ r.ready = [5, 6, 7] ∧ r.readableLen ≤ forwardWindow := by
  obtain ⟨r, hvia, hready⟩ : ∃ r, system.Via Within r ∧ r.ready = [5, 6, 7] :=
    System.Via.of_run new [.data 1 false [6, 7], .data 0 false [5]] rfl (by decide +kernel)
  exact ⟨r, hvia, hready, readable_le_window hvia⟩

/-! ### A gap filled behind a full window -/

theorem act_data (hfin : r.fin = none) (hchunk : bytes.length ≤ maxForwardChunk) (hoff : off ≤ u64Max) :
    system.next r (.data off false bytes) = some ({ r with ackOwed := true }.place off bytes).settleEnd := by
  have hdata : r.onData off false bytes = .ok ({ r with ackOwed := true }.place off bytes).settleEnd := by
    simp [onData, declareEnd, hfin, bind, Except.bind, pure, Except.pure]
  change r.act (.data off false bytes) = _
  rw [act, if_neg (by omega), hdata]

/-- `n` bytes readable, no end known, and these segments held. -/
structure Standing (r : Receiver) (n : ℕ) (segs : List (ℕ × List UInt8)) : Prop where
  next : r.next = n
  ready : r.ready.length = n
  held : r.held.entries = segs
  heldBytes : r.heldBytes = (segs.map fun e => e.2.length).sum
  fin : r.fin = none

theorem Standing.settleEnd {segs : List (ℕ × List UInt8)} (h : r.Standing n segs) : r.settleEnd.Standing n segs := by
  rw [Receiver.settleEnd, if_neg (by simp [h.fin])]
  exact h

section

variable (h : r.Standing n []) (hpos : 0 < bytes.length) (hchunk : bytes.length ≤ maxForwardChunk)
  (hfit : n + bytes.length ≤ forwardWindow)

include h hpos hchunk hfit

theorem Standing.fill :
    ∃ r', system.next r (.data n false bytes) = some r' ∧ r'.Standing (n + bytes.length) [] := by
  have hmax : forwardWindow ≤ u64Max := by decide
  have hend : endOf n bytes = n + bytes.length := by
    rw [endOf]
    omega
  have hplace : ({ r with ackOwed := true }.place n bytes).Standing (n + bytes.length) [] := by
    rw [place, if_pos (by rw [hend]; change r.next < _; rw [h.next]; omega),
      if_neg (by change ¬ r.next < n; rw [h.next]; omega), if_pos]
    · rw [drainHeld]
      have hsize : ({ r with ackOwed := true }.append n bytes).held.size = 0 := congrArg List.length h.held
      rw [hsize, drainTurns]
      refine ⟨hend, ?_, h.held, h.heldBytes, h.fin⟩
      change (r.ready ++ bytes.drop (r.next - n)).length = _
      rw [h.next, Nat.sub_self, List.drop_zero, List.length_append, h.ready]
    · simp only [admits, h.next, Nat.sub_self, List.drop_zero, h.ready]
      exact decide_eq_true hfit
  exact ⟨_, act_data h.fin hchunk (by omega), hplace.settleEnd⟩

theorem Standing.gap :
    ∃ r', system.next r (.data (n + 1) false bytes) = some r' ∧ r'.Standing n [(n + 1, bytes)] := by
  have hmax : forwardWindow < u64Max := by decide
  have hwindow : 1 < forwardWindow := by decide
  have hend : endOf (n + 1) bytes = min (n + 1 + bytes.length) u64Max := rfl
  have hplace : ({ r with ackOwed := true }.place (n + 1) bytes).Standing n [(n + 1, bytes)] := by
    rw [place, if_pos (by rw [hend]; change r.next < _; rw [h.next]; omega),
      if_pos (by change r.next < n + 1; rw [h.next]; omega), hold, if_neg]
    · have hnone : (r.held.get? (n + 1)).getD [] = [] := by rw [SortedMap.get?, h.held]; rfl
      rw [hnone, if_pos (by exact hpos)]
      refine ⟨h.next, h.ready, ?_, ?_, h.fin⟩
      · change SortedMap.insertEntry (n + 1) bytes r.held.entries = _
        rw [h.held]
        rfl
      · change r.heldBytes + bytes.length - 0 = _
        rw [h.heldBytes]
        simp
    · have hbytes : r.heldBytes = 0 := h.heldBytes
      have hsize : r.held.size = 0 := congrArg List.length h.held
      simp only [not_or, hsize, h.next, h.ready, hbytes, maxHeldSegments]
      exact ⟨List.ne_nil_of_length_pos hpos, by omega, by omega, by omega⟩
  exact ⟨_, act_data h.fin hchunk (by omega), hplace.settleEnd⟩

end

/-- The byte of the gap makes the segment behind it readable with it. -/
theorem Standing.burst (h : r.Standing n [(n + 1, bytes)]) (byte : UInt8) (hpos : 0 < bytes.length)
    (hfit : n < forwardWindow) (hmax : n + 1 + bytes.length ≤ u64Max) :
    ∃ r', system.next r (.data n false [byte]) = some r' ∧ r'.ready.length = n + 1 + bytes.length := by
  have hend : endOf n [byte] = n + 1 := by
    rw [endOf, List.length_singleton]
    omega
  have hend' : endOf (n + 1) bytes = n + 1 + bytes.length := min_eq_left hmax
  refine ⟨_, act_data h.fin (by rw [List.length_singleton]; decide) (by omega), ?_⟩
  have hplace : ({ r with ackOwed := true }.place n [byte]).ready.length = n + 1 + bytes.length := by
    rw [place, if_pos (by rw [hend]; change r.next < _; rw [h.next]; omega),
      if_neg (by change ¬ r.next < n; rw [h.next]; omega), if_pos]
    · have hsize : ({ r with ackOwed := true }.append n [byte]).held.size = 1 := congrArg List.length h.held
      have hheld : ({ r with ackOwed := true }.append n [byte]).held.entries = [(n + 1, bytes)] := h.held
      have hnext : ({ r with ackOwed := true }.append n [byte]).next = n + 1 := hend
      rw [drainHeld, hsize, drainTurns, hheld]
      dsimp only
      rw [if_neg (by rw [hnext]; omega), if_pos (by rw [popLowest, hnext, hend']; omega), drainTurns]
      change ((r.ready ++ [byte].drop (r.next - n)) ++ bytes.drop (endOf n [byte] - (n + 1))).length = _
      rw [h.next, hend, Nat.sub_self, Nat.sub_self, List.drop_zero, List.drop_zero, List.length_append,
        List.length_append, h.ready, List.length_singleton]
    · simp only [admits, h.next, Nat.sub_self, List.drop_zero, h.ready, List.length_singleton]
      exact decide_eq_true hfit
  unfold Receiver.settleEnd
  split_ifs
  · exact hplace
  · exact hplace

/-- Seven segments in order and one past the gap are admitted, and the byte of the gap
then makes one byte more than the window readable. -/
theorem readable_exceeds_window : ∃ r, system.Reachable r ∧ forwardWindow < r.readableLen := by
  obtain ⟨chunk, hlen⟩ : ∃ chunk : List UInt8, chunk.length = maxForwardChunk :=
    ⟨List.replicate maxForwardChunk 0, List.length_replicate⟩
  have hpos : 0 < chunk.length := by rw [hlen]; decide
  have hfilled : ∀ turns, turns * maxForwardChunk ≤ forwardWindow →
      ∃ r, system.Reachable r ∧ r.Standing (turns * maxForwardChunk) [] := by
    intro turns
    induction turns with
    | zero => exact fun _ => ⟨new, .init rfl, by rw [Nat.zero_mul]; exact ⟨rfl, rfl, rfl, rfl, rfl⟩⟩
    | succ turns ih =>
      intro hfit
      rw [Nat.succ_mul] at hfit ⊢
      obtain ⟨r, hr, h⟩ := ih (by omega)
      obtain ⟨r', hact, h'⟩ := h.fill hpos hlen.le (by rw [hlen]; exact hfit)
      rw [hlen] at h'
      exact ⟨r', hr.step hact, h'⟩
  obtain ⟨r₇, hr₇, h₇⟩ := hfilled 7 (by decide)
  obtain ⟨r₈, hact₈, h₈⟩ := h₇.gap hpos hlen.le (by rw [hlen]; decide)
  obtain ⟨r₉, hact₉, h₉⟩ := h₈.burst 0 hpos (by decide) (by rw [hlen]; decide)
  refine ⟨r₉, (hr₇.step hact₈).step hact₉, ?_⟩
  rw [readableLen, h₉, hlen]
  decide

end Receiver

end Braid.Forwarding
