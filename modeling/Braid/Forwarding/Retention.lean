import Braid.Forwarding.Selective

/-! A receiver does not go back on what it has acknowledged. Whoever the peer is, a position
named by an acknowledgement is from then on among the bytes placed or in a held segment: a
held segment is only ever replaced by a longer one at its offset, and is given up only once
`next` is past it. If every segment agrees with one assignment of bytes to positions, the byte
kept there is that one. -/

namespace Braid.Forwarding

open Foundation

namespace Receiver

variable {r r' r₀ : Receiver} {off n p : ℕ} {fin : Bool} {bytes : List UInt8} {value : ℕ → UInt8} {taken : List UInt8}

theorem Holds.hold (h : r.Holds p) (off : ℕ) (bytes : List UInt8) : (r.hold off bytes).Holds p := by
  obtain ⟨e, he, hstart, hstop⟩ := h
  obtain heq | ⟨-, -, -, -, hlonger, count, heq⟩ := hold_spec r off bytes
  · rw [heq]
    exact ⟨e, he, hstart, hstop⟩
  · rw [heq]
    by_cases hoff : e.1 = off
    · refine ⟨(off, bytes), SortedMap.mem_insertEntry_self _ _ _, hoff ▸ hstart, ?_⟩
      rw [← hoff, SortedMap.get?_of_mem he, Option.getD_some] at hlonger
      simp only [endOf] at hstop ⊢
      omega
    · exact ⟨e, SortedMap.mem_insertEntry_of_ne he hoff, hstart, hstop⟩

theorem Counts.next_of_lt (h : Counts r n) (hf : r.finished = false) (hend : r.next < endOf off bytes) : r.next = n := by
  have hnext := h.next_eq
  simp only [hf, Bool.false_eq_true, if_false, Nat.add_zero] at hnext
  rw [endOf] at hend
  omega

/-- Bytes have been placed since `r₀`, and every position held then is placed or held still. -/
def Covers (r₀ : Receiver) (n : ℕ) (r : Receiver) : Prop :=
  ∃ added, r.ready = r₀.ready ++ added ∧ Counts r (n + added.length) ∧ r.finished = false ∧
    ∀ p, r₀.Holds p → p < n + added.length ∨ r.Holds p

theorem Covers.append (h : Covers r₀ n r) (ho : off ≤ r.next) (he : r.next < endOf off bytes) :
    Covers r₀ n (r.append off bytes) := by
  obtain ⟨added, hready, hcounts, hf, hcovers⟩ := h
  refine ⟨added ++ bytes.drop (r.next - off), ?_, ?_, hf, fun p hp => ?_⟩
  · simp only [Receiver.append, hready, List.append_assoc]
  · rw [List.length_append, ← Nat.add_assoc]
    exact hcounts.append hf ho he
  · rw [List.length_append]
    exact (hcovers p hp).imp_left fun hlt => by omega

/-- A segment at or below `next` that is taken out has all its positions placed. -/
theorem Covers.drainTurn {rest : List (ℕ × List UInt8)} (h : Covers r₀ n r)
    (hentries : r.held.entries = (off, bytes) :: rest) (ho : off ≤ r.next) : Covers r₀ n (r.drainTurn off bytes) := by
  obtain ⟨added, hready, hcounts, hf, hcovers⟩ := h
  have hsplit : ∀ p, r.Holds p → p < endOf off bytes ∨ (r.popLowest bytes).Holds p := by
    rintro p ⟨e, he, hstart, hstop⟩
    rw [hentries] at he
    rcases List.mem_cons.mp he with rfl | he
    · exact .inl hstop
    · refine .inr ⟨e, ?_, hstart, hstop⟩
      simpa [popLowest, hentries] using he
  unfold Receiver.drainTurn
  split_ifs with hend
  · have hplaced : r.next = n + added.length := hcounts.next_of_lt hf hend
    refine ⟨added ++ bytes.drop (r.next - off), ?_, ?_, hf, fun p hp => ?_⟩
    · simp only [Receiver.append, popLowest, hready, List.append_assoc]
    · have hpop : Counts (r.popLowest bytes) (n + added.length) := ⟨hcounts.next_eq, hcounts.fin_eq⟩
      rw [List.length_append, ← Nat.add_assoc]
      exact hpop.append hf ho hend
    · rw [List.length_append, List.length_drop]
      simp only [endOf] at hend hsplit
      rcases hcovers p hp with hlt | hheld
      · exact .inl (by omega)
      · rcases hsplit p hheld with hlt | hheld
        · exact .inl (by omega)
        · exact .inr hheld
  · refine ⟨added, hready, ⟨hcounts.next_eq, hcounts.fin_eq⟩, hf, fun p hp => ?_⟩
    have hnext := hcounts.next_eq
    simp only [hf, Bool.false_eq_true, if_false, Nat.add_zero] at hnext
    change ¬r.next < endOf off bytes at hend
    rcases hcovers p hp with hlt | hheld
    · exact .inl hlt
    · exact (hsplit p hheld).imp_left fun hlt => by omega

theorem Covers.place (h : Covers r₀ n r) (off : ℕ) (bytes : List UInt8) : Covers r₀ n (r.place off bytes) := by
  refine place_cases _ h (fun _ => ?_) fun ho he =>
    drainHeld_rule_lowest _ (h.append ho he) fun r off bytes rest h hentries ho => h.drainTurn hentries ho
  obtain ⟨added, hready, hcounts, hf, hcovers⟩ := h
  obtain ⟨hready', hnext, hfin, hfinished⟩ := hold_ready r off bytes
  refine ⟨added, hready'.trans hready, ⟨?_, ?_⟩, hfinished.trans hf, fun p hp => ?_⟩
  · rw [hnext, hfinished]
    exact hcounts.next_eq
  · rw [hfinished, hfin]
    exact hcounts.fin_eq
  · exact (hcovers p hp).imp_right fun hheld => hheld.hold off bytes

theorem Holds.onData (h : r.Holds p) (hcounts : Counts r n) (hok : r.onData off fin bytes = .ok r') :
    p < n + (r'.ready.length - r.ready.length) ∨ r'.Holds p := by
  cases hf : r.finished with
  | true =>
    have hnext := hcounts.next_eq
    rw [hf] at hnext
    obtain rfl := onData_finished hf (hcounts.fin_eq hf) hnext hok
    exact .inr h
  | false =>
    obtain ⟨r₁, hd, rfl⟩ := onData_ok hok
    have hstart : Covers r n { r₁ with ackOwed := true } := by
      obtain ⟨rfl, -, -⟩ | ⟨-, -, -, -, rfl⟩ := declareEnd_ok hd
      · exact ⟨[], by simp, ⟨hcounts.next_eq, hcounts.fin_eq⟩, hf, fun p hp => .inr hp⟩
      · exact ⟨[], by simp, ⟨hcounts.next_eq, by simp [hf]⟩, hf, fun p hp => .inr hp⟩
    obtain ⟨added, hready, -, -, hcovers⟩ := hstart.place off bytes
    have hsettled : ∀ r : Receiver, r.settleEnd.ready = r.ready ∧ r.settleEnd.held = r.held := fun r => by
      unfold settleEnd
      split_ifs <;> exact ⟨rfl, rfl⟩
    obtain ⟨hready', hheld'⟩ := hsettled ({ r₁ with ackOwed := true }.place off bytes)
    rw [Holds, hready', hheld', hready, List.length_append, Nat.add_sub_cancel_left]
    exact hcovers p h

/-! ### A peer whose segments agree -/

/-- `bytes` at `off` are what `value` says. -/
def Agrees (value : ℕ → UInt8) (off : ℕ) (bytes : List UInt8) : Prop := ∀ i b, bytes[i]? = some b → b = value (off + i)

theorem Agrees.append {more : List UInt8} (h : Agrees value off bytes) (hmore : Agrees value (off + bytes.length) more) :
    Agrees value off (bytes ++ more) := by
  intro i b hb
  rw [List.getElem?_append] at hb
  split_ifs at hb with hlt
  · exact h i b hb
  · rw [hmore _ b hb, Nat.add_assoc, Nat.add_sub_cancel' (not_lt.mp hlt)]

theorem Agrees.drop (h : Agrees value off bytes) (k : ℕ) : Agrees value (off + k) (bytes.drop k) := by
  intro i b hb
  rw [List.getElem?_drop] at hb
  rw [h _ b hb, Nat.add_assoc]

/-- What has been taken, what is placed and what is held are what `value` says. -/
structure Truthful (value : ℕ → UInt8) (taken : List UInt8) (r : Receiver) : Prop where
  placed : Agrees value 0 (taken ++ r.ready)
  held : ∀ e ∈ r.held.entries, Agrees value e.1 e.2

theorem Truthful.append (h : Truthful value taken r) (hnext : r.next = taken.length + r.ready.length)
    (hagrees : Agrees value off bytes) (ho : off ≤ r.next) : Truthful value taken (r.append off bytes) := by
  refine ⟨?_, h.held⟩
  rw [Receiver.append, ← List.append_assoc]
  apply h.placed.append
  rw [Nat.zero_add, List.length_append, ← hnext]
  have hdrop := hagrees.drop (r.next - off)
  rwa [Nat.add_sub_cancel' ho] at hdrop

/-- The same while no end is placed, with the count of what is. -/
def Tells (value : ℕ → UInt8) (taken : List UInt8) (r : Receiver) : Prop :=
  Truthful value taken r ∧ Counts r (taken.length + r.ready.length) ∧ r.finished = false

theorem Tells.append (h : Tells value taken r) (hagrees : Agrees value off bytes) (ho : off ≤ r.next)
    (he : r.next < endOf off bytes) : Tells value taken (r.append off bytes) := by
  obtain ⟨htruth, hcounts, hf⟩ := h
  refine ⟨htruth.append (hcounts.next_of_lt hf he) hagrees ho, ?_, hf⟩
  have happended := hcounts.append hf ho he
  rwa [Nat.add_assoc, ← List.length_append] at happended

theorem Tells.place (h : Tells value taken r) (hagrees : Agrees value off bytes) :
    Tells value taken (r.place off bytes) := by
  refine place_cases _ h (fun _ => ?_) fun ho he => drainHeld_rule _ (h.append hagrees ho he) ?_
  · obtain ⟨htruth, hcounts, hf⟩ := h
    refine hold_cases (Tells value taken) ⟨htruth, hcounts, hf⟩ fun count =>
      ⟨⟨htruth.placed, fun e he => ?_⟩, ⟨hcounts.next_eq, hcounts.fin_eq⟩, hf⟩
    rcases SortedMap.mem_insert he with rfl | he
    · exact hagrees
    · exact htruth.held e he
  · rintro r off bytes ⟨htruth, hcounts, hf⟩ hmem ho
    have hpop : Tells value taken (r.popLowest bytes) :=
      ⟨⟨htruth.placed, fun e he => htruth.held e (List.mem_of_mem_drop he)⟩, ⟨hcounts.next_eq, hcounts.fin_eq⟩, hf⟩
    unfold drainTurn
    split_ifs with he
    · exact hpop.append (htruth.held _ hmem) ho he
    · exact hpop

theorem Truthful.onData (h : Truthful value taken r) (hcounts : Counts r (taken.length + r.ready.length))
    (hagrees : Agrees value off bytes) (hok : r.onData off fin bytes = .ok r') : Truthful value taken r' := by
  cases hf : r.finished with
  | true =>
    have hnext := hcounts.next_eq
    rw [hf] at hnext
    obtain rfl := onData_finished hf (hcounts.fin_eq hf) hnext hok
    exact ⟨h.placed, h.held⟩
  | false =>
    obtain ⟨r₁, hd, rfl⟩ := onData_ok hok
    have hstart : Tells value taken { r₁ with ackOwed := true } := by
      obtain ⟨rfl, -, -⟩ | ⟨-, -, -, -, rfl⟩ := declareEnd_ok hd
      · exact ⟨⟨h.placed, h.held⟩, ⟨hcounts.next_eq, hcounts.fin_eq⟩, hf⟩
      · exact ⟨⟨h.placed, h.held⟩, ⟨hcounts.next_eq, by simp [hf]⟩, hf⟩
    obtain ⟨htruth, -, -⟩ := hstart.place hagrees
    unfold settleEnd
    split_ifs <;> exact ⟨htruth.placed, htruth.held⟩

end Receiver

namespace Reader

variable {x y : Reader} {ack : Ack} {p : ℕ} {steps : List ReceiverAction} {value : ℕ → UInt8}

/-- The byte `b` at position `p` waits for the socket or is held. -/
def Retains (x : Reader) (p : ℕ) (b : UInt8) : Prop :=
  (x.taken.length ≤ p ∧ x.recv.ready[p - x.taken.length]? = some b) ∨
    ∃ e ∈ x.recv.held.entries, e.1 ≤ p ∧ e.2[p - e.1]? = some b

/-- The byte at `p` is `b`: the socket has taken it, or it is retained. -/
def Byte (x : Reader) (p : ℕ) (b : UInt8) : Prop := x.taken[p]? = some b ∨ x.Retains p b

/-- The byte at `p` is acknowledged: `p` is below the position expected, where an end has
none, or in a run held. -/
def Acknowledged (x : Reader) (ack : Ack) (p : ℕ) : Prop :=
  (p < ack.off ∧ x.recv.fin ≠ some p) ∨ ∃ run ∈ ack.held.absolute ack.off, run.1 ≤ p ∧ p < run.2

/-- The segments of a call agree with `value`; the ends that are declared need not. -/
def Honest (value : ℕ → UInt8) : ReceiverAction → Prop
  | .data off _ bytes => Receiver.Agrees value off bytes
  | _ => True

/-- `p` is among the bytes placed or the positions held. -/
def Has (x : Reader) (p : ℕ) : Prop := p < x.taken.length + x.recv.ready.length ∨ x.recv.Holds p

theorem Has.byte (h : x.Has p) : (p < x.taken.length ∨ ∃ b, x.Retains p b) ∧ ∃ b, x.Byte p b := by
  have hretained : p < x.taken.length ∨ ∃ b, x.Retains p b := by
    obtain hplaced | ⟨e, he, hstart, hstop⟩ := h
    · by_cases htaken : p < x.taken.length
      · exact .inl htaken
      · have hlt : p - x.taken.length < x.recv.ready.length := by omega
        exact .inr ⟨_, .inl ⟨not_lt.mp htaken, List.getElem?_eq_getElem hlt⟩⟩
    · have hlt : p - e.1 < e.2.length := by
        rw [endOf] at hstop
        omega
      exact .inr ⟨_, .inr ⟨e, he, hstart, List.getElem?_eq_getElem hlt⟩⟩
  refine ⟨hretained, ?_⟩
  obtain htaken | ⟨b, hb⟩ := hretained
  · exact ⟨_, .inl (List.getElem?_eq_getElem htaken)⟩
  · exact ⟨b, .inr hb⟩

theorem Acknowledged.has (h : system.Reachable x) (hack : x.recv.pollAck.2 = some ack) (hp : x.Acknowledged ack p) :
    x.Has p := by
  obtain ⟨hoff, hheld⟩ := Receiver.pollAck_eq hack
  obtain ⟨hlt, hbyte⟩ | ⟨run, hrun, hstart, hstop⟩ := hp
  · have hcounts := reachable_counts h
    have hnext := hcounts.next_eq
    have hend := hcounts.fin_eq
    left
    rw [hoff, hnext] at hlt
    cases hf : x.recv.finished with
    | true =>
      rw [hend hf, Ne, Option.some.injEq] at hbyte
      rw [hf, if_pos rfl] at hlt
      omega
    | false =>
      rw [hf, if_neg Bool.false_ne_true] at hlt
      omega
  · obtain ⟨hnear, hgap⟩ := reachable_near h
    rw [hheld, hoff, Receiver.heldRuns_absolute hnear hgap] at hrun
    have hcovered : Covered (mergeSpans (Receiver.spansOf x.recv.held.entries)) p :=
      ⟨run, List.mem_of_mem_take hrun, hstart, hstop⟩
    exact .inr (((Receiver.runs_spansOf hnear hgap).covers p).mp hcovered).2

theorem next_grows {a : ReceiverAction} (h : x.recv.Counts (x.taken.length + x.recv.ready.length))
    (hs : x.next a = some y) : x.taken ++ x.recv.ready <+: y.taken ++ y.recv.ready ∧ x.taken <+: y.taken := by
  obtain ⟨off, fin, bytes, recv, -, hok, rfl⟩ | ⟨n, rfl⟩ | rfl | rfl := next_cases hs
  · obtain ⟨added, hready, -⟩ := h.onData hok
    refine ⟨?_, List.prefix_rfl⟩
    rw [hready, ← List.append_assoc]
    exact List.prefix_append _ _
  · refine ⟨?_, List.prefix_append _ _⟩
    rw [Receiver.consume_ready, List.append_assoc, List.take_append_drop]
  · exact ⟨List.prefix_rfl, List.prefix_rfl⟩
  · rw [x.recv.pollAck_frame.2.1]
    exact ⟨List.prefix_rfl, List.prefix_rfl⟩

theorem Has.next {a : ReceiverAction} (h : x.Has p) (hcounts : x.recv.Counts (x.taken.length + x.recv.ready.length))
    (hs : x.next a = some y) : y.Has p := by
  have hgrows := (next_grows hcounts hs).1.length_le
  rw [List.length_append, List.length_append] at hgrows
  obtain hplaced | hheld := h
  · exact .inl (hplaced.trans_le hgrows)
  · obtain ⟨off, fin, bytes, recv, -, hok, rfl⟩ | ⟨n, rfl⟩ | rfl | rfl := next_cases hs
    · refine (hheld.onData hcounts hok).imp_left fun hlt => ?_
      dsimp only at hgrows ⊢
      omega
    · right
      rw [Receiver.Holds, (x.recv.consume_frame n).2.1]
      exact hheld
    · exact .inr hheld
    · right
      rw [Receiver.Holds, x.recv.pollAck_frame.2.2.1]
      exact hheld

/-- Over a run, what is placed only grows and every position that was placed or held still is. -/
theorem run_keeps (h : system.Reachable x) (hrun : system.run x steps = some y) :
    (x.taken ++ x.recv.ready <+: y.taken ++ y.recv.ready ∧ x.taken <+: y.taken) ∧ ∀ p, x.Has p → y.Has p := by
  induction steps generalizing x with
  | nil =>
    cases hrun
    exact ⟨⟨List.prefix_rfl, List.prefix_rfl⟩, fun p hp => hp⟩
  | cons a steps ih =>
    obtain ⟨z, hz, hrun⟩ := Option.bind_eq_some_iff.mp hrun
    have hcounts := reachable_counts h
    obtain ⟨hplaced, htaken⟩ := next_grows hcounts hz
    obtain ⟨⟨hplaced', htaken'⟩, hkept⟩ := ih (h.step hz) hrun
    exact ⟨⟨hplaced.trans hplaced', htaken.trans htaken'⟩, fun p hp => hkept p (hp.next hcounts hz)⟩

theorem truthful_of_honest (h : system.Via (fun _ => Honest value) x) : x.recv.Truthful value x.taken := by
  induction h with
  | init hi =>
    obtain rfl := hi
    exact ⟨by simp [Receiver.Agrees, Receiver.new], by simp [Receiver.new]⟩
  | @step x x' a hx hok hs ih =>
    have hcounts := reachable_counts hx.reachable
    obtain ⟨off, fin, bytes, recv, rfl, hdata, rfl⟩ | ⟨n, rfl⟩ | rfl | rfl := next_cases hs
    · exact ih.onData hcounts hok hdata
    · refine ⟨?_, ?_⟩
      · rw [Receiver.consume_ready, List.append_assoc, List.take_append_drop]
        exact ih.placed
      · rw [(x.recv.consume_frame n).2.1]
        exact ih.held
    · exact ih
    · obtain ⟨-, hready, hheld, -⟩ := x.recv.pollAck_frame
      exact ⟨hready ▸ ih.placed, hheld ▸ ih.held⟩

theorem Byte.eq_value {b : UInt8} (h : x.recv.Truthful value x.taken) (hb : x.Byte p b) : b = value p := by
  have hplaced : (x.taken ++ x.recv.ready)[p]? = some b → b = value p := fun hp => by
    have := h.placed p b hp
    rwa [Nat.zero_add] at this
  obtain htaken | ⟨hle, hready⟩ | ⟨e, he, hstart, hheld⟩ := hb
  · have hlt : p < x.taken.length := (List.getElem?_eq_some_iff.mp htaken).1
    exact hplaced (by rw [List.getElem?_append_left hlt]; exact htaken)
  · exact hplaced (by rw [List.getElem?_append_right hle]; exact hready)
  · have := h.held e he _ b hheld
    rwa [Nat.add_sub_cancel' hstart] at this

/-- What a receiver has acknowledged it keeps until its socket has taken it in order, whatever
arrives: it stays where it was placed, or held, and if all segments agree it stays the same
byte. -/
theorem acknowledged_retained (h : system.Reachable x) (hack : x.recv.pollAck.2 = some ack) (hp : x.Acknowledged ack p)
    (hrun : system.run x steps = some y) :
    (x.taken ++ x.recv.ready <+: y.taken ++ y.recv.ready ∧ x.taken <+: y.taken) ∧
    (p < y.taken.length ∨ ∃ b, y.Retains p b) ∧
    ∀ value, system.Via (fun _ => Honest value) x → (∀ a ∈ steps, Honest value a) →
      ∃ b, x.Byte p b ∧ y.Byte p b ∧ ∀ b', x.Byte p b' ∨ y.Byte p b' → b' = b := by
  obtain ⟨hgrows, hkept⟩ := run_keeps h hrun
  have hhas := hp.has h hack
  have hhas' := hkept p hhas
  refine ⟨hgrows, hhas'.byte.1, fun value hvia hsteps => ?_⟩
  have htruth := truthful_of_honest hvia
  have htruth' := truthful_of_honest (hvia.run_of_forall (fun a ha _ => hsteps a ha) hrun)
  obtain ⟨b, hb⟩ := hhas.byte.2
  obtain ⟨b', hb'⟩ := hhas'.byte.2
  have hvalue := hb.eq_value htruth
  refine ⟨b, hb, ?_, ?_⟩
  · rwa [hvalue, ← hb'.eq_value htruth']
  · rintro c (hc | hc)
    · exact (hc.eq_value htruth).trans hvalue.symm
    · exact (hc.eq_value htruth').trans hvalue.symm

/-- A segment is held and acknowledged, replaced by a longer one, and the gap is filled. -/
theorem acknowledged_retained_replaced : ∃ x y ack, system.Reachable x ∧ x.recv.pollAck.2 = some ack ∧
    x.Acknowledged ack 4 ∧ system.run x [.data 3 false [3, 4, 5], .data 0 false [0, 1, 2], .consume 2] = some y ∧
    y.taken = [0, 1] ∧ (4 < y.taken.length ∨ ∃ b, y.Retains 4 b) := by
  obtain ⟨x, hreach, hpolled⟩ : ∃ x, system.Reachable x ∧ (x.recv.pollAck.2.any fun ack =>
      (system.run x [.data 3 false [3, 4, 5], .data 0 false [0, 1, 2], .consume 2]).any fun y =>
        decide (ack.held.absolute ack.off = [(3, 5)] ∧ y.taken = [0, 1])) = true :=
    System.Reachable.of_run ⟨.new, []⟩ [.data 3 false [3, 4]] rfl (by decide +kernel)
  obtain ⟨ack, hack, hpolled⟩ := (Option.any_eq_true _ _).1 hpolled
  obtain ⟨y, hy, hdone⟩ := (Option.any_eq_true _ _).1 hpolled
  obtain ⟨hheld, htaken⟩ := of_decide_eq_true hdone
  have hnamed : x.Acknowledged ack 4 := .inr ⟨(3, 5), hheld ▸ List.mem_singleton_self _, by decide, by decide⟩
  exact ⟨x, y, ack, hreach, hack, hnamed, hy, htaken, (acknowledged_retained hreach hack hnamed hy).2.1⟩

end Reader

end Braid.Forwarding
