import Braid.Foundation.Slice
import Braid.Forwarding.Stream

/-! What an arrival does to a receiver. Two readings of the receiver are kept by
every arrival it accepts. `Counts` holds of any peer: `next` is the number of
bytes placed, plus one once the end is placed. `Follows` holds of a peer whose
segments are pieces of one sequence: what has been placed is a prefix of that
sequence. -/

namespace Braid.Forwarding

open Foundation

namespace Receiver

variable {r r' : Receiver} {off n : ℕ} {fin : Bool} {bytes : List UInt8}

theorem onData_ok (h : r.onData off fin bytes = .ok r') :
    ∃ r₁, r.declareEnd (endOf off bytes) fin = .ok r₁ ∧
      r' = ({ r₁ with ackOwed := true }.place off bytes).settleEnd := by
  unfold onData at h
  cases hd : r.declareEnd (endOf off bytes) fin with
  | error e => simp [hd, bind, Except.bind] at h
  | ok r₁ =>
    refine ⟨r₁, rfl, ?_⟩
    simpa [hd, bind, Except.bind, pure, Except.pure] using h.symm

theorem declareEnd_ok {stop : ℕ} (h : r.declareEnd stop fin = .ok r') :
    (r' = r ∧ (∀ known, r.fin = some known → stop ≤ known) ∧ (r.fin = none → fin = false)) ∨
      (r.fin = none ∧ fin = true ∧ r.next ≤ stop ∧ r.heldPast stop = false ∧
        r' = { r with fin := some stop }) := by
  unfold declareEnd at h
  cases hf : r.fin with
  | some known =>
    simp only [hf] at h
    split_ifs at h with hc
    exact .inl ⟨by simpa using h.symm, by rintro _ ⟨⟩; omega, by simp⟩
  | none =>
    simp only [hf] at h
    split_ifs at h with h₁ h₂
    · rw [not_or, Bool.not_eq_true] at h₂
      exact .inr ⟨rfl, h₁, by omega, h₂.2, by simpa using h.symm⟩
    · exact .inl ⟨by simpa using h.symm, by simp, fun _ => by simpa using h₁⟩

/-- One turn of the loop over the held segments. -/
def drainTurn (r : Receiver) (off : ℕ) (bytes : List UInt8) : Receiver :=
  if (r.popLowest bytes).next < endOf off bytes then (r.popLowest bytes).append off bytes
  else r.popLowest bytes

variable (P : Receiver → Prop)

/-- The loop rule of `drainHeld`: each turn takes the lowest segment. -/
theorem drainHeld_rule_lowest (h : P r)
    (hturn : ∀ r off bytes rest, P r → r.held.entries = (off, bytes) :: rest → off ≤ r.next →
      P (r.drainTurn off bytes)) : P r.drainHeld := by
  unfold drainHeld
  generalize r.held.size = n
  induction n generalizing r with
  | zero => exact h
  | succ n ih =>
    simp only [drainTurns]
    split
    · exact h
    · rename_i off bytes rest he
      split_ifs with hgap hend
      · exact h
      all_goals
        have := hturn r off bytes rest h he (by omega)
        rw [drainTurn] at this
        first
          | rw [if_pos hend] at this
          | rw [if_neg hend] at this
        exact ih this

theorem drainHeld_rule (h : P r)
    (hturn : ∀ r off bytes, P r → (off, bytes) ∈ r.held.entries → off ≤ r.next →
      P (r.drainTurn off bytes)) : P r.drainHeld :=
  drainHeld_rule_lowest P h fun r off bytes _ hP hentries ho =>
    hturn r off bytes hP (hentries ▸ List.mem_cons_self) ho

/-- What `place` can do: nothing that is read, hold the segment, or append it
and drain. -/
theorem place_cases (hsame : P r) (hhold : r.next < off → P (r.hold off bytes))
    (happend : off ≤ r.next → r.next < endOf off bytes → P (r.append off bytes).drainHeld) :
    P (r.place off bytes) := by
  unfold place
  split_ifs with h₁ h₂ h₃
  · exact hhold h₂
  · exact happend (by omega) h₁
  · exact hsame
  · exact hsame

theorem hold_cases (hsame : P r)
    (hkeep : ∀ count, P { r with heldBytes := count, held := r.held.insert off bytes }) :
    P (r.hold off bytes) := by
  unfold hold
  dsimp only
  split_ifs
  · exact hsame
  · exact hkeep _
  · exact hsame

theorem hold_ready (r : Receiver) (off : ℕ) (bytes : List UInt8) :
    (r.hold off bytes).ready = r.ready ∧ (r.hold off bytes).next = r.next ∧
      (r.hold off bytes).fin = r.fin ∧ (r.hold off bytes).finished = r.finished :=
  hold_cases (fun r' => r'.ready = r.ready ∧ r'.next = r.next ∧ r'.fin = r.fin ∧
    r'.finished = r.finished) ⟨rfl, rfl, rfl, rfl⟩ fun _ => ⟨rfl, rfl, rfl, rfl⟩

@[simp] theorem consume_ready (r : Receiver) (n : ℕ) : (r.consume n).ready = r.ready.drop n := by
  have : r.ready.drop (min n r.ready.length) = r.ready.drop n := by
    rcases Nat.le_total n r.ready.length with h | h
    · rw [min_eq_left h]
    · rw [min_eq_right h, List.drop_length, List.drop_eq_nil_of_le h]
  unfold consume
  dsimp only
  split_ifs <;> exact this

theorem consume_zero (r : Receiver) : r.consume 0 = r := by
  exact if_neg fun h => absurd h.1 (not_lt.mpr h.2)

theorem consume_frame (r : Receiver) (n : ℕ) : (r.consume n).next = r.next ∧
    (r.consume n).held = r.held ∧ (r.consume n).fin = r.fin ∧ (r.consume n).finished = r.finished := by
  unfold consume
  dsimp only
  split_ifs <;> exact ⟨rfl, rfl, rfl, rfl⟩

/-- Two receivers that differ at most in the acknowledgement they owe. -/
structure SameRead (r r' : Receiver) : Prop where
  ready : r'.ready = r.ready
  next : r'.next = r.next
  fin : r'.fin = r.fin
  finished : r'.finished = r.finished

theorem SameRead.refl (r : Receiver) : SameRead r r := ⟨rfl, rfl, rfl, rfl⟩

theorem pollAck_frame (r : Receiver) : r.pollAck.1.next = r.next ∧ r.pollAck.1.ready = r.ready ∧
    r.pollAck.1.held = r.held ∧ r.pollAck.1.fin = r.fin ∧ r.pollAck.1.finished = r.finished := by
  unfold pollAck
  split_ifs <;> exact ⟨rfl, rfl, rfl, rfl, rfl⟩

theorem pollAck_sameRead (r : Receiver) : SameRead r r.pollAck.1 := by
  obtain ⟨hnext, hready, -, hfin, hfinished⟩ := r.pollAck_frame
  exact ⟨hready, hnext, hfin, hfinished⟩

theorem pollAck_eq {ack : Ack} (h : r.pollAck.2 = some ack) : ack.off = r.next ∧ ack.held = r.heldRuns := by
  unfold pollAck at h
  split_ifs at h
  cases h
  exact ⟨rfl, rfl⟩

theorem onData_in_order (hheld : r.held.entries = []) (hfin : r.fin = none) (hopen : r.finished = false)
    (hne : bytes ≠ []) (hfit : r.ready.length + bytes.length ≤ forwardWindow)
    (hmax : r.next + bytes.length ≤ u64Max) :
    r.onData r.next fin bytes = .ok { r with
      ready := r.ready ++ bytes
      next := r.next + bytes.length + (if fin then 1 else 0)
      fin := if fin then some (r.next + bytes.length) else none
      finished := fin
      ackOwed := true } := by
  have hpos : 0 < bytes.length := List.length_pos_iff.mpr hne
  have hend : endOf r.next bytes = r.next + bytes.length := min_eq_left hmax
  have hdeclare : r.declareEnd (endOf r.next bytes) fin =
      .ok { r with fin := if fin then some (r.next + bytes.length) else none } := by
    unfold declareEnd
    cases fin with
    | false =>
      obtain ⟨next, ready, held, heldBytes, _, finished, ackOwed⟩ := r
      cases hfin
      rfl
    | true => simp [hfin, hend, heldPast, hheld]
  have hplace : ∀ f, { r with fin := f, ackOwed := true }.place r.next bytes =
      { r with ready := r.ready ++ bytes, next := r.next + bytes.length, fin := f, ackOwed := true } := by
    intro f
    unfold place
    simp [hend, hpos, admits, hfit, Receiver.append, drainHeld, SortedMap.size, hheld, drainTurns]
  unfold onData
  rw [hdeclare]
  simp only [bind, Except.bind, pure, Except.pure, hplace]
  cases fin <;> simp [settleEnd, hopen]

/-! ### Counting what has been placed -/

/-- `placed` bytes have been put in order, whoever the peer is. -/
structure Counts (r : Receiver) (placed : ℕ) : Prop where
  next_eq : r.next = min placed u64Max + (if r.finished then 1 else 0)
  fin_eq : r.finished = true → r.fin = some (min placed u64Max)

theorem counts_new : Counts new 0 := ⟨rfl, by simp [new]⟩

theorem SameRead.counts {r r' : Receiver} {n : ℕ} (h : SameRead r r') (hc : r.Counts n) : r'.Counts n :=
  ⟨by rw [h.next, h.finished]; exact hc.next_eq, by rw [h.finished, h.fin]; exact hc.fin_eq⟩

theorem Counts.append (h : Counts r n) (hf : r.finished = false) (ho : off ≤ r.next)
    (he : r.next < endOf off bytes) :
    Counts (r.append off bytes) (n + (bytes.drop (r.next - off)).length) := by
  have hn := h.next_eq
  simp only [hf, Bool.false_eq_true, if_false, Nat.add_zero] at hn
  rw [endOf] at he
  refine ⟨?_, fun h' => ?_⟩
  · simp only [Receiver.append, endOf, hf, Bool.false_eq_true, if_false, List.length_drop]
    congr 1
    omega
  · simp only [Receiver.append, hf, Bool.false_eq_true] at h'

/-- `r` has gained bytes since `r₀`, all of them counted, and no end yet. -/
def Gained (r₀ : Receiver) (n : ℕ) (r : Receiver) : Prop :=
  ∃ added, r.ready = r₀.ready ++ added ∧ Counts r (n + added.length) ∧ r.finished = false

theorem Gained.append {r₀ : Receiver} (h : Gained r₀ n r) (ho : off ≤ r.next)
    (he : r.next < endOf off bytes) : Gained r₀ n (r.append off bytes) := by
  obtain ⟨added, hr, hc, hf⟩ := h
  refine ⟨added ++ bytes.drop (r.next - off), ?_, ?_, hf⟩
  · simp only [Receiver.append, hr, List.append_assoc]
  · rw [List.length_append, ← Nat.add_assoc]
    exact hc.append hf ho he

theorem Gained.place {r₀ : Receiver} (h : Gained r₀ n r) (off : ℕ) (bytes : List UInt8) :
    Gained r₀ n (r.place off bytes) := by
  refine place_cases _ h (fun _ => ?_) fun ho he => drainHeld_rule _ (h.append ho he) ?_
  · obtain ⟨added, hr, hc, hf⟩ := h
    obtain ⟨hready, hnext, hfin, hfinished⟩ := hold_ready r off bytes
    exact ⟨added, hready.trans hr, ⟨by rw [hnext, hfinished]; exact hc.next_eq,
      by rw [hfinished, hfin]; exact hc.fin_eq⟩, hfinished.trans hf⟩
  · intro r off bytes h _ ho
    have hpop : Gained r₀ n (r.popLowest bytes) := by
      obtain ⟨added, hr, hc, hf⟩ := h
      exact ⟨added, hr, ⟨hc.next_eq, hc.fin_eq⟩, hf⟩
    unfold drainTurn
    split_ifs with he
    · exact hpop.append ho he
    · exact hpop

theorem Gained.settleEnd {r₀ : Receiver} (h : Gained r₀ n r) :
    ∃ added, r.settleEnd.ready = r₀.ready ++ added ∧ Counts r.settleEnd (n + added.length) := by
  obtain ⟨added, hr, hc, hf⟩ := h
  have hn := hc.next_eq
  simp only [hf, Bool.false_eq_true, if_false, Nat.add_zero] at hn
  unfold Receiver.settleEnd
  split_ifs with hs
  · exact ⟨added, hr, by simp only [if_true]; omega, fun _ => by simp only [hs.2, hn]⟩
  · exact ⟨added, hr, hc⟩

theorem onData_finished {f : ℕ} (hf : r.finished = true) (hfin : r.fin = some f) (hnext : r.next = f + 1)
    (hok : r.onData off fin bytes = .ok r') : r' = { r with ackOwed := true } := by
  obtain ⟨r₁, hd, rfl⟩ := onData_ok hok
  obtain ⟨rfl, hle, -⟩ | ⟨hnone, -⟩ := declareEnd_ok hd
  · have := hle f hfin
    have hplace : { r₁ with ackOwed := true }.place off bytes = { r₁ with ackOwed := true } := by
      rw [place, if_neg (by simp only; omega)]
    rw [hplace, settleEnd, if_neg (by simp [hf])]
  · rw [hfin] at hnone
    cases hnone

/-- What an accepted arrival adds is counted, and nothing is added past a
placed end. -/
theorem Counts.onData (h : Counts r n) (hok : r.onData off fin bytes = .ok r') :
    ∃ added, r'.ready = r.ready ++ added ∧ Counts r' (n + added.length) ∧
      (r.finished = true → r'.finished = true ∧ added = []) := by
  cases hf : r.finished with
  | true =>
    have hnext := h.next_eq
    rw [hf] at hnext
    obtain rfl := onData_finished hf (h.fin_eq hf) hnext hok
    exact ⟨[], by simp, ⟨h.next_eq, h.fin_eq⟩, fun _ => ⟨hf, rfl⟩⟩
  | false =>
    obtain ⟨r₁, hd, rfl⟩ := onData_ok hok
    have hstart : Gained r n { r₁ with ackOwed := true } := by
      obtain ⟨rfl, -, -⟩ | ⟨-, -, -, -, rfl⟩ := declareEnd_ok hd
      · exact ⟨[], by simp, ⟨h.next_eq, h.fin_eq⟩, hf⟩
      · exact ⟨[], by simp, ⟨h.next_eq, by simp [hf]⟩, hf⟩
    obtain ⟨added, hr, hc⟩ := (hstart.place off bytes).settleEnd
    exact ⟨added, hr, hc, by simp⟩

/-! ### A peer that sends pieces of one sequence -/

/-- `bytes` stand in `S` at `off`, below the last offset. -/
def Piece (S : List UInt8) (off : ℕ) (bytes : List UInt8) : Prop :=
  At S off bytes ∧ off + bytes.length ≤ u64Max

variable {S consumed : List UInt8} {peerFin : Option ℕ}

theorem Piece.endOf_eq (h : Piece S off bytes) : endOf off bytes = off + bytes.length :=
  min_eq_left h.2

/-- How many bytes of the sequence have been placed. -/
def placedEnd (r : Receiver) : ℕ := if r.finished then r.next - 1 else r.next

/-- The receiver has consumed and holds pieces of `S` only, and knows an end
only if the peer declared it. -/
structure Follows (S : List UInt8) (peerFin : Option ℕ) (consumed : List UInt8) (r : Receiver) : Prop where
  placed : consumed ++ r.ready = S.take r.placedEnd
  placed_le : r.placedEnd ≤ S.length
  held : ∀ e ∈ r.held.entries, Piece S e.1 e.2
  fin : ∀ f, r.fin = some f → peerFin = some f
  finished : r.finished = true → r.fin = some r.placedEnd ∧ r.next = r.placedEnd + 1

theorem follows_new : Follows [] none [] new where
  placed := rfl
  placed_le := Nat.zero_le _
  held := by simp [new]
  fin := by simp [new]
  finished := by simp [new]

section

variable (h : Follows S peerFin consumed r)

include h

theorem Follows.extend (T : List UInt8) {peerFin' : Option ℕ}
    (hfin : ∀ f, peerFin = some f → peerFin' = some f) : Follows (S ++ T) peerFin' consumed r where
  placed := by rw [List.take_append_of_le_length h.placed_le]; exact h.placed
  placed_le := by rw [List.length_append]; have := h.placed_le; omega
  held e he := ⟨(h.held e he).1.append T, (h.held e he).2⟩
  fin f hf := hfin f (h.fin f hf)
  finished := h.finished

theorem Follows.append (hf : r.finished = false)
    (hp : Piece S off bytes) (ho : off ≤ r.next) (he : r.next < endOf off bytes) :
    Follows S peerFin consumed (r.append off bytes) := by
  rw [hp.endOf_eq] at he
  have hend : (r.append off bytes).placedEnd = off + bytes.length := by
    simp only [placedEnd, Receiver.append, hf, Bool.false_eq_true, if_false, hp.endOf_eq]
  have hplaced := h.placed
  simp only [placedEnd, hf, Bool.false_eq_true, if_false] at hplaced
  refine ⟨?_, ?_, h.held, h.fin, fun h' => ?_⟩
  · rw [hend, Receiver.append, ← List.append_assoc, hplaced]
    exact hp.1.take_append_drop ho (by omega)
  · rw [hend]
    exact hp.1.length_le
  · simp only [Receiver.append, hf, Bool.false_eq_true] at h'

theorem Follows.popLowest (bytes : List UInt8) :
    Follows S peerFin consumed (r.popLowest bytes) :=
  ⟨h.placed, h.placed_le, fun e he => h.held e (List.mem_of_mem_drop he), h.fin, h.finished⟩

theorem Follows.hold (hp : Piece S off bytes) :
    Follows S peerFin consumed (r.hold off bytes) := by
  refine hold_cases _ h fun count => ⟨h.placed, h.placed_le, fun e he => ?_, h.fin, h.finished⟩
  rcases SortedMap.mem_insert he with rfl | he
  · exact hp
  · exact h.held e he

theorem Follows.place (hf : r.finished = false)
    (hp : Piece S off bytes) :
    Follows S peerFin consumed (r.place off bytes) ∧ (r.place off bytes).finished = false := by
  refine place_cases (fun r => Follows S peerFin consumed r ∧ r.finished = false) ⟨h, hf⟩
    (fun _ => ⟨h.hold hp, (hold_ready r off bytes).2.2.2.trans hf⟩) fun ho he => ?_
  refine drainHeld_rule (fun r => Follows S peerFin consumed r ∧ r.finished = false)
    ⟨h.append hf hp ho he, hf⟩ ?_
  rintro r off bytes ⟨h, hf⟩ hmem ho
  unfold drainTurn
  split_ifs with he
  · exact ⟨(h.popLowest bytes).append hf (h.held _ hmem) ho he, hf⟩
  · exact ⟨h.popLowest bytes, hf⟩

theorem Follows.settleEnd : Follows S peerFin consumed r.settleEnd := by
  unfold Receiver.settleEnd
  split_ifs with hs
  · refine ⟨?_, ?_, h.held, h.fin, fun _ => ⟨hs.2, rfl⟩⟩
    · simpa [placedEnd, hs.1] using h.placed
    · simpa [placedEnd, hs.1] using h.placed_le
  · exact h

theorem Follows.onData (hp : Piece S off bytes)
    (hfin : fin = true → peerFin = some (off + bytes.length))
    (hok : r.onData off fin bytes = .ok r') : Follows S peerFin consumed r' := by
  cases hf : r.finished with
  | true =>
    obtain ⟨hfin, hnext⟩ := h.finished hf
    obtain rfl := onData_finished hf hfin hnext hok
    exact { h with }
  | false =>
    obtain ⟨r₁, hd, rfl⟩ := onData_ok hok
    have hstart : Follows S peerFin consumed { r₁ with ackOwed := true } ∧ r₁.finished = false := by
      obtain ⟨rfl, -, -⟩ | ⟨-, ht, -, -, rfl⟩ := declareEnd_ok hd
      · exact ⟨{ h with }, hf⟩
      · refine ⟨⟨h.placed, h.placed_le, h.held, ?_, by simp [hf]⟩, hf⟩
        rintro f ⟨⟩
        rw [hp.endOf_eq]
        exact hfin ht
    exact (hstart.1.place hstart.2 hp).1.settleEnd

theorem Follows.consume (n : ℕ) :
    Follows S peerFin (consumed ++ r.ready.take n) (r.consume n) := by
  obtain ⟨hnext, hheld, hfin, hfinished⟩ := consume_frame r n
  have hend : (r.consume n).placedEnd = r.placedEnd := by simp only [placedEnd, hnext, hfinished]
  refine ⟨?_, hend ▸ h.placed_le, hheld ▸ h.held, hfin ▸ h.fin, ?_⟩
  · rw [consume_ready, List.append_assoc, List.take_append_drop, hend]
    exact h.placed
  · rw [hfinished, hfin, hnext, hend]
    exact h.finished

theorem Follows.pollAck : Follows S peerFin consumed r.pollAck.1 := by
  obtain ⟨hnext, hready, hheld, hfin, hfinished⟩ := pollAck_frame r
  have hend : r.pollAck.1.placedEnd = r.placedEnd := by simp only [placedEnd, hnext, hfinished]
  refine ⟨?_, hend ▸ h.placed_le, hheld ▸ h.held, hfin ▸ h.fin, ?_⟩
  · rw [hready, hend]
    exact h.placed
  · rw [hfinished, hfin, hnext, hend]
    exact h.finished

end

theorem onData_next_le (hok : r.onData off fin bytes = .ok r') : r.next ≤ r'.next := by
  obtain ⟨r₁, hd, rfl⟩ := onData_ok hok
  have hstart : r.next ≤ { r₁ with ackOwed := true }.next := by
    obtain ⟨rfl, -, -⟩ | ⟨-, -, -, -, rfl⟩ := declareEnd_ok hd <;> exact le_rfl
  have hplace : r.next ≤ ({ r₁ with ackOwed := true }.place off bytes).next := by
    refine place_cases (fun r' => r.next ≤ r'.next) hstart (fun _ => ?_) fun ho he => ?_
    · rw [(hold_ready _ off bytes).2.1]
      exact hstart
    · refine drainHeld_rule (fun r' => r.next ≤ r'.next) (hstart.trans he.le) fun r' off bytes h _ _ => ?_
      unfold drainTurn
      split_ifs with he
      · exact h.trans he.le
      · exact h
  refine hplace.trans ?_
  unfold settleEnd
  split_ifs
  · exact Nat.le_succ _
  · exact le_rfl

end Receiver

theorem Stream.onData_ok {s s' : Stream} {off : ℕ} {fin : Bool} {bytes : List UInt8}
    (h : s.onData off fin bytes = .ok s') :
    ∃ recv, s.recv.onData off fin bytes = .ok recv ∧ s' = { s with recv } := by
  unfold Stream.onData at h
  cases hr : s.recv.onData off fin bytes with
  | error e => simp [hr, bind, Except.bind] at h
  | ok recv => exact ⟨recv, rfl, by simpa [hr, bind, Except.bind, pure, Except.pure] using h.symm⟩

end Braid.Forwarding
