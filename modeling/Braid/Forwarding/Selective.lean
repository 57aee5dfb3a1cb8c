import Braid.Foundation.Runs
import Braid.Forwarding.Backlog

/-! What a receiver tells its peer it holds. The segments past the gap may overlap, nest or
abut; an acknowledgement names the lowest maximal runs of the positions they occupy, each as
its gap from the run before and its length. Every arrival leaves all held segments past
`next` and within a window of it, so the relative form never drops one. -/

namespace Braid.Forwarding

open Foundation

/-- A receiver with what its socket has taken of it so far. -/
structure Reader where
  recv : Receiver
  taken : List UInt8
  deriving DecidableEq

namespace Reader

/-- One call of the receiver's owner, for any peer: a segment of any length at any offset.
A contradicted arrival leaves the receiver as it is. -/
def next (x : Reader) : ReceiverAction → Option Reader
  | .data off fin bytes =>
    if u64Max < off then none
    else
      match x.recv.onData off fin bytes with
      | .ok recv => some { x with recv }
      | .error _ => some x
  | .consume n => some ⟨x.recv.consume n, x.taken ++ x.recv.ready.take n⟩
  | .pollAck => some { x with recv := x.recv.pollAck.1 }

def system : System Reader ReceiverAction := ⟨(· = ⟨.new, []⟩), next⟩

theorem next_cases {x x' : Reader} {a : ReceiverAction} (h : x.next a = some x') :
    (∃ off fin bytes recv, a = .data off fin bytes ∧ x.recv.onData off fin bytes = .ok recv ∧ x' = { x with recv }) ∨
    (∃ n, x' = ⟨x.recv.consume n, x.taken ++ x.recv.ready.take n⟩) ∨ x' = x ∨ x' = { x with recv := x.recv.pollAck.1 } := by
  cases a with
  | data off fin bytes =>
    rw [next] at h
    split_ifs at h
    cases hdata : x.recv.onData off fin bytes with
    | ok recv =>
      rw [hdata] at h
      exact .inl ⟨off, fin, bytes, recv, rfl, hdata, (Option.some.inj h).symm⟩
    | error e =>
      rw [hdata] at h
      exact .inr (.inr (.inl (Option.some.inj h).symm))
  | consume n => exact .inr (.inl ⟨n, (Option.some.inj h).symm⟩)
  | pollAck => exact .inr (.inr (.inr (Option.some.inj h).symm))

end Reader

namespace Receiver

variable {r r' : Receiver} {off n : ℕ} {fin : Bool} {bytes : List UInt8}

/-- The position `p` is one of a held segment. -/
def Holds (r : Receiver) (p : ℕ) : Prop := ∃ e ∈ r.held.entries, e.1 ≤ p ∧ p < endOf e.1 e.2

/-- A segment past the gap is kept only if it is not empty, starts within a window of
`next`, fits what is left of the window, and is longer than what stands at its offset. -/
theorem hold_spec (r : Receiver) (off : ℕ) (bytes : List UInt8) : r.hold off bytes = r ∨
    (bytes ≠ [] ∧ off < r.next + forwardWindow ∧ off < u64Max ∧ bytes.length ≤ forwardWindow ∧
      ((r.held.get? off).getD []).length < bytes.length ∧
      ∃ count, r.hold off bytes = { r with heldBytes := count, held := r.held.insert off bytes }) := by
  unfold hold
  dsimp only
  split_ifs with hrefused hlonger
  · exact .inl rfl
  · simp only [not_or, not_le, lt_min_iff] at hrefused
    obtain ⟨hne, -, ⟨hnear, hmax⟩, hfit⟩ := hrefused
    exact .inr ⟨hne, hnear, hmax, by omega, hlonger, _, rfl⟩
  · exact .inl rfl

/-- Every held segment is near `next`, and none reaches past the end that is known. -/
structure Near (r : Receiver) : Prop where
  held : ∀ e ∈ r.held.entries, e.2 ≠ [] ∧ e.1 < r.next + forwardWindow ∧ e.1 < u64Max ∧ e.2.length ≤ forwardWindow
  fin : ∀ f, r.fin = some f → ∀ e ∈ r.held.entries, endOf e.1 e.2 ≤ f

/-- Every held segment starts past `next`. -/
def Gapped (r : Receiver) : Prop := ∀ e ∈ r.held.entries, r.next < e.1

theorem near_new : Near new := ⟨by simp [new], by simp [new]⟩

theorem gapped_new : Gapped new := by simp [Gapped, new]

theorem Near.lt_endOf (h : Near r) {e : ℕ × List UInt8} (he : e ∈ r.held.entries) : e.1 < endOf e.1 e.2 := by
  obtain ⟨hne, -, hmax, -⟩ := h.held e he
  have := List.length_pos_iff.mpr hne
  rw [endOf]
  omega

theorem Near.append (h : Near r) (he : r.next < endOf off bytes) : Near (r.append off bytes) := by
  refine ⟨fun e hmem => ?_, h.fin⟩
  obtain ⟨hne, hnear, hrest⟩ := h.held e hmem
  exact ⟨hne, hnear.trans (by change _ < endOf off bytes + _; omega), hrest⟩

theorem Near.drainTurn (h : Near r) : Near (r.drainTurn off bytes) := by
  have hpop : Near (r.popLowest bytes) :=
    ⟨fun e he => h.held e (List.mem_of_mem_drop he), fun f hf e he => h.fin f hf e (List.mem_of_mem_drop he)⟩
  unfold Receiver.drainTurn
  split_ifs with hend
  · exact hpop.append hend
  · exact hpop

theorem Near.hold (h : Near r) (hfin : ∀ f, r.fin = some f → endOf off bytes ≤ f) : Near (r.hold off bytes) := by
  obtain heq | ⟨hne, hnear, hmax, hfit, -, count, heq⟩ := hold_spec r off bytes
  · rwa [heq]
  · rw [heq]
    refine ⟨fun e he => ?_, fun f hf e he => ?_⟩
    · rcases SortedMap.mem_insert he with rfl | he
      · exact ⟨hne, hnear, hmax, hfit⟩
      · exact h.held e he
    · rcases SortedMap.mem_insert he with rfl | he
      · exact hfin f hf
      · exact h.fin f hf e he

theorem Gapped.hold (h : Gapped r) (hoff : r.next < off) : Gapped (r.hold off bytes) := by
  refine hold_cases Gapped h fun count e he => ?_
  rcases SortedMap.mem_insert he with rfl | he
  · exact hoff
  · exact h e he

theorem gapped_drainTurns (h : r.held.size ≤ n) : Gapped (drainTurns n r) := by
  induction n generalizing r with
  | zero =>
    have hnil : r.held.entries = [] := List.length_eq_zero_iff.mp (Nat.le_zero.mp h)
    simp [Gapped, drainTurns, hnil]
  | succ n ih =>
    rw [drainTurns]
    split
    · rename_i hnil
      simp [Gapped, hnil]
    · rename_i off bytes rest hentries
      have hsize : (r.popLowest bytes).held.size ≤ n := by
        rw [SortedMap.size, hentries] at h
        simp only [popLowest, SortedMap.size, SortedMap.dropLowest_entries, hentries, List.drop_succ_cons, List.drop_zero]
        exact Nat.le_of_succ_le_succ h
      split_ifs with hgap
      · -- the lowest is past `next`, so they all are
        have hascending := r.held.ascending
        rw [hentries] at hascending
        intro e he
        rw [hentries] at he
        rcases List.mem_cons.mp he with rfl | he
        · exact hgap
        · exact hgap.trans ((List.pairwise_cons.mp hascending).1 e he)
      · apply ih
        split_ifs <;> exact hsize

theorem gapped_drainHeld : Gapped r.drainHeld := gapped_drainTurns le_rfl

theorem Near.place (h : Near r) (hfin : ∀ f, r.fin = some f → endOf off bytes ≤ f) : Near (r.place off bytes) :=
  place_cases Near h (fun _ => h.hold hfin) fun _ he => drainHeld_rule Near (h.append he) fun _ _ _ h _ _ => h.drainTurn

theorem Gapped.place (h : Gapped r) : Gapped (r.place off bytes) :=
  place_cases Gapped h h.hold fun _ _ => gapped_drainHeld

theorem Near.settleEnd (h : Near r) (hgap : Gapped r) : Near r.settleEnd ∧ Gapped r.settleEnd := by
  unfold Receiver.settleEnd
  split_ifs with hs
  · have hnone : ∀ e, e ∉ r.held.entries := by
      intro e he
      have hpast := h.fin _ hs.2 e he
      have hstart := h.lt_endOf he
      have := hgap e he
      omega
    exact ⟨⟨fun e he => absurd he (hnone e), fun f _ e he => absurd he (hnone e)⟩, fun e he => absurd he (hnone e)⟩
  · exact ⟨h, hgap⟩

theorem Near.onData (h : Near r) (hgap : Gapped r) (hok : r.onData off fin bytes = .ok r') : Near r' ∧ Gapped r' := by
  obtain ⟨r₁, hd, rfl⟩ := onData_ok hok
  have hstart : Near { r₁ with ackOwed := true } ∧ Gapped { r₁ with ackOwed := true } ∧
      ∀ f, r₁.fin = some f → endOf off bytes ≤ f := by
    obtain ⟨rfl, hle, -⟩ | ⟨-, -, -, hpast, rfl⟩ := declareEnd_ok hd
    · exact ⟨⟨h.held, h.fin⟩, hgap, hle⟩
    · refine ⟨⟨h.held, ?_⟩, hgap, ?_⟩
      · rintro f ⟨⟩ e he
        simp only [heldPast, List.any_eq_false, decide_eq_true_eq, not_lt] at hpast
        exact hpast e he
      · rintro f ⟨⟩
        exact le_rfl
  exact (hstart.1.place hstart.2.2).settleEnd hstart.2.1.place

theorem Near.frame (h : Near r ∧ Gapped r) (hnext : r'.next = r.next) (hheld : r'.held = r.held)
    (hfin : r'.fin = r.fin) : Near r' ∧ Gapped r' := by
  refine ⟨⟨?_, ?_⟩, ?_⟩
  · rw [hheld, hnext]
    exact h.1.held
  · rw [hheld, hfin]
    exact h.1.fin
  · rw [Gapped, hheld, hnext]
    exact h.2

end Receiver

namespace Reader

theorem reachable_near {x : Reader} (h : system.Reachable x) : x.recv.Near ∧ x.recv.Gapped := by
  refine h.invariant (P := fun x => x.recv.Near ∧ x.recv.Gapped) ?_ ?_
  · rintro _ rfl
    exact ⟨Receiver.near_new, Receiver.gapped_new⟩
  · rintro x a x' hx hs
    obtain ⟨off, fin, bytes, recv, -, hok, rfl⟩ | ⟨n, rfl⟩ | rfl | rfl := next_cases hs
    · exact hx.1.onData hx.2 hok
    · obtain ⟨hnext, hheld, hfin, -⟩ := x.recv.consume_frame n
      exact Receiver.Near.frame hx hnext hheld hfin
    · exact hx
    · obtain ⟨hnext, -, hheld, hfin, -⟩ := x.recv.pollAck_frame
      exact Receiver.Near.frame hx hnext hheld hfin

end Reader

/-! ### The runs of an acknowledgement -/

namespace SackRuns

theorem length_absoluteFrom (cursor : ℕ) (runs : List SackRun) : (absoluteFrom cursor runs).length = runs.length := by
  induction runs generalizing cursor with
  | nil => rfl
  | cons run runs ih => simp [absoluteFrom, ih]

end SackRuns

namespace Receiver

open SackRuns

variable {base cursor limit : ℕ} {run : ℕ × ℕ} {runs : List SackRun}

/-- The positions of each segment, as an interval. -/
def spansOf (entries : List (ℕ × List UInt8)) : List (ℕ × ℕ) := entries.map fun e => (e.1, endOf e.1 e.2)

/-- `runs` are written relative to `base` and end at `cursor`. -/
structure Written (base cursor : ℕ) (runs : List SackRun) : Prop where
  stop : stopFrom base runs = cursor
  le : base ≤ cursor
  room : runs.length < maxAckRuns

theorem Written.pushRun (h : Written base cursor runs) (hgap : cursor < run.1) (hlen : run.1 < run.2)
    (hmax : run.2 ≤ u64Max) (hfit : run.2 < base + 4294967296) :
    ∃ sack, pushRun runs cursor run = (runs ++ [sack], run.2) ∧
      absoluteFrom base (runs ++ [sack]) = absoluteFrom base runs ++ [run] ∧ stopFrom base (runs ++ [sack]) = run.2 := by
  have hle := h.le
  have hfits : (0 < run.1 - cursor ∧ run.1 - cursor < 4294967296) ∧ (0 < run.2 - run.1 ∧ run.2 - run.1 < 4294967296) := by
    omega
  have hstart : min (cursor + (run.1 - cursor)) u64Max = run.1 := by omega
  have hstop : min (run.1 + (run.2 - run.1)) u64Max = run.2 := by omega
  refine ⟨⟨⟨run.1 - cursor, hfits.1⟩, ⟨run.2 - run.1, hfits.2⟩⟩, ?_, ?_, ?_⟩
  · simp only [Receiver.pushRun, dif_pos hfits]
  · simp only [absoluteFrom_append, h.stop, absoluteFrom, hstart, hstop]
  · have hlast := h.stop
    rw [stopFrom] at hlast ⊢
    rw [List.foldl_append, hlast, List.foldl_cons, List.foldl_nil, hstart, hstop]

/-- The walk over the segments writes the runs that merging them gives, as far as there is
room; the loop keeps what is written, the cursor at its end and the run that is open. -/
theorem walkRuns_merge (h : Written base cursor runs) (entries : List (ℕ × List UInt8)) (hgap : cursor < run.1)
    (hproper : ∀ span ∈ run :: spansOf entries, span.1 < span.2 ∧ span.2 ≤ limit) (hmax : limit ≤ u64Max)
    (hfit : limit < base + 4294967296) :
    absoluteFrom base (walkRuns entries runs cursor (some run)) =
      (absoluteFrom base runs ++ mergeFrom run (spansOf entries)).take maxAckRuns := by
  induction entries generalizing runs cursor run with
  | nil =>
    obtain ⟨hlen, hlimit⟩ := hproper run List.mem_cons_self
    obtain ⟨sack, hpush, habsolute, -⟩ := h.pushRun hgap hlen (hlimit.trans hmax) (hlimit.trans_lt hfit)
    have hroom := h.room
    simp only [walkRuns, if_pos hroom, hpush, habsolute, spansOf, List.map_nil, mergeFrom]
    rw [List.take_of_length_le (by simp [length_absoluteFrom]; omega)]
  | cons e rest ih =>
    obtain ⟨hlen, hlimit⟩ := hproper run List.mem_cons_self
    have hroom := h.room
    have hspan := hproper (e.1, endOf e.1 e.2) (by simp [spansOf])
    have hrest : ∀ span ∈ spansOf rest, span.1 < span.2 ∧ span.2 ≤ limit := fun span hspan =>
      hproper span (List.mem_cons_of_mem _ (List.mem_cons_of_mem _ hspan))
    change absoluteFrom base (walkRuns ((e.1, e.2) :: rest) runs cursor (some (run.1, run.2))) =
      (absoluteFrom base runs ++ mergeFrom run ((e.1, endOf e.1 e.2) :: spansOf rest)).take maxAckRuns
    rw [walkRuns, mergeFrom]
    by_cases hmeets : e.1 ≤ run.2
    · rw [if_pos hmeets, if_neg hroom.ne, if_pos hmeets]
      refine ih h ?_ ?_
      · exact hgap
      · exact List.forall_mem_cons.mpr ⟨⟨hlen.trans_le (le_max_left _ _), max_le hlimit hspan.2⟩, hrest⟩
    · obtain ⟨sack, hpush, habsolute, hstop⟩ := h.pushRun hgap hlen (hlimit.trans hmax) (hlimit.trans_lt hfit)
      rw [if_neg hmeets, if_neg hmeets]
      rw [hpush]
      dsimp only
      have hcons : absoluteFrom base runs ++ run :: mergeFrom (e.1, endOf e.1 e.2) (spansOf rest) =
          absoluteFrom base (runs ++ [sack]) ++ mergeFrom (e.1, endOf e.1 e.2) (spansOf rest) := by simp [habsolute]
      rw [hcons]
      split_ifs with hfull
      · rw [List.take_append_of_le_length (by rw [length_absoluteFrom, hfull]),
          List.take_of_length_le (by rw [length_absoluteFrom, hfull])]
      · have hle := h.le
        refine ih ⟨hstop, by omega, ?_⟩ (not_le.mp hmeets) (List.forall_mem_cons.mpr ⟨hspan, hrest⟩)
        simp only [List.length_append, List.length_singleton] at hfull ⊢
        omega

/-- The runs named are the lowest of those that merging the held segments gives. -/
theorem heldRuns_absolute (h : Near r) (hgap : Gapped r) :
    r.heldRuns.absolute r.next = (mergeSpans (spansOf r.held.entries)).take maxAckRuns := by
  have hproper : ∀ span ∈ spansOf r.held.entries, span.1 < span.2 ∧ span.2 ≤ min (r.next + 2 * forwardWindow) u64Max := by
    intro span hspan
    obtain ⟨e, he, rfl⟩ := List.mem_map.mp hspan
    obtain ⟨-, hnear, -, hlen⟩ := h.held e he
    have hlt := h.lt_endOf he
    refine ⟨hlt, ?_⟩
    dsimp only [endOf]
    omega
  have hfit : min (r.next + 2 * forwardWindow) u64Max < r.next + 4294967296 := by
    have : forwardWindow = 262144 := rfl
    omega
  change absoluteFrom r.next (walkRuns r.held.entries [] r.next none) = _
  have hnext := hgap
  unfold Gapped at hnext
  generalize r.held.entries = entries at hproper hnext
  cases entries with
  | nil => rfl
  | cons e rest =>
    have hwritten : Written r.next r.next [] := ⟨rfl, le_rfl, by decide⟩
    exact walkRuns_merge hwritten rest (hnext e List.mem_cons_self) hproper (min_le_right _ _) hfit

theorem runs_spansOf (h : Near r) (hgap : Gapped r) :
    Runs (fun p => r.next < p ∧ r.Holds p) (mergeSpans (spansOf r.held.entries)) := by
  have hproper : ∀ span ∈ spansOf r.held.entries, span.1 < span.2 := by
    intro span hspan
    obtain ⟨e, he, rfl⟩ := List.mem_map.mp hspan
    exact h.lt_endOf he
  have horder : (spansOf r.held.entries).Pairwise fun a b => a.1 ≤ b.1 := by
    rw [spansOf, List.pairwise_map]
    exact r.held.ascending.imp fun hlt => hlt.le
  obtain ⟨hruns, hapart, hcovers⟩ := runs_mergeSpans hproper horder
  refine ⟨hruns, hapart, fun p => (hcovers p).trans ?_⟩
  constructor
  · rintro ⟨span, hspan, hstart, hstop⟩
    obtain ⟨e, he, rfl⟩ := List.mem_map.mp hspan
    exact ⟨(hgap e he).trans_le hstart, e, he, hstart, hstop⟩
  · rintro ⟨-, e, he, hstart, hstop⟩
    exact ⟨_, List.mem_map_of_mem he, hstart, hstop⟩

end Receiver

namespace Reader

variable {x : Reader} {ack : Ack}

theorem reachable_counts (h : system.Reachable x) : x.recv.Counts (x.taken.length + x.recv.ready.length) := by
  refine h.invariant (P := fun x => x.recv.Counts (x.taken.length + x.recv.ready.length)) ?_ ?_
  · rintro _ rfl
    exact Receiver.counts_new
  · rintro x a x' hx hs
    obtain ⟨off, fin, bytes, recv, -, hok, rfl⟩ | ⟨n, rfl⟩ | rfl | rfl := next_cases hs
    · obtain ⟨added, hready, hcounts, -⟩ := hx.onData hok
      rw [hready, List.length_append, ← Nat.add_assoc]
      exact hcounts
    · obtain ⟨hnext, -, hfin, hfinished⟩ := x.recv.consume_frame n
      have hlen : (x.taken ++ x.recv.ready.take n).length + (x.recv.consume n).ready.length =
          x.taken.length + x.recv.ready.length := by
        rw [Receiver.consume_ready, List.length_append, Nat.add_assoc, ← List.length_append, List.take_append_drop]
      rw [hlen]
      exact ⟨by rw [hnext, hfinished]; exact hx.next_eq, by rw [hfinished, hfin]; exact hx.fin_eq⟩
    · exact hx
    · rw [x.recv.pollAck_frame.2.1]
      exact x.recv.pollAck_sameRead.counts hx

/-- An acknowledgement is exact. It names the next position expected, which is the number
of bytes placed, with the end if that is placed; and the lowest maximal runs of the positions
held past it, as many as one acknowledgement may name. -/
theorem acknowledgement_exact (h : system.Reachable x) (hack : x.recv.pollAck.2 = some ack) :
    ack.off = x.recv.next ∧
    x.recv.next = min (x.taken.length + x.recv.ready.length) u64Max + (if x.recv.finished then 1 else 0) ∧
    (∃ runs, Runs (fun p => ack.off < p ∧ x.recv.Holds p) runs) ∧
    ∀ runs, Runs (fun p => ack.off < p ∧ x.recv.Holds p) runs →
      ack.held.absolute ack.off = runs.take maxAckRuns := by
  obtain ⟨hnear, hgap⟩ := reachable_near h
  have hruns := Receiver.runs_spansOf hnear hgap
  obtain ⟨hoff, hheld⟩ := Receiver.pollAck_eq hack
  rw [hoff, hheld]
  refine ⟨rfl, (reachable_counts h).next_eq, ⟨_, hruns⟩, fun runs hother => ?_⟩
  rw [hother.unique hruns]
  exact Receiver.heldRuns_absolute hnear hgap

/-- Overlapping, nested and abutting segments past a gap. -/
def gapRun : List ReceiverAction :=
  [.data 3 false [3, 4], .data 4 false [4, 5, 6], .data 5 false [5], .data 7 false [7], .data 10 false [10, 11]]

theorem acknowledgement_exact_gapRun : ∃ x ack, system.Reachable x ∧ x.recv.pollAck.2 = some ack ∧
    ack.held.absolute ack.off = [(3, 8), (10, 12)] ∧
    ∀ runs, Runs (fun p => ack.off < p ∧ x.recv.Holds p) runs → runs.take maxAckRuns = [(3, 8), (10, 12)] := by
  obtain ⟨x, hreach, hpolled⟩ : ∃ x, system.Reachable x ∧ (x.recv.pollAck.2.any fun ack =>
      decide (ack.held.absolute ack.off = [(3, 8), (10, 12)])) = true :=
    System.Reachable.of_run ⟨.new, []⟩ gapRun rfl (by decide +kernel)
  obtain ⟨ack, hack, hheld⟩ := (Option.any_eq_true _ _).1 hpolled
  obtain ⟨-, -, -, hexact⟩ := acknowledgement_exact hreach hack
  exact ⟨x, ack, hreach, hack, of_decide_eq_true hheld, fun runs hruns =>
    (hexact runs hruns).symm.trans (of_decide_eq_true hheld)⟩

end Reader

end Braid.Forwarding
