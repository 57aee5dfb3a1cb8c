import Braid.Foundation.System
import Braid.Forwarding.Transmission

/-! What a sender owes. A sender that waits for an acknowledgement has a timer
running, or nothing in hand but an end it has not sent; and a timer that has run
out always finds something to send again, for the byte at `base` is never held.
A segment that was polled and refused is polled again, unless it was the probe of
a shut window: only the poll that found the timer due owes that. -/

namespace Braid.Forwarding

open Foundation

inductive SenderAction where
  | write (bytes : List UInt8) (now : ℕ)
  | finish
  | transmit (now budget wrap : ℕ)
  | refuse (now budget wrap : ℕ)
  | acknowledge (off window : ℕ) (held : SackRuns) (now : ℕ)
  deriving DecidableEq

namespace Sender

/-- One call of the sender's owner. A polled segment is reported transmitted, or
refused; a poll past `u64::MAX` stops the process. -/
def act (s : Sender) : SenderAction → Option Sender
  | .write bytes now => some (s.write bytes now).1
  | .finish => some s.finish
  | .transmit now budget wrap =>
    if u64Max < s.endOff then none
    else
      match s.pollTransmit now budget wrap with
      | (s, some (segment, _)) => some (s.transmitted segment now)
      | (s, none) => some s
  | .refuse now budget wrap => if u64Max < s.endOff then none else some (s.pollTransmit now budget wrap).1
  | .acknowledge off window held now => some (s.onAck off window held now).1

def system : System Sender SenderAction := ⟨(· = new), act⟩

variable {s s' : Sender} {S : List UInt8} {off len now budget wrap : ℕ}

/-! ### Segments that carry something -/

theorem length_cutRing_pos {front back : List UInt8} {start : ℕ} (hstart : start < front.length + back.length)
    (hlen : 0 < len) : 0 < (cutRing front back start len).length := by
  unfold cutRing
  split_ifs with hfront
  · simp only [List.length_take, List.length_drop]
    omega
  · simp only [List.length_take, List.length_drop]
    omega

theorem isSome_fill (hbase : s.base ≤ off) (hoff : off < s.endOff) (hlen : 0 < len) :
    (s.fill off len wrap).isSome = true := by
  have hbody : 0 < (cutRing (s.buffer.take wrap) (s.buffer.drop wrap) (off - s.base) len).length := by
    refine length_cutRing_pos ?_ hlen
    rw [← List.length_append, List.take_append_drop]
    rw [endOff] at hoff
    omega
  rw [fill, if_pos (.inl hbody)]
  rfl

theorem isSome_fill_end (hfin : s.fin = some off) : (s.fill off 0 wrap).isSome = true := by
  have hbody : cutRing (s.buffer.take wrap) (s.buffer.drop wrap) (off - s.base) 0 = [] := by simp [cutRing]
  rw [fill, hbody, if_pos (.inr (by simp [hfin]))]
  rfl

/-! ### Runs never cover the byte at `base` -/

/-- No held run covers the first byte that is not acknowledged. -/
def Uncovered (s : Sender) : Prop := ∀ run ∈ s.held, ¬ (run.1 ≤ s.base ∧ s.base < run.2)

theorem Uncovered.congr (h : s.Uncovered) (hheld : s'.held = s.held) (hbase : s'.base = s.base) : s'.Uncovered := by
  rw [Uncovered, hheld, hbase]
  exact h

theorem absoluteFrom_uncovered {base cursor : ℕ} (h : base ≤ cursor ∨ u64Max ≤ cursor) (runs : List SackRun) :
    ∀ run ∈ SackRuns.absoluteFrom cursor runs, ¬ (run.1 ≤ base ∧ base < run.2) := by
  induction runs generalizing cursor with
  | nil => simp [SackRuns.absoluteFrom]
  | cons run runs ih =>
    have hgap := run.gap.2.1
    refine List.forall_mem_cons.mpr ⟨?_, ih (by omega)⟩
    omega

theorem foldl_unheld {runs : List (ℕ × ℕ)} {base : ℕ} (h : ∀ run ∈ runs, ¬ (run.1 ≤ base ∧ base < run.2)) :
    runs.foldl (fun off run => if run.1 ≤ off ∧ off < run.2 then run.2 else off) base = base := by
  induction runs with
  | nil => rfl
  | cons run runs ih =>
    obtain ⟨hrun, hruns⟩ := List.forall_mem_cons.mp h
    rw [List.foldl_cons, if_neg hrun]
    exact ih hruns

theorem lt_nextHeld {start : ℕ} (h : s.nextHeld off = some start) : off < start := by
  simpa using List.find?_some h

theorem repairOwed_base (h : s.Uncovered) (hcursor : s.cursor = s.base) (hnext : s.base < s.next)
    (hbudget : 0 < budget) : ∃ len, 0 < len ∧ s.repairOwed budget = some (.repair s.base len) := by
  have hunheld : s.unheld s.cursor = s.base := by rw [hcursor]; exact foldl_unheld h
  have hstop : s.base < (s.nextHeld s.base).getD s.next := by
    cases hheld : s.nextHeld s.base with
    | none => exact hnext
    | some start => exact lt_nextHeld hheld
  refine ⟨min (min ((s.nextHeld s.base).getD s.next) s.next - s.base) budget, by omega, ?_⟩
  rw [repairOwed, if_pos (hcursor ▸ hnext), hunheld, if_pos hnext]

/-! ### What is always owed -/

/-- Without a repair to make, what is owed is fresh bytes, the end, or the probe. -/
theorem owed_of_no_repair (hrepair : s.repairOwed budget = none) (woken : Bool) :
    s.owed woken budget =
      if s.next < min s.endOff (min (s.base + s.window) u64Max) then
        .fresh s.next (min (min s.endOff (min (s.base + s.window) u64Max) - s.next) budget)
      else if s.fin = some s.endOff ∧ s.next = s.endOff ∧ s.finSent = false ∧ s.finAcked = false then .endAt s.endOff
      else if woken = true ∧ s.next = s.base ∧ s.next < s.endOff then .probe s.base
      else .nothing := by
  rw [owed, hrepair]

/-- A sender that stands in its sequence, and has a timer behind all it waits
for but an end it has not sent. -/
structure Live (s : Sender) : Prop where
  sends : ∃ S, Sends S s
  uncovered : s.Uncovered
  unended : s.fin = none → s.finSent = false ∧ s.finAcked = false
  waits : s.awaitingAck = true → s.timer.waiting.isSome = true ∨ s.base = s.endOff ∧ s.finSent = false

theorem Sends.fin_eq (h : Sends S s) (hfin : s.fin.isSome = true) : s.fin = some s.endOff := by
  obtain ⟨f, hf⟩ := Option.isSome_iff_exists.mp hfin
  rw [hf, h.fin f hf, h.endOff_eq]

theorem awaitingAck_iff : s.awaitingAck = true ↔ s.base < s.endOff ∨ s.fin.isSome = true ∧ s.finAcked = false := by
  simp [awaitingAck]

theorem owed_end (h : Sends S s) (hawait : s.awaitingAck = true) (hbase : s.base = s.endOff)
    (hsent : s.finSent = false) (woken : Bool) (budget : ℕ) :
    s.owed woken budget = .endAt s.endOff ∧ s.fin = some s.endOff := by
  obtain ⟨hfin, hacked⟩ := (awaitingAck_iff.mp hawait).resolve_left (by omega)
  have hnext : s.next = s.endOff := by
    have := h.base_le.trans h.cursor_le
    have := h.next_le
    have := h.endOff_eq
    omega
  have hcursor : s.cursor = s.next := by
    have := h.base_le
    have := h.cursor_le
    omega
  have hend := h.fin_eq hfin
  refine ⟨?_, hend⟩
  have hrepair : s.repairOwed budget = none := by rw [repairOwed, if_neg (by omega)]
  rw [owed_of_no_repair hrepair, if_neg (by omega), if_pos ⟨hend, hnext, hsent, hacked⟩]

theorem isSome_owed (h : Sends S s) (hun : s.Uncovered) (hawait : s.awaitingAck = true) (hcursor : s.cursor = s.base)
    (hsent : s.finSent = false) (hbudget : 0 < budget) :
    ((owedCut (s.owed true budget)).bind fun cut => s.fill cut.1 cut.2 wrap).isSome = true := by
  have hnext := h.cursor_le
  have hend := h.endOff_eq
  have hle := h.next_le
  rcases (hcursor ▸ hnext).eq_or_lt with heq | hlt
  · rcases hle.eq_or_lt with hall | hmore
    · obtain ⟨howed, hfin⟩ := owed_end h hawait (by omega) hsent true budget
      rw [howed]
      exact isSome_fill_end hfin
    · have hrepair : s.repairOwed budget = none := by rw [repairOwed, if_neg (by omega)]
      rw [owed_of_no_repair hrepair]
      split_ifs with hfresh hfin hprobe
      · exact isSome_fill heq.le (by omega) (by omega)
      · exact absurd hfin.2.1 (by omega)
      · exact isSome_fill le_rfl (by omega) Nat.one_pos
      · exact absurd ⟨rfl, heq.symm, by omega⟩ hprobe
  · obtain ⟨len, hlen, hrepair⟩ := repairOwed_base hun hcursor hlt hbudget
    rw [owed, hrepair]
    exact isSome_fill le_rfl (by omega) hlen

theorem wake_of_due (hdue : s.timer.due now = true) :
    s.wake now = { s with cursor := s.base, finSent := false, timer := s.timer.expired } := if_pos hdue

theorem wake_of_not_due (hdue : s.timer.due now = false) : s.wake now = s := if_neg (by simp [hdue])

theorem Live.poll_of_due (h : s.Live) (hawait : s.awaitingAck = true) (hdue : s.timer.due now = true)
    (hbudget : 0 < budget) : (s.pollTransmit now budget wrap).2.isSome = true := by
  obtain ⟨S, hS⟩ := h.sends
  have hcut : min budget maxForwardChunk ≠ 0 := by rw [maxForwardChunk]; omega
  rw [pollTransmit_eq, if_neg hcut, hdue]
  have hwake := wake_of_due hdue
  refine isSome_owed (hS.wake now).1 ?_ ?_ ?_ ?_ (Nat.pos_of_ne_zero hcut)
  · rw [hwake]
    exact h.uncovered
  · rw [hwake]
    exact hawait
  · rw [hwake]
  · rw [hwake]

theorem Live.poll_end (h : s.Live) (hawait : s.awaitingAck = true) (hbase : s.base = s.endOff)
    (hsent : s.finSent = false) (hdue : s.timer.due now = false) (hbudget : 0 < budget) :
    (s.pollTransmit now budget wrap).2.isSome = true := by
  obtain ⟨S, hS⟩ := h.sends
  have hcut : min budget maxForwardChunk ≠ 0 := by rw [maxForwardChunk]; omega
  obtain ⟨howed, hfin⟩ := owed_end hS hawait hbase hsent (s.timer.due now) (min budget maxForwardChunk)
  rw [pollTransmit_eq, if_neg hcut, wake_of_not_due hdue, howed]
  exact isSome_fill_end hfin

/-! ### Every call keeps it so -/

theorem live_new : Live new where
  sends := ⟨[], sends_new⟩
  uncovered := by simp [Uncovered, new]
  unended _ := ⟨rfl, rfl⟩
  waits h := by simp [awaitingAck, new, endOff] at h

theorem isSome_waiting_arm (t : Timer) (now : ℕ) : (t.arm now).waiting.isSome = true := by
  unfold Timer.arm
  split_ifs with hnone
  · rfl
  · rwa [Option.isNone_iff_eq_none, ← ne_eq, Option.ne_none_iff_isSome] at hnone

theorem Live.write (h : s.Live) (bytes : List UInt8) (now : ℕ) : (s.write bytes now).1.Live := by
  obtain ⟨S, hS⟩ := h.sends
  have hsends := (hS.write bytes now).1
  refine ⟨⟨_, hsends⟩, ?_, ?_, ?_⟩ <;> unfold Sender.write <;> dsimp only <;> split_ifs with htake
  · exact h.uncovered
  · exact h.uncovered
  · exact h.unended
  · exact h.unended
  · exact fun _ => .inl (isSome_waiting_arm s.timer now)
  · have hzero : min s.writable bytes.length = 0 := by omega
    rw [hzero, List.take_zero, List.append_nil]
    exact h.waits

theorem Live.finish (h : s.Live) : s.finish.Live := by
  obtain ⟨S, hS⟩ := h.sends
  refine ⟨⟨S, hS.finish.1⟩, ?_, ?_, ?_⟩ <;> unfold Sender.finish <;> split_ifs with hfin
  · exact h.uncovered
  · exact h.uncovered
  · exact fun hnone => nomatch hnone
  · exact h.unended
  · rw [Option.isNone_iff_eq_none] at hfin
    intro _
    have hle := hS.base_le_length
    have hend := hS.endOff_eq
    rcases hle.eq_or_lt with heq | hlt
    · exact .inr ⟨heq.trans hend.symm, (h.unended hfin).1⟩
    · -- Bytes were in hand already, and the end waits behind them.
      rcases h.waits (awaitingAck_iff.mpr (.inl (by omega))) with hwait | ⟨heq, -⟩
      · exact .inl hwait
      · omega
  · exact h.waits

theorem isSome_waiting_transmitted (s : Sender) (segment : Segment) (now : ℕ) :
    (s.transmitted segment now).timer.waiting.isSome = true := by
  have harm := isSome_waiting_arm s.timer now
  unfold transmitted Timer.transmitted
  dsimp only
  split
  · split_ifs <;> exact harm
  · exact harm

theorem Live.transmit (h : s.Live) {segment : Segment} {body : List UInt8}
    (hpoll : (s.pollTransmit now budget wrap).2 = some (segment, body)) :
    ((s.pollTransmit now budget wrap).1.transmitted segment now).Live := by
  obtain ⟨S, hS⟩ := h.sends
  obtain ⟨hsends, hfin, hacked, hsegment⟩ := hS.pollTransmit now budget wrap
  obtain ⟨hat, hlen, hend⟩ := hsegment segment body hpoll
  have hle := hat.length_le
  have hsame : (s.pollTransmit now budget wrap).1.held = s.held ∧ (s.pollTransmit now budget wrap).1.base = s.base ∧
      (s.fin = none → (s.pollTransmit now budget wrap).1.finSent = false) := by
    rw [pollTransmit_eq]
    split_ifs
    · exact ⟨rfl, rfl, fun hnone => (h.unended hnone).1⟩
    · unfold wake
      split_ifs
      · exact ⟨rfl, rfl, fun _ => rfl⟩
      · exact ⟨rfl, rfl, fun hnone => (h.unended hnone).1⟩
  refine ⟨⟨S, hsends.transmitted (by omega) now⟩, ?_, ?_, fun _ => .inl (isSome_waiting_transmitted _ segment now)⟩
  · exact h.uncovered.congr hsame.1 hsame.2.1
  · intro hnone
    have hnone' : s.fin = none := hfin ▸ hnone
    refine ⟨?_, hacked.trans (h.unended hnone').2⟩
    have hplain : segment.fin = false := by
      rw [Bool.eq_false_iff]
      intro ht
      rw [hend ht] at hnone'
      cases hnone'
    change ((s.pollTransmit now budget wrap).1.finSent || segment.fin) = false
    rw [hplain, hsame.2.2 hnone', Bool.or_false]

/-- A poll that returns nothing had nothing to wait for, or left the timer alone. -/
theorem Live.poll_none (h : s.Live) (hpoll : (s.pollTransmit now budget wrap).2 = none) :
    (s.pollTransmit now budget wrap).1.Live := by
  obtain ⟨S, hS⟩ := h.sends
  have hsends := (hS.pollTransmit now budget wrap).1
  rcases Nat.eq_zero_or_pos budget with rfl | hbudget
  · rw [pollTransmit_eq, Nat.zero_min, if_pos rfl]
    exact h
  · have hcut : min budget maxForwardChunk ≠ 0 := by rw [maxForwardChunk]; omega
    cases hdue : s.timer.due now with
    | true =>
      have hidle : s.awaitingAck = false := by
        rw [Bool.eq_false_iff]
        intro hawait
        have hsome : (s.pollTransmit now budget wrap).2.isSome = true := h.poll_of_due hawait hdue hbudget
        rw [hpoll] at hsome
        cases hsome
      rw [pollTransmit_eq, if_neg hcut, wake_of_due hdue] at hsends ⊢
      exact ⟨⟨S, hsends⟩, h.uncovered, fun hnone => ⟨rfl, (h.unended hnone).2⟩,
        fun hawait => absurd (hidle.symm.trans hawait) Bool.false_ne_true⟩
    | false =>
      rw [pollTransmit_eq, if_neg hcut, wake_of_not_due hdue]
      exact h

theorem release_base_le (s : Sender) (h : s.base ≤ off) : (s.release off).base ≤ off := by
  unfold release
  split_ifs with hlt
  · dsimp only
    omega
  · exact h

theorem release_unended (h : s.fin = none → s.finSent = false ∧ s.finAcked = false) :
    (s.release off).fin = none → (s.release off).finSent = false ∧ (s.release off).finAcked = false := by
  unfold release
  split_ifs
  · intro hnone
    rw [hnone, (h hnone).2]
    exact ⟨(h hnone).1, rfl⟩
  · exact h

theorem Live.onAck (h : s.Live) {window : ℕ} {held : SackRuns} (hok : (s.onAck off window held now).2 = .ok ()) :
    (s.onAck off window held now).1.Live := by
  obtain ⟨S, hS⟩ := h.sends
  have hsends := (hS.onAck off window held now).1
  rcases s.onAck_cases off window held now with ⟨-, heq⟩ | ⟨hbase, -, cursor, finSent, timer, heq, hsent, hwaits⟩ | ⟨-, -, heq⟩
  · rw [heq]
    exact h
  · rw [heq] at hsends ⊢
    refine ⟨⟨S, hsends⟩, absoluteFrom_uncovered (.inl (s.release_base_le hbase)) held.runs, fun hnone => ?_, fun ha => .inl ?_⟩
    · obtain ⟨hs, ha⟩ := release_unended h.unended hnone
      exact ⟨hsent hs, ha⟩
    · rw [hwaits ha]
      rfl
  · rw [heq] at hok
    cases hok

/-- A polled segment is reported transmitted, and an acknowledgement is accepted. -/
def Reported (s : Sender) : SenderAction → Prop
  | .refuse _ _ _ => False
  | .acknowledge off window held now => (s.onAck off window held now).2 = .ok ()
  | _ => True

instance (s : Sender) (a : SenderAction) : Decidable (s.Reported a) := by
  cases a <;> unfold Reported <;> infer_instance

theorem Live.act (h : s.Live) {a : SenderAction} (hok : s.Reported a) (hs : s.act a = some s') : s'.Live := by
  cases a with
  | write bytes now =>
    cases hs
    exact h.write bytes now
  | finish =>
    cases hs
    exact h.finish
  | transmit now budget wrap =>
    have hsent : ∀ segment body, (s.pollTransmit now budget wrap).2 = some (segment, body) →
        ((s.pollTransmit now budget wrap).1.transmitted segment now).Live := fun _ _ => h.transmit
    have hnone : (s.pollTransmit now budget wrap).2 = none → (s.pollTransmit now budget wrap).1.Live := h.poll_none
    rw [Sender.act] at hs
    split_ifs at hs
    generalize s.pollTransmit now budget wrap = polled at hs hsent hnone
    obtain ⟨t, _ | ⟨segment, body⟩⟩ := polled
    · cases hs
      exact hnone rfl
    · cases hs
      exact hsent segment body rfl
  | refuse now budget wrap => exact hok.elim
  | acknowledge off window held now =>
    cases hs
    exact h.onAck hok

theorem via_live (h : system.Via Reported s) : s.Live :=
  h.invariant (by rintro _ rfl; exact live_new) fun _ _ _ h hok hs => h.act hok hs

theorem due_of_deadline {since d later : ℕ} (hwait : s.timer.waiting = some since) (hsince : since ≤ now)
    (hd : s.deadline now = some d) (hlater : now + d ≤ later) : s.timer.due later = true := by
  rw [deadline, Timer.remaining, hwait, Option.map_some, Option.some.injEq] at hd
  rw [Timer.due, hwait, Option.any_some, decide_eq_true_eq]
  omega

/-- While anything is unacknowledged, a timer runs or a poll returns a segment at
once; and when the time the timer left has passed, a poll returns a segment. -/
theorem awaiting_sender_wakes (h : system.Via Reported s) (hawait : s.awaitingAck = true) (wrap : ℕ) {budget : ℕ}
    (hbudget : 0 < budget) :
    (∀ now, (s.deadline now).isSome = true ∨ (s.pollTransmit now budget wrap).2.isSome = true) ∧
      (∀ now, s.deadline now = some 0 → (s.pollTransmit now budget wrap).2.isSome = true) ∧
      ∀ since now d later, s.timer.waiting = some since → since ≤ now → s.deadline now = some d → now + d ≤ later →
        (s.pollTransmit later budget wrap).2.isSome = true := by
  have hlive := via_live h
  refine ⟨fun now => ?_, fun now hzero => ?_, fun since now d later hwait hsince hd hlater => ?_⟩
  · rcases hlive.waits hawait with hwait | ⟨hbase, hsent⟩
    · exact .inl (by rw [deadline, Timer.remaining, Option.isSome_map]; exact hwait)
    · cases hdue : s.timer.due now with
      | true => exact .inr (hlive.poll_of_due hawait hdue hbudget)
      | false => exact .inr (hlive.poll_end hawait hbase hsent hdue hbudget)
  · refine hlive.poll_of_due hawait ?_ hbudget
    rw [deadline, Timer.remaining, Option.map_eq_some_iff] at hzero
    obtain ⟨since, hwait, hzero⟩ := hzero
    rw [Timer.due, hwait, Option.any_some, decide_eq_true_eq]
    omega
  · exact hlive.poll_of_due hawait (due_of_deadline hwait hsince hd hlater) hbudget

/-- A byte is written, and the peer answers that its window is shut. -/
def shutRun : List SenderAction := [.write [7] 0, .acknowledge 0 0 .empty 5]

theorem awaiting_sender_wakes_shutRun : ∃ s, system.Via Reported s ∧ s.awaitingAck = true ∧ s.window = 0 ∧
    (s.pollTransmit 250000005 1 1).2.isSome = true := by
  obtain ⟨s, hvia, hawait, hwindow, hdeadline⟩ : ∃ s, system.Via Reported s ∧ s.awaitingAck = true ∧ s.window = 0 ∧
      s.deadline 250000005 = some 0 :=
    System.Via.of_run new shutRun rfl (by decide)
  exact ⟨s, hvia, hawait, hwindow, (awaiting_sender_wakes hvia hawait 1 Nat.one_pos).2.1 _ hdeadline⟩

/-! ### A segment refused -/

/-- The state in which a poll owes the probe of a shut window. -/
def ProbeOwed (s : Sender) (now : ℕ) : Prop :=
  s.timer.due now = true ∧ s.next = s.base ∧ s.window = 0 ∧ s.base < s.endOff

instance (s : Sender) (now : ℕ) : Decidable (s.ProbeOwed now) := inferInstanceAs (Decidable (_ ∧ _))

theorem due_expired (t : Timer) (now : ℕ) : t.expired.due now = false := rfl

theorem repairOwed_ne_probe {owed : Owed} (h : s.repairOwed budget = some owed) (off : ℕ) : owed ≠ .probe off := by
  unfold repairOwed at h
  dsimp only at h
  split_ifs at h
  cases h
  exact Owed.noConfusion

theorem owed_not_woken (s : Sender) (budget : ℕ) :
    s.owed false budget = if s.owed true budget = .probe s.base then .nothing else s.owed true budget := by
  cases hrepair : s.repairOwed budget with
  | some repair =>
    have howed : ∀ woken, s.owed woken budget = repair := fun woken => by rw [owed, hrepair]
    rw [howed, howed, if_neg (repairOwed_ne_probe hrepair _)]
  | none =>
    have htrue := owed_of_no_repair hrepair true
    have hfalse := owed_of_no_repair hrepair false
    simp only [Bool.false_eq_true, false_and, if_false, true_and] at htrue hfalse
    split_ifs at htrue hfalse with hfresh hend hprobe
    · rw [hfalse, htrue, if_neg Owed.noConfusion]
    · rw [hfalse, htrue, if_neg Owed.noConfusion]
    · rw [hfalse, htrue, if_pos rfl]
    · rw [hfalse, htrue, if_neg Owed.noConfusion]

theorem owed_probe_iff (hend : s.endOff ≤ u64Max) (hcursor : s.cursor = s.base) :
    s.owed true budget = .probe s.base ↔ s.next = s.base ∧ s.window = 0 ∧ s.base < s.endOff := by
  constructor
  · intro h
    cases hrepair : s.repairOwed budget with
    | some repair =>
      rw [owed, hrepair] at h
      exact absurd h (repairOwed_ne_probe hrepair _)
    | none =>
      rw [owed_of_no_repair hrepair] at h
      split_ifs at h with hfresh hfin hprobe
      obtain ⟨-, hnext, hlt⟩ := hprobe
      exact ⟨hnext, by omega, by omega⟩
  · rintro ⟨hnext, hwindow, hlt⟩
    have hrepair : s.repairOwed budget = none := by rw [repairOwed, if_neg (by omega)]
    rw [owed_of_no_repair hrepair, if_neg (by omega), if_neg (by omega), if_pos ⟨rfl, hnext, by omega⟩]

/-- A segment that was polled and refused is polled again at once with the same
bytes, unless it was the probe of a shut window. -/
theorem refused_segment_owed_iff (hend : s.endOff ≤ u64Max) (hbudget : 0 < budget) {segment : Segment}
    {body : List UInt8} (hpoll : (s.pollTransmit now budget wrap).2 = some (segment, body)) :
    ((s.pollTransmit now budget wrap).1.pollTransmit now budget wrap).2 = some (segment, body) ↔
      ¬ s.ProbeOwed now := by
  have hcut : min budget maxForwardChunk ≠ 0 := by rw [maxForwardChunk]; omega
  cases hdue : s.timer.due now with
  | false =>
    have hsame : (s.pollTransmit now budget wrap).1 = s := by
      rw [pollTransmit_eq, if_neg hcut, wake_of_not_due hdue]
    rw [hsame]
    exact iff_of_true hpoll fun h => absurd (hdue.symm.trans h.1) Bool.false_ne_true
  | true =>
    have hprobe : s.ProbeOwed now ↔ (s.wake now).owed true (min budget maxForwardChunk) = .probe s.base := by
      rw [wake_of_due hdue]
      exact (and_iff_right hdue).trans (@owed_probe_iff { s with
        cursor := s.base, finSent := false, timer := s.timer.expired } (min budget maxForwardChunk) hend rfl).symm
    have hagain : (s.wake now).timer.due now = false := by
      rw [wake_of_due hdue]
      exact due_expired s.timer now
    have hbase : (s.wake now).base = s.base := by rw [wake_of_due hdue]
    have hfirst : (s.pollTransmit now budget wrap).1 = s.wake now := by rw [pollTransmit_eq, if_neg hcut]
    rw [pollTransmit_eq, if_neg hcut, hdue] at hpoll
    rw [hfirst, pollTransmit_eq, if_neg hcut, wake_of_not_due hagain, hagain, hprobe, owed_not_woken, hbase]
    split_ifs with howed
    · exact iff_of_false nofun (not_not.mpr howed)
    · exact iff_of_true hpoll howed

theorem refused_segment_owed_iff_fresh : ∃ s segment body, system.Reachable s ∧
    (s.pollTransmit 9 1138 1).2 = some (segment, body) ∧
    ((s.pollTransmit 9 1138 1).1.pollTransmit 9 1138 1).2 = some (segment, body) := by
  obtain ⟨s, hreach, hend, hpoll, hprobe⟩ : ∃ s, system.Reachable s ∧ s.endOff ≤ u64Max ∧
      (s.pollTransmit 9 1138 1).2 = some (⟨0, false, 1⟩, [7]) ∧ ¬s.ProbeOwed 9 :=
    System.Reachable.of_run new [.write [7] 0] rfl (by decide)
  exact ⟨s, _, _, hreach, hpoll, (refused_segment_owed_iff hend (by decide) hpoll).mpr hprobe⟩

/-- The probe of a shut window is refused, and the stream falls silent: the next
poll owes nothing, and no timer runs. -/
theorem refused_probe_not_owed : ∃ s, system.Reachable s ∧
    (s.pollTransmit 250000005 1138 1).2 = some (⟨0, false, 1⟩, [7]) ∧
    ((s.pollTransmit 250000005 1138 1).1.pollTransmit 250000005 1138 1).2 = none ∧
    (s.pollTransmit 250000005 1138 1).1.deadline 250000005 = none := by
  exact System.Reachable.of_run new shutRun rfl (by decide)

end Sender

end Braid.Forwarding
