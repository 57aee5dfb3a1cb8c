import Braid.Foundation.Slice
import Braid.Forwarding.Stream
import Mathlib.Order.MinMax

/-! What a sender puts on the wire. `Sends S s` says that `s` has accepted the
sequence `S` and stands in it: the buffer is what is left of `S` above `base`,
and `base`, `cursor` and `next` are in order. Every call keeps it, and every
segment a poll returns is a piece of `S`. -/

namespace Braid.Forwarding

open Foundation

namespace Sender

variable {s : Sender} {S : List UInt8} {off len n now wrap budget : ℕ} {segment : Segment}
  {body : List UInt8}

structure Sends (S : List UInt8) (s : Sender) : Prop where
  buffer : s.buffer = S.drop s.base
  base_le : s.base ≤ s.cursor
  cursor_le : s.cursor ≤ s.next
  next_le : s.next ≤ S.length
  fin : ∀ f, s.fin = some f → f = S.length

theorem sends_new : Sends [] new := ⟨rfl, le_rfl, le_rfl, le_rfl, by simp [new]⟩

theorem Sends.base_le_length (h : Sends S s) : s.base ≤ S.length :=
  (h.base_le.trans h.cursor_le).trans h.next_le

theorem Sends.endOff_eq (h : Sends S s) : s.endOff = S.length := by
  have := h.base_le_length
  rw [endOff, h.buffer, List.length_drop]
  omega

theorem Sends.write (h : Sends S s) (bytes : List UInt8) (now : ℕ) :
    Sends (S ++ bytes.take (s.write bytes now).2) (s.write bytes now).1 ∧
      (s.write bytes now).1.fin = s.fin ∧ (s.write bytes now).1.finAcked = s.finAcked ∧
      ((s.write bytes now).2 = 0 ∨ s.fin = none) := by
  have hb := h.base_le_length
  have hn := h.next_le
  have hbuf : s.buffer ++ bytes.take (min s.writable bytes.length) =
      (S ++ bytes.take (min s.writable bytes.length)).drop s.base := by
    rw [List.drop_append_of_le_length hb, h.buffer]
  have hfin : min s.writable bytes.length = 0 ∨ s.fin = none := by
    cases hf : s.fin with
    | none => exact .inr rfl
    | some f => simp [writable, hf]
  have hend : ∀ f, s.fin = some f → f = (S ++ bytes.take (min s.writable bytes.length)).length := by
    intro f hf
    rcases hfin with h0 | hnone
    · rw [h0, List.take_zero, List.append_nil]
      exact h.fin f hf
    · rw [hnone] at hf
      cases hf
  have hlen : s.next ≤ (S ++ bytes.take (min s.writable bytes.length)).length := by
    rw [List.length_append]
    omega
  unfold Sender.write
  dsimp only
  split_ifs
  · exact ⟨⟨hbuf, h.base_le, h.cursor_le, hlen, hend⟩, rfl, rfl, hfin⟩
  · exact ⟨⟨hbuf, h.base_le, h.cursor_le, hlen, hend⟩, rfl, rfl, hfin⟩

theorem Sends.finish (h : Sends S s) : Sends S s.finish ∧ s.finish.finAcked = s.finAcked ∧
    ∀ f, s.fin = some f → s.finish.fin = some f := by
  unfold Sender.finish
  split_ifs with hf
  · refine ⟨⟨h.buffer, h.base_le, h.cursor_le, h.next_le, ?_⟩, rfl, fun f hf' => ?_⟩
    · rintro f ⟨⟩
      exact h.endOff_eq
    · rw [hf'] at hf
      cases hf
  · exact ⟨h, rfl, fun _ hf' => hf'⟩

theorem Sends.wake (h : Sends S s) (now : ℕ) : Sends S (s.wake now) ∧ (s.wake now).fin = s.fin ∧
    (s.wake now).finAcked = s.finAcked := by
  unfold Sender.wake
  split_ifs
  · exact ⟨⟨h.buffer, le_rfl, h.base_le.trans h.cursor_le, h.next_le, h.fin⟩, rfl, rfl⟩
  · exact ⟨h, rfl, rfl⟩

theorem cutRing_isPrefix (front back : List UInt8) (start len : ℕ) :
    cutRing front back start len <+: (front ++ back).drop start := by
  unfold cutRing
  split_ifs with hs
  · rw [List.drop_append_of_le_length hs.le]
    exact (List.take_prefix _ _).trans (List.prefix_append _ _)
  · rw [List.drop_append, List.drop_eq_nil_of_le (not_lt.mp hs), List.nil_append]
    exact List.take_prefix _ _

theorem Sends.fill (h : Sends S s) (hb : s.base ≤ off) (hs : off ≤ S.length)
    (hfill : s.fill off len wrap = some (segment, body)) :
    At S segment.off body ∧ segment.len = body.length ∧
      (segment.fin = true → s.fin = some (segment.off + body.length)) := by
  simp only [Sender.fill] at hfill
  split_ifs at hfill with hsay
  obtain ⟨rfl, rfl⟩ := hfill
  refine ⟨⟨hs, ?_⟩, rfl, by simp⟩
  have hdrop : s.buffer.drop (off - s.base) = S.drop off := by
    rw [h.buffer, List.drop_drop, Nat.add_sub_cancel' hb]
  have hcut := cutRing_isPrefix (s.buffer.take wrap) (s.buffer.drop wrap) (off - s.base) len
  rwa [List.take_append_drop, hdrop] at hcut

theorem le_unheld (s : Sender) (off : ℕ) : off ≤ s.unheld off := by
  unfold unheld
  induction s.held generalizing off with
  | nil => exact le_rfl
  | cons run runs ih =>
    rw [List.foldl_cons]
    refine le_trans ?_ (ih _)
    split_ifs with hin
    · exact hin.2.le
    · exact le_rfl

theorem Sends.repairOwed (h : Sends S s) {owed : Owed} (ho : s.repairOwed budget = some owed) :
    ∃ off len, owed = .repair off len ∧ s.base ≤ off ∧ off ≤ S.length := by
  simp only [Sender.repairOwed] at ho
  split_ifs at ho with hc hu
  simp only [Option.some.injEq] at ho
  exact ⟨_, _, ho.symm, h.base_le.trans (le_unheld s s.cursor), hu.le.trans h.next_le⟩

def owedCut : Owed → Option (ℕ × ℕ)
  | .repair off len => some (off, len)
  | .fresh off len => some (off, len)
  | .endAt off => some (off, 0)
  | .probe off => some (off, 1)
  | .nothing => none

/-- Everything owed lies in the sequence. -/
theorem Sends.owed (h : Sends S s) {woken : Bool} (ho : owedCut (s.owed woken budget) = some (off, len)) :
    s.base ≤ off ∧ off ≤ S.length := by
  have hb := h.base_le
  have hc := h.cursor_le
  have hend := h.endOff_eq
  unfold Sender.owed at ho
  split at ho
  · rename_i repair hr
    obtain ⟨off', len', rfl, h₁, h₂⟩ := h.repairOwed hr
    simp only [owedCut, Option.some.injEq, Prod.mk.injEq] at ho
    exact ho.1 ▸ ⟨h₁, h₂⟩
  · dsimp only at ho
    split_ifs at ho <;> simp only [owedCut, Option.some.injEq, Prod.mk.injEq, reduceCtorEq] at ho <;> omega

theorem pollTransmit_eq (s : Sender) (now budget wrap : ℕ) :
    s.pollTransmit now budget wrap =
      if min budget maxForwardChunk = 0 then (s, none)
      else (s.wake now, (owedCut ((s.wake now).owed (s.timer.due now) (min budget maxForwardChunk))).bind
        fun cut => (s.wake now).fill cut.1 cut.2 wrap) := by
  unfold pollTransmit
  dsimp only
  split_ifs
  · rfl
  · congr 1
    cases (s.wake now).owed (s.timer.due now) (min budget maxForwardChunk) <;> rfl

theorem Sends.pollTransmit (h : Sends S s) (now budget wrap : ℕ) :
    Sends S (s.pollTransmit now budget wrap).1 ∧ (s.pollTransmit now budget wrap).1.fin = s.fin ∧
      (s.pollTransmit now budget wrap).1.finAcked = s.finAcked ∧
      ∀ segment body, (s.pollTransmit now budget wrap).2 = some (segment, body) →
        At S segment.off body ∧ segment.len = body.length ∧
          (segment.fin = true → s.fin = some (segment.off + body.length)) := by
  rw [pollTransmit_eq]
  split_ifs
  · exact ⟨h, rfl, rfl, by simp⟩
  · obtain ⟨hw, hfin, hacked⟩ := h.wake now
    refine ⟨hw, hfin, hacked, fun segment body hp => ?_⟩
    obtain ⟨⟨off, len⟩, hcut, hfill⟩ := Option.bind_eq_some_iff.mp hp
    obtain ⟨hb, hs⟩ := hw.owed hcut
    exact hfin ▸ hw.fill hb hs hfill

theorem Sends.transmitted (h : Sends S s) (hle : segment.off + segment.len ≤ S.length) (now : ℕ) :
    Sends S (s.transmitted segment now) where
  buffer := h.buffer
  base_le := h.base_le.trans (le_max_left _ _)
  cursor_le := max_le_max_right _ h.cursor_le
  next_le := max_le h.next_le hle
  fin := h.fin

theorem Sends.release (h : Sends S s) (off : ℕ) : Sends S (s.release off) ∧ (s.release off).fin = s.fin := by
  have hb := h.base_le
  have hc := h.cursor_le
  have hn := h.next_le
  have hend := h.endOff_eq
  unfold Sender.release
  dsimp only
  split_ifs with ho
  · refine ⟨⟨?_, le_max_right _ _, max_le_max_right _ hc, max_le hn ?_, h.fin⟩, rfl⟩
    · rw [h.buffer, List.drop_drop]
    · omega
  · exact ⟨h, rfl⟩

theorem release_finAcked (s : Sender) (off : ℕ) :
    (s.release off).finAcked = true → s.finAcked = true ∨ ∃ f, s.fin = some f ∧ f < off := by
  unfold Sender.release
  split_ifs
  · cases hf : s.fin <;> simp
  · exact .inl

theorem Sends.settleAck (h : Sends S s) (off window now : ℕ) : Sends S (s.settleAck off window now) ∧
    (s.settleAck off window now).fin = s.fin ∧ (s.settleAck off window now).finAcked = s.finAcked := by
  unfold Sender.settleAck
  dsimp only
  split_ifs
  · exact ⟨⟨h.buffer, le_rfl, h.base_le.trans h.cursor_le, h.next_le, h.fin⟩, rfl, rfl⟩
  · exact ⟨{ h with }, rfl, rfl⟩

theorem settleAck_eq (s : Sender) (off window now : ℕ) : ∃ cursor finSent timer,
    s.settleAck off window now = { s with window, cursor, finSent, timer } ∧ (s.finSent = false → finSent = false) ∧
      (s.awaitingAck = true → timer.waiting = some now) := by
  have hwaiting : s.awaitingAck = true → (s.timer.acknowledged off now s.awaitingAck).1.waiting = some now := by
    intro hawait
    rw [hawait]
    rfl
  unfold Sender.settleAck
  dsimp only
  split_ifs
  · exact ⟨_, _, _, rfl, fun _ => rfl, hwaiting⟩
  · exact ⟨_, _, _, rfl, id, hwaiting⟩

/-- An acknowledgement is behind `base`, or taken, or refused after what it covers has gone. -/
theorem onAck_cases (s : Sender) (off window : ℕ) (held : SackRuns) (now : ℕ) :
    (off < s.base ∧ s.onAck off window held now = (s, .ok ())) ∨
    (s.base ≤ off ∧ (∀ run ∈ held.absolute off, run.2 ≤ (s.release off).next) ∧ ∃ cursor finSent timer,
      s.onAck off window held now =
        ({ s.release off with held := held.absolute off, window, cursor, finSent, timer }, .ok ()) ∧
      ((s.release off).finSent = false → finSent = false) ∧
      ((s.release off).awaitingAck = true → timer.waiting = some now)) ∨
    (s.base ≤ off ∧ (∃ run ∈ held.absolute off, (s.release off).next < run.2) ∧
      s.onAck off window held now = ({ s.release off with held := [] }, .error .contradiction)) := by
  unfold Sender.onAck
  dsimp only
  split_ifs with hstale hruns
  · exact .inl ⟨hstale, rfl⟩
  · simp only [List.all_eq_true, decide_eq_true_eq] at hruns
    obtain ⟨cursor, finSent, timer, heq, hkept⟩ := settleAck_eq { s.release off with held := held.absolute off } off window now
    exact .inr (.inl ⟨not_lt.mp hstale, hruns, cursor, finSent, timer, by rw [heq], hkept⟩)
  · simp only [List.all_eq_true, decide_eq_true_eq, not_forall, not_le] at hruns
    obtain ⟨run, hrun, hlt⟩ := hruns
    exact .inr (.inr ⟨not_lt.mp hstale, ⟨run, hrun, hlt⟩, rfl⟩)

theorem next_le_release (s : Sender) (off : ℕ) : s.next ≤ (s.release off).next := by
  unfold release
  split_ifs
  · exact le_max_left _ _
  · exact le_rfl

/-- Any acknowledgement, accepted or refused, keeps the sender in its
sequence; only one past the end acknowledges the end. -/
theorem Sends.onAck (h : Sends S s) (off window : ℕ) (held : SackRuns) (now : ℕ) :
    Sends S (s.onAck off window held now).1 ∧ (s.onAck off window held now).1.fin = s.fin ∧
      ((s.onAck off window held now).1.finAcked = true →
        s.finAcked = true ∨ ∃ f, s.fin = some f ∧ f < off) := by
  unfold Sender.onAck
  dsimp only
  split_ifs
  · exact ⟨h, rfl, .inl⟩
  · obtain ⟨hr, hfin⟩ := h.release off
    have hheld : Sends S { s.release off with held := held.absolute off } :=
      { hr with }
    obtain ⟨hs, hfin', hacked⟩ := hheld.settleAck off window now
    exact ⟨hs, hfin'.trans hfin, fun ha => release_finAcked s off (hacked ▸ ha)⟩
  · obtain ⟨hr, hfin⟩ := h.release off
    exact ⟨{ hr with }, hfin, release_finAcked s off⟩

end Sender

end Braid.Forwarding
