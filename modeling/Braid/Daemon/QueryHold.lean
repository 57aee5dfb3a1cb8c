import Braid.Daemon.Sequences
import Braid.Foundation.Slice

/-! What the query filter holds and has sent, read off the delimited stream: a
stretch that fitted its buffer is sent unless it was answered, and one that did
not is sent whatever the emulator said, with an ESC too many where the filter
took back an ESC that had left with an earlier chunk. Each thing the filter does
with a byte keeps this, however it is scanning. -/

namespace Braid.Daemon

open Foundation

variable {σ ε : Type*}

/-! ### Output -/

namespace Out

variable {out : Out} {held : List UInt8} {b : UInt8}

theorem byte_eq (out : Out) (b : UInt8) : out.byte b = out.pass [b] := rfl

@[simp] theorem chunk_pass (out : Out) (held : List UInt8) : (out.pass held).chunk = out.chunk := by
  unfold pass
  split <;> rfl

@[simp] theorem copying_pass (out : Out) (held : List UInt8) : (out.pass held).copying = out.copying := by
  unfold pass
  split <;> rfl

theorem kept_pass (h : out.copying = false) (held : List UInt8) : (out.pass held).kept = out.kept + held.length := by
  rw [pass, if_neg (by simp [h])]

@[simp] theorem pass_nil (out : Out) : out.pass [] = out := by
  unfold pass
  split
  · rw [List.append_nil]
  · rfl

theorem pass_pass (out : Out) (held more : List UInt8) : (out.pass held).pass more = out.pass (held ++ more) := by
  obtain ⟨chunk, buffer, kept, copying⟩ := out
  cases copying with
  | true => simp [pass]
  | false => simp [pass, Nat.add_assoc]

theorem finish_pass (h : out.copying = false → At out.chunk out.kept held) :
    (out.pass held).finish = out.finish ++ held := by
  unfold finish pass
  cases hcopying : out.copying with
  | true => rfl
  | false => exact (h hcopying).take_append.symm

@[simp] theorem finish_diverge (out : Out) : out.diverge.finish = out.finish := by
  obtain ⟨chunk, buffer, kept, copying⟩ := out
  cases copying <;> rfl

theorem diverge_copying (out : Out) : out.diverge.copying = true := by
  unfold diverge
  cases hcopying : out.copying
  · rfl
  · exact hcopying

@[simp] theorem chunk_diverge (out : Out) : out.diverge.chunk = out.chunk := by
  unfold diverge
  split <;> rfl

@[simp] theorem chunk_unwrite (out : Out) : out.unwrite.chunk = out.chunk := by
  unfold unwrite
  split <;> rfl

@[simp] theorem copying_unwrite (out : Out) : out.unwrite.copying = out.copying := by
  unfold unwrite
  split <;> rfl

theorem kept_unwrite (h : out.copying = false) : out.unwrite.kept = out.kept - 1 := by
  rw [unwrite, if_neg (by simp [h])]

theorem finish_unwrite (h : out.copying = false → out.kept ≤ out.chunk.length) :
    out.unwrite.finish = out.finish.dropLast := by
  unfold finish unwrite
  cases hcopying : out.copying with
  | true => rfl
  | false =>
    simp only [if_neg Bool.false_ne_true, List.dropLast_eq_take, List.take_take, List.length_take]
    have := h hcopying
    congr 1
    omega

theorem run_eq (out : Out) {start stop : ℕ} (hkept : out.copying = false → out.kept = start) (hle : start ≤ stop)
    (hstop : stop ≤ out.chunk.length) : out.run start stop = out.pass (QueryFilter.slice out.chunk start stop) := by
  unfold run pass QueryFilter.slice
  cases hcopying : out.copying with
  | true => rfl
  | false =>
    have hlen : out.kept + ((out.chunk.take stop).drop start).length = stop := by
      rw [hkept hcopying, List.length_drop, List.length_take, Nat.min_eq_left hstop]
      omega
    rw [if_neg nofun, if_neg nofun, hlen]

end Out

/-! ### Stretches sent -/

/-- The most the filter held of a stretch: with a string that is broken off, the
ESC that did so. -/
def Stretch.held (x : Stretch) : ℕ := x.bytes.length + if x.broken then 1 else 0

/-- What the client is sent of a stretch, `cut` telling where chunks start. -/
def Stretch.sent (reply cut : ℕ → Bool) (x : Stretch) : List UInt8 :=
  if scanLimit < x.held then x.bytes ++ if x.broken ∧ cut x.stop then [ESC] else []
  else if x.answered reply then [] else x.bytes

namespace QueryFilter

theorem slice_slice {S : List UInt8} {base start stop len : ℕ} (hstop : stop ≤ len) :
    slice (slice S base (base + len)) start stop = slice S (base + start) (base + stop) := by
  unfold slice
  rw [List.take_drop, List.take_take, List.drop_drop, Nat.min_eq_left (by omega)]

/-- The emulator's replies are those at the positions of `reply`; `Fed n` are the
states it can be in once it was given `n` bytes of the stream. -/
def Observed (E : Emulator σ ε) (S : List UInt8) (reply : ℕ → Bool) (Fed : ℕ → σ → Prop) : Prop :=
  ∀ n m s a s', n ≤ m → m ≤ S.length → Fed n s → E.consume s (slice S n m) = .ok (a, s') →
    Fed m s' ∧ (a = .replied ↔ ∃ i, n ≤ i ∧ i < m ∧ reply i = true)

def Noted (reply : ℕ → Bool) (answered : Bool) (since fed : ℕ) : Prop :=
  fed ≤ since ∧ answered = false ∧ (∀ i, fed ≤ i → i < since → reply i = false) ∨
    since ≤ fed ∧ (answered = true ↔ ∃ i, since ≤ i ∧ i < fed ∧ reply i = true)

theorem Noted.here (reply : ℕ → Bool) (at_ : ℕ) : Noted reply false at_ at_ :=
  .inl ⟨le_rfl, rfl, fun i _ _ => by omega⟩

/-- The replies of a sequence up to `stop` are those noted and those of the span
still to be fed. -/
theorem Noted.iff {reply : ℕ → Bool} {answered : Bool} {since fed stop : ℕ} (h : Noted reply answered since fed)
    (hfed : fed ≤ stop) :
    (∃ i, fed ≤ i ∧ i < stop ∧ reply i = true) ∨ answered = true ↔ ∃ i, since ≤ i ∧ i < stop ∧ reply i = true := by
  obtain ⟨hle, hanswered, hquiet⟩ | ⟨hle, hanswered⟩ := h
  · constructor
    · rintro (⟨i, hfrom, hto, hreply⟩ | htrue)
      · refine ⟨i, Nat.le_of_not_lt fun hlt => ?_, hto, hreply⟩
        rw [hquiet i hfrom hlt] at hreply
        cases hreply
      · rw [hanswered] at htrue
        cases htrue
    · rintro ⟨i, hfrom, hto, hreply⟩
      exact .inl ⟨i, by omega, hto, hreply⟩
  · rw [hanswered]
    constructor
    · rintro (⟨i, hfrom, hto, hreply⟩ | ⟨i, hfrom, hto, hreply⟩)
      · exact ⟨i, by omega, hto, hreply⟩
      · exact ⟨i, hfrom, by omega, hreply⟩
    · rintro ⟨i, hfrom, hto, hreply⟩
      by_cases hi : i < fed
      · exact .inr ⟨i, hfrom, hi, hreply⟩
      · exact .inl ⟨i, by omega, hto, hreply⟩

theorem Noted.quiet {reply : ℕ → Bool} {answered : Bool} {since fed : ℕ} (h : Noted reply answered since fed)
    (hfed : fed ≤ since) : answered = false ∧ ∀ i, fed ≤ i → i < since → reply i = false := by
  obtain ⟨-, hanswered, hquiet⟩ | ⟨hle, hanswered⟩ := h
  · exact ⟨hanswered, hquiet⟩
  · refine ⟨Bool.eq_false_iff.mpr fun htrue => ?_, fun i hfrom hto => by omega⟩
    obtain ⟨i, hfrom, hto, -⟩ := hanswered.mp htrue
    omega

variable {f : QueryFilter}

theorem hold_over {b : UInt8} {out : Out} (hover : f.overrun = true → f.pending = [])
    (hfull : f.overrun = false → scanLimit ≤ f.pending.length) :
    f.hold b out = ({ f with overrun := true, pending := [] }, out.pass (f.pending ++ [b])) := by
  unfold hold
  cases hoverrun : f.overrun with
  | true =>
    rw [if_neg (by simp), if_neg (by simp), hover hoverrun, Out.byte_eq, List.nil_append, ← hoverrun, ← hover hoverrun]
  | false =>
    have := hfull hoverrun
    rw [if_neg (by omega), if_pos rfl, Out.byte_eq, Out.pass_pass]

theorem hold_scan (f : QueryFilter) (b : UInt8) (out : Out) : (f.hold b out).1.scan = f.scan := by
  unfold hold
  split_ifs <;> rfl

theorem decided_spec (f : QueryFilter) (answered : Bool) {out : Out}
    (hnames : out.copying = false → At out.chunk out.kept f.pending) :
    (f.decided answered out).chunk = out.chunk ∧
      (f.decided answered out).finish = out.finish ++ (if answered then [] else f.pending) ∧
      ((f.decided answered out).copying = false →
        out.copying = false ∧ (f.decided answered out).kept = out.kept + f.pending.length) := by
  unfold decided
  split_ifs with hanswered hempty
  · exact ⟨rfl, (List.append_nil _).symm, fun hcopying => ⟨hcopying, by rw [hempty]; rfl⟩⟩
  · refine ⟨Out.chunk_diverge _, by rw [Out.finish_diverge, List.append_nil], fun hcopying => ?_⟩
    rw [Out.diverge_copying] at hcopying
    cases hcopying
  · refine ⟨Out.chunk_pass _ _, Out.finish_pass hnames, fun hcopying => ?_⟩
    rw [Out.copying_pass] at hcopying
    exact ⟨hcopying, Out.kept_pass hcopying _⟩

theorem decided_nil (h : f.pending = []) (answered : Bool) (out : Out) :
    f.decided answered out = out := by
  rw [decided, if_pos h, h, Out.pass_nil, ite_self]

/-- The filter in the middle of a chunk `bytes` that starts at `base`, after having
sent `sent` for the chunks before it, stands where the delimiter does; how the two
scan is left open. -/
structure Tracks (reply cut : ℕ → Bool) (Fed : ℕ → σ → Prop) (sent : List UInt8) (base : ℕ) (bytes : List UInt8)
    (w : Walk σ) (d : Delimiter) : Prop where
  unfed_le : w.unfed ≤ w.index
  index_le : w.index ≤ bytes.length
  count : d.count = base + w.index
  chunk : w.out.chunk = bytes
  overrun : w.filter.overrun = decide (scanLimit < d.current.length)
  pending : w.filter.pending = if scanLimit < d.current.length then [] else d.current
  text : sent ++ w.out.finish =
    d.done.flatMap (Stretch.sent reply cut) ++ if scanLimit < d.current.length then d.current else []
  borrowed : w.out.copying = false →
    w.out.kept + w.filter.pending.length = w.index ∧ At bytes w.out.kept w.filter.pending
  fed : Fed (base + w.unfed) w.emulator
  noted : Noted reply w.filter.answered d.since (base + w.unfed)
  since_le : d.since ≤ d.count
  wrote : scanLimit < d.current.length → 0 < w.index → w.out.finish ≠ []

section

variable {E : Emulator σ ε} {S bytes sent : List UInt8} {reply cut : ℕ → Bool} {Fed : ℕ → σ → Prop} {base : ℕ}
  {w w' : Walk σ} {d : Delimiter} {b : UInt8}

section

variable (h : Tracks reply cut Fed sent base bytes w d)

include h

theorem Tracks.names (hb : bytes[w.index]? = some b)
    (hcopying : w.out.copying = false) : At bytes w.out.kept (w.filter.pending ++ [b]) := by
  obtain ⟨hkept, hat⟩ := h.borrowed hcopying
  exact hat.snoc (by rw [hkept]; exact hb)

theorem Tracks.total :
    sent ++ w.out.finish ++ w.filter.pending = d.done.flatMap (Stretch.sent reply cut) ++ d.current := by
  rw [h.text, h.pending]
  split_ifs <;> simp

theorem Tracks.finish_pass (hb : bytes[w.index]? = some b) :
    (w.out.pass (w.filter.pending ++ [b])).finish = w.out.finish ++ (w.filter.pending ++ [b]) :=
  Out.finish_pass fun hcopying => by
    rw [h.chunk]
    exact h.names hb hcopying

theorem Tracks.hold (hb : bytes[w.index]? = some b) :
    Tracks reply cut Fed sent base bytes { w with
      filter := (w.filter.hold b w.out).1, out := (w.filter.hold b w.out).2, index := w.index + 1 } (d.extend b) := by
  obtain ⟨hindex, -⟩ := List.getElem?_eq_some_iff.mp hb
  have hlen : (d.extend b).current.length = d.current.length + 1 := List.length_append
  have hcount : (d.extend b).count = base + (w.index + 1) := congrArg (· + 1) h.count
  have hunfed : w.unfed ≤ w.index + 1 := Nat.le_succ_of_le h.unfed_le
  have hsince : (d.extend b).since ≤ (d.extend b).count := Nat.le_succ_of_le h.since_le
  by_cases hroom : d.current.length < scanLimit
  · have hfits : ¬ scanLimit < d.current.length := by omega
    have hfits' : ¬ scanLimit < (d.extend b).current.length := by omega
    have hpending := h.pending
    have hoverrun := h.overrun
    have htext := h.text
    simp only [if_neg hfits, decide_eq_false hfits] at hpending hoverrun htext
    have hhold : w.filter.hold b w.out = ({ w.filter with pending := w.filter.pending ++ [b] }, w.out) :=
      if_pos ⟨hoverrun, hpending ▸ hroom⟩
    rw [hhold]
    refine ⟨hunfed, hindex, hcount, h.chunk, ?_, ?_, ?_, fun hcopying => ⟨?_, h.names hb hcopying⟩, h.fed, h.noted,
      hsince, fun hover => absurd hover hfits'⟩
    · exact hoverrun.trans (decide_eq_false hfits').symm
    · rw [if_neg hfits', hpending]
      rfl
    · rw [if_neg hfits']
      exact htext
    · rw [List.length_append, List.length_singleton, ← Nat.add_assoc, (h.borrowed hcopying).1]
  · have hover' : scanLimit < (d.extend b).current.length := by omega
    have hhold : w.filter.hold b w.out =
        ({ w.filter with overrun := true, pending := [] }, w.out.pass (w.filter.pending ++ [b])) := by
      refine hold_over (fun hover => ?_) fun hover => ?_
      · rw [h.overrun, decide_eq_true_eq] at hover
        rw [h.pending, if_pos hover]
      · rw [h.overrun, decide_eq_false_iff_not] at hover
        rw [h.pending, if_neg hover]
        omega
    have hfinish := h.finish_pass hb
    rw [hhold]
    refine ⟨hunfed, hindex, hcount, (Out.chunk_pass _ _).trans h.chunk, (decide_eq_true hover').symm,
      (if_pos hover').symm, ?_, fun hcopying => ?_, h.fed, h.noted, hsince, fun _ _ => ?_⟩
    · rw [if_pos hover', hfinish, ← List.append_assoc, ← List.append_assoc, h.total, List.append_assoc]
      rfl
    · rw [Out.copying_pass] at hcopying
      rw [Out.kept_pass hcopying, List.length_append, ← Nat.add_assoc, (h.borrowed hcopying).1]
      exact ⟨rfl, At.nil hindex⟩
    · rw [hfinish]
      simp

theorem Tracks.consume (hE : Observed E S reply Fed)
    (hbytes : bytes = slice S base (base + bytes.length)) (hS : base + bytes.length ≤ S.length) {stop : ℕ}
    (hunfed : w.unfed ≤ stop) (hstop : stop ≤ bytes.length) {a : Answer} {s : σ}
    (hok : E.consume w.emulator (slice bytes w.unfed stop) = .ok (a, s)) :
    Fed (base + stop) s ∧ ((a = .replied || w.filter.answered) = true ↔
      ∃ i, d.since ≤ i ∧ i < base + stop ∧ reply i = true) := by
  rw [hbytes, slice_slice hstop] at hok
  obtain ⟨hfed, hreplied⟩ := hE _ _ _ _ _ (by omega) (by omega) h.fed hok
  refine ⟨hfed, ?_⟩
  rw [← h.noted.iff (by omega), ← hreplied, Bool.or_eq_true, decide_eq_true_eq]

theorem Tracks.settle (hE : Observed E S reply Fed)
    (hbytes : bytes = slice S base (base + bytes.length)) (hS : base + bytes.length ≤ S.length)
    {out : Out} {s : σ}
    (hok : w.filter.settle (slice bytes w.unfed w.index) w.out E w.emulator = .ok (f, out, s)) :
    f = new ∧ Tracks reply cut Fed sent base bytes ⟨f, out, s, w.index, w.index⟩ d.close := by
  obtain ⟨⟨a, s'⟩, hconsume, heq⟩ := exists_of_map_ok hok
  obtain ⟨rfl, rfl, rfl⟩ := by simpa only [Prod.mk.injEq] using heq
  refine ⟨rfl, ?_⟩
  obtain ⟨hfed, hanswered⟩ := h.consume hE hbytes hS h.unfed_le h.index_le hconsume
  obtain ⟨hchunk, hfinish, hkept⟩ := w.filter.decided_spec (a = .replied || w.filter.answered)
    fun hcopying => h.chunk ▸ (h.borrowed hcopying).2
  generalize (a = .replied || w.filter.answered) = answered at *
  have hstretch : (⟨d.current, d.since, d.count, false⟩ : Stretch).answered reply = answered := by
    rw [Bool.eq_iff_iff, Stretch.answered_iff, hanswered, h.count]
  refine ⟨le_rfl, h.index_le, h.count, hchunk.trans h.chunk, rfl, rfl, ?_, fun hcopying => ?_, hfed, ?_, le_rfl, nofun⟩
  · have hsent : (⟨d.current, d.since, d.count, false⟩ : Stretch).sent reply cut =
        (if scanLimit < d.current.length then d.current else []) ++ if answered then [] else w.filter.pending := by
      have hheld : (⟨d.current, d.since, d.count, false⟩ : Stretch).held = d.current.length := rfl
      rw [Stretch.sent, hstretch, h.pending, hheld]
      by_cases hover : scanLimit < d.current.length <;> cases answered <;> simp [hover]
    dsimp only [Delimiter.close]
    rw [hfinish, ← List.append_assoc, h.text, List.append_assoc, ← hsent, List.flatMap_append, List.flatMap_singleton]
    exact (List.append_nil _).symm
  · obtain ⟨hcopying, hkept⟩ := hkept hcopying
    exact ⟨hkept.trans (h.borrowed hcopying).1, At.nil (by rw [hkept, (h.borrowed hcopying).1]; exact h.index_le)⟩
  · rw [← h.count]
    exact Noted.here reply _

theorem Tracks.begin (hb : bytes[w.index]? = some b)
    (hcurrent : d.current = []) (hsince : d.since = d.count) (scan : Scan) :
    Tracks reply cut Fed sent base bytes { w with filter := { w.filter.begin b with scan := scan }, index := w.index + 1 }
      (d.extend b) := by
  obtain ⟨hindex, -⟩ := List.getElem?_eq_some_iff.mp hb
  have hfits : ¬ scanLimit < (d.extend b).current.length := by
    rw [Delimiter.extend, hcurrent]
    exact Nat.not_lt.mpr (by decide : 1 ≤ scanLimit)
  have hpending := h.pending
  have htext := h.text
  rw [hcurrent, ite_self] at hpending htext
  refine ⟨Nat.le_succ_of_le h.unfed_le, hindex, congrArg (· + 1) h.count, h.chunk, (decide_eq_false hfits).symm, ?_, ?_,
    fun hcopying => ?_, h.fed, ?_, Nat.le_succ_of_le h.since_le, fun hover => absurd hover hfits⟩
  · rw [if_neg hfits, Delimiter.extend, hcurrent]
    rfl
  · rw [if_neg hfits]
    exact htext
  · have hkept := (h.borrowed hcopying).1
    have hnames := h.names hb hcopying
    rw [hpending] at hkept hnames
    exact ⟨congrArg (· + 1) hkept, hnames⟩
  · -- Whatever was noted before is about ordinary text, which is not replied to.
    have hunfed := h.unfed_le
    have hcount := h.count
    have hfed : base + w.unfed ≤ d.since := by omega
    exact .inl ⟨hfed, rfl, (h.noted.quiet hfed).2⟩

variable {body : List UInt8}

theorem Tracks.unhold_held
    (hcurrent : d.current = body ++ [ESC]) (hfits : ¬ scanLimit < d.current.length) :
    w.filter.unhold w.out = ({ w.filter with pending := body }, w.out) := by
  rw [unhold, if_neg (by simp [h.overrun, hfits]), h.pending, if_neg hfits, hcurrent, List.dropLast_concat]

theorem Tracks.unhold_sent
    (hcurrent : d.current = body ++ [ESC]) (hover : scanLimit < d.current.length) (hindex : 0 < w.index) :
    sent ++ w.out.unwrite.finish = d.done.flatMap (Stretch.sent reply cut) ++ body ∧
      (w.out.copying = false → w.out.unwrite.kept + 1 = w.index ∧ At bytes w.out.unwrite.kept [ESC]) := by
  have hne := h.wrote hover hindex
  have htext := h.text
  rw [if_pos hover, hcurrent, ← List.append_assoc] at htext
  have hpending : w.filter.pending = [] := by rw [h.pending, if_pos hover]
  have hfinish : w.out.unwrite.finish = w.out.finish.dropLast := Out.finish_unwrite fun hcopying => by
    have := (h.borrowed hcopying).1
    rw [hpending, List.length_nil, Nat.add_zero] at this
    rw [this, h.chunk]
    exact h.index_le
  refine ⟨?_, fun hcopying => ?_⟩
  · rw [hfinish, ← List.dropLast_append_of_ne_nil hne, htext, List.dropLast_concat]
  · have hkept := (h.borrowed hcopying).1
    rw [hpending, List.length_nil, Nat.add_zero] at hkept
    have hlast := congrArg List.getLast? htext
    rw [List.getLast?_append_of_ne_nil _ hne, List.getLast?_concat, Out.finish, if_neg (by simp [hcopying]), hkept, h.chunk,
      List.getLast?_eq_getElem?, List.length_take, Nat.min_eq_left h.index_le, List.getElem?_take_of_lt (by omega)] at hlast
    have hstart : At bytes (w.index - 1) [] := At.nil (by have := h.index_le; omega)
    rw [Out.kept_unwrite hcopying, hkept]
    exact ⟨by omega, hstart.snoc hlast⟩

/-- The output once the string before an ESC was decided and the ESC taken back:
an ESC that left with an earlier chunk stays sent. -/
theorem Tracks.unheld
    (hcurrent : d.current = body ++ [ESC]) (hcut : cut (base + w.index) = decide (w.index = 0))
    (hstart : w.index = 0 → w.out.copying = true ∧ w.out.finish = []) {answered : Bool} {x : Stretch}
    (hx : x = ⟨body, d.since, d.count, true⟩) (hanswered : x.answered reply = answered) {out : Out}
    (hout : out = (w.filter.unhold w.out).1.decided answered (w.filter.unhold w.out).2) :
    out.chunk = bytes ∧ sent ++ out.finish = d.done.flatMap (Stretch.sent reply cut) ++ x.sent reply cut ∧
      (out.copying = false → out.kept + 1 = w.index ∧ At bytes out.kept [ESC]) := by
  have hheld : x.held = d.current.length := by rw [hx, hcurrent, List.length_append]; rfl
  have hpending := h.pending
  by_cases hover : scanLimit < d.current.length
  · rw [if_pos hover] at hpending
    have hunhold : w.filter.unhold w.out = (w.filter, w.out.unwrite) := if_pos (by rw [h.overrun]; exact decide_eq_true hover)
    obtain rfl : out = w.out.unwrite := by rw [hout, hunhold, decided_nil hpending]
    have hsent : x.sent reply cut = body ++ if w.index = 0 then [ESC] else [] := by
      rw [Stretch.sent, hheld, if_pos hover, hx]
      simp [h.count, hcut]
    refine ⟨(Out.chunk_unwrite _).trans h.chunk, ?_⟩
    obtain hzero | hindex := Nat.eq_zero_or_pos w.index
    · -- The ESC went out with an earlier chunk: there is nothing to take back.
      obtain ⟨hcopying, hempty⟩ := hstart hzero
      have htext := h.text
      rw [if_pos hover, hcurrent, hempty, List.append_nil] at htext
      refine ⟨?_, fun hfalse => ?_⟩
      · rw [Out.finish_unwrite (by simp [hcopying]), hempty, hsent, if_pos hzero, List.dropLast_nil, List.append_nil, htext]
      · rw [Out.copying_unwrite, hcopying] at hfalse
        cases hfalse
    · obtain ⟨htext, hkept⟩ := h.unhold_sent hcurrent hover hindex
      rw [hsent, if_neg (by omega), List.append_nil, Out.copying_unwrite]
      exact ⟨htext, hkept⟩
  · rw [if_neg hover, hcurrent] at hpending
    rw [h.unhold_held hcurrent hover] at hout
    have hat : w.out.copying = false → At bytes w.out.kept (body ++ [ESC]) := fun hcopying =>
      hpending ▸ (h.borrowed hcopying).2
    have hbody : w.out.copying = false → At w.out.chunk w.out.kept body := fun hcopying => by
      rw [h.chunk]
      exact ⟨(hat hcopying).1, (List.prefix_append body [ESC]).trans (hat hcopying).2⟩
    obtain ⟨hchunk, hfinish, hkept⟩ := decided_spec { w.filter with pending := body } answered hbody
    rw [← hout] at hchunk hfinish hkept
    refine ⟨hchunk.trans h.chunk, ?_, fun hcopying => ?_⟩
    · have hsent : x.sent reply cut = if answered then [] else body := by
        rw [Stretch.sent, hheld, if_neg hover, hanswered, hx]
      rw [hfinish, ← List.append_assoc, h.text, if_neg hover, List.append_nil, hsent]
    · obtain ⟨hcopying, hkept⟩ := hkept hcopying
      have hindex := (h.borrowed hcopying).1
      have hrest := (hat hcopying).drop (k := body.length) (by simp)
      rw [List.drop_left] at hrest
      rw [hpending, List.length_append, List.length_singleton] at hindex
      rw [hkept]
      exact ⟨by rw [Nat.add_assoc, hindex], hrest⟩

/-- The string ends before the ESC held last, which opens a sequence. -/
theorem Tracks.breakOff (hE : Observed E S reply Fed)
    (hbytes : bytes = slice S base (base + bytes.length)) (hS : base + bytes.length ≤ S.length)
    (hcurrent : d.current = body ++ [ESC]) (hcut : cut (base + w.index) = decide (w.index = 0))
    (hstart : w.index = 0 → w.out.copying = true ∧ w.out.finish = []) {out : Out} {s : σ}
    (hok : (w.filter.unhold w.out).1.settle (slice bytes w.unfed w.index) (w.filter.unhold w.out).2 E w.emulator =
      .ok (f, out, s)) :
    Tracks reply cut Fed sent base bytes ⟨f.opened, out, s, w.index, w.index⟩ d.breakOff := by
  obtain ⟨⟨a, s'⟩, hconsume, heq⟩ := exists_of_map_ok hok
  rw [Prod.mk.injEq, Prod.mk.injEq] at heq
  obtain ⟨rfl, hout, rfl⟩ := heq
  obtain ⟨hfed, hanswered⟩ := h.consume hE hbytes hS h.unfed_le h.index_le hconsume
  have hsame : (w.filter.unhold w.out).1.answered = w.filter.answered := by
    unfold unhold
    split <;> rfl
  have hstretch : (⟨body, d.since, d.count, true⟩ : Stretch).answered reply = (a = .replied || w.filter.answered) := by
    rw [Bool.eq_iff_iff, Stretch.answered_iff, hanswered, h.count]
  rw [hsame] at hout
  obtain ⟨hchunk, htext, hkept⟩ := h.unheld hcurrent hcut hstart rfl hstretch hout.symm
  have hfits : ¬ scanLimit < d.breakOff.current.length := Nat.not_lt.mpr (by decide : 1 ≤ scanLimit)
  refine ⟨le_rfl, h.index_le, h.count, hchunk, (decide_eq_false hfits).symm, (if_neg hfits).symm, ?_, hkept, hfed, ?_,
    le_rfl, fun hover => absurd hover hfits⟩
  · rw [htext, if_neg hfits, List.append_nil]
    dsimp only [Delimiter.breakOff]
    rw [hcurrent, List.dropLast_concat, List.flatMap_append, List.flatMap_singleton]
  · dsimp only [Delimiter.breakOff]
    rw [← h.count]
    exact Noted.here reply _

theorem Tracks.rescan (scan scan' : Scan) :
    Tracks reply cut Fed sent base bytes { w with filter := { w.filter with scan := scan } } { d with scan := scan' } :=
  { h with }

end

end

end QueryFilter

end Braid.Daemon
