import Mathlib.Algebra.Order.BigOperators.Group.List
import Mathlib.Algebra.Order.Ring.Nat
import Braid.Session.Scanning

/-! A scanner that is given all of the output, beside the session's, which is given only what is forwarded
while some client is sent whole screens. The watching one also notes where in the output each sequence
stands, and under which mark the session's log recorded it, if it did. While both scanners are given the same
bytes from the same place, what either records the other does, and a sequence the watching log still has the
session's log has too: it is the older entries that are evicted first. -/

namespace Braid.Session

open Foundation

namespace DeferredOsc

/-! ### Two scanners -/

/-- Both scanners stand at the same place in a sequence. -/
def SameScan (d e : DeferredOsc) : Prop := d.scan = e.scan ∧ d.held = e.held ∧ d.truncated = e.truncated

instance (d e : DeferredOsc) : Decidable (d.SameScan e) := inferInstanceAs (Decidable (_ ∧ _))

variable {d e : DeferredOsc} {byte : UInt8}

theorem SameScan.recorded (h : d.SameScan e) (byte : UInt8) : d.recorded byte = e.recorded byte := by
  unfold DeferredOsc.recorded closing
  rw [h.1, h.2.1, h.2.2]

theorem sameScan_finish : d.finish.SameScan e.finish := by
  have hground : ∀ d : DeferredOsc, d.finish.scan = .ground ∧ d.finish.held = [] ∧ d.finish.truncated = false := by
    intro d
    cases hclosing : d.closing with
    | none =>
      rw [finish_of_not_closing hclosing]
      exact ⟨rfl, rfl, rfl⟩
    | some closed =>
      rw [finish_of_closing hclosing]
      exact ⟨rfl, rfl, rfl⟩
  obtain ⟨hscan, hheld, htruncated⟩ := hground d
  obtain ⟨hscan', hheld', htruncated'⟩ := hground e
  exact ⟨hscan.trans hscan'.symm, hheld.trans hheld'.symm, htruncated.trans htruncated'.symm⟩

theorem SameScan.step (h : d.SameScan e) : (d.step byte).SameScan (e.step byte) := by
  obtain ⟨hscan, hheld, htruncated⟩ := h
  unfold DeferredOsc.step
  rw [← hscan]
  cases hplace : d.scan <;> dsimp only
  · split_ifs
    · exact ⟨rfl, hheld, htruncated⟩
    · exact ⟨hscan, hheld, htruncated⟩
  · split_ifs
    · exact ⟨rfl, rfl, rfl⟩
    · exact ⟨hscan, hheld, htruncated⟩
    · exact ⟨rfl, hheld, htruncated⟩
  · split_ifs
    · exact sameScan_finish
    · exact ⟨rfl, hheld, htruncated⟩
    · exact ⟨rfl, rfl, rfl⟩
    · unfold push
      rw [← hheld]
      split_ifs
      · exact ⟨hscan, rfl, htruncated⟩
      · exact ⟨hscan, rfl, rfl⟩
  · split_ifs
    · exact sameScan_finish
    · exact ⟨hscan, hheld, htruncated⟩
    · exact ⟨rfl, rfl, rfl⟩

/-! ### What the log keeps -/

variable (entries : List (ℕ × Text))

def total : ℕ := (entries.map fun entry => entry.2.byteLen).sum

def Fits : Prop := entries.length ≤ deferredEntries ∧ total entries ≤ deferredBytes

/-- The log is within its bounds, and counts its bytes right. -/
structure Counted (d : DeferredOsc) : Prop where
  bytes : d.bytes = total d.entries
  fits : Fits d.entries

theorem counted_new : DeferredOsc.new.Counted := ⟨rfl, Nat.zero_le _, Nat.zero_le _⟩

theorem total_append (a b : List (ℕ × Text)) : total (a ++ b) = total a + total b := by simp [total]

theorem Fits.of_sublist {a b : List (ℕ × Text)} (h : Fits b) (hsub : a.Sublist b) : Fits a :=
  ⟨hsub.length_le.trans h.1, ((hsub.map _).sum_le_sum fun _ _ => Nat.zero_le _).trans h.2⟩

theorem Fits.of_map {a b : List (ℕ × Text)} (h : Fits b) (hsame : a.map Prod.snd = b.map Prod.snd) : Fits a := by
  have hlength := congrArg List.length hsame
  have htotal := congrArg (fun bodies => (bodies.map Text.byteLen).sum) hsame
  simp only [List.length_map, List.map_map] at hlength htotal
  exact ⟨hlength.trans_le h.1, htotal.trans_le h.2⟩

theorem evict_spec :
    (evict entries (total entries)).2 = total (evict entries (total entries)).1 ∧ Fits (evict entries (total entries)).1 ∧
      ∀ rest, rest <:+ entries → Fits rest → rest <:+ (evict entries (total entries)).1 := by
  induction entries with
  | nil => exact ⟨rfl, ⟨Nat.zero_le _, Nat.zero_le _⟩, fun rest hrest _ => hrest⟩
  | cons entry entries ih =>
    have htotal : total (entry :: entries) - entry.2.byteLen = total entries := by simp [total]
    unfold evict
    rw [htotal]
    split_ifs with hover
    · refine ⟨ih.1, ih.2.1, fun rest hrest hfits => ih.2.2 rest ?_ hfits⟩
      rcases List.suffix_cons_iff.mp hrest with rfl | hbehind
      · obtain ⟨hlength, hbytes⟩ := hfits
        omega
      · exact hbehind
    · rw [not_or, not_lt, not_lt] at hover
      exact ⟨rfl, hover, fun rest hrest _ => hrest⟩

def stale (command : DeferredKind) (entry : ℕ × Text) : Bool :=
  match command with
  | .sticky number => deferredCommand entry.2 = some (.sticky number)
  | .event => false

/-- What a recording chooses from: the entries it does not supersede, and the new one. -/
def candidates (d : DeferredOsc) (command : DeferredKind) (body : Text) : List (ℕ × Text) :=
  d.entries.filter (!stale command ·) ++ [(d.next, body)]

variable {command : DeferredKind} {body : Text}

theorem total_filter (p : ℕ × Text → Bool) (entries : List (ℕ × Text)) :
    total (entries.filter p) + total (entries.filter (!p ·)) = total entries := by
  induction entries with
  | nil => rfl
  | cons entry entries ih =>
    have hcons : ∀ rest, total (entry :: rest) = entry.2.byteLen + total rest := fun _ => by simp [total]
    cases hp : p entry <;> simp only [List.filter_cons, hp, Bool.not_true, Bool.not_false, hcons] <;> simp [hcons] <;> omega

theorem record_eq (h : d.Counted) (command : DeferredKind) (body : Text) :
    ((d.record command body).entries, (d.record command body).bytes) =
      evict (d.candidates command body) (total (d.candidates command body)) := by
  have htotal : d.bytes - total (d.entries.filter (stale command)) + body.byteLen = total (d.candidates command body) := by
    rw [candidates, total_append, h.bytes, ← total_filter (stale command) d.entries, Nat.add_sub_cancel_left]
    simp [total]
  rw [← htotal]
  rfl

theorem Counted.record (h : d.Counted) : (d.record command body).Counted := by
  obtain ⟨hentries, hbytes⟩ := Prod.mk.inj (record_eq h command body)
  obtain ⟨hcounted, hfits, -⟩ := evict_spec (d.candidates command body)
  exact ⟨by rw [hbytes, hentries]; exact hcounted, by rw [hentries]; exact hfits⟩

theorem Counted.step (h : d.Counted) : (d.step byte).Counted := by
  cases hrecorded : d.recorded byte with
  | none =>
    obtain ⟨scan, held, truncated, hstep⟩ := step_of_not_recorded hrecorded
    rw [hstep]
    exact ⟨h.bytes, h.fits⟩
  | some closed =>
    rw [step_of_recorded hrecorded]
    exact Counted.record (d := d.abandon) ⟨h.bytes, h.fits⟩

theorem Counted.feed (h : d.Counted) (bytes : List UInt8) : (d.feed bytes).Counted := by
  rw [feed_eq_foldl]
  induction bytes generalizing d with
  | nil => exact h
  | cons byte bytes ih => exact ih h.step

theorem Counted.forgetBefore (h : d.Counted) (floor : ℕ) : (d.forgetBefore floor).Counted := by
  refine ⟨?_, h.fits.of_sublist (List.dropWhile_sublist _)⟩
  have hsplit := congrArg total (List.takeWhile_append_dropWhile (p := fun entry : ℕ × Text => entry.1 < floor)
    (l := d.entries))
  rw [total_append] at hsplit
  change d.bytes - total (d.entries.takeWhile _) = total (d.entries.dropWhile _)
  rw [h.bytes]
  omega

/-! ### Entries of both logs -/

theorem since_of_suffix {entries rest : List (ℕ × Text)} {mark : ℕ} {entry : ℕ × Text}
    (hascending : entries.Pairwise (·.1 < ·.1)) (hrest : rest <:+ entries) (hentry : entry ∈ rest) (hmark : entry.1 = mark) :
    rest.filter (fun x => mark ≤ x.1) = entries.filter (fun x => mark ≤ x.1) := by
  obtain ⟨front, rfl⟩ := hrest
  have hfront : front.filter (fun x => mark ≤ x.1) = [] := by
    refine List.filter_eq_nil_iff.mpr fun x hx => ?_
    have := (List.pairwise_append.mp hascending).2.2 x hx entry hentry
    simp only [decide_eq_true_eq]
    omega
  rw [List.filter_append, hfront, List.nil_append]

/-- The entry stands in both logs, and the same is behind it. -/
def Paired (d e : DeferredOsc) (kept mark : ℕ) (body : Text) : Prop :=
  ∃ behind behind', d.since kept = (kept, body) :: behind ∧ e.since mark = (mark, body) :: behind' ∧
    behind.map Prod.snd = behind'.map Prod.snd

variable {kept mark : ℕ}

theorem Paired.mem (h : Paired d e kept mark body) : (kept, body) ∈ d.entries := by
  obtain ⟨behind, -, hsince, -⟩ := h
  exact List.mem_of_mem_filter (hsince ▸ List.mem_cons_self)

theorem candidates_ascending (h : d.Marked) : (d.candidates command body).Pairwise (·.1 < ·.1) := by
  refine List.pairwise_append.mpr ⟨h.ascending.filter _, List.pairwise_singleton _ _, ?_⟩
  intro old hold new hnew
  rw [List.mem_singleton.mp hnew]
  exact h.bounded old (List.mem_of_mem_filter hold)

variable {old : Text}

/-- A recording that keeps the entry in one log keeps it in the other, since what is behind it fits. -/
theorem paired_of_candidates {behind behind' : List (ℕ × Text)} (hd : d.Counted) (he : e.Counted)
    (hdm : d.Marked) (hem : e.Marked)
    (hkept : (d.candidates command body).filter (fun x => kept ≤ x.1) = (kept, old) :: behind)
    (hmark : (e.candidates command body).filter (fun x => mark ≤ x.1) = (mark, old) :: behind')
    (hsame : behind.map Prod.snd = behind'.map Prod.snd) (halive : (mark, old) ∈ (e.record command body).entries) :
    Paired (d.record command body) (e.record command body) kept mark old := by
  have hentries := (Prod.mk.inj (record_eq hd command body)).1
  have hentries' := (Prod.mk.inj (record_eq he command body)).1
  rw [hentries'] at halive
  have hsince := since_of_suffix (candidates_ascending hem) (evict_suffix _ _) halive rfl
  rw [hmark] at hsince
  have hfits : Fits ((mark, old) :: behind') := by
    rw [← hsince]
    exact (evict_spec _).2.1.of_sublist List.filter_sublist
  have hrest : (kept, old) :: behind <:+ (evict (d.candidates command body) (total (d.candidates command body))).1 := by
    refine (evict_spec _).2.2 _ ?_ (hfits.of_map (by rw [List.map_cons, List.map_cons, hsame]))
    rw [← hkept]
    exact filter_suffix (candidates_ascending hdm) kept
  have hsince' := since_of_suffix (candidates_ascending hdm) (evict_suffix _ _) (hrest.subset List.mem_cons_self) rfl
  rw [hkept] at hsince'
  refine ⟨behind, behind', ?_, ?_, hsame⟩
  · rw [since, hentries]
    exact hsince'
  · rw [since, hentries']
    exact hsince

theorem candidates_since {kept : ℕ} {behind : List (ℕ × Text)} (hsince : d.since kept = (kept, old) :: behind)
    (hmarked : d.Marked) (hfresh : stale command (kept, old) = false) :
    (d.candidates command body).filter (fun x => kept ≤ x.1) =
      (kept, old) :: (behind.filter (!stale command ·) ++ [(d.next, body)]) := by
  have hmem : (kept, old) ∈ d.entries := List.mem_of_mem_filter (hsince ▸ List.mem_cons_self)
  have hnext := hmarked.bounded _ hmem
  rw [candidates, List.filter_append, List.filter_comm, ← since, hsince]
  simp [hfresh, hnext.le]

theorem Paired.record (h : Paired d e kept mark old) (hd : d.Counted) (he : e.Counted)
    (hdm : d.Marked) (hem : e.Marked) (halive : (mark, old) ∈ (e.record command body).entries) :
    Paired (d.record command body) (e.record command body) kept mark old := by
  obtain ⟨behind, behind', hkept, hmark, hsame⟩ := h
  have hmem : (mark, old) ∈ e.entries := List.mem_of_mem_filter (hmark ▸ List.mem_cons_self)
  have hcandidate : (mark, old) ∈ e.candidates command body := by
    exact (evict_suffix _ _).subset halive
  have hfresh : stale command (mark, old) = false := by
    rcases List.mem_append.mp hcandidate with hold | hnew
    · simpa using (List.mem_filter.mp hold).2
    · have := hem.bounded _ hmem
      rw [(Prod.mk.inj (List.mem_singleton.mp hnew)).1] at this
      exact absurd this (lt_irrefl _)
  refine paired_of_candidates hd he hdm hem (candidates_since hkept hdm hfresh) (candidates_since hmark hem hfresh) ?_ halive
  have hfilter : ∀ l : List (ℕ × Text), (l.filter (!stale command ·)).map Prod.snd =
      (l.map Prod.snd).filter fun text => !stale command (0, text) := fun l => by
    rw [List.filter_map]
    rfl
  rw [List.map_append, List.map_append, hfilter, hfilter, hsame]
  rfl

theorem candidates_next (h : d.Marked) :
    (d.candidates command body).filter (fun x => d.next ≤ x.1) = [(d.next, body)] := by
  rw [candidates, List.filter_append, List.filter_eq_nil_iff.mpr fun x hx => ?_]
  · simp
  · have := h.bounded x (List.mem_of_mem_filter hx)
    simpa using this

theorem paired_record (hd : d.Counted) (he : e.Counted) (hdm : d.Marked) (hem : e.Marked)
    (halive : (e.next, body) ∈ (e.record command body).entries) :
    Paired (d.record command body) (e.record command body) d.next e.next body :=
  paired_of_candidates hd he hdm hem (candidates_next hdm) (candidates_next hem) rfl halive

theorem Paired.step (h : Paired d e kept mark old) (hsame : d.SameScan e) (hd : d.Counted)
    (he : e.Counted) (hdm : d.Marked) (hem : e.Marked) (halive : (mark, old) ∈ (e.step byte).entries) :
    Paired (d.step byte) (e.step byte) kept mark old := by
  have hrecorded := hsame.recorded byte
  cases hclosed : e.recorded byte with
  | none =>
    rw [hclosed] at hrecorded
    obtain ⟨_, _, _, hstep⟩ := step_of_not_recorded hrecorded
    obtain ⟨_, _, _, hstep'⟩ := step_of_not_recorded hclosed
    rw [hstep, hstep']
    exact h
  | some closed =>
    rw [hclosed] at hrecorded
    rw [step_of_recorded hrecorded, step_of_recorded hclosed]
    rw [step_of_recorded hclosed] at halive
    exact Paired.record (d := d.abandon) (e := e.abandon) h ⟨hd.bytes, hd.fits⟩ ⟨he.bytes, he.fits⟩
      ⟨hdm.ascending, hdm.bounded⟩ ⟨hem.ascending, hem.bounded⟩ halive

theorem Paired.forgetBefore {kept mark floor : ℕ} (h : Paired d e kept mark old) (hfloor : floor ≤ kept) :
    Paired (d.forgetBefore floor) e kept mark old := by
  obtain ⟨behind, behind', hkept, hmark, hsame⟩ := h
  refine ⟨behind, behind', ?_, hmark, hsame⟩
  rw [← hkept, since, since]
  have hsplit := List.takeWhile_append_dropWhile (p := fun entry : ℕ × Text => decide (entry.1 < floor)) (l := d.entries)
  have hbefore : (d.entries.takeWhile fun entry => decide (entry.1 < floor)).filter (fun x => kept ≤ x.1) = [] := by
    refine List.filter_eq_nil_iff.mpr fun x hx => ?_
    have hlt : x.1 < floor := by simpa using List.mem_takeWhile_imp hx
    simp only [decide_eq_true_eq]
    omega
  conv_rhs => rw [← hsplit, List.filter_append, hbefore, List.nil_append]
  rfl

end DeferredOsc

/-! ### The watch -/

/-- A sequence in the output: where it stands, the mark it has in the watching log, and the one the session's log
gave it if it was scanned there. -/
structure Span where
  start : ℕ
  stop : ℕ
  mark : ℕ
  body : Text
  kept : Option ℕ
  deriving DecidableEq

/-- A log that is given all of the output from some position on, and the sequences it recorded. -/
structure Watch where
  log : DeferredOsc
  position : ℕ
  /-- Where the sequence being scanned begins. -/
  start : ℕ
  spans : List Span
  deriving DecidableEq

namespace Watch

def new (position : ℕ) : Watch := ⟨.new, position, position, []⟩

/-- `session` is the session's log, if it is given the byte too. -/
def step (w : Watch) (session : Option DeferredOsc) (byte : UInt8) : Watch where
  log := w.log.step byte
  position := w.position + 1
  start := if byte = escByte ∧ (w.log.scan = .ground ∨ w.log.scan = .escape) then w.position else w.start
  spans := w.spans ++ (w.log.recorded byte).toList.map fun closed =>
    ⟨w.start, w.position + 1, w.log.next, closed.2,
      session.bind fun log => (log.recorded byte).map fun _ => log.next⟩

def feed (w : Watch) (session : Option DeferredOsc) : List UInt8 → Watch
  | [] => w
  | byte :: bytes => feed (w.step session byte) (session.map (·.step byte)) bytes

/-- The watching log still has the sequence: it was neither superseded nor evicted. -/
def Alive (w : Watch) (span : Span) : Prop := (span.mark, span.body) ∈ w.log.entries

instance (w : Watch) (span : Span) : Decidable (w.Alive span) := inferInstanceAs (Decidable (_ ∈ _))

/-- The spans end where the watch has been, under marks it has used. -/
structure Placed (w : Watch) : Prop where
  marked : w.log.Marked
  counted : w.log.Counted
  start : w.start ≤ w.position
  spans : ∀ span ∈ w.spans, span.mark < w.log.next ∧ span.stop ≤ w.position

variable {w : Watch} {session : Option DeferredOsc} {byte : UInt8} {bytes : List UInt8} {span : Span}

theorem placed_new (position : ℕ) : (new position).Placed :=
  ⟨DeferredOsc.marked_new, DeferredOsc.counted_new, le_rfl, fun _ h => nomatch h⟩

theorem mem_step (h : span ∈ (w.step session byte).spans) : span ∈ w.spans ∨ ∃ command,
    w.log.recorded byte = some (command, span.body) ∧ span.start = w.start ∧ span.stop = w.position + 1 ∧
      span.mark = w.log.next ∧ span.kept = session.bind fun log => (log.recorded byte).map fun _ => log.next := by
  refine (List.mem_append.mp h).imp_right fun hnew => ?_
  obtain ⟨⟨command, body⟩, hclosed, rfl⟩ := List.mem_map.mp hnew
  exact ⟨command, Option.mem_toList.mp hclosed, rfl, rfl, rfl, rfl⟩

theorem next_of_recorded {d : DeferredOsc} {closed : DeferredKind × Text} (h : d.recorded byte = some closed) :
    (d.step byte).next = d.next + 1 := by
  rw [DeferredOsc.step_of_recorded h]
  rfl

theorem Placed.step (h : w.Placed) (session : Option DeferredOsc) (byte : UInt8) : (w.step session byte).Placed where
  marked := (DeferredOsc.later_step byte).marked h.marked
  counted := h.counted.step
  start := by
    have := h.start
    simp only [Watch.step]
    split_ifs <;> omega
  spans span hspan := by
    rcases mem_step hspan with hold | ⟨command, hrecorded, -, hstop, hmark, -⟩
    · obtain ⟨hmark, hstop⟩ := h.spans span hold
      exact ⟨hmark.trans_le (DeferredOsc.later_step byte).next, hstop.trans (Nat.le_succ _)⟩
    · refine ⟨?_, hstop.le⟩
      rw [hmark]
      exact (next_of_recorded hrecorded).symm ▸ Nat.lt_succ_self _

theorem Placed.feed (h : w.Placed) (session : Option DeferredOsc) (bytes : List UInt8) : (w.feed session bytes).Placed := by
  induction bytes generalizing w session with
  | nil => exact h
  | cons byte bytes ih => exact ih (h.step session byte) _

theorem log_feed (w : Watch) (session : Option DeferredOsc) (bytes : List UInt8) :
    (w.feed session bytes).log = w.log.feed bytes := by
  rw [DeferredOsc.feed_eq_foldl]
  induction bytes generalizing w session with
  | nil => rfl
  | cons byte bytes ih => exact ih _ _

theorem position_feed (w : Watch) (session : Option DeferredOsc) (bytes : List UInt8) :
    (w.feed session bytes).position = w.position + bytes.length := by
  induction bytes generalizing w session with
  | nil => rfl
  | cons byte bytes ih =>
    rw [Watch.feed, ih, List.length_cons]
    change w.position + 1 + bytes.length = _
    omega

theorem alive_of_feed (hmark : span.mark < w.log.next) (h : (w.feed session bytes).Alive span) : w.Alive span := by
  rw [Alive, log_feed] at h
  exact ((DeferredOsc.later_feed bytes).entries _ h).resolve_right hmark.not_ge

theorem start_of_step (h : (w.step session byte).log.scan ≠ .ground) :
    (w.step session byte).start = w.position ∨ (w.step session byte).start = w.start ∧ w.log.scan ≠ .ground := by
  by_cases hescape : byte = escByte ∧ (w.log.scan = .ground ∨ w.log.scan = .escape)
  · exact .inl (if_pos hescape)
  · refine .inr ⟨if_neg hescape, fun hground => h ?_⟩
    have hstep : w.log.step byte = w.log := by
      unfold DeferredOsc.step
      rw [hground]
      exact if_neg fun hbyte => hescape ⟨hbyte, .inl hground⟩
    change (w.log.step byte).scan = .ground
    rw [hstep, hground]

theorem mem_feed (h : span ∈ (w.feed session bytes).spans) :
    span ∈ w.spans ∨ w.position < span.stop ∧ w.log.next ≤ span.mark ∧
      (w.position ≤ span.start ∨ span.start = w.start ∧ w.log.scan ≠ .ground) := by
  induction bytes generalizing w session with
  | nil => exact .inl h
  | cons byte bytes ih =>
    rcases ih h with hstep | ⟨hstop, hmark, hstart⟩
    · rcases mem_step hstep with hold | ⟨command, hrecorded, hstart, hstop, hmark, -⟩
      · exact .inl hold
      · refine .inr ⟨by omega, hmark.ge, .inr ⟨hstart, fun hground => ?_⟩⟩
        simp [DeferredOsc.recorded, hground] at hrecorded
    · refine .inr ⟨(Nat.lt_succ_self _).trans hstop, (DeferredOsc.later_step byte).next.trans hmark, ?_⟩
      rcases hstart with hbehind | ⟨heq, hscan⟩
      · exact .inl ((Nat.le_succ _).trans hbehind)
      · rw [heq]
        exact (start_of_step hscan).imp_left ge_of_eq

/-! ### Both scanners -/

variable {d : DeferredOsc}

theorem paired_feed {kept : ℕ} (h : DeferredOsc.Paired d w.log kept span.mark span.body) (hsame : d.SameScan w.log)
    (hd : d.Counted) (hdm : d.Marked) (hw : w.Placed) (hmark : span.mark < w.log.next)
    (halive : (w.feed session bytes).Alive span) :
    DeferredOsc.Paired (d.feed bytes) (w.feed session bytes).log kept span.mark span.body := by
  rw [DeferredOsc.feed_eq_foldl]
  induction bytes generalizing w d session with
  | nil => exact h
  | cons byte bytes ih =>
    have hstep : span.mark < (w.step session byte).log.next := hmark.trans_le (DeferredOsc.later_step byte).next
    refine ih ?_ hsame.step hd.step ((DeferredOsc.later_step byte).marked hdm) (hw.step session byte) hstep halive
    exact h.step hsame hd hw.counted hdm hw.marked (alive_of_feed hstep halive)

/-- A sequence that both scanners see end is recorded in both logs. -/
theorem paired_of_mem_feed (hsame : d.SameScan w.log) (hd : d.Counted) (hdm : d.Marked) (hw : w.Placed)
    (hspan : span ∈ (w.feed (some d) bytes).spans) (hnew : span ∉ w.spans) (halive : (w.feed (some d) bytes).Alive span) :
    ∃ kept, span.kept = some kept ∧ d.next ≤ kept ∧
      DeferredOsc.Paired (d.feed bytes) (w.feed (some d) bytes).log kept span.mark span.body := by
  rw [DeferredOsc.feed_eq_foldl]
  induction bytes generalizing w d with
  | nil => exact absurd hspan hnew
  | cons byte bytes ih =>
    have hw' := hw.step (some d) byte
    by_cases hold : span ∈ (w.step (some d) byte).spans
    · obtain ⟨command, hrecorded, -, -, hmark, hkept⟩ := (mem_step hold).resolve_left hnew
      have hrecorded' := (hsame.recorded byte).trans hrecorded
      refine ⟨d.next, by simpa [hrecorded'] using hkept, le_rfl, ?_⟩
      have hlt := (hw'.spans span hold).1
      have hstep := alive_of_feed hlt halive
      have hpaired : DeferredOsc.Paired (d.step byte) (w.step (some d) byte).log d.next span.mark span.body := by
        rw [Alive, Watch.step, DeferredOsc.step_of_recorded hrecorded, hmark] at hstep
        rw [Watch.step, DeferredOsc.step_of_recorded hrecorded, DeferredOsc.step_of_recorded hrecorded', hmark]
        exact DeferredOsc.paired_record (d := d.abandon) (e := w.log.abandon) ⟨hd.bytes, hd.fits⟩
          ⟨hw.counted.bytes, hw.counted.fits⟩ ⟨hdm.ascending, hdm.bounded⟩ ⟨hw.marked.ascending, hw.marked.bounded⟩ hstep
      rw [List.foldl_cons, ← DeferredOsc.feed_eq_foldl]
      exact paired_feed hpaired hsame.step hd.step ((DeferredOsc.later_step byte).marked hdm) hw' hlt halive
    · obtain ⟨kept, hkept, hle, hpaired⟩ := ih hsame.step hd.step ((DeferredOsc.later_step byte).marked hdm) hw' hspan hold halive
      exact ⟨kept, hkept, (DeferredOsc.later_step byte).next.trans hle, hpaired⟩

end Watch

end Braid.Session
