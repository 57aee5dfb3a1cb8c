import Braid.Session.Seated

/-! The line of frames in front of a client: those its transport has been handed, and then those that wait
for it, a screen standing where its slot is. Frames enter the line at its end, except that a newer screen
takes the place of one that waits, and leave it only when the queued output is discarded. -/

namespace Braid.Session

open Foundation

variable {α : Type*}

/-- The frames an entry of the order stands for. -/
def Slot.frames (pieces : List (SinkFrame α)) : Slot α → List (SinkFrame α)
  | .stream frame | .control frame | .forward frame => [frame]
  | .screen => pieces

def Queue.line (q : Queue α) : List (SinkFrame α) := q.order.flatMap (Slot.frames q.pieces)

namespace Queue

variable {q q' : Queue α} {frame : SinkFrame α}

theorem line_admit {slot : Slot α} {limit : ℕ} (h : q.admit_ slot limit .back = some q') :
    q'.line = q.line ++ slot.frames q.pieces := by
  unfold admit_ at h
  dsimp only at h
  split_ifs at h <;> cases h <;> simp [line]

theorem mem_line_popFront {frames : List (SinkFrame α)} (h : q.popFront = some (q', frames))
    (hframe : frame ∈ frames ∨ frame ∈ q'.line) : frame ∈ q.line := by
  unfold popFront at h
  split at h
  · cases h
  all_goals
    rename_i horder
    cases h
    simp only [line, horder, List.flatMap_cons, List.mem_append, Slot.frames] at hframe ⊢
  · exact hframe
  · exact hframe
  · exact hframe
  · refine hframe.imp_right fun hbehind => ?_
    rw [List.mem_flatMap] at hbehind ⊢
    obtain ⟨slot, hslot, hmem⟩ := hbehind
    refine ⟨slot, hslot, ?_⟩
    cases slot with
    | screen => cases hmem
    | _ => exact hmem

theorem mem_line_fillFrom (batch : List (SinkFrame α)) (waiting : ℕ)
    (hframe : frame ∈ (q.fillFrom batch waiting).2 ∨ frame ∈ (q.fillFrom batch waiting).1.line) :
    frame ∈ batch ∨ frame ∈ q.line := by
  induction waiting generalizing q batch with
  | zero => exact hframe
  | succ waiting ih =>
    unfold fillFrom at hframe
    split_ifs at hframe
    · split at hframe
      · exact hframe
      · rename_i hpop
        rcases ih _ hframe with hbatch | hline
        · rcases List.mem_append.1 hbatch with hbatch | htaken
          · exact .inl hbatch
          · exact .inr (mem_line_popFront hpop (.inl htaken))
        · exact .inr (mem_line_popFront hpop (.inr hline))
    · exact hframe

end Queue

namespace Sink

variable {s s' : Sink α} {frame : SinkFrame α}

/-- The frames the client is handed, now and when its queue is emptied. -/
def line (s : Sink α) : List (SinkFrame α) := s.handed ++ s.queue.line

theorem line_push {slot : Slot α} {limit : ℕ} (h : s.push slot limit .back = .ok s') :
    s'.line = s.line ++ slot.frames s.queue.pieces := by
  obtain ⟨queue, -, hadmitted, rfl⟩ := push_ok h
  simp only [line, Queue.line_admit hadmitted, List.append_assoc]

theorem mem_frames_screen {old new : List (SinkFrame α)} {slot : Slot α} (h : frame ∈ slot.frames new) :
    frame ∈ new ∨ slot ≠ .screen ∧ frame ∈ slot.frames old := by
  cases slot with
  | screen => exact .inl h
  | _ => exact .inr ⟨nofun, h⟩

section

variable {pieces : List (SinkFrame α)} {pressure : ScreenPressure} (h : s.sendScreen pieces = .ok (s', pressure))

include h

theorem sendScreen_ok :
    s' = s ∨ ∃ order screen, s' = { s with queue := { s.queue with order, screen, pieces } } ∧
      ∀ slot ∈ order, slot ∈ s.queue.order ∨ slot = .screen := by
  unfold sendScreen at h
  split_ifs at h
  · cases h
    exact .inl rfl
  · cases h
    refine .inr ⟨_, _, rfl, fun slot hslot => (List.mem_append.1 hslot).imp_right List.mem_singleton.1⟩
  · cases h
    exact .inr ⟨_, _, rfl, fun _ => .inl⟩

theorem mem_line_sendScreen (hframe : frame ∈ s'.line) : frame ∈ s.line ∨ frame ∈ pieces := by
  rcases sendScreen_ok h with rfl | ⟨order, screen, rfl, horder⟩
  · exact .inl hframe
  simp only [line, Queue.line, List.mem_append, List.mem_flatMap] at hframe ⊢
  rcases hframe with hhanded | ⟨slot, hslot, hmem⟩
  · exact .inl (.inl hhanded)
  · rcases mem_frames_screen hmem with hnew | ⟨hslot', hold⟩
    · exact .inr hnew
    · exact .inl (.inr ⟨slot, (horder slot hslot).resolve_right hslot', hold⟩)

end

theorem mem_line_discardStream (hframe : frame ∈ s.discardStream.line) : frame ∈ s.line := by
  simp only [line, discardStream, Queue.discardStream, Queue.line, List.mem_append, List.mem_flatMap] at hframe ⊢
  refine hframe.imp_right ?_
  rintro ⟨slot, hslot, hmem⟩
  exact ⟨slot, List.mem_of_mem_filter hslot, hmem⟩

theorem mem_line_write {step : WriterStep} (h : s.write step = some s') (hframe : frame ∈ s'.line) : frame ∈ s.line := by
  cases step with
  | take =>
    simp only [write, Option.ite_none_right_eq_some, Option.some.injEq] at h
    obtain ⟨-, rfl⟩ := h
    simp only [line, List.append_assoc, List.mem_append] at hframe ⊢
    refine hframe.imp_right fun hmem => ?_
    exact (Queue.mem_line_fillFrom [] s.queue.order.length hmem).resolve_left List.not_mem_nil
  | _ =>
    simp only [write, Option.ite_none_right_eq_some, Option.some.injEq] at h
    obtain ⟨-, rfl⟩ := h
    exact hframe

end Sink

/-! ### What acts put in the line -/

def Message.deferred : Message → List (ℕ × Text)
  | .screen _ _ _ deferred => deferred
  | _ => []

theorem Message.deferred_of_isPlain {message : Message} (h : message.isPlain = true) : message.deferred = [] := by
  cases message <;> first | rfl | cases h

/-- The position in the output that a message takes its client to. -/
def Message.reach : Message → ℕ
  | .output off bytes => off + bytes.length
  | _ => 0

theorem Message.reach_of_isPlain {message : Message} (h : message.isPlain = true) : message.reach = 0 := by
  cases message <;> first | rfl | cases h

/-- An entry of the order other than a screen's, whose message carries no deferred sequences. -/
def Slot.isBare : Slot Message → Bool
  | .stream frame | .control frame | .forward frame => frame.content.deferred.isEmpty
  | .screen => false

theorem Slot.isBare_of_plainLimit {slot : Slot Message} {limit : ℕ} (h : slot.plainLimit = some limit) :
    slot.isBare = true ∧ ∀ frame ∈ slot.frames [], frame.content.reach = 0 := by
  cases slot with
  | stream _ => cases h
  | screen => cases h
  | _ frame =>
    simp only [plainLimit] at h
    split_ifs at h with hplain
    simp [isBare, frames, Message.deferred_of_isPlain hplain, Message.reach_of_isPlain hplain]

/-- Only the screen that waits carries deferred sequences. -/
def Queue.Bare (q : Queue Message) : Prop := ∀ slot ∈ q.order, slot ≠ .screen → slot.isBare = true

namespace Queue

variable {q q' : Queue Message}

theorem Bare.of_order (h : q.Bare) (horder : ∀ slot ∈ q'.order, slot ∈ q.order ∨ slot = .screen) : q'.Bare :=
  fun slot hslot hscreen => h slot ((horder slot hslot).resolve_right hscreen) hscreen

theorem Bare.popFront {frames : List (SinkFrame Message)} (h : q.Bare) (hpop : q.popFront = some (q', frames)) : q'.Bare := by
  unfold Queue.popFront at hpop
  split at hpop
  · cases hpop
  all_goals
    rename_i horder
    cases hpop
    exact h.of_order fun slot hslot => .inl (horder ▸ List.mem_cons_of_mem _ hslot)

theorem Bare.fillFrom (h : q.Bare) (batch : List (SinkFrame Message)) (waiting : ℕ) : (q.fillFrom batch waiting).1.Bare := by
  induction waiting generalizing q batch with
  | zero => exact h
  | succ waiting ih =>
    unfold Queue.fillFrom
    split_ifs
    · split
      · exact h
      · rename_i hpop
        exact ih (h.popFront hpop) _
    · exact h

end Queue

/-- A sink that is given messages but no screen, and output up to `bound`, or gives up the output that waits in
it. -/
inductive Sink.Streams (bound : ℕ) (s : Sink Message) : Sink Message → Prop where
  | refl : Streams bound s s
  | push {t u : Sink Message} {slot : Slot Message} {limit : ℕ} (h : Streams bound s t) (hslot : slot.isBare = true)
      (hreach : ∀ frame ∈ slot.frames [], frame.content.reach ≤ bound) (hpush : t.push slot limit .back = .ok u) :
      Streams bound s u
  | discard {t : Sink Message} (h : Streams bound s t) : Streams bound s t.discardStream

namespace Sink.Streams

variable {bound : ℕ} {s t u : Sink Message}

theorem trans (h : s.Streams bound t) (h' : t.Streams bound u) : s.Streams bound u := by
  induction h' with
  | refl => exact h
  | push _ hslot hreach hpush ih => exact .push ih hslot hreach hpush
  | discard _ ih => exact .discard ih

theorem output {off len limit : ℕ} {bytes : List UInt8} (hreach : off + bytes.length ≤ bound)
    (hpush : s.push (.stream ⟨.output off bytes, len⟩) limit .back = .ok t) : s.Streams bound t :=
  .push .refl rfl (fun frame hframe => by rwa [List.mem_singleton.1 hframe]) hpush

theorem same (h : s.Streams bound t) : t.handed = s.handed ∧ t.queue.pieces = s.queue.pieces := by
  induction h with
  | refl => exact ⟨rfl, rfl⟩
  | push _ _ _ hpush ih =>
    obtain ⟨queue, -, hadmitted, rfl⟩ := push_ok hpush
    refine ⟨ih.1, Eq.trans ?_ ih.2⟩
    unfold Queue.admit_ at hadmitted
    dsimp only at hadmitted
    split_ifs at hadmitted <;> cases hadmitted <;> rfl
  | discard _ ih => exact ih

theorem bare (h : s.Streams bound t) (hbare : s.queue.Bare) : t.queue.Bare := by
  induction h with
  | refl => exact hbare
  | @push t u slot limit _ hslot _ hpush ih =>
    obtain ⟨queue, -, hadmitted, rfl⟩ := push_ok hpush
    have horder : queue.order = t.queue.order ++ [slot] := by
      unfold Queue.admit_ at hadmitted
      dsimp only at hadmitted
      split_ifs at hadmitted <;> cases hadmitted <;> rfl
    intro slot' hmem hscreen
    rcases List.mem_append.1 (horder ▸ hmem) with hold | hnew
    · exact ih slot' hold hscreen
    · rw [List.mem_singleton.1 hnew]
      exact hslot
  | discard _ ih => exact fun slot hslot => ih slot (List.mem_of_mem_filter hslot)

end Sink.Streams

variable {wire : Wire} {entries : List (ℕ × Text)} {a a' a'' : Attachment} {offset now bound : ℕ}

theorem Queued.streams (h : Queued a a') : a.sink.Streams bound a'.sink := by
  induction h with
  | refl => exact .refl
  | tail _ hpush ih =>
    obtain ⟨slot, limit, sink, hplain, hpush, rfl⟩ := hpush
    obtain ⟨hbare, hreach⟩ := Slot.isBare_of_plainLimit hplain
    exact .push ih hbare (fun frame hframe => (hreach frame hframe).trans_le (Nat.zero_le _)) hpush

theorem length_chunks (n : ℕ) (bytes : List UInt8) : (chunks n bytes).flatten.length ≤ bytes.length := by
  suffices h : ∀ left, (chunksOf n left bytes).flatten.length ≤ bytes.length from h _
  intro left
  induction left generalizing bytes with
  | zero => exact Nat.zero_le _
  | succ left ih =>
    rw [chunksOf]
    split_ifs
    · exact Nat.zero_le _
    · have := ih (bytes.drop n)
      rw [List.flatten_cons, List.length_append, List.length_take]
      rw [List.length_drop] at this
      omega

namespace Attachment

theorem sink_settleBeforeOutput (lastOutput : Option ℕ) (grid : Screen.GridSize) :
    (a.settleBeforeOutput offset now lastOutput grid).sink = a.sink := by
  unfold settleBeforeOutput settle
  split_ifs <;> rfl

theorem streams_pushChunks (mark : ℕ) (chunks : List (List UInt8)) (hbound : offset + chunks.flatten.length ≤ bound) :
    a.sink.Streams bound (a.pushChunks wire mark offset chunks).1.sink := by
  induction chunks generalizing a offset with
  | nil => exact .refl
  | cons chunk rest ih =>
    rw [List.flatten_cons, List.length_append] at hbound
    unfold pushChunks
    split
    · exact .refl
    · split
      · rename_i sink hpush
        exact (Sink.Streams.output (by omega) hpush).trans (ih (a := { a with sink }) (by omega))
      · exact .discard .refl
      · exact .refl

theorem streams_forward (bytes : List UInt8) (grid : Screen.GridSize) (lastOutput : Option ℕ) (mark : ℕ) :
    a.sink.Streams (offset + bytes.length) (a.forward wire offset bytes grid lastOutput mark now).1.sink := by
  have hsettled : (a.settleBeforeOutput offset now lastOutput grid).sink = a.sink := sink_settleBeforeOutput _ _
  unfold forward
  dsimp only
  generalize a.settleBeforeOutput offset now lastOutput grid = b at hsettled
  rw [← hsettled]
  have hstirred : (b.stirredBy bytes).sink = b.sink := by
    unfold stirredBy
    split_ifs <;> rfl
  have hpushed : b.sink.Streams (offset + bytes.length) (b.pushOutput wire offset bytes mark).1.sink := by
    rw [← hstirred]
    unfold pushOutput
    dsimp only
    split_ifs
    · exact .refl
    · exact streams_pushChunks _ _ (Nat.add_le_add_left (length_chunks _ _) _)
  split_ifs
  · exact .refl
  · split <;> rename_i heq <;> rw [heq] at hpushed <;> exact hpushed

/-- What greeting a client does to its attachment. -/
structure Greeted (mark bound : ℕ) (a a' : Attachment) : Prop where
  ledger : a'.ledger = a.ledger
  framing : a'.framing = a.framing
  sent : a'.deferredSent = a.deferredSent
  mark : a'.deferredFrom = a.deferredFrom ∨ a'.deferredFrom = mark
  sink : a.sink.Streams bound a'.sink

theorem Greeted.trans {mark : ℕ} (h : Greeted mark bound a a') (h' : Greeted mark bound a' a'') : Greeted mark bound a a'' where
  ledger := h'.ledger.trans h.ledger
  framing := h'.framing.trans h.framing
  sent := h'.sent.trans h.sent
  mark := h'.mark.elim (fun hsame => hsame ▸ h.mark) .inr
  sink := h.sink.trans h'.sink

theorem greeted_queued {mark : ℕ} (h : Queued a a') : Greeted mark bound a a' := by
  have hsink := h.queues.sink
  exact ⟨by rw [hsink], by rw [hsink], by rw [hsink], .inl (by rw [hsink]), h.streams⟩

end Attachment

namespace SessionActor

open Attachment (Greeted greeted_queued)

variable {s : SessionActor} {w : World}

theorem greeted_replayChunks {mark : ℕ} (chunks : List (List UInt8)) (hbound : offset + chunks.flatten.length ≤ bound) :
    Greeted mark bound a (replayChunks wire a offset chunks).1 := by
  induction chunks generalizing a offset with
  | nil => exact ⟨rfl, rfl, rfl, .inl rfl, .refl⟩
  | cons chunk rest ih =>
    rw [List.flatten_cons, List.length_append] at hbound
    unfold replayChunks
    split
    · exact ⟨rfl, rfl, rfl, .inl rfl, .refl⟩
    · split
      · rename_i sink hpush
        have hpushed : Greeted mark bound a { a with sink } := ⟨rfl, rfl, rfl, .inl rfl, .output (by omega) hpush⟩
        exact hpushed.trans (ih (by omega))
      · exact ⟨rfl, rfl, rfl, .inl rfl, .refl⟩
      · exact ⟨rfl, rfl, rfl, .inl rfl, .refl⟩

theorem greeted_replay (hkept : s.Kept) (start wrap : ℕ) : Greeted s.mark s.offset a (s.replay wire a start wrap).1 := by
  unfold replay
  split
  · exact ⟨rfl, rfl, rfl, .inl rfl, .refl⟩
  · rename_i terminal hterminal
    split
    · exact ⟨rfl, rfl, rfl, .inl rfl, .refl⟩
    · rename_i kept hhistory
      refine greeted_replayChunks _ ?_
      obtain ⟨hoffset, hbacklog, -⟩ := hkept terminal hterminal
      have hlength := hbacklog.length_le
      simp only [replayFrom, Option.ite_none_right_eq_some, Option.some.injEq] at hhistory
      obtain ⟨⟨hfrom, hto⟩, rfl⟩ := hhistory
      generalize hkept : terminal.backlog.drop (start - (s.offset - terminal.backlog.length)) = kept
      have hrun : kept.length = s.offset - start := by
        rw [← hkept, List.length_drop]
        omega
      have htake := length_chunks a.framing.outputChunk (kept.take wrap)
      have hdrop := length_chunks a.framing.outputChunk (kept.drop wrap)
      rw [List.length_take] at htake
      rw [List.length_drop] at hdrop
      rw [List.flatten_append, List.length_append]
      omega

theorem greeted_resume (hkept : s.Kept) (a : Attachment) (confirmed : ConfirmedOutput) :
    Greeted s.mark s.offset a (s.resume wire a confirmed w).1 := by
  have hskip : ∀ {b : Attachment} {bytes : ℕ}, Greeted s.mark s.offset a b →
      Greeted s.mark s.offset a ((reportSkipped wire b bytes).beginSync s.mark) := by
    intro b bytes hb
    have hreported : Greeted s.mark s.offset b (reportSkipped wire b bytes) := by
      unfold reportSkipped
      split_ifs
      · exact ⟨rfl, rfl, rfl, .inl rfl, .refl⟩
      · exact greeted_queued (Attachment.queued_offer rfl)
    refine (hb.trans hreported).trans ⟨rfl, rfl, rfl, ?_, .refl⟩
    simp only [Attachment.beginSync]
    split_ifs
    · exact .inr rfl
    · exact .inl rfl
  unfold resume
  dsimp only
  split_ifs
  · exact hskip ⟨rfl, rfl, rfl, .inl rfl, .refl⟩
  · exact hskip ⟨rfl, rfl, rfl, .inl rfl, .discard .refl⟩
  · have hreplay : Greeted s.mark s.offset a (s.replay wire a confirmed.nextOff w.wrap).1 := greeted_replay hkept _ _
    split <;> rename_i heq <;> rw [heq] at hreplay
    · exact hreplay.trans ⟨rfl, rfl, rfl, .inl rfl, .refl⟩
    · exact hskip hreplay
    · exact hskip hreplay
    · exact hreplay

theorem greeted_greet (hkept : s.Kept) (a : Attachment) (confirmed : Option ConfirmedOutput) :
    Greeted s.mark s.offset a (s.greet wire a confirmed w).1 := by
  unfold greet
  split
  · exact ⟨rfl, rfl, rfl, .inl rfl, .refl⟩
  · rename_i b hb
    have hb : Greeted s.mark s.offset a b := greeted_queued (Attachment.queued_send (by split_ifs <;> rfl) hb)
    split
    · exact hb
    · split
      · exact hb
      · rename_i c hc
        have hc : Greeted s.mark s.offset a c := hb.trans (greeted_queued (Attachment.queued_send rfl hc))
        split_ifs
        · exact hc
        · exact hc.trans (greeted_resume hkept _ _)

end SessionActor

theorem Seat.Arrives.greeted {v : Seat} (h : v.Arrives wire) :
    ∃ a : Attachment, a.sink = .new ∧ a.ledger.pending = none ∧ a.deferredFrom = 0 ∧ a.deferredSent = 0 ∧
      a.Greeted v.log.next v.offset v.attachment := by
  obtain ⟨s, id, client, stream, framing, confirmed, w, hkept, hterminal, hoffset, hgreet⟩ := h
  refine ⟨s.newcomer id client stream .new framing w.now, rfl, rfl, rfl, rfl, ?_⟩
  have hgreeted : Attachment.Greeted s.mark s.offset (s.newcomer id client stream .new framing w.now)
    (s.greet wire (s.newcomer id client stream .new framing w.now) confirmed w).1 := SessionActor.greeted_greet hkept _ _
  rw [hgreet] at hgreeted
  have hmark : s.mark = v.log.next := by
    rw [Seat.log, hterminal, SessionActor.mark]
    cases s.terminal <;> rfl
  rwa [hmark, ← hoffset] at hgreeted

/-- What an act does to the sink. -/
inductive Drives (wire : Wire) (v : Seat) (act : Act) (v' : Seat) : Prop where
  | streams (hsink : v.attachment.sink.Streams v'.offset v'.attachment.sink)
  | screen (painted : Painted) (frame : Daemon.RepaintFrame) (dirty : Daemon.RowMask) (grid : Screen.GridSize) (now : ℕ)
      (sheet : Cut) (version : ℕ) (pressure : ScreenPressure)
      (hact : act = .repaint painted frame dirty grid (some sheet) now) (hwanted : v.attachment.wants painted now = true)
      (hsend : v.attachment.sink.sendScreen ({ v.attachment with version }.pieces v.offset (v.attachment.owedDeferred v.log)
        sheet) = .ok (v'.attachment.sink, pressure))
  | write (step : WriterStep) (hact : act = .write step) (hwrite : v.attachment.sink.write step = some v'.attachment.sink)

theorem Seat.drives_next {v v' : Seat} {act : Act} (h : v.next wire act = some v') : Drives wire v act v' := by
  cases act with
  | aside => cases h; exact .streams .refl
  | path => cases h; exact .streams .refl
  | queue slot =>
    obtain ⟨limit, sink, hplain, hpush, rfl⟩ := next_queue h
    exact .streams (Queued.streams (.single ⟨slot, limit, sink, hplain, hpush, rfl⟩))
  | confirm => cases h; exact .streams .refl
  | regrid =>
    obtain ⟨_, -, rfl⟩ := Option.map_eq_some_iff.1 h
    exact .streams .refl
  | restart =>
    obtain ⟨_, -, rfl⟩ := Option.map_eq_some_iff.1 h
    exact .streams .refl
  | repaint painted frame dirty grid cut now =>
    obtain ⟨terminal, attachment, hterminal, hpainted, rfl⟩ := next_repaint h
    cases Attachment.repaint_cases hpainted with
    | idle => exact .streams .refl
    | withheld => exact .streams .refl
    | sent sheet ledger sink pressure mode version lastRepaint screenSentAt repaintPending hwanted hcut hpending hsink hmode =>
      subst hcut
      refine .screen painted frame dirty grid now sheet version pressure rfl hwanted ?_
      rw [log, hterminal]
      exact hsink
  | output =>
    obtain ⟨terminal, attachment, -, hforwarded, -, -, rfl⟩ := next_output h
    obtain rfl : _ = attachment := congrArg Prod.fst hforwarded
    exact .streams (Attachment.streams_forward _ _ _ _)
  | write step =>
    obtain ⟨sink, hwrite, rfl⟩ := Option.map_eq_some_iff.1 h
    exact .write step rfl hwrite

/-- What is new in the line of an attachment carries no deferred sequences but these. -/
def Adds (entries : List (ℕ × Text)) (a a' : Attachment) : Prop :=
  ∀ frame ∈ a'.sink.line, frame ∈ a.sink.line ∨ ∀ entry ∈ frame.content.deferred, entry ∈ entries

theorem Sink.Streams.adds (h : a.sink.Streams bound a'.sink) : Adds entries a a' := by
  unfold Adds
  generalize a'.sink = sink at h
  induction h with
  | refl => exact fun _ => .inl
  | @push t u slot limit _ hslot _ hpush ih =>
    intro frame hframe
    rw [line_push hpush, List.mem_append] at hframe
    refine hframe.elim (ih frame) fun hnew => .inr fun entry hentry => ?_
    cases slot with
    | screen => cases hslot
    | _ new =>
      rw [List.mem_singleton.1 hnew, List.isEmpty_iff.1 hslot] at hentry
      cases hentry
  | discard _ ih => exact fun frame hframe => ih frame (mem_line_discardStream hframe)

theorem Attachment.mem_pieces {frame : SinkFrame Message} {sheet : Cut} (h : frame ∈ a.pieces offset entries sheet) :
    frame.content.deferred ⊆ entries := by
  rcases List.mem_cons.1 h with rfl | htail
  · exact List.drop_subset _ _
  · obtain ⟨len, -, rfl⟩ := List.mem_map.1 htail
    exact List.nil_subset _

/-- An act puts no deferred sequences in the line but those of the log. -/
theorem Seat.adds_next {v v' : Seat} {act : Act} (h : v.next wire act = some v') :
    Adds v.log.entries v.attachment v'.attachment := by
  cases drives_next h with
  | streams hsink => exact hsink.adds
  | screen painted frame dirty grid now sheet version pressure hact hwanted hsend =>
    intro frame hframe
    exact (Sink.mem_line_sendScreen hsend hframe).imp_right fun hpiece entry hentry =>
      DeferredOsc.mem_carry (Attachment.mem_pieces hpiece hentry)
  | write step hact hwrite => exact fun frame hframe => .inl (Sink.mem_line_write hwrite hframe)

end Braid.Session
