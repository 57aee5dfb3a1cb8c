import Braid.Session.Owed
import Braid.Session.Stream

/-! Deferrable sequences between the stream and the screens. A sequence in the output reaches a stream client
in its output, or in a screen it is given before any output past the sequence. Four things get in the way of
that: a scanner that was not given the part of the output a sequence begins in, a client that returns to the
stream in the middle of a sequence or before a screen carries what was recorded since the last one, output that
is given up while it waits, and a screen without room for what is owed or for what the one it replaces carried. -/

namespace Braid.Session

open Foundation

/-! ### What a client is told -/

namespace Message

/-- The message holds the byte of the output at a position. -/
def Covers (position : ℕ) : Message → Prop
  | .output off bytes => off ≤ position ∧ position < off + bytes.length
  | _ => False

/-- The message is a screen of the output after the sequence, and carries it. -/
def Carries (span : Span) : Message → Prop
  | .screen _ _ nextOff deferred => span.stop ≤ nextOff ∧ ∃ mark ∈ span.kept, (mark, span.body) ∈ deferred
  | _ => False

instance (position : ℕ) (message : Message) : Decidable (message.Covers position) :=
  match message with
  | .output _ _ => inferInstanceAs (Decidable (_ ∧ _))
  | .hello | .helloForward | .commandAck _ | .outputSkipped _ | .ping _ _ | .screen _ _ _ _ | .screenTail _ _
  | .forwardData _ _ _ | .forwardAck _ _ _ _ | .forwardReset _ _ => .isFalse id

instance (span : Span) (message : Message) : Decidable (message.Carries span) :=
  match message with
  | .screen _ _ _ _ => inferInstanceAs (Decidable (_ ∧ _))
  | .hello | .helloForward | .commandAck _ | .outputSkipped _ | .ping _ _ | .output _ _ | .screenTail _ _
  | .forwardData _ _ _ | .forwardAck _ _ _ _ | .forwardReset _ _ => .isFalse id

end Message

/-- The messages hold the output between two positions. -/
def Filled (told : List Message) (start stop : ℕ) : Prop :=
  ∀ position, start ≤ position → position < stop → ∃ message ∈ told, message.Covers position

namespace Span

/-- Whenever the client is told of output past the sequence, it has been told all of the sequence by then, or
given a screen that carries it before. -/
def Served (span : Span) (told : List Message) : Prop :=
  ∀ before message behind, told = before ++ message :: behind → span.stop < message.reach →
    Filled (before ++ [message]) span.start span.stop ∨ ∃ screen ∈ before, screen.Carries span

/-- What the client is told next cannot change that. -/
def Settled (span : Span) (told : List Message) : Prop :=
  Filled told span.start span.stop ∨ ∃ screen ∈ told, screen.Carries span

end Span

theorem Filled.mono {told told' : List Message} {start stop : ℕ} (h : Filled told start stop)
    (hsub : ∀ message ∈ told, message ∈ told') : Filled told' start stop := by
  intro position hstart hstop
  obtain ⟨message, hmessage, hcovers⟩ := h position hstart hstop
  exact ⟨message, hsub message hmessage, hcovers⟩

namespace Span

variable {span : Span} {told told' : List Message} {message : Message}

theorem Settled.mono (h : span.Settled told) (hsub : ∀ message ∈ told, message ∈ told') : span.Settled told' :=
  h.imp (·.mono hsub) fun ⟨screen, hscreen, hcarries⟩ => ⟨screen, hsub screen hscreen, hcarries⟩

theorem served_of_reach (h : ∀ message ∈ told, message.reach ≤ span.stop) : span.Served told := by
  rintro before message behind rfl hpast
  exact absurd (h message (by simp)) hpast.not_ge

variable {behind : List Message}

theorem Served.front (h : span.Served (told ++ behind)) : span.Served told := by
  rintro before message rest rfl hpast
  exact h before message (rest ++ behind) (by simp) hpast

theorem Served.concat (h : span.Served told)
    (hlast : span.stop < message.reach → Filled (told ++ [message]) span.start span.stop ∨ ∃ screen ∈ told, screen.Carries span) :
    span.Served (told ++ [message]) := by
  intro before found behind heq hpast
  rcases List.eq_nil_or_concat behind with rfl | ⟨rest, last, rfl⟩
  · obtain ⟨rfl, hlast'⟩ := List.append_inj' heq rfl
    cases hlast'
    exact hlast hpast
  · rw [List.concat_eq_append, ← List.cons_append, ← List.append_assoc] at heq
    obtain ⟨rfl, -⟩ := List.append_inj' heq rfl
    exact h before found rest rfl hpast

theorem Served.append_settled (h : span.Served told) (hsettled : span.Settled told) (more : List Message) :
    span.Served (told ++ more) := by
  induction more generalizing told with
  | nil => rwa [List.append_nil]
  | cons message more ih =>
    rw [List.append_cons]
    refine ih (h.concat fun _ => hsettled.imp_left (·.mono fun _ => List.mem_append_left _)) (hsettled.mono fun _ => List.mem_append_left _)

theorem Served.append_reach (h : span.Served told) {more : List Message} (hmore : ∀ message ∈ more, message.reach ≤ span.stop) :
    span.Served (told ++ more) := by
  induction more generalizing told with
  | nil => rwa [List.append_nil]
  | cons message more ih =>
    rw [List.forall_mem_cons] at hmore
    rw [List.append_cons]
    exact ih (h.concat fun hpast => absurd hmore.1 hpast.not_ge) hmore.2

/-! ### Runs of output -/

theorem filled_outputs {start offset : ℕ} (h : Filled told start offset) (chunks : List (List UInt8)) :
    Filled (told ++ outputs offset chunks) start (offset + chunks.flatten.length) := by
  induction chunks generalizing told offset with
  | nil => simpa [outputs] using h
  | cons chunk rest ih =>
    have hchunk : Filled (told ++ [.output offset chunk]) start (offset + chunk.length) := by
      intro position hstart hstop
      by_cases hold : position < offset
      · obtain ⟨message, hmessage, hcovers⟩ := h position hstart hold
        exact ⟨message, List.mem_append_left _ hmessage, hcovers⟩
      · exact ⟨.output offset chunk, by simp, by omega, hstop⟩
    have hrest := ih hchunk
    rw [outputs, List.append_cons, List.flatten_cons, List.length_append, ← Nat.add_assoc]
    exact hrest

/-- A sequence that ends in a run of output is served by it, if all before the run was told. -/
theorem served_outputs {offset : ℕ} (hreach : ∀ message ∈ told, message.reach ≤ span.stop)
    (hfilled : Filled told span.start offset) (chunks : List (List UInt8)) : span.Served (told ++ outputs offset chunks) := by
  induction chunks generalizing told offset with
  | nil =>
    rw [outputs, List.append_nil]
    exact served_of_reach hreach
  | cons chunk rest ih =>
    have hchunk : Filled (told ++ [.output offset chunk]) span.start (offset + chunk.length) := by
      simpa [outputs] using filled_outputs hfilled [chunk]
    rw [outputs, List.append_cons]
    by_cases hpast : span.stop < offset + chunk.length
    · have hall : Filled (told ++ [.output offset chunk]) span.start span.stop := fun position hstart hstop =>
        hchunk position hstart (hstop.trans hpast)
      exact ((served_of_reach hreach).concat fun _ => .inl hall).append_settled (.inl hall) _
    · refine ih (fun message hmessage => ?_) hchunk
      rcases List.mem_append.mp hmessage with hold | hnew
      · exact hreach message hold
      · rw [List.mem_singleton.mp hnew]
        exact Nat.le_of_not_lt hpast

/-! ### Messages given up and replaced -/

/-- Messages are given up that have nothing to do with the sequence. -/
inductive Thins (span : Span) : List Message → List Message → Prop where
  | nil : Thins span [] []
  | keep (message : Message) {told told' : List Message} (h : Thins span told told') :
      Thins span (message :: told) (message :: told')
  | drop (message : Message) {told told' : List Message} (h : Thins span told told')
      (hcovers : ∀ position, span.start ≤ position → position < span.stop → ¬message.Covers position)
      (hcarries : ¬message.Carries span) : Thins span (message :: told) told'

theorem thins_refl (told : List Message) : span.Thins told told := by
  induction told with
  | nil => exact .nil
  | cons message told ih => exact .keep message ih

theorem Thins.append {more more' : List Message} (h : span.Thins told told') (h' : span.Thins more more') :
    span.Thins (told ++ more) (told' ++ more') := by
  induction h with
  | nil => exact h'
  | keep message _ ih => exact .keep message ih
  | drop message _ hcovers hcarries ih => exact .drop message ih hcovers hcarries

theorem Thins.mem (h : span.Thins told told') (hmessage : message ∈ told) :
    message ∈ told' ∨ (∀ position, span.start ≤ position → position < span.stop → ¬message.Covers position) ∧
      ¬message.Carries span := by
  induction h with
  | nil => exact .inl hmessage
  | keep kept _ ih =>
    rcases List.mem_cons.mp hmessage with rfl | hrest
    · exact .inl List.mem_cons_self
    · exact (ih hrest).imp_left (List.mem_cons_of_mem _)
  | drop dropped _ hcovers hcarries ih =>
    rcases List.mem_cons.mp hmessage with rfl | hrest
    · exact .inr ⟨hcovers, hcarries⟩
    · exact ih hrest

theorem Thins.filled {more : List Message} (h : span.Thins told told') (hfilled : Filled (told ++ more) span.start span.stop) :
    Filled (told' ++ more) span.start span.stop := by
  intro position hstart hstop
  obtain ⟨message, hmessage, hcovers⟩ := hfilled position hstart hstop
  refine ⟨message, List.mem_append.mpr ((List.mem_append.mp hmessage).imp_left fun hold => ?_), hcovers⟩
  exact (h.mem hold).resolve_right fun hnot => hnot.1 position hstart hstop hcovers

theorem Thins.carries (h : span.Thins told told') (hscreen : ∃ screen ∈ told, screen.Carries span) :
    ∃ screen ∈ told', screen.Carries span := by
  obtain ⟨screen, hmem, hcarries⟩ := hscreen
  exact ⟨screen, (h.mem hmem).resolve_right fun hnot => hnot.2 hcarries, hcarries⟩

theorem Thins.split {before' behind' : List Message} (h : span.Thins told (before' ++ message :: behind')) :
    ∃ before behind, told = before ++ message :: behind ∧ span.Thins before before' := by
  generalize hkept : before' ++ message :: behind' = kept at h
  induction h generalizing before' with
  | nil => simp at hkept
  | @keep first told _ h ih =>
    cases before' with
    | nil =>
      obtain ⟨rfl, rfl⟩ := List.cons.inj hkept
      exact ⟨[], told, rfl, .nil⟩
    | cons first' before' =>
      obtain ⟨rfl, hrest⟩ := List.cons.inj hkept
      obtain ⟨before, behind, rfl, hthins⟩ := ih hrest
      exact ⟨first' :: before, behind, rfl, .keep _ hthins⟩
  | drop dropped _ hcovers hcarries ih =>
    obtain ⟨before, behind, rfl, hthins⟩ := ih hkept
    exact ⟨dropped :: before, behind, rfl, .drop _ hthins hcovers hcarries⟩

theorem Served.thin (h : span.Served told) (hthins : span.Thins told told') : span.Served told' := by
  rintro before' message behind' rfl hpast
  obtain ⟨before, behind, rfl, hbefore⟩ := hthins.split
  exact (h before message behind rfl hpast).imp hbefore.filled hbefore.carries

theorem Settled.thin (h : span.Settled told) (hthins : span.Thins told told') : span.Settled told' := by
  refine h.imp (fun hfilled => ?_) hthins.carries
  rw [← List.append_nil told']
  exact hthins.filled (by rwa [List.append_nil])

section

variable {front old new : List Message} (hold : ∀ message ∈ old, ∀ position, ¬message.Covers position)
  (hcarries : (∃ screen ∈ old, screen.Carries span) → ∃ screen ∈ new, screen.Carries span)

include hold in
theorem filled_replace (h : Filled (front ++ old ++ behind) span.start span.stop) :
    Filled (front ++ new ++ behind) span.start span.stop := by
  intro position hstart hstop
  obtain ⟨message, hmessage, hcovers⟩ := h position hstart hstop
  refine ⟨message, ?_, hcovers⟩
  simp only [List.mem_append] at hmessage ⊢
  rcases hmessage with (hfront | hmem) | hbehind
  · exact .inl (.inl hfront)
  · exact absurd hcovers (hold message hmem position)
  · exact .inr hbehind

include hcarries in
theorem carries_replace (h : ∃ screen ∈ front ++ old ++ behind, screen.Carries span) :
    ∃ screen ∈ front ++ new ++ behind, screen.Carries span := by
  obtain ⟨screen, hscreen, hcarried⟩ := h
  simp only [List.mem_append] at hscreen
  rcases hscreen with (hfront | hmem) | hbehind
  · exact ⟨screen, by simp [hfront], hcarried⟩
  · obtain ⟨screen', hscreen', hcarried'⟩ := hcarries ⟨screen, hmem, hcarried⟩
    exact ⟨screen', by simp [hscreen'], hcarried'⟩
  · exact ⟨screen, by simp [hbehind], hcarried⟩

include hold hcarries

/-- A screen takes the place of another, and carries the sequence if that did. -/
theorem Served.replace (h : span.Served (front ++ old ++ behind))
    (hnew : ∀ message ∈ new, message.reach ≤ span.stop) : span.Served (front ++ new ++ behind) := by
  induction behind using List.reverseRecOn with
  | nil =>
    rw [List.append_nil] at h ⊢
    exact h.front.append_reach hnew
  | append_singleton behind message ih =>
    rw [← List.append_assoc] at h ⊢
    refine (ih h.front).concat fun hpast => (h _ message [] rfl hpast).imp (fun hfilled => ?_) (carries_replace hcarries)
    rw [List.append_assoc _ behind] at hfilled ⊢
    exact filled_replace hold hfilled

theorem Settled.replace (h : span.Settled (front ++ old ++ behind)) :
    span.Settled (front ++ new ++ behind) := h.imp (filled_replace hold) (carries_replace hcarries)

end

end Span

/-! ### The line -/

/-- What the client was told, and will be when its queue is emptied. -/
def Sink.told (s : Sink Message) : List Message := s.line.map SinkFrame.content

/-- The output between two positions is not waiting. -/
def Queue.Clear (q : Queue Message) (start stop : ℕ) : Prop :=
  ∀ slot ∈ q.order, slot.isStream = true → ∀ frame ∈ slot.frames [], ∀ position < stop, start ≤ position →
    ¬frame.content.Covers position

instance (q : Queue Message) (start stop : ℕ) : Decidable (q.Clear start stop) :=
  inferInstanceAs (Decidable (∀ slot ∈ q.order, _))

theorem Message.not_carries_of_deferred {message : Message} (h : message.deferred = []) (span : Span) : ¬message.Carries span := by
  intro hcarries
  cases message with
  | screen generation version nextOff deferred =>
    obtain ⟨-, mark, -, hmem⟩ := hcarries
    rw [show deferred = [] from h] at hmem
    cases hmem
  | _ => exact hcarries

namespace Sink

variable {s s' : Sink Message} {span : Span}

theorem thins_discardStream (hbare : s.queue.Bare) (hclear : s.queue.Clear span.start span.stop) :
    span.Thins s.told s.discardStream.told := by
  simp only [told, line, List.map_append]
  refine (Span.thins_refl _).append ?_
  simp only [Queue.line, discardStream, Queue.order_discardStream]
  have hslots : ∀ slot ∈ s.queue.order, slot.isStream = true → ∀ frame ∈ slot.frames [],
      (∀ position, span.start ≤ position → position < span.stop → ¬frame.content.Covers position) ∧
        ¬frame.content.Carries span := by
    intro slot hslot hstream frame hframe
    refine ⟨fun position hstart hstop => hclear slot hslot hstream frame hframe position hstop hstart, ?_⟩
    cases slot with
    | stream frame' =>
      rw [List.mem_singleton.mp hframe]
      exact Message.not_carries_of_deferred (List.isEmpty_iff.mp (hbare _ hslot (by rintro ⟨⟩))) span
    | _ => cases hstream
  generalize s.queue.order = order at hslots ⊢
  induction order with
  | nil => exact .nil
  | cons slot order ih =>
    rw [List.forall_mem_cons] at hslots
    have hrest := ih hslots.2
    cases slot with
    | stream frame =>
      obtain ⟨hcovers, hcarries⟩ := hslots.1 rfl frame (List.mem_singleton_self _)
      exact .drop frame.content hrest hcovers hcarries
    | screen =>
      rw [List.filter_cons_of_pos rfl, List.flatMap_cons, List.flatMap_cons, List.map_append, List.map_append]
      exact (Span.thins_refl _).append hrest
    | _ frame => exact .keep frame.content hrest

end Sink

theorem Sink.Streams.reach {s s' : Sink Message} {bound : ℕ} (h : s.Streams bound s')
    (hs : ∀ message ∈ s.told, message.reach ≤ bound) : ∀ message ∈ s'.told, message.reach ≤ bound := by
  simp only [Sink.told, List.forall_mem_map] at hs ⊢
  induction h with
  | refl => exact hs
  | @push t u slot limit _ hslot hreach hpush ih =>
    rw [Sink.line_push hpush, List.forall_mem_append]
    refine ⟨ih, fun frame hframe => hreach frame ?_⟩
    cases slot with
    | screen => cases hslot
    | _ => exact hframe
  | discard _ ih => exact fun frame hframe => ih frame (Sink.mem_line_discardStream hframe)

namespace Attachment

variable {wire : Wire} {a a' : Attachment} {offset mark now : ℕ} {bytes : List UInt8} {grid : Screen.GridSize}
  {lastOutput : Option ℕ}

theorem streams_of_forward (h : a.forward wire offset bytes grid lastOutput mark now = (a', false)) :
    a.sink.Streams (offset + bytes.length) a'.sink := by
  have hstreams : a.sink.Streams (offset + bytes.length) (a.forward wire offset bytes grid lastOutput mark now).1.sink :=
    streams_forward _ _ _ _
  rwa [h] at hstreams

theorem heeds_of_forward (h : a.forward wire offset bytes grid lastOutput mark now = (a', false)) : a.Heeds mark a' := by
  have hheeds : a.Heeds mark (a.forward wire offset bytes grid lastOutput mark now).1 := heeds_forward _ _ _
  rwa [h] at hheeds

end Attachment

/-! ### Output and screens together -/

/-- A seat, and the watch over all of the output since its client was attached. -/
structure Watching where
  seat : Seat
  watch : Watch

namespace Watching

variable (wire : Wire)

def watchAfter (x : Watching) : Act → Watch
  | .output bytes _ scanned _ _ => x.watch.feed (if scanned then some x.seat.log else none) bytes
  | _ => x.watch

def next (x : Watching) (act : Act) : Option Watching :=
  (x.seat.next wire act).map fun seat => ⟨seat, x.watchAfter act⟩

def system : System Watching Act where
  init x := x.seat.Arrives wire ∧ x.seat.attachment.framing = .stream ∧ x.watch = .new x.seat.offset
  next := next wire

/-- A run of output finds the session's scanner where the watch stands, if it is scanned. If the client is
streamed it, the sequence it continues was streamed from its beginning, a client that returns to the stream for it
has been sent all that was recorded, and no sequence waits in output that is given up. A screen carries what was
recorded since the last one was sent, and what the one that it takes the place of carried. -/
def Heedful (x : Watching) : Act → Prop
  | .output bytes grid scanned _ now =>
    (scanned = true → x.seat.log.SameScan x.watch.log) ∧
      (x.seat.attachment.keptToScreens x.seat.offset now (x.seat.terminal.bind Terminal.lastOutput) grid = false →
        (x.watch.log.scan ≠ .ground → ∀ position < x.seat.offset, x.watch.start ≤ position →
          ∃ message ∈ x.seat.attachment.sink.told, message.Covers position) ∧
        (x.seat.attachment.mode = .screenSent → x.seat.log.mark = x.seat.attachment.deferredSent) ∧
        (streamLimit < x.seat.attachment.sink.queue.stream.charged +
            runLength wire (outputs x.seat.offset (chunks x.seat.attachment.framing.outputChunk bytes)) →
          ∀ span ∈ x.watch.spans, x.watch.Alive span → x.seat.attachment.sink.queue.Clear span.start span.stop))
  | .repaint painted _ _ _ cut now => x.seat.attachment.wants painted now = true → cut.isSome = true →
    ∀ span ∈ x.watch.spans, x.watch.Alive span →
      ((∃ frame ∈ x.seat.attachment.sink.queue.pieces, frame.content.Carries span) ∨
        ∃ mark ∈ span.kept, x.seat.attachment.deferredSent ≤ mark ∧
          (mark, span.body) ∈ x.seat.attachment.owedDeferred x.seat.log) →
        ∃ mark ∈ span.kept, (mark, span.body) ∈ x.seat.attachment.screenDeferred x.seat.log
  | _ => True

/-- The session's log has the sequence for a client that awaits screens, and the next one will carry it. -/
structure Owed (x : Watching) (span : Span) : Prop where
  reach : ∀ message ∈ x.seat.attachment.sink.told, message.reach ≤ span.stop
  mode : x.seat.attachment.mode ≠ .passthrough
  kept : ∃ mark ∈ span.kept, x.seat.attachment.deferredFrom ≤ mark ∧ x.seat.attachment.deferredSent ≤ mark ∧
    DeferredOsc.Paired x.seat.log x.watch.log mark span.mark span.body

structure Tended (x : Watching) : Prop where
  framing : x.seat.attachment.framing = .stream
  marked : x.seat.log.Marked
  counted : x.seat.log.Counted
  placed : x.watch.Placed
  position : x.watch.position = x.seat.offset
  slotted : x.seat.attachment.sink.queue.Slotted
  bare : x.seat.attachment.sink.queue.Bare
  pieces : ∀ frame ∈ x.seat.attachment.sink.queue.pieces, frame.content.reach = 0
  reach : ∀ message ∈ x.seat.attachment.sink.told, message.reach ≤ x.seat.offset
  mark : x.seat.attachment.deferredFrom ≤ x.seat.log.next
  sent : x.seat.attachment.deferredSent ≤ x.seat.log.next
  spans : ∀ span ∈ x.watch.spans, x.watch.Alive span → span.Served x.seat.attachment.sink.told ∧
    (span.Settled x.seat.attachment.sink.told ∨ x.Owed span)

variable {wire} {x x' : Watching} {act : Act} {span : Span}

/-! ### Acts -/

theorem Owed.append (h : x.Owed span) {seat : Seat} {more : List Message} (hmore : ∀ message ∈ more, message.reach = 0)
    (htold : seat.attachment.sink.told = x.seat.attachment.sink.told ++ more) (hlog : seat.log = x.seat.log)
    (hsent : seat.attachment.deferredSent = x.seat.attachment.deferredSent)
    (hmode : seat.attachment.mode ≠ .passthrough)
    (hmark : seat.attachment.deferredFrom ≤ max x.seat.attachment.deferredFrom x.seat.attachment.deferredSent) :
    (⟨seat, x.watch⟩ : Watching).Owed span := by
  obtain ⟨mark, hkept, hfrom, hbound, hpaired⟩ := h.kept
  refine ⟨fun message hmessage => ?_, hmode, mark, hkept, hmark.trans (max_le hfrom hbound), hsent ▸ hbound, hlog ▸ hpaired⟩
  rw [htold] at hmessage
  rcases List.mem_append.mp hmessage with hold | hnew
  · exact h.reach message hold
  · rw [hmore message hnew]
    exact Nat.zero_le _

/-- Nothing is recorded, and what is new in the line is not output. -/
theorem Tended.stay (h : x.Tended) {seat : Seat} (more : List Message) (hmore : ∀ message ∈ more, message.reach = 0)
    (htold : seat.attachment.sink.told = x.seat.attachment.sink.told ++ more)
    (hslotted : seat.attachment.sink.queue.Slotted) (hbare : seat.attachment.sink.queue.Bare)
    (hpieces : ∀ frame ∈ seat.attachment.sink.queue.pieces, frame ∈ x.seat.attachment.sink.queue.pieces)
    (hterminal : seat.terminal = x.seat.terminal) (hoffset : seat.offset = x.seat.offset)
    (hframing : seat.attachment.framing = x.seat.attachment.framing)
    (hsent : seat.attachment.deferredSent = x.seat.attachment.deferredSent)
    (hmark : seat.attachment.deferredFrom ≤ x.seat.log.next)
    (howed : x.seat.attachment.mode ≠ .passthrough → seat.attachment.mode ≠ .passthrough ∧
      seat.attachment.deferredFrom ≤ max x.seat.attachment.deferredFrom x.seat.attachment.deferredSent) :
    (⟨seat, x.watch⟩ : Watching).Tended := by
  have hlog : seat.log = x.seat.log := by rw [Seat.log, hterminal, Seat.log]
  refine ⟨hframing.trans h.framing, hlog ▸ h.marked, hlog ▸ h.counted, h.placed, h.position.trans hoffset.symm, hslotted,
    hbare, fun frame hframe => h.pieces frame (hpieces frame hframe), fun message hmessage => ?_, hlog ▸ hmark,
    hlog ▸ hsent ▸ h.sent, fun span hspan halive => ?_⟩
  · rw [hoffset]
    rw [htold] at hmessage
    rcases List.mem_append.mp hmessage with hold | hnew
    · exact h.reach message hold
    · rw [hmore message hnew]
      exact Nat.zero_le _
  · obtain ⟨hserved, hsettled⟩ := h.spans span hspan halive
    refine ⟨?_, hsettled.imp (fun hsettled => ?_) fun hspan => ?_⟩
    · change span.Served seat.attachment.sink.told
      rw [htold]
      exact hserved.append_reach fun message hmessage => (hmore message hmessage).trans_le (Nat.zero_le _)
    · change span.Settled seat.attachment.sink.told
      rw [htold]
      exact hsettled.mono fun _ => List.mem_append_left _
    · obtain ⟨hmode, hbound⟩ := howed hspan.mode
      exact hspan.append hmore htold hlog hsent hmode hbound

theorem Tended.rest (h : x.Tended) {a : Attachment} (hsink : a.sink = x.seat.attachment.sink)
    (hframing : a.framing = x.seat.attachment.framing) (hsent : a.deferredSent = x.seat.attachment.deferredSent)
    (hmark : a.deferredFrom ≤ x.seat.log.next)
    (howed : x.seat.attachment.mode ≠ .passthrough → a.mode ≠ .passthrough ∧
      a.deferredFrom ≤ max x.seat.attachment.deferredFrom x.seat.attachment.deferredSent) :
    (⟨{ x.seat with attachment := a }, x.watch⟩ : Watching).Tended := by
  refine h.stay [] (fun _ hnone => nomatch hnone) ?_ ?_ ?_ ?_ rfl rfl hframing hsent hmark howed <;> dsimp only <;> rw [hsink]
  · rw [List.append_nil]
  · exact h.slotted
  · exact h.bare
  · exact fun _ hframe => hframe

theorem pieces_fillFrom {q : Queue Message} {batch : List (SinkFrame Message)} (waiting : ℕ) {frame : SinkFrame Message}
    (h : frame ∈ (q.fillFrom batch waiting).1.pieces) : frame ∈ q.pieces := by
  induction waiting generalizing q batch with
  | zero => exact h
  | succ waiting ih =>
    unfold Queue.fillFrom at h
    split_ifs at h
    · split at h
      · exact h
      · rename_i hpop
        have hframe := ih h
        unfold Queue.popFront at hpop
        split at hpop <;> cases hpop <;> first | exact hframe | cases hframe
    · exact h

theorem Tended.write (h : x.Tended) {step : WriterStep} {sink : Sink Message}
    (hwrite : x.seat.attachment.sink.write step = some sink) :
    (⟨{ x.seat with attachment := { x.seat.attachment with sink } }, x.watch⟩ : Watching).Tended := by
  obtain ⟨hslotted, hline⟩ := Sink.line_write h.slotted hwrite
  refine h.stay [] (fun _ hnone => nomatch hnone) ?_ hslotted ?_ ?_ rfl rfl rfl rfl h.mark
    fun hmode => ⟨hmode, le_max_left _ _⟩
  · rw [List.append_nil]
    exact congrArg (List.map SinkFrame.content) hline
  all_goals
    cases step <;> simp only [Sink.write, Option.ite_none_right_eq_some, Option.some.injEq] at hwrite <;>
      obtain ⟨-, rfl⟩ := hwrite
  · exact h.bare
  · exact h.bare.fillFrom _ _
  · exact h.bare
  · exact h.bare
  · exact fun _ hframe => hframe
  · exact fun _ hframe => pieces_fillFrom _ hframe
  · exact fun _ hframe => hframe
  · exact fun _ hframe => hframe

theorem Tended.queue (h : x.Tended) {slot : Slot Message} {limit : ℕ} {sink : Sink Message}
    (hplain : slot.plainLimit = some limit) (hpush : x.seat.attachment.sink.push slot limit .back = .ok sink) :
    (⟨{ x.seat with attachment := { x.seat.attachment with sink } }, x.watch⟩ : Watching).Tended := by
  have hqueued : Queued x.seat.attachment { x.seat.attachment with sink } :=
    .single ⟨slot, limit, sink, hplain, hpush, rfl⟩
  have hstreams : x.seat.attachment.sink.Streams 0 sink := hqueued.streams
  have hframes : slot.frames x.seat.attachment.sink.queue.pieces = slot.frames [] := by
    refine Slot.frames_of_ne_screen ?_ _ _
    rintro rfl
    cases hplain
  refine h.stay ((slot.frames []).map SinkFrame.content) (fun message hmessage => ?_) ?_ (hstreams.slotted h.slotted)
    (hstreams.bare h.bare) ?_ rfl rfl rfl rfl h.mark fun hmode => ⟨hmode, le_max_left _ _⟩
  · obtain ⟨frame, hframe, rfl⟩ := List.mem_map.mp hmessage
    exact (Slot.isBare_of_plainLimit hplain).2 frame hframe
  · simp only [Sink.told]
    rw [Sink.line_push hpush, hframes, List.map_append]
  · rw [hstreams.same.2]
    exact fun _ hframe => hframe

theorem not_covers_of_reach {message : Message} (h : message.reach = 0) (position : ℕ) : ¬message.Covers position := by
  intro hcovers
  cases message with
  | output off bytes =>
    have hlt : position < off + bytes.length := hcovers.2
    rw [show off + bytes.length = 0 from h] at hlt
    exact Nat.not_lt_zero _ hlt
  | _ => exact hcovers

theorem cost_since {d : DeferredOsc} (h : d.Counted) (mark : ℕ) :
    DeferredOsc.cost (d.since mark) ≤ Framing.deferredBudget .stream := by
  have hcost : ∀ entries, DeferredOsc.cost entries = DeferredOsc.total entries + 2 * entries.length := by
    intro entries
    induction entries with
    | nil => rfl
    | cons entry entries ih =>
      simp only [DeferredOsc.cost, DeferredOsc.total, List.map_cons, List.sum_cons, List.length_cons] at ih ⊢
      omega
  obtain ⟨hlength, htotal⟩ := h.fits.of_sublist (List.filter_sublist (p := fun entry => mark ≤ entry.1))
  rw [hcost, DeferredOsc.since]
  have hbudget : Framing.deferredBudget .stream = 1047936 := rfl
  have hentries : deferredEntries = 16 := rfl
  have hbytes : deferredBytes = 4096 := rfl
  omega

theorem reach_pieces {a : Attachment} {nextOff : ℕ} {entries : List (ℕ × Text)} {sheet : Cut} {frame : SinkFrame Message}
    (h : frame ∈ a.pieces nextOff entries sheet) : frame.content.reach = 0 := by
  rcases List.mem_cons.1 h with rfl | htail
  · rfl
  · obtain ⟨len, -, rfl⟩ := List.mem_map.1 htail
    rfl

theorem Owed.mem (h : x.Owed span) (htended : x.Tended) :
    ∃ mark ∈ span.kept, x.seat.attachment.deferredSent ≤ mark ∧
      (mark, span.body) ∈ x.seat.attachment.owedDeferred x.seat.log := by
  obtain ⟨mark, hkept, hfrom, hsent, hpaired⟩ := h.kept
  refine ⟨mark, hkept, hsent, DeferredOsc.mem_carry_of_fits htended.marked hpaired.mem hfrom ?_⟩
  rw [htended.framing]
  exact cost_since htended.counted mark

theorem Tended.screen (h : x.Tended) {painted : Painted} {frame : Daemon.RepaintFrame} {dirty : Daemon.RowMask}
    {a : Attachment} {sheet : Cut} {version : ℕ} {pressure : ScreenPressure} {pieces : List (SinkFrame Message)}
    (hok : x.Heedful wire (.repaint painted frame dirty grid (some sheet) now))
    (hwanted : x.seat.attachment.wants painted now = true)
    (hpieces : { x.seat.attachment with version }.pieces x.seat.offset (x.seat.attachment.owedDeferred x.seat.log) sheet = pieces)
    (hsend : x.seat.attachment.sink.sendScreen pieces = .ok (a.sink, pressure))
    (hframing : a.framing = x.seat.attachment.framing) (hsent : a.deferredSent = x.seat.log.mark)
    (hmark : a.deferredFrom = x.seat.attachment.deferredFrom) :
    (⟨{ x.seat with attachment := a }, x.watch⟩ : Watching).Tended := by
  have hcarries := hok hwanted rfl
  have hnew : pieces ≠ [] := hpieces ▸ List.cons_ne_nil _ _
  obtain ⟨hslotted, front, behind, hline, hline'⟩ := Sink.line_sendScreen h.slotted hnew hsend
  have htold : x.seat.attachment.sink.told = front.map SinkFrame.content ++
      x.seat.attachment.sink.queue.pieces.map SinkFrame.content ++ behind.map SinkFrame.content := by
    rw [Sink.told, hline, List.map_append, List.map_append]
  have htold' : a.sink.told = front.map SinkFrame.content ++ pieces.map SinkFrame.content ++ behind.map SinkFrame.content := by
    rw [Sink.told, hline', List.map_append, List.map_append]
  have hreach : ∀ message ∈ pieces.map SinkFrame.content, message.reach = 0 := by
    intro message hmessage
    obtain ⟨frame, hframe, rfl⟩ := List.mem_map.mp hmessage
    exact reach_pieces (hpieces ▸ hframe)
  have hold : ∀ message ∈ x.seat.attachment.sink.queue.pieces.map SinkFrame.content, ∀ position, ¬message.Covers position := by
    intro message hmessage
    obtain ⟨frame, hframe, rfl⟩ := List.mem_map.mp hmessage
    exact not_covers_of_reach (h.pieces frame hframe)
  have hbound : ∀ {bound : ℕ}, (∀ message ∈ x.seat.attachment.sink.told, message.reach ≤ bound) →
      ∀ message ∈ a.sink.told, message.reach ≤ bound := by
    intro bound hall message hmessage
    rw [htold'] at hmessage
    rw [htold] at hall
    simp only [List.mem_append] at hmessage hall
    rcases hmessage with (hfront | hpiece) | hbehind
    · exact hall message (.inl (.inl hfront))
    · exact (hreach message hpiece).trans_le (Nat.zero_le _)
    · exact hall message (.inr hbehind)
  have hcarried : ∀ span ∈ x.watch.spans,
      (∃ mark ∈ span.kept, (mark, span.body) ∈ x.seat.attachment.screenDeferred x.seat.log) →
        ∃ screen ∈ pieces.map SinkFrame.content, screen.Carries span := by
    intro span hspan howed
    rw [← hpieces]
    refine ⟨_, List.mem_map_of_mem List.mem_cons_self, ?_, howed⟩
    exact ((h.placed.spans span hspan).2).trans_eq h.position
  refine ⟨hframing.trans h.framing, h.marked, h.counted, h.placed, h.position, hslotted, ?_, ?_, hbound h.reach,
    hmark.trans_le h.mark, hsent.le, fun span hspan halive => ?_⟩
  · rcases Sink.sendScreen_ok hsend with hsame | ⟨order, screen, hqueue, horder⟩
    · exact hsame ▸ h.bare
    · dsimp only
      rw [hqueue]
      exact h.bare.of_order horder
  · rcases Sink.sendScreen_ok hsend with hsame | ⟨order, screen, hqueue, -⟩
    · exact fun frame hframe => h.pieces frame (hsame ▸ hframe)
    · intro frame hframe
      rw [hqueue] at hframe
      exact hreach _ (List.mem_map_of_mem hframe)
  · obtain ⟨hserved, hsettled⟩ := h.spans span hspan halive
    rcases hsettled with hsettled | howed
    · have hreplaced : (∃ screen ∈ x.seat.attachment.sink.queue.pieces.map SinkFrame.content, screen.Carries span) →
          ∃ screen ∈ pieces.map SinkFrame.content, screen.Carries span := by
        rintro ⟨screen, hscreen, hcarried'⟩
        obtain ⟨frame, hframe, rfl⟩ := List.mem_map.mp hscreen
        exact hcarried span hspan (hcarries span hspan halive (.inl ⟨frame, hframe, hcarried'⟩))
      rw [htold] at hserved hsettled
      rw [htold']
      exact ⟨hserved.replace hold hreplaced fun message hmessage => (hreach message hmessage).trans_le (Nat.zero_le _),
        .inl (hsettled.replace hold hreplaced)⟩
    · refine ⟨Span.served_of_reach (hbound howed.reach), .inl (.inr ?_)⟩
      obtain ⟨screen, hscreen, hcarries'⟩ := hcarried span hspan (hcarries span hspan halive (.inr (howed.mem h)))
      exact ⟨screen, by dsimp only; rw [htold']; simp [hscreen], hcarries'⟩

theorem flatten_chunks {n : ℕ} (hn : 0 < n) (bytes : List UInt8) : (chunks n bytes).flatten = bytes := by
  suffices h : ∀ left, bytes.length ≤ left → (chunksOf n left bytes).flatten = bytes from h _ le_rfl
  intro left
  induction left generalizing bytes with
  | zero =>
    intro hlength
    rw [List.length_eq_zero_iff.mp (Nat.le_zero.mp hlength)]
    rfl
  | succ left ih =>
    intro hlength
    rw [chunksOf]
    split_ifs with hnil
    · rw [hnil]
      rfl
    · rw [List.flatten_cons, ih (bytes.drop n) (by rw [List.length_drop]; omega), List.take_append_drop]

section

variable {bytes : List UInt8} {grid : Screen.GridSize} {scanned : Bool} {floor now : ℕ} {terminal : Terminal} {a : Attachment}

theorem Tended.settled (h : x.Tended) (hok : x.Heedful wire (.output bytes grid scanned floor now))
    (hstreams : x.seat.attachment.keptToScreens x.seat.offset now (x.seat.terminal.bind Terminal.lastOutput) grid = false)
    (hspan : span ∈ x.watch.spans) (halive : x.watch.Alive span) : span.Settled x.seat.attachment.sink.told := by
  refine (h.spans span hspan halive).2.resolve_right fun howed => ?_
  obtain ⟨mark, -, -, hsent, hpaired⟩ := howed.kept
  cases hmode : x.seat.attachment.mode with
  | passthrough => exact howed.mode hmode
  | awaitingScreen => simp [Attachment.keptToScreens, hmode] at hstreams
  | screenSent =>
    have hmark : x.seat.log.next = x.seat.attachment.deferredSent := (hok.2 hstreams).2.1 hmode
    have hlt : mark < x.seat.log.next := h.marked.bounded _ hpaired.mem
    omega

theorem record_true (hterminal : x.seat.terminal = some terminal) :
    (terminal.record bytes true floor now).deferred = (x.seat.log.feed bytes).forgetBefore floor := by
  rw [Account.log_of_terminal hterminal]
  rfl

section

variable (h : x.Tended) (hsame : x.seat.log.SameScan x.watch.log) (hterminal : x.seat.terminal = some terminal)
  (hmode : a.mode ≠ .passthrough)

include h hsame hterminal hmode

/-- A sequence that ends in a run the session's scanner is given is owed a client that awaits screens. -/
theorem Tended.owed (hmark : a.deferredFrom ≤ x.seat.log.next) (hfloor : floor ≤ a.deferredFrom)
    (hsent : a.deferredSent = x.seat.attachment.deferredSent)
    (hreach : ∀ message ∈ a.sink.told, message.reach ≤ x.seat.offset)
    (hspan : span ∈ (x.watch.feed (some x.seat.log) bytes).spans) (hnew : span ∉ x.watch.spans)
    (halive : (x.watch.feed (some x.seat.log) bytes).Alive span) :
    (⟨⟨a, some (terminal.record bytes true floor now), x.seat.offset + bytes.length⟩,
      x.watch.feed (some x.seat.log) bytes⟩ : Watching).Owed span := by
  obtain ⟨kept, hkept, hnext, hpaired⟩ := Watch.paired_of_mem_feed hsame h.counted h.marked h.placed hspan hnew halive
  obtain ⟨hstop, -, -⟩ := (Watch.mem_feed hspan).resolve_left hnew
  refine ⟨fun message hmessage => ?_, hmode, kept, hkept, hmark.trans hnext, ?_, ?_⟩
  · have := hreach message hmessage
    rw [h.position] at hstop
    omega
  · rw [hsent]
    exact h.sent.trans hnext
  · change DeferredOsc.Paired (terminal.record bytes true floor now).deferred _ _ _ _
    rw [record_true hterminal]
    exact hpaired.forgetBefore (hfloor.trans (hmark.trans hnext))

theorem Tended.owes (hmark : a.deferredFrom = x.seat.attachment.deferredFrom) (hfloor : floor ≤ a.deferredFrom)
    (hsent : a.deferredSent = x.seat.attachment.deferredSent) (hsink : a.sink = x.seat.attachment.sink)
    (hspan : span ∈ x.watch.spans) (halive : (x.watch.feed (some x.seat.log) bytes).Alive span) (howed : x.Owed span) :
    (⟨⟨a, some (terminal.record bytes true floor now), x.seat.offset + bytes.length⟩,
      x.watch.feed (some x.seat.log) bytes⟩ : Watching).Owed span := by
  obtain ⟨kept, hkept, hfrom, hbound, hpaired⟩ := howed.kept
  have hfed := Watch.paired_feed hpaired hsame h.counted h.marked h.placed (h.placed.spans span hspan).1 halive
  refine ⟨hsink ▸ howed.reach, hmode, kept, hkept, hmark.trans_le hfrom, hsent.trans_le hbound, ?_⟩
  change DeferredOsc.Paired (terminal.record bytes true floor now).deferred _ _ _ _
  rw [record_true hterminal]
  exact hfed.forgetBefore (hfloor.trans (hmark.trans_le hfrom))

end

/-- Whatever becomes of a run of output, it is the spans that are left to see to. -/
theorem Tended.fed (h : x.Tended) {seat : Seat} (hnext : x.seat.next wire (.output bytes grid scanned floor now) = some seat)
    (hspans : ∀ span ∈ (x.watchAfter (.output bytes grid scanned floor now)).spans,
      (x.watchAfter (.output bytes grid scanned floor now)).Alive span → span.Served seat.attachment.sink.told ∧
        (span.Settled seat.attachment.sink.told ∨
          (⟨seat, x.watchAfter (.output bytes grid scanned floor now)⟩ : Watching).Owed span)) :
    (⟨seat, x.watchAfter (.output bytes grid scanned floor now)⟩ : Watching).Tended := by
  have hlater := Seat.later_next hnext
  have hcounted := Seat.counted_next h.counted hnext
  obtain ⟨terminal, a, hterminal, hforwarded, -, -, rfl⟩ := Seat.next_output hnext
  have hlog : x.seat.log = terminal.deferred := Account.log_of_terminal hterminal
  have hstreams := Attachment.streams_of_forward hforwarded
  have hheeds := Attachment.heeds_of_forward hforwarded
  refine ⟨(Attachment.forward_cases h.framing hforwarded).1, hlater.marked h.marked, hcounted, h.placed.feed _ _, ?_,
    hstreams.slotted h.slotted, hstreams.bare h.bare, ?_, ?_, ?_, ?_, hspans⟩
  · exact (Watch.position_feed _ _ _).trans (by rw [h.position])
  · rw [hstreams.same.2]
    exact h.pieces
  · exact hstreams.reach fun message hmessage => (h.reach message hmessage).trans (Nat.le_add_right _ _)
  · refine le_trans ?_ hlater.next
    rcases hheeds.moved with hsame | ⟨hmoved, -⟩
    · exact hsame.trans_le h.mark
    · rw [hlog]
      exact hmoved.le
  · exact hheeds.sent.trans_le (h.sent.trans hlater.next)

theorem Tended.output (h : x.Tended) (hok : x.Heedful wire (.output bytes grid scanned floor now)) {seat : Seat}
    (hnext : x.seat.next wire (.output bytes grid scanned floor now) = some seat) :
    (⟨seat, x.watchAfter (.output bytes grid scanned floor now)⟩ : Watching).Tended := by
  refine h.fed hnext fun span hspan halive => ?_
  obtain ⟨terminal, a, hterminal, hforwarded, hscanned, hfloor, rfl⟩ := Seat.next_output hnext
  have hheeds := Attachment.heeds_of_forward hforwarded
  have hsyncing : a.mode ≠ .passthrough → scanned = true := fun hmode => hscanned (by simpa [Attachment.isSyncing] using hmode)
  have hfrom : a.deferredFrom ≤ x.seat.log.next := by
    rcases hheeds.moved with hsame | ⟨hmoved, -⟩
    · exact hsame.trans_le h.mark
    · rw [Account.log_of_terminal hterminal]
      exact hmoved.le
  have halive' : span ∈ x.watch.spans → x.watch.Alive span := fun hold =>
    Watch.alive_of_feed (h.placed.spans span hold).1 halive
  have hfresh : span ∉ x.watch.spans → x.seat.offset ≤ span.stop := fun hold => by
    rw [← h.position]
    exact ((Watch.mem_feed hspan).resolve_left hold).1.le
  have hcases := (Attachment.forward_cases h.framing hforwarded).2
  rw [show terminal.lastOutput = x.seat.terminal.bind Terminal.lastOutput by rw [hterminal]; rfl] at hcases
  cases hcases with
  | kept hkept hsink hmode hmark =>
    obtain rfl := hsyncing hmode
    rw [hsink]
    by_cases hold : span ∈ x.watch.spans
    · obtain ⟨hserved, hsettled⟩ := h.spans span hold (halive' hold)
      refine ⟨hserved, hsettled.imp_right fun howed => ?_⟩
      have hmark := hmark.resolve_right fun hmoved => howed.mode hmoved.1
      exact h.owes (hok.1 rfl) hterminal hmode hmark hfloor hheeds.sent hsink hold halive howed
    · exact ⟨Span.served_of_reach fun message hmessage => (h.reach message hmessage).trans (hfresh hold),
        .inr (h.owed (hok.1 rfl) hterminal hmode hfrom hfloor hheeds.sent (hsink ▸ h.reach) hspan hold halive)⟩
  | streamed hkept frames hframes hline hmode hmark =>
    have htold : a.sink.told = x.seat.attachment.sink.told ++
        outputs x.seat.offset (chunks x.seat.attachment.framing.outputChunk bytes) := by
      rw [Sink.told, hline, List.map_append, hframes]
      rfl
    rw [htold]
    by_cases hold : span ∈ x.watch.spans
    · have hsettled := h.settled hok hkept hold (halive' hold)
      exact ⟨(h.spans span hold (halive' hold)).1.append_settled hsettled _,
        .inl (hsettled.mono fun _ => List.mem_append_left _)⟩
    · obtain ⟨hstop, -, hstart⟩ := (Watch.mem_feed hspan).resolve_left hold
      rw [h.position] at hstop hstart
      have hfilled : Filled x.seat.attachment.sink.told span.start x.seat.offset := by
        intro position hfrom hto
        rcases hstart with hbehind | ⟨heq, hscan⟩
        · exact absurd (hbehind.trans hfrom) hto.not_ge
        · exact (hok.2 hkept).1 hscan position hto (heq ▸ hfrom)
      refine ⟨Span.served_outputs (fun message hmessage => (h.reach message hmessage).trans hstop.le) hfilled _, .inl (.inl ?_)⟩
      have hall := Span.filled_outputs hfilled (chunks x.seat.attachment.framing.outputChunk bytes)
      rw [flatten_chunks (by rw [h.framing]; decide)] at hall
      have hend := ((h.placed.feed _ _).spans span hspan).2
      rw [Watch.position_feed, h.position] at hend
      exact fun position hfrom hto => hall position hfrom (hto.trans_le hend)
  | overflown hkept hline hmode hfull =>
    have hsyncs : a.mode ≠ .passthrough := hmode ▸ OutputMode.noConfusion
    obtain rfl := hsyncing hsyncs
    have htold : a.sink.told = x.seat.attachment.sink.discardStream.told := by rw [Sink.told, hline, Sink.told]
    by_cases hold : span ∈ x.watch.spans
    · have hthins := Sink.thins_discardStream h.bare ((hok.2 hkept).2.2 hfull span hold (halive' hold))
      rw [htold]
      exact ⟨(h.spans span hold (halive' hold)).1.thin hthins, .inl ((h.settled hok hkept hold (halive' hold)).thin hthins)⟩
    · have hreach : ∀ message ∈ a.sink.told, message.reach ≤ x.seat.offset := by
        rw [htold]
        intro message hmessage
        obtain ⟨frame, hframe, rfl⟩ := List.mem_map.mp hmessage
        exact h.reach _ (List.mem_map_of_mem (Sink.mem_line_discardStream hframe))
      exact ⟨Span.served_of_reach fun message hmessage => (hreach message hmessage).trans (hfresh hold),
        .inr (h.owed (hok.1 rfl) hterminal hsyncs hfrom hfloor hheeds.sent hreach hspan hold halive)⟩

end

theorem Tended.next (h : x.Tended) (hok : x.Heedful wire act) (hnext : x.next wire act = some x') : x'.Tended := by
  obtain ⟨seat, hseat, rfl⟩ := Option.map_eq_some_iff.mp hnext
  have hrest : ∀ {a : Attachment}, a.sink = x.seat.attachment.sink → a.framing = x.seat.attachment.framing →
      a.deferredSent = x.seat.attachment.deferredSent → a.deferredFrom = x.seat.attachment.deferredFrom →
      a.mode = x.seat.attachment.mode → (⟨{ x.seat with attachment := a }, x.watch⟩ : Watching).Tended :=
    fun hsink hframing hsent hmark hmode => h.rest hsink hframing hsent (hmark.trans_le h.mark) fun hsyncing =>
      ⟨hmode ▸ hsyncing, hmark.trans_le (le_max_left _ _)⟩
  -- a new generation leaves a client that awaits screens what it was owed
  have hrenewed : ∀ {a : Attachment} (generation rows : ℕ), a.sink = x.seat.attachment.sink →
      a.framing = x.seat.attachment.framing → a.deferredSent = x.seat.attachment.deferredSent →
      a.mode = ((x.seat.attachment.regrid generation rows).beginSync x.seat.log.mark).mode →
      a.deferredFrom = ((x.seat.attachment.regrid generation rows).beginSync x.seat.log.mark).deferredFrom →
      (⟨{ x.seat with attachment := a }, x.watch⟩ : Watching).Tended := by
    intro a generation rows hsink hframing hsent hmode hmark
    have hmoved := Account.deferredFrom_regrid (a := x.seat.attachment) generation rows x.seat.log.mark
    have hbound : a.deferredFrom = x.seat.attachment.deferredFrom ∨ a.deferredFrom = x.seat.log.mark := by
      rw [hmark]
      simp only [Attachment.beginSync]
      split_ifs
      · exact .inr rfl
      · exact .inl rfl
    refine h.rest hsink hframing hsent (hbound.elim (fun hsame => hsame.trans_le h.mark) fun hnext => hnext.le) fun hsyncing =>
      ⟨?_, ?_⟩
    · rw [hmode, Account.mode_regrid]
      exact OutputMode.noConfusion
    · rw [hmark]
      exact ((hmoved (.inl hsyncing)).resolve_right fun hnot => hsyncing hnot.1).trans_le (le_max_left _ _)
  cases act with
  | aside =>
    cases hseat
    exact hrest rfl rfl rfl rfl rfl
  | path framing =>
    cases hseat
    refine hrest rfl ?_ rfl rfl rfl
    simp [SessionActor.repath, h.framing]
  | queue slot =>
    obtain ⟨limit, sink, hplain, hpush, rfl⟩ := Seat.next_queue hseat
    exact h.queue hplain hpush
  | confirm generation version =>
    cases hseat
    have hmark : (x.seat.attachment.confirm generation version).deferredFrom = x.seat.attachment.deferredSent ∨
        (x.seat.attachment.confirm generation version).deferredFrom = x.seat.attachment.deferredFrom := by
      simp only [Attachment.confirm]
      split_ifs
      · exact .inl rfl
      · exact .inr rfl
    refine h.rest rfl rfl rfl ?_ fun hsyncing => ⟨hsyncing, ?_⟩
    · exact hmark.elim (fun hsent => hsent.trans_le h.sent) fun hsame => hsame.trans_le h.mark
    · exact hmark.elim (fun hsent => hsent.trans_le (le_max_right _ _)) fun hsame => hsame.trans_le (le_max_left _ _)
  | regrid generation rows =>
    obtain ⟨terminal, hterminal, rfl⟩ := Option.map_eq_some_iff.1 hseat
    refine hrenewed generation rows rfl rfl rfl ?_ ?_ <;> rw [Account.log_of_terminal hterminal]
  | restart generation rows =>
    obtain ⟨terminal, hterminal, rfl⟩ := Option.map_eq_some_iff.1 hseat
    refine hrenewed generation rows rfl rfl rfl ?_ ?_ <;> rw [Account.log_of_terminal hterminal] <;> rfl
  | repaint painted frame dirty grid cut now =>
    obtain ⟨terminal, a, hterminal, hpainted, rfl⟩ := Seat.next_repaint hseat
    cases Attachment.repaint_cases hpainted with
    | idle => exact hrest rfl rfl rfl rfl rfl
    | withheld => exact hrest rfl rfl rfl rfl rfl
    | sent sheet ledger sink pressure mode version lastRepaint screenSentAt repaintPending hwanted hcut hpending hsink hmode =>
      subst hcut
      rw [← Account.log_of_terminal hterminal] at hsink
      refine h.screen hok hwanted rfl hsink rfl ?_ rfl
      rw [Account.log_of_terminal hterminal]
  | output => exact h.output hok hseat
  | write step =>
    obtain ⟨sink, hwrite, rfl⟩ := Option.map_eq_some_iff.1 hseat
    exact h.write hwrite

theorem tended_init (h : (system wire).init x) : x.Tended := by
  obtain ⟨harrives, hframing, hwatch⟩ := h
  obtain ⟨a, hsink, -, hfrom, hsent, hgreeted⟩ := harrives.greeted
  have hpieces := hgreeted.sink.same.2
  have hstart : (Sink.new : Sink Message).queue.Slotted := .inl ⟨rfl, List.not_mem_nil⟩
  refine ⟨hframing, harrives.log.1, harrives.log.2, hwatch ▸ Watch.placed_new _, by rw [hwatch]; rfl, ?_, ?_, ?_, ?_, ?_, ?_, ?_⟩
  · exact hgreeted.sink.slotted (hsink ▸ hstart)
  · exact hgreeted.sink.bare (by rw [hsink]; exact fun slot hslot => nomatch hslot)
  · rw [hpieces, hsink]
    exact fun frame hframe => nomatch hframe
  · exact hgreeted.sink.reach (by rw [hsink]; exact fun message hmessage => nomatch hmessage)
  · rcases hgreeted.mark with hsame | hmoved
    · rw [hsame, hfrom]
      exact Nat.zero_le _
    · exact hmoved.le
  · rw [hgreeted.sent, hsent]
    exact Nat.zero_le _
  · rw [hwatch]
    exact fun span hspan => nomatch hspan

/-- Every sequence that a log of all the output still has is told in full before any output past it, or carried by
a screen that is given before. -/
theorem deferrable_served (h : (system wire).Via (Heedful wire) x) (hspan : span ∈ x.watch.spans) (halive : x.watch.Alive span) :
    span.Served (x.seat.attachment.sink.handed.map SinkFrame.content) := by
  have htended : x.Tended := h.invariant (fun _ => tended_init) fun _ _ _ hx hok hnext => hx.next hok hnext
  have hserved := (htended.spans span hspan halive).1
  rw [Sink.told, Sink.line, List.map_append] at hserved
  exact hserved.front

/-- A client that awaits its first screen, watched from there. -/
def lateWatching : Watching := ⟨Account.lateSeat, .new 0⟩

theorem lateWatching_init : (system SessionActor.evenWire).init lateWatching := ⟨Account.lateSeat_arrives.1, rfl, rfl⟩

/-- The writer takes what is queued, and the transport takes that. -/
def drained : List Act := [.write .retire, .write .take, .write (.settle false)]

def outputAt (bytes : List UInt8) (scanned : Bool) (now : ℕ) : Act := .output bytes ⟨80, 24⟩ scanned 0 now

def paintedAt (now : ℕ) : Act := .repaint .due SessionActor.noRows .empty ⟨80, 24⟩ (some ⟨1024, []⟩) now

def titleBytes : List UInt8 := [escByte, 0x5d, 0x30, 0x3b, 0x61, belByte]

/-- A title comes after the screen that is in the queue; the client has caught up with that when there is more
output, and is given the stream again. -/
theorem deferrable_lost_caughtUp :
    ∃ x, (system SessionActor.evenWire).Reachable x ∧ ∃ span ∈ x.watch.spans, x.watch.Alive span ∧
      ¬span.Served (x.seat.attachment.sink.handed.map SinkFrame.content) := by
  obtain ⟨x, hreach, span, hspan, halive, hlt, ⟨message, hmessage, hpast⟩, hnone⟩ :
      ∃ x, (system SessionActor.evenWire).Reachable x ∧ ∃ span ∈ x.watch.spans, x.watch.Alive span ∧ span.start < span.stop ∧
        (∃ message ∈ x.seat.attachment.sink.handed.map SinkFrame.content, span.stop < message.reach) ∧
        ∀ message ∈ x.seat.attachment.sink.handed.map SinkFrame.content, ¬message.Covers span.start ∧ ¬message.Carries span :=
    System.Reachable.of_run lateWatching ([outputAt [0x78] true 1000000000, paintedAt 1000000000,
      outputAt titleBytes true 1000000001] ++ drained ++ [outputAt [0x79] false 1000000002] ++ drained) lateWatching_init
      (by decide +kernel)
  refine ⟨x, hreach, span, hspan, halive, fun hserved => ?_⟩
  obtain ⟨before, behind, heq⟩ := List.append_of_mem hmessage
  rcases hserved before message behind heq hpast with hfilled | ⟨screen, hscreen, hcarries⟩
  · obtain ⟨found, hfound, hcovers⟩ := hfilled span.start le_rfl hlt
    refine (hnone found ?_).1 hcovers
    rw [heq]
    simp only [List.mem_append, List.mem_cons, List.not_mem_nil, or_false] at hfound ⊢
    exact hfound.imp_right .inl
  · exact (hnone screen (by rw [heq]; exact List.mem_append_left _ hscreen)).2 hcarries

instance (x : Watching) (act : Act) : Decidable (x.Heedful wire act) :=
  match act with
  | .output _ _ _ _ _ => inferInstanceAs (Decidable (_ ∧ (_ → _ ∧ _ ∧ _)))
  | .repaint _ _ _ _ _ _ => inferInstanceAs (Decidable (_ → _ → _))
  | .aside _ _ _ _ | .path _ | .queue _ | .confirm _ _ | .regrid _ _ | .restart _ _ | .write _ => .isTrue trivial

/-- A title that comes before the screen is carried by it, and the client is given it before the output that
follows. -/
theorem deferrable_served_titled :
    ∃ x, (system SessionActor.evenWire).Via (Heedful SessionActor.evenWire) x ∧ ∃ span ∈ x.watch.spans, x.watch.Alive span ∧
      (∃ message ∈ x.seat.attachment.sink.handed.map SinkFrame.content, span.stop < message.reach) ∧
        span.Served (x.seat.attachment.sink.handed.map SinkFrame.content) := by
  obtain ⟨x, hvia, span, hspan, halive, hpast⟩ :
      ∃ x, (system SessionActor.evenWire).Via (Heedful SessionActor.evenWire) x ∧ ∃ span ∈ x.watch.spans, x.watch.Alive span ∧
        ∃ message ∈ x.seat.attachment.sink.handed.map SinkFrame.content, span.stop < message.reach :=
    System.Via.of_run lateWatching ([outputAt titleBytes true 1000000000, paintedAt 1000000000] ++ drained ++
      [outputAt [0x79] false 1000000002] ++ drained) lateWatching_init (by decide +kernel)
  exact ⟨x, hvia, span, hspan, halive, hpast, deferrable_served hvia hspan halive⟩

end Watching

end Braid.Session
