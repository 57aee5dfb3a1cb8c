import Braid.Session.Genuine

/-! How the output and the screens stand in the line of a client. A screen has one place in the line, which a
newer one takes over, and what the writer takes moves from the one end of the line to the other without
changing it. A run of output goes to the end of the line whole, or the client is kept to screens, or there is
no room for it and the output that waits is given up. -/

namespace Braid.Session

open Foundation

variable {α : Type*}

/-! ### One screen in the order -/

/-- The order has one entry for a screen while one waits, and none otherwise. -/
def Queue.Slotted (q : Queue α) : Prop :=
  q.pieces = [] ∧ Slot.screen ∉ q.order ∨
    q.pieces ≠ [] ∧ ∃ front behind, q.order = front ++ .screen :: behind ∧ Slot.screen ∉ front ∧ Slot.screen ∉ behind

theorem Slot.frames_of_ne_screen {slot : Slot α} (h : slot ≠ .screen) (pieces pieces' : List (SinkFrame α)) :
    slot.frames pieces = slot.frames pieces' := by
  cases slot with
  | screen => exact absurd rfl h
  | _ => rfl

def Slot.isStream : Slot α → Bool
  | .stream _ => true
  | _ => false

namespace Queue

variable {q q' : Queue α}

theorem order_discardStream (q : Queue α) : q.discardStream.order = q.order.filter (!·.isStream) := by
  refine List.filter_congr fun slot _ => ?_
  cases slot <;> rfl

theorem flatMap_frames {order : List (Slot α)} (h : Slot.screen ∉ order) (pieces pieces' : List (SinkFrame α)) :
    order.flatMap (Slot.frames pieces) = order.flatMap (Slot.frames pieces') :=
  List.flatMap_congr fun _ hslot => Slot.frames_of_ne_screen (ne_of_mem_of_not_mem hslot h) _ _

theorem Slotted.admit_ {slot : Slot α} {limit : ℕ} (h : q.Slotted) (hslot : slot ≠ .screen)
    (hadmitted : q.admit_ slot limit .back = some q') : q'.Slotted ∧ q'.order = q.order ++ [slot] ∧ q'.pieces = q.pieces := by
  have hsame : q'.order = q.order ++ [slot] ∧ q'.pieces = q.pieces := by
    unfold Queue.admit_ at hadmitted
    dsimp only at hadmitted
    split_ifs at hadmitted <;> cases hadmitted <;> exact ⟨rfl, rfl⟩
  refine ⟨?_, hsame⟩
  have hlast : Slot.screen ∉ [slot] := fun hmem => hslot (List.mem_singleton.mp hmem).symm
  rw [Slotted, hsame.1, hsame.2]
  refine h.imp (fun ⟨hnone, horder⟩ => ⟨hnone, ?_⟩) fun ⟨hsome, front, behind, horder, hfront, hbehind⟩ =>
    ⟨hsome, front, behind ++ [slot], ?_, hfront, ?_⟩
  · exact fun hmem => (List.mem_append.mp hmem).elim horder hlast
  · rw [horder, List.append_assoc, List.cons_append]
  · exact fun hmem => (List.mem_append.mp hmem).elim hbehind hlast

theorem Slotted.discardStream (h : q.Slotted) : q.discardStream.Slotted := by
  rw [Slotted, order_discardStream]
  rcases h with ⟨hnone, horder⟩ | ⟨hsome, front, behind, horder, hfront, hbehind⟩
  · exact .inl ⟨hnone, fun hmem => horder (List.mem_of_mem_filter hmem)⟩
  · refine .inr ⟨hsome, front.filter (!·.isStream), behind.filter (!·.isStream), ?_, ?_, ?_⟩
    · rw [horder, List.filter_append, List.filter_cons_of_pos rfl]
    · exact fun hmem => hfront (List.mem_of_mem_filter hmem)
    · exact fun hmem => hbehind (List.mem_of_mem_filter hmem)

theorem Slotted.popFront {frames : List (SinkFrame α)} (h : q.Slotted) (hpop : q.popFront = some (q', frames)) :
    q'.Slotted ∧ frames ++ q'.line = q.line := by
  have hrest : ∀ {slot : Slot α} {rest : List (Slot α)}, q.order = slot :: rest → slot ≠ .screen →
      q.pieces = [] ∧ Slot.screen ∉ rest ∨ q.pieces ≠ [] ∧ ∃ front behind, rest = front ++ .screen :: behind ∧
        Slot.screen ∉ front ∧ Slot.screen ∉ behind := by
    intro slot rest horder hslot
    obtain ⟨hnone, hnot⟩ | ⟨hsome, front, behind, heq, hfront, hbehind⟩ := h
    · exact .inl ⟨hnone, fun hmem => hnot (horder ▸ List.mem_cons_of_mem _ hmem)⟩
    · rw [horder] at heq
      refine .inr ⟨hsome, ?_⟩
      cases front with
      | nil => exact absurd (List.cons.inj heq).1 hslot
      | cons first front =>
        exact ⟨front, behind, (List.cons.inj heq).2, fun hmem => hfront (List.mem_cons_of_mem _ hmem), hbehind⟩
  unfold Queue.popFront at hpop
  split at hpop
  · cases hpop
  · rename_i horder
    cases hpop
    exact ⟨hrest horder (by rintro ⟨⟩), by simp [line, horder, Slot.frames]⟩
  · rename_i horder
    cases hpop
    exact ⟨hrest horder (by rintro ⟨⟩), by simp [line, horder, Slot.frames]⟩
  · rename_i horder
    cases hpop
    exact ⟨hrest horder (by rintro ⟨⟩), by simp [line, horder, Slot.frames]⟩
  · rename_i rest horder
    cases hpop
    have hnone : Slot.screen ∉ rest := by
      rcases h with ⟨-, hnot⟩ | ⟨-, front, behind, heq, hfront, hbehind⟩
      · exact absurd (horder ▸ List.mem_cons_self) hnot
      · rw [horder] at heq
        cases front with
        | nil => exact (List.cons.inj heq).2 ▸ hbehind
        | cons first front => exact absurd ((List.cons.inj heq).1 ▸ List.mem_cons_self) hfront
    refine ⟨.inl ⟨rfl, hnone⟩, ?_⟩
    simp only [line, horder, List.flatMap_cons, Slot.frames]
    rw [flatMap_frames hnone]

theorem Slotted.fillFrom (h : q.Slotted) (batch : List (SinkFrame α)) (waiting : ℕ) :
    (q.fillFrom batch waiting).1.Slotted ∧
      (q.fillFrom batch waiting).2 ++ (q.fillFrom batch waiting).1.line = batch ++ q.line := by
  induction waiting generalizing q batch with
  | zero => exact ⟨h, rfl⟩
  | succ waiting ih =>
    unfold Queue.fillFrom
    split_ifs
    · split
      · exact ⟨h, rfl⟩
      · rename_i hpop
        obtain ⟨hslotted, hline⟩ := h.popFront hpop
        obtain ⟨hslotted', hline'⟩ := ih hslotted (batch ++ _)
        exact ⟨hslotted', hline'.trans (by rw [List.append_assoc, hline])⟩
    · exact ⟨h, rfl⟩

end Queue

namespace Sink

variable {s s' : Sink α}

theorem line_write {step : WriterStep} (h : s.queue.Slotted) (hwrite : s.write step = some s') :
    s'.queue.Slotted ∧ s'.line = s.line := by
  cases step with
  | take =>
    simp only [write, Option.ite_none_right_eq_some, Option.some.injEq] at hwrite
    obtain ⟨-, rfl⟩ := hwrite
    obtain ⟨hslotted, hline⟩ := h.fillFrom [] s.queue.order.length
    refine ⟨hslotted, ?_⟩
    change s.handed ++ _ ++ _ = _
    rw [List.append_assoc]
    exact congrArg (s.handed ++ ·) hline
  | _ =>
    simp only [write, Option.ite_none_right_eq_some, Option.some.injEq] at hwrite
    obtain ⟨-, rfl⟩ := hwrite
    exact ⟨h, rfl⟩

/-- A screen stands where the one that waited stood, or at the end. -/
theorem line_sendScreen {pieces : List (SinkFrame α)} {pressure : ScreenPressure} (h : s.queue.Slotted)
    (hpieces : pieces ≠ []) (hsend : s.sendScreen pieces = .ok (s', pressure)) :
    s'.queue.Slotted ∧ ∃ front behind, s.line = front ++ s.queue.pieces ++ behind ∧ s'.line = front ++ pieces ++ behind := by
  unfold sendScreen at hsend
  by_cases hclosed : s.queue.closed = true
  · rw [if_pos hclosed] at hsend
    cases hsend
  rw [if_neg hclosed, if_neg hpieces] at hsend
  obtain ⟨rfl, -⟩ := hsend
  rcases h with ⟨hnone, hnot⟩ | ⟨hsome, front, behind, horder, hfront, hbehind⟩
  · refine ⟨.inr ⟨hpieces, s.queue.order, [], if_pos hnone, hnot, List.not_mem_nil⟩, s.line, [], ?_, ?_⟩
    · rw [hnone, List.append_nil, List.append_nil]
    · simp only [line, Queue.line, hnone, if_true, List.flatMap_append, List.append_assoc]
      rw [Queue.flatMap_frames hnot pieces []]
      rfl
  · refine ⟨.inr ⟨hpieces, front, behind, (if_neg hsome).trans horder, hfront, hbehind⟩,
      s.handed ++ front.flatMap (Slot.frames []), behind.flatMap (Slot.frames []), ?_, ?_⟩
    · simp only [line, Queue.line, horder, List.flatMap_append, List.flatMap_cons, Slot.frames, List.append_assoc]
      rw [Queue.flatMap_frames hfront s.queue.pieces [], Queue.flatMap_frames hbehind s.queue.pieces []]
    · simp only [line, Queue.line, if_neg hsome, horder, List.flatMap_append, List.flatMap_cons, Slot.frames, List.append_assoc]
      rw [Queue.flatMap_frames hfront pieces [], Queue.flatMap_frames hbehind pieces []]

end Sink

theorem Sink.Streams.slotted {s s' : Sink Message} {bound : ℕ} (h : s.Streams bound s') (hs : s.queue.Slotted) :
    s'.queue.Slotted := by
  induction h with
  | refl => exact hs
  | push _ hslot _ hpush ih =>
    obtain ⟨queue, -, hadmitted, rfl⟩ := push_ok hpush
    refine (ih.admit_ ?_ hadmitted).1
    rintro rfl
    cases hslot
  | discard _ ih => exact ih.discardStream

/-! ### A run of output -/

/-- The messages of a run that is cut into chunks. -/
def outputs : ℕ → List (List UInt8) → List Message
  | _, [] => []
  | offset, chunk :: rest => .output offset chunk :: outputs (offset + chunk.length) rest

def runLength (wire : Wire) (messages : List Message) : ℕ := (messages.map fun message => (wire message).getD 0).sum

namespace Sink

variable {s s' : Sink Message}

theorem sendOutput_ok {frame : SinkFrame Message} (h : s.sendOutput frame = .ok s') :
    s'.line = s.line ++ [frame] ∧ s'.discardStream.line = s.discardStream.line ∧
      s'.queue.stream.charged = s.queue.stream.charged + frame.len := by
  refine ⟨line_push h, ?_⟩
  obtain ⟨queue, -, hadmitted, rfl⟩ := push_ok h
  simp only [Queue.admit_, Option.ite_none_left_eq_some] at hadmitted
  obtain ⟨-, hadmitted⟩ := hadmitted
  cases hadmitted
  constructor
  · simp only [line, Sink.discardStream, Queue.line, Queue.order_discardStream, List.filter_append]
    simp [Slot.isStream, Queue.discardStream]
  · simp only [Lane.charged, Slot.bytes, Slot.isForward]
    simp only [Bool.false_eq_true, if_false]
    omega

theorem sendOutput_full {frame : SinkFrame Message} (h : s.sendOutput frame = .error .full) :
    streamLimit < s.queue.stream.charged + frame.len := by
  unfold sendOutput push at h
  split_ifs at h
  · cases h
  · split at h
    · rename_i hadmitted
      by_contra hroom
      simp [Queue.admit_, Slot.isForward, Slot.bytes, hroom] at hadmitted
    · cases h

end Sink

namespace Attachment

variable {wire : Wire} {a a' : Attachment} {offset mark now : ℕ}

theorem pushChunks_cases {chunks : List (List UInt8)} (h : a.pushChunks wire mark offset chunks = (a', .ok ())) :
    ∃ sink : Sink Message,
      a' = { a with sink } ∧ (∃ frames, frames.map SinkFrame.content = outputs offset chunks ∧ sink.line = a.sink.line ++ frames) ∨
      a' = { a with sink }.beginSync mark ∧ sink.line = a.sink.discardStream.line ∧
        streamLimit < a.sink.queue.stream.charged + runLength wire (outputs offset chunks) := by
  induction chunks generalizing a offset with
  | nil =>
    cases h
    exact ⟨_, .inl ⟨rfl, [], rfl, (List.append_nil _).symm⟩⟩
  | cons chunk rest ih =>
    unfold pushChunks at h
    split at h
    · cases h
    · rename_i len hlen
      have hlength : runLength wire (outputs offset (chunk :: rest)) =
          len + runLength wire (outputs (offset + chunk.length) rest) := by simp [runLength, outputs, hlen]
      split at h
      · rename_i sent hsent
        obtain ⟨hline, hdiscard, hcharged⟩ := Sink.sendOutput_ok hsent
        obtain ⟨sink, ⟨rfl, frames, hframes, hsink⟩ | ⟨rfl, hsink, hfull⟩⟩ := ih h
        · refine ⟨sink, .inl ⟨rfl, ⟨.output offset chunk, len⟩ :: frames, by rw [List.map_cons, hframes, outputs], ?_⟩⟩
          rw [hsink, hline, List.append_assoc, List.singleton_append]
        · refine ⟨sink, .inr ⟨rfl, hsink.trans hdiscard, ?_⟩⟩
          dsimp only at hfull hcharged
          omega
      · rename_i hsent
        cases h
        refine ⟨a.sink.discardStream, .inr ⟨rfl, rfl, ?_⟩⟩
        have hover := Sink.sendOutput_full hsent
        dsimp only at hover
        omega
      · cases h

/-- What a run of output does to the attachment of a stream client. -/
inductive Forwarded (wire : Wire) (a : Attachment) (offset : ℕ) (bytes : List UInt8) (mark : ℕ) (kept : Bool)
    (a' : Attachment) : Prop where
  | kept (hkept : kept = true) (hsink : a'.sink = a.sink) (hmode : a'.mode ≠ .passthrough)
      (hmark : a'.deferredFrom = a.deferredFrom ∨ a.mode = .passthrough ∧ a'.deferredFrom = mark)
  | streamed (hkept : kept = false) (frames : List (SinkFrame Message))
      (hframes : frames.map SinkFrame.content = outputs offset (chunks a.framing.outputChunk bytes))
      (hline : a'.sink.line = a.sink.line ++ frames) (hmode : a'.mode = .passthrough)
      (hmark : a'.deferredFrom = a.deferredFrom)
  | overflown (hkept : kept = false) (hline : a'.sink.line = a.sink.discardStream.line) (hmode : a'.mode = .awaitingScreen)
      (hfull : streamLimit < a.sink.queue.stream.charged +
        runLength wire (outputs offset (chunks a.framing.outputChunk bytes)))

theorem mode_beginSync (a : Attachment) (mark : ℕ) : (a.beginSync mark).mode ≠ .passthrough := by
  unfold beginSync
  dsimp only
  split_ifs with hmode
  · exact OutputMode.noConfusion
  · exact hmode

theorem forward_cases {bytes : List UInt8} {grid : Screen.GridSize} {lastOutput : Option ℕ} (hframing : a.framing = .stream)
    (h : a.forward wire offset bytes grid lastOutput mark now = (a', false)) :
    a'.framing = .stream ∧ Forwarded wire a offset bytes mark (a.keptToScreens offset now lastOutput grid) a' := by
  obtain ⟨mode, repaintPending, hsettled, hkept, hreturns⟩ := a.settleBeforeOutput_cases offset now lastOutput grid
  unfold forward at h
  dsimp only at h
  rw [hsettled] at h
  split_ifs at h with hsyncs
  · cases h
    refine ⟨hframing, .kept (hkept.trans hsyncs) rfl (mode_beginSync _ _) ?_⟩
    simp only [beginSync]
    split_ifs with hmoved
    · refine .inr ⟨(hreturns hmoved.1).resolve_right fun hfits => ?_, rfl⟩
      simp [isSyncing, hmoved.1, fits] at hsyncs
      simp [fits, hsyncs] at hfits
    · exact .inl rfl
  · have hfalse : a.keptToScreens offset now lastOutput grid = false := hkept.trans (Bool.eq_false_iff.mpr hsyncs)
    have hmode : mode = .passthrough := by
      rw [hfalse] at hkept
      simpa using (Bool.or_eq_false_iff.mp hkept.symm).1
    subst hmode
    have hstirred : ∃ link, stirredBy { a with mode := .passthrough, repaintPending } bytes =
        { a with mode := .passthrough, repaintPending, link } := by
      unfold stirredBy
      split_ifs <;> exact ⟨_, rfl⟩
    obtain ⟨link, hlink⟩ := hstirred
    unfold pushOutput at h
    dsimp only at h
    rw [hlink] at h
    have hnear : farBehind { a with mode := .passthrough, repaintPending, link } offset = false := by
      simp [farBehind, hframing]
    rw [hnear] at h
    split at h
    · rename_i b result hpushed
      cases h
      obtain ⟨sink, ⟨rfl, frames, hframes, hline⟩ | ⟨rfl, hline, hfull⟩⟩ := pushChunks_cases hpushed
      · exact ⟨hframing, .streamed hfalse frames hframes hline rfl rfl⟩
      · exact ⟨hframing, .overflown hfalse hline rfl hfull⟩
    · cases h

end Attachment

end Braid.Session
