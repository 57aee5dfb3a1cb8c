import Braid.Commands.Outbound

/-! What the client's calls do to its numbering. A number is given once, and the command
is kept and sent under it; typed bytes are numbered in the order they were typed, and
those that are not yet numbered wait. -/

namespace Braid.Commands

namespace Outbound

/-- Commands are numbered in order, and what is kept and what was sent is numbered. -/
structure Tracks (o : Outbound) : Prop where
  next_eq : o.next = min (o.numbered.length + 1) maxSeq
  seq_eq : ∀ i message, o.numbered[i]? = some message → message.seq = min (i + 1) maxSeq
  journal : ∀ entry ∈ o.journal.entries, entry.2 ∈ o.numbered
  wire : ∀ frame ∈ o.wire, frame.2 ∈ o.numbered

def typed (o : Outbound) : List UInt8 := o.numbered.flatMap fun message => message.command.typed

structure Keeps (o o' : Outbound) : Prop where
  tracks : o.Tracks → o'.Tracks
  numbered : o'.numbered = o.numbered
  pending : o'.pending = o.pending
  journal : o'.journal = o.journal

variable {o o' : Outbound} {sink : Sink} {message : ClientMessage} {command : Command} {now : ℕ}

theorem Keeps.trans {o₁ : Outbound} (h₁ : o.Keeps o₁) (h₂ : o₁.Keeps o') : o.Keeps o' :=
  ⟨h₂.tracks ∘ h₁.tracks, h₂.numbered.trans h₁.numbered, h₂.pending.trans h₁.pending, h₂.journal.trans h₁.journal⟩

theorem keeps_of_eq (hnext : o'.next = o.next) (hnumbered : o'.numbered = o.numbered) (hpending : o'.pending = o.pending)
    (hjournal : o'.journal = o.journal) (hwire : o'.wire = o.wire) : o.Keeps o' := by
  refine ⟨fun h => ⟨?_, ?_, ?_, ?_⟩, hnumbered, hpending, hjournal⟩
  · rw [hnext, hnumbered, h.next_eq]
  · rw [hnumbered]
    exact h.seq_eq
  · rw [hnumbered, hjournal]
    exact h.journal
  · rw [hnumbered, hwire]
    exact h.wire

theorem keeps_transmit (hmem : message ∈ o.numbered) : o.Keeps (o.transmit sink message).1 := by
  unfold transmit
  split
  · exact keeps_of_eq rfl rfl rfl rfl rfl
  · refine ⟨fun h => ⟨h.next_eq, h.seq_eq, h.journal, fun frame hframe => ?_⟩, rfl, rfl, rfl⟩
    obtain hframe | hframe := List.mem_append.mp hframe
    · exact h.wire frame hframe
    · rw [List.mem_singleton.mp hframe]
      exact hmem

theorem keeps_dispatch (hmem : message ∈ o.numbered) : o.Keeps (o.dispatch now message) := by
  unfold dispatch
  split
  · exact keeps_of_eq rfl rfl rfl rfl rfl
  · dsimp only
    split
    · exact (keeps_transmit hmem).trans (keeps_of_eq rfl rfl rfl rfl rfl)
    · exact keeps_transmit hmem

theorem Tracks.push (h : o.Tracks) (command : Command) : Tracks { o with
    journal := ⟨o.journal.entries ++ [(o.next, ⟨o.next, command⟩)]⟩
    next := nextSeq o.next
    numbered := o.numbered ++ [⟨o.next, command⟩] } := by
  refine ⟨?_, fun i message hi => ?_, fun entry hentry => ?_, fun frame hframe => ?_⟩
  · change nextSeq o.next = min ((o.numbered ++ [_]).length + 1) maxSeq
    rw [nextSeq, h.next_eq, List.length_append, List.length_singleton]
    omega
  · obtain hlt | hge := Nat.lt_or_ge i o.numbered.length
    · rw [List.getElem?_append_left hlt] at hi
      exact h.seq_eq i message hi
    · rw [List.getElem?_append_right hge] at hi
      have hlt := (List.getElem?_eq_some_iff.mp hi).1
      rw [List.length_singleton] at hlt
      have hi' : i = o.numbered.length := by omega
      rw [hi', Nat.sub_self, List.getElem?_cons_zero] at hi
      rw [hi', ← Option.some.inj hi]
      exact h.next_eq
  · obtain hentry | hentry := List.mem_append.mp hentry
    · exact List.mem_append_left _ (h.journal entry hentry)
    · rw [List.mem_singleton.mp hentry]
      exact List.mem_append_right _ (List.mem_singleton_self _)
  · exact List.mem_append_left _ (h.wire frame hframe)

theorem send_spec (h : o.Tracks) {seq : Option ℕ} (hsend : o.send now command = some (o', seq)) :
    o'.Tracks ∧ o'.pending = o.pending ∧
      o'.numbered = o.numbered ++ (if command.encodes then [⟨o.next, command⟩] else []) := by
  unfold send at hsend
  split_ifs at hsend with hfull
  unfold queue at hsend
  cases hencodes : command.encodes with
  | false =>
    rw [hencodes] at hsend
    cases hsend
    exact ⟨h, rfl, (List.append_nil _).symm⟩
  | true =>
    have hpush : o.journal.push o.next ⟨o.next, command⟩ = some ⟨o.journal.entries ++ [(o.next, ⟨o.next, command⟩)]⟩ :=
      if_neg hfull
    simp only [hencodes, hpush, Bool.not_true, Bool.false_eq_true, if_false] at hsend
    cases hsend
    have hkeeps := @keeps_dispatch { o with
      journal := ⟨o.journal.entries ++ [(o.next, ⟨o.next, command⟩)]⟩
      next := nextSeq o.next
      numbered := o.numbered ++ [⟨o.next, command⟩] } ⟨o.next, command⟩ now
      (List.mem_append_right _ (List.mem_singleton_self _))
    exact ⟨hkeeps.tracks (h.push command), hkeeps.pending, hkeeps.numbered⟩

/-! ### Sending again, and draining -/

theorem keeps_resendLoop (entries : List (ℕ × ClientMessage)) (hmem : ∀ entry ∈ entries, entry.2 ∈ o.numbered)
    (highest : Option ℕ) : o.Keeps (resendLoop entries o highest).1 := by
  induction entries generalizing o highest with
  | nil => exact keeps_of_eq rfl rfl rfl rfl rfl
  | cons entry entries ih =>
    obtain ⟨seq, message⟩ := entry
    have hrest : ∀ entry ∈ entries, entry.2 ∈ o.numbered := fun entry hentry => hmem entry (List.mem_cons_of_mem _ hentry)
    rw [resendLoop]
    split
    · exact ih hrest highest
    · split
      · exact keeps_of_eq rfl rfl rfl rfl rfl
      · rename_i sink hsink
        have hkeeps := @keeps_transmit o sink message (hmem _ List.mem_cons_self)
        split
        · rename_i o₁ htransmit
          rw [htransmit] at hkeeps
          exact hkeeps
        · rename_i o₁ htransmit
          rw [htransmit] at hkeeps
          exact hkeeps.trans (ih (fun entry hentry => hkeeps.numbered ▸ hrest entry hentry) _)

theorem keeps_resendFront (h : o.Tracks) : o.Keeps o.resendFront := by
  have hkeeps := @keeps_resendLoop o (o.journal.oldest resendBatch)
    (fun entry hentry => h.journal entry (List.mem_of_mem_take hentry)) none
  unfold resendFront
  split
  · rename_i o₁ hloop
    rw [hloop] at hkeeps
    exact hkeeps
  · rename_i o₁ highest hloop
    rw [hloop] at hkeeps
    exact hkeeps.trans (keeps_of_eq rfl rfl rfl rfl rfl)

theorem keeps_replay (messages : List ClientMessage) (hmem : ∀ message ∈ messages, message ∈ o.numbered) :
    o.Keeps (replay messages o).1 := by
  induction messages generalizing o with
  | nil => exact keeps_of_eq rfl rfl rfl rfl rfl
  | cons message messages ih =>
    have hrest : ∀ message ∈ messages, message ∈ o.numbered := fun m hm => hmem m (List.mem_cons_of_mem _ hm)
    rw [replay]
    split
    · exact keeps_of_eq rfl rfl rfl rfl rfl
    · split
      · exact ih hrest
      · rename_i sink hsink
        have hkeeps := @keeps_transmit o sink message (hmem _ List.mem_cons_self)
        split
        · rename_i o₁ htransmit
          rw [htransmit] at hkeeps
          exact hkeeps
        · rename_i o₁ htransmit
          rw [htransmit] at hkeeps
          exact hkeeps.trans (ih fun m hm => hkeeps.numbered ▸ hrest m hm)

theorem typed_send (h : o.Tracks) {seq : Option ℕ} (hsend : o.send now command = some (o', seq))
    (hcontrol : command.typed = []) :
    o'.Tracks ∧ o.numbered <+: o'.numbered ∧ o'.typed ++ o'.pending = o.typed ++ o.pending := by
  obtain ⟨htracks, hpending, hnumbered⟩ := send_spec h hsend
  refine ⟨htracks, ⟨_, hnumbered.symm⟩, ?_⟩
  rw [hpending, typed, hnumbered]
  split_ifs <;> simp [typed, hcontrol]

theorem drainResize_spec (h : o.Tracks) : (o.drainResize now).Tracks ∧ o.numbered <+: (o.drainResize now).numbered ∧
    (o.drainResize now).typed ++ (o.drainResize now).pending = o.typed ++ o.pending := by
  unfold drainResize
  split
  · exact ⟨h, List.prefix_rfl, rfl⟩
  · split
    · exact ⟨h, List.prefix_rfl, rfl⟩
    · rename_i o₁ seq hsend
      obtain ⟨htracks, hgrows, htyped⟩ := typed_send h hsend rfl
      exact ⟨{ htracks with }, hgrows, htyped⟩

theorem drainRepaint_spec (h : o.Tracks) : (o.drainRepaint now).Tracks ∧ o.numbered <+: (o.drainRepaint now).numbered ∧
    (o.drainRepaint now).typed ++ (o.drainRepaint now).pending = o.typed ++ o.pending := by
  unfold drainRepaint
  split
  · split
    · exact ⟨h, List.prefix_rfl, rfl⟩
    · rename_i o₁ seq hsend
      obtain ⟨htracks, hgrows, htyped⟩ := typed_send h hsend rfl
      exact ⟨{ htracks with }, hgrows, htyped⟩
  · exact ⟨h, List.prefix_rfl, rfl⟩

/-- The waiting input is numbered in order, and what the journal has no room for still waits. -/
theorem drainInput_spec {chunk : ℕ} (hchunk : chunk ≤ maxInputChunk) (passes : ℕ) (h : o.Tracks) (rest : List UInt8)
    (last : Option ℕ) : (drainInput chunk now passes o rest last).1.Tracks ∧
      o.numbered <+: (drainInput chunk now passes o rest last).1.numbered ∧
      (drainInput chunk now passes o rest last).1.typed ++ (drainInput chunk now passes o rest last).2.1 =
        o.typed ++ rest := by
  induction passes generalizing o rest last with
  | zero => exact ⟨h, List.prefix_rfl, rfl⟩
  | succ passes ih =>
    rw [drainInput]
    split
    · exact ⟨h, List.prefix_rfl, rfl⟩
    · split
      · exact ⟨h, List.prefix_rfl, rfl⟩
      · rename_i o₁ seq hsend
        obtain ⟨htracks, -, hnumbered⟩ := send_spec h hsend
        have hencodes : Command.encodes (.input (rest.take chunk)) = true :=
          decide_eq_true ((List.length_take_le _ _).trans hchunk)
        rw [hencodes, if_pos rfl] at hnumbered
        have htyped : o₁.typed = o.typed ++ rest.take chunk := by
          simp [typed, hnumbered, Command.typed]
        obtain ⟨htracks', hgrows, heq⟩ := ih htracks (rest.drop chunk) (seq <|> last)
        refine ⟨htracks', List.IsPrefix.trans ⟨_, hnumbered.symm⟩ hgrows, heq.trans ?_⟩
        rw [htyped, List.append_assoc, List.take_append_drop]

theorem inputChunk_le (carriage : Carriage) : carriage.inputChunk ≤ maxInputChunk := by
  cases carriage <;> decide

theorem drain_spec (h : o.Tracks) : (o.drain now).1.Tracks ∧ o.numbered <+: (o.drain now).1.numbered ∧
    (o.drain now).1.typed ++ (o.drain now).1.pending = o.typed ++ o.pending := by
  unfold drain
  split
  · exact ⟨h, List.prefix_rfl, rfl⟩
  · rename_i sink hsink
    obtain ⟨htracks₁, hgrows₁, heq₁⟩ := @drainResize_spec o now h
    obtain ⟨htracks₂, hgrows₂, heq₂⟩ := @drainRepaint_spec (o.drainResize now) now htracks₁
    obtain ⟨htracks, hgrows, heq⟩ := @drainInput_spec _ now _ (inputChunk_le sink.carriage)
      ((o.drainResize now).drainRepaint now).pending.length htracks₂ ((o.drainResize now).drainRepaint now).pending none
    exact ⟨{ htracks with }, (hgrows₁.trans hgrows₂).trans hgrows,
      heq.trans (heq₂.trans heq₁)⟩

end Outbound

/-! ### The writer -/

namespace ClientWriter

/-- What was typed is numbered in order, and the rest of it waits. -/
structure Sound (w : ClientWriter) : Prop where
  tracks : w.state.Tracks
  typed : w.state.typed ++ w.state.pending = w.accepted

def Leads (w w' : ClientWriter) : Prop := w'.Sound ∧ w.state.numbered <+: w'.state.numbered

variable {w w' : ClientWriter} {now : ℕ}

theorem Leads.trans {w₁ : ClientWriter} (h₁ : w.Leads w₁) (h₂ : w₁.Sound → w₁.Leads w') : w.Leads w' :=
  ⟨(h₂ h₁.1).1, h₁.2.trans (h₂ h₁.1).2⟩

section

variable (h : w.Sound)

include h

theorem Sound.keeps {state : Outbound} (hkeeps : w.state.Keeps state) : w.Leads { w with state } := by
  refine ⟨⟨hkeeps.tracks h.tracks, ?_⟩, hkeeps.numbered ▸ List.prefix_rfl⟩
  rw [← h.typed, Outbound.typed, hkeeps.numbered, hkeeps.pending]
  rfl

theorem Sound.same (hnext : w'.state.next = w.state.next) (hnumbered : w'.state.numbered = w.state.numbered)
    (hpending : w'.state.pending = w.state.pending) (hjournal : w'.state.journal = w.state.journal)
    (hwire : w'.state.wire = w.state.wire) (haccepted : w'.accepted = w.accepted) : w.Leads w' := by
  obtain ⟨hsound, hgrows⟩ := h.keeps (Outbound.keeps_of_eq hnext hnumbered hpending hjournal hwire)
  exact ⟨⟨hsound.tracks, haccepted ▸ hsound.typed⟩, hgrows⟩

theorem Sound.drain : w.Leads (w.drain now).1 := by
  obtain ⟨htracks, hgrows, heq⟩ := @Outbound.drain_spec w.state now h.tracks
  exact ⟨⟨htracks, heq.trans h.typed⟩, hgrows⟩

theorem Sound.input (bytes : List UInt8) : w.Leads (w.input bytes now).1 := by
  unfold ClientWriter.input
  have htyped : w.Leads { w with
      state := { w.state with
        pending := w.state.pending ++ bytes.take (min (maxPendingInput - w.state.pending.length) bytes.length) }
      accepted := w.accepted ++ bytes.take (min (maxPendingInput - w.state.pending.length) bytes.length) } := by
    refine ⟨⟨{ h.tracks with }, ?_⟩, List.prefix_rfl⟩
    change w.state.typed ++ (_ ++ _) = _ ++ _
    rw [← List.append_assoc, h.typed]
  have hdrain := htyped.trans fun hsound => @Sound.drain _ now hsound
  dsimp only
  split
  · exact hdrain
  · exact hdrain.trans fun hsound => hsound.same rfl rfl rfl rfl rfl rfl

theorem Sound.send {command : Command} (hcontrol : command.typed = []) {state : Outbound} {seq : Option ℕ}
    (hsend : w.state.send now command = some (state, seq)) : w.Leads { w with state } := by
  obtain ⟨htracks, hgrows, htyped⟩ := Outbound.typed_send h.tracks hsend hcontrol
  exact ⟨⟨htracks, htyped.trans h.typed⟩, hgrows⟩

theorem Sound.resize (size : Screen.GridSize) : w.Leads (w.resize size now) := by
  unfold ClientWriter.resize
  split
  · exact h.same rfl rfl rfl rfl rfl rfl
  · exact h.send rfl ‹_›

theorem Sound.requestRepaint : w.Leads (w.requestRepaint now) := by
  unfold ClientWriter.requestRepaint
  split
  · exact ⟨h, List.prefix_rfl⟩
  · dsimp only
    split
    · exact h.same rfl rfl rfl rfl rfl rfl
    · have hflag : Sound { w with repaintOutstanding := true } := ⟨h.tracks, h.typed⟩
      exact hflag.send rfl ‹_›

theorem Sound.forwardOpen (stream : ℕ) (target : ForwardTarget) :
    w.Leads (w.forwardOpen stream target now).1 := by
  unfold ClientWriter.forwardOpen
  split
  · exact ⟨h, List.prefix_rfl⟩
  · exact h.send rfl ‹_›

theorem Sound.acknowledge (highest : ℕ) : w.Leads (w.acknowledge highest now) := by
  refine Leads.trans ?_ fun hsound => hsound.drain
  have hjournal : w.Leads { w with state := { w.state with journal := w.state.journal.acknowledge highest } } :=
    ⟨⟨⟨h.tracks.next_eq, h.tracks.seq_eq,
      fun entry hentry => h.tracks.journal entry ((List.dropWhile_sublist _).subset hentry), h.tracks.wire⟩, h.typed⟩,
      List.prefix_rfl⟩
  split
  · split
    · rename_i resend hstalled
      have hresend : w.Leads { w with state := { w.state with journal := w.state.journal.acknowledge highest, resend } } :=
        hjournal.trans fun hsound => hsound.same rfl rfl rfl rfl rfl rfl
      exact hresend.trans fun hsound => hsound.keeps (Outbound.keeps_resendFront hsound.tracks)
    · exact hjournal.trans fun hsound => hsound.same rfl rfl rfl rfl rfl rfl
  · exact hjournal

theorem Sound.retransmit (epoch : ℕ) : w.Leads (w.retransmit now epoch).1 := by
  unfold ClientWriter.retransmit
  split
  · exact ⟨h, List.prefix_rfl⟩
  · split
    · exact h.same rfl rfl rfl rfl rfl rfl
    · dsimp only
      have hresend : w.Leads { w with state := { w.state with resend := (w.state.resend.due now).1 } } :=
        h.same rfl rfl rfl rfl rfl rfl
      split
      · exact hresend.trans fun hsound => hsound.keeps (Outbound.keeps_resendFront hsound.tracks)
      · exact hresend

theorem Sound.disconnect : w.Leads w.disconnect := h.same rfl rfl rfl rfl rfl rfl

theorem Sound.reconnect (output : Sink) : w.Leads (w.reconnect output now).1 := by
  unfold ClientWriter.reconnect
  dsimp only
  have hsink : w.Leads { w with state := { w.state with output := some output, resend := .new } } :=
    h.same rfl rfl rfl rfl rfl rfl
  have hkeeps := @Outbound.keeps_replay { w.state with output := some output, resend := .new } w.state.journal.all
    fun message hmem => by
      obtain ⟨entry, hentry, rfl⟩ := List.mem_map.mp hmem
      exact h.tracks.journal entry hentry
  split
  · rename_i state hreplay
    rw [hreplay] at hkeeps
    exact hsink.trans fun hsound => hsound.keeps hkeeps
  · rename_i state hreplay
    rw [hreplay] at hkeeps
    have hdrain := (hsink.trans fun hsound => hsound.keeps hkeeps).trans fun hsound => @Sound.drain _ now hsound
    exact hdrain.trans fun hsound => hsound.same rfl rfl rfl rfl rfl rfl

end

end ClientWriter

end Braid.Commands
