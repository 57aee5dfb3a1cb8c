import Braid.Daemon.Query
import Braid.Session.Line

/-! The deferred sequences that screens carry were in the output. The scanner is given output only while some
client is sent whole screens, and keeps what it has of an unfinished sequence when the last of them returns to
the stream. So a body it finishes later is in one piece in the output only if no output passed it by in
between, or it was between sequences then; that the query filter holds most unfinished sequences back is not used.
An escape that is repeated at the end of a body is left out of what is recorded, too. -/

namespace Braid.Session

open Foundation

/-- The attachment is sent whole screens while the next output arrives, whatever that is. -/
def Attachment.keptToScreens (a : Attachment) (offset now : ℕ) (lastOutput : Option ℕ) (grid : Screen.GridSize) : Bool :=
  !a.fits grid || a.mode == .awaitingScreen || a.mode == .screenSent && !a.mayReturnToPassthrough offset now lastOutput

theorem Attachment.settleBeforeOutput_cases (a : Attachment) (offset now : ℕ) (lastOutput : Option ℕ) (grid : Screen.GridSize) :
    ∃ mode repaintPending, a.settleBeforeOutput offset now lastOutput grid = { a with mode, repaintPending } ∧
      a.keptToScreens offset now lastOutput grid = (decide (mode ≠ .passthrough) || !a.fits grid) ∧
      (mode = .passthrough → a.mode = .passthrough ∨ a.fits grid = true) := by
  unfold settleBeforeOutput settle keptToScreens
  split_ifs with hsent hreturns hfits
  · exact ⟨_, _, rfl, by simp [hsent, hreturns, hfits], fun _ => .inr hfits⟩
  · exact ⟨_, _, rfl, by simp [hfits], nofun⟩
  · exact ⟨a.mode, _, rfl, by simp [hsent, hreturns], .inl⟩
  · refine ⟨a.mode, a.repaintPending, rfl, ?_, .inl⟩
    cases hmode : a.mode with
    | passthrough => cases a.fits grid <;> rfl
    | awaitingScreen => cases a.fits grid <;> rfl
    | screenSent => exact absurd hmode hsent

theorem Attachment.isSyncing_forward {wire : Wire} {a : Attachment} {offset now mark : ℕ} {lastOutput : Option ℕ}
    {grid : Screen.GridSize} (h : a.keptToScreens offset now lastOutput grid = true) (bytes : List UInt8) :
    (a.forward wire offset bytes grid lastOutput mark now).1.isSyncing = true := by
  have hbegun : ∀ b : Attachment, (b.beginSync mark).isSyncing = true := fun b => by
    simp only [isSyncing, beginSync]
    split_ifs with hmode <;> simp [hmode]
  obtain ⟨mode, repaintPending, hsettled, hkept, -⟩ := a.settleBeforeOutput_cases offset now lastOutput grid
  have hsyncs : (isSyncing { a with mode, repaintPending } || !fits { a with mode, repaintPending } grid) = true :=
    hkept.symm.trans h
  unfold forward
  rw [hsettled, if_pos hsyncs]
  exact hbegun _

/-- The output a step brings. -/
def Step.output? : Step → Option (List UInt8 × World)
  | .event (.ptyOutput bytes) w => bytes.map fun bytes => (bytes, w)
  | _ => none

namespace SessionActor

/-- Whenever there is output, no escape is repeated in it, and the scanner is between sequences or some client
is sent whole screens. -/
def Unbroken (s : SessionActor) (step : Step) : Prop :=
  ∀ run ∈ step.output?, ∀ terminal ∈ s.terminal, terminal.deferred.SingleEscapes run.1 ∧
    (terminal.deferred.scan = .ground ∨ run.2.flushed = some true ∧
      ∃ a ∈ s.attachments, a.keptToScreens s.offset run.2.now terminal.lastOutput s.size = true)

instance (s : SessionActor) (step : Step) : Decidable (s.Unbroken step) :=
  inferInstanceAs (Decidable (∀ run ∈ step.output?, _))

def log (s : SessionActor) : DeferredOsc := s.terminal.elim .new Terminal.deferred

/-- All of the output there has been. -/
def forwarded (s : SessionActor) : List UInt8 := s.terminal.elim [] Terminal.forwarded

variable {wire : Wire} {s s' : SessionActor} {w : World}

/-! ### The scanner keeps its place -/

theorem scanning_of_keptToScreens {terminal : Terminal} (hterminal : s.terminal = some terminal)
    (h : ∃ a ∈ s.attachments, a.keptToScreens s.offset w.now terminal.lastOutput s.size = true) (bytes : List UInt8) :
    s.scanning wire bytes w = true := by
  obtain ⟨a, ha, hkept⟩ := h
  rw [scanning, handed, hterminal]
  exact List.any_eq_true.2 ⟨_, List.mem_map_of_mem ha, Attachment.isSyncing_forward hkept bytes⟩

/-- Output that is taken down unbroken leaves the scanner where it stands in the output. -/
theorem scans_record {terminal : Terminal} (h : terminal.deferred.Scans terminal.forwarded) {bytes : List UInt8}
    {scanned : Bool} (hsingle : terminal.deferred.SingleEscapes bytes)
    (hskip : scanned = false → terminal.deferred.scan = .ground) (floor now : ℕ) :
    (terminal.record bytes scanned floor now).deferred.Scans (terminal.record bytes scanned floor now).forwarded := by
  refine DeferredOsc.Scans.forgetBefore ?_ floor
  cases scanned with
  | true => exact h.feed hsingle
  | false => exact h.skip (hskip rfl) bytes

theorem scans_output (horderly : s.Orderly) (h : s.log.Scans s.forwarded) {bytes : Option (List UInt8)}
    (hok : s.Unbroken (.event (.ptyOutput bytes) w)) (hturn : s.output wire bytes w = (s', .ok ())) :
    s'.log.Scans s'.forwarded := by
  rcases output_terminal horderly hturn with hsame | ⟨terminal, run, recorded, hterminal, rfl, hrecorded, hforwarded, hlog⟩
  · rw [log, forwarded, hsame]
    exact h
  · rw [log, forwarded, hterminal] at h
    obtain ⟨hsingle, hground⟩ := hok (run, w) rfl terminal hterminal
    rw [log, forwarded, hrecorded]
    rcases hlog with ⟨hunhanded, hdeferred⟩ | ⟨-, floor, rfl⟩
    · -- nobody is handed the output, so nobody is sent screens either
      have hground : terminal.deferred.scan = .ground := by
        refine hground.resolve_right ?_
        rintro ⟨hflushed, a, ha, -⟩
        rcases hunhanded with hfalse | hempty
        · rw [hfalse] at hflushed
          cases hflushed
        · rw [hempty] at ha
          cases ha
      simp only [Option.elim_some, hdeferred, hforwarded]
      exact h.skip hground run
    · refine scans_record h hsingle (fun hnot => hground.resolve_right ?_) floor w.now
      rintro ⟨-, hkept⟩
      exact Bool.false_ne_true (hnot.symm.trans (scanning_of_keptToScreens hterminal hkept run))

/-! ### What the screens carry -/

/-- The scanner stands in the output, and so does every deferred sequence in the client's line. -/
structure GenuineSeat (v : Seat) : Prop where
  scans : v.log.Scans v.forwarded
  carried : ∀ frame ∈ v.attachment.sink.line, ∀ entry ∈ frame.content.deferred, Occurs entry.2 v.forwarded

theorem steady_genuine : Steady wire GenuineSeat := by
  intro v act v' hact h hnext
  obtain ⟨hterminal, -⟩ := Seat.next_context hact hnext
  have hlog : v'.log = v.log := by rw [Seat.log, hterminal, Seat.log]
  have hforwarded : v'.forwarded = v.forwarded := by rw [Seat.forwarded, hterminal, Seat.forwarded]
  refine ⟨by rw [hlog, hforwarded]; exact h.scans, fun frame hframe entry hentry => ?_⟩
  rw [hforwarded]
  rcases Seat.adds_next hnext frame hframe with hold | hnew
  · exact h.carried frame hold entry hentry
  · exact h.scans.entries entry (hnew entry hentry)

theorem genuine_arrives {v : Seat} (h : v.Arrives wire) (hscans : v.log.Scans v.forwarded) : GenuineSeat v := by
  obtain ⟨a, hsink, -, -, -, hgreeted⟩ := h.greeted
  have hadds : Adds [] a v.attachment := hgreeted.sink.adds
  refine ⟨hscans, fun frame hframe entry hentry => ?_⟩
  rcases hadds frame hframe with hold | hnew
  · rw [hsink] at hold
    cases hold
  · exact nomatch hnew entry hentry

theorem genuine_output {v v' : Seat} {bytes : List UInt8} {grid : Screen.GridSize} {scanned : Bool} {floor now : ℕ}
    (h : GenuineSeat v) (hsingle : v.log.SingleEscapes bytes) (hskip : scanned = false → v.log.scan = .ground)
    (hnext : v.next wire (.output bytes grid scanned floor now) = some v') : GenuineSeat v' := by
  have hadds := Seat.adds_next hnext
  obtain ⟨terminal, attachment, hterminal, -, -, -, rfl⟩ := Seat.next_output hnext
  obtain ⟨hscans, hcarried⟩ := h
  rw [Seat.log, hterminal] at hsingle hskip
  rw [Seat.log, Seat.forwarded, hterminal] at hscans
  rw [Seat.forwarded, hterminal] at hcarried
  rw [Seat.log, hterminal] at hadds
  refine ⟨scans_record hscans hsingle hskip floor now, fun frame hframe entry hentry => Occurs.append ?_ bytes⟩
  rcases hadds frame hframe with hold | hnew
  · exact hcarried frame hold entry hentry
  · exact hscans.entries entry (hnew entry hentry)

/-- The same of a whole session. The scanner is there also when nobody is attached. -/
def Genuine (s : SessionActor) : Prop := Seats GenuineSeat s ∧ s.Orderly ∧ s.log.Scans s.forwarded

theorem closed_genuine (wire : Wire) : Closed wire Genuine :=
  (closed_seats steady_genuine).and
    (closed_terminal wire fun t => (t.elim DeferredOsc.new Terminal.deferred).Scans (t.elim [] Terminal.forwarded))

theorem Genuine.attach (h : s.Genuine) {id : ℕ} (hid : id ∉ s.attachments.map Attachment.id) (client : ℕ) (closed : Bool)
    (confirmed : Option ConfirmedOutput) (framing : Framing) (w : World) :
    (s.attach wire id client (if closed then Sink.new.close else .new) confirmed framing w).Genuine := by
  obtain ⟨hseats, horderly, hscans⟩ := h
  obtain ⟨hterminal, -⟩ := attach_spec wire hseats.kept hid client closed confirmed framing w
  refine ⟨hseats.attach (fun a ha => genuine_arrives ha hscans) hid .., horderly.attach hid .., ?_⟩
  rw [log, forwarded, hterminal]
  exact hscans

theorem Genuine.output (h : s.Genuine) {bytes : Option (List UInt8)} (hok : s.Unbroken (.event (.ptyOutput bytes) w))
    (hturn : s.output wire bytes w = (s', .ok ())) : s'.Genuine := by
  obtain ⟨hseats, horderly, hscans⟩ := h
  have houtput : Seats GenuineSeat s' := by
    refine hseats.output steady_genuine (fun run hrun _ a ha floor v' hact => ?_) hturn
    subst hrun
    obtain ⟨terminal, _, hterminal, -⟩ := Seat.next_output hact
    obtain ⟨hsingle, hground⟩ := hok (run, w) rfl terminal hterminal
    have hlog : (s.seat a).log = terminal.deferred := by
      rw [Seat.log, hterminal]
      rfl
    refine genuine_output (hseats.seats a ha) (hlog ▸ hsingle) (fun hnot => ?_) hact
    rw [hlog]
    refine hground.resolve_right ?_
    rintro ⟨-, hkept⟩
    exact Bool.false_ne_true (hnot.symm.trans (scanning_of_keptToScreens hterminal hkept run))
  exact ⟨houtput, houtput.orderly, scans_output horderly hscans hok hturn⟩

/-- Every deferred sequence that a screen carries is the body of a sequence of the output. -/
theorem deferred_occurs (h : (system wire).Via Unbroken s) :
    ∀ a ∈ s.attachments, ∀ frame ∈ a.sink.line, ∀ entry ∈ frame.content.deferred, Occurs entry.2 s.forwarded := by
  have hgenuine : s.Genuine := by
    refine h.invariant ?_ ?_
    · rintro _ ⟨terminal, size, now, rfl⟩
      refine ⟨seats_new terminal size now, orderly_new _ _ _, ?_⟩
      cases terminal <;> exact ⟨trivial, fun _ hentry => nomatch hentry⟩
    · intro s step s' hs hok hnext
      refine (closed_genuine wire).next hs hnext ?_ ?_
      · rintro id client closed confirmed framing w rfl
        exact hs.attach (fresh_of_next hnext) ..
      · rintro bytes w t rfl hturn
        exact hs.output hok hturn
  exact fun a ha => (hgenuine.1.seats a ha).carried

/-- An emulator that answers nothing. -/
def mute : Daemon.Emulator Unit Unit := ⟨fun s _ => .ok (.silent, s)⟩

/-- A title that ends in one escape too many. -/
def doubledTitle : List UInt8 := [escByte, 0x5d, 0x30, 0x3b, 0x62, escByte, escByte, 0x5c]

/-- The title is set while a client awaits a screen. -/
def doubledRun : List Step :=
  [.event (.attach 1 7 false (some ⟨0, 0⟩) .stream) (paintWorld 0),
    .event (.ptyOutput (some doubledTitle)) (paintWorld 0), .tick (paintWorld 100000000)]

/-- The query filter passes the title on as it is, and a screen carries a body that no terminator follows. -/
theorem deferred_unterminated_doubledRun :
    (Daemon.QueryFilter.new.filter doubledTitle [] mute ()).toOption.map (·.2.1) = some doubledTitle ∧
    ∃ s, (system evenWire).Reachable s ∧ s.forwarded = doubledTitle ∧ ∃ a ∈ s.attachments, ∃ frame ∈ a.sink.line,
      ∃ entry ∈ frame.content.deferred, ¬Occurs entry.2 s.forwarded := by
  refine ⟨by decide +kernel, ?_⟩
  obtain ⟨s, hreach, hall, a, ha, frame, hframe, entry, hentry, hnot⟩ : ∃ s, (system evenWire).Reachable s ∧
      s.forwarded = doubledTitle ∧ ∃ a ∈ s.attachments, ∃ frame ∈ a.sink.line, ∃ entry ∈ frame.content.deferred,
        ¬([escByte, 0x5d] ++ entry.2.utf8 ++ [belByte] <:+: s.forwarded ∨
          [escByte, 0x5d] ++ entry.2.utf8 ++ [escByte, 0x5c] <:+: s.forwarded) :=
    System.Reachable.of_run (new true ⟨80, 24⟩ 0) doubledRun ⟨true, _, 0, rfl⟩ (by decide +kernel)
  exact ⟨s, hreach, hall, a, ha, frame, hframe, entry, hentry, fun h => hnot h.isInfix⟩

/-- The title is set while the client is sent screens. -/
def wholeRun : List Step :=
  [.event (.attach 1 7 false (some ⟨0, 0⟩) .stream) (paintWorld 0),
    .event (.ptyOutput (some [escByte, 0x5d, 0x30, 0x3b, 0x61, belByte])) (paintWorld 0), .tick (paintWorld 100000000)]

theorem deferred_occurs_wholeRun :
    ∃ s, (system evenWire).Via Unbroken s ∧
      (∃ a ∈ s.attachments, ∃ frame ∈ a.sink.line, frame.content.deferred ≠ []) ∧
      ∀ a ∈ s.attachments, ∀ frame ∈ a.sink.line, ∀ entry ∈ frame.content.deferred, Occurs entry.2 s.forwarded := by
  obtain ⟨s, hvia, hcarried⟩ : ∃ s, (system evenWire).Via Unbroken s ∧
      ∃ a ∈ s.attachments, ∃ frame ∈ a.sink.line, frame.content.deferred ≠ [] :=
    System.Via.of_run (new true ⟨80, 24⟩ 0) wholeRun ⟨true, _, 0, rfl⟩ (by decide +kernel)
  exact ⟨s, hvia, hcarried, deferred_occurs hvia⟩

end SessionActor

end Braid.Session
