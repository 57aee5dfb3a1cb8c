import Braid.Session.Roster

/-! How long the actor sleeps after a tick. A tick asks every link for its probe, pumps the forwards of the
attached clients and paints what is due, and each of these leaves its own clock some time away. The deadline
also counts the forwards of clients that are not attached, which the pump skips: if the timer of one of those
has run out, the actor does not sleep. -/

namespace Braid.Session

open Forwarding

/-! ### The timers of forwards -/

section
variable {now budget wrap : ℕ}

theorem due_transmitted {t : Timer} (h : t.due now = false) (e : Option ℕ) : (t.transmitted e now).due now = false := by
  have hinterval : ∀ u : Timer, 0 < u.interval := fun u =>
    lt_min (lt_of_lt_of_le (by decide : 0 < Timer.minWait) (le_max_right _ _)) (by decide)
  have harm : (t.arm now).due now = false := by
    unfold Timer.arm
    split_ifs
    · change decide (t.interval ≤ now - now) = false
      have := hinterval t
      rw [decide_eq_false_iff_not]
      omega
    · exact h
  unfold Timer.transmitted
  dsimp only
  split
  · split_ifs
    · exact harm
    · exact harm
  · exact harm

theorem due_pollTransmit (now wrap : ℕ) (s : Stream) (hbudget : 0 < budget) :
    (s.pollTransmit now budget wrap).1.send.timer.due now = false := by
  have hwake : (s.send.wake now).timer.due now = false := by
    unfold Sender.wake
    split_ifs with hdue
    · rfl
    · simpa using hdue
  have hne : min budget maxForwardChunk ≠ 0 := (lt_min hbudget (by decide)).ne'
  change (s.send.pollTransmit now budget wrap).1.timer.due now = false
  unfold Sender.pollTransmit
  rw [if_neg hne]
  exact hwake

theorem deadline_pos_iff (s : Stream) :
    (∀ left, s.deadline now = some left → 0 < left) ↔ s.send.timer.due now = false := by
  simp only [Stream.deadline, Sender.deadline, Timer.remaining, Timer.due, Option.map_eq_some_iff]
  cases s.send.timer.waiting with
  | none => simp
  | some since =>
    simp only [Option.some.injEq, exists_eq_left', forall_eq', Option.any_some, decide_eq_false_iff_not]
    omega

end

theorem forwardChunk_pos (f : Framing) : 0 < f.forwardChunk := by
  refine lt_min ?_ (by decide)
  cases f with
  | stream => decide
  | datagram budget =>
    have := budget.2
    simp only [Framing.frameBudget, minDatagramFrame, forwardOverhead] at *
    omega

namespace LiveForward

variable {wire : Wire} {a : Attachment} {id now budget wrap : ℕ}

def due (f : LiveForward) (now : ℕ) : Bool := f.forward.stream.send.timer.due now

theorem due_transmit_of_not_due (room : ℕ) {stream : Stream} (hbudget : 0 < budget)
    (h : stream.send.timer.due now = false) :
    (transmit wire id now budget wrap room a stream).2.send.timer.due now = false := by
  induction room generalizing a stream with
  | zero => exact h
  | succ room ih =>
    have hpoll := due_pollTransmit now wrap stream hbudget
    unfold transmit
    split <;> rename_i heq <;> rw [heq] at hpoll
    · exact hpoll
    · split
      · exact hpoll
      · exact ih (due_transmitted hpoll _)

theorem due_transmit (room : ℕ) {stream : Stream} (hbudget : 0 < budget) :
    (transmit wire id now budget wrap (room + 1) a stream).2.send.timer.due now = false := by
  have hpoll := due_pollTransmit now wrap stream hbudget
  unfold transmit
  split <;> rename_i heq <;> rw [heq] at hpoll
  · exact hpoll
  · split
    · exact hpoll
    · exact due_transmit_of_not_due room hbudget (due_transmitted hpoll _)

theorem due_drainToSocket (wrap : ℕ) {f : LiveForward} (h : f.due now = false) : (f.drainToSocket wrap).1.due now = false := by
  unfold drainToSocket
  split_ifs <;> exact h

theorem due_pump (f : LiveForward) : (f.pump wire id now wrap a).2.1.due now = false := by
  have hgrant : ∀ g : Daemon.Forward, g.grantCredit.stream = g.stream := by
    intro g
    unfold Daemon.Forward.grantCredit
    split_ifs <;> rfl
  unfold pump
  dsimp only
  generalize acknowledge wire id a f.forward = acknowledged
  have hsent : LiveForward.due { f with forward := { acknowledged.2 with stream := (transmit wire id now
      acknowledged.1.framing.forwardChunk wrap (forwardLane + 1) acknowledged.1 acknowledged.2.stream).2 } } now = false :=
    due_transmit _ (forwardChunk_pos _)
  have hdrained := due_drainToSocket wrap hsent
  split <;> rename_i heq <;> rw [heq] at hdrained
  · exact hdrained
  · simp only [due, hgrant]
    exact hdrained

end LiveForward

/-! ### The clocks of an attachment -/

namespace Attachment

variable {wire : Wire} {a a' : Attachment} {now offset : ℕ}

/-- The attachment stays through a tick: its sink is open, its client has not been silent too long, and its
sink has room for a probe that is due. -/
def keeps (wire : Wire) (now : ℕ) (a : Attachment) : Bool :=
  !a.sink.isClosed && !a.link.isDead now &&
    (!a.link.probeDue now || (wire (.ping a.link.nextToken a.link.intervalMs)).any fun len =>
      decide (a.sink.queue.stream.charged + len ≤ streamLimit + controlSlack))

/-- The next probe is some time away, and the sink is open. -/
structure Rested (now : ℕ) (a : Attachment) : Prop where
  ping : 0 < a.link.pingInterval - (now - a.link.lastProbe)
  opened : a.sink.isClosed = false

theorem Rested.queues (h : Rested now a) (hq : a.Queues a') : Rested now a' := by
  refine ⟨?_, hq.closed.trans h.opened⟩
  rw [hq.sink]
  exact h.ping

theorem send_isOk (wire : Wire) (hopen : a.sink.isClosed = false) (message : Message) :
    (a.send wire message).isOk = (wire message).any fun len =>
      decide (a.sink.queue.stream.charged + len ≤ streamLimit + controlSlack) := by
  have hclosed : a.sink.queue.closed = false := hopen
  unfold send
  cases wire message with
  | none => rfl
  | some len =>
    have hroom : (a.sink.sendControl ⟨message, len⟩ .back).isOk =
        decide (a.sink.queue.stream.charged + len ≤ streamLimit + controlSlack) := by
      simp only [Sink.sendControl, Sink.push, hclosed, Queue.admit_, Slot.isForward, Slot.bytes]
      by_cases hfull : streamLimit + controlSlack < a.sink.queue.stream.charged + len
      · simp [hfull, Except.isOk, Except.toBool]
      · simp [hfull, Except.isOk, Except.toBool, not_lt.1 hfull]
    rw [Option.any_some, ← hroom]
    dsimp only
    cases a.sink.sendControl ⟨message, len⟩ .back <;> rfl

theorem probe_spec (wire : Wire) (now : ℕ) (a : Attachment) :
    (a.probe wire now).2 = !a.keeps wire now ∧ ((a.probe wire now).2 = false → Rested now (a.probe wire now).1) := by
  unfold probe keeps
  by_cases hgone : (a.sink.isClosed || a.link.isDead now) = true
  · rw [if_pos hgone]
    rw [Bool.or_eq_true] at hgone
    refine ⟨?_, by rintro ⟨⟩⟩
    rcases hgone with h | h <;> simp [h]
  · rw [if_neg hgone]
    rw [Bool.not_eq_true, Bool.or_eq_false_iff] at hgone
    obtain ⟨hopen, halive⟩ := hgone
    have hwaits := a.link.probe_waits now
    by_cases hdue : a.link.probeDue now = true
    · have hprobe : a.link.probe now = ((a.link.probe now).1, some a.link.nextToken) := by
        simp [LinkTiming.probe, hdue]
      have hms : (a.link.probe now).1.intervalMs = a.link.intervalMs := by
        simp [LinkTiming.probe, hdue, LinkTiming.intervalMs, LinkTiming.pingInterval]
      have hsend := send_isOk (a := { a with link := (a.link.probe now).1 }) wire hopen
        (.ping a.link.nextToken a.link.intervalMs)
      have hrested : Rested now { a with link := (a.link.probe now).1 } := ⟨hwaits, hopen⟩
      rw [hprobe]
      simp only [hms, hopen, halive, hdue, Bool.not_false, Bool.not_true, Bool.true_and, Bool.false_or]
      split <;> rename_i heq <;> rw [heq] at hsend
      · exact ⟨congrArg (!·) hsend, fun _ => hrested.queues (queued_send rfl heq).queues⟩
      · exact ⟨congrArg (!·) hsend, by rintro ⟨⟩⟩
    · rw [Bool.not_eq_true] at hdue
      have hprobe : a.link.probe now = (a.link, none) := by simp [LinkTiming.probe, hdue]
      rw [hprobe] at hwaits ⊢
      simp only [hopen, halive, hdue, Bool.not_false, Bool.true_and, Bool.true_or, Bool.not_true, true_and]
      exact fun _ => ⟨hwaits, hopen⟩

theorem deadline_pos (hrested : Rested now a) (hhold : a.repaintPending = true → 0 < a.repaintHold now) :
    0 < a.deadline now := by
  unfold deadline
  split_ifs with hpending
  · exact lt_min hrested.ping (hhold hpending)
  · exact hrested.ping

theorem hold_of_painted (h : a.lastRepaint = now) : 0 < a.repaintHold now := by
  have := a.link.repaintInterval_pos
  unfold repaintHold
  omega

theorem hold_of_not_due (h : a.repaintDue now = false) (hpending : a.repaintPending = true) : 0 < a.repaintHold now := by
  simpa [repaintDue, hpending, Nat.pos_iff_ne_zero] using h

theorem pushScreen_frame (frame : Daemon.RepaintFrame) (offset : ℕ) (deferred : List (ℕ × Foundation.Text))
    (cut : Option Cut) : (a.pushScreen frame offset deferred cut).1.lastRepaint = a.lastRepaint ∧
      (a.pushScreen frame offset deferred cut).1.link = a.link := by
  unfold pushScreen
  dsimp only
  split
  · exact ⟨rfl, rfl⟩
  · split <;> exact ⟨rfl, rfl⟩

theorem pushScreen_ok (hopen : a.sink.isClosed = false) (frame : Daemon.RepaintFrame) (offset : ℕ)
    (deferred : List (ℕ × Foundation.Text)) (cut : Option Cut) (error : SinkError) :
    (a.pushScreen frame offset deferred cut).2 ≠ .error error := by
  have hclosed : a.sink.queue.closed = false := hopen
  unfold pushScreen
  dsimp only
  split
  · exact nofun
  · split
    · exact nofun
    · rename_i heq
      unfold Sink.sendScreen at heq
      rw [hclosed] at heq
      simp only [Bool.false_eq_true, if_false] at heq
      split_ifs at heq

theorem repaint_rested (hrested : Rested now a) (offset : ℕ) (frame : Daemon.RepaintFrame) (dirty : Daemon.RowMask)
    (grid : Screen.GridSize) (lastOutput : Option ℕ) (log : DeferredOsc) (cut : Option Cut) :
    (a.repaint .due frame dirty offset grid lastOutput log cut now).2 = false ∧
      0 < (a.repaint .due frame dirty offset grid lastOutput log cut now).1.deadline now := by
  have hpainted : ∀ b : Attachment, b.lastRepaint = now → b.link = a.link → 0 < b.deadline now := by
    intro b hnow hlink
    have hping : 0 < b.link.pingInterval - (now - b.link.lastProbe) := hlink ▸ hrested.ping
    unfold deadline
    split_ifs
    · exact lt_min hping (hold_of_painted hnow)
    · exact hping
  unfold repaint
  dsimp only
  split_ifs with hwants
  · generalize hb : { a with ledger := a.ledger.noteDamage dirty }.painting .due now = b
    have hopen : b.sink.isClosed = false := by rw [← hb]; exact hrested.opened
    generalize { a with ledger := a.ledger.noteDamage dirty }.owedDeferred log = deferred
    have hframe := pushScreen_frame (a := b) frame offset deferred cut
    have hok := pushScreen_ok hopen frame offset deferred cut
    have hnow : b.lastRepaint = now := by rw [← hb]; rfl
    have hlink : b.link = a.link := by rw [← hb]; rfl
    rw [hnow, hlink] at hframe
    split <;> rename_i heq <;> rw [heq] at hframe hok
    · refine ⟨rfl, ?_⟩
      split_ifs
      · unfold settle
        split_ifs <;> exact hpainted _ hframe.1 hframe.2
      · exact hpainted _ hframe.1 hframe.2
    · exact ⟨rfl, hpainted _ hframe.1 hframe.2⟩
    · exact absurd rfl (hok _)
  · refine ⟨rfl, deadline_pos ⟨hrested.ping, hrested.opened⟩ ?_⟩
    exact hold_of_not_due (by simpa [wants] using hwants)

end Attachment

namespace SessionActor

variable {wire : Wire} {s s' : SessionActor} {now wrap : ℕ} {w : World}

/-! ### Pumping -/

theorem clients_pumped {l₁ l₂ : List Attachment} {a : Attachment} {id : ℕ} (f : LiveForward) :
    (l₁ ++ (f.pump wire id now wrap a).1 :: l₂).map Attachment.client = (l₁ ++ a :: l₂).map Attachment.client := by
  rw [(LiveForward.queued_pump f).queues.sink]
  simp

/-- What the pump makes of an entry: one of an attached client has no timer that has run out, and one of a
client that is away is as it was. -/
theorem mem_pumpAll {attachments : List Attachment} {live : List (ForwardKey × LiveForward)}
    {entry : (ForwardKey × LiveForward) × Pumped} (h : entry ∈ (pumpAll wire now wrap attachments live).2) :
    (entry.1.1.1 ∈ attachments.map Attachment.client ∧ entry.1.2.due now = false) ∨
      (entry.1.1.1 ∉ attachments.map Attachment.client ∧ entry.1 ∈ live ∧ entry.2 = .kept) := by
  induction live generalizing attachments with
  | nil => cases h
  | cons head rest ih =>
    obtain ⟨key, f⟩ := head
    rcases serve_cases (·.client == key.1) (f.pump wire key.2 now wrap) attachments with
      ⟨hnone, haway⟩ | ⟨l₁, a, l₂, hlist, -, ha, hsome⟩
    · rw [pumpAll, hnone] at h
      rcases List.mem_cons.1 h with rfl | h
      · exact .inr ⟨by simpa using haway, List.mem_cons_self, rfl⟩
      · exact (ih h).imp_right fun ⟨hout, hmem, hkept⟩ => ⟨hout, List.mem_cons_of_mem _ hmem, hkept⟩
    · rw [pumpAll, hsome] at h
      rcases List.mem_cons.1 h with rfl | h
      · refine .inl ⟨?_, LiveForward.due_pump f⟩
        rw [hlist, ← (by simpa using ha : a.client = key.1)]
        simp
      · have hrest := ih h
        rw [clients_pumped, ← hlist] at hrest
        exact hrest.imp_right fun ⟨hout, hmem, hkept⟩ => ⟨hout, List.mem_cons_of_mem _ hmem, hkept⟩

theorem kept_pumpAll {attachments : List Attachment} {live : List (ForwardKey × LiveForward)}
    {entry : ForwardKey × LiveForward} (h : entry ∈ live) (haway : entry.1.1 ∉ attachments.map Attachment.client) :
    (entry, .kept) ∈ (pumpAll wire now wrap attachments live).2 := by
  induction live generalizing attachments with
  | nil => cases h
  | cons head rest ih =>
    obtain ⟨key, f⟩ := head
    rcases serve_cases (·.client == key.1) (f.pump wire key.2 now wrap) attachments with
      ⟨hnone, -⟩ | ⟨l₁, a, l₂, hlist, -, ha, hsome⟩
    · rw [pumpAll, hnone]
      rcases List.mem_cons.1 h with rfl | h
      · exact List.mem_cons_self
      · exact List.mem_cons_of_mem _ (ih h haway)
    · rw [pumpAll, hsome]
      rcases List.mem_cons.1 h with rfl | h
      · refine absurd ?_ haway
        rw [hlist, ← (by simpa using ha : a.client = key.1)]
        simp
      · refine List.mem_cons_of_mem _ (ih h ?_)
        rwa [clients_pumped, ← hlist]

theorem forwards_offerForward (client : ℕ) (message : Message) :
    (s.offerForward wire client message).forwards = s.forwards := by
  unfold offerForward
  split <;> rfl

theorem queues_offerForward (client : ℕ) {message : Message} (hplain : message.isPlain = true) :
    List.Forall₂ Attachment.Queues s.attachments (s.offerForward wire client message).attachments := by
  unfold offerForward
  split
  · exact List.forall₂_same.2 fun a _ => .refl a
  · rename_i h
    refine serve_forall₂ h .refl fun a => ?_
    cases ha : a.sendForward wire message with
    | error _ => exact .refl a
    | ok a' => exact (Attachment.queued_sendForward hplain ha).queues

theorem live_retire (t : Forwards) (key : ForwardKey) : (t.retire key).live = t.live.filter (·.1 ≠ key) := by
  unfold Forwards.retire
  split_ifs <;> rfl

theorem mem_live_finishForward {key : ForwardKey} {outcome : Pumped} {e : ForwardKey × LiveForward} :
    e ∈ (s.finishForward wire key outcome).forwards.live ↔
      e ∈ s.forwards.live ∧ (outcome ≠ .kept → e.1 ≠ key) := by
  cases outcome with
  | kept => simp [finishForward]
  | failed => simp [finishForward, retireForward, forwards_offerForward, live_retire]
  | done => simp [finishForward, live_retire]

theorem queues_finishForward (key : ForwardKey) (outcome : Pumped) :
    List.Forall₂ Attachment.Queues s.attachments (s.finishForward wire key outcome).attachments := by
  cases outcome with
  | kept => exact List.forall₂_same.2 fun a _ => .refl a
  | failed => exact queues_offerForward _ rfl
  | done => exact List.forall₂_same.2 fun a _ => .refl a

theorem finishAll_spec (pumped : List ((ForwardKey × LiveForward) × Pumped)) :
    (∀ e, e ∈ (pumped.foldl (fun s entry => s.finishForward wire entry.1.1 entry.2) s).forwards.live ↔
      e ∈ s.forwards.live ∧ ∀ x ∈ pumped, x.2 ≠ .kept → e.1 ≠ x.1.1) ∧
    List.Forall₂ Attachment.Queues s.attachments
      (pumped.foldl (fun s entry => s.finishForward wire entry.1.1 entry.2) s).attachments := by
  induction pumped generalizing s with
  | nil => exact ⟨by simp, List.forall₂_same.2 fun a _ => .refl a⟩
  | cons entry rest ih =>
    obtain ⟨hlive, hqueues⟩ := ih (s := s.finishForward wire entry.1.1 entry.2)
    refine ⟨fun e => ?_, forall₂_trans (queues_finishForward _ _) hqueues .trans⟩
    rw [List.foldl_cons, hlive e, mem_live_finishForward, and_assoc]
    simp only [List.mem_cons, forall_eq_or_imp]

theorem queues_pumpForwards (wire : Wire) (now wrap : ℕ) (s : SessionActor) :
    List.Forall₂ Attachment.Queues s.attachments (s.pumpForwards wire now wrap).attachments := by
  generalize hpumped : pumpAll wire now wrap s.attachments s.forwards.live = pumped
  have hqueues : List.Forall₂ Attachment.Queues s.attachments pumped.1 := 
    hpumped ▸ (pumpAll_queued _ _).imp fun _ _ => Queued.queues
  unfold pumpForwards
  rw [hpumped]
  exact forall₂_trans hqueues (finishAll_spec (s := { s with
    attachments := pumped.1
    forwards := { s.forwards with live := pumped.2.map Prod.fst } }) pumped.2).2 .trans

/-- After the pump no timer has run out, unless it was that of a forward whose client is away. -/
theorem pumped_rests (wire : Wire) (now wrap : ℕ) (s : SessionActor) :
    (∀ e ∈ (s.pumpForwards wire now wrap).forwards.live, e.2.due now = false) ↔
      ∀ e ∈ s.forwards.live, e.1.1 ∉ s.attachments.map Attachment.client → e.2.due now = false := by
  have hlive : ∀ e, e ∈ (s.pumpForwards wire now wrap).forwards.live ↔
      e ∈ (pumpAll wire now wrap s.attachments s.forwards.live).2.map Prod.fst ∧
        ∀ x ∈ (pumpAll wire now wrap s.attachments s.forwards.live).2, x.2 ≠ .kept → e.1 ≠ x.1.1 :=
    fun e => (finishAll_spec _).1 e
  constructor
  · intro h e he haway
    refine h e ((hlive e).2 ⟨List.mem_map.2 ⟨_, kept_pumpAll he haway, rfl⟩, fun x hx hout heq => ?_⟩)
    rcases mem_pumpAll hx with ⟨hin, -⟩ | ⟨-, -, hkept⟩
    · exact haway (heq.symm ▸ hin)
    · exact hout hkept
  · intro h e he
    obtain ⟨x, hx, rfl⟩ := List.mem_map.1 ((hlive e).1 he).1
    rcases mem_pumpAll hx with ⟨-, hrests⟩ | ⟨haway, hmem, -⟩
    · exact hrests
    · exact h _ hmem haway

/-! ### Painting -/

theorem repaint_rests (h : s.Orderly) (hrested : ∀ a ∈ s.attachments, a.Rested w.now)
    (hok : s.repaint .due w = (s', .ok ())) :
    s'.forwards.live = s.forwards.live ∧ ∀ a ∈ s'.attachments, 0 < a.deadline w.now := by
  unfold SessionActor.repaint at hok
  split_ifs at hok with hnone
  · cases hok
    refine ⟨rfl, fun a ha => Attachment.deadline_pos (hrested a ha) (Attachment.hold_of_not_due ?_)⟩
    simpa [Attachment.wants] using List.all_eq_true.1 hnone a ha
  · split at hok
    · rename_i hterminal
      cases hok
      refine ⟨rfl, fun a ha => Attachment.deadline_pos (hrested a ha) fun hpending => ?_⟩
      rw [h.calm (by rw [hterminal]; rfl) a ha] at hpending
      cases hpending
    · rename_i terminal hterminal
      split at hok
      · cases hok
      · rename_i frame dirty _
        have hs' := (Prod.mk.inj hok).1
        have hkin : ∀ a : Attachment, Attachment.Kin (s.terminal.isSome = true) a
            (a.repaint .due frame dirty s.offset s.size terminal.lastOutput terminal.deferred (w.cut a.id) w.now).1 := fun a =>
          .of_entry (by rw [hterminal]; rfl) (Attachment.entry_repaint ..)
        obtain ⟨hleaves, hstays⟩ := sweep_leaves h hkin w.now
        have hall := fun a ha =>
          Attachment.repaint_rested (hrested a ha) s.offset frame dirty s.size terminal.lastOutput terminal.deferred (w.cut a.id)
        rw [hs'] at hleaves hstays
        constructor
        · have hgone : s.attachments.filter (fun a =>
              (a.repaint .due frame dirty s.offset s.size terminal.lastOutput terminal.deferred (w.cut a.id) w.now).2) = [] :=
            List.filter_eq_nil_iff.2 fun a ha => by simp [(hall a ha).1]
          rw [hgone] at hleaves
          rw [hleaves.live]
          simp [evicted, h.kept]
        · intro x hx
          obtain ⟨a, ha, hax⟩ := (hstays x).1 hx
          have := (hall a ha).2
          rwa [hax] at this

/-! ### The deadline -/

theorem min?_pos_iff (l : List ℕ) : (∀ m, l.min? = some m → 0 < m) ↔ ∀ x ∈ l, 0 < x := by
  constructor
  · intro h x hx
    cases hm : l.min? with
    | none => rw [List.min?_eq_none_iff.1 hm] at hx; cases hx
    | some m => exact lt_of_lt_of_le (h m hm) ((List.min?_eq_some_iff.1 hm).2 x hx)
  · exact fun h m hm => h m (List.min?_eq_some_iff.1 hm).1

theorem deadline_pos_iff_forwards (h : ∀ a ∈ s.attachments, 0 < a.deadline now) :
    0 < s.deadline now ↔ ∀ e ∈ s.forwards.live, e.2.due now = false := by
  have hattachments : 0 < (s.attachments.map (·.deadline now)).min?.getD idleDeadline := by
    cases hm : (s.attachments.map (·.deadline now)).min? with
    | none => decide
    | some m => exact (min?_pos_iff _).2 (by simpa using h) m hm
  have hforwards : (∀ m, s.forwards.deadline now = some m → 0 < m) ↔ ∀ e ∈ s.forwards.live, e.2.due now = false := by
    rw [Forwards.deadline, min?_pos_iff]
    simp only [List.mem_filterMap, forall_exists_index, and_imp]
    constructor
    · exact fun h e he => (deadline_pos_iff _).1 fun left hleft => h left e he hleft
    · exact fun h left e he hleft => (deadline_pos_iff _).2 (h e he) left hleft
  rw [← hforwards]
  unfold deadline
  cases s.forwards.deadline now with
  | none => simpa using hattachments
  | some owed => simpa using fun _ => hattachments

/-- Every forward whose timer has run out belongs to a client attached through a link that the tick keeps, or to
one that the tick forgets for those who leave. -/
def Attended (wire : Wire) (now : ℕ) (s : SessionActor) : Prop :=
  ∀ e ∈ s.forwards.live, e.2.due now = true →
    (∃ a ∈ s.attachments, a.client = e.1.1 ∧ a.keeps wire now = true) ∨
      e.1.1 ∈ evicted (s.retired.map Prod.fst) ((s.attachments.filter (!·.keeps wire now)).map Attachment.client)

theorem tick_continue (h : s.tick wire w = (s', .ok .continue)) :
    ((s.sweep (·.probe wire w.now) w.now).pumpForwards wire w.now w.wrap).repaint .due w = (s', .ok ()) := by
  unfold tick at h
  dsimp only at h
  split_ifs at h
  · exact absurd (Prod.mk.inj h).2 (by simp)
  · exact absurd (Prod.mk.inj h).2 (by simp)
  · split at h <;> rename_i heq
    · cases h
      exact heq
    · cases h

/-- After a tick the actor sleeps just if no timer that has run out belongs to a client that is away. -/
theorem tick_sleeps_iff (h : (system wire).Reachable s) (htick : s.tick wire w = (s', .ok .continue)) :
    0 < s'.deadline w.now ↔ s.Attended wire w.now := by
  have horderly := orderly h
  have hpainted := tick_continue htick
  have hprobe : ∀ a : Attachment, Acts wire s.terminal s.offset a (a.probe wire w.now).1 := fun _ => acts_probe
  have hkin := fun a => (hprobe a).kin
  obtain ⟨hleaves, hstays⟩ := sweep_leaves horderly hkin w.now
  have hswept := horderly.sweep hkin w.now
  generalize hs₁ : s.sweep (·.probe wire w.now) w.now = s₁ at hpainted hleaves hstays hswept
  have hrested : ∀ a ∈ s₁.attachments, a.Rested w.now := by
    intro x hx
    obtain ⟨a, -, hax⟩ := (hstays x).1 hx
    have := (Attachment.probe_spec wire w.now a).2
    rw [hax] at this
    exact this rfl
  have hclients : ∀ client, client ∈ s₁.attachments.map Attachment.client ↔
      ∃ a ∈ s.attachments, a.client = client ∧ a.keeps wire w.now = true := by
    intro client
    simp only [List.mem_map, hstays]
    constructor
    · rintro ⟨x, ⟨a, ha, hax⟩, rfl⟩
      have hclient := (hkin a).client
      have hkeeps := (Attachment.probe_spec wire w.now a).1
      rw [hax] at hclient hkeeps
      exact ⟨a, ha, hclient.symm, by simpa using hkeeps⟩
    · rintro ⟨a, ha, rfl, hkeeps⟩
      refine ⟨(a.probe wire w.now).1, ⟨a, ha, Prod.ext rfl ?_⟩, (hkin a).client⟩
      simp [(Attachment.probe_spec wire w.now a).1, hkeeps]
  -- The pump keeps the attachments rested, and painting adds nothing to the forwards.
  have hpumped : ∀ a ∈ (s₁.pumpForwards wire w.now w.wrap).attachments, a.Rested w.now := by
    intro x hx
    obtain ⟨a, ha, hax⟩ := exists_of_forall₂ (queues_pumpForwards wire w.now w.wrap s₁) hx
    exact (hrested a ha).queues hax
  obtain ⟨hlive, hdeadlines⟩ := repaint_rests (hswept.like (follows_pumpForwards _ _).like) hpumped hpainted
  have hgone : (s.attachments.filter fun a => (a.probe wire w.now).2) = s.attachments.filter (!·.keeps wire w.now) :=
    List.filter_congr fun a _ => (Attachment.probe_spec wire w.now a).1
  rw [deadline_pos_iff_forwards hdeadlines, hlive, pumped_rests, hleaves.live, hgone]
  simp only [List.mem_filter, decide_eq_true_eq, hclients, Attended]
  constructor
  · intro hall e he hdue
    by_contra hnot
    rw [not_or] at hnot
    rw [hall e ⟨he, hnot.2⟩ hnot.1] at hdue
    cases hdue
  · intro hall e he haway
    by_contra hdue
    rw [Bool.not_eq_false] at hdue
    exact (hall e he.1 hdue).elim haway he.2

instance (wire : Wire) (now : ℕ) (s : SessionActor) : Decidable (s.Attended wire now) :=
  inferInstanceAs (Decidable (∀ e ∈ s.forwards.live, _ → _ ∨ _))

/-- Client 7 attaches to a session without a terminal and has a byte of its stream 3 under way. -/
def carryingRun : List Step :=
  [.event (.attach 1 7 false none .stream) (calmWorld 0),
    .event (.command 1 (.command ⟨1, .forwardOpen 3 ⟨['h'], 80⟩⟩)) (calmWorld 0),
    .event (.forwardConnected (7, 3) none) (calmWorld 0), .event (.forwardBytes (7, 3) [97]) (calmWorld 0)]

/-- A run of a session without a terminal, and a tick after it that goes on. -/
theorem exists_tick (steps : List Step) (now : ℕ) (P : SessionActor → Prop) [DecidablePred P]
    (h : ((system evenWire).run (new false ⟨80, 24⟩ 0) steps).any (fun s =>
      decide ((s.tick evenWire (calmWorld now)).2.toOption = some .continue ∧ P s)) = true) :
    ∃ s s', (system evenWire).Reachable s ∧ s.tick evenWire (calmWorld now) = (s', .ok .continue) ∧ P s := by
  have hinit : (system evenWire).init (new false ⟨80, 24⟩ 0) := ⟨false, _, 0, rfl⟩
  obtain ⟨s, hreach, hgoes, hp⟩ := Foundation.System.Reachable.of_run _ steps hinit h
  refine ⟨s, _, hreach, Prod.ext rfl ?_, hp⟩
  cases hresult : (s.tick evenWire (calmWorld now)).2 with
  | error e => simp [hresult, Except.toOption] at hgoes
  | ok turn => simpa [hresult, Except.toOption] using hgoes

/-- Once the client is away the timer of the byte under way runs out, and the actor does not sleep. -/
theorem tick_of_away_client_sleepless :
    ∃ s s', (system evenWire).Reachable s ∧ s.tick evenWire (calmWorld 250000000) = (s', .ok .continue) ∧
      s'.deadline 250000000 = 0 := by
  obtain ⟨s, s', hreach, htick, hdeadline⟩ := exists_tick
    (carryingRun ++ [.event (.detached 1) (calmWorld 0)]) 250000000
    (fun s => (s.tick evenWire (calmWorld 250000000)).1.deadline 250000000 = 0) (by decide)
  rw [htick] at hdeadline
  exact ⟨s, s', hreach, htick, hdeadline⟩

/-- While the client is attached the same timer is served. -/
theorem tick_sleeps_carryingRun :
    ∃ s s', (system evenWire).Reachable s ∧ s.tick evenWire (calmWorld 250000000) = (s', .ok .continue) ∧
      (∃ e ∈ s.forwards.live, e.2.due 250000000 = true) ∧ 0 < s'.deadline 250000000 := by
  obtain ⟨s, s', hreach, htick, hdue, hattended⟩ := exists_tick carryingRun 250000000
    (fun s => (∃ e ∈ s.forwards.live, e.2.due 250000000 = true) ∧ s.Attended evenWire 250000000) (by decide)
  exact ⟨s, s', hreach, htick, hdue, (tick_sleeps_iff hreach htick).2 hattended⟩

end SessionActor

end Braid.Session
