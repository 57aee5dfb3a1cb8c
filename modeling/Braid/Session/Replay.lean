import Mathlib.Data.List.Flatten
import Mathlib.Data.List.Infix
import Braid.Client.Predict
import Braid.Client.Replay
import Braid.Session.Owed

/-! A session and one of its clients, with a link between them that keeps all it is given in order. Frames
arrive some time after the writer took them, and acknowledgements some time after the client sent them. A
screen carries again what earlier screens carried until the newest is acknowledged, and the client replays
what each screen it completes carries, so a sequence is replayed once if no screen is composed with one that
the link was already given. -/

namespace Braid.Session

open Client (Predictions Viewer)
open Foundation
open Screen (ScreenPart)

/-! ### What the link is given -/

/-- The deferred sequences in a run of frames. -/
def carried (frames : List (SinkFrame Message)) : List (ℕ × Text) := frames.flatMap fun frame => frame.content.deferred

theorem carried_append (frames frames' : List (SinkFrame Message)) :
    carried (frames ++ frames') = carried frames ++ carried frames' := List.flatMap_append

theorem carried_sublist {frames frames' : List (SinkFrame Message)} (h : frames.Sublist frames') :
    (carried frames).Sublist (carried frames') := h.flatMap _

theorem carried_pieces (a : Attachment) (nextOff : ℕ) (entries : List (ℕ × Text)) (sheet : Cut) :
    carried (a.pieces nextOff entries sheet) = encodeSticky entries := by
  have htails : ∀ lens : List ℕ, carried (lens.map fun len => ⟨.screenTail a.generation a.version, len⟩) = [] := by
    intro lens
    induction lens with
    | nil => rfl
    | cons len lens ih => exact ih
  simp only [Attachment.pieces]
  rw [← List.singleton_append, carried_append, htails, List.append_nil]
  exact List.append_nil _

namespace Queue

variable {q q' : Queue Message} {frames : List (SinkFrame Message)}

theorem carried_popFront (h : q.Bare) (hpop : q.popFront = some (q', frames)) :
    carried frames ++ carried q'.pieces = carried q.pieces := by
  unfold popFront at hpop
  split at hpop
  · cases hpop
  all_goals
    rename_i horder
    have hslot := h _ (horder ▸ List.mem_cons_self)
    cases hpop
  · simp [carried, List.isEmpty_iff.mp (hslot nofun)]
  · simp [carried, List.isEmpty_iff.mp (hslot nofun)]
  · simp [carried, List.isEmpty_iff.mp (hslot nofun)]
  · simp [carried]

theorem carried_fillFrom (h : q.Bare) (batch : List (SinkFrame Message)) (waiting : ℕ) :
    carried (q.fillFrom batch waiting).2 ++ carried (q.fillFrom batch waiting).1.pieces = carried batch ++ carried q.pieces := by
  induction waiting generalizing q batch with
  | zero => rfl
  | succ waiting ih =>
    unfold fillFrom
    split_ifs
    · split
      · rfl
      · rename_i hpop
        refine (ih (h.popFront hpop) (batch ++ _)).trans ?_
        rw [carried_append, List.append_assoc, carried_popFront h hpop]
    · rfl

end Queue

namespace Sink

/-- Every sequence is carried once by what the link was given and the screen that waits. -/
structure Sole (s : Sink Message) : Prop where
  bare : s.queue.Bare
  nodup : (carried s.handed ++ carried s.queue.pieces).Nodup

variable {s s' : Sink Message}

theorem Sole.write {step : WriterStep} (h : s.Sole) (hwrite : s.write step = some s') :
    s'.Sole ∧ s.handed <+: s'.handed := by
  cases step with
  | take =>
    simp only [Sink.write, Option.ite_none_right_eq_some, Option.some.injEq] at hwrite
    obtain ⟨-, rfl⟩ := hwrite
    have hcarried := Queue.carried_fillFrom h.bare [] s.queue.order.length
    refine ⟨⟨h.bare.fillFrom [] s.queue.order.length, ?_⟩, List.prefix_append _ _⟩
    have hsame := h.nodup
    rw [carried_append, List.append_assoc]
    exact (congrArg (fun behind => (carried s.handed ++ behind).Nodup) hcarried).mpr hsame
  | _ =>
    simp only [Sink.write, Option.ite_none_right_eq_some, Option.some.injEq] at hwrite
    obtain ⟨-, rfl⟩ := hwrite
    exact ⟨⟨h.bare, h.nodup⟩, List.prefix_rfl⟩

theorem Sole.sendScreen {pieces : List (SinkFrame Message)} {pressure : ScreenPressure} (h : s.Sole)
    (hsend : s.sendScreen pieces = .ok (s', pressure)) (hfresh : (carried s.handed ++ carried pieces).Nodup) :
    s'.Sole ∧ s'.handed = s.handed := by
  rcases sendScreen_ok hsend with rfl | ⟨order, screen, rfl, horder⟩
  · exact ⟨h, rfl⟩
  · exact ⟨⟨h.bare.of_order horder, hfresh⟩, rfl⟩

end Sink

/-! ### The link -/

/-- The piece is one the message could hold. -/
def Message.holds : Message → ScreenPart → Bool
  | .screen generation version nextOff _, .head header _ _ _ _ =>
    header.generation = generation && header.version = version && header.nextOff = nextOff
  | .screenTail generation version, .tail generation' version' _ _ _ => generation' = generation && version' = version
  | _, _ => false

def Message.isScreen : Message → Bool
  | .screen _ _ _ _ | .screenTail _ _ => true
  | _ => false

/-- One attachment, its client, how many of the frames handed to the link have arrived, and the screens whose
acknowledgement is on its way. -/
structure Viewing where
  seat : Seat
  viewer : Viewer (ℕ × Text)
  arrived : ℕ
  acks : List (ℕ × ℕ)

inductive Move where
  /-- The session acts on the attachment. -/
  | session (act : Act)
  /-- The next frame arrives; of a screen it is this piece. -/
  | arrive (piece : ScreenPart) (terminalRows : ℕ) (predictions : Predictions)
  /-- The oldest acknowledgement arrives. -/
  | acknowledge
  /-- The client shows output. -/
  | observe (bytes : ℕ)
  /-- What is on the client's terminal is not known to it any more. -/
  | invalidate

namespace Viewing

variable (wire : Wire) (widths : Client.CharWidths)

def arrive (x : Viewing) (piece : ScreenPart) (terminalRows : ℕ) (predictions : Predictions) : Option Viewing :=
  x.seat.attachment.sink.handed[x.arrived]?.bind fun frame =>
    if frame.content.isScreen then
      if frame.content.holds piece then
        let (viewer, result) := x.viewer.part widths piece frame.content.deferred terminalRows predictions
        let ack := match result with
          | .ok (some screen) => [(screen.generation, screen.version)]
          | _ => []
        some { x with viewer, arrived := x.arrived + 1, acks := x.acks ++ ack }
      else none
    else some { x with arrived := x.arrived + 1 }

/-- Only acknowledgements confirm screens. -/
def next (x : Viewing) : Move → Option Viewing
  | .session (.confirm _ _) => none
  | .session act => (x.seat.next wire act).map fun seat => { x with seat }
  | .arrive piece terminalRows predictions => x.arrive widths piece terminalRows predictions
  | .acknowledge =>
    match x.acks with
    | [] => none
    | (generation, version) :: acks =>
      (x.seat.next wire (.confirm generation version)).map fun seat => { x with seat, acks }
  | .observe bytes => some { x with viewer := { x.viewer with screen := x.viewer.screen.observe bytes } }
  | .invalidate => some { x with viewer := { x.viewer with screen := x.viewer.screen.invalidate } }

/-- A client attaches, with whatever screen it held before. -/
def system : System Viewing Move where
  init x := x.seat.Arrives wire ∧ x.viewer.screen.pending = none ∧ x.viewer.replayed = [] ∧ x.arrived = 0 ∧ x.acks = []
  next := next wire widths

/-- No screen is composed with a sequence that a screen handed to the link carried. -/
def Fresh (x : Viewing) : Move → Prop
  | .session (.repaint painted _ _ _ cut now) => x.seat.attachment.wants painted now = true → cut.isSome = true →
    ∀ entry ∈ x.seat.attachment.owedDeferred x.seat.log, entry ∉ carried x.seat.attachment.sink.handed
  | _ => True

/-- What the client replayed, and is about to, are sequences of the frames that arrived. -/
structure Paced (x : Viewing) : Prop where
  marked : x.seat.log.Marked
  sole : x.seat.attachment.sink.Sole
  due : x.viewer.due.Sublist (carried (x.seat.attachment.sink.handed.take x.arrived))

variable {wire widths} {x x' : Viewing} {move : Move}

theorem nodup_owedDeferred {v : Seat} (h : v.log.Marked) : (v.attachment.owedDeferred v.log).Nodup := by
  have hentries : v.log.entries.Nodup := h.ascending.imp fun hlt heq => absurd (congrArg Prod.fst heq) hlt.ne
  exact (hentries.filter _).sublist (List.drop_sublist _ _)

/-- An act of the session keeps what was handed, and each sequence in one place. -/
theorem sole_next {v v' : Seat} {act : Act} (hmarked : v.log.Marked) (h : v.attachment.sink.Sole)
    (hfresh : ∀ painted frame dirty grid sheet now, act = .repaint painted frame dirty grid (some sheet) now →
      v.attachment.wants painted now = true →
        ∀ entry ∈ v.attachment.owedDeferred v.log, entry ∉ carried v.attachment.sink.handed)
    (hnext : v.next wire act = some v') :
    v'.attachment.sink.Sole ∧ v.attachment.sink.handed <+: v'.attachment.sink.handed := by
  cases Seat.drives_next hnext with
  | streams hsink =>
    obtain ⟨hhanded, hpieces⟩ := hsink.same
    refine ⟨⟨hsink.bare h.bare, ?_⟩, hhanded ▸ List.prefix_rfl⟩
    rw [hhanded, hpieces]
    exact h.nodup
  | screen painted frame dirty grid now sheet version pressure hact hwanted hsend =>
    obtain ⟨hsole, hhanded⟩ := h.sendScreen hsend (by
      rw [carried_pieces]
      have hkept := List.drop_sublist (deferredStart (v.attachment.owedDeferred v.log)) (v.attachment.owedDeferred v.log)
      refine List.nodup_append'.mpr ⟨(List.nodup_append'.mp h.nodup).1, (nodup_owedDeferred hmarked).sublist hkept, ?_⟩
      intro entry hold hnew
      exact hfresh painted frame dirty grid sheet now hact hwanted entry (hkept.subset hnew) hold)
    exact ⟨hsole, hhanded ▸ List.prefix_rfl⟩
  | write step hact hwrite => exact h.write hwrite

theorem Paced.act (h : x.Paced) {act : Act} {seat : Seat}
    (hfresh : ∀ painted frame dirty grid sheet now, act = .repaint painted frame dirty grid (some sheet) now →
      x.seat.attachment.wants painted now = true →
        ∀ entry ∈ x.seat.attachment.owedDeferred x.seat.log, entry ∉ carried x.seat.attachment.sink.handed)
    (hnext : x.seat.next wire act = some seat) (acks : List (ℕ × ℕ)) : Paced { x with seat, acks } := by
  obtain ⟨hsole, hhanded⟩ := sole_next h.marked h.sole hfresh hnext
  exact ⟨(Seat.later_next hnext).marked h.marked, hsole, h.due.trans (carried_sublist (List.IsPrefix.take hhanded _).sublist)⟩

theorem Paced.arrive (h : x.Paced) {piece : ScreenPart} {terminalRows : ℕ} {predictions : Predictions}
    (harrive : x.arrive widths piece terminalRows predictions = some x') : x'.Paced := by
  obtain ⟨frame, hframe, hread⟩ := Option.bind_eq_some_iff.mp harrive
  have htake : carried (x.seat.attachment.sink.handed.take (x.arrived + 1)) =
      carried (x.seat.attachment.sink.handed.take x.arrived) ++ frame.content.deferred := by
    rw [List.take_add_one, hframe, carried_append]
    simp [carried]
  split_ifs at hread
  · cases hread
    refine ⟨h.marked, h.sole, (Viewer.due_part ..).trans ?_⟩
    rw [htake]
    exact h.due.append (.refl _)
  · cases hread
    refine ⟨h.marked, h.sole, h.due.trans ?_⟩
    rw [htake]
    exact List.sublist_append_left _ _

theorem Paced.next (h : x.Paced) (hfresh : x.Fresh move) (hnext : x.next wire widths move = some x') : x'.Paced := by
  cases move with
  | session act =>
    have hmap : (x.seat.next wire act).map (fun seat => { x with seat }) = some x' := by
      cases act with
      | confirm => cases hnext
      | _ => exact hnext
    obtain ⟨seat, hseat, rfl⟩ := Option.map_eq_some_iff.mp hmap
    refine h.act ?_ hseat x.acks
    rintro painted frame dirty grid sheet now rfl hwanted
    exact hfresh hwanted rfl
  | arrive piece terminalRows predictions => exact h.arrive hnext
  | acknowledge =>
    simp only [Viewing.next] at hnext
    split at hnext
    · cases hnext
    · obtain ⟨seat, hseat, rfl⟩ := Option.map_eq_some_iff.mp hnext
      refine h.act (fun _ _ _ _ _ _ hact => ?_) hseat _
      cases hact
  | observe bytes =>
    cases hnext
    refine ⟨h.marked, h.sole, ?_⟩
    have hsame : Viewer.due { x.viewer with screen := x.viewer.screen.observe bytes } = x.viewer.due := by
      unfold Client.ClientScreen.observe
      split_ifs <;> rfl
    exact hsame ▸ h.due
  | invalidate =>
    cases hnext
    have hgiven : Viewer.due { x.viewer with screen := x.viewer.screen.invalidate } = x.viewer.replayed :=
      List.append_nil _
    exact ⟨h.marked, h.sole, hgiven ▸ x.viewer.replayed_due.trans h.due⟩

theorem paced_init (h : (system wire widths).init x) : x.Paced := by
  obtain ⟨harrives, hpending, hreplayed, harrived, -⟩ := h
  refine ⟨harrives.log.1, ?_, ?_⟩
  · obtain ⟨a, hsink, -, -, -, hgreeted⟩ := harrives.greeted
    obtain ⟨hhanded, hpieces⟩ := hgreeted.sink.same
    rw [hsink] at hhanded hpieces
    refine ⟨hgreeted.sink.bare ?_, ?_⟩
    · rw [hsink]
      exact fun slot hslot => nomatch hslot
    · rw [hhanded, hpieces]
      exact List.nodup_nil
  · have hdue : x.viewer.due = [] := by simp [Viewer.due, hreplayed, Client.ClientScreen.assembles, hpending]
    rw [hdue]
    exact List.nil_sublist _

/-- Where no screen carries what the link was given before, each deferred sequence is replayed once at most. -/
theorem replayed_at_most_once (h : (system wire widths).Via Fresh x) (entry : ℕ × Text) :
    x.viewer.replayed.count entry ≤ 1 := by
  have hpaced : x.Paced := h.invariant (fun _ => paced_init) fun _ _ _ hx hok hnext => hx.next hok hnext
  have hreplayed : x.viewer.replayed.Sublist (carried x.seat.attachment.sink.handed) :=
    x.viewer.replayed_due.trans (hpaced.due.trans (carried_sublist (List.take_sublist _ _)))
  exact List.nodup_iff_count_le_one.mp ((List.nodup_append'.mp hpaced.sole.nodup).1.sublist hreplayed) entry

/-- A client that awaits its first screen. -/
def lateViewing : Viewing := ⟨Account.lateSeat, .initial, 0, []⟩

theorem lateViewing_init : (system SessionActor.evenWire Client.asciiColumns).init lateViewing :=
  ⟨Account.lateSeat_arrives.1, rfl, rfl, rfl, rfl⟩

/-- A repaint of the session, after which its writer takes the screen. -/
def paintedAt (now : ℕ) : List Move :=
  [.session (.repaint .due SessionActor.noRows .empty ⟨80, 24⟩ (some ⟨1024, []⟩) now), .session (.write .retire),
    .session (.write .take)]

/-- A blank screen in one piece. -/
def blankPiece (version : ℕ) : ScreenPart :=
  .head ⟨1, version, 6, ⟨80, 24⟩⟩ none none 1 ((List.range 24).map fun row => ⟨row, false, 0, 0, true, .blank⟩)

/-- A title is set, and the client completes a screen that carries it. -/
def titledOnce : List Move :=
  .session (.output [escByte, 0x5d, 0x30, 0x3b, 0x61, belByte] ⟨80, 24⟩ true 0 1000000000) :: paintedAt 1000000000 ++
    List.replicate 3 (.arrive (blankPiece 2) 24 .settled) ++ [.session (.write (.settle false))]

/-- The acknowledgement is late, so the next screen carries the title too. -/
theorem replayed_twice_lateAck :
    ∃ x, (system SessionActor.evenWire Client.asciiColumns).Reachable x ∧ ∃ entry, 1 < x.viewer.replayed.count entry := by
  obtain ⟨x, hreach, htwice⟩ : ∃ x, (system SessionActor.evenWire Client.asciiColumns).Reachable x ∧
      1 < x.viewer.replayed.count (0, ['0', ';', 'a']) :=
    System.Reachable.of_run lateViewing (titledOnce ++ paintedAt 4000000000 ++ [.arrive (blankPiece 3) 24 .settled])
      lateViewing_init (by decide +kernel)
  exact ⟨x, hreach, _, htwice⟩

instance (x : Viewing) (move : Move) : Decidable (x.Fresh move) :=
  match move with
  | .session (.repaint _ _ _ _ _ _) => inferInstanceAs (Decidable (_ → _ → _))
  | .session (.aside _ _ _ _) | .session (.path _) | .session (.queue _) | .session (.confirm _ _)
  | .session (.regrid _ _) | .session (.restart _ _) | .session (.output _ _ _ _ _) | .session (.write _)
  | .arrive _ _ _ | .acknowledge | .observe _ | .invalidate => .isTrue trivial

/-- The screen after the acknowledgement carries nothing. -/
theorem replayed_at_most_once_titledOnce :
    ∃ x, (system SessionActor.evenWire Client.asciiColumns).Via Fresh x ∧ x.viewer.replayed = [(0, ['0', ';', 'a'])] ∧
      x.arrived = 4 ∧ ∀ entry, x.viewer.replayed.count entry ≤ 1 := by
  obtain ⟨x, hvia, hreplayed, harrived⟩ : ∃ x, (system SessionActor.evenWire Client.asciiColumns).Via Fresh x ∧
      x.viewer.replayed = [(0, ['0', ';', 'a'])] ∧ x.arrived = 4 :=
    System.Via.of_run lateViewing
      (titledOnce ++ .acknowledge :: paintedAt 4000000000 ++ [.arrive (blankPiece 3) 24 .settled]) lateViewing_init
      (by decide +kernel)
  exact ⟨x, hvia, hreplayed, harrived, fun entry => replayed_at_most_once hvia entry⟩

end Viewing

end Braid.Session
