import Braid.Session.Line

/-! What a client is still owed of the deferred sequences. A screen is given the newest sequences from
`deferredFrom` on that fit the framing's budget and carries the newest of them that fit the format's, and
`deferredFrom` should pass a sequence only when a screen that carried it is confirmed. The mark does stay behind a
screen in flight when a sync episode begins, but a new generation and a screen that will not encode put the screen
in flight out of the ledger first, and a screen may be confirmed that had no room for what an earlier one carried. -/

namespace Braid.Session

open Foundation

/-! ### What fits -/

namespace DeferredOsc

variable {d : DeferredOsc}

def cost (entries : List (ℕ × Text)) : ℕ := (entries.map fun entry => entry.2.byteLen + 2).sum

theorem length_le_fitting {budget total : ℕ} (front behind : List (ℕ × Text)) (h : total + cost front ≤ budget) :
    front.length ≤ fitting budget (front ++ behind) total := by
  induction front generalizing total with
  | nil => exact Nat.zero_le _
  | cons entry front ih =>
    have hcost : cost (entry :: front) = entry.2.byteLen + 2 + cost front := by simp [cost]
    rw [List.cons_append, fitting, if_pos (by omega)]
    exact Nat.succ_le_succ (ih (by omega))

theorem cost_reverse (entries : List (ℕ × Text)) : cost entries.reverse = cost entries := by
  unfold cost
  rw [List.map_reverse, List.sum_reverse]

theorem since_suffix (h : d.Marked) {start mark : ℕ} (hle : start ≤ mark) : d.since mark <:+ d.since start := by
  have hsince : d.since mark = (d.since start).filter fun entry => mark ≤ entry.1 := by
    rw [since, since, List.filter_filter]
    refine List.filter_congr fun entry _ => ?_
    simpa using fun hmark : mark ≤ entry.1 => hle.trans hmark
  rw [hsince]
  exact filter_suffix (h.ascending.filter _) mark

theorem cost_take_fitting {budget total : ℕ} (entries : List (ℕ × Text)) (h : total ≤ budget) :
    total + cost (entries.take (fitting budget entries total)) ≤ budget := by
  induction entries generalizing total with
  | nil => exact h
  | cons entry entries ih =>
    rw [fitting]
    split_ifs with hfits
    · have hcost : ∀ rest, cost (entry :: rest) = entry.2.byteLen + 2 + cost rest := fun _ => by simp [cost]
      rw [List.take_succ_cons, hcost, ← Nat.add_assoc]
      exact ih hfits
    · exact h

/-- A screen is given the longest end of what is owed that fits. -/
theorem carry_spec (d : DeferredOsc) (start budget : ℕ) :
    d.carry start budget <:+ d.since start ∧ cost (d.carry start budget) ≤ budget ∧
      ∀ rest, rest <:+ d.since start → cost rest ≤ budget → rest <:+ d.carry start budget := by
  have hsuffix : d.carry start budget <:+ d.since start := List.drop_suffix _ _
  refine ⟨hsuffix, ?_, fun rest hrest hfits => List.suffix_of_suffix_length_le hrest hsuffix ?_⟩
  · have hfitting := cost_take_fitting (d.since start).reverse (Nat.zero_le budget)
    rwa [List.take_reverse, cost_reverse, Nat.zero_add] at hfitting
  · obtain ⟨front, hfront⟩ := hrest
    have hfitting : rest.length ≤ fitting budget (d.since start).reverse 0 := by
      rw [← hfront, List.reverse_append, ← List.length_reverse]
      exact length_le_fitting _ _ (by rwa [Nat.zero_add, cost_reverse])
    have hlength := congrArg List.length hfront
    rw [List.length_append] at hlength
    rw [carry, List.length_drop]
    omega

theorem mem_carry_of_fits (h : d.Marked) {start budget : ℕ} {entry : ℕ × Text} (hentry : entry ∈ d.entries)
    (hstart : start ≤ entry.1) (hfits : cost (d.since entry.1) ≤ budget) : entry ∈ d.carry start budget := by
  have hcarried := (d.carry_spec start budget).2.2 _ (since_suffix h hstart) hfits
  exact hcarried.subset (List.mem_filter.mpr ⟨hentry, by simp⟩)

end DeferredOsc

/-! ### Output and the mark -/

namespace Attachment

/-- What output does to an attachment: it takes it out of no wait for a screen, and moves its mark only when
no screen is in flight or awaited. -/
structure Heeds (mark : ℕ) (a a' : Attachment) : Prop where
  ledger : a'.ledger = a.ledger
  sent : a'.deferredSent = a.deferredSent
  mode : a'.mode ≠ .awaitingScreen → a.mode ≠ .awaitingScreen
  moved : a'.deferredFrom = a.deferredFrom ∨
    a'.deferredFrom = mark ∧ a.ledger.pending = none ∧ a.mode ≠ .awaitingScreen

variable {wire : Wire} {mark offset now : ℕ} {a a' a'' : Attachment}

theorem Heeds.refl (a : Attachment) : Heeds mark a a := ⟨rfl, rfl, fun h => h, .inl rfl⟩

theorem Heeds.trans (h : Heeds mark a a') (h' : Heeds mark a' a'') : Heeds mark a a'' where
  ledger := h'.ledger.trans h.ledger
  sent := h'.sent.trans h.sent
  mode := h.mode ∘ h'.mode
  moved := by
    rcases h'.moved with hsame | ⟨hmark, hpending, hmode⟩
    · rw [hsame]
      exact h.moved
    · exact .inr ⟨hmark, h.ledger ▸ hpending, h.mode hmode⟩

theorem heeds_beginSync : Heeds mark a (a.beginSync mark) := by
  refine ⟨rfl, rfl, fun hmode hawaiting => ?_, ?_⟩
  · simp only [beginSync, hawaiting] at hmode
    exact hmode (if_neg OutputMode.noConfusion)
  · simp only [beginSync]
    split_ifs with hmoved
    · refine .inr ⟨rfl, Option.isNone_iff_eq_none.mp hmoved.2, fun hawaiting => ?_⟩
      exact OutputMode.noConfusion (hmoved.1.symm.trans hawaiting)
    · exact .inl rfl

theorem heeds_settleBeforeOutput (lastOutput : Option ℕ) (grid : Screen.GridSize) :
    Heeds mark a (a.settleBeforeOutput offset now lastOutput grid) := by
  unfold settleBeforeOutput
  split_ifs with hsent
  · have hmode : a.mode ≠ .awaitingScreen := fun hawaiting => OutputMode.noConfusion (hsent.symm.trans hawaiting)
    unfold settle
    split_ifs
    · exact ⟨rfl, rfl, fun _ => hmode, .inl rfl⟩
    · exact ⟨rfl, rfl, fun _ => hmode, .inl rfl⟩
    · exact ⟨rfl, rfl, fun _ => hmode, .inl rfl⟩
  · exact .refl a

theorem heeds_sink (sink : Sink Message) : Heeds mark a { a with sink } := ⟨rfl, rfl, fun h => h, .inl rfl⟩

theorem heeds_pushChunks (chunks : List (List UInt8)) : Heeds mark a (a.pushChunks wire mark offset chunks).1 := by
  induction chunks generalizing a offset with
  | nil => exact .refl a
  | cons chunk rest ih =>
    unfold pushChunks
    split
    · exact .refl a
    · split
      · exact (heeds_sink _).trans ih
      · exact (heeds_sink _).trans heeds_beginSync
      · exact .refl a

theorem heeds_forward (bytes : List UInt8) (grid : Screen.GridSize) (lastOutput : Option ℕ) :
    Heeds mark a (a.forward wire offset bytes grid lastOutput mark now).1 := by
  have hsettled : Heeds mark a (a.settleBeforeOutput offset now lastOutput grid) := heeds_settleBeforeOutput _ _
  unfold forward
  dsimp only
  generalize a.settleBeforeOutput offset now lastOutput grid = b at hsettled
  have hstirred : Heeds mark a (b.stirredBy bytes) := by
    unfold stirredBy
    split_ifs
    · exact hsettled
    · exact hsettled.trans ⟨rfl, rfl, fun h => h, .inl rfl⟩
  have hpushed : Heeds mark a (b.pushOutput wire offset bytes mark).1 := by
    unfold pushOutput
    dsimp only
    split_ifs
    · exact hstirred.trans heeds_beginSync
    · exact hstirred.trans (heeds_pushChunks _)
  split_ifs
  · exact hsettled.trans heeds_beginSync
  · split <;> rename_i heq <;> rw [heq] at hpushed <;> exact hpushed

end Attachment

/-! ### Screens and their confirmation -/

/-- A screen that was sent, by what it carried. -/
structure SentScreen where
  deferred : List (ℕ × Text)
  confirmed : Bool

/-- A seat and the screens its client was sent, newest last. -/
structure Account where
  seat : Seat
  screens : List SentScreen

namespace Account

variable (wire : Wire)

/-- Only the screen in the ledger can be confirmed, and that is the newest. -/
def confirmLast (screens : List SentScreen) : List SentScreen :=
  screens.dropLast ++ (screens.getLast?.map fun screen => { screen with confirmed := true }).toList

variable (d : Account)

def screensAfter : Act → List SentScreen
  | .confirm generation version =>
    if (d.seat.attachment.ledger.confirm generation version).2 then confirmLast d.screens else d.screens
  | .repaint painted _ _ _ cut now =>
    if d.seat.attachment.wants painted now && cut.isSome then
      d.screens ++ [⟨d.seat.attachment.screenDeferred d.seat.log, false⟩]
    else d.screens
  | _ => d.screens

def next (d : Account) (act : Act) : Option Account :=
  (d.seat.next wire act).map fun seat => ⟨seat, d.screensAfter act⟩

def system : System Account Act where
  init d := d.seat.Arrives wire ∧ d.screens = []
  next := next wire

/-- Some screen that is not confirmed carried the entry. -/
def Carried (entry : ℕ × Text) : Prop :=
  ∃ screen ∈ d.screens, screen.confirmed = false ∧ entry ∈ screen.deferred

instance (d : Account) (entry : ℕ × Text) : Decidable (d.Carried entry) :=
  inferInstanceAs (Decidable (∃ screen ∈ d.screens, _))

/-- A new generation begins, and a screen fails to encode, only where no screen in flight is given up that a
return to the stream would forget; and what a screen has no room for no unconfirmed one carries. -/
def Careful : Act → Prop
  | .regrid _ _ | .restart _ _ =>
    d.seat.attachment.mode ≠ .passthrough ∨ d.seat.attachment.ledger.pending = none
  | .repaint painted _ _ _ cut now => d.seat.attachment.wants painted now = true →
    if cut.isNone then d.seat.attachment.mode = .awaitingScreen ∨ d.seat.attachment.ledger.pending = none
    else ∀ entry ∈ d.seat.log.since d.seat.attachment.deferredFrom, d.Carried entry →
      entry ∈ d.seat.attachment.screenDeferred d.seat.log
  | _ => True

/-- An entry of the log that the client may hold by no screen it has confirmed. -/
def Owes (entry : ℕ × Text) : Prop :=
  entry ∈ d.seat.log.entries ∧ d.seat.attachment.deferredFrom ≤ entry.1 ∧ d.Carried entry

structure Sound (d : Account) : Prop where
  marked : d.seat.log.Marked
  known : ∀ screen ∈ d.screens, ∀ entry ∈ screen.deferred, entry.1 < d.seat.log.next
  /-- With no screen in flight a client that awaits none has been given all that was carried. -/
  free : d.seat.attachment.ledger.pending = none → d.seat.attachment.mode ≠ .awaitingScreen → ∀ entry, ¬d.Owes entry
  /-- The screen in flight carried all that is owed. -/
  held : d.seat.attachment.ledger.pending ≠ none →
    (∀ screen ∈ d.screens, ∀ entry ∈ screen.deferred, entry.1 < d.seat.attachment.deferredSent) ∧
      ∃ last ∈ d.screens.getLast?, ∀ entry, d.Owes entry → entry ∈ last.deferred

/-- What moves the mark past an entry. -/
def Passes (act : Act) (entry : ℕ × Text) : Prop :=
  (∃ generation version, act = .confirm generation version ∧
    (d.seat.attachment.ledger.confirm generation version).2 = true ∧ ∃ last ∈ d.screens.getLast?, entry ∈ last.deferred) ∨
    ¬d.Carried entry

variable {wire} {d d' : Account} {act : Act}

/-! ### One act -/

/-- An act that sends and confirms nothing. The mark moves only to the end of the log, and only where nothing
that was carried is owed. -/
structure Drifts (d d' : Account) : Prop where
  screens : d'.screens = d.screens
  log : d.seat.log.Later d'.seat.log
  pending : d'.seat.attachment.ledger.pending = d.seat.attachment.ledger.pending
  sent : d'.seat.attachment.deferredSent = d.seat.attachment.deferredSent
  mode : d'.seat.attachment.mode ≠ .awaitingScreen → d.seat.attachment.mode ≠ .awaitingScreen
  mark : d'.seat.attachment.deferredFrom = d.seat.attachment.deferredFrom ∨
    d'.seat.attachment.deferredFrom = d.seat.log.next ∧ d.seat.attachment.ledger.pending = none ∧
      d.seat.attachment.mode ≠ .awaitingScreen

variable {entry : ℕ × Text}

theorem Drifts.carried (h : d.Drifts d') : d'.Carried entry ↔ d.Carried entry := by
  unfold Carried
  rw [h.screens]

theorem Sound.carried_lt (h : d.Sound) (hcarried : d.Carried entry) : entry.1 < d.seat.log.next := by
  obtain ⟨screen, hscreen, -, hentry⟩ := hcarried
  exact h.known screen hscreen entry hentry

theorem Sound.owes_of_drift (h : d.Sound) (hdrift : d.Drifts d') (howes : d'.Owes entry) : d.Owes entry := by
  obtain ⟨hentry, hmark, hcarried⟩ := howes
  rw [hdrift.carried] at hcarried
  have hlt := h.carried_lt hcarried
  refine ⟨(hdrift.log.entries entry hentry).resolve_right fun hnew => absurd hlt hnew.not_gt, ?_, hcarried⟩
  rcases hdrift.mark with hsame | ⟨hmoved, -⟩
  · rwa [hsame] at hmark
  · rw [hmoved] at hmark
    exact absurd hlt hmark.not_gt

theorem Sound.drift (h : d.Sound) (hdrift : d.Drifts d') : d'.Sound where
  marked := hdrift.log.marked h.marked
  known screen hscreen entry hentry :=
    (h.known screen (hdrift.screens ▸ hscreen) entry hentry).trans_le hdrift.log.next
  free hpending hmode entry howes := by
    rw [hdrift.pending] at hpending
    exact h.free hpending (hdrift.mode hmode) entry (h.owes_of_drift hdrift howes)
  held hpending := by
    rw [hdrift.pending] at hpending
    obtain ⟨hsent, last, hlast, howed⟩ := h.held hpending
    rw [hdrift.screens, hdrift.sent]
    exact ⟨hsent, last, hlast, fun entry howes => howed entry (h.owes_of_drift hdrift howes)⟩

theorem Sound.not_carried_of_drift (h : d.Sound) (hdrift : d.Drifts d') (hentry : entry ∈ d.seat.log.entries)
    (hfrom : d.seat.attachment.deferredFrom ≤ entry.1) (hpassed : entry.1 < d'.seat.attachment.deferredFrom) :
    ¬d.Carried entry := by
  intro hcarried
  rcases hdrift.mark with hsame | ⟨-, hpending, hmode⟩
  · rw [hsame] at hpassed
    omega
  · exact h.free hpending hmode entry ⟨hentry, hfrom, hcarried⟩

/-- Whatever was sent, a client that awaits a screen with none in flight is owed it. -/
theorem Sound.awaits (h : d.Sound) (hscreens : d'.screens = d.screens) (hlog : d'.seat.log = d.seat.log)
    (hpending : d'.seat.attachment.ledger.pending = none) (hmode : d'.seat.attachment.mode = .awaitingScreen) : d'.Sound where
  marked := hlog ▸ h.marked
  known := by
    rw [hscreens, hlog]
    exact h.known
  free _ hnot := absurd hmode hnot
  held hnot := absurd hpending hnot

/-- The mark passes entries as it should. -/
def Yields (d d' : Account) (act : Act) : Prop :=
  ∀ entry ∈ d.seat.log.entries, d.seat.attachment.deferredFrom ≤ entry.1 →
    entry.1 < d'.seat.attachment.deferredFrom → d.Passes act entry

theorem yields_of_same (h : d'.seat.attachment.deferredFrom = d.seat.attachment.deferredFrom) : d.Yields d' act := by
  intro entry _ hfrom hpassed
  omega

theorem Sound.yields_of_drift (h : d.Sound) (hdrift : d.Drifts d') : d.Yields d' act := fun _ hentry hfrom hpassed =>
  .inr (h.not_carried_of_drift hdrift hentry hfrom hpassed)

theorem log_of_terminal {v : Seat} {terminal : Terminal} (hterminal : v.terminal = some terminal) :
    v.log = terminal.deferred := by
  rw [Seat.log, hterminal]
  rfl

theorem carried_confirmLast {screens : List SentScreen} {screen : SentScreen} (h : screen ∈ confirmLast screens) :
    ∃ old ∈ screens, old.deferred = screen.deferred := by
  rcases List.mem_append.mp h with hold | hlast
  · exact ⟨screen, List.dropLast_subset _ hold, rfl⟩
  · obtain ⟨last, hgot, rfl⟩ := Option.map_eq_some_iff.mp (Option.mem_toList.mp hlast)
    exact ⟨last, List.mem_of_getLast? hgot, rfl⟩

theorem Sound.confirm (h : d.Sound) (generation version : ℕ) :
    let act := Act.confirm generation version
    let seat : Seat := { d.seat with attachment := d.seat.attachment.confirm generation version }
    (⟨seat, d.screensAfter act⟩ : Account).Sound ∧ d.Yields ⟨seat, d.screensAfter act⟩ act := by
  intro act seat
  by_cases hpending : d.seat.attachment.ledger.pending = some (generation, version)
  · have hconfirmed : (d.seat.attachment.ledger.confirm generation version).2 = true := by
      rw [Daemon.ScreenLedger.confirm, if_neg (not_not.mpr hpending)]
    have hnone : seat.attachment.ledger.pending = none := by
      simp only [seat, Attachment.confirm, Daemon.ScreenLedger.confirm, if_neg (not_not.mpr hpending)]
    have hfrom : seat.attachment.deferredFrom = d.seat.attachment.deferredSent := by
      exact if_pos hconfirmed
    have hscreens : d.screensAfter act = confirmLast d.screens := if_pos hconfirmed
    obtain ⟨hsent, last, hlast, howed⟩ := h.held (by rw [hpending]; exact Option.some_ne_none _)
    rw [hscreens]
    refine ⟨⟨h.marked, fun screen hscreen entry hentry => ?_, fun _ _ entry howes => ?_, fun hnot => absurd hnone hnot⟩, ?_⟩
    · obtain ⟨old, hold, hsame⟩ := carried_confirmLast hscreen
      exact h.known old hold entry (hsame ▸ hentry)
    · obtain ⟨-, hmark, screen, hscreen, -, hentry⟩ := howes
      obtain ⟨old, hold, hsame⟩ := carried_confirmLast hscreen
      exact absurd (hsent old hold entry (hsame ▸ hentry)) (hfrom ▸ hmark).not_gt
    · intro entry hentry hmark _
      by_cases hcarried : d.Carried entry
      · exact .inl ⟨generation, version, rfl, hconfirmed, last, hlast, howed entry ⟨hentry, hmark, hcarried⟩⟩
      · exact .inr hcarried
  · have hrefused : d.seat.attachment.ledger.confirm generation version = (d.seat.attachment.ledger, false) := by
      rw [Daemon.ScreenLedger.confirm, if_pos hpending]
    have hseat : seat = d.seat := by
      simp only [seat, Attachment.confirm, hrefused]
      rfl
    have hscreens : d.screensAfter act = d.screens := by
      simp only [act, screensAfter, hrefused]
      rfl
    rw [hscreens, hseat]
    exact ⟨h, yields_of_same rfl⟩

theorem mode_regrid (a : Attachment) (generation rows mark : ℕ) :
    ((a.regrid generation rows).beginSync mark).mode = .awaitingScreen := by
  cases hmode : a.mode <;> simp [Attachment.beginSync, Attachment.regrid, hmode]

theorem deferredFrom_regrid {a : Attachment} (generation rows mark : ℕ)
    (h : a.mode ≠ .passthrough ∨ a.ledger.pending = none) :
    ((a.regrid generation rows).beginSync mark).deferredFrom = a.deferredFrom ∨
      a.mode = .passthrough ∧ a.ledger.pending = none := by
  by_cases hmode : a.mode = .passthrough
  · exact .inr ⟨hmode, h.resolve_left (not_not.mpr hmode)⟩
  · refine .inl (if_neg fun hmoved => hmode ?_)
    have hregrid := hmoved.1
    simp only [Attachment.regrid] at hregrid
    split_ifs at hregrid
    exact hregrid

theorem Sound.renew (h : d.Sound) {seat : Seat} (hterminal : seat.terminal = d.seat.terminal)
    (hpending : seat.attachment.ledger.pending = none) (hmode : seat.attachment.mode = .awaitingScreen)
    (hmark : seat.attachment.deferredFrom = d.seat.attachment.deferredFrom ∨
      d.seat.attachment.mode = .passthrough ∧ d.seat.attachment.ledger.pending = none) :
    (⟨seat, d.screens⟩ : Account).Sound ∧ d.Yields ⟨seat, d.screens⟩ act := by
  refine ⟨h.awaits rfl (by rw [Seat.log, hterminal, Seat.log]) hpending hmode, ?_⟩
  rcases hmark with hsame | ⟨hpassthrough, hnone⟩
  · exact yields_of_same hsame
  · intro entry hentry hfrom _
    refine .inr fun hcarried => h.free hnone ?_ entry ⟨hentry, hfrom, hcarried⟩
    rw [hpassthrough]
    exact OutputMode.noConfusion

theorem Sound.output (h : d.Sound) {bytes : List UInt8} {grid : Screen.GridSize} {scanned : Bool} {floor now : ℕ} {seat : Seat}
    (hseat : d.seat.next wire (.output bytes grid scanned floor now) = some seat) :
    (⟨seat, d.screens⟩ : Account).Sound ∧ d.Yields ⟨seat, d.screens⟩ act := by
  obtain ⟨terminal, attachment, hterminal, hforwarded, -, -, rfl⟩ := Seat.next_output hseat
  have hheeds : d.seat.attachment.Heeds terminal.deferred.mark (d.seat.attachment.forward wire d.seat.offset bytes grid
    terminal.lastOutput terminal.deferred.mark now).1 := Attachment.heeds_forward _ _ _
  rw [hforwarded] at hheeds
  have hlog := log_of_terminal hterminal
  have hdrift : d.Drifts ⟨⟨attachment, terminal.record bytes scanned floor now, d.seat.offset + bytes.length⟩, d.screens⟩ := by
    refine ⟨rfl, ?_, congrArg _ hheeds.ledger, hheeds.sent, hheeds.mode, ?_⟩
    · rw [hlog]
      exact SessionActor.later_record _ _ _ _ _
    · rw [hlog]
      exact hheeds.moved
  exact ⟨h.drift hdrift, h.yields_of_drift hdrift⟩

theorem Sound.repaint (h : d.Sound) {painted : Painted} {frame : Daemon.RepaintFrame} {dirty : Daemon.RowMask}
    {grid : Screen.GridSize} {cut : Option Cut} {now : ℕ} (hok : d.Careful (.repaint painted frame dirty grid cut now))
    {seat : Seat} (hseat : d.seat.next wire (.repaint painted frame dirty grid cut now) = some seat) :
    (⟨seat, d.screensAfter (.repaint painted frame dirty grid cut now)⟩ : Account).Sound ∧
      d.Yields ⟨seat, d.screensAfter (.repaint painted frame dirty grid cut now)⟩ act := by
  obtain ⟨terminal, attachment, hterminal, hpainted, rfl⟩ := Seat.next_repaint hseat
  have hlog := log_of_terminal hterminal
  generalize hscreens : d.screensAfter (.repaint painted frame dirty grid cut now) = screens
  cases Attachment.repaint_cases hpainted with
  | idle ledger hwanted hpending =>
    obtain rfl : d.screens = screens := by rw [← hscreens, screensAfter, hwanted]; rfl
    have hdrift : d.Drifts ⟨{ d.seat with attachment := { d.seat.attachment with ledger } }, d.screens⟩ :=
      ⟨rfl, .refl _, hpending, rfl, id, .inl rfl⟩
    exact ⟨h.drift hdrift, h.yields_of_drift hdrift⟩
  | withheld ledger version encodeFailures lastRepaint repaintPending hwanted hcut hpending =>
    subst hcut
    obtain rfl : d.screens = screens := by rw [← hscreens, screensAfter, hwanted]; rfl
    refine ⟨?_, yields_of_same rfl⟩
    rcases hok hwanted with hawaiting | hnone
    · exact h.awaits rfl rfl hpending hawaiting
    · exact h.drift ⟨rfl, .refl _, hpending.trans hnone.symm, rfl, id, .inl rfl⟩
  | sent sheet ledger sink pressure mode version lastRepaint screenSentAt repaintPending hwanted hcut hpending hsink hmode =>
    subst hcut
    obtain rfl : d.screens ++ [⟨d.seat.attachment.screenDeferred d.seat.log, false⟩] = screens := by
      rw [← hscreens, screensAfter, hwanted]
      rfl
    have hcarried : ∀ entry ∈ d.seat.attachment.screenDeferred d.seat.log, entry.1 < d.seat.log.next := fun entry hentry =>
      h.marked.bounded entry (DeferredOsc.mem_carry (List.mem_of_mem_drop hentry))
    have hknown : ∀ screen ∈ d.screens ++ [⟨d.seat.attachment.screenDeferred d.seat.log, false⟩],
        ∀ entry ∈ screen.deferred, entry.1 < d.seat.log.next := by
      intro screen hscreen
      rcases List.mem_append.mp hscreen with hold | hnew
      · exact h.known screen hold
      · rw [List.mem_singleton.mp hnew]
        exact hcarried
    refine ⟨⟨h.marked, hknown, fun hnone => absurd (hpending.symm.trans hnone) (Option.some_ne_none _), fun _ => ?_⟩,
      yields_of_same rfl⟩
    refine ⟨hlog ▸ hknown, _, List.getLast?_concat .., ?_⟩
    rintro entry ⟨hentry, hfrom, screen, hscreen, hunconfirmed, hmem⟩
    rcases List.mem_append.mp hscreen with hold | hnew
    · refine hok hwanted entry (List.mem_filter.mpr ⟨hentry, by simpa using hfrom⟩) ⟨screen, hold, hunconfirmed, hmem⟩
    · rw [List.mem_singleton.mp hnew] at hmem
      exact hmem

theorem Sound.next (h : d.Sound) (hok : d.Careful act) (hnext : d.next wire act = some d') :
    d'.Sound ∧ d.Yields d' act := by
  obtain ⟨seat, hseat, rfl⟩ := Option.map_eq_some_iff.mp hnext
  have hdrifts : d.Drifts ⟨seat, d.screensAfter act⟩ →
      (⟨seat, d.screensAfter act⟩ : Account).Sound ∧ d.Yields ⟨seat, d.screensAfter act⟩ act := fun hdrift =>
    ⟨h.drift hdrift, h.yields_of_drift hdrift⟩
  cases act with
  | aside =>
    cases hseat
    exact hdrifts ⟨rfl, .refl _, rfl, rfl, id, .inl rfl⟩
  | path =>
    cases hseat
    exact hdrifts ⟨rfl, .refl _, rfl, rfl, id, .inl rfl⟩
  | queue =>
    obtain ⟨_, _, -, -, rfl⟩ := Seat.next_queue hseat
    exact hdrifts ⟨rfl, .refl _, rfl, rfl, id, .inl rfl⟩
  | confirm generation version =>
    cases hseat
    exact h.confirm generation version
  | regrid generation rows =>
    obtain ⟨terminal, -, rfl⟩ := Option.map_eq_some_iff.1 hseat
    exact h.renew rfl (pending_releaseInFlight _) (mode_regrid _ generation rows terminal.deferred.mark)
      (deferredFrom_regrid generation rows terminal.deferred.mark hok)
  | restart generation rows =>
    obtain ⟨terminal, -, rfl⟩ := Option.map_eq_some_iff.1 hseat
    exact h.renew rfl (pending_releaseInFlight _) (mode_regrid _ generation rows terminal.deferred.mark)
      (deferredFrom_regrid generation rows terminal.deferred.mark hok)
  | repaint => exact h.repaint hok hseat
  | output => exact h.output hseat
  | write =>
    obtain ⟨_, -, rfl⟩ := Option.map_eq_some_iff.1 hseat
    exact hdrifts ⟨rfl, .refl _, rfl, rfl, id, .inl rfl⟩

/-! ### Runs -/

theorem sound_arrives (h : (system wire).init d) : d.Sound := by
  obtain ⟨harrives, hscreens⟩ := h
  have hmarked : d.seat.log.Marked := harrives.log.1
  obtain ⟨a, -, hpending, -, -, hgreeted⟩ := harrives.greeted
  have hledger : d.seat.attachment.ledger.pending = none := hgreeted.ledger ▸ hpending
  have hnever : ∀ screen, screen ∉ d.screens := by
    rw [hscreens]
    exact fun _ => List.not_mem_nil
  refine ⟨hmarked, fun screen hscreen => absurd hscreen (hnever screen), fun _ _ entry howes => ?_, fun hnot => absurd hledger hnot⟩
  obtain ⟨-, -, screen, hscreen, -⟩ := howes
  exact hnever screen hscreen

/-- A deferred sequence the client may not hold stays owed: the next screen is given it if it and the newer
ones fit, and the mark passes it only when a screen that carried it is confirmed, or none did. -/
theorem owed_until_confirmed (h : (system wire).Via Careful d) :
    (∀ entry ∈ d.seat.log.entries, d.seat.attachment.deferredFrom ≤ entry.1 →
      DeferredOsc.cost (d.seat.log.since entry.1) ≤ d.seat.attachment.framing.deferredBudget →
        entry ∈ d.seat.attachment.owedDeferred d.seat.log) ∧
      ∀ act d', d.Careful act → d.next wire act = some d' → ∀ entry ∈ d.seat.log.entries,
        d.seat.attachment.deferredFrom ≤ entry.1 → entry.1 < d'.seat.attachment.deferredFrom → d.Passes act entry := by
  have hsound : d.Sound := h.invariant (fun _ => sound_arrives) fun _ _ _ hd hok hnext => (hd.next hok hnext).1
  refine ⟨fun entry hentry hfrom hfits => ?_, fun act d' hok hnext => (hsound.next hok hnext).2⟩
  exact DeferredOsc.mem_carry_of_fits hsound.marked hentry hfrom hfits

/-- A client that resumes an epoch that is over, and so awaits a screen. -/
def lateSeat : Seat :=
  let s := SessionActor.new true ⟨80, 24⟩ 0
  s.seat (s.greet SessionActor.evenWire (s.newcomer 1 7 .new .new .stream 0) (some ⟨0, 0⟩) (SessionActor.calmWorld 0)).1

theorem lateSeat_arrives : (system SessionActor.evenWire).init ⟨lateSeat, []⟩ := by
  refine ⟨⟨SessionActor.new true ⟨80, 24⟩ 0, 1, 7, .new, .stream, some ⟨0, 0⟩, SessionActor.calmWorld 0, ?_, rfl, rfl, ?_⟩, rfl⟩
  · exact (SessionActor.seats_new true ⟨80, 24⟩ 0 : SessionActor.Seats (fun _ => True) _).kept
  · exact Prod.ext rfl (by decide)

/-- A title is set while the client awaits a screen, and the screen that carries it brings the client back to
the stream. -/
def titledRun : List Act :=
  [.output [escByte, 0x5d, 0x30, 0x3b, 0x61, belByte] ⟨80, 24⟩ true 0 0,
    .repaint .due SessionActor.noRows .empty ⟨80, 24⟩ (some ⟨32, []⟩) 100000000]

/-- A new generation gives the screen in flight up, and the title it carried is not owed any more. -/
theorem owed_forgotten_regrid :
    ∃ d d', (system SessionActor.evenWire).Reachable d ∧ d.next SessionActor.evenWire (.regrid 2 24) = some d' ∧
      ∃ entry ∈ d.seat.log.entries, d.seat.attachment.deferredFrom ≤ entry.1 ∧
        entry.1 < d'.seat.attachment.deferredFrom ∧ ¬d.Passes (.regrid 2 24) entry := by
  obtain ⟨d, hreach, hnext⟩ : ∃ d, (system SessionActor.evenWire).Reachable d ∧
      ((d.next SessionActor.evenWire (.regrid 2 24)).any fun d' => decide (∃ entry ∈ d.seat.log.entries,
        d.seat.attachment.deferredFrom ≤ entry.1 ∧ entry.1 < d'.seat.attachment.deferredFrom ∧ d.Carried entry)) = true :=
    System.Reachable.of_run ⟨lateSeat, []⟩ titledRun lateSeat_arrives (by decide +kernel)
  obtain ⟨d', hd', hpassed⟩ := (Option.any_eq_true _ _).1 hnext
  obtain ⟨entry, hentry, hfrom, hlt, hcarried⟩ := of_decide_eq_true hpassed
  refine ⟨d, d', hreach, hd', entry, hentry, hfrom, hlt, ?_⟩
  rintro (⟨_, _, hact, -⟩ | hnot)
  · cases hact
  · exact hnot hcarried

instance (d : Account) (act : Act) : Decidable (d.Careful act) :=
  match act with
  | .regrid _ _ | .restart _ _ => inferInstanceAs (Decidable (_ ∨ _))
  | .repaint _ _ _ _ _ _ => inferInstanceAs (Decidable (_ → _))
  | .aside _ _ _ _ | .path _ | .queue _ | .confirm _ _ | .output _ _ _ _ _ | .write _ => .isTrue trivial

/-- While the title is in flight the mark stays behind it, and passes it when the screen is confirmed. -/
theorem owed_until_confirmed_titledRun :
    ∃ d d', (system SessionActor.evenWire).Via Careful d ∧ d.next SessionActor.evenWire (.confirm 1 2) = some d' ∧
      ∃ entry ∈ d.seat.log.entries, d.Carried entry ∧ entry ∈ d.seat.attachment.owedDeferred d.seat.log ∧
        entry.1 < d'.seat.attachment.deferredFrom ∧ d.Passes (.confirm 1 2) entry := by
  obtain ⟨d, hvia, hnext⟩ : ∃ d, (system SessionActor.evenWire).Via Careful d ∧
      ((d.next SessionActor.evenWire (.confirm 1 2)).any fun d' => decide (∃ entry ∈ d.seat.log.entries,
        d.seat.attachment.deferredFrom ≤ entry.1 ∧
          DeferredOsc.cost (d.seat.log.since entry.1) ≤ d.seat.attachment.framing.deferredBudget ∧
          entry.1 < d'.seat.attachment.deferredFrom ∧ d.Carried entry)) = true :=
    System.Via.of_run ⟨lateSeat, []⟩ titledRun lateSeat_arrives (by decide +kernel)
  obtain ⟨d', hd', hpassed⟩ := (Option.any_eq_true _ _).1 hnext
  obtain ⟨entry, hentry, hfrom, hfits, hlt, hcarried⟩ := of_decide_eq_true hpassed
  obtain ⟨howed, hpasses⟩ := owed_until_confirmed hvia
  exact ⟨d, d', hvia, hd', entry, hentry, hcarried, howed entry hentry hfrom hfits, hlt,
    hpasses (.confirm 1 2) d' trivial hd' entry hentry hfrom hlt⟩

end Account

end Braid.Session
