import Braid.Daemon.Converge

/-! Runs of the ledger. A history keeps, beside the ledger, the last frame
planned, the last frame confirmed and the plans made since that confirmation. -/

namespace Braid.Daemon

open Foundation Screen

namespace ScreenLedger

variable {ledger : ScreenLedger} {frame : RepaintFrame} {generation version : ℕ}

theorem get_damage_releaseInFlight (h : ledger.pending = none → ∀ r, ledger.inFlightDamage.get r = false) (r : ℕ) :
    ledger.releaseInFlight.damage.get r = (ledger.damage.get r || ledger.inFlightDamage.get r) := by
  unfold releaseInFlight
  split_ifs with hp
  · simp
  · rw [h (by simpa using hp), Bool.or_false]

theorem releaseInFlight_frame (ledger : ScreenLedger) :
    ledger.releaseInFlight.confirmed = ledger.confirmed ∧
      ledger.releaseInFlight.confirmedRows = ledger.confirmedRows ∧
      ledger.releaseInFlight.sentUnconfirmed = ledger.sentUnconfirmed ∧
      ledger.releaseInFlight.pendingRows = ledger.pendingRows ∧
      ledger.releaseInFlight.pending = none := by
  unfold releaseInFlight
  split_ifs with hp
  · exact ⟨rfl, rfl, rfl, rfl, rfl⟩
  · exact ⟨rfl, rfl, rfl, rfl, by simpa using hp⟩

/-- What `plan` does: a whole screen or a delta over the confirmed one, with
every row it may change in doubt from then on. -/
structure PlanOf (ledger : ScreenLedger) (frame : RepaintFrame) (generation version : ℕ)
    (result : ScreenLedger × Plan) : Prop where
  confirmed : result.1.confirmed = ledger.confirmed
  confirmedRows : result.1.confirmedRows = ledger.confirmedRows
  pending : result.1.pending = some (generation, version)
  pendingRows : result.1.pendingRows = frame.rows
  inFlightDamage : result.1.inFlightDamage = ledger.releaseInFlight.damage
  grows : ∀ r, ledger.sentUnconfirmed.get r = true → result.1.sentUnconfirmed.get r = true
  touches : ∀ r, result.2.Touches frame.rows r → result.1.sentUnconfirmed.get r = true
  delta : result.2.full = false → ∃ carried, ledger.confirmed = some (generation, result.2.base) ∧
    ledger.confirmedRows.length = frame.rows.length ∧
    DeltaRows ledger.releaseInFlight frame result.2.scroll result.2.rows carried

theorem plan_planOf (ledger : ScreenLedger) (frame : RepaintFrame) (generation version : ℕ) :
    PlanOf ledger frame generation version (ledger.plan frame generation version) := by
  obtain ⟨hconfirmed, hrows, hsent, -, -⟩ := ledger.releaseInFlight_frame
  have hplanned := ledger.releaseInFlight.planDelta_planned frame generation ⟨true, initialVersion, none, []⟩ rfl rfl
  unfold plan
  dsimp only
  generalize ledger.releaseInFlight.planDelta frame generation ⟨true, initialVersion, none, []⟩ = result at hplanned
  cases hplanned with
  | refused grows =>
    refine ⟨hconfirmed, hrows, rfl, rfl, rfl, fun r hr => ?_, fun r hr => ?_, nofun⟩
    · simp [grows r (hsent ▸ hr)]
    · have hlt : r < frame.rows.length := hr
      simp [hlt]
  | delta hbase hlength delta =>
    refine ⟨hconfirmed, hrows, rfl, rfl, rfl, fun r hr => ?_, fun r hr => ?_, fun _ => ?_⟩
    · simp [delta.grows (hsent ▸ hr)]
    · rcases hr with ⟨one, hone, rfl⟩ | ⟨band, hband, hin⟩
      · simp only [if_true, RowMask.get_setAll, Bool.or_eq_true, decide_eq_true_eq]
        exact .inl (List.mem_map_of_mem hone)
      · simp [delta.carries hband hin]
    · exact ⟨_, hconfirmed ▸ hbase, hrows ▸ hlength, delta⟩

variable {scroll : Option ScrollBand} {rows : List PlannedRow} {carried : RowMask}

theorem DeltaRows.row_lt (h : DeltaRows ledger frame scroll rows carried) {one : PlannedRow} (hone : one ∈ rows) :
    one.row < frame.rows.length := by
  cases h with
  | still => exact (mem_namedRows.mp hone).1
  | scrolled sound =>
    have hbottom := sound.bottom
    obtain ⟨hnamed, -⟩ | ⟨-, hinside⟩ := mem_scrollRows.mp hone
    · exact (mem_namedRows.mp hnamed).1
    · omega

theorem DeltaRows.bandSound (h : DeltaRows ledger frame scroll rows carried) {band : ScrollBand} (hband : band ∈ scroll) :
    BandSound ledger.confirmedRows frame.rows frame.rows.length band := by
  cases h with
  | still => cases hband
  | scrolled sound => exact Option.mem_some_iff.mp hband ▸ sound

/-- Whatever the ledger holds, it plans a whole screen or a delta that a client can apply: over
the confirmed screen, naming rows of the grid in ascending order, with a band that fits the grid
and moves confirmed rows to where the frame has them. -/
theorem plan_applicable (ledger : ScreenLedger) (frame : RepaintFrame) (generation version : ℕ) :
    let plan := (ledger.plan frame generation version).2
    plan.full = true ∨ ledger.confirmed = some (generation, plan.base) ∧
      (plan.rows.Pairwise fun a b => a.row < b.row) ∧ (∀ one ∈ plan.rows, one.row < frame.rows.length) ∧
      ∀ band ∈ plan.scroll, band.isApplicable frame.rows.length = true ∧
        ∀ r, band.top ≤ r → r + band.lines < band.bottom → frame.rows[r]? = ledger.confirmedRows[r + band.lines]? := by
  intro plan
  cases hfull : plan.full with
  | true => exact .inl rfl
  | false =>
    obtain ⟨carried, hbase, -, hrows⟩ := (ledger.plan_planOf frame generation version).delta hfull
    refine .inr ⟨hbase, hrows.ascending, fun one hone => hrows.row_lt hone, fun band hband => ?_⟩
    obtain ⟨hlines, htaller, hbottom, hmoved⟩ := hrows.bandSound hband
    refine ⟨?_, ledger.releaseInFlight_frame.2.1 ▸ hmoved⟩
    simp only [ScrollBand.isApplicable, Bool.and_eq_true, decide_eq_true_eq]
    omega

end ScreenLedger

structure History where
  ledger : ScreenLedger
  /-- The last frame planned, and the pair it was planned under. -/
  last : Option (List RowFrame)
  newest : Option (ℕ × ℕ)
  /-- The last frame confirmed. -/
  held : List RowFrame
  /-- The plans made since, oldest first, each with its frame. -/
  unconfirmed : List (Plan × List RowFrame)

inductive LedgerAction where
  | noteDamage (dirty : RowMask)
  | plan (frame : RepaintFrame) (generation version : ℕ)
  | confirm (generation version : ℕ)
  | releaseInFlight
  | invalidate (rows : ℕ)
  deriving DecidableEq

namespace History

def new : History := ⟨.new, none, none, [], []⟩

def next (s : History) : LedgerAction → Option History
  | .noteDamage dirty => some { s with ledger := s.ledger.noteDamage dirty }
  | .plan frame generation version =>
    let (ledger, plan) := s.ledger.plan frame generation version
    some { s with
      ledger := ledger
      last := some frame.rows
      newest := some (generation, version)
      unconfirmed := s.unconfirmed ++ [(plan, frame.rows)] }
  | .confirm generation version =>
    match s.ledger.confirm generation version with
    | (ledger, true) => some { s with ledger := ledger, held := s.last.getD [], unconfirmed := [] }
    | (ledger, false) => some { s with ledger := ledger }
  | .releaseInFlight => some { s with ledger := s.ledger.releaseInFlight }
  | .invalidate rows => some { s with ledger := s.ledger.invalidate rows }

def system : System History LedgerAction := ⟨(· = new), next⟩

/-- A plan is made of rows whose runs tile them, with damage accumulated for
every row that changed since the frame before. -/
def Covered (s : History) : LedgerAction → Prop
  | .plan frame _ _ => (∀ row ∈ frame.rows, row.Tiles) ∧ ∀ previous ∈ s.last, ∀ r < frame.rows.length,
      frame.rows[r]? ≠ previous[r]? → s.ledger.releaseInFlight.damage.get r = true
  | _ => True

instance (s : History) (a : LedgerAction) : Decidable (s.Covered a) := by
  cases a <;> unfold Covered <;> infer_instance

/-- The newest plan, applied over the last confirmed frame and any part of the
plans between, leaves the frame it was made from. -/
def Converges (held : List RowFrame) (earlier : List (Plan × List RowFrame)) (plan : Plan) (frame : List RowFrame) :
    Prop :=
  ∀ base : Rows, (∀ r < held.length, base r = (held.getD r .blank).paint) →
    ∀ rows, AppliedPartly earlier base rows → ∀ r < frame.length, plan.apply frame rows r = (frame.getD r .blank).paint

/-- What the ledger's fields say of the past. -/
structure Sound (s : History) : Prop where
  pending : ∀ stamp ∈ s.ledger.pending, s.newest = some stamp ∧ s.last = some s.ledger.pendingRows ∧
    ∀ row ∈ s.ledger.pendingRows, row.Tiles
  confirmed : s.ledger.confirmed.isSome → s.ledger.confirmedRows = s.held ∧ (∀ row ∈ s.held, row.Tiles) ∧ s.last.isSome
  calm : s.ledger.pending = none → ∀ r, s.ledger.inFlightDamage.get r = false
  damage : s.ledger.confirmed.isSome → ∀ previous ∈ s.last, ∀ r < previous.length, previous[r]? ≠ s.held[r]? →
    s.ledger.damage.get r = true ∨ s.ledger.inFlightDamage.get r = true
  carried : s.ledger.confirmed.isSome → ∀ one ∈ s.unconfirmed, ∀ r, one.1.Touches one.2 r →
    s.ledger.sentUnconfirmed.get r = true
  converges : ∀ earlier plan frame, s.unconfirmed = earlier ++ [(plan, frame)] → Converges s.held earlier plan frame

variable {s s' : History}

theorem sound_new : Sound new where
  pending := nofun
  confirmed := nofun
  calm _ r := RowMask.get_empty r
  damage := nofun
  carried := nofun
  converges earlier plan frame h := by simp [new] at h

section

variable (h : Sound s) {frame : RepaintFrame} {generation version : ℕ}
  (hok : s.Covered (.plan frame generation version))

include h hok

theorem Sound.damaged (hc : s.ledger.confirmed.isSome) {r : ℕ}
    (hr : r < frame.rows.length) (hne : frame.rows[r]? ≠ s.held[r]?) :
    s.ledger.releaseInFlight.damage.get r = true := by
  obtain ⟨previous, hprevious⟩ := Option.isSome_iff_exists.mp (h.confirmed hc).2.2
  by_cases hsame : frame.rows[r]? = previous[r]?
  · have hlt : r < previous.length := by
      rw [List.getElem?_eq_getElem hr] at hsame
      exact (List.getElem?_eq_some_iff.mp hsame.symm).1
    rw [ScreenLedger.get_damage_releaseInFlight h.calm, Bool.or_eq_true]
    exact h.damage hc previous hprevious r hlt (hsame ▸ hne)
  · exact hok.2 previous hprevious r hr hsame

/-- What a delta rests on holds of every client a run allows. -/
theorem Sound.basis (hc : s.ledger.confirmed.isSome)
    (hlen : s.ledger.confirmedRows.length = frame.rows.length) {base rows : Rows}
    (hbase : ∀ r < s.held.length, base r = (s.held.getD r .blank).paint) (happlied : AppliedPartly s.unconfirmed base rows) :
    Basis s.ledger.releaseInFlight frame rows := by
  obtain ⟨-, hrows, hsent, -, -⟩ := s.ledger.releaseInFlight_frame
  obtain ⟨hheld, htiles, -⟩ := h.confirmed hc
  constructor
  · rw [hrows, hlen]
  · intro r hr hcarried
    rw [hsent] at hcarried
    rw [hrows, hheld, happlied.eq_of_not_touches, hbase r (by rwa [← hheld, hlen])]
    intro one hone htouch
    rw [h.carried hc one hone r htouch] at hcarried
    cases hcarried
  · intro r hr hne
    rw [hrows, hheld] at hne
    exact h.damaged hok hc hr hne
  · exact hok.1
  · rw [hrows, hheld]
    exact htiles

/-- A plan made over what it rests on converges; a whole screen needs nothing. -/
theorem Sound.plan_converges :
    Converges s.held s.unconfirmed (s.ledger.plan frame generation version).2 frame.rows := by
  have hplan := s.ledger.plan_planOf frame generation version
  intro base hbase rows happlied r hr
  cases hfull : (s.ledger.plan frame generation version).2.full with
  | true => simp [Plan.apply, Plan.applyPart, hfull, hr]
  | false =>
    obtain ⟨carried, hconfirmed, hlen, hdelta⟩ := hplan.delta hfull
    have hbasis := h.basis hok (by rw [hconfirmed]; rfl) hlen hbase happlied
    have hready := hdelta.ready hbasis hr
    have happly : (s.ledger.plan frame generation version).2.apply frame.rows rows =
        (s.ledger.plan frame generation version).2.rows.foldl (Rows.land frame.rows)
          ((s.ledger.plan frame generation version).2.scroll.elim rows rows.scrolled) := by
      rw [Plan.apply, Plan.applyPart, hfull]
      cases (s.ledger.plan frame generation version).2.scroll <;> simp
    rw [happly]
    exact hready.foldl_land hdelta.ascending (hok.1 _ (getD_mem hr))

theorem Sound.plan (hs : s.next (.plan frame generation version) = some s') :
    Sound s' := by
  have hplan := s.ledger.plan_planOf frame generation version
  have hconverges := h.plan_converges hok
  rw [next] at hs
  generalize s.ledger.plan frame generation version = result at hs hplan hconverges
  cases hs
  refine ⟨?_, ?_, ?_, ?_, ?_, ?_⟩ <;> dsimp only at *
  · intro stamp hstamp
    rw [hplan.pending, Option.mem_some_iff] at hstamp
    exact ⟨congrArg some hstamp, congrArg some hplan.pendingRows.symm, hplan.pendingRows ▸ hok.1⟩
  · rw [hplan.confirmed, hplan.confirmedRows]
    intro hc
    obtain ⟨hheld, htiles, -⟩ := h.confirmed hc
    exact ⟨hheld, htiles, rfl⟩
  · rw [hplan.pending]
    nofun
  · rw [hplan.confirmed, hplan.inFlightDamage]
    rintro hc previous hprevious r hr hne
    obtain rfl := Option.mem_some_iff.mp hprevious
    exact .inr (h.damaged hok hc hr hne)
  · rw [hplan.confirmed]
    intro hc one hone r htouch
    rcases List.mem_append.mp hone with hold | hnew
    · exact hplan.grows r (h.carried hc one hold r htouch)
    · obtain rfl := List.mem_singleton.mp hnew
      exact hplan.touches r htouch
  · intro earlier newest rows heq
    obtain ⟨rfl, hnew⟩ := List.append_inj' heq rfl
    obtain ⟨rfl, rfl⟩ := Prod.mk.inj (List.singleton_inj.mp hnew)
    exact hconverges

end

theorem Sound.confirm (h : Sound s) {generation version : ℕ} (hs : s.next (.confirm generation version) = some s') :
    Sound s' := by
  rw [next, ScreenLedger.confirm] at hs
  by_cases hp : s.ledger.pending = some (generation, version)
  · rw [if_neg (not_not.mpr hp)] at hs
    cases hs
    obtain ⟨-, hlast, htiles⟩ := h.pending _ hp
    have hheld : s.last.getD [] = s.ledger.pendingRows := by rw [hlast, Option.getD_some]
    refine ⟨nofun, fun _ => ⟨hheld.symm, hheld ▸ htiles, by simp [hlast]⟩, fun _ r => RowMask.get_clearAll _ r, ?_,
      nofun, fun _ _ _ heq => by simp at heq⟩
    intro _ previous hprevious r _ hne
    rw [show s.last = some previous from hprevious] at hne
    exact absurd rfl hne
  · rw [if_pos hp] at hs
    cases hs
    exact h

theorem Sound.next (h : Sound s) {a : LedgerAction} (hok : s.Covered a) (hs : s.next a = some s') : Sound s' := by
  cases a with
  | plan frame generation version => exact h.plan hok hs
  | confirm generation version => exact h.confirm hs
  | noteDamage dirty =>
    cases hs
    refine ⟨h.pending, h.confirmed, h.calm, fun hc previous hp r hr hne => ?_, h.carried, h.converges⟩
    refine (h.damage hc previous hp r hr hne).imp_left fun hd => ?_
    simp [ScreenLedger.noteDamage, hd]
  | releaseInFlight =>
    cases hs
    obtain ⟨hconfirmed, hrows, hsent, hpendingRows, hpending⟩ := s.ledger.releaseInFlight_frame
    refine ⟨?_, ?_, ?_, ?_, ?_, h.converges⟩ <;> dsimp only
    · rw [hpending]
      nofun
    · rw [hconfirmed, hrows]
      exact h.confirmed
    · intro _ r
      unfold ScreenLedger.releaseInFlight
      split_ifs with hp
      · exact RowMask.get_clearAll _ r
      · exact h.calm (by simpa using hp) r
    · rw [hconfirmed]
      intro hc previous hp r hr hne
      rw [ScreenLedger.get_damage_releaseInFlight h.calm, Bool.or_eq_true]
      exact .inl (h.damage hc previous hp r hr hne)
    · rw [hconfirmed, hsent]
      exact h.carried
  | invalidate rows =>
    cases hs
    exact ⟨nofun, nofun, fun _ r => RowMask.get_reset rows r, nofun, nofun, h.converges⟩

theorem via_sound (h : system.Via Covered s) : Sound s :=
  h.invariant (by rintro _ rfl; exact sound_new) fun _ _ _ h hok hs => h.next hok hs

/-- In every run whose plans are covered by damage, the newest plan brings any
client that holds the last confirmed frame, with any part of the plans since, to
the frame it was made from; and only the newest pair can be confirmed. -/
theorem newest_plan_converges (h : system.Via Covered s) :
    (∀ earlier plan frame, s.unconfirmed = earlier ++ [(plan, frame)] → Converges s.held earlier plan frame) ∧
      ∀ generation version, s.newest ≠ some (generation, version) →
        s.ledger.confirm generation version = (s.ledger, false) := by
  have hsound := via_sound h
  refine ⟨hsound.converges, fun generation version hne => ?_⟩
  rw [ScreenLedger.confirm, if_pos]
  exact fun hp => hne (hsound.pending _ hp).1

/-- A screen of two rows is confirmed, then two deltas of its first row are
planned and neither is answered. -/
def shortRun : List LedgerAction :=
  let frame (text : Text) : RepaintFrame :=
    ⟨[⟨text, [⟨2, 2, { attrs := 1 }⟩], 4⟩, ⟨['c'], [], 4⟩], Nat.le_of_ble_eq_true rfl⟩
  [.invalidate 2, .plan (frame ['a', 'b']) 1 1, .confirm 1 1, .noteDamage (RowMask.empty.set 0),
    .plan (frame ['a', 'x']) 1 2, .noteDamage (RowMask.empty.set 0), .plan (frame ['a', 'b', 'y']) 1 3]

theorem newest_plan_converges_shortRun : ∃ s earlier plan frame, system.Via Covered s ∧
    s.unconfirmed = earlier ++ [(plan, frame)] ∧ plan.full = false ∧ Converges s.held earlier plan frame := by
  obtain ⟨s, hvia, hplans⟩ : ∃ s, system.Via Covered s ∧ s.unconfirmed.map (·.1.full) = [false, false] :=
    System.Via.of_run new shortRun rfl (by decide)
  obtain ⟨first, plans, hunconfirmed, -, hplans⟩ := List.map_eq_cons_iff.mp hplans
  obtain ⟨⟨plan, frame⟩, plans, rfl, hfull, hplans⟩ := List.map_eq_cons_iff.mp hplans
  obtain rfl := List.map_eq_nil_iff.mp hplans
  exact ⟨s, [first], plan, frame, hvia, hunconfirmed, hfull, (newest_plan_converges hvia).1 _ _ _ hunconfirmed⟩

end History

end Braid.Daemon
