import Braid.Daemon.Ledger

/-! What a plan says. A band the search returns moved only rows that are equal
where they land, and reveals no row outside the frame. The rows a delta names
ascend, with a band or without one, and planning a delta changes nothing of the
ledger but the rows in doubt and the cache of hashes. -/

namespace Braid.Daemon

open Foundation Screen

/-- A band that moves rows of `confirmed` to equal rows of `frame`. -/
structure BandSound (confirmed frame : List RowFrame) (count : ℕ) (band : ScrollBand) : Prop where
  lines : 0 < band.lines
  taller : band.top + band.lines < band.bottom
  bottom : band.bottom ≤ count
  moved : ∀ r, band.top ≤ r → r + band.lines < band.bottom → frame[r]? = confirmed[r + band.lines]?

theorem le_matchEnd (moved : ℕ → Bool) (last fuel row : ℕ) : row ≤ matchEnd moved last fuel row := by
  induction fuel generalizing row with
  | zero => exact le_rfl
  | succ fuel ih =>
    rw [matchEnd]
    split_ifs
    · exact (Nat.le_succ row).trans (ih _)
    · exact le_rfl

theorem lt_matchEnd {moved : ℕ → Bool} {last row : ℕ} (h : row < last) (hmoved : moved row = true) :
    row < matchEnd moved last (last - row) row := by
  obtain ⟨fuel, hfuel⟩ : ∃ fuel, last - row = fuel + 1 := ⟨last - row - 1, by omega⟩
  rw [hfuel, matchEnd, if_pos (by simp [h, hmoved])]
  exact le_matchEnd _ _ _ _

section Band

variable {confirmed frame : Hashed} {count : ℕ} {named : List PlannedRow} {carried : RowMask}

theorem scanShift_sound {lines : ℕ} (hpos : 0 < lines) (hle : lines ≤ count) (fuel row : ℕ)
    {best : Option (ℕ × ScrollBand)} (h : ∀ p ∈ best, BandSound confirmed.rows frame.rows count p.2) :
    ∀ p ∈ scanShift confirmed frame count named carried lines fuel row best,
      BandSound confirmed.rows frame.rows count p.2 := by
  induction fuel generalizing row best with
  | zero => exact h
  | succ fuel ih =>
    rw [scanShift]
    dsimp only
    split_ifs with hlast hmoved hbest
    · exact h
    · exact ih _ h
    · refine ih _ fun p hp => ?_
      obtain rfl := Option.mem_some_iff.mp hp
      rw [Nat.not_le] at hlast
      rw [Bool.not_eq_false] at hmoved
      have hlt := lt_matchEnd hlast hmoved
      simp only [Bool.and_eq_true, List.all_eq_true, List.mem_range'_1, beq_iff_eq] at hbest
      refine ⟨hpos, ?_, min_le_right _ _, fun r htop hr => hbest.2 r ?_⟩
      · simp only
        omega
      · simp only at htop hr
        omega
    · exact ih _ h

theorem searchShifts_sound (fuel : ℕ) {lines : ℕ} (hpos : 0 < lines) (hle : lines + fuel ≤ count)
    {best : Option (ℕ × ScrollBand)} (h : ∀ p ∈ best, BandSound confirmed.rows frame.rows count p.2) :
    ∀ p ∈ searchShifts confirmed frame count named carried fuel lines best,
      BandSound confirmed.rows frame.rows count p.2 := by
  induction fuel generalizing lines best with
  | zero => exact h
  | succ fuel ih =>
    rw [searchShifts]
    split_ifs
    · exact h
    · exact ih (Nat.succ_pos _) (by omega) (scanShift_sound hpos (by omega) _ _ h)

theorem band_sound {found : ScrollBand} (h : band confirmed frame count named carried = some found) :
    BandSound confirmed.rows frame.rows count found := by
  obtain ⟨⟨lowest, b⟩, hfilter, rfl⟩ := Option.map_eq_some_iff.mp h
  obtain ⟨hbest, -⟩ := Option.filter_eq_some_iff.mp hfilter
  by_cases hlimit : min (min named.length u16Max) count = 0
  · simp [hlimit, searchShifts] at hbest
  · exact searchShifts_sound _ Nat.one_pos (by omega) (fun _ hp => by cases hp) _ hbest

end Band

namespace ScreenLedger

variable {ledger : ScreenLedger} {frame : RepaintFrame}

theorem planRow_row {row : ℕ} {one : PlannedRow} (h : ledger.planRow frame row = some one) : one.row = row := by
  unfold planRow at h
  split_ifs at h
  · exact (Option.some.inj h) ▸ rfl
  · obtain ⟨runs, -, rfl⟩ := Option.map_eq_some_iff.mp h
    rfl

theorem mem_takeWhile_lt {l : List ℕ} (h : l.Pairwise (· < ·)) (count r : ℕ) :
    r ∈ l.takeWhile (fun row => row < count) ↔ r ∈ l ∧ r < count := by
  cases count with
  | zero => cases l <;> simp
  | succ count =>
    have := RowMask.mem_takeWhile_le h count r
    simpa only [Nat.lt_succ_iff] using this

theorem mem_namedRows {one : PlannedRow} :
    one ∈ ledger.namedRows frame ↔
      one.row < frame.rows.length ∧ (ledger.damage.get one.row = true ∨ ledger.sentUnconfirmed.get one.row = true) ∧
        ledger.planRow frame one.row = some one := by
  have hheight := frame.height
  simp only [namedRows, List.mem_filterMap, mem_takeWhile_lt (RowMask.iterEither_ascending _ _),
    RowMask.mem_iterEither]
  constructor
  · rintro ⟨row, ⟨⟨-, hmask⟩, hlt⟩, hplan⟩
    obtain rfl := planRow_row hplan
    exact ⟨hlt, hmask, hplan⟩
  · rintro ⟨hlt, hmask, hplan⟩
    exact ⟨one.row, ⟨⟨by omega, hmask⟩, hlt⟩, hplan⟩

theorem namedRows_ascending : (ledger.namedRows frame).Pairwise fun a b => a.row < b.row := by
  rw [namedRows, List.pairwise_filterMap]
  refine ((RowMask.iterEither_ascending _ _).sublist (List.takeWhile_sublist _)).imp ?_
  intro a b hab x hx y hy
  rwa [planRow_row hx, planRow_row hy]

theorem mem_scrollRows {rows : List PlannedRow} {band : ScrollBand} {one : PlannedRow} :
    one ∈ ledger.scrollRows rows band ↔
      one ∈ rows ∧ (one.row < band.top ∨ band.bottom ≤ one.row) ∨
        one.sending = .whole ∧ (band.top ≤ one.row ∧ one.row < band.bottom - band.lines ∧
          ledger.sentUnconfirmed.get (one.row + band.lines) = true ∨
          band.bottom - band.lines ≤ one.row ∧ one.row < band.bottom) := by
  obtain ⟨row, sending⟩ := one
  simp only [scrollRows, List.mem_append, List.mem_filter, List.mem_map, List.mem_range'_1, PlannedRow.mk.injEq,
    decide_eq_true_eq]
  constructor
  · rintro (((⟨hmem, hlt⟩ | ⟨r, ⟨hr, hc⟩, rfl, rfl⟩) | ⟨r, hr, rfl, rfl⟩) | ⟨hmem, hge⟩)
    · exact .inl ⟨hmem, .inl hlt⟩
    · exact .inr ⟨rfl, .inl ⟨hr.1, by omega, hc⟩⟩
    · exact .inr ⟨rfl, .inr ⟨hr.1, by omega⟩⟩
    · exact .inl ⟨hmem, .inr hge⟩
  · rintro (⟨hmem, hlt | hge⟩ | ⟨rfl, ⟨h1, h2, hc⟩ | ⟨h1, h2⟩⟩)
    · exact .inl (.inl (.inl ⟨hmem, hlt⟩))
    · exact .inr ⟨hmem, hge⟩
    · exact .inl (.inl (.inr ⟨row, ⟨⟨h1, by omega⟩, hc⟩, rfl, rfl⟩))
    · exact .inl (.inr ⟨row, ⟨h1, by omega⟩, rfl, rfl⟩)

theorem scrollRows_ascending {rows : List PlannedRow} (h : rows.Pairwise fun a b => a.row < b.row) {band : ScrollBand}
    (hband : band.top + band.lines < band.bottom) :
    (ledger.scrollRows rows band).Pairwise fun a b => a.row < b.row := by
  have hrange : ∀ start n : ℕ, ((List.range' start n).map fun row => (⟨row, .whole⟩ : PlannedRow)).Pairwise
      fun a b => a.row < b.row := fun start n => List.pairwise_map.mpr List.pairwise_lt_range'
  have hinherit : (((List.range' band.top (band.bottom - band.lines - band.top)).filter fun row =>
      ledger.sentUnconfirmed.get (row + band.lines)).map fun row => (⟨row, .whole⟩ : PlannedRow)).Pairwise
      fun a b => a.row < b.row :=
    (hrange _ _).sublist (List.filter_sublist.map _)
  simp only [scrollRows, List.pairwise_append, List.mem_append, List.mem_filter, List.mem_map, List.mem_range'_1,
    decide_eq_true_eq]
  refine ⟨⟨⟨h.sublist List.filter_sublist, hinherit, ?_⟩, hrange _ _, ?_⟩, h.sublist List.filter_sublist, ?_⟩
  · rintro a ⟨-, ha⟩ b ⟨r, ⟨hr, -⟩, rfl⟩
    exact ha.trans_le hr.1
  · rintro a (⟨-, ha⟩ | ⟨r, ⟨hr, -⟩, rfl⟩) b ⟨q, hq, rfl⟩
    · change a.row < q
      omega
    · change r < q
      omega
  · rintro a ((⟨-, ha⟩ | ⟨r, ⟨hr, -⟩, rfl⟩) | ⟨r, hr, rfl⟩) b ⟨-, hb⟩
    · omega
    · change r < b.row
      omega
    · change r < b.row
      omega

/-- A delta's plan for `frame` over `ledger`: the rows named alone, or around a
band, and the rows in doubt from then on. -/
inductive DeltaRows (ledger : ScreenLedger) (frame : RepaintFrame) :
    Option ScrollBand → List PlannedRow → RowMask → Prop
  | still : DeltaRows ledger frame none (ledger.namedRows frame) ledger.sentUnconfirmed
  | scrolled {band : ScrollBand} (sound : BandSound ledger.confirmedRows frame.rows frame.rows.length band) :
      DeltaRows ledger frame (some band) (ledger.scrollRows (ledger.namedRows frame) band)
        (ledger.sentUnconfirmed.setAll (List.range' band.top (band.bottom - band.top)))

/-- What planning a delta can do: refuse, or plan one over the confirmed screen;
either way only the rows in doubt and the hashes change. -/
inductive Planned (ledger : ScreenLedger) (frame : RepaintFrame) (generation : ℕ) :
    ScreenLedger × Plan × Bool → Prop
  | refused {carried : RowMask} {hashes : List UInt64} {plan : Plan}
      (grows : ∀ r, ledger.sentUnconfirmed.get r = true → carried.get r = true) :
      Planned ledger frame generation
        ({ ledger with sentUnconfirmed := carried, confirmedHashes := hashes }, plan, false)
  | delta {base : ℕ} {carried : RowMask} {hashes : List UInt64} {plan : Plan}
      (confirmed : ledger.confirmed = some (generation, base))
      (length : ledger.confirmedRows.length = frame.rows.length)
      (rows : DeltaRows ledger frame plan.scroll plan.rows carried) :
      Planned ledger frame generation
        ({ ledger with sentUnconfirmed := carried, confirmedHashes := hashes }, { plan with base := base }, true)

section

variable {scroll : Option ScrollBand} {rows : List PlannedRow} {carried : RowMask}
  (h : DeltaRows ledger frame scroll rows carried)

include h

theorem DeltaRows.grows {r : ℕ} (hr : ledger.sentUnconfirmed.get r = true) :
    carried.get r = true := by
  cases h with
  | still => exact hr
  | scrolled => simp [hr]

/-- Every row of the band is in doubt until the client answers. -/
theorem DeltaRows.carries {band : ScrollBand} (hband : band ∈ scroll) {r : ℕ}
    (hr : band.top ≤ r ∧ r < band.bottom) : carried.get r = true := by
  cases h with
  | still => cases hband
  | scrolled =>
    obtain rfl := Option.mem_some_iff.mp hband
    simp only [RowMask.get_setAll, List.mem_range'_1, Bool.or_eq_true, decide_eq_true_eq]
    omega

end

theorem namedRows_of_isEmpty (hd : ledger.damage.isEmpty = true) (hs : ledger.sentUnconfirmed.isEmpty = true) :
    ledger.namedRows frame = [] := by
  rw [List.eq_nil_iff_forall_not_mem]
  intro one hone
  obtain ⟨-, hmask, -⟩ := mem_namedRows.mp hone
  simp [(RowMask.isEmpty_iff _).mp hd, (RowMask.isEmpty_iff _).mp hs] at hmask

/-- A delta is taken when it names fewer rows than the frame has. -/
theorem DeltaRows.planned {generation base : ℕ} {carried : RowMask} {hashes : List UInt64} (plan : Plan)
    (hconfirmed : ledger.confirmed = some (generation, base))
    (hlength : ledger.confirmedRows.length = frame.rows.length)
    (h : DeltaRows ledger frame plan.scroll plan.rows carried) (taken : Bool) :
    Planned ledger frame generation
      ({ ledger with sentUnconfirmed := carried, confirmedHashes := hashes }, { plan with base := base }, taken) := by
  cases taken with
  | false => exact .refused fun _ hr => h.grows hr
  | true => exact .delta hconfirmed hlength h

theorem findBand_sound (ledger : ScreenLedger) (frame : RepaintFrame) (named : List PlannedRow) :
    ∃ hashes found, ledger.findBand frame named = ({ ledger with confirmedHashes := hashes }, found) ∧
      ∀ band ∈ found, BandSound ledger.confirmedRows frame.rows frame.rows.length band :=
  ⟨_, _, rfl, fun _ hband => band_sound hband⟩

theorem planDelta_planned (ledger : ScreenLedger) (frame : RepaintFrame) (generation : ℕ) (plan : Plan)
    (hscroll : plan.scroll = none) (hrows : plan.rows = []) :
    Planned ledger frame generation (ledger.planDelta frame generation plan) := by
  have hrefused : Planned ledger frame generation (ledger, plan, false) := .refused fun _ hr => hr
  unfold planDelta
  cases hconfirmed : ledger.confirmed with
  | none => exact hrefused
  | some stamp =>
    dsimp only
    split_ifs with hbase hempty hmany
    · exact hrefused
    · push Not at hbase
      rw [Bool.and_eq_true] at hempty
      have hstill : DeltaRows ledger frame plan.scroll plan.rows ledger.sentUnconfirmed := by
        rw [hscroll, hrows, ← namedRows_of_isEmpty hempty.1 hempty.2]
        exact .still
      exact hstill.planned plan (hbase.1 ▸ hconfirmed) hbase.2 true
    · push Not at hbase
      obtain ⟨hashes, found, hfind, hsound⟩ := ledger.findBand_sound frame (ledger.namedRows frame)
      rw [hscroll, hfind]
      cases found with
      | none =>
        exact DeltaRows.still.planned { plan with scroll := none, rows := ledger.namedRows frame }
          (hbase.1 ▸ hconfirmed) hbase.2 _
      | some found =>
        exact (DeltaRows.scrolled (hsound found rfl)).planned
          { plan with scroll := some found, rows := ledger.scrollRows (ledger.namedRows frame) found }
          (hbase.1 ▸ hconfirmed) hbase.2 _
    · push Not at hbase
      rw [hscroll]
      exact DeltaRows.still.planned { plan with scroll := none, rows := ledger.namedRows frame }
        (hbase.1 ▸ hconfirmed) hbase.2 _

end ScreenLedger

end Braid.Daemon
