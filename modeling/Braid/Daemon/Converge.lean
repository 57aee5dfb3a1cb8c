import Braid.Daemon.Planning
import Braid.Foundation.System
import Braid.Screen.Patch
import Mathlib.Logic.Function.Basic

/-! The ledger and the rows a client holds. A client that holds the confirmed
frame may have applied, of every unconfirmed screen since, the band or not and
any of its rows; the rows it may hold differently are all in doubt at the
ledger. The newest plan sends those whole, so wherever it lands it leaves the
frame it was made from. -/

namespace Braid.Daemon

open Foundation Screen

abbrev Rows := ℕ → RowFrame

def Rows.scrolled (held : Rows) (band : ScrollBand) : Rows := fun row =>
  if band.top ≤ row ∧ row < band.bottom then
    if row + band.lines < band.bottom then held (row + band.lines) else .blank
  else held row

def PlannedRow.landed (one : PlannedRow) (frame : List RowFrame) (held : RowFrame) : RowFrame :=
  match one.sending with
  | .whole => (frame.getD one.row .blank).paint
  | .span runs clearTail => held.patched (frame.getD one.row .blank) runs clearTail

def Rows.land (frame : List RowFrame) (held : Rows) (one : PlannedRow) : Rows :=
  Function.update held one.row (one.landed frame (held one.row))

/-- A plan applied in part: its band if `scrolls`, and those of its rows that
`takes` holds of. -/
def Plan.applyPart (plan : Plan) (frame : List RowFrame) (scrolls : Bool) (takes : ℕ → Bool) (held : Rows) : Rows :=
  if plan.full then fun row => if row < frame.length ∧ takes row then (frame.getD row .blank).paint else held row
  else
    let held := match plan.scroll with
      | some band => if scrolls then held.scrolled band else held
      | none => held
    (plan.rows.filter fun one => takes one.row).foldl (Rows.land frame) held

def Plan.apply (plan : Plan) (frame : List RowFrame) (held : Rows) : Rows :=
  plan.applyPart frame true (fun _ => true) held

/-- The rows a client may hold after any part of each of these screens, in order. -/
inductive AppliedPartly : List (Plan × List RowFrame) → Rows → Rows → Prop
  | nil (held : Rows) : AppliedPartly [] held held
  | cons {plan : Plan} {frame : List RowFrame} {rest : List (Plan × List RowFrame)} {held held' : Rows}
      (scrolls : Bool) (takes : ℕ → Bool) :
      AppliedPartly rest (plan.applyPart frame scrolls takes held) held' →
      AppliedPartly ((plan, frame) :: rest) held held'

/-! ### Landing rows -/

variable {frame : List RowFrame} {rows : List PlannedRow}

theorem Rows.foldl_land_of_not_mem {held : Rows} {r : ℕ}
    (h : ∀ one ∈ rows, one.row ≠ r) : rows.foldl (Rows.land frame) held r = held r := by
  induction rows generalizing held with
  | nil => rfl
  | cons one rows ih =>
    obtain ⟨hne, hrest⟩ := List.forall_mem_cons.mp h
    rw [List.foldl_cons, ih hrest, Rows.land, Function.update_of_ne hne.symm]

theorem Rows.foldl_land_of_mem {held : Rows} {one : PlannedRow}
    (hasc : rows.Pairwise fun a b => a.row < b.row) (hone : one ∈ rows) :
    rows.foldl (Rows.land frame) held one.row = one.landed frame (held one.row) := by
  induction rows generalizing held with
  | nil => cases hone
  | cons first rows ih =>
    obtain ⟨hfirst, hrest⟩ := List.pairwise_cons.mp hasc
    rw [List.foldl_cons]
    rcases List.mem_cons.mp hone with rfl | hmem
    · rw [foldl_land_of_not_mem fun other hother => (hfirst other hother).ne', Rows.land, Function.update_self]
    · rw [ih hrest hmem, Rows.land, Function.update_of_ne (hfirst one hmem).ne']

/-- A row some part of the plan may change. -/
def Plan.Touches (plan : Plan) (frame : List RowFrame) (r : ℕ) : Prop :=
  if plan.full then r < frame.length
  else (∃ one ∈ plan.rows, one.row = r) ∨ ∃ band ∈ plan.scroll, band.top ≤ r ∧ r < band.bottom

theorem Plan.applyPart_of_not_touches {plan : Plan} {r : ℕ} (h : ¬ plan.Touches frame r)
    (scrolls : Bool) (takes : ℕ → Bool) (held : Rows) : plan.applyPart frame scrolls takes held r = held r := by
  unfold Touches at h
  unfold applyPart
  by_cases hfull : plan.full = true
  · rw [if_pos hfull] at h ⊢
    simp [h]
  · rw [if_neg hfull] at h ⊢
    push Not at h
    rw [Rows.foldl_land_of_not_mem fun one hone => h.1 one (List.mem_of_mem_filter hone)]
    cases hscroll : plan.scroll with
    | none => rfl
    | some band =>
      have hout : ¬ (band.top ≤ r ∧ r < band.bottom) := fun hin => Nat.not_lt.mpr (h.2 band hscroll hin.1) hin.2
      cases scrolls <;> simp [Rows.scrolled, hout]

theorem AppliedPartly.eq_of_not_touches {sent : List (Plan × List RowFrame)} {held held' : Rows}
    (h : AppliedPartly sent held held') {r : ℕ} (hr : ∀ one ∈ sent, ¬ one.1.Touches one.2 r) : held' r = held r := by
  induction h with
  | nil => rfl
  | cons scrolls takes _ ih =>
    obtain ⟨hfirst, hrest⟩ := List.forall_mem_cons.mp hr
    rw [ih hrest, Plan.applyPart_of_not_touches hfirst]

/-! ### A delta over the rows it assumes -/

/-- What a delta rests on: a row not in doubt is held as it was confirmed, and a
row that differs from the confirmed one is damaged. -/
structure Basis (ledger : ScreenLedger) (frame : RepaintFrame) (held : Rows) : Prop where
  length : ledger.confirmedRows.length = frame.rows.length
  held : ∀ r < frame.rows.length, ledger.sentUnconfirmed.get r = false →
    held r = (ledger.confirmedRows.getD r .blank).paint
  damage : ∀ r < frame.rows.length, frame.rows[r]? ≠ ledger.confirmedRows[r]? → ledger.damage.get r = true
  tiles : ∀ row ∈ frame.rows, row.Tiles
  confirmedTiles : ∀ row ∈ ledger.confirmedRows, row.Tiles

/-- A row a plan will leave right: it is right already, or sent whole, or sent
as the runs in which it differs from what is held. -/
inductive Ready (frame : List RowFrame) (rows : List PlannedRow) (r : ℕ) (held : RowFrame) : Prop
  | unnamed : (∀ one ∈ rows, one.row ≠ r) → held = (frame.getD r .blank).paint → Ready frame rows r held
  | whole : ⟨r, .whole⟩ ∈ rows → Ready frame rows r held
  | span {previous : RowFrame} {runs : ℕ × ℕ} : ⟨r, partialPlan (frame.getD r .blank) runs⟩ ∈ rows →
      previous.Tiles → held = previous.paint → (frame.getD r .blank).changedSpan previous = some runs →
      Ready frame rows r held

theorem getD_mem {rows : List RowFrame} {r : ℕ} (h : r < rows.length) : rows.getD r .blank ∈ rows := by
  rw [List.getD_eq_getElem _ _ h]
  exact List.getElem_mem h

theorem getD_eq_of_getElem? {rows rows' : List RowFrame} {r r' : ℕ} (h : rows[r]? = rows'[r']?) :
    rows.getD r .blank = rows'.getD r' .blank := by
  rw [List.getD_eq_getElem?_getD, h, List.getD_eq_getElem?_getD]

namespace ScreenLedger

variable {ledger : ScreenLedger} {frame : RepaintFrame} {held : Rows} {r : ℕ}

theorem namedRows_ready (h : Basis ledger frame held) (hr : r < frame.rows.length) :
    Ready frame.rows (ledger.namedRows frame) r (held r) := by
  have hlen : r < ledger.confirmedRows.length := h.length ▸ hr
  by_cases hcarried : ledger.sentUnconfirmed.get r = true
  · refine .whole (mem_namedRows.mpr ⟨hr, .inr hcarried, ?_⟩)
    rw [planRow, if_pos hcarried]
  have hheld := h.held r hr (Bool.not_eq_true _ ▸ hcarried)
  have hplan : ledger.planRow frame r = ((frame.rows.getD r .blank).changedSpan
      (ledger.confirmedRows.getD r .blank)).map fun runs => ⟨r, partialPlan (frame.rows.getD r .blank) runs⟩ := by
    rw [planRow, if_neg hcarried]
  have htiles := h.tiles _ (getD_mem hr)
  have htiles' := h.confirmedTiles _ (getD_mem hlen)
  by_cases hdamage : ledger.damage.get r = true
  · cases hspan : (frame.rows.getD r .blank).changedSpan (ledger.confirmedRows.getD r .blank) with
    | none =>
      refine .unnamed (fun one hone hrow => ?_) (hheld.trans ?_)
      · obtain ⟨-, -, hone⟩ := mem_namedRows.mp hone
        rw [hrow, hplan, hspan] at hone
        cases hone
      · exact RowFrame.paint_eq_of_changedSpan_none htiles htiles' hspan
    | some runs =>
      refine .span (mem_namedRows.mpr ⟨hr, .inl hdamage, ?_⟩) htiles' hheld hspan
      rw [hplan, hspan]
      rfl
  · refine .unnamed (fun one hone hrow => ?_) (hheld.trans ?_)
    · obtain ⟨-, hmask, -⟩ := mem_namedRows.mp hone
      rw [hrow] at hmask
      exact hmask.elim hdamage hcarried
    · rw [getD_eq_of_getElem? (not_not.mp fun hne => hdamage (h.damage r hr hne))]

section

variable {scroll : Option ScrollBand} {rows : List PlannedRow} {carried : RowMask}
  (hrows : DeltaRows ledger frame scroll rows carried)

include hrows

/-- Every row of the frame is ready for a delta's rows once its band is applied. -/
theorem DeltaRows.ready (h : Basis ledger frame held) (hr : r < frame.rows.length) :
    Ready frame.rows rows r (scroll.elim held held.scrolled r) := by
  cases hrows with
  | still => exact namedRows_ready h hr
  | scrolled sound =>
    rename_i band
    have htaller := sound.taller
    rw [Option.elim_some, Rows.scrolled]
    by_cases hin : band.top ≤ r ∧ r < band.bottom
    · rw [if_pos hin]
      split_ifs with hmoved
      · by_cases hcarried : ledger.sentUnconfirmed.get (r + band.lines) = true
        · exact .whole (mem_scrollRows.mpr (.inr ⟨rfl, .inl ⟨hin.1, by simp only; omega, hcarried⟩⟩))
        · refine .unnamed (fun one hone hrow => ?_) ?_
          · rcases mem_scrollRows.mp hone with ⟨-, hout⟩ | ⟨-, ⟨-, -, hc⟩ | ⟨hrev, -⟩⟩
            · omega
            · exact hcarried (hrow ▸ hc)
            · omega
          · have hlt : r + band.lines < frame.rows.length := hmoved.trans_le sound.bottom
            rw [h.held _ hlt (Bool.not_eq_true _ ▸ hcarried), getD_eq_of_getElem? (sound.moved r hin.1 hmoved)]
      · exact .whole (mem_scrollRows.mpr (.inr ⟨rfl, .inr ⟨by simp only; omega, hin.2⟩⟩))
    · rw [if_neg hin]
      have hout : r < band.top ∨ band.bottom ≤ r := by omega
      cases namedRows_ready h hr with
      | unnamed hnot heq =>
        refine .unnamed (fun one hone hrow => ?_) heq
        rcases mem_scrollRows.mp hone with ⟨hmem, -⟩ | ⟨-, ⟨h1, h2, -⟩ | ⟨h1, h2⟩⟩
        · exact hnot one hmem hrow
        · omega
        · omega
      | whole hmem => exact .whole (mem_scrollRows.mpr (.inl ⟨hmem, hout⟩))
      | span hmem htiles heq hspan => exact .span (mem_scrollRows.mpr (.inl ⟨hmem, hout⟩)) htiles heq hspan

theorem DeltaRows.ascending : rows.Pairwise fun a b => a.row < b.row := by
  cases hrows with
  | still => exact namedRows_ascending
  | scrolled sound => exact scrollRows_ascending namedRows_ascending sound.taller

end

end ScreenLedger

theorem Ready.foldl_land {r : ℕ} {held : Rows}
    (h : Ready frame rows r (held r)) (hasc : rows.Pairwise fun a b => a.row < b.row)
    (htiles : (frame.getD r .blank).Tiles) :
    rows.foldl (Rows.land frame) held r = (frame.getD r .blank).paint := by
  cases h with
  | unnamed hnot heq => rw [Rows.foldl_land_of_not_mem hnot, heq]
  | whole hmem => exact Rows.foldl_land_of_mem hasc hmem
  | span hmem hprev heq hspan =>
    refine (Rows.foldl_land_of_mem hasc hmem).trans ?_
    rw [heq]
    exact RowFrame.patched_changedSpan htiles hprev hspan

end Braid.Daemon
