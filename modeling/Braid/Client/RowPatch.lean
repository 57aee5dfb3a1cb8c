import Braid.Client.Ascii

/-! The patch of two rows, whichever way it is found. A row whose columns can be
proved has as many painted columns as its runs and its unstyled tail say; where
both rows can be, the patch is the walk's, and before, in and behind it the line
then shows the new row. -/

namespace Braid.Client

open Foundation Screen

variable {w : CharWidths} {row : RowFrame} {segs : List Segment} {tail : Text}

/-- The segments the ASCII proof admits. -/
def AsciiSegment (seg : Segment) : Bool := isAscii seg.text && !seg.text.isEmpty

theorem paintedRuns_eq (pre segs : List Segment) (tail : Text) {cells : ℕ} (hcells : cells ≤ u16Max) (ascii : Bool) :
    paintedRuns w (flat pre ++ flat segs ++ tail) (segs.map Segment.run) (flat pre).byteLen cells ascii =
      if (∀ seg ∈ segs, (w.textCells seg.text).1 = seg.cells) ∧ cells + cellsOf segs ≤ u16Max then
        some ((flat pre).byteLen + (flat segs).byteLen, cells + cellsOf segs, ascii && segs.all AsciiSegment)
      else none := by
  induction segs generalizing pre cells ascii with
  | nil => simp [paintedRuns, cellsOf, hcells]
  | cons seg segs ih =>
    have hget : Text.get? (flat pre ++ flat (seg :: segs) ++ tail) (flat pre).byteLen
        ((flat pre).byteLen + seg.run.bytes) = some seg.text :=
      Text.get?_eq_some.mpr ⟨flat pre, flat segs ++ tail, by simp, rfl, rfl⟩
    have hsum : cellsOf (seg :: segs) = seg.cells + cellsOf segs := by simp [cellsOf]
    have hascii : (w.textCells seg.text).2 = isAscii seg.text := by
      unfold CharWidths.textCells
      split_ifs with h
      · exact h.symm
      · exact (Bool.eq_false_iff.mpr h).symm
    rw [List.map_cons, paintedRuns, hget]
    change (if (w.textCells seg.text).1 ≠ seg.cells ∨ u16Max < cells + seg.cells then none else _) = _
    by_cases hfits : (w.textCells seg.text).1 = seg.cells ∧ cells + seg.cells ≤ u16Max
    · have ih := ih (pre ++ [seg]) hfits.2 (ascii && (isAscii seg.text && !seg.text.isEmpty))
      simp only [flat_append, flat_cons, flat_nil, List.append_nil, Text.byteLen_append] at ih
      rw [if_neg (by omega), hascii, flat_cons, hsum, ← Nat.add_assoc, ← List.append_assoc]
      refine ih.trans ?_
      simp only [List.forall_mem_cons, hfits.1, true_and, List.all_cons, AsciiSegment, Bool.and_assoc, Nat.add_assoc,
        Text.byteLen_append]
    · rw [if_pos (by omega), if_neg]
      rintro ⟨hall, hle⟩
      exact hfits ⟨hall seg List.mem_cons_self, by omega⟩

/-- A row's columns can be proved when each run's text has the run's columns and
the tail is ASCII within the row's. -/
def Provable (w : CharWidths) (row : RowFrame) (segs : List Segment) (tail : Text) : Prop :=
  (∀ seg ∈ segs, (w.textCells seg.text).1 = seg.cells) ∧ isAscii tail.trimEnd = true ∧
    cellsOf segs + tail.trimEnd.byteLen ≤ row.cells

theorem paintedCells_tiled (h : row.Tiled segs tail) (hrow : Provable w row segs tail) :
    paintedCells w row = some (if segs.all AsciiSegment then .ascii (cellsOf segs + tail.trimEnd.byteLen)
      else .measured (cellsOf segs + tail.trimEnd.byteLen)) := by
  have hruns := paintedRuns_eq (w := w) [] segs tail (Nat.zero_le u16Max) true
  have := h.width
  obtain ⟨hcells, hascii, hle⟩ := hrow
  rw [if_pos ⟨hcells, by omega⟩] at hruns
  simp only [flat_nil, List.nil_append, Text.byteLen_nil, Nat.zero_add, Bool.true_and] at hruns
  rw [paintedCells, h.runs, h.text, hruns]
  dsimp only
  rw [← h.text, h.get?_tail, Option.getD_some, if_neg]
  rw [hascii]
  simp only [Bool.true_eq_false, false_or]
  omega

theorem provable_of_paintedCells (h : row.Tiled segs tail) {painted : Painted}
    (hrow : paintedCells w row = some painted) : Provable w row segs tail := by
  have hruns := paintedRuns_eq (w := w) [] segs tail (Nat.zero_le u16Max) true
  simp only [flat_nil, List.nil_append, Text.byteLen_nil, Nat.zero_add, Bool.true_and] at hruns
  rw [paintedCells, h.runs, h.text, hruns] at hrow
  by_cases hfits : (∀ seg ∈ segs, (w.textCells seg.text).1 = seg.cells) ∧ cellsOf segs ≤ u16Max
  · rw [if_pos hfits] at hrow
    dsimp only at hrow
    rw [← h.text, h.get?_tail, Option.getD_some] at hrow
    split_ifs at hrow with hbad
    all_goals
      simp only [not_or, Bool.not_eq_false, Nat.not_lt] at hbad
      exact ⟨hfits.1, hbad.1, hbad.2.2⟩
  · rw [if_neg hfits] at hrow
    cases hrow

theorem asciiSegment_iff {seg : Segment} : AsciiSegment seg = true ↔ isAscii seg.text = true ∧ seg.text ≠ [] := by
  simp [AsciiSegment]

theorem isAscii_append {a b : Text} : isAscii (a ++ b) = true ↔ isAscii a = true ∧ isAscii b = true := by
  simp [isAscii]

theorem isAscii_flat {segs : List Segment} : isAscii (flat segs) = true ↔ ∀ seg ∈ segs, isAscii seg.text = true := by
  induction segs with
  | nil => simp [isAscii]
  | cons seg segs ih => rw [flat_cons, isAscii_append, ih, List.forall_mem_cons]

theorem sum_leadCells_ascii {text : Text} (h : isAscii text = true) : (text.map w.leadCells).sum = text.length := by
  rw [← w.textCells_fst, CharWidths.textCells, if_pos h, byteLen_of_ascii h]

theorem Provable.sum_leadCells (h : row.Tiled segs tail) (hrow : Provable w row segs tail) :
    (row.whole.text.map w.leadCells).sum = cellsOf segs + tail.trimEnd.byteLen := by
  have hsegs : ((flat segs).map w.leadCells).sum = cellsOf segs := by
    have := hrow.1
    clear h hrow
    induction segs with
    | nil => rfl
    | cons seg segs ih =>
      rw [List.forall_mem_cons] at this
      rw [flat_cons, List.map_append, List.sum_append, ih this.2, ← w.textCells_fst, this.1]
      simp [cellsOf]
  rw [h.whole_text, List.map_append, List.sum_append, hsegs, sum_leadCells_ascii hrow.2.1, byteLen_of_ascii hrow.2.1]

theorem cells_peek {cells : Cells} (h : cells.done = false) : (cells.peek w).cells = ((cells.peek w).text.map w.leadCells).sum := by
  unfold Cells.peek
  cases hrest : cells.rest with
  | nil => simp [Cells.done, hrest] at h
  | cons c rest =>
    have hzero : ((rest.takeWhile fun c => w.leadCells c = 0).map w.leadCells).sum = 0 := by
      rw [List.sum_eq_zero_iff_forall_eq_nat]
      intro n hn
      obtain ⟨c, hc, rfl⟩ := List.mem_map.mp hn
      simpa using List.mem_takeWhile_imp hc
    simp only [List.map_cons, List.sum_cons, hzero, Nat.add_zero]

theorem sum_cells_ahead (cells : Cells) :
    ((cells.ahead w).map Cluster.cells).sum = (cells.rest.map w.leadCells).sum := by
  rw [← Cells.flatMap_ahead (w := w) cells]
  induction hn : cells.rest.length using Nat.strong_induction_on generalizing cells with
  | _ n ih =>
    by_cases hdone : cells.done = true
    · rw [Cells.ahead_of_done hdone]
      rfl
    · rw [Bool.not_eq_true] at hdone
      rw [Cells.ahead_of_not_done hdone, List.map_cons, List.sum_cons, List.flatMap_cons, List.map_append,
        List.sum_append, cells_peek hdone, ih _ (hn ▸ Cells.step_rest_length hdone) _ rfl]

theorem Provable.colAt_length (h : row.Tiled segs tail) (hrow : Provable w row segs tail) :
    colAt (clustersOf w row) (clustersOf w row).length = cellsOf segs + tail.trimEnd.byteLen := by
  rw [colAt, List.take_length, Nat.sub_self, Nat.add_zero, clustersOf, sum_cells_ahead]
  exact hrow.sum_leadCells h

theorem Provable.asciiRow (h : row.Tiled segs tail) (hrow : Provable w row segs tail)
    (hsegs : ∀ seg ∈ segs, isAscii seg.text = true) : AsciiRow row (cellsOf segs + tail.trimEnd.byteLen) := by
  have hascii : isAscii row.whole.text = true := by
    rw [h.whole_text, isAscii_append, isAscii_flat]
    exact ⟨hsegs, hrow.2.1⟩
  have hlength : row.whole.text.length = cellsOf segs + tail.trimEnd.byteLen := by
    rw [← hrow.sum_leadCells h, sum_leadCells_ascii hascii]
  have hpainted : row.paintedBytes = cellsOf segs + tail.trimEnd.byteLen := by
    rw [h.paintedBytes, ← hlength, h.whole_text, ← byteLen_of_ascii (h.whole_text ▸ hascii), Text.byteLen_append]
  refine ⟨hascii, hlength, hpainted, ?_⟩
  rw [← hpainted, h.paintedBytes, bytesOf, h.runs, sum_bytes_run]
  exact Nat.le_add_right _ _

theorem tiled_of_paintedRuns {text pre rest : Text} {runs : List StyleRun} {cells : ℕ} {ascii : Bool} {painted : ℕ × ℕ × Bool}
    (htext : text = pre ++ rest) (h : paintedRuns w text runs pre.byteLen cells ascii = some painted) :
    ∃ segs tail, runs = segs.map Segment.run ∧ rest = flat segs ++ tail := by
  induction runs generalizing pre rest cells ascii with
  | nil => exact ⟨[], rest, rfl, rfl⟩
  | cons run runs ih =>
    unfold paintedRuns at h
    split at h
    · cases h
    · rename_i slice hslice
      obtain ⟨front, behind, hsplit, hfront, hbytes⟩ := Text.get?_eq_some.mp hslice
      -- what is before the slice is what was read before it
      have hsame : some (pre, rest) = some (front, slice ++ behind) := by
        rw [← Text.splitAt?_append pre, ← Text.splitAt?_append front, hfront, ← htext, ← List.append_assoc, ← hsplit]
      cases hsame
      split_ifs at h
      have hread : pre.byteLen + run.bytes = (pre ++ slice).byteLen := by rw [Text.byteLen_append, hbytes]
      rw [hread] at h
      obtain ⟨segs, tail, rfl, rfl⟩ := ih hsplit h
      refine ⟨⟨run.cells, slice, run.style⟩ :: segs, tail, ?_, by rw [flat_cons, List.append_assoc]⟩
      rw [List.map_cons, Segment.run, Nat.add_left_cancel hbytes]

/-- What is found to be ASCII has a byte in each column, and no empty run. -/
theorem asciiRow_of_paintedCells {cells : ℕ} (h : paintedCells w row = some (.ascii cells)) :
    AsciiRow row cells ∧ ∀ run ∈ row.runs, 0 < run.bytes := by
  have hfound : ∃ painted, paintedRuns w row.text row.runs (Text.byteLen []) 0 true = some painted := by
    refine Option.isSome_iff_exists.mp (Option.isSome_iff_ne_none.mpr fun hnone => ?_)
    rw [paintedCells, show paintedRuns w row.text row.runs 0 0 true = none from hnone] at h
    cases h
  obtain ⟨painted, hpainted⟩ := hfound
  obtain ⟨segs, tail, hruns, htext⟩ := tiled_of_paintedRuns (List.nil_append _).symm hpainted
  have hall := paintedRuns_eq (w := w) [] segs tail (Nat.zero_le u16Max) true
  simp only [flat_nil, List.nil_append, Text.byteLen_nil, Nat.zero_add, Bool.true_and] at hall
  rw [paintedCells, hruns, htext, hall] at h
  split_ifs at h with hfits
  -- the columns of a row are not read here, so a row as wide as can be stands in for it
  have htiled : RowFrame.Tiled { row with cells := u16Max } segs tail := ⟨hruns, htext, hfits.2, le_rfl⟩
  dsimp only at h
  rw [← htext, show row.paintedBytes = RowFrame.paintedBytes { row with cells := u16Max } from rfl, htiled.get?_tail,
    Option.getD_some] at h
  split_ifs at h with hbad hascii
  swap
  · cases h
  cases h
  simp only [not_or, Bool.not_eq_false, Nat.not_lt] at hbad
  have hsegs : ∀ seg ∈ segs, isAscii seg.text = true ∧ seg.text ≠ [] := fun seg hseg =>
    asciiSegment_iff.mp (List.all_eq_true.mp hascii seg hseg)
  obtain ⟨hwhole, hlength, hbytes, hle⟩ := Provable.asciiRow (w := w) htiled ⟨hfits.1, hbad.1, hbad.2.1⟩ fun seg hseg => (hsegs seg hseg).1
  refine ⟨⟨hwhole, hlength, hbytes, hle⟩, fun run hrun => ?_⟩
  rw [hruns] at hrun
  obtain ⟨seg, hseg, rfl⟩ := List.mem_map.mp hrun
  change 0 < seg.text.byteLen
  rw [byteLen_of_ascii (hsegs seg hseg).1]
  exact List.length_pos_iff.mpr (hsegs seg hseg).2

/-- Where both rows are found to be ASCII, comparing bytes finds the patch the walk finds. -/
theorem asciiPatch_eq_measuredPatch {old new : RowFrame} {was now : ℕ} (hwas : paintedCells w old = some (.ascii was))
    (hnow : paintedCells w new = some (.ascii now)) (erase : Bool) :
    asciiPatch old new was now erase = measuredPatch w old new erase := by
  obtain ⟨hold, holdRuns⟩ := asciiRow_of_paintedCells hwas
  obtain ⟨hnew, hnewRuns⟩ := asciiRow_of_paintedCells hnow
  exact asciiPatch_eq hold hnew holdRuns hnewRuns erase

theorem asciiPatch_eq_measuredPatch_shorter :
    let w : CharWidths := ⟨fun _ => some 1, fun _ _ => by simp⟩
    let old : RowFrame := ⟨['a', 'b', 'c'], [⟨1, 1, { attrs := 1 }⟩], 3⟩
    let new : RowFrame := ⟨['a', 'x'], [], 3⟩
    asciiPatch old new 3 2 false = .columns 0 0 2 false ∧
      asciiPatch old new 3 2 false = measuredPatch w old new false := by
  intro w old new
  exact ⟨by decide, asciiPatch_eq_measuredPatch (by decide) (by decide) false⟩

theorem rowPatch_eq {old new : RowFrame} {oldSegs newSegs : List Segment} {oldTail newTail : Text}
    (hold : old.Tiled oldSegs oldTail) (hnew : new.Tiled newSegs newTail) (hwas : Provable w old oldSegs oldTail)
    (hnow : Provable w new newSegs newTail) (hne : old ≠ new) (clearTail : Bool) :
    rowPatch w old new clearTail = measuredPatch w old new (clearTail ||
      decide (cellsOf newSegs + newTail.trimEnd.byteLen < cellsOf oldSegs + oldTail.trimEnd.byteLen)) := by
  have hbefore := paintedCells_tiled hold hwas
  have hafter := paintedCells_tiled hnew hnow
  rw [rowPatch, if_neg hne, hbefore, hafter]
  split_ifs at hbefore hafter ⊢
  · obtain ⟨holdRow, holdRuns⟩ := asciiRow_of_paintedCells hbefore
    obtain ⟨hnewRow, hnewRuns⟩ := asciiRow_of_paintedCells hafter
    exact asciiPatch_eq holdRow hnewRow holdRuns hnewRuns _
  · rfl
  · rfl
  · rfl

theorem rowPatch_right {old new : RowFrame} (hold : old.Tiles) (hnew : new.Tiles) {was now : Painted}
    (hwas : paintedCells w old = some was) (hnow : paintedCells w new = some now) (clearTail : Bool) :
    (rowPatch w old new clearTail).Right (clustersOf w old) (clustersOf w new) := by
  by_cases hne : old = new
  · rw [rowPatch, if_pos hne, hne]
    exact fun k => rfl
  obtain ⟨oldSegs, oldTail, hold'⟩ := RowFrame.tiles_iff.mp hold
  obtain ⟨newSegs, newTail, hnew'⟩ := RowFrame.tiles_iff.mp hnew
  have hwas := provable_of_paintedCells hold' hwas
  have hnow := provable_of_paintedCells hnew' hnow
  rw [rowPatch_eq hold' hnew' hwas hnow hne]
  refine measuredPatch_right hnew fun herase => ?_
  rw [hwas.colAt_length hold', hnow.colAt_length hnew']
  rw [Bool.or_eq_false_iff, decide_eq_false_iff_not] at herase
  omega

/-! ### The cells of a row -/

/-- A text cell by cell: a character with the zero-width characters after it. -/
def cellTexts (w : CharWidths) : Text → List Text
  | [] => []
  | c :: rest =>
    match cellTexts w rest with
    | (d :: text) :: texts => if w.leadCells d = 0 then (c :: d :: text) :: texts else [c] :: (d :: text) :: texts
    | texts => [c] :: texts

/-- The cells of these texts, each in the columns of its characters and the style of the run that covers its first byte. -/
def cellsFrom (w : CharWidths) (runs : List StyleRun) : ℕ → List Text → List Cluster
  | _, [] => []
  | byte, text :: texts =>
    ⟨text, (text.map w.leadCells).sum, styleAt runs byte⟩ :: cellsFrom w runs (byte + text.byteLen) texts

/-- The painted cells of a row; behind them everything is blank. -/
def rowCells (w : CharWidths) (row : RowFrame) : List Cluster := cellsFrom w row.runs 0 (cellTexts w row.whole.text)

theorem cellTexts_cons (c : Char) (rest : Text) : cellTexts w (c :: rest) =
    (c :: rest.takeWhile fun c => w.leadCells c = 0) :: cellTexts w (rest.dropWhile fun c => w.leadCells c = 0) := by
  induction rest generalizing c with
  | nil => rfl
  | cons d rest ih =>
    rw [cellTexts, ih d]
    by_cases hd : w.leadCells d = 0
    · simp [hd]
    · simp [hd, ih d]

theorem ahead_eq_cellsFrom {all : List StyleRun} (cells : Cells) (h : Covering all cells.byte cells.runs cells.runEnd) :
    cells.ahead w = cellsFrom w all cells.byte (cellTexts w cells.rest) := by
  induction hn : cells.rest.length using Nat.strong_induction_on generalizing cells with
  | _ n ih =>
    cases hrest : cells.rest with
    | nil =>
      rw [Cells.ahead_of_done (by simp [Cells.done, hrest])]
      rfl
    | cons c rest =>
      have hdone : cells.done = false := by simp [Cells.done, hrest]
      have hpeek : cells.peek w =
          ⟨c :: rest.takeWhile fun c => w.leadCells c = 0, w.leadCells c, cells.runs.head?.elim {} StyleRun.style⟩ := by
        rw [Cells.peek, hrest]
      have hstep : (cells.step w).byte = cells.byte + (cells.peek w).text.byteLen ∧
          (cells.step w).runs = (seekRuns (cells.byte + (cells.peek w).text.byteLen) cells.runs cells.runEnd).1 ∧
          (cells.step w).runEnd = (seekRuns (cells.byte + (cells.peek w).text.byteLen) cells.runs cells.runEnd).2 := by
        rw [Cells.step, hrest]
        exact ⟨rfl, rfl, rfl⟩
      have hcover : Covering all (cells.step w).byte (cells.step w).runs (cells.step w).runEnd := by
        rw [hstep.1, hstep.2.1, hstep.2.2]
        exact h.1.seek (Nat.le_add_right _ _)
      have hcells := cells_peek hdone (w := w)
      rw [Cells.ahead_of_not_done hdone, ih _ (hn ▸ Cells.step_rest_length hdone) _ hcover rfl, Cells.step_rest, hstep.1,
        cellTexts_cons, cellsFrom, ← h.style, hrest]
      rw [hpeek] at hcells ⊢
      have hdrop : rest.drop (rest.takeWhile fun c => w.leadCells c = 0).length = rest.dropWhile fun c => w.leadCells c = 0 := by
        have hsplit := List.takeWhile_append_dropWhile (p := fun c => decide (w.leadCells c = 0)) (l := rest)
        exact (congrArg (List.drop _) hsplit).symm.trans List.drop_left
      rw [← hcells, List.length_cons, List.drop_succ_cons, hdrop]

theorem clustersOf_eq {row : RowFrame} (h : ∀ run ∈ row.runs, 0 < run.bytes) : clustersOf w row = rowCells w row :=
  ahead_eq_cellsFrom _ (covering_new h)

/-- For rows whose columns can be proved the patch is right: it holds every column in which they differ. -/
theorem rowPatch_covers_changes {old new : RowFrame} (hold : old.Tiles) (hnew : new.Tiles)
    (hwas : (paintedCells w old).isSome = true) (hnow : (paintedCells w new).isSome = true)
    (hruns : ∀ run ∈ old.runs, 0 < run.bytes) (hruns' : ∀ run ∈ new.runs, 0 < run.bytes) (clearTail : Bool) :
    (rowPatch w old new clearTail).Right (rowCells w old) (rowCells w new) := by
  obtain ⟨was, hwas⟩ := Option.isSome_iff_exists.mp hwas
  obtain ⟨now, hnow⟩ := Option.isSome_iff_exists.mp hnow
  rw [← clustersOf_eq hruns, ← clustersOf_eq hruns']
  exact rowPatch_right hold hnew hwas hnow clearTail

/-- A table of two columns for what is not ASCII. -/
def wideTable : CharWidths where
  width c := if c.toNat < 128 then some 1 else some 2
  ascii c h := by
    rw [if_pos h]
    exact ⟨by decide, by decide⟩

/-- A wide character over two narrow ones. -/
theorem rowPatch_covers_changes_wide :
    rowPatch wideTable ⟨['a', 'b', 'c'], [], 4⟩ ⟨['a', '文'], [⟨3, 4, {}⟩], 4⟩ false = .columns 1 1 4 false ∧
      Patch.Right (rowCells wideTable ⟨['a', 'b', 'c'], [], 4⟩) (rowCells wideTable ⟨['a', '文'], [⟨3, 4, {}⟩], 4⟩)
        (rowPatch wideTable ⟨['a', 'b', 'c'], [], 4⟩ ⟨['a', '文'], [⟨3, 4, {}⟩], 4⟩ false) :=
  ⟨by decide, rowPatch_covers_changes (by decide) (by decide) (by decide) (by decide) (by decide) (by decide) false⟩

end Braid.Client
