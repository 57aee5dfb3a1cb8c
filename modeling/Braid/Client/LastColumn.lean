import Braid.Client.RowPatch
import Braid.Client.Splice
import Braid.Client.Terminal
import Braid.Daemon.Ledger

/-! Painting a row that reaches the last column. A row of one ASCII character per
cell is patched by the extent of the columns in which the walk reads it
differently, so the terminal then shows the new row, but for two columns. When a
span says to erase the rest of the line, the erase follows text that may have
reached the last column, where the cursor still is, and clears it. And the walk
reads the first column in the style of the row's first run, which says nothing
about that column when the run is empty. -/

namespace Braid.Client

open Foundation Screen

/-- A row of one ASCII character per cell, the columns past its text blank. -/
structure AsciiFrame (frame : RowFrame) : Prop where
  ascii : isAscii frame.text = true
  unit : ∀ run ∈ frame.runs, run.cells = run.bytes
  tiles : bytesOf frame.runs ≤ frame.text.length
  fits : frame.text.length ≤ frame.cells

namespace AsciiFrame

variable {w : CharWidths} {frame : RowFrame}

theorem carve_isSome {text : Text} (h : isAscii text = true) {runs : List StyleRun} (hruns : bytesOf runs ≤ text.length) :
    (carve runs text).isSome = true := by
  induction runs generalizing text with
  | nil => rfl
  | cons run runs ih =>
    have hsum : bytesOf (run :: runs) = run.bytes + bytesOf runs := by simp [bytesOf]
    have hsub : ∀ {t : Text}, (∀ c ∈ t, c ∈ text) → isAscii t = true := fun ht =>
      isAscii_iff.mpr fun c hc => isAscii_iff.mp h c (ht c hc)
    have hsplit : text.splitAt? run.bytes = some (text.take run.bytes, text.drop run.bytes) := by
      refine Text.splitAt?_eq_some.mpr ⟨(List.take_append_drop _ _).symm, ?_⟩
      rw [byteLen_of_ascii (hsub fun c => List.mem_of_mem_take), List.length_take]
      omega
    rw [carve, hsplit, Option.bind_some, Option.isSome_map]
    exact ih (hsub fun c => List.mem_of_mem_drop) (by rw [List.length_drop]; omega)

theorem length_eq (h : AsciiFrame frame) : frame.text.byteLen = frame.text.length := byteLen_of_ascii h.ascii

theorem tiled (h : AsciiFrame frame) (hwidth : frame.cells ≤ u16Max) :
    ∃ segs tail, frame.Tiled segs tail ∧ Provable w frame segs tail ∧ (∀ seg ∈ segs, isAscii seg.text = true) ∧
      cellsOf segs + tail.trimEnd.byteLen = frame.paintedBytes := by
  obtain ⟨⟨segs, tail⟩, hcarve⟩ := Option.isSome_iff_exists.mp (carve_isSome h.ascii h.tiles)
  obtain ⟨hruns, htext⟩ := carve_eq_some.mp hcarve
  have hascii := h.ascii
  rw [htext, isAscii_append] at hascii
  have hsegs := isAscii_flat.mp hascii.1
  have hunit : ∀ seg ∈ segs, seg.cells = seg.text.byteLen := fun seg hseg =>
    h.unit seg.run (hruns ▸ List.mem_map_of_mem hseg)
  have hcells : cellsOf segs = (flat segs).byteLen := by
    clear hcarve hruns htext hascii hsegs
    induction segs with
    | nil => rfl
    | cons seg segs ih =>
      rw [List.forall_mem_cons] at hunit
      have := ih hunit.2
      rw [flat_cons, Text.byteLen_append, ← hunit.1, ← this]
      simp [cellsOf]
  have htail : tail.trimEnd.byteLen ≤ tail.byteLen := Text.byteLen_le_of_isPrefix tail.trimEnd_isPrefix
  have hlen : (flat segs).byteLen + tail.byteLen ≤ frame.cells := by
    rw [← Text.byteLen_append, ← htext, h.length_eq]
    exact h.fits
  have htiled : frame.Tiled segs tail := ⟨hruns, htext, by omega, hwidth⟩
  refine ⟨segs, tail, htiled, ⟨fun seg hseg => ?_, ?_, by omega⟩, hsegs, by rw [htiled.paintedBytes, hcells]⟩
  · rw [CharWidths.textCells, if_pos (hsegs seg hseg), hunit seg hseg]
  · exact isAscii_iff.mpr fun c hc => isAscii_iff.mp hascii.2 c (tail.trimEnd_isPrefix.subset hc)

theorem asciiRow (h : AsciiFrame frame) (hwidth : frame.cells ≤ u16Max) : AsciiRow frame frame.paintedBytes := by
  obtain ⟨segs, tail, htiled, hprovable, hsegs, hpainted⟩ := h.tiled (w := ⟨fun _ => none, by simp⟩) hwidth
  rw [← hpainted]
  exact hprovable.asciiRow htiled hsegs

theorem painted_le (h : AsciiFrame frame) : frame.paintedBytes ≤ frame.text.length := by
  rw [← h.length_eq]
  exact Nat.min_le_right _ _

end AsciiFrame

theorem rowPatch_ascii {w : CharWidths} {old new : RowFrame} (hold : AsciiFrame old) (hnew : AsciiFrame new)
    (hwas : old.cells ≤ u16Max) (hnow : new.cells ≤ u16Max) {found : Option ℕ × ℕ}
    (hfound : Extent (Differs old new) (max old.paintedBytes new.paintedBytes) found) (clearTail : Bool) :
    rowPatch w old new clearTail =
      spanPatch new.paintedBytes (clearTail || decide (new.paintedBytes < old.paintedBytes)) found := by
  by_cases hne : old = new
  · subst hne
    obtain ⟨first, last⟩ := found
    cases first with
    | none => rw [rowPatch, if_pos rfl]; rfl
    | some first => exact absurd rfl hfound.2.2.1
  · obtain ⟨oldSegs, oldTail, holdTiled, holdProof, -, hold'⟩ := hold.tiled (w := w) hwas
    obtain ⟨newSegs, newTail, hnewTiled, hnewProof, -, hnew'⟩ := hnew.tiled (w := w) hnow
    rw [rowPatch_eq holdTiled hnewTiled holdProof hnewProof hne, hold', hnew',
      measuredPatch_ascii (hold.asciiRow hwas) (hnew.asciiRow hnow) hfound]

/-! ### Reading and showing -/

section Shown

variable {row : RowFrame}

theorem AsciiFrame.glyphAt_of_le (h : AsciiFrame row) {k : ℕ} (hk : row.paintedBytes ≤ k) : glyphAt row k = .blank := by
  have htrim : row.text.trimEnd.length ≤ k := by
    have hascii : isAscii row.text.trimEnd = true :=
      isAscii_iff.mpr fun c hc => isAscii_iff.mp h.ascii c (row.text.trimEnd_isPrefix.subset hc)
    have := Text.byteLen_le_of_isPrefix row.text.trimEnd_isPrefix
    rw [← byteLen_of_ascii hascii]
    rw [RowFrame.paintedBytes] at hk
    omega
  have hruns : bytesOf row.runs ≤ k := by
    have := h.tiles
    have := h.length_eq
    rw [RowFrame.paintedBytes, RowFrame.styledBytes, ← bytesOf] at hk
    omega
  rw [glyphAt, Text.getD_of_trimEnd_le htrim, styleAt_of_le hruns]
  rfl

theorem AsciiFrame.readAt_fst (h : AsciiFrame row) (hwidth : row.cells ≤ u16Max) (k : ℕ) :
    (readAt row k).1 = (glyphAt row k).1 := by
  have hrow := h.asciiRow hwidth
  rcases Nat.lt_or_ge k row.paintedBytes with hk | hk
  · change row.whole.text.getD k ' ' = row.text.getD k ' '
    rw [← hrow.take_text, List.getD_eq_getElem?_getD, List.getElem?_take, if_pos hk, List.getD_eq_getElem?_getD]
  · rw [h.glyphAt_of_le hk]
    exact List.getD_eq_default _ _ (hrow.length ▸ hk)

theorem AsciiFrame.readAt_eq (h : AsciiFrame row) (hwidth : row.cells ≤ u16Max) {k : ℕ} (hk : k ≠ 0) :
    readAt row k = glyphAt row k := by
  refine Prod.ext (h.readAt_fst hwidth k) ?_
  rw [readAt, if_neg (fun hzero => hk hzero.1)]
  rfl

def shown (cols : ℕ) (row : RowFrame) : List Glyph := (List.range cols).map (glyphAt row)

theorem getElem?_shown {cols k : ℕ} (hk : k < cols) : (shown cols row)[k]? = some (glyphAt row k) := by
  rw [shown, List.getElem?_map, List.getElem?_range hk]
  rfl

@[simp] theorem length_shown {cols : ℕ} : (shown cols row).length = cols := by simp [shown]

end Shown

theorem exec_columns {new : RowFrame} (hnew : AsciiFrame new) (index : ℕ) {cols first start stop : ℕ} (hfirst : first < cols)
    (hstart : start ≤ stop) (hstop : stop ≤ new.text.length) (hfits : first + (stop - start) ≤ cols) (erase : Bool)
    (style : CellStyle) {line : Line} (hline : line.cells.length = cols) :
    let after := line.exec index (writePatch new index (.columns first start stop erase)) style
    after.cells.length = cols ∧ ∀ k < cols, after.cells[k]? =
      if erase = true ∧ min (first + (stop - start)) (cols - 1) ≤ k then some .blank
      else if first ≤ k ∧ k < first + (stop - start) then some (glyphAt new (start + (k - first)))
      else line.cells[k]? := by
  have hpos : min (bytesOf []) stop = 0 := Nat.zero_min stop
  obtain ⟨style', hexec⟩ := exec_writeRuns hnew.ascii hstart hstop index (List.nil_append new.runs).symm
    (fun s (hs : none = some s) => nomatch hs)
  rw [hpos, Nat.zero_max] at hexec
  have hlength : (glyphs new start stop).length = stop - start := by simp [glyphs]
  obtain ⟨hlen, hcolumn, hcells⟩ := Line.printAll_spec (glyphs new start stop)
    (show ({ line with cursor := .at first } : Line).cursor = .at first from rfl) (hline ▸ hfirst)
    (by rw [hlength, hline]; exact hfits)
  rw [hlength] at hcolumn hcells
  rw [hline] at hlen hcolumn
  have hprinted : ∀ k < cols, (Line.printAll { line with cursor := .at first } (glyphs new start stop)).cells[k]? =
      if first ≤ k ∧ k < first + (stop - start) then some (glyphAt new (start + (k - first)))
      else line.cells[k]? := by
    intro k hk
    rw [hcells]
    split_ifs with hin
    · rw [glyphs, List.getElem?_map, List.getElem?_range' (by omega), Nat.one_mul]
      rfl
    · rfl
  intro after
  have hafter : after = Line.exec index (if erase then [.sgr {}, .eraseLine] else []) style'
      (Line.printAll { line with cursor := .at first } (glyphs new start stop)) := by
    change Line.exec index (writeRowText new start stop none ++ _) style
      { line with cursor := if index = index then .at (min first (line.cells.length - 1)) else .away } = _
    rw [if_pos rfl, hline, Nat.min_eq_left (by omega), writeRowText, hnew.length_eq, Nat.min_eq_left hstop, hexec]
  cases erase with
  | false =>
    have hprint : after = Line.printAll { line with cursor := .at first } (glyphs new start stop) := hafter
    rw [hprint]
    refine ⟨hlen, fun k hk => ?_⟩
    exact hprinted k hk
  | true =>
    have herased : after = Line.eraseLine (Line.printAll { line with cursor := .at first } (glyphs new start stop)) {} :=
      hafter
    rw [herased]
    refine ⟨?_, fun k hk => ?_⟩
    · rw [Line.eraseLine, hcolumn]
      simp only [List.length_append, List.length_take, List.length_replicate, hlen]
      omega
    · rw [Line.getElem?_eraseLine hcolumn _ k (hlen ▸ hk), hprinted k hk]
      simp only [true_and]
      rfl

theorem AsciiFrame.readAt_of_le {row : RowFrame} (h : AsciiFrame row) (hwidth : row.cells ≤ u16Max) {k : ℕ}
    (hk : row.paintedBytes ≤ k) : readAt row k = .blank := by
  have hrow := h.asciiRow hwidth
  refine Prod.ext ((h.readAt_fst hwidth k).trans (congrArg Prod.fst (h.glyphAt_of_le hk))) ?_
  have hempty : ¬ (k = 0 ∧ row.whole.text ≠ []) := by
    rintro ⟨rfl, hne⟩
    exact hne (List.length_eq_zero_iff.mp (hrow.length.trans (Nat.le_zero.mp hk)))
  rw [readAt, if_neg hempty]
  exact styleAt_of_le (hrow.runs.trans hk)

theorem eq_shown_iff {cols : ℕ} {row : RowFrame} {cells : List Glyph} (h : cells.length = cols) :
    cells = shown cols row ↔ ∀ k < cols, cells[k]? = some (glyphAt row k) := by
  constructor
  · rintro rfl k hk
    exact getElem?_shown hk
  · intro hcells
    refine List.ext_getElem? fun k => ?_
    rcases Nat.lt_or_ge k cols with hk | hk
    · rw [hcells k hk, getElem?_shown hk]
    · rw [List.getElem?_eq_none (h ▸ hk), List.getElem?_eq_none (by rw [length_shown]; exact hk)]

/-- When a patch leaves the new row on a line of `cols` columns: an erase finds
the last column blank or there is nothing to paint, and where both rows read the
same in the first column they show the same there. -/
def Paintable (cols : ℕ) (old new : RowFrame) (clearTail : Bool) : Prop :=
  (clearTail = true → glyphAt new (cols - 1) = .blank ∨ ∀ k < cols, readAt old k = readAt new k) ∧
    (0 < cols → readAt old 0 = readAt new 0 → glyphAt old 0 = glyphAt new 0)

instance (cols : ℕ) (old new : RowFrame) (clearTail : Bool) : Decidable (Paintable cols old new clearTail) :=
  inferInstanceAs (Decidable (_ ∧ _))

section Paint

variable {w : CharWidths} {old new : RowFrame} {cols : ℕ}

section

variable (hold : AsciiFrame old) (hnew : AsciiFrame new) (hwas : old.cells ≤ cols) (hnow : new.cells ≤ cols)
  (hcols : cols ≤ u16Max)

include hold hnew hwas hnow hcols

/-- A patch of columns, from the first on: the new row is shown but where an
erase follows text in the last column. -/
theorem spanPatch_behind {erase : Bool} {first last : ℕ}
    (herase : erase = false → old.paintedBytes ≤ new.paintedBytes)
    (hfound : Extent (Differs old new) (max old.paintedBytes new.paintedBytes) (some first, last)) (index : ℕ)
    (style : CellStyle) (cursor : LineCursor) :
    let after := Line.exec index (writePatch new index (spanPatch new.paintedBytes erase (some first, last))) style
      ⟨shown cols old, cursor⟩
    after.cells.length = cols ∧ (∀ k < first, after.cells[k]? = some (glyphAt old k)) ∧
      ∀ k, first ≤ k → k < cols → after.cells[k]? =
        some (if erase = true ∧ new.paintedBytes = cols ∧ k = cols - 1 then .blank else glyphAt new k) := by
  have hp := hold.painted_le.trans (hold.fits.trans hwas)
  have hq := hnew.painted_le.trans (hnew.fits.trans hnow)
  have hlen := hnew.painted_le
  obtain ⟨hlt, hle, hfirst, -, -, hbehind⟩ := hfound
  have hsame : ∀ k, last ≤ k → glyphAt old k = glyphAt new k := by
    intro k hk
    have hread : readAt old k = readAt new k := by
      rcases Nat.lt_or_ge k (max old.paintedBytes new.paintedBytes) with hlt | hge
      · exact not_not.mp (hbehind k hk hlt)
      · rw [hold.readAt_of_le (hwas.trans hcols) (by omega), hnew.readAt_of_le (hnow.trans hcols) (by omega)]
    rwa [hold.readAt_eq (hwas.trans hcols) (by omega), hnew.readAt_eq (hnow.trans hcols) (by omega)] at hread
  have hnarrow : new.paintedBytes ≤ first → erase = true := by
    intro hge
    by_contra hfalse
    have := herase (Bool.eq_false_iff.mpr hfalse)
    omega
  generalize hstop : max (if erase = true then new.paintedBytes else min last new.paintedBytes)
    (min first new.paintedBytes) = stop
  have hstop' : stop ≤ new.paintedBytes ∧ min first new.paintedBytes ≤ stop := by
    rw [← hstop]
    split_ifs <;> omega
  obtain ⟨hlength, hcells⟩ := exec_columns hnew index (show first < cols by omega) hstop'.2 (hstop'.1.trans hlen)
    (by omega) erase style (show (⟨shown cols old, cursor⟩ : Line).cells.length = cols by simp)
  have hpatch : spanPatch new.paintedBytes erase (some first, last) =
      .columns first (min first new.paintedBytes) stop erase := by rw [spanPatch, hstop]
  intro after
  have hafter : after = Line.exec index (writePatch new index (.columns first (min first new.paintedBytes) stop erase))
      style ⟨shown cols old, cursor⟩ := by rw [← hpatch]
  rw [hafter]
  refine ⟨hlength, fun k hk => ?_, fun k hk hk' => ?_⟩
  · rw [hcells k (by omega), if_neg (by omega), if_neg (by omega)]
    exact getElem?_shown (by omega)
  · rw [hcells k hk']
    rcases Nat.lt_or_ge first new.paintedBytes with hin | hout
    · -- The text starts at the first difference, so a column is a byte of it.
      have hend : first + (stop - min first new.paintedBytes) = stop := by omega
      rw [hend]
      cases herased : erase with
      | true =>
        have hstopq : stop = new.paintedBytes := by
          rw [← hstop, herased, if_pos rfl]
          omega
        by_cases hclear : min stop (cols - 1) ≤ k
        · rw [if_pos ⟨rfl, hclear⟩]
          by_cases hfull : new.paintedBytes = cols
          · rw [if_pos ⟨rfl, hfull, by omega⟩]
          · rw [if_neg (fun h => hfull h.2.1), hnew.glyphAt_of_le (by omega)]
        · rw [if_neg (fun h => hclear h.2), if_pos (by omega), if_neg (by omega)]
          congr 2
          omega
      | false =>
        have hstopl : stop = last := by
          have := herase herased
          rw [← hstop, herased, if_neg Bool.false_ne_true]
          omega
        rw [if_neg (fun h => Bool.false_ne_true h.1)]
        by_cases hbefore : k < last
        · rw [if_pos (by omega), if_neg (fun h => Bool.false_ne_true h.1)]
          congr 2
          omega
        · rw [if_neg (by omega), if_neg (fun h => Bool.false_ne_true h.1), ← hsame k (by omega)]
          exact getElem?_shown hk'
    · -- The new row ends before the first difference: there is only the erase.
      rw [if_pos ⟨hnarrow hout, by omega⟩, if_neg (by omega), hnew.glyphAt_of_le (by omega)]

/-- The line shows the new row after the patch, in every column, exactly when it is paintable. -/
theorem exec_rowPatch_iff (clearTail : Bool) (index : ℕ) (style : CellStyle)
    (cursor : LineCursor) :
    (Line.exec index (writePatch new index (rowPatch w old new clearTail)) style ⟨shown cols old, cursor⟩).cells =
      shown cols new ↔ Paintable cols old new clearTail := by
  obtain ⟨found, hfound⟩ := Extent.exists_extent (Differs old new) (max old.paintedBytes new.paintedBytes)
  have hp := hold.painted_le.trans (hold.fits.trans hwas)
  have hq := hnew.painted_le.trans (hnew.fits.trans hnow)
  have hshows : ∀ k, k ≠ 0 → ¬ Differs old new k → glyphAt old k = glyphAt new k := by
    intro k hk hread
    rw [← hold.readAt_eq (hwas.trans hcols) hk, ← hnew.readAt_eq (hnow.trans hcols) hk]
    exact not_not.mp hread
  rw [rowPatch_ascii hold hnew (hwas.trans hcols) (hnow.trans hcols) hfound]
  obtain ⟨first, last⟩ := found
  cases first with
  | none =>
    have hread : ∀ k, readAt old k = readAt new k := by
      intro k
      rcases Nat.lt_or_ge k (max old.paintedBytes new.paintedBytes) with hlt | hge
      · exact not_not.mp (hfound.2 k hlt)
      · rw [hold.readAt_of_le (hwas.trans hcols) (by omega), hnew.readAt_of_le (hnow.trans hcols) (by omega)]
    change shown cols old = shown cols new ↔ _
    rw [eq_shown_iff length_shown]
    constructor
    · intro hcells
      refine ⟨fun _ => .inr fun k _ => hread k, fun hpos _ => ?_⟩
      have := hcells 0 hpos
      rwa [getElem?_shown hpos, Option.some.injEq] at this
    · rintro ⟨-, hzero⟩ k hk
      rw [getElem?_shown hk]
      rcases Nat.eq_zero_or_pos k with rfl | hpos
      · rw [hzero hk (hread 0)]
      · rw [hshows k (by omega) (not_not.mpr (hread k))]
  | some first =>
    have herase : (clearTail || decide (new.paintedBytes < old.paintedBytes)) = false →
        old.paintedBytes ≤ new.paintedBytes := by
      rw [Bool.or_eq_false_iff, decide_eq_false_iff_not]
      omega
    obtain ⟨hlength, hbefore, hbehind⟩ := spanPatch_behind hold hnew hwas hnow hcols herase hfound index style cursor
    obtain ⟨hlt, hle, hfirst, -, hsame, -⟩ := hfound
    rw [eq_shown_iff hlength]
    constructor
    · intro hcells
      refine ⟨fun hclear => .inl ?_, fun hpos hread => ?_⟩
      · rcases Nat.lt_or_ge new.paintedBytes cols with hnarrow | hfull
        · exact hnew.glyphAt_of_le (by omega)
        · have := hcells (cols - 1) (by omega)
          rw [hbehind (cols - 1) (by omega) (by omega), if_pos ⟨by rw [hclear, Bool.true_or], by omega, rfl⟩] at this
          exact (Option.some.inj this).symm
      · have hne : first ≠ 0 := by
          rintro rfl
          exact hfirst hread
        have := hcells 0 hpos
        rw [hbefore 0 (by omega)] at this
        exact Option.some.inj this
    · rintro ⟨hclear, hzero⟩ k hk
      rcases Nat.lt_or_ge k first with hin | hin
      · rw [hbefore k hin]
        rcases Nat.eq_zero_or_pos k with rfl | hpos
        · rw [hzero hk (not_not.mp (hsame 0 hin))]
        · rw [hshows k (by omega) (hsame k hin)]
      · rw [hbehind k hin hk]
        split_ifs with hlast
        · obtain ⟨herased, hfull, rfl⟩ := hlast
          have hflag : clearTail = true := by
            rw [Bool.or_eq_true, decide_eq_true_eq] at herased
            exact herased.resolve_right (by omega)
          rcases hclear hflag with hblank | hread
          · rw [hblank]
          · exact absurd (hread first (by omega)) hfirst
        · rfl

end

end Paint

/-! ### Spans -/

section Span

variable {row : RowFrame}

theorem AsciiFrame.boundary_eq_some (h : AsciiFrame row) {col byte i : ℕ} (hb : boundary row col byte = some i) :
    col = byte ∧ bytesOf (row.runs.take i) = byte ∧ byte ≤ row.text.length := by
  obtain ⟨-, -, hcol, hbyte⟩ := boundary_spec hb
  change bytesOf (row.runs.take i) = byte at hbyte
  have hunit : (row.runs.take i).map StyleRun.cells = (row.runs.take i).map StyleRun.bytes :=
    List.map_congr_left fun run hrun => h.unit run (List.mem_of_mem_take hrun)
  have hsum : bytesOf (row.runs.take i) + bytesOf (row.runs.drop i) = bytesOf row.runs := by
    rw [← bytesOf_append, List.take_append_drop]
  have := h.tiles
  refine ⟨?_, hbyte, by omega⟩
  rw [← hcol, ← hbyte, hunit]
  rfl

theorem AsciiFrame.splice (hrow : AsciiFrame row) {cols : ℕ} (hcells : row.cells ≤ cols) {span : RowSpan}
    (hspan : AsciiFrame span.frame) (hfits : span.col + span.frame.cells ≤ cols) {new : RowFrame}
    (hnew : spliceInto row span = some new) : AsciiFrame new ∧ new.cells ≤ cols := by
  have hascii : ∀ {a b : ℕ} {t : Text}, row.text.get? a b = some t → isAscii t = true := by
    intro a b t ht
    obtain ⟨x, y, htext, -, -⟩ := Text.get?_eq_some.mp ht
    exact isAscii_iff.mpr fun c hc => isAscii_iff.mp hrow.ascii c (by rw [htext]; simp [hc])
  have hlen : ∀ {a b : ℕ} {t : Text}, row.text.get? a b = some t → t.length = b - a := by
    intro a b t ht
    obtain ⟨x, y, -, hx, hy⟩ := Text.get?_eq_some.mp ht
    rw [← byteLen_of_ascii (hascii ht)]
    omega
  have hframeTiles := hspan.tiles
  have hframeFits := hspan.fits
  have hunit : ∀ {first : ℕ}, ∀ run ∈ row.runs.take first ++ span.frame.runs, run.cells = run.bytes := by
    intro first run hrun
    rcases List.mem_append.mp hrun with hrun | hrun
    · exact hrow.unit run (List.mem_of_mem_take hrun)
    · exact hspan.unit run hrun
  have htiles := hrow.tiles
  have hrowFits := hrow.fits
  cases spliceInto_spliced hnew with
  | @inner first stop head tail hfirst _ hstop hhead htail =>
    obtain ⟨hcol, hbytes, hbyte⟩ := hrow.boundary_eq_some hfirst
    obtain ⟨hpast, hpastBytes, hpastByte⟩ := hrow.boundary_eq_some hstop
    have hsum := bytesOf_append (row.runs.take stop) (row.runs.drop stop)
    rw [List.take_append_drop] at hsum
    have hheadLen := hlen hhead
    have htailLen := hlen htail
    rw [hrow.length_eq] at htailLen
    refine ⟨⟨?_, fun run hrun => ?_, ?_, ?_⟩, hcells⟩
    · exact isAscii_append.mpr ⟨isAscii_append.mpr ⟨hascii hhead, hspan.ascii⟩, hascii htail⟩
    · rcases List.mem_append.mp hrun with hrun | hrun
      · exact hunit run hrun
      · exact hrow.unit run (List.mem_of_mem_drop hrun)
    · rw [bytesOf_append, bytesOf_append, List.length_append, List.length_append]
      omega
    · rw [List.length_append, List.length_append]
      change _ ≤ row.cells
      omega
  | frame _ _ => exact ⟨hspan, by omega⟩
  | @last first head hfirst hhead =>
    obtain ⟨hcol, hbytes, hbyte⟩ := hrow.boundary_eq_some hfirst
    have hheadLen := hlen hhead
    refine ⟨⟨isAscii_append.mpr ⟨hascii hhead, hspan.ascii⟩, hunit, ?_, ?_⟩, hfits⟩
    · rw [bytesOf_append, List.length_append]
      omega
    · rw [List.length_append]
      change _ ≤ span.col + span.frame.cells
      omega

end Span

/-- Whatever span is laid over the row a line of `cols` columns shows, of one
ASCII character per cell, the line shows the row it makes after the patch, in
every column, exactly when that row is paintable over the old one. -/
theorem patched_line_shows_iff (w : CharWidths) {cols : ℕ} (hcols : cols ≤ u16Max) {old new : RowFrame} {span : RowSpan}
    (hold : AsciiFrame old) (hwidth : old.cells ≤ cols) (hspan : AsciiFrame span.frame)
    (hfits : span.col + span.frame.cells ≤ cols) (hnew : spliceInto old span = some new) (index : ℕ)
    (style : CellStyle) (cursor : LineCursor) :
    (Line.exec index (writePatch new index (rowPatch w old new span.clearTail)) style ⟨shown cols old, cursor⟩).cells =
      shown cols new ↔ Paintable cols old new span.clearTail := by
  obtain ⟨hnewFrame, hnewWidth⟩ := hold.splice hwidth hspan hfits hnew
  exact exec_rowPatch_iff hold hnewFrame hwidth hnewWidth hcols span.clearTail index style cursor

/-- A width table of one column for every character. -/
def oneColumn : CharWidths := ⟨fun _ => some 1, fun _ _ => by simp⟩

/-- A row one column wider than the line's text, patched within it. -/
theorem patched_line_shows_iff_inner :
    let bold : CellStyle := { attrs := 1 }
    let old : RowFrame := ⟨['a', 'b'], [⟨1, 1, bold⟩], 3⟩
    let span : RowSpan := ⟨0, false, 1, 1, true, ⟨['c'], [], 2⟩⟩
    let new : RowFrame := ⟨['a', 'c'], [⟨1, 1, bold⟩], 3⟩
    spliceInto old span = some new ∧
      (Line.exec 0 (writePatch new 0 (rowPatch oneColumn old new true)) {} ⟨shown 3 old, .away⟩).cells = shown 3 new := by
  intro bold old span new
  have hold : AsciiFrame old := ⟨by decide, by decide, by decide, by decide⟩
  have hspan : AsciiFrame span.frame := ⟨by decide, by decide, by decide, by decide⟩
  have hnew : spliceInto old span = some new := by decide
  have hpaintable : Paintable 3 old new true := by decide
  exact ⟨hnew, (patched_line_shows_iff oneColumn (by decide) hold (by decide) hspan (by decide) hnew 0 {} .away).mpr hpaintable⟩

/-- A ledger that plans a changed last column: the span reaches the last run, so
it erases, and the line is left without the column it painted. -/
theorem patched_line_loses_last_column :
    let bold : CellStyle := { attrs := 1 }
    let old : RowFrame := ⟨['a', 'b'], [⟨2, 2, bold⟩], 2⟩
    let new : RowFrame := ⟨['a', 'c'], [⟨2, 2, bold⟩], 2⟩
    let span : RowSpan := ⟨0, false, 0, 0, true, new⟩
    new.changedSpan old = some (0, 1) ∧
      ((⟨0, Daemon.partialPlan new (0, 1)⟩ : Daemon.PlannedRow).update new).spans 1000 = [span] ∧
      spliceInto old span = some new ∧
      (Line.exec 0 (writePatch new 0 (rowPatch oneColumn old new span.clearTail)) {} ⟨shown 2 old, .away⟩).cells =
        [('a', bold), Glyph.blank] ∧
      shown 2 new = [('a', bold), ('c', bold)] := by
  decide

end Braid.Client
