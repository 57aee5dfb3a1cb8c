import Braid.Client.Ascii

/-! The user's terminal, one row of it. A row has exactly the grid's columns;
printing into the last one leaves the cursor on it with a wrap pending, and an
erase clears from the cursor's column through the last one, inclusive, in the
current background. Text carries no control characters and one column each. -/

namespace Braid.Client

open Foundation Screen

inductive PaintOp where
  | cup (row col : ℕ)
  | sgr (style : CellStyle)
  | text (text : Text)
  | eraseLine
  deriving DecidableEq

/-! ### What is written for a row -/

section Write

variable (row : RowFrame)

/-- The text of `[start, stop)` run by run from byte `pos` on; `current` is the
style in effect, if it is known. -/
def writeRuns (start stop : ℕ) : List StyleRun → ℕ → Option CellStyle → List PaintOp
  | [], pos, current =>
    -- Every cell past the last run carries the default style.
    if pos < stop then
      (if current = some {} then [] else [.sgr {}]) ++ [.text ((row.text.get? (max pos start) stop).getD [])]
    else []
  | run :: runs, pos, current =>
    if stop ≤ pos then []
    else
      let past := min (pos + run.bytes) stop
      if start < past then
        (if current = some run.style then [] else [.sgr run.style]) ++
          .text ((row.text.get? (max pos start) past).getD []) :: writeRuns start stop runs past (some run.style)
      else writeRuns start stop runs past current

def writeRowText (start stop : ℕ) (current : Option CellStyle) : List PaintOp :=
  writeRuns row start (min stop row.text.byteLen) row.runs 0 current

/-- Erase, then paint: the text may end in the last column. -/
def writeRow (index : ℕ) : List PaintOp :=
  [.cup index 0, .sgr {}, .eraseLine] ++ writeRowText row 0 row.paintedBytes (some {})

def writePatch (index : ℕ) : Patch → List PaintOp
  | .nothing => []
  | .whole => writeRow row index
  | .columns col start stop erase =>
    .cup index col :: writeRowText row start stop none ++ if erase then [.sgr {}, .eraseLine] else []

end Write

/-! ### What the terminal does -/

/-- Where the cursor is: in a column, on the last one with a wrap pending, or on
another row. -/
inductive LineCursor where
  | at (col : ℕ)
  | wrap
  | away
  deriving DecidableEq

structure Line where
  cells : List Glyph
  cursor : LineCursor
  deriving DecidableEq

def Glyph.blank : Glyph := (' ', {})

namespace Line

def print (line : Line) (glyph : Glyph) : Line :=
  match line.cursor with
  | .at col => ⟨line.cells.set col glyph, if col + 1 < line.cells.length then .at (col + 1) else .wrap⟩
  -- The character wraps to the next row.
  | .wrap => { line with cursor := .away }
  | .away => line

def printAll (line : Line) (glyphs : List Glyph) : Line := glyphs.foldl print line

def column (line : Line) : Option ℕ :=
  match line.cursor with
  | .at col => some col
  | .wrap => some (line.cells.length - 1)
  | .away => none

def eraseLine (line : Line) (style : CellStyle) : Line :=
  match line.column with
  | some col => { line with cells := line.cells.take col ++ List.replicate (line.cells.length - col) (' ', { bg := style.bg }) }
  | none => line

/-- The effect of what is written on row `index`, under the style in effect. -/
def exec (index : ℕ) : List PaintOp → CellStyle → Line → Line
  | [], _, line => line
  | .cup row col :: ops, style, line =>
    exec index ops style
      { line with cursor := if row = index then .at (min col (line.cells.length - 1)) else .away }
  | .sgr style :: ops, _, line => exec index ops style line
  | .text text :: ops, style, line => exec index ops style (line.printAll (text.map (·, style)))
  | .eraseLine :: ops, style, line => exec index ops style (line.eraseLine style)

variable {line : Line} {col : ℕ}

/-- Glyphs printed within the line, cell by cell, and where the cursor is left. -/
theorem printAll_spec (glyphs : List Glyph) (hcursor : line.cursor = .at col) (hcol : col < line.cells.length)
    (hfits : col + glyphs.length ≤ line.cells.length) :
    (line.printAll glyphs).cells.length = line.cells.length ∧
      (line.printAll glyphs).column = some (min (col + glyphs.length) (line.cells.length - 1)) ∧
      ∀ k, (line.printAll glyphs).cells[k]? =
        if col ≤ k ∧ k < col + glyphs.length then glyphs[k - col]? else line.cells[k]? := by
  induction glyphs generalizing line col with
  | nil =>
    refine ⟨rfl, ?_, fun k => ?_⟩
    · rw [printAll, List.foldl_nil, column, hcursor, List.length_nil, Nat.add_zero, Nat.min_eq_left (by omega)]
    · rw [List.length_nil, Nat.add_zero, if_neg (by omega)]
      rfl
  | cons glyph glyphs ih =>
    rw [List.length_cons] at hfits
    have hprint : line.print glyph =
        ⟨line.cells.set col glyph, if col + 1 < line.cells.length then .at (col + 1) else .wrap⟩ := by
      rw [print, hcursor]
    have hset : ∀ k, (line.cells.set col glyph)[k]? = if k = col then some glyph else line.cells[k]? := by
      intro k
      rw [List.getElem?_set]
      split_ifs <;> first | rfl | omega
    rw [printAll, List.foldl_cons, hprint, ← printAll]
    by_cases hlast : col + 1 < line.cells.length
    · rw [if_pos hlast]
      obtain ⟨hlen, hcolumn, hcells⟩ := ih (show (⟨line.cells.set col glyph, .at (col + 1)⟩ : Line).cursor = _ from rfl)
        (by rw [List.length_set]; exact hlast) (by rw [List.length_set]; omega)
      rw [List.length_set] at hlen hcolumn
      refine ⟨hlen, by rw [hcolumn, List.length_cons, Nat.add_assoc, Nat.add_comm 1], fun k => ?_⟩
      rw [hcells, hset, List.length_cons]
      rcases Nat.lt_trichotomy k col with hk | rfl | hk
      · rw [if_neg (by omega), if_neg (by omega), if_neg (by omega)]
      · rw [if_neg (by omega), if_pos rfl, if_pos (by omega), Nat.sub_self, List.getElem?_cons_zero]
      · by_cases hin : k < col + (glyphs.length + 1)
        · rw [if_pos (by omega), if_pos (by omega), show k - col = k - (col + 1) + 1 by omega, List.getElem?_cons_succ]
        · rw [if_neg (by omega), if_neg (by omega), if_neg (by omega)]
    · rw [if_neg hlast]
      obtain rfl : glyphs = [] := List.length_eq_zero_iff.mp (by omega)
      refine ⟨List.length_set, ?_, fun k => ?_⟩
      · change some ((line.cells.set col glyph).length - 1) = _
        rw [List.length_set, List.length_cons, List.length_nil, Nat.min_eq_right (by omega)]
      · rw [List.length_cons, List.length_nil]
        refine (hset k).trans ?_
        by_cases hk : k = col
        · rw [if_pos hk, if_pos (by omega), hk, Nat.sub_self, List.getElem?_cons_zero]
        · rw [if_neg hk, if_neg (by omega)]

theorem getElem?_eraseLine (hcolumn : line.column = some col) (style : CellStyle) (k : ℕ) (hk : k < line.cells.length) :
    (line.eraseLine style).cells[k]? = if col ≤ k then some (' ', { bg := style.bg }) else line.cells[k]? := by
  rw [eraseLine, hcolumn]
  split_ifs with hle
  · rw [List.getElem?_append_right (by rw [List.length_take]; omega), List.getElem?_replicate, if_pos]
    rw [List.length_take]
    omega
  · rw [List.getElem?_append_left (by rw [List.length_take]; omega), List.getElem?_take, if_pos (by omega)]

end Line

/-! ### What a row shows -/

/-- What a row of one ASCII character per cell shows in a column. -/
def glyphAt (row : RowFrame) (k : ℕ) : Glyph := (row.text.getD k ' ', styleAt row.runs k)

def glyphs (row : RowFrame) (start stop : ℕ) : List Glyph := (List.range' start (stop - start)).map (glyphAt row)

theorem glyphs_append (row : RowFrame) {a b c : ℕ} (hab : a ≤ b) (hbc : b ≤ c) :
    glyphs row a b ++ glyphs row b c = glyphs row a c := by
  have hrange := @List.range'_append a (b - a) (c - b) 1
  rw [Nat.one_mul, Nat.add_sub_cancel' hab, show b - a + (c - b) = c - a by omega] at hrange
  rw [glyphs, glyphs, glyphs, ← List.map_append, hrange]

theorem get?_of_ascii {text : Text} (h : isAscii text = true) {a b : ℕ} (hab : a ≤ b) (hb : b ≤ text.length) :
    text.get? a b = some ((text.take b).drop a) := by
  have hsub : ∀ {t : Text}, (∀ c ∈ t, c ∈ text) → t.byteLen = t.length := fun ht =>
    byteLen_of_ascii (isAscii_iff.mpr fun c hc => isAscii_iff.mp h c (ht c hc))
  refine Text.get?_eq_some.mpr ⟨text.take a, text.drop b, ?_, ?_, ?_⟩
  · have htake : (text.take b).take a = text.take a := by rw [List.take_take, Nat.min_eq_left hab]
    rw [← htake, List.take_append_drop, List.take_append_drop]
  · rw [hsub fun c => List.mem_of_mem_take, List.length_take]
    omega
  · rw [hsub fun c => List.mem_of_mem_take, hsub fun c hc => List.mem_of_mem_take (List.mem_of_mem_drop hc),
      List.length_drop, List.length_take, List.length_take]
    omega

theorem slice_glyphs {row : RowFrame} (h : isAscii row.text = true) {a b : ℕ} (hab : a ≤ b) (hb : b ≤ row.text.length)
    {style : CellStyle} (hstyle : ∀ k, a ≤ k → k < b → styleAt row.runs k = style) :
    ((row.text.get? a b).getD []).map (·, style) = glyphs row a b := by
  rw [get?_of_ascii h hab hb, Option.getD_some]
  refine List.ext_getElem? fun k => ?_
  rw [glyphs, List.getElem?_map, List.getElem?_map, List.getElem?_drop, List.getElem?_take]
  by_cases hk : a + k < b
  · rw [if_pos hk, List.getElem?_range' (by omega), Nat.one_mul, List.getElem?_eq_getElem (by omega)]
    simp only [Option.map_some, glyphAt]
    rw [hstyle (a + k) (by omega) hk, List.getD_eq_getElem]
  · rw [if_neg hk, List.getElem?_eq_none (by rw [List.length_range']; omega)]
    rfl

theorem bytesOf_append (a b : List StyleRun) : bytesOf (a ++ b) = bytesOf a + bytesOf b := by simp [bytesOf]

theorem exec_setStyle {current : Option CellStyle} {style : CellStyle} (h : ∀ s, current = some s → style = s)
    (index : ℕ) (s : CellStyle) (ops : List PaintOp) (line : Line) :
    Line.exec index ((if current = some s then [] else [.sgr s]) ++ ops) style line = Line.exec index ops s line := by
  split_ifs with hs
  · rw [h s hs, List.nil_append]
  · rfl

/-- Writing the runs of a row prints its glyphs, whatever style was in effect. -/
theorem exec_writeRuns {row : RowFrame} (h : isAscii row.text = true) {start stop : ℕ} (hstart : start ≤ stop)
    (hstop : stop ≤ row.text.length) (index : ℕ) {passed runs : List StyleRun} (hruns : row.runs = passed ++ runs)
    {current : Option CellStyle} {style : CellStyle} (hcurrent : ∀ s, current = some s → style = s) :
    ∃ style', ∀ rest line,
      Line.exec index (writeRuns row start stop runs (min (bytesOf passed) stop) current ++ rest) style line =
        Line.exec index rest style' (line.printAll (glyphs row (max (min (bytesOf passed) stop) start) stop)) := by
  have hnone : ∀ {pos : ℕ}, stop ≤ pos → glyphs row (max pos start) stop = [] := by
    intro pos hpos
    rw [glyphs, show stop - max pos start = 0 by omega]
    rfl
  induction runs generalizing passed current style with
  | nil =>
    rw [List.append_nil] at hruns
    by_cases hpos : bytesOf passed < stop
    · rw [writeRuns, Nat.min_eq_left hpos.le, if_pos hpos]
      refine ⟨{}, fun rest line => ?_⟩
      rw [List.append_assoc, exec_setStyle hcurrent, List.cons_append, List.nil_append, Line.exec, slice_glyphs h (by omega) hstop]
      intro k hk _
      exact styleAt_of_le (by rw [hruns]; omega)
    · rw [writeRuns, Nat.min_eq_right (Nat.le_of_not_lt hpos), if_neg (Nat.lt_irrefl _), hnone le_rfl]
      exact ⟨style, fun rest line => rfl⟩
  | cons run runs ih =>
    by_cases hpos : bytesOf passed < stop
    · have hpassed : bytesOf (passed ++ [run]) = bytesOf passed + run.bytes := by rw [bytesOf_append]; simp [bytesOf]
      have hrest : row.runs = passed ++ [run] ++ runs := by rw [hruns, List.append_assoc]; rfl
      rw [writeRuns, Nat.min_eq_left hpos.le, if_neg (Nat.not_le.mpr hpos)]
      by_cases hpast : start < min (bytesOf passed + run.bytes) stop
      · rw [if_pos hpast]
        obtain ⟨style', hexec⟩ := ih hrest fun s (hs : some run.style = some s) => Option.some.inj hs
        refine ⟨style', fun rest line => ?_⟩
        rw [List.append_assoc, exec_setStyle hcurrent, List.cons_append, Line.exec, slice_glyphs h (by omega) (by omega), ← hpassed, hexec]
        · rw [Nat.max_eq_left (show start ≤ min (bytesOf (passed ++ [run])) stop by omega), Line.printAll, Line.printAll,
            Line.printAll, ← List.foldl_append, glyphs_append row (by omega) (by omega)]
        · intro k hk hk'
          rw [hruns, styleAt_append (by omega), styleAt, if_pos (by omega)]
      · rw [if_neg hpast, ← hpassed]
        obtain ⟨style', hexec⟩ := ih hrest hcurrent
        refine ⟨style', fun rest line => ?_⟩
        rw [hexec, Nat.max_eq_right (show min (bytesOf (passed ++ [run])) stop ≤ start by omega),
          Nat.max_eq_right (show bytesOf passed ≤ start by omega)]
    · rw [writeRuns, Nat.min_eq_right (Nat.le_of_not_lt hpos), if_pos le_rfl, hnone le_rfl]
      exact ⟨style, fun rest line => rfl⟩

end Braid.Client
