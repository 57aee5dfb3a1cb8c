import Braid.Screen.Tiling

/-! Painting a row over the row the terminal shows. A row whose columns can be
proved is painted from the first column that differs; any other is erased and
painted whole. A column is found by walking both rows a cluster at a time, or by
comparing bytes when every painted byte is ASCII. Columns are 16 bits in the
source and a row has no more of them, so the walk never saturates. -/

namespace Braid.Client

open Foundation Screen

/-- The width table: columns of a character, none or two of no ASCII character. -/
structure CharWidths where
  width : Char → Option ℕ
  ascii : ∀ c : Char, c.toNat < 128 → width c ≠ some 0 ∧ width c ≠ some 2

def isAscii (text : Text) : Bool := text.all fun c => c.toNat < 128

namespace CharWidths

variable (w : CharWidths)

/-- Columns of a character; a control or unknown one was a space. -/
def leadCells (c : Char) : ℕ :=
  match w.width c with
  | some 0 => 0
  | some 2 => 2
  | _ => 1

/-- The columns of a text, and whether it is ASCII. -/
def textCells (text : Text) : ℕ × Bool :=
  if isAscii text then (text.byteLen, true) else ((text.map w.leadCells).sum, false)

end CharWidths

/-- What `paintedCells` proved of a row: its painted columns, and whether a
column is a byte. -/
inductive Painted where
  | ascii (cells : ℕ)
  | measured (cells : ℕ)
  deriving DecidableEq

def Painted.cells : Painted → ℕ
  | .ascii cells => cells
  | .measured cells => cells

section PaintedCells

variable (w : CharWidths)

/-- The runs' columns against their text: the byte and the columns they end at. -/
def paintedRuns (text : Text) : List StyleRun → ℕ → ℕ → Bool → Option (ℕ × ℕ × Bool)
  | [], start, cells, ascii => some (start, cells, ascii)
  | run :: runs, start, cells, ascii =>
    match text.get? start (start + run.bytes) with
    | none => none
    | some slice =>
      if (w.textCells slice).1 ≠ run.cells ∨ u16Max < cells + run.cells then none
      else paintedRuns text runs (start + run.bytes) (cells + run.cells)
        (ascii && ((w.textCells slice).2 && !slice.isEmpty))

/-- The painted columns of a row, if they are the session's own. -/
def paintedCells (row : RowFrame) : Option Painted :=
  match paintedRuns w row.text row.runs 0 0 true with
  | none => none
  | some (start, cells, ascii) =>
    let tail := (row.text.get? start row.paintedBytes).getD []
    let cells := cells + tail.byteLen
    if isAscii tail = false ∨ u16Max < cells ∨ row.cells < cells then none
    else some (if ascii then .ascii cells else .measured cells)

end PaintedCells

/-! ### The walk -/

/-- A cluster as the walk reads it. -/
structure Cluster where
  text : Text
  cells : ℕ
  style : CellStyle
  deriving DecidableEq

def Cluster.blank : Cluster := ⟨[' '], 1, {}⟩

/-- A walk over a row: the painted text from `byte` on, and the runs from the
one covering `byte` on, of which the first ends at `runEnd`. -/
structure Cells where
  rest : Text
  byte : ℕ
  col : ℕ
  runs : List StyleRun
  runEnd : ℕ

def seekRuns (byte : ℕ) : List StyleRun → ℕ → List StyleRun × ℕ
  | [], runEnd => ([], runEnd)
  | run :: runs, runEnd =>
    if runEnd ≤ byte then seekRuns byte runs (runEnd + (runs.head?.elim 0 StyleRun.bytes)) else (run :: runs, runEnd)

namespace Cells

def new (row : RowFrame) : Cells := ⟨row.whole.text, 0, 0, row.runs, row.runs.head?.elim 0 StyleRun.bytes⟩

def done (cells : Cells) : Bool := cells.rest.isEmpty

variable (w : CharWidths)

/-- The cluster here: a character and the zero-width characters after it. -/
def peek (cells : Cells) : Cluster :=
  match cells.rest with
  | [] => .blank
  | c :: rest => ⟨c :: rest.takeWhile fun c => w.leadCells c = 0, w.leadCells c, cells.runs.head?.elim {} StyleRun.style⟩

def step (cells : Cells) : Cells :=
  match cells.rest with
  | [] => { cells with col := cells.col + 1 }
  | _ :: _ =>
    let cluster := cells.peek w
    let byte := cells.byte + cluster.text.byteLen
    let (runs, runEnd) := seekRuns byte cells.runs cells.runEnd
    ⟨cells.rest.drop cluster.text.length, byte, cells.col + cluster.cells, runs, runEnd⟩

end Cells

inductive Patch where
  | nothing
  /-- Paint bytes `[start, stop)` at `col`, erasing what follows when `erase`. -/
  | columns (col start stop : ℕ) (erase : Bool)
  /-- No column can be trusted: home, erase, repaint. -/
  | whole
  deriving DecidableEq

section MeasuredPatch

variable (w : CharWidths)

/-- The first difference of two walks, and where the last one ended. -/
def walkBoth (erase : Bool) : ℕ → Cells → Cells → Option (ℕ × ℕ) → ℕ → Option (ℕ × ℕ) × ℕ
  | 0, _, _, first, last => (first, last)
  | fuel + 1, before, after, first, last =>
    if before.done && after.done then (first, last)
    else if before.col = after.col ∧ before.peek w = after.peek w then
      walkBoth erase fuel (before.step w) (after.step w) first last
    else
      let first := some (first.getD (after.col, after.byte))
      if erase then (first, last)
      else
        -- Off a shared column the rows are not comparable, so the lagging walk moves.
        let before := if before.col ≤ after.col then before.step w else before
        let after := if after.col ≤ before.col || before.done then after.step w else after
        walkBoth erase fuel before after first after.byte

/-- A turn of the walk passes a cluster or closes a gap of at most two columns. -/
def walkFuel (old new : RowFrame) : ℕ := 3 * (old.text.length + new.text.length) + 3

def measuredPatch (old new : RowFrame) (erase : Bool) : Patch :=
  match walkBoth w erase (walkFuel old new) (.new old) (.new new) none 0 with
  | (none, _) => .nothing
  | (some (col, start), last) =>
    let stop := if erase then new.paintedBytes else last
    .columns col start (max stop start) erase

end MeasuredPatch

/-! ### Bytes as columns -/

/-- The run covering a byte. -/
structure Runs where
  runs : List StyleRun
  runEnd : ℕ

namespace Runs

def new (row : RowFrame) : Runs := ⟨row.runs, row.runs.head?.elim 0 StyleRun.bytes⟩

/-- Where the style can next change; never, past the last run. -/
def bound (runs : Runs) : Option ℕ := if runs.runs.isEmpty then none else some runs.runEnd

def style (runs : Runs) : CellStyle := runs.runs.head?.elim {} StyleRun.style

def seek (runs : Runs) (byte : ℕ) : Runs :=
  let (rest, runEnd) := seekRuns byte runs.runs runs.runEnd
  ⟨rest, runEnd⟩

end Runs

/-- Widen the columns found to hold those of `[start, stop)`. -/
def widen (found : Option ℕ × ℕ) (start stop : ℕ) : Option ℕ × ℕ :=
  (some (found.1.elim start (min start)), max found.2 stop)

/-- The intervals the runs of both rows cut, and the columns whose styles differ. -/
def walkStyles (width : ℕ) : ℕ → ℕ → Runs → Runs → Option ℕ × ℕ → Option ℕ × ℕ
  | 0, _, _, _, found => found
  | fuel + 1, start, before, after, found =>
    if width ≤ start then found
    else
      let stop := min (min (before.bound.getD width) (after.bound.getD width)) width
      let found := if before.style ≠ after.style then widen found start stop else found
      walkStyles width fuel stop (before.seek stop) (after.seek stop) found

def commonPrefix (a b : Text) : ℕ := ((a.zip b).findIdx? fun (x, y) => x ≠ y).getD a.length

def commonSuffix (a b : Text) : ℕ := ((a.reverse.zip b.reverse).findIdx? fun (x, y) => x ≠ y).getD a.length

/-- The columns in which two ASCII texts differ, blanks standing for what is not
painted: the first, and one past the last. -/
def textDifference (before after : Text) : Option ℕ × ℕ :=
  let shared := min before.length after.length
  let common := commonPrefix (before.take shared) (after.take shared)
  let found : Option ℕ × ℕ :=
    if common < shared then
      (some common, shared - commonSuffix (before.take shared) (after.take shared))
    else (none, 0)
  let overhang := if after.length < before.length then before.drop shared else after.drop shared
  let first := match overhang.findIdx? (· ≠ ' ') with
    | some i => some (found.1.getD (shared + i))
    | none => found.1
  let last := match overhang.reverse.findIdx? (· ≠ ' ') with
    | some i => shared + (overhang.length - i)
    | none => found.2
  (first, last)

/-- The patch of two rows of which a column is a byte; `was` and `now` are their
painted columns. -/
def asciiPatch (old new : RowFrame) (was now : ℕ) (erase : Bool) : Patch :=
  let found := textDifference (old.text.take was) (new.text.take now)
  let width := max was now
  let found := walkStyles width (width + 1) 0 (.new old) (.new new) found
  match found with
  | (none, _) => .nothing
  | (some first, last) =>
    let start := min first now
    let stop := if erase then now else min last now
    .columns first start (max stop start) erase

/-- What to paint so that a line showing `old` shows `new`. -/
def rowPatch (w : CharWidths) (old new : RowFrame) (clearTail : Bool) : Patch :=
  if old = new then .nothing
  else
    match paintedCells w old, paintedCells w new with
    | some was, some now =>
      let erase := clearTail || decide (now.cells < was.cells)
      match was, now with
      | .ascii was, .ascii now => asciiPatch old new was now erase
      | _, _ => measuredPatch w old new erase
    | _, _ => .whole

end Braid.Client
