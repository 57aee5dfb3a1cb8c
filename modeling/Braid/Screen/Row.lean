import Braid.Foundation.Bits
import Braid.Foundation.Text

/-! A row of the screen: its text, the style runs that tile a prefix of it, and
its columns. A row is painted over an erased line, so the unstyled blanks it
ends in are never sent; a delta names the half-open range of runs in which a row
differs from an earlier one, and the row's unstyled tail belongs to a range that
ends at the last run and to no other. -/

namespace Braid.Screen

open Foundation

/-- The colours of a style, unresolved. -/
inductive StyleColor where
  | default
  | palette (index : UInt8)
  | rgb (red green blue : UInt8)
  deriving DecidableEq

def StyleColor.encodedLen : StyleColor → ℕ
  | .default => 1
  | .palette _ => 2
  | .rgb _ _ _ => 4

inductive UnderlineStyle where
  | none
  | single
  | double
  | curly
  | dotted
  | dashed
  deriving DecidableEq

def UnderlineStyle.toWire : UnderlineStyle → ℕ
  | .none => 0
  | .single => 1
  | .double => 2
  | .curly => 3
  | .dotted => 4
  | .dashed => 5

structure CellStyle where
  fg : StyleColor := .default
  bg : StyleColor := .default
  underlineColor : StyleColor := .default
  attrs : UInt8 := 0
  underline : UnderlineStyle := .none
  deriving DecidableEq

/-- Consecutive cells sharing one style: columns, and bytes of the row's text. -/
structure StyleRun where
  cells : ℕ
  bytes : ℕ
  style : CellStyle
  deriving DecidableEq

/-- A run's two extents, its attributes and its underline shape. -/
def runFixed : ℕ := 6

def StyleRun.styleLen (run : StyleRun) : ℕ :=
  runFixed + run.style.fg.encodedLen + run.style.bg.encodedLen + run.style.underlineColor.encodedLen

def styleLen (runs : List StyleRun) : ℕ := (runs.map StyleRun.styleLen).sum

/-- One cluster per column in `text`, the second column of a wide glyph
contributing none. -/
structure RowFrame where
  text : Text
  runs : List StyleRun
  cells : ℕ
  deriving DecidableEq

structure RowChunk where
  text : Text
  runs : List StyleRun
  cells : ℕ
  col : ℕ
  byte : ℕ
  deriving DecidableEq

/-- Text length, column count and run count. -/
def chunkFixed : ℕ := 8

def RowChunk.isEmpty (chunk : RowChunk) : Bool := chunk.text.isEmpty && chunk.runs.isEmpty && chunk.cells == 0

namespace RowFrame

def blank : RowFrame := ⟨[], [], 0⟩

variable (row : RowFrame)

def styledCells : ℕ := (row.runs.map StyleRun.cells).sum

def styledBytes : ℕ := min (row.runs.map StyleRun.bytes).sum row.text.byteLen

/-- The bytes left when unstyled trailing blanks are dropped. -/
def paintedBytes : ℕ :=
  min (max row.styledBytes row.text.trimEnd.byteLen) row.text.byteLen

def whole : RowChunk where
  text := (row.text.get? 0 row.paintedBytes).getD []
  runs := row.runs
  cells := row.cells
  col := 0
  byte := 0

def clampRuns (runs : ℕ × ℕ) : ℕ × ℕ :=
  let first := min runs.1 row.runs.length
  (first, max first (min runs.2 row.runs.length))

/-- Column and byte at which run `first` begins. -/
def runStart (first : ℕ) : ℕ × ℕ :=
  (row.runs.take first).foldl (fun (col, byte) run => (min (col + run.cells) u16Max, byte + run.bytes)) (0, 0)

def slice (runs : List StyleRun) (first stop : ℕ) : List StyleRun := (runs.take stop).drop first

def spanLen (runs : ℕ × ℕ) : ℕ :=
  let (first, stop) := row.clampRuns runs
  let bytes :=
    if stop = row.runs.length then row.paintedBytes - (row.runStart first).2
    else ((slice row.runs first stop).map StyleRun.bytes).sum
  chunkFixed + bytes + styleLen (slice row.runs first stop)

/-! ### The runs that changed -/

/-- What the comparison of two rows has found so far: the first run and one past
the last run that differ, the byte it stands at, and whether every run still
starts where the other row's does. -/
structure SpanScan where
  first : Option ℕ
  last : ℕ
  byte : ℕ
  aligned : Bool

def scanRuns (mine theirs : Text) (index : ℕ) : List (StyleRun × StyleRun) → SpanScan → SpanScan
  | [], scan => scan
  | (run, other) :: rest, scan =>
    let placed := run.cells = other.cells ∧ run.bytes = other.bytes
    let stop := scan.byte + run.bytes
    let scan :=
      if ¬ placed ∨ run.style ≠ other.style ∨ mine.get? scan.byte stop ≠ theirs.get? scan.byte stop then
        { scan with first := some (scan.first.getD index), last := index + 1 }
      else scan
    -- A run whose extent changed moves every column after it.
    if ¬ placed then { scan with aligned := false }
    else scanRuns mine theirs (index + 1) rest { scan with byte := stop }

/-- The range of runs in which the row differs from `previous`. -/
def changedSpan (row previous : RowFrame) : Option (ℕ × ℕ) :=
  let common := min row.runs.length previous.runs.length
  let scan := scanRuns row.text previous.text 0 (row.runs.zip previous.runs)
    ⟨none, 0, 0, decide (row.runs.length = previous.runs.length)⟩
  let tail := row.cells ≠ previous.cells ∨
    row.text.get? scan.byte row.paintedBytes ≠ previous.text.get? scan.byte previous.paintedBytes
  let scan :=
    if ¬ scan.aligned ∨ tail then
      { scan with first := some (scan.first.getD common), last := row.runs.length }
    else scan
  scan.first.map fun first => (first, max scan.last first)

end RowFrame

/-! ### Cutting a row -/

/-- A cut under way: the runs still to send are `[run, stop)`, from column
`cell` and byte `byte` on. -/
structure RowChunks where
  row : RowFrame
  painted : ℕ
  budget : ℕ
  run : ℕ
  stop : ℕ
  byte : ℕ
  cell : ℕ
  done : Bool

/-- What one chunk has taken. -/
structure Taken where
  runs : ℕ
  cost : ℕ
  cells : ℕ
  bytes : ℕ

/-- The runs a chunk takes: those the budget admits, and never none. -/
def takeRuns (budget : ℕ) : List StyleRun → Taken → Taken
  | [], taken => taken
  | run :: rest, taken =>
    let unit := run.bytes + run.styleLen
    if budget < taken.cost + unit ∧ 0 < taken.runs then taken
    else takeRuns budget rest
      ⟨taken.runs + 1, taken.cost + unit, min (taken.cells + run.cells) u16Max, taken.bytes + run.bytes⟩

namespace RowChunks

def next (cut : RowChunks) : Option RowChunk × RowChunks :=
  if cut.done then (none, cut)
  else
    let taken := takeRuns cut.budget (RowFrame.slice cut.row.runs cut.run cut.stop) ⟨0, chunkFixed, 0, 0⟩
    let run := cut.run + taken.runs
    let byte := cut.byte + taken.bytes
    let (cells, byte, done) :=
      if run = cut.stop ∧ cut.stop = cut.row.runs.length then
        -- The tail carries the columns no run named, dropped blanks included.
        let tailBytes := cut.painted - byte
        let tailCells := cut.row.cells - (cut.cell + taken.cells)
        if taken.cost + tailBytes ≤ cut.budget ∨ taken.runs = 0 ∧ taken.cells = 0 then
          (min (taken.cells + tailCells) u16Max, max cut.painted byte, true)
        else (taken.cells, byte, false)
      else if run = cut.stop then (taken.cells, byte, true)
      else (taken.cells, byte, false)
    let chunk : RowChunk :=
      { text := (cut.row.text.get? cut.byte (min byte cut.painted)).getD []
        runs := RowFrame.slice cut.row.runs cut.run run
        cells := cells
        col := cut.cell
        byte := cut.byte }
    let cut' := { cut with run := run, byte := byte, cell := min (cut.cell + cells) u16Max, done := done }
    if chunk.isEmpty ∧ 0 < cut.run then (none, { cut' with done := true })
    else if done = false ∧ taken.runs = 0 then (some chunk, { cut' with done := true })
    else (some chunk, cut')

/-- The chunks of a cut, at most `fuel` of them. -/
def toList : ℕ → RowChunks → List RowChunk
  | 0, _ => []
  | fuel + 1, cut =>
    match cut.next with
    | (some chunk, cut) => chunk :: toList fuel cut
    | (none, _) => []

end RowChunks

/-- A cut of the run range `runs` into chunks of at most `budget` bytes. -/
def RowFrame.span (row : RowFrame) (runs : ℕ × ℕ) (budget : ℕ) : RowChunks :=
  let (first, stop) := row.clampRuns runs
  let (cell, byte) := row.runStart first
  ⟨row, row.paintedBytes, budget, first, stop, byte, cell, false⟩

/-- Every chunk but the last takes a run, so the runs bound the chunks. -/
def RowFrame.chunks (row : RowFrame) (runs : ℕ × ℕ) (budget : ℕ) : List RowChunk :=
  (row.span runs budget).toList (row.runs.length + 2)

/-! ### Bands -/

/-- Rows `[top, bottom)` moved up by `lines`. -/
structure ScrollBand where
  top : ℕ
  bottom : ℕ
  lines : ℕ
  deriving DecidableEq

def ScrollBand.isApplicable (band : ScrollBand) (rows : ℕ) : Bool :=
  band.top < band.bottom && band.bottom ≤ rows && 0 < band.lines && band.lines ≤ band.bottom - band.top

end Braid.Screen
