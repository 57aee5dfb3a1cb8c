import Braid.Screen.Row

/-! What the pieces of a screen carry. A row update names the runs of a row to send; a
range too long for a piece is cut at run boundaries into chunks, with control characters
blanked byte for byte. The header is its identity, its grid and the bytes the rest of it costs. -/

namespace Braid.Screen

open Foundation

/-- One row entry of a piece; the chunks of a row concatenate. -/
structure RowSpan where
  row : ℕ
  chunk : Bool
  col : ℕ
  byte : ℕ
  clearTail : Bool
  frame : RowFrame
  deriving DecidableEq

/-- A row a screen is sending, and the runs of it that are sent. -/
structure RowUpdate where
  row : ℕ
  frame : RowFrame
  runs : ℕ × ℕ
  clearTail : Bool
  deriving DecidableEq

def RowUpdate.whole (row : ℕ) (frame : RowFrame) : RowUpdate := ⟨row, frame, (0, frame.runs.length), false⟩

structure GridSize where
  cols : ℕ
  rows : ℕ
  deriving DecidableEq

structure ScreenHeader where
  generation : ℕ
  version : ℕ
  nextOff : ℕ
  size : GridSize
  deriving DecidableEq

inductive ScreenPart where
  | head (header : ScreenHeader) (base : Option ℕ) (scroll : Option ScrollBand) (pieces : ℕ) (rows : List RowSpan)
  | tail (generation version pieces index : ℕ) (rows : List RowSpan)
  deriving DecidableEq

def maxClusterBytes : ℕ := 64

/-! ### Spans -/

def blankControl (c : Char) : Char :=
  if c.toNat < 0x20 ∨ c.toNat = 0x7f then ' '
  else if 0x80 ≤ c.toNat ∧ c.toNat ≤ 0x9f then Char.ofNat 0xa0
  else c

def pushRowText (text : Text) : Text := text.map blankControl

/-- A chunk as it is read back from the wire. -/
def RowChunk.received (chunk : RowChunk) : RowFrame := ⟨pushRowText chunk.text, chunk.runs, chunk.cells⟩

/-- The chunks of a row, the erase going with the last. -/
def entries (row : ℕ) (cut clearTail : Bool) : List RowChunk → List RowSpan
  | [] => []
  | [chunk] => [⟨row, cut, chunk.col, chunk.byte, clearTail, chunk.received⟩]
  | chunk :: chunks => ⟨row, cut, chunk.col, chunk.byte, false, chunk.received⟩ :: entries row cut clearTail chunks

/-- The spans of a row update. A row that shrank to nothing past its start
yields no chunk, and still owes the erase. -/
def RowUpdate.spans (budget : ℕ) (update : RowUpdate) : List RowSpan :=
  let cut := decide (budget < update.frame.spanLen update.runs)
  match update.frame.chunks update.runs budget with
  | [] =>
    if update.clearTail then
      let start := update.frame.runStart (update.frame.clampRuns update.runs).1
      [⟨update.row, cut, start.1, start.2, true, .blank⟩]
    else []
  | chunks => entries update.row cut update.clearTail chunks

end Braid.Screen
