import Braid.Client.Patch
import Braid.Client.Splice
import Mathlib.Data.List.Sort

/-! The client's screen: the rows it holds, and the screen whose pieces are
arriving. Rows are painted as they come while the version waits for the last
piece; tails that overtake their head are held, and the chunks of a row are kept
until every piece is in hand and joined then. Each step says what it wrote to the
terminal, and which spans it dropped, could not join or could not place. Cursor,
modes and sticky state go to the terminal beside the rows and are left out. -/

namespace Braid.Client

open Foundation Screen

structure ConfirmedScreen where
  generation : ℕ
  /-- `none` while pieces are still arriving on a grid no version names. -/
  version : Option ℕ
  size : GridSize
  rows : List RowFrame
  deriving DecidableEq

inductive PartMismatch where
  | noScreen
  | wrongBase
  | unscrollable
  | outsideGrid
  deriving DecidableEq

inductive Predictions where
  | settled
  | drawn
  deriving DecidableEq

structure Assembled where
  generation : ℕ
  version : ℕ
  nextOff : ℕ
  deriving DecidableEq

inductive Coverage where
  | delta
  | whole
  deriving DecidableEq

structure Head where
  nextOff : ℕ
  coverage : Coverage
  deriving DecidableEq

structure Assembly where
  named : ℕ × ℕ
  head : Option Head
  predicted : Bool
  deriving DecidableEq

inductive ShownSinceScreen where
  | nothing
  | passthrough
  deriving DecidableEq

/-- The painter's buffers are fields of the screen; those kept only to reuse
their memory are left out. -/
structure ClientScreen where
  confirmed : Option ConfirmedScreen
  pending : Option Assembly
  trusted : Bool
  shown : ShownSinceScreen
  applied : List Bool
  covered : List Bool
  held : List (ℕ × List RowSpan)
  chunks : List RowSpan
  deriving DecidableEq

inductive Event where
  | cleared
  | scrolled (band : ScrollBand)
  | painted (index : ℕ) (row : RowFrame) (patch : Patch)
  /-- A chunk past the bound. -/
  | dropped (span : RowSpan)
  | joined (span : RowSpan)
  /-- Chunks that do not add up to a row of the grid. -/
  | unjoined (span : RowSpan)
  /-- A span the row held has no place for. -/
  | unplaced (span : RowSpan)
  deriving DecidableEq

def heldTails : ℕ := 16

def heldChunkBytes : ℕ := 1024 * 1024

/-! ### Rows -/

/-- Rows being painted: the rows held, the rows covered, and what was done. -/
structure Canvas where
  rows : List RowFrame
  covered : List Bool
  log : List Event

namespace Canvas

variable (w : CharWidths)

def writePartRow (coverage : Coverage) (canvas : Canvas) (span : RowSpan) : Canvas :=
  match canvas.rows[span.row]? with
  | none => canvas
  | some current =>
    match spliceInto current span with
    | none => { canvas with log := canvas.log ++ [.unplaced span] }
    | some new =>
      { rows := canvas.rows.set span.row new
        covered := if coverage = .whole then canvas.covered.set span.row true else canvas.covered
        log := canvas.log ++ [.painted span.row new (rowPatch w current new span.clearTail)] }

def writePartRows (coverage : Coverage) (canvas : Canvas) (spans : List RowSpan) : Canvas :=
  spans.foldl (writePartRow w coverage) canvas

end Canvas

/-- The spans that are rows, the chunks now held, and those dropped; `held`
counts the bytes of all of the latter two. -/
structure Holding where
  whole : List RowSpan
  chunks : List RowSpan
  dropped : List RowSpan
  held : ℕ

def chunkBytes (chunks : List RowSpan) : ℕ := (chunks.map fun span => span.frame.text.byteLen).sum

def Holding.add (holding : Holding) (row : RowSpan) : Holding :=
  if row.chunk = false then { holding with whole := holding.whole ++ [row] }
  else
    let held := holding.held + row.frame.text.byteLen
    if heldChunkBytes < held then { holding with dropped := holding.dropped ++ [row], held := held }
    else { holding with chunks := holding.chunks ++ [row], held := held }

def holdChunks (rows chunks : List RowSpan) : Holding := rows.foldl Holding.add ⟨[], chunks, [], chunkBytes chunks⟩

/-- The order chunks are joined in. -/
def RowSpan.before (a b : RowSpan) : Prop := a.row < b.row ∨ a.row = b.row ∧ a.col ≤ b.col

instance : DecidableRel RowSpan.before := fun _ _ => inferInstanceAs (Decidable (_ ∨ _))

/-- A chunk joined to the ones before it. -/
def joinTo (last span : RowSpan) : RowSpan :=
  if last.chunk = true ∨ last.col + last.frame.cells ≠ span.col ∨ last.byte + last.frame.text.byteLen ≠ span.byte then
    -- A gap is a row this client cannot rebuild.
    { last with chunk := true }
  else
    { last with
      frame := ⟨last.frame.text ++ span.frame.text, last.frame.runs ++ span.frame.runs,
        min (last.frame.cells + span.frame.cells) u16Max⟩
      clearTail := span.clearTail }

def joinFrom : RowSpan → List RowSpan → List RowSpan
  | last, [] => [last]
  | last, span :: spans =>
    if last.row = span.row then joinFrom (joinTo last span) spans else last :: joinFrom { span with chunk := false } spans

def joinChunks (chunks : List RowSpan) : List RowSpan :=
  match chunks.insertionSort RowSpan.before with
  | [] => []
  | span :: spans => joinFrom { span with chunk := false } spans

/-- A joined row that fits the grid. -/
def joinedFits (size : GridSize) (rows : ℕ) (span : RowSpan) : Bool :=
  !span.chunk && decide (span.row < rows) && decide (span.col + span.frame.cells ≤ size.cols) &&
    decide (span.frame.text.byteLen ≤ span.frame.cells * maxClusterBytes) &&
    decide (span.frame.styledBytes ≤ span.frame.text.byteLen) && decide (span.frame.styledCells ≤ span.frame.cells)

def writeJoinedRows (w : CharWidths) (size : GridSize) (coverage : Coverage) (canvas : Canvas) (chunks : List RowSpan) :
    Canvas :=
  let joined := joinChunks chunks
  let log := joined.map fun span => if joinedFits size canvas.rows.length span then .joined span else .unjoined span
  Canvas.writePartRows w coverage { canvas with log := canvas.log ++ log }
    (joined.filter (joinedFits size canvas.rows.length))

def rowsFit (rows : List RowSpan) (held cols : ℕ) : Bool :=
  rows.all fun row =>
    decide (row.row < held) && decide (row.frame.cells ≤ cols) && (row.chunk || decide (row.col + row.frame.cells ≤ cols))

/-! ### Pieces -/

namespace ClientScreen

def initial : ClientScreen := ⟨none, none, false, .nothing, [], [], [], []⟩

def abandon (s : ClientScreen) : ClientScreen := { s with pending := none, held := [], chunks := [] }

def invalidate (s : ClientScreen) : ClientScreen := { s.abandon with trusted := false }

def observe (s : ClientScreen) (bytes : ℕ) : ClientScreen := if bytes = 0 then s else { s with shown := .passthrough }

def newer (a b : ℕ × ℕ) : Prop := b.1 < a.1 ∨ b.1 = a.1 ∧ b.2 < a.2

instance (a b : ℕ × ℕ) : Decidable (newer a b) := inferInstanceAs (Decidable (_ ∨ _))

def superseded (s : ClientScreen) (named : ℕ × ℕ) : Bool :=
  s.pending.any (fun assembly => newer assembly.named named) ||
    s.confirmed.any fun screen => screen.version.any fun version => ¬ newer named (screen.generation, version)

def baseFits (screen : ConfirmedScreen) (trusted : Bool) (header : ScreenHeader) (base : ℕ) (scroll : Option ScrollBand)
    (terminalRows : ℕ) : Except PartMismatch Unit :=
  if trusted = false ∨ screen.generation ≠ header.generation ∨ screen.version ≠ some base ∨ screen.size ≠ header.size then
    .error .wrongBase
  else if scroll.isSome ∧ terminalRows < screen.size.rows then .error .unscrollable
  else .ok ()

/-- Rows `[top, bottom)` moved up, the rows revealed blank. -/
def writeScroll (rows : List RowFrame) (band : ScrollBand) : List RowFrame :=
  if band.top ≤ band.bottom ∧ band.bottom ≤ rows.length ∧ band.lines ≤ band.bottom - band.top then
    rows.take band.top ++ ((rows.take band.bottom).drop (band.top + band.lines) ++ List.replicate band.lines .blank) ++
      rows.drop band.bottom
  else rows

variable (w : CharWidths)

/-- The rows a head is painted on, or why it is refused. -/
def headBase (s : ClientScreen) (header : ScreenHeader) (base : Option ℕ) (scroll : Option ScrollBand) (rows : List RowSpan)
    (terminalRows : ℕ) (predictions : Predictions) : Except PartMismatch (Option ℕ × List RowFrame × List Event) :=
  match base, s.confirmed with
  | some _, none => .error .noScreen
  | some base, some screen => do
    baseFits screen s.trusted header base scroll terminalRows
    if rowsFit rows screen.rows.length screen.size.cols then
      match scroll with
      | some band => return (screen.version, writeScroll screen.rows band, [.scrolled band])
      | none => return (screen.version, screen.rows, [])
    else throw .outsideGrid
  | none, previous =>
    if rowsFit rows header.size.rows header.size.cols then
      -- The rows held still describe the terminal, or it is cleared.
      match previous.filter fun screen => s.trusted && s.shown = .nothing && predictions = .settled &&
          screen.size = header.size && screen.rows.length = header.size.rows with
      | some screen => .ok (none, screen.rows, [])
      | none => .ok (none, List.replicate header.size.rows .blank, [.cleared])
    else .error .outsideGrid

def head (s : ClientScreen) (header : ScreenHeader) (base : Option ℕ) (scroll : Option ScrollBand) (pieces : ℕ)
    (rows : List RowSpan) (terminalRows : ℕ) (predictions : Predictions) :
    Except PartMismatch (ClientScreen × Head × List Event) := do
  let (version, held, log) ← headBase s header base scroll rows terminalRows predictions
  let coverage := if base.isSome then Coverage.delta else .whole
  let holding := holdChunks rows s.chunks
  let covered := if coverage = .whole then List.replicate header.size.rows false else []
  let canvas := Canvas.writePartRows w coverage ⟨held, covered, log ++ holding.dropped.map .dropped⟩ holding.whole
  return ({ s with
    confirmed := some ⟨header.generation, version, header.size, canvas.rows⟩
    trusted := true
    shown := .nothing
    applied := (List.replicate pieces false).set 0 true
    covered := canvas.covered
    chunks := holding.chunks }, ⟨header.nextOff, coverage⟩, canvas.log)

/-- A further piece on the screen held. -/
def writePiece (s : ClientScreen) (screen : ConfirmedScreen) (coverage : Coverage) (index : ℕ) (rows : List RowSpan) :
    ClientScreen × List Event :=
  let holding := holdChunks rows s.chunks
  let canvas := Canvas.writePartRows w coverage ⟨screen.rows, s.covered, holding.dropped.map .dropped⟩ holding.whole
  ({ s with
    confirmed := some { screen with rows := canvas.rows }
    applied := s.applied.set index true
    covered := canvas.covered
    chunks := holding.chunks }, canvas.log)

/-- Paint the tails that overtook the head; the first that does not fit ends it. -/
def absorbTails (coverage : Coverage) : List (ℕ × List RowSpan) → ClientScreen → ClientScreen × List Event × Bool
  | [], s => (s, [], true)
  | (index, rows) :: tails, s =>
    match s.confirmed with
    | none => (s, [], true)
    | some screen =>
      if s.applied[index]? ≠ some false then absorbTails coverage tails s
      else if rowsFit rows screen.rows.length screen.size.cols = false then (s, [], false)
      else
        let (s, log) := s.writePiece w screen coverage index rows
        let (s, log', fits) := absorbTails coverage tails s
        (s, log ++ log', fits)

def absorbHeld (s : ClientScreen) (head : Head) : ClientScreen × List Event × Except PartMismatch Unit :=
  match s.pending with
  | none => (s, [], .ok ())
  | some assembly =>
    let (s, log, fits) := absorbTails w head.coverage s.held s
    ({ s with
      held := if s.confirmed.isSome then [] else s.held
      pending := some { assembly with head := some head } }, log, if fits then .ok () else .error .outsideGrid)

def settle (s : ClientScreen) : ClientScreen × List Event × Except PartMismatch (Option Assembled) :=
  match s.pending with
  | none => (s, [], .ok none)
  | some assembly =>
    match assembly.head with
    | none => (s, [], .ok none)
    | some head =>
      if s.applied.all id = false then (s, [], .ok none)
      else
        match s.confirmed with
        | none =>
          if s.chunks ≠ [] ∨ head.coverage = .whole ∧ s.covered.all id = false then (s, [], .ok none)
          else (s.abandon, [], .ok none)
        | some screen =>
          let canvas : Canvas :=
            if s.chunks = [] then ⟨screen.rows, s.covered, []⟩
            else writeJoinedRows w screen.size head.coverage ⟨screen.rows, s.covered, []⟩ s.chunks
          let s := { s with
            confirmed := some { screen with rows := canvas.rows }, covered := canvas.covered, chunks := [] }
          -- A row whose chunks did not add up is one this client is not holding.
          if head.coverage = .whole ∧ canvas.covered.all id = false then (s, canvas.log, .ok none)
          else if assembly.predicted then (s.abandon, canvas.log, .ok none)
          else
            ({ s.abandon with confirmed := some { screen with version := some assembly.named.2, rows := canvas.rows } },
              canvas.log, .ok (some ⟨assembly.named.1, assembly.named.2, head.nextOff⟩))

def tail (s : ClientScreen) (assembly : Assembly) (pieces index : ℕ) (rows : List RowSpan) :
    ClientScreen × List Event × Except PartMismatch (Option Assembled) :=
  match assembly.head with
  | none =>
    if s.held.length < heldTails ∧ s.held.all (fun tail => tail.1 ≠ index) = true then
      ({ s with held := s.held ++ [(index, rows)] }, [], .ok none)
    else (s, [], .ok none)
  | some head =>
    -- A piece count disagreeing with the head's is a different cut.
    if pieces ≠ s.applied.length ∨ s.applied[index]? ≠ some false then (s, [], .ok none)
    else
      match s.confirmed with
      | none => (s, [], .ok none)
      | some screen =>
        if rowsFit rows screen.rows.length screen.size.cols = false then (s, [], .error .outsideGrid)
        else
          let (s, log) := s.writePiece w screen head.coverage index rows
          let (s, log', result) := s.settle w
          (s, log ++ log', result)

/-- The assembly a piece belongs to, begun if there is none. -/
def assemble (s : ClientScreen) (named : ℕ × ℕ) (predictions : Predictions) : ClientScreen × Assembly :=
  let s := if s.pending.any (fun assembly => assembly.named = named) then s else s.abandon
  let assembly := s.pending.getD ⟨named, none, false⟩
  let assembly := if predictions = .drawn then { assembly with predicted := true } else assembly
  ({ s with pending := some assembly }, assembly)

end ClientScreen

def ScreenPart.named : ScreenPart → ℕ × ℕ
  | .head header _ _ _ _ => (header.generation, header.version)
  | .tail generation version _ _ _ => (generation, version)

def ClientScreen.part (w : CharWidths) (s : ClientScreen) (part : ScreenPart) (terminalRows : ℕ)
    (predictions : Predictions) : ClientScreen × List Event × Except PartMismatch (Option Assembled) :=
  if s.superseded (ScreenPart.named part) then (s, [], .ok none)
  else
    let (s, assembly) := s.assemble (ScreenPart.named part) predictions
    match part with
    | .head header base scroll pieces rows =>
      if assembly.head.isSome then (s, [], .ok none)
      else
        match s.head w header base scroll pieces rows terminalRows predictions with
        | .error mismatch => (s.abandon, [], .error mismatch)
        | .ok (s, head, log) =>
          match s.absorbHeld w head with
          | (s, log', .error mismatch) => (s, log ++ log', .error mismatch)
          | (s, log', .ok ()) =>
            let (s, log'', result) := s.settle w
            (s, log ++ log' ++ log'', result)
    | .tail _ _ pieces index rows => s.tail w assembly pieces index rows

end Braid.Client
