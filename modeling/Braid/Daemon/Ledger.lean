import Braid.Daemon.RowMask
import Braid.Screen.Cut

/-! What the attached client has confirmed, and what it is still missing. A
delta is planned against the confirmed rows: the damage mask says which rows to
compare, a row some unconfirmed screen carried is sent whole, and a band of rows
that moved is sent as a band when that is cheaper. Buffers the source keeps only
to reuse their memory are left out. -/

namespace Braid.Daemon

open Foundation Screen

/-- A frame the emulator rendered; its rows are counted in 16 bits. -/
structure RepaintFrame where
  rows : List RowFrame
  height : rows.length ≤ u16Max
  deriving DecidableEq

/-- How a row is sent: whole, or the runs in which it differs from the confirmed
row, with an erase to the end of the line. -/
inductive RowPlan where
  | whole
  | span (runs : ℕ × ℕ) (clearTail : Bool)
  deriving DecidableEq

structure PlannedRow where
  row : ℕ
  sending : RowPlan
  deriving DecidableEq

def PlannedRow.update (named : PlannedRow) (frame : RowFrame) : RowUpdate :=
  match named.sending with
  | .whole => .whole named.row frame
  | .span runs clearTail => ⟨named.row, frame, runs, clearTail⟩

/-- `base`, `scroll` and `rows` count only when the plan is not `full`. -/
structure Plan where
  full : Bool
  base : ℕ
  scroll : Option ScrollBand
  rows : List PlannedRow
  deriving DecidableEq

def initialVersion : ℕ := 1

structure ScreenLedger where
  confirmed : Option (ℕ × ℕ)
  confirmedRows : List RowFrame
  pending : Option (ℕ × ℕ)
  pendingRows : List RowFrame
  damage : RowMask
  inFlightDamage : RowMask
  sentUnconfirmed : RowMask
  confirmedHashes : List UInt64
  deriving DecidableEq

/-! ### Row hashes -/

def rotateLeft (x : UInt64) (n : UInt64) : UInt64 := x <<< n ||| x >>> (64 - n)

def mix (hash word : UInt64) : UInt64 := (rotateLeft hash 5 ^^^ word) * 0x517cc1b727220a95

def colourKey : StyleColor → UInt64
  | .default => 0
  | .palette index => (1 : UInt64) <<< 24 ||| index.toUInt64
  | .rgb red green blue => (2 : UInt64) <<< 24 ||| red.toUInt64 <<< 16 ||| green.toUInt64 <<< 8 ||| blue.toUInt64

def styleKey (style : CellStyle) : UInt64 :=
  rotateLeft (colourKey style.fg) 21 ^^^ rotateLeft (colourKey style.bg) 42 ^^^ colourKey style.underlineColor ^^^
    style.attrs.toUInt64 <<< 56 ^^^ UInt64.ofNat style.underline.toWire <<< 48

def wordOf (bytes : List UInt8) : UInt64 := bytes.foldr (fun byte word => word <<< 8 ||| byte.toUInt64) 0

/-- Eight bytes at a time, then the remainder byte by byte, tagged. -/
def hashBytes : ℕ → UInt64 → List UInt8 → UInt64
  | 0, hash, _ => hash
  | fuel + 1, hash, bytes =>
    if 8 ≤ bytes.length then hashBytes fuel (mix hash (wordOf (bytes.take 8))) (bytes.drop 8)
    else bytes.foldl (fun hash byte => mix hash (byte.toUInt64 ||| 0x100)) hash

def rowHash (row : RowFrame) : UInt64 :=
  let bytes := row.text.flatMap String.utf8EncodeChar
  let hash := hashBytes (bytes.length + 1) (UInt64.ofNat row.cells) bytes
  row.runs.foldl (fun hash run =>
    mix (mix hash (UInt64.ofNat run.cells ||| UInt64.ofNat run.bytes <<< 16)) (styleKey run.style)) hash

/-! ### The band search -/

structure Hashed where
  rows : List RowFrame
  hashes : List UInt64

/-- How many of `named`, which ascends by row, fall inside `[top, bottom)`. -/
def within (named : List PlannedRow) (top bottom : ℕ) : ℕ :=
  let start := (named.takeWhile fun one => one.row < top).length
  ((named.drop start).takeWhile fun one => one.row < bottom).length

def cost (band : ScrollBand) (named : List PlannedRow) (carried : RowMask) : ℕ :=
  let revealed := band.bottom - band.lines
  let inherited := ((List.range' band.top (revealed - band.top)).filter fun row => carried.get (row + band.lines)).length
  let inside := within named band.top band.bottom
  band.lines + inherited + (named.length - inside)

def Hashed.moved (frame confirmed : Hashed) (lines row : ℕ) : Bool :=
  frame.hashes[row]? == confirmed.hashes[row + lines]?

def matchEnd (moved : ℕ → Bool) (last : ℕ) : ℕ → ℕ → ℕ
  | 0, row => row
  | fuel + 1, row => if row < last && moved row then matchEnd moved last fuel (row + 1) else row

section Band

variable (confirmed frame : Hashed) (count : ℕ) (named : List PlannedRow) (carried : RowMask)

/-- The cheapest band found so far, after the bands of one shift from `row` on. -/
def scanShift (lines : ℕ) : ℕ → ℕ → Option (ℕ × ScrollBand) → Option (ℕ × ScrollBand)
  | 0, _, best => best
  | fuel + 1, row, best =>
    let last := count - lines
    if last ≤ row then best
    else if frame.moved confirmed lines row = false then scanShift lines fuel (row + 1) best
    else
      let stop := matchEnd (frame.moved confirmed lines) last (last - row) row
      let found : ScrollBand := ⟨row, min (stop + lines) count, lines⟩
      let foundCost := cost found named carried
      -- A hash may collide, so the rows decide.
      if best.all (fun (lowest, _) => foundCost < lowest) &&
          (List.range' row (stop - row)).all fun i => frame.rows[i]? == confirmed.rows[i + lines]? then
        scanShift lines fuel stop (some (foundCost, found))
      else scanShift lines fuel stop best

/-- Shifts upwards, until the best band is no dearer than the next shift. -/
def searchShifts : ℕ → ℕ → Option (ℕ × ScrollBand) → Option (ℕ × ScrollBand)
  | 0, _, best => best
  | fuel + 1, lines, best =>
    if best.any fun (lowest, _) => lowest ≤ lines then best
    else searchShifts fuel (lines + 1) (scanShift confirmed frame count named carried lines count 0 best)

/-- The band of rows that moved, when moving it costs less than naming them. -/
def band : Option ScrollBand :=
  let limit := min (min named.length u16Max) count
  let best := searchShifts confirmed frame count named carried (limit - 1) 1 none
  (best.filter fun (lowest, _) => lowest < named.length).map Prod.snd

end Band

/-! ### The ledger -/

/-- A range that reaches the last run carries the row to its painted end. -/
def partialPlan (frame : RowFrame) (runs : ℕ × ℕ) : RowPlan :=
  .span runs (decide (runs.2 = frame.runs.length))

namespace ScreenLedger

def new : ScreenLedger := ⟨none, [], none, [], .empty, .empty, .empty, []⟩

variable (ledger : ScreenLedger)

def noteDamage (dirty : RowMask) : ScreenLedger :=
  { ledger with damage := ledger.damage.union dirty }

def invalidate (rows : ℕ) : ScreenLedger :=
  { ledger with
    confirmed := none
    confirmedRows := []
    confirmedHashes := []
    pending := none
    damage := .filled rows
    inFlightDamage := .reset rows
    sentUnconfirmed := .reset rows }

def releaseInFlight : ScreenLedger :=
  if ledger.pending.isSome then
    { ledger with
      pending := none
      damage := ledger.damage.union ledger.inFlightDamage
      inFlightDamage := ledger.inFlightDamage.clearAll }
  else ledger

variable (frame : RepaintFrame)

/-- What a delta sends for one row the masks name. -/
def planRow (row : ℕ) : Option PlannedRow :=
  let frameRow := frame.rows.getD row .blank
  if ledger.sentUnconfirmed.get row then some ⟨row, .whole⟩
  else (frameRow.changedSpan (ledger.confirmedRows.getD row .blank)).map fun runs => ⟨row, partialPlan frameRow runs⟩

/-- The rows a delta names without a band. The walk ascends, so it ends at the
first row the frame does not have. -/
def namedRows : List PlannedRow :=
  ((ledger.damage.iterEither ledger.sentUnconfirmed).takeWhile fun row => row < frame.rows.length).filterMap
    (ledger.planRow frame)

/-- The rows named around a band: those outside it, those that inherit a row the
client may hold differently, and those it reveals. -/
def scrollRows (rows : List PlannedRow) (band : ScrollBand) : List PlannedRow :=
  let revealed := band.bottom - band.lines
  let whole (row : ℕ) : PlannedRow := ⟨row, .whole⟩
  rows.filter (fun one => one.row < band.top) ++
    ((List.range' band.top (revealed - band.top)).filter fun row =>
      ledger.sentUnconfirmed.get (row + band.lines)).map whole ++
    (List.range' revealed (band.bottom - revealed)).map whole ++
    rows.filter fun one => band.bottom ≤ one.row

/-- Rewrite the plan around the band that moved; every row of it is in doubt
until the client answers. -/
def scrollTo (plan : Plan) (band : ScrollBand) : ScreenLedger × Plan :=
  ({ ledger with
      sentUnconfirmed := ledger.sentUnconfirmed.setAll (List.range' band.top (band.bottom - band.top)) },
    { plan with scroll := some band, rows := ledger.scrollRows plan.rows band })

/-- Look for a band, filling the cache of row hashes. -/
def findBand (named : List PlannedRow) :
    ScreenLedger × Option ScrollBand :=
  let hashes :=
    if ledger.confirmedHashes.isEmpty then ledger.confirmedRows.map rowHash else ledger.confirmedHashes
  ({ ledger with confirmedHashes := hashes },
    band ⟨ledger.confirmedRows, hashes⟩ ⟨frame.rows, frame.rows.map rowHash⟩ frame.rows.length named
      ledger.sentUnconfirmed)

/-- The delta half of a plan, and whether a delta will do. -/
def planDelta (generation : ℕ) (plan : Plan) :
    ScreenLedger × Plan × Bool :=
  match ledger.confirmed with
  | none => (ledger, plan, false)
  | some (confirmedGeneration, base) =>
    if confirmedGeneration ≠ generation ∨ ledger.confirmedRows.length ≠ frame.rows.length then (ledger, plan, false)
    else
      let plan := { plan with base := base }
      if ledger.damage.isEmpty && ledger.sentUnconfirmed.isEmpty then (ledger, plan, true)
      else
        let plan := { plan with rows := ledger.namedRows frame }
        let (ledger, plan) :=
          if 1 < plan.rows.length then
            match ledger.findBand frame plan.rows with
            | (ledger, some found) => ledger.scrollTo plan found
            | (ledger, none) => (ledger, plan)
          else (ledger, plan)
        (ledger, plan, decide (plan.rows.length < frame.rows.length))

/-- Decide what to send for `frame`, and record it as sent. -/
def plan (ledger : ScreenLedger) (frame : RepaintFrame) (generation version : ℕ) : ScreenLedger × Plan :=
  let ledger := ledger.releaseInFlight
  let (ledger, plan, delta) := ledger.planDelta frame generation ⟨true, initialVersion, none, []⟩
  let (plan, carried) : Plan × List ℕ :=
    if delta then ({ plan with full := false }, plan.rows.map PlannedRow.row)
    else ({ plan with full := true, scroll := none, rows := [] }, List.range frame.rows.length)
  ({ ledger with
      sentUnconfirmed := ledger.sentUnconfirmed.setAll carried
      pending := some (generation, version)
      inFlightDamage := ledger.damage
      damage := ledger.inFlightDamage.clearAll
      pendingRows := frame.rows },
    plan)

/-- Record the screen a client says it is showing, if it is the one in flight. -/
def confirm (generation version : ℕ) : ScreenLedger × Bool :=
  if ledger.pending ≠ some (generation, version) then (ledger, false)
  else
    ({ ledger with
        pending := none
        inFlightDamage := ledger.inFlightDamage.clearAll
        sentUnconfirmed := ledger.sentUnconfirmed.clearAll
        confirmedRows := ledger.pendingRows
        pendingRows := ledger.confirmedRows
        confirmedHashes := []
        confirmed := some (generation, version) },
      true)

end ScreenLedger

end Braid.Daemon
