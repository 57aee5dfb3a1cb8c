import Braid.Foundation.Border
import Braid.Foundation.Utf8
import Braid.Client.Patch

/-! Local echo. A keystroke is drawn before the session echoes it, its echo is
suppressed when it arrives, and a wrong guess is taken back off the row. What is
drawn is decided by runs: a run starts unconfirmed, buffers what is typed, and is
drawn once the session has echoed everything then owed. Durations are nanoseconds
and sequence numbers are positive naturals. The scratch buffers of the source are
results here: a local repair carries its undo, and drawing yields the predictions
drawn. A prediction is given a serial number, which nothing reads. -/

namespace Braid.Client

open Foundation

structure Pending where
  byte : UInt8
  epoch : ℕ
  sentAs : Option ℕ
  drawn : Bool
  serial : ℕ
  deriving DecidableEq

inductive Repair where
  | none
  | local (undo : List UInt8)
  | repaint
  deriving DecidableEq

structure Absorbed where
  skip : ℕ
  repair : Repair
  deriving DecidableEq

inductive Prediction where
  | never
  | adaptive
  | always
  deriving DecidableEq

inductive Typing where
  | continuous
  | interrupted
  deriving DecidableEq

inductive Gate where
  | opened
  | closed
  deriving DecidableEq

inductive InputCue where
  | obscured
  | echoing (room : ℕ)
  deriving DecidableEq

def predictAbove : ℕ := 30000000

def predictBelow : ℕ := 20000000

def pasteCells : ℕ := 100

/-- Characters that a terminal sizes as part of a cluster. -/
def foldsIntoNeighbour (c : Char) : Bool :=
  (0x1f1e6 ≤ c.toNat && c.toNat ≤ 0x1f1ff) || (0x1f3fb ≤ c.toNat && c.toNat ≤ 0x1f3ff)

namespace CharWidths

variable (w : CharWidths)

def cellWidth (c : Char) : Option ℕ :=
  if foldsIntoNeighbour c then none
  else match w.width c with
    | some 1 => some 1
    | some 2 => some 2
    | _ => none

def columns : Text → Option ℕ
  | [] => some 0
  | c :: text => (w.cellWidth c).bind fun cells => (columns text).map (cells + ·)

def advance : Text → Option ℤ
  | [] => some 0
  | c :: text =>
    (if c = '\x08' then some (-1) else (w.cellWidth c).map Int.ofNat).bind fun moved => (advance text).map (moved + ·)

def cursorAdvance (drawn : List UInt8) : Option ℤ := (fromUtf8 drawn).bind w.advance

def columnAfter (column : Option ℤ) (written : List UInt8) : Option ℤ :=
  column.bind fun column => (w.cursorAdvance written).bind fun moved =>
    if 0 ≤ column + moved then some (column + moved) else none

def appendedColumns (drawn : List UInt8) : Option ℕ := (fromUtf8 drawn).bind w.columns

/-- Printable ASCII takes one column. -/
def PrintsAscii : Prop := ∀ c : Char, 0x20 ≤ c.toNat → c.toNat < 0x7f → w.width c = some 1

end CharWidths

/-- A table of printable ASCII alone. -/
def asciiColumns : CharWidths where
  width c := if 0x20 ≤ c.toNat ∧ c.toNat < 0x7f then some 1 else none
  ascii c _ := by split_ifs <;> simp

theorem asciiColumns_printsAscii : asciiColumns.PrintsAscii := fun _ hlow hhigh => if_pos ⟨hlow, hhigh⟩

def eraseEcho : ℕ → List UInt8
  | 2 => [0x08, 0x08, 0x20, 0x20, 0x08, 0x08]
  | _ => [0x08, 0x20, 0x08]

/-- Whether output rewrites the row from its first column. -/
def restatesRow (session : List UInt8) : Bool := [0x0d].isPrefixOf session && !([0x0d, 0x0a].isPrefixOf session)

structure RowExtent where
  cols : Option ℤ
  clearsTail : Bool
  deriving DecidableEq

def stringEnd : List UInt8 → Option ℕ
  | [] => none
  | 0x07 :: _ => some 1
  | 0x1b :: 0x5c :: _ => some 2
  | _ :: rest => (stringEnd rest).map (· + 1)

def escapeLen : List UInt8 → Option ℕ
  | _ :: 0x5b :: rest => (rest.findIdx? fun byte => 0x40 ≤ byte && byte ≤ 0x7e).map (3 + ·)
  | _ :: introducer :: rest =>
    if introducer ∈ [0x5d, 0x50, 0x58, 0x5e, 0x5f] then (stringEnd rest).map (2 + ·) else some 2
  | _ => none

def leadingChar (bytes : List UInt8) : Option Char :=
  bytes.head?.bind fun first =>
    let len :=
      if first ≤ 0x7f then some 1
      else if 0xc0 ≤ first ∧ first ≤ 0xdf then some 2
      else if 0xe0 ≤ first ∧ first ≤ 0xef then some 3
      else if 0xf0 ≤ first ∧ first ≤ 0xf7 then some 4
      else none
    len.bind fun len => if len ≤ bytes.length then (fromUtf8 (bytes.take len)).bind List.head? else none

/-- Every round consumes a byte, so a round for every byte is enough. -/
def rewriteWalk (w : CharWidths) : ℕ → List UInt8 → ℤ → Bool → RowExtent
  | _, [], cols, clearsTail => ⟨some cols, clearsTail⟩
  | 0, _ :: _, _, clearsTail => ⟨none, clearsTail⟩
  | rounds + 1, byte :: rest, cols, clearsTail =>
    if byte = 0x0d then rewriteWalk w rounds rest 0 clearsTail
    else if byte = 0x08 then rewriteWalk w rounds rest (cols - 1) clearsTail
    else if byte = 0x1b then
      match escapeLen (byte :: rest) with
      | none => ⟨none, clearsTail⟩
      | some len =>
        let escape := (byte :: rest).take len
        let clears := escape = [0x1b, 0x5b, 0x4b] ∨ escape = [0x1b, 0x5b, 0x30, 0x4b]
        rewriteWalk w rounds ((byte :: rest).drop len) cols (clearsTail || clears)
    else if byte < 0x20 ∨ byte = 0x7f then ⟨none, clearsTail⟩
    else
      match leadingChar (byte :: rest) with
      | none => ⟨none, clearsTail⟩
      | some c =>
        match w.cellWidth c with
        | none => ⟨none, clearsTail⟩
        | some width => rewriteWalk w rounds ((byte :: rest).drop c.utf8Size) (cols + width) clearsTail

variable (w : CharWidths)

def rewriteExtent (rewrite : List UInt8) : RowExtent :=
  rewriteWalk w rewrite.length rewrite 0 false

inductive Keystroke where
  | print (text : Text) (cols : ℕ)
  | erase (cells : ℕ)
  deriving DecidableEq

/-- A chunk is one shape or it is nothing. -/
def Keystroke.of (typed : List UInt8) : Option Keystroke :=
  if typed.isEmpty then none
  else if typed.all fun byte => byte = 0x7f ∨ byte = 0x08 then some (.erase typed.length)
  else (fromUtf8 typed).bind fun text => (w.columns text).map (.print text)

def isAhead (seq : ℕ) (ack : Option ℕ) : Bool := ack.all (· < seq)

structure Predictor where
  outstanding : List Pending
  epoch : ℕ
  confirmedEpoch : ℕ
  deferred : Option ℕ
  delivered : Option ℕ
  runCells : List ℕ
  cue : InputCue
  mode : Prediction
  gate : Gate
  column : Option ℤ
  issued : ℕ
  deriving DecidableEq

namespace Predictor

def new (mode : Prediction) : Predictor := ⟨[], 1, 0, none, none, [], .obscured, mode, .opened, none, 0⟩

variable (p : Predictor)

def confirmed : Bool := p.epoch = p.confirmedEpoch

def drawingNow : Bool :=
  match p.mode with
  | .never => false
  | .adaptive => p.gate = .opened
  | .always => true

def anythingDrawn : Bool := p.outstanding.any (·.drawn)

def queue (bytes : List UInt8) (sentAs : Option ℕ) : Predictor :=
  { p with
    outstanding := p.outstanding ++ (bytes.zipIdx p.issued).map fun (byte, serial) =>
      ⟨byte, p.epoch, sentAs, false, serial⟩
    issued := p.issued + bytes.length }

/-- Draw every prediction not yet on the terminal, oldest first. -/
def release (p : Predictor) : Predictor × List Pending :=
  if p.drawingNow then
    let drawing := p.outstanding.filter (!·.drawn)
    ({ p with
      outstanding := p.outstanding.map fun pending => { pending with drawn := true }
      column := w.columnAfter p.column (drawing.map (·.byte)) }, drawing)
  else (p, [])

def stall : Predictor :=
  { p with epoch := p.epoch + 1, outstanding := p.outstanding.filter (·.drawn), runCells := [] }

def eraseCells (sentAs : Option ℕ) : ℕ → Predictor → Predictor
  | 0, p => p
  | cells + 1, p =>
    match p.runCells.getLast? with
    | some width =>
      eraseCells sentAs cells ({ p with runCells := p.runCells.dropLast }.queue (eraseEcho width) sentAs)
    | none => eraseCells sentAs cells p

def predict (p : Predictor) (typed : List UInt8) (sentAs : Option ℕ) (since : Typing) :
    Predictor × List Pending :=
  let p := if since = .interrupted then p.stall else p
  match p.cue with
  | .obscured => (p.stall, [])
  | .echoing room =>
    match Keystroke.of w typed with
    | some (.print text cols) =>
      if cols ≤ pasteCells ∧ p.outstanding.length + typed.length ≤ room then
        let p := p.queue typed sentAs
        let p := { p with runCells := p.runCells ++ text.filterMap w.cellWidth }
        if p.confirmed then p.release w else (p, [])
      else (p.stall, [])
    | some (.erase cells) =>
      if p.confirmed ∧ p.outstanding.all (·.drawn) ∧ cells ≤ p.runCells.length then
        (eraseCells sentAs cells p).release w
      else (p.stall, [])
    | none => (p.stall, [])

def observedRtt (srtt : Option ℕ) : Predictor :=
  match srtt with
  | none => p
  | some srtt =>
    if predictAbove < srtt then { p with gate := .opened }
    else if srtt ≤ predictBelow ∧ !p.anythingDrawn then { p with gate := .closed }
    else p

/-- The run a match of the `matched` oldest predictions confirms: it covers
everything owed, and the last of it has been acknowledged. -/
def confirms (matched : ℕ) : Option ℕ :=
  if matched = 0 ∨ matched < p.outstanding.length then none
  else p.outstanding.getLast?.bind fun last =>
    if last.sentAs.any fun seq => p.delivered.any (seq ≤ ·) then some last.epoch else none

def promote (matched : ℕ) : Predictor :=
  match p.confirms matched with
  | some run => { p with confirmedEpoch := max p.confirmedEpoch run }
  | none => p

/-- How many predictions the output starts with. -/
def echoed (session : List UInt8) : ℕ :=
  ((p.outstanding.zip session).takeWhile fun (pending, actual) => pending.byte = actual).length

def drawnBytes : List UInt8 := (p.outstanding.takeWhile (·.drawn)).map (·.byte)

def undo (cols : ℕ) : List UInt8 := List.replicate cols 0x08 ++ List.replicate cols 0x20 ++ List.replicate cols 0x08

def planRepair (p : Predictor) (follows : List UInt8) : Repair :=
  if p.drawnBytes.isEmpty then .none
  else
    let printable := follows.head?.any fun byte => 0x20 ≤ byte && byte ≠ 0x7f
    match (w.appendedColumns p.drawnBytes).filter fun _ => printable with
    | some cols => .local (undo cols)
    | none => .repaint

def endRun (p : Predictor) (follows : List UInt8) : Predictor × Repair :=
  ({ p with outstanding := [], runCells := [], deferred := none, column := none, epoch := p.epoch + 1 },
    p.planRepair w follows)

/-- The longest prefix of what is owed that ends the rewrite. -/
def restatedTail (rewrite : List UInt8) : ℕ :=
  if p.outstanding.isEmpty ∨ rewrite.isEmpty then 0 else Border.scan (p.outstanding.map (·.byte)) rewrite

def rewriteAccountsForTheRun (p : Predictor) (extent : RowExtent) : Bool :=
  extent.clearsTail ||
    match w.cursorAdvance p.drawnBytes with
    | none => false
    | some advance =>
      advance ≤ 0 ||
        match extent.cols, p.column with
        | none, _ => false
        | some cols, some cursor => cursor ≤ cols || cols = cursor - advance
        | some cols, none => advance ≤ cols

/-- The output behind the echo rewrites the row. -/
def rewriteRow (p : Predictor) (rest : List UInt8) : Predictor × Repair :=
  let restated := p.restatedTail rest
  let extent := rewriteExtent w rest
  if restated = 0 ∧ !p.rewriteAccountsForTheRun w extent then p.endRun w []
  else
    let p := p.promote restated
    let outstanding :=
      if 0 < restated then p.outstanding.drop restated
      else if p.confirmed then p.outstanding
      else []
    ({ p with
      outstanding := outstanding.map fun pending => { pending with drawn := false }
      deferred := none
      column := extent.cols.filter (0 ≤ ·) }, .none)

/-- The sequence of the oldest prediction when the application cannot have seen it. -/
def unanswered (echoAck : Option ℕ) : Option ℕ :=
  p.outstanding.head?.bind fun first => first.sentAs.filter (isAhead · echoAck)

/-- Take the echo at the front of the output off what is owed. -/
def takeEcho (session : List UInt8) (cue : InputCue) : Predictor :=
  let echoed := p.echoed session
  let p := promote { p with cue } echoed
  if 0 < echoed then { p with deferred := none, outstanding := p.outstanding.drop echoed } else p

def absorb (p : Predictor) (session : List UInt8) (cue : InputCue) (echoAck : Option ℕ) :
    Predictor × Absorbed :=
  let echoed := p.echoed session
  let skip := ((p.outstanding.take echoed).takeWhile (·.drawn)).length
  let p := p.takeEcho session cue
  let rest := session.drop echoed
  if rest.isEmpty then ({ p with column := w.columnAfter p.column (session.drop skip) }, ⟨skip, .none⟩)
  else if restatesRow rest then
    let (p, repair) := p.rewriteRow w rest
    (p, ⟨skip, repair⟩)
  else
    match p.unanswered echoAck with
    | some unanswered =>
      ({ p with deferred := some unanswered, column := w.columnAfter p.column (session.drop skip) }, ⟨skip, .none⟩)
    | none =>
      let (p, repair) := p.endRun w rest
      (p, ⟨skip, repair⟩)

def acknowledged (highest : ℕ) : Predictor :=
  { p with delivered := some (p.delivered.elim highest (max · highest)) }

/-- Whether the terminal is left holding what the session did not send. -/
def echoAck (p : Predictor) (ack : Option ℕ) : Predictor × Bool :=
  match p.deferred with
  | none => (p, false)
  | some deferred =>
    if isAhead deferred ack then (p, false)
    else
      let (p, repair) := p.endRun w []
      (p, repair ≠ .none)

def invalidate (p : Predictor) : Predictor × Bool :=
  let (p, repair) := p.endRun w []
  ({ p with cue := .obscured }, repair ≠ .none)

def resized : Predictor := { p with cue := .obscured, column := none }

/-- The calls a display makes. -/
inductive Call where
  | predict (typed : List UInt8) (sentAs : Option ℕ) (since : Typing)
  | absorb (session : List UInt8) (cue : InputCue) (echoAck : Option ℕ)
  | acknowledged (highest : ℕ)
  | echoAck (ack : Option ℕ)
  | invalidate
  | resized
  | observedRtt (srtt : Option ℕ)
  deriving DecidableEq

def step (p : Predictor) : Call → Predictor
  | .predict typed sentAs since => (p.predict w typed sentAs since).1
  | .absorb session cue echoAck => (p.absorb w session cue echoAck).1
  | .acknowledged highest => p.acknowledged highest
  | .echoAck ack => (p.echoAck w ack).1
  | .invalidate => (p.invalidate w).1
  | .resized => p.resized
  | .observedRtt srtt => p.observedRtt srtt

def after (mode : Prediction) (calls : List Call) : Predictor := calls.foldl (step w) (new mode)

@[simp] theorem promote_outstanding (matched : ℕ) : (p.promote matched).outstanding = p.outstanding := by
  unfold promote
  split <;> rfl

@[simp] theorem promote_delivered (matched : ℕ) : (p.promote matched).delivered = p.delivered := by
  unfold promote
  split <;> rfl

theorem echoed_take (session : List UInt8) :
    (p.outstanding.map (·.byte)).take (p.echoed session) = session.take (p.echoed session) := by
  unfold echoed
  generalize p.outstanding = owed
  induction owed generalizing session with
  | nil => simp
  | cons key owed ih =>
    cases session with
    | nil => simp
    | cons actual session =>
      rw [List.zip_cons_cons, List.takeWhile_cons]
      split_ifs with heq
      · rw [List.length_cons, List.map_cons, List.take_succ_cons, List.take_succ_cons, ih session]
        exact congrArg (· :: _) (of_decide_eq_true heq)
      · rfl

theorem takeEcho_outstanding (session : List UInt8) (cue : InputCue) :
    (p.takeEcho session cue).outstanding = p.outstanding.drop (p.echoed session) := by
  unfold takeEcho
  dsimp only
  split_ifs with hpos
  · rw [promote_outstanding]
  · rw [promote_outstanding, Nat.eq_zero_of_not_pos hpos, List.drop_zero]

theorem takeEcho_delivered (session : List UInt8) (cue : InputCue) :
    (p.takeEcho session cue).delivered = p.delivered := by
  unfold takeEcho
  dsimp only
  split_ifs <;> rw [promote_delivered]

theorem echoed_stop {p : Predictor} {session rest : List UInt8} {key : Pending} {owed : List Pending} {actual : UInt8}
    (howed : p.outstanding.drop (p.echoed session) = key :: owed)
    (hrest : session.drop (p.echoed session) = actual :: rest) : key.byte ≠ actual := by
  unfold echoed at howed hrest
  revert howed hrest
  generalize p.outstanding = all
  induction all generalizing session with
  | nil => intro howed; simp at howed
  | cons first all ih =>
    cases session with
    | nil => intro _ hrest; simp at hrest
    | cons byte session =>
      rw [List.zip_cons_cons, List.takeWhile_cons]
      split_ifs with heq
      · exact fun howed hrest => ih howed hrest
      · intro howed hrest
        obtain ⟨rfl, -⟩ := List.cons.inj howed
        obtain ⟨rfl, -⟩ := List.cons.inj hrest
        exact of_decide_eq_false (Bool.eq_false_iff.mpr heq)

theorem echoed_le (session : List UInt8) : p.echoed session ≤ session.length := by
  refine (List.takeWhile_prefix _).length_le.trans ?_
  rw [List.length_zip]
  exact min_le_right _ _

theorem echoAck_cases (p : Predictor) (ack : Option ℕ) :
    p.echoAck w ack = (p, false) ∨ p.echoAck w ack = ((p.endRun w []).1, (p.planRepair w [] ≠ .none : Bool)) := by
  unfold echoAck
  split
  · exact .inl rfl
  · split_ifs
    · exact .inl rfl
    · exact .inr rfl

end Predictor

end Braid.Client
