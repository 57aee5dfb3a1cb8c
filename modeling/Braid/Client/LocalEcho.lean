import Braid.Foundation.System
import Braid.Client.Predict

/-! Local echo on one line. A display writes what is drawn at the cursor, takes cells
back with the bytes of a local repair, and writes the output behind the echo it skips.
With printable ASCII on both sides the cells before the cursor are the session's output
followed by what is drawn and owed, until output departs from the echo at a drawn
prediction that the application has not seen. That output is written behind the cell
of the prediction, and nothing later moves it. -/

namespace Braid.Client

open Foundation

/-- The cells of a row on both sides of the cursor. -/
structure EchoLine where
  before : List UInt8
  behind : List UInt8
  deriving DecidableEq

namespace EchoLine

/-- A backspace moves the cursor back, and any other byte replaces the cell it stands in. -/
def put (line : EchoLine) (byte : UInt8) : EchoLine :=
  if byte = 0x08 then ⟨line.before.dropLast, line.before.getLast?.toList ++ line.behind⟩
  else ⟨line.before ++ [byte], line.behind.tail⟩

def write (line : EchoLine) (bytes : List UInt8) : EchoLine := bytes.foldl put line

def Blanked (line : EchoLine) : Prop := ∀ cell ∈ line.behind, cell = 0x20

variable {line : EchoLine} {bytes : List UInt8}

theorem write_append (line : EchoLine) (a b : List UInt8) : line.write (a ++ b) = (line.write a).write b :=
  List.foldl_append

theorem write_plain (line : EchoLine) (hplain : ∀ byte ∈ bytes, byte ≠ 0x08) :
    line.write bytes = ⟨line.before ++ bytes, line.behind.drop bytes.length⟩ := by
  induction bytes generalizing line with
  | nil => rw [List.append_nil]; rfl
  | cons byte bytes ih =>
    rw [List.forall_mem_cons] at hplain
    change (line.put byte).write bytes = _
    rw [ih _ hplain.2, put, if_neg hplain.1]
    simp [List.drop_tail]

theorem write_back (line : EchoLine) {n : ℕ} (hn : n ≤ line.before.length) :
    line.write (List.replicate n 0x08) =
      ⟨line.before.take (line.before.length - n), line.before.drop (line.before.length - n) ++ line.behind⟩ := by
  induction n with
  | zero => simp [write]
  | succ n ih =>
    rw [List.replicate_succ', write_append, ih (Nat.le_of_succ_le hn)]
    have hlt : line.before.length - (n + 1) < line.before.length := by omega
    have hsplit : line.before.length - n = line.before.length - (n + 1) + 1 := by omega
    change put _ 0x08 = _
    rw [put, if_pos rfl, hsplit, List.take_succ_eq_append_getElem hlt]
    simp only [List.dropLast_concat, List.getLast?_concat, Option.toList_some, ← List.append_assoc]
    rw [List.singleton_append, List.getElem_cons_drop]

theorem write_undo (line : EchoLine) {n : ℕ} (hn : n ≤ line.before.length) :
    line.write (Predictor.undo n) = ⟨line.before.take (line.before.length - n), List.replicate n 0x20 ++ line.behind⟩ := by
  have hlen : (line.before.take (line.before.length - n)).length = line.before.length - n := by simp
  have hblanks : ∀ byte ∈ List.replicate n (0x20 : UInt8), byte ≠ 0x08 := by
    intro byte hbyte
    rw [List.eq_of_mem_replicate hbyte]
    decide
  rw [Predictor.undo, write_append, write_append, line.write_back hn, write_plain _ hblanks, write_back _ (by simp)]
  simp only [List.length_append, List.length_replicate, hlen, Nat.add_sub_cancel, mk.injEq]
  constructor
  · rw [List.take_left' hlen]
  · rw [List.drop_left' hlen, List.drop_left' (by simp; omega)]

theorem Blanked.write_plain (h : line.Blanked) (hplain : ∀ byte ∈ bytes, byte ≠ 0x08) : (line.write bytes).Blanked := by
  rw [line.write_plain hplain]
  exact fun cell hcell => h cell (List.mem_of_mem_drop hcell)

theorem Blanked.write_undo (h : line.Blanked) {n : ℕ} (hn : n ≤ line.before.length) :
    (line.write (Predictor.undo n)).Blanked := by
  rw [line.write_undo hn]
  intro cell hcell
  exact (List.mem_append.mp hcell).elim List.eq_of_mem_replicate (h cell)

end EchoLine

/-- A display on one line: what it wrote, what the session sent, and whether it asked
for a whole screen. -/
structure EchoDisplay where
  predictor : Predictor
  line : EchoLine
  output : List UInt8
  asked : Bool

namespace EchoDisplay

open Predictor (Call)

def step (w : CharWidths) (d : EchoDisplay) : Call → EchoDisplay
  | .predict typed sentAs since =>
    let (predictor, drawn) := d.predictor.predict w typed sentAs since
    { d with predictor, line := d.line.write (drawn.map (·.byte)) }
  | .absorb session cue ack =>
    let (predictor, absorbed) := d.predictor.absorb w session cue ack
    let line := match absorbed.repair with
      | .local undo => d.line.write undo
      | _ => d.line
    { predictor
      line := line.write (session.drop absorbed.skip)
      output := d.output ++ session
      asked := d.asked || absorbed.repair = .repaint }
  | .echoAck ack =>
    let (predictor, repaint) := d.predictor.echoAck w ack
    { d with predictor, asked := d.asked || repaint }
  | call => { d with predictor := d.predictor.step w call }

def after (w : CharWidths) (mode : Prediction) (calls : List Call) : EchoDisplay :=
  calls.foldl (step w) ⟨.new mode, ⟨[], []⟩, [], false⟩

end EchoDisplay

def isPrintable (byte : UInt8) : Bool := 0x20 ≤ byte && byte < 0x7f

namespace Predictor

/-- Printable typing and output, and the two acknowledgements. -/
def Call.isPlain : Call → Bool
  | .predict typed _ _ => typed.all isPrintable
  | .absorb session _ _ => session.all isPrintable
  | .acknowledged _ | .echoAck _ => true
  | _ => false

/-- The output departs from the echo at a drawn prediction that the application has not seen. -/
def postpones (p : Predictor) (session : List UInt8) (ack : Option ℕ) : Bool :=
  match p.outstanding.drop (p.echoed session), session.drop (p.echoed session) with
  | key :: _, _ :: _ => key.drawn && key.sentAs.any (isAhead · ack)
  | _, _ => false

def Call.postpones (p : Predictor) : Call → Bool
  | .absorb session _ ack => p.postpones session ack
  | _ => false

/-- What is owed is drawn up to some prediction and undrawn from it on, and printable. -/
structure Drawn (owed drawn undrawn : List Pending) : Prop where
  split : owed = drawn ++ undrawn
  drawn : ∀ key ∈ drawn, key.drawn = true
  undrawn : ∀ key ∈ undrawn, key.drawn = false
  printable : ∀ key ∈ owed, isPrintable key.byte

variable {w : CharWidths} {p : Predictor} {owed drawn undrawn : List Pending}

theorem Drawn.takeWhile (h : Drawn owed drawn undrawn) : owed.takeWhile (·.drawn) = drawn := by
  rw [h.split, List.takeWhile_append_of_pos h.drawn]
  cases undrawn with
  | nil => simp
  | cons key undrawn => simp [h.undrawn key]

theorem Drawn.stall (h : Drawn p.outstanding drawn undrawn) : Drawn p.stall.outstanding drawn [] := by
  have houtstanding : p.stall.outstanding = drawn := by
    change p.outstanding.filter (·.drawn) = drawn
    rw [h.split, List.filter_append, List.filter_eq_self.mpr h.drawn,
      List.filter_eq_nil_iff.mpr fun key hkey => by simp [h.undrawn key hkey], List.append_nil]
  refine ⟨by rw [houtstanding, List.append_nil], h.drawn, nofun, fun key hkey => h.printable key ?_⟩
  exact List.mem_of_mem_filter hkey

theorem Drawn.queue (h : Drawn p.outstanding drawn undrawn) {bytes : List UInt8} (hbytes : bytes.all isPrintable)
    (sentAs : Option ℕ) : ∃ undrawn', Drawn (p.queue bytes sentAs).outstanding drawn undrawn' := by
  refine ⟨undrawn ++ (bytes.zipIdx p.issued).map fun typed => ⟨typed.1, p.epoch, sentAs, false, typed.2⟩,
    ?_, h.drawn, fun key hkey => ?_, fun key hkey => ?_⟩
  · rw [← List.append_assoc, ← h.split]
    rfl
  · rcases List.mem_append.mp hkey with hold | hnew
    · exact h.undrawn key hold
    · obtain ⟨_, -, rfl⟩ := List.mem_map.mp hnew
      rfl
  · rcases List.mem_append.mp hkey with hold | hnew
    · exact h.printable key hold
    · obtain ⟨⟨byte, serial⟩, hmem, rfl⟩ := List.mem_map.mp hnew
      have hbyte := List.fst_mem_of_mem_zipIdx hmem
      exact List.all_eq_true.mp hbytes byte hbyte

theorem Drawn.release (w : CharWidths) (h : Drawn p.outstanding drawn undrawn) :
    ∃ drawn' undrawn', Drawn (p.release w).1.outstanding drawn' undrawn' ∧
      drawn'.map (·.byte) = drawn.map (·.byte) ++ (p.release w).2.map (·.byte) ∧
      ∀ key ∈ (p.release w).2, isPrintable key.byte := by
  unfold Predictor.release
  split_ifs
  · have hfilter : p.outstanding.filter (!·.drawn) = undrawn := by
      rw [h.split, List.filter_append, List.filter_eq_nil_iff.mpr fun key hkey => by simp [h.drawn key hkey],
        List.filter_eq_self.mpr fun key hkey => by simp [h.undrawn key hkey], List.nil_append]
    refine ⟨p.outstanding.map fun pending => { pending with drawn := true }, [], ⟨?_, ?_, nofun, ?_⟩, ?_, ?_⟩
    · rw [List.append_nil]
    · intro key hkey
      obtain ⟨_, -, rfl⟩ := List.mem_map.mp hkey
      rfl
    · intro key hkey
      obtain ⟨old, hold, rfl⟩ := List.mem_map.mp hkey
      exact h.printable old hold
    · dsimp only
      rw [hfilter, List.map_map, ← List.map_append, ← h.split]
      rfl
    · intro key hkey
      exact h.printable key (List.mem_of_mem_filter hkey)
  · exact ⟨drawn, undrawn, h, by simp, nofun⟩

theorem not_erase {typed : List UInt8} (htyped : typed.all isPrintable) (cells : ℕ) :
    Keystroke.of w typed ≠ some (.erase cells) := by
  unfold Keystroke.of
  split_ifs with hempty herase
  · exact (Option.some_ne_none _).symm
  · obtain ⟨byte, rest, rfl⟩ := List.exists_cons_of_ne_nil (by simpa using hempty : typed ≠ [])
    have hprint := List.all_eq_true.mp htyped byte List.mem_cons_self
    have hbyte := List.all_eq_true.mp herase byte List.mem_cons_self
    rcases of_decide_eq_true hbyte with rfl | rfl <;> exact absurd hprint (by decide)
  · intro h
    obtain ⟨text, -, htext⟩ := Option.bind_eq_some_iff.mp h
    obtain ⟨cols, -, hcols⟩ := Option.map_eq_some_iff.mp htext
    exact Keystroke.noConfusion hcols

theorem Drawn.predict (h : Drawn p.outstanding drawn undrawn) {typed : List UInt8} (htyped : typed.all isPrintable)
    (sentAs : Option ℕ) (since : Typing) :
    ∃ drawn' undrawn', Drawn (p.predict w typed sentAs since).1.outstanding drawn' undrawn' ∧
      drawn'.map (·.byte) = drawn.map (·.byte) ++ (p.predict w typed sentAs since).2.map (·.byte) ∧
      ∀ key ∈ (p.predict w typed sentAs since).2, isPrintable key.byte := by
  obtain ⟨undrawn, hq⟩ : ∃ undrawn, Drawn (if since = .interrupted then p.stall else p).outstanding drawn undrawn := by
    split_ifs
    · exact ⟨[], h.stall⟩
    · exact ⟨undrawn, h⟩
  unfold Predictor.predict
  generalize (if since = .interrupted then p.stall else p) = q at hq ⊢
  have hstall : ∃ drawn' undrawn', Drawn (q.stall, ([] : List Pending)).1.outstanding drawn' undrawn' ∧
      drawn'.map (·.byte) = drawn.map (·.byte) ++ (q.stall, ([] : List Pending)).2.map (·.byte) ∧
      ∀ key ∈ (q.stall, ([] : List Pending)).2, isPrintable key.byte := ⟨drawn, [], hq.stall, by simp, nofun⟩
  dsimp only
  split
  · exact hstall
  · split
    · split_ifs
      · obtain ⟨undrawn', hqueue⟩ := hq.queue htyped sentAs
        apply Drawn.release w
        exact hqueue
      · obtain ⟨undrawn', hqueue⟩ := hq.queue htyped sentAs
        exact ⟨drawn, undrawn', hqueue, by simp, nofun⟩
      · exact hstall
    · rename_i herase
      exact absurd herase (not_erase htyped _)
    · exact hstall

theorem Drawn.drop (h : Drawn owed drawn undrawn) (n : ℕ) :
    Drawn (owed.drop n) (drawn.drop n) (undrawn.drop (n - drawn.length)) :=
  ⟨by rw [h.split, List.drop_append], fun key hkey => h.drawn key (List.mem_of_mem_drop hkey),
    fun key hkey => h.undrawn key (List.mem_of_mem_drop hkey),
    fun key hkey => h.printable key (List.mem_of_mem_drop hkey)⟩

theorem printable_bounds {byte : UInt8} (h : isPrintable byte) : 0x20 ≤ byte.toNat ∧ byte.toNat < 0x7f := by
  simp only [isPrintable, Bool.and_eq_true, decide_eq_true_eq, UInt8.le_iff_toNat_le, UInt8.lt_iff_toNat_lt] at h
  exact h

theorem cellWidth_printable (hw : w.PrintsAscii) {byte : UInt8} (h : isPrintable byte) :
    w.cellWidth (Char.ofUInt8 byte) = some 1 := by
  obtain ⟨hlow, hhigh⟩ := printable_bounds h
  have hnat : (Char.ofUInt8 byte).toNat = byte.toNat := UInt8.toNat_toUInt32 byte
  have hfolds : foldsIntoNeighbour (Char.ofUInt8 byte) = false := by
    simp only [foldsIntoNeighbour, hnat, Bool.or_eq_false_iff, Bool.and_eq_false_iff, decide_eq_false_iff_not]
    omega
  rw [CharWidths.cellWidth, hfolds, hw _ (by omega) (by omega)]
  rfl

theorem appendedColumns_printable (hw : w.PrintsAscii) {bytes : List UInt8} (h : ∀ byte ∈ bytes, isPrintable byte) :
    w.appendedColumns bytes = some bytes.length := by
  have hascii : ∀ byte ∈ bytes, byte < 128 := fun byte hbyte => by
    have := (printable_bounds (h byte hbyte)).2
    exact this.trans (by decide)
  rw [CharWidths.appendedColumns, fromUtf8_ascii hascii, Option.bind_some]
  induction bytes with
  | nil => rfl
  | cons byte bytes ih =>
    rw [List.forall_mem_cons] at h hascii
    rw [List.map_cons, CharWidths.columns, cellWidth_printable hw h.1, ih h.2 hascii.2]
    simp [Nat.add_comm]

theorem Drawn.planRepair (hw : w.PrintsAscii) (h : Drawn p.outstanding drawn undrawn) {follows : List UInt8}
    (hne : follows ≠ []) (hfollows : follows.all isPrintable) :
    p.planRepair w follows = if drawn = [] then .none else .local (undo drawn.length) := by
  obtain ⟨byte, rest, rfl⟩ := List.exists_cons_of_ne_nil hne
  have hbyte := printable_bounds (List.all_eq_true.mp hfollows byte List.mem_cons_self)
  have hprintable : ((byte :: rest).head?.any fun byte => 0x20 ≤ byte && byte ≠ 0x7f) = true := by
    simp only [List.head?_cons, Option.any_some, Bool.and_eq_true, decide_eq_true_eq, UInt8.le_iff_toNat_le]
    refine ⟨hbyte.1, ?_⟩
    rintro rfl
    exact absurd hbyte.2 (by decide)
  have hdrawn : p.drawnBytes = drawn.map (·.byte) := by rw [drawnBytes, h.takeWhile]
  have hcols : w.appendedColumns (drawn.map (·.byte)) = some drawn.length := by
    rw [appendedColumns_printable hw, List.length_map]
    intro byte hbyte
    obtain ⟨key, hkey, rfl⟩ := List.mem_map.mp hbyte
    exact h.printable key (h.split ▸ List.mem_append_left _ hkey)
  unfold Predictor.planRepair
  rw [hdrawn, hcols, hprintable]
  simp only [List.isEmpty_map, List.isEmpty_iff]
  rfl

theorem not_restatesRow {session : List UInt8} (h : session.all isPrintable) : restatesRow session = false := by
  cases session with
  | nil => rfl
  | cons byte session =>
    have hbyte := List.all_eq_true.mp h byte List.mem_cons_self
    have hne : byte ≠ 0x0d := by
      rintro rfl
      exact absurd hbyte (by decide)
    simp [restatesRow, List.isPrefixOf, hne.symm]

theorem Drawn.skip (h : Drawn owed drawn undrawn) (n : ℕ) :
    ((owed.take n).takeWhile (·.drawn)).length = min n drawn.length := by
  have hsplit : Drawn (owed.take n) (drawn.take n) (undrawn.take (n - drawn.length)) :=
    ⟨by rw [h.split, List.take_append], fun key hkey => h.drawn key (List.mem_of_mem_take hkey),
      fun key hkey => h.undrawn key (List.mem_of_mem_take hkey),
      fun key hkey => h.printable key (List.mem_of_mem_take hkey)⟩
  rw [hsplit.takeWhile, List.length_take]

/-- A judgement that is not postponed over drawn cells finds the first prediction owed
undrawn, or seen by the application. -/
theorem Drawn.not_postpones (h : Drawn p.outstanding drawn undrawn) {session : List UInt8} (cue : InputCue)
    (ack : Option ℕ) (hrest : session.drop (p.echoed session) ≠ []) :
    p.postpones session ack = false ↔
      drawn.length ≤ p.echoed session ∨ (p.takeEcho session cue).unanswered ack = none := by
  obtain ⟨byte, rest, hcons⟩ := List.exists_cons_of_ne_nil hrest
  obtain ⟨hsplit, hdrawn, hundrawn, -⟩ := h.drop (p.echoed session)
  unfold postpones unanswered
  rw [takeEcho_outstanding, hcons, ← List.drop_eq_nil_iff]
  cases howed : p.outstanding.drop (p.echoed session) with
  | nil => simp
  | cons key owed =>
    rw [howed] at hsplit
    have hkey : key.drawn = false ↔ drawn.drop (p.echoed session) = [] := by
      cases hleft : drawn.drop (p.echoed session) with
      | nil =>
        rw [hleft, List.nil_append] at hsplit
        simp [hundrawn key (hsplit ▸ List.mem_cons_self)]
      | cons first left =>
        rw [hleft] at hsplit hdrawn
        simp [(List.cons.inj hsplit).1, hdrawn first List.mem_cons_self]
    simp only [Bool.and_eq_false_iff, hkey, List.head?_cons, Option.bind_some, Option.filter_eq_none_iff,
      Option.any_eq_false, Bool.not_eq_true]

/-- Printable output leaves what it did not echo owed, or takes it off the row. -/
theorem Drawn.absorb (hw : w.PrintsAscii) (h : Drawn p.outstanding drawn undrawn) {session : List UInt8}
    (hsession : session.all isPrintable) (cue : InputCue) (ack : Option ℕ) :
    let echoed := p.echoed session
    let absorbed := p.absorb w session cue ack
    absorbed.2.skip = min echoed drawn.length ∧
      (absorbed.2.repair = .none ∧ absorbed.1.outstanding = p.outstanding.drop echoed ∧
          (p.postpones session ack = false → session.length ≤ echoed ∨ drawn.length ≤ echoed) ∨
        p.postpones session ack = false ∧ absorbed.1.outstanding = [] ∧
          absorbed.2.repair = if drawn.drop echoed = [] then .none else .local (undo (drawn.drop echoed).length)) := by
  have hskip := h.skip (p.echoed session)
  have howed := p.takeEcho_outstanding session cue
  have hrest : (session.drop (p.echoed session)).all isPrintable :=
    List.all_eq_true.mpr fun byte hbyte => List.all_eq_true.mp hsession byte (List.mem_of_mem_drop hbyte)
  unfold Predictor.absorb
  by_cases hempty : session.drop (p.echoed session) = []
  · rw [if_pos (List.isEmpty_iff.mpr hempty)]
    exact ⟨hskip, .inl ⟨rfl, howed, fun _ => .inl (List.drop_eq_nil_iff.mp hempty)⟩⟩
  · rw [if_neg (by rwa [List.isEmpty_iff]), not_restatesRow hrest, if_neg Bool.false_ne_true]
    have hpostpones := h.not_postpones cue ack hempty
    split <;> rename_i hunanswered
    · refine ⟨hskip, .inl ⟨rfl, howed, fun hnot => .inr ((hpostpones.mp hnot).resolve_right ?_)⟩⟩
      rw [hunanswered]
      exact Option.some_ne_none _
    · refine ⟨hskip, .inr ⟨hpostpones.mpr (.inr hunanswered), rfl, ?_⟩⟩
      have hdrop := h.drop (p.echoed session)
      rw [← howed] at hdrop
      exact hdrop.planRepair hw hempty hrest

end Predictor

namespace EchoDisplay

open Predictor (Call Drawn)

variable {w : CharWidths} {d : EchoDisplay} {drawn undrawn : List Pending}

structure Lined (d : EchoDisplay) (drawn undrawn : List Pending) : Prop where
  owed : Drawn d.predictor.outstanding drawn undrawn
  length : d.line.before.length = d.output.length + drawn.length
  blanked : d.line.Blanked

/-- A step leaves the cells of the earlier output as they are, and carries the echo on
unless it postpones a judgement over drawn cells. -/
structure Carries (d d' : EchoDisplay) (drawn drawn' : List Pending) (postponed : Bool) : Prop where
  output : d.output <+: d'.output
  settled : d'.line.before.take d.output.length = d.line.before.take d.output.length
  agrees : d.line.before = d.output ++ drawn.map (·.byte) → postponed = false →
    d'.line.before = d'.output ++ drawn'.map (·.byte)
  departs : d.line.before = d.output ++ drawn.map (·.byte) → postponed = true →
    d'.line.before.take d'.output.length ≠ d'.output

theorem Carries.stay {d' : EchoDisplay} {drawn' : List Pending} (hline : d'.line = d.line) (houtput : d'.output = d.output)
    (hdrawn : drawn' = drawn) : Carries d d' drawn drawn' false := by
  refine ⟨houtput ▸ List.prefix_rfl, by rw [hline], fun hagrees _ => ?_, nofun⟩
  rw [hline, houtput, hdrawn, hagrees]

theorem not_backspace {byte : UInt8} (h : isPrintable byte) : byte ≠ 0x08 := by
  rintro rfl
  exact absurd h (by decide)

theorem Lined.predict (h : Lined d drawn undrawn) {typed : List UInt8} (htyped : typed.all isPrintable)
    (sentAs : Option ℕ) (since : Typing) :
    ∃ drawn' undrawn', Lined (d.step w (.predict typed sentAs since)) drawn' undrawn' ∧
      Carries d (d.step w (.predict typed sentAs since)) drawn drawn' false := by
  obtain ⟨drawn', undrawn', howed, hbytes, hprintable⟩ := h.owed.predict (w := w) htyped sentAs since
  have hplain : ∀ byte ∈ (d.predictor.predict w typed sentAs since).2.map (·.byte), byte ≠ 0x08 := by
    intro byte hbyte
    obtain ⟨key, hkey, rfl⟩ := List.mem_map.mp hbyte
    exact not_backspace (hprintable key hkey)
  have hbefore : (d.step w (.predict typed sentAs since)).line.before =
      d.line.before ++ (d.predictor.predict w typed sentAs since).2.map (·.byte) := by
    simp only [step, d.line.write_plain hplain]
  have hlength := congrArg List.length hbytes
  simp only [List.length_append, List.length_map] at hlength
  refine ⟨drawn', undrawn', ⟨howed, ?_, h.blanked.write_plain hplain⟩, List.prefix_rfl, ?_, ?_, nofun⟩
  · rw [hbefore, List.length_append, List.length_map, h.length, hlength, Nat.add_assoc]
    rfl
  · rw [hbefore, List.take_append_of_le_length (by rw [h.length]; omega)]
  · intro hagrees _
    rw [hbefore, hbytes, hagrees, List.append_assoc]
    rfl

section

variable (howed : Drawn d.predictor.outstanding drawn undrawn)

include howed

theorem skipped (session : List UInt8) :
    (drawn.map (·.byte)).take (min (d.predictor.echoed session) drawn.length) =
      session.take (min (d.predictor.echoed session) drawn.length) := by
  have h := congrArg (List.take (min (d.predictor.echoed session) drawn.length)) (d.predictor.echoed_take session)
  rw [List.take_take, List.take_take, min_eq_left (min_le_left _ _), howed.split, List.map_append,
    List.take_append_of_le_length (by rw [List.length_map]; exact min_le_right _ _)] at h
  exact h

theorem echo_carried {session : List UInt8}
    (hall : session.length ≤ d.predictor.echoed session ∨ drawn.length ≤ d.predictor.echoed session) :
    drawn.map (·.byte) ++ session.drop (min (d.predictor.echoed session) drawn.length) =
      session ++ (drawn.drop (d.predictor.echoed session)).map (·.byte) := by
  have hfront := skipped howed session
  generalize d.predictor.echoed session = echoed at hall hfront ⊢
  by_cases hle : drawn.length ≤ echoed
  · rw [min_eq_right hle, List.take_of_length_le (by simp)] at hfront
    rw [min_eq_right hle, hfront, List.take_append_drop, List.drop_of_length_le hle]
    simp
  · have hlt := Nat.lt_of_not_le hle
    have hsession := hall.resolve_right hle
    rw [min_eq_left hlt.le, List.take_of_length_le hsession] at hfront
    rw [min_eq_left hlt.le, List.drop_of_length_le hsession, List.append_nil, List.map_drop, ← hfront,
      List.take_append_drop]

/-- Output that departs from the echo at a drawn prediction is not what the row shows. -/
theorem echo_departs {session : List UInt8} {ack : Option ℕ}
    (hpostpones : d.predictor.postpones session ack = true) :
    ¬session <+: drawn.map (·.byte) ++ session.drop (min (d.predictor.echoed session) drawn.length) := by
  have hfront := skipped howed session
  obtain ⟨hsplit, hdrawn, hundrawn, -⟩ := howed.drop (d.predictor.echoed session)
  unfold Predictor.postpones at hpostpones
  split at hpostpones
  · rename_i key owed actual rest howed' hrest
    have hkey : key.drawn = true := (Bool.and_eq_true_iff.mp hpostpones).1
    rw [howed'] at hsplit
    cases hleft : drawn.drop (d.predictor.echoed session) with
    | nil =>
      rw [hleft, List.nil_append] at hsplit
      have := hundrawn key (hsplit ▸ List.mem_cons_self)
      exact absurd (hkey.symm.trans this) Bool.noConfusion
    | cons first left =>
      rw [hleft] at hsplit
      obtain rfl := (List.cons.inj hsplit).1
      have hlt : d.predictor.echoed session ≤ drawn.length := by
        by_contra hgt
        rw [List.drop_of_length_le (by omega)] at hleft
        exact List.cons_ne_nil _ _ hleft.symm
      rw [min_eq_left hlt] at hfront ⊢
      have hmap : drawn.map (·.byte) = session.take (d.predictor.echoed session) ++ key.byte :: left.map (·.byte) := by
        rw [← hfront, ← List.map_cons, ← hleft, List.map_drop, List.take_append_drop]
      rw [hmap, hrest, List.append_assoc]
      intro hfront
      nth_rewrite 1 [← List.take_append_drop (d.predictor.echoed session) session] at hfront
      rw [List.prefix_append_right_inj, hrest] at hfront
      exact Predictor.echoed_stop howed' hrest (List.cons_prefix_cons.mp hfront).1.symm
  · exact absurd hpostpones Bool.false_ne_true

end

theorem Lined.absorb (hw : w.PrintsAscii) (h : Lined d drawn undrawn) {session : List UInt8}
    (hsession : session.all isPrintable) (cue : InputCue) (ack : Option ℕ) :
    ∃ drawn' undrawn', Lined (d.step w (.absorb session cue ack)) drawn' undrawn' ∧
      Carries d (d.step w (.absorb session cue ack)) drawn drawn' (d.predictor.postpones session ack) := by
  obtain ⟨hskip, hcases⟩ := h.owed.absorb hw hsession cue ack
  have hfront := skipped h.owed session
  have hecho := d.predictor.echoed_le session
  have hlength := h.length
  have hplain : ∀ skip, ∀ byte ∈ session.drop skip, byte ≠ 0x08 := fun skip byte hbyte =>
    not_backspace (List.all_eq_true.mp hsession byte (List.mem_of_mem_drop hbyte))
  rcases hcases with ⟨hrepair, howed, hall⟩ | ⟨hpostpones, howed, hrepair⟩
  · -- what is drawn stays, and the output is written behind it
    have hbefore : (d.step w (.absorb session cue ack)).line =
        d.line.write (session.drop (min (d.predictor.echoed session) drawn.length)) := by
      simp only [step, hrepair, hskip]
    have howed' := howed ▸ h.owed.drop (d.predictor.echoed session)
    refine ⟨_, _, ⟨howed', ?_, ?_⟩, List.prefix_append _ _, ?_, ?_, ?_⟩
    · rw [hbefore, d.line.write_plain (hplain _)]
      simp only [step, List.length_append, List.length_drop]
      omega
    · rw [hbefore]
      exact h.blanked.write_plain (hplain _)
    · rw [hbefore, d.line.write_plain (hplain _), List.take_append_of_le_length (by omega)]
    · intro hagrees hpostpones
      rw [hbefore, d.line.write_plain (hplain _), hagrees]
      change _ = d.output ++ session ++ _
      rw [List.append_assoc, echo_carried h.owed (hall hpostpones), List.append_assoc]
    · intro hagrees hpostpones
      rw [hbefore, d.line.write_plain (hplain _), hagrees]
      intro htake
      have hfront : d.output ++ session <+: d.output ++ drawn.map (·.byte) ++
          session.drop (min (d.predictor.echoed session) drawn.length) := by
        exact List.prefix_iff_eq_take.mpr htake.symm
      rw [List.append_assoc, List.prefix_append_right_inj] at hfront
      exact echo_departs h.owed hpostpones hfront
  · -- the cells behind the echo are taken back first
    have hbefore : (d.step w (.absorb session cue ack)).line.before = d.line.before.take
        (d.output.length + min (d.predictor.echoed session) drawn.length) ++
          session.drop (min (d.predictor.echoed session) drawn.length) ∧
        (d.step w (.absorb session cue ack)).line.Blanked := by
      simp only [step, hrepair, hskip]
      by_cases hle : drawn.length ≤ d.predictor.echoed session
      · simp only [if_pos (List.drop_eq_nil_iff.mpr hle), min_eq_right hle]
        rw [← hlength, List.take_length, d.line.write_plain (hplain _)]
        exact ⟨rfl, d.line.write_plain (hplain _) ▸ h.blanked.write_plain (hplain _)⟩
      · have hundo : (drawn.drop (d.predictor.echoed session)).length ≤ d.line.before.length := by
          rw [List.length_drop]
          omega
        simp only [if_neg (hle ∘ List.drop_eq_nil_iff.mp), min_eq_left (Nat.le_of_not_le hle)]
        refine ⟨?_, (h.blanked.write_undo hundo).write_plain (hplain _)⟩
        have hkept : d.line.before.length - (drawn.drop (d.predictor.echoed session)).length =
            d.output.length + d.predictor.echoed session := by
          rw [List.length_drop]
          omega
        rw [EchoLine.write_plain _ (hplain _), d.line.write_undo hundo, hkept]
    refine ⟨[], [], ⟨⟨howed, nofun, nofun, ?_⟩, ?_, hbefore.2⟩, List.prefix_append _ _, ?_, ?_, ?_⟩
    · rw [show (d.step w (.absorb session cue ack)).predictor.outstanding = [] from howed]
      exact nofun
    · rw [hbefore.1]
      simp only [step, List.length_append, List.length_take, List.length_drop, List.length_nil]
      omega
    · rw [hbefore.1, List.take_append_of_le_length (by simp; omega), List.take_take, min_eq_left (Nat.le_add_right _ _)]
    · intro hagrees _
      rw [hbefore.1, hagrees, List.take_length_add_append, hfront]
      simp [step]
    · rw [hpostpones]
      exact fun _ h => absurd h Bool.false_ne_true

theorem Lined.step (hw : w.PrintsAscii) (h : Lined d drawn undrawn) {call : Call} (hplain : call.isPlain)
    (hasked : (d.step w call).asked = false) :
    ∃ drawn' undrawn', Lined (d.step w call) drawn' undrawn' ∧
      Carries d (d.step w call) drawn drawn' (call.postpones d.predictor) := by
  cases call with
  | predict typed sentAs since => exact h.predict hplain sentAs since
  | absorb session cue ack => exact h.absorb hw hplain cue ack
  | acknowledged highest => exact ⟨drawn, undrawn, { h with }, .stay rfl rfl rfl⟩
  | echoAck ack =>
    simp only [EchoDisplay.step, Bool.or_eq_false_iff] at hasked
    rcases d.predictor.echoAck_cases w ack with hstays | hends
    · refine ⟨drawn, undrawn, ⟨?_, h.length, h.blanked⟩, .stay rfl rfl rfl⟩
      simp only [EchoDisplay.step, hstays]
      exact h.owed
    · -- a run that ends here without a repaint has nothing drawn
      rw [hends] at hasked
      have hnone : d.predictor.drawnBytes = [] := by
        by_contra hne
        simp [Predictor.planRepair, List.isEmpty_iff, hne] at hasked
      obtain rfl : drawn = [] := by
        rwa [Predictor.drawnBytes, h.owed.takeWhile, List.map_eq_nil_iff] at hnone
      refine ⟨[], [], ⟨?_, h.length, h.blanked⟩, .stay rfl rfl rfl⟩
      simp only [EchoDisplay.step, hends]
      exact ⟨rfl, nofun, nofun, nofun⟩
  | invalidate => exact absurd hplain Bool.false_ne_true
  | resized => exact absurd hplain Bool.false_ne_true
  | observedRtt srtt => exact absurd hplain Bool.false_ne_true

variable (w) (mode : Prediction)

def PostponedBy (before : List Call) (call : Call) : Prop := call.postpones (after w mode before).predictor = true

variable {mode} {calls : List Call}

theorem after_concat (call : Call) : after w mode (calls ++ [call]) = (after w mode calls).step w call := by
  simp [after]

variable {w}

theorem asked_of_step {call : Call} (h : (d.step w call).asked = false) : d.asked = false := by
  cases call with
  | absorb => exact (Bool.or_eq_false_iff.mp h).1
  | echoAck => exact (Bool.or_eq_false_iff.mp h).1
  | _ => exact h

/-- While no repaint is asked for the row is the output and what is drawn, or departs
from the output for good. -/
theorem lined_after (hw : w.PrintsAscii) (hplain : ∀ call ∈ calls, call.isPlain)
    (hasked : (after w mode calls).asked = false) :
    ∃ drawn undrawn, Lined (after w mode calls) drawn undrawn ∧
      (¬Earlier (PostponedBy w mode) calls →
        (after w mode calls).line.before = (after w mode calls).output ++ drawn.map (·.byte)) ∧
      (Earlier (PostponedBy w mode) calls →
        (after w mode calls).line.before.take (after w mode calls).output.length ≠ (after w mode calls).output) := by
  induction calls using List.reverseRecOn with
  | nil =>
    refine ⟨[], [], ⟨⟨rfl, nofun, nofun, nofun⟩, rfl, nofun⟩, fun _ => rfl, fun h => absurd h not_earlier_nil⟩
  | append_singleton calls call ih =>
    rw [after_concat] at hasked ⊢
    obtain ⟨drawn, undrawn, hlined, hagrees, hdeparts⟩ :=
      ih (fun call hcall => hplain call (List.mem_append_left _ hcall)) (asked_of_step hasked)
    obtain ⟨drawn', undrawn', hlined', hcarries⟩ := hlined.step hw (hplain call (by simp)) hasked
    rw [earlier_concat]
    refine ⟨drawn', undrawn', hlined', fun hnot => ?_, fun hearlier heq => ?_⟩
    · rw [not_or] at hnot
      exact hcarries.agrees (hagrees hnot.1) (Bool.eq_false_iff.mpr hnot.2)
    · by_cases hbefore : Earlier (PostponedBy w mode) calls
      · -- the cells of the earlier output are where they were
        refine hdeparts hbefore ?_
        have hfront := hcarries.output.trans (List.prefix_iff_eq_take.mpr heq.symm)
        rw [← hcarries.settled]
        exact (List.prefix_iff_eq_take.mp hfront).symm
      · exact hcarries.departs (hagrees hbefore) (hearlier.resolve_left hbefore) heq

/-- Once settled the row is what the session sent exactly when no output departed from
the echo at a drawn prediction that the application had not seen. -/
theorem line_settles_iff (hw : w.PrintsAscii) (mode : Prediction) (calls : List Call)
    (hplain : ∀ call ∈ calls, call.isPlain) (hsettled : (after w mode calls).predictor.outstanding = [])
    (hasked : (after w mode calls).asked = false) :
    (after w mode calls).line.before = (after w mode calls).output ∧ (after w mode calls).line.Blanked ↔
      ¬Earlier (PostponedBy w mode) calls := by
  obtain ⟨drawn, undrawn, hlined, hagrees, hdeparts⟩ := lined_after hw hplain hasked
  have hnil : drawn = [] := (List.append_eq_nil_iff.mp (hlined.owed.split.symm.trans hsettled)).1
  constructor
  · rintro ⟨heq, -⟩ hearlier
    exact hdeparts hearlier (by rw [heq, List.take_length])
  · intro hnot
    refine ⟨?_, hlined.blanked⟩
    rw [hagrees hnot, hnil, List.map_nil, List.append_nil]

/-- A prompt, a keystroke echoed, and a second one drawn. -/
def typedAhead : List Call :=
  [.absorb [0x24, 0x20] (.echoing 400) none, .predict [0x68] (some 1) .continuous, .acknowledged 1,
    .absorb [0x68] (.echoing 400) (some 1), .predict [0x61] (some 2) .continuous]

theorem line_settles_typedAhead :
    let d := after asciiColumns .always (typedAhead ++ [.absorb [0x61] (.echoing 400) (some 1)])
    d.line.before = d.output ∧
      ¬Earlier (PostponedBy asciiColumns .always) (typedAhead ++ [.absorb [0x61] (.echoing 400) (some 1)]) := by
  have hline : (after asciiColumns .always (typedAhead ++ [.absorb [0x61] (.echoing 400) (some 1)])).line.before =
      (after asciiColumns .always (typedAhead ++ [.absorb [0x61] (.echoing 400) (some 1)])).output := by decide +kernel
  exact ⟨hline, (line_settles_iff asciiColumns_printsAscii .always _ (by decide) (by decide +kernel)
    (by decide +kernel)).mp ⟨hline, nofun⟩⟩

/-- Output the application wrote before it saw the keystroke lands behind its cell. -/
theorem line_departs_typedAhead :
    let calls := typedAhead ++ [.absorb [0x58] (.echoing 400) (some 1), .absorb [0x61] (.echoing 400) (some 1)]
    let d := after asciiColumns .always calls
    (∀ call ∈ calls, call.isPlain) ∧ d.predictor.outstanding = [] ∧ d.asked = false ∧
      d.line.before = [0x24, 0x20, 0x68, 0x61, 0x58] ∧ d.output = [0x24, 0x20, 0x68, 0x58, 0x61] := by
  decide +kernel

end EchoDisplay

end Braid.Client
