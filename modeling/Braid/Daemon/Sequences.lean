import Braid.Daemon.Query
import Mathlib.Data.List.Induction

/-! What the query filter is for, a byte at a time and of the whole stream: the
stream is delimited into stretches, each with the positions at which a reply
belongs to it, and the client is to have every stretch but those replied to. No
stretch is held, no chunk is known, and nothing is bounded. -/

namespace Braid.Daemon

/-- A byte of ordinary text or one escape sequence. A reply at a position from
`start` to `stop` is a reply to it: ordinary text has none. -/
structure Stretch where
  bytes : List UInt8
  start : ℕ
  stop : ℕ
  /-- A string that ends before an ESC which opens the next sequence. -/
  broken : Bool
  deriving DecidableEq

/-- Whether the emulator replied during the stretch. -/
def Stretch.answered (reply : ℕ → Bool) (x : Stretch) : Bool := (List.range' x.start (x.stop - x.start)).any reply

/-- A stream delimited up to the position `count`: `current` are the bytes of the
sequence still open, and replies from `since` on belong to it. -/
structure Delimiter where
  done : List Stretch
  scan : Scan
  current : List UInt8
  since : ℕ
  count : ℕ
  deriving DecidableEq

namespace Delimiter

def new : Delimiter := ⟨[], .ground, [], 0, 0⟩

variable (d : Delimiter)

def extend (b : UInt8) : Delimiter := { d with current := d.current ++ [b], count := d.count + 1 }

def close : Delimiter :=
  { d with done := d.done ++ [⟨d.current, d.since, d.count, false⟩], scan := .ground, current := [], since := d.count }

/-- The string ended before the ESC read last, though a reply at that ESC is a
reply to the string. -/
def breakOff : Delimiter :=
  { d with done := d.done ++ [⟨d.current.dropLast, d.since, d.count, true⟩], scan := .escape, current := [ESC],
           since := d.count }

def readGround (b : UInt8) : Delimiter :=
  if b = ENQ then (d.extend b).close
  else if b = ESC then { d.extend b with scan := .escape }
  else { d with done := d.done ++ [⟨[b], d.count, d.count, false⟩], since := d.count + 1, count := d.count + 1 }

def readEscape (b : UInt8) : Delimiter :=
  if b = ESC then { d.close.extend b with scan := .escape }
  else if b = 0x5b then { d.extend b with scan := .csi }
  else if QueryFilter.opensString b then { d.extend b with scan := .string }
  else (d.extend b).close

def read (b : UInt8) : Delimiter :=
  match d.scan with
  | .ground => d.readGround b
  | .escape => d.readEscape b
  | .csi => if 0x40 ≤ b ∧ b ≤ 0x7e then (d.extend b).close else d.extend b
  | .string =>
    if b = ESC then { d.extend b with scan := .stringEscape }
    else if b ≤ 0x1f then (d.extend b).close
    else d.extend b
  | .stringEscape => if b = 0x5c then (d.extend b).close else d.breakOff.readEscape b

end Delimiter

/-- The stream as the scanner delimits it. -/
def delimit (stream : List UInt8) : Delimiter := stream.foldl Delimiter.read .new

/-- What the client is to have: the stream without the sequences replied to. -/
def spared (reply : ℕ → Bool) (stream : List UInt8) : List UInt8 :=
  (delimit stream).done.flatMap (fun x => if x.answered reply then [] else x.bytes) ++ (delimit stream).current

/-! ### Delimiting -/

variable {d : Delimiter} {reply : ℕ → Bool} {stream : List UInt8}

theorem Stretch.answered_iff {x : Stretch} :
    x.answered reply = true ↔ ∃ i, x.start ≤ i ∧ i < x.stop ∧ reply i = true := by
  simp only [Stretch.answered, List.any_eq_true, List.mem_range'_1]
  exact exists_congr fun i => ⟨fun h => ⟨h.1.1, by omega, h.2⟩, fun h => ⟨⟨h.1, by omega⟩, h.2.2⟩⟩

theorem delimit_append (p q : List UInt8) : delimit (p ++ q) = q.foldl Delimiter.read (delimit p) :=
  List.foldl_append

theorem delimit_concat (p : List UInt8) (b : UInt8) : delimit (p ++ [b]) = (delimit p).read b := by
  rw [delimit_append, List.foldl_cons, List.foldl_nil]

namespace Delimiter

/-- What every delimited stream has. -/
structure Sane (d : Delimiter) (stream : List UInt8) : Prop where
  count : d.count = stream.length
  since_le : d.since ≤ d.count
  whole : d.done.flatMap Stretch.bytes ++ d.current = stream
  ground : d.scan = .ground → d.current = [] ∧ d.since = d.count
  escaped : d.scan = .stringEscape → ∃ body, d.current = body ++ [ESC]

section

variable (h : Sane d stream)

include h

theorem Sane.extend (b : UInt8) {scan : Scan} (hground : scan ≠ .ground)
    (hescaped : scan = .stringEscape → b = ESC) : Sane { d.extend b with scan := scan } (stream ++ [b]) where
  count := by
    rw [List.length_append, ← h.count]
    rfl
  since_le := Nat.le_succ_of_le h.since_le
  whole := by
    dsimp only [Delimiter.extend]
    rw [← List.append_assoc, h.whole]
  ground hscan := absurd hscan hground
  escaped hscan := ⟨d.current, by rw [← hescaped hscan]; rfl⟩

theorem Sane.close : Sane d.close stream where
  count := h.count
  since_le := le_rfl
  whole := by
    dsimp only [Delimiter.close]
    rw [List.flatMap_append, List.flatMap_singleton, List.append_nil, h.whole]
  ground _ := ⟨rfl, rfl⟩
  escaped := nofun

theorem Sane.breakOff (hscan : d.scan = .stringEscape) : Sane d.breakOff stream where
  count := h.count
  since_le := le_rfl
  whole := by
    obtain ⟨body, hbody⟩ := h.escaped hscan
    rw [← h.whole]
    simp [Delimiter.breakOff, hbody]
  ground := nofun
  escaped := nofun

theorem Sane.extend_close (b : UInt8) : Sane (d.extend b).close (stream ++ [b]) :=
  @Sane.close { d.extend b with scan := .csi } _ (h.extend b nofun nofun)

theorem Sane.readGround (hscan : d.scan = .ground) (b : UInt8) :
    Sane (d.readGround b) (stream ++ [b]) := by
  unfold Delimiter.readGround
  split_ifs with henq hesc
  · exact h.extend_close b
  · exact h.extend b nofun nofun
  · obtain ⟨hcurrent, -⟩ := h.ground hscan
    refine ⟨?_, le_rfl, ?_, fun _ => ⟨hcurrent, rfl⟩, fun hscan' => ?_⟩
    · rw [List.length_append, ← h.count]
      rfl
    · rw [← h.whole]
      simp [hcurrent]
    · rw [hscan] at hscan'
      cases hscan'

theorem Sane.readEscape (b : UInt8) : Sane (d.readEscape b) (stream ++ [b]) := by
  unfold Delimiter.readEscape
  split_ifs
  · exact h.close.extend b nofun nofun
  · exact h.extend b nofun nofun
  · exact h.extend b nofun nofun
  · exact h.extend_close b

theorem Sane.read (b : UInt8) : Sane (d.read b) (stream ++ [b]) := by
  have hextend : ∀ scan, d.scan = scan → scan ≠ .ground → (scan = .stringEscape → b = ESC) →
      Sane (d.extend b) (stream ++ [b]) := by
    rintro scan rfl hground hescaped
    exact h.extend b hground hescaped
  unfold Delimiter.read
  split
  case h_1 hscan => exact h.readGround hscan b
  case h_2 => exact h.readEscape b
  case h_3 hscan =>
    split_ifs
    · exact h.extend_close b
    · exact hextend _ hscan nofun nofun
  case h_4 hscan =>
    split_ifs with hesc
    · exact h.extend b nofun fun _ => hesc
    · exact h.extend_close b
    · exact hextend _ hscan nofun nofun
  case h_5 hscan =>
    split_ifs
    · exact h.extend_close b
    · exact (h.breakOff hscan).readEscape b

end

end Delimiter

theorem sane_delimit (stream : List UInt8) : (delimit stream).Sane stream := by
  induction stream using List.reverseRecOn with
  | nil => exact ⟨rfl, le_rfl, rfl, fun _ => ⟨rfl, rfl⟩, nofun⟩
  | append_singleton stream b ih =>
    rw [delimit_concat]
    exact ih.read b

end Braid.Daemon
