import Braid.Foundation.Lanes
import Mathlib.Data.List.Basic

/-! The query filter: the session's output goes to the emulator and, but for the
sequences the emulator answered, on to the client. The filter scans for where
sequences end, holds the bytes of an open one back, and hands the emulator one
span per sequence so that a reply can be told whose it was. The output of a chunk
is a prefix of the chunk for as long as nothing was cut, and built in the
caller's buffer from then on. -/

namespace Braid.Daemon

open Foundation

inductive Answer where
  | silent
  | replied
  deriving DecidableEq

/-- The emulator, as the filter drives it: a state that consuming bytes changes. -/
structure Emulator (σ ε : Type*) where
  consume : σ → List UInt8 → Except ε (Answer × σ)

inductive Scan where
  | ground
  | escape
  | csi
  | string
  | stringEscape
  deriving DecidableEq

inductive Mark where
  | consumed
  | boundary
  | openerHere
  | openerHeld
  deriving DecidableEq

/-- How many bytes of one sequence the filter holds. -/
def scanLimit : ℕ := 4096

def ESC : UInt8 := 0x1b

def ENQ : UInt8 := 0x05

def opens (byte : UInt8) : Bool := byte = ESC ∨ byte = ENQ

/-! ### Finding an opener -/

/-- One byte in each of a word's eight lanes. -/
def splat (byte : ℕ) : ℕ := ofLanes (List.replicate 8 byte)

/-- One taken from every lane, wrapping, less the bits a lane had already. -/
def lent (value : ℕ) : ℕ := (value + 2 ^ 64 - splat 0x01) % 2 ^ 64 &&& (2 ^ 64 - 1 - value)

/-- Whether the word of these eight bytes shows a lane that is ESC or ENQ. -/
def wordHit (word : List UInt8) : Bool :=
  let value := ofLanes (word.map UInt8.toNat)
  (lent (value ^^^ splat ESC.toNat) ||| lent (value ^^^ splat ENQ.toNat)) &&& splat 0x80 ≠ 0

def findOpenerFrom (offset : ℕ) (bytes : List UInt8) : Option ℕ :=
  if 8 ≤ bytes.length then
    if wordHit (bytes.take 8) then ((bytes.take 8).findIdx? opens).map (offset + ·)
    else findOpenerFrom (offset + 8) (bytes.drop 8)
  else (bytes.findIdx? opens).map (offset + ·)
termination_by bytes.length

/-- Where the next byte that can open a sequence is, if there is one. -/
def findOpener (bytes : List UInt8) : Option ℕ := findOpenerFrom 0 bytes

theorem lent_iff {word : List UInt8} (hlen : word.length = 8) (needle : UInt8) :
    lent (ofLanes (word.map UInt8.toNat) ^^^ splat needle.toNat) &&& splat 0x80 ≠ 0 ↔ needle ∈ word := by
  have hbytes : ∀ x ∈ word.map UInt8.toNat, x < 256 := by
    intro x hx
    obtain ⟨b, -, rfl⟩ := List.mem_map.mp hx
    exact b.toNat_lt
  have hlanes : ∀ x ∈ (word.map UInt8.toNat).map (· ^^^ needle.toNat), x < 256 := by
    intro x hx
    obtain ⟨y, hy, rfl⟩ := List.mem_map.mp hx
    exact Nat.xor_lt_two_pow (n := 8) (hbytes y hy) needle.toNat_lt
  have hxor := Lanes.xor_replicate hbytes needle.toNat_lt
  rw [List.length_map, hlen] at hxor
  have hfound := Lanes.borrows_ne_zero_iff hlanes
  rw [Lanes.borrows, List.length_map, List.length_map, hlen, show 256 ^ 8 = 2 ^ 64 from rfl, ← hxor] at hfound
  rw [lent, splat, splat, splat, hfound]
  simp only [List.map_map, List.mem_map, Function.comp_apply, Nat.xor_eq_zero_iff, UInt8.toNat_inj, exists_eq_right]

/-- The word's test is exact, so the search inside a word that shows one finds it. -/
theorem wordHit_iff {word : List UInt8} (hlen : word.length = 8) : wordHit word = true ↔ ∃ b ∈ word, opens b = true := by
  have hescapes := lent_iff hlen ESC
  have henquiries := lent_iff hlen ENQ
  simp only [wordHit, Nat.and_or_distrib_right, decide_eq_true_eq, ne_eq, Nat.or_eq_zero_iff, not_and_or] at *
  rw [hescapes, henquiries]
  simp only [opens, decide_eq_true_eq]
  exact ⟨fun h => h.elim (⟨_, ·, .inl rfl⟩) (⟨_, ·, .inr rfl⟩), by rintro ⟨b, hb, rfl | rfl⟩ <;> simp [hb]⟩

theorem findOpenerFrom_eq (offset : ℕ) (bytes : List UInt8) :
    findOpenerFrom offset bytes = (bytes.findIdx? opens).map (offset + ·) := by
  induction offset, bytes using findOpenerFrom.induct with
  | case1 offset bytes hlen hhit =>
    obtain ⟨b, hb, hopens⟩ := (wordHit_iff (by simp [hlen])).mp hhit
    have hsome : ((bytes.take 8).findIdx? opens).isSome = true := by
      rw [List.findIdx?_isSome, List.any_eq_true]
      exact ⟨b, hb, hopens⟩
    obtain ⟨at_, hat⟩ := Option.isSome_iff_exists.mp hsome
    rw [findOpenerFrom, if_pos hlen, if_pos hhit]
    conv_rhs => rw [← List.take_append_drop 8 bytes, List.findIdx?_append, hat, Option.some_or, ← hat]
  | case2 offset bytes hlen hhit ih =>
    have hnone : (bytes.take 8).findIdx? opens = none := by
      rw [List.findIdx?_eq_none_iff]
      intro b hb
      exact Bool.eq_false_iff.mpr fun hopens => hhit ((wordHit_iff (by simp [hlen])).mpr ⟨b, hb, hopens⟩)
    rw [findOpenerFrom, if_pos hlen, if_neg hhit, ih]
    conv_rhs => rw [← List.take_append_drop 8 bytes, List.findIdx?_append, hnone, Option.none_or, Option.map_map]
    congr 1
    funext at_
    simp only [Function.comp_apply, List.length_take, Nat.min_eq_left hlen]
    omega
  | case3 offset bytes hlen => rw [findOpenerFrom, if_neg hlen]

/-- The search a word at a time is the search a byte at a time. -/
theorem findOpener_eq (bytes : List UInt8) : findOpener bytes = bytes.findIdx? opens := by
  rw [findOpener, findOpenerFrom_eq]
  simp

/-- It finds the first byte that opens a sequence, and nothing just if there is none. -/
theorem findOpener_first (bytes : List UInt8) :
    (∀ i, findOpener bytes = some i ↔ (∃ b, bytes[i]? = some b ∧ opens b = true) ∧
      ∀ j < i, ∀ b, bytes[j]? = some b → opens b = false) ∧
    (findOpener bytes = none ↔ ∀ b ∈ bytes, opens b = false) := by
  rw [findOpener_eq]
  refine ⟨fun i => ?_, List.findIdx?_eq_none_iff⟩
  rw [List.findIdx?_eq_some_iff_getElem]
  constructor
  · rintro ⟨hi, hopens, hbefore⟩
    refine ⟨⟨_, List.getElem?_eq_getElem hi, hopens⟩, fun j hj b hb => ?_⟩
    obtain ⟨hlt, rfl⟩ := List.getElem?_eq_some_iff.mp hb
    exact Bool.eq_false_iff.mpr (hbefore j hj)
  · rintro ⟨⟨b, hb, hopens⟩, hbefore⟩
    obtain ⟨hi, rfl⟩ := List.getElem?_eq_some_iff.mp hb
    exact ⟨hi, hopens, fun j hj => Bool.eq_false_iff.mp (hbefore j hj _ (List.getElem?_eq_getElem _))⟩

/-! ### The output of a chunk -/

structure Out where
  chunk : List UInt8
  buffer : List UInt8
  /-- Leading bytes of the chunk that are the output, while it is still one. -/
  kept : ℕ
  copying : Bool

namespace Out

def borrowed (chunk buffer : List UInt8) (kept : ℕ) : Out := ⟨chunk, buffer, kept, false⟩

def copied (chunk : List UInt8) : Out := ⟨chunk, [], 0, true⟩

def diverge (out : Out) : Out :=
  if out.copying then out else { out with buffer := out.chunk.take out.kept, copying := true }

def run (out : Out) (start stop : ℕ) : Out :=
  if out.copying then { out with buffer := out.buffer ++ (out.chunk.take stop).drop start }
  else { out with kept := stop }

def byte (out : Out) (b : UInt8) : Out :=
  if out.copying then { out with buffer := out.buffer ++ [b] } else { out with kept := out.kept + 1 }

def unwrite (out : Out) : Out :=
  if out.copying then { out with buffer := out.buffer.dropLast } else { out with kept := out.kept - 1 }

/-- A held sequence passing through unchanged; nothing of it stays held. -/
def pass (out : Out) (held : List UInt8) : Out :=
  if out.copying then { out with buffer := out.buffer ++ held } else { out with kept := out.kept + held.length }

def finish (out : Out) : List UInt8 := if out.copying then out.buffer else out.chunk.take out.kept

end Out

/-! ### The filter -/

structure QueryFilter where
  scan : Scan
  /-- The bytes of the sequence read so far. -/
  pending : List UInt8
  /-- The sequence reached the limit; its bytes go straight to the output. -/
  overrun : Bool
  /-- The emulator answered bytes of the sequence in an earlier chunk. -/
  answered : Bool
  deriving DecidableEq

namespace QueryFilter

def new : QueryFilter := ⟨.ground, [], false, false⟩

def begin (f : QueryFilter) (byte : UInt8) : QueryFilter :=
  { f with pending := [byte], overrun := false, answered := false }

def opened (f : QueryFilter) : QueryFilter := { f.begin ESC with scan := .escape }

def hold (f : QueryFilter) (byte : UInt8) (out : Out) : QueryFilter × Out :=
  if f.overrun = false ∧ f.pending.length < scanLimit then ({ f with pending := f.pending ++ [byte] }, out)
  else if f.overrun = false then ({ f with overrun := true, pending := [] }, (out.pass f.pending).byte byte)
  else (f, out.byte byte)

def unhold (f : QueryFilter) (out : Out) : QueryFilter × Out :=
  if f.overrun then (f, out.unwrite) else ({ f with pending := f.pending.dropLast }, out)

/-- Whether a byte after ESC opens a control string: OSC, DCS, SOS, PM or APC. -/
def opensString (byte : UInt8) : Bool :=
  byte = 0x5d ∨ byte = 0x50 ∨ byte = 0x58 ∨ byte = 0x5e ∨ byte = 0x5f

def step (f : QueryFilter) (byte : UInt8) (out : Out) : QueryFilter × Out × Mark :=
  match f.scan with
  | .ground =>
    if byte = ENQ then (f.begin byte, out, .boundary)
    else if byte = ESC then (f.opened, out, .consumed)
    else (f, out.byte byte, .consumed)
  | .escape =>
    if byte = ESC then (f, out, .openerHere)
    else
      let (f, out) := f.hold byte out
      if byte = 0x5b then ({ f with scan := .csi }, out, .consumed)
      else if opensString byte then ({ f with scan := .string }, out, .consumed)
      else (f, out, .boundary)
  | .csi =>
    let (f, out) := f.hold byte out
    if 0x40 ≤ byte ∧ byte ≤ 0x7e then (f, out, .boundary) else (f, out, .consumed)
  | .string =>
    let (f, out) := f.hold byte out
    if byte = ESC then ({ f with scan := .stringEscape }, out, .consumed)
    else if byte ≤ 0x1f then (f, out, .boundary)
    else (f, out, .consumed)
  | .stringEscape =>
    if byte = 0x5c then
      let (f, out) := f.hold byte out
      (f, out, .boundary)
    else (f, out, .openerHeld)

variable {σ ε : Type*}

/-- Drop the held sequence if it was answered, pass it through otherwise. -/
def decided (f : QueryFilter) (answered : Bool) (out : Out) : Out :=
  if answered then if f.pending = [] then out else out.diverge else out.pass f.pending

def settle (f : QueryFilter) (span : List UInt8) (out : Out) (E : Emulator σ ε) (s : σ) :
    Except ε (QueryFilter × Out × σ) :=
  (E.consume s span).map fun (answer, s) =>
    ({ f with scan := .ground, pending := [], overrun := false, answered := false },
      f.decided (answer = .replied || f.answered) out, s)

def slice (chunk : List UInt8) (start stop : ℕ) : List UInt8 := (chunk.take stop).drop start

/-- Where the loop over a chunk stands: the emulator was given the chunk up to
`unfed`. -/
structure Walk (σ : Type*) where
  filter : QueryFilter
  out : Out
  emulator : σ
  index : ℕ
  unfed : ℕ

/-- The body of the loop past the ordinary text, at a byte to be stepped. -/
def place (bytes : List UInt8) (E : Emulator σ ε) (w : Walk σ) : Except ε (Walk σ) :=
  match w.filter.step (bytes.getD w.index 0) w.out with
  | (f, out, .consumed) => .ok { w with filter := f, out := out, index := w.index + 1 }
  | (f, out, .boundary) => (f.settle (slice bytes w.unfed (w.index + 1)) out E w.emulator).map fun (f, out, s) =>
      ⟨f, out, s, w.index + 1, w.index + 1⟩
  | (f, out, .openerHere) => (f.settle (slice bytes w.unfed w.index) out E w.emulator).map fun (f, out, s) =>
      ⟨f.opened, out, s, w.index + 1, w.index⟩
  | (f, out, .openerHeld) =>
    let (f, out) := f.unhold out
    (f.settle (slice bytes w.unfed w.index) out E w.emulator).map fun (f, out, s) =>
      ⟨f.opened, out, s, w.index, w.index⟩

def turn (bytes : List UInt8) (E : Emulator σ ε) (w : Walk σ) : Except ε (Walk σ) :=
  if w.filter.scan = .ground then
    match findOpener (bytes.drop w.index) with
    | none => .ok { w with out := w.out.run w.index bytes.length, index := bytes.length }
    | some opener =>
      place bytes E { w with out := w.out.run w.index (w.index + opener), index := w.index + opener }
  else place bytes E w

/-- What the turns use up: the bytes of the chunk, each twice where a string is
broken off. -/
def Walk.left (bytes : List UInt8) (w : Walk σ) : ℕ :=
  2 * (bytes.length - w.index) + if w.filter.scan = .stringEscape then 1 else 0

theorem scan_of_openerHeld {f f' : QueryFilter} {byte : UInt8} {out out' : Out}
    (h : f.step byte out = (f', out', .openerHeld)) : f.scan = .stringEscape := by
  unfold step at h
  split at h <;> split_ifs at h <;> simp_all

theorem exists_of_map_ok {α β : Type*} {f : α → β} {x : Except ε α} {b : β} (h : x.map f = .ok b) :
    ∃ a, x = .ok a ∧ f a = b := by
  cases x with
  | error e => cases h
  | ok a => exact ⟨a, rfl, Except.ok.inj h⟩

theorem error_of_map_error {α β : Type*} {f : α → β} {x : Except ε α} {e : ε} (h : x.map f = .error e) :
    x = .error e := by
  cases x with
  | error e' => exact congrArg _ (Except.error.inj h)
  | ok a => cases h

theorem place_left {bytes : List UInt8} {E : Emulator σ ε} {w w' : Walk σ} (hindex : w.index < bytes.length)
    (h : place bytes E w = .ok w') : w'.left bytes < w.left bytes := by
  have hnext : ∀ w' : Walk σ, w'.index = w.index + 1 → w'.left bytes < w.left bytes := by
    intro w' hw'
    rw [Walk.left, Walk.left, hw']
    split_ifs <;> omega
  rw [place] at h
  split at h
  · obtain rfl := Except.ok.inj h
    exact hnext _ rfl
  · obtain ⟨⟨f, out, s⟩, -, rfl⟩ := exists_of_map_ok h
    exact hnext _ rfl
  · obtain ⟨⟨f, out, s⟩, -, rfl⟩ := exists_of_map_ok h
    exact hnext _ rfl
  · -- The byte is not used up, but what opens at the ESC before it is no string.
    rename_i hstep
    obtain ⟨⟨f, out, s⟩, -, rfl⟩ := exists_of_map_ok h
    rw [Walk.left, Walk.left, scan_of_openerHeld hstep]
    simp [opened]

theorem turn_left {bytes : List UInt8} {E : Emulator σ ε} {w w' : Walk σ} (hindex : w.index < bytes.length)
    (h : turn bytes E w = .ok w') : w'.left bytes < w.left bytes := by
  unfold turn at h
  split_ifs at h with hground
  · split at h
    · obtain rfl := Except.ok.inj h
      simp only [Walk.left, hground]
      omega
    · rename_i opener hopener
      rw [findOpener_eq] at hopener
      have hlt := (List.findIdx?_eq_some_iff_getElem.mp hopener).1
      rw [List.length_drop] at hlt
      refine (place_left (by dsimp only; omega) h).trans_le ?_
      simp only [Walk.left]
      omega
  · exact place_left hindex h

def loop (bytes : List UInt8) (E : Emulator σ ε) (w : Walk σ) : Except ε (Walk σ) :=
  if _hindex : w.index < bytes.length then
    match _hturn : turn bytes E w with
    | .error e => .error e
    | .ok w' => loop bytes E w'
  else .ok w
termination_by w.left bytes
decreasing_by exact turn_left ‹_› ‹_›

theorem loop_eq (bytes : List UInt8) (E : Emulator σ ε) (w : Walk σ) :
    loop bytes E w = if w.index < bytes.length then (turn bytes E w).bind (loop bytes E) else .ok w := by
  rw [loop]
  split_ifs with hindex
  · cases turn bytes E w <;> rfl
  · rfl

/-- The tail of a chunk, whose answer is carried to the next one. -/
def handOver (bytes : List UInt8) (E : Emulator σ ε) (w : Walk σ) : Except ε (QueryFilter × List UInt8 × σ) :=
  if w.unfed < bytes.length then
    (E.consume w.emulator (bytes.drop w.unfed)).map fun (answer, s) =>
      ({ w.filter with answered := w.filter.answered || answer = .replied }, w.out.finish, s)
  else .ok (w.filter, w.out.finish, w.emulator)

/-- Hand `bytes` to the emulator and return what the client is sent; `buffer` is
what the caller's reused buffer holds. -/
def filter (f : QueryFilter) (bytes buffer : List UInt8) (E : Emulator σ ε) (s : σ) :
    Except ε (QueryFilter × List UInt8 × σ) :=
  if f.scan = .ground then
    match findOpener bytes with
    | none => (E.consume s bytes).map fun (_, s) => (f, bytes, s)
    | some opener => (loop bytes E ⟨f, .borrowed bytes buffer opener, s, opener, 0⟩).bind (handOver bytes E)
  else (loop bytes E ⟨f, .copied bytes, s, 0, 0⟩).bind (handOver bytes E)

/-- The chunks of a stream one after another, each with what its buffer holds,
and all that the client is sent. -/
def filterAll (E : Emulator σ ε) : QueryFilter → σ → List (List UInt8 × List UInt8) →
    Except ε (QueryFilter × List UInt8 × σ)
  | f, s, [] => .ok (f, [], s)
  | f, s, (bytes, buffer) :: rest => (f.filter bytes buffer E s).bind fun (f, out, s) =>
      (filterAll E f s rest).map fun (f, outs, s) => (f, out ++ outs, s)

/-! ### Failing -/

section

variable {α β : Type*} {bytes : List UInt8} {E : Emulator σ ε} {P : σ → Prop} {at_ : α → σ} {at' : β → σ}
  {x : Except ε α}

/-- A computation keeps the emulator in states that meet `P`, and fails only where
the emulator fails in one of them. -/
def Safe (E : Emulator σ ε) (P : σ → Prop) (at_ : α → σ) : Except ε α → Prop
  | .error e => ∃ s span, P s ∧ E.consume s span = .error e
  | .ok a => P (at_ a)

theorem Safe.map {f : α → β} (h : Safe E P at_ x) (hf : ∀ a, P (at_ a) → P (at' (f a))) : Safe E P at' (x.map f) := by
  cases x with
  | error e => exact h
  | ok a => exact hf a h

theorem Safe.bind {f : α → Except ε β} (h : Safe E P at_ x) (hf : ∀ a, P (at_ a) → Safe E P at' (f a)) :
    Safe E P at' (x.bind f) := by
  cases x with
  | error e => exact h
  | ok a => exact hf a h

variable (hP : ∀ s span answer s', P s → E.consume s span = .ok (answer, s') → P s')
include hP

theorem safe_consume {s : σ} (hs : P s) (span : List UInt8) : Safe E P Prod.snd (E.consume s span) := by
  cases hok : E.consume s span with
  | error e => exact ⟨s, span, hs, hok⟩
  | ok result => exact hP _ _ _ _ hs hok

theorem safe_settle {f : QueryFilter} {s : σ} (hs : P s) (span : List UInt8) (out : Out) :
    Safe E P (fun r => r.2.2) (f.settle span out E s) :=
  (safe_consume hP hs span).map fun _ h => h

theorem safe_place {w : Walk σ} (hw : P w.emulator) : Safe E P Walk.emulator (place bytes E w) := by
  rw [place]
  split
  · exact hw
  all_goals exact (safe_settle hP hw _ _).map fun _ h => h

theorem safe_turn {w : Walk σ} (hw : P w.emulator) : Safe E P Walk.emulator (turn bytes E w) := by
  unfold turn
  split_ifs
  · split
    · exact hw
    · exact safe_place hP hw
  · exact safe_place hP hw

theorem safe_loop {w : Walk σ} (hw : P w.emulator) : Safe E P Walk.emulator (loop bytes E w) := by
  induction w using loop.induct bytes E with
  | case1 w hindex e hturn =>
    have hsafe : Safe E P Walk.emulator (turn bytes E w) := safe_turn hP hw
    rw [loop_eq, if_pos hindex, hturn]
    rwa [hturn] at hsafe
  | case2 w hindex w' hturn ih =>
    have hsafe : Safe E P Walk.emulator (turn bytes E w) := safe_turn hP hw
    rw [hturn] at hsafe
    rw [loop_eq, if_pos hindex, hturn]
    exact ih hsafe
  | case3 w hindex =>
    rw [loop_eq, if_neg hindex]
    exact hw

theorem safe_filter {f : QueryFilter} {buffer : List UInt8} {s : σ} (hs : P s) :
    Safe E P (fun r => r.2.2) (f.filter bytes buffer E s) := by
  have hfinish : ∀ w : Walk σ, P w.emulator → Safe E P (fun r => r.2.2) (handOver bytes E w) := by
    intro w hw
    unfold handOver
    split_ifs
    · exact (safe_consume hP hw _).map fun _ h => h
    · exact hw
  unfold filter
  split_ifs
  · split
    · exact (safe_consume hP hs _).map fun _ h => h
    · exact (safe_loop hP hs).bind hfinish
  · exact (safe_loop hP hs).bind hfinish

theorem safe_filterAll {f : QueryFilter} {s : σ} (hs : P s) (chunks : List (List UInt8 × List UInt8)) :
    Safe E P (fun r => r.2.2) (filterAll E f s chunks) := by
  induction chunks generalizing f s with
  | nil => exact hs
  | cons chunk rest ih => exact (safe_filter hP hs).bind fun _ h => (ih h).map fun _ h => h

end

end QueryFilter

end Braid.Daemon
