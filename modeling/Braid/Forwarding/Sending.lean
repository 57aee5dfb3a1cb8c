import Braid.Forwarding.Owing

/-! A sender under any peer and any caller. Beside the sender, `Sending` keeps the
bytes it was given, the segments it has handed out, the runs that the last
acknowledgement it took reported held, and whether a segment with the end was ever
transmitted. The calls are also given with their panics: a subtraction below zero
and a slice out of range stop the process. -/

namespace Braid.Forwarding

open Foundation

namespace Sender

variable {s s' : Sender} {S : List UInt8} {off len now budget wrap : ℕ} {segment : Segment} {body : List UInt8}

/-! ### Held runs -/

/-- The held runs follow one another between `base` and `next`. -/
structure Ranged (s : Sender) : Prop where
  sorted : s.held.Pairwise fun a b => a.2 ≤ b.1
  proper : ∀ run ∈ s.held, run.1 ≤ run.2
  inside : ∀ run ∈ s.held, run.2 ≤ s.next ∧ (run.1 < run.2 → s.base < run.1)

theorem absoluteFrom_spec {cursor : ℕ} (hcursor : cursor ≤ u64Max) (runs : List SackRun) :
    (SackRuns.absoluteFrom cursor runs).Pairwise (fun a b => a.2 ≤ b.1) ∧
      ∀ run ∈ SackRuns.absoluteFrom cursor runs, cursor ≤ run.1 ∧ run.1 ≤ run.2 ∧ (run.1 < run.2 → cursor < run.1) := by
  induction runs generalizing cursor with
  | nil => exact ⟨.nil, nofun⟩
  | cons run runs ih =>
    have hgap := run.gap.2.1
    have hstop : min (min (cursor + run.gap.1) u64Max + run.len.1) u64Max ≤ u64Max := min_le_right _ _
    obtain ⟨hsorted, hrest⟩ := ih hstop
    refine ⟨List.pairwise_cons.mpr ⟨fun b hb => (hrest b hb).1, hsorted⟩, List.forall_mem_cons.mpr ⟨?_, fun b hb => ?_⟩⟩
    · dsimp only
      omega
    · obtain ⟨hle, hproper, hlt⟩ := hrest b hb
      exact ⟨by omega, hproper, fun h => lt_of_le_of_lt (by omega) (hlt h)⟩

theorem unheld_not_mem {runs : List (ℕ × ℕ)} (hsorted : runs.Pairwise fun a b => a.2 ≤ b.1)
    (hproper : ∀ run ∈ runs, run.1 ≤ run.2) (off : ℕ) :
    off ≤ runs.foldl (fun off run => if run.1 ≤ off ∧ off < run.2 then run.2 else off) off ∧ ∀ run ∈ runs,
      ¬ (run.1 ≤ runs.foldl (fun off run => if run.1 ≤ off ∧ off < run.2 then run.2 else off) off ∧
        runs.foldl (fun off run => if run.1 ≤ off ∧ off < run.2 then run.2 else off) off < run.2) := by
  induction runs generalizing off with
  | nil => exact ⟨le_rfl, nofun⟩
  | cons run runs ih =>
    obtain ⟨hfirst, hsorted⟩ := List.pairwise_cons.mp hsorted
    obtain ⟨hrun, hproper⟩ := List.forall_mem_cons.mp hproper
    rw [List.foldl_cons]
    obtain ⟨hle, hrest⟩ := ih hsorted hproper (if run.1 ≤ off ∧ off < run.2 then run.2 else off)
    refine ⟨?_, List.forall_mem_cons.mpr ⟨?_, hrest⟩⟩
    · split_ifs at hle ⊢ <;> omega
    · by_cases hbefore : off < run.1
      · -- In front of the first run nothing is stepped over.
        have hpast : ∀ b ∈ runs, ¬ (b.1 ≤ off ∧ off < b.2) := fun b hb => by
          have := hfirst b hb
          omega
        have hstay := foldl_unheld hpast
        rw [if_neg (by omega), hstay]
        omega
      · split_ifs at hle ⊢ <;> omega

theorem nextHeld_le (hsorted : s.held.Pairwise fun a b => a.2 ≤ b.1) (hproper : ∀ run ∈ s.held, run.1 ≤ run.2)
    {run : ℕ × ℕ} (hrun : run ∈ s.held) (hoff : off < run.1) : ∃ start, s.nextHeld off = some start ∧ start ≤ run.1 := by
  unfold nextHeld
  generalize s.held = runs at hsorted hproper hrun
  induction runs with
  | nil => cases hrun
  | cons first runs ih =>
    obtain ⟨hfirst, hsorted⟩ := List.pairwise_cons.mp hsorted
    obtain ⟨hle, hproper⟩ := List.forall_mem_cons.mp hproper
    rw [List.map_cons, List.find?_cons]
    by_cases hlt : off < first.1
    · refine ⟨first.1, by simp [hlt], ?_⟩
      rcases List.mem_cons.mp hrun with rfl | hrun
      · exact le_rfl
      · exact hle.trans (hfirst run hrun)
    · simp only [hlt, decide_false]
      rcases List.mem_cons.mp hrun with rfl | hrun
      · exact absurd hoff hlt
      · exact ih hsorted hproper hrun

/-- A repair lies between held runs. -/
theorem Ranged.repair (h : s.Ranged) {p : ℕ} (hlow : s.unheld s.cursor ≤ p)
    (hhigh : p < (s.nextHeld (s.unheld s.cursor)).getD s.next) {run : ℕ × ℕ} (hrun : run ∈ s.held) :
    ¬ (run.1 ≤ p ∧ p < run.2) := by
  rintro ⟨hstart, hstop⟩
  have hout := (unheld_not_mem h.sorted h.proper s.cursor).2 run hrun
  change ¬ (run.1 ≤ s.unheld s.cursor ∧ s.unheld s.cursor < run.2) at hout
  have hpast : s.unheld s.cursor < run.1 := by omega
  obtain ⟨start, hnext, hle⟩ := nextHeld_le h.sorted h.proper hrun hpast
  rw [hnext, Option.getD_some] at hhigh
  omega

/-! ### What is polled -/

theorem owed_cut {woken : Bool} (ho : owedCut (s.owed woken budget) = some (off, len)) (hbudget : 0 < budget) :
    len ≤ budget ∧
      ((off = s.unheld s.cursor ∧ off + len ≤ s.next ∧ off + len ≤ (s.nextHeld off).getD s.next) ∨
        (off = s.next ∧ off + len ≤ s.base + s.window) ∨ len = 0 ∨ off = s.base ∧ s.next = s.base ∧ len = 1) := by
  cases hrepair : s.repairOwed budget with
  | some repair =>
    rw [owed, hrepair] at ho
    simp only [repairOwed] at hrepair
    split_ifs at hrepair with hcursor hoff
    cases hrepair
    obtain ⟨rfl, rfl⟩ := ho
    refine ⟨min_le_right _ _, .inl ⟨rfl, ?_⟩⟩
    cases hnext : s.nextHeld (s.unheld s.cursor) with
    | none =>
      simp only [Option.getD_none]
      omega
    | some start =>
      have := lt_nextHeld hnext
      simp only [Option.getD_some]
      omega
  | none =>
    rw [owed_of_no_repair hrepair] at ho
    split_ifs at ho with hfresh hend hprobe <;>
      simp only [owedCut, Option.some.injEq, Prod.mk.injEq, reduceCtorEq] at ho <;> obtain ⟨rfl, rfl⟩ := ho
    · exact ⟨min_le_right _ _, .inr (.inl ⟨rfl, by omega⟩)⟩
    · exact ⟨Nat.zero_le _, .inr (.inr (.inl rfl))⟩
    · exact ⟨hbudget, .inr (.inr (.inr ⟨rfl, hprobe.2.1, rfl⟩))⟩

theorem length_cutRing_le (front back : List UInt8) (start len : ℕ) : (cutRing front back start len).length ≤ len := by
  unfold cutRing
  split_ifs <;> rw [List.length_take] <;> omega

theorem fill_cut (hfill : s.fill off len wrap = some (segment, body)) :
    segment.off = off ∧ segment.len = body.length ∧ body.length ≤ len := by
  simp only [Sender.fill] at hfill
  split_ifs at hfill
  obtain ⟨rfl, rfl⟩ := hfill
  exact ⟨rfl, rfl, length_cutRing_le _ _ _ _⟩

theorem wake_frame (s : Sender) (now : ℕ) : (s.wake now).base = s.base ∧ (s.wake now).next = s.next ∧
    (s.wake now).held = s.held ∧ (s.wake now).window = s.window ∧ (s.wake now).buffer = s.buffer ∧
    (s.wake now).fin = s.fin := by
  unfold wake
  split_ifs <;> exact ⟨rfl, rfl, rfl, rfl, rfl, rfl⟩

theorem Ranged.congr (h : s.Ranged) (hheld : s'.held = s.held) (hbase : s'.base = s.base) (hnext : s.next ≤ s'.next) :
    s'.Ranged :=
  ⟨by rw [hheld]; exact h.sorted, by rw [hheld]; exact h.proper, by
    rw [hheld, hbase]
    exact fun run hrun => ⟨(h.inside run hrun).1.trans hnext, (h.inside run hrun).2⟩⟩

/-- What a poll may return: no more than the budget, nothing reported held, and
nothing new past the window but a probe. -/
structure Fair (s : Sender) (budget : ℕ) (segment : Segment) : Prop where
  len_le : segment.len ≤ min budget maxForwardChunk
  unheld : ∀ p, segment.off ≤ p → p < segment.off + segment.len → ∀ run ∈ s.held, ¬ (run.1 ≤ p ∧ p < run.2)
  granted : ∀ p, segment.off ≤ p → p < segment.off + segment.len → s.next ≤ p →
    p < s.base + s.window ∨ segment.off = s.base ∧ segment.len = 1

theorem Ranged.fair (h : s.Ranged) (hpoll : (s.pollTransmit now budget wrap).2 = some (segment, body)) :
    s.Fair budget segment := by
  rw [pollTransmit_eq] at hpoll
  split_ifs at hpoll with hzero
  obtain ⟨⟨off, len⟩, hcut, hfill⟩ := Option.bind_eq_some_iff.mp hpoll
  obtain ⟨hoff, hlen, hbody⟩ := fill_cut hfill
  obtain ⟨hbase, hnext, hheld, hwindow, -, -⟩ := wake_frame s now
  have hranged : (s.wake now).Ranged := h.congr hheld hbase hnext.ge
  obtain ⟨hbudget, hwhere⟩ := owed_cut hcut (Nat.pos_of_ne_zero hzero)
  rw [hbase, hnext, hwindow] at hwhere
  refine ⟨by omega, fun p hlow hhigh run hrun => ?_, fun p hlow hhigh hfresh => ?_⟩
  · rcases hwhere with ⟨rfl, -, hstop⟩ | ⟨rfl, -⟩ | rfl | ⟨rfl, hempty, rfl⟩
    · rw [← hheld] at hrun
      rw [← hnext] at hstop
      exact hranged.repair (by omega) (by omega) hrun
    · have := (h.inside run hrun).1
      omega
    · omega
    · have := (h.inside run hrun).1
      omega
  · rcases hwhere with ⟨rfl, hstop, -⟩ | ⟨rfl, hstop⟩ | rfl | ⟨rfl, hempty, rfl⟩
    · omega
    · exact .inl (by omega)
    · omega
    · exact .inr ⟨by omega, by omega⟩

/-! ### What every call keeps -/

theorem Ranged.transmitted (h : s.Ranged) (segment : Segment) (now : ℕ) : (s.transmitted segment now).Ranged :=
  h.congr rfl rfl (le_max_left _ _)

theorem release_window (s : Sender) (off : ℕ) : (s.release off).window = s.window := by
  unfold release
  split_ifs <;> rfl

theorem Ranged.onAck (h : s.Ranged) (hoff : off ≤ u64Max) (window : ℕ) (held : SackRuns) (now : ℕ) :
    (s.onAck off window held now).1.Ranged := by
  rcases s.onAck_cases off window held now with ⟨-, heq⟩ | ⟨hbase, hruns, _, _, _, heq, -⟩ | ⟨-, -, heq⟩ <;> rw [heq]
  · exact h
  · obtain ⟨hsorted, hbetween⟩ := absoluteFrom_spec hoff held.runs
    have hle := release_base_le s hbase
    exact ⟨hsorted, fun run hrun => (hbetween run hrun).2.1, fun run hrun =>
      ⟨hruns run hrun, fun hproper => lt_of_le_of_lt hle ((hbetween run hrun).2.2 hproper)⟩⟩
  · exact ⟨.nil, nofun, nofun⟩

theorem onAck_stream (s : Sender) (off window : ℕ) (held : SackRuns) (now : ℕ) :
    (s.onAck off window held now).1.buffer.length ≤ s.buffer.length ∧ s.next ≤ (s.onAck off window held now).1.next := by
  have hrelease : (s.release off).buffer.length ≤ s.buffer.length := by
    unfold release
    split_ifs
    · dsimp only
      rw [List.length_drop]
      exact Nat.sub_le _ _
    · exact le_rfl
  have hnext := s.next_le_release off
  rcases s.onAck_cases off window held now with ⟨-, heq⟩ | ⟨-, -, _, _, _, heq, -⟩ | ⟨-, -, heq⟩ <;> rw [heq]
  · exact ⟨le_rfl, le_rfl⟩
  · exact ⟨hrelease, hnext⟩
  · exact ⟨hrelease, hnext⟩

/-! ### The calls with their panics -/

/-- An unsigned subtraction; below zero it stops the process. -/
def sub? (a b : ℕ) : Option ℕ := if b ≤ a then some (a - b) else none

/-- A range of a slice; out of its bounds it stops the process. -/
def slice? (l : List UInt8) (start stop : ℕ) : Option (List UInt8) :=
  if start ≤ stop ∧ stop ≤ l.length then some ((l.drop start).take (stop - start)) else none

def writable? (s : Sender) : Option ℕ := if s.fin.isSome then some 0 else sub? forwardWindow s.buffer.length

def write? (s : Sender) (bytes : List UInt8) (now : ℕ) : Option (Sender × ℕ) :=
  s.writable?.bind fun writable =>
    let take := min writable bytes.length
    (slice? bytes 0 take).map fun front =>
      let s := { s with buffer := s.buffer ++ front }
      (if 0 < take then { s with timer := s.timer.arm now } else s, take)

def owed? (s : Sender) (woken : Bool) (budget : ℕ) : Option Owed :=
  let stop := s.endOff
  let off := s.unheld s.cursor
  if s.cursor < s.next ∧ off < s.next then
    (sub? (min ((s.nextHeld off).getD s.next) s.next) off).map fun len => .repair off (min len budget)
  else
    let granted := min (s.base + s.window) u64Max
    let limit := min stop granted
    if s.next < limit then (sub? limit s.next).map fun len => .fresh s.next (min len budget)
    else if s.fin = some stop ∧ s.next = stop ∧ s.finSent = false ∧ s.finAcked = false then some (.endAt stop)
    else if woken = true ∧ s.next = s.base ∧ s.next < stop then some (.probe s.base)
    else some .nothing

/-- The cut of a ring, in the slice it starts in. -/
def cutRing? (front back : List UInt8) (start len : ℕ) : Option (List UInt8) :=
  if start < front.length then
    (sub? front.length start).bind fun rest => slice? front start (start + min len rest)
  else
    (sub? start front.length).bind fun start => slice? back start (start + min len (back.length - start))

def fill? (s : Sender) (off len wrap : ℕ) : Option (Option (Segment × List UInt8)) :=
  (sub? off s.base).bind fun start =>
    (cutRing? (s.buffer.take wrap) (s.buffer.drop wrap) start len).map fun body =>
      let fin : Bool := s.fin = some (off + body.length)
      if 0 < body.length ∨ fin = true then some (⟨off, fin, body.length⟩, body) else none

def pollTransmit? (s : Sender) (now budget wrap : ℕ) : Option (Sender × Option (Segment × List UInt8)) :=
  let budget := min budget maxForwardChunk
  if budget = 0 then some (s, none)
  else
    let woken := s.timer.due now
    let s := s.wake now
    (s.owed? woken budget).bind fun owed =>
      (match owed with
        | .repair off len => s.fill? off len wrap
        | .fresh off len => s.fill? off len wrap
        | .endAt off => s.fill? off 0 wrap
        | .probe off => s.fill? off 1 wrap
        | .nothing => some none).map fun segment => (s, segment)

/-- Drop what is acknowledged: the advance is a difference, and a range of the buffer. -/
def release? (s : Sender) (off : ℕ) : Option Sender :=
  if s.base < off then
    (sub? (min off s.endOff) s.base).bind fun advance =>
      (slice? s.buffer 0 advance).map fun _ =>
        let base := s.base + advance
        { s with
          buffer := s.buffer.drop advance
          base := base
          next := max s.next base
          cursor := max s.cursor base
          finAcked := s.finAcked || s.fin.any (· < off) }
  else some s

def onAck? (s : Sender) (off window : ℕ) (held : SackRuns) (now : ℕ) : Option (Sender × Except Contradiction Unit) :=
  if off < s.base then some (s, .ok ())
  else
    (s.release? off).map fun s =>
      let runs := held.absolute off
      if runs.all fun run => run.2 ≤ s.next then ({ s with held := runs }.settleAck off window now, .ok ())
      else ({ s with held := [] }, .error .contradiction)

theorem write?_eq (hbuffer : s.buffer.length ≤ forwardWindow) (bytes : List UInt8) (now : ℕ) :
    s.write? bytes now = some (s.write bytes now) := by
  have hwritable : s.writable? = some s.writable := by
    unfold writable? writable
    split_ifs
    · rfl
    · exact if_pos hbuffer
  have hslice : slice? bytes 0 (min s.writable bytes.length) = some (bytes.take (min s.writable bytes.length)) :=
    if_pos ⟨Nat.zero_le _, min_le_right _ _⟩
  rw [write?, hwritable, Option.bind_some]
  dsimp only
  rw [hslice]
  rfl

theorem owed?_eq (s : Sender) (woken : Bool) (budget : ℕ) : s.owed? woken budget = some (s.owed woken budget) := by
  unfold owed?
  dsimp only
  by_cases hrepair : s.cursor < s.next ∧ s.unheld s.cursor < s.next
  · have hstop : s.unheld s.cursor ≤ min ((s.nextHeld (s.unheld s.cursor)).getD s.next) s.next := by
      refine le_min ?_ hrepair.2.le
      cases hnext : s.nextHeld (s.unheld s.cursor) with
      | none => exact hrepair.2.le
      | some start => exact (lt_nextHeld hnext).le
    rw [if_pos hrepair, sub?, if_pos hstop, owed, repairOwed, if_pos hrepair.1]
    rw [if_pos hrepair.2]
    rfl
  · have hnone : s.repairOwed budget = none := by
      unfold repairOwed
      dsimp only
      split_ifs with hcursor hoff
      · exact absurd ⟨hcursor, hoff⟩ hrepair
      · rfl
      · rfl
    rw [if_neg hrepair, owed_of_no_repair hnone]
    split_ifs with hfresh
    · rw [sub?, if_pos hfresh.le]
      rfl
    all_goals rfl

theorem cutRing?_eq {front back : List UInt8} {start : ℕ} (hstart : start ≤ front.length + back.length) (len : ℕ) :
    cutRing? front back start len = some (cutRing front back start len) := by
  unfold cutRing? cutRing
  split_ifs with hfront
  · rw [sub?, if_pos hfront.le, Option.bind_some, slice?, if_pos (by omega), Nat.add_sub_cancel_left]
  · rw [sub?, if_pos (not_lt.mp hfront), Option.bind_some, slice?, if_pos (by omega), Nat.add_sub_cancel_left]

theorem fill?_eq (hbase : s.base ≤ off) (hoff : off ≤ s.endOff) (len wrap : ℕ) :
    s.fill? off len wrap = some (s.fill off len wrap) := by
  have hstart : off - s.base ≤ (s.buffer.take wrap).length + (s.buffer.drop wrap).length := by
    rw [← List.length_append, List.take_append_drop]
    rw [endOff] at hoff
    omega
  rw [fill?, sub?, if_pos hbase, Option.bind_some, cutRing?_eq hstart]
  rfl

theorem Sends.pollTransmit?_eq (h : Sends S s) (now budget wrap : ℕ) :
    s.pollTransmit? now budget wrap = some (s.pollTransmit now budget wrap) := by
  unfold pollTransmit? Sender.pollTransmit
  dsimp only
  split_ifs with hzero
  · rfl
  · have hwake := (h.wake now).1
    have hwhere : ∀ {off len}, owedCut ((s.wake now).owed (s.timer.due now) (min budget maxForwardChunk)) = some (off, len) →
        (s.wake now).fill? off len wrap = some ((s.wake now).fill off len wrap) := by
      intro off len hcut
      obtain ⟨hbase, hoff⟩ := hwake.owed hcut
      exact fill?_eq hbase (hwake.endOff_eq ▸ hoff) len wrap
    rw [owed?_eq, Option.bind_some]
    generalize (s.wake now).owed (s.timer.due now) (min budget maxForwardChunk) = owed at hwhere
    cases owed with
    | nothing => rfl
    | repair | fresh | endAt | probe =>
      dsimp only
      rw [hwhere rfl]
      rfl

theorem onAck?_eq (s : Sender) (off window : ℕ) (held : SackRuns) (now : ℕ) :
    s.onAck? off window held now = some (s.onAck off window held now) := by
  have hrelease : s.release? off = some (s.release off) := by
    unfold release? release
    split_ifs with hbase
    · have hend : s.base ≤ s.endOff := Nat.le_add_right _ _
      have hslice : min off s.endOff - s.base ≤ s.buffer.length := by
        rw [endOff]
        omega
      rw [sub?, if_pos (by omega), Option.bind_some, slice?, if_pos ⟨Nat.zero_le _, hslice⟩]
      rfl
    · rfl
  unfold onAck? Sender.onAck
  split_ifs with hstale
  · rfl
  · rw [hrelease]
    rfl

end Sender

/-! ### Every run of a sender -/

inductive SendAction where
  | write (bytes : List UInt8) (now : ℕ)
  | finish
  | poll (now budget wrap : ℕ)
  | transmitted (segment : Segment) (now : ℕ)
  | acknowledge (off window : ℕ) (held : SackRuns) (now : ℕ)
  deriving DecidableEq

structure Sending where
  sender : Sender
  written : List UInt8
  polled : List Segment
  reported : List (ℕ × ℕ)
  advertised : ℕ
  endSent : Bool
  deriving DecidableEq

namespace Sending

/-- Note an acknowledgement. One behind `base` is passed over; a refused one reports nothing held
and advertises nothing. -/
def acknowledge (g : Sending) (off window : ℕ) (held : SackRuns) (now : ℕ) : Sending :=
  let (sender, answer) := g.sender.onAck off window held now
  let g' := { g with sender := sender }
  if off < g.sender.base then g'
  else
    match answer with
    | .ok () => { g' with reported := held.absolute off, advertised := window }
    | .error _ => { g' with reported := [] }

/-- One call on the sender. A segment is transmitted when a poll has returned it, at any
time after; an acknowledgement is the peer's, and its offset is a `u64`. -/
def next (g : Sending) : SendAction → Option Sending
  | .write bytes now =>
    let (sender, taken) := g.sender.write bytes now
    some { g with sender := sender, written := g.written ++ bytes.take taken }
  | .finish => some { g with sender := g.sender.finish }
  | .poll now budget wrap =>
    let (sender, segment) := g.sender.pollTransmit now budget wrap
    some { g with sender := sender, polled := g.polled ++ (segment.map Prod.fst).toList }
  | .transmitted segment now =>
    if segment ∈ g.polled then
      some { g with sender := g.sender.transmitted segment now, endSent := g.endSent || segment.fin }
    else none
  | .acknowledge off window held now => if u64Max < off then none else some (g.acknowledge off window held now)

def start : Sending := ⟨.new, [], [], [], initialWindow, false⟩

def system : System Sending SendAction := ⟨(· = start), next⟩

/-- The sender stands in what it was given, and so does every segment it handed out. -/
structure Sound (g : Sending) : Prop where
  sends : g.sender.Sends g.written
  buffer : g.sender.buffer.length ≤ forwardWindow
  ranged : g.sender.Ranged
  reported : g.reported = g.sender.held
  advertised : g.advertised = g.sender.window
  polled : ∀ segment ∈ g.polled,
    segment.off + segment.len ≤ g.written.length ∧
      (segment.fin = true → g.sender.fin = some (segment.off + segment.len))
  endSent : g.endSent = true → g.sender.fin = some g.sender.next

variable {g g' : Sending} {off window now budget wrap : ℕ} {held : SackRuns} {bytes : List UInt8} {segment : Segment}

theorem sound_start : Sound start :=
  ⟨Sender.sends_new, Nat.zero_le _, ⟨.nil, nofun, nofun⟩, rfl, rfl, nofun, nofun⟩

theorem Sound.write (h : g.Sound) (bytes : List UInt8) (now : ℕ) :
    Sound { g with sender := (g.sender.write bytes now).1,
                   written := g.written ++ bytes.take (g.sender.write bytes now).2 } := by
  obtain ⟨hsends, hfin, -, -⟩ := h.sends.write bytes now
  have hsame : (g.sender.write bytes now).1.held = g.sender.held ∧ (g.sender.write bytes now).1.base = g.sender.base ∧
      (g.sender.write bytes now).1.next = g.sender.next ∧ (g.sender.write bytes now).1.window = g.sender.window ∧
      (g.sender.write bytes now).1.buffer = g.sender.buffer ++ bytes.take (g.sender.write bytes now).2 := by
    unfold Sender.write
    dsimp only
    split_ifs <;> exact ⟨rfl, rfl, rfl, rfl, rfl⟩
  obtain ⟨hheld, hbase, hnext, hwindow, hbuffer⟩ := hsame
  have hroom : (g.sender.write bytes now).2 ≤ forwardWindow - g.sender.buffer.length := by
    refine (min_le_left _ _).trans ?_
    unfold Sender.writable
    split_ifs
    · exact Nat.zero_le _
    · exact le_rfl
  have hfull := h.buffer
  refine ⟨hsends, ?_, h.ranged.congr hheld hbase hnext.ge, h.reported.trans hheld.symm,
    h.advertised.trans hwindow.symm, fun segment hsegment => ?_, fun hend => ?_⟩
  · dsimp only
    rw [hbuffer, List.length_append, List.length_take]
    omega
  · obtain ⟨hle, hend⟩ := h.polled segment hsegment
    rw [hfin, List.length_append]
    exact ⟨by omega, hend⟩
  · dsimp only
    rw [hfin, hnext]
    exact h.endSent hend

theorem Sound.finish (h : g.Sound) : Sound { g with sender := g.sender.finish } := by
  obtain ⟨hsends, -, hfin⟩ := h.sends.finish
  have hsame : g.sender.finish.held = g.sender.held ∧ g.sender.finish.base = g.sender.base ∧
      g.sender.finish.next = g.sender.next ∧ g.sender.finish.window = g.sender.window ∧
      g.sender.finish.buffer = g.sender.buffer := by
    unfold Sender.finish
    split_ifs <;> exact ⟨rfl, rfl, rfl, rfl, rfl⟩
  obtain ⟨hheld, hbase, hnext, hwindow, hbuffer⟩ := hsame
  refine ⟨hsends, hbuffer ▸ h.buffer, h.ranged.congr hheld hbase hnext.ge, h.reported.trans hheld.symm,
    h.advertised.trans hwindow.symm, fun segment hsegment => ?_, fun hend => ?_⟩
  · obtain ⟨hle, hend⟩ := h.polled segment hsegment
    exact ⟨hle, fun hsegment => hfin _ (hend hsegment)⟩
  · dsimp only
    rw [hnext]
    exact hfin _ (h.endSent hend)

theorem Sound.poll (h : g.Sound) (now budget wrap : ℕ) :
    Sound { g with sender := (g.sender.pollTransmit now budget wrap).1,
                   polled := g.polled ++ ((g.sender.pollTransmit now budget wrap).2.map Prod.fst).toList } := by
  obtain ⟨hsends, hfin, -, hsegment⟩ := h.sends.pollTransmit now budget wrap
  have hframe : (g.sender.pollTransmit now budget wrap).1.base = g.sender.base ∧
      (g.sender.pollTransmit now budget wrap).1.next = g.sender.next ∧
      (g.sender.pollTransmit now budget wrap).1.held = g.sender.held ∧
      (g.sender.pollTransmit now budget wrap).1.window = g.sender.window ∧
      (g.sender.pollTransmit now budget wrap).1.buffer = g.sender.buffer ∧
      (g.sender.pollTransmit now budget wrap).1.fin = g.sender.fin := by
    rw [Sender.pollTransmit_eq]
    split_ifs
    · exact ⟨rfl, rfl, rfl, rfl, rfl, rfl⟩
    · exact g.sender.wake_frame now
  obtain ⟨hbase, hnext, hheld, hwindow, hbuffer, -⟩ := hframe
  refine ⟨hsends, hbuffer ▸ h.buffer, h.ranged.congr hheld hbase hnext.ge, h.reported.trans hheld.symm,
    h.advertised.trans hwindow.symm, fun segment hmem => ?_, fun hend => ?_⟩
  · dsimp only at hmem ⊢
    rw [hfin]
    rcases List.mem_append.mp hmem with hmem | hmem
    · exact h.polled segment hmem
    · rw [Option.mem_toList, Option.map_eq_some_iff] at hmem
      obtain ⟨⟨_, body⟩, hpoll, rfl⟩ := hmem
      obtain ⟨hat, hlen, hend⟩ := hsegment _ body hpoll
      rw [hlen]
      exact ⟨hat.length_le, hend⟩
  · dsimp only
    rw [hfin, hnext]
    exact h.endSent hend

theorem Sound.transmitted (h : g.Sound) (hmem : segment ∈ g.polled) (now : ℕ) :
    Sound { g with sender := g.sender.transmitted segment now, endSent := g.endSent || segment.fin } := by
  obtain ⟨hle, hfin⟩ := h.polled segment hmem
  have hsends := h.sends.transmitted hle now
  refine ⟨hsends, h.buffer, h.ranged.transmitted segment now, h.reported, h.advertised, h.polled, fun hend => ?_⟩
  -- The end is at the last byte, and `next` is past it no more than `written`.
  have hsome : ∃ f, g.sender.fin = some f ∧ f ≤ (g.sender.transmitted segment now).next := by
    rcases Bool.or_eq_true_iff.mp hend with hend | hend
    · exact ⟨_, h.endSent hend, le_max_left _ _⟩
    · exact ⟨_, hfin hend, le_max_right _ _⟩
  obtain ⟨f, hf, hnext⟩ := hsome
  have hlast := h.sends.fin f hf
  have hbound := hsends.next_le
  change g.sender.fin = some (g.sender.transmitted segment now).next
  rw [hf, Option.some.injEq]
  omega

theorem Sound.acknowledge (h : g.Sound) (hoff : off ≤ u64Max) (window : ℕ) (held : SackRuns) (now : ℕ) :
    (g.acknowledge off window held now).Sound := by
  obtain ⟨hsends, hfin, -⟩ := h.sends.onAck off window held now
  obtain ⟨hbuffer, hnext⟩ := g.sender.onAck_stream off window held now
  have hranged := h.ranged.onAck hoff window held now
  have hpolled : ∀ segment ∈ g.polled, segment.off + segment.len ≤ g.written.length ∧
      (segment.fin = true → (g.sender.onAck off window held now).1.fin = some (segment.off + segment.len)) := by
    rw [hfin]
    exact h.polled
  have hend : g.endSent = true →
      (g.sender.onAck off window held now).1.fin = some (g.sender.onAck off window held now).1.next := by
    intro hsent
    have hlast := h.sends.fin _ (h.endSent hsent)
    have hbound := hsends.next_le
    rw [hfin, h.endSent hsent, Option.some.injEq]
    omega
  unfold Sending.acknowledge
  rcases g.sender.onAck_cases off window held now with ⟨hstale, heq⟩ | ⟨hbase, -, _, _, _, heq, -⟩ | ⟨hbase, -, heq⟩ <;>
    rw [heq] at hsends hbuffer hranged hpolled hend ⊢ <;> dsimp only
  · rw [if_pos hstale]
    exact h
  · rw [if_neg (not_lt.mpr hbase)]
    exact ⟨hsends, hbuffer.trans h.buffer, hranged, rfl, rfl, hpolled, hend⟩
  · rw [if_neg (not_lt.mpr hbase)]
    have hadvertised := h.advertised.trans (g.sender.release_window off).symm
    exact ⟨hsends, hbuffer.trans h.buffer, hranged, rfl, hadvertised, hpolled, hend⟩

theorem sound (h : system.Reachable g) : g.Sound := by
  refine h.invariant (fun g hg => hg ▸ sound_start) fun g a g' hg hs => ?_
  change g.next a = some g' at hs
  cases a with
  | write bytes now => exact Option.some.inj hs ▸ hg.write bytes now
  | finish => exact Option.some.inj hs ▸ hg.finish
  | poll now budget wrap => exact Option.some.inj hs ▸ hg.poll now budget wrap
  | transmitted segment now =>
    simp only [next] at hs
    split_ifs at hs with hmem
    exact Option.some.inj hs ▸ hg.transmitted hmem now
  | acknowledge off window held now =>
    simp only [next] at hs
    split_ifs at hs with hoff
    exact Option.some.inj hs ▸ hg.acknowledge (not_lt.mp hoff) window held now

/-- In every state a sender reaches, its offsets are in order and its buffer bounded; whatever it
then polls is a piece of what was written, free of held bytes and within the window; no call stops. -/
theorem sender_in_order (h : system.Reachable g) :
    (g.sender.base ≤ g.sender.cursor ∧ g.sender.cursor ≤ g.sender.next ∧
      g.sender.next ≤ g.sender.base + g.sender.buffer.length ∧ g.sender.buffer.length ≤ forwardWindow) ∧
    g.sender.Ranged ∧
    (∀ now budget wrap segment body, (g.sender.pollTransmit now budget wrap).2 = some (segment, body) →
      segment.len = body.length ∧ segment.len ≤ min budget maxForwardChunk ∧ At g.written segment.off body ∧
      ∀ p, segment.off ≤ p → p < segment.off + segment.len →
        (∀ run ∈ g.reported, ¬ (run.1 ≤ p ∧ p < run.2)) ∧
        (g.sender.next ≤ p → p < g.sender.base + g.advertised ∨ segment.off = g.sender.base ∧ segment.len = 1)) ∧
    (∀ bytes now, g.sender.write? bytes now = some (g.sender.write bytes now)) ∧
    (∀ now budget wrap, g.sender.pollTransmit? now budget wrap = some (g.sender.pollTransmit now budget wrap)) ∧
    ∀ off window held now, g.sender.onAck? off window held now = some (g.sender.onAck off window held now) := by
  have hg := sound h
  refine ⟨⟨hg.sends.base_le, hg.sends.cursor_le, hg.sends.next_le.trans_eq hg.sends.endOff_eq.symm, hg.buffer⟩,
    hg.ranged, fun now budget wrap segment body hpoll => ?_, Sender.write?_eq hg.buffer, hg.sends.pollTransmit?_eq,
    g.sender.onAck?_eq⟩
  obtain ⟨hat, hlen, -⟩ := (hg.sends.pollTransmit now budget wrap).2.2.2 segment body hpoll
  have hfair := hg.ranged.fair hpoll
  rw [hg.reported, hg.advertised]
  exact ⟨hlen, hfair.len_le, hat, fun p hlow hhigh => ⟨hfair.unheld p hlow hhigh, hfair.granted p hlow hhigh⟩⟩

/-- Ten bytes sent, five of them acknowledged, the walk back at `base`: the repair is the other five. -/
theorem sender_in_order_repair : ∃ g, system.Reachable g ∧ g.sender.next = 10 ∧
    (g.sender.pollTransmit 10000000000 10 10).2 = some (⟨5, false, 5⟩, [5, 6, 7, 8, 9]) ∧ At g.written 5 [5, 6, 7, 8, 9] := by
  obtain ⟨g, hreach, hnext, hpoll⟩ : ∃ g, system.Reachable g ∧ g.sender.next = 10 ∧
      (g.sender.pollTransmit 10000000000 10 10).2 = some (⟨5, false, 5⟩, [5, 6, 7, 8, 9]) :=
    System.Reachable.of_run start [.write [0, 1, 2, 3, 4, 5, 6, 7, 8, 9] 0, .poll 0 10 10, .transmitted ⟨0, false, 10⟩ 0,
      .acknowledge 5 100 .empty 1] rfl (by decide +kernel)
  exact ⟨g, hreach, hnext, hpoll, ((sender_in_order hreach).2.2.1 _ _ _ _ _ hpoll).2.2.1⟩

/-- An acknowledgement behind `base` is passed over, and the bytes it reports held are sent again. -/
theorem repair_of_stale_report : ∃ g g' segment body, ∃ held : SackRuns, system.Reachable g ∧
    system.next g (.acknowledge 3 100 held 2) = some g' ∧ (g.sender.onAck 3 100 held 2).2 = .ok () ∧
    (g'.sender.pollTransmit 10000000000 10 10).2 = some (segment, body) ∧
    segment.off + segment.len ≤ g'.sender.next ∧
    ∃ run ∈ held.absolute 3, ∃ p, segment.off ≤ p ∧ p < segment.off + segment.len ∧ run.1 ≤ p ∧ p < run.2 := by
  obtain ⟨g, hreach, hbase, hnext, hpoll⟩ : ∃ g, system.Reachable g ∧ g.sender.base = 5 ∧ g.sender.next = 10 ∧
      (g.sender.pollTransmit 10000000000 10 10).2 = some (⟨5, false, 5⟩, [5, 6, 7, 8, 9]) :=
    System.Reachable.of_run start [.write [0, 1, 2, 3, 4, 5, 6, 7, 8, 9] 0, .poll 0 10 10, .transmitted ⟨0, false, 10⟩ 0,
      .acknowledge 5 100 .empty 1] rfl (by decide +kernel)
  let held : SackRuns := ⟨[⟨⟨4, by decide⟩, ⟨2, by decide⟩⟩], by decide⟩
  have hack : g.sender.onAck 3 100 held 2 = (g.sender, .ok ()) := if_pos (by omega)
  have hsame : system.next g (.acknowledge 3 100 held 2) = some g := by
    change g.next (.acknowledge 3 100 held 2) = some g
    rw [next, if_neg (by decide), Sending.acknowledge, hack]
    exact congrArg some (if_pos (by omega))
  exact ⟨g, g, _, _, held, hreach, hsame, by rw [hack], hpoll, hnext.ge,
    (7, 9), by decide, 7, by decide, by decide, by decide, by decide⟩

/-! ### Acknowledgements of what was never sent -/

/-- The acknowledgement covers a byte past `next`, or the end when no segment with it was sent,
or reports a run past `next`. -/
def NamesUnsent (g : Sending) (off : ℕ) (held : SackRuns) : Prop :=
  (g.sender.next < off ∧ ¬ (g.endSent = true ∧ g.sender.fin = some g.sender.next ∧ off = g.sender.next + 1)) ∨
    ∃ run ∈ held.absolute off, g.sender.next < run.2

/-- What keeps the sender from taking such an acknowledgement: one behind `base` reports no run past
`next`, and another covers no byte past it, unless a run reaches past that byte too. -/
def Answerable (g : Sending) (off : ℕ) (held : SackRuns) : Prop :=
  if off < g.sender.base then ∀ run ∈ held.absolute off, run.2 ≤ g.sender.next
  else
    off ≤ g.sender.next ∨ (g.endSent = true ∧ g.sender.fin = some g.sender.next ∧ off = g.sender.next + 1) ∨
      ∃ run ∈ held.absolute off, g.sender.next < run.2 ∧ min off g.sender.endOff < run.2

instance (g : Sending) (off : ℕ) (held : SackRuns) : Decidable (g.NamesUnsent off held) :=
  inferInstanceAs (Decidable (_ ∨ ∃ run ∈ held.absolute off, g.sender.next < run.2))

instance (g : Sending) (off : ℕ) (held : SackRuns) : Decidable (g.Answerable off held) :=
  inferInstanceAs (Decidable (if off < g.sender.base then _ else _))

theorem Sound.release_next (h : g.Sound) (hbase : g.sender.base ≤ off) :
    (g.sender.release off).next = max g.sender.next (min off g.sender.endOff) := by
  have hle := h.sends.base_le.trans h.sends.cursor_le
  unfold Sender.release
  split_ifs with hlt
  · dsimp only
    omega
  · omega

/-- A stream refuses an acknowledgement of what it never sent exactly when the acknowledgement is answerable. -/
theorem onAck_refuses_unsent (h : system.Reachable g) (recv : Receiver) (off window : ℕ) (held : SackRuns) (now : ℕ) :
    (g.NamesUnsent off held →
      ((⟨g.sender, recv⟩ : Stream).onAck off window held now).2 = .error .contradiction) ↔ g.Answerable off held := by
  have hg := sound h
  have hle := hg.sends.base_le.trans hg.sends.cursor_le
  have hend := hg.sends.next_le
  change (_ → (g.sender.onAck off window held now).2 = _) ↔ _
  unfold NamesUnsent Answerable
  rcases g.sender.onAck_cases off window held now with ⟨hstale, heq⟩ | ⟨hbase, hruns, _, _, _, heq, -⟩ |
    ⟨hbase, hrun, heq⟩ <;> rw [heq]
  · rw [if_pos hstale]
    constructor
    · intro himp run hrun
      by_contra hlt
      exact nomatch himp (.inr ⟨run, hrun, not_le.mp hlt⟩)
    · rintro hruns (⟨hlt, -⟩ | ⟨run, hrun, hlt⟩)
      · omega
      · exact absurd (hruns run hrun) (not_le.mpr hlt)
  · rw [if_neg (not_lt.mpr hbase)]
    rw [hg.release_next hbase] at hruns
    constructor
    · intro himp
      by_contra hcon
      simp only [not_or] at hcon
      exact nomatch himp (.inl ⟨not_le.mp hcon.1, hcon.2.1⟩)
    · rintro hans (⟨hlt, hunsent⟩ | ⟨run, hrun, hlt⟩)
      · rcases hans with hans | hans | ⟨run, hrun, hnext, hoff⟩
        · omega
        · exact absurd hans hunsent
        · have := hruns run hrun
          omega
      · have hle := hruns run hrun
        rcases hans with hans | ⟨hsent, hfin, hoff⟩ | ⟨run, hrun, hnext, hoff⟩
        · omega
        · have := hg.sends.fin _ hfin
          rw [← hg.sends.endOff_eq] at this
          omega
        · have := hruns run hrun
          omega
  · rw [if_neg (not_lt.mpr hbase)]
    rw [hg.release_next hbase] at hrun
    obtain ⟨run, hrun, hlt⟩ := hrun
    exact ⟨fun _ => .inr (.inr ⟨run, hrun, by omega, by omega⟩), fun _ _ => rfl⟩

/-- Ten bytes sent and a run past them reported held. -/
theorem onAck_refuses_unsent_run : ∃ g, ∃ held : SackRuns, system.Reachable g ∧ g.NamesUnsent 5 held ∧
    g.Answerable 5 held ∧ ((⟨g.sender, .new⟩ : Stream).onAck 5 100 held 1).2 = .error .contradiction := by
  let held : SackRuns := ⟨[⟨⟨4, by decide⟩, ⟨2, by decide⟩⟩], by decide⟩
  obtain ⟨g, hreach, hnames, hans⟩ : ∃ g, system.Reachable g ∧ g.NamesUnsent 5 held ∧ g.Answerable 5 held :=
    System.Reachable.of_run start [.write [0, 1, 2, 3, 4, 5, 6, 7, 8, 9] 0, .poll 0 10 10, .transmitted ⟨0, false, 10⟩ 0] rfl
      (by decide +kernel)
  exact ⟨g, held, hreach, hnames, hans, (onAck_refuses_unsent hreach .new 5 100 held 1).mpr hans hnames⟩

/-- A byte written and not yet sent is acknowledged, and the stream takes it. -/
theorem onAck_takes_unsent : ∃ g, system.Reachable g ∧ g.NamesUnsent 1 .empty ∧ g.polled = [] ∧
    ((⟨g.sender, .new⟩ : Stream).onAck 1 100 .empty 1).2 = .ok () := by
  obtain ⟨g, hreach, hnames, hnone, hok⟩ : ∃ g, system.Reachable g ∧ g.NamesUnsent 1 .empty ∧ g.polled = [] ∧
      ((⟨g.sender, .new⟩ : Stream).onAck 1 100 .empty 1).2.isOk = true :=
    System.Reachable.of_run start [.write [0] 0] rfl (by decide +kernel)
  refine ⟨g, hreach, hnames, hnone, ?_⟩
  cases hans : ((⟨g.sender, .new⟩ : Stream).onAck 1 100 .empty 1).2 with
  | ok => rfl
  | error => rw [hans] at hok; cases hok

end Sending

end Braid.Forwarding
