import Braid.Screen.Tiling

/-! The range of runs `changedSpan` names is all that a row changed in. Laid over
the earlier row at the same run, it makes the new row: what stands before it is
equal, and so is what stands behind it, unless the range reaches the last run
and the rest of the line is erased. -/

namespace Braid.Screen

open Foundation

namespace RowFrame

def spanChunk (row : RowFrame) (runs : ℕ × ℕ) : RowChunk :=
  let (first, stop) := row.clampRuns runs
  let (col, byte) := row.runStart first
  let cells := ((slice row.runs first stop).map StyleRun.cells).sum
  let bytes := ((slice row.runs first stop).map StyleRun.bytes).sum
  if stop = row.runs.length then
    { text := (row.text.get? byte row.paintedBytes).getD []
      runs := slice row.runs first stop
      cells := cells + (row.cells - (col + cells))
      col := col
      byte := byte }
  else
    { text := (row.text.get? byte (byte + bytes)).getD []
      runs := slice row.runs first stop
      cells := cells
      col := col
      byte := byte }

/-- The row held, with a run range of `row` laid over it at the run it starts at;
what is behind it stays unless the rest of the line is erased. -/
def patched (held row : RowFrame) (runs : ℕ × ℕ) (clearTail : Bool) : RowFrame :=
  let chunk := row.spanChunk runs
  let past := chunk.byte + chunk.text.byteLen
  { text := (held.text.get? 0 chunk.byte).getD [] ++ chunk.text ++
      if clearTail then [] else (held.text.get? past held.text.byteLen).getD []
    runs := held.runs.take runs.1 ++ chunk.runs ++
      if clearTail then [] else held.runs.drop (runs.1 + chunk.runs.length)
    cells := if clearTail then chunk.col + chunk.cells else held.cells }

/-! ### Run ranges as segments -/

namespace Tiled

variable {row : RowFrame} {segs : List Segment} {tail : Text}

theorem runStart (h : row.Tiled segs tail) (first : ℕ) :
    row.runStart first = (cellsOf (segs.take first), (flat (segs.take first)).byteLen) := by
  have key : ∀ (l : List Segment) (col byte : ℕ), col + cellsOf l ≤ u16Max →
      (l.map Segment.run).foldl (fun (col, byte) run => (min (col + run.cells) u16Max, byte + run.bytes)) (col, byte) =
        (col + cellsOf l, byte + (flat l).byteLen) := by
    intro l
    induction l with
    | nil => simp [cellsOf]
    | cons s l ih =>
      intro col byte hle
      have hcells : cellsOf (s :: l) = s.cells + cellsOf l := by simp [cellsOf]
      rw [List.map_cons, List.foldl_cons, hcells, flat_cons, Text.byteLen_append]
      simp only [Segment.run]
      rw [min_eq_left (by omega), ih _ _ (by omega), Nat.add_assoc, Nat.add_assoc]
  have hle : cellsOf (segs.take first) ≤ cellsOf segs := by
    have := cellsOf_append (segs.take first) (segs.drop first)
    rw [List.take_append_drop] at this
    omega
  rw [RowFrame.runStart, h.runs, ← List.map_take, key _ _ _ (by have := h.cells; have := h.width; omega)]
  simp

theorem slice_runs (h : row.Tiled segs tail) (first stop : ℕ) :
    slice row.runs first stop = ((segs.take stop).drop first).map Segment.run := by
  rw [slice, h.runs, List.map_drop, List.map_take]

theorem sum_cells_run (l : List Segment) : ((l.map Segment.run).map StyleRun.cells).sum = cellsOf l := by
  rw [List.map_map]
  rfl

theorem get?_painted (h : row.Tiled segs tail) (first : ℕ) :
    row.text.get? (flat (segs.take first)).byteLen row.paintedBytes =
      some (flat (segs.drop first) ++ tail.trimEnd) := by
  obtain ⟨blanks, hblanks⟩ := tail.trimEnd_isPrefix
  refine Text.get?_eq_some.mpr ⟨flat (segs.take first), blanks, ?_, rfl, ?_⟩
  · rw [h.text, List.append_assoc, List.append_assoc, hblanks, ← List.append_assoc, ← flat_append,
      List.take_append_drop]
  · rw [h.paintedBytes, Text.byteLen_append, ← Nat.add_assoc, ← Text.byteLen_append, ← flat_append,
      List.take_append_drop]

theorem spanChunk_last (h : row.Tiled segs tail) {first : ℕ} (hf : first ≤ segs.length) :
    row.spanChunk (first, row.runs.length) =
      { text := flat (segs.drop first) ++ tail.trimEnd
        runs := (segs.drop first).map Segment.run
        cells := row.cells - cellsOf (segs.take first)
        col := cellsOf (segs.take first)
        byte := (flat (segs.take first)).byteLen } := by
  have hclamp : row.clampRuns (first, row.runs.length) = (first, row.runs.length) := by
    rw [clampRuns, h.length, min_eq_left hf, min_self, max_eq_right hf]
  have hcells : cellsOf (segs.take first) + cellsOf (segs.drop first) ≤ row.cells := by
    rw [← cellsOf_append, List.take_append_drop]
    exact h.cells
  simp only [spanChunk, hclamp, h.runStart, if_true, h.slice_runs, h.get?_painted, Option.getD_some, sum_cells_run]
  rw [h.length, List.take_length]
  congr 1
  omega

theorem spanChunk_inner (h : row.Tiled segs tail) {first stop : ℕ} (hf : first ≤ stop) (hs : stop < segs.length) :
    row.spanChunk (first, stop) =
      { text := flat ((segs.take stop).drop first)
        runs := ((segs.take stop).drop first).map Segment.run
        cells := cellsOf ((segs.take stop).drop first)
        col := cellsOf (segs.take first)
        byte := (flat (segs.take first)).byteLen } := by
  have hclamp : row.clampRuns (first, stop) = (first, stop) := by
    rw [clampRuns, h.length, min_eq_left (by omega), min_eq_left hs.le, max_eq_right hf]
  have hsplit : segs.take first ++ (segs.take stop).drop first = segs.take stop := by
    have := List.take_append_drop first (segs.take stop)
    rwa [List.take_take, min_eq_left hf] at this
  have htext : row.text.get? (flat (segs.take first)).byteLen
      ((flat (segs.take first)).byteLen + (flat ((segs.take stop).drop first)).byteLen) =
        some (flat ((segs.take stop).drop first)) := by
    refine Text.get?_eq_some.mpr ⟨flat (segs.take first), flat (segs.drop stop) ++ tail, ?_, rfl, rfl⟩
    rw [h.text, ← flat_append, hsplit, ← List.append_assoc, ← flat_append, List.take_append_drop]
  simp only [spanChunk, hclamp, h.runStart, h.length, hs.ne, if_false, h.slice_runs, sum_bytes_run, htext,
    Option.getD_some, sum_cells_run]

end Tiled

/-! ### What the comparison finds -/

section Scan

variable {row previous : RowFrame} {segs segs' : List Segment} {tail tail' : Text}

/-- The comparison after `i` runs that start at the same place in both rows. -/
structure ScannedTo (segs segs' : List Segment) (i : ℕ) (scan : SpanScan) : Prop where
  le : i ≤ segs.length
  le' : i ≤ segs'.length
  placed : (segs.take i).map (fun s => (s.cells, s.text.byteLen)) =
    (segs'.take i).map fun s => (s.cells, s.text.byteLen)
  byte : scan.byte = (flat (segs.take i)).byteLen
  last : scan.last ≤ i
  first : segs.take (scan.first.getD i) = segs'.take (scan.first.getD i)
  first_le : scan.first.getD i ≤ i
  behind : ∀ j, scan.last ≤ j → j < i → segs[j]? = segs'[j]?

theorem placed_sums {a b : List Segment}
    (h : a.map (fun s => (s.cells, s.text.byteLen)) = b.map fun s => (s.cells, s.text.byteLen)) :
    cellsOf a = cellsOf b ∧ (flat a).byteLen = (flat b).byteLen := by
  have hcells := congrArg (fun l => (l.map Prod.fst).sum) h
  have hbytes := congrArg (fun l => (l.map Prod.snd).sum) h
  simp only [List.map_map] at hcells hbytes
  refine ⟨hcells, ?_⟩
  rw [← sum_bytes_run, ← sum_bytes_run, List.map_map, List.map_map]
  exact hbytes

theorem Tiled.get?_seg (h : row.Tiled segs tail) {i : ℕ} {s : Segment} (hs : segs[i]? = some s) :
    row.text.get? (flat (segs.take i)).byteLen ((flat (segs.take i)).byteLen + s.text.byteLen) = some s.text := by
  refine Text.get?_eq_some.mpr ⟨flat (segs.take i), flat (segs.drop (i + 1)) ++ tail, ?_, rfl, rfl⟩
  obtain ⟨hi, rfl⟩ := List.getElem?_eq_some_iff.mp hs
  have hsplit : segs = segs.take i ++ segs[i] :: segs.drop (i + 1) := by
    rw [List.getElem_cons_drop, List.take_append_drop]
  conv_lhs => rw [h.text, hsplit]
  simp only [flat_append, flat_cons, List.append_assoc]

section

variable {mine theirs : Text} {i : ℕ} {run other : StyleRun} {rest : List (StyleRun × StyleRun)} {scan : SpanScan}

theorem scanRuns_placed (hplaced : run.cells = other.cells ∧ run.bytes = other.bytes) :
    scanRuns mine theirs i ((run, other) :: rest) scan = scanRuns mine theirs (i + 1) rest
      (if run.style ≠ other.style ∨
          mine.get? scan.byte (scan.byte + run.bytes) ≠ theirs.get? scan.byte (scan.byte + run.bytes) then
        ⟨some (scan.first.getD i), i + 1, scan.byte + run.bytes, scan.aligned⟩
      else ⟨scan.first, scan.last, scan.byte + run.bytes, scan.aligned⟩) := by
  simp only [scanRuns, hplaced, and_self, not_true_eq_false, false_or, if_false]
  split_ifs <;> rfl

theorem scanRuns_moved (hmoved : ¬ (run.cells = other.cells ∧ run.bytes = other.bytes)) :
    scanRuns mine theirs i ((run, other) :: rest) scan =
      ⟨some (scan.first.getD i), i + 1, scan.byte, false⟩ := by
  simp only [scanRuns, hmoved, not_false_eq_true, true_or, if_true]

end

theorem ScannedTo.step {i : ℕ} {scan : SpanScan} (h : ScannedTo segs segs' i scan) {s s' : Segment}
    (hs : segs[i]? = some s) (hs' : segs'[i]? = some s') (hcells : s.cells = s'.cells)
    (hbytes : s.text.byteLen = s'.text.byteLen) {first : Option ℕ} {last : ℕ}
    (hdiff : s = s' ∧ first = scan.first ∧ last = scan.last ∨ first = some (scan.first.getD i) ∧ last = i + 1) :
    ScannedTo segs segs' (i + 1) ⟨first, last, scan.byte + s.text.byteLen, scan.aligned⟩ := by
  obtain ⟨hi, -⟩ := List.getElem?_eq_some_iff.mp hs
  obtain ⟨hi', -⟩ := List.getElem?_eq_some_iff.mp hs'
  have htake : segs.take (i + 1) = segs.take i ++ [s] := by rw [List.take_add_one, hs]; rfl
  have htake' : segs'.take (i + 1) = segs'.take i ++ [s'] := by rw [List.take_add_one, hs']; rfl
  have hle := h.first_le
  have hlast := h.last
  refine ⟨hi, hi', ?_, ?_, ?_, ?_, ?_, ?_⟩
  · rw [htake, htake', List.map_append, List.map_append, h.placed]
    simp [hcells, hbytes]
  · rw [htake, flat_append, Text.byteLen_append, h.byte]
    simp
  · rcases hdiff with ⟨-, -, rfl⟩ | ⟨-, rfl⟩
    · exact hlast.trans (Nat.le_succ i)
    · exact le_rfl
  · rcases hdiff with ⟨rfl, rfl, -⟩ | ⟨rfl, -⟩
    · cases hfirst : scan.first with
      | none =>
        have hf := h.first
        rw [hfirst, Option.getD_none] at hf
        rw [Option.getD_none, htake, htake', hf]
      | some f =>
        have hf := h.first
        rwa [hfirst] at hf
    · exact h.first
  · rcases hdiff with ⟨-, rfl, -⟩ | ⟨rfl, -⟩
    · cases hfirst : scan.first with
      | none => exact le_rfl
      | some f =>
        rw [hfirst] at hle
        exact hle.trans (Nat.le_succ i)
    · exact hle.trans (Nat.le_succ i)
  · intro j hj hji
    rcases hdiff with ⟨rfl, -, rfl⟩ | ⟨-, rfl⟩
    · rcases Nat.lt_succ_iff_lt_or_eq.mp hji with hlt | rfl
      · exact h.behind j hj hlt
      · rw [hs, hs']
    · exact absurd hji (Nat.not_lt.mpr hj)

/-- The comparison walks every run both rows have, or stops at one whose extent
changed with everything before the first difference equal. -/
theorem scanRuns_spec (hrow : row.Tiled segs tail) (hprev : previous.Tiled segs' tail') (n : ℕ) {i : ℕ}
    {scan : SpanScan} (h : ScannedTo segs segs' i scan) (hn : min segs.length segs'.length = i + n) :
    (let r := scanRuns row.text previous.text i ((row.runs.zip previous.runs).drop i) scan
    ScannedTo segs segs' (i + n) r ∧ r.aligned = scan.aligned ∨
      r.aligned = false ∧ ∃ f, r.first = some f ∧ f ≤ segs.length ∧ segs.take f = segs'.take f) := by
  have hzip : row.runs.zip previous.runs = (segs.zip segs').map fun p => (p.1.run, p.2.run) := by
    rw [hrow.runs, hprev.runs, List.zip_map]
    rfl
  induction n generalizing i scan with
  | zero =>
    rw [hzip, List.drop_eq_nil_of_le (by simp; omega)]
    exact .inl ⟨h, rfl⟩
  | succ n ih =>
    have hi : i < segs.length := by omega
    have hi' : i < segs'.length := by omega
    obtain ⟨s, hs⟩ : ∃ s, segs[i]? = some s := ⟨_, List.getElem?_eq_getElem hi⟩
    obtain ⟨s', hs'⟩ : ∃ s, segs'[i]? = some s := ⟨_, List.getElem?_eq_getElem hi'⟩
    have hdrop : (row.runs.zip previous.runs).drop i =
        (s.run, s'.run) :: (row.runs.zip previous.runs).drop (i + 1) := by
      rw [hzip, List.drop_eq_getElem_cons (by simp; omega)]
      simp [List.getElem?_eq_some_iff.mp hs |>.2, List.getElem?_eq_some_iff.mp hs' |>.2]
    rw [hdrop]
    by_cases hplaced : s.cells = s'.cells ∧ s.text.byteLen = s'.text.byteLen
    · have hbyte' : scan.byte = (flat (segs'.take i)).byteLen := h.byte.trans (placed_sums h.placed).2
      have hmine : row.text.get? scan.byte (scan.byte + s.run.bytes) = some s.text := h.byte ▸ hrow.get?_seg hs
      have htheirs : previous.text.get? scan.byte (scan.byte + s.run.bytes) = some s'.text := by
        have := hprev.get?_seg hs'
        rwa [← hbyte', ← hplaced.2] at this
      have hn' : min segs.length segs'.length = i + 1 + n := by omega
      rw [scanRuns_placed hplaced, hmine, htheirs, show i + (n + 1) = i + 1 + n by omega]
      by_cases hsame : s = s'
      · rw [if_neg (by simp [hsame])]
        exact ih (h.step hs hs' hplaced.1 hplaced.2 (.inl ⟨hsame, rfl, rfl⟩)) hn'
      · have hdiff : s.run.style ≠ s'.run.style ∨ some s.text ≠ some s'.text := by
          by_contra hcon
          push Not at hcon
          cases s
          cases s'
          simp_all [Segment.run]
        rw [if_pos hdiff]
        exact ih (h.step hs hs' hplaced.1 hplaced.2 (.inr ⟨rfl, rfl⟩)) hn'
    · rw [scanRuns_moved hplaced]
      exact .inr ⟨rfl, _, rfl, h.first_le.trans h.le, h.first⟩

/-- The comparison ends in one of three ways: rows that paint the same, a range
up to the last run behind equal runs, or a range with equal runs on both sides. -/
inductive Compared (row previous : RowFrame) (segs segs' : List Segment) (tail tail' : Text) :
    Option (ℕ × ℕ) → Prop
  | same : segs = segs' → tail.trimEnd = tail'.trimEnd → row.cells = previous.cells →
      Compared row previous segs segs' tail tail' none
  | toEnd {first : ℕ} : first ≤ segs.length → segs.take first = segs'.take first →
      Compared row previous segs segs' tail tail' (some (first, segs.length))
  | inner {first last : ℕ} : first ≤ last → last ≤ segs.length → segs.take first = segs'.take first →
      segs.drop last = segs'.drop last → (flat (segs.take last)).byteLen = (flat (segs'.take last)).byteLen →
      tail.trimEnd = tail'.trimEnd → row.cells = previous.cells →
      Compared row previous segs segs' tail tail' (some (first, last))

theorem changedSpan_compared (hrow : row.Tiled segs tail) (hprev : previous.Tiled segs' tail') :
    Compared row previous segs segs' tail tail' (row.changedSpan previous) := by
  have hcommon : min row.runs.length previous.runs.length = min segs.length segs'.length := by
    rw [hrow.length, hprev.length]
  have hstart : ScannedTo segs segs' 0 ⟨none, 0, 0, decide (row.runs.length = previous.runs.length)⟩ :=
    ⟨Nat.zero_le _, Nat.zero_le _, rfl, rfl, le_rfl, rfl, le_rfl, fun j _ hj => absurd hj (Nat.not_lt_zero j)⟩
  have hspec := scanRuns_spec hrow hprev _ hstart (Nat.zero_add _).symm
  rw [List.drop_zero, Nat.zero_add] at hspec
  unfold changedSpan
  set r := scanRuns row.text previous.text 0 (row.runs.zip previous.runs)
    ⟨none, 0, 0, decide (row.runs.length = previous.runs.length)⟩
  rw [hcommon]
  -- Whatever the reason, a range that runs to the last run starts behind equal runs.
  have hend : ∀ f, f ≤ segs.length → segs.take f = segs'.take f →
      Compared row previous segs segs' tail tail' (some (f, max row.runs.length f)) := by
    intro f hf htake
    rw [hrow.length, max_eq_left hf]
    exact .toEnd hf htake
  obtain ⟨hscan, haligned⟩ | ⟨hmoved, f, hfirst, hf, htake⟩ := hspec
  · have hle : r.first.getD (min segs.length segs'.length) ≤ segs.length :=
      hscan.first_le.trans (min_le_left _ _)
    dsimp only
    split_ifs with hcond
    · exact hend _ hle hscan.first
    · push Not at hcond
      obtain ⟨hal, hcells, htails⟩ := hcond
      have hlen : segs.length = segs'.length := by
        rw [haligned, decide_eq_true_eq, hrow.length, hprev.length] at hal
        exact hal
      have hmin : min segs.length segs'.length = segs.length := by omega
      rw [hmin] at hscan
      have htails : tail.trimEnd = tail'.trimEnd := by
        have hb : r.byte = (flat segs).byteLen := by rw [hscan.byte, List.take_length]
        have hb' : r.byte = (flat segs').byteLen := by
          have := (placed_sums hscan.placed).2
          rw [hlen, List.take_length] at this
          rw [hb, ← this, ← hlen, List.take_length]
        rw [hb, hrow.get?_tail, ← hb, hb', hprev.get?_tail, Option.some.injEq] at htails
        exact htails
      cases hfirst : r.first with
      | none =>
        have htake := hscan.first
        rw [hfirst, Option.getD_none, List.take_length, hlen, List.take_length] at htake
        exact .same htake htails hcells
      | some f =>
        have hf := hscan.first_le
        have htake := hscan.first
        rw [hfirst, Option.getD_some] at hf htake
        refine .inner (le_max_right _ _) (max_le hscan.last hf) htake ?_ ?_ htails hcells
        · apply List.ext_getElem?
          intro j
          rw [List.getElem?_drop, List.getElem?_drop]
          rcases Nat.lt_or_ge (max r.last f + j) segs.length with hj | hj
          · exact hscan.behind _ (le_max_left _ _ |>.trans (Nat.le_add_right _ _)) hj
          · rw [List.getElem?_eq_none hj, List.getElem?_eq_none (hlen ▸ hj)]
        · have := congrArg (List.take (max r.last f)) hscan.placed
          rw [← List.map_take, ← List.map_take, List.take_take, List.take_take,
            min_eq_left (max_le hscan.last hf)] at this
          exact (placed_sums this).2
  · have hcond : ¬ r.aligned = true := by rw [hmoved]; nofun
    dsimp only
    rw [if_pos (Or.inl hcond), hfirst]
    exact hend f hf htake

theorem paint_eq_of_changedSpan_none (hrow : row.Tiles) (hprev : previous.Tiles)
    (h : row.changedSpan previous = none) : previous.paint = row.paint := by
  obtain ⟨segs, tail, hrow⟩ := tiles_iff.mp hrow
  obtain ⟨segs', tail', hprev⟩ := tiles_iff.mp hprev
  have hcompared := changedSpan_compared hrow hprev
  rw [h] at hcompared
  obtain ⟨rfl, htail, hcells⟩ := hcompared
  rw [hrow.paint_eq, hprev.paint_eq, htail, hcells]

section Patched

variable {held : RowFrame} {first last : ℕ}

theorem Tiled.get?_take (h : held.Tiled segs tail) (i : ℕ) :
    held.text.get? 0 (flat (segs.take i)).byteLen = some (flat (segs.take i)) := by
  refine Text.get?_eq_some.mpr ⟨[], flat (segs.drop i) ++ tail, ?_, rfl, by simp⟩
  rw [h.text, List.nil_append, ← List.append_assoc, ← flat_append, List.take_append_drop]

theorem Tiled.get?_drop (h : held.Tiled segs tail) (i : ℕ) :
    held.text.get? (flat (segs.take i)).byteLen held.text.byteLen = some (flat (segs.drop i) ++ tail) := by
  have hsplit : held.text = flat (segs.take i) ++ (flat (segs.drop i) ++ tail) := by
    rw [h.text, ← List.append_assoc, ← flat_append, List.take_append_drop]
  refine Text.get?_eq_some.mpr ⟨flat (segs.take i), [], by rw [hsplit, List.append_nil], rfl, ?_⟩
  rw [hsplit, Text.byteLen_append _ (flat (segs.drop i) ++ tail)]

theorem Tiled.patched_last (hrow : row.Tiled segs tail) (hheld : held.Tiled segs' tail')
    (hf : first ≤ segs.length) (htake : segs.take first = segs'.take first) :
    held.patched row (first, row.runs.length) true = row.paint := by
  have hcells : cellsOf (segs.take first) ≤ row.cells := by
    have := cellsOf_append (segs.take first) (segs.drop first)
    rw [List.take_append_drop] at this
    have := hrow.cells
    omega
  simp only [patched, hrow.spanChunk_last hf, htake, hheld.get?_take, Option.getD_some, if_true, List.append_nil]
  rw [hrow.paint_eq, hheld.runs, ← List.map_take, ← htake, ← List.map_append, List.take_append_drop,
    ← List.append_assoc, ← flat_append, List.take_append_drop, Nat.add_sub_cancel' hcells]

theorem Tiled.patched_inner (hrow : row.Tiled segs tail) (hheld : held.Tiled segs' tail.trimEnd)
    (hf : first ≤ last) (hl : last < segs.length) (htake : segs.take first = segs'.take first)
    (hdrop : segs.drop last = segs'.drop last)
    (hbytes : (flat (segs.take last)).byteLen = (flat (segs'.take last)).byteLen) (hcells : row.cells = held.cells) :
    held.patched row (first, last) false = row.paint := by
  have hsplit : segs.take first ++ (segs.take last).drop first = segs.take last := by
    have := List.take_append_drop first (segs.take last)
    rwa [List.take_take, min_eq_left hf] at this
  have hlen : first + (((segs.take last).drop first).map Segment.run).length = last := by
    simp only [List.length_map, List.length_drop, List.length_take]
    omega
  have hpast : (flat (segs.take first)).byteLen + (flat ((segs.take last).drop first)).byteLen =
      (flat (segs'.take last)).byteLen := by
    rw [← hbytes, ← Text.byteLen_append, ← flat_append, hsplit]
  simp only [patched, hrow.spanChunk_inner hf hl, hpast, hheld.get?_drop, Option.getD_some, Bool.false_eq_true,
    if_false, hlen, ← hcells]
  rw [htake, hheld.get?_take, Option.getD_some, ← htake, ← flat_append, hsplit, ← hdrop, ← List.append_assoc,
    ← flat_append, List.take_append_drop, hheld.runs, ← List.map_take, ← List.map_drop, ← htake, ← List.map_append,
    hsplit, ← hdrop, ← List.map_append, List.take_append_drop, hrow.paint_eq]

end Patched

/-- The range a row changed in, laid over the row it changed from, paints the
row; the rest of the line is erased when the range reaches the last run. -/
theorem patched_changedSpan (hrow : row.Tiles) (hprev : previous.Tiles) {runs : ℕ × ℕ}
    (h : row.changedSpan previous = some runs) :
    previous.paint.patched row runs (decide (runs.2 = row.runs.length)) = row.paint := by
  obtain ⟨segs, tail, hrow⟩ := tiles_iff.mp hrow
  obtain ⟨segs', tail', hprev⟩ := tiles_iff.mp hprev
  have hcompared := changedSpan_compared hrow hprev
  rw [h] at hcompared
  rcases hcompared with _ | ⟨hf, htake⟩ | ⟨hfl, hl, htake, hdrop, hbytes, htail, hcells⟩
  · rw [← hrow.length, decide_eq_true rfl]
    exact hrow.patched_last hprev.paint hf htake
  · rename_i first last
    rcases hl.eq_or_lt with rfl | hl
    · rw [← hrow.length, decide_eq_true rfl]
      exact hrow.patched_last hprev.paint hfl htake
    · rw [decide_eq_false (by rw [hrow.length]; exact hl.ne)]
      exact hrow.patched_inner (htail ▸ hprev.paint) hfl hl htake hdrop hbytes hcells

end Scan

end RowFrame

end Braid.Screen
