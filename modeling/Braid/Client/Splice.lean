import Braid.Screen.Cut

/-! Laying a span over the row a client holds. A span names where it lands as a
column and a byte, and both must be one run boundary of the row. -/

namespace Braid.Client

open Foundation Screen

/-- The run that starts at column `col` and byte `byte`, if the runs before it
end there; `cells` and `start` are where the runs so far end. -/
def boundaryFrom (col byte : ℕ) : List StyleRun → ℕ → ℕ → ℕ → Option ℕ
  | [], index, cells, start => if cells = col ∧ start = byte then some index else none
  | run :: runs, index, cells, start =>
    if cells = col ∧ start = byte then some index
    else if col < cells ∨ byte < start then none
    else if u16Max < cells + run.cells then none
    else boundaryFrom col byte runs (index + 1) (cells + run.cells) (start + run.bytes)

def boundary (row : RowFrame) (col byte : ℕ) : Option ℕ :=
  if row.text.isBoundary byte then boundaryFrom col byte row.runs 0 0 0 else none

/-- The row with a span laid over it. -/
def spliceInto (row : RowFrame) (span : RowSpan) : Option RowFrame := do
  let frame := span.frame
  let first ← boundary row span.col span.byte
  let pastCol := span.col + frame.cells
  guard (pastCol ≤ u16Max)
  let pastByte := span.byte + frame.text.byteLen
  -- An erase is the one case an empty span carries information.
  let stop := if span.clearTail then none else boundary row pastCol pastByte
  match stop with
  | some stop =>
    let head ← row.text.get? 0 span.byte
    let tail ← row.text.get? pastByte row.text.byteLen
    return ⟨head ++ frame.text ++ tail, row.runs.take first ++ frame.runs ++ row.runs.drop stop, row.cells⟩
  | none =>
    if first = 0 ∧ span.byte = 0 then return frame
    else
      let head ← row.text.get? 0 span.byte
      return ⟨head ++ frame.text, row.runs.take first ++ frame.runs, pastCol⟩

/-- A boundary is a run index at which both the columns and the bytes so far are the ones named. -/
theorem boundaryFrom_eq_some {col byte : ℕ} {runs : List StyleRun} {index cells start i : ℕ}
    (h : boundaryFrom col byte runs index cells start = some i) :
    index ≤ i ∧ i - index ≤ runs.length ∧ cells + ((runs.take (i - index)).map StyleRun.cells).sum = col ∧
      start + ((runs.take (i - index)).map StyleRun.bytes).sum = byte := by
  induction runs generalizing index cells start with
  | nil =>
    rw [boundaryFrom] at h
    split_ifs at h with hhere
    cases h
    simpa using hhere
  | cons run runs ih =>
    rw [boundaryFrom] at h
    split_ifs at h with hhere
    · cases h
      simpa using hhere
    · obtain ⟨hle, hlen, hcol, hbyte⟩ := ih h
      obtain ⟨n, hn⟩ : ∃ n, i - index = n + 1 := ⟨i - index - 1, by omega⟩
      have hn' : i - (index + 1) = n := by omega
      rw [hn'] at hlen hcol hbyte
      refine ⟨by omega, by rw [hn, List.length_cons]; omega, ?_, ?_⟩
      · rw [hn, List.take_succ_cons, List.map_cons, List.sum_cons, ← hcol]
        omega
      · rw [hn, List.take_succ_cons, List.map_cons, List.sum_cons, ← hbyte]
        omega

theorem boundary_spec {row : RowFrame} {col byte i : ℕ} (h : boundary row col byte = some i) :
    row.text.isBoundary byte = true ∧ i ≤ row.runs.length ∧ ((row.runs.take i).map StyleRun.cells).sum = col ∧
      ((row.runs.take i).map StyleRun.bytes).sum = byte := by
  unfold boundary at h
  split_ifs at h with hbyte
  obtain ⟨-, hi, hcol, hbyte'⟩ := boundaryFrom_eq_some h
  rw [Nat.zero_add] at hcol hbyte'
  exact ⟨hbyte, hi, hcol, hbyte'⟩

/-- How a span is laid over a row: between two boundaries, as the whole row, or
from a boundary on. -/
inductive Spliced (row : RowFrame) (span : RowSpan) : RowFrame → Prop
  | inner {first stop : ℕ} {head tail : Text} (hfirst : boundary row span.col span.byte = some first)
      (hclear : span.clearTail = false)
      (hstop : boundary row (span.col + span.frame.cells) (span.byte + span.frame.text.byteLen) = some stop)
      (hhead : row.text.get? 0 span.byte = some head)
      (htail : row.text.get? (span.byte + span.frame.text.byteLen) row.text.byteLen = some tail) :
      Spliced row span ⟨head ++ span.frame.text ++ tail,
        row.runs.take first ++ span.frame.runs ++ row.runs.drop stop, row.cells⟩
  | frame (hfirst : boundary row span.col span.byte = some 0) (hbyte : span.byte = 0) : Spliced row span span.frame
  | last {first : ℕ} {head : Text} (hfirst : boundary row span.col span.byte = some first)
      (hhead : row.text.get? 0 span.byte = some head) :
      Spliced row span ⟨head ++ span.frame.text, row.runs.take first ++ span.frame.runs, span.col + span.frame.cells⟩

theorem spliceInto_spliced {row new : RowFrame} {span : RowSpan} (h : spliceInto row span = some new) :
    Spliced row span new := by
  obtain ⟨first, hfirst, h⟩ := Option.bind_eq_some_iff.mp h
  obtain ⟨-, -, h⟩ := Option.bind_eq_some_iff.mp h
  dsimp only at h
  split at h
  · rename_i stop hstop
    obtain ⟨head, hhead, h⟩ := Option.bind_eq_some_iff.mp h
    obtain ⟨tail, htail, h⟩ := Option.bind_eq_some_iff.mp h
    cases h
    split_ifs at hstop with hclear
    exact .inner hfirst (Bool.eq_false_iff.mpr hclear) hstop hhead htail
  · split_ifs at h with hzero
    · cases h
      exact .frame (hzero.1 ▸ hfirst) hzero.2
    · obtain ⟨head, hhead, h⟩ := Option.bind_eq_some_iff.mp h
      cases h
      exact .last hfirst hhead

end Braid.Client
