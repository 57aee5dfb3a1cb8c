import Braid.Screen.Row

/-! Rows whose runs tile a prefix of their text. Such a row is a list of
segments, each a run with its own text, and an unstyled tail; what the code does
with byte offsets is then done with lists. `Tiles` is the condition as it can be
checked, `Tiled` the segments it provides. -/

namespace Braid.Screen

open Foundation

structure Segment where
  cells : ℕ
  text : Text
  style : CellStyle
  deriving DecidableEq

def Segment.run (seg : Segment) : StyleRun := ⟨seg.cells, seg.text.byteLen, seg.style⟩

def flat (segs : List Segment) : Text := segs.flatMap Segment.text

def cellsOf (segs : List Segment) : ℕ := (segs.map Segment.cells).sum

@[simp] theorem flat_append (a b : List Segment) : flat (a ++ b) = flat a ++ flat b := List.flatMap_append

@[simp] theorem flat_cons (s : Segment) (a : List Segment) : flat (s :: a) = s.text ++ flat a := List.flatMap_cons

@[simp] theorem flat_nil : flat [] = [] := rfl

@[simp] theorem cellsOf_append (a b : List Segment) : cellsOf (a ++ b) = cellsOf a + cellsOf b := by
  simp [cellsOf]

theorem sum_bytes_run (segs : List Segment) :
    ((segs.map Segment.run).map StyleRun.bytes).sum = (flat segs).byteLen := by
  induction segs with
  | nil => rfl
  | cons s segs ih =>
    rw [List.map_cons, List.map_cons, List.sum_cons, ih, flat_cons, Text.byteLen_append]
    rfl

/-- Take the text of each run off the front. -/
def carve : List StyleRun → Text → Option (List Segment × Text)
  | [], text => some ([], text)
  | run :: runs, text =>
    (text.splitAt? run.bytes).bind fun (mine, rest) =>
      (carve runs rest).map fun (segs, tail) => (⟨run.cells, mine, run.style⟩ :: segs, tail)

theorem carve_eq_some {runs : List StyleRun} {text tail : Text} {segs : List Segment} :
    carve runs text = some (segs, tail) ↔ runs = segs.map Segment.run ∧ text = flat segs ++ tail := by
  induction runs generalizing text segs with
  | nil =>
    constructor
    · rintro ⟨⟩
      exact ⟨rfl, rfl⟩
    · rintro ⟨hruns, rfl⟩
      rw [List.map_eq_nil_iff.mp hruns.symm]
      rfl
  | cons run runs ih =>
    constructor
    · intro h
      obtain ⟨⟨mine, rest⟩, hsplit, h⟩ := Option.bind_eq_some_iff.mp h
      obtain ⟨⟨segs', tail'⟩, hcarve, heq⟩ := Option.map_eq_some_iff.mp h
      cases heq
      obtain ⟨rfl, hlen⟩ := Text.splitAt?_eq_some.mp hsplit
      obtain ⟨rfl, rfl⟩ := ih.mp hcarve
      refine ⟨?_, by simp⟩
      rw [List.map_cons, List.cons.injEq]
      exact ⟨by rw [Segment.run, hlen], rfl⟩
    · rintro ⟨hruns, rfl⟩
      cases segs with
      | nil => simp at hruns
      | cons seg segs =>
        obtain ⟨rfl, rfl⟩ := List.cons.inj (hruns.trans (List.map_cons ..))
        have hcarve : carve (segs.map Segment.run) (flat segs ++ tail) = some (segs, tail) := ih.mpr ⟨rfl, rfl⟩
        have hsplit : Text.splitAt? (flat (seg :: segs) ++ tail) seg.run.bytes = some (seg.text, flat segs ++ tail) := by
          rw [flat_cons, List.append_assoc]
          exact Text.splitAt?_append _ _
        simp only [carve, hsplit, Option.bind_some, hcarve, Option.map_some]
        rfl

namespace RowFrame

/-- The runs tile a prefix of the text, on character boundaries, and a prefix of
the columns, of which there are 16 bits' worth. -/
def Tiles (row : RowFrame) : Prop :=
  (carve row.runs row.text).isSome ∧ row.styledCells ≤ row.cells ∧ row.cells ≤ u16Max

instance (row : RowFrame) : Decidable row.Tiles := by
  unfold Tiles
  infer_instance

/-- The row made of these segments and this tail. -/
structure Tiled (row : RowFrame) (segs : List Segment) (tail : Text) : Prop where
  runs : row.runs = segs.map Segment.run
  text : row.text = flat segs ++ tail
  cells : cellsOf segs ≤ row.cells
  width : row.cells ≤ u16Max

theorem tiles_iff {row : RowFrame} : row.Tiles ↔ ∃ segs tail, row.Tiled segs tail := by
  constructor
  · rintro ⟨hcarve, hcells, hwidth⟩
    obtain ⟨⟨segs, tail⟩, h⟩ := Option.isSome_iff_exists.mp hcarve
    obtain ⟨hruns, htext⟩ := carve_eq_some.mp h
    refine ⟨segs, tail, hruns, htext, ?_, hwidth⟩
    rw [styledCells, hruns, List.map_map] at hcells
    exact hcells
  · rintro ⟨segs, tail, h⟩
    refine ⟨Option.isSome_iff_exists.mpr ⟨_, carve_eq_some.mpr ⟨h.runs, h.text⟩⟩, ?_, h.width⟩
    rw [styledCells, h.runs, List.map_map]
    exact h.cells

/-- The row as it is painted: unstyled trailing blanks dropped. -/
def paint (row : RowFrame) : RowFrame := ⟨row.whole.text, row.runs, row.cells⟩

namespace Tiled

variable {row : RowFrame} {segs : List Segment} {tail : Text}

section

variable (h : row.Tiled segs tail)

include h

theorem length : row.runs.length = segs.length := by rw [h.runs, List.length_map]

theorem styledBytes : row.styledBytes = (flat segs).byteLen := by
  rw [RowFrame.styledBytes, h.runs, sum_bytes_run, h.text, Text.byteLen_append]
  omega

theorem paintedBytes :
    row.paintedBytes = (flat segs).byteLen + tail.trimEnd.byteLen := by
  have htail := Text.byteLen_le_of_isPrefix tail.trimEnd_isPrefix
  rw [RowFrame.paintedBytes, h.styledBytes, h.text, Text.trimEnd_append]
  split_ifs with hblank
  · have hsegs := Text.byteLen_le_of_isPrefix (flat segs).trimEnd_isPrefix
    rw [hblank, Text.byteLen_nil, Text.byteLen_append]
    omega
  · rw [Text.byteLen_append, Text.byteLen_append]
    omega

theorem get?_tail :
    row.text.get? (flat segs).byteLen row.paintedBytes = some tail.trimEnd := by
  obtain ⟨blanks, hblanks⟩ := tail.trimEnd_isPrefix
  refine Text.get?_eq_some.mpr ⟨flat segs, blanks, ?_, rfl, h.paintedBytes.symm⟩
  rw [h.text, List.append_assoc, hblanks]

theorem whole_text : row.whole.text = flat segs ++ tail.trimEnd := by
  obtain ⟨blanks, hblanks⟩ := tail.trimEnd_isPrefix
  have : row.text.get? 0 row.paintedBytes = some (flat segs ++ tail.trimEnd) := by
    refine Text.get?_eq_some.mpr ⟨[], blanks, ?_, rfl, ?_⟩
    · rw [h.text, List.nil_append, List.append_assoc, hblanks]
    · rw [h.paintedBytes, Text.byteLen_append, Text.byteLen_nil, Nat.zero_add]
  rw [whole, this, Option.getD_some]

theorem paint_eq :
    row.paint = ⟨flat segs ++ tail.trimEnd, segs.map Segment.run, row.cells⟩ := by
  rw [paint, h.whole_text, h.runs]

/-- Painting drops blanks of the tail and nothing else. -/
theorem paint : row.paint.Tiled segs tail.trimEnd :=
  ⟨h.runs, h.whole_text, h.cells, h.width⟩

end

end Tiled

end RowFrame

end Braid.Screen
