import Braid.Client.Walk
import Braid.Foundation.Extent

/-! On a row whose painted text is ASCII a column is a byte. Every cluster is
then one character of one column, the walk over two such rows stays in step, and
the patch it finds is the extent of the columns that differ; comparing bytes and
run boundaries finds the same extent. A walk reads the style of its row's first
run in the first column, whether or not that run has any text. -/

namespace Braid.Client

open Foundation Screen

/-! ### ASCII text -/

theorem utf8Size_of_ascii {c : Char} (h : c.toNat < 128) : c.utf8Size = 1 := by
  have hval : c.val ≤ 127 := by
    exact Nat.lt_succ_iff.mp h
  exact if_pos hval

theorem isAscii_iff {text : Text} : isAscii text = true ↔ ∀ c ∈ text, c.toNat < 128 := by
  simp [isAscii]

theorem byteLen_of_ascii {text : Text} (h : isAscii text = true) : text.byteLen = text.length := by
  induction text with
  | nil => rfl
  | cons c text ih =>
    obtain ⟨hc, htext⟩ := List.forall_mem_cons.mp (isAscii_iff.mp h)
    rw [Text.byteLen_cons, utf8Size_of_ascii hc, ih (isAscii_iff.mpr htext), List.length_cons, Nat.add_comm]

theorem CharWidths.leadCells_of_ascii (w : CharWidths) {c : Char} (h : c.toNat < 128) : w.leadCells c = 1 := by
  obtain ⟨h0, h2⟩ := w.ascii c h
  unfold leadCells
  split
  · exact absurd ‹_› h0
  · exact absurd ‹_› h2
  · rfl

theorem CharWidths.textCells_fst (w : CharWidths) (text : Text) : (w.textCells text).1 = (text.map w.leadCells).sum := by
  unfold textCells
  split_ifs with h
  · rw [byteLen_of_ascii h]
    dsimp only
    induction text with
    | nil => rfl
    | cons c text ih =>
      obtain ⟨hc, htext⟩ := List.forall_mem_cons.mp (isAscii_iff.mp h)
      rw [List.length_cons, ih (isAscii_iff.mpr htext), List.map_cons, List.sum_cons, w.leadCells_of_ascii hc,
        Nat.add_comm]
  · rfl

/-! ### The style of a byte -/

def styleAt : List StyleRun → ℕ → CellStyle
  | [], _ => {}
  | run :: runs, byte => if byte < run.bytes then run.style else styleAt runs (byte - run.bytes)

def bytesOf (runs : List StyleRun) : ℕ := (runs.map StyleRun.bytes).sum

def Passing (all : List StyleRun) (byte : ℕ) (runs : List StyleRun) (runEnd : ℕ) : Prop :=
  ∃ passed, all = passed ++ runs ∧ runEnd = bytesOf passed + runs.head?.elim 0 StyleRun.bytes ∧ bytesOf passed ≤ byte

def Covering (all : List StyleRun) (byte : ℕ) (runs : List StyleRun) (runEnd : ℕ) : Prop :=
  Passing all byte runs runEnd ∧ (runs ≠ [] → byte < runEnd)

theorem styleAt_append {passed runs : List StyleRun} {byte : ℕ} (h : bytesOf passed ≤ byte) :
    styleAt (passed ++ runs) byte = styleAt runs (byte - bytesOf passed) := by
  induction passed generalizing byte with
  | nil => rfl
  | cons run passed ih =>
    have hsum : bytesOf (run :: passed) = run.bytes + bytesOf passed := by simp [bytesOf]
    rw [List.cons_append, styleAt, if_neg (by omega), ih (by omega)]
    congr 1
    omega

theorem styleAt_of_le {runs : List StyleRun} {byte : ℕ} (h : bytesOf runs ≤ byte) : styleAt runs byte = {} := by
  have := @styleAt_append runs [] byte h
  rwa [List.append_nil, styleAt] at this

theorem Covering.style {all runs : List StyleRun} {byte runEnd : ℕ} (h : Covering all byte runs runEnd) :
    runs.head?.elim {} StyleRun.style = styleAt all byte := by
  obtain ⟨⟨passed, rfl, rfl, hle⟩, hlt⟩ := h
  rw [styleAt_append hle]
  cases runs with
  | nil => rfl
  | cons run runs =>
    have := hlt (List.cons_ne_nil _ _)
    simp only [List.head?_cons, Option.elim_some] at this
    rw [styleAt, if_pos (by omega)]
    rfl

theorem Covering.styleAt_eq {all runs : List StyleRun} {byte runEnd : ℕ} (h : Covering all byte runs runEnd) {b : ℕ}
    (hb : byte ≤ b) (hb' : runs ≠ [] → b < runEnd) : styleAt all b = styleAt all byte := by
  rw [← h.style]
  obtain ⟨⟨passed, hall, hend, hle⟩, -⟩ := h
  exact (Covering.style ⟨⟨passed, hall, hend, hle.trans hb⟩, hb'⟩).symm

theorem passing_new (runs : List StyleRun) : Passing runs 0 runs (runs.head?.elim 0 StyleRun.bytes) :=
  ⟨[], rfl, (Nat.zero_add _).symm, le_rfl⟩

theorem covering_new {runs : List StyleRun} (h : ∀ run ∈ runs, 0 < run.bytes) :
    Covering runs 0 runs (runs.head?.elim 0 StyleRun.bytes) := by
  refine ⟨passing_new runs, fun hne => ?_⟩
  cases runs with
  | nil => exact absurd rfl hne
  | cons run runs => exact h run List.mem_cons_self

theorem Passing.seek {all : List StyleRun} {byte byte' : ℕ} {runs : List StyleRun} {runEnd : ℕ}
    (h : Passing all byte runs runEnd) (hle : byte ≤ byte') :
    Covering all byte' (seekRuns byte' runs runEnd).1 (seekRuns byte' runs runEnd).2 := by
  obtain ⟨passed, hall, hend, hpassed⟩ := h
  replace hpassed : bytesOf passed ≤ byte' := hpassed.trans hle
  induction runs generalizing passed runEnd with
  | nil => exact ⟨⟨passed, hall, hend, hpassed⟩, fun hne => absurd rfl hne⟩
  | cons run runs ih =>
    rw [seekRuns]
    split_ifs with hdone
    · have hsum : bytesOf (passed ++ [run]) = bytesOf passed + run.bytes := by simp [bytesOf]
      simp only [List.head?_cons, Option.elim_some] at hend
      exact ih (passed ++ [run]) (by simpa using hall) (congrArg (· + _) (hend.trans hsum.symm)) (by omega)
    · exact ⟨⟨passed, hall, hend, hpassed⟩, fun _ => Nat.lt_of_not_le hdone⟩

/-! ### Rows of which a column is a byte -/

/-- A row whose painted text is ASCII, of `cells` columns. -/
structure AsciiRow (row : RowFrame) (cells : ℕ) : Prop where
  ascii : isAscii row.whole.text = true
  length : row.whole.text.length = cells
  painted : row.paintedBytes = cells
  runs : bytesOf row.runs ≤ cells

/-- A character in its style. -/
abbrev Glyph := Char × CellStyle

def Glyph.cluster (glyph : Glyph) : Cluster := ⟨[glyph.1], 1, glyph.2⟩

/-- What the walk of an ASCII row reads in a column. -/
def readAt (row : RowFrame) (k : ℕ) : Glyph :=
  (row.whole.text.getD k ' ',
    if k = 0 ∧ row.whole.text ≠ [] then row.runs.head?.elim {} StyleRun.style else styleAt row.runs k)

theorem readAt_of_nonempty {row : RowFrame} (h : ∀ run ∈ row.runs, 0 < run.bytes) (k : ℕ) :
    readAt row k = (row.whole.text.getD k ' ', styleAt row.runs k) := by
  unfold readAt
  split_ifs with hk
  · rw [hk.1, (covering_new h).style]
  · rfl

section Narrow

variable {w : CharWidths} {row old new : RowFrame} {cells : ℕ}

theorem peek_of_ascii {walk : Cells} (h : isAscii walk.rest = true) {c : Char} {rest : Text}
    (hrest : walk.rest = c :: rest) : walk.peek w = ⟨[c], 1, walk.runs.head?.elim {} StyleRun.style⟩ := by
  rw [hrest] at h
  obtain ⟨hc, hascii⟩ := List.forall_mem_cons.mp (isAscii_iff.mp h)
  have htake : rest.takeWhile (fun c => w.leadCells c = 0) = [] := by
    cases rest with
    | nil => rfl
    | cons d rest =>
      have hd := w.leadCells_of_ascii (hascii d List.mem_cons_self)
      rw [List.takeWhile_cons, hd]
      rfl
  rw [Cells.peek, hrest]
  simp only [htake, w.leadCells_of_ascii hc]

theorem ahead_of_ascii {all : List StyleRun} {walk : Cells} (h : isAscii walk.rest = true)
    (hpass : Passing all walk.byte walk.runs walk.runEnd) (k : ℕ) :
    (walk.ahead w)[k]? = walk.rest[k]?.map fun c =>
      ⟨[c], 1, if k = 0 then walk.runs.head?.elim {} StyleRun.style else styleAt all (walk.byte + k)⟩ := by
  induction hn : walk.rest.length generalizing walk k with
  | zero =>
    have hrest : walk.rest = [] := List.length_eq_zero_iff.mp hn
    rw [Cells.ahead_of_done (by simp [Cells.done, hrest]), hrest]
    rfl
  | succ n ih =>
    obtain ⟨c, rest, hrest⟩ := List.exists_cons_of_length_eq_add_one hn
    have hdone : walk.done = false := by simp [Cells.done, hrest]
    have hpeek := peek_of_ascii (w := w) h hrest
    obtain ⟨hc, hascii⟩ := List.forall_mem_cons.mp (isAscii_iff.mp (hrest ▸ h))
    have hstepRest : (walk.step w).rest = rest := by
      rw [Cells.step_rest, hpeek, hrest]
      rfl
    have hstepByte : (walk.step w).byte = walk.byte + 1 := by
      rw [Cells.step, hrest]
      simp only [hpeek, Text.byteLen_cons, Text.byteLen_nil, utf8Size_of_ascii hc]
    have hcover : Covering all (walk.step w).byte (walk.step w).runs (walk.step w).runEnd := by
      have := hpass.seek (Nat.le_succ walk.byte)
      rw [Cells.step, hrest]
      simpa only [hpeek, Text.byteLen_cons, Text.byteLen_nil, utf8Size_of_ascii hc] using this
    rw [Cells.ahead_of_not_done hdone, hrest]
    cases k with
    | zero => rw [List.getElem?_cons_zero, List.getElem?_cons_zero, hpeek]; rfl
    | succ k =>
      have hstyle : (if k = 0 then (walk.step w).runs.head?.elim {} StyleRun.style
          else styleAt all ((walk.step w).byte + k)) = styleAt all (walk.byte + (k + 1)) := by
        rw [hcover.style, hstepByte, show walk.byte + (k + 1) = walk.byte + 1 + k by omega]
        split_ifs with hk
        · rw [hk]
        · rfl
      rw [List.getElem?_cons_succ, List.getElem?_cons_succ, if_neg (Nat.succ_ne_zero k), ← hstyle, ← hstepRest]
      exact ih (hstepRest ▸ isAscii_iff.mpr hascii) hcover.1 k (by rw [hstepRest]; simpa [hrest] using hn)

section

variable (h : AsciiRow row cells)

include h

theorem AsciiRow.getElem?_clustersOf (k : ℕ) :
    (clustersOf w row)[k]? = row.whole.text[k]?.map fun _ => (readAt row k).cluster := by
  have hget := @ahead_of_ascii w _ (Cells.new row) h.ascii (passing_new row.runs) k
  refine hget.trans ?_
  change Option.map _ row.whole.text[k]? = _
  cases hk : row.whole.text[k]? with
  | none => rfl
  | some c =>
    have hne : row.whole.text ≠ [] := by
      rintro hnil
      rw [hnil] at hk
      cases hk
    simp [Glyph.cluster, readAt, Cells.new, hne, hk]

theorem AsciiRow.length_clustersOf : (clustersOf w row).length = cells := by
  have hget := h.getElem?_clustersOf (w := w)
  rw [← h.length]
  apply le_antisymm
  · by_contra hcon
    have := hget row.whole.text.length
    rw [List.getElem?_eq_getElem (Nat.lt_of_not_le hcon)] at this
    simp at this
  · by_contra hcon
    have := hget (clustersOf w row).length
    simp [Nat.lt_of_not_le hcon] at this

theorem AsciiRow.getD_clustersOf (k : ℕ) :
    (clustersOf w row).getD k .blank = (readAt row k).cluster := by
  rw [List.getD_eq_getElem?_getD, h.getElem?_clustersOf]
  cases hk : row.whole.text[k]? with
  | some c => rfl
  | none =>
    have hle : row.whole.text.length ≤ k := List.getElem?_eq_none_iff.mp hk
    have hstyle : styleAt row.runs k = {} := styleAt_of_le (h.runs.trans (h.length ▸ hle))
    have hfirst : ¬ (k = 0 ∧ row.whole.text ≠ []) := by
      rintro ⟨rfl, hne⟩
      exact hne (List.length_eq_zero_iff.mp (Nat.le_zero.mp hle))
    rw [readAt, if_neg hfirst, hstyle, List.getD_eq_default _ _ hle]
    rfl

theorem AsciiRow.colAt (i : ℕ) : colAt (clustersOf w row) i = i := by
  induction i with
  | zero => simp [Client.colAt]
  | succ i ih => rw [colAt_succ, ih, h.getD_clustersOf]; rfl

theorem AsciiRow.byteAt (i : ℕ) : byteAt (clustersOf w row) i = min i cells := by
  induction i with
  | zero => simp [Client.byteAt]
  | succ i ih =>
    have hlength := h.length
    rw [byteAt_succ, ih, h.getElem?_clustersOf]
    rcases Nat.lt_or_ge i row.whole.text.length with hi | hi
    · have hc := isAscii_iff.mp h.ascii _ (List.getElem_mem hi)
      have hlen : Text.byteLen [row.whole.text.getD i ' '] = 1 := by
        rw [List.getD_eq_getElem _ _ hi, Text.byteLen_cons, Text.byteLen_nil, utf8Size_of_ascii hc]
      rw [List.getElem?_eq_getElem hi]
      simp only [Option.map_some, Option.elim_some, Glyph.cluster, readAt, hlen]
      omega
    · rw [List.getElem?_eq_none hi]
      simp only [Option.map_none, Option.elim_none]
      omega

end

theorem Glyph.cluster_inj {a b : Glyph} : a.cluster = b.cluster ↔ a = b := by
  constructor
  · intro h
    rw [Glyph.cluster, Glyph.cluster, Cluster.mk.injEq, List.cons.injEq] at h
    exact Prod.ext h.1.1 h.2.2
  · exact congrArg _

/-- The rows read differently in a column. -/
def Differs (old new : RowFrame) (k : ℕ) : Prop := readAt old k ≠ readAt new k

instance (old new : RowFrame) : DecidablePred (Differs old new) := fun _ => inferInstanceAs (Decidable (_ ≠ _))

/-- The patch of a row of `now` columns, from the extent of the columns that differ. -/
def spanPatch (now : ℕ) (erase : Bool) : Option ℕ × ℕ → Patch
  | (none, _) => .nothing
  | (some first, last) =>
    .columns first (min first now) (max (if erase then now else min last now) (min first now)) erase

variable {was now : ℕ}

section

variable (hold : AsciiRow old was) (hnew : AsciiRow new now) {found : Option ℕ × ℕ}
  (hfound : Extent (Differs old new) (max was now) found)

include hold hnew hfound

/-- The walk over two ASCII rows stays in step and finds the extent of their difference. -/
theorem walkBoth_ascii {erase : Bool} {fuel i : ℕ} {before after : Cells}
    {sofar : Option ℕ × ℕ} {last : ℕ} (hb : Stands w (clustersOf w old) i before)
    (ha : Stands w (clustersOf w new) i after) (hsofar : Extent (Differs old new) i sofar) (hi : i ≤ max was now)
    (herase : erase = true → sofar.1 = none) (hlast : erase = false → last = min sofar.2 now)
    (hfuel : max was now - i < fuel) :
    let result := walkBoth w erase fuel before after (sofar.1.map fun k => (k, min k now)) last
    result.1 = found.1.map (fun k => (k, min k now)) ∧ (erase = false → result.2 = min found.2 now) := by
  induction fuel generalizing i before after sofar last with
  | zero => exact absurd hfuel (Nat.not_lt_zero _)
  | succ fuel ih =>
    intro result
    have hdone : (before.done && after.done) = true ↔ max was now ≤ i := by
      rw [Bool.and_eq_true, hb.done_iff, ha.done_iff, hold.length_clustersOf, hnew.length_clustersOf]
      omega
    have hcol : before.col = after.col := by rw [hb.col, ha.col, hold.colAt, hnew.colAt]
    have hpeek : before.peek w = after.peek w ↔ ¬ Differs old new i := by
      rw [hb.peek, ha.peek, hold.getD_clustersOf, hnew.getD_clustersOf, Glyph.cluster_inj, Differs, not_not]
    by_cases hend : max was now ≤ i
    · obtain rfl : i = max was now := le_antisymm hi hend
      obtain rfl := hsofar.unique hfound
      rw [show result = (_, last) from if_pos (hdone.mpr le_rfl)]
      exact ⟨rfl, hlast⟩
    · have hresult : result = _ := if_neg (fun h => hend (hdone.mp h))
      by_cases hdiffers : Differs old new i
      · rw [if_neg (fun h => hpeek.mp h.2 hdiffers)] at hresult
        have hfirst : some (Option.getD (sofar.1.map fun k => (k, min k now)) (after.col, after.byte)) =
            (some (sofar.1.getD i)).map fun k => (k, min k now) := by
          rw [ha.col, ha.byte, hnew.colAt, hnew.byteAt]
          cases sofar.1 <;> rfl
        cases erase with
        | true =>
          rw [if_pos rfl, hfirst, herase rfl] at hresult
          rw [hresult]
          refine ⟨?_, fun h => absurd h (by decide)⟩
          rw [hsofar.first_eq hfound (herase rfl) hdiffers (Nat.lt_of_not_le hend)]
          rfl
        | false =>
          have hle : before.col ≤ after.col := hcol.le
          have hmove : (decide (after.col ≤ (before.step w).col) || (before.step w).done) = true := by
            rw [decide_eq_true, Bool.true_or]
            rw [hb.step.col, ha.col, hold.colAt, hnew.colAt]
            exact Nat.le_succ i
          rw [if_neg Bool.false_ne_true, hfirst] at hresult
          dsimp only at hresult
          rw [if_pos hle, if_pos hmove, ha.step.byte, hnew.byteAt] at hresult
          rw [hresult]
          exact ih hb.step ha.step (hsofar.take hdiffers) (by omega) (fun h => absurd h (by decide)) (fun _ => rfl)
            (by omega)
      · rw [if_pos ⟨hcol, hpeek.mpr hdiffers⟩] at hresult
        rw [hresult]
        exact ih hb.step ha.step (hsofar.skip hdiffers) (by omega) herase hlast (by omega)

theorem measuredPatch_ascii (erase : Bool) :
    measuredPatch w old new erase = spanPatch now erase found := by
  have hfuel : max was now - 0 < walkFuel old new := by
    have := (whole_text_isPrefix old).length_le
    have := (whole_text_isPrefix new).length_le
    rw [hold.length] at *
    rw [hnew.length] at *
    unfold walkFuel
    omega
  have hsofar : Extent (Differs old new) 0 (none, 0) := ⟨rfl, fun k hk => absurd hk (Nat.not_lt_zero k)⟩
  obtain ⟨hfirst, hlast⟩ := walkBoth_ascii hold hnew hfound (stands_new w old) (stands_new w new) hsofar
    (Nat.zero_le _) (fun _ : erase = true => rfl) (fun _ => (Nat.zero_min now).symm) hfuel
  obtain ⟨first, last⟩ := found
  unfold measuredPatch
  rw [Option.map_none] at hfirst hlast
  generalize walkBoth w erase (walkFuel old new) (Cells.new old) (Cells.new new) none 0 = result at hfirst hlast ⊢
  obtain ⟨place, stop⟩ := result
  cases first with
  | none =>
    obtain rfl : place = none := hfirst
    rfl
  | some first =>
    obtain rfl : place = some (first, min first now) := hfirst
    dsimp only [spanPatch]
    congr 2
    split_ifs with he
    · exact hnew.painted
    · exact hlast (Bool.eq_false_iff.mpr he)

end

end Narrow

/-! ### Comparing bytes -/

section Bytes

/-- The texts differ in a column, blanks standing for what is not painted. -/
def TextDiffers (before after : Text) (k : ℕ) : Prop := before.getD k ' ' ≠ after.getD k ' '

theorem reverse_zip {α β : Type*} {a : List α} {b : List β} (h : a.length = b.length) :
    a.reverse.zip b.reverse = (a.zip b).reverse := by
  refine List.ext_getElem (by simp) fun i h1 h2 => ?_
  simp [List.getElem_reverse, h]

theorem shared_extent (before after : Text) :
    let shared := min before.length after.length
    let common := commonPrefix (before.take shared) (after.take shared)
    Extent (TextDiffers before after) shared
      (if common < shared then (some common, shared - commonSuffix (before.take shared) (after.take shared))
       else (none, 0)) := by
  intro shared common
  have hb : (before.take shared).length = shared := List.length_take_of_le (Nat.min_le_left _ _)
  have ha : (after.take shared).length = shared := List.length_take_of_le (Nat.min_le_right _ _)
  have hsuffix : commonSuffix (before.take shared) (after.take shared) =
      (((before.take shared).zip (after.take shared)).reverse.findIdx? fun pair => pair.1 ≠ pair.2).getD shared := by
    rw [commonSuffix, hb, reverse_zip (hb.trans ha.symm)]
  have hcommon : common =
      (((before.take shared).zip (after.take shared)).findIdx? fun pair => pair.1 ≠ pair.2).getD shared := by
    change commonPrefix _ _ = _
    rw [commonPrefix, hb]
  have hlen : ((before.take shared).zip (after.take shared)).length = shared := by
    rw [List.length_zip, hb, ha, Nat.min_self]
  have hextent : Extent (TextDiffers before after) ((before.take shared).zip (after.take shared)).length _ :=
    Extent.of_list (p := fun pair => pair.1 ≠ pair.2) fun k hk => by
      simp [TextDiffers, show k < before.length by omega, show k < after.length by omega]
  rw [hlen] at hextent
  rw [hsuffix, hcommon]
  cases hfirst : ((before.take shared).zip (after.take shared)).findIdx? fun pair => pair.1 ≠ pair.2 with
  | none =>
    rw [hfirst] at hextent
    rw [Option.getD_none, if_neg (Nat.lt_irrefl _)]
    exact ⟨rfl, hextent.2⟩
  | some i =>
    rw [hfirst] at hextent
    cases hlast : ((before.take shared).zip (after.take shared)).reverse.findIdx? fun pair => pair.1 ≠ pair.2 with
    | none =>
      rw [hlast] at hextent
      exact absurd hextent.1 (Nat.not_lt_zero _)
    | some j =>
      rw [hlast] at hextent
      have hlt : i < shared := hextent.1.trans_le hextent.2.1
      rw [Option.getD_some, if_pos hlt]
      exact hextent

theorem overhang_extent (before after : Text) :
    let shared := min before.length after.length
    let overhang := if after.length < before.length then before.drop shared else after.drop shared
    Extent (fun k => TextDiffers before after (shared + k)) overhang.length
      (overhang.findIdx? (· ≠ ' '), (overhang.reverse.findIdx? (· ≠ ' ')).elim 0 (overhang.length - ·)) := by
  intro shared overhang
  refine Extent.of_list fun k hk => ?_
  unfold TextDiffers
  by_cases hlt : after.length < before.length
  · have hover : overhang = before.drop shared := if_pos hlt
    simp only [hover] at hk ⊢
    rw [List.length_drop] at hk
    rw [List.getD_eq_getElem before _ (show shared + k < before.length by omega),
      List.getD_eq_default after _ (show after.length ≤ shared + k by omega)]
    simp
  · have hover : overhang = after.drop shared := if_neg hlt
    simp only [hover] at hk ⊢
    rw [List.length_drop] at hk
    rw [List.getD_eq_getElem after _ (show shared + k < after.length by omega),
      List.getD_eq_default before _ (show before.length ≤ shared + k by omega)]
    rw [decide_eq_true_eq, List.getElem_drop]
    exact ne_comm

theorem textDifference_extent (before after : Text) :
    Extent (TextDiffers before after) (max before.length after.length) (textDifference before after) := by
  have happend := (shared_extent before after).append (overhang_extent before after)
  have hover := overhang_extent before after
  unfold textDifference
  generalize hshared : min before.length after.length = shared at happend hover ⊢
  dsimp only at happend hover ⊢
  generalize hoverhang : (if after.length < before.length then before.drop shared else after.drop shared) = overhang
    at happend hover ⊢
  have hwidth : shared + overhang.length = max before.length after.length := by
    rw [← hoverhang, ← hshared]
    split_ifs <;> rw [List.length_drop] <;> omega
  rw [hwidth] at happend
  cases hfirst : overhang.findIdx? (· ≠ ' ') with
  | none =>
    have hlast : overhang.reverse.findIdx? (· ≠ ' ') = none := by
      rw [List.findIdx?_eq_none_iff] at hfirst ⊢
      exact fun c hc => hfirst c (List.mem_reverse.mp hc)
    rw [hfirst] at happend
    rw [hlast]
    exact happend
  | some i =>
    rw [hfirst] at happend hover
    cases hlast : overhang.reverse.findIdx? (· ≠ ' ') with
    | none =>
      rw [hlast] at hover
      exact absurd hover.1 (Nat.not_lt_zero _)
    | some j =>
      rw [hlast] at happend
      exact happend

/-- The intervals between run boundaries widen the extent by the columns whose styles differ. -/
theorem walkStyles_extent {old new : List StyleRun} {D : ℕ → Prop} {width fuel start : ℕ} {before after : Runs}
    {found : Option ℕ × ℕ} (hb : Covering old start before.runs before.runEnd)
    (ha : Covering new start after.runs after.runEnd) (h : Extent D width found) (hfuel : width - start < fuel) :
    Extent (fun k => D k ∨ start ≤ k ∧ styleAt old k ≠ styleAt new k) width
      (walkStyles width fuel start before after found) := by
  induction fuel generalizing D start before after found with
  | zero => exact absurd hfuel (Nat.not_lt_zero _)
  | succ fuel ih =>
    rw [walkStyles]
    by_cases hdone : width ≤ start
    · rw [if_pos hdone]
      exact h.congr fun k hk => ⟨.inl, fun hor => hor.resolve_right fun hin => by omega⟩
    rw [if_neg hdone]
    have hbound : ∀ {all : List StyleRun} {runs : Runs}, Covering all start runs.runs runs.runEnd →
        start < runs.bound.getD width ∧ ∀ k, start ≤ k → k < runs.bound.getD width → k < width →
          styleAt all k = styleAt all start := by
      intro all runs hcover
      unfold Runs.bound
      split_ifs with hempty
      · refine ⟨Nat.lt_of_not_le hdone, fun k hk _ _ => hcover.styleAt_eq hk fun hne => ?_⟩
        exact absurd (List.isEmpty_iff.mp hempty) hne
      · have hne : runs.runs ≠ [] := fun hnil => hempty (List.isEmpty_iff.mpr hnil)
        exact ⟨hcover.2 hne, fun k hk hk' _ => hcover.styleAt_eq hk fun _ => hk'⟩
    obtain ⟨hbstart, hbsame⟩ := hbound hb
    obtain ⟨hastart, hasame⟩ := hbound ha
    generalize hstop : min (min (before.bound.getD width) (after.bound.getD width)) width = stop
    have hlt : start < stop := by omega
    have hle : stop ≤ width := by omega
    have hsame : ∀ k, start ≤ k → k < stop → (styleAt old k ≠ styleAt new k ↔ before.style ≠ after.style) := by
      intro k hk hk'
      rw [hbsame k hk (by omega) (by omega), hasame k hk (by omega) (by omega), Runs.style, Runs.style, hb.style, ha.style]
    have hseekb : Covering old stop (before.seek stop).runs (before.seek stop).runEnd := hb.1.seek hlt.le
    have hseeka : Covering new stop (after.seek stop).runs (after.seek stop).runEnd := ha.1.seek hlt.le
    dsimp only
    by_cases hstyle : before.style ≠ after.style
    · rw [if_pos hstyle]
      refine (ih hseekb hseeka (h.interval hlt hle) (by omega)).congr fun k hk => ⟨?_, ?_⟩
      · rintro ((hD | hin) | ⟨hk', hne⟩)
        · exact .inl hD
        · exact .inr ⟨hin.1, (hsame k hin.1 hin.2).mpr hstyle⟩
        · exact .inr ⟨by omega, hne⟩
      · rintro (hD | ⟨hk', hne⟩)
        · exact .inl (.inl hD)
        · rcases Nat.lt_or_ge k stop with hin | hin
          · exact .inl (.inr ⟨hk', hin⟩)
          · exact .inr ⟨hin, hne⟩
    · rw [if_neg hstyle]
      refine (ih hseekb hseeka h (by omega)).congr fun k hk => ⟨?_, ?_⟩
      · exact Or.imp_right fun hin => ⟨by omega, hin.2⟩
      · rintro (hD | ⟨hk', hne⟩)
        · exact .inl hD
        · rcases Nat.lt_or_ge k stop with hin | hin
          · exact absurd ((hsame k hk' hin).mp hne) hstyle
          · exact .inr ⟨hin, hne⟩

variable {w : CharWidths} {old new row : RowFrame} {was now cells : ℕ}

theorem AsciiRow.take_text (h : AsciiRow row cells) : row.text.take cells = row.whole.text := by
  rw [← h.length]
  exact (List.prefix_iff_eq_take.mp (whole_text_isPrefix row)).symm

/-- Comparing bytes finds the patch the walk finds. -/
theorem asciiPatch_eq (hold : AsciiRow old was) (hnew : AsciiRow new now) (holdRuns : ∀ run ∈ old.runs, 0 < run.bytes)
    (hnewRuns : ∀ run ∈ new.runs, 0 < run.bytes) (erase : Bool) :
    asciiPatch old new was now erase = measuredPatch w old new erase := by
  have htext := textDifference_extent old.whole.text new.whole.text
  rw [hold.length, hnew.length] at htext
  have hboth : Extent _ _ (walkStyles (max was now) (max was now + 1) 0 (.new old) (.new new) _) :=
    walkStyles_extent (covering_new holdRuns) (covering_new hnewRuns) htext (by omega)
  have hfound := hboth.congr (E := Differs old new) fun k _ => by
    rw [Differs, readAt_of_nonempty holdRuns, readAt_of_nonempty hnewRuns, TextDiffers]
    change _ ∨ 0 ≤ k ∧ styleAt old.runs k ≠ styleAt new.runs k ↔ ¬ (_ = _)
    rw [Prod.mk.injEq, Classical.not_and_iff_not_or_not, and_iff_right (Nat.zero_le k)]
  rw [measuredPatch_ascii hold hnew hfound, asciiPatch, hold.take_text, hnew.take_text]
  generalize walkStyles _ _ _ _ _ _ = found
  obtain ⟨first, last⟩ := found
  cases first <;> rfl

end Bytes

end Braid.Client
