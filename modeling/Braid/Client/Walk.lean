import Braid.Client.Patch

/-! What the walk over two rows finds. A walk is a place in the list of its
row's clusters: the byte and the column there are sums over the clusters before
it, and past the last cluster every column is blank. The walk over two rows then
keeps three facts: before the first difference the rows show the same, since the
last difference they show the same again, and the walk of the old row is at most
two columns ahead. -/

namespace Braid.Client

open Foundation Screen

variable (w : CharWidths)

theorem CharWidths.leadCells_le (c : Char) : w.leadCells c ≤ 2 := by
  unfold leadCells
  split <;> omega

/-! ### Clusters -/

def Cells.clusters : ℕ → Cells → List Cluster
  | 0, _ => []
  | n + 1, cells => if cells.done then [] else cells.peek w :: clusters n (cells.step w)

def Cells.ahead (cells : Cells) : List Cluster := cells.clusters w cells.rest.length

variable (row : RowFrame)

def clustersOf : List Cluster := (Cells.new row).ahead w

namespace Cells

variable {w} {cells : Cells}

theorem peek_text_isPrefix : cells.done = false → (cells.peek w).text <+: cells.rest ∧ (cells.peek w).text ≠ [] := by
  intro h
  unfold peek
  cases hrest : cells.rest with
  | nil => simp [done, hrest] at h
  | cons c rest =>
    exact ⟨List.cons_prefix_cons.mpr ⟨rfl, List.takeWhile_prefix _⟩, by simp⟩

theorem step_rest : (cells.step w).rest = cells.rest.drop (cells.peek w).text.length := by
  unfold step
  cases hrest : cells.rest with
  | nil => simp
  | cons c rest => rfl

theorem step_rest_length (h : cells.done = false) : (cells.step w).rest.length < cells.rest.length := by
  have hne := (peek_text_isPrefix (w := w) h).2
  have hpos : 0 < (cells.peek w).text.length := List.length_pos_iff.mpr hne
  have hrest : 0 < cells.rest.length := by
    rw [List.length_pos_iff]
    intro hnil
    simp [done, hnil] at h
  rw [step_rest, List.length_drop]
  omega

theorem clusters_eq {n m : ℕ} {cells : Cells} (hn : cells.rest.length ≤ n) (hm : cells.rest.length ≤ m) :
    cells.clusters w n = cells.clusters w m := by
  induction n generalizing m cells with
  | zero =>
    have hdone : cells.done = true := by simpa [done] using hn
    cases m with
    | zero => rfl
    | succ m => rw [clusters, clusters, if_pos hdone]
  | succ n ih =>
    by_cases hdone : cells.done = true
    · cases m with
      | zero => simp [clusters, hdone]
      | succ m => simp [clusters, hdone]
    · have hlt := step_rest_length (w := w) (Bool.not_eq_true _ ▸ hdone)
      cases m with
      | zero => omega
      | succ m => rw [clusters, clusters, if_neg hdone, if_neg hdone, ih (m := m) (by omega) (by omega)]

theorem ahead_of_done (h : cells.done = true) : cells.ahead w = [] := by
  have : cells.rest.length = 0 := by simpa [done] using h
  rw [ahead, this, clusters]

theorem ahead_of_not_done (h : cells.done = false) : cells.ahead w = cells.peek w :: (cells.step w).ahead w := by
  have hlt := step_rest_length (w := w) h
  obtain ⟨n, hn⟩ : ∃ n, cells.rest.length = n + 1 := ⟨cells.rest.length - 1, by omega⟩
  rw [ahead, hn, clusters, if_neg (by simp [h]), clusters_eq (m := (cells.step w).rest.length) (by omega) le_rfl, ahead]

theorem ahead_eq_nil_iff : cells.ahead w = [] ↔ cells.done = true := by
  constructor
  · intro h
    by_contra hdone
    rw [ahead_of_not_done (Bool.not_eq_true _ ▸ hdone)] at h
    cases h
  · exact ahead_of_done

theorem flatMap_ahead (cells : Cells) : (cells.ahead w).flatMap Cluster.text = cells.rest := by
  induction hn : cells.rest.length using Nat.strong_induction_on generalizing cells with
  | _ n ih =>
    by_cases hdone : cells.done = true
    · rw [ahead_of_done hdone]
      simpa [done] using hdone.symm
    · rw [Bool.not_eq_true] at hdone
      obtain ⟨rest, hrest⟩ := (peek_text_isPrefix (w := w) hdone).1
      rw [ahead_of_not_done hdone, List.flatMap_cons, ih _ (hn ▸ step_rest_length hdone) _ rfl, step_rest, ← hrest,
        List.drop_left]

theorem cells_le_two {cluster : Cluster} (h : cluster ∈ cells.ahead w) : cluster.cells ≤ 2 := by
  induction hn : cells.rest.length using Nat.strong_induction_on generalizing cells with
  | _ n ih =>
    by_cases hdone : cells.done = true
    · rw [ahead_of_done hdone] at h
      cases h
    · rw [Bool.not_eq_true] at hdone
      rw [ahead_of_not_done hdone, List.mem_cons] at h
      rcases h with rfl | h
      · unfold peek
        split
        · exact Nat.le_succ 1
        · exact w.leadCells_le _
      · exact ih _ (hn ▸ step_rest_length hdone) h rfl

end Cells

/-! ### Places in a row -/

/-- Bytes and columns before the `i`-th cluster; past the last one, a blank column each. -/
def byteAt (clusters : List Cluster) (i : ℕ) : ℕ := ((clusters.take i).map fun c => c.text.byteLen).sum

def colAt (clusters : List Cluster) (i : ℕ) : ℕ :=
  ((clusters.take i).map Cluster.cells).sum + (i - clusters.length)

/-- What a column shows: a cluster, and which of its columns. -/
abbrev Column := Cluster × ℕ

def Column.blank : Column := (.blank, 0)

def columnsOf : List Cluster → ℕ → Column
  | [], _ => .blank
  | c :: rest, k => if k < c.cells then (c, k) else columnsOf rest (k - c.cells)

section Places

variable {clusters : List Cluster} {i j k : ℕ}

theorem byteAt_succ : byteAt clusters (i + 1) = byteAt clusters i + (clusters[i]?.elim 0 fun c => c.text.byteLen) := by
  rw [byteAt, List.take_add_one, List.map_append, List.sum_append, ← byteAt]
  cases clusters[i]? <;> simp

theorem colAt_succ : colAt clusters (i + 1) = colAt clusters i + (clusters.getD i .blank).cells := by
  rw [colAt, List.take_add_one, List.map_append, List.sum_append, colAt, List.getD_eq_getElem?_getD]
  rcases Nat.lt_or_ge i clusters.length with hi | hi
  · rw [List.getElem?_eq_getElem hi]
    simp only [Option.toList_some, List.map_cons, List.map_nil, List.sum_cons, List.sum_nil, Option.getD_some]
    omega
  · rw [List.getElem?_eq_none hi]
    simp only [Option.toList_none, List.map_nil, List.sum_nil, Option.getD_none, Cluster.blank]
    omega

theorem byteAt_mono (clusters : List Cluster) (h : i ≤ j) : byteAt clusters i ≤ byteAt clusters j := by
  induction j, h using Nat.le_induction with
  | base => exact le_rfl
  | succ j _ ih => rw [byteAt_succ]; omega

theorem byteAt_of_le (h : clusters.length ≤ i) : byteAt clusters i = byteAt clusters clusters.length := by
  rw [byteAt, byteAt, List.take_of_length_le h, List.take_length]

theorem colAt_mono (clusters : List Cluster) (h : i ≤ j) : colAt clusters i ≤ colAt clusters j := by
  induction j, h using Nat.le_induction with
  | base => exact le_rfl
  | succ j _ ih => rw [colAt_succ]; omega

theorem columnsOf_colAt (clusters : List Cluster) (i d : ℕ) :
    columnsOf clusters (colAt clusters i + d) = columnsOf (clusters.drop i) d := by
  induction clusters generalizing i with
  | nil => simp [columnsOf]
  | cons c rest ih =>
    cases i with
    | zero => simp [colAt]
    | succ i =>
      have hcol : colAt (c :: rest) (i + 1) = c.cells + colAt rest i := by
        simp only [colAt, List.take_succ_cons, List.map_cons, List.sum_cons, List.length_cons]
        omega
      rw [hcol, columnsOf, if_neg (by omega), List.drop_succ_cons, ← ih]
      congr 1
      omega

theorem columnsOf_of_le (h : colAt clusters clusters.length ≤ k) : columnsOf clusters k = .blank := by
  obtain ⟨d, rfl⟩ := Nat.exists_eq_add_of_le h
  rw [columnsOf_colAt, List.drop_length, columnsOf]

theorem columnsOf_cluster (hk : colAt clusters i ≤ k) (hk' : k < colAt clusters (i + 1)) :
    columnsOf clusters k = (clusters.getD i .blank, k - colAt clusters i) := by
  obtain ⟨d, rfl⟩ := Nat.exists_eq_add_of_le hk
  rw [colAt_succ] at hk'
  rw [columnsOf_colAt, Nat.add_sub_cancel_left]
  rcases Nat.lt_or_ge i clusters.length with hi | hi
  · rw [List.getD_eq_getElem _ _ hi] at hk' ⊢
    rw [List.drop_eq_getElem_cons hi, columnsOf, if_pos (by omega)]
  · rw [List.getD_eq_default _ _ hi] at hk' ⊢
    have hd : d = 0 := by
      simp only [Cluster.blank] at hk'
      omega
    rw [List.drop_eq_nil_of_le hi, columnsOf, hd]
    rfl

end Places

/-- A walk that stands at the `i`-th cluster. -/
structure Stands (clusters : List Cluster) (i : ℕ) (cells : Cells) : Prop where
  ahead : cells.ahead w = clusters.drop i
  byte : cells.byte = byteAt clusters i
  col : cells.col = colAt clusters i

theorem stands_new : Stands w (clustersOf w row) 0 (.new row) :=
  ⟨rfl, rfl, by simp [colAt, Cells.new]⟩

namespace Stands

variable {w} {clusters : List Cluster} {i : ℕ} {cells : Cells}

theorem done_iff (h : Stands w clusters i cells) : cells.done = true ↔ clusters.length ≤ i := by
  rw [← Cells.ahead_eq_nil_iff (w := w), h.ahead, List.drop_eq_nil_iff]

theorem peek (h : Stands w clusters i cells) : cells.peek w = clusters.getD i .blank := by
  by_cases hdone : cells.done = true
  · rw [List.getD_eq_default _ _ (h.done_iff.mp hdone), Cells.peek]
    rw [Cells.done, List.isEmpty_iff] at hdone
    rw [hdone]
  · have hi : i < clusters.length := Nat.lt_of_not_le fun hle => hdone (h.done_iff.mpr hle)
    have hahead := h.ahead
    rw [Cells.ahead_of_not_done (Bool.not_eq_true _ ▸ hdone), List.drop_eq_getElem_cons hi, List.cons.injEq] at hahead
    rw [hahead.1, List.getD_eq_getElem]

theorem step (h : Stands w clusters i cells) : Stands w clusters (i + 1) (cells.step w) := by
  by_cases hdone : cells.done = true
  · have hle := h.done_iff.mp hdone
    have hrest : cells.rest = [] := by simpa [Cells.done] using hdone
    have hstep : cells.step w = { cells with col := cells.col + 1 } := by
      rw [Cells.step, hrest]
    refine ⟨?_, ?_, ?_⟩
    · rw [Cells.ahead_of_done (by rw [hstep]; exact hdone), List.drop_eq_nil_of_le (by omega)]
    · rw [hstep, byteAt_succ, List.getElem?_eq_none hle, ← h.byte]
      rfl
    · rw [hstep, colAt_succ, List.getD_eq_default _ _ hle, ← h.col]
      rfl
  · have hi : i < clusters.length := Nat.lt_of_not_le fun hle => hdone (h.done_iff.mpr hle)
    have hahead := h.ahead
    rw [Cells.ahead_of_not_done (Bool.not_eq_true _ ▸ hdone), List.drop_eq_getElem_cons hi, List.cons.injEq] at hahead
    have hstep : (cells.step w).byte = cells.byte + (cells.peek w).text.byteLen ∧
        (cells.step w).col = cells.col + (cells.peek w).cells := by
      unfold Cells.step
      cases hrest : cells.rest with
      | nil => simp [Cells.done, hrest] at hdone
      | cons c rest => exact ⟨rfl, rfl⟩
    refine ⟨hahead.2, ?_, ?_⟩
    · rw [hstep.1, hahead.1, byteAt_succ, List.getElem?_eq_getElem hi, h.byte]
      rfl
    · rw [hstep.2, hahead.1, colAt_succ, List.getD_eq_getElem _ _ hi, h.col]

end Stands

/-! ### Two rows at once -/

section Both

variable {w} {K L : List Cluster} {j i : ℕ}

def Same (K L : List Cluster) (k : ℕ) : Prop := columnsOf K k = columnsOf L k

/-- What the walk knows with the old row's at `j` and the new row's at `i`:
before the first difference, and since the last one, the rows show the same. -/
def Agree (K L : List Cluster) (j i : ℕ) (last : ℕ) : Option (ℕ × ℕ) → Prop
  | none => colAt K j = colAt L i ∧ ∀ k < colAt L i, Same K L k
  | some (col, start) => ∃ j₁ i₁ i₂, i₁ ≤ i₂ ∧ i₂ ≤ i ∧ col = colAt K j₁ ∧ col = colAt L i₁ ∧ start = byteAt L i₁ ∧
      last = byteAt L i₂ ∧ (∀ k < col, Same K L k) ∧ ∀ k, colAt L i₂ ≤ k → k < colAt L i → Same K L k

variable {first : Option (ℕ × ℕ)}

theorem Agree.step {last : ℕ} (h : Agree K L j i last first) (hcol : colAt K j = colAt L i)
    (hpeek : K.getD j .blank = L.getD i .blank) : Agree K L (j + 1) (i + 1) last first := by
  have hcol' : colAt K (j + 1) = colAt L (i + 1) := by rw [colAt_succ, colAt_succ, hcol, hpeek]
  have hsame : ∀ k, colAt L i ≤ k → k < colAt L (i + 1) → Same K L k := by
    intro k hk hk'
    rw [Same, columnsOf_cluster (hcol ▸ hk) (hcol' ▸ hk'), columnsOf_cluster hk hk', hcol, hpeek]
  cases first with
  | none =>
    refine ⟨hcol', fun k hk => ?_⟩
    rcases Nat.lt_or_ge k (colAt L i) with hlt | hge
    · exact h.2 k hlt
    · exact hsame k hge hk
  | some place =>
    obtain ⟨j₁, i₁, i₂, h12, h2, hcol₁, hcol₂, hstart, hlast, hbefore, hsince⟩ := h
    refine ⟨j₁, i₁, i₂, h12, by omega, hcol₁, hcol₂, hstart, hlast, hbefore, fun k hk hk' => ?_⟩
    rcases Nat.lt_or_ge k (colAt L i) with hlt | hge
    · exact hsince k hk hlt
    · exact hsame k hge hk'

/-- A difference: the walk of the new row goes on to `i'`, where it ends so far. -/
theorem Agree.differ {last : ℕ} (h : Agree K L j i last first) {j' i' : ℕ} (hi : i ≤ i') :
    Agree K L j' i' (byteAt L i') (some (first.getD (colAt L i, byteAt L i))) := by
  cases first with
  | none =>
    exact ⟨j, i, i', hi, le_rfl, h.1.symm, rfl, rfl, rfl, h.2, fun k hk hk' => absurd hk' (Nat.not_lt.mpr hk)⟩
  | some place =>
    obtain ⟨j₁, i₁, i₂, h12, h2, hcol₁, hcol₂, hstart, -, hbefore, -⟩ := h
    exact ⟨j₁, i₁, i', by omega, le_rfl, hcol₁, hcol₂, hstart, rfl, hbefore,
      fun k hk hk' => absurd hk' (Nat.not_lt.mpr hk)⟩

/-- What is left of the walk: clusters, and columns the old row is ahead of a
new row that has ended. -/
def walkLeft (K L : List Cluster) (j i : ℕ) : ℕ :=
  3 * ((K.length - j) + (L.length - i)) + if L.length ≤ i then colAt K j - colAt L i else 0

theorem colAt_succ_le (hK : ∀ c ∈ K, c.cells ≤ 2) (j : ℕ) : colAt K (j + 1) ≤ colAt K j + 2 := by
  rw [colAt_succ]
  rcases Nat.lt_or_ge j K.length with hj | hj
  · rw [List.getD_eq_getElem _ _ hj]
    have := hK _ (List.getElem_mem hj)
    omega
  · rw [List.getD_eq_default _ _ hj]
    simp [Cluster.blank]

theorem colAt_succ_of_le {M : List Cluster} (hj : M.length ≤ j) : colAt M (j + 1) = colAt M j + 1 := by
  rw [colAt_succ, List.getD_eq_default _ _ hj]
  rfl

/-- How a walk over two rows ends. -/
inductive Found (K L : List Cluster) (erase : Bool) : Option (ℕ × ℕ) × ℕ → Prop
  | same {last : ℕ} : (∀ k, Same K L k) → Found K L erase (none, last)
  | erased {j₁ i₁ last : ℕ} : erase = true → colAt L i₁ = colAt K j₁ → (∀ k < colAt L i₁, Same K L k) →
      Found K L erase (some (colAt L i₁, byteAt L i₁), last)
  | differ {j₁ i₁ i₂ : ℕ} : erase = false → i₁ ≤ i₂ → colAt L i₁ = colAt K j₁ →
      (∀ k < colAt L i₁, Same K L k) → (colAt K K.length ≤ colAt L L.length → ∀ k, colAt L i₂ ≤ k → Same K L k) →
      Found K L erase (some (colAt L i₁, byteAt L i₁), byteAt L i₂)

theorem Agree.found {last : ℕ} {erase : Bool} (h : Agree K L j i last first)
    (hj : K.length ≤ j) (hi : L.length ≤ i) (herase : erase = true → first = none) :
    Found K L erase (first, last) := by
  have hblank : ∀ k, colAt K K.length ≤ k → colAt L L.length ≤ k → Same K L k := by
    intro k hK hL
    rw [Same, columnsOf_of_le hK, columnsOf_of_le hL]
  cases first with
  | none =>
    refine .same fun k => ?_
    rcases Nat.lt_or_ge k (colAt L i) with hlt | hge
    · exact h.2 k hlt
    · exact hblank k ((colAt_mono K hj).trans (h.1 ▸ hge)) ((colAt_mono L hi).trans hge)
  | some place =>
    obtain ⟨col, start⟩ := place
    obtain ⟨j₁, i₁, i₂, h12, h2, hcol₁, rfl, rfl, rfl, hbefore, hsince⟩ := h
    cases erase with
    | true => cases herase rfl
    | false =>
      refine .differ rfl h12 hcol₁ hbefore fun hle k hk => ?_
      rcases Nat.lt_or_ge k (colAt L i) with hlt | hge
      · exact hsince k hk hlt
      · have := colAt_mono L hi
        exact hblank k (by omega) (by omega)

theorem walkBoth_found (hK : ∀ c ∈ K, c.cells ≤ 2) (erase : Bool) {fuel : ℕ} {before after : Cells}
    {last : ℕ} (hb : Stands w K j before) (ha : Stands w L i after)
    (h : Agree K L j i last first) (hlag : colAt K j ≤ colAt L i + 2) (herase : erase = true → first = none)
    (hfuel : walkLeft K L j i < fuel) : Found K L erase (walkBoth w erase fuel before after first last) := by
  induction fuel generalizing j i before after first last with
  | zero => exact absurd hfuel (Nat.not_lt_zero _)
  | succ fuel ih =>
    rw [walkBoth]
    by_cases hdone : (before.done && after.done) = true
    · rw [if_pos hdone]
      rw [Bool.and_eq_true, hb.done_iff, ha.done_iff] at hdone
      exact h.found hdone.1 hdone.2 herase
    rw [if_neg hdone]
    rw [Bool.and_eq_true, hb.done_iff, ha.done_iff] at hdone
    by_cases hsame : before.col = after.col ∧ before.peek w = after.peek w
    · rw [if_pos hsame]
      rw [hb.col, ha.col, hb.peek, ha.peek] at hsame
      have hcol : colAt K (j + 1) = colAt L (i + 1) := by rw [colAt_succ, colAt_succ, hsame.1, hsame.2]
      refine ih hb.step ha.step (h.step hsame.1 hsame.2) (by omega) herase ?_
      unfold walkLeft at hfuel ⊢
      split_ifs at hfuel ⊢ <;> omega
    rw [if_neg hsame]
    by_cases herased : erase = true
    · rw [herase herased] at h ⊢
      rw [if_pos herased, Option.getD_none, ha.col, ha.byte]
      exact .erased herased h.1.symm h.2
    have herase' : ∀ place : ℕ × ℕ, erase = true → some place = none := fun _ he => absurd he herased
    have hKj := colAt_succ_le hK j
    have hLi : colAt L i ≤ colAt L (i + 1) := colAt_mono L (Nat.le_succ i)
    rw [if_neg herased, ha.col, ha.byte, hb.col]
    by_cases hle : colAt K j ≤ colAt L i
    · rw [if_pos hle]
      dsimp only
      rw [hb.step.col]
      by_cases hmove : (decide (colAt L i ≤ colAt K (j + 1)) || (before.step w).done) = true
      · rw [if_pos hmove, ha.step.byte]
        refine ih hb.step ha.step (h.differ (Nat.le_succ i)) (by omega) (herase' _) ?_
        unfold walkLeft at hfuel ⊢
        split_ifs at hfuel ⊢ <;> omega
      · rw [if_neg hmove, ha.byte]
        rw [Bool.or_eq_true, hb.step.done_iff, decide_eq_true_eq] at hmove
        refine ih hb.step ha (h.differ le_rfl) (by omega) (herase' _) ?_
        unfold walkLeft at hfuel ⊢
        split_ifs at hfuel ⊢ <;> omega
    · have hmove : (decide (colAt L i ≤ before.col) || before.done) = true := by
        rw [hb.col, decide_eq_true (by omega), Bool.true_or]
      rw [if_neg hle]
      dsimp only
      rw [if_pos hmove, ha.step.byte]
      refine ih hb ha.step (h.differ (Nat.le_succ i)) (by omega) (herase' _) ?_
      have hdone' : L.length ≤ i → colAt L (i + 1) = colAt L i + 1 := colAt_succ_of_le
      unfold walkLeft at hfuel ⊢
      split_ifs at hfuel ⊢ <;> omega

end Both

/-! ### The patch -/

section Patch

variable {w} {old new : RowFrame}

theorem length_clusters_le (n : ℕ) (cells : Cells) : (cells.clusters w n).length ≤ n := by
  induction n generalizing cells with
  | zero => exact le_rfl
  | succ n ih =>
    rw [Cells.clusters]
    split_ifs
    · exact Nat.zero_le _
    · exact Nat.succ_le_succ (ih _)

theorem whole_text_isPrefix : row.whole.text <+: row.text := by
  unfold RowFrame.whole
  cases h : row.text.get? 0 row.paintedBytes with
  | none => exact List.nil_prefix
  | some text =>
    obtain ⟨a, b, htext, ha, -⟩ := Text.get?_eq_some.mp h
    rw [Text.byteLen_eq_zero.mp ha, List.nil_append] at htext
    exact ⟨b, htext.symm⟩

theorem length_clustersOf_le : (clustersOf w row).length ≤ row.text.length :=
  (length_clusters_le _ _).trans (whole_text_isPrefix row).length_le

/-- A line with cells painted over it from a column on, and all behind them blanked if `erase`. -/
def overlay (line : ℕ → Column) (cells : List Cluster) (col : ℕ) (erase : Bool) (k : ℕ) : Column :=
  if k < col then line k
  else if k < col + (cells.map Cluster.cells).sum then columnsOf cells (k - col)
  else if erase then .blank else line k

/-- What a patch must be for a line that shows the cells `K` to show `L`. A patch of columns starts and
ends at cells of `L`, and where it starts `K` has a cell too, or a blank. -/
def Patch.Right (K L : List Cluster) : Patch → Prop
  | .nothing => ∀ k, Same K L k
  | .columns col start stop erase => ∃ i j, i ≤ j ∧ start = byteAt L i ∧ stop = byteAt L j ∧ col = colAt L i ∧
      (∃ i', col = colAt K i') ∧ ∀ k, overlay (columnsOf K) ((L.take j).drop i) col erase k = columnsOf L k
  | .whole => False

theorem columnsOf_append {A : List Cluster} (B : List Cluster) {d : ℕ} (h : d < (A.map Cluster.cells).sum) :
    columnsOf (A ++ B) d = columnsOf A d := by
  induction A generalizing d with
  | nil => exact absurd h (Nat.not_lt_zero d)
  | cons c A ih =>
    rw [List.map_cons, List.sum_cons] at h
    rw [List.cons_append, columnsOf, columnsOf]
    split_ifs
    · rfl
    · exact ih (by omega)

theorem overlay_eq {K L : List Cluster} {i j : ℕ} {erase : Bool} (hij : i ≤ j) (hj : j ≤ max i L.length)
    (hbefore : ∀ k < colAt L i, Same K L k)
    (hbehind : ∀ k, colAt L j ≤ k → if erase then columnsOf L k = .blank else Same K L k) (k : ℕ) :
    overlay (columnsOf K) ((L.take j).drop i) (colAt L i) erase k = columnsOf L k := by
  have htake : L.take j = L.take i ++ (L.take j).drop i := by
    conv_lhs => rw [← List.take_append_drop i (L.take j), List.take_take, min_eq_left hij]
  have hcol : colAt L j = colAt L i + (((L.take j).drop i).map Cluster.cells).sum := by
    rw [colAt, colAt]
    conv_lhs => rw [htake, List.map_append, List.sum_append]
    omega
  unfold overlay
  split_ifs with hlt hin herase
  · exact hbefore k hlt
  · obtain ⟨d, rfl⟩ := Nat.exists_eq_add_of_le (Nat.le_of_not_lt hlt)
    have hdrop : L.drop i = (L.take j).drop i ++ L.drop j := by
      rcases Nat.le_total j L.length with hle | hle
      · conv_lhs => rw [← List.take_append_drop j L]
        exact List.drop_append_of_le_length (by rwa [List.length_take, min_eq_left hle])
      · rw [List.take_of_length_le hle, List.drop_eq_nil_of_le hle, List.append_nil]
    rw [Nat.add_sub_cancel_left, columnsOf_colAt, hdrop, columnsOf_append _ (by omega)]
  · have hblank := hbehind k (by omega)
    rw [if_pos herase] at hblank
    exact hblank.symm
  · have hsame := hbehind k (by omega)
    rw [if_neg herase] at hsame
    exact hsame

theorem byteAt_length (hrow : row.Tiles) :
    byteAt (clustersOf w row) (clustersOf w row).length = row.paintedBytes := by
  have hflat : (clustersOf w row).flatMap Cluster.text = row.whole.text := Cells.flatMap_ahead _
  obtain ⟨segs, tail, h⟩ := RowFrame.tiles_iff.mp hrow
  have hpainted : row.paintedBytes = row.whole.text.byteLen := by
    rw [h.paintedBytes, h.whole_text, Text.byteLen_append]
  have hsum : ∀ l : List Cluster, (l.map fun c => c.text.byteLen).sum = Text.byteLen (l.flatMap Cluster.text) := by
    intro l
    induction l with
    | nil => rfl
    | cons c l ih => rw [List.map_cons, List.sum_cons, ih, List.flatMap_cons, Text.byteLen_append]
  rw [byteAt, List.take_length, hsum, hflat, hpainted]

/-- The measured patch is right, provided a row that got narrower is erased. -/
theorem measuredPatch_right (hnew : new.Tiles) {erase : Bool}
    (herase : erase = false → colAt (clustersOf w old) (clustersOf w old).length ≤
      colAt (clustersOf w new) (clustersOf w new).length) :
    (measuredPatch w old new erase).Right (clustersOf w old) (clustersOf w new) := by
  have hlt : walkLeft (clustersOf w old) (clustersOf w new) 0 0 < walkFuel old new := by
    have := length_clustersOf_le (w := w) old
    have := length_clustersOf_le (w := w) new
    unfold walkLeft walkFuel
    simp only [colAt, List.take_zero, List.map_nil, List.sum_nil, Nat.zero_sub]
    split_ifs <;> omega
  have hstart : Agree (clustersOf w old) (clustersOf w new) 0 0 0 none := ⟨by simp [colAt], by simp [colAt]⟩
  have hfound := walkBoth_found (fun c hc => Cells.cells_le_two hc) erase (stands_new w old) (stands_new w new) hstart
    (by simp [colAt]) (fun _ => rfl) hlt
  unfold measuredPatch
  generalize walkBoth w erase (walkFuel old new) (Cells.new old) (Cells.new new) none 0 = result at hfound
  cases hfound with
  | same h => exact h
  | @erased j₁ i₁ last he hcol h =>
    subst he
    refine ⟨i₁, max i₁ (clustersOf w new).length, le_max_left _ _, rfl, ?_, rfl, ⟨j₁, hcol⟩,
      overlay_eq (le_max_left _ _) le_rfl h fun k hk => ?_⟩
    · rw [if_pos rfl, ← byteAt_length new hnew, byteAt_of_le (i := max _ _) (le_max_right _ _), max_eq_left]
      rcases Nat.le_total i₁ (clustersOf w new).length with hle | hle
      · exact byteAt_mono _ hle
      · exact (byteAt_of_le hle).le
    · exact columnsOf_of_le ((colAt_mono _ (le_max_right _ _)).trans hk)
  | @differ j₁ i₁ i₂ he h12 hcol h hsince =>
    subst he
    have hnarrow := herase rfl
    generalize clustersOf w new = L at *
    -- past the last cell of the new row both rows are blank, so the patch ends there
    have hend : byteAt L i₂ = byteAt L (max i₁ (min i₂ L.length)) := by
      rcases Nat.le_total i₂ L.length with hle | hle
      · rw [min_eq_left hle, max_eq_right h12]
      · rw [min_eq_right hle, byteAt_of_le hle, byteAt_of_le (le_max_right _ _)]
    refine ⟨i₁, max i₁ (min i₂ L.length), le_max_left _ _, rfl, ?_, rfl, ⟨j₁, hcol⟩,
      overlay_eq (le_max_left _ _) (by omega) h fun k hk => ?_⟩
    · rw [if_neg Bool.false_ne_true, hend, max_eq_left (byteAt_mono _ (le_max_left _ _))]
    · rw [if_neg Bool.false_ne_true]
      rcases Nat.le_total i₂ L.length with hle | hle
      · exact hsince hnarrow k (by rwa [min_eq_left hle, max_eq_right h12] at hk)
      · have hpast : colAt L L.length ≤ k := by
          refine (colAt_mono L ?_).trans hk
          rw [min_eq_right hle]
          exact le_max_right _ _
        rw [Same, columnsOf_of_le hpast, columnsOf_of_le (hnarrow.trans hpast)]

end Patch

end Braid.Client
