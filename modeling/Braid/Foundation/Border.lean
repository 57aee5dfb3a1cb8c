import Mathlib.Data.List.Infix
import Mathlib.Data.List.GetD

/-! Scanning for the longest prefix of a pattern that ends what was read. The
failure table says, for every proper prefix length, how far a match that stops
agreeing falls back; it is itself computed by scanning the pattern behind its
first element, so one step lemma serves both scans. -/

namespace Braid.Foundation.Border

variable {α : Type*}

/-- `k` is the length of the longest prefix of `pattern` that ends `seen`. -/
def Longest (pattern seen : List α) (k : ℕ) : Prop :=
  k ≤ pattern.length ∧ pattern.take k <:+ seen ∧ ∀ j ≤ pattern.length, pattern.take j <:+ seen → j ≤ k

/-- Every entry is the longest border of the prefix it stands for. -/
def Table (pattern : List α) (failure : List ℕ) : Prop :=
  ∀ i < failure.length, Longest pattern (pattern.take (i + 1)).tail (failure.getD i 0)

variable [DecidableEq α]

/-- Fall back while `x` does not extend the match. -/
def fallBack (pattern : List α) (failure : List ℕ) (x : α) : ℕ → ℕ → ℕ
  | 0, k => k
  | fuel + 1, k =>
    if 0 < k ∧ pattern[k]? ≠ some x then fallBack pattern failure x fuel (failure.getD (k - 1) 0) else k

def advance (pattern : List α) (x : α) (k : ℕ) : ℕ := if pattern[k]? = some x then k + 1 else k

def step (pattern : List α) (failure : List ℕ) (x : α) (k : ℕ) : ℕ :=
  advance pattern x (fallBack pattern failure x k k)

/-- The table, one entry for each element of the pattern. -/
def failureTable (pattern : List α) : List ℕ :=
  (pattern.tail.foldl (fun (failure, border) x =>
    let border := step pattern failure x border
    (failure ++ [border], border)) ([0], 0)).1

/-- A complete match has no edge of its own and leaves through its longest border. -/
def scan (pattern : List α) (text : List α) : ℕ :=
  let failure := failureTable pattern
  text.foldl (fun matched x =>
    let matched := if matched = pattern.length then failure.getD (pattern.length - 1) 0 else matched
    step pattern failure x matched) 0

omit [DecidableEq α] in
theorem take_succ_suffix {pattern seen : List α} {x : α} {j : ℕ} (hj : j < pattern.length) :
    pattern.take (j + 1) <:+ seen ++ [x] ↔ pattern.take j <:+ seen ∧ pattern[j]? = some x := by
  rw [List.take_succ_eq_append_getElem hj, List.getElem?_eq_getElem hj, Option.some.injEq]
  constructor
  · intro h
    rcases List.suffix_concat_iff.mp h with hnil | ⟨t, ht, hsuffix⟩
    · exact absurd hnil (List.append_ne_nil_of_right_ne_nil _ (List.cons_ne_nil _ _))
    · obtain ⟨rfl, hx⟩ := List.append_inj' ht rfl
      exact ⟨hsuffix, by simpa using hx⟩
  · rintro ⟨h, rfl⟩
    exact List.suffix_append_self_iff.mpr h

/-- Where a search among the prefixes that end `seen` and go on with `x` stands:
`k` is such an end, and no longer one goes on with `x`. -/
def Candidate (pattern seen : List α) (x : α) (k : ℕ) : Prop :=
  k ≤ pattern.length ∧ pattern.take k <:+ seen ∧
    ∀ j ≤ pattern.length, pattern.take j <:+ seen → pattern[j]? = some x → j ≤ k

variable {pattern seen : List α} {failure : List ℕ} {x : α} {k : ℕ}

omit [DecidableEq α] in
theorem Longest.candidate (h : Longest pattern seen k) : Candidate pattern seen x k :=
  ⟨h.1, h.2.1, fun j hj hsuffix _ => h.2.2 j hj hsuffix⟩

omit [DecidableEq α] in
theorem Longest.le_seen (h : Longest pattern seen k) : k ≤ seen.length := by
  have := h.2.1.length_le
  rwa [List.length_take, min_eq_left h.1] at this

omit [DecidableEq α] in
theorem Table.border_lt (htable : Table pattern failure) (hpos : 0 < k) (hk : k ≤ failure.length) :
    failure.getD (k - 1) 0 < k := by
  have h := (htable (k - 1) (by omega)).le_seen
  rw [List.length_tail, List.length_take] at h
  omega

omit [DecidableEq α] in
theorem Candidate.fall (h : Candidate pattern seen x k) (htable : Table pattern failure) (hpos : 0 < k)
    (hk : k ≤ failure.length) (hx : pattern[k]? ≠ some x) :
    Candidate pattern seen x (failure.getD (k - 1) 0) := by
  obtain ⟨hle, hsuffix, hmax⟩ := h
  obtain ⟨hle', hsuffix', hmax'⟩ := htable (k - 1) (by omega)
  rw [Nat.sub_add_cancel hpos] at hsuffix' hmax'
  refine ⟨hle', (hsuffix'.trans (List.tail_suffix _)).trans hsuffix, fun j hj hends hgoes => ?_⟩
  have hlt : j < k := (hmax j hj hends hgoes).lt_of_ne fun heq => hx (heq ▸ hgoes)
  have hborder : pattern.take j <:+ pattern.take k :=
    List.suffix_of_suffix_length_le hends hsuffix (by simp only [List.length_take]; omega)
  refine hmax' j hj (List.suffix_of_suffix_length_le hborder (List.tail_suffix _) ?_)
  simp only [List.length_tail, List.length_take]
  omega

theorem fallBack_spec {fuel : ℕ} (h : Candidate pattern seen x k) (htable : Table pattern failure)
    (hk : k ≤ failure.length) (hfuel : k ≤ fuel) :
    Candidate pattern seen x (fallBack pattern failure x fuel k) ∧
      (fallBack pattern failure x fuel k = 0 ∨ pattern[fallBack pattern failure x fuel k]? = some x) := by
  induction fuel generalizing k with
  | zero => exact ⟨h, .inl (Nat.le_zero.mp hfuel)⟩
  | succ fuel ih =>
    rw [fallBack]
    split_ifs with hfalls
    · have hlt := htable.border_lt hfalls.1 hk
      exact ih (h.fall htable hfalls.1 hk hfalls.2) (by omega) (by omega)
    · refine ⟨h, ?_⟩
      rcases Nat.eq_zero_or_pos k with hzero | hpos
      · exact .inl hzero
      · exact .inr (not_not.mp fun hx => hfalls ⟨hpos, hx⟩)

theorem Candidate.step (h : Candidate pattern seen x k) (htable : Table pattern failure) (hk : k ≤ failure.length) :
    Longest pattern (seen ++ [x]) (step pattern failure x k) := by
  obtain ⟨⟨hle, hsuffix, hmax⟩, hends⟩ := fallBack_spec h htable hk le_rfl
  rw [Border.step]
  generalize fallBack pattern failure x k k = r at hle hsuffix hmax hends
  -- a longer end of what is now read is a longer end of what was read that goes on with `x`
  have hbound : ∀ j < pattern.length, pattern.take (j + 1) <:+ seen ++ [x] → j ≤ r ∧ pattern[j]? = some x := by
    intro j hj hj'
    obtain ⟨hprev, hgoes⟩ := (take_succ_suffix hj).mp hj'
    exact ⟨hmax j hj.le hprev hgoes, hgoes⟩
  unfold advance
  split_ifs with hx
  · have hr : r < pattern.length := (List.getElem?_eq_some_iff.mp hx).1
    refine ⟨hr, (take_succ_suffix hr).mpr ⟨hsuffix, hx⟩, fun j hj hj' => ?_⟩
    cases j with
    | zero => exact Nat.zero_le _
    | succ j => exact Nat.succ_le_succ (hbound j hj hj').1
  · obtain rfl : r = 0 := hends.resolve_right hx
    refine ⟨Nat.zero_le _, by simp, fun j hj hj' => ?_⟩
    cases j with
    | zero => exact le_rfl
    | succ j =>
      obtain ⟨hle0, hgoes⟩ := hbound j hj hj'
      rw [Nat.le_zero.mp hle0] at hgoes
      exact absurd hgoes hx

omit [DecidableEq α] in
theorem longest_nil (pattern : List α) : Longest pattern [] 0 := by
  refine ⟨Nat.zero_le _, by simp, fun j hj h => ?_⟩
  have := h.length_le
  rw [List.length_take, List.length_nil] at this
  omega

theorem failureTable_spec (pattern : List α) (hne : pattern ≠ []) :
    Table pattern (failureTable pattern) ∧ (failureTable pattern).length = pattern.length := by
  -- after the elements of `done` the last entry is the border of everything read so far
  suffices h : ∀ todo done failure border, pattern = done ++ todo → failure.length = done.length →
      0 < done.length → Table pattern failure → Longest pattern done.tail border →
      let built := (todo.foldl (fun (failure, border) x =>
        let border := step pattern failure x border
        (failure ++ [border], border)) (failure, border)).1
      Table pattern built ∧ built.length = pattern.length by
    obtain ⟨first, rest, rfl⟩ := List.exists_cons_of_ne_nil hne
    refine h rest [first] [0] 0 rfl rfl Nat.one_pos ?_ (longest_nil _)
    intro i hi
    obtain rfl : i = 0 := by simpa using hi
    exact longest_nil _
  intro todo
  induction todo with
  | nil =>
    intro done failure border hsplit hlength _ htable _
    refine ⟨htable, ?_⟩
    rw [hsplit, List.append_nil]
    exact hlength
  | cons x todo ih =>
    intro done failure border hsplit hlength hdone htable hborder
    have hle : border ≤ failure.length := by
      have := hborder.le_seen
      rw [List.length_tail] at this
      omega
    have hnext := hborder.candidate.step (x := x) htable hle
    rw [← List.tail_append_of_ne_nil (List.ne_nil_of_length_pos hdone)] at hnext
    have hread : pattern.take (failure.length + 1) = done ++ [x] := by
      rw [hsplit, hlength, List.append_cons, List.take_left' (by simp)]
    refine ih (done ++ [x]) _ _ (by rw [hsplit, List.append_cons]) (by simp [hlength]) (by simp) ?_ hnext
    intro i hi
    rcases Nat.lt_succ_iff_lt_or_eq.mp (by simpa using hi : i < failure.length + 1) with hlt | rfl
    · rw [List.getD_append _ _ _ _ hlt]
      exact htable i hlt
    · rw [List.getD_append_right _ _ _ _ le_rfl, hread]
      simpa using hnext

/-- The scan ends with the longest prefix of the pattern that ends the text. -/
theorem scan_longest (hne : pattern ≠ []) (text : List α) : Longest pattern text (scan pattern text) := by
  obtain ⟨htable, hlength⟩ := failureTable_spec pattern hne
  suffices h : ∀ todo seen matched, Longest pattern seen matched → Longest pattern (seen ++ todo)
      (todo.foldl (fun matched x =>
        let matched := if matched = pattern.length then (failureTable pattern).getD (pattern.length - 1) 0 else matched
        step pattern (failureTable pattern) x matched) matched) from
    h text [] 0 (longest_nil _)
  intro todo
  induction todo with
  | nil =>
    intro seen matched h
    rwa [List.append_nil]
  | cons x todo ih =>
    intro seen matched h
    rw [List.append_cons]
    refine ih _ _ ?_
    dsimp only
    split_ifs with hfull
    · have hpos : 0 < matched := hfull ▸ List.length_pos_of_ne_nil hne
      have hout : pattern[matched]? ≠ some x := by
        rw [hfull, List.getElem?_eq_none le_rfl]
        exact Option.some_ne_none x |>.symm
      have hfall := h.candidate.fall htable hpos (by omega) hout
      rw [hfull] at hfall
      have hlt := htable.border_lt (k := pattern.length) (hfull ▸ hpos) hlength.ge
      exact hfall.step htable (by omega)
    · exact h.candidate.step htable (by have := h.1; omega)

end Braid.Foundation.Border
