import Braid.Foundation.Bits
import Mathlib.Data.List.GetD
import Mathlib.Data.List.Basic

/-! A set of rows, one bit each, in words of 64. Rows are 16-bit indices: the
walk over a mask leaves out what does not convert. -/

namespace Braid.Daemon

open Foundation

structure RowMask where
  words : List ℕ
  bounded : ∀ w ∈ words, w < 2 ^ 64
  deriving DecidableEq

namespace RowMask

def padded (words : List ℕ) (count : ℕ) : List ℕ := words ++ List.replicate (count - words.length) 0

/-- The word-by-word union of the words both lists have. -/
def orWords : List ℕ → List ℕ → List ℕ
  | a :: as, b :: bs => (a ||| b) :: orWords as bs
  | as, _ => as

theorem padded_bounded {words : List ℕ} (h : ∀ w ∈ words, w < 2 ^ 64) (count : ℕ) :
    ∀ w ∈ padded words count, w < 2 ^ 64 := by
  intro w hw
  rcases List.mem_append.mp hw with hw | hw
  · exact h w hw
  · rw [List.eq_of_mem_replicate hw]
    decide

theorem orWords_bounded {as bs : List ℕ} (ha : ∀ w ∈ as, w < 2 ^ 64) (hb : ∀ w ∈ bs, w < 2 ^ 64) :
    ∀ w ∈ orWords as bs, w < 2 ^ 64 := by
  induction as generalizing bs with
  | nil => simp [orWords]
  | cons a as ih =>
    cases bs with
    | nil => exact ha
    | cons b bs =>
      simp only [orWords, List.forall_mem_cons] at ha hb ⊢
      exact ⟨Nat.or_lt_two_pow ha.1 hb.1, ih ha.2 hb.2⟩

def empty : RowMask := ⟨[], by simp⟩

def reset (rows : ℕ) : RowMask :=
  ⟨List.replicate ((rows + 63) / 64) 0, fun w hw => by rw [List.eq_of_mem_replicate hw]; decide⟩

variable (mask : RowMask)

def get (row : ℕ) : Bool :=
  mask.words[row / 64]?.any fun slot => slot &&& 2 ^ (row % 64) != 0

def set (row : ℕ) : RowMask where
  words := (padded mask.words (row / 64 + 1)).modify (row / 64) (· ||| 2 ^ (row % 64))
  bounded w hw := by
    have hbit : 2 ^ (row % 64) < 2 ^ 64 := Nat.pow_lt_pow_right (by decide) (Nat.mod_lt _ (by decide))
    obtain ⟨i, hi, rfl⟩ := List.getElem_of_mem hw
    rw [List.getElem_modify]
    have hword := padded_bounded mask.bounded _ _ (List.getElem_mem (by simpa using hi))
    split_ifs
    · exact Nat.or_lt_two_pow hword hbit
    · exact hword

def setAll (rows : List ℕ) : RowMask := rows.foldl set mask

def filled (rows : ℕ) : RowMask := (reset rows).setAll (List.range rows)

def union (mask other : RowMask) : RowMask where
  words := orWords (padded mask.words other.words.length) other.words
  bounded := orWords_bounded (padded_bounded mask.bounded _) other.bounded

def clearAll : RowMask :=
  ⟨mask.words.map fun _ => 0, by simp⟩

def isEmpty : Bool := mask.words.all (· == 0)

def bitsFrom : ℕ → List ℕ → List ℕ
  | _, [] => []
  | base, word :: words =>
    ((Bits.setBits 64 word).map (base + ·)).takeWhile (· ≤ u16Max) ++ bitsFrom (base + 64) words

def iterEither (mask other : RowMask) : List ℕ :=
  bitsFrom 0 ((List.range (max mask.words.length other.words.length)).map fun index =>
    mask.words.getD index 0 ||| other.words.getD index 0)

/-! ### What a mask holds -/

theorem and_two_pow_ne_zero (w i : ℕ) : (w &&& 2 ^ i != 0) = w.testBit i := by
  rw [Nat.and_two_pow]
  cases w.testBit i <;> simp

theorem get_eq (row : ℕ) : mask.get row = (mask.words.getD (row / 64) 0).testBit (row % 64) := by
  rw [get, List.getD_eq_getElem?_getD]
  cases mask.words[row / 64]? with
  | none => simp
  | some w => simp [and_two_pow_ne_zero]

theorem getD_padded (words : List ℕ) (count i : ℕ) : (padded words count).getD i 0 = words.getD i 0 := by
  simp only [padded, List.getD_eq_getElem?_getD, List.getElem?_append, List.getElem?_replicate]
  split_ifs with h1 h2
  · rfl
  · simp [List.getElem?_eq_none (Nat.not_lt.mp h1)]
  · simp [List.getElem?_eq_none (Nat.not_lt.mp h1)]

theorem length_padded (words : List ℕ) (count : ℕ) : (padded words count).length = max words.length count := by
  simp only [padded, List.length_append, List.length_replicate]
  omega

theorem getD_orWords {as bs : List ℕ} (h : bs.length ≤ as.length) (i : ℕ) :
    (orWords as bs).getD i 0 = as.getD i 0 ||| bs.getD i 0 := by
  induction as generalizing bs i with
  | nil =>
    obtain rfl : bs = [] := List.length_eq_zero_iff.mp (Nat.le_zero.mp h)
    simp [orWords]
  | cons a as ih =>
    cases bs with
    | nil => simp [orWords]
    | cons b bs =>
      cases i with
      | zero => rfl
      | succ i => exact ih (Nat.le_of_succ_le_succ h) i

@[simp] theorem get_empty (row : ℕ) : empty.get row = false := by simp [get_eq, empty]

@[simp] theorem get_reset (rows row : ℕ) : (reset rows).get row = false := by
  rw [get_eq, reset, List.getD_eq_getElem?_getD, List.getElem?_replicate]
  split_ifs <;> simp

@[simp] theorem get_clearAll (row : ℕ) : mask.clearAll.get row = false := by
  rw [get_eq, clearAll, List.getD_eq_getElem?_getD, List.getElem?_map]
  cases mask.words[row / 64]? <;> simp

@[simp] theorem get_union (mask other : RowMask) (row : ℕ) :
    (mask.union other).get row = (mask.get row || other.get row) := by
  simp only [get_eq, union]
  rw [getD_orWords (by rw [length_padded]; exact le_max_right _ _), getD_padded, Nat.testBit_or]

@[simp] theorem get_set (row r : ℕ) : (mask.set row).get r = (decide (r = row) || mask.get r) := by
  have hlen : row / 64 < (padded mask.words (row / 64 + 1)).length := by
    rw [length_padded]
    omega
  rw [get_eq, get_eq, ← getD_padded mask.words (row / 64 + 1) (r / 64), set]
  simp only [List.getD_eq_getElem?_getD, List.getElem?_modify]
  by_cases hw : row / 64 = r / 64
  · rw [← hw, List.getElem?_eq_getElem hlen]
    simp only [if_true, Option.map_eq_map, Option.map_some, Option.getD_some, Nat.testBit_or, Nat.testBit_two_pow]
    rw [Bool.or_comm]
    congr 1
    exact decide_eq_decide.mpr (by omega)
  · have hne : r ≠ row := fun h => hw (by rw [h])
    simp [hw, hne]

@[simp] theorem get_setAll (rows : List ℕ) (r : ℕ) :
    (mask.setAll rows).get r = (decide (r ∈ rows) || mask.get r) := by
  induction rows generalizing mask with
  | nil => simp [setAll]
  | cons row rows ih =>
    have hcons : mask.setAll (row :: rows) = (mask.set row).setAll rows := rfl
    rw [hcons, ih, get_set, ← Bool.or_assoc]
    congr 1
    rw [← Bool.decide_or]
    exact decide_eq_decide.mpr (by rw [List.mem_cons, or_comm])

theorem isEmpty_iff : mask.isEmpty = true ↔ ∀ r, mask.get r = false := by
  simp only [isEmpty, List.all_eq_true, beq_iff_eq]
  constructor
  · intro h r
    rw [get_eq, List.getD_eq_getElem?_getD]
    cases hw : mask.words[r / 64]? with
    | none => simp
    | some w => simp [h w (List.mem_of_getElem? hw)]
  · intro h w hw
    obtain ⟨i, hi, rfl⟩ := List.getElem_of_mem hw
    apply Nat.eq_of_testBit_eq
    intro j
    rcases Nat.lt_or_ge j 64 with hj | hj
    · have := h (64 * i + j)
      rw [get_eq, show (64 * i + j) / 64 = i by omega, show (64 * i + j) % 64 = j by omega,
        List.getD_eq_getElem _ _ hi] at this
      simpa using this
    · rw [Nat.testBit_lt_two_pow ((mask.bounded _ hw).trans_le (Nat.pow_le_pow_right (by decide) hj)),
        Nat.zero_testBit]

/-! ### The walk -/

theorem mem_takeWhile_le {l : List ℕ} (h : l.Pairwise (· < ·)) (m r : ℕ) :
    r ∈ l.takeWhile (· ≤ m) ↔ r ∈ l ∧ r ≤ m := by
  induction l with
  | nil => simp
  | cons a l ih =>
    obtain ⟨hhead, htail⟩ := List.pairwise_cons.mp h
    rw [List.takeWhile_cons]
    split_ifs with ha
    · rw [List.mem_cons, List.mem_cons, ih htail]
      grind
    · simp only [decide_eq_true_eq] at ha
      simp only [List.not_mem_nil, List.mem_cons, false_iff, not_and, not_le]
      rintro (rfl | hr)
      · omega
      · have := hhead r hr
        omega

theorem bitsFrom_spec {words : List ℕ} (h : ∀ w ∈ words, w < 2 ^ 64) (base : ℕ) :
    (∀ r, r ∈ bitsFrom base words ↔
      base ≤ r ∧ r ≤ u16Max ∧ (words.getD ((r - base) / 64) 0).testBit ((r - base) % 64) = true) ∧
      (bitsFrom base words).Pairwise (· < ·) := by
  induction words generalizing base with
  | nil => simp [bitsFrom]
  | cons w ws ih =>
    obtain ⟨hw, hws⟩ := List.forall_mem_cons.mp h
    obtain ⟨hmem, hasc⟩ := ih hws (base + 64)
    obtain ⟨hbits, -, hbitsAsc⟩ := @Bits.setBits_spec 64 0 w hw (one_dvd _) (by omega)
    have hshift : ((Bits.setBits 64 w).map (base + ·)).Pairwise (· < ·) :=
      List.pairwise_map.mpr (hbitsAsc.imp fun h => by omega)
    have hlow : ∀ r, r ∈ (Bits.setBits 64 w).map (base + ·) ↔ base ≤ r ∧ w.testBit (r - base) = true := by
      intro r
      simp only [List.mem_map, hbits]
      constructor
      · rintro ⟨i, hi, rfl⟩
        exact ⟨by omega, by simpa using hi⟩
      · rintro ⟨hle, hi⟩
        exact ⟨r - base, hi, by omega⟩
    have hwide : ∀ j, w.testBit j = true → j < 64 := by
      intro j hj
      by_contra hcon
      rw [Nat.testBit_lt_two_pow (hw.trans_le (Nat.pow_le_pow_right (by decide) (by omega)))] at hj
      cases hj
    constructor
    · intro r
      rw [bitsFrom, List.mem_append, mem_takeWhile_le hshift, hlow, hmem]
      rcases Nat.lt_or_ge (r - base) 64 with hr | hr
      · rw [show (r - base) / 64 = 0 by omega, Nat.mod_eq_of_lt hr, List.getD_cons_zero]
        have : ¬ base + 64 ≤ r := by omega
        tauto
      · have hdiv : (r - base) / 64 = (r - (base + 64)) / 64 + 1 := by omega
        have hmod : (r - base) % 64 = (r - (base + 64)) % 64 := by omega
        have hno : w.testBit (r - base) = false := by
          by_contra hcon
          have := hwide _ (by simpa using hcon)
          omega
        rw [hdiv, hmod, List.getD_cons_succ, hno]
        have : base + 64 ≤ r ↔ base ≤ r := by omega
        simp [this]
    · rw [bitsFrom, List.pairwise_append]
      refine ⟨hshift.sublist (List.takeWhile_sublist _), hasc, fun a ha b hb => ?_⟩
      obtain ⟨⟨hab, ha⟩, -⟩ := (mem_takeWhile_le hshift _ _).mp ha |>.imp_left (hlow a).mp
      have := hwide _ ha
      have := ((hmem b).mp hb).1
      omega

theorem iterEither_bounded (mask other : RowMask) : ∀ w ∈ (List.range (max mask.words.length other.words.length)).map
    fun index => mask.words.getD index 0 ||| other.words.getD index 0, w < 2 ^ 64 := by
  have hget : ∀ (m : RowMask) i, m.words.getD i 0 < 2 ^ 64 := by
    intro m i
    rw [List.getD_eq_getElem?_getD]
    cases hw : m.words[i]? with
    | none => simp
    | some w => exact m.bounded w (List.mem_of_getElem? hw)
  intro w hw
  obtain ⟨i, -, rfl⟩ := List.mem_map.mp hw
  exact Nat.or_lt_two_pow (hget mask i) (hget other i)

theorem mem_iterEither (mask other : RowMask) (r : ℕ) :
    r ∈ mask.iterEither other ↔ r ≤ u16Max ∧ (mask.get r = true ∨ other.get r = true) := by
  have hgetD : ∀ i, ((List.range (max mask.words.length other.words.length)).map fun index =>
      mask.words.getD index 0 ||| other.words.getD index 0).getD i 0 =
        mask.words.getD i 0 ||| other.words.getD i 0 := by
    intro i
    rw [List.getD_eq_getElem?_getD, List.getElem?_map]
    rcases Nat.lt_or_ge i (max mask.words.length other.words.length) with hi | hi
    · rw [List.getElem?_range hi]
      rfl
    · have h1 := (Nat.le_max_left _ _).trans hi
      have h2 := (Nat.le_max_right _ _).trans hi
      rw [List.getElem?_eq_none (by simpa using hi), List.getD_eq_default _ _ h1, List.getD_eq_default _ _ h2]
      rfl
  rw [iterEither, (bitsFrom_spec (iterEither_bounded mask other) 0).1]
  simp only [Nat.zero_le, true_and, Nat.sub_zero, hgetD, Nat.testBit_or, Bool.or_eq_true, get_eq]

theorem iterEither_ascending (mask other : RowMask) : (mask.iterEither other).Pairwise (· < ·) :=
  (bitsFrom_spec (iterEither_bounded mask other) 0).2

end RowMask

end Braid.Daemon
