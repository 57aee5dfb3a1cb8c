import Braid.Foundation.System
import Braid.Dgram.Window
import Mathlib.Data.Finset.Lattice.Fold
import Mathlib.Order.Lattice.Nat

/-! The replay window answers as a set would that remembers every number it has admitted
and refuses what is too far behind the highest. The bitmap holds what that set holds within
its width, whatever distances it has been slid by, and an acknowledgement reads the highest
number and the 64 below it off the first bits. -/

namespace Braid.Dgram

open Foundation

def highest (seen : Finset ℕ) : ℕ := seen.sup id

/-- The answer of a set of all the numbers admitted: a number is fresh if it lies above the
cut-off behind the highest and is not in the set. -/
def recollect (seen : Finset ℕ) (n : ℕ) : Finset ℕ × Admission :=
  if n + windowWidth ≤ highest seen then (seen, .tooOld)
  else if n ∈ seen then (seen, .replay)
  else (insert n seen, .fresh)

theorem highest_mem {seen : Finset ℕ} (h : seen.Nonempty) : highest seen ∈ seen := by
  obtain ⟨n, hn, heq⟩ := Finset.exists_mem_eq_sup seen h id
  rw [highest, heq]
  exact hn

namespace ReplayWindow

variable {w : ReplayWindow} {seen : Finset ℕ}

/-- The window remembers the set, and its top is the highest number of it. -/
structure Refines (w : ReplayWindow) (seen : Finset ℕ) : Prop where
  remembers : Remembers w ↑seen
  top : w.top = highest seen

theorem refines_new : Refines new ∅ := ⟨by simpa using remembers_new, rfl⟩

theorem admit_stale (w : ReplayWindow) (n : ℕ) (h : (w.admit_ n).2 ≠ .fresh) :
    (w.admit_ n).2 = if n + windowWidth ≤ w.top then .tooOld else .replay := by
  unfold admit_ at h ⊢
  split_ifs at h ⊢ <;> first | rfl | omega | exact absurd rfl h

theorem Refines.admit_ (h : Refines w seen) (n : ℕ) :
    (w.admit_ n).2 = (recollect seen n).2 ∧ Refines (w.admit_ n).1 (recollect seen n).1 := by
  obtain ⟨hfresh, hnew, hsame⟩ := h.remembers.admit_ n
  rw [Finset.mem_coe, h.top] at hfresh
  by_cases hanswer : (w.admit_ n).2 = .fresh
  · obtain ⟨hmem, habove⟩ := hfresh.mp hanswer
    have hrecollect : recollect seen n = (insert n seen, .fresh) := by
      rw [recollect, if_neg (by omega), if_neg hmem]
    rw [hrecollect]
    refine ⟨hanswer, by simpa using hnew hanswer, ?_⟩
    rw [top_admit_, if_pos hanswer, h.top]
    simp [highest, max_comm]
  · have hold := w.admit_stale n hanswer
    have hkept : Refines (w.admit_ n).1 seen := by
      rw [hsame hanswer]
      exact h
    rw [h.top] at hold
    rw [hold, recollect]
    split_ifs with hfar hmem
    · exact ⟨rfl, hkept⟩
    · exact ⟨rfl, hkept⟩
    · exact absurd (hfresh.mpr ⟨hmem, by omega⟩) hanswer

/-- A bit of the map is the bit of the window one further behind. -/
theorem testBit_map (w : ReplayWindow) (i : ℕ) :
    (word w.seen 0 >>> 1 ||| word w.seen 1 <<< 63).toNat.testBit i = (decide (i < 64) && w.get (i + 1)) := by
  rw [BitVec.testBit_toNat, BitVec.getLsbD_or, BitVec.getLsbD_ushiftRight, BitVec.getLsbD_shiftLeft, get_eq]
  by_cases hlow : i < 63
  · have hdiv : (i + 1) / 64 = 0 := by omega
    have hmod : (i + 1) % 64 = 1 + i := by omega
    simp [hlow, hdiv, hmod, (by omega : i < 64)]
  · by_cases hlast : i = 63
    · subst hlast
      simp
    · have hhigh : ¬ i < 64 := by omega
      simp [hhigh, BitVec.getLsbD_of_ge _ _ (by omega : 64 ≤ 1 + i)]

theorem Refines.acknowledgement (h : Refines w seen) :
    (w.acknowledgement = none ↔ seen = ∅) ∧ ∀ top map, w.acknowledgement = some (top, map) →
      top ∈ seen ∧ top = highest seen ∧
      ∀ i, map.testBit i = true ↔ i < 64 ∧ i + 1 ≤ top ∧ top - (i + 1) ∈ seen := by
  have hzero : w.get 0 = true ↔ highest seen ∈ seen := by
    rw [h.remembers.bits 0 (by decide), h.top]
    simp
  constructor
  · rw [ReplayWindow.acknowledgement]
    split_ifs with hget
    · simp [Finset.ne_empty_of_mem (hzero.mp hget)]
    · simp only [true_iff]
      by_contra hne
      exact hget (hzero.mpr (highest_mem (Finset.nonempty_iff_ne_empty.mpr hne)))
  · intro top map hack
    rw [ReplayWindow.acknowledgement] at hack
    split_ifs at hack with hget
    cases hack
    refine ⟨h.top ▸ hzero.mp hget, h.top, fun i => ?_⟩
    rw [testBit_map, Bool.and_eq_true, decide_eq_true_iff]
    apply and_congr_right
    intro hi
    rw [h.remembers.bits (i + 1) (by rw [windowWidth]; omega), Finset.mem_coe]

/-- Whatever numbers a window is given, it answers each as the set of all numbers admitted
does, and what it acknowledges is the highest of the set and which of the 64 numbers below
that are in it. -/
theorem window_refines_set (numbers : List ℕ) :
    (answers ReplayWindow.admit_ new numbers).2 = (answers recollect ∅ numbers).2 ∧
    ((answers ReplayWindow.admit_ new numbers).1.acknowledgement = none ↔ (answers recollect ∅ numbers).1 = ∅) ∧
    ∀ top map, (answers ReplayWindow.admit_ new numbers).1.acknowledgement = some (top, map) →
      top ∈ (answers recollect ∅ numbers).1 ∧ top = highest (answers recollect ∅ numbers).1 ∧
      ∀ i, map.testBit i = true ↔ i < 64 ∧ i + 1 ≤ top ∧ top - (i + 1) ∈ (answers recollect ∅ numbers).1 := by
  obtain ⟨hanswers, hrefines⟩ := answers_refine (R := Refines) (fun _ _ n h => h.admit_ n) refines_new numbers
  exact ⟨hanswers, hrefines.acknowledgement⟩

example : (answers recollect ∅ [5, 300, 5, 300, 45, 44]).2 = [.fresh, .fresh, .tooOld, .replay, .fresh, .tooOld] := by decide

end ReplayWindow

end Braid.Dgram
