import Mathlib.Data.Nat.Bitwise
import Mathlib.Data.List.Pairwise

/-! Machine words. The set bits of a word are read off by finding the lowest and
clearing it; the list is ascending and holds exactly the bits that are set. -/

namespace Braid.Foundation

def u16Max : ℕ := 65535

namespace Bits

/-- The lowest set bit, counting at most `width` zeros. -/
def trailingZeros : ℕ → ℕ → ℕ
  | 0, _ => 0
  | width + 1, w => if w % 2 = 1 then 0 else trailingZeros width (w / 2) + 1

/-- The set bits in the order `w & (w - 1)` uncovers them. -/
def setBits : ℕ → ℕ → List ℕ
  | 0, _ => []
  | fuel + 1, w => if w = 0 then [] else trailingZeros 64 w :: setBits fuel (w &&& (w - 1))

theorem trailingZeros_spec {width w : ℕ} (hpos : 0 < w) (hlt : w < 2 ^ width) :
    ∃ k, w = 2 ^ trailingZeros width w * (2 * k + 1) := by
  induction width generalizing w with
  | zero => omega
  | succ width ih =>
    rw [trailingZeros]
    split_ifs with hodd
    · exact ⟨w / 2, by omega⟩
    · obtain ⟨k, hk⟩ := ih (w := w / 2) (by omega) (by omega)
      refine ⟨k, ?_⟩
      rw [pow_succ, Nat.mul_right_comm, ← hk]
      omega

theorem split_lowest (i k : ℕ) : 2 ^ i * (2 * k + 1) = 2 ^ (i + 1) * k + 2 ^ i := by
  rw [pow_succ, Nat.mul_add, Nat.mul_one, ← Nat.mul_assoc]

theorem clear_lowest (i k : ℕ) :
    2 ^ i * (2 * k + 1) &&& (2 ^ i * (2 * k + 1) - 1) = 2 ^ (i + 1) * k := by
  have hpos := Nat.two_pow_pos i
  have hi : 2 ^ i < 2 ^ (i + 1) := Nat.pow_lt_pow_right (by decide) (Nat.lt_succ_self i)
  have hsub : 2 ^ i * (2 * k + 1) - 1 = 2 ^ (i + 1) * k + (2 ^ i - 1) := by
    rw [split_lowest, Nat.add_sub_assoc hpos]
  apply Nat.eq_of_testBit_eq
  intro j
  rw [Nat.testBit_and, hsub, split_lowest, Nat.testBit_two_pow_mul_add _ hi,
    Nat.testBit_two_pow_mul_add _ (by omega), Nat.testBit_two_pow_mul]
  rcases Nat.lt_or_ge j (i + 1) with hj | hj
  · rw [if_pos hj, if_pos hj, Nat.testBit_two_pow, Nat.testBit_two_pow_sub_one]
    simp only [decide_eq_false (Nat.not_le.mpr hj), Bool.false_and, Bool.and_eq_false_iff, decide_eq_false_iff_not]
    omega
  · rw [if_neg (Nat.not_lt.mpr hj), if_neg (Nat.not_lt.mpr hj), Bool.and_self, decide_eq_true hj, Bool.true_and]

theorem testBit_lowest (i k j : ℕ) :
    (2 ^ i * (2 * k + 1)).testBit j = true ↔ j = i ∨ (2 ^ (i + 1) * k).testBit j = true := by
  have hi : 2 ^ i < 2 ^ (i + 1) := Nat.pow_lt_pow_right (by decide) (Nat.lt_succ_self i)
  rw [split_lowest, Nat.testBit_two_pow_mul_add _ hi, Nat.testBit_two_pow_mul, Nat.testBit_two_pow]
  split_ifs with hj
  · simp only [decide_eq_true_eq, Bool.and_eq_true]
    omega
  · have hne : j ≠ i := by omega
    rw [decide_eq_true (Nat.not_lt.mp hj), Bool.true_and, or_iff_right hne]

/-- The invariant of the walk: below `m` there is nothing left. -/
theorem setBits_spec {fuel m w : ℕ} (hlt : w < 2 ^ 64) (hm : 2 ^ m ∣ w) (hfuel : 64 ≤ m + fuel) :
    (∀ j, j ∈ setBits fuel w ↔ w.testBit j = true) ∧ (∀ j ∈ setBits fuel w, m ≤ j) ∧
      (setBits fuel w).Pairwise (· < ·) := by
  induction fuel generalizing m w with
  | zero =>
    have hw : w = 0 := Nat.eq_zero_of_dvd_of_lt hm (hlt.trans_le (Nat.pow_le_pow_right (by decide) hfuel))
    simp [setBits, hw]
  | succ fuel ih =>
    rw [setBits]
    split_ifs with hw
    · simp [hw]
    · obtain ⟨k, hk⟩ := trailingZeros_spec (Nat.pos_of_ne_zero hw) hlt
      set t := trailingZeros 64 w
      have hmt : m ≤ t := by
        by_contra hcon
        have hdvd : 2 ^ (t + 1) ∣ 2 ^ t * (2 * k + 1) := hk ▸ (pow_dvd_pow 2 (by omega)).trans hm
        rw [pow_succ, Nat.mul_dvd_mul_iff_left (Nat.two_pow_pos t)] at hdvd
        omega
      have hrest : w &&& (w - 1) = 2 ^ (t + 1) * k := by rw [hk, clear_lowest]
      have hle : 2 ^ (t + 1) * k ≤ w := by rw [hk, split_lowest]; exact Nat.le_add_right _ _
      obtain ⟨hmem, hlow, hasc⟩ := ih (hle.trans_lt hlt) (Dvd.intro k rfl) (by omega)
      rw [hrest]
      refine ⟨fun j => ?_, ?_, List.pairwise_cons.mpr ⟨fun j hj => hlow j hj, hasc⟩⟩
      · rw [List.mem_cons, hmem, hk, testBit_lowest]
      · rintro j (_ | ⟨_, hj⟩)
        · exact hmt
        · have := hlow j hj
          omega

end Bits

end Braid.Foundation
