import Mathlib.Data.Nat.Bitwise
import Mathlib.Data.List.Basic

/-! Words read as lanes of eight bits, least significant first, and the search for
a zero lane in one subtraction: taking one from every lane borrows into the high
bit of a lane that was below 128 only if the lowest such lane is zero. The order
of the lanes plays no part in whether one is found. -/

namespace Braid.Foundation

/-- The word whose lanes these are. -/
def ofLanes (lanes : List ℕ) : ℕ := lanes.foldr (fun lane word => 256 * word + lane) 0

namespace Lanes

variable {lanes lanes' : List ℕ} {x y v w n : ℕ}

theorem ofLanes_cons (x : ℕ) (lanes : List ℕ) : ofLanes (x :: lanes) = 256 * ofLanes lanes + x := rfl

theorem ofLanes_lt (h : ∀ x ∈ lanes, x < 256) : ofLanes lanes < 256 ^ lanes.length := by
  induction lanes with
  | nil => exact Nat.one_pos
  | cons x lanes ih =>
    have hword := ih fun y hy => h y (List.mem_cons_of_mem _ hy)
    have hx := h x List.mem_cons_self
    rw [ofLanes_cons, List.length_cons, Nat.pow_succ]
    omega

/-! ### Lane by lane -/

theorem testBit_lane (hx : x < 256) (i : ℕ) :
    (256 * v + x).testBit i = if i < 8 then x.testBit i else v.testBit (i - 8) :=
  Nat.testBit_two_pow_mul_add v (i := 8) hx i

theorem and_lane (hx : x < 256) (hy : y < 256) : (256 * v + x) &&& (256 * w + y) = 256 * (v &&& w) + (x &&& y) := by
  apply Nat.eq_of_testBit_eq
  intro i
  rw [Nat.testBit_and, testBit_lane hx, testBit_lane hy, testBit_lane (Nat.and_lt_two_pow x (n := 8) hy)]
  split_ifs <;> rw [Nat.testBit_and]

theorem xor_lane (hx : x < 256) (hy : y < 256) : (256 * v + x) ^^^ (256 * w + y) = 256 * (v ^^^ w) + (x ^^^ y) := by
  apply Nat.eq_of_testBit_eq
  intro i
  rw [Nat.testBit_xor, testBit_lane hx, testBit_lane hy, testBit_lane (Nat.xor_lt_two_pow (n := 8) hx hy)]
  split_ifs <;> rw [Nat.testBit_xor]

theorem xor_replicate (h : ∀ x ∈ lanes, x < 256) (hy : y < 256) :
    ofLanes lanes ^^^ ofLanes (List.replicate lanes.length y) = ofLanes (lanes.map (· ^^^ y)) := by
  induction lanes with
  | nil => exact Nat.xor_self 0
  | cons x lanes ih =>
    rw [List.length_cons, List.replicate_succ, ofLanes_cons, ofLanes_cons, xor_lane (h x List.mem_cons_self) hy,
      ih fun y hy => h y (List.mem_cons_of_mem _ hy), List.map_cons, ofLanes_cons]

/-! ### Zero lanes -/

/-- The bit tested in each lane once one is taken from every lane. -/
def borrows (lanes : List ℕ) : ℕ :=
  (ofLanes lanes + 256 ^ lanes.length - ofLanes (List.replicate lanes.length 1)) % 256 ^ lanes.length &&&
    (256 ^ lanes.length - 1 - ofLanes lanes) &&& ofLanes (List.replicate lanes.length 128)

theorem replicate_lt (hy : y < 256) (n : ℕ) : ofLanes (List.replicate n y) < 256 ^ n := by
  have hlanes : ∀ x ∈ List.replicate n y, x < 256 := fun x hx => List.eq_of_mem_replicate hx ▸ hy
  have hlt := ofLanes_lt hlanes
  rwa [List.length_replicate] at hlt

theorem mod_lane (hx : x < 256) : (256 * v + x) % (256 * w) = 256 * (v % w) + x := by
  have hlow : (256 * v + x) % 256 = x := by omega
  have hhigh : (256 * v + x) / 256 = v := by omega
  rw [Nat.mod_mul, hlow, hhigh, Nat.add_comm]

/-- Taking one from a byte sets its high bit only if that was set, or from zero. -/
theorem no_borrow (hx : x < 256) (hne : x ≠ 0) : (x - 1) &&& (255 - x) &&& 128 = 0 := by
  have hall : ∀ b : Fin 256, b.val ≠ 0 → (b.val - 1) &&& (255 - b.val) &&& 128 = 0 := by decide +kernel
  exact hall ⟨x, hx⟩ hne

theorem borrows_cons (h : ∀ x ∈ lanes, x < 256) (hx : x < 256) :
    ∃ rest, (x ≠ 0 → rest = borrows lanes) ∧
      borrows (x :: lanes) = 256 * rest + ((if x = 0 then 255 else x - 1) &&& (255 - x) &&& 128) := by
  have hword := ofLanes_lt h
  have hones := replicate_lt (y := 1) (by omega) lanes.length
  have hpow : 256 ^ (lanes.length + 1) = 256 * 256 ^ lanes.length := by rw [Nat.pow_succ, Nat.mul_comm]
  simp only [borrows, List.length_cons, List.replicate_succ, ofLanes_cons, hpow]
  generalize ofLanes lanes = v at *
  generalize ofLanes (List.replicate lanes.length 1) = u at *
  generalize ofLanes (List.replicate lanes.length 128) = t at *
  generalize 256 ^ lanes.length = m at *
  have hdiff : 256 * v + x + 256 * m - (256 * u + 1) =
      256 * (v + m - u - if x = 0 then 1 else 0) + if x = 0 then 255 else x - 1 := by split_ifs <;> omega
  have hflip : 256 * m - 1 - (256 * v + x) = 256 * (m - 1 - v) + (255 - x) := by omega
  have hlow : (if x = 0 then 255 else x - 1) < 256 := by split_ifs <;> omega
  refine ⟨(v + m - u - if x = 0 then 1 else 0) % m &&& (m - 1 - v) &&& t, fun hne => ?_, ?_⟩
  · rw [if_neg hne, Nat.sub_zero]
  · rw [hdiff, hflip, mod_lane hlow, and_lane hlow (by omega), and_lane (Nat.and_lt_two_pow _ (n := 8) (by omega)) (by omega)]

/-- The test finds a zero lane exactly if there is one. -/
theorem borrows_ne_zero_iff (h : ∀ x ∈ lanes, x < 256) : borrows lanes ≠ 0 ↔ 0 ∈ lanes := by
  induction lanes with
  | nil => simp [borrows, ofLanes]
  | cons x lanes ih =>
    have hlanes : ∀ y ∈ lanes, y < 256 := fun y hy => h y (List.mem_cons_of_mem _ hy)
    obtain ⟨rest, hrest, hborrows⟩ := borrows_cons hlanes (h x List.mem_cons_self)
    rw [hborrows]
    by_cases hx : x = 0
    · subst hx
      exact iff_of_true (by rw [if_pos rfl]; simp) List.mem_cons_self
    · rw [if_neg hx, no_borrow (h x List.mem_cons_self) hx, hrest hx, List.mem_cons, or_iff_right (Ne.symm hx), ← ih hlanes]
      omega

end Lanes

end Braid.Foundation
