import Mathlib.Data.Nat.Init
import Mathlib.Logic.Function.Basic
import Mathlib.Data.Set.Insert

/-! The replay window: which packet numbers have been accepted, as a bitmap of the
256 numbers up to the highest. It answers as a set of all numbers accepted would,
but for the numbers that are too far behind, which it refuses. -/

namespace Braid.Dgram

def windowWidth : ℕ := 256

inductive Admission where
  | fresh
  | replay
  | tooOld
  deriving DecidableEq

structure ReplayWindow where
  top : ℕ
  seen : Fin 4 → BitVec 64

namespace ReplayWindow

def new : ReplayWindow := ⟨0, fun _ => 0⟩

variable (seen : Fin 4 → BitVec 64)

/-- The word at an index, which is below four wherever it is asked for. -/
def word (index : ℕ) : BitVec 64 := if h : index < 4 then seen ⟨index, h⟩ else 0

variable (w : ReplayWindow)

def get (behind : ℕ) : Bool := word w.seen (behind / 64) &&& 1#64 <<< (behind % 64) ≠ 0

def set (behind : ℕ) : ReplayWindow :=
  { w with seen := fun index =>
      if index.val = behind / 64 then w.seen index ||| 1#64 <<< (behind % 64) else w.seen index }

def moveWords (words : ℕ) : Fin 4 → BitVec 64 := fun index =>
  if words ≤ index.val then word seen (index.val - words) else 0

/-- Each word takes the high bits of the one below. -/
def moveBits (bits : ℕ) : Fin 4 → BitVec 64 := fun index =>
  seen index <<< bits ||| if index.val = 0 then 0 else word seen (index.val - 1) >>> (64 - bits)

def slide (count : ℕ) : ReplayWindow :=
  if windowWidth ≤ count then { w with seen := fun _ => 0 }
  else
    let moved := moveWords w.seen (count / 64)
    { w with seen := if count % 64 = 0 then moved else moveBits moved (count % 64) }

def admit_ (number : ℕ) : ReplayWindow × Admission :=
  if w.top < number then ({ w.slide (number - w.top) with top := number }.set 0, .fresh)
  else if windowWidth ≤ w.top - number then (w, .tooOld)
  else if w.get (w.top - number) then (w, .replay)
  else (w.set (w.top - number), .fresh)

/-- The highest number admitted and, as a map, which of the 64 below it were. -/
def acknowledgement : Option (ℕ × ℕ) :=
  if w.get 0 then some (w.top, (word w.seen 0 >>> 1 ||| word w.seen 1 <<< 63).toNat) else none

/-! ### Bits -/

variable {w : ReplayWindow} {i k n : ℕ}

theorem and_bit (x : BitVec 64) (hi : i < 64) : decide (x &&& 1#64 <<< i ≠ 0) = x.getLsbD i := by
  have hone : 1#64 <<< i ≠ 0 := fun hzero => by
    have hbit := congrArg (fun y : BitVec 64 => y.getLsbD i) hzero
    simp [hi] at hbit
  rw [← BitVec.twoPow] at hone ⊢
  rw [BitVec.and_twoPow]
  split_ifs with hbit
  · rw [hbit]
    exact decide_eq_true hone
  · rw [Bool.eq_false_iff.mpr hbit]
    exact decide_eq_false (not_not_intro rfl)

theorem get_eq (w : ReplayWindow) (i : ℕ) : w.get i = (word w.seen (i / 64)).getLsbD (i % 64) :=
  and_bit _ (Nat.mod_lt _ (by decide))

variable {seen : Fin 4 → BitVec 64}

theorem word_lt (hi : i < 4) : word seen i = seen ⟨i, hi⟩ := dif_pos hi

theorem get_set (hi : i < 256) : (w.set k).get i = (w.get i || decide (i = k)) := by
  have hword : i / 64 < 4 := by omega
  rw [get_eq, get_eq, word_lt hword, word_lt hword]
  dsimp only [set]
  have hiff : i = k ↔ i / 64 = k / 64 ∧ i % 64 = k % 64 := by omega
  by_cases hsame : i / 64 = k / 64
  · rw [if_pos hsame, BitVec.getLsbD_or, ← BitVec.twoPow, BitVec.getLsbD_twoPow]
    congr 1
    rw [Bool.eq_iff_iff]
    simp only [Bool.and_eq_true, decide_eq_true_iff, hiff]
    omega
  · rw [if_neg hsame, decide_eq_false (by omega), Bool.or_false]

theorem getLsbD_moveWords {words : ℕ} (hi : i < 256) :
    (word (moveWords seen words) (i / 64)).getLsbD (i % 64) =
      (decide (64 * words ≤ i) && (word seen ((i - 64 * words) / 64)).getLsbD ((i - 64 * words) % 64)) := by
  have hword : i / 64 < 4 := by omega
  rw [word_lt hword, moveWords]
  by_cases hle : 64 * words ≤ i
  · have hdiv : (i - 64 * words) / 64 = i / 64 - words := by omega
    have hmod : (i - 64 * words) % 64 = i % 64 := by omega
    rw [if_pos (by dsimp only; omega), decide_eq_true hle, hdiv, hmod, Bool.true_and]
  · rw [if_neg (by dsimp only; omega), decide_eq_false hle]
    simp

theorem getLsbD_moveBits {bits : ℕ} (hbits : 0 < bits) (hlt : bits < 64) (hi : i < 256) :
    (word (moveBits seen bits) (i / 64)).getLsbD (i % 64) =
      (decide (bits ≤ i) && (word seen ((i - bits) / 64)).getLsbD ((i - bits) % 64)) := by
  have hword : i / 64 < 4 := by omega
  have hmod : i % 64 < 64 := Nat.mod_lt _ (by decide)
  rw [word_lt hword, moveBits, BitVec.getLsbD_or, BitVec.getLsbD_shiftLeft]
  by_cases hle : bits ≤ i % 64
  · -- The bit comes from the same word, and the word below reaches below `bits`.
    have hdiv : (i - bits) / 64 = i / 64 := by omega
    have hrest : (i - bits) % 64 = i % 64 - bits := by omega
    have hlow : (if i / 64 = 0 then 0 else word seen (i / 64 - 1) >>> (64 - bits)).getLsbD (i % 64) = false := by
      split_ifs
      · simp
      · rw [BitVec.getLsbD_ushiftRight]
        exact BitVec.getLsbD_of_ge _ _ (by omega)
    rw [hlow, hdiv, hrest, word_lt hword]
    simp [hmod, Nat.not_lt.mpr hle, (by omega : bits ≤ i)]
  · by_cases hzero : i / 64 = 0
    · have hbelow : ¬ bits ≤ i := by omega
      simp [hzero, (by omega : i % 64 < bits), hbelow]
    · have hdiv : (i - bits) / 64 = i / 64 - 1 := by omega
      have hrest : (i - bits) % 64 = 64 - bits + i % 64 := by omega
      simp [hzero, (by omega : i % 64 < bits), (by omega : bits ≤ i), hdiv, hrest]

theorem get_slide (hi : i < 256) : (w.slide k).get i = (decide (k ≤ i) && w.get (i - k)) := by
  rw [get_eq, get_eq]
  unfold slide
  split_ifs with hwide hbits
  · rw [decide_eq_false (by rw [windowWidth] at hwide; omega)]
    simp [word]
  · dsimp only
    rw [getLsbD_moveWords hi, show 64 * (k / 64) = k by omega]
  · dsimp only
    rw [getLsbD_moveBits (by omega) (Nat.mod_lt _ (by decide)) hi]
    by_cases hle : k % 64 ≤ i
    · rw [getLsbD_moveWords (by omega), decide_eq_true hle, Bool.true_and,
        show i - k % 64 - 64 * (k / 64) = i - k by omega]
      congr 1
      rw [decide_eq_decide]
      omega
    · rw [decide_eq_false hle, decide_eq_false (by omega), Bool.false_and, Bool.false_and]

/-! ### The numbers admitted -/

/-- The window as the set of all numbers it has admitted, none of which is above its
top; its bits are those of the set that lie within its width. -/
structure Remembers (w : ReplayWindow) (admitted : Set ℕ) : Prop where
  le_top : ∀ n ∈ admitted, n ≤ w.top
  bits : ∀ i < windowWidth, w.get i = true ↔ i ≤ w.top ∧ w.top - i ∈ admitted

theorem remembers_new : Remembers new ∅ := by
  refine ⟨nofun, fun i _ => ?_⟩
  simp [get, new, word]

variable {admitted : Set ℕ}

theorem top_set (w : ReplayWindow) (k : ℕ) : (w.set k).top = w.top := rfl

theorem top_admit_ (w : ReplayWindow) (n : ℕ) :
    (w.admit_ n).1.top = if (w.admit_ n).2 = .fresh then max w.top n else w.top := by
  unfold admit_
  by_cases habove : w.top < n
  · simp [habove, habove.le, top_set]
  by_cases hold : windowWidth ≤ w.top - n
  · simp [habove, hold]
  by_cases hseen : w.get (w.top - n) = true
  · simp [habove, hold, hseen]
  · simp [habove, hold, hseen, top_set, not_lt.mp habove]

/-- A number is admitted exactly if it is new and not too far behind, and then remembered;
otherwise nothing changes. -/
theorem Remembers.admit_ (h : Remembers w admitted) (n : ℕ) :
    ((w.admit_ n).2 = .fresh ↔ n ∉ admitted ∧ w.top < n + windowWidth) ∧
      ((w.admit_ n).2 = .fresh → Remembers (w.admit_ n).1 (insert n admitted)) ∧
      ((w.admit_ n).2 ≠ .fresh → (w.admit_ n).1 = w) := by
  unfold ReplayWindow.admit_
  split_ifs with habove hold hseen
  · have hnew : n ∉ admitted := fun hmem => absurd (h.le_top n hmem) (by omega)
    refine ⟨iff_of_true rfl ⟨hnew, by omega⟩, fun _ => ⟨fun m hm => ?_, fun i hi => ?_⟩, fun hne => absurd rfl hne⟩
    · obtain rfl | hm := hm
      · exact le_rfl
      · exact (h.le_top m hm).trans habove.le
    · have hget : ({ w.slide (n - w.top) with top := n }.set 0).get i =
          (decide (n - w.top ≤ i) && w.get (i - (n - w.top)) || decide (i = 0)) := by
        rw [get_set hi, ← get_slide hi]
        rfl
      rw [hget, Bool.or_eq_true, Bool.and_eq_true, decide_eq_true_iff, decide_eq_true_iff,
        h.bits _ (Nat.lt_of_le_of_lt (Nat.sub_le _ _) hi), Set.mem_insert_iff, top_set]
      dsimp only
      have hback : n - w.top ≤ i → i ≤ n → w.top - (i - (n - w.top)) = n - i := by omega
      have hfar : n - i ∈ admitted → n - w.top ≤ i := fun hmem => by have := h.le_top _ hmem; omega
      constructor
      · rintro (⟨hle, hbound, hmem⟩ | rfl)
        · exact ⟨by omega, .inr (hback hle (by omega) ▸ hmem)⟩
        · exact ⟨Nat.zero_le _, .inl rfl⟩
      · rintro ⟨hle, heq | hmem⟩
        · exact .inr (by omega)
        · exact .inl ⟨hfar hmem, by omega, (hback (hfar hmem) hle).symm ▸ hmem⟩
  · exact ⟨iff_of_false nofun (by omega), nofun, fun _ => rfl⟩
  · have hmem : n ∈ admitted := by
      have := ((h.bits _ (Nat.not_le.mp hold)).mp hseen).2
      rwa [show w.top - (w.top - n) = n by omega] at this
    exact ⟨iff_of_false nofun fun hnew => hnew.1 hmem, nofun, fun _ => rfl⟩
  · have hnew : n ∉ admitted := fun hmem => hseen ((h.bits _ (Nat.not_le.mp hold)).mpr
      ⟨by omega, by rwa [show w.top - (w.top - n) = n by omega]⟩)
    refine ⟨iff_of_true rfl ⟨hnew, by omega⟩, fun _ => ⟨fun m hm => ?_, fun i hi => ?_⟩, fun hne => absurd rfl hne⟩
    · obtain rfl | hm := hm
      · exact Nat.not_lt.mp habove
      · exact h.le_top m hm
    · rw [get_set hi, Bool.or_eq_true, decide_eq_true_iff, h.bits i hi, Set.mem_insert_iff, top_set]
      constructor
      · rintro (⟨hle, hmem⟩ | rfl)
        · exact ⟨hle, .inr hmem⟩
        · exact ⟨by omega, .inl (by omega)⟩
      · rintro ⟨hle, heq | hmem⟩
        · exact .inr (by omega)
        · exact .inl ⟨hle, hmem⟩

end ReplayWindow

end Braid.Dgram
