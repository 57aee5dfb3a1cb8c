import Mathlib.Data.Nat.Init
import Mathlib.Data.List.Induction
import Mathlib.Algebra.Group.Nat.Defs

/-! Numbers as bytes, most significant first, in a given number of bytes. -/

namespace Braid.Foundation

def beBytes : ℕ → ℕ → List UInt8
  | 0, _ => []
  | width + 1, n => beBytes width (n / 256) ++ [UInt8.ofNat n]

def ofBeBytes (bytes : List UInt8) : ℕ := bytes.foldl (fun n byte => 256 * n + byte.toNat) 0

theorem ofBeBytes_concat (bytes : List UInt8) (byte : UInt8) :
    ofBeBytes (bytes ++ [byte]) = 256 * ofBeBytes bytes + byte.toNat := by
  rw [ofBeBytes, ofBeBytes, List.foldl_append, List.foldl_cons, List.foldl_nil]

@[simp] theorem length_beBytes (width n : ℕ) : (beBytes width n).length = width := by
  induction width generalizing n with
  | zero => rfl
  | succ width ih => rw [beBytes, List.length_append, ih, List.length_singleton]

theorem ofBeBytes_beBytes {width n : ℕ} (h : n < 256 ^ width) : ofBeBytes (beBytes width n) = n := by
  induction width generalizing n with
  | zero => exact (Nat.lt_one_iff.mp h).symm
  | succ width ih =>
    have hhigh : n / 256 < 256 ^ width := by
      rw [Nat.pow_succ, Nat.mul_comm] at h
      exact Nat.div_lt_of_lt_mul h
    rw [beBytes, ofBeBytes_concat, ih hhigh, UInt8.toNat_ofNat']
    omega

theorem ofBeBytes_lt (bytes : List UInt8) : ofBeBytes bytes < 256 ^ bytes.length := by
  induction bytes using List.reverseRecOn with
  | nil => exact Nat.one_pos
  | append_singleton bytes byte ih =>
    have := byte.toNat_lt
    rw [ofBeBytes_concat, List.length_append, List.length_singleton, Nat.pow_succ]
    omega

end Braid.Foundation
