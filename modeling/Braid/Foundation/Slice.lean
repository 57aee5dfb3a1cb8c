import Mathlib.Data.List.Basic
import Mathlib.Data.List.Infix

/-! Pieces of a sequence at their offsets. `At S off xs` says that `xs` is what
`S` holds from `off` on, for as long as `xs` is. A transfer that moves pieces
of a sequence about is right when every piece it moves is `At` its offset. -/

namespace Braid.Foundation

variable {α : Type*} {S T xs : List α} {off n k : ℕ}

/-- `xs` stands in `S` at `off`; an empty piece may stand at the very end. -/
def At (S : List α) (off : ℕ) (xs : List α) : Prop :=
  off ≤ S.length ∧ xs <+: S.drop off

theorem At.length_le (h : At S off xs) : off + xs.length ≤ S.length := by
  obtain ⟨ho, hp⟩ := h
  have := hp.length_le
  rw [List.length_drop] at this
  omega

theorem At.append (h : At S off xs) (T : List α) : At (S ++ T) off xs := by
  obtain ⟨ho, hp⟩ := h
  refine ⟨by rw [List.length_append]; omega, ?_⟩
  rw [List.drop_append_of_le_length ho]
  exact hp.trans (List.prefix_append _ _)

theorem At.nil (h : off ≤ S.length) : At S off [] := ⟨h, List.nil_prefix⟩

theorem At.drop (h : At S off xs) (hk : k ≤ xs.length) : At S (off + k) (xs.drop k) := by
  obtain ⟨ys, hys⟩ := h.2
  refine ⟨by have := h.length_le; omega, ys, ?_⟩
  rw [← List.drop_drop, ← hys, List.drop_append_of_le_length hk]

theorem At.snoc {x : α} (h : At S off xs) (hx : S[off + xs.length]? = some x) : At S off (xs ++ [x]) := by
  obtain ⟨ys, hys⟩ := h.2
  refine ⟨h.1, ?_⟩
  rw [← List.getElem?_drop, ← hys, List.getElem?_append_right le_rfl, Nat.sub_self] at hx
  obtain ⟨zs, rfl⟩ := List.head?_eq_some_iff.mp (List.head?_eq_getElem? ▸ hx)
  exact ⟨zs, by rw [← hys, List.append_assoc, List.singleton_append]⟩

theorem At.take_append (h : At S n xs) : S.take n ++ xs = S.take (n + xs.length) := by
  obtain ⟨ys, hys⟩ := h.2
  rw [List.take_add, ← hys, List.take_left]

/-- What a piece that overlaps a prefix adds to it. -/
theorem At.take_append_drop (h : At S off xs) (ho : off ≤ n) (hn : n ≤ off + xs.length) :
    S.take n ++ xs.drop (n - off) = S.take (off + xs.length) := by
  have hd : At S (off + (n - off)) (xs.drop (n - off)) := h.drop (by omega)
  rw [show off + (n - off) = n by omega] at hd
  rw [hd.take_append, List.length_drop, show n + (xs.length - (n - off)) = off + xs.length by omega]

theorem takeWhile_eq_filter {R : α → α → Prop} {p : α → Bool} (h : xs.Pairwise R)
    (hdown : ∀ a b, R a b → p b = true → p a = true) :
    xs.takeWhile p = xs.filter p ∧ xs.dropWhile p = xs.filter (!p ·) := by
  induction xs with
  | nil => exact ⟨rfl, rfl⟩
  | cons x xs ih =>
    obtain ⟨hfirst, hrest⟩ := List.pairwise_cons.mp h
    cases hx : p x with
    | true => simpa [hx] using ih hrest
    | false =>
      have hnone : ∀ y ∈ xs, p y = false := fun y hy =>
        Bool.eq_false_iff.mpr fun hp => Bool.false_ne_true (hx.symm.trans (hdown x y (hfirst y hy) hp))
      simp only [List.takeWhile_cons, List.dropWhile_cons, List.filter_cons, hx, Bool.not_false, if_true,
        Bool.false_eq_true, if_false, List.cons.injEq, true_and]
      constructor
      · rw [List.filter_eq_nil_iff.mpr fun y hy => Bool.eq_false_iff.mp (hnone y hy)]
      · rw [List.filter_eq_self.mpr fun y hy => by rw [hnone y hy]; rfl]

end Braid.Foundation
