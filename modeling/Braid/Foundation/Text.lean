import Mathlib.Data.List.DropRight
import Mathlib.Algebra.GroupWithZero.Nat

/-! Text addressed by bytes. A text is a list of characters, an offset into it
counts the bytes of its UTF-8 form, and an offset is a boundary when some
prefix is exactly that long. Every character has a byte, so a boundary has one
prefix; splitting at an offset is therefore the same as writing the text as an
append, and the lemmas here turn the first into the second. -/

namespace Braid.Foundation

abbrev Text := List Char

namespace Text

def byteLen (t : Text) : ℕ := (t.map Char.utf8Size).sum

@[simp] theorem byteLen_nil : byteLen [] = 0 := rfl

@[simp] theorem byteLen_cons (c : Char) (t : Text) : byteLen (c :: t) = c.utf8Size + byteLen t := by
  simp [byteLen]

@[simp] theorem byteLen_append (a b : Text) : byteLen (a ++ b) = byteLen a + byteLen b := by
  simp [byteLen]

@[simp] theorem byteLen_eq_zero {t : Text} : byteLen t = 0 ↔ t = [] := by
  cases t with
  | nil => simp
  | cons c t =>
    have := c.utf8Size_pos
    simp
    omega

def splitAt? : Text → ℕ → Option (Text × Text)
  | t, 0 => some ([], t)
  | [], _ + 1 => none
  | c :: t, n + 1 =>
    if c.utf8Size ≤ n + 1 then (splitAt? t (n + 1 - c.utf8Size)).map fun (a, b) => (c :: a, b) else none

theorem splitAt?_append (a b : Text) : splitAt? (a ++ b) (byteLen a) = some (a, b) := by
  induction a with
  | nil => simp [splitAt?]
  | cons c a ih =>
    have hpos := c.utf8Size_pos
    obtain ⟨n, hn⟩ : ∃ n, byteLen (c :: a) = n + 1 := ⟨byteLen (c :: a) - 1, by simp; omega⟩
    have hrest : n + 1 - c.utf8Size = byteLen a := by
      rw [← hn, byteLen_cons]
      omega
    have hle : c.utf8Size ≤ n + 1 := by
      rw [← hn, byteLen_cons]
      omega
    rw [hn, List.cons_append, splitAt?, if_pos hle, hrest, ih]
    rfl

theorem splitAt?_eq_some {t a b : Text} {n : ℕ} : splitAt? t n = some (a, b) ↔ t = a ++ b ∧ byteLen a = n := by
  constructor
  · intro h
    induction t, n using splitAt?.induct generalizing a with
    | case1 t => simp_all [splitAt?]
    | case2 => simp [splitAt?] at h
    | case3 c t n hle ih =>
      rw [splitAt?, if_pos hle, Option.map_eq_some_iff] at h
      obtain ⟨⟨a', b'⟩, hs, heq⟩ := h
      cases heq
      obtain ⟨rfl, hlen⟩ := ih hs
      exact ⟨rfl, by rw [byteLen_cons, hlen]; omega⟩
    | case4 c t n hle => simp [splitAt?, hle] at h
  · rintro ⟨rfl, rfl⟩
    exact splitAt?_append a b

def get? (t : Text) (start stop : ℕ) : Option Text :=
  if start ≤ stop then (splitAt? t start).bind fun (_, b) => (splitAt? b (stop - start)).map Prod.fst else none

theorem get?_append (a s b : Text) : get? (a ++ s ++ b) (byteLen a) (byteLen a + byteLen s) = some s := by
  simp only [get?, Nat.le_add_right, if_true, List.append_assoc, splitAt?_append, Option.bind_some,
    Nat.add_sub_cancel_left, Option.map_some]

theorem get?_eq_some {t s : Text} {i j : ℕ} :
    get? t i j = some s ↔ ∃ a b, t = a ++ s ++ b ∧ byteLen a = i ∧ byteLen a + byteLen s = j := by
  constructor
  · intro h
    unfold get? at h
    split_ifs at h with hle
    obtain ⟨⟨a, r⟩, hr, hs⟩ := Option.bind_eq_some_iff.mp h
    obtain ⟨⟨s', b⟩, hb, rfl⟩ := Option.map_eq_some_iff.mp hs
    obtain ⟨rfl, ha⟩ := splitAt?_eq_some.mp hr
    obtain ⟨rfl, hs'⟩ := splitAt?_eq_some.mp hb
    exact ⟨a, b, by simp, ha, by simp only; omega⟩
  · rintro ⟨a, b, rfl, rfl, rfl⟩
    exact get?_append a s b

def isBoundary (t : Text) (n : ℕ) : Bool := (splitAt? t n).isSome

/-- The text without the blanks it ends in. -/
def trimEnd (t : Text) : Text := t.rdropWhile (· = ' ')

theorem trimEnd_isPrefix (t : Text) : trimEnd t <+: t := List.rdropWhile_prefix _ t

theorem getD_of_trimEnd_le {t : Text} {k : ℕ} (h : (trimEnd t).length ≤ k) : t.getD k ' ' = ' ' := by
  have hsplit : t = trimEnd t ++ t.rtakeWhile (· = ' ') := List.rdropWhile_append_rtakeWhile.symm
  rw [List.getD_eq_getElem?_getD, hsplit, List.getElem?_append_right h]
  cases hc : (t.rtakeWhile (· = ' '))[k - (trimEnd t).length]? with
  | none => rfl
  | some c => simpa using List.mem_rtakeWhile_imp (List.mem_of_getElem? hc)

theorem byteLen_le_of_isPrefix {a t : Text} (h : a <+: t) : byteLen a ≤ byteLen t := by
  obtain ⟨b, rfl⟩ := h
  simp

theorem trimEnd_append (a b : Text) :
    trimEnd (a ++ b) = if trimEnd b = [] then trimEnd a else a ++ trimEnd b := by
  simp only [trimEnd, List.rdropWhile, List.reverse_append, List.dropWhile_append, List.reverse_eq_nil_iff,
    List.isEmpty_iff]
  split_ifs <;> simp

end Text

end Braid.Foundation
