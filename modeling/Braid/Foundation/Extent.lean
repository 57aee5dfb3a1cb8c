import Mathlib.Data.List.Basic
import Mathlib.Order.Lattice
import Mathlib.Logic.Basic

/-! The extent of a set of indices below a bound: the least one, and one past
the greatest. An extent is determined by its set, grows by intervals, and is
found in a list by searching it from both ends. -/

namespace Braid.Foundation

/-- `found` is the least element of `D` below `width` and one past the greatest. -/
def Extent (D : ℕ → Prop) (width : ℕ) : Option ℕ × ℕ → Prop
  | (none, last) => last = 0 ∧ ∀ k < width, ¬ D k
  | (some first, last) => first < last ∧ last ≤ width ∧ D first ∧ D (last - 1) ∧ (∀ k < first, ¬ D k) ∧
      ∀ k, last ≤ k → k < width → ¬ D k

namespace Extent

variable {D E : ℕ → Prop} {width : ℕ} {found : Option ℕ × ℕ}

theorem congr (h : Extent D width found) (heq : ∀ k < width, D k ↔ E k) : Extent E width found := by
  obtain ⟨first, last⟩ := found
  cases first with
  | none => exact ⟨h.1, fun k hk => fun hE => h.2 k hk ((heq k hk).mpr hE)⟩
  | some first =>
    obtain ⟨hlt, hle, hfirst, hlast, hbefore, hbehind⟩ := h
    exact ⟨hlt, hle, (heq _ (by omega)).mp hfirst, (heq _ (by omega)).mp hlast,
      fun k hk hE => hbefore k hk ((heq k (by omega)).mpr hE),
      fun k hk hk' hE => hbehind k hk hk' ((heq k hk').mpr hE)⟩

variable {found' : Option ℕ × ℕ}

theorem unique (h : Extent D width found) (h' : Extent D width found') : found = found' := by
  obtain ⟨first, last⟩ := found
  obtain ⟨first', last'⟩ := found'
  cases first with
  | none =>
    cases first' with
    | none => rw [h.1, h'.1]
    | some first' =>
      obtain ⟨hlt, hle, hfirst, -⟩ := h'
      exact absurd hfirst (h.2 _ (by omega))
  | some first =>
    obtain ⟨hlt, hle, hfirst, hlast, hbefore, hbehind⟩ := h
    cases first' with
    | none => exact absurd hfirst (h'.2 _ (by omega))
    | some first' =>
      obtain ⟨hlt', hle', hfirst', hlast', hbefore', hbehind'⟩ := h'
      have h1 : ¬ first < first' := fun hlt => hbefore' _ hlt hfirst
      have h2 : ¬ first' < first := fun hlt => hbefore _ hlt hfirst'
      have h3 : ¬ last < last' := fun hlt => hbehind (last' - 1) (by omega) (by omega) hlast'
      have h4 : ¬ last' < last := fun hlt => hbehind' (last - 1) (by omega) (by omega) hlast
      rw [show first = first' by omega, show last = last' by omega]

/-- Where nothing of a set lies further on, its extent stays. -/
theorem widen {width' : ℕ} (h : Extent D width found) (hle : width ≤ width') (hD : ∀ k, width ≤ k → k < width' → ¬ D k) :
    Extent D width' found := by
  obtain ⟨first, last⟩ := found
  cases first with
  | none =>
    refine ⟨h.1, fun k hk => ?_⟩
    rcases Nat.lt_or_ge k width with hlt | hge
    · exact h.2 k hlt
    · exact hD k hge hk
  | some first =>
    obtain ⟨hlt, hlast_le, hfirst, hlast, hbefore, hbehind⟩ := h
    refine ⟨hlt, hlast_le.trans hle, hfirst, hlast, hbefore, fun k hk hk' => ?_⟩
    rcases Nat.lt_or_ge k width with hlt | hge
    · exact hbehind k hk hlt
    · exact hD k hge hk'

theorem skip (h : Extent D width found) (hD : ¬ D width) : Extent D (width + 1) found := by
  refine h.widen (Nat.le_succ width) fun k hk hk' => ?_
  rwa [show k = width by omega]

theorem take (h : Extent D width found) (hD : D width) : Extent D (width + 1) (some (found.1.getD width), width + 1) := by
  obtain ⟨first, last⟩ := found
  have hlast : ∀ k, width + 1 ≤ k → k < width + 1 → ¬ D k := fun k hk hk' => absurd hk' (Nat.not_lt.mpr hk)
  cases first with
  | none => exact ⟨Nat.lt_succ_self _, le_rfl, hD, hD, h.2, hlast⟩
  | some first =>
    obtain ⟨hlt, hle, hfirst, -, hbefore, -⟩ := h
    exact ⟨by simp only [Option.getD_some]; omega, le_rfl, hfirst, hD, hbefore, hlast⟩

theorem first_eq {width' : ℕ} (h : Extent D width found) (h' : Extent D width' found')
    (hnone : found.1 = none) (hD : D width) (hlt : width < width') : found'.1 = some width := by
  obtain ⟨first, last⟩ := found
  obtain ⟨first', last'⟩ := found'
  obtain rfl : first = none := hnone
  cases first' with
  | none => exact absurd hD (h'.2 width hlt)
  | some first' =>
    obtain ⟨-, -, hfirst', -, hbefore', -⟩ := h'
    have h1 : ¬ first' < width := fun hk => h.2 first' hk hfirst'
    have h2 : ¬ width < first' := fun hk => hbefore' width hk hD
    exact congrArg some (by omega)

theorem interval (h : Extent D width found) {start stop : ℕ} (hlt : start < stop) (hle : stop ≤ width) :
    Extent (fun k => D k ∨ start ≤ k ∧ k < stop) width (some (found.1.elim start (min start)), max found.2 stop) := by
  obtain ⟨first, last⟩ := found
  cases first with
  | none =>
    obtain ⟨rfl, hnone⟩ := h
    refine ⟨by simp; omega, by simp; omega, .inr ⟨le_rfl, hlt⟩, .inr (by simp; omega), ?_, ?_⟩
    · rintro k hk (hD | hin)
      · exact hnone k (by simp at hk; omega) hD
      · simp at hk
        omega
    · rintro k hk hk' (hD | hin)
      · exact hnone k hk' hD
      · simp at hk
        omega
  | some first =>
    obtain ⟨hfl, hlw, hfirst, hlast, hbefore, hbehind⟩ := h
    simp only [Option.elim_some]
    refine ⟨by omega, by omega, ?_, ?_, ?_, ?_⟩
    · rcases Nat.le_total start first with h1 | h1
      · exact .inr (by omega)
      · exact .inl (by rwa [min_eq_right h1])
    · rcases Nat.le_total last stop with h1 | h1
      · exact .inr (by omega)
      · exact .inl (by rwa [max_eq_left h1])
    · rintro k hk (hD | hin)
      · exact hbefore k (by omega) hD
      · omega
    · rintro k hk hk' (hD | hin)
      · exact hbehind k (by omega) hk' hD
      · omega

/-- The extents of a set below a bound and of a set from there on. -/
theorem append {width' : ℕ} (h : Extent D width found)
    (h' : Extent (fun k => D (width + k)) width' found') :
    Extent D (width + width') (found'.1.elim found.1 (fun i => some (found.1.getD (width + i))),
      found'.1.elim found.2 fun _ => width + found'.2) := by
  obtain ⟨first', last'⟩ := found'
  cases first' with
  | none =>
    simp only [Option.elim_none]
    refine h.widen (Nat.le_add_right width width') fun k hk hk' => ?_
    have : ¬ D (width + (k - width)) := h'.2 (k - width) (by omega)
    rwa [Nat.add_sub_cancel' hk] at this
  | some i =>
    obtain ⟨hlt', hle', hfirst', hlast', hbefore', hbehind'⟩ := h'
    simp only [Option.elim_some]
    have hlast : D (width + last' - 1) := by
      rwa [show width + last' - 1 = width + (last' - 1) by omega]
    have hbehind : ∀ k, width + last' ≤ k → k < width + width' → ¬ D k := by
      intro k hk hk'
      have : ¬ D (width + (k - width)) := hbehind' (k - width) (by omega) (by omega)
      rwa [Nat.add_sub_cancel' (by omega)] at this
    obtain ⟨first, last⟩ := found
    cases first with
    | none =>
      refine ⟨by simp only [Option.getD_none]; omega, by omega, hfirst', hlast, fun k hk => ?_, hbehind⟩
      simp only [Option.getD_none] at hk
      rcases Nat.lt_or_ge k width with hlt | hge
      · exact h.2 k hlt
      · have : ¬ D (width + (k - width)) := hbefore' (k - width) (by omega)
        rwa [Nat.add_sub_cancel' hge] at this
    | some first =>
      obtain ⟨hlt, hle, hfirst, -, hbefore, -⟩ := h
      exact ⟨by simp only [Option.getD_some]; omega, by omega, hfirst, hlast, hbefore, hbehind⟩

theorem of_list {α : Type*} {p : α → Bool} {l : List α} (hD : ∀ k (h : k < l.length), D k ↔ p l[k] = true) :
    Extent D l.length (l.findIdx? p, (l.reverse.findIdx? p).elim 0 (l.length - ·)) := by
  cases hfirst : l.findIdx? p with
  | none =>
    have hnone := List.findIdx?_eq_none_iff.mp hfirst
    have hlast : l.reverse.findIdx? p = none :=
      List.findIdx?_eq_none_iff.mpr fun x hx => hnone x (List.mem_reverse.mp hx)
    refine ⟨by rw [hlast]; rfl, fun k hk hp => ?_⟩
    rw [hD k hk, hnone _ (List.getElem_mem hk)] at hp
    cases hp
  | some i =>
    obtain ⟨hi, hp, hbefore⟩ := List.findIdx?_eq_some_iff_getElem.mp hfirst
    cases hlast : l.reverse.findIdx? p with
    | none =>
      have := List.findIdx?_eq_none_iff.mp hlast l[i] (List.mem_reverse.mpr (List.getElem_mem hi))
      rw [hp] at this
      cases this
    | some j =>
      obtain ⟨hj, hpj, hbehind⟩ := List.findIdx?_eq_some_iff_getElem.mp hlast
      rw [List.length_reverse] at hj
      rw [List.getElem_reverse] at hpj
      have hij : ¬ l.length - 1 - j < i := fun hlt => hbefore _ hlt hpj
      simp only [Option.elim_some]
      have hlast' : l.length - j - 1 < l.length := by omega
      refine ⟨by omega, by omega, (hD i hi).mpr hp, (hD _ hlast').mpr ?_,
        fun k hk hpk => hbefore k hk ((hD k (by omega)).mp hpk), fun k hk hk' hpk => ?_⟩
      · simpa only [Nat.sub_right_comm] using hpj
      · refine hbehind (l.length - 1 - k) (by omega) ?_
        rw [List.getElem_reverse]
        simpa only [show l.length - 1 - (l.length - 1 - k) = k by omega] using (hD k hk').mp hpk

theorem exists_extent (D : ℕ → Prop) [DecidablePred D] (width : ℕ) : ∃ found, Extent D width found := by
  have h : Extent D (List.range width).length _ := of_list (p := fun k => decide (D k)) fun k hk => by simp
  rw [List.length_range] at h
  exact ⟨_, h⟩

end Extent

end Braid.Foundation
