import Mathlib.Order.MinMax
import Mathlib.Data.List.Pairwise

/-! Half-open intervals and the maximal runs of the points they cover. A walk over
intervals in the order of their starts keeps one run open and extends it by every interval
that overlaps or abuts it; the runs it leaves are the maximal ones, and there is only one
list of those. -/

namespace Braid.Foundation

variable {α : Type*} [LinearOrder α] {P : α → Prop} {p : α} {run span : α × α} {runs spans : List (α × α)}

def Covered (spans : List (α × α)) (p : α) : Prop := ∃ span ∈ spans, span.1 ≤ p ∧ p < span.2

theorem not_covered_nil : ¬Covered [] p := by simp [Covered]

theorem covered_cons : Covered (span :: spans) p ↔ (span.1 ≤ p ∧ p < span.2) ∨ Covered spans p := by simp [Covered]

/-- `runs` are the maximal runs of the points of `P`, lowest first: none is empty, and
between two of them is a point that is not of `P`. -/
structure Runs (P : α → Prop) (runs : List (α × α)) : Prop where
  proper : ∀ run ∈ runs, run.1 < run.2
  apart : runs.Pairwise fun a b => a.2 < b.1
  covers : ∀ p, Covered runs p ↔ P p

section

variable (h : Runs P (run :: runs))

include h

theorem Runs.past (hp : Covered runs p) : run.2 < p := by
  obtain ⟨span, hspan, hstart, -⟩ := hp
  exact ((List.pairwise_cons.mp h.apart).1 span hspan).trans_le hstart

theorem Runs.start_le (hp : P p) : run.1 ≤ p := by
  rcases covered_cons.mp ((h.covers p).mpr hp) with hfirst | hrest
  · exact hfirst.1
  · exact (h.proper run List.mem_cons_self).le.trans (h.past hrest).le

theorem Runs.start : P run.1 :=
  (h.covers _).mp (covered_cons.mpr (.inl ⟨le_rfl, h.proper run List.mem_cons_self⟩))

theorem Runs.stop_le (h' : Runs P (span :: spans)) (hstart : span.1 = run.1) :
    span.2 ≤ run.2 := by
  -- the end of a run is not of `P`, so no run that starts where it does goes past it
  by_contra hlt
  have hstop : P run.2 := by
    apply (h'.covers _).mp
    have hproper := h.proper run List.mem_cons_self
    exact covered_cons.mpr (.inl ⟨hstart ▸ hproper.le, not_le.mp hlt⟩)
  rcases covered_cons.mp ((h.covers _).mpr hstop) with hfirst | hrest
  · exact lt_irrefl _ hfirst.2
  · exact lt_irrefl _ (h.past hrest)

theorem Runs.tail : Runs (fun p => run.2 < p ∧ P p) runs where
  proper := fun span hspan => h.proper span (List.mem_cons_of_mem _ hspan)
  apart := (List.pairwise_cons.mp h.apart).2
  covers := fun p => by
    constructor
    · exact fun hp => ⟨h.past hp, (h.covers p).mp (covered_cons.mpr (.inr hp))⟩
    · rintro ⟨hlt, hp⟩
      rcases covered_cons.mp ((h.covers p).mpr hp) with hfirst | hrest
      · exact absurd hfirst.2 hlt.not_gt
      · exact hrest

end

theorem Runs.unique (h : Runs P runs) (h' : Runs P spans) : runs = spans := by
  induction runs generalizing P spans with
  | nil =>
    cases spans with
    | nil => rfl
    | cons span spans => exact absurd ((h.covers _).mpr h'.start) not_covered_nil
  | cons run runs ih =>
    cases spans with
    | nil => exact absurd ((h'.covers _).mpr h.start) not_covered_nil
    | cons span spans =>
      have hstart : run.1 = span.1 := le_antisymm (h.start_le h'.start) (h'.start_le h.start)
      have hstop : run.2 = span.2 := le_antisymm (h'.stop_le h hstart) (h.stop_le h' hstart.symm)
      obtain rfl : run = span := Prod.ext hstart hstop
      rw [ih h.tail h'.tail]

/-- Extend the open run by the intervals that overlap or abut it, and open the next where
one does not. -/
def mergeFrom : α × α → List (α × α) → List (α × α)
  | run, [] => [run]
  | run, span :: rest =>
    if span.1 ≤ run.2 then mergeFrom (run.1, max run.2 span.2) rest else run :: mergeFrom span rest

/-- Merge intervals that come in the order of their starts. -/
def mergeSpans : List (α × α) → List (α × α)
  | [] => []
  | span :: rest => mergeFrom span rest

theorem start_le_of_mem_mergeFrom (horder : (run :: spans).Pairwise fun a b => a.1 ≤ b.1)
    (hspan : span ∈ mergeFrom run spans) : run.1 ≤ span.1 := by
  induction spans generalizing run with
  | nil => simp_all [mergeFrom]
  | cons next rest ih =>
    obtain ⟨hfirst, hrest⟩ := List.pairwise_cons.mp horder
    rw [mergeFrom] at hspan
    split_ifs at hspan with hmeets
    · have hbehind := List.pairwise_cons.mp hrest
      have hextended : ((run.1, max run.2 next.2) :: rest).Pairwise fun a b => a.1 ≤ b.1 :=
        List.pairwise_cons.mpr ⟨fun x hx => hfirst x (List.mem_cons_of_mem _ hx), hbehind.2⟩
      have hstart := ih hextended hspan
      exact hstart
    · rcases List.mem_cons.mp hspan with rfl | hspan
      · exact le_rfl
      · exact (hfirst next List.mem_cons_self).trans (ih hrest hspan)

theorem runs_mergeFrom (hproper : ∀ span ∈ run :: spans, span.1 < span.2)
    (horder : (run :: spans).Pairwise fun a b => a.1 ≤ b.1) : Runs (Covered (run :: spans)) (mergeFrom run spans) := by
  induction spans generalizing run with
  | nil => exact ⟨hproper, List.pairwise_singleton _ _, fun p => Iff.rfl⟩
  | cons span rest ih =>
    obtain ⟨hfirst, hrest⟩ := List.pairwise_cons.mp horder
    have hbehind := List.pairwise_cons.mp hrest
    have hspan := hfirst span List.mem_cons_self
    rw [mergeFrom]
    split_ifs with hmeets
    · have hmerged : Runs (Covered ((run.1, max run.2 span.2) :: rest)) (mergeFrom (run.1, max run.2 span.2) rest) := by
        apply ih
        · intro x hx
          rcases List.mem_cons.mp hx with rfl | hx
          · exact (hproper run List.mem_cons_self).trans_le (le_max_left _ _)
          · exact hproper x (List.mem_cons_of_mem _ (List.mem_cons_of_mem _ hx))
        · exact List.pairwise_cons.mpr ⟨fun x hx => hfirst x (List.mem_cons_of_mem _ hx), hbehind.2⟩
      refine ⟨hmerged.proper, hmerged.apart, fun p => (hmerged.covers p).trans ?_⟩
      simp only [covered_cons, lt_max_iff, ← or_assoc]
      apply or_congr_left
      constructor
      · rintro ⟨hstart, hlt | hlt⟩
        · exact .inl ⟨hstart, hlt⟩
        · rcases lt_or_ge p run.2 with hin | hpast
          · exact .inl ⟨hstart, hin⟩
          · exact .inr ⟨hmeets.trans hpast, hlt⟩
      · rintro (⟨hstart, hlt⟩ | ⟨hstart, hlt⟩)
        · exact ⟨hstart, .inl hlt⟩
        · exact ⟨hspan.trans hstart, .inr hlt⟩
    · have hopened := ih (fun x hx => hproper x (List.mem_cons_of_mem _ hx)) hrest
      refine ⟨?_, ?_, fun p => ?_⟩
      · exact List.forall_mem_cons.mpr ⟨hproper run List.mem_cons_self, hopened.proper⟩
      · refine List.pairwise_cons.mpr ⟨fun x hx => ?_, hopened.apart⟩
        exact (not_le.mp hmeets).trans_le (start_le_of_mem_mergeFrom hrest hx)
      · rw [covered_cons, hopened.covers]
        exact covered_cons.symm

/-- What a walk over proper intervals in the order of their starts leaves are the maximal
runs of what they cover. -/
theorem runs_mergeSpans (hproper : ∀ span ∈ spans, span.1 < span.2)
    (horder : spans.Pairwise fun a b => a.1 ≤ b.1) : Runs (Covered spans) (mergeSpans spans) := by
  cases spans with
  | nil => exact ⟨hproper, .nil, fun p => Iff.rfl⟩
  | cons span rest => exact runs_mergeFrom hproper horder

end Braid.Foundation
