import Mathlib.Logic.Basic
import Mathlib.Data.Option.Basic
import Mathlib.Data.List.Basic

/-! Transition systems whose steps are chosen by labels. A label carries every
choice the environment makes, so a system is a function and a run of it can be
evaluated. Reachability is relative to a condition on the steps taken: `Via ok`
holds of the states that runs reach when each of their steps meets `ok` in the
state it is taken from, and `Reachable` is the case of no condition. -/

namespace Braid.Foundation

/-- A step is `next s a`; `none` means that `a` is not possible in `s`. -/
structure System (σ α : Type*) where
  init : σ → Prop
  next : σ → α → Option σ

namespace System

variable {σ α : Type*} (S : System σ α)

/-- The states reached by runs whose steps all meet `ok`. -/
inductive Via (ok : σ → α → Prop) : σ → Prop where
  | init {s : σ} : S.init s → Via ok s
  | step {s s' : σ} {a : α} : Via ok s → ok s a → S.next s a = some s' → Via ok s'

def Reachable : σ → Prop := S.Via fun _ _ => True

variable {S} {ok ok' : σ → α → Prop} {P : σ → Prop} {s s' : σ}

theorem Reachable.init (h : S.init s) : S.Reachable s := Via.init h

theorem Reachable.step {a : α} (h : S.Reachable s) (hs : S.next s a = some s') : S.Reachable s' :=
  Via.step h trivial hs

theorem Via.mono (h : S.Via ok s) (himp : ∀ s a, ok s a → ok' s a) : S.Via ok' s := by
  induction h with
  | init hi => exact .init hi
  | step _ hok hs ih => exact .step ih (himp _ _ hok) hs

theorem Via.reachable (h : S.Via ok s) : S.Reachable s := h.mono fun _ _ _ => trivial

/-- The invariant rule: what holds initially and is kept by every step that
meets the condition holds in every state so reached. -/
theorem Via.invariant (h : S.Via ok s) (hinit : ∀ s, S.init s → P s)
    (hstep : ∀ s a s', P s → ok s a → S.next s a = some s' → P s') : P s := by
  induction h with
  | init hi => exact hinit _ hi
  | step _ hok hs ih => exact hstep _ _ _ ih hok hs

theorem Reachable.invariant (h : S.Reachable s) (hinit : ∀ s, S.init s → P s)
    (hstep : ∀ s a s', P s → S.next s a = some s' → P s') : P s :=
  Via.invariant h hinit fun s a s' hp _ hs => hstep s a s' hp hs

variable (S) in
/-- Take the labels of a list one after another. -/
def run : σ → List α → Option σ
  | s, [] => some s
  | s, a :: as => (S.next s a).bind fun s' => run s' as

@[simp] theorem run_nil (s : σ) : S.run s [] = some s := rfl

theorem run_cons (s : σ) (a : α) (as : List α) :
    S.run s (a :: as) = (S.next s a).bind fun s' => S.run s' as := rfl

variable {as : List α}

theorem run_cons_of_next {a : α} (h : S.next s a = some s') :
    S.run s (a :: as) = S.run s' as := by
  rw [run_cons, h, Option.bind_some]

theorem run_singleton (s : σ) (a : α) : S.run s [a] = S.next s a := by
  exact Option.bind_fun_some _

theorem run_append (s : σ) (as bs : List α) :
    S.run s (as ++ bs) = (S.run s as).bind fun s' => S.run s' bs := by
  induction as generalizing s with
  | nil => rfl
  | cons a as ih => simp only [List.cons_append, run_cons, Option.bind_assoc, ih]

/-- What every label of a run keeps, the run keeps. -/
theorem run_invariant (hr : S.run s as = some s') (h : P s)
    (hstep : ∀ a ∈ as, ∀ s s', P s → S.next s a = some s' → P s') : P s' := by
  induction as generalizing s with
  | nil =>
    rw [run_nil, Option.some.injEq] at hr
    exact hr ▸ h
  | cons a as ih =>
    rw [run_cons, Option.bind_eq_some_iff] at hr
    obtain ⟨t, ht, hr⟩ := hr
    obtain ⟨hfirst, hrest⟩ := List.forall_mem_cons.mp hstep
    exact ih hr (hfirst s t h ht) hrest

theorem Reachable.run (h : S.Reachable s) (hr : S.run s as = some s') : S.Reachable s' :=
  run_invariant hr h fun _ _ _ _ h hs => h.step hs

variable (S) in
/-- The system whose steps all meet `ok`. -/
def guarded (ok : σ → α → Prop) [∀ s a, Decidable (ok s a)] : System σ α :=
  ⟨S.init, fun s a => if ok s a then S.next s a else none⟩

theorem Via.run [∀ s a, Decidable (ok s a)] (h : S.Via ok s)
    (hr : (S.guarded ok).run s as = some s') : S.Via ok s' := by
  refine run_invariant hr h fun a _ s s' h hs => ?_
  simp only [guarded] at hs
  split_ifs at hs with hok
  exact h.step hok hs

/-- A state that an evaluated run reaches, with what was evaluated of it. -/
theorem Reachable.of_run [DecidablePred P] (s : σ) (as : List α) (hinit : S.init s)
    (h : (S.run s as).any (fun s => decide (P s)) = true) : ∃ s, S.Reachable s ∧ P s := by
  obtain ⟨s', hs', hp⟩ := (Option.any_eq_true _ _).1 h
  exact ⟨s', (Reachable.init hinit).run hs', of_decide_eq_true hp⟩

theorem Via.of_run [∀ s a, Decidable (ok s a)] [DecidablePred P] (s : σ) (as : List α) (hinit : S.init s)
    (h : ((S.guarded ok).run s as).any (fun s => decide (P s)) = true) : ∃ s, S.Via ok s ∧ P s := by
  obtain ⟨s', hs', hp⟩ := (Option.any_eq_true _ _).1 h
  exact ⟨s', (Via.init hinit).run hs', of_decide_eq_true hp⟩

theorem Via.run_of_forall (h : S.Via ok s) (hok : ∀ a ∈ as, ∀ s, ok s a) (hr : S.run s as = some s') :
    S.Via ok s' :=
  run_invariant hr h fun a ha s _ h hs => h.step (hok a ha s) hs

end System

section Answers

variable {σ τ ι ο : Type*} {f : σ → ι → σ × ο} {g : τ → ι → τ × ο} {R : σ → τ → Prop}

/-- Feed a machine its inputs one after another and collect what it answers. -/
def answers (f : σ → ι → σ × ο) : σ → List ι → σ × List ο
  | s, [] => (s, [])
  | s, i :: is => ((answers f (f s i).1 is).1, (f s i).2 :: (answers f (f s i).1 is).2)

/-- The refinement rule: machines that answer alike in related states, and stay related,
answer every list of inputs alike. -/
theorem answers_refine (hstep : ∀ s t i, R s t → (f s i).2 = (g t i).2 ∧ R (f s i).1 (g t i).1) {s : σ} {t : τ}
    (h : R s t) (is : List ι) : (answers f s is).2 = (answers g t is).2 ∧ R (answers f s is).1 (answers g t is).1 := by
  induction is generalizing s t with
  | nil => exact ⟨rfl, h⟩
  | cons i is ih =>
    obtain ⟨hanswer, hnext⟩ := hstep s t i h
    obtain ⟨hanswers, hlast⟩ := ih hnext
    simp only [answers, hanswer, hanswers, true_and]
    exact hlast

end Answers

section History

variable {α : Type*} {P : List α → α → Prop} {history : List α}

/-- Some element of the history, with the elements before it, is as `P` says. -/
def Earlier (P : List α → α → Prop) (history : List α) : Prop :=
  ∃ before x rest, history = before ++ x :: rest ∧ P before x

theorem not_earlier_nil : ¬Earlier P [] := by
  rintro ⟨before, x, rest, hnil, -⟩
  exact List.append_ne_nil_of_right_ne_nil before (List.cons_ne_nil x rest) hnil.symm

theorem earlier_concat {x : α} : Earlier P (history ++ [x]) ↔ Earlier P history ∨ P history x := by
  constructor
  · rintro ⟨before, y, rest, heq, hP⟩
    rcases List.eq_nil_or_concat rest with rfl | ⟨rest, z, rfl⟩
    · obtain ⟨rfl, hxy⟩ := List.append_inj' heq rfl
      obtain rfl := List.singleton_inj.mp hxy
      exact .inr hP
    · rw [List.concat_eq_append, ← List.cons_append, ← List.append_assoc] at heq
      exact .inl ⟨before, y, rest, (List.append_inj' heq rfl).1, hP⟩
  · rintro (⟨before, y, rest, rfl, hP⟩ | hP)
    · exact ⟨before, y, rest ++ [x], by simp, hP⟩
    · exact ⟨history, x, [], rfl, hP⟩

theorem Earlier.concat (h : Earlier P history) (x : α) : Earlier P (history ++ [x]) := earlier_concat.mpr (.inl h)

theorem earlier_last {x : α} (h : P history x) : Earlier P (history ++ [x]) := earlier_concat.mpr (.inr h)

end History

end Braid.Foundation
