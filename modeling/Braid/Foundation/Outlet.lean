import Mathlib.Data.List.Basic
import Mathlib.Data.Option.Basic

/-! A queue emptied into an output by a worker that takes it in batches. The
queue is shared, the batch is the worker's own and is written outside the lock,
a few elements at a time. Once the queue has been ended and is found empty the
worker closes the output and leaves; a closed queue found empty makes it leave
at once. Whatever the order of the steps, output, batch and queue concatenate
to what was pushed, and the output is closed only over an empty batch and queue
of an ended outlet. -/

namespace Braid.Foundation

/-- Where the worker stands: at the lock, writing what is left of a batch,
about to close the output, or gone. -/
inductive Worker (α : Type*) where
  | ready
  | writing (batch : List α)
  | ending
  | left
  deriving DecidableEq

/-- The part of the worker's batch it has still to write. -/
def Worker.unwritten {α : Type*} : Worker α → List α
  | .writing batch => batch
  | _ => []

/-- The worker after writing `n` elements of a batch. -/
def Worker.wrote {α : Type*} (batch : List α) (n : ℕ) : Worker α :=
  if batch.length = n then .ready else .writing (batch.drop n)

@[simp] theorem Worker.unwritten_wrote {α : Type*} (batch : List α) (n : ℕ) :
    (Worker.wrote batch n).unwritten = batch.drop n := by
  unfold wrote
  split_ifs with h
  · rw [← h, List.drop_length]
    rfl
  · rfl

@[simp] theorem Worker.wrote_ne_ending {α : Type*} (batch : List α) (n : ℕ) :
    Worker.wrote batch n ≠ .ending := by
  unfold wrote
  split_ifs <;> simp

structure Outlet (α : Type*) where
  queue : List α
  ended : Bool
  closed : Bool
  worker : Worker α
  out : List α
  halfClosed : Bool
  deriving DecidableEq

/-- What the worker does next: take the lock, write `n` elements, or close the
output. -/
inductive WorkerStep where
  | turn
  | put (n : ℕ)
  | halfClose
  deriving DecidableEq

namespace Outlet

variable {α : Type*} {o o' : Outlet α} {w : WorkerStep}

def new : Outlet α := ⟨[], false, false, .ready, [], false⟩

def push (o : Outlet α) (xs : List α) : Outlet α := { o with queue := o.queue ++ xs }

/-- The worker's critical section. With nothing to take it waits, and may look
again at any time. -/
def turn (o : Outlet α) : Outlet α :=
  match o.queue with
  | _ :: _ => { o with queue := [], worker := .writing o.queue }
  | [] =>
    if o.closed then { o with worker := .left }
    else if o.ended then { o with worker := .ending }
    else o

def step (o : Outlet α) (w : WorkerStep) : Option (Outlet α) :=
  match w, o.worker with
  | .turn, .ready => some o.turn
  | .put n, .writing batch =>
    if 0 < n ∧ n ≤ batch.length then
      some { o with out := o.out ++ batch.take n, worker := .wrote batch n }
    else none
  | .halfClose, .ending => some { o with halfClosed := true, worker := .left }
  | _, _ => none

def contents (o : Outlet α) : List α := o.out ++ o.worker.unwritten ++ o.queue

@[simp] theorem contents_push (o : Outlet α) (xs : List α) :
    (o.push xs).contents = o.contents ++ xs := by
  simp [contents, push, List.append_assoc]

/-- The output is closed only over nothing left to write. -/
def Settled (o : Outlet α) : Prop :=
  o.worker = .ending ∨ o.halfClosed = true → o.ended = true ∧ o.worker.unwritten = [] ∧ o.queue = []

theorem settled_new : Settled (new : Outlet α) := by simp [Settled, new]

theorem Settled.push (h : Settled o) (he : o.ended = false) (xs : List α) : Settled (o.push xs) := by
  intro hs
  have := (h hs).1
  rw [he] at this
  cases this

theorem Settled.written (h : Settled o) (hc : o.halfClosed = true) : o.out = o.contents := by
  obtain ⟨-, hw, hq⟩ := h (.inr hc)
  rw [contents, hw, hq, List.append_nil, List.append_nil]

/-- What a step of the worker can be. -/
theorem step_cases (h : o.step w = some o') :
    (∃ x xs, o.worker = .ready ∧ o.queue = x :: xs ∧ o' = { o with queue := [], worker := .writing o.queue }) ∨
      (o.worker = .ready ∧ o.queue = [] ∧ (o' = { o with worker := .left } ∨ o' = o ∨
        (o.ended = true ∧ o' = { o with worker := .ending }))) ∨
      (∃ batch n, o.worker = .writing batch ∧ n ≤ batch.length ∧
        o' = { o with out := o.out ++ batch.take n, worker := .wrote batch n }) ∨
      (o.worker = .ending ∧ o' = { o with halfClosed := true, worker := .left }) := by
  unfold step at h
  split at h
  · rename_i hw
    rw [Option.some.injEq, turn] at h
    split at h
    · rename_i x xs hq
      exact .inl ⟨x, xs, hw, hq, h.symm⟩
    · rename_i hq
      split_ifs at h with hc he
      · exact .inr (.inl ⟨hw, hq, .inl h.symm⟩)
      · exact .inr (.inl ⟨hw, hq, .inr (.inr ⟨he, h.symm⟩)⟩)
      · exact .inr (.inl ⟨hw, hq, .inr (.inl h.symm)⟩)
  · rename_i n batch hw
    split_ifs at h with hn
    exact .inr (.inr (.inl ⟨batch, n, hw, hn.2, by simpa using h.symm⟩))
  · rename_i hw
    exact .inr (.inr (.inr ⟨hw, by simpa using h.symm⟩))
  · cases h

theorem step_contents (h : o.step w = some o') : o'.contents = o.contents := by
  obtain ⟨x, xs, hw, hq, rfl⟩ | ⟨hw, hq, rfl | rfl | ⟨-, rfl⟩⟩ | ⟨batch, n, hw, hn, rfl⟩ | ⟨hw, rfl⟩ :=
    step_cases h
  · simp [contents, hw, Worker.unwritten]
  · simp [contents, hw, hq, Worker.unwritten]
  · rfl
  · simp [contents, hw, hq, Worker.unwritten]
  · simp [contents, hw, Worker.unwritten_wrote, show (Worker.writing batch).unwritten = batch from rfl]
  · simp [contents, hw, Worker.unwritten]

theorem turn_queue (o : Outlet α) : o.turn.queue = [] := by
  unfold turn
  split
  · rfl
  · split_ifs <;> assumption

theorem step_frame (h : o.step w = some o') :
    o'.ended = o.ended ∧ o'.closed = o.closed ∧ o'.queue = if w = .turn then [] else o.queue := by
  refine ⟨?_, ?_, ?_⟩
  · obtain ⟨x, xs, -, -, rfl⟩ | ⟨-, -, rfl | rfl | ⟨-, rfl⟩⟩ | ⟨batch, n, -, -, rfl⟩ | ⟨-, rfl⟩ :=
      step_cases h <;> rfl
  · obtain ⟨x, xs, -, -, rfl⟩ | ⟨-, -, rfl | rfl | ⟨-, rfl⟩⟩ | ⟨batch, n, -, -, rfl⟩ | ⟨-, rfl⟩ :=
      step_cases h <;> rfl
  · unfold step at h
    split at h
    · exact Option.some.inj h ▸ turn_queue o
    · split_ifs at h
      exact Option.some.inj h ▸ rfl
    · exact Option.some.inj h ▸ rfl
    · cases h

theorem Settled.step (h : Settled o) (hs : o.step w = some o') : Settled o' := by
  obtain ⟨x, xs, hw, hq, rfl⟩ | ⟨hw, hq, rfl | rfl | ⟨he, rfl⟩⟩ | ⟨batch, n, hw, hn, rfl⟩ | ⟨hw, rfl⟩ :=
    step_cases hs
  · rintro (hc | hc)
    · cases hc
    · have := (h (.inr hc)).2.2
      rw [hq] at this
      cases this
  · rintro (hc | hc)
    · cases hc
    · exact ⟨(h (.inr hc)).1, rfl, hq⟩
  · exact h
  · exact fun _ => ⟨he, rfl, hq⟩
  · intro hc
    have hb : o.halfClosed = true := hc.resolve_left (Worker.wrote_ne_ending batch n)
    obtain ⟨he, hu, hq⟩ := h (.inr hb)
    rw [hw, Worker.unwritten] at hu
    refine ⟨he, ?_, hq⟩
    rw [Worker.unwritten_wrote, hu, List.drop_nil]
  · obtain ⟨he, -, hq⟩ := h (.inl hw)
    exact fun _ => ⟨he, rfl, hq⟩

end Outlet

end Braid.Foundation
