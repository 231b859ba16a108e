import Mathlib.Data.List.Perm.Basic

/-!
# `workqueue.h`

The interface of a work queue: what its functions do is in no file here but the
comments of the header and its test.  So the operations are a parameter — `Q` is what
is behind a `wq_t *`, and an operation that waits is `none` — and what is expected of
them is `WorkQueue.Holds`.  The header promises that `wq_submit` waits until there is
room and then submits the task.  Of the workers it says nothing; it is the test that
counts on each submitted task being run, and run once.  In which order the tasks are
taken is left open; `fifo` takes them as they come.
-/
namespace SystemsCourse

/-- A work queue for tasks of the type `Task`. -/
structure WorkQueue (Task Q : Type) where
  /-- `wq_create`. -/
  create : Q
  /-- `wq_submit`. -/
  submit : Q → Task → Option Q
  /-- What a worker does when it is free. -/
  take : Q → Option (Task × Q)

namespace WorkQueue
variable {Task Q : Type}

/-- **What is expected of a queue** with room for `capacity` tasks; `waiting q` are the
tasks that wait in `q`.  `submit` and `room` are in the header, `take` and `task` in the
test: each task that is submitted is taken, and only once. -/
structure Holds (wq : WorkQueue Task Q) (capacity : Nat) (waiting : Q → List Task) : Prop where
  create : waiting wq.create = []
  submit : ∀ q task q', wq.submit q task = some q' →
    (waiting q').Perm (task :: waiting q) ∧ (waiting q').length ≤ capacity
  room : ∀ q task, (waiting q).length < capacity → wq.submit q task ≠ none
  take : ∀ q task q', wq.take q = some (task, q') → (waiting q).Perm (task :: waiting q')
  task : ∀ q, waiting q ≠ [] → wq.take q ≠ none

/-- First in, first out. -/
def fifo (capacity : Nat) : WorkQueue Task (List Task) where
  create := []
  submit q task := if q.length < capacity then some (q ++ [task]) else none
  take
    | [] => none
    | task :: q => some (task, q)

theorem holds_fifo (capacity : Nat) :
    (fifo capacity : WorkQueue Task (List Task)).Holds capacity id where
  create := rfl
  submit q task q' h := by
    simp only [fifo, Option.ite_none_right_eq_some, Option.some.injEq] at h
    obtain ⟨hroom, rfl⟩ := h
    refine ⟨List.perm_append_singleton task q, ?_⟩
    rw [id, List.length_append]
    exact hroom
  room q task h := by
    simp only [fifo, if_pos (show q.length < capacity from h)]
    exact Option.some_ne_none _
  take q task q' h := by
    cases q with
    | nil => cases h
    | cons first rest =>
      cases h
      exact List.Perm.refl _
  task q h := by
    cases q with
    | nil => exact absurd rfl h
    | cons first rest => exact Option.some_ne_none _

end WorkQueue
end SystemsCourse
