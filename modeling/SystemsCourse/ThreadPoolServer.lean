import Mathlib.Data.List.FinRange
import SystemsCourse.ThreadedServer
import SystemsCourse.WorkQueue

/-!
# `threadpoolsvr.c`: a pool of threads

The program is `threadedsvr.c` but for one call: the accept loop does not create a
thread for the connection, it submits `connection_func` with its argument to a work
queue, and one of the `P` workers of the queue calls it.  So the state is that of
`threadedsvr.c` — where `main` creates a thread it is now in `wq_submit`, and
what was a thread is a call of `connection_func` — with the queue and the workers; a
call takes a step only if a worker is at it.  `handle_connection` and
`connection_func` are the same text in both programs.
-/
namespace SystemsCourse
namespace ThreadPoolServer
open MessageFraming

/-- The process with `P` workers: the calls of `connection_func` are numbered as they
are submitted, and `worker w` is the one that `w` is at. -/
structure State (P : Nat) (Q : Type) where
  server : ThreadedServer.State
  queue : Q
  worker : Fin P → Option Nat

/-- What can happen next. -/
inductive Action (P : Nat) where
  | accept (fd argptr : Nat)
  | acceptFails (errno : ThreadedServer.Errno)
  | main
  | take (w : Fin P)
  | read (w : Fin P) (r : ReadResult)
  | fputsFails (w : Fin P) (bs : List Byte)
  | worker (w : Fin P)

section Steps
variable {P : Nat} {Q : Type} (wq : WorkQueue Nat Q) (s : State P Q)

/-- The process takes a step, and nothing happens to the queue. -/
def State.serverStep (a : ThreadedServer.Action) : Option (State P Q) := do
  let server ← ThreadedServer.step s.server a
  return { s with server }

/-- `main` outside `accept`: `wq_submit(my_queue, connection_func, argptr)`, or
`err_n_die`. -/
def mainStep : Option (State P Q) :=
  match s.server.main with
  | .pthreadCreate _ => do
      let queue ← wq.submit s.queue s.server.created
      { s with queue }.serverStep .main
  | _ => s.serverStep .main

/-- A free worker takes a task. -/
def takeStep (w : Fin P) : Option (State P Q) :=
  match s.server.died, s.worker w with
  | none, none => do
      let (job, queue) ← wq.take s.queue
      return { s with queue, worker := Function.update s.worker w (some job) }
  | _, _ => none

/-- A worker whose call has returned is free. -/
def State.release (w : Fin P) (job : Nat) : State P Q :=
  match (s.server.handler job).pc with
  | .returned => { s with worker := Function.update s.worker w none }
  | _ => s

/-- The call that worker `w` is at takes a step. -/
def workerStep (w : Fin P) (a : Nat → ThreadedServer.Action) : Option (State P Q) :=
  match s.worker w with
  | none => none
  | some job => do
      let s ← s.serverStep (a job)
      return s.release w job

/-- A step of the process. -/
def step : Action P → Option (State P Q)
  | .accept fd argptr => s.serverStep (.accept fd argptr)
  | .acceptFails errno => s.serverStep (.acceptFails errno)
  | .main => mainStep wq s
  | .take w => takeStep wq s w
  | .read w r => workerStep s w (.read · r)
  | .fputsFails w bs => workerStep s w (.fputsFails · bs)
  | .worker w => workerStep s w .handler

end Steps

/-- The server listens; the workers are free. -/
def initial (P : Nat) {Q : Type} (wq : WorkQueue Nat Q) : State P Q :=
  ⟨ThreadedServer.initial, wq.create, fun _ => none⟩

/-- **The server.** -/
def program (P : Nat) {Q : Type} (wq : WorkQueue Nat Q) : StepSystem (State P Q) (Action P) :=
  ⟨initial P wq, step wq⟩

/-! ## What a step does -/

section Cases
variable {P : Nat} {Q : Type} {wq : WorkQueue Nat Q} {s s' : State P Q}

theorem serverStep_eq_some_iff {a : ThreadedServer.Action} :
    s.serverStep a = some s' ↔
      ∃ server, ThreadedServer.step s.server a = some server ∧ s' = { s with server } := by
  unfold State.serverStep
  simp only [Option.bind_eq_bind, Option.bind_eq_some_iff, Option.pure_def, Option.some.injEq]
  exact ⟨fun ⟨server, h, he⟩ => ⟨server, h, he.symm⟩, fun ⟨server, h, he⟩ => ⟨server, h, he.symm⟩⟩

/-- The action is a step of `main` that creates no thread. -/
def Waits (s : ThreadedServer.State) : ThreadedServer.Action → Prop
  | .accept _ _ => True
  | .acceptFails _ => True
  | .main => ∀ argptr, s.main ≠ .pthreadCreate argptr
  | _ => False

/-- The steps of the process, by who takes them. -/
inductive Step (wq : WorkQueue Nat Q) (s : State P Q) : State P Q → Prop where
  | main {a : ThreadedServer.Action} {server : ThreadedServer.State} (waits : Waits s.server a)
      (step : ThreadedServer.step s.server a = some server) : Step wq s { s with server }
  | submit {argptr : Nat} {queue : Q} {server : ThreadedServer.State}
      (pc : s.server.main = .pthreadCreate argptr)
      (submit : wq.submit s.queue s.server.created = some queue)
      (step : ThreadedServer.step s.server .main = some server) : Step wq s { s with queue, server }
  | take {w : Fin P} {job : Nat} {queue : Q} (died : s.server.died = none) (free : s.worker w = none)
      (take : wq.take s.queue = some (job, queue)) :
      Step wq s { s with queue, worker := Function.update s.worker w (some job) }
  | worker {w : Fin P} {job : Nat} {a : ThreadedServer.Action} {server : ThreadedServer.State}
      (busy : s.worker w = some job) (own : a.IsOf job)
      (step : ThreadedServer.step s.server a = some server) :
      Step wq s (State.release { s with server } w job)

theorem mainStep_cases (hstep : mainStep wq s = some s') : Step wq s s' := by
  unfold mainStep at hstep
  split at hstep
  · rename_i argptr hpc
    rw [Option.bind_eq_bind, Option.bind_eq_some_iff] at hstep
    obtain ⟨queue, hqueue, hstep⟩ := hstep
    obtain ⟨server, hserver, rfl⟩ := serverStep_eq_some_iff.mp hstep
    exact .submit hpc hqueue hserver
  · rename_i hpc
    obtain ⟨server, hserver, rfl⟩ := serverStep_eq_some_iff.mp hstep
    exact .main (a := .main) hpc hserver

theorem takeStep_cases {w : Fin P} (hstep : takeStep wq s w = some s') : Step wq s s' := by
  unfold takeStep at hstep
  split at hstep
  · rename_i hdied hfree
    rw [Option.bind_eq_bind, Option.bind_eq_some_iff] at hstep
    obtain ⟨⟨job, queue⟩, htake, hstep⟩ := hstep
    cases hstep
    exact .take hdied hfree htake
  · cases hstep

theorem workerStep_cases {w : Fin P} {a : Nat → ThreadedServer.Action}
    (hstep : workerStep s w a = some s') (ha : ∀ job, (a job).IsOf job) : Step wq s s' := by
  unfold workerStep at hstep
  split at hstep
  · cases hstep
  · rename_i job hjob
    rw [Option.bind_eq_bind, Option.bind_eq_some_iff] at hstep
    obtain ⟨s'', hcall, hstep⟩ := hstep
    cases hstep
    obtain ⟨server, hserver, rfl⟩ := serverStep_eq_some_iff.mp hcall
    exact .worker hjob (ha job) hserver

theorem step_cases {a : Action P} (hstep : step wq s a = some s') : Step wq s s' := by
  cases a with
  | accept fd argptr =>
    obtain ⟨server, hserver, rfl⟩ := serverStep_eq_some_iff.mp hstep
    exact .main (a := .accept fd argptr) trivial hserver
  | acceptFails errno =>
    obtain ⟨server, hserver, rfl⟩ := serverStep_eq_some_iff.mp hstep
    exact .main (a := .acceptFails errno) trivial hserver
  | main => exact mainStep_cases hstep
  | take w => exact takeStep_cases hstep
  | read | fputsFails | worker => exact workerStep_cases hstep fun _ => rfl

end Cases
end ThreadPoolServer
end SystemsCourse
