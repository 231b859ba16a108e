import SystemsCourse.CyclicBarrier
import SystemsCourse.StepSystem

/-!
# `barriers.c`: workers that keep in step

`main` creates `N` (`NUMTHREADS`) workers and goes through `M` (5) rounds with them: in
each round every worker and `main` print a line, wait at the barrier, and print
another line.  The workers would go on for ever; when `main` returns, the process ends.

Each `printf`, each `sleep`, and each way of going through `pthread_barrier_wait` — as
the last one, or being blocked and later released — is one step.  `counter` is a
thread's own, and is increased in the `printf` that prints it.
-/
namespace SystemsCourse
namespace Barriers

/-- Where a thread in `workerfunc` is; in `blocked` it is in `pthread_barrier_wait`. -/
inductive WorkerPc where
  | notStarted
  | printWait
  | barrierWait
  | blocked (generation : Nat)
  | printGo
  | sleep
deriving DecidableEq

/-- A thread in `workerfunc`. -/
structure Worker where
  pc : WorkerPc
  counter : Nat

/-- Where `main` is; `i` is the variable of the loop it is in. -/
inductive MainPc where
  | create (i : Nat)
  | printReady (i : Nat)
  | barrierWait (i : Nat)
  | blocked (i generation : Nat)
  | printGo (i : Nat)
  | sleep (i : Nat)
  | exited
deriving DecidableEq

/-- A line of the output: `WAIT!` and `GO k!` of a worker, `ready` and `go (k)!` of `main`. -/
inductive Line (N : Nat) where
  | wait (i : Fin N)
  | go (i : Fin N) (k : Nat)
  | ready
  | mainGo (k : Nat)
deriving DecidableEq

/-- The state of the process. -/
structure State (N : Nat) where
  mybarrier : CyclicBarrier
  worker : Fin N → Worker
  main : MainPc
  output : List (Line N)

/-- Who takes a step. -/
inductive Thread (N : Nat) where
  | worker (i : Fin N)
  | main

/-- `i < 5`, in the loop of rounds. -/
def roundLoop (M i : Nat) : MainPc := if i < M then .printReady i else .exited

/-- `i < NUMTHREADS`, in the loop that creates the workers. -/
def createLoop (N M i : Nat) : MainPc := if i < N then .create i else roundLoop M 0

section Steps
variable {N : Nat} (M : Nat) (s : State N)

/-- The thread that arrives now is the last of the `NUMTHREADS + 1`. -/
def State.Last : Prop := s.mybarrier.arrived + 1 = N + 1

instance : Decidable s.Last := inferInstanceAs (Decidable (_ = _))

/-- Worker `i` is now `w`. -/
def State.moveWorker (i : Fin N) (w : Worker) : State N :=
  { s with worker := Function.update s.worker i w }

/-- A step of `workerfunc` in thread `i`. -/
def workerStep (i : Fin N) : Option (State N) :=
  let w := s.worker i
  match w.pc with
  | .notStarted => none
  | .printWait =>
      some { s.moveWorker i { w with pc := .barrierWait } with output := s.output ++ [.wait i] }
  | .barrierWait =>
      let pc := if s.Last then .printGo else .blocked s.mybarrier.generation
      some { s.moveWorker i { w with pc } with mybarrier := s.mybarrier.arrive (N + 1) }
  | .blocked generation =>
      if s.mybarrier.generation = generation then none
      else some (s.moveWorker i { w with pc := .printGo })
  | .printGo =>
      some { s.moveWorker i ⟨.sleep, w.counter + 1⟩ with output := s.output ++ [.go i w.counter] }
  | .sleep => some (s.moveWorker i { w with pc := .printWait })

/-- A step of `main`. -/
def mainStep : Option (State N) :=
  match s.main with
  | .create i =>
      if h : i < N then
        some { s.moveWorker ⟨i, h⟩ ⟨.printWait, 0⟩ with main := createLoop N M (i + 1) }
      else none
  | .printReady i => some { s with main := .barrierWait i, output := s.output ++ [.ready] }
  | .barrierWait i =>
      let pc := if s.Last then .printGo i else .blocked i s.mybarrier.generation
      some { s with main := pc, mybarrier := s.mybarrier.arrive (N + 1) }
  | .blocked i generation =>
      if s.mybarrier.generation = generation then none else some { s with main := .printGo i }
  | .printGo i => some { s with main := .sleep i, output := s.output ++ [.mainGo i] }
  | .sleep i => some { s with main := roundLoop M (i + 1) }
  | .exited => none

/-- A step of the process: nobody moves when `main` has returned. -/
def step (t : Thread N) : Option (State N) :=
  if s.main = .exited then none
  else
    match t with
    | .worker i => workerStep s i
    | .main => mainStep M s

end Steps

/-- The barrier has just been initialized. -/
def initial (N M : Nat) : State N := ⟨⟨0, 0⟩, fun _ => ⟨.notStarted, 0⟩, createLoop N M 0, []⟩

/-- **The program.** -/
def program (N M : Nat) : StepSystem (State N) (Thread N) := ⟨initial N M, step M⟩

/-! ## What a step does -/

section Cases
variable {N M : Nat} {s s' : State N}

/-- The steps of worker `i`, by what it does. -/
inductive WorkerStep (s : State N) (i : Fin N) : State N → Prop where
  | printWait (pc : (s.worker i).pc = .printWait) : WorkerStep s i
      { s.moveWorker i ⟨.barrierWait, (s.worker i).counter⟩ with output := s.output ++ [.wait i] }
  | last (pc : (s.worker i).pc = .barrierWait) (last : s.mybarrier.arrived + 1 = N + 1) :
      WorkerStep s i { s.moveWorker i ⟨.printGo, (s.worker i).counter⟩ with
        mybarrier := s.mybarrier.arrive (N + 1) }
  | block (pc : (s.worker i).pc = .barrierWait) (notLast : s.mybarrier.arrived + 1 ≠ N + 1) :
      WorkerStep s i
        { s.moveWorker i ⟨.blocked s.mybarrier.generation, (s.worker i).counter⟩ with
          mybarrier := s.mybarrier.arrive (N + 1) }
  | release {generation : Nat} (pc : (s.worker i).pc = .blocked generation)
      (released : s.mybarrier.generation ≠ generation) :
      WorkerStep s i (s.moveWorker i ⟨.printGo, (s.worker i).counter⟩)
  | printGo (pc : (s.worker i).pc = .printGo) : WorkerStep s i
      { s.moveWorker i ⟨.sleep, (s.worker i).counter + 1⟩ with
        output := s.output ++ [.go i (s.worker i).counter] }
  | sleep (pc : (s.worker i).pc = .sleep) :
      WorkerStep s i (s.moveWorker i ⟨.printWait, (s.worker i).counter⟩)

theorem workerStep_cases {i : Fin N} (h : workerStep s i = some s') : WorkerStep s i s' := by
  unfold workerStep at h
  cases hpc : (s.worker i).pc with
  | notStarted => simp [hpc] at h
  | printWait =>
    simp only [hpc] at h
    cases h
    exact .printWait hpc
  | barrierWait =>
    simp only [hpc] at h
    by_cases hlast : s.Last
    · rw [if_pos hlast] at h
      cases h
      exact .last hpc hlast
    · rw [if_neg hlast] at h
      cases h
      exact .block hpc hlast
  | blocked generation =>
    simp only [hpc] at h
    split_ifs at h with hgeneration
    cases h
    exact .release hpc hgeneration
  | printGo =>
    simp only [hpc] at h
    cases h
    exact .printGo hpc
  | sleep =>
    simp only [hpc] at h
    cases h
    exact .sleep hpc

/-- The steps of `main`, by what it does. -/
inductive MainStep (M : Nat) (s : State N) : State N → Prop where
  | create {i : Nat} (pc : s.main = .create i) (h : i < N) : MainStep M s
      { s.moveWorker ⟨i, h⟩ ⟨.printWait, 0⟩ with main := createLoop N M (i + 1) }
  | printReady {i : Nat} (pc : s.main = .printReady i) : MainStep M s
      { s with main := .barrierWait i, output := s.output ++ [.ready] }
  | last {i : Nat} (pc : s.main = .barrierWait i) (last : s.mybarrier.arrived + 1 = N + 1) :
      MainStep M s { s with main := .printGo i, mybarrier := s.mybarrier.arrive (N + 1) }
  | block {i : Nat} (pc : s.main = .barrierWait i) (notLast : s.mybarrier.arrived + 1 ≠ N + 1) :
      MainStep M s { s with
        main := .blocked i s.mybarrier.generation, mybarrier := s.mybarrier.arrive (N + 1) }
  | release {i generation : Nat} (pc : s.main = .blocked i generation)
      (released : s.mybarrier.generation ≠ generation) : MainStep M s { s with main := .printGo i }
  | printGo {i : Nat} (pc : s.main = .printGo i) : MainStep M s
      { s with main := .sleep i, output := s.output ++ [.mainGo i] }
  | sleep {i : Nat} (pc : s.main = .sleep i) : MainStep M s { s with main := roundLoop M (i + 1) }

theorem mainStep_cases (h : mainStep M s = some s') : MainStep M s s' := by
  unfold mainStep at h
  cases hpc : s.main with
  | create i =>
    simp only [hpc] at h
    split_ifs at h with hi
    cases h
    exact .create hpc hi
  | printReady i =>
    simp only [hpc] at h
    cases h
    exact .printReady hpc
  | barrierWait i =>
    simp only [hpc] at h
    by_cases hlast : s.Last
    · rw [if_pos hlast] at h
      cases h
      exact .last hpc hlast
    · rw [if_neg hlast] at h
      cases h
      exact .block hpc hlast
  | blocked i generation =>
    simp only [hpc] at h
    split_ifs at h with hgeneration
    cases h
    exact .release hpc hgeneration
  | printGo i =>
    simp only [hpc] at h
    cases h
    exact .printGo hpc
  | sleep i =>
    simp only [hpc] at h
    cases h
    exact .sleep hpc
  | exited => simp [hpc] at h

/-- The steps of the process, by who takes them. -/
inductive Step (M : Nat) (s : State N) : State N → Prop where
  | worker {i : Fin N} {s' : State N} (running : s.main ≠ .exited) (step : WorkerStep s i s') :
      Step M s s'
  | main {s' : State N} (step : MainStep M s s') : Step M s s'

theorem step_cases {t : Thread N} (h : step M s t = some s') : Step M s s' := by
  unfold step at h
  split_ifs at h with hrunning
  cases t with
  | worker i => exact .worker hrunning (workerStep_cases h)
  | main => exact .main (mainStep_cases h)

end Cases
end Barriers
end SystemsCourse
