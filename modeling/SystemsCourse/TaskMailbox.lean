import SystemsCourse.LockOwner
import SystemsCourse.StepSystem

/-!
# `conditionex.c`: a mailbox with one slot

One worker and `T` threads that call `produce_work` (`BUSY` is not defined).  Each
of these is one step: taking the lock, giving it back, an access to a field of
`workertask`, `pthread_cond_signal`, the release-and-block of `pthread_cond_wait`,
its wakeup, and the reacquisition of the lock after it.  A signal wakes the worker
if it is blocked and is lost otherwise; the worker may also wake up without one.

A submission is accepted when `produce_work` finds `busy` false under the lock; the
accepted tasks are numbered from zero, and the submitter keeps the number of its own
until it has signalled.  `accepted` and `handled` are history.
-/
namespace SystemsCourse
namespace TaskMailbox

/-- Where the thread in `worker_func` is. -/
inductive WorkerPc where
  | lock
  | testBusy
  | printfileinfo
  | clearBusy
  | condWait
  /-- Inside `pthread_cond_wait`, not woken yet. -/
  | blocked
  | reacquire
  | unlock
deriving DecidableEq

/-- Where a thread that calls `produce_work` is; `idle` is outside of it. -/
inductive SubmitterPc where
  | idle
  | lock (filename : String)
  | testBusy (filename : String)
  | refuse
  | setBusy (filename : String) (task : Nat)
  | setFilename (filename : String) (task : Nat)
  | unlock (task : Nat)
  | condSignal (task : Nat)

/-- Who may own the lock. -/
inductive Party (T : Nat) where
  | worker
  | submitter (i : Fin T)
deriving DecidableEq

/-- `workertask`, `worker_lock`, the threads, and the history. -/
structure State (T : Nat) where
  busy : Bool
  filename : Option String
  owner : Option (Party T)
  worker : WorkerPc
  submitter : Fin T → SubmitterPc
  /-- The file names of the accepted submissions, in order. -/
  accepted : List String
  /-- What the worker has passed to `printfileinfo`, in order. -/
  handled : List (Option String)

/-- What can happen next. -/
inductive Action (T : Nat) where
  | worker
  | spuriousWakeup
  | call (i : Fin T) (filename : String)
  | submitter (i : Fin T)

section Steps
variable {T : Nat} (s : State T)

/-- Submitter `i` moves on. -/
def State.move (i : Fin T) (pc : SubmitterPc) : State T :=
  { s with submitter := Function.update s.submitter i pc }

/-- The worker, if it is blocked in `pthread_cond_wait`, wakes up. -/
def WorkerPc.wake : WorkerPc → WorkerPc
  | .blocked => .reacquire
  | pc => pc

/-- A step of `worker_func`. -/
def workerStep : Option (State T) :=
  match s.worker with
  | .lock =>
      if s.owner = none then some { s with owner := some .worker, worker := .testBusy } else none
  | .testBusy => some { s with worker := if s.busy then .printfileinfo else .condWait }
  | .printfileinfo => some { s with worker := .clearBusy, handled := s.handled ++ [s.filename] }
  | .clearBusy => some { s with worker := .unlock, busy := false }
  | .condWait => some { s with worker := .blocked, owner := none }
  | .blocked => none
  | .reacquire =>
      if s.owner = none then some { s with owner := some .worker, worker := .unlock } else none
  | .unlock => some { s with owner := none, worker := .lock }

/-- A step of `produce_work` in submitter `i`. -/
def produceWorkStep (i : Fin T) : Option (State T) :=
  match s.submitter i with
  | .idle => none
  | .lock filename =>
      if s.owner = none then
        some { s.move i (.testBusy filename) with owner := some (.submitter i) }
      else none
  | .testBusy filename =>
      if s.busy then some (s.move i .refuse)
      else some { s.move i (.setBusy filename s.accepted.length) with
        accepted := s.accepted ++ [filename] }
  | .refuse => some { s.move i .idle with owner := none }
  | .setBusy filename task => some { s.move i (.setFilename filename task) with busy := true }
  | .setFilename filename task => some { s.move i (.unlock task) with filename := some filename }
  | .unlock task => some { s.move i (.condSignal task) with owner := none }
  | .condSignal _ => some { s.move i .idle with worker := s.worker.wake }

/-- A step of the program. -/
def step : Action T → Option (State T)
  | .worker => workerStep s
  | .spuriousWakeup => if s.worker = .blocked then some { s with worker := .reacquire } else none
  | .call i filename =>
      match s.submitter i with
      | .idle => some (s.move i (.lock filename))
      | _ => none
  | .submitter i => produceWorkStep s i

end Steps

/-- `workertask` is all zero, the lock is free and nobody has called `produce_work`. -/
def initial (T : Nat) : State T where
  busy := false
  filename := none
  owner := none
  worker := .lock
  submitter := fun _ => .idle
  accepted := []
  handled := []

/-- **The program**, with `T` submitting threads. -/
def program (T : Nat) : StepSystem (State T) (Action T) := ⟨initial T, step⟩

/-! ## What a step does -/

section Cases
variable {T : Nat} {s s' : State T}

/-- The steps of the worker, by what it does. -/
inductive WorkerStep (s : State T) : State T → Prop where
  | lock (pc : s.worker = .lock) (free : s.owner = none) :
      WorkerStep s { s with owner := some .worker, worker := .testBusy }
  | task (pc : s.worker = .testBusy) (busy : s.busy = true) :
      WorkerStep s { s with worker := .printfileinfo }
  | noTask (pc : s.worker = .testBusy) (busy : s.busy = false) :
      WorkerStep s { s with worker := .condWait }
  | printfileinfo (pc : s.worker = .printfileinfo) :
      WorkerStep s { s with worker := .clearBusy, handled := s.handled ++ [s.filename] }
  | clearBusy (pc : s.worker = .clearBusy) : WorkerStep s { s with worker := .unlock, busy := false }
  | condWait (pc : s.worker = .condWait) : WorkerStep s { s with worker := .blocked, owner := none }
  | reacquire (pc : s.worker = .reacquire) (free : s.owner = none) :
      WorkerStep s { s with owner := some .worker, worker := .unlock }
  | unlock (pc : s.worker = .unlock) : WorkerStep s { s with owner := none, worker := .lock }

theorem workerStep_cases (h : workerStep s = some s') : WorkerStep s s' := by
  unfold workerStep at h
  cases hpc : s.worker with
  | lock =>
    simp only [hpc] at h
    split_ifs at h with hfree
    cases h
    exact .lock hpc hfree
  | testBusy =>
    simp only [hpc, Option.some.injEq] at h
    split_ifs at h with hbusy <;> subst h
    · exact .task hpc hbusy
    · exact .noTask hpc (Bool.eq_false_iff.mpr hbusy)
  | printfileinfo =>
    simp only [hpc, Option.some.injEq] at h
    exact h ▸ .printfileinfo hpc
  | clearBusy =>
    simp only [hpc, Option.some.injEq] at h
    exact h ▸ .clearBusy hpc
  | condWait =>
    simp only [hpc, Option.some.injEq] at h
    exact h ▸ .condWait hpc
  | blocked => simp [hpc] at h
  | reacquire =>
    simp only [hpc] at h
    split_ifs at h with hfree
    cases h
    exact .reacquire hpc hfree
  | unlock =>
    simp only [hpc, Option.some.injEq] at h
    exact h ▸ .unlock hpc

/-- The steps of submitter `i` inside `produce_work`, by what it does. -/
inductive ProduceWorkStep (s : State T) (i : Fin T) : State T → Prop where
  | lock {filename : String} (pc : s.submitter i = .lock filename) (free : s.owner = none) :
      ProduceWorkStep s i { s.move i (.testBusy filename) with owner := some (.submitter i) }
  | refuse {filename : String} (pc : s.submitter i = .testBusy filename) (busy : s.busy = true) :
      ProduceWorkStep s i (s.move i .refuse)
  | accept {filename : String} (pc : s.submitter i = .testBusy filename) (busy : s.busy = false) :
      ProduceWorkStep s i { s.move i (.setBusy filename s.accepted.length) with
        accepted := s.accepted ++ [filename] }
  | giveUp (pc : s.submitter i = .refuse) :
      ProduceWorkStep s i { s.move i .idle with owner := none }
  | setBusy {filename : String} {task : Nat} (pc : s.submitter i = .setBusy filename task) :
      ProduceWorkStep s i { s.move i (.setFilename filename task) with busy := true }
  | setFilename {filename : String} {task : Nat} (pc : s.submitter i = .setFilename filename task) :
      ProduceWorkStep s i { s.move i (.unlock task) with filename := some filename }
  | unlock {task : Nat} (pc : s.submitter i = .unlock task) :
      ProduceWorkStep s i { s.move i (.condSignal task) with owner := none }
  | condSignal {task : Nat} (pc : s.submitter i = .condSignal task) :
      ProduceWorkStep s i { s.move i .idle with worker := s.worker.wake }

theorem produceWorkStep_cases {i : Fin T} (h : produceWorkStep s i = some s') :
    ProduceWorkStep s i s' := by
  unfold produceWorkStep at h
  cases hpc : s.submitter i with
  | idle => simp [hpc] at h
  | lock filename =>
    simp only [hpc] at h
    split_ifs at h with hfree
    cases h
    exact .lock hpc hfree
  | testBusy filename =>
    simp only [hpc] at h
    split_ifs at h with hbusy <;> cases h
    · exact .refuse hpc hbusy
    · exact .accept hpc (Bool.eq_false_iff.mpr hbusy)
  | refuse =>
    simp only [hpc, Option.some.injEq] at h
    exact h ▸ .giveUp hpc
  | setBusy filename task =>
    simp only [hpc, Option.some.injEq] at h
    exact h ▸ .setBusy hpc
  | setFilename filename task =>
    simp only [hpc, Option.some.injEq] at h
    exact h ▸ .setFilename hpc
  | unlock task =>
    simp only [hpc, Option.some.injEq] at h
    exact h ▸ .unlock hpc
  | condSignal task =>
    simp only [hpc, Option.some.injEq] at h
    exact h ▸ .condSignal hpc

/-- The steps of the program. -/
inductive Step (s : State T) : State T → Prop where
  | worker {s' : State T} (step : WorkerStep s s') : Step s s'
  | spuriousWakeup (pc : s.worker = .blocked) : Step s { s with worker := .reacquire }
  | call {i : Fin T} (filename : String) (pc : s.submitter i = .idle) :
      Step s (s.move i (.lock filename))
  | submitter {i : Fin T} {s' : State T} (step : ProduceWorkStep s i s') : Step s s'

theorem step_cases {a : Action T} (h : step s a = some s') : Step s s' := by
  cases a with
  | worker => exact .worker (workerStep_cases h)
  | spuriousWakeup =>
    unfold step at h
    split_ifs at h with hpc
    cases h
    exact .spuriousWakeup hpc
  | call i filename =>
    unfold step at h
    cases hpc : s.submitter i with
    | idle =>
      simp only [hpc, Option.some.injEq] at h
      exact h ▸ .call filename hpc
    | _ => simp [hpc] at h
  | submitter i => exact .submitter (produceWorkStep_cases h)

end Cases

end TaskMailbox
end SystemsCourse
