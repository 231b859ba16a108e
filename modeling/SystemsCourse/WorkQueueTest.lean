import SystemsCourse.LockOwner
import SystemsCourse.StepSystem
import SystemsCourse.ThreadTally

/-!
# `project2/test.c`: what the test of the work queue tells

The test creates a queue, submits `N` tasks that count themselves in `counter`, waits
for them and compares `counter` with `N`.  The queue is not known.  Here it may do
anything at any time: fail to be created, return any task id, run a task that has been
submitted in one of its `W` workers or in the main thread, run it again, or return from
`wq_wait` too early.

A task frees its argument when it ends, so a task that is run twice reads or frees
memory that is gone; such a run is undefined, and a run of the model has no such step.
Two executions of a task can overlap, however, and both have counted before one of them
frees.  `counted` is history: the executions that have counted, in order.

The comparisons at the end read `counter` up to three times, without the lock, and a
task can still count between the return of `wq_wait` and each of them.  If none is
running when it returns and none is started afterwards, the verdict of the test is right
(`verdict_exact`).  If not, the test can pass without a task having run, when there are
two tasks and two workers (`fooled_iff`).
-/
namespace SystemsCourse
namespace WorkQueueTest

/-! ## Texts -/

def green : String := "\x1b[32m"
def red : String := "\x1b[31m"
def reset : String := "\x1b[0m"

/-- `PASS`. -/
def pass (msg : String) : String := green ++ "PASS:\t" ++ msg ++ "\n" ++ reset

/-- `FAIL`. -/
def fail (msg : String) : String := red ++ "\tFAIL:\t" ++ msg ++ "\n" ++ reset

/-- `TEST`: what it prints, and whether it exits. -/
def test (condition : Bool) (passmsg errmsg : String) (fatal : Bool) : String × Bool :=
  if condition then (pass passmsg, false) else (fail errmsg, fatal)

/-- The verdicts. -/
inductive Verdict where
  | matchesExpected
  | tooMany
  | tooFew
  | noTasks
deriving DecidableEq

/-- What is printed. -/
def Verdict.line : Verdict → String
  | .matchesExpected => pass "counter matches the expected value."
  | .tooMany =>
      fail "It looks like we ran too many tasks. Not sure what's going on, but it's not right."
  | .tooFew => fail "Looks like we ran something, but too few tasks."
  | .noTasks => fail "No tasks were executed."

/-! ## The threads -/

/-- Where a thread is in `taskfunc`. -/
inductive TaskPc where
  | testArg
  | testThread
  | lock
  | readCounter
  | writeCounter (read : Nat)
  | unlock
  | free
deriving DecidableEq

/-- A worker of the queue. -/
inductive WorkerPc (N : Nat) where
  | idle
  | task (k : Fin N) (pc : TaskPc)
deriving DecidableEq

/-- Where `main` is: in `submitted i` it is in `wq_submit`, and in `isEqual`, `isMore` and
`isPositive` in front of the comparisons. -/
inductive MainPc where
  | create
  | submit (i : Nat)
  | submitted (i : Nat)
  | wait
  | isEqual
  | isMore
  | isPositive
  | print (verdict : Verdict)
  | returned (verdict : Verdict)
  | exited
deriving DecidableEq

/-- The memory of the argument of a task. -/
inductive Arg where
  | unallocated
  | allocated
  | freed
deriving DecidableEq

/-- The variables, the threads, and what has been printed. -/
structure State (N W : Nat) where
  main : MainPc
  worker : Fin W → WorkerPc N
  arg : Fin N → Arg
  mainlock : Option (Fin W)
  counter : Nat
  stdout : List String
  /-- The tasks of the executions that have counted. -/
  counted : List (Fin N)

/-- What happens next: `main` goes on, after a call that returns `result` (zero stands
for a null pointer); the queue runs task `k` in the main thread, or starts it in worker
`w`; or that worker goes on. -/
inductive Action (N W : Nat) where
  | main (result : Int)
  | mainRuns (k : Fin N)
  | start (w : Fin W) (k : Fin N)
  | worker (w : Fin W)

section Steps
variable {N W : Nat} (s : State N W)

/-- The loop of `main` with the value `i`. -/
def loop (N i : Nat) : MainPc := if i < N then .submit i else .wait

/-- A test in the main thread, which then is at `pc`. -/
def State.mainTest (t : String × Bool) (pc : MainPc) : State N W :=
  { s with main := if t.2 then .exited else pc, stdout := s.stdout ++ [t.1] }

/-- The first test of `taskfunc`: `*iarg` is the number of the task. -/
def testArg (k : Fin N) : String × Bool :=
  test (decide (k.val < N)) "Arg passing looks reasonable" "Passed argument out of range." false

/-- The second one, in the main thread. -/
def testMainThread : String × Bool :=
  test false "running tasks in new thread"
    "The queue is calling tasks from the main thread, rather than doing the work in worker threads."
    true

/-- Worker `w` goes on to `pc`. -/
def State.goto (w : Fin W) (pc : WorkerPc N) : State N W :=
  { s with worker := Function.update s.worker w pc }

/-- A step of `taskfunc`, for task `k` in worker `w`. -/
def taskStep (w : Fin W) (k : Fin N) : TaskPc → Option (State N W)
  | .testArg =>
      if s.arg k = .allocated then
        some { s.goto w (.task k .testThread) with stdout := s.stdout ++ [(testArg k).1] }
      else none
  | .testThread => some (s.goto w (.task k .lock))
  | .lock =>
      if s.mainlock = none then
        some { s.goto w (.task k .readCounter) with mainlock := some w }
      else none
  | .readCounter => some (s.goto w (.task k (.writeCounter s.counter)))
  | .writeCounter read => some { s.goto w (.task k .unlock) with
      counter := read + 1
      counted := s.counted ++ [k] }
  | .unlock => some { s.goto w (.task k .free) with mainlock := none }
  | .free =>
      if s.arg k = .allocated then
        some { s.goto w .idle with arg := Function.update s.arg k .freed }
      else none

/-- `main` allocates the argument of task `i` and submits it. -/
def State.submit (i : Nat) (h : i < N) : State N W :=
  { s with main := .submitted i, arg := Function.update s.arg ⟨i, h⟩ .allocated }

/-- A step of `main`. -/
def mainStep (result : Int) : Option (State N W) :=
  match s.main with
  | .create => some (s.mainTest
      (test (decide (result ≠ 0)) "create succeeded" "wq_create returned NULL." true) (loop N 0))
  | .submit i => if h : i < N then some (s.submit i h) else none
  | .submitted i => some (s.mainTest (test (decide (0 < result)) "taskid looks good"
      "wq_submit returned a task ID that was not positive." false) (loop N (i + 1)))
  | .wait => some { s with main := .isEqual }
  | .isEqual => some { s with
      main := if s.counter = N then .print .matchesExpected else .isMore }
  | .isMore => some { s with main := if N < s.counter then .print .tooMany else .isPositive }
  | .isPositive => some { s with
      main := if 0 < s.counter then .print .tooFew else .print .noTasks }
  | .print verdict => some { s with
      main := .returned verdict
      stdout := s.stdout ++ [verdict.line] }
  | .returned _ => none
  | .exited => none

/-- The queue runs task `k` in the main thread, before `wq_submit` or `wq_wait` returns. -/
def mainRunsStep (k : Fin N) : Option (State N W) :=
  if s.arg k = .allocated then
    some ((s.mainTest (testArg k) s.main).mainTest testMainThread s.main)
  else none

/-- The queue starts task `k` in worker `w`. -/
def startStep (w : Fin W) (k : Fin N) : Option (State N W) :=
  if s.worker w = .idle ∧ s.arg k ≠ .unallocated then some (s.goto w (.task k .testArg)) else none

/-- A step of worker `w`. -/
def workerStep (w : Fin W) : Option (State N W) :=
  match s.worker w with
  | .idle => none
  | .task k pc => taskStep s w k pc

/-- The process has not ended. -/
def MainPc.running : MainPc → Bool
  | .returned _ | .exited => false
  | _ => true

/-- The main thread is in a call to which tasks have been given. -/
def MainPc.calling : MainPc → Bool
  | .submitted _ | .wait => true
  | _ => false

/-- A step of the process. -/
def step : Action N W → Option (State N W)
  | .main result => mainStep s result
  | .mainRuns k => if s.main.calling then mainRunsStep s k else none
  | .start w k => if s.main.running then startStep s w k else none
  | .worker w => if s.main.running then workerStep s w else none

end Steps

/-- The start of `main`. -/
def initial (N W : Nat) : State N W where
  main := .create
  worker _ := .idle
  arg _ := .unallocated
  mainlock := none
  counter := 0
  stdout := []
  counted := []

/-- **The test**, with `N` tasks and `W` workers. -/
def program (N W : Nat) : StepSystem (State N W) (Action N W) := ⟨initial N W, step⟩

/-! ## What a step does -/

section Cases
variable {N W : Nat} {s s' : State N W} {w : Fin W}

/-- How many tasks have an argument. -/
def MainPc.allocated (N : Nat) : MainPc → Nat
  | .create => 0
  | .submit i => i
  | .submitted i => i + 1
  | _ => N

/-- The steps in the main thread, by what it does. -/
inductive MainStep (s : State N W) : State N W → Prop where
  | test (t : String × Bool) : MainStep s (s.mainTest t (loop N (s.main.allocated N)))
  | submit {i : Nat} (h : i < N) (pc : s.main = .submit i) : MainStep s (s.submit i h)
  | returns (pc : s.main = .wait) : MainStep s { s with main := .isEqual }
  | isEqual (pc : s.main = .isEqual) : MainStep s { s with
      main := if s.counter = N then .print .matchesExpected else .isMore }
  | isMore (pc : s.main = .isMore) : MainStep s { s with
      main := if N < s.counter then .print .tooMany else .isPositive }
  | isPositive (pc : s.main = .isPositive) : MainStep s { s with
      main := if 0 < s.counter then .print .tooFew else .print .noTasks }
  | print {verdict : Verdict} (pc : s.main = .print verdict) : MainStep s { s with
      main := .returned verdict
      stdout := s.stdout ++ [verdict.line] }
  | exits (stdout : List String) : MainStep s { s with main := .exited, stdout }

theorem mainStep_cases {result : Int} (h : mainStep s result = some s') : MainStep s s' := by
  unfold mainStep at h
  split at h
  · rename_i hpc
    cases h
    have htest := MainStep.test (s := s)
      (test (decide (result ≠ 0)) "create succeeded" "wq_create returned NULL." true)
    rwa [hpc] at htest
  · rename_i i hpc
    split_ifs at h with hi
    cases h
    exact .submit hi hpc
  · rename_i i hpc
    cases h
    have htest := MainStep.test (s := s) (test (decide (0 < result)) "taskid looks good"
      "wq_submit returned a task ID that was not positive." false)
    rwa [hpc] at htest
  · rename_i hpc
    cases h
    exact .returns hpc
  · rename_i hpc
    cases h
    exact .isEqual hpc
  · rename_i hpc
    cases h
    exact .isMore hpc
  · rename_i hpc
    cases h
    exact .isPositive hpc
  · rename_i hpc
    cases h
    exact .print hpc
  · cases h
  · cases h

theorem mainRunsStep_cases {k : Fin N} (h : mainRunsStep s k = some s') : MainStep s s' := by
  unfold mainRunsStep at h
  split_ifs at h
  cases h
  exact .exits _

/-- The steps of worker `w`, by what it does. -/
inductive WorkerStep (s : State N W) (w : Fin W) : State N W → Prop where
  | start {k : Fin N} (pc : s.worker w = .idle) (submitted : s.arg k ≠ .unallocated) :
      WorkerStep s w (s.goto w (.task k .testArg))
  | testArg {k : Fin N} (pc : s.worker w = .task k .testArg) (live : s.arg k = .allocated) :
      WorkerStep s w { s.goto w (.task k .testThread) with
        stdout := s.stdout ++ [(WorkQueueTest.testArg k).1] }
  | testThread {k : Fin N} (pc : s.worker w = .task k .testThread) :
      WorkerStep s w (s.goto w (.task k .lock))
  | lock {k : Fin N} (pc : s.worker w = .task k .lock) (free : s.mainlock = none) :
      WorkerStep s w { s.goto w (.task k .readCounter) with mainlock := some w }
  | readCounter {k : Fin N} (pc : s.worker w = .task k .readCounter) :
      WorkerStep s w (s.goto w (.task k (.writeCounter s.counter)))
  | writeCounter {k : Fin N} {read : Nat} (pc : s.worker w = .task k (.writeCounter read)) :
      WorkerStep s w { s.goto w (.task k .unlock) with
        counter := read + 1
        counted := s.counted ++ [k] }
  | unlock {k : Fin N} (pc : s.worker w = .task k .unlock) :
      WorkerStep s w { s.goto w (.task k .free) with mainlock := none }
  | free {k : Fin N} (pc : s.worker w = .task k .free) (live : s.arg k = .allocated) :
      WorkerStep s w { s.goto w .idle with arg := Function.update s.arg k .freed }

theorem startStep_cases {k : Fin N} (h : startStep s w k = some s') : WorkerStep s w s' := by
  unfold startStep at h
  split_ifs at h with hk
  cases h
  exact .start hk.1 hk.2

theorem workerStep_cases (h : workerStep s w = some s') : WorkerStep s w s' := by
  unfold workerStep at h
  cases hpc : s.worker w with
  | idle => simp [hpc] at h
  | task k pc =>
    simp only [hpc] at h
    cases pc with
    | testArg =>
      simp only [taskStep] at h
      split_ifs at h with hlive
      cases h
      exact .testArg hpc hlive
    | testThread =>
      cases h
      exact .testThread hpc
    | lock =>
      simp only [taskStep] at h
      split_ifs at h with hfree
      cases h
      exact .lock hpc hfree
    | readCounter =>
      cases h
      exact .readCounter hpc
    | writeCounter read =>
      cases h
      exact .writeCounter hpc
    | unlock =>
      cases h
      exact .unlock hpc
    | free =>
      simp only [taskStep] at h
      split_ifs at h with hlive
      cases h
      exact .free hpc hlive

/-- A step is one of the main thread, or one of a worker before the process ends. -/
theorem step_cases {a : Action N W} (h : step s a = some s') :
    MainStep s s' ∨ ∃ w, s.main.running = true ∧ WorkerStep s w s' := by
  cases a with
  | main result => exact .inl (mainStep_cases h)
  | mainRuns k =>
    simp only [step] at h
    split_ifs at h
    exact .inl (mainRunsStep_cases h)
  | start w k =>
    simp only [step] at h
    split_ifs at h with hrunning
    exact .inr ⟨w, hrunning, startStep_cases h⟩
  | worker w =>
    simp only [step] at h
    split_ifs at h with hrunning
    exact .inr ⟨w, hrunning, workerStep_cases h⟩

end Cases

/-! ## What has been counted -/

section Invariant
variable {N W : Nat} {s s' : State N W} {w : Fin W} {k : Fin N}

/-- The worker is in an execution of task `k` that has counted. -/
def WorkerPc.counts (k : Fin N) : WorkerPc N → Bool
  | .task j .unlock | .task j .free => j = k
  | _ => false

/-- How many executions of task `k` have counted and not ended. -/
def State.pending (s : State N W) (k : Fin N) : Nat := tally (fun pc => pc.counts k = true) s.worker

/-- The worker has the lock. -/
def WorkerPc.Inside : WorkerPc N → Prop
  | .task _ .readCounter | .task _ (.writeCounter _) | .task _ .unlock => True
  | _ => False

/-- `main` has found that `counter` matches. -/
def MainPc.Matched : MainPc → Prop
  | .print .matchesExpected | .returned .matchesExpected => True
  | _ => False

/-- **Every execution is accounted for.** -/
structure Accounted (s : State N W) : Prop where
  lock : LockHeld s.mainlock fun w => (s.worker w).Inside
  read : ∀ w k read, s.worker w = .task k (.writeCounter read) → read = s.counter
  counter : s.counter = s.counted.length
  /-- An execution that has counted is going on, or has freed the argument. -/
  counted : ∀ k, s.counted.count k = s.pending k + if s.arg k = .freed then 1 else 0
  fresh : ∀ k : Fin N, s.main.allocated N ≤ k.val → s.arg k = .unallocated
  /-- One worker does not free the argument of a task before the task has ended. -/
  alone : W ≤ 1 → ∀ w k pc, s.worker w = .task k pc → pc ≠ .testArg → s.arg k = .allocated
  matched : s.main.Matched → N ≤ s.counter

theorem accounted_initial : Accounted (initial N W) where
  lock := LockHeld.free fun _ h => h
  read _ _ _ h := by cases h
  counter := rfl
  counted k := by
    have hnone : (initial N W).pending k = 0 := tally_eq_zero_iff.mpr fun _ => Bool.false_ne_true
    rw [hnone]
    rfl
  fresh _ _ := rfl
  alone _ _ _ _ h := by cases h
  matched h := h.elim

/-- `main` goes on where all tasks have an argument. -/
theorem Accounted.mainGoto (h : Accounted s) {pc : MainPc} {stdout : List String}
    (hpc : pc.allocated N = N) (hmatched : pc.Matched → N ≤ s.counter) :
    Accounted { s with main := pc, stdout } :=
  { h with
    fresh := fun k hk => absurd (hpc.symm.trans_le hk) (Nat.not_le_of_lt k.isLt)
    matched := hmatched }

/-- `main` allocates and submits. -/
theorem Accounted.submit (h : Accounted s) {i : Nat} (hi : i < N) (pc : s.main = .submit i) :
    Accounted (s.submit i hi) := by
  have hunallocated : s.arg ⟨i, hi⟩ = .unallocated := h.fresh _ (pc ▸ Nat.le_refl i)
  refine { h with
    counted := fun k => ?_, fresh := fun k hk => ?_, alone := fun hW w k pc hw hpc => ?_,
    matched := fun hmatched => hmatched.elim }
  · have hfreed : Function.update s.arg ⟨i, hi⟩ .allocated k = .freed ↔ s.arg k = .freed := by
      by_cases hk : k = ⟨i, hi⟩
      · rw [hk, Function.update_self, hunallocated]
        exact iff_of_false (fun h => Arg.noConfusion h) (fun h => Arg.noConfusion h)
      · rw [Function.update_of_ne hk]
    exact (h.counted k).trans (congrArg (s.pending k + ·) (if_congr hfreed rfl rfl).symm)
  · have hne : k ≠ ⟨i, hi⟩ := fun hki => absurd (congrArg Fin.val hki) (Nat.ne_of_gt hk)
    refine (Function.update_of_ne hne _ _).trans (h.fresh k ?_)
    exact pc ▸ Nat.le_of_succ_le hk
  · show Function.update s.arg ⟨i, hi⟩ .allocated k = .allocated
    by_cases hk : k = ⟨i, hi⟩
    · rw [hk, Function.update_self]
    · rw [Function.update_of_ne hk, h.alone hW w k pc hw hpc]

theorem Accounted.mainStep (h : Accounted s) (hstep : MainStep s s') : Accounted s' := by
  cases hstep with
  | test t =>
    show Accounted { s with
      main := if t.2 then .exited else loop N (s.main.allocated N), stdout := _ }
    unfold loop
    split_ifs
    · exact h.mainGoto rfl False.elim
    · exact { h with matched := False.elim }
    · exact h.mainGoto rfl False.elim
  | submit hi pc => exact h.submit hi pc
  | returns pc => exact h.mainGoto rfl False.elim
  | isEqual pc =>
    split_ifs with heq
    · exact h.mainGoto rfl fun _ => Nat.le_of_eq heq.symm
    · exact h.mainGoto rfl False.elim
  | isMore pc =>
    split_ifs
    · exact h.mainGoto rfl False.elim
    · exact h.mainGoto rfl False.elim
  | isPositive pc =>
    split_ifs
    · exact h.mainGoto rfl False.elim
    · exact h.mainGoto rfl False.elim
  | @print verdict pc =>
    have hmatched := h.matched
    rw [pc] at hmatched
    refine h.mainGoto rfl fun hv => hmatched ?_
    cases verdict with
    | matchesExpected => exact trivial
    | tooMany | tooFew | noTasks => exact hv.elim
  | exits stdout => exact h.mainGoto rfl False.elim

/-- A worker that goes on changes the number of pending executions by its own. -/
theorem pending_goto (s : State N W) (w : Fin W) (pc : WorkerPc N) (k : Fin N) :
    (s.goto w pc).pending k + (if (s.worker w).counts k then 1 else 0)
      = s.pending k + if pc.counts k then 1 else 0 := tally_update s.worker w pc

/-- A worker goes on without counting or freeing anything. -/
theorem Accounted.goto (h : Accounted s) {pc : WorkerPc N} {owner : Option (Fin W)}
    {stdout : List String}
    (hlock : LockHeld owner fun j => (Function.update s.worker w pc j).Inside)
    (hcounts : ∀ k, pc.counts k = (s.worker w).counts k)
    (hread : ∀ k read, pc = .task k (.writeCounter read) → read = s.counter)
    (halone : W ≤ 1 → ∀ k p, pc = .task k p → p ≠ .testArg → s.arg k = .allocated) :
    Accounted { s.goto w pc with mainlock := owner, stdout } where
  lock := hlock
  read j k read hj := by
    rcases update_cases hj with ⟨-, hpc⟩ | ⟨-, hj⟩
    · exact hread k read hpc
    · exact h.read j k read hj
  counter := h.counter
  counted k := by
    have hpending := pending_goto s w pc k
    rw [hcounts k, Nat.add_right_cancel_iff] at hpending
    exact (h.counted k).trans (congrArg (· + _) hpending.symm)
  fresh := h.fresh
  alone hW j k p hj hp := by
    rcases update_cases hj with ⟨-, hpc⟩ | ⟨-, hj⟩
    · exact halone hW k p hpc hp
    · exact h.alone hW j k p hj hp
  matched := h.matched

/-- The lock, when a worker goes on inside or outside. -/
theorem Accounted.lock_goto (h : Accounted s) {pc : WorkerPc N}
    (hinside : pc.Inside ↔ (s.worker w).Inside) :
    LockHeld s.mainlock fun j => (Function.update s.worker w pc j).Inside :=
  h.lock.stay (by rw [Function.update_self, hinside]) fun j hj => by rw [Function.update_of_ne hj]

/-- The argument of its task, when a worker goes on in it. -/
theorem Accounted.alone_goto (h : Accounted s) {p q : TaskPc} (hpc : s.worker w = .task k q)
    (hq : q ≠ .testArg) (hW : W ≤ 1) (j : Fin N) (p' : TaskPc)
    (hp : WorkerPc.task k p = .task j p') (_ : p' ≠ .testArg) : s.arg j = .allocated := by
  cases hp
  exact h.alone hW w k q hpc hq

/-- A worker counts. -/
theorem Accounted.write (h : Accounted s) {read : Nat}
    (hpc : s.worker w = .task k (.writeCounter read)) :
    Accounted { s.goto w (.task k .unlock) with
      counter := read + 1
      counted := s.counted ++ [k] } := by
  have hinside : (s.worker w).Inside := by
    rw [hpc]
    exact trivial
  have hread := h.read w k read hpc
  refine ⟨h.lock_goto (iff_of_true trivial hinside), fun j i read' hj => ?_, ?_, fun i => ?_, h.fresh,
    fun hW j i p hj hp => ?_, fun hmatched => ?_⟩
  · rcases update_cases hj with ⟨-, hj⟩ | ⟨hne, hj⟩
    · cases hj
    · -- nobody else is inside
      have hjinside : (s.worker j).Inside := by
        rw [hj]
        exact trivial
      exact absurd (h.lock.unique hjinside hinside) hne
  · show read + 1 = (s.counted ++ [k]).length
    rw [hread, h.counter, List.length_append]
    rfl
  · have hpending := pending_goto s w (.task k .unlock) i
    rw [hpc] at hpending
    have hpending : (s.goto w (.task k .unlock)).pending i
        = s.pending i + if k = i then 1 else 0 := by simpa [WorkerPc.counts] using hpending
    show (s.counted ++ [k]).count i
      = (s.goto w (.task k .unlock)).pending i + if s.arg i = .freed then 1 else 0
    rw [List.count_append, h.counted, List.count_singleton, hpending, Nat.add_right_comm]
    simp only [beq_iff_eq]
  · rcases update_cases hj with ⟨-, hj⟩ | ⟨-, hj⟩
    · exact h.alone_goto hpc TaskPc.noConfusion hW i p hj hp
    · exact h.alone hW j i p hj hp
  · show N ≤ read + 1
    rw [hread]
    exact Nat.le_succ_of_le (h.matched hmatched)

/-- A worker frees the argument of its task. -/
theorem Accounted.free (h : Accounted s) (hpc : s.worker w = .task k .free)
    (hlive : s.arg k = .allocated) :
    Accounted { s.goto w .idle with arg := Function.update s.arg k .freed } := by
  refine ⟨h.lock_goto (hpc ▸ Iff.rfl), fun j i read hj => ?_, h.counter, fun i => ?_, fun i hi => ?_,
    fun hW j i p hj hp => ?_, h.matched⟩
  · rcases update_cases hj with ⟨-, hj⟩ | ⟨-, hj⟩
    · cases hj
    · exact h.read j i read hj
  · have hpending := pending_goto s w .idle i
    rw [hpc] at hpending
    have hpending : (s.goto w .idle).pending i + (if k = i then 1 else 0) = s.pending i := by
      simpa [WorkerPc.counts] using hpending
    show s.counted.count i = (s.goto w .idle).pending i
      + if Function.update s.arg k .freed i = .freed then 1 else 0
    rw [h.counted, ← hpending]
    by_cases hik : i = k
    · rw [hik, Function.update_self, hlive]
      simp
    · rw [Function.update_of_ne hik, if_neg (Ne.symm hik), Nat.add_zero]
  · have hi := h.fresh i hi
    have hne : i ≠ k := fun hik => by rw [hik, hlive] at hi; cases hi
    exact (Function.update_of_ne hne _ _).trans hi
  · -- the only worker is idle
    have hjw : j = w := Fin.ext (by omega)
    rcases update_cases hj with ⟨-, hj⟩ | ⟨hne, -⟩
    · cases hj
    · exact absurd hjw hne

theorem Accounted.workerStep (h : Accounted s) (hstep : WorkerStep s w s') : Accounted s' := by
  cases hstep with
  | start pc submitted =>
    refine h.goto (h.lock_goto (pc ▸ Iff.rfl)) (fun _ => pc ▸ rfl) (fun _ _ hj => ?_) ?_
    · cases hj
    · intro _ _ p hp hne
      cases hp
      exact absurd rfl hne
  | testArg pc live =>
    refine h.goto (h.lock_goto (pc ▸ Iff.rfl)) (fun _ => pc ▸ rfl) (fun _ _ hj => ?_) ?_
    · cases hj
    · intro _ _ p hp _
      cases hp
      exact live
  | testThread pc =>
    refine h.goto (h.lock_goto (pc ▸ Iff.rfl)) (fun _ => pc ▸ rfl) (fun _ _ hj => ?_)
      (h.alone_goto pc TaskPc.noConfusion)
    cases hj
  | lock pc free =>
    have hlock := free ▸ h.lock
    refine h.goto (hlock.acquire ?_ fun j hj => ?_) (fun _ => pc ▸ rfl) (fun _ _ hj => ?_)
      (h.alone_goto pc TaskPc.noConfusion)
    · rw [Function.update_self]
      exact trivial
    · rw [Function.update_of_ne hj]
    · cases hj
  | readCounter pc =>
    refine h.goto (h.lock_goto (pc ▸ Iff.rfl)) (fun _ => pc ▸ rfl) (fun _ _ hj => ?_)
      (h.alone_goto pc TaskPc.noConfusion)
    cases hj
    rfl
  | writeCounter pc => exact h.write pc
  | unlock pc =>
    refine h.goto (h.lock.release (i := w) ?_ ?_ fun j hj => ?_) (fun _ => pc ▸ rfl)
      (fun _ _ hj => ?_) (h.alone_goto pc TaskPc.noConfusion)
    · rw [pc]
      exact trivial
    · rw [Function.update_self]
      exact id
    · rw [Function.update_of_ne hj]
    · cases hj
  | free pc live => exact h.free pc live

end Invariant

end WorkQueueTest
end SystemsCourse
