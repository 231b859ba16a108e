import SystemsCourse.RingBuffer
import SystemsCourse.StepSystem
import SystemsCourse.ThreadTally

/-!
# `sem.c`: one producer, many consumers

`N` consumers (`NUM_THREADS`), a ring of `B` slots (`NUM_BUFFERS`) and `K` messages
(`ITERATIONS`).  Each semaphore operation, each block under the mutex, each test of
`done` and its assignment is one step; so is each `pthread_create` and each
`pthread_join`.  A thread's program counter names the step it takes next.

Message `i` is the string `"message i"`, written here as `some i`; `none` is a null
pointer.  `produced`, `taken` and `consumed` are history: what the critical
sections have put into the ring and taken out of it, and what the consumers have
printed and freed.
-/
namespace SystemsCourse
namespace BoundedBuffer

/-- Where a thread in `worker_func` is. -/
inductive ConsumerPc where
  | notCreated
  | loopTest
  | semWait
  | doneTest
  | critical
  | consume (thebuf : Option Nat)
  | semPost
  | finished
deriving DecidableEq

/-- Where the thread in `producer_func` is; `i` is its loop variable. -/
inductive ProducerPc where
  | notCreated
  | semWait (i : Nat)
  | critical (i : Nat)
  | semPost (i : Nat)
  | setDone
  | finished
deriving DecidableEq

/-- Where `main` is; `i` is the variable of the loop it is in. -/
inductive MainPc where
  | createConsumer (i : Nat)
  | createProducer
  | joinProducer
  | semPost (i : Nat)
  | joinConsumer (i : Nat)
  | finished
deriving DecidableEq

/-- The shared variables, the threads, and the history. -/
structure State (N : Nat) where
  emptySemaphore : Nat
  fullSemaphore : Nat
  front : Nat
  back : Nat
  buffer : Nat → Option Nat
  done : Bool
  consumer : Fin N → ConsumerPc
  producer : ProducerPc
  main : MainPc
  /-- How many messages have been put into the ring. -/
  produced : Nat
  /-- What has been taken out of the ring, in order. -/
  taken : List (Option Nat)
  /-- What has been printed and freed, in order. -/
  consumed : List (Option Nat)

/-- The threads. -/
inductive Thread (N : Nat) where
  | consumer (i : Fin N)
  | producer
  | main

/-! ## Loop heads -/

/-- `i < ITERATIONS`. -/
def producerLoop (K i : Nat) : ProducerPc := if i < K then .semWait i else .setDone

/-- `i < NUM_THREADS`, in the loop that creates the consumers. -/
def createLoop (N i : Nat) : MainPc := if i < N then .createConsumer i else .createProducer

/-- `i < NUM_THREADS`, in the loop that joins the consumers. -/
def joinLoop (N i : Nat) : MainPc := if i < N then .joinConsumer i else .finished

/-- `i < NUM_THREADS`, in the loop that signals the remaining waiters. -/
def postLoop (N i : Nat) : MainPc := if i < N then .semPost i else joinLoop N 0

section Steps
variable {N : Nat} (B K : Nat) (s : State N)

/-- Consumer `i` moves on. -/
def State.move (i : Fin N) (pc : ConsumerPc) : State N :=
  { s with consumer := Function.update s.consumer i pc }

/-- A step of `worker_func`. -/
def workerStep (i : Fin N) : Option (State N) :=
  match s.consumer i with
  | .notCreated => none
  | .loopTest => some (s.move i (if s.done then .finished else .semWait))
  | .semWait =>
      if s.fullSemaphore = 0 then none
      else some { s.move i .doneTest with fullSemaphore := s.fullSemaphore - 1 }
  | .doneTest => some (s.move i (if s.done then .finished else .critical))
  | .critical => some { s.move i (.consume (s.buffer s.back)) with
      buffer := Function.update s.buffer s.back none
      back := (s.back + 1) % B
      taken := s.taken ++ [s.buffer s.back] }
  | .consume thebuf => some { s.move i .semPost with consumed := s.consumed ++ [thebuf] }
  | .semPost => some { s.move i .loopTest with emptySemaphore := s.emptySemaphore + 1 }
  | .finished => none

/-- A step of `producer_func`. -/
def producerStep : Option (State N) :=
  match s.producer with
  | .notCreated => none
  | .semWait i =>
      if s.emptySemaphore = 0 then none
      else some { s with producer := .critical i, emptySemaphore := s.emptySemaphore - 1 }
  | .critical i => some { s with
      producer := .semPost i
      buffer := Function.update s.buffer s.front (some i)
      front := (s.front + 1) % B
      produced := s.produced + 1 }
  | .semPost i => some { s with
      producer := producerLoop K (i + 1)
      fullSemaphore := s.fullSemaphore + 1 }
  | .setDone => some { s with producer := .finished, done := true }
  | .finished => none

/-- A step of `main`. -/
def mainStep : Option (State N) :=
  match s.main with
  | .createConsumer i =>
      if h : i < N then some { s.move ⟨i, h⟩ .loopTest with main := createLoop N (i + 1) } else none
  | .createProducer => some { s with producer := producerLoop K 0, main := .joinProducer }
  | .joinProducer => if s.producer = .finished then some { s with main := postLoop N 0 } else none
  | .semPost i => some { s with
      fullSemaphore := s.fullSemaphore + 1
      main := postLoop N (i + 1) }
  | .joinConsumer i =>
      if h : i < N then
        if s.consumer ⟨i, h⟩ = .finished then some { s with main := joinLoop N (i + 1) } else none
      else none
  | .finished => none

/-- A step of any thread. -/
def step : Thread N → Option (State N)
  | .consumer i => workerStep B s i
  | .producer => producerStep B K s
  | .main => mainStep K s

end Steps

/-- The state in which `main` has initialised the semaphores. -/
def initial (N B : Nat) : State N where
  emptySemaphore := B
  fullSemaphore := 0
  front := 0
  back := 0
  buffer := fun _ => none
  done := false
  consumer := fun _ => .notCreated
  producer := .notCreated
  main := createLoop N 0
  produced := 0
  taken := []
  consumed := []

/-- **The program**, with `N` consumers, `B` slots and `K` messages. -/
def program (N B K : Nat) : StepSystem (State N) (Thread N) := ⟨initial N B, step B K⟩

/-- `main` has posted its permits. -/
def MainPc.HasPosted : MainPc → Prop
  | .joinConsumer _ => True
  | .finished => True
  | _ => False

/-- The producer, the posting loop of `main` and the consumers have ended. -/
def State.ShutDown {N : Nat} (s : State N) : Prop :=
  s.producer = .finished ∧ s.main.HasPosted ∧ ∀ i, s.consumer i = .finished

/-- The producer, the consumers and `main` have ended. -/
def State.Finished {N : Nat} (s : State N) : Prop :=
  s.producer = .finished ∧ s.main = .finished ∧ ∀ i, s.consumer i = .finished

/-! ## What a step does -/

section Cases
variable {N B K : Nat} {s s' : State N}

/-- The steps of consumer `i`, by what it does. -/
inductive WorkerStep (B : Nat) (s : State N) (i : Fin N) : State N → Prop where
  | go (pc : s.consumer i = .loopTest) (running : s.done = false) : WorkerStep B s i (s.move i .semWait)
  | stop (pc : s.consumer i = .loopTest) (ended : s.done = true) : WorkerStep B s i (s.move i .finished)
  | wait (pc : s.consumer i = .semWait) (permit : 0 < s.fullSemaphore) :
      WorkerStep B s i { s.move i .doneTest with fullSemaphore := s.fullSemaphore - 1 }
  | enter (pc : s.consumer i = .doneTest) (running : s.done = false) :
      WorkerStep B s i (s.move i .critical)
  | leave (pc : s.consumer i = .doneTest) (ended : s.done = true) :
      WorkerStep B s i (s.move i .finished)
  | take (pc : s.consumer i = .critical) :
      WorkerStep B s i { s.move i (.consume (s.buffer s.back)) with
        buffer := Function.update s.buffer s.back none
        back := (s.back + 1) % B
        taken := s.taken ++ [s.buffer s.back] }
  | consume {thebuf : Option Nat} (pc : s.consumer i = .consume thebuf) :
      WorkerStep B s i { s.move i .semPost with consumed := s.consumed ++ [thebuf] }
  | post (pc : s.consumer i = .semPost) :
      WorkerStep B s i { s.move i .loopTest with emptySemaphore := s.emptySemaphore + 1 }

theorem workerStep_cases {i : Fin N} (h : workerStep B s i = some s') : WorkerStep B s i s' := by
  unfold workerStep at h
  cases hpc : s.consumer i with
  | notCreated => simp [hpc] at h
  | loopTest =>
    cases hdone : s.done <;> simp only [hpc, hdone, Option.some.injEq] at h <;> subst h
    · exact .go hpc hdone
    · exact .stop hpc hdone
  | semWait =>
    simp only [hpc] at h
    split_ifs at h with hfull
    cases h
    exact .wait hpc (Nat.pos_of_ne_zero hfull)
  | doneTest =>
    cases hdone : s.done <;> simp only [hpc, hdone, Option.some.injEq] at h <;> subst h
    · exact .enter hpc hdone
    · exact .leave hpc hdone
  | critical =>
    simp only [hpc, Option.some.injEq] at h
    exact h ▸ .take hpc
  | consume thebuf =>
    simp only [hpc, Option.some.injEq] at h
    exact h ▸ .consume hpc
  | semPost =>
    simp only [hpc, Option.some.injEq] at h
    exact h ▸ .post hpc
  | finished => simp [hpc] at h

/-- The steps of the producer, by what it does. -/
inductive ProducerStep (B K : Nat) (s : State N) : State N → Prop where
  | wait {i : Nat} (pc : s.producer = .semWait i) (room : 0 < s.emptySemaphore) :
      ProducerStep B K s { s with producer := .critical i, emptySemaphore := s.emptySemaphore - 1 }
  | put {i : Nat} (pc : s.producer = .critical i) :
      ProducerStep B K s { s with
        producer := .semPost i
        buffer := Function.update s.buffer s.front (some i)
        front := (s.front + 1) % B
        produced := s.produced + 1 }
  | post {i : Nat} (pc : s.producer = .semPost i) :
      ProducerStep B K s { s with
        producer := producerLoop K (i + 1)
        fullSemaphore := s.fullSemaphore + 1 }
  | setDone (pc : s.producer = .setDone) :
      ProducerStep B K s { s with producer := .finished, done := true }

theorem producerStep_cases (h : producerStep B K s = some s') : ProducerStep B K s s' := by
  unfold producerStep at h
  cases hpc : s.producer with
  | notCreated => simp [hpc] at h
  | semWait i =>
    simp only [hpc] at h
    split_ifs at h with hempty
    cases h
    exact .wait hpc (Nat.pos_of_ne_zero hempty)
  | critical i =>
    simp only [hpc, Option.some.injEq] at h
    exact h ▸ .put hpc
  | semPost i =>
    simp only [hpc, Option.some.injEq] at h
    exact h ▸ .post hpc
  | setDone =>
    simp only [hpc, Option.some.injEq] at h
    exact h ▸ .setDone hpc
  | finished => simp [hpc] at h

/-- The steps of `main`, by what it does. -/
inductive MainStep (K : Nat) (s : State N) : State N → Prop where
  | createConsumer {i : Nat} (pc : s.main = .createConsumer i) (h : i < N) :
      MainStep K s { s.move ⟨i, h⟩ .loopTest with main := createLoop N (i + 1) }
  | createProducer (pc : s.main = .createProducer) :
      MainStep K s { s with producer := producerLoop K 0, main := .joinProducer }
  | joinProducer (pc : s.main = .joinProducer) (ended : s.producer = .finished) :
      MainStep K s { s with main := postLoop N 0 }
  | post {i : Nat} (pc : s.main = .semPost i) :
      MainStep K s { s with fullSemaphore := s.fullSemaphore + 1, main := postLoop N (i + 1) }
  | joinConsumer {i : Nat} (pc : s.main = .joinConsumer i) (h : i < N)
      (ended : s.consumer ⟨i, h⟩ = .finished) : MainStep K s { s with main := joinLoop N (i + 1) }

theorem mainStep_cases (h : mainStep K s = some s') : MainStep K s s' := by
  unfold mainStep at h
  cases hpc : s.main with
  | createConsumer i =>
    simp only [hpc] at h
    split_ifs at h with hi
    cases h
    exact .createConsumer hpc hi
  | createProducer =>
    simp only [hpc, Option.some.injEq] at h
    exact h ▸ .createProducer hpc
  | joinProducer =>
    simp only [hpc] at h
    split_ifs at h with hended
    cases h
    exact .joinProducer hpc hended
  | semPost i =>
    simp only [hpc, Option.some.injEq] at h
    exact h ▸ .post hpc
  | joinConsumer i =>
    simp only [hpc] at h
    split_ifs at h with hi hended
    cases h
    exact .joinConsumer hpc hi hended
  | finished => simp [hpc] at h

end Cases

end BoundedBuffer
end SystemsCourse
