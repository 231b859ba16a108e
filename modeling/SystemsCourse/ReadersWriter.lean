import Mathlib.Data.List.Count
import SystemsCourse.StepSystem
import SystemsCourse.ThreadTally

/-!
# `readwritelockex.c`: readers and a writer

`main` creates `R` (`NUM_THREADS`) readers and one writer, and waits for the writer
for ever.  The lock is the reader-writer lock of the thread library: a reader comes in
while no writer is inside, the writer comes in while nobody is.  Whether a reader also
waits for a writer that is blocked is left open by the library for a lock with default
attributes; `Preference` is which of the two the lock does.

Each call of the library, each `printf` and each `sleep` is one step, and `counter++`
is a read and a write.  The output is the list of the lines that have been printed.

The invariant: what a reader has read is still the value of `counter` when it prints
it, for the writer is not inside meanwhile, and `counter` is the number of the lines
`Writing done!`.  So the output is that of a program that does one thing at a time
(`Serial`).
-/
namespace SystemsCourse
namespace ReadersWriter

/-- Whom the lock lets in first when a writer is blocked. -/
inductive Preference where
  | readers
  | writers
deriving DecidableEq

/-- `pthread_rwlock_t`: how many readers are inside, and whether the writer is. -/
structure RwLock where
  readers : Nat
  writer : Bool

/-- `pthread_rwlock_unlock`. -/
def RwLock.unlock (l : RwLock) : RwLock :=
  if l.writer then { l with writer := false } else { l with readers := l.readers - 1 }

/-- Where the thread in `writer_thread_func` is; in `blocked` it is in
`pthread_rwlock_wrlock` and has found the lock taken. -/
inductive WriterPc where
  | notStarted
  | sleep
  | wrlock
  | blocked
  | printWriting
  | sleepInside
  | readCounter
  | writeCounter (read : UInt64)
  | printDone
  | unlock
deriving DecidableEq

/-- Where a thread in `reader_thread_func` is. -/
inductive ReaderPc where
  | notStarted
  | rdlock
  | readCounter
  | print (read : UInt64)
  | unlock
  | sleep
deriving DecidableEq

/-- Where `main` is. -/
inductive MainPc where
  | createReader (i : Nat)
  | createWriter
  | join
deriving DecidableEq

/-- A line of the output: `Writing!`, `Writing done!`, or `thread #num: read value`. -/
inductive Line (R : Nat) where
  | writing
  | writingDone
  | read (num : Fin R) (value : UInt64)
deriving DecidableEq

/-- The state of the process. -/
structure State (R : Nat) where
  counter : UInt64
  lock : RwLock
  writer : WriterPc
  reader : Fin R → ReaderPc
  main : MainPc
  output : List (Line R)

/-- Who takes a step. -/
inductive Thread (R : Nat) where
  | reader (i : Fin R)
  | writer
  | main

/-- `i < NUM_THREADS`, in the loop that creates the readers. -/
def createLoop (R i : Nat) : MainPc := if i < R then .createReader i else .createWriter

section Steps
variable {R : Nat} (first : Preference) (s : State R)

/-- `pthread_rwlock_rdlock` does not block. -/
def State.AdmitsReader : Prop :=
  s.lock.writer = false ∧ (first = .writers → s.writer ≠ .blocked)

instance : Decidable (s.AdmitsReader first) := inferInstanceAs (Decidable (_ ∧ (_ → _)))

/-- `pthread_rwlock_wrlock` does not block. -/
def State.AdmitsWriter : Prop := s.lock.writer = false ∧ s.lock.readers = 0

instance : Decidable s.AdmitsWriter := inferInstanceAs (Decidable (_ ∧ _))

/-- Reader `i` is at `pc` now. -/
def State.moveReader (i : Fin R) (pc : ReaderPc) : State R :=
  { s with reader := Function.update s.reader i pc }

/-- A step of `reader_thread_func` in thread `i`. -/
def readerStep (i : Fin R) : Option (State R) :=
  match s.reader i with
  | .notStarted => none
  | .rdlock =>
      if s.AdmitsReader first then
        some { s.moveReader i .readCounter with lock := { s.lock with readers := s.lock.readers + 1 } }
      else none
  | .readCounter => some (s.moveReader i (.print s.counter))
  | .print read => some { s.moveReader i .unlock with output := s.output ++ [.read i read] }
  | .unlock => some { s.moveReader i .sleep with lock := s.lock.unlock }
  | .sleep => some (s.moveReader i .rdlock)

/-- A step of `writer_thread_func`. -/
def writerStep : Option (State R) :=
  match s.writer with
  | .notStarted => none
  | .sleep => some { s with writer := .wrlock }
  | .wrlock =>
      if s.AdmitsWriter then
        some { s with writer := .printWriting, lock := { s.lock with writer := true } }
      else some { s with writer := .blocked }
  | .blocked =>
      if s.AdmitsWriter then
        some { s with writer := .printWriting, lock := { s.lock with writer := true } }
      else none
  | .printWriting => some { s with writer := .sleepInside, output := s.output ++ [.writing] }
  | .sleepInside => some { s with writer := .readCounter }
  | .readCounter => some { s with writer := .writeCounter s.counter }
  | .writeCounter read => some { s with writer := .printDone, counter := read + 1 }
  | .printDone => some { s with writer := .unlock, output := s.output ++ [.writingDone] }
  | .unlock => some { s with writer := .sleep, lock := s.lock.unlock }

/-- A step of `main`, which creates the threads and then waits for the writer. -/
def mainStep : Option (State R) :=
  match s.main with
  | .createReader i =>
      if h : i < R then some { s.moveReader ⟨i, h⟩ .rdlock with main := createLoop R (i + 1) } else none
  | .createWriter => some { s with writer := .sleep, main := .join }
  | .join => none

/-- A step of the process. -/
def step : Thread R → Option (State R)
  | .reader i => readerStep first s i
  | .writer => writerStep s
  | .main => mainStep s

end Steps

/-- `counter` is 0 and the lock is free. -/
def initial (R : Nat) : State R :=
  ⟨0, ⟨0, false⟩, .notStarted, fun _ => .notStarted, createLoop R 0, []⟩

/-- **The program.** -/
def program (R : Nat) (first : Preference) : StepSystem (State R) (Thread R) :=
  ⟨initial R, step first⟩

/-! ## What a step does -/

section Cases
variable {R : Nat} {first : Preference} {s s' : State R}

/-- The steps of reader `i`, by what it does. -/
inductive ReaderStep (first : Preference) (s : State R) (i : Fin R) : State R → Prop where
  | rdlock (pc : s.reader i = .rdlock) (admits : s.AdmitsReader first) : ReaderStep first s i
      { s.moveReader i .readCounter with lock := { s.lock with readers := s.lock.readers + 1 } }
  | readCounter (pc : s.reader i = .readCounter) :
      ReaderStep first s i (s.moveReader i (.print s.counter))
  | print {read : UInt64} (pc : s.reader i = .print read) : ReaderStep first s i
      { s.moveReader i .unlock with output := s.output ++ [.read i read] }
  | unlock (pc : s.reader i = .unlock) : ReaderStep first s i
      { s.moveReader i .sleep with lock := s.lock.unlock }
  | sleep (pc : s.reader i = .sleep) : ReaderStep first s i (s.moveReader i .rdlock)

theorem readerStep_cases {i : Fin R} (h : readerStep first s i = some s') :
    ReaderStep first s i s' := by
  unfold readerStep at h
  cases hpc : s.reader i with
  | notStarted => simp [hpc] at h
  | rdlock =>
    simp only [hpc] at h
    split_ifs at h with hadmits
    cases h
    exact .rdlock hpc hadmits
  | readCounter =>
    simp only [hpc] at h
    cases h
    exact .readCounter hpc
  | print read =>
    simp only [hpc] at h
    cases h
    exact .print hpc
  | unlock =>
    simp only [hpc] at h
    cases h
    exact .unlock hpc
  | sleep =>
    simp only [hpc] at h
    cases h
    exact .sleep hpc

/-- The steps of the writer, by what it does. -/
inductive WriterStep (s : State R) : State R → Prop where
  | sleep (pc : s.writer = .sleep) : WriterStep s { s with writer := .wrlock }
  | enter (pc : s.writer = .wrlock ∨ s.writer = .blocked) (admits : s.AdmitsWriter) : WriterStep s
      { s with writer := .printWriting, lock := { s.lock with writer := true } }
  | block (pc : s.writer = .wrlock) : WriterStep s { s with writer := .blocked }
  | printWriting (pc : s.writer = .printWriting) : WriterStep s
      { s with writer := .sleepInside, output := s.output ++ [.writing] }
  | sleepInside (pc : s.writer = .sleepInside) : WriterStep s { s with writer := .readCounter }
  | readCounter (pc : s.writer = .readCounter) : WriterStep s
      { s with writer := .writeCounter s.counter }
  | writeCounter {read : UInt64} (pc : s.writer = .writeCounter read) : WriterStep s
      { s with writer := .printDone, counter := read + 1 }
  | printDone (pc : s.writer = .printDone) : WriterStep s
      { s with writer := .unlock, output := s.output ++ [.writingDone] }
  | unlock (pc : s.writer = .unlock) : WriterStep s
      { s with writer := .sleep, lock := s.lock.unlock }

theorem writerStep_cases (h : writerStep s = some s') : WriterStep s s' := by
  unfold writerStep at h
  cases hpc : s.writer with
  | notStarted => simp [hpc] at h
  | sleep =>
    simp only [hpc] at h
    cases h
    exact .sleep hpc
  | wrlock =>
    simp only [hpc] at h
    split_ifs at h with hadmits <;> cases h
    · exact .enter (.inl hpc) hadmits
    · exact .block hpc
  | blocked =>
    simp only [hpc] at h
    split_ifs at h with hadmits
    cases h
    exact .enter (.inr hpc) hadmits
  | printWriting =>
    simp only [hpc] at h
    cases h
    exact .printWriting hpc
  | sleepInside =>
    simp only [hpc] at h
    cases h
    exact .sleepInside hpc
  | readCounter =>
    simp only [hpc] at h
    cases h
    exact .readCounter hpc
  | writeCounter read =>
    simp only [hpc] at h
    cases h
    exact .writeCounter hpc
  | printDone =>
    simp only [hpc] at h
    cases h
    exact .printDone hpc
  | unlock =>
    simp only [hpc] at h
    cases h
    exact .unlock hpc

/-- The steps of `main`, by what it does. -/
inductive MainStep (s : State R) : State R → Prop where
  | createReader {i : Nat} (pc : s.main = .createReader i) (h : i < R) : MainStep s
      { s.moveReader ⟨i, h⟩ .rdlock with main := createLoop R (i + 1) }
  | createWriter (pc : s.main = .createWriter) : MainStep s
      { s with writer := .sleep, main := .join }

theorem mainStep_cases (h : mainStep s = some s') : MainStep s s' := by
  unfold mainStep at h
  cases hpc : s.main with
  | createReader i =>
    simp only [hpc] at h
    split_ifs at h with hi
    cases h
    exact .createReader hpc hi
  | createWriter =>
    simp only [hpc] at h
    cases h
    exact .createWriter hpc
  | join => simp [hpc] at h

end Cases
end ReadersWriter
end SystemsCourse
