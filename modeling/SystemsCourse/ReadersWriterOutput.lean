import SystemsCourse.ReadersWriter
import SystemsCourse.Transcript

/-!
# The output of readers and a writer is serial

The lock keeps the writer and the readers apart (`LockInvariant`), so between the two
lines of the writer nothing else is printed, and what a reader prints is the number of
times that the writer is done (`output_serial`).
-/
namespace SystemsCourse
namespace ReadersWriter
variable {R : Nat} {first : Preference} {s s' : State R} {i : Fin R}

/-! ## The lock -/

/-- The reader is inside the lock. -/
def ReaderPc.Inside : ReaderPc → Prop
  | .readCounter => True
  | .print _ => True
  | .unlock => True
  | _ => False

instance : DecidablePred ReaderPc.Inside := fun pc => by
  cases pc <;> unfold ReaderPc.Inside <;> infer_instance

/-- The writer is inside the lock. -/
def WriterPc.Inside : WriterPc → Prop
  | .notStarted => False
  | .sleep => False
  | .wrlock => False
  | .blocked => False
  | _ => True

/-- How many readers `main` has created. -/
def MainPc.created (R : Nat) : MainPc → Nat
  | .createReader i => i
  | _ => R

/-- **The lock keeps the writer and the readers apart.** -/
structure LockInvariant (s : State R) : Prop where
  created : ∀ i, s.reader i = .notStarted ↔ s.main.created R ≤ i
  writerCreated : s.writer = .notStarted ↔ s.main ≠ .join
  writer : s.lock.writer = true ↔ s.writer.Inside
  readers : s.lock.readers = tally ReaderPc.Inside s.reader
  apart : s.lock.writer = true → s.lock.readers = 0

theorem unlock_of_writer {l : RwLock} (h : l.writer = true) : l.unlock = { l with writer := false } :=
  if_pos h

theorem unlock_of_reader {l : RwLock} (h : ¬ l.writer = true) :
    l.unlock = { l with readers := l.readers - 1 } :=
  if_neg h

/-- While a reader is inside, the writer is not. -/
theorem LockInvariant.not_writer (h : LockInvariant s) (hin : (s.reader i).Inside) :
    ¬ s.lock.writer = true := by
  intro hwriter
  have hzero := h.apart hwriter
  rw [h.readers, tally_eq_zero_iff] at hzero
  exact hzero i hin

/-- A reader moves, and the lock counts it. -/
theorem LockInvariant.reader_moves (h : LockInvariant s) {pc : ReaderPc} {l : RwLock}
    {o : List (Line R)} (hstarted : s.reader i ≠ .notStarted) (hpc : pc ≠ .notStarted)
    (hwriter : l.writer = s.lock.writer)
    (hreaders : l.readers + weight ReaderPc.Inside (s.reader i) =
      s.lock.readers + weight ReaderPc.Inside pc)
    (hapart : l.writer = true → l.readers = 0) :
    LockInvariant { s.moveReader i pc with lock := l, output := o } where
  created j := by
    show Function.update s.reader i pc j = .notStarted ↔ s.main.created R ≤ j
    rw [← h.created j]
    by_cases hj : j = i
    · rw [hj, Function.update_self]
      exact iff_of_false hpc hstarted
    · rw [Function.update_of_ne hj]
  writerCreated := h.writerCreated
  writer := by
    show l.writer = true ↔ s.writer.Inside
    rw [hwriter]
    exact h.writer
  readers := by
    have hupdate := tally_update (p := ReaderPc.Inside) s.reader i pc
    have hcount := h.readers
    show l.readers = tally ReaderPc.Inside (Function.update s.reader i pc)
    omega
  apart := hapart

theorem LockInvariant.readerStep (h : LockInvariant s) (hstep : ReaderStep first s i s') :
    LockInvariant s' := by
  cases hstep with
  | rdlock pc admits =>
    refine h.reader_moves (by rw [pc]; nofun) nofun rfl (by rw [pc]; rfl) fun hwriter => ?_
    exact absurd (admits.1.symm.trans hwriter) Bool.false_ne_true
  | readCounter pc =>
    exact h.reader_moves (l := s.lock) (o := s.output) (by rw [pc]; nofun) nofun rfl
      (by rw [pc]; rfl) h.apart
  | print pc => exact h.reader_moves (by rw [pc]; nofun) nofun rfl (by rw [pc]; rfl) h.apart
  | unlock pc =>
    have hin : (s.reader i).Inside := by
      rw [pc]
      trivial
    have hpos : 0 < s.lock.readers := by
      rw [h.readers, tally_pos_iff]
      exact ⟨i, hin⟩
    rw [unlock_of_reader (h.not_writer hin)]
    refine h.reader_moves (by rw [pc]; nofun) nofun rfl ?_ fun hwriter => ?_
    · rw [weight_pos hin, weight_neg (show ¬ ReaderPc.Inside .sleep from id)]
      show s.lock.readers - 1 + 1 = s.lock.readers + 0
      omega
    · exact absurd hwriter (h.not_writer hin)
  | sleep pc =>
    exact h.reader_moves (l := s.lock) (o := s.output) (by rw [pc]; nofun) nofun rfl
      (by rw [pc]; rfl) h.apart

/-- The writer moves, and the lock knows of it. -/
theorem LockInvariant.writer_moves (h : LockInvariant s) {pc : WriterPc} {b : Bool} {counter : UInt64}
    {output : List (Line R)} (hstarted : s.writer ≠ .notStarted) (hpc : pc ≠ .notStarted)
    (hwriter : b = true ↔ pc.Inside) (hapart : b = true → s.lock.readers = 0) :
    LockInvariant { s with writer := pc, lock := { s.lock with writer := b }, counter, output } where
  created := h.created
  writerCreated := iff_of_false hpc fun hmain => hstarted (h.writerCreated.mpr hmain)
  writer := hwriter
  readers := h.readers
  apart := hapart

theorem LockInvariant.writerStep (h : LockInvariant s) (hstep : WriterStep s s') :
    LockInvariant s' := by
  -- the lock stays as it is while the writer stays inside or outside
  have stays {pc : WriterPc} {counter : UInt64} {output : List (Line R)}
      (hstarted : s.writer ≠ .notStarted) (hpc : pc ≠ .notStarted)
      (hin : pc.Inside ↔ s.writer.Inside) :
      LockInvariant { s with writer := pc, counter, output } :=
    h.writer_moves (b := s.lock.writer) hstarted hpc (h.writer.trans hin.symm) h.apart
  cases hstep with
  | sleep pc | block pc | printWriting pc | sleepInside pc | readCounter pc | writeCounter pc
  | printDone pc => exact stays (by rw [pc]; nofun) nofun (by rw [pc]; rfl)
  | enter pc admits =>
    refine h.writer_moves ?_ nofun (iff_of_true rfl trivial) fun _ => admits.2
    rcases pc with pc | pc
    · rw [pc]
      nofun
    · rw [pc]
      nofun
  | unlock pc =>
    have hin : s.lock.writer = true := h.writer.mpr (by rw [pc]; trivial)
    rw [unlock_of_writer hin]
    exact h.writer_moves (by rw [pc]; nofun) nofun (iff_of_false nofun id) nofun

theorem created_createLoop (R i : Nat) (j : Fin R) : (createLoop R i).created R ≤ j ↔ i ≤ j := by
  have := j.isLt
  unfold createLoop
  split_ifs
  · exact Iff.rfl
  · simp only [MainPc.created]
    omega

theorem createLoop_ne_join (R i : Nat) : createLoop R i ≠ .join := by
  unfold createLoop
  split_ifs
  · nofun
  · nofun

theorem LockInvariant.mainStep (h : LockInvariant s) (hstep : MainStep s s') : LockInvariant s' := by
  cases hstep with
  | @createReader k pc hk =>
    have hnew : s.reader ⟨k, hk⟩ = .notStarted := by
      rw [h.created, pc]
      exact Nat.le_refl _
    refine ⟨fun j => ?_, ?_, h.writer, ?_, h.apart⟩
    · show Function.update s.reader ⟨k, hk⟩ .rdlock j = .notStarted ↔ (createLoop R (k + 1)).created R ≤ j
      have hold := h.created j
      rw [pc] at hold
      rw [created_createLoop]
      by_cases hj : j = ⟨k, hk⟩
      · rw [hj, Function.update_self]
        exact iff_of_false nofun (Nat.not_succ_le_self k)
      · have hne : j.val ≠ k := fun hv => hj (Fin.ext hv)
        rw [Function.update_of_ne hj, hold]
        simp only [MainPc.created]
        omega
    · have hwriter : s.writer = .notStarted := h.writerCreated.mpr (by rw [pc]; nofun)
      exact iff_of_true hwriter (createLoop_ne_join R _)
    · have hupdate := tally_update (p := ReaderPc.Inside) s.reader ⟨k, hk⟩ .rdlock
      rw [hnew, weight_neg (show ¬ ReaderPc.Inside .notStarted from id),
        weight_neg (show ¬ ReaderPc.Inside .rdlock from id)] at hupdate
      have hcount := h.readers
      show s.lock.readers = tally ReaderPc.Inside (Function.update s.reader ⟨k, hk⟩ .rdlock)
      omega
  | createWriter pc =>
    have hwriter : s.writer = .notStarted := h.writerCreated.mpr (by rw [pc]; nofun)
    refine ⟨fun j => ?_, iff_of_false nofun fun hne => hne rfl, ?_, h.readers, h.apart⟩
    · have hold := h.created j
      rw [pc] at hold
      exact hold
    · have hold := h.writer
      rw [hwriter] at hold
      exact hold

theorem lockInvariant_initial : LockInvariant (initial R) where
  created i := iff_of_true rfl ((created_createLoop R 0 i).mpr (Nat.zero_le _))
  writerCreated := iff_of_true rfl (createLoop_ne_join R 0)
  writer := iff_of_false nofun id
  readers := (tally_eq_zero_iff.mpr fun _ => id).symm
  apart := nofun

theorem LockInvariant.step (h : LockInvariant s) {t : Thread R} (hstep : step first s t = some s') :
    LockInvariant s' := by
  cases t with
  | reader i => exact h.readerStep (readerStep_cases hstep)
  | writer => exact h.writerStep (writerStep_cases hstep)
  | main => exact h.mainStep (mainStep_cases hstep)

/-! ## The output -/

/-- How many times the writer has begun, as the output tells. -/
def begun (output : List (Line R)) : Nat := output.count .writing

/-- How many times the writer is done, as the output tells. -/
def written (output : List (Line R)) : Nat := output.count .writingDone

section Counts
variable (output : List (Line R)) (value : UInt64)

@[simp] theorem begun_writing : begun (output ++ [.writing]) = begun output + 1 := by simp [begun]

@[simp] theorem begun_writingDone : begun (output ++ [.writingDone]) = begun output := by
  simp [begun]

@[simp] theorem begun_read : begun (output ++ [.read i value]) = begun output := by simp [begun]

@[simp] theorem written_writing : written (output ++ [.writing]) = written output := by
  simp [written]

@[simp] theorem written_writingDone : written (output ++ [.writingDone]) = written output + 1 := by
  simp [written]

@[simp] theorem written_read : written (output ++ [.read i value]) = written output := by
  simp [written]

end Counts

/-- The line is one that a program which does one thing at a time prints after `before`. -/
def Fits (before : List (Line R)) : Line R → Prop
  | .writing => begun before = written before
  | .writingDone => begun before = written before + 1
  | .read _ value => begun before = written before ∧ value = UInt64.ofNat (written before)

/-- **The output is serial.** -/
def Serial (output : List (Line R)) : Prop := EachFits Fits output

/-- The writer has printed the first of its two lines. -/
def WriterPc.opened : WriterPc → Nat
  | .sleepInside => 1
  | .readCounter => 1
  | .writeCounter _ => 1
  | .printDone => 1
  | _ => 0

/-- The writer has increased `counter` and not yet said so. -/
def WriterPc.ahead : WriterPc → Nat
  | .printDone => 1
  | _ => 0

theorem WriterPc.outside {pc : WriterPc} (h : ¬ pc.Inside) : pc.opened = 0 ∧ pc.ahead = 0 := by
  cases pc with
  | notStarted | sleep | wrlock | blocked => exact ⟨rfl, rfl⟩
  | _ => exact absurd trivial h

/-- **`counter` is the number of the lines `Writing done!`**, and what has been read
of it is still true. -/
structure OutputInvariant (s : State R) : Prop where
  reads : ∀ i read, s.reader i = .print read → read = s.counter
  writes : ∀ read, s.writer = .writeCounter read → read = s.counter
  counter : s.counter = UInt64.ofNat (written s.output + s.writer.ahead)
  opened : begun s.output = written s.output + s.writer.opened
  serial : Serial s.output

theorem ofNat_succ (n : Nat) : UInt64.ofNat (n + 1) = UInt64.ofNat n + 1 := UInt64.ofNat_add n 1

theorem OutputInvariant.readerStep (h : OutputInvariant s) (hlock : LockInvariant s)
    (hstep : ReaderStep first s i s') : OutputInvariant s' := by
  -- a reader that does not read leaves everything as it is
  have stays {pc : ReaderPc} {l : RwLock} (hpc : ∀ read, pc = .print read → read = s.counter) :
      OutputInvariant { s.moveReader i pc with lock := l } := by
    refine ⟨fun j read hj => ?_, h.writes, h.counter, h.opened, h.serial⟩
    change Function.update s.reader i pc j = .print read at hj
    by_cases hji : j = i
    · rw [hji, Function.update_self] at hj
      exact hpc read hj
    · rw [Function.update_of_ne hji] at hj
      exact h.reads j read hj
  cases hstep with
  | rdlock pc _ | unlock pc => exact stays nofun
  | sleep pc => exact stays (l := s.lock) nofun
  | readCounter pc =>
    refine stays (l := s.lock) fun read hread => ?_
    cases hread
    rfl
  | @print read pc =>
    have hout : ¬ s.writer.Inside := by
      rw [← hlock.writer]
      exact hlock.not_writer (by rw [pc]; trivial)
    obtain ⟨hopened, hahead⟩ := WriterPc.outside hout
    have hline : Fits s.output (.read i read) := by
      refine ⟨?_, ?_⟩
      · rw [h.opened, hopened]
        rfl
      · rw [h.reads i read pc, h.counter, hahead]
        rfl
    have hstays : OutputInvariant (s.moveReader i .unlock) := stays (l := s.lock) nofun
    refine ⟨hstays.reads, hstays.writes, ?_, ?_, h.serial.append hline⟩
    · show s.counter = UInt64.ofNat (written (s.output ++ [.read i read]) + s.writer.ahead)
      rw [written_read]
      exact h.counter
    · show begun (s.output ++ [.read i read]) = written (s.output ++ [.read i read]) + s.writer.opened
      rw [begun_read, written_read]
      exact h.opened

theorem OutputInvariant.writerStep (h : OutputInvariant s) (hlock : LockInvariant s)
    (hstep : WriterStep s s') : OutputInvariant s' := by
  have hcounter := h.counter
  have hopened := h.opened
  -- a step outside the two lines
  have stays {pc : WriterPc} {l : RwLock} (hpc : ∀ read, pc = .writeCounter read → read = s.counter)
      (hahead : pc.ahead = s.writer.ahead) (hopen : pc.opened = s.writer.opened) :
      OutputInvariant { s with writer := pc, lock := l } := by
    refine ⟨h.reads, hpc, ?_, ?_, h.serial⟩
    · rw [← hahead] at hcounter
      exact hcounter
    · rw [← hopen] at hopened
      exact hopened
  cases hstep with
  | sleep pc | block pc | sleepInside pc =>
    exact stays (l := s.lock) nofun (by rw [pc]; rfl) (by rw [pc]; rfl)
  | readCounter pc =>
    refine stays (l := s.lock) (fun read hread => ?_) (by rw [pc]; rfl) (by rw [pc]; rfl)
    cases hread
    rfl
  | unlock pc => exact stays nofun (by rw [pc]; rfl) (by rw [pc]; rfl)
  | enter pc _ =>
    rcases pc with pc | pc
    · exact stays nofun (by rw [pc]; rfl) (by rw [pc]; rfl)
    · exact stays nofun (by rw [pc]; rfl) (by rw [pc]; rfl)
  | printWriting pc =>
    rw [pc] at hcounter hopened
    refine ⟨h.reads, nofun, ?_, ?_, h.serial.append hopened⟩
    · show s.counter = UInt64.ofNat (written (s.output ++ [.writing]) + 0)
      rw [written_writing]
      exact hcounter
    · show begun (s.output ++ [.writing]) = written (s.output ++ [.writing]) + 1
      rw [begun_writing, written_writing, hopened]
      rfl
  | @writeCounter read pc =>
    obtain rfl : read = s.counter := h.writes read pc
    rw [pc] at hcounter hopened
    refine ⟨fun i read hi => ?_, nofun, ?_, hopened, h.serial⟩
    · -- no reader is inside
      have hin : s.lock.writer = true := hlock.writer.mpr (by rw [pc]; trivial)
      have hi : s.reader i = .print read := hi
      exact absurd hin (hlock.not_writer (i := i) (by rw [hi]; trivial))
    · show s.counter + 1 = UInt64.ofNat (written s.output + 1)
      rw [ofNat_succ, hcounter]
      rfl
  | printDone pc =>
    rw [pc] at hcounter hopened
    refine ⟨h.reads, nofun, ?_, ?_, h.serial.append hopened⟩
    · show s.counter = UInt64.ofNat (written (s.output ++ [.writingDone]) + 0)
      rw [written_writingDone]
      exact hcounter
    · show begun (s.output ++ [.writingDone]) = written (s.output ++ [.writingDone]) + 0
      rw [begun_writingDone, written_writingDone, hopened]
      rfl

theorem OutputInvariant.mainStep (h : OutputInvariant s) (hlock : LockInvariant s)
    (hstep : MainStep s s') : OutputInvariant s' := by
  cases hstep with
  | @createReader k pc hk =>
    refine ⟨fun j read hj => ?_, h.writes, h.counter, h.opened, h.serial⟩
    change Function.update s.reader ⟨k, hk⟩ .rdlock j = .print read at hj
    by_cases hjk : j = ⟨k, hk⟩
    · rw [hjk, Function.update_self] at hj
      cases hj
    · rw [Function.update_of_ne hjk] at hj
      exact h.reads j read hj
  | createWriter pc =>
    have hwriter : s.writer = .notStarted := hlock.writerCreated.mpr (by rw [pc]; nofun)
    have hcounter := h.counter
    have hopened := h.opened
    rw [hwriter] at hcounter hopened
    exact ⟨h.reads, nofun, hcounter, hopened, h.serial⟩

theorem outputInvariant_initial : OutputInvariant (initial R) where
  reads _ _ := nofun
  writes _ := nofun
  counter := rfl
  opened := rfl
  serial := eachFits_nil

theorem OutputInvariant.step (h : OutputInvariant s) (hlock : LockInvariant s) {t : Thread R}
    (hstep : step first s t = some s') : OutputInvariant s' := by
  cases t with
  | reader i => exact h.readerStep hlock (readerStep_cases hstep)
  | writer => exact h.writerStep hlock (writerStep_cases hstep)
  | main => exact h.mainStep hlock (mainStep_cases hstep)

/-- What holds of every reachable state. -/
structure Invariant (s : State R) : Prop where
  lock : LockInvariant s
  output : OutputInvariant s

theorem Invariant.of_reachable (h : (program R first).Reachable s) : Invariant s := by
  have hinit : Invariant (program R first).init := ⟨lockInvariant_initial, outputInvariant_initial⟩
  exact h.invariant hinit fun _ _ _ hs hstep => ⟨hs.lock.step hstep, hs.output.step hs.lock hstep⟩

/-- **The output is that of a program which does one thing at a time.**  Whatever the
schedule and whomever the lock prefers, the lines `Writing!` and `Writing done!` take
turns, nothing is printed between the one and the other, every reading is the number
of times the writer was done before, modulo 2^64, and so is `counter` whenever the
writer is not inside. -/
theorem output_serial (h : (program R first).Reachable s) :
    Serial s.output ∧ (s.lock.writer = false → s.counter = UInt64.ofNat (written s.output)) := by
  have hinv := Invariant.of_reachable h
  refine ⟨hinv.output.serial, fun hfree => ?_⟩
  have hout : ¬ s.writer.Inside := by
    rw [← hinv.lock.writer, hfree]
    nofun
  rw [hinv.output.counter, (WriterPc.outside hout).2]
  rfl

/-- A reader reads, the writer writes, and the reader reads again. -/
theorem output_serial_two : ∃ s, (program 1 .readers).Reachable s ∧
    s.output = [.read 0 0, .writing, .writingDone, .read 0 1] ∧ Serial s.output := by
  have hrun : ((program 1 .readers).run (initial 1) ([.main, .main] ++ List.replicate 5 (.reader 0) ++
      List.replicate 8 .writer ++ List.replicate 3 (.reader 0))).isSome := rfl
  obtain ⟨s, hs⟩ := Option.isSome_iff_exists.mp hrun
  have houtput : s.output = [.read 0 0, .writing, .writingDone, .read 0 1] := by
    cases hs
    rfl
  exact ⟨s, ⟨_, hs⟩, houtput, (output_serial ⟨_, hs⟩).1⟩

end ReadersWriter
end SystemsCourse
