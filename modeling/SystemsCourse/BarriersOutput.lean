import Mathlib.Data.List.Count
import SystemsCourse.BarriersLockstep
import SystemsCourse.Transcript

/-!
# What `barriers.c` prints

The lines that a thread has printed tell where it is (`Printed`); so the barrier, which
keeps the threads in one round, also keeps their lines in order (`lines_in_lockstep`).
-/
namespace SystemsCourse
namespace Barriers
variable {N M : Nat} {s s' : State N} {i j : Fin N} {output : List (Line N)}

/-- How many lines `WAIT!` worker `i` has printed. -/
def waits (i : Fin N) (output : List (Line N)) : Nat := output.count (.wait i)

/-- The line is a `GO` of worker `i`. -/
def Line.goBy (i : Fin N) : Line N → Bool
  | .go j _ => j = i
  | _ => false

/-- How many lines `GO` worker `i` has printed. -/
def gos (i : Fin N) (output : List (Line N)) : Nat := output.countP (Line.goBy i)

/-- How many lines `ready` `main` has printed. -/
def readies (output : List (Line N)) : Nat := output.count .ready

/-- The line is a `go` of `main`. -/
def Line.goByMain : Line N → Bool
  | .mainGo _ => true
  | _ => false

/-- How many lines `go` `main` has printed. -/
def mainGos (output : List (Line N)) : Nat := output.countP Line.goByMain

section Counts
variable (line : Line N)

@[simp] theorem waits_append : waits i (output ++ [line]) =
    waits i output + (if line = .wait i then 1 else 0) := by
  simp [waits, List.count_singleton]

@[simp] theorem gos_append : gos i (output ++ [line]) =
    gos i output + (if line.goBy i then 1 else 0) := by
  simp [gos, List.countP_singleton]

@[simp] theorem readies_append : readies (output ++ [line]) =
    readies output + (if line = .ready then 1 else 0) := by
  simp [readies, List.count_singleton]

@[simp] theorem mainGos_append : mainGos (output ++ [line]) =
    mainGos output + (if line.goByMain then 1 else 0) := by
  simp [mainGos, List.countP_singleton]

end Counts

/-- Everybody is about as far as the end of round `m`: has printed `m` lines of the first
kind or one more, and `m` lines of the second kind or one fewer. -/
structure InStep (m : Nat) (before : List (Line N)) : Prop where
  waits : ∀ j, m ≤ waits j before ∧ waits j before ≤ m + 1
  gos : ∀ j, gos j before ≤ m ∧ m ≤ gos j before + 1
  readies : m ≤ readies before ∧ readies before ≤ m + 1
  mainGos : mainGos before ≤ m ∧ m ≤ mainGos before + 1

/-- The line is one that threads which keep in step print after `before`: a thread's own
lines take turns, and it prints the second line of a round when all have printed its
first line and nobody has gone beyond the first line of the next one, and the first line
of a round when all have at least come to the second line of the round before and nobody
has gone beyond this one. -/
def Fits (before : List (Line N)) : Line N → Prop
  | .wait i => waits i before = gos i before ∧ InStep (waits i before) before
  | .ready => readies before = mainGos before ∧ InStep (readies before) before
  | .go i k => k = gos i before ∧ waits i before = k + 1 ∧ InStep (k + 1) before
  | .mainGo k => k = mainGos before ∧ readies before = k + 1 ∧ InStep (k + 1) before

/-- **The threads keep in step.** -/
def Lockstep (output : List (Line N)) : Prop := EachFits Fits output

/-- How many lines `WAIT!` the worker has printed. -/
def Worker.waits (w : Worker) : Nat :=
  match w.pc with
  | .barrierWait => w.counter + 1
  | .blocked _ => w.counter + 1
  | .printGo => w.counter + 1
  | _ => w.counter

/-- How many lines `ready` `main` has printed. -/
def MainPc.readies (M : Nat) : MainPc → Nat
  | .create _ => 0
  | .printReady i => i
  | .exited => M
  | .barrierWait i => i + 1
  | .blocked i _ => i + 1
  | .printGo i => i + 1
  | .sleep i => i + 1

/-- How many lines `go` `main` has printed. -/
def MainPc.gos (M : Nat) : MainPc → Nat
  | .create _ => 0
  | .sleep i => i + 1
  | .exited => M
  | .printReady i => i
  | .barrierWait i => i
  | .blocked i _ => i
  | .printGo i => i

/-- **The output tells where the threads are.** -/
structure Printed (M : Nat) (s : State N) : Prop where
  waits : ∀ i, waits i s.output = (s.worker i).waits
  gos : ∀ i, gos i s.output = (s.worker i).counter
  readies : readies s.output = s.main.readies M
  mainGos : mainGos s.output = s.main.gos M
  lockstep : Lockstep s.output

/-! ## The lines of a round -/

theorem Worker.InRound.waits_bounds {w : Worker} {G : Nat} (h : w.InRound G) :
    G ≤ w.waits ∧ w.waits ≤ G + 1 := by
  unfold InRound at h
  unfold Worker.waits
  cases hpc : w.pc <;> simp only [hpc] at h ⊢ <;> omega

theorem Worker.InRound.counter_bounds {w : Worker} {G : Nat} (h : w.InRound G) :
    w.counter ≤ G ∧ G ≤ w.counter + 1 := by
  unfold InRound at h
  cases hpc : w.pc <;> simp only [hpc] at h <;> omega

theorem MainPc.InRound.readies_bounds {m : MainPc} {G : Nat} (h : m.InRound M G) :
    G ≤ m.readies M ∧ m.readies M ≤ G + 1 := by
  cases m <;> simp only [InRound] at h <;> simp only [MainPc.readies] <;> omega

theorem MainPc.InRound.gos_bounds {m : MainPc} {G : Nat} (h : m.InRound M G) :
    m.gos M ≤ G ∧ G ≤ m.gos M + 1 := by
  cases m <;> simp only [InRound] at h <;> simp only [MainPc.gos] <;> omega

theorem Printed.inStep (h : Printed M s) (hrounds : Rounds M s) : InStep s.mybarrier.generation s.output where
  waits j := by
    rw [h.waits j]
    exact (hrounds.workers j).waits_bounds
  gos j := by
    rw [h.gos j]
    exact (hrounds.workers j).counter_bounds
  readies := by
    rw [h.readies]
    exact hrounds.main.readies_bounds
  mainGos := by
    rw [h.mainGos]
    exact hrounds.main.gos_bounds

/-! ## What a step prints -/

/-- A worker moves, and what is printed is its own. -/
theorem Printed.worker_moves (h : Printed M s) {w : Worker} {b : CyclicBarrier} {o : List (Line N)}
    (hself : Barriers.waits i o = w.waits ∧ Barriers.gos i o = w.counter)
    (hothers : ∀ j, j ≠ i → Barriers.waits j o = Barriers.waits j s.output ∧
      Barriers.gos j o = Barriers.gos j s.output)
    (hmain : Barriers.readies o = Barriers.readies s.output ∧ Barriers.mainGos o = Barriers.mainGos s.output)
    (hlockstep : Lockstep o) :
    Printed M { s.moveWorker i w with mybarrier := b, output := o } where
  waits j := by
    show Barriers.waits j o = (Function.update s.worker i w j).waits
    by_cases hj : j = i
    · rw [hj, Function.update_self]
      exact hself.1
    · rw [Function.update_of_ne hj, (hothers j hj).1]
      exact h.waits j
  gos j := by
    show Barriers.gos j o = (Function.update s.worker i w j).counter
    by_cases hj : j = i
    · rw [hj, Function.update_self]
      exact hself.2
    · rw [Function.update_of_ne hj, (hothers j hj).2]
      exact h.gos j
  readies := hmain.1.trans h.readies
  mainGos := hmain.2.trans h.mainGos
  lockstep := hlockstep

theorem Printed.workerStep (h : Printed M s) (hrounds : Rounds M s) (hstep : WorkerStep s i s') :
    Printed M s' := by
  have hwaits := h.waits i
  have hgos := h.gos i
  have hround := hrounds.workers i
  unfold Worker.waits at hwaits
  unfold Worker.InRound at hround
  -- a step that prints nothing
  have quiet {w : Worker} {b : CyclicBarrier} (hw : w.waits = Barriers.waits i s.output)
      (hcounter : w.counter = (s.worker i).counter) :
      Printed M { s.moveWorker i w with mybarrier := b } :=
    h.worker_moves ⟨hw.symm, hgos.trans hcounter.symm⟩ (fun _ _ => ⟨rfl, rfl⟩) ⟨rfl, rfl⟩ h.lockstep
  cases hstep with
  | last pc _ | block pc _ =>
    rw [pc] at hwaits
    exact quiet hwaits.symm rfl
  | release pc _ =>
    rw [pc] at hwaits
    exact quiet (b := s.mybarrier) hwaits.symm rfl
  | sleep pc =>
    rw [pc] at hwaits
    exact quiet (b := s.mybarrier) hwaits.symm rfl
  | printWait pc =>
    rw [pc] at hwaits hround
    have hline : Fits s.output (.wait i) := by
      refine ⟨hwaits.trans hgos.symm, ?_⟩
      rw [hwaits, show (s.worker i).counter = _ from hround]
      exact h.inStep hrounds
    refine h.worker_moves (b := s.mybarrier) ⟨?_, ?_⟩ (fun j hj => ⟨?_, ?_⟩) ⟨?_, ?_⟩ (h.lockstep.append hline)
    · rw [waits_append, if_pos rfl, hwaits]
      rfl
    · simpa [Line.goBy] using hgos
    · simp [Ne.symm hj]
    · simp [Line.goBy]
    · simp
    · simp [Line.goByMain]
  | printGo pc =>
    rw [pc] at hwaits hround
    have hline : Fits s.output (.go i (s.worker i).counter) := by
      refine ⟨hgos.symm, hwaits, ?_⟩
      rw [show (s.worker i).counter + 1 = _ from hround]
      exact h.inStep hrounds
    refine h.worker_moves (b := s.mybarrier) ⟨?_, ?_⟩ (fun j hj => ⟨?_, ?_⟩) ⟨?_, ?_⟩ (h.lockstep.append hline)
    · have hsame : Barriers.waits i (s.output ++ [.go i (s.worker i).counter]) = Barriers.waits i s.output := by
        simp
      exact hsame.trans hwaits
    · simpa [Line.goBy] using hgos
    · simp
    · simp [Line.goBy, Ne.symm hj]
    · simp
    · simp [Line.goByMain]

/-- `main` moves, and what is printed is its own. -/
theorem Printed.main_moves (h : Printed M s) {m : MainPc} {b : CyclicBarrier} {o : List (Line N)}
    (hself : Barriers.readies o = m.readies M ∧ Barriers.mainGos o = m.gos M)
    (hothers : ∀ j, Barriers.waits j o = Barriers.waits j s.output ∧ Barriers.gos j o = Barriers.gos j s.output)
    (hlockstep : Lockstep o) :
    Printed M { s with main := m, mybarrier := b, output := o } where
  waits j := (hothers j).1.trans (h.waits j)
  gos j := (hothers j).2.trans (h.gos j)
  readies := hself.1
  mainGos := hself.2
  lockstep := hlockstep

theorem roundLoop_lines {k : Nat} (hk : k ≤ M) :
    (roundLoop M k).readies M = k ∧ (roundLoop M k).gos M = k := by
  unfold roundLoop
  split_ifs with hlt
  · exact ⟨rfl, rfl⟩
  · simp only [MainPc.readies, MainPc.gos]
    omega

theorem createLoop_lines (N M k : Nat) :
    (createLoop N M k).readies M = 0 ∧ (createLoop N M k).gos M = 0 := by
  unfold createLoop
  split_ifs
  · exact ⟨rfl, rfl⟩
  · exact roundLoop_lines (Nat.zero_le M)

theorem Printed.create (h : Printed M s) (hrounds : Rounds M s) {k : Nat} (hpc : s.main = .create k)
    (hk : k < N) :
    Printed M { s.moveWorker ⟨k, hk⟩ ⟨.printWait, 0⟩ with main := createLoop N M (k + 1) } := by
  have hnew : (s.worker ⟨k, hk⟩).pc = .notStarted := by
    rw [hrounds.created, hpc]
    exact Nat.le_refl k
  have hzero := hrounds.workers ⟨k, hk⟩
  have hwaits := h.waits ⟨k, hk⟩
  have hreadies := h.readies
  have hgos := h.mainGos
  unfold Worker.InRound at hzero
  unfold Worker.waits at hwaits
  rw [hnew] at hzero hwaits
  rw [hpc] at hreadies hgos
  have hcreated : Printed M (s.moveWorker ⟨k, hk⟩ ⟨.printWait, 0⟩) :=
    h.worker_moves (b := s.mybarrier) ⟨hwaits.trans hzero.1, (h.gos _).trans hzero.1⟩
      (fun _ _ => ⟨rfl, rfl⟩) ⟨rfl, rfl⟩ h.lockstep
  obtain ⟨hloop, hloop'⟩ := createLoop_lines N M (k + 1)
  exact hcreated.main_moves (b := s.mybarrier) ⟨hreadies.trans hloop.symm, hgos.trans hloop'.symm⟩
    (fun _ => ⟨rfl, rfl⟩) h.lockstep

theorem Printed.mainStep (h : Printed M s) (hrounds : Rounds M s) (hstep : MainStep M s s') :
    Printed M s' := by
  have hreadies := h.readies
  have hgos := h.mainGos
  have hround := hrounds.main
  -- a step that prints nothing
  have quiet {m : MainPc} {b : CyclicBarrier} (hm : m.readies M = s.main.readies M)
      (hm' : m.gos M = s.main.gos M) : Printed M { s with main := m, mybarrier := b } :=
    h.main_moves ⟨hreadies.trans hm.symm, hgos.trans hm'.symm⟩ (fun _ => ⟨rfl, rfl⟩) h.lockstep
  cases hstep with
  | create pc hk => exact h.create hrounds pc hk
  | last pc _ | block pc _ => exact quiet (by rw [pc]; rfl) (by rw [pc]; rfl)
  | release pc _ => exact quiet (b := s.mybarrier) (by rw [pc]; rfl) (by rw [pc]; rfl)
  | sleep pc =>
    rw [pc] at hround
    obtain ⟨hloop, hloop'⟩ := roundLoop_lines (M := M) hround.2
    exact quiet (b := s.mybarrier) (hloop.trans (by rw [pc]; rfl)) (hloop'.trans (by rw [pc]; rfl))
  | @printReady k pc =>
    rw [pc] at hreadies hgos hround
    change Barriers.readies s.output = k at hreadies
    change Barriers.mainGos s.output = k at hgos
    have hline : Fits s.output .ready := by
      refine ⟨hreadies.trans hgos.symm, ?_⟩
      rw [hreadies, hround.1]
      exact h.inStep hrounds
    refine h.main_moves (b := s.mybarrier) ⟨?_, ?_⟩ (fun j => ⟨?_, ?_⟩) (h.lockstep.append hline)
    · rw [readies_append, if_pos rfl, hreadies]
      rfl
    · simpa [Line.goByMain, MainPc.gos] using hgos
    · simp
    · simp [Line.goBy]
  | @printGo k pc =>
    rw [pc] at hreadies hgos hround
    change Barriers.readies s.output = k + 1 at hreadies
    change Barriers.mainGos s.output = k at hgos
    have hline : Fits s.output (.mainGo k) := by
      refine ⟨hgos.symm, hreadies, ?_⟩
      rw [hround.1]
      exact h.inStep hrounds
    refine h.main_moves (b := s.mybarrier) ⟨?_, ?_⟩ (fun j => ⟨?_, ?_⟩) (h.lockstep.append hline)
    · simpa [MainPc.readies] using hreadies
    · simpa [Line.goByMain, MainPc.gos] using hgos
    · simp
    · simp [Line.goBy]

theorem printed_initial (N M : Nat) : Printed M (initial N M) where
  waits _ := rfl
  gos _ := rfl
  readies := (createLoop_lines N M 0).1.symm
  mainGos := (createLoop_lines N M 0).2.symm
  lockstep := eachFits_nil

/-- What holds of every reachable state. -/
structure Invariant (M : Nat) (s : State N) : Prop where
  rounds : Rounds M s
  printed : Printed M s

theorem Invariant.step (h : Invariant M s) (hstep : Step M s s') : Invariant M s' := by
  refine ⟨h.rounds.step hstep, ?_⟩
  cases hstep with
  | worker _ step => exact h.printed.workerStep h.rounds step
  | main step => exact h.printed.mainStep h.rounds step

theorem Invariant.of_reachable (h : (program N M).Reachable s) : Invariant M s := by
  have hinit : Invariant M (program N M).init := ⟨rounds_initial N M, printed_initial N M⟩
  exact h.invariant hinit fun _ _ _ hs hstep => hs.step (step_cases hstep)

/-- **The threads keep in step.**  Whatever the schedule, a thread's two kinds of lines
take turns; when it prints the second line of a round, every thread has printed its
first line of that round and nobody has gone further than to the first line of the next;
and when it prints the first line of a round, nobody has printed the second line of that
round or is missing more than the second line of the round before. -/
theorem lines_in_lockstep (h : (program N M).Reachable s) : Lockstep s.output :=
  (Invariant.of_reachable h).printed.lockstep

/-- A round of one worker and `main`. -/
theorem lines_in_lockstep_one : ∃ s, (program 1 1).Reachable s ∧
    s.output = [.wait 0, .ready, .mainGo 0, .go 0 0] ∧ Lockstep s.output := by
  have hrun : ((program 1 1).run (initial 1 1) [.main, .worker 0, .worker 0, .main, .main, .main,
      .worker 0, .worker 0]).isSome := rfl
  obtain ⟨s, hs⟩ := Option.isSome_iff_exists.mp hrun
  have houtput : s.output = [.wait 0, .ready, .mainGo 0, .go 0 0] := by
    cases hs
    rfl
  exact ⟨s, ⟨_, hs⟩, houtput, lines_in_lockstep ⟨_, hs⟩⟩

end Barriers
end SystemsCourse
