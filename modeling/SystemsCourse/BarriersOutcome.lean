import Mathlib.Algebra.Order.BigOperators.Group.Finset
import Mathlib.Tactic.Ring
import SystemsCourse.BarriersOutput
import SystemsCourse.StepProgress

/-!
# How `barriers.c` ends

Every run ends with the return of `main`, since a thread that is not in its last round
has a bounded number of steps left (`terminates`).  The workers are then not joined, so
each of them may or may not have printed its last line; every combination is possible
(`outcome_iff`).
-/
namespace SystemsCourse
namespace Barriers
variable {N M : Nat} {s s' : State N} {i : Fin N}

/-! ## Every run ends -/

/-- How many steps a worker has left: it can arrive once more than `main` does. -/
def Worker.stepsLeft (M : Nat) (w : Worker) : Nat :=
  match w.pc with
  | .notStarted => 5 * (M - w.counter) + 2
  | .printWait => 5 * (M - w.counter) + 2
  | .barrierWait => 5 * (M - w.counter) + 1
  | .blocked _ => 5 * (M - w.counter)
  | .printGo => 5 * (M - w.counter) - 1
  | .sleep => 5 * (M - w.counter) + 3

/-- How many steps `main` has left. -/
def MainPc.stepsLeft (N M : Nat) : MainPc → Nat
  | .create i => 5 * M + (N - i)
  | .printReady i => 5 * (M - i)
  | .barrierWait i => 5 * (M - i) - 1
  | .blocked i _ => 5 * (M - i) - 2
  | .printGo i => 5 * (M - i) - 3
  | .sleep i => 5 * (M - i) - 4
  | .exited => 0

/-- How many steps the process has left. -/
def State.stepsLeft (M : Nat) (s : State N) : Nat :=
  ∑ i, (s.worker i).stepsLeft M + s.main.stepsLeft N M

theorem MainPc.InRound.generation_le {m : MainPc} {G : Nat} (h : m.InRound M G) : G ≤ M := by
  cases m <;> simp only [InRound] at h <;> omega

theorem stepsLeft_moveWorker {w : Worker} {b : CyclicBarrier} {o : List (Line N)}
    (hw : w.stepsLeft M < (s.worker i).stepsLeft M) :
    State.stepsLeft M { s.moveWorker i w with mybarrier := b, output := o } < s.stepsLeft M := by
  have hupdate := sum_update (Worker.stepsLeft M) s.worker i w
  show ∑ j, (Function.update s.worker i w j).stepsLeft M + s.main.stepsLeft N M < _
  unfold State.stepsLeft
  omega

theorem stepsLeft_workerStep (h : Rounds M s) (hstep : WorkerStep s i s') :
    s'.stepsLeft M < s.stepsLeft M := by
  have hle := h.main.generation_le
  have hround := h.workers i
  unfold Worker.InRound at hround
  cases hstep with
  | printWait pc =>
    refine stepsLeft_moveWorker (b := s.mybarrier) ?_
    simp only [Worker.stepsLeft, pc]
    omega
  | last pc last =>
    -- the generation that ends is not the last one
    have hnext := (h.worker_last pc last).main.generation_le
    rw [CyclicBarrier.arrive_last last] at hnext
    simp only [pc] at hround hnext
    refine stepsLeft_moveWorker (o := s.output) ?_
    simp only [Worker.stepsLeft, pc]
    omega
  | block pc _ =>
    refine stepsLeft_moveWorker (o := s.output) ?_
    simp only [Worker.stepsLeft, pc]
    omega
  | release pc released =>
    refine stepsLeft_moveWorker (b := s.mybarrier) (o := s.output) ?_
    simp only [pc] at hround
    simp only [Worker.stepsLeft, pc]
    omega
  | printGo pc =>
    refine stepsLeft_moveWorker (b := s.mybarrier) ?_
    simp only [pc] at hround
    simp only [Worker.stepsLeft, pc]
    omega
  | sleep pc =>
    refine stepsLeft_moveWorker (b := s.mybarrier) (o := s.output) ?_
    simp only [Worker.stepsLeft, pc]
    omega

theorem stepsLeft_roundLoop (N M k : Nat) : (roundLoop M k).stepsLeft N M ≤ 5 * (M - k) := by
  unfold roundLoop
  split_ifs
  · exact Nat.le_refl _
  · exact Nat.zero_le _

theorem stepsLeft_createLoop (N M k : Nat) (hk : k ≤ N) :
    (createLoop N M k).stepsLeft N M ≤ 5 * M + (N - k) := by
  unfold createLoop
  split_ifs
  · exact Nat.le_refl _
  · have := stepsLeft_roundLoop N M 0
    omega

theorem stepsLeft_main {m : MainPc} {b : CyclicBarrier} {o : List (Line N)}
    (hm : m.stepsLeft N M < s.main.stepsLeft N M) :
    State.stepsLeft M { s with main := m, mybarrier := b, output := o } < s.stepsLeft M :=
  Nat.add_lt_add_left hm _

theorem stepsLeft_mainStep (h : Rounds M s) (hstep : MainStep M s s') :
    s'.stepsLeft M < s.stepsLeft M := by
  have hround := h.main
  cases hstep with
  | @create k pc hk =>
    have hnew : (s.worker ⟨k, hk⟩).pc = .notStarted := by
      rw [h.created, pc]
      exact Nat.le_refl k
    have hzero := h.workers ⟨k, hk⟩
    unfold Worker.InRound at hzero
    simp only [hnew] at hzero
    have hupdate := sum_update (Worker.stepsLeft M) s.worker ⟨k, hk⟩ ⟨.printWait, 0⟩
    have hsame : Worker.stepsLeft M ⟨.printWait, 0⟩ = (s.worker ⟨k, hk⟩).stepsLeft M := by
      simp only [Worker.stepsLeft, hnew, hzero.1]
    have hloop := stepsLeft_createLoop N M (k + 1) hk
    have hleft : s.main.stepsLeft N M = 5 * M + (N - k) := by
      rw [pc]
      rfl
    show ∑ j, (Function.update s.worker ⟨k, hk⟩ ⟨.printWait, 0⟩ j).stepsLeft M +
      (createLoop N M (k + 1)).stepsLeft N M < _
    unfold State.stepsLeft
    omega
  | printReady pc =>
    rw [pc] at hround
    refine stepsLeft_main (b := s.mybarrier) ?_
    simp only [pc, MainPc.stepsLeft]
    simp only [MainPc.InRound] at hround
    omega
  | last pc _ | block pc _ =>
    rw [pc] at hround
    refine stepsLeft_main (o := s.output) ?_
    simp only [pc, MainPc.stepsLeft]
    simp only [MainPc.InRound] at hround
    omega
  | release pc _ =>
    rw [pc] at hround
    refine stepsLeft_main (b := s.mybarrier) (o := s.output) ?_
    simp only [pc, MainPc.stepsLeft]
    simp only [MainPc.InRound] at hround
    omega
  | printGo pc =>
    rw [pc] at hround
    refine stepsLeft_main (b := s.mybarrier) ?_
    simp only [pc, MainPc.stepsLeft]
    simp only [MainPc.InRound] at hround
    omega
  | @sleep k pc =>
    rw [pc] at hround
    have hloop := stepsLeft_roundLoop N M (k + 1)
    have hleft : s.main.stepsLeft N M = 5 * (M - k) - 4 := by
      rw [pc]
      rfl
    obtain ⟨-, hlt⟩ := hround
    refine stepsLeft_main (b := s.mybarrier) (o := s.output) ?_
    omega

theorem stepsLeft_initial (N M : Nat) : (initial N M).stepsLeft M ≤ 5 * M * (N + 1) + 3 * N := by
  have hloop := stepsLeft_createLoop N M 0 (Nat.zero_le N)
  have hsum : ∑ i, ((initial N M).worker i).stepsLeft M = N * (5 * M + 2) := by
    rw [show (fun i => ((initial N M).worker i).stepsLeft M) = fun _ => 5 * M + 2 from rfl,
      Finset.sum_const, Finset.card_univ, Fintype.card_fin, Nat.nsmul_eq_mul]
  have hexpand : N * (5 * M + 2) = 5 * M * N + 2 * N := by ring
  have hexpand' : 5 * M * (N + 1) = 5 * M * N + 5 * M := by ring
  show ∑ i, ((initial N M).worker i).stepsLeft M + (createLoop N M 0).stepsLeft N M ≤ _
  omega

/-! ## No deadlock -/

/-- A worker is left to create while `main` is in the loop that creates them. -/
def State.CreatesNext (s : State N) : Prop := ∀ k, s.main = .create k → k < N

theorem roundLoop_ne_create (M k k' : Nat) : roundLoop M k ≠ .create k' := by
  unfold roundLoop
  split_ifs
  · exact MainPc.noConfusion
  · exact MainPc.noConfusion

theorem createLoop_eq_create {k k' : Nat} (h : createLoop N M k = .create k') : k' < N := by
  unfold createLoop at h
  split_ifs at h with hlt
  · cases h
    exact hlt
  · exact absurd h (roundLoop_ne_create M 0 k')

theorem createsNext_of_reachable (h : (program N M).Reachable s) : s.CreatesNext := by
  have hkeeps (u : State N) (t : Thread N) (u' : State N) (hu : u.CreatesNext)
      (hstep : (program N M).step u t = some u') : u'.CreatesNext := by
    intro k hk
    cases step_cases hstep with
    | worker _ step => cases step <;> exact hu k hk
    | main step =>
      cases step with
      | create _ _ => exact createLoop_eq_create hk
      | sleep _ => exact absurd hk (roundLoop_ne_create M _ k)
      | _ => cases hk
  have hinit : (program N M).init.CreatesNext := fun _ hk => createLoop_eq_create hk
  exact h.invariant hinit hkeeps

/-- Where `main` waits. -/
theorem main_waits (hcreates : s.CreatesNext) (hstuck : mainStep M s = none) :
    s.main = .exited ∨ ∃ k, s.main = .blocked k s.mybarrier.generation := by
  unfold mainStep at hstuck
  cases hpc : s.main with
  | create k => simp [hpc, hcreates k hpc] at hstuck
  | exited => exact Or.inl rfl
  | blocked k g =>
    simp only [hpc] at hstuck
    split_ifs at hstuck with hg
    exact Or.inr ⟨k, by rw [hg]⟩
  | _ => simp [hpc] at hstuck

/-- Where a worker waits. -/
theorem worker_waits (hstuck : workerStep s i = none) :
    (s.worker i).pc = .notStarted ∨ (s.worker i).pc = .blocked s.mybarrier.generation := by
  unfold workerStep at hstuck
  cases hpc : (s.worker i).pc with
  | notStarted => exact Or.inl rfl
  | blocked g =>
    simp only [hpc] at hstuck
    split_ifs at hstuck with hg
    exact Or.inr (by rw [hg])
  | _ => simp [hpc] at hstuck

/-- **There is no deadlock**: not everybody waits at the barrier. -/
theorem exited_of_stuck (h : Rounds M s) (hcreates : s.CreatesNext) (hstuck : (program N M).Stuck s) :
    s.main = .exited := by
  by_contra hrunning
  have hmain : mainStep M s = none := (if_neg hrunning).symm.trans (hstuck .main)
  have hworker (i : Fin N) : workerStep s i = none := (if_neg hrunning).symm.trans (hstuck (.worker i))
  obtain ⟨k, hblocked⟩ := (main_waits hcreates hmain).resolve_left hrunning
  obtain ⟨t, ht⟩ := h.barrier.exists_away
  cases t with
  | none =>
    refine ht ?_
    show s.main.blockedAt = _
    rw [hblocked]
    rfl
  | some i =>
    rcases worker_waits (hworker i) with hpc | hpc
    · -- `main` has created all workers
      have hcreated := (h.created i).mp hpc
      rw [hblocked] at hcreated
      exact absurd i.isLt (Nat.not_lt.mpr hcreated)
    · refine ht ?_
      show (s.worker i).pc.blockedAt = _
      rw [hpc]
      rfl

theorem terminates (N M : Nat) :
    (program N M).Terminates (5 * M * (N + 1) + 3 * N) fun s => s.main = .exited := by
  refine .of_measure StepSystem.reachable_init (fun _ _ _ hs hstep => hs.step hstep)
    (fun s t s' hs hstep => ?_) (stepsLeft_initial N M)
    fun _ hs hstuck => exited_of_stuck (Rounds.of_reachable hs) (createsNext_of_reachable hs) hstuck
  cases step_cases hstep with
  | worker _ step => exact stepsLeft_workerStep (Rounds.of_reachable hs) step
  | main step => exact stepsLeft_mainStep (Rounds.of_reachable hs) step

/-- **Every run of `barriers.c` ends** with the return of `main`, within
`5 * M * (N + 1) + 3 * N` steps. -/
theorem every_run_returns {ts : List (Thread N)} (hrun : (program N M).run (initial N M) ts = some s) :
    ∃ ts' s', (program N M).run s ts' = some s' ∧ s'.main = .exited ∧
      ts.length + ts'.length ≤ 5 * M * (N + 1) + 3 * N :=
  (terminates N M).finishes hrun

/-- The workers `i` and `j` wait for `main`. -/
def mainLast (i j : Fin N) : List (Thread N) :=
  [.main, .main, .worker i, .worker j, .worker j, .worker i, .main]

/-- The program as it is: two workers and five rounds. -/
theorem every_run_returns_mainLast :
    ∃ s, (program 2 5).run (initial 2 5) (mainLast 0 1) = some s ∧
      ∃ ts' s', (program 2 5).run s ts' = some s' ∧ s'.main = .exited ∧
        7 + ts'.length ≤ 5 * 5 * (2 + 1) + 3 * 2 := by
  have hrun : ((program 2 5).run (initial 2 5) (mainLast 0 1)).isSome := rfl
  obtain ⟨s, hs⟩ := Option.isSome_iff_exists.mp hrun
  exact ⟨s, hs, every_run_returns hs⟩

/-! ## What has been printed then -/

/-- The workers below `n` have come as far as `f` says, the others are where `g` says. -/
def upTo (n : Nat) (f g : Fin N → Worker) (j : Fin N) : Worker := if j.val < n then f j else g j

section UpTo
variable {n : Nat} {f g : Fin N → Worker}

theorem upTo_zero : upTo 0 f g = g := by
  funext j
  exact if_neg (Nat.not_lt_zero _)

theorem upTo_all : upTo N f g = f := by
  funext j
  exact if_pos j.isLt

theorem upTo_next (h : n < N) : upTo n f g ⟨n, h⟩ = g ⟨n, h⟩ := if_neg (Nat.lt_irrefl n)

theorem update_upTo (h : n < N) : Function.update (upTo n f g) ⟨n, h⟩ (f ⟨n, h⟩) = upTo (n + 1) f g := by
  funext j
  by_cases hj : j = ⟨n, h⟩
  · rw [hj, Function.update_self]
    exact (if_pos (Nat.lt_succ_self n)).symm
  · have hne : j.val ≠ n := fun hv => hj (Fin.ext hv)
    rw [Function.update_of_ne hj, upTo, upTo, if_congr (by omega : j.val < n ↔ j.val < n + 1) rfl rfl]

end UpTo

/-- Some reachable state has these components. -/
def Comes (M : Nat) (b : CyclicBarrier) (f : Fin N → Worker) (m : MainPc) : Prop :=
  ∃ o, (program N M).Reachable ⟨b, f, m, o⟩

/-- **The workers take their turns one after the other**: what each of them can do if those
before it have done it, all of them can do. -/
theorem comes_all {b : Nat → CyclicBarrier} {f g : Fin N → Worker} {m : MainPc}
    (hturn : ∀ (n : Nat) (h : n < N) (k : Fin N → Worker), k ⟨n, h⟩ = g ⟨n, h⟩ →
      Comes M (b n) k m → Comes M (b (n + 1)) (Function.update k ⟨n, h⟩ (f ⟨n, h⟩)) m)
    (hstart : Comes M (b 0) g m) : Comes M (b N) f m := by
  have hturns (n : Nat) (hn : n ≤ N) : Comes M (b n) (upTo n f g) m := by
    induction n with
    | zero =>
      rw [upTo_zero]
      exact hstart
    | succ n ih =>
      rw [← update_upTo (Nat.lt_of_succ_le hn)]
      exact hturn n hn _ (upTo_next hn) (ih (Nat.le_of_succ_le hn))
  have hall := hturns N (Nat.le_refl N)
  rwa [upTo_all] at hall

theorem step_worker (hm : s.main ≠ .exited) (h : workerStep s i = some s') :
    (program N M).step s (.worker i) = some s' :=
  (if_neg hm).trans h

theorem step_main (hm : s.main ≠ .exited) (h : mainStep M s = some s') :
    (program N M).step s .main = some s' :=
  (if_neg hm).trans h

/-- A worker that is not the last one comes to the barrier and waits. -/
theorem Comes.worker_waits {n r : Nat} {f : Fin N → Worker} (hn : n < N)
    (hf : f ⟨n, hn⟩ = ⟨.printWait, r⟩) (h : Comes M ⟨n, r⟩ f (.printReady r)) :
    Comes M ⟨n + 1, r⟩ (Function.update f ⟨n, hn⟩ ⟨.blocked r, r⟩) (.printReady r) := by
  obtain ⟨o, hreach⟩ := h
  let f₁ := Function.update f ⟨n, hn⟩ ⟨.barrierWait, r⟩
  have h₁ : workerStep ⟨⟨n, r⟩, f, .printReady r, o⟩ ⟨n, hn⟩ =
      some ⟨⟨n, r⟩, f₁, .printReady r, o ++ [.wait ⟨n, hn⟩]⟩ := by
    simp [workerStep, hf, State.moveWorker, f₁]
  have hlast : ¬ n = N := Nat.ne_of_lt hn
  have h₂ : workerStep ⟨⟨n, r⟩, f₁, .printReady r, o ++ [.wait ⟨n, hn⟩]⟩ ⟨n, hn⟩ =
      some ⟨⟨n + 1, r⟩, Function.update f ⟨n, hn⟩ ⟨.blocked r, r⟩, .printReady r, o ++ [.wait ⟨n, hn⟩]⟩ := by
    simp [workerStep, State.moveWorker, State.Last, CyclicBarrier.arrive, f₁, hlast]
  exact ⟨_, (hreach.step (step_worker MainPc.noConfusion h₁)).step (step_worker MainPc.noConfusion h₂)⟩

/-- A worker that has been let go ends its round. -/
theorem Comes.worker_goes {r : Nat} {f : Fin N → Worker} (hf : f i = ⟨.blocked r, r⟩)
    (h : Comes M ⟨0, r + 1⟩ f (.sleep r)) :
    Comes M ⟨0, r + 1⟩ (Function.update f i ⟨.printWait, r + 1⟩) (.sleep r) := by
  obtain ⟨o, hreach⟩ := h
  let f₁ := Function.update f i ⟨.printGo, r⟩
  let f₂ := Function.update f i ⟨.sleep, r + 1⟩
  have h₁ : workerStep ⟨⟨0, r + 1⟩, f, .sleep r, o⟩ i = some ⟨⟨0, r + 1⟩, f₁, .sleep r, o⟩ := by
    simp [workerStep, hf, State.moveWorker, f₁]
  have h₂ : workerStep ⟨⟨0, r + 1⟩, f₁, .sleep r, o⟩ i =
      some ⟨⟨0, r + 1⟩, f₂, .sleep r, o ++ [.go i r]⟩ := by
    simp [workerStep, State.moveWorker, f₁, f₂]
  have h₃ : workerStep ⟨⟨0, r + 1⟩, f₂, .sleep r, o ++ [.go i r]⟩ i =
      some ⟨⟨0, r + 1⟩, Function.update f i ⟨.printWait, r + 1⟩, .sleep r, o ++ [.go i r]⟩ := by
    simp [workerStep, State.moveWorker, f₂]
  exact ⟨_, ((hreach.step (step_worker MainPc.noConfusion h₁)).step
    (step_worker MainPc.noConfusion h₂)).step (step_worker MainPc.noConfusion h₃)⟩

/-- **A round** in which the workers that `ends` names print their second lines before
`main` goes on. -/
theorem Comes.round {r : Nat} (ends : Fin N → Bool)
    (h : Comes M ⟨0, r⟩ (fun _ : Fin N => ⟨.printWait, r⟩) (.printReady r)) :
    Comes M ⟨0, r + 1⟩ (fun i => if ends i then ⟨.printWait, r + 1⟩ else ⟨.blocked r, r⟩)
      (roundLoop M (r + 1)) := by
  -- all workers wait at the barrier
  have hwait : Comes M ⟨N, r⟩ (fun _ : Fin N => ⟨.blocked r, r⟩) (.printReady r) :=
    comes_all (b := fun n => ⟨n, r⟩) (fun n hn k hk hcomes => hcomes.worker_waits hn hk) h
  obtain ⟨o, hreach⟩ := hwait
  let f : Fin N → Worker := fun _ => ⟨.blocked r, r⟩
  -- `main` is the last one to arrive
  have h₁ : mainStep M ⟨⟨N, r⟩, f, .printReady r, o⟩ = some ⟨⟨N, r⟩, f, .barrierWait r, o ++ [.ready]⟩ := rfl
  have h₂ : mainStep M ⟨⟨N, r⟩, f, .barrierWait r, o ++ [.ready]⟩ =
      some ⟨⟨0, r + 1⟩, f, .printGo r, o ++ [.ready]⟩ := by
    simp [mainStep, State.Last, CyclicBarrier.arrive]
  have h₃ : mainStep M ⟨⟨0, r + 1⟩, f, .printGo r, o ++ [.ready]⟩ =
      some ⟨⟨0, r + 1⟩, f, .sleep r, o ++ [.ready] ++ [.mainGo r]⟩ := rfl
  have hgo : Comes M ⟨0, r + 1⟩ f (.sleep r) :=
    ⟨_, ((hreach.step (step_main MainPc.noConfusion h₁)).step (step_main MainPc.noConfusion h₂)).step
      (step_main MainPc.noConfusion h₃)⟩
  -- the workers that are named end their round
  have hends : Comes M ⟨0, r + 1⟩
      (fun i => if ends i then (⟨.printWait, r + 1⟩ : Worker) else ⟨.blocked r, r⟩) (.sleep r) := by
    refine comes_all (b := fun _ => ⟨0, r + 1⟩) (fun n hn k hk hcomes => ?_) hgo
    by_cases hend : ends ⟨n, hn⟩
    · simp only [hend, if_true]
      exact hcomes.worker_goes hk
    · simp only [hend]
      rw [if_neg Bool.false_ne_true, show (⟨.blocked r, r⟩ : Worker) = k ⟨n, hn⟩ from hk.symm,
        Function.update_eq_self]
      exact hcomes
  obtain ⟨o', hreach'⟩ := hends
  exact ⟨o', hreach'.step (step_main MainPc.noConfusion rfl)⟩

/-- The workers can be created before any of them moves. -/
theorem comes_created (N M : Nat) :
    Comes M ⟨0, 0⟩ (fun _ : Fin N => ⟨.printWait, 0⟩) (roundLoop M 0) := by
  have hloop (n : Nat) (hn : n ≤ N) : Comes M ⟨0, 0⟩
      (upTo n (fun _ : Fin N => ⟨.printWait, 0⟩) fun _ => ⟨.notStarted, 0⟩) (createLoop N M n) := by
    induction n with
    | zero =>
      rw [upTo_zero]
      exact ⟨[], StepSystem.reachable_init⟩
    | succ n ih =>
      obtain ⟨o, hreach⟩ := ih (Nat.le_of_succ_le hn)
      have hlt : n < N := Nat.lt_of_succ_le hn
      rw [createLoop, if_pos hlt] at hreach
      rw [← update_upTo hlt]
      refine ⟨o, hreach.step (step_main MainPc.noConfusion ?_)⟩
      simp only [mainStep, dif_pos hlt, State.moveWorker]
  have hall := hloop N (Nat.le_refl N)
  rwa [upTo_all, createLoop, if_neg (Nat.lt_irrefl N)] at hall

/-- Every round of `main` can begin with all workers in front of their first lines. -/
theorem comes_round (N M : Nat) {r : Nat} (hr : r ≤ M) :
    Comes M ⟨0, r⟩ (fun _ : Fin N => ⟨.printWait, r⟩) (roundLoop M r) := by
  induction r with
  | zero => exact comes_created N M
  | succ r ih =>
    have hround := ih (Nat.le_of_succ_le hr)
    rw [roundLoop, if_pos (Nat.lt_of_succ_le hr)] at hround
    exact hround.round fun _ => true

/-- **What each worker has printed when the process ends**: a worker has printed `GO` in
each round or in each but the last, and every combination of these is possible. -/
theorem outcome_iff {c : Fin N → Nat} :
    (∃ s, (program N M).Reachable s ∧ s.main = .exited ∧ ∀ i, gos i s.output = c i) ↔
      ∀ i, c i = M ∨ c i + 1 = M := by
  constructor
  · rintro ⟨s, hreach, hexited, hc⟩ i
    have hinv := Invariant.of_reachable hreach
    have hmain := hinv.rounds.main
    have hround := (hinv.rounds.workers i).counter_bounds
    rw [hexited] at hmain
    rw [show s.mybarrier.generation = M from hmain, ← hinv.printed.gos i, hc i] at hround
    omega
  · intro hc
    have hcomes : ∃ (f : Fin N → Worker), (∀ i, (f i).counter = c i) ∧ ∃ b, Comes M b f .exited := by
      cases M with
      | zero =>
        have hstart := comes_round N 0 (Nat.le_refl 0)
        exact ⟨_, fun i => ((hc i).resolve_right (Nat.succ_ne_zero _)).symm, _, hstart⟩
      | succ m =>
        have hlast := comes_round N (m + 1) (Nat.le_succ m)
        rw [roundLoop, if_pos (Nat.lt_succ_self m)] at hlast
        have hexit := hlast.round fun i => decide (c i = m + 1)
        rw [roundLoop, if_neg (Nat.lt_irrefl _)] at hexit
        refine ⟨_, fun i => ?_, _, hexit⟩
        by_cases hi : c i = m + 1
        · rw [if_pos (decide_eq_true hi)]
          exact hi.symm
        · have hci := hc i
          rw [if_neg (fun h => hi (of_decide_eq_true h))]
          show m = c i
          omega
    obtain ⟨f, hcounter, b, o, hreach⟩ := hcomes
    exact ⟨_, hreach, rfl, fun i => ((Invariant.of_reachable hreach).printed.gos i).trans (hcounter i)⟩

end Barriers
end SystemsCourse
