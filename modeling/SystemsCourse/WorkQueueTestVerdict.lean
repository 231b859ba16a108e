import Mathlib.Data.List.FinRange
import SystemsCourse.WorkQueueTest

/-!
# `project2/test.c`: when the verdict can be trusted

A verdict is right if it says which tasks have run (`Right`).  When no task is running
as `wq_wait` returns, and the queue starts none afterwards (`Waited`), `counter` does not
change while it is compared; and each task has been run at most once, since nobody frees
an argument twice.  Then the verdict is right (`verdict_exact`).

Otherwise two executions of one task may have counted, and their sum stands for a task
that has not run.  This takes two tasks, and two workers: a single worker ends a task
before it starts the next one (`fooled_iff`).
-/
namespace SystemsCourse
namespace WorkQueueTest

variable {N W : Nat} {s : State N W} {w : Fin W} {k : Fin N}

theorem accounted (h : (program N W).Reachable s) : Accounted s := by
  refine h.invariant accounted_initial fun s _ s' hs hstep => ?_
  rcases step_cases hstep with hmain | ⟨w, -, hworker⟩
  · exact hs.mainStep hmain
  · exact hs.workerStep hworker

/-- **The verdict says which tasks have run.** -/
def Right (counted : List (Fin N)) : Verdict → Prop
  | .matchesExpected => counted.Perm (List.finRange N)
  | .tooMany => False
  | .tooFew => counted ≠ [] ∧ counted.Nodup ∧ ∃ k, k ∉ counted
  | .noTasks => counted = [] ∧ 0 < N

/-- What the comparisons find if `counter` does not change. -/
def verdict (N counter : Nat) : Verdict :=
  if counter = N then .matchesExpected
  else if N < counter then .tooMany
  else if 0 < counter then .tooFew
  else .noTasks

/-! ## Tasks that run once -/

theorem subperm_finRange {counted : List (Fin N)} (h : counted.Nodup) :
    counted.Subperm (List.finRange N) :=
  List.subperm_of_subset h fun k _ => List.mem_finRange k

/-- The count is right if no task has run twice. -/
theorem right_of_nodup {counted : List (Fin N)} (h : counted.Nodup) :
    Right counted (verdict N counted.length) := by
  have hle : counted.length ≤ N := (subperm_finRange h).length_le.trans_eq List.length_finRange
  unfold verdict
  split_ifs with heq hmany hfew
  · refine (subperm_finRange h).perm_of_length_le ?_
    rw [List.length_finRange, heq]
  · exact absurd hle (Nat.not_le_of_lt hmany)
  · refine ⟨List.ne_nil_of_length_pos hfew, h, ?_⟩
    by_contra hall
    have hsub : (List.finRange N).Subperm counted :=
      List.subperm_of_subset (List.nodup_finRange N) fun k _ => not_not.mp (not_exists.mp hall k)
    exact heq (Nat.le_antisymm hle (List.length_finRange.symm.trans_le hsub.length_le))
  · have hnil : counted = [] := List.eq_nil_of_length_eq_zero (Nat.eq_zero_of_not_pos hfew)
    refine ⟨hnil, Nat.pos_of_ne_zero fun hN => heq ?_⟩
    rw [hnil, hN]
    rfl

/-- What has been counted is counted once if nobody is between counting and the end. -/
theorem Accounted.nodup_of_idle (h : Accounted s) (hidle : ∀ w, s.worker w = .idle) :
    s.counted.Nodup := by
  refine List.nodup_iff_count_le_one.mpr fun k => ?_
  have hpending : s.pending k = 0 := by
    refine tally_eq_zero_iff.mpr fun w => ?_
    rw [hidle w]
    exact Bool.false_ne_true
  rw [h.counted, hpending]
  split <;> omega

/-- A worker that has counted is still at its task. -/
theorem WorkerPc.task_of_counts {pc : WorkerPc N} (h : pc.counts k = true) :
    ∃ p, pc = .task k p ∧ p ≠ .testArg := by
  unfold WorkerPc.counts at h
  split at h
  · exact ⟨.unlock, by rw [of_decide_eq_true h], TaskPc.noConfusion⟩
  · exact ⟨.free, by rw [of_decide_eq_true h], TaskPc.noConfusion⟩
  · cases h

/-- A worker that is alone counts no task twice. -/
theorem Accounted.nodup_of_alone (h : Accounted s) (hW : W ≤ 1) : s.counted.Nodup := by
  refine List.nodup_iff_count_le_one.mpr fun k => ?_
  rw [h.counted]
  have hone : s.pending k ≤ 1 := by
    have hcard := tally_le_card (p := fun pc => WorkerPc.counts k pc = true) (f := s.worker)
    rw [Fintype.card_fin] at hcard
    exact Nat.le_trans hcard hW
  rcases Nat.eq_zero_or_pos (s.pending k) with hzero | hpos
  · rw [hzero]
    split <;> omega
  · -- the worker has not freed the argument
    obtain ⟨w, hw⟩ := tally_pos_iff.mp hpos
    obtain ⟨p, hpc, hp⟩ := WorkerPc.task_of_counts hw
    rw [h.alone hW w k p hpc hp]
    exact hone

/-! ## Runs of the test -/

/-- `main` has submitted the first `k` tasks; no task has been started. -/
structure Submitting (k : Nat) (s : State N W) : Prop where
  reachable : (program N W).Reachable s
  main : s.main = loop N k
  idle : ∀ w, s.worker w = .idle
  arg : ∀ j : Fin N, j.val < k → s.arg j = .allocated
  mainlock : s.mainlock = none
  counter : s.counter = 0
  counted : s.counted = []

theorem reachable_step {s s' : State N W} {a : Action N W} (h : (program N W).Reachable s)
    (hstep : step s a = some s') : (program N W).Reachable s' := h.step hstep

theorem exists_submitting (k : Nat) (hk : k ≤ N) : ∃ s : State N W, Submitting k s := by
  induction k with
  | zero =>
    have hcreated : step (initial N W) (.main 1) = some ((initial N W).mainTest
        (test true "create succeeded" "wq_create returned NULL." true) (loop N 0)) := rfl
    exact ⟨_, reachable_step StepSystem.reachable_init hcreated, rfl, fun _ => rfl,
      fun _ hj => absurd hj (Nat.not_lt_zero _), rfl, rfl, rfl⟩
  | succ k ih =>
    obtain ⟨s, hs⟩ := ih (Nat.le_of_succ_le hk)
    have hlt : k < N := hk
    have hmain : s.main = .submit k := by rw [hs.main, loop, if_pos hlt]
    have hsubmit : step s (.main 0) = some (s.submit k hlt) := by
      simp only [step, mainStep, hmain, dif_pos hlt]
    have hreturn : step (s.submit k hlt) (.main 1) = some ((s.submit k hlt).mainTest
        (test true "taskid looks good" "wq_submit returned a task ID that was not positive." false)
        (loop N (k + 1))) := rfl
    exact ⟨_, reachable_step (reachable_step hs.reachable hsubmit) hreturn, rfl, hs.idle,
      forall_lt_update (p := fun _ arg => arg = Arg.allocated) hlt rfl hs.arg, hs.mainlock, hs.counter,
      hs.counted⟩

/-- Worker `w` goes on. -/
theorem reachable_worker {s' : State N W} {p : TaskPc} (h : (program N W).Reachable s)
    (hmain : s.main = .wait) (hpc : s.worker w = .task k p) (hstep : taskStep s w k p = some s') :
    (program N W).Reachable s' := by
  refine reachable_step h (a := .worker w) ?_
  simp only [step, hmain, MainPc.running, if_true, workerStep, hpc, hstep]

/-- What is left of a state in which worker `w` has counted task `k`. -/
structure Counts (s : State N W) (w : Fin W) (k : Fin N) (s' : State N W) : Prop where
  main : s'.main = .wait
  worker : s'.worker = Function.update s.worker w (.task k .free)
  arg : s'.arg = s.arg
  mainlock : s'.mainlock = none
  counter : s'.counter = s.counter + 1
  counted : s'.counted = s.counted ++ [k]

/-- **An execution** from the start to where it frees its argument. -/
theorem exists_counts (h : (program N W).Reachable s) (hmain : s.main = .wait)
    (hidle : s.worker w = .idle) (hlive : s.arg k = .allocated) (hfree : s.mainlock = none) :
    ∃ s', (program N W).Reachable s' ∧ Counts s w k s' := by
  have hstart : step s (.start w k) = some (s.goto w (.task k .testArg)) := by
    have hstarts : s.worker w = .idle ∧ s.arg k ≠ .unallocated :=
      ⟨hidle, by rw [hlive]; exact Arg.noConfusion⟩
    simp only [step, hmain, MainPc.running, if_true, startStep, if_pos hstarts]
  have hself (s : State N W) (pc : WorkerPc N) : (s.goto w pc).worker w = pc := by
    show Function.update s.worker w pc w = pc
    exact Function.update_self _ _ _
  have h₁ := reachable_step h hstart
  have h₂ := reachable_worker h₁ hmain (hself _ _) (if_pos hlive)
  have h₃ := reachable_worker h₂ hmain (hself _ _) rfl
  have h₄ := reachable_worker h₃ hmain (hself _ _) (if_pos hfree)
  have h₅ := reachable_worker h₄ hmain (hself _ _) rfl
  have h₆ := reachable_worker h₅ hmain (hself _ _) rfl
  have h₇ := reachable_worker h₆ hmain (hself _ _) rfl
  refine ⟨_, h₇, hmain, ?_, rfl, rfl, rfl, rfl⟩
  simp only [State.goto, Function.update_idem]

/-- What is left of a state in which worker `w` has executed task `k`. -/
structure Executes (s : State N W) (w : Fin W) (k : Fin N) (s' : State N W) : Prop where
  main : s'.main = .wait
  worker : s'.worker = Function.update s.worker w .idle
  arg : s'.arg = Function.update s.arg k .freed
  mainlock : s'.mainlock = none
  counter : s'.counter = s.counter + 1
  counted : s'.counted = s.counted ++ [k]

/-- **A whole execution.** -/
theorem exists_executes (h : (program N W).Reachable s) (hmain : s.main = .wait)
    (hidle : s.worker w = .idle) (hlive : s.arg k = .allocated) (hfree : s.mainlock = none) :
    ∃ s', (program N W).Reachable s' ∧ Executes s w k s' := by
  obtain ⟨s₁, h₁, hcounts⟩ := exists_counts h hmain hidle hlive hfree
  have hpc : s₁.worker w = .task k .free := by rw [hcounts.worker, Function.update_self]
  have hlive₁ : s₁.arg k = .allocated := by rw [hcounts.arg, hlive]
  refine ⟨_, reachable_worker h₁ hcounts.main hpc (if_pos hlive₁), hcounts.main, ?_, ?_,
    hcounts.mainlock, hcounts.counter, hcounts.counted⟩
  · show Function.update s₁.worker w .idle = _
    rw [hcounts.worker, Function.update_idem]
  · show Function.update s₁.arg k .freed = _
    rw [hcounts.arg]

/-- `wq_wait` returns, and `counter` matches. -/
theorem exists_matched (h : (program N W).Reachable s) (hmain : s.main = .wait)
    (hcounter : s.counter = N) : ∃ s', (program N W).Reachable s' ∧
      s'.main = .returned .matchesExpected ∧ s'.counted = s.counted := by
  have hreturn : step s (.main 0) = some { s with main := .isEqual } := by
    simp only [step, mainStep, hmain]
  have hequal : step { s with main := .isEqual } (.main 0)
      = some { s with main := .print .matchesExpected } := by
    simp only [step, mainStep, if_pos hcounter]
  have hprint : step { s with main := .print .matchesExpected } (.main 0)
      = some { s with
          main := .returned .matchesExpected
          stdout := s.stdout ++ [Verdict.matchesExpected.line] } := rfl
  exact ⟨_, reachable_step (reachable_step (reachable_step h hreturn) hequal) hprint, rfl, rfl⟩

/-! ## A queue that waits -/

/-- `wq_wait` has returned. -/
def MainPc.waited : MainPc → Bool
  | .isEqual | .isMore | .isPositive | .print _ | .returned _ => true
  | _ => false

/-- No task is running when `wq_wait` returns, and none is started afterwards. -/
def Waited (s : State N W) : Action N W → Prop
  | .main _ => s.main = .wait → ∀ w, s.worker w = .idle
  | .start _ _ => s.main.waited = false
  | .mainRuns _ | .worker _ => True

instance (s : State N W) : (a : Action N W) → Decidable (Waited s a)
  | .main _ => inferInstanceAs (Decidable (s.main = .wait → ∀ w, s.worker w = .idle))
  | .start _ _ => inferInstanceAs (Decidable (s.main.waited = false))
  | .mainRuns _ | .worker _ => inferInstanceAs (Decidable True)

/-- What `main` has found so far is so. -/
def Found (N counter : Nat) : MainPc → Prop
  | .isMore => counter ≠ N
  | .isPositive => counter ≠ N ∧ ¬ N < counter
  | .print v | .returned v => v = verdict N counter
  | _ => True

theorem found_of_not_waited {pc : MainPc} {counter : Nat} (h : pc.waited = false) :
    Found N counter pc := by
  cases pc with
  | create | submit _ | submitted _ | wait | exited => exact trivial
  | isEqual | isMore | isPositive | print _ | returned _ => cases h

/-- `wq_wait` has returned at the end of all tasks. -/
structure Settled (s : State N W) : Prop where
  idle : s.main.waited = true → ∀ w, s.worker w = .idle
  found : Found N s.counter s.main
  printed : ∀ v, s.main = .returned v → s.stdout.getLast? = some v.line

/-- `main` goes on, and `wq_wait` does not return. -/
theorem Settled.goto (h : Settled s) {pc : MainPc} {stdout : List String}
    (hpc : pc.waited = true → s.main.waited = true) (hfound : Found N s.counter pc)
    (hprinted : ∀ v, pc = .returned v → stdout.getLast? = some v.line) :
    Settled { s with main := pc, stdout } :=
  ⟨fun hwaited => h.idle (hpc hwaited), hfound, hprinted⟩

theorem Settled.mainStep {s' : State N W} (h : Settled s)
    (hreturn : s.main = .wait → ∀ w, s.worker w = .idle) (hstep : MainStep s s') : Settled s' := by
  have hfound := h.found
  cases hstep with
  | test t =>
    show Settled { s with
      main := if t.2 then .exited else loop N (s.main.allocated N), stdout := _ }
    unfold loop
    split_ifs
    · exact h.goto Bool.noConfusion trivial fun _ hv => by cases hv
    · exact ⟨Bool.noConfusion, trivial, fun _ hv => by cases hv⟩
    · exact h.goto Bool.noConfusion trivial fun _ hv => by cases hv
  | submit hi pc => exact ⟨Bool.noConfusion, trivial, fun _ hv => by cases hv⟩
  | returns pc => exact ⟨fun _ => hreturn pc, trivial, fun _ hv => by cases hv⟩
  | isEqual pc =>
    split_ifs with heq
    · exact h.goto (fun _ => pc ▸ rfl) (if_pos heq).symm fun _ hv => by cases hv
    · exact h.goto (fun _ => pc ▸ rfl) heq fun _ hv => by cases hv
  | isMore pc =>
    rw [pc] at hfound
    split_ifs with hmany
    · refine h.goto (fun _ => pc ▸ rfl) ?_ fun _ hv => by cases hv
      show _ = verdict N s.counter
      rw [verdict, if_neg hfound, if_pos hmany]
    · exact h.goto (fun _ => pc ▸ rfl) ⟨hfound, hmany⟩ fun _ hv => by cases hv
  | isPositive pc =>
    rw [pc] at hfound
    split_ifs with hfew
    · refine h.goto (fun _ => pc ▸ rfl) ?_ fun _ hv => by cases hv
      show _ = verdict N s.counter
      rw [verdict, if_neg hfound.1, if_neg hfound.2, if_pos hfew]
    · refine h.goto (fun _ => pc ▸ rfl) ?_ fun _ hv => by cases hv
      show _ = verdict N s.counter
      rw [verdict, if_neg hfound.1, if_neg hfound.2, if_neg hfew]
  | print pc =>
    rw [pc] at hfound
    refine h.goto (fun _ => pc ▸ rfl) hfound fun v hv => ?_
    cases hv
    exact List.getLast?_concat
  | exits stdout => exact h.goto Bool.noConfusion trivial fun _ hv => by cases hv

/-- A worker goes on before `wq_wait` has returned. -/
theorem Settled.workerStep {s' : State N W} (hwaited : s.main.waited = false)
    (hstep : WorkerStep s w s') : Settled s' := by
  have hmain : s'.main = s.main := by cases hstep <;> rfl
  have hwaited' : s'.main.waited = false := hmain ▸ hwaited
  refine ⟨fun h => absurd (hwaited'.symm.trans h) Bool.false_ne_true, found_of_not_waited hwaited',
    fun v hv => ?_⟩
  rw [hv] at hwaited'
  cases hwaited'

theorem Settled.step {s' : State N W} (h : Settled s) {a : Action N W} (hgood : Waited s a)
    (hstep : step s a = some s') : Settled s' := by
  cases a with
  | main result => exact h.mainStep hgood (mainStep_cases hstep)
  | mainRuns k =>
    simp only [WorkQueueTest.step] at hstep
    split_ifs at hstep with hcalling
    unfold mainRunsStep at hstep
    split_ifs at hstep
    cases hstep
    exact h.goto Bool.noConfusion trivial fun _ hv => by cases hv
  | start w k =>
    simp only [WorkQueueTest.step] at hstep
    split_ifs at hstep
    exact Settled.workerStep hgood (startStep_cases hstep)
  | worker w =>
    simp only [WorkQueueTest.step] at hstep
    split_ifs at hstep
    cases hwaited : s.main.waited with
    | false => exact Settled.workerStep hwaited (workerStep_cases hstep)
    | true =>
      simp only [WorkQueueTest.workerStep, h.idle hwaited w] at hstep
      cases hstep

/-- **The verdict is right** if no task is running when `wq_wait` returns and none is
started afterwards, and it is what `main` has printed. -/
theorem verdict_exact {v : Verdict} {as : List (Action N W)}
    (halong : (program N W).Along Waited (initial N W) as)
    (hrun : (program N W).run (initial N W) as = some s) (hreturned : s.main = .returned v) :
    Right s.counted v ∧ s.stdout.getLast? = some v.line := by
  have hinit : Settled (initial N W) :=
    ⟨fun h => Bool.noConfusion h, trivial, fun _ hv => by cases hv⟩
  have hsettled : Settled s := halong.invariant (fun _ _ _ hs hgood hstep => hs.step hgood hstep)
    hrun hinit
  have haccounted := accounted ⟨as, hrun⟩
  have hidle : ∀ w, s.worker w = .idle := hsettled.idle (by rw [hreturned]; rfl)
  have hfound : v = verdict N s.counter := by
    have hfound := hsettled.found
    rwa [hreturned] at hfound
  refine ⟨?_, hsettled.printed v hreturned⟩
  rw [hfound, haccounted.counter]
  exact right_of_nodup (haccounted.nodup_of_idle hidle)

/-- Task `k` is submitted, and run by worker `w` before `wq_wait` returns. -/
def oneTask (w : Fin W) (k : Fin N) : List (Action N W) :=
  [.main 1, .main 0, .main 1, .start w k, .worker w, .worker w, .worker w, .worker w, .worker w,
    .worker w, .worker w, .main 0, .main 0, .main 0]

theorem verdict_exact_oneTask : ∃ s, (program 1 1).run (initial 1 1) (oneTask 0 0) = some s ∧
    Right s.counted .matchesExpected ∧
      s.stdout.getLast? = some (pass "counter matches the expected value.") := by
  have hrun : ((program 1 1).run (initial 1 1) (oneTask 0 0)).map State.main
      = some (.returned .matchesExpected) := rfl
  obtain ⟨s, hs, hreturned⟩ := Option.map_eq_some_iff.mp hrun
  exact ⟨s, hs, verdict_exact (by decide) hs hreturned⟩

/-! ## A queue that does not wait -/

/-- Worker `w` has made the count `m` although task `missed` has not run; the tasks from
`m` on can be executed. -/
structure Behind (w : Fin W) (missed : Fin N) (m : Nat) (s : State N W) : Prop where
  reachable : (program N W).Reachable s
  main : s.main = .wait
  idle : s.worker w = .idle
  arg : ∀ j : Fin N, m ≤ j.val → s.arg j = .allocated
  mainlock : s.mainlock = none
  counter : s.counter = m
  missed : missed ∉ s.counted

theorem Behind.succ {missed : Fin N} {m : Nat} (h : Behind w missed m s) (hm : m < N)
    (hmissed : missed.val < m) : ∃ s' : State N W, Behind w missed (m + 1) s' := by
  obtain ⟨s', hreach, hexecutes⟩ := exists_executes h.reachable h.main h.idle
    (h.arg ⟨m, hm⟩ (Nat.le_refl m)) h.mainlock
  refine ⟨s', hreach, hexecutes.main, ?_, fun j hj => ?_, hexecutes.mainlock, ?_, ?_⟩
  · rw [hexecutes.worker, Function.update_self]
  · have hne : j ≠ ⟨m, hm⟩ := fun h => absurd (congrArg Fin.val h) (Nat.ne_of_gt hj)
    rw [hexecutes.arg, Function.update_of_ne hne]
    exact h.arg j (Nat.le_of_succ_le hj)
  · rw [hexecutes.counter, h.counter]
  · rw [hexecutes.counted]
    refine List.not_mem_append h.missed fun hmem => ?_
    exact Nat.ne_of_lt hmissed (congrArg Fin.val (List.mem_singleton.mp hmem))

/-- Both workers have counted task 0, and one of them goes on with task 2. -/
theorem exists_behind (hN : 2 ≤ N) (hW : 2 ≤ W) :
    ∃ s : State N W, Behind ⟨0, by omega⟩ ⟨1, hN⟩ 2 s := by
  obtain ⟨s, hs⟩ : ∃ s : State N W, Submitting N s := exists_submitting N (Nat.le_refl N)
  have hmain : s.main = .wait := by rw [hs.main, loop, if_neg (Nat.lt_irrefl N)]
  have hlive (j : Fin N) : s.arg j = .allocated := hs.arg j j.isLt
  let first : Fin N := ⟨0, by omega⟩
  obtain ⟨s₁, h₁, hcounts⟩ := exists_counts (w := ⟨1, hW⟩) hs.reachable hmain (hs.idle _)
    (hlive first) hs.mainlock
  have hidle : s₁.worker ⟨0, by omega⟩ = .idle := by
    rw [hcounts.worker, Function.update_of_ne (fun h => absurd (congrArg Fin.val h) Nat.zero_ne_one)]
    exact hs.idle _
  have hlive₁ (j : Fin N) : s₁.arg j = .allocated := by rw [hcounts.arg, hlive]
  obtain ⟨s₂, h₂, hexecutes⟩ := exists_executes h₁ hcounts.main hidle (hlive₁ first)
    hcounts.mainlock
  refine ⟨s₂, h₂, hexecutes.main, ?_, fun j hj => ?_, hexecutes.mainlock, ?_, ?_⟩
  · rw [hexecutes.worker, Function.update_self]
  · have hne : j ≠ first := fun h => absurd (congrArg Fin.val h) (Nat.ne_of_gt (Nat.lt_of_succ_lt hj))
    rw [hexecutes.arg, Function.update_of_ne hne, hlive₁]
  · rw [hexecutes.counter, hcounts.counter, hs.counter]
  · rw [hexecutes.counted, hcounts.counted, hs.counted]
    simp [first]

/-- **When the test can pass although a task has not run.** -/
theorem fooled_iff (N W : Nat) : (∃ s, (program N W).Reachable s ∧
    s.main = .returned .matchesExpected ∧ ∃ k, k ∉ s.counted) ↔ 2 ≤ N ∧ 2 ≤ W := by
  constructor
  · rintro ⟨s, hreach, hreturned, k, hk⟩
    have h := accounted hreach
    have hlength : N ≤ s.counted.length := by
      rw [← h.counter]
      refine h.matched ?_
      rw [hreturned]
      exact trivial
    -- a task that has not run is made up for by one that has run twice
    have htwice : ¬ s.counted.Nodup := by
      intro hnodup
      have hperm := (subperm_finRange hnodup).perm_of_length_le (List.length_finRange.trans_le hlength)
      exact hk (hperm.mem_iff.mpr (List.mem_finRange k))
    constructor
    · by_contra hN
      obtain ⟨j, hj⟩ : ∃ j, j ∈ s.counted :=
        List.exists_mem_of_length_pos (Nat.lt_of_lt_of_le k.pos hlength)
      have hjk : j = k := Fin.ext (by omega)
      exact hk (hjk ▸ hj)
    · by_contra hW
      exact htwice (h.nodup_of_alone (by omega))
  · rintro ⟨hN, hW⟩
    have hbehind (m : Nat) (hm : m + 2 ≤ N) :
        ∃ s : State N W, Behind ⟨0, by omega⟩ ⟨1, hN⟩ (m + 2) s := by
      induction m with
      | zero => exact exists_behind hN hW
      | succ m ih =>
        obtain ⟨s, hs⟩ := ih (Nat.le_of_succ_le hm)
        exact hs.succ hm (by simp)
    obtain ⟨s, hs⟩ := hbehind (N - 2) (by omega)
    rw [Nat.sub_add_cancel hN] at hs
    obtain ⟨s', hreach, hmatched, hcounted⟩ := exists_matched hs.reachable hs.main hs.counter
    exact ⟨s', hreach, hmatched, ⟨1, hN⟩, hcounted ▸ hs.missed⟩

end WorkQueueTest
end SystemsCourse
