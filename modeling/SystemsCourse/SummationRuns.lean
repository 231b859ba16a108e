import SystemsCourse.ForkJoinTermination
import SystemsCourse.LockFreeSum
import SystemsCourse.LockedSum

/-!
# Every run of the two summations ends

The programs of `pthreadex.c` and `pthreadex3.c` come to an end whatever the schedule,
and what they print does not depend on it.  A thread's measure is what it has left of
its loop; with the lock a thread may have to wait, but then the owner of the lock can
go on (`Invariant.ended_of_stuck`).
-/
namespace SystemsCourse
open Worker

namespace LockedSum
variable {T N : Nat} {g g' : Globals T} {f : Fin T → Option Adder} {t : Fin T} {a a' : Adder}

/-! ## Every run ends -/

/-- How many steps a thread has left. -/
def Adder.stepsLeft (N : Nat) (a : Adder) : Nat :=
  match a.pc with
  | .forTest => 6 * (N - a.completed) + 1
  | .lock => 6 * (N - a.completed)
  | .readSum => 6 * (N - a.completed) - 1
  | .writeSum _ => 6 * (N - a.completed) - 2
  | .unlock => 6 * (N - a.completed) - 3
  | .forIncrement => 6 * (N - a.completed) + 2
  | .finished => 0

theorem Adder.stepsLeft_step (h : a.Counts N) (hstep : AdderStep N g t a g' a') :
    a'.stepsLeft N < a.stepsLeft N := by
  unfold Counts at h
  cases hstep with
  | go pc _ | stop pc _ | lock pc _ | readSum pc | writeSum pc | unlock pc | forIncrement pc =>
    rw [pc] at h
    simp only [stepsLeft, pc]
    omega

/-- Only a thread that wants the lock may have to wait. -/
theorem pc_eq_lock_of_adderStep (h : adderStep N g t a = none) (hpc : a.pc ≠ .finished) :
    a.pc = .lock ∧ g.owner ≠ none := by
  unfold adderStep at h
  cases hp : a.pc with
  | lock =>
    simp only [hp] at h
    split_ifs at h with hfree
    exact ⟨rfl, hfree⟩
  | finished => exact absurd hp hpc
  | _ => simp [hp] at h

/-- **There is no deadlock**: the owner of the lock can go on. -/
theorem Invariant.ended_of_stuck (h : Invariant N g f)
    (hstuck : ∀ t a, f t = some a → LockedSum.adderStep N g t a = none) (hf : f t = some a) :
    a.pc = .finished := by
  by_contra hpc
  obtain ⟨-, howner⟩ := pc_eq_lock_of_adderStep (hstuck t a hf) hpc
  obtain ⟨u, hu⟩ := Option.ne_none_iff_exists'.mp howner
  obtain ⟨b, hb, hin⟩ := (h.lock u).mp hu
  have hb' : b.pc ≠ .finished := by
    intro hb'
    rw [hb'] at hin
    exact hin
  obtain ⟨hlock, -⟩ := pc_eq_lock_of_adderStep (hstuck u b hb) hb'
  rw [hlock] at hin
  exact hin

/-- What all threads together have added when they have ended. -/
theorem Invariant.sum_of_ended (h : Invariant N g f)
    (hended : ∀ t, ∃ a, f t = some a ∧ (adder T N).ended a) :
    g.sum.toNat = T * N * (N - 1) / 2 % 2 ^ 64 := by
  have hcontribution (t : Fin T) : contribution (f t) = ∑ j ∈ Finset.range N, j := by
    obtain ⟨a, ha, hend⟩ := hended t
    have hpc : a.pc = .finished := of_decide_eq_true hend
    have hcounts := h.counts t a ha
    unfold Adder.Counts at hcounts
    rw [hpc] at hcounts
    rw [ha, contribution, Adder.terms, hpc, hcounts]
  rw [h.sum, ← mul_sum_range]
  simp only [hcontribution]
  rw [Finset.sum_const, Finset.card_univ, Fintype.card_fin, Nat.nsmul_eq_mul]

theorem terminates (hN : N < 2 ^ 64) :
    (program T N).Terminates (T * (6 * N + 3)) fun s => s.main = .finished := by
  have hends : (program T N).Terminates (T * (Adder.stepsLeft N (adder T N).start + 2))
      fun s => s.main = .finished :=
    Worker.terminates
      (fun s hs t a g' a' ha hstep => Adder.stepsLeft_step
        ((Invariant.of_reachable (fun _ => hN) hs).counts t a ha) (adderStep_cases hstep))
      (fun s hs hstuck t a ha => decide_eq_true
        ((Invariant.of_reachable (fun _ => hN) hs).ended_of_stuck hstuck ha))
  exact hends

/-- **Every run of `pthreadex.c` ends, and all runs print the same.**  Whatever the
schedule, a run can be continued until `main` has joined the threads, it has at most
`T * (6 * N + 3)` steps by then, and `sum` is `T * N * (N - 1) / 2`, modulo 2^64. -/
theorem every_run_prints_sum (hN : N < 2 ^ 64) {ts : List (Actor T)} {s : State T (Globals T) Adder}
    (hrun : (program T N).run (program T N).init ts = some s) :
    ∃ ts' s', (program T N).run s ts' = some s' ∧ s'.main = .finished ∧
      s'.shared.sum.toNat = T * N * (N - 1) / 2 % 2 ^ 64 ∧
      ts.length + ts'.length ≤ T * (6 * N + 3) := by
  obtain ⟨ts', s', hrun', hmain, hle⟩ := (terminates hN).finishes hrun
  have hreach : (program T N).Reachable s' := StepSystem.Reachable.run ⟨ts, hrun⟩ hrun'
  exact ⟨ts', s', hrun', hmain,
    (Invariant.of_reachable (fun _ => hN) hreach).sum_of_ended (ended_of_finished hreach hmain), hle⟩

/-- Thread `u` has added a number, and thread `t` takes the lock. -/
def inTurn (t u : Fin T) : List (Actor T) :=
  [.main, .main, .thread u, .thread t, .thread u, .thread u, .thread u, .thread u, .thread t]

/-- The program as it is: two threads, and `BIG` is 1000000000. -/
theorem every_run_prints_sum_inTurn :
    ∃ s, (program 2 1000000000).run (program 2 1000000000).init (inTurn 0 1) = some s ∧
      ∃ ts' s', (program 2 1000000000).run s ts' = some s' ∧ s'.main = .finished ∧
        s'.shared.sum.toNat = 2 * 1000000000 * (1000000000 - 1) / 2 % 2 ^ 64 ∧
        9 + ts'.length ≤ 2 * (6 * 1000000000 + 3) := by
  have hrun : ((program 2 1000000000).run (program 2 1000000000).init (inTurn 0 1)).isSome := rfl
  obtain ⟨s, hs⟩ := Option.isSome_iff_exists.mp hrun
  exact ⟨s, hs, every_run_prints_sum (by decide) hs⟩

end LockedSum

namespace LockFreeSum
variable {g g' : Subsums} {t : Fin 2} {a a' : Adder}

/-- How many steps a thread has left. -/
def Adder.stepsLeft (a : Adder) : Nat :=
  match a.pc with
  | .forTest => 3 * (big - a.i.toNat) + 1
  | .forBody => 3 * (big - a.i.toNat)
  | .forIncrement => 3 * (big - a.i.toNat) - 1
  | .finished => 0

theorem Adder.stepsLeft_step (h : a.Counts) (hstep : AdderStep g t a g' a') :
    a'.stepsLeft < a.stepsLeft := by
  have hbig : big < 2 ^ 64 := by decide
  unfold Counts at h
  cases hstep with
  | go pc _ | stop pc _ | forBody pc =>
    rw [pc] at h
    simp only [stepsLeft, pc]
    omega
  | forIncrement pc =>
    rw [pc] at h
    have hnext : (a.i + 1).toNat = a.i.toNat + 1 := by
      rw [UInt64.toNat_add, show (1 : UInt64).toNat = 1 from rfl, Nat.mod_eq_of_lt (by omega)]
    simp only [stepsLeft, pc, hnext]
    omega

theorem terminates : program.Terminates (2 * (3 * big + 3)) fun s => s.main = .finished := by
  have hends : program.Terminates (2 * (adder.start.stepsLeft + 2)) fun s => s.main = .finished := by
    refine Worker.terminates (fun s hs t a g' a' ha hstep => Adder.stepsLeft_step
      ((Invariant.of_reachable hs).counts t a ha) (adderStep_cases hstep)) ?_
    -- a thread that has not ended can always take its next step
    intro s hs hstuck t a ha
    have hstop := hstuck t a ha
    show decide (a.pc = .finished) = true
    cases hpc : a.pc with
    | finished => rfl
    | _ => simp [adder, adderStep, hpc] at hstop
  exact hends

/-- **Every run of `pthreadex3.c` ends and prints the same wrong value.**  Whatever the
schedule, a run can be continued until `main` has joined the threads, within
`2 * (3 * big + 3)` steps, and it then prints 7766279621452241920. -/
theorem every_run_prints_result {ts : List (Actor 2)} {s : State 2 Subsums Adder}
    (hrun : program.run program.init ts = some s) :
    ∃ ts' s', program.run s ts' = some s' ∧ s'.main = .finished ∧
      result s' = 7766279621452241920 ∧ ts.length + ts'.length ≤ 2 * (3 * big + 3) := by
  obtain ⟨ts', s', hrun', hmain, hle⟩ := terminates.finishes hrun
  exact ⟨ts', s', hrun', hmain, result_eq (StepSystem.Reachable.run ⟨ts, hrun⟩ hrun') hmain, hle⟩

/-- Thread `t` adds a number before thread `u` is created. -/
def alone (t u : Fin 2) : List (Actor 2) :=
  [.main, .thread t, .thread t, .main, .thread t, .thread u, .thread t, .thread u]

theorem every_run_prints_result_alone :
    ∃ s, program.run program.init (alone 0 1) = some s ∧
      ∃ ts' s', program.run s ts' = some s' ∧ s'.main = .finished ∧
        result s' = 7766279621452241920 ∧ 8 + ts'.length ≤ 2 * (3 * big + 3) := by
  have hrun : (program.run program.init (alone 0 1)).isSome := rfl
  obtain ⟨s, hs⟩ := Option.isSome_iff_exists.mp hrun
  exact ⟨s, hs, every_run_prints_result hs⟩

end LockFreeSum
end SystemsCourse
