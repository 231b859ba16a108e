import Mathlib.Algebra.BigOperators.Intervals
import Mathlib.Algebra.Order.BigOperators.Group.Finset
import SystemsCourse.ForkJoin

/-!
# `pthreadex3.c`: two threads that add up without a lock

Each of two threads adds the numbers below `BIG` to an accumulator of its own, in
64-bit arithmetic; `main` prints the sum of the two accumulators when it has joined
the threads.  The test, the body and the increment of the loop are one step each.

Whatever the interleaving, an accumulator is the sum of the numbers that its thread
has added, modulo 2^64 (`Invariant`).  The sum of the numbers below `k` has 64 bits
as long as `k` is at most 6074001000 (`sum_range_lt_iff`), and `BIG` is greater.
-/
namespace SystemsCourse
namespace LockFreeSum
open Worker

/-- Where a thread in `add_up_to_big` is. -/
inductive AdderPc where
  | forTest
  | forBody
  | forIncrement
  | finished
deriving DecidableEq

/-- A thread in `add_up_to_big`. -/
structure Adder where
  pc : AdderPc
  i : UInt64

/-- `BIG`. -/
def big : Nat := 10000000000

/-- `sum1` and `sum2`. -/
abbrev Subsums := Fin 2 → UInt64

/-- A step of `add_up_to_big` in thread `t`, whose argument points to the
accumulator `t`. -/
def adderStep (g : Subsums) (t : Fin 2) (a : Adder) : Option (Subsums × Adder) :=
  match a.pc with
  | .forTest => some (g, { a with pc := if a.i.toNat < big then .forBody else .finished })
  | .forBody => some (Function.update g t (g t + a.i), { a with pc := .forIncrement })
  | .forIncrement => some (g, { a with pc := .forTest, i := a.i + 1 })
  | .finished => none

/-- A thread that runs `mythreadfunc`. -/
def adder : Worker 2 Subsums Adder where
  start := ⟨.forTest, 0⟩
  step := adderStep
  ended a := a.pc = .finished
  stops g t a h := by
    unfold adderStep
    rw [decide_eq_true_eq] at h
    rw [h]

/-- **The program**, where `sysconf` knows the size of a cache line; `main` returns at once
where it does not. -/
def program : StepSystem (State 2 Subsums Adder) (Actor 2) := adder.program fun _ => 0

/-- What `main` prints when it has joined the threads: `sum1 + sum2`. -/
def result (s : State 2 Subsums Adder) : UInt64 := s.shared 0 + s.shared 1

/-! ## What a step does -/

section Cases
variable {g g' : Subsums} {t : Fin 2} {a a' : Adder}

/-- The steps of a thread, by what it does. -/
inductive AdderStep (g : Subsums) (t : Fin 2) (a : Adder) : Subsums → Adder → Prop where
  | go (pc : a.pc = .forTest) (h : a.i.toNat < big) : AdderStep g t a g { a with pc := .forBody }
  | stop (pc : a.pc = .forTest) (h : ¬ a.i.toNat < big) :
      AdderStep g t a g { a with pc := .finished }
  | forBody (pc : a.pc = .forBody) :
      AdderStep g t a (Function.update g t (g t + a.i)) { a with pc := .forIncrement }
  | forIncrement (pc : a.pc = .forIncrement) :
      AdderStep g t a g { a with pc := .forTest, i := a.i + 1 }

theorem adderStep_cases (h : adderStep g t a = some (g', a')) : AdderStep g t a g' a' := by
  unfold adderStep at h
  cases hpc : a.pc with
  | forTest =>
    simp only [hpc] at h
    split_ifs at h with hi <;> cases h
    · exact .go hpc hi
    · exact .stop hpc hi
  | forBody =>
    simp only [hpc] at h
    cases h
    exact .forBody hpc
  | forIncrement =>
    simp only [hpc] at h
    cases h
    exact .forIncrement hpc
  | finished => simp [hpc] at h

end Cases

/-! ## The invariant -/

/-- The loop variable stays within its bound. -/
def Adder.Counts (a : Adder) : Prop :=
  match a.pc with
  | .forTest => a.i.toNat ≤ big
  | .finished => a.i.toNat = big
  | _ => a.i.toNat < big

/-- How many numbers a thread has added: its loop variable, but for the time between
the addition and the increment. -/
def terms : Option Adder → Nat
  | none => 0
  | some a =>
      match a.pc with
      | .forIncrement => a.i.toNat + 1
      | _ => a.i.toNat

/-- **An accumulator is the sum of the numbers that have been added, modulo 2^64.** -/
structure Invariant (g : Subsums) (f : Fin 2 → Option Adder) : Prop where
  counts : ∀ t a, f t = some a → a.Counts
  sum : ∀ t, (g t).toNat = (∑ j ∈ Finset.range (terms (f t)), j) % 2 ^ 64

section Invariant
variable {g g' : Subsums} {f : Fin 2 → Option Adder} {t : Fin 2} {a a' : Adder}

theorem Adder.Counts.step (h : a.Counts) (hstep : AdderStep g t a g' a') : a'.Counts := by
  unfold Counts at h
  cases hstep with
  | go _ hi => exact hi
  | stop pc hi =>
    rw [pc] at h
    exact Nat.le_antisymm h (Nat.not_lt.mp hi)
  | forBody pc =>
    rw [pc] at h
    exact h
  | forIncrement pc =>
    rw [pc] at h
    show (a.i + 1).toNat ≤ big
    rw [UInt64.toNat_add]
    exact Nat.le_trans (Nat.mod_le _ _) h

/-- A step adds the loop variable to the thread's own accumulator, or nothing. -/
theorem terms_step (h : a.Counts) (hstep : AdderStep g t a g' a') :
    (g' = g ∧ terms (some a') = terms (some a)) ∨
      (g' = Function.update g t (g t + a.i) ∧ terms (some a) = a.i.toNat ∧
        terms (some a') = a.i.toNat + 1) := by
  unfold Adder.Counts at h
  cases hstep with
  | go pc _ | stop pc _ => exact Or.inl ⟨rfl, by simp [terms, pc]⟩
  | forBody pc => exact Or.inr ⟨rfl, by simp [terms, pc], rfl⟩
  | forIncrement pc =>
    rw [pc] at h
    refine Or.inl ⟨rfl, ?_⟩
    have hlt : a.i.toNat < 2 ^ 64 - 1 := Nat.lt_trans h (by decide)
    show (a.i + 1).toNat = _
    rw [terms, pc, UInt64.toNat_add, show (1 : UInt64).toNat = 1 from rfl, Nat.mod_eq_of_lt (by omega)]

theorem Invariant.adderStep (h : Invariant g f) (hf : f t = some a) (hstep : AdderStep g t a g' a') :
    Invariant g' (Function.update f t (some a')) := by
  have hcounts := h.counts t a hf
  refine ⟨forall_update (fun u b _ => h.counts u b) (hcounts.step hstep), fun u => ?_⟩
  have hsum := h.sum u
  by_cases hu : u = t
  · subst hu
    rw [Function.update_self]
    rw [hf] at hsum
    rcases terms_step hcounts hstep with ⟨rfl, hterms⟩ | ⟨rfl, hold, hnew⟩
    · rw [hterms]
      exact hsum
    · rw [Function.update_self, UInt64.toNat_add, hsum, hold, hnew, Finset.sum_range_succ,
        Nat.mod_add_mod]
  · -- the step leaves the accumulator of another thread alone
    rw [Function.update_of_ne hu]
    rcases terms_step hcounts hstep with ⟨rfl, -⟩ | ⟨rfl, -⟩
    · exact hsum
    · rw [Function.update_of_ne hu]
      exact hsum

theorem Invariant.create (h : Invariant g f) (hf : f t = none) :
    Invariant g (Function.update f t (some adder.start)) := by
  refine ⟨forall_update (fun u b _ => h.counts u b) (Nat.zero_le _), fun u => ?_⟩
  by_cases hu : u = t
  · have hsum := h.sum u
    subst hu
    rw [hf] at hsum
    rw [Function.update_self]
    exact hsum
  · rw [Function.update_of_ne hu]
    exact h.sum u

/-- **The invariant holds in every reachable state.** -/
theorem Invariant.of_reachable {s : State 2 Subsums Adder} (h : program.Reachable s) :
    Invariant s.shared s.thread :=
  invariant Invariant ⟨nofun, fun _ => rfl⟩ (fun _ _ _ hinv hf => hinv.create hf)
    (fun _ _ _ _ _ _ hinv hf hstep => hinv.adderStep hf (adderStep_cases hstep)) h

/-- A thread that has ended has added all numbers below `BIG`. -/
theorem Invariant.terms_of_ended (h : Invariant g f)
    (hended : ∃ a, f t = some a ∧ adder.ended a) : terms (f t) = big := by
  obtain ⟨a, ha, hend⟩ := hended
  have hpc : a.pc = .finished := of_decide_eq_true hend
  have hcounts := h.counts t a ha
  unfold Adder.Counts at hcounts
  rw [hpc] at hcounts
  rw [ha, terms, hpc]
  exact hcounts

end Invariant

/-! ## Where the sum has 64 bits -/

theorem sum_range_lt_iff {k : Nat} : ∑ j ∈ Finset.range k, j < 2 ^ 64 ↔ k ≤ 6074001000 := by
  have hbelow : ∑ j ∈ Finset.range 6074001000, j < 2 ^ 64 := by
    rw [Finset.sum_range_id]
    decide
  have habove : 2 ^ 64 ≤ ∑ j ∈ Finset.range 6074001001, j := by
    rw [Finset.sum_range_id]
    decide
  have hmono {k l : Nat} (h : k ≤ l) : ∑ j ∈ Finset.range k, j ≤ ∑ j ∈ Finset.range l, j :=
    Finset.sum_le_sum_of_subset (Finset.range_mono h)
  constructor
  · intro h
    by_contra hk
    have := hmono (show 6074001001 ≤ k by omega)
    omega
  · intro h
    exact Nat.lt_of_le_of_lt (hmono h) hbelow

/-- The state shows true sums: each accumulator is the sum of the numbers that its
thread has added, and the value that is printed after the joins is the sum of all. -/
def ShowsTrueSums (s : State 2 Subsums Adder) : Prop :=
  (∀ t, (s.shared t).toNat = ∑ j ∈ Finset.range (terms (s.thread t)), j) ∧
    (s.main = .finished → (result s).toNat = big * (big - 1))

/-- **The sums are true if and only if** no thread has added more than 6074001000
numbers. -/
theorem showsTrueSums_iff {s : State 2 Subsums Adder} (h : program.Reachable s) :
    ShowsTrueSums s ↔ ∀ t, terms (s.thread t) ≤ 6074001000 := by
  have hinv := Invariant.of_reachable h
  constructor
  · intro htrue t
    rw [← sum_range_lt_iff, ← htrue.1 t]
    exact (s.shared t).toNat_lt
  · intro hfew
    refine ⟨fun t => ?_, fun hmain => ?_⟩
    · rw [hinv.sum t, Nat.mod_eq_of_lt (sum_range_lt_iff.mpr (hfew t))]
    · -- a thread that has been joined has added more
      have hterms := hinv.terms_of_ended (ended_of_finished h hmain 0)
      have hle := hfew 0
      rw [hterms] at hle
      exact absurd hle (by decide)

/-- One thread has gone around its loop twice. -/
theorem showsTrueSums_two_passes : ∃ s, program.Reachable s ∧ s.shared 0 = 1 ∧ ShowsTrueSums s := by
  have hrun : (program.run program.init ([.main, .main] ++ List.replicate 6 (.thread 0))).isSome := rfl
  obtain ⟨s, hs⟩ := Option.isSome_iff_exists.mp hrun
  have hstate : s.shared 0 = 1 ∧ ∀ t, terms (s.thread t) ≤ 6074001000 := by
    cases hs
    exact ⟨rfl, by decide⟩
  exact ⟨s, ⟨_, hs⟩, hstate.1, (showsTrueSums_iff ⟨_, hs⟩).mpr hstate.2⟩

/-! ## A complete run -/

section CompleteRun
variable {s s' s'' : State 2 Subsums Adder} {t : Fin 2} {a a' : Adder}

/-- Steps of thread `t` lead from `s` to `s'`. -/
def Advances (t : Fin 2) (s s' : State 2 Subsums Adder) : Prop :=
  ∃ ts, program.run s ts = some s' ∧ (∀ u, u ≠ t → s'.thread u = s.thread u) ∧ s'.main = s.main

theorem Advances.trans (h : Advances t s s') (h' : Advances t s' s'') : Advances t s s'' := by
  obtain ⟨ts, hrun, hothers, hmain⟩ := h
  obtain ⟨ts', hrun', hothers', hmain'⟩ := h'
  exact ⟨ts ++ ts', StepSystem.run_append_eq_some_iff.mpr ⟨s', hrun, hrun'⟩,
    fun u hu => (hothers' u hu).trans (hothers u hu), hmain'.trans hmain⟩

theorem exists_advances {g' : Subsums} (hthread : s.thread t = some a)
    (hstep : adderStep s.shared t a = some (g', a')) :
    ∃ s', Advances t s s' ∧ s'.thread t = some a' :=
  ⟨_, ⟨[.thread t], StepSystem.run_cons_eq_some_iff.mpr ⟨_, step_thread hthread hstep, rfl⟩,
    fun _ hu => Function.update_of_ne hu _ _, rfl⟩, Function.update_self _ _ _⟩

/-- The test, the body and the increment lead back to the test. -/
theorem exists_pass {i : UInt64} (hthread : s.thread t = some ⟨.forTest, i⟩) (hi : i.toNat < big) :
    ∃ s', Advances t s s' ∧ s'.thread t = some ⟨.forTest, i + 1⟩ := by
  have htest : adderStep s.shared t ⟨.forTest, i⟩ = some (s.shared, ⟨.forBody, i⟩) := by
    simp only [adderStep]
    rw [if_pos hi]
  obtain ⟨s₁, h₁, hthread₁⟩ := exists_advances hthread htest
  obtain ⟨s₂, h₂, hthread₂⟩ := exists_advances hthread₁ rfl
  obtain ⟨s₃, h₃, hthread₃⟩ := exists_advances hthread₂ rfl
  exact ⟨s₃, (h₁.trans h₂).trans h₃, hthread₃⟩

/-- A thread in front of its loop test can run to its end. -/
theorem exists_run_to_end (n : Nat) {s : State 2 Subsums Adder} {i : UInt64}
    (hthread : s.thread t = some ⟨.forTest, i⟩) (hi : i.toNat + n = big) :
    ∃ s', Advances t s s' ∧ ∃ j, s'.thread t = some ⟨.finished, j⟩ := by
  induction n generalizing s i with
  | zero =>
    have htest : adderStep s.shared t ⟨.forTest, i⟩ = some (s.shared, ⟨.finished, i⟩) := by
      simp only [adderStep]
      rw [if_neg (by omega)]
    obtain ⟨s', h, hend⟩ := exists_advances hthread htest
    exact ⟨s', h, i, hend⟩
  | succ n ih =>
    obtain ⟨s₁, h₁, hthread₁⟩ := exists_pass hthread (by omega)
    have hnext : (i + 1).toNat + n = big := by
      have : big < 2 ^ 64 := by decide
      rw [UInt64.toNat_add, show (1 : UInt64).toNat = 1 from rfl, Nat.mod_eq_of_lt (by omega)]
      omega
    obtain ⟨s₂, h₂, hend⟩ := ih hthread₁ hnext
    exact ⟨s₂, h₁.trans h₂, hend⟩

/-- The program can run to its end. -/
theorem exists_reachable_finished : ∃ s, program.Reachable s ∧ s.main = .finished := by
  have hcreate : (program.run program.init [.main, .main]).isSome := rfl
  obtain ⟨s₀, h₀⟩ := Option.isSome_iff_exists.mp hcreate
  have hstart : s₀.thread 0 = some ⟨.forTest, 0⟩ ∧ s₀.thread 1 = some ⟨.forTest, 0⟩ ∧
      s₀.main = .join 0 := by
    cases h₀
    exact ⟨rfl, rfl, rfl⟩
  obtain ⟨hthread₀, hthread₁, hmain⟩ := hstart
  obtain ⟨s₁, ⟨ts₁, h₁, hothers₁, hmain₁⟩, j₀, hend₀⟩ := exists_run_to_end big hthread₀ (Nat.zero_add _)
  rw [← hothers₁ 1 (by decide)] at hthread₁
  obtain ⟨s₂, ⟨ts₂, h₂, hothers₂, hmain₂⟩, j₁, hend₁⟩ := exists_run_to_end big hthread₁ (Nat.zero_add _)
  rw [← hothers₂ 0 (by decide)] at hend₀
  -- `main` joins the two threads
  have hjoin : s₂.main = .join 0 := hmain₂.trans (hmain₁.trans hmain)
  have h₃ := step_join (W := adder) (g := fun _ => 0) hjoin (by decide) hend₀ rfl
  have h₄ := step_join (W := adder) (g := fun _ => 0) (s := { s₂ with main := joinLoop 2 1 }) rfl
    (by decide) hend₁ rfl
  have hreach : program.Reachable s₀ := ⟨_, h₀⟩
  exact ⟨_, (((hreach.run h₁).run h₂).step h₃).step h₄, rfl⟩

end CompleteRun

/-- What every complete run prints. -/
theorem result_eq {s : State 2 Subsums Adder} (h : program.Reachable s) (hmain : s.main = .finished) :
    result s = 7766279621452241920 := by
  have hinv := Invariant.of_reachable h
  have hsum (t : Fin 2) : (s.shared t).toNat = 13106511847580896768 := by
    rw [hinv.sum t, hinv.terms_of_ended (ended_of_finished h hmain t), Finset.sum_range_id]
    decide
  refine UInt64.toNat_inj.mp ?_
  rw [result, UInt64.toNat_add, hsum, hsum]
  rfl

/-- **A complete run prints a wrong value.** -/
theorem prints_wrapped_sum : ∃ s, program.Reachable s ∧ s.main = .finished ∧
    result s = 7766279621452241920 ∧ (result s).toNat ≠ big * (big - 1) ∧ ¬ ShowsTrueSums s := by
  obtain ⟨s, h, hmain⟩ := exists_reachable_finished
  have hresult := result_eq h hmain
  have hne : (result s).toNat ≠ big * (big - 1) := by
    rw [hresult]
    decide
  exact ⟨s, h, hmain, hresult, hne, fun htrue => hne (htrue.2 hmain)⟩

end LockFreeSum
end SystemsCourse
