import Mathlib.Algebra.BigOperators.Intervals
import SystemsCourse.ForkJoin
import SystemsCourse.LockOwner
import SystemsCourse.ThreadTally

/-!
# `pthreadex.c`: threads that add up under a lock

`T` threads run `mythreadfunc`, each of which adds the numbers below `N` (`BIG`) to
the shared `sum`, one number in each critical section.  Taking the lock, the read of
`sum`, the write of `sum + i` modulo 2^64, giving the lock back and the two parts of
the loop head are one step each.  `completed` is history: how many critical sections
a thread has behind it.

The invariant is that `sum` is what the threads have added, modulo 2^64.  A thread
between its read and its write is inside, so nobody else writes, and what it has read is
still `sum`.  If all numbers together fit in 64 bits, nothing is lost
(`no_addition_lost`).
-/
namespace SystemsCourse
namespace LockedSum
open Worker

/-- Where a thread in `add_up_to_big` is. -/
inductive AdderPc where
  | forTest
  | lock
  | readSum
  | writeSum (read : UInt64)
  | unlock
  | forIncrement
  | finished
deriving DecidableEq

/-- A thread in `add_up_to_big`. -/
structure Adder where
  pc : AdderPc
  i : UInt64
  /-- How many critical sections the thread has completed. -/
  completed : Nat

/-- The global variables. -/
structure Globals (T : Nat) where
  sum : UInt64
  owner : Option (Fin T)

/-- A step of `add_up_to_big` in thread `t`. -/
def adderStep {T : Nat} (N : Nat) (g : Globals T) (t : Fin T) (a : Adder) :
    Option (Globals T × Adder) :=
  match a.pc with
  | .forTest => some (g, { a with pc := if a.i.toNat < N then .lock else .finished })
  | .lock =>
      if g.owner = none then some ({ g with owner := some t }, { a with pc := .readSum }) else none
  | .readSum => some (g, { a with pc := .writeSum g.sum })
  | .writeSum read => some ({ g with sum := read + a.i }, { a with pc := .unlock })
  | .unlock => some ({ g with owner := none },
      { a with pc := .forIncrement, completed := a.completed + 1 })
  | .forIncrement => some (g, { a with pc := .forTest, i := a.i + 1 })
  | .finished => none

/-- A thread that runs `mythreadfunc`. -/
def adder (T N : Nat) : Worker T (Globals T) Adder where
  start := ⟨.forTest, 0, 0⟩
  step := adderStep N
  ended a := a.pc = .finished
  stops g t a h := by
    unfold adderStep
    rw [decide_eq_true_eq] at h
    rw [h]

/-- **The program**, with `T` threads that run `mythreadfunc`. -/
def program (T N : Nat) : StepSystem (State T (Globals T) Adder) (Actor T) :=
  (adder T N).program ⟨0, none⟩

/-! ## What a step does -/

section Cases
variable {T N : Nat} {g g' : Globals T} {t : Fin T} {a a' : Adder}

/-- The steps of a thread, by what it does. -/
inductive AdderStep (N : Nat) (g : Globals T) (t : Fin T) (a : Adder) : Globals T → Adder → Prop where
  | go (pc : a.pc = .forTest) (h : a.i.toNat < N) : AdderStep N g t a g { a with pc := .lock }
  | stop (pc : a.pc = .forTest) (h : ¬ a.i.toNat < N) :
      AdderStep N g t a g { a with pc := .finished }
  | lock (pc : a.pc = .lock) (free : g.owner = none) :
      AdderStep N g t a { g with owner := some t } { a with pc := .readSum }
  | readSum (pc : a.pc = .readSum) : AdderStep N g t a g { a with pc := .writeSum g.sum }
  | writeSum {read : UInt64} (pc : a.pc = .writeSum read) :
      AdderStep N g t a { g with sum := read + a.i } { a with pc := .unlock }
  | unlock (pc : a.pc = .unlock) : AdderStep N g t a { g with owner := none }
      { a with pc := .forIncrement, completed := a.completed + 1 }
  | forIncrement (pc : a.pc = .forIncrement) :
      AdderStep N g t a g { a with pc := .forTest, i := a.i + 1 }

theorem adderStep_cases (h : adderStep N g t a = some (g', a')) : AdderStep N g t a g' a' := by
  unfold adderStep at h
  cases hpc : a.pc with
  | forTest =>
    simp only [hpc] at h
    split_ifs at h with hi <;> cases h
    · exact .go hpc hi
    · exact .stop hpc hi
  | lock =>
    simp only [hpc] at h
    split_ifs at h with hfree
    cases h
    exact .lock hpc hfree
  | finished => simp [hpc] at h
  | readSum =>
    simp only [hpc] at h
    cases h
    exact .readSum hpc
  | writeSum read =>
    simp only [hpc] at h
    cases h
    exact .writeSum hpc
  | unlock =>
    simp only [hpc] at h
    cases h
    exact .unlock hpc
  | forIncrement =>
    simp only [hpc] at h
    cases h
    exact .forIncrement hpc

end Cases

/-! ## The invariant -/

/-- The thread is in its critical section. -/
def AdderPc.Inside : AdderPc → Prop
  | .readSum => True
  | .writeSum _ => True
  | .unlock => True
  | _ => False

/-- What the loop variable and the number of completed critical sections have to do
with each other. -/
def Adder.Counts (N : Nat) (a : Adder) : Prop :=
  match a.pc with
  | .forTest => a.i.toNat = a.completed ∧ a.completed ≤ N
  | .forIncrement => a.i.toNat + 1 = a.completed ∧ a.completed ≤ N
  | .finished => a.completed = N
  | _ => a.i.toNat = a.completed ∧ a.completed < N

/-- How many numbers the thread has added: one more than it has completed critical
sections, once it has written. -/
def Adder.terms (a : Adder) : Nat :=
  match a.pc with
  | .unlock => a.completed + 1
  | _ => a.completed

/-- How many critical sections a thread has completed. -/
def completed : Option Adder → Nat
  | none => 0
  | some a => a.completed

/-- What a thread has added to `sum`. -/
def contribution : Option Adder → Nat
  | none => 0
  | some a => ∑ j ∈ Finset.range a.terms, j

section Invariant
variable {T N : Nat} {g g' : Globals T} {f : Fin T → Option Adder} {t : Fin T} {a a' : Adder}

/-- A thread has been created and is in its critical section. -/
def Inside (f : Fin T → Option Adder) (t : Fin T) : Prop := ∃ a, f t = some a ∧ a.pc.Inside

/-- **`sum` is what the threads have added**, modulo 2^64. -/
structure Invariant (N : Nat) (g : Globals T) (f : Fin T → Option Adder) : Prop where
  lock : LockHeld g.owner (Inside f)
  counts : ∀ t a, f t = some a → a.Counts N
  read : ∀ t a r, f t = some a → a.pc = .writeSum r → r = g.sum
  sum : g.sum.toNat = (∑ t, contribution (f t)) % 2 ^ 64

theorem inside_update_self : Inside (Function.update f t (some a)) t ↔ a.pc.Inside := by
  constructor
  · intro h
    obtain ⟨b, hb, hin⟩ := h
    rw [Function.update_self] at hb
    cases hb
    exact hin
  · intro h
    exact ⟨a, Function.update_self _ _ _, h⟩

theorem inside_update_of_ne {x : Option Adder} {u : Fin T} (hu : u ≠ t) :
    Inside (Function.update f t x) u ↔ Inside f u := by
  unfold Inside
  rw [Function.update_of_ne hu]

theorem inside_iff (h : f t = some a) : Inside f t ↔ a.pc.Inside := by
  constructor
  · intro hin
    obtain ⟨b, hb, hin⟩ := hin
    rw [h] at hb
    cases hb
    exact hin
  · intro hin
    exact ⟨a, h, hin⟩

theorem lockHeld_adderStep (h : LockHeld g.owner (Inside f)) (hf : f t = some a)
    (hstep : AdderStep N g t a g' a') :
    LockHeld g'.owner (Inside (Function.update f t (some a'))) := by
  have others {x : Option Adder} (u : Fin T) (hu : u ≠ t) :
      Inside (Function.update f t x) u ↔ Inside f u := inside_update_of_ne hu
  have stays (howner : g'.owner = g.owner) (hpc : a'.pc.Inside ↔ a.pc.Inside) :
      LockHeld g'.owner (Inside (Function.update f t (some a'))) := by
    rw [howner]
    exact h.stay (inside_update_self.trans (hpc.trans (inside_iff hf).symm)) others
  cases hstep with
  | go pc _ | stop pc _ | readSum pc | writeSum pc | forIncrement pc =>
    refine stays rfl ?_
    rw [pc]
    exact Iff.rfl
  | lock pc free =>
    rw [free] at h
    exact h.acquire (inside_update_self.mpr trivial) others
  | unlock pc =>
    exact h.release ((inside_iff hf).mpr (by rw [pc]; trivial)) (mt inside_update_self.mp id) others

/-- A thread's own step keeps its counts. -/
theorem Adder.Counts.step (h : a.Counts N) (hN : N < 2 ^ 64) (hstep : AdderStep N g t a g' a') :
    a'.Counts N := by
  unfold Counts at h
  cases hstep with
  | go pc hi =>
    rw [pc] at h
    exact ⟨h.1, h.1 ▸ hi⟩
  | stop pc hi =>
    rw [pc] at h
    obtain ⟨hi', hle⟩ := h
    show a.completed = N
    omega
  | lock pc _ | readSum pc | writeSum pc =>
    rw [pc] at h
    exact h
  | unlock pc =>
    rw [pc] at h
    exact ⟨congrArg (· + 1) h.1, h.2⟩
  | forIncrement pc =>
    rw [pc] at h
    obtain ⟨hi, hle⟩ := h
    refine ⟨?_, hle⟩
    show (a.i + 1).toNat = a.completed
    rw [UInt64.toNat_add, Nat.mod_eq_of_lt (by rw [show (1 : UInt64).toNat = 1 from rfl]; omega)]
    exact hi

/-! ### No wrap-around -/

/-- What all threads add. -/
theorem mul_sum_range (T N : Nat) : T * ∑ j ∈ Finset.range N, j = T * N * (N - 1) / 2 := by
  have htwice : T * N * (N - 1) = T * (∑ j ∈ Finset.range N, j) * 2 := by
    rw [Nat.mul_assoc T _ 2, Finset.sum_range_id_mul_two, Nat.mul_assoc]
  rw [htwice, Nat.mul_div_cancel _ (by decide)]

/-- If there is a thread at all, the bound is a number of 64 bits. -/
theorem bound_lt (t : Fin T) (hbound : T * N * (N - 1) / 2 < 2 ^ 64) : N < 2 ^ 64 := by
  by_contra hN
  have hle : N ≤ ∑ j ∈ Finset.range N, j := by
    obtain ⟨n, rfl⟩ : ∃ n, N = n + 3 := ⟨N - 3, by omega⟩
    rw [Finset.sum_range_succ, Finset.sum_range_succ]
    omega
  have hpos : 1 ≤ T := t.pos
  rw [← mul_sum_range] at hbound
  have := Nat.mul_le_mul hpos hle
  omega

theorem terms_le (h : a.Counts N) : a.terms ≤ N := by
  unfold Adder.Counts at h
  unfold Adder.terms
  cases hpc : a.pc <;> rw [hpc] at h <;> dsimp only at h ⊢ <;> omega

theorem contribution_le {x : Option Adder} (h : ∀ a, x = some a → a.Counts N) :
    contribution x ≤ ∑ j ∈ Finset.range N, j := by
  cases x with
  | none => exact Nat.zero_le _
  | some a => exact Finset.sum_le_sum_of_subset (Finset.range_mono (terms_le (h a rfl)))

theorem sum_contribution_le (h : ∀ t a, f t = some a → a.Counts N) :
    ∑ t, contribution (f t) ≤ T * N * (N - 1) / 2 := by
  rw [← mul_sum_range]
  calc ∑ t, contribution (f t)
      ≤ ∑ _t : Fin T, ∑ j ∈ Finset.range N, j :=
        Finset.sum_le_sum fun t _ => contribution_le (h t)
    _ = T * ∑ j ∈ Finset.range N, j := by
        rw [Finset.sum_const, Finset.card_univ, Fintype.card_fin, Nat.nsmul_eq_mul]

/-- A step that adds nothing. -/
theorem sum_of_terms_eq (hf : f t = some a) (hterms : a'.terms = a.terms) :
    ∑ u, contribution (Function.update f t (some a') u) = ∑ u, contribution (f u) := by
  have hupdate := sum_update contribution f t (some a')
  rw [hf] at hupdate
  simp only [contribution, hterms] at hupdate
  exact Nat.add_right_cancel hupdate

/-- The write adds the loop variable. -/
theorem sum_of_writeSum {read : UInt64} (hf : f t = some a) (hpc : a.pc = .writeSum read)
    (hi : a.i.toNat = a.completed) :
    ∑ u, contribution (Function.update f t (some { a with pc := .unlock }) u) =
      (∑ u, contribution (f u)) + a.i.toNat := by
  have hupdate := sum_update contribution f t (some { a with pc := .unlock })
  have hold : contribution (f t) = ∑ j ∈ Finset.range a.completed, j := by
    rw [hf, contribution, Adder.terms, hpc]
  have hnew : contribution (some { a with pc := .unlock })
      = ∑ j ∈ Finset.range a.completed, j + a.completed := Finset.sum_range_succ _ _
  omega

theorem Invariant.adderStep (hN : N < 2 ^ 64) (h : Invariant N g f) (hf : f t = some a)
    (hstep : AdderStep N g t a g' a') : Invariant N g' (Function.update f t (some a')) := by
  have hcounts : ∀ u b, Function.update f t (some a') u = some b → b.Counts N :=
    forall_update (fun u b _ => h.counts u b) ((h.counts t a hf).step hN hstep)
  have hlock := lockHeld_adderStep h.lock hf hstep
  -- what the others have read is still `sum`, if this step does not write
  have reads (hsum : g'.sum = g.sum) (ha : ∀ r, a'.pc = .writeSum r → r = g.sum)
      (hterms : a'.terms = a.terms) : Invariant N g' (Function.update f t (some a')) := by
    refine ⟨hlock, hcounts, ?_, ?_⟩
    · intro u b r hb
      rw [hsum]
      exact forall_update (p := fun b => b.pc = .writeSum r → r = g.sum)
        (fun u b _ hb => h.read u b r hb) (ha r) u b hb
    · rw [hsum, sum_of_terms_eq hf hterms]
      exact h.sum
  cases hstep with
  | go pc _ | stop pc _ | lock pc _ | unlock pc | forIncrement pc =>
    exact reads rfl nofun (by simp [Adder.terms, pc])
  | readSum pc =>
    refine reads rfl (fun r hr => ?_) (by simp [Adder.terms, pc])
    cases hr
    rfl
  | @writeSum read pc =>
    obtain rfl : read = g.sum := h.read t a read hf pc
    refine ⟨hlock, hcounts, ?_, ?_⟩
    · -- nobody else is between its read and its write
      intro u b r hb hr
      by_cases hu : u = t
      · rw [hu, Function.update_self] at hb
        cases hb
        cases hr
      · rw [Function.update_of_ne hu] at hb
        have hin : Inside f u := ⟨b, hb, by rw [hr]; trivial⟩
        exact absurd (h.lock.unique hin ⟨a, hf, by rw [pc]; trivial⟩) hu
    · have hself := h.counts t a hf
      unfold Adder.Counts at hself
      rw [pc] at hself
      show (g.sum + a.i).toNat = _
      rw [UInt64.toNat_add, h.sum, sum_of_writeSum hf pc hself.1, Nat.mod_add_mod]

theorem Invariant.create (h : Invariant N g f) (hf : f t = none) :
    Invariant N g (Function.update f t (some (adder T N).start)) := by
  have hnew : (adder T N).start.Counts N := ⟨rfl, Nat.zero_le _⟩
  refine ⟨?_, forall_update (fun u b _ => h.counts u b) hnew, ?_, ?_⟩
  · have hout : ¬ Inside f t := by
      intro hin
      obtain ⟨a, ha, -⟩ := hin
      rw [hf] at ha
      cases ha
    exact h.lock.stay (i := t) (iff_of_false (mt inside_update_self.mp id) hout)
      fun u hu => inside_update_of_ne hu
  · intro u b r hb
    exact forall_update (p := fun b => b.pc = .writeSum r → r = g.sum)
      (fun u b _ hb => h.read u b r hb) (fun hr => by cases hr) u b hb
  · have hupdate := sum_update contribution f t (some (adder T N).start)
    rw [hf] at hupdate
    rw [Nat.add_right_cancel hupdate]
    exact h.sum

theorem invariant_init : Invariant N (⟨0, none⟩ : Globals T) (fun _ => none) where
  lock := .free fun t h => by
    obtain ⟨a, ha, -⟩ := h
    cases ha
  counts _ _ := nofun
  read _ _ _ := nofun
  sum := by simp [contribution]

/-- **The invariant holds in every reachable state**, if the loop variables of the threads
cannot overflow. -/
theorem Invariant.of_reachable (hN : Fin T → N < 2 ^ 64) {s : State T (Globals T) Adder}
    (h : (program T N).Reachable s) : Invariant N s.shared s.thread :=
  invariant (Invariant N) invariant_init (fun _ _ _ hinv hf => hinv.create hf)
    (fun _ _ t _ _ _ hinv hf hstep => hinv.adderStep (hN t) hf (adderStep_cases hstep)) h

/-- What all threads have added is a number of 64 bits. -/
theorem Invariant.sum_eq (hbound : T * N * (N - 1) / 2 < 2 ^ 64) (h : Invariant N g f) :
    g.sum.toNat = ∑ t, contribution (f t) :=
  h.sum.trans (Nat.mod_eq_of_lt (Nat.lt_of_le_of_lt (sum_contribution_le h.counts) hbound))

/-- While the lock is free, what a thread has added are the numbers of its completed
critical sections. -/
theorem Invariant.contribution_eq (h : Invariant N g f) (hfree : g.owner = none) (t : Fin T) :
    contribution (f t) = ∑ j ∈ Finset.range (completed (f t)), j := by
  have hlock := h.lock
  rw [hfree] at hlock
  cases hf : f t with
  | none => rfl
  | some a =>
    have hout : ¬ a.pc.Inside := fun hin => hlock.not_inside t ⟨a, hf, hin⟩
    rw [contribution, completed, Adder.terms]
    cases hpc : a.pc with
    | unlock => exact absurd (by rw [hpc]; trivial) hout
    | _ => rfl

/-- When every thread has ended, the lock is free and each has completed `N`
critical sections. -/
theorem Invariant.of_ended (h : Invariant N g f)
    (hended : ∀ t, ∃ a, f t = some a ∧ (adder T N).ended a) :
    g.owner = none ∧ ∀ t, completed (f t) = N := by
  have hfinished (t : Fin T) : ∃ a, f t = some a ∧ a.pc = .finished := by
    obtain ⟨a, ha, hend⟩ := hended t
    exact ⟨a, ha, of_decide_eq_true hend⟩
  refine ⟨?_, fun t => ?_⟩
  · by_contra howner
    obtain ⟨t, ht⟩ := Option.ne_none_iff_exists'.mp howner
    obtain ⟨a, ha, hpc⟩ := hfinished t
    have hin := (inside_iff ha).mp ((h.lock t).mp ht)
    rw [hpc] at hin
    exact hin
  · obtain ⟨a, ha, hpc⟩ := hfinished t
    have hcounts := h.counts t a ha
    unfold Adder.Counts at hcounts
    rw [hpc] at hcounts
    rw [ha]
    exact hcounts

end Invariant

/-! ## No addition is lost -/

/-- **No addition is lost.**  In every reachable state in which the lock is free,
`sum` is the sum over the threads of the numbers below the number of critical
sections that the thread has completed; and when all threads have been joined, it
is `T * N * (N - 1) / 2`. -/
theorem no_addition_lost {T N : Nat} (hbound : T * N * (N - 1) / 2 < 2 ^ 64)
    {s : State T (Globals T) Adder} (h : (program T N).Reachable s) :
    (s.shared.owner = none →
      s.shared.sum.toNat = ∑ t, ∑ j ∈ Finset.range (completed (s.thread t)), j) ∧
    (s.main = .finished → s.shared.sum.toNat = T * N * (N - 1) / 2) := by
  have hinv := Invariant.of_reachable (fun t => bound_lt t hbound) h
  have hfree (howner : s.shared.owner = none) :
      s.shared.sum.toNat = ∑ t, ∑ j ∈ Finset.range (completed (s.thread t)), j := by
    rw [hinv.sum_eq hbound]
    exact Finset.sum_congr rfl fun t _ => hinv.contribution_eq howner t
  refine ⟨hfree, fun hmain => ?_⟩
  obtain ⟨howner, hcompleted⟩ := hinv.of_ended (ended_of_finished h hmain)
  rw [hfree howner, ← mul_sum_range]
  simp only [hcompleted]
  rw [Finset.sum_const, Finset.card_univ, Fintype.card_fin, Nat.nsmul_eq_mul]

/-- The steps of one thread around its loop. -/
def round {T : Nat} (t : Fin T) : List (Actor T) := List.replicate 6 (.thread t)

/-- Two threads add 0 and 1 each, one after the other. -/
theorem no_addition_lost_two : ∃ s : State 2 (Globals 2) Adder, (program 2 2).Reachable s ∧
    s.main = .finished ∧ s.shared.sum.toNat = 2 * 2 * (2 - 1) / 2 := by
  have hrun : ((program 2 2).run (program 2 2).init ([.main, .main] ++ round 0 ++ round 1 ++ round 0 ++
      round 1 ++ [.thread 0, .thread 1, .main, .main])).isSome := rfl
  obtain ⟨s, hs⟩ := Option.isSome_iff_exists.mp hrun
  have hmain : s.main = .finished := by
    cases hs
    rfl
  exact ⟨s, ⟨_, hs⟩, hmain, (no_addition_lost (by decide) ⟨_, hs⟩).2 hmain⟩

end LockedSum
end SystemsCourse
