import Mathlib.Data.Fintype.Fin
import SystemsCourse.StepSystem
import SystemsCourse.ThreadTally

/-!
# `spinlocks.c`: a lock that spins

`T` threads share a lock and bracket their critical sections with `lock` and `unlock`.
The source says of `test_and_set` that it is atomic; the C text is a load and a store.
Both are modelled: `TestAndSet` says whether a step does all of `test_and_set` or one
access.

If it is atomic, the lock is taken if and only if a thread is inside, and never by two
(`Held`).  If not, every thread may have read the lock before the first of them writes
it, so any number of threads can be inside at once (`crowd_iff`).
-/
namespace SystemsCourse
namespace SpinLock

/-- How much of `test_and_set` is one step. -/
inductive TestAndSet where
  | atomic
  | plain
deriving DecidableEq

/-- Where a thread is; in `store` it is in `test_and_set` and has read `initial`. -/
inductive Pc where
  | outside
  | lock
  | store (initial : Bool)
  | inside
deriving DecidableEq

/-- The lock and the threads. -/
structure State (T : Nat) where
  thelock : Bool
  pc : Fin T → Pc

section Steps
variable {T : Nat} (s : State T) (i : Fin T)

/-- Thread `i` is at `pc` now. -/
def State.move (pc : Pc) : State T := { s with pc := Function.update s.pc i pc }

/-- `test_and_set` has stored `true` and returns `initial`: `lock` calls it once more,
or returns. -/
def State.testedAndSet (initial : Bool) : State T :=
  { s.move i (if initial then .lock else .inside) with thelock := true }

/-- A step of thread `i`. -/
def step (mode : TestAndSet) : Option (State T) :=
  match s.pc i with
  | .outside => some (s.move i .lock)
  | .lock =>
      match mode with
      | .atomic => some (s.testedAndSet i s.thelock)
      | .plain => some (s.move i (.store s.thelock))
  | .store initial => some (s.testedAndSet i initial)
  | .inside => some { s.move i .outside with thelock := false }

end Steps

/-- The lock is free, and all threads are outside. -/
def initial (T : Nat) : State T := ⟨false, fun _ => .outside⟩

/-- **The threads.** -/
def program (T : Nat) (mode : TestAndSet) : StepSystem (State T) (Fin T) :=
  ⟨initial T, fun s i => step s i mode⟩

variable {T k : Nat} {s s' : State T} {i j : Fin T} {mode : TestAndSet}

/-- A thread is in its critical section. -/
abbrev Pc.Inside (pc : Pc) : Prop := pc = .inside

theorem weight_inside : weight Pc.Inside .inside = 1 := weight_pos (p := Pc.Inside) rfl

/-- How many threads are in their critical sections. -/
def State.crowd (s : State T) : Nat := tally Pc.Inside s.pc

/-- One thread moves. -/
theorem crowd_move (s : State T) (i : Fin T) (pc : Pc) :
    (s.move i pc).crowd + weight Pc.Inside (s.pc i) = s.crowd + weight Pc.Inside pc :=
  tally_update s.pc i pc

/-! ## An atomic `test_and_set` -/

/-- **The lock is taken if and only if a thread is inside**, and then by one. -/
structure Held (s : State T) : Prop where
  crowd : s.crowd = if s.thelock then 1 else 0
  undivided : ∀ i initial, s.pc i ≠ .store initial

theorem held_initial : Held (initial T) := by
  refine ⟨?_, fun _ _ => Pc.noConfusion⟩
  exact tally_eq_zero_iff.mpr fun _ => Pc.noConfusion

/-- A thread that moves is not in the middle of `test_and_set`. -/
theorem undivided_update {pc : Pc} (h : ∀ i initial, s.pc i ≠ .store initial)
    (hpc : ∀ initial, pc ≠ .store initial) (j : Fin T) (initial : Bool) :
    Function.update s.pc i pc j ≠ .store initial := by
  by_cases hj : j = i
  · rw [hj, Function.update_self]
    exact hpc initial
  · rw [Function.update_of_ne hj]
    exact h j initial

theorem Held.step (h : Held s) (hstep : step s i .atomic = some s') : Held s' := by
  obtain ⟨hcrowd, hundivided⟩ := h
  have hmove := crowd_move s i
  unfold SpinLock.step at hstep
  cases hpc : s.pc i with
  | outside =>
    simp only [hpc, Option.some.injEq] at hstep
    subst hstep
    have hsame := hmove .lock
    rw [hpc, weight_neg Pc.noConfusion, weight_neg Pc.noConfusion] at hsame
    exact ⟨hsame.trans hcrowd, undivided_update hundivided fun _ => Pc.noConfusion⟩
  | lock =>
    simp only [hpc, Option.some.injEq] at hstep
    subst hstep
    cases hlock : s.thelock with
    | true =>
      have hsame := hmove .lock
      rw [hpc, weight_neg Pc.noConfusion] at hsame
      rw [hlock, if_pos rfl] at hcrowd
      exact ⟨hsame.trans hcrowd, undivided_update hundivided fun _ => Pc.noConfusion⟩
    | false =>
      -- the lock was free, so nobody is inside
      have hmore := hmove .inside
      rw [hpc, weight_neg Pc.noConfusion, weight_inside] at hmore
      rw [hlock, if_neg Bool.false_ne_true] at hcrowd
      exact ⟨hmore.trans (congrArg (· + 1) hcrowd),
        undivided_update hundivided fun _ => Pc.noConfusion⟩
  | store initial => exact absurd hpc (hundivided i initial)
  | inside =>
    simp only [hpc, Option.some.injEq] at hstep
    subst hstep
    have hless := hmove .outside
    rw [hpc, weight_inside, weight_neg Pc.noConfusion] at hless
    refine ⟨?_, undivided_update hundivided fun _ => Pc.noConfusion⟩
    show (s.move i .outside).crowd = 0
    split at hcrowd <;> omega

theorem held (h : (program T .atomic).Reachable s) : Held s :=
  h.invariant held_initial fun _ _ _ hheld hstep => hheld.step hstep

/-! ## A `test_and_set` of two accesses -/

/-- The first `k` threads are at `there`, and the others outside. -/
def front (k : Nat) (there : Pc) (j : Fin T) : Pc := if j.val < k then there else .outside

theorem front_succ (hk : k < T) (there : Pc) :
    Function.update (front k there) ⟨k, hk⟩ there = front (k + 1) there := by
  funext j
  by_cases hj : j = ⟨k, hk⟩
  · rw [hj, Function.update_self, front, if_pos (Nat.lt_succ_self k)]
  · have hne : j.val ≠ k := fun h => hj (Fin.ext h)
    rw [Function.update_of_ne hj, front, front]
    by_cases hlt : j.val < k
    · rw [if_pos hlt, if_pos (Nat.lt_succ_of_lt hlt)]
    · rw [if_neg hlt, if_neg (by omega)]

/-- **Any number of threads reads that the lock is free** before one of them writes. -/
theorem exists_readers (k : Nat) (hk : k ≤ T) : ∃ s : State T,
    (program T .plain).Reachable s ∧ s.thelock = false ∧ s.pc = front k (.store false) := by
  induction k with
  | zero => exact ⟨initial T, StepSystem.reachable_init, rfl, rfl⟩
  | succ k ih =>
    obtain ⟨s, hreach, hlock, hpc⟩ := ih (Nat.le_of_succ_le hk)
    have hat : s.pc ⟨k, hk⟩ = .outside := by
      rw [hpc, front, if_neg (Nat.lt_irrefl k)]
    have hcall : step s ⟨k, hk⟩ .plain = some (s.move ⟨k, hk⟩ .lock) := by
      simp only [step, hat]
    have hread : step (s.move ⟨k, hk⟩ .lock) ⟨k, hk⟩ .plain
        = some ((s.move ⟨k, hk⟩ .lock).move ⟨k, hk⟩ (.store s.thelock)) := by
      simp only [step, State.move, Function.update_self]
    refine ⟨_, (hreach.step hcall).step hread, hlock, ?_⟩
    show Function.update (Function.update s.pc ⟨k, hk⟩ .lock) ⟨k, hk⟩ (.store s.thelock) = _
    rw [Function.update_idem, hpc, hlock]
    exact front_succ hk _

/-- The first `n` of `k` such readers have gone in. -/
theorem exists_inside (n : Nat) (hn : n ≤ k) (hk : k ≤ T) : ∃ s : State T,
    (program T .plain).Reachable s ∧
      s.pc = fun j => if j.val < n then .inside else front k (.store false) j := by
  induction n with
  | zero =>
    obtain ⟨s, hreach, -, hpc⟩ := exists_readers k hk
    refine ⟨s, hreach, ?_⟩
    rw [hpc]
    funext j
    rw [if_neg (Nat.not_lt_zero _)]
  | succ n ih =>
    obtain ⟨s, hreach, hpc⟩ := ih (Nat.le_of_succ_le hn)
    have hat : s.pc ⟨n, by omega⟩ = .store false := by
      rw [hpc]
      dsimp only
      rw [if_neg (Nat.lt_irrefl n), front, if_pos (show n < k from hn)]
    have hstore : step s ⟨n, by omega⟩ .plain
        = some (s.testedAndSet ⟨n, by omega⟩ false) := by
      simp only [step, hat]
    refine ⟨_, hreach.step hstore, ?_⟩
    show Function.update s.pc ⟨n, by omega⟩ .inside = _
    funext j
    by_cases hj : j.val = n
    · rw [show j = ⟨n, by omega⟩ from Fin.ext hj, Function.update_self,
        if_pos (Nat.lt_succ_self n)]
    · rw [Function.update_of_ne (fun h => hj (congrArg Fin.val h)), hpc]
      dsimp only
      by_cases hlt : j.val < n
      · rw [if_pos hlt, if_pos (Nat.lt_succ_of_lt hlt)]
      · rw [if_neg hlt, if_neg (by omega)]

/-! ## How many can be inside -/

/-- How many threads can be in their critical sections at once. -/
def room (T : Nat) : TestAndSet → Nat
  | .atomic => min 1 T
  | .plain => T

theorem crowd_le (h : (program T mode).Reachable s) : s.crowd ≤ room T mode := by
  have hcard : s.crowd ≤ T := by
    have hle := tally_le_card (p := Pc.Inside) (f := s.pc)
    rwa [Fintype.card_fin] at hle
  cases mode with
  | plain => exact hcard
  | atomic =>
    have hcrowd := (held h).crowd
    refine Nat.le_min.mpr ⟨?_, hcard⟩
    rw [hcrowd]
    split <;> omega

theorem crowd_of_inside (hk : k ≤ T)
    (hpc : s.pc = fun j => if j.val < k then .inside else .outside) : s.crowd = k := by
  have hset : (Finset.univ.filter fun j : Fin T => Pc.Inside (s.pc j))
      = Finset.univ.filter fun j : Fin T => j.val < k := by
    refine Finset.filter_congr fun j _ => ?_
    rw [hpc, Pc.Inside]
    by_cases hj : j.val < k
    · simp [hj]
    · simp [hj]
  rw [State.crowd, tally, hset, Fin.card_filter_val_lt, Nat.min_eq_right hk]

/-- **How many threads can be inside at once**: with an atomic `test_and_set` one, with
the two accesses of the C text all of them. -/
theorem crowd_iff (T : Nat) (mode : TestAndSet) (k : Nat) :
    (∃ s, (program T mode).Reachable s ∧ s.crowd = k) ↔ k ≤ room T mode := by
  constructor
  · rintro ⟨s, hreach, rfl⟩
    exact crowd_le hreach
  intro hk
  cases mode with
  | plain =>
    obtain ⟨s, hreach, hpc⟩ := exists_inside k (Nat.le_refl k) hk
    refine ⟨s, hreach, crowd_of_inside hk (hpc.trans ?_)⟩
    funext j
    by_cases hj : j.val < k
    · rw [if_pos hj, if_pos hj]
    · rw [if_neg hj, if_neg hj, front, if_neg hj]
  | atomic =>
    obtain ⟨hone, hT⟩ := Nat.le_min.mp hk
    rcases Nat.le_one_iff_eq_zero_or_eq_one.mp hone with rfl | rfl
    · exact ⟨initial T, StepSystem.reachable_init,
        tally_eq_zero_iff.mpr fun _ => Pc.noConfusion⟩
    · -- the first thread takes the lock
      have hcall : step (initial T) ⟨0, hT⟩ .atomic
          = some ((initial T).move ⟨0, hT⟩ .lock) := rfl
      have henter : (program T .atomic).step ((initial T).move ⟨0, hT⟩ .lock) ⟨0, hT⟩
          = some (((initial T).move ⟨0, hT⟩ .lock).testedAndSet ⟨0, hT⟩ false) := by
        simp only [program, step, State.move, Function.update_self, initial]
      have hwaiting : (program T .atomic).Reachable ((initial T).move ⟨0, hT⟩ .lock) :=
        StepSystem.reachable_init.step hcall
      refine ⟨_, hwaiting.step henter, crowd_of_inside hT ?_⟩
      refine (Function.update_idem _ _ _).trans ?_
      funext j
      by_cases hj : j = ⟨0, hT⟩
      · rw [hj, Function.update_self, if_pos Nat.one_pos]
        rfl
      · have hne : j.val ≠ 0 := fun h => hj (Fin.ext h)
        rw [Function.update_of_ne hj, if_neg (by omega)]
        rfl

end SpinLock
end SystemsCourse
