import Mathlib.Algebra.Order.BigOperators.Group.Finset
import SystemsCourse.ForkJoin
import SystemsCourse.StepProgress
import SystemsCourse.ThreadTally

/-!
# Programs that fork and join come to an end

A program that forks and joins comes to an end if each of its threads would: there is
a measure of a thread that falls with every step that the thread takes, and when no
thread can take a step, all threads that have been created have ended (`terminates`).
What `main` itself does is two steps for each thread.
-/
namespace SystemsCourse
namespace Worker
variable {T : Nat} {Shared Local : Type}

/-- How many steps `main` has left. -/
def MainPc.stepsLeft (T : Nat) : MainPc → Nat
  | .create i => 2 * T - i
  | .join i => T - i
  | .finished => 0

/-- What a thread has left, if it has been created. -/
def threadLeft (W : Worker T Shared Local) (left : Local → Nat) : Option Local → Nat
  | none => left W.start
  | some l => left l

/-- What the whole program has left. -/
def State.stepsLeft (W : Worker T Shared Local) (left : Local → Nat) (s : State T Shared Local) : Nat :=
  ∑ t, threadLeft W left (s.thread t) + s.main.stepsLeft T

variable {W : Worker T Shared Local} {left : Local → Nat} {s s' : State T Shared Local} {g : Shared}

@[simp] theorem threadLeft_none : threadLeft W left none = left W.start := rfl

@[simp] theorem threadLeft_some {l : Local} : threadLeft W left (some l) = left l := rfl

theorem stepsLeft_joinLoop (T i : Nat) : (joinLoop T i).stepsLeft T = T - i := by
  unfold joinLoop
  split_ifs <;> simp only [MainPc.stepsLeft]
  omega

theorem stepsLeft_createLoop (T i : Nat) (h : i ≤ T) : (createLoop T i).stepsLeft T = 2 * T - i := by
  unfold createLoop
  split_ifs
  · rfl
  · rw [stepsLeft_joinLoop]
    omega

theorem stepsLeft_init : ((W.program g).init).stepsLeft W left = T * (left W.start + 2) := by
  show ∑ _t : Fin T, left W.start + (createLoop T 0).stepsLeft T = _
  rw [stepsLeft_createLoop T 0 (Nat.zero_le _), Finset.sum_const, Finset.card_univ, Fintype.card_fin,
    Nat.nsmul_eq_mul, Nat.mul_add]
  omega

/-- **Every step lowers what is left**, if a thread's own steps do. -/
theorem stepsLeft_step (hphases : Phases W s)
    (hfalls : ∀ t l g' l', s.thread t = some l → W.step s.shared t l = some (g', l') → left l' < left l)
    (hstep : W.Step s s') : s'.stepsLeft W left < s.stepsLeft W left := by
  cases hstep with
  | @thread t l l' g' running step =>
    have hupdate := sum_update (threadLeft W left) s.thread t (some l')
    rw [running, threadLeft_some, threadLeft_some] at hupdate
    have hfall := hfalls t l g' l' running step
    show ∑ u, threadLeft W left (Function.update s.thread t (some l') u) + s.main.stepsLeft T < _
    unfold State.stepsLeft
    omega
  | @create i pc hi =>
    have hnone : s.thread ⟨i, hi⟩ = none := by
      rw [hphases.created, pc]
      exact Nat.le_refl _
    have hupdate := sum_update (threadLeft W left) s.thread ⟨i, hi⟩ (some W.start)
    rw [hnone, threadLeft_none, threadLeft_some] at hupdate
    show ∑ u, threadLeft W left (Function.update s.thread ⟨i, hi⟩ (some W.start) u) +
      (createLoop T (i + 1)).stepsLeft T < _
    rw [State.stepsLeft, pc, stepsLeft_createLoop T (i + 1) hi]
    simp only [MainPc.stepsLeft]
    omega
  | @join i pc hi l running ended =>
    show ∑ t, threadLeft W left (s.thread t) + (joinLoop T (i + 1)).stepsLeft T < _
    rw [State.stepsLeft, pc, stepsLeft_joinLoop]
    simp only [MainPc.stepsLeft]
    omega

/-! ## No deadlock -/

/-- A loop of `main` that has not ended has a thread to deal with. -/
def MainPc.InLoop (T : Nat) : MainPc → Prop
  | .create i => i < T
  | .join i => i < T
  | .finished => True

theorem inLoop_joinLoop (T i : Nat) : (joinLoop T i).InLoop T := by
  unfold joinLoop
  split_ifs with hi
  · exact hi
  · trivial

theorem inLoop_createLoop (T i : Nat) : (createLoop T i).InLoop T := by
  unfold createLoop
  split_ifs with hi
  · exact hi
  · exact inLoop_joinLoop T 0

/-- `main` is in front of a step of its loops, or has left them. -/
def State.InLoop (s : State T Shared Local) : Prop := s.main.InLoop T

theorem inLoop_of_reachable (h : (W.program g).Reachable s) : s.InLoop := by
  have hkeeps (u : State T Shared Local) (a : Actor T) (u' : State T Shared Local) (hu : u.InLoop)
      (hstep : (W.program g).step u a = some u') : u'.InLoop := by
    cases programStep_cases hstep with
    | thread _ _ => exact hu
    | create _ _ => exact inLoop_createLoop T _
    | join _ _ _ _ => exact inLoop_joinLoop T _
  have hinit : (W.program g).init.InLoop := inLoop_createLoop T 0
  exact h.invariant hinit hkeeps

/-- **If the threads that have been created have ended**, `main` does not wait. -/
theorem finished_of_mainStep (hphases : Phases W s) (hloop : s.InLoop)
    (hended : ∀ t l, s.thread t = some l → W.ended l) (hstuck : W.mainStep s = none) :
    s.main = .finished := by
  unfold mainStep at hstuck
  cases hpc : s.main with
  | finished => rfl
  | create i =>
    rw [State.InLoop, hpc] at hloop
    have hi : i < T := hloop
    simp [hpc, hi] at hstuck
  | join i =>
    rw [State.InLoop, hpc] at hloop
    have hi : i < T := hloop
    have hcreated : s.thread ⟨i, hi⟩ ≠ none := by
      rw [ne_eq, hphases.created, hpc]
      exact Nat.not_le.mpr hi
    obtain ⟨l, hl⟩ := Option.ne_none_iff_exists'.mp hcreated
    simp [hpc, hi, hl, hended _ l hl] at hstuck

/-- **The rule for termination**: the measure of a thread falls with each of its steps,
and when no thread can take a step, they have all ended. -/
theorem terminates
    (hfalls : ∀ s, (W.program g).Reachable s → ∀ t l g' l', s.thread t = some l →
      W.step s.shared t l = some (g', l') → left l' < left l)
    (hended : ∀ s, (W.program g).Reachable s →
      (∀ t l, s.thread t = some l → W.step s.shared t l = none) →
        ∀ t l, s.thread t = some l → W.ended l) :
    (W.program g).Terminates (T * (left W.start + 2)) fun s => s.main = .finished := by
  refine .of_measure StepSystem.reachable_init
    (fun _ _ _ hs hstep => hs.step hstep)
    (fun s _ _ hs hstep =>
      stepsLeft_step (Phases.of_reachable hs) (hfalls s hs) (programStep_cases hstep))
    (Nat.le_of_eq stepsLeft_init) fun s hs hstuck => ?_
  refine finished_of_mainStep (Phases.of_reachable hs) (inLoop_of_reachable hs) ?_ (hstuck .main)
  refine hended s hs fun t l hl => ?_
  by_contra hstep
  obtain ⟨⟨g', l'⟩, hstep⟩ := Option.ne_none_iff_exists'.mp hstep
  have hmoves := step_thread (g := g) hl hstep
  rw [hstuck (.thread t)] at hmoves
  cases hmoves

end Worker
end SystemsCourse
