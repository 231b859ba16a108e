import Mathlib.Data.Fintype.Basic
import SystemsCourse.StepSystem

/-!
# Programs that fork and join

A `main` that creates `T` equal threads one after the other, joins them in the same
order and then goes on alone.  What the threads do is a parameter: a `Worker` is
where a thread starts, how it steps on what the threads share, and when it has
ended.

An invariant of the shared state and the threads is kept by the whole program if it
is kept by the creation of a thread and by the step of one (`invariant`); and when
`main` has passed its joins, every thread has ended (`ended_of_finished`).
-/
namespace SystemsCourse

/-- The program of `T` equal threads: `Shared` is what they share, `Local` is what a
thread has for itself. -/
structure Worker (T : Nat) (Shared Local : Type) where
  start : Local
  step : Shared → Fin T → Local → Option (Shared × Local)
  ended : Local → Bool
  stops : ∀ g t l, ended l → step g t l = none

namespace Worker
variable {T : Nat} {Shared Local : Type}

/-- Where `main` is; `i` is the variable of the loop it is in. -/
inductive MainPc where
  | create (i : Nat)
  | join (i : Nat)
  | finished
deriving DecidableEq

/-- The state of the whole program; a thread is `none` until it has been created. -/
structure State (T : Nat) (Shared Local : Type) where
  shared : Shared
  thread : Fin T → Option Local
  main : MainPc

/-- Who takes a step. -/
inductive Actor (T : Nat) where
  | thread (t : Fin T)
  | main

/-- `i < T`, in the loop that joins. -/
def joinLoop (T i : Nat) : MainPc := if i < T then .join i else .finished

/-- `i < T`, in the loop that creates. -/
def createLoop (T i : Nat) : MainPc := if i < T then .create i else joinLoop T 0

section Steps
variable (W : Worker T Shared Local) (s : State T Shared Local)

/-- A step of thread `t`. -/
def threadStep (t : Fin T) : Option (State T Shared Local) := do
  let l ← s.thread t
  let (g, l) ← W.step s.shared t l
  return { s with shared := g, thread := Function.update s.thread t (some l) }

/-- A step of `main`. -/
def mainStep : Option (State T Shared Local) :=
  match s.main with
  | .create i =>
      if h : i < T then some { s with
        thread := Function.update s.thread ⟨i, h⟩ (some W.start)
        main := createLoop T (i + 1) }
      else none
  | .join i =>
      if h : i < T then
        if (s.thread ⟨i, h⟩).any W.ended then some { s with main := joinLoop T (i + 1) } else none
      else none
  | .finished => none

/-- A step of the program. -/
def programStep : Actor T → Option (State T Shared Local)
  | .thread t => W.threadStep s t
  | .main => W.mainStep s

end Steps

/-- **The program**, started on the shared state `g`. -/
def program (W : Worker T Shared Local) (g : Shared) :
    StepSystem (State T Shared Local) (Actor T) where
  init := ⟨g, fun _ => none, createLoop T 0⟩
  step := W.programStep

/-! ## What a step does -/

section Rules
variable {W : Worker T Shared Local} {s s' : State T Shared Local} {g : Shared}

/-- The steps of the program, by what they do. -/
inductive Step (W : Worker T Shared Local) (s : State T Shared Local) :
    State T Shared Local → Prop where
  | thread {t : Fin T} {l l' : Local} {g : Shared} (running : s.thread t = some l)
      (step : W.step s.shared t l = some (g, l')) :
      Step W s { s with shared := g, thread := Function.update s.thread t (some l') }
  | create {i : Nat} (pc : s.main = .create i) (h : i < T) :
      Step W s { s with
        thread := Function.update s.thread ⟨i, h⟩ (some W.start)
        main := createLoop T (i + 1) }
  | join {i : Nat} (pc : s.main = .join i) (h : i < T) {l : Local}
      (running : s.thread ⟨i, h⟩ = some l) (ended : W.ended l) :
      Step W s { s with main := joinLoop T (i + 1) }

theorem programStep_cases {a : Actor T} (h : W.programStep s a = some s') : W.Step s s' := by
  cases a with
  | thread t =>
    obtain ⟨l, hl, h⟩ := Option.bind_eq_some_iff.mp h
    obtain ⟨⟨g, l'⟩, hstep, h⟩ := Option.bind_eq_some_iff.mp h
    cases h
    exact .thread hl hstep
  | main =>
    change W.mainStep s = some s' at h
    unfold mainStep at h
    cases hpc : s.main with
    | create i =>
      simp only [hpc] at h
      split_ifs at h with hi
      cases h
      exact .create hpc hi
    | join i =>
      simp only [hpc] at h
      split_ifs at h with hi hended
      cases h
      cases hl : s.thread ⟨i, hi⟩ with
      | none => simp [hl] at hended
      | some l => exact .join hpc hi hl (by simpa [hl] using hended)
    | finished => simp [hpc] at h

theorem step_thread {t : Fin T} {l l' : Local} {g' : Shared} (hl : s.thread t = some l)
    (hstep : W.step s.shared t l = some (g', l')) : (W.program g).step s (.thread t) =
      some { s with shared := g', thread := Function.update s.thread t (some l') } := by
  show W.threadStep s t = _
  simp [threadStep, hl, hstep]

theorem step_join {i : Nat} {l : Local} (hmain : s.main = .join i) (h : i < T)
    (hl : s.thread ⟨i, h⟩ = some l) (hended : W.ended l) :
    (W.program g).step s .main = some { s with main := joinLoop T (i + 1) } := by
  show W.mainStep s = _
  simp [mainStep, hmain, h, hl, hended]

/-! ## The phases of `main` -/

/-- How many threads `main` has created. -/
def MainPc.created (T : Nat) : MainPc → Nat
  | .create i => i
  | _ => T

/-- How many threads `main` has joined. -/
def MainPc.joined (T : Nat) : MainPc → Nat
  | .create _ => 0
  | .join i => i
  | .finished => T

/-- What `main` has done so far. -/
structure Phases (W : Worker T Shared Local) (s : State T Shared Local) : Prop where
  created : ∀ t : Fin T, s.thread t = none ↔ s.main.created T ≤ t
  joined : ∀ t : Fin T, t < s.main.joined T → ∃ l, s.thread t = some l ∧ W.ended l

theorem created_createLoop (T i : Nat) (t : Fin T) : (createLoop T i).created T ≤ t ↔ i ≤ t := by
  have := t.isLt
  unfold createLoop joinLoop
  split_ifs <;> simp only [MainPc.created] <;> omega

theorem joined_createLoop (T i : Nat) (t : Fin T) : ¬ t < (createLoop T i).joined T := by
  have := t.isLt
  unfold createLoop joinLoop
  split_ifs <;> simp only [MainPc.joined] <;> omega

theorem joinLoop_facts (T i : Nat) (t : Fin T) :
    ¬ (joinLoop T i).created T ≤ t ∧ (t < (joinLoop T i).joined T → t < i) := by
  have := t.isLt
  unfold joinLoop
  split_ifs <;> simp only [MainPc.created, MainPc.joined] <;> omega

theorem phases_init : Phases W (W.program g).init where
  created t := iff_of_true rfl ((created_createLoop T 0 t).mpr (Nat.zero_le _))
  joined t ht := absurd ht (joined_createLoop T 0 t)

theorem Phases.step (h : Phases W s) (hstep : W.Step s s') : Phases W s' := by
  cases hstep with
  | @thread t l l' g running step =>
    refine ⟨fun t' => ?_, fun t' ht' => ?_⟩
    · show Function.update s.thread t (some l') t' = none ↔ s.main.created T ≤ t'
      by_cases he : t' = t
      · subst he
        rw [Function.update_self, ← h.created, running]
        exact iff_of_false nofun nofun
      · rw [Function.update_of_ne he]
        exact h.created t'
    · -- a thread that has been joined has ended, so it is not the one that steps
      obtain ⟨l₀, hl₀, hended⟩ := h.joined t' ht'
      have he : t' ≠ t := by
        rintro rfl
        rw [running] at hl₀
        cases hl₀
        rw [W.stops s.shared t' l hended] at step
        cases step
      exact ⟨l₀, (Function.update_of_ne he _ _).trans hl₀, hended⟩
  | @create i pc hi =>
    refine ⟨fun t' => ?_, fun t' ht' => absurd ht' (joined_createLoop T _ t')⟩
    rw [created_createLoop]
    show Function.update s.thread ⟨i, hi⟩ (some W.start) t' = none ↔ i + 1 ≤ t'.val
    by_cases he : t' = ⟨i, hi⟩
    · subst he
      rw [Function.update_self]
      exact iff_of_false nofun (Nat.not_succ_le_self i)
    · have hne : t'.val ≠ i := fun hv => he (Fin.ext hv)
      have hcreated : s.thread t' = none ↔ i ≤ t'.val := by
        rw [h.created, pc]
        exact Iff.rfl
      rw [Function.update_of_ne he, hcreated]
      omega
  | @join i pc hi l running ended =>
    have hcreated (t : Fin T) : s.thread t ≠ none := by
      rw [ne_eq, h.created, pc]
      exact Nat.not_le.mpr t.isLt
    refine ⟨fun t' => iff_of_false (hcreated t') (joinLoop_facts T _ t').1, fun t' ht' => ?_⟩
    have hlt := (joinLoop_facts T _ t').2 ht'
    by_cases he : t' = ⟨i, hi⟩
    · exact ⟨l, he ▸ running, ended⟩
    · have hne : t'.val ≠ i := fun hv => he (Fin.ext hv)
      refine h.joined t' ?_
      rw [pc]
      show t'.val < i
      omega

theorem Phases.of_reachable (h : (W.program g).Reachable s) : Phases W s :=
  h.invariant phases_init fun _ _ _ hs hstep => hs.step (programStep_cases hstep)

/-- **When `main` has passed its joins**, every thread has ended. -/
theorem ended_of_finished (h : (W.program g).Reachable s) (hmain : s.main = .finished) (t : Fin T) :
    ∃ l, s.thread t = some l ∧ W.ended l := by
  refine (Phases.of_reachable h).joined t ?_
  rw [hmain]
  exact t.isLt

/-- What is true of every thread stays true if it is true of the thread that moves. -/
theorem forall_update {f : Fin T → Option Local} {t : Fin T} {l' : Local} {p : Local → Prop}
    (h : ∀ u l, u ≠ t → f u = some l → p l) (ht : p l') :
    ∀ u l, Function.update f t (some l') u = some l → p l := by
  intro u l hl
  by_cases hu : u = t
  · rw [hu, Function.update_self] at hl
    cases hl
    exact ht
  · rw [Function.update_of_ne hu] at hl
    exact h u l hu hl

/-- **The rule for invariants** of the shared state and the threads: they hold
before a thread is created, and are kept by the creation of a thread and by the step
of one. -/
theorem invariant (Inv : Shared → (Fin T → Option Local) → Prop) (hinit : Inv g fun _ => none)
    (hcreate : ∀ g f t, Inv g f → f t = none → Inv g (Function.update f t (some W.start)))
    (hstep : ∀ g f t l g' l', Inv g f → f t = some l → W.step g t l = some (g', l') →
      Inv g' (Function.update f t (some l')))
    (h : (W.program g).Reachable s) : Inv s.shared s.thread := by
  have keeps (u : State T Shared Local) (a : Actor T) (u' : State T Shared Local)
      (hu : Phases W u ∧ Inv u.shared u.thread) (hstep' : W.programStep u a = some u') :
      Phases W u' ∧ Inv u'.shared u'.thread := by
    obtain ⟨hphases, hinv⟩ := hu
    have hcases := programStep_cases hstep'
    refine ⟨hphases.step hcases, ?_⟩
    cases hcases with
    | thread running step => exact hstep _ _ _ _ _ _ hinv running step
    | create pc hi =>
      refine hcreate _ _ _ hinv ((hphases.created _).mpr ?_)
      rw [pc]
      exact Nat.le_refl _
    | join _ _ _ _ => exact hinv
  obtain ⟨ts, hrun⟩ := h
  exact (StepSystem.run_invariant (M := W.program g) keeps hrun ⟨phases_init, hinit⟩).2

end Rules
end Worker
end SystemsCourse
