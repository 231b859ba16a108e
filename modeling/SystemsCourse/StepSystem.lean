import Mathlib.Data.List.Basic

/-!
# Systems of threads that take steps

Threads that share a state are a step function: `step s t` is the state after the
thread `t` has taken its next atomic step from `s`, and `none` if `t` cannot take
one — it is blocked, or has ended.  Nothing is assumed about which thread moves
next, so a schedule is any list of threads, and a run is a schedule each step of
which can be taken.

Three rules: an invariant of the steps is an invariant of the reachable states
(`Reachable.invariant`); it is kept by a run whose steps all meet a condition if
such steps keep it (`Along.invariant`); and a run with a step that does not meet
the condition can be divided at that step (`exists_of_not_along`).
-/
namespace SystemsCourse

/-- A system of threads. -/
structure StepSystem (State Thread : Type) where
  init : State
  step : State → Thread → Option State

namespace StepSystem
variable {State Thread : Type} (M : StepSystem State Thread)

/-- The state after a schedule, if each of its steps can be taken. -/
def run (s : State) (ts : List Thread) : Option State := ts.foldlM M.step s

/-- Some run leads to `s`. -/
def Reachable (s : State) : Prop := ∃ ts, M.run M.init ts = some s

/-- Every step of the run meets `good`. -/
def Along (good : State → Thread → Prop) : State → List Thread → Prop
  | _, [] => True
  | s, t :: ts => good s t ∧ ∀ s', M.step s t = some s' → Along good s' ts

variable {M} {s s' : State} {t : Thread} {ts ts' : List Thread}

@[simp] theorem run_nil : M.run s [] = some s := rfl

theorem run_cons_eq_some_iff :
    M.run s (t :: ts) = some s' ↔ ∃ u, M.step s t = some u ∧ M.run u ts = some s' := by
  rw [run, List.foldlM_cons]
  exact Option.bind_eq_some_iff

theorem run_append_eq_some_iff :
    M.run s (ts ++ ts') = some s' ↔ ∃ u, M.run s ts = some u ∧ M.run u ts' = some s' := by
  rw [run, List.foldlM_append]
  exact Option.bind_eq_some_iff

theorem reachable_init : M.Reachable M.init := ⟨[], rfl⟩

theorem Reachable.run (h : M.Reachable s) (hrun : M.run s ts = some s') : M.Reachable s' := by
  obtain ⟨ts₀, h₀⟩ := h
  exact ⟨ts₀ ++ ts, run_append_eq_some_iff.mpr ⟨s, h₀, hrun⟩⟩

theorem Reachable.step (h : M.Reachable s) (hstep : M.step s t = some s') : M.Reachable s' :=
  h.run (run_cons_eq_some_iff.mpr ⟨s', hstep, run_nil⟩)

/-- **What every step keeps, a run keeps.** -/
theorem run_invariant {Inv : State → Prop}
    (hstep : ∀ s t s', Inv s → M.step s t = some s' → Inv s') (hrun : M.run s ts = some s')
    (hs : Inv s) : Inv s' := by
  induction ts generalizing s with
  | nil =>
    cases hrun
    exact hs
  | cons t ts ih =>
    obtain ⟨u, hu, hrun⟩ := run_cons_eq_some_iff.mp hrun
    exact ih hrun (hstep s t u hs hu)

/-- **An invariant holds in every reachable state.** -/
theorem Reachable.invariant {Inv : State → Prop} (hinit : Inv M.init)
    (hstep : ∀ s t s', Inv s → M.step s t = some s' → Inv s') (h : M.Reachable s) : Inv s := by
  obtain ⟨ts, hrun⟩ := h
  exact run_invariant hstep hrun hinit

instance decidableAlong {good : State → Thread → Prop} [∀ s t, Decidable (good s t)] :
    (s : State) → (ts : List Thread) → Decidable (M.Along good s ts)
  | _, [] => isTrue trivial
  | s, t :: ts =>
    match hu : M.step s t with
    | none => decidable_of_iff (good s t)
        ⟨fun hgood => ⟨hgood, fun u h => by rw [hu] at h; cases h⟩, And.left⟩
    | some u =>
      have : Decidable (M.Along good u ts) := decidableAlong u ts
      decidable_of_iff (good s t ∧ M.Along good u ts)
        ⟨fun h => ⟨h.1, fun u' h' => by rw [hu] at h'; cases h'; exact h.2⟩,
          fun h => ⟨h.1, h.2 u hu⟩⟩

/-- **What every step that meets the condition keeps**, a run of such steps keeps. -/
theorem Along.invariant {good : State → Thread → Prop} {Inv : State → Prop}
    (hstep : ∀ s t s', Inv s → good s t → M.step s t = some s' → Inv s')
    (halong : M.Along good s ts) (hrun : M.run s ts = some s') (hs : Inv s) : Inv s' := by
  induction ts generalizing s with
  | nil =>
    cases hrun
    exact hs
  | cons t ts ih =>
    obtain ⟨u, hu, hrun⟩ := run_cons_eq_some_iff.mp hrun
    obtain ⟨hgood, hrest⟩ := halong
    exact ih (hrest u hu) hrun (hstep s t u hs hgood hu)

/-- **A run that does not meet the condition throughout** has a first part, a step
that does not meet it, and a rest. -/
theorem exists_of_not_along {good : State → Thread → Prop} (halong : ¬ M.Along good s ts)
    (hrun : M.run s ts = some s') : ∃ ts₁ u t u' ts₂, M.run s ts₁ = some u ∧ ¬ good u t ∧
      M.step u t = some u' ∧ M.run u' ts₂ = some s' := by
  induction ts generalizing s with
  | nil => exact absurd trivial halong
  | cons t ts ih =>
    obtain ⟨u, hu, hrun⟩ := run_cons_eq_some_iff.mp hrun
    by_cases hgood : good s t
    · have hrest : ¬ M.Along good u ts := by
        intro hrest
        refine halong ⟨hgood, fun u' hu' => ?_⟩
        rw [hu] at hu'
        cases hu'
        exact hrest
      obtain ⟨ts₁, v, t', v', ts₂, h₁, hbad, hstep, h₂⟩ := ih hrest hrun
      exact ⟨t :: ts₁, v, t', v', ts₂, run_cons_eq_some_iff.mpr ⟨u, hu, h₁⟩, hbad, hstep, h₂⟩
    · exact ⟨[], s, t, u, ts, run_nil, hgood, hu, hrun⟩

end StepSystem
end SystemsCourse
