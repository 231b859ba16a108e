import SystemsCourse.StepSystem

/-!
# Systems that do what another system does

A system is simulated by another one through a map of its states if each of its steps
is a step of the other one, or changes nothing that the other one knows of
(`Simulates`).  What holds in the reachable states of the other system then holds in
its own (`Simulates.reachable`).  A system contains another one as a component if some
of its steps are steps of the other one and the rest leave it alone (`Contains`); the
steps of the component in a run are then a run of its own (`Contains.run`).  `restrict`
is a system some of whose steps are not taken.
-/
namespace SystemsCourse
namespace StepSystem
variable {State Thread State' Thread' : Type} (M : StepSystem State Thread)

/-- **Simulation** through `abs`. -/
structure Simulates (M' : StepSystem State' Thread') (abs : State → State') : Prop where
  init : abs M.init = M'.init
  step : ∀ s t s', M.Reachable s → M.step s t = some s' →
    abs s' = abs s ∨ ∃ t', M'.step (abs s) t' = some (abs s')

/-- **A component**, with state `part`: `own` says which step of it a step of `M` is, if
it is one. -/
structure Contains (M' : StepSystem State' Thread') (part : State → State')
    (own : Thread → Option Thread') : Prop where
  others : ∀ s t s', M.Reachable s → M.step s t = some s' → own t = none → part s' = part s
  its : ∀ s t s' c, M.Reachable s → M.step s t = some s' → own t = some c →
    M'.step (part s) c = some (part s')

/-- `M` from `s`, without the steps that are not allowed. -/
def restrict (s : State) (allowed : Thread → Bool) : StepSystem State Thread where
  init := s
  step s t := if allowed t then M.step s t else none

variable {M} {s u u' : State} {t : Thread} {ts : List Thread}

/-- **A run of `M` is a run of the system that simulates it.** -/
theorem Simulates.reachable {M' : StepSystem State' Thread'} {abs : State → State'}
    (h : M.Simulates M' abs) (hs : M.Reachable s) : M'.Reachable (abs s) := by
  have hkeeps (s : State) (t : Thread) (s' : State) (hs : M.Reachable s ∧ M'.Reachable (abs s))
      (hstep : M.step s t = some s') : M.Reachable s' ∧ M'.Reachable (abs s') := by
    refine ⟨hs.1.step hstep, ?_⟩
    rcases h.step s t s' hs.1 hstep with hsame | ⟨t', hstep'⟩
    · exact hsame ▸ hs.2
    · exact hs.2.step hstep'
  have hinit : M'.Reachable (abs M.init) := by
    rw [h.init]
    exact reachable_init
  obtain ⟨ts, hrun⟩ := hs
  exact (run_invariant hkeeps hrun ⟨reachable_init, hinit⟩).2

/-- **The steps of a component** in a run are a run of the component. -/
theorem Contains.run {M' : StepSystem State' Thread'} {part : State → State'} {own : Thread → Option Thread'}
    (h : M.Contains M' part own) (hs : M.Reachable s) (hrun : M.run s ts = some u) :
    M'.run (part s) (ts.filterMap own) = some (part u) := by
  induction ts generalizing s with
  | nil =>
    cases hrun
    exact run_nil
  | cons t ts ih =>
    obtain ⟨v, hstep, hrun⟩ := run_cons_eq_some_iff.mp hrun
    have hrest := ih (hs.step hstep) hrun
    cases hown : own t with
    | none =>
      rw [List.filterMap_cons_none hown, ← h.others s t v hs hstep hown]
      exact hrest
    | some c =>
      rw [List.filterMap_cons_some hown]
      exact run_cons_eq_some_iff.mpr ⟨part v, h.its s t v c hs hstep hown, hrest⟩

theorem restrict_step_eq_some_iff {allowed : Thread → Bool} :
    (M.restrict s allowed).step u t = some u' ↔ allowed t = true ∧ M.step u t = some u' := by
  show (if allowed t then M.step u t else none) = some u' ↔ _
  split <;> simp_all

end StepSystem
end SystemsCourse
