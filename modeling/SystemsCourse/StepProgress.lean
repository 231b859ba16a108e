import SystemsCourse.StepSystem

/-!
# Systems of threads that come to an end

A system comes to an end whatever the schedule if a measure of its states falls with
every step: a run is then no longer than the measure of the initial state
(`run_length_add_le`).  Whether a state in which no thread can take a step is a good
one — everything has ended — or a deadlock is a separate question, about one state.
`Terminates` asks for both; then every run can be continued to a good end
(`Terminates.finishes`).
-/
namespace SystemsCourse
namespace StepSystem
variable {State Thread : Type} (M : StepSystem State Thread)

/-- No thread can take a step. -/
def Stuck (s : State) : Prop := ∀ t, M.step s t = none

/-- **Every run ends, and ends well**: it has at most `bound` steps, and when no thread
can take another one, the state is a good one. -/
structure Terminates (bound : Nat) (Done : State → Prop) : Prop where
  bounded : ∀ ts s, M.run M.init ts = some s → ts.length ≤ bound
  done : ∀ s, M.Reachable s → M.Stuck s → Done s

variable {M} {Inv : State → Prop} {μ : State → Nat} {s s' : State} {ts : List Thread}

/-- **A measure that falls with every step** pays for the steps of a run. -/
theorem run_length_add_le (hkeeps : ∀ s t s', Inv s → M.step s t = some s' → Inv s')
    (hfalls : ∀ s t s', Inv s → M.step s t = some s' → μ s' < μ s) (hrun : M.run s ts = some s')
    (hs : Inv s) : ts.length + μ s' ≤ μ s := by
  induction ts generalizing s with
  | nil =>
    cases hrun
    exact Nat.le_of_eq (Nat.zero_add _)
  | cons t ts ih =>
    obtain ⟨u, hu, hrun⟩ := run_cons_eq_some_iff.mp hrun
    have hrest := ih hrun (hkeeps s t u hs hu)
    have hstep := hfalls s t u hs hu
    rw [List.length_cons]
    omega

/-- **The rule for termination**: an invariant, a measure that falls, and no deadlock. -/
theorem Terminates.of_measure {bound : Nat} {Done : State → Prop} (hinit : Inv M.init)
    (hkeeps : ∀ s t s', Inv s → M.step s t = some s' → Inv s')
    (hfalls : ∀ s t s', Inv s → M.step s t = some s' → μ s' < μ s) (hbound : μ M.init ≤ bound)
    (hdone : ∀ s, Inv s → M.Stuck s → Done s) : M.Terminates bound Done where
  bounded ts s hrun := by
    have := run_length_add_le hkeeps hfalls hrun hinit
    omega
  done s hreach hstuck := hdone s (hreach.invariant hinit hkeeps) hstuck

/-- **Every run can be continued to a good end**, within the bound. -/
theorem Terminates.finishes {bound : Nat} {Done : State → Prop} (h : M.Terminates bound Done)
    (hrun : M.run M.init ts = some s) :
    ∃ ts' s', M.run s ts' = some s' ∧ Done s' ∧ ts.length + ts'.length ≤ bound := by
  induction hleft : bound - ts.length generalizing s ts with
  | zero =>
    -- no step is left, so no thread can take one
    have hstuck : M.Stuck s := by
      intro t
      by_contra ht
      obtain ⟨u, hu⟩ := Option.ne_none_iff_exists'.mp ht
      have hle := h.bounded (ts ++ [t]) u (run_append_eq_some_iff.mpr
        ⟨s, hrun, run_cons_eq_some_iff.mpr ⟨u, hu, run_nil⟩⟩)
      rw [List.length_append, List.length_singleton] at hle
      omega
    exact ⟨[], s, run_nil, h.done s ⟨ts, hrun⟩ hstuck, h.bounded ts s hrun⟩
  | succ n ih =>
    by_cases hstuck : M.Stuck s
    · exact ⟨[], s, run_nil, h.done s ⟨ts, hrun⟩ hstuck, h.bounded ts s hrun⟩
    · obtain ⟨t, ht⟩ := not_forall.mp hstuck
      obtain ⟨u, hu⟩ := Option.ne_none_iff_exists'.mp ht
      have hrun' : M.run M.init (ts ++ [t]) = some u :=
        run_append_eq_some_iff.mpr ⟨s, hrun, run_cons_eq_some_iff.mpr ⟨u, hu, run_nil⟩⟩
      obtain ⟨ts', s', hrest, hdone, hle⟩ := ih hrun' (by rw [List.length_append, List.length_singleton]; omega)
      rw [List.length_append, List.length_singleton] at hle
      exact ⟨t :: ts', s', run_cons_eq_some_iff.mpr ⟨u, hu, hrest⟩, hdone, by rw [List.length_cons]; omega⟩

end StepSystem
end SystemsCourse
