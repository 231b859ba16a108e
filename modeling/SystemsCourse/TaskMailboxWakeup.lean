import SystemsCourse.TaskMailboxInvariant

/-!
# No wakeup is lost in `conditionex.c`

The worker waits under an `if`, and the signal is sent after the lock has been given
back.  Both are harmless here: the worker blocks in the same critical section in
which it has found `busy` false, and whoever sets `busy` afterwards signals
afterwards.  So a blocked worker and a task in the slot mean that the submitter of
this task is still on its way to its signal (`SignalDue`).
-/
namespace SystemsCourse
namespace TaskMailbox

variable {T : Nat} {s s' : State T}

/-- The submitter has set `busy` for this task and not yet signalled. -/
def SubmitterPc.Announces (task : Nat) : SubmitterPc → Prop
  | .setFilename _ task' => task' = task
  | .unlock task' => task' = task
  | .condSignal task' => task' = task
  | _ => False

/-- Some submitter is about to announce the task accepted last. -/
def State.Announced (s : State T) : Prop :=
  ∃ i task, (s.submitter i).Announces task ∧ s.accepted.length = task + 1

/-- While the worker is blocked, the task in the slot has still to be announced. -/
def State.SignalDue (s : State T) : Prop :=
  s.worker = .blocked → s.busy = true → s.Announced

/-- A submitter that moves on keeps its announcement, if it has one to make. -/
theorem State.Announced.move (h : s.Announced) {i : Fin T} {pc pc' : SubmitterPc}
    (hpc : s.submitter i = pc) (hsubmitter : s'.submitter = Function.update s.submitter i pc')
    (haccepted : s'.accepted = s.accepted) (hkeep : ∀ task, pc.Announces task → pc'.Announces task) :
    s'.Announced := by
  obtain ⟨j, task, hj, hlength⟩ := h
  refine ⟨j, task, ?_, haccepted ▸ hlength⟩
  rw [hsubmitter]
  by_cases hji : j = i
  · subst hji
    rw [Function.update_self]
    exact hkeep task (hpc ▸ hj)
  · rwa [Function.update_of_ne hji]

/-- The same of the state. -/
theorem State.SignalDue.move (h : s.SignalDue) {i : Fin T} {pc pc' : SubmitterPc}
    (hpc : s.submitter i = pc) (hsubmitter : s'.submitter = Function.update s.submitter i pc')
    (hrest : s'.worker = s.worker ∧ s'.busy = s.busy ∧ s'.accepted = s.accepted)
    (hkeep : ∀ task, pc.Announces task → pc'.Announces task) : s'.SignalDue := by
  obtain ⟨hworker, hbusy, haccepted⟩ := hrest
  intro hblocked htask
  rw [hworker] at hblocked
  rw [hbusy] at htask
  exact (h hblocked htask).move hpc hsubmitter haccepted hkeep

theorem WorkerPc.wake_ne_blocked (pc : WorkerPc) : pc.wake ≠ .blocked := by
  cases pc <;> nofun

theorem signalDue_initial : (initial T).SignalDue := nofun

theorem signalDue_workerStep (hk : Known s) (hstep : WorkerStep s s') : s'.SignalDue := by
  intro hblocked hbusy
  cases hstep with
  | condWait pc =>
    -- it has found `busy` false in this critical section
    have hknows := hk.worker
    rw [pc] at hknows
    change s.busy = true at hbusy
    change s.busy = false at hknows
    rw [hknows] at hbusy
    cases hbusy
  | _ => cases hblocked

theorem signalDue_produceWorkStep (h : s.SignalDue) (hk : Known s) {i : Fin T}
    (hstep : ProduceWorkStep s i s') : s'.SignalDue := by
  cases hstep with
  | lock pc _ | refuse pc _ | giveUp pc => exact h.move pc rfl ⟨rfl, rfl, rfl⟩ fun _ => False.elim
  | accept pc busy =>
    -- `busy` is still false: it is set in the next step
    intro hblocked hbusy
    change s.busy = true at hbusy
    rw [busy] at hbusy
    cases hbusy
  | @setBusy filename task pc =>
    intro hblocked hbusy
    have hknows := hk.submitter i
    rw [pc] at hknows
    refine ⟨i, task, ?_, hknows.2⟩
    show (Function.update s.submitter i (.setFilename filename task) i).Announces task
    rw [Function.update_self]
    rfl
  | setFilename pc | unlock pc => exact h.move pc rfl ⟨rfl, rfl, rfl⟩ fun _ => id
  | condSignal pc =>
    -- the signal, whoever sends it, finds the worker blocked and wakes it
    intro hblocked _
    exact absurd hblocked s.worker.wake_ne_blocked

theorem signalDue_step (h : s.SignalDue) (hk : Known s) (hstep : Step s s') : s'.SignalDue := by
  cases hstep with
  | worker step => exact signalDue_workerStep hk step
  | spuriousWakeup pc => nofun
  | call filename pc => exact h.move pc rfl ⟨rfl, rfl, rfl⟩ fun _ => False.elim
  | submitter step => exact signalDue_produceWorkStep h hk step

/-! ## The invariant -/

/-- Everything that holds of the mailbox in every reachable state. -/
structure Invariant (s : State T) : Prop where
  lock : LockHeld s.owner s.Inside
  known : Known s
  conserved : s.Conserved
  signalDue : s.SignalDue

theorem invariant_initial : Invariant (initial T) :=
  ⟨lockHeld_initial, known_initial, conserved_initial, signalDue_initial⟩

/-- **Every step keeps the invariant.** -/
theorem Invariant.step (h : Invariant s) (hstep : Step s s') : Invariant s' where
  lock := lockHeld_step h.lock hstep
  known := h.known.step h.lock hstep
  conserved := conserved_step h.conserved h.lock h.known hstep
  signalDue := signalDue_step h.signalDue h.known hstep

/-- **The invariant holds in every reachable state.** -/
theorem Invariant.of_reachable (h : (program T).Reachable s) : Invariant s :=
  h.invariant invariant_initial fun _ _ _ hinv hstep => hinv.step (step_cases hstep)

theorem SubmitterPc.length_slot_singleton (pc : SubmitterPc) (filename : Option String) :
    (pc.slot [filename]).length = 1 := by
  cases pc <;> rfl

/-- A task that is announced while the worker is outside is the first one not
handled yet. -/
theorem Invariant.handled_length (h : Invariant s) (hworker : ¬ s.worker.Locked)
    (hbusy : s.busy = true) : s.accepted.length = s.handled.length + 1 := by
  have hfields : s.fields = [s.filename] := if_pos hbusy
  have hslot : s.slot.length = 1 := by
    unfold State.slot
    cases howner : s.owner with
    | none => rw [hfields]; rfl
    | some p =>
      cases p with
      | worker => exact absurd ((h.lock .worker).mp howner) hworker
      | submitter i =>
        rw [hfields]
        exact (s.submitter i).length_slot_singleton s.filename
  have := congrArg List.length h.conserved
  rwa [List.length_map, List.length_append, hslot] at this

/-- **No wakeup is lost.**  If the worker is blocked in `pthread_cond_wait`, not yet
woken, while `busy` is set, then a submitter is between its setting of `busy` for the
pending task — the first one that is not handled — and its signal. -/
theorem no_lost_wakeup (h : (program T).Reachable s) (hblocked : s.worker = .blocked)
    (hbusy : s.busy = true) : ∃ i, (s.submitter i).Announces s.handled.length := by
  have hinv := Invariant.of_reachable h
  obtain ⟨i, task, hannounces, hlength⟩ := hinv.signalDue hblocked hbusy
  have hpending := hinv.handled_length (by rw [hblocked]; exact id) hbusy
  have htask : task = s.handled.length := by omega
  exact ⟨i, htask ▸ hannounces⟩

/-- The worker has gone to sleep, and a submitter has set `busy`. -/
theorem no_lost_wakeup_first_task : ∃ s : State 1, (program 1).Reachable s ∧ s.worker = .blocked ∧
    s.busy = true ∧ ∃ i, (s.submitter i).Announces s.handled.length := by
  have hrun : ((program 1).run (initial 1) [.worker, .worker, .worker, .call 0 "./Makefile",
      .submitter 0, .submitter 0, .submitter 0]).isSome := rfl
  obtain ⟨s, hs⟩ := Option.isSome_iff_exists.mp hrun
  have hpc : s.worker = .blocked ∧ s.busy = true := by
    cases hs
    exact ⟨rfl, rfl⟩
  exact ⟨s, ⟨_, hs⟩, hpc.1, hpc.2, no_lost_wakeup ⟨_, hs⟩ hpc.1 hpc.2⟩

end TaskMailbox
end SystemsCourse
