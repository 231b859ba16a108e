import Mathlib.Algebra.Order.BigOperators.Group.Finset
import SystemsCourse.StepProgress
import SystemsCourse.StepSimulation
import SystemsCourse.TaskMailboxWakeup
import SystemsCourse.ThreadTally

/-!
# The worker of `conditionex.c` handles what has been accepted

The worker never ends, and as long as tasks are submitted there is always something to
do.  Once no more calls of `produce_work` are made (`quiet`), what is left falls with
each step: a submission that is under way may wake the worker and give it a task, and a
task takes the worker once around its loop.  When nothing can move any more, the worker
is blocked and everything that was accepted has been handled (`settled_of_stuck`).
-/
namespace SystemsCourse
namespace TaskMailbox
variable {T : Nat} {s s' : State T}

/-- No call of `produce_work` is made, and the worker does not wake up by itself. -/
def quiet : Action T → Bool
  | .worker => true
  | .submitter _ => true
  | _ => false

/-! ## What is left to do -/

/-- The steps of the worker until it blocks, if there is no task. -/
def WorkerPc.stepsLeft : WorkerPc → Nat
  | .blocked => 0
  | .condWait => 1
  | .testBusy => 2
  | .lock => 3
  | .unlock => 4
  | .reacquire => 5
  | .printfileinfo => 1
  | .clearBusy => 0

/-- The steps that a submission causes: its own, those of the worker that it wakes, and
those of the worker that handles its task. -/
def SubmitterPc.stepsLeft : SubmitterPc → Nat
  | .idle => 0
  | .refuse => 1
  | .condSignal _ => 6
  | .unlock _ => 7
  | .setFilename _ _ => 8
  | .setBusy _ _ => 14
  | .testBusy _ => 15
  | .lock _ => 16

/-- The steps that a task in the slot causes. -/
def taskStepsLeft (busy : Bool) : Nat := if busy then 5 else 0

/-- How many steps are left, if no more calls are made. -/
def State.stepsLeft (s : State T) : Nat :=
  s.worker.stepsLeft + taskStepsLeft s.busy + ∑ i, (s.submitter i).stepsLeft

theorem stepsLeft_workerStep (hk : Known s) (hstep : WorkerStep s s') : s'.stepsLeft < s.stepsLeft := by
  have hworker := hk.worker
  have moves {pc : WorkerPc} {busy : Bool} {owner : Option (Party T)} {handled : List (Option String)}
      (hpc : pc.stepsLeft + taskStepsLeft busy < s.worker.stepsLeft + taskStepsLeft s.busy) :
      State.stepsLeft { s with worker := pc, busy, owner, handled } < s.stepsLeft :=
    Nat.add_lt_add_right hpc _
  cases hstep with
  | clearBusy pc =>
    -- the task is done, and the worker goes around its loop
    rw [pc] at hworker
    refine moves ?_
    rw [pc, show s.busy = true from hworker]
    decide
  | lock pc _ | task pc _ | noTask pc _ | printfileinfo pc | condWait pc | reacquire pc _ | unlock pc =>
    refine moves (Nat.add_lt_add_right ?_ _)
    rw [pc]
    decide

theorem WorkerPc.stepsLeft_wake (pc : WorkerPc) : pc.wake.stepsLeft ≤ pc.stepsLeft + 5 := by
  cases pc <;> decide

/-- A submitter moves. -/
theorem stepsLeft_move (s : State T) (i : Fin T) (pc : SubmitterPc) :
    ∑ j, (Function.update s.submitter i pc j).stepsLeft + (s.submitter i).stepsLeft =
      ∑ j, (s.submitter j).stepsLeft + pc.stepsLeft :=
  sum_update SubmitterPc.stepsLeft s.submitter i pc

theorem stepsLeft_produceWorkStep (hk : Known s) {i : Fin T} (hstep : ProduceWorkStep s i s') :
    s'.stepsLeft < s.stepsLeft := by
  have hknows := hk.submitter i
  -- the submitter's own step, if it does nothing to the worker and the task
  have moves {pc : SubmitterPc} {owner : Option (Party T)} {filename : Option String}
      {accepted : List String} (hpc : pc.stepsLeft < (s.submitter i).stepsLeft) :
      State.stepsLeft { s.move i pc with owner, filename, accepted } < s.stepsLeft := by
    have hmove := stepsLeft_move s i pc
    show s.worker.stepsLeft + taskStepsLeft s.busy +
      ∑ j, (Function.update s.submitter i pc j).stepsLeft < _
    unfold State.stepsLeft
    omega
  cases hstep with
  | lock pc _ | refuse pc _ | accept pc _ | giveUp pc | setFilename pc | unlock pc =>
    refine moves ?_
    rw [pc]
    simp only [SubmitterPc.stepsLeft]
    decide
  | @setBusy filename task pc =>
    rw [pc] at hknows
    have hmove := stepsLeft_move s i (.setFilename filename task)
    rw [pc] at hmove
    simp only [SubmitterPc.stepsLeft] at hmove
    show s.worker.stepsLeft + taskStepsLeft true +
      ∑ j, (Function.update s.submitter i (.setFilename filename task) j).stepsLeft < _
    unfold State.stepsLeft
    rw [show taskStepsLeft true = 5 from rfl, hknows.1, show taskStepsLeft false = 0 from rfl]
    simp only [SubmitterPc.stepsLeft]
    omega
  | @condSignal task pc =>
    have hmove := stepsLeft_move s i .idle
    rw [pc] at hmove
    simp only [SubmitterPc.stepsLeft] at hmove
    have hwake := s.worker.stepsLeft_wake
    show s.worker.wake.stepsLeft + taskStepsLeft s.busy +
      ∑ j, (Function.update s.submitter i .idle j).stepsLeft < _
    unfold State.stepsLeft
    simp only [SubmitterPc.stepsLeft]
    omega

theorem stepsLeft_le (s : State T) : s.stepsLeft ≤ 16 * T + 10 := by
  have hworker : s.worker.stepsLeft ≤ 5 := by cases s.worker <;> decide
  have htask : taskStepsLeft s.busy ≤ 5 := by cases s.busy <;> decide
  have hsubmitters : ∑ i, (s.submitter i).stepsLeft ≤ T * 16 := by
    have hle := Finset.sum_le_card_nsmul Finset.univ (fun i => (s.submitter i).stepsLeft) 16
      fun i _ => by cases s.submitter i <;> simp [SubmitterPc.stepsLeft]
    rwa [Finset.card_univ, Fintype.card_fin, Nat.nsmul_eq_mul] at hle
  unfold State.stepsLeft
  omega

/-! ## Who can move -/

/-- Where the worker waits. -/
theorem worker_waits (hstuck : workerStep s = none) :
    s.worker = .blocked ∨ ¬ s.worker.Locked ∧ s.owner ≠ none := by
  unfold workerStep at hstuck
  cases hpc : s.worker with
  | blocked => exact Or.inl rfl
  | lock =>
    simp only [hpc] at hstuck
    split_ifs at hstuck with howner
    exact Or.inr ⟨id, howner⟩
  | reacquire =>
    simp only [hpc] at hstuck
    split_ifs at hstuck with howner
    exact Or.inr ⟨id, howner⟩
  | _ => simp [hpc] at hstuck

/-- Where a submitter waits. -/
theorem submitter_waits {i : Fin T} (hstuck : produceWorkStep s i = none) :
    s.submitter i = .idle ∨ ¬ (s.submitter i).Locked ∧ s.owner ≠ none := by
  unfold produceWorkStep at hstuck
  cases hpc : s.submitter i with
  | idle => exact Or.inl rfl
  | lock filename =>
    simp only [hpc] at hstuck
    split_ifs at hstuck with howner
    exact Or.inr ⟨id, howner⟩
  | testBusy filename =>
    simp only [hpc] at hstuck
    split_ifs at hstuck
  | _ => simp [hpc] at hstuck

/-- The worker is blocked, nobody is in `produce_work`, and what has been accepted has been
handled. -/
structure Settled (s : State T) : Prop where
  worker : s.worker = .blocked
  submitters : ∀ i, s.submitter i = .idle
  owner : s.owner = none
  busy : s.busy = false
  handled : s.handled = s.accepted.map some

/-- **There is no deadlock**: the owner of the lock can go on, and the worker does not sleep
while there is a task. -/
theorem settled_of_stuck (h : Invariant s) (hworker : workerStep s = none)
    (hsubmitter : ∀ i, produceWorkStep s i = none) : Settled s := by
  have howner : s.owner = none := by
    by_contra howner
    obtain ⟨p, hp⟩ := Option.ne_none_iff_exists'.mp howner
    have hin := (h.lock p).mp hp
    cases p with
    | worker =>
      rcases worker_waits hworker with hpc | ⟨hout, -⟩
      · change s.worker.Locked at hin
        rw [hpc] at hin
        exact hin
      · exact hout hin
    | submitter i =>
      rcases submitter_waits (hsubmitter i) with hpc | ⟨hout, -⟩
      · change (s.submitter i).Locked at hin
        rw [hpc] at hin
        exact hin
      · exact hout hin
  have hblocked : s.worker = .blocked := (worker_waits hworker).resolve_right fun hwaits => hwaits.2 howner
  have hidle (i : Fin T) : s.submitter i = .idle :=
    (submitter_waits (hsubmitter i)).resolve_right fun hwaits => hwaits.2 howner
  have hbusy : s.busy = false := by
    by_contra hbusy
    obtain ⟨i, task, hannounces, -⟩ := h.signalDue hblocked (Bool.eq_true_of_not_eq_false hbusy)
    rw [hidle i] at hannounces
    exact hannounces
  refine ⟨hblocked, hidle, howner, hbusy, ?_⟩
  have hconserved := h.conserved
  rw [State.Conserved, slot_of_free howner, State.fields, hbusy] at hconserved
  rw [hconserved]
  exact (List.append_nil _).symm

theorem terminates (hreach : (program T).Reachable s) :
    ((program T).restrict s quiet).Terminates (16 * T + 10) Settled := by
  have hkeeps (u : State T) (a : Action T) (u' : State T) (h : (program T).Reachable u)
      (hstep : ((program T).restrict s quiet).step u a = some u') : (program T).Reachable u' :=
    h.step (StepSystem.restrict_step_eq_some_iff.mp hstep).2
  refine .of_measure hreach hkeeps (fun u a u' h hstep => ?_) (stepsLeft_le s) fun u h hstuck => ?_
  · have hinv := Invariant.of_reachable h
    obtain ⟨hquiet, hstep⟩ := StepSystem.restrict_step_eq_some_iff.mp hstep
    cases a with
    | worker => exact stepsLeft_workerStep hinv.known (workerStep_cases hstep)
    | submitter i => exact stepsLeft_produceWorkStep hinv.known (produceWorkStep_cases hstep)
    | spuriousWakeup => cases hquiet
    | call i filename => cases hquiet
  · exact settled_of_stuck (Invariant.of_reachable h) (hstuck .worker) fun i => hstuck (.submitter i)

/-- **The worker handles everything that is accepted.**  From any reachable state, once no
more calls of `produce_work` are made and the worker does not wake up by itself, any
schedule of the worker and the submitters can be continued until the worker is blocked,
nobody holds the lock, and all tasks that were ever accepted have been handled in the
order of their acceptance; it has at most `16 * T + 10` steps by then. -/
theorem mailbox_settles (hreach : (program T).Reachable s) {as : List (Action T)}
    (hrun : ((program T).restrict s quiet).run s as = some s') :
    ∃ as' s'', ((program T).restrict s quiet).run s' as' = some s'' ∧ Settled s'' ∧
      as.length + as'.length ≤ 16 * T + 10 :=
  (terminates hreach).finishes hrun

/-- The worker is asleep, and a submission has set `busy` and not signalled yet. -/
theorem mailbox_settles_one : ∃ s : State 1, (program 1).Reachable s ∧ s.worker = .blocked ∧
    s.busy = true ∧ ∃ as' s'', ((program 1).restrict s quiet).run s as' = some s'' ∧ Settled s'' ∧
      ([] : List (Action 1)).length + as'.length ≤ 16 * 1 + 10 := by
  have hrun : ((program 1).run (initial 1) [.worker, .worker, .worker, .call 0 "./Makefile",
      .submitter 0, .submitter 0, .submitter 0]).isSome := rfl
  obtain ⟨s, hs⟩ := Option.isSome_iff_exists.mp hrun
  have hpc : s.worker = .blocked ∧ s.busy = true := by
    cases hs
    exact ⟨rfl, rfl⟩
  exact ⟨s, ⟨_, hs⟩, hpc.1, hpc.2, mailbox_settles ⟨_, hs⟩ rfl⟩

end TaskMailbox
end SystemsCourse
