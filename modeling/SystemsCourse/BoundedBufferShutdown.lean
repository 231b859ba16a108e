import SystemsCourse.BoundedBufferHistory

/-!
# What the shutdown of `sem.c` loses

A consumer that finds `done` set leaves, whether the permit that it took stands for
a message or is one of those that `main` posts.  So the messages that are still in
the ring when the producer sets `done` are taken only by consumers that have passed
both tests by then.  The number of messages taken, with those about to be taken, no
longer changes (`claimed_step`): a run loses no message exactly if this number is
right at the moment of `done = 1`, that is, if no permit is left in the semaphore
and none is in the hands of a consumer that has yet to test `done`.
-/
namespace SystemsCourse
namespace BoundedBuffer

variable {N B K : Nat} {s s' : State N}

/-- Each of the `K` messages has been taken from the ring once and consumed once. -/
def State.AllConsumed (K : Nat) (s : State N) : Prop :=
  ∀ i < K, s.taken.count (some i) = 1 ∧ s.consumed.count (some i) = 1

/-- If the step is `done = 1`, then no permit stands for a message any more: the
semaphore is at zero, and no consumer is between its `sem_wait` and its second test
of `done`. -/
def QuietShutdown (s : State N) : Thread N → Prop
  | .producer => s.producer = .setDone → s.fullSemaphore = 0 ∧ ∀ i, s.consumer i ≠ .doneTest
  | _ => True

/-! ## After `done` -/

/-- **Once `done` is set nobody enters.**  A step keeps the number of the messages
taken or about to be taken. -/
theorem claimed_step (h : Phases K s) (hdone : s.done = true) {t : Thread N}
    (hstep : (program N B K).step s t = some s') : s'.done = true ∧ s'.produced = s.produced ∧
      entering s'.consumer + s'.taken.length = entering s.consumer + s.taken.length := by
  have hproducer : s.producer = .finished := h.done.mp hdone
  have leaves {i : Fin N} {pc : ConsumerPc} (hpc : s.consumer i = pc) (pc' : ConsumerPc) :
      entering (Function.update s.consumer i pc') + weight (· = .critical) pc
        = entering s.consumer + weight (· = .critical) pc' := (counts_update hpc pc').2.2.1
  cases t with
  | consumer i =>
    cases workerStep_cases hstep with
    | go pc running => simp [hdone] at running
    | stop pc ended => exact ⟨hdone, rfl, congrArg (· + s.taken.length) (leaves pc .finished)⟩
    | wait pc permit => exact ⟨hdone, rfl, congrArg (· + s.taken.length) (leaves pc .doneTest)⟩
    | enter pc running => simp [hdone] at running
    | leave pc ended => exact ⟨hdone, rfl, congrArg (· + s.taken.length) (leaves pc .finished)⟩
    | take pc =>
      -- the message about to be taken is now among those taken
      refine ⟨hdone, rfl, ?_⟩
      have hentering := leaves pc (.consume (s.buffer s.back))
      change _ + 1 = entering s.consumer + 0 at hentering
      show entering (Function.update s.consumer i (.consume (s.buffer s.back)))
        + (s.taken ++ [s.buffer s.back]).length = entering s.consumer + s.taken.length
      rw [List.length_append, List.length_singleton]
      omega
    | @consume thebuf pc => exact ⟨hdone, rfl, congrArg (· + s.taken.length) (leaves pc .semPost)⟩
    | post pc => exact ⟨hdone, rfl, congrArg (· + s.taken.length) (leaves pc .loopTest)⟩
  | producer => cases producerStep_cases hstep with | _ pc => simp [hproducer] at pc
  | main =>
    cases mainStep_cases hstep with
    | createConsumer pc hi =>
      have := h.creates.mpr (by rw [pc]; trivial)
      simp [hproducer] at this
    | _ => exact ⟨hdone, rfl, rfl⟩

/-- Only the producer sets `done`. -/
theorem done_step (hdone : s.done = false) {t : Thread N}
    (hstep : (program N B K).step s t = some s') (hdone' : s'.done = true) :
    t = .producer ∧ s.producer = .setDone ∧ s' = { s with producer := .finished, done := true } := by
  cases t with
  | consumer i =>
    cases workerStep_cases hstep with
    | _ => simp [State.move, hdone] at hdone'
  | producer =>
    cases producerStep_cases hstep with
    | setDone pc => exact ⟨rfl, pc, rfl⟩
    | _ => simp [hdone] at hdone'
  | main =>
    cases mainStep_cases hstep with
    | _ => simp [State.move, hdone] at hdone'

/-- At `done = 1` every message is claimed if and only if no permit is left. -/
theorem Invariant.claimed_iff (h : Invariant B K s) (hpc : s.producer = .setDone) :
    entering s.consumer + s.taken.length = s.produced ↔
      s.fullSemaphore = 0 ∧ ∀ i, s.consumer i ≠ .doneTest := by
  have hdone : s.done = false := h.phases.running (by rw [hpc]; nofun)
  have hpermits := h.counts.permits hdone
  have htesting : testing s.consumer = 0 ↔ ∀ i, s.consumer i ≠ .doneTest := tally_eq_zero_iff
  rw [hpc] at hpermits
  change s.fullSemaphore + testing s.consumer + entering s.consumer + 0 + s.taken.length
    = s.produced at hpermits
  rw [← htesting]
  omega

/-! ## The end of a run -/

/-- At the end the messages consumed are those taken, and these are the first ones. -/
theorem Invariant.allConsumed_iff (h : Invariant B K s) (hend : s.ShutDown) :
    s.AllConsumed K ↔ entering s.consumer + s.taken.length = s.produced := by
  obtain ⟨hproducer, -, hconsumers⟩ := hend
  have hentering : entering s.consumer = 0 :=
    tally_eq_zero_iff.mpr fun i => by rw [hconsumers i]; nofun
  have hconsumed : ∀ x, s.consumed.count x = s.taken.count x := fun x => by
    have hheld : tally (· = .consume x) s.consumer = 0 :=
      tally_eq_zero_iff.mpr fun i => by rw [hconsumers i]; nofun
    have := h.history.consumed x
    omega
  have hproduced : s.produced = K := by
    have := h.phases.produced
    rwa [hproducer] at this
  have hcount : ∀ i, s.taken.count (some i) = if i < s.taken.length then 1 else 0 := fun i => by
    rw [h.history.inOrder, List.count_map_of_injective _ _ (Option.some_injective _), List.length_map,
      List.length_range]
    exact List.count_range
  have hle := h.counts.messages
  rw [hentering, hproduced] at hle ⊢
  constructor
  · intro hall
    -- otherwise the first message not taken is missing
    by_contra hne
    have := (hall s.taken.length (by omega)).1
    rw [hcount, if_neg (Nat.lt_irrefl _)] at this
    cases this
  · intro hlength i hi
    rw [hconsumed, hcount, if_pos (by omega)]
    exact ⟨rfl, rfl⟩

/-- Once `done` is set, what has been claimed of the messages is final. -/
theorem claimed_run {ts : List (Thread N)} (hinv : Invariant B K s) (hdone : s.done = true)
    (hrun : (program N B K).run s ts = some s') : s'.produced = s.produced ∧
      entering s'.consumer + s'.taken.length = entering s.consumer + s.taken.length := by
  have keeps (u : State N) (t : Thread N) (u' : State N)
      (hu : Invariant B K u ∧ u.done = true ∧ u.produced = s.produced ∧
        entering u.consumer + u.taken.length = entering s.consumer + s.taken.length)
      (hstep : (program N B K).step u t = some u') :
      Invariant B K u' ∧ u'.done = true ∧ u'.produced = s.produced ∧
        entering u'.consumer + u'.taken.length = entering s.consumer + s.taken.length := by
    obtain ⟨hinv, hdone, hproduced, hclaimed⟩ := hu
    obtain ⟨hdone', hproduced', hclaimed'⟩ := claimed_step hinv.phases hdone hstep
    exact ⟨hinv.step hstep, hdone', hproduced'.trans hproduced, hclaimed'.trans hclaimed⟩
  exact (StepSystem.run_invariant keeps hrun ⟨hinv, hdone, rfl, rfl⟩).2.2

/-- In a run with a quiet shutdown every message is claimed once `done` is set. -/
theorem claimed_of_quietShutdown {ts : List (Thread N)}
    (halong : (program N B K).Along QuietShutdown (initial N B) ts)
    (hrun : (program N B K).run (initial N B) ts = some s) (hdone : s.done = true) :
    entering s.consumer + s.taken.length = s.produced := by
  have keeps (u : State N) (t : Thread N) (u' : State N)
      (hu : Invariant B K u ∧
        (u.done = true → entering u.consumer + u.taken.length = u.produced))
      (hquiet : QuietShutdown u t) (hstep : (program N B K).step u t = some u') :
      Invariant B K u' ∧
        (u'.done = true → entering u'.consumer + u'.taken.length = u'.produced) := by
    obtain ⟨hinv, hclaimed⟩ := hu
    refine ⟨hinv.step hstep, fun hdone' => ?_⟩
    cases hd : u.done with
    | false =>
      obtain ⟨rfl, hpc, rfl⟩ := done_step hd hstep hdone'
      exact (hinv.claimed_iff hpc).mpr (hquiet hpc)
    | true =>
      obtain ⟨-, hproduced, hsame⟩ := claimed_step hinv.phases hd hstep
      rw [hsame, hproduced]
      exact hclaimed hd
  exact (halong.invariant keeps hrun ⟨invariant_initial, nofun⟩).2 hdone

/-- A step that is not quiet sets `done` while a message is not claimed. -/
theorem unclaimed_of_not_quiet (hinv : Invariant B K s) {t : Thread N} (hbad : ¬ QuietShutdown s t)
    (hstep : (program N B K).step s t = some s') : s'.done = true ∧
      entering s'.consumer + s'.taken.length ≠ s'.produced := by
  cases t with
  | consumer i => exact absurd trivial hbad
  | main => exact absurd trivial hbad
  | producer =>
    obtain ⟨hpc, hpermit⟩ := Classical.not_imp.mp hbad
    rw [← hinv.claimed_iff hpc] at hpermit
    cases producerStep_cases hstep with
    | setDone pc => exact ⟨rfl, hpermit⟩
    | _ pc => simp [hpc] at pc

/-- **A run loses no message if and only if `done` is set when no permit stands for
a message any more**: for every run at whose end the producer, the posting loop of
`main` and the consumers have ended. -/
theorem allConsumed_iff_quietShutdown {ts : List (Thread N)}
    (hrun : (program N B K).run (initial N B) ts = some s) (hend : s.ShutDown) :
    s.AllConsumed K ↔ (program N B K).Along QuietShutdown (initial N B) ts := by
  have hinv : Invariant B K s := .of_reachable ⟨ts, hrun⟩
  have hdone : s.done = true := hinv.phases.done.mpr hend.1
  rw [hinv.allConsumed_iff hend]
  constructor
  · intro hclaimed
    by_contra halong
    -- what is not claimed at the step that is not quiet stays so to the end
    obtain ⟨ts₁, u, t, u', ts₂, h₁, hbad, hstep, h₂⟩ := StepSystem.exists_of_not_along halong hrun
    have hu : Invariant B K u := .of_reachable ⟨ts₁, h₁⟩
    obtain ⟨hdone', hunclaimed⟩ := unclaimed_of_not_quiet hu hbad hstep
    obtain ⟨hproduced, hsame⟩ := claimed_run (hu.step hstep) hdone' h₂
    rw [hsame, hproduced] at hclaimed
    exact hunclaimed hclaimed
  · intro halong
    exact claimed_of_quietShutdown halong hrun hdone

/-- The consumer passes both tests of `done` before the producer sets it. -/
def quietSchedule : List (Thread 1) :=
  [.main, .main, .producer, .producer, .producer, .consumer 0, .consumer 0, .consumer 0, .producer,
    .consumer 0, .consumer 0, .consumer 0, .consumer 0, .main, .main]

/-- The producer sets `done` while the consumer is in front of its second test. -/
def lossySchedule : List (Thread 1) :=
  [.main, .main, .producer, .producer, .producer, .consumer 0, .consumer 0, .producer, .consumer 0,
    .main, .main]

theorem allConsumed_iff_quietShutdown_quietSchedule :
    (program 1 1 1).Along QuietShutdown (initial 1 1) quietSchedule := by
  have hrun : ((program 1 1 1).run (initial 1 1) quietSchedule).isSome := rfl
  obtain ⟨s, hs⟩ := Option.isSome_iff_exists.mp hrun
  have hend : s.ShutDown ∧ s.AllConsumed 1 := by
    cases hs
    exact ⟨⟨rfl, trivial, by decide⟩, by unfold State.AllConsumed; decide⟩
  exact (allConsumed_iff_quietShutdown hs hend.1).mp hend.2

/-- **One consumer, one slot, one message: the message is lost.** -/
theorem message_lost : ∃ s : State 1, (program 1 1 1).run (initial 1 1) lossySchedule = some s ∧
    s.ShutDown ∧ s.taken = [] ∧ s.consumed = [] ∧ ¬ s.AllConsumed 1 := by
  have hrun : ((program 1 1 1).run (initial 1 1) lossySchedule).isSome := rfl
  obtain ⟨s, hs⟩ := Option.isSome_iff_exists.mp hrun
  refine ⟨s, hs, ?_⟩
  cases hs
  exact ⟨⟨rfl, trivial, by decide⟩, rfl, rfl, by unfold State.AllConsumed; decide⟩

end BoundedBuffer
end SystemsCourse
