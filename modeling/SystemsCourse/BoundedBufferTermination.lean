import SystemsCourse.BoundedBufferProgress
import SystemsCourse.StepProgress

/-!
# `sem.c` comes to an end

No thread of the program can go on for ever: a consumer takes a permit of the full
semaphore in each pass of its loop, and only the producer and the shutdown loop of
`main` post such permits, `K + N` of them.  So a permit is worth the steps of a pass,
what a thread has still to do is worth its steps and the permits that it will post,
and every step of every thread lowers the sum (`Measure.step`).  As the program never
deadlocks, every run ends with all threads ended (`terminates`).
-/
namespace SystemsCourse
namespace BoundedBuffer

variable {N B K : Nat} {s s' : State N}

/-! ## The measure -/

/-- What a consumer has still to do in the pass of its loop that it is in. -/
def ConsumerPc.stepsLeft : ConsumerPc → Nat
  | .notCreated => 2
  | .loopTest => 2
  | .semWait => 1
  | .doneTest => 6
  | .critical => 5
  | .consume _ => 4
  | .semPost => 3
  | .finished => 0

/-- What a permit of the full semaphore is worth. -/
def permitWorth : Nat := 6

/-- What the producer has still to do, with the permits that it has still to post. -/
def ProducerPc.stepsLeft (K : Nat) : ProducerPc → Nat
  | .notCreated => 9 * K + 2
  | .semWait i => 9 * (K - (i + 1)) + 11
  | .critical i => 9 * (K - (i + 1)) + 10
  | .semPost i => 9 * (K - (i + 1)) + 9
  | .setDone => 1
  | .finished => 0

/-- What `main` has still to do, with the permits that it has still to post. -/
def MainPc.stepsLeft (N : Nat) : MainPc → Nat
  | .createConsumer i => 8 * N + 2 + (N - i)
  | .createProducer => 8 * N + 2
  | .joinProducer => 8 * N + 1
  | .semPost i => N + 7 * (N - (i + 1)) + 7
  | .joinConsumer i => N - i
  | .finished => 0

/-- **The measure.** -/
def State.stepsLeft (K : Nat) (s : State N) : Nat :=
  permitWorth * s.fullSemaphore + ∑ i, (s.consumer i).stepsLeft + s.producer.stepsLeft K +
    s.main.stepsLeft N

theorem stepsLeft_producerLoop_zero : (producerLoop K 0).stepsLeft K ≤ 9 * K + 2 := by
  unfold producerLoop
  split
  · simp only [ProducerPc.stepsLeft]
    omega
  · exact Nat.le_add_left 1 _

theorem stepsLeft_producerLoop_succ {i : Nat} :
    (producerLoop K (i + 1)).stepsLeft K ≤ 9 * (K - (i + 1)) + 2 := by
  unfold producerLoop
  split
  · simp only [ProducerPc.stepsLeft]
    omega
  · exact Nat.le_add_left 1 _

theorem stepsLeft_joinLoop (i : Nat) : (joinLoop N i).stepsLeft N ≤ N - i := by
  unfold joinLoop
  split
  · exact Nat.le_refl _
  · exact Nat.zero_le _

theorem stepsLeft_postLoop (i : Nat) : (postLoop N i).stepsLeft N ≤ N + 7 * (N - i) := by
  unfold postLoop
  split
  · simp only [MainPc.stepsLeft]
    omega
  · have := stepsLeft_joinLoop (N := N) 0
    omega

theorem stepsLeft_createLoop (i : Nat) : (createLoop N i).stepsLeft N ≤ 8 * N + 2 + (N - i) := by
  unfold createLoop
  split
  · exact Nat.le_refl _
  · exact Nat.le_add_right _ _

/-! ## Every step lowers it -/

/-- What one consumer's move changes in the sum over the consumers. -/
theorem sum_stepsLeft_update {i : Fin N} {pc : ConsumerPc} (hpc : s.consumer i = pc) (pc' : ConsumerPc) :
    ∑ j, (Function.update s.consumer i pc' j).stepsLeft + pc.stepsLeft =
      ∑ j, (s.consumer j).stepsLeft + pc'.stepsLeft := by
  rw [← hpc]
  exact sum_update ConsumerPc.stepsLeft s.consumer i pc'

/-- A consumer's move lowers the measure if it lowers what the consumer has to do,
counted with the permits. -/
theorem stepsLeft_move {i : Fin N} {pc pc' : ConsumerPc} (hpc : s.consumer i = pc)
    (hconsumer : s'.consumer = Function.update s.consumer i pc')
    (hrest : s'.producer = s.producer ∧ s'.main = s.main)
    (hlt : permitWorth * s'.fullSemaphore + pc'.stepsLeft < permitWorth * s.fullSemaphore + pc.stepsLeft) :
    s'.stepsLeft K < s.stepsLeft K := by
  have hsum := sum_stepsLeft_update hpc pc'
  unfold State.stepsLeft
  rw [hconsumer, hrest.1, hrest.2]
  omega

theorem stepsLeft_workerStep {i : Fin N} (hstep : WorkerStep B s i s') :
    s'.stepsLeft K < s.stepsLeft K := by
  cases hstep with
  | wait pc permit =>
    -- the permit pays for the rest of the pass
    refine stepsLeft_move pc rfl ⟨rfl, rfl⟩ ?_
    simp only [permitWorth, ConsumerPc.stepsLeft]
    omega
  | go pc _ | enter pc _ | take pc | consume pc | post pc =>
    exact stepsLeft_move pc rfl ⟨rfl, rfl⟩ (Nat.add_lt_add_left (Nat.lt_succ_self _) _)
  | stop pc _ | leave pc _ =>
    exact stepsLeft_move pc rfl ⟨rfl, rfl⟩ (Nat.add_lt_add_left (Nat.zero_lt_succ _) _)

/-- The producer's move lowers the measure if it lowers what the producer has to do,
counted with the permits. -/
theorem stepsLeft_produce (hrest : s'.consumer = s.consumer ∧ s'.main = s.main)
    (hlt : permitWorth * s'.fullSemaphore + s'.producer.stepsLeft K
      < permitWorth * s.fullSemaphore + s.producer.stepsLeft K) : s'.stepsLeft K < s.stepsLeft K := by
  unfold State.stepsLeft
  rw [hrest.1, hrest.2]
  omega

theorem stepsLeft_producerStep (hstep : ProducerStep B K s s') : s'.stepsLeft K < s.stepsLeft K := by
  cases hstep with
  | wait pc _ | put pc | setDone pc =>
    refine stepsLeft_produce ⟨rfl, rfl⟩ ?_
    rw [pc]
    exact Nat.add_lt_add_left (Nat.lt_succ_self _) _
  | @post i pc =>
    refine stepsLeft_produce ⟨rfl, rfl⟩ ?_
    have hloop := stepsLeft_producerLoop_succ (K := K) (i := i)
    have hleft : s.producer.stepsLeft K = 9 * (K - (i + 1)) + 9 := by rw [pc]; rfl
    show permitWorth * (s.fullSemaphore + 1) + (producerLoop K (i + 1)).stepsLeft K < _
    rw [hleft, permitWorth]
    omega

/-- `main`'s move within its loops lowers the measure if it lowers what `main` has to
do, counted with the permits. -/
theorem stepsLeft_main (hrest : s'.consumer = s.consumer ∧ s'.producer = s.producer)
    (hlt : permitWorth * s'.fullSemaphore + s'.main.stepsLeft N
      < permitWorth * s.fullSemaphore + s.main.stepsLeft N) : s'.stepsLeft K < s.stepsLeft K := by
  unfold State.stepsLeft
  rw [hrest.1, hrest.2]
  omega

theorem stepsLeft_mainStep (h : Phases K s) (hstep : MainStep K s s') :
    s'.stepsLeft K < s.stepsLeft K := by
  cases hstep with
  | @createConsumer i pc hi =>
    have hloop := stepsLeft_createLoop (N := N) (i + 1)
    have hleft : s.main.stepsLeft N = 8 * N + 2 + (N - i) := by rw [pc]; rfl
    have hsum : ∑ j, (Function.update s.consumer ⟨i, hi⟩ .loopTest j).stepsLeft =
        ∑ j, (s.consumer j).stepsLeft :=
      Nat.add_right_cancel (sum_stepsLeft_update (h.notCreated pc hi) .loopTest)
    show permitWorth * s.fullSemaphore + ∑ j, (Function.update s.consumer ⟨i, hi⟩ .loopTest j).stepsLeft +
      s.producer.stepsLeft K + (createLoop N (i + 1)).stepsLeft N < _
    rw [hsum, State.stepsLeft, hleft]
    omega
  | createProducer pc =>
    have hproducer : s.producer = .notCreated := h.creates.mpr (by rw [pc]; trivial)
    have hloop := stepsLeft_producerLoop_zero (K := K)
    have hleft : s.main.stepsLeft N = 8 * N + 2 ∧ s.producer.stepsLeft K = 9 * K + 2 := by
      rw [pc, hproducer]
      exact ⟨rfl, rfl⟩
    show permitWorth * s.fullSemaphore + ∑ j, (s.consumer j).stepsLeft + (producerLoop K 0).stepsLeft K +
      (8 * N + 1) < _
    rw [State.stepsLeft, hleft.1, hleft.2]
    omega
  | joinProducer pc _ =>
    refine stepsLeft_main ⟨rfl, rfl⟩ (Nat.add_lt_add_left ?_ _)
    have hloop := stepsLeft_postLoop (N := N) 0
    have hleft : s.main.stepsLeft N = 8 * N + 1 := by rw [pc]; rfl
    show (postLoop N 0).stepsLeft N < _
    omega
  | @post i pc =>
    refine stepsLeft_main ⟨rfl, rfl⟩ ?_
    have hloop := stepsLeft_postLoop (N := N) (i + 1)
    have hleft : s.main.stepsLeft N = N + 7 * (N - (i + 1)) + 7 := by rw [pc]; rfl
    show permitWorth * (s.fullSemaphore + 1) + (postLoop N (i + 1)).stepsLeft N < _
    rw [hleft, permitWorth]
    omega
  | @joinConsumer i pc hi _ =>
    refine stepsLeft_main ⟨rfl, rfl⟩ (Nat.add_lt_add_left ?_ _)
    have hloop := stepsLeft_joinLoop (N := N) (i + 1)
    have hleft : s.main.stepsLeft N = N - i := by rw [pc]; rfl
    show (joinLoop N (i + 1)).stepsLeft N < _
    omega

/-- **Every step of every thread lowers the measure.** -/
theorem stepsLeft_step (h : Invariant B K s) {t : Thread N} (hstep : step B K s t = some s') :
    s'.stepsLeft K < s.stepsLeft K := by
  cases t with
  | consumer i => exact stepsLeft_workerStep (workerStep_cases hstep)
  | producer => exact stepsLeft_producerStep (producerStep_cases hstep)
  | main => exact stepsLeft_mainStep h.phases (mainStep_cases hstep)

/-! ## Every run ends -/

theorem stepsLeft_initial : (initial N B).stepsLeft K ≤ 11 * N + 9 * K + 4 := by
  have hloop := stepsLeft_createLoop (N := N) 0
  have hsum : ∑ i, ((initial N B).consumer i).stepsLeft = N * 2 := by
    rw [show (fun i => ((initial N B).consumer i).stepsLeft) = fun _ => 2 from rfl, Finset.sum_const,
      Finset.card_univ, Fintype.card_fin, Nat.nsmul_eq_mul]
  unfold State.stepsLeft
  rw [hsum]
  simp only [initial, permitWorth, ProducerPc.stepsLeft]
  omega

theorem terminates (hN : 0 < N) (hB : 0 < B) :
    (program N B K).Terminates (11 * N + 9 * K + 4) State.Finished :=
  .of_measure invariant_initial (fun _ _ _ hinv hstep => hinv.step hstep)
    (fun _ _ _ hinv hstep => stepsLeft_step hinv hstep) stepsLeft_initial
    (fun _ hinv hstuck => hinv.finished_of_stuck hN hB hstuck)

/-- **Every run finishes.**  Whatever the schedule, a run can be continued until the
producer, the consumers and `main` have all ended, and it has at most
`11 * N + 9 * K + 4` steps by then. -/
theorem every_run_finishes (hN : 0 < N) (hB : 0 < B) {ts : List (Thread N)}
    (hrun : (program N B K).run (initial N B) ts = some s) :
    ∃ ts' s', (program N B K).run s ts' = some s' ∧ s'.Finished ∧
      ts.length + ts'.length ≤ 11 * N + 9 * K + 4 :=
  (terminates hN hB).finishes hrun

/-- Both consumers have only to leave. -/
theorem every_run_finishes_waitingSchedule :
    ∃ s, (program 2 1 1).run (initial 2 1) (waitingSchedule 0 1) = some s ∧
      ∃ ts' s', (program 2 1 1).run s ts' = some s' ∧ s'.Finished ∧ 18 + ts'.length ≤ 35 := by
  have hrun : ((program 2 1 1).run (initial 2 1) (waitingSchedule 0 1)).isSome := rfl
  obtain ⟨s, hs⟩ := Option.isSome_iff_exists.mp hrun
  exact ⟨s, hs, every_run_finishes (by decide) (by decide) hs⟩

end BoundedBuffer
end SystemsCourse
