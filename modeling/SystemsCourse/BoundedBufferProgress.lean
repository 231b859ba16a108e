import SystemsCourse.BoundedBufferHistory

/-!
# `sem.c` never deadlocks

A thread that cannot take a step has not been created, has ended, or waits: a
consumer for a message, the producer for room, `main` for a thread that it joins.
So if no thread can take a step, `main` waits in a join, or everything has ended.
Before the shutdown the producer waits for room and every consumer for a message,
and the account of the permits leaves no place for the `B` slots.  After it a
consumer waits although `main` has posted its `N` permits, and there are at most as
many waiting consumers as permits.
-/
namespace SystemsCourse
namespace BoundedBuffer

variable {N B K : Nat} {s : State N}

/-! ## Threads that cannot take a step -/

theorem workerStep_eq_none {i : Fin N} (h : workerStep B s i = none)
    (hcreated : s.consumer i ≠ .notCreated) (hactive : s.consumer i ≠ .finished) :
    s.consumer i = .semWait ∧ s.fullSemaphore = 0 := by
  unfold workerStep at h
  cases hpc : s.consumer i with
  | notCreated => exact absurd hpc hcreated
  | semWait =>
    simp only [hpc] at h
    split_ifs at h with hfull
    exact ⟨rfl, hfull⟩
  | finished => exact absurd hpc hactive
  | _ => simp [hpc] at h

theorem producerStep_eq_none (h : producerStep B K s = none)
    (hcreated : s.producer ≠ .notCreated) (hactive : s.producer ≠ .finished) :
    (∃ i, s.producer = .semWait i) ∧ s.emptySemaphore = 0 := by
  unfold producerStep at h
  cases hpc : s.producer with
  | notCreated => exact absurd hpc hcreated
  | semWait i =>
    simp only [hpc] at h
    split_ifs at h with hempty
    exact ⟨⟨i, rfl⟩, hempty⟩
  | finished => exact absurd hpc hactive
  | _ => simp [hpc] at h

/-- The joins of `main` that wait. -/
inductive MainBlocked (s : State N) : Prop where
  | joinProducer (pc : s.main = .joinProducer) (active : s.producer ≠ .finished)
  | joinConsumer {i : Nat} (pc : s.main = .joinConsumer i) (h : i < N)
      (active : s.consumer ⟨i, h⟩ ≠ .finished)
  | finished (pc : s.main = .finished)

theorem mainStep_eq_none (h : mainStep K s = none) (hloop : s.main.InLoop N) : MainBlocked s := by
  unfold mainStep at h
  cases hpc : s.main with
  | createConsumer i =>
    rw [hpc] at hloop
    have hi : i < N := hloop
    simp [hpc, hi] at h
  | joinProducer =>
    simp only [hpc] at h
    split_ifs at h with hended
    exact .joinProducer hpc hended
  | joinConsumer i =>
    rw [hpc] at hloop
    have hi : i < N := hloop
    simp only [hpc, dif_pos hi] at h
    split_ifs at h with hended
    exact .joinConsumer hpc hi hended
  | finished => exact .finished hpc
  | _ => simp [hpc] at h

/-! ## Before and after the shutdown -/

/-- While `main` waits for the producer, not everybody can wait for a permit. -/
theorem Invariant.not_all_wait (h : Invariant B K s) (hB : 0 < B) (hdone : s.done = false)
    (hproducer : ∃ i, s.producer = .semWait i) (hempty : s.emptySemaphore = 0)
    (hfull : s.fullSemaphore = 0) : ∃ i, s.consumer i ≠ .semWait := by
  by_contra hall
  have hwait : ∀ i, s.consumer i = .semWait := fun i => by
    by_contra hi
    exact hall ⟨i, hi⟩
  have hzero {p : ConsumerPc → Prop} [DecidablePred p] (hp : ¬ p .semWait) :
      tally p s.consumer = 0 := tally_eq_zero_iff.mpr fun i => hwait i ▸ hp
  have htesting : testing s.consumer = 0 := hzero nofun
  have hentering : entering s.consumer = 0 := hzero nofun
  have hemptying : emptying s.consumer = 0 := hzero id
  obtain ⟨i, hi⟩ := hproducer
  have hslots := h.counts.slots
  have hpermits := h.counts.permits hdone
  rw [hi] at hslots hpermits
  change s.emptySemaphore + 0 + s.produced + emptying s.consumer = B + s.taken.length at hslots
  change s.fullSemaphore + testing s.consumer + entering s.consumer + 0 + s.taken.length
    = s.produced at hpermits
  omega

/-- **After the shutdown posts a waiting consumer finds a permit.** -/
theorem Invariant.permit_of_hasPosted (h : Invariant B K s) (hposted : s.main.HasPosted) {i : Fin N}
    (hwait : s.consumer i = .semWait) : 0 < s.fullSemaphore := by
  have hafter : s.main.AfterJoin ∧ s.main.postsLeft N = 0 := by
    cases hmain : s.main with
    | joinConsumer i => exact ⟨trivial, rfl⟩
    | finished => exact ⟨trivial, rfl⟩
    | _ =>
      rw [hmain] at hposted
      exact hposted.elim
  have hdone : s.done = true := h.phases.done.mpr (h.phases.afterJoin hafter.1)
  have hwakeups := h.counts.wakeups hdone
  have hpos : 0 < waiting s.consumer := tally_pos_iff.mpr ⟨i, hwait⟩
  rw [hafter.2] at hwakeups
  omega

/-- **If no thread can take a step, everything has ended.** -/
theorem Invariant.finished_of_stuck (h : Invariant B K s) (hN : 0 < N) (hB : 0 < B)
    (hstuck : ∀ t, (program N B K).step s t = none) : s.Finished := by
  have hp := h.phases
  have hconsumer (i : Fin N) (hcreated : s.main.created N ≤ i → False)
      (hactive : s.consumer i ≠ .finished) : s.consumer i = .semWait ∧ s.fullSemaphore = 0 :=
    workerStep_eq_none (hstuck (.consumer i)) (fun hi => hcreated ((hp.created i).mp hi)) hactive
  cases mainStep_eq_none (hstuck .main) hp.inLoop with
  | joinProducer pc active =>
    -- before the shutdown: the producer waits for room, and every consumer for a message
    exfalso
    have hcreated : s.producer ≠ .notCreated := by
      rw [ne_eq, hp.creates, pc]
      exact id
    have hdone : s.done = false := hp.running active
    obtain ⟨hwait, hempty⟩ := producerStep_eq_none (hstuck .producer) hcreated active
    have hall (i : Fin N) : s.consumer i = .semWait ∧ s.fullSemaphore = 0 := by
      refine hconsumer i ?_ fun hi => ?_
      · rw [pc]
        exact Nat.not_le.mpr i.isLt
      · rw [hp.finished i hi] at hdone
        cases hdone
    obtain ⟨i, hi⟩ := h.not_all_wait hB hdone hwait hempty (hall ⟨0, hN⟩).2
    exact hi (hall i).1
  | joinConsumer pc hi active =>
    -- after the shutdown: a consumer waits although `main` has posted its permits
    exfalso
    have hblocked := hconsumer _ (by rw [pc]; exact Nat.not_le.mpr hi) active
    have hpermit := h.permit_of_hasPosted (by rw [pc]; trivial) hblocked.1
    omega
  | finished pc =>
    refine ⟨hp.afterJoin (by rw [pc]; trivial), pc, fun i => hp.joined i ?_⟩
    rw [pc]
    exact i.isLt

/-- **The program never deadlocks.**  In every reachable state everything has ended
or some thread can take a step; and after the shutdown posts of `main` no consumer
waits with the semaphore at zero. -/
theorem deadlock_free (hN : 0 < N) (hB : 0 < B) (h : (program N B K).Reachable s) :
    (s.Finished ∨ ∃ t, ((program N B K).step s t).isSome) ∧
    (s.main.HasPosted → ∀ i, ¬ (s.consumer i = .semWait ∧ s.fullSemaphore = 0)) := by
  have hinv := Invariant.of_reachable h
  refine ⟨?_, fun hposted i hi => ?_⟩
  · by_cases hstuck : ∃ t, ((program N B K).step s t).isSome
    · exact Or.inr hstuck
    · refine Or.inl (hinv.finished_of_stuck hN hB fun t => ?_)
      exact Option.not_isSome_iff_eq_none.mp fun ht => hstuck ⟨t, ht⟩
  · have := hinv.permit_of_hasPosted hposted hi.1
    omega

/-- Consumer `i` takes the only message, it and consumer `j` wait for another one, and then
the producer ends and `main` posts for both. -/
def waitingSchedule (i j : Fin N) : List (Thread N) :=
  [.main, .main, .main, .producer, .producer, .producer, .consumer i, .consumer i, .consumer i,
    .consumer i, .consumer i, .consumer i, .consumer i, .consumer j, .producer, .main, .main, .main]

theorem deadlock_free_waitingSchedule :
    ∃ s, (program 2 1 1).run (initial 2 1) (waitingSchedule 0 1) = some s ∧
      (∀ i, s.consumer i = .semWait) ∧
      (s.Finished ∨ ∃ t, ((program 2 1 1).step s t).isSome) ∧
      ∀ i, ¬ (s.consumer i = .semWait ∧ s.fullSemaphore = 0) := by
  have hrun : ((program 2 1 1).run (initial 2 1) (waitingSchedule 0 1)).isSome := rfl
  obtain ⟨s, hs⟩ := Option.isSome_iff_exists.mp hrun
  have hfree := deadlock_free (by decide) (by decide) ⟨_, hs⟩
  have hposted : s.main.HasPosted ∧ ∀ i, s.consumer i = .semWait := by
    cases hs
    exact ⟨trivial, by decide⟩
  exact ⟨s, hs, hposted.2, hfree.1, hfree.2 hposted.1⟩

end BoundedBuffer
end SystemsCourse
