import Mathlib.Data.List.Count
import SystemsCourse.BoundedBufferShutdown
import SystemsCourse.BoundedBufferTermination

/-!
# How much the shutdown of `sem.c` loses

What is lost is what is still in the ring when everything has ended: the newest
messages, at most one for each slot, and their blocks with them (`losses`).  It can
be as much as that: if the consumers do nothing while the producer fills the ring for
the last time, each of them finds `done` set at its next test, whatever the number of
consumers (`exists_losing_run`).  So the numbers of messages that can be lost are known
(`exists_outcome_iff`).
-/
namespace SystemsCourse
namespace BoundedBuffer

variable {N B K : Nat} {s s' : State N}

/-- When the consumers have ended, what has been taken has been printed and released. -/
theorem Invariant.consumed_perm (h : Invariant B K s) (hended : ∀ i, s.consumer i = .finished) :
    s.consumed.Perm ((List.range s.taken.length).map some) := by
  rw [← h.history.inOrder]
  refine List.perm_iff_count.mpr fun x => ?_
  have hheld : tally (· = .consume x) s.consumer = 0 :=
    tally_eq_zero_iff.mpr fun i => by rw [hended i]; nofun
  have := h.history.consumed x
  omega

/-- When the producer has ended, the ring holds what has not been taken. -/
theorem Invariant.ring_of_produced (h : Invariant B K s) (hended : s.producer = .finished) :
    RingHolds B id s.taken.length K s.buffer := by
  have hproduced : s.produced = K := by
    have := h.phases.produced
    rwa [hended] at this
  exact hproduced ▸ h.history.ring

/-- **At most `B` messages are lost, the newest ones.**  When the program has shut
down, the blocks of the first `m` messages have been printed and released once each;
the other `K - m ≤ B` are still in the ring, and nobody will release them. -/
theorem losses (h : (program N B K).Reachable s) (hend : s.ShutDown) : ∃ m, m ≤ K ∧ K ≤ m + B ∧
    s.consumed.Perm ((List.range m).map some) ∧ ∀ i, m ≤ i → i < K → s.buffer (i % B) = some i := by
  have hinv := Invariant.of_reachable h
  have hring := hinv.ring_of_produced hend.1
  have hroom := hring.room
  refine ⟨s.taken.length, hring.le, hroom, hinv.consumed_perm hend.2.2, fun i hi hK => ?_⟩
  rw [hring.slots i hi (by omega), if_pos hK]
  rfl

/-- One consumer that leaves at its second test. -/
theorem losses_one : ∃ s : State 1, (program 1 1 1).Reachable s ∧ s.ShutDown ∧
    ∃ m, m ≤ 1 ∧ 1 ≤ m + 1 ∧ s.consumed.Perm ((List.range m).map some) ∧
      ∀ i, m ≤ i → i < 1 → s.buffer (i % 1) = some i := by
  have hrun : ((program 1 1 1).run (initial 1 1) lossySchedule).isSome := rfl
  obtain ⟨s, hs⟩ := Option.isSome_iff_exists.mp hrun
  have hend : s.ShutDown := by
    cases hs
    exact ⟨rfl, trivial, by decide⟩
  exact ⟨s, ⟨_, hs⟩, hend, losses ⟨_, hs⟩ hend⟩

/-! ## Every loss up to that occurs -/

/-- All consumers are in front of their loops; `taken` messages have been taken, and
`filled` slots are full. -/
structure Idle (B K taken filled : Nat) (s : State N) : Prop where
  reachable : (program N B K).Reachable s
  main : s.main = .joinProducer
  consumer : s.consumer = fun _ => .loopTest
  producer : s.producer = producerLoop K (taken + filled)
  running : s.done = false
  fullSemaphore : s.fullSemaphore = filled
  emptySemaphore : s.emptySemaphore + filled = B
  length : s.taken.length = taken

/-- `main` creates the consumers. -/
theorem exists_created (i : Nat) (hi : i ≤ N) : (program N B K).Reachable { initial N B with
    main := createLoop N i
    consumer := fun j => if (j : Nat) < i then .loopTest else .notCreated } := by
  induction i with
  | zero =>
    simp only [Nat.not_lt_zero, if_false]
    exact StepSystem.reachable_init
  | succ i ih =>
    refine (ih (by omega)).step (t := .main) ?_
    have hloop : createLoop N i = .createConsumer i := if_pos (by omega)
    show mainStep K _ = _
    simp only [mainStep, hloop, dif_pos (show i < N by omega), State.move]
    congr 2
    funext j
    by_cases hj : j = ⟨i, hi⟩
    · subst hj
      rw [Function.update_self, if_pos (Nat.lt_succ_self i)]
    · have hne : (j : Nat) ≠ i := fun he => hj (Fin.ext he)
      rw [Function.update_of_ne hj]
      exact if_congr (by omega) rfl rfl

theorem exists_idle_zero : ∃ s : State N, Idle B K 0 0 s := by
  have hcreated := exists_created (B := B) (K := K) N (Nat.le_refl N)
  have hloop : createLoop N N = .createProducer := if_neg (Nat.lt_irrefl N)
  rw [hloop] at hcreated
  refine ⟨_, hcreated.step (t := .main) rfl, rfl, ?_, rfl, rfl, rfl, Nat.add_zero B, rfl⟩
  funext j
  exact if_pos j.isLt

theorem reachable_producer (h : (program N B K).Reachable s) (hstep : ProducerStep B K s s') :
    (program N B K).Reachable s' := by
  refine h.step (t := .producer) ?_
  show producerStep B K s = some s'
  cases hstep with
  | wait pc room =>
    rw [producerStep, pc]
    exact if_neg (Nat.ne_of_gt room)
  | put pc | post pc | setDone pc => rw [producerStep, pc]

theorem reachable_worker (h : (program N B K).Reachable s) {i : Fin N} (hstep : WorkerStep B s i s') :
    (program N B K).Reachable s' := by
  refine h.step (t := .consumer i) ?_
  show workerStep B s i = some s'
  cases hstep with
  | go pc test | stop pc test | enter pc test | leave pc test => simp [workerStep, pc, test]
  | wait pc permit =>
    rw [workerStep, pc]
    exact if_neg (Nat.ne_of_gt permit)
  | take pc | consume pc | post pc => rw [workerStep, pc]

/-- The producer fills a slot. -/
theorem Idle.fill {taken filled : Nat} (h : Idle B K taken filled s) (hroom : filled < B)
    (hmore : taken + filled < K) : ∃ s' : State N, Idle B K taken (filled + 1) s' := by
  obtain ⟨hreach, hmain, hconsumer, hproducer, hrunning, hfull, hempty, hlength⟩ := h
  have hpc : s.producer = .semWait (taken + filled) := hproducer.trans (if_pos hmore)
  have hwait := reachable_producer hreach (.wait hpc (by omega))
  have hput := reachable_producer hwait (.put rfl)
  have hpost := reachable_producer hput (.post rfl)
  refine ⟨_, hpost, hmain, hconsumer, rfl, hrunning, congrArg (· + 1) hfull, ?_, hlength⟩
  show s.emptySemaphore - 1 + (filled + 1) = B
  omega

/-- A consumer takes a message. -/
theorem Idle.consume {taken filled : Nat} (h : Idle B K taken (filled + 1) s) (i : Fin N) :
    ∃ s' : State N, Idle B K (taken + 1) filled s' := by
  obtain ⟨hreach, hmain, hconsumer, hproducer, hrunning, hfull, hempty, hlength⟩ := h
  have at_self (f : Fin N → ConsumerPc) (pc : ConsumerPc) : Function.update f i pc i = pc :=
    Function.update_self _ _ _
  have hgo := reachable_worker hreach (.go (i := i) (by rw [hconsumer]) hrunning)
  have hwait := reachable_worker hgo (.wait (at_self _ _) (by show 0 < s.fullSemaphore; omega))
  have henter := reachable_worker hwait (.enter (at_self _ _) hrunning)
  have htake := reachable_worker henter (.take (at_self _ _))
  have hprint := reachable_worker htake (.consume (at_self _ _))
  have hpost := reachable_worker hprint (.post (at_self _ _))
  refine ⟨_, hpost, hmain, ?_, ?_, hrunning, ?_, ?_, ?_⟩
  · simp only [State.move, Function.update_idem, hconsumer]
    exact Function.update_eq_self i _
  · rw [Nat.add_assoc, Nat.add_comm 1 filled]
    exact hproducer
  · show s.fullSemaphore - 1 = filled
    omega
  · show s.emptySemaphore + 1 + filled = B
    omega
  · show (s.taken ++ [s.buffer s.back]).length = taken + 1
    rw [List.length_append, hlength]
    rfl

/-- The consumers take the messages one by one, as soon as they are there. -/
theorem exists_idle_taken (hN : 0 < N) (hB : 0 < B) {taken : Nat} (h : taken ≤ K) :
    ∃ s : State N, Idle B K taken 0 s := by
  induction taken with
  | zero => exact exists_idle_zero
  | succ taken ih =>
    obtain ⟨s, hs⟩ := ih (by omega)
    obtain ⟨s', hs'⟩ := hs.fill hB h
    exact hs'.consume ⟨0, hN⟩

/-- The producer fills the ring, and no consumer moves. -/
theorem exists_idle_filled (hN : 0 < N) (hB : 0 < B) {taken filled : Nat} (hroom : filled ≤ B)
    (h : taken + filled ≤ K) : ∃ s : State N, Idle B K taken filled s := by
  induction filled with
  | zero => exact exists_idle_taken hN hB h
  | succ filled ih =>
    obtain ⟨s, hs⟩ := ih (by omega) (by omega)
    exact hs.fill hroom h

/-- Any number of messages up to `B` can be lost. -/
theorem exists_losing_run (hN : 0 < N) (hB : 0 < B) {m : Nat} (hm : m ≤ K) (hlost : K ≤ m + B) :
    ∃ s : State N, (program N B K).Reachable s ∧ s.Finished ∧
      s.consumed.Perm ((List.range m).map some) := by
  obtain ⟨s, hs⟩ := exists_idle_filled (N := N) hN hB (show K - m ≤ B by omega)
    (show m + (K - m) ≤ K by omega)
  obtain ⟨hreach, -, hconsumer, hproducer, -, -, -, hlength⟩ := hs
  have hpc : s.producer = .setDone := hproducer.trans (if_neg (by omega))
  -- no consumer has passed its tests, so nothing more is taken
  have hset := reachable_producer hreach (.setDone hpc)
  have ⟨ts₀, hrun₀⟩ := hset
  obtain ⟨ts, s', hrun, hfinished, -⟩ := (terminates (K := K) hN hB).finishes hrun₀
  have hclaimed := (claimed_run (Invariant.of_reachable hset) rfl hrun).2
  have hentering : entering s.consumer = 0 :=
    tally_eq_zero_iff.mpr fun i => by rw [hconsumer]; nofun
  have hentering' : entering s'.consumer = 0 :=
    tally_eq_zero_iff.mpr fun i => by rw [hfinished.2.2 i]; nofun
  rw [hentering', hentering, Nat.zero_add, Nat.zero_add, hlength] at hclaimed
  have hperm := (Invariant.of_reachable (hset.run hrun)).consumed_perm hfinished.2.2
  rw [hclaimed] at hperm
  exact ⟨s', hset.run hrun, hfinished, hperm⟩

/-- **How many messages are consumed** in a run depends on the schedule, and can be any
number that leaves at most `B` behind, and no other. -/
theorem exists_outcome_iff (hN : 0 < N) (hB : 0 < B) {m : Nat} :
    (∃ s : State N, (program N B K).Reachable s ∧ s.Finished ∧
      s.consumed.Perm ((List.range m).map some)) ↔ m ≤ K ∧ K ≤ m + B := by
  constructor
  · intro h
    obtain ⟨s, hreach, ⟨hproducer, -, hconsumers⟩, hperm⟩ := h
    have hinv := Invariant.of_reachable hreach
    have hring := hinv.ring_of_produced hproducer
    have hlength := (hperm.symm.trans (hinv.consumed_perm hconsumers)).length_eq
    simp only [List.length_map, List.length_range] at hlength
    exact ⟨hlength ▸ hring.le, hlength ▸ hring.room⟩
  · intro h
    exact exists_losing_run hN hB h.1 h.2

/-- The program as it is can lose its last five messages. -/
theorem exists_outcome_iff_sem : (∃ s : State 30, (program 30 5 31).Reachable s ∧ s.Finished ∧
    s.consumed.Perm ((List.range 26).map some)) ↔ 26 ≤ 31 ∧ 31 ≤ 26 + 5 :=
  exists_outcome_iff (by decide) (by decide)

end BoundedBuffer
end SystemsCourse
