import SystemsCourse.BoundedBuffer

/-!
# The invariant of `sem.c`

Three parts, each kept by every step of every thread.  `Phases` ties the threads'
program counters to each other: who has been created, who may have ended.
`Counts` accounts for every permit.  A slot is free (a permit of the empty
semaphore), held by the producer, full, or being emptied.  A message in the ring
has a permit of the full semaphore, or a consumer on its way to it — until `done`
is set: then the permits that `main` posts stand for no message, and what remains
is that no more consumers are on their way than there are messages, and that no
more wait than there are permits still to come.  `History` says what the ring
holds and what has become of each message.
-/
namespace SystemsCourse
namespace BoundedBuffer

variable {N B K : Nat} {s s' : State N}

/-! ## Counting program counters -/

/-- The consumer has taken a message and not yet given its slot back. -/
def ConsumerPc.Empties : ConsumerPc → Prop
  | .consume _ => True
  | .semPost => True
  | _ => False

instance : DecidablePred ConsumerPc.Empties := fun pc => by
  cases pc <;> simp only [ConsumerPc.Empties] <;> infer_instance

/-- The consumers that wait for a permit. -/
def waiting (c : Fin N → ConsumerPc) : Nat := tally (· = .semWait) c

/-- The consumers that have a permit and have not yet tested `done` again. -/
def testing (c : Fin N → ConsumerPc) : Nat := tally (· = .doneTest) c

/-- The consumers that have passed both tests of `done` and not yet taken a message. -/
def entering (c : Fin N → ConsumerPc) : Nat := tally (· = .critical) c

/-- The consumers that still hold a slot. -/
def emptying (c : Fin N → ConsumerPc) : Nat := tally ConsumerPc.Empties c

/-- What one consumer's move changes in the counts. -/
theorem counts_update {c : Fin N → ConsumerPc} {i : Fin N} {pc : ConsumerPc} (hpc : c i = pc)
    (pc' : ConsumerPc) :
    (waiting (Function.update c i pc') + weight (· = .semWait) pc
      = waiting c + weight (· = .semWait) pc') ∧
    (testing (Function.update c i pc') + weight (· = .doneTest) pc
      = testing c + weight (· = .doneTest) pc') ∧
    (entering (Function.update c i pc') + weight (· = .critical) pc
      = entering c + weight (· = .critical) pc') ∧
    emptying (Function.update c i pc') + weight ConsumerPc.Empties pc
      = emptying c + weight ConsumerPc.Empties pc' := by
  subst hpc
  exact ⟨tally_update c i pc', tally_update c i pc', tally_update c i pc', tally_update c i pc'⟩

/-- The slots that the producer holds. -/
def ProducerPc.slots : ProducerPc → Nat
  | .critical _ => 1
  | _ => 0

/-- The permits that the producer has still to post for messages in the ring. -/
def ProducerPc.owed : ProducerPc → Nat
  | .semPost _ => 1
  | _ => 0

/-- The permits that `main` has still to post. -/
def MainPc.postsLeft (N : Nat) : MainPc → Nat
  | .semPost i => N - i
  | .joinConsumer _ => 0
  | .finished => 0
  | _ => N

theorem postsLeft_joinLoop (N i : Nat) : (joinLoop N i).postsLeft N = 0 := by
  unfold joinLoop
  split <;> rfl

theorem postsLeft_postLoop (N i : Nat) : (postLoop N i).postsLeft N = N - i := by
  unfold postLoop
  split
  · rfl
  · rw [postsLeft_joinLoop]
    omega

theorem postsLeft_createLoop (N i : Nat) : (createLoop N i).postsLeft N = N := by
  unfold createLoop
  split <;> rfl

theorem slots_producerLoop (K i : Nat) : (producerLoop K i).slots = 0 := by
  unfold producerLoop
  split <;> rfl

theorem owed_producerLoop (K i : Nat) : (producerLoop K i).owed = 0 := by
  unfold producerLoop
  split <;> rfl

/-! ## Phases -/

/-- The consumers that `main` has created. -/
def MainPc.created (N : Nat) : MainPc → Nat
  | .createConsumer i => i
  | _ => N

/-- `main` has not created the producer yet. -/
def MainPc.Creates : MainPc → Prop
  | .createConsumer _ => True
  | .createProducer => True
  | _ => False

/-- `main` has joined the producer. -/
def MainPc.AfterJoin : MainPc → Prop
  | .semPost _ => True
  | .joinConsumer _ => True
  | .finished => True
  | _ => False

/-- The consumers that `main` has joined. -/
def MainPc.joined (N : Nat) : MainPc → Nat
  | .joinConsumer i => i
  | .finished => N
  | _ => 0

/-- `main` is inside the loop it is in. -/
def MainPc.InLoop (N : Nat) : MainPc → Prop
  | .createConsumer i => i < N
  | .joinConsumer i => i < N
  | _ => True

/-- How many messages the producer has put into the ring, by where it is. -/
def ProducerPc.Produced (K n : Nat) : ProducerPc → Prop
  | .notCreated => n = 0
  | .semWait i => i < K ∧ n = i
  | .critical i => i < K ∧ n = i
  | .semPost i => i < K ∧ n = i + 1
  | .setDone => n = K
  | .finished => n = K

/-- The program counters fit each other. -/
structure Phases (K : Nat) (s : State N) : Prop where
  produced : s.producer.Produced K s.produced
  done : s.done = true ↔ s.producer = .finished
  creates : s.producer = .notCreated ↔ s.main.Creates
  afterJoin : s.main.AfterJoin → s.producer = .finished
  inLoop : s.main.InLoop N
  created : ∀ i, s.consumer i = .notCreated ↔ s.main.created N ≤ i
  joined : ∀ i : Fin N, i < s.main.joined N → s.consumer i = .finished
  finished : ∀ i, s.consumer i = .finished → s.done = true

/-- `done` is not set before the producer has ended. -/
theorem Phases.running (h : Phases K s) (hactive : s.producer ≠ .finished) : s.done = false :=
  Bool.eq_false_iff.mpr fun hd => hactive (h.done.mp hd)

/-- The consumer that `main` creates next has not been created. -/
theorem Phases.notCreated (h : Phases K s) {i : Nat} (pc : s.main = .createConsumer i) (hi : i < N) :
    s.consumer ⟨i, hi⟩ = .notCreated := by
  rw [h.created, pc]
  exact Nat.le_refl i

theorem produced_producerLoop {i : Nat} (h : i ≤ K) : (producerLoop K i).Produced K i := by
  unfold producerLoop
  split
  · exact ⟨by assumption, rfl⟩
  · show i = K
    omega

theorem producerLoop_ne_notCreated (K i : Nat) : producerLoop K i ≠ .notCreated := by
  unfold producerLoop
  split <;> nofun

theorem producerLoop_ne_finished (K i : Nat) : producerLoop K i ≠ .finished := by
  unfold producerLoop
  split <;> nofun

theorem createLoop_facts (N i : Nat) : (createLoop N i).Creates ∧ ¬ (createLoop N i).AfterJoin ∧
    (createLoop N i).InLoop N ∧ (createLoop N i).joined N = 0 := by
  unfold createLoop
  split
  · exact ⟨trivial, id, by assumption, rfl⟩
  · exact ⟨trivial, id, trivial, rfl⟩

theorem created_createLoop {i : Nat} (h : i ≤ N) : (createLoop N i).created N = i := by
  unfold createLoop
  split
  · rfl
  · show N = i
    omega

theorem joinLoop_facts (N i : Nat) : ¬ (joinLoop N i).Creates ∧ (joinLoop N i).AfterJoin ∧
    (joinLoop N i).InLoop N ∧ (joinLoop N i).created N = N := by
  unfold joinLoop
  split
  · exact ⟨id, trivial, by assumption, rfl⟩
  · exact ⟨id, trivial, trivial, rfl⟩

theorem joined_joinLoop {i : Nat} (h : i ≤ N) : (joinLoop N i).joined N = i := by
  unfold joinLoop
  split
  · rfl
  · show N = i
    omega

theorem postLoop_facts (N i : Nat) : ¬ (postLoop N i).Creates ∧ (postLoop N i).AfterJoin ∧
    (postLoop N i).InLoop N ∧ (postLoop N i).created N = N ∧ (postLoop N i).joined N = 0 := by
  unfold postLoop
  split
  · exact ⟨id, trivial, trivial, rfl, rfl⟩
  · obtain ⟨h1, h2, h3, h4⟩ := joinLoop_facts N 0
    exact ⟨h1, h2, h3, h4, joined_joinLoop (Nat.zero_le N)⟩

theorem phases_initial : Phases K (initial N B) := by
  obtain ⟨h1, h2, h3, h4⟩ := createLoop_facts N 0
  refine ⟨rfl, by simp [initial], iff_of_true rfl h1, fun h => absurd h h2, h3, fun i => ?_, ?_, nofun⟩
  · rw [show (initial N B).main = createLoop N 0 from rfl, created_createLoop (Nat.zero_le N)]
    exact iff_of_true rfl (Nat.zero_le _)
  · intro i hi
    rw [show (initial N B).main = createLoop N 0 from rfl, h4] at hi
    exact absurd hi (Nat.not_lt_zero _)

/-- A consumer that moves on stays created, and ends only when `done` is set. -/
theorem Phases.move (h : Phases K s) {i : Fin N} {pc : ConsumerPc}
    (hconsumer : s'.consumer = Function.update s.consumer i pc)
    (hrest : s'.producer = s.producer ∧ s'.produced = s.produced ∧ s'.done = s.done ∧ s'.main = s.main)
    (hcreated : s.consumer i ≠ .notCreated) (hactive : s.consumer i ≠ .finished)
    (hpc : pc ≠ .notCreated) (hended : pc = .finished → s.done = true) : Phases K s' := by
  obtain ⟨hproducer, hproduced, hdone, hmain⟩ := hrest
  refine ⟨?_, ?_, ?_, ?_, ?_, fun j => ?_, fun j hj => ?_, fun j hj => ?_⟩
  · rw [hproducer, hproduced]
    exact h.produced
  · rw [hproducer, hdone]
    exact h.done
  · rw [hproducer, hmain]
    exact h.creates
  · rw [hproducer, hmain]
    exact h.afterJoin
  · rw [hmain]
    exact h.inLoop
  · rw [hconsumer, hmain, ← h.created j]
    by_cases hji : j = i
    · subst hji
      rw [Function.update_self]
      exact iff_of_false hpc hcreated
    · rw [Function.update_of_ne hji]
  · -- the consumers that have been joined do not move
    rw [hmain] at hj
    have hji : j ≠ i := by
      rintro rfl
      exact hactive (h.joined j hj)
    rw [hconsumer, Function.update_of_ne hji]
    exact h.joined j hj
  · rw [hdone]
    rw [hconsumer] at hj
    by_cases hji : j = i
    · subst hji
      rw [Function.update_self] at hj
      exact hended hj
    · rw [Function.update_of_ne hji] at hj
      exact h.finished j hj

theorem Phases.workerStep (h : Phases K s) {i : Fin N} (hstep : WorkerStep B s i s') : Phases K s' := by
  have active {pc : ConsumerPc} (hpc : s.consumer i = pc) {pc' : ConsumerPc} (hne : pc ≠ pc') :
      s.consumer i ≠ pc' := hpc ▸ hne
  cases hstep with
  | stop pc ended | leave pc ended =>
    exact h.move rfl ⟨rfl, rfl, rfl, rfl⟩ (active pc nofun) (active pc nofun) nofun fun _ => ended
  | go pc _ | wait pc _ | enter pc _ | take pc | consume pc | post pc =>
    exact h.move rfl ⟨rfl, rfl, rfl, rfl⟩ (active pc nofun) (active pc nofun) nofun nofun

/-- The producer moves on within its loop. -/
theorem Phases.produce (h : Phases K s) (hactive : s.producer ≠ .notCreated ∧ s.producer ≠ .finished)
    (hproducer : s'.producer ≠ .notCreated ∧ s'.producer ≠ .finished)
    (hrest : s'.consumer = s.consumer ∧ s'.done = s.done ∧ s'.main = s.main)
    (hproduced : s'.producer.Produced K s'.produced) : Phases K s' := by
  obtain ⟨hconsumer, hdone, hmain⟩ := hrest
  refine ⟨hproduced, ?_, ?_, ?_, ?_, ?_, ?_, ?_⟩
  · rw [hdone, h.done]
    exact iff_of_false hactive.2 hproducer.2
  · rw [hmain, ← h.creates]
    exact iff_of_false hproducer.1 hactive.1
  · rw [hmain]
    exact fun hj => absurd (h.afterJoin hj) hactive.2
  · rw [hmain]
    exact h.inLoop
  · rw [hconsumer, hmain]
    exact h.created
  · rw [hconsumer, hmain]
    exact h.joined
  · rw [hconsumer, hdone]
    exact h.finished

theorem Phases.producerStep (h : Phases K s) (hstep : ProducerStep B K s s') : Phases K s' := by
  have hproduced := h.produced
  cases hstep with
  | wait pc room =>
    rw [pc] at hproduced
    exact h.produce (by rw [pc]; exact ⟨nofun, nofun⟩) ⟨nofun, nofun⟩ ⟨rfl, rfl, rfl⟩ hproduced
  | put pc =>
    rw [pc] at hproduced
    exact h.produce (by rw [pc]; exact ⟨nofun, nofun⟩) ⟨nofun, nofun⟩ ⟨rfl, rfl, rfl⟩
      ⟨hproduced.1, congrArg (· + 1) hproduced.2⟩
  | @post i pc =>
    rw [pc] at hproduced
    refine h.produce (by rw [pc]; exact ⟨nofun, nofun⟩)
      ⟨producerLoop_ne_notCreated K _, producerLoop_ne_finished K _⟩ ⟨rfl, rfl, rfl⟩ ?_
    show (producerLoop K (i + 1)).Produced K s.produced
    rw [hproduced.2]
    exact produced_producerLoop hproduced.1
  | setDone pc =>
    rw [pc] at hproduced
    refine ⟨hproduced, iff_of_true rfl rfl, ?_, fun _ => rfl, h.inLoop, h.created, h.joined,
      fun _ _ => rfl⟩
    rw [← h.creates, pc]
    exact iff_of_false nofun nofun

/-- `main` moves on behind the creation of the producer. -/
theorem Phases.main_moves (h : Phases K s) (hmain : ¬ s.main.Creates ∧ s.main.created N = N)
    (hmain' : ¬ s'.main.Creates ∧ s'.main.created N = N)
    (hrest : s'.producer = s.producer ∧ s'.produced = s.produced ∧ s'.done = s.done ∧
      s'.consumer = s.consumer)
    (hafter : s'.main.AfterJoin → s.producer = .finished) (hloop : s'.main.InLoop N)
    (hjoined : ∀ i : Fin N, i < s'.main.joined N → s.consumer i = .finished) : Phases K s' := by
  obtain ⟨hproducer, hproduced, hdone, hconsumer⟩ := hrest
  refine ⟨?_, ?_, ?_, ?_, hloop, ?_, ?_, ?_⟩
  · rw [hproducer, hproduced]
    exact h.produced
  · rw [hproducer, hdone]
    exact h.done
  · rw [hproducer, h.creates]
    exact iff_of_false hmain.1 hmain'.1
  · rw [hproducer]
    exact hafter
  · intro i
    rw [hconsumer, h.created i, hmain.2, hmain'.2]
  · rw [hconsumer]
    exact hjoined
  · rw [hconsumer, hdone]
    exact h.finished

/-- `main` goes on to its posting loop, or within it. -/
theorem Phases.to_postLoop (h : Phases K s) (hmain : ¬ s.main.Creates ∧ s.main.created N = N) {i : Nat}
    (hpost : s'.main = postLoop N i)
    (hrest : s'.producer = s.producer ∧ s'.produced = s.produced ∧ s'.done = s.done ∧
      s'.consumer = s.consumer)
    (hended : s.producer = .finished) : Phases K s' := by
  obtain ⟨hcreates, -, hloop, hcreated, hjoined⟩ := postLoop_facts N i
  rw [← hpost] at hcreates hloop hcreated hjoined
  refine h.main_moves hmain ⟨hcreates, hcreated⟩ hrest (fun _ => hended) hloop ?_
  intro j hj
  rw [hjoined] at hj
  exact absurd hj (Nat.not_lt_zero _)

theorem Phases.createConsumer (h : Phases K s) {i : Nat} (pc : s.main = .createConsumer i) (hi : i < N) :
    Phases K { s.move ⟨i, hi⟩ .loopTest with main := createLoop N (i + 1) } := by
  obtain ⟨hcreates, hafter, hloop, hjoined⟩ := createLoop_facts N (i + 1)
  have hproducer : s.producer = .notCreated := h.creates.mpr (by rw [pc]; trivial)
  have hcreated : ∀ j, s.consumer j = .notCreated ↔ i ≤ j := fun j => by
    rw [h.created j, pc]
    rfl
  refine ⟨h.produced, h.done, iff_of_true hproducer hcreates, fun hj => absurd hj hafter, hloop,
    fun j => ?_, fun j hj => ?_, fun j hj => ?_⟩
  · show Function.update s.consumer ⟨i, hi⟩ .loopTest j = _ ↔ (createLoop N (i + 1)).created N ≤ j
    rw [created_createLoop hi]
    by_cases hji : j = ⟨i, hi⟩
    · subst hji
      rw [Function.update_self]
      exact iff_of_false nofun (Nat.not_succ_le_self i)
    · rw [Function.update_of_ne hji, hcreated]
      have : (j : Nat) ≠ i := fun he => hji (Fin.ext he)
      omega
  · change (j : Nat) < (createLoop N (i + 1)).joined N at hj
    rw [hjoined] at hj
    exact absurd hj (Nat.not_lt_zero _)
  · change Function.update s.consumer ⟨i, hi⟩ .loopTest j = .finished at hj
    by_cases hji : j = ⟨i, hi⟩
    · subst hji
      rw [Function.update_self] at hj
      cases hj
    · rw [Function.update_of_ne hji] at hj
      exact h.finished j hj

theorem Phases.createProducer (h : Phases K s) (pc : s.main = .createProducer) :
    Phases K { s with producer := producerLoop K 0, main := .joinProducer } := by
  have hproducer : s.producer = .notCreated := h.creates.mpr (by rw [pc]; trivial)
  have hproduced : s.produced = 0 := by
    have := h.produced
    rwa [hproducer] at this
  have hdone : ¬ s.done = true := by
    rw [h.done, hproducer]
    nofun
  have hcreated := h.created
  rw [pc] at hcreated
  refine ⟨?_, iff_of_false hdone (producerLoop_ne_finished K 0),
    iff_of_false (producerLoop_ne_notCreated K 0) id, False.elim, trivial, hcreated,
    fun i hi => absurd hi (Nat.not_lt_zero _), h.finished⟩
  show (producerLoop K 0).Produced K s.produced
  rw [hproduced]
  exact produced_producerLoop (Nat.zero_le K)

theorem Phases.mainStep (h : Phases K s) (hstep : MainStep K s s') : Phases K s' := by
  cases hstep with
  | createConsumer pc hi => exact h.createConsumer pc hi
  | createProducer pc => exact h.createProducer pc
  | joinProducer pc ended =>
    exact h.to_postLoop (by rw [pc]; exact ⟨id, rfl⟩) rfl ⟨rfl, rfl, rfl, rfl⟩ ended
  | post pc =>
    have hended : s.producer = .finished := h.afterJoin (by rw [pc]; trivial)
    exact h.to_postLoop (by rw [pc]; exact ⟨id, rfl⟩) rfl ⟨rfl, rfl, rfl, rfl⟩ hended
  | @joinConsumer i pc hi ended =>
    obtain ⟨hcreates, -, hloop, hcreated⟩ := joinLoop_facts N (i + 1)
    have hjoined := h.joined
    rw [pc] at hjoined
    refine h.main_moves (by rw [pc]; exact ⟨id, rfl⟩) ⟨hcreates, hcreated⟩ ⟨rfl, rfl, rfl, rfl⟩
      (fun _ => h.afterJoin (by rw [pc]; trivial)) hloop ?_
    intro j hj
    change (j : Nat) < (joinLoop N (i + 1)).joined N at hj
    rw [joined_joinLoop hi] at hj
    rcases Nat.lt_succ_iff_lt_or_eq.mp hj with hlt | heq
    · exact hjoined j hlt
    · rwa [show j = ⟨i, hi⟩ from Fin.ext heq]

/-! ## Permits -/

/-- Every permit is accounted for. -/
structure Counts (B : Nat) (s : State N) : Prop where
  slots : s.emptySemaphore + s.producer.slots + s.produced + emptying s.consumer = B + s.taken.length
  permits : s.done = false →
    s.fullSemaphore + testing s.consumer + entering s.consumer + s.producer.owed + s.taken.length
      = s.produced
  messages : entering s.consumer + s.taken.length ≤ s.produced
  wakeups : s.done = true → waiting s.consumer ≤ s.fullSemaphore + s.main.postsLeft N

theorem counts_initial : Counts B (initial N B) := by
  have hzero {p : ConsumerPc → Prop} [DecidablePred p] (h : ¬ p .notCreated) :
      tally p (initial N B).consumer = 0 := tally_eq_zero_iff.mpr fun _ => h
  have hentering : entering (initial N B).consumer = 0 := hzero nofun
  have hemptying : emptying (initial N B).consumer = 0 := hzero id
  have htesting : testing (initial N B).consumer = 0 := hzero nofun
  refine ⟨?_, fun _ => ?_, ?_, nofun⟩
  · rw [hemptying]
    rfl
  · rw [hentering, htesting]
    rfl
  · rw [hentering]
    exact Nat.le_refl 0

/-- A consumer's move keeps the account if what it changes in the semaphores and in
the history balances what it changes in the counts. -/
theorem Counts.move (h : Counts B s) {i : Fin N} {pc pc' : ConsumerPc} (hpc : s.consumer i = pc)
    (hconsumer : s'.consumer = Function.update s.consumer i pc')
    (hrest : s'.producer = s.producer ∧ s'.produced = s.produced ∧ s'.done = s.done ∧ s'.main = s.main)
    (hslots : s'.emptySemaphore + weight ConsumerPc.Empties pc' + s.taken.length
      = s.emptySemaphore + weight ConsumerPc.Empties pc + s'.taken.length)
    (hpermits : s.done = false →
      s'.fullSemaphore + weight (· = .doneTest) pc' + weight (· = .critical) pc' + s'.taken.length
        = s.fullSemaphore + weight (· = .doneTest) pc + weight (· = .critical) pc + s.taken.length)
    (hended : s.done = true →
      weight (· = .critical) pc' + s'.taken.length ≤ weight (· = .critical) pc + s.taken.length ∧
      s.fullSemaphore + weight (· = .semWait) pc' ≤ s'.fullSemaphore + weight (· = .semWait) pc) :
    Counts B s' := by
  obtain ⟨hw, ht, he, hk⟩ := counts_update hpc pc'
  obtain ⟨hproducer, hproduced, hdone, hmain⟩ := hrest
  have hslots' := h.slots
  have hmessages' := h.messages
  rw [← hconsumer] at hw ht he hk
  rw [← hdone] at hpermits hended
  have permits : s'.done = false → s'.fullSemaphore + testing s'.consumer + entering s'.consumer
      + s.producer.owed + s'.taken.length = s.produced := by
    intro hd
    have h₁ := hpermits hd
    have h₂ := h.permits (hdone ▸ hd)
    omega
  refine ⟨?_, fun hd => ?_, ?_, fun hd => ?_⟩
  · rw [hproducer, hproduced]
    omega
  · rw [hproducer, hproduced]
    exact permits hd
  · rw [hproduced]
    cases hd : s'.done with
    | false =>
      have := permits hd
      omega
    | true =>
      have := hended hd
      omega
  · rw [hmain]
    have h₁ := hended hd
    have h₂ := h.wakeups (hdone ▸ hd)
    omega

theorem Counts.workerStep (h : Counts B s) {i : Fin N} (hstep : WorkerStep B s i s') : Counts B s' := by
  have ended_of_running {P : Prop} (running : s.done = false) (hd : s.done = true) : P := by
    rw [hd] at running
    cases running
  cases hstep with
  | go pc running =>
    exact h.move pc rfl ⟨rfl, rfl, rfl, rfl⟩ rfl (fun _ => rfl) (ended_of_running running)
  | stop pc ended =>
    exact h.move pc rfl ⟨rfl, rfl, rfl, rfl⟩ rfl (fun _ => rfl)
      fun _ => ⟨Nat.le_refl _, Nat.le_add_right _ _⟩
  | wait pc permit =>
    refine h.move pc rfl ⟨rfl, rfl, rfl, rfl⟩ rfl (fun _ => ?_) fun _ => ⟨Nat.le_refl _, ?_⟩
    · show s.fullSemaphore - 1 + 1 + 0 + s.taken.length = s.fullSemaphore + 0 + 0 + s.taken.length
      omega
    · show s.fullSemaphore + 0 ≤ s.fullSemaphore - 1 + 1
      omega
  | enter pc running =>
    exact h.move pc rfl ⟨rfl, rfl, rfl, rfl⟩ rfl (fun _ => rfl) (ended_of_running running)
  | leave pc ended =>
    -- the permit is gone, whatever it stood for
    exact h.move pc rfl ⟨rfl, rfl, rfl, rfl⟩ rfl (fun hd => ended_of_running hd ended)
      fun _ => ⟨Nat.le_refl _, Nat.le_refl _⟩
  | take pc =>
    -- the message leaves the ring, and its slot is the consumer's until it posts
    have hlen : (s.taken ++ [s.buffer s.back]).length = s.taken.length + 1 := List.length_append
    refine h.move pc rfl ⟨rfl, rfl, rfl, rfl⟩ ?_ (fun _ => ?_) fun _ => ⟨?_, Nat.le_refl _⟩
    · show s.emptySemaphore + 1 + s.taken.length = s.emptySemaphore + 0 + (s.taken ++ _).length
      omega
    · show s.fullSemaphore + 0 + 0 + (s.taken ++ _).length = s.fullSemaphore + 0 + 1 + s.taken.length
      omega
    · show 0 + (s.taken ++ _).length ≤ 1 + s.taken.length
      omega
  | consume pc =>
    exact h.move pc rfl ⟨rfl, rfl, rfl, rfl⟩ rfl (fun _ => rfl)
      fun _ => ⟨Nat.le_refl _, Nat.le_refl _⟩
  | post pc =>
    refine h.move pc rfl ⟨rfl, rfl, rfl, rfl⟩ ?_ (fun _ => rfl)
      fun _ => ⟨Nat.le_refl _, Nat.le_refl _⟩
    show s.emptySemaphore + 1 + 0 + s.taken.length = s.emptySemaphore + 1 + s.taken.length
    omega

/-- The producer's move keeps the account if what it changes in the semaphores
balances what it holds, owes and has put into the ring. -/
theorem Counts.produce (h : Counts B s) (hrunning : s.done = false)
    (hrest : s'.consumer = s.consumer ∧ s'.taken = s.taken ∧ s'.done = s.done)
    (hslots : s'.emptySemaphore + s'.producer.slots + s'.produced
      = s.emptySemaphore + s.producer.slots + s.produced)
    (hpermits : s'.fullSemaphore + s'.producer.owed + s.produced
      = s.fullSemaphore + s.producer.owed + s'.produced)
    (hproduced : s.produced ≤ s'.produced) : Counts B s' := by
  obtain ⟨hconsumer, htaken, hdone⟩ := hrest
  have hslots' := h.slots
  have hpermits' := h.permits hrunning
  have hmessages' := h.messages
  refine ⟨?_, fun _ => ?_, ?_, fun hd => ?_⟩
  · rw [hconsumer, htaken]
    omega
  · rw [hconsumer, htaken]
    omega
  · rw [hconsumer, htaken]
    omega
  · rw [hdone, hrunning] at hd
    cases hd

/-- `main` has posted none of its permits before it has joined the producer. -/
theorem postsLeft_of_not_afterJoin {pc : MainPc} (h : ¬ pc.AfterJoin) : pc.postsLeft N = N := by
  cases pc with
  | createConsumer _ | createProducer | joinProducer => rfl
  | semPost _ | joinConsumer _ | finished => exact absurd trivial h

/-- When `done` is set, the permits that `main` will post are enough for all. -/
theorem Counts.setDone (h : Counts B s) (hp : Phases K s) (pc : s.producer = .setDone) :
    Counts B { s with producer := .finished, done := true } := by
  have hslots := h.slots
  rw [pc] at hslots
  refine ⟨hslots, nofun, h.messages, fun _ => ?_⟩
  have hle : waiting s.consumer ≤ N := by
    have := tally_le_card (p := (· = ConsumerPc.semWait)) (f := s.consumer)
    rwa [Fintype.card_fin] at this
  have hposts : s.main.postsLeft N = N := by
    refine postsLeft_of_not_afterJoin fun hafter => ?_
    have hended := hp.afterJoin hafter
    rw [pc] at hended
    cases hended
  show waiting s.consumer ≤ s.fullSemaphore + s.main.postsLeft N
  omega

theorem Counts.producerStep (h : Counts B s) (hp : Phases K s) (hstep : ProducerStep B K s s') :
    Counts B s' := by
  cases hstep with
  | wait pc room =>
    refine h.produce (hp.running (by rw [pc]; nofun)) ⟨rfl, rfl, rfl⟩ ?_ ?_ (Nat.le_refl _)
    · rw [pc]
      show s.emptySemaphore - 1 + 1 + s.produced = s.emptySemaphore + 0 + s.produced
      omega
    · rw [pc]
      rfl
  | put pc =>
    refine h.produce (hp.running (by rw [pc]; nofun)) ⟨rfl, rfl, rfl⟩ ?_ ?_ (Nat.le_succ _)
    · rw [pc]
      show s.emptySemaphore + 0 + (s.produced + 1) = s.emptySemaphore + 1 + s.produced
      omega
    · rw [pc]
      show s.fullSemaphore + 1 + s.produced = s.fullSemaphore + 0 + (s.produced + 1)
      omega
  | @post i pc =>
    refine h.produce (hp.running (by rw [pc]; nofun)) ⟨rfl, rfl, rfl⟩ ?_ ?_ (Nat.le_refl _)
    · rw [pc]
      show s.emptySemaphore + (producerLoop K (i + 1)).slots + s.produced = _
      rw [slots_producerLoop]
      rfl
    · rw [pc]
      show s.fullSemaphore + 1 + (producerLoop K (i + 1)).owed + s.produced = _
      rw [owed_producerLoop]
      rfl
  | setDone pc => exact h.setDone hp pc

/-- A consumer that has just been created is in none of the counts. -/
theorem Counts.createConsumer (h : Counts B s) (hp : Phases K s) {i : Nat}
    (pc : s.main = .createConsumer i) (hi : i < N) :
    Counts B { s.move ⟨i, hi⟩ .loopTest with main := createLoop N (i + 1) } := by
  obtain ⟨hw, ht, he, hk⟩ := counts_update (hp.notCreated pc hi) .loopTest
  have hcounts : waiting (Function.update s.consumer ⟨i, hi⟩ .loopTest) = waiting s.consumer ∧
      testing (Function.update s.consumer ⟨i, hi⟩ .loopTest) = testing s.consumer ∧
      entering (Function.update s.consumer ⟨i, hi⟩ .loopTest) = entering s.consumer ∧
      emptying (Function.update s.consumer ⟨i, hi⟩ .loopTest) = emptying s.consumer :=
    ⟨hw, ht, he, hk⟩
  obtain ⟨hwaiting, htesting, hentering, hemptying⟩ := hcounts
  have hwakeups := h.wakeups
  rw [pc] at hwakeups
  constructor
  all_goals simp only [State.move, hwaiting, htesting, hentering, hemptying, postsLeft_createLoop]
  · exact h.slots
  · exact h.permits
  · exact h.messages
  · exact hwakeups

theorem Counts.createProducer (h : Counts B s) (hp : Phases K s) (pc : s.main = .createProducer) :
    Counts B { s with producer := producerLoop K 0, main := .joinProducer } := by
  obtain ⟨hslots, hpermits, hmessages, hwakeups⟩ := h
  have hproducer : s.producer = .notCreated := hp.creates.mpr (by rw [pc]; trivial)
  rw [hproducer] at hslots hpermits
  rw [pc] at hwakeups
  constructor
  all_goals simp only [slots_producerLoop, owed_producerLoop]
  · exact hslots
  · exact hpermits
  · exact hmessages
  · exact hwakeups

theorem Counts.mainStep (h : Counts B s) (hp : Phases K s) (hstep : MainStep K s s') :
    Counts B s' := by
  have hwakeups := h.wakeups
  cases hstep with
  | createConsumer pc hi => exact h.createConsumer hp pc hi
  | createProducer pc => exact h.createProducer hp pc
  | joinProducer pc ended =>
    rw [pc] at hwakeups
    refine ⟨h.slots, h.permits, h.messages, fun hd => ?_⟩
    show waiting s.consumer ≤ s.fullSemaphore + (postLoop N 0).postsLeft N
    rw [postsLeft_postLoop]
    exact hwakeups hd
  | @post i pc =>
    have hdone : s.done = true := hp.done.mpr (hp.afterJoin (by rw [pc]; trivial))
    rw [pc] at hwakeups
    refine ⟨h.slots, fun hd => ?_, h.messages, fun hd => ?_⟩
    · -- `done` is set: the permit stands for no message
      rw [show s.done = false from hd] at hdone
      cases hdone
    · have hle : waiting s.consumer ≤ s.fullSemaphore + (N - i) := hwakeups hd
      show waiting s.consumer ≤ s.fullSemaphore + 1 + (postLoop N (i + 1)).postsLeft N
      rw [postsLeft_postLoop]
      omega
  | @joinConsumer i pc hi ended =>
    rw [pc] at hwakeups
    refine ⟨h.slots, h.permits, h.messages, fun hd => ?_⟩
    show waiting s.consumer ≤ s.fullSemaphore + (joinLoop N (i + 1)).postsLeft N
    rw [postsLeft_joinLoop]
    exact hwakeups hd

end BoundedBuffer
end SystemsCourse
