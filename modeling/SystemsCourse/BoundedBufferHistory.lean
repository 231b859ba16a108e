import SystemsCourse.BoundedBufferInvariant

/-!
# The ring of `sem.c` is a queue

`History` says what the ring holds, in terms of the history: the messages produced
and not yet taken, each in the slot of its number.  It rests on `Counts` twice: a
consumer in front of its critical section has a message to take, and a producer in
front of its own has a slot to fill.  With it the invariant is complete
(`Invariant`), and it holds in every reachable state.
-/
namespace SystemsCourse
namespace BoundedBuffer

variable {N B K : Nat} {s s' : State N}

/-- What the ring holds, and what has become of each message. -/
structure History (B : Nat) (s : State N) : Prop where
  inOrder : s.taken = (List.range s.taken.length).map some
  ring : RingHolds B id s.taken.length s.produced s.buffer
  front : s.front = s.produced % B
  back : s.back = s.taken.length % B
  consumed : ∀ x, s.consumed.count x + tally (· = .consume x) s.consumer = s.taken.count x

/-- Phases, permits and history. -/
structure Invariant (B K : Nat) (s : State N) : Prop where
  phases : Phases K s
  counts : Counts B s
  history : History B s

/-! ## What the account of the permits gives -/

/-- A consumer in front of its critical section has a message to take. -/
theorem Counts.taken_lt_produced (h : Counts B s) {i : Fin N} (hpc : s.consumer i = .critical) :
    s.taken.length < s.produced := by
  have hentering : 0 < entering s.consumer := tally_pos_iff.mpr ⟨i, hpc⟩
  have := h.messages
  omega

/-- A producer in front of its critical section has a slot to fill. -/
theorem Counts.produced_lt_room (h : Counts B s) {i : Nat} (hpc : s.producer = .critical i) :
    s.produced < s.taken.length + B := by
  have hslots := h.slots
  rw [hpc] at hslots
  change s.emptySemaphore + 1 + s.produced + emptying s.consumer = B + s.taken.length at hslots
  omega

/-- The consumer takes the oldest message. -/
theorem buffer_back (hc : Counts B s) (h : History B s) {i : Fin N} (hpc : s.consumer i = .critical) :
    s.buffer s.back = some s.taken.length := by
  rw [h.back]
  exact h.ring.oldest (hc.taken_lt_produced hpc)

/-- The producer fills an empty slot. -/
theorem buffer_front (hc : Counts B s) (h : History B s) {i : Nat} (hpc : s.producer = .critical i) :
    s.buffer s.front = none := by
  rw [h.front]
  exact h.ring.free (hc.produced_lt_room hpc)

/-! ## The history is kept -/

theorem history_initial : History B (initial N B) where
  inOrder := rfl
  ring := RingHolds.empty B id
  front := (Nat.zero_mod B).symm
  back := (Nat.zero_mod B).symm
  consumed x := by
    show 0 + tally (· = .consume x) (initial N B).consumer = 0
    rw [Nat.zero_add, tally_eq_zero_iff]
    exact fun _ => nofun

/-- A consumer's move away from the ring keeps the history if the messages that it
prints are those that it no longer holds. -/
theorem History.move (h : History B s) {i : Fin N} {pc pc' : ConsumerPc} (hpc : s.consumer i = pc)
    (hconsumer : s'.consumer = Function.update s.consumer i pc')
    (hring : s'.buffer = s.buffer ∧ s'.front = s.front ∧ s'.back = s.back)
    (hhistory : s'.produced = s.produced ∧ s'.taken = s.taken)
    (hheld : ∀ x, s'.consumed.count x + weight (· = .consume x) pc'
      = s.consumed.count x + weight (· = .consume x) pc) : History B s' := by
  obtain ⟨hbuffer, hfront, hback⟩ := hring
  obtain ⟨hproduced, htaken⟩ := hhistory
  refine ⟨?_, ?_, ?_, ?_, fun x => ?_⟩
  · rw [htaken]
    exact h.inOrder
  · rw [htaken, hproduced, hbuffer]
    exact h.ring
  · rw [hfront, hproduced]
    exact h.front
  · rw [hback, htaken]
    exact h.back
  · have htally := tally_update (p := (· = .consume x)) s.consumer i pc'
    have hx := h.consumed x
    have := hheld x
    rw [hpc, ← hconsumer] at htally
    rw [htaken]
    omega

theorem History.workerStep (h : History B s) (hc : Counts B s) {i : Fin N}
    (hstep : WorkerStep B s i s') : History B s' := by
  cases hstep with
  | go pc _ | stop pc _ | wait pc _ | enter pc _ | leave pc _ | post pc =>
    exact h.move pc rfl ⟨rfl, rfl, rfl⟩ ⟨rfl, rfl⟩ fun _ => rfl
  | take pc =>
    -- the oldest message, from slot `taken.length % B`, joins the history
    have hmessage : s.buffer s.back = some s.taken.length := buffer_back hc h pc
    have hlength : (s.taken ++ [s.buffer s.back]).length = s.taken.length + 1 := List.length_append
    refine ⟨?_, ?_, h.front, ?_, fun x => ?_⟩
    · show s.taken ++ [s.buffer s.back] = (List.range (s.taken ++ [s.buffer s.back]).length).map some
      rw [hlength, List.range_succ, List.map_append, ← h.inOrder, hmessage]
      rfl
    · show RingHolds B id (s.taken ++ [s.buffer s.back]).length s.produced
        (Function.update s.buffer s.back none)
      rw [hlength, h.back]
      exact h.ring.pop (hc.taken_lt_produced pc)
    · show (s.back + 1) % B = (s.taken ++ [s.buffer s.back]).length % B
      rw [hlength, h.back, Nat.mod_add_mod]
    · have htally := tally_update (p := (· = .consume x)) s.consumer i (.consume (s.buffer s.back))
      have hx := h.consumed x
      rw [pc] at htally
      show s.consumed.count x
        + tally (· = .consume x) (Function.update s.consumer i (.consume (s.buffer s.back)))
        = (s.taken ++ [s.buffer s.back]).count x
      rw [List.count_append, List.count_singleton]
      by_cases he : s.buffer s.back = x
      · simp [weight, he] at htally ⊢
        omega
      · simp [weight, he] at htally ⊢
        omega
  | @consume thebuf pc =>
    refine h.move pc rfl ⟨rfl, rfl, rfl⟩ ⟨rfl, rfl⟩ fun x => ?_
    show (s.consumed ++ [thebuf]).count x + 0 = _
    rw [List.count_append, List.count_singleton]
    simp [weight]

theorem History.producerStep (h : History B s) (hp : Phases K s) (hc : Counts B s)
    (hstep : ProducerStep B K s s') : History B s' := by
  cases hstep with
  | wait _ _ | post _ | setDone _ => exact ⟨h.inOrder, h.ring, h.front, h.back, h.consumed⟩
  | @put i pc =>
    have hproduced : s.produced = i := by
      have := hp.produced
      rw [pc] at this
      exact this.2
    refine ⟨h.inOrder, ?_, ?_, h.back, h.consumed⟩
    · show RingHolds B id s.taken.length (s.produced + 1) (Function.update s.buffer s.front (some i))
      rw [h.front, ← hproduced]
      exact h.ring.push (hc.produced_lt_room pc)
    · show (s.front + 1) % B = (s.produced + 1) % B
      rw [h.front, Nat.mod_add_mod]

theorem History.mainStep (h : History B s) (hp : Phases K s) (hstep : MainStep K s s') :
    History B s' := by
  cases hstep with
  | @createConsumer i pc hi =>
    exact h.move (hp.notCreated pc hi) rfl ⟨rfl, rfl, rfl⟩ ⟨rfl, rfl⟩ fun _ => rfl
  | createProducer _ | joinProducer _ _ | post _ | joinConsumer _ _ _ =>
    exact ⟨h.inOrder, h.ring, h.front, h.back, h.consumed⟩

/-! ## The invariant -/

theorem invariant_initial : Invariant B K (initial N B) :=
  ⟨phases_initial, counts_initial, history_initial⟩

/-- **Every step of every thread keeps the invariant.** -/
theorem Invariant.step (h : Invariant B K s) {t : Thread N} (hstep : step B K s t = some s') :
    Invariant B K s' := by
  obtain ⟨hp, hc, hh⟩ := h
  cases t with
  | consumer i =>
    have hcases := workerStep_cases hstep
    exact ⟨hp.workerStep hcases, hc.workerStep hcases, hh.workerStep hc hcases⟩
  | producer =>
    have hcases := producerStep_cases hstep
    exact ⟨hp.producerStep hcases, hc.producerStep hp hcases, hh.producerStep hp hc hcases⟩
  | main =>
    have hcases := mainStep_cases hstep
    exact ⟨hp.mainStep hcases, hc.mainStep hp hcases, hh.mainStep hp hcases⟩

/-- **The invariant holds in every reachable state.** -/
theorem Invariant.of_reachable (h : (program N B K).Reachable s) : Invariant B K s :=
  h.invariant invariant_initial fun _ _ _ hinv hstep => hinv.step hstep

/-! ## No underrun, no overrun, first in first out -/

/-- **The ring never under- or overruns and is first-in first-out.**  In every
reachable state, a consumer about to execute its critical section finds a message
in `buffer[back]`, the producer about to execute its own finds `buffer[front]`
empty, and the messages taken so far are messages `0, …, m - 1` in this order. -/
theorem ring_fifo (h : (program N B K).Reachable s) :
    (∀ i, s.consumer i = .critical → s.buffer s.back ≠ none) ∧
    (∀ i, s.producer = .critical i → s.buffer s.front = none) ∧
    ∃ m, m ≤ s.produced ∧ s.taken = (List.range m).map some := by
  obtain ⟨-, hc, hh⟩ := Invariant.of_reachable h
  refine ⟨fun i hpc => ?_, fun i hpc => ?_, s.taken.length, ?_, hh.inOrder⟩
  · rw [buffer_back hc hh hpc]
    nofun
  · exact buffer_front hc hh hpc
  · exact hh.ring.le

/-- One consumer, one slot: the consumer in front of the first message. -/
theorem ring_fifo_first_message : ∃ s : State 1, (program 1 1 1).Reachable s ∧
    s.consumer 0 = .critical ∧ s.buffer s.back ≠ none := by
  have hrun : ((program 1 1 1).run (initial 1 1) [.main, .main, .producer, .producer, .producer,
      .consumer 0, .consumer 0, .consumer 0]).isSome := rfl
  obtain ⟨s, hs⟩ := Option.isSome_iff_exists.mp hrun
  have hpc : s.consumer 0 = .critical := by
    cases hs
    rfl
  exact ⟨s, ⟨_, hs⟩, hpc, (ring_fifo ⟨_, hs⟩).1 0 hpc⟩

end BoundedBuffer
end SystemsCourse
