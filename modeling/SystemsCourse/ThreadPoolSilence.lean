import SystemsCourse.ThreadPoolDrain

/-!
# How many silent clients the pool of `threadpoolsvr.c` stands

`handle_connection` reads until its client has ended its message, so a client that
connects and says nothing, or not all of it, keeps a worker.  A thread for each
connection can bear any number of them; a pool of `P` workers bears `P - 1`: with fewer
silent clients than workers every other client is served (`Tolerates`), and `P` silent
clients can stop the server for all (`exists_occupied`).
-/
namespace SystemsCourse
namespace ThreadPoolServer
open MessageFraming

variable {P n k : Nat} {Q : Type} {wq : WorkQueue Nat Q} {capacity : Nat} {waiting : Q → List Nat}
  {s s' : State P Q}

/-! ## Fewer silent clients than workers -/

/-- **The server stands `n` silent clients**: from any state that a run has reached
without a failed call, once no connection is made and nothing more is sent, if all
clients but `n` have closed or have sent a newline last, any run of `main` and the
workers can be continued until all those have been answered and their connections
closed. -/
def Tolerates (P : Nat) (wq : WorkQueue Nat Q) (n : Nat) : Prop :=
  ∀ s, (program P wq).Reachable s → Calm s.server → ∀ (clients : Clients) (silent : Finset Nat),
    silent.card ≤ n → (∀ k < s.server.accepted, k ∉ silent → Ends s.server clients k) →
    ∀ as u, (quiet wq s clients).run (s, clients) as = some u →
      ∃ as' u', (quiet wq s clients).run u as' = some u' ∧ Served silent s u'

theorem tolerates_of_lt (hwq : wq.Holds capacity waiting) (hcapacity : 0 < capacity) (hn : n < P) :
    Tolerates P wq n := by
  intro s hreach hcalm clients silent hsilent hends as u hrun
  have hterminates := terminates hwq (Nat.lt_of_le_of_lt hsilent hn) hcapacity hreach hcalm hends
  obtain ⟨as', u', hrest, hserved, -⟩ := hterminates.finishes hrun
  exact ⟨as', u', hrest, hserved⟩

/-! ## As many silent clients as workers -/

/-- The first `k` workers wait for the first `k` clients, and nothing else is to do. -/
structure Occupied (waiting : Q → List Nat) (k : Nat) (s : State P Q) : Prop where
  died : s.server.died = none
  main : s.server.main = .accept
  accepted : s.server.accepted = k
  created : s.server.created = k
  queue : waiting s.queue = []
  busy : ∀ w : Fin P, w.val < k → s.worker w = some w.val
  free : ∀ w : Fin P, k ≤ w.val → s.worker w = none
  reading : ∀ h < k, ∃ fd, (s.server.handler h).pc = .read fd .start
  closed : ∀ fd, k + 4 ≤ fd → s.server.file fd = none
  unallocated : ∀ argptr, k ≤ argptr → s.server.cell argptr = none
  connection : ∀ j, s.server.connection j = .new

/-- One more client has connected, and its call is in the queue. -/
structure Queued (waiting : Q → List Nat) (k : Nat) (s : State P Q) : Prop where
  died : s.server.died = none
  main : s.server.main = .accept
  accepted : s.server.accepted = k + 1
  created : s.server.created = k + 1
  queue : waiting s.queue = [k]
  busy : ∀ w : Fin P, w.val < k → s.worker w = some w.val
  free : ∀ w : Fin P, k ≤ w.val → s.worker w = none
  reading : ∀ h < k, ∃ fd, (s.server.handler h).pc = .read fd .start
  handler : s.server.handler k = ⟨k, .loadArg⟩
  cell : s.server.cell k = some (k + 4)
  closed : ∀ fd, k + 5 ≤ fd → s.server.file fd = none
  unallocated : ∀ argptr, k + 1 ≤ argptr → s.server.cell argptr = none
  connection : ∀ j, s.server.connection j = .new

theorem Occupied.connect (hwq : wq.Holds capacity waiting) (hcapacity : 0 < capacity)
    (h : Occupied waiting k s) :
    ∃ s', (program P wq).run s [.accept (k + 4) k, .main] = some s' ∧ Queued waiting k s' := by
  have hroom : (waiting s.queue).length < capacity := by
    rw [h.queue]
    exact hcapacity
  obtain ⟨queue, hqueue⟩ := Option.ne_none_iff_exists'.mp (hwq.room s.queue k hroom)
  have hwaiting : waiting queue = [k] := by
    have hperm := (hwq.submit _ _ _ hqueue).1
    rw [h.queue] at hperm
    exact List.perm_singleton.mp hperm
  let accepted : ThreadedServer.State := { s.server with
    main := .pthreadCreate k
    file := Function.update s.server.file (k + 4) (some (.connection s.server.accepted))
    cell := Function.update s.server.cell k (some (k + 4))
    accepted := s.server.accepted + 1
    connection := Function.update s.server.connection s.server.accepted .new }
  have haccept : step wq s (.accept (k + 4) k) = some { s with server := accepted } := by
    simp [step, State.serverStep, ThreadedServer.step, h.died, ThreadedServer.acceptStep, h.main,
      h.closed (k + 4) (Nat.le_refl _), h.unallocated k (Nat.le_refl _), accepted]
  have hmain : step wq { s with server := accepted } .main = some
      { s with
        queue
        server := { accepted with
          main := .accept
          created := k + 1
          handler := Function.update s.server.handler k ⟨k, .loadArg⟩ } } := by
    simp [step, mainStep, State.serverStep, ThreadedServer.step, h.died, ThreadedServer.mainStep, accepted,
      h.created, hqueue]
  refine ⟨_, StepSystem.run_cons_eq_some_iff.mpr ⟨_, haccept, StepSystem.run_cons_eq_some_iff.mpr
    ⟨_, hmain, StepSystem.run_nil⟩⟩, ?_⟩
  refine ⟨h.died, rfl, congrArg (· + 1) h.accepted, rfl, hwaiting, h.busy, h.free, ?_, Function.update_self ..,
    Function.update_self .., ?_, ?_, ?_⟩
  · intro j hj
    obtain ⟨fd, hfd⟩ := h.reading j hj
    refine ⟨fd, ?_⟩
    show (Function.update s.server.handler k _ j).pc = _
    rw [Function.update_of_ne (Nat.ne_of_lt hj), hfd]
  · intro fd hfd
    exact (Function.update_of_ne (by omega) ..).trans (h.closed fd (by omega))
  · intro argptr hargptr
    exact (Function.update_of_ne (by omega) ..).trans (h.unallocated argptr (by omega))
  · intro j
    show Function.update s.server.connection s.server.accepted .new j = .new
    by_cases hj : j = s.server.accepted
    · rw [hj, Function.update_self]
    · rw [Function.update_of_ne hj, h.connection j]

/-- A free worker takes the call, and waits for its client. -/
theorem Queued.occupy (hwq : wq.Holds capacity waiting) (hk : k < P) (h : Queued waiting k s) :
    ∃ s', (program P wq).run s [.take ⟨k, hk⟩, .worker ⟨k, hk⟩] = some s' ∧ Occupied waiting (k + 1) s' := by
  have hfree : s.worker ⟨k, hk⟩ = none := h.free _ (Nat.le_refl k)
  obtain ⟨⟨job, queue⟩, htake⟩ := Option.ne_none_iff_exists'.mp
    (hwq.task s.queue (by rw [h.queue]; exact List.cons_ne_nil k []))
  have hperm := hwq.take _ _ _ htake
  rw [h.queue] at hperm
  obtain ⟨rfl, hempty⟩ : job = k ∧ waiting queue = [] := by
    have hsingle := List.perm_singleton.mp hperm.symm
    exact ⟨(List.cons.inj hsingle).1, (List.cons.inj hsingle).2⟩
  have htakeStep : step wq s (.take ⟨job, hk⟩)
      = some { s with queue, worker := Function.update s.worker ⟨job, hk⟩ (some job) } := by
    simp [step, takeStep, h.died, hfree, htake]
  have hload : step wq { s with queue, worker := Function.update s.worker ⟨job, hk⟩ (some job) }
      (.worker ⟨job, hk⟩) = some
        { s with
          queue
          worker := Function.update s.worker ⟨job, hk⟩ (some job)
          server := s.server.goto job (.read (job + 4) .start) } := by
    simp [step, workerStep, State.serverStep, ThreadedServer.step, h.died, h.created,
      ThreadedServer.handlerStep, h.handler, h.cell, State.release, ThreadedServer.goto_handler_self]
  refine ⟨_, StepSystem.run_cons_eq_some_iff.mpr ⟨_, htakeStep, StepSystem.run_cons_eq_some_iff.mpr
    ⟨_, hload, StepSystem.run_nil⟩⟩, ?_⟩
  refine ⟨h.died, h.main, h.accepted, h.created, hempty, ?_, ?_, ?_, h.closed, h.unallocated, h.connection⟩
  · exact forall_lt_update (p := fun w pc => pc = some w.val) hk rfl h.busy
  · intro w hw
    have he : w ≠ ⟨job, hk⟩ := by
      rintro rfl
      exact absurd hw (Nat.not_succ_le_self job)
    exact (Function.update_of_ne he ..).trans (h.free w (by omega))
  · intro j hj
    by_cases he : j = job
    · subst he
      exact ⟨j + 4, by rw [ThreadedServer.goto_handler_self]⟩
    · obtain ⟨fd, hfd⟩ := h.reading j (by omega)
      refine ⟨fd, ?_⟩
      show (Function.update s.server.handler job _ j).pc = _
      rw [Function.update_of_ne he, hfd]

/-- **Silent clients can occupy any number of workers.** -/
theorem exists_occupied (hwq : wq.Holds capacity waiting) (hcapacity : 0 < capacity) (k : Nat) (hk : k ≤ P) :
    ∃ s, (program P wq).Reachable s ∧ Occupied waiting k s := by
  induction k with
  | zero =>
    refine ⟨initial P wq, StepSystem.reachable_init, rfl, rfl, rfl, rfl, hwq.create,
      fun w hw => absurd hw (Nat.not_lt_zero _), fun _ _ => rfl, fun h hh => absurd hh (Nat.not_lt_zero _),
      fun fd hfd => ?_, fun _ _ => rfl, fun _ => rfl⟩
    show (if fd < 4 then some ThreadedServer.File.other else none) = none
    rw [if_neg (by omega)]
  | succ k ih =>
    obtain ⟨s, hreach, hoccupied⟩ := ih (Nat.le_of_succ_le hk)
    obtain ⟨s₁, hconnect, hqueued⟩ := hoccupied.connect hwq hcapacity
    obtain ⟨s₂, htake, hoccupied'⟩ := hqueued.occupy hwq hk
    exact ⟨s₂, (hreach.run hconnect).run htake, hoccupied'⟩

/-- One client has closed its connection; the others have sent nothing. -/
def Clients.onlyEnds (k : Nat) : Clients := ⟨fun _ => [], (· = k)⟩

/-- With all workers occupied, a call in the queue stays there. -/
theorem Queued.stuck (h : Queued waiting P s) (a : Action P) : quietStep wq (s, .onlyEnds P) a = none := by
  cases a with
  | accept | acceptFails | fputsFails => rfl
  | main =>
    simp [quietStep, step, mainStep, h.main, State.serverStep, ThreadedServer.step, ThreadedServer.mainStep]
  | take w => simp [quietStep, step, takeStep, h.died, h.busy w w.isLt]
  | read w r =>
    have hread : Clients.read (.onlyEnds P) w r = none := by
      cases r with
      | error => rfl
      | bytes bs =>
        by_cases hbs : bs = []
        · simp [Clients.read, Clients.onlyEnds, hbs, Nat.ne_of_lt w.isLt]
        · simp [Clients.read, Clients.onlyEnds, hbs]
    simp [quietStep, h.busy w w.isLt, hread]
  | worker w =>
    obtain ⟨fd, hreading⟩ := h.reading w w.isLt
    simp [quietStep, step, workerStep, h.busy w w.isLt, State.serverStep, ThreadedServer.step, h.died,
      ThreadedServer.handlerStep, hreading]

theorem Queued.calm (h : Queued waiting k s) : Calm s.server := by
  refine ⟨h.died, ?_, fun j hj fd call => ?_⟩
  · rw [h.main]
    exact ThreadedServer.MainPc.noConfusion
  · rw [h.created] at hj
    rcases Nat.lt_succ_iff_lt_or_eq.mp hj with hlt | rfl
    · obtain ⟨fd', hreading⟩ := h.reading j hlt
      rw [hreading]
      exact ThreadedServer.HandlerPc.noConfusion
    · rw [h.handler]
      exact ThreadedServer.HandlerPc.noConfusion

theorem not_tolerates (hwq : wq.Holds capacity waiting) (hcapacity : 0 < capacity) (hn : P ≤ n) :
    ¬ Tolerates P wq n := by
  intro htolerates
  obtain ⟨s₀, hreach₀, hoccupied⟩ := exists_occupied hwq hcapacity P (Nat.le_refl P)
  obtain ⟨s, hrun, hqueued⟩ := hoccupied.connect hwq hcapacity
  have hends : ∀ k < s.server.accepted, k ∉ Finset.range P → Ends s.server (.onlyEnds P) k := by
    intro k hk hspeaks
    rw [hqueued.accepted] at hk
    rw [Finset.mem_range] at hspeaks
    exact .inr (.inl (decide_eq_true (by omega)))
  have hsilent : (Finset.range P).card ≤ n := Nat.le_trans (Nat.le_of_eq (Finset.card_range P)) hn
  obtain ⟨as', u, hrest, -, -, hserved⟩ := htolerates s (hreach₀.run hrun) hqueued.calm (.onlyEnds P)
    (Finset.range P) hsilent hends [] (s, .onlyEnds P) StepSystem.run_nil
  -- nothing can be done, so this is the same state
  obtain rfl : (s, Clients.onlyEnds P) = u := by
    cases as' with
    | nil => exact Option.some.inj hrest
    | cons a as' =>
      obtain ⟨v, hv, -⟩ := StepSystem.run_cons_eq_some_iff.mp hrest
      have hnone : (quiet wq s (.onlyEnds P)).step (s, .onlyEnds P) a = none := hqueued.stuck a
      rw [hnone] at hv
      cases hv
  have hanswered := hserved P (by rw [hqueued.accepted]; exact Nat.lt_succ_self P) (by simp)
  rw [hqueued.connection P] at hanswered
  exact absurd hanswered.1 Nat.zero_ne_one

/-- **A pool of `P` workers stands fewer than `P` silent clients**, over any work queue
that does what is expected of it and has room for a task. -/
theorem tolerates_iff (hwq : wq.Holds capacity waiting) (hcapacity : 0 < capacity) :
    Tolerates P wq n ↔ n < P := by
  refine ⟨fun h => ?_, tolerates_of_lt hwq hcapacity⟩
  by_contra hn
  exact not_tolerates hwq hcapacity (Nat.le_of_not_lt hn) h

/-- `THREADPOOLSIZE` is 10. -/
theorem tolerates_iff_ten :
    (Tolerates 10 (WorkQueue.fifo 10) 9 ↔ 9 < 10) ∧ (Tolerates 10 (WorkQueue.fifo 10) 10 ↔ 10 < 10) :=
  ⟨tolerates_iff (WorkQueue.holds_fifo 10) (by decide), tolerates_iff (WorkQueue.holds_fifo 10) (by decide)⟩

end ThreadPoolServer
end SystemsCourse
