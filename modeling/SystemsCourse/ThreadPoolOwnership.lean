import Mathlib.Data.Fintype.Card
import SystemsCourse.StepSimulation
import SystemsCourse.ThreadPoolServer
import SystemsCourse.ThreadedServerOwnership

/-!
# Who answers a connection of `threadpoolsvr.c`

What the pool does to the connections is what the threads of `threadedsvr.c` could
have done (`simulates`), so it answers each of them as they do.  What the queue adds:
a call that has not returned waits in the queue, untouched, or exactly one worker is
at it (`Invariant`).  There are `P` workers and room for `capacity` tasks, and `main`
has one more connection in its hands while it waits for room: no more than
`P + capacity + 1` connections are open (`backpressure`).
-/
namespace SystemsCourse
namespace ThreadPoolServer
open ThreadedServer (HandlerPc Untouched handlerStep_of_own untouched_of_handlerStep)

variable {P : Nat} {Q : Type} {wq : WorkQueue Nat Q} {capacity : Nat} {waiting : Q → List Nat}
  {s s' : State P Q}

/-! ## The pool does what threads could do -/

theorem server_release {w : Fin P} {job : Nat} : (s.release w job).server = s.server := by
  unfold State.release
  split <;> rfl

theorem queue_release {w : Fin P} {job : Nat} : (s.release w job).queue = s.queue := by
  unfold State.release
  split <;> rfl

theorem simulates : (program P wq).Simulates ThreadedServer.program State.server where
  init := rfl
  step s a s' _ hstep := by
    cases step_cases hstep with
    | main waits step => exact .inr ⟨_, step⟩
    | submit pc submit step => exact .inr ⟨.main, step⟩
    | take died free take => exact .inl rfl
    | worker busy own step =>
      rw [server_release]
      exact .inr ⟨_, step⟩

/-- What holds of the connections and the calls is the invariant of `threadedsvr.c`. -/
theorem server_invariant (h : (program P wq).Reachable s) : ThreadedServer.Invariant s.server :=
  ThreadedServer.invariant (simulates.reachable h)

/-! ## The steps of `threadedsvr.c`, for the pool -/

/-- The steps of `main` that create no thread create none. -/
theorem created_of_waits {s s' : ThreadedServer.State} {a : ThreadedServer.Action} (hwaits : Waits s a)
    (hstep : ThreadedServer.step s a = some s') :
    s'.created = s.created ∧ s'.handler = s.handler := by
  have hmain (hnot : ∀ argptr, s.main ≠ .pthreadCreate argptr) (h : ThreadedServer.MainStep s s') :
      s'.created = s.created ∧ s'.handler = s.handler := by
    cases h with
    | pthreadCreate pc => exact absurd pc (hnot _)
    | _ => exact ⟨rfl, rfl⟩
  have haccept {argptr : Nat} (hpc : s.main = .accept) : s.main ≠ .pthreadCreate argptr := by
    rw [hpc]
    exact ThreadedServer.MainPc.noConfusion
  unfold ThreadedServer.step at hstep
  split_ifs at hstep
  cases a with
  | accept fd argptr =>
    cases ThreadedServer.acceptStep_cases hstep with
    | pthreadCreate pc =>
      unfold ThreadedServer.acceptStep at hstep
      simp [pc] at hstep
    | _ => exact ⟨rfl, rfl⟩
  | acceptFails errno =>
    cases ThreadedServer.acceptFailsStep_cases hstep with
    | pthreadCreate pc =>
      unfold ThreadedServer.acceptFailsStep at hstep
      simp [pc] at hstep
    | _ => exact ⟨rfl, rfl⟩
  | main => exact hmain hwaits (ThreadedServer.mainStep_cases hstep)
  | read | fputsFails | handler => exact hwaits.elim

/-- The step of `main` that hands the argument over. -/
theorem eq_of_submit {s s' : ThreadedServer.State} {argptr : Nat} (hpc : s.main = .pthreadCreate argptr)
    (hstep : ThreadedServer.step s .main = some s') : s' = { s with
      main := .accept
      created := s.created + 1
      handler := Function.update s.handler s.created ⟨argptr, .loadArg⟩ } := by
  unfold ThreadedServer.step at hstep
  split_ifs at hstep
  simp only [ThreadedServer.mainStep, hpc, Option.some.injEq] at hstep
  exact hstep.symm

/-! ## The calls that have not returned -/

/-- The calls that the workers are at. -/
def State.running (s : State P Q) : List Nat := (List.finRange P).filterMap s.worker

/-- The calls that have been submitted and have not returned. -/
def State.pending (waiting : Q → List Nat) (s : State P Q) : List Nat := waiting s.queue ++ s.running

theorem mem_running {job : Nat} : job ∈ s.running ↔ ∃ w, s.worker w = some job := by
  rw [State.running, List.mem_filterMap]
  exact ⟨fun ⟨w, _, hw⟩ => ⟨w, hw⟩, fun ⟨w, hw⟩ => ⟨w, List.mem_finRange w, hw⟩⟩

/-- No more calls run than there are workers. -/
theorem length_running_le (s : State P Q) : s.running.length ≤ P := by
  have hle := List.length_filterMap_le s.worker (List.finRange P)
  rwa [List.length_finRange] at hle

/-- What a worker is at is a part of what runs. -/
theorem running_perm (s : State P Q) (w : Fin P) :
    s.running.Perm ((s.worker w).toList ++ ((List.finRange P).erase w).filterMap s.worker) := by
  have hperm := (List.perm_cons_erase (List.mem_finRange w)).filterMap s.worker
  rw [List.filterMap_cons] at hperm
  cases hw : s.worker w with
  | none =>
    simp only [hw] at hperm
    exact hperm
  | some job =>
    simp only [hw] at hperm
    exact hperm

theorem running_update (s : State P Q) (w : Fin P) (job : Option Nat) :
    (State.running { s with worker := Function.update s.worker w job }).Perm
      (job.toList ++ ((List.finRange P).erase w).filterMap s.worker) := by
  have hperm := running_perm { s with worker := Function.update s.worker w job } w
  simp only [Function.update_self] at hperm
  refine hperm.trans (List.Perm.append_left _ (List.Perm.of_eq (List.filterMap_congr fun w' hw' => ?_)))
  have hne : w' ≠ w := ((List.nodup_finRange P).mem_erase_iff.mp hw').1
  exact Function.update_of_ne hne ..

/-- **The invariant of the queue and the workers.** -/
structure Invariant (waiting : Q → List Nat) (capacity : Nat) (s : State P Q) : Prop where
  nodup : (s.pending waiting).Nodup
  mem_pending : ∀ h, h ∈ s.pending waiting ↔ h < s.server.created ∧ (s.server.handler h).pc.Holding
  queued : ∀ h ∈ waiting s.queue, (s.server.handler h).pc = .loadArg
  room : (waiting s.queue).length ≤ capacity

theorem invariant_initial (hwq : wq.Holds capacity waiting) : Invariant waiting capacity (initial P wq) := by
  have hpending : (initial P wq).pending waiting = [] := by
    rw [State.pending, show waiting (initial P wq).queue = [] from hwq.create, List.nil_append]
    exact List.filterMap_eq_nil_iff.mpr fun _ _ => rfl
  refine ⟨hpending ▸ List.nodup_nil, fun h => ?_, fun h hh => ?_, ?_⟩
  · rw [hpending]
    exact iff_of_false List.not_mem_nil fun hh => Nat.not_lt_zero h hh.1
  · rw [show waiting (initial P wq).queue = [] from hwq.create] at hh
    exact absurd hh List.not_mem_nil
  · rw [show waiting (initial P wq).queue = [] from hwq.create]
    exact Nat.zero_le _

theorem Invariant.submit (hwq : wq.Holds capacity waiting) (h : Invariant waiting capacity s)
    {argptr : Nat} {queue : Q} {server : ThreadedServer.State}
    (hpc : s.server.main = .pthreadCreate argptr) (hsubmit : wq.submit s.queue s.server.created = some queue)
    (hstep : ThreadedServer.step s.server .main = some server) :
    Invariant waiting capacity { s with queue, server } := by
  obtain rfl := eq_of_submit hpc hstep
  obtain ⟨hperm, hroom⟩ := hwq.submit _ _ _ hsubmit
  have hnew : s.server.created ∉ s.pending waiting := fun hmem =>
    Nat.lt_irrefl _ ((h.mem_pending _).mp hmem).1
  have hpending : (waiting queue ++ s.running).Perm (s.server.created :: s.pending waiting) :=
    hperm.append_right s.running
  refine ⟨hpending.nodup_iff.mpr (List.nodup_cons.mpr ⟨hnew, h.nodup⟩), fun k => ?_, fun k hk => ?_, hroom⟩
  · show k ∈ waiting queue ++ s.running ↔ k < s.server.created + 1 ∧
      (Function.update s.server.handler s.server.created ⟨argptr, .loadArg⟩ k).pc.Holding
    rw [hpending.mem_iff, List.mem_cons, h.mem_pending]
    by_cases hk : k = s.server.created
    · subst hk
      rw [Function.update_self]
      exact iff_of_true (.inl rfl) ⟨Nat.lt_succ_self _, trivial⟩
    · rw [Function.update_of_ne hk, or_iff_right hk]
      have hlt : k < s.server.created + 1 ↔ k < s.server.created := by omega
      rw [hlt]
  · show (Function.update s.server.handler s.server.created ⟨argptr, .loadArg⟩ k).pc = .loadArg
    rcases List.mem_cons.mp (hperm.mem_iff.mp hk) with hk | hk
    · subst hk
      rw [Function.update_self]
    · have hne : k ≠ s.server.created := by
        rintro rfl
        exact hnew (List.mem_append_left _ hk)
      rw [Function.update_of_ne hne]
      exact h.queued k hk

theorem Invariant.take (hwq : wq.Holds capacity waiting) (h : Invariant waiting capacity s) {w : Fin P}
    {job : Nat} {queue : Q} (hfree : s.worker w = none) (htake : wq.take s.queue = some (job, queue)) :
    Invariant waiting capacity { s with queue, worker := Function.update s.worker w (some job) } := by
  have hperm := hwq.take _ _ _ htake
  have hpending : (State.pending waiting
      { s with queue, worker := Function.update s.worker w (some job) }).Perm (s.pending waiting) := by
    have hnew := running_update s w (some job)
    have hold := running_perm s w
    rw [hfree] at hold
    have hrunning : (State.running { s with worker := Function.update s.worker w (some job) }).Perm
        (job :: s.running) := hnew.trans (hold.symm.cons job)
    have hall : (waiting queue ++ job :: s.running).Perm (waiting s.queue ++ s.running) :=
      List.perm_middle.trans (hperm.symm.append_right s.running)
    exact (hrunning.append_left (waiting queue)).trans hall
  refine ⟨hpending.nodup_iff.mpr h.nodup, fun k => hpending.mem_iff.trans (h.mem_pending k),
    fun k hk => h.queued k (hperm.mem_iff.mpr (List.mem_cons_of_mem job hk)), ?_⟩
  have hroom := h.room
  rw [hperm.length_eq, List.length_cons] at hroom
  exact Nat.le_of_succ_le hroom

/-- The call that a worker is at is not in the queue, and no other worker is at it. -/
theorem Invariant.pending_perm (h : Invariant waiting capacity s) {w : Fin P} {job : Nat}
    (hbusy : s.worker w = some job) : ∃ rest : List Nat,
      (s.pending waiting).Perm (job :: (waiting s.queue ++ rest)) ∧ job ∉ waiting s.queue ++ rest ∧
      (∀ job', (State.running { s with worker := Function.update s.worker w job' }).Perm
        (job'.toList ++ rest)) := by
  have hrunning := running_perm s w
  rw [hbusy] at hrunning
  have hpending : (s.pending waiting).Perm
      (job :: (waiting s.queue ++ ((List.finRange P).erase w).filterMap s.worker)) :=
    (hrunning.append_left _).trans List.perm_middle
  exact ⟨_, hpending, (List.nodup_cons.mp (hpending.nodup_iff.mp h.nodup)).1, running_update s w⟩

theorem Invariant.worker (h : Invariant waiting capacity s) {w : Fin P} {job : Nat}
    {server : ThreadedServer.State} (hbusy : s.worker w = some job)
    (huntouched : Untouched s.server server job) (hjob : job < s.server.created) :
    Invariant waiting capacity (State.release { s with server } w job) := by
  obtain ⟨rest, hpending, hnot, hupdate⟩ := h.pending_perm hbusy
  have hne {k : Nat} (hk : k ∈ waiting s.queue ++ rest) : k ≠ job := fun he => hnot (he ▸ hk)
  have hrest (k : Nat) (hk : k ≠ job) : k ∈ waiting s.queue ++ rest ↔
      k < server.created ∧ (server.handler k).pc.Holding := by
    rw [huntouched.created, huntouched.handler k hk, ← h.mem_pending k, hpending.mem_iff, List.mem_cons,
      or_iff_right hk]
  have hqueued (k : Nat) (hk : k ∈ waiting s.queue) : (server.handler k).pc = .loadArg := by
    rw [huntouched.handler k (hne (List.mem_append_left _ hk))]
    exact h.queued k hk
  have hnodup := List.nodup_cons.mp (hpending.nodup_iff.mp h.nodup)
  unfold State.release
  split
  · rename_i hreturned
    have hperm : (waiting s.queue ++ State.running
        { s with server, worker := Function.update s.worker w none }).Perm (waiting s.queue ++ rest) :=
      (hupdate none).append_left _
    refine ⟨hperm.nodup_iff.mpr hnodup.2, fun k => ?_, hqueued, h.room⟩
    refine hperm.mem_iff.trans ?_
    by_cases hk : k = job
    · subst hk
      refine iff_of_false hnot fun hholding => ?_
      have hholding : (server.handler k).pc.Holding := hholding.2
      change (server.handler k).pc = .returned at hreturned
      rw [hreturned] at hholding
      exact hholding
    · exact hrest k hk
  · rename_i hreturned
    refine ⟨h.nodup, fun k => ?_, hqueued, h.room⟩
    refine hpending.mem_iff.trans (List.mem_cons.trans ?_)
    by_cases hk : k = job
    · subst hk
      refine iff_of_true (.inl rfl) ⟨huntouched.created ▸ hjob, ?_⟩
      show (server.handler k).pc.Holding
      cases hpc : (server.handler k).pc with
      | returned => exact absurd hpc hreturned
      | _ => trivial
    · rw [or_iff_right hk]
      exact hrest k hk

theorem Invariant.step (hwq : wq.Holds capacity waiting) (h : Invariant waiting capacity s)
    (hstep : Step wq s s') : Invariant waiting capacity s' := by
  cases hstep with
  | @main a server waits step =>
    obtain ⟨hcreated, hhandler⟩ := created_of_waits waits step
    refine ⟨h.nodup, fun k => ?_, fun k hk => ?_, h.room⟩
    · show k ∈ s.pending waiting ↔ k < server.created ∧ (server.handler k).pc.Holding
      rw [hcreated, hhandler]
      exact h.mem_pending k
    · show (server.handler k).pc = .loadArg
      rw [hhandler]
      exact h.queued k hk
  | submit pc submit step => exact h.submit hwq pc submit step
  | take died free take => exact h.take hwq free take
  | worker busy own step =>
    obtain ⟨hjob, hhandler⟩ := handlerStep_of_own step own
    exact h.worker busy (untouched_of_handlerStep hhandler).1 hjob

theorem invariant (hwq : wq.Holds capacity waiting) (h : (program P wq).Reachable s) :
    Invariant waiting capacity s :=
  h.invariant (invariant_initial hwq) fun _ _ _ hinv hstep => hinv.step hwq (step_cases hstep)

/-! ## Where a connection is -/

/-- Who has a connection that has not been answered. -/
inductive Place (P : Nat) where
  | main
  | queue
  | worker (w : Fin P)

/-- `main` is about to submit the call for connection `k`, the call waits, or a worker
is at it. -/
def At (waiting : Q → List Nat) (s : State P Q) (k : Nat) : Place P → Prop
  | .main => k = s.server.created ∧ ∃ argptr, s.server.main = .pthreadCreate argptr
  | .queue => k ∈ waiting s.queue
  | .worker w => s.worker w = some k

/-- A call that has not returned is at one place. -/
theorem Invariant.existsUnique_at (h : Invariant waiting capacity s) {k : Nat}
    (hk : k < s.server.created) (hholding : (s.server.handler k).pc.Holding) :
    ∃! place, At waiting s k place := by
  have hmain : ¬ At waiting s k .main := fun hat => Nat.ne_of_lt hk hat.1
  rcases List.mem_append.mp ((h.mem_pending k).mpr ⟨hk, hholding⟩) with hqueue | hrunning
  · refine ⟨.queue, hqueue, fun place hat => ?_⟩
    cases place with
    | main => exact (hmain hat).elim
    | queue => rfl
    | worker w =>
      have hdisjoint := List.disjoint_of_nodup_append h.nodup
      exact (hdisjoint hqueue (mem_running.mpr ⟨w, hat⟩)).elim
  · obtain ⟨w, hw⟩ := mem_running.mp hrunning
    obtain ⟨rest, -, hnot, hupdate⟩ := h.pending_perm hw
    refine ⟨.worker w, hw, fun place hat => ?_⟩
    cases place with
    | main => exact (hmain hat).elim
    | queue => exact (hnot (List.mem_append_left _ hat)).elim
    | worker w' =>
      by_contra hne
      have hne : w' ≠ w := fun he => hne (congrArg Place.worker he)
      -- the other worker stays if this one leaves
      have hother : k ∈ State.running { s with worker := Function.update s.worker w none } :=
        mem_running.mpr ⟨w', (Function.update_of_ne hne ..).trans hat⟩
      exact hnot (List.mem_append_right _ ((hupdate none).mem_iff.mp hother))

/-- `main` is at the only place of a connection whose call has not been submitted. -/
theorem Invariant.existsUnique_main (h : Invariant waiting capacity s) {argptr : Nat}
    (hpc : s.server.main = .pthreadCreate argptr) : ∃! place, At waiting s s.server.created place := by
  have hnot : s.server.created ∉ s.pending waiting := fun hmem =>
    Nat.lt_irrefl _ ((h.mem_pending _).mp hmem).1
  refine ⟨.main, ⟨rfl, argptr, hpc⟩, fun place hat => ?_⟩
  cases place with
  | main => rfl
  | queue => exact (hnot (List.mem_append_left _ hat)).elim
  | worker w => exact (hnot (List.mem_append_right _ (mem_running.mpr ⟨w, hat⟩))).elim

/-- **The pool loses no connection and answers none twice.**  A connection none of
whose reads has failed has been answered and closed, once, or it is open, exactly one
cell of the heap owns it, and it is at exactly one place: in the hands of `main`, in
the queue, or at one worker. -/
theorem pool_answered_or_owned (hwq : wq.Holds capacity waiting) (h : (program P wq).Reachable s) {k : Nat}
    (hk : k < s.server.accepted) (hfailed : (s.server.connection k).failed = false) :
    (s.server.connection k).AnsweredAndClosed ∨
      ((s.server.connection k).closed = 0 ∧ ThreadedServer.Owned s.server k ∧
        ∃! place, At waiting s k place) := by
  have hserver := server_invariant h
  have hinv := invariant hwq h
  rcases hserver.closed_or_owned hk with hclosed | ⟨hopen, howned⟩
  · exact .inl hclosed
  refine .inr ⟨hopen, howned, ?_⟩
  obtain ⟨⟨holder, a⟩, howns, -⟩ := howned
  cases holder with
  | main =>
    obtain ⟨rfl, hpc⟩ := hserver.eq_of_owns_main howns
    exact hinv.existsUnique_main hpc
  | handler h' =>
    obtain ⟨rfl, -⟩ := hserver.eq_of_owns_handler howns
    exact hinv.existsUnique_at howns.1 howns.2.1.holding

/-- The pool as it is, `THREADPOOLSIZE` workers and a queue of `QUEUESIZE` tasks, with
one connection at a worker and one in the queue. -/
theorem pool_answered_or_owned_two : ∃ s, (program 10 (WorkQueue.fifo 10)).Reachable s ∧
    s.server.accepted = 2 ∧ s.worker 3 = some 0 ∧ s.queue = [1] ∧
    ((s.server.connection 1).AnsweredAndClosed ∨
      ((s.server.connection 1).closed = 0 ∧ ThreadedServer.Owned s.server 1 ∧
        ∃! place, At id s 1 place)) := by
  have hrun : ((program 10 (WorkQueue.fifo 10)).run (initial 10 (WorkQueue.fifo 10))
      [.accept 4 0, .main, .take 3, .accept 5 1, .main]).isSome := rfl
  obtain ⟨s, hs⟩ := Option.isSome_iff_exists.mp hrun
  have hstate : s.server.accepted = 2 ∧ s.worker 3 = some 0 ∧ s.queue = [1] ∧
      (s.server.connection 1).failed = false := by
    cases hs
    exact ⟨rfl, rfl, rfl, rfl⟩
  obtain ⟨haccepted, hworker, hqueue, hfailed⟩ := hstate
  exact ⟨s, ⟨_, hs⟩, haccepted, hworker, hqueue,
    pool_answered_or_owned (WorkQueue.holds_fifo 10) ⟨_, hs⟩ (by rw [haccepted]; decide) hfailed⟩

/-! ## How many connections are open -/

/-- The connections that have been accepted and not closed. -/
def openConnections (s : ThreadedServer.State) : List Nat :=
  (List.range s.accepted).filter fun k => (s.connection k).closed = 0

/-- The call has taken its first step. -/
def begun : HandlerPc → Bool
  | .loadArg => false
  | _ => true

/-- The open connections that a call of `connection_func` has begun to serve. -/
def inService (s : ThreadedServer.State) : List Nat :=
  (openConnections s).filter fun k => k < s.created ∧ begun (s.handler k).pc = true

/-- **Backpressure.**  With `P` workers and a queue for `capacity` tasks no more than
`P + capacity + 1` connections are open, whatever the clients do, and no more than `P`
are served. -/
theorem backpressure (hwq : wq.Holds capacity waiting) (h : (program P wq).Reachable s) :
    (openConnections s.server).length ≤ P + capacity + 1 ∧ (inService s.server).length ≤ P := by
  have hserver := server_invariant h
  have hinv := invariant hwq h
  have hnodup : (openConnections s.server).Nodup := List.nodup_range.filter _
  have hserving {k : Nat} (hk : k ∈ openConnections s.server) (hcreated : k < s.server.created) :
      k ∈ s.pending waiting := by
    refine (hinv.mem_pending k).mpr ⟨hcreated, ?_⟩
    have hopen := of_decide_eq_true (List.mem_filter.mp hk).2
    rw [(hserver.handlers k hcreated).record] at hopen
    cases hpc : (s.server.handler k).pc with
    | returned => simp [hpc, HandlerPc.record] at hopen
    | _ => trivial
  constructor
  · have hsub : openConnections s.server ⊆ s.server.created :: s.pending waiting := by
      intro k hk
      by_cases hcreated : k < s.server.created
      · exact List.mem_cons_of_mem _ (hserving hk hcreated)
      · -- the one that `main` has in its hands
        have haccepted : k < s.server.accepted := List.mem_range.mp (List.mem_filter.mp hk).1
        have hmain := hserver.main
        unfold ThreadedServer.MainInv at hmain
        split at hmain
        · have hlast : k = s.server.created := by omega
          exact hlast ▸ List.mem_cons_self
        all_goals omega
    have hle := (List.subperm_of_subset hnodup hsub).length_le
    have hqueue := hinv.room
    have hworkers := length_running_le s
    rw [List.length_cons, State.pending, List.length_append] at hle
    omega
  · have hsub : inService s.server ⊆ s.running := by
      intro k hk
      obtain ⟨hopen, hbegun⟩ := List.mem_filter.mp hk
      obtain ⟨hcreated, hbegun⟩ := of_decide_eq_true hbegun
      rcases List.mem_append.mp (hserving hopen hcreated) with hqueue | hrunning
      · rw [hinv.queued k hqueue] at hbegun
        exact absurd hbegun Bool.false_ne_true
      · exact hrunning
    exact (List.subperm_of_subset (hnodup.filter _) hsub).length_le.trans (length_running_le s)

theorem backpressure_two : ∃ s, (program 10 (WorkQueue.fifo 10)).Reachable s ∧
    (openConnections s.server).length = 2 ∧
    ((openConnections s.server).length ≤ 10 + 10 + 1 ∧ (inService s.server).length ≤ 10) := by
  have hrun : ((program 10 (WorkQueue.fifo 10)).run (initial 10 (WorkQueue.fifo 10))
      [.accept 4 0, .main, .take 3, .worker 3, .accept 5 1]).isSome := rfl
  obtain ⟨s, hs⟩ := Option.isSome_iff_exists.mp hrun
  have hopen : (openConnections s.server).length = 2 := by
    cases hs
    rfl
  exact ⟨s, ⟨_, hs⟩, hopen, backpressure (WorkQueue.holds_fifo 10) ⟨_, hs⟩⟩

end ThreadPoolServer
end SystemsCourse
