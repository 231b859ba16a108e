import Mathlib.Algebra.Order.BigOperators.Group.Finset
import SystemsCourse.StepProgress
import SystemsCourse.ThreadPoolOwnership
import SystemsCourse.ThreadTally

/-!
# The pool of `threadpoolsvr.c` answers what it has accepted

`main` waits for room in the queue, and the workers wait for tasks and for their
clients.  Let the clients send nothing more and no other one connect: what is left of
them is what they have sent and nobody has read, and which of them have closed
(`Clients`).  The read loop of a connection comes to an end with that if the client
has closed, or has sent a newline last (`Ends`) — and unless the loop is over already,
only then.

As long as there are fewer clients that do not end their message than workers, nobody
else waits for ever: a worker whose call ends can go on, a free one finds a task if
there is any, and so `main` finds room (`served_of_stuck`).  Every call has at most
five steps left besides the reads that do not end its loop, each of which takes
something of what is unread, and each has to be submitted and taken once
(`stepsLeft_quietStep`).
-/
namespace SystemsCourse
namespace ThreadPoolServer
open MessageFraming
open ThreadedServer (FailedCall HandlerPc HandlerStep Untouched exists_onConnection handlerStep_of_own
  untouched_of_handlerStep)

variable {P : Nat} {Q : Type} {wq : WorkQueue Nat Q} {capacity : Nat} {waiting : Q → List Nat}
  {s s' : State P Q}

/-! ## When the clients send nothing more -/

/-- What has been sent on each connection and not been read, and which of the clients
have closed theirs. -/
structure Clients where
  unread : Nat → List Byte
  closed : Nat → Bool

/-- `read` on connection `k` returns `r`: some of the bytes that have not been read, or,
when there are none left and the client has closed, none. -/
def Clients.read (c : Clients) (k : Nat) : ReadResult → Option Clients
  | .error => none
  | .bytes bs =>
      if bs = [] then
        if c.unread k = [] ∧ c.closed k = true then some c else none
      else if bs <+: c.unread k then
        some { c with unread := Function.update c.unread k ((c.unread k).drop bs.length) }
      else none

/-- A step of the process when no connection is made and no call fails. -/
def quietStep (wq : WorkQueue Nat Q) (u : State P Q × Clients) : Action P → Option (State P Q × Clients)
  | .accept _ _ => none
  | .acceptFails _ => none
  | .fputsFails _ _ => none
  | .read w r =>
      match u.1.worker w with
      | none => none
      | some job => do
          let clients ← u.2.read job r
          let s ← step wq u.1 (.read w r)
          return (s, clients)
  | .main => (step wq u.1 .main).map (·, u.2)
  | .take w => (step wq u.1 (.take w)).map (·, u.2)
  | .worker w => (step wq u.1 (.worker w)).map (·, u.2)

/-- **The pool from `s` on**, when the clients send nothing more than `clients`. -/
def quiet (wq : WorkQueue Nat Q) (s : State P Q) (clients : Clients) :
    StepSystem (State P Q × Clients) (Action P) := ⟨(s, clients), quietStep wq⟩

/-- The read loop is over. -/
def HasRead : HandlerPc → Prop
  | .loadArg | .read _ _ => False
  | _ => True

/-- The read loop of connection `k` is over, or the client has closed the connection or
sent a newline last. -/
def Ends (s : ThreadedServer.State) (c : Clients) (k : Nat) : Prop :=
  (k < s.created ∧ HasRead (s.handler k).pc) ∨ c.closed k = true ∨ (c.unread k).getLast? = some (ch '\n')

/-- No call has failed that ends the process. -/
structure Calm (s : ThreadedServer.State) : Prop where
  died : s.died = none
  main : s.main ≠ .errNDie
  handler : ∀ h < s.created, ∀ fd call, (s.handler h).pc ≠ .errNDie fd call

/-! ## The steps of a call -/

/-- The steps of a call, but for the reads that do not end its loop. -/
def callStepsLeft : HandlerPc → Nat
  | .loadArg => 5
  | .read _ _ => 4
  | .write _ => 3
  | .close _ => 2
  | .free => 1
  | .returned => 0
  | .errNDie _ _ => 0

/-- A call takes a step, and goes on. -/
structure CallStep (s : ThreadedServer.State) (c : Clients) (s' : ThreadedServer.State) (c' : Clients)
    (job : Nat) : Prop where
  untouched : Untouched s s' job
  created : job < s.created
  died : s'.died = s.died
  unread : ∀ k ≠ job, c'.unread k = c.unread k
  closed : c'.closed = c.closed
  falls : callStepsLeft (s'.handler job).pc + (c'.unread job).length <
    callStepsLeft (s.handler job).pc + (c.unread job).length
  goesOn : ∀ fd call, (s'.handler job).pc ≠ .errNDie fd call
  ends : Ends s c job → Ends s' c' job

theorem died_onConnection (s : ThreadedServer.State) (fd : Nat)
    (f : ThreadedServer.Connection → ThreadedServer.Connection) : (s.onConnection fd f).died = s.died := by
  obtain ⟨connection, he⟩ := exists_onConnection s fd f
  rw [he]

/-- To go on to `pc` without reading is a step that falls if `pc` has less to do. -/
theorem callStep_goto {s s' : ThreadedServer.State} {c : Clients} {job : Nat} {pc : HandlerPc}
    (hjob : job < s.created) (huntouched : Untouched s (s'.goto job pc) job) (hdied : s'.died = s.died)
    (hlt : callStepsLeft pc < callStepsLeft (s.handler job).pc) (hgoesOn : ∀ fd call, pc ≠ .errNDie fd call)
    (hread : HasRead (s.handler job).pc → HasRead pc) : CallStep s c (s'.goto job pc) c job := by
  have hpc : ((s'.goto job pc).handler job).pc = pc := by rw [ThreadedServer.goto_handler_self]
  refine ⟨huntouched, hjob, hdied, fun _ _ => rfl, rfl, ?_, ?_, ?_⟩
  · rw [hpc]
    exact Nat.add_lt_add_right hlt _
  · rwa [hpc]
  · refine Or.imp_left fun hhas => ⟨?_, ?_⟩
    · rw [huntouched.created]
      exact hjob
    · rw [hpc]
      exact hread hhas.2

theorem callStep_handler {s s' : ThreadedServer.State} {c : Clients} {job : Nat} (hcalm : Calm s)
    (hstep : ThreadedServer.step s (.handler job) = some s') : CallStep s c s' c job := by
  obtain ⟨hjob, hhandler⟩ := handlerStep_of_own hstep rfl
  have huntouched := (untouched_of_handlerStep hhandler).1
  unfold ThreadedServer.step at hstep
  split_ifs at hstep
  simp only [if_pos hjob, ThreadedServer.handlerStep] at hstep
  have hgoesOn : ∀ fd call, (s.handler job).pc ≠ .errNDie fd call := hcalm.handler job hjob
  cases hpc : (s.handler job).pc with
  | loadArg =>
    simp only [hpc] at hstep
    split at hstep <;> cases hstep
    refine callStep_goto hjob huntouched rfl ?_ (fun _ _ => HandlerPc.noConfusion) ?_
    all_goals rw [hpc]
    · exact Nat.lt_succ_self 4
    · exact False.elim
  | read fd st =>
    simp only [hpc] at hstep
    cases hstep
  | errNDie fd call => exact absurd hpc (hgoesOn fd call)
  | write fd =>
    simp only [hpc] at hstep
    cases hstep
    refine callStep_goto hjob huntouched (died_onConnection ..) ?_ (fun _ _ => HandlerPc.noConfusion)
      fun _ => trivial
    rw [hpc]
    exact Nat.lt_succ_self 2
  | close fd =>
    simp only [hpc] at hstep
    cases hstep
    refine callStep_goto hjob huntouched (died_onConnection ..) ?_ (fun _ _ => HandlerPc.noConfusion)
      fun _ => trivial
    rw [hpc]
    exact Nat.lt_succ_self 1
  | free =>
    simp only [hpc] at hstep
    split at hstep <;> cases hstep
    refine callStep_goto hjob huntouched rfl ?_ (fun _ _ => HandlerPc.noConfusion) fun _ => trivial
    rw [hpc]
    exact Nat.lt_succ_self 0
  | returned =>
    simp only [hpc] at hstep
    cases hstep

/-- To go on to `pc` after a part of what is unread has been read. -/
theorem callStep_reads {s : ThreadedServer.State} {c : Clients} {job fd : Nat} {st : Reading} {bs rest : List Byte}
    {pc : HandlerPc} (hjob : job < s.created) (hpc : (s.handler job).pc = .read fd st) (hbs : bs ≠ [])
    (hunread : c.unread job = bs ++ rest) (hle : callStepsLeft pc ≤ 4) (hgoesOn : ∀ fd call, pc ≠ .errNDie fd call)
    (hends : HasRead pc ∨ bs.getLast? ≠ some (ch '\n')) :
    CallStep s c (s.goto job pc) { c with unread := Function.update c.unread job rest } job := by
  have hpc' : ((s.goto job pc).handler job).pc = pc := by rw [ThreadedServer.goto_handler_self]
  refine ⟨ThreadedServer.untouched_goto rfl ⟨rfl, rfl⟩ rfl, hjob, rfl, fun k hk => Function.update_of_ne hk .., rfl,
    ?_, ?_, ?_⟩
  · show callStepsLeft ((s.goto job pc).handler job).pc + (Function.update c.unread job rest job).length < _
    have hpos := List.length_pos_iff.mpr hbs
    rw [hpc', Function.update_self, hpc, hunread, List.length_append]
    show callStepsLeft pc + rest.length < 4 + (bs.length + rest.length)
    omega
  · rwa [hpc']
  · rintro (⟨-, hhas⟩ | hclosed | hlast)
    · rw [hpc] at hhas
      exact hhas.elim
    · exact .inr (.inl hclosed)
    · rcases hends with hhas | hnot
      · exact .inl ⟨hjob, hpc'.symm ▸ hhas⟩
      · -- the newline is still to come
        refine .inr (.inr ?_)
        show (Function.update c.unread job rest job).getLast? = _
        rw [Function.update_self]
        have hrest : rest ≠ [] := by
          rintro rfl
          rw [hunread, List.append_nil] at hlast
          exact hnot hlast
        rwa [hunread, List.getLast?_append_of_ne_nil _ hrest] at hlast

theorem callStep_read {s s' : ThreadedServer.State} {c c' : Clients} {job : Nat} {r : ReadResult}
    (hlength : ∀ fd st, (s.handler job).pc = .read fd st → st.recvline.length = maxLine + 1)
    (hread : c.read job r = some c') (hstep : ThreadedServer.step s (.read job r) = some s') :
    CallStep s c s' c' job := by
  obtain ⟨hjob, hhandler⟩ := handlerStep_of_own hstep rfl
  have huntouched := (untouched_of_handlerStep hhandler).1
  unfold ThreadedServer.step at hstep
  split_ifs at hstep
  simp only [if_pos hjob, ThreadedServer.readStep] at hstep
  cases hpc : (s.handler job).pc with
  | read fd st =>
    simp only [hpc] at hstep
    cases r with
    | error => cases hread
    | bytes bs =>
      by_cases hbs : bs = []
      · -- the end of the stream ends the read loop
        subst hbs
        simp only [Clients.read, if_true, Option.ite_none_right_eq_some, Option.some.injEq] at hread
        obtain ⟨-, rfl⟩ := hread
        cases hstep
        refine callStep_goto hjob huntouched rfl ?_ (fun _ _ => HandlerPc.noConfusion) fun _ => trivial
        rw [hpc]
        exact Nat.lt_succ_self 3
      · simp only [Clients.read, if_neg hbs, Option.ite_none_right_eq_some, Option.some.injEq] at hread
        obtain ⟨⟨rest, hrest⟩, rfl⟩ := hread
        have hlen := hlength fd st hpc
        have hreadable : Readable bs := by
          cases hpass : readPass st (.bytes bs) with
          | none =>
            rw [hpass] at hstep
            cases hstep
          | some out => exact readable_of_readPass hlen hbs hpass
        rw [readPass_bytes hlen hreadable] at hstep
        rw [← hrest, List.drop_left]
        by_cases hlast : bs.getLast? = some (ch '\n')
        · simp only [if_pos hlast] at hstep
          cases hstep
          exact callStep_reads hjob hpc hbs hrest.symm (Nat.le_succ 3) (fun _ _ => HandlerPc.noConfusion) (.inl trivial)
        · simp only [if_neg hlast] at hstep
          cases hstep
          exact callStep_reads hjob hpc hbs hrest.symm (Nat.le_refl 4) (fun _ _ => HandlerPc.noConfusion) (.inr hlast)
  | _ => simp [hpc] at hstep

/-! ## The steps of the process -/

variable {u u' : State P Q × Clients}

/-- The steps of the process when it is quiet. -/
inductive QuietStep (wq : WorkQueue Nat Q) (u : State P Q × Clients) : State P Q × Clients → Prop
  | submit {argptr : Nat} {queue : Q} {server : ThreadedServer.State}
      (pc : u.1.server.main = .pthreadCreate argptr)
      (submit : wq.submit u.1.queue u.1.server.created = some queue)
      (step : ThreadedServer.step u.1.server .main = some server) :
      QuietStep wq u ({ u.1 with queue, server }, u.2)
  | take {w : Fin P} {job : Nat} {queue : Q} (take : wq.take u.1.queue = some (job, queue)) :
      QuietStep wq u ({ u.1 with queue, worker := Function.update u.1.worker w (some job) }, u.2)
  | worker {w : Fin P} {job : Nat} {server : ThreadedServer.State} {clients : Clients}
      (step : CallStep u.1.server u.2 server clients job) :
      QuietStep wq u (State.release { u.1 with server } w job, clients)

/-- What a worker does is done by the call that it is at. -/
theorem workerStep_eq_some {w : Fin P} {job : Nat} {a : Nat → ThreadedServer.Action} (hjob : s.worker w = some job)
    (hstep : workerStep s w a = some s') : ∃ server, ThreadedServer.step s.server (a job) = some server ∧
      s' = State.release { s with server } w job := by
  unfold workerStep at hstep
  rw [hjob] at hstep
  simp only [Option.bind_eq_bind, Option.bind_eq_some_iff] at hstep
  obtain ⟨s'', hcalls, hstep⟩ := hstep
  cases hstep
  obtain ⟨server, hserver, rfl⟩ := serverStep_eq_some_iff.mp hcalls
  exact ⟨server, hserver, rfl⟩

theorem quietStep_cases (hreach : (program P wq).Reachable u.1) (hcalm : Calm u.1.server) {a : Action P}
    (hstep : quietStep wq u a = some u') : QuietStep wq u u' := by
  cases a with
  | accept | acceptFails | fputsFails => cases hstep
  | main =>
    obtain ⟨s', hmain, rfl⟩ := Option.map_eq_some_iff.mp hstep
    replace hmain : mainStep wq u.1 = some s' := hmain
    cases hpc : u.1.server.main with
    | accept => simp [mainStep, hpc, State.serverStep, ThreadedServer.step, ThreadedServer.mainStep] at hmain
    | errNDie => exact absurd hpc hcalm.main
    | pthreadCreate argptr =>
      unfold mainStep at hmain
      simp only [hpc, Option.bind_eq_bind, Option.bind_eq_some_iff] at hmain
      obtain ⟨queue, hqueue, hmain⟩ := hmain
      obtain ⟨server, hserver, rfl⟩ := serverStep_eq_some_iff.mp hmain
      exact .submit hpc hqueue hserver
  | take w =>
    obtain ⟨s', htake, rfl⟩ := Option.map_eq_some_iff.mp hstep
    replace htake : takeStep wq u.1 w = some s' := htake
    unfold takeStep at htake
    split at htake
    · rw [Option.bind_eq_bind, Option.bind_eq_some_iff] at htake
      obtain ⟨⟨job, queue⟩, htake, he⟩ := htake
      cases he
      exact .take htake
    · cases htake
  | worker w =>
    obtain ⟨s', hworker, rfl⟩ := Option.map_eq_some_iff.mp hstep
    cases hjob : u.1.worker w with
    | none => simp [step, workerStep, hjob] at hworker
    | some job =>
      obtain ⟨server, hserver, rfl⟩ := workerStep_eq_some (a := .handler) hjob hworker
      exact .worker (callStep_handler hcalm hserver)
  | read w r =>
    cases hjob : u.1.worker w with
    | none => simp [quietStep, hjob] at hstep
    | some job =>
      simp only [quietStep, hjob, Option.bind_eq_bind, Option.bind_eq_some_iff] at hstep
      obtain ⟨clients, hread, s', hworker, he⟩ := hstep
      cases he
      obtain ⟨server, hserver, rfl⟩ := workerStep_eq_some (a := (.read · r)) hjob hworker
      have hjob' : job < u.1.server.created := (handlerStep_of_own hserver rfl).1
      exact .worker (callStep_read (fun fd st => ThreadedServer.length_recvline (simulates.reachable hreach) hjob')
        hread hserver)

/-- A quiet process stays calm, accepts nothing, and what ends goes on to do so. -/
theorem QuietStep.keeps (hstep : QuietStep wq u u') (hcalm : Calm u.1.server) :
    Calm u'.1.server ∧ u'.1.server.accepted = u.1.server.accepted ∧
      ∀ k, Ends u.1.server u.2 k → Ends u'.1.server u'.2 k := by
  cases hstep with
  | @submit argptr queue server pc submit step =>
    obtain rfl := eq_of_submit pc step
    have hold (h : Nat) (hlt : h < u.1.server.created) :
        Function.update u.1.server.handler u.1.server.created ⟨argptr, .loadArg⟩ h = u.1.server.handler h :=
      Function.update_of_ne (Nat.ne_of_lt hlt) ..
    refine ⟨⟨hcalm.died, ThreadedServer.MainPc.noConfusion, fun h hh fd call => ?_⟩, rfl, fun k => ?_⟩
    · show (Function.update u.1.server.handler u.1.server.created _ h).pc ≠ _
      by_cases he : h = u.1.server.created
      · subst he
        rw [Function.update_self]
        exact HandlerPc.noConfusion
      · have hlt : h < u.1.server.created := Nat.lt_of_le_of_ne (Nat.le_of_lt_succ hh) he
        rw [hold h hlt]
        exact hcalm.handler h hlt fd call
    · refine Or.imp_left fun ⟨hk, hhas⟩ => ⟨Nat.lt_succ_of_lt hk, ?_⟩
      show HasRead (Function.update u.1.server.handler u.1.server.created _ k).pc
      rw [hold k hk]
      exact hhas
  | take take => exact ⟨hcalm, rfl, fun _ => id⟩
  | @worker w job server clients step =>
    rw [server_release]
    refine ⟨⟨step.died.trans hcalm.died, ?_, fun h hh fd call => ?_⟩, step.untouched.accepted, fun k hk => ?_⟩
    · show server.main ≠ .errNDie
      rw [step.untouched.main]
      exact hcalm.main
    · show (server.handler h).pc ≠ .errNDie fd call
      by_cases he : h = job
      · exact he ▸ step.goesOn fd call
      · rw [step.untouched.handler h he]
        exact hcalm.handler h (step.untouched.created ▸ hh) fd call
    · show Ends server clients k
      by_cases he : k = job
      · exact he ▸ step.ends (he ▸ hk)
      · unfold Ends
        rw [step.untouched.created, step.untouched.handler k he, step.closed, step.unread k he]
        exact hk

/-- What `main` has to do until it waits in `accept`, with what the call that it submits
has to do: its own steps, the submission and the taking. -/
def mainStepsLeft : ThreadedServer.MainPc → Nat
  | .pthreadCreate _ => 7
  | _ => 0

/-- The steps that are left, but for the reads that do not end a loop. -/
def State.stepsLeft (waiting : Q → List Nat) (s : State P Q) : Nat :=
  mainStepsLeft s.server.main + (waiting s.queue).length +
    ∑ h ∈ Finset.range s.server.created, callStepsLeft (s.server.handler h).pc

/-- What is unread of the first `n` connections. -/
def Clients.left (c : Clients) (n : Nat) : Nat := ∑ k ∈ Finset.range n, (c.unread k).length

/-- **Every step of a quiet process lowers the measure.** -/
theorem stepsLeft_quietStep (hwq : wq.Holds capacity waiting) (hserver : ThreadedServer.Invariant u.1.server)
    (hstep : QuietStep wq u u') :
    u'.1.stepsLeft waiting + u'.2.left u'.1.server.accepted < u.1.stepsLeft waiting + u.2.left u.1.server.accepted := by
  cases hstep with
  | @submit argptr queue server pc submit step =>
    obtain rfl := eq_of_submit pc step
    obtain ⟨hperm, -⟩ := hwq.submit _ _ _ submit
    have hold : ∑ h ∈ Finset.range u.1.server.created, callStepsLeft
        (Function.update u.1.server.handler u.1.server.created ⟨argptr, .loadArg⟩ h).pc =
          ∑ h ∈ Finset.range u.1.server.created, callStepsLeft (u.1.server.handler h).pc := by
      refine Finset.sum_congr rfl fun h hh => ?_
      rw [Function.update_of_ne (Nat.ne_of_lt (Finset.mem_range.mp hh))]
    refine Nat.add_lt_add_right ?_ _
    show 0 + (waiting queue).length + ∑ h ∈ Finset.range (u.1.server.created + 1), callStepsLeft
      (Function.update u.1.server.handler u.1.server.created ⟨argptr, .loadArg⟩ h).pc < _
    rw [Finset.sum_range_succ, hold, Function.update_self, hperm.length_eq, List.length_cons,
      State.stepsLeft, pc]
    simp only [callStepsLeft, mainStepsLeft]
    omega
  | @take w job queue take =>
    have hperm := hwq.take _ _ _ take
    refine Nat.add_lt_add_right ?_ _
    unfold State.stepsLeft
    rw [hperm.length_eq, List.length_cons]
    exact Nat.add_lt_add_right (Nat.add_lt_add_left (Nat.lt_succ_self _) _) _
  | @worker w job server clients step =>
    have haccepted : job < u.1.server.accepted := Nat.lt_of_lt_of_le step.created hserver.created_le
    have hhandler (h : Nat) (hh : h ≠ job) :
        callStepsLeft (server.handler h).pc = callStepsLeft (u.1.server.handler h).pc := by
      rw [step.untouched.handler h hh]
    have hother (k : Nat) (hk : k ≠ job) : (clients.unread k).length = (u.2.unread k).length := by
      rw [step.unread k hk]
    have hcalls : (∑ h ∈ Finset.range server.created, callStepsLeft (server.handler h).pc) +
          callStepsLeft (u.1.server.handler job).pc =
        (∑ h ∈ Finset.range u.1.server.created, callStepsLeft (u.1.server.handler h).pc) +
          callStepsLeft (server.handler job).pc := by
      rw [step.untouched.created]
      exact sum_range_add_eq step.created hhandler
    have hunread : clients.left u.1.server.accepted + (u.2.unread job).length =
        u.2.left u.1.server.accepted + (clients.unread job).length :=
      sum_range_add_eq haccepted hother
    have hfalls := step.falls
    unfold State.stepsLeft
    rw [server_release, queue_release]
    show mainStepsLeft server.main + (waiting u.1.queue).length + ∑ h ∈ Finset.range server.created,
      callStepsLeft (server.handler h).pc + clients.left server.accepted < _
    rw [step.untouched.main, step.untouched.accepted]
    omega

/-! ## Nobody waits for ever -/

/-- Of what is unread, a byte can be read; at the end of it, that it has ended. -/
theorem exists_read {c : Clients} {k : Nat} (h : c.closed k = true ∨ (c.unread k).getLast? = some (ch '\n')) :
    ∃ bs c', c.read k (.bytes bs) = some c' ∧ (bs = [] ∨ Readable bs) := by
  cases hunread : c.unread k with
  | nil =>
    rw [hunread] at h
    have hclosed : c.closed k = true := h.resolve_right (Option.some_ne_none _).symm
    exact ⟨[], c, by simp [Clients.read, hunread, hclosed], .inl rfl⟩
  | cons b rest =>
    have hreadable : Readable [b] := ⟨Nat.le_refl 1, show 1 ≤ maxLine by decide⟩
    have hgrows : [b] <+: b :: rest := List.prefix_append [b] rest
    have hread : c.read k (.bytes [b]) = some { c with unread := Function.update c.unread k rest } := by
      rw [Clients.read, if_neg (List.cons_ne_nil b []), hunread, if_pos hgrows]
      rfl
    exact ⟨[b], _, hread, .inr hreadable⟩

/-- A call that ends and has not returned can go on. -/
theorem exists_callStep {s : ThreadedServer.State} {c : Clients} (hreach : ThreadedServer.program.Reachable s)
    (hcalm : Calm s) {job : Nat} (hjob : job < s.created) (hholding : (s.handler job).pc.Holding)
    (hends : Ends s c job) :
    (∃ r c', c.read job r = some c' ∧ ThreadedServer.step s (.read job r) ≠ none) ∨
      ThreadedServer.step s (.handler job) ≠ none := by
  have hallocated := ((ThreadedServer.invariant hreach).handlers job hjob).allocated hholding
  simp only [ThreadedServer.step, hcalm.died, Option.isSome_none, Bool.false_eq_true, if_false, if_pos hjob,
    ThreadedServer.readStep, ThreadedServer.handlerStep]
  cases hpc : (s.handler job).pc with
  | read fd st =>
    have hends : c.closed job = true ∨ (c.unread job).getLast? = some (ch '\n') := by
      refine hends.resolve_left fun hhas => ?_
      rw [hpc] at hhas
      exact hhas.2
    obtain ⟨bs, c', hread, hbs⟩ := exists_read hends
    refine .inl ⟨.bytes bs, c', hread, ?_⟩
    rcases hbs with rfl | hreadable
    · simp [readPass]
    · have hlen := ThreadedServer.length_recvline hreach hjob hpc
      simp only [readPass_bytes hlen hreadable]
      split_ifs <;> exact Option.some_ne_none _
  | loadArg | free =>
    obtain ⟨fd, hfd⟩ := Option.ne_none_iff_exists'.mp hallocated
    exact .inr (by simp [hfd])
  | errNDie | write | close => exact .inr (by simp)
  | returned =>
    rw [hpc] at hholding
    exact hholding.elim

/-- A call that a worker is at. -/
theorem Invariant.pending_of_worker (h : Invariant waiting capacity s) {w : Fin P} {job : Nat}
    (hbusy : s.worker w = some job) : job < s.server.created ∧ (s.server.handler job).pc.Holding :=
  (h.mem_pending job).mp (List.mem_append_right _ (mem_running.mpr ⟨w, hbusy⟩))

/-- **A worker is free** if there are more workers than calls that they can be at. -/
theorem Invariant.exists_free (h : Invariant waiting capacity s) {calls : Finset Nat}
    (hcalls : ∀ w job, s.worker w = some job → job ∈ calls) (hlt : calls.card < P) :
    ∃ w, s.worker w = none := by
  by_contra hnone
  have hbusy (w : Fin P) : ∃ job, s.worker w = some job :=
    Option.ne_none_iff_exists'.mp fun hw => hnone ⟨w, hw⟩
  choose job hjob using hbusy
  -- two workers are not at the same call
  have hinj : Function.Injective job := by
    intro w w' he
    obtain ⟨hcreated, hholding⟩ := h.pending_of_worker (hjob w)
    have hat : At waiting s (job w) (.worker w) := hjob w
    have hat' : At waiting s (job w) (.worker w') := he ▸ hjob w'
    exact Place.worker.inj ((h.existsUnique_at hcreated hholding).unique hat hat')
  have hle := Finset.card_le_card_of_injOn job
    (fun w (_ : w ∈ (Finset.univ : Finset (Fin P))) => hcalls w _ (hjob w)) hinj.injOn
  rw [Finset.card_univ, Fintype.card_fin] at hle
  omega

/-- A worker whose call ends can go on. -/
theorem not_stuck_of_worker (hreach : (program P wq).Reachable u.1) (hinv : Invariant waiting capacity u.1)
    (hcalm : Calm u.1.server) {w : Fin P} {job : Nat} (hjob : u.1.worker w = some job)
    (hends : Ends u.1.server u.2 job) : ∃ a, quietStep wq u a ≠ none := by
  obtain ⟨hcreated, hholding⟩ := hinv.pending_of_worker hjob
  rcases exists_callStep (simulates.reachable hreach) hcalm hcreated hholding hends with
    ⟨r, c', hread, hsome⟩ | hsome
  · obtain ⟨server, hserver⟩ := Option.ne_none_iff_exists'.mp hsome
    exact ⟨.read w r, by simp [quietStep, hjob, hread, step, workerStep, State.serverStep, hserver]⟩
  · obtain ⟨server, hserver⟩ := Option.ne_none_iff_exists'.mp hsome
    exact ⟨.worker w, by simp [quietStep, step, workerStep, hjob, State.serverStep, hserver]⟩

/-- Everything that had been accepted has been answered, but for the connections in
`silent`, and `main` waits in `accept`. -/
def Served (silent : Finset Nat) (s : State P Q) (u : State P Q × Clients) : Prop :=
  u.1.server.accepted = s.server.accepted ∧ u.1.server.main = .accept ∧
    ∀ k < s.server.accepted, k ∉ silent → (u.1.server.connection k).AnsweredAndClosed

/-- **At rest everything has been answered** but what the silent clients keep, if there
are fewer of these than workers. -/
theorem served_of_stuck {silent : Finset Nat} (hwq : wq.Holds capacity waiting) (hP : silent.card < P)
    (hcapacity : 0 < capacity) (hreach : (program P wq).Reachable u.1) (hcalm : Calm u.1.server)
    (hends : ∀ k < u.1.server.accepted, k ∉ silent → Ends u.1.server u.2 k)
    (hstuck : ∀ a, quietStep wq u a = none) : Served silent u.1 u := by
  have hserver := server_invariant hreach
  have hinv := invariant hwq hreach
  have hsilent (w : Fin P) (job : Nat) (hjob : u.1.worker w = some job) : job ∈ silent := by
    by_contra hspeaks
    have haccepted := Nat.lt_of_lt_of_le (hinv.pending_of_worker hjob).1 hserver.created_le
    obtain ⟨a, ha⟩ := not_stuck_of_worker hreach hinv hcalm hjob (hends job haccepted hspeaks)
    exact ha (hstuck a)
  obtain ⟨w, hfree⟩ := hinv.exists_free hsilent hP
  have hempty : waiting u.1.queue = [] := by
    by_contra hwaiting
    obtain ⟨⟨job, queue⟩, htake⟩ := Option.ne_none_iff_exists'.mp (hwq.task _ hwaiting)
    have hnone := hstuck (.take w)
    simp [quietStep, step, takeStep, hcalm.died, hfree, htake] at hnone
  have hmain : u.1.server.main = .accept := by
    cases hpc : u.1.server.main with
    | accept => rfl
    | errNDie => exact absurd hpc hcalm.main
    | pthreadCreate argptr =>
      have hroom : (waiting u.1.queue).length < capacity := by
        rw [hempty]
        exact hcapacity
      obtain ⟨queue, hqueue⟩ := Option.ne_none_iff_exists'.mp (hwq.room _ u.1.server.created hroom)
      have hnone := hstuck .main
      simp [quietStep, step, mainStep, hpc, hqueue, State.serverStep, ThreadedServer.step,
        ThreadedServer.mainStep, hcalm.died] at hnone
  refine ⟨rfl, hmain, fun k hk hspeaks => ?_⟩
  have hcount := hserver.main
  rw [ThreadedServer.MainInv, hmain] at hcount
  have hcreated : k < u.1.server.created := by
    rw [← hcount]
    exact hk
  have hpending : k ∉ u.1.pending waiting := by
    rw [State.pending, hempty, List.nil_append]
    intro hrunning
    obtain ⟨w, hw⟩ := mem_running.mp hrunning
    exact hspeaks (hsilent w k hw)
  have hreturned : (u.1.server.handler k).pc = .returned := by
    cases hpc : (u.1.server.handler k).pc with
    | returned => rfl
    | _ => exact absurd ((hinv.mem_pending k).mpr ⟨hcreated, hpc ▸ trivial⟩) hpending
  rw [(hserver.handlers k hcreated).record, hreturned]
  exact ⟨rfl, rfl⟩

/-! ## Every quiet run -/

/-- The calls that have not returned bound what is left. -/
theorem stepsLeft_le (hinv : Invariant waiting capacity s) :
    s.stepsLeft waiting ≤ 5 * P + 6 * capacity + 7 := by
  have hmain : mainStepsLeft s.server.main ≤ 7 := by
    unfold mainStepsLeft
    split <;> decide
  have hcalls : ∑ h ∈ Finset.range s.server.created, callStepsLeft (s.server.handler h).pc ≤
      (s.pending waiting).length * 5 := by
    have hzero (h : Nat) (hh : h ∉ (s.pending waiting).toFinset) (hcreated : h < s.server.created) :
        callStepsLeft (s.server.handler h).pc = 0 := by
      cases hpc : (s.server.handler h).pc with
      | returned => rfl
      | errNDie fd call => rfl
      | _ => exact absurd (List.mem_toFinset.mpr ((hinv.mem_pending h).mpr ⟨hcreated, hpc ▸ trivial⟩)) hh
    have hsub : (s.pending waiting).toFinset ⊆ Finset.range s.server.created := fun h hh =>
      Finset.mem_range.mpr ((hinv.mem_pending h).mp (List.mem_toFinset.mp hh)).1
    rw [← Finset.sum_subset hsub fun h hcreated hh => hzero h hh (Finset.mem_range.mp hcreated)]
    have hle := Finset.sum_le_card_nsmul (s.pending waiting).toFinset
      (fun h => callStepsLeft (s.server.handler h).pc) 5 fun h _ => by
        unfold callStepsLeft
        split <;> decide
    rwa [List.toFinset_card_of_nodup hinv.nodup, Nat.nsmul_eq_mul] at hle
  have hroom := hinv.room
  have hworkers := length_running_le s
  rw [State.pending, List.length_append] at hcalls
  unfold State.stepsLeft
  omega

/-- A state that a quiet run has reached from `s`. -/
structure QuietFrom (wq : WorkQueue Nat Q) (s : State P Q) (silent : Finset Nat) (u : State P Q × Clients) :
    Prop where
  reachable : (program P wq).Reachable u.1
  calm : Calm u.1.server
  accepted : u.1.server.accepted = s.server.accepted
  ends : ∀ k < s.server.accepted, k ∉ silent → Ends u.1.server u.2 k

/-- What is done is a step of the pool. -/
theorem step_of_quietStep {a : Action P} (hstep : quietStep wq u a = some u') : step wq u.1 a = some u'.1 := by
  cases a with
  | accept | acceptFails | fputsFails => cases hstep
  | main | take | worker =>
    obtain ⟨s', hs', rfl⟩ := Option.map_eq_some_iff.mp hstep
    exact hs'
  | read w r =>
    simp only [quietStep] at hstep
    split at hstep
    · cases hstep
    · simp only [Option.bind_eq_bind, Option.bind_eq_some_iff] at hstep
      obtain ⟨clients, -, s', hs', he⟩ := hstep
      cases he
      exact hs'

theorem QuietFrom.step {silent : Finset Nat} (h : QuietFrom wq s silent u) {a : Action P}
    (hstep : quietStep wq u a = some u') : QuietFrom wq s silent u' ∧ QuietStep wq u u' := by
  have hquiet := quietStep_cases h.reachable h.calm hstep
  obtain ⟨hcalm, haccepted, hends⟩ := hquiet.keeps h.calm
  exact ⟨⟨h.reachable.step (step_of_quietStep hstep), hcalm, haccepted.trans h.accepted,
    fun k hk hspeaks => hends k (h.ends k hk hspeaks)⟩, hquiet⟩

/-- **All but the silent clients are served**, if there are fewer of these than
workers. -/
theorem terminates {silent : Finset Nat} (hwq : wq.Holds capacity waiting) (hP : silent.card < P)
    (hcapacity : 0 < capacity) (hreach : (program P wq).Reachable s) (hcalm : Calm s.server) {clients : Clients}
    (hends : ∀ k < s.server.accepted, k ∉ silent → Ends s.server clients k) :
    (quiet wq s clients).Terminates (5 * P + 6 * capacity + 7 + clients.left s.server.accepted)
      (Served silent s) := by
  have hkeeps (u : State P Q × Clients) (a : Action P) (u' : State P Q × Clients) (h : QuietFrom wq s silent u)
      (hstep : (quiet wq s clients).step u a = some u') : QuietFrom wq s silent u' := (h.step hstep).1
  have hfalls (u : State P Q × Clients) (a : Action P) (u' : State P Q × Clients) (h : QuietFrom wq s silent u)
      (hstep : (quiet wq s clients).step u a = some u') :
      u'.1.stepsLeft waiting + u'.2.left u'.1.server.accepted <
        u.1.stepsLeft waiting + u.2.left u.1.server.accepted :=
    stepsLeft_quietStep hwq (server_invariant h.reachable) (h.step hstep).2
  refine .of_measure ⟨hreach, hcalm, rfl, hends⟩ hkeeps hfalls
    (Nat.add_le_add_right (stepsLeft_le (invariant hwq hreach)) _) ?_
  intro u h hstuck
  obtain ⟨-, hmain, hserved⟩ := served_of_stuck hwq hP hcapacity h.reachable h.calm (h.accepted.symm ▸ h.ends) hstuck
  exact ⟨h.accepted, hmain, h.accepted ▸ hserved⟩

/-- **The pool answers what it has accepted.**  From any state that a run has reached
without a failed call, once no connection is made and nothing more is sent, if every
client has closed or has sent a newline last, any run of `main` and the workers can be
continued until every connection has been answered and closed, and it has at most
`5 * P + 6 * capacity + 7` steps by then, and one for each byte that was unread. -/
theorem pool_drains (hwq : wq.Holds capacity waiting) (hP : 0 < P) (hcapacity : 0 < capacity)
    (hreach : (program P wq).Reachable s) (hcalm : Calm s.server) {clients : Clients}
    (hends : ∀ k < s.server.accepted, Ends s.server clients k) {as : List (Action P)} {u : State P Q × Clients}
    (hrun : (quiet wq s clients).run (s, clients) as = some u) :
    ∃ as' u', (quiet wq s clients).run u as' = some u' ∧ u'.1.server.accepted = s.server.accepted ∧
      u'.1.server.main = .accept ∧ (∀ k < s.server.accepted, (u'.1.server.connection k).AnsweredAndClosed) ∧
      as.length + as'.length ≤ 5 * P + 6 * capacity + 7 + clients.left s.server.accepted := by
  have hterminates : (quiet wq s clients).Terminates _ (Served ∅ s) :=
    terminates hwq hP hcapacity hreach hcalm fun k hk _ => hends k hk
  obtain ⟨as', u', hrest, ⟨haccepted, hmain, hserved⟩, hle⟩ := hterminates.finishes hrun
  exact ⟨as', u', hrest, haccepted, hmain, fun k hk => hserved k hk (Finset.notMem_empty k), hle⟩

/-- The first client has sent a line and waits for the answer, the second one has
closed. -/
def lineAndEnd : Clients where
  unread k := if k = 0 then [ch 'h', ch 'i', ch '\n'] else []
  closed k := k = 1

/-- A part of the line has been read, and the second connection is in the queue. -/
theorem pool_drains_two : ∃ s u, (program 10 (WorkQueue.fifo 10)).Reachable s ∧ s.server.accepted = 2 ∧
    (quiet (WorkQueue.fifo 10) s lineAndEnd).run (s, lineAndEnd)
      [.take 3, .worker 3, .read 3 (.bytes [ch 'h', ch 'i']), .main] = some u ∧
    ∃ as' u', (quiet (WorkQueue.fifo 10) s lineAndEnd).run u as' = some u' ∧
      u'.1.server.accepted = s.server.accepted ∧ u'.1.server.main = .accept ∧
      (∀ k < s.server.accepted, (u'.1.server.connection k).AnsweredAndClosed) ∧
      4 + as'.length ≤ 5 * 10 + 6 * 10 + 7 + lineAndEnd.left s.server.accepted := by
  have hrun : ((program 10 (WorkQueue.fifo 10)).run (initial 10 (WorkQueue.fifo 10))
      [.accept 4 0, .main, .accept 5 1]).isSome := rfl
  obtain ⟨s, hs⟩ := Option.isSome_iff_exists.mp hrun
  have hstate : s.server.accepted = 2 ∧ s.server.died = none ∧ s.server.main = .pthreadCreate 1 ∧
      s.server.created = 1 ∧ (s.server.handler 0).pc = .loadArg := by
    cases hs
    exact ⟨rfl, rfl, rfl, rfl, rfl⟩
  obtain ⟨haccepted, hdied, hmain, hcreated, hhandler⟩ := hstate
  have hcalm : Calm s.server := by
    refine ⟨hdied, hmain ▸ ThreadedServer.MainPc.noConfusion, fun h hh fd call => ?_⟩
    obtain rfl : h = 0 := by omega
    rw [hhandler]
    exact HandlerPc.noConfusion
  have hends : ∀ k < s.server.accepted, Ends s.server lineAndEnd k := by
    intro k hk
    rw [haccepted] at hk
    obtain rfl | rfl : k = 0 ∨ k = 1 := by omega
    · exact .inr (.inr rfl)
    · exact .inr (.inl rfl)
  have hquiet : ((quiet (WorkQueue.fifo 10) s lineAndEnd).run (s, lineAndEnd)
      [.take 3, .worker 3, .read 3 (.bytes [ch 'h', ch 'i']), .main]).isSome := by
    cases hs
    decide +kernel
  obtain ⟨u, hu⟩ := Option.isSome_iff_exists.mp hquiet
  exact ⟨s, u, ⟨_, hs⟩, haccepted, hu,
    pool_drains (WorkQueue.holds_fifo 10) (by decide) (by decide) ⟨_, hs⟩ hcalm hends hu⟩

end ThreadPoolServer
end SystemsCourse
