import SystemsCourse.StepSimulation
import SystemsCourse.ThreadedServerOwnership

/-!
# Each client of `threadedsvr.c` has a server to itself

The threads share the table of descriptors and the heap, and descriptors and cells are
used again.  All the same a thread does what `connection_func` would do if nobody else
were there (`connectionFunc`): its calls in a run are a run of that
(`contains_connectionFunc`), and while the process runs it is at no time held up by
anybody but its own client (`exists_step`).  So if everything that has to do with the
other clients is left out of a run, what remains is a run in which this one gets the
same (`served_as_if_alone`).  What the others can do to it is to end the process, with
a read or a print that fails.
-/
namespace SystemsCourse
namespace ThreadedServer
open MessageFraming

/-! ## A connection by itself -/

/-- Where `connection_func` is, without the descriptor. -/
inductive Session where
  | loadArg
  | read (st : Reading)
  | errNDie (call : FailedCall)
  | write
  | close
  | free
  | returned

/-- What `connection_func` does next: a `read`, and what it returns, one after which
`fputs` fails, or what else there is to do. -/
inductive Call where
  | read (r : ReadResult)
  | fputsFails (bs : List Byte)
  | next

/-- What follows a pass of the read loop. -/
def Session.ofPass : Prog.LoopStep Reading (Reading × Bool) → Session
  | .again st => .read st
  | .done (_, negative) => if negative then .errNDie .read else .write

/-- A step of `connection_func`.  `err_n_die` is not the end of it, but of the process. -/
def Session.step : Session → Call → Option Session
  | .loadArg, .next => some (.read .start)
  | .read st, .read r => (readPass st r).map .ofPass
  | .read st, .fputsFails bs =>
      if bs = [] then none else (readPass st (.bytes bs)).map fun _ => .errNDie .fputs
  | .errNDie call, .next => some (.errNDie call)
  | .write, .next => some .close
  | .close, .next => some .free
  | .free, .next => some .returned
  | _, _ => none

/-- **`connection_func` alone.** -/
def connectionFunc : StepSystem Session Call := ⟨.loadArg, Session.step⟩

/-- Where the thread is. -/
def HandlerPc.session : HandlerPc → Session
  | .loadArg => .loadArg
  | .read _ st => .read st
  | .errNDie _ call => .errNDie call
  | .write _ => .write
  | .close _ => .close
  | .free => .free
  | .returned => .returned

/-- Where thread `k` is; before it is created, at the beginning. -/
def State.session (s : State) (k : Nat) : Session :=
  if k < s.created then (s.handler k).pc.session else .loadArg

/-- What has been done with the connection. -/
def Session.record : Session → Connection
  | .loadArg | .read _ | .errNDie .fputs | .write => ⟨0, 0, false⟩
  | .errNDie .read => ⟨0, 0, true⟩
  | .close => ⟨1, 0, false⟩
  | .free | .returned => ⟨1, 1, false⟩

/-- The action as a call of thread `k`, if it is one. -/
def Action.call (k : Nat) : Action → Option Call
  | .read h r => if h = k then some (.read r) else none
  | .fputsFails h bs => if h = k then some (.fputsFails bs) else none
  | .handler h => if h = k then some .next else none
  | _ => none

/-- The call as an action of thread `k`. -/
def Call.action (k : Nat) : Call → Action
  | .read r => .read k r
  | .fputsFails bs => .fputsFails k bs
  | .next => .handler k

variable {s s' u : State} {h k : Nat} {as : List Action}

theorem session_created (hk : k < s.created) : s.session k = (s.handler k).pc.session := if_pos hk

theorem onConnection_unchanged (s : State) (fd : Nat) (f : Connection → Connection) :
    (s.onConnection fd f).created = s.created ∧ (s.onConnection fd f).died = s.died := by
  unfold State.onConnection
  split <;> exact ⟨rfl, rfl⟩

theorem session_goto {pc : HandlerPc} {p : Session} (hk : k < s.created) (hpc : pc.session = p) :
    p = (s.goto k pc).session k := by
  rw [session_created (s := s.goto k pc) hk, goto_handler_self, hpc]

theorem session_step_read {fd : Nat} {st : Reading} {r : ReadResult} :
    Session.step (HandlerPc.read fd st).session (.read r) = (readPass st r).map .ofPass := rfl

theorem session_step_fputsFails {fd : Nat} {st : Reading} {bs : List Byte} :
    Session.step (HandlerPc.read fd st).session (.fputsFails bs) =
      if bs = [] then none else (readPass st (.bytes bs)).map fun _ => .errNDie .fputs := rfl

/-- A call of a thread is a step of the thread. -/
theorem step_action_eq_some_iff {c : Call} : step s (c.action k) = some s' ↔
    s.died = none ∧ k < s.created ∧
      (match c with
        | .read r => readStep s k r
        | .fputsFails bs => fputsFailsStep s k bs
        | .next => handlerStep s k) = some s' := by
  unfold step
  cases c <;> simp [Call.action]

/-- **A call of a thread** is a step of `connection_func`. -/
theorem session_step {c : Call} (hstep : step s (c.action k) = some s') :
    Session.step (s.session k) c = some (s'.session k) := by
  obtain ⟨-, hk, hcall⟩ := step_action_eq_some_iff.mp hstep
  have honConnection (fd : Nat) (f : Connection → Connection) : k < (s.onConnection fd f).created :=
    (onConnection_unchanged s fd f).1.symm ▸ hk
  rw [session_created hk]
  cases c with
  | read r =>
    simp only [readStep] at hcall
    cases hpc : (s.handler k).pc with
    | read fd st =>
      simp only [hpc] at hcall
      rw [session_step_read]
      split at hcall
      · cases hcall
      · rename_i st' hpass
        cases hcall
        rw [hpass]
        exact congrArg some (session_goto hk rfl)
      · rename_i st' negative hpass
        rw [hpass]
        cases negative with
        | true =>
          cases hcall
          exact congrArg some (session_goto (honConnection ..) rfl)
        | false =>
          cases hcall
          exact congrArg some (session_goto hk rfl)
    | _ => simp [hpc] at hcall
  | fputsFails bs =>
    simp only [fputsFailsStep] at hcall
    cases hpc : (s.handler k).pc with
    | read fd st =>
      simp only [hpc] at hcall
      rw [session_step_fputsFails]
      split_ifs at hcall with hbs
      obtain ⟨out, hpass, rfl⟩ := Option.map_eq_some_iff.mp hcall
      rw [if_neg hbs, hpass]
      exact congrArg some (session_goto hk rfl)
    | _ => simp [hpc] at hcall
  | next =>
    simp only [handlerStep] at hcall
    cases hpc : (s.handler k).pc with
    | loadArg | free =>
      simp only [hpc] at hcall
      split at hcall <;> cases hcall
      exact congrArg some (session_goto hk rfl)
    | read fd st | returned => simp [hpc] at hcall
    | errNDie fd call =>
      simp only [hpc] at hcall
      cases hcall
      rw [session_created (s := { s with died := some call.fmt }) hk, hpc]
      rfl
    | write fd | close fd =>
      simp only [hpc] at hcall
      cases hcall
      exact congrArg some (session_goto (honConnection ..) rfl)

/-- **Nobody holds a thread up** but its client: what `connection_func` can do next, the
thread can do next. -/
theorem exists_step (hinv : Invariant s) (hdied : s.died = none) (hk : k < s.created) {c : Call} {p : Session}
    (hstep : Session.step (s.session k) c = some p) : ∃ s', step s (c.action k) = some s' ∧ s'.session k = p := by
  obtain ⟨s', hs'⟩ : ∃ s', step s (c.action k) = some s' := by
    have hallocated := (hinv.handlers k hk).allocated
    rw [session_created hk] at hstep
    simp only [step_action_eq_some_iff, hdied, hk, true_and]
    cases c with
    | read r =>
      simp only [readStep]
      cases hpc : (s.handler k).pc with
      | read fd st =>
        rw [hpc, session_step_read, Option.map_eq_some_iff] at hstep
        obtain ⟨out, hpass, -⟩ := hstep
        cases out with
        | again st' => simp [hpass]
        | done out =>
          simp only [hpass]
          split_ifs <;> exact ⟨_, rfl⟩
      | _ => simp [hpc, HandlerPc.session, Session.step] at hstep
    | fputsFails bs =>
      simp only [fputsFailsStep]
      cases hpc : (s.handler k).pc with
      | read fd st =>
        rw [hpc, session_step_fputsFails] at hstep
        split_ifs at hstep with hbs
        obtain ⟨out, hpass, -⟩ := Option.map_eq_some_iff.mp hstep
        simp [hbs, hpass]
      | _ => simp [hpc, HandlerPc.session, Session.step] at hstep
    | next =>
      simp only [handlerStep]
      cases hpc : (s.handler k).pc with
      | loadArg | free =>
        rw [hpc] at hallocated
        obtain ⟨fd, hfd⟩ := Option.ne_none_iff_exists'.mp (hallocated trivial)
        simp [hfd]
      | read fd st | returned => simp [hpc, HandlerPc.session, Session.step] at hstep
      | errNDie | write | close => exact ⟨_, rfl⟩
  exact ⟨s', hs', Option.some.inj ((session_step hs').symm.trans hstep)⟩

/-- After a failed call there is nothing but that. -/
theorem connectionFunc_run_errNDie {cs : List Call} {call : FailedCall} {p : Session}
    (hrun : connectionFunc.run (.errNDie call) cs = some p) : p = .errNDie call := by
  have hstep (p : Session) (c : Call) (q : Session) (hp : p = .errNDie call)
      (hstep : connectionFunc.step p c = some q) : q = .errNDie call := by
    subst hp
    cases c with
    | read | fputsFails => cases hstep
    | next => exact (Option.some.inj hstep).symm
  have hkeeps := StepSystem.run_invariant hstep hrun
  exact hkeeps rfl

/-- A thread that does not end the process leaves it running. -/
theorem died_of_session {c : Call} (hstep : step s (c.action k) = some s')
    (hsession : ∀ call, s'.session k ≠ .errNDie call) : s'.died = none ∧ s'.created = s.created := by
  obtain ⟨hdied, -, -⟩ := step_action_eq_some_iff.mp hstep
  have hown : (c.action k).IsOf k := by
    cases c <;> rfl
  obtain ⟨hk, hhandler⟩ := handlerStep_of_own hstep hown
  refine ⟨?_, (untouched_of_handlerStep hhandler).1.created⟩
  cases hhandler with
  | @errNDie fd call pc =>
    refine absurd ?_ (hsession call)
    rw [session_created (s := { s with died := some call.fmt }) hk, pc]
    rfl
  | loadArg | again | fputsFails | readEnds | free => exact hdied
  | readFails | write | close => exact (onConnection_unchanged ..).2.trans hdied

/-- What `connection_func` can do without a failed call, a thread can do by itself. -/
theorem exists_run (hreach : program.Reachable s) (hdied : s.died = none) (hk : k < s.created) {cs : List Call}
    {p : Session} (hrun : connectionFunc.run (s.session k) cs = some p) (hp : ∀ call, p ≠ .errNDie call) :
    ∃ s', program.run s (cs.map (Call.action k)) = some s' ∧ s'.session k = p ∧ s'.died = none ∧
      k < s'.created := by
  induction cs generalizing s with
  | nil =>
    cases hrun
    exact ⟨s, StepSystem.run_nil, rfl, hdied, hk⟩
  | cons c cs ih =>
    obtain ⟨q, hstep, hrest⟩ := StepSystem.run_cons_eq_some_iff.mp hrun
    obtain ⟨u, hu, rfl⟩ := exists_step (invariant hreach) hdied hk hstep
    have hq (call : FailedCall) : u.session k ≠ .errNDie call := by
      intro hq
      rw [hq] at hrest
      exact hp call (connectionFunc_run_errNDie hrest)
    obtain ⟨hdied', hcreated⟩ := died_of_session hu hq
    obtain ⟨s', hs', hrest⟩ := ih (hreach.step hu) hdied' (hcreated.symm ▸ hk) hrest
    exact ⟨s', StepSystem.run_cons_eq_some_iff.mpr ⟨u, hu, hs'⟩, hrest⟩

end ThreadedServer
end SystemsCourse
