import Mathlib.Logic.Function.Basic
import SystemsCourse.MessageFraming
import SystemsCourse.StepSystem

/-!
# `threadedsvr.c`: a thread for each connection

The accept loop hands each connection to a thread of its own, through a cell of the
heap that holds the descriptor: it is allocated and filled by the loop, and read and
released by the thread.  `accept` may return any descriptor that is not open, and
`malloc` any cell that is not allocated; a descriptor that has been closed is used
again.  A pass of the read loop, a call and a release are one step each; the accept
with the filling of the cell is one step, as nobody else sees the cell.  Calls other
than `accept`, `read` and the `fputs` of what has been read succeed.

Connections are numbered in the order in which they are accepted, and threads in the
order in which they are created.  `err_n_die` ends the process, whoever calls it.
-/
namespace SystemsCourse
namespace ThreadedServer
open MessageFraming

/-- The calls of `handle_connection` whose failure ends the process. -/
inductive FailedCall where
  | fputs
  | read
deriving DecidableEq

/-- What `err_n_die` is then called with. -/
def FailedCall.fmt : FailedCall → String
  | .fputs => "fputs error"
  | .read => "read error"

/-- Where a thread is in `connection_func`; inside `handle_connection` with the
descriptor that it has read from its argument. -/
inductive HandlerPc where
  | loadArg
  | read (fd : Nat) (st : Reading)
  | errNDie (fd : Nat) (call : FailedCall)
  | write (fd : Nat)
  | close (fd : Nat)
  | free
  | returned

/-- A thread, and the cell that is its argument. -/
structure Handler where
  arg : Nat
  pc : HandlerPc

/-- Where `main` is in its loop. -/
inductive MainPc where
  | accept
  | pthreadCreate (argptr : Nat)
  | errNDie

/-- What a descriptor refers to: a connection, or a standard stream or the listening
socket. -/
inductive File where
  | other
  | connection (k : Nat)

/-- What has been done with a connection: how often a response has been written and
how often it has been closed, and whether a read has failed. -/
structure Connection where
  written : Nat
  closed : Nat
  failed : Bool

/-- A connection that has been accepted. -/
def Connection.new : Connection := ⟨0, 0, false⟩

/-- The process. -/
structure State where
  /-- The argument of `err_n_die`, once the process has exited. -/
  died : Option String
  main : MainPc
  file : Nat → Option File
  cell : Nat → Option Nat
  accepted : Nat
  created : Nat
  handler : Nat → Handler
  connection : Nat → Connection

/-- `errno`, as far as the accept loop distinguishes it. -/
inductive Errno where
  | eproto
  | econnaborted
  | other
deriving DecidableEq

/-- What can happen next. -/
inductive Action where
  | accept (fd argptr : Nat)
  | acceptFails (errno : Errno)
  | main
  | read (h : Nat) (r : ReadResult)
  | fputsFails (h : Nat) (bs : List Byte)
  | handler (h : Nat)

/-- The action is one of thread `h`. -/
def Action.IsOf (h : Nat) : Action → Prop
  | .read h' _ | .fputsFails h' _ | .handler h' => h' = h
  | .accept _ _ | .acceptFails _ | .main => False

section Steps
variable (s : State)

/-- Thread `h` moves on. -/
def State.goto (h : Nat) (pc : HandlerPc) : State :=
  { s with handler := Function.update s.handler h { s.handler h with pc := pc } }

/-- Something is done with the connection that the descriptor refers to, if it refers
to one. -/
def State.onConnection (fd : Nat) (f : Connection → Connection) : State :=
  match s.file fd with
  | some (.connection k) => { s with connection := Function.update s.connection k (f (s.connection k)) }
  | _ => s

/-- `write` of the response. -/
def State.write (fd : Nat) : State := s.onConnection fd fun c => { c with written := c.written + 1 }

/-- `close`. -/
def State.close (fd : Nat) : State :=
  { s.onConnection fd fun c => { c with closed := c.closed + 1 } with
    file := Function.update s.file fd none }

/-- A `read` that returns −1. -/
def State.readFails (fd : Nat) : State := s.onConnection fd fun c => { c with failed := true }

/-- `accept` returns `fd`, `malloc` returns `argptr`, and `*argptr = connfd`. -/
def acceptStep (fd argptr : Nat) : Option State :=
  match s.main, s.file fd, s.cell argptr with
  | .accept, none, none => some { s with
      main := .pthreadCreate argptr
      file := Function.update s.file fd (some (.connection s.accepted))
      cell := Function.update s.cell argptr (some fd)
      accepted := s.accepted + 1
      connection := Function.update s.connection s.accepted .new }
  | _, _, _ => none

/-- `accept` fails. -/
def acceptFailsStep (errno : Errno) : Option State :=
  match s.main with
  | .accept =>
      if errno = .eproto ∨ errno = .econnaborted then some s else some { s with main := .errNDie }
  | _ => none

/-- A step of `main` other than `accept`. -/
def mainStep : Option State :=
  match s.main with
  | .accept => none
  | .pthreadCreate argptr => some { s with
      main := .accept
      created := s.created + 1
      handler := Function.update s.handler s.created ⟨argptr, .loadArg⟩ }
  | .errNDie => some { s with died := some "fatal error." }

/-- A pass of the read loop in thread `h`, in which `read` returns `r`. -/
def readStep (h : Nat) (r : ReadResult) : Option State :=
  match (s.handler h).pc with
  | .read fd st =>
      match readPass st r with
      | none => none
      | some (.again st) => some (s.goto h (.read fd st))
      | some (.done (_, negative)) =>
          if negative then some ((s.readFails fd).goto h (.errNDie fd .read)) else some (s.goto h (.write fd))
  | _ => none

/-- A pass of the read loop in thread `h`, in which `read` returns `bs` and `fputs`
fails. -/
def fputsFailsStep (h : Nat) (bs : List Byte) : Option State :=
  match (s.handler h).pc with
  | .read fd st =>
      if bs = [] then none else (readPass st (.bytes bs)).map fun _ => s.goto h (.errNDie fd .fputs)
  | _ => none

/-- A step of thread `h` outside the read loop.  To read or to release a cell that is
not allocated is undefined. -/
def handlerStep (h : Nat) : Option State :=
  match (s.handler h).pc with
  | .loadArg =>
      match s.cell (s.handler h).arg with
      | some fd => some (s.goto h (.read fd .start))
      | none => none
  | .read _ _ => none
  | .errNDie _ call => some { s with died := some call.fmt }
  | .write fd => some ((s.write fd).goto h (.close fd))
  | .close fd => some ((s.close fd).goto h .free)
  | .free =>
      match s.cell (s.handler h).arg with
      | some _ => some ({ s with cell := Function.update s.cell (s.handler h).arg none }.goto h .returned)
      | none => none
  | .returned => none

/-- A step of the process; after `exit` there are none. -/
def step (a : Action) : Option State :=
  if s.died.isSome then none
  else
    match a with
    | .accept fd argptr => acceptStep s fd argptr
    | .acceptFails errno => acceptFailsStep s errno
    | .main => mainStep s
    | .read h r => if h < s.created then readStep s h r else none
    | .fputsFails h bs => if h < s.created then fputsFailsStep s h bs else none
    | .handler h => if h < s.created then handlerStep s h else none

end Steps

/-- The server listens; nothing has been accepted. -/
def initial : State where
  died := none
  main := .accept
  file fd := if fd < 4 then some .other else none
  cell _ := none
  accepted := 0
  created := 0
  handler _ := ⟨0, .returned⟩
  connection _ := .new

/-- **The server.** -/
def program : StepSystem State Action := ⟨initial, step⟩

/-! ## What a step does -/

section Cases
variable {s s' : State} {h : Nat}

/-- The steps of `main`, by what it does. -/
inductive MainStep (s : State) : State → Prop where
  | accept {fd argptr : Nat} (pc : s.main = .accept) (closed : s.file fd = none)
      (unallocated : s.cell argptr = none) :
      MainStep s { s with
        main := .pthreadCreate argptr
        file := Function.update s.file fd (some (.connection s.accepted))
        cell := Function.update s.cell argptr (some fd)
        accepted := s.accepted + 1
        connection := Function.update s.connection s.accepted .new }
  | again (pc : s.main = .accept) : MainStep s s
  | fatal (pc : s.main = .accept) : MainStep s { s with main := .errNDie }
  | pthreadCreate {argptr : Nat} (pc : s.main = .pthreadCreate argptr) :
      MainStep s { s with
        main := .accept
        created := s.created + 1
        handler := Function.update s.handler s.created ⟨argptr, .loadArg⟩ }
  | errNDie (pc : s.main = .errNDie) : MainStep s { s with died := some "fatal error." }

theorem acceptStep_cases {fd argptr : Nat} (hstep : acceptStep s fd argptr = some s') : MainStep s s' := by
  unfold acceptStep at hstep
  split at hstep
  · rename_i hmain hfile hcell
    cases hstep
    exact .accept hmain hfile hcell
  · cases hstep

theorem acceptFailsStep_cases {errno : Errno} (hstep : acceptFailsStep s errno = some s') :
    MainStep s s' := by
  unfold acceptFailsStep at hstep
  split at hstep
  · rename_i hmain
    split_ifs at hstep <;> cases hstep
    · exact .again hmain
    · exact .fatal hmain
  · cases hstep

theorem mainStep_cases (hstep : mainStep s = some s') : MainStep s s' := by
  unfold mainStep at hstep
  split at hstep
  · cases hstep
  · rename_i argptr hmain
    cases hstep
    exact .pthreadCreate hmain
  · rename_i hmain
    cases hstep
    exact .errNDie hmain

/-- The steps of thread `h`, by what it does. -/
inductive HandlerStep (s : State) (h : Nat) : State → Prop where
  | loadArg {fd : Nat} (pc : (s.handler h).pc = .loadArg) (cell : s.cell (s.handler h).arg = some fd) :
      HandlerStep s h (s.goto h (.read fd .start))
  | again {fd : Nat} {st st' : Reading} {r : ReadResult} (pc : (s.handler h).pc = .read fd st)
      (pass : readPass st r = some (.again st')) : HandlerStep s h (s.goto h (.read fd st'))
  | readFails {fd : Nat} {st : Reading} (pc : (s.handler h).pc = .read fd st) :
      HandlerStep s h ((s.readFails fd).goto h (.errNDie fd .read))
  | fputsFails {fd : Nat} {st : Reading} (pc : (s.handler h).pc = .read fd st) :
      HandlerStep s h (s.goto h (.errNDie fd .fputs))
  | readEnds {fd : Nat} {st : Reading} (pc : (s.handler h).pc = .read fd st) :
      HandlerStep s h (s.goto h (.write fd))
  | errNDie {fd : Nat} {call : FailedCall} (pc : (s.handler h).pc = .errNDie fd call) :
      HandlerStep s h { s with died := some call.fmt }
  | write {fd : Nat} (pc : (s.handler h).pc = .write fd) :
      HandlerStep s h ((s.write fd).goto h (.close fd))
  | close {fd : Nat} (pc : (s.handler h).pc = .close fd) : HandlerStep s h ((s.close fd).goto h .free)
  | free {fd : Nat} (pc : (s.handler h).pc = .free) (cell : s.cell (s.handler h).arg = some fd) :
      HandlerStep s h ({ s with cell := Function.update s.cell (s.handler h).arg none }.goto h .returned)

theorem readStep_cases {r : ReadResult} (hstep : readStep s h r = some s') : HandlerStep s h s' := by
  unfold readStep at hstep
  split at hstep
  · rename_i fd st hpc
    split at hstep
    · cases hstep
    · rename_i st' hpass
      cases hstep
      exact .again hpc hpass
    · split_ifs at hstep <;> cases hstep
      · exact .readFails hpc
      · exact .readEnds hpc
  · cases hstep

theorem fputsFailsStep_cases {bs : List Byte} (hstep : fputsFailsStep s h bs = some s') : HandlerStep s h s' := by
  unfold fputsFailsStep at hstep
  split at hstep
  · rename_i fd st hpc
    split_ifs at hstep
    obtain ⟨_, -, rfl⟩ := Option.map_eq_some_iff.mp hstep
    exact .fputsFails hpc
  · cases hstep

theorem handlerStep_cases (hstep : handlerStep s h = some s') : HandlerStep s h s' := by
  unfold handlerStep at hstep
  split at hstep
  · rename_i hpc
    split at hstep
    · rename_i fd hcell
      cases hstep
      exact .loadArg hpc hcell
    · cases hstep
  · cases hstep
  · rename_i fd call hpc
    cases hstep
    exact .errNDie hpc
  · rename_i fd hpc
    cases hstep
    exact .write hpc
  · rename_i fd hpc
    cases hstep
    exact .close hpc
  · rename_i hpc
    split at hstep
    · rename_i fd hcell
      cases hstep
      exact .free hpc hcell
    · cases hstep
  · cases hstep

/-- The steps of the process, which are taken before it exits (`died_of_step`). -/
inductive Step (s : State) : State → Prop where
  | main {s' : State} (step : MainStep s s') : Step s s'
  | handler {h : Nat} {s' : State} (created : h < s.created) (step : HandlerStep s h s') : Step s s'

theorem died_of_step {a : Action} (hstep : step s a = some s') : s.died = none := by
  by_contra hdied
  unfold step at hstep
  rw [if_pos (Option.isSome_iff_ne_none.mpr hdied)] at hstep
  cases hstep

/-- A step of a thread. -/
theorem handlerStep_of_own {a : Action} (hstep : step s a = some s') (hown : a.IsOf h) :
    h < s.created ∧ HandlerStep s h s' := by
  unfold step at hstep
  split_ifs at hstep
  cases a with
  | read h' r =>
    obtain rfl : h' = h := hown
    simp only [Option.ite_none_right_eq_some] at hstep
    exact ⟨hstep.1, readStep_cases hstep.2⟩
  | fputsFails h' bs =>
    obtain rfl : h' = h := hown
    simp only [Option.ite_none_right_eq_some] at hstep
    exact ⟨hstep.1, fputsFailsStep_cases hstep.2⟩
  | handler h' =>
    obtain rfl : h' = h := hown
    simp only [Option.ite_none_right_eq_some] at hstep
    exact ⟨hstep.1, handlerStep_cases hstep.2⟩
  | accept | acceptFails | main => exact hown.elim

theorem step_cases {a : Action} (hstep : step s a = some s') : Step s s' := by
  have hthread {h : Nat} (hown : a.IsOf h) : Step s s' :=
    .handler (handlerStep_of_own hstep hown).1 (handlerStep_of_own hstep hown).2
  have hdied := died_of_step hstep
  simp only [step, hdied, Option.isSome_none, Bool.false_eq_true, if_false] at hstep
  cases a with
  | accept fd argptr => exact .main (acceptStep_cases hstep)
  | acceptFails errno => exact .main (acceptFailsStep_cases hstep)
  | main => exact .main (mainStep_cases hstep)
  | read | fputsFails | handler => exact hthread rfl

end Cases

end ThreadedServer
end SystemsCourse
