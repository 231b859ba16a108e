import SystemsCourse.ByteStream
import SystemsCourse.MessageFraming
import SystemsCourse.PipelinePrint
import SystemsCourse.StepSystem

/-!
# `tcpclient.c` and `tcpserver.c`

`C` clients, each started with a name, and the one server that they connect to.  A
client sends one line, `"<name> says Hi!\n"`, and prints what comes back until the
server closes; the server takes the connections one after the other, in the order in
which they have been made, says `Hello`, prints what it reads up to the end of the
message, thanks with the time of the day and closes.

The steps are the calls: `connect`, `accept`, each `write`, each pass of a read loop,
`close`, and the `printf` in front of `accept`.  How many bytes a `read` returns is up
to the network.  Calls succeed, and a `write` takes all that it is given.
-/
namespace SystemsCourse
namespace TcpSession
open MessageFraming

/-! ## Texts -/

/-- What `sprintf` writes into `sendline`: it must fit with its terminator. -/
def greeting (name : CString) : List Byte := name.bytes ++ text " says Hi!\n"

/-- What `"%.24s"` takes of the string that `ctime` returns. -/
structure Ctime where
  bytes : List Byte
  length_eq : bytes.length = 24
  nonzero : 0 ∉ bytes

/-- `snprintf(buff, sizeof(buff), "Hello")`. -/
def hello : List Byte := text "Hello"

/-- `snprintf(buff, sizeof(buff), "Thanks. Recved at (%.24s)\r\n", ctime(&ticks))`. -/
def thanks (t : Ctime) : List Byte := text "Thanks. Recved at (" ++ t.bytes ++ text ")\r\n"

/-- What the server prints in front of `accept` and behind it. -/
def waiting : List Byte := text "waiting for a connection..."
def gotOne : List Byte := text "got one! \n"

/-! ## The parties -/

/-- Where a client is; in its read loop with the variables of the loop, and at the end
with what it has printed. -/
inductive ClientPc where
  | connect
  | write
  | read (st : Reading)
  | exited (printed : List Byte)

/-- Where the server is in its loop, and which connection `connfd` is. -/
inductive ServerPc (C : Nat) where
  | announce
  | accept
  | hello (k : Fin C)
  | read (k : Fin C) (st : Reading)
  | respond (k : Fin C)
  | close (k : Fin C)

/-- The two directions of a connection. -/
structure Connection where
  toServer : ByteStream Byte
  toClient : ByteStream Byte

/-- The clients, the server, and the connections between them. -/
structure State (C : Nat) where
  client : Fin C → ClientPc
  server : ServerPc C
  connection : Fin C → Connection
  /-- The connections that wait to be accepted. -/
  backlog : List (Fin C)
  /-- The array of the server, which outlives a connection. -/
  recvline : CharArray
  /-- What the server has printed, up to its present read loop. -/
  stdout : List Byte
  /-- The connections that have been accepted, in order. -/
  accepted : List (Fin C)

/-- Who takes a step; `n` is what the network delivers, `t` the time of the day. -/
inductive Action (C : Nat) where
  | client (i : Fin C) (n : Nat)
  | server (n : Nat) (t : Ctime)

/-! ## The code -/

/-- One pass of the client's read loop, in which `read` returns `bs`. -/
def clientPass (st : Reading) (bs : List Byte) : Option (Prog.LoopStep Reading Reading) := do
  if bs.length = 0 then return .done st
  let recvline ← st.recvline.receive bs
  let recvline ← recvline.store bs.length 0
  let printed ← recvline.stringAt 0
  return .again ⟨recvline, st.position + bs.length, st.printed ++ printed⟩

section Steps
variable {C : Nat} (s : State C)

/-- Client `i` moves on. -/
def State.goto (i : Fin C) (pc : ClientPc) : State C := { s with client := Function.update s.client i pc }

/-- Something happens to connection `k`. -/
def State.setConnection (k : Fin C) (c : Connection) : State C :=
  { s with connection := Function.update s.connection k c }

/-- A step of client `i`, started with `name`. -/
def clientStep (name : CString) (i : Fin C) (n : Nat) : Option (State C) :=
  match s.client i with
  | .connect => some { s.goto i .write with backlog := s.backlog ++ [i] }
  | .write =>
      if (greeting name).length ≤ maxLine then
        some ((s.setConnection i { s.connection i with
          toServer := (s.connection i).toServer.send (greeting name) }).goto i (.read .start))
      else none
  | .read st => do
      let (bs, toClient) ← (s.connection i).toClient.recv maxLine n
      match ← clientPass st bs with
      | .again st => return (s.setConnection i { s.connection i with toClient }).goto i (.read st)
      | .done st =>
          -- `exit` closes the socket
          let toServer := (s.connection i).toServer.close
          return (s.setConnection i ⟨toServer, toClient⟩).goto i (.exited st.printed)
  | .exited _ => none

/-- A step of the server. -/
def serverStep (n : Nat) (t : Ctime) : Option (State C) :=
  match s.server with
  | .announce => some { s with server := .accept, stdout := s.stdout ++ waiting }
  | .accept =>
      match s.backlog with
      | [] => none
      | k :: backlog => some { s with
          server := .hello k
          backlog := backlog
          stdout := s.stdout ++ gotOne
          accepted := s.accepted ++ [k] }
  | .hello k => some { s.setConnection k { s.connection k with
      toClient := (s.connection k).toClient.send hello } with
        server := .read k ⟨s.recvline, 0, []⟩ }
  | .read k st => do
      let (bs, toServer) ← (s.connection k).toServer.recv maxLine n
      let s := s.setConnection k { s.connection k with toServer }
      match ← readPass st (.bytes bs) with
      | .again st => return { s with server := .read k st }
      | .done (st, _) => return { s with
          server := .respond k
          recvline := st.recvline
          stdout := s.stdout ++ st.printed }
  | .respond k => some { s.setConnection k { s.connection k with
      toClient := (s.connection k).toClient.send (thanks t) } with server := .close k }
  | .close k => some { s.setConnection k { s.connection k with
      toClient := (s.connection k).toClient.close } with server := .announce }

/-- A step of anybody. -/
def step (name : Fin C → CString) : Action C → Option (State C)
  | .client i n => clientStep s (name i) i n
  | .server n t => serverStep s n t

end Steps

/-- The server listens; no client has connected. -/
def initial (C : Nat) : State C where
  client _ := .connect
  server := .announce
  connection _ := ⟨.new, .new⟩
  backlog := []
  recvline := .uninitialized (maxLine + 1)
  stdout := []
  accepted := []

/-- **The clients and the server.** -/
def program {C : Nat} (name : Fin C → CString) : StepSystem (State C) (Action C) :=
  ⟨initial C, fun s => step s name⟩

/-! ## What a step does -/

section Cases
variable {C : Nat} {s s' : State C}

theorem clientPass_bytes {st : Reading} {bs : List Byte} (hst : st.recvline.length = maxLine + 1)
    (h : Readable bs) : clientPass st bs = some (.again (st.after bs)) := by
  have hlen : bs.length < st.recvline.length := by
    rw [hst]
    exact Nat.lt_succ_of_le h.2
  simp only [clientPass, if_neg (Nat.ne_of_gt h.1), CharArray.receive_eq_some (Nat.le_of_lt hlen),
    Option.bind_eq_bind, Option.bind_some, CharArray.store_received hlen,
    CharArray.stringAt_terminated (Nat.zero_le _), List.drop_zero, Option.pure_def]
  rfl

/-- The array of a read loop has its length. -/
def Sized (st : Reading) : Prop := st.recvline.length = maxLine + 1

/-- The steps of client `i`, by what it does. -/
inductive ClientStep (name : CString) (s : State C) (i : Fin C) : State C → Prop where
  | connect (pc : s.client i = .connect) :
      ClientStep name s i { s.goto i .write with backlog := s.backlog ++ [i] }
  | write (pc : s.client i = .write) :
      ClientStep name s i ((s.setConnection i { s.connection i with
        toServer := (s.connection i).toServer.send (greeting name) }).goto i (.read .start))
  | read {st : Reading} {bs : List Byte} {toClient : ByteStream Byte} (pc : s.client i = .read st)
      (delivers : (s.connection i).toClient.Delivers maxLine bs toClient) :
      ClientStep name s i
        ((s.setConnection i { s.connection i with toClient }).goto i (.read (st.after bs)))
  | exit {st : Reading} (pc : s.client i = .read st)
      (all : (s.connection i).toClient.received = (s.connection i).toClient.sent.length)
      (closed : (s.connection i).toClient.closed = true) :
      ClientStep name s i ((s.setConnection i
        ⟨(s.connection i).toServer.close, (s.connection i).toClient⟩).goto i (.exited st.printed))

theorem clientStep_cases {name : CString} {i : Fin C} {n : Nat}
    (hsized : ∀ st, s.client i = .read st → Sized st) (h : clientStep s name i n = some s') :
    ClientStep name s i s' := by
  unfold clientStep at h
  cases hpc : s.client i with
  | connect =>
    simp only [hpc, Option.some.injEq] at h
    exact h ▸ .connect hpc
  | write =>
    simp only [hpc] at h
    split_ifs at h
    cases h
    exact .write hpc
  | exited printed => simp [hpc] at h
  | read st =>
    simp only [hpc, Option.bind_eq_bind, Option.bind_eq_some_iff] at h
    obtain ⟨⟨bs, toClient⟩, hrecv, out, hpass, h⟩ := h
    cases ByteStream.recv_cases hrecv with
    | bytes delivers =>
      rw [clientPass_bytes (hsized st hpc) ⟨delivers.nonempty, delivers.fits⟩] at hpass
      cases hpass
      cases h
      exact .read hpc delivers
    | ended all closed =>
      cases hpass
      cases h
      exact .exit hpc all closed

/-- The steps of the server, by what it does. -/
inductive ServerStep (s : State C) : State C → Prop where
  | announce (pc : s.server = .announce) :
      ServerStep s { s with server := .accept, stdout := s.stdout ++ waiting }
  | accept {k : Fin C} {backlog : List (Fin C)} (pc : s.server = .accept)
      (pending : s.backlog = k :: backlog) :
      ServerStep s { s with
        server := .hello k
        backlog := backlog
        stdout := s.stdout ++ gotOne
        accepted := s.accepted ++ [k] }
  | hello {k : Fin C} (pc : s.server = .hello k) :
      ServerStep s { s.setConnection k { s.connection k with
        toClient := (s.connection k).toClient.send hello } with
          server := .read k ⟨s.recvline, 0, []⟩ }
  | read {k : Fin C} {st : Reading} {bs : List Byte} {toServer : ByteStream Byte}
      (pc : s.server = .read k st) (delivers : (s.connection k).toServer.Delivers maxLine bs toServer)
      (more : bs.getLast? ≠ some (ch '\n')) :
      ServerStep s { s.setConnection k { s.connection k with toServer } with
        server := .read k (st.after bs) }
  | message {k : Fin C} {st : Reading} {bs : List Byte} {toServer : ByteStream Byte}
      (pc : s.server = .read k st) (delivers : (s.connection k).toServer.Delivers maxLine bs toServer)
      (last : bs.getLast? = some (ch '\n')) :
      ServerStep s { s.setConnection k { s.connection k with toServer } with
        server := .respond k
        recvline := (st.after bs).recvline
        stdout := s.stdout ++ (st.after bs).printed }
  | ended {k : Fin C} {st : Reading} (pc : s.server = .read k st)
      (all : (s.connection k).toServer.received = (s.connection k).toServer.sent.length)
      (closed : (s.connection k).toServer.closed = true) :
      ServerStep s { s.setConnection k (s.connection k) with
        server := .respond k
        recvline := st.recvline
        stdout := s.stdout ++ st.printed }
  | respond {k : Fin C} (t : Ctime) (pc : s.server = .respond k) :
      ServerStep s { s.setConnection k { s.connection k with
        toClient := (s.connection k).toClient.send (thanks t) } with server := .close k }
  | close {k : Fin C} (pc : s.server = .close k) :
      ServerStep s { s.setConnection k { s.connection k with
        toClient := (s.connection k).toClient.close } with server := .announce }

theorem serverStep_cases {n : Nat} {t : Ctime} (hsized : ∀ k st, s.server = .read k st → Sized st)
    (h : serverStep s n t = some s') : ServerStep s s' := by
  unfold serverStep at h
  cases hpc : s.server with
  | announce =>
    simp only [hpc, Option.some.injEq] at h
    exact h ▸ .announce hpc
  | accept =>
    simp only [hpc] at h
    cases hbacklog : s.backlog with
    | nil => simp [hbacklog] at h
    | cons k backlog =>
      simp only [hbacklog, Option.some.injEq] at h
      exact h ▸ .accept hpc hbacklog
  | hello k =>
    simp only [hpc, Option.some.injEq] at h
    exact h ▸ .hello hpc
  | read k st =>
    simp only [hpc, Option.bind_eq_bind, Option.bind_eq_some_iff] at h
    obtain ⟨⟨bs, toServer⟩, hrecv, out, hpass, h⟩ := h
    cases ByteStream.recv_cases hrecv with
    | bytes delivers =>
      rw [readPass_bytes (hsized k st hpc) ⟨delivers.nonempty, delivers.fits⟩] at hpass
      by_cases hlast : bs.getLast? = some (ch '\n')
      · rw [if_pos hlast] at hpass
        cases hpass
        cases h
        exact .message hpc delivers hlast
      · rw [if_neg hlast] at hpass
        cases hpass
        cases h
        exact .read hpc delivers hlast
    | ended all closed =>
      cases hpass
      cases h
      exact .ended hpc all closed
  | respond k =>
    simp only [hpc, Option.some.injEq] at h
    exact h ▸ .respond t hpc
  | close k =>
    simp only [hpc, Option.some.injEq] at h
    exact h ▸ .close hpc

end Cases
end TcpSession
end SystemsCourse
