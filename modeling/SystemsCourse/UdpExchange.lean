import SystemsCourse.DatagramChannel
import SystemsCourse.PrintPointer
import SystemsCourse.TcpSession
import SystemsCourse.ThreadTally

/-!
# `udpclient.c` and `udpserver.c`

`C` clients send their names to the one server, each in one datagram, wait for a
datagram and print it; the server numbers what it receives, prints it, and answers to
the address that it came from with the number and the time of the day.  Datagrams are
lost and overtake each other, and are copied if the network does that.

The client stores no terminator behind what it receives, so what it prints goes on with
what `recvline` held before: the bytes `stack`, up to a zero.

A `sendto` or `recvfrom` can fail.  `err_n_die` then prints to the standard output, like
everything else; only the server's `recvfrom` is left, which stores a zero in front of
`recvline` before its result is looked at.

What a run can print is known (`UdpExchangeOutputs`); here is the half that holds in
every state (`Exchanged`): the numbers are the places in the order in which the server
has received the datagrams.
-/
namespace SystemsCourse
namespace UdpExchange
open MessageFraming (maxLine)
open TcpSession (Ctime)

/-- `SERVER_PORT`. -/
def serverPort : Nat := 34003

/-- The largest `int`. -/
def intMax : Nat := 2 ^ 31 - 1

/-- The most that a datagram carries; `sendto` fails for more. -/
def maxDatagram : Nat := 65507

/-- A client: its arguments, and what its `recvline` holds when it starts. -/
structure Client where
  host : CString
  name : CString
  stack : List Byte
  fits : name.length ≤ maxDatagram
  length_stack : stack.length = maxLine + 1

/-! ## Texts -/

/-- What the client prints in front of `sendto`. -/
def sending (c : Client) : List Byte :=
  text "Sending text \"" ++ c.name.bytes ++ text "\" to " ++ c.host.bytes ++ text ", port " ++
    decimal serverPort ++ text "\n"

/-- `"(%d)Thanks. Recved at (%.24s)\r\n"`: it fits into `buff` (`length_reply`), and
`strlen` finds its end (`noNul_reply`). -/
def reply (recvCount : Nat) (t : Ctime) : List Byte :=
  text "(" ++ decimal recvCount ++ text ")Thanks. Recved at (" ++ t.bytes ++ text ")\r\n"

/-- What a failed call leaves in `errno`, and what `strerror` says about it. -/
structure Errno where
  number : Nat
  set : number ≠ 0
  le : number ≤ intMax
  strerror : CString

/-- What `err_n_die` prints after a failed call. -/
def errNDie (fmt : List Byte) (errnoSave : Errno) : List Byte :=
  fmt ++ text "\n" ++ (text "(errno = " ++ decimal errnoSave.number ++ text ") : " ++
    errnoSave.strerror.bytes ++ text "\n" ++ text "\n")

/-! ## The parties -/

/-- Where a client is: in front of `printf`, of `sendto`, of `recvfrom`, or at an end. -/
inductive ClientPc where
  | start
  | send
  | receive
  | exited (printed : List Byte)
  | sendFailed (errno : Errno)
  | receiveFailed (errno : Errno)

/-- Where the server is in its loop; from `respond` on with the address of the client. -/
inductive ServerPc (C : Nat) where
  | receive
  | respond (fromAddress : Fin C)
  | failed (fromAddress : Fin C) (errno : Errno)

/-- The clients, the server with its variables, and the datagrams. -/
structure State (C : Nat) (copies : Bool) where
  client : Fin C → ClientPc
  server : ServerPc C
  requests : DatagramChannel copies (Fin C × List Byte)
  replies : Fin C → DatagramChannel copies (List Byte)
  recvline : CharArray
  recvCount : Nat
  /-- What the server has printed. -/
  stdout : List Byte

/-- Who goes on: a client to its `sendto`, or a party with its `sendto` or `recvfrom`,
which fails or not.  The number is that of the datagram which is delivered, and `t` the
time of the day. -/
inductive Action (C : Nat) where
  | print (i : Fin C)
  | client (i : Fin C) (call : Except Errno Nat)
  | server (call : Except Errno Nat) (t : Ctime)

/-! ## The code -/

/-- What is printed of a datagram that the client has received. -/
def Client.show (c : Client) (bs : List Byte) : Option (List Byte) := do
  let recvline ← CharArray.receive (c.stack.map some) (bs.take maxLine)
  recvline.stringAt 0

section Steps
variable {C : Nat} {copies : Bool} (s : State C copies)

/-- Client `i` moves on. -/
def State.goto (i : Fin C) (pc : ClientPc) : State C copies :=
  { s with client := Function.update s.client i pc }

/-- Client `i` sends its name. -/
def State.request (c : Client) (i : Fin C) : State C copies :=
  { s.goto i .receive with requests := s.requests.send (i, c.name.bytes) }

/-- Client `i` prints what it is going to send. -/
def printStep (i : Fin C) : Option (State C copies) :=
  match s.client i with
  | .start => some (s.goto i .send)
  | _ => none

/-- A call of client `i`. -/
def clientStep (c : Client) (i : Fin C) (call : Except Errno Nat) : Option (State C copies) :=
  match s.client i, call with
  | .send, .error errno => some (s.goto i (.sendFailed errno))
  | .send, .ok _ => some (s.request c i)
  | .receive, .error errno => some (s.goto i (.receiveFailed errno))
  | .receive, .ok k => do
      let (bs, replies) ← (s.replies i).receive k
      let recvline ← c.show bs
      return { s.goto i (.exited (sending c ++ recvline ++ text "\n")) with
        replies := Function.update s.replies i replies }
  | _, _ => none

/-- The server has received a datagram, and prints `line`. -/
def State.arrive (fromAddress : Fin C) (requests : DatagramChannel copies (Fin C × List Byte))
    (recvline : CharArray) (line : List Byte) : State C copies :=
  { s with
    server := .respond fromAddress
    requests
    recvline
    recvCount := s.recvCount + 1
    stdout := s.stdout ++ (line ++ text "\n") }

/-- The server answers client `i`. -/
def State.answer (i : Fin C) (t : Ctime) : State C copies :=
  { s with
    server := .receive
    replies := Function.update s.replies i ((s.replies i).send (reply s.recvCount t)) }

/-- The server cannot answer client `i`. -/
def State.die (i : Fin C) (errno : Errno) : State C copies :=
  { s with
    server := .failed i errno
    stdout := s.stdout ++ errNDie (text "sendto error") errno }

/-- A call of the server, and what it does up to the next one.  After an error of
`recvfrom` it stores in front of `recvline`, and a number beyond `intMax` overflows. -/
def serverStep (call : Except Errno Nat) (t : Ctime) : Option (State C copies) :=
  match s.server, call with
  | .receive, .error _ => none
  | .receive, .ok k => do
      let ((fromAddress, bs), requests) ← s.requests.receive k
      let received := bs.take maxLine
      let recvline ← s.recvline.receive received
      if s.recvCount < intMax then
        let recvline ← recvline.store received.length 0
        let line ← recvline.stringAt 0
        return s.arrive fromAddress requests recvline line
      else none
  | .respond i, .error errno => some (s.die i errno)
  | .respond i, .ok _ => some (s.answer i t)
  | .failed _ _, _ => none

/-- A step of anybody. -/
def step (clients : Fin C → Client) : Action C → Option (State C copies)
  | .print i => printStep s i
  | .client i call => clientStep s (clients i) i call
  | .server call t => serverStep s call t

end Steps

/-- Nothing has been sent. -/
def initial (C : Nat) (copies : Bool) : State C copies where
  client _ := .start
  server := .receive
  requests := .new
  replies _ := .new
  recvline := .uninitialized (maxLine + 1)
  recvCount := 0
  stdout := []

/-- **The clients and the server.** -/
def program {C : Nat} (clients : Fin C → Client) (copies : Bool) :
    StepSystem (State C copies) (Action C) :=
  ⟨initial C copies, fun s => step s clients⟩

/-! ## Replies -/

theorem length_decimal_le {n : Nat} (h : n ≤ intMax) : (decimal n).length ≤ 10 := by
  rw [decimal, List.length_map, Nat.length_toDigits_le_iff (by decide) (by decide)]
  exact Nat.lt_of_le_of_lt h (by decide)

theorem length_reply (n : Nat) (t : Ctime) : (reply n t).length = (decimal n).length + 48 := by
  have hopen : (text "(").length = 1 := by decide
  have hmiddle : (text ")Thanks. Recved at (").length = 20 := by decide
  have hclose : (text ")\r\n").length = 3 := by decide
  simp only [reply, List.length_append, t.length_eq, hopen, hmiddle, hclose]
  omega

theorem noNul_reply (n : Nat) (t : Ctime) : 0 ∉ reply n t := by
  have hdecimal : (0 : Byte) ∉ decimal n := fun h =>
    absurd (isdigit_of_mem_decimal h) (by decide)
  refine List.not_mem_append (List.not_mem_append (List.not_mem_append ?_ ?_) t.nonzero) (by decide)
  · exact List.not_mem_append (by decide) hdecimal
  · decide

/-- **A reply shows its number.** -/
theorem reply_number {m n : Nat} {t u : Ctime} {rest rest' : List Byte}
    (h : reply m t ++ rest = reply n u ++ rest') : m = n := by
  have hclose (n : Nat) : ch ')' ∉ decimal n := fun h =>
    absurd (isdigit_of_mem_decimal h) (by decide)
  have hsplit (n : Nat) (t : Ctime) (rest : List Byte) :
      reply n t ++ rest = ch '(' :: (decimal n ++
        ch ')' :: (text "Thanks. Recved at (" ++ t.bytes ++ text ")\r\n" ++ rest)) := by
    simp [reply, text]
  rw [hsplit, hsplit, List.cons_inj_right] at h
  exact decimal_injective (split_at_first (hclose m) (hclose n) h).1

/-! ## What a client prints -/

/-- What is printed when the datagram `bs` has been received: the bytes behind it, up
to a zero, belong to the string. -/
def printedOf (c : Client) (bs : List Byte) : List Byte :=
  sending c ++ (bs ++ (c.stack.drop bs.length).takeWhile (· ≠ 0)) ++ text "\n"

/-- The string that `recvline` holds then has an end. -/
def Terminated (c : Client) (bs : List Byte) : Prop := 0 ∈ c.stack.drop bs.length

/-- **The terminator is missing**: a datagram is printed with what stands behind it. -/
theorem show_eq_some_iff {c : Client} {bs line : List Byte} (hlen : bs.length ≤ maxLine)
    (hnul : 0 ∉ bs) : c.show bs = some line ↔
      Terminated c bs ∧ bs ++ (c.stack.drop bs.length).takeWhile (· ≠ 0) = line := by
  have hroom : bs.length ≤ (c.stack.map some).length := by
    rw [List.length_map, c.length_stack]
    exact Nat.le_succ_of_le hlen
  have hnonzero : ∀ b ∈ bs, decide (b ≠ 0) = true := fun b hb =>
    decide_eq_true fun h => hnul (h ▸ hb)
  have hmem : 0 ∈ bs ++ c.stack.drop bs.length ↔ Terminated c bs := by
    rw [List.mem_append, Terminated]
    exact or_iff_right hnul
  rw [Client.show, List.take_of_length_le hlen, CharArray.receive_eq_some hroom,
    Option.bind_eq_bind, Option.bind_some, CharArray.stringAt, List.drop_zero, ← List.map_drop,
    ← List.map_append, CharArray.scanString_map_some, List.takeWhile_append_of_pos hnonzero]
  by_cases hterminated : Terminated c bs
  · rw [if_pos (hmem.mpr hterminated), Option.some_inj]
    exact (and_iff_right hterminated).symm
  · rw [if_neg (mt hmem.mp hterminated)]
    exact ⟨fun h => (Option.some_ne_none _ h.symm).elim, fun h => absurd h.1 hterminated⟩

/-! ## What a step does -/

section Cases
variable {C : Nat} {copies : Bool} {s s' : State C copies} {i : Fin C} {call : Except Errno Nat}

/-- The steps of client `i`, by what it does. -/
inductive ClientStep (c : Client) (s : State C copies) (i : Fin C) : State C copies → Prop where
  | print (pc : s.client i = .start) : ClientStep c s i (s.goto i .send)
  | send (pc : s.client i = .send) : ClientStep c s i (s.request c i)
  | sendFails {errno : Errno} (pc : s.client i = .send) :
      ClientStep c s i (s.goto i (.sendFailed errno))
  | receive {k : Nat} {bs line : List Byte} {replies : DatagramChannel copies (List Byte)}
      (pc : s.client i = .receive) (receives : (s.replies i).Receives k bs replies)
      (shows : c.show bs = some line) :
      ClientStep c s i { s.goto i (.exited (sending c ++ line ++ text "\n")) with
        replies := Function.update s.replies i replies }
  | receiveFails {errno : Errno} (pc : s.client i = .receive) :
      ClientStep c s i (s.goto i (.receiveFailed errno))

theorem printStep_cases (c : Client) (h : printStep s i = some s') : ClientStep c s i s' := by
  unfold printStep at h
  split at h
  · rename_i hpc
    cases h
    exact .print hpc
  · cases h

theorem clientStep_cases {c : Client} (h : clientStep s c i call = some s') :
    ClientStep c s i s' := by
  unfold clientStep at h
  split at h
  · rename_i hpc
    cases h
    exact .sendFails hpc
  · rename_i hpc
    cases h
    exact .send hpc
  · rename_i hpc
    cases h
    exact .receiveFails hpc
  · rename_i hpc
    simp only [Option.bind_eq_bind, Option.bind_eq_some_iff] at h
    obtain ⟨⟨bs, replies⟩, hreceive, line, hshow, h⟩ := h
    cases h
    exact .receive hpc (DatagramChannel.receive_cases hreceive) hshow
  · cases h

/-- The steps of the server, by what it does. -/
inductive ServerStep (s : State C copies) : State C copies → Prop where
  | receive {k : Nat} {fromAddress : Fin C} {bs : List Byte}
      {requests : DatagramChannel copies (Fin C × List Byte)} (pc : s.server = .receive)
      (receives : s.requests.Receives k (fromAddress, bs) requests) (room : s.recvCount < intMax) :
      ServerStep s (s.arrive fromAddress requests (s.recvline.terminated (bs.take maxLine))
        ((bs.take maxLine).takeWhile (· ≠ 0)))
  | respondFails {i : Fin C} {errno : Errno} (pc : s.server = .respond i) :
      ServerStep s (s.die i errno)
  | respond {i : Fin C} {t : Ctime} (pc : s.server = .respond i) : ServerStep s (s.answer i t)

theorem serverStep_cases {t : Ctime} (hsized : s.recvline.length = maxLine + 1)
    (h : serverStep s call t = some s') : ServerStep s s' := by
  unfold serverStep at h
  split at h
  · cases h
  · rename_i hpc
    simp only [Option.bind_eq_bind, Option.bind_eq_some_iff] at h
    obtain ⟨⟨⟨i, bs⟩, requests⟩, hreceive, recvline, hrecvline, h⟩ := h
    have hlen : (bs.take maxLine).length < s.recvline.length := by
      rw [hsized]
      exact Nat.lt_succ_of_le (List.length_take_le _ _)
    rw [CharArray.receive_eq_some (Nat.le_of_lt hlen)] at hrecvline
    cases hrecvline
    split_ifs at h with hroom
    rw [CharArray.store_received hlen, Option.bind_some, CharArray.stringAt_terminated (Nat.zero_le _),
      Option.bind_some, List.drop_zero] at h
    cases h
    exact .receive hpc (DatagramChannel.receive_cases hreceive) hroom
  · rename_i hpc
    cases h
    exact .respondFails hpc
  · rename_i hpc
    cases h
    exact .respond hpc
  · cases h

end Cases

/-! ## What holds in every state -/

/-- The client has sent its name. -/
def ClientPc.sent : ClientPc → Prop
  | .start | .send | .sendFailed _ => False
  | .receive | .exited _ | .receiveFailed _ => True

/-- The client that the server has not answered, or could not answer. -/
def ServerPc.unanswered {C : Nat} : ServerPc C → List (Fin C)
  | .receive => []
  | .respond i | .failed i _ => [i]

/-- What the server has printed at its end. -/
def ServerPc.lastWords {C : Nat} : ServerPc C → List Byte
  | .receive | .respond _ => []
  | .failed _ errno => errNDie (text "sendto error") errno

/-- What the server prints of the datagram of a client. -/
def logged (c : Client) : List Byte := c.name.bytes.take maxLine ++ text "\n"

/-- `bs` answers client `i`: its number is the place of a datagram of `i` among those which
the server has answered. -/
def Answers {C : Nat} (served : List (Fin C)) (i : Fin C) (bs : List Byte) : Prop :=
  ∃ n t, served[n]? = some i ∧ bs = reply (n + 1) t

section Invariant
variable {C : Nat} {copies : Bool} {clients : Fin C → Client} {s s' : State C copies} {i j : Fin C}
  {served : List (Fin C)}

/-- The clients from which the server has received datagrams, in order. -/
def State.askers (s : State C copies) : List (Fin C) := s.requests.arrivals.map Prod.fst

/-- **The exchange is in order**; the server has answered the clients in `served`. -/
structure Exchanged (clients : Fin C → Client) (served : List (Fin C)) (s : State C copies) :
    Prop where
  sized : s.recvline.length = maxLine + 1
  askers : s.askers = served ++ s.server.unanswered
  count : s.recvCount = s.askers.length
  bound : s.recvCount ≤ intMax
  log : s.stdout = (s.askers.flatMap fun i => logged (clients i)) ++ s.server.lastWords
  requests : ∀ i bs, (i, bs) ∈ s.requests.sent → bs = (clients i).name.bytes
  sent : ∀ i, i ∈ s.requests.sent.map Prod.fst ↔ (s.client i).sent
  single : (s.requests.sent.map Prod.fst).Nodup
  replies : ∀ i bs, bs ∈ (s.replies i).sent → Answers served i bs
  printed : ∀ i printed, s.client i = .exited printed → ∃ bs, Answers served i bs ∧
    Terminated (clients i) bs ∧ printed = printedOf (clients i) bs

theorem exchanged_initial : Exchanged clients [] (initial C copies) where
  sized := CharArray.length_uninitialized _
  askers := rfl
  count := rfl
  bound := Nat.zero_le _
  log := rfl
  requests _ _ h := (List.not_mem_nil h).elim
  sent _ := iff_of_false List.not_mem_nil id
  single := List.nodup_nil
  replies _ _ h := (List.not_mem_nil h).elim
  printed _ _ h := (ClientPc.noConfusion h : False).elim

/-- What has been answered stays answered. -/
theorem Answers.mono {bs : List Byte} (h : Answers served i bs) (rest : List (Fin C)) :
    Answers (served ++ rest) i bs := by
  obtain ⟨n, t, hn, hbs⟩ := h
  obtain ⟨hlt, -⟩ := List.getElem?_eq_some_iff.mp hn
  exact ⟨n, t, by rw [List.getElem?_append_left hlt, hn], hbs⟩

/-- An answer fits into `recvline`, and there is no zero in it. -/
theorem Exchanged.receivable (h : Exchanged clients served s) {bs : List Byte}
    (hanswers : Answers served i bs) : bs.length ≤ maxLine ∧ 0 ∉ bs := by
  obtain ⟨n, t, hn, rfl⟩ := hanswers
  obtain ⟨hlt, -⟩ := List.getElem?_eq_some_iff.mp hn
  have hcount : served.length ≤ s.recvCount := by
    rw [h.count, h.askers, List.length_append]
    exact Nat.le_add_right _ _
  have hlen := length_decimal_le (Nat.le_trans (Nat.succ_le_of_lt hlt) (Nat.le_trans hcount h.bound))
  refine ⟨?_, noNul_reply _ _⟩
  rw [length_reply]
  exact Nat.le_trans (Nat.add_le_add_right hlen 48) (by decide)

/-- The server receives from clients that have sent. -/
theorem Exchanged.sent_of_mem (h : Exchanged clients served s) (hi : i ∈ s.askers) :
    (s.client i).sent := by
  obtain ⟨⟨j, bs⟩, hmem, rfl⟩ := List.mem_map.mp hi
  have hsent := DatagramChannel.mem_sent_of_mem_arrivals hmem
  exact (h.sent j).mp (List.mem_map_of_mem hsent)

/-! ### A client goes on -/

/-- A client that goes on without sending its name. -/
theorem sent_goto {pc : ClientPc} (hpc : (s.client i).sent ↔ pc.sent) (j : Fin C) :
    (s.client j).sent ↔ ((s.goto i pc).client j).sent := by
  show _ ↔ (Function.update s.client i pc j).sent
  by_cases hj : j = i
  · subst hj
    rwa [Function.update_self]
  · rw [Function.update_of_ne hj]

/-- A client goes on without a datagram. -/
theorem Exchanged.goto (h : Exchanged clients served s) {pc : ClientPc}
    (hpc : (s.client i).sent ↔ pc.sent) (hexited : ∀ printed, pc ≠ .exited printed) :
    Exchanged clients served (s.goto i pc) := by
  refine { h with sent := fun j => ?_, printed := fun j printed hj => ?_ }
  · exact (h.sent j).trans (sent_goto hpc j)
  · rcases update_cases hj with ⟨-, hend⟩ | ⟨-, hj⟩
    · exact absurd hend (hexited printed)
    · exact h.printed j printed hj

/-- A client sends its name. -/
theorem Exchanged.request (h : Exchanged clients served s) (pc : s.client i = .send) :
    Exchanged clients served (s.request (clients i) i) := by
  have hsame : (s.request (clients i) i).askers = s.askers :=
    congrArg (List.map Prod.fst) DatagramChannel.arrivals_send
  have hsent : (s.request (clients i) i).requests.sent.map Prod.fst
      = s.requests.sent.map Prod.fst ++ [i] := List.map_append
  -- client `i` has not sent before
  have hfresh : i ∉ s.requests.sent.map Prod.fst := by
    rw [h.sent i, pc]
    exact id
  refine ⟨h.sized, hsame.trans h.askers, hsame ▸ h.count, h.bound, hsame ▸ h.log,
    fun j bs hj => ?_, fun j => ?_, ?_, h.replies, fun j printed hj => ?_⟩
  · rcases List.mem_append.mp hj with hj | hj
    · exact h.requests j bs hj
    · cases List.mem_singleton.mp hj
      rfl
  · rw [hsent, List.mem_append, List.mem_singleton, h.sent j]
    show _ ↔ (Function.update s.client i .receive j).sent
    by_cases hj : j = i
    · rw [hj, Function.update_self]
      exact iff_of_true (.inr rfl) trivial
    · rw [Function.update_of_ne hj]
      exact or_iff_left hj
  · rw [hsent]
    exact h.single.append (List.nodup_singleton _) (List.disjoint_singleton.mpr hfresh)
  · rcases update_cases hj with ⟨-, hpc⟩ | ⟨-, hj⟩
    · cases hpc
    · exact h.printed j printed hj

/-- A client receives an answer, and prints it. -/
theorem Exchanged.receive (h : Exchanged clients served s) (pc : s.client i = .receive) {k : Nat}
    {bs line : List Byte} {replies : DatagramChannel copies (List Byte)}
    (receives : (s.replies i).Receives k bs replies) (shows : (clients i).show bs = some line) :
    Exchanged clients served
      { s.goto i (.exited (sending (clients i) ++ line ++ text "\n")) with
        replies := Function.update s.replies i replies } := by
  have hanswers := h.replies i bs (List.mem_of_getElem? receives.datagram)
  obtain ⟨hlen, hnul⟩ := h.receivable hanswers
  obtain ⟨hterminated, rfl⟩ := (show_eq_some_iff hlen hnul).mp shows
  refine { h with sent := fun j => ?_, replies := fun j bs' hj => ?_, printed := ?_ }
  · exact (h.sent j).trans (sent_goto (by rw [pc]; exact Iff.rfl) j)
  · have hsent : (Function.update s.replies i replies j).sent = (s.replies j).sent := by
      by_cases hji : j = i
      · rw [hji, Function.update_self, receives.sent]
      · rw [Function.update_of_ne hji]
    exact h.replies j bs' (hsent ▸ hj)
  · intro j printed hj
    rcases update_cases hj with ⟨rfl, hpc⟩ | ⟨-, hj⟩
    · cases hpc
      exact ⟨bs, hanswers, hterminated, rfl⟩
    · exact h.printed j printed hj

theorem Exchanged.clientStep (h : Exchanged clients served s)
    (hstep : ClientStep (clients i) s i s') : Exchanged clients served s' := by
  cases hstep with
  | print pc => exact h.goto (by rw [pc]; exact Iff.rfl) fun _ hpc => by cases hpc
  | send pc => exact h.request pc
  | sendFails pc => exact h.goto (by rw [pc]; exact Iff.rfl) fun _ hpc => by cases hpc
  | receive pc receives shows => exact h.receive pc receives shows
  | receiveFails pc => exact h.goto (by rw [pc]; exact Iff.rfl) fun _ hpc => by cases hpc

/-! ### The server goes on -/

/-- What the server prints of the name of a client. -/
theorem takeWhile_name (c : Client) :
    (c.name.bytes.take maxLine).takeWhile (· ≠ 0) = c.name.bytes.take maxLine := by
  refine List.takeWhile_eq_self_iff.mpr fun b hb => decide_eq_true ?_
  exact fun h => c.name.noNul (h ▸ List.mem_of_mem_take hb)

/-- A datagram has arrived. -/
theorem Exchanged.arrive (h : Exchanged clients served s) (pc : s.server = .receive) {k : Nat}
    {bs : List Byte} {requests : DatagramChannel copies (Fin C × List Byte)}
    (receives : s.requests.Receives k (i, bs) requests) (room : s.recvCount < intMax) :
    Exchanged clients served (s.arrive i requests (s.recvline.terminated (bs.take maxLine))
      ((bs.take maxLine).takeWhile (· ≠ 0))) := by
  obtain rfl := h.requests i bs (List.mem_of_getElem? receives.datagram)
  generalize hrecvline : s.recvline.terminated ((clients i).name.bytes.take maxLine) = recvline
  have hserved : s.askers = served := by
    rw [h.askers, pc]
    exact List.append_nil _
  have haskers : (s.arrive i requests recvline
      (((clients i).name.bytes.take maxLine).takeWhile (· ≠ 0))).askers = s.askers ++ [i] := by
    show requests.arrivals.map Prod.fst = _
    rw [receives.arrivals, List.map_append]
    rfl
  refine ⟨?_, ?_, ?_, room, ?_, fun j bs hj => ?_, fun j => ?_, ?_, h.replies, h.printed⟩
  · have hlen : ((clients i).name.bytes.take maxLine).length < s.recvline.length := by
      rw [h.sized]
      exact Nat.lt_succ_of_le (List.length_take_le _ _)
    exact hrecvline ▸ (CharArray.length_terminated hlen).trans h.sized
  · rw [haskers, hserved]
    rfl
  · rw [haskers, List.length_append, ← h.count]
    rfl
  · show s.stdout ++ (_ ++ text "\n") = _
    rw [haskers, List.flatMap_append, List.flatMap_singleton, h.log, pc, takeWhile_name]
    simp only [ServerPc.lastWords, State.arrive, logged, List.append_nil]
  · exact h.requests j bs (receives.sent ▸ hj)
  · exact congrArg (List.map Prod.fst) receives.sent ▸ h.sent j
  · exact congrArg (List.map Prod.fst) receives.sent ▸ h.single

/-- An answer cannot be sent. -/
theorem Exchanged.die (h : Exchanged clients served s) (pc : s.server = .respond i)
    (errno : Errno) : Exchanged clients served (s.die i errno) := by
  refine { h with askers := ?_, log := ?_ }
  · have haskers := h.askers
    rw [pc] at haskers
    exact haskers
  · show s.stdout ++ _ = _
    rw [h.log, pc, ServerPc.lastWords, List.append_nil]
    rfl

/-- An answer is sent. -/
theorem Exchanged.answer (h : Exchanged clients served s) (pc : s.server = .respond i) (t : Ctime) :
    Exchanged clients (served ++ [i]) (s.answer i t) := by
  have haskers : s.askers = served ++ [i] := by rw [h.askers, pc, ServerPc.unanswered]
  have hcount : s.recvCount = served.length + 1 := by
    rw [h.count, haskers, List.length_append, List.length_singleton]
  refine { h with askers := ?_, log := ?_, replies := fun j bs hj => ?_, printed := ?_ }
  · exact haskers.trans (List.append_nil _).symm
  · have hlog := h.log
    rw [pc] at hlog
    exact hlog
  · by_cases hji : j = i
    · subst hji
      have hsent : ((s.answer j t).replies j).sent
          = (s.replies j).sent ++ [reply s.recvCount t] := by
        show (Function.update s.replies j _ j).sent = _
        rw [Function.update_self]
        rfl
      rw [hsent] at hj
      rcases List.mem_append.mp hj with hj | hj
      · exact (h.replies j bs hj).mono [j]
      · refine ⟨served.length, t, List.getElem?_concat_length, ?_⟩
        rw [List.mem_singleton.mp hj, hcount]
    · have hsame : (s.answer i t).replies j = s.replies j := Function.update_of_ne hji _ _
      exact (h.replies j bs (hsame ▸ hj)).mono [i]
  · intro j printed hj
    obtain ⟨bs, hanswers, hprinted⟩ := h.printed j printed hj
    exact ⟨bs, hanswers.mono [i], hprinted⟩

/-- The exchange is in order, whoever has been answered. -/
def InOrder (clients : Fin C → Client) (s : State C copies) : Prop :=
  ∃ served, Exchanged clients served s

theorem Exchanged.serverStep (h : Exchanged clients served s) (hstep : ServerStep s s') :
    InOrder clients s' := by
  cases hstep with
  | receive pc receives room => exact ⟨served, h.arrive pc receives room⟩
  | respondFails pc => exact ⟨served, h.die pc _⟩
  | respond pc => exact ⟨_, h.answer pc _⟩

theorem inOrder (h : (program clients copies).Reachable s) : InOrder clients s := by
  refine h.invariant ⟨[], exchanged_initial⟩ fun s a s' hs hstep => ?_
  obtain ⟨served, hs⟩ := hs
  cases a with
  | print i => exact ⟨served, hs.clientStep (printStep_cases (clients i) hstep)⟩
  | client i call => exact ⟨served, hs.clientStep (clientStep_cases hstep)⟩
  | server call t => exact hs.serverStep (serverStep_cases hs.sized hstep)

end Invariant

end UdpExchange
end SystemsCourse
