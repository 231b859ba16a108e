import Mathlib.Algebra.Order.BigOperators.Group.Finset
import SystemsCourse.StepProgress
import SystemsCourse.TcpSessionInvariant

/-!
# Every client of `tcpserver.c` is served

A session of `C` clients comes to rest whatever the schedule and however the network
cuts the streams: a client has a fixed number of calls to make outside its loop, the
server five for each connection, and a pass of a read loop receives at least one byte
of the at most `51` that the server sends, or of the greeting (`stepsLeft_step`).  At
rest no client waits for the server — the server has closed its connection — and the
server does not wait for a client that it has accepted: a greeting that has been
received as a whole has its newline, at which the loop ends
(`Invariant.served_of_stuck`).
-/
namespace SystemsCourse
namespace TcpSession
open MessageFraming

variable {C : Nat} {name : Fin C → CString} {s s' : State C} {i k : Fin C}

/-- **Everybody has been served**: every client has printed the answers of the server
and ended, and the server, which has printed the greetings in the order in which it has
accepted the connections, waits for another one. -/
structure Served (name : Fin C → CString) (s : State C) : Prop where
  clients : ∀ i, ∃ t, s.client i = .exited (hello ++ thanks t)
  accepted : s.accepted.Perm (List.finRange C)
  server : s.server = .accept ∧ s.backlog = []
  stdout : s.stdout = transcript name s.accepted ++ waiting

/-! ## At rest -/

/-- A read loop that cannot go on waits for its stream. -/
theorem recv_waits {c : ByteStream Byte} (h : ∀ n, ¬ (c.recv maxLine n).isSome) :
    c.received = c.sent.length ∧ c.closed = false := by
  have hwaits : ¬ (c.received < c.sent.length ∨ c.closed = true) := by
    intro hready
    have hready : ∃ n, (c.recv maxLine n).isSome := ByteStream.exists_recv (by decide) hready
    obtain ⟨n, hn⟩ := hready
    exact h n hn
  rw [not_or, Bool.not_eq_true] at hwaits
  exact ⟨Nat.le_antisymm c.le (Nat.le_of_not_lt hwaits.1), hwaits.2⟩

/-- A client that cannot take a step waits for the server, or has ended. -/
inductive ClientWaits (s : State C) (i : Fin C) : Prop where
  | read {st : Reading} (pc : s.client i = .read st)
      (stream : (s.connection i).toClient.received = (s.connection i).toClient.sent.length ∧
        (s.connection i).toClient.closed = false)
  | exited {printed : List Byte} (pc : s.client i = .exited printed)

theorem clientStep_eq_none (h : ∀ n, clientStep s (name i) i n = none)
    (hfits : (greeting (name i)).length ≤ maxLine) (hsized : ∀ st, s.client i = .read st → Sized st) :
    ClientWaits s i := by
  cases hpc : s.client i with
  | connect => simpa [clientStep, hpc] using h 0
  | write => simpa [clientStep, hpc, hfits] using h 0
  | exited printed => exact .exited hpc
  | read st =>
    refine .read hpc (recv_waits fun n hn => ?_)
    obtain ⟨⟨bs, toClient⟩, hrecv⟩ := Option.isSome_iff_exists.mp hn
    have hnone := h n
    simp only [clientStep, hpc, hrecv, Option.bind_eq_bind, Option.bind_some] at hnone
    cases ByteStream.recv_cases hrecv with
    | bytes delivers =>
      rw [clientPass_bytes (hsized st hpc) ⟨delivers.nonempty, delivers.fits⟩] at hnone
      simp at hnone
    | ended all closed => simp [clientPass] at hnone

/-- A server that cannot take a step waits for a connection, or for a client. -/
inductive ServerWaits (s : State C) : Prop where
  | accept (pc : s.server = .accept) (none : s.backlog = [])
  | read {k : Fin C} {st : Reading} (pc : s.server = .read k st)
      (stream : (s.connection k).toServer.received = (s.connection k).toServer.sent.length ∧
        (s.connection k).toServer.closed = false)

theorem serverStep_eq_none (h : ∀ n t, serverStep s n t = none) (t : Ctime)
    (hsized : ∀ k st, s.server = .read k st → Sized st) : ServerWaits s := by
  cases hpc : s.server with
  | accept =>
    cases hbacklog : s.backlog with
    | nil => exact .accept hpc hbacklog
    | cons k backlog => simpa [serverStep, hpc, hbacklog] using h 0 t
  | read k st =>
    refine .read hpc (recv_waits fun n hn => ?_)
    obtain ⟨⟨bs, toServer⟩, hrecv⟩ := Option.isSome_iff_exists.mp hn
    have hnone := h n t
    simp only [serverStep, hpc, hrecv, Option.bind_eq_bind, Option.bind_some] at hnone
    cases ByteStream.recv_cases hrecv with
    | bytes delivers =>
      rw [readPass_bytes (hsized k st hpc) ⟨delivers.nonempty, delivers.fits⟩] at hnone
      by_cases hlast : bs.getLast? = some (ch '\n')
      · simp [if_pos hlast] at hnone
      · simp [if_neg hlast] at hnone
    | ended all closed => simp [readPass] at hnone
  | announce | hello k | respond k | close k => simpa [serverStep, hpc] using h 0 t

/-- **A client whose whole greeting has been received is not waited for.** -/
theorem Invariant.not_reading (hline : ∀ i, ch '\n' ∉ (name i).bytes) (h : Invariant name s)
    {st : Reading} (pc : s.server = .read k st)
    (hall : (s.connection k).toServer.received = (s.connection k).toServer.sent.length)
    (hsent : (s.connection k).toServer.sent = greeting (name k)) : False := by
  obtain ⟨-, hprinted, hnewline, -⟩ := h.reading pc
  rw [hall, List.take_length, hsent] at hprinted
  rw [hprinted] at hnewline
  exact hnewline ((mem_newline_iff (hline k) (List.prefix_refl _)).mpr rfl)

/-- Midnight at the beginning of the year 2000. -/
def Ctime.newYear : Ctime := ⟨text "Sat Jan  1 00:00:00 2000", rfl, by decide⟩

/-- **At rest everybody has been served.** -/
theorem Invariant.served_of_stuck (hline : ∀ i, ch '\n' ∉ (name i).bytes)
    (hfits : ∀ i, (greeting (name i)).length ≤ maxLine) (h : Invariant name s)
    (hstuck : (program name).Stuck s) : Served name s := by
  have hclient (i : Fin C) : ClientWaits s i :=
    clientStep_eq_none (fun n => hstuck (.client i n)) (hfits i) h.sized_client
  have hserver : ServerWaits s :=
    serverStep_eq_none (fun n t => hstuck (.server n t)) .newYear h.sized_server
  have hsent (i : Fin C) : (s.connection i).toServer.sent = greeting (name i) := by
    have hholds := h.client i
    cases hclient i with
    | read pc stream =>
      rw [pc] at hholds
      exact hholds.2.1
    | exited pc =>
      rw [pc] at hholds
      exact hholds.1
  cases hserver with
  | read pc stream => exact (h.not_reading hline pc stream.1 (hsent _)).elim
  | accept pc none =>
    have hprinted := h.printed
    rw [pc] at hprinted
    have haccepted (i : Fin C) : i ∈ s.accepted := by
      have hconnected := h.connected i
      rw [none, List.append_nil] at hconnected
      refine of_not_not fun hnot => ?_
      have hpc := hconnected.mpr hnot
      cases hclient i with
      | read pc => simp [hpc] at pc
      | exited pc => simp [hpc] at pc
    have hclosed (i : Fin C) := h.stage i
    simp only [stage_idle (show s.server.stage = Option.none by rw [pc]; rfl), stageApart_of_mem (haccepted _)] at hclosed
    refine ⟨fun i => ?_, ?_, ⟨pc, none⟩, hprinted⟩
    · obtain ⟨-, ⟨t, ht⟩, hend⟩ := hclosed i
      have hholds := h.client i
      cases hclient i with
      | read pc stream => exact absurd (stream.2.symm.trans hend) Bool.false_ne_true
      | @exited printed pc =>
        rw [pc] at hholds
        exact ⟨t, by rw [pc, hholds.2.1, ht]⟩
    · have hnodup := h.nodup
      rw [none, List.append_nil] at hnodup
      exact (List.perm_ext_iff_of_nodup hnodup (List.nodup_finRange C)).mpr fun i =>
        iff_of_true (haccepted i) (List.mem_finRange i)

/-! ## The measure -/

/-- The calls that a client has to make, other than those that receive bytes. -/
def ClientPc.stepsLeft : ClientPc → Nat
  | .connect => 3
  | .write => 2
  | .read _ => 1
  | .exited _ => 0

/-- The calls that the server has to make for the connection that it is at. -/
def ServerPc.stepsLeft : ServerPc C → Nat
  | .accept => 0
  | .announce => 1
  | .close _ => 2
  | .respond _ => 3
  | .read _ _ => 4
  | .hello _ => 5

/-- What the server sends on a connection. -/
def answerLength : Nat := 51

/-- The steps that concern connection `i`, other than the server's calls: the client's
calls, and the bytes that either side may still receive. -/
def State.left (name : Fin C → CString) (s : State C) (i : Fin C) : Nat :=
  (s.client i).stepsLeft + ((greeting (name i)).length - (s.connection i).toServer.received) +
    (answerLength - (s.connection i).toClient.received)

/-- **The measure.** -/
def State.stepsLeft (name : Fin C → CString) (s : State C) : Nat :=
  ∑ i, s.left name i + 6 * (C - s.accepted.length) + s.server.stepsLeft

/-- No more is sent to a client than the answers. -/
theorem Stage.Holds.length_le {g : Stage} {name : CString} {c : Connection} (h : g.Holds name c) :
    c.toClient.sent.length ≤ answerLength := by
  have hthanked (hsent : ∃ t, c.toClient.sent = hello ++ thanks t) :
      c.toClient.sent.length ≤ answerLength := by
    obtain ⟨t, hsent⟩ := hsent
    rw [hsent, List.length_append, length_thanks]
    exact Nat.le_refl 51
  have hhello (hsent : c.toClient.sent = hello) : c.toClient.sent.length ≤ answerLength := by
    rw [hsent]
    decide
  cases g with
  | fresh =>
    rw [h.2.1]
    exact Nat.zero_le _
  | reading st => exact hhello h.2.2.2.1
  | read => exact hhello h.2.1
  | thanked | closed => exact hthanked h.2.1

/-- A client's step lowers what is left of its own connection. -/
theorem stepsLeft_client (hserver : s'.server = s.server ∧ s'.accepted = s.accepted)
    (hother : ∀ j, j ≠ i → s'.client j = s.client j ∧ s'.connection j = s.connection j)
    (hlt : s'.left name i < s.left name i) : s'.stepsLeft name < s.stepsLeft name := by
  have hsum : ∑ j, s'.left name j < ∑ j, s.left name j := by
    refine Finset.sum_lt_sum (fun j _ => ?_) ⟨i, Finset.mem_univ i, hlt⟩
    by_cases hj : j = i
    · subst hj
      exact Nat.le_of_lt hlt
    · unfold State.left
      rw [(hother j hj).1, (hother j hj).2]
  unfold State.stepsLeft
  rw [hserver.1, hserver.2]
  omega

/-- The server's step lowers what it has to do, or what is left of a connection. -/
theorem stepsLeft_server (hleft : ∀ j, s'.left name j ≤ s.left name j)
    (hlt : (∃ k, s'.left name k < s.left name k) ∧ s'.accepted = s.accepted ∧
        s'.server.stepsLeft ≤ s.server.stepsLeft ∨
      6 * (C - s'.accepted.length) + s'.server.stepsLeft < 6 * (C - s.accepted.length) + s.server.stepsLeft) :
    s'.stepsLeft name < s.stepsLeft name := by
  unfold State.stepsLeft
  rcases hlt with ⟨⟨k, hk⟩, haccepted, hserver⟩ | hserver
  · have hsum := Finset.sum_lt_sum (fun j _ => hleft j) ⟨k, Finset.mem_univ k, hk⟩
    rw [haccepted]
    omega
  · have hsum := Finset.sum_le_sum fun j (_ : j ∈ Finset.univ) => hleft j
    omega

theorem stepsLeft_clientStep (h : Invariant name s) (hstep : ClientStep (name i) s i s') :
    s'.stepsLeft name < s.stepsLeft name := by
  have hother (pc : ClientPc) (c : Connection) (j : Fin C) (hj : j ≠ i) :
      Function.update s.client i pc j = s.client j ∧ Function.update s.connection i c j = s.connection j :=
    ⟨Function.update_of_ne hj _ _, Function.update_of_ne hj _ _⟩
  cases hstep with
  | connect pc =>
    refine stepsLeft_client ⟨rfl, rfl⟩ (fun j hj => ⟨Function.update_of_ne hj _ _, rfl⟩) ?_
    simp [State.left, State.goto, pc, ClientPc.stepsLeft]
  | write pc =>
    refine stepsLeft_client ⟨rfl, rfl⟩ (hother _ _) ?_
    simp [State.left, State.goto, State.setConnection, pc, ClientPc.stepsLeft]
  | @read st bs toClient pc delivers =>
    refine stepsLeft_client ⟨rfl, rfl⟩ (hother _ _) ?_
    have hle := (h.stage i).length_le
    have hreceived := toClient.le
    rw [delivers.sent, delivers.received] at hreceived
    have hnonempty := delivers.nonempty
    simp only [State.left, State.goto, State.setConnection, Function.update_self, pc, ClientPc.stepsLeft,
      delivers.received]
    omega
  | exit pc all closed =>
    refine stepsLeft_client ⟨rfl, rfl⟩ (hother _ _) ?_
    simp [State.left, State.goto, State.setConnection, pc, ClientPc.stepsLeft]

/-- What is left of the connections does not change when the server sends or closes. -/
theorem left_setConnection {toClient : ByteStream Byte}
    (hs' : s'.client = s.client ∧
      s'.connection = Function.update s.connection k { s.connection k with toClient })
    (hreceived : toClient.received = (s.connection k).toClient.received) (j : Fin C) :
    s'.left name j = s.left name j := by
  unfold State.left
  rw [hs'.1, hs'.2]
  by_cases hj : j = k
  · subst hj
    rw [Function.update_self, hreceived]
  · rw [Function.update_of_ne hj]

/-- It falls when the server receives. -/
theorem stepsLeft_received (h : Invariant name s) {bs : List Byte} {toServer : ByteStream Byte}
    (delivers : (s.connection k).toServer.Delivers maxLine bs toServer)
    (hs' : s'.client = s.client ∧
      s'.connection = Function.update s.connection k { s.connection k with toServer })
    (haccepted : s'.accepted = s.accepted) (hserver : s'.server.stepsLeft ≤ s.server.stepsLeft) :
    s'.stepsLeft name < s.stepsLeft name := by
  have hlt : s'.left name k < s.left name k := by
    have hle : (s.connection k).toServer.sent.length ≤ (greeting (name k)).length := by
      rcases (h.client k).sent with hsent | hsent
      · rw [hsent]
        exact Nat.zero_le _
      · rw [hsent]
    have hreceived := toServer.le
    rw [delivers.sent, delivers.received] at hreceived
    have hnonempty := delivers.nonempty
    simp only [State.left, hs'.1, hs'.2, Function.update_self, delivers.received]
    omega
  refine stepsLeft_server (fun j => ?_) (.inl ⟨⟨k, hlt⟩, haccepted, hserver⟩)
  by_cases hj : j = k
  · subst hj
    exact Nat.le_of_lt hlt
  · unfold State.left
    rw [hs'.1, hs'.2, Function.update_of_ne hj]

theorem stepsLeft_serverStep (h : Invariant name s) (hstep : ServerStep s s') :
    s'.stepsLeft name < s.stepsLeft name := by
  -- the server comes closer to the next `accept`
  have hcloser {s' : State C} (hleft : ∀ j, s'.left name j = s.left name j)
      (haccepted : s'.accepted = s.accepted) (hlt : s'.server.stepsLeft < s.server.stepsLeft) :
      s'.stepsLeft name < s.stepsLeft name :=
    stepsLeft_server (fun j => Nat.le_of_eq (hleft j)) (.inr (haccepted ▸ Nat.add_lt_add_left hlt _))
  cases hstep with
  | announce pc => exact hcloser (fun _ => rfl) rfl (by rw [pc]; exact Nat.lt_succ_self 0)
  | @accept k backlog pc pending =>
    have hlength : s.accepted.length + (backlog.length + 1) ≤ C := by
      have hle := h.nodup.length_le_card
      rwa [pending, List.length_append, List.length_cons, Fintype.card_fin] at hle
    refine stepsLeft_server (fun _ => Nat.le_refl _) (.inr ?_)
    show 6 * (C - (s.accepted ++ [k]).length) + 5 < _
    rw [pc, List.length_append, List.length_singleton]
    simp only [ServerPc.stepsLeft]
    omega
  | hello pc => exact hcloser (left_setConnection ⟨rfl, rfl⟩ rfl) rfl (by rw [pc]; exact Nat.lt_succ_self 4)
  | read pc delivers more =>
    exact stepsLeft_received h delivers ⟨rfl, rfl⟩ rfl (by rw [pc]; exact Nat.le_refl 4)
  | message pc delivers last =>
    exact stepsLeft_received h delivers ⟨rfl, rfl⟩ rfl (by rw [pc]; exact Nat.le_succ 3)
  | @ended k st pc all closed =>
    refine hcloser (fun j => ?_) rfl (by rw [pc]; exact Nat.lt_succ_self 3)
    unfold State.left State.setConnection
    rw [Function.update_eq_self]
  | respond t pc => exact hcloser (left_setConnection ⟨rfl, rfl⟩ rfl) rfl (by rw [pc]; exact Nat.lt_succ_self 2)
  | close pc => exact hcloser (left_setConnection ⟨rfl, rfl⟩ rfl) rfl (by rw [pc]; exact Nat.lt_succ_self 1)

/-- **Every step lowers the measure.** -/
theorem stepsLeft_step (h : Invariant name s) {a : Action C} (hstep : step s name a = some s') :
    s'.stepsLeft name < s.stepsLeft name := by
  cases a with
  | client i n => exact stepsLeft_clientStep h (clientStep_cases h.sized_client hstep)
  | server n t => exact stepsLeft_serverStep h (serverStep_cases h.sized_server hstep)

theorem stepsLeft_initial :
    (initial C).stepsLeft name = 70 * C + ∑ i, (name i).length + 1 := by
  have hleft (i : Fin C) : (initial C).left name i = 64 + (name i).length := by
    simp only [State.left, initial, ClientPc.stepsLeft, ByteStream.new, answerLength, length_greeting]
    omega
  unfold State.stepsLeft
  simp only [hleft, Finset.sum_add_distrib, Finset.sum_const, Finset.card_univ, Fintype.card_fin,
    Nat.nsmul_eq_mul]
  show C * 64 + _ + 6 * (C - 0) + 1 = _
  omega

/-! ## Every session -/

theorem terminates (hline : ∀ i, ch '\n' ∉ (name i).bytes)
    (hfits : ∀ i, (greeting (name i)).length ≤ maxLine) :
    (program name).Terminates (70 * C + ∑ i, (name i).length + 1) (Served name) :=
  .of_measure invariant_initial (fun _ _ _ hinv hstep => hinv.step hline hstep)
    (fun _ _ _ hinv hstep => stepsLeft_step hinv hstep) (Nat.le_of_eq stepsLeft_initial)
    (fun _ hinv hstuck => hinv.served_of_stuck hline hfits hstuck)

/-- **Every client is served.**  If no name has a newline and every greeting fits in
the client's array, then any run of the clients and the server, in any order and
however the streams are cut, can be continued until every client has printed `Hello`
and the thanks and ended, and the server has printed every greeting as a whole, one
connection after the other. -/
theorem every_client_served (hline : ∀ i, ch '\n' ∉ (name i).bytes)
    (hfits : ∀ i, (greeting (name i)).length ≤ maxLine) {as : List (Action C)}
    (hrun : (program name).run (initial C) as = some s) :
    ∃ as' s', (program name).run s as' = some s' ∧ Served name s' ∧
      as.length + as'.length ≤ 70 * C + ∑ i, (name i).length + 1 :=
  (terminates hline hfits).finishes hrun

/-- Two clients. -/
def annAndBob (i : Fin 2) : CString :=
  if i.val = 0 then ⟨text "Ann", by decide⟩ else ⟨text "Bob", by decide⟩

/-- Client `i` is accepted, and client `j` waits. -/
def inOrder (i j : Fin C) : List (Action C) :=
  [.client i 0, .server 0 .newYear, .client j 0, .server 0 .newYear, .client i 0,
    .server 0 .newYear]

theorem every_client_served_inOrder :
    ∃ s, (program annAndBob).run (initial 2) (inOrder 1 0) = some s ∧
      ∃ as' s', (program annAndBob).run s as' = some s' ∧ Served annAndBob s' ∧
        6 + as'.length ≤ 70 * 2 + ∑ i, (annAndBob i).length + 1 := by
  have hrun : ((program annAndBob).run (initial 2) (inOrder 1 0)).isSome := rfl
  obtain ⟨s, hs⟩ := Option.isSome_iff_exists.mp hrun
  exact ⟨s, hs, every_client_served (by decide) (by decide) hs⟩

end TcpSession
end SystemsCourse
