import SystemsCourse.TcpSession

/-!
# The invariant of a session of `tcpclient.c` and `tcpserver.c`

What is true of a connection depends on two things: where its client is
(`ClientPc.Holds`), and how far the server has come with it (`Stage.Holds`).  Each
party's step concerns one connection and keeps what the other party knows of it: what
has been sent is only appended to, and what has been printed is what has been
received.  The server's loop stops behind the message because the newline at its end
is the only one (`mem_newline_iff`).
-/
namespace SystemsCourse
namespace TcpSession
open MessageFraming

/-! ## Texts -/

theorem zero_notMem_hello : 0 ∉ hello := by decide

theorem zero_notMem_thanks (t : Ctime) : 0 ∉ thanks t :=
  List.not_mem_append (List.not_mem_append (by decide) t.nonzero) (by decide)

theorem length_thanks (t : Ctime) : (thanks t).length = 46 := by
  rw [thanks, List.length_append, List.length_append, t.length_eq]
  rfl

section Greeting
variable {name : CString} {front : List Byte}

theorem zero_notMem_greeting : 0 ∉ greeting name :=
  List.not_mem_append (name.noNul) (by decide)

theorem length_greeting : (greeting name).length = name.length + 10 := by
  rw [greeting, List.length_append]
  rfl

variable (hline : ch '\n' ∉ name.bytes)
include hline

/-- **The newline of a greeting is its last character.** -/
theorem mem_newline_iff (h : front <+: greeting name) : ch '\n' ∈ front ↔ front = greeting name := by
  have hgreeting : greeting name = (name.bytes ++ text " says Hi!") ++ [ch '\n'] := by
    rw [greeting, List.append_assoc]
    rfl
  have hfront : ch '\n' ∉ name.bytes ++ text " says Hi!" := List.not_mem_append hline (by decide)
  rw [hgreeting] at h ⊢
  constructor
  · intro hmem
    rcases List.prefix_concat_iff.mp h with h | h
    · exact h
    · exact absurd (h.subset hmem) hfront
  · intro h
    rw [h]
    exact List.mem_append_right _ List.mem_cons_self

end Greeting

/-- Nothing of a string without zero bytes is cut off when it is printed. -/
theorem takeWhile_nonzero {bs s : List Byte} (h : 0 ∉ s) (hbs : bs ⊆ s) : bs.takeWhile (· ≠ 0) = bs :=
  List.takeWhile_eq_self_iff.mpr fun c hc => decide_eq_true fun he : c = 0 => h (he ▸ hbs hc)

/-! ## What is true of a connection -/

/-- What the client knows of its connection, by where it is. -/
def ClientPc.Holds (name : CString) (c : Connection) : ClientPc → Prop
  | .connect => c.toServer.sent = [] ∧ c.toServer.closed = false ∧ c.toClient.received = 0
  | .write => c.toServer.sent = [] ∧ c.toServer.closed = false ∧ c.toClient.received = 0
  | .read st => Sized st ∧ c.toServer.sent = greeting name ∧ c.toServer.closed = false ∧
      st.printed = c.toClient.sent.take c.toClient.received
  | .exited printed => c.toServer.sent = greeting name ∧ printed = c.toClient.sent ∧
      c.toClient.closed = true

/-- How far the server has come with a connection. -/
inductive Stage where
  | fresh
  | reading (st : Reading)
  | read
  | thanked
  | closed

/-- The server has received the whole greeting. -/
def AllRead (name : CString) (c : Connection) : Prop :=
  c.toServer.sent = greeting name ∧ c.toServer.received = c.toServer.sent.length

/-- What the server knows of a connection, by how far it has come with it. -/
def Stage.Holds (name : CString) (c : Connection) : Stage → Prop
  | .fresh => c.toServer.received = 0 ∧ c.toClient.sent = [] ∧ c.toClient.closed = false
  | .reading st => Sized st ∧ st.printed = c.toServer.sent.take c.toServer.received ∧
      ch '\n' ∉ st.printed ∧ c.toClient.sent = hello ∧ c.toClient.closed = false
  | .read => AllRead name c ∧ c.toClient.sent = hello ∧ c.toClient.closed = false
  | .thanked => AllRead name c ∧ (∃ t, c.toClient.sent = hello ++ thanks t) ∧ c.toClient.closed = false
  | .closed => AllRead name c ∧ (∃ t, c.toClient.sent = hello ++ thanks t) ∧ c.toClient.closed = true

/-- The connection that the server is at, and how far it has come with it. -/
def ServerPc.stage {C : Nat} : ServerPc C → Option (Fin C × Stage)
  | .announce => none
  | .accept => none
  | .hello k => some (k, .fresh)
  | .read k st => some (k, .reading st)
  | .respond k => some (k, .read)
  | .close k => some (k, .thanked)

section State
variable {C : Nat} {name : Fin C → CString} {s s' : State C} {i k : Fin C}

/-- How far the server has come with a connection that it is not at. -/
def State.stageApart (s : State C) (i : Fin C) : Stage := if i ∈ s.accepted then .closed else .fresh

/-- How far the server has come with connection `i`. -/
def State.stage (s : State C) (i : Fin C) : Stage :=
  match s.server.stage with
  | some (k, g) => if i = k then g else s.stageApart i
  | none => s.stageApart i

theorem stageApart_of_mem (h : i ∈ s.accepted) : s.stageApart i = .closed := if_pos h
theorem stageApart_of_notMem (h : i ∉ s.accepted) : s.stageApart i = .fresh := if_neg h

theorem stageApart_congr (h : i ∈ s'.accepted ↔ i ∈ s.accepted) : s'.stageApart i = s.stageApart i := by
  unfold State.stageApart
  simp only [h]

theorem stage_current {g : Stage} (h : s.server.stage = some (k, g)) : s.stage k = g := by
  rw [State.stage, h]
  exact if_pos rfl

theorem stage_other {g : Stage} (h : s.server.stage = some (k, g)) (hi : i ≠ k) :
    s.stage i = s.stageApart i := by
  rw [State.stage, h]
  exact if_neg hi

theorem stage_idle (h : s.server.stage = none) : s.stage i = s.stageApart i := by
  rw [State.stage, h]

/-- What the server prints for the connections `ks`. -/
def transcript (name : Fin C → CString) (ks : List (Fin C)) : List Byte :=
  ks.flatMap fun k => waiting ++ gotOne ++ greeting (name k)

theorem transcript_concat (ks : List (Fin C)) (k : Fin C) : transcript name (ks ++ [k]) =
    transcript name ks ++ waiting ++ gotOne ++ greeting (name k) := by
  simp [transcript]

/-- What the server has printed, by where it is. -/
def Printed (name : Fin C → CString) (stdout : List Byte) (accepted : List (Fin C)) : ServerPc C → Prop
  | .announce => stdout = transcript name accepted
  | .accept => stdout = transcript name accepted ++ waiting
  | .hello k => ∃ front, accepted = front ++ [k] ∧ stdout = transcript name front ++ waiting ++ gotOne
  | .read k _ => ∃ front, accepted = front ++ [k] ∧ stdout = transcript name front ++ waiting ++ gotOne
  | .respond k => k ∈ accepted ∧ stdout = transcript name accepted
  | .close k => k ∈ accepted ∧ stdout = transcript name accepted

/-- **The invariant.** -/
structure Invariant (name : Fin C → CString) (s : State C) : Prop where
  client : ∀ i, (s.client i).Holds (name i) (s.connection i)
  stage : ∀ i, (s.stage i).Holds (name i) (s.connection i)
  nodup : (s.accepted ++ s.backlog).Nodup
  connected : ∀ i, s.client i = .connect ↔ i ∉ s.accepted ++ s.backlog
  recvline : s.recvline.length = maxLine + 1
  printed : Printed name s.stdout s.accepted s.server

theorem invariant_initial : Invariant name (initial C) where
  client _ := ⟨rfl, rfl, rfl⟩
  stage i := by
    rw [stage_idle rfl, stageApart_of_notMem List.not_mem_nil]
    exact ⟨rfl, rfl, rfl⟩
  nodup := List.nodup_nil
  connected _ := iff_of_true rfl List.not_mem_nil
  recvline := CharArray.length_uninitialized _
  printed := rfl

/-! ## The clients -/

/-- A client's step concerns its own connection. -/
theorem Invariant.moveClient (h : Invariant name s) {c : Connection} {pc : ClientPc}
    (hclient : s'.client = Function.update s.client i pc)
    (hconnection : s'.connection = Function.update s.connection i c)
    (hserver : s'.server = s.server ∧ s'.accepted = s.accepted ∧ s'.recvline = s.recvline ∧
      s'.stdout = s.stdout)
    (hlists : (s'.accepted ++ s'.backlog).Nodup ∧
      ∀ j, s'.client j = .connect ↔ j ∉ s'.accepted ++ s'.backlog)
    (hpc : pc.Holds (name i) c) (hstage : (s.stage i).Holds (name i) c) : Invariant name s' := by
  obtain ⟨hserver, haccepted, hrecvline, hstdout⟩ := hserver
  refine ⟨fun j => ?_, fun j => ?_, hlists.1, hlists.2, ?_, ?_⟩
  · rw [hclient, hconnection]
    by_cases hj : j = i
    · subst hj
      rwa [Function.update_self, Function.update_self]
    · rw [Function.update_of_ne hj, Function.update_of_ne hj]
      exact h.client j
  · have hsame : s'.stage j = s.stage j := by
      have hapart : s'.stageApart j = s.stageApart j := stageApart_congr (by rw [haccepted])
      rw [State.stage, State.stage, hserver, hapart]
    rw [hsame, hconnection]
    by_cases hj : j = i
    · subst hj
      rwa [Function.update_self]
    · rw [Function.update_of_ne hj]
      exact h.stage j
  · rw [hrecvline]
    exact h.recvline
  · rw [hstdout, haccepted, hserver]
    exact h.printed

/-- A client that has connected leaves the lists as they are. -/
theorem Invariant.lists (h : Invariant name s) {pc : ClientPc} (hold : s.client i ≠ .connect)
    (hpc : pc ≠ .connect) : (s.accepted ++ s.backlog).Nodup ∧
      ∀ j, Function.update s.client i pc j = .connect ↔ j ∉ s.accepted ++ s.backlog := by
  refine ⟨h.nodup, fun j => ?_⟩
  rw [← h.connected j]
  by_cases hj : j = i
  · subst hj
    rw [Function.update_self]
    exact iff_of_false hpc hold
  · rw [Function.update_of_ne hj]

/-- The stage of a connection does not change when the client writes. -/
theorem Stage.Holds.write {g : Stage} {name : CString} {c : Connection} (h : g.Holds name c)
    (hsent : c.toServer.sent = []) :
    g.Holds name { c with toServer := c.toServer.send (greeting name) } := by
  have hzero : c.toServer.received = 0 := by
    have := c.toServer.le
    rw [hsent] at this
    exact Nat.le_zero.mp this
  have hnot : ¬ AllRead name c := by
    intro hall
    have hlength := congrArg List.length (hsent.symm.trans hall.1)
    rw [length_greeting] at hlength
    exact absurd hlength.symm (Nat.succ_ne_zero _)
  cases g with
  | fresh => exact h
  | reading st =>
    obtain ⟨hst, hprinted, hrest⟩ := h
    refine ⟨hst, ?_, hrest⟩
    show st.printed = (c.toServer.sent ++ greeting name).take c.toServer.received
    rw [hprinted, hzero, List.take_zero, List.take_zero]
  | read | thanked | closed => exact absurd h.1 hnot

/-- Nor when it reads, nor when it closes. -/
theorem Stage.Holds.congr {g : Stage} {name : CString} {c c' : Connection} (h : g.Holds name c)
    (hsent : c'.toServer.sent = c.toServer.sent) (hreceived : c'.toServer.received = c.toServer.received)
    (hclient : c'.toClient.sent = c.toClient.sent ∧ c'.toClient.closed = c.toClient.closed) :
    g.Holds name c' := by
  obtain ⟨hclient, hclosed⟩ := hclient
  cases g <;> simp only [Stage.Holds, AllRead, hsent, hreceived, hclient, hclosed] at h ⊢ <;> exact h

/-- No zero byte is sent to a client. -/
theorem Stage.Holds.zero_notMem {g : Stage} {name : CString} {c : Connection} (h : g.Holds name c) :
    0 ∉ c.toClient.sent := by
  have hthanked (hsent : ∃ t, c.toClient.sent = hello ++ thanks t) : 0 ∉ c.toClient.sent := by
    obtain ⟨t, hsent⟩ := hsent
    rw [hsent]
    exact List.not_mem_append zero_notMem_hello (zero_notMem_thanks t)
  cases g with
  | fresh =>
    rw [h.2.1]
    exact List.not_mem_nil
  | reading st =>
    rw [h.2.2.2.1]
    exact zero_notMem_hello
  | read =>
    rw [h.2.1]
    exact zero_notMem_hello
  | thanked | closed => exact hthanked h.2.1

/-- What has been delivered are bytes of the stream. -/
theorem subset_of_delivers {c c' : ByteStream Byte} {room : Nat} {bs : List Byte}
    (h : c.Delivers room bs c') : bs ⊆ c.sent := by
  intro b hb
  have hmem : b ∈ c'.sent.take c'.received := h.next ▸ List.mem_append_right _ hb
  exact h.sent ▸ List.mem_of_mem_take hmem

theorem Invariant.clientStep (h : Invariant name s) (hstep : ClientStep (name i) s i s') :
    Invariant name s' := by
  have hclient := h.client i
  have hstage := h.stage i
  cases hstep with
  | connect pc =>
    have hout : i ∉ s.accepted ++ s.backlog := (h.connected i).mp pc
    rw [pc] at hclient
    refine h.moveClient (c := s.connection i) rfl (Function.update_eq_self i _).symm ⟨rfl, rfl, rfl, rfl⟩
      ?_ hclient hstage
    show (s.accepted ++ (s.backlog ++ [i])).Nodup ∧
      ∀ j, Function.update s.client i .write j = .connect ↔ j ∉ s.accepted ++ (s.backlog ++ [i])
    rw [← List.append_assoc]
    refine ⟨List.nodup_append.mpr ⟨h.nodup, List.nodup_singleton i, ?_⟩, fun j => ?_⟩
    · intro j hj j' hj' he
      rw [List.mem_singleton.mp hj'] at he
      exact hout (he ▸ hj)
    · rw [List.mem_append, List.mem_singleton]
      by_cases hj : j = i
      · subst hj
        rw [Function.update_self]
        exact iff_of_false ClientPc.noConfusion (not_not_intro (Or.inr rfl))
      · rw [Function.update_of_ne hj, h.connected j]
        exact not_congr (or_iff_left hj).symm
  | write pc =>
    rw [pc] at hclient
    obtain ⟨hsent, hclosed, hreceived⟩ := hclient
    refine h.moveClient rfl rfl ⟨rfl, rfl, rfl, rfl⟩ (h.lists (pc ▸ ClientPc.noConfusion) ClientPc.noConfusion)
      ⟨length_start, ?_, hclosed, ?_⟩ (hstage.write hsent)
    · show (s.connection i).toServer.sent ++ greeting (name i) = greeting (name i)
      rw [hsent, List.nil_append]
    · show [] = (s.connection i).toClient.sent.take (s.connection i).toClient.received
      rw [hreceived, List.take_zero]
  | @read st bs toClient pc delivers =>
    rw [pc] at hclient
    obtain ⟨hst, hsent, hclosed, hprinted⟩ := hclient
    have hbs : bs.takeWhile (· ≠ 0) = bs :=
      takeWhile_nonzero hstage.zero_notMem (subset_of_delivers delivers)
    refine h.moveClient rfl rfl ⟨rfl, rfl, rfl, rfl⟩ (h.lists (pc ▸ ClientPc.noConfusion) ClientPc.noConfusion)
      ⟨length_after hst ⟨delivers.nonempty, delivers.fits⟩, hsent, hclosed, ?_⟩
      (hstage.congr rfl rfl ⟨delivers.sent, delivers.closed⟩)
    show st.printed ++ bs.takeWhile (· ≠ 0) = toClient.sent.take toClient.received
    rw [hbs, hprinted, delivers.next]
  | exit pc all closed =>
    rw [pc] at hclient
    obtain ⟨-, hsent, -, hprinted⟩ := hclient
    refine h.moveClient rfl rfl ⟨rfl, rfl, rfl, rfl⟩ (h.lists (pc ▸ ClientPc.noConfusion) ClientPc.noConfusion)
      ⟨hsent, ?_, closed⟩ (hstage.congr rfl rfl ⟨rfl, rfl⟩)
    rw [hprinted, all, List.take_length]

/-! ## The server -/

/-- What a client has sent is its greeting, or nothing yet. -/
theorem ClientPc.Holds.sent {pc : ClientPc} {name : CString} {c : Connection} (h : pc.Holds name c) :
    c.toServer.sent = [] ∨ c.toServer.sent = greeting name := by
  cases pc with
  | connect | write => exact .inl h.1
  | read st => exact .inr h.2.1
  | exited printed => exact .inr h.1

/-- A client that is still there does not mind what the server sends. -/
theorem ClientPc.Holds.send {pc : ClientPc} {name : CString} {c : Connection} (h : pc.Holds name c)
    (hopen : c.toClient.closed = false) (bs : List Byte) :
    pc.Holds name { c with toClient := c.toClient.send bs } := by
  cases pc with
  | connect | write => exact h
  | read st =>
    obtain ⟨hst, hsent, hclosed, hprinted⟩ := h
    refine ⟨hst, hsent, hclosed, ?_⟩
    show st.printed = (c.toClient.sent ++ bs).take c.toClient.received
    rw [List.take_append_of_le_length c.toClient.le, hprinted]
  | exited printed => exact absurd (hopen.symm.trans h.2.2) Bool.false_ne_true

/-- Nor that it closes. -/
theorem ClientPc.Holds.close {pc : ClientPc} {name : CString} {c : Connection} (h : pc.Holds name c) :
    pc.Holds name { c with toClient := c.toClient.close } := by
  cases pc with
  | connect | write | read st => exact h
  | exited printed => exact ⟨h.1, h.2.1, rfl⟩

/-- Nor how much the server has received. -/
theorem ClientPc.Holds.received {pc : ClientPc} {name : CString} {c : Connection}
    {toServer : ByteStream Byte} (h : pc.Holds name c) (hsent : toServer.sent = c.toServer.sent)
    (hclosed : toServer.closed = c.toServer.closed) : pc.Holds name { c with toServer } := by
  cases pc <;> simp only [ClientPc.Holds, hsent, hclosed] at h ⊢ <;> exact h

/-- As long as the server has not closed, the client has not either. -/
theorem ClientPc.Holds.not_closed {pc : ClientPc} {name : CString} {c : Connection}
    (h : pc.Holds name c) (hopen : c.toClient.closed = false) : c.toServer.closed = false := by
  cases pc with
  | connect | write => exact h.2.1
  | read st => exact h.2.2.1
  | exited printed => exact absurd (hopen.symm.trans h.2.2) Bool.false_ne_true

/-- What the server has received after another `read`: a part of the greeting, which
ends where the greeting ends if the piece does. -/
theorem read_greeting {name : CString} {c : Connection} {pc : ClientPc} {st : Reading} {bs : List Byte}
    {toServer : ByteStream Byte} (hpc : pc.Holds name c) (hst : (Stage.reading st).Holds name c)
    (delivers : c.toServer.Delivers maxLine bs toServer) : toServer.sent = greeting name ∧
      (st.after bs).printed = toServer.sent.take toServer.received ∧
      (st.after bs).printed = st.printed ++ bs := by
  have hsub := subset_of_delivers delivers
  have hsent : c.toServer.sent = greeting name := by
    refine hpc.sent.resolve_left fun hnil => ?_
    rw [hnil, List.subset_nil] at hsub
    exact absurd delivers.nonempty (by rw [hsub]; exact Nat.not_succ_le_zero 0)
  have hprinted : (st.after bs).printed = st.printed ++ bs := by
    show st.printed ++ bs.takeWhile (· ≠ 0) = st.printed ++ bs
    rw [takeWhile_nonzero (hsent ▸ zero_notMem_greeting) hsub]
  refine ⟨delivers.sent.trans hsent, ?_, hprinted⟩
  rw [hprinted, delivers.next, hst.2.1]

/-- The piece with the end of the greeting, and no other, ends in a newline. -/
theorem getLast?_eq_newline_iff {name : CString} {front bs : List Byte} (hline : ch '\n' ∉ name.bytes)
    (hbs : bs ≠ []) (h : front ++ bs <+: greeting name) :
    bs.getLast? = some (ch '\n') ↔ front ++ bs = greeting name := by
  constructor
  · intro hlast
    exact (mem_newline_iff hline h).mp (List.mem_append_right _ (List.mem_of_getLast? hlast))
  · intro he
    have hlast : (greeting name).getLast? = some (ch '\n') := by
      rw [greeting, List.getLast?_append_of_ne_nil _ (by decide)]
      rfl
    rw [← hlast, ← he, List.getLast?_append_of_ne_nil _ hbs]

/-- A server's step leaves the clients where they are. -/
theorem Invariant.moveServer (h : Invariant name s) (hclient : s'.client = s.client)
    (hlists : s'.accepted ++ s'.backlog = s.accepted ++ s.backlog)
    (hconnection : ∀ i, (s.client i).Holds (name i) (s'.connection i) ∧
      (s'.stage i).Holds (name i) (s'.connection i))
    (hrecvline : s'.recvline.length = maxLine + 1)
    (hprinted : Printed name s'.stdout s'.accepted s'.server) : Invariant name s' where
  client i := hclient ▸ (hconnection i).1
  stage i := (hconnection i).2
  nodup := hlists ▸ h.nodup
  connected i := by
    rw [hclient, hlists]
    exact h.connected i
  recvline := hrecvline
  printed := hprinted

/-- The connections that a server's step does not concern. -/
theorem Invariant.elsewhere (h : Invariant name s) {c : Connection} {g g' : Stage}
    (hserver : s.server.stage = some (k, g)) (hserver' : s'.server.stage = some (k, g'))
    (haccepted : s'.accepted = s.accepted) (hconnection : s'.connection = Function.update s.connection k c)
    (hpc : (s.client k).Holds (name k) c) (hstage : g'.Holds (name k) c) (i : Fin C) :
    (s.client i).Holds (name i) (s'.connection i) ∧ (s'.stage i).Holds (name i) (s'.connection i) := by
  rw [hconnection]
  by_cases hi : i = k
  · subst hi
    rw [Function.update_self, stage_current hserver']
    exact ⟨hpc, hstage⟩
  · have hapart : s'.stageApart i = s.stageApart i := stageApart_congr (by rw [haccepted])
    rw [Function.update_of_ne hi, stage_other hserver' hi, hapart, ← stage_other hserver hi]
    exact ⟨h.client i, h.stage i⟩

/-- What the server knows of the connection that it is at. -/
theorem Invariant.stage_at (h : Invariant name s) {g : Stage} (hserver : s.server.stage = some (k, g)) :
    g.Holds (name k) (s.connection k) := by
  have hstage := h.stage k
  rwa [stage_current hserver] at hstage

theorem Invariant.announce (h : Invariant name s) (pc : s.server = .announce) :
    Invariant name { s with server := .accept, stdout := s.stdout ++ waiting } := by
  have hprinted := h.printed
  rw [pc] at hprinted
  have hstage (i : Fin C) : State.stage { s with server := .accept, stdout := s.stdout ++ waiting } i =
      s.stage i := by
    rw [stage_idle rfl, stage_idle (by rw [pc]; rfl)]
    rfl
  exact h.moveServer rfl rfl (fun i => ⟨h.client i, hstage i ▸ h.stage i⟩) h.recvline
    (congrArg (· ++ waiting) hprinted)

theorem Invariant.accept (h : Invariant name s) (pc : s.server = .accept) {backlog : List (Fin C)}
    (pending : s.backlog = k :: backlog) :
    Invariant name { s with
      server := .hello k
      backlog := backlog
      stdout := s.stdout ++ gotOne
      accepted := s.accepted ++ [k] } := by
  have hprinted := h.printed
  rw [pc] at hprinted
  have hnodup := h.nodup
  rw [pending, List.nodup_append] at hnodup
  have hk : k ∉ s.accepted := fun hmem => hnodup.2.2 k hmem k List.mem_cons_self rfl
  refine h.moveServer rfl (by rw [pending, List.append_assoc]; rfl) (fun i => ⟨h.client i, ?_⟩)
    h.recvline ⟨s.accepted, rfl, congrArg (· ++ gotOne) hprinted⟩
  have hstage := h.stage i
  rw [stage_idle (by rw [pc]; rfl)] at hstage
  by_cases hi : i = k
  · subst hi
    rw [stageApart_of_notMem hk] at hstage
    rw [stage_current rfl]
    exact hstage
  · have hmem : i ∈ s.accepted ++ [k] ↔ i ∈ s.accepted := by
      rw [List.mem_append, List.mem_singleton, or_iff_left hi]
    rw [stage_other rfl hi, stageApart_congr hmem]
    exact hstage

theorem Invariant.hello (h : Invariant name s) (pc : s.server = .hello k) :
    Invariant name { s.setConnection k { s.connection k with
      toClient := (s.connection k).toClient.send TcpSession.hello } with
        server := .read k ⟨s.recvline, 0, []⟩ } := by
  have hprinted := h.printed
  rw [pc] at hprinted
  have hserver : s.server.stage = some (k, .fresh) := by rw [pc]; rfl
  obtain ⟨hreceived, hsent, hopen⟩ := h.stage_at hserver
  refine h.moveServer rfl rfl (h.elsewhere hserver rfl rfl rfl ((h.client k).send hopen _) ?_)
    h.recvline hprinted
  refine ⟨h.recvline, ?_, List.not_mem_nil, ?_, hopen⟩
  · show [] = (s.connection k).toServer.sent.take (s.connection k).toServer.received
    rw [hreceived, List.take_zero]
  · show (s.connection k).toClient.sent ++ TcpSession.hello = TcpSession.hello
    rw [hsent, List.nil_append]

section Reading
variable {st : Reading} {bs : List Byte} {toServer : ByteStream Byte}

/-- What the server knows in its read loop. -/
theorem Invariant.reading (h : Invariant name s) (pc : s.server = .read k st) :
    (Stage.reading st).Holds (name k) (s.connection k) :=
  h.stage_at (by rw [pc]; rfl)

/-- What the server has received with another piece is a part of the greeting. -/
theorem Invariant.piece (h : Invariant name s) (pc : s.server = .read k st)
    (delivers : (s.connection k).toServer.Delivers maxLine bs toServer) :
    st.printed ++ bs <+: greeting (name k) := by
  obtain ⟨hgreeting, htake, happend⟩ := read_greeting (h.client k) (h.reading pc) delivers
  rw [← happend, htake, hgreeting]
  exact List.take_prefix _ _

theorem Invariant.readMore (h : Invariant name s) (hline : ch '\n' ∉ (name k).bytes)
    (pc : s.server = .read k st) (delivers : (s.connection k).toServer.Delivers maxLine bs toServer)
    (more : bs.getLast? ≠ some (ch '\n')) :
    Invariant name { s.setConnection k { s.connection k with toServer } with
      server := .read k (st.after bs) } := by
  have hprinted := h.printed
  rw [pc] at hprinted
  have hserver : s.server.stage = some (k, .reading st) := by rw [pc]; rfl
  obtain ⟨-, htake, happend⟩ := read_greeting (h.client k) (h.reading pc) delivers
  obtain ⟨hst, -, -, hsent, hopen⟩ := h.reading pc
  have hbs : Readable bs := ⟨delivers.nonempty, delivers.fits⟩
  have hpiece := h.piece pc delivers
  refine h.moveServer rfl rfl (h.elsewhere hserver rfl rfl rfl
    ((h.client k).received delivers.sent delivers.closed)
    ⟨length_after hst hbs, htake, ?_, hsent, hopen⟩) h.recvline hprinted
  -- a newline would be the end of the greeting, and the piece would end with it
  rw [happend]
  intro hmem
  exact more ((getLast?_eq_newline_iff hline hbs.ne_nil hpiece).mpr
    ((mem_newline_iff hline hpiece).mp hmem))

theorem Invariant.message (h : Invariant name s) (hline : ch '\n' ∉ (name k).bytes)
    (pc : s.server = .read k st) (delivers : (s.connection k).toServer.Delivers maxLine bs toServer)
    (last : bs.getLast? = some (ch '\n')) :
    Invariant name { s.setConnection k { s.connection k with toServer } with
      server := .respond k
      recvline := (st.after bs).recvline
      stdout := s.stdout ++ (st.after bs).printed } := by
  have hprinted := h.printed
  rw [pc] at hprinted
  obtain ⟨front, haccepted, hstdout⟩ := hprinted
  have hserver : s.server.stage = some (k, .reading st) := by rw [pc]; rfl
  obtain ⟨hgreeting, htake, happend⟩ := read_greeting (h.client k) (h.reading pc) delivers
  obtain ⟨hst, -, -, hsent, hopen⟩ := h.reading pc
  have hbs : Readable bs := ⟨delivers.nonempty, delivers.fits⟩
  have hwhole : (st.after bs).printed = greeting (name k) :=
    happend.trans ((getLast?_eq_newline_iff hline hbs.ne_nil (h.piece pc delivers)).mp last)
  have hall : toServer.received = toServer.sent.length :=
    Nat.le_antisymm toServer.le
      (List.take_eq_self_iff _ |>.mp (htake.symm.trans (hwhole.trans hgreeting.symm)))
  refine h.moveServer rfl rfl (h.elsewhere hserver rfl rfl rfl
    ((h.client k).received delivers.sent delivers.closed) ⟨⟨hgreeting, hall⟩, hsent, hopen⟩)
    (length_after hst hbs) ⟨?_, ?_⟩
  · show k ∈ s.accepted
    rw [haccepted]
    exact List.mem_append_right _ List.mem_cons_self
  · show s.stdout ++ (st.after bs).printed = transcript name s.accepted
    rw [haccepted, transcript_concat, hstdout, hwhole]

/-- The client closes its end after the server has. -/
theorem Invariant.not_closed (h : Invariant name s) (pc : s.server = .read k st) :
    (s.connection k).toServer.closed = false :=
  (h.client k).not_closed (h.reading pc).2.2.2.2

end Reading

theorem Invariant.respond (h : Invariant name s) (pc : s.server = .respond k) (t : Ctime) :
    Invariant name { s.setConnection k { s.connection k with
      toClient := (s.connection k).toClient.send (thanks t) } with server := .close k } := by
  have hprinted := h.printed
  rw [pc] at hprinted
  have hserver : s.server.stage = some (k, .read) := by rw [pc]; rfl
  obtain ⟨hall, hsent, hopen⟩ := h.stage_at hserver
  refine h.moveServer rfl rfl (h.elsewhere hserver rfl rfl rfl ((h.client k).send hopen _)
    ⟨hall, ⟨t, ?_⟩, hopen⟩) h.recvline hprinted
  show (s.connection k).toClient.sent ++ thanks t = TcpSession.hello ++ thanks t
  rw [hsent]

theorem Invariant.close (h : Invariant name s) (pc : s.server = .close k) :
    Invariant name { s.setConnection k { s.connection k with
      toClient := (s.connection k).toClient.close } with server := .announce } := by
  have hprinted := h.printed
  rw [pc] at hprinted
  obtain ⟨hk, hstdout⟩ := hprinted
  have hserver : s.server.stage = some (k, .thanked) := by rw [pc]; rfl
  obtain ⟨hall, hsent, -⟩ := h.stage_at hserver
  refine h.moveServer rfl rfl (fun i => ?_) h.recvline hstdout
  rw [stage_idle rfl]
  show (s.client i).Holds (name i) (Function.update s.connection k _ i) ∧
    (s.stageApart i).Holds (name i) (Function.update s.connection k _ i)
  by_cases hi : i = k
  · subst hi
    rw [Function.update_self, stageApart_of_mem hk]
    exact ⟨(h.client i).close, hall, hsent, rfl⟩
  · rw [Function.update_of_ne hi, ← stage_other hserver hi]
    exact ⟨h.client i, h.stage i⟩

theorem Invariant.serverStep (hline : ∀ i, ch '\n' ∉ (name i).bytes) (h : Invariant name s)
    (hstep : ServerStep s s') : Invariant name s' := by
  cases hstep with
  | announce pc => exact h.announce pc
  | accept pc pending => exact h.accept pc pending
  | hello pc => exact h.hello pc
  | @read k _ _ _ pc delivers more => exact h.readMore (hline k) pc delivers more
  | @message k _ _ _ pc delivers last => exact h.message (hline k) pc delivers last
  | ended pc all closed => exact absurd ((h.not_closed pc).symm.trans closed) Bool.false_ne_true
  | respond t pc => exact h.respond pc t
  | close pc => exact h.close pc

/-! ## Everybody -/

theorem Invariant.sized_client (h : Invariant name s) (st : Reading) (hpc : s.client i = .read st) :
    Sized st := by
  have hclient := h.client i
  rw [hpc] at hclient
  exact hclient.1

theorem Invariant.sized_server (h : Invariant name s) (k : Fin C) (st : Reading)
    (hpc : s.server = .read k st) : Sized st := (h.reading hpc).1

theorem Invariant.step (hline : ∀ i, ch '\n' ∉ (name i).bytes) (h : Invariant name s) {a : Action C}
    (hstep : TcpSession.step s name a = some s') : Invariant name s' := by
  cases a with
  | client i n => exact h.clientStep (clientStep_cases h.sized_client hstep)
  | server n t => exact h.serverStep hline (serverStep_cases h.sized_server hstep)

end State
end TcpSession
end SystemsCourse
