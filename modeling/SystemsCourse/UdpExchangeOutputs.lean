import Mathlib.Data.List.FinRange
import SystemsCourse.UdpExchange

/-!
# `udpclient.c` and `udpserver.c`: what can be printed

What the server and the clients have printed is explained by a history (`History`): the
order in which the server has received the datagrams, up to the one that it could not
answer, if there is one, and how far each client has come.  A history is possible
(`History.Possible`) when the clients whose names have arrived have sent them, and the
answers that clients show are answers to them.  Every possible history explains the
outputs of some run (`outputs_iff`): there is no other connection between what the
parties print.

The run is built from the history: the clients send or fail, the server receives in
this order, and then the clients receive or fail.
-/
namespace SystemsCourse
namespace UdpExchange
open MessageFraming (maxLine)
open TcpSession (Ctime)

/-! ## Histories -/

/-- What a client at `pc` has printed. -/
def ClientPc.output (c : Client) : ClientPc → List Byte
  | .start => []
  | .send | .receive => sending c
  | .exited printed => printed
  | .sendFailed errno => sending c ++ errNDie (text "sendto error") errno
  | .receiveFailed errno => sending c ++ errNDie (text "receive error") errno

/-- What the server and the clients have printed. -/
structure Output (C : Nat) where
  server : List Byte
  client : Fin C → List Byte

/-- The output so far. -/
def State.output {C : Nat} {copies : Bool} (clients : Fin C → Client) (s : State C copies) :
    Output C :=
  ⟨s.stdout, fun i => (s.client i).output (clients i)⟩

/-- How far a client has come: it may have printed nothing, what it sends, and then the
answer with the number `n + 1` or an error message. -/
inductive Fate where
  | unstarted
  | sendFails (errno : Errno)
  | waits
  | answered (n : Nat) (t : Ctime)
  | receiveFails (errno : Errno)

/-- What the client prints. -/
def Fate.printed (c : Client) : Fate → List Byte
  | .unstarted => []
  | .sendFails errno => sending c ++ errNDie (text "sendto error") errno
  | .waits => sending c
  | .answered n t => printedOf c (reply (n + 1) t)
  | .receiveFails errno => sending c ++ errNDie (text "receive error") errno

/-- The clients that the server has received from and answered, or can still answer, in
order; after them one that it could not answer; and how far the clients have come. -/
structure History (C : Nat) where
  served : List (Fin C)
  refused : Option (Fin C × Errno)
  fate : Fin C → Fate

section Histories
variable {C : Nat} (clients : Fin C → Client) (history : History C)

/-- The clients that the server has received from. -/
def History.askers : List (Fin C) := history.served ++ (history.refused.map Prod.fst).toList

/-- The error message of the server. -/
def History.lastWords : List Byte :=
  match history.refused with
  | none => []
  | some (_, errno) => errNDie (text "sendto error") errno

/-- What the parties print: the server the names that it receives. -/
def History.output : Output C where
  server := (history.askers.flatMap fun i => logged (clients i)) ++ history.lastWords
  client i := (history.fate i).printed (clients i)

/-- Client `i` has sent if the server has received from it, and shows an answer to itself,
behind which there is an end. -/
def History.Allows (i : Fin C) : Fate → Prop
  | .unstarted | .sendFails _ => i ∉ history.askers
  | .answered n t => history.served[n]? = some i ∧ Terminated (clients i) (reply (n + 1) t)
  | .waits | .receiveFails _ => True

/-- **The history is possible**: each client is received from only once, unless the network
delivers copies. -/
structure History.Possible (copies : Bool) : Prop where
  bound : history.askers.length ≤ intMax
  once : copies = false → history.askers.Nodup
  allows : ∀ i, history.Allows clients i (history.fate i)

end Histories

variable {C : Nat} {copies : Bool} {clients : Fin C → Client} {s : State C copies} {i : Fin C}
  {history : History C} {served order : List (Fin C)}

/-! ## Every run has a history -/

/-- How far a client has come in a run. -/
theorem Exchanged.exists_fate (h : Exchanged clients served s) (hserved : served <+: history.served)
    (haskers : history.askers = s.askers) (i : Fin C) :
    ∃ fate, history.Allows clients i fate ∧
      fate.printed (clients i) = (s.client i).output (clients i) := by
  have hsilent (hnot : ¬ (s.client i).sent) : i ∉ history.askers := fun hi =>
    hnot (h.sent_of_mem (haskers ▸ hi))
  cases hpc : s.client i with
  | start => exact ⟨.unstarted, hsilent (by rw [hpc]; exact id), rfl⟩
  | send => exact ⟨.waits, trivial, rfl⟩
  | receive => exact ⟨.waits, trivial, rfl⟩
  | exited printed =>
    obtain ⟨bs, ⟨n, t, hn, rfl⟩, hterminated, hprinted⟩ := h.printed i printed hpc
    obtain ⟨rest, hrest⟩ := hserved
    obtain ⟨hlt, -⟩ := List.getElem?_eq_some_iff.mp hn
    refine ⟨.answered n t, ⟨?_, hterminated⟩, hprinted.symm⟩
    rw [← hrest, List.getElem?_append_left hlt, hn]
  | sendFailed errno => exact ⟨.sendFails errno, hsilent (by rw [hpc]; exact id), rfl⟩
  | receiveFailed errno => exact ⟨.receiveFails errno, trivial, rfl⟩

/-- Whom the server has received from, and what it has printed, is in a history. -/
theorem Exchanged.exists_receipts (h : Exchanged clients served s) :
    ∃ history : History C, served <+: history.served ∧ history.askers = s.askers ∧
      history.lastWords = s.server.lastWords := by
  have haskers := h.askers
  cases hpc : s.server with
  | receive | respond =>
    refine ⟨⟨s.askers, none, fun _ => .unstarted⟩, ?_, List.append_nil _, rfl⟩
    exact haskers ▸ List.prefix_append _ _
  | failed i errno =>
    rw [hpc] at haskers
    exact ⟨⟨served, some (i, errno), fun _ => .unstarted⟩, List.prefix_refl _, haskers.symm, rfl⟩

theorem Exchanged.exists_history (h : Exchanged clients served s) :
    ∃ history : History C, history.Possible clients copies ∧
      history.output clients = s.output clients := by
  obtain ⟨receipts, hserved, haskers, hlastWords⟩ := h.exists_receipts
  choose fate hallows hprinted using h.exists_fate hserved haskers
  have hsame : ({ receipts with fate } : History C).askers = s.askers := haskers
  refine ⟨{ receipts with fate }, ⟨?_, fun hcopies => ?_, hallows⟩, ?_⟩
  · rw [hsame, ← h.count]
    exact h.bound
  · rw [hsame]
    exact DatagramChannel.nodup_map_arrivals Prod.fst hcopies h.single
  · refine congr (congrArg Output.mk ?_) (funext hprinted)
    rw [hsame, h.log]
    exact congrArg _ hlastWords

/-! ## The clients send -/

/-- Where a client is when it has made its calls up to `sendto`. -/
def Fate.requested : Fate → ClientPc
  | .unstarted => .start
  | .sendFails errno => .sendFailed errno
  | .waits | .answered _ _ | .receiveFails _ => .receive

/-- The first `k` clients have made their calls up to `sendto`. -/
structure Requested (clients : Fin C → Client) (history : History C) (k : Nat)
    (s : State C copies) : Prop where
  reachable : (program clients copies).Reachable s
  before : ∀ i, i.val < k → s.client i = (history.fate i).requested
  behind : ∀ i, k ≤ i.val → s.client i = .start
  server : s.server = .receive
  received : s.requests.received = []
  unread : ∀ i, (s.replies i).received = []

/-- A client that goes on and then is where it belongs is one more. -/
theorem Requested.succ {s' : State C copies} {k : Nat} (h : Requested clients history k s) (hk : k < C)
    (hreach : (program clients copies).Reachable s')
    (hclient : s'.client = Function.update s.client ⟨k, hk⟩ (history.fate ⟨k, hk⟩).requested)
    (hserver : s'.server = s.server) (hrequests : s'.requests.received = s.requests.received)
    (hreplies : s'.replies = s.replies) : Requested clients history (k + 1) s' := by
  refine ⟨hreach, fun i hi => ?_, fun i hi => ?_, hserver.trans h.server,
    hrequests.trans h.received, fun i => hreplies ▸ h.unread i⟩
  · rw [hclient]
    exact forall_lt_update (p := fun i pc => pc = (history.fate i).requested) hk rfl h.before i hi
  · have hik : i ≠ ⟨k, hk⟩ := fun h => absurd (congrArg Fin.val h) (Nat.ne_of_gt hi)
    rw [hclient, Function.update_of_ne hik]
    exact h.behind i (Nat.le_of_succ_le hi)

/-- What a client that starts can do: nothing, or print and then call `sendto`. -/
theorem exists_sendto (hreach : (program clients copies).Reachable s) (hpc : s.client i = .start)
    (fate : Fate) :
    ∃ s', (program clients copies).Reachable s' ∧
      s'.client = Function.update s.client i fate.requested ∧ s'.server = s.server ∧
      s'.requests.received = s.requests.received ∧ s'.replies = s.replies := by
  have hprint : (program clients copies).step s (.print i) = some (s.goto i .send) := by
    simp only [program, step, printStep, hpc]
  have hprinted : (s.goto i .send).client i = .send := Function.update_self _ _ _
  have hsends : (program clients copies).step (s.goto i .send) (.client i (.ok 0))
      = some ((s.goto i .send).request (clients i) i) := by
    simp only [program, step, clientStep, hprinted]
  have hfails (errno : Errno) : (program clients copies).step (s.goto i .send)
      (.client i (.error errno)) = some ((s.goto i .send).goto i (.sendFailed errno)) := by
    simp only [program, step, clientStep, hprinted]
  cases fate with
  | unstarted => exact ⟨s, hreach, (Function.update_eq_self_iff.mpr hpc.symm).symm, rfl, rfl, rfl⟩
  | sendFails errno =>
    exact ⟨_, (hreach.step hprint).step (hfails errno), Function.update_idem _ _ _, rfl, rfl, rfl⟩
  | waits | answered _ _ | receiveFails _ =>
    exact ⟨_, (hreach.step hprint).step hsends, Function.update_idem _ _ _, rfl, rfl, rfl⟩

theorem exists_requested (k : Nat) (hk : k ≤ C) :
    ∃ s : State C copies, Requested clients history k s := by
  induction k with
  | zero =>
    exact ⟨initial C copies, StepSystem.reachable_init, fun i hi => absurd hi (Nat.not_lt_zero _),
      fun _ _ => rfl, rfl, rfl, fun _ => rfl⟩
  | succ k ih =>
    obtain ⟨s, hs⟩ := ih (Nat.le_of_succ_le hk)
    obtain ⟨s', hreach, hclient, hserver, hrequests, hreplies⟩ :=
      exists_sendto hs.reachable (hs.behind ⟨k, hk⟩ (Nat.le_refl k)) (history.fate ⟨k, hk⟩)
    exact ⟨s', hs.succ hk hreach hclient hserver hrequests hreplies⟩

/-! ## The server receives in order -/

/-- Some time. -/
def anyTime : Ctime := ⟨List.replicate 24 (ch ' '), rfl, by decide⟩

/-- When the answer to a client is sent. -/
def Fate.time : Fate → Ctime
  | .answered _ t => t
  | .unstarted | .sendFails _ | .waits | .receiveFails _ => anyTime

/-- The server has received the datagrams of the clients in `order`, and has answered those
in `served`; no client has received anything. -/
structure Serving (clients : Fin C → Client) (history : History C) (order served : List (Fin C))
    (s : State C copies) : Prop where
  reachable : (program clients copies).Reachable s
  client : ∀ i, s.client i = (history.fate i).requested
  unread : ∀ i, (s.replies i).received = []
  askers : s.askers = order
  answered : ∀ n i, served[n]? = some i →
    reply (n + 1) (history.fate i).time ∈ (s.replies i).sent

/-- What a call of `recvfrom` does that returns a datagram of client `i`. -/
theorem serverStep_receive {k : Nat} {bs : List Byte}
    {requests : DatagramChannel copies (Fin C × List Byte)} (hpc : s.server = .receive)
    (hsized : s.recvline.length = maxLine + 1) (hroom : s.recvCount < intMax)
    (hreceive : s.requests.receive k = some ((i, bs), requests)) (t : Ctime) :
    serverStep s (.ok k) t = some (s.arrive i requests (s.recvline.terminated (bs.take maxLine))
      ((bs.take maxLine).takeWhile (· ≠ 0))) := by
  have hlen : (bs.take maxLine).length < s.recvline.length := by
    rw [hsized]
    exact Nat.lt_succ_of_le (List.length_take_le _ _)
  simp only [serverStep, hpc, hreceive, Option.bind_eq_bind, Option.bind_some,
    CharArray.receive_eq_some (Nat.le_of_lt hlen), if_pos hroom, CharArray.store_received hlen,
    CharArray.stringAt_terminated (Nat.zero_le _), List.drop_zero, Option.pure_def]

/-- What has been received of a client is one of the askers. -/
theorem mem_askers {k : Nat} {bs : List Byte} (hk : k ∈ s.requests.received)
    (hat : s.requests.sent[k]? = some (i, bs)) : i ∈ s.askers :=
  List.mem_map_of_mem (f := Prod.fst) (List.mem_filterMap.mpr ⟨k, hk, hat⟩)

/-- **The server receives one more datagram.** -/
theorem Serving.exists_arrival (h : Serving clients history order served s)
    (hpc : s.server = .receive) (hsent : (history.fate i).requested.sent)
    (hbound : order.length < intMax) (hfresh : copies = false → i ∉ order) :
    ∃ s' : State C copies, Serving clients history (order ++ [i]) served s' ∧
      s'.server = .respond i ∧ s'.recvCount = order.length + 1 := by
  obtain ⟨_, hexchanged⟩ := inOrder h.reachable
  have hcount : s.recvCount = order.length := by rw [hexchanged.count, h.askers]
  obtain ⟨⟨j, bs⟩, hmem, rfl⟩ := List.mem_map.mp ((hexchanged.sent i).mpr (h.client i ▸ hsent))
  obtain ⟨k, hat⟩ := List.getElem?_of_mem hmem
  have hnew : copies = false → k ∉ s.requests.received := fun hcopies hk =>
    hfresh hcopies (h.askers ▸ mem_askers hk hat)
  obtain ⟨requests, hreceive, receives⟩ := DatagramChannel.exists_receive hat hnew
  have hstep := serverStep_receive hpc hexchanged.sized (hcount ▸ hbound) hreceive
    (history.fate j).time
  refine ⟨_, ⟨h.reachable.step (t := .server (.ok k) (history.fate j).time) hstep, h.client,
    h.unread, ?_, h.answered⟩, rfl, congrArg (· + 1) hcount⟩
  show requests.arrivals.map Prod.fst = _
  rw [receives.arrivals, List.map_append, ← h.askers]
  rfl

/-- What has been sent to the clients when the server answers. -/
theorem sent_answer (s : State C copies) (i j : Fin C) (t : Ctime) :
    ((s.answer j t).replies i).sent
      = (s.replies i).sent ++ if i = j then [reply s.recvCount t] else [] := by
  show (Function.update s.replies j ((s.replies j).send (reply s.recvCount t)) i).sent = _
  by_cases hij : i = j
  · subst hij
    rw [Function.update_self, if_pos rfl, DatagramChannel.sent_send]
  · rw [Function.update_of_ne hij, if_neg hij, List.append_nil]

theorem received_answer (s : State C copies) (i j : Fin C) (t : Ctime) :
    ((s.answer j t).replies i).received = (s.replies i).received := by
  show (Function.update s.replies j ((s.replies j).send (reply s.recvCount t)) i).received = _
  by_cases hij : i = j
  · subst hij
    rw [Function.update_self, DatagramChannel.received_send]
  · rw [Function.update_of_ne hij]

/-- **The server answers.** -/
theorem Serving.exists_answer (h : Serving clients history (served ++ [i]) served s)
    (hpc : s.server = .respond i) (hcount : s.recvCount = served.length + 1) :
    ∃ s' : State C copies, Serving clients history (served ++ [i]) (served ++ [i]) s' ∧
      s'.server = .receive := by
  have hstep : serverStep s (.ok 0) (history.fate i).time
      = some (s.answer i (history.fate i).time) := by
    simp only [serverStep, hpc]
  refine ⟨_, ⟨h.reachable.step (t := .server (.ok 0) (history.fate i).time) hstep, h.client,
    fun j => ?_, h.askers, fun n j hj => ?_⟩, rfl⟩
  · rw [received_answer]
    exact h.unread j
  · rw [sent_answer]
    rcases Nat.lt_or_ge n served.length with hn | hn
    · rw [List.getElem?_append_left hn] at hj
      exact List.mem_append_left _ (h.answered n j hj)
    · -- the datagram that has just been received
      rw [List.getElem?_append_right hn, List.getElem?_singleton] at hj
      split_ifs at hj with hzero
      cases hj
      rw [if_pos rfl, hcount, show n = served.length by omega]
      exact List.mem_append_right _ List.mem_cons_self

/-- **Any order of receipts** that the network allows is possible. -/
theorem exists_serving (order : List (Fin C)) (hbound : order.length ≤ intMax)
    (honce : copies = false → order.Nodup)
    (hsent : ∀ i ∈ order, (history.fate i).requested.sent) :
    ∃ s : State C copies, Serving clients history order order s ∧ s.server = .receive := by
  induction order using List.reverseRecOn with
  | nil =>
    obtain ⟨s, hs⟩ : ∃ s : State C copies, Requested clients history C s :=
      exists_requested C (Nat.le_refl C)
    refine ⟨s, ⟨hs.reachable, fun i => hs.before i i.isLt, hs.unread, ?_, ?_⟩, hs.server⟩
    · rw [State.askers, DatagramChannel.arrivals, hs.received]
      rfl
    · intro n i hi
      cases hi
  | append_singleton order i ih =>
    rw [List.length_append] at hbound
    obtain ⟨s, hs, hpc⟩ := ih (Nat.le_of_succ_le hbound)
      (fun hcopies => (List.nodup_append.mp (honce hcopies)).1)
      fun j hj => hsent j (List.mem_append_left _ hj)
    have hfresh (hcopies : copies = false) : i ∉ order := fun hmem =>
      (List.nodup_append.mp (honce hcopies)).2.2 i hmem i List.mem_cons_self rfl
    obtain ⟨s₁, hs₁, hpc₁, hcount₁⟩ := hs.exists_arrival hpc
      (hsent i (List.mem_append_right _ List.mem_cons_self)) hbound hfresh
    exact hs₁.exists_answer hpc₁ hcount₁

/-- The client has sent its name in the history. -/
theorem History.Allows.sent {fate : Fate} (h : history.Allows clients i fate)
    (hi : i ∈ history.askers) : fate.requested.sent := by
  cases fate with
  | unstarted | sendFails _ => exact absurd hi h
  | waits | answered _ _ | receiveFails _ => exact trivial

/-- **The server goes through the history.** -/
theorem History.Possible.exists_serving (h : history.Possible clients copies) :
    ∃ s : State C copies, Serving clients history history.askers history.served s ∧
      s.server.lastWords = history.lastWords := by
  have hsent (i : Fin C) (hi : i ∈ history.askers) : (history.fate i).requested.sent :=
    (h.allows i).sent hi
  obtain ⟨served, refused, fate⟩ := history
  cases refused with
  | none =>
    have haskers : (History.mk served none fate).askers = served := List.append_nil served
    rw [haskers] at hsent ⊢
    obtain ⟨s, hs, hpc⟩ : ∃ s : State C copies, Serving clients _ served served s ∧ _ :=
      UdpExchange.exists_serving served (haskers ▸ h.bound) (fun hcopies => haskers ▸ h.once hcopies) hsent
    exact ⟨s, hs, by rw [hpc]; rfl⟩
  | some refused =>
    obtain ⟨i, errno⟩ := refused
    have haskers : (History.mk served (some (i, errno)) fate).askers = served ++ [i] := rfl
    have hbound := h.bound
    have honce := h.once
    rw [haskers] at hsent hbound honce ⊢
    rw [List.length_append] at hbound
    obtain ⟨s, hs, hpc⟩ : ∃ s : State C copies, Serving clients _ served served s ∧ _ :=
      UdpExchange.exists_serving served (Nat.le_of_succ_le hbound)
        (fun hcopies => (List.nodup_append.mp (honce hcopies)).1)
        fun j hj => hsent j (List.mem_append_left _ hj)
    have hfresh (hcopies : copies = false) : i ∉ served := fun hmem =>
      (List.nodup_append.mp (honce hcopies)).2.2 i hmem i List.mem_cons_self rfl
    obtain ⟨s₁, hs₁, hpc₁, -⟩ := hs.exists_arrival hpc
      (hsent i (List.mem_append_right _ List.mem_cons_self)) hbound hfresh
    have hstep : serverStep s₁ (.error errno) (fate i).time = some (s₁.die i errno) := by
      simp only [serverStep, hpc₁]
    exact ⟨_, ⟨hs₁.reachable.step (t := .server (.error errno) (fate i).time) hstep, hs₁.client,
      hs₁.unread, hs₁.askers, hs₁.answered⟩, rfl⟩

/-! ## The clients receive -/

/-- Where a client is in the end. -/
def Fate.pc (c : Client) : Fate → ClientPc
  | .unstarted => .start
  | .sendFails errno => .sendFailed errno
  | .waits => .receive
  | .answered n t => .exited (printedOf c (reply (n + 1) t))
  | .receiveFails errno => .receiveFailed errno

theorem Fate.output_pc (c : Client) (fate : Fate) : (fate.pc c).output c = fate.printed c := by
  cases fate <;> rfl

/-- The first `k` clients have made all their calls; the others have received nothing. -/
structure Delivered (clients : Fin C → Client) (history : History C) (s₀ : State C copies) (k : Nat)
    (s : State C copies) : Prop where
  reachable : (program clients copies).Reachable s
  stdout : s.stdout = s₀.stdout
  before : ∀ i, i.val < k → s.client i = (history.fate i).pc (clients i)
  behind : ∀ i, k ≤ i.val → s.client i = s₀.client i ∧ s.replies i = s₀.replies i

/-- A client that goes on and then is where it belongs is one more. -/
theorem Delivered.succ {s₀ s' : State C copies} {k : Nat} (h : Delivered clients history s₀ k s)
    (hk : k < C) (hreach : (program clients copies).Reachable s')
    (hclient : s'.client = Function.update s.client ⟨k, hk⟩
      ((history.fate ⟨k, hk⟩).pc (clients ⟨k, hk⟩)))
    (hreplies : ∀ i, i ≠ ⟨k, hk⟩ → s'.replies i = s.replies i) (hstdout : s'.stdout = s.stdout) :
    Delivered clients history s₀ (k + 1) s' := by
  refine ⟨hreach, hstdout.trans h.stdout, fun i hi => ?_, fun i hi => ?_⟩
  · rw [hclient]
    exact forall_lt_update (p := fun i pc => pc = (history.fate i).pc (clients i)) hk rfl h.before i hi
  · have hik : i ≠ ⟨k, hk⟩ := fun h => absurd (congrArg Fin.val h) (Nat.ne_of_gt hi)
    obtain ⟨hpc, hsame⟩ := h.behind i (Nat.le_of_succ_le hi)
    rw [hclient, Function.update_of_ne hik]
    exact ⟨hpc, (hreplies i hik).trans hsame⟩

/-- What `clientStep` does when the client receives a datagram. -/
theorem clientStep_receive {c : Client} {k : Nat} {bs line : List Byte}
    {replies : DatagramChannel copies (List Byte)} (hpc : s.client i = .receive)
    (hreceive : (s.replies i).receive k = some (bs, replies)) (hshow : c.show bs = some line) :
    clientStep s c i (.ok k) = some { s.goto i (.exited (sending c ++ line ++ text "\n")) with
      replies := Function.update s.replies i replies } := by
  simp only [clientStep, hpc, hreceive, hshow, Option.bind_eq_bind, Option.bind_some,
    Option.pure_def]

/-- An answer that has been sent to a client is received and printed. -/
theorem exists_recvfrom (hreach : (program clients copies).Reachable s)
    (hpc : s.client i = .receive) (hunread : (s.replies i).received = []) {n : Nat} {t : Ctime}
    (hmem : reply (n + 1) t ∈ (s.replies i).sent)
    (hterminated : Terminated (clients i) (reply (n + 1) t)) :
    ∃ s', (program clients copies).Reachable s' ∧
      s'.client = Function.update s.client i (.exited (printedOf (clients i) (reply (n + 1) t))) ∧
      (∀ j, j ≠ i → s'.replies j = s.replies j) ∧ s'.stdout = s.stdout := by
  obtain ⟨_, hexchanged⟩ := inOrder hreach
  obtain ⟨hlen, hnul⟩ := hexchanged.receivable (hexchanged.replies i _ hmem)
  obtain ⟨m, hm⟩ := List.getElem?_of_mem hmem
  obtain ⟨replies, hreceive, -⟩ := DatagramChannel.exists_receive hm fun _ h => by
    rw [hunread] at h
    cases h
  have hshow := (show_eq_some_iff hlen hnul).mpr ⟨hterminated, rfl⟩
  have hstep := clientStep_receive hpc hreceive hshow
  exact ⟨_, hreach.step (t := .client i (.ok m)) hstep, rfl, fun j hj => Function.update_of_ne hj _ _,
    rfl⟩

/-- **A client comes as far as the history says.** -/
theorem Delivered.exists_succ {s₀ : State C copies} {k : Nat} (h : Delivered clients history s₀ k s)
    (hk : k < C) (hserving : Serving clients history history.askers history.served s₀)
    (hallows : ∀ i, history.Allows clients i (history.fate i)) :
    ∃ s' : State C copies, Delivered clients history s₀ (k + 1) s' := by
  obtain ⟨hpc, hreplies⟩ := h.behind ⟨k, hk⟩ (Nat.le_refl k)
  rw [hserving.client] at hpc
  have hallowed := hallows ⟨k, hk⟩
  cases hfate : history.fate ⟨k, hk⟩ with
  | unstarted | sendFails _ | waits =>
    rw [hfate] at hpc
    refine ⟨s, h.succ hk h.reachable ?_ (fun _ _ => rfl) rfl⟩
    rw [hfate]
    exact (Function.update_eq_self_iff.mpr hpc.symm).symm
  | receiveFails errno =>
    rw [hfate] at hpc
    have hstep : clientStep s (clients ⟨k, hk⟩) ⟨k, hk⟩ (.error errno)
        = some (s.goto ⟨k, hk⟩ (.receiveFailed errno)) := by
      simp only [clientStep, hpc, Fate.requested]
    refine ⟨_, h.succ hk (h.reachable.step (t := .client ⟨k, hk⟩ (.error errno)) hstep) ?_
      (fun _ _ => rfl) rfl⟩
    rw [hfate]
    rfl
  | answered n t =>
    rw [hfate] at hpc hallowed
    have hmem := hserving.answered n _ hallowed.1
    rw [hfate, ← hreplies] at hmem
    obtain ⟨s', hreach, hclient, hothers, hstdout⟩ := exists_recvfrom h.reachable hpc
      (hreplies ▸ hserving.unread ⟨k, hk⟩) hmem hallowed.2
    exact ⟨s', h.succ hk hreach (by rw [hclient, hfate]; rfl) hothers hstdout⟩

/-- **Every possible history has a run.** -/
theorem History.Possible.exists_run (h : history.Possible clients copies) :
    ∃ s : State C copies, (program clients copies).Reachable s ∧
      (∀ i, s.client i = (history.fate i).pc (clients i)) ∧
      s.stdout = (history.output clients).server := by
  obtain ⟨s₀, hserving, hlastWords⟩ :
      ∃ s₀ : State C copies, Serving clients history history.askers history.served s₀ ∧ _ :=
    h.exists_serving
  have hdelivered (k : Nat) (hk : k ≤ C) : ∃ s, Delivered clients history s₀ k s := by
    induction k with
    | zero =>
      exact ⟨s₀, hserving.reachable, rfl, fun i hi => absurd hi (Nat.not_lt_zero _),
        fun _ _ => ⟨rfl, rfl⟩⟩
    | succ k ih =>
      obtain ⟨s, hs⟩ := ih (Nat.le_of_succ_le hk)
      exact hs.exists_succ hk hserving h.allows
  obtain ⟨s, hs⟩ := hdelivered C (Nat.le_refl C)
  obtain ⟨_, hexchanged⟩ := inOrder hserving.reachable
  refine ⟨s, hs.reachable, fun i => hs.before i i.isLt, ?_⟩
  rw [hs.stdout, hexchanged.log, hserving.askers, hlastWords]
  rfl

/-- **What the parties can print**: the outputs are those which a possible history
explains. -/
theorem outputs_iff (clients : Fin C → Client) (copies : Bool) (o : Output C) :
    (∃ s : State C copies, (program clients copies).Reachable s ∧ s.output clients = o) ↔
      ∃ history : History C, history.Possible clients copies ∧ history.output clients = o := by
  constructor
  · rintro ⟨s, hreach, rfl⟩
    obtain ⟨_, hexchanged⟩ := inOrder hreach
    exact hexchanged.exists_history
  · rintro ⟨history, hpossible, rfl⟩
    obtain ⟨s, hreach, hclient, hstdout⟩ := hpossible.exists_run
    refine ⟨s, hreach, congr (congrArg Output.mk hstdout) (funext fun i => ?_)⟩
    rw [hclient i]
    exact Fate.output_pc (clients i) (history.fate i)

end UdpExchange
end SystemsCourse
