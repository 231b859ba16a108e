import SystemsCourse.ThreadedServer

/-!
# Who answers a connection of `threadedsvr.c`

From its accept to its close a connection belongs to one cell of the heap: to the one
that the accept loop is about to hand to a thread, then to the argument of that
thread (`answered_or_owned`).  A cell that is kept until the thread releases it may by
then hold a descriptor that refers to a later connection; it does not own that one.

So no connection is lost or answered twice, whatever the reads on the others return —
as long as the process runs.  A thread whose read fails, or that cannot print what it
has read, ends it for all of them (`not_isolated`).
-/
namespace SystemsCourse
namespace ThreadedServer
open MessageFraming

/-! ## A thread and its connection -/

/-- What a thread has done with its connection. -/
def HandlerPc.record : HandlerPc → Connection
  | .loadArg | .read _ _ | .errNDie _ .fputs | .write _ => ⟨0, 0, false⟩
  | .errNDie _ .read => ⟨0, 0, true⟩
  | .close _ => ⟨1, 0, false⟩
  | .free | .returned => ⟨1, 1, false⟩

/-- The `connectionfd` of `handle_connection`. -/
def HandlerPc.connectionfd : HandlerPc → Option Nat
  | .read fd _ | .errNDie fd _ | .write fd | .close fd => some fd
  | .loadArg | .free | .returned => none

/-- The thread has not closed its connection. -/
def HandlerPc.Serving : HandlerPc → Prop
  | .free | .returned => False
  | _ => True

/-- The thread has not released its argument. -/
def HandlerPc.Holding : HandlerPc → Prop
  | .returned => False
  | _ => True

theorem HandlerPc.Serving.holding {pc : HandlerPc} (h : pc.Serving) : pc.Holding := by
  cases pc <;> first | exact h | trivial

/-- The cell holds a descriptor that refers to connection `k`. -/
def State.Refers (s : State) (a k : Nat) : Prop :=
  ∃ fd, s.cell a = some fd ∧ s.file fd = some (.connection k)

variable {s s' : State} {h k a : Nat}

theorem State.Refers.unique {k' : Nat} (hk : s.Refers a k) (hk' : s.Refers a k') : k = k' := by
  obtain ⟨fd, hcell, hfile⟩ := hk
  obtain ⟨fd', hcell', hfile'⟩ := hk'
  cases hcell.symm.trans hcell'
  cases hfile.symm.trans hfile'
  rfl

/-! ## What a step of a thread leaves alone -/

theorem exists_onConnection (s : State) (fd : Nat) (f : Connection → Connection) :
    ∃ connection, s.onConnection fd f = { s with connection } := by
  unfold State.onConnection
  split
  · exact ⟨_, rfl⟩
  · exact ⟨s.connection, rfl⟩

/-- What a step of thread `h` leaves alone. -/
structure Untouched (s s' : State) (h : Nat) : Prop where
  main : s'.main = s.main
  accepted : s'.accepted = s.accepted
  created : s'.created = s.created
  handler : ∀ h' ≠ h, s'.handler h' = s.handler h'

/-- To go on is a step of the thread alone. -/
theorem untouched_goto {pc : HandlerPc} (hmain : s'.main = s.main)
    (hcount : s'.accepted = s.accepted ∧ s'.created = s.created) (hhandler : s'.handler = s.handler) :
    Untouched s (s'.goto h pc) h :=
  ⟨hmain, hcount.1, hcount.2, fun h' hh' => by
    rw [← hhandler]
    exact Function.update_of_ne hh' ..⟩

theorem untouched_of_handlerStep (hstep : HandlerStep s h s') :
    Untouched s s' h ∧ (s.handler h).pc.Holding := by
  have honConnection (fd : Nat) (f : Connection → Connection) (pc : HandlerPc) :
      Untouched s ((s.onConnection fd f).goto h pc) h := by
    obtain ⟨connection, he⟩ := exists_onConnection s fd f
    rw [he]
    exact untouched_goto rfl ⟨rfl, rfl⟩ rfl
  cases hstep with
  | loadArg pc | again pc | fputsFails pc | readEnds pc | free pc =>
    refine ⟨untouched_goto rfl ⟨rfl, rfl⟩ rfl, ?_⟩
    rw [pc]
    trivial
  | readFails pc | write pc =>
    refine ⟨honConnection .., ?_⟩
    rw [pc]
    trivial
  | errNDie pc =>
    refine ⟨⟨rfl, rfl, rfl, fun _ _ => rfl⟩, ?_⟩
    rw [pc]
    trivial
  | @close fd pc =>
    obtain ⟨connection, he⟩ := exists_onConnection s fd fun c => { c with closed := c.closed + 1 }
    refine ⟨?_, ?_⟩
    · rw [State.close, he]
      exact untouched_goto rfl ⟨rfl, rfl⟩ rfl
    · rw [pc]
      trivial

/-! ## The invariant -/

/-- Thread `h` serves connection `h`. -/
structure HandlerInv (s : State) (h : Nat) : Prop where
  record : s.connection h = (s.handler h).pc.record
  refers : (s.handler h).pc.Serving → s.Refers (s.handler h).arg h
  connectionfd : ∀ fd ∈ (s.handler h).pc.connectionfd, s.file fd = some (.connection h)
  allocated : (s.handler h).pc.Holding → s.cell (s.handler h).arg ≠ none

/-- What belongs to thread `h` is as before. -/
theorem HandlerInv.frame (hinv : HandlerInv s h) (hhandler : s'.handler h = s.handler h)
    (hconnection : s'.connection h = s.connection h)
    (hfile : ∀ fd, s.file fd = some (.connection h) → s'.file fd = some (.connection h))
    (hcell : (s.handler h).pc.Holding → s'.cell (s.handler h).arg = s.cell (s.handler h).arg) :
    HandlerInv s' h := by
  constructor
  · rw [hconnection, hhandler]
    exact hinv.record
  · intro hserving
    rw [hhandler] at hserving ⊢
    obtain ⟨fd, hfd, hk⟩ := hinv.refers hserving
    exact ⟨fd, (hcell hserving.holding).trans hfd, hfile fd hk⟩
  · intro fd hfd
    rw [hhandler] at hfd
    exact hfile fd (hinv.connectionfd fd hfd)
  · intro hholding
    rw [hhandler] at hholding ⊢
    rw [hcell hholding]
    exact hinv.allocated hholding

/-- Between the accept and the creation of the thread, the cell is the loop's own. -/
def MainInv (s : State) : Prop :=
  match s.main with
  | .pthreadCreate argptr =>
      s.accepted = s.created + 1 ∧ s.Refers argptr s.created ∧ s.connection s.created = .new ∧
        ∀ h < s.created, (s.handler h).pc.Holding → (s.handler h).arg ≠ argptr
  | .accept | .errNDie => s.accepted = s.created

/-- The process runs, or a read, a print or an accept has failed. -/
def ExitInv (s : State) : Prop :=
  s.died = none ∨ (s.died = some "read error" ∧ ∃ k < s.accepted, (s.connection k).failed = true) ∨
    (s.died = some "fputs error" ∧ ∃ h < s.created, ∃ fd, (s.handler h).pc = .errNDie fd .fputs) ∨
    (s.died = some "fatal error." ∧ s.main = .errNDie)

/-- **The server's invariant.** -/
structure Invariant (s : State) : Prop where
  main : MainInv s
  handlers : ∀ h < s.created, HandlerInv s h
  args : ∀ h < s.created, ∀ h' < s.created, (s.handler h).pc.Holding → (s.handler h').pc.Holding →
    (s.handler h).arg = (s.handler h').arg → h = h'
  exit : ExitInv s

theorem invariant_initial : Invariant initial where
  main := rfl
  handlers _ hh := absurd hh (Nat.not_lt_zero _)
  args _ hh := absurd hh (Nat.not_lt_zero _)
  exit := .inl rfl

theorem Invariant.created_le (hinv : Invariant s) : s.created ≤ s.accepted := by
  have hmain := hinv.main
  unfold MainInv at hmain
  split at hmain
  · rw [hmain.1]
    exact Nat.le_succ _
  · exact Nat.le_of_eq hmain.symm
  · exact Nat.le_of_eq hmain.symm

/-- What belongs to the threads does not depend on where `main` is, nor on `died`. -/
theorem Invariant.moveMain (hinv : Invariant s) {pc : MainPc} {died : Option String}
    (hmain : MainInv { s with main := pc, died := died })
    (hexit : ExitInv { s with main := pc, died := died }) :
    Invariant { s with main := pc, died := died } :=
  ⟨hmain, fun h hh => (hinv.handlers h hh).frame rfl rfl (fun _ => id) fun _ => rfl, hinv.args, hexit⟩

/-! ## The steps of `main` -/

/-- A connection gets a descriptor and a cell that nobody uses. -/
theorem Invariant.accept (hinv : Invariant s) (hdied : s.died = none) {fd argptr : Nat}
    (hpc : s.main = .accept) (hclosed : s.file fd = none) (hunallocated : s.cell argptr = none) :
    Invariant { s with
      main := .pthreadCreate argptr
      file := Function.update s.file fd (some (.connection s.accepted))
      cell := Function.update s.cell argptr (some fd)
      accepted := s.accepted + 1
      connection := Function.update s.connection s.accepted .new } := by
  have hcount : s.accepted = s.created := by
    have hmain := hinv.main
    rwa [MainInv, hpc] at hmain
  have hother : ∀ h < s.created, (s.handler h).pc.Holding → (s.handler h).arg ≠ argptr := by
    rintro h hh hholding rfl
    exact (hinv.handlers h hh).allocated hholding hunallocated
  refine ⟨⟨congrArg (· + 1) hcount, ⟨fd, ?_, ?_⟩, ?_, hother⟩, ?_, hinv.args, .inl hdied⟩
  · exact Function.update_self ..
  · show Function.update s.file fd _ fd = _
    rw [Function.update_self, hcount]
  · show Function.update s.connection s.accepted .new s.created = _
    rw [hcount, Function.update_self]
  · intro h hh
    refine (hinv.handlers h hh).frame rfl ?_ ?_ ?_
    · exact Function.update_of_ne (hcount ▸ Nat.ne_of_lt hh) ..
    · intro fd' hfd'
      have hne : fd' ≠ fd := by
        rintro rfl
        rw [hclosed] at hfd'
        cases hfd'
      exact (Function.update_of_ne hne ..).trans hfd'
    · intro hholding
      exact Function.update_of_ne (hother h hh hholding) ..

/-- The cell passes to the new thread. -/
theorem Invariant.pthreadCreate (hinv : Invariant s) (hdied : s.died = none) {argptr : Nat}
    (hpc : s.main = .pthreadCreate argptr) :
    Invariant { s with
      main := .accept
      created := s.created + 1
      handler := Function.update s.handler s.created ⟨argptr, .loadArg⟩ } := by
  have hmain := hinv.main
  rw [MainInv, hpc] at hmain
  obtain ⟨hcount, hrefers, hnew, hother⟩ := hmain
  refine ⟨hcount, ?_, ?_, .inl hdied⟩
  · intro h hh
    by_cases heq : h = s.created
    · subst heq
      obtain ⟨fd, hcell, hfile⟩ := hrefers
      constructor
      all_goals simp only [Function.update_self]
      · exact hnew
      · intro _
        exact ⟨fd, hcell, hfile⟩
      · nofun
      · intro _
        rw [hcell]
        nofun
    · have hlt : h < s.created := by
        have : h < s.created + 1 := hh
        omega
      exact (hinv.handlers h hlt).frame (Function.update_of_ne heq ..) rfl (fun _ => id) fun _ => rfl
  · intro h hh h' hh' hholding hholding' harg
    have hh : h < s.created + 1 := hh
    have hh' : h' < s.created + 1 := hh'
    by_cases heq : h = s.created
    · by_cases heq' : h' = s.created
      · rw [heq, heq']
      · simp only [heq, Function.update_self, Function.update_of_ne heq'] at harg hholding'
        exact absurd harg.symm (hother h' (by omega) hholding')
    · by_cases heq' : h' = s.created
      · simp only [heq', Function.update_self, Function.update_of_ne heq] at harg hholding
        exact absurd harg (hother h (by omega) hholding)
      · simp only [Function.update_of_ne heq, Function.update_of_ne heq'] at harg hholding hholding'
        exact hinv.args h (by omega) h' (by omega) hholding hholding' harg

theorem Invariant.mainStep (hinv : Invariant s) (hdied : s.died = none) (hstep : MainStep s s') :
    Invariant s' := by
  cases hstep with
  | accept pc closed unallocated => exact hinv.accept hdied pc closed unallocated
  | again pc => exact hinv
  | fatal pc =>
    have hmain := hinv.main
    rw [MainInv, pc] at hmain
    exact hinv.moveMain hmain (.inl hdied)
  | pthreadCreate pc => exact hinv.pthreadCreate hdied pc
  | errNDie pc =>
    exact hinv.moveMain hinv.main (.inr (.inr (.inr ⟨rfl, pc⟩)))

/-! ## The steps of a thread -/

/-- What thread `h` leaves alone: the connections, the descriptors and the cells of the
others. -/
structure Frame (s s' : State) (h : Nat) : Prop where
  died : s'.died = s.died
  main : s'.main = s.main
  accepted : s'.accepted = s.accepted
  created : s'.created = s.created
  handler : ∀ h' ≠ h, s'.handler h' = s.handler h'
  arg : (s'.handler h).arg = (s.handler h).arg
  connection : ∀ k ≠ h, s'.connection k = s.connection k
  file : ∀ fd, ∀ k ≠ h, s.file fd = some (.connection k) → s'.file fd = some (.connection k)
  cell : ∀ a ≠ (s.handler h).arg, s'.cell a = s.cell a

theorem Frame.mainInv (hframe : Frame s s' h) (hinv : Invariant s) (hh : h < s.created)
    (hholding : (s.handler h).pc.Holding) : MainInv s' := by
  have hmain := hinv.main
  unfold MainInv at hmain ⊢
  rw [hframe.main, hframe.accepted, hframe.created]
  split
  · rename_i argptr hpc
    rw [hpc] at hmain
    obtain ⟨hcount, ⟨fd, hcell, hfile⟩, hnew, hother⟩ := hmain
    have hne : s.created ≠ h := Nat.ne_of_gt hh
    refine ⟨hcount, ⟨fd, ?_, hframe.file fd _ hne hfile⟩, ?_, ?_⟩
    · rw [hframe.cell _ (hother h hh hholding).symm]
      exact hcell
    · rw [hframe.connection _ hne]
      exact hnew
    · intro h' hh' hholding'
      by_cases heq : h' = h
      · subst heq
        rw [hframe.arg]
        exact hother h' hh hholding
      · rw [hframe.handler h' heq] at hholding' ⊢
        exact hother h' hh' hholding'
  all_goals
    rename_i hpc
    rw [hpc] at hmain
    exact hmain

/-- **What a thread does to its own** keeps the invariant, if it keeps the thread's. -/
theorem Frame.invariant (hframe : Frame s s' h) (hinv : Invariant s) (hh : h < s.created)
    (hdied : s.died = none) (hholding : (s.handler h).pc.Holding) (hown : HandlerInv s' h) :
    Invariant s' := by
  have hholding_of : ∀ h', (s'.handler h').pc.Holding → (s.handler h').pc.Holding := by
    intro h' hholding'
    by_cases heq : h' = h
    · exact heq ▸ hholding
    · rwa [hframe.handler h' heq] at hholding'
  have harg_eq : ∀ h', (s'.handler h').arg = (s.handler h').arg := by
    intro h'
    by_cases heq : h' = h
    · exact heq ▸ hframe.arg
    · rw [hframe.handler h' heq]
  refine ⟨hframe.mainInv hinv hh hholding, ?_, ?_, .inl (hframe.died.trans hdied)⟩
  · intro h' hh'
    rw [hframe.created] at hh'
    by_cases heq : h' = h
    · exact heq ▸ hown
    · refine (hinv.handlers h' hh').frame (hframe.handler h' heq) (hframe.connection h' heq)
        (fun fd => hframe.file fd h' heq) ?_
      intro hholding'
      refine hframe.cell _ fun harg => heq ?_
      exact hinv.args h' hh' h hh hholding' hholding harg
  · intro h₁ hh₁ h₂ hh₂ hholding₁ hholding₂ harg
    rw [hframe.created] at hh₁ hh₂
    rw [harg_eq, harg_eq] at harg
    exact hinv.args h₁ hh₁ h₂ hh₂ (hholding_of h₁ hholding₁) (hholding_of h₂ hholding₂) harg

theorem Frame.refl (s : State) (h : Nat) : Frame s s h :=
  ⟨rfl, rfl, rfl, rfl, fun _ _ => rfl, rfl, fun _ _ => rfl, fun _ _ _ => id, fun _ _ => rfl⟩

theorem goto_handler_self (pc : HandlerPc) : (s.goto h pc).handler h = ⟨(s.handler h).arg, pc⟩ :=
  Function.update_self ..

theorem Frame.goto (hframe : Frame s s' h) (pc : HandlerPc) : Frame s (s'.goto h pc) h :=
  { hframe with
    handler h' heq := (Function.update_of_ne heq ..).trans (hframe.handler h' heq)
    arg := by
      rw [goto_handler_self]
      exact hframe.arg }

/-- A descriptor of connection `k` is used for that connection. -/
theorem onConnection_eq {fd : Nat} {f : Connection → Connection}
    (hfile : s.file fd = some (.connection k)) :
    s.onConnection fd f = { s with connection := Function.update s.connection k (f (s.connection k)) } := by
  rw [State.onConnection, hfile]

theorem frame_onConnection {fd : Nat} {f : Connection → Connection}
    (hfile : s.file fd = some (.connection h)) : Frame s (s.onConnection fd f) h := by
  rw [onConnection_eq hfile]
  exact { Frame.refl s h with connection _ heq := Function.update_of_ne heq .. }

theorem frame_close {fd : Nat} (hfile : s.file fd = some (.connection h)) : Frame s (s.close fd) h := by
  rw [State.close, onConnection_eq hfile]
  refine { Frame.refl s h with
    connection _ heq := Function.update_of_ne heq ..
    file fd' k heq hk := ?_ }
  have hne : fd' ≠ fd := by
    rintro rfl
    rw [hfile] at hk
    cases hk
    exact heq rfl
  exact (Function.update_of_ne hne ..).trans hk

theorem frame_free (s : State) (h : Nat) :
    Frame s { s with cell := Function.update s.cell (s.handler h).arg none } h :=
  { Frame.refl s h with cell _ heq := Function.update_of_ne heq .. }

/-- The thread goes on to `pc`. -/
theorem HandlerInv.goto {pc : HandlerPc} (hrecord : s.connection h = pc.record)
    (hrefers : pc.Serving → s.Refers (s.handler h).arg h)
    (hconnectionfd : ∀ fd ∈ pc.connectionfd, s.file fd = some (.connection h))
    (hallocated : pc.Holding → s.cell (s.handler h).arg ≠ none) : HandlerInv (s.goto h pc) h := by
  constructor
  all_goals rw [goto_handler_self]
  · exact hrecord
  · exact hrefers
  · exact hconnectionfd
  · exact hallocated

/-- A thread that goes on to `pc` does something with its connection before. -/
theorem Invariant.onConnection (hinv : Invariant s) (hh : h < s.created) (hdied : s.died = none)
    (hserving : (s.handler h).pc.Serving) {fd : Nat} (hfile : s.file fd = some (.connection h))
    {f : Connection → Connection} {pc : HandlerPc} (hrecord : f (s.handler h).pc.record = pc.record)
    (hpc : pc.connectionfd = some fd) : Invariant ((s.onConnection fd f).goto h pc) := by
  have hown := hinv.handlers h hh
  refine ((frame_onConnection hfile).goto pc).invariant hinv hh hdied hserving.holding ?_
  rw [onConnection_eq hfile]
  refine .goto ?_ (fun _ => hown.refers hserving) ?_ fun _ => hown.allocated hserving.holding
  · show Function.update s.connection h _ h = _
    rw [Function.update_self, hown.record, hrecord]
  · intro fd' hfd'
    rw [hpc] at hfd'
    cases hfd'
    exact hfile

/-- A thread goes on to `pc`, and has done nothing with its connection. -/
theorem Invariant.goto (hinv : Invariant s) (hh : h < s.created) (hdied : s.died = none)
    (hserving : (s.handler h).pc.Serving) {fd : Nat} (hfile : s.file fd = some (.connection h))
    {pc : HandlerPc} (hrecord : (s.handler h).pc.record = pc.record) (hpc : pc.connectionfd = some fd) :
    Invariant (s.goto h pc) := by
  have hsame : s.onConnection fd id = s := by
    rw [onConnection_eq hfile, id, Function.update_eq_self]
  rw [← hsame]
  exact hinv.onConnection hh hdied hserving hfile hrecord hpc

theorem Invariant.close (hinv : Invariant s) (hh : h < s.created) (hdied : s.died = none) {fd : Nat}
    (hpc : (s.handler h).pc = .close fd) : Invariant ((s.close fd).goto h .free) := by
  have hown := hinv.handlers h hh
  have hfile : s.file fd = some (.connection h) := by
    apply hown.connectionfd
    rw [hpc]
    rfl
  have hholding : (s.handler h).pc.Holding := by
    rw [hpc]
    trivial
  refine ((frame_close hfile).goto .free).invariant hinv hh hdied hholding ?_
  rw [State.close, onConnection_eq hfile]
  refine .goto ?_ nofun nofun fun _ => hown.allocated hholding
  show Function.update s.connection h _ h = _
  rw [Function.update_self, hown.record, hpc]
  rfl

theorem Invariant.free (hinv : Invariant s) (hh : h < s.created) (hdied : s.died = none)
    (hpc : (s.handler h).pc = .free) :
    Invariant ({ s with cell := Function.update s.cell (s.handler h).arg none }.goto h .returned) := by
  have hrecord := (hinv.handlers h hh).record
  have hholding : (s.handler h).pc.Holding := by
    rw [hpc]
    trivial
  refine ((frame_free s h).goto .returned).invariant hinv hh hdied hholding ?_
  refine .goto ?_ nofun nofun nofun
  rw [hpc] at hrecord
  exact hrecord

/-- A thread that cannot read or print ends the process. -/
theorem Invariant.errNDie (hinv : Invariant s) (hh : h < s.created) {fd : Nat} {call : FailedCall}
    (hpc : (s.handler h).pc = .errNDie fd call) : Invariant { s with died := some call.fmt } := by
  refine hinv.moveMain hinv.main (.inr ?_)
  cases call with
  | read =>
    have hfailed : (s.connection h).failed = true := by
      rw [(hinv.handlers h hh).record, hpc]
      rfl
    have haccepted : h < s.accepted := Nat.lt_of_lt_of_le hh hinv.created_le
    exact .inl ⟨rfl, h, haccepted, hfailed⟩
  | fputs => exact .inr (.inl ⟨rfl, h, hh, fd, hpc⟩)

theorem Invariant.handlerStep (hinv : Invariant s) (hh : h < s.created) (hdied : s.died = none)
    (hstep : HandlerStep s h s') : Invariant s' := by
  have hown := hinv.handlers h hh
  have hconnectionfd := hown.connectionfd
  cases hstep with
  | loadArg pc cell =>
    have hserving : (s.handler h).pc.Serving := by
      rw [pc]
      trivial
    obtain ⟨fd, hcell, hfile⟩ := hown.refers hserving
    cases cell.symm.trans hcell
    exact hinv.goto hh hdied hserving hfile (by rw [pc]; rfl) rfl
  | again pc | fputsFails pc | readEnds pc =>
    rw [pc] at hconnectionfd
    refine hinv.goto hh hdied ?_ (hconnectionfd _ rfl) ?_ rfl
    all_goals
      rw [pc]
      trivial
  | readFails pc | write pc =>
    rw [pc] at hconnectionfd
    refine hinv.onConnection hh hdied ?_ (hconnectionfd _ rfl) ?_ rfl
    all_goals
      rw [pc]
      trivial
  | errNDie pc => exact hinv.errNDie hh pc
  | close pc => exact hinv.close hh hdied pc
  | free pc _ => exact hinv.free hh hdied pc

/-! ## Runs -/

/-- **The invariant holds in every reachable state.** -/
theorem invariant (h : program.Reachable s) : Invariant s := by
  refine h.invariant invariant_initial ?_
  intro s a s' hinv hstep
  have hdied := died_of_step hstep
  cases step_cases hstep with
  | main hstep => exact hinv.mainStep hdied hstep
  | handler hh hstep => exact hinv.handlerStep hh hdied hstep

/-- Every read is into the whole array. -/
theorem length_recvline (hreach : program.Reachable s) (hh : h < s.created) {fd : Nat} {st : Reading}
    (hpc : (s.handler h).pc = .read fd st) : st.recvline.length = maxLine + 1 := by
  have hstep (s : State) (a : Action) (s' : State)
      (hs : ∀ h < s.created, ∀ fd st, (s.handler h).pc = .read fd st → st.recvline.length = maxLine + 1)
      (hstep : step s a = some s') :
      ∀ h < s'.created, ∀ fd st, (s'.handler h).pc = .read fd st → st.recvline.length = maxLine + 1 := by
    intro k hk fd st hpc
    cases step_cases hstep with
    | main hmain =>
      cases hmain with
      | pthreadCreate =>
        by_cases he : k = s.created
        · simp only [he, Function.update_self] at hpc
          cases hpc
        · simp only [Function.update_of_ne he] at hpc
          exact hs k (Nat.lt_of_le_of_ne (Nat.le_of_lt_succ hk) he) fd st hpc
      | _ => exact hs k hk fd st hpc
    | @handler h _ hh hhandler =>
      have huntouched := (untouched_of_handlerStep hhandler).1
      rw [huntouched.created] at hk
      by_cases he : k = h
      · subst he
        cases hhandler with
        | errNDie => exact hs k hk fd st hpc
        | again hold pass =>
          rw [goto_handler_self] at hpc
          cases hpc
          exact length_of_again (hs k hk _ _ hold) pass
        | loadArg =>
          rw [goto_handler_self] at hpc
          cases hpc
          exact length_start
        | _ =>
          rw [goto_handler_self] at hpc
          cases hpc
      · rw [huntouched.handler k he] at hpc
        exact hs k hk fd st hpc
  exact hreach.invariant (fun _ hh => absurd hh (Nat.not_lt_zero _)) hstep h hh fd st hpc

/-- Who can own a cell. -/
inductive Holder where
  | main
  | handler (h : Nat)

/-- The holder has the cell, to serve connection `k` with it. -/
def Owns (s : State) (k : Nat) : Holder → Nat → Prop
  | .main, a => s.main = .pthreadCreate a ∧ s.Refers a k
  | .handler h, a =>
      h < s.created ∧ (s.handler h).pc.Serving ∧ (s.handler h).arg = a ∧ s.Refers a k

/-- Exactly one holder owns the connection, with exactly one cell. -/
def Owned (s : State) (k : Nat) : Prop := ∃! o : Holder × Nat, Owns s k o.1 o.2

/-- A thread owns its own connection and no other. -/
theorem Invariant.eq_of_owns_handler (hinv : Invariant s) (howns : Owns s k (.handler h) a) :
    h = k ∧ a = (s.handler h).arg := by
  obtain ⟨hh, hserving, rfl, hrefers⟩ := howns
  exact ⟨((hinv.handlers h hh).refers hserving).unique hrefers, rfl⟩

/-- The accept loop owns the connection for which there is no thread yet. -/
theorem Invariant.eq_of_owns_main (hinv : Invariant s) (howns : Owns s k .main a) :
    k = s.created ∧ s.main = .pthreadCreate a := by
  obtain ⟨hpc, hrefers⟩ := howns
  have hmain := hinv.main
  rw [MainInv, hpc] at hmain
  exact ⟨hrefers.unique hmain.2.1, hpc⟩

/-- The connection for which the loop is about to create a thread. -/
theorem Invariant.owned_created (hinv : Invariant s) (hpc : s.main = .pthreadCreate a) :
    Owned s s.created := by
  have hmain := hinv.main
  rw [MainInv, hpc] at hmain
  refine ⟨(.main, a), ⟨hpc, hmain.2.1⟩, ?_⟩
  rintro ⟨holder, a'⟩ howns
  cases holder with
  | main =>
    obtain ⟨-, hpc'⟩ := hinv.eq_of_owns_main howns
    cases hpc.symm.trans hpc'
    rfl
  | handler h =>
    obtain ⟨rfl, -⟩ := hinv.eq_of_owns_handler howns
    exact absurd howns.1 (Nat.lt_irrefl _)

/-- A connection that its thread has not closed. -/
theorem Invariant.owned_of_serving (hinv : Invariant s) (hk : k < s.created)
    (hserving : (s.handler k).pc.Serving) : Owned s k := by
  have howns : Owns s k (.handler k) (s.handler k).arg :=
    ⟨hk, hserving, rfl, (hinv.handlers k hk).refers hserving⟩
  refine ⟨(.handler k, (s.handler k).arg), howns, ?_⟩
  rintro ⟨holder, a⟩ howns
  cases holder with
  | main =>
    obtain ⟨rfl, -⟩ := hinv.eq_of_owns_main howns
    exact absurd hk (Nat.lt_irrefl _)
  | handler h =>
    obtain ⟨rfl, rfl⟩ := hinv.eq_of_owns_handler howns
    rfl

/-- A response has been written to the connection, once, and it has been closed once. -/
def Connection.AnsweredAndClosed (c : Connection) : Prop := c.written = 1 ∧ c.closed = 1

theorem HandlerPc.answered_or_serving (pc : HandlerPc) :
    pc.record.AnsweredAndClosed ∨ (pc.record.closed = 0 ∧ pc.Serving) := by
  cases pc with
  | free | returned => exact .inl ⟨rfl, rfl⟩
  | errNDie fd call => cases call <;> exact .inr ⟨rfl, trivial⟩
  | loadArg | read | write | close => exact .inr ⟨rfl, trivial⟩

theorem Invariant.closed_or_owned (hinv : Invariant s) (hk : k < s.accepted) :
    (s.connection k).AnsweredAndClosed ∨ ((s.connection k).closed = 0 ∧ Owned s k) := by
  by_cases hcreated : k < s.created
  · rw [(hinv.handlers k hcreated).record]
    exact (s.handler k).pc.answered_or_serving.imp_right
      (And.imp_right (hinv.owned_of_serving hcreated))
  · have hmain := hinv.main
    unfold MainInv at hmain
    split at hmain
    · rename_i argptr hpc
      obtain ⟨hcount, -, hnew, -⟩ := hmain
      obtain rfl : k = s.created := by omega
      rw [hnew]
      exact .inr ⟨rfl, hinv.owned_created hpc⟩
    all_goals omega

/-- **No connection is lost or answered twice.**  Whatever the reads return, a
connection none of whose reads has failed has been answered and closed, once, or is
open and owned by exactly one cell; and the process runs, unless the read on some
connection, the printing of what a thread has read, or an accept has failed. -/
theorem answered_or_owned (h : program.Reachable s) :
    (∀ k < s.accepted, (s.connection k).failed = false →
      (s.connection k).AnsweredAndClosed ∨ ((s.connection k).closed = 0 ∧ Owned s k)) ∧
    (s.died = none ∨
      (s.died = some "read error" ∧ ∃ k < s.accepted, (s.connection k).failed = true) ∨
      (s.died = some "fputs error" ∧ ∃ h < s.created, ∃ fd, (s.handler h).pc = .errNDie fd .fputs) ∨
      (s.died = some "fatal error." ∧ s.main = .errNDie)) :=
  ⟨fun _ hk _ => (invariant h).closed_or_owned hk, (invariant h).exit⟩

/-- The first connection has been closed, and its descriptor is the second one's. -/
theorem answered_or_owned_reused : ∃ s, program.Reachable s ∧ s.accepted = 2 ∧
    (s.handler 0).pc = .free ∧ s.cell (s.handler 0).arg = some 4 ∧ s.file 4 = some (.connection 1) ∧
    (∀ k < s.accepted, (s.connection k).failed = false →
      (s.connection k).AnsweredAndClosed ∨ ((s.connection k).closed = 0 ∧ Owned s k)) ∧
    (s.died = none ∨
      (s.died = some "read error" ∧ ∃ k < s.accepted, (s.connection k).failed = true) ∨
      (s.died = some "fputs error" ∧ ∃ h < s.created, ∃ fd, (s.handler h).pc = .errNDie fd .fputs) ∨
      (s.died = some "fatal error." ∧ s.main = .errNDie)) := by
  have hrun : (program.run initial [.accept 4 0, .main, .handler 0, .read 0 (.bytes []), .handler 0,
      .handler 0, .accept 4 1]).isSome := rfl
  obtain ⟨s, hs⟩ := Option.isSome_iff_exists.mp hrun
  have hstate : s.accepted = 2 ∧ (s.handler 0).pc = .free ∧ s.cell (s.handler 0).arg = some 4 ∧
      s.file 4 = some (.connection 1) := by
    cases hs
    exact ⟨rfl, rfl, rfl, rfl⟩
  obtain ⟨haccepted, hpc, hcell, hfile⟩ := hstate
  exact ⟨s, ⟨_, hs⟩, haccepted, hpc, hcell, hfile, answered_or_owned ⟨_, hs⟩⟩

/-- **A failed read is not confined to its connection**: the thread of connection 0
ends the process, and connection 1 is not answered. -/
theorem not_isolated : ∃ s, program.Reachable s ∧ s.accepted = 2 ∧ s.created = 2 ∧
    (s.connection 1).failed = false ∧ (s.connection 1).written = 0 ∧ s.died = some "read error" ∧
    ¬ ((s.connection 1).AnsweredAndClosed ∨ (Owned s 1 ∧ s.died = none)) := by
  have hrun : (program.run initial [.accept 4 0, .main, .accept 5 1, .main, .handler 0,
      .read 0 .error, .handler 0]).isSome := rfl
  obtain ⟨s, hs⟩ := Option.isSome_iff_exists.mp hrun
  have hstate : s.accepted = 2 ∧ s.created = 2 ∧ (s.connection 1).failed = false ∧
      (s.connection 1).written = 0 ∧ s.died = some "read error" := by
    cases hs
    exact ⟨rfl, rfl, rfl, rfl, rfl⟩
  obtain ⟨haccepted, hcreated, hfailed, hwritten, hdied⟩ := hstate
  refine ⟨s, ⟨_, hs⟩, haccepted, hcreated, hfailed, hwritten, hdied, ?_⟩
  rintro (⟨hanswered, -⟩ | ⟨-, hrunning⟩)
  · rw [hwritten] at hanswered
    cases hanswered
  · rw [hdied] at hrunning
    cases hrunning

end ThreadedServer
end SystemsCourse
