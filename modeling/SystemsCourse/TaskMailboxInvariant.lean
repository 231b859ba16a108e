import SystemsCourse.TaskMailbox

/-!
# The invariant of `conditionex.c`

What a thread has seen of `busy` stays true while it is inside its critical section
(`Knows`), because nobody else is inside then.  What has been accepted is what has
been handled and what is still in the slot (`history`); the slot is read off the two
fields of `workertask`, except between the two steps in which a submitter fills them
and the two in which the worker empties them.  And while the worker is blocked with
`busy` set, the submitter that has set it has not signalled yet (`signal`): the
worker blocks only after it has found `busy` false under the lock, and the submitter
sets it under the lock, hence before or after the two steps but not between them.
-/
namespace SystemsCourse
namespace TaskMailbox

variable {T : Nat} {s s' : State T}

/-! ## Who is inside -/

/-- The worker is in its critical section; inside `pthread_cond_wait` it is not. -/
def WorkerPc.Locked : WorkerPc → Prop
  | .lock => False
  | .blocked => False
  | .reacquire => False
  | _ => True

/-- The submitter is in its critical section. -/
def SubmitterPc.Locked : SubmitterPc → Prop
  | .idle => False
  | .lock _ => False
  | .condSignal _ => False
  | _ => True

/-- A party is in its critical section. -/
def State.Inside (s : State T) : Party T → Prop
  | .worker => s.worker.Locked
  | .submitter i => (s.submitter i).Locked

theorem WorkerPc.locked_wake (pc : WorkerPc) : pc.wake.Locked ↔ pc.Locked := by
  cases pc <;> exact Iff.rfl

/-- The worker's step leaves the submitters where they are. -/
theorem others_of_worker (hsubmitter : s'.submitter = s.submitter) (p : Party T)
    (hp : p ≠ .worker) : s'.Inside p ↔ s.Inside p := by
  cases p with
  | worker => exact absurd rfl hp
  | submitter j =>
    show (s'.submitter j).Locked ↔ (s.submitter j).Locked
    rw [hsubmitter]

/-- The parties of a submitter's step: the submitter itself, and the others, which
it leaves where they are but for the wakeup. -/
theorem inside_of_submitter {i : Fin T} {pc : SubmitterPc}
    (hsubmitter : s'.submitter = Function.update s.submitter i pc)
    (hworker : s'.worker.Locked ↔ s.worker.Locked) : (s'.Inside (.submitter i) ↔ pc.Locked) ∧
      ∀ p, p ≠ .submitter i → (s'.Inside p ↔ s.Inside p) := by
  refine ⟨?_, fun p hp => ?_⟩
  · show (s'.submitter i).Locked ↔ pc.Locked
    rw [hsubmitter, Function.update_self]
  · cases p with
    | worker => exact hworker
    | submitter j =>
      have hji : j ≠ i := fun he => hp (congrArg Party.submitter he)
      show (s'.submitter j).Locked ↔ (s.submitter j).Locked
      rw [hsubmitter, Function.update_of_ne hji]

theorem inside_submitter_iff {i : Fin T} {pc : SubmitterPc} (hpc : s.submitter i = pc) :
    s.Inside (.submitter i) ↔ pc.Locked := by
  rw [← hpc]
  exact Iff.rfl

theorem lockHeld_initial : LockHeld (initial T).owner (initial T).Inside :=
  .free fun p => by cases p <;> exact id

theorem lockHeld_workerStep (h : LockHeld s.owner s.Inside) (hstep : WorkerStep s s') :
    LockHeld s'.owner s'.Inside := by
  have inside {pc : WorkerPc} (hpc : s.worker = pc) (hlocked : pc.Locked) : s.Inside .worker := by
    show s.worker.Locked
    rwa [hpc]
  have stays {s' : State T} (howner : s'.owner = s.owner) (hsubmitter : s'.submitter = s.submitter)
      (hin : s.Inside .worker) (hin' : s'.worker.Locked) : LockHeld s'.owner s'.Inside := by
    rw [howner]
    exact h.stay (i := .worker) (iff_of_true hin' hin) (others_of_worker hsubmitter)
  cases hstep with
  | lock _ free | reacquire _ free =>
    rw [free] at h
    exact h.acquire trivial (others_of_worker rfl)
  | task pc _ | noTask pc _ | printfileinfo pc | clearBusy pc =>
    exact stays rfl rfl (inside pc trivial) trivial
  | condWait pc | unlock pc => exact h.release (inside pc trivial) id (others_of_worker rfl)

theorem submitter_enters (h : LockHeld none s.Inside) {i : Fin T} {pc : SubmitterPc}
    (hsubmitter : s'.submitter = Function.update s.submitter i pc) (hworker : s'.worker = s.worker)
    (hlocked : pc.Locked) : LockHeld (some (.submitter i)) s'.Inside := by
  obtain ⟨hself, hothers⟩ := inside_of_submitter hsubmitter (by rw [hworker])
  exact h.acquire (hself.mpr hlocked) hothers

theorem submitter_stays (h : LockHeld s.owner s.Inside) {i : Fin T} {pc pc' : SubmitterPc}
    (hpc : s.submitter i = pc) (howner : s'.owner = s.owner)
    (hsubmitter : s'.submitter = Function.update s.submitter i pc')
    (hworker : s'.worker.Locked ↔ s.worker.Locked) (hlocked : pc'.Locked ↔ pc.Locked) :
    LockHeld s'.owner s'.Inside := by
  obtain ⟨hself, hothers⟩ := inside_of_submitter hsubmitter hworker
  rw [howner]
  exact h.stay (hself.trans (hlocked.trans (inside_submitter_iff hpc).symm)) hothers

theorem submitter_leaves (h : LockHeld s.owner s.Inside) {i : Fin T} {pc pc' : SubmitterPc}
    (hpc : s.submitter i = pc) (howner : s'.owner = none)
    (hsubmitter : s'.submitter = Function.update s.submitter i pc')
    (hworker : s'.worker = s.worker) (hlocked : pc.Locked) (hlocked' : ¬ pc'.Locked) :
    LockHeld s'.owner s'.Inside := by
  obtain ⟨hself, hothers⟩ := inside_of_submitter hsubmitter (by rw [hworker])
  rw [howner]
  exact h.release ((inside_submitter_iff hpc).mpr hlocked) (fun hin => hlocked' (hself.mp hin)) hothers

theorem lockHeld_produceWorkStep (h : LockHeld s.owner s.Inside) {i : Fin T}
    (hstep : ProduceWorkStep s i s') : LockHeld s'.owner s'.Inside := by
  cases hstep with
  | lock pc free =>
    rw [free] at h
    exact submitter_enters h rfl rfl trivial
  | refuse pc _ | accept pc _ | setBusy pc | setFilename pc =>
    exact submitter_stays h pc rfl rfl Iff.rfl Iff.rfl
  | giveUp pc | unlock pc => exact submitter_leaves h pc rfl rfl rfl trivial id
  | condSignal pc => exact submitter_stays h pc rfl rfl s.worker.locked_wake Iff.rfl

theorem lockHeld_step (h : LockHeld s.owner s.Inside) (hstep : Step s s') :
    LockHeld s'.owner s'.Inside := by
  cases hstep with
  | worker step => exact lockHeld_workerStep h step
  | spuriousWakeup pc =>
    have hout : ¬ s.Inside .worker := by
      show ¬ s.worker.Locked
      rw [pc]
      exact id
    exact h.stay (iff_of_false id hout) (others_of_worker rfl)
  | call filename pc => exact submitter_stays h pc rfl rfl Iff.rfl Iff.rfl
  | submitter step => exact lockHeld_produceWorkStep h step

/-! ## What a thread has seen -/

/-- What the worker knows of `busy`. -/
def WorkerPc.Knows (busy : Bool) : WorkerPc → Prop
  | .printfileinfo => busy = true
  | .clearBusy => busy = true
  | .condWait => busy = false
  | _ => True

/-- What a submitter knows of `busy`, and of the number of its task. -/
def SubmitterPc.Knows (busy : Bool) (accepted : Nat) : SubmitterPc → Prop
  | .setBusy _ task => busy = false ∧ accepted = task + 1
  | .setFilename _ task => busy = true ∧ accepted = task + 1
  | .unlock task => busy = true ∧ accepted = task + 1
  | _ => True

/-- Everybody's knowledge is true. -/
structure Known (s : State T) : Prop where
  worker : s.worker.Knows s.busy
  submitter : ∀ i, (s.submitter i).Knows s.busy s.accepted.length

theorem WorkerPc.knows_of_not_locked {pc : WorkerPc} (h : ¬ pc.Locked) (busy : Bool) :
    pc.Knows busy := by
  cases pc with
  | lock => trivial
  | blocked => trivial
  | reacquire => trivial
  | _ => exact absurd trivial h

theorem SubmitterPc.knows_of_not_locked {pc : SubmitterPc} (h : ¬ pc.Locked) (busy : Bool)
    (accepted : Nat) : pc.Knows busy accepted := by
  cases pc with
  | idle => trivial
  | lock filename => trivial
  | condSignal task => trivial
  | _ => exact absurd trivial h

theorem WorkerPc.knows_wake {pc : WorkerPc} {busy : Bool} (h : pc.Knows busy) :
    pc.wake.Knows busy := by
  cases pc with
  | blocked => trivial
  | _ => exact h

/-- While one party is inside, the others know nothing. -/
theorem submitter_knows (h : LockHeld s.owner s.Inside) {p : Party T} (hp : s.Inside p) {j : Fin T}
    (hj : Party.submitter j ≠ p) (busy : Bool) (accepted : Nat) :
    (s.submitter j).Knows busy accepted :=
  SubmitterPc.knows_of_not_locked (fun hin => hj (h.unique hin hp)) busy accepted

theorem worker_knows (h : LockHeld s.owner s.Inside) {i : Fin T} (hi : s.Inside (.submitter i))
    (busy : Bool) : s.worker.Knows busy := by
  refine WorkerPc.knows_of_not_locked (fun hin => ?_) busy
  have : Party.worker = Party.submitter i := h.unique hin hi
  cases this

theorem known_initial : Known (initial T) := ⟨trivial, fun _ => trivial⟩

theorem Known.workerStep (h : Known s) (hl : LockHeld s.owner s.Inside) (hstep : WorkerStep s s') :
    Known s' := by
  cases hstep with
  | lock _ _ | condWait _ | reacquire _ _ | unlock _ => exact ⟨trivial, h.submitter⟩
  | task _ busy | noTask _ busy => exact ⟨busy, h.submitter⟩
  | printfileinfo pc =>
    refine ⟨?_, h.submitter⟩
    have := h.worker
    rwa [pc] at this
  | clearBusy pc =>
    have hin : s.Inside .worker := by
      show s.worker.Locked
      rw [pc]
      trivial
    exact ⟨trivial, fun j => submitter_knows (j := j) hl hin nofun false s.accepted.length⟩

/-- A submitter's step keeps what is known if it is true of its new program counter
and the others' knowledge is not touched. -/
theorem Known.move {i : Fin T} {pc : SubmitterPc}
    (hsubmitter : s'.submitter = Function.update s.submitter i pc)
    (hworker : s'.worker.Knows s'.busy) (hself : pc.Knows s'.busy s'.accepted.length)
    (hothers : ∀ j, j ≠ i → (s.submitter j).Knows s'.busy s'.accepted.length) : Known s' := by
  refine ⟨hworker, fun j => ?_⟩
  rw [hsubmitter]
  by_cases hj : j = i
  · rw [hj, Function.update_self]
    exact hself
  · rw [Function.update_of_ne hj]
    exact hothers j hj

theorem Known.produceWorkStep (h : Known s) (hl : LockHeld s.owner s.Inside) {i : Fin T}
    (hstep : ProduceWorkStep s i s') : Known s' := by
  have hself := h.submitter i
  have others (hin : s.Inside (.submitter i)) (busy : Bool) (accepted : Nat) (j : Fin T) (hj : j ≠ i) :
      (s.submitter j).Knows busy accepted :=
    submitter_knows hl hin (fun he => hj (Party.submitter.inj he)) busy accepted
  have same (j : Fin T) (_ : j ≠ i) := h.submitter j
  cases hstep with
  | lock _ _ | refuse _ _ | giveUp _ | unlock _ => exact .move rfl h.worker trivial same
  | @accept filename pc busy =>
    have hin := (inside_submitter_iff pc).mpr trivial
    exact .move rfl (worker_knows hl hin _) ⟨busy, List.length_append⟩ (others hin _ _)
  | setBusy pc =>
    have hin := (inside_submitter_iff pc).mpr trivial
    rw [pc] at hself
    exact .move rfl (worker_knows hl hin _) ⟨rfl, hself.2⟩ (others hin _ _)
  | setFilename pc =>
    rw [pc] at hself
    exact .move rfl h.worker hself same
  | condSignal pc => exact .move rfl (WorkerPc.knows_wake h.worker) trivial same

theorem Known.step (h : Known s) (hl : LockHeld s.owner s.Inside) (hstep : Step s s') :
    Known s' := by
  cases hstep with
  | worker step => exact h.workerStep hl step
  | spuriousWakeup pc => exact ⟨trivial, h.submitter⟩
  | call filename pc => exact .move rfl h.worker trivial fun j _ => h.submitter j
  | submitter step => exact h.produceWorkStep hl step

/-! ## What is in the slot -/

/-- What the worker has still to handle, if it is inside and the fields of
`workertask` say `fields`. -/
def WorkerPc.slot (fields : List (Option String)) : WorkerPc → List (Option String)
  | .clearBusy => []
  | _ => fields

/-- What a submitter that is inside leaves in the slot. -/
def SubmitterPc.slot (fields : List (Option String)) : SubmitterPc → List (Option String)
  | .setBusy filename _ => [some filename]
  | .setFilename filename _ => [some filename]
  | _ => fields

/-- What the fields of `workertask` say. -/
def State.fields (s : State T) : List (Option String) := if s.busy then [s.filename] else []

/-- The tasks in the slot: what the fields say, unless the owner of the lock is
between two accesses to them. -/
def State.slot (s : State T) : List (Option String) :=
  match s.owner with
  | none => s.fields
  | some .worker => s.worker.slot s.fields
  | some (.submitter i) => (s.submitter i).slot s.fields

theorem slot_of_free (howner : s.owner = none) : s.slot = s.fields := by
  rw [State.slot, howner]

theorem slot_of_worker {pc : WorkerPc} (howner : s.owner = some .worker) (hpc : s.worker = pc) :
    s.slot = pc.slot s.fields := by
  rw [State.slot, howner, ← hpc]

theorem slot_of_submitter {i : Fin T} {pc : SubmitterPc} (howner : s.owner = some (.submitter i))
    (hpc : s.submitter i = pc) : s.slot = pc.slot s.fields := by
  rw [State.slot, howner, ← hpc]

theorem WorkerPc.slot_wake (pc : WorkerPc) (fields : List (Option String)) :
    pc.wake.slot fields = pc.slot fields := by
  cases pc <;> rfl

theorem SubmitterPc.slot_update {c : Fin T → SubmitterPc} {i : Fin T} {pc pc' : SubmitterPc}
    (hpc : c i = pc) (hslot : ∀ fields, pc'.slot fields = pc.slot fields) (j : Fin T)
    (fields : List (Option String)) :
    (Function.update c i pc' j).slot fields = (c j).slot fields := by
  by_cases hj : j = i
  · rw [hj, Function.update_self, hslot, hpc]
  · rw [Function.update_of_ne hj]

/-- What has been accepted has been handled or is in the slot. -/
def State.Conserved (s : State T) : Prop := s.accepted.map some = s.handled ++ s.slot

theorem conserved_initial : (initial T).Conserved := rfl

/-- A step of a thread that is outside and stays there leaves the slot alone. -/
theorem State.Conserved.outside (h : s.Conserved)
    (hrest : s'.owner = s.owner ∧ s'.busy = s.busy ∧ s'.filename = s.filename ∧
      s'.accepted = s.accepted ∧ s'.handled = s.handled)
    (hworker : ∀ fields, s'.worker.slot fields = s.worker.slot fields)
    (hsubmitter : ∀ i fields, (s'.submitter i).slot fields = (s.submitter i).slot fields) :
    s'.Conserved := by
  obtain ⟨howner, hbusy, hfilename, haccepted, hhandled⟩ := hrest
  have hfields : s'.fields = s.fields := by
    unfold State.fields
    rw [hbusy, hfilename]
  have hslot : s'.slot = s.slot := by
    unfold State.slot
    rw [howner, hfields]
    cases s.owner with
    | none => rfl
    | some p =>
      cases p with
      | worker => exact hworker s.fields
      | submitter i => exact hsubmitter i s.fields
  unfold State.Conserved
  rw [haccepted, hhandled, hslot]
  exact h

theorem conserved_workerStep (h : s.Conserved) (hl : LockHeld s.owner s.Inside) (hk : Known s)
    (hstep : WorkerStep s s') : s'.Conserved := by
  have slot {pc : WorkerPc} (hpc : s.worker = pc) (hlocked : pc.Locked) :
      s.owner = some .worker ∧ s.accepted.map some = s.handled ++ pc.slot s.fields := by
    have hin : s.Inside .worker := by
      show s.worker.Locked
      rwa [hpc]
    rw [← slot_of_worker (hl.owner_eq hin) hpc]
    exact ⟨hl.owner_eq hin, h⟩
  have inside {s' : State T} {pc : WorkerPc} (howner : s'.owner = some .worker)
      (hworker : s'.worker = pc) (hslot : s'.accepted.map some = s'.handled ++ pc.slot s'.fields) :
      s'.Conserved := by
    unfold State.Conserved
    rw [slot_of_worker howner hworker]
    exact hslot
  have free (hfree : s.owner = none) : s.accepted.map some = s.handled ++ s.fields := by
    rw [← slot_of_free hfree]
    exact h
  have hknows := hk.worker
  cases hstep with
  | lock _ hfree | reacquire _ hfree => exact free hfree
  | task pc _ | noTask pc _ | clearBusy pc =>
    obtain ⟨howner, hslot⟩ := slot pc trivial
    exact inside howner rfl hslot
  | printfileinfo pc =>
    -- what the fields say has been handled
    obtain ⟨howner, hslot⟩ := slot pc trivial
    refine inside howner rfl ?_
    rw [pc] at hknows
    show s.accepted.map some = (s.handled ++ [s.filename]) ++ []
    rw [List.append_nil, ← show s.fields = [s.filename] from if_pos hknows]
    exact hslot
  | condWait pc | unlock pc => exact (slot pc trivial).2

theorem conserved_produceWorkStep (h : s.Conserved) (hl : LockHeld s.owner s.Inside) (hk : Known s)
    {i : Fin T} (hstep : ProduceWorkStep s i s') : s'.Conserved := by
  have slot {pc : SubmitterPc} (hpc : s.submitter i = pc) (hlocked : pc.Locked) :
      s.owner = some (.submitter i) ∧ s.accepted.map some = s.handled ++ pc.slot s.fields := by
    have howner := hl.owner_eq ((inside_submitter_iff hpc).mpr hlocked)
    rw [← slot_of_submitter howner hpc]
    exact ⟨howner, h⟩
  have inside {s' : State T} {pc : SubmitterPc} (howner : s'.owner = some (.submitter i))
      (hsubmitter : s'.submitter = Function.update s.submitter i pc)
      (hslot : s'.accepted.map some = s'.handled ++ pc.slot s'.fields) : s'.Conserved := by
    unfold State.Conserved
    rw [slot_of_submitter howner (by rw [hsubmitter, Function.update_self])]
    exact hslot
  have hknows := hk.submitter i
  cases hstep with
  | lock pc hfree =>
    refine inside rfl rfl ?_
    show s.accepted.map some = s.handled ++ s.fields
    rw [← slot_of_free hfree]
    exact h
  | refuse pc _ | setBusy pc =>
    obtain ⟨howner, hslot⟩ := slot pc trivial
    exact inside howner rfl hslot
  | @accept filename pc busy =>
    obtain ⟨howner, hslot⟩ := slot pc trivial
    refine inside howner rfl ?_
    change s.accepted.map some = s.handled ++ s.fields at hslot
    show (s.accepted ++ [filename]).map some = s.handled ++ [some filename]
    rw [List.map_append, hslot, show s.fields = [] from if_neg (by rw [busy]; nofun), List.append_nil]
    rfl
  | giveUp pc | unlock pc => exact (slot pc trivial).2
  | @setFilename filename task pc =>
    obtain ⟨howner, hslot⟩ := slot pc trivial
    refine inside howner rfl ?_
    rw [pc] at hknows
    show s.accepted.map some = s.handled ++ if s.busy then [some filename] else []
    rw [if_pos hknows.1]
    exact hslot
  | condSignal pc =>
    exact h.outside ⟨rfl, rfl, rfl, rfl, rfl⟩ s.worker.slot_wake
      (SubmitterPc.slot_update pc fun _ => rfl)

theorem conserved_step (h : s.Conserved) (hl : LockHeld s.owner s.Inside) (hk : Known s)
    (hstep : Step s s') : s'.Conserved := by
  cases hstep with
  | worker step => exact conserved_workerStep h hl hk step
  | spuriousWakeup pc =>
    exact h.outside ⟨rfl, rfl, rfl, rfl, rfl⟩ (fun _ => by rw [pc]; rfl) fun _ _ => rfl
  | call filename pc =>
    exact h.outside ⟨rfl, rfl, rfl, rfl, rfl⟩ (fun _ => rfl)
      (SubmitterPc.slot_update pc fun _ => rfl)
  | submitter step => exact conserved_produceWorkStep h hl hk step

end TaskMailbox
end SystemsCourse
