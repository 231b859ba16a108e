import Mathlib.Logic.Relation
import SystemsCourse.TaskMailboxWakeup

/-!
# What `conditionex.c` delivers

What the program is for: a mailbox with one place.  A task is put into the place when
it is empty and taken out of it when it is full (`Mailbox.Step`), so that what has
been accepted is what has been handled and, last, what is in the place.  Two fields,
written and cleared one after the other, play the place; still every step of the
program is a step of the mailbox or none (`mailbox_step`).
-/
namespace SystemsCourse
namespace TaskMailbox

/-- A mailbox with one place, and its history. -/
structure Mailbox (α : Type) where
  accepted : List α
  handled : List α
  place : Option α
  conserved : accepted = handled ++ place.toList

namespace Mailbox
variable {α : Type}

def empty : Mailbox α := ⟨[], [], none, rfl⟩

/-- A task goes into the empty place. -/
def accept (m : Mailbox α) (a : α) (hempty : m.place = none) : Mailbox α where
  accepted := m.accepted ++ [a]
  handled := m.handled
  place := some a
  conserved := by rw [m.conserved, hempty]; simp

/-- The task comes out of the full place. -/
def handle (m : Mailbox α) (a : α) (hfull : m.place = some a) : Mailbox α where
  accepted := m.accepted
  handled := m.handled ++ [a]
  place := none
  conserved := by rw [m.conserved, hfull]; simp

/-- What a mailbox does. -/
inductive Step (m : Mailbox α) : Mailbox α → Prop where
  | stay : Step m m
  | accept (a : α) (hempty : m.place = none) : Step m (m.accept a hempty)
  | handle (a : α) (hfull : m.place = some a) : Step m (m.handle a hfull)

/-- What is in the place, read off the history. -/
theorem place_eq_of_append {m : Mailbox α} {place : Option α}
    (h : m.accepted = m.handled ++ place.toList) : m.place = place := by
  have htoList : m.place.toList = place.toList :=
    List.append_cancel_left (m.conserved.symm.trans h)
  cases hplace : m.place with
  | none =>
    rw [hplace] at htoList
    cases place with
    | none => rfl
    | some a => cases htoList
  | some a =>
    rw [hplace] at htoList
    cases place with
    | none => cases htoList
    | some b =>
      cases htoList
      rfl

end Mailbox

variable {T : Nat} {s s' : State T}

/-- The mailbox that a state of the program stands for. -/
def Represents (s : State T) (m : Mailbox (Option String)) : Prop :=
  m.accepted = s.accepted.map some ∧ m.handled = s.handled

theorem represents_initial : Represents (initial T) Mailbox.empty := ⟨rfl, rfl⟩

/-- While a party is inside and has not touched the fields, they are the place. -/
theorem Represents.place {m : Mailbox (Option String)} (hm : Represents s m) {place : Option (Option String)}
    (hconserved : s.Conserved) (hslot : s.slot = place.toList) : m.place = place := by
  apply Mailbox.place_eq_of_append
  rw [hm.1, hm.2, ← hslot]
  exact hconserved

/-- The worker handles what is in the place. -/
theorem mailbox_workerStep (h : Invariant s) {m : Mailbox (Option String)} (hm : Represents s m)
    (hstep : WorkerStep s s') : ∃ m', m.Step m' ∧ Represents s' m' := by
  cases hstep with
  | printfileinfo pc =>
    have hin : s.Inside .worker := by
      show s.worker.Locked
      rw [pc]
      trivial
    have hbusy : s.busy = true := by
      have := h.known.worker
      rwa [pc] at this
    have hslot : s.slot = [s.filename] := by
      rw [slot_of_worker (h.lock.owner_eq hin) pc]
      exact if_pos hbusy
    refine ⟨m.handle s.filename (hm.place h.conserved hslot), .handle _ _, hm.1, ?_⟩
    show m.handled ++ [s.filename] = s.handled ++ [s.filename]
    rw [hm.2]
  | _ => exact ⟨m, .stay, hm⟩

/-- A submitter fills the place only when it is empty. -/
theorem mailbox_produceWorkStep (h : Invariant s) {m : Mailbox (Option String)}
    (hm : Represents s m) {i : Fin T} (hstep : ProduceWorkStep s i s') :
    ∃ m', m.Step m' ∧ Represents s' m' := by
  cases hstep with
  | @accept filename pc busy =>
    have howner := h.lock.owner_eq ((inside_submitter_iff pc).mpr trivial)
    have hslot : s.slot = [] := by
      rw [slot_of_submitter howner pc]
      exact if_neg (by rw [busy]; nofun)
    refine ⟨m.accept (some filename) (hm.place h.conserved hslot), .accept _ _, ?_, hm.2⟩
    show m.accepted ++ [some filename] = (s.accepted ++ [filename]).map some
    rw [hm.1, List.map_append]
    rfl
  | _ => exact ⟨m, .stay, hm⟩

/-- **Every step of the program is a step of the mailbox.** -/
theorem mailbox_step (h : Invariant s) {m : Mailbox (Option String)} (hm : Represents s m)
    (hstep : Step s s') : ∃ m', m.Step m' ∧ Represents s' m' := by
  cases hstep with
  | worker step => exact mailbox_workerStep h hm step
  | spuriousWakeup _ => exact ⟨m, .stay, hm⟩
  | call _ _ => exact ⟨m, .stay, hm⟩
  | submitter step => exact mailbox_produceWorkStep h hm step

/-- The state stands for one that the mailbox reaches. -/
structure Simulated (s : State T) : Prop where
  invariant : Invariant s
  mailbox : ∃ m, Relation.ReflTransGen Mailbox.Step Mailbox.empty m ∧ Represents s m

theorem Simulated.step (h : Simulated s) (hstep : Step s s') : Simulated s' := by
  obtain ⟨m, hrun, hm⟩ := h.mailbox
  obtain ⟨m', hnext, hm'⟩ := mailbox_step h.invariant hm hstep
  exact ⟨h.invariant.step hstep, m', hrun.tail hnext, hm'⟩

/-- **Every run of the program is a run of the mailbox.** -/
theorem Simulated.of_reachable (h : (program T).Reachable s) : Simulated s :=
  h.invariant ⟨invariant_initial, _, .refl, represents_initial⟩ fun _ _ _ hsim hstep =>
    hsim.step (step_cases hstep)

/-- **No accepted task is lost, repeated or overwritten.**  Whenever the lock is free,
the file names accepted so far are those that the worker has handled, in the same
order, followed by the one in `workertask` if `busy` is set. -/
theorem accepted_eq_handled_append (h : (program T).Reachable s) (hfree : s.owner = none) :
    s.accepted.map some = s.handled ++ if s.busy then [s.filename] else [] := by
  have hconserved := (Invariant.of_reachable h).conserved
  unfold State.Conserved at hconserved
  rwa [slot_of_free hfree] at hconserved

/-- Two tasks have been accepted; the worker has handled the first one. -/
theorem accepted_eq_handled_append_two : ∃ s : State 2, (program 2).Reachable s ∧ s.owner = none ∧
    s.busy = true ∧ s.handled = [some "./pthreadex.c"] ∧ s.accepted.length = 2 ∧
    s.accepted.map some = s.handled ++ if s.busy then [s.filename] else [] := by
  have hrun : ((program 2).run (initial 2) [.call 0 "./pthreadex.c", .submitter 0, .submitter 0,
      .submitter 0, .submitter 0, .submitter 0, .worker, .worker, .worker, .worker, .worker,
      .call 1 "./Makefile", .submitter 1, .submitter 1, .submitter 1, .submitter 1,
      .submitter 1]).isSome := rfl
  obtain ⟨s, hs⟩ := Option.isSome_iff_exists.mp hrun
  have hstate : s.owner = none ∧ s.busy = true ∧ s.handled = [some "./pthreadex.c"] ∧
      s.accepted.length = 2 := by
    cases hs
    exact ⟨rfl, rfl, rfl, rfl⟩
  obtain ⟨hfree, hbusy, hhandled, hlength⟩ := hstate
  exact ⟨s, ⟨_, hs⟩, hfree, hbusy, hhandled, hlength, accepted_eq_handled_append ⟨_, hs⟩ hfree⟩

end TaskMailbox
end SystemsCourse
