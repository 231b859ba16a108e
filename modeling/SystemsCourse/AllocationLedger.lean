import Mathlib.Data.Multiset.AddSub

/-!
# The ledger of heap blocks

Heap discipline is about *which* blocks are live, not about where they lie.  A
`Ledger` therefore names every allocation by a number that is never reused, and
records which of them are live and which have been released.

The discipline is part of the type: every block ever granted occurs exactly once
in `live + released` (`nodup`), so a block that has been released is not live and
is never released again.  What a program can still get wrong is to release a
block that is not live; `release` asks for the proof that it is.
-/
namespace SystemsCourse

/-- The name of an allocation.  Allocations are numbered in the order in which
they were granted, and no number is used twice. -/
abbrev Addr := Nat

/-- The blocks handed out so far: the live ones and the released ones. -/
@[ext] structure Ledger where
  live : Multiset Addr
  released : Multiset Addr
  /-- The next number to hand out. -/
  next : Addr
  /-- No block is live twice, released twice, or both. -/
  nodup : (live + released).Nodup
  /-- Only numbers below `next` have been handed out. -/
  granted : ∀ a ∈ live + released, a < next

namespace Ledger

/-- A ledger on which nothing has been allocated. -/
def empty : Ledger := ⟨0, 0, 0, by simp, by simp⟩

/-- Grant a new block, named `l.next`. -/
def grant (l : Ledger) : Ledger where
  live := l.next ::ₘ l.live
  released := l.released
  next := l.next + 1
  nodup := by
    rw [Multiset.cons_add]
    exact Multiset.nodup_cons.mpr ⟨fun h => Nat.lt_irrefl _ (l.granted _ h), l.nodup⟩
  granted := by
    intro a ha
    rw [Multiset.cons_add, Multiset.mem_cons] at ha
    rcases ha with rfl | ha
    · exact Nat.lt_succ_self _
    · exact Nat.lt_succ_of_lt (l.granted a ha)

/-- Release the live block `a`. -/
def release (l : Ledger) (a : Addr) (h : a ∈ l.live) : Ledger where
  live := l.live.erase a
  released := a ::ₘ l.released
  next := l.next
  nodup := by
    rw [Multiset.add_cons, ← Multiset.cons_add, Multiset.cons_erase h]
    exact l.nodup
  granted := by
    intro b hb
    rw [Multiset.add_cons, ← Multiset.cons_add, Multiset.cons_erase h] at hb
    exact l.granted b hb

@[simp] theorem live_grant (l : Ledger) : l.grant.live = {l.next} + l.live :=
  (Multiset.singleton_add _ _).symm

@[simp] theorem released_grant (l : Ledger) : l.grant.released = l.released := rfl

@[simp] theorem live_release (l : Ledger) {a : Addr} (h : a ∈ l.live) :
    (l.release a h).live = l.live.erase a := rfl

@[simp] theorem released_release (l : Ledger) {a : Addr} (h : a ∈ l.live) :
    (l.release a h).released = {a} + l.released :=
  (Multiset.singleton_add _ _).symm

/-- The blocks live beside the owner's own are untouched by a release. -/
theorem live_release_of_eq (l : Ledger) {a : Addr} {F : Multiset Addr}
    (h : l.live = {a} + F) (ha : a ∈ l.live) : (l.release a ha).live = F := by
  rw [live_release, h, Multiset.singleton_add, Multiset.erase_cons_head]

/-- No block is live twice. -/
theorem live_nodup (l : Ledger) : l.live.Nodup :=
  Multiset.nodup_of_le (Multiset.le_add_right _ _) l.nodup

/-- No block is released twice. -/
theorem released_nodup (l : Ledger) : l.released.Nodup :=
  Multiset.nodup_of_le (Multiset.le_add_left _ _) l.nodup

end Ledger
end SystemsCourse
