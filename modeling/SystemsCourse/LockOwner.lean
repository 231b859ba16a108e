import Mathlib.Logic.Function.Basic

/-!
# A lock and its critical sections

A program takes its lock when a thread enters a critical section and gives it back
when the thread leaves it.  Then the owner of the lock is the one thread that is
inside (`LockHeld`), and two threads are never inside together (`LockHeld.unique`).
One thread's step takes the lock, gives it back, or does neither.
-/
namespace SystemsCourse

variable {ι : Type} {owner : Option ι} {Inside Inside' : ι → Prop} {i j : ι}

/-- **The owner of the lock is the thread that is inside.** -/
def LockHeld (owner : Option ι) (Inside : ι → Prop) : Prop := ∀ i, owner = some i ↔ Inside i

namespace LockHeld

theorem free (h : ∀ i, ¬ Inside i) : LockHeld none Inside := fun i => iff_of_false nofun (h i)

theorem owner_eq (h : LockHeld owner Inside) (hi : Inside i) : owner = some i := (h i).mpr hi

theorem not_inside (h : LockHeld none Inside) (i : ι) : ¬ Inside i := fun hi =>
  nomatch h.owner_eq hi

/-- **Mutual exclusion.** -/
theorem unique (h : LockHeld owner Inside) (hi : Inside i) (hj : Inside j) : i = j := by
  have := h.owner_eq hi
  rw [h.owner_eq hj] at this
  exact (Option.some.inj this).symm

/-- A thread enters. -/
theorem acquire (h : LockHeld none Inside) (hi : Inside' i)
    (hothers : ∀ j, j ≠ i → (Inside' j ↔ Inside j)) : LockHeld (some i) Inside' := by
  intro j
  by_cases hj : j = i
  · subst hj
    exact iff_of_true rfl hi
  · rw [hothers j hj]
    exact iff_of_false (fun he => hj (Option.some.inj he).symm) (h.not_inside j)

/-- The thread that is inside leaves. -/
theorem release (h : LockHeld owner Inside) (hi : Inside i) (hi' : ¬ Inside' i)
    (hothers : ∀ j, j ≠ i → (Inside' j ↔ Inside j)) : LockHeld none Inside' := by
  refine free fun j hj' => ?_
  by_cases hj : j = i
  · exact hi' (hj ▸ hj')
  · exact hj (h.unique ((hothers j hj).mp hj') hi)

/-- A thread stays where it is, inside or outside. -/
theorem stay (h : LockHeld owner Inside) (hi : Inside' i ↔ Inside i)
    (hothers : ∀ j, j ≠ i → (Inside' j ↔ Inside j)) : LockHeld owner Inside' := by
  intro j
  by_cases hj : j = i
  · rw [hj, hi]
    exact h i
  · rw [hothers j hj]
    exact h j

end LockHeld
end SystemsCourse
