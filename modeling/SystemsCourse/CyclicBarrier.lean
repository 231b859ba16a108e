import SystemsCourse.ThreadTally

/-!
# A barrier that is used again and again

A barrier for `count` threads lets nobody go until all of them have arrived, and is then
ready for the next time.  It counts the threads that have arrived, and the times it has
let them go, its generations; a thread that has to wait is blocked at the generation in
which it arrived.

With `ι` the threads and `f` where each of them is blocked, the barrier counts the
threads that are blocked at its own generation (`Counts`).  So the one that completes a
generation finds all the others blocked at it (`Counts.others_of_last`), and there is
always a thread that does not wait for the others (`Counts.exists_away`).
-/
namespace SystemsCourse

/-- A barrier. -/
structure CyclicBarrier where
  arrived : Nat
  generation : Nat

namespace CyclicBarrier

/-- A thread arrives at a barrier for `count` threads. -/
def arrive (count : Nat) (b : CyclicBarrier) : CyclicBarrier :=
  if b.arrived + 1 = count then ⟨0, b.generation + 1⟩ else ⟨b.arrived + 1, b.generation⟩

variable {count : Nat} {b : CyclicBarrier}

theorem arrive_last (h : b.arrived + 1 = count) : b.arrive count = ⟨0, b.generation + 1⟩ := if_pos h

theorem arrive_wait (h : b.arrived + 1 ≠ count) : b.arrive count = ⟨b.arrived + 1, b.generation⟩ :=
  if_neg h

/-- The thread is blocked at the generation `g`. -/
def BlockedAt (g : Nat) (x : Option Nat) : Prop := x = some g

instance (g : Nat) : DecidablePred (BlockedAt g) := fun x => inferInstanceAs (Decidable (x = some g))

variable {ι : Type} [Fintype ι] {f f' : ι → Option Nat} {i : ι} {x : Option Nat} {g : Nat}

/-- **The barrier counts the threads that are blocked at its generation**, and they are
not all. -/
structure Counts (b : CyclicBarrier) (f : ι → Option Nat) : Prop where
  arrived : b.arrived = tally (BlockedAt b.generation) f
  lt : b.arrived < Fintype.card ι

/-- **There is a thread that does not wait.** -/
theorem Counts.exists_away (h : b.Counts f) : ∃ i, f i ≠ some b.generation := by
  by_contra hall
  have hblocked : ∀ i ∈ Finset.univ, BlockedAt b.generation (f i) := by
    intro i _
    by_contra hi
    exact hall ⟨i, hi⟩
  have hfull : tally (BlockedAt b.generation) f = Fintype.card ι := by
    rw [tally, Finset.filter_true_of_mem hblocked, Finset.card_univ]
  have hlt := h.lt
  rw [h.arrived, hfull] at hlt
  exact Nat.lt_irrefl _ hlt

/-- All threads but the one that moves count as before. -/
theorem tally_move [DecidableEq ι] (hi : f i ≠ some g) (x : Option Nat) :
    tally (BlockedAt g) (Function.update f i x) = tally (BlockedAt g) f + weight (BlockedAt g) x := by
  have hupdate := tally_update (p := BlockedAt g) f i x
  rw [weight_neg (show ¬ BlockedAt g (f i) from hi)] at hupdate
  exact hupdate

theorem tally_block [DecidableEq ι] (hi : f i ≠ some g) :
    tally (BlockedAt g) (Function.update f i (some g)) = tally (BlockedAt g) f + 1 := by
  rw [tally_move hi, weight_pos (show BlockedAt g (some g) from rfl)]

/-- A thread that is not blocked at this generation moves, and is not blocked at it. -/
theorem Counts.move [DecidableEq ι] (h : b.Counts f) (hi : f i ≠ some b.generation)
    (hx : x ≠ some b.generation) : b.Counts (Function.update f i x) := by
  refine ⟨?_, h.lt⟩
  rw [tally_move hi, weight_neg (show ¬ BlockedAt b.generation x from hx)]
  exact h.arrived

/-- A thread arrives and is not the last one. -/
theorem Counts.arrive_wait [DecidableEq ι] (h : b.Counts f) (hi : f i ≠ some b.generation)
    (hlast : b.arrived + 1 ≠ Fintype.card ι) :
    (b.arrive (Fintype.card ι)).Counts (Function.update f i (some b.generation)) := by
  have hlt := h.lt
  rw [CyclicBarrier.arrive_wait hlast]
  refine ⟨?_, by simp only; omega⟩
  show b.arrived + 1 = tally (BlockedAt b.generation) _
  rw [tally_block hi, h.arrived]

/-- **The last one finds all the others blocked.** -/
theorem Counts.others_of_last [DecidableEq ι] (h : b.Counts f) (hi : f i ≠ some b.generation)
    (hlast : b.arrived + 1 = Fintype.card ι) : ∀ j, j ≠ i → f j = some b.generation := by
  intro j hj
  by_contra hblocked
  -- neither `i` nor `j` is counted, so two more could be
  have hone := tally_block hi
  have hj' : Function.update f i (some b.generation) j ≠ some b.generation := by
    rw [Function.update_of_ne hj]
    exact hblocked
  have htwo := tally_block hj'
  have hle := tally_le_card (p := BlockedAt b.generation)
    (f := Function.update (Function.update f i (some b.generation)) j (some b.generation))
  have harrived := h.arrived
  omega

/-- The last one arrives, and nobody is blocked at the next generation yet. -/
theorem Counts.arrive_last (h : b.Counts f) (hlast : b.arrived + 1 = Fintype.card ι)
    (hnext : ∀ j, f' j ≠ some (b.generation + 1)) : (b.arrive (Fintype.card ι)).Counts f' := by
  have hlt := h.lt
  rw [CyclicBarrier.arrive_last hlast]
  exact ⟨(tally_eq_zero_iff.mpr hnext).symm, by simp only; omega⟩

end CyclicBarrier
end SystemsCourse
