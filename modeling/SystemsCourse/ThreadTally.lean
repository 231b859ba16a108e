import Mathlib.Algebra.BigOperators.Group.Finset.Piecewise
import Mathlib.Algebra.Order.BigOperators.Group.Finset
import Mathlib.Data.Fintype.Card

/-!
# How many threads are where

Invariants of a program with many equal threads add up what each thread contributes
(`sum_update`), or count the threads at certain program counters.  When one thread
moves, such a count changes by what it counted for the old program counter and
counts for the new one (`tally_update`); this is all that an invariant has to know
about the others.
-/
namespace SystemsCourse

variable {ι Pc : Type} [Fintype ι] (p : Pc → Prop) [DecidablePred p] (f : ι → Pc)

/-- The number of threads whose program counter satisfies `p`. -/
def tally : Nat := (Finset.univ.filter fun i => p (f i)).card

/-- What one thread contributes to a count. -/
def weight (x : Pc) : Nat := if p x then 1 else 0

variable {p f}

@[simp] theorem weight_pos {x : Pc} (h : p x) : weight p x = 1 := if_pos h

@[simp] theorem weight_neg {x : Pc} (h : ¬ p x) : weight p x = 0 := if_neg h

theorem tally_eq_sum : tally p f = ∑ i, weight p (f i) := Finset.card_filter _ _

theorem tally_le_card : tally p f ≤ Fintype.card ι := Finset.card_le_univ _

theorem tally_eq_zero_iff : tally p f = 0 ↔ ∀ i, ¬ p (f i) := by
  rw [tally, Finset.card_eq_zero, Finset.filter_eq_empty_iff]
  exact ⟨fun h i => h (Finset.mem_univ i), fun h i _ => h i⟩

theorem tally_pos_iff : 0 < tally p f ↔ ∃ i, p (f i) := by
  rw [Nat.pos_iff_ne_zero, ne_eq, tally_eq_zero_iff, not_forall]
  exact exists_congr fun _ => not_not

/-- **One thread moves**, and a sum over the threads changes by what it contributes. -/
theorem sum_update [DecidableEq ι] (w : Pc → Nat) (f : ι → Pc) (i : ι) (x : Pc) :
    ∑ j, w (Function.update f i x j) + w (f i) = ∑ j, w (f j) + w x := by
  have hupdate : (fun j => w (Function.update f i x j)) = Function.update (fun j => w (f j)) i (w x) := by
    funext j
    exact Function.apply_update (fun _ => w) f i x j
  rw [hupdate, Finset.sum_update_of_mem (Finset.mem_univ i),
    ← Finset.add_sum_erase Finset.univ (fun j => w (f j)) (Finset.mem_univ i),
    Finset.sdiff_singleton_eq_erase]
  omega

/-- The same, of the first `n` threads of any number. -/
theorem sum_range_add_eq {f g : Nat → Nat} {n i : Nat} (hi : i < n) (h : ∀ j ≠ i, f j = g j) :
    ∑ j ∈ Finset.range n, f j + g i = ∑ j ∈ Finset.range n, g j + f i := by
  have hmem : i ∈ Finset.range n := Finset.mem_range.mpr hi
  have hrest : ∑ j ∈ (Finset.range n).erase i, f j = ∑ j ∈ (Finset.range n).erase i, g j :=
    Finset.sum_congr rfl fun j hj => h j (Finset.ne_of_mem_erase hj)
  rw [← Finset.add_sum_erase _ f hmem, ← Finset.add_sum_erase _ g hmem, hrest]
  omega

/-- **One thread moves**, and a count changes by what it counted for the old program
counter and counts for the new one. -/
theorem tally_update [DecidableEq ι] (f : ι → Pc) (i : ι) (x : Pc) :
    tally p (Function.update f i x) + weight p (f i) = tally p f + weight p x := by
  rw [tally_eq_sum, tally_eq_sum]
  exact sum_update (weight p) f i x

/-- Where a thread is when thread `i` has gone to `x`. -/
theorem update_cases {ι Pc : Type} [DecidableEq ι] {f : ι → Pc} {i j : ι} {x y : Pc}
    (h : Function.update f i x j = y) : j = i ∧ x = y ∨ j ≠ i ∧ f j = y := by
  by_cases hj : j = i
  · rw [hj, Function.update_self] at h
    exact .inl ⟨hj, h⟩
  · rw [Function.update_of_ne hj] at h
    exact .inr ⟨hj, h⟩

/-- Thread `k` follows the threads below it. -/
theorem forall_lt_update {n k : Nat} {Pc : Type} {f : Fin n → Pc} {p : Fin n → Pc → Prop} {x : Pc}
    (hk : k < n) (hx : p ⟨k, hk⟩ x) (h : ∀ i, i.val < k → p i (f i)) (i : Fin n) (hi : i.val < k + 1) :
    p i (Function.update f ⟨k, hk⟩ x i) := by
  by_cases hik : i = ⟨k, hk⟩
  · rw [hik, Function.update_self]
    exact hx
  · have hne : i.val ≠ k := fun h => hik (Fin.ext h)
    rw [Function.update_of_ne hik]
    exact h i (by omega)

end SystemsCourse
