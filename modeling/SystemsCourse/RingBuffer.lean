import Mathlib.Data.Nat.ModEq
import Mathlib.Logic.Function.Basic

/-!
# Ring buffers

A ring of `B` slots holds the part `[m, n)` of a sequence of messages: message `j`
lies in slot `j % B`, and the slots of the messages to come are empty.  What the
writer does at `n % B` and the reader at `m % B` is then a queue operation.
-/
namespace SystemsCourse

/-- Two numbers of a window of `B` numbers lie in different slots. -/
theorem eq_of_mod_eq {B m j k : Nat} (hj : m ≤ j) (hj' : j < m + B) (hk : m ≤ k) (hk' : k < m + B)
    (h : j % B = k % B) : j = k := by
  rcases Nat.le_total j k with hle | hle
  · have hdvd : B ∣ k - j := (Nat.modEq_iff_dvd' hle).mp h
    have := Nat.eq_zero_of_dvd_of_lt hdvd (by omega)
    omega
  · have hdvd : B ∣ j - k := (Nat.modEq_iff_dvd' hle).mp h.symm
    have := Nat.eq_zero_of_dvd_of_lt hdvd (by omega)
    omega

/-- **The ring holds the messages `m, …, n - 1`.** -/
structure RingHolds {α : Type} (B : Nat) (message : Nat → α) (m n : Nat) (slot : Nat → Option α) :
    Prop where
  le : m ≤ n
  room : n ≤ m + B
  slots : ∀ j, m ≤ j → j < m + B → slot (j % B) = if j < n then some (message j) else none

namespace RingHolds
variable {α : Type} {B : Nat} {message : Nat → α} {m n : Nat} {slot : Nat → Option α}

theorem empty (B : Nat) (message : Nat → α) : RingHolds B message 0 0 (fun _ => none) where
  le := Nat.le_refl _
  room := Nat.zero_le _
  slots _ _ _ := by simp

/-- The slot of the next message is empty, if there is room. -/
theorem free (h : RingHolds B message m n slot) (hlt : n < m + B) : slot (n % B) = none := by
  rw [h.slots n h.le hlt, if_neg (Nat.lt_irrefl n)]

/-- The slot of the oldest message holds it, if there is one. -/
theorem oldest (h : RingHolds B message m n slot) (hlt : m < n) : slot (m % B) = some (message m) := by
  rw [h.slots m (Nat.le_refl m) (Nat.lt_of_lt_of_le hlt h.room), if_pos hlt]

/-- **Writing the next message.** -/
theorem push (h : RingHolds B message m n slot) (hlt : n < m + B) :
    RingHolds B message m (n + 1) (Function.update slot (n % B) (some (message n))) where
  le := Nat.le_succ_of_le h.le
  room := hlt
  slots j hj hj' := by
    by_cases hjn : j = n
    · subst hjn
      rw [Function.update_self, if_pos (Nat.lt_succ_self j)]
    · have hslot : j % B ≠ n % B := fun he => hjn (eq_of_mod_eq hj hj' h.le hlt he)
      rw [Function.update_of_ne hslot, h.slots j hj hj']
      exact if_congr (by omega) rfl rfl

/-- **Taking the oldest message.** -/
theorem pop (h : RingHolds B message m n slot) (hlt : m < n) :
    RingHolds B message (m + 1) n (Function.update slot (m % B) none) where
  le := hlt
  room := by
    have := h.room
    omega
  slots j hj hj' := by
    have hroom := h.room
    by_cases hjm : j = m + B
    · -- the slot that has become empty is that of message `m + B`
      subst hjm
      rw [Nat.add_mod_right, Function.update_self, if_neg (by omega)]
    · have hslot : j % B ≠ m % B := fun he => by
        have := eq_of_mod_eq (by omega) (by omega) (Nat.le_refl m) (by omega) he
        omega
      rw [Function.update_of_ne hslot, h.slots j (by omega) (by omega)]

end RingHolds
end SystemsCourse
