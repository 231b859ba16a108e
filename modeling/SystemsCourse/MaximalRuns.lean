import Mathlib.Data.List.Sort

/-!
# Maximal runs of a predicate

The words of a line are the maximal intervals without a separator.  This module
is about maximal intervals of an arbitrary predicate on positions: a run is
determined by where it starts (`end_unique`), no run starts inside another
(`not_start_inside`), and a position outside the predicate divides the runs into those
before it and those behind it (`maximalRun_split`).
-/
namespace SystemsCourse

/-- `[a, b)` is a maximal interval of positions below `n` on which `P` holds. -/
structure MaximalRun (P : Nat → Prop) (n a b : Nat) : Prop where
  lt : a < b
  le : b ≤ n
  inside : ∀ k, a ≤ k → k < b → P k
  left : a = 0 ∨ ¬ P (a - 1)
  right : b = n ∨ ¬ P b

namespace MaximalRun
variable {P P' : Nat → Prop} {n a b a' b' : Nat}

theorem end_le (h : MaximalRun P n a b) (h' : MaximalRun P n a b') : b ≤ b' := by
  rcases h'.right with hn | hP
  · exact hn ▸ h.le
  · exact Nat.le_of_not_lt fun hlt => hP (h.inside b' (Nat.le_of_lt h'.lt) hlt)

/-- **A run is determined by its start.** -/
theorem end_unique (h : MaximalRun P n a b) (h' : MaximalRun P n a b') : b = b' :=
  Nat.le_antisymm (h.end_le h') (h'.end_le h)

/-- No run starts inside another. -/
theorem not_start_inside (h : MaximalRun P n a b) (h' : MaximalRun P n a' b') (hlt : a < a') :
    b ≤ a' := by
  rcases h'.left with h0 | hP
  · omega
  · refine Nat.le_of_not_lt fun hb => hP (h.inside (a' - 1) (by omega) (by omega))

/-- Only the predicate below the bound matters. -/
theorem congr (hP : ∀ k, k < n → (P k ↔ P' k)) (h : MaximalRun P n a b) : MaximalRun P' n a b where
  lt := h.lt
  le := h.le
  inside k ha hb := (hP k (Nat.lt_of_lt_of_le hb h.le)).mp (h.inside k ha hb)
  left := h.left.imp_right fun hn =>
    have hlt := Nat.lt_of_lt_of_le h.lt h.le
    mt (hP (a - 1) (by omega)).mpr hn
  right := by
    rcases Nat.lt_or_ge b n with hb | hb
    · exact h.right.imp_right fun hn => mt (hP b hb).mpr hn
    · exact Or.inl (Nat.le_antisymm h.le hb)

end MaximalRun

/-- The interval of `P` in front of a position reaches to a left end. -/
theorem exists_left_end {P : Nat → Prop} {k : Nat} (hk : P k) :
    ∃ a ≤ k, (∀ j, a ≤ j → j ≤ k → P j) ∧ (a = 0 ∨ ¬ P (a - 1)) := by
  induction k with
  | zero =>
    refine ⟨0, Nat.le_refl 0, fun j _ hj => ?_, Or.inl rfl⟩
    rwa [Nat.le_zero.mp hj]
  | succ k ih =>
    by_cases hprev : P k
    · obtain ⟨a, hle, hinside, hleft⟩ := ih hprev
      refine ⟨a, Nat.le_succ_of_le hle, fun j ha hj => ?_, hleft⟩
      rcases Nat.eq_or_lt_of_le hj with rfl | hlt
      · exact hk
      · exact hinside j ha (Nat.le_of_lt_succ hlt)
    · refine ⟨k + 1, Nat.le_refl _, fun j ha hj => ?_, Or.inr hprev⟩
      rwa [Nat.le_antisymm hj ha]

/-- The interval of `P` behind a position reaches to a right end. -/
theorem exists_right_end {P : Nat → Prop} {k d : Nat} (hk : P k) :
    ∃ b, k < b ∧ b ≤ k + 1 + d ∧ (∀ j, k ≤ j → j < b → P j) ∧ (b = k + 1 + d ∨ ¬ P b) := by
  induction d generalizing k with
  | zero =>
    refine ⟨k + 1, Nat.lt_succ_self k, Nat.le_refl _, fun j hkj hj => ?_, Or.inl rfl⟩
    rwa [show j = k from by omega]
  | succ d ih =>
    by_cases hnext : P (k + 1)
    · obtain ⟨b, hlt, hle, hinside, hright⟩ := ih hnext
      refine ⟨b, by omega, by omega, fun j hkj hj => ?_, hright.imp_left (by omega)⟩
      rcases Nat.eq_or_lt_of_le hkj with rfl | hlt'
      · exact hk
      · exact hinside j hlt' hj
    · refine ⟨k + 1, Nat.lt_succ_self k, by omega, fun j hkj hj => ?_, Or.inr hnext⟩
      rwa [show j = k from by omega]

/-- **Every position of the predicate lies in a run.** -/
theorem exists_maximalRun {P : Nat → Prop} {n k : Nat} (hn : k < n) (hk : P k) :
    ∃ a b, MaximalRun P n a b ∧ a ≤ k ∧ k < b := by
  obtain ⟨d, rfl⟩ := Nat.exists_eq_add_of_le (Nat.succ_le_of_lt hn)
  obtain ⟨a, hak, hfront, hleft⟩ := exists_left_end hk
  obtain ⟨b, hkb, hbn, hback, hright⟩ := exists_right_end (d := d) hk
  refine ⟨a, b, ⟨by omega, hbn, fun j ha hb => ?_, hleft, hright⟩, hak, hkb⟩
  rcases Nat.le_total j k with hj | hj
  · exact hfront j ha hj
  · exact hback j hj hb

theorem maximalRun_congr {P P' : Nat → Prop} {n a b : Nat} (hP : ∀ k, k < n → (P k ↔ P' k)) :
    MaximalRun P n a b ↔ MaximalRun P' n a b :=
  ⟨MaximalRun.congr hP, MaximalRun.congr fun k hk => (hP k hk).symm⟩

/-- **A position outside the predicate divides the runs**: each lies before it, or
behind it, where it is a run of the shifted predicate. -/
theorem maximalRun_split {P : Nat → Prop} {i n a b : Nat} (hi : ¬ P i) :
    MaximalRun P (i + 1 + n) a b ↔
      MaximalRun P i a b ∨
      ∃ a' b', a = i + 1 + a' ∧ b = i + 1 + b' ∧ MaximalRun (fun k => P (i + 1 + k)) n a' b' := by
  constructor
  · intro h
    obtain ⟨hlt, hle, hin, hleft, hright⟩ := h
    -- a run that starts at or before `i` cannot reach over it
    rcases Nat.lt_or_ge i a with hia | hia
    · refine Or.inr ⟨a - (i + 1), b - (i + 1), by omega, by omega, by omega, by omega, ?_, ?_, ?_⟩
      · intro k ha hb
        exact hin (i + 1 + k) (by omega) (by omega)
      · rcases Nat.eq_or_lt_of_le hia with rfl | hlt'
        · exact Or.inl (by omega)
        · refine Or.inr ?_
          show ¬ P (i + 1 + (a - (i + 1) - 1))
          rw [show i + 1 + (a - (i + 1) - 1) = a - 1 from by omega]
          exact hleft.resolve_left (by omega)
      · rcases hright with hn | hP
        · exact Or.inl (by omega)
        · exact Or.inr (by rwa [show i + 1 + (b - (i + 1)) = b from by omega])
    · have hbi : b ≤ i := Nat.le_of_not_lt fun h => hi (hin i hia h)
      refine Or.inl ⟨hlt, hbi, hin, hleft, ?_⟩
      exact hright.imp_left fun hn => by omega
  · intro h
    rcases h with ⟨hlt, hle, hin, hleft, hright⟩ | ⟨a', b', rfl, rfl, hlt, hle, hin, hleft, hright⟩
    · refine ⟨hlt, by omega, hin, hleft, Or.inr ?_⟩
      rcases hright with rfl | hP
      · exact hi
      · exact hP
    · refine ⟨by omega, by omega, ?_, Or.inr ?_, ?_⟩
      · intro k ha hb
        have := hin (k - (i + 1)) (by omega) (by omega)
        rwa [show i + 1 + (k - (i + 1)) = k from by omega] at this
      · rcases hleft with rfl | hP
        · exact hi
        · rcases Nat.eq_zero_or_pos a' with rfl | hpos
          · exact hi
          · rwa [show i + 1 + a' - 1 = i + 1 + (a' - 1) from by omega]
      · exact hright.imp_left fun hn => by omega

/-- **A list is determined by its members and a strictly increasing key.** -/
theorem eq_of_increasing {α : Type} {key : α → Nat} {xs ys : List α}
    (hx : xs.Pairwise (key · < key ·)) (hy : ys.Pairwise (key · < key ·))
    (hmem : ∀ x, x ∈ xs ↔ x ∈ ys) : xs = ys := by
  have nodup : ∀ {zs : List α}, zs.Pairwise (key · < key ·) → zs.Nodup := fun h =>
    List.Pairwise.imp (S := (· ≠ ·)) (fun hlt he => Nat.lt_irrefl _ (he ▸ hlt)) h
  have hperm : xs.Perm ys := (List.perm_ext_iff_of_nodup (nodup hx) (nodup hy)).mpr hmem
  exact hperm.eq_of_pairwise (fun a b _ _ hab hba => absurd hab (Nat.lt_asymm hba)) hx hy

end SystemsCourse
