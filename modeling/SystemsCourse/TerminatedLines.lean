import Mathlib.Data.List.Basic

/-!
# Lines that end with a terminator

A text is a sequence of lines, each followed by the same symbol.  When no line
contains this symbol, the text determines its lines; and within a line, a separator
that occurs nowhere before it, or nowhere behind it, determines its two sides.
-/
namespace SystemsCourse

variable {α : Type} {a : α}

/-- Split at the first `a`. -/
theorem split_at_first {x₁ x₂ z₁ z₂ : List α} (h₁ : a ∉ x₁) (h₂ : a ∉ x₂)
    (h : x₁ ++ a :: z₁ = x₂ ++ a :: z₂) : x₁ = x₂ ∧ z₁ = z₂ := by
  rcases List.append_eq_append_iff.mp h with ⟨c, rfl, hc⟩ | ⟨c, rfl, hc⟩
  · cases c with
    | nil => exact ⟨(List.append_nil _).symm, List.tail_eq_of_cons_eq hc⟩
    | cons d c =>
      obtain rfl : a = d := List.head_eq_of_cons_eq hc
      exact absurd (List.mem_append_right _ List.mem_cons_self) h₂
  · cases c with
    | nil => exact ⟨List.append_nil _, (List.tail_eq_of_cons_eq hc).symm⟩
    | cons d c =>
      obtain rfl : a = d := List.head_eq_of_cons_eq hc
      exact absurd (List.mem_append_right _ List.mem_cons_self) h₁

/-- Split at the last `a`. -/
theorem split_at_last {x₁ x₂ z₁ z₂ : List α} (h₁ : a ∉ z₁) (h₂ : a ∉ z₂)
    (h : x₁ ++ a :: z₁ = x₂ ++ a :: z₂) : x₁ = x₂ ∧ z₁ = z₂ := by
  have hreverse : z₁.reverse ++ a :: x₁.reverse = z₂.reverse ++ a :: x₂.reverse := by
    simpa using congrArg List.reverse h
  obtain ⟨hz, hx⟩ := split_at_first (mt List.mem_reverse.mp h₁) (mt List.mem_reverse.mp h₂) hreverse
  exact ⟨List.reverse_injective hx, List.reverse_injective hz⟩

/-- The text of the lines `ls`, each of which ends with `a`. -/
def unlines (a : α) : List (List α) → List α
  | [] => []
  | l :: ls => l ++ a :: unlines a ls

@[simp] theorem unlines_nil : unlines a [] = [] := rfl

@[simp] theorem unlines_cons (l : List α) (ls : List (List α)) :
    unlines a (l :: ls) = l ++ a :: unlines a ls := rfl

@[simp] theorem unlines_append (ls ls' : List (List α)) :
    unlines a (ls ++ ls') = unlines a ls ++ unlines a ls' := by
  induction ls with
  | nil => rfl
  | cons l ls ih => rw [List.cons_append, unlines_cons, unlines_cons, ih, List.append_assoc]; rfl

/-- **A text determines its lines.** -/
theorem unlines_injective {ls ls' : List (List α)} (h : ∀ l ∈ ls, a ∉ l) (h' : ∀ l ∈ ls', a ∉ l)
    (heq : unlines a ls = unlines a ls') : ls = ls' := by
  induction ls generalizing ls' with
  | nil =>
    cases ls' with
    | nil => rfl
    | cons l' ls' => exact absurd heq (List.append_ne_nil_of_right_ne_nil _ (List.cons_ne_nil _ _)).symm
  | cons l ls ih =>
    cases ls' with
    | nil => exact absurd heq (List.append_ne_nil_of_right_ne_nil _ (List.cons_ne_nil _ _))
    | cons l' ls' =>
      obtain ⟨rfl, hrest⟩ := split_at_first (h l List.mem_cons_self) (h' l' List.mem_cons_self) heq
      rw [ih (fun k hk => h k (List.mem_cons_of_mem _ hk)) (fun k hk => h' k (List.mem_cons_of_mem _ hk))
        hrest]

end SystemsCourse
