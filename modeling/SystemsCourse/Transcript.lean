import Mathlib.Data.List.Basic

/-!
# Transcripts each entry of which fits what is before it

The output of a program, or any other history, is a list that grows at its end.  A
property of the history as a whole is often one of each of its entries with what is
before it (`EachFits`); then it is kept by an entry that fits.
-/
namespace SystemsCourse
variable {α : Type} {Fits : List α → α → Prop} {transcript : List α} {x : α}

/-- **Each entry fits what is before it.** -/
def EachFits (Fits : List α → α → Prop) (transcript : List α) : Prop :=
  ∀ before x after, transcript = before ++ x :: after → Fits before x

theorem eachFits_nil : EachFits Fits [] := fun _ _ _ he =>
  absurd he.symm (List.append_ne_nil_of_right_ne_nil _ (List.cons_ne_nil _ _))

theorem EachFits.append (h : EachFits Fits transcript) (hx : Fits transcript x) :
    EachFits Fits (transcript ++ [x]) := by
  intro before y after he
  rcases List.eq_nil_or_concat after with rfl | ⟨after, last, rfl⟩
  · obtain ⟨rfl, hlast⟩ := List.append_inj' he rfl
    cases hlast
    exact hx
  · rw [List.concat_eq_append, ← List.cons_append, ← List.append_assoc] at he
    exact h before y after (List.append_inj' he rfl).1

end SystemsCourse
