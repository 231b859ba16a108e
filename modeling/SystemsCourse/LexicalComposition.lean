import SystemsCourse.LexicalSyntax

/-!
# The lexemes on both sides of a separator

A line whose quotes are balanced, a separator, and a rest: nothing that the lexical
syntax says about a position of either part depends on the other.  So the words,
the lexemes and the tokenization of the whole are those of the first part, the
separator if it is an operator, and those of the rest, shifted
(`IsTokenization.append`).
-/
namespace SystemsCourse

/-- A character that separates words outside quotes. -/
def IsSeparator (c : Byte) : Prop := isspace c ∨ operatorType c ≠ none

theorem IsSeparator.not_isQuote {c : Byte} (h : IsSeparator c) : isQuote c = false :=
  h.elim not_isQuote_of_isspace not_isQuote_of_operator

/-- The lexeme `n` positions further on. -/
def Lexeme.shift (n : Nat) (x : Lexeme) : Lexeme := { x with pos := n + x.pos }

section Positions
variable {a b : List Byte} {c : Byte} {k : Nat}

theorem quoteState_append_left {r : List Byte} (h : k ≤ a.length) :
    quoteState (a ++ r) k = quoteState a k := by
  induction k with
  | zero => rfl
  | succ k ih => rw [quoteState, quoteState, ih (by omega), List.getElem?_append_left (by omega)]

theorem getElem?_append_sep : (a ++ c :: b)[a.length]? = some c := by simp

theorem getElem?_append_right : (a ++ c :: b)[a.length + 1 + k]? = b[k]? := by
  rw [List.getElem?_append_right (by omega), show a.length + 1 + k - a.length = k + 1 by omega,
    List.getElem?_cons_succ]

variable (ha : quoteState a a.length = none) (hc : IsSeparator c)
include ha hc

theorem quoteState_append_right : quoteState (a ++ c :: b) (a.length + 1 + k) = quoteState b k := by
  induction k with
  | zero =>
    have hstate : quoteState (a ++ c :: b) a.length = none :=
      (quoteState_append_left (Nat.le_refl _)).trans ha
    exact quoteState_succ_outside hstate getElem?_append_sep hc.not_isQuote
  | succ k ih => rw [← Nat.add_assoc, quoteState, quoteState, ih, getElem?_append_right]

theorem separator_append_sep : Separator (a ++ c :: b) a.length :=
  ⟨(quoteState_append_left (Nat.le_refl _)).trans ha, c, getElem?_append_sep, hc⟩

theorem separator_append_right : Separator (a ++ c :: b) (a.length + 1 + k) ↔ Separator b k := by
  rw [Separator, quoteState_append_right ha hc, getElem?_append_right, ← Separator]

theorem opening_append_right : Opening (a ++ c :: b) (a.length + 1 + k) ↔ Opening b k := by
  rw [Opening, quoteState_append_right ha hc, getElem?_append_right, ← Opening]

theorem closing_append_right : Closing (a ++ c :: b) (a.length + 1 + k) ↔ Closing b k := by
  rw [Closing, quoteState_append_right ha hc, getElem?_append_right, ← Closing]

omit ha hc

theorem separator_append_left {r : List Byte} (h : k < a.length) :
    Separator (a ++ r) k ↔ Separator a k := by
  rw [Separator, quoteState_append_left (by omega), List.getElem?_append_left h, ← Separator]

theorem opening_append_left {r : List Byte} (h : k < a.length) : Opening (a ++ r) k ↔ Opening a k := by
  rw [Opening, quoteState_append_left (by omega), List.getElem?_append_left h, ← Opening]

theorem closing_append_left {r : List Byte} (h : k < a.length) : Closing (a ++ r) k ↔ Closing a k := by
  rw [Closing, quoteState_append_left (by omega), List.getElem?_append_left h, ← Closing]

end Positions

/-! ## Words -/

section Words
variable {a b : List Byte} {c : Byte} {x y : Nat}

theorem wordText_append_left {r : List Byte} (h : y ≤ a.length) :
    wordText (a ++ r) x y = wordText a x y := by
  refine List.filterMap_congr fun k hk => ?_
  rw [List.mem_range'_1] at hk
  have hlt : k < a.length := by omega
  simp only [opening_append_left hlt, closing_append_left hlt, List.getElem?_append_left hlt]

theorem wordText_append_right (ha : quoteState a a.length = none) (hc : IsSeparator c) :
    wordText (a ++ c :: b) (a.length + 1 + x) (a.length + 1 + y) = wordText b x y := by
  rw [wordText, Nat.add_sub_add_left, ← List.map_add_range', List.filterMap_map]
  refine List.filterMap_congr fun k _ => ?_
  simp only [Function.comp_apply, opening_append_right ha hc, closing_append_right ha hc,
    getElem?_append_right]

theorem isWord_append_iff (ha : quoteState a a.length = none) (hc : IsSeparator c) :
    IsWord (a ++ c :: b) x y ↔ IsWord a x y ∨
      ∃ x' y', x = a.length + 1 + x' ∧ y = a.length + 1 + y' ∧ IsWord b x' y' := by
  rw [IsWord, show (a ++ c :: b).length = a.length + 1 + b.length by simp; omega,
    maximalRun_split (not_not_intro (separator_append_sep ha hc))]
  simp only [separator_append_right ha hc]
  exact or_congr_left (maximalRun_congr fun k hk => not_congr (separator_append_left hk))

end Words

/-! ## Lexemes -/

section Lexemes
variable {a b : List Byte} {c : Byte}

theorem IsLexeme.shift {x : Lexeme} (ha : quoteState a a.length = none) (hc : IsSeparator c)
    (hx : IsLexeme b x) : IsLexeme (a ++ c :: b) (x.shift (a.length + 1)) := by
  cases hx with
  | operator state char type_eq =>
    exact .operator ((quoteState_append_right ha hc).trans state) (getElem?_append_right.trans char)
      type_eq
  | word run text_eq =>
    exact .word ((isWord_append_iff ha hc).mpr (Or.inr ⟨_, _, rfl, rfl, run⟩))
      (text_eq.trans (wordText_append_right ha hc).symm)

theorem IsLexeme.append_left {x : Lexeme} (ha : quoteState a a.length = none) (hc : IsSeparator c)
    (hx : IsLexeme a x) : IsLexeme (a ++ c :: b) x := by
  cases hx with
  | operator state char type_eq =>
    have hlt := (List.getElem?_eq_some_iff.mp char).1
    exact .operator ((quoteState_append_left (Nat.le_of_lt hlt)).trans state)
      ((List.getElem?_append_left hlt).trans char) type_eq
  | word run text_eq =>
    exact .word ((isWord_append_iff ha hc).mpr (Or.inl run))
      (text_eq.trans (wordText_append_left run.le).symm)

/-- **A lexeme of the whole** is one of the first part, the separator, or one of the
rest. -/
theorem isLexeme_append_iff (ha : quoteState a a.length = none) (hc : IsSeparator c) {x : Lexeme} :
    IsLexeme (a ++ c :: b) x ↔ IsLexeme a x ∨
      (∃ type, operatorType c = some type ∧ x = ⟨type, none, a.length⟩) ∨
      ∃ y, IsLexeme b y ∧ x = y.shift (a.length + 1) := by
  constructor
  · intro h
    rcases h with ⟨state, char, type_eq⟩ | ⟨run, text_eq⟩
    · rename_i k d type
      rcases Nat.lt_trichotomy k a.length with hlt | rfl | hgt
      · rw [quoteState_append_left (Nat.le_of_lt hlt)] at state
        rw [List.getElem?_append_left hlt] at char
        exact Or.inl (.operator state char type_eq)
      · rw [getElem?_append_sep] at char
        cases char
        exact Or.inr (Or.inl ⟨type, type_eq, rfl⟩)
      · -- behind the separator, at `a.length + 1 + j`
        obtain ⟨j, rfl⟩ := Nat.exists_eq_add_of_lt hgt
        rw [Nat.add_right_comm] at state char
        rw [quoteState_append_right ha hc] at state
        rw [getElem?_append_right] at char
        refine Or.inr (Or.inr ⟨⟨type, none, j⟩, .operator state char type_eq, ?_⟩)
        exact Lexeme.ext rfl rfl (Nat.add_right_comm _ _ _)
    · rcases (isWord_append_iff ha hc).mp run with hrun | ⟨x, y, rfl, rfl, hrun⟩
      · exact Or.inl (.word hrun (text_eq.trans (wordText_append_left hrun.le)))
      · exact Or.inr (Or.inr ⟨_, .word hrun (text_eq.trans (wordText_append_right ha hc)), rfl⟩)
  · intro h
    rcases h with hx | ⟨type, htype, rfl⟩ | ⟨y, hy, rfl⟩
    · exact hx.append_left ha hc
    · exact .operator ((quoteState_append_left (Nat.le_refl _)).trans ha) getElem?_append_sep htype
    · exact hy.shift ha hc

theorem IsLexeme.pos_lt {s : List Byte} {x : Lexeme} (hx : IsLexeme s x) : x.pos < s.length := by
  cases hx with
  | operator state char type_eq => exact (List.getElem?_eq_some_iff.mp char).1
  | word run text_eq => exact Nat.lt_of_lt_of_le run.lt run.le

/-- The lexeme that a separator at position `k` is. -/
def separatorLexemes (c : Byte) (k : Nat) : List Lexeme :=
  (operatorType c).toList.map fun type => ⟨type, none, k⟩

/-- **The tokenization of the whole.** -/
theorem IsTokenization.append (ha : quoteState a a.length = none) (hc : IsSeparator c)
    {xs ys : List Lexeme} (hxs : IsTokenization a xs) (hys : IsTokenization b ys) :
    IsTokenization (a ++ c :: b)
      (xs ++ (separatorLexemes c a.length ++ ys.map (Lexeme.shift (a.length + 1)))) where
  increasing := by
    have hsep : ∀ x ∈ separatorLexemes c a.length, x.pos = a.length := by
      intro x hx
      obtain ⟨type, -, rfl⟩ := List.mem_map.mp hx
      rfl
    have hlater : ∀ x ∈ ys.map (Lexeme.shift (a.length + 1)), a.length < x.pos := by
      intro x hx
      obtain ⟨y, -, rfl⟩ := List.mem_map.mp hx
      show a.length < a.length + 1 + y.pos
      omega
    refine List.pairwise_append.mpr ⟨hxs.increasing, List.pairwise_append.mpr ⟨?_, ?_, ?_⟩, ?_⟩
    · cases h : operatorType c <;> simp [separatorLexemes, h]
    · exact hys.increasing.map _ fun x y hlt => Nat.add_lt_add_left hlt _
    · intro x hx y hy
      rw [hsep x hx]
      exact hlater y hy
    · intro x hx y hy
      have hlt := ((hxs.mem x).mp hx).pos_lt
      rcases List.mem_append.mp hy with hy | hy
      · rw [hsep y hy]
        exact hlt
      · exact Nat.lt_trans hlt (hlater y hy)
  mem x := by
    rw [isLexeme_append_iff ha hc, List.mem_append, List.mem_append, hxs.mem]
    refine or_congr_right (or_congr ?_ ?_)
    · simp only [separatorLexemes, List.mem_map, Option.mem_toList]
      exact exists_congr fun type => and_congr_right fun _ => eq_comm
    · simp only [List.mem_map, hys.mem]
      exact exists_congr fun y => and_congr_right fun _ => eq_comm

/-- A line without lexemes. -/
theorem isTokenization_nil : IsTokenization [] [] where
  increasing := .nil
  mem _ := ⟨fun h => absurd h List.not_mem_nil, fun h => absurd h.pos_lt (Nat.not_lt_zero _)⟩

end Lexemes

end SystemsCourse
