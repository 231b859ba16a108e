import SystemsCourse.CommandGrammar
import SystemsCourse.LexicalComposition

/-!
# The pipe symbol composes pipelines

The tokens of `a | b` are those of `a`, a pipe, and those of `b`; its segments are
those of `a` and those of `b`; and what a segment means does not depend on where
it stands.  So `a | b` is accepted exactly if both halves are accepted and neither
is empty.
-/
namespace SystemsCourse

/-! ## Where a segment stands does not matter -/

/-- The lexemes differ in their position at most. -/
def Lexeme.Same (x y : Lexeme) : Prop := x.type = y.type ∧ x.text = y.text

theorem IsItems.same {seg seg' : List Lexeme} {items : List Item} (h : IsItems seg items)
    (hsame : List.Forall₂ Lexeme.Same seg seg') : IsItems seg' items := by
  induction h generalizing seg' with
  | nil =>
    cases hsame
    exact .nil
  | word tail ih =>
    cases hsame with
    | @cons _ y _ _ hxy htail =>
      obtain ⟨type, text, pos⟩ := y
      obtain ⟨rfl, rfl⟩ := hxy
      exact .word (ih htail)
  | redirection redirects tail ih =>
    cases hsame with
    | @cons _ y _ _ hxy htail =>
      cases htail with
      | @cons _ z _ _ hwz htail =>
        obtain ⟨type, text, pos⟩ := y
        obtain ⟨type', text', pos'⟩ := z
        obtain ⟨rfl, -⟩ := hxy
        obtain ⟨rfl, rfl⟩ := hwz
        exact .redirection redirects (ih htail)

theorem segments_same {xs ys : List Lexeme} (h : List.Forall₂ Lexeme.Same xs ys) :
    List.Forall₂ (List.Forall₂ Lexeme.Same) (segments xs) (segments ys) := by
  induction h with
  | nil => exact .cons .nil .nil
  | @cons x y xs ys hxy _ ih =>
    by_cases hx : x.type = .tokPipe
    · rw [segments_pipe hx, segments_pipe (hxy.1 ▸ hx)]
      exact .cons .nil ih
    · rw [segments_item hx, segments_item (hxy.1 ▸ hx)]
      cases hs : segments xs with
      | nil => exact absurd hs (segments_ne_nil xs)
      | cons seg segs =>
        rw [hs] at ih
        obtain ⟨seg', segs', hseg, hsegs, hs'⟩ := List.forall₂_cons_left_iff.mp ih
        rw [hs']
        exact .cons (.cons hxy hseg) hsegs

theorem forall₂_segmentMeans_same {segs segs' : List (List Lexeme)} {vs : List CommandValue}
    (hsame : List.Forall₂ (List.Forall₂ Lexeme.Same) segs segs')
    (h : List.Forall₂ SegmentMeans segs vs) : List.Forall₂ SegmentMeans segs' vs := by
  induction hsame generalizing vs with
  | nil => exact h
  | cons hseg _ ih =>
    cases h with
    | cons hv hvs =>
      obtain ⟨items, hitems, hv⟩ := hv
      exact .cons ⟨items, hitems.same hseg, hv⟩ (ih hvs)

theorem forall₂_segmentMeans_shift {ys : List Lexeme} {vs : List CommandValue} (n : Nat) :
    List.Forall₂ SegmentMeans (segments (ys.map (Lexeme.shift n))) vs ↔
      List.Forall₂ SegmentMeans (segments ys) vs := by
  have hshift : List.Forall₂ Lexeme.Same ys (ys.map (Lexeme.shift n)) :=
    List.forall₂_map_right_iff.mpr (List.forall₂_same.mpr fun _ _ => ⟨rfl, rfl⟩)
  have hback : List.Forall₂ Lexeme.Same (ys.map (Lexeme.shift n)) ys :=
    List.forall₂_map_left_iff.mpr (List.forall₂_same.mpr fun _ _ => ⟨rfl, rfl⟩)
  exact ⟨forall₂_segmentMeans_same (segments_same hback),
    forall₂_segmentMeans_same (segments_same hshift)⟩

/-! ## Both halves -/

/-- `|`. -/
def pipe : CString := ⟨[ch '|'], by decide⟩

/-- An empty segment describes no command. -/
theorem not_segmentMeans_nil {v : CommandValue} : ¬ SegmentMeans [] v := fun h =>
  (continues_nil_iff.mp (continues_zero_iff.mpr h)).2 rfl

/-- Only the empty token list is split differently into commands and into
segments. -/
theorem forall₂_segments_iff {xs : List Lexeme} {vs : List CommandValue} :
    List.Forall₂ SegmentMeans (segments xs) vs ↔
      List.Forall₂ SegmentMeans (commandSegments xs) vs ∧ vs ≠ [] := by
  rw [commandSegments]
  by_cases hxs : xs = []
  · subst hxs
    rw [if_pos rfl, List.forall₂_nil_left_iff]
    refine ⟨fun h => ?_, fun h => absurd h.1 h.2⟩
    obtain ⟨v, _, hv, _⟩ := List.forall₂_cons_left_iff.mp h
    exact absurd hv not_segmentMeans_nil
  · rw [if_neg hxs, iff_self_and]
    rintro h rfl
    exact segments_ne_nil xs (List.forall₂_nil_right_iff.mp h)

theorem commandSegments_pipe {xs ys : List Lexeme} {x : Lexeme} (hx : x.type = .tokPipe) :
    commandSegments (xs ++ x :: ys) = segments xs ++ segments ys := by
  rw [commandSegments, if_neg (by simp), segments, segments, segments,
    List.splitOnP_append_cons _ _ (by simpa using hx)]

theorem forall₂_append_iff {segs segs' : List (List Lexeme)} {vs : List CommandValue} :
    List.Forall₂ SegmentMeans (segs ++ segs') vs ↔ ∃ vs₁ vs₂, vs = vs₁ ++ vs₂ ∧
      List.Forall₂ SegmentMeans segs vs₁ ∧ List.Forall₂ SegmentMeans segs' vs₂ := by
  constructor
  · intro h
    have htake := List.forall₂_take segs.length h
    have hdrop := List.forall₂_drop segs.length h
    rw [List.take_left] at htake
    rw [List.drop_left] at hdrop
    exact ⟨_, _, (List.take_append_drop _ _).symm, htake, hdrop⟩
  · intro h
    obtain ⟨vs₁, vs₂, rfl, h₁, h₂⟩ := h
    exact List.rel_append h₁ h₂

section Pipe
variable {a b : CString} {vs : List CommandValue}

theorem bytes_pipe (a b : CString) : (a ++ pipe ++ b).bytes = a.bytes ++ ch '|' :: b.bytes := by
  simp [pipe]

theorem isSeparator_pipe : IsSeparator (ch '|') := Or.inr (by decide)

theorem quoteState_pipe (ha : quoteState a.bytes a.length = none) :
    quoteState (a ++ pipe ++ b).bytes (a ++ pipe ++ b).length = quoteState b.bytes b.length := by
  have hlen : (a ++ pipe ++ b).length = a.bytes.length + 1 + b.length := by
    rw [CString.length, bytes_pipe]
    simp [CString.length]
    omega
  rw [hlen, bytes_pipe]
  exact quoteState_append_right ha isSeparator_pipe

/-- **What `a | b` means**: what `a` and `b` mean, one behind the other, if neither is
empty. -/
theorem lineMeans_pipe_iff (ha : quoteState a.bytes a.length = none) :
    LineMeans (a ++ pipe ++ b) (.ok vs) ↔ ∃ va vb, vs = va ++ vb ∧
      (LineMeans a (.ok va) ∧ va ≠ []) ∧ LineMeans b (.ok vb) ∧ vb ≠ [] := by
  obtain ⟨xs, hxs⟩ := exists_isTokenization a ha
  by_cases hb : quoteState b.bytes b.length = none
  · obtain ⟨ys, hys⟩ := exists_isTokenization b hb
    have happend := hxs.append ha isSeparator_pipe hys
    rw [← bytes_pipe] at happend
    have hsegs : commandSegments (xs ++ (separatorLexemes (ch '|') a.bytes.length ++
        ys.map (Lexeme.shift (a.bytes.length + 1))))
        = segments xs ++ segments (ys.map (Lexeme.shift (a.bytes.length + 1))) :=
      commandSegments_pipe rfl
    rw [lineMeans_ok_iff_of_tokenization ((quoteState_pipe ha).trans hb) happend, hsegs,
      forall₂_append_iff]
    simp only [lineMeans_ok_iff_of_tokenization ha hxs, lineMeans_ok_iff_of_tokenization hb hys,
      ← forall₂_segments_iff, forall₂_segmentMeans_shift]
  · -- an open quote at the end of `b` is one at the end of the whole
    refine iff_of_false (fun h => ?_) ?_
    · exact hb ((quoteState_pipe ha).symm.trans (lineMeans_ok_iff.mp h).1)
    · intro h
      obtain ⟨_, _, -, -, h, -⟩ := h
      exact hb (lineMeans_ok_iff.mp h).1

/-- **The pipe symbol composes pipelines.** -/
theorem parses_pipe_iff (ha : quoteState a.bytes a.length = none) :
    Parses (a ++ pipe ++ b) vs ↔ ∃ va vb, vs = va ++ vb ∧
      (Parses a va ∧ va ≠ []) ∧ Parses b vb ∧ vb ≠ [] := by
  simp only [parses_iff]
  exact lineMeans_pipe_iff ha

end Pipe

/-- `x | y` has the commands `x` and `y`. -/
theorem parses_pipe_words :
    let x : CString := ⟨[ch 'x'], by decide⟩
    let y : CString := ⟨[ch 'y'], by decide⟩
    Parses (x ++ pipe ++ y) [⟨[x], .none, .none⟩, ⟨[y], .none, .none⟩] := by
  intro x y
  have hx : Parses x [⟨[x], .none, .none⟩] := by
    obtain ⟨vs, hread, h⟩ := @Parses.of_run x .zero _ none _ .empty _ rfl
    cases hread
    exact h
  have hy : Parses y [⟨[y], .none, .none⟩] := by
    obtain ⟨vs, hread, h⟩ := @Parses.of_run y .zero _ none _ .empty _ rfl
    cases hread
    exact h
  exact (parses_pipe_iff (by decide)).mpr
    ⟨_, _, rfl, ⟨hx, List.cons_ne_nil _ _⟩, hy, List.cons_ne_nil _ _⟩

end SystemsCourse
