import SystemsCourse.LineSpacing
import SystemsCourse.LineWriter

/-!
# Redirections may stand anywhere in a command

What a command means depends on its bare words, in their order, and on the targets of
each kind of redirection, but not on how words and redirections are mixed.  So a piece
of a command (`IsPiece`) may be replaced by another one with the same words and the
same targets (`SameItems`), for example by one that has its redirections elsewhere
(`parses_reorder_iff`).
-/
namespace SystemsCourse

/-! ## Items in another order -/

/-- The same words, in the same order, and the same targets of each kind. -/
structure SameItems (items items' : List Item) : Prop where
  words : bareWords items = bareWords items'
  targets : ∀ op, targets op items = targets op items'

namespace SameItems
variable {items items' before after : List Item}

theorem symm (h : SameItems items items') : SameItems items' items :=
  ⟨h.words.symm, fun op => (h.targets op).symm⟩

/-- Items before and behind do not matter. -/
theorem inside (h : SameItems items items') :
    SameItems (before ++ (items ++ after)) (before ++ (items' ++ after)) := by
  constructor
  · simp only [bareWords_append, h.words]
  · intro op
    simp only [targets_append, h.targets op]

theorem describes (h : SameItems items items') {v : CommandValue} (hv : Describes items v) :
    Describes items' v := by
  obtain ⟨hargv, hinput, houtput⟩ := hv
  rw [h.words] at hargv
  rw [h.targets] at hinput houtput
  exact ⟨hargv, hinput, houtput⟩

/-- No items at all. -/
theorem eq_nil (h : SameItems [] items') : items' = [] := by
  cases items' with
  | nil => rfl
  | cons item rest =>
    cases item with
    | word w => exact absurd h.words (List.cons_ne_nil _ _).symm
    | redirection op target =>
      have htargets := h.targets op
      rw [targets_redirection_self] at htargets
      exact absurd htargets (List.cons_ne_nil _ _).symm

end SameItems

/-! ## Segments in which a piece is replaced -/

/-- The lexemes do not end with the operator of a redirection that has no target yet. -/
def Complete (xs : List Lexeme) : Prop := ∀ x, xs.getLast? = some x → ¬ x.type.Redirects

theorem complete_nil : Complete [] := fun _ h => absurd h (Option.some_ne_none _).symm

theorem Complete.tail {x : Lexeme} {xs : List Lexeme} (h : Complete (x :: xs)) : Complete xs := by
  intro y hy
  refine h y ?_
  rw [List.getLast?_cons, hy]
  rfl

theorem Complete.of_append {pre xs : List Lexeme} (h : Complete (pre ++ xs)) : Complete xs := by
  induction pre with
  | nil => exact h
  | cons x pre ih => exact ih h.tail

theorem Complete.not_redirects {x : Lexeme} (h : Complete [x]) : ¬ x.type.Redirects := h x rfl

/-- **The items of a segment** are those of its parts, unless a redirection is cut. -/
theorem IsItems.exists_append {seg seg' : List Lexeme} {items : List Item}
    (h : IsItems (seg ++ seg') items) (hseg : Complete seg) :
    ∃ items₁ items₂, items = items₁ ++ items₂ ∧ IsItems seg items₁ ∧ IsItems seg' items₂ := by
  generalize hwhole : seg ++ seg' = whole at h
  induction h generalizing seg with
  | nil =>
    obtain ⟨rfl, rfl⟩ := List.append_eq_nil_iff.mp hwhole
    exact ⟨[], [], rfl, .nil, .nil⟩
  | @word w pos rest items tail ih =>
    cases seg with
    | nil =>
      obtain rfl : seg' = _ := hwhole
      exact ⟨[], _, rfl, .nil, .word tail⟩
    | cons x seg =>
      rw [List.cons_append] at hwhole
      obtain ⟨rfl, hrest⟩ := List.cons.inj hwhole
      obtain ⟨items₁, items₂, rfl, h₁, h₂⟩ := ih hseg.tail hrest
      exact ⟨.word w :: items₁, items₂, rfl, .word h₁, h₂⟩
  | @redirection op text pos w pos' rest items redirects tail ih =>
    rcases seg with _ | ⟨x, _ | ⟨y, seg⟩⟩
    · obtain rfl : seg' = _ := hwhole
      exact ⟨[], _, rfl, .nil, .redirection redirects tail⟩
    · -- the operator without its target
      obtain ⟨rfl, -⟩ := List.cons.inj hwhole
      exact absurd redirects hseg.not_redirects
    · rw [List.cons_append, List.cons_append] at hwhole
      obtain ⟨rfl, hsecond⟩ := List.cons.inj hwhole
      obtain ⟨rfl, hrest⟩ := List.cons.inj hsecond
      obtain ⟨items₁, items₂, rfl, h₁, h₂⟩ := ih hseg.tail.tail hrest
      exact ⟨.redirection op w :: items₁, items₂, rfl, .redirection redirects h₁, h₂⟩

theorem modifyHead_nil_append {α : Type} (ls : List (List α)) : ls.modifyHead ([] ++ ·) = ls := by
  cases ls <;> rfl

section Replace
variable {ts ts' : List Lexeme} {items items' : List Item}

theorem IsItems.complete (h : IsItems ts items) : Complete ts := by
  induction h with
  | nil => exact complete_nil
  | @word w pos rest items tail ih =>
    intro x hx
    cases rest with
    | nil =>
      cases hx
      exact fun hop => by rcases hop with hop | hop <;> cases hop
    | cons y rest => exact ih x (by rwa [List.getLast?_cons_cons] at hx)
  | @redirection op text pos w pos' rest items redirects tail ih =>
    intro x hx
    cases rest with
    | nil =>
      cases hx
      exact fun hop => by rcases hop with hop | hop <;> cases hop
    | cons y rest =>
      rw [List.getLast?_cons_cons, List.getLast?_cons_cons] at hx
      exact ih x hx

/-- The same lexemes have the same items. -/
theorem IsItems.unique {seg : List Lexeme} {is js : List Item} (h : IsItems seg is) (h' : IsItems seg js) :
    is = js := by
  induction h generalizing js with
  | nil =>
    cases h'
    rfl
  | word tail ih =>
    cases h' with
    | word tail' => rw [ih tail']
    | redirection redirects tail' => rcases redirects with hop | hop <;> cases hop
  | redirection redirects tail ih =>
    cases h' with
    | word tail' => rcases redirects with hop | hop <;> cases hop
    | redirection _ tail' => rw [ih tail']

variable (hts : IsItems ts items) (hts' : IsItems ts' items') (hsame : SameItems items items')
include hts hts' hsame

/-- **A segment in which a piece is replaced** means the same. -/
theorem SegmentMeans.replace {seg seg' : List Lexeme} {v : CommandValue} (hseg : Complete seg)
    (h : SegmentMeans (seg ++ (ts ++ seg')) v) : SegmentMeans (seg ++ (ts' ++ seg')) v := by
  obtain ⟨all, hall, hdescribes, hargv⟩ := h
  obtain ⟨before, rest, rfl, hbefore, hrest⟩ := hall.exists_append hseg
  obtain ⟨piece, after, rfl, hpiece, hafter⟩ := hrest.exists_append hts.complete
  rw [hpiece.unique hts] at hdescribes
  exact ⟨_, hbefore.append (hts'.append hafter), hsame.inside.describes hdescribes, hargv⟩

omit hts' hsame in
/-- A piece of a command goes to the first segment of what is behind it. -/
theorem segments_items (zs : List Lexeme) : segments (ts ++ zs) = (segments zs).modifyHead (ts ++ ·) := by
  have hpipe := hts.ne_tokPipe
  clear hts
  induction ts with
  | nil =>
    obtain ⟨seg, segs, hsegs⟩ := List.exists_cons_of_ne_nil (segments_ne_nil zs)
    rw [List.nil_append, hsegs]
    rfl
  | cons x ts ih =>
    obtain ⟨hx, hrest⟩ := List.forall_mem_cons.mp hpipe
    rw [List.cons_append, segments_item (of_decide_eq_false hx), ih hrest, List.modifyHead_modifyHead]
    rfl

/-- The segments of a token list in which a piece of a command is replaced. -/
theorem forall₂_segments_replace {xs ys : List Lexeme} {vs : List CommandValue} (pre : List Lexeme)
    (hpre : Complete (pre ++ xs))
    (h : List.Forall₂ SegmentMeans ((segments (xs ++ (ts ++ ys))).modifyHead (pre ++ ·)) vs) :
    List.Forall₂ SegmentMeans ((segments (xs ++ (ts' ++ ys))).modifyHead (pre ++ ·)) vs := by
  induction xs generalizing pre vs with
  | nil =>
    rw [List.append_nil] at hpre
    obtain ⟨seg, segs, hsegs⟩ := List.exists_cons_of_ne_nil (segments_ne_nil ys)
    rw [List.nil_append, segments_items hts, hsegs] at h
    rw [List.nil_append, segments_items hts', hsegs]
    cases h with
    | cons hv hvs => exact .cons (hv.replace hts hts' hsame hpre) hvs
  | cons x xs ih =>
    by_cases hx : x.type = .tokPipe
    · -- the piece is in another command
      rw [List.cons_append, segments_pipe hx, List.modifyHead_cons] at h ⊢
      cases h with
      | cons hv hvs =>
        refine .cons hv ?_
        rw [← modifyHead_nil_append (segments _)] at hvs ⊢
        exact ih [] (hpre.of_append.tail) hvs
    · have hmove : (pre ++ ·) ∘ (x :: ·) = ((pre ++ [x]) ++ ·) := by
        funext seg
        exact (List.append_assoc pre [x] seg).symm
      rw [List.cons_append, segments_item hx, List.modifyHead_modifyHead, hmove] at h ⊢
      refine ih (pre ++ [x]) ?_ h
      rwa [List.append_assoc]

end Replace

/-! ## Lines in which a piece is replaced -/

theorem commandSegments_same {xs ys : List Lexeme} {vs : List CommandValue}
    (hsame : List.Forall₂ Lexeme.Same xs ys)
    (h : List.Forall₂ SegmentMeans (commandSegments xs) vs) :
    List.Forall₂ SegmentMeans (commandSegments ys) vs := by
  by_cases hxs : xs = []
  · subst hxs
    cases hsame
    exact h
  · have hys : ys ≠ [] := by
      rintro rfl
      exact hxs (List.forall₂_nil_right_iff.mp hsame)
    rw [commandSegments, if_neg hxs] at h
    rw [commandSegments, if_neg hys]
    exact forall₂_segmentMeans_same (segments_same hsame) h

theorem Lexeme.Same.flip {xs ys : List Lexeme} (h : List.Forall₂ Lexeme.Same xs ys) :
    List.Forall₂ Lexeme.Same ys xs :=
  (h.imp fun _ _ hxy => (⟨hxy.1.symm, hxy.2.symm⟩ : Lexeme.Same _ _)).flip

/-- **What a line means** depends on its lexemes, wherever they stand. -/
theorem parses_iff_of_lexes {line : CString} {xs : List Lexeme} (h : Lexes line.bytes xs)
    {vs : List CommandValue} : Parses line vs ↔ List.Forall₂ SegmentMeans (commandSegments xs) vs := by
  obtain ⟨hstate, zs, hzs, hsame⟩ := h
  rw [parses_iff, lineMeans_ok_iff_of_tokenization hstate hzs]
  exact ⟨commandSegments_same (Lexeme.Same.flip hsame), commandSegments_same hsame⟩

/-- The lexemes of two parts that stand together without making up a word. -/
theorem Lexes.join {a b : List Byte} {ts us : List Lexeme} (hapart : Apart a b) (ha : Lexes a ts)
    (hb : Lexes b us) : Lexes (a ++ b) (ts ++ us) := by
  obtain ⟨hstate, xs, hxs, hsame⟩ := ha
  obtain ⟨hstate', ys, hys, hsame'⟩ := hb
  have hshift : List.Forall₂ Lexeme.Same us (ys.map (Lexeme.shift a.length)) := List.forall₂_map_right_iff.mpr hsame'
  refine ⟨?_, _, hxs.join hapart hstate hys, List.rel_append hsame hshift⟩
  rw [List.length_append, quoteState_append hstate]
  exact hstate'

/-- Between `a` and `b`, `u` is a piece of a command that consists of `items`: it begins
and ends between two tokens, and not with the target of a redirection that begins
before it. -/
structure IsPiece (a u b : List Byte) (items : List Item) : Prop where
  front : ∃ xs, Lexes a xs ∧ Complete xs
  piece : ∃ ts, Lexes u ts ∧ IsItems ts items
  left : Apart a u
  right : Apart (a ++ u) b

section Lines
variable {a u u' b : List Byte} {line line' : CString} {items items' : List Item} {vs : List CommandValue}

theorem Parses.replace (hline : line.bytes = a ++ u ++ b) (hline' : line'.bytes = a ++ u' ++ b)
    (hpiece : IsPiece a u b items) (hpiece' : IsPiece a u' b items') (hsame : SameItems items items')
    (h : Parses line vs) : Parses line' vs := by
  obtain ⟨xs, ha, hcomplete⟩ := hpiece.front
  obtain ⟨ts, hu, hts⟩ := hpiece.piece
  obtain ⟨ts', hu', hts'⟩ := hpiece'.piece
  have hfront := ha.join hpiece.left hu
  have hfront' := ha.join hpiece'.left hu'
  have hb : quoteState b b.length = none := by
    have hbalanced := (lineMeans_ok_iff.mp (parses_iff.mp h)).1
    rw [CString.length, hline, List.length_append, quoteState_append hfront.1] at hbalanced
    exact hbalanced
  have hnoNul : (0 : Byte) ∉ b := fun hmem => line.noNul (by rw [hline]; simp [hmem])
  obtain ⟨ys, hys⟩ := exists_isTokenization ⟨b, hnoNul⟩ hb
  have hlexes : Lexes b ys := ⟨hb, ys, hys, List.forall₂_same.mpr fun _ _ => ⟨rfl, rfl⟩⟩
  have hwhole := hfront.join hpiece.right hlexes
  have hwhole' := hfront'.join hpiece'.right hlexes
  rw [← hline, List.append_assoc] at hwhole
  rw [← hline', List.append_assoc] at hwhole'
  rw [parses_iff_of_lexes hwhole] at h
  rw [parses_iff_of_lexes hwhole']
  by_cases hvs : vs = []
  · -- no commands: there are no lexemes at all
    subst hvs
    have hempty : xs ++ (ts ++ ys) = [] := by
      by_contra hne
      rw [commandSegments, if_neg hne] at h
      exact segments_ne_nil _ (List.forall₂_nil_right_iff.mp h)
    obtain ⟨rfl, hrest⟩ := List.append_eq_nil_iff.mp hempty
    obtain ⟨rfl, rfl⟩ := List.append_eq_nil_iff.mp hrest
    cases hts
    obtain rfl := hsame.eq_nil
    cases hts'
    exact h
  · have hsegments := forall₂_segments_iff.mpr ⟨h, hvs⟩
    rw [← modifyHead_nil_append (segments _)] at hsegments
    have hreplaced := forall₂_segments_replace hts hts' hsame [] hcomplete hsegments
    rw [modifyHead_nil_append] at hreplaced
    exact (forall₂_segments_iff.mp hreplaced).1

/-- **Redirections may stand anywhere in a command.**  If two pieces of a command have the
same words in the same order and the same targets of each kind of redirection, however
these are mixed, then lines that differ only in these two pieces mean the same pipeline,
or are both rejected. -/
theorem parses_reorder_iff (hline : line.bytes = a ++ u ++ b) (hline' : line'.bytes = a ++ u' ++ b)
    (hpiece : IsPiece a u b items) (hpiece' : IsPiece a u' b items') (hsame : SameItems items items') :
    Parses line vs ↔ Parses line' vs :=
  ⟨Parses.replace hline hline' hpiece hpiece' hsame, Parses.replace hline' hline hpiece' hpiece hsame.symm⟩

end Lines

/-- `'c' < 'f' 'x'` and `'c' 'x' < 'f'`: the pieces end the lines. -/
def redirectionFirst : CString :=
  ⟨(writeBytes [ch 'c'] ++ ch ' ' :: []) ++ ([] ++ ch ' ' :: ch '<' :: ch ' ' :: (writeBytes [ch 'f'] ++
    ch ' ' :: writeBytes [ch 'x'])) ++ [], by decide⟩
def redirectionLast : CString :=
  ⟨(writeBytes [ch 'c'] ++ ch ' ' :: []) ++ (writeBytes [ch 'x'] ++ ch ' ' :: ch '<' :: ch ' ' ::
    writeBytes [ch 'f']) ++ [], by decide⟩

theorem parses_reorder_iff_cat :
    let c : CString := ⟨[ch 'c'], by decide⟩
    let f : CString := ⟨[ch 'f'], by decide⟩
    let x : CString := ⟨[ch 'x'], by decide⟩
    Parses redirectionFirst [⟨[c, x], .file f, .none⟩] ↔ Parses redirectionLast [⟨[c, x], .file f, .none⟩] := by
  intro c f x
  have hless : operatorType (ch '<') = some .tokIn := by decide
  have hfront := (lexes_writeBytes c).append_blank Lexes.nil
  have hword : IsItems [⟨.tokWord, some c, 0⟩] [.word c] := .word .nil
  have hleft (u : List Byte) : Apart (writeBytes [ch 'c'] ++ ch ' ' :: []) u :=
    .before rfl (lexes_writeBytes c).1 Lexes.isSeparator_blank
  have hfirst := Lexes.nil.append_operator hless ((lexes_writeBytes f).append_blank (lexes_writeBytes x))
  have hlast := (lexes_writeBytes x).append_operator hless (lexes_writeBytes f)
  have hsame : SameItems [.redirection .tokIn f, .word x] [.word x, .redirection .tokIn f] :=
    ⟨rfl, fun op => by cases op <;> rfl⟩
  exact parses_reorder_iff rfl rfl
    ⟨⟨_, hfront, hword.complete⟩, ⟨_, hfirst, .redirection (.inl rfl) (.word .nil)⟩, hleft _, .ending rfl⟩
    ⟨⟨_, hfront, hword.complete⟩, ⟨_, hlast, .word (.redirection (.inl rfl) .nil)⟩, hleft _, .ending rfl⟩ hsame

end SystemsCourse
