import SystemsCourse.LexicalComposition
import SystemsCourse.ParseRefinement

/-!
# White space is not significant

Outside quotes, how much white space stands somewhere does not matter, nor whether any
does beside an operator, another white space or an end of the line (`Apart`): the
lexemes of the line are the same, further on or further back
(`IsTokenization.spaced`), and the recognition does not look at positions but to
report them (`parseFrom_move`).  So `pipeline_parse` builds the same pipeline, or
reports the same error where it now is (`pipelineParse_spaced`).
-/
namespace SystemsCourse
open Prog

/-! ## The recognition does not look at positions -/

/-- The lexeme at another position. -/
def Lexeme.move (f : Nat → Nat) (x : Lexeme) : Lexeme := { x with pos := f x.pos }

/-- The rejection at another position. -/
def Rejection.move (f : Nat → Nat) (r : Rejection) : Rejection := (f r.1, r.2)

theorem parseFrom_move (f : Nat → Nat) {last : Lexeme} (hlast : last.type = .tokEnd) :
    ∀ {xs : List Lexeme} {start : Bool} {done : List CommandValue} {c : CommandValue},
      parseFrom start done c (xs.map (Lexeme.move f) ++ [last.move f]) =
        (parseFrom start done c (xs ++ [last])).mapError (Rejection.move f)
  | [], start, done, c => by
    rw [List.map_nil, List.nil_append, List.nil_append, parseFrom_end hlast,
      parseFrom_end (show (last.move f).type = .tokEnd from hlast)]
    split_ifs <;> rfl
  | x :: rest, start, done, c => by
    rw [List.map_cons, List.cons_append, List.cons_append]
    cases hx : x.type with
    | tokEnd =>
      rw [parseFrom_end hx, parseFrom_end (show (x.move f).type = .tokEnd from hx)]
      split_ifs <;> rfl
    | tokPipe =>
      have hhead : ((rest.map (Lexeme.move f) ++ [last.move f]).head?.map Lexeme.type) =
          ((rest ++ [last]).head?.map Lexeme.type) := by
        cases rest <;> rfl
      rw [parseFrom_pipe hx, parseFrom_pipe (show (x.move f).type = .tokPipe from hx), hhead]
      split_ifs
      · rfl
      · rfl
      · rfl
      · exact parseFrom_move f hlast
    | tokWord =>
      rw [parseFrom_word hx, parseFrom_word (show (x.move f).type = .tokWord from hx)]
      exact parseFrom_move f hlast
    | tokIn | tokOut =>
      have hop : x.type.Redirects := by
        rw [hx]
        first | exact .inl rfl | exact .inr rfl
      have hop' : (x.move f).type.Redirects := hop
      cases rest with
      | nil =>
        rw [List.map_nil, List.nil_append, List.nil_append, parseFrom_redirection hop,
          parseFrom_redirection hop', if_pos (show (last.move f).type ≠ .tokWord by
            rw [show (last.move f).type = .tokEnd from hlast]
            exact TokenType.noConfusion), if_pos (by rw [hlast]; exact TokenType.noConfusion)]
        rfl
      | cons y rest =>
        rw [List.map_cons, List.cons_append, List.cons_append, parseFrom_redirection hop,
          parseFrom_redirection hop']
        by_cases hword : y.type = .tokWord
        · rw [if_neg (not_not_intro hword), if_neg (not_not_intro (show (y.move f).type = .tokWord from hword))]
          cases htarget : setTarget (c.redirection x.type) y.word with
          | error msg =>
            rw [show setTarget (c.redirection (x.move f).type) (y.move f).word = .error msg from htarget]
            rfl
          | ok target =>
            rw [show setTarget (c.redirection (x.move f).type) (y.move f).word = .ok target from htarget]
            exact parseFrom_move f hlast
        · rw [if_pos hword, if_pos (show (y.move f).type ≠ .tokWord from hword)]
          rfl
  termination_by xs => xs.length

/-! ## The lexemes on both sides of a gap -/

/-- What stands at the joint of `a` and `b` separates words. -/
inductive Apart (a b : List Byte) : Prop where
  | start (nil : a = [])
  | ending (nil : b = [])
  | before {c : Byte} {a' : List Byte} (cut : a = a' ++ [c]) (state : quoteState a' a'.length = none)
      (separator : IsSeparator c)
  | behind {c : Byte} {b' : List Byte} (cut : b = c :: b') (separator : IsSeparator c)

/-- White space. -/
def Blank (w : List Byte) : Prop := ∀ c ∈ w, isspace c

section Gap
variable {a b w : List Byte}

theorem quoteState_append (ha : quoteState a a.length = none) (k : Nat) :
    quoteState (a ++ b) (a.length + k) = quoteState b k := by
  induction k with
  | zero => exact (quoteState_append_left (Nat.le_refl _)).trans ha
  | succ k ih =>
    rw [← Nat.add_assoc, quoteState, quoteState, ih,
      List.getElem?_append_right (Nat.le_add_right _ _), Nat.add_sub_cancel_left]

theorem not_isLexeme_nil {x : Lexeme} : ¬ IsLexeme [] x := fun h => Nat.not_lt_zero _ h.pos_lt

theorem isLexeme_shift_zero {x : Lexeme} : x.shift 0 = x := Lexeme.ext rfl rfl (Nat.zero_add _)

/-- **The lexemes of the whole** are those of the parts. -/
theorem isLexeme_join (hapart : Apart a b) (ha : quoteState a a.length = none) {x : Lexeme} :
    IsLexeme (a ++ b) x ↔ IsLexeme a x ∨ ∃ y, IsLexeme b y ∧ x = y.shift a.length := by
  cases hapart with
  | start nil =>
    subst nil
    simp [not_isLexeme_nil, isLexeme_shift_zero]
  | ending nil =>
    subst nil
    simp [not_isLexeme_nil]
  | @before c a' cut state separator =>
    subst cut
    have hwhole := isLexeme_append_iff (b := b) state separator (x := x)
    have hfront := isLexeme_append_iff (b := []) state separator (x := x)
    rw [List.append_assoc, List.singleton_append, hwhole, hfront, List.length_append,
      List.length_singleton]
    simp only [not_isLexeme_nil, false_and, exists_false, or_false, or_assoc]
  | @behind c b' cut separator =>
    subst cut
    rw [isLexeme_append_iff ha separator]
    refine or_congr_right ?_
    have hrest (y : Lexeme) : IsLexeme (c :: b') y ↔
        (∃ type, operatorType c = some type ∧ y = ⟨type, none, 0⟩) ∨
          ∃ z, IsLexeme b' z ∧ y = z.shift 1 := by
      have hcons := isLexeme_append_iff (a := []) (b := b') rfl separator (x := y)
      simpa only [List.nil_append, not_isLexeme_nil, false_or, List.length_nil, Nat.zero_add] using hcons
    simp only [hrest]
    constructor
    · rintro (⟨type, htype, rfl⟩ | ⟨z, hz, rfl⟩)
      · exact ⟨_, .inl ⟨type, htype, rfl⟩, rfl⟩
      · exact ⟨_, .inr ⟨z, hz, rfl⟩, Lexeme.ext rfl rfl (Nat.add_assoc _ _ _)⟩
    · rintro ⟨_, ⟨type, htype, rfl⟩ | ⟨z, hz, rfl⟩, rfl⟩
      · exact .inl ⟨type, htype, rfl⟩
      · exact .inr ⟨z, hz, Lexeme.ext rfl rfl (Nat.add_assoc _ _ _).symm⟩

/-- **The tokenization of the whole.** -/
theorem IsTokenization.join (hapart : Apart a b) (ha : quoteState a a.length = none)
    {xs ys : List Lexeme} (hxs : IsTokenization a xs) (hys : IsTokenization b ys) :
    IsTokenization (a ++ b) (xs ++ ys.map (Lexeme.shift a.length)) where
  increasing := by
    refine List.pairwise_append.mpr ⟨hxs.increasing,
      hys.increasing.map _ fun x y hlt => Nat.add_lt_add_left hlt _, fun x hx y hy => ?_⟩
    obtain ⟨z, -, rfl⟩ := List.mem_map.mp hy
    exact Nat.lt_of_lt_of_le ((hxs.mem x).mp hx).pos_lt (Nat.le_add_right _ _)
  mem x := by
    rw [isLexeme_join hapart ha, List.mem_append, hxs.mem, List.mem_map]
    simp only [hys.mem, eq_comm]

/-- White space has no lexemes, and opens no quote. -/
theorem Blank.isTokenization (hw : Blank w) :
    quoteState w w.length = none ∧ IsTokenization w [] := by
  induction w with
  | nil => exact ⟨rfl, isTokenization_nil⟩
  | cons c w ih =>
    have hspace := hw c List.mem_cons_self
    obtain ⟨hstate, htokens⟩ := ih fun d hd => hw d (List.mem_cons_of_mem c hd)
    have hone : quoteState [c] 1 = none := quoteState_succ_outside rfl rfl (not_isQuote_of_isspace hspace)
    constructor
    · have happend := quoteState_append (a := [c]) (b := w) hone w.length
      rw [List.length_singleton, Nat.add_comm] at happend
      exact happend.trans hstate
    · have happend := isTokenization_nil.append (a := []) rfl (.inl hspace) htokens
      rwa [List.nil_append, separatorLexemes, operatorType_of_isspace hspace] at happend

/-- White space, or what the joint needs instead. -/
def Gap (a w b : List Byte) : Prop := Blank w ∧ (w = [] → Apart a b)

theorem Gap.balanced (hgap : Gap a w b) (ha : quoteState a a.length = none) :
    quoteState (a ++ w) (a ++ w).length = none := by
  rw [List.length_append, quoteState_append ha]
  exact hgap.1.isTokenization.1

/-- **The tokenization of a line with a gap.** -/
theorem IsTokenization.spaced (hgap : Gap a w b) (ha : quoteState a a.length = none)
    {xs ys : List Lexeme} (hxs : IsTokenization a xs) (hys : IsTokenization b ys) :
    IsTokenization (a ++ w ++ b) (xs ++ ys.map (Lexeme.shift (a ++ w).length)) := by
  have hw := hgap.1
  by_cases hnil : w = []
  · subst hnil
    rw [List.append_nil]
    exact hxs.join (hgap.2 rfl) ha hys
  · have hfront : IsTokenization (a ++ w) xs := by
      obtain ⟨c, w', rfl⟩ := List.exists_cons_of_ne_nil hnil
      have hjoin := hxs.join (.behind rfl (.inl (hw c List.mem_cons_self))) ha hw.isTokenization.2
      rwa [List.map_nil, List.append_nil] at hjoin
    obtain ⟨w', c, rfl⟩ := (List.eq_nil_or_concat' w).resolve_left hnil
    have hw' : Blank w' := fun d hd => hw d (List.mem_append_left _ hd)
    have hspace : isspace c := hw c (List.mem_append_right _ List.mem_cons_self)
    have hstate : quoteState (a ++ w') (a ++ w').length = none := by
      rw [List.length_append, quoteState_append ha]
      exact hw'.isTokenization.1
    exact hfront.join (.before (List.append_assoc _ _ _).symm hstate (.inl hspace)) (hgap.balanced ha) hys

/-! ## The quote that is not closed -/

/-- An open quote has been opened somewhere. -/
theorem exists_isLastOpening {s : List Byte} {i : Nat} (h : quoteState s i ≠ none) :
    ∃ p, IsLastOpening s i p := by
  induction i with
  | zero => exact absurd rfl h
  | succ i ih =>
    cases hstate : quoteState s i with
    | none =>
      cases hc : s[i]? with
      | none => simp [quoteState, hstate, hc] at h
      | some c =>
        have hquote : isQuote c := by
          by_contra hquote
          exact h (quoteState_succ_outside hstate hc (Bool.eq_false_iff.mpr hquote))
        exact ⟨i, ⟨hstate, c, hc, hquote⟩, Nat.lt_succ_self i, fun k hlt hle => by omega⟩
    | some q =>
      obtain ⟨p, hopening, hlt, hlast⟩ := ih (by rw [hstate]; exact Option.some_ne_none q)
      refine ⟨p, hopening, Nat.lt_succ_of_lt hlt, fun k hp hk hopen => ?_⟩
      rcases Nat.lt_succ_iff_lt_or_eq.mp hk with hk | rfl
      · exact hlast k hp hk hopen
      · exact absurd (hopen.1.symm.trans hstate) (Option.some_ne_none q).symm

theorem opening_append (ha : quoteState a a.length = none) (k : Nat) :
    Opening (a ++ b) (a.length + k) ↔ Opening b k := by
  rw [Opening, quoteState_append ha, List.getElem?_append_right (Nat.le_add_right _ _),
    Nat.add_sub_cancel_left, ← Opening]

theorem IsLastOpening.join (ha : quoteState a a.length = none) {i p : Nat} (h : IsLastOpening b i p) :
    IsLastOpening (a ++ b) (a.length + i) (a.length + p) where
  opening := (opening_append ha p).mpr h.opening
  lt := Nat.add_lt_add_left h.lt _
  last k hp hk hopening := by
    obtain ⟨j, rfl⟩ := Nat.exists_eq_add_of_le (Nat.le_of_lt (Nat.lt_of_le_of_lt (Nat.le_add_right _ p) hp))
    exact h.last j (Nat.lt_of_add_lt_add_left hp) (Nat.lt_of_add_lt_add_left hk)
      ((opening_append ha j).mp hopening)

end Gap

/-! ## Two lines that differ in a gap -/

/-- Where position `p` is when `new` characters stand behind the first `front` instead
of `old`. -/
def moved (front old new p : Nat) : Nat := if p < front then p else p - old + new

section Lines
variable {a b w w' : List Byte} {line line' : CString}

theorem moved_front {old new p : Nat} (hp : p < a.length) : moved a.length old new p = p := if_pos hp

theorem moved_behind (p : Nat) : moved a.length w.length w'.length ((a ++ w).length + p) =
    (a ++ w').length + p := by
  rw [moved, List.length_append, List.length_append, if_neg (by omega)]
  omega

/-- The parts of a line are strings. -/
theorem exists_parts (hline : line.bytes = a ++ w ++ b) (ha : quoteState a a.length = none) (hb : quoteState b b.length = none) :
    (∃ xs, IsTokenization a xs) ∧ ∃ ys, IsTokenization b ys := by
  have hnoNul := line.noNul
  rw [hline, List.mem_append, List.mem_append, not_or, not_or] at hnoNul
  exact ⟨exists_isTokenization ⟨a, hnoNul.1.1⟩ ha, exists_isTokenization ⟨b, hnoNul.2⟩ hb⟩

variable (hline : line.bytes = a ++ w ++ b) (hline' : line'.bytes = a ++ w' ++ b)
include hline hline'

/-- **What a line means does not depend on its white space**, but for the position of
an error. -/
theorem LineMeans.spaced (ha : quoteState a a.length = none) (hgap : Gap a w b) (hgap' : Gap a w' b)
    {r : Except Rejection (List CommandValue)} (h : LineMeans line r) :
    LineMeans line' (r.mapError (Rejection.move (moved a.length w.length w'.length))) := by
  have hlength : line.length = (a ++ w).length + b.length := by
    rw [CString.length, hline, List.length_append]
  have hlength' : line'.length = (a ++ w').length + b.length := by
    rw [CString.length, hline', List.length_append]
  have hstate : quoteState line.bytes line.length = quoteState b b.length := by
    rw [hline, hlength]
    exact quoteState_append (hgap.balanced ha) _
  have hstate' : quoteState line'.bytes line'.length = quoteState b b.length := by
    rw [hline', hlength']
    exact quoteState_append (hgap'.balanced ha) _
  cases h with
  | @unterminated p unbalanced opening =>
    rw [hstate] at unbalanced
    obtain ⟨q, hq⟩ := exists_isLastOpening unbalanced
    have hjoin : IsLastOpening line.bytes line.length ((a ++ w).length + q) := by
      rw [hline, hlength]
      exact hq.join (hgap.balanced ha)
    have hjoin' : IsLastOpening line'.bytes line'.length ((a ++ w').length + q) := by
      rw [hline', hlength']
      exact hq.join (hgap'.balanced ha)
    rw [opening.unique hjoin]
    show LineMeans line' (.error (moved a.length w.length w'.length ((a ++ w).length + q), "unterminated quote"))
    rw [moved_behind]
    exact .unterminated (hstate' ▸ unbalanced) hjoin'
  | @tokens zs balanced tokenization =>
    rw [hstate] at balanced
    obtain ⟨⟨xs, hxs⟩, ys, hys⟩ := exists_parts hline ha balanced
    have hwhole := IsTokenization.spaced hgap ha hxs hys
    have hwhole' := IsTokenization.spaced hgap' ha hxs hys
    rw [← hline] at hwhole
    rw [← hline'] at hwhole'
    rw [tokenization.unique hwhole]
    have hfront : xs.map (Lexeme.move (moved a.length w.length w'.length)) = xs := by
      refine (List.map_congr_left fun x hx => ?_).trans (List.map_id xs)
      exact Lexeme.ext rfl rfl (moved_front ((hxs.mem x).mp hx).pos_lt)
    have hbehind : (ys.map (Lexeme.shift (a ++ w).length)).map
        (Lexeme.move (moved a.length w.length w'.length)) = ys.map (Lexeme.shift (a ++ w').length) := by
      rw [List.map_map]
      exact List.map_congr_left fun y _ => Lexeme.ext rfl rfl (moved_behind y.pos)
    have hend : Lexeme.move (moved a.length w.length w'.length) ⟨.tokEnd, none, line.length⟩ =
        ⟨.tokEnd, none, line'.length⟩ := by
      rw [hlength, hlength']
      exact Lexeme.ext rfl rfl (moved_behind b.length)
    have hmeans := LineMeans.tokens (hstate'.trans balanced) hwhole'
    rw [← hfront, ← hbehind, ← List.map_append, ← hend, parseLexemes, parseFrom_move _ rfl] at hmeans
    exact hmeans

/-- **White space outside quotes is not significant.**  If two lines differ only in how
much white space stands at one place outside quotes — and in whether any does, beside
an operator, another white space or an end of the line — `pipeline_parse` accepts
both, with pipelines that say the same, or rejects both, with the same message at the
same place. -/
theorem pipelineParse_spaced (ha : quoteState a a.length = none) (hgap : Gap a w b) (hgap' : Gap a w' b)
    (p p' : Pipeline) (e e' : ParseError) (m m' : Memory) :
    ∃ status q q' e₁ e₁' m₁ m₁',
      pipelineParse (some line) (some p) (some e) Script.generous m = some ((status, some q, e₁), m₁) ∧
      pipelineParse (some line') (some p') (some e') Script.generous m' =
        some ((status, some q', e₁'), m₁') ∧
      (status = .parseSuccess → ∃ vs, q.read = some vs ∧ q'.read = some vs) ∧
      (status = .parseFailed → ∃ err, e₁ = some err ∧
        e₁' = some ⟨moved a.length w.length w'.length err.position, err.message⟩) := by
  obtain ⟨⟨status, _, e₁⟩, m₁, hrun, q, rfl, -, hpost⟩ :=
    wp_iff.mp (pipelineParse_spec (σ := Script.generous) line p (some e) (m := m) rfl)
  obtain ⟨⟨status', _, e₁'⟩, m₁', hrun', q', rfl, -, hpost'⟩ :=
    wp_iff.mp (pipelineParse_spec (σ := Script.generous) line' p' (some e') (m := m') rfl)
  rcases hpost with ⟨rfl, cap, vs, hbuilt, hmeans⟩ | ⟨rfl, -, hrejected⟩
  · have hmeans' := hmeans.spaced hline hline' ha hgap hgap'
    rcases hpost' with ⟨rfl, cap', vs', hbuilt', hmeans''⟩ | ⟨rfl, -, hrejected'⟩
    · cases hmeans'.unique hmeans''
      exact ⟨_, q, q', e₁, e₁', m₁, m₁', hrun, hrun', fun _ => ⟨vs, hbuilt.read, hbuilt'.read⟩,
        ParseStatus.noConfusion⟩
    · obtain ⟨pos, msg, herr, -⟩ := hrejected'.resolve_left Script.not_refuses_generous
      cases hmeans'.unique herr
  · obtain ⟨pos, msg, herr, rfl⟩ := hrejected.resolve_left Script.not_refuses_generous
    have herr' := herr.spaced hline hline' ha hgap hgap'
    rcases hpost' with ⟨rfl, cap', vs', hbuilt', hmeans''⟩ | ⟨rfl, -, hrejected'⟩
    · cases herr'.unique hmeans''
    · obtain ⟨pos', msg', herr'', rfl⟩ := hrejected'.resolve_left Script.not_refuses_generous
      cases herr'.unique herr''
      exact ⟨_, q, q', _, _, m₁, m₁', hrun, hrun', ParseStatus.noConfusion, fun _ => ⟨_, rfl, rfl⟩⟩

end Lines

/-- Two blanks, or none, in front of a pipe. -/
def spacedPipe : CString := ⟨[ch 'a', ch ' ', ch ' ', ch '|', ch 'b'], by decide⟩
def tightPipe : CString := ⟨[ch 'a', ch '|', ch 'b'], by decide⟩

theorem pipelineParse_spaced_pipe :
    ∃ status q q' e₁ e₁' m₁ m₁',
      pipelineParse (some spacedPipe) (some Pipeline.zero) (some ParseError.zero) Script.generous
        Memory.empty = some ((status, some q, e₁), m₁) ∧
      pipelineParse (some tightPipe) (some Pipeline.zero) (some ParseError.zero) Script.generous
        Memory.empty = some ((status, some q', e₁'), m₁') ∧
      (status = .parseSuccess → ∃ vs, q.read = some vs ∧ q'.read = some vs) ∧
      (status = .parseFailed → ∃ err, e₁ = some err ∧ e₁' = some ⟨moved 1 2 0 err.position, err.message⟩) :=
  have hapart : Apart [ch 'a'] [ch '|', ch 'b'] := .behind rfl (.inr (by decide))
  have hgap : Gap [ch 'a'] [ch ' ', ch ' '] [ch '|', ch 'b'] := by
    refine ⟨fun c hc => ?_, fun _ => hapart⟩
    rcases List.mem_cons.mp hc with rfl | hc
    · rfl
    · rw [List.mem_singleton.mp hc]
      rfl
  have hgap' : Gap [ch 'a'] [] [ch '|', ch 'b'] := ⟨fun c hc => absurd hc List.not_mem_nil, fun _ => hapart⟩
  have hline : spacedPipe.bytes = [ch 'a'] ++ [ch ' ', ch ' '] ++ [ch '|', ch 'b'] := rfl
  have hline' : tightPipe.bytes = [ch 'a'] ++ [] ++ [ch '|', ch 'b'] := rfl
  pipelineParse_spaced hline hline' (by decide) hgap hgap' Pipeline.zero Pipeline.zero ParseError.zero
    ParseError.zero Memory.empty Memory.empty

end SystemsCourse
