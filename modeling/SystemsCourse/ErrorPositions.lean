import SystemsCourse.CommandGrammar

/-!
# Where errors are reported

`pipeline_parse` reports an error as a position and a message.  `Reported` says, for
each message, what the text around the position is: what stands there, what precedes
it and what follows.  The positions are picked in eight places, some of them after
the cursor has moved on; every one of them is as `Reported` says.

The induction is along the recognition of the lexemes; its invariant is that the
lexemes before the cursor are complete segments, and the items of the command in
hand (`ReadUpTo`).
-/
namespace SystemsCourse
open Prog

/-! ## The text around a position -/

/-- Position `p` holds the character `c`, outside quotes. -/
def Unquoted (line : CString) (p : Nat) (c : Byte) : Prop :=
  quoteState line.bytes p = none ∧ line.bytes[p]? = some c

/-- The lexemes are complete segments: the next lexeme is the first of its segment. -/
def StartsSegment (before : List Lexeme) : Prop := ∀ x, before.getLast? = some x → x.type = .tokPipe

/-- The messages about an endpoint. -/
def endpointMessages : List String :=
  ["use tcp:[IPv6-address]:port", "TCP endpoint must be tcp:host:port", "missing TCP host",
    "TCP port must be between 1 and 65535"]

/-- **What an error message says about its position.** -/
inductive Reported (line : CString) (p : Nat) : String → Prop where
  /-- An opening quote, and no such character behind it. -/
  | unterminated {c : Byte} (quote : isQuote c) (opening : Unquoted line p c)
      (after : ∀ k, p < k → line.bytes[k]? ≠ some c) : Reported line p "unterminated quote"
  /-- A pipe behind another pipe or nothing. -/
  | beforePipe {front back : List Lexeme}
      (tokens : IsTokenization line.bytes (front ++ ⟨.tokPipe, none, p⟩ :: back))
      (pipe : Unquoted line p (ch '|')) (preceding : StartsSegment front) :
      Reported line p "expected command before '|'"
  /-- A pipe with only white space behind it. -/
  | afterPipe (pipe : Unquoted line p (ch '|'))
      (following : ∀ k c, p < k → line.bytes[k]? = some c → isspace c) :
      Reported line p "expected command after '|'"
  /-- A redirection operator without a word behind it. -/
  | target {front back : List Lexeme} {op : TokenType}
      (tokens : IsTokenization line.bytes (front ++ ⟨op, none, p⟩ :: back))
      (operator : Unquoted line p (ch '<') ∨ Unquoted line p (ch '>'))
      (following : ∀ x, back.head? = some x → x.type ≠ .tokWord) :
      Reported line p "redirection requires a target"
  /-- The pipe or the end of the line behind a segment of redirections alone. -/
  | command {before seg after : List Lexeme} {items : List Item}
      (tokens : IsTokenization line.bytes (before ++ seg ++ after)) (start : StartsSegment before)
      (segment : IsItems seg items) (redirections : items ≠ []) (noWord : bareWords items = [])
      (closes : (after = [] ∧ p = line.length) ∨
        (Unquoted line p (ch '|') ∧ ∃ rest, after = ⟨.tokPipe, none, p⟩ :: rest)) :
      Reported line p "redirection must belong to a command"
  /-- A word behind a redirection operator, and an earlier redirection of this kind. -/
  | duplicate {before seg back : List Lexeme} {items : List Item} {op : Lexeme} {w : CString}
      (tokens : IsTokenization line.bytes (before ++ seg ++ op :: ⟨.tokWord, some w, p⟩ :: back))
      (start : StartsSegment before) (segment : IsItems seg items) (operator : op.type.Redirects)
      (word : ∃ b, IsWord line.bytes p b) (earlier : targets op.type items ≠ []) :
      Reported line p "duplicate redirection"
  /-- A word behind a redirection operator that is no target. -/
  | endpoint {front back : List Lexeme} {op : Lexeme} {w : CString} {msg : String}
      (tokens : IsTokenization line.bytes (front ++ op :: ⟨.tokWord, some w, p⟩ :: back))
      (operator : op.type.Redirects) (word : ∃ b, IsWord line.bytes p b)
      (rejected : decodeTarget w = .error msg) (message : msg ∈ endpointMessages) :
      Reported line p msg

section Text
variable {line : CString} {p : Nat}

theorem Unquoted.lt {c : Byte} (h : Unquoted line p c) : p < line.length :=
  (List.getElem?_eq_some_iff.mp h.2).1

/-- A reported position lies in the line or at its end. -/
theorem Reported.le {msg : String} (h : Reported line p msg) : p ≤ line.length := by
  cases h with
  | unterminated _ opening _ => exact Nat.le_of_lt opening.lt
  | beforePipe _ pipe _ => exact Nat.le_of_lt pipe.lt
  | afterPipe pipe _ => exact Nat.le_of_lt pipe.lt
  | target _ operator _ => exact operator.elim (fun h => Nat.le_of_lt h.lt) fun h => Nat.le_of_lt h.lt
  | command _ _ _ _ _ closes =>
    rcases closes with ⟨-, rfl⟩ | ⟨pipe, -⟩
    · exact Nat.le_refl _
    · exact Nat.le_of_lt pipe.lt
  | duplicate _ _ _ _ word _ =>
    obtain ⟨b, hb⟩ := word
    exact Nat.le_trans (Nat.le_of_lt hb.lt) hb.le
  | endpoint _ _ word _ _ =>
    obtain ⟨b, hb⟩ := word
    exact Nat.le_trans (Nat.le_of_lt hb.lt) hb.le

/-- A message is not empty, and fits into the error. -/
theorem Reported.message {msg : String} (h : Reported line p msg) :
    msg ≠ "" ∧ snprintfMessage msg = msg := by
  cases h with
  | endpoint _ _ _ _ message =>
    have hall : ∀ msg ∈ endpointMessages, msg ≠ "" ∧ snprintfMessage msg = msg := by decide
    exact hall msg message
  | _ => decide

/-! ### Quotes -/

/-- Without an opening quote, the state outside quotes stays. -/
theorem quoteState_eq_none_add {j d : Nat} (hj : quoteState line.bytes j = none)
    (hlast : ∀ k, j ≤ k → k < j + d → ¬ Opening line.bytes k) (hd : j + d ≤ line.length) :
    quoteState line.bytes (j + d) = none := by
  induction d with
  | zero => exact hj
  | succ d ih =>
    have hstate := ih (fun k hk hlt => hlast k hk (by omega)) (by omega)
    have hlt : j + d < line.bytes.length := by
      unfold CString.length at hd
      omega
    have hc := List.getElem?_eq_getElem hlt
    refine quoteState_succ_outside hstate hc (Bool.eq_false_iff.mpr fun hquote => ?_)
    exact hlast (j + d) (Nat.le_add_right j d) (by omega) ⟨hstate, _, hc, hquote⟩

section Unbalanced
variable (hunbalanced : quoteState line.bytes line.length ≠ none)
  (h : IsLastOpening line.bytes line.length p)
include hunbalanced h

/-- In an unbalanced line, the quote that was opened last is never closed. -/
theorem quoteState_ne_none {j : Nat} (hpj : p < j) (hj : j ≤ line.length) :
    quoteState line.bytes j ≠ none := by
  intro hstate
  obtain ⟨d, hd⟩ := Nat.exists_eq_add_of_le hj
  rw [hd] at hunbalanced
  refine hunbalanced (quoteState_eq_none_add hstate (fun k hjk hk => ?_) (Nat.le_of_eq hd.symm))
  exact h.last k (Nat.lt_of_lt_of_le hpj hjk) (by omega)

theorem quoteState_of_isLastOpening {c : Byte} (hc : line.bytes[p]? = some c) {d : Nat}
    (hd : p + 1 + d ≤ line.length) : quoteState line.bytes (p + 1 + d) = some c := by
  induction d with
  | zero =>
    obtain ⟨hstate, c', hc', hquote⟩ := h.opening
    rw [hc] at hc'
    cases hc'
    exact quoteState_succ_open hstate hc hquote
  | succ d ih =>
    have hstate := ih (by omega)
    have hlt : p + 1 + d < line.bytes.length := by
      unfold CString.length at hd
      omega
    have hx := List.getElem?_eq_getElem hlt
    by_cases heq : line.bytes[p + 1 + d] = c
    · rw [heq] at hx
      exact absurd (quoteState_succ_close hstate hx) (quoteState_ne_none hunbalanced h (by omega) hd)
    · exact quoteState_succ_inside hstate hx heq

/-- **The character of the quote that is not terminated** does not occur again. -/
theorem reported_unterminated : Reported line p "unterminated quote" := by
  obtain ⟨hstate, c, hc, hquote⟩ := h.opening
  refine .unterminated hquote ⟨hstate, hc⟩ fun k hpk hk => ?_
  obtain ⟨d, rfl⟩ := Nat.exists_eq_add_of_le (Nat.succ_le_of_lt hpk)
  have hlt := (List.getElem?_eq_some_iff.mp hk).1
  have hinside := quoteState_of_isLastOpening hunbalanced h hc (d := d) (Nat.le_of_lt hlt)
  exact quoteState_ne_none hunbalanced h (j := p + 1 + d + 1) (by omega) hlt (quoteState_succ_close hinside hk)

end Unbalanced

/-! ### Lexemes -/

/-- What stands where an operator has been found. -/
theorem eq_operator_of_isLexeme {x : Lexeme} (h : IsLexeme line.bytes x) (hx : x.type ≠ .tokWord) :
    ∃ c, Unquoted line x.pos c ∧ operatorType c = some x.type ∧ x = ⟨x.type, none, x.pos⟩ := by
  cases h with
  | operator state char type_eq => exact ⟨_, ⟨state, char⟩, type_eq, rfl⟩
  | word run text_eq => exact absurd rfl hx

theorem eq_pipe_of_isLexeme {x : Lexeme} (h : IsLexeme line.bytes x) (hx : x.type = .tokPipe) :
    Unquoted line x.pos (ch '|') ∧ x = ⟨.tokPipe, none, x.pos⟩ := by
  obtain ⟨c, hc, htype, heq⟩ := eq_operator_of_isLexeme h (by rw [hx]; nofun)
  rw [hx] at htype heq
  rcases eq_of_operatorType (by rw [htype]; nofun) with rfl | rfl | rfl
  · exact ⟨hc, heq⟩
  · cases htype
  · cases htype

theorem eq_redirection_of_isLexeme {x : Lexeme} (h : IsLexeme line.bytes x) (hx : x.type.Redirects) :
    (Unquoted line x.pos (ch '<') ∨ Unquoted line x.pos (ch '>')) ∧ x = ⟨x.type, none, x.pos⟩ := by
  obtain ⟨c, hc, htype, heq⟩ := eq_operator_of_isLexeme h (by rcases hx with hx | hx <;> rw [hx] <;> nofun)
  refine ⟨?_, heq⟩
  rcases eq_of_operatorType (by rw [htype]; nofun) with rfl | rfl | rfl
  · have hpipe : TokenType.tokPipe = x.type := Option.some.inj htype
    rw [← hpipe] at hx
    rcases hx with hx | hx <;> cases hx
  · exact Or.inl hc
  · exact Or.inr hc

theorem eq_word_of_isLexeme {x : Lexeme} (h : IsLexeme line.bytes x) (hx : x.type = .tokWord) :
    x = ⟨.tokWord, some x.word, x.pos⟩ ∧ ∃ b, IsWord line.bytes x.pos b := by
  cases h with
  | operator state char type_eq => exact absurd hx (ne_tokWord_of_operatorType type_eq)
  | word run text_eq => exact ⟨rfl, _, run⟩

/-- **Behind the last lexeme** of a line, if it is an operator, there is white space
alone. -/
theorem isspace_behind {xs : List Lexeme} (hxs : IsTokenization line.bytes xs)
    (hlast : ∀ x ∈ xs, x.pos ≤ p) (hsep : Separator line.bytes p) {k : Nat} {c : Byte} (hpk : p < k)
    (hc : line.bytes[k]? = some c) : isspace c := by
  by_cases hk : Separator line.bytes k
  · obtain ⟨hstate, c', hc', hchar⟩ := hk
    rw [hc] at hc'
    cases hc'
    refine hchar.resolve_right fun hop => ?_
    obtain ⟨type, htype⟩ := Option.ne_none_iff_exists'.mp hop
    exact absurd (hlast _ ((hxs.mem _).mpr (.operator hstate hc htype))) (Nat.not_le.mpr hpk)
  · -- the word around the position would begin behind the operator
    obtain ⟨a, b, hrun, hak, hkb⟩ :=
      exists_maximalRun (P := fun k => ¬ Separator line.bytes k) (List.getElem?_eq_some_iff.mp hc).1 hk
    have hword : IsLexeme line.bytes ⟨.tokWord, some (line.sub _ (wordText_subset line.bytes a b)), a⟩ :=
      .word hrun rfl
    have hap : a ≤ p := hlast _ ((hxs.mem _).mpr hword)
    exact absurd hsep (hrun.inside p hap (Nat.lt_trans hpk hkb))

end Text

/-! ## What has been read -/

/-- The lexemes are complete segments and the items that make up the command `c`;
`start` says that there are no such items. -/
inductive ReadUpTo (start : Bool) (c : CommandValue) : List Lexeme → Prop where
  | mk {before seg : List Lexeme} {items : List Item} (starts : StartsSegment before)
      (segment : IsItems seg items) (built : items.foldlM CommandValue.add CommandValue.zero = some c)
      (fresh : start = true ↔ items = []) : ReadUpTo start c (before ++ seg)

namespace ReadUpTo
variable {start : Bool} {c : CommandValue} {front : List Lexeme}

theorem nil : ReadUpTo true CommandValue.zero [] :=
  have hstarts : StartsSegment [] := fun _ hx => nomatch hx
  ReadUpTo.mk hstarts .nil rfl (iff_of_true rfl rfl)

/-- A pipe completes a segment. -/
theorem pipe {x : Lexeme} (hx : x.type = .tokPipe) : ReadUpTo true CommandValue.zero (front ++ [x]) := by
  have hstarts : StartsSegment (front ++ [x]) := by
    intro y hy
    rw [List.getLast?_concat, Option.some_inj] at hy
    rwa [← hy]
  have hread : ReadUpTo true CommandValue.zero (front ++ [x] ++ []) :=
    .mk hstarts .nil rfl (iff_of_true rfl rfl)
  rwa [List.append_nil] at hread

/-- Another item has been read. -/
theorem item (h : ReadUpTo start c front) {seg : List Lexeme} {i : Item} (hseg : IsItems seg [i])
    {c' : CommandValue} (hadd : c.add i = some c') : ReadUpTo false c' (front ++ seg) := by
  obtain ⟨starts, segment, built, -⟩ := h
  rw [List.append_assoc]
  refine .mk starts (segment.append hseg) ?_ (iff_of_false nofun (by simp))
  rw [List.foldlM_append, built]
  simpa using hadd

theorem word (h : ReadUpTo start c front) (w : CString) (pos : Nat) :
    ReadUpTo false { c with argv := c.argv ++ [w] } (front ++ [⟨.tokWord, some w, pos⟩]) :=
  h.item (.word .nil) rfl

theorem redirection (h : ReadUpTo start c front) {op : Lexeme} (hop : op.type.Redirects) {w : CString}
    (pos : Nat) {d : Target} (hset : setTarget (c.redirection op.type) w = .ok d) :
    ReadUpTo false (c.setRedirection op.type d) (front ++ [op, ⟨.tokWord, some w, pos⟩]) :=
  h.item (.redirection hop .nil) (CommandValue.add_redirection_eq_some_iff.mpr ⟨d, hset, rfl⟩)

end ReadUpTo

/-- A redirection that is set has been read in the segment. -/
theorem targets_ne_nil {seg : List Lexeme} {items : List Item} (h : IsItems seg items)
    {c : CommandValue} (hc : items.foldlM CommandValue.add CommandValue.zero = some c) {op : TokenType}
    (hop : op.Redirects) (hset : c.redirection op ≠ .none) : targets op items ≠ [] := by
  obtain ⟨-, hin, hout⟩ := h.foldlM_add.mp hc
  intro hnil
  rcases hop with rfl | rfl
  · rw [hnil, becomes_nil] at hin
    exact hset hin
  · rw [hnil, becomes_nil] at hout
    exact hset hout

theorem mem_endpointMessages_of_splitEndpoint {a : CString} {msg : String}
    (h : splitEndpoint a = .error msg) : msg ∈ endpointMessages := by
  unfold splitEndpoint at h
  split at h
  · split at h
    · cases h
      decide
    · split at h <;> cases h
      decide
  · split at h
    · cases h
      decide
    · split at h <;> cases h
      decide

/-- The messages of a target that is rejected. -/
theorem mem_endpointMessages {s : CString} {msg : String} (h : decodeTarget s = .error msg) :
    msg ∈ endpointMessages := by
  unfold decodeTarget at h
  split at h
  · cases h
  · split at h
    · rename_i hsplit
      cases h
      exact mem_endpointMessages_of_splitEndpoint hsplit
    · split at h
      · cases h
        decide
      · split at h <;> cases h
        decide

/-! ## The recognition -/

section Recognition
variable {line : CString} {xs front rest : List Lexeme} {start : Bool} {done : List CommandValue}
  {c : CommandValue} {pos : Nat} {msg : String}

/-- The end of the line. -/
def endOfLine (line : CString) : Lexeme := ⟨.tokEnd, none, line.length⟩

/-- At the end of the line, a command in hand without words is rejected. -/
theorem reported_of_end (htokens : IsTokenization line.bytes front) (hread : ReadUpTo start c front)
    (h : parseFrom start done c [endOfLine line] = .error (pos, msg)) : Reported line pos msg := by
  rw [parseFrom_end rfl] at h
  split_ifs at h with hstart hargv
  cases h
  obtain ⟨starts, segment, built, fresh⟩ := hread
  have hitems : _ ≠ [] := mt fresh.mpr hstart
  have hwords := (segment.foldlM_add.mp built).1
  rw [hargv] at hwords
  rw [← List.append_nil (_ ++ _)] at htokens
  exact .command htokens starts segment hitems hwords.symm (Or.inl ⟨rfl, rfl⟩)

/-- At a pipe, an error is reported there, or in what follows. -/
theorem reported_of_pipe {x : Lexeme} (htokens : IsTokenization line.bytes (front ++ x :: rest))
    (hx : x.type = .tokPipe) (hread : ReadUpTo start c front)
    (h : parseFrom start done c (x :: (rest ++ [endOfLine line])) = .error (pos, msg)) :
    Reported line pos msg ∨
      parseFrom true (done ++ [c]) CommandValue.zero (rest ++ [endOfLine line]) = .error (pos, msg) := by
  obtain ⟨hpipe, heq⟩ := eq_pipe_of_isLexeme ((htokens.mem x).mp (by simp)) hx
  obtain ⟨starts, segment, built, fresh⟩ := hread
  rw [parseFrom_pipe hx] at h
  split_ifs at h with hstart hargv hrest
  · -- nothing of the command has been read
    obtain rfl := fresh.mp hstart
    cases segment
    rw [List.append_nil, heq] at htokens
    cases h
    exact Or.inl (.beforePipe htokens hpipe starts)
  · have hwords := (segment.foldlM_add.mp built).1
    rw [hargv] at hwords
    cases h
    exact Or.inl (.command htokens starts segment (mt fresh.mpr hstart) hwords.symm
      (Or.inr ⟨hpipe, rest, by rw [← heq]⟩))
  · -- no lexeme follows: all others have been read, and stand in front of the pipe
    cases h
    have hnil : rest = [] := by
      cases rest with
      | nil => rfl
      | cons y rest =>
        have hy := (Lexeme.Proper.of_isLexeme ((htokens.mem y).mp (by simp))).ne_tokEnd
        exact absurd (Option.some.inj hrest) hy
    subst hnil
    refine Or.inl (.afterPipe hpipe fun k c hk hc => ?_)
    refine isspace_behind htokens (fun y hy => ?_) ⟨hpipe.1, _, hpipe.2, Or.inr (by decide)⟩ hk hc
    rcases List.mem_append.mp hy with hy | hy
    · have hbefore := (List.pairwise_append.mp htokens.increasing).2.2
      exact Nat.le_of_lt (hbefore y hy x List.mem_cons_self)
    · rw [List.mem_singleton.mp hy]
  · exact Or.inr h

/-- At a redirection operator, an error is reported there, at its target, or in what
follows. -/
theorem reported_of_redirection {x : Lexeme} (htokens : IsTokenization line.bytes (front ++ x :: rest))
    (hop : x.type.Redirects) (hread : ReadUpTo start c front)
    (h : parseFrom start done c (x :: (rest ++ [endOfLine line])) = .error (pos, msg)) :
    Reported line pos msg ∨ ∃ w p rest' d, rest = ⟨.tokWord, some w, p⟩ :: rest' ∧
      setTarget (c.redirection x.type) w = .ok d ∧
      parseFrom false done (c.setRedirection x.type d) (rest' ++ [endOfLine line]) = .error (pos, msg) := by
  obtain ⟨hoperator, heq⟩ := eq_redirection_of_isLexeme ((htokens.mem x).mp (by simp)) hop
  have missing (hfollowing : ∀ y, rest.head? = some y → y.type ≠ .tokWord) :
      Reported line x.pos "redirection requires a target" := by
    rw [heq] at htokens
    exact .target htokens hoperator hfollowing
  cases rest with
  | nil =>
    rw [List.nil_append, parseFrom_redirection hop, if_pos (by nofun)] at h
    cases h
    exact Or.inl (missing nofun)
  | cons y rest =>
    rw [List.cons_append, parseFrom_redirection hop] at h
    by_cases hword : y.type = .tokWord
    · rw [if_neg (not_not_intro hword)] at h
      obtain ⟨hy, hrun⟩ := eq_word_of_isLexeme ((htokens.mem y).mp (by simp)) hword
      cases hset : setTarget (c.redirection x.type) y.word with
      | ok d =>
        rw [hset] at h
        exact Or.inr ⟨y.word, y.pos, rest, d, by rw [← hy], hset, h⟩
      | error msg' =>
        rw [hset] at h
        cases h
        rw [hy] at htokens
        refine Or.inl ?_
        by_cases hold : c.redirection x.type = .none
        · rw [hold, setTarget_none] at hset
          exact .endpoint htokens hop hrun hset (mem_endpointMessages hset)
        · rw [setTarget, if_neg hold] at hset
          cases hset
          obtain ⟨starts, segment, built, -⟩ := hread
          exact .duplicate htokens starts segment hop hrun (targets_ne_nil segment built hop hold)
    · rw [if_pos hword] at h
      cases h
      refine Or.inl (missing fun z hz => ?_)
      cases hz
      exact hword

end Recognition

/-- **Every error of the recognition** is reported where it is. -/
theorem reported_of_parseFrom {line : CString} {pos : Nat} {msg : String} :
    ∀ {rest front : List Lexeme} {start : Bool} {done : List CommandValue} {c : CommandValue},
      IsTokenization line.bytes (front ++ rest) → ReadUpTo start c front →
      parseFrom start done c (rest ++ [endOfLine line]) = .error (pos, msg) → Reported line pos msg
  | [], front, start, done, c, htokens, hread, h => by
    rw [List.append_nil] at htokens
    exact reported_of_end htokens hread h
  | x :: rest, front, start, done, c, htokens, hread, h => by
    have hnext : IsTokenization line.bytes (front ++ [x] ++ rest) := by rwa [List.append_cons] at htokens
    rw [List.cons_append] at h
    rcases Lexeme.Proper.of_isLexeme ((htokens.mem x).mp (by simp)) with hpipe | hop | ⟨w, p, rfl⟩
    · rcases reported_of_pipe htokens hpipe hread h with hreported | h
      · exact hreported
      · exact reported_of_parseFrom hnext (.pipe hpipe) h
    · rcases reported_of_redirection htokens hop hread h with hreported | ⟨w, p, rest', d, rfl, hset, h⟩
      · exact hreported
      · refine reported_of_parseFrom ?_ (hread.redirection hop p hset) h
        rwa [List.append_assoc]
    · rw [parseFrom_word rfl] at h
      exact reported_of_parseFrom hnext (hread.word w p) h
  termination_by rest => rest.length

theorem LineMeans.reported {line : CString} {pos : Nat} {msg : String}
    (h : LineMeans line (.error (pos, msg))) : Reported line pos msg := by
  generalize hr : Except.error (pos, msg) = r at h
  cases h with
  | unterminated unbalanced opening =>
    cases hr
    exact reported_unterminated unbalanced opening
  | tokens balanced tokenization =>
    exact reported_of_parseFrom (show IsTokenization line.bytes ([] ++ _) from tokenization) .nil hr.symm

/-- Unbalanced quotes are reported before everything else. -/
theorem LineMeans.message_of_unbalanced {line : CString} {pos : Nat} {msg : String}
    (h : LineMeans line (.error (pos, msg))) (hunbalanced : quoteState line.bytes line.length ≠ none) :
    msg = "unterminated quote" := by
  generalize hr : Except.error (pos, msg) = r at h
  cases h with
  | unterminated _ _ =>
    cases hr
    rfl
  | tokens balanced _ => exact absurd balanced hunbalanced

/-- **Every error is reported at the right place.**  When `pipeline_parse` rejects a
line, the message is not empty, the position lies in the line or at its end, and the
text there is what the message says; and a line with unbalanced quotes is rejected
for that. -/
theorem pipelineParse_reported (line : CString) (p : Pipeline) (e : ParseError) (m : Memory) :
    ∃ status q e' m',
      pipelineParse (some line) (some p) (some e) Script.generous m = some ((status, some q, e'), m') ∧
      (status = .parseFailed → ∃ err, e' = some err ∧ err.message ≠ "" ∧ err.position ≤ line.length ∧
        Reported line err.position err.message ∧
        (quoteState line.bytes line.length ≠ none → err.message = "unterminated quote")) ∧
      (quoteState line.bytes line.length ≠ none → status = .parseFailed) := by
  obtain ⟨⟨status, _, e'⟩, m', hrun, q, rfl, -, hpost⟩ :=
    wp_iff.mp (pipelineParse_spec (σ := Script.generous) line p (some e) (m := m) rfl)
  refine ⟨status, q, e', m', hrun, ?_⟩
  rcases hpost with ⟨rfl, _, vs, -, hmeans⟩ | ⟨rfl, -, hrejected⟩
  · have hbalanced := (lineMeans_ok_iff.mp hmeans).1
    exact ⟨nofun, fun hunbalanced => absurd hbalanced hunbalanced⟩
  · obtain ⟨pos, msg, hmeans, rfl⟩ := hrejected.resolve_left Script.not_refuses_generous
    have hreported := hmeans.reported
    obtain ⟨hne, hfits⟩ := hreported.message
    refine ⟨fun _ => ⟨⟨pos, snprintfMessage msg⟩, rfl, ?_⟩, fun _ => rfl⟩
    rw [hfits]
    exact ⟨hne, hreported.le, hreported, hmeans.message_of_unbalanced⟩

end SystemsCourse
