import SystemsCourse.MaximalRuns
import SystemsCourse.ParserData

/-!
# The lexical syntax, position by position

What a command line consists of, stated on the whole line at once: the quote
state before each position, the separators (white space and operators outside
quotes), an operator at each operator character outside quotes, and a word for
each maximal interval without a separator.  Nothing here scans.

`IsTokenization` says that a list consists of exactly these lexemes, in order of
position.  `Scanned` and `WordScanned` say the same of the part of the line before
a position; each has one lemma for every way of moving on by one character or one
word.
-/
namespace SystemsCourse

/-- The two quote characters. -/
def singleQuote : Byte := 39
def doubleQuote : Byte := 34

/-- A quote character. -/
def isQuote (c : Byte) : Bool := c == singleQuote || c == doubleQuote

/-- The operator a character stands for. -/
def operatorType (c : Byte) : Option TokenType :=
  if c = ch '|' then some .tokPipe
  else if c = ch '<' then some .tokIn
  else if c = ch '>' then some .tokOut
  else none

theorem isQuote_iff {c : Byte} : isQuote c ↔ c = singleQuote ∨ c = doubleQuote := by
  simp [isQuote]

theorem not_isspace_of_isQuote {c : Byte} (h : isQuote c) : ¬ isspace c := by
  rcases isQuote_iff.mp h with rfl | rfl <;> decide

theorem operatorType_of_isQuote {c : Byte} (h : isQuote c) : operatorType c = none := by
  rcases isQuote_iff.mp h with rfl | rfl <;> decide

theorem eq_of_operatorType {c : Byte} (h : operatorType c ≠ none) :
    c = ch '|' ∨ c = ch '<' ∨ c = ch '>' := by
  unfold operatorType at h
  split_ifs at h <;> simp_all

theorem operatorType_eq_none {c : Byte} (h : ¬ (c = ch '|' ∨ c = ch '<' ∨ c = ch '>')) :
    operatorType c = none :=
  Classical.not_not.mp fun hop => h (eq_of_operatorType hop)

theorem ne_tokWord_of_operatorType {c : Byte} {type : TokenType}
    (h : operatorType c = some type) : type ≠ .tokWord := by
  rintro rfl
  unfold operatorType at h
  split_ifs at h <;> cases h

theorem not_isspace_of_operator {c : Byte} (h : operatorType c ≠ none) : ¬ isspace c := by
  rcases eq_of_operatorType h with rfl | rfl | rfl <;> decide

theorem not_isQuote_of_operator {c : Byte} (h : operatorType c ≠ none) : isQuote c = false :=
  Bool.eq_false_iff.mpr fun hq => h (operatorType_of_isQuote hq)

theorem not_isQuote_of_isspace {c : Byte} (h : isspace c) : isQuote c = false :=
  Bool.eq_false_iff.mpr fun hq => not_isspace_of_isQuote hq h

theorem operatorType_of_isspace {c : Byte} (h : isspace c) : operatorType c = none :=
  Classical.not_not.mp fun hop => not_isspace_of_operator hop h

/-! ## Positions -/

/-- The quote state before position `k`: the quote character in force, if any. -/
def quoteState (s : List Byte) : Nat → Option Byte
  | 0 => none
  | k + 1 =>
      match quoteState s k, s[k]? with
      | none, some c => if isQuote c then some c else none
      | some q, some c => if c = q then none else some q
      | state, none => state

section Positions
variable (s : List Byte) (k : Nat)

/-- Position `k` is outside quotes and holds white space or an operator. -/
def Separator : Prop :=
  quoteState s k = none ∧ ∃ c, s[k]? = some c ∧ (isspace c ∨ operatorType c ≠ none)

/-- Position `k` holds a quote character that opens a quote. -/
def Opening : Prop := quoteState s k = none ∧ ∃ c, s[k]? = some c ∧ isQuote c

/-- Position `k` holds the quote character that closes the quote in force. -/
def Closing : Prop := ∃ q, quoteState s k = some q ∧ s[k]? = some q

instance : Decidable (Opening s k) :=
  decidable_of_iff (quoteState s k = none ∧ (s[k]?).any isQuote) <| by
    unfold Opening
    cases s[k]? <;> simp

instance : Decidable (Closing s k) :=
  decidable_of_iff (quoteState s k ≠ none ∧ s[k]? = quoteState s k) <| by
    unfold Closing
    cases quoteState s k <;> simp

end Positions

/-- `p` is the last position before `i` that opens a quote. -/
structure IsLastOpening (s : List Byte) (i p : Nat) : Prop where
  opening : Opening s p
  lt : p < i
  last : ∀ k, p < k → k < i → ¬ Opening s k

/-- The word `[a, b)`: a maximal interval without a separator. -/
def IsWord (s : List Byte) (a b : Nat) : Prop := MaximalRun (fun k => ¬ Separator s k) s.length a b

/-- The characters of `[a, b)` less the quote characters that open or close a
quote. -/
def wordText (s : List Byte) (a b : Nat) : List Byte :=
  (List.range' a (b - a)).filterMap fun k => if Opening s k ∨ Closing s k then none else s[k]?

/-- **The lexemes of a line**: the operators outside quotes, and the words. -/
inductive IsLexeme (s : List Byte) : Lexeme → Prop where
  | operator {k : Nat} {c : Byte} {type : TokenType} (state : quoteState s k = none)
      (char : s[k]? = some c) (type_eq : operatorType c = some type) :
      IsLexeme s ⟨type, none, k⟩
  | word {a b : Nat} {text : CString} (run : IsWord s a b) (text_eq : text.bytes = wordText s a b) :
      IsLexeme s ⟨.tokWord, some text, a⟩

/-- **`xs` is the tokenization of `s`**: exactly its lexemes, in increasing order of
position. -/
structure IsTokenization (s : List Byte) (xs : List Lexeme) : Prop where
  increasing : xs.Pairwise (·.pos < ·.pos)
  mem : ∀ x, x ∈ xs ↔ IsLexeme s x

/-- **A line has at most one tokenization.** -/
theorem IsTokenization.unique {s : List Byte} {xs ys : List Lexeme} (hx : IsTokenization s xs)
    (hy : IsTokenization s ys) : xs = ys :=
  eq_of_increasing hx.increasing hy.increasing fun x => (hx.mem x).trans (hy.mem x).symm

/-! ## One character -/

section OneCharacter
variable {s : List Byte} {i : Nat} {c q : Byte}

theorem quoteState_succ_open (hstate : quoteState s i = none) (hc : s[i]? = some c)
    (hq : isQuote c) : quoteState s (i + 1) = some c := by
  simp [quoteState, hstate, hc, hq]

theorem quoteState_succ_outside (hstate : quoteState s i = none) (hc : s[i]? = some c)
    (hq : isQuote c = false) : quoteState s (i + 1) = none := by
  simp [quoteState, hstate, hc, hq]

theorem quoteState_succ_close (hstate : quoteState s i = some q) (hc : s[i]? = some q) :
    quoteState s (i + 1) = none := by
  simp [quoteState, hstate, hc]

theorem quoteState_succ_inside (hstate : quoteState s i = some q) (hc : s[i]? = some c)
    (hq : c ≠ q) : quoteState s (i + 1) = some q := by
  simp [quoteState, hstate, hc, hq]

theorem separator_of_isspace (hstate : quoteState s i = none) (hc : s[i]? = some c)
    (h : isspace c) : Separator s i :=
  ⟨hstate, c, hc, Or.inl h⟩

theorem separator_of_operator (hstate : quoteState s i = none) (hc : s[i]? = some c)
    (h : operatorType c ≠ none) : Separator s i :=
  ⟨hstate, c, hc, Or.inr h⟩

theorem not_separator_inside (hstate : quoteState s i = some q) : ¬ Separator s i :=
  fun h => nomatch hstate.symm.trans h.1

theorem not_separator_of_char (hc : s[i]? = some c) (hspace : ¬ isspace c)
    (hop : operatorType c = none) : ¬ Separator s i := by
  intro h
  obtain ⟨_, c', hc', h⟩ := h
  rw [hc] at hc'
  cases hc'
  exact h.elim hspace (fun h => h hop)

theorem wordText_succ {a : Nat} (ha : a ≤ i) :
    wordText s a (i + 1) = wordText s a i ++
      (if Opening s i ∨ Closing s i then none else s[i]?).toList := by
  unfold wordText
  rw [show i + 1 - a = (i - a) + 1 from by omega, List.range'_concat, List.filterMap_append]
  rw [show a + 1 * (i - a) = i from by omega]
  rfl

theorem wordText_subset (s : List Byte) (a b : Nat) : wordText s a b ⊆ s := by
  intro c hc
  obtain ⟨k, _, hk⟩ := List.mem_filterMap.mp hc
  split at hk
  · cases hk
  · exact List.mem_of_getElem? hk

end OneCharacter

/-! ## The part of a line before a position -/

/-- Position `i` lies between two lexemes, and `xs` are those before it. -/
structure Scanned (s : List Byte) (i : Nat) (xs : List Lexeme) : Prop where
  le : i ≤ s.length
  state : quoteState s i = none
  boundary : i = 0 ∨ i = s.length ∨ Separator s (i - 1) ∨ Separator s i
  increasing : xs.Pairwise (·.pos < ·.pos)
  mem : ∀ x, x ∈ xs ↔ IsLexeme s x ∧ x.pos < i

namespace Scanned
variable {s : List Byte} {i : Nat} {xs : List Lexeme} {c : Byte}

theorem zero (s : List Byte) : Scanned s 0 [] :=
  ⟨Nat.zero_le _, rfl, Or.inl rfl, .nil, fun _ =>
    ⟨fun h => absurd h List.not_mem_nil, fun h => absurd h.2 (Nat.not_lt_zero _)⟩⟩

/-- Nothing but an operator starts at a separator. -/
theorem eq_operator_of_separator {x : Lexeme} (hsep : Separator s i) (hx : IsLexeme s x)
    (hpos : x.pos = i) : ∃ c type, s[i]? = some c ∧ operatorType c = some type ∧
      x = ⟨type, none, i⟩ := by
  cases hx with
  | operator state char type_eq => cases hpos; exact ⟨_, _, char, type_eq, rfl⟩
  | word run text_eq => cases hpos; exact absurd hsep (run.inside _ (Nat.le_refl _) run.lt)

theorem space (h : Scanned s i xs) (hc : s[i]? = some c) (hspace : isspace c) :
    Scanned s (i + 1) xs := by
  have hsep := separator_of_isspace h.state hc hspace
  refine ⟨(List.getElem?_eq_some_iff.mp hc).1,
    quoteState_succ_outside h.state hc (not_isQuote_of_isspace hspace),
    Or.inr (Or.inr (Or.inl hsep)), h.increasing, fun x => (h.mem x).trans ?_⟩
  refine and_congr_right fun hx => ⟨fun hlt => by omega, fun hlt => ?_⟩
  -- what starts at a separator is an operator, and white space is none
  refine Nat.lt_of_le_of_ne (by omega) fun hpos => ?_
  obtain ⟨c', type, hc', htype, _⟩ := eq_operator_of_separator hsep hx hpos
  rw [hc] at hc'
  cases hc'
  rw [operatorType_of_isspace hspace] at htype
  cases htype

theorem operator (h : Scanned s i xs) (hc : s[i]? = some c) {type : TokenType}
    (htype : operatorType c = some type) : Scanned s (i + 1) (xs ++ [⟨type, none, i⟩]) := by
  have hop : operatorType c ≠ none := by rw [htype]; nofun
  have hsep := separator_of_operator h.state hc hop
  refine ⟨(List.getElem?_eq_some_iff.mp hc).1,
    quoteState_succ_outside h.state hc (not_isQuote_of_operator hop),
    Or.inr (Or.inr (Or.inl hsep)), ?_, fun x => ?_⟩
  · refine List.pairwise_append.mpr ⟨h.increasing, List.pairwise_singleton _ _, ?_⟩
    intro x hx y hy
    rw [List.mem_singleton.mp hy]
    exact ((h.mem x).mp hx).2
  · rw [List.mem_append, List.mem_singleton, h.mem x]
    constructor
    · intro h
      rcases h with ⟨hx, hlt⟩ | rfl
      · exact ⟨hx, by omega⟩
      · exact ⟨.operator h.state hc htype, Nat.lt_succ_self _⟩
    · intro h
      obtain ⟨hx, hlt⟩ := h
      rcases Nat.lt_or_ge x.pos i with hi | hi
      · exact Or.inl ⟨hx, hi⟩
      · -- no word starts at `i`
        obtain ⟨c', type', hc', htype', rfl⟩ := eq_operator_of_separator hsep hx (by omega)
        rw [hc] at hc'
        cases hc'
        rw [htype] at htype'
        cases htype'
        exact Or.inr rfl

/-- A separator-free interval from a boundary to a separator or the end of the
line is a word. -/
theorem isWord {a b : Nat} (h : Scanned s a xs) (hlt : a < b) (hle : b ≤ s.length)
    (hinside : ∀ k, a ≤ k → k < b → ¬ Separator s k) (hright : b = s.length ∨ Separator s b) :
    IsWord s a b where
  lt := hlt
  le := hle
  inside := hinside
  left := by
    rcases h.boundary with h0 | hn | hsep | hsep
    · exact Or.inl h0
    · omega
    · exact Or.inr fun hn => hn hsep
    · exact absurd hsep (hinside a (Nat.le_refl _) hlt)
  right := hright.imp_right fun hsep hn => hn hsep

theorem word {a b : Nat} (h : Scanned s a xs) (hrun : IsWord s a b)
    (hstate : quoteState s b = none) {text : CString} (htext : text.bytes = wordText s a b) :
    Scanned s b (xs ++ [⟨.tokWord, some text, a⟩]) := by
  have hright : b = s.length ∨ Separator s b := hrun.right.imp_right Classical.not_not.mp
  refine ⟨hrun.le, hstate, Or.inr (hright.imp_right Or.inr), ?_, fun x => ?_⟩
  · refine List.pairwise_append.mpr ⟨h.increasing, List.pairwise_singleton _ _, ?_⟩
    intro x hx y hy
    rw [List.mem_singleton.mp hy]
    exact ((h.mem x).mp hx).2
  rw [List.mem_append, List.mem_singleton, h.mem x]
  constructor
  · intro h
    rcases h with ⟨hx, hlt⟩ | rfl
    · exact ⟨hx, Nat.lt_trans hlt hrun.lt⟩
    · exact ⟨.word hrun htext, hrun.lt⟩
  · intro h
    obtain ⟨hx, hlt⟩ := h
    rcases Nat.lt_or_ge x.pos a with ha | ha
    · exact Or.inl ⟨hx, ha⟩
    -- a lexeme that starts in `[a, b)` is the word itself
    refine Or.inr ?_
    cases hx with
    | operator state char type_eq =>
      exact absurd (separator_of_operator state char (by rw [type_eq]; nofun))
        (hrun.inside _ ha hlt)
    | @word a' b' text' run text_eq =>
      rcases Nat.eq_or_lt_of_le ha with rfl | ha
      · rw [hrun.end_unique run] at htext
        exact congrArg (fun t => (⟨.tokWord, some t, a⟩ : Lexeme))
          (CString.ext (text_eq.trans htext.symm))
      · exact absurd (hrun.not_start_inside run ha) (Nat.not_le.mpr hlt)

theorem isTokenization (h : Scanned s s.length xs) : IsTokenization s xs where
  increasing := h.increasing
  mem x := (h.mem x).trans <| and_iff_left_of_imp fun hx => by
    cases hx with
    | operator state char type_eq => exact (List.getElem?_eq_some_iff.mp char).1
    | word run text_eq => exact Nat.lt_of_lt_of_le run.lt run.le

end Scanned

/-! ## The part of a word before a position -/

/-- Position `i` lies in the word that starts at `a`, with the quote state `quote`;
`text` is the word's text so far, and `quotePos` the last opening quote while one
is in force. -/
structure WordScanned (s : List Byte) (a i : Nat) (quote : Option Byte) (quotePos : Nat)
    (text : List Byte) : Prop where
  ge : a ≤ i
  le : i ≤ s.length
  inside : ∀ k, a ≤ k → k < i → ¬ Separator s k
  state : quoteState s i = quote
  text_eq : text = wordText s a i
  opening : quote ≠ none → IsLastOpening s i quotePos

namespace WordScanned
variable {s : List Byte} {a i : Nat} {quote : Option Byte} {quotePos : Nat} {text : List Byte}
  {c q : Byte}

theorem zero {xs : List Lexeme} (h : Scanned s i xs) : WordScanned s i i none 0 [] :=
  ⟨Nat.le_refl _, h.le, fun k h1 h2 => by omega, h.state, by simp [wordText], fun h => absurd rfl h⟩

theorem inside_succ (h : WordScanned s a i quote quotePos text) (hi : ¬ Separator s i) :
    ∀ k, a ≤ k → k < i + 1 → ¬ Separator s k := by
  intro k hak hki
  rcases Nat.lt_or_ge k i with hlt | hge
  · exact h.inside k hak hlt
  · rwa [show k = i from by omega]

theorem openQuote (h : WordScanned s a i none quotePos text) (hc : s[i]? = some c)
    (hq : isQuote c) : WordScanned s a (i + 1) (some c) i text := by
  have hopen : Opening s i := ⟨h.state, c, hc, hq⟩
  refine ⟨by have := h.ge; omega, (List.getElem?_eq_some_iff.mp hc).1,
    h.inside_succ (not_separator_of_char hc (not_isspace_of_isQuote hq) (operatorType_of_isQuote hq)),
    quoteState_succ_open h.state hc hq, ?_,
    fun _ => ⟨hopen, Nat.lt_succ_self _, fun k h1 h2 => by omega⟩⟩
  rw [wordText_succ h.ge, if_pos (Or.inl hopen), h.text_eq]
  simp

theorem closeQuote (h : WordScanned s a i (some q) quotePos text) (hc : s[i]? = some q) :
    WordScanned s a (i + 1) none quotePos text := by
  refine ⟨by have := h.ge; omega, (List.getElem?_eq_some_iff.mp hc).1,
    h.inside_succ (not_separator_inside h.state), quoteState_succ_close h.state hc, ?_,
    fun hn => absurd rfl hn⟩
  rw [wordText_succ h.ge, if_pos (Or.inr ⟨q, h.state, hc⟩), h.text_eq]
  simp

theorem charOutside (h : WordScanned s a i none quotePos text) (hc : s[i]? = some c)
    (hq : isQuote c = false) (hspace : ¬ isspace c) (hop : operatorType c = none) :
    WordScanned s a (i + 1) none quotePos (text ++ [c]) := by
  refine ⟨by have := h.ge; omega, (List.getElem?_eq_some_iff.mp hc).1,
    h.inside_succ (not_separator_of_char hc hspace hop), quoteState_succ_outside h.state hc hq, ?_,
    fun hn => absurd rfl hn⟩
  rw [wordText_succ h.ge, if_neg, h.text_eq, hc]
  · rfl
  · intro h
    rcases h with ⟨_, c', hc', hq'⟩ | ⟨q, hstate, _⟩
    · rw [hc] at hc'
      cases hc'
      rw [hq] at hq'
      cases hq'
    · rw [h.state] at hstate
      cases hstate

theorem charInside (h : WordScanned s a i (some q) quotePos text) (hc : s[i]? = some c)
    (hq : c ≠ q) : WordScanned s a (i + 1) (some q) quotePos (text ++ [c]) := by
  have hopen : ¬ Opening s i := fun ho => by
    have := ho.1
    rw [h.state] at this
    cases this
  refine ⟨by have := h.ge; omega, (List.getElem?_eq_some_iff.mp hc).1,
    h.inside_succ (not_separator_inside h.state), quoteState_succ_inside h.state hc hq, ?_, fun _ => ?_⟩
  · rw [wordText_succ h.ge, if_neg, h.text_eq, hc]
    · rfl
    · intro h
      rcases h with ho | ⟨q', hstate, hq'⟩
      · exact hopen ho
      · rw [h.state] at hstate
        cases hstate
        rw [hc] at hq'
        exact hq (Option.some.inj hq')
  · obtain ⟨ho, hlt, hlast⟩ := h.opening (by nofun)
    refine ⟨ho, by omega, fun k h1 h2 => ?_⟩
    rcases Nat.lt_or_ge k i with hki | hki
    · exact hlast k h1 hki
    · rwa [show k = i from by omega]

end WordScanned
end SystemsCourse
