import SystemsCourse.LexicalSyntax
import SystemsCourse.ParserRelease

/-!
# `tokenize`

The lexer of `parser.c`: two nested loops over one index, with the quote in force
kept in a variable of the inner loop.  `tokenize_spec` says that it computes the
tokenization of the line as `LexicalSyntax` defines it, or fails because a
request was refused, or fails at the last opening quote of a line whose quotes
are not balanced — and which blocks it leaves behind in each case.
-/
namespace SystemsCourse
open Prog

variable {σ : Script} {m : Memory} {F : Multiset Addr}

/-! ## The code -/

/-- One pass of `while (isspace((unsigned char)s[i])) i++;`. -/
def spacePass (s : CString) (i : Nat) : Prog (LoopStep Nat Nat) := do
  let c ← charAt s i
  return if isspace c then .again (i + 1) else .done i

/-- The variables of the word loop. -/
structure WordScan where
  i : Nat
  b : Buffer
  quote : Byte
  quotePos : Nat
  started : Bool

/-- The end of a pass of the word loop, for a character of the word's text. -/
def wordChar (w : WordScan) (c : Byte) : Prog (LoopStep WordScan (ParseStatus × WordScan)) := do
  let w := { w with started := true }
  let (r, b) ← bufferAddchar w.b c
  let w := { w with b := b }
  if r = .parseFailed then
    free w.b.v
    return .done (.parseFailed, w)
  return .again { w with i := w.i + 1 }

/-- One pass of the word loop.  It ends the loop at the end of the line, at a
character that ends the word, or when the buffer cannot grow. -/
def wordPass (s : CString) (w : WordScan) : Prog (LoopStep WordScan (ParseStatus × WordScan)) := do
  let c ← charAt s w.i
  if c = 0 then return .done (.parseSuccess, w)
  if w.quote = 0 ∧ (isspace c ∨ c = ch '|' ∨ c = ch '<' ∨ c = ch '>') then
    return .done (.parseSuccess, w)
  if w.quote = 0 ∧ (c = singleQuote ∨ c = doubleQuote) then
    return .again { w with quote := c, quotePos := w.i, i := w.i + 1, started := true }
  if w.quote ≠ 0 ∧ c = w.quote then
    return .again { w with quote := 0, i := w.i + 1 }
  wordChar w c

/-- The variables of `tokenize` that outlive a pass of its outer loop. -/
structure TokenScan where
  i : Nat
  t : TokenList

/-- How the outer loop is left: through its condition or its `break`, by
`goto outofmemory`, or by a `return` after the error was reported. -/
inductive ScanExit where
  | loopEnd
  | outofmemory
  | reported (e : Option ParseError)

/-- The branch for an operator character: `tokenlist_addtoken(t, type, NULL, i++)`. -/
def operatorPass (t : TokenList) (i : Nat) (type : TokenType) :
    Prog (LoopStep TokenScan (ScanExit × TokenScan)) := do
  let (r, t) ← tokenlistAddtoken t type none i
  if r = .parseFailed then return .done (.outofmemory, ⟨i + 1, t⟩)
  return .again ⟨i + 1, t⟩

/-- `if (!b.v) b.v = strdup("");`. -/
def wordBuffer (v : Ptr Byte) : Prog (Ptr Byte) :=
  match v with
  | none => strdup CString.empty
  | some b => pure (some b)

/-- The end of the branch for a word: add the token, and release the buffer. -/
def wordToken (t : TokenList) (start i : Nat) (v : Ptr Byte) :
    Prog (LoopStep TokenScan (ScanExit × TokenScan)) := do
  let v ← wordBuffer v
  if v.isNone then
    free v
    return .done (.outofmemory, ⟨i, t⟩)
  let (r, t) ← tokenlistAddtoken t .tokWord v start
  if r = .parseFailed then
    free v
    return .done (.outofmemory, ⟨i, t⟩)
  free v
  return .again ⟨i, t⟩

/-- One pass of the outer loop. -/
def tokenizePass (s : CString) (e : Option ParseError) (st : TokenScan) :
    Prog (LoopStep TokenScan (ScanExit × TokenScan)) := do
  let c ← charAt s st.i
  if c = 0 then return .done (.loopEnd, st)
  let i ← loop (spacePass s) (s.length + 1) st.i
  let c ← charAt s i
  if c = 0 then return .done (.loopEnd, ⟨i, st.t⟩)
  let start := i
  if c = ch '|' then return ← operatorPass st.t i .tokPipe
  if c = ch '<' then return ← operatorPass st.t i .tokIn
  if c = ch '>' then return ← operatorPass st.t i .tokOut
  let (r, w) ← loop (wordPass s) (s.length + 1) ⟨i, Buffer.zero, 0, 0, false⟩
  if r = .parseFailed then return .done (.outofmemory, ⟨w.i, st.t⟩)
  if w.quote ≠ 0 then
    free w.b.v
    return .done (.reported (parseerrorSetError e w.quotePos "unterminated quote"), ⟨w.i, st.t⟩)
  if w.started = false then
    free w.b.v
    return .done (.reported (parseerrorSetError e start "invalid token"), ⟨w.i, st.t⟩)
  wordToken st.t start w.i w.b.v

/-- `tokenize`. -/
def tokenize (s : CString) (t : TokenList) (e : Option ParseError) :
    Prog (ParseStatus × TokenList × Option ParseError) := do
  let (exit, st) ← loop (tokenizePass s e) (s.length + 1) ⟨0, t⟩
  match exit with
  | .reported e => return (.parseFailed, st.t, e)
  | .outofmemory => return (.parseFailed, st.t, parseerrorSetError e st.i "out of memory")
  | .loopEnd =>
      let (r, t) ← tokenlistAddtoken st.t .tokEnd none st.i
      if r = .parseFailed then
        return (.parseFailed, t, parseerrorSetError e st.i "out of memory")
      return (.parseSuccess, t, e)

/-! ## The loops -/

/-- Skipping white space moves over separators only. -/
theorem skipSpace_spec {s : CString} {i : Nat} {xs : List Lexeme} (h : Scanned s.bytes i xs) :
    wp (loop (spacePass s) (s.length + 1) i) σ (fun i' m' => m' = m ∧ Scanned s.bytes i' xs ∧ i ≤ i' ∧
      ∀ c, s.bytes[i']? = some c → ¬ isspace c) m := by
  refine wp_loop (fun j m' => m' = m ∧ Scanned s.bytes j xs ∧ i ≤ j)
    (fun j => s.length - j) ?_ _ _ _ (by omega) ⟨rfl, h, Nat.le_refl _⟩
  intro j m' hpost
  obtain ⟨rfl, hj, hij⟩ := hpost
  refine wp_bind.mpr (charAt_spec hj.le ?_ ?_)
  · rintro rfl
    refine ⟨rfl, hj, hij, fun c hc => ?_⟩
    rw [List.getElem?_eq_none (by simp [CString.length])] at hc
    cases hc
  · intro c hc _
    by_cases hspace : isspace c
    · rw [if_pos hspace]
      have hj' := hj.space hc hspace
      exact ⟨⟨rfl, hj', by omega⟩, by have : j + 1 ≤ s.length := hj'.le; omega⟩
    · rw [if_neg hspace]
      refine ⟨rfl, hj, hij, fun c' hc' => ?_⟩
      rw [hc] at hc'
      cases hc'
      exact hspace

/-- The quote state the variable `quote` stands for. -/
def quoteVar (q : Byte) : Option Byte := if q = 0 then none else some q

theorem quoteVar_of_ne_zero {q : Byte} (h : q ≠ 0) : quoteVar q = some q := if_neg h

/-- The invariant of the word loop for the word that starts at `a`. -/
structure WordInv (s : CString) (a : Nat) (F : Multiset Addr) (w : WordScan) (m : Memory) : Prop where
  live : m.ledger.live = w.b.v.own + F
  started : w.started = true ∨ (w.i = a ∧ w.quote = 0)
  scanned : ∃ text, w.b.Holds text ∧
    WordScanned s.bytes a w.i (quoteVar w.quote) w.quotePos text

/-- What holds when the word loop has ended. -/
def WordEnd (s : CString) (a : Nat) (F : Multiset Addr) (σ : Script) :
    ParseStatus × WordScan → Memory → Prop
  | (.parseSuccess, w), m => WordInv s a F w m ∧
      (w.i = s.length ∨ (w.quote = 0 ∧ Separator s.bytes w.i))
  | (.parseFailed, _), m => m.ledger.live = F ∧ σ.Refuses

/-- A character joins the text of the word. -/
theorem wordChar_spec {s : CString} {a : Nat} {w : WordScan} {text : List Byte} {c : Byte}
    (hlive : m.ledger.live = w.b.v.own + F) (hb : w.b.Holds text)
    (hw : WordScanned s.bytes a (w.i + 1) (quoteVar w.quote) w.quotePos (text ++ [c])) :
    wp (wordChar w c) σ (fun r m' => r.Ends
      (fun w' => WordInv s a F w' m' ∧ s.length - w'.i < s.length - w.i)
      (fun b => WordEnd s a F σ b m')) m := by
  refine wp_seq (bufferAddchar_spec hb c hlive) ?_
  intro out m₁ hpost
  obtain ⟨r, b⟩ := out
  rcases hpost with ⟨hlive₁, ⟨rfl, hb'⟩ | ⟨hr, hσ⟩⟩
  · have hle : w.i + 1 ≤ s.length := hw.le
    exact ⟨⟨hlive₁, Or.inl rfl, _, hb', hw⟩, show s.length - (w.i + 1) < s.length - w.i by omega⟩
  · -- the buffer cannot grow, and is released before `goto outofmemory`
    cases hr
    refine wp_seq (free_spec hlive₁) ?_
    intro _ m₂ hpost
    obtain ⟨hlive₂, _⟩ := hpost
    exact ⟨hlive₂, hσ⟩

theorem wordPass_spec {s : CString} {a : Nat} {w : WordScan} (h : WordInv s a F w m) :
    wp (wordPass s w) σ (fun r m' => r.Ends
      (fun w' => WordInv s a F w' m' ∧ s.length - w'.i < s.length - w.i)
      (fun b => WordEnd s a F σ b m')) m := by
  obtain ⟨hlive, hstarted, text, hb, hw⟩ := h
  refine wp_bind.mpr (charAt_spec hw.le ?_ ?_)
  · intro hend
    rw [if_pos rfl]
    exact ⟨⟨hlive, hstarted, text, hb, hw⟩, Or.inl hend⟩
  intro c hc hc0
  have hlt : w.i < s.length := (List.getElem?_eq_some_iff.mp hc).1
  have hfall : s.length - (w.i + 1) < s.length - w.i := by omega
  rw [if_neg hc0]
  by_cases hq : w.quote = 0
  · -- outside quotes: the end of the word, an opening quote, or a character
    have hstate : quoteVar w.quote = none := if_pos hq
    by_cases hsep : isspace c ∨ c = ch '|' ∨ c = ch '<' ∨ c = ch '>'
    · rw [if_pos ⟨hq, hsep⟩]
      refine ⟨⟨hlive, hstarted, text, hb, hw⟩, Or.inr ⟨hq, hw.state.trans hstate, c, hc, ?_⟩⟩
      exact hsep.imp_right fun hop => by rcases hop with rfl | rfl | rfl <;> decide
    have hspace : ¬ isspace c := fun h => hsep (Or.inl h)
    have hop : operatorType c = none := operatorType_eq_none fun h => hsep (Or.inr h)
    rw [if_neg fun h => hsep h.2]
    by_cases hquote : c = singleQuote ∨ c = doubleQuote
    · rw [if_pos ⟨hq, hquote⟩]
      refine ⟨⟨hlive, Or.inl rfl, text, hb, ?_⟩, hfall⟩
      rw [quoteVar_of_ne_zero hc0]
      exact (hstate ▸ hw).openQuote hc (isQuote_iff.mpr hquote)
    · rw [if_neg fun h => hquote h.2, if_neg fun h => h.1 hq]
      refine wordChar_spec hlive hb ?_
      rw [hstate] at hw ⊢
      exact hw.charOutside hc (Bool.eq_false_iff.mpr fun h => hquote (isQuote_iff.mp h)) hspace hop
  · -- inside quotes: the closing quote, or a character
    have hstate : quoteVar w.quote = some w.quote := quoteVar_of_ne_zero hq
    rw [if_neg fun h => hq h.1, if_neg fun h => hq h.1]
    by_cases hclose : c = w.quote
    · rw [if_pos ⟨hq, hclose⟩]
      rw [hclose] at hc
      refine ⟨⟨hlive, Or.inl (hstarted.resolve_right fun h => hq h.2), text, hb, ?_⟩, hfall⟩
      exact (hstate ▸ hw).closeQuote hc
    · rw [if_neg fun h => hclose h.2]
      refine wordChar_spec hlive hb ?_
      rw [hstate] at hw ⊢
      exact hw.charInside hc hclose

/-- **A word has been read**: outside quotes, the word loop that began at `i`, a
character at which it does not stop, ends where a word ends. -/
theorem WordInv.isWord {s : CString} {i : Nat} {F : Multiset Addr} {w : WordScan} {m : Memory}
    {xs : List Lexeme} (h : WordInv s i F w m) (hs : Scanned s.bytes i xs) (hlt : i < s.length)
    (hfirst : ¬ Separator s.bytes i) (hright : w.i = s.length ∨ Separator s.bytes w.i)
    (hq : w.quote = 0) : w.started = true ∧ IsWord s.bytes i w.i ∧
      quoteState s.bytes w.i = none ∧
      ∃ text : CString, w.b.Holds text.bytes ∧ text.bytes = wordText s.bytes i w.i := by
  obtain ⟨-, hstarted, text, hb, hw⟩ := h
  have hlt' : i < w.i := by
    refine Nat.lt_of_le_of_ne hw.ge fun he => ?_
    rcases hright with hend | hsep
    · omega
    · exact hfirst (he ▸ hsep)
  have hsub : text ⊆ s.bytes := hw.text_eq ▸ wordText_subset _ _ _
  exact ⟨hstarted.resolve_right (by omega), hs.isWord hlt' hw.le hw.inside hright,
    hw.state.trans (if_pos hq), s.sub text hsub, hb, hw.text_eq⟩

/-- The invariant of the outer loop: the tokens so far are the lexemes before the
position. -/
structure TokenInv (s : CString) (F : Multiset Addr) (st : TokenScan) (m : Memory) : Prop where
  live : m.ledger.live = st.t.blocks + F
  scanned : ∃ toks xs, st.t.Holds toks ∧ toks.mapM Token.read = some xs ∧ Scanned s.bytes st.i xs

/-- The error reported for a line that ends inside a quote. -/
def ReportsUnterminated (s : CString) (e e' : Option ParseError) : Prop :=
  quoteState s.bytes s.length ≠ none ∧ ∃ p, IsLastOpening s.bytes s.length p ∧
    e' = parseerrorSetError e p "unterminated quote"

/-- **A quote is still open** at the end of the line: it was opened last. -/
theorem WordInv.reportsUnterminated {s : CString} {i : Nat} {F : Multiset Addr} {w : WordScan}
    {m : Memory} (h : WordInv s i F w m) (hlen : w.i = s.length) (hq : w.quote ≠ 0)
    (e : Option ParseError) :
    ReportsUnterminated s e (parseerrorSetError e w.quotePos "unterminated quote") := by
  obtain ⟨-, -, text, -, hw⟩ := h
  have hstate : quoteState s.bytes s.length = some w.quote := by
    rw [← hlen, hw.state, quoteVar_of_ne_zero hq]
  refine ⟨by rw [hstate]; nofun, w.quotePos, ?_, rfl⟩
  rw [← hlen]
  exact hw.opening (by rw [quoteVar_of_ne_zero hq]; nofun)

/-- What holds when the outer loop has been left. -/
def TokenEnd (s : CString) (e : Option ParseError) (F : Multiset Addr) (σ : Script) :
    ScanExit × TokenScan → Memory → Prop
  | (.loopEnd, st), m => TokenInv s F st m ∧ st.i = s.length
  | (.outofmemory, st), m => m.ledger.live = st.t.blocks + F ∧ (∃ toks, st.t.Holds toks) ∧ σ.Refuses
  | (.reported e', st), m => m.ledger.live = st.t.blocks + F ∧ (∃ toks, st.t.Holds toks) ∧
      ReportsUnterminated s e e'

/-- A pass of the outer loop adds a lexeme or ends the loop. -/
abbrev PassPost (s : CString) (e : Option ParseError) (F : Multiset Addr) (σ : Script) (i : Nat)
    (r : LoopStep TokenScan (ScanExit × TokenScan)) (m : Memory) : Prop :=
  r.Ends (fun st => TokenInv s F st m ∧ s.length - st.i < s.length - i)
    (fun b => TokenEnd s e F σ b m)

section Passes
variable {s : CString} {e : Option ParseError} {t : TokenList} {toks : List Token} {xs : List Lexeme}

theorem operatorPass_spec {i₀ i : Nat} {c : Byte} {type : TokenType} (hi : i₀ ≤ i)
    (hlive : m.ledger.live = t.blocks + F) (ht : t.Holds toks) (hread : toks.mapM Token.read = some xs)
    (hs : Scanned s.bytes i xs) (hc : s.bytes[i]? = some c) (htype : operatorType c = some type) :
    wp (operatorPass t i type) σ (PassPost s e F σ i₀) m := by
  refine wp_seq (tokenlistAddtoken_spec ht type Ptr.optString_none i hlive) ?_
  intro out m₁ hpost
  obtain ⟨r, t'⟩ := out
  rcases hpost with ⟨hlive₁, ⟨rfl, x, ht', hx⟩ | ⟨rfl, hσ, toks', ht'⟩⟩
  · have hs' := hs.operator hc htype
    have hle : i + 1 ≤ s.length := hs'.le
    refine ⟨⟨hlive₁, toks ++ [x], _, ht', ?_, hs'⟩, show s.length - (i + 1) < _ by omega⟩
    simp [List.mapM_append, hread, hx]
  · exact ⟨hlive₁, ⟨toks', ht'⟩, hσ⟩

/-- The text of the word: the buffer's, or a copy of the empty string. -/
theorem wordBuffer_spec {b : Buffer} {text : CString} (hb : b.Holds text.bytes)
    (hlive : m.ledger.live = b.v.own + F) :
    wp (wordBuffer b.v) σ (fun p m' => m'.ledger.live = p.own + F ∧
      ((p = none ∧ σ.Refuses) ∨ p.string = some text)) m := by
  cases hv : b.v with
  | none =>
    -- a word of quotes around nothing has never needed the buffer
    rw [hv, Ptr.own_none, zero_add] at hlive
    have htext : text = CString.empty := by
      have hle := hb.array.1.length_le
      have hcap := hb.array.1.1
      rw [hv] at hcap
      exact CString.ext (List.length_eq_zero_iff.mp (by simp [Ptr.cells] at hcap; omega))
    rw [htext]
    refine wp_mono (strdup_spec CString.empty) ?_
    intro p m' hpost
    obtain ⟨hlive', hp⟩ := hpost
    exact ⟨hlive'.trans (by rw [hlive]), hp⟩
  | some blk =>
    refine ⟨hv ▸ hlive, Or.inr ?_⟩
    rw [← hv]
    exact hb.string fun hnil => by simp [hb.null hnil] at hv

theorem wordToken_spec {i₀ a i : Nat} {b : Buffer} {text : CString} (hi : i₀ ≤ a)
    (hlive : m.ledger.live = b.v.own + (t.blocks + F)) (ht : t.Holds toks)
    (hread : toks.mapM Token.read = some xs) (hs : Scanned s.bytes a xs) (hrun : IsWord s.bytes a i)
    (hstate : quoteState s.bytes i = none) (hb : b.Holds text.bytes)
    (htext : text.bytes = wordText s.bytes a i) :
    wp (wordToken t a i b.v) σ (PassPost s e F σ i₀) m := by
  refine wp_seq (wordBuffer_spec hb hlive) ?_
  intro p m₁ hpost
  rcases hpost with ⟨hlive₁, ⟨rfl, hσ⟩ | hp⟩
  · exact ⟨by simpa using hlive₁, ⟨toks, ht⟩, hσ⟩
  have hnone : ¬ p.isNone := by
    rw [Option.isNone_iff_eq_none]
    exact Ptr.ne_none_of_string hp
  rw [if_neg hnone]
  have hlive₁' : m₁.ledger.live = t.blocks + (p.own + F) := by
    rw [hlive₁]
    abel
  refine wp_seq (tokenlistAddtoken_spec ht .tokWord (Ptr.optString_of_string hp) a hlive₁') ?_
  intro out m₂ hpost
  obtain ⟨r, t'⟩ := out
  obtain ⟨hlive₂, hr⟩ := hpost
  have hlive₂' : m₂.ledger.live = p.own + (t'.blocks + F) := by
    rw [hlive₂]
    abel
  rcases hr with ⟨rfl, x, ht', hx⟩ | ⟨rfl, hσ, toks', ht'⟩
  · refine wp_seq (free_spec hlive₂') ?_
    intro _ m₃ hpost
    obtain ⟨hlive₃, _⟩ := hpost
    have hlt : a < i := hrun.lt
    have hle : i ≤ s.length := hrun.le
    refine ⟨⟨hlive₃, toks ++ [x], _, ht', ?_, hs.word hrun hstate htext⟩,
      show s.length - i < _ by omega⟩
    simp [List.mapM_append, hread, hx]
  · refine wp_seq (free_spec hlive₂') ?_
    intro _ m₃ hpost
    obtain ⟨hlive₃, _⟩ := hpost
    exact ⟨hlive₃, ⟨toks', ht'⟩, hσ⟩

theorem tokenizePass_spec {st : TokenScan} (h : TokenInv s F st m) :
    wp (tokenizePass s e st) σ (PassPost s e F σ st.i) m := by
  obtain ⟨hlive, toks, xs, ht, hread, hs⟩ := h
  refine wp_bind.mpr (charAt_spec hs.le ?_ ?_)
  · intro hend
    rw [if_pos rfl]
    exact ⟨⟨hlive, toks, xs, ht, hread, hs⟩, hend⟩
  intro c₀ _ hc₀
  rw [if_neg hc₀]
  refine wp_seq (skipSpace_spec hs) ?_
  intro i m₁ hpost
  obtain ⟨rfl, hs, hi, hspace⟩ := hpost
  refine wp_bind.mpr (charAt_spec hs.le ?_ ?_)
  · intro hend
    rw [if_pos rfl]
    exact ⟨⟨hlive, toks, xs, ht, hread, hs⟩, hend⟩
  intro c hc hc0
  rw [if_neg hc0]
  have hlt : i < s.length := (List.getElem?_eq_some_iff.mp hc).1
  by_cases hpipe : c = ch '|'
  · rw [if_pos hpipe]
    exact operatorPass_spec hi hlive ht hread hs hc
      (show operatorType c = some .tokPipe by rw [hpipe]; decide)
  by_cases hin : c = ch '<'
  · rw [if_neg hpipe, if_pos hin]
    exact operatorPass_spec hi hlive ht hread hs hc
      (show operatorType c = some .tokIn by rw [hin]; decide)
  by_cases hout : c = ch '>'
  · rw [if_neg hpipe, if_neg hin, if_pos hout]
    exact operatorPass_spec hi hlive ht hread hs hc
      (show operatorType c = some .tokOut by rw [hout]; decide)
  rw [if_neg hpipe, if_neg hin, if_neg hout]
  -- a word starts at `i`: its first character is no separator, so the loop passes it
  have hfirst : ¬ Separator s.bytes i :=
    not_separator_of_char hc (hspace c hc) (operatorType_eq_none (by tauto))
  have hinit : WordInv s i (st.t.blocks + F) ⟨i, Buffer.zero, 0, 0, false⟩ m₁ :=
    ⟨hlive.trans (zero_add _).symm, Or.inr ⟨rfl, rfl⟩, [], Buffer.holds_zero, WordScanned.zero hs⟩
  refine wp_seq (wp_loop (WordInv s i (st.t.blocks + F)) (fun w => s.length - w.i)
    (Q := WordEnd s i (st.t.blocks + F) σ) (fun w m hw => wordPass_spec hw) _ _ _
    (by show s.length - i < s.length + 1; omega) hinit) ?_
  intro out m₂ hend
  obtain ⟨r, w⟩ := out
  cases r with
  | parseFailed => exact ⟨hend.1, ⟨toks, ht⟩, hend.2⟩
  | parseSuccess =>
  obtain ⟨hinv, hstop⟩ := hend
  dsimp only
  rw [if_neg nofun]
  by_cases hq : w.quote = 0
  · obtain ⟨hstarted, hrun, hstate, text, hb, htext⟩ :=
      hinv.isWord hs hlt hfirst (hstop.imp_right And.right) hq
    rw [if_neg (fun h => h hq), if_neg (by rw [hstarted]; nofun)]
    exact wordToken_spec hi hinv.live ht hread hs hrun hstate hb htext
  · rw [if_pos hq]
    refine wp_seq (free_spec hinv.live) ?_
    intro _ m₃ hpost
    obtain ⟨hlive₃, _⟩ := hpost
    have hlen : w.i = s.length := hstop.resolve_right fun h => hq h.1
    exact ⟨hlive₃, ⟨toks, ht⟩, hinv.reportsUnterminated hlen hq e⟩

end Passes

/-- **`tokenize` computes the tokenization of its line**, and behind it one
`TOK_END` at the end of the line.  It fails only when a request was refused, or
when the line ends inside a quote; then the last opening quote is reported. -/
theorem tokenize_spec (s : CString) (e : Option ParseError) (hlive : m.ledger.live = F) :
    wp (tokenize s TokenList.zero e) σ (fun r m' => m'.ledger.live = r.2.1.blocks + F ∧
      ((r.1 = .parseSuccess ∧ quoteState s.bytes s.length = none ∧ r.2.2 = e ∧
          ∃ toks xs, r.2.1.Holds toks ∧ IsTokenization s.bytes xs ∧
            toks.mapM Token.read = some (xs ++ [⟨.tokEnd, none, s.length⟩])) ∨
        (r.1 = .parseFailed ∧ (∃ toks, r.2.1.Holds toks) ∧
          (σ.Refuses ∨ ReportsUnterminated s e r.2.2)))) m := by
  have hinit : TokenInv s F ⟨0, TokenList.zero⟩ m :=
    ⟨hlive.trans (zero_add _).symm, [], [], TokenList.holds_zero, rfl, Scanned.zero _⟩
  refine wp_seq (wp_loop (TokenInv s F) (fun st => s.length - st.i)
    (Q := TokenEnd s e F σ) (fun st m h => tokenizePass_spec h) _ _ _
    (by show s.length - 0 < s.length + 1; omega) hinit) ?_
  intro out m₁ hend
  obtain ⟨exit, st⟩ := out
  cases exit with
  | reported e' => exact ⟨hend.1, Or.inr ⟨rfl, hend.2.1, Or.inr hend.2.2⟩⟩
  | outofmemory => exact ⟨hend.1, Or.inr ⟨rfl, hend.2.1, Or.inl hend.2.2⟩⟩
  | loopEnd =>
  obtain ⟨⟨hlive₁, toks, xs, ht, hread, hs⟩, hi⟩ := hend
  refine wp_seq (tokenlistAddtoken_spec ht .tokEnd Ptr.optString_none st.i hlive₁) ?_
  intro out m₂ hpost
  obtain ⟨r, t'⟩ := out
  rcases hpost with ⟨hlive₂, ⟨rfl, x, ht', hx⟩ | ⟨rfl, hσ, toks', ht'⟩⟩
  · rw [hi] at hs hx
    refine ⟨hlive₂, Or.inl ⟨rfl, hs.state, rfl, _, xs, ht', hs.isTokenization, ?_⟩⟩
    simp [List.mapM_append, hread, hx]
  · exact ⟨hlive₂, Or.inr ⟨rfl, ⟨toks', ht'⟩, Or.inl hσ⟩⟩

/-- A line with balanced quotes has a tokenization: the one `tokenize` computes. -/
theorem exists_isTokenization (s : CString) (h : quoteState s.bytes s.length = none) :
    ∃ xs, IsTokenization s.bytes xs := by
  obtain ⟨_, _, -, -, ⟨-, -, -, toks, xs, -, hxs, -⟩ | ⟨-, -, hσ | ⟨hstate, -⟩⟩⟩ := wp_iff.mp
    (tokenize_spec (σ := Script.generous) s none (m := Memory.empty) rfl)
  · exact ⟨xs, hxs⟩
  · exact absurd hσ Script.not_refuses_generous
  · exact absurd h hstate

/-- **With every request granted, `tokenize` agrees with the lexical syntax**: it
fails exactly on the lines that end inside a quote, at the last opening quote, and
yields the tokenization of any other. -/
theorem tokenize_agrees (s : CString) (e : Option ParseError) (m : Memory) :
    ∃ r t e' m', tokenize s TokenList.zero e Script.generous m = some ((r, t, e'), m') ∧
      (r = .parseFailed ↔ quoteState s.bytes s.length ≠ none) ∧
      (r = .parseFailed → ∃ p, IsLastOpening s.bytes s.length p ∧
        e' = parseerrorSetError e p "unterminated quote") ∧
      (r = .parseSuccess → ∃ xs, IsTokenization s.bytes xs ∧
        t.read = some (xs ++ [⟨.tokEnd, none, s.length⟩])) := by
  obtain ⟨⟨r, t, e'⟩, m', hrun, -, hr⟩ := wp_iff.mp
    (tokenize_spec (σ := Script.generous) s e (m := m) rfl)
  refine ⟨r, t, e', m', hrun, ?_⟩
  rcases hr with ⟨rfl, hstate, -, toks, xs, ht, hxs, hread⟩ | ⟨rfl, -, hσ | ⟨hstate, hreport⟩⟩
  · exact ⟨iff_of_false nofun (not_not_intro hstate), nofun, fun _ => ⟨xs, hxs, by rw [ht.read, hread]⟩⟩
  · exact absurd hσ Script.not_refuses_generous
  · exact ⟨iff_of_true rfl hstate, fun _ => hreport, nofun⟩

end SystemsCourse
