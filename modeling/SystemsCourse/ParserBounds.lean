import SystemsCourse.CommandGrammar
import SystemsCourse.ParserAccesses

/-!
# Scanning and parsing stay in bounds

The lexer never reads behind the terminator of its line because it reads the
terminator first: every step forward is from a character that is not zero.  Its
outer loop advances because the word loop does not stop on the first character of
a word, which is neither white space nor an operator; so the branch for an invalid
token is dead.

The parser relies on the shape of the list the lexer hands it (`Terminated`): the
last token, and no other, is a `TOK_END`, and exactly the words have a text.  It
steps past a token only when that is not a `TOK_END`, and so never past the end.
-/
namespace SystemsCourse

/-- The accesses that are in bounds, for the line `s`. -/
def Access.InBounds (s : CString) : Access → Prop
  | .scanPass i => i ≤ s.length
  | .readChar i => i ≤ s.length
  | .invalidToken => False
  | .readToken n i => i < n
  | .passText text => text ≠ none

/-- A read of the line that is in bounds. -/
def Access.ReadsWithin (s : CString) : Access → Prop
  | .readChar i => i ≤ s.length
  | _ => False

def Access.isScanPass : Access → Bool
  | .scanPass _ => true
  | _ => false

theorem Access.ReadsWithin.inBounds {s : CString} {ev : Access} (h : ev.ReadsWithin s) :
    ev.InBounds s := by
  cases ev with
  | readChar i => exact h
  | scanPass | invalidToken | readToken | passText => exact h.elim

theorem Access.ReadsWithin.not_scanPass {s : CString} {ev : Access} (h : ev.ReadsWithin s) :
    ev.isScanPass = false := by
  cases ev with
  | scanPass i => exact h.elim
  | readChar | invalidToken | readToken | passText => rfl

/-- A token list as `tokenize` hands it on: its last token is a `TOK_END`, and the
only one; and exactly the words have a text. -/
structure TokenList.Terminated (t : TokenList) : Prop where
  tokens : ∃ front last, t.Holds (front ++ [last]) ∧ last.type = .tokEnd ∧
    (∀ x ∈ front, x.type ≠ .tokEnd) ∧
    ∀ x ∈ front ++ [last], x.text ≠ none ↔ x.type = .tokWord

/-! ## The list that `tokenize` returns -/

theorem exists_of_mapM {α β : Type} {f : α → Option β} {xs : List α} {ys : List β}
    (h : xs.mapM f = some ys) {x : α} (hx : x ∈ xs) : ∃ y ∈ ys, f x = some y := by
  obtain ⟨i, hi, rfl⟩ := List.mem_iff_getElem.mp hx
  obtain ⟨hlen, hget⟩ := getElem_of_mapM h
  exact ⟨_, List.getElem_mem (hlen ▸ hi), hget i hi (hlen ▸ hi)⟩

theorem exists_concat_of_mapM {α β : Type} {f : α → Option β} {xs : List α} {ys : List β} {y : β}
    (h : xs.mapM f = some (ys ++ [y])) :
    ∃ front last, xs = front ++ [last] ∧ front.mapM f = some ys ∧ f last = some y := by
  rcases List.eq_nil_or_concat xs with rfl | ⟨front, last, rfl⟩
  · simp at h
  refine ⟨front, last, List.concat_eq_append, ?_⟩
  rw [List.concat_eq_append, List.mapM_append] at h
  obtain ⟨ys', hfront, h⟩ := Option.bind_eq_some_iff.mp h
  obtain ⟨zs, hlast, h⟩ := Option.bind_eq_some_iff.mp h
  obtain ⟨y', hy, hz⟩ := Option.bind_eq_some_iff.mp hlast
  cases hz
  obtain ⟨rfl, hlast⟩ := List.append_inj' (Option.some.inj h) rfl
  cases hlast
  exact ⟨hfront, hy⟩

/-- A token has the type of its lexeme, and a text when the lexeme has one. -/
theorem Token.type_text_of_read {tok : Token} {x : Lexeme} (h : tok.read = some x) :
    tok.type = x.type ∧ (tok.text ≠ none ↔ x.text ≠ none) := by
  obtain ⟨text, htext, rfl⟩ := Option.map_eq_some_iff.mp h
  refine ⟨rfl, ?_⟩
  cases htok : tok.text with
  | none =>
    rw [htok] at htext
    cases htext
    exact iff_of_false (not_not_intro rfl) (not_not_intro rfl)
  | some b =>
    rw [htok] at htext
    obtain ⟨w, -, rfl⟩ := Option.map_eq_some_iff.mp htext
    exact iff_of_true nofun nofun

theorem IsLexeme.text_iff {s : List Byte} {x : Lexeme} (h : IsLexeme s x) :
    x.text ≠ none ↔ x.type = .tokWord := by
  cases h with
  | operator state char type_eq =>
    exact iff_of_false (not_not_intro rfl) (ne_tokWord_of_operatorType type_eq)
  | word run text_eq => exact iff_of_true nofun rfl

theorem terminated_of_isTokenization {t : TokenList} {toks : List Token} {xs : List Lexeme}
    {s : List Byte} {pos : Nat} (ht : t.Holds toks) (hxs : IsTokenization s xs)
    (hread : toks.mapM Token.read = some (xs ++ [⟨.tokEnd, none, pos⟩])) : t.Terminated := by
  obtain ⟨front, last, rfl, hfront, hlast⟩ := exists_concat_of_mapM hread
  obtain ⟨hend, htext⟩ := Token.type_text_of_read hlast
  have hmem : ∀ tok ∈ front, tok.type ≠ .tokEnd ∧ (tok.text ≠ none ↔ tok.type = .tokWord) := by
    intro tok htok
    obtain ⟨x, hx, hr⟩ := exists_of_mapM hfront htok
    obtain ⟨htype, htext⟩ := Token.type_text_of_read hr
    have hlex := (hxs.mem x).mp hx
    rw [htype]
    exact ⟨(Lexeme.Proper.of_isLexeme hlex).ne_tokEnd, htext.trans hlex.text_iff⟩
  refine ⟨front, last, ht, hend, fun tok htok => (hmem tok htok).1, fun tok htok => ?_⟩
  rcases List.mem_append.mp htok with htok | htok
  · exact (hmem tok htok).2
  · rw [List.mem_singleton.mp htok, hend]
    exact htext.trans (iff_of_false (not_not_intro rfl) nofun)

section Terminated
variable {t : TokenList} {i : Nat} {tok : Token}

/-- A token other than a `TOK_END` is not the last. -/
theorem TokenList.Terminated.next_lt (ht : t.Terminated) (hi : i < t.n)
    (htok : t.v.cells[i]? = some (some tok)) (hend : tok.type ≠ .tokEnd) : i + 1 < t.n := by
  obtain ⟨front, last, hholds, hlast, -⟩ := ht.tokens
  rw [hholds.count, List.length_append, List.length_singleton] at hi ⊢
  refine Nat.lt_of_le_of_ne hi fun he => hend ?_
  obtain rfl : i = front.length := by omega
  rw [hholds.array.getElem? (by simp)] at htok
  cases htok
  simpa using hlast

theorem TokenList.Terminated.text_iff (ht : t.Terminated) (hi : i < t.n)
    (htok : t.v.cells[i]? = some (some tok)) : tok.text ≠ none ↔ tok.type = .tokWord := by
  obtain ⟨front, last, hholds, -, -, htext⟩ := ht.tokens
  rw [hholds.count] at hi
  rw [hholds.array.getElem? hi] at htok
  cases htok
  exact htext _ (List.getElem_mem hi)

theorem TokenList.Terminated.pos (ht : t.Terminated) : 0 < t.n := by
  obtain ⟨front, last, hholds, -⟩ := ht.tokens
  rw [hholds.count]
  simp

end Terminated

/-- **What `tokenize` returns on success.** -/
theorem tokenize_terminated (s : CString) (e : Option ParseError) (σ : Script) (m : Memory) :
    (tokenize s TokenList.zero e).wp σ
      (fun r _ => r.1 = .parseSuccess → r.2.1.Terminated) m := by
  refine Prog.wp_mono (tokenize_spec s e rfl) ?_
  intro r m' hpost
  obtain ⟨-, ⟨-, -, -, toks, xs, ht, hxs, hread⟩ | ⟨hfail, -⟩⟩ := hpost
  · exact fun _ => terminated_of_isTokenization ht hxs hread
  · intro hr
    rw [hr] at hfail
    cases hfail

theorem CString.le_length_of_at? {s : CString} {i : Nat} {c : Byte} (h : s.at? i = some c) :
    i ≤ s.length := by
  have hlt := (List.getElem?_eq_some_iff.mp h).1
  rw [List.length_append, List.length_singleton] at hlt
  exact Nat.le_of_lt_succ hlt

theorem CString.lt_length_of_at? {s : CString} {i : Nat} {c : Byte} (h : s.at? i = some c)
    (hc : c ≠ 0) : i < s.length :=
  (List.getElem?_eq_some_iff.mp ((s.at?_eq_some_iff hc).mp h)).1

theorem Prog.eq_some_of_ofOption {α : Type} {o : Option α} {σ : Script} {m m' : Memory} {a : α}
    (h : ofOption o σ m = some (a, m')) : o = some a := by
  cases o with
  | none => cases h
  | some b =>
    cases h
    rfl

namespace Traced
open Logged
open Prog (LoopStep)
variable {s : CString}

/-! ## The lexer -/

theorem charAt_emits (i : Nat) :
    Emits (Access.ReadsWithin s) (charAt s i) (fun c => s.at? i = some c) := by
  refine wlp_seq (P := fun _ l => l = [.readChar i]) (wlp_log rfl) ?_
  intro _ l hl
  subst hl
  refine wlp_lift fun σ m c m' hrun => ?_
  have hc := Prog.eq_some_of_ofOption hrun
  refine ⟨fun ev hev => ?_, hc⟩
  rw [List.append_nil, List.mem_singleton] at hev
  subst hev
  exact CString.le_length_of_at? hc

/-- White space is not the terminator. -/
theorem ne_zero_of_isspace {c : Byte} (h : isspace c) : c ≠ 0 := by
  rintro rfl
  exact absurd h (by decide)

theorem skipSpace_emits {i : Nat} (hi : i ≤ s.length) :
    Emits (Access.ReadsWithin s) (loop (spacePass s) (s.length + 1) i) (fun j => i ≤ j ∧
      j ≤ s.length ∧ ∀ c, s.at? j = some c → ¬ isspace c) := by
  refine Emits.loop (fun j => i ≤ j ∧ j ≤ s.length) ?_ _ ⟨Nat.le_refl _, hi⟩
  intro j hj
  refine Emits.seq (charAt_emits j) ?_
  intro c hc
  refine Emits.pure ?_
  by_cases hspace : isspace c
  · rw [if_pos hspace]
    have hlt := CString.lt_length_of_at? hc (ne_zero_of_isspace hspace)
    exact ⟨Nat.le_succ_of_le hj.1, hlt⟩
  · rw [if_neg hspace]
    refine ⟨hj.1, hj.2, fun c' hc' => ?_⟩
    rw [hc] at hc'
    cases hc'
    exact hspace

/-- The word loop that began at `a` has moved on, or nothing has happened yet. -/
def WordMoved (s : CString) (a : Nat) (w : WordScan) : Prop :=
  w.i ≤ s.length ∧ ((a < w.i ∧ w.started = true) ∨ (w.i = a ∧ w.quote = 0))

/-- A character at which the word loop stops outside quotes. -/
def StopsWord (s : CString) (i : Nat) : Prop :=
  ∃ c, s.at? i = some c ∧ (c = 0 ∨ isspace c ∨ c = ch '|' ∨ c = ch '<' ∨ c = ch '>')

/-- How the word loop that began at `a` ends. -/
def WordLeft (s : CString) (a : Nat) (out : ParseStatus × WordScan) : Prop :=
  out.1 = .parseSuccess → WordMoved s a out.2 ∧ (out.2.quote = 0 → StopsWord s out.2.i)

theorem wordChar_emits {a : Nat} {w : WordScan} {c : Byte} (hlt : w.i < s.length) (ha : a ≤ w.i) :
    Emits (Access.ReadsWithin s) (lift (wordChar w c)) (fun r =>
      r.Ends (WordMoved s a) (WordLeft s a)) := by
  rw [wordChar, lift_bind]
  apply Emits.lift_seq
  intro out
  obtain ⟨r, b⟩ := out
  dsimp only
  cases r with
  | parseSuccess =>
    rw [if_neg nofun, lift_pure]
    exact Emits.pure ⟨hlt, Or.inl ⟨Nat.lt_succ_of_le ha, rfl⟩⟩
  | parseFailed =>
    rw [if_pos rfl, lift_bind]
    exact Emits.lift_seq fun _ => Emits.pure nofun

theorem wordPass_emits {a : Nat} {w : WordScan} (h : WordMoved s a w) :
    Emits (Access.ReadsWithin s) (wordPass s w) (fun r => r.Ends (WordMoved s a) (WordLeft s a)) := by
  have ha : a ≤ w.i := h.2.elim (fun h => Nat.le_of_lt h.1) (fun h => Nat.le_of_eq h.1.symm)
  refine Emits.seq (charAt_emits w.i) ?_
  intro c hc
  by_cases hc0 : c = 0
  · rw [if_pos hc0]
    exact Emits.pure fun _ => ⟨h, fun _ => ⟨c, hc, Or.inl hc0⟩⟩
  have hlt := CString.lt_length_of_at? hc hc0
  rw [if_neg hc0]
  by_cases hsep : w.quote = 0 ∧ (isspace c ∨ c = ch '|' ∨ c = ch '<' ∨ c = ch '>')
  · rw [if_pos hsep]
    exact Emits.pure fun _ => ⟨h, fun _ => ⟨c, hc, Or.inr hsep.2⟩⟩
  rw [if_neg hsep]
  by_cases hopen : w.quote = 0 ∧ (c = singleQuote ∨ c = doubleQuote)
  · rw [if_pos hopen]
    exact Emits.pure ⟨hlt, Or.inl ⟨Nat.lt_succ_of_le ha, rfl⟩⟩
  rw [if_neg hopen]
  by_cases hclose : w.quote ≠ 0 ∧ c = w.quote
  · -- a quote is open, so the loop has begun the word already
    rw [if_pos hclose]
    have hmoved := h.2.resolve_right fun h => hclose.1 h.2
    exact Emits.pure ⟨hlt, Or.inl ⟨Nat.lt_succ_of_lt hmoved.1, hmoved.2⟩⟩
  · rw [if_neg hclose]
    exact wordChar_emits hlt ha

/-- The first character of a word does not stop the word loop. -/
theorem not_stopsWord {i : Nat} {c : Byte} (hc : s.at? i = some c) (hc0 : c ≠ 0)
    (hspace : ¬ isspace c) (hop : ¬ (c = ch '|' ∨ c = ch '<' ∨ c = ch '>')) : ¬ StopsWord s i := by
  intro h
  obtain ⟨c', hc', hstop⟩ := h
  rw [hc] at hc'
  cases hc'
  rcases hstop with h0 | hs | hstop
  · exact hc0 h0
  · exact hspace hs
  · exact hop hstop

/-- **The word loop makes progress**: where a word starts, it ends inside a quote or
behind the first character, with a word begun. -/
theorem wordLoop_emits {i : Nat} (hle : i ≤ s.length) (hfirst : ¬ StopsWord s i) (fuel : Nat) :
    Emits (Access.ReadsWithin s) (loop (wordPass s) fuel ⟨i, Buffer.zero, 0, 0, false⟩)
      (fun out => out.1 = .parseSuccess → out.2.i ≤ s.length ∧
        (out.2.quote = 0 → i < out.2.i ∧ out.2.started = true)) := by
  refine Emits.mono (Emits.loop (WordMoved s i) (fun w hw => wordPass_emits hw) fuel
    ⟨hle, Or.inr ⟨rfl, rfl⟩⟩) ?_
  intro out hleft hr
  obtain ⟨⟨hle', hmoved⟩, hstop⟩ := hleft hr
  refine ⟨hle', fun hq => hmoved.resolve_right fun h => hfirst ?_⟩
  rw [← h.1]
  exact hstop hq

/-- A pass of the outer loop that does not end the scan has moved from `i` on. -/
abbrev ScanAdvances (s : CString) (i : Nat) (r : LoopStep TokenScan (ScanExit × TokenScan)) : Prop :=
  r.Ends (fun st => i < st.i ∧ st.i ≤ s.length) (fun _ => True)

theorem operatorPass_emits {i₀ i : Nat} (t : TokenList) (type : TokenType) (hi : i₀ ≤ i)
    (hlt : i < s.length) :
    Emits (Access.ReadsWithin s) (lift (operatorPass t i type)) (ScanAdvances s i₀) := by
  rw [operatorPass, lift_bind]
  apply Emits.lift_seq
  intro out
  obtain ⟨r, t'⟩ := out
  dsimp only
  cases r with
  | parseSuccess =>
    rw [if_neg nofun, lift_pure]
    exact Emits.pure ⟨Nat.lt_succ_of_le hi, hlt⟩
  | parseFailed =>
    rw [if_pos rfl, lift_pure]
    exact Emits.pure trivial

theorem wordToken_emits {i₀ start i : Nat} (t : TokenList) (v : Ptr Byte) (hlt : i₀ < i)
    (hle : i ≤ s.length) :
    Emits (Access.ReadsWithin s) (lift (wordToken t start i v)) (ScanAdvances s i₀) := by
  rw [wordToken, lift_bind]
  apply Emits.lift_seq
  intro v
  rw [lift_ite]
  by_cases hv : v.isNone
  · rw [if_pos hv, lift_bind]
    exact Emits.lift_seq fun _ => Emits.pure trivial
  rw [if_neg hv, lift_bind]
  apply Emits.lift_seq
  intro out
  obtain ⟨r, t'⟩ := out
  dsimp only
  cases r with
  | parseSuccess =>
    rw [if_neg nofun, lift_bind]
    exact Emits.lift_seq fun _ => Emits.pure ⟨hlt, hle⟩
  | parseFailed =>
    rw [if_pos rfl, lift_bind]
    exact Emits.lift_seq fun _ => Emits.pure trivial

/-- The log of a pass of the outer loop: its beginning, and reads of the line; it
ends the scan or advances. -/
theorem tokenizePass_wlp (e : Option ParseError) (st : TokenScan) :
    wlp (tokenizePass s e st) (fun r l => ∃ reads, l = .scanPass st.i :: reads ∧
      (∀ ev ∈ reads, ev.ReadsWithin s) ∧ ScanAdvances s st.i r) := by
  refine wlp_seq (P := fun _ l => l = [.scanPass st.i]) (wlp_log rfl) ?_
  intro _ l hl
  subst hl
  refine wlp_mono (P := fun r l => (∀ ev ∈ l, ev.ReadsWithin s) ∧ ScanAdvances s st.i r) ?_
    fun r l h => ⟨l, rfl, h⟩
  refine Emits.seq (charAt_emits st.i) ?_
  intro c₀ hc₀
  by_cases h0 : c₀ = 0
  · rw [if_pos h0]
    exact Emits.pure trivial
  rw [if_neg h0]
  refine Emits.seq (skipSpace_emits (CString.le_length_of_at? hc₀)) ?_
  intro i hskip
  obtain ⟨hge, -, hspace⟩ := hskip
  refine Emits.seq (charAt_emits i) ?_
  intro c hc
  by_cases hc0 : c = 0
  · rw [if_pos hc0]
    exact Emits.pure trivial
  have hlt := CString.lt_length_of_at? hc hc0
  rw [if_neg hc0]
  dsimp only
  by_cases hpipe : c = ch '|'
  · rw [if_pos hpipe]
    exact operatorPass_emits st.t .tokPipe hge hlt
  rw [if_neg hpipe]
  by_cases hin : c = ch '<'
  · rw [if_pos hin]
    exact operatorPass_emits st.t .tokIn hge hlt
  rw [if_neg hin]
  by_cases hout : c = ch '>'
  · rw [if_pos hout]
    exact operatorPass_emits st.t .tokOut hge hlt
  rw [if_neg hout]
  have hfirst := not_stopsWord hc hc0 (hspace c hc) (by tauto)
  refine Emits.seq (wordLoop_emits (Nat.le_of_lt hlt) hfirst _) ?_
  intro out hleft
  obtain ⟨r, w⟩ := out
  dsimp only
  cases r with
  | parseFailed => exact Emits.pure trivial
  | parseSuccess =>
  obtain ⟨hle, hword⟩ := hleft rfl
  rw [if_neg nofun]
  by_cases hq : w.quote = 0
  · obtain ⟨hmoved, hstarted⟩ := hword hq
    -- the word has begun, so it is no invalid token
    rw [if_neg (not_not_intro hq), if_neg (by rw [hstarted]; nofun)]
    exact wordToken_emits st.t w.b.v (Nat.lt_of_le_of_lt hge hmoved) hle
  · rw [if_pos hq]
    exact Emits.lift_seq fun _ => Emits.pure trivial

/-- The log of a scan so far: all in bounds, and no more passes than characters. -/
structure ScanInv (s : CString) (st : TokenScan) (l : List Access) : Prop where
  le : st.i ≤ s.length
  bounds : ∀ ev ∈ l, ev.InBounds s
  passes : l.countP Access.isScanPass ≤ st.i

theorem tokenize_wlp (t : TokenList) (e : Option ParseError) :
    wlp (tokenize s t e) (fun _ l =>
      (∀ ev ∈ l, ev.InBounds s) ∧ l.countP Access.isScanPass ≤ s.length + 1) := by
  refine wlp_seq (wlp_loop (ScanInv s) (Q := fun _ l =>
    (∀ ev ∈ l, ev.InBounds s) ∧ l.countP Access.isScanPass ≤ s.length + 1) ?_ _ _ []
    ⟨Nat.zero_le _, fun _ hev => (List.not_mem_nil hev).elim, Nat.zero_le _⟩) ?_
  · intro st l hinv
    refine wlp_mono (tokenizePass_wlp e st) ?_
    intro r l' h
    obtain ⟨reads, rfl, hreads, hr⟩ := h
    have hcount : reads.countP Access.isScanPass = 0 :=
      List.countP_eq_zero.mpr fun ev hev => by simp [(hreads ev hev).not_scanPass]
    have hpasses := hinv.passes
    have hle := hinv.le
    have hbounds : ∀ ev ∈ l ++ .scanPass st.i :: reads, ev.InBounds s :=
      List.forall_mem_append.mpr ⟨hinv.bounds, List.forall_mem_cons.mpr
        ⟨hle, fun ev hev => (hreads ev hev).inBounds⟩⟩
    have hcount' : (l ++ .scanPass st.i :: reads).countP Access.isScanPass
        = l.countP Access.isScanPass + 1 := by
      rw [List.countP_append, List.countP_cons, hcount]
      rfl
    cases r with
    | again st' => exact ⟨hr.2, hbounds, by have := hr.1; omega⟩
    | done out => exact ⟨hbounds, by omega⟩
  · intro out l h
    rw [List.nil_append] at h
    -- what follows the loop reads nothing
    refine wlp_mono (P := fun _ l' => l' = []) ?_ fun _ l' hl' => by rwa [hl', List.append_nil]
    obtain ⟨exit, st⟩ := out
    cases exit with
    | reported e' => exact wlp_pure rfl
    | outofmemory => exact wlp_pure rfl
    | loopEnd =>
      refine wlp_seq (P := fun _ l => l = []) (wlp_lift fun _ _ _ _ _ => rfl) ?_
      rintro ⟨r, t'⟩ _ rfl
      cases r with
      | parseSuccess => exact wlp_pure rfl
      | parseFailed => exact wlp_pure rfl

/-! ## The parser -/

theorem tokenAt_emits {t : TokenList} {i : Nat} (hi : i < t.n) :
    Emits (Access.InBounds s) (tokenAt t i) (fun tok => t.v.cells[i]? = some (some tok)) := by
  refine Emits.seq (P := fun _ => True) (Emits.log hi trivial) ?_
  intro _ _
  refine Emits.lift fun σ m tok m' hrun => ?_
  obtain ⟨cell, hcell, htok⟩ := Option.bind_eq_some_iff.mp (Prog.eq_some_of_ofOption hrun)
  rw [hcell]
  exact congrArg some htok

/-- The token at which the inner loop ends. -/
def EndsItems (t : TokenList) (i : Nat) : Prop :=
  ∃ tok, t.v.cells[i]? = some (some tok) ∧ (tok.type = .tokPipe ∨ tok.type = .tokEnd)

/-- A pass of the inner loop at `i`: it advances to another token, or leaves through
`fail`, or finds the loop's condition false. -/
abbrev ItemAdvances (t : TokenList) (st : CommandScan)
    (r : LoopStep CommandScan (ParseStatus × CommandScan)) : Prop :=
  r.Ends (fun st' => st.i < st'.i ∧ st'.i < t.n)
    (fun out => out.1 = .parseFailed ∨ (out = (.parseSuccess, st) ∧ EndsItems t st.i))

section Parser
variable {t : TokenList}

theorem wordItem_emits (ht : t.Terminated) {st : CommandScan} {tok : Token}
    (hi : st.i < t.n) (htok : t.v.cells[st.i]? = some (some tok)) (hword : tok.type = .tokWord) :
    Emits (Access.InBounds s) (wordItem st tok) (ItemAdvances t st) := by
  refine Emits.seq (P := fun _ => True)
    (Emits.log ((ht.text_iff hi htok).mpr hword) trivial) ?_
  intro _ _
  rw [SystemsCourse.wordItem, lift_bind]
  apply Emits.lift_seq
  intro out
  obtain ⟨r, c, acap⟩ := out
  dsimp only
  cases r with
  | parseSuccess =>
    rw [if_neg nofun, lift_pure]
    exact Emits.pure ⟨Nat.lt_succ_self _, ht.next_lt hi htok (by rw [hword]; nofun)⟩
  | parseFailed =>
    rw [if_pos rfl, lift_bind]
    exact Emits.lift_seq fun _ => Emits.pure (Or.inl rfl)

theorem redirectionItem_emits (ht : t.Terminated) {st : CommandScan} {tok : Token}
    (hi : st.i < t.n) (htok : t.v.cells[st.i]? = some (some tok)) (hend : tok.type ≠ .tokEnd) :
    Emits (Access.InBounds s) (redirectionItem t st tok) (ItemAdvances t st) := by
  have hnext := ht.next_lt hi htok hend
  refine Emits.seq (tokenAt_emits hnext) ?_
  intro target htarget
  by_cases hword : target.type ≠ .tokWord
  · rw [if_pos hword]
    exact Emits.lift_seq fun _ => Emits.pure (Or.inl rfl)
  rw [if_neg hword]
  rw [not_not] at hword
  refine Emits.seq (P := fun _ => True)
    (Emits.log ((ht.text_iff hnext htarget).mpr hword) trivial) ?_
  intro _ _
  apply Emits.lift_seq
  intro out
  obtain ⟨r, redirect, e⟩ := out
  dsimp only
  cases r with
  | parseSuccess =>
    rw [if_neg nofun]
    have hnext' := ht.next_lt hnext htarget (by rw [hword]; nofun)
    exact Emits.pure ⟨by show st.i < st.i + 1 + 1; omega, hnext'⟩
  | parseFailed =>
    rw [if_pos rfl]
    exact Emits.lift_seq fun _ => Emits.pure (Or.inl rfl)

theorem itemPass_emits (ht : t.Terminated) {st : CommandScan} (hi : st.i < t.n) :
    Emits (Access.InBounds s) (itemPass t st) (ItemAdvances t st) := by
  refine Emits.seq (tokenAt_emits hi) ?_
  intro tok htok
  by_cases hstop : tok.type = .tokPipe ∨ tok.type = .tokEnd
  · rw [if_pos hstop]
    exact Emits.pure (Or.inr ⟨rfl, tok, htok, hstop⟩)
  rw [if_neg hstop]
  by_cases hword : tok.type = .tokWord
  · rw [if_pos hword]
    exact wordItem_emits ht hi htok hword
  · rw [if_neg hword]
    exact redirectionItem_emits ht hi htok fun h => hstop (Or.inr h)

/-- How the inner loop that began at `i` ends. -/
def ItemsRead (t : TokenList) (i : Nat) (out : ParseStatus × CommandScan) : Prop :=
  out.1 = .parseFailed ∨ (i ≤ out.2.i ∧ out.2.i < t.n ∧ EndsItems t out.2.i)

theorem items_emit (ht : t.Terminated) (st : CommandScan) (hi : st.i < t.n) (fuel : Nat) :
    Emits (Access.InBounds s) (loop (itemPass t) fuel st) (ItemsRead t st.i) := by
  refine Emits.loop (fun cs => st.i ≤ cs.i ∧ cs.i < t.n) ?_ fuel ⟨Nat.le_refl _, hi⟩
  intro cs hcs
  refine Emits.mono (itemPass_emits ht hcs.2) ?_
  intro r hr
  cases r with
  | again cs' => exact ⟨Nat.le_trans hcs.1 (Nat.le_of_lt hr.1), hr.2⟩
  | done out =>
    rcases hr with hfail | ⟨rfl, hend⟩
    · exact Or.inl hfail
    · exact Or.inr ⟨hcs.1, hcs.2, hend⟩

/-- A pass of the outer loop at `i`: it advances to another token, or leaves through
`fail`, or finds the loop's condition false. -/
abbrev CommandAdvances (t : TokenList) (st : ParseScan)
    (r : LoopStep ParseScan (ParseStatus × ParseScan)) : Prop :=
  r.Ends (fun st' => st.i < st'.i ∧ st'.i < t.n)
    (fun out => out.1 = .parseFailed ∨ (out = (.parseSuccess, st) ∧
      ∃ tok, t.v.cells[st.i]? = some (some tok) ∧ tok.type = .tokEnd))

theorem commandEnd_emits (ht : t.Terminated) (st : ParseScan) {cs : CommandScan}
    (hge : st.i < cs.i) (hi : cs.i < t.n) :
    Emits (Access.InBounds s) (commandEnd t st cs) (CommandAdvances t st) := by
  refine Emits.seq (tokenAt_emits hi) ?_
  intro tok htok
  by_cases hargc : cs.c.argc = 0
  · rw [if_pos hargc]
    exact Emits.lift_seq fun _ => Emits.pure (Or.inl rfl)
  rw [if_neg hargc]
  apply Emits.lift_seq
  intro out
  obtain ⟨r, p, pcap, c⟩ := out
  dsimp only
  cases r with
  | parseFailed =>
    rw [if_pos rfl]
    exact Emits.lift_seq fun _ => Emits.pure (Or.inl rfl)
  | parseSuccess =>
  rw [if_neg nofun]
  by_cases hpipe : tok.type ≠ .tokPipe
  · rw [if_pos hpipe]
    exact Emits.pure ⟨hge, hi⟩
  -- behind a pipe there is another token
  rw [if_neg hpipe]
  rw [not_not] at hpipe
  have hnext := ht.next_lt hi htok (by rw [hpipe]; nofun)
  refine Emits.seq (tokenAt_emits hnext) ?_
  intro next _
  by_cases hlast : next.type = .tokEnd
  · rw [if_pos hlast]
    exact Emits.pure (Or.inl rfl)
  · rw [if_neg hlast]
    exact Emits.pure ⟨Nat.lt_succ_of_lt hge, hnext⟩

theorem commandPass_emits (ht : t.Terminated) {st : ParseScan} (hi : st.i < t.n) :
    Emits (Access.InBounds s) (commandPass t st) (CommandAdvances t st) := by
  refine Emits.seq (tokenAt_emits hi) ?_
  intro tok htok
  by_cases hend : tok.type = .tokEnd
  · rw [if_pos hend]
    exact Emits.pure (Or.inr ⟨rfl, tok, htok, hend⟩)
  rw [if_neg hend]
  by_cases hpipe : tok.type = .tokPipe
  · rw [if_pos hpipe]
    exact Emits.lift_seq fun _ => Emits.pure (Or.inl rfl)
  rw [if_neg hpipe]
  refine Emits.seq (items_emit ht ⟨st.i, Command.zero, 0, st.e⟩ hi _) ?_
  intro out hitems
  obtain ⟨r, cs⟩ := out
  dsimp only
  cases r with
  | parseFailed =>
    rw [if_pos rfl]
    exact Emits.pure (Or.inl rfl)
  | parseSuccess =>
    rw [if_neg nofun]
    obtain ⟨hge, hi', tok', htok', hstop⟩ := hitems.resolve_left nofun
    -- the inner loop does not end at the token it began with
    refine commandEnd_emits ht st (Nat.lt_of_le_of_ne hge fun he => ?_) hi'
    change st.i = cs.i at he
    dsimp only at htok'
    rw [← he, htok] at htok'
    cases htok'
    exact hstop.elim hpipe hend

theorem tokenize_emits (e : Option ParseError) :
    Emits (Access.InBounds s) (tokenize s TokenList.zero e)
      (fun r => r.1 = .parseSuccess → r.2.1.Terminated) := by
  have hlog : Emits (Access.InBounds s) (tokenize s TokenList.zero e) (fun _ => True) :=
    wlp_mono (tokenize_wlp TokenList.zero e) fun _ _ h => ⟨h.1, trivial⟩
  refine Emits.mono (hlog.and_of_wp (Q := fun r => r.1 = .parseSuccess → r.2.1.Terminated)
    fun σ m => ?_) fun _ h => h.2
  rw [erase_tokenize]
  exact tokenize_terminated s e σ m

theorem pipelineParse_emits (p : Pipeline) (e : Option ParseError) :
    Emits (Access.InBounds s) (pipelineParse (some s) (some p) e) (fun _ => True) := by
  refine Emits.seq (tokenize_emits _) ?_
  intro out ht
  obtain ⟨r, t, e⟩ := out
  dsimp only
  cases r with
  | parseFailed =>
    rw [if_pos rfl]
    exact Emits.lift_seq fun _ => Emits.pure trivial
  | parseSuccess =>
  rw [if_neg nofun]
  replace ht : t.Terminated := ht rfl
  refine Emits.seq (P := fun _ => True) (Emits.loop (fun st => st.i < t.n) ?_ _ ht.pos) ?_
  · intro st hi
    refine Emits.mono (commandPass_emits ht hi) ?_
    intro r hr
    cases r with
    | again st' => exact hr.2
    | done out => trivial
  · intro out _
    obtain ⟨r, st⟩ := out
    apply Emits.lift_seq
    intro _
    dsimp only
    cases r with
    | parseFailed =>
      rw [if_pos rfl]
      exact Emits.lift_seq fun _ => Emits.pure trivial
    | parseSuccess => exact Emits.pure trivial

end Parser

/-- A pass that advances or ends the scan does so in the plain code. -/
theorem scanPass_of_run {e : Option ParseError} {st : TokenScan} {σ : Script} {m m' : Memory}
    {r : LoopStep TokenScan (ScanExit × TokenScan)}
    (hrun : SystemsCourse.tokenizePass s e st σ m = some (r, m')) : ScanAdvances s st.i r := by
  rw [← erase_tokenizePass] at hrun
  obtain ⟨_, _, _, _, hr⟩ := (tokenizePass_wlp e st).of_run hrun
  exact hr

theorem itemPass_of_run {t : TokenList} (ht : t.Terminated) {st : CommandScan} (hi : st.i < t.n)
    {σ : Script} {m m' : Memory} {r : LoopStep CommandScan (ParseStatus × CommandScan)}
    (hrun : SystemsCourse.itemPass t st σ m = some (r, m')) : ItemAdvances t st r := by
  rw [← erase_itemPass] at hrun
  obtain ⟨_, _, hr⟩ := (itemPass_emits (s := CString.empty) ht hi).of_run hrun
  exact hr

theorem commandPass_of_run {t : TokenList} (ht : t.Terminated) {st : ParseScan} (hi : st.i < t.n)
    {σ : Script} {m m' : Memory} {r : LoopStep ParseScan (ParseStatus × ParseScan)}
    (hrun : SystemsCourse.commandPass t st σ m = some (r, m')) : CommandAdvances t st r := by
  rw [← erase_commandPass] at hrun
  obtain ⟨_, _, hr⟩ := (commandPass_emits (s := CString.empty) ht hi).of_run hrun
  exact hr

end Traced

/-! ## The whole run -/

/-- Scanning and parsing `line` stay in bounds and end, whichever requests `σ`
refuses. -/
structure StaysInBounds (line : CString) (e : Option ParseError) (σ : Script) (m : Memory) :
    Prop where
  /-- `tokenize` returns.  It reads the line at indices up to its length only, it
  begins no more passes than there are characters and the terminator, it never meets
  an invalid token, and the list it returns on success is terminated. -/
  scan : ∃ out log m',
    (Traced.tokenize line TokenList.zero e).run σ m = some ((out, log), m') ∧
    tokenize line TokenList.zero e σ m = some (out, m') ∧
    (∀ i, .readChar i ∈ log → i ≤ line.length) ∧
    log.countP Access.isScanPass ≤ line.length + 1 ∧
    .invalidToken ∉ log ∧
    (out.1 = .parseSuccess → out.2.1.Terminated)
  /-- A pass of the outer loop of `tokenize` ends the scan or advances. -/
  scanPass : ∀ st m₁ r m₂, tokenizePass line e st σ m₁ = some (r, m₂) →
    r.Ends (fun st' => st.i < st'.i) (fun _ => True)
  /-- `pipeline_parse` returns.  It reads the token list at indices below its count
  only, and hands on no null pointer as the text of a word or of a target. -/
  parse : ∀ p, ∃ out log m',
    (Traced.pipelineParse (some line) (some p) e).run σ m = some ((out, log), m') ∧
    pipelineParse (some line) (some p) e σ m = some (out, m') ∧
    (∀ n i, .readToken n i ∈ log → i < n) ∧
    (∀ text, .passText text ∈ log → text ≠ none)
  /-- A pass of the inner loop advances, to a token of the list, or leaves through
  `fail`; a pass that does neither is the one that finds the condition false. -/
  itemPass : ∀ t : TokenList, t.Terminated → ∀ st : CommandScan, st.i < t.n → ∀ m₁ r m₂,
    itemPass t st σ m₁ = some (r, m₂) →
    r.Ends (fun st' => st.i < st'.i ∧ st'.i < t.n) (fun out => out.1 = .parseFailed ∨
      (out = (.parseSuccess, st) ∧ ∃ tok, t.v.cells[st.i]? = some (some tok) ∧
        (tok.type = .tokPipe ∨ tok.type = .tokEnd)))
  /-- So does a pass of the outer loop. -/
  commandPass : ∀ t : TokenList, t.Terminated → ∀ st : ParseScan, st.i < t.n → ∀ m₁ r m₂,
    commandPass t st σ m₁ = some (r, m₂) →
    r.Ends (fun st' => st.i < st'.i ∧ st'.i < t.n) (fun out => out.1 = .parseFailed ∨
      (out = (.parseSuccess, st) ∧ ∃ tok, t.v.cells[st.i]? = some (some tok) ∧
        tok.type = .tokEnd))

/-- **Scanning and parsing stay in bounds and end on every line.** -/
theorem parser_staysInBounds (line : CString) (e : Option ParseError) (σ : Script) (m : Memory) :
    StaysInBounds line e σ m where
  scan := by
    obtain ⟨out, log, m', htraced, hrun, hlog, hterminated⟩ :=
      (Traced.tokenize_wlp TokenList.zero e).exists_run
        (Traced.erase_tokenize line TokenList.zero e) (tokenize_terminated line e σ m)
    refine ⟨out, log, m', htraced, hrun, fun i hi => ?_, hlog.2, fun hinvalid => ?_, hterminated⟩
    · exact hlog.1 _ hi
    · exact hlog.1 _ hinvalid
  scanPass st m₁ r m₂ hrun := by
    have hr := Traced.scanPass_of_run hrun
    cases r with
    | again st' => exact hr.1
    | done out => trivial
  parse p := by
    obtain ⟨out, log, m', htraced, hrun, hlog, -⟩ :=
      (Traced.pipelineParse_emits p e).exists_run (Traced.erase_pipelineParse (some line) (some p) e)
        (pipelineParse_spec (σ := σ) (m := m) line p e rfl)
    exact ⟨out, log, m', htraced, hrun, fun n i hi => hlog.1 _ hi, fun text ht => hlog.1 _ ht⟩
  itemPass t ht st hi m₁ r m₂ hrun := Traced.itemPass_of_run ht hi hrun
  commandPass t ht st hi m₁ r m₂ hrun := Traced.commandPass_of_run ht hi hrun

end SystemsCourse
