import SystemsCourse.ErrorPositions
import SystemsCourse.ParserBounds
import SystemsCourse.RefusedRequests

/-!
# The parser when memory runs out

Every function of the parser stops at the first request that is refused it, and
`pipeline_parse` then reports `out of memory`.  With `K` requests in the run in which
all are granted, there are therefore `K + 1` runs, and `K` is at most seven times the
length of the line, and one.

The count is kept against the cursor.  A word of the lexer takes a request for each of
its characters at most, one for its text, and two for its token; the parser takes two
for an argument, one for a redirection, which has two tokens, and one for a command,
which has an argument.
-/
namespace SystemsCourse
open Prog StopsAtRefusal

variable {α : Type} {e : Option ParseError}

/-! ## The arrays -/

theorem quiet_doubling (need fuel c : Nat) :
    Quiet (loop (doublePass need) fuel c) (fun _ => True) := by
  refine quiet_loop (fun _ => True) (fun c _ => ?_) fuel trivial
  rw [doublePass]
  split_ifs
  · exact pure ⟨rfl, trivial⟩
  · exact pure ⟨rfl, trivial⟩

theorem arrayGrow_stops (p : Ptr α) (cap need : Nat) :
    StopsAtRefusal (arrayGrow p cap need) (fun r k => r.1 = .parseSuccess ∧ k ≤ 1)
      (fun r => r.1 = .parseFailed) := by
  unfold arrayGrow
  by_cases hneed : cap ≥ need
  · rw [if_pos hneed]
    exact pure ⟨rfl, Nat.zero_le 1⟩
  rw [if_neg hneed]
  refine quiet_seq (quiet_doubling need _ _) ?_
  intro c _
  refine seq (realloc_stops p c) ?_ ?_
  · rintro q k ⟨hq, rfl⟩
    obtain ⟨b, rfl⟩ := Option.isSome_iff_exists.mp hq
    exact pure ⟨rfl, Nat.le_refl 1⟩
  · rintro _ rfl
    exact pure ⟨rfl, rfl⟩

theorem bufferAddchar_stops (b : Buffer) (c : Byte) :
    StopsAtRefusal (bufferAddchar b c) (fun r k => r.1 = .parseSuccess ∧ k ≤ 1)
      (fun r => r.1 = .parseFailed) := by
  refine seq (arrayGrow_stops b.v b.cap (b.n + 2)) ?_ ?_
  · rintro ⟨_, v, cap⟩ k ⟨rfl, hk⟩
    exact quiet_seq (quiet_storeTerminated v b.n c 0) fun _ _ => pure ⟨rfl, hk⟩
  · rintro ⟨_, v, cap⟩ rfl
    exact pure ⟨rfl, rfl⟩

theorem copyText_stops (text : Ptr Byte) :
    StopsAtRefusal (copyText text)
      (fun p k => ¬ (text.isSome ∧ p.isNone) ∧ k ≤ 1 ∧ (text = none → k = 0))
      (fun p => text.isSome ∧ p.isNone) := by
  cases text with
  | none => exact pure ⟨fun h => Bool.noConfusion h.1, Nat.zero_le 1, fun _ => rfl⟩
  | some b =>
    refine quiet_seq (quiet_ofOption _) fun s _ => ?_
    refine (strdup_stops s).mono ?_ ?_
    · rintro p k ⟨hp, rfl⟩
      obtain ⟨c, rfl⟩ := Option.isSome_iff_exists.mp hp
      exact ⟨fun h => Bool.noConfusion h.2, Nat.le_refl 1, fun h => nomatch h⟩
    · rintro _ rfl
      exact ⟨rfl, rfl⟩

theorem tokenlistAddtoken_stops (t : TokenList) (type : TokenType) (text : Ptr Byte) (pos : Nat) :
    StopsAtRefusal (tokenlistAddtoken t type text pos)
      (fun r k => r.1 = .parseSuccess ∧ r.2.n = t.n + 1 ∧ k ≤ 2 ∧ (text = none → k ≤ 1))
      (fun r => r.1 = .parseFailed) := by
  refine seq (arrayGrow_stops t.v t.cap (t.n + 1)) ?_ ?_
  · rintro ⟨_, v, cap⟩ k ⟨rfl, hk⟩
    refine seq (copyText_stops text) ?_ ?_
    · rintro copy l ⟨hcopy, hl, hnone⟩
      refine quiet_seq (quiet_store v t.n _) fun _ _ => pure ⟨if_neg hcopy, rfl, by omega, ?_⟩
      intro htext
      rw [hnone htext]
      exact hk
    · intro copy hcopy
      exact quiet_seq (quiet_store v t.n _) fun _ _ => pure ⟨rfl, if_pos hcopy⟩
  · rintro ⟨_, v, cap⟩ rfl
    exact pure ⟨rfl, rfl⟩

theorem commandAddArg_stops (c : Command) (cap : Nat) (s : Ptr Byte) :
    StopsAtRefusal (commandAddArg c cap s)
      (fun r k => r.1 = .parseSuccess ∧ r.2.1.argc = c.argc + 1 ∧ k ≤ 2)
      (fun r => r.1 = .parseFailed) := by
  refine seq (arrayGrow_stops c.argv cap (c.argc + 2)) ?_ ?_
  · rintro ⟨_, argv, cap⟩ k ⟨rfl, hk⟩
    refine quiet_seq (quiet_ofOption _) fun w _ => ?_
    refine seq (strdup_stops w) ?_ ?_
    · rintro copy l ⟨hcopy, rfl⟩
      obtain ⟨b, rfl⟩ := Option.isSome_iff_exists.mp hcopy
      exact quiet_seq (quiet_storeTerminated argv c.argc _ none) fun _ _ =>
        pure ⟨rfl, rfl, by omega⟩
    · rintro _ rfl
      exact pure ⟨rfl, rfl⟩
  · rintro ⟨_, argv, cap⟩ rfl
    exact pure ⟨rfl, rfl⟩

theorem commandAdd_stops (p : Pipeline) (cap : Nat) (c : Command) :
    StopsAtRefusal (commandAdd p cap c) (fun r k => r.1 = .parseSuccess ∧ k ≤ 1)
      (fun r => r.1 = .parseFailed) := by
  refine seq (arrayGrow_stops p.commands cap (p.commandCount + 1)) ?_ ?_
  · rintro ⟨_, commands, cap⟩ k ⟨rfl, hk⟩
    exact quiet_seq (quiet_store commands p.commandCount c) fun _ _ => pure ⟨rfl, hk⟩
  · rintro ⟨_, commands, cap⟩ rfl
    exact pure ⟨rfl, rfl⟩

/-! ## Releasing -/

theorem quiet_tokenlistFree (t : TokenList) : Quiet (tokenlistFree t) (fun _ => True) := by
  refine quiet_seq (quiet_forUpTo (fun i => ?_) t.n) fun _ _ => ?_
  · exact quiet_seq (quiet_ofOption _) fun x _ => quiet_free x.text
  · exact quiet_seq (quiet_free t.v) fun _ _ => pure ⟨rfl, trivial⟩

theorem quiet_redirectFree (r : Redirect) : Quiet (redirectFree r) (fun _ => True) :=
  quiet_seq (quiet_free r.path) fun _ _ => quiet_seq (quiet_free r.host) fun _ _ =>
    pure ⟨rfl, trivial⟩

theorem quiet_commandFree (c : Command) : Quiet (commandFree c) (fun _ => True) := by
  refine quiet_seq (quiet_forUpTo (fun i => ?_) c.argc) fun _ _ => ?_
  · exact quiet_seq (quiet_ofOption _) fun arg _ => quiet_free arg
  · exact quiet_seq (quiet_free c.argv) fun _ _ => quiet_seq (quiet_redirectFree c.input) fun _ _ =>
      quiet_seq (quiet_redirectFree c.output) fun _ _ => pure ⟨rfl, trivial⟩

theorem quiet_pipelineFree (p : Pipeline) :
    Quiet (pipelineFree (some p)) (fun q => ∃ q', q = some q') := by
  refine quiet_seq (quiet_forUpTo (fun i => ?_) p.commandCount) fun _ _ => ?_
  · exact quiet_seq (quiet_ofOption _) fun c _ => quiet_seq (quiet_commandFree c) fun _ _ =>
      pure ⟨rfl, trivial⟩
  · exact quiet_seq (quiet_free p.commands) fun _ _ => pure ⟨rfl, _, rfl⟩

/-! ## The lexer -/

/-- What `parseerror_set_error` stores when memory runs out. -/
def ReportsNoMemory (e e' : Option ParseError) : Prop :=
  ∃ pos, e' = parseerrorSetError e pos "out of memory"

section Lexer
variable {s : CString}

theorem quiet_charAt (i : Nat) :
    Quiet (charAt s i) (fun c => s.at? i = some c ∧ i ≤ s.length ∧ (c ≠ 0 → i < s.length)) := by
  refine (quiet_ofOption _).mono ?_ fun _ hfalse => hfalse
  rintro c k ⟨rfl, hc⟩
  exact ⟨rfl, hc, CString.le_length_of_at? hc, CString.lt_length_of_at? hc⟩

theorem quiet_skipSpace {i : Nat} (fuel : Nat) (hi : i ≤ s.length) :
    Quiet (loop (spacePass s) fuel i) (fun j => i ≤ j ∧ j ≤ s.length) := by
  refine quiet_loop (fun j => i ≤ j ∧ j ≤ s.length) ?_ fuel ⟨Nat.le_refl i, hi⟩
  intro j hj
  refine quiet_seq (quiet_charAt j) ?_
  rintro c ⟨-, -, hlt⟩
  by_cases hspace : isspace c
  · rw [if_pos hspace]
    exact pure ⟨rfl, Nat.le_succ_of_le hj.1, hlt (Traced.ne_zero_of_isspace hspace)⟩
  · rw [if_neg hspace]
    exact pure ⟨rfl, hj⟩

/-- The word loop that began at `a`, with `k` requests before it, has made a request
for each character at most. -/
structure WordCost (s : CString) (a k₀ : Nat) (w : WordScan) (k : Nat) : Prop where
  le : w.i ≤ s.length
  moved : a ≤ w.i
  started : w.started = true → a < w.i
  cost : k + a ≤ k₀ + w.i

theorem wordPass_stops {a k₀ k : Nat} {w : WordScan} (h : WordCost s a k₀ w k) :
    StopsAtRefusal (wordPass s w)
      (fun r l => r.Ends (fun w' => WordCost s a k₀ w' (k + l))
        (fun b => b.1 = .parseSuccess ∧ WordCost s a k₀ b.2 (k + l)))
      (fun r => r.Ends (fun _ => False) (fun b => b.1 = .parseFailed)) := by
  obtain ⟨hle, hmoved, hstarted, hcost⟩ := h
  refine quiet_seq (quiet_charAt w.i) ?_
  rintro c ⟨-, -, hlt⟩
  by_cases hc0 : c = 0
  · rw [if_pos hc0]
    exact pure ⟨rfl, hle, hmoved, hstarted, hcost⟩
  replace hlt := hlt hc0
  rw [if_neg hc0]
  by_cases hsep : w.quote = 0 ∧ (isspace c ∨ c = ch '|' ∨ c = ch '<' ∨ c = ch '>')
  · rw [if_pos hsep]
    exact pure ⟨rfl, hle, hmoved, hstarted, hcost⟩
  rw [if_neg hsep]
  by_cases hopen : w.quote = 0 ∧ (c = singleQuote ∨ c = doubleQuote)
  · rw [if_pos hopen]
    exact pure ⟨hlt, Nat.le_succ_of_le hmoved, fun _ => Nat.lt_succ_of_le hmoved,
      Nat.le_succ_of_le hcost⟩
  rw [if_neg hopen]
  by_cases hclose : w.quote ≠ 0 ∧ c = w.quote
  · rw [if_pos hclose]
    exact pure ⟨hlt, Nat.le_succ_of_le hmoved, fun _ => Nat.lt_succ_of_le hmoved,
      Nat.le_succ_of_le hcost⟩
  rw [if_neg hclose]
  refine seq (bufferAddchar_stops w.b c) ?_ ?_
  · rintro ⟨_, b⟩ l ⟨rfl, hl⟩
    refine pure ⟨hlt, Nat.le_succ_of_le hmoved, fun _ => Nat.lt_succ_of_le hmoved, ?_⟩
    show k + (l + 0) + a ≤ k₀ + (w.i + 1)
    omega
  · rintro ⟨_, b⟩ rfl
    exact quiet_seq (quiet_free b.v) fun _ _ => pure ⟨rfl, rfl⟩

theorem wordLoop_stops {i : Nat} (k : Nat) (hi : i ≤ s.length) :
    StopsAtRefusal (loop (wordPass s) (s.length + 1) ⟨i, Buffer.zero, 0, 0, false⟩)
      (fun b l => b.1 = .parseSuccess ∧ WordCost s i k b.2 (k + l)) (fun b => b.1 = .parseFailed) :=
  StopsAtRefusal.loop (WordCost s i k)
    (Q := fun (b : ParseStatus × WordScan) n => b.1 = .parseSuccess ∧ WordCost s i k b.2 n)
    (R := fun b => b.1 = .parseFailed) (fun _ _ hw => wordPass_stops hw) _ _ k
    ⟨hi, Nat.le_refl i, fun h => Bool.noConfusion h, Nat.le_refl _⟩

/-- The lexer has made four requests for each character at most, and added a token for
each at most. -/
structure ScanCost (s : CString) (st : TokenScan) (k : Nat) : Prop where
  le : st.i ≤ s.length
  count : st.t.n ≤ st.i
  cost : k ≤ 4 * st.i

/-- What a pass of the outer loop does, after `k` requests. -/
abbrev ScanPassStops (s : CString) (k : Nat) (x : Prog (LoopStep TokenScan (ScanExit × TokenScan))) :
    Prop :=
  StopsAtRefusal x
    (fun r l => r.Ends (fun st => ScanCost s st (k + l))
      (fun b => b.1 ≠ .outofmemory ∧ ScanCost s b.2 (k + l)))
    (fun r => r.Ends (fun _ => False) (fun b => b.1 = .outofmemory))

theorem operatorPass_stops {t : TokenList} {i k : Nat} (type : TokenType) (hi : i < s.length)
    (ht : t.n ≤ i) (hk : k ≤ 4 * i) : ScanPassStops s k (operatorPass t i type) := by
  refine seq (tokenlistAddtoken_stops t type none i) ?_ ?_
  · rintro ⟨_, t'⟩ l ⟨rfl, hn, -, hl⟩
    refine pure ⟨hi, ?_, ?_⟩
    · show t'.n ≤ i + 1
      have : t'.n = t.n + 1 := hn
      omega
    · have := hl rfl
      show k + (l + 0) ≤ 4 * (i + 1)
      omega
  · rintro ⟨_, t'⟩ rfl
    exact pure ⟨rfl, rfl⟩

theorem wordBuffer_stops (v : Ptr Byte) :
    StopsAtRefusal (wordBuffer v) (fun p k => p.isSome ∧ k ≤ 1) (fun p => p = none) := by
  cases v with
  | some b => exact pure ⟨rfl, Nat.zero_le 1⟩
  | none =>
    refine (strdup_stops CString.empty).mono ?_ fun _ h => h
    rintro p k ⟨hp, rfl⟩
    exact ⟨hp, Nat.le_refl 1⟩

theorem wordToken_stops {t : TokenList} {a i k : Nat} (v : Ptr Byte) (hlt : a < i) (hi : i ≤ s.length)
    (ht : t.n ≤ a) (hk : k + a ≤ 4 * a + i) : ScanPassStops s k (wordToken t a i v) := by
  refine seq (wordBuffer_stops v) ?_ ?_
  · rintro p l ⟨hp, hl⟩
    obtain ⟨b, rfl⟩ := Option.isSome_iff_exists.mp hp
    dsimp only
    rw [if_neg (fun h => Bool.noConfusion h)]
    refine seq (tokenlistAddtoken_stops t .tokWord (some b) a) ?_ ?_
    · rintro ⟨_, t'⟩ n ⟨rfl, hn, hn2, -⟩
      refine quiet_seq (quiet_free _) fun _ _ => pure ⟨hi, ?_, ?_⟩
      · show t'.n ≤ i
        have : t'.n = t.n + 1 := hn
        omega
      · show k + (l + (n + 0)) ≤ 4 * i
        omega
    · rintro ⟨_, t'⟩ rfl
      exact quiet_seq (quiet_free _) fun _ _ => pure ⟨rfl, rfl⟩
  · rintro _ rfl
    exact pure ⟨rfl, rfl⟩

theorem tokenizePass_stops {st : TokenScan} {k : Nat} (h : ScanCost s st k) :
    ScanPassStops s k (tokenizePass s e st) := by
  obtain ⟨hle, hcount, hcost⟩ := h
  refine quiet_seq (quiet_charAt st.i) fun c _ => ?_
  by_cases hc0 : c = 0
  · rw [if_pos hc0]
    exact pure ⟨nofun, hle, hcount, hcost⟩
  rw [if_neg hc0]
  refine quiet_seq (quiet_skipSpace (s.length + 1) hle) ?_
  rintro i ⟨hi, hile⟩
  refine quiet_seq (quiet_charAt i) ?_
  rintro c ⟨-, -, hlt⟩
  by_cases hc0 : c = 0
  · rw [if_pos hc0]
    exact pure ⟨nofun, hile, Nat.le_trans hcount hi, by show k + 0 ≤ 4 * i; omega⟩
  replace hlt := hlt hc0
  have ht : st.t.n ≤ i := Nat.le_trans hcount hi
  have hk : k ≤ 4 * i := by omega
  rw [if_neg hc0]
  by_cases hpipe : c = ch '|'
  · rw [if_pos hpipe]
    exact operatorPass_stops .tokPipe hlt ht hk
  by_cases hin : c = ch '<'
  · rw [if_neg hpipe, if_pos hin]
    exact operatorPass_stops .tokIn hlt ht hk
  by_cases hout : c = ch '>'
  · rw [if_neg hpipe, if_neg hin, if_pos hout]
    exact operatorPass_stops .tokOut hlt ht hk
  rw [if_neg hpipe, if_neg hin, if_neg hout]
  refine seq (wordLoop_stops k hile) ?_ ?_
  · rintro ⟨_, w⟩ l ⟨rfl, hwle, hmoved, hstarted, hwcost⟩
    dsimp only at hwle hmoved hstarted hwcost ⊢
    have hdone : ScanCost s ⟨w.i, st.t⟩ (k + l) :=
      ⟨hwle, Nat.le_trans ht hmoved, by show k + l ≤ 4 * w.i; omega⟩
    rw [if_neg nofun]
    by_cases hquote : w.quote ≠ 0
    · rw [if_pos hquote]
      exact quiet_seq (quiet_free w.b.v) fun _ _ => pure ⟨nofun, hdone⟩
    rw [if_neg hquote]
    by_cases hstart : w.started = false
    · rw [if_pos hstart]
      exact quiet_seq (quiet_free w.b.v) fun _ _ => pure ⟨nofun, hdone⟩
    rw [if_neg hstart]
    refine (wordToken_stops (k := k + l) w.b.v (hstarted (by simpa using hstart)) hwle ht
      (by omega)).mono ?_ fun _ h => h
    intro r n hr
    rw [← Nat.add_assoc]
    exact hr
  · rintro ⟨_, w⟩ rfl
    exact pure ⟨rfl, rfl⟩

theorem tokenize_stops (s : CString) (e : Option ParseError) :
    StopsAtRefusal (tokenize s TokenList.zero e)
      (fun r k => k ≤ 4 * s.length + 1 ∧
        (r.1 = .parseSuccess → r.2.1.n ≤ s.length + 1 ∧ r.2.2 = e))
      (fun r => r.1 = .parseFailed ∧ ReportsNoMemory e r.2.2) := by
  refine seq (StopsAtRefusal.loop (ScanCost s)
    (Q := fun (b : ScanExit × TokenScan) k => b.1 ≠ .outofmemory ∧ ScanCost s b.2 k)
    (R := fun b => b.1 = .outofmemory) (fun _ _ h => tokenizePass_stops h)
    (s.length + 1) ⟨0, TokenList.zero⟩ 0 ⟨Nat.zero_le _, Nat.le_refl 0, Nat.le_refl 0⟩) ?_ ?_
  · rintro ⟨exit, st⟩ k ⟨hexit, hle, hcount, hcost⟩
    dsimp only at hexit hle hcount hcost ⊢
    cases exit with
    | outofmemory => exact absurd rfl hexit
    | reported e' => exact pure ⟨by omega, nofun⟩
    | loopEnd =>
      refine seq (tokenlistAddtoken_stops st.t .tokEnd none st.i) ?_ ?_
      · rintro ⟨_, t⟩ l ⟨rfl, hn, -, hl⟩
        have := hl rfl
        have : t.n = st.t.n + 1 := hn
        exact pure ⟨by omega, fun _ => ⟨show t.n ≤ _ by omega, rfl⟩⟩
      · rintro ⟨_, t⟩ rfl
        exact pure ⟨rfl, rfl, st.i, rfl⟩
  · rintro ⟨exit, st⟩ hexit
    dsimp only at hexit
    subst hexit
    exact pure ⟨rfl, rfl, st.i, rfl⟩

end Lexer

/-! ## `redirect_set` -/

theorem redirectSetTcp_stops (r : Redirect) (a : CString) (len : Nat) (portText : CString)
    (e : Option ParseError) (pos : Nat) :
    StopsAtRefusal (redirectSetTcp r a len portText e pos)
      (fun out k => k ≤ 1 ∧ (out.1 = .parseSuccess → out.2.2 = e))
      (fun out => out.1 = .parseFailed ∧ ReportsNoMemory e out.2.2) := by
  unfold redirectSetTcp
  by_cases hlen : len = 0
  · rw [if_pos hlen]
    exact pure ⟨Nat.zero_le 1, fun h => ParseStatus.noConfusion h⟩
  rw [if_neg hlen]
  refine seq (malloc_stops (len + 1)) ?_ ?_
  · rintro p k ⟨hp, rfl⟩
    obtain ⟨b, rfl⟩ := Option.isSome_iff_exists.mp hp
    dsimp only
    rw [if_neg (fun h => Bool.noConfusion h)]
    refine quiet_seq (quiet_seq (quiet_memcpy (some b) (a.bytes.take len)) fun q _ =>
      quiet_store q len 0) fun host _ => ?_
    rw [parsePort]
    cases portValue portText with
    | none => exact quiet_seq (quiet_free host) fun _ _ => pure ⟨Nat.le_refl 1, fun h => ParseStatus.noConfusion h⟩
    | some v => exact pure ⟨Nat.le_refl 1, fun _ => rfl⟩
  · rintro _ rfl
    exact pure ⟨rfl, rfl, pos, rfl⟩

theorem redirectSet_stops (r : Redirect) (target : Ptr Byte) (e : Option ParseError) (pos : Nat) :
    StopsAtRefusal (redirectSet r target e pos)
      (fun out k => k ≤ 1 ∧ (out.1 = .parseSuccess → out.2.2 = e))
      (fun out => out.1 = .parseFailed ∧ ReportsNoMemory e out.2.2) := by
  unfold redirectSet
  by_cases htype : r.type ≠ .redirectNone
  · rw [if_pos htype]
    exact pure ⟨Nat.zero_le 1, fun h => ParseStatus.noConfusion h⟩
  rw [if_neg htype]
  refine quiet_seq (quiet_ofOption _) fun text _ => ?_
  by_cases htcp : ¬ tcpPrefix <+: text.bytes
  · rw [if_pos htcp]
    refine seq (strdup_stops text) ?_ ?_
    · rintro p k ⟨hp, rfl⟩
      obtain ⟨b, rfl⟩ := Option.isSome_iff_exists.mp hp
      exact pure ⟨Nat.le_refl 1, fun _ => rfl⟩
    · rintro _ rfl
      exact pure ⟨rfl, rfl, pos, rfl⟩
  · rw [if_neg htcp]
    cases splitEndpoint (text.drop 4) with
    | error msg => exact pure ⟨Nat.zero_le 1, fun h => ParseStatus.noConfusion h⟩
    | ok parts => exact redirectSetTcp_stops r parts.1 parts.2.1 parts.2.2 e pos

/-! ## The parser -/

theorem Command.argc_setRedirection (c : Command) (op : TokenType) (r : Redirect) :
    (c.setRedirection op r).argc = c.argc := by
  unfold Command.setRedirection
  split <;> rfl

section Parser
variable {t : TokenList} {i₀ : Nat}

theorem quiet_tokenAt (t : TokenList) (i : Nat) :
    Quiet (load t.v i) (fun tok => t.v.cells[i]? = some (some tok)) := by
  refine (quiet_ofOption _).mono ?_ fun _ hfalse => hfalse
  rintro tok k ⟨rfl, htok⟩
  obtain ⟨cell, hcell, hid⟩ := Option.bind_eq_some_iff.mp htok
  exact ⟨rfl, hcell.trans (congrArg some hid)⟩

/-- The command that began at `i₀` has taken two requests for each token at most. -/
structure ItemCost (t : TokenList) (e : Option ParseError) (i₀ : Nat) (st : CommandScan) (k : Nat) :
    Prop where
  lt : st.i < t.n
  words : st.c.argc + i₀ ≤ st.i
  cost : k ≤ i₀ + 2 * st.i
  error : st.e = e

/-- How the inner loop ends when no request is refused. -/
def ItemsCost (t : TokenList) (e : Option ParseError) (i₀ : Nat) (b : ParseStatus × CommandScan) (k : Nat) :
    Prop :=
  k ≤ 3 * t.n - 3 ∧ (b.1 = .parseSuccess → ItemCost t e i₀ b.2 k)

/-- How a loop of the parser ends when a request is refused. -/
abbrev NoMemory {ς : Type} (e : Option ParseError) (error : ς → Option ParseError)
    (b : ParseStatus × ς) : Prop :=
  b.1 = .parseFailed ∧ ReportsNoMemory e (error b.2)

theorem itemPass_stops {st : CommandScan} {k : Nat} (ht : t.Terminated) (h : ItemCost t e i₀ st k) :
    StopsAtRefusal (itemPass t st)
      (fun r l => r.Ends (fun st' => ItemCost t e i₀ st' (k + l)) (fun b => ItemsCost t e i₀ b (k + l)))
      (fun r => r.Ends (fun _ => False) (NoMemory e CommandScan.e)) := by
  obtain ⟨hlt, hwords, hcost, herror⟩ := h
  refine quiet_seq (quiet_tokenAt t st.i) ?_
  intro tok htok
  by_cases hend : tok.type = .tokPipe ∨ tok.type = .tokEnd
  · rw [if_pos hend]
    exact pure ⟨by omega, fun _ => ⟨hlt, hwords, hcost, herror⟩⟩
  rw [if_neg hend]
  have hnext := ht.next_lt hlt htok fun h => hend (Or.inr h)
  by_cases hword : tok.type = .tokWord
  · rw [if_pos hword]
    refine seq (commandAddArg_stops st.c st.acap tok.text) ?_ ?_
    · rintro ⟨_, c, acap⟩ l ⟨rfl, hargc, hl⟩
      refine pure ⟨hnext, ?_, ?_, herror⟩
      · show c.argc + i₀ ≤ st.i + 1
        have : c.argc = st.c.argc + 1 := hargc
        omega
      · show k + (l + 0) ≤ i₀ + 2 * (st.i + 1)
        omega
    · rintro ⟨_, c, acap⟩ rfl
      exact quiet_seq (quiet_commandFree c) fun _ _ => pure ⟨rfl, rfl, tok.pos, herror ▸ rfl⟩
  rw [if_neg hword]
  refine quiet_seq (quiet_tokenAt t (st.i + 1)) ?_
  intro target htarget
  by_cases htype : target.type ≠ .tokWord
  · rw [if_pos htype]
    exact quiet_seq (quiet_commandFree st.c) fun _ _ => pure ⟨by omega, nofun⟩
  rw [if_neg htype]
  have hbehind := ht.next_lt hnext htarget fun h => htype (h ▸ nofun)
  refine seq (redirectSet_stops (st.c.redirection tok.type) target.text st.e target.pos) ?_ ?_
  · rintro ⟨r, redirect, e'⟩ l ⟨hl, he⟩
    cases r with
    | parseFailed =>
      exact quiet_seq (quiet_commandFree _) fun _ _ => pure ⟨by omega, nofun⟩
    | parseSuccess =>
      refine pure ⟨hbehind, ?_, ?_, (he rfl).trans herror⟩
      · show (st.c.setRedirection tok.type redirect).argc + i₀ ≤ st.i + 1 + 1
        rw [Command.argc_setRedirection]
        omega
      · show k + (l + 0) ≤ i₀ + 2 * (st.i + 1 + 1)
        omega
  · rintro ⟨_, redirect, e'⟩ ⟨rfl, hno⟩
    exact quiet_seq (quiet_commandFree _) fun _ _ => pure ⟨rfl, rfl, herror ▸ hno⟩

theorem itemLoop_stops {st : CommandScan} {k : Nat} (ht : t.Terminated) (h : ItemCost t e i₀ st k) :
    StopsAtRefusal (loop (itemPass t) (t.n + 1) st) (fun b l => ItemsCost t e i₀ b (k + l))
      (NoMemory e CommandScan.e) :=
  StopsAtRefusal.loop (ItemCost t e i₀) (fun _ _ hst => itemPass_stops ht hst) _ _ k h

/-- The parser has taken three requests for each token at most. -/
structure ParseCost (t : TokenList) (e : Option ParseError) (st : ParseScan) (k : Nat) : Prop where
  lt : st.i < t.n
  cost : k ≤ 3 * st.i
  error : st.e = e

theorem commandEnd_stops {st : ParseScan} {cs : CommandScan} {k : Nat} (ht : t.Terminated)
    (h : ItemCost t e st.i cs k) :
    StopsAtRefusal (commandEnd t st cs)
      (fun r l => r.Ends (fun st' => ParseCost t e st' (k + l)) (fun _ => k + l ≤ 3 * t.n - 3))
      (fun r => r.Ends (fun _ => False) (NoMemory e ParseScan.e)) := by
  obtain ⟨hlt, hwords, hcost, herror⟩ := h
  refine quiet_seq (quiet_tokenAt t cs.i) ?_
  intro tok htok
  by_cases hargc : cs.c.argc = 0
  · rw [if_pos hargc]
    exact quiet_seq (quiet_commandFree cs.c) fun _ _ => pure (by show k + 0 ≤ _; omega)
  rw [if_neg hargc]
  refine seq (commandAdd_stops st.p st.pcap cs.c) ?_ ?_
  · rintro ⟨_, p, pcap, c⟩ l ⟨rfl, hl⟩
    dsimp only
    rw [if_neg nofun]
    by_cases hpipe : tok.type ≠ .tokPipe
    · rw [if_pos hpipe]
      exact pure ⟨hlt, by show k + (l + 0) ≤ 3 * cs.i; omega, herror⟩
    rw [if_neg hpipe]
    have hnext := ht.next_lt hlt htok fun h => hpipe (h ▸ nofun)
    refine quiet_seq (quiet_tokenAt t (cs.i + 1)) ?_
    intro next _
    by_cases hend : next.type = .tokEnd
    · rw [if_pos hend]
      exact pure (by show k + (l + 0) ≤ _; omega)
    · rw [if_neg hend]
      exact pure ⟨hnext, by show k + (l + 0) ≤ 3 * (cs.i + 1); omega, herror⟩
  · rintro ⟨_, p, pcap, c⟩ rfl
    exact quiet_seq (quiet_commandFree c) fun _ _ => pure ⟨rfl, rfl, tok.pos, herror ▸ rfl⟩

theorem commandPass_stops {st : ParseScan} {k : Nat} (ht : t.Terminated) (h : ParseCost t e st k) :
    StopsAtRefusal (commandPass t st)
      (fun r l => r.Ends (fun st' => ParseCost t e st' (k + l)) (fun _ => k + l ≤ 3 * t.n - 3))
      (fun r => r.Ends (fun _ => False) (NoMemory e ParseScan.e)) := by
  obtain ⟨hlt, hcost, herror⟩ := h
  refine quiet_seq (quiet_tokenAt t st.i) ?_
  intro tok _
  by_cases hend : tok.type = .tokEnd
  · rw [if_pos hend]
    exact pure (by show k + 0 ≤ _; omega)
  rw [if_neg hend]
  by_cases hpipe : tok.type = .tokPipe
  · rw [if_pos hpipe]
    exact quiet_seq (quiet_commandFree Command.zero) fun _ _ => pure (by show k + 0 ≤ _; omega)
  rw [if_neg hpipe]
  have hstart : ItemCost t e st.i ⟨st.i, Command.zero, 0, st.e⟩ k :=
    ⟨hlt, Nat.le_of_eq (Nat.zero_add st.i), by show k ≤ st.i + 2 * st.i; omega, herror⟩
  refine seq (itemLoop_stops ht hstart) ?_ ?_
  · rintro ⟨r, cs⟩ l ⟨hcost', hitems⟩
    cases r with
    | parseFailed => exact pure hcost'
    | parseSuccess =>
      refine (commandEnd_stops ht (hitems rfl)).mono ?_ fun _ h => h
      intro r n hr
      rw [← Nat.add_assoc]
      exact hr
  · rintro ⟨_, cs⟩ ⟨rfl, hno⟩
    exact pure ⟨rfl, rfl, hno⟩

theorem commandLoop_stops (ht : t.Terminated) (e : Option ParseError) :
    StopsAtRefusal (loop (commandPass t) (t.n + 1) ⟨0, Pipeline.zero, 0, e⟩)
      (fun _ k => k ≤ 3 * t.n - 3) (NoMemory e ParseScan.e) := by
  have key := StopsAtRefusal.loop (ParseCost t e) (Q := fun _ k => k ≤ 3 * t.n - 3)
    (R := NoMemory e ParseScan.e) (fun _ _ hst => commandPass_stops ht hst) (t.n + 1)
    ⟨0, Pipeline.zero, 0, e⟩ 0 ⟨ht.pos, Nat.le_refl 0, rfl⟩
  exact key.mono (fun b l h => Nat.zero_add l ▸ h) fun _ h => h

end Parser

/-- **`pipeline_parse` stops at the first request that is refused**, and reports that
memory has run out. -/
theorem pipelineParse_stops (line : CString) (p : Pipeline) (e : Option ParseError) :
    StopsAtRefusal (pipelineParse (some line) (some p) e)
      (fun _ k => k ≤ 7 * line.length + 1)
      (fun out => out.1 = .parseFailed ∧ (∃ q, out.2.1 = some q) ∧ ReportsNoMemory e out.2.2) := by
  have hcleared : ∀ e', ReportsNoMemory (e.map fun _ => ParseError.zero) e' → ReportsNoMemory e e' := by
    rintro e' ⟨pos, rfl⟩
    exact ⟨pos, parseerrorSetError_cleared e pos _⟩
  refine seq ((tokenize_stops line _).and_of_wp (tokenize_terminated line _)) ?_ ?_
  · rintro ⟨r, t, e'⟩ k ⟨⟨hk, hsuccess⟩, hterminated⟩
    cases r with
    | parseFailed =>
      exact quiet_seq (quiet_tokenlistFree t) fun _ _ => pure (by show k + 0 ≤ _; omega)
    | parseSuccess =>
      obtain ⟨hn, rfl⟩ := hsuccess rfl
      dsimp only at hn ⊢
      rw [if_neg nofun]
      refine seq (commandLoop_stops (hterminated rfl) _) ?_ ?_
      · rintro ⟨r, st⟩ l hl
        dsimp only at hl
        refine quiet_seq (quiet_tokenlistFree t) fun _ _ => ?_
        cases r with
        | parseFailed =>
          exact quiet_seq (quiet_pipelineFree st.p) fun _ _ => pure (by show k + (l + 0) ≤ _; omega)
        | parseSuccess => exact pure (by show k + (l + 0) ≤ _; omega)
      · rintro ⟨_, st⟩ ⟨rfl, hno⟩
        refine quiet_seq (quiet_tokenlistFree t) fun _ _ => ?_
        exact quiet_seq (quiet_pipelineFree st.p) fun q hq => pure ⟨rfl, rfl, hq, hcleared _ hno⟩
  · rintro ⟨_, t, e'⟩ ⟨rfl, hno⟩
    exact quiet_seq (quiet_tokenlistFree t) fun _ _ => pure ⟨rfl, rfl, ⟨_, rfl⟩, hcleared _ hno⟩

/-- No syntax error is reported as a want of memory. -/
theorem Reported.ne_outOfMemory {line : CString} {p : Nat} {msg : String} (h : Reported line p msg) :
    msg ≠ "out of memory" := by
  cases h with
  | endpoint _ _ _ _ message =>
    have hall : ∀ msg ∈ endpointMessages, msg ≠ "out of memory" := by decide
    exact hall msg message
  | _ => decide

/-- **All runs of `pipeline_parse` on a line.**  There is one in which no request is
refused; it makes `K` requests, and does not report a want of memory.  A script that
grants the first `K` requests has this run.  Under any other, the run ends with the
first request refused, and reports `out of memory`. -/
theorem pipelineParse_faults (line : CString) (p : Pipeline) (e : ParseError) (m : Memory) :
    ∃ K out m₀, K ≤ 7 * line.length + 1 ∧ m₀.requests = m.requests + K ∧
      pipelineParse (some line) (some p) (some e) Script.generous m = some (out, m₀) ∧
      (∀ err, out.1 = .parseFailed → out.2.2 = some err → err.message ≠ "out of memory") ∧
      ∀ σ : Script,
        (σ.Grants m.requests K →
          pipelineParse (some line) (some p) (some e) σ m = some (out, m₀)) ∧
        ∀ k, k < K → σ.FirstRefusal m.requests k → ∃ q pos m',
          pipelineParse (some line) (some p) (some e) σ m
            = some ((.parseFailed, some q, some ⟨pos, "out of memory"⟩), m') ∧
          m'.requests = m.requests + k + 1 := by
  have hstops := pipelineParse_stops line p (some e)
  obtain ⟨out, m₀, hrun, q, -, -, hpost⟩ :=
    wp_iff.mp (pipelineParse_spec (σ := Script.generous) line p (some e) (m := m) rfl)
  obtain ⟨K, hK, hbound⟩ := hstops.of_generous hrun
  refine ⟨K, out, m₀, hbound, hK, hrun, ?_, fun σ => ⟨hstops.eq_of_grants hrun hK, ?_⟩⟩
  · intro err hfailed herr
    rcases hpost with ⟨hsuccess, -⟩ | ⟨-, -, hrejected⟩
    · exact absurd (hsuccess.symm.trans hfailed) nofun
    obtain ⟨pos, msg, hmeans, he⟩ := hrejected.resolve_left Script.not_refuses_generous
    have hreported := hmeans.reported
    rw [herr, parseerrorSetError, hreported.message.2] at he
    cases he
    exact hreported.ne_outOfMemory
  · intro k hk hfirst
    obtain ⟨⟨r, q', e'⟩, m', hrunσ, -⟩ :=
      wp_iff.mp (pipelineParse_spec (σ := σ) line p (some e) (m := m) rfl)
    obtain ⟨⟨hr, ⟨q, hq⟩, pos, he⟩, hrequests⟩ := hstops.of_firstRefusal hrun hK hk hfirst hrunσ
    cases hr
    cases hq
    cases he
    exact ⟨q, pos, m', hrunσ, hrequests⟩

/-- A line of one word takes six requests; here the vector of its arguments is not
granted. -/
example : (pipelineParse (some ⟨[ch 'a'], by decide⟩) (some Pipeline.zero) (some ParseError.zero)
    (fun k => k == 3) Memory.empty).map (fun r => (r.1.2.2, r.2.requests))
      = some (some ⟨0, "out of memory"⟩, 4) := by decide

end SystemsCourse
