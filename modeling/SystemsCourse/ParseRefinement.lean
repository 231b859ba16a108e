import SystemsCourse.PipelineParse

/-!
# `pipeline_parse` computes what a line means

`LineMeans` is the meaning of a line: where its quotes are balanced, what
`parseLexemes` makes of its tokenization; where they are not, an error at the last
opening quote.  A line has exactly one meaning (`LineMeans.unique`).

`pipelineParse_spec` is the refinement: for every line and every script of refused
requests the code returns, its loops end, every access is in bounds, and either it
succeeds with the commands the line means, or it fails and leaves nothing behind,
with the line's error reported unless a request was refused.  The invariants of
its two loops say that the meaning of the whole line is still what `parseFrom`
makes of the lexemes from the cursor on, given the commands and the words read so
far.
-/
namespace SystemsCourse
open Prog

/-! ## The token list as the parser finds it -/

/-- A list of lexemes that ends in a `TOK_END`, and whose words have a text. -/
structure ProperLexemes (xs : List Lexeme) : Prop where
  ends : ∃ front last, xs = front ++ [last] ∧ last.type = .tokEnd
  word : ∀ x ∈ xs, x.type = .tokWord → ∃ s, x.text = some s

theorem ProperLexemes.next_lt {xs : List Lexeme} (h : ProperLexemes xs) {i : Nat} (hi : i < xs.length)
    (hx : xs[i].type ≠ .tokEnd) : i + 1 < xs.length := by
  obtain ⟨front, last, rfl, hlast⟩ := h.ends
  rw [List.length_append, List.length_singleton] at hi ⊢
  refine Nat.lt_of_le_of_ne hi fun he => hx ?_
  obtain rfl : i = front.length := by omega
  simpa using hlast

/-- The tokens of `t` say `xs`. -/
structure TokenList.Reads (t : TokenList) (xs : List Lexeme) : Prop where
  tokens : ∃ toks, t.Holds toks ∧ toks.mapM Token.read = some xs
  proper : ProperLexemes xs

/-- A token that says `x`. -/
structure Token.Says (tok : Token) (x : Lexeme) : Prop where
  type_eq : tok.type = x.type
  pos_eq : tok.pos = x.pos
  text_eq : x.type = .tokWord → tok.text.string = some x.word

theorem Token.says_of_read {tok : Token} {x : Lexeme} (h : tok.read = some x)
    (hword : x.type = .tokWord → ∃ s, x.text = some s) : tok.Says x := by
  obtain ⟨text, htext, rfl⟩ := Option.map_eq_some_iff.mp h
  refine ⟨rfl, rfl, fun hx => ?_⟩
  obtain ⟨s, rfl⟩ := hword hx
  cases htok : tok.text with
  | none =>
    rw [htok] at htext
    cases htext
  | some b =>
    rw [htok] at htext
    obtain ⟨s', hs', he⟩ := Option.map_eq_some_iff.mp htext
    cases he
    exact hs'

section Specification
variable {σ : Script} {m : Memory} {F : Multiset Addr} {t : TokenList} {xs : List Lexeme}

theorem TokenList.Reads.count (h : t.Reads xs) : t.n = xs.length := by
  obtain ⟨toks, ht, hread⟩ := h.tokens
  rw [ht.count, (getElem_of_mapM hread).1]

theorem TokenList.Reads.load_spec (h : t.Reads xs) {i : Nat} (hi : i < xs.length)
    {Q : Token → Memory → Prop} (hQ : ∀ tok, tok.Says xs[i] → Q tok m) :
    wp (load t.v i) σ Q m := by
  obtain ⟨toks, ht, hread⟩ := h.tokens
  obtain ⟨hlen, hget⟩ := getElem_of_mapM hread
  have hi' : i < toks.length := by omega
  exact (Prog.load_spec ht.array hi').mpr
    (hQ _ (Token.says_of_read (hget i hi' hi) (h.proper.word _ (List.getElem_mem hi))))

/-- How the parser fails: a request was refused, or the error that the recognition
reports has been reported. -/
def Rejects (result : Except Rejection (List CommandValue)) (e : Option ParseError) (σ : Script)
    (e' : Option ParseError) : Prop :=
  σ.Refuses ∨ ∃ pos msg, result = .error (pos, msg) ∧ e' = parseerrorSetError e pos msg

/-- The invariant of the inner loop: the line is recognised if the rest of it is,
with the command as it has been built. -/
structure ItemInv (xs : List Lexeme) (result : Except Rejection (List CommandValue))
    (done : List CommandValue) (e : Option ParseError) (F : Multiset Addr) (lo : Nat)
    (st : CommandScan) (m : Memory) : Prop where
  live : m.ledger.live = st.c.blocks + F
  ge : lo ≤ st.i
  lt : st.i < xs.length
  error : st.e = e
  built : ∃ args v, st.c.Holds st.acap args v ∧
    result = parseFrom false done v (xs.drop st.i)

/-- What holds when the inner loop has ended. -/
def ItemEnd (xs : List Lexeme) (result : Except Rejection (List CommandValue))
    (done : List CommandValue) (e : Option ParseError) (F : Multiset Addr) (lo : Nat) (σ : Script) :
    ParseStatus × CommandScan → Memory → Prop
  | (.parseSuccess, st), m => ItemInv xs result done e F lo st m ∧
      ∃ h : st.i < xs.length, xs[st.i].type = .tokPipe ∨ xs[st.i].type = .tokEnd
  | (.parseFailed, st), m => m.ledger.live = F ∧ Rejects result e σ st.e

/-- A pass of the inner loop reads an item or ends the loop. -/
abbrev ItemPost (xs : List Lexeme) (result : Except Rejection (List CommandValue))
    (done : List CommandValue) (e : Option ParseError) (F : Multiset Addr) (lo : Nat) (σ : Script)
    (i : Nat) (r : LoopStep CommandScan (ParseStatus × CommandScan)) (m : Memory) : Prop :=
  r.Ends (fun st => ItemInv xs result done e F lo st m ∧ xs.length - st.i < xs.length - i)
    (fun b => ItemEnd xs result done e F lo σ b m)

variable {result : Except Rejection (List CommandValue)} {done : List CommandValue}
  {e : Option ParseError} {lo : Nat}

theorem wordItem_spec (ht : t.Reads xs) {st : CommandScan} (h : ItemInv xs result done e F lo st m)
    (hlt : st.i < xs.length) (hword : xs[st.i].type = .tokWord) {tok : Token}
    (htok : tok.Says xs[st.i]) :
    wp (wordItem st tok) σ (ItemPost xs result done e F lo σ st.i) m := by
  obtain ⟨hlive, hge, -, rfl, args, v, hc, hresult⟩ := h
  have hnext := ht.proper.next_lt hlt (by rw [hword]; nofun)
  rw [List.drop_eq_getElem_cons hlt, parseFrom_word hword] at hresult
  refine wp_seq (commandAddArg_spec hc (htok.text_eq hword) hlive) ?_
  intro out m₁ hpost
  obtain ⟨r, c, acap⟩ := out
  rcases hpost with ⟨hlive₁, ⟨rfl, args', hc'⟩ | ⟨rfl, hσ, hc'⟩⟩
  · exact ⟨⟨hlive₁, Nat.le_succ_of_le hge, hnext, rfl, args', _, hc', hresult⟩, by show _ - (st.i + 1) < _; omega⟩
  · -- no memory for the argument: what has been built of the command is released
    apply commandFree_then hc' hlive₁
    intro m₂ hlive₂
    exact ⟨hlive₂, Or.inl hσ⟩

/-! ### A command and one of its redirections -/

theorem Command.Holds.redirection {c : Command} {cap : Nat} {args : List (Ptr Byte)}
    {v : CommandValue} (h : c.Holds cap args v) (op : TokenType) :
    (c.redirection op).Holds (v.redirection op) := by
  unfold Command.redirection CommandValue.redirection
  split
  · exact h.input
  · exact h.output

theorem Command.Holds.setRedirection {c : Command} {cap : Nat} {args : List (Ptr Byte)}
    {v : CommandValue} (h : c.Holds cap args v) (op : TokenType) {r : Redirect} {target : Target}
    (hr : r.Holds target) :
    (c.setRedirection op r).Holds cap args (v.setRedirection op target) := by
  unfold Command.setRedirection CommandValue.setRedirection
  split
  · exact ⟨h.count, h.array, h.words, hr, h.output⟩
  · exact ⟨h.count, h.array, h.words, h.input, hr⟩

@[simp] theorem Command.setRedirection_redirection (c : Command) (op : TokenType) :
    c.setRedirection op (c.redirection op) = c := by
  unfold Command.setRedirection Command.redirection
  split <;> rfl

/-- The blocks of a command are those of one redirection, and others that do not
depend on it. -/
theorem Command.blocks_setRedirection (c : Command) (op : TokenType) :
    ∃ others, ∀ r, (c.setRedirection op r).blocks = r.blocks + others := by
  unfold Command.setRedirection
  split
  · refine ⟨(((c.argv.items c.argc).getD []).map Ptr.own).sum + c.argv.own + c.output.blocks, fun r => ?_⟩
    rw [Command.blocks]
    abel
  · refine ⟨(((c.argv.items c.argc).getD []).map Ptr.own).sum + c.argv.own + c.input.blocks, fun r => ?_⟩
    rw [Command.blocks]
    abel

theorem redirectionItem_spec (ht : t.Reads xs) {st : CommandScan}
    (h : ItemInv xs result done e F lo st m) (hlt : st.i < xs.length)
    (hop : xs[st.i].type.Redirects) {tok : Token} (htok : tok.Says xs[st.i]) :
    wp (redirectionItem t st tok) σ (ItemPost xs result done e F lo σ st.i) m := by
  obtain ⟨hlive, hge, -, rfl, args, v, hc, hresult⟩ := h
  have hnext := ht.proper.next_lt hlt (by rcases hop with hop | hop <;> rw [hop] <;> nofun)
  rw [List.drop_eq_getElem_cons hlt, List.drop_eq_getElem_cons hnext,
    parseFrom_redirection hop] at hresult
  refine wp_bind.mpr (ht.load_spec hnext fun target htarget => ?_)
  rw [htarget.type_eq]
  by_cases hword : xs[st.i + 1].type = .tokWord
  · -- `redirect_set` works on one redirection of the command; the other blocks are its frame
    rw [if_neg (not_not_intro hword)] at hresult ⊢
    rw [htok.type_eq, htarget.pos_eq]
    obtain ⟨others, hothers⟩ := st.c.blocks_setRedirection xs[st.i].type
    have hself := hothers (st.c.redirection xs[st.i].type)
    rw [Command.setRedirection_redirection] at hself
    rw [hself, add_assoc] at hlive
    refine wp_seq (redirectSet_spec (hc.redirection xs[st.i].type) (htarget.text_eq hword) st.e
      xs[st.i + 1].pos hlive) ?_
    intro out m₁ hpost
    obtain ⟨r, redirect, e⟩ := out
    obtain ⟨hlive₁, hr⟩ := hpost
    dsimp only at hlive₁ hr
    rw [← add_assoc, ← hothers redirect] at hlive₁
    rcases hr with ⟨rfl, rfl, target', hset, hholds⟩ | ⟨rfl, rfl, hr⟩
    · rw [hset] at hresult
      have hlt' := ht.proper.next_lt hnext (by rw [hword]; nofun)
      have hge' : lo ≤ st.i + 1 + 1 := by omega
      exact ⟨⟨hlive₁, hge', hlt', rfl, args, _, hc.setRedirection _ hholds, hresult⟩,
        by show _ - (st.i + 1 + 1) < _; omega⟩
    · -- the target is refused, and the redirection is as it was
      dsimp only
      rw [Command.setRedirection_redirection] at hlive₁ ⊢
      apply commandFree_then hc hlive₁
      intro m₂ hlive₂
      refine ⟨hlive₂, hr.imp_right ?_⟩
      intro h
      obtain ⟨msg, hset, rfl⟩ := h
      rw [hset] at hresult
      exact ⟨_, _, hresult, rfl⟩
  · -- an operator, a pipe or the end of the line where the target should be
    rw [if_pos hword] at hresult ⊢
    apply commandFree_then hc hlive
    intro m₁ hlive₁
    exact ⟨hlive₁, Or.inr ⟨_, _, hresult, by rw [htok.pos_eq]⟩⟩

theorem itemPass_spec (ht : t.Reads xs) {st : CommandScan} (h : ItemInv xs result done e F lo st m) :
    wp (itemPass t st) σ (ItemPost xs result done e F lo σ st.i) m := by
  have hlt := h.lt
  refine wp_bind.mpr (ht.load_spec hlt fun tok htok => ?_)
  rw [htok.type_eq]
  cases htype : xs[st.i].type with
  | tokPipe =>
    rw [if_pos (Or.inl rfl)]
    exact ⟨h, h.lt, Or.inl htype⟩
  | tokEnd =>
    rw [if_pos (Or.inr rfl)]
    exact ⟨h, h.lt, Or.inr htype⟩
  | tokWord =>
    rw [if_neg (by nofun), if_pos rfl]
    exact wordItem_spec ht h hlt htype htok
  | tokIn =>
    rw [if_neg (by nofun), if_neg (by nofun)]
    exact redirectionItem_spec ht h hlt (Or.inl htype) htok
  | tokOut =>
    rw [if_neg (by nofun), if_neg (by nofun)]
    exact redirectionItem_spec ht h hlt (Or.inr htype) htok

/-! ### The outer loop -/

/-- The invariant of the outer loop: the line is recognised if the rest of it is,
behind the commands of the pipeline as it has been built. -/
structure ParseInv (xs : List Lexeme) (result : Except Rejection (List CommandValue))
    (e : Option ParseError) (F : Multiset Addr) (st : ParseScan) (m : Memory) : Prop where
  live : m.ledger.live = st.p.blocks + F
  lt : st.i < xs.length
  error : st.e = e
  built : ∃ vs, st.p.Built st.pcap vs ∧
    result = parseFrom true vs CommandValue.zero (xs.drop st.i)

/-- What holds when the outer loop has ended. -/
def ParseEnd (result : Except Rejection (List CommandValue)) (e : Option ParseError)
    (F : Multiset Addr) (σ : Script) : ParseStatus × ParseScan → Memory → Prop
  | (.parseSuccess, st), m => m.ledger.live = st.p.blocks + F ∧ st.e = e ∧
      ∃ vs, st.p.Built st.pcap vs ∧ result = .ok vs
  | (.parseFailed, st), m => m.ledger.live = st.p.blocks + F ∧ (∃ vs, st.p.Built st.pcap vs) ∧
      Rejects result e σ st.e

/-- A pass of the outer loop adds a command or ends the loop. -/
abbrev ParsePost (xs : List Lexeme) (result : Except Rejection (List CommandValue))
    (e : Option ParseError) (F : Multiset Addr) (σ : Script) (i : Nat)
    (r : LoopStep ParseScan (ParseStatus × ParseScan)) (m : Memory) : Prop :=
  r.Ends (fun st => ParseInv xs result e F st m ∧ xs.length - st.i < xs.length - i)
    (fun b => ParseEnd result e F σ b m)

theorem Pipeline.Built.add {p' : Pipeline} {cap' : Nat} {cs : List Command}
    {vs : List CommandValue} {c : Command} {v : CommandValue} (hp : p'.Holds cap' (cs ++ [c]))
    (hcs : ∀ c ∈ cs, c.Built) (hread : cs.mapM Command.read = some vs) {acap : Nat}
    {args : List (Ptr Byte)} (hc : c.Holds acap args v) : p'.Built cap' (vs ++ [v]) := by
  refine ⟨cs ++ [c], hp, fun x hx => ?_, by simp [List.mapM_append, hread, hc.read]⟩
  rcases List.mem_append.mp hx with hx | hx
  · exact hcs x hx
  · rw [List.mem_singleton.mp hx]
    exact ⟨acap, args, v, hc⟩

theorem commandEnd_spec (ht : t.Reads xs) {st : ParseScan} {vs : List CommandValue}
    (hbuilt : st.p.Built st.pcap vs) {cs : CommandScan}
    (hend : ItemEnd xs result vs e (st.p.blocks + F) lo σ (.parseSuccess, cs) m) (hi : st.i < cs.i) :
    wp (commandEnd t st cs) σ (ParsePost xs result e F σ st.i) m := by
  obtain ⟨⟨hlive, _, hlt, rfl, args, v, hc, hresult⟩, _, htype⟩ := hend
  refine wp_bind.mpr (ht.load_spec hlt fun tok htok => ?_)
  have hargc : cs.c.argc = 0 ↔ v.argv = [] := by
    rw [hc.count, (getElem_of_mapM hc.words).1, List.length_eq_zero_iff]
  rw [List.drop_eq_getElem_cons hlt] at hresult
  by_cases hnone : v.argv = []
  · -- the command consists of redirections only
    rw [if_pos (hargc.mpr hnone)]
    apply commandFree_then hc hlive
    intro m₁ hlive₁
    rw [parseFrom_without_words htype hnone] at hresult
    exact ⟨hlive₁, ⟨vs, hbuilt⟩, Or.inr ⟨xs[cs.i].pos, _, hresult, by rw [htok.pos_eq]⟩⟩
  rw [if_neg (mt hargc.mp hnone)]
  obtain ⟨cmds, hp, hcmds, hread⟩ := hbuilt
  have hlive' : m.ledger.live = st.p.blocks + cs.c.blocks + F := by
    rw [hlive]
    abel
  refine wp_seq (commandAdd_spec hp cs.c hlive') ?_
  intro out m₁ hpost
  obtain ⟨r, p, pcap, c⟩ := out
  rcases hpost with ⟨hlive₁, ⟨rfl, hp', rfl⟩ | ⟨hr, hσ⟩⟩
  · have hadd := Pipeline.Built.add hp' hcmds hread hc
    rw [Command.blocks_zero, add_zero] at hlive₁
    dsimp only at hadd hlive₁ ⊢
    rw [if_neg (by nofun), htok.type_eq]
    rcases htype with htype | htype
    · -- a pipe: the parser looks at the token behind it
      rw [if_neg (not_not_intro htype)]
      have hnext := ht.proper.next_lt hlt (by rw [htype]; nofun)
      rw [parseFrom_pipe htype, if_neg (by nofun), if_neg hnone, List.drop_eq_getElem_cons hnext,
        List.head?_cons, Option.map_some] at hresult
      refine wp_bind.mpr (ht.load_spec hnext fun next hnext' => ?_)
      rw [hnext'.type_eq]
      by_cases hlast : xs[cs.i + 1].type = .tokEnd
      · rw [if_pos hlast]
        rw [if_pos (by rw [hlast])] at hresult
        exact ⟨hlive₁, ⟨_, hadd⟩, Or.inr ⟨_, _, hresult, by rw [htok.pos_eq]⟩⟩
      · rw [if_neg hlast]
        rw [if_neg (by simpa using hlast), ← List.drop_eq_getElem_cons hnext] at hresult
        exact ⟨⟨hlive₁, hnext, rfl, _, hadd, hresult⟩, by show _ - (cs.i + 1) < _; omega⟩
    · rw [if_pos (by rw [htype]; nofun)]
      refine ⟨⟨hlive₁, hlt, rfl, _, hadd, ?_⟩, by show _ - cs.i < _; omega⟩
      rw [hresult, List.drop_eq_getElem_cons hlt, parseFrom_end htype, parseFrom_end htype,
        if_neg (by nofun), if_neg hnone, if_pos rfl]
  · -- the array of commands cannot grow, and the command is still the parser's
    cases hr
    dsimp only at hlive₁ ⊢
    rw [if_pos rfl]
    have hlive₁' : m₁.ledger.live = st.p.blocks + cs.c.blocks + F := hlive₁
    have hlive₁'' : m₁.ledger.live = cs.c.blocks + (st.p.blocks + F) := by
      rw [hlive₁']
      abel
    apply commandFree_then hc hlive₁''
    intro m₂ hlive₂
    exact ⟨hlive₂, ⟨vs, cmds, hp, hcmds, hread⟩, Or.inl hσ⟩

theorem commandPass_spec (ht : t.Reads xs) {st : ParseScan} (h : ParseInv xs result e F st m) :
    wp (commandPass t st) σ (ParsePost xs result e F σ st.i) m := by
  obtain ⟨hlive, hlt, rfl, vs, hbuilt, hresult⟩ := h
  refine wp_bind.mpr (ht.load_spec hlt fun tok htok => ?_)
  rw [htok.type_eq]
  rw [List.drop_eq_getElem_cons hlt] at hresult
  by_cases hend : xs[st.i].type = .tokEnd
  · rw [if_pos hend]
    rw [parseFrom_end hend, if_pos rfl] at hresult
    exact ⟨hlive, rfl, vs, hbuilt, hresult⟩
  rw [if_neg hend]
  by_cases hpipe : xs[st.i].type = .tokPipe
  · rw [if_pos hpipe]
    rw [parseFrom_pipe hpipe, if_pos rfl] at hresult
    apply commandFree_then Command.holds_zero (hlive.trans (zero_add _).symm)
    intro m₁ hlive₁
    exact ⟨hlive₁, ⟨vs, hbuilt⟩, Or.inr ⟨_, _, hresult, by rw [htok.pos_eq]⟩⟩
  rw [if_neg hpipe]
  rw [parseFrom_start hpipe hend, ← List.drop_eq_getElem_cons hlt] at hresult
  have hinit : ItemInv xs result vs st.e (st.p.blocks + F) st.i ⟨st.i, Command.zero, 0, st.e⟩ m :=
    ⟨hlive.trans (zero_add _).symm, Nat.le_refl _, hlt, rfl, [], CommandValue.zero,
      Command.holds_zero, hresult⟩
  refine wp_seq (wp_loop (ItemInv xs result vs st.e (st.p.blocks + F) st.i)
    (fun cs => xs.length - cs.i) (Q := ItemEnd xs result vs st.e (st.p.blocks + F) st.i σ)
    (fun cs m h => itemPass_spec ht h) _ _ _ (by rw [ht.count]; omega) hinit) ?_
  intro out m₁ hitems
  obtain ⟨r, cs⟩ := out
  cases r with
  | parseFailed => exact ⟨hitems.1, ⟨vs, hbuilt⟩, hitems.2⟩
  | parseSuccess =>
    -- the first token of the command is neither a pipe nor the end, so the inner loop has moved on
    refine commandEnd_spec ht hbuilt hitems (Nat.lt_of_le_of_ne hitems.1.ge fun he => ?_)
    obtain ⟨_, htype⟩ := hitems.2
    simp only [← he] at htype
    exact htype.elim hpipe hend

/-- **The outer loop** recognises the lexemes, from the first one on. -/
theorem commandLoop_spec (ht : t.Reads xs) (e : Option ParseError) (hlive : m.ledger.live = F) :
    wp (loop (commandPass t) (t.n + 1) ⟨0, Pipeline.zero, 0, e⟩) σ
      (ParseEnd (parseLexemes xs) e F σ) m := by
  have hpos : 0 < xs.length := by
    obtain ⟨front, last, rfl, -⟩ := ht.proper.ends
    simp
  refine wp_loop (ParseInv xs (parseLexemes xs) e F) (fun st => xs.length - st.i)
    (fun st m h => commandPass_spec ht h) _ _ _ (by rw [ht.count]; omega) ?_
  exact ⟨hlive.trans (zero_add _).symm, hpos, rfl, [], Pipeline.built_zero, rfl⟩

end Specification

/-! ## What a line means -/

/-- The meaning of a line: the commands it consists of, or where and why it is
rejected. -/
inductive LineMeans (s : CString) : Except Rejection (List CommandValue) → Prop where
  | unterminated {p : Nat} (unbalanced : quoteState s.bytes s.length ≠ none)
      (opening : IsLastOpening s.bytes s.length p) : LineMeans s (.error (p, "unterminated quote"))
  | tokens {xs : List Lexeme} (balanced : quoteState s.bytes s.length = none)
      (tokenization : IsTokenization s.bytes xs) :
      LineMeans s (parseLexemes (xs ++ [⟨.tokEnd, none, s.length⟩]))

theorem IsLastOpening.unique {s : List Byte} {i p q : Nat} (hp : IsLastOpening s i p)
    (hq : IsLastOpening s i q) : p = q := by
  rcases Nat.lt_trichotomy p q with h | h | h
  · exact absurd hq.opening (hp.last q h hq.lt)
  · exact h
  · exact absurd hp.opening (hq.last p h hp.lt)

/-- **A line has one meaning.** -/
theorem LineMeans.unique {s : CString} {r r' : Except Rejection (List CommandValue)}
    (h : LineMeans s r) (h' : LineMeans s r') : r = r' := by
  cases h with
  | unterminated unbalanced opening =>
    cases h' with
    | unterminated _ opening' => rw [opening.unique opening']
    | tokens balanced => exact absurd balanced unbalanced
  | tokens balanced tokenization =>
    cases h' with
    | unterminated unbalanced _ => exact absurd balanced unbalanced
    | tokens _ tokenization' => rw [tokenization.unique tokenization']

/-- The lexemes of a line, and the end of the line behind them, are as the parser
needs them. -/
theorem properLexemes_of_isTokenization {s : List Byte} {xs : List Lexeme}
    (h : IsTokenization s xs) (pos : Nat) : ProperLexemes (xs ++ [⟨.tokEnd, none, pos⟩]) where
  ends := ⟨xs, _, rfl, rfl⟩
  word x hx hword := by
    rcases List.mem_append.mp hx with hx | hx
    · cases (h.mem x).mp hx with
      | operator state char type_eq => exact absurd hword (ne_tokWord_of_operatorType type_eq)
      | word run text_eq => exact ⟨_, rfl⟩
    · rw [List.mem_singleton.mp hx] at hword
      cases hword

/-- How `pipeline_parse` ends: with the commands the line means and their blocks;
or with the cleared pipeline, no block more than before, and the line's error
reported unless a request was refused. -/
def PipelineParsePost (line : CString) (e : Option ParseError) (F : Multiset Addr) (σ : Script)
    (out : ParseStatus × Option Pipeline × Option ParseError) (m : Memory) : Prop :=
  ∃ p, out.2.1 = some p ∧ m.ledger.live = p.blocks + F ∧
    ((out.1 = .parseSuccess ∧ ∃ cap vs, p.Built cap vs ∧ LineMeans line (.ok vs)) ∨
      (out.1 = .parseFailed ∧ p = Pipeline.zero ∧
        (σ.Refuses ∨ ∃ pos msg, LineMeans line (.error (pos, msg)) ∧
          out.2.2 = parseerrorSetError e pos msg)))

theorem parseerrorSetError_cleared (e : Option ParseError) (pos : Nat) (msg : String) :
    parseerrorSetError (e.map fun _ => ParseError.zero) pos msg = parseerrorSetError e pos msg := by
  cases e <;> rfl

/-- The parser has failed, and has released all it had allocated. -/
theorem pipelineParsePost_failed {line : CString} {e e' : Option ParseError} {F : Multiset Addr}
    {σ : Script} {m : Memory} (hlive : m.ledger.live = F)
    (h : σ.Refuses ∨ ∃ pos msg, LineMeans line (.error (pos, msg)) ∧
      e' = parseerrorSetError (e.map fun _ => ParseError.zero) pos msg) :
    PipelineParsePost line e F σ (.parseFailed, some Pipeline.zero, e') m := by
  refine ⟨Pipeline.zero, rfl, hlive.trans (zero_add _).symm, Or.inr ⟨rfl, rfl, h.imp_right ?_⟩⟩
  intro h
  obtain ⟨pos, msg, hmeans, he⟩ := h
  rw [parseerrorSetError_cleared] at he
  exact ⟨pos, msg, hmeans, he⟩

/-- **`pipeline_parse` computes the meaning of its line.** -/
theorem pipelineParse_spec {σ : Script} {m : Memory} {F : Multiset Addr} (line : CString)
    (p : Pipeline) (e : Option ParseError) (hlive : m.ledger.live = F) :
    wp (pipelineParse (some line) (some p) e) σ (PipelineParsePost line e F σ) m := by
  refine wp_seq (tokenize_spec line _ hlive) ?_
  rintro ⟨r, t, e₁⟩ m₁ ⟨hlive₁, ⟨rfl, hbalanced, he, toks, xs, ht, htok, hread⟩ |
    ⟨rfl, ⟨toks, ht⟩, hfail⟩⟩
  · dsimp only at he hlive₁ ht
    subst he
    have hreads : t.Reads (xs ++ [⟨.tokEnd, none, line.length⟩]) :=
      ⟨⟨toks, ht, hread⟩, properLexemes_of_isTokenization htok _⟩
    have hmeans := LineMeans.tokens hbalanced htok
    dsimp only
    rw [if_neg (by nofun)]
    refine wp_seq (commandLoop_spec hreads _ hlive₁) ?_
    intro out m₂ hend
    obtain ⟨r, st⟩ := out
    cases r with
    | parseSuccess =>
      obtain ⟨hlive₂, -, vs, hbuilt, hok⟩ := hend
      have hlive₂' : m₂.ledger.live = t.blocks + (st.p.blocks + F) := by
        rw [hlive₂]
        abel
      apply tokenlistFree_then ht hlive₂'
      intro m₃ hlive₃
      exact ⟨st.p, rfl, hlive₃, Or.inl ⟨rfl, st.pcap, vs, hbuilt, hok ▸ hmeans⟩⟩
    | parseFailed =>
      obtain ⟨hlive₂, ⟨vs, hbuilt⟩, hrejects⟩ := hend
      have hlive₂' : m₂.ledger.live = t.blocks + (st.p.blocks + F) := by
        rw [hlive₂]
        abel
      apply tokenlistFree_then ht hlive₂'
      intro m₃ hlive₃
      refine wp_seq (pipelineFree_spec hbuilt hlive₃) ?_
      intro _ m₄ hpost
      obtain ⟨rfl, hlive₄, _⟩ := hpost
      refine pipelineParsePost_failed hlive₄ (hrejects.imp_right fun h => ?_)
      obtain ⟨pos, msg, herr, he⟩ := h
      exact ⟨pos, msg, herr ▸ hmeans, he⟩
  · -- the lexer has failed: an open quote, or a refused request
    apply tokenlistFree_then ht hlive₁
    intro m₂ hlive₂
    refine pipelineParsePost_failed hlive₂ (hfail.imp_right fun h => ?_)
    obtain ⟨hunbalanced, pos, hpos, he⟩ := h
    exact ⟨pos, _, .unterminated hunbalanced hpos, he⟩

/-- **With every request granted, the run of `pipeline_parse` is decided by what its
line means.** -/
theorem pipelineParse_run (line : CString) (p : Pipeline) (e : Option ParseError) (m : Memory) :
    ∃ status q e' m',
      pipelineParse (some line) (some p) e Script.generous m = some ((status, some q, e'), m') ∧
      ((status = .parseSuccess ∧ ∃ cap vs, q.Built cap vs ∧ LineMeans line (.ok vs)) ∨
        (status = .parseFailed ∧ ∃ pos msg, LineMeans line (.error (pos, msg)))) := by
  obtain ⟨⟨status, _, e'⟩, m', hrun, q, rfl, _, hok | ⟨hfail, _, hσ | ⟨pos, msg, hmeans, _⟩⟩⟩ :=
    wp_iff.mp (pipelineParse_spec (σ := Script.generous) line p e (m := m) rfl)
  · exact ⟨status, q, e', m', hrun, Or.inl hok⟩
  · exact absurd hσ Script.not_refuses_generous
  · exact ⟨status, q, e', m', hrun, Or.inr ⟨hfail, pos, msg, hmeans⟩⟩

/-- **`pipeline_parse` of `line` succeeds with the commands `vs`**, whatever the
pipeline, the error and the heap were before. -/
def Parses (line : CString) (vs : List CommandValue) : Prop :=
  ∀ (p : Pipeline) (e : Option ParseError) (m : Memory), ∃ q e' m',
    pipelineParse (some line) (some p) e Script.generous m
      = some ((.parseSuccess, some q, e'), m') ∧
    q.commandCount = vs.length ∧ q.read = some vs

/-- One successful run tells what the line means. -/
theorem lineMeans_of_run {line : CString} {p q : Pipeline} {e e' : Option ParseError} {m m' : Memory}
    (hrun : pipelineParse (some line) (some p) e Script.generous m
      = some ((.parseSuccess, some q, e'), m')) :
    ∃ vs, q.commandCount = vs.length ∧ q.read = some vs ∧ LineMeans line (.ok vs) := by
  obtain ⟨_, _, _, _, hrun', hstatus⟩ := pipelineParse_run line p e m
  cases hrun.symm.trans hrun'
  obtain ⟨-, cap, vs, hbuilt, hmeans⟩ := hstatus.resolve_right fun h => nomatch h.1
  refine ⟨vs, ?_, hbuilt.read, hmeans⟩
  obtain ⟨cs, hcs, -, hread⟩ := hbuilt
  rw [hcs.count, (getElem_of_mapM hread).1]

theorem parses_iff {line : CString} {vs : List CommandValue} :
    Parses line vs ↔ LineMeans line (.ok vs) := by
  constructor
  · intro h
    obtain ⟨q, e', m', hrun, -, hread⟩ := h Pipeline.zero none Memory.empty
    obtain ⟨vs', -, hread', hmeans⟩ := lineMeans_of_run hrun
    rw [hread] at hread'
    cases hread'
    exact hmeans
  · intro hmeans p e m
    obtain ⟨status, q, e', m', hrun, ⟨rfl, -⟩ | ⟨-, pos, msg, herr⟩⟩ := pipelineParse_run line p e m
    · obtain ⟨vs', hcount, hread, hmeans'⟩ := lineMeans_of_run hrun
      cases hmeans.unique hmeans'
      exact ⟨q, e', m', hrun, hcount, hread⟩
    · cases hmeans.unique herr

/-- **One successful run stands for all.** -/
theorem Parses.of_run {line : CString} {p q : Pipeline} {e e' : Option ParseError} {m m' : Memory}
    (hrun : pipelineParse (some line) (some p) e Script.generous m
      = some ((.parseSuccess, some q, e'), m')) : ∃ vs, q.read = some vs ∧ Parses line vs := by
  obtain ⟨vs, -, hread, hmeans⟩ := lineMeans_of_run hrun
  exact ⟨vs, hread, parses_iff.mpr hmeans⟩

end SystemsCourse
