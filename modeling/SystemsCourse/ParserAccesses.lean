import SystemsCourse.LoggedProgram
import SystemsCourse.ParseRefinement

/-!
# What the lexer and the parser read

Neither `tokenize` nor `pipeline_parse` compares an index with a length.  `Traced`
holds their code once more, with a log of the accesses that this makes delicate:
the indices at which the line is read, the indices at which the token list is
read, the pointers handed on as strings, and the branch for a token that is
neither a word nor an operator.  Erasing the log gives back the code of `Tokenize`
and `PipelineParse` (`erase_tokenize`, `erase_pipelineParse`).
-/
namespace SystemsCourse

/-- What the traced code writes down. -/
inductive Access where
  /-- A pass of the outer loop of `tokenize` begins at `i`. -/
  | scanPass (i : Nat)
  /-- `s[i]` is read. -/
  | readChar (i : Nat)
  /-- The branch that reports `invalid token` is taken. -/
  | invalidToken
  /-- `t.v[i]` is read, in a list of `n` tokens. -/
  | readToken (n i : Nat)
  /-- A token's text is passed to `command_add_arg` or `redirect_set`. -/
  | passText (text : Ptr Byte)

namespace Traced
open Logged
open Prog (LoopStep)

/-! ## `tokenize` -/

/-- Read `s[i]`. -/
def charAt (s : CString) (i : Nat) : Logged Access Byte := do
  log (.readChar i)
  lift (Prog.charAt s i)

/-- One pass of `while (isspace((unsigned char)s[i])) i++;`. -/
def spacePass (s : CString) (i : Nat) : Logged Access (LoopStep Nat Nat) := do
  let c ← charAt s i
  return if isspace c then .again (i + 1) else .done i

/-- One pass of the word loop. -/
def wordPass (s : CString) (w : WordScan) :
    Logged Access (LoopStep WordScan (ParseStatus × WordScan)) := do
  let c ← charAt s w.i
  if c = 0 then return .done (.parseSuccess, w)
  if w.quote = 0 ∧ (isspace c ∨ c = ch '|' ∨ c = ch '<' ∨ c = ch '>') then
    return .done (.parseSuccess, w)
  if w.quote = 0 ∧ (c = singleQuote ∨ c = doubleQuote) then
    return .again { w with quote := c, quotePos := w.i, i := w.i + 1, started := true }
  if w.quote ≠ 0 ∧ c = w.quote then
    return .again { w with quote := 0, i := w.i + 1 }
  lift (wordChar w c)

/-- One pass of the outer loop. -/
def tokenizePass (s : CString) (e : Option ParseError) (st : TokenScan) :
    Logged Access (LoopStep TokenScan (ScanExit × TokenScan)) := do
  log (.scanPass st.i)
  let c ← charAt s st.i
  if c = 0 then return .done (.loopEnd, st)
  let i ← loop (spacePass s) (s.length + 1) st.i
  let c ← charAt s i
  if c = 0 then return .done (.loopEnd, ⟨i, st.t⟩)
  let start := i
  if c = ch '|' then return ← lift (operatorPass st.t i .tokPipe)
  if c = ch '<' then return ← lift (operatorPass st.t i .tokIn)
  if c = ch '>' then return ← lift (operatorPass st.t i .tokOut)
  let (r, w) ← loop (wordPass s) (s.length + 1) ⟨i, Buffer.zero, 0, 0, false⟩
  if r = .parseFailed then return .done (.outofmemory, ⟨w.i, st.t⟩)
  if w.quote ≠ 0 then
    lift (Prog.free w.b.v)
    return .done (.reported (parseerrorSetError e w.quotePos "unterminated quote"), ⟨w.i, st.t⟩)
  if w.started = false then
    log .invalidToken
    lift (Prog.free w.b.v)
    return .done (.reported (parseerrorSetError e start "invalid token"), ⟨w.i, st.t⟩)
  lift (wordToken st.t start w.i w.b.v)

/-- `tokenize`. -/
def tokenize (s : CString) (t : TokenList) (e : Option ParseError) :
    Logged Access (ParseStatus × TokenList × Option ParseError) := do
  let (exit, st) ← loop (tokenizePass s e) (s.length + 1) ⟨0, t⟩
  match exit with
  | .reported e => return (.parseFailed, st.t, e)
  | .outofmemory => return (.parseFailed, st.t, parseerrorSetError e st.i "out of memory")
  | .loopEnd =>
      let (r, t) ← lift (tokenlistAddtoken st.t .tokEnd none st.i)
      if r = .parseFailed then
        return (.parseFailed, t, parseerrorSetError e st.i "out of memory")
      return (.parseSuccess, t, e)

theorem erase_charAt (s : CString) (i : Nat) : erase (charAt s i) = Prog.charAt s i := by
  rw [charAt, erase_bind, erase_log, erase_lift]
  rfl

theorem erase_spacePass (s : CString) (i : Nat) :
    erase (spacePass s i) = SystemsCourse.spacePass s i := by
  simp only [spacePass, SystemsCourse.spacePass, erase_bind, erase_charAt, erase_pure]

theorem erase_wordPass (s : CString) (w : WordScan) :
    erase (wordPass s w) = SystemsCourse.wordPass s w := by
  simp only [wordPass, SystemsCourse.wordPass, erase_bind, erase_charAt, erase_ite, erase_pure,
    erase_lift]

theorem erase_tokenizePass (s : CString) (e : Option ParseError) (st : TokenScan) :
    erase (tokenizePass s e st) = SystemsCourse.tokenizePass s e st := by
  simp only [tokenizePass, SystemsCourse.tokenizePass, erase_bind, erase_log, erase_charAt,
    erase_ite, erase_pure, erase_lift, erase_loop (erase_spacePass s), erase_loop (erase_wordPass s)]
  rfl

theorem erase_tokenize (s : CString) (t : TokenList) (e : Option ParseError) :
    erase (tokenize s t e) = SystemsCourse.tokenize s t e := by
  simp only [tokenize, SystemsCourse.tokenize, erase_bind, erase_loop (erase_tokenizePass s e)]
  congr 1
  funext out
  obtain ⟨exit, st⟩ := out
  cases exit with
  | reported e' => rfl
  | outofmemory => rfl
  | loopEnd => simp only [erase_bind, erase_lift, erase_ite, erase_pure]

/-! ## `pipeline_parse` -/

/-- Read `t.v[i]`. -/
def tokenAt (t : TokenList) (i : Nat) : Logged Access Token := do
  log (.readToken t.n i)
  lift (Prog.load t.v i)

/-- The branch for a word. -/
def wordItem (st : CommandScan) (tok : Token) :
    Logged Access (LoopStep CommandScan (ParseStatus × CommandScan)) := do
  log (.passText tok.text)
  lift (SystemsCourse.wordItem st tok)

/-- The branch for a redirection. -/
def redirectionItem (t : TokenList) (st : CommandScan) (tok : Token) :
    Logged Access (LoopStep CommandScan (ParseStatus × CommandScan)) := do
  let op := tok.type
  let pos := tok.pos
  let i := st.i + 1
  let target ← tokenAt t i
  if target.type ≠ .tokWord then
    let c ← lift (commandFree st.c)
    return .done (.parseFailed,
      ⟨i, c, st.acap, parseerrorSetError st.e pos "redirection requires a target"⟩)
  log (.passText target.text)
  let (r, redirect, e) ← lift (redirectSet (st.c.redirection op) target.text st.e target.pos)
  let c := st.c.setRedirection op redirect
  if r = .parseFailed then
    let c ← lift (commandFree c)
    return .done (.parseFailed, ⟨i, c, st.acap, e⟩)
  return .again ⟨i + 1, c, st.acap, e⟩

/-- One pass of the inner loop. -/
def itemPass (t : TokenList) (st : CommandScan) :
    Logged Access (LoopStep CommandScan (ParseStatus × CommandScan)) := do
  let tok ← tokenAt t st.i
  if tok.type = .tokPipe ∨ tok.type = .tokEnd then return .done (.parseSuccess, st)
  if tok.type = .tokWord then wordItem st tok
  else redirectionItem t st tok

/-- The end of a pass of the outer loop. -/
def commandEnd (t : TokenList) (st : ParseScan) (cs : CommandScan) :
    Logged Access (LoopStep ParseScan (ParseStatus × ParseScan)) := do
  let tok ← tokenAt t cs.i
  if cs.c.argc = 0 then
    let _ ← lift (commandFree cs.c)
    return .done (.parseFailed, ⟨cs.i, st.p, st.pcap,
      parseerrorSetError cs.e tok.pos "redirection must belong to a command"⟩)
  let (r, p, pcap, c) ← lift (commandAdd st.p st.pcap cs.c)
  if r = .parseFailed then
    let _ ← lift (commandFree c)
    return .done (.parseFailed, ⟨cs.i, p, pcap, parseerrorSetError cs.e tok.pos "out of memory"⟩)
  if tok.type ≠ .tokPipe then return .again ⟨cs.i, p, pcap, cs.e⟩
  let next ← tokenAt t (cs.i + 1)
  if next.type = .tokEnd then
    return .done (.parseFailed, ⟨cs.i + 1, p, pcap,
      parseerrorSetError cs.e tok.pos "expected command after '|'"⟩)
  return .again ⟨cs.i + 1, p, pcap, cs.e⟩

/-- One pass of the outer loop. -/
def commandPass (t : TokenList) (st : ParseScan) :
    Logged Access (LoopStep ParseScan (ParseStatus × ParseScan)) := do
  let tok ← tokenAt t st.i
  if tok.type = .tokEnd then return .done (.parseSuccess, st)
  if tok.type = .tokPipe then
    let _ ← lift (commandFree Command.zero)
    return .done (.parseFailed,
      { st with e := parseerrorSetError st.e tok.pos "expected command before '|'" })
  let (r, cs) ← loop (itemPass t) (t.n + 1) ⟨st.i, Command.zero, 0, st.e⟩
  if r = .parseFailed then return .done (.parseFailed, ⟨cs.i, st.p, st.pcap, cs.e⟩)
  commandEnd t st cs

/-- `pipeline_parse`. -/
def pipelineParse (line : Option CString) (p : Option Pipeline) (e : Option ParseError) :
    Logged Access (ParseStatus × Option Pipeline × Option ParseError) :=
  match line, p with
  | some line, some _ => do
      let p := Pipeline.zero
      let e := e.map fun _ => ParseError.zero
      let (r, t, e) ← tokenize line TokenList.zero e
      if r = .parseFailed then
        let _ ← lift (tokenlistFree t)
        return (.parseFailed, some p, e)
      let (r, st) ← loop (commandPass t) (t.n + 1) ⟨0, p, 0, e⟩
      let _ ← lift (tokenlistFree t)
      if r = .parseFailed then
        let p ← lift (pipelineFree (some st.p))
        return (.parseFailed, p, st.e)
      return (.parseSuccess, some st.p, st.e)
  | _, p => return (.parseFailed, p, e)

theorem erase_tokenAt (t : TokenList) (i : Nat) : erase (tokenAt t i) = Prog.load t.v i := by
  rw [tokenAt, erase_bind, erase_log, erase_lift]
  rfl

theorem erase_wordItem (st : CommandScan) (tok : Token) :
    erase (wordItem st tok) = SystemsCourse.wordItem st tok := by
  rw [wordItem, erase_bind, erase_log, erase_lift]
  rfl

theorem erase_redirectionItem (t : TokenList) (st : CommandScan) (tok : Token) :
    erase (redirectionItem t st tok) = SystemsCourse.redirectionItem t st tok := by
  simp only [redirectionItem, SystemsCourse.redirectionItem, erase_bind, erase_log, erase_tokenAt,
    erase_ite, erase_pure, erase_lift]
  rfl

theorem erase_itemPass (t : TokenList) (st : CommandScan) :
    erase (itemPass t st) = SystemsCourse.itemPass t st := by
  simp only [itemPass, SystemsCourse.itemPass, erase_bind, erase_tokenAt, erase_ite, erase_pure,
    erase_wordItem, erase_redirectionItem]

theorem erase_commandEnd (t : TokenList) (st : ParseScan) (cs : CommandScan) :
    erase (commandEnd t st cs) = SystemsCourse.commandEnd t st cs := by
  simp only [commandEnd, SystemsCourse.commandEnd, erase_bind, erase_tokenAt, erase_ite, erase_pure,
    erase_lift]

theorem erase_commandPass (t : TokenList) (st : ParseScan) :
    erase (commandPass t st) = SystemsCourse.commandPass t st := by
  simp only [commandPass, SystemsCourse.commandPass, erase_bind, erase_tokenAt, erase_ite,
    erase_pure, erase_lift, erase_loop (erase_itemPass t), erase_commandEnd]

/-- **The traced parser is the parser, with a log.** -/
theorem erase_pipelineParse (line : Option CString) (p : Option Pipeline) (e : Option ParseError) :
    erase (pipelineParse line p e) = SystemsCourse.pipelineParse line p e := by
  cases line with
  | none => rfl
  | some line =>
    cases p with
    | none => rfl
    | some p =>
      simp only [pipelineParse, SystemsCourse.pipelineParse, erase_bind, erase_tokenize, erase_ite,
        erase_pure, erase_lift, erase_loop (erase_commandPass _)]

end Traced
end SystemsCourse
