import SystemsCourse.RedirectSet
import SystemsCourse.Tokenize

/-!
# `pipeline_parse`

The parser of `parser.c`: an outer loop over commands and an inner one over the
words and redirections of a command, which share the cursor `i` into the token
list.  `parseLexemes` is the same recognition on the lexemes alone, by recursion
on the list; `ParseRefinement` proves that the code computes it.
-/
namespace SystemsCourse
open Prog

/-! ## The code -/

/-- `op == TOK_IN ? &c.input : &c.output`. -/
def Command.redirection (c : Command) (op : TokenType) : Redirect :=
  if op = .tokIn then c.input else c.output

/-- The command after a write through that pointer. -/
def Command.setRedirection (c : Command) (op : TokenType) (r : Redirect) : Command :=
  if op = .tokIn then { c with input := r } else { c with output := r }

/-- The variables of the inner loop. -/
structure CommandScan where
  i : Nat
  c : Command
  acap : Nat
  e : Option ParseError

/-- The branch for a word. -/
def wordItem (st : CommandScan) (tok : Token) : Prog (LoopStep CommandScan (ParseStatus × CommandScan)) := do
  let (r, c, acap) ← commandAddArg st.c st.acap tok.text
  if r = .parseFailed then
    let c ← commandFree c
    return .done (.parseFailed, ⟨st.i, c, acap, parseerrorSetError st.e tok.pos "out of memory"⟩)
  return .again ⟨st.i + 1, c, acap, st.e⟩

/-- The branch for a redirection. -/
def redirectionItem (t : TokenList) (st : CommandScan) (tok : Token) :
    Prog (LoopStep CommandScan (ParseStatus × CommandScan)) := do
  let op := tok.type
  let pos := tok.pos
  let i := st.i + 1
  let target ← load t.v i
  if target.type ≠ .tokWord then
    let c ← commandFree st.c
    return .done (.parseFailed,
      ⟨i, c, st.acap, parseerrorSetError st.e pos "redirection requires a target"⟩)
  let (r, redirect, e) ← redirectSet (st.c.redirection op) target.text st.e target.pos
  let c := st.c.setRedirection op redirect
  if r = .parseFailed then
    let c ← commandFree c
    return .done (.parseFailed, ⟨i, c, st.acap, e⟩)
  return .again ⟨i + 1, c, st.acap, e⟩

/-- One pass of the inner loop. -/
def itemPass (t : TokenList) (st : CommandScan) :
    Prog (LoopStep CommandScan (ParseStatus × CommandScan)) := do
  let tok ← load t.v st.i
  if tok.type = .tokPipe ∨ tok.type = .tokEnd then return .done (.parseSuccess, st)
  if tok.type = .tokWord then wordItem st tok
  else redirectionItem t st tok

/-- The variables of `pipeline_parse` that outlive a pass of its outer loop. -/
structure ParseScan where
  i : Nat
  p : Pipeline
  pcap : Nat
  e : Option ParseError

/-- The end of a pass of the outer loop, for a command that has been read up to the
token at `cs.i`. -/
def commandEnd (t : TokenList) (st : ParseScan) (cs : CommandScan) :
    Prog (LoopStep ParseScan (ParseStatus × ParseScan)) := do
  let tok ← load t.v cs.i
  if cs.c.argc = 0 then
    let _ ← commandFree cs.c
    return .done (.parseFailed, ⟨cs.i, st.p, st.pcap,
      parseerrorSetError cs.e tok.pos "redirection must belong to a command"⟩)
  let (r, p, pcap, c) ← commandAdd st.p st.pcap cs.c
  if r = .parseFailed then
    let _ ← commandFree c
    return .done (.parseFailed, ⟨cs.i, p, pcap, parseerrorSetError cs.e tok.pos "out of memory"⟩)
  if tok.type ≠ .tokPipe then return .again ⟨cs.i, p, pcap, cs.e⟩
  let next ← load t.v (cs.i + 1)
  if next.type = .tokEnd then
    return .done (.parseFailed, ⟨cs.i + 1, p, pcap,
      parseerrorSetError cs.e tok.pos "expected command after '|'"⟩)
  return .again ⟨cs.i + 1, p, pcap, cs.e⟩

/-- One pass of the outer loop. -/
def commandPass (t : TokenList) (st : ParseScan) : Prog (LoopStep ParseScan (ParseStatus × ParseScan)) := do
  let tok ← load t.v st.i
  if tok.type = .tokEnd then return .done (.parseSuccess, st)
  if tok.type = .tokPipe then
    let _ ← commandFree Command.zero
    return .done (.parseFailed,
      { st with e := parseerrorSetError st.e tok.pos "expected command before '|'" })
  let (r, cs) ← loop (itemPass t) (t.n + 1) ⟨st.i, Command.zero, 0, st.e⟩
  if r = .parseFailed then return .done (.parseFailed, ⟨cs.i, st.p, st.pcap, cs.e⟩)
  commandEnd t st cs

/-- `pipeline_parse`.  A null `line` or `p` is rejected at once; `e` may be null. -/
def pipelineParse (line : Option CString) (p : Option Pipeline) (e : Option ParseError) :
    Prog (ParseStatus × Option Pipeline × Option ParseError) :=
  match line, p with
  | some line, some _ => do
      let p := Pipeline.zero
      let e := e.map fun _ => ParseError.zero
      let (r, t, e) ← tokenize line TokenList.zero e
      if r = .parseFailed then
        let _ ← tokenlistFree t
        return (.parseFailed, some p, e)
      let (r, st) ← loop (commandPass t) (t.n + 1) ⟨0, p, 0, e⟩
      let _ ← tokenlistFree t
      if r = .parseFailed then
        let p ← pipelineFree (some st.p)
        return (.parseFailed, p, st.e)
      return (.parseSuccess, some st.p, st.e)
  | _, p => return (.parseFailed, p, e)

/-! ## The recognition on lexemes -/

def CommandValue.redirection (c : CommandValue) (op : TokenType) : Target :=
  if op = .tokIn then c.input else c.output

def CommandValue.setRedirection (c : CommandValue) (op : TokenType) (target : Target) : CommandValue :=
  if op = .tokIn then { c with input := target } else { c with output := target }

/-- The text of a lexeme. -/
def Lexeme.word (x : Lexeme) : CString := x.text.getD CString.empty

/-- A position in the line, and what is wrong there. -/
abbrev Rejection := Nat × String

/-- Recognise the rest of a line, when `done` are the commands before it and `c` is
what the current command consists of so far; `start` says that nothing of the
current command has been read. -/
def parseFrom (start : Bool) (done : List CommandValue) (c : CommandValue) :
    List Lexeme → Except Rejection (List CommandValue)
  | [] => .error (0, "")
  | x :: rest =>
      match x.type with
      | .tokEnd =>
          if start then .ok done
          else if c.argv = [] then .error (x.pos, "redirection must belong to a command")
          else .ok (done ++ [c])
      | .tokPipe =>
          if start then .error (x.pos, "expected command before '|'")
          else if c.argv = [] then .error (x.pos, "redirection must belong to a command")
          else if (rest.head?.map Lexeme.type) = some .tokEnd then
            .error (x.pos, "expected command after '|'")
          else parseFrom true (done ++ [c]) CommandValue.zero rest
      | .tokWord => parseFrom false done { c with argv := c.argv ++ [x.word] } rest
      | op =>
          match rest with
          | [] => .error (0, "")
          | y :: rest =>
              if y.type ≠ .tokWord then .error (x.pos, "redirection requires a target")
              else
                match setTarget (c.redirection op) y.word with
                | .error msg => .error (y.pos, msg)
                | .ok target => parseFrom false done (c.setRedirection op target) rest

/-- Recognise a line. -/
def parseLexemes (xs : List Lexeme) : Except Rejection (List CommandValue) :=
  parseFrom true [] CommandValue.zero xs

section Equations
variable {start : Bool} {done : List CommandValue} {c : CommandValue} {x y : Lexeme}
  {rest : List Lexeme}

theorem parseFrom_end (hx : x.type = .tokEnd) :
    parseFrom start done c (x :: rest) =
      if start then .ok done
      else if c.argv = [] then .error (x.pos, "redirection must belong to a command")
      else .ok (done ++ [c]) := by
  rw [parseFrom, hx]

theorem parseFrom_pipe (hx : x.type = .tokPipe) :
    parseFrom start done c (x :: rest) =
      if start then .error (x.pos, "expected command before '|'")
      else if c.argv = [] then .error (x.pos, "redirection must belong to a command")
      else if (rest.head?.map Lexeme.type) = some .tokEnd then
        .error (x.pos, "expected command after '|'")
      else parseFrom true (done ++ [c]) CommandValue.zero rest := by
  rw [parseFrom, hx]

/-- Where the items of a command end, there must have been a word. -/
theorem parseFrom_without_words (hx : x.type = .tokPipe ∨ x.type = .tokEnd) (hnone : c.argv = []) :
    parseFrom false done c (x :: rest)
      = .error (x.pos, "redirection must belong to a command") := by
  rcases hx with hx | hx
  · rw [parseFrom_pipe hx, if_neg nofun, if_pos hnone]
  · rw [parseFrom_end hx, if_neg nofun, if_pos hnone]

theorem parseFrom_word (hx : x.type = .tokWord) :
    parseFrom start done c (x :: rest) =
      parseFrom false done { c with argv := c.argv ++ [x.word] } rest := by
  rw [parseFrom, hx]

/-- The operators that redirect. -/
def TokenType.Redirects (type : TokenType) : Prop := type = .tokIn ∨ type = .tokOut

theorem parseFrom_redirection (hx : x.type.Redirects) :
    parseFrom start done c (x :: y :: rest) =
      if y.type ≠ .tokWord then .error (x.pos, "redirection requires a target")
      else
        match setTarget (c.redirection x.type) y.word with
        | .error msg => .error (y.pos, msg)
        | .ok target => parseFrom false done (c.setRedirection x.type target) rest := by
  rcases hx with hx | hx <;> rw [parseFrom, hx]

/-- A word or a redirection is read the same way at the start of a command. -/
theorem parseFrom_start (hpipe : x.type ≠ .tokPipe) (hend : x.type ≠ .tokEnd) :
    parseFrom start done c (x :: rest) = parseFrom false done c (x :: rest) := by
  cases hx : x.type with
  | tokPipe => exact absurd hx hpipe
  | tokEnd => exact absurd hx hend
  | tokWord => rw [parseFrom_word hx, parseFrom_word hx]
  | tokIn | tokOut => simp only [parseFrom, hx]

end Equations

end SystemsCourse
