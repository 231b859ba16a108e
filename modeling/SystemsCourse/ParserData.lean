import SystemsCourse.CString

/-!
# The parser's data

The structs of `parser.h` and `parser.c`, field by field, with their pointers into
the heap; and beside each the *value* it stands for once the pointers are
followed: a `Lexeme` for a token, a `Target` for a redirection, a `CommandValue`
for a command.  `read` follows the pointers and fails where one of them leads to
nothing; `blocks` collects the heap blocks reachable from a struct.

`Holds` ties a struct to its value as the parser maintains it — counts, the null
behind the last argument, and every field a redirection does not use left zero.
-/
namespace SystemsCourse

/-- `PARSE_SUCCESS` and `PARSE_FAILED`. -/
inductive ParseStatus where
  | parseSuccess
  | parseFailed
deriving DecidableEq

/-- `TokenType`. -/
inductive TokenType where
  | tokWord
  | tokPipe
  | tokIn
  | tokOut
  | tokEnd
deriving DecidableEq

/-- `RedirectType`. -/
inductive RedirectType where
  | redirectNone
  | redirectFile
  | redirectTcp
deriving DecidableEq

/-- `Token`. -/
structure Token where
  type : TokenType
  text : Ptr Byte
  pos : Nat

/-- `TokenList`. -/
structure TokenList where
  v : Ptr Token
  n : Nat
  cap : Nat

/-- `Buffer`. -/
structure Buffer where
  v : Ptr Byte
  n : Nat
  cap : Nat

/-- `Redirect`. -/
structure Redirect where
  type : RedirectType
  path : Ptr Byte
  host : Ptr Byte
  port : UInt16

/-- `Command`. -/
structure Command where
  argv : Ptr (Ptr Byte)
  argc : Nat
  input : Redirect
  output : Redirect

/-- `Pipeline`. -/
structure Pipeline where
  commands : Ptr Command
  commandCount : Nat

/-- `ParseError`. -/
@[ext] structure ParseError where
  position : Nat
  message : String
deriving DecidableEq

/-! ## The structs cleared by `memset` or `= {0}` -/

def TokenList.zero : TokenList := ⟨none, 0, 0⟩
def Buffer.zero : Buffer := ⟨none, 0, 0⟩
def Redirect.zero : Redirect := ⟨.redirectNone, none, none, 0⟩
def Command.zero : Command := ⟨none, 0, Redirect.zero, Redirect.zero⟩
def Pipeline.zero : Pipeline := ⟨none, 0⟩
def ParseError.zero : ParseError := ⟨0, ""⟩

/-! ## Reporting an error -/

/-- `MAXERROR`. -/
def maxError : Nat := 1024

/-- `snprintf(e->message, sizeof e->message, "%s", msg)`. -/
def snprintfMessage (msg : String) : String := String.ofList (msg.toList.take (maxError - 1))

/-- `parseerror_set_error`: nothing is reported through a null pointer. -/
def parseerrorSetError (e : Option ParseError) (p : Nat) (msg : String) : Option ParseError :=
  match e with
  | none => none
  | some _ => some ⟨p, snprintfMessage msg⟩

/-! ## Values -/

/-- What a token says. -/
@[ext] structure Lexeme where
  type : TokenType
  text : Option CString
  pos : Nat
deriving DecidableEq

/-- What a redirection says. -/
inductive Target where
  | none
  | file (path : CString)
  | tcp (host : CString) (port : UInt16)
deriving DecidableEq

/-- `"tcp:"`. -/
def tcpPrefix : List Byte := [ch 't', ch 'c', ch 'p', ch ':']

/-- A target that a redirection can have: the path of a file does not begin with
`tcp:`; the host of an endpoint is not empty, and can be told from its port with
brackets (no `]`) or without (no `:`, and no `[` in front). -/
def Target.WellFormed : Target → Prop
  | .none => True
  | .file path => ¬ tcpPrefix <+: path.bytes
  | .tcp host port => host ≠ CString.empty ∧
      (ch ']' ∉ host.bytes ∨ (ch ':' ∉ host.bytes ∧ host.bytes.head? ≠ some (ch '['))) ∧
      1 ≤ port.toNat ∧ port.toNat ≤ 65535

/-- What a command says. -/
@[ext] structure CommandValue where
  argv : List CString
  input : Target
  output : Target
deriving DecidableEq

/-- The command without words and redirections. -/
def CommandValue.zero : CommandValue := ⟨[], .none, .none⟩

/-- The string a pointer that may be null stands for. -/
def Ptr.optString : Ptr Byte → Option (Option CString)
  | none => some none
  | some b => (Ptr.string (some b)).map some

theorem Ptr.optString_none : Ptr.optString none = some none := rfl

theorem Ptr.optString_of_string {p : Ptr Byte} {s : CString} (h : p.string = some s) :
    p.optString = some (some s) := by
  cases p with
  | none => cases h
  | some b => rw [optString, h]; rfl

def Token.read (x : Token) : Option Lexeme :=
  x.text.optString.map fun text => ⟨x.type, text, x.pos⟩

def TokenList.read (t : TokenList) : Option (List Lexeme) := do
  (← t.v.items t.n).mapM Token.read

def Redirect.read (r : Redirect) : Option Target :=
  match r.type with
  | .redirectNone => some .none
  | .redirectFile => r.path.string.map .file
  | .redirectTcp => r.host.string.map (.tcp · r.port)

def Command.read (c : Command) : Option CommandValue := do
  let argv ← (← c.argv.items c.argc).mapM Ptr.string
  return ⟨argv, ← c.input.read, ← c.output.read⟩

def Pipeline.read (p : Pipeline) : Option (List CommandValue) := do
  (← p.commands.items p.commandCount).mapM Command.read

/-! ## Reachable blocks -/

def Token.blocks (x : Token) : Multiset Addr := x.text.own

def TokenList.blocks (t : TokenList) : Multiset Addr :=
  (((t.v.items t.n).getD []).map Token.blocks).sum + t.v.own

def Redirect.blocks (r : Redirect) : Multiset Addr := r.path.own + r.host.own

def Command.blocks (c : Command) : Multiset Addr :=
  (((c.argv.items c.argc).getD []).map Ptr.own).sum + c.argv.own + c.input.blocks + c.output.blocks

def Pipeline.blocks (p : Pipeline) : Multiset Addr :=
  (((p.commands.items p.commandCount).getD []).map Command.blocks).sum + p.commands.own

@[simp] theorem TokenList.blocks_zero : TokenList.zero.blocks = 0 := rfl

@[simp] theorem Redirect.blocks_zero : Redirect.zero.blocks = 0 := rfl

@[simp] theorem Command.blocks_zero : Command.zero.blocks = 0 := rfl

@[simp] theorem Pipeline.blocks_zero : Pipeline.zero.blocks = 0 := rfl

/-! ## Structs as the parser maintains them -/

/-- The token list `t` consists of the tokens `xs`. -/
structure TokenList.Holds (t : TokenList) (xs : List Token) : Prop where
  count : t.n = xs.length
  array : t.v.Holds t.cap xs

/-- The word buffer `b` holds the characters `cs`, and behind them a zero byte once
there is a character; until then it has no block. -/
structure Buffer.Holds (b : Buffer) (cs : List Byte) : Prop where
  count : b.n = cs.length
  array : b.v.HoldsTerminated b.cap 0 cs
  null : cs = [] → b.v = none

/-- The redirection `r` stands for a target; what that kind of target does not use
is zero. -/
def Redirect.Holds (r : Redirect) : Target → Prop
  | .none => r = Redirect.zero
  | .file path => r.type = .redirectFile ∧ r.path.string = some path ∧ r.host = none ∧ r.port = 0
  | .tcp host port =>
      r.type = .redirectTcp ∧ r.path = none ∧ r.host.string = some host ∧ r.port = port

/-- The command `c`, with an argument vector of `cap` cells, has the argument
pointers `args` and stands for `v`. -/
structure Command.Holds (c : Command) (cap : Nat) (args : List (Ptr Byte)) (v : CommandValue) :
    Prop where
  count : c.argc = args.length
  array : c.argv.HoldsTerminated cap none args
  words : args.mapM Ptr.string = some v.argv
  input : c.input.Holds v.input
  output : c.output.Holds v.output

/-- The pipeline `p`, with an array of `cap` cells, has the commands `cs`. -/
structure Pipeline.Holds (p : Pipeline) (cap : Nat) (cs : List Command) : Prop where
  count : p.commandCount = cs.length
  array : p.commands.Holds cap cs

theorem TokenList.holds_zero : TokenList.zero.Holds [] := ⟨rfl, Ptr.holds_none⟩

theorem Buffer.holds_zero : Buffer.zero.Holds [] :=
  ⟨rfl, Ptr.holdsTerminated_none 0, fun _ => rfl⟩

theorem Command.holds_zero : Command.zero.Holds 0 [] CommandValue.zero :=
  ⟨rfl, Ptr.holdsTerminated_none none, rfl, rfl, rfl⟩

theorem Pipeline.holds_zero : Pipeline.zero.Holds 0 [] := ⟨rfl, Ptr.holds_none⟩

theorem TokenList.Holds.items {t : TokenList} {xs : List Token} (h : t.Holds xs) :
    t.v.items t.n = some xs := by
  rw [h.count]
  exact h.array.items

theorem Command.Holds.items {c : Command} {cap : Nat} {args : List (Ptr Byte)} {v : CommandValue}
    (h : c.Holds cap args v) : c.argv.items c.argc = some args := by
  rw [h.count]
  exact h.array.1.items

theorem Pipeline.Holds.items {p : Pipeline} {cap : Nat} {cs : List Command} (h : p.Holds cap cs) :
    p.commands.items p.commandCount = some cs := by
  rw [h.count]
  exact h.array.items

theorem TokenList.Holds.blocks {t : TokenList} {xs : List Token} (h : t.Holds xs) :
    t.blocks = (xs.map Token.blocks).sum + t.v.own := by
  rw [TokenList.blocks, h.items]
  rfl

theorem Command.Holds.blocks {c : Command} {cap : Nat} {args : List (Ptr Byte)} {v : CommandValue}
    (h : c.Holds cap args v) :
    c.blocks = (args.map Ptr.own).sum + c.argv.own + c.input.blocks + c.output.blocks := by
  rw [Command.blocks, h.items]
  rfl

theorem Pipeline.Holds.blocks {p : Pipeline} {cap : Nat} {cs : List Command} (h : p.Holds cap cs) :
    p.blocks = (cs.map Command.blocks).sum + p.commands.own := by
  rw [Pipeline.blocks, h.items]
  rfl

theorem TokenList.Holds.read {t : TokenList} {xs : List Token} (h : t.Holds xs) :
    t.read = xs.mapM Token.read := by
  rw [TokenList.read, h.items]
  rfl

theorem Redirect.Holds.read {r : Redirect} {target : Target} (h : r.Holds target) :
    r.read = some target := by
  cases target with
  | none => rw [show r = Redirect.zero from h]; rfl
  | file path =>
    obtain ⟨htype, hpath, _, _⟩ := h
    rw [Redirect.read, htype]
    simp [hpath]
  | tcp host port =>
    obtain ⟨htype, _, hhost, hport⟩ := h
    rw [Redirect.read, htype]
    simp [hhost, hport]

theorem Command.Holds.read {c : Command} {cap : Nat} {args : List (Ptr Byte)} {v : CommandValue}
    (h : c.Holds cap args v) : c.read = some v := by
  simp [Command.read, h.items, h.words, h.input.read, h.output.read]

theorem Pipeline.Holds.read {p : Pipeline} {cap : Nat} {cs : List Command} (h : p.Holds cap cs) :
    p.read = cs.mapM Command.read := by
  rw [Pipeline.read, h.items]
  rfl

/-- The word buffer's text, once it has a character. -/
theorem Buffer.Holds.string {b : Buffer} {s : CString} (h : b.Holds s.bytes) (hs : s.bytes ≠ []) :
    b.v.string = some s :=
  (h.array.2 hs).string

end SystemsCourse
