import SystemsCourse.TargetWriter
import SystemsCourse.TerminatedLines

/-!
# `pipeline_print` loses nothing

`pipeline_print` writes one line for each argument and two for the redirections of
each command.  The strings in them are written as they are, and may contain
whatever the labels consist of; but each line begins with what says which line it is,
and in front of the decimal port stands the last colon of its line.  So the text
determines what the pipeline says, as long as no string of it contains a newline
(`pipelinePrint_injective`).
-/
namespace SystemsCourse

/-! ## The code -/

/-- The characters of a format string. -/
def text (s : String) : List Byte := s.toList.map ch

/-- `print_redirect`, as the text that it prints. -/
def printRedirect (label : String) (r : Redirect) : Option (List Byte) :=
  match r.type with
  | .redirectNone => some (text "  " ++ text label ++ text ": default\n")
  | .redirectFile => do
      let path ← r.path.string
      return text "  " ++ text label ++ text ": file " ++ path.bytes ++ text "\n"
  | .redirectTcp => do
      let host ← r.host.string
      return text "  " ++ text label ++ text ": tcp " ++ host.bytes ++ text ":" ++
        decimal r.port.toNat ++ text "\n"

/-- The inner loop of `pipeline_print`, from argument `j` on. -/
def printArgs (j : Nat) : List (Ptr Byte) → Option (List Byte)
  | [] => some []
  | arg :: args => do
      let s ← arg.string
      let rest ← printArgs (j + 1) args
      return text "  argv[" ++ decimal j ++ text "]=<" ++ s.bytes ++ text ">\n" ++ rest

/-- The outer loop of `pipeline_print`, from command `i` on. -/
def printCommands (i : Nat) : List Command → Option (List Byte)
  | [] => some []
  | c :: cs => do
      let args ← printArgs 0 (← c.argv.items c.argc)
      let input ← printRedirect "input" c.input
      let output ← printRedirect "output" c.output
      let rest ← printCommands (i + 1) cs
      return text "command[" ++ decimal i ++ text "]\n" ++ args ++ input ++ output ++ rest

/-- `pipeline_print`, as the text that it prints. -/
def pipelinePrint (p : Pipeline) : Option (List Byte) := do
  let rest ← printCommands 0 (← p.commands.items p.commandCount)
  return text "commands=" ++ decimal p.commandCount ++ text "\n" ++ rest

/-! ## The lines of the text -/

/-- What stands behind the label of a redirection. -/
def targetText : Target → List Byte
  | .none => text ": default"
  | .file path => text ": file " ++ path.bytes
  | .tcp host port => text ": tcp " ++ (host.bytes ++ ch ':' :: decimal port.toNat)

/-- The line of a redirection. -/
def redirectLine (label : String) (target : Target) : List Byte :=
  text "  " ++ text label ++ targetText target

/-- The line of argument `j`. -/
def argLine (j : Nat) (arg : CString) : List Byte :=
  text "  argv[" ++ decimal j ++ text "]=<" ++ arg.bytes ++ text ">"

/-- The lines of the arguments, from number `j` on. -/
def argLines (j : Nat) : List CString → List (List Byte)
  | [] => []
  | arg :: args => argLine j arg :: argLines (j + 1) args

/-- The line in front of command `i`. -/
def commandLine (i : Nat) : List Byte := text "command[" ++ decimal i ++ text "]"

/-- The lines of the commands, from number `i` on. -/
def commandLines (i : Nat) : List CommandValue → List (List Byte)
  | [] => []
  | v :: vs => commandLine i :: (argLines 0 v.argv ++
      redirectLine "input" v.input :: redirectLine "output" v.output :: commandLines (i + 1) vs)

/-- The lines of a pipeline. -/
def pipelineLines (vs : List CommandValue) : List (List Byte) :=
  (text "commands=" ++ decimal vs.length) :: commandLines 0 vs

theorem printRedirect_eq {label : String} {r : Redirect} {target : Target} (h : r.read = some target) :
    printRedirect label r = some (redirectLine label target ++ [ch '\n']) := by
  unfold Redirect.read at h
  unfold printRedirect
  cases htype : r.type with
  | redirectNone =>
    rw [htype] at h
    cases h
    simp [redirectLine, targetText, text]
  | redirectFile =>
    rw [htype] at h
    obtain ⟨path, hpath, rfl⟩ := Option.map_eq_some_iff.mp h
    simp [redirectLine, targetText, text, hpath]
  | redirectTcp =>
    rw [htype] at h
    obtain ⟨host, hhost, rfl⟩ := Option.map_eq_some_iff.mp h
    simp [redirectLine, targetText, text, hhost]

theorem printArgs_eq {args : List (Ptr Byte)} {argv : List CString} (j : Nat)
    (h : args.mapM Ptr.string = some argv) : printArgs j args = some (unlines (ch '\n') (argLines j argv)) := by
  induction args generalizing j argv with
  | nil =>
    cases h
    rfl
  | cons arg args ih =>
    simp only [List.mapM_cons, Option.bind_eq_bind, Option.bind_eq_some_iff, Option.pure_def,
      Option.some.injEq] at h
    obtain ⟨s, hs, argv', hargv, rfl⟩ := h
    simp [printArgs, hs, ih (j + 1) hargv, argLines, argLine, text]

theorem printCommands_eq {cs : List Command} {vs : List CommandValue} (i : Nat)
    (h : cs.mapM Command.read = some vs) :
    printCommands i cs = some (unlines (ch '\n') (commandLines i vs)) := by
  induction cs generalizing i vs with
  | nil =>
    cases h
    rfl
  | cons c cs ih =>
    simp only [List.mapM_cons, Option.bind_eq_bind, Option.bind_eq_some_iff, Option.pure_def,
      Option.some.injEq] at h
    obtain ⟨v, hv, vs', hvs, rfl⟩ := h
    simp only [Command.read, Option.bind_eq_bind, Option.bind_eq_some_iff, Option.pure_def,
      Option.some.injEq] at hv
    obtain ⟨args, hargs, argv, hargv, input, hinput, output, houtput, rfl⟩ := hv
    simp [printCommands, hargs, printArgs_eq 0 hargv, printRedirect_eq hinput, printRedirect_eq houtput,
      ih (i + 1) hvs, commandLines, commandLine, text]

/-- **What is printed** of a pipeline that stands for `vs`. -/
theorem pipelinePrint_eq {p : Pipeline} {vs : List CommandValue} (h : p.read = some vs) :
    p.commandCount = vs.length ∧ pipelinePrint p = some (unlines (ch '\n') (pipelineLines vs)) := by
  unfold Pipeline.read at h
  simp only [Option.bind_eq_bind, Option.bind_eq_some_iff] at h
  obtain ⟨cs, hcs, hvs⟩ := h
  have hcount : p.commandCount = vs.length := by
    rw [← Ptr.length_of_items hcs, (getElem_of_mapM hvs).1]
  refine ⟨hcount, ?_⟩
  rw [pipelinePrint, hcs, hcount]
  simp [printCommands_eq 0 hvs, pipelineLines, text]

/-! ## The lines determine the pipeline -/

theorem argLine_injective {j : Nat} {s t : CString} (h : argLine j s = argLine j t) : s = t :=
  CString.ext (List.append_cancel_left (List.append_cancel_right h))

theorem decimal_injective {m n : Nat} (h : decimal m = decimal n) : m = n := by
  rw [← decimalValue_decimal m, h, decimalValue_decimal]

/-- There is no colon in a port. -/
theorem colon_notMem_decimal (n : Nat) : ch ':' ∉ decimal n := fun h =>
  (ne_of_isdigit (isdigit_of_mem_decimal h)).2.2.2.1 rfl

/-- The kind of a target. -/
def Target.type : Target → RedirectType
  | .none => .redirectNone
  | .file _ => .redirectFile
  | .tcp _ _ => .redirectTcp

/-- The first letter behind the label. -/
def RedirectType.initial : RedirectType → Byte
  | .redirectNone => ch 'd'
  | .redirectFile => ch 'f'
  | .redirectTcp => ch 't'

theorem RedirectType.initial_injective {t t' : RedirectType} (h : t.initial = t'.initial) : t = t' := by
  revert h
  cases t <;> cases t' <;> decide

theorem targetText_initial (d : Target) : (targetText d)[2]? = some d.type.initial := by
  cases d <;> rfl

/-- The last colon of the text of an endpoint is the one in front of the port. -/
theorem targetText_injective {d d' : Target} (h : targetText d = targetText d') : d = d' := by
  have htype : d.type = d'.type := by
    apply RedirectType.initial_injective
    rw [← Option.some_inj, ← targetText_initial, ← targetText_initial, h]
  cases d with
  | none =>
    cases d' with
    | none => rfl
    | file _ | tcp _ _ => cases htype
  | file path =>
    cases d' with
    | file path' => rw [CString.ext (List.append_cancel_left h)]
    | none | tcp _ _ => cases htype
  | tcp host port =>
    cases d' with
    | tcp host' port' =>
      obtain ⟨hhost, hport⟩ := split_at_last (colon_notMem_decimal _) (colon_notMem_decimal _)
        (List.append_cancel_left h)
      rw [CString.ext hhost, UInt16.toNat_inj.mp (decimal_injective hport)]
    | none | file _ => cases htype

theorem redirectLine_injective {label : String} {d d' : Target}
    (h : redirectLine label d = redirectLine label d') : d = d' :=
  targetText_injective (List.append_cancel_left h)

/-- An argument's line is no redirection's. -/
theorem argLine_ne_redirectLine (j : Nat) (s : CString) (d : Target) :
    argLine j s ≠ redirectLine "input" d := fun h =>
  absurd (show some (ch 'a') = some (ch 'i') from congrArg (·[2]?) h) (by decide)

/-- **The lines of a command determine its arguments**: behind them stands the line of
the input redirection. -/
theorem argLines_injective {j : Nat} {args args' : List CString} {d d' : Target}
    {rest rest' : List (List Byte)}
    (h : argLines j args ++ redirectLine "input" d :: rest =
      argLines j args' ++ redirectLine "input" d' :: rest') : args = args' ∧ d = d' ∧ rest = rest' := by
  induction args generalizing j args' with
  | nil =>
    cases args' with
    | nil =>
      obtain ⟨hline, hrest⟩ := List.cons.inj h
      exact ⟨rfl, redirectLine_injective hline, hrest⟩
    | cons arg' args' => exact absurd (List.cons.inj h).1.symm (argLine_ne_redirectLine _ _ _)
  | cons arg args ih =>
    cases args' with
    | nil => exact absurd (List.cons.inj h).1 (argLine_ne_redirectLine _ _ _)
    | cons arg' args' =>
      obtain ⟨hline, hrest⟩ := List.cons.inj h
      obtain ⟨rfl, rfl, rfl⟩ := ih hrest
      exact ⟨by rw [argLine_injective hline], rfl, rfl⟩

/-- **The lines determine the commands.** -/
theorem commandLines_injective {i : Nat} {vs ws : List CommandValue}
    (h : commandLines i vs = commandLines i ws) : vs = ws := by
  induction vs generalizing i ws with
  | nil =>
    cases ws with
    | nil => rfl
    | cons w ws => cases h
  | cons v vs ih =>
    cases ws with
    | nil => cases h
    | cons w ws =>
      obtain ⟨hargv, hinput, hrest⟩ := argLines_injective (List.cons.inj h).2
      obtain ⟨houtput, hrest⟩ := List.cons.inj hrest
      rw [ih hrest, CommandValue.ext hargv hinput (redirectLine_injective houtput)]

/-! ## The text determines the lines -/

/-- No string of the target contains a newline. -/
def Target.NewlineFree : Target → Prop
  | .none => True
  | .file path => ch '\n' ∉ path.bytes
  | .tcp host _ => ch '\n' ∉ host.bytes

/-- No string of the command contains a newline. -/
structure CommandValue.NewlineFree (v : CommandValue) : Prop where
  argv : ∀ arg ∈ v.argv, ch '\n' ∉ arg.bytes
  input : v.input.NewlineFree
  output : v.output.NewlineFree

theorem newline_notMem_decimal (n : Nat) : ch '\n' ∉ decimal n := fun h =>
  absurd (isdigit_of_mem_decimal h) (by decide)

theorem newline_notMem_redirectLine {label : String} (hlabel : ch '\n' ∉ text label) {d : Target}
    (hd : d.NewlineFree) : ch '\n' ∉ redirectLine label d := by
  have hfront : ch '\n' ∉ text "  " ++ text label :=
    List.not_mem_append (by decide) hlabel
  refine List.not_mem_append hfront ?_
  cases d with
  | none => decide
  | file path => exact List.not_mem_append (by decide) hd
  | tcp host port =>
    refine List.not_mem_append (by decide) (List.not_mem_append hd ?_)
    exact List.not_mem_cons_of_ne_of_not_mem (by decide) (newline_notMem_decimal _)

theorem newline_notMem_argLines {args : List CString} (h : ∀ arg ∈ args, ch '\n' ∉ arg.bytes) (j : Nat) :
    ∀ l ∈ argLines j args, ch '\n' ∉ l := by
  induction args generalizing j with
  | nil => nofun
  | cons arg args ih =>
    refine List.forall_mem_cons.mpr ⟨?_, ih (fun a ha => h a (List.mem_cons_of_mem _ ha)) (j + 1)⟩
    have hnumber : ch '\n' ∉ text "  argv[" ++ decimal j :=
      List.not_mem_append (by decide) (newline_notMem_decimal j)
    exact List.not_mem_append (List.not_mem_append (List.not_mem_append hnumber (by decide))
      (h arg List.mem_cons_self)) (by decide)

theorem newline_notMem_commandLines {vs : List CommandValue} (h : ∀ v ∈ vs, v.NewlineFree) (i : Nat) :
    ∀ l ∈ commandLines i vs, ch '\n' ∉ l := by
  induction vs generalizing i with
  | nil => nofun
  | cons v vs ih =>
    have hv := h v List.mem_cons_self
    refine List.forall_mem_cons.mpr ⟨?_, List.forall_mem_append.mpr
      ⟨newline_notMem_argLines hv.argv 0, List.forall_mem_cons.mpr ⟨?_, List.forall_mem_cons.mpr
        ⟨?_, ih (fun w hw => h w (List.mem_cons_of_mem _ hw)) (i + 1)⟩⟩⟩⟩
    · exact List.not_mem_append (List.not_mem_append (by decide) (newline_notMem_decimal i)) (by decide)
    · exact newline_notMem_redirectLine (by decide) hv.input
    · exact newline_notMem_redirectLine (by decide) hv.output

theorem newline_notMem_pipelineLines {vs : List CommandValue} (h : ∀ v ∈ vs, v.NewlineFree) :
    ∀ l ∈ pipelineLines vs, ch '\n' ∉ l :=
  List.forall_mem_cons.mpr ⟨List.not_mem_append (by decide) (newline_notMem_decimal _),
    newline_notMem_commandLines h 0⟩

/-- **`pipeline_print` loses nothing.**  Two pipelines whose strings contain no newline
and for which the same text is printed say the same, command by command. -/
theorem pipelinePrint_injective {p q : Pipeline} {vs ws : List CommandValue} (hp : p.read = some vs)
    (hq : q.read = some ws) (hvs : ∀ v ∈ vs, v.NewlineFree) (hws : ∀ w ∈ ws, w.NewlineFree)
    (h : pipelinePrint p = pipelinePrint q) : p.commandCount = q.commandCount ∧ vs = ws := by
  obtain ⟨hcount, hprint⟩ := pipelinePrint_eq hp
  obtain ⟨hcount', hprint'⟩ := pipelinePrint_eq hq
  rw [hprint, hprint', Option.some_inj] at h
  have hlines := unlines_injective (newline_notMem_pipelineLines hvs) (newline_notMem_pipelineLines hws) h
  have hvalues := commandLines_injective (List.cons.inj hlines).2
  exact ⟨by rw [hcount, hcount', hvalues], hvalues⟩

/-- `producer > tcp:localhost:9000`, in four blocks from `a` on. -/
def producer (a : Addr) : Pipeline :=
  let string (a : Addr) (s : String) : Ptr Byte := some ⟨a, (text s ++ [0]).map some⟩
  ⟨some ⟨a, [some ⟨some ⟨a + 1, [some (string (a + 2) "producer"), some none]⟩, 1, Redirect.zero,
    ⟨.redirectTcp, none, string (a + 3) "localhost", 9000⟩⟩]⟩, 1⟩

/-- Two copies of one pipeline. -/
theorem pipelinePrint_injective_producer : ∃ vs ws, (producer 0).read = some vs ∧
    (producer 4).read = some ws ∧ (producer 0).commandCount = (producer 4).commandCount ∧ vs = ws := by
  have hv : (⟨[⟨text "producer", by decide⟩], .none, .tcp ⟨text "localhost", by decide⟩ 9000⟩ :
      CommandValue).NewlineFree := ⟨by decide, trivial, show ch '\n' ∉ text "localhost" by decide⟩
  have hvs := List.forall_mem_singleton.mpr hv
  have hread (a : Addr) : (producer a).read = some [_] := rfl
  exact ⟨_, _, hread 0, hread 4, pipelinePrint_injective (hread 0) (hread 4) hvs hvs rfl⟩

end SystemsCourse
