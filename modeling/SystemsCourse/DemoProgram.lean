import SystemsCourse.CommandGrammar
import SystemsCourse.PipelinePrint

/-!
# `demo.c`

The program that parses its argument and prints what it says.  What the process leaves
behind is its exit status and what it has written; and, as the parser may be called
in a program that goes on, its heap.  `demo_outcome` is what happens for every list of
arguments and whatever requests are refused: nothing is left behind in the heap, and
the usage or the pipeline is printed, or one error is reported.

A string of the pipeline consists of characters of the line (`LineMeans.subset`); so
if there is no newline in the argument, what `demo` prints determines what it has
parsed (`demo_prints_same_iff`).
-/
namespace SystemsCourse
open Prog

/-! ## The code -/

/-- What a process leaves behind. -/
@[ext] structure Outcome where
  status : Nat
  stdout : List Byte
  stderr : List Byte

def exitSuccess : Nat := 0
def exitFailure : Nat := 1

/-- `"usage: %s <pipeline to parse>\n"`. -/
def usage (program : CString) : List Byte :=
  text "usage: " ++ program.bytes ++ text " <pipeline to parse>\n"

/-- `"parse error at %zu: %s\n"`. -/
def parseErrorLine (e : ParseError) : List Byte :=
  text "parse error at " ++ decimal e.position ++ text ": " ++ text e.message ++ text "\n"

/-- `main`, called as `program` with the arguments `args`; `p` and `e` are what the
uninitialized variables contain. -/
def demo (program : CString) (args : List CString) (p : Pipeline) (e : ParseError) : Prog Outcome :=
  match args with
  | line :: _ => do
      -- `&p` and `&e` are no null pointers
      let (r, p', e') ← pipelineParse (some line) (some p) (some e)
      let p := p'.getD p
      let e := e'.getD e
      if r = .parseFailed then return ⟨exitFailure, [], parseErrorLine e⟩
      let printed ← ofOption (pipelinePrint p)
      let _ ← pipelineFree (some p)
      return ⟨exitSuccess, printed, []⟩
  | [] => return ⟨exitFailure, usage program, []⟩

/-! ## What it leaves behind -/

/-- The text of a pipeline that stands for `vs`. -/
def printed (vs : List CommandValue) : List Byte := unlines (ch '\n') (pipelineLines vs)

/-- How `demo` ends: without an argument it prints the usage; otherwise it prints what
the first one means, or reports what is wrong with it; or a request was refused. -/
inductive DemoEnds (program : CString) (σ : Script) : List CString → Outcome → Prop where
  | usage : DemoEnds program σ [] ⟨exitFailure, usage program, []⟩
  | printed {line : CString} {args : List CString} {vs : List CommandValue} (means : LineMeans line (.ok vs)) :
      DemoEnds program σ (line :: args) ⟨exitSuccess, printed vs, []⟩
  | rejected {line : CString} {args : List CString} {pos : Nat} {msg : String}
      (means : LineMeans line (.error (pos, msg))) :
      DemoEnds program σ (line :: args) ⟨exitFailure, [], parseErrorLine ⟨pos, snprintfMessage msg⟩⟩
  | refused {line : CString} {args : List CString} {e : ParseError} (refuses : σ.Refuses) :
      DemoEnds program σ (line :: args) ⟨exitFailure, [], parseErrorLine e⟩

theorem demo_spec (program : CString) (args : List CString) (p : Pipeline) (e : ParseError) (σ : Script)
    (m : Memory) : wp (demo program args p e) σ
      (fun out m' => m'.ledger.live = m.ledger.live ∧ DemoEnds program σ args out) m := by
  cases args with
  | nil => exact wp_iff.mpr ⟨_, m, rfl, rfl, .usage⟩
  | cons line args =>
    refine wp_seq (pipelineParse_spec line p (some e) rfl) ?_
    rintro ⟨r, _, e'⟩ m₁ ⟨q, rfl, hlive, hstatus⟩
    rcases hstatus with ⟨rfl, cap, vs, hbuilt, hmeans⟩ | ⟨rfl, rfl, hrejects⟩
    · -- the pipeline is printed and released
      dsimp only
      rw [if_neg (by exact ParseStatus.noConfusion), Option.getD_some, (pipelinePrint_eq hbuilt.read).2, ofOption,
        pure_seq]
      refine wp_seq (pipelineFree_spec hbuilt hlive) ?_
      rintro _ m₂ ⟨-, hlive₂, -⟩
      exact ⟨hlive₂, .printed hmeans⟩
    · have hlive : m₁.ledger.live = m.ledger.live := hlive.trans (zero_add _)
      dsimp only
      rw [if_pos rfl]
      rcases hrejects with hσ | ⟨pos, msg, hmeans, rfl⟩
      · exact ⟨hlive, .refused hσ⟩
      · exact ⟨hlive, .rejected hmeans⟩

theorem demo_ends (program : CString) (args : List CString) (p : Pipeline) (e : ParseError) (σ : Script)
    (m : Memory) : ∃ out m', demo program args p e σ m = some (out, m') ∧
      m'.ledger.live = m.ledger.live ∧ DemoEnds program σ args out :=
  wp_iff.mp (demo_spec program args p e σ m)

/-- **`demo` of every list of arguments**: whatever requests are refused, the process
ends, having done nothing that is undefined; all that it has allocated has been
released, once; and it has printed the usage or what the line means, or reported one
error. -/
theorem demo_outcome (program : CString) (args : List CString) (p : Pipeline) (e : ParseError)
    (σ : Script) (m : Memory) : ∃ out m', demo program args p e σ m = some (out, m') ∧
      m'.ledger.live = m.ledger.live ∧ m'.ledger.released.Nodup ∧ DemoEnds program σ args out := by
  obtain ⟨out, m', hrun, hlive, hends⟩ := demo_ends program args p e σ m
  exact ⟨out, m', hrun, hlive, m'.ledger.released_nodup, hends⟩

/-! ## The strings of a pipeline are parts of the line -/

/-- The strings of a target. -/
def Target.strings : Target → List CString
  | .none => []
  | .file path => [path]
  | .tcp host _ => [host]

/-- The strings of a command. -/
def CommandValue.strings (v : CommandValue) : List CString := v.argv ++ v.input.strings ++ v.output.strings

/-- The text of an item. -/
def Item.text : Item → CString
  | .word w => w
  | .redirection _ target => target

section Characters
variable {s : List Byte}

theorem Splits.host_subset {a h q : CString} (hsplit : Splits a h q) : h.bytes ⊆ a.bytes := by
  intro c hc
  cases hsplit with
  | bracket shape _ =>
    rw [shape]
    exact List.mem_cons_of_mem _ (List.mem_append_left _ hc)
  | plain _ shape _ _ =>
    rw [shape]
    exact List.mem_append_left _ hc

theorem strings_of_decodeTarget {t : CString} {d : Target} (h : decodeTarget t = .ok d) :
    ∀ u ∈ d.strings, u.bytes ⊆ t.bytes := by
  cases d with
  | none => exact absurd h decodeTarget_ne_none
  | file path =>
    obtain ⟨-, rfl⟩ := decodeTarget_eq_file_iff.mp h
    exact List.forall_mem_singleton.mpr (List.Subset.refl _)
  | tcp host port =>
    obtain ⟨-, -, q, hsplit, -⟩ := decodeTarget_eq_tcp_iff.mp h
    refine List.forall_mem_singleton.mpr (List.Subset.trans hsplit.host_subset ?_)
    rw [CString.bytes_drop]
    exact List.drop_subset _ _

theorem Decoding.strings {ts : List CString} {d : Target} (h : Decoding ts d)
    (hts : ∀ t ∈ ts, t.bytes ⊆ s) : ∀ u ∈ d.strings, u.bytes ⊆ s := by
  rcases h with ⟨-, rfl⟩ | ⟨t, rfl, hd⟩
  · intro u hu
    exact absurd hu List.not_mem_nil
  · intro u hu
    exact List.Subset.trans (strings_of_decodeTarget (decodes_iff.mp hd) u hu) (hts t List.mem_cons_self)

theorem IsItems.texts {seg : List Lexeme} {items : List Item} (h : IsItems seg items)
    (hseg : ∀ x ∈ seg, ∀ t, x.text = some t → t.bytes ⊆ s) : ∀ item ∈ items, item.text.bytes ⊆ s := by
  induction h with
  | nil =>
    intro item hitem
    exact absurd hitem List.not_mem_nil
  | @word w pos rest items tail ih =>
    obtain ⟨hw, hrest⟩ := List.forall_mem_cons.mp hseg
    exact List.forall_mem_cons.mpr ⟨hw w rfl, ih hrest⟩
  | @redirection op text pos w pos' rest items redirects tail ih =>
    obtain ⟨-, hrest⟩ := List.forall_mem_cons.mp hseg
    obtain ⟨hw, hrest⟩ := List.forall_mem_cons.mp hrest
    exact List.forall_mem_cons.mpr ⟨hw w rfl, ih hrest⟩

theorem bareWords_subset {items : List Item} (hitems : ∀ item ∈ items, item.text.bytes ⊆ s) :
    ∀ w ∈ bareWords items, w.bytes ⊆ s := by
  intro w hw
  obtain ⟨item, hitem, he⟩ := List.mem_filterMap.mp hw
  cases item with
  | word w' =>
    cases he
    exact hitems _ hitem
  | redirection op target => cases he

theorem targets_subset {items : List Item} (hitems : ∀ item ∈ items, item.text.bytes ⊆ s) (op : TokenType) :
    ∀ t ∈ targets op items, t.bytes ⊆ s := by
  intro t ht
  obtain ⟨item, hitem, he⟩ := List.mem_filterMap.mp ht
  cases item with
  | word w => cases he
  | redirection op' target =>
    simp only [Option.ite_none_right_eq_some, Option.some.injEq] at he
    exact he.2 ▸ hitems _ hitem

theorem SegmentMeans.strings {seg : List Lexeme} {v : CommandValue} (h : SegmentMeans seg v)
    (hseg : ∀ x ∈ seg, ∀ t, x.text = some t → t.bytes ⊆ s) : ∀ u ∈ v.strings, u.bytes ⊆ s := by
  obtain ⟨items, hitems, hv, -⟩ := h
  have htexts := hitems.texts hseg
  refine List.forall_mem_append.mpr ⟨List.forall_mem_append.mpr ⟨?_, ?_⟩, ?_⟩
  · rw [hv.argv]
    exact bareWords_subset htexts
  · exact hv.input.strings (targets_subset htexts .tokIn)
  · exact hv.output.strings (targets_subset htexts .tokOut)

theorem subset_of_mem_segments (xs : List Lexeme) : ∀ seg ∈ segments xs, seg ⊆ xs := by
  induction xs with
  | nil => exact List.forall_mem_singleton.mpr (List.Subset.refl _)
  | cons x xs ih =>
    by_cases hx : x.type = .tokPipe
    · rw [segments_pipe hx]
      exact List.forall_mem_cons.mpr ⟨List.nil_subset _, fun seg hseg =>
        List.Subset.trans (ih seg hseg) (List.subset_cons_self x xs)⟩
    · rw [segments_item hx]
      cases hsegs : segments xs with
      | nil => exact absurd hsegs (segments_ne_nil xs)
      | cons seg segs =>
        rw [hsegs] at ih
        obtain ⟨hseg, hrest⟩ := List.forall_mem_cons.mp ih
        exact List.forall_mem_cons.mpr ⟨List.cons_subset_cons x hseg, fun seg' hseg' =>
          List.Subset.trans (hrest seg' hseg') (List.subset_cons_self x xs)⟩

end Characters

/-- **A pipeline consists of characters of its line.** -/
theorem LineMeans.subset {line : CString} {vs : List CommandValue} (h : LineMeans line (.ok vs)) :
    ∀ v ∈ vs, ∀ u ∈ v.strings, u.bytes ⊆ line.bytes := by
  obtain ⟨-, xs, hxs, hsegs⟩ := lineMeans_ok_iff.mp h
  have htexts (x : Lexeme) (hx : x ∈ xs) (t : CString) (ht : x.text = some t) : t.bytes ⊆ line.bytes := by
    cases (hxs.mem x).mp hx with
    | operator => cases ht
    | word run text_eq =>
      cases ht
      rw [text_eq]
      exact wordText_subset _ _ _
  have hcommand : ∀ seg ∈ commandSegments xs, seg ⊆ xs := by
    intro seg hseg
    rw [commandSegments] at hseg
    split at hseg
    · exact absurd hseg List.not_mem_nil
    · exact subset_of_mem_segments xs seg hseg
  intro v hv
  obtain ⟨i, hi, rfl⟩ := List.getElem_of_mem hv
  have hi' : i < (commandSegments xs).length := by rw [hsegs.length_eq]; exact hi
  refine (hsegs.get hi' hi).strings fun x hx => htexts x ?_
  exact hcommand _ (List.get_mem _ ⟨i, hi'⟩) hx

theorem Target.newlineFree_of_strings {d : Target} (h : ∀ u ∈ d.strings, ch '\n' ∉ u.bytes) :
    d.NewlineFree := by
  cases d with
  | none => trivial
  | file path => exact h path List.mem_cons_self
  | tcp host port => exact h host List.mem_cons_self

/-- If there is no newline in the line, there is none in the pipeline. -/
theorem LineMeans.newlineFree {line : CString} {vs : List CommandValue} (h : LineMeans line (.ok vs))
    (hline : ch '\n' ∉ line.bytes) : ∀ v ∈ vs, v.NewlineFree := by
  intro v hv
  have hstrings : ∀ u ∈ v.strings, ch '\n' ∉ u.bytes := fun u hu hmem => hline (h.subset v hv u hu hmem)
  obtain ⟨hfront, houtput⟩ := List.forall_mem_append.mp hstrings
  obtain ⟨hargv, hinput⟩ := List.forall_mem_append.mp hfront
  exact ⟨hargv, Target.newlineFree_of_strings hinput, Target.newlineFree_of_strings houtput⟩

/-! ## What `demo` prints determines what it has parsed -/

theorem printed_injective {vs ws : List CommandValue} (hvs : ∀ v ∈ vs, v.NewlineFree)
    (hws : ∀ w ∈ ws, w.NewlineFree) (h : printed vs = printed ws) : vs = ws := by
  have hlines := unlines_injective (newline_notMem_pipelineLines hvs) (newline_notMem_pipelineLines hws) h
  exact commandLines_injective (List.cons.inj hlines).2

/-- How `demo` ends when no request is refused. -/
theorem demoEnds_of_run {program line : CString} {args : List CString} {p : Pipeline} {e : ParseError}
    {m m' : Memory} {out : Outcome}
    (hrun : demo program (line :: args) p e Script.generous m = some (out, m')) :
    (∃ vs, LineMeans line (.ok vs) ∧ out = ⟨exitSuccess, printed vs, []⟩) ∨
      ∃ pos msg, LineMeans line (.error (pos, msg)) ∧
        out = ⟨exitFailure, [], parseErrorLine ⟨pos, snprintfMessage msg⟩⟩ := by
  obtain ⟨_, _, hrun', -, hends⟩ := demo_ends program (line :: args) p e Script.generous m
  cases hrun.symm.trans hrun'
  cases hends with
  | printed means => exact .inl ⟨_, means, rfl⟩
  | rejected means => exact .inr ⟨_, _, means, rfl⟩
  | refused refuses => exact absurd refuses Script.not_refuses_generous

/-- **What `demo` prints determines what it has parsed.**  On two arguments without
newlines, and when no request is refused, `demo` succeeds with the same output if and
only if both arguments stand for the same pipeline. -/
theorem demo_prints_same_iff {program line line' : CString} {args args' : List CString}
    {p p' : Pipeline} {e e' : ParseError} {m m' m₁ m₁' : Memory} {out out' : Outcome}
    (hline : ch '\n' ∉ line.bytes) (hline' : ch '\n' ∉ line'.bytes)
    (hrun : demo program (line :: args) p e Script.generous m = some (out, m₁))
    (hrun' : demo program (line' :: args') p' e' Script.generous m' = some (out', m₁')) :
    (out.status = exitSuccess ∧ out = out') ↔ ∃ vs, Parses line vs ∧ Parses line' vs := by
  simp only [parses_iff]
  constructor
  · rintro ⟨hstatus, rfl⟩
    rcases demoEnds_of_run hrun with ⟨vs, hmeans, rfl⟩ | ⟨pos, msg, -, rfl⟩
    · rcases demoEnds_of_run hrun' with ⟨ws, hmeans', heq⟩ | ⟨pos, msg, -, heq⟩
      · have hprinted : printed vs = printed ws := congrArg Outcome.stdout heq
        have hsame := printed_injective (hmeans.newlineFree hline) (hmeans'.newlineFree hline') hprinted
        exact ⟨vs, hmeans, hsame ▸ hmeans'⟩
      · exact absurd (congrArg Outcome.status heq) (Nat.zero_ne_one)
    · exact absurd hstatus Nat.one_ne_zero
  · rintro ⟨vs, hmeans, hmeans'⟩
    rcases demoEnds_of_run hrun with ⟨ws, hws, rfl⟩ | ⟨pos, msg, herr, -⟩
    · rcases demoEnds_of_run hrun' with ⟨ws', hws', rfl⟩ | ⟨pos, msg, herr, -⟩
      · cases hmeans.unique hws
        cases hmeans'.unique hws'
        exact ⟨rfl, rfl⟩
      · cases hmeans'.unique herr
    · cases hmeans.unique herr

/-- `demo "a b"` and `demo "a  'b'"`. -/
def plainWords : CString := ⟨[ch 'a', ch ' ', ch 'b'], by decide⟩
def quotedWords : CString := ⟨[ch 'a', ch ' ', ch ' ', singleQuote, ch 'b', singleQuote], by decide⟩

theorem demo_prints_same_iff_quoted : ∃ out out' m m',
    demo ⟨text "demo", by decide⟩ [plainWords] Pipeline.zero ParseError.zero Script.generous
      Memory.empty = some (out, m) ∧
    demo ⟨text "demo", by decide⟩ [quotedWords] Pipeline.zero ParseError.zero Script.generous
      Memory.empty = some (out', m') ∧
    ((out.status = exitSuccess ∧ out = out') ↔ ∃ vs, Parses plainWords vs ∧ Parses quotedWords vs) := by
  obtain ⟨out, m, hrun, -⟩ := demo_ends ⟨text "demo", by decide⟩ [plainWords] Pipeline.zero
    ParseError.zero Script.generous Memory.empty
  obtain ⟨out', m', hrun', -⟩ := demo_ends ⟨text "demo", by decide⟩ [quotedWords] Pipeline.zero
    ParseError.zero Script.generous Memory.empty
  exact ⟨out, out', m, m', hrun, hrun', demo_prints_same_iff (by decide) (by decide) hrun hrun'⟩

end SystemsCourse
