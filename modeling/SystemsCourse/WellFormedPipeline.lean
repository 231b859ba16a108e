import SystemsCourse.CommandGrammar

/-!
# What the shell may rely on

The shell passes `argv` to `exec` as it is and switches on the tag of each
redirection.  Every pipeline that `pipeline_parse` hands over is fit for that:
each command has an argument, no null among the arguments and a null behind them,
and each redirection has exactly the fields that its tag promises.
-/
namespace SystemsCourse
open Prog

/-- A command that a line can stand for. -/
structure CommandValue.WellFormed (v : CommandValue) : Prop where
  argv : v.argv ≠ []
  input : v.input.WellFormed
  output : v.output.WellFormed

theorem Decoding.wellFormed {ts : List CString} {d : Target} (h : Decoding ts d) : d.WellFormed := by
  rcases h with ⟨-, rfl⟩ | ⟨t, -, hd⟩
  · trivial
  · exact decodeTarget_wellFormed (decodes_iff.mp hd)

theorem SegmentMeans.wellFormed {seg : List Lexeme} {v : CommandValue} (h : SegmentMeans seg v) :
    v.WellFormed := by
  obtain ⟨items, -, hv, hargv⟩ := h
  exact ⟨hargv, hv.input.wellFormed, hv.output.wellFormed⟩

/-- The commands a line stands for are well-formed. -/
theorem LineMeans.wellFormed {s : CString} {vs : List CommandValue} (h : LineMeans s (.ok vs)) :
    ∀ v ∈ vs, v.WellFormed := by
  obtain ⟨-, xs, -, hsegs⟩ := lineMeans_ok_iff.mp h
  intro v hv
  obtain ⟨i, hi, rfl⟩ := List.getElem_of_mem hv
  exact (hsegs.get (by rw [hsegs.length_eq]; exact hi) hi).wellFormed

/-! ## The structs -/

/-- The fields of a redirection agree with its tag. -/
def Redirect.Consistent (r : Redirect) : Prop :=
  match r.type with
  | .redirectNone => r.path = none ∧ r.host = none ∧ r.port = 0
  | .redirectFile => (∃ path, r.path.string = some path ∧ ¬ tcpPrefix <+: path.bytes) ∧
      r.host = none ∧ r.port = 0
  | .redirectTcp => r.path = none ∧
      (∃ host, r.host.string = some host ∧ host ≠ CString.empty ∧
        (ch ']' ∉ host.bytes ∨ (ch ':' ∉ host.bytes ∧ host.bytes.head? ≠ some (ch '[')))) ∧
      1 ≤ r.port.toNat ∧ r.port.toNat ≤ 65535

/-- The command can be executed. -/
structure Command.WellFormed (c : Command) : Prop where
  argc : 1 ≤ c.argc
  args : ∀ i, i < c.argc → ∃ arg, c.argv.cells[i]? = some (some arg) ∧ arg ≠ none
  null : c.argv.cells[c.argc]? = some (some none)
  input : c.input.Consistent
  output : c.output.Consistent

theorem Redirect.Holds.consistent {r : Redirect} {target : Target} (h : r.Holds target)
    (ht : target.WellFormed) : r.Consistent := by
  cases target with
  | none =>
    rw [show r = Redirect.zero from h]
    exact ⟨rfl, rfl, rfl⟩
  | file path =>
    obtain ⟨htype, hpath, hhost, hport⟩ := h
    rw [Redirect.Consistent, htype]
    exact ⟨⟨path, hpath, ht⟩, hhost, hport⟩
  | tcp host port =>
    obtain ⟨htype, hpath, hhost, rfl⟩ := h
    obtain ⟨hne, hshape, hport⟩ := ht
    rw [Redirect.Consistent, htype]
    exact ⟨hpath, ⟨host, hhost, hne, hshape⟩, hport⟩

theorem Command.Holds.wellFormed {c : Command} {cap : Nat} {args : List (Ptr Byte)}
    {v : CommandValue} (h : c.Holds cap args v) (hv : v.WellFormed) : c.WellFormed := by
  obtain ⟨hlen, hget⟩ := getElem_of_mapM h.words
  have hargs : args ≠ [] := fun hnil => hv.argv (List.length_eq_zero_iff.mp (by rw [← hlen, hnil]; rfl))
  have harray := h.array.2 hargs
  have hcount := h.count
  refine ⟨?_, fun i hi => ?_, ?_, h.input.consistent hv.input, h.output.consistent hv.output⟩
  · rw [hcount]
    exact List.length_pos_iff.mpr hargs
  · have hi' : i < args.length := by omega
    exact ⟨args[i], h.array.1.getElem? hi', Ptr.ne_none_of_string (hget i hi' (by omega))⟩
  · rw [hcount, harray.getElem? (by simp)]
    simp

/-- **Every pipeline handed to the shell is well-formed.** -/
theorem pipelineParse_wellFormed (line : CString) (p : Pipeline) (e : Option ParseError)
    (σ : Script) (m : Memory) :
    ∃ status q e' m',
      pipelineParse (some line) (some p) e σ m = some ((status, some q, e'), m') ∧
      (status = .parseSuccess → ∃ cs, q.commands.items q.commandCount = some cs ∧
        ∀ c ∈ cs, c.WellFormed) := by
  obtain ⟨⟨status, _, e'⟩, m', hrun, q, rfl, -, hstatus⟩ :=
    wp_iff.mp (pipelineParse_spec (σ := σ) line p e (m := m) rfl)
  refine ⟨status, q, e', m', hrun, ?_⟩
  rintro rfl
  obtain ⟨-, cap, vs, ⟨cs, hcs, hbuilt, hread⟩, hmeans⟩ := hstatus.resolve_right fun h => nomatch h.1
  obtain ⟨hlen, hget⟩ := getElem_of_mapM hread
  refine ⟨cs, hcs.items, fun c hc => ?_⟩
  obtain ⟨cap', args, v, hv⟩ := hbuilt c hc
  obtain ⟨i, hi, rfl⟩ := List.getElem_of_mem hc
  have hvi := hget i hi (by omega)
  rw [hv.read] at hvi
  exact hv.wellFormed (hmeans.wellFormed v (Option.some.inj hvi ▸ List.getElem_mem _))

end SystemsCourse
