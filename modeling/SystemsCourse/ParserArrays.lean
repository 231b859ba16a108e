import SystemsCourse.ParserData

/-!
# The growable arrays of the parser

Tokens, word characters, arguments and commands are appended one at a time to
arrays that `array_grow` doubles.  The four appends differ in where they keep the
capacity, in how many cells they ask for and in what they store behind the
element; their specifications have one shape.  Either the element was appended,
or a request was refused and every element that was there still is; in both cases
the blocks that belong to somebody else are untouched.

Sizes are natural numbers here; that a `size_t` of 64 bits makes no difference, as long
as the arrays fit in memory, is proved in `SizeTArrays`.
-/
namespace SystemsCourse
open Prog

variable {α : Type} {σ : Script} {m : Memory} {F : Multiset Addr}

/-- One pass of `while (c < need) c *= 2;`. -/
def doublePass (need c : Nat) : Prog (LoopStep Nat Nat) :=
  pure (if c < need then .again (c * 2) else .done c)

/-- `array_grow`: on success the array has at least `need` cells. -/
def arrayGrow (p : Ptr α) (cap need : Nat) : Prog (ParseStatus × Ptr α × Nat) := do
  let c := if cap ≠ 0 then cap else 4
  if cap ≥ need then return (.parseSuccess, p, cap)
  let c ← loop (doublePass need) (need + 1) c
  let q ← realloc p c
  if q.isNone then return (.parseFailed, p, cap)
  return (.parseSuccess, q, c)

/-- `buffer_addchar`. -/
def bufferAddchar (b : Buffer) (c : Byte) : Prog (ParseStatus × Buffer) := do
  let (r, v, cap) ← arrayGrow b.v b.cap (b.n + 2)
  let b := { b with v := v, cap := cap }
  if r = .parseFailed then return (.parseFailed, b)
  let v ← storeTerminated b.v b.n c 0
  return (.parseSuccess, { b with v := v, n := b.n + 1 })

/-- `text ? strdup(text) : NULL`. -/
def copyText (text : Ptr Byte) : Prog (Ptr Byte) :=
  match text with
  | none => pure none
  | some b => do strdup (← readString (some b))

/-- `tokenlist_addtoken`. -/
def tokenlistAddtoken (t : TokenList) (tokentype : TokenType) (text : Ptr Byte) (pos : Nat) :
    Prog (ParseStatus × TokenList) := do
  let (r, v, cap) ← arrayGrow t.v t.cap (t.n + 1)
  let t := { t with v := v, cap := cap }
  if r = .parseFailed then return (.parseFailed, t)
  let copy ← copyText text
  let v ← store t.v t.n ⟨tokentype, copy, pos⟩
  let t := { t with v := v, n := t.n + 1 }
  return (if text.isSome ∧ copy.isNone then .parseFailed else .parseSuccess, t)

/-- `command_add_arg`. -/
def commandAddArg (c : Command) (cap : Nat) (s : Ptr Byte) : Prog (ParseStatus × Command × Nat) := do
  let (r, argv, cap) ← arrayGrow c.argv cap (c.argc + 2)
  let c := { c with argv := argv }
  if r = .parseFailed then return (.parseFailed, c, cap)
  let copy ← strdup (← readString s)
  if copy.isNone then return (.parseFailed, c, cap)
  let argv ← storeTerminated c.argv c.argc copy none
  return (.parseSuccess, { c with argv := argv, argc := c.argc + 1 }, cap)

/-- `command_add`: the command moves into the array, and `*c` is cleared. -/
def commandAdd (p : Pipeline) (cap : Nat) (c : Command) :
    Prog (ParseStatus × Pipeline × Nat × Command) := do
  let (r, commands, cap) ← arrayGrow p.commands cap (p.commandCount + 1)
  let p := { p with commands := commands }
  if r = .parseFailed then return (.parseFailed, p, cap, c)
  let commands ← store p.commands p.commandCount c
  return (.parseSuccess, { commands := commands, commandCount := p.commandCount + 1 }, cap,
    Command.zero)

/-! ## `array_grow` -/

/-- The doubling loop ends, with at least `need` cells. -/
theorem doubling_spec (need : Nat) {c : Nat} (hc : 0 < c) :
    wp (loop (doublePass need) (need + 1) c) σ (fun c' m' => m' = m ∧ c ≤ c' ∧ need ≤ c') m := by
  -- doubling a positive capacity brings it nearer to `need`
  refine wp_loop (fun s m' => m' = m ∧ c ≤ s) (fun s => need - s) ?_ _ _ _
    (by omega) ⟨rfl, Nat.le_refl _⟩
  intro s m' hpost
  obtain ⟨rfl, hs⟩ := hpost
  by_cases hlt : s < need
  · rw [doublePass, if_pos hlt, wp_pure, LoopStep.ends_again]
    exact ⟨⟨rfl, by omega⟩, by omega⟩
  · rw [doublePass, if_neg hlt, wp_pure, LoopStep.ends_done]
    exact ⟨rfl, hs, by omega⟩

/-- The cells that a larger block keeps hold the elements that were there. -/
theorem holds_grown {p : Ptr α} {cap c : Nat} {xs : List α} (h : p.Holds cap xs) (hc : cap ≤ c)
    (a : Addr) :
    Ptr.Holds (some ⟨a, p.cells.take c ++ List.replicate (c - p.cells.length) none⟩) c xs := by
  have hlen := h.1
  have hle : p.cells.length ≤ c := by omega
  refine ⟨?_, ?_⟩
  · simp only [Ptr.cells, List.length_append, List.length_take, List.length_replicate]
    omega
  · show xs.map some <+: p.cells.take c ++ List.replicate (c - p.cells.length) none
    rw [List.take_of_length_le hle]
    exact h.2.trans (List.prefix_append _ _)

/-- **`array_grow`**: either there are `need` cells and every element is still
there, or a request was refused and nothing has changed. -/
theorem arrayGrow_spec {p : Ptr α} {cap : Nat} (hp : p.cells.length = cap) (need : Nat)
    (hlive : m.ledger.live = p.own + F) :
    wp (arrayGrow p cap need) σ (fun r m' => m'.ledger.live = r.2.1.own + F ∧
      ((r.1 = .parseSuccess ∧ (∀ xs, p.Holds cap xs → r.2.1.Holds r.2.2 xs) ∧ need ≤ r.2.2) ∨
        (r = (.parseFailed, p, cap) ∧ σ.Refuses))) m := by
  unfold arrayGrow
  by_cases hneed : need ≤ cap
  · rw [if_pos (show cap ≥ need from hneed)]
    exact ⟨hlive, Or.inl ⟨rfl, fun _ h => h, hneed⟩⟩
  rw [if_neg (show ¬ cap ≥ need from hneed)]
  have hpos : 0 < (if cap ≠ 0 then cap else 4) := by split <;> omega
  refine wp_seq (doubling_spec need hpos) ?_
  intro c m₁ hpost
  obtain ⟨rfl, hc, hneed'⟩ := hpost
  have hcap : cap ≤ c := by split at hc <;> omega
  refine wp_seq (realloc_spec c hlive) ?_
  intro q m₂ hpost
  rcases hpost with ⟨rfl, hσ, hlive₂⟩ | ⟨a, rfl, hlive₂⟩
  · exact ⟨hlive₂, Or.inr ⟨rfl, hσ⟩⟩
  · exact ⟨hlive₂, Or.inl ⟨rfl, fun _ h => holds_grown h hcap a, hneed'⟩⟩

/-- **Behind `array_grow`** every append goes on in one of two ways: with room for
`need` elements, or with nothing changed. -/
theorem arrayGrow_then {β : Type} {f : ParseStatus × Ptr α × Nat → Prog β}
    {Q : β → Memory → Prop} {p : Ptr α} {cap need : Nat} (hp : p.cells.length = cap)
    (hlive : m.ledger.live = p.own + F)
    (hgrown : ∀ v cap' m', m'.ledger.live = v.own + F → need ≤ cap' →
      (∀ xs, p.Holds cap xs → v.Holds cap' xs) → wp (f (.parseSuccess, v, cap')) σ Q m')
    (hfailed : ∀ m', m'.ledger.live = p.own + F → σ.Refuses →
      wp (f (.parseFailed, p, cap)) σ Q m') :
    wp (arrayGrow p cap need >>= f) σ Q m := by
  refine wp_seq (arrayGrow_spec hp need hlive) ?_
  intro out m' hpost
  obtain ⟨r, v, cap'⟩ := out
  rcases hpost with ⟨hlive', ⟨rfl, hv, hcap⟩ | ⟨hr, hσ⟩⟩
  · exact hgrown v cap' m' hlive' hcap hv
  · cases hr
    exact hfailed m' hlive' hσ

/-! ## The four appends -/

/-- **`buffer_addchar`** appends a character, or leaves the buffer as it was. -/
theorem bufferAddchar_spec {b : Buffer} {cs : List Byte} (h : b.Holds cs) (c : Byte)
    (hlive : m.ledger.live = b.v.own + F) :
    wp (bufferAddchar b c) σ (fun r m' => m'.ledger.live = r.2.v.own + F ∧
      ((r.1 = .parseSuccess ∧ r.2.Holds (cs ++ [c])) ∨ (r = (.parseFailed, b) ∧ σ.Refuses))) m := by
  obtain ⟨hn, harray, _⟩ := h
  refine arrayGrow_then harray.1.1 hlive ?_ ?_
  · intro v cap m₁ hlive₁ hcap hv
    rw [hn] at hcap ⊢
    refine wp_seq (storeTerminated_spec (hv _ harray.1) c 0 hcap) ?_
    intro v' m₂ hpost
    obtain ⟨rfl, hown, hv'⟩ := hpost
    refine ⟨?_, Or.inl ⟨rfl, by simp, hv', by simp⟩⟩
    simpa [hown] using hlive₁
  · intro m₁ hlive₁ hσ
    exact ⟨hlive₁, Or.inr ⟨rfl, hσ⟩⟩

theorem copyText_spec {text : Ptr Byte} {txt : Option CString} (h : text.optString = some txt) :
    wp (copyText text) σ (fun p m' => m'.ledger.live = p.own + m.ledger.live ∧
      ((text.isSome ∧ p = none ∧ σ.Refuses) ∨
        ((text.isSome → p.isSome) ∧ p.optString = some txt))) m := by
  cases text with
  | none => exact ⟨(zero_add _).symm, Or.inr ⟨fun h => h, h⟩⟩
  | some b =>
    obtain ⟨s, hs, rfl⟩ := Option.map_eq_some_iff.mp h
    rw [copyText, wp_bind, readString_spec hs]
    refine wp_mono (strdup_spec s) ?_
    intro p m' hpost
    rcases hpost with ⟨hlive, ⟨rfl, hσ⟩ | hp⟩
    · exact ⟨hlive, Or.inl ⟨rfl, rfl, hσ⟩⟩
    · refine ⟨hlive, Or.inr ⟨fun _ => ?_, Ptr.optString_of_string hp⟩⟩
      exact Option.isSome_iff_ne_none.mpr (Ptr.ne_none_of_string hp)

/-- **`tokenlist_addtoken`** appends a token; when a request is refused the list
still is a list, though it may count a token whose text is missing. -/
theorem tokenlistAddtoken_spec {t : TokenList} {xs : List Token} (h : t.Holds xs)
    (tokentype : TokenType) {text : Ptr Byte} {txt : Option CString} (htext : text.optString = some txt)
    (pos : Nat) (hlive : m.ledger.live = t.blocks + F) :
    wp (tokenlistAddtoken t tokentype text pos) σ (fun r m' => m'.ledger.live = r.2.blocks + F ∧
      ((r.1 = .parseSuccess ∧ ∃ x, r.2.Holds (xs ++ [x]) ∧ x.read = some ⟨tokentype, txt, pos⟩) ∨
        (r.1 = .parseFailed ∧ σ.Refuses ∧ ∃ xs', r.2.Holds xs'))) m := by
  have hlive' : m.ledger.live = t.v.own + ((xs.map Token.blocks).sum + F) := by
    rw [hlive, h.blocks]
    abel
  refine arrayGrow_then h.array.1 hlive' ?_ ?_
  · intro v cap m₁ hlive₁ hcap hv
    replace hv := hv _ h.array
    rw [h.count] at hcap ⊢
    refine wp_seq (copyText_spec htext) ?_
    intro copy m₂ hpost
    obtain ⟨hlive₂, hcopy⟩ := hpost
    refine wp_seq (store_spec hv ⟨tokentype, copy, pos⟩ hcap) ?_
    intro v' m₃ hpost
    obtain ⟨rfl, hown, hv'⟩ := hpost
    -- the token is counted whether or not its text could be copied
    have hholds : TokenList.Holds ⟨v', xs.length + 1, cap⟩ (xs ++ [⟨tokentype, copy, pos⟩]) :=
      ⟨by simp, hv'⟩
    refine ⟨?_, ?_⟩
    · rw [hholds.blocks, hlive₂, hlive₁, hown]
      simp only [List.map_append, List.map_cons, List.map_nil, List.sum_append, List.sum_cons,
        List.sum_nil, Token.blocks]
      abel
    · rcases hcopy with ⟨htxt, rfl, hσ⟩ | ⟨hsome, hread⟩
      · exact Or.inr ⟨if_pos ⟨htxt, rfl⟩, hσ, _, hholds⟩
      · refine Or.inl ⟨if_neg ?_, _, hholds, by simp [Token.read, hread]⟩
        intro h
        obtain ⟨h1, h2⟩ := h
        rw [Option.isNone_iff_eq_none.mp h2] at hsome
        exact Bool.noConfusion (hsome h1)
  · intro m₁ hlive₁ hσ
    refine ⟨?_, Or.inr ⟨rfl, hσ, xs, h⟩⟩
    rw [hlive₁, TokenList.Holds.blocks (t := ⟨t.v, t.n, t.cap⟩) h]
    abel

/-- A longer argument vector is an argument vector of the same command. -/
theorem Command.Holds.grow {c : Command} {cap cap' : Nat} {args : List (Ptr Byte)} {v : CommandValue}
    (h : c.Holds cap args v) {argv : Ptr (Ptr Byte)}
    (hargv : ∀ xs, c.argv.Holds cap xs → argv.Holds cap' xs) :
    Command.Holds { c with argv := argv } cap' args v :=
  ⟨h.count, ⟨hargv _ h.array.1, fun hne => hargv _ (h.array.2 hne)⟩, h.words, h.input, h.output⟩

/-- **`command_add_arg`** appends a copy of its argument, or leaves the command's
arguments as they were. -/
theorem commandAddArg_spec {c : Command} {cap : Nat} {args : List (Ptr Byte)} {v : CommandValue}
    (h : c.Holds cap args v) {s : Ptr Byte} {w : CString} (hs : s.string = some w)
    (hlive : m.ledger.live = c.blocks + F) :
    wp (commandAddArg c cap s) σ (fun r m' => m'.ledger.live = r.2.1.blocks + F ∧
      ((r.1 = .parseSuccess ∧
          ∃ args', r.2.1.Holds r.2.2 args' { v with argv := v.argv ++ [w] }) ∨
        (r.1 = .parseFailed ∧ σ.Refuses ∧ r.2.1.Holds r.2.2 args v))) m := by
  have hlive' : m.ledger.live
      = c.argv.own + ((args.map Ptr.own).sum + c.input.blocks + c.output.blocks + F) := by
    rw [hlive, h.blocks]
    abel
  refine arrayGrow_then h.array.1.1 hlive' ?_ ?_
  · intro argv cap' m₁ hlive₁ hcap hargv
    have hgrown := h.grow hargv
    have hcount := h.count
    dsimp only
    rw [if_neg nofun, wp_bind, readString_spec hs]
    refine wp_seq (strdup_spec w) ?_
    intro copy m₂ hpost
    obtain ⟨hlive₂, hcopy⟩ := hpost
    rw [hlive₁] at hlive₂
    rcases hcopy with ⟨rfl, hσ⟩ | hcopy
    · -- the vector has grown, and holds the arguments it held
      refine ⟨?_, Or.inr ⟨rfl, hσ, hgrown⟩⟩
      rw [hlive₂, hgrown.blocks]
      simp only [Ptr.own_none]
      abel
    · have hsome : ¬ copy.isNone := by
        rw [Option.isNone_iff_eq_none]
        exact Ptr.ne_none_of_string hcopy
      rw [if_neg hsome, hcount]
      refine wp_seq (storeTerminated_spec (hargv _ h.array.1) copy none (by omega)) ?_
      intro argv' m₃ hpost
      obtain ⟨rfl, hown, hargv'⟩ := hpost
      have hadded : Command.Holds ⟨argv', args.length + 1, c.input, c.output⟩ cap' (args ++ [copy])
          { v with argv := v.argv ++ [w] } :=
        ⟨by simp, hargv', by simp [List.mapM_append, h.words, hcopy], h.input, h.output⟩
      refine ⟨?_, Or.inl ⟨rfl, _, hadded⟩⟩
      rw [hlive₂, hadded.blocks, hown]
      simp only [List.map_append, List.map_cons, List.map_nil, List.sum_append, List.sum_cons,
        List.sum_nil]
      abel
  · intro m₁ hlive₁ hσ
    refine ⟨?_, Or.inr ⟨rfl, hσ, h⟩⟩
    rw [hlive₁, Command.Holds.blocks (c := { c with argv := c.argv }) h]
    abel

/-- **`command_add`** moves the command to the end of the array, or leaves it and
the array as they were. -/
theorem commandAdd_spec {p : Pipeline} {cap : Nat} {cs : List Command} (h : p.Holds cap cs)
    (c : Command) (hlive : m.ledger.live = p.blocks + c.blocks + F) :
    wp (commandAdd p cap c) σ (fun r m' =>
      m'.ledger.live = r.2.1.blocks + r.2.2.2.blocks + F ∧
      ((r.1 = .parseSuccess ∧ r.2.1.Holds r.2.2.1 (cs ++ [c]) ∧ r.2.2.2 = Command.zero) ∨
        (r = (.parseFailed, p, cap, c) ∧ σ.Refuses))) m := by
  have hlive' : m.ledger.live
      = p.commands.own + ((cs.map Command.blocks).sum + c.blocks + F) := by
    rw [hlive, h.blocks]
    abel
  refine arrayGrow_then h.array.1 hlive' ?_ ?_
  · intro commands cap' m₁ hlive₁ hcap hcommands
    have hcount := h.count
    dsimp only
    rw [if_neg nofun, hcount]
    refine wp_seq (store_spec (hcommands _ h.array) c (by omega)) ?_
    intro commands' m₂ hpost
    obtain ⟨rfl, hown, hcommands'⟩ := hpost
    -- the command's blocks have moved into the array, and none is left behind in `*c`
    have hadded : Pipeline.Holds ⟨commands', cs.length + 1⟩ cap' (cs ++ [c]) := ⟨by simp, hcommands'⟩
    refine ⟨?_, Or.inl ⟨rfl, hadded, rfl⟩⟩
    show m₂.ledger.live = _ + Command.zero.blocks + F
    rw [hlive₁, hadded.blocks, hown]
    simp only [List.map_append, List.map_cons, List.map_nil, List.sum_append, List.sum_cons,
      List.sum_nil, Command.blocks_zero]
    abel
  · intro m₁ hlive₁ hσ
    refine ⟨?_, Or.inr ⟨rfl, hσ⟩⟩
    rw [hlive₁]
    show _ = p.blocks + c.blocks + F
    rw [h.blocks]
    abel

end SystemsCourse
