import SystemsCourse.ParserArrays

/-!
# Releasing the parser's data

Each `_free` function releases exactly the blocks reachable from its argument,
each once — releasing a block that is not live would leave the program without a
result — and clears the struct.  A half-built struct is released the same way:
what it does not own yet is null.
-/
namespace SystemsCourse
open Prog

variable {σ : Script} {m : Memory} {F : Multiset Addr}

/-- `tokenlist_free`. -/
def tokenlistFree (t : TokenList) : Prog TokenList := do
  forUpTo t.n fun i => do
    let x ← load t.v i
    free x.text
  free t.v
  return TokenList.zero

/-- `redirect_free`. -/
def redirectFree (r : Redirect) : Prog Redirect := do
  free r.path
  free r.host
  return Redirect.zero

/-- `command_free`. -/
def commandFree (c : Command) : Prog Command := do
  forUpTo c.argc fun i => do
    let arg ← load c.argv i
    free arg
  free c.argv
  let _ ← redirectFree c.input
  let _ ← redirectFree c.output
  return Command.zero

/-- `pipeline_free`.  Each command is cleared inside the array that is released
next, so the array is not written back. -/
def pipelineFree (p : Option Pipeline) : Prog (Option Pipeline) :=
  match p with
  | none => pure none
  | some p => do
      forUpTo p.commandCount fun i => do
        let c ← load p.commands i
        let _ ← commandFree c
      free p.commands
      return some Pipeline.zero

theorem tokenlistFree_spec {t : TokenList} {xs : List Token} (h : t.Holds xs)
    (hlive : m.ledger.live = t.blocks + F) :
    wp (tokenlistFree t) σ (fun t' m' => t' = TokenList.zero ∧ m'.ledger.live = F ∧
      m'.ledger.released = t.blocks + m.ledger.released) m := by
  rw [h.blocks, add_assoc] at hlive
  rw [tokenlistFree, h.count]
  refine wp_seq (free_each_spec h.array Token.blocks (fun x => free x.text)
    (fun _ _ _ _ hx => free_spec hx) hlive) ?_
  intro _ m₁ hpost
  obtain ⟨hlive₁, hrel₁⟩ := hpost
  refine wp_seq (free_spec hlive₁) ?_
  intro _ m₂ hpost
  obtain ⟨hlive₂, hrel₂⟩ := hpost
  refine ⟨rfl, hlive₂, ?_⟩
  rw [hrel₂, hrel₁, h.blocks]
  abel

/-- Behind a `tokenlist_free` the rest of the program finds the other blocks. -/
theorem tokenlistFree_then {β : Type} {f : TokenList → Prog β} {Q : β → Memory → Prop} {t : TokenList}
    {xs : List Token} (h : t.Holds xs) (hlive : m.ledger.live = t.blocks + F)
    (hf : ∀ m', m'.ledger.live = F → wp (f TokenList.zero) σ Q m') :
    wp (tokenlistFree t >>= f) σ Q m := by
  refine wp_seq (tokenlistFree_spec h hlive) ?_
  intro _ m' hpost
  obtain ⟨rfl, hlive', _⟩ := hpost
  exact hf m' hlive'

theorem redirectFree_spec {r : Redirect} (hlive : m.ledger.live = r.blocks + F) :
    wp (redirectFree r) σ (fun r' m' => r' = Redirect.zero ∧ m'.ledger.live = F ∧
      m'.ledger.released = r.blocks + m.ledger.released) m := by
  rw [Redirect.blocks, add_assoc] at hlive
  refine wp_seq (free_spec hlive) ?_
  intro _ m₁ hpost
  obtain ⟨hlive₁, hrel₁⟩ := hpost
  refine wp_seq (free_spec hlive₁) ?_
  intro _ m₂ hpost
  obtain ⟨hlive₂, hrel₂⟩ := hpost
  refine ⟨rfl, hlive₂, ?_⟩
  rw [hrel₂, hrel₁, Redirect.blocks]
  abel

theorem commandFree_spec {c : Command} {cap : Nat} {args : List (Ptr Byte)} {v : CommandValue}
    (h : c.Holds cap args v) (hlive : m.ledger.live = c.blocks + F) :
    wp (commandFree c) σ (fun c' m' => c' = Command.zero ∧ m'.ledger.live = F ∧
      m'.ledger.released = c.blocks + m.ledger.released) m := by
  rw [h.blocks, add_assoc, add_assoc, add_assoc] at hlive
  rw [commandFree, h.count]
  refine wp_seq (free_each_spec h.array.1 Ptr.own free (fun _ _ _ _ hx => free_spec hx) hlive) ?_
  intro _ m₁ hpost
  obtain ⟨hlive₁, hrel₁⟩ := hpost
  refine wp_seq (free_spec hlive₁) ?_
  intro _ m₂ hpost
  obtain ⟨hlive₂, hrel₂⟩ := hpost
  refine wp_seq (redirectFree_spec hlive₂) ?_
  intro _ m₃ hpost
  obtain ⟨-, hlive₃, hrel₃⟩ := hpost
  refine wp_seq (redirectFree_spec hlive₃) ?_
  intro _ m₄ hpost
  obtain ⟨-, hlive₄, hrel₄⟩ := hpost
  refine ⟨rfl, hlive₄, ?_⟩
  rw [hrel₄, hrel₃, hrel₂, hrel₁, h.blocks]
  abel

/-- Behind a `command_free` the rest of the program finds the other blocks. -/
theorem commandFree_then {β : Type} {f : Command → Prog β} {Q : β → Memory → Prop} {c : Command}
    {cap : Nat} {args : List (Ptr Byte)} {v : CommandValue} (h : c.Holds cap args v)
    (hlive : m.ledger.live = c.blocks + F)
    (hf : ∀ m', m'.ledger.live = F → wp (f Command.zero) σ Q m') :
    wp (commandFree c >>= f) σ Q m := by
  refine wp_seq (commandFree_spec h hlive) ?_
  intro _ m' hpost
  obtain ⟨rfl, hlive', _⟩ := hpost
  exact hf m' hlive'

/-- The command is as the parser maintains it. -/
def Command.Built (c : Command) : Prop := ∃ cap args v, c.Holds cap args v

/-- The pipeline `p`, with an array of `cap` cells, is as the parser maintains it
and stands for the commands `vs`. -/
def Pipeline.Built (p : Pipeline) (cap : Nat) (vs : List CommandValue) : Prop :=
  ∃ cs, p.Holds cap cs ∧ (∀ c ∈ cs, c.Built) ∧ cs.mapM Command.read = some vs

theorem Pipeline.built_zero : Pipeline.zero.Built 0 [] :=
  ⟨[], Pipeline.holds_zero, fun _ h => absurd h List.not_mem_nil, rfl⟩

theorem Pipeline.Built.read {p : Pipeline} {cap : Nat} {vs : List CommandValue}
    (h : p.Built cap vs) : p.read = some vs := by
  obtain ⟨cs, hp, _, hread⟩ := h
  rw [hp.read, hread]

/-- **`pipeline_free`** releases every block reachable from the pipeline, and
clears it. -/
theorem pipelineFree_spec {p : Pipeline} {cap : Nat} {vs : List CommandValue} (h : p.Built cap vs)
    (hlive : m.ledger.live = p.blocks + F) :
    wp (pipelineFree (some p)) σ (fun p' m' => p' = some Pipeline.zero ∧ m'.ledger.live = F ∧
      m'.ledger.released = p.blocks + m.ledger.released) m := by
  obtain ⟨cs, hp, hcs, _⟩ := h
  rw [hp.blocks, add_assoc] at hlive
  rw [pipelineFree, hp.count]
  refine wp_seq (free_each_spec hp.array Command.blocks
    (fun c => do let _ ← commandFree c) ?_ hlive) ?_
  · intro c hc m F hlive
    obtain ⟨cap, args, v, hv⟩ := hcs c hc
    -- a command of the pipeline, with what it reaches
    refine wp_seq (commandFree_spec hv hlive) ?_
    intro _ m' hpost
    obtain ⟨-, hlive', hrel'⟩ := hpost
    exact ⟨hlive', hrel'⟩
  intro _ m₁ hpost
  obtain ⟨hlive₁, hrel₁⟩ := hpost
  refine wp_seq (free_spec hlive₁) ?_
  intro _ m₂ hpost
  obtain ⟨hlive₂, hrel₂⟩ := hpost
  refine ⟨rfl, hlive₂, ?_⟩
  rw [hrel₂, hrel₁, hp.blocks]
  abel

end SystemsCourse
