import SystemsCourse.ParseRefinement

/-!
# Who owns the blocks of a parse

Whatever requests are refused, `pipeline_parse` returns with the ledger accounted
for: after success every new block belongs to the pipeline, once; after failure
there is no new block.  A refused request never alters the pipeline, since a line
has only one meaning.
-/
namespace SystemsCourse
open Prog

variable {σ : Script} {m : Memory}

/-- The blocks that a struct owns are distinct when they are live beside others. -/
theorem nodup_of_live_eq {owned F : Multiset Addr} (h : m.ledger.live = owned + F) : owned.Nodup :=
  Multiset.nodup_of_le (Multiset.le_add_right _ _) (h ▸ m.ledger.live_nodup)

/-- **Failure is clean**, for every line and every pattern of refused requests; and
success yields the pipeline of the run in which none is refused, with every new
block reachable from it, once, and released by `pipeline_free`, once. -/
theorem pipelineParse_ownership (line : CString) (p : Pipeline) (e : Option ParseError)
    (σ : Script) (m : Memory) :
    ∃ status q e' m',
      pipelineParse (some line) (some p) e σ m = some ((status, some q, e'), m') ∧
      (status = .parseSuccess →
        (∃ vs q₀ e₀ m₀, q.read = some vs ∧ q₀.read = some vs ∧
          pipelineParse (some line) (some p) e Script.generous m
            = some ((.parseSuccess, some q₀, e₀), m₀)) ∧
        m'.ledger.live = q.blocks + m.ledger.live ∧ q.blocks.Nodup ∧
        ∀ σ', ∃ m'', pipelineFree (some q) σ' m' = some (some Pipeline.zero, m'') ∧
          m''.ledger.live = m.ledger.live ∧
          m''.ledger.released = q.blocks + m'.ledger.released ∧ m''.ledger.released.Nodup) ∧
      (status = .parseFailed → q = Pipeline.zero ∧ m'.ledger.live = m.ledger.live) ∧
      m'.ledger.released.Nodup := by
  obtain ⟨⟨status, _, e'⟩, m', hrun, q, rfl, hlive, hstatus⟩ :=
    wp_iff.mp (pipelineParse_spec (σ := σ) line p e (m := m) rfl)
  refine ⟨status, q, e', m', hrun, ?_, ?_, m'.ledger.released_nodup⟩
  · rintro rfl
    obtain ⟨-, cap, vs, hbuilt, hmeans⟩ := hstatus.resolve_right fun h => nomatch h.1
    refine ⟨?_, hlive, nodup_of_live_eq hlive, fun σ' => ?_⟩
    · obtain ⟨_, q₀, e₀, m₀, hrun₀, ⟨rfl, cap₀, vs₀, hbuilt₀, hmeans₀⟩ | ⟨-, pos, msg, herr⟩⟩ :=
        pipelineParse_run line p e m
      · cases hmeans.unique hmeans₀
        exact ⟨vs, q₀, e₀, m₀, hbuilt.read, hbuilt₀.read, hrun₀⟩
      · cases hmeans.unique herr
    · obtain ⟨_, m'', hfree, rfl, hlive'', hreleased⟩ :=
        wp_iff.mp (pipelineFree_spec (σ := σ') hbuilt hlive)
      exact ⟨m'', hfree, hlive'', hreleased, m''.ledger.released_nodup⟩
  · rintro rfl
    obtain ⟨-, rfl, -⟩ := hstatus.resolve_left fun h => nomatch h.1
    exact ⟨rfl, hlive.trans (zero_add _)⟩

end SystemsCourse
