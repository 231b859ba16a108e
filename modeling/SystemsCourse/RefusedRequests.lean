import SystemsCourse.CString

/-!
# Programs that stop at a refused request

Most C code asks for nothing more once a request has been refused: it reports, releases
what it holds and returns.  `StopsAtRefusal x Q R` says this of a program.  Either all
requests of a run are granted, and `Q` holds of the result and of their number; or the
last one is refused, and only that one, and `R` holds of the result.  In both cases the
run depends on the answers to its own requests alone.

So a program has one run more than it makes requests when all are granted: that one
run, and one for each request that may be refused first
(`StopsAtRefusal.eq_of_grants`, `StopsAtRefusal.of_firstRefusal`).
-/
namespace SystemsCourse

namespace Script

/-- The `k` requests from number `r` on are granted. -/
def Grants (σ : Script) (r k : Nat) : Prop := ∀ j, j < k → σ (r + j) = false

/-- Of the requests from number `r` on, the first `k` are granted and the next is
refused. -/
structure FirstRefusal (σ : Script) (r k : Nat) : Prop where
  before : σ.Grants r k
  refused : σ (r + k) = true

/-- Two scripts give the same answers to the `k` requests from number `r` on. -/
def Agrees (σ τ : Script) (r k : Nat) : Prop := ∀ j, j < k → σ (r + j) = τ (r + j)

variable {σ τ : Script} {r k l : Nat}

theorem grants_zero : σ.Grants r 0 := fun _ h => absurd h (Nat.not_lt_zero _)

theorem Grants.append (hk : σ.Grants r k) (hl : σ.Grants (r + k) l) : σ.Grants r (k + l) := by
  intro j hj
  by_cases hlt : j < k
  · exact hk j hlt
  · have := hl (j - k) (by omega)
    rwa [show r + k + (j - k) = r + j by omega] at this

theorem FirstRefusal.append (hk : σ.Grants r k) (hl : σ.FirstRefusal (r + k) l) :
    σ.FirstRefusal r (k + l) :=
  ⟨hk.append hl.before, Nat.add_assoc r k l ▸ hl.refused⟩

theorem Agrees.left (h : σ.Agrees τ r (k + l)) : σ.Agrees τ r k := fun j hj => h j (by omega)

theorem Agrees.right (h : σ.Agrees τ r (k + l)) : σ.Agrees τ (r + k) l := by
  intro j hj
  rw [Nat.add_assoc]
  exact h (k + j) (by omega)

theorem Grants.agrees_generous (h : σ.Grants r k) : σ.Agrees generous r k := h

theorem Grants.generous_agrees (h : σ.Grants r k) : generous.Agrees σ r k :=
  fun j hj => (h j hj).symm

/-- A request is not both granted and the first that is refused. -/
theorem FirstRefusal.le_of_grants (h : σ.FirstRefusal r k) (hl : σ.Grants r l) : l ≤ k := by
  apply Nat.le_of_not_lt
  intro hlt
  exact Bool.noConfusion ((hl k hlt).symm.trans h.refused)

theorem FirstRefusal.eq (h : σ.FirstRefusal r k) (h' : σ.FirstRefusal r l) : k = l :=
  Nat.le_antisymm (h'.le_of_grants h.before) (h.le_of_grants h'.before)

end Script

namespace Prog
variable {α β ς : Type}

/-- How a run ends that makes `k` requests from number `r` on. -/
inductive Stops (Q : α → Nat → Prop) (R : α → Prop) (σ : Script) (r : Nat) (a : α) : Nat → Prop
  | granted {k : Nat} (grants : σ.Grants r k) (result : Q a k) : Stops Q R σ r a k
  | refused {k : Nat} (first : σ.FirstRefusal r k) (result : R a) : Stops Q R σ r a (k + 1)

/-- The run of `x` from `m` to `m'` makes `k` requests, depends on the answers to
these alone, and ends as `Stops` says. -/
structure RunStops (x : Prog α) (Q : α → Nat → Prop) (R : α → Prop) (σ : Script) (m : Memory) (a : α)
    (m' : Memory) (k : Nat) : Prop where
  requests : m'.requests = m.requests + k
  determined : ∀ τ : Script, τ.Agrees σ m.requests k → x τ m = some (a, m')
  ending : Stops Q R σ m.requests a k

/-- **Every run of `x` stops at the first request that is refused.** -/
def StopsAtRefusal (x : Prog α) (Q : α → Nat → Prop) (R : α → Prop) : Prop :=
  ∀ σ m a m', x σ m = some (a, m') → ∃ k, RunStops x Q R σ m a m' k

/-- Every run of `x` makes no request, and its result satisfies `P`. -/
abbrev Quiet (x : Prog α) (P : α → Prop) : Prop :=
  StopsAtRefusal x (fun a k => k = 0 ∧ P a) (fun _ => False)

/-- A program whose result does not depend on the script and that makes no request. -/
theorem Quiet.of_eq {x : Prog α} {P : α → Prop}
    (h : ∀ σ m a m', x σ m = some (a, m') → m'.requests = m.requests ∧ (∀ τ, x τ m = some (a, m')) ∧ P a) :
    Quiet x P := by
  intro σ m a m' hrun
  obtain ⟨hrequests, hdetermined, hP⟩ := h σ m a m' hrun
  exact ⟨0, hrequests, fun τ _ => hdetermined τ, .granted Script.grants_zero ⟨rfl, hP⟩⟩

namespace StopsAtRefusal
variable {Q : α → Nat → Prop} {R : α → Prop}

theorem mono {x : Prog α} {Q' : α → Nat → Prop} {R' : α → Prop} (h : StopsAtRefusal x Q R)
    (hQ : ∀ a k, Q a k → Q' a k) (hR : ∀ a, R a → R' a) : StopsAtRefusal x Q' R' := by
  intro σ m a m' hrun
  obtain ⟨k, hrequests, hdetermined, hending⟩ := h σ m a m' hrun
  refine ⟨k, hrequests, hdetermined, ?_⟩
  rcases hending with ⟨hgrants, hresult⟩ | ⟨hfirst, hresult⟩
  · exact .granted hgrants (hQ _ _ hresult)
  · exact .refused hfirst (hR _ hresult)

/-- Returning is the end of a run in which all requests were granted. -/
theorem pure {a : α} (h : Q a 0) : StopsAtRefusal (Pure.pure a) Q R := by
  intro σ m a' m' hrun
  cases hrun
  exact ⟨0, rfl, fun _ _ => rfl, .granted Script.grants_zero h⟩

/-- A program without a run. -/
theorem of_stuck : StopsAtRefusal (Prog.stuck : Prog α) Q R :=
  fun _ _ _ _ hrun => (Option.some_ne_none _ hrun.symm).elim

/-- A run of a sequence is a run of its first part and one of its second. -/
theorem exists_of_seq {x : Prog α} {f : α → Prog β} {σ : Script} {m m' : Memory} {b : β}
    (h : (x >>= f) σ m = some (b, m')) : ∃ a m₁, x σ m = some (a, m₁) ∧ f a σ m₁ = some (b, m') := by
  rw [bind_apply] at h
  obtain ⟨⟨a, m₁⟩, hx, hf⟩ := Option.bind_eq_some_iff.mp h
  exact ⟨a, m₁, hx, hf⟩

/-- **Sequencing**: the second part goes on with the requests, or is quiet if the
first part was refused one. -/
theorem seq {x : Prog α} {f : α → Prog β} {Q' : β → Nat → Prop} {R' : β → Prop}
    (hx : StopsAtRefusal x Q R)
    (hf : ∀ a k, Q a k → StopsAtRefusal (f a) (fun b l => Q' b (k + l)) R')
    (hr : ∀ a, R a → Quiet (f a) R') : StopsAtRefusal (x >>= f) Q' R' := by
  intro σ m b m' hrun
  obtain ⟨a, m₁, hxrun, hfrun⟩ := exists_of_seq hrun
  obtain ⟨k, hrequests, hdetermined, hending⟩ := hx σ m a m₁ hxrun
  -- whatever the second part does, the runs of the two parts make one run
  have hjoin : ∀ l, m'.requests = m₁.requests + l →
      (∀ τ : Script, τ.Agrees σ m₁.requests l → f a τ m₁ = some (b, m')) →
      Stops Q' R' σ m.requests b (k + l) → ∃ n, RunStops (x >>= f) Q' R' σ m b m' n := by
    intro l hrequests' hdetermined' hending'
    refine ⟨k + l, by omega, fun τ hτ => ?_, hending'⟩
    rw [bind_apply, hdetermined τ hτ.left]
    exact hdetermined' τ (hrequests ▸ hτ.right)
  rcases hending with ⟨hgrants, hresult⟩ | ⟨hfirst, hresult⟩
  · obtain ⟨l, hrequests', hdetermined', hending'⟩ := hf a k hresult σ m₁ b m' hfrun
    refine hjoin l hrequests' hdetermined' ?_
    rw [hrequests] at hending'
    rcases hending' with ⟨hgrants', hresult'⟩ | ⟨hfirst', hresult'⟩
    · exact .granted (hgrants.append hgrants') hresult'
    · exact .refused (hfirst'.append hgrants) hresult'
  · obtain ⟨l, hrequests', hdetermined', hending'⟩ := hr a hresult σ m₁ b m' hfrun
    refine hjoin l hrequests' hdetermined' ?_
    rcases hending' with ⟨-, rfl, hresult'⟩ | ⟨-, hfalse⟩
    · exact .refused hfirst hresult'
    · exact hfalse.elim

/-- Behind a part that makes no request. -/
theorem quiet_seq {P : α → Prop} {x : Prog α} {f : α → Prog β} {Q' : β → Nat → Prop} {R' : β → Prop}
    (hx : Quiet x P) (hf : ∀ a, P a → StopsAtRefusal (f a) Q' R') : StopsAtRefusal (x >>= f) Q' R' := by
  refine seq hx ?_ fun _ hfalse => hfalse.elim
  rintro a k ⟨rfl, ha⟩
  exact (hf a ha).mono (fun b l h => (Nat.zero_add l).symm ▸ h) fun _ h => h

/-- What the program is known to return in every run. -/
theorem and_of_wp {x : Prog α} {P : α → Prop} (h : StopsAtRefusal x Q R)
    (hP : ∀ σ m, x.wp σ (fun a _ => P a) m) : StopsAtRefusal x (fun a k => Q a k ∧ P a) R := by
  intro σ m a m' hrun
  obtain ⟨k, hrequests, hdetermined, hending⟩ := h σ m a m' hrun
  refine ⟨k, hrequests, hdetermined, ?_⟩
  rcases hending with ⟨hgrants, hresult⟩ | ⟨hfirst, hresult⟩
  · exact .granted hgrants ⟨hresult, (hP σ m).of_run hrun⟩
  · exact .refused hfirst hresult

/-- **The rule for loops**: an invariant of the state and of the number of requests so
far; a pass that is refused a request ends the loop. -/
theorem loop {body : ς → Prog (LoopStep ς β)} {Q : β → Nat → Prop} {R : β → Prop}
    (Inv : ς → Nat → Prop)
    (hbody : ∀ s k, Inv s k → StopsAtRefusal (body s)
      (fun r l => r.Ends (fun s' => Inv s' (k + l)) (fun b => Q b (k + l)))
      (fun r => r.Ends (fun _ => False) R)) :
    ∀ fuel s k, Inv s k → StopsAtRefusal (Prog.loop body fuel s) (fun b l => Q b (k + l)) R := by
  intro fuel
  induction fuel with
  | zero => exact fun s k _ => of_stuck
  | succ fuel ih =>
    intro s k hs
    refine seq (hbody s k hs) ?_ ?_
    · intro r l hr
      cases r with
      | again s' => exact (ih s' (k + l) hr).mono (fun _ n h => Nat.add_assoc k l n ▸ h) fun _ h => h
      | done b => exact pure hr
    · intro r hr
      cases r with
      | again s' => exact hr.elim
      | done b => exact pure ⟨rfl, hr⟩

/-- A loop whose passes make no request. -/
theorem quiet_loop {body : ς → Prog (LoopStep ς β)} {P : β → Prop} (Inv : ς → Prop)
    (hbody : ∀ s, Inv s → Quiet (body s) (fun r => r.Ends Inv P)) (fuel : Nat) {s : ς} (hs : Inv s) :
    Quiet (Prog.loop body fuel s) P := by
  refine mono (loop (Q := fun b k => k = 0 ∧ P b) (R := fun _ => False) (fun s k => k = 0 ∧ Inv s) ?_
    fuel s 0 ⟨rfl, hs⟩) (fun b l h => Nat.zero_add l ▸ h) fun _ h => h
  rintro s k ⟨rfl, hs⟩
  refine (hbody s hs).mono ?_ fun _ hfalse => hfalse.elim
  rintro r l ⟨rfl, hr⟩
  cases r with
  | again s' => exact ⟨rfl, hr⟩
  | done b => exact ⟨rfl, hr⟩

theorem quiet_forUpTo {body : Nat → Prog Unit} (hbody : ∀ i, Quiet (body i) (fun _ => True)) (n : Nat) :
    Quiet (forUpTo n body) (fun _ => True) := by
  have key : ∀ k i, Quiet (forFrom body i k) (fun _ => True) := by
    intro k
    induction k with
    | zero => exact fun i => pure ⟨rfl, trivial⟩
    | succ k ih => exact fun i => quiet_seq (hbody i) fun _ _ => ih (i + 1)
  exact key n 0

end StopsAtRefusal

/-! ## The operations -/

open StopsAtRefusal

theorem quiet_ofOption (o : Option α) : Quiet (ofOption o) (fun a => o = some a) := by
  cases o with
  | none => exact of_stuck
  | some a => exact pure ⟨rfl, rfl⟩

theorem quiet_free (p : Ptr α) : Quiet (free p) (fun _ => True) := by
  cases p with
  | none => exact pure ⟨rfl, trivial⟩
  | some b =>
    refine Quiet.of_eq fun σ m _ m' hrun => ?_
    have hfree : ∀ τ, free (some b) τ m = free (some b) σ m := fun _ => rfl
    refine ⟨?_, fun τ => (hfree τ).trans hrun, trivial⟩
    by_cases hlive : b.addr ∈ m.ledger.live
    · rw [show free (some b) σ m = some ((), { m with ledger := m.ledger.release b.addr hlive })
        from dif_pos hlive] at hrun
      cases hrun
      rfl
    · rw [show free (some b) σ m = none from dif_neg hlive] at hrun
      cases hrun

theorem quiet_store (p : Ptr α) (i : Nat) (x : α) : Quiet (store p i x) (fun q => q.isSome) := by
  cases p with
  | none => exact of_stuck
  | some b =>
    rw [store]
    split_ifs
    · exact pure ⟨rfl, rfl⟩
    · exact of_stuck

theorem quiet_storeTerminated (p : Ptr α) (n : Nat) (x z : α) :
    Quiet (storeTerminated p n x z) (fun q => q.isSome) :=
  quiet_seq (quiet_store p n x) fun q _ => quiet_store q (n + 1) z

theorem quiet_memcpy (p : Ptr α) (xs : List α) : Quiet (memcpy p xs) (fun q => q.isSome) := by
  cases p with
  | none => exact of_stuck
  | some b =>
    rw [memcpy]
    split_ifs
    · exact pure ⟨rfl, rfl⟩
    · exact of_stuck

/-- `malloc` makes one request. -/
theorem malloc_stops (n : Nat) :
    StopsAtRefusal (malloc (α := α) n) (fun p k => p.isSome ∧ k = 1) (fun p => p = none) := by
  intro σ m p m' hrun
  have hdetermined : ∀ τ : Script, τ.Agrees σ m.requests 1 → malloc (α := α) n τ m = some (p, m') := by
    intro τ hτ
    rw [← hrun, malloc, malloc, show τ m.requests = σ m.requests from hτ 0 Nat.one_pos]
  rw [malloc] at hrun
  by_cases h : σ m.requests = true
  · rw [if_pos h] at hrun
    cases hrun
    exact ⟨1, rfl, hdetermined, .refused ⟨Script.grants_zero, h⟩ rfl⟩
  · rw [if_neg h] at hrun
    cases hrun
    refine ⟨1, rfl, hdetermined, .granted (fun j hj => ?_) ⟨rfl, rfl⟩⟩
    obtain rfl : j = 0 := by omega
    exact Bool.eq_false_iff.mpr h

theorem realloc_stops (p : Ptr α) (n : Nat) :
    StopsAtRefusal (realloc p n) (fun q k => q.isSome ∧ k = 1) (fun q => q = none) := by
  refine seq (malloc_stops n) ?_ ?_
  · rintro q k ⟨hq, rfl⟩
    obtain ⟨b, rfl⟩ := Option.isSome_iff_exists.mp hq
    exact quiet_seq (quiet_free p) fun _ _ => pure ⟨rfl, rfl⟩
  · rintro _ rfl
    exact pure ⟨rfl, rfl⟩

theorem strdup_stops (s : CString) :
    StopsAtRefusal (strdup s) (fun p k => p.isSome ∧ k = 1) (fun p => p = none) := by
  refine seq (malloc_stops _) ?_ ?_
  · rintro q k ⟨hq, rfl⟩
    obtain ⟨b, rfl⟩ := Option.isSome_iff_exists.mp hq
    refine (quiet_memcpy (some b) (s.bytes ++ [0])).mono ?_ fun _ hfalse => hfalse.elim
    rintro p l ⟨rfl, hp⟩
    exact ⟨hp, rfl⟩
  · rintro _ rfl
    exact pure ⟨rfl, rfl⟩

/-! ## All runs of a program -/

namespace StopsAtRefusal
variable {x : Prog α} {Q : α → Nat → Prop} {R : α → Prop} {m m₀ : Memory} {a₀ : α} {σ : Script}

/-- What the run does in which every request is granted. -/
theorem of_generous (h : StopsAtRefusal x Q R) (hrun : x Script.generous m = some (a₀, m₀)) :
    ∃ K, m₀.requests = m.requests + K ∧ Q a₀ K := by
  obtain ⟨K, hrequests, -, hending⟩ := h _ _ _ _ hrun
  rcases hending with ⟨-, hresult⟩ | ⟨hfirst, -⟩
  · exact ⟨K, hrequests, hresult⟩
  · exact Bool.noConfusion hfirst.refused

/-- A script that grants as many requests as that run makes has no other run. -/
theorem eq_of_grants (h : StopsAtRefusal x Q R) (hrun : x Script.generous m = some (a₀, m₀)) {K : Nat}
    (hK : m₀.requests = m.requests + K) (hσ : σ.Grants m.requests K) : x σ m = some (a₀, m₀) := by
  obtain ⟨K', hrequests, hdetermined, -⟩ := h _ _ _ _ hrun
  obtain rfl : K' = K := by omega
  exact hdetermined σ hσ.agrees_generous

/-- A script that refuses one of these requests ends the run at the first it refuses. -/
theorem of_firstRefusal (h : StopsAtRefusal x Q R) (hrun : x Script.generous m = some (a₀, m₀)) {K k : Nat}
    (hK : m₀.requests = m.requests + K) (hk : k < K) (hσ : σ.FirstRefusal m.requests k) {a : α}
    {m' : Memory} (hrunσ : x σ m = some (a, m')) : R a ∧ m'.requests = m.requests + k + 1 := by
  obtain ⟨l, hrequests, hdetermined, hending⟩ := h _ _ _ _ hrunσ
  rcases hending with ⟨hgrants, -⟩ | ⟨hfirst, hresult⟩
  · -- with all requests granted this would be the generous run, which makes more requests
    have hsame := hrun.symm.trans (hdetermined _ hgrants.generous_agrees)
    cases hsame
    have := hσ.le_of_grants hgrants
    omega
  · obtain rfl := hfirst.eq hσ
    exact ⟨hresult, by omega⟩

end StopsAtRefusal

end Prog
end SystemsCourse
