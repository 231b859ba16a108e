import Mathlib.Algebra.BigOperators.Group.List.Basic
import Mathlib.Algebra.Order.Group.Multiset
import Mathlib.Tactic.Abel
import SystemsCourse.AllocationLedger

/-!
# Programs over a heap whose requests may be refused

A `Prog α` is a C function body: run against a *script* that says which of its
allocation requests are refused, it turns a memory into a result and a memory,
or has no result at all.  `none` is the outcome of everything C leaves undefined
here — releasing a block that is not live, leaving a block's bounds, reading a
cell nothing was stored in — and of a loop that does not end.  A theorem that a
program returns therefore says that it does none of these.

A pointer carries the block it points to: the block's number in the ledger and
the contents of its cells (`none` for a cell nothing was stored in).  This is a
faithful picture of code in which every block has one owner at a time, and it
lets a struct of C be a structure of Lean.

`wp` is the weakest precondition of a program, for total correctness, and
`wp_loop` its rule for loops: an invariant, and a measure that falls.
-/
namespace SystemsCourse

/-- Which allocation requests are refused: `σ k = true` refuses the `k`-th. -/
abbrev Script := Nat → Bool

/-- No request is refused. -/
def Script.generous : Script := fun _ => false

/-- Some request is refused. -/
def Script.Refuses (σ : Script) : Prop := ∃ k, σ k = true

@[simp] theorem Script.not_refuses_generous : ¬ Script.generous.Refuses :=
  fun ⟨_, h⟩ => Bool.noConfusion h

/-- The heap, and the number of allocation requests made so far. -/
structure Memory where
  ledger : Ledger
  requests : Nat

/-- A memory in which nothing has been allocated. -/
def Memory.empty : Memory := ⟨Ledger.empty, 0⟩

/-- A program with a result in `α`. -/
def Prog (α : Type) := Script → Memory → Option (α × Memory)

namespace Prog
variable {α β γ : Type}

instance : Monad Prog where
  pure a := fun _ m => some (a, m)
  bind x f := fun σ m =>
    match x σ m with
    | none => none
    | some (a, m') => f a σ m'

/-- A program with no result. -/
def stuck : Prog α := fun _ _ => none

/-- The result of a partial operation. -/
def ofOption : Option α → Prog α
  | none => stuck
  | some a => pure a

theorem bind_apply (x : Prog α) (f : α → Prog β) (σ : Script) (m : Memory) :
    (x >>= f) σ m = (x σ m).bind fun r => f r.1 σ r.2 := by
  show (match x σ m with | none => none | some (a, m') => f a σ m') = _
  cases x σ m <;> rfl

theorem pure_seq (a : α) (f : α → Prog β) : pure a >>= f = f a := rfl

theorem seq_pure (x : Prog α) : x >>= pure = x := by
  funext σ m
  rw [bind_apply]
  exact Option.bind_fun_some (x σ m)

theorem seq_assoc (x : Prog α) (f : α → Prog β) (g : β → Prog γ) :
    x >>= f >>= g = x >>= fun a => f a >>= g := by
  funext σ m
  simp only [bind_apply, Option.bind_assoc]

/-- `wp x σ Q m`: run against `σ` from `m`, the program `x` returns, and `Q`
holds of its result. -/
def wp (x : Prog α) (σ : Script) (Q : α → Memory → Prop) (m : Memory) : Prop :=
  match x σ m with
  | none => False
  | some (a, m') => Q a m'

variable {σ : Script} {m : Memory}

theorem wp_iff {x : Prog α} {Q : α → Memory → Prop} :
    wp x σ Q m ↔ ∃ a m', x σ m = some (a, m') ∧ Q a m' := by
  unfold wp
  cases x σ m with
  | none => simp
  | some r => exact ⟨fun h => ⟨r.1, r.2, rfl, h⟩, fun ⟨_, _, hr, h⟩ => by cases hr; exact h⟩

/-- What a run that is known satisfies. -/
theorem wp.of_run {x : Prog α} {Q : α → Memory → Prop} {a : α} {m' : Memory}
    (h : wp x σ Q m) (hrun : x σ m = some (a, m')) : Q a m' := by
  rw [wp, hrun] at h
  exact h

@[simp] theorem wp_pure {a : α} {Q : α → Memory → Prop} :
    wp (pure a : Prog α) σ Q m ↔ Q a m := Iff.rfl

@[simp] theorem wp_bind {x : Prog α} {f : α → Prog β} {Q : β → Memory → Prop} :
    wp (x >>= f) σ Q m ↔ wp x σ (fun a m' => wp (f a) σ Q m') m := by
  show (match (match x σ m with | none => none | some (a, m') => f a σ m') with
    | none => False | some (b, m') => Q b m') ↔ _
  unfold wp
  cases x σ m <;> rfl

@[simp] theorem wp_map {x : Prog α} {f : α → β} {Q : β → Memory → Prop} :
    wp (f <$> x) σ Q m ↔ wp x σ (fun a m' => Q (f a) m') m := wp_bind

@[simp] theorem wp_ofOption_some {a : α} {Q : α → Memory → Prop} :
    wp (ofOption (some a)) σ Q m ↔ Q a m := Iff.rfl

theorem wp_mono {x : Prog α} {P Q : α → Memory → Prop} (h : wp x σ P m)
    (hPQ : ∀ a m', P a m' → Q a m') : wp x σ Q m := by
  obtain ⟨a, m', hrun, hP⟩ := wp_iff.mp h
  exact wp_iff.mpr ⟨a, m', hrun, hPQ a m' hP⟩

/-- **Sequencing**: a specification of the first part is all the second part
knows about it. -/
theorem wp_seq {x : Prog α} {f : α → Prog β} {P : α → Memory → Prop} {Q : β → Memory → Prop}
    (hx : wp x σ P m) (hf : ∀ a m', P a m' → wp (f a) σ Q m') : wp (x >>= f) σ Q m :=
  wp_bind.mpr (wp_mono hx hf)

/-! ## Loops -/

/-- How one pass of a loop ends: with the state of the next pass, or with the
result of the loop (a `break`, a `return` or the end of the loop). -/
inductive LoopStep (ς β : Type) where
  | again (s : ς)
  | done (b : β)

variable {ς : Type}

/-- What a pass establishes, by the way it ends. -/
def LoopStep.Ends (again : ς → Prop) (done : β → Prop) : LoopStep ς β → Prop
  | .again s => again s
  | .done b => done b

@[simp] theorem LoopStep.ends_again {P : ς → Prop} {R : β → Prop} {s : ς} :
    LoopStep.Ends P R (.again s) ↔ P s := Iff.rfl

@[simp] theorem LoopStep.ends_done {P : ς → Prop} {R : β → Prop} {b : β} :
    LoopStep.Ends P R (.done b) ↔ R b := Iff.rfl

/-- Repeat `body`, at most `fuel` times.  A loop that needs more passes has no
result. -/
def loop (body : ς → Prog (LoopStep ς β)) : Nat → ς → Prog β
  | 0, _ => stuck
  | fuel + 1, s => do
      match ← body s with
      | .again s' => loop body fuel s'
      | .done b => pure b

/-- **The rule for loops.**  If every pass from a state with the invariant either
ends the loop in `Q` or keeps the invariant and lowers the measure, then the loop
ends in `Q`, given as many passes as the measure says. -/
theorem wp_loop {body : ς → Prog (LoopStep ς β)} (Inv : ς → Memory → Prop) (μ : ς → Nat)
    {Q : β → Memory → Prop}
    (hbody : ∀ s m, Inv s m →
      wp (body s) σ (fun r m' => r.Ends (fun s' => Inv s' m' ∧ μ s' < μ s) (fun b => Q b m')) m) :
    ∀ (fuel : Nat) (s : ς) (m : Memory), μ s < fuel → Inv s m → wp (loop body fuel s) σ Q m := by
  intro fuel
  induction fuel with
  | zero => intro s m hμ _; exact absurd hμ (Nat.not_lt_zero _)
  | succ fuel ih =>
    intro s m hμ hs
    refine wp_seq (hbody s m hs) ?_
    intro out m' h
    rcases out with s' | b
    · exact ih s' m' (by have := h.2; omega) h.1
    · exact h

/-- `for (i = 0; i < n; i++) body(i)`, from `i` with `k` passes left. -/
def forFrom (body : Nat → Prog Unit) : Nat → Nat → Prog Unit
  | _, 0 => pure ()
  | i, k + 1 => do
      body i
      forFrom body (i + 1) k

/-- `for (i = 0; i < n; i++) body(i)`. -/
def forUpTo (n : Nat) (body : Nat → Prog Unit) : Prog Unit := forFrom body 0 n

/-- **The rule for counted loops**: an invariant of the counter. -/
theorem wp_forUpTo {n : Nat} {body : Nat → Prog Unit} (Inv : Nat → Memory → Prop)
    (hbody : ∀ i m, i < n → Inv i m → wp (body i) σ (fun _ m' => Inv (i + 1) m') m)
    (h0 : Inv 0 m) : wp (forUpTo n body) σ (fun _ m' => Inv n m') m := by
  have key : ∀ k i m, i + k = n → Inv i m → wp (forFrom body i k) σ (fun _ m' => Inv n m') m := by
    intro k
    induction k with
    | zero =>
      intro i m hn hi
      rw [show n = i from by omega]
      exact hi
    | succ k ih =>
      intro i m hn hi
      exact wp_seq (hbody i m (by omega) hi) fun _ m' h => ih (i + 1) m' (by omega) h
  exact key n 0 m (by omega) h0

end Prog

/-! ## Blocks -/

/-- A block of the heap: its number and its cells. -/
structure Block (α : Type) where
  addr : Addr
  cells : List (Option α)

/-- What a partial map that succeeds on a list yields at each position. -/
theorem getElem_of_mapM {α β : Type} {f : α → Option β} {xs : List α} {ys : List β}
    (h : xs.mapM f = some ys) : xs.length = ys.length ∧
      ∀ (i : Nat) (hi : i < xs.length) (hi' : i < ys.length), f xs[i] = some ys[i] := by
  induction xs generalizing ys with
  | nil => cases h; exact ⟨rfl, fun i hi => absurd hi (Nat.not_lt_zero _)⟩
  | cons x xs ih =>
    rw [List.mapM_cons] at h
    obtain ⟨y, hy, h⟩ := Option.bind_eq_some_iff.mp h
    obtain ⟨ys', hys, h⟩ := Option.bind_eq_some_iff.mp h
    cases h
    obtain ⟨hlen, hget⟩ := ih hys
    refine ⟨congrArg (· + 1) hlen, fun i hi hi' => ?_⟩
    cases i with
    | zero => exact hy
    | succ i => exact hget i (Nat.lt_of_succ_lt_succ hi) (Nat.lt_of_succ_lt_succ hi')

/-- A pointer to the start of a block, or null. -/
abbrev Ptr (α : Type) := Option (Block α)

namespace Ptr
variable {α : Type}

/-- The block a pointer owns. -/
def own : Ptr α → Multiset Addr
  | none => 0
  | some b => {b.addr}

@[simp] theorem own_none : own (none : Ptr α) = 0 := rfl

@[simp] theorem own_some (b : Block α) : own (some b : Ptr α) = {b.addr} := rfl

/-- The cells a pointer leads to. -/
def cells : Ptr α → List (Option α)
  | none => []
  | some b => b.cells

/-- The first `n` elements behind a pointer, if something was stored in each. -/
def items (p : Ptr α) (n : Nat) : Option (List α) :=
  if n ≤ p.cells.length then (p.cells.take n).mapM id else none

theorem length_of_items {p : Ptr α} {n : Nat} {xs : List α} (h : p.items n = some xs) :
    xs.length = n := by
  unfold items at h
  split_ifs at h with hn
  rw [← (getElem_of_mapM h).1, List.length_take_of_le hn]

/-- `p` leads to an array of `cap` cells, the first of which hold `xs`; a null
pointer is an array without cells. -/
def Holds (p : Ptr α) (cap : Nat) (xs : List α) : Prop :=
  p.cells.length = cap ∧ xs.map some <+: p.cells

theorem Holds.length_le {p : Ptr α} {cap : Nat} {xs : List α} (h : p.Holds cap xs) :
    xs.length ≤ cap := by
  have := h.2.length_le
  rw [List.length_map, h.1] at this
  exact this

theorem holds_none : Holds (none : Ptr α) 0 [] := ⟨rfl, List.nil_prefix⟩

theorem Holds.init {p : Ptr α} {cap : Nat} {xs ys : List α} (h : p.Holds cap (xs ++ ys)) :
    p.Holds cap xs :=
  ⟨h.1, by
    have := h.2
    rw [List.map_append] at this
    exact (List.prefix_append _ _).trans this⟩

theorem Holds.getElem? {p : Ptr α} {cap : Nat} {xs : List α} (h : p.Holds cap xs) {i : Nat}
    (hi : i < xs.length) : p.cells[i]? = some (some xs[i]) := by
  obtain ⟨rest, hrest⟩ := h.2
  rw [← hrest, List.getElem?_append_left (by simpa using hi)]
  simp [hi]

/-- An array `xs` with the terminator `z` behind its last element, once it has
one. -/
def HoldsTerminated (p : Ptr α) (cap : Nat) (z : α) (xs : List α) : Prop :=
  p.Holds cap xs ∧ (xs ≠ [] → p.Holds cap (xs ++ [z]))

theorem holdsTerminated_none (z : α) : HoldsTerminated (none : Ptr α) 0 z [] :=
  ⟨holds_none, fun h => absurd rfl h⟩

theorem mapM_id_map_some (xs : List α) : (xs.map some).mapM id = some xs := by
  induction xs with
  | nil => rfl
  | cons x xs ih => simp [List.mapM_cons, ih]

theorem Holds.items {p : Ptr α} {cap : Nat} {xs : List α} (h : p.Holds cap xs) :
    p.items xs.length = some xs := by
  obtain ⟨rest, hrest⟩ := h.2
  have hle : xs.length ≤ p.cells.length := h.1 ▸ h.length_le
  rw [Ptr.items, if_pos hle, ← hrest, List.take_left' (by simp), mapM_id_map_some]

end Ptr

namespace Prog
variable {α : Type} {σ : Script} {m : Memory}

/-! ## Heap operations -/

/-- `malloc`: a block of `n` cells in which nothing is stored, or null. -/
def malloc (n : Nat) : Prog (Ptr α) := fun σ m =>
  if σ m.requests then some (none, { m with requests := m.requests + 1 })
  else some (some ⟨m.ledger.next, List.replicate n none⟩, ⟨m.ledger.grant, m.requests + 1⟩)

/-- `free`: null is ignored; anything else must be live. -/
def free : Ptr α → Prog Unit
  | none => pure ()
  | some b => fun _ m =>
      if h : b.addr ∈ m.ledger.live then some ((), { m with ledger := m.ledger.release b.addr h })
      else none

/-- `realloc` to `n` cells: the block moves and keeps the cells that fit, or the
request is refused and the old block stays as it is. -/
def realloc (p : Ptr α) (n : Nat) : Prog (Ptr α) := do
  match ← malloc (α := α) n with
  | none => return none
  | some b =>
      free p
      return some { b with cells := p.cells.take n ++ List.replicate (n - p.cells.length) none }

/-- Read `p[i]`. -/
def load (p : Ptr α) (i : Nat) : Prog α :=
  ofOption (p.cells[i]?.bind id)

/-- Write `p[i]`. -/
def store (p : Ptr α) (i : Nat) (x : α) : Prog (Ptr α) :=
  match p with
  | none => stuck
  | some b => if i < b.cells.length then pure (some { b with cells := b.cells.set i (some x) }) else stuck

/-- `p[n++] = x; p[n] = z;`: an element, and a terminator behind it. -/
def storeTerminated (p : Ptr α) (n : Nat) (x z : α) : Prog (Ptr α) := do
  let p ← store p n x
  store p (n + 1) z

/-- `memcpy` of `xs` to the start of a block. -/
def memcpy (p : Ptr α) (xs : List α) : Prog (Ptr α) :=
  match p with
  | none => stuck
  | some b =>
      if xs.length ≤ b.cells.length then
        pure (some { b with cells := xs.map some ++ b.cells.drop xs.length })
      else stuck

theorem malloc_spec (n : Nat) :
    wp (malloc (α := α) n) σ (fun p m' =>
      m'.ledger.live = p.own + m.ledger.live ∧ m'.ledger.released = m.ledger.released ∧
      ((p = none ∧ σ.Refuses) ∨ ∃ a, p = some ⟨a, List.replicate n none⟩)) m := by
  unfold wp malloc
  by_cases h : σ m.requests
  · simp [h, Script.Refuses, exists_const]
    exact ⟨_, h⟩
  · simp [h]

/-- A released block leaves the rest of the heap as it is. -/
theorem free_spec {p : Ptr α} {F : Multiset Addr} (h : m.ledger.live = p.own + F) :
    wp (free p) σ (fun _ m' => m'.ledger.live = F ∧
      m'.ledger.released = p.own + m.ledger.released) m := by
  cases p with
  | none => simpa [free] using h
  | some b =>
    have hb : b.addr ∈ m.ledger.live := by rw [h]; simp
    have hrun : free (some b) σ m
        = some ((), { m with ledger := m.ledger.release b.addr hb }) := dif_pos hb
    refine wp_iff.mpr ⟨_, _, hrun, m.ledger.live_release_of_eq h hb, ?_⟩
    simp

theorem realloc_spec {p : Ptr α} {F : Multiset Addr} (n : Nat)
    (h : m.ledger.live = p.own + F) :
    wp (realloc p n) σ (fun q m' =>
      (q = none ∧ σ.Refuses ∧ m'.ledger.live = p.own + F) ∨
      ∃ a, q = some ⟨a, p.cells.take n ++ List.replicate (n - p.cells.length) none⟩ ∧
        m'.ledger.live = {a} + F) m := by
  refine wp_seq (malloc_spec n) ?_
  intro q m₁ hpost
  rcases hpost with ⟨hlive, _, ⟨rfl, hσ⟩ | ⟨a, rfl⟩⟩
  · exact Or.inl ⟨rfl, hσ, by simpa [h] using hlive⟩
  · have hlive' : m₁.ledger.live = p.own + ({a} + F) := by
      rw [hlive, h, Ptr.own_some]
      exact add_left_comm _ _ _
    refine wp_seq (free_spec hlive') ?_
    intro _ m₂ hpost
    obtain ⟨hlive₂, _⟩ := hpost
    exact Or.inr ⟨a, rfl, hlive₂⟩

theorem load_spec {p : Ptr α} {cap : Nat} {xs : List α} (h : p.Holds cap xs) {i : Nat}
    (hi : i < xs.length) {Q : α → Memory → Prop} : wp (load p i) σ Q m ↔ Q xs[i] m := by
  rw [load, h.getElem? hi]
  exact wp_ofOption_some

/-- Writing behind the last element of an array appends to it. -/
theorem store_spec {p : Ptr α} {cap : Nat} {xs : List α} (h : p.Holds cap xs) (x : α)
    (hcap : xs.length < cap) :
    wp (store p xs.length x) σ (fun q m' => m' = m ∧ q.own = p.own ∧ q.Holds cap (xs ++ [x])) m := by
  cases p with
  | none => exact absurd h.1.symm (by simp [Ptr.cells]; omega)
  | some b =>
    obtain ⟨hlen, hpre⟩ := h
    have hlt : xs.length < b.cells.length := by rw [show b.cells.length = cap from hlen]; exact hcap
    rw [store, if_pos hlt]
    refine ⟨rfl, rfl, ?_, ?_⟩
    · simpa [Ptr.cells] using hlen
    · obtain ⟨rest, hrest⟩ := hpre
      change xs.map some ++ rest = b.cells at hrest
      cases rest with
      | nil =>
        rw [← hrest] at hlt
        simp at hlt
      | cons y rest =>
        refine ⟨rest, ?_⟩
        show _ = b.cells.set xs.length (some x)
        rw [← hrest, List.set_append_right _ _ (by simp)]
        simp

theorem storeTerminated_spec {p : Ptr α} {cap : Nat} {xs : List α} (h : p.Holds cap xs) (x z : α)
    (hcap : xs.length + 1 < cap) :
    wp (storeTerminated p xs.length x z) σ (fun q m' =>
      m' = m ∧ q.own = p.own ∧ q.HoldsTerminated cap z (xs ++ [x])) m := by
  refine wp_seq (store_spec h x (by omega)) ?_
  intro q m' hpost
  obtain ⟨rfl, hown, hq⟩ := hpost
  have hz := store_spec (σ := σ) (m := m') hq z (by simpa using hcap)
  rw [List.length_append, List.length_singleton] at hz
  refine wp_mono hz ?_
  intro q' _ hpost
  obtain ⟨rfl, hown', hq'⟩ := hpost
  exact ⟨rfl, hown'.trans hown, hq'.init, fun _ => hq'⟩

/-- Releasing the elements of an array one by one. -/
theorem free_each_spec {p : Ptr α} {cap : Nat} {xs : List α} (h : p.Holds cap xs)
    (own : α → Multiset Addr) (freeItem : α → Prog Unit)
    (hitem : ∀ x ∈ xs, ∀ m F, m.ledger.live = own x + F → wp (freeItem x) σ (fun _ m' =>
      m'.ledger.live = F ∧ m'.ledger.released = own x + m.ledger.released) m)
    {F : Multiset Addr} (hlive : m.ledger.live = (xs.map own).sum + F) :
    wp (forUpTo xs.length (fun i => do freeItem (← load p i))) σ (fun _ m' =>
      m'.ledger.live = F ∧ m'.ledger.released = (xs.map own).sum + m.ledger.released) m := by
  refine wp_mono (wp_forUpTo (fun i m' => m'.ledger.live = ((xs.drop i).map own).sum + F ∧
    m'.ledger.released = ((xs.take i).map own).sum + m.ledger.released) ?_ ?_) ?_
  · intro i m' hi hpost
    obtain ⟨hlive', hrel⟩ := hpost
    rw [wp_bind, load_spec h hi]
    rw [List.drop_eq_getElem_cons hi, List.map_cons, List.sum_cons, add_assoc] at hlive'
    refine wp_mono (hitem _ (List.getElem_mem hi) _ _ hlive') ?_
    intro _ m'' hpost
    obtain ⟨hlive'', hrel'⟩ := hpost
    refine ⟨hlive'', ?_⟩
    rw [hrel', hrel, List.take_succ_eq_append_getElem hi, List.map_append, List.sum_append]
    simp only [List.map_cons, List.map_nil, List.sum_cons, List.sum_nil, add_zero]
    abel
  · simpa using hlive
  · rintro _ m' h'
    simpa using h'

theorem memcpy_spec {b : Block α} {xs : List α} (h : xs.length ≤ b.cells.length) :
    wp (memcpy (some b) xs) σ (fun q m' =>
      m' = m ∧ q.own = {b.addr} ∧ q.Holds b.cells.length xs) m := by
  rw [memcpy, if_pos h]
  refine ⟨rfl, rfl, ?_, List.prefix_append _ _⟩
  simp only [Ptr.cells, List.length_append, List.length_map, List.length_drop]
  omega

end Prog
end SystemsCourse
