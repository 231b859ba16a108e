import SystemsCourse.MemoryProgram

/-!
# Programs that keep a log

A `Logged ε α` is a program that also writes down events: an index it reads, a
branch it takes, a request it makes.  The log is a ghost — no program reads it —
and `erase` forgets it.  Erasure respects sequencing, branches and loops, so a
program and its instrumented copy have the same runs, and a theorem about the log
of the copy is a theorem about the runs of the program.

Two ways to reason about them.  `Logged.wp` is total correctness, as `Prog.wp` is.
`Logged.wlp` is partial correctness and does not mention the heap: it says what
the result and the log of a run are, if there is a run.  That there is one follows
from what is known of the erased program (`Logged.wlp.exists_run`).
-/
namespace SystemsCourse

/-- A program with a result in `α` and a log of events in `ε`. -/
@[ext] structure Logged (ε α : Type) where
  run : Prog (α × List ε)

namespace Logged
open Prog (LoopStep)
variable {ε α β ς : Type}

instance : Monad (Logged ε) where
  pure a := ⟨pure (a, [])⟩
  bind x f := ⟨do
    let r ← x.run
    let r' ← (f r.1).run
    pure (r'.1, r.2 ++ r'.2)⟩

/-- A program without events. -/
def lift (x : Prog α) : Logged ε α := ⟨do
  let a ← x
  pure (a, [])⟩

/-- Write down an event. -/
def log (ev : ε) : Logged ε Unit := ⟨pure ((), [ev])⟩

/-- Repeat `body`, at most `fuel` times. -/
def loop (body : ς → Logged ε (LoopStep ς β)) : Nat → ς → Logged ε β
  | 0, _ => lift Prog.stuck
  | fuel + 1, s => do
      match ← body s with
      | .again s' => loop body fuel s'
      | .done b => pure b

theorem run_lift (x : Prog α) :
    (lift x : Logged ε α).run = x >>= fun a => pure (a, []) := rfl

theorem run_bind (x : Logged ε α) (f : α → Logged ε β) :
    (x >>= f).run = x.run >>= fun r => (f r.1).run >>= fun r' => pure (r'.1, r.2 ++ r'.2) := rfl

theorem pure_seq (a : α) (f : α → Logged ε β) : pure a >>= f = f a :=
  Logged.ext (Prog.seq_pure (f a).run)

theorem seq_assoc (x : Logged ε α) (f : α → Logged ε β) (g : β → Logged ε ς) :
    x >>= f >>= g = x >>= fun a => f a >>= g := by
  refine Logged.ext ?_
  simp only [run_bind, Prog.seq_assoc, Prog.pure_seq, List.append_assoc]

/-! ## Erasure -/

/-- The program without its log. -/
def erase (x : Logged ε α) : Prog α := do
  let r ← x.run
  pure r.1

theorem erase_run (x : Logged ε α) (σ : Script) (m : Memory) :
    x.erase σ m = (x.run σ m).map fun r => (r.1.1, r.2) := by
  rw [erase, Prog.bind_apply]
  exact Option.map_eq_bind.symm

@[simp] theorem erase_pure (a : α) : erase (pure a : Logged ε α) = pure a := rfl

@[simp] theorem erase_log (ev : ε) : erase (log ev) = pure () := rfl

@[simp] theorem erase_lift (x : Prog α) : erase (lift x : Logged ε α) = x := by
  simp only [erase, run_lift, Prog.seq_assoc, Prog.pure_seq]
  exact x.seq_pure

@[simp] theorem erase_bind (x : Logged ε α) (f : α → Logged ε β) :
    erase (x >>= f) = erase x >>= fun a => erase (f a) := by
  simp only [erase, run_bind, Prog.seq_assoc, Prog.pure_seq]

@[simp] theorem erase_ite (c : Prop) [Decidable c] (x y : Logged ε α) :
    erase (if c then x else y) = if c then erase x else erase y := by
  split <;> rfl

theorem lift_pure (a : α) : (lift (pure a) : Logged ε α) = pure a := rfl

theorem lift_bind (x : Prog α) (f : α → Prog β) :
    (lift (x >>= f) : Logged ε β) = lift x >>= fun a => lift (f a) := by
  refine Logged.ext ?_
  simp only [run_bind, run_lift, Prog.seq_assoc, Prog.pure_seq, List.nil_append]

theorem lift_ite (c : Prop) [Decidable c] (x y : Prog α) :
    (lift (if c then x else y) : Logged ε α) = if c then lift x else lift y := by
  split <;> rfl

/-- The loop erases to the loop of what its body erases to. -/
theorem erase_loop {body : ς → Logged ε (LoopStep ς β)} {plain : ς → Prog (LoopStep ς β)}
    (h : ∀ s, erase (body s) = plain s) :
    ∀ fuel s, erase (loop body fuel s) = Prog.loop plain fuel s := by
  intro fuel
  induction fuel with
  | zero => intro s; exact erase_lift _
  | succ fuel ih =>
    intro s
    rw [loop, Prog.loop, erase_bind, h]
    congr 1
    funext r
    cases r with
    | again s' => exact ih s'
    | done b => rfl

/-! ## Total correctness -/

/-- `wp x σ Q m`: run against `σ` from `m`, the program `x` returns, and `Q` holds
of its result, its log and the memory it leaves. -/
def wp (x : Logged ε α) (σ : Script) (Q : α → List ε → Memory → Prop) (m : Memory) : Prop :=
  x.run.wp σ (fun r m' => Q r.1 r.2 m') m

section Total
variable {σ : Script} {m : Memory}

theorem wp_iff {x : Logged ε α} {Q : α → List ε → Memory → Prop} :
    wp x σ Q m ↔ ∃ a l m', x.run σ m = some ((a, l), m') ∧ Q a l m' := by
  rw [wp, Prog.wp_iff]
  exact ⟨fun ⟨r, m', h⟩ => ⟨r.1, r.2, m', h⟩, fun ⟨a, l, m', h⟩ => ⟨(a, l), m', h⟩⟩

theorem wp_pure {a : α} {Q : α → List ε → Memory → Prop} :
    wp (pure a : Logged ε α) σ Q m ↔ Q a [] m := Iff.rfl

theorem wp_log {ev : ε} {Q : Unit → List ε → Memory → Prop} :
    wp (log ev) σ Q m ↔ Q () [ev] m := Iff.rfl

theorem wp_lift {x : Prog α} {Q : α → List ε → Memory → Prop} :
    wp (lift x : Logged ε α) σ Q m ↔ x.wp σ (fun a m' => Q a [] m') m :=
  Prog.wp_bind

theorem wp_bind {x : Logged ε α} {f : α → Logged ε β} {Q : β → List ε → Memory → Prop} :
    wp (x >>= f) σ Q m ↔
      wp x σ (fun a l m' => wp (f a) σ (fun b l' m'' => Q b (l ++ l') m'') m') m := by
  refine Prog.wp_bind.trans ?_
  simp only [Prog.wp_bind, Prog.wp_pure, wp]

theorem wp_mono {x : Logged ε α} {P Q : α → List ε → Memory → Prop} (h : wp x σ P m)
    (hPQ : ∀ a l m', P a l m' → Q a l m') : wp x σ Q m :=
  Prog.wp_mono h fun r m' => hPQ r.1 r.2 m'

/-- **Sequencing**, for the total rule. -/
theorem wp_seq {x : Logged ε α} {f : α → Logged ε β} {P : α → List ε → Memory → Prop}
    {Q : β → List ε → Memory → Prop} (hx : wp x σ P m)
    (hf : ∀ a l m', P a l m' → wp (f a) σ (fun b l' m'' => Q b (l ++ l') m'') m') :
    wp (x >>= f) σ Q m :=
  wp_bind.mpr (wp_mono hx hf)

end Total

/-! ## Partial correctness -/

/-- `wlp x Q`: every run of `x` that returns does so with a result and a log of
which `Q` holds. -/
def wlp (x : Logged ε α) (Q : α → List ε → Prop) : Prop :=
  ∀ σ m a l m', x.run σ m = some ((a, l), m') → Q a l

theorem wlp_pure {a : α} {Q : α → List ε → Prop} (h : Q a []) : wlp (pure a) Q := by
  intro σ m a' l m' hrun
  cases hrun
  exact h

theorem wlp_log {ev : ε} {Q : Unit → List ε → Prop} (h : Q () [ev]) : wlp (log ev) Q := by
  intro σ m a l m' hrun
  cases hrun
  exact h

theorem wlp_mono {x : Logged ε α} {P Q : α → List ε → Prop} (h : wlp x P)
    (hPQ : ∀ a l, P a l → Q a l) : wlp x Q :=
  fun σ m a l m' hrun => hPQ a l (h σ m a l m' hrun)

theorem wlp_lift {x : Prog α} {Q : α → List ε → Prop}
    (h : ∀ σ m a m', x σ m = some (a, m') → Q a []) : wlp (lift x) Q := by
  intro σ m a l m' hrun
  have hparts : wp (lift x) σ (fun a' l' _ => a' = a ∧ l' = l) m := wp_iff.mpr ⟨a, l, m', hrun, rfl, rfl⟩
  obtain ⟨a', m₁, hx, rfl, rfl⟩ := Prog.wp_iff.mp (wp_lift.mp hparts)
  exact h σ m a' m₁ hx

/-- **Sequencing**, for the partial rule. -/
theorem wlp_seq {x : Logged ε α} {f : α → Logged ε β} {P : α → List ε → Prop}
    {Q : β → List ε → Prop} (hx : wlp x P)
    (hf : ∀ a l, P a l → wlp (f a) (fun b l' => Q b (l ++ l'))) : wlp (x >>= f) Q := by
  intro σ m b l m' hrun
  -- the run of the sequence is a run of either part
  have hparts : wp (x >>= f) σ (fun b' l' _ => b' = b ∧ l' = l) m := wp_iff.mpr ⟨b, l, m', hrun, rfl, rfl⟩
  obtain ⟨a, l₁, m₁, hxrun, hrest⟩ := wp_iff.mp (wp_bind.mp hparts)
  obtain ⟨b', l₂, m₂, hfrun, rfl, rfl⟩ := wp_iff.mp hrest
  exact hf a l₁ (hx σ m a l₁ m₁ hxrun) σ m₁ b' l₂ m₂ hfrun

/-- **The rule for loops**: an invariant of the state and of the log so far. -/
theorem wlp_loop {body : ς → Logged ε (LoopStep ς β)} (Inv : ς → List ε → Prop)
    {Q : β → List ε → Prop}
    (hbody : ∀ s l, Inv s l →
      wlp (body s) (fun r l' => r.Ends (fun s' => Inv s' (l ++ l')) (fun b => Q b (l ++ l')))) :
    ∀ (fuel : Nat) (s : ς) (l : List ε), Inv s l → wlp (loop body fuel s) (fun b l' => Q b (l ++ l')) := by
  intro fuel
  induction fuel with
  | zero => intro s l _; exact wlp_lift fun σ m a m' hrun => nomatch hrun
  | succ fuel ih =>
    intro s l hs
    refine wlp_seq (hbody s l hs) ?_
    intro r l' h
    cases r with
    | again s' =>
      refine wlp_mono (ih s' (l ++ l') h) ?_
      intro b l'' hb
      rwa [← List.append_assoc]
    | done b =>
      refine wlp_pure ?_
      rwa [List.append_nil]

/-- **Runs.**  What the erased program is known to do, and what is known of the log
of any run, together describe a run that exists. -/
theorem wlp.exists_run {x : Logged ε α} {y : Prog α} {P : α → List ε → Prop}
    {Q : α → Memory → Prop} (h : wlp x P) (he : erase x = y) {σ : Script} {m : Memory}
    (hy : y.wp σ Q m) :
    ∃ a l m', x.run σ m = some ((a, l), m') ∧ y σ m = some (a, m') ∧ P a l ∧ Q a m' := by
  obtain ⟨a, m', hrun, hQ⟩ := Prog.wp_iff.mp hy
  obtain ⟨r, hx, hr⟩ := Option.map_eq_some_iff.mp ((erase_run x σ m).symm.trans (he ▸ hrun))
  cases hr
  exact ⟨_, r.1.2, _, hx, hrun, h σ m _ _ _ hx, hQ⟩

/-- What every logged run returns, every run of the erased program returns. -/
theorem wlp.of_run {x : Logged ε α} {P : α → List ε → Prop} (h : wlp x P) {σ : Script}
    {m m' : Memory} {a : α} (hrun : erase x σ m = some (a, m')) : ∃ l, P a l := by
  obtain ⟨r, hx, hr⟩ := Option.map_eq_some_iff.mp ((erase_run x σ m).symm.trans hrun)
  cases hr
  exact ⟨r.1.2, h σ m _ _ _ hx⟩

/-! ## Every event is all right -/

/-- `Emits Ok x Q`: in every run of `x` that returns, each event is `Ok`, and `Q`
holds of the result. -/
def Emits (Ok : ε → Prop) (x : Logged ε α) (Q : α → Prop) : Prop :=
  wlp x fun a l => (∀ ev ∈ l, Ok ev) ∧ Q a

namespace Emits
variable {Ok : ε → Prop}

theorem pure {a : α} {Q : α → Prop} (h : Q a) : Emits Ok (Pure.pure a : Logged ε α) Q :=
  wlp_pure ⟨fun _ hev => (List.not_mem_nil hev).elim, h⟩

theorem log {ev : ε} {Q : Unit → Prop} (hev : Ok ev) (h : Q ()) : Emits Ok (Logged.log ev) Q :=
  wlp_log ⟨fun _ hmem => List.mem_singleton.mp hmem ▸ hev, h⟩

theorem lift {x : Prog α} {Q : α → Prop} (h : ∀ σ m a m', x σ m = some (a, m') → Q a) :
    Emits Ok (Logged.lift x) Q :=
  wlp_lift fun σ m a m' hrun => ⟨fun _ hev => (List.not_mem_nil hev).elim, h σ m a m' hrun⟩

theorem mono {x : Logged ε α} {P Q : α → Prop} (h : Emits Ok x P) (hPQ : ∀ a, P a → Q a) :
    Emits Ok x Q :=
  wlp_mono h fun a _ ha => ⟨ha.1, hPQ a ha.2⟩

theorem seq {x : Logged ε α} {f : α → Logged ε β} {P : α → Prop} {Q : β → Prop}
    (hx : Emits Ok x P) (hf : ∀ a, P a → Emits Ok (f a) Q) : Emits Ok (x >>= f) Q := by
  refine wlp_seq hx ?_
  intro a l ha
  refine wlp_mono (hf a ha.2) ?_
  intro b l' hb
  exact ⟨List.forall_mem_append.mpr ⟨ha.1, hb.1⟩, hb.2⟩

/-- A part without events, of whose result nothing need be known. -/
theorem lift_seq {x : Prog α} {f : α → Logged ε β} {Q : β → Prop} (hf : ∀ a, Emits Ok (f a) Q) :
    Emits Ok (Logged.lift x >>= f) Q :=
  seq (lift (Q := fun _ => True) fun _ _ _ _ _ => trivial) fun a _ => hf a

theorem loop {body : ς → Logged ε (LoopStep ς β)} (Inv : ς → Prop) {Q : β → Prop}
    (hbody : ∀ s, Inv s → Emits Ok (body s) (fun r => r.Ends Inv Q)) (fuel : Nat) {s : ς}
    (hs : Inv s) : Emits Ok (Logged.loop body fuel s) Q := by
  refine wlp_loop (fun s l => (∀ ev ∈ l, Ok ev) ∧ Inv s) (Q := fun b l => (∀ ev ∈ l, Ok ev) ∧ Q b)
    ?_ fuel s [] ⟨fun _ hev => (List.not_mem_nil hev).elim, hs⟩
  intro s l hs
  refine wlp_mono (hbody s hs.2) ?_
  intro r l' hr
  have hl : ∀ ev ∈ l ++ l', Ok ev := List.forall_mem_append.mpr ⟨hs.1, hr.1⟩
  cases r with
  | again s' => exact ⟨hl, hr.2⟩
  | done b => exact ⟨hl, hr.2⟩

/-- What the erased program is known to return in every run holds of the logged
program's result too. -/
theorem and_of_wp {x : Logged ε α} {P Q : α → Prop} (h : Emits Ok x P)
    (hQ : ∀ σ m, (erase x).wp σ (fun a _ => Q a) m) : Emits Ok x (fun a => P a ∧ Q a) := by
  intro σ m a l m' hrun
  obtain ⟨hl, ha⟩ := h σ m a l m' hrun
  have herase : erase x σ m = some (a, m') := by rw [erase_run, hrun, Option.map_some]
  exact ⟨hl, ha, (hQ σ m).of_run herase⟩

end Emits

end Logged
end SystemsCourse
