import Mathlib.Data.List.Forall2
import SystemsCourse.SizeTArrays

/-!
# The growable arrays refine lists

A `GrowableArray` is one of the four kinds of array the parser grows: an append,
the pointer, capacity and count it works on, and what it means that a cell stores a
value.  `Appended` are the runs: successful appends, one after the other, to an
array that starts as all zeros.  Between two of them anything may happen to the rest
of the heap and of the struct.

`RefinesList` is what the array is for: after any such run it is the list of the
values appended.  It follows from what a single append does (`AppendSpec`), which is
proved for each of the four.
-/
namespace SystemsCourse
open Logged

variable {ς ι α : Type}

/-- The part of a struct that is a growable array. -/
structure ArrayView (α : Type) where
  v : Ptr α
  cap : Nat
  n : Nat

namespace ArrayView

/-- An array set to zero. -/
def zero : ArrayView α := ⟨none, 0, 0⟩

/-- The array consists of `items`, with the terminator behind them once there is an
item, if the array has one. -/
def Contains (w : ArrayView α) : Option α → List α → Prop
  | none, items => w.v.Holds w.cap items
  | some z, items => w.v.HoldsTerminated w.cap z items

theorem Contains.holds {w : ArrayView α} {z : Option α} {items : List α} (h : w.Contains z items) :
    w.v.Holds w.cap items := by
  cases z with
  | none => exact h
  | some z => exact h.1

theorem contains_zero (z : Option α) : (zero : ArrayView α).Contains z [] := by
  cases z with
  | none => exact Ptr.holds_none
  | some z => exact Ptr.holdsTerminated_none z

end ArrayView

/-- A kind of growable array: values in `ι` are appended to a state in `ς`, whose
array has elements in `α`. -/
structure GrowableArray (ς ι α : Type) where
  /-- Append a value. -/
  append : ς → ι → Logged ArrayEvent (ParseStatus × ς)
  /-- The array of a state. -/
  view : ς → ArrayView α
  /-- The size of an element. -/
  elem : Nat
  /-- What is kept behind the last element. -/
  terminator : Option α
  /-- The values that may be appended. -/
  Accepts : ι → Prop
  /-- The elements that store a value. -/
  Stores : ι → α → Prop

namespace GrowableArray
variable (A : GrowableArray ς ι α)

/-- The array `w` is the list `xs`. -/
structure Represents (w : ArrayView α) (xs : List ι) : Prop where
  capacity : IsCapacity w.cap
  count : w.n = xs.length
  contents : ∃ items, List.Forall₂ A.Stores xs items ∧ w.Contains A.terminator items

/-- The elements `xs` and two more fit in `2 ^ 60` bytes. -/
def Fits (xs : List ι) : Prop := (xs.length + 2) * A.elem ≤ 2 ^ 60

/-- How an append of `x` to the list `xs` in the state `s` ends.  Nothing wraps and
nothing is stored behind the capacity; if the append succeeds, the array is the
longer list; if `realloc` has failed, so has the append, and the state is `s`. -/
structure AppendPost (s : ς) (xs : List ι) (x : ι) (m : Memory) (r : ParseStatus × ς)
    (l : List ArrayEvent) (m' : Memory) : Prop where
  bounds : ∀ ev ∈ l, ev.InBounds
  live : (A.view r.2).v.own ≤ m'.ledger.live
  appended : r.1 = .parseSuccess → A.Represents (A.view r.2) (xs ++ [x])
  refused : .reallocFails ∈ l → r = (.parseFailed, s) ∧ m'.ledger.live = m.ledger.live

/-- **What a single append does**, on an array whose block is live: it returns, as
`AppendPost` says. -/
def AppendSpec : Prop :=
  ∀ (s : ς) (xs : List ι) (x : ι) (σ : Script) (m : Memory), A.Represents (A.view s) xs → A.Fits xs →
    A.Accepts x → (A.view s).v.own ≤ m.ledger.live →
    wp (A.append s x) σ (A.AppendPost s xs x m) m

/-- The runs: successful appends of the values `xs` have led from zero to the array
`w`, and `log` is what they wrote down. -/
inductive Appended : List ι → ArrayView α → List ArrayEvent → Prop where
  | zero : Appended [] ArrayView.zero []
  | append {xs : List ι} {s s' : ς} {log log' : List ArrayEvent} {x : ι} {σ : Script} {m m' : Memory}
      (before : Appended xs (A.view s) log) (accepts : A.Accepts x)
      (live : (A.view s).v.own ≤ m.ledger.live)
      (run : (A.append s x).run σ m = some (((.parseSuccess, s'), log'), m')) :
      Appended (xs ++ [x]) (A.view s') (log ++ log')

/-- Appends of several values, one after the other, if they all succeed. -/
def appends (s : ς) : List ι → Script → Memory → Option (ς × List ArrayEvent)
  | [], _, _ => some (s, [])
  | x :: xs, σ, m =>
      match (A.append s x).run σ m with
      | some (((.parseSuccess, s'), log), m') =>
          (appends s' xs σ m').map fun out => (out.1, log ++ out.2)
      | _ => none

/-- **The array refines a list.** -/
structure RefinesList : Prop where
  /-- After the appends of `xs`, the array is `xs`, and on the way nothing has wrapped
  and nothing was stored behind the capacity. -/
  reached : ∀ xs w log, A.Appended xs w log → A.Fits xs →
    A.Represents w xs ∧ ∀ ev ∈ log, ev.InBounds
  /-- The next append returns; its block stays live; and if it fails because `realloc`
  has, everything is as it was. -/
  next : ∀ xs s log x σ m, A.Appended xs (A.view s) log → A.Fits xs → A.Accepts x →
    (A.view s).v.own ≤ m.ledger.live →
    ∃ r s' log' m', (A.append s x).run σ m = some (((r, s'), log'), m') ∧
      (∀ ev ∈ log', ev.InBounds) ∧ (A.view s').v.own ≤ m'.ledger.live ∧
      (.reallocFails ∈ log' → r = .parseFailed ∧ s' = s ∧ m'.ledger.live = m.ledger.live)

variable {A}

theorem represents_zero : A.Represents ArrayView.zero [] :=
  ⟨Or.inl rfl, rfl, [], List.Forall₂.nil, ArrayView.contains_zero _⟩

theorem Fits.of_append {xs ys : List ι} (h : A.Fits (xs ++ ys)) : A.Fits xs := by
  refine Nat.le_trans (Nat.mul_le_mul_right _ ?_) h
  rw [List.length_append]
  omega

/-- The run lemma: from what one append does, by induction on the appends. -/
theorem AppendSpec.reached (h : A.AppendSpec) {xs : List ι} {w : ArrayView α} {log : List ArrayEvent}
    (hrun : A.Appended xs w log) : A.Fits xs → A.Represents w xs ∧ ∀ ev ∈ log, ev.InBounds := by
  induction hrun with
  | zero => exact fun _ => ⟨represents_zero, fun _ hev => (List.not_mem_nil hev).elim⟩
  | @append xs s s' log log' x σ m m' before accepts live run ih =>
    intro hfits
    obtain ⟨hrep, hlog⟩ := ih hfits.of_append
    have hpost := Prog.wp.of_run (h s xs x σ m hrep hfits.of_append accepts live) run
    exact ⟨hpost.appended rfl, List.forall_mem_append.mpr ⟨hlog, hpost.bounds⟩⟩

/-- Appends one after the other are a run. -/
theorem AppendSpec.appended (h : A.AppendSpec) {xs ys : List ι} {s s' : ς} {log log' : List ArrayEvent}
    {σ : Script} {m : Memory} (hbefore : A.Appended xs (A.view s) log) (hfits : A.Fits (xs ++ ys))
    (haccepts : ∀ y ∈ ys, A.Accepts y) (hlive : (A.view s).v.own ≤ m.ledger.live)
    (hrun : A.appends s ys σ m = some (s', log')) :
    A.Appended (xs ++ ys) (A.view s') (log ++ log') := by
  induction ys generalizing xs s log log' m with
  | nil =>
    cases hrun
    rwa [List.append_nil, List.append_nil]
  | cons y ys ih =>
    rw [List.append_cons] at hfits ⊢
    obtain ⟨haccept, haccepts⟩ := List.forall_mem_cons.mp haccepts
    have hfits' : A.Fits xs := hfits.of_append.of_append
    obtain ⟨hrep, -⟩ := h.reached hbefore hfits'
    have hpost := h s xs y σ m hrep hfits' haccept hlive
    unfold appends at hrun
    split at hrun
    · rename_i s₁ log₁ m₁ happend
      obtain ⟨⟨s', log₂⟩, hrest, hout⟩ := Option.map_eq_some_iff.mp hrun
      cases hout
      have hlive₁ := (Prog.wp.of_run hpost happend).live
      have happended := ih (hbefore.append haccept hlive happend) hfits haccepts hlive₁ hrest
      rwa [List.append_assoc log log₁ log₂] at happended
    · cases hrun

/-- **An array whose append does what it should refines a list.** -/
theorem AppendSpec.refinesList (h : A.AppendSpec) : A.RefinesList where
  reached xs w log hrun := h.reached hrun
  next xs s log x σ m hrun hfits haccepts hlive := by
    obtain ⟨hrep, -⟩ := h.reached hrun hfits
    obtain ⟨⟨r, s'⟩, log', m', happend, hpost⟩ := wp_iff.mp (h s xs x σ m hrep hfits haccepts hlive)
    refine ⟨r, s', log', m', happend, hpost.bounds, hpost.live, fun hrefused => ?_⟩
    obtain ⟨hr, hlive'⟩ := hpost.refused hrefused
    cases hr
    exact ⟨rfl, rfl, hlive'⟩

/-- A list with one more element. -/
theorem represents_concat {w : ArrayView α} {xs : List ι} {items : List α} {x : ι} {item : α}
    (hcap : IsCapacity w.cap) (hn : w.n = items.length + 1) (hstores : List.Forall₂ A.Stores xs items)
    (hx : A.Stores x item) (hitems : w.Contains A.terminator (items ++ [item])) :
    A.Represents w (xs ++ [x]) where
  capacity := hcap
  count := by rw [hn, ← hstores.length_eq, List.length_append, List.length_singleton]
  contents := ⟨items ++ [item], List.rel_append hstores (.cons hx .nil), hitems⟩

/-- What `array_grow` leaves to the rest of an append to `items`: a block with room
for `need` elements. -/
structure Grown (items : List α) (need : Nat) (F : Multiset Addr) (v : Ptr α) (cap : Nat)
    (l : List ArrayEvent) (m : Memory) : Prop where
  bounds : ∀ ev ∈ l, ev.InBounds
  quiet : .reallocFails ∉ l
  live : m.ledger.live = v.own + F
  room : need ≤ cap
  capacity : IsCapacity cap
  holds : v.Holds cap items

section Append
variable {s : ς} {xs : List ι} {x : ι} {items : List α} {need : Nat} {σ : Script} {m : Memory}
  {F : Multiset Addr}

/-- **The first half of every append**: `array_grow`, and the return if it fails. -/
theorem wp_grow {rest : ParseStatus × Ptr α × Nat → Logged ArrayEvent (ParseStatus × ς)}
    (hcap : IsCapacity (A.view s).cap) (hitems : (A.view s).v.Holds (A.view s).cap items)
    (helem : 0 < A.elem) (hneed : need ≤ items.length + 2)
    (hsize : (items.length + 2) * A.elem ≤ 2 ^ 60) (hlive : m.ledger.live = (A.view s).v.own + F)
    (hfail : rest (.parseFailed, (A.view s).v, (A.view s).cap) = pure (.parseFailed, s))
    (hrest : ∀ v cap l m', Grown items need F v cap l m' →
      wp (rest (.parseSuccess, v, cap)) σ (fun r l' m'' => A.AppendPost s xs x m r (l ++ l') m'') m') :
    wp (SizeT.arrayGrow (A.view s).v (A.view s).cap A.elem need >>= rest) σ
      (A.AppendPost s xs x m) m := by
  refine wp_seq (SizeT.arrayGrow_spec hitems.1 hcap helem hneed hsize hlive) ?_
  intro out l m₁ hpost
  obtain ⟨r, v, cap⟩ := out
  rcases hpost with ⟨hbounds, hlive₁, ⟨rfl, hquiet, hroom, hcap₁, hgrown⟩ | hr⟩
  · exact hrest v cap l m₁ ⟨hbounds, hquiet, hlive₁, hroom, hcap₁, hgrown _ hitems⟩
  · cases hr
    rw [hfail, wp_pure, List.append_nil]
    exact {
      bounds := hbounds
      live := hlive₁ ▸ Multiset.le_add_right _ _
      appended := nofun
      refused := fun _ => ⟨rfl, hlive₁.trans hlive.symm⟩ }

/-- The second half, when it writes down nothing out of bounds. -/
theorem Grown.appendPost {v : Ptr α} {cap : Nat} {l l' : List ArrayEvent} {m₁ m' : Memory}
    {r : ParseStatus × ς} (h : Grown items need F v cap l m₁)
    (hlog : (∀ ev ∈ l', ev.InBounds) ∧ .reallocFails ∉ l')
    (hlive : (A.view r.2).v.own ≤ m'.ledger.live)
    (happended : r.1 = .parseSuccess → A.Represents (A.view r.2) (xs ++ [x])) :
    A.AppendPost s xs x m r (l ++ l') m' where
  bounds := List.forall_mem_append.mpr ⟨h.bounds, hlog.1⟩
  live := hlive
  appended := happended
  refused hmem := ((List.mem_append.mp hmem).elim h.quiet hlog.2).elim

end Append

end GrowableArray

/-! ## The four arrays -/

/-- The characters of a word. -/
def bufferArray : GrowableArray Buffer Byte Byte where
  append := SizeT.bufferAddchar
  view b := ⟨b.v, b.cap, b.n⟩
  elem := 1
  terminator := some 0
  Accepts _ := True
  Stores c c' := c' = c

/-- The tokens of a line: a type, a text that is null or a string, and a position. -/
def tokenArray (size : Sizeof) : GrowableArray TokenList (TokenType × Ptr Byte × Nat) Token where
  append t x := SizeT.tokenlistAddtoken size t x.1 x.2.1 x.2.2
  view t := ⟨t.v, t.cap, t.n⟩
  elem := size.token
  terminator := none
  Accepts x := Ptr.optString x.2.1 ≠ none
  Stores x tok := tok.type = x.1 ∧ tok.text.optString = Ptr.optString x.2.1 ∧ tok.pos = x.2.2

/-- The arguments of a command, with the capacity its caller keeps: strings, of which
copies are stored. -/
def argvArray (size : Sizeof) : GrowableArray (Command × Nat) (Ptr Byte) (Ptr Byte) where
  append s text := SizeT.commandAddArg size s.1 s.2 text
  view s := ⟨s.1.argv, s.2, s.1.argc⟩
  elem := size.pointer
  terminator := some none
  Accepts text := Ptr.string text ≠ none
  Stores text copy := Ptr.string copy = Ptr.string text

/-- The commands of a pipeline, with the capacity its caller keeps. -/
def commandArray (size : Sizeof) : GrowableArray (Pipeline × Nat) Command Command where
  append s c := do
    let (r, p, cap, _) ← SizeT.commandAdd size s.1 s.2 c
    return (r, p, cap)
  view s := ⟨s.1.commands, s.2, s.1.commandCount⟩
  elem := size.command
  terminator := none
  Accepts _ := True
  Stores c c' := c' = c

/-! ## What each append does -/

open GrowableArray

theorem success_ne_failed : ParseStatus.parseSuccess ≠ ParseStatus.parseFailed := nofun

theorem bufferArray_appendSpec : bufferArray.AppendSpec := by
  intro b xs c σ m hrep hfits _ hlive
  obtain ⟨hcap, hcount, items, hstores, hitems⟩ := hrep
  obtain ⟨F, hF⟩ := Multiset.le_iff_exists_add.mp hlive
  obtain ⟨v, n, cap⟩ := b
  obtain rfl : n = items.length := hcount.trans hstores.length_eq
  have hsize : (items.length + 2) * 1 ≤ 2 ^ 60 := hstores.length_eq ▸ hfits
  show wp (SizeT.bufferAddchar ⟨v, items.length, cap⟩ c) σ _ m
  rw [SizeT.bufferAddchar, SizeT.sizeT_count Nat.one_pos hsize (Nat.le_refl _)]
  refine wp_grow hcap hitems.holds Nat.one_pos (Nat.le_refl _) hsize hF rfl ?_
  intro v₁ cap₁ l m₁ hg
  have hroom := hg.room
  dsimp only
  rw [if_neg success_ne_failed, SizeT.sizeT_count Nat.one_pos hsize (Nat.le_succ _)]
  refine wp_seq (SizeT.storeTerminated_spec hg.holds c 0 (by omega) (by omega)) ?_
  intro v₂ l' m₂ hpost
  obtain ⟨hlog, rfl, hown, hv₂⟩ := hpost
  rw [wp_pure, List.append_nil]
  refine hg.appendPost hlog ?_ fun _ => represents_concat hg.capacity rfl hstores rfl hv₂
  rw [hg.live, ← hown]
  exact Multiset.le_add_right _ _

/-- The fourth character fills an array of four cells, and its terminator needs a
fifth: the array is doubled first. -/
example : ((SizeT.bufferAddchar ⟨some ⟨0, [some 97, some 98, some 99, some 0]⟩, 3, 4⟩ 100).run
    Script.generous ⟨Ledger.empty.grant, 1⟩).map (fun r => (r.1.2, r.1.1.2.cap))
      = some ([.realloc 8 1, .store 3 8, .store 4 8], 8) := rfl

theorem tokenArray_appendSpec (size : Sizeof) : (tokenArray size).AppendSpec := by
  intro t xs x σ m hrep hfits haccepts hlive
  obtain ⟨hcap, hcount, items, hstores, hitems⟩ := hrep
  obtain ⟨F, hF⟩ := Multiset.le_iff_exists_add.mp hlive
  obtain ⟨v, n, cap⟩ := t
  obtain ⟨type, text, pos⟩ := x
  obtain ⟨txt, htxt⟩ := Option.ne_none_iff_exists'.mp haccepts
  obtain rfl : n = items.length := hcount.trans hstores.length_eq
  have hsize : (items.length + 2) * size.token ≤ 2 ^ 60 := hstores.length_eq ▸ hfits
  show wp (SizeT.tokenlistAddtoken size ⟨v, items.length, cap⟩ type text pos) σ _ m
  rw [SizeT.tokenlistAddtoken, SizeT.sizeT_count size.token_pos hsize (Nat.le_succ _)]
  refine wp_grow hcap hitems size.token_pos (Nat.le_succ _) hsize hF rfl ?_
  intro v₁ cap₁ l m₁ hg
  dsimp only
  rw [if_neg success_ne_failed, SizeT.sizeT_count size.token_pos hsize (Nat.le_succ _), wp_bind,
    wp_lift]
  refine Prog.wp_mono (copyText_spec htxt) ?_
  intro copy m₂ hpost
  obtain ⟨hlive₂, hcopy⟩ := hpost
  refine wp_seq (SizeT.store_spec hg.holds ⟨type, copy, pos⟩ hg.room) ?_
  intro v₂ l' m₃ hpost
  obtain ⟨hlog, rfl, hown, hv₂⟩ := hpost
  rw [wp_pure, List.append_nil, List.nil_append]
  refine hg.appendPost hlog ?_ fun hstatus => ?_
  · rw [hlive₂, hg.live, ← hown, add_left_comm]
    exact Multiset.le_add_right _ _
  · -- the text could be copied, or the append would not have succeeded
    rcases hcopy with ⟨hsome, rfl, -⟩ | ⟨-, hcopy⟩
    · rw [if_pos ⟨hsome, rfl⟩] at hstatus
      cases hstatus
    · exact represents_concat hg.capacity rfl hstores ⟨rfl, hcopy.trans htxt.symm, rfl⟩ hv₂

theorem argvArray_appendSpec (size : Sizeof) : (argvArray size).AppendSpec := by
  intro s xs text σ m hrep hfits haccepts hlive
  obtain ⟨hcap, hcount, items, hstores, hitems⟩ := hrep
  obtain ⟨F, hF⟩ := Multiset.le_iff_exists_add.mp hlive
  obtain ⟨⟨argv, n, input, output⟩, cap⟩ := s
  obtain ⟨w, hw⟩ := Option.ne_none_iff_exists'.mp haccepts
  obtain rfl : n = items.length := hcount.trans hstores.length_eq
  have hsize : (items.length + 2) * size.pointer ≤ 2 ^ 60 := hstores.length_eq ▸ hfits
  have hn : items.length + 2 ≤ (items.length + 2) * size.pointer :=
    Nat.le_mul_of_pos_right _ size.pointer_pos
  show wp (SizeT.commandAddArg size ⟨argv, items.length, input, output⟩ cap text) σ _ m
  rw [SizeT.commandAddArg, SizeT.sizeT_count size.pointer_pos hsize (Nat.le_refl _)]
  refine wp_grow hcap hitems.holds size.pointer_pos (Nat.le_refl _) hsize hF rfl ?_
  intro v₁ cap₁ l m₁ hg
  have hroom := hg.room
  dsimp only
  rw [if_neg success_ne_failed, SizeT.sizeT_count size.pointer_pos hsize (Nat.le_succ _), wp_bind,
    wp_lift, Prog.wp_bind, Prog.readString_spec hw]
  refine Prog.wp_mono (Prog.strdup_spec w) ?_
  intro copy m₂ hpost
  obtain ⟨hlive₂, hcopy⟩ := hpost
  rw [hg.live] at hlive₂
  rcases hcopy with ⟨rfl, -⟩ | hcopy
  · -- the vector has grown, but there is no argument to append
    rw [if_pos Option.isNone_none, wp_pure]
    refine hg.appendPost ⟨by simp, by simp⟩ ?_ fun h => absurd h.symm success_ne_failed
    rw [hlive₂, Ptr.own_none, zero_add]
    exact Multiset.le_add_right _ _
  · have hsome : ¬ copy.isNone := by
      rw [Option.isNone_iff_eq_none]
      exact Ptr.ne_none_of_string hcopy
    rw [if_neg hsome]
    refine wp_seq (SizeT.storeTerminated_spec hg.holds copy none (by omega) (by omega)) ?_
    intro v₂ l' m₃ hpost
    obtain ⟨hlog, rfl, hown, hv₂⟩ := hpost
    rw [wp_pure, List.append_nil, List.nil_append]
    refine hg.appendPost hlog ?_ fun _ =>
      represents_concat hg.capacity rfl hstores (hcopy.trans hw.symm) hv₂
    rw [hlive₂, ← hown, add_left_comm]
    exact Multiset.le_add_right _ _

theorem commandArray_appendSpec (size : Sizeof) : (commandArray size).AppendSpec := by
  intro s xs c σ m hrep hfits _ hlive
  obtain ⟨hcap, hcount, items, hstores, hitems⟩ := hrep
  obtain ⟨F, hF⟩ := Multiset.le_iff_exists_add.mp hlive
  obtain ⟨⟨commands, n⟩, cap⟩ := s
  obtain rfl : n = items.length := hcount.trans hstores.length_eq
  have hsize : (items.length + 2) * size.command ≤ 2 ^ 60 := hstores.length_eq ▸ hfits
  show wp (SizeT.commandAdd size ⟨commands, items.length⟩ cap c >>= _) σ _ m
  rw [SizeT.commandAdd, SizeT.sizeT_count size.command_pos hsize (Nat.le_succ _), seq_assoc]
  refine wp_grow hcap hitems size.command_pos (Nat.le_succ _) hsize hF rfl ?_
  intro v₁ cap₁ l m₁ hg
  dsimp only
  rw [if_neg success_ne_failed, SizeT.sizeT_count size.command_pos hsize (Nat.le_succ _), seq_assoc]
  refine wp_seq (SizeT.store_spec hg.holds c hg.room) ?_
  intro v₂ l' m₂ hpost
  obtain ⟨hlog, rfl, hown, hv₂⟩ := hpost
  rw [pure_seq, wp_pure, List.append_nil]
  refine hg.appendPost hlog ?_ fun _ => represents_concat hg.capacity rfl hstores rfl hv₂
  rw [hg.live, ← hown]
  exact Multiset.le_add_right _ _

/-- **The four growable arrays refine lists**, for any sizes of their elements. -/
theorem growableArrays_refineLists (size : Sizeof) :
    bufferArray.RefinesList ∧ (tokenArray size).RefinesList ∧ (argvArray size).RefinesList ∧
      (commandArray size).RefinesList :=
  ⟨bufferArray_appendSpec.refinesList, (tokenArray_appendSpec size).refinesList,
    (argvArray_appendSpec size).refinesList, (commandArray_appendSpec size).refinesList⟩

/-- The word has five characters, so the array grows twice. -/
example : ∃ b log, bufferArray.Appended (List.replicate 5 (ch 'a')) (bufferArray.view b) log ∧
    b.n = 5 ∧ b.cap = 8 := by
  have hrun : (bufferArray.appends .zero (List.replicate 5 (ch 'a')) .generous .empty).map
      (fun out => (out.1.n, out.1.cap)) = some (5, 8) := rfl
  obtain ⟨⟨b, log⟩, happends, hout⟩ := Option.map_eq_some_iff.mp hrun
  have hfits : bufferArray.Fits ([] ++ List.replicate 5 (ch 'a')) := by
    unfold Fits
    decide
  have happended := bufferArray_appendSpec.appended .zero hfits (fun _ _ => trivial)
    (Multiset.zero_le _) happends
  exact ⟨b, _, happended, congrArg Prod.fst hout, congrArg Prod.snd hout⟩

end SystemsCourse
