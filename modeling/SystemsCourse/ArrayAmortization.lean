import SystemsCourse.ArrayRefinement

/-!
# What the growable arrays cost

`array_grow` doubles.  For an array that starts as all zeros its requests are for 4, 8,
16, ... cells, one after the other, up to the capacity, and the capacity is the first
of these numbers that is large enough.  So `n` appends ask for at most four cells for
each element, however the appends are spread over time, and the number of requests is
logarithmic in `n`.

An append needs one cell more than the last one did.  That is why the doubling loop
makes one pass (`wlp_arrayGrow`) and why the capacity never overshoots by more than a
factor of two.
-/
namespace SystemsCourse
open Logged
open Prog (LoopStep)

/-- The cells that an event asks for. -/
def ArrayEvent.cells : ArrayEvent → Option Nat
  | .realloc c _ => some c
  | .reallocFails => none
  | .store _ _ => none

/-- The cells asked for in a log, request by request. -/
def reallocs (log : List ArrayEvent) : List Nat := log.filterMap ArrayEvent.cells

theorem reallocs_append (l l' : List ArrayEvent) : reallocs (l ++ l') = reallocs l ++ reallocs l' :=
  List.filterMap_append

/-- An event that asks for nothing. -/
def ArrayEvent.AsksNothing (ev : ArrayEvent) : Prop := ev.cells = none

theorem reallocs_eq_nil {l : List ArrayEvent} (h : ∀ ev ∈ l, ev.AsksNothing) : reallocs l = [] :=
  List.filterMap_eq_nil_iff.mpr h

/-- The capacity behind `array_grow`, for one cell more than were needed before. -/
def grown (cap need : Nat) : Nat := if need ≤ cap then cap else if cap = 0 then 4 else 2 * cap

/-- What `array_grow` asks for. -/
def growth (cap need : Nat) : List Nat := if need ≤ cap then [] else [grown cap need]

namespace SizeT
variable {α : Type} {p : Ptr α} {cap elem need : Nat}

/-- Where twice the capacity is enough, the doubling loop makes one pass at most. -/
theorem doubling_once {c : Nat} (hc : c < 2 ^ 62) (hneed : need ≤ 2 * c) (fuel : Nat) :
    Prog.loop (doublePass need) (fuel + 2) c = pure (if c < need then 2 * c else c) := by
  by_cases hlt : c < need
  · have hdouble : sizeT (c * 2) = 2 * c := by rw [sizeT_of_lt (by omega), Nat.mul_comm]
    rw [Prog.loop, doublePass, if_pos hlt, Prog.pure_seq, if_pos hlt]
    dsimp only
    rw [hdouble, Prog.loop, doublePass, if_neg (by omega), Prog.pure_seq]
  · rw [Prog.loop, doublePass, if_neg hlt, Prog.pure_seq, if_neg hlt]

theorem wlp_arrayGrow (hneed : need ≤ cap + 1 ∨ (cap = 0 ∧ need = 2)) (hcap : cap < 2 ^ 62) :
    wlp (arrayGrow p cap elem need) (fun r l => r.1 = .parseSuccess →
      r.2.2 = grown cap need ∧ reallocs l = growth cap need) := by
  by_cases hroom : need ≤ cap
  · rw [arrayGrow, if_pos (show cap ≥ need from hroom)]
    refine wlp_pure fun _ => ?_
    rw [grown, growth, if_pos hroom, if_pos hroom]
    exact ⟨rfl, rfl⟩
  -- the loop ends at four or at twice the capacity
  have hloop : Prog.loop (doublePass need) (need + 1) (if cap ≠ 0 then cap else 4)
      = pure (grown cap need) := by
    obtain ⟨fuel, hfuel⟩ : ∃ fuel, need + 1 = fuel + 2 := ⟨need - 1, by omega⟩
    rw [hfuel, grown, if_neg hroom]
    by_cases h0 : cap = 0
    · rw [if_neg (not_not_intro h0), if_pos h0, doubling_once (by omega) (by omega),
        if_neg (by omega)]
    · rw [if_pos h0, if_neg h0, doubling_once hcap (by omega), if_pos (by omega)]
  rw [arrayGrow, if_neg (show ¬ cap ≥ need from hroom), hloop, lift_pure, Logged.pure_seq]
  refine wlp_seq (wlp_log (Q := fun _ l => l = [.realloc (grown cap need) elem]) rfl) ?_
  rintro _ _ rfl
  refine wlp_seq (wlp_lift (Q := fun _ l => l = []) fun _ _ _ _ _ => rfl) ?_
  rintro q _ rfl
  by_cases hq : q.isNone
  · rw [if_pos hq]
    exact wlp_seq (wlp_log (Q := fun _ _ => True) trivial) fun _ _ _ => wlp_pure fun h => ParseStatus.noConfusion h
  · rw [if_neg hq]
    refine wlp_pure fun _ => ⟨rfl, ?_⟩
    rw [growth, if_neg hroom]
    rfl

theorem emits_store (i : Nat) (x : α) :
    Emits ArrayEvent.AsksNothing (store p cap i x) (fun _ => True) := by
  refine Emits.seq (P := fun _ => True) (Emits.log rfl trivial) fun _ _ => ?_
  exact Emits.lift fun _ _ _ _ _ => trivial

theorem emits_storeTerminated (n : Nat) (x z : α) :
    Emits ArrayEvent.AsksNothing (storeTerminated p cap n x z) (fun _ => True) :=
  Emits.seq (emits_store n x) fun _ _ => emits_store _ z

end SizeT

namespace GrowableArray
variable {ς ι α : Type} (A : GrowableArray ς ι α)

/-- The cells kept for what stands behind the last element. -/
def reserve : Nat := if A.terminator.isSome then 1 else 0

/-- **What one append asks for**, and the capacity it leaves. -/
def GrowthSpec : Prop :=
  ∀ (s : ς) (xs : List ι) (x : ι), A.Represents (A.view s) xs → A.Fits xs → (A.view s).cap < 2 ^ 62 →
    wlp (A.append s x) (fun out l => out.1 = .parseSuccess →
      (A.view out.2).cap = grown (A.view s).cap (xs.length + 1 + A.reserve) ∧
      reallocs l = growth (A.view s).cap (xs.length + 1 + A.reserve))

/-- After `n` appends the requests were for 4, 8, ..., `2 ^ (k + 2)` cells; the last is
the capacity, and the first of them with room for all. -/
structure GrownTo (n : Nat) (w : ArrayView α) (log : List ArrayEvent) (k : Nat) : Prop where
  pos : 0 < n
  requests : reallocs log = (List.range (k + 1)).map (fun i => 2 ^ (i + 2))
  capacity : w.cap = 2 ^ (k + 2)
  room : n + A.reserve ≤ w.cap
  tight : k = 0 ∨ w.cap < 2 * (n + A.reserve)

/-- **Appending costs a constant amount of memory per element**, in every run. -/
structure Amortized : Prop where
  /-- The requests are the powers of two from four to the capacity. -/
  grownTo : ∀ xs w log, A.Appended xs w log → A.Fits xs → xs ≠ [] → ∃ k, A.GrownTo xs.length w log k
  /-- Together they are for at most four cells for each element. -/
  cells : ∀ xs w log, A.Appended xs w log → A.Fits xs →
    (reallocs log).sum ≤ 4 * (xs.length + A.reserve)
  /-- Their number is logarithmic. -/
  number : ∀ xs w log, A.Appended xs w log → A.Fits xs →
    2 ^ (reallocs log).length ≤ xs.length + A.reserve + 1

variable {A} {xs : List ι} {w : ArrayView α} {log l : List ArrayEvent} {n k : Nat}

theorem reserve_le_one : A.reserve ≤ 1 := by
  unfold reserve
  split <;> omega

/-- The elements and the terminator fit in the capacity. -/
theorem Represents.room (h : A.Represents w xs) (hne : xs ≠ []) : xs.length + A.reserve ≤ w.cap := by
  obtain ⟨items, hstores, hcontains⟩ := h.contents
  have hlen := hstores.length_eq
  unfold reserve
  cases hz : A.terminator with
  | none =>
    rw [hz] at hcontains
    have := hcontains.holds.length_le
    simpa [hlen] using this
  | some z =>
    rw [hz] at hcontains
    have hitems : items ≠ [] := by
      rintro rfl
      exact hne (List.length_eq_zero_iff.mp hlen)
    have := (hcontains.2 hitems).length_le
    rw [List.length_append, List.length_singleton] at this
    simpa [hlen] using this

/-- One append needs at most one cell more than there are, or two in an empty array. -/
theorem Represents.need_le (h : A.Represents w xs) :
    xs.length + 1 + A.reserve ≤ w.cap + 1 ∨ (w.cap = 0 ∧ xs.length + 1 + A.reserve = 2) := by
  have hreserve := reserve_le_one (A := A)
  rcases List.eq_nil_or_concat xs with rfl | ⟨front, last, rfl⟩
  · rw [List.length_nil]
    rcases h.capacity with h0 | ⟨k, hk, hcap⟩
    · omega
    · have : 2 ^ 2 ≤ 2 ^ k := Nat.pow_le_pow_right Nat.two_pos hk
      omega
  · have := h.room (by simp)
    omega

theorem GrownTo.cap_lt (h : A.GrownTo xs.length w log k) (helem : 0 < A.elem) (hfits : A.Fits xs) :
    w.cap < 2 ^ 62 := by
  have hsize : xs.length + 2 ≤ (xs.length + 2) * A.elem := Nat.le_mul_of_pos_right _ helem
  have hle : (xs.length + 2) * A.elem ≤ 2 ^ 60 := hfits
  have hreserve := reserve_le_one (A := A)
  rcases h.tight with rfl | hlt
  · rw [h.capacity]
    omega
  · omega

/-- **The step lemma**: an append takes the next power of two, or asks for nothing. -/
theorem GrownTo.step {w' : ArrayView α} (h : A.GrownTo n w log k)
    (hcap : w'.cap = grown w.cap (n + 1 + A.reserve))
    (hlog : reallocs l = growth w.cap (n + 1 + A.reserve)) :
    ∃ k', A.GrownTo (n + 1) w' (log ++ l) k' := by
  have hpos : 0 < w.cap := h.capacity ▸ Nat.two_pow_pos _
  have hheld := h.room
  by_cases hroom : n + 1 + A.reserve ≤ w.cap
  · rw [grown, if_pos hroom] at hcap
    rw [growth, if_pos hroom] at hlog
    refine ⟨k, Nat.succ_pos n, ?_, hcap.trans h.capacity, hcap ▸ hroom, ?_⟩
    · rw [reallocs_append, hlog, List.append_nil, h.requests]
    · rw [hcap]
      exact h.tight.imp_right fun hlt => by omega
  · have hdouble : w'.cap = 2 ^ (k + 1 + 2) := by
      rw [hcap, grown, if_neg hroom, if_neg (by omega), h.capacity, Nat.mul_comm, ← Nat.pow_succ]
    rw [grown, if_neg hroom, if_neg (by omega)] at hcap
    refine ⟨k + 1, Nat.succ_pos n, ?_, hdouble, by omega, Or.inr (by omega)⟩
    have hasked : growth w.cap (n + 1 + A.reserve) = [2 ^ (k + 1 + 2)] := by
      rw [growth, if_neg hroom, grown, if_neg hroom, if_neg (by omega), ← hcap, hdouble]
    rw [reallocs_append, hlog, hasked, h.requests, List.range_succ (n := k + 1), List.map_append,
      List.map_singleton]

/-- The first append asks for four cells. -/
theorem GrownTo.first {w' : ArrayView α} (hcap : w'.cap = grown 0 (1 + A.reserve))
    (hlog : reallocs l = growth 0 (1 + A.reserve)) : A.GrownTo 1 w' l 0 := by
  have hreserve := reserve_le_one (A := A)
  have hroom : ¬ 1 + A.reserve ≤ 0 := by omega
  rw [grown, if_neg hroom, if_pos rfl] at hcap
  rw [growth, if_neg hroom, grown, if_neg hroom, if_pos rfl] at hlog
  exact ⟨Nat.one_pos, hlog, hcap, by omega, Or.inl rfl⟩

/-- The run lemma, by induction on the appends. -/
theorem GrowthSpec.grownTo (h : A.GrowthSpec) (hspec : A.AppendSpec) (helem : 0 < A.elem)
    (hrun : A.Appended xs w log) :
    A.Fits xs → (xs = [] ∧ w.cap = 0 ∧ log = []) ∨ ∃ k, A.GrownTo xs.length w log k := by
  induction hrun with
  | zero => exact fun _ => Or.inl ⟨rfl, rfl, rfl⟩
  | @append xs s s' log log' x σ m m' before accepts live run ih =>
    intro hfits
    refine Or.inr ?_
    obtain ⟨hrep, -⟩ := hspec.reached before hfits.of_append
    rw [List.length_append, List.length_singleton]
    rcases ih hfits.of_append with ⟨rfl, hcap, rfl⟩ | ⟨k, hgrown⟩
    · obtain ⟨hcap', hlog⟩ :=
        h s [] x hrep hfits.of_append (by rw [hcap]; exact Nat.two_pow_pos 62) σ m _ _ _ run rfl
      rw [hcap, List.length_nil, Nat.zero_add] at hcap' hlog
      exact ⟨0, GrownTo.first hcap' hlog⟩
    · obtain ⟨hcap', hlog⟩ :=
        h s xs x hrep hfits.of_append (hgrown.cap_lt helem hfits.of_append) σ m _ _ _ run rfl
      exact hgrown.step hcap' hlog

/-- The powers of two from four on, added up. -/
theorem sum_doublings (k : Nat) :
    ((List.range (k + 1)).map (fun i => 2 ^ (i + 2))).sum + 4 = 2 * 2 ^ (k + 2) := by
  induction k with
  | zero => rfl
  | succ k ih =>
    rw [List.range_succ, List.map_append, List.sum_append, List.map_singleton, List.sum_singleton]
    have hpow : 2 ^ (k + 1 + 2) = 2 * 2 ^ (k + 2) := Nat.pow_succ'
    omega

theorem GrownTo.sum_le (h : A.GrownTo n w log k) : (reallocs log).sum ≤ 4 * (n + A.reserve) := by
  have hn := h.pos
  have hsum := sum_doublings k
  rw [← h.requests, ← h.capacity] at hsum
  rcases h.tight with rfl | hlt
  · have hcap : w.cap = 4 := h.capacity
    omega
  · omega

theorem GrownTo.number_le (h : A.GrownTo n w log k) :
    2 ^ (reallocs log).length ≤ n + A.reserve + 1 := by
  have hn := h.pos
  have hcap := h.capacity
  rw [Nat.pow_succ] at hcap
  rw [h.requests, List.length_map, List.length_range]
  rcases h.tight with rfl | hlt
  · omega
  · omega

theorem GrowthSpec.amortized (h : A.GrowthSpec) (hspec : A.AppendSpec) (helem : 0 < A.elem) :
    A.Amortized where
  grownTo xs w log hrun hfits hne :=
    (h.grownTo hspec helem hrun hfits).resolve_left fun hnil => hne hnil.1
  cells xs w log hrun hfits := by
    rcases h.grownTo hspec helem hrun hfits with ⟨-, -, rfl⟩ | ⟨k, hgrown⟩
    · exact Nat.zero_le _
    · exact hgrown.sum_le
  number xs w log hrun hfits := by
    rcases h.grownTo hspec helem hrun hfits with ⟨-, -, rfl⟩ | ⟨k, hgrown⟩
    · exact Nat.le_add_left 1 _
    · exact hgrown.number_le

end GrowableArray

/-! ## The four arrays -/

open GrowableArray

/-- Behind `array_grow` an append asks for nothing. -/
theorem GrowableArray.wlp_append {ς ι α : Type} {A : GrowableArray ς ι α} {p : Ptr α}
    {cap elem need : Nat} {rest : ParseStatus × Ptr α × Nat → Logged ArrayEvent (ParseStatus × ς)}
    (hneed : need ≤ cap + 1 ∨ (cap = 0 ∧ need = 2)) (hcap : cap < 2 ^ 62)
    (hfail : ∀ v c, Emits ArrayEvent.AsksNothing (rest (.parseFailed, v, c)) (fun out =>
      out.1 = .parseFailed))
    (hrest : ∀ v c, Emits ArrayEvent.AsksNothing (rest (.parseSuccess, v, c)) (fun out =>
      (A.view out.2).cap = c)) :
    wlp (SizeT.arrayGrow p cap elem need >>= rest) (fun out l => out.1 = .parseSuccess →
      (A.view out.2).cap = grown cap need ∧ reallocs l = growth cap need) := by
  refine wlp_seq (SizeT.wlp_arrayGrow hneed hcap) ?_
  rintro ⟨r, v, c⟩ l hgrow
  cases r with
  | parseFailed =>
    refine wlp_mono (hfail v c) ?_
    rintro out l' ⟨-, hout⟩ hsuccess
    exact absurd (hout.symm.trans hsuccess) nofun
  | parseSuccess =>
    refine wlp_mono (hrest v c) ?_
    rintro out l' ⟨hl', hout⟩ -
    obtain ⟨hc, hl⟩ := hgrow rfl
    exact ⟨hout.trans hc, by rw [reallocs_append, hl, reallocs_eq_nil hl', List.append_nil]⟩

theorem bufferArray_growthSpec : bufferArray.GrowthSpec := by
  intro b xs c hrep hfits hcap
  have hn : b.n = xs.length := hrep.count
  show wlp (SizeT.bufferAddchar b c) _
  rw [SizeT.bufferAddchar, SizeT.sizeT_count (n := b.n) Nat.one_pos (hn ▸ hfits) (Nat.le_refl _), hn]
  refine wlp_append hrep.need_le hcap (fun v c => Emits.pure rfl) fun v c => ?_
  exact Emits.seq (SizeT.emits_storeTerminated _ _ _) fun _ _ => Emits.pure rfl

theorem tokenArray_growthSpec (size : Sizeof) : (tokenArray size).GrowthSpec := by
  intro t xs x hrep hfits hcap
  have hn : t.n = xs.length := hrep.count
  show wlp (SizeT.tokenlistAddtoken size t x.1 x.2.1 x.2.2) _
  rw [SizeT.tokenlistAddtoken,
    SizeT.sizeT_count (n := t.n) size.token_pos (hn ▸ hfits) (Nat.le_succ _), hn]
  refine wlp_append hrep.need_le hcap (fun v c => Emits.pure rfl) fun v c => ?_
  exact Emits.lift_seq fun copy => Emits.seq (SizeT.emits_store _ _) fun _ _ => Emits.pure rfl

theorem argvArray_growthSpec (size : Sizeof) : (argvArray size).GrowthSpec := by
  intro s xs text hrep hfits hcap
  have hn : s.1.argc = xs.length := hrep.count
  show wlp (SizeT.commandAddArg size s.1 s.2 text) _
  rw [SizeT.commandAddArg,
    SizeT.sizeT_count (n := s.1.argc) size.pointer_pos (hn ▸ hfits) (Nat.le_refl _), hn]
  refine wlp_append hrep.need_le hcap (fun v c => Emits.pure rfl) fun v c => ?_
  refine Emits.lift_seq fun copy => ?_
  by_cases hcopy : copy.isNone
  · rw [if_pos hcopy]
    exact Emits.pure rfl
  · rw [if_neg hcopy]
    exact Emits.seq (SizeT.emits_storeTerminated _ _ _) fun _ _ => Emits.pure rfl

theorem commandArray_growthSpec (size : Sizeof) : (commandArray size).GrowthSpec := by
  intro s xs c hrep hfits hcap
  have hn : s.1.commandCount = xs.length := hrep.count
  show wlp (SizeT.commandAdd size s.1 s.2 c >>= _) _
  rw [SizeT.commandAdd,
    SizeT.sizeT_count (n := s.1.commandCount) size.command_pos (hn ▸ hfits) (Nat.le_succ _), hn,
    seq_assoc]
  refine wlp_append hrep.need_le hcap (fun v c => Emits.pure rfl) fun v c => ?_
  refine Emits.seq (P := fun out => out.2.2.1 = c) ?_ fun _ hout => Emits.pure hout
  exact Emits.seq (SizeT.emits_store _ _) fun _ _ => Emits.pure rfl

/-- **Appending costs a constant amount of memory per element**, for each of the four
arrays and any sizes of their elements. -/
theorem growableArrays_amortized (size : Sizeof) :
    bufferArray.Amortized ∧ (tokenArray size).Amortized ∧ (argvArray size).Amortized ∧
      (commandArray size).Amortized :=
  ⟨bufferArray_growthSpec.amortized bufferArray_appendSpec Nat.one_pos,
    (tokenArray_growthSpec size).amortized (tokenArray_appendSpec size) size.token_pos,
    (argvArray_growthSpec size).amortized (argvArray_appendSpec size) size.pointer_pos,
    (commandArray_growthSpec size).amortized (commandArray_appendSpec size) size.command_pos⟩

/-- Eight characters and their terminator. -/
example : (bufferArray.appends .zero (List.replicate 8 (ch 'a')) .generous .empty).map
    (fun out => (out.1.cap, reallocs out.2)) = some (16, [4, 8, 16]) := by decide +kernel

end SystemsCourse
