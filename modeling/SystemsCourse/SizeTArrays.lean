import SystemsCourse.LoggedProgram
import SystemsCourse.ParserArrays

/-!
# The growable arrays with a 64-bit `size_t`

`ParserArrays` counts with natural numbers.  Here the same code counts modulo
`2 ^ 64`, asks `realloc` for bytes, and keeps a log of the sizes it asks for and of
the places it stores at.  As long as the elements and two more fit in `2 ^ 60`
bytes nothing wraps, and erasing the log gives back the code of `ParserArrays`
(`erase_bufferAddchar` and the like).
-/
namespace SystemsCourse

/-- What the array code writes down. -/
inductive ArrayEvent where
  /-- `realloc` is asked for `c * elem` bytes. -/
  | realloc (c elem : Nat)
  /-- `realloc` returns null. -/
  | reallocFails
  /-- `v[i]` is written, in an array of capacity `cap`. -/
  | store (i cap : Nat)

/-- No size wraps, and nothing is stored behind the capacity. -/
def ArrayEvent.InBounds : ArrayEvent → Prop
  | .realloc c elem => c * elem < 2 ^ 64
  | .reallocFails => True
  | .store i cap => i < cap

/-- A value of type `size_t`. -/
def sizeT (n : Nat) : Nat := n % 2 ^ 64

theorem sizeT_of_lt {n : Nat} (h : n < 2 ^ 64) : sizeT n = n := Nat.mod_eq_of_lt h

/-- `sizeof (Token)`, `sizeof (char *)` and `sizeof (Command)`. -/
structure Sizeof where
  token : Nat
  pointer : Nat
  command : Nat
  token_pos : 0 < token
  pointer_pos : 0 < pointer
  command_pos : 0 < command

/-- A capacity that `array_grow` can produce: zero, or a power of two from four on. -/
def IsCapacity (c : Nat) : Prop := c = 0 ∨ ∃ k, 2 ≤ k ∧ c = 2 ^ k

namespace SizeT
open Logged
open Prog (LoopStep)
variable {α : Type}

/-- One pass of `while (c < need) c *= 2;`. -/
def doublePass (need c : Nat) : Prog (LoopStep Nat Nat) :=
  pure (if c < need then .again (sizeT (c * 2)) else .done c)

/-- `array_grow`.  The doubling loop is given `need + 1` passes: a capacity that does
not wrap has reached `need` by then. -/
def arrayGrow (p : Ptr α) (cap elem need : Nat) : Logged ArrayEvent (ParseStatus × Ptr α × Nat) := do
  let c := if cap ≠ 0 then cap else 4
  if cap ≥ need then return (.parseSuccess, p, cap)
  let c ← lift (Prog.loop (doublePass need) (need + 1) c)
  log (.realloc c elem)
  let q ← lift (Prog.realloc p (sizeT (c * elem) / elem))
  if q.isNone then
    log .reallocFails
    return (.parseFailed, p, cap)
  return (.parseSuccess, q, c)

/-- `v[i] = x`. -/
def store (p : Ptr α) (cap i : Nat) (x : α) : Logged ArrayEvent (Ptr α) := do
  log (.store i cap)
  lift (Prog.store p i x)

/-- `v[n++] = x; v[n] = z;`. -/
def storeTerminated (p : Ptr α) (cap n : Nat) (x z : α) : Logged ArrayEvent (Ptr α) := do
  let p ← store p cap n x
  store p cap (sizeT (n + 1)) z

/-- `buffer_addchar`. -/
def bufferAddchar (b : Buffer) (c : Byte) : Logged ArrayEvent (ParseStatus × Buffer) := do
  let (r, v, cap) ← arrayGrow b.v b.cap 1 (sizeT (b.n + 2))
  let b := { b with v := v, cap := cap }
  if r = .parseFailed then return (.parseFailed, b)
  let v ← storeTerminated b.v b.cap b.n c 0
  return (.parseSuccess, { b with v := v, n := sizeT (b.n + 1) })

/-- `tokenlist_addtoken`. -/
def tokenlistAddtoken (size : Sizeof) (t : TokenList) (tokentype : TokenType) (text : Ptr Byte)
    (pos : Nat) : Logged ArrayEvent (ParseStatus × TokenList) := do
  let (r, v, cap) ← arrayGrow t.v t.cap size.token (sizeT (t.n + 1))
  let t := { t with v := v, cap := cap }
  if r = .parseFailed then return (.parseFailed, t)
  let copy ← lift (copyText text)
  let v ← store t.v t.cap t.n ⟨tokentype, copy, pos⟩
  let t := { t with v := v, n := sizeT (t.n + 1) }
  return (if text.isSome ∧ copy.isNone then .parseFailed else .parseSuccess, t)

/-- `command_add_arg`. -/
def commandAddArg (size : Sizeof) (c : Command) (cap : Nat) (s : Ptr Byte) :
    Logged ArrayEvent (ParseStatus × Command × Nat) := do
  let (r, argv, cap) ← arrayGrow c.argv cap size.pointer (sizeT (c.argc + 2))
  let c := { c with argv := argv }
  if r = .parseFailed then return (.parseFailed, c, cap)
  let copy ← lift do Prog.strdup (← Prog.readString s)
  if copy.isNone then return (.parseFailed, c, cap)
  let argv ← storeTerminated c.argv cap c.argc copy none
  return (.parseSuccess, { c with argv := argv, argc := sizeT (c.argc + 1) }, cap)

/-- `command_add`. -/
def commandAdd (size : Sizeof) (p : Pipeline) (cap : Nat) (c : Command) :
    Logged ArrayEvent (ParseStatus × Pipeline × Nat × Command) := do
  let (r, commands, cap) ← arrayGrow p.commands cap size.command (sizeT (p.commandCount + 1))
  let p := { p with commands := commands }
  if r = .parseFailed then return (.parseFailed, p, cap, c)
  let commands ← store p.commands cap p.commandCount c
  return (.parseSuccess,
    { commands := commands, commandCount := sizeT (p.commandCount + 1) }, cap, Command.zero)

/-! ## The doubling loop -/

/-- Up to half the range, doubling does not wrap. -/
theorem doublePass_eq {need : Nat} (h : need ≤ 2 ^ 63) :
    doublePass need = SystemsCourse.doublePass need := by
  funext c
  unfold doublePass SystemsCourse.doublePass
  by_cases hlt : c < need
  · rw [if_pos hlt, if_pos hlt, sizeT_of_lt (by omega)]
  · rw [if_neg hlt, if_neg hlt]

/-- **The doubling loop ends**, without a wrap, at the capacity it began with times a
power of two; it overshoots `need` by less than a factor of two. -/
theorem doubling_eq_pure {need : Nat} (hneed : need ≤ 2 ^ 63) :
    ∀ (fuel c : Nat), 0 < c → need - c < fuel → ∃ j,
      Prog.loop (doublePass need) fuel c = pure (c * 2 ^ j) ∧ need ≤ c * 2 ^ j ∧
        (j = 0 ∨ c * 2 ^ j < 2 * need) := by
  intro fuel
  induction fuel with
  | zero => intro c _ h; exact absurd h (Nat.not_lt_zero _)
  | succ fuel ih =>
    intro c hc hfuel
    by_cases hlt : c < need
    · obtain ⟨j, hloop, hge, hj⟩ := ih (c * 2) (by omega) (by omega)
      have hpow : c * 2 ^ (j + 1) = c * 2 * 2 ^ j := by
        rw [Nat.pow_succ, Nat.mul_comm (2 ^ j) 2, Nat.mul_assoc]
      refine ⟨j + 1, ?_, hpow ▸ hge, Or.inr ?_⟩
      · rw [Prog.loop, doublePass, if_pos hlt, sizeT_of_lt (by omega), Prog.pure_seq, hpow]
        exact hloop
      · rw [hpow]
        rcases hj with rfl | hj
        · omega
        · exact hj
    · refine ⟨0, ?_, by omega, Or.inl rfl⟩
      rw [Prog.loop, doublePass, if_neg hlt, Prog.pure_seq, Nat.pow_zero, Nat.mul_one]

/-! ## `array_grow` -/

/-- `c` is a capacity to which `array_grow` takes `cap` when `need` cells are asked
for. -/
structure GrowsTo (cap elem need c : Nat) : Prop where
  ge : cap ≤ c
  need_le : need ≤ c
  bytes : c * elem < 2 ^ 64
  capacity : IsCapacity cap → IsCapacity c

section Growth
variable {cap elem need n : Nat}

theorem bytes_lt {c : Nat} (hc : c ≤ 2 * (n + 2)) (hsize : (n + 2) * elem ≤ 2 ^ 60) :
    c * elem < 2 ^ 64 :=
  calc c * elem ≤ 2 * (n + 2) * elem := Nat.mul_le_mul_right elem hc
    _ = 2 * ((n + 2) * elem) := Nat.mul_assoc _ _ _
    _ < 2 ^ 64 := by omega

/-- `*cap ? *cap : 4`. -/
theorem start_spec (cap : Nat) : ∃ c, (if cap ≠ 0 then cap else 4) = c ∧ 0 < c ∧ cap ≤ c ∧
    (c = 4 ∨ c = cap) ∧ (IsCapacity cap → ∃ k, 2 ≤ k ∧ c = 2 ^ k) := by
  by_cases hcap : cap = 0
  · subst hcap
    exact ⟨4, by simp, by omega, by omega, Or.inl rfl, fun _ => ⟨2, by omega, rfl⟩⟩
  · exact ⟨cap, if_pos hcap, by omega, Nat.le_refl _, Or.inr rfl, fun h => h.resolve_left hcap⟩

/-- Where the doubling loop ends, for an array of `n` elements of which two more fit
in `2 ^ 60` bytes. -/
theorem exists_growsTo (helem : 0 < elem) (hneed : need ≤ n + 2) (hsize : (n + 2) * elem ≤ 2 ^ 60)
    (hlt : cap < need) : ∃ c, GrowsTo cap elem need c ∧
      Prog.loop (doublePass need) (need + 1) (if cap ≠ 0 then cap else 4) = pure c := by
  have hn : n + 2 ≤ (n + 2) * elem := Nat.le_mul_of_pos_right _ helem
  obtain ⟨c, hstart, hpos, hge, hc, hpow⟩ := start_spec cap
  rw [hstart]
  obtain ⟨j, hloop, hneed', hj⟩ := doubling_eq_pure (show need ≤ 2 ^ 63 by omega) (need + 1) c
    hpos (by omega)
  have hbound : c * 2 ^ j ≤ 2 * (n + 2) := by
    rcases hj with rfl | hj <;> omega
  refine ⟨c * 2 ^ j, ⟨?_, hneed', bytes_lt hbound hsize, fun h => ?_⟩, hloop⟩
  · exact Nat.le_trans hge (Nat.le_mul_of_pos_right _ (Nat.two_pow_pos j))
  · obtain ⟨k, hk, rfl⟩ := hpow h
    exact Or.inr ⟨k + j, by omega, by rw [Nat.pow_add]⟩

variable {α : Type} {p : Ptr α}

/-- The code of `array_grow` when there is not enough room, with what its loop
computes in place of the loop. -/
theorem arrayGrow_eq (helem : 0 < elem) (hneed : need ≤ n + 2) (hsize : (n + 2) * elem ≤ 2 ^ 60)
    (hlt : cap < need) : ∃ c, GrowsTo cap elem need c ∧
      arrayGrow p cap elem need = (do
        log (.realloc c elem)
        let q ← lift (Prog.realloc p c)
        if q.isNone then
          log .reallocFails
          return (.parseFailed, p, cap)
        return (.parseSuccess, q, c)) ∧
      SystemsCourse.arrayGrow p cap need = (do
        let q ← Prog.realloc p c
        if q.isNone then return (.parseFailed, p, cap)
        return (.parseSuccess, q, c)) := by
  obtain ⟨c, hc, hloop⟩ := exists_growsTo helem hneed hsize hlt
  have hn : n + 2 ≤ (n + 2) * elem := Nat.le_mul_of_pos_right _ helem
  have hcells : sizeT (c * elem) / elem = c := by
    rw [sizeT_of_lt hc.bytes, Nat.mul_div_cancel _ helem]
  refine ⟨c, hc, ?_, ?_⟩
  · rw [arrayGrow, if_neg (by omega), hloop, lift_pure, Logged.pure_seq, hcells]
  · rw [SystemsCourse.arrayGrow, if_neg (by omega), ← doublePass_eq (by omega), hloop]
    rfl

/-! ## Erasure -/

theorem erase_arrayGrow (helem : 0 < elem) (hneed : need ≤ n + 2)
    (hsize : (n + 2) * elem ≤ 2 ^ 60) :
    erase (arrayGrow p cap elem need) = SystemsCourse.arrayGrow p cap need := by
  by_cases hlt : cap < need
  · obtain ⟨c, -, hsized, hplain⟩ := arrayGrow_eq (p := p) helem hneed hsize hlt
    rw [hsized, hplain]
    simp only [erase_bind, erase_log, erase_lift, erase_ite, erase_pure, Prog.pure_seq]
  · rw [arrayGrow, SystemsCourse.arrayGrow, if_pos (by omega), if_pos (by omega)]
    rfl

theorem erase_store (cap i : Nat) (x : α) : erase (store p cap i x) = Prog.store p i x := by
  simp only [store, erase_bind, erase_log, erase_lift, Prog.pure_seq]

theorem erase_storeTerminated (cap : Nat) {n : Nat} (hn : n + 1 < 2 ^ 64) (x z : α) :
    erase (storeTerminated p cap n x z) = Prog.storeTerminated p n x z := by
  simp only [storeTerminated, Prog.storeTerminated, erase_bind, erase_store, sizeT_of_lt hn]

end Growth

/-- The count of an array of which two more elements fit in `2 ^ 60` bytes does not
wrap. -/
theorem sizeT_count {n elem k : Nat} (helem : 0 < elem) (hsize : (n + 2) * elem ≤ 2 ^ 60)
    (hk : k ≤ n + 2) : sizeT k = k := by
  have hn : n + 2 ≤ (n + 2) * elem := Nat.le_mul_of_pos_right _ helem
  exact sizeT_of_lt (by omega)

/-- **`buffer_addchar` does not notice the width of `size_t`**; nor do the other
three appends. -/
theorem erase_bufferAddchar {b : Buffer} (hsize : (b.n + 2) * 1 ≤ 2 ^ 60) (c : Byte) :
    erase (bufferAddchar b c) = SystemsCourse.bufferAddchar b c := by
  simp only [bufferAddchar, SystemsCourse.bufferAddchar, erase_bind, erase_ite, erase_pure,
    sizeT_count Nat.one_pos hsize (Nat.le_refl _),
    sizeT_count Nat.one_pos hsize (show b.n + 1 ≤ b.n + 2 by omega),
    erase_arrayGrow Nat.one_pos (Nat.le_refl _) hsize,
    erase_storeTerminated _ (show b.n + 1 < 2 ^ 64 by omega)]

theorem erase_tokenlistAddtoken {size : Sizeof} {t : TokenList}
    (hsize : (t.n + 2) * size.token ≤ 2 ^ 60) (type : TokenType) (text : Ptr Byte) (pos : Nat) :
    erase (tokenlistAddtoken size t type text pos)
      = SystemsCourse.tokenlistAddtoken t type text pos := by
  simp only [tokenlistAddtoken, SystemsCourse.tokenlistAddtoken, erase_bind, erase_ite, erase_pure,
    erase_lift, erase_store,
    sizeT_count size.token_pos hsize (show t.n + 1 ≤ t.n + 2 by omega),
    erase_arrayGrow size.token_pos (show t.n + 1 ≤ t.n + 2 by omega) hsize]

theorem erase_commandAddArg {size : Sizeof} {c : Command}
    (hsize : (c.argc + 2) * size.pointer ≤ 2 ^ 60) (cap : Nat) (s : Ptr Byte) :
    erase (commandAddArg size c cap s) = SystemsCourse.commandAddArg c cap s := by
  have hn : c.argc + 2 ≤ (c.argc + 2) * size.pointer := Nat.le_mul_of_pos_right _ size.pointer_pos
  simp only [commandAddArg, SystemsCourse.commandAddArg, erase_bind, erase_ite, erase_pure,
    erase_lift, sizeT_count size.pointer_pos hsize (Nat.le_refl _),
    sizeT_count size.pointer_pos hsize (show c.argc + 1 ≤ c.argc + 2 by omega),
    erase_arrayGrow size.pointer_pos (Nat.le_refl _) hsize,
    erase_storeTerminated _ (show c.argc + 1 < 2 ^ 64 by omega), Prog.seq_assoc]

theorem erase_commandAdd {size : Sizeof} {p : Pipeline}
    (hsize : (p.commandCount + 2) * size.command ≤ 2 ^ 60) (cap : Nat) (c : Command) :
    erase (commandAdd size p cap c) = SystemsCourse.commandAdd p cap c := by
  simp only [commandAdd, SystemsCourse.commandAdd, erase_bind, erase_ite, erase_pure, erase_store,
    sizeT_count size.command_pos hsize (show p.commandCount + 1 ≤ p.commandCount + 2 by omega),
    erase_arrayGrow size.command_pos (show p.commandCount + 1 ≤ p.commandCount + 2 by omega) hsize]

/-! ## Specifications -/

section Specifications
variable {σ : Script} {m : Memory} {F : Multiset Addr} {p : Ptr α} {cap elem need n : Nat}
  {xs : List α}

/-- **`array_grow`, with its log**: nothing wraps, and either there are `need` cells
and every element is still there, or `realloc` has failed and nothing has changed. -/
theorem arrayGrow_spec (hp : p.cells.length = cap) (hcap : IsCapacity cap) (helem : 0 < elem)
    (hneed : need ≤ n + 2) (hsize : (n + 2) * elem ≤ 2 ^ 60)
    (hlive : m.ledger.live = p.own + F) :
    wp (arrayGrow p cap elem need) σ (fun r l m' => (∀ ev ∈ l, ev.InBounds) ∧
      m'.ledger.live = r.2.1.own + F ∧
      ((r.1 = .parseSuccess ∧ .reallocFails ∉ l ∧ need ≤ r.2.2 ∧ IsCapacity r.2.2 ∧
          ∀ xs, p.Holds cap xs → r.2.1.Holds r.2.2 xs) ∨ r = (.parseFailed, p, cap))) m := by
  by_cases hlt : cap < need
  · obtain ⟨c, hc, hcode, -⟩ := arrayGrow_eq (p := p) helem hneed hsize hlt
    rw [hcode, wp_bind, wp_log, wp_bind, wp_lift]
    refine Prog.wp_mono (Prog.realloc_spec c hlive) ?_
    intro q m₁ hpost
    rcases hpost with ⟨rfl, -, hlive₁⟩ | ⟨a, rfl, hlive₁⟩
    · rw [if_pos Option.isNone_none, wp_bind, wp_log, wp_pure]
      refine ⟨?_, hlive₁, Or.inr rfl⟩
      intro ev hev
      simp only [List.append_nil, List.nil_append, List.singleton_append, List.mem_cons,
        List.not_mem_nil, or_false] at hev
      rcases hev with rfl | rfl
      · exact hc.bytes
      · trivial
    · rw [if_neg nofun, wp_pure]
      refine ⟨?_, hlive₁, Or.inl ⟨rfl, by simp, hc.need_le, hc.capacity hcap,
        fun _ h => holds_grown h (hp ▸ hc.ge) a⟩⟩
      intro ev hev
      simp only [List.append_nil, List.mem_singleton] at hev
      subst hev
      exact hc.bytes
  · rw [arrayGrow, if_pos (by omega), wp_pure]
    exact ⟨by simp, hlive, Or.inl ⟨rfl, by simp, Nat.le_of_not_lt hlt, hcap, fun _ h => h⟩⟩

theorem store_spec (h : p.Holds cap xs) (x : α) (hcap : xs.length < cap) :
    wp (store p cap xs.length x) σ (fun q l m' => ((∀ ev ∈ l, ev.InBounds) ∧ .reallocFails ∉ l) ∧
      m' = m ∧ q.own = p.own ∧ q.Holds cap (xs ++ [x])) m := by
  rw [store, wp_bind, wp_log, wp_lift]
  refine Prog.wp_mono (Prog.store_spec h x hcap) ?_
  intro q m' hpost
  refine ⟨⟨?_, by simp⟩, hpost⟩
  intro ev hev
  rw [List.append_nil, List.mem_singleton] at hev
  subst hev
  exact hcap

/-- The element is stored below the capacity, and so is the terminator. -/
theorem storeTerminated_spec (h : p.Holds cap xs) (x z : α) (hcap : xs.length + 1 < cap)
    (hn : xs.length + 1 < 2 ^ 64) :
    wp (storeTerminated p cap xs.length x z) σ (fun q l m' =>
      ((∀ ev ∈ l, ev.InBounds) ∧ .reallocFails ∉ l) ∧ m' = m ∧ q.own = p.own ∧
      q.HoldsTerminated cap z (xs ++ [x])) m := by
  rw [storeTerminated, sizeT_of_lt hn]
  refine wp_seq (store_spec h x (by omega)) ?_
  intro q l m' hpost
  obtain ⟨hlog, rfl, hown, hq⟩ := hpost
  have hz := store_spec (σ := σ) (m := m') hq z (by simpa using hcap)
  rw [List.length_append, List.length_singleton] at hz
  refine wp_mono hz ?_
  intro q' l' _ hpost
  obtain ⟨hlog', rfl, hown', hq'⟩ := hpost
  refine ⟨⟨List.forall_mem_append.mpr ⟨hlog.1, hlog'.1⟩, ?_⟩, rfl, hown'.trans hown, hq'.init,
    fun _ => hq'⟩
  rw [List.mem_append]
  exact fun h => h.elim hlog.2 hlog'.2

end Specifications

end SizeT
end SystemsCourse
