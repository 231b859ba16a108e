import SystemsCourse.ReadersWriterOutput

/-!
# When the writer of `readwritelockex.c` starves

A writer that is blocked gets in when the last reader is out.  If the lock lets readers
in meanwhile, two of them can hand the lock to each other for ever (`relay`); if it does
not, or if there is only one reader, each reader prints at most one more line
(`unprinted_step`).
-/
namespace SystemsCourse
namespace ReadersWriter
variable {R : Nat} {first : Preference} {s s' : State R} {i a b : Fin R}

/-- The writer is blocked and cannot get in. -/
def Waits (s : State R) (_ : Thread R) : Prop := s.writer = .blocked ∧ 0 < s.lock.readers

/-- The readers can print `n` lines while the writer waits. -/
def Starves (R : Nat) (first : Preference) (n : Nat) : Prop :=
  ∃ s ts s', (program R first).Reachable s ∧ (program R first).run s ts = some s' ∧
    (program R first).Along Waits s ts ∧ s.output.length + n ≤ s'.output.length

/-! ## When it does not starve -/

/-- The reader is inside and has not printed its line yet. -/
def ReaderPc.unprinted : ReaderPc → Bool
  | .readCounter => true
  | .print _ => true
  | _ => false

/-- The reader will print its line without coming in again. -/
abbrev ReaderPc.Unprinted (pc : ReaderPc) : Prop := pc.unprinted = true

/-- The lines that have been printed, and those that the readers inside will print. -/
def State.lines (s : State R) : Nat := s.output.length + tally ReaderPc.Unprinted s.reader

/-- A reader that comes in while the writer waits is let in by a lock that prefers
readers, and is not the only one. -/
theorem preference_of_rdlock (hinv : Invariant s) (hwaits : s.writer = .blocked ∧ 0 < s.lock.readers)
    (hpc : s.reader i = .rdlock) (hadmits : s.AdmitsReader first) : first = .readers ∧ 2 ≤ R := by
  constructor
  · cases first with
    | readers => rfl
    | writers => exact absurd hwaits.1 (hadmits.2 rfl)
  · have hpos := hwaits.2
    rw [hinv.lock.readers, tally_pos_iff] at hpos
    obtain ⟨j, hj⟩ := hpos
    have hne : j ≠ i := by
      rintro rfl
      rw [hpc] at hj
      exact hj
    have hvals : j.val ≠ i.val := fun hv => hne (Fin.ext hv)
    have := j.isLt
    have := i.isLt
    omega

/-- **While the writer waits**, the readers print only what they are about to print. -/
theorem unprinted_step (hfair : ¬ (first = .readers ∧ 2 ≤ R)) (hinv : Invariant s) {t : Thread R}
    (hwaits : Waits s t) (hstep : step first s t = some s') : s'.lines ≤ s.lines := by
  cases t with
  | reader i =>
    have hupdate (pc : ReaderPc) := tally_update (p := ReaderPc.Unprinted) s.reader i pc
    cases readerStep_cases hstep with
    | rdlock pc admits => exact absurd (preference_of_rdlock hinv hwaits pc admits) hfair
    | readCounter pc =>
      have hcount := hupdate (.print s.counter)
      rw [pc] at hcount
      exact Nat.add_le_add_left (Nat.le_of_eq (Nat.add_right_cancel hcount)) _
    | @print read pc =>
      have hcount := hupdate .unlock
      rw [pc, weight_pos (show ReaderPc.Unprinted (.print read) from rfl),
        weight_neg (show ¬ ReaderPc.Unprinted .unlock from Bool.false_ne_true)] at hcount
      show (s.output ++ [Line.read i read]).length + tally ReaderPc.Unprinted (Function.update s.reader i .unlock) ≤
        s.output.length + tally ReaderPc.Unprinted s.reader
      rw [List.length_append, List.length_singleton]
      omega
    | unlock pc =>
      have hcount := hupdate .sleep
      rw [pc] at hcount
      exact Nat.add_le_add_left (Nat.le_of_eq (Nat.add_right_cancel hcount)) _
    | sleep pc =>
      have hcount := hupdate .rdlock
      rw [pc] at hcount
      exact Nat.add_le_add_left (Nat.le_of_eq (Nat.add_right_cancel hcount)) _
  | writer =>
    obtain ⟨hblocked, hpos⟩ := hwaits
    cases writerStep_cases hstep with
    | enter _ admits => exact absurd admits.2 (Nat.ne_of_gt hpos)
    | sleep pc | block pc | printWriting pc | sleepInside pc | readCounter pc | writeCounter pc
    | printDone pc | unlock pc =>
      rw [hblocked] at pc
      cases pc
  | main =>
    cases mainStep_cases hstep with
    | @createReader k pc hk =>
      have hnew : s.reader ⟨k, hk⟩ = .notStarted := by
        rw [hinv.lock.created, pc]
        exact Nat.le_refl _
      have hcount := tally_update (p := ReaderPc.Unprinted) s.reader ⟨k, hk⟩ .rdlock
      rw [hnew] at hcount
      exact Nat.add_le_add_left (Nat.le_of_eq (Nat.add_right_cancel hcount)) _
    | createWriter pc => exact Nat.le_refl _

/-- A lock that prefers the writer, or a single reader, prints at most `R` lines. -/
theorem output_length_le (hfair : ¬ (first = .readers ∧ 2 ≤ R)) {ts : List (Thread R)}
    (hreach : (program R first).Reachable s) (halong : (program R first).Along Waits s ts)
    (hrun : (program R first).run s ts = some s') : s'.output.length ≤ s.output.length + R := by
  have hkeeps (u : State R) (t : Thread R) (u' : State R)
      (hu : (program R first).Reachable u ∧ u.lines ≤ s.lines) (hwaits : Waits u t)
      (hstep : (program R first).step u t = some u') :
      (program R first).Reachable u' ∧ u'.lines ≤ s.lines :=
    ⟨hu.1.step hstep,
      Nat.le_trans (unprinted_step hfair (Invariant.of_reachable hu.1) hwaits hstep) hu.2⟩
  have hlines := (halong.invariant hkeeps hrun ⟨hreach, Nat.le_refl _⟩).2
  have htally : tally ReaderPc.Unprinted s.reader ≤ R := by
    have := tally_le_card (p := ReaderPc.Unprinted) (f := s.reader)
    rwa [Fintype.card_fin] at this
  unfold State.lines at hlines
  omega

/-! ## When it starves -/

theorem step_rdlock (hpc : s.reader i = .rdlock) (hfree : s.lock.writer = false) :
    (program R .readers).step s (.reader i) = some { s.moveReader i .readCounter with
      lock := { s.lock with readers := s.lock.readers + 1 } } := by
  have hadmits : s.AdmitsReader .readers := ⟨hfree, nofun⟩
  show readerStep .readers s i = _
  simp only [readerStep, hpc, if_pos hadmits]

theorem step_readCounter (hpc : s.reader i = .readCounter) :
    (program R first).step s (.reader i) = some (s.moveReader i (.print s.counter)) := by
  show readerStep first s i = _
  simp only [readerStep, hpc]

theorem step_print {read : UInt64} (hpc : s.reader i = .print read) :
    (program R first).step s (.reader i) =
      some { s.moveReader i .unlock with output := s.output ++ [.read i read] } := by
  show readerStep first s i = _
  simp only [readerStep, hpc]

theorem step_unlock (hpc : s.reader i = .unlock) : (program R first).step s (.reader i) =
    some { s.moveReader i .sleep with lock := s.lock.unlock } := by
  show readerStep first s i = _
  simp only [readerStep, hpc]

theorem step_sleep (hpc : s.reader i = .sleep) :
    (program R first).step s (.reader i) = some (s.moveReader i .rdlock) := by
  show readerStep first s i = _
  simp only [readerStep, hpc]

@[simp] theorem moveReader_self (s : State R) (i : Fin R) (pc : ReaderPc) :
    (s.moveReader i pc).reader i = pc := by
  simp [State.moveReader]

theorem moveReader_of_ne (s : State R) (pc : ReaderPc) (h : a ≠ i) :
    (s.moveReader i pc).reader a = s.reader a := by
  simp [State.moveReader, h]

/-- The process gets from `s` to `s'` while the writer waits. -/
def WhileWaiting (s s' : State R) : Prop :=
  ∃ ts, (program R .readers).run s ts = some s' ∧ (program R .readers).Along Waits s ts

theorem WhileWaiting.refl (s : State R) : WhileWaiting s s := ⟨[], rfl, trivial⟩

theorem WhileWaiting.head {u : State R} {t : Thread R} (hwaits : Waits s t)
    (hstep : (program R .readers).step s t = some u) (h : WhileWaiting u s') : WhileWaiting s s' := by
  obtain ⟨ts, hrun, halong⟩ := h
  refine ⟨t :: ts, StepSystem.run_cons_eq_some_iff.mpr ⟨u, hstep, hrun⟩, hwaits, fun v hv => ?_⟩
  rw [hstep] at hv
  cases hv
  exact halong

/-- Reader `a` is about to go, reader `b` is about to come, and the writer is blocked. -/
structure Relay (a b : Fin R) (s : State R) : Prop where
  goes : s.reader a = .unlock
  comes : s.reader b = .rdlock
  writer : s.writer = .blocked
  lock : s.lock = ⟨1, false⟩

/-- **Two readers hand the lock to each other**, and print a line each time. -/
theorem relay (n : Nat) (hab : a ≠ b) (h : Relay a b s) :
    ∃ s', WhileWaiting s s' ∧ s'.output.length = s.output.length + n := by
  induction n generalizing s a b with
  | zero => exact ⟨s, .refl s, rfl⟩
  | succ n ih =>
    -- `b` comes in, reads and prints; then `a` goes and comes back
    let s₁ : State R := { s.moveReader b .readCounter with lock := ⟨2, false⟩ }
    let s₂ : State R := s₁.moveReader b (.print s.counter)
    let s₃ : State R := { s₂.moveReader b .unlock with output := s.output ++ [.read b s.counter] }
    let s₄ : State R := { s₃.moveReader a .sleep with lock := ⟨1, false⟩ }
    have hwaits (u : State R) (hw : u.writer = s.writer) (hl : 0 < u.lock.readers) (t : Thread R) :
        Waits u t := ⟨hw.trans h.writer, hl⟩
    have h₁ : (program R .readers).step s (.reader b) = some s₁ := by
      rw [step_rdlock h.comes (by rw [h.lock]), h.lock]
    have h₂ : (program R .readers).step s₁ (.reader b) = some s₂ :=
      step_readCounter (moveReader_self s b _)
    have h₃ : (program R .readers).step s₂ (.reader b) = some s₃ :=
      step_print (moveReader_self s₁ b _)
    have h₄ : (program R .readers).step s₃ (.reader a) = some s₄ := by
      refine step_unlock (s := s₃) ?_
      show (s₂.moveReader b .unlock).reader a = .unlock
      rw [moveReader_of_ne s₂ _ hab, moveReader_of_ne s₁ _ hab]
      exact (moveReader_of_ne s _ hab).trans h.goes
    have h₅ : (program R .readers).step s₄ (.reader a) = some (s₄.moveReader a .rdlock) :=
      step_sleep (moveReader_self s₃ a _)
    have hrelay : Relay b a (s₄.moveReader a .rdlock) := by
      refine ⟨?_, moveReader_self s₄ a _, h.writer, rfl⟩
      rw [moveReader_of_ne s₄ _ hab.symm]
      exact (moveReader_of_ne s₃ _ hab.symm).trans (moveReader_self s₂ b _)
    obtain ⟨s', hwhile, hlength⟩ := ih hab.symm hrelay
    refine ⟨s', .head (hwaits s rfl (by rw [h.lock]; decide) _) h₁ (.head (hwaits s₁ rfl Nat.two_pos _) h₂
      (.head (hwaits s₂ rfl Nat.two_pos _) h₃ (.head (hwaits s₃ rfl Nat.two_pos _) h₄
        (.head (hwaits s₄ rfl Nat.one_pos _) h₅ hwhile)))), ?_⟩
    rw [hlength]
    show (s.output ++ [Line.read b s.counter]).length + n = _
    rw [List.length_append, List.length_singleton]
    omega

/-- `main` can create its threads before any of them moves. -/
theorem exists_created (R : Nat) (first : Preference) : ∃ s, (program R first).Reachable s ∧
    s.main = .join ∧ s.writer = .sleep ∧ s.lock = ⟨0, false⟩ ∧ ∀ i, s.reader i = .rdlock := by
  have hloop (k : Nat) (hk : k ≤ R) : ∃ s, (program R first).Reachable s ∧ s.main = createLoop R k ∧
      s.lock = ⟨0, false⟩ ∧ ∀ i : Fin R, i.val < k → s.reader i = .rdlock := by
    induction k with
    | zero => exact ⟨initial R, StepSystem.reachable_init, rfl, rfl, nofun⟩
    | succ k ih =>
      obtain ⟨s, hreach, hmain, hlock, hreaders⟩ := ih (Nat.le_of_succ_le hk)
      have hpc : s.main = .createReader k := by
        rw [hmain, createLoop, if_pos (Nat.lt_of_succ_le hk)]
      have hstep : (program R first).step s .main =
          some { s.moveReader ⟨k, hk⟩ .rdlock with main := createLoop R (k + 1) } := by
        show mainStep s = _
        simp only [mainStep, hpc, dif_pos (Nat.lt_of_succ_le hk)]
      refine ⟨_, hreach.step hstep, rfl, hlock, fun i hi => ?_⟩
      show (s.moveReader ⟨k, hk⟩ .rdlock).reader i = .rdlock
      by_cases hik : i = ⟨k, hk⟩
      · rw [hik]
        exact moveReader_self s _ _
      · have hne : i.val ≠ k := fun hv => hik (Fin.ext hv)
        rw [moveReader_of_ne s _ hik]
        exact hreaders i (by omega)
  obtain ⟨s, hreach, hmain, hlock, hreaders⟩ := hloop R (Nat.le_refl R)
  have hpc : s.main = .createWriter := by
    rw [hmain, createLoop, if_neg (Nat.lt_irrefl R)]
  have hstep : (program R first).step s .main = some { s with writer := .sleep, main := .join } := by
    show mainStep s = _
    simp only [mainStep, hpc]
  exact ⟨_, hreach.step hstep, rfl, rfl, hlock, fun i => hreaders i i.isLt⟩

/-- With two readers, a lock that prefers readers gets to where they can relay. -/
theorem exists_relay (hab : a ≠ b) : ∃ s, (program R .readers).Reachable s ∧ Relay a b s := by
  obtain ⟨s, hreach, -, hwriter, hlock, hreaders⟩ := exists_created R .readers
  let s₁ : State R := { s.moveReader a .readCounter with lock := ⟨1, false⟩ }
  let s₂ : State R := s₁.moveReader a (.print s.counter)
  let s₃ : State R := { s₂.moveReader a .unlock with output := s.output ++ [.read a s.counter] }
  let s₄ : State R := { s₃ with writer := .wrlock }
  have h₁ : (program R .readers).step s (.reader a) = some s₁ := by
    rw [step_rdlock (hreaders a) (by rw [hlock]), hlock]
  have h₂ : (program R .readers).step s₁ (.reader a) = some s₂ :=
    step_readCounter (moveReader_self s a _)
  have h₃ : (program R .readers).step s₂ (.reader a) = some s₃ := step_print (moveReader_self s₁ a _)
  -- the writer finds the lock taken
  have h₄ : (program R .readers).step s₃ .writer = some s₄ := by
    have hpc : s₃.writer = .sleep := hwriter
    show writerStep s₃ = _
    simp only [writerStep, hpc]
    rfl
  have h₅ : (program R .readers).step s₄ .writer = some { s₄ with writer := .blocked } := by
    have hbusy : ¬ s₄.AdmitsWriter := fun hadmits => Nat.one_ne_zero hadmits.2
    show writerStep s₄ = _
    have hpc : s₄.writer = .wrlock := rfl
    simp only [writerStep, hpc, if_neg hbusy]
  refine ⟨_, ((((hreach.step h₁).step h₂).step h₃).step h₄).step h₅, moveReader_self s₂ a _, ?_, rfl, rfl⟩
  show (s₂.moveReader a .unlock).reader b = .rdlock
  rw [moveReader_of_ne s₂ _ hab.symm, moveReader_of_ne s₁ _ hab.symm]
  exact (moveReader_of_ne s _ hab.symm).trans (hreaders b)

/-- **When the writer starves**: the readers can print any number of lines while it waits if
and only if the lock prefers readers and there are at least two of them. -/
theorem starves_iff : (∀ n, Starves R first n) ↔ first = .readers ∧ 2 ≤ R := by
  constructor
  · intro hstarves
    by_contra hfair
    obtain ⟨s, ts, s', hreach, hrun, halong, hlength⟩ := hstarves (R + 1)
    have hle := output_length_le hfair hreach halong hrun
    omega
  · rintro ⟨rfl, hR⟩ n
    have hab : (⟨0, by omega⟩ : Fin R) ≠ ⟨1, by omega⟩ := by
      intro he
      exact absurd (congrArg Fin.val he) Nat.zero_ne_one
    obtain ⟨s, hreach, hrelay⟩ := exists_relay hab
    obtain ⟨s', ⟨ts, hrun, halong⟩, hlength⟩ := relay n hab hrelay
    exact ⟨s, ts, s', hreach, hrun, halong, Nat.le_of_eq hlength.symm⟩

end ReadersWriter
end SystemsCourse
