import Mathlib.Data.Fintype.Option
import SystemsCourse.Barriers

/-!
# The threads of `barriers.c` keep in step

Nobody is more than one round ahead: a thread is in front of the barrier, in the round
that is its generation, or has been let go by the generation before (`InRound`).  When
the last one arrives, all others are blocked at the barrier, so all of them are in the
round that begins (`Rounds.step`).
-/
namespace SystemsCourse
namespace Barriers
variable {N M : Nat} {s s' : State N} {i : Fin N}

/-! ## Where the threads are -/

/-- The generation of the barrier at which the worker is blocked. -/
def WorkerPc.blockedAt : WorkerPc → Option Nat
  | .blocked generation => some generation
  | _ => none

/-- The generation of the barrier at which `main` is blocked. -/
def MainPc.blockedAt : MainPc → Option Nat
  | .blocked _ generation => some generation
  | _ => none

/-- Where the threads are blocked; `none` stands for `main`. -/
def blockedAt (m : MainPc) (f : Fin N → Worker) : Option (Fin N) → Option Nat
  | none => m.blockedAt
  | some i => (f i).pc.blockedAt

/-- The worker is in the round `G`: it has not arrived at the barrier, it has and waits, or
it has been let go by the generation before. -/
def Worker.InRound (G : Nat) (w : Worker) : Prop :=
  match w.pc with
  | .notStarted => w.counter = 0 ∧ G = 0
  | .blocked g => w.counter = g ∧ (g = G ∨ g + 1 = G)
  | .printGo => w.counter + 1 = G
  | _ => w.counter = G

/-- `main` is in the round `G`. -/
def MainPc.InRound (M G : Nat) : MainPc → Prop
  | .create _ => G = 0
  | .printReady i => i = G ∧ i < M
  | .barrierWait i => i = G ∧ i < M
  | .blocked i g => i = g ∧ i < M ∧ (g = G ∨ g + 1 = G)
  | .printGo i => i + 1 = G ∧ i < M
  | .sleep i => i + 1 = G ∧ i < M
  | .exited => G = M

/-- How many workers `main` has created. -/
def MainPc.created (N : Nat) : MainPc → Nat
  | .create i => i
  | _ => N

/-- **All threads are in the round that is the generation of the barrier.** -/
structure Rounds (M : Nat) (s : State N) : Prop where
  barrier : s.mybarrier.Counts (blockedAt s.main s.worker)
  workers : ∀ i, (s.worker i).InRound s.mybarrier.generation
  main : s.main.InRound M s.mybarrier.generation
  created : ∀ i, (s.worker i).pc = .notStarted ↔ s.main.created N ≤ i

theorem blockedAt_moveWorker (m : MainPc) (f : Fin N → Worker) (i : Fin N) (w : Worker) :
    blockedAt m (Function.update f i w) = Function.update (blockedAt m f) (some i) w.pc.blockedAt := by
  funext t
  cases t with
  | none => rfl
  | some j =>
    by_cases hj : j = i
    · subst hj
      rw [Function.update_self]
      simp [blockedAt]
    · have hne : some j ≠ some i := fun he => hj (Option.some.inj he)
      rw [Function.update_of_ne hne]
      simp [blockedAt, hj]

theorem blockedAt_main (m m' : MainPc) (f : Fin N → Worker) :
    blockedAt m' f = Function.update (blockedAt m f) none m'.blockedAt := by
  funext t
  cases t with
  | none => rfl
  | some j => rfl

theorem card_threads (N : Nat) : Fintype.card (Option (Fin N)) = N + 1 := by
  rw [Fintype.card_option, Fintype.card_fin]

/-! ## What a step does to the rounds -/

/-- Nobody is blocked at the generation that comes next. -/
theorem Rounds.not_next (h : Rounds M s) (t : Option (Fin N)) :
    blockedAt s.main s.worker t ≠ some (s.mybarrier.generation + 1) := by
  intro hblocked
  cases t with
  | none =>
    have hmain := h.main
    change s.main.blockedAt = _ at hblocked
    cases hpc : s.main with
    | blocked i g =>
      rw [hpc] at hmain hblocked
      obtain ⟨-, -, hg⟩ := hmain
      cases hblocked
      omega
    | _ => rw [hpc] at hblocked; cases hblocked
  | some i =>
    have hworker := h.workers i
    change (s.worker i).pc.blockedAt = _ at hblocked
    unfold Worker.InRound at hworker
    cases hpc : (s.worker i).pc with
    | blocked g =>
      rw [hpc] at hworker hblocked
      obtain ⟨-, hg⟩ := hworker
      cases hblocked
      omega
    | _ => rw [hpc] at hblocked; cases hblocked

/-- A worker that is blocked at the generation of the barrier is in the next round, too. -/
theorem Worker.InRound.next {w : Worker} {G : Nat} (h : w.InRound G) (hblocked : w.pc.blockedAt = some G) :
    w.InRound (G + 1) := by
  unfold InRound at h ⊢
  cases hpc : w.pc with
  | blocked g =>
    rw [hpc] at h hblocked
    cases hblocked
    exact ⟨h.1, Or.inr rfl⟩
  | _ => rw [hpc] at hblocked; cases hblocked

/-- If `main` is blocked at the generation of the barrier, it is in the next round, too. -/
theorem MainPc.InRound.next {m : MainPc} {G : Nat} (h : m.InRound M G) (hblocked : m.blockedAt = some G) :
    m.InRound M (G + 1) := by
  cases m with
  | blocked i g =>
    cases hblocked
    exact ⟨h.1, h.2.1, Or.inr rfl⟩
  | _ => cases hblocked

theorem created_moveWorker {w : Worker} (h : ∀ j, (s.worker j).pc = .notStarted ↔ s.main.created N ≤ j)
    (hstarted : (s.worker i).pc ≠ .notStarted) (hw : w.pc ≠ .notStarted) (j : Fin N) :
    (Function.update s.worker i w j).pc = .notStarted ↔ s.main.created N ≤ j := by
  rw [← h j]
  by_cases hj : j = i
  · rw [hj, Function.update_self]
    exact iff_of_false hw hstarted
  · rw [Function.update_of_ne hj]

/-- What holds of the worker that moves and of the others holds of all. -/
theorem forall_moveWorker {w : Worker} {p : Worker → Prop} (hw : p w)
    (h : ∀ j, j ≠ i → p (s.worker j)) (j : Fin N) : p (Function.update s.worker i w j) := by
  by_cases hj : j = i
  · rw [hj, Function.update_self]
    exact hw
  · rw [Function.update_of_ne hj]
    exact h j hj

/-- A worker moves without arriving at the barrier. -/
theorem Rounds.worker_moves (h : Rounds M s) {w : Worker} {o : List (Line N)}
    (hstarted : (s.worker i).pc ≠ .notStarted) (hw : w.pc ≠ .notStarted)
    (hold : (s.worker i).pc.blockedAt ≠ some s.mybarrier.generation) (hnew : w.pc.blockedAt = none)
    (hround : w.InRound s.mybarrier.generation) :
    Rounds M { s.moveWorker i w with output := o } where
  barrier := by
    show s.mybarrier.Counts (blockedAt s.main (Function.update s.worker i w))
    rw [blockedAt_moveWorker, hnew]
    exact h.barrier.move hold (Option.some_ne_none _).symm
  workers := forall_moveWorker hround fun j _ => h.workers j
  main := h.main
  created := created_moveWorker h.created hstarted hw

/-- A worker arrives at the barrier and is blocked. -/
theorem Rounds.worker_blocks (h : Rounds M s) (hpc : (s.worker i).pc = .barrierWait)
    (hlast : s.mybarrier.arrived + 1 ≠ N + 1) :
    Rounds M { s.moveWorker i ⟨.blocked s.mybarrier.generation, (s.worker i).counter⟩ with
      mybarrier := s.mybarrier.arrive (N + 1) } := by
  have hgeneration : (s.mybarrier.arrive (N + 1)).generation = s.mybarrier.generation := by
    rw [CyclicBarrier.arrive_wait hlast]
  have hround := h.workers i
  unfold Worker.InRound at hround
  rw [hpc] at hround
  refine ⟨?_, ?_, ?_, created_moveWorker h.created (by rw [hpc]; exact WorkerPc.noConfusion) WorkerPc.noConfusion⟩
  · show (s.mybarrier.arrive (N + 1)).Counts (blockedAt s.main (Function.update s.worker i _))
    rw [blockedAt_moveWorker, ← card_threads N]
    refine h.barrier.arrive_wait ?_ (by rwa [card_threads])
    show (s.worker i).pc.blockedAt ≠ _
    rw [hpc]
    exact (Option.some_ne_none _).symm
  · rw [hgeneration]
    exact forall_moveWorker ⟨hround, Or.inl rfl⟩ fun j _ => h.workers j
  · rw [hgeneration]
    exact h.main

/-- **The last thread arrives**: all the others are in the next round. -/
theorem Rounds.others_next (h : Rounds M s) {t : Option (Fin N)}
    (ht : blockedAt s.main s.worker t ≠ some s.mybarrier.generation)
    (hlast : s.mybarrier.arrived + 1 = N + 1) :
    (none ≠ t → s.main.InRound M (s.mybarrier.generation + 1)) ∧
      ∀ j, some j ≠ t → (s.worker j).InRound (s.mybarrier.generation + 1) := by
  have hothers := h.barrier.others_of_last ht (by rwa [card_threads])
  exact ⟨fun hne => h.main.next (hothers none hne), fun j hj => (h.workers j).next (hothers (some j) hj)⟩

/-- A worker arrives at the barrier and is the last one. -/
theorem Rounds.worker_last (h : Rounds M s) (hpc : (s.worker i).pc = .barrierWait)
    (hlast : s.mybarrier.arrived + 1 = N + 1) :
    Rounds M { s.moveWorker i ⟨.printGo, (s.worker i).counter⟩ with
      mybarrier := s.mybarrier.arrive (N + 1) } := by
  have hgeneration : (s.mybarrier.arrive (N + 1)).generation = s.mybarrier.generation + 1 := by
    rw [CyclicBarrier.arrive_last hlast]
  have hround := h.workers i
  unfold Worker.InRound at hround
  rw [hpc] at hround
  have haway : blockedAt s.main s.worker (some i) ≠ some s.mybarrier.generation := by
    show (s.worker i).pc.blockedAt ≠ _
    rw [hpc]
    exact (Option.some_ne_none _).symm
  obtain ⟨hmain, hworkers⟩ := h.others_next haway hlast
  refine ⟨?_, ?_, ?_, created_moveWorker h.created (by rw [hpc]; exact WorkerPc.noConfusion) WorkerPc.noConfusion⟩
  · rw [← card_threads N]
    refine h.barrier.arrive_last (by rwa [card_threads]) fun t => ?_
    show blockedAt s.main (Function.update s.worker i _) t ≠ _
    rw [blockedAt_moveWorker]
    by_cases ht : t = some i
    · rw [ht, Function.update_self]
      exact (Option.some_ne_none _).symm
    · rw [Function.update_of_ne ht]
      exact h.not_next t
  · rw [hgeneration]
    exact forall_moveWorker (congrArg (· + 1) hround) fun j hj => hworkers j fun he => hj (Option.some.inj he)
  · rw [hgeneration]
    exact hmain (Option.some_ne_none i).symm

theorem Rounds.workerStep (h : Rounds M s) (hstep : WorkerStep s i s') : Rounds M s' := by
  have hround := h.workers i
  unfold Worker.InRound at hround
  cases hstep with
  | printWait pc =>
    rw [pc] at hround
    exact h.worker_moves (by rw [pc]; exact WorkerPc.noConfusion) WorkerPc.noConfusion
      (by rw [pc]; exact (Option.some_ne_none _).symm) rfl hround
  | last pc last => exact h.worker_last pc last
  | block pc notLast => exact h.worker_blocks pc notLast
  | @release g pc released =>
    rw [pc] at hround
    obtain ⟨hcounter, hg⟩ := hround
    refine h.worker_moves (o := s.output) (by rw [pc]; exact WorkerPc.noConfusion) WorkerPc.noConfusion ?_ rfl ?_
    · rw [pc]
      exact fun he => released (Option.some.inj he).symm
    · -- it has been let go by the generation before
      show (s.worker i).counter + 1 = s.mybarrier.generation
      omega
  | printGo pc =>
    rw [pc] at hround
    exact h.worker_moves (by rw [pc]; exact WorkerPc.noConfusion) WorkerPc.noConfusion
      (by rw [pc]; exact (Option.some_ne_none _).symm) rfl hround
  | sleep pc =>
    rw [pc] at hround
    exact h.worker_moves (o := s.output) (by rw [pc]; exact WorkerPc.noConfusion) WorkerPc.noConfusion
      (by rw [pc]; exact (Option.some_ne_none _).symm) rfl hround

/-- `main` moves without arriving at the barrier. -/
theorem Rounds.main_moves (h : Rounds M s) {m : MainPc} {o : List (Line N)}
    (hold : s.main.blockedAt ≠ some s.mybarrier.generation) (hnew : m.blockedAt = none)
    (hround : m.InRound M s.mybarrier.generation) (hcreated : m.created N = s.main.created N) :
    Rounds M { s with main := m, output := o } where
  barrier := by
    show s.mybarrier.Counts (blockedAt m s.worker)
    rw [blockedAt_main s.main, hnew]
    exact h.barrier.move hold (Option.some_ne_none _).symm
  workers := h.workers
  main := hround
  created j := by
    show _ ↔ m.created N ≤ j
    rw [hcreated]
    exact h.created j

/-- `main` arrives at the barrier and is blocked. -/
theorem Rounds.main_blocks (h : Rounds M s) {k : Nat} (hpc : s.main = .barrierWait k)
    (hlast : s.mybarrier.arrived + 1 ≠ N + 1) :
    Rounds M { s with
      main := .blocked k s.mybarrier.generation, mybarrier := s.mybarrier.arrive (N + 1) } := by
  have hgeneration : (s.mybarrier.arrive (N + 1)).generation = s.mybarrier.generation := by
    rw [CyclicBarrier.arrive_wait hlast]
  have hround := h.main
  have hcreated := h.created
  rw [hpc] at hround hcreated
  refine ⟨?_, ?_, ?_, hcreated⟩
  · show (s.mybarrier.arrive (N + 1)).Counts (blockedAt _ s.worker)
    rw [blockedAt_main s.main, ← card_threads N]
    refine h.barrier.arrive_wait ?_ (by rwa [card_threads])
    show s.main.blockedAt ≠ _
    rw [hpc]
    exact (Option.some_ne_none _).symm
  · rw [hgeneration]
    exact h.workers
  · rw [hgeneration]
    exact ⟨hround.1, hround.2, Or.inl rfl⟩

/-- `main` arrives at the barrier and is the last one. -/
theorem Rounds.main_last (h : Rounds M s) {k : Nat} (hpc : s.main = .barrierWait k)
    (hlast : s.mybarrier.arrived + 1 = N + 1) :
    Rounds M { s with main := .printGo k, mybarrier := s.mybarrier.arrive (N + 1) } := by
  have hgeneration : (s.mybarrier.arrive (N + 1)).generation = s.mybarrier.generation + 1 := by
    rw [CyclicBarrier.arrive_last hlast]
  have hround := h.main
  have hcreated := h.created
  rw [hpc] at hround hcreated
  have haway : blockedAt s.main s.worker none ≠ some s.mybarrier.generation := by
    show s.main.blockedAt ≠ _
    rw [hpc]
    exact (Option.some_ne_none _).symm
  obtain ⟨-, hworkers⟩ := h.others_next haway hlast
  refine ⟨?_, ?_, ?_, hcreated⟩
  · rw [← card_threads N]
    refine h.barrier.arrive_last (by rwa [card_threads]) fun t => ?_
    show blockedAt _ s.worker t ≠ _
    rw [blockedAt_main s.main]
    by_cases ht : t = none
    · rw [ht, Function.update_self]
      exact (Option.some_ne_none _).symm
    · rw [Function.update_of_ne ht]
      exact h.not_next t
  · rw [hgeneration]
    exact fun j => hworkers j (Option.some_ne_none j)
  · rw [hgeneration]
    exact ⟨congrArg (· + 1) hround.1, hround.2⟩

/-- The head of the loop of rounds. -/
theorem roundLoop_facts {k G : Nat} (hk : k = G) (hle : k ≤ M) :
    (roundLoop M k).InRound M G ∧ (roundLoop M k).blockedAt = none ∧ (roundLoop M k).created N = N := by
  unfold roundLoop
  split_ifs with hlt
  · exact ⟨⟨hk, hlt⟩, rfl, rfl⟩
  · exact ⟨by show G = M; omega, rfl, rfl⟩

/-- The head of the loop that creates the workers. -/
theorem createLoop_facts (N M k : Nat) (hk : k ≤ N) : (createLoop N M k).InRound M 0 ∧
    (createLoop N M k).blockedAt = none ∧ (createLoop N M k).created N = k := by
  unfold createLoop
  split_ifs with hlt
  · exact ⟨rfl, rfl, rfl⟩
  · obtain ⟨hround, hblocked, hcreated⟩ := roundLoop_facts (N := N) (M := M) (k := 0) rfl (Nat.zero_le M)
    exact ⟨hround, hblocked, hcreated.trans (by omega)⟩

/-- `main` creates a worker. -/
theorem Rounds.create (h : Rounds M s) {k : Nat} (hpc : s.main = .create k) (hk : k < N) :
    Rounds M { s.moveWorker ⟨k, hk⟩ ⟨.printWait, 0⟩ with main := createLoop N M (k + 1) } := by
  obtain ⟨hround, hblocked, hcreated⟩ := createLoop_facts N M (k + 1) hk
  have hzero := h.main
  have hcount := h.barrier
  rw [hpc] at hzero hcount
  change s.mybarrier.generation = 0 at hzero
  have hnew : (s.worker ⟨k, hk⟩).pc = .notStarted := by
    rw [h.created, hpc]
    exact Nat.le_refl k
  refine ⟨?_, forall_moveWorker hzero.symm fun j _ => h.workers j, ?_, fun j => ?_⟩
  · show s.mybarrier.Counts (blockedAt _ (Function.update s.worker _ _))
    rw [blockedAt_moveWorker, blockedAt_main (.create k), hblocked]
    refine (hcount.move (i := none) (Option.some_ne_none _).symm (Option.some_ne_none _).symm).move ?_
      (Option.some_ne_none _).symm
    rw [Function.update_of_ne (Option.some_ne_none _)]
    show (s.worker ⟨k, hk⟩).pc.blockedAt ≠ _
    rw [hnew]
    exact (Option.some_ne_none _).symm
  · rw [← hzero] at hround
    exact hround
  · show (Function.update s.worker ⟨k, hk⟩ ⟨.printWait, 0⟩ j).pc = .notStarted ↔
      (createLoop N M (k + 1)).created N ≤ j
    rw [hcreated]
    by_cases hj : j = ⟨k, hk⟩
    · rw [hj, Function.update_self]
      exact iff_of_false WorkerPc.noConfusion (Nat.not_succ_le_self k)
    · have hne : j.val ≠ k := fun hv => hj (Fin.ext hv)
      have hold := h.created j
      rw [hpc] at hold
      rw [Function.update_of_ne hj, hold]
      show k ≤ j.val ↔ k + 1 ≤ j.val
      omega

theorem Rounds.mainStep (h : Rounds M s) (hstep : MainStep M s s') : Rounds M s' := by
  have hround := h.main
  cases hstep with
  | create pc hk => exact h.create pc hk
  | printReady pc =>
    rw [pc] at hround
    exact h.main_moves (by rw [pc]; exact (Option.some_ne_none _).symm) rfl hround (by rw [pc]; rfl)
  | last pc last => exact h.main_last pc last
  | block pc notLast => exact h.main_blocks pc notLast
  | @release k g pc released =>
    rw [pc] at hround
    obtain ⟨hk, hlt, hg⟩ := hround
    refine h.main_moves (o := s.output) ?_ rfl ⟨by omega, hlt⟩ (by rw [pc]; rfl)
    rw [pc]
    exact fun he => released (Option.some.inj he).symm
  | printGo pc =>
    rw [pc] at hround
    exact h.main_moves (by rw [pc]; exact (Option.some_ne_none _).symm) rfl hround (by rw [pc]; rfl)
  | sleep pc =>
    rw [pc] at hround
    obtain ⟨hround, hblocked, hcreated⟩ := roundLoop_facts (N := N) hround.1 hround.2
    exact h.main_moves (o := s.output) (by rw [pc]; exact (Option.some_ne_none _).symm) hblocked hround
      (hcreated.trans (by rw [pc]; rfl))

theorem Rounds.step (h : Rounds M s) (hstep : Step M s s') : Rounds M s' := by
  cases hstep with
  | worker _ step => exact h.workerStep step
  | main step => exact h.mainStep step

theorem rounds_initial (N M : Nat) : Rounds M (initial N M) := by
  obtain ⟨hround, hblocked, hcreated⟩ := createLoop_facts N M 0 (Nat.zero_le N)
  have haway (t : Option (Fin N)) : blockedAt (createLoop N M 0) (fun _ : Fin N => ⟨.notStarted, 0⟩) t ≠ some 0 := by
    cases t with
    | none =>
      show (createLoop N M 0).blockedAt ≠ _
      rw [hblocked]
      exact (Option.some_ne_none _).symm
    | some i => exact (Option.some_ne_none _).symm
  refine ⟨⟨(tally_eq_zero_iff.mpr haway).symm, ?_⟩, fun _ => ⟨rfl, rfl⟩, hround, fun i => ?_⟩
  · rw [card_threads]
    exact Nat.succ_pos N
  · refine iff_of_true rfl ?_
    show (createLoop N M 0).created N ≤ i
    rw [hcreated]
    exact Nat.zero_le _

theorem Rounds.of_reachable (h : (program N M).Reachable s) : Rounds M s :=
  h.invariant (rounds_initial N M) fun _ _ _ hs hstep => hs.step (step_cases hstep)

end Barriers
end SystemsCourse
