import Mathlib.Data.Fintype.Sum
import SystemsCourse.UdpExchangeOutputs

/-!
# `udpclient.c` and `udpserver.c`: the numbers in the answers

Which numbers can the clients see?  No two clients see the same one, and a network that
delivers no copies has only as many numbers to give as there are clients; with copies
any number up to the largest `int` can turn up.  That is all, as long as the answer
finds a terminator behind it (`numbers_iff`).
-/
namespace SystemsCourse
namespace UdpExchange

/-- What a client has printed when it has received an answer. -/
def ClientPc.answer : ClientPc → Option (List Byte)
  | .exited printed => some printed
  | .start | .send | .receive | .sendFailed _ | .receiveFailed _ => none

/-- The client shows this number, or it has received no answer. -/
def Shows (c : Client) : Option (List Byte) → Option Nat → Prop
  | some printed, some n => ∃ t, printed = printedOf c (reply n t)
  | none, none => True
  | some _, none => False
  | none, some _ => False

/-- The highest number in an answer to one of `C` clients. -/
def highest (C : Nat) (copies : Bool) : Nat := if copies then intMax else min C intMax

variable {C : Nat} {copies : Bool} {clients : Fin C → Client} {number : Fin C → Option Nat}

/-- **The numbers are places in an order.** -/
structure Numbering (clients : Fin C → Client) (copies : Bool) (number : Fin C → Option Nat) :
    Prop where
  injective : ∀ i j n, number i = some n → number j = some n → i = j
  range : ∀ i n, number i = some n → 1 ≤ n ∧ n ≤ highest C copies
  terminated : ∀ i n, number i = some n → 0 ∈ (clients i).stack.drop ((decimal n).length + 48)

/-- The number that a client has printed is known. -/
theorem printedOf_number {c : Client} {m n : Nat} {t u : TcpSession.Ctime}
    (h : printedOf c (reply m t) = printedOf c (reply n u)) : m = n := by
  simp only [printedOf, List.append_assoc] at h
  exact reply_number (List.append_cancel_left h)

theorem ClientPc.exited_of_answer {pc : ClientPc} {printed : List Byte}
    (h : pc.answer = some printed) : pc = .exited printed := by
  cases pc with
  | exited _ => exact congrArg ClientPc.exited (Option.some.inj h)
  | start | send | receive | sendFailed _ | receiveFailed _ => cases h

theorem Exchanged.numbering {s : State C copies} {served : List (Fin C)}
    (h : Exchanged clients served s)
    (hshows : ∀ i, Shows (clients i) (s.client i).answer (number i)) :
    Numbering clients copies number := by
  -- the number of a client is one of its places
  have hplace (i : Fin C) (n : Nat) (hn : number i = some n) : ∃ m, n = m + 1 ∧
      s.askers[m]? = some i ∧ 0 ∈ (clients i).stack.drop ((decimal n).length + 48) := by
    have hi := hshows i
    rw [hn] at hi
    cases hanswer : (s.client i).answer with
    | none =>
      rw [hanswer] at hi
      exact hi.elim
    | some printed =>
      rw [hanswer] at hi
      obtain ⟨t, rfl⟩ := hi
      obtain ⟨bs, ⟨m, u, hm, rfl⟩, hterminated, hprinted⟩ :=
        h.printed i _ (ClientPc.exited_of_answer hanswer)
      obtain ⟨hlt, -⟩ := List.getElem?_eq_some_iff.mp hm
      obtain rfl := printedOf_number hprinted
      rw [Terminated, length_reply] at hterminated
      exact ⟨m, rfl, by rw [h.askers, List.getElem?_append_left hlt, hm], hterminated⟩
  refine ⟨fun i j n hi hj => ?_, fun i n hi => ?_, fun i n hi => ?_⟩
  · obtain ⟨m, rfl, hm, -⟩ := hplace i n hi
    obtain ⟨m', hm', hat, -⟩ := hplace j _ hj
    cases hm'
    exact Option.some.inj (hm.symm.trans hat)
  · obtain ⟨m, rfl, hm, -⟩ := hplace i n hi
    obtain ⟨hlt, -⟩ := List.getElem?_eq_some_iff.mp hm
    have hbound : s.askers.length ≤ intMax := h.count ▸ h.bound
    refine ⟨Nat.succ_pos m, Nat.le_trans hlt ?_⟩
    cases copies with
    | true => exact hbound
    | false =>
      refine Nat.le_min.mpr ⟨?_, hbound⟩
      have hnodup : s.askers.Nodup := DatagramChannel.nodup_map_arrivals Prod.fst rfl h.single
      have hcard := hnodup.length_le_card
      rwa [Fintype.card_fin] at hcard
  · obtain ⟨m, -, -, hterminated⟩ := hplace i n hi
    exact hterminated

/-! ## An order for given numbers -/

/-- With copies, the datagram of a client comes whenever its number is next. -/
theorem exists_order_of_copies (hinj : ∀ i j n, number i = some n → number j = some n → i = j)
    (bound : Nat) (hrange : ∀ i n, number i = some n → 1 ≤ n ∧ n ≤ bound) :
    ∃ order : List (Fin C), order.length ≤ bound ∧
      ∀ i n, number i = some n → order[n - 1]? = some i := by
  classical
  by_cases hnone : ∀ i, number i = none
  · exact ⟨[], Nat.zero_le _, fun i n hi => by rw [hnone i] at hi; cases hi⟩
  obtain ⟨filler, -⟩ := not_forall.mp hnone
  let next (k : Nat) : Fin C := if h : ∃ i, number i = some (k + 1) then h.choose else filler
  refine ⟨(List.range bound).map next, ?_, fun i n hi => ?_⟩
  · rw [List.length_map, List.length_range]
  obtain ⟨hpos, hle⟩ := hrange i n hi
  have hnext : next (n - 1) = i := by
    have hex : ∃ i, number i = some (n - 1 + 1) := ⟨i, by rw [Nat.sub_add_cancel hpos, hi]⟩
    refine (dif_pos hex).trans (hinj _ _ n ?_ hi)
    rw [hex.choose_spec, Nat.sub_add_cancel hpos]
  rw [List.getElem?_map, List.getElem?_range (by omega), Option.map_some, hnext]

/-- Without copies, the numbers of some clients are filled up to an order of all. -/
theorem exists_order (hinj : ∀ i j n, number i = some n → number j = some n → i = j)
    (hrange : ∀ i n, number i = some n → 1 ≤ n ∧ n ≤ C) :
    ∃ order : List (Fin C), order.Nodup ∧ ∀ i n, number i = some n → order[n - 1]? = some i := by
  have hmaps : Set.MapsTo (fun i => (number i).getD 0 - 1) {i | (number i).isSome}
      (Finset.range C) := by
    intro i hi
    obtain ⟨n, hn⟩ := Option.isSome_iff_exists.mp hi
    obtain ⟨hpos, hle⟩ := hrange i n hn
    have hlt : (number i).getD 0 - 1 < C := by
      rw [hn, Option.getD_some]
      omega
    exact Finset.mem_coe.mpr (Finset.mem_range.mpr hlt)
  have hinjOn : Set.InjOn (fun i => (number i).getD 0 - 1) {i | (number i).isSome} := by
    intro i hi j hj hij
    obtain ⟨m, hm⟩ := Option.isSome_iff_exists.mp hi
    obtain ⟨n, hn⟩ := Option.isSome_iff_exists.mp hj
    simp only [hm, hn, Option.getD_some] at hij
    have hmpos := (hrange i m hm).1
    have hnpos := (hrange j n hn).1
    exact hinj i j m hm (hn.trans (congrArg some (by omega)))
  obtain ⟨g, hg⟩ := hmaps.exists_equiv_extend_of_card_eq
    ((Fintype.card_fin C).trans (Finset.card_range C).symm) hinjOn
  refine ⟨List.ofFn fun k : Fin C => g.symm ⟨k, Finset.mem_range.mpr k.isLt⟩, ?_, fun i n hi => ?_⟩
  · refine List.nodup_ofFn.mpr fun j k hjk => Fin.ext ?_
    exact congrArg Subtype.val (g.symm.injective hjk)
  · obtain ⟨hpos, hle⟩ := hrange i n hi
    have hgi : (g i : Nat) = n - 1 := by
      rw [hg i (Option.isSome_iff_exists.mpr ⟨n, hi⟩), hi]
      rfl
    rw [List.getElem?_ofFn, dif_pos (by omega), Option.some_inj, Equiv.symm_apply_eq]
    exact Subtype.ext hgi.symm

theorem Numbering.exists_order (h : Numbering clients copies number) :
    ∃ order : List (Fin C), order.length ≤ intMax ∧ (copies = false → order.Nodup) ∧
      ∀ i n, number i = some n → order[n - 1]? = some i := by
  cases copies with
  | true =>
    obtain ⟨order, hbound, hat⟩ := exists_order_of_copies h.injective intMax h.range
    exact ⟨order, hbound, fun hcopies => Bool.noConfusion hcopies, hat⟩
  | false =>
    obtain ⟨order, hnodup, hat⟩ := UdpExchange.exists_order h.injective fun i n hi =>
      ⟨(h.range i n hi).1, Nat.le_trans (h.range i n hi).2 (Nat.min_le_left _ _)⟩
    refine ⟨order.take intMax, List.length_take_le _ _, fun _ => hnodup.sublist (List.take_sublist _ _),
      fun i n hi => ?_⟩
    obtain ⟨hpos, hle⟩ := h.range i n hi
    have hlt : n - 1 < intMax := by
      have := Nat.le_trans hle (Nat.min_le_right _ _)
      omega
    rw [List.getElem?_take_of_lt hlt, hat i n hi]

/-- **The numbers that the clients can see**: distinct ones, each at most the number of
clients if the network delivers no copies, and shown where a terminator follows. -/
theorem numbers_iff (clients : Fin C → Client) (copies : Bool) (number : Fin C → Option Nat) :
    (∃ s, (program clients copies).Reachable s ∧
      ∀ i, Shows (clients i) (s.client i).answer (number i)) ↔ Numbering clients copies number := by
  constructor
  · rintro ⟨s, hreach, hshows⟩
    obtain ⟨_, hexchanged⟩ := inOrder hreach
    exact hexchanged.numbering hshows
  intro h
  obtain ⟨order, hbound, honce, hat⟩ := h.exists_order
  -- everybody else waits
  let fate (i : Fin C) : Fate := (number i).elim .waits fun n => .answered (n - 1) anyTime
  let history : History C := ⟨order, none, fate⟩
  have hfate {i : Fin C} {n : Nat} (hn : number i = some n) : fate i = .answered (n - 1) anyTime := by
    simp only [fate, hn, Option.elim_some]
  have hpossible : history.Possible clients copies := by
    have haskers : history.askers = order := List.append_nil order
    refine ⟨haskers ▸ hbound, fun hcopies => haskers ▸ honce hcopies, fun i => ?_⟩
    show history.Allows clients i (fate i)
    cases hn : number i with
    | none =>
      simp only [fate, hn, Option.elim_none]
      exact trivial
    | some n =>
      have hpos := (h.range i n hn).1
      rw [hfate hn]
      refine ⟨hat i n hn, ?_⟩
      rw [Nat.sub_add_cancel hpos, Terminated, length_reply]
      exact h.terminated i n hn
  obtain ⟨s, hreach, hclient, -⟩ :
      ∃ s : State C copies, (program clients copies).Reachable s ∧ _ := hpossible.exists_run
  refine ⟨s, hreach, fun i => ?_⟩
  rw [hclient i]
  show Shows (clients i) ((fate i).pc (clients i)).answer (number i)
  cases hn : number i with
  | none =>
    simp only [fate, hn, Option.elim_none]
    exact trivial
  | some n =>
    have hpos := (h.range i n hn).1
    rw [hfate hn]
    exact ⟨anyTime, by rw [Nat.sub_add_cancel hpos]⟩

end UdpExchange
end SystemsCourse
