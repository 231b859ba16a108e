import Mathlib.Data.List.Infix
import Mathlib.Data.List.TakeWhile
import SystemsCourse.CharArray

/-!
# The read loop of the TCP servers

`handle_connection` of `sequential.c`, `threadedsvr.c` and `threadpoolsvr.c`, and
`main` of `tcpserver.c`, read a client's message with the same loop.  A message ends
with a newline; the loop looks for it at the end of what a single `read` returns, and
prints what it has read as a C string.

How a stream is cut into reads (`Cut`) is up to the network.  The loop frames a
message (`FramesMessage`) if it stops right behind the first newline of the stream,
or at its end, and has printed everything up to there: if and only if one of the
reads ends there, and the message contains no zero byte (`framesMessage_iff`).
-/
namespace SystemsCourse
namespace MessageFraming

/-! ## The code -/

/-- `MAXLINE`. -/
def maxLine : Nat := 4096

/-- What `read` returns: bytes — none at the end of the stream — or −1. -/
inductive ReadResult where
  | bytes (bs : List Byte)
  | error

/-- The variables of the loop, how many bytes have been read, and what has been
printed. -/
structure Reading where
  recvline : CharArray
  position : Nat
  printed : List Byte

/-- The beginning of the loop. -/
def Reading.start : Reading := ⟨.uninitialized (maxLine + 1), 0, []⟩

/-- One pass of the loop, in which `read` returns `r`.  When the loop ends, it says
whether `bytesread` is negative. -/
def readPass (st : Reading) (r : ReadResult) : Option (Prog.LoopStep Reading (Reading × Bool)) :=
  match r with
  | .error => some (.done (st, true))
  | .bytes bs => do
      if bs.length = 0 then return .done (st, false)
      let recvline ← st.recvline.receive bs
      let recvline ← recvline.store bs.length 0
      let printed ← recvline.stringAt 0
      let last ← recvline.load (bs.length - 1)
      let st : Reading := ⟨recvline, st.position + bs.length, st.printed ++ printed⟩
      return if last = ch '\n' then .done (st, false) else .again st

/-- The loop, when `read` returns these results one after the other. -/
def readLoop (st : Reading) : List ReadResult → Option (Reading × Bool)
  | [] => none
  | r :: rs => do
      match ← readPass st r with
      | .again st => readLoop st rs
      | .done out => return out

/-! ## What a pass does -/

/-- The variables after `bs` has been read. -/
def Reading.after (st : Reading) (bs : List Byte) : Reading :=
  ⟨st.recvline.terminated bs, st.position + bs.length, st.printed ++ bs.takeWhile (· ≠ 0)⟩

variable {st : Reading} {bs : List Byte} {cs : List (List Byte)}

/-- A read of one to `MAXLINE` bytes. -/
def Readable (bs : List Byte) : Prop := 1 ≤ bs.length ∧ bs.length ≤ maxLine

theorem Readable.ne_nil (h : Readable bs) : bs ≠ [] := List.length_pos_iff.mp h.1

/-- **A pass that reads bytes** ends the loop if the last of them is a newline. -/
theorem readPass_bytes (hst : st.recvline.length = maxLine + 1) (h : Readable bs) :
    readPass st (.bytes bs) =
      some (if bs.getLast? = some (ch '\n') then .done (st.after bs, false) else .again (st.after bs)) := by
  have hlen : bs.length < st.recvline.length := by
    rw [hst]
    exact Nat.lt_succ_of_le h.2
  have hlast : (st.recvline.terminated bs).load (bs.length - 1) = bs.getLast? := by
    rw [CharArray.load_terminated (Nat.sub_lt h.1 Nat.one_pos), List.getLast?_eq_getElem?,
      List.getElem?_eq_getElem]
  simp only [readPass, if_neg (Nat.ne_of_gt h.1), CharArray.receive_eq_some (Nat.le_of_lt hlen),
    Option.bind_eq_bind, Option.bind_some, CharArray.store_received hlen,
    CharArray.stringAt_terminated (Nat.zero_le _), List.drop_zero, hlast,
    List.getLast?_eq_some_getLast h.ne_nil, Option.pure_def, Option.some.injEq]
  rfl

/-- Only so much is read that there is room for the terminator. -/
theorem readable_of_readPass (hst : st.recvline.length = maxLine + 1) (hbs : bs ≠ [])
    {out : Prog.LoopStep Reading (Reading × Bool)} (h : readPass st (.bytes bs) = some out) : Readable bs := by
  have hlen : bs.length ≠ 0 := fun hnil => hbs (List.eq_nil_of_length_eq_zero hnil)
  simp only [readPass, if_neg hlen, Option.bind_eq_bind, Option.bind_eq_some_iff] at h
  obtain ⟨a, hreceive, b, hstore, -⟩ := h
  have hlt := CharArray.lt_of_store_received hreceive hstore
  rw [hst] at hlt
  exact ⟨Nat.pos_of_ne_zero hlen, Nat.le_of_lt_succ hlt⟩

theorem length_after (hst : st.recvline.length = maxLine + 1) (h : Readable bs) :
    (st.after bs).recvline.length = maxLine + 1 := by
  rw [← hst]
  refine CharArray.length_terminated ?_
  rw [hst]
  exact Nat.lt_succ_of_le h.2

/-- The array keeps its length from pass to pass. -/
theorem length_of_again {r : ReadResult} {st' : Reading} (hst : st.recvline.length = maxLine + 1)
    (h : readPass st r = some (.again st')) : st'.recvline.length = maxLine + 1 := by
  cases r with
  | error => cases h
  | bytes bs =>
    by_cases hbs : bs = []
    · subst hbs
      cases h
    · have hreadable := readable_of_readPass hst hbs h
      rw [readPass_bytes hst hreadable] at h
      split_ifs at h
      · cases h
      · cases h
        exact length_after hst hreadable

theorem length_start : Reading.start.recvline.length = maxLine + 1 := CharArray.length_uninitialized _

/-- The reads that the loop makes: the first one that ends with a newline is the
last. -/
def readsMade : List (List Byte) → List (List Byte)
  | [] => []
  | bs :: cs => if bs.getLast? = some (ch '\n') then [bs] else bs :: readsMade cs

/-- What is printed of the reads `cs`. -/
def shown (cs : List (List Byte)) : List Byte := (cs.map (·.takeWhile (· ≠ 0))).flatten

/-- **The loop** reads up to the first read that ends with a newline, and shows of
each read what stands in front of its first zero byte. -/
theorem readLoop_bytes (hst : st.recvline.length = maxLine + 1) (h : ∀ bs ∈ cs, Readable bs) :
    ∃ st', readLoop st (cs.map .bytes ++ [.bytes []]) = some (st', false) ∧
      st'.position = st.position + (readsMade cs).flatten.length ∧
      st'.printed = st.printed ++ shown (readsMade cs) := by
  induction cs generalizing st with
  | nil => exact ⟨st, rfl, rfl, (List.append_nil _).symm⟩
  | cons bs cs ih =>
    have hbs := h bs List.mem_cons_self
    have hpass := readPass_bytes hst hbs
    rw [List.map_cons, List.cons_append, readLoop, hpass, readsMade]
    by_cases hlast : bs.getLast? = some (ch '\n')
    · rw [if_pos hlast, if_pos hlast]
      exact ⟨st.after bs, rfl, by simp [Reading.after], by simp [Reading.after, shown]⟩
    · rw [if_neg hlast, if_neg hlast]
      obtain ⟨st', hrun, hposition, hprinted⟩ :=
        ih (length_after hst hbs) fun c hc => h c (List.mem_cons_of_mem _ hc)
      refine ⟨st', hrun, ?_, ?_⟩
      · rw [hposition, List.flatten_cons, List.length_append]
        simp only [Reading.after]
        omega
      · rw [hprinted]
        simp [Reading.after, shown]

/-! ## Streams -/

/-- The message at the beginning of a stream: up to and including the first newline,
or all of it. -/
def message : List Byte → List Byte
  | [] => []
  | c :: s => if c = ch '\n' then [c] else c :: message s

theorem message_prefix_self (s : List Byte) : message s <+: s := by
  induction s with
  | nil => exact List.prefix_rfl
  | cons c s ih =>
    rw [message]
    split_ifs
    · exact List.prefix_append [c] s
    · exact List.prefix_cons_inj c |>.mpr ih

theorem message_ne_nil {s : List Byte} (h : s ≠ []) : message s ≠ [] := by
  cases s with
  | nil => exact absurd rfl h
  | cons c s =>
    rw [message]
    split_ifs <;> nofun

/-- A newline ends the message. -/
theorem message_append_of_mem {s t : List Byte} (h : ch '\n' ∈ s) : message (s ++ t) = message s := by
  induction s with
  | nil => cases h
  | cons c s ih =>
    rw [List.cons_append, message, message]
    split_ifs with hc
    · rfl
    · rw [ih ((List.mem_cons.mp h).resolve_left fun he => hc he.symm)]

theorem message_append_of_notMem {s t : List Byte} (h : ch '\n' ∉ s) :
    message (s ++ t) = s ++ message t := by
  induction s with
  | nil => rfl
  | cons c s ih =>
    have hc : c ≠ ch '\n' := fun he => h (he ▸ List.mem_cons_self)
    rw [List.cons_append, message, if_neg hc, ih fun hmem => h (List.mem_cons_of_mem _ hmem)]
    rfl

theorem getLast?_message {s : List Byte} (h : ch '\n' ∈ s) : (message s).getLast? = some (ch '\n') := by
  induction s with
  | nil => cases h
  | cons c s ih =>
    rw [message]
    split_ifs with hc
    · rw [hc]
      rfl
    · have hs := ih ((List.mem_cons.mp h).resolve_left fun he => hc he.symm)
      rw [List.getLast?_cons, hs]
      rfl

/-- A way of cutting a stream into reads. -/
structure Cut (stream : List Byte) where
  reads : List (List Byte)
  flatten : reads.flatten = stream
  readable : ∀ bs ∈ reads, Readable bs

/-- One of the reads ends where the message ends. -/
def Cut.EndsMessage {stream : List Byte} (cut : Cut stream) : Prop :=
  ∃ front, front <+: cut.reads ∧ front.flatten = message stream

/-- The loop, when the client sends the stream in these reads and then nothing
more. -/
def Cut.run {stream : List Byte} (cut : Cut stream) : Option (Reading × Bool) :=
  readLoop .start (cut.reads.map .bytes ++ [.bytes []])

/-! ## Which cuts frame the message -/

theorem readsMade_prefix_self (cs : List (List Byte)) : readsMade cs <+: cs := by
  induction cs with
  | nil => exact List.prefix_rfl
  | cons bs cs ih =>
    rw [readsMade]
    split_ifs
    · exact List.prefix_append [bs] cs
    · exact List.prefix_cons_inj bs |>.mpr ih

/-- If a read ends where the message ends, the loop makes the reads up to there. -/
theorem flatten_readsMade {front : List (List Byte)} (hreadable : ∀ bs ∈ cs, Readable bs)
    (hfront : front <+: cs) (hmessage : front.flatten = message cs.flatten) :
    (readsMade cs).flatten = message cs.flatten := by
  induction cs generalizing front with
  | nil => rfl
  | cons bs cs ih =>
    have hbs := (hreadable bs List.mem_cons_self).ne_nil
    rw [List.flatten_cons] at hmessage ⊢
    cases front with
    | nil => exact absurd hmessage.symm (message_ne_nil (List.append_ne_nil_of_left_ne_nil hbs _))
    | cons bs' front =>
      obtain ⟨rfl, hfront'⟩ := List.cons_prefix_cons.mp hfront
      rw [List.flatten_cons] at hmessage
      rw [readsMade]
      by_cases hnewline : ch '\n' ∈ bs'
      · -- the message ends in this read, hence with it
        rw [message_append_of_mem hnewline] at hmessage ⊢
        have hall : message bs' = bs' := by
          refine (message_prefix_self bs').eq_of_length_le ?_
          rw [← hmessage, List.length_append]
          exact Nat.le_add_right _ _
        rw [if_pos (hall ▸ getLast?_message hnewline), hall]
        exact List.append_nil _
      · rw [message_append_of_notMem hnewline] at hmessage ⊢
        rw [if_neg fun hlast => hnewline (List.mem_of_getLast? hlast), List.flatten_cons,
          ih (fun c hc => hreadable c (List.mem_cons_of_mem _ hc)) hfront'
            (List.append_cancel_left hmessage)]

theorem length_shown_le (cs : List (List Byte)) : (shown cs).length ≤ cs.flatten.length := by
  induction cs with
  | nil => exact Nat.le_refl 0
  | cons bs cs ih =>
    rw [shown, List.map_cons, List.flatten_cons, List.flatten_cons, List.length_append, List.length_append]
    exact Nat.add_le_add (List.takeWhile_prefix _).length_le ih

/-- Everything is shown if and only if there is no zero byte. -/
theorem shown_eq_flatten_iff {cs : List (List Byte)} : shown cs = cs.flatten ↔ 0 ∉ cs.flatten := by
  induction cs with
  | nil => exact iff_of_true rfl List.not_mem_nil
  | cons bs cs ih =>
    rw [List.flatten_cons, List.mem_append, not_or, ← ih]
    show bs.takeWhile (· ≠ 0) ++ shown cs = bs ++ cs.flatten ↔ _
    constructor
    · intro h
      have hlength := congrArg List.length h
      rw [List.length_append, List.length_append] at hlength
      have hbs := (List.takeWhile_prefix (p := fun c : Byte => decide (c ≠ 0)) (l := bs)).length_le
      have hcs := length_shown_le cs
      obtain ⟨htake, hrest⟩ := List.append_inj h (by omega)
      refine ⟨fun h0 => ?_, hrest⟩
      have := List.takeWhile_eq_self_iff.mp htake 0 h0
      simp at this
    · intro h
      obtain ⟨h0, hrest⟩ := h
      have htake : bs.takeWhile (· ≠ 0) = bs :=
        List.takeWhile_eq_self_iff.mpr fun c hc => decide_eq_true fun he : c = 0 => h0 (he ▸ hc)
      rw [htake, hrest]

section Framing
variable {stream : List Byte}

/-- The loop frames the message: it stops behind it and has printed it. -/
def FramesMessage (cut : Cut stream) : Prop :=
  ∃ st, cut.run = some (st, false) ∧ st.position = (message stream).length ∧ st.printed = message stream

/-- **One cut.** -/
theorem framesMessage_iff (cut : Cut stream) :
    FramesMessage cut ↔ 0 ∉ message stream ∧ cut.EndsMessage := by
  obtain ⟨st, hrun, hposition, hprinted⟩ := readLoop_bytes length_start cut.readable
  have hstate : FramesMessage cut ↔
      (readsMade cut.reads).flatten.length = (message stream).length ∧
        shown (readsMade cut.reads) = message stream := by
    have hst : st.position = (readsMade cut.reads).flatten.length ∧
        st.printed = shown (readsMade cut.reads) := ⟨hposition.trans (Nat.zero_add _), hprinted⟩
    rw [← hst.1, ← hst.2]
    constructor
    · intro h
      obtain ⟨st', hrun', h⟩ := h
      cases hrun.symm.trans hrun'
      exact h
    · intro h
      exact ⟨st, hrun, h⟩
  rw [hstate]
  have hprefix := (readsMade_prefix_self cut.reads).flatten
  rw [cut.flatten] at hprefix
  constructor
  · intro h
    obtain ⟨hlength, hshown⟩ := h
    have hmade : (readsMade cut.reads).flatten = message stream :=
      (List.prefix_of_prefix_length_le hprefix (message_prefix_self stream) (Nat.le_of_eq hlength)).eq_of_length
        hlength
    refine ⟨?_, readsMade cut.reads, readsMade_prefix_self _, hmade⟩
    rw [← hmade, ← shown_eq_flatten_iff, hshown, hmade]
  · intro h
    obtain ⟨h0, front, hfront, hmessage⟩ := h
    have hmade : (readsMade cut.reads).flatten = message stream := by
      have := flatten_readsMade cut.readable hfront (by rw [cut.flatten, hmessage])
      rwa [cut.flatten] at this
    rw [← hmade] at h0 ⊢
    exact ⟨rfl, shown_eq_flatten_iff.mpr h0⟩

/-- **The property of two cuts**: for both the loop stops at the same position of the
stream, behind the message, and the message is what it has printed. -/
def SameFraming (cut cut' : Cut stream) : Prop :=
  ∃ st st', cut.run = some (st, false) ∧ cut'.run = some (st', false) ∧ st.position = st'.position ∧
    st.printed = st'.printed ∧ st.position = (message stream).length ∧ st.printed = message stream

theorem sameFraming_iff_framesMessage {cut cut' : Cut stream} :
    SameFraming cut cut' ↔ FramesMessage cut ∧ FramesMessage cut' := by
  constructor
  · intro h
    obtain ⟨st, st', hrun, hrun', hposition, hprinted, hlength, hmessage⟩ := h
    exact ⟨⟨st, hrun, hlength, hmessage⟩, st', hrun', hposition ▸ hlength, hprinted ▸ hmessage⟩
  · intro h
    obtain ⟨⟨st, hrun, hlength, hmessage⟩, st', hrun', hlength', hmessage'⟩ := h
    exact ⟨st, st', hrun, hrun', hlength.trans hlength'.symm, hmessage.trans hmessage'.symm, hlength,
      hmessage⟩

/-- **The framing does not depend on the cuts if and only if** the message contains no
zero byte and in both cuts a read ends where the message ends. -/
theorem sameFraming_iff (cut cut' : Cut stream) :
    SameFraming cut cut' ↔ 0 ∉ message stream ∧ cut.EndsMessage ∧ cut'.EndsMessage := by
  rw [sameFraming_iff_framesMessage, framesMessage_iff, framesMessage_iff]
  constructor
  · intro h
    obtain ⟨⟨h0, hends⟩, -, hends'⟩ := h
    exact ⟨h0, hends, hends'⟩
  · intro h
    obtain ⟨h0, hends, hends'⟩ := h
    exact ⟨⟨h0, hends⟩, h0, hends'⟩

/-! ## The streams that any cut frames -/

/-- Byte by byte. -/
def singles (s : List Byte) : List (List Byte) := s.map ([·])

@[simp] theorem flatten_singles (s : List Byte) : (singles s).flatten = s := by
  induction s with
  | nil => rfl
  | cons c s ih => exact congrArg (c :: ·) ih

theorem readable_of_mem_singles {s : List Byte} : ∀ bs ∈ singles s, Readable bs := by
  intro bs hbs
  obtain ⟨c, -, rfl⟩ := List.mem_map.mp hbs
  exact ⟨Nat.le_refl 1, show 1 ≤ maxLine by decide⟩

/-- A stream can be cut into reads of one byte. -/
def Cut.single (stream : List Byte) : Cut stream :=
  ⟨singles stream, flatten_singles stream, readable_of_mem_singles⟩

/-- Reads of one byte, but for one of two bytes. -/
def Cut.pairing (front back : List Byte) (c d : Byte) : Cut (front ++ c :: d :: back) where
  reads := singles front ++ [c, d] :: singles back
  flatten := by simp
  readable bs hbs := by
    rcases List.mem_append.mp hbs with hbs | hbs
    · exact readable_of_mem_singles bs hbs
    · rcases List.mem_cons.mp hbs with rfl | hbs
      · exact ⟨show 1 ≤ 2 by decide, show 2 ≤ maxLine by decide⟩
      · exact readable_of_mem_singles bs hbs

/-- No read ends between the two bytes. -/
theorem not_endsMessage_pairing {front back : List Byte} {c d : Byte}
    (h : message (front ++ c :: d :: back) = front ++ [c]) : ¬ (Cut.pairing front back c d).EndsMessage := by
  intro hends
  obtain ⟨reads, hreads, hmessage⟩ := hends
  have hlength : reads.flatten.length = front.length + 1 := by rw [hmessage, h, List.length_append]; rfl
  have hsingles : (singles front).length = front.length := List.length_map _
  -- the reads up to the long one have too few bytes, and with it too many
  rcases Nat.lt_or_ge front.length reads.length with hlt | hle
  · have hlong : singles front ++ [[c, d]] <+: reads := by
      refine List.prefix_of_prefix_length_le ⟨singles back, ?_⟩ hreads ?_
      · rw [List.append_assoc]
        rfl
      · rwa [List.length_append, hsingles]
    have hle := hlong.flatten.length_le
    rw [List.flatten_append, flatten_singles, List.length_append, hlength] at hle
    exact absurd hle (Nat.not_le.mpr (Nat.lt_succ_self _))
  · have hshort : reads <+: singles front :=
      List.prefix_of_prefix_length_le hreads (List.prefix_append _ _) (by rwa [hsingles])
    have hle := hshort.flatten.length_le
    rw [flatten_singles, hlength] at hle
    exact absurd hle (Nat.not_le.mpr (Nat.lt_succ_self _))

/-- What is longer than its message can be cut so that no read ends with the message. -/
theorem exists_cut_not_endsMessage (h : message stream ≠ stream) : ∃ cut : Cut stream, ¬ cut.EndsMessage := by
  obtain ⟨rest, hrest⟩ := message_prefix_self stream
  cases rest with
  | nil => exact absurd ((List.append_nil _).symm.trans hrest) h
  | cons d back =>
    have hne : message stream ≠ [] := by
      refine message_ne_nil ?_
      rw [← hrest]
      exact List.append_ne_nil_of_right_ne_nil _ (List.cons_ne_nil _ _)
    obtain ⟨front, c, hm⟩ := (List.eq_nil_or_concat' (message stream)).resolve_left hne
    rw [hm, List.append_assoc, List.singleton_append] at hrest
    subst hrest
    exact ⟨_, not_endsMessage_pairing hm⟩

/-- **The streams whose framing never depends on the cuts**: those that are a single
message without a zero byte. -/
theorem sameFraming_all_iff :
    (∀ cut cut' : Cut stream, SameFraming cut cut') ↔ 0 ∉ message stream ∧ message stream = stream := by
  constructor
  · intro h
    have hall (cut : Cut stream) :=
      (framesMessage_iff cut).mp (sameFraming_iff_framesMessage.mp (h cut cut)).1
    by_cases hmessage : message stream = stream
    · exact ⟨(hall (.single stream)).1, hmessage⟩
    · obtain ⟨cut, hcut⟩ := exists_cut_not_endsMessage hmessage
      exact absurd (hall cut).2 hcut
  · intro h
    obtain ⟨h0, hmessage⟩ := h
    have hframes (cut : Cut stream) : FramesMessage cut :=
      (framesMessage_iff cut).mpr ⟨h0, cut.reads, List.prefix_rfl, by rw [cut.flatten, hmessage]⟩
    exact fun cut cut' => sameFraming_iff_framesMessage.mpr ⟨hframes cut, hframes cut'⟩

end Framing

/-! ## A newline inside a read -/

/-- `"a\nb"`, in two reads and in one. -/
def inTwo : Cut [97, 10, 98] := ⟨[[97, 10], [98]], rfl, by simp [Readable, maxLine]⟩
def inOne : Cut [97, 10, 98] := ⟨[[97, 10, 98]], rfl, by simp [Readable, maxLine]⟩

/-- **A newline inside a read is missed**: in the one case the loop stops behind it,
in the other it reads and prints on to the end of the stream. -/
theorem framing_depends_on_cut : ∃ st st', inTwo.run = some (st, false) ∧ inOne.run = some (st', false) ∧
    st.position = 2 ∧ st.printed = [97, 10] ∧ st'.position = 3 ∧ st'.printed = [97, 10, 98] ∧
    ¬ SameFraming inTwo inOne := by
  obtain ⟨st, hrun, hposition, hprinted⟩ := readLoop_bytes length_start inTwo.readable
  obtain ⟨st', hrun', hposition', hprinted'⟩ := readLoop_bytes length_start inOne.readable
  refine ⟨st, st', hrun, hrun', hposition, hprinted, hposition', hprinted', ?_⟩
  intro h
  obtain ⟨st₁, st₁', hrun₁, hrun₁', heq, -⟩ := h
  cases hrun.symm.trans hrun₁
  cases hrun'.symm.trans hrun₁'
  rw [hposition, hposition'] at heq
  exact absurd heq (by decide)

end MessageFraming
end SystemsCourse
