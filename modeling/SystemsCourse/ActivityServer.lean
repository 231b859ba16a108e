import SystemsCourse.CharArray

/-!
# `activityserver.c`: the fields of a datagram

A report of an activity is a datagram of 51 bytes: two texts of 25 bytes and a number.
The server receives every datagram into the same array, stores a zero behind it and
prints the two texts as C strings, from where each of them begins; the response that
it sends then is left out.

What is printed of a report depends on this report alone (`outputAfter_eq`): the
terminator keeps what earlier datagrams have left in the array out of it.  But there
is only the one terminator, behind the whole datagram.  A text that does not contain
a zero itself runs into what stands behind it (`confined_iff`).
-/
namespace SystemsCourse
namespace ActivityServer

/-! ## The code -/

/-- `MAXLINE`. -/
def maxLine : Nat := 4096

/-- What `recvfrom` returns: a datagram, or −1. -/
inductive RecvResult where
  | datagram (bs : List Byte)
  | error

/-- The variables that outlive a pass of the loop. -/
structure Server where
  recvline : CharArray
  recvCount : Nat

/-- What is printed. -/
inductive Output where
  | wrongLength
  | report (recvCount : Nat) (first second : List Byte) (last : Byte)

/-- The server before its loop. -/
def Server.start : Server := ⟨.uninitialized (maxLine + 1), 0⟩

/-- One pass of the loop, in which `recvfrom` returns `r`.  The zero is stored before
`recv_bytes` is checked: after an error, in front of the array. -/
def receivePass (s : Server) : RecvResult → Option (Server × Output)
  | .error => none
  | .datagram bs => do
      let recvline ← s.recvline.receive bs
      let recvCount := s.recvCount + 1
      let recvline ← recvline.store bs.length 0
      let s : Server := ⟨recvline, recvCount⟩
      if bs.length ≠ 51 then return (s, .wrongLength)
      return (s, .report recvCount (← recvline.stringAt 0) (← recvline.stringAt 25) (← recvline.load 50))

/-! ## Datagrams -/

/-- A datagram that fits into a `recvfrom`. -/
structure Datagram where
  bytes : List Byte
  length_le : bytes.length ≤ maxLine

/-- A report. -/
structure Report where
  bytes : List Byte
  length_eq : bytes.length = 51

namespace Report
variable (d : Report)

def datagram : Datagram := ⟨d.bytes, by rw [d.length_eq]; decide⟩

/-- Bytes 0 to 24. -/
def firstField : List Byte := d.bytes.take 25

/-- Bytes 25 to 49. -/
def secondField : List Byte := (d.bytes.drop 25).take 25

theorem length_firstField : d.firstField.length = 25 := by
  rw [firstField, List.length_take, d.length_eq]
  rfl

theorem length_secondField : d.secondField.length = 25 := by
  rw [secondField, List.length_take, List.length_drop, d.length_eq]
  rfl

/-- The report with other bytes behind the first field. -/
def replaceRest (rest : List Byte) (h : rest.length = 26) : Report :=
  ⟨d.firstField ++ rest, by rw [List.length_append, d.length_firstField, h]⟩

/-- The report with another number. -/
def replaceLast (c : Byte) : Report :=
  ⟨d.firstField ++ (d.secondField ++ [c]), by
    rw [List.length_append, List.length_append, d.length_firstField, d.length_secondField]
    rfl⟩

theorem firstField_replaceRest {rest : List Byte} (h : rest.length = 26) :
    (d.replaceRest rest h).firstField = d.firstField := List.take_left' d.length_firstField

theorem secondField_replaceLast (c : Byte) : (d.replaceLast c).secondField = d.secondField := by
  rw [secondField, replaceLast, List.drop_left' d.length_firstField]
  exact List.take_left' d.length_secondField

end Report

/-- What is printed of the report `d`, when it is received after the datagrams
`history`. -/
def outputAfter (history : List Datagram) (d : Report) : Option Output := do
  let s ← history.foldlM (fun s d => (receivePass s (.datagram d.bytes)).map (·.1)) Server.start
  (receivePass s (.datagram d.bytes)).map (·.2)

/-- The texts of an output. -/
def Output.texts : Output → Option (List Byte × List Byte)
  | .wrongLength => none
  | .report _ first second _ => some (first, second)

/-- The first and the second text that are printed. -/
def firstText (history : List Datagram) (d : Report) : Option (List Byte) :=
  (outputAfter history d).bind fun out => out.texts.map (·.1)

def secondText (history : List Datagram) (d : Report) : Option (List Byte) :=
  (outputAfter history d).bind fun out => out.texts.map (·.2)

/-! ## What is printed -/

/-- What is printed of the bytes `bs`, as datagram number `n`. -/
def outputOf (n : Nat) (bs : List Byte) : Output :=
  if bs.length ≠ 51 then .wrongLength
  else .report n (bs.takeWhile (· ≠ 0)) ((bs.drop 25).takeWhile (· ≠ 0)) (bs.getD 50 0)

/-- **A pass** leaves the datagram in the array, and prints of it alone. -/
theorem receivePass_datagram {s : Server} (hs : s.recvline.length = maxLine + 1) (d : Datagram) :
    receivePass s (.datagram d.bytes) =
      some (⟨s.recvline.terminated d.bytes, s.recvCount + 1⟩, outputOf (s.recvCount + 1) d.bytes) := by
  have hlt : d.bytes.length < s.recvline.length := by
    rw [hs]
    exact Nat.lt_succ_of_le d.length_le
  simp only [receivePass, CharArray.receive_eq_some (Nat.le_of_lt hlt), Option.bind_eq_bind,
    Option.bind_some, CharArray.store_received hlt, outputOf]
  by_cases hlen : d.bytes.length = 51
  · have h50 : 50 < d.bytes.length := by omega
    rw [if_neg (not_not_intro hlen), if_neg (not_not_intro hlen),
      CharArray.stringAt_terminated (Nat.zero_le _),
      CharArray.stringAt_terminated (show 25 ≤ d.bytes.length by omega), CharArray.load_terminated h50,
      List.getD_eq_getElem?_getD, List.getElem?_eq_getElem h50]
    rfl
  · rw [if_pos hlen, if_pos hlen]
    rfl

/-- The datagrams received so far do not matter, but for their number. -/
theorem exists_foldlM_receivePass (history : List Datagram) {s : Server}
    (hs : s.recvline.length = maxLine + 1) :
    ∃ s', history.foldlM (fun s d => (receivePass s (.datagram d.bytes)).map (·.1)) s = some s' ∧
      s'.recvline.length = maxLine + 1 ∧ s'.recvCount = s.recvCount + history.length := by
  induction history generalizing s with
  | nil => exact ⟨s, rfl, hs, rfl⟩
  | cons d history ih =>
    have hlt : d.bytes.length < s.recvline.length := by
      rw [hs]
      exact Nat.lt_succ_of_le d.length_le
    obtain ⟨s', hrun, hlen, hcount⟩ := ih (s := ⟨s.recvline.terminated d.bytes, s.recvCount + 1⟩)
      ((CharArray.length_terminated hlt).trans hs)
    refine ⟨s', ?_, hlen, ?_⟩
    · rw [List.foldlM_cons, receivePass_datagram hs]
      exact hrun
    · rw [hcount, List.length_cons]
      show s.recvCount + 1 + history.length = _
      omega

/-- **What is printed of a report** depends on the report and on the number of
datagrams before it. -/
theorem outputAfter_eq (history : List Datagram) (d : Report) :
    outputAfter history d = some (.report (history.length + 1) (d.bytes.takeWhile (· ≠ 0))
      ((d.bytes.drop 25).takeWhile (· ≠ 0)) (d.bytes.getD 50 0)) := by
  obtain ⟨s, hrun, hlen, hcount⟩ :=
    exists_foldlM_receivePass history (s := .start) (CharArray.length_uninitialized _)
  have hpass := receivePass_datagram hlen d.datagram
  change receivePass s (.datagram d.bytes) = some (_, outputOf _ d.bytes) at hpass
  rw [outputAfter, hrun, Option.bind_eq_bind, Option.bind_some, hpass, Option.map_some, outputOf,
    if_neg (not_not_intro d.length_eq), hcount]
  simp [Server.start]

theorem firstText_eq (history : List Datagram) (d : Report) :
    firstText history d = some (d.bytes.takeWhile (· ≠ 0)) := by
  rw [firstText, outputAfter_eq]
  rfl

theorem secondText_eq (history : List Datagram) (d : Report) :
    secondText history d = some ((d.bytes.drop 25).takeWhile (· ≠ 0)) := by
  rw [secondText, outputAfter_eq]
  rfl

/-! ## Where a text ends -/

/-- A zero in the field ends the text. -/
theorem takeWhile_append_of_mem {field rest : List Byte} (h : 0 ∈ field) :
    (field ++ rest).takeWhile (· ≠ 0) = field.takeWhile (· ≠ 0) := by
  induction field with
  | nil => cases h
  | cons c field ih =>
    by_cases hc : c = 0
    · simp [hc]
    · have hfield : 0 ∈ field := (List.mem_cons.mp h).resolve_left fun he => hc he.symm
      simp only [List.cons_append, List.takeWhile_cons, ih hfield]

/-- Without a zero, the text goes on behind the field. -/
theorem takeWhile_append_of_notMem {field rest : List Byte} (h : 0 ∉ field) :
    (field ++ rest).takeWhile (· ≠ 0) = field ++ rest.takeWhile (· ≠ 0) :=
  List.takeWhile_append_of_pos fun _ hc => decide_eq_true fun he => h (he ▸ hc)

/-- **The property of a report**: whatever else is received, now or before, each text
is the one that its field determines, and a part of this field. -/
structure Confined (history : List Datagram) (d : Report) : Prop where
  first : ∀ history' d', d'.firstField = d.firstField → firstText history' d' = firstText history d
  second : ∀ history' d', d'.secondField = d.secondField → secondText history' d' = secondText history d
  firstPart : ∃ text, firstText history d = some text ∧ text <+: d.firstField
  secondPart : ∃ text, secondText history d = some text ∧ text <+: d.secondField

section Confinement
variable (history : List Datagram) (d : Report)

theorem bytes_eq_firstField : d.bytes = d.firstField ++ d.bytes.drop 25 :=
  (List.take_append_drop 25 d.bytes).symm

theorem drop_eq_secondField : d.bytes.drop 25 = d.secondField ++ d.bytes.drop 50 := by
  have := (List.take_append_drop 25 (d.bytes.drop 25)).symm
  rwa [List.drop_drop] at this

/-- A first field with a zero. -/
theorem firstText_of_mem (h : 0 ∈ d.firstField) :
    firstText history d = some (d.firstField.takeWhile (· ≠ 0)) := by
  rw [firstText_eq, bytes_eq_firstField, takeWhile_append_of_mem h]

theorem secondText_of_mem (h : 0 ∈ d.secondField) :
    secondText history d = some (d.secondField.takeWhile (· ≠ 0)) := by
  rw [secondText_eq, drop_eq_secondField, takeWhile_append_of_mem h]

/-- A first field without a zero: the text depends on what stands behind it. -/
theorem mem_firstField
    (h : ∀ history' d', d'.firstField = d.firstField → firstText history' d' = firstText history d) :
    0 ∈ d.firstField := by
  by_contra h0
  have htext (rest : List Byte) (hlen : rest.length = 26) :
      firstText history d = some (d.firstField ++ rest.takeWhile (· ≠ 0)) := by
    rw [← h [] (d.replaceRest rest hlen) (d.firstField_replaceRest hlen), firstText_eq]
    exact congrArg some (takeWhile_append_of_notMem h0)
  have hzeros := htext (List.replicate 26 0) List.length_replicate
  rw [htext (List.replicate 26 1) List.length_replicate] at hzeros
  exact absurd (List.append_cancel_left (Option.some.inj hzeros)) (by decide)

theorem mem_secondField
    (h : ∀ history' d', d'.secondField = d.secondField → secondText history' d' = secondText history d) :
    0 ∈ d.secondField := by
  by_contra h0
  have htext (c : Byte) : secondText history d = some (d.secondField ++ [c].takeWhile (· ≠ 0)) := by
    rw [← h [] (d.replaceLast c) (d.secondField_replaceLast c), secondText_eq, Report.replaceLast,
      List.drop_left' d.length_firstField]
    exact congrArg some (takeWhile_append_of_notMem h0)
  have hzero := htext 0
  rw [htext 1] at hzero
  exact absurd (List.append_cancel_left (Option.some.inj hzero)) (by decide)

/-- **The fields are kept apart if and only if** each of them contains a zero. -/
theorem confined_iff : Confined history d ↔ 0 ∈ d.firstField ∧ 0 ∈ d.secondField := by
  constructor
  · intro h
    exact ⟨mem_firstField history d h.first, mem_secondField history d h.second⟩
  · intro h
    obtain ⟨hfirst, hsecond⟩ := h
    refine ⟨fun history' d' he => ?_, fun history' d' he => ?_, ?_, ?_⟩
    · rw [firstText_of_mem history d hfirst, firstText_of_mem history' d' (he ▸ hfirst), he]
    · rw [secondText_of_mem history d hsecond, secondText_of_mem history' d' (he ▸ hsecond), he]
    · exact ⟨_, firstText_of_mem history d hfirst, List.takeWhile_prefix _⟩
    · exact ⟨_, secondText_of_mem history d hsecond, List.takeWhile_prefix _⟩

end Confinement

/-- A report of letters. -/
def letters : Report := ⟨List.replicate 51 65, rfl⟩

/-- **The other field shows in the text**: of a report without a zero, the first text is
the whole datagram, and the second one has the number at its end. -/
theorem not_confined_letters : firstText [] letters = some (List.replicate 51 65) ∧
    secondText [] letters = some (List.replicate 26 65) ∧ ¬ Confined [] letters := by
  refine ⟨firstText_eq [] letters, secondText_eq [] letters, ?_⟩
  intro h
  exact absurd (mem_firstField [] letters h.first) (by decide)

end ActivityServer
end SystemsCourse
