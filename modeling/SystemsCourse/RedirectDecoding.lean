import SystemsCourse.TargetWriter

/-!
# What `redirect_set` accepts

`tcp:host:port` or `tcp:[host]:port`, with a port that `strtol` reads to its end, and
everything that does not begin with `tcp:`.  Here the acceptance is stated on the
text (`Endpoint`), and for the code: what is accepted is stored as it is written, and
what is rejected leaves the redirection empty.
-/
namespace SystemsCourse
open Prog

/-! ## Ports -/

/-- `strtol` consumes the text to its end, without a range error, and the value is one
that a port can have. -/
structure ValidPort (q : CString) (v : Int) : Prop where
  consumed : strtol q.bytes = ⟨v, [], false⟩
  lower : 1 ≤ v
  upper : v ≤ 65535

theorem portValue_eq_some_iff_validPort {q : CString} {port : UInt16} :
    portValue q = some port ↔ ValidPort q port.toNat := by
  have hlt := port.toNat_lt
  rw [portValue_eq_some_iff]
  constructor
  · intro h
    obtain ⟨_, hlow, hread⟩ := h
    exact ⟨hread, by omega, by omega⟩
  · intro h
    refine ⟨fun hempty => ?_, by have := h.lower; omega, h.consumed⟩
    -- the value of the empty text is zero
    have hread := h.consumed
    rw [hempty] at hread
    have hzero : (0 : Int) = port.toNat := congrArg StrtolResult.value hread
    have := h.lower
    omega

theorem signOf_eq_false {s t : List Byte} (h : signOf s = (false, t)) : s = t ∨ s = ch '+' :: t := by
  unfold signOf at h
  split at h
  · split_ifs at h with hminus hplus <;> cases h
    · exact Or.inr (by rw [hplus])
    · exact Or.inl rfl
  · cases h
    exact Or.inl rfl

/-- Without a range error, the value is that of the digits. -/
theorem value_of_no_erange {x v : Int} {rest : List Byte}
    (h : (if x > longMax then StrtolResult.mk longMax rest true
      else if x < longMin then ⟨longMin, rest, true⟩ else ⟨x, rest, false⟩) = ⟨v, [], false⟩) :
    x = v ∧ rest = [] := by
  split_ifs at h <;> cases h
  exact ⟨rfl, rfl⟩

/-- **The texts of valid ports**: white space, an optional plus sign, and digits — any
number of them — of a value from 1 to 65535. -/
theorem validPort_iff {q : CString} {v : Int} : ValidPort q v ↔ 1 ≤ v ∧ v ≤ 65535 ∧
    ∃ spaces sign ds, q.bytes = spaces ++ sign ++ ds ∧ (∀ c ∈ spaces, isspace c) ∧
      (sign = [] ∨ sign = [ch '+']) ∧ ds ≠ [] ∧ (∀ d ∈ ds, isdigit d) ∧ (decimalValue ds : Int) = v := by
  constructor
  · intro h
    obtain ⟨hread, hlow, hhigh⟩ := h
    refine ⟨hlow, hhigh, ?_⟩
    unfold strtol at hread
    cases hsign : signOf (q.bytes.dropWhile isspace) with
    | mk negative t =>
      rw [hsign] at hread
      dsimp only at hread
      by_cases hdigits : t.takeWhile isdigit = []
      · rw [if_pos hdigits] at hread
        have : (0 : Int) = v := congrArg StrtolResult.value hread
        omega
      rw [if_neg hdigits] at hread
      obtain ⟨hvalue, hrest⟩ := value_of_no_erange hread
      have hds : ∀ d ∈ t, isdigit d := List.dropWhile_eq_nil_iff.mp hrest
      rw [List.takeWhile_eq_self_iff.mpr hds] at hdigits hvalue
      cases negative with
      | true =>
        -- a number with a minus sign is not positive
        rw [if_pos rfl] at hvalue
        omega
      | false =>
        rw [if_neg (by nofun)] at hvalue
        have hspaces : ∀ c ∈ q.bytes.takeWhile isspace, isspace c := fun c hc => List.mem_takeWhile_imp hc
        have hq := List.takeWhile_append_dropWhile (p := isspace) (l := q.bytes)
        rcases signOf_eq_false hsign with ht | ht
        · exact ⟨_, [], t, by rw [List.append_nil, ← ht, hq], hspaces, Or.inl rfl, hdigits, hds, hvalue⟩
        · exact ⟨_, [ch '+'], t, by rw [List.append_assoc, List.singleton_append, ← ht, hq], hspaces,
            Or.inr rfl, hdigits, hds, hvalue⟩
  · intro h
    obtain ⟨hlow, hhigh, spaces, sign, ds, hq, hspaces, hsign, hne, hds, hvalue⟩ := h
    refine ⟨?_, hlow, hhigh⟩
    rw [hq, ← hvalue]
    refine strtol_digits hspaces hsign hne hds ?_
    rw [hvalue]
    exact Int.le_trans hhigh (by decide)

/-! ## Endpoints -/

/-- The text `a` behind `tcp:` names the host `h` and a port of value `v`. -/
def Endpoint (a h : CString) (v : Int) : Prop :=
  h.bytes ≠ [] ∧ ∃ q, ValidPort q v ∧
    if a.bytes.head? = some (ch '[') then
      a.bytes = ch '[' :: (h.bytes ++ ch ']' :: ch ':' :: q.bytes) ∧ ch ']' ∉ h.bytes
    else a.bytes = h.bytes ++ ch ':' :: q.bytes ∧ ch ':' ∉ h.bytes ∧ ch ':' ∉ q.bytes

theorem splits_iff {a h q : CString} : Splits a h q ↔
    if a.bytes.head? = some (ch '[') then
      a.bytes = ch '[' :: (h.bytes ++ ch ']' :: ch ':' :: q.bytes) ∧ ch ']' ∉ h.bytes
    else a.bytes = h.bytes ++ ch ':' :: q.bytes ∧ ch ':' ∉ h.bytes ∧ ch ':' ∉ q.bytes := by
  constructor
  · intro hsplit
    cases hsplit with
    | bracket shape host =>
      rw [if_pos (by rw [shape]; rfl)]
      exact ⟨shape, host⟩
    | plain start shape host port =>
      rw [if_neg start]
      exact ⟨shape, host, port⟩
  · intro hsplit
    split at hsplit
    · exact .bracket hsplit.1 hsplit.2
    · rename_i start
      exact .plain start hsplit.1 hsplit.2.1 hsplit.2.2

/-- **An endpoint is decoded exactly if** its text names a host and a valid port. -/
theorem decodeTarget_eq_tcp_iff_endpoint {s a h : CString} {port : UInt16}
    (hs : s.bytes = tcpPrefix ++ a.bytes) :
    decodeTarget s = .ok (.tcp h port) ↔ Endpoint a h port.toNat := by
  have hdrop : s.drop 4 = a := CString.ext (by rw [CString.bytes_drop, hs]; rfl)
  have hempty : h ≠ CString.empty ↔ h.bytes ≠ [] := not_congr CString.ext_iff
  rw [decodeTarget_eq_tcp_iff, hdrop, hempty]
  simp only [splits_iff, portValue_eq_some_iff_validPort]
  constructor
  · intro hdecode
    obtain ⟨-, hne, q, hsplit, hport⟩ := hdecode
    exact ⟨hne, q, hport, hsplit⟩
  · intro hendpoint
    obtain ⟨hne, q, hport, hsplit⟩ := hendpoint
    exact ⟨hs ▸ List.prefix_append _ _, hne, q, hsplit, hport⟩

/-- The value of an endpoint's port is that of a port. -/
theorem Endpoint.exists_port {a h : CString} {v : Int} (hend : Endpoint a h v) :
    ∃ port : UInt16, (port.toNat : Int) = v := by
  obtain ⟨-, q, hport, -⟩ := hend
  exact ⟨UInt16.ofInt v, toNat_ofInt (Int.le_trans (by decide) hport.lower) hport.upper⟩

/-- Behind `tcp:`, a target that is decoded is an endpoint. -/
theorem exists_endpoint_of_decodeTarget {s a : CString} {target : Target}
    (hs : s.bytes = tcpPrefix ++ a.bytes) (h : decodeTarget s = .ok target) :
    ∃ host v, Endpoint a host v := by
  cases target with
  | none => exact absurd h decodeTarget_ne_none
  | file path => exact absurd (hs ▸ List.prefix_append _ _) (decodeTarget_eq_file_iff.mp h).1
  | tcp host port => exact ⟨host, _, (decodeTarget_eq_tcp_iff_endpoint hs).mp h⟩

/-! ## The code -/

section Code
variable {target : Ptr Byte} {s : CString}

/-- With allocations succeeding, an empty redirection receives what its target
decodes to, or stays empty. -/
theorem redirectSet_zero (hs : target.string = some s) (e : Option ParseError) (pos : Nat) (m : Memory) :
    ∃ status r e' m', redirectSet Redirect.zero target e pos .generous m = some ((status, r, e'), m') ∧
      ((status = .parseSuccess ∧ ∃ d, decodeTarget s = .ok d ∧ r.Holds d) ∨
        (status = .parseFailed ∧ r = Redirect.zero ∧ ∃ msg, decodeTarget s = .error msg)) := by
  have hspec := redirectSet_spec (σ := .generous) (m := m) (F := m.ledger.live)
    (show Redirect.zero.Holds .none from rfl) hs e pos (zero_add _).symm
  obtain ⟨⟨status, r, e'⟩, m', hrun, -, hpost⟩ := wp_iff.mp hspec
  refine ⟨status, r, e', m', hrun, ?_⟩
  rcases hpost with ⟨hstatus, -, d, hd, hholds⟩ | ⟨hstatus, hr, hmsg⟩
  · exact Or.inl ⟨hstatus, d, hd, hholds⟩
  · obtain ⟨msg, herror, -⟩ := hmsg.resolve_left Script.not_refuses_generous
    exact Or.inr ⟨hstatus, hr, msg, herror⟩

/-- A redirection that is already a file or an endpoint is left alone. -/
theorem redirectSet_of_type_ne {r : Redirect} (h : r.type ≠ .redirectNone) (e : Option ParseError)
    (pos : Nat) (σ : Script) (m : Memory) : redirectSet r target e pos σ m =
      some ((.parseFailed, r, parseerrorSetError e pos "duplicate redirection"), m) := by
  rw [redirectSet, if_pos h]
  rfl

/-- **`redirect_set` decodes exactly the targets that it should.**  What does not begin
with `tcp:` is the path of a file; behind `tcp:` a host and a valid port are stored
as they are written, and everything else is rejected.  A rejected target leaves the
empty redirection empty, and a redirection that is not empty is never changed. -/
theorem redirectSet_decodes (hs : target.string = some s) (e : Option ParseError) (pos : Nat)
    (m : Memory) :
    (∃ status r e' m', redirectSet Redirect.zero target e pos .generous m = some ((status, r, e'), m') ∧
      (¬ tcpPrefix <+: s.bytes → status = .parseSuccess ∧ r.Holds (.file s)) ∧
      (∀ a : CString, s.bytes = tcpPrefix ++ a.bytes →
        (status = .parseSuccess ↔ ∃ host v, Endpoint a host v) ∧
        ∀ host v, Endpoint a host v →
          ∃ port : UInt16, (port.toNat : Int) = v ∧ r.Holds (.tcp host port)) ∧
      (status = .parseFailed → r = Redirect.zero)) ∧
    ∀ (r : Redirect) (σ : Script), r.type ≠ .redirectNone →
      redirectSet r target e pos σ m =
        some ((.parseFailed, r, parseerrorSetError e pos "duplicate redirection"), m) := by
  refine ⟨?_, fun r σ h => redirectSet_of_type_ne h e pos σ m⟩
  obtain ⟨status, r, e', m', hrun, hpost⟩ := redirectSet_zero hs e pos m
  -- a target that is decoded has been stored
  have hstored {d : Target} (hd : decodeTarget s = .ok d) : status = .parseSuccess ∧ r.Holds d := by
    rcases hpost with ⟨hstatus, d', hd', hholds⟩ | ⟨-, -, msg, herror⟩
    · rw [hd'] at hd
      cases hd
      exact ⟨hstatus, hholds⟩
    · rw [herror] at hd
      cases hd
  have hendpoint {a host : CString} {v : Int} (ha : s.bytes = tcpPrefix ++ a.bytes)
      (h : Endpoint a host v) : ∃ port : UInt16, (port.toNat : Int) = v ∧
        status = .parseSuccess ∧ r.Holds (.tcp host port) := by
    obtain ⟨port, rfl⟩ := h.exists_port
    exact ⟨port, rfl, hstored ((decodeTarget_eq_tcp_iff_endpoint ha).mpr h)⟩
  refine ⟨status, r, e', m', hrun, ?_, fun a ha => ⟨⟨?_, ?_⟩, ?_⟩, ?_⟩
  · intro htcp
    exact hstored (decodeTarget_eq_file_iff.mpr ⟨htcp, rfl⟩)
  · intro hstatus
    rcases hpost with ⟨-, d, hd, -⟩ | ⟨hfailed, -⟩
    · exact exists_endpoint_of_decodeTarget ha hd
    · rw [hstatus] at hfailed
      cases hfailed
  · intro h
    obtain ⟨host, v, h⟩ := h
    obtain ⟨_, -, hstatus, -⟩ := hendpoint ha h
    exact hstatus
  · intro host v h
    obtain ⟨port, hport, -, hholds⟩ := hendpoint ha h
    exact ⟨port, hport, hholds⟩
  · intro hstatus
    rcases hpost with ⟨hsuccess, -⟩ | ⟨-, hr, -⟩
    · rw [hstatus] at hsuccess
      cases hsuccess
    · exact hr

/-- `tcp:[::1]:8080`. -/
def loopback : CString := ⟨tcpPrefix ++ "[::1]:8080".toList.map ch, by decide⟩

/-- The bracketed host and the port are stored. -/
theorem redirectSet_decodes_loopback : ∃ r e' m', redirectSet Redirect.zero
      (some ⟨0, loopback.cells⟩) none 0 .generous .empty = some ((.parseSuccess, r, e'), m') ∧
    ∃ port : UInt16, (port.toNat : Int) = 8080 ∧
      r.Holds (.tcp ⟨"::1".toList.map ch, by decide⟩ port) := by
  have hstring : Ptr.string (some ⟨0, loopback.cells⟩) = some loopback :=
    Ptr.string_of_prefix List.prefix_rfl
  have hendpoint : Endpoint ⟨"[::1]:8080".toList.map ch, by decide⟩ ⟨"::1".toList.map ch, by decide⟩ 8080 := by
    refine ⟨by decide, ⟨"8080".toList.map ch, by decide⟩, ⟨by decide, by decide, by decide⟩, ?_⟩
    rw [if_pos (by decide)]
    decide
  obtain ⟨⟨status, r, e', m', hrun, -, htcp, -⟩, -⟩ := redirectSet_decodes hstring none 0 .empty
  obtain ⟨hiff, hholds⟩ := htcp ⟨"[::1]:8080".toList.map ch, by decide⟩ rfl
  rw [hiff.mpr ⟨_, _, hendpoint⟩] at hrun
  exact ⟨r, e', m', hrun, hholds _ _ hendpoint⟩

end Code

end SystemsCourse
