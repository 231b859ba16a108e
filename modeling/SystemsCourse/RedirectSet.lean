import SystemsCourse.ParserRelease

/-!
# `redirect_set`

A redirection target is a TCP endpoint if it begins with `tcp:`, and the path of a
file otherwise.  `decodeTarget` is the decoding alone, without the heap;
`redirectSet_spec` says that the code fills an empty `Redirect` with what
`decodeTarget` yields, and in every other case leaves it as it was.
-/
namespace SystemsCourse
open Prog

/-! ## The code -/

/-- The test of `parse_port` and the value it stores: `none` if the port is
rejected. -/
def portValue (s : CString) : Option UInt16 :=
  let r := strtol s.bytes
  if s.bytes = [] ∨ r.erange ∨ r.rest ≠ [] ∨ r.value < 1 ∨ r.value > 65535 then none
  else some (UInt16.ofInt r.value)

/-- `parse_port`. -/
def parsePort (s : CString) (port : UInt16) (e : Option ParseError) (pos : Nat) :
    ParseStatus × UInt16 × Option ParseError :=
  match portValue s with
  | none => (.parseFailed, port, parseerrorSetError e pos "TCP port must be between 1 and 65535")
  | some v => (.parseSuccess, v, e)

/-- The part of `redirect_set` that finds, in the text behind `tcp:`, where the
host starts (`a`), its length (`len`) and the text of the port (`port_text`). -/
def splitEndpoint (a : CString) : Except String (CString × Nat × CString) :=
  if a.at? 0 = some (ch '[') then
    match strchr a.bytes (ch ']') with
    | none => .error "use tcp:[IPv6-address]:port"
    | some close =>
        if a.at? (close + 1) ≠ some (ch ':') then .error "use tcp:[IPv6-address]:port"
        else .ok (a.drop 1, close - 1, a.drop (close + 2))
  else
    match strrchr a.bytes (ch ':') with
    | none => .error "TCP endpoint must be tcp:host:port"
    | some colon =>
        if strchr a.bytes (ch ':') ≠ some colon then .error "TCP endpoint must be tcp:host:port"
        else .ok (a, colon, a.drop (colon + 1))

/-- `memcpy(r->host, a, len); r->host[len] = '\0';`. -/
def copyHost (host : Ptr Byte) (a : CString) (len : Nat) : Prog (Ptr Byte) := do
  let host ← memcpy host (a.bytes.take len)
  store host len 0

/-- The branch of `redirect_set` for a TCP endpoint, once it has been split. -/
def redirectSetTcp (r : Redirect) (a : CString) (len : Nat) (portText : CString)
    (e : Option ParseError) (pos : Nat) : Prog (ParseStatus × Redirect × Option ParseError) := do
  if len = 0 then return (.parseFailed, r, parseerrorSetError e pos "missing TCP host")
  let host ← malloc (α := Byte) (len + 1)
  let r := { r with host := host }
  if r.host.isNone then return (.parseFailed, r, parseerrorSetError e pos "out of memory")
  let host ← copyHost r.host a len
  let (status, port, e) := parsePort portText r.port e pos
  let r := { r with host := host, port := port }
  if status = .parseFailed then
    free r.host
    return (.parseFailed, { r with host := none }, e)
  return (.parseSuccess, { r with type := .redirectTcp }, e)

/-- The branch of `redirect_set` for a file. -/
def redirectSetFile (r : Redirect) (target : CString) (e : Option ParseError) (pos : Nat) :
    Prog (ParseStatus × Redirect × Option ParseError) := do
  let path ← strdup target
  let r := { r with path := path }
  if r.path.isNone then return (.parseFailed, r, parseerrorSetError e pos "out of memory")
  return (.parseSuccess, { r with type := .redirectFile }, e)

/-- `redirect_set`. -/
def redirectSet (r : Redirect) (target : Ptr Byte) (e : Option ParseError) (pos : Nat) :
    Prog (ParseStatus × Redirect × Option ParseError) := do
  if r.type ≠ .redirectNone then
    return (.parseFailed, r, parseerrorSetError e pos "duplicate redirection")
  let target ← readString target
  if ¬ tcpPrefix <+: target.bytes then redirectSetFile r target e pos
  else
    match splitEndpoint (target.drop 4) with
    | .error msg => return (.parseFailed, r, parseerrorSetError e pos msg)
    | .ok (a, len, portText) => redirectSetTcp r a len portText e pos

/-! ## The decoding -/

/-- What a target stands for, or the message that rejects it. -/
def decodeTarget (target : CString) : Except String Target :=
  if ¬ tcpPrefix <+: target.bytes then .ok (.file target)
  else
    match splitEndpoint (target.drop 4) with
    | .error msg => .error msg
    | .ok (a, len, portText) =>
        if len = 0 then .error "missing TCP host"
        else
          match portValue portText with
          | none => .error "TCP port must be between 1 and 65535"
          | some port => .ok (.tcp (a.take len) port)

/-- What a redirection that was `old` becomes, or the message that rejects it. -/
def setTarget (old : Target) (target : CString) : Except String Target :=
  if old = .none then decodeTarget target else .error "duplicate redirection"

@[simp] theorem setTarget_none (target : CString) : setTarget .none target = decodeTarget target :=
  if_pos rfl

section Specification
variable {σ : Script} {m : Memory} {F : Multiset Addr}

theorem Redirect.Holds.type_eq_none_iff {r : Redirect} {old : Target} (h : r.Holds old) :
    r.type = .redirectNone ↔ old = .none := by
  cases old with
  | none => rw [show r = Redirect.zero from h]; simp [Redirect.zero]
  | file path => rw [h.1]; simp
  | tcp host port => rw [h.1]; simp

theorem copyHost_spec {a : CString} {len : Nat} {b : Block Byte} (hlen : len ≤ a.length)
    (hb : b.cells = List.replicate (len + 1) none) :
    wp (copyHost (some b) a len) σ (fun p m' =>
      m' = m ∧ p.own = {b.addr} ∧ p.string = some (a.take len)) m := by
  have htake : (a.bytes.take len).length = len := List.length_take_of_le hlen
  refine wp_seq (memcpy_spec (by rw [hb, List.length_replicate]; omega)) ?_
  intro q m' hpost
  obtain ⟨rfl, hown, hq⟩ := hpost
  rw [hb, List.length_replicate] at hq
  have hstore := store_spec (σ := σ) (m := m') hq 0 (by omega)
  rw [htake] at hstore
  refine wp_mono hstore ?_
  intro p _ hpost
  obtain ⟨rfl, hown', hp⟩ := hpost
  exact ⟨rfl, hown'.trans hown, hp.string (s := a.take len)⟩

/-- The host lies within the text it is taken from. -/
theorem le_length_of_splitEndpoint {a a' portText : CString} {len : Nat}
    (h : splitEndpoint a = .ok (a', len, portText)) : len ≤ a'.length := by
  unfold splitEndpoint at h
  split at h
  · split at h
    · cases h
    · rename_i close hclose
      obtain ⟨front, back, hs, _, rfl⟩ := strchr_eq_some_iff.mp hclose
      split at h
      · cases h
      · cases h
        simp [CString.length, hs]
        omega
  · split at h
    · cases h
    · rename_i colon hcolon
      obtain ⟨front, back, hs, _, rfl⟩ := strrchr_eq_some_iff.mp hcolon
      split at h
      · cases h
      · cases h
        simp [CString.length, hs]

/-- How `redirect_set` ends: the target that `setTarget` yields has been stored, or
the redirection is as it was and the target was rejected or a request refused. -/
def RedirectSetPost (r : Redirect) (old : Target) (s : CString) (e : Option ParseError) (pos : Nat)
    (F : Multiset Addr) (σ : Script) (out : ParseStatus × Redirect × Option ParseError)
    (m : Memory) : Prop :=
  m.ledger.live = out.2.1.blocks + F ∧
    ((out.1 = .parseSuccess ∧ out.2.2 = e ∧ ∃ target, setTarget old s = .ok target ∧
        out.2.1.Holds target) ∨
      (out.1 = .parseFailed ∧ out.2.1 = r ∧
        (σ.Refuses ∨ ∃ msg, setTarget old s = .error msg ∧ out.2.2 = parseerrorSetError e pos msg)))

theorem redirectSetTcp_spec {s a portText : CString} {len : Nat} {e : Option ParseError} {pos : Nat}
    (htcp : tcpPrefix <+: s.bytes) (hsplit : splitEndpoint (s.drop 4) = .ok (a, len, portText))
    (hlive : m.ledger.live = F) :
    wp (redirectSetTcp Redirect.zero a len portText e pos) σ
      (RedirectSetPost Redirect.zero .none s e pos F σ) m := by
  have hdecode : setTarget .none s = if len = 0 then .error "missing TCP host" else
      match portValue portText with
      | none => .error "TCP port must be between 1 and 65535"
      | some port => .ok (.tcp (a.take len) port) := by
    rw [setTarget_none, decodeTarget, if_neg (not_not_intro htcp), hsplit]
  have hlen := le_length_of_splitEndpoint hsplit
  have hzero : m.ledger.live = Redirect.zero.blocks + F := hlive.trans (zero_add _).symm
  unfold redirectSetTcp
  by_cases hl : len = 0
  · rw [if_pos hl] at hdecode ⊢
    exact ⟨hzero, Or.inr ⟨rfl, rfl, Or.inr ⟨_, hdecode, rfl⟩⟩⟩
  rw [if_neg hl] at hdecode ⊢
  refine wp_seq (malloc_spec _) ?_
  intro p m₁ hpost
  rcases hpost with ⟨hlive₁, _, ⟨rfl, hσ⟩ | ⟨x, rfl⟩⟩
  · exact ⟨hlive₁.trans ((zero_add _).trans hzero), Or.inr ⟨rfl, rfl, Or.inl hσ⟩⟩
  dsimp only
  rw [if_neg (by nofun)]
  refine wp_seq (copyHost_spec hlen rfl) ?_
  intro host m₂ hpost
  obtain ⟨rfl, hown, hhost⟩ := hpost
  have hlive₂ : m₂.ledger.live = host.own + F := by rw [hlive₁, hown, hlive]; rfl
  cases hport : portValue portText with
  | none =>
    -- the port is rejected, and the copy of the host released
    rw [hport] at hdecode
    simp only [parsePort, hport, if_true]
    refine wp_seq (free_spec hlive₂) ?_
    intro _ m₃ hpost
    obtain ⟨hlive₃, _⟩ := hpost
    exact ⟨hlive₃.trans (zero_add _).symm, Or.inr ⟨rfl, rfl, Or.inr ⟨_, hdecode, rfl⟩⟩⟩
  | some port =>
    rw [hport] at hdecode
    simp only [parsePort, hport]
    rw [if_neg (by nofun)]
    refine ⟨?_, Or.inl ⟨rfl, rfl, _, hdecode, rfl, rfl, hhost, rfl⟩⟩
    rw [hlive₂]
    simp [Redirect.blocks, Redirect.zero]

theorem redirectSetFile_spec {s : CString} {e : Option ParseError} {pos : Nat}
    (htcp : ¬ tcpPrefix <+: s.bytes) (hlive : m.ledger.live = F) :
    wp (redirectSetFile Redirect.zero s e pos) σ
      (RedirectSetPost Redirect.zero .none s e pos F σ) m := by
  refine wp_seq (strdup_spec s) ?_
  intro path m₁ hpost
  rcases hpost with ⟨hlive₁, ⟨rfl, hσ⟩ | hpath⟩
  · refine ⟨?_, Or.inr ⟨rfl, rfl, Or.inl hσ⟩⟩
    rw [hlive₁, hlive]
    rfl
  · dsimp only
    rw [if_neg (by rw [Option.isNone_iff_eq_none]; exact Ptr.ne_none_of_string hpath)]
    refine ⟨?_, Or.inl ⟨rfl, rfl, .file s, ?_, rfl, hpath, rfl, rfl⟩⟩
    · rw [hlive₁, hlive]
      simp [Redirect.blocks, Redirect.zero]
    · rw [setTarget_none, decodeTarget, if_pos htcp]

/-- **`redirect_set`** stores the target that `setTarget` yields. -/
theorem redirectSet_spec {r : Redirect} {old : Target} {target : Ptr Byte} {s : CString}
    (hr : r.Holds old) (hs : target.string = some s) (e : Option ParseError) (pos : Nat)
    (hlive : m.ledger.live = r.blocks + F) :
    wp (redirectSet r target e pos) σ (RedirectSetPost r old s e pos F σ) m := by
  unfold redirectSet
  by_cases hold : old = .none
  · subst hold
    obtain rfl : r = Redirect.zero := hr
    have hlive' : m.ledger.live = F := hlive.trans (zero_add _)
    rw [if_neg (show ¬ Redirect.zero.type ≠ .redirectNone from not_not_intro rfl), wp_bind,
      readString_spec hs]
    by_cases htcp : tcpPrefix <+: s.bytes
    · rw [if_neg (not_not_intro htcp)]
      cases hsplit : splitEndpoint (s.drop 4) with
      | error msg =>
        refine ⟨hlive, Or.inr ⟨rfl, rfl, Or.inr ⟨msg, ?_, rfl⟩⟩⟩
        rw [setTarget_none, decodeTarget, if_neg (not_not_intro htcp), hsplit]
      | ok parts => exact redirectSetTcp_spec htcp hsplit hlive'
    · rw [if_pos htcp]
      exact redirectSetFile_spec htcp hlive'
  · rw [if_pos (mt hr.type_eq_none_iff.mp hold)]
    exact ⟨hlive, Or.inr ⟨rfl, rfl, Or.inr ⟨_, if_neg hold, rfl⟩⟩⟩

end Specification

/-! ## The shape of an endpoint -/

/-- The text `a` behind `tcp:` consists of the host `h` and the port text `q`. -/
inductive Splits (a h q : CString) : Prop where
  | bracket (shape : a.bytes = ch '[' :: (h.bytes ++ ch ']' :: ch ':' :: q.bytes))
      (host : ch ']' ∉ h.bytes)
  | plain (start : a.bytes.head? ≠ some (ch '[')) (shape : a.bytes = h.bytes ++ ch ':' :: q.bytes)
      (host : ch ':' ∉ h.bytes) (port : ch ':' ∉ q.bytes)

theorem at?_zero_eq_bracket_iff {a : CString} :
    a.at? 0 = some (ch '[') ↔ a.bytes.head? = some (ch '[') := by
  rw [a.at?_eq_some_iff (by decide), List.head?_eq_getElem?]

/-- What `splitEndpoint` finds is a host and a port text. -/
theorem splits_of_splitEndpoint {a a' q : CString} {len : Nat}
    (h : splitEndpoint a = .ok (a', len, q)) : Splits a (a'.take len) q := by
  unfold splitEndpoint at h
  by_cases hstart : a.at? 0 = some (ch '[')
  · rw [if_pos hstart] at h
    rw [at?_zero_eq_bracket_iff] at hstart
    split at h
    · cases h
    · rename_i close hclose
      obtain ⟨front, back, hs, hfront, rfl⟩ := strchr_eq_some_iff.mp hclose
      split at h
      · cases h
      · rename_i hcolon
        rw [not_not, a.at?_eq_some_iff (by decide), hs, List.getElem?_append_right (by omega)] at hcolon
        cases h
        -- what stands before the first `]` begins with the `[`
        cases front with
        | nil =>
          rw [hs] at hstart
          exact absurd (Option.some.inj hstart) (by decide)
        | cons c host =>
          cases back with
          | nil => simp at hcolon
          | cons d port =>
            rw [hs] at hstart
            obtain rfl : c = ch '[' := by simpa using hstart
            obtain rfl : d = ch ':' := by simpa using hcolon
            refine .bracket ?_ ?_
            · simp [hs]
            · simpa [hs] using fun hmem => hfront (List.mem_cons_of_mem _ hmem)
  · rw [if_neg hstart] at h
    rw [at?_zero_eq_bracket_iff] at hstart
    split at h
    · cases h
    · rename_i colon hcolon
      obtain ⟨front, back, hs, hback, rfl⟩ := strrchr_eq_some_iff.mp hcolon
      split at h
      · cases h
      · rename_i hfirst
        -- the first colon is the last one, so there is no other on either side
        obtain ⟨front', back', hs', hfront', hlen⟩ := strchr_eq_some_iff.mp (not_not.mp hfirst)
        obtain ⟨rfl, -⟩ := List.append_inj (hs.symm.trans hs') hlen
        cases h
        exact .plain hstart (by simp [hs]) (by simpa [hs] using hfront') (by simpa [hs] using hback)

/-- Every host and port text is found. -/
theorem splitEndpoint_of_splits {a h q : CString} (hsplit : Splits a h q) :
    ∃ a' len, splitEndpoint a = .ok (a', len, q) ∧ a'.take len = h ∧ len = h.length := by
  unfold splitEndpoint
  cases hsplit with
  | bracket shape host =>
    have hstart : a.at? 0 = some (ch '[') := by
      rw [at?_zero_eq_bracket_iff, shape]
      rfl
    have hclose : strchr a.bytes (ch ']') = some (h.length + 1) :=
      strchr_eq_some_iff.mpr ⟨ch '[' :: h.bytes, ch ':' :: q.bytes, by simp [shape],
        fun hmem => (List.mem_cons.mp hmem).elim (by decide) host, by simp [CString.length]⟩
    have hcolon : a.at? (h.length + 1 + 1) = some (ch ':') := by
      rw [a.at?_eq_some_iff (by decide), shape]
      simp [CString.length]
    have hport : a.drop (h.length + 1 + 2) = q := CString.ext (by simp [shape, CString.length])
    rw [if_pos hstart, hclose]
    dsimp only
    rw [if_neg (not_not_intro hcolon), hport]
    exact ⟨a.drop 1, h.length, rfl, CString.ext (by simp [shape, CString.length]), rfl⟩
  | plain start shape host port =>
    rw [if_neg (mt at?_zero_eq_bracket_iff.mp start)]
    have hlast : strrchr a.bytes (ch ':') = some h.length :=
      strrchr_eq_some_iff.mpr ⟨h.bytes, q.bytes, shape, port, rfl⟩
    have hfirst : strchr a.bytes (ch ':') = some h.length :=
      strchr_eq_some_iff.mpr ⟨h.bytes, q.bytes, shape, host, rfl⟩
    have hport : a.drop (h.length + 1) = q := CString.ext (by simp [shape, CString.length])
    rw [hlast]
    dsimp only
    rw [if_neg (not_not_intro hfirst), hport]
    exact ⟨a, h.length, rfl, CString.ext (by simp [shape, CString.length]), rfl⟩

/-! ## The shape of a target -/

theorem decodeTarget_eq_file_iff {s path : CString} :
    decodeTarget s = .ok (.file path) ↔ ¬ tcpPrefix <+: s.bytes ∧ path = s := by
  unfold decodeTarget
  by_cases htcp : tcpPrefix <+: s.bytes
  · rw [if_neg (not_not_intro htcp)]
    refine ⟨fun h => ?_, fun h => absurd htcp h.1⟩
    split at h
    · cases h
    · split at h
      · cases h
      · split at h <;> cases h
  · rw [if_pos htcp]
    exact ⟨fun h => by cases h; exact ⟨htcp, rfl⟩, fun h => by rw [h.2]⟩

theorem decodeTarget_ne_none {s : CString} : decodeTarget s ≠ .ok .none := by
  unfold decodeTarget
  split
  · nofun
  · split
    · nofun
    · split
      · nofun
      · split <;> nofun

/-- **An endpoint is decoded exactly if** it is `tcp:` followed by a host, which is
not empty, and a valid port. -/
theorem decodeTarget_eq_tcp_iff {s host : CString} {port : UInt16} :
    decodeTarget s = .ok (.tcp host port) ↔ tcpPrefix <+: s.bytes ∧ host ≠ CString.empty ∧
      ∃ q, Splits (s.drop 4) host q ∧ portValue q = some port := by
  unfold decodeTarget
  constructor
  · intro h
    split at h
    · cases h
    rename_i htcp
    split at h
    · cases h
    rename_i a len q hsplit
    split at h
    · cases h
    rename_i hlen
    split at h
    · cases h
    rename_i v hport
    cases h
    refine ⟨not_not.mp htcp, fun he => ?_, q, splits_of_splitEndpoint hsplit, hport⟩
    have hle : len ≤ a.bytes.length := le_length_of_splitEndpoint hsplit
    -- the host lies within the text, so it is empty only if its length was zero
    have hzero : (a.bytes.take len).length = 0 := congrArg CString.length he
    rw [List.length_take] at hzero
    omega
  · intro h
    obtain ⟨htcp, hne, q, hsplit, hport⟩ := h
    obtain ⟨a, len, ha, htake, hlen⟩ := splitEndpoint_of_splits hsplit
    have hlen0 : ¬ len = 0 := by
      intro h0
      exact hne (CString.ext (List.length_eq_zero_iff.mp (hlen.symm.trans h0)))
    rw [if_neg (not_not_intro htcp), ha]
    dsimp only
    rw [if_neg hlen0, hport, htake]

theorem toNat_ofInt {v : Int} (h : 0 ≤ v) (h' : v ≤ 65535) : ((UInt16.ofInt v).toNat : Int) = v := by
  rw [UInt16.ofInt, UInt16.toNat_ofNat', Int.emod_eq_of_lt h (by omega)]
  omega

/-- **A port is accepted exactly if** `strtol` consumes all of its text, without a
range error, and the value lies between 1 and 65535; it is stored unchanged. -/
theorem portValue_eq_some_iff {s : CString} {port : UInt16} :
    portValue s = some port ↔ s.bytes ≠ [] ∧ 1 ≤ port.toNat ∧
      strtol s.bytes = ⟨port.toNat, [], false⟩ := by
  unfold portValue
  have hlt := port.toNat_lt
  constructor
  · intro h
    dsimp only at h
    split at h
    · cases h
    rename_i hgood
    simp only [not_or, not_lt, not_not, Bool.not_eq_true] at hgood
    obtain ⟨hne, herange, hrest, hlow, hhigh⟩ := hgood
    cases h
    have hval := toNat_ofInt (show 0 ≤ (strtol s.bytes).value by omega) (by omega)
    refine ⟨hne, by omega, ?_⟩
    rw [hval, ← hrest, ← herange]
  · intro h
    obtain ⟨hne, hlow, hr⟩ := h
    dsimp only
    rw [hr]
    have hgood : ¬ (s.bytes = [] ∨ false = true ∨ ([] : List Byte) ≠ [] ∨ (port.toNat : Int) < 1 ∨
        (port.toNat : Int) > 65535) := by
      intro h
      rcases h with h | h | h | h | h
      · exact hne h
      · cases h
      · exact h rfl
      · omega
      · omega
    have hval := toNat_ofInt (v := port.toNat) (by omega) (by omega)
    rw [if_neg hgood]
    exact congrArg some (UInt16.toNat_inj.mp (Int.ofNat.inj hval))

/-- **Every target that is decoded is well formed.** -/
theorem decodeTarget_wellFormed {s : CString} {target : Target} (h : decodeTarget s = .ok target) :
    target.WellFormed := by
  cases target with
  | none => trivial
  | file path =>
    obtain ⟨htcp, rfl⟩ := decodeTarget_eq_file_iff.mp h
    exact htcp
  | tcp host port =>
    obtain ⟨_, hne, q, hsplit, hport⟩ := decodeTarget_eq_tcp_iff.mp h
    refine ⟨hne, ?_, (portValue_eq_some_iff.mp hport).2.1, Nat.le_of_lt_succ port.toNat_lt⟩
    cases hsplit with
    | bracket shape host => exact Or.inl host
    | plain start shape host' port =>
      refine Or.inr ⟨host', fun hhead => start ?_⟩
      rw [shape]
      cases hb : host.bytes with
      | nil => exact absurd (CString.ext hb) hne
      | cons c rest =>
        rw [hb] at hhead
        exact hhead

end SystemsCourse
