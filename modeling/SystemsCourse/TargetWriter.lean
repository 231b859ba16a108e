import Mathlib.Data.List.TakeWhile
import SystemsCourse.RedirectSet

/-!
# Writing a redirection target

Every well-formed target has a text that `redirect_set` decodes to it: the path of
a file, and for an endpoint `tcp:host:port`, with brackets around the host unless
it contains the bracket that would close them.  The port is written in decimal;
`strtol` reads it back.
-/
namespace SystemsCourse

/-! ## Decimal numbers -/

/-- `n` in decimal. -/
def decimal (n : Nat) : List Byte := (Nat.toDigits 10 n).map ch

theorem decimal_of_lt {n : Nat} (h : n < 10) : decimal n = [ch n.digitChar] := by
  rw [decimal, Nat.toDigits_of_lt_base h]
  rfl

theorem decimal_of_le {n : Nat} (h : 10 ≤ n) :
    decimal n = decimal (n / 10) ++ [ch (n % 10).digitChar] := by
  rw [decimal, Nat.toDigits_of_base_le (by decide) h, List.map_append, decimal]
  rfl

theorem digit_spec : ∀ d, d < 10 → isdigit (ch d.digitChar) ∧ (ch d.digitChar - ch '0').toNat = d := by
  decide

theorem decimal_ne_nil (n : Nat) : decimal n ≠ [] := by
  simp [decimal, Nat.toDigits_ne_nil]

theorem isdigit_of_mem_decimal {n : Nat} {c : Byte} (h : c ∈ decimal n) : isdigit c := by
  induction n using Nat.strong_induction_on with
  | _ n ih =>
    rcases Nat.lt_or_ge n 10 with hn | hn
    · rw [decimal_of_lt hn] at h
      rw [List.mem_singleton.mp h]
      exact (digit_spec n hn).1
    · rw [decimal_of_le hn, List.mem_append, List.mem_singleton] at h
      rcases h with h | rfl
      · exact ih _ (by omega) h
      · exact (digit_spec _ (by omega)).1

theorem decimalValue_append (ds : List Byte) (d : Byte) :
    decimalValue (ds ++ [d]) = 10 * decimalValue ds + (d - ch '0').toNat := by
  simp [decimalValue]

theorem decimalValue_decimal (n : Nat) : decimalValue (decimal n) = n := by
  induction n using Nat.strong_induction_on with
  | _ n ih =>
    rcases Nat.lt_or_ge n 10 with hn | hn
    · rw [decimal_of_lt hn]
      simpa [decimalValue] using (digit_spec n hn).2
    · rw [decimal_of_le hn, decimalValue_append, ih _ (by omega), (digit_spec _ (by omega)).2]
      omega

/-- A digit is neither white space, nor a sign, nor a colon, nor the terminator. -/
theorem ne_of_isdigit {c : Byte} (h : isdigit c) :
    isspace c = false ∧ c ≠ ch '-' ∧ c ≠ ch '+' ∧ c ≠ ch ':' ∧ c ≠ 0 := by
  have hc : ch '0' ≤ c ∧ c ≤ ch '9' := by simpa [isdigit] using h
  have hne : ∀ d : Byte, ¬ (ch '0' ≤ d ∧ d ≤ ch '9') → c ≠ d := by
    rintro d hd rfl
    exact hd hc
  refine ⟨?_, hne _ (by decide), hne _ (by decide), hne _ (by decide), hne _ (by decide)⟩
  have h13 : ¬ c ≤ 13 := fun hle => absurd (UInt8.le_trans hc.1 hle) (by decide)
  simp [isspace, hne (ch ' ') (by decide), h13]

/-- White space and a plus sign in front of digits are read over. -/
theorem signOf_dropWhile_isspace {spaces sign ds : List Byte} (hspaces : ∀ c ∈ spaces, isspace c)
    (hsign : sign = [] ∨ sign = [ch '+']) (hne : ds ≠ []) (hds : ∀ d ∈ ds, isdigit d) :
    signOf ((spaces ++ sign ++ ds).dropWhile isspace) = (false, ds) := by
  rw [List.append_assoc, List.dropWhile_append_of_pos hspaces]
  rcases hsign with rfl | rfl
  · cases ds with
    | nil => exact absurd rfl hne
    | cons d ds =>
      obtain ⟨hspace, hminus, hplus, -⟩ := ne_of_isdigit (hds d List.mem_cons_self)
      rw [List.nil_append, List.dropWhile_cons_of_neg (by simp [hspace]), signOf, if_neg hminus,
        if_neg hplus]
  · rfl

/-- **`strtol` reads digits**, behind white space and a plus sign. -/
theorem strtol_digits {spaces sign ds : List Byte} (hspaces : ∀ c ∈ spaces, isspace c)
    (hsign : sign = [] ∨ sign = [ch '+']) (hne : ds ≠ []) (hds : ∀ d ∈ ds, isdigit d)
    (hmax : (decimalValue ds : Int) ≤ longMax) :
    strtol (spaces ++ sign ++ ds) = ⟨decimalValue ds, [], false⟩ := by
  have htake : ds.takeWhile isdigit = ds := List.takeWhile_eq_self_iff.mpr hds
  have hdrop : ds.dropWhile isdigit = [] := List.dropWhile_eq_nil_iff.mpr hds
  have hmin : ¬ (decimalValue ds : Int) < longMin := by
    simp only [longMin]
    omega
  rw [strtol, signOf_dropWhile_isspace hspaces hsign hne hds]
  dsimp only
  rw [htake, hdrop, if_neg hne]
  simp only [Bool.false_eq_true, if_false]
  rw [if_neg (Int.not_lt.mpr hmax), if_neg hmin]

/-- **`strtol` reads a decimal number back.** -/
theorem strtol_decimal {n : Nat} (h : (n : Int) ≤ longMax) : strtol (decimal n) = ⟨n, [], false⟩ := by
  have hread : strtol ([] ++ [] ++ decimal n) = ⟨decimalValue (decimal n), [], false⟩ :=
    strtol_digits nofun (Or.inl rfl) (decimal_ne_nil n) (fun _ hd => isdigit_of_mem_decimal hd)
      (by rwa [decimalValue_decimal])
  rwa [decimalValue_decimal] at hread

/-! ## Targets -/

theorem noNul_decimal (n : Nat) : (0 : Byte) ∉ decimal n := fun h =>
  (ne_of_isdigit (isdigit_of_mem_decimal h)).2.2.2.2 rfl

/-- The text of a port. -/
def writePort (port : UInt16) : CString := ⟨decimal port.toNat, noNul_decimal _⟩

/-- The host as it stands in front of the colon. -/
def writeHost (host : CString) : CString :=
  if ch ']' ∉ host.bytes then ⟨[ch '['], by decide⟩ ++ host ++ ⟨[ch ']'], by decide⟩ else host

/-- The text of a target, if it has one. -/
def writeTarget : Target → Option CString
  | .none => none
  | .file path => some path
  | .tcp host port =>
      some (⟨tcpPrefix, by decide⟩ ++ writeHost host ++ ⟨[ch ':'], by decide⟩ ++ writePort port)

theorem portValue_writePort {port : UInt16} (h : 1 ≤ port.toNat) :
    portValue (writePort port) = some port := by
  refine portValue_eq_some_iff.mpr ⟨decimal_ne_nil _, h, strtol_decimal ?_⟩
  have := port.toNat_lt
  simp only [longMax]
  omega

theorem splits_writeHost {host : CString} {port : UInt16} (hne : host ≠ CString.empty)
    (hshape : ch ']' ∉ host.bytes ∨ (ch ':' ∉ host.bytes ∧ host.bytes.head? ≠ some (ch '['))) :
    Splits (writeHost host ++ ⟨[ch ':'], by decide⟩ ++ writePort port) host (writePort port) := by
  by_cases hbracket : ch ']' ∉ host.bytes
  · refine .bracket ?_ hbracket
    simp [writeHost, hbracket]
  · obtain ⟨hcolon, hhead⟩ := hshape.resolve_left hbracket
    have hhost : writeHost host = host := if_neg hbracket
    refine .plain ?_ ?_ hcolon fun hmem => (ne_of_isdigit (isdigit_of_mem_decimal hmem)).2.2.2.1 rfl
    · rw [hhost]
      cases hb : host.bytes with
      | nil => exact absurd (CString.ext hb) hne
      | cons c rest =>
        rw [hb] at hhead
        simpa [hb] using hhead
    · simp [hhost]

/-- **A written target is decoded to the target.** -/
theorem decodeTarget_writeTarget {target : Target} (h : target.WellFormed) {s : CString}
    (hs : writeTarget target = some s) : decodeTarget s = .ok target := by
  cases target with
  | none => cases hs
  | file path =>
    cases hs
    exact decodeTarget_eq_file_iff.mpr ⟨h, rfl⟩
  | tcp host port =>
    cases hs
    obtain ⟨hne, hshape, hport, _⟩ := h
    refine decodeTarget_eq_tcp_iff.mpr ⟨?_, hne, _, ?_, portValue_writePort hport⟩
    · simp only [CString.bytes_append, List.append_assoc]
      exact List.prefix_append _ _
    · convert splits_writeHost hne hshape using 1
      refine CString.ext ?_
      simp [tcpPrefix]

end SystemsCourse
