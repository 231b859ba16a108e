import SystemsCourse.MemoryProgram

/-!
# C strings

A C string is a sequence of bytes none of which is zero (`CString`); in memory it
is followed by the zero byte that ends it.  `readString` is what a library
function sees behind a `char *`: the bytes up to the first zero, provided that
every byte up to there lies in the block and has been written.

The library functions here are the ones the repository's parser calls, in the C
locale: `isspace`, `strdup`, `strchr`, `strrchr` and `strtol` in base 10.
-/
namespace SystemsCourse

/-- A byte of a C string. -/
abbrev Byte := UInt8

/-- The byte of a character constant. -/
def ch (c : Char) : Byte := c.toUInt8

/-- The contents of a C string, without the byte that ends it. -/
@[ext] structure CString where
  bytes : List Byte
  noNul : 0 ∉ bytes
deriving DecidableEq

namespace CString

/-- The empty string. -/
def empty : CString := ⟨[], List.not_mem_nil⟩

/-- `strlen`. -/
def length (s : CString) : Nat := s.bytes.length

/-- The string in memory. -/
def cells (s : CString) : List (Option Byte) := (s.bytes ++ [0]).map some

/-- `s[i]`: the bytes, and behind them the terminator. -/
def at? (s : CString) (i : Nat) : Option Byte := (s.bytes ++ [0])[i]?

theorem at?_of_lt (s : CString) {i : Nat} (h : i < s.length) : s.at? i = some s.bytes[i] := by
  rw [at?, List.getElem?_append_left h, List.getElem?_eq_getElem h]

theorem at?_length (s : CString) : s.at? s.length = some 0 := by
  rw [at?, length, List.getElem?_append_right (Nat.le_refl _), Nat.sub_self]
  rfl

/-- A character other than the terminator lies in the string. -/
theorem at?_eq_some_iff (s : CString) {i : Nat} {c : Byte} (hc : c ≠ 0) :
    s.at? i = some c ↔ s.bytes[i]? = some c := by
  rw [at?]
  rcases Nat.lt_or_ge i s.bytes.length with h | h
  · rw [List.getElem?_append_left h]
  · rw [List.getElem?_append_right h, List.getElem?_eq_none h]
    cases i - s.bytes.length with
    | zero => simpa using fun he => hc he.symm
    | succ k => simp

theorem getElem_ne_zero (s : CString) {i : Nat} (h : i < s.bytes.length) : s.bytes[i] ≠ 0 :=
  fun h0 => s.noNul (h0 ▸ List.getElem_mem h)

theorem noNul_append (s t : CString) : (0 : Byte) ∉ s.bytes ++ t.bytes := by
  simp [s.noNul, t.noNul]

/-- Concatenation. -/
def append (s t : CString) : CString := ⟨s.bytes ++ t.bytes, noNul_append s t⟩

instance : Append CString := ⟨append⟩

@[simp] theorem bytes_append (s t : CString) : (s ++ t).bytes = s.bytes ++ t.bytes := rfl

/-- A part of a C string is a C string. -/
def sub (s : CString) (bs : List Byte) (h : bs ⊆ s.bytes) : CString := ⟨bs, fun h0 => s.noNul (h h0)⟩

/-- The string that starts at `s + n`. -/
def drop (s : CString) (n : Nat) : CString := s.sub (s.bytes.drop n) (List.drop_subset _ _)

/-- The first `n` characters. -/
def take (s : CString) (n : Nat) : CString := s.sub (s.bytes.take n) (List.take_subset _ _)

@[simp] theorem bytes_drop (s : CString) (n : Nat) : (s.drop n).bytes = s.bytes.drop n := rfl

@[simp] theorem bytes_take (s : CString) (n : Nat) : (s.take n).bytes = s.bytes.take n := rfl

end CString

/-- The bytes up to the first zero, when they have been written. -/
def scanString : List (Option Byte) → Option (List Byte)
  | some c :: cells => if c = 0 then some [] else (scanString cells).map (c :: ·)
  | _ => none

theorem noNul_of_scanString {cells : List (Option Byte)} {bs : List Byte}
    (h : scanString cells = some bs) : (0 : Byte) ∉ bs := by
  induction cells generalizing bs with
  | nil => cases h
  | cons x cells ih =>
    cases x with
    | none => cases h
    | some c =>
      unfold scanString at h
      split at h
      · cases h
        exact List.not_mem_nil
      · rename_i hc
        obtain ⟨t, ht, rfl⟩ := Option.map_eq_some_iff.mp h
        exact fun h0 => (List.mem_cons.mp h0).elim (fun h0 => hc h0.symm) (ih ht)

theorem scanString_of_prefix {s : CString} {cells : List (Option Byte)} (h : s.cells <+: cells) :
    scanString cells = some s.bytes := by
  obtain ⟨rest, rfl⟩ := h
  obtain ⟨bs, hbs⟩ := s
  unfold CString.cells
  induction bs with
  | nil => rfl
  | cons c bs ih =>
    have hc : c ≠ 0 := fun h0 => hbs (h0 ▸ List.mem_cons_self)
    have := ih fun h0 => hbs (List.mem_cons_of_mem _ h0)
    simp only [List.cons_append, List.map_cons, scanString, if_neg hc, this, Option.map_some]

/-- The string a `char *` points to, if it points to one. -/
def Ptr.string (p : Ptr Byte) : Option CString :=
  match h : scanString p.cells with
  | none => none
  | some bs => some ⟨bs, noNul_of_scanString h⟩

theorem Ptr.string_of_prefix {p : Ptr Byte} {s : CString} (h : s.cells <+: p.cells) :
    p.string = some s := by
  have hs := scanString_of_prefix h
  unfold Ptr.string
  split
  · rename_i hn
    rw [hs] at hn
    cases hn
  · rename_i bs hbs
    rw [hs] at hbs
    cases hbs
    rfl

theorem Ptr.Holds.string {p : Ptr Byte} {cap : Nat} {s : CString}
    (h : p.Holds cap (s.bytes ++ [0])) : p.string = some s :=
  Ptr.string_of_prefix h.2

@[simp] theorem Ptr.string_none : Ptr.string none = none := rfl

theorem Ptr.ne_none_of_string {p : Ptr Byte} {s : CString} (h : p.string = some s) : p ≠ none := by
  rintro rfl
  cases h

/-! ## The library functions -/

/-- `isspace` in the C locale: blank, and `\t`, `\n`, `\v`, `\f`, `\r`. -/
def isspace (c : Byte) : Bool := c == ch ' ' || (9 ≤ c && c ≤ 13)

/-- `isdigit`. -/
def isdigit (c : Byte) : Bool := ch '0' ≤ c && c ≤ ch '9'

/-- `strchr`: the offset of the first `c`. -/
def strchr (s : List Byte) (c : Byte) : Option Nat := s.findIdx? (· == c)

/-- `strrchr`: the offset of the last `c`. -/
def strrchr (s : List Byte) (c : Byte) : Option Nat :=
  (strchr s.reverse c).map (s.length - 1 - ·)

theorem strchr_eq_some_iff {s : List Byte} {c : Byte} {k : Nat} :
    strchr s c = some k ↔ ∃ front back, s = front ++ c :: back ∧ c ∉ front ∧ k = front.length := by
  constructor
  · intro h
    obtain ⟨hk, hc, hbefore⟩ := List.findIdx?_eq_some_iff_getElem.mp h
    refine ⟨s.take k, s.drop (k + 1), ?_, ?_, (List.length_take_of_le (by omega)).symm⟩
    · rw [← beq_iff_eq.mp hc, List.getElem_cons_drop, List.take_append_drop]
    · intro hmem
      obtain ⟨j, hj, he⟩ := List.mem_take_iff_getElem.mp hmem
      have hlt := (Nat.lt_min.mp hj).1
      have := hbefore j hlt
      simp [he] at this
  · intro h
    obtain ⟨front, back, rfl, hfront, rfl⟩ := h
    refine List.findIdx?_eq_some_iff_getElem.mpr ⟨by simp, by simp, fun j hj => ?_⟩
    rw [List.getElem_append_left hj]
    simp only [beq_iff_eq]
    exact fun he => hfront (he ▸ List.getElem_mem hj)

theorem strrchr_eq_some_iff {s : List Byte} {c : Byte} {k : Nat} :
    strrchr s c = some k ↔ ∃ front back, s = front ++ c :: back ∧ c ∉ back ∧ k = front.length := by
  rw [strrchr, Option.map_eq_some_iff]
  constructor
  · intro h
    obtain ⟨j, hj, rfl⟩ := h
    obtain ⟨front, back, hs, hfront, rfl⟩ := strchr_eq_some_iff.mp hj
    have hs' : s = back.reverse ++ c :: front.reverse := by
      rw [← List.reverse_reverse s, hs]
      simp
    refine ⟨back.reverse, front.reverse, hs', by simpa using hfront, ?_⟩
    rw [hs']
    simp
  · intro h
    obtain ⟨front, back, rfl, hback, rfl⟩ := h
    refine ⟨back.length, strchr_eq_some_iff.mpr ⟨back.reverse, front.reverse, by simp, by simpa using hback,
      by simp⟩, ?_⟩
    simp

/-- The value of a string of decimal digits. -/
def decimalValue (ds : List Byte) : Nat := ds.foldl (fun v d => 10 * v + (d - ch '0').toNat) 0

/-- The greatest and the least `long`. -/
def longMax : Int := 2 ^ 63 - 1
def longMin : Int := -2 ^ 63

/-- What `strtol` reports: the value, the text from `*end` on, and whether
`errno` was set to `ERANGE`. -/
structure StrtolResult where
  value : Int
  rest : List Byte
  erange : Bool
deriving DecidableEq

/-- The optional sign of a number. -/
def signOf : List Byte → Bool × List Byte
  | c :: s => if c = ch '-' then (true, s) else if c = ch '+' then (false, s) else (false, c :: s)
  | [] => (false, [])

/-- `strtol(s, &end, 10)`: white space, an optional sign, digits.  Without a digit
nothing is consumed; a value out of range is replaced by the nearest `long`. -/
def strtol (s : List Byte) : StrtolResult :=
  let (negative, t) := signOf (s.dropWhile isspace)
  let digits := t.takeWhile isdigit
  if digits = [] then ⟨0, s, false⟩
  else
    let v : Int := if negative then -(decimalValue digits : Int) else decimalValue digits
    if v > longMax then ⟨longMax, t.dropWhile isdigit, true⟩
    else if v < longMin then ⟨longMin, t.dropWhile isdigit, true⟩
    else ⟨v, t.dropWhile isdigit, false⟩

namespace Prog
variable {σ : Script} {m : Memory}

/-- Read the string behind a pointer. -/
def readString (p : Ptr Byte) : Prog CString := ofOption p.string

/-- `strdup`. -/
def strdup (s : CString) : Prog (Ptr Byte) := do
  match ← malloc (α := Byte) (s.length + 1) with
  | none => return none
  | some b => memcpy (some b) (s.bytes ++ [0])

/-- Read `s[i]`. -/
def charAt (s : CString) (i : Nat) : Prog Byte := ofOption (s.at? i)

/-- At or before its end, a string holds a character or its terminator. -/
theorem charAt_spec {s : CString} {i : Nat} (h : i ≤ s.length) {Q : Byte → Memory → Prop}
    (hend : i = s.length → Q 0 m) (hchar : ∀ c, s.bytes[i]? = some c → c ≠ 0 → Q c m) :
    wp (charAt s i) σ Q m := by
  rcases Nat.eq_or_lt_of_le h with rfl | hlt
  · rw [charAt, s.at?_length]
    exact hend rfl
  · rw [charAt, s.at?_of_lt hlt]
    exact hchar _ (List.getElem?_eq_getElem hlt) (s.getElem_ne_zero hlt)

theorem readString_spec {p : Ptr Byte} {s : CString} (h : p.string = some s)
    {Q : CString → Memory → Prop} : wp (readString p) σ Q m ↔ Q s m := by
  rw [readString, h]
  exact wp_ofOption_some

theorem strdup_spec (s : CString) :
    wp (strdup s) σ (fun p m' => m'.ledger.live = p.own + m.ledger.live ∧
      ((p = none ∧ σ.Refuses) ∨ p.string = some s)) m := by
  refine wp_seq (malloc_spec _) ?_
  intro p m₁ hpost
  rcases hpost with ⟨hlive, _, ⟨rfl, hσ⟩ | ⟨a, rfl⟩⟩
  · exact ⟨hlive, Or.inl ⟨rfl, hσ⟩⟩
  · refine wp_mono (memcpy_spec (by simp [CString.length])) ?_
    intro q _ hpost
    obtain ⟨rfl, hown, hq⟩ := hpost
    exact ⟨by rw [hlive, hown]; rfl, Or.inr hq.string⟩

end Prog

/-- Leading white space and a sign belong to the number, a trailing letter does
not. -/
example : strtol [32, 43, 56, 48, 120] = ⟨80, [120], false⟩ := by decide

end SystemsCourse
