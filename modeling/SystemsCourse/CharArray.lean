import SystemsCourse.CString

/-!
# Arrays of characters that are received into

A local array of characters is a list of cells; a cell in which nothing has been
stored is `none`.  `read` and `recvfrom` overwrite the first cells and leave the
others as they are.  A zero stored behind what has been received makes a C string of
it (`terminated`), which ends there or at an earlier zero, wherever it is read from
(`stringAt_terminated`): what the array held before does not show.
-/
namespace SystemsCourse

/-- An array of characters. -/
abbrev CharArray := List (Option Byte)

namespace CharArray

/-- `char a[n];`. -/
def uninitialized (n : Nat) : CharArray := List.replicate n none

/-- `bs` is received into the array, if it fits. -/
def receive (a : CharArray) (bs : List Byte) : Option CharArray :=
  if bs.length ≤ a.length then some (bs.map some ++ a.drop bs.length) else none

/-- `a[i] = c;`. -/
def store (a : CharArray) (i : Nat) (c : Byte) : Option CharArray :=
  if i < a.length then some (a.set i (some c)) else none

/-- `a[i]`. -/
def load (a : CharArray) (i : Nat) : Option Byte := a[i]?.join

/-- The C string at `a + i`. -/
def stringAt (a : CharArray) (i : Nat) : Option (List Byte) := scanString (a.drop i)

/-- The array after `bs` has been received and a zero stored behind it. -/
def terminated (a : CharArray) (bs : List Byte) : CharArray :=
  bs.map some ++ some 0 :: a.drop (bs.length + 1)

variable {a : CharArray} {bs : List Byte}

@[simp] theorem length_uninitialized (n : Nat) : (uninitialized n).length = n := List.length_replicate

theorem length_terminated (h : bs.length < a.length) : (a.terminated bs).length = a.length := by
  simp only [terminated, List.length_append, List.length_map, List.length_cons, List.length_drop]
  omega

theorem receive_eq_some (h : bs.length ≤ a.length) :
    a.receive bs = some (bs.map some ++ a.drop bs.length) := if_pos h

/-- A zero can be stored behind what has been received only if there is room for it. -/
theorem lt_of_store_received {b c : CharArray} (hreceive : a.receive bs = some b)
    (hstore : b.store bs.length 0 = some c) : bs.length < a.length := by
  simp only [receive, Option.ite_none_right_eq_some, Option.some.injEq] at hreceive
  simp only [store, Option.ite_none_right_eq_some] at hstore
  obtain ⟨hle, rfl⟩ := hreceive
  have hlt := hstore.1
  rw [List.length_append, List.length_map, List.length_drop] at hlt
  omega

/-- A zero behind what has been received. -/
theorem store_received (h : bs.length < a.length) :
    store (bs.map some ++ a.drop bs.length) bs.length 0 = some (a.terminated bs) := by
  have hlen : bs.length < (bs.map some ++ a.drop bs.length).length := by
    rw [List.length_append, List.length_map, List.length_drop]
    omega
  rw [store, if_pos hlen, List.set_append_right _ _ (by simp), List.length_map, Nat.sub_self,
    List.drop_eq_getElem_cons h]
  rfl

theorem load_terminated {i : Nat} (h : i < bs.length) : (a.terminated bs).load i = some bs[i] := by
  rw [load, terminated, List.getElem?_append_left (by simpa using h), List.getElem?_map,
    List.getElem?_eq_getElem h]
  rfl

/-- A string ends at the terminator, or at an earlier zero. -/
theorem scanString_append (bs : List Byte) (rest : CharArray) :
    scanString (bs.map some ++ some 0 :: rest) = some (bs.takeWhile (· ≠ 0)) := by
  induction bs with
  | nil => rfl
  | cons c bs ih =>
    rw [List.map_cons, List.cons_append, scanString]
    by_cases hc : c = 0
    · rw [if_pos hc, List.takeWhile_cons_of_neg (by simpa using hc)]
    · rw [if_neg hc, ih, List.takeWhile_cons_of_pos (by simpa using hc)]
      rfl

/-- Bytes are a string if there is a zero among them. -/
theorem scanString_map_some (bs : List Byte) :
    scanString (bs.map some) = if 0 ∈ bs then some (bs.takeWhile (· ≠ 0)) else none := by
  induction bs with
  | nil => rfl
  | cons c bs ih =>
    rw [List.map_cons, scanString, ih]
    by_cases hc : c = 0
    · simp [hc]
    · have hne : (0 : Byte) ≠ c := fun h => hc h.symm
      by_cases hbs : 0 ∈ bs
      · simp [hc, hbs]
      · simp [hc, hne, hbs]

/-- **What is printed** from position `k` on depends only on what has been received
last. -/
theorem stringAt_terminated {k : Nat} (h : k ≤ bs.length) :
    (a.terminated bs).stringAt k = some ((bs.drop k).takeWhile (· ≠ 0)) := by
  rw [stringAt, terminated, List.drop_append_of_le_length (by simpa using h), ← List.map_drop]
  exact scanString_append _ _

end CharArray
end SystemsCourse
