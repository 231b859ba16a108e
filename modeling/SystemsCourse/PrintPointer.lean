import Mathlib.Data.Nat.Digits.Lemmas
import Mathlib.Tactic.Ring
import SystemsCourse.TargetWriter

/-!
# `printptr`: a pointer in decimal

`printptr` of `brk_example.c` writes a 64-bit number digit by digit, from a scale
that `findMaxPowOf10` finds: one factor ten for each digit of the number.  The
arithmetic is that of `uint64_t`, modulo 2^64.

As long as the scale is a true power of ten, the digits are those of the number
(`digitLoop_spec`).  For a number of twenty digits the scale is ten to the
twentieth modulo 2^64, a number of nineteen digits; and how many characters are
written depends on the scale alone (`length_digitLoop`).
-/
namespace SystemsCourse

/-! ## The code -/

/-- What a division by ten leaves is smaller. -/
theorem toNat_div_ten (num : UInt64) : (num / 10).toNat = num.toNat / 10 := UInt64.toNat_div _ _

theorem toNat_div_ten_lt {num : UInt64} (h : num ≠ 0) : (num / 10).toNat < num.toNat := by
  rw [toNat_div_ten]
  exact Nat.div_lt_self (Nat.pos_of_ne_zero fun h0 => h (UInt64.toNat_inj.mp h0)) (by decide)

/-- The loop of `findMaxPowOf10`. -/
def maxPowLoop (rval num : UInt64) : UInt64 :=
  if h : num = 0 then rval else maxPowLoop (rval * 10) (num / 10)
termination_by num.toNat
decreasing_by exact toNat_div_ten_lt h

/-- `findMaxPowOf10`. -/
def findMaxPowOf10 (num : UInt64) : UInt64 := maxPowLoop 1 num

/-- The loop of `printptr`, as the characters it writes. -/
def digitLoop (num pow10 : UInt64) : List Byte :=
  if h : pow10 = 0 then []
  else
    let digit := num / pow10
    (digit + (ch '0').toUInt64).toUInt8 :: digitLoop (num - digit * pow10) (pow10 / 10)
termination_by pow10.toNat
decreasing_by exact toNat_div_ten_lt h

/-- `printptr`, as the characters it writes. -/
def printptr (p : UInt64) : List Byte := digitLoop p (findMaxPowOf10 p) ++ [ch '\n']

/-! ## The value of a numeral -/

theorem foldl_decimalValue (ds : List Byte) (v : Nat) :
    ds.foldl (fun v d => 10 * v + (d - ch '0').toNat) v = v * 10 ^ ds.length + decimalValue ds := by
  induction ds generalizing v with
  | nil => simp [decimalValue]
  | cons d ds ih =>
    rw [decimalValue, List.foldl_cons, List.foldl_cons, ih, ih (10 * 0 + _), List.length_cons, pow_succ]
    ring

theorem decimalValue_cons (d : Byte) (ds : List Byte) :
    decimalValue (d :: ds) = (d - ch '0').toNat * 10 ^ ds.length + decimalValue ds := by
  rw [decimalValue, List.foldl_cons, foldl_decimalValue, Nat.mul_zero, Nat.zero_add]

theorem digit_le {d : Byte} (h : isdigit d) : (d - ch '0').toNat ≤ 9 := by
  obtain ⟨hlow, hhigh⟩ : ch '0' ≤ d ∧ d ≤ ch '9' := by simpa [isdigit] using h
  rw [UInt8.toNat_sub_of_le _ _ hlow]
  have : d.toNat ≤ (ch '9').toNat := hhigh
  have h9 : (ch '9').toNat = 57 := rfl
  have h0 : (ch '0').toNat = 48 := rfl
  omega

/-- A numeral of `n` digits is less than ten to the `n`. -/
theorem decimalValue_lt {ds : List Byte} (h : ∀ d ∈ ds, isdigit d) :
    decimalValue ds < 10 ^ ds.length := by
  induction ds with
  | nil => decide
  | cons d ds ih =>
    have hd := digit_le (h d List.mem_cons_self)
    have hds := ih fun c hc => h c (List.mem_cons_of_mem _ hc)
    have hmul := Nat.mul_le_mul_right (10 ^ ds.length) hd
    rw [decimalValue_cons, List.length_cons, pow_succ]
    omega

/-! ## The loops -/

/-- **The scale has one factor ten for each digit.** -/
theorem maxPowLoop_eq (rval num : UInt64) :
    (maxPowLoop rval num).toNat = rval.toNat * 10 ^ (Nat.digits 10 num.toNat).length % 2 ^ 64 := by
  induction rval, num using maxPowLoop.induct with
  | case1 rval =>
    rw [maxPowLoop, dif_pos rfl]
    simp
  | case2 rval num h ih =>
    have hpos : 0 < num.toNat := Nat.pos_of_ne_zero fun h0 => h (UInt64.toNat_inj.mp h0)
    rw [maxPowLoop, dif_neg h, ih, toNat_div_ten, Nat.digits_def' (by decide) hpos, List.length_cons,
      UInt64.toNat_mul, Nat.mod_mul_mod, Nat.mul_assoc, pow_succ' 10]
    rfl

/-- One character is written for each digit of the scale. -/
theorem length_digitLoop (num pow10 : UInt64) :
    (digitLoop num pow10).length = (Nat.digits 10 pow10.toNat).length := by
  induction num, pow10 using digitLoop.induct with
  | case1 num =>
    rw [digitLoop, dif_pos rfl]
    simp
  | case2 num pow10 h digit ih =>
    have hpos : 0 < pow10.toNat := Nat.pos_of_ne_zero fun h0 => h (UInt64.toNat_inj.mp h0)
    rw [digitLoop, dif_neg h, List.length_cons, ih, toNat_div_ten, Nat.digits_def' (by decide) hpos,
      List.length_cons]

/-! ## A true power of ten -/

theorem digit_char {digit : UInt64} (h : digit.toNat < 10) :
    isdigit (digit + (ch '0').toUInt64).toUInt8 ∧
      ((digit + (ch '0').toUInt64).toUInt8 - ch '0').toNat = digit.toNat := by
  have hall : ∀ d < 10, isdigit (UInt64.ofNat d + (ch '0').toUInt64).toUInt8 ∧
      ((UInt64.ofNat d + (ch '0').toUInt64).toUInt8 - ch '0').toNat = d := by
    decide
  simpa using hall digit.toNat h

/-- The digit at the scale `pow10`, and what is left of the number. -/
theorem toNat_rest {num pow10 : UInt64} :
    (num - num / pow10 * pow10).toNat = num.toNat % pow10.toNat := by
  have hle : num.toNat / pow10.toNat * pow10.toNat ≤ num.toNat := Nat.div_mul_le_self _ _
  have hmul : (num / pow10 * pow10).toNat = num.toNat / pow10.toNat * pow10.toNat := by
    rw [UInt64.toNat_mul, UInt64.toNat_div, Nat.mod_eq_of_lt (Nat.lt_of_le_of_lt hle num.toNat_lt)]
  rw [UInt64.toNat_sub_of_le _ _ (UInt64.le_iff_toNat_le.mpr (hmul ▸ hle)), hmul, Nat.mod_eq_sub_div_mul]

/-- **From a true power of ten** on, the `n` digits that are written are those of the
number. -/
theorem digitLoop_spec (n : Nat) {num pow10 : UInt64} (hpow : pow10.toNat = 10 ^ n / 10)
    (hnum : num.toNat < 10 ^ n) : (digitLoop num pow10).length = n ∧
      (∀ c ∈ digitLoop num pow10, isdigit c) ∧ decimalValue (digitLoop num pow10) = num.toNat := by
  induction n generalizing num pow10 with
  | zero =>
    obtain rfl : pow10 = 0 := UInt64.toNat_inj.mp hpow
    rw [digitLoop, dif_pos rfl]
    exact ⟨rfl, nofun, (Nat.lt_one_iff.mp hnum).symm⟩
  | succ n ih =>
    have hpow' : pow10.toNat = 10 ^ n := by rw [hpow, pow_succ, Nat.mul_div_cancel _ (by decide)]
    have hne : pow10 ≠ 0 := by
      intro h0
      rw [h0] at hpow'
      exact absurd hpow'.symm (Nat.pos_iff_ne_zero.mp (Nat.pow_pos (by decide)))
    have hdigit : (num / pow10).toNat = num.toNat / 10 ^ n := by rw [UInt64.toNat_div, hpow']
    have hrest : (num - num / pow10 * pow10).toNat = num.toNat % 10 ^ n := by rw [toNat_rest, hpow']
    have hdigit_lt : (num / pow10).toNat < 10 := by
      rw [hdigit]
      exact Nat.div_lt_of_lt_mul (by rwa [pow_succ] at hnum)
    have hrest_lt : (num - num / pow10 * pow10).toNat < 10 ^ n := by
      rw [hrest]
      exact Nat.mod_lt _ (Nat.pow_pos (by decide))
    have hnext : (pow10 / 10).toNat = 10 ^ n / 10 := by rw [toNat_div_ten, hpow']
    obtain ⟨hlength, hdigits, hvalue⟩ := ih hnext hrest_lt
    obtain ⟨hchar, hcharValue⟩ := digit_char hdigit_lt
    rw [digitLoop, dif_neg hne]
    refine ⟨congrArg (· + 1) hlength, ?_, ?_⟩
    · intro c hc
      rcases List.mem_cons.mp hc with rfl | hc
      · exact hchar
      · exact hdigits c hc
    · rw [decimalValue_cons, hlength, hvalue, hcharValue, hdigit, hrest]
      exact Nat.div_add_mod' _ _

/-! ## What is printed -/

/-- `ds` is a numeral of the number `v`; it may begin with zeros. -/
structure IsNumeral (ds : List Byte) (v : Nat) : Prop where
  nonempty : ds ≠ []
  digits : ∀ d ∈ ds, isdigit d
  value : decimalValue ds = v

/-- Up to nineteen digits the scale does not wrap around. -/
theorem isNumeral_of_lt {v : UInt64} (h : v.toNat < 10 ^ 19) :
    IsNumeral (digitLoop v (findMaxPowOf10 v)) v.toNat := by
  have hlen : (Nat.digits 10 v.toNat).length ≤ 19 := (Nat.digits_length_le_iff (by decide) _).mpr h
  have hscale : (findMaxPowOf10 v).toNat = 10 ^ ((Nat.digits 10 v.toNat).length + 1) / 10 := by
    have hlt : 10 ^ (Nat.digits 10 v.toNat).length < 2 ^ 64 :=
      Nat.lt_of_le_of_lt (Nat.pow_le_pow_right (by decide) hlen) (by decide)
    rw [findMaxPowOf10, maxPowLoop_eq, Nat.pow_succ 10, Nat.mul_div_cancel _ (by decide)]
    simpa using Nat.mod_eq_of_lt hlt
  have hlt : v.toNat < 10 ^ ((Nat.digits 10 v.toNat).length + 1) :=
    Nat.lt_trans (Nat.lt_base_pow_length_digits (by decide))
      (Nat.pow_lt_pow_right (by decide) (Nat.lt_succ_self _))
  obtain ⟨hlength, hdigits, hvalue⟩ := digitLoop_spec _ hscale hlt
  refine ⟨fun hnil => ?_, hdigits, hvalue⟩
  rw [hnil] at hlength
  cases hlength

/-- A number of twenty digits is written with nineteen characters. -/
theorem length_digitLoop_of_le {v : UInt64} (h : 10 ^ 19 ≤ v.toNat) :
    (digitLoop v (findMaxPowOf10 v)).length = 19 := by
  have hlen : (Nat.digits 10 v.toNat).length = 20 := by
    have hlow : ¬ (Nat.digits 10 v.toNat).length ≤ 19 :=
      mt (Nat.digits_length_le_iff (by decide) _).mp (Nat.not_lt.mpr h)
    have hhigh : (Nat.digits 10 v.toNat).length ≤ 20 :=
      (Nat.digits_length_le_iff (by decide) _).mpr (Nat.lt_trans v.toNat_lt (by decide))
    omega
  have hscale : (findMaxPowOf10 v).toNat = 7766279631452241920 := by
    rw [findMaxPowOf10, maxPowLoop_eq, hlen]
    rfl
  rw [length_digitLoop, hscale]
  norm_num

theorem not_isNumeral_of_le {v : UInt64} (h : 10 ^ 19 ≤ v.toNat) :
    ¬ IsNumeral (digitLoop v (findMaxPowOf10 v)) v.toNat := by
  intro hnumeral
  have hlt := decimalValue_lt hnumeral.digits
  rw [hnumeral.value, length_digitLoop_of_le h] at hlt
  exact absurd hlt (Nat.not_lt.mpr h)

/-- **`printptr` prints the value of its pointer if and only if** the value has at
most nineteen digits. -/
theorem printptr_prints_iff (v : UInt64) :
    (∃ ds, printptr v = ds ++ [ch '\n'] ∧ IsNumeral ds v.toNat) ↔ v.toNat < 10 ^ 19 := by
  constructor
  · intro h
    obtain ⟨ds, hds, hnumeral⟩ := h
    obtain rfl : digitLoop v (findMaxPowOf10 v) = ds := List.append_cancel_right hds
    by_contra hge
    exact not_isNumeral_of_le (Nat.not_lt.mp hge) hnumeral
  · intro h
    exact ⟨_, rfl, isNumeral_of_lt h⟩

/-- **`(void *)-1` is not printed**: nineteen characters cannot be its value. -/
theorem not_prints_minus_one : ¬ ∃ ds, printptr (-1) = ds ++ [ch '\n'] ∧
    IsNumeral ds (-1 : UInt64).toNat := by
  intro h
  obtain ⟨ds, hds, hnumeral⟩ := h
  obtain rfl : digitLoop (-1) (findMaxPowOf10 (-1)) = ds := List.append_cancel_right hds
  exact not_isNumeral_of_le (by decide) hnumeral

end SystemsCourse
