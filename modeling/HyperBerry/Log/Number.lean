import HyperBerry.Lib.Memory
import HyperBerry.Lib.Numeral

/-!
# Rendering numbers

A model of the number writers of `lib/log/log.h`.  A writer is what it writes, a list of characters.
The digit loops fill a buffer on the stack and fail when they overrun it; signed arithmetic fails
when it overflows.
-/

namespace HyperBerry

namespace Log

open Numeral

/-! ## The writers -/

/-- A character of the source. -/
def ch (c : Char) : UInt8 := UInt8.ofNat c.toNat

/-- `hex`. -/
def hex : List UInt8 := ascii "0123456789ABCDEF"

/-- The loop that fills a buffer with the given room: each pass writes a digit and goes on with the
rest of the value.  `none` when the buffer is overrun. -/
def fillLoop (digit : UInt64 → UInt8) (next : UInt64 → UInt64) : ℕ → UInt64 → Option (List UInt8)
  | room, value =>
    if value = 0 then some []
    else
      match room with
      | 0 => none
      | room + 1 => (fillLoop digit next room (next value)).map (digit value :: ·)

/-- Write an unsigned number in decimal; the buffer has twenty characters and is written out from
its end. -/
def writeUnsignedDecimal (value : UInt64) : Option (List UInt8) :=
  if value = 0 then some [ch '0']
  else
    (fillLoop (fun value => (UInt64.ofNat '0'.toNat + value % 10).toUInt8) (· / 10) 20 value).map
      List.reverse

/-- The value of a signed 64-bit expression; `none` when it overflows. -/
def signed (v : ℤ) : Option ℤ := if -2 ^ 63 ≤ v ∧ v < 2 ^ 63 then some v else none

/-- The conversion to an unsigned number. -/
def toUnsigned (v : ℤ) : UInt64 := UInt64.ofNat (v % 2 ^ 64).toNat

/-- Write a signed number in decimal. -/
def writeSignedDecimal (value : Int64) : Option (List UInt8) :=
  if value.toInt < 0 then do
    let sum ← signed (value.toInt + 1)
    let negated ← signed (-sum)
    let magnitude := toUnsigned negated + 1
    let digits ← writeUnsignedDecimal magnitude
    pure (ch '-' :: digits)
  else writeUnsignedDecimal (toUnsigned value.toInt)

/-- Write an unsigned number in hexadecimal behind `0x`; the buffer has sixteen characters. -/
def writeUnsignedHex (value : UInt64) : Option (List UInt8) := do
  let digits ←
    if value = 0 then some [ch '0']
    else
      (fillLoop (fun value => hex.getD (value &&& 0xF).toNat 0) (· >>> 4) 16 value).map List.reverse
  pure (ascii "0x" ++ digits)

/-! ## What they write -/

/-- The character of a digit. -/
def digitChar (d : ℕ) : UInt8 := hex.getD d 0

/-- The digit of a character. -/
def digitValue (c : UInt8) : Option ℕ :=
  if ch '0' ≤ c ∧ c ≤ ch '9' then some (c.toNat - '0'.toNat)
  else if ch 'A' ≤ c ∧ c ≤ ch 'F' then some (c.toNat - 'A'.toNat + 10)
  else none

/-- Read a decimal number with its sign. -/
def parseSigned : List UInt8 → Option ℤ
  | [] => none
  | c :: s =>
    if c = ch '-' then (parse digitValue 10 s).map fun n : ℕ => -(n : ℤ)
    else (parse digitValue 10 (c :: s)).map fun n : ℕ => (n : ℤ)

/-- Every digit reads back. -/
lemma digitValue_digitChar : ∀ d < 16, digitValue (digitChar d) = some d := by decide

/-- The digit loop is that of the library, if its passes divide by the base. -/
lemma fillLoop_eq {digit : UInt64 → UInt8} {next : UInt64 → UInt64} {base : ℕ}
    (hdigit : ∀ v, digit v = digitChar (v.toNat % base))
    (hnext : ∀ v, (next v).toNat = v.toNat / base) (room : ℕ) (value : UInt64) :
    fillLoop digit next room value = fill digitChar base room value.toNat := by
  induction room generalizing value with
  | zero =>
    rw [fillLoop, fill]
    exact if_congr UInt64.toNat_inj.symm rfl rfl
  | succ room ih =>
    rw [fillLoop, fill]
    refine if_congr UInt64.toNat_inj.symm rfl ?_
    simp only [ih, hdigit, hnext]

/-- The decimal digit of a pass. -/
lemma decimal_digit (v : UInt64) :
    (UInt64.ofNat '0'.toNat + v % 10).toUInt8 = digitChar (v.toNat % 10) := by
  have hdigits : ∀ d < 10, (UInt64.ofNat '0'.toNat + UInt64.ofNat d).toUInt8 = digitChar d := by
    decide
  have hlt : v.toNat % 10 < 10 := Nat.mod_lt _ (by norm_num)
  have hmod : v % 10 = UInt64.ofNat (v.toNat % 10) := by
    rw [← UInt64.toNat_inj, UInt64.toNat_mod,
      UInt64.toNat_ofNat_of_lt' (hlt.trans (by decide))]
    rfl
  rw [hmod]
  exact hdigits _ hlt

/-- The hexadecimal digit of a pass. -/
lemma hex_digit (v : UInt64) : hex.getD (v &&& 0xF).toNat 0 = digitChar (v.toNat % 16) := by
  rw [digitChar, UInt64.toNat_and]
  exact congrArg (hex.getD · 0) (Nat.and_two_pow_sub_one_eq_mod v.toNat 4)

/-- `WriteUnsignedDecimal` writes the numeral. -/
lemma writeUnsignedDecimal_eq (value : UInt64) :
    ∃ s, writeUnsignedDecimal value = some s ∧ IsNumeral digitValue 10 s value.toNat := by
  have hdigit : ∀ d < 10, digitValue (digitChar d) = some d := fun d hd =>
    digitValue_digitChar d (by omega)
  rw [writeUnsignedDecimal]
  by_cases hzero : value = 0
  · rw [if_pos hzero, hzero]
    exact ⟨_, rfl, isNumeral_zero digitChar (by norm_num) (hdigit 0 (by norm_num))⟩
  · have hroom : value.toNat < 10 ^ 20 := value.toNat_lt.trans (by norm_num)
    rw [if_neg hzero, fillLoop_eq decimal_digit (fun v => UInt64.toNat_div v 10),
      fill_eq (by norm_num) hroom]
    refine ⟨_, rfl, isNumeral_reverse (by norm_num) hdigit fun h => hzero ?_⟩
    exact UInt64.toNat_inj.mp h

/-- `WriteUnsignedHex` writes the numeral behind `0x`. -/
lemma writeUnsignedHex_eq (value : UInt64) :
    ∃ s, writeUnsignedHex value = some (ascii "0x" ++ s) ∧
      IsNumeral digitValue 16 s value.toNat := by
  rw [writeUnsignedHex]
  by_cases hzero : value = 0
  · rw [if_pos hzero, hzero]
    exact ⟨_, rfl, isNumeral_zero digitChar (by norm_num)
      (digitValue_digitChar 0 (by norm_num))⟩
  · have hroom : value.toNat < 16 ^ 16 := value.toNat_lt.trans_le (by norm_num)
    have hnext (v : UInt64) : (v >>> 4).toNat = v.toNat / 16 := by
      rw [UInt64.toNat_shiftRight, Nat.shiftRight_eq_div_pow]
      rfl
    rw [if_neg hzero, fillLoop_eq hex_digit hnext, fill_eq (by norm_num) hroom]
    refine ⟨_, rfl, isNumeral_reverse (by norm_num) digitValue_digitChar fun h => hzero ?_⟩
    exact UInt64.toNat_inj.mp h

/-- A minus is no digit. -/
lemma digitValue_minus : digitValue (ch '-') = none := by decide

/-- A numeral reads as a signed number that is not negative. -/
lemma parseSigned_numeral {s : List UInt8} {n : ℕ} (h : IsNumeral digitValue 10 s n) :
    parseSigned s = some (n : ℤ) := by
  cases s with
  | nil => exact absurd rfl h.ne_nil
  | cons c s =>
    have hc : c ≠ ch '-' := by
      rintro rfl
      have hparse := h.parse_eq
      simp [parse, digitValue_minus] at hparse
    rw [parseSigned, if_neg hc, h.parse_eq]
    rfl

/-- The magnitude of a negative number, as it is computed. -/
lemma toUnsigned_neg {v : ℤ} (hneg : v < 0) (hmin : -2 ^ 63 ≤ v) :
    (toUnsigned (-(v + 1)) + 1).toNat = v.natAbs := by
  rw [toUnsigned, UInt64.toNat_add, UInt64.toNat_ofNat']
  simp only [UInt64.toNat_one]
  omega

/-- `WriteSignedDecimal` writes the sign and the numeral. -/
lemma writeSignedDecimal_eq (value : Int64) :
    ∃ s, IsNumeral digitValue 10 s value.toInt.natAbs ∧
      writeSignedDecimal value = some (if value.toInt < 0 then ch '-' :: s else s) ∧
      parseSigned (if value.toInt < 0 then ch '-' :: s else s) = some value.toInt := by
  have hmin := value.le_toInt
  have hmax := value.toInt_lt
  rw [writeSignedDecimal]
  by_cases hneg : value.toInt < 0
  · have hsum : signed (value.toInt + 1) = some (value.toInt + 1) := if_pos ⟨by omega, by omega⟩
    have hnegated : signed (-(value.toInt + 1)) = some (-(value.toInt + 1)) :=
      if_pos ⟨by omega, by omega⟩
    obtain ⟨s, hs, hnumeral⟩ := writeUnsignedDecimal_eq (toUnsigned (-(value.toInt + 1)) + 1)
    rw [toUnsigned_neg hneg hmin] at hnumeral
    simp only [if_pos hneg, hsum, hnegated, hs, Option.bind_eq_bind, Option.bind_some]
    refine ⟨s, hnumeral, rfl, ?_⟩
    rw [parseSigned, if_pos rfl, hnumeral.parse_eq, Option.map_some, Option.some.injEq]
    omega
  · obtain ⟨s, hs, hnumeral⟩ := writeUnsignedDecimal_eq (toUnsigned value.toInt)
    have hvalue : (toUnsigned value.toInt).toNat = value.toInt.natAbs := by
      rw [toUnsigned, UInt64.toNat_ofNat']
      omega
    rw [hvalue] at hnumeral
    simp only [if_neg hneg]
    refine ⟨s, hnumeral, hs, ?_⟩
    rw [parseSigned_numeral hnumeral, Option.some.injEq]
    omega

/-- Every number is rendered as its canonical numeral: no buffer is overrun and no signed expression
overflows, the numeral has no leading zero, and it reads back as the number. -/
theorem numbers_are_canonical :
    (∀ value : UInt64, ∃ s, writeUnsignedDecimal value = some s ∧
      IsNumeral digitValue 10 s value.toNat) ∧
    (∀ value : UInt64, ∃ s, writeUnsignedHex value = some (ascii "0x" ++ s) ∧
      IsNumeral digitValue 16 s value.toNat) ∧
    ∀ value : Int64, ∃ s, IsNumeral digitValue 10 s value.toInt.natAbs ∧
      writeSignedDecimal value = some (if value.toInt < 0 then ch '-' :: s else s) ∧
      parseSigned (if value.toInt < 0 then ch '-' :: s else s) = some value.toInt :=
  ⟨writeUnsignedDecimal_eq, writeUnsignedHex_eq, writeSignedDecimal_eq⟩

/-- The least signed number. -/
example : writeSignedDecimal Int64.minValue = some (ascii "-9223372036854775808") := by
  decide +kernel

end Log

end HyperBerry
