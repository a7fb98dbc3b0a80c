import Mathlib

/-!
# Numerals

A numeral writes a number in a base, most significant digit first, without leading zeros.  The
symbols are those of an arbitrary alphabet: `digit` gives the symbol of a digit and `value` reads
one back.

`fill` is the usual loop that writes the digits into a buffer of bounded size, the least significant
first; it fails when the buffer is too small, and with enough room leaves the digits of the number
(`fill_eq`).  Read backwards they are a numeral (`isNumeral_reverse`).
-/

namespace HyperBerry

namespace Numeral

variable {α : Type*}

/-- Read digits, most significant first. -/
def parse (value : α → Option ℕ) (base : ℕ) (s : List α) : Option ℕ :=
  s.foldlM (fun n c => (value c).bind fun d => if d < base then some (base * n + d) else none) 0

/-- The canonical way to write a number: it reads back, and has no leading zero unless it is the one
digit zero. -/
structure IsNumeral (value : α → Option ℕ) (base : ℕ) (s : List α) (n : ℕ) : Prop where
  /-- The numeral reads back as the number. -/
  parse_eq : parse value base s = some n
  /-- There is a digit. -/
  ne_nil : s ≠ []
  /-- A leading zero is the only digit. -/
  head : ∀ c ∈ s.head?, value c = some 0 → s.length = 1

/-- Write the digits of a number into a buffer with the given room, least significant first; `none`
when the buffer is overrun. -/
def fill (digit : ℕ → α) (base : ℕ) : ℕ → ℕ → Option (List α)
  | room, n =>
    if n = 0 then some []
    else
      match room with
      | 0 => none
      | room + 1 => (fill digit base room (n / base)).map (digit (n % base) :: ·)

variable {digit : ℕ → α} {value : α → Option ℕ} {base n : ℕ}

/-- A buffer that is large enough holds the digits. -/
lemma fill_eq (hbase : 1 < base) {room : ℕ} (h : n < base ^ room) :
    fill digit base room n = some ((Nat.digits base n).map digit) := by
  induction room generalizing n with
  | zero =>
    obtain rfl : n = 0 := by simpa using h
    rw [fill, if_pos rfl, Nat.digits_zero, List.map_nil]
  | succ room ih =>
    rw [fill]
    by_cases hzero : n = 0
    · rw [if_pos hzero, hzero, Nat.digits_zero, List.map_nil]
    · have hrest : n / base < base ^ room := by
        rw [Nat.div_lt_iff_lt_mul (by omega), ← pow_succ]
        exact h
      rw [if_neg hzero, Nat.digits_def' hbase (Nat.pos_of_ne_zero hzero), List.map_cons]
      simp only [ih hrest, Option.map_some]

/-- One more digit. -/
lemma parse_append (s : List α) (c : α) :
    parse value base (s ++ [c]) = (parse value base s).bind fun n =>
      (value c).bind fun d => if d < base then some (base * n + d) else none := by
  rw [parse, List.foldlM_append, ← parse]
  cases parse value base s with
  | none => rfl
  | some n => simp

/-- The digits of a number, most significant first, read back. -/
lemma parse_digits (hbase : 1 < base) (hdigit : ∀ d < base, value (digit d) = some d) (n : ℕ) :
    parse value base ((Nat.digits base n).map digit).reverse = some n := by
  induction n using Nat.strong_induction_on with
  | _ n ih =>
    by_cases hzero : n = 0
    · rw [hzero, Nat.digits_zero]
      rfl
    · have hpos := Nat.pos_of_ne_zero hzero
      have hmod : n % base < base := Nat.mod_lt _ (by omega)
      rw [Nat.digits_def' hbase hpos, List.map_cons, List.reverse_cons, parse_append,
        ih _ (Nat.div_lt_self hpos hbase), Option.bind_some, hdigit _ hmod, Option.bind_some,
        if_pos hmod, Nat.div_add_mod]

/-- The digits of a number that is not zero, most significant first, are its numeral. -/
lemma isNumeral_reverse (hbase : 1 < base) (hdigit : ∀ d < base, value (digit d) = some d)
    (hn : n ≠ 0) : IsNumeral value base ((Nat.digits base n).map digit).reverse n where
  parse_eq := parse_digits hbase hdigit n
  ne_nil := by simpa [Nat.digits_ne_nil_iff_ne_zero] using hn
  head c hc hzero := by
    -- the most significant digit is not zero
    have hne : Nat.digits base n ≠ [] := Nat.digits_ne_nil_iff_ne_zero.mpr hn
    rw [List.head?_reverse, List.getLast?_map, List.getLast?_eq_some_getLast hne, Option.map_some,
      Option.mem_some_iff] at hc
    have hlt := Nat.digits_lt_base hbase (List.getLast_mem hne)
    rw [← hc, hdigit _ hlt, Option.some.injEq] at hzero
    exact absurd hzero (Nat.getLast_digit_ne_zero base hn)

/-- The one digit zero is the numeral of zero. -/
lemma isNumeral_zero (digit : ℕ → α) (hbase : 1 < base) (hzero : value (digit 0) = some 0) :
    IsNumeral value base [digit 0] 0 where
  parse_eq := by
    have hpos : 0 < base := by omega
    simp [parse, hzero, hpos]
  ne_nil := List.cons_ne_nil _ _
  head _ _ _ := rfl

end Numeral

end HyperBerry
