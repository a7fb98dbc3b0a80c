import Mathlib

/-!
# Bytes with little-endian numbers

A memory in which every address has a byte.  Numbers of `n` bytes are read and written with the
least significant byte first.  The frame rules `read_congr` and `read_write_of_disjoint` say that a
number only depends on its own bytes, and `write_of_not_mem` that a write changes nothing else.
-/

namespace HyperBerry

/-- The byte at each address. -/
abbrev Bytes := ℕ → UInt8

namespace Bytes

variable {m m' : Bytes} {a b n k v : ℕ}

/-- The number in the `n` bytes from an address on. -/
def read (m : Bytes) : ℕ → ℕ → ℕ
  | _, 0 => 0
  | a, n + 1 => (m a).toNat + 256 * read m (a + 1) n

/-- Write a number into the `n` bytes from an address on. -/
def write (m : Bytes) (a n v : ℕ) : Bytes :=
  fun i => if a ≤ i ∧ i < a + n then UInt8.ofNat (v / 256 ^ (i - a)) else m i

/-- A number of `n` bytes. -/
lemma read_lt (m : Bytes) (a n : ℕ) : read m a n < 256 ^ n := by
  induction n generalizing a with
  | zero => exact Nat.one_pos
  | succ n ih =>
    have hbyte : (m a).toNat < 256 := (m a).toNat_lt
    have hrest := ih (a + 1)
    rw [read, pow_succ]
    omega

/-- A number only depends on its bytes. -/
lemma read_congr (h : ∀ i, a ≤ i → i < a + n → m' i = m i) : read m' a n = read m a n := by
  induction n generalizing a with
  | zero => rfl
  | succ n ih =>
    rw [read, read, h a le_rfl (by omega), ih fun i hlo hhi => h i (by omega) (by omega)]

/-- A write changes nothing outside of its bytes. -/
lemma write_of_not_mem {i : ℕ} (h : ¬ (a ≤ i ∧ i < a + n)) : write m a n v i = m i := if_neg h

/-- A number elsewhere. -/
lemma read_write_of_disjoint (h : b + k ≤ a ∨ a + n ≤ b) :
    read (write m a n v) b k = read m b k :=
  read_congr fun _ hlo hhi => write_of_not_mem (by omega)

/-- The upper bytes of a number that has been written. -/
lemma read_write_add (m : Bytes) (a v j k : ℕ) :
    read (write m a (j + k) v) (a + j) k = v / 256 ^ j % 256 ^ k := by
  induction k generalizing j with
  | zero => rw [read, pow_zero, Nat.mod_one]
  | succ k ih =>
    have hbyte : (write m a (j + (k + 1)) v (a + j)).toNat = v / 256 ^ j % 256 := by
      rw [write, if_pos (by omega), Nat.add_sub_cancel_left]
      rfl
    have hrest : read (write m a (j + (k + 1)) v) (a + j + 1) k = v / 256 ^ (j + 1) % 256 ^ k := by
      rw [Nat.add_assoc a j 1, show j + (k + 1) = j + 1 + k by omega]
      exact ih (j + 1)
    rw [read, hbyte, hrest, pow_succ, ← Nat.div_div_eq_div_mul, pow_succ, Nat.mul_comm (256 ^ k),
      Nat.mod_mul]

/-- What was written is read. -/
lemma read_write (h : v < 256 ^ n) : read (write m a n v) a n = v := by
  have hread := read_write_add m a v 0 n
  rwa [Nat.zero_add, Nat.add_zero, pow_zero, Nat.div_one, Nat.mod_eq_of_lt h] at hread

end Bytes

end HyperBerry
