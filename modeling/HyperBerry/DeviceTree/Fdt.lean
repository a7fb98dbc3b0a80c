import HyperBerry.Lib.Memory
import HyperBerry.Lib.Word

/-!
# The on-wire format of a flattened device tree

A model of `core/deviceTree/fdt.h`, with the accesses to memory that the walkers of the structure
block are made of.  An access to an address without a byte ends the program with `Halt.fault`, so a
program that runs to its end has only read bytes that are there.

The second half says what each of these functions computes from the bytes in memory.
-/

namespace HyperBerry

/-- How a program ends other than by returning. -/
inductive Halt
  /-- `HvPanic`. -/
  | panic (message : String)
  /-- An access to an address without a byte. -/
  | fault (addr : ℕ)
  /-- A loop that does not end. -/
  | hang
deriving DecidableEq

namespace DeviceTree

open Memory

/-! ## Tokens and header -/

/-- The tokens of the structure block. -/
inductive FDT
  | beginNode
  | endNode
  | prop
  | nop
  | finish
deriving DecidableEq

/-- The token that a word stands for. -/
def FDT.ofWord : ℕ → Option FDT
  | 1 => some .beginNode
  | 2 => some .endNode
  | 3 => some .prop
  | 4 => some .nop
  | 9 => some .finish
  | _ => none

/-- `FDT::MAGIC`. -/
def fdtMagic : ℕ := 0xD00DFEED

/-- `sizeof(FdtHeader)`. -/
def fdtHeaderSize : ℕ := 40

/-- The header fields that are read. -/
inductive HeaderField
  | magic
  | totalSize
  | structOff
  | stringsOff
  | memRsvMapOff
  | sizeStrings
  | sizeStructs
deriving DecidableEq

/-- The offset of a field in `FdtHeader`. -/
def HeaderField.offset : HeaderField → ℕ
  | .magic => 0
  | .totalSize => 4
  | .structOff => 8
  | .stringsOff => 12
  | .memRsvMapOff => 16
  | .sizeStrings => 32
  | .sizeStructs => 36

/-! ## Access to memory -/

/-- Read a byte. -/
def load8 (m : Memory) (a : ℕ) : Except Halt UInt8 :=
  match m a with
  | some x => .ok x
  | none => .error (.fault a)

/-- Read a little-endian 32-bit word. -/
def load32 (m : Memory) (a : ℕ) : Except Halt ℕ := do
  let x ← load8 m a
  let y ← load8 m (add64 a 1)
  let z ← load8 m (add64 a 2)
  let w ← load8 m (add64 a 3)
  pure (x.toNat + y.toNat * 2 ^ 8 + z.toNat * 2 ^ 16 + w.toNat * 2 ^ 24)

/-- `Be32`: reverse the bytes of a word. -/
def be32 (v : ℕ) : ℕ :=
  v % 2 ^ 8 * 2 ^ 24 + v / 2 ^ 8 % 2 ^ 8 * 2 ^ 16 + v / 2 ^ 16 % 2 ^ 8 * 2 ^ 8 + v / 2 ^ 24 % 2 ^ 8

/-- Read a word and convert it to host endianness. -/
def loadBe32 (m : Memory) (a : ℕ) : Except Halt ℕ := do
  let v ← load32 m a
  pure (be32 v)

/-- Read a header field. -/
def header (m : Memory) (dtb : ℕ) (field : HeaderField) : Except Halt ℕ :=
  loadBe32 m (add64 dtb field.offset)

/-- `FdtAlign`: advance past `bytes` and round up to the next 32-bit boundary. -/
def fdtAlign (ptr bytes : ℕ) : ℕ := add64 (add64 ptr bytes) 3 &&& not64 3

/-- The loops `while (i < n && p[i] != 0) ++i`, from address `a` on: the number of bytes before the
first NUL, at most `n`. -/
def nulIndex (m : Memory) : ℕ → ℕ → Except Halt ℕ
  | _, 0 => .ok 0
  | a, n + 1 => do
    let x ← load8 m a
    if x = 0 then pure 0
    else
      let i ← nulIndex m (add64 a 1) n
      pure (i + 1)

/-! ## What they compute -/

variable {m : Memory} {a n v : ℕ} {xs : List UInt8}

/-- Round up to a multiple of four. -/
def roundUp4 (a : ℕ) : ℕ := (a + 3) / 4 * 4

/-- A computation that starts with another one returns when both do. -/
@[simp] lemma bind_eq_ok {ε β γ : Type} {x : Except ε β} {f : β → Except ε γ} {r : γ} :
    x >>= f = .ok r ↔ ∃ y, x = .ok y ∧ f y = .ok r := by
  constructor
  · intro h
    cases x with
    | error e => cases h
    | ok y => exact ⟨y, rfl, h⟩
  · rintro ⟨y, rfl, h⟩
    exact h

/-- The computation after one that has returned. -/
lemma ok_bind {ε β γ : Type} (y : β) (f : β → Except ε γ) : (Except.ok y >>= f) = f y := rfl

/-- Reading a byte. -/
lemma load8_eq_ok {x : UInt8} : load8 m a = .ok x ↔ m a = some x := by
  rw [load8]
  cases m a <;> simp

/-- Rounding without overflow. -/
lemma fdtAlign_eq {ptr bytes : ℕ} (h : ptr + bytes + 3 < 2 ^ 64) :
    fdtAlign ptr bytes = roundUp4 (ptr + bytes) := by
  have hmask := and_not64_two_pow_sub_one (k := 2) h (by norm_num)
  have hsum : ptr + bytes < 2 ^ 64 := by omega
  rw [fdtAlign, add64_of_lt hsum, add64_of_lt h]
  exact hmask

/-- Reading a little-endian word: its bytes lie at the address. -/
lemma load32_eq_ok (ha : a + 4 ≤ 2 ^ 64) :
    load32 m a = .ok v ↔ ∃ x y z w : UInt8, HasBytes m a [x, y, z, w] ∧
      x.toNat + y.toNat * 2 ^ 8 + z.toNat * 2 ^ 16 + w.toNat * 2 ^ 24 = v := by
  have h1 : add64 a 1 = a + 1 := add64_of_lt (by omega)
  have h2 : add64 a 2 = a + 1 + 1 := add64_of_lt (by omega)
  have h3 : add64 a 3 = a + 1 + 1 + 1 := add64_of_lt (by omega)
  rw [load32, h1, h2, h3]
  simp only [bind_eq_ok, load8_eq_ok, hasBytes_cons, hasBytes_nil, and_true]
  constructor
  · rintro ⟨x, hx, y, hy, z, hz, w, hw, hv⟩
    cases hv
    exact ⟨x, y, z, w, ⟨hx, hy, hz, hw⟩, rfl⟩
  · rintro ⟨x, y, z, w, ⟨hx, hy, hz, hw⟩, rfl⟩
    exact ⟨x, hx, y, hy, z, hz, w, hw, rfl⟩

/-- Reversing the bytes of a little-endian word gives the big-endian one. -/
lemma be32_eq_beNat (x y z w : UInt8) :
    be32 (x.toNat + y.toNat * 2 ^ 8 + z.toNat * 2 ^ 16 + w.toNat * 2 ^ 24) =
      beNat [x, y, z, w] := by
  have hx := x.toNat_lt
  have hy := y.toNat_lt
  have hz := z.toNat_lt
  have hw := w.toNat_lt
  have h8 : (x.toNat + y.toNat * 2 ^ 8 + z.toNat * 2 ^ 16 + w.toNat * 2 ^ 24) / 2 ^ 8 =
      y.toNat + z.toNat * 2 ^ 8 + w.toNat * 2 ^ 16 := by omega
  have h16 : (x.toNat + y.toNat * 2 ^ 8 + z.toNat * 2 ^ 16 + w.toNat * 2 ^ 24) / 2 ^ 16 =
      z.toNat + w.toNat * 2 ^ 8 := by omega
  have h24 : (x.toNat + y.toNat * 2 ^ 8 + z.toNat * 2 ^ 16 + w.toNat * 2 ^ 24) / 2 ^ 24 =
      w.toNat := by omega
  have hx8 : (x.toNat + y.toNat * 2 ^ 8 + z.toNat * 2 ^ 16 + w.toNat * 2 ^ 24) % 2 ^ 8 =
      x.toNat := by omega
  have hy8 : (y.toNat + z.toNat * 2 ^ 8 + w.toNat * 2 ^ 16) % 2 ^ 8 = y.toNat := by omega
  have hz8 : (z.toNat + w.toNat * 2 ^ 8) % 2 ^ 8 = z.toNat := by omega
  rw [be32, h8, h16, h24, hx8, hy8, hz8, Nat.mod_eq_of_lt hw]
  simp only [beNat, List.foldl_cons, List.foldl_nil]
  ring

/-- Reading a word: its four bytes lie at the address. -/
lemma loadBe32_eq_ok (ha : a + 4 ≤ 2 ^ 64) :
    loadBe32 m a = .ok v ↔ HasBytes m a (beBytes 4 v) ∧ v < 2 ^ 32 := by
  rw [loadBe32, bind_eq_ok]
  constructor
  · rintro ⟨u, hu, hv⟩
    obtain ⟨x, y, z, w, hbytes, rfl⟩ := (load32_eq_ok ha).mp hu
    rw [be32_eq_beNat] at hv
    cases hv
    have hround : beBytes 4 (beNat [x, y, z, w]) = [x, y, z, w] := beBytes_beNat [x, y, z, w]
    have hlt : beNat [x, y, z, w] < 256 ^ 4 := beNat_lt _
    exact ⟨hround.symm ▸ hbytes, by omega⟩
  · rintro ⟨hbytes, hv⟩
    have hnat : beNat (beBytes 4 v) = v := beNat_beBytes (by omega)
    refine ⟨_, (load32_eq_ok ha).mpr ⟨_, _, _, _, hbytes, rfl⟩, ?_⟩
    rw [be32_eq_beNat]
    exact congrArg Except.ok hnat

/-- A search for a NUL that ends before its bound has found one. -/
lemma nulIndex_eq_ok {i : ℕ} (ha : a + n ≤ 2 ^ 64) (hi : i < n) :
    nulIndex m a n = .ok i ↔ ∃ xs : List UInt8, xs.length = i ∧ CString m a xs := by
  induction n generalizing a i with
  | zero => exact absurd hi (Nat.not_lt_zero i)
  | succ n ih =>
    rw [nulIndex, bind_eq_ok]
    simp only [load8_eq_ok]
    constructor
    · rintro ⟨x, hx, h⟩
      split at h
      case isTrue hzero =>
        cases h
        exact ⟨[], rfl, List.not_mem_nil, hasBytes_cons.mpr ⟨hzero ▸ hx, hasBytes_nil⟩⟩
      case isFalse hne =>
        obtain ⟨j, hj, h⟩ := bind_eq_ok.mp h
        cases h
        rw [add64_of_lt (by omega), ih (by omega) (by omega)] at hj
        obtain ⟨xs, hlen, hnul, hbytes⟩ := hj
        refine ⟨x :: xs, by rw [List.length_cons, hlen], ?_, hasBytes_cons.mpr ⟨hx, hbytes⟩⟩
        rw [List.mem_cons, not_or]
        exact ⟨Ne.symm hne, hnul⟩
    · rintro ⟨xs, rfl, hnul, hbytes⟩
      cases xs with
      | nil => exact ⟨0, (hasBytes_cons.mp hbytes).1, rfl⟩
      | cons x xs =>
        rw [List.mem_cons, not_or] at hnul
        rw [List.cons_append, hasBytes_cons] at hbytes
        rw [List.length_cons] at hi ⊢
        refine ⟨x, hbytes.1, ?_⟩
        rw [if_neg (Ne.symm hnul.1), add64_of_lt (by omega),
          (ih (by omega) (by omega)).mpr ⟨xs, rfl, hnul.2, hbytes.2⟩]
        rfl

/-- The search for a NUL stays below its bound. -/
lemma le_of_nulIndex_eq_ok {i : ℕ} (h : nulIndex m a n = .ok i) : i ≤ n := by
  induction n generalizing a i with
  | zero =>
    cases h
    exact le_rfl
  | succ n ih =>
    obtain ⟨x, -, h⟩ := bind_eq_ok.mp h
    split at h
    case isTrue =>
      cases h
      exact Nat.zero_le _
    case isFalse =>
      obtain ⟨j, hj, h⟩ := bind_eq_ok.mp h
      cases h
      exact Nat.succ_le_succ (ih hj)

end DeviceTree

end HyperBerry
