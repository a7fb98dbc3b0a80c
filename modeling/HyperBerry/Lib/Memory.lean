import Mathlib

/-!
# Byte memories

A memory is a partial map from addresses to bytes; an address without a byte cannot be read.  The
statement that a string of bytes lies at an address, `HasBytes`, is what the files on data formats
read off a memory, and `store` is the only way in which they change one.  The last section is about
big-endian numbers.
-/

namespace HyperBerry

/-- A memory: the byte at each address that can be read. -/
abbrev Memory := ℕ → Option UInt8

/-- The bytes of a string of ASCII characters. -/
def ascii (s : String) : List UInt8 := s.toList.map fun c => UInt8.ofNat c.toNat

namespace Memory

variable {m m' : Memory} {a b n lo hi : ℕ} {xs ys : List UInt8}

/-- The bytes `xs` lie at address `a`. -/
def HasBytes (m : Memory) (a : ℕ) (xs : List UInt8) : Prop :=
  ∀ i < xs.length, m (a + i) = xs[i]?

/-- Two memories hold the same in the range from `lo` to `hi`. -/
def AgreeOn (m m' : Memory) (lo hi : ℕ) : Prop :=
  ∀ a, lo ≤ a → a < hi → m' a = m a

/-- Agreement on a smaller range. -/
lemma AgreeOn.mono {lo' hi' : ℕ} (h : AgreeOn m m' lo hi) (hlo : lo ≤ lo') (hhi : hi' ≤ hi) :
    AgreeOn m m' lo' hi' :=
  fun a hla hah => h a (hlo.trans hla) (lt_of_lt_of_le hah hhi)

/-- No bytes lie everywhere. -/
@[simp] lemma hasBytes_nil : HasBytes m a [] := fun i hi => absurd hi (Nat.not_lt_zero i)

/-- The first byte, and the others one address on. -/
lemma hasBytes_cons {x : UInt8} :
    HasBytes m a (x :: xs) ↔ m a = some x ∧ HasBytes m (a + 1) xs := by
  constructor
  · intro h
    refine ⟨h 0 (Nat.succ_pos _), fun i hi => ?_⟩
    have hnext := h (i + 1) (Nat.succ_lt_succ hi)
    rwa [List.getElem?_cons_succ, show a + (i + 1) = a + 1 + i by omega] at hnext
  · rintro ⟨hx, hxs⟩ i hi
    cases i with
    | zero => exact hx
    | succ i =>
      rw [List.getElem?_cons_succ, show a + (i + 1) = a + 1 + i by omega]
      exact hxs i (Nat.lt_of_succ_lt_succ hi)

/-- A concatenation lies at `a` when its parts lie one after the other. -/
lemma hasBytes_append :
    HasBytes m a (xs ++ ys) ↔ HasBytes m a xs ∧ HasBytes m (a + xs.length) ys := by
  induction xs generalizing a with
  | nil => simp
  | cons x xs ih =>
    rw [List.cons_append, hasBytes_cons, hasBytes_cons, ih, and_assoc, List.length_cons,
      show a + 1 + xs.length = a + (xs.length + 1) by omega]

/-- A memory that agrees on the bytes has them too. -/
lemma HasBytes.congr (h : HasBytes m a xs) (hm : AgreeOn m m' a (a + xs.length)) :
    HasBytes m' a xs :=
  fun i hi => (hm (a + i) (Nat.le_add_right a i) (Nat.add_lt_add_left hi a)).trans (h i hi)

/-- The bytes at an address are determined by their number. -/
lemma HasBytes.unique (hx : HasBytes m a xs) (hy : HasBytes m a ys)
    (hlen : xs.length = ys.length) : xs = ys := by
  refine List.ext_getElem? fun i => ?_
  by_cases hi : i < xs.length
  · rw [← hx i hi, ← hy i (hlen ▸ hi)]
  · rw [List.getElem?_eq_none (by omega), List.getElem?_eq_none (by omega)]

/-- Every byte of a range that can be read lies in a string of bytes. -/
lemma exists_hasBytes (h : ∀ i < n, (m (a + i)).isSome) :
    ∃ xs : List UInt8, xs.length = n ∧ HasBytes m a xs := by
  induction n generalizing a with
  | zero => exact ⟨[], rfl, hasBytes_nil⟩
  | succ n ih =>
    obtain ⟨x, hx⟩ := Option.isSome_iff_exists.mp (h 0 (Nat.succ_pos n))
    obtain ⟨xs, hlen, hxs⟩ := ih (a := a + 1) fun i hi => by
      rw [show a + 1 + i = a + (i + 1) by omega]
      exact h (i + 1) (Nat.succ_lt_succ hi)
    exact ⟨x :: xs, by rw [List.length_cons, hlen], hasBytes_cons.mpr ⟨hx, hxs⟩⟩

/-- The bytes before and after a position. -/
lemma HasBytes.take_drop (h : HasBytes m a xs) (n : ℕ) (hn : n ≤ xs.length) :
    HasBytes m a (xs.take n) ∧ HasBytes m (a + n) (xs.drop n) := by
  have hsplit := hasBytes_append.mp ((List.take_append_drop n xs).symm ▸ h)
  rwa [List.length_take, Nat.min_eq_left hn] at hsplit

/-- The NUL-terminated string `xs` lies at address `a`. -/
structure CString (m : Memory) (a : ℕ) (xs : List UInt8) : Prop where
  /-- There is no NUL in the string. -/
  not_mem : 0 ∉ xs
  /-- Its bytes and a NUL lie at the address. -/
  bytes : HasBytes m a (xs ++ [0])

/-- A memory that agrees on a string and its NUL has it too. -/
lemma CString.congr (h : CString m a xs) (hm : AgreeOn m m' a (a + xs.length + 1)) :
    CString m' a xs :=
  ⟨h.not_mem, h.bytes.congr (by rwa [List.length_append, List.length_singleton, ← Nat.add_assoc])⟩

/-- A NUL-terminated string begins with a NUL exactly when it is empty. -/
lemma CString.head (h : CString m a xs) : m a = some (xs.headD 0) := by
  cases xs with
  | nil => exact (hasBytes_cons.mp h.bytes).1
  | cons x xs => exact (hasBytes_cons.mp h.bytes).1

/-- The string after the first byte. -/
lemma CString.tail {x : UInt8} (h : CString m a (x :: xs)) : CString m (a + 1) xs :=
  ⟨fun hmem => h.not_mem (List.mem_cons_of_mem x hmem), (hasBytes_cons.mp h.bytes).2⟩

/-- The NUL-terminated string at an address is unique. -/
lemma CString.unique (hx : CString m a xs) (hy : CString m a ys) : xs = ys := by
  induction xs generalizing a ys with
  | nil =>
    cases ys with
    | nil => rfl
    | cons y ys =>
      have hhead := hx.head.symm.trans hy.head
      simp only [List.headD_nil, List.headD_cons, Option.some.injEq] at hhead
      exact absurd (hhead ▸ List.mem_cons_self) hy.not_mem
  | cons x xs ih =>
    cases ys with
    | nil =>
      have hhead := hx.head.symm.trans hy.head
      simp only [List.headD_nil, List.headD_cons, Option.some.injEq] at hhead
      exact absurd (hhead ▸ List.mem_cons_self) hx.not_mem
    | cons y ys =>
      have hhead := hx.head.symm.trans hy.head
      simp only [List.headD_cons, Option.some.injEq] at hhead
      rw [hhead, ih hx.tail hy.tail]

/-! ## Writing -/

/-- Write the bytes `xs` at address `a`. -/
def store (m : Memory) (a : ℕ) (xs : List UInt8) : Memory :=
  fun i => if a ≤ i ∧ i < a + xs.length then xs[i - a]? else m i

/-- A write changes nothing outside its bytes. -/
lemma store_of_not_mem {i : ℕ} (h : ¬ (a ≤ i ∧ i < a + xs.length)) : store m a xs i = m i :=
  if_neg h

/-- A write leaves every range alone that it does not touch. -/
lemma agreeOn_store (h : hi ≤ a ∨ a + xs.length ≤ lo) : AgreeOn m (store m a xs) lo hi := by
  intro i hlo hhi
  apply store_of_not_mem
  omega

/-- What was written is there. -/
lemma hasBytes_store : HasBytes (store m a xs) a xs := by
  intro i hi
  rw [store, if_pos ⟨Nat.le_add_right a i, Nat.add_lt_add_left hi a⟩, Nat.add_sub_cancel_left]

/-- Two writes, one behind the other, are one. -/
lemma store_append : store m a (xs ++ ys) = store (store m a xs) (a + xs.length) ys := by
  funext i
  simp only [store, List.length_append]
  by_cases hx : a ≤ i ∧ i < a + xs.length
  · rw [if_pos (by omega), if_neg (by omega), if_pos hx, List.getElem?_append_left (by omega)]
  · by_cases hy : a + xs.length ≤ i ∧ i < a + xs.length + ys.length
    · rw [if_pos (by omega), if_pos hy, List.getElem?_append_right (by omega),
        show i - a - xs.length = i - (a + xs.length) by omega]
    · rw [if_neg (by omega), if_neg hy, if_neg hx]

/-- A write keeps the bytes that can be read, where all of its own could be. -/
lemma isSome_store {i : ℕ} (h : (m i).isSome) : (store m a xs i).isSome := by
  rw [store]
  split
  case isTrue hi =>
    rw [List.getElem?_eq_getElem (by omega)]
    rfl
  case isFalse => exact h

/-- Writing what is there already changes nothing. -/
lemma HasBytes.store_eq (h : HasBytes m a xs) : store m a xs = m := by
  funext i
  by_cases hi : a ≤ i ∧ i < a + xs.length
  · rw [store, if_pos hi, ← h (i - a) (by omega), Nat.add_sub_cancel' hi.1]
  · exact store_of_not_mem hi

/-! ## Big-endian numbers -/

/-- The number that a string of bytes encodes, most significant byte first. -/
def beNat (xs : List UInt8) : ℕ := xs.foldl (fun v x => v * 256 + x.toNat) 0

/-- The `n` bytes of a number, most significant first. -/
def beBytes : ℕ → ℕ → List UInt8
  | 0, _ => []
  | n + 1, v => beBytes n (v / 256) ++ [UInt8.ofNat (v % 256)]

/-- One more byte at the end. -/
lemma beNat_append_singleton (x : UInt8) : beNat (xs ++ [x]) = beNat xs * 256 + x.toNat := by
  rw [beNat, List.foldl_append]
  rfl

/-- The number of a concatenation. -/
lemma beNat_append : beNat (xs ++ ys) = beNat xs * 256 ^ ys.length + beNat ys := by
  induction ys using List.reverseRecOn with
  | nil => simp [beNat]
  | append_singleton ys y ih =>
    rw [← List.append_assoc, beNat_append_singleton, ih, beNat_append_singleton,
      List.length_append, List.length_singleton, pow_succ]
    ring

/-- The number of `n` bytes is below `256 ^ n`. -/
lemma beNat_lt (xs : List UInt8) : beNat xs < 256 ^ xs.length := by
  induction xs using List.reverseRecOn with
  | nil => simp [beNat]
  | append_singleton xs x ih =>
    rw [beNat_append_singleton, List.length_append, List.length_singleton, pow_succ]
    have hx : x.toNat < 256 := x.toNat_lt
    omega

/-- The number of bytes. -/
@[simp] lemma length_beBytes (v : ℕ) : (beBytes n v).length = n := by
  induction n generalizing v with
  | zero => rfl
  | succ n ih => rw [beBytes, List.length_append, ih, List.length_singleton]

/-- Encoding and decoding. -/
lemma beNat_beBytes {v : ℕ} (h : v < 256 ^ n) : beNat (beBytes n v) = v := by
  induction n generalizing v with
  | zero =>
    rw [pow_zero, Nat.lt_one_iff] at h
    rw [h]
    rfl
  | succ n ih =>
    have hdiv : v / 256 < 256 ^ n := by
      rw [pow_succ] at h
      exact Nat.div_lt_of_lt_mul (by rwa [Nat.mul_comm])
    have hmod : (UInt8.ofNat (v % 256)).toNat = v % 256 :=
      UInt8.toNat_ofNat_of_lt' (Nat.mod_lt _ (by norm_num))
    rw [beBytes, beNat_append_singleton, ih hdiv, hmod]
    exact Nat.div_add_mod' v 256

/-- Decoding and encoding. -/
lemma beBytes_beNat (xs : List UInt8) : beBytes xs.length (beNat xs) = xs := by
  induction xs using List.reverseRecOn with
  | nil => rfl
  | append_singleton xs x ih =>
    have hx : x.toNat < 256 := x.toNat_lt
    have hdiv : (beNat xs * 256 + x.toNat) / 256 = beNat xs := by omega
    have hmod : (beNat xs * 256 + x.toNat) % 256 = x.toNat := by omega
    rw [List.length_append, List.length_singleton, beNat_append_singleton, beBytes, hdiv, hmod, ih,
      UInt8.ofNat_toNat]

/-- Encoding is injective on the numbers that fit. -/
lemma beBytes_injective {v w : ℕ} (hv : v < 256 ^ n) (hw : w < 256 ^ n)
    (h : beBytes n v = beBytes n w) : v = w := by
  rw [← beNat_beBytes hv, h, beNat_beBytes hw]

end Memory

end HyperBerry
