import HyperBerry.Mmu.GuestMmu

/-!
# Descriptors as numbers

The descriptors of the stage-2 tables in the form the proofs work with: a page number shifted by
twelve bits, plus constant attribute bits.
-/

namespace HyperBerry

namespace GuestMmu

/-- What a page of guest memory is mapped to. -/
structure Target where
  /-- The number of the physical page. -/
  page : ℕ
  /-- Mapped as device memory. -/
  device : Bool
deriving DecidableEq

/-- All bits of a block descriptor outside the output address. -/
def attributeBits (device : Bool) : ℕ := if device then 2 ^ 54 + 0x7C1 else 0x7FD

/-- The level 2 entry for a block that starts at the target page; `0` when nothing is mapped. -/
def blockEntry : Option Target → ℕ
  | none => 0
  | some τ => τ.page * 2 ^ 12 + attributeBits τ.device

/-- The level 3 entry for a page; `0` when nothing is mapped. -/
def pageEntry : Option Target → ℕ
  | none => 0
  | some τ => τ.page * 2 ^ 12 + attributeBits τ.device + 2

/-- The entry that points to a table; `0` when there is none. -/
def tableEntry : Option ℕ → ℕ
  | none => 0
  | some t => t + 3

/-- The attributes of guest RAM and of device memory. -/
def stage2Attributes (device : Bool) : Attributes :=
  if device then ⟨0, 3, 3, 1, 2⟩ else ⟨15, 3, 3, 1, 0⟩

/-- RAM and device memory have different attributes. -/
lemma stage2Attributes_injective {d d' : Bool} (h : stage2Attributes d = stage2Attributes d') :
    d = d' := by
  cases d with
  | false =>
    cases d' with
    | false => rfl
    | true => exact absurd h (by decide)
  | true =>
    cases d' with
    | false => exact absurd h (by decide)
    | true => rfl

/-- A page-aligned address that a table descriptor can hold. -/
structure IsPage (t : ℕ) : Prop where
  /-- The address is a multiple of the page size. -/
  dvd : pageSize ∣ t
  /-- The address has at most 48 bits. -/
  lt : t < 2 ^ 48

@[simp] lemma blockEntry_some (τ : Target) :
    blockEntry (some τ) = τ.page * 2 ^ 12 + attributeBits τ.device := rfl

@[simp] lemma pageEntry_some (τ : Target) :
    pageEntry (some τ) = τ.page * 2 ^ 12 + attributeBits τ.device + 2 := rfl

@[simp] lemma tableEntry_some (t : ℕ) : tableEntry (some t) = t + 3 := rfl

/-- The two values of the attribute bits. -/
lemma attributeBits_cases (device : Bool) :
    attributeBits device = 0x7FD ∨ attributeBits device = 2 ^ 54 + 0x7C1 := by
  cases device with
  | false => exact Or.inl rfl
  | true => exact Or.inr rfl

/-- A block entry has the type bits of a block. -/
lemma blockEntry_mod_four (τ : Target) : blockEntry (some τ) % 4 = 1 := by
  rw [blockEntry_some]
  rcases attributeBits_cases τ.device with h | h <;> rw [h] <;> omega

/-- A page entry has the type bits of a table. -/
lemma pageEntry_mod_four (τ : Target) : pageEntry (some τ) % 4 = 3 := by
  rw [pageEntry_some]
  rcases attributeBits_cases τ.device with h | h <;> rw [h] <;> omega

/-! ## Masks -/

lemma and_pteAddrMask (x : ℕ) : x &&& pteAddrMask = x / 2 ^ 12 % 2 ^ 36 * 2 ^ 12 :=
  and_two_pow_sub_one_shiftLeft x 36 12

lemma and_not64_pteAddrMask {x : ℕ} (hx : x < 2 ^ 64) :
    x &&& not64 pteAddrMask = x / 2 ^ 48 * 2 ^ 48 + x % 2 ^ 12 :=
  and_not64_two_pow_sub_one_shiftLeft (w := 36) (k := 12) hx (by norm_num)

lemma pteNextTable_eq (x : ℕ) : pteNextTable x = nextTable x := and_pteAddrMask x

lemma pteIsValid_iff (x : ℕ) : pteIsValid x = true ↔ x % 2 = 1 := by
  have h : x &&& pteValid = x % 2 := Nat.and_one_is_mod x
  rw [pteIsValid, decide_eq_true_iff, h]
  exact Nat.mod_two_ne_zero

/-- The two type bits of an entry. -/
lemma and_typeBits (x : ℕ) : x &&& (pteValid ||| pteTable) = x % 4 :=
  Nat.and_two_pow_sub_one_eq_mod x 2

lemma pteIsTable_iff (x : ℕ) : pteIsTable x = true ↔ x % 4 = 3 := by
  rw [pteIsTable, decide_eq_true_iff, and_typeBits]
  exact Iff.rfl

lemma pteIsBlock_iff (x : ℕ) : pteIsBlock x = true ↔ x % 4 = 1 := by
  rw [pteIsBlock, decide_eq_true_iff, and_typeBits]
  exact Iff.rfl

/-! ## What the descriptor builders return -/

/-- A table descriptor is the address of the table with both type bits set. -/
lemma tableDescriptor_eq {t : ℕ} (ht : pageSize ∣ t) :
    t ||| pteValid ||| pteTable = tableEntry (some t) := by
  obtain ⟨q, rfl⟩ := ht
  rw [Nat.or_assoc, Nat.mul_comm]
  exact mul_two_pow_or (a := q) (b := 3) (k := 12) (by norm_num)

/-- The block descriptor of an address. -/
lemma buildStage2BlockDescriptor_eq (pa : ℕ) (isDevice : Bool) :
    buildStage2BlockDescriptor pa isDevice =
      blockEntry (some ⟨pa / 2 ^ 12 % 2 ^ 36, isDevice⟩) := by
  have hlow : ∀ b < 2 ^ 12, (pa &&& pteAddrMask) ||| b = pa / 2 ^ 12 % 2 ^ 36 * 2 ^ 12 + b := by
    intro b hb
    rw [and_pteAddrMask, mul_two_pow_or hb]
  cases isDevice with
  | false =>
    have hor : buildStage2BlockDescriptor pa false = (pa &&& pteAddrMask) ||| 0x7FD := by
      simp only [buildStage2BlockDescriptor, Nat.or_assoc]
      rfl
    rw [hor, hlow _ (by norm_num)]
    rfl
  | true =>
    have hor : buildStage2BlockDescriptor pa true =
        1 * 2 ^ 54 ||| ((pa &&& pteAddrMask) ||| 0x7C1) := by
      rw [Nat.or_comm]
      simp only [buildStage2BlockDescriptor, Nat.or_assoc]
      rfl
    have hlt : pa / 2 ^ 12 % 2 ^ 36 * 2 ^ 12 + 0x7C1 < 2 ^ 54 := by omega
    rw [hor, hlow _ (by norm_num), mul_two_pow_or hlt]
    simp only [blockEntry, attributeBits, if_true]
    omega

/-- Setting the table bit of a block entry gives a page entry. -/
lemma blockEntry_or_pteTable (τ : Target) :
    blockEntry (some τ) ||| pteTable = pageEntry (some τ) := by
  have hbit : ∀ x, x % 4 = 1 → x ||| pteTable = x + 2 := by
    intro x hx
    have hsplit : x = x / 4 * 2 ^ 2 + 1 := by omega
    have hor : x ||| pteTable = x / 4 * 2 ^ 2 ||| (1 ||| pteTable) := by
      conv_lhs => rw [hsplit, ← mul_two_pow_or (by norm_num), Nat.or_assoc]
    rw [hor, mul_two_pow_or (by decide)]
    have h3 : 1 ||| pteTable = 3 := rfl
    rw [h3]
    omega
  rw [hbit _ (blockEntry_mod_four τ)]
  rfl

/-- The page descriptor of an address. -/
lemma buildStage2PageDescriptor_eq (pa : ℕ) (isDevice : Bool) :
    buildStage2PageDescriptor pa isDevice =
      pageEntry (some ⟨pa / 2 ^ 12 % 2 ^ 36, isDevice⟩) := by
  rw [buildStage2PageDescriptor, buildStage2BlockDescriptor_eq, blockEntry_or_pteTable]

/-- The entry that splitting a block writes for its page `i`. -/
lemma splitEntry_eq {τ : Target} (hτ : τ.page < 2 ^ 36) (hal : 512 ∣ τ.page) {i : ℕ}
    (hi : i < 512) : add64 (blockEntry (some τ) &&& pteAddrMask) (i * size4KB) |||
        ((blockEntry (some τ) &&& not64 pteAddrMask) ||| pteTable) =
      pageEntry (some ⟨τ.page + i, τ.device⟩) := by
  obtain ⟨q, d⟩ := τ
  obtain ⟨k, rfl⟩ := hal
  simp only at hτ ⊢
  have hbase : add64 (blockEntry (some ⟨512 * k, d⟩) &&& pteAddrMask) (i * size4KB) =
      (512 * k + i) * 2 ^ 12 := by
    rw [and_pteAddrMask, blockEntry_some, add64, size4KB]
    rcases attributeBits_cases d with h | h <;> simp only [h] <;> omega
  have hattr : blockEntry (some ⟨512 * k, d⟩) &&& not64 pteAddrMask = attributeBits d := by
    rw [blockEntry_some, and_not64_pteAddrMask]
    · rcases attributeBits_cases d with h | h <;> simp only [h] <;> omega
    · rcases attributeBits_cases d with h | h <;> simp only [h] <;> omega
  rw [hbase, hattr, pageEntry_some]
  cases d with
  | false =>
    have hor : attributeBits false ||| pteTable = 0x7FF := rfl
    rw [hor, mul_two_pow_or (by norm_num)]
    rfl
  | true =>
    have hor : attributeBits true ||| pteTable = 1 * 2 ^ 54 ||| 0x7C3 := rfl
    have hlt : (512 * k + i) * 2 ^ 12 + 0x7C3 < 2 ^ 54 := by omega
    rw [hor, Nat.or_comm, Nat.or_assoc, Nat.or_comm 0x7C3,
      mul_two_pow_or (b := 0x7C3) (by norm_num), mul_two_pow_or hlt]
    simp only [attributeBits, if_true]
    omega

/-! ## Reading entries -/

/-- A table entry leads to its table. -/
lemma nextTable_tableEntry {t : ℕ} (ht : IsPage t) : nextTable (tableEntry (some t)) = t := by
  obtain ⟨⟨q, rfl⟩, hlt⟩ := ht
  rw [tableEntry_some, nextTable]
  unfold pageSize at *
  omega

lemma tableEntry_mod_four {t : ℕ} (ht : IsPage t) : tableEntry (some t) % 4 = 3 := by
  obtain ⟨⟨q, rfl⟩, -⟩ := ht
  rw [tableEntry_some, pageSize]
  omega

/-- The attributes do not depend on the output address. -/
lemma attributesOf_add {q : ℕ} (hq : q < 2 ^ 36) (device : Bool) {type : ℕ} (ht : type ≤ 2) :
    attributesOf (q * 2 ^ 12 + attributeBits device + type) = stage2Attributes device := by
  cases device with
  | false =>
    have hbits : attributeBits false = 0x7FD := rfl
    rw [hbits, attributesOf, stage2Attributes, if_neg (by decide), Attributes.mk.injEq]
    omega
  | true =>
    have hbits : attributeBits true = 2 ^ 54 + 0x7C1 := rfl
    rw [hbits, attributesOf, stage2Attributes, if_pos rfl, Attributes.mk.injEq]
    omega

/-- The translation by a page entry. -/
lemma translateBy_pageEntry {τ : Target} (hτ : τ.page < 2 ^ 36) (ipa : ℕ) :
    translateBy (pageEntry (some τ)) 12 ipa =
      ⟨τ.page * pageSize + ipa % pageSize, stage2Attributes τ.device⟩ := by
  have hpa : pageEntry (some τ) / 2 ^ 12 % 2 ^ 36 = τ.page := by
    rw [pageEntry_some]
    rcases attributeBits_cases τ.device with h | h <;> rw [h] <;> omega
  rw [translateBy, hpa, pageEntry_some, attributesOf_add hτ _ le_rfl]
  rfl

/-- The translation by a block entry whose first page is aligned. -/
lemma translateBy_blockEntry {τ : Target} (hτ : τ.page < 2 ^ 36) (hal : 512 ∣ τ.page) (ipa : ℕ) :
    translateBy (blockEntry (some τ)) 21 ipa =
      ⟨(τ.page + ipa / pageSize % 512) * pageSize + ipa % pageSize, stage2Attributes τ.device⟩ := by
  obtain ⟨k, hk⟩ := hal
  have hpa : blockEntry (some τ) / 2 ^ 21 % 2 ^ (48 - 21) = k := by
    rw [blockEntry_some, hk]
    rw [hk] at hτ
    rcases attributeBits_cases τ.device with h | h <;> rw [h] <;> omega
  have hattr : attributesOf (blockEntry (some τ)) = stage2Attributes τ.device := by
    rw [← attributesOf_add hτ τ.device (Nat.zero_le 2), Nat.add_zero, blockEntry_some]
  rw [translateBy, hpa, hattr, hk, Translation.mk.injEq]
  refine ⟨?_, rfl⟩
  unfold pageSize
  omega

end GuestMmu

end HyperBerry
