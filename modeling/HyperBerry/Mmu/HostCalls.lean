import HyperBerry.Mmu.HostTree

/-!
# Mapping and unmapping ranges

Sequences of `MapRange` and `UnmapRange` calls, against what the calls are for: an address
translates as the last call says whose range contains it (`calledFor`).

`UnmapRange` stops at the first block of its range that no table covers, and tables are there
exactly for the gigabytes that an earlier `MapRange` has touched.  So a call reaches a part of its
range only (`HostCall.Reaches`), and what the hardware finds is what the last call says that reaches
an address. `translates_as_called_iff` says when this is the same.
-/

namespace HyperBerry

namespace HostMmu

open GuestMmu (IsPage tableEntry)

/-! ## Calls -/

/-- Flags of a block descriptor: valid, no table, and nothing in the output address. -/
structure IsFlags (flags : ℕ) : Prop where
  lt : flags < 2 ^ 64
  addr : flags &&& pteAddrMask = 0
  block : flags % 4 = 1

/-- A call of a mapping operation. -/
inductive HostCall where
  /-- `MapRange`. -/
  | map (va pa size flags : ℕ)
  /-- `UnmapRange`. -/
  | unmap (va size : ℕ)
deriving DecidableEq

namespace HostCall

/-- The effect of a call on the tables. -/
def run (root : ℕ) : HostCall → Tables → Option Tables
  | map va pa size flags, st => mapRange (stage1Table root) va pa size flags st
  | unmap va size, st => unmapRange (stage1Table root) va size st

/-- The start of the range. -/
def base : HostCall → ℕ
  | map va _ _ _ => va
  | unmap va _ => va

/-- The size of the range. -/
def size : HostCall → ℕ
  | map _ _ size _ => size
  | unmap _ size => size

/-- The range contains the address. -/
def Covers (c : HostCall) (va : ℕ) : Prop := c.base ≤ va ∧ va < c.base + c.size

/-- The call maps something in a gigabyte. -/
def Touches : HostCall → ℕ → Prop
  | map va _ size _, g => 0 < size ∧ va / 2 ^ 30 ≤ g ∧ g ≤ (va + size - 1) / 2 ^ 30
  | unmap _ _, _ => False

instance (c : HostCall) (va : ℕ) : Decidable (c.Covers va) := inferInstanceAs (Decidable (_ ∧ _))

instance (c : HostCall) (g : ℕ) : Decidable (c.Touches g) :=
  match c with
  | map _ _ _ _ => inferInstanceAs (Decidable (_ ∧ _))
  | unmap _ _ => inferInstanceAs (Decidable False)

/-- An earlier call maps something in a gigabyte. -/
def Touched (older : List HostCall) (g : ℕ) : Prop := ∃ c ∈ older, c.Touches g

instance (older : List HostCall) (g : ℕ) : Decidable (Touched older g) :=
  inferInstanceAs (Decidable (∃ c ∈ older, _))

/-- The call gets as far as the address: `MapRange` everywhere in its range, `UnmapRange` if all
gigabytes up to the address have been touched. -/
def Reaches (older : List HostCall) : HostCall → ℕ → Prop
  | map va pa size flags, a => (map va pa size flags).Covers a
  | unmap va size, a => (unmap va size).Covers a ∧
      ∀ g < a / 2 ^ 30 + 1, va / 2 ^ 30 ≤ g → Touched older g

instance (older : List HostCall) (c : HostCall) (a : ℕ) : Decidable (c.Reaches older a) :=
  match c with
  | map _ _ _ _ => inferInstanceAs (Decidable (Covers _ _))
  | unmap _ _ => inferInstanceAs (Decidable (_ ∧ _))

/-- Ranges of 2 MiB blocks in the 48-bit spaces, and proper flags. -/
def WellFormed : HostCall → Prop
  | map va pa size flags => size2MB ∣ va ∧ size2MB ∣ pa ∧ size2MB ∣ size ∧ va + size ≤ 2 ^ 48 ∧
      pa + size ≤ 2 ^ 48 ∧ IsFlags flags
  | unmap va size => size2MB ∣ va ∧ size2MB ∣ size ∧ va + size ≤ 2 ^ 48

/-- The pages that the call may need: two for each block. -/
def pages : HostCall → ℕ
  | map _ _ size _ => size / 2 ^ 20
  | unmap _ _ => 0

/-- The level 2 entry of a block of the range after the call. -/
def word : HostCall → ℕ → ℕ
  | map va pa _ flags, b => pa + (b - va / 2 ^ 21) * 2 ^ 21 + flags
  | unmap _ _, _ => 0

/-- What the call says about an address of its range. -/
def translation : HostCall → ℕ → Option Translation
  | map va pa _ flags, a => some ⟨pa + (a - va), flags⟩
  | unmap _ _, _ => none

end HostCall

open HostCall

/-- A sequence of calls. -/
def runCalls (root : ℕ) (calls : List HostCall) (st : Tables) : Option Tables :=
  calls.foldlM (fun st c => c.run root st) st

/-- The last call whose range contains an address; the last call is the first of the list. -/
def lastCovering (history : List HostCall) (va : ℕ) : Option HostCall :=
  history.find? fun c => c.Covers va

/-- The last call that reaches an address; the last call is the first of the list. -/
def lastReaching : List HostCall → ℕ → Option HostCall
  | [], _ => none
  | c :: older, va => if c.Reaches older va then some c else lastReaching older va

/-- What an address should translate to: as the last call says whose range contains it. -/
def calledFor (calls : List HostCall) (va : ℕ) : Option Translation :=
  (lastCovering calls.reverse va).bind fun c => c.translation va

/-- A level 0 table without entries, and a supply of other pages. -/
structure EmptyRoot (root : ℕ) (st : Tables) : Prop where
  /-- The root is a page. -/
  page : IsPage root
  /-- It is zero. -/
  zero : ∀ i < 512, st.mem (root + 8 * i) = 0
  /-- `AllocTable` returns other pages. -/
  supply : ∀ p ∈ st.supply, IsPage p ∧ p ≠ root
  /-- `AllocTable` returns no page twice. -/
  nodup : st.supply.Nodup

/-! ## Descriptors -/

variable {root va pa size flags : ℕ} {st st' : Tables} {L : Layout} {e : ℕ → ℕ}

/-- Flags have their bits above and below the output address. -/
lemma IsFlags.split (h : IsFlags flags) :
    flags = flags / 2 ^ 48 * 2 ^ 48 + flags % 2 ^ 12 ∧ flags / 2 ^ 48 < 2 ^ 16 := by
  have hlt := h.lt
  have haddr := h.addr
  rw [GuestMmu.and_pteAddrMask] at haddr
  omega

/-- The descriptor that `MapRange` writes. -/
lemma descriptor_eq (h : IsFlags flags) {x : ℕ} (hx : x < 2 ^ 48) (hdvd : 2 ^ 21 ∣ x) :
    (x &&& pteAddrMask) ||| flags ||| pteBlock = x + flags := by
  obtain ⟨hsplit, -⟩ := h.split
  obtain ⟨hi, hhi⟩ : ∃ hi, hi = flags / 2 ^ 48 := ⟨_, rfl⟩
  obtain ⟨lo, hlo⟩ : ∃ lo, lo = flags % 2 ^ 12 := ⟨_, rfl⟩
  have hlt : lo < 2 ^ 12 := by
    rw [hlo]
    exact Nat.mod_lt _ (by norm_num)
  rw [← hhi, ← hlo] at hsplit
  obtain ⟨q, rfl⟩ := hdvd
  have hmask : 2 ^ 21 * q &&& pteAddrMask = q * 2 ^ 9 * 2 ^ 12 := by
    rw [GuestMmu.and_pteAddrMask]
    omega
  have hlow : q * 2 ^ 9 * 2 ^ 12 ||| lo = q * 2 ^ 9 * 2 ^ 12 + lo := mul_two_pow_or hlt
  have hlow48 : q * 2 ^ 9 * 2 ^ 12 + lo < 2 ^ 48 := by omega
  have hflags : hi * 2 ^ 48 + lo = hi * 2 ^ 48 ||| lo :=
    (mul_two_pow_or (hlt.trans (by norm_num))).symm
  calc (2 ^ 21 * q &&& pteAddrMask) ||| flags ||| pteBlock
      = q * 2 ^ 9 * 2 ^ 12 ||| (hi * 2 ^ 48 ||| lo) := by
        rw [hmask, hsplit, hflags, show pteBlock = 0 from rfl, Nat.or_zero]
    _ = hi * 2 ^ 48 ||| (q * 2 ^ 9 * 2 ^ 12 ||| lo) := by
        rw [← Nat.or_assoc, Nat.or_comm (q * 2 ^ 9 * 2 ^ 12), Nat.or_assoc]
    _ = hi * 2 ^ 48 + (q * 2 ^ 9 * 2 ^ 12 + lo) := by rw [hlow, mul_two_pow_or hlow48]
    _ = 2 ^ 21 * q + flags := by omega

/-- What the hardware makes of a descriptor that `MapRange` has written. -/
lemma translateBlock_add (h : IsFlags flags) {x : ℕ} (hx : x < 2 ^ 48) (hdvd : 2 ^ 21 ∣ x) (a : ℕ) :
    translateBlock (x + flags) a = some ⟨x + a % 2 ^ 21, flags⟩ := by
  obtain ⟨hsplit, hhi⟩ := h.split
  have hblock := h.block
  obtain ⟨q, rfl⟩ := hdvd
  rw [translateBlock, if_pos (by omega), translateBy]
  have hpa : (2 ^ 21 * q + flags) / 2 ^ 21 % 2 ^ (48 - 21) * 2 ^ 21 = 2 ^ 21 * q := by omega
  have hhigh : (2 ^ 21 * q + flags) / 2 ^ 48 = flags / 2 ^ 48 := by omega
  have hlow : (2 ^ 21 * q + flags) % 2 ^ 12 = flags % 2 ^ 12 := by omega
  rw [hpa, hhigh, hlow, ← hsplit]

/-! ## Loops -/

/-- Change the entries of `n` blocks. -/
def setBlocks (e : ℕ → ℕ) (b n : ℕ) (f : ℕ → ℕ) (x : ℕ) : ℕ :=
  if b ≤ x ∧ x < b + n then f x else e x

/-- One block first, then the others. -/
lemma setBlocks_succ (e : ℕ → ℕ) (b n : ℕ) (f : ℕ → ℕ) :
    setBlocks (Function.update e b (f b)) (b + 1) n f = setBlocks e b (n + 1) f := by
  funext x
  rw [setBlocks, setBlocks, Function.update_apply]
  by_cases hx : x = b
  · subst hx
    rw [if_neg (by omega), if_pos rfl, if_pos (by omega)]
  · rw [if_neg hx]
    congr 1
    exact propext (by omega)

/-- The loop of `MapRange`, with `n` blocks to go. -/
lemma Represents.mapLoop (hva : size2MB ∣ va) (hpa : size2MB ∣ pa) (hend : va + size ≤ 2 ^ 48)
    (hpend : pa + size ≤ 2 ^ 48) (hflags : IsFlags flags) :
    ∀ (n k fuel : ℕ) {st : Tables} {L : Layout} {e : ℕ → ℕ}, Represents root st L e →
    size = (k + n) * size2MB → n < fuel →
    (mapLoop (stage1Table root) va pa size flags fuel (k * size2MB) st = none ∧
      st.supply.length < 2 * n) ∨
    ∃ st' L', mapLoop (stage1Table root) va pa size flags fuel (k * size2MB) st = some st' ∧
      Represents root st' L'
        (setBlocks e (va / 2 ^ 21 + k) n (HostCall.map va pa size flags).word) ∧
      (∀ g, (L'.table 2 g).isSome ↔ (L.table 2 g).isSome ∨
        ∃ b, va / 2 ^ 21 + k ≤ b ∧ b < va / 2 ^ 21 + k + n ∧ b / 512 = g) ∧
      st.supply.length ≤ st'.supply.length + 2 * n := by
  obtain ⟨v, rfl⟩ := hva
  obtain ⟨p, rfl⟩ := hpa
  have h2MB : size2MB = 2 ^ 21 := rfl
  intro n
  induction n with
  | zero =>
    intro k fuel st L e h hsize hfuel
    obtain ⟨fuel, rfl⟩ : ∃ f, fuel = f + 1 := ⟨fuel - 1, by omega⟩
    refine .inr ⟨st, L, ?_, ?_, fun g => ?_, le_rfl⟩
    · rw [HostMmu.mapLoop, if_neg (by rw [hsize]; exact lt_irrefl _)]
      rfl
    · have hnone : setBlocks e (size2MB * v / 2 ^ 21 + k) 0
          (HostCall.map (size2MB * v) (size2MB * p) size flags).word = e := by
        funext x
        rw [setBlocks, if_neg (by omega)]
      rwa [hnone]
    · refine ⟨Or.inl, fun hg => hg.resolve_right ?_⟩
      rintro ⟨b, hlo, hhi, -⟩
      omega
  | succ n ih =>
    intro k fuel st L e h hsize hfuel
    obtain ⟨fuel, rfl⟩ : ∃ f, fuel = f + 1 := ⟨fuel - 1, by omega⟩
    have hlt : k * size2MB < size := by
      rw [hsize]
      exact Nat.mul_lt_mul_of_pos_right (by omega) (by decide)
    have hstep : k * size2MB + size2MB = (k + 1) * size2MB := by ring
    have hle : (k + 1) * size2MB ≤ size := by
      rw [hsize]
      exact Nat.mul_le_mul_right _ (by omega)
    have hblock : (size2MB * v + k * size2MB) / 2 ^ 21 = size2MB * v / 2 ^ 21 + k := by
      rw [h2MB]
      omega
    rw [HostMmu.mapLoop, if_pos hlt, add64_of_lt (by omega), add64_of_lt (by omega),
      add64_of_lt (by omega), hstep]
    have hva : size2MB * v + k * size2MB < 2 ^ 48 := by omega
    rcases h.walk_alloc hva with
      ⟨hrun, hlen⟩ | ⟨st₁, L₁, t, hrun, h₁, ht, hg₁, hlen₁⟩
    · left
      rw [hrun]
      exact ⟨rfl, by omega⟩
    · rw [hrun, Option.bind_eq_bind, Option.bind_some]
      dsimp only
      rw [hblock] at ht hg₁ ⊢
      -- the word that is written
      have hword : (size2MB * p + k * size2MB &&& pteAddrMask) ||| flags ||| pteBlock =
          (HostCall.map (size2MB * v) (size2MB * p) size flags).word
            (size2MB * v / 2 ^ 21 + k) := by
        rw [descriptor_eq hflags (by omega) ⟨p + k, by rw [h2MB]; ring⟩, HostCall.word,
          Nat.add_sub_cancel_left, h2MB]
      rw [hword]
      have h₂ := h₁.setBlock ht
        ((HostCall.map (size2MB * v) (size2MB * p) size flags).word (size2MB * v / 2 ^ 21 + k))
      rcases ih (k + 1) fuel h₂ (by rw [hsize]; ring) (by omega) with
        ⟨hrun', hlen'⟩ | ⟨st', L', hrun', h', hg', hlen'⟩
      · left
        refine ⟨hrun', ?_⟩
        rw [GuestMmu.store_supply] at hlen'
        omega
      · right
        rw [← Nat.add_assoc, setBlocks_succ] at h'
        refine ⟨st', L', hrun', h', fun g => ?_, ?_⟩
        · rw [hg', hg₁]
          constructor
          · rintro ((hg | rfl) | ⟨b, hlo, hhi, rfl⟩)
            · exact .inl hg
            · exact .inr ⟨_, le_rfl, by omega, rfl⟩
            · exact .inr ⟨b, by omega, by omega, rfl⟩
          · rintro (hg | ⟨b, hlo, hhi, rfl⟩)
            · exact .inl (.inl hg)
            · by_cases hb : b = size2MB * v / 2 ^ 21 + k
              · exact .inl (.inr (by rw [hb]))
              · exact .inr ⟨b, by omega, by omega, rfl⟩
        · rw [GuestMmu.store_supply] at hlen'
          omega

/-- The loop of `UnmapRange`, with `n` blocks to go: it clears the blocks up to the first one that
no table covers. -/
lemma Represents.unmapLoop (hva : size2MB ∣ va) (hend : va + size ≤ 2 ^ 48) : ∀ (n k fuel : ℕ)
    {st : Tables} {e : ℕ → ℕ}, Represents root st L e → size = (k + n) * size2MB → n < fuel →
    ∃ st' e', unmapLoop (stage1Table root) va size fuel (k * size2MB) st = some st' ∧
      Represents root st' L e' ∧
      (∀ b, va / 2 ^ 21 + k ≤ b → b < va / 2 ^ 21 + k + n →
        (∀ x, va / 2 ^ 21 + k ≤ x → x ≤ b → (L.table 2 (x / 512)).isSome) → e' b = 0) ∧
      (∀ b, ¬(va / 2 ^ 21 + k ≤ b ∧ b < va / 2 ^ 21 + k + n ∧
        ∀ x, va / 2 ^ 21 + k ≤ x → x ≤ b → (L.table 2 (x / 512)).isSome) → e' b = e b) ∧
      st'.supply = st.supply := by
  obtain ⟨v, rfl⟩ := hva
  have h2MB : size2MB = 2 ^ 21 := rfl
  intro n
  induction n with
  | zero =>
    intro k fuel st e h hsize hfuel
    obtain ⟨fuel, rfl⟩ : ∃ f, fuel = f + 1 := ⟨fuel - 1, by omega⟩
    refine ⟨st, e, ?_, h, fun b hlo hhi => absurd hhi (by omega), fun b _ => rfl, rfl⟩
    rw [HostMmu.unmapLoop, if_neg (by rw [hsize]; exact lt_irrefl _)]
    rfl
  | succ n ih =>
    intro k fuel st e h hsize hfuel
    obtain ⟨fuel, rfl⟩ : ∃ f, fuel = f + 1 := ⟨fuel - 1, by omega⟩
    have hlt : k * size2MB < size := by
      rw [hsize]
      exact Nat.mul_lt_mul_of_pos_right (by omega) (by decide)
    have hstep : k * size2MB + size2MB = (k + 1) * size2MB := by ring
    have hle : (k + 1) * size2MB ≤ size := by
      rw [hsize]
      exact Nat.mul_le_mul_right _ (by omega)
    obtain ⟨lo, hlo⟩ : ∃ lo, size2MB * v / 2 ^ 21 = lo := ⟨_, rfl⟩
    have hblock : (size2MB * v + k * size2MB) / 2 ^ 21 = lo + k := by
      rw [← hlo, h2MB]
      omega
    rw [HostMmu.unmapLoop, if_pos hlt, add64_of_lt (by omega), add64_of_lt (by omega), hstep,
      h.walk_lookup (by omega), hblock, hlo, Option.bind_eq_bind, Option.bind_some]
    rw [hlo] at ih
    cases ht : L.table 2 ((lo + k) / 512) with
    | none =>
      -- no table: the loop ends here, and no block behind this one is reached
      refine ⟨st, e, rfl, h, fun b hb _ hall => ?_, fun b _ => rfl, rfl⟩
      have hsome := hall (lo + k) le_rfl hb
      rw [ht] at hsome
      exact absurd hsome (by decide)
    | some t =>
      have h₁ := h.setBlock ht 0
      obtain ⟨st', e', hrun, h', hclear, hkeep, hsupply⟩ :=
        ih (k + 1) fuel h₁ (by rw [hsize]; ring) (by omega)
      have htop : (L.table 2 ((lo + k) / 512)).isSome := by
        rw [ht]
        rfl
      refine ⟨st', e', hrun, h', fun b hb hb' hall => ?_, fun b hb => ?_, hsupply⟩
      · by_cases hbk : b = lo + k
        · rw [hkeep b (by omega), hbk, Function.update_self]
        · exact hclear b (by omega) (by omega) fun x hx hxb => hall x (by omega) hxb
      · have hbk : b ≠ lo + k := by
          rintro rfl
          refine hb ⟨le_rfl, by omega, fun x hx hxb => ?_⟩
          rwa [le_antisymm hxb hx]
        rw [hkeep b, Function.update_of_ne hbk]
        rintro ⟨hb₁, hb₂, hall⟩
        refine hb ⟨by omega, by omega, fun x hx hxb => ?_⟩
        rcases Nat.eq_or_lt_of_le hx with rfl | hx
        · exact htop
        · exact hall x (by omega) hxb

/-! ## One call -/

variable {c : HostCall} {older : List HostCall}

/-- The gigabytes of a range of blocks. -/
lemma exists_block_iff (lo n g : ℕ) : (∃ b, lo ≤ b ∧ b < lo + n ∧ b / 512 = g) ↔
    0 < n ∧ lo / 512 ≤ g ∧ g ≤ (lo + n - 1) / 512 := by
  constructor
  · rintro ⟨b, hlo, hhi, rfl⟩
    omega
  · rintro ⟨hn, hlo, hhi⟩
    exact ⟨max lo (512 * g), by omega, by omega, by omega⟩

/-- The gigabytes that `MapRange` touches, by their blocks. -/
lemma touches_map_iff (hva : size2MB ∣ va) {n : ℕ} (hsize : size = n * size2MB) (g : ℕ) :
    (HostCall.map va pa size flags).Touches g ↔
      ∃ b, va / 2 ^ 21 ≤ b ∧ b < va / 2 ^ 21 + n ∧ b / 512 = g := by
  have h2MB : size2MB = 2 ^ 21 := rfl
  obtain ⟨v, rfl⟩ := hva
  rw [exists_block_iff, HostCall.Touches, hsize, h2MB]
  have hlo : 2 ^ 21 * v / 2 ^ 30 = 2 ^ 21 * v / 2 ^ 21 / 512 := by omega
  have hhi : 0 < n → (2 ^ 21 * v + n * 2 ^ 21 - 1) / 2 ^ 30 =
      (2 ^ 21 * v / 2 ^ 21 + n - 1) / 512 := by
    omega
  constructor
  · rintro ⟨hn, hg, hg'⟩
    have hn : 0 < n := by omega
    exact ⟨hn, hlo ▸ hg, hhi hn ▸ hg'⟩
  · rintro ⟨hn, hg, hg'⟩
    exact ⟨by omega, hlo.symm ▸ hg, (hhi hn).symm ▸ hg'⟩

/-- Addresses and blocks of a range. -/
lemma covers_iff (hva : size2MB ∣ c.base) {n : ℕ} (hsize : c.size = n * size2MB) (a : ℕ) :
    c.Covers a ↔ c.base / 2 ^ 21 ≤ a / 2 ^ 21 ∧ a / 2 ^ 21 < c.base / 2 ^ 21 + n := by
  have h2MB : size2MB = 2 ^ 21 := rfl
  obtain ⟨v, hv⟩ := hva
  rw [HostCall.Covers, hsize, hv, h2MB]
  omega

/-- A call that reaches an address has it in its range. -/
lemma HostCall.Reaches.covers {a : ℕ} (h : c.Reaches older a) : c.Covers a := by
  cases c with
  | map => exact h
  | unmap => exact h.1

/-- A call on its tables: the blocks that it reaches have its word, and a `MapRange` leaves tables
for the gigabytes it touches. -/
lemma Represents.run (h : Represents root st L e) (hwf : c.WellFormed)
    (htouched : ∀ g, (L.table 2 g).isSome ↔ Touched older g) :
    (c.run root st = none ∧ st.supply.length < c.pages) ∨
    ∃ st' L' e', c.run root st = some st' ∧ Represents root st' L' e' ∧
      (∀ g, (L'.table 2 g).isSome ↔ Touched (c :: older) g) ∧
      (∀ a, e' (a / 2 ^ 21) = if c.Reaches older a then c.word (a / 2 ^ 21) else e (a / 2 ^ 21)) ∧
      st.supply.length ≤ st'.supply.length + c.pages := by
  have h2MB : size2MB = 2 ^ 21 := rfl
  have hcons : ∀ g, Touched (c :: older) g ↔ (L.table 2 g).isSome ∨ c.Touches g := fun g => by
    rw [htouched, Touched, Touched, List.exists_mem_cons_iff, or_comm]
  cases c with
  | map va pa size flags =>
    obtain ⟨hva, hpa, ⟨n, hn⟩, hend, hpend, hflags⟩ := hwf
    have hsize : size = n * size2MB := by rw [hn, Nat.mul_comm]
    have hpages : (HostCall.map va pa size flags).pages = 2 * n := by
      rw [HostCall.pages, hsize, h2MB]
      omega
    have hfuel : n < loopFuel := by
      rw [hsize, h2MB] at hend
      unfold loopFuel
      omega
    have hloop := h.mapLoop hva hpa hend hpend hflags n 0 loopFuel
      (by rw [hsize, Nat.zero_add]) hfuel
    rw [Nat.zero_mul, Nat.add_zero] at hloop
    rcases hloop with ⟨hrun, hlen⟩ | ⟨st', L', hrun, h', hg, hlen⟩
    · exact .inl ⟨hrun, hpages.symm ▸ hlen⟩
    · refine .inr ⟨st', L', _, hrun, h', fun g => ?_, fun a => ?_, hpages.symm ▸ hlen⟩
      · rw [hg, hcons, touches_map_iff hva hsize]
      · have hcov := covers_iff (c := .map va pa size flags) hva hsize a
        rw [setBlocks]
        congr 1
        exact propext hcov.symm
  | unmap va size =>
    obtain ⟨hva, ⟨n, hn⟩, hend⟩ := hwf
    have hsize : size = n * size2MB := by rw [hn, Nat.mul_comm]
    have hfuel : n < loopFuel := by
      rw [hsize, h2MB] at hend
      unfold loopFuel
      omega
    obtain ⟨st', e', hrun, h', hclear, hkeep, hsupply⟩ :=
      h.unmapLoop hva hend n 0 loopFuel (by rw [hsize, Nat.zero_add]) hfuel
    rw [Nat.zero_mul] at hrun
    rw [Nat.add_zero] at hclear hkeep
    refine .inr ⟨st', L, e', hrun, h', fun g => ?_, fun a => ?_, hsupply.symm ▸ le_rfl⟩
    · rw [hcons]
      exact (or_iff_left id).symm
    · have hcov := covers_iff (c := .unmap va size) hva hsize a
      -- the blocks up to the address lie in the gigabytes up to it
      have hall : va / 2 ^ 21 ≤ a / 2 ^ 21 →
          ((∀ x, va / 2 ^ 21 ≤ x → x ≤ a / 2 ^ 21 → (L.table 2 (x / 512)).isSome) ↔
            ∀ g < a / 2 ^ 30 + 1, va / 2 ^ 30 ≤ g → Touched older g) := by
        intro hle
        constructor
        · intro hx g hg hg'
          obtain ⟨x, hlo, hhi, rfl⟩ :=
            (exists_block_iff (va / 2 ^ 21) (a / 2 ^ 21 + 1 - va / 2 ^ 21) g).mpr
              ⟨by omega, by omega, by omega⟩
          exact (htouched _).mp (hx x hlo (by omega))
        · intro hg x hlo hhi
          exact (htouched _).mpr (hg _ (by omega) (by omega))
      by_cases hr : (HostCall.unmap va size).Reaches older a
      · rw [if_pos hr]
        obtain ⟨hlo, hhi⟩ := hcov.mp hr.1
        exact hclear _ hlo hhi ((hall hlo).mpr hr.2)
      · rw [if_neg hr]
        refine hkeep _ fun hb => hr ⟨hcov.mpr ⟨hb.1, hb.2.1⟩, (hall hb.1).mp hb.2.2⟩

/-! ## Sequences of calls -/

/-- The tables after some calls, the last one first. -/
def Tracks (root : ℕ) (history : List HostCall) (st : Tables) : Prop :=
  ∃ L e, Represents root st L e ∧ (∀ g, (L.table 2 g).isSome ↔ Touched history g) ∧
    ∀ a, e (a / 2 ^ 21) = (lastReaching history a).elim 0 fun c => c.word (a / 2 ^ 21)

/-- The pages that a sequence of calls may need. -/
def pagesFor (calls : List HostCall) : ℕ := (calls.map HostCall.pages).sum

/-- The layout of a root table without entries. -/
def rootLayout (root : ℕ) : Layout where
  owner p := if p = root then some (0, 0) else none
  table l i := if l = 0 ∧ i = 0 then some root else none

/-- The one table of the layout. -/
lemma rootLayout_table (root l i : ℕ) :
    (rootLayout root).table l i = if l = 0 ∧ i = 0 then some root else none := rfl

/-- A root table without entries. -/
lemma EmptyRoot.tracks (h : EmptyRoot root st) : Tracks root [] st := by
  have hlower : ∀ l i, (rootLayout root).table (l + 1) i = none := fun l i => by
    rw [rootLayout_table, if_neg fun hroot => Nat.succ_ne_zero l hroot.1]
  have htable : ∀ {l i t}, (rootLayout root).table l i = some t → l = 0 ∧ i = 0 ∧ t = root := by
    intro l i t ht
    rw [rootLayout_table] at ht
    split_ifs at ht with hroot
    exact ⟨hroot.1, hroot.2, (Option.some.inj ht).symm⟩
  have hvalid : (rootLayout root).Valid root st.supply := by
    refine ⟨rfl, fun l i t ht => ?_, fun p hp => ?_, h.nodup⟩
    · obtain ⟨rfl, rfl, rfl⟩ := htable ht
      exact ⟨h.page, if_pos rfl⟩
    · exact ⟨(h.supply p hp).1, if_neg (h.supply p hp).2⟩
  refine ⟨rootLayout root, fun _ => 0, ⟨hvalid, fun l _ i t ht => ?_, fun b t ht => ?_,
    fun l _ i _ => hlower l i, fun _ _ => rfl⟩, fun g => ?_, fun _ => rfl⟩
  · obtain ⟨rfl, -, rfl⟩ := htable ht
    rw [hlower, h.zero _ (Nat.mod_lt _ (by norm_num))]
    rfl
  · rw [hlower] at ht
    cases ht
  · rw [hlower]
    simp [Touched]

/-- One call. -/
lemma Tracks.run {history : List HostCall} (h : Tracks root history st) (hwf : c.WellFormed) :
    (c.run root st = none ∧ st.supply.length < c.pages) ∨
    ∃ st', c.run root st = some st' ∧ Tracks root (c :: history) st' ∧
      st.supply.length ≤ st'.supply.length + c.pages := by
  obtain ⟨L, e, hrep, htouched, hword⟩ := h
  rcases hrep.run hwf htouched with hnone | ⟨st', L', e', hrun, hrep', htouched', hword', hlen⟩
  · exact .inl hnone
  · refine .inr ⟨st', hrun, ⟨L', e', hrep', htouched', fun a => ?_⟩, hlen⟩
    rw [hword', lastReaching]
    split_ifs
    · rfl
    · exact hword a

/-- All calls of a sequence. -/
lemma Tracks.runCalls : ∀ (calls : List HostCall) {history : List HostCall} {st : Tables},
    Tracks root history st → (∀ c ∈ calls, c.WellFormed) →
    (runCalls root calls st = none ∧ st.supply.length < pagesFor calls) ∨
    ∃ st', runCalls root calls st = some st' ∧ Tracks root (calls.reverse ++ history) st' := by
  intro calls
  induction calls with
  | nil => exact fun h _ => .inr ⟨_, rfl, h⟩
  | cons c calls ih =>
    intro history st h hwf
    have hsum : pagesFor (c :: calls) = c.pages + pagesFor calls := by
      rw [pagesFor, pagesFor, List.map_cons, List.sum_cons]
    rw [HostMmu.runCalls, List.foldlM_cons]
    rcases h.run (hwf c List.mem_cons_self) with ⟨hrun, hlen⟩ | ⟨st₁, hrun, h₁, hlen⟩
    · exact .inl ⟨by rw [hrun]; rfl, by omega⟩
    · rw [hrun, Option.bind_eq_bind, Option.bind_some, List.reverse_cons, List.append_assoc]
      rcases ih h₁ fun c hc => hwf c (List.mem_cons_of_mem _ hc) with ⟨hrun', hlen'⟩ | hok
      · exact .inl ⟨hrun', by omega⟩
      · exact .inr hok

/-- A call that reaches an address was made before it. -/
lemma lastReaching_mem {history : List HostCall} {a : ℕ} (h : lastReaching history a = some c) :
    c ∈ history ∧ c.Covers a := by
  induction history with
  | nil => exact absurd h (by simp [lastReaching])
  | cons c' older ih =>
    rw [lastReaching] at h
    split_ifs at h with hr
    · obtain rfl := Option.some.inj h
      exact ⟨List.mem_cons_self, hr.covers⟩
    · exact ⟨List.mem_cons_of_mem _ (ih h).1, (ih h).2⟩

/-- What the hardware makes of the word of a call. -/
lemma translateBlock_word (hwf : c.WellFormed) {a : ℕ} (hcov : c.Covers a) :
    translateBlock (c.word (a / 2 ^ 21)) a = c.translation a := by
  cases c with
  | map va pa size flags =>
    obtain ⟨⟨v, rfl⟩, ⟨p, rfl⟩, hsize, hend, hpend, hflags⟩ := hwf
    obtain ⟨hlo, hhi⟩ := hcov
    dsimp only [HostCall.base, HostCall.size] at hlo hhi
    rw [show size2MB = 2 ^ 21 from rfl] at hend hpend hlo hhi ⊢
    rw [HostCall.word, HostCall.translation, translateBlock_add hflags (by omega)
      ⟨p + (a / 2 ^ 21 - 2 ^ 21 * v / 2 ^ 21), by ring⟩]
    congr 2
    omega
  | unmap va size => rfl

/-- The word of a call is no table descriptor. -/
lemma word_mod_ne (hwf : c.WellFormed) (b : ℕ) : c.word b % 4 ≠ 3 := by
  cases c with
  | map va pa size flags =>
    obtain ⟨-, ⟨p, rfl⟩, -, -, -, hflags⟩ := hwf
    have hblock := hflags.block
    rw [HostCall.word, show size2MB = 2 ^ 21 from rfl]
    omega
  | unmap va size => exact of_decide_eq_true rfl

/-- What the hardware finds after some calls. -/
lemma Tracks.hwWalk_eq {history : List HostCall} (h : Tracks root history st)
    (hwf : ∀ c ∈ history, c.WellFormed) {a : ℕ} (ha : a < 2 ^ 48) :
    hwWalk st.mem root a = (lastReaching history a).bind fun c => c.translation a := by
  obtain ⟨L, e, hrep, -, hword⟩ := h
  cases hlast : lastReaching history a with
  | none =>
    have hzero : e (a / 2 ^ 21) = 0 := by rw [hword, hlast, Option.elim_none]
    rw [hrep.hwWalk_eq ha (by rw [hzero]; decide), hzero]
    rfl
  | some c =>
    obtain ⟨hmem, hcov⟩ := lastReaching_mem hlast
    have hentry : e (a / 2 ^ 21) = c.word (a / 2 ^ 21) := by rw [hword, hlast, Option.elim_some]
    have hblock : e (a / 2 ^ 21) % 4 ≠ 3 := by
      rw [hentry]
      exact word_mod_ne (hwf c hmem) _
    rw [hrep.hwWalk_eq ha hblock, hentry, translateBlock_word (hwf c hmem) hcov, Option.bind_some]

/-! ## The last call and the last that reaches an address -/

/-- Where no range contains an address, no call reaches it. -/
lemma lastReaching_of_none {history : List HostCall} {a : ℕ} (h : lastCovering history a = none) :
    lastReaching history a = none := by
  cases hlast : lastReaching history a with
  | none => rfl
  | some c =>
    obtain ⟨hmem, hcov⟩ := lastReaching_mem hlast
    exact absurd (decide_eq_true hcov) (List.find?_eq_none.mp h c hmem)

/-- A `MapRange` that is the last call for an address is also the last one that reaches it. -/
lemma lastReaching_of_map {history : List HostCall} {a : ℕ}
    (h : lastCovering history a = some (.map va pa size flags)) :
    lastReaching history a = some (.map va pa size flags) := by
  induction history with
  | nil => cases h
  | cons c older ih =>
    rw [lastCovering, List.find?_cons] at h
    by_cases hcov : c.Covers a
    · rw [decide_eq_true hcov] at h
      obtain rfl := Option.some.inj h
      exact if_pos hcov
    · rw [decide_eq_false hcov] at h
      rw [lastReaching, if_neg fun hr => hcov hr.covers]
      exact ih h

/-- No mapping survives an `UnmapRange` for its address: where the last call for an address is an
`UnmapRange`, the last one that reaches it is no `MapRange`. -/
def UnmapsReach (calls : List HostCall) : Prop :=
  ∀ va base size, lastCovering calls.reverse va = some (.unmap base size) →
    ∀ base' pa size' flags, lastReaching calls.reverse va ≠ some (.map base' pa size' flags)

/-- What is found at an address, against what was called for. -/
lemma translation_eq_iff (history : List HostCall) (a : ℕ) :
    ((lastReaching history a).bind fun c => c.translation a) =
        ((lastCovering history a).bind fun c => c.translation a) ↔
      ∀ base size, lastCovering history a = some (.unmap base size) →
        ∀ base' pa size' flags, lastReaching history a ≠ some (.map base' pa size' flags) := by
  cases hcov : lastCovering history a with
  | none =>
    rw [lastReaching_of_none hcov]
    exact ⟨fun _ _ _ h => (nomatch h), fun _ => rfl⟩
  | some c =>
    cases c with
    | map va pa size flags =>
      rw [lastReaching_of_map hcov]
      exact ⟨fun _ _ _ h => (nomatch h), fun _ => rfl⟩
    | unmap va size =>
      cases hlast : lastReaching history a with
      | none => exact ⟨fun _ _ _ _ _ _ _ _ h => (nomatch h), fun _ => rfl⟩
      | some c =>
        cases c with
        | map base' pa size' flags =>
          refine ⟨fun h => (nomatch h), fun h => absurd rfl (h va size rfl base' pa size' flags)⟩
        | unmap base' size' => exact ⟨fun _ _ _ _ _ _ _ _ h => (nomatch h), fun _ => rfl⟩

/-- Calls in the 48-bit space do not concern other addresses. -/
lemma lastCovering_of_le {history : List HostCall} (hwf : ∀ c ∈ history, c.WellFormed) {a : ℕ}
    (ha : 2 ^ 48 ≤ a) : lastCovering history a = none := by
  refine List.find?_eq_none.mpr fun c hc => ?_
  rw [decide_eq_true_iff, HostCall.Covers]
  have hend : c.base + c.size ≤ 2 ^ 48 := by
    cases c with
    | map => exact (hwf _ hc).2.2.2.1
    | unmap => exact (hwf _ hc).2.2
  omega

/-- **Calls on an empty table.**  With two pages for each block the calls return, and whenever they
return, every address translates as the last call for it says if and only if no `UnmapRange` ends
before it reaches a mapping. -/
theorem translates_as_called_iff (h : EmptyRoot root st) {calls : List HostCall}
    (hwf : ∀ c ∈ calls, c.WellFormed) :
    (pagesFor calls ≤ st.supply.length → (runCalls root calls st).isSome) ∧
    ∀ st', runCalls root calls st = some st' →
      ((∀ va, hwWalk st'.mem root va = calledFor calls va) ↔ UnmapsReach calls) := by
  have hwf' : ∀ c ∈ calls.reverse, c.WellFormed := fun c hc => hwf c (List.mem_reverse.mp hc)
  rcases h.tracks.runCalls calls hwf with ⟨hnone, hlen⟩ | ⟨st₁, hrun, htracks⟩
  · refine ⟨fun hle => absurd hle (by omega), fun st' hsome => ?_⟩
    rw [hnone] at hsome
    cases hsome
  · rw [List.append_nil] at htracks
    refine ⟨fun _ => by rw [hrun]; rfl, fun st' hsome => ?_⟩
    obtain rfl : st₁ = st' := Option.some.inj (hrun.symm.trans hsome)
    constructor
    · intro hall va base size hcov
      have ha : va < 2 ^ 48 := by
        by_contra hge
        rw [lastCovering_of_le hwf' (by omega)] at hcov
        cases hcov
      have heq := hall va
      rw [htracks.hwWalk_eq hwf' ha, calledFor, translation_eq_iff] at heq
      exact heq base size hcov
    · intro hreach va
      by_cases ha : va < 2 ^ 48
      · rw [htracks.hwWalk_eq hwf' ha, calledFor, translation_eq_iff]
        exact hreach va
      · rw [calledFor, lastCovering_of_le hwf' (by omega), hwWalk, if_neg ha]
        rfl

/-- The flags of normal memory that the tests use. -/
lemma isFlags_normal : IsFlags (pteNormal ||| pteApRw) := ⟨by decide, by decide, by decide⟩

/-- A root and two pages. -/
def smallTables : Tables where
  mem _ := 0
  supply := [0x81000, 0x82000]

lemma emptyRoot_small : EmptyRoot 0x80000 smallTables :=
  ⟨⟨by decide, by decide⟩, fun _ _ => rfl, by
    intro p hp
    rcases List.mem_pair.mp hp with rfl | rfl <;>
      exact ⟨⟨by decide, by decide⟩, by decide⟩, by decide⟩

/-- One block that is mapped and then unmapped, as in the test. -/
theorem translates_as_called_round :
    ∃ st', runCalls 0x80000 [.map 0x40000000 0x40000000 size2MB (pteNormal ||| pteApRw),
        .unmap 0x40000000 size2MB] smallTables = some st' ∧
      ((∀ va, hwWalk st'.mem 0x80000 va = calledFor [.map 0x40000000 0x40000000 size2MB
          (pteNormal ||| pteApRw), .unmap 0x40000000 size2MB] va) ↔
        UnmapsReach [.map 0x40000000 0x40000000 size2MB (pteNormal ||| pteApRw),
          .unmap 0x40000000 size2MB]) := by
  have hwf : ∀ c ∈ [.map 0x40000000 0x40000000 size2MB (pteNormal ||| pteApRw),
      .unmap 0x40000000 size2MB], HostCall.WellFormed c := by
    intro c hc
    rcases List.mem_pair.mp hc with rfl | rfl
    · exact ⟨by decide, by decide, by decide, by decide, by decide, isFlags_normal⟩
    · exact ⟨by decide, by decide, by decide⟩
  rcases emptyRoot_small.tracks.runCalls _ hwf with ⟨-, hlen⟩ | ⟨st', hrun, -⟩
  · exact absurd hlen (by decide)
  · exact ⟨st', hrun, (translates_as_called_iff emptyRoot_small hwf).2 st' hrun⟩

/-- A block is mapped at 1 GiB, and the 4 MiB around its start are unmapped: the loop meets no table
for the block below, ends, and the mapping stays. -/
theorem unmap_stops_early : ∃ st', runCalls 0x80000 [.map 0x40000000 0x40000000 size2MB
      (pteNormal ||| pteApRw), .unmap 0x3FE00000 (2 * size2MB)] smallTables = some st' ∧
    hwWalk st'.mem 0x80000 0x40000000 = some ⟨0x40000000, pteNormal ||| pteApRw⟩ ∧
    calledFor [.map 0x40000000 0x40000000 size2MB (pteNormal ||| pteApRw),
      .unmap 0x3FE00000 (2 * size2MB)] 0x40000000 = none := by
  have hwf : ∀ c ∈ [.map 0x40000000 0x40000000 size2MB (pteNormal ||| pteApRw),
      .unmap 0x3FE00000 (2 * size2MB)], HostCall.WellFormed c := by
    intro c hc
    rcases List.mem_pair.mp hc with rfl | rfl
    · exact ⟨by decide, by decide, by decide, by decide, by decide, isFlags_normal⟩
    · exact ⟨by decide, by decide, by decide⟩
  rcases emptyRoot_small.tracks.runCalls _ hwf with ⟨-, hlen⟩ | ⟨st', hrun, htracks⟩
  · exact absurd hlen (by decide)
  · refine ⟨st', hrun, ?_, by decide⟩
    rw [List.append_nil] at htracks
    rw [htracks.hwWalk_eq (fun c hc => hwf c (List.mem_reverse.mp hc)) (by decide)]
    decide

end HostMmu

end HyperBerry
