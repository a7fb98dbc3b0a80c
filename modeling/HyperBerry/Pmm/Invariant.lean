import HyperBerry.Pmm.FreeList

/-!
# The allocator invariant

`Inv base n P s free held` describes a state `s` of the allocator over a pool of `n` pages starting
at `base`: the free lists hold the pages `free`, the blocks in `held` are outside the free lists,
free and held blocks together tile the page set `P`, and, as long as no bit of the pair bitmap is
shared (`NoAlias`), the bit of a pair of buddies inside `P` says whether exactly one of them is
free, and no two buddies are free.

The allocator moves in four steps, each of which keeps the invariant: taking a free block
(`Inv.take`), freeing a held block (`Inv.give`), splitting a held block (`Inv.split`) and joining
two held buddies (`Inv.join`).
-/

namespace HyperBerry

namespace Pmm

/-- The page at which the block of order `o` in the tail of a pool of `n` pages starts. -/
def tailPage (n o : ℕ) : ℕ := n / 2 ^ (o + 1) * 2 ^ (o + 1)

/-- No bit of the pair bitmap is used for two pairs inside `P`: whenever the tail of the pool has a
block of order `o` and the pool has a complete first pair of order `o + 1`, one of the two lies
outside `P`. -/
def NoAlias (n : ℕ) (P : Set ℕ) : Prop :=
  ∀ o, o + 1 < maxOrder → 2 ^ o ≤ n % 2 ^ (o + 1) → 2 ^ (o + 2) ≤ n →
    ¬ (0 ∈ P ∧ tailPage n o ∈ P)

/-- The bit of a pair of buddies inside `P` says whether exactly one of them is free. -/
def PairBits (n : ℕ) (P : Set ℕ) (s : Pmm) (free : ℕ → List ℕ) : Prop :=
  ∀ b : Block, b.Aligned → b.order < maxOrder → b.pages ⊆ P → b.buddy.pages ⊆ P →
    s.bitAt (pairBit n b.order b.page) =
      xor (decide (b.page ∈ free b.order)) (decide (b.buddy.page ∈ free b.order))

/-- The pool is a whole number of pages, small enough for the bitmap, and does not wrap. -/
structure Pool (base n : ℕ) (s : Pmm) : Prop where
  /-- The size of the pool in pages. -/
  size_eq : s.size = pageSize * n
  /-- The bitmap has room for this many pages. -/
  pages_le : n ≤ 2 ^ 21
  /-- The pool ends inside the address space. -/
  end_lt : base + pageSize * n < 2 ^ 64

/-- The allocator invariant; see the head of this file. -/
structure Inv (base n : ℕ) (P : Set ℕ) (s : Pmm) (free : ℕ → List ℕ) (held : List Block) :
    Prop where
  /-- The base of the pool does not change. -/
  base_eq : s.base = base
  /-- A pool with a page is well formed. -/
  pool : P.Nonempty → Pool base n s
  /-- No page of the pool in use is at the null address. -/
  ne_zero : ∀ p ∈ P, pageAddr base p ≠ 0
  /-- The links of the free lists. -/
  lists : Lists base s free
  /-- Free and held blocks are aligned, inside the pool and pairwise disjoint. -/
  tiling : Tiling n maxOrder (blocksOf maxOrder free ++ held)
  /-- Free and held blocks make up `P`. -/
  cover_eq : cover (blocksOf maxOrder free ++ held) = P
  /-- The pair bitmap. -/
  bits : NoAlias n P → PairBits n P s free
  /-- No two free blocks are buddies. -/
  coalesced : NoAlias n P → Coalesced maxOrder (blocksOf maxOrder free)

/-! ## Shared bits -/

/-- Aligned blocks of one order in one pair are equal or buddies. -/
lemma eq_or_eq_buddy {b c : Block} (hb : b.Aligned) (hc : c.Aligned) (ho : c.order = b.order)
    (hpair : c.page / 2 ^ (c.order + 1) = b.page / 2 ^ (b.order + 1)) : c = b ∨ c = b.buddy := by
  obtain ⟨m, hm⟩ := hb
  obtain ⟨k, hk⟩ := hc
  rw [ho] at hk hpair
  have hhalf : ∀ j, 2 ^ b.order * j / 2 ^ (b.order + 1) = j / 2 := fun j => by
    rw [pow_succ, ← Nat.div_div_eq_div_mul, Nat.mul_div_cancel_left j (by positivity)]
  rw [hm, hk, hhalf, hhalf] at hpair
  by_cases hkm : k = m
  · left
    exact Block.ext ho (by rw [hk, hm, hkm])
  · right
    refine Block.ext ho ?_
    rw [Block.buddy, hk, hm, two_pow_mul_xor_two_pow]
    congr 1
    rcases Nat.even_or_odd' m with ⟨j, rfl | rfl⟩
    · rw [two_mul_xor_one]
      omega
    · rw [two_mul_add_one_xor_one]
      omega

/-- A block and its buddy have the same bit. -/
lemma pairBit_buddy {n : ℕ} {b : Block} (hb : b.Aligned) :
    pairBit n b.order b.buddy.page = pairBit n b.order b.page := by
  have hpos : 0 < 2 ^ b.order := by positivity
  have key : ∀ p, 2 ^ (b.order + 1) ∣ p → (p + 2 ^ b.order) / 2 ^ (b.order + 1) =
      p / 2 ^ (b.order + 1) := by
    rintro p ⟨j, rfl⟩
    rw [Nat.mul_add_div (by positivity), Nat.mul_div_cancel_left j (by positivity),
      Nat.div_eq_of_lt (by rw [pow_succ]; omega), Nat.add_zero]
  unfold pairBit
  rcases Block.buddy_cases hb with ⟨hdvd, hpage⟩ | ⟨hdvd, hpage⟩
  · rw [hpage, key _ hdvd]
  · rw [hpage, key _ hdvd]

/-- Without shared bits, the bit of a pair inside `P` is used by the blocks of that pair alone.  The
other block `c` lies inside `P` as well, or page `0` does not. -/
lemma eq_or_eq_buddy_of_pairBit_eq {n : ℕ} {P : Set ℕ} (hna : NoAlias n P)
    (hP : ∀ x ∈ P, x < n) {b c : Block} (hb : b.Aligned) (hbo : b.order < maxOrder)
    (hbP : b.pages ⊆ P) (hbP' : b.buddy.pages ⊆ P) (hc : c.Aligned)
    (hcend : c.page + 2 ^ c.order ≤ n) (hcP : 0 ∈ P → c.pages ⊆ P)
    (h : pairBit n b.order b.page = pairBit n c.order c.page) : c = b ∨ c = b.buddy := by
  have hcpos : 0 < 2 ^ c.order := by positivity
  have hbpos : 0 < 2 ^ b.order := by positivity
  -- the first page of the pair
  obtain ⟨j, hj, hjP⟩ : ∃ j, b.page / 2 ^ (b.order + 1) = j ∧
      (⟨b.order + 1, 2 ^ (b.order + 1) * j⟩ : Block).pages ⊆ P := by
    refine ⟨_, rfl, ?_⟩
    rcases Block.buddy_cases hb with ⟨hdvd, hpage⟩ | ⟨hdvd, hpage⟩
    · rw [Nat.mul_div_cancel' hdvd, pages_halves]
      refine Set.union_subset hbP ?_
      rw [← hpage]
      exact hbP'
    · have hdiv : b.page / 2 ^ (b.order + 1) = b.buddy.page / 2 ^ (b.order + 1) := by
        have := pairBit_buddy (n := n) hb
        unfold pairBit at this
        omega
      rw [hdiv, Nat.mul_div_cancel' hdvd, pages_halves]
      refine Set.union_subset hbP' ?_
      rw [← hpage]
      exact hbP
  have hend : 2 ^ (b.order + 1) * j + 2 ^ (b.order + 1) ≤ n := by
    have hpos : 0 < 2 ^ (b.order + 1) := by positivity
    have := hP (2 ^ (b.order + 1) * j + 2 ^ (b.order + 1) - 1)
      (hjP ⟨by simp only; omega, by simp only; omega⟩)
    omega
  rcases eq_of_pairBit_eq (by rw [hj, Nat.add_mul, Nat.mul_comm, Nat.one_mul]; exact hend) hcend h
    with ⟨ho, hpair⟩ | ⟨ho, hzero, hlast⟩
  · exact eq_or_eq_buddy hb hc ho.symm hpair.symm
  · -- the shared bit: `c` is the tail block of its order and the pair of `b` starts at page `0`
    exfalso
    have hpow : 2 ^ (c.order + 1) = 2 * 2 ^ c.order := by rw [pow_succ, Nat.mul_comm]
    have hdvdc : 2 ^ c.order ∣ tailPage n c.order :=
      (pow_dvd_pow 2 (Nat.le_succ _)).trans (Nat.dvd_mul_left _ _)
    have hn : tailPage n c.order + n % 2 ^ (c.order + 1) = n := Nat.div_add_mod' n _
    have hmodlt : n % 2 ^ (c.order + 1) < 2 ^ (c.order + 1) := Nat.mod_lt _ (by positivity)
    have hge : tailPage n c.order ≤ c.page := by
      rw [tailPage, ← hlast]
      exact Nat.div_mul_le_self _ _
    have hcpage : c.page = tailPage n c.order := by
      obtain ⟨x, hx⟩ := hc
      obtain ⟨y, hy⟩ := hdvdc
      have hxy : 2 ^ c.order * x < 2 ^ c.order * (y + 1) := by
        rw [Nat.mul_add, ← hx, ← hy]
        omega
      have hyx : 2 ^ c.order * y ≤ 2 ^ c.order * x := by omega
      have h1 := Nat.lt_of_mul_lt_mul_left hxy
      have h2 := Nat.le_of_mul_le_mul_left hyx hcpos
      rw [hx, hy, show x = y by omega]
    have h0 : 0 ∈ P := by
      rw [hj] at hzero
      subst hzero
      exact hjP (by simp)
    refine hna c.order (by omega) (by omega) ?_ ⟨h0, hcP h0 ?_⟩
    · rw [ho] at hend
      have : 2 ^ (c.order + 2) = 2 ^ (c.order + 1 + 1) := rfl
      omega
    · rw [← hcpage]
      exact c.page_mem_pages

/-- Flipping the bit of a block keeps the pair bits when the block is added to or taken off its
list. -/
lemma PairBits.flip {n : ℕ} {P : Set ℕ} {s s' : Pmm} {free free' : ℕ → List ℕ} {c : Block}
    (h : PairBits n P s free) (hna : NoAlias n P) (hP : ∀ x ∈ P, x < n) (hc : c.Aligned)
    (hcP : c.pages ⊆ P)
    (hbits : ∀ i, s'.bitAt i = (s.toggled (pairBit n c.order c.page)).bitAt i)
    (hmem : ∀ b : Block, b ≠ c → (b.page ∈ free' b.order ↔ b.page ∈ free b.order))
    (hflip : c.page ∈ free' c.order ↔ c.page ∉ free c.order) : PairBits n P s' free' := by
  intro b hb hbo hbP hbP'
  have hbb : b.buddy ≠ b := Block.buddy_ne hb
  have hmem' : b.buddy ≠ c → (b.buddy.page ∈ free' b.order ↔ b.buddy.page ∈ free b.order) :=
    fun hne => hmem b.buddy hne
  rw [hbits, bitAt_toggled]
  have hold := h b hb hbo hbP hbP'
  by_cases hbit : pairBit n b.order b.page = pairBit n c.order c.page
  · rw [if_pos hbit, ← hbit, hold]
    rcases eq_or_eq_buddy_of_pairBit_eq hna hP hb hbo hbP hbP' hc (c.end_le_of_pages_subset hP hcP)
      (fun _ => hcP) hbit with rfl | rfl
    · simp only [hmem' hbb, hflip]
      by_cases h1 : c.page ∈ free c.order <;> simp [h1]
    · simp only [hmem b hbb.symm]
      have hflip' : b.buddy.page ∈ free' b.order ↔ b.buddy.page ∉ free b.order := hflip
      by_cases h1 : b.buddy.page ∈ free b.order <;> simp [h1, hflip']
  · rw [if_neg hbit, hold]
    have hne : b ≠ c := fun hbc => hbit (by rw [hbc])
    have hne' : b.buddy ≠ c := by
      intro hbc
      apply hbit
      rw [← hbc, Block.buddy_order, pairBit_buddy hb]
    simp only [hmem b hne, hmem' hne']

/-! ## What the invariant says about a block -/

section Steps

variable {base n : ℕ} {P : Set ℕ} {s : Pmm} {free : ℕ → List ℕ} {held : List Block} {b c : Block}

/-- The pages in use lie in the pool. -/
lemma Inv.lt_of_mem (h : Inv base n P s free held) : ∀ x ∈ P, x < n := by
  intro x hx
  rw [← h.cover_eq] at hx
  exact h.tiling.lt_of_mem_cover hx

/-- The pages of a free or held block are in use. -/
lemma Inv.pages_subset (h : Inv base n P s free held)
    (hb : b ∈ blocksOf maxOrder free ++ held) : b.pages ⊆ P :=
  h.cover_eq ▸ pages_subset_cover hb

/-- With a block, the pool is well formed. -/
lemma Inv.pool_of_mem (h : Inv base n P s free held)
    (hb : b ∈ blocksOf maxOrder free ++ held) : Pool base n s :=
  h.pool ⟨b.page, h.pages_subset hb b.page_mem_pages⟩

/-- A block lies inside the address space. -/
lemma Inv.block_end_lt (h : Inv base n P s free held)
    (hb : b ∈ blocksOf maxOrder free ++ held) : pageAddr base (b.page + 2 ^ b.order) < 2 ^ 64 := by
  have hend := (h.pool_of_mem hb).end_lt
  have hbound := h.tiling.bound b hb
  have : pageSize * (b.page + 2 ^ b.order) ≤ pageSize * n := Nat.mul_le_mul_left _ hbound
  unfold pageAddr
  omega

/-- The address of a block is a 64-bit address. -/
lemma Inv.addr_lt (h : Inv base n P s free held)
    (hb : b ∈ blocksOf maxOrder free ++ held) : pageAddr base b.page < 2 ^ 64 := by
  have := h.block_end_lt hb
  have hle : pageSize * b.page ≤ pageSize * (b.page + 2 ^ b.order) :=
    Nat.mul_le_mul_left _ (Nat.le_add_right _ _)
  unfold pageAddr at *
  omega

/-- No free list repeats a page. -/
lemma Inv.free_nodup (h : Inv base n P s free held) {o : ℕ} (ho : o ≤ maxOrder) :
    (free o).Nodup :=
  nodup_of_nodup_blocksOf (List.nodup_append.mp h.tiling.nodup).1 ho

/-- A free page is on the list of one order. -/
lemma Inv.free_order_eq (h : Inv base n P s free held) {o o' q : ℕ} (ho : o ≤ maxOrder)
    (ho' : o' ≤ maxOrder) (hq : q ∈ free o) (hq' : q ∈ free o') : o = o' := by
  have hm : (⟨o, q⟩ : Block) ∈ blocksOf maxOrder free ++ held :=
    List.mem_append_left _ (mem_blocksOf.mpr ⟨ho, hq⟩)
  have hm' : (⟨o', q⟩ : Block) ∈ blocksOf maxOrder free ++ held :=
    List.mem_append_left _ (mem_blocksOf.mpr ⟨ho', hq'⟩)
  have heq := h.tiling.eq_of_mem hm hm' (Block.page_mem_pages _) (Block.page_mem_pages _)
  exact congrArg Block.order heq

/-- The free blocks have 64-bit addresses. -/
lemma Inv.free_addr_lt (h : Inv base n P s free held) {o : ℕ} (ho : o ≤ maxOrder) :
    ∀ q ∈ free o, pageAddr base q < 2 ^ 64 := fun q hq =>
  h.addr_lt (b := ⟨o, q⟩) (List.mem_append_left _ (mem_blocksOf.mpr ⟨ho, hq⟩))

/-- A held block is on no free list. -/
lemma Inv.held_not_free (h : Inv base n P s free (b :: held)) :
    ∀ o ≤ maxOrder, b.page ∉ free o := by
  intro o ho hmem
  have ht := h.tiling.perm List.perm_middle
  refine Set.disjoint_left.mp ht.disjoint_cover b.page_mem_pages ?_
  exact pages_subset_cover (List.mem_append_left _ (mem_blocksOf.mpr ⟨ho, hmem⟩))
    (Block.page_mem_pages ⟨o, b.page⟩)

/-- The bit of a block inside the pool is flipped, and its new value returned. -/
lemma Pool.bitmapToggle_eq (hpool : Pool base n s) (hbase : s.base = base)
    (ho : b.order ≤ maxOrder) (hend : b.page + 2 ^ b.order ≤ n) :
    s.bitmapToggle (pageAddr base b.page) b.order =
      some (s.toggled (pairBit n b.order b.page),
        if (s.toggled (pairBit n b.order b.page)).bitAt (pairBit n b.order b.page) then 1
        else 0) := by
  subst hbase
  have hlt : pageAddr s.base b.page < 2 ^ 64 := by
    have hend' := hpool.end_lt
    have : pageSize * b.page ≤ pageSize * n :=
      Nat.mul_le_mul_left _ ((Nat.le_add_right _ _).trans hend)
    unfold pageAddr
    omega
  have hidx : s.bitmapIndex (pageAddr s.base b.page) b.order = pairBit n b.order b.page :=
    bitmapIndex_pageAddr hpool.size_eq hlt
  have hbit : s.bitmapIndex (pageAddr s.base b.page) b.order < 8 * bitmapBytes := by
    rw [hidx]
    exact pairBit_lt hpool.pages_le ho hend
  rw [bitmapToggle_eq_of_lt hbit, hidx]

/-- Flipping the bit of a free or held block. -/
lemma Inv.bitmapToggle_eq (h : Inv base n P s free held)
    (hb : b ∈ blocksOf maxOrder free ++ held) :
    s.bitmapToggle (pageAddr base b.page) b.order =
      some (s.toggled (pairBit n b.order b.page),
        if (s.toggled (pairBit n b.order b.page)).bitAt (pairBit n b.order b.page) then 1
        else 0) :=
  (h.pool_of_mem hb).bitmapToggle_eq h.base_eq (h.tiling.order_le b hb) (h.tiling.bound b hb)

/-! ## Steps -/

/-- The blocks on the lists after adding one. -/
lemma mem_update_cons : c.page ∈ Function.update free b.order (b.page :: free b.order) c.order ↔
    c = b ∨ c.page ∈ free c.order := by
  by_cases ho : c.order = b.order
  · rw [ho, Function.update_self, List.mem_cons]
    exact or_congr_left ⟨fun hp => Block.ext ho hp, fun hcb => by rw [hcb]⟩
  · rw [Function.update_of_ne ho]
    exact ⟨Or.inr, fun hcb => hcb.resolve_left fun hcb => ho (by rw [hcb])⟩

/-- The blocks on the lists after taking one off. -/
lemma mem_update_erase (hnd : (free b.order).Nodup) :
    c.page ∈ Function.update free b.order ((free b.order).erase b.page) c.order ↔
      c ≠ b ∧ c.page ∈ free c.order := by
  by_cases ho : c.order = b.order
  · rw [ho, Function.update_self, hnd.mem_erase_iff]
    exact and_congr_left fun _ => not_congr ⟨fun hp => Block.ext ho hp, fun hcb => by rw [hcb]⟩
  · rw [Function.update_of_ne ho]
    exact ⟨fun hc => ⟨fun hcb => ho (by rw [hcb]), hc⟩, fun hc => hc.2⟩

/-- Changing the held blocks without changing the tiled pages. -/
lemma Inv.of_held (h : Inv base n P s free held) {held' : List Block}
    (ht : Tiling n maxOrder (blocksOf maxOrder free ++ held'))
    (hc : cover (blocksOf maxOrder free ++ held') = cover (blocksOf maxOrder free ++ held)) :
    Inv base n P s free held' :=
  { h with tiling := ht, cover_eq := hc.trans h.cover_eq }

/-- Splitting a held block. -/
lemma Inv.split {k p : ℕ} (h : Inv base n P s free (⟨k + 1, p⟩ :: held)) :
    Inv base n P s free (⟨k, p⟩ :: ⟨k, p + 2 ^ k⟩ :: held) := by
  have hperm : ∀ (x y : Block), (x :: y :: (blocksOf maxOrder free ++ held)).Perm
      (blocksOf maxOrder free ++ x :: y :: held) := fun x y =>
    ((List.perm_middle.symm.cons x).trans List.perm_middle.symm)
  refine h.of_held ((h.tiling.perm List.perm_middle).split.perm (hperm _ _)) ?_
  rw [← cover_perm (hperm _ _), cover_halves]
  exact cover_perm List.perm_middle.symm

/-- Joining two held buddies. -/
lemma Inv.join {k p : ℕ} (hp : 2 ^ (k + 1) ∣ p) (hk : k + 1 ≤ maxOrder)
    (h : Inv base n P s free (⟨k, p⟩ :: ⟨k, p + 2 ^ k⟩ :: held)) :
    Inv base n P s free (⟨k + 1, p⟩ :: held) := by
  have hperm : ∀ (x y : Block), (blocksOf maxOrder free ++ x :: y :: held).Perm
      (x :: y :: (blocksOf maxOrder free ++ held)) := fun x y =>
    List.perm_middle.trans (List.perm_middle.cons x)
  refine h.of_held (((h.tiling.perm (hperm _ _)).join hp hk).perm List.perm_middle.symm) ?_
  rw [cover_perm (hperm _ _), cover_halves]
  exact cover_perm List.perm_middle

/-- Reordering the held blocks. -/
lemma Inv.held_perm {held' : List Block} (h : Inv base n P s free held) (hp : held.Perm held') :
    Inv base n P s free held' :=
  h.of_held (h.tiling.perm (hp.append_left _)) (cover_perm (hp.append_left _).symm)

/-- The pair bits after freeing a held block and flipping its bit. -/
lemma Inv.bits_give (h : Inv base n P s free (b :: held)) {s' : Pmm}
    (hbits : ∀ i, s'.bitAt i = (s.toggled (pairBit n b.order b.page)).bitAt i)
    (hna : NoAlias n P) :
    PairBits n P s' (Function.update free b.order (b.page :: free b.order)) := by
  have hbm : b ∈ blocksOf maxOrder free ++ b :: held :=
    List.mem_append_right _ List.mem_cons_self
  refine (h.bits hna).flip hna h.lt_of_mem (h.tiling.aligned b hbm) (h.pages_subset hbm) hbits
    (fun c hc => ?_) ?_
  · rw [mem_update_cons]
    exact ⟨fun hm => hm.resolve_left hc, Or.inr⟩
  · rw [mem_update_cons]
    exact iff_of_true (Or.inl rfl) (h.held_not_free _ (h.tiling.order_le b hbm))

/-- The pair bits after taking a free block and flipping its bit. -/
lemma Inv.bits_take (h : Inv base n P s free held) (hb : b ∈ blocksOf maxOrder free) {s' : Pmm}
    (hbits : ∀ i, s'.bitAt i = (s.toggled (pairBit n b.order b.page)).bitAt i)
    (hna : NoAlias n P) :
    PairBits n P s' (Function.update free b.order ((free b.order).erase b.page)) := by
  have hbm : b ∈ blocksOf maxOrder free ++ held := List.mem_append_left _ hb
  obtain ⟨ho, hp⟩ := mem_blocksOf.mp hb
  refine (h.bits hna).flip hna h.lt_of_mem (h.tiling.aligned b hbm) (h.pages_subset hbm) hbits
    (fun c hc => ?_) ?_
  · rw [mem_update_erase (h.free_nodup ho)]
    exact ⟨fun hm => hm.2, fun hm => ⟨hc, hm⟩⟩
  · rw [mem_update_erase (h.free_nodup ho)]
    exact ⟨fun hm => absurd rfl hm.1, fun hm => absurd hp hm⟩

/-- Freeing a held block whose buddy is not free, with the bitmap `bitmap`. -/
lemma Inv.give (h : Inv base n P s free (b :: held)) (bitmap : ℕ → ℕ)
    (hbits : NoAlias n P → PairBits n P { s with bitmap := bitmap }
      (Function.update free b.order (b.page :: free b.order)))
    (hbuddy : NoAlias n P → b.order < maxOrder → b.buddy.page ∉ free b.order) :
    Inv base n P (({ s with bitmap := bitmap } : Pmm).listPush (pageAddr base b.page) b.order)
      (Function.update free b.order (b.page :: free b.order)) held := by
  have hbm : b ∈ blocksOf maxOrder free ++ b :: held :=
    List.mem_append_right _ List.mem_cons_self
  have ho : b.order ≤ maxOrder := h.tiling.order_le b hbm
  have hperm : (blocksOf maxOrder free ++ b :: held).Perm
      (blocksOf maxOrder (Function.update free b.order (b.page :: free b.order)) ++ held) :=
    List.perm_middle.trans ((blocksOf_update_cons ho).symm.append_right held)
  have hlists : Lists base ({ s with bitmap := bitmap } : Pmm) free := h.lists
  exact
    { base_eq := h.base_eq
      pool := fun hne => ⟨(h.pool hne).size_eq, (h.pool hne).pages_le, (h.pool hne).end_lt⟩
      ne_zero := h.ne_zero
      lists := hlists.push ho (h.ne_zero _ (h.pages_subset hbm b.page_mem_pages)) h.held_not_free
      tiling := h.tiling.perm hperm
      cover_eq := (cover_perm hperm).symm.trans h.cover_eq
      bits := hbits
      coalesced := by
        intro hna c hc hco hcb
        rw [mem_blocksOf, mem_update_cons] at hc hcb
        have hcb' : b.order < maxOrder → b.buddy ∉ blocksOf maxOrder free := fun hlt hmem =>
          hbuddy hna hlt (mem_blocksOf.mp hmem).2
        rcases hc with ⟨hcle, rfl | hc⟩
        · rcases hcb.2 with heq | hmem
          · exact Block.buddy_ne (h.tiling.aligned c hbm) heq
          · exact hcb' hco (mem_blocksOf.mpr ⟨hcle, hmem⟩)
        · rcases hcb.2 with heq | hmem
          · -- the buddy of an old block is `b`, so `b` has a free buddy
            have hcbuddy : c = b.buddy := by rw [← heq, Block.buddy_buddy]
            refine hcb' (by rw [← heq]; exact hco) ?_
            rw [← hcbuddy]
            exact mem_blocksOf.mpr ⟨hcle, hc⟩
          · exact h.coalesced hna c (mem_blocksOf.mpr ⟨hcle, hc⟩) hco
              (mem_blocksOf.mpr ⟨hcle, hmem⟩) }

/-- Taking a free block off its list. -/
lemma Inv.take (h : Inv base n P s free held) (hb : b ∈ blocksOf maxOrder free) (s' : Pmm)
    (hbase : s'.base = base) (hsize : s'.size = s.size)
    (hlists : Lists base s' (Function.update free b.order ((free b.order).erase b.page)))
    (hbits : NoAlias n P → PairBits n P s'
      (Function.update free b.order ((free b.order).erase b.page))) :
    Inv base n P s' (Function.update free b.order ((free b.order).erase b.page)) (b :: held) := by
  obtain ⟨ho, hp⟩ := mem_blocksOf.mp hb
  have hperm : (blocksOf maxOrder free ++ held).Perm
      (blocksOf maxOrder (Function.update free b.order ((free b.order).erase b.page)) ++
        b :: held) :=
    ((blocksOf_update_erase ho hp).append_right held).trans List.perm_middle.symm
  exact
    { base_eq := hbase
      pool := fun hne =>
        ⟨hsize.trans (h.pool hne).size_eq, (h.pool hne).pages_le, (h.pool hne).end_lt⟩
      ne_zero := h.ne_zero
      lists := hlists
      tiling := h.tiling.perm hperm
      cover_eq := (cover_perm hperm).symm.trans h.cover_eq
      bits := hbits
      coalesced := by
        intro hna c hc hco hcb
        rw [mem_blocksOf, mem_update_erase (h.free_nodup ho)] at hc hcb
        exact h.coalesced hna c (mem_blocksOf.mpr ⟨hc.1, hc.2.2⟩) hco
          (mem_blocksOf.mpr ⟨hcb.1, hcb.2.2⟩) }

end Steps

end Pmm

end HyperBerry
