import HyperBerry.Pmm.Run

/-!
# When bring-up ends, and what it loses

`SetMemoryMap` ends on a pool that the bitmap covers exactly if the pool wraps around or is a whole
number of pages: the seeding loop does not move over a rest that is shorter than a page.

When it ends, every page outside of the reserved regions is in one free block, except for a pool at
address `0`.  There the first block is pushed on its list as the null pointer, and all of its pages
are lost, not only the null page.
-/

namespace HyperBerry

namespace Pmm

/-! ## Termination -/

/-- **Termination.**  On every memory map whose pool the bitmap covers, `SetMemoryMap` returns if
and only if the pool wraps around or is a whole number of pages. -/
theorem setMemoryMap_returns_iff (s : Pmm) (image : KernelImage) (map : MemoryMap)
    (hsize : map.memSize.toNat ≤ maxPoolSize) :
    (s.setMemoryMap image map).isSome ↔
      2 ^ 64 ≤ map.memBase.toNat + map.memSize.toNat ∨ pageSize ∣ map.memSize.toNat := by
  constructor
  · intro hsome
    by_contra hnot
    rw [not_or, Nat.not_le] at hnot
    rw [setMemoryMap_eq_none s image map (.inr hnot)] at hsome
    cases hsome
  · intro hok
    obtain ⟨s', -, -, hrun, -⟩ := exists_setMemoryMap s image map hsize fun hend =>
      hok.resolve_left (Nat.not_le.mpr hend)
    rw [hrun]
    rfl

/-- Over a rest shorter than a page no order fits, so the order loop does nothing. -/
lemma seedTail_of_lt_page {remaining : ℕ} (h : remaining < pageSize) (s : Pmm) (addr : ℕ) :
    ∀ k, seedTail k s addr remaining = some (s, addr) := by
  intro k
  induction k with
  | zero => rfl
  | succ k ih =>
    have hle : pageSize ≤ pageSize <<< k := by
      rw [pageSize_shiftLeft]
      exact Nat.le_mul_of_pos_right _ (by positivity)
    rw [seedTail, if_neg (by omega), ih]

/-- Over a rest shorter than a page the seeding loop comes back to the state it was in. -/
lemma seedLoop_of_lt_page {poolEnd addr : ℕ} (hlt : addr < poolEnd) (h : poolEnd - addr < pageSize)
    (s : Pmm) (fuel : ℕ) : seedLoop poolEnd (fuel + 1) s addr = seedLoop poolEnd fuel s addr := by
  have hmax : pageSize ≤ pageSize <<< maxOrder := by decide
  rw [seedLoop, if_pos hlt, if_neg (by omega), seedTail_of_lt_page h]
  rfl

/-- A pool of three pages, which no reserved region meets. -/
theorem setMemoryMap_returns_three_pages :
    ((cleared {} fun _ => 0).setMemoryMap ⟨0x80000, 0x90000⟩
        { memBase := 0x40000000, memSize := 0x3000 }).isSome ↔
      2 ^ 64 ≤ 0x40000000 + 0x3000 ∨ pageSize ∣ 0x3000 :=
  setMemoryMap_returns_iff _ _ { memBase := 0x40000000, memSize := 0x3000 } (by decide)

/-- On a pool of one page and a half `SetMemoryMap` never returns: the seeding loop stays at the
second page, however often it is repeated. -/
theorem setMemoryMap_hangs : (cleared {} fun _ => 0).setMemoryMap ⟨0x80000, 0x90000⟩
      { memBase := 0x40000000, memSize := 0x1800 } = none ∧
    ∀ s fuel, seedLoop (0x40000000 + 0x1800) (fuel + 1) s 0x40001000 =
      seedLoop (0x40000000 + 0x1800) fuel s 0x40001000 :=
  ⟨setMemoryMap_eq_none _ _ _ (.inr (by decide)),
    fun s fuel => seedLoop_of_lt_page (by decide) (by decide) s fuel⟩

/-! ## Pages in blocks -/

/-- Every page of the pool is in one of the blocks that the pool is cut into. -/
lemma exists_isSeed {n x : ℕ} (hx : x < n) : ∃ b, IsSeed n b ∧ x ∈ b.pages := by
  by_cases hbig : x / 2 ^ maxOrder < n / 2 ^ maxOrder
  · -- a block of the largest order
    refine ⟨⟨maxOrder, x / 2 ^ maxOrder * 2 ^ maxOrder⟩, ⟨Nat.dvd_mul_left _ _, ?_, le_rfl,
      .inl rfl⟩, ?_⟩
    · have hle : (x / 2 ^ maxOrder + 1) * 2 ^ maxOrder ≤ n :=
        (Nat.mul_le_mul_right _ hbig).trans (Nat.div_mul_le_self _ _)
      dsimp only
      rwa [← Nat.succ_mul]
    · rw [Block.mem_pages]
      exact ⟨Nat.div_mul_le_self _ _, Nat.lt_div_mul_add (by positivity)⟩
  · -- the block of the highest digit in which the page differs from the number of pages
    have hsame : x / 2 ^ maxOrder = n / 2 ^ maxOrder :=
      le_antisymm (Nat.div_le_div_right hx.le) (Nat.le_of_not_lt hbig)
    have hex : ∃ k, x / 2 ^ k = n / 2 ^ k := ⟨maxOrder, hsame⟩
    obtain ⟨o, ho⟩ : ∃ o, Nat.find hex = o + 1 := by
      refine Nat.exists_eq_succ_of_ne_zero fun hzero => ?_
      have h0 := Nat.find_spec hex
      rw [hzero, pow_zero, Nat.div_one, Nat.div_one] at h0
      omega
    have heq : x / 2 ^ (o + 1) = n / 2 ^ (o + 1) := ho ▸ Nat.find_spec hex
    have hne : x / 2 ^ o ≠ n / 2 ^ o := Nat.find_min hex (by omega)
    have hlt : x / 2 ^ o < n / 2 ^ o := lt_of_le_of_ne (Nat.div_le_div_right hx.le) hne
    have hmax : o < maxOrder := by
      have := Nat.find_min' hex hsame
      omega
    -- both lie in the same pair of blocks, the page in the lower one
    rw [pow_succ, ← Nat.div_div_eq_div_mul, ← Nat.div_div_eq_div_mul] at heq
    have hpair : n / 2 ^ o = 2 * (n / 2 ^ o / 2) + 1 ∧ x / 2 ^ o = 2 * (n / 2 ^ o / 2) := by omega
    have htail : tailPage n o = x / 2 ^ o * 2 ^ o := by
      rw [tailPage, pow_succ, ← Nat.div_div_eq_div_mul, hpair.2]
      ring
    refine ⟨⟨o, tailPage n o⟩, ⟨?_, ?_, hmax.le, .inr rfl⟩, ?_⟩
    · rw [htail]
      exact Nat.dvd_mul_left _ _
    · have hle : (x / 2 ^ o + 1) * 2 ^ o ≤ n :=
        (Nat.mul_le_mul_right _ hlt).trans (Nat.div_mul_le_self _ _)
      dsimp only
      rwa [htail, ← Nat.succ_mul]
    · rw [Block.mem_pages, htail]
      exact ⟨Nat.div_mul_le_self _ _, Nat.lt_div_mul_add (by positivity)⟩

/-! ## Lost pages -/

/-- The bytes of a page of the pool. -/
def poolPage (map : MemoryMap) (x : ℕ) : Set ℕ :=
  Set.Ico (pageAddr map.memBase.toNat x) (pageAddr map.memBase.toNat (x + 1))

/-- A page of the pool lies outside of the regions that are reserved, rounded to pages. -/
def Unreserved (image : KernelImage) (map : MemoryMap) (x : ℕ) : Prop :=
  ∀ r ∈ reservations image map,
    Disjoint (poolPage map x) (Set.Ico (regionStart r.1) (regionEnd r.1 r.2))

variable {image : KernelImage} {map : MemoryMap} {x : ℕ} {b : Block}

/-- A page of the pool lies in a block of memory if it is one of its pages. -/
lemma poolPage_subset_iff : poolPage map x ⊆ (extent map.memBase.toNat b).bytes ↔ x ∈ b.pages := by
  have hbyte : ∀ a, a ∈ poolPage map x ↔
      map.memBase.toNat ≤ a ∧ (a - map.memBase.toNat) / pageSize = x := by
    intro a
    unfold poolPage pageAddr pageSize
    rw [Set.mem_Ico]
    omega
  constructor
  · intro hsub
    have hfirst : pageAddr map.memBase.toNat x ∈ poolPage map x := by
      rw [hbyte]
      unfold pageAddr pageSize
      omega
    have hmem := (mem_bytes_extent.mp (hsub hfirst)).2
    rwa [((hbyte _).mp hfirst).2] at hmem
  · intro hx a ha
    obtain ⟨hle, hpage⟩ := (hbyte a).mp ha
    exact mem_bytes_extent.mpr ⟨hle, hpage ▸ hx⟩

/-- A page outside of the reserved regions is in no reserved block. -/
lemma Unreserved.not_reserved (h : Unreserved image map x) (hx : x ∈ b.pages) :
    ¬Reserved (reservations image map) (pageAddr map.memBase.toNat b.page) b.order := by
  rintro ⟨r, hr, -, hlo, hhi⟩
  have hmem : pageAddr map.memBase.toNat x ∈ poolPage map x := by
    unfold poolPage pageAddr pageSize
    rw [Set.mem_Ico]
    omega
  obtain ⟨hge, hlt⟩ := poolPage_subset_iff.mpr hx hmem
  exact Set.disjoint_left.mp (h r hr) hmem ⟨hlo.trans hge, lt_of_lt_of_le hlt hhi⟩

/-- **Lost memory.**  When `SetMemoryMap` returns on a pool that does not wrap around, every page
outside of the reserved regions is in exactly one free block, if and only if the pool is not at
address `0` or every page of its first block meets a reserved region. -/
theorem no_page_lost_iff {s₀ s : Pmm} (h : s₀.setMemoryMap image map = some s)
    (hend : map.memBase.toNat + map.memSize.toNat < 2 ^ 64) :
    (∀ x < poolPages map, Unreserved image map x →
      ∃! e, e ∈ (System.mk s []).freeBlocks ∧ poolPage map x ⊆ e.bytes) ↔
    (map.memBase.toNat = 0 → ∀ b, IsSeed (poolPages map) b → b.page = 0 →
      ∀ x ∈ b.pages, ¬Unreserved image map x) := by
  have hfree : ∀ e, e ∈ (System.mk s []).freeBlocks ↔
      ∃ b, Listed image map b ∧ extent map.memBase.toNat b = e := fun e => by
    rw [← mem_blocks_of_setMemoryMap h, System.blocks, List.append_nil]
  constructor
  · intro hall hzero b hb hpage x hx hout
    have hlt : x < poolPages map := lt_of_lt_of_le hx.2 hb.bound
    obtain ⟨e, ⟨he, hsub⟩, -⟩ := hall x hlt hout
    obtain ⟨c, hc, rfl⟩ := (hfree e).mp he
    obtain rfl := hc.2.1.eq_of_mem hb (poolPage_subset_iff.mp hsub) hx
    refine hc.2.2.1 ?_
    rw [pageAddr, hzero, hpage, Nat.mul_zero]
  · intro hcond x hx hout
    obtain ⟨b, hb, hxb⟩ := exists_isSeed hx
    have hne : pageAddr map.memBase.toNat b.page ≠ 0 := by
      intro hzero
      unfold pageAddr pageSize at hzero
      exact hcond (by omega) b hb (by omega) x hxb hout
    refine ⟨extent map.memBase.toNat b,
      ⟨(hfree _).mpr ⟨b, ⟨hend, hb, hne, hout.not_reserved hxb⟩, rfl⟩,
      poolPage_subset_iff.mpr hxb⟩, ?_⟩
    rintro e ⟨he, hsub⟩
    obtain ⟨c, hc, rfl⟩ := (hfree e).mp he
    rw [hc.2.1.eq_of_mem hb (poolPage_subset_iff.mp hsub) hxb]

/-- A pool of three pages at 1 GiB. -/
theorem no_page_lost_three_pages :
    ∃ s, (cleared {} fun _ => 0).setMemoryMap ⟨0x80000, 0x90000⟩
        { memBase := 0x40000000, memSize := 0x3000 } = some s ∧
      ∀ x < 3, Unreserved ⟨0x80000, 0x90000⟩ { memBase := 0x40000000, memSize := 0x3000 } x →
        ∃! e, e ∈ (System.mk s []).freeBlocks ∧
          poolPage { memBase := 0x40000000, memSize := 0x3000 } x ⊆ e.bytes := by
  obtain ⟨s, -, -, hs, -⟩ := exists_setMemoryMap (cleared {} fun _ => 0) ⟨0x80000, 0x90000⟩
    { memBase := 0x40000000, memSize := 0x3000 } (by decide) (by decide)
  exact ⟨s, hs, (no_page_lost_iff hs (by decide)).mpr fun hzero => absurd hzero (by decide)⟩

/-- A pool of 512 MiB at address `0` with the image at its link address: half of it is lost, for
example the page at 2 MiB, which no region meets. -/
theorem first_block_lost :
    ∃ s, (cleared {} fun _ => 0).setMemoryMap ⟨0x80000, 0x90000⟩
        { memBase := 0, memSize := 0x20000000 } = some s ∧
      (System.mk s []).freeBlocks = [⟨0x10000000, 16⟩] ∧
      Unreserved ⟨0x80000, 0x90000⟩ { memBase := 0, memSize := 0x20000000 } 0x200 ∧
      ¬∃ e ∈ (System.mk s []).freeBlocks,
        poolPage { memBase := 0, memSize := 0x20000000 } 0x200 ⊆ e.bytes := by
  have hrun : ((cleared {} fun _ => 0).setMemoryMap ⟨0x80000, 0x90000⟩
      { memBase := 0, memSize := 0x20000000 }).map (fun s => (System.mk s []).freeBlocks) =
      some [⟨0x10000000, 16⟩] := by
    decide +kernel
  obtain ⟨s, hs, hfree⟩ := Option.map_eq_some_iff.mp hrun
  refine ⟨s, hs, hfree, fun r hr => ?_, ?_⟩
  · have hall : ∀ r ∈ reservations ⟨0x80000, 0x90000⟩ { memBase := 0, memSize := 0x20000000 },
        regionEnd r.1 r.2 ≤ 0x200000 := by
      decide
    exact Set.disjoint_left.mpr fun a ha ha' =>
      absurd (ha'.2.trans_le (hall r hr)) (Nat.not_lt.mpr ha.1)
  · rintro ⟨e, he, hsub⟩
    rw [hfree, List.mem_singleton] at he
    subst he
    have hfirst : 0x200000 ∈ poolPage { memBase := 0, memSize := 0x20000000 } 0x200 :=
      ⟨by decide, by decide⟩
    exact absurd (hsub hfirst).1 (by decide)

end Pmm

end HyperBerry
