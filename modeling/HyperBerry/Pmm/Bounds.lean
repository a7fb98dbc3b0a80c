import HyperBerry.Pmm.Complete

/-!
# The bounds of the pair bitmap

`bitmapToggle` halts the machine when the bit of a block lies outside the bitmap.  For a pool that
is not larger than the bitmap allows this never happens: the bit of every block that lies in the
pool at a multiple of its size is inside, and bring-up, allocation and release touch no others.
-/

namespace HyperBerry

namespace Pmm

variable {s : Pmm} {base size off order : ℕ}

/-- A block in the pool, at a multiple of its size from the base. -/
structure InPool (size off order : ℕ) : Prop where
  order_le : order ≤ maxOrder
  aligned : pageSize <<< order ∣ off
  end_le : off + pageSize <<< order ≤ size

/-- The bit of a block in the pool lies in the bitmap. -/
lemma InPool.bitmapIndex_lt (h : InPool s.size off order) (hsize : s.size ≤ maxPoolSize) :
    s.bitmapIndex (add64 s.base off) order < 8 * bitmapBytes := by
  obtain ⟨p, rfl⟩ := h.aligned
  have hend := h.end_le
  rw [pageSize_shiftLeft] at hend
  -- the offset survives the wrap-around of the address
  have hoff : sub64 (add64 s.base (pageSize <<< order * p)) s.base =
      pageSize * (2 ^ order * p) := by
    rw [pageSize_shiftLeft, Nat.mul_assoc]
    rw [Nat.mul_assoc] at hend
    unfold sub64 add64
    unfold maxPoolSize at hsize
    omega
  have hpage : (pageSize * (2 ^ order * p)) >>> pageShift = 2 ^ order * p := by
    rw [Nat.shiftRight_eq_div_pow]
    exact Nat.mul_div_cancel_left _ (by decide)
  have hpages : 2 ^ order * p + 2 ^ order ≤ s.size >>> pageShift := by
    rw [Nat.shiftRight_eq_div_pow, Nat.le_div_iff_mul_le (by decide)]
    rw [Nat.mul_assoc] at hend
    unfold pageSize at hend
    unfold pageShift
    omega
  have htotal : s.size >>> pageShift ≤ 2 ^ 21 := by
    rw [Nat.shiftRight_eq_div_pow]
    unfold maxPoolSize at hsize
    unfold pageShift
    omega
  have hbit := pairBit_lt htotal h.order_le hpages
  rw [pairBit] at hbit
  simp only [bitmapIndex, hoff, hpage]
  rwa [Nat.shiftRight_eq_div_pow _ (order + 1)]

/-- Flipping the bit of a block in the pool returns, and keeps the pool. -/
lemma InPool.bitmapToggle (h : InPool s.size off order) (hsize : s.size ≤ maxPoolSize) :
    ∃ t v, s.bitmapToggle (add64 s.base off) order = some (t, v) ∧ t.base = s.base ∧
      t.size = s.size :=
  ⟨_, _, bitmapToggle_eq_of_lt (h.bitmapIndex_lt hsize), rfl, rfl⟩

/-! ## Seeding -/

/-- One pass of the seeding loop; `none` when `bitmapToggle` halts. -/
def seedPass (poolEnd : ℕ) (s : Pmm) (addr : ℕ) : Option (Pmm × ℕ) :=
  if poolEnd - addr ≥ pageSize <<< maxOrder then
    (s.bitmapToggle addr maxOrder).map fun t =>
      (t.1.listPush addr maxOrder, add64 addr (pageSize <<< maxOrder))
  else seedTail numOrders s addr (poolEnd - addr)

/-- The seeding loop is made of its passes. -/
lemma seedLoop_succ (poolEnd fuel : ℕ) (s : Pmm) (addr : ℕ) :
    seedLoop poolEnd (fuel + 1) s addr =
      if addr < poolEnd then (seedPass poolEnd s addr).bind fun r => seedLoop poolEnd fuel r.1 r.2
      else some s := by
  rw [seedLoop, seedPass]
  split
  · simp only [Option.bind_eq_bind]
    split
    · rw [Option.bind_map]
      rfl
    · rfl
  · rfl

/-- The states at the head of the seeding loop, whether it ends or not. -/
inductive Seeding (map : MemoryMap) (next : ℕ → ℕ) : Pmm → ℕ → Prop
  /-- The loop starts at the base of the pool. -/
  | start : Seeding map next (cleared map next) map.memBase.toNat
  /-- A pass goes on to the next block. -/
  | pass {s s' : Pmm} {addr addr' : ℕ} : Seeding map next s addr →
      addr < add64 map.memBase.toNat map.memSize.toNat →
      seedPass (add64 map.memBase.toNat map.memSize.toNat) s addr = some (s', addr') →
      Seeding map next s' addr'

/-- The order loop stays in the pool and ends with less than a page left. -/
lemma exists_seedTail (hfits : base + size < 2 ^ 64) (hsize : size ≤ maxPoolSize) :
    ∀ (k : ℕ) {s : Pmm} {off : ℕ}, k ≤ maxOrder + 1 → s.base = base → s.size = size → off ≤ size →
      pageSize * 2 ^ k ∣ off → size - off < pageSize * 2 ^ k →
      ∃ s' off', seedTail k s (base + off) (size - off) = some (s', base + off') ∧
        s'.base = base ∧ s'.size = size ∧ off' ≤ size ∧ size - off' < pageSize := by
  intro k
  induction k with
  | zero =>
    intro s off _ hb hs hle _ hlt
    exact ⟨s, off, rfl, hb, hs, hle, by simpa using hlt⟩
  | succ k ih =>
    intro s off hk hb hs hle hdvd hlt
    rw [pow_succ, ← Nat.mul_assoc, ← pageSize_shiftLeft] at hdvd hlt
    rw [← pageSize_shiftLeft] at ih
    rw [seedTail]
    by_cases hfit : size - off ≥ pageSize <<< k
    · have hin : InPool s.size off k := by
        rw [hs]
        exact ⟨by omega, (Dvd.intro _ rfl).trans hdvd, by omega⟩
      obtain ⟨t, v, htoggle, htb, hts⟩ := hin.bitmapToggle (hs.le.trans hsize)
      rw [hb, add64_of_lt (by omega)] at htoggle
      have hnext : add64 (base + off) (pageSize <<< k) = base + (off + pageSize <<< k) := by
        rw [add64_of_lt (by omega), Nat.add_assoc]
      simp only [if_pos hfit, htoggle, Option.bind_eq_bind, Option.bind_some, hnext, Nat.sub_sub]
      exact ih (by omega) (htb.trans hb) (hts.trans hs) (by omega)
        ((Nat.dvd_add_iff_left (dvd_refl _)).mp ((Dvd.intro _ rfl).trans hdvd)) (by omega)
    · rw [if_neg hfit]
      exact ih (by omega) hb hs hle ((Dvd.intro _ rfl).trans hdvd) (by omega)

/-- At the head of the seeding loop either whole blocks of the largest order lie behind, or less
than a page is left. -/
structure AtHead (map : MemoryMap) (s : Pmm) (off : ℕ) : Prop where
  base_eq : s.base = map.memBase.toNat
  size_eq : s.size = map.memSize.toNat
  off_le : off ≤ map.memSize.toNat
  left : pageSize <<< maxOrder ∣ off ∨ map.memSize.toNat - off < pageSize

section Pass

variable {map : MemoryMap} {next : ℕ → ℕ} {addr : ℕ}
variable (hfits : map.memBase.toNat + map.memSize.toNat < 2 ^ 64)
variable (hsize : map.memSize.toNat ≤ maxPoolSize)

include hfits hsize

/-- A pass of the seeding loop returns at the next block. -/
lemma AtHead.seedPass (h : AtHead map s off) :
    ∃ s' off', Pmm.seedPass (map.memBase.toNat + map.memSize.toNat) s (map.memBase.toNat + off) =
      some (s', map.memBase.toNat + off') ∧ AtHead map s' off' := by
  have hle := h.off_le
  rw [Pmm.seedPass, Nat.add_sub_add_left]
  by_cases hbig : map.memSize.toNat - off ≥ pageSize <<< maxOrder
  · have hpage : pageSize ≤ pageSize <<< maxOrder := by decide
    have hdvd : pageSize <<< maxOrder ∣ off := h.left.resolve_right (by omega)
    have hin : InPool s.size off maxOrder := by
      rw [h.size_eq]
      exact ⟨le_rfl, hdvd, by omega⟩
    obtain ⟨t, v, htoggle, htb, hts⟩ := hin.bitmapToggle (h.size_eq.le.trans hsize)
    rw [h.base_eq, add64_of_lt (by omega)] at htoggle
    rw [if_pos hbig, htoggle, Option.map_some, add64_of_lt (by omega), Nat.add_assoc]
    exact ⟨_, _, rfl, htb.trans h.base_eq, hts.trans h.size_eq, by omega,
      .inl (hdvd.add (dvd_refl _))⟩
  · rw [if_neg hbig]
    rcases h.left with hdvd | hrest
    · -- the largest order does not fit, and the order loop does the others
      rw [numOrders, Pmm.seedTail, if_neg hbig]
      rw [pageSize_shiftLeft] at hdvd hbig
      obtain ⟨s', off', hrun, hb, hs, hle', hlt⟩ := exists_seedTail hfits hsize maxOrder
        (Nat.le_succ _) h.base_eq h.size_eq hle hdvd (Nat.lt_of_not_le hbig)
      exact ⟨s', off', hrun, hb, hs, hle', .inr hlt⟩
    · exact ⟨s, off, seedTail_of_lt_page hrest _ _ _, h⟩

/-- Every state at the head of the seeding loop. -/
lemma Seeding.atHead (h : Seeding map next s addr) :
    ∃ off, addr = map.memBase.toNat + off ∧ AtHead map s off := by
  induction h with
  | start => exact ⟨0, rfl, rfl, rfl, Nat.zero_le _, .inl (Nat.dvd_zero _)⟩
  | pass _ hlt hpass ih =>
    obtain ⟨off, rfl, hhead⟩ := ih
    obtain ⟨s', off', hrun, hhead'⟩ := hhead.seedPass hfits hsize
    rw [add64_of_lt hfits, hrun] at hpass
    obtain ⟨rfl, rfl⟩ := Prod.mk.inj (Option.some.inj hpass)
    exact ⟨off', rfl, hhead'⟩

end Pass

/-- In a pool that wraps around there is nothing to seed. -/
lemma Seeding.not_lt {map : MemoryMap} {next : ℕ → ℕ} {addr : ℕ} (h : Seeding map next s addr)
    (hwraps : 2 ^ 64 ≤ map.memBase.toNat + map.memSize.toNat) :
    ¬ addr < add64 map.memBase.toNat map.memSize.toNat := by
  have hbase := map.memBase.toNat_lt
  have hsize := map.memSize.toNat_lt
  induction h with
  | start =>
    rw [add64_of_ge hwraps hbase hsize]
    omega
  | pass _ hlt _ ih => exact absurd hlt ih

/-! ## No overflow -/

/-- In a pool that is not larger than the bitmap allows, the bit of every block that lies in the
pool at a multiple of its size is inside the bitmap, and the halt on an overflow is never reached:
every pass of the seeding loop returns, whether the loop ends or not; `SetMemoryMap` returns if the
loop does; and in every state that clients can reach every allocation and every release of a live
block returns. -/
theorem bitmap_never_overflows (s₀ : Pmm) (image : KernelImage) (map : MemoryMap)
    (hsize : map.memSize.toNat ≤ maxPoolSize) :
    (∀ s : Pmm, s.base = map.memBase.toNat → s.size = map.memSize.toNat →
      ∀ off order, InPool map.memSize.toNat off order →
        s.bitmapIndex (add64 map.memBase.toNat off) order < 8 * bitmapBytes ∧
          (s.bitmapToggle (add64 map.memBase.toNat off) order).isSome) ∧
    (∀ s addr, Seeding map s₀.next s addr → addr < add64 map.memBase.toNat map.memSize.toNat →
      (seedPass (add64 map.memBase.toNat map.memSize.toNat) s addr).isSome) ∧
    ((seedLoop (add64 map.memBase.toNat map.memSize.toNat) loopFuel (cleared map s₀.next)
      map.memBase.toNat).isSome → (s₀.setMemoryMap image map).isSome) ∧
    ∀ s t, s₀.setMemoryMap image map = some s → Run ⟨s, []⟩ t →
      (∀ order, (t.pmm.allocPages order).isSome) ∧
        ∀ e ∈ t.live, (t.pmm.freePages e.addr e.order).isSome := by
  refine ⟨fun s hb hs off order hin => ?_, fun s addr hseeding hlt => ?_, fun hloop => ?_,
    fun s t hs hrun => ?_⟩
  · rw [← hs] at hin
    rw [← hb]
    obtain ⟨t, v, htoggle, -⟩ := hin.bitmapToggle (hs.le.trans hsize)
    exact ⟨hin.bitmapIndex_lt (hs.le.trans hsize), by rw [htoggle]; rfl⟩
  · by_cases hfits : map.memBase.toNat + map.memSize.toNat < 2 ^ 64
    · obtain ⟨off, rfl, hhead⟩ := hseeding.atHead hfits hsize
      obtain ⟨s', off', hpass, -⟩ := hhead.seedPass hfits hsize
      rw [add64_of_lt hfits, hpass]
      rfl
    · exact absurd hlt (hseeding.not_lt (Nat.le_of_not_lt hfits))
  · obtain ⟨s, -, -, hs, -⟩ := exists_setMemoryMap s₀ image map hsize fun hfits => by
      by_contra hpages
      rw [add64_of_lt hfits, seedLoop_eq_none hfits loopFuel (Nat.le_add_right _ _)] at hloop
      · cases hloop
      · rw [Nat.add_sub_cancel_left]
        exact fun hzero => hpages (Nat.dvd_of_mod_eq_zero hzero)
    rw [hs]
    rfl
  · have htracks := tracks_of_run hs hrun
    exact ⟨htracks.alloc_returns, fun e => htracks.free_returns⟩

/-- The largest pool, and the last block of the largest order in it. -/
theorem bitmap_never_overflows_largest :
    ((cleared { memBase := 0, memSize := 0x200000000 } fun _ => 0).bitmapToggle
        (add64 0 0x1F0000000) 16).isSome :=
  ((bitmap_never_overflows (cleared {} fun _ => 0) ⟨0x80000, 0x90000⟩
    { memBase := 0, memSize := 0x200000000 } (by decide)).1 _ rfl rfl 0x1F0000000 16
      ⟨by decide, by decide, by decide⟩).2

end Pmm

end HyperBerry
