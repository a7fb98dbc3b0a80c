import HyperBerry.Pmm.Reserve

/-!
# What bring-up returns

`SetMemoryMap` returns exactly on the pools that the bitmap covers and that are a whole number of
pages or wrap around the address space.  It lists the seeds that are inside no reserved region; a
pool that wraps is left empty.
-/

namespace HyperBerry

open LinkedList

namespace Pmm

/-- The number of pages of the pool. -/
def poolPages (map : MemoryMap) : ℕ := map.memSize.toNat / pageSize

/-- A block is listed when `SetMemoryMap` cuts it out of a pool that does not wrap, it is not the
one at address `0`, and it lies inside no reserved region. -/
def Listed (image : KernelImage) (map : MemoryMap) (b : Block) : Prop :=
  map.memBase.toNat + map.memSize.toNat < 2 ^ 64 ∧ IsSeed (poolPages map) b ∧
    pageAddr map.memBase.toNat b.page ≠ 0 ∧
    ¬ Reserved (reservations image map) (pageAddr map.memBase.toNat b.page) b.order

/-- The state in which seeding starts. -/
def cleared (map : MemoryMap) (next : ℕ → ℕ) : Pmm :=
  { base := map.memBase.toNat, size := map.memSize.toNat, freeLists := fun _ => 0,
    bitmap := fun _ => 0, next := next }

/-- With no listed block there is nothing to check. -/
lemma boot_cleared (map : MemoryMap) (next : ℕ → ℕ) :
    Boot map.memBase.toNat (poolPages map) (cleared map next) (fun _ => []) [] := by
  exact
    { base_eq := rfl
      pool := by simp [blocksOf_nil]
      lists := fun _ _ => rfl
      ne_zero := by simp [blocksOf_nil]
      lost_zero := by simp
      tiling := by rw [blocksOf_nil]; exact ⟨by simp, by simp, by simp, List.Pairwise.nil⟩
      seeds := by simp [blocksOf_nil]
      bits := by simp [blocksOf_nil, parityBit, bitAt, cleared] }

/-- Seeding starts at page `0`. -/
lemma seeded_cleared (map : MemoryMap) (next : ℕ → ℕ) (hsize : map.memSize.toNat ≤ maxPoolSize)
    (hpages : pageSize ∣ map.memSize.toNat)
    (hend : map.memBase.toNat + map.memSize.toNat < 2 ^ 64) :
    Seeded map.memBase.toNat (poolPages map) 0 (cleared map next) (fun _ => []) [] := by
  have hsz : pageSize * poolPages map = map.memSize.toNat := Nat.mul_div_cancel' hpages
  exact
    { boot_cleared map next with
      wf :=
        { size_eq := hsz.symm
          pages_le := by
            unfold pageSize at hsz
            unfold maxPoolSize at hsize
            omega
          end_lt := by rw [hsz]; exact hend }
      cover_eq := by rw [blocksOf_nil]; ext x; simp [mem_cover]
      mem_iff := by simp [blocksOf_nil] }

/-- The seeding pass lists the blocks of a pool that does not wrap, but for the one at address `0`;
it lists nothing when the pool wraps. -/
lemma exists_seedLoop (map : MemoryMap) (next : ℕ → ℕ) (hsize : map.memSize.toNat ≤ maxPoolSize)
    (hok : map.memBase.toNat + map.memSize.toNat < 2 ^ 64 → pageSize ∣ map.memSize.toNat) :
    ∃ s free lost, seedLoop (add64 map.memBase.toNat map.memSize.toNat) loopFuel
        (cleared map next) map.memBase.toNat = some s ∧
      Boot map.memBase.toNat (poolPages map) s free lost ∧
      ∀ b, b ∈ blocksOf maxOrder free ↔ map.memBase.toNat + map.memSize.toNat < 2 ^ 64 ∧
        IsSeed (poolPages map) b ∧ pageAddr map.memBase.toNat b.page ≠ 0 := by
  have hbase : map.memBase.toNat < 2 ^ 64 := map.memBase.toNat_lt
  by_cases hend : map.memBase.toNat + map.memSize.toNat < 2 ^ 64
  · have hpages := hok hend
    have hsz : pageSize * poolPages map = map.memSize.toNat := Nat.mul_div_cancel' hpages
    have hs := seeded_cleared map next hsize hpages hend
    have hle := hs.wf.pages_le
    obtain ⟨s, free, lost, hrun, h⟩ := Seeded.seedLoop loopFuel (Or.inl (dvd_zero _))
      (Nat.zero_le _) (by unfold loopFuel; omega) hs
    refine ⟨s, free, lost, ?_, h.toBoot, fun b => ⟨fun hb => ?_, fun hb => ?_⟩⟩
    · have h0 : pageAddr map.memBase.toNat 0 = map.memBase.toNat := by rw [pageAddr]; omega
      have hn : pageAddr map.memBase.toNat (poolPages map) =
          map.memBase.toNat + map.memSize.toNat := by rw [pageAddr, hsz]
      rw [h0, hn] at hrun
      rw [add64_of_lt hend, hrun]
    · exact ⟨hend, h.seeds b (List.mem_append_left _ hb), h.ne_zero b hb⟩
    · -- a seed is listed or lost, and only the block at address `0` is lost
      have hlt : b.page < poolPages map :=
        lt_of_lt_of_le (Nat.lt_add_of_pos_right (by positivity)) hb.2.1.bound
      rcases List.mem_append.mp ((h.mem_iff b).mpr ⟨hb.2.1, hlt⟩) with hfree | hlost
      · exact hfree
      · exact absurd (h.lost_zero b hlost) hb.2.2
  · have hmax : maxPoolSize < 2 ^ 64 := by decide
    have hle : ¬ map.memBase.toNat < add64 map.memBase.toNat map.memSize.toNat := by
      rw [add64_of_ge (by omega) hbase map.memSize.toNat_lt]
      omega
    refine ⟨cleared map next, fun _ => [], [], ?_, boot_cleared map next, fun b => ?_⟩
    · exact seedLoop_of_not_lt (by norm_num [loopFuel]) hle
    · simp only [blocksOf_nil, List.not_mem_nil, hend, false_and]

/-- The passes of `SetMemoryMap` on a pool that the bitmap covers. -/
lemma setMemoryMap_eq (s : Pmm) (image : KernelImage) (map : MemoryMap)
    (hsize : map.memSize.toNat ≤ maxPoolSize) :
    s.setMemoryMap image map =
      (seedLoop (add64 map.memBase.toNat map.memSize.toNat) loopFuel (cleared map s.next)
          map.memBase.toNat).bind fun s =>
        ((reservations image map).foldlM (fun (s : Pmm) r => s.reserveRegion r.1 r.2) s).bind
          fun s => s.dumpState.bind fun _ => some s := by
  unfold setMemoryMap
  rw [if_neg (Nat.not_lt.mpr hsize)]
  rfl

/-- `SetMemoryMap` returns on every pool that the bitmap covers and that is a whole number of pages
or wraps, and lists the expected blocks. -/
theorem exists_setMemoryMap (s : Pmm) (image : KernelImage) (map : MemoryMap)
    (hsize : map.memSize.toNat ≤ maxPoolSize)
    (hok : map.memBase.toNat + map.memSize.toNat < 2 ^ 64 → pageSize ∣ map.memSize.toNat) :
    ∃ s' free lost, s.setMemoryMap image map = some s' ∧
      Boot map.memBase.toNat (poolPages map) s' free lost ∧
      ∀ b, b ∈ blocksOf maxOrder free ↔ Listed image map b := by
  obtain ⟨s₁, free₁, lost, hseed, h₁, hmem₁⟩ := exists_seedLoop map s.next hsize hok
  have hregions : ∀ r ∈ reservations image map, r.1 < 2 ^ 64 := by
    intro r hr
    simp only [reservations, List.mem_append, List.mem_cons, List.mem_ite_nil_right,
      List.not_mem_nil, or_false] at hr
    rcases hr with ((rfl | rfl | rfl) | ⟨-, rfl⟩) | ⟨-, rfl⟩
    · exact image.textStart.toNat_lt
    · exact map.atfBase.toNat_lt
    · exact map.dtbBase.toNat_lt
    · exact map.cpioArchiveBase.toNat_lt
    · norm_num
  obtain ⟨s₂, free₂, hreserve, h₂, hmem₂⟩ := h₁.reserveAll _ hregions
  obtain ⟨counts, hdump⟩ := h₂.dumpState
  refine ⟨s₂, free₂, lost, ?_, h₂, fun b => ?_⟩
  · rw [setMemoryMap_eq s image map hsize, hseed, Option.bind_some, hreserve, Option.bind_some,
      hdump, Option.bind_some]
  · rw [hmem₂, hmem₁, Listed, and_assoc, and_assoc]

/-- `SetMemoryMap` never returns on a pool that the bitmap does not cover, or that neither wraps nor
is a whole number of pages. -/
theorem setMemoryMap_eq_none (s : Pmm) (image : KernelImage) (map : MemoryMap)
    (h : maxPoolSize < map.memSize.toNat ∨
      (map.memBase.toNat + map.memSize.toNat < 2 ^ 64 ∧ ¬ pageSize ∣ map.memSize.toNat)) :
    s.setMemoryMap image map = none := by
  by_cases hsize : map.memSize.toNat > maxPoolSize
  · unfold setMemoryMap
    rw [if_pos hsize]
  · obtain ⟨hend, hpages⟩ := h.resolve_left hsize
    have hmod : (map.memBase.toNat + map.memSize.toNat - map.memBase.toNat) % pageSize ≠ 0 := by
      rw [Nat.add_sub_cancel_left]
      exact fun h0 => hpages (Nat.dvd_of_mod_eq_zero h0)
    rw [setMemoryMap_eq s image map (Nat.not_lt.mp hsize), add64_of_lt hend,
      seedLoop_eq_none hend loopFuel (Nat.le_add_right _ _) hmod, Option.bind_none]

/-- What holds whenever `SetMemoryMap` returns. -/
theorem boot_of_setMemoryMap {s₀ s : Pmm} {image : KernelImage} {map : MemoryMap}
    (h : s₀.setMemoryMap image map = some s) :
    ∃ free lost, Boot map.memBase.toNat (poolPages map) s free lost ∧
      ∀ b, b ∈ blocksOf maxOrder free ↔ Listed image map b := by
  have hsize : map.memSize.toNat ≤ maxPoolSize := by
    by_contra hgt
    rw [setMemoryMap_eq_none s₀ image map (Or.inl (Nat.lt_of_not_le hgt))] at h
    exact absurd h (by simp)
  have hok : map.memBase.toNat + map.memSize.toNat < 2 ^ 64 → pageSize ∣ map.memSize.toNat := by
    intro hend
    by_contra hpages
    rw [setMemoryMap_eq_none s₀ image map (Or.inr ⟨hend, hpages⟩)] at h
    exact absurd h (by simp)
  obtain ⟨s', free, lost, hrun, hboot, hmem⟩ := exists_setMemoryMap s₀ image map hsize hok
  rw [h, Option.some.injEq] at hrun
  subst hrun
  exact ⟨free, lost, hboot, hmem⟩

end Pmm

end HyperBerry
