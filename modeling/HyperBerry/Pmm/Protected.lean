import HyperBerry.Pmm.Run

/-!
# Protected memory

The hypervisor image, the TF-A region, the device tree blob and the boot archive must never be
handed out, and neither must the null page of a pool at address `0`.  Reservation does not split
blocks, so this holds along every run exactly when each block of the pool that meets one of these
regions lies inside a region that is reserved (`protected_along_runs_iff`).
-/

namespace HyperBerry

namespace Pmm

/-- The bytes that must never be handed out. -/
def protectedBytes (image : KernelImage) (map : MemoryMap) : Set ℕ :=
  Set.Ico image.textStart.toNat image.uncachedSpaceEnd.toNat ∪
    Set.Ico map.atfBase.toNat (map.atfBase.toNat + map.atfSize.toNat) ∪
    Set.Ico map.dtbBase.toNat (map.dtbBase.toNat + map.dtbSize.toNat) ∪
    Set.Ico map.cpioArchiveBase.toNat (map.cpioArchiveBase.toNat + map.cpioArchiveSize.toNat) ∪
    {a | map.memBase = 0 ∧ a < pageSize}

/-- The blocks that seeding puts on the free lists: those that a pool that does not wrap is cut
into, but for the one at address `0`. -/
def Carved (map : MemoryMap) (b : Block) : Prop :=
  map.memBase.toNat + map.memSize.toNat < 2 ^ 64 ∧ IsSeed (poolPages map) b ∧
    pageAddr map.memBase.toNat b.page ≠ 0

/-- Every block of the pool that meets protected memory lies inside a reserved region. -/
def ReservedWhole (image : KernelImage) (map : MemoryMap) : Prop :=
  ∀ b, Carved map b →
    ¬ Disjoint (extent map.memBase.toNat b).bytes (protectedBytes image map) →
    Reserved (reservations image map) (pageAddr map.memBase.toNat b.page) b.order

/-- The blocks that stay listed are those that are carved out and not reserved. -/
lemma listed_iff {image : KernelImage} {map : MemoryMap} {b : Block} :
    Listed image map b ↔ Carved map b ∧
      ¬ Reserved (reservations image map) (pageAddr map.memBase.toNat b.page) b.order := by
  rw [Listed, Carved, and_assoc, and_assoc]

/-- No free and no live block meets protected memory in any state that clients can reach, exactly
when every block of the pool that meets it lies inside a reserved region. -/
theorem protected_along_runs_iff {s₀ s : Pmm} {image : KernelImage} {map : MemoryMap}
    (h : s₀.setMemoryMap image map = some s) :
    (∀ t, Run ⟨s, []⟩ t → ∀ e ∈ t.blocks, Disjoint e.bytes (protectedBytes image map)) ↔
      ReservedWhole image map := by
  constructor
  · intro hsafe b hcarved hmeet
    by_contra hres
    have hmem := (mem_blocks_of_setMemoryMap h).mpr ⟨b, listed_iff.mpr ⟨hcarved, hres⟩, rfl⟩
    exact hmeet (hsafe _ Relation.ReflTransGen.refl _ hmem)
  · intro hwhole t hrun e he
    -- a byte of `e` was free after bring-up
    rw [Set.disjoint_left]
    intro a ha hprot
    have hbytes : a ∈ bytesOf (System.mk s []).blocks := by
      have h₀ := tracks_of_run h (Relation.ReflTransGen.refl)
      rw [h₀.bytesOf_blocks, ← (tracks_of_run h hrun).bytesOf_blocks]
      exact ⟨e, he, ha⟩
    obtain ⟨e', he', ha'⟩ := hbytes
    obtain ⟨b, hb, rfl⟩ := (mem_blocks_of_setMemoryMap h).mp he'
    obtain ⟨hcarved, hres⟩ := listed_iff.mp hb
    exact hres (hwhole b hcarved (Set.not_disjoint_iff.mpr ⟨a, ha', hprot⟩))

/-- A pool of three pages whose last page holds the hypervisor image. -/
def smallPool : MemoryMap := { memBase := 0x40000000, memSize := 0x3000 }

/-- The last page of the small pool is a block of its own, so the image in it is safe. -/
lemma smallPool_reservedWhole : ReservedWhole ⟨0x40002000, 0x40002800⟩ smallPool := by
  rintro ⟨o, p⟩ ⟨-, hseed, -⟩ hmeet
  have hbound : p + 2 ^ o ≤ 3 := hseed.bound
  have ho : o < 2 := by
    by_contra hge
    have : 2 ^ 2 ≤ 2 ^ o := Nat.pow_le_pow_right (by norm_num) (Nat.le_of_not_lt hge)
    omega
  have hpage : p = tailPage 3 o := by
    refine hseed.tail.resolve_left ?_
    simp only [maxOrder]
    omega
  subst hpage
  obtain ⟨a, ha, hprot⟩ := Set.not_disjoint_iff.mp hmeet
  interval_cases o
  · decide
  · -- the block of order `1` ends below the image
    exfalso
    have hlt : a < 0x40002000 := ha.2
    have hge : 0x40000000 ≤ a := ha.1
    rcases hprot with (((hk | hatf) | hdtb) | hcpio) | ⟨hz, -⟩
    · exact absurd hk.1 (Nat.not_le.mpr hlt)
    · exact absurd hatf.2 (Nat.not_lt_zero a)
    · exact absurd hdtb.2 (Nat.not_lt_zero a)
    · exact absurd hcpio.2 (Nat.not_lt_zero a)
    · exact absurd hz (by decide)

/-- The hypervisor image in the small pool is never handed out. -/
theorem protected_along_runs_smallPool :
    ∃ s, (cleared {} fun _ => 0).setMemoryMap ⟨0x40002000, 0x40002800⟩ smallPool = some s ∧
      ∀ t, Run ⟨s, []⟩ t → ∀ e ∈ t.blocks,
        Disjoint e.bytes (protectedBytes ⟨0x40002000, 0x40002800⟩ smallPool) := by
  obtain ⟨s, -, -, hs, -⟩ := exists_setMemoryMap (cleared {} fun _ => 0) ⟨0x40002000, 0x40002800⟩
    smallPool (by decide) (by decide)
  exact ⟨s, hs, (protected_along_runs_iff hs).mpr smallPool_reservedWhole⟩

/-- On the QEMU `virt` board with 512 MiB of memory and an image at its link address, the second
allocation of the largest order hands out the block that holds the hypervisor. -/
theorem kernel_image_handed_out :
    ∃ s t, (cleared {} fun _ => 0).setMemoryMap ⟨0x40080000, 0x40090000⟩
        { memBase := 0x40000000, memSize := 0x20000000 } = some s ∧ Run ⟨s, []⟩ t ∧
      ⟨0x40000000, 16⟩ ∈ t.live ∧
      ¬ Disjoint (Extent.mk 0x40000000 16).bytes
        (protectedBytes ⟨0x40080000, 0x40090000⟩
          { memBase := 0x40000000, memSize := 0x20000000 }) := by
  have hrun : ((((cleared {} fun _ => 0).setMemoryMap ⟨0x40080000, 0x40090000⟩
      { memBase := 0x40000000, memSize := 0x20000000 }).bind fun s =>
        [Call.alloc 16, .alloc 16].foldlM System.call ⟨s, []⟩).map System.live) =
      some [⟨0x40000000, 16⟩, ⟨0x50000000, 16⟩] := by
    decide +kernel
  obtain ⟨t, ht, hlive⟩ := Option.map_eq_some_iff.mp hrun
  obtain ⟨s, hs, hcalls⟩ := Option.bind_eq_some_iff.mp ht
  refine ⟨s, t, hs, run_of_calls _ hcalls, by rw [hlive]; exact List.mem_cons_self, ?_⟩
  refine Set.not_disjoint_iff.mpr ⟨0x40080000, ⟨by decide, by decide⟩, ?_⟩
  exact Or.inl (Or.inl (Or.inl (Or.inl ⟨by decide, by decide⟩)))

end Pmm

end HyperBerry
