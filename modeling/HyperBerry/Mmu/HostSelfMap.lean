import HyperBerry.Mmu.HostCalls

/-!
# The hypervisor's map of itself

After `Enable` with the windows that `GetHostMmio` has built, the tables map the first 16 GiB and
the blocks of the devices to themselves, and nothing else; the blocks of the devices are device
memory.
-/

namespace HyperBerry

namespace HostMmu

open DeviceTree

/-! ## Windows -/

/-- A region that is not empty and ends in the 48-bit space. -/
structure HostRegion (region : DeviceRegion) : Prop where
  /-- The region is not empty. -/
  pos : 0 < region.size.toNat
  /-- The region ends in the 48-bit space. -/
  end_le : region.base.toNat + region.size.toNat ≤ 2 ^ 48

/-- The regions that `GetHostMmio` maps: the first of the console, and all of the interrupt
controller. -/
def mappedRegions (uart gic : DeviceNode) : List DeviceRegion := uart.regions.take 1 ++ gic.regions

/-- Some address of a region lies in the same 2 MiB block. -/
def TouchesBlock (region : DeviceRegion) (va : ℕ) : Prop :=
  ∃ a, region.base.toNat ≤ a ∧ a < region.base.toNat + region.size.toNat ∧
    a / size2MB = va / size2MB

/-- The window of a region, in whole blocks. -/
def blockWindow (region : DeviceRegion) : MmioWindow where
  base := region.base.toNat / size2MB * size2MB
  pa := region.base.toNat / size2MB * size2MB
  size := ((region.base.toNat + region.size.toNat - 1) / size2MB + 1 -
    region.base.toNat / size2MB) * size2MB
  byPage := false

variable {root : ℕ} {st st' : Tables} {region : DeviceRegion} {uart gic : DeviceNode}

/-- What `AddBlocks` adds for a region of the 48-bit space. -/
lemma addBlocks_eq (h : HostRegion region) (map : MmioMap) :
    map.addBlocks region.base.toNat region.size.toNat = map.add (blockWindow region) := by
  have hpos := h.pos
  have hend := h.end_le
  have hdown : MmioMap.alignDown region.base.toNat size2MB =
      region.base.toNat / size2MB * size2MB :=
    and_not64_two_pow_sub_one region.base.toNat_lt (k := 21) (by norm_num)
  have hup : MmioMap.alignUp region.base.toNat region.size.toNat size2MB =
      ((region.base.toNat + region.size.toNat - 1) / size2MB + 1) * size2MB := by
    have hand := and_not64_two_pow_sub_one (a := sub64 (add64 (add64 region.base.toNat
      region.size.toNat) size2MB) 1) (k := 21) (sub64_lt _ _) (by norm_num)
    refine hand.trans ?_
    unfold sub64 add64 size2MB
    omega
  rw [MmioMap.addBlocks, hdown, hup]
  congr 1
  rw [blockWindow, MmioWindow.mk.injEq]
  refine ⟨rfl, rfl, ?_, rfl⟩
  unfold sub64 size2MB
  omega

/-- A window of a region contains the blocks that the region touches. -/
lemma mem_blockWindow_iff (h : HostRegion region) (va : ℕ) :
    ((blockWindow region).base ≤ va ∧ va < (blockWindow region).base + (blockWindow region).size) ↔
      TouchesBlock region va := by
  have hpos := h.pos
  dsimp only [blockWindow]
  unfold TouchesBlock size2MB
  constructor
  · rintro ⟨hlo, hhi⟩
    exact ⟨max region.base.toNat (va / 0x200000 * 0x200000), by omega, by omega, by omega⟩
  · rintro ⟨a, hlo, hhi, hblock⟩
    omega

/-- A window that is added is there afterwards, and the others are as before. -/
lemma mem_add {map map' : MmioMap} {want : MmioWindow} (h : map.add want = (map', true))
    (window : MmioWindow) : window ∈ map'.windows ↔ window ∈ map.windows ∨ window = want := by
  rw [MmioMap.add] at h
  split_ifs at h with hmem hfull
  · obtain rfl := (Prod.mk.inj h).1
    exact ⟨Or.inl, fun hor => hor.elim id fun heq => heq ▸ hmem⟩
  · cases h
  · obtain rfl := (Prod.mk.inj h).1
    rw [List.mem_append, List.mem_singleton]

/-- The windows after the regions of a list were added. -/
lemma mem_foldlM_addBlocks {message : String} : ∀ (regions : List DeviceRegion)
    {map map' : MmioMap}, (∀ region ∈ regions, HostRegion region) →
    regions.foldlM (fun map region => addBlocksOrPanic map region message) map = .ok map' →
    ∀ window, window ∈ map'.windows ↔
      window ∈ map.windows ∨ ∃ region ∈ regions, window = blockWindow region := by
  intro regions
  induction regions with
  | nil =>
    intro map map' _ h window
    obtain rfl := Except.ok.inj h
    simp
  | cons region regions ih =>
    intro map map' hproper h window
    rw [List.foldlM_cons, addBlocksOrPanic, addBlocks_eq (hproper region List.mem_cons_self)] at h
    split_ifs at h with hadd
    · rw [ih (fun r hr => hproper r (List.mem_cons_of_mem _ hr)) h,
        mem_add (Prod.ext rfl hadd), List.exists_mem_cons_iff, or_assoc]
    · cases h

/-- The windows that `GetHostMmio` returns. -/
lemma mem_hostMmio {bsp : BspConstants} {devices : MmioMap}
    (hproper : ∀ region ∈ mappedRegions uart gic, HostRegion region)
    (h : hostMmio bsp uart gic = .ok devices) (window : MmioWindow) :
    window ∈ devices.windows ↔ ∃ region ∈ mappedRegions uart gic, window = blockWindow region := by
  rw [hostMmio] at h
  split_ifs at h
  cases huart : (uart.regions.take 1).foldlM (fun map region => addBlocksOrPanic map region
      "[ERROR][DTB] host UART mapping failed") ({} : MmioMap) with
  | error message =>
    rw [huart] at h
    cases h
  | ok map =>
    rw [huart] at h
    rw [mem_foldlM_addBlocks _ (fun r hr => hproper r (List.mem_append_right _ hr)) h,
      mem_foldlM_addBlocks _ (fun r hr => hproper r (List.mem_append_left _ hr)) huart,
        mappedRegions]
    simp only [List.not_mem_nil, false_or, List.mem_append, or_and_right, exists_or]

/-! ## `Enable` -/

/-- The calls of `Enable`. -/
def enableCalls (devices : MmioMap) : List HostCall :=
  .map hvVaBase hvVaBase hvVaSize (pteNormal ||| pteApRw) ::
    devices.windows.map fun window => .map window.base window.pa window.size pteDevice

/-- `Enable` as a sequence of calls. -/
lemma enable_eq (root : ℕ) (devices : MmioMap) (st : Tables) :
    enable (stage1Table root) devices st = runCalls root (enableCalls devices) st := by
  rw [enable, runCalls, enableCalls, List.foldlM_cons]
  simp only [List.foldlM_map]
  rfl

lemma isFlags_device : IsFlags pteDevice := ⟨by decide, by decide, by decide⟩

/-- The calls of `Enable` are well formed. -/
lemma wellFormed_enableCalls {bsp : BspConstants} {devices : MmioMap}
    (hproper : ∀ region ∈ mappedRegions uart gic, HostRegion region)
    (h : hostMmio bsp uart gic = .ok devices) : ∀ c ∈ enableCalls devices, c.WellFormed := by
  intro c hc
  rcases List.mem_cons.mp hc with rfl | hc
  · exact ⟨by decide, by decide, by decide, by decide, by decide, isFlags_normal⟩
  · obtain ⟨window, hwindow, rfl⟩ := List.mem_map.mp hc
    obtain ⟨region, hregion, rfl⟩ := (mem_hostMmio hproper h window).mp hwindow
    have hend := (hproper region hregion).end_le
    have hpos := (hproper region hregion).pos
    have hle : (blockWindow region).base + (blockWindow region).size ≤ 2 ^ 48 := by
      dsimp only [blockWindow]
      unfold size2MB
      omega
    exact ⟨Nat.dvd_mul_left .., Nat.dvd_mul_left .., Nat.dvd_mul_left .., hle, hle, isFlags_device⟩

/-- Without `UnmapRange` the last call for an address also reaches it. -/
lemma lastReaching_eq_lastCovering {history : List HostCall}
    (hmaps : ∀ c ∈ history, ∃ va pa size flags, c = .map va pa size flags) (a : ℕ) :
    lastReaching history a = lastCovering history a := by
  cases hcov : lastCovering history a with
  | none => exact lastReaching_of_none hcov
  | some c =>
    obtain ⟨va, pa, size, flags, rfl⟩ := hmaps c (List.mem_of_find?_eq_some hcov)
    exact lastReaching_of_map hcov

/-- The last call of `Enable` for an address. -/
lemma lastCovering_enableCalls {bsp : BspConstants} {devices : MmioMap}
    (hproper : ∀ region ∈ mappedRegions uart gic, HostRegion region)
    (h : hostMmio bsp uart gic = .ok devices) (va : ℕ) :
    ((∃ region ∈ mappedRegions uart gic, TouchesBlock region va) →
      ∃ base size, base ≤ va ∧
        lastCovering (enableCalls devices).reverse va = some (.map base base size pteDevice)) ∧
    ((∀ region ∈ mappedRegions uart gic, ¬TouchesBlock region va) →
      lastCovering (enableCalls devices).reverse va = if va < size16GB then
        some (.map hvVaBase hvVaBase hvVaSize (pteNormal ||| pteApRw)) else none) := by
  have hmem := mem_hostMmio hproper h
  rw [enableCalls, List.reverse_cons, lastCovering, List.find?_append]
  constructor
  · rintro ⟨region, hregion, htouch⟩
    -- the window of the region covers the address, so the search ends among the windows
    obtain ⟨c, hfind⟩ : ∃ c, (devices.windows.map fun window => HostCall.map window.base window.pa
        window.size pteDevice).reverse.find? (fun c => c.Covers va) = some c := by
      refine Option.isSome_iff_exists.mp (List.find?_isSome.mpr ⟨.map (blockWindow region).base
        (blockWindow region).pa (blockWindow region).size pteDevice, List.mem_reverse.mpr
        (List.mem_map.mpr ⟨_, (hmem _).mpr ⟨region, hregion, rfl⟩, rfl⟩), decide_eq_true ?_⟩)
      exact (mem_blockWindow_iff (hproper region hregion) va).mpr htouch
    obtain ⟨window, hwindow, rfl⟩ :=
      List.mem_map.mp (List.mem_reverse.mp (List.mem_of_find?_eq_some hfind))
    obtain ⟨region', -, rfl⟩ := (hmem window).mp hwindow
    have hcov := List.find?_some hfind
    exact ⟨_, _, (of_decide_eq_true hcov).1, by rw [hfind]; rfl⟩
  · intro hnone
    have hfind : (devices.windows.map fun window => HostCall.map window.base window.pa
        window.size pteDevice).reverse.find? (fun c => c.Covers va) = none := by
      refine List.find?_eq_none.mpr fun c hc hcov => ?_
      obtain ⟨window, hwindow, rfl⟩ := List.mem_map.mp (List.mem_reverse.mp hc)
      obtain ⟨region, hregion, rfl⟩ := (hmem window).mp hwindow
      exact hnone region hregion
        ((mem_blockWindow_iff (hproper region hregion) va).mp (of_decide_eq_true hcov))
    rw [hfind, Option.none_or, List.find?_singleton]
    have hiff : (HostCall.map hvVaBase hvVaBase hvVaSize (pteNormal ||| pteApRw)).Covers va ↔
        va < size16GB := by
      rw [HostCall.Covers]
      dsimp only [HostCall.base, HostCall.size]
      unfold hvVaBase hvVaSize
      omega
    by_cases hva : va < size16GB
    · rw [if_pos hva, if_pos (decide_eq_true (hiff.mpr hva))]
    · rw [if_neg hva, if_neg fun hcov => hva (hiff.mp (of_decide_eq_true hcov))]

/-- What the hardware finds after `Enable`. -/
lemma enable_hwWalk {bsp : BspConstants} {devices : MmioMap} (hroot : EmptyRoot root st)
    (hproper : ∀ region ∈ mappedRegions uart gic, HostRegion region)
    (h : hostMmio bsp uart gic = .ok devices)
    (hrun : enable (stage1Table root) devices st = some st') (va : ℕ) :
    ((∃ region ∈ mappedRegions uart gic, TouchesBlock region va) →
      hwWalk st'.mem root va = some ⟨va, pteDevice⟩) ∧
    ((∀ region ∈ mappedRegions uart gic, ¬TouchesBlock region va) →
      hwWalk st'.mem root va =
        if va < size16GB then some ⟨va, pteNormal ||| pteApRw⟩ else none) := by
  have hwf := wellFormed_enableCalls hproper h
  have hmaps : ∀ c ∈ (enableCalls devices).reverse, ∃ va pa size flags,
      c = .map va pa size flags := by
    intro c hc
    rcases List.mem_cons.mp (List.mem_reverse.mp hc) with rfl | hc
    · exact ⟨_, _, _, _, rfl⟩
    · obtain ⟨window, -, rfl⟩ := List.mem_map.mp hc
      exact ⟨_, _, _, _, rfl⟩
  have htracks : Tracks root (enableCalls devices).reverse st' := by
    rw [enable_eq] at hrun
    rcases hroot.tracks.runCalls _ hwf with ⟨hnone, -⟩ | ⟨st₁, hrun₁, htracks⟩
    · rw [hnone] at hrun
      cases hrun
    · obtain rfl : st₁ = st' := Option.some.inj (hrun₁.symm.trans hrun)
      rwa [List.append_nil] at htracks
  obtain ⟨hdevice, hnormal⟩ := lastCovering_enableCalls hproper h va
  by_cases hva : va < 2 ^ 48
  · rw [htracks.hwWalk_eq (fun c hc => hwf c (List.mem_reverse.mp hc)) hva,
      lastReaching_eq_lastCovering hmaps]
    constructor
    · intro htouch
      obtain ⟨base, size, hle, hlast⟩ := hdevice htouch
      rw [hlast, Option.bind_some, HostCall.translation, Nat.add_sub_cancel' hle]
    · intro hnone
      rw [hnormal hnone]
      split_ifs
      · rw [Option.bind_some, HostCall.translation, hvVaBase, Nat.sub_zero, Nat.zero_add]
      · rfl
  · rw [hwWalk, if_neg hva]
    constructor
    · rintro ⟨region, hregion, a, -, hlt, hblock⟩
      have hend := (hproper region hregion).end_le
      unfold size2MB at hblock
      omega
    · intro _
      rw [if_neg (by unfold size16GB; omega)]

lemma isDevice_pteDevice : IsDevice pteDevice ∧ ¬IsNormal pteDevice := by decide

lemma isNormal_pteNormal :
    IsNormal (pteNormal ||| pteApRw) ∧ ¬IsDevice (pteNormal ||| pteApRw) := by
  decide

/-- **The self-map.**  With two pages for each block `Enable` returns, and whenever it returns, the
addresses below 16 GiB and those in a block that a mapped region touches translate to themselves and
no other address translates; the mapping is device memory that cannot be executed exactly in the
blocks that a region touches, and normal memory that can be read and written in the others. -/
theorem enable_self_map {bsp : BspConstants} {devices : MmioMap} (hroot : EmptyRoot root st)
    (hproper : ∀ region ∈ mappedRegions uart gic, HostRegion region)
    (h : hostMmio bsp uart gic = .ok devices) :
    (pagesFor (enableCalls devices) ≤ st.supply.length →
      (enable (stage1Table root) devices st).isSome) ∧
    ∀ st', enable (stage1Table root) devices st = some st' → ∀ va,
      ((hwWalk st'.mem root va).isSome ↔
        va < size16GB ∨ ∃ region ∈ mappedRegions uart gic, TouchesBlock region va) ∧
      ∀ t, hwWalk st'.mem root va = some t → t.pa = va ∧
        (IsDevice t.flags ↔ ∃ region ∈ mappedRegions uart gic, TouchesBlock region va) ∧
        (IsNormal t.flags ↔ ¬∃ region ∈ mappedRegions uart gic, TouchesBlock region va) := by
  constructor
  · intro hsupply
    rw [enable_eq]
    rcases hroot.tracks.runCalls _ (wellFormed_enableCalls hproper h) with
      ⟨-, hlen⟩ | ⟨st₁, hrun, -⟩
    · omega
    · rw [hrun]
      rfl
  · intro st' hrun va
    obtain ⟨hdevice, hnormal⟩ := enable_hwWalk hroot hproper h hrun va
    by_cases htouch : ∃ region ∈ mappedRegions uart gic, TouchesBlock region va
    · rw [hdevice htouch]
      refine ⟨⟨fun _ => .inr htouch, fun _ => rfl⟩, fun t ht => ?_⟩
      obtain rfl := Option.some.inj ht
      exact ⟨rfl, ⟨fun _ => htouch, fun _ => isDevice_pteDevice.1⟩,
        ⟨fun hn => absurd hn isDevice_pteDevice.2, fun hn => absurd htouch hn⟩⟩
    · rw [hnormal fun region hregion ht => htouch ⟨region, hregion, ht⟩]
      by_cases hva : va < size16GB
      · rw [if_pos hva]
        refine ⟨⟨fun _ => .inl hva, fun _ => rfl⟩, fun t ht => ?_⟩
        obtain rfl := Option.some.inj ht
        exact ⟨rfl, ⟨fun hd => absurd hd isNormal_pteNormal.2, fun hd => absurd hd htouch⟩,
          ⟨fun _ => htouch, fun _ => isNormal_pteNormal.1⟩⟩
      · rw [if_neg hva]
        refine ⟨⟨fun hsome => ?_, fun hor => absurd (hor.resolve_left hva) htouch⟩, fun t ht => ?_⟩
        · cases hsome
        · cases ht

/-! ## A board -/

/-- The interrupt controller of a board, with its four regions. -/
def boardGic : DeviceNode where
  regions := [⟨0x107FFF9000, 0x1000⟩, ⟨0x107FFFA000, 0x2000⟩, ⟨0x107FFFC000, 0x2000⟩,
    ⟨0x107FFFE000, 0x2000⟩]
  isFound := true
  regionCount_le := by decide

/-- The console of a board, with further regions. -/
def boardUart (others : List DeviceRegion) (h : others.length ≤ 7) : DeviceNode where
  regions := ⟨0x107D001000, 0x200⟩ :: others
  isFound := true
  regionCount_le := Nat.succ_le_succ h

/-- The constants of the board. -/
def boardBsp : BspConstants where
  uart := ⟨0x107D001000, 0x200⟩
  gicDistributor := ⟨0x107FFF9000, 0x1000⟩
  gicCpu := ⟨0x107FFFA000, 0x2000⟩
  gicHv := ⟨0x107FFFC000, 0x2000⟩
  gicVcpu := ⟨0x107FFFE000, 0x2000⟩

/-- The windows of the board: one block for the console and one for the interrupt controller. -/
def boardDevices : MmioMap where
  windows := [⟨0x107D000000, 0x107D000000, size2MB, false⟩,
    ⟨0x107FE00000, 0x107FE00000, size2MB, false⟩]

/-- Zeroed pages for the tables of the board. -/
def boardTables (pages : ℕ) : Tables where
  mem _ := 0
  supply := (List.range pages).map fun i => (i + 0x100) * 0x1000

lemma hostMmio_board (others : List DeviceRegion) (h : others.length ≤ 7) :
    hostMmio boardBsp (boardUart others h) boardGic = .ok boardDevices := by
  rfl

lemma hostRegion_board (others : List DeviceRegion) (h : others.length ≤ 7) :
    ∀ region ∈ mappedRegions (boardUart others h) boardGic, HostRegion region := by
  have hmapped : mappedRegions (boardUart others h) boardGic = boardBsp.expected := rfl
  rw [hmapped]
  intro region hregion
  have hall : ∀ r ∈ boardBsp.expected, 0 < r.size.toNat ∧ r.base.toNat + r.size.toNat ≤ 2 ^ 48 := by
    decide
  exact ⟨(hall region hregion).1, (hall region hregion).2⟩

lemma emptyRoot_board {pages : ℕ} (hpages : pages ≤ 20000) :
    EmptyRoot 0x80000 (boardTables pages) := by
  refine ⟨⟨by decide, by decide⟩, fun _ _ => rfl, fun p hp => ?_, ?_⟩
  · obtain ⟨i, hi, rfl⟩ := List.mem_map.mp hp
    rw [List.mem_range] at hi
    exact ⟨⟨by unfold pageSize; omega, by omega⟩, by omega⟩
  · refine List.nodup_range.map fun i j hij => ?_
    omega

lemma pagesFor_board : pagesFor (enableCalls boardDevices) ≤ (boardTables 20000).supply.length := by
  rw [boardTables, List.length_map, List.length_range]
  decide

/-- The self-map of the board. -/
theorem enable_self_map_board :
    ∃ st', enable (stage1Table 0x80000) boardDevices (boardTables 20000) = some st' ∧
    ∀ va, (hwWalk st'.mem 0x80000 va).isSome ↔ va < size16GB ∨
      ∃ region ∈ mappedRegions (boardUart [] (by decide)) boardGic, TouchesBlock region va := by
  obtain ⟨hreturns, hmap⟩ := enable_self_map (emptyRoot_board le_rfl)
    (hostRegion_board [] (by decide)) (hostMmio_board [] (by decide))
  obtain ⟨st', hrun⟩ := Option.isSome_iff_exists.mp (hreturns pagesFor_board)
  exact ⟨st', hrun, fun va => (hmap st' hrun va).1⟩

/-- A second region of the console is not mapped: only the first one has a window. -/
theorem second_console_region_unmapped :
    hostMmio boardBsp (boardUart [⟨0x2000000000, 0x1000⟩] (by decide)) boardGic = .ok boardDevices ∧
    TouchesBlock ⟨0x2000000000, 0x1000⟩ 0x2000000000 ∧
    ∃ st', enable (stage1Table 0x80000) boardDevices (boardTables 20000) = some st' ∧
      hwWalk st'.mem 0x80000 0x2000000000 = none := by
  have hmmio := hostMmio_board [⟨0x2000000000, 0x1000⟩] (by decide)
  have hproper := hostRegion_board [⟨0x2000000000, 0x1000⟩] (by decide)
  refine ⟨hmmio, ⟨0x2000000000, by decide, by decide, rfl⟩, ?_⟩
  rcases (emptyRoot_board le_rfl).tracks.runCalls _ (wellFormed_enableCalls hproper hmmio) with
    ⟨-, hlen⟩ | ⟨st', hrun, -⟩
  · exact absurd pagesFor_board (by omega)
  · rw [← enable_eq] at hrun
    obtain ⟨-, hnormal⟩ := enable_hwWalk (emptyRoot_board le_rfl) hproper hmmio hrun 0x2000000000
    refine ⟨st', hrun, (hnormal ?_).trans (if_neg (by decide))⟩
    rintro region hregion ⟨a, hlo, hhi, hblock⟩
    have hall : ∀ r ∈ boardBsp.expected, r.base.toNat + r.size.toNat ≤ 0x1080000000 := by decide
    have hend := hall region hregion
    unfold size2MB at hblock
    omega

end HostMmu

end HyperBerry
