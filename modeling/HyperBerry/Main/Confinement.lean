import HyperBerry.BootLoader.Reread
import HyperBerry.Main.GuestPages

/-!
# A running guest is confined

The stage-2 tables are in the same memory as everything else, and the hardware reads them there
whenever the guest accesses an address.  So that the tables confine the guest it must not be able to
change them. `guest_confined`: whatever a guest writes, and however often, its writes end in its own
RAM and in the pages of its devices.  The tables stay as they are, so every address keeps its
translation; and the allocator, which keeps its free lists in free memory, is in a state that it
could have reached by itself.
-/

namespace HyperBerry

open Memory DeviceTree

namespace Main

open BootLoader (guestRamSize guestIpaBase)
open Cpio (Archive)
open Pmm (Extent Tracks System bytesOf poolPages listedPages)

/-! ## Device windows -/

/-- A window in whole pages. -/
lemma pageWindow_pageWindow {ipa : ℕ} (hipa : ipa < 2 ^ 64) (pa size : ℕ) :
    GuestMmu.PageWindow (MmioMap.pageWindow ipa pa size) := by
  have hdown := alignDown_size4KB hipa
  have hup : MmioMap.alignUp ipa size size4KB =
      sub64 (add64 (add64 ipa size) size4KB) 1 / size4KB * size4KB :=
    and_not64_two_pow_sub_one (sub64_lt _ _) (k := 12) (by norm_num)
  refine ⟨rfl, ?_, sub64_lt _ _⟩
  change size4KB ∣ sub64 (MmioMap.alignUp ipa size size4KB) (MmioMap.alignDown ipa size4KB)
  rw [hup, hdown]
  unfold sub64 size4KB
  omega

/-- Every window of a guest is one in whole pages. -/
lemma pageWindow_of_getGuestMmio {bspUartBase : ℕ} {m : Memory} {dtb : ℕ} {devices : MmioMap}
    (h : getGuestMmio bspUartBase m dtb = .ok devices) :
    ∀ window ∈ devices.windows, GuestMmu.PageWindow window := by
  obtain ⟨gic, -, h⟩ := bind_eq_ok.mp h
  obtain ⟨uart, -, h⟩ := bind_eq_ok.mp h
  rw [guestMmio_eq] at h
  obtain rfl := Except.ok.inj h
  have hregion : ∀ window ∈ declaredWindows gic uart, GuestMmu.PageWindow window := by
    intro window hwindow
    obtain ⟨region, -, rfl⟩ := mem_declaredWindows.mp hwindow
    exact pageWindow_pageWindow region.base.toNat_lt _ _
  intro window hwindow
  split_ifs at hwindow
  · exact hregion window hwindow
  · rw [addWindow] at hwindow
    split_ifs at hwindow
    · exact hregion window hwindow
    · rcases List.mem_append.mp hwindow with hwindow | hwindow
      · exact hregion window hwindow
      · obtain rfl := List.mem_singleton.mp hwindow
        exact pageWindow_pageWindow (by decide) _ _

/-! ## From the archive to the guest -/

/-- What has happened when `hmain` has a guest. -/
lemma bootGuest_cases {board : Board} {archiveBase archiveSize : ℕ} {m : Memory} {pmm : Pmm}
    {g : Booted} (h : bootGuest board archiveBase archiveSize m pmm = .ok g) :
    ∃ archive, Archive.make m archiveBase archiveSize = .ok archive ∧
      BootLoader.load board.paths archive m pmm = .ok g.loaded ∧ g.loaded.ok = true ∧
      getGuestMmio board.bspUartBase g.loaded.mem
        (g.loaded.out.ipaToHostPa g.loaded.out.dtbIpa) = .ok g.devices ∧
      buildGuestMmu g.loaded.pmm g.loaded.mem.word guestIpaBase g.loaded.out.ramHostPa guestRamSize
        g.devices = some g.mmu ∧
      g.world = board.vm g.loaded.out := by
  obtain ⟨archive, hmake, h⟩ := bind_eq_ok.mp h
  obtain ⟨loaded, hload, h⟩ := bind_eq_ok.mp h
  split_ifs at h with hok
  obtain ⟨devices, hdevices, h⟩ := bind_eq_ok.mp h
  refine ⟨archive, hmake, ?_⟩
  split at h
  · cases h
  · rename_i mmu hmmu
    obtain rfl := Except.ok.inj h
    exact ⟨hload, by simpa using hok, hdevices, hmmu, rfl⟩

/-- A guest stores a byte: the hardware translates the address with the tables that are in memory
now. -/
def guestStore (root : ℕ) (m : Memory) (access : ℕ × UInt8) : Memory :=
  match stage2 m root access.1 with
  | none => m
  | some τ => m.store τ.pa [access.2]

/-- A guest stores bytes, one after the other. -/
def guestStores (root : ℕ) (m : Memory) (accesses : List (ℕ × UInt8)) : Memory :=
  accesses.foldl (guestStore root) m

section Booted

variable {s₀ s : Pmm} {image : KernelImage} {map : MemoryMap} {t : System} {board : Board}
  {archiveBase archiveSize : ℕ} {m : Memory} {g : Booted}
  (hup : s₀.setMemoryMap image map = some s) (hrun : Pmm.Run ⟨s, []⟩ t)
  (hboot : bootGuest board archiveBase archiveSize m t.pmm = .ok g)

/-- The blocks of a guest: its tables, and its RAM. -/
def Booted.blocks (g : Booted) : List Extent := g.mmu.blocks ++ [⟨g.loaded.out.ramHostPa, maxOrder⟩]

include hup hrun hboot

/-- The blocks of the guest are live. -/
lemma run_booted : Pmm.Run ⟨s, []⟩ ⟨g.mmu.pmm, g.blocks ++ t.live⟩ := by
  obtain ⟨archive, -, hload, hok, -, hbuild, -⟩ := bootGuest_cases hboot
  obtain ⟨hloaded, -⟩ := run_of_load (Pmm.tracks_of_run hup hrun) hload hok
  rw [Booted.blocks, List.append_assoc]
  exact hrun.trans (hloaded.trans (BuiltMmu.run hbuild _))

/-- The allocator behind the guest. -/
lemma tracks_booted : Tracks map.memBase.toNat (poolPages map) (listedPages image map)
    ⟨g.mmu.pmm, g.blocks ++ t.live⟩ :=
  Pmm.tracks_of_run hup (run_booted hup hrun hboot)

/-- Guest RAM is a block of the pool. -/
lemma ram_booted : pageSize <<< maxOrder ∣ g.loaded.out.ramHostPa - map.memBase.toNat ∧
    map.memBase.toNat ≤ g.loaded.out.ramHostPa ∧
    g.loaded.out.ramHostPa + guestRamSize ≤ map.memBase.toNat + map.memSize.toNat := by
  have hmem : (⟨g.loaded.out.ramHostPa, maxOrder⟩ : Extent) ∈ g.blocks ++ t.live :=
    List.mem_append_left _ (List.mem_append_right _ List.mem_cons_self)
  obtain ⟨hdvd, hge, hle⟩ := (tracks_booted hup hrun hboot).live_cases hmem
  have hpool : pageSize * poolPages map ≤ map.memSize.toNat := Nat.mul_div_le _ _
  dsimp only at hle
  rw [BootLoader.pageSize_shiftLeft_maxOrder] at hle
  exact ⟨hdvd, hge, hle.trans (Nat.add_le_add_left hpool _)⟩

/-- The tables share no byte with guest RAM. -/
lemma tables_disjoint_ram {a : ℕ} (ha : a ∈ bytesOf g.mmu.blocks) : a ∉ g.loaded.out.ramBytes := by
  have hpairwise := (List.pairwise_append.mp (tracks_booted hup hrun hboot).pairwise_disjoint).2.1
  obtain ⟨hblocks, -⟩ := List.pairwise_append.mp hpairwise
  obtain ⟨e, he, hin⟩ := ha
  have hdisjoint := (List.pairwise_append.mp hblocks).2.2 e he _ List.mem_cons_self
  intro hram
  refine Set.disjoint_left.mp hdisjoint hin ?_
  exact hram

variable (hbase : size2MB ∣ map.memBase.toNat)
  (hend : map.memBase.toNat + map.memSize.toNat ≤ 2 ^ 48)

include hbase hend

/-- Guest RAM can be mapped in blocks of 2 MiB. -/
lemma ramRange_booted : RamRange guestIpaBase g.loaded.out.ramHostPa guestRamSize := by
  obtain ⟨hdvd, hge, hle⟩ := ram_booted hup hrun hboot
  refine ⟨by decide, ?_, by decide, by decide, hle.trans hend⟩
  rw [← Nat.sub_add_cancel hge]
  exact dvd_add ((by decide : size2MB ∣ pageSize <<< maxOrder).trans hdvd) hbase

/-- The tables are in the memory of the guest. -/
lemma word_memory_booted : ∀ p ∈ g.mmu.pages, ∀ k < 512,
    g.memory.word (p + 8 * k) = g.mmu.tables.mem (p + 8 * k) := by
  obtain ⟨archive, -, hload, hok, hdevices, hbuild, -⟩ := bootGuest_cases hboot
  have htracks := Pmm.tracks_of_run hup hrun
  have hpool : pageSize * poolPages map ≤ map.memSize.toNat := Nat.mul_div_le _ _
  exact BuiltMmu.word_memory_eq (htracks.run (run_of_load htracks hload hok).1)
    ((by decide : pageSize ∣ size2MB).trans hbase) (by omega)
    (ramRange_booted hup hrun hboot hbase hend) (pageWindow_of_getGuestMmio hdevices) hbuild
    (fun a => word_lt _ a) _

section Memory

variable {m' : Memory} (hm' : ∀ a ∈ bytesOf g.mmu.blocks, m' a = g.memory a)

include hm'

/-- Memory that holds the same bytes in the pages of the tables holds the tables. -/
lemma word_booted : ∀ p ∈ g.mmu.pages, ∀ k < 512,
    m'.word (p + 8 * k) = g.mmu.tables.mem (p + 8 * k) := by
  intro p hp k hk
  rw [← word_memory_booted hup hrun hboot hbase hend p hp k hk]
  refine word_congr fun i hi => hm' _ (g.mmu.pageBytes_subset hp ?_)
  unfold pageSize
  omega

/-- With its tables in place, a guest reaches its RAM and its devices. -/
lemma stage2_cases {ipa : ℕ} {τ : GuestMmu.Translation} (hτ : stage2 m' g.mmu.root ipa = some τ) :
    τ.pa ∈ g.loaded.out.ramBytes ∨ τ.pa ∈ deviceBytes g.devices := by
  obtain ⟨archive, -, hload, hok, hdevices, hbuild, -⟩ := bootGuest_cases hboot
  have htracks := Pmm.tracks_of_run hup hrun
  have hpool : pageSize * poolPages map ≤ map.memSize.toNat := Nat.mul_div_le _ _
  rw [stage2] at hτ
  split_ifs at hτ with hipa
  exact BuiltMmu.pa_cases (htracks.run (run_of_load htracks hload hok).1)
    ((by decide : pageSize ∣ size2MB).trans hbase) (by omega)
    (ramRange_booted hup hrun hboot hbase hend) (pageWindow_of_getGuestMmio hdevices) hbuild
    (word_booted hup hrun hboot hbase hend hm') hipa hτ

/-- With its tables in place, a guest has the same translations. -/
lemma stage2_congr (ipa : ℕ) : stage2 m' g.mmu.root ipa = stage2 g.memory g.mmu.root ipa := by
  obtain ⟨archive, -, hload, hok, hdevices, hbuild, -⟩ := bootGuest_cases hboot
  have htracks := Pmm.tracks_of_run hup hrun
  have hpool : pageSize * poolPages map ≤ map.memSize.toNat := Nat.mul_div_le _ _
  have hwalk {m : Memory} := BuiltMmu.hwWalk_eq (m := m)
    (htracks.run (run_of_load htracks hload hok).1)
    ((by decide : pageSize ∣ size2MB).trans hbase) (by omega)
    (ramRange_booted hup hrun hboot hbase hend) (pageWindow_of_getGuestMmio hdevices) hbuild
  rw [stage2, stage2]
  split_ifs with hipa
  · rw [hwalk (word_booted hup hrun hboot hbase hend hm') hipa,
      hwalk (word_memory_booted hup hrun hboot hbase hend) hipa]
  · rfl

end Memory

variable (hapart : ∀ a ∈ deviceBytes g.devices,
    ¬ (map.memBase.toNat ≤ a ∧ a < map.memBase.toNat + map.memSize.toNat))

include hapart

omit hbase hend in
/-- A block of the pool has no byte of a device. -/
lemma not_mem_deviceBytes {e : Extent} (he : e ∈ (System.mk g.mmu.pmm (g.blocks ++ t.live)).blocks)
    {a : ℕ} (ha : a ∈ e.bytes) : a ∉ deviceBytes g.devices := by
  intro hin
  obtain ⟨l, hl, htiling, -⟩ := (tracks_booted hup hrun hboot).exists_blocks_eq
  rw [hl] at he
  obtain ⟨b, hb, rfl⟩ := List.mem_map.mp he
  have hpool : pageSize * poolPages map ≤ map.memSize.toNat := Nat.mul_div_le _ _
  obtain ⟨hge, hpage⟩ := Pmm.mem_bytes_extent.mp ha
  have hlast := hpage.2.trans_le (htiling.bound b hb)
  rw [Nat.div_lt_iff_lt_mul (by decide)] at hlast
  refine hapart a hin ⟨hge, ?_⟩
  rw [Nat.mul_comm] at hlast
  omega

/-- Guest stores keep everything outside of guest RAM and the devices. -/
lemma guestStores_frame (accesses : List (ℕ × UInt8)) {a : ℕ} (hram : a ∉ g.loaded.out.ramBytes)
    (hdevice : a ∉ deviceBytes g.devices) :
    guestStores g.mmu.root g.memory accesses a = g.memory a := by
  induction accesses using List.reverseRecOn generalizing a with
  | nil => rfl
  | append_singleton accesses access ih =>
    rw [guestStores, List.foldl_append, List.foldl_cons, List.foldl_nil]
    change guestStore g.mmu.root (guestStores g.mmu.root g.memory accesses) access a = _
    -- the tables are still in place
    have htables : ∀ a ∈ bytesOf g.mmu.blocks,
        guestStores g.mmu.root g.memory accesses a = g.memory a := by
      intro a ha
      refine ih (tables_disjoint_ram hup hrun hboot ha) ?_
      obtain ⟨e, he, hin⟩ := ha
      exact not_mem_deviceBytes hup hrun hboot hapart
        (List.mem_append_right _ (List.mem_append_left _ (List.mem_append_left _ he))) hin
    cases hτ : stage2 (guestStores g.mmu.root g.memory accesses) g.mmu.root access.1 with
    | none =>
      rw [guestStore, hτ]
      exact ih hram hdevice
    | some τ =>
      simp only [guestStore, hτ]
      rw [store_of_not_mem, ih hram hdevice]
      rintro ⟨hle, hlt⟩
      obtain rfl : a = τ.pa := by
        rw [List.length_singleton] at hlt
        omega
      rcases stage2_cases hup hrun hboot hbase hend htables hτ with hin | hin
      · exact hram hin
      · exact hdevice hin

/-- **A guest is confined.**  For every memory map on which `SetMemoryMap` returns, with a pool that
begins at a multiple of 2 MiB and ends below 2^48, for every history of the allocator after that,
and for every guest that `hmain` then boots from an archive, with the pages of its devices outside
of the pool: whatever bytes the guest stores at whatever addresses, every address translates as at
the start; no byte outside of guest RAM and the device pages has changed; and the allocator is in a
state that a run from bring-up reaches, with the tables and the RAM of the guest among the live
blocks. -/
theorem guest_confined (accesses : List (ℕ × UInt8)) :
    (∀ ipa, stage2 (guestStores g.mmu.root g.memory accesses) g.mmu.root ipa =
      stage2 g.memory g.mmu.root ipa) ∧
    (∀ a, a ∉ g.loaded.out.ramBytes → a ∉ deviceBytes g.devices →
      guestStores g.mmu.root g.memory accesses a = g.memory a) ∧
    Pmm.Run ⟨s, []⟩ ⟨g.mmu.pmm.overwrite g.loaded.mem (guestStores g.mmu.root g.memory accesses),
      g.blocks ++ t.live⟩ := by
  have hframe : ∀ a, a ∉ g.loaded.out.ramBytes → a ∉ deviceBytes g.devices →
      guestStores g.mmu.root g.memory accesses a = g.memory a := fun a hram hdevice =>
    guestStores_frame hup hrun hboot hbase hend hapart accesses hram hdevice
  have htracks := tracks_booted hup hrun hboot
  have houtside {e : Extent} (he : e ∈ (System.mk g.mmu.pmm (g.blocks ++ t.live)).blocks) {a : ℕ}
      (ha : a ∈ e.bytes) : a ∉ deviceBytes g.devices :=
    not_mem_deviceBytes hup hrun hboot hapart he ha
  refine ⟨fun ipa => stage2_congr hup hrun hboot hbase hend (fun a ha => ?_) ipa, hframe, ?_⟩
  · refine hframe a (tables_disjoint_ram hup hrun hboot ha) ?_
    obtain ⟨e, he, hin⟩ := ha
    exact houtside (List.mem_append_right _ (List.mem_append_left _ (List.mem_append_left _ he)))
      hin
  · refine (run_booted hup hrun hboot).trans (Pmm.run_overwrite fun e he a ha => ?_)
    have hfree {e' : Extent} (he' : e' ∈ g.blocks) : a ∉ e'.bytes := fun hin =>
      Set.disjoint_left.mp (htracks.disjoint_free_live he (List.mem_append_left _ he')) ha hin
    have hram : a ∉ g.loaded.out.ramBytes := hfree (List.mem_append_right _ List.mem_cons_self)
    rw [hframe a hram (houtside (List.mem_append_left _ he) ha)]
    refine g.mmu.memory_frame _ fun hin => ?_
    obtain ⟨e', he', hin⟩ := hin
    exact hfree (List.mem_append_left _ he') hin

end Booted

/-! ## A guest -/

section Guest

open BootLoader hiding bytes_extent_eq

/-- A board with its console at 144 MiB. -/
def uartBoard : Board := ⟨0x9000000, guestPaths, 0⟩

/-- The memory map of a pool that is one block of the largest order and 64 KiB behind it. -/
def uartMap : MemoryMap := { memBase := 0x10000000, memSize := 0x10010000 }

/-- The windows of the guest: only the bring-up console, since its tree has no devices. -/
def uartDevices : MmioMap := ⟨[⟨0x107D001000, 0x9000000, 0x1000, true⟩]⟩

/-- What `Load` leaves in memory: the kernel, the patched tree and the initial RAM disk. -/
def guestRam : Memory :=
  (place ((guestMemory.store 0x10200000 [1, 2, 3, 4]).store 0x1FDF0000 guestTree) 0x1FDF0000
    guestTree.length (patched guestLayout guestTree)).store 0x1FE00000 [5, 6]

/-- The guest is loaded into the block that the allocator hands out. -/
lemma load_guestRam {base n : ℕ} {P : Set ℕ} {s s' : Pmm} (h : Tracks base n P ⟨s, []⟩)
    (halloc : s.allocPages guestRamOrder = some (s', 0x10000000)) :
    load guestPaths guestArchive guestMemory s =
      .ok ⟨true, guestLayout, guestRam, s'.overwrite guestMemory guestRam⟩ := by
  obtain ⟨r, hload, hfill⟩ := load_fillRam_guest h halloc
  obtain ⟨buffer, hpatch, hok, -, hcopy⟩ := fillRam_guest hfill
  obtain ⟨-, rfl⟩ := Prod.mk.inj (Except.ok.inj ((run_patched accepts_guestTree).symm.trans hpatch))
  have hinitrd : Memory.HasBytes (place ((guestMemory.store 0x10200000 [1, 2, 3, 4]).store
      0x1FDF0000 guestTree) 0x1FDF0000 guestTree.length (patched guestLayout guestTree)) 0x1258
      [5, 6] :=
    hasBytes_cons.mpr ⟨by decide +kernel, hasBytes_cons.mpr ⟨by decide +kernel, hasBytes_nil⟩⟩
  have hmem : r.mem = guestRam :=
    memcpy_eq_store hcopy hinitrd (by decide) (by decide) (.inl (by decide))
  have hpmm : r = ⟨true, guestLayout, r.mem, s'.overwrite guestMemory r.mem⟩ := by
    obtain ⟨m₁, m₂, m₃, -, -, ⟨-, s, -, rfl⟩ | ⟨-, m₄, rfl, -⟩⟩ := fillRam_cases hfill
    · exact absurd hok (by simp)
    · rfl
  rw [hload, hpmm, hmem]

/-- The guest boots. -/
lemma bootGuest_uartBoard :
    ∃ s g, (Pmm.cleared {} fun _ => 0).setMemoryMap ⟨0x40080000, 0x40090000⟩ uartMap = some s ∧
      bootGuest uartBoard 0x1000 guestBytes.length guestMemory s = .ok g ∧
      g.devices = uartDevices := by
  have hrun : (((Pmm.cleared {} fun _ => 0).setMemoryMap ⟨0x40080000, 0x40090000⟩ uartMap).bind
      fun s => (s.allocPages guestRamOrder).bind fun r =>
        (buildGuestMmu (r.1.overwrite guestMemory guestRam) guestRam.word guestIpaBase 0x10000000
          guestRamSize uartDevices).map fun _ => r.2) = some 0x10000000 := by
    decide +kernel
  obtain ⟨s, hs, hrun⟩ := Option.bind_eq_some_iff.mp hrun
  obtain ⟨⟨s', ramHostPa⟩, halloc, hrun⟩ := Option.bind_eq_some_iff.mp hrun
  obtain ⟨mmu, hmmu, rfl⟩ := Option.map_eq_some_iff.mp hrun
  have hdevices : getGuestMmio uartBoard.bspUartBase guestRam
      (guestLayout.ipaToHostPa guestLayout.dtbIpa) = .ok uartDevices := by
    decide +kernel
  refine ⟨s, ⟨⟨true, guestLayout, guestRam, s'.overwrite guestMemory guestRam⟩, uartDevices, mmu,
    uartBoard.vm guestLayout⟩, hs, ?_, rfl⟩
  rw [bootGuest, make_guestBytes, ok_bind]
  change (load guestPaths guestArchive guestMemory s >>= _) = _
  rw [load_guestRam (Pmm.tracks_of_run hs .refl) halloc, ok_bind, if_neg (by simp)]
  dsimp only
  rw [hdevices, ok_bind]
  have hmmu' : buildGuestMmu (s'.overwrite guestMemory guestRam) guestRam.word guestIpaBase
      guestLayout.ramHostPa guestRamSize uartDevices = some mmu := hmmu
  rw [hmmu']
  rfl

/-- Whatever the guest stores, its tables translate the same, and only its RAM and the page of the
console change. -/
theorem uartBoard_guest_confined :
    ∃ s g, bootGuest uartBoard 0x1000 guestBytes.length guestMemory s = .ok g ∧
      ∀ accesses, (∀ ipa, stage2 (guestStores g.mmu.root g.memory accesses) g.mmu.root ipa =
          stage2 g.memory g.mmu.root ipa) ∧
        ∀ a, a ∉ g.loaded.out.ramBytes → a ∉ deviceBytes uartDevices →
          guestStores g.mmu.root g.memory accesses a = g.memory a := by
  obtain ⟨s, g, hs, hboot, hdevices⟩ := bootGuest_uartBoard
  refine ⟨s, g, hboot, fun accesses => ?_⟩
  have hapart : ∀ a ∈ deviceBytes g.devices,
      ¬ (uartMap.memBase.toNat ≤ a ∧ a < uartMap.memBase.toNat + uartMap.memSize.toNat) := by
    rw [hdevices]
    rintro a ⟨window, hwindow, i, hi, hpage⟩ ⟨hle, -⟩
    obtain rfl := List.mem_singleton.mp hwindow
    have hi : i < 1 := hi
    obtain rfl : i = 0 := Nat.lt_one_iff.mp hi
    have hle : 0x10000000 ≤ a := hle
    have hpage : a / pageSize = 0x9000 := hpage
    unfold pageSize at hpage
    omega
  obtain ⟨hsame, hframe, -⟩ := guest_confined (t := ⟨s, []⟩) hs .refl hboot (by decide) (by decide)
    hapart accesses
  rw [hdevices] at hframe
  exact ⟨hsame, hframe⟩

end Guest

end Main

end HyperBerry
