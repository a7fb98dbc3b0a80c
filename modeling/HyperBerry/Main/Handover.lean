import HyperBerry.Main.Confinement

/-!
# What a guest finds when it starts

`hmain` hands a guest an entry address and the address of a device tree.  Both are guest addresses:
the guest reads through the tables of its `GuestMmu`, while `Load` has written through host
addresses. `guest_handover`: the two views meet.  At the entry address the guest finds the kernel of
the archive, at the address in `x0` the guest tree with the values of the layout in its
placeholders, and the initial RAM disk where the tree says.
-/

namespace HyperBerry

open Memory DeviceTree

namespace Main

open BootLoader (guestRamSize guestIpaBase GuestInRam Patched window)
open Cpio (Archive Parts IsArchive fileAt)
open Pmm (Extent Tracks System bytesOf poolPages)

/-! ## The files of the archive -/

section Files

variable {data : ℕ} {bytes : List UInt8} {archive : Archive} {paths : BootLoader.PathLiterals}
  {m : Memory} {pmm : Pmm} {r : BootLoader.Loaded}

/-- The layout of a guest that was loaded, and its files in guest RAM. -/
lemma files_of_load (hb : m.HasBytes data bytes) (hdata : data < 2 ^ 64)
    (hmake : Archive.make m data bytes.length = .ok archive) (hpaths : paths.InMemory m)
    (hload : BootLoader.load paths archive m pmm = .ok r) (hok : r.ok = true)
    (hram : r.out.ramHostPa + guestRamSize ≤ 2 ^ 64)
    (hdisjoint : Disjoint r.out.ramBytes (Set.Ico data (data + bytes.length))) :
    ∃ ps tail kernel tree, IsArchive bytes ps tail ∧ fileAt (ascii "linux/Image") ps = some kernel ∧
      fileAt (ascii "linux/guest.dtb") ps = some tree ∧ r.out.Ordered ∧
      r.out.kernelSize = kernel.data.length ∧ r.out.dtbSize = tree.data.length ∧
      (∀ p, fileAt (ascii "linux/initrd") ps = some p → r.out.initrdSize = p.data.length ∧
        p.data ≠ []) ∧
      GuestInRam r.mem r.out kernel.data tree.data
        ((fileAt (ascii "linux/initrd") ps).map Parts.data) := by
  rcases BootLoader.load_cases hload with rfl | ⟨s, -, rfl⟩ | ⟨files, layout, s, ramHostPa, hread,
    hlayout, -, -, hfill⟩
  · exact absurd hok (by simp)
  · exact absurd hok (by simp)
  have hout : r.out = { layout with ramHostPa := ramHostPa } := by
    obtain ⟨m₁, m₂, m₃, -, -, ⟨-, s, -, rfl⟩ | ⟨-, m₄, rfl, -⟩⟩ := BootLoader.fillRam_cases hfill
    · exact absurd hok (by simp)
    · rfl
  rw [hout] at hram hdisjoint ⊢
  have hfits := BootLoader.fits_of_calculateLayout hread hlayout hram
  obtain ⟨hnone, hkernel, htree, found, hinitrd, hfound⟩ := BootLoader.readFiles_eq_true hread
  obtain ⟨hpos, hend, ps, tail, harchive, rfl⟩ := Cpio.isArchive_of_make hb hdata hmake hnone
  have hkernel := BootLoader.find_literal hb hpos hend harchive hpaths.image hkernel
  have htree := BootLoader.find_literal hb hpos hend harchive hpaths.guestDtb htree
  have hinitrd := BootLoader.find_literal hb hpos hend harchive hpaths.initrd hinitrd
  have hstrip : Cpio.strip (ascii "linux/Image") = ascii "linux/Image" ∧
      Cpio.strip (ascii "linux/guest.dtb") = ascii "linux/guest.dtb" ∧
      Cpio.strip (ascii "linux/initrd") = ascii "linux/initrd" := by decide
  rw [hstrip.1] at hkernel
  rw [hstrip.2.1] at htree
  rw [hstrip.2.2] at hinitrd
  cases hk : fileAt (ascii "linux/Image") ps with
  | none =>
    rw [hk] at hkernel
    exact absurd hkernel.1 (by simp)
  | some kernel =>
  cases ht : fileAt (ascii "linux/guest.dtb") ps with
  | none =>
    rw [ht] at htree
    exact absurd htree.1 (by simp)
  | some tree =>
  rw [hk] at hkernel
  rw [ht] at htree
  have hsource {file : Cpio.File} {p : Parts} (h : Cpio.IsFileOf m data bytes.length file p)
      (hsize : 0 < file.size) := BootLoader.isSource_of_isFileOf h hsize hend hdisjoint
  have hsome : ∀ xs, (fileAt (ascii "linux/initrd") ps).map Parts.data = some xs →
      BootLoader.IsSource m { layout with ramHostPa := ramHostPa } files.initrd xs ∧
        files.initrd.size ≠ 0 := by
    intro xs hxs
    obtain ⟨p, hp, rfl⟩ := Option.map_eq_some_iff.mp hxs
    rw [hp] at hinitrd
    have hne := hfound hinitrd.1
    exact ⟨hsource hinitrd.2 (Nat.pos_of_ne_zero hne), hne⟩
  have hnone : (fileAt (ascii "linux/initrd") ps).map Parts.data = none →
      files.initrd.size = 0 := by
    intro hp
    rw [Option.map_eq_none_iff.mp hp] at hinitrd
    rw [hinitrd.2]
  have hguest := (BootLoader.fillRam_guestInRam hfits
    (hsource hkernel.2 (hfits.kernel ▸ hfits.ordered.kernel_pos))
    (hsource htree.2 (hfits.dtb ▸ hfits.ordered.dtb_pos)) hsome hnone hfill hok).2
  refine ⟨ps, tail, kernel, tree, harchive, hk, ht, hfits.ordered, ?_, ?_, fun p hp => ?_, hguest⟩
  · rw [← hfits.kernel]
    exact hkernel.2.size_eq
  · rw [← hfits.dtb]
    exact htree.2.size_eq
  · rw [hp] at hinitrd
    have hsize := hinitrd.2.size_eq
    refine ⟨hfits.initrd.symm.trans hsize, fun hnil => hfound hinitrd.1 ?_⟩
    rw [hsize, hnil]
    rfl

end Files

/-! ## The view of the guest -/

section Booted

variable {s₀ s : Pmm} {image : KernelImage} {map : MemoryMap} {t : System} {board : Board}
  {archiveBase archiveSize : ℕ} {m : Memory} {g : Booted}
  (hup : s₀.setMemoryMap image map = some s) (hrun : Pmm.Run ⟨s, []⟩ t)
  (hboot : bootGuest board archiveBase archiveSize m t.pmm = .ok g)
  (hbase : size2MB ∣ map.memBase.toNat) (hend : map.memBase.toNat + map.memSize.toNat ≤ 2 ^ 48)
  (hclear : WindowsClear g.devices guestIpaBase (guestIpaBase + guestRamSize))

include hup hrun hboot hbase hend hclear

/-- In its RAM, the guest finds what `Load` has put there. -/
lemma guestView_ram {ipa : ℕ} (hipa : guestIpaBase ≤ ipa ∧ ipa < guestIpaBase + guestRamSize) :
    guestView g.memory g.mmu.root ipa =
      g.loaded.mem (g.loaded.out.ramHostPa + (ipa - guestIpaBase)) := by
  obtain ⟨archive, -, hload, hok, hdevices, hbuild, -⟩ := bootGuest_cases hboot
  have htracks := Pmm.tracks_of_run hup hrun
  have hram := ramRange_booted hup hrun hboot hbase hend
  have hpool : pageSize * poolPages map ≤ map.memSize.toNat := Nat.mul_div_le _ _
  have hlt := hram.ipa_le
  rw [guestView, stage2, if_pos (by omega), BuiltMmu.hwWalk_ram
    (htracks.run (run_of_load htracks hload hok).1) ((by decide : pageSize ∣ size2MB).trans hbase)
    (by omega) hram (pageWindow_of_getGuestMmio hdevices) hbuild
    (word_memory_booted hup hrun hboot hbase hend) hclear hipa, Option.bind_some]
  -- the byte is in guest RAM, so it is not one of the tables
  refine g.mmu.memory_frame _ fun hin => tables_disjoint_ram hup hrun hboot hin ?_
  refine ⟨Nat.le_add_right _ _, Nat.add_lt_add_left ?_ _⟩
  omega

/-- Bytes that `Load` has put into guest RAM, at their guest address. -/
lemma guestView_hasBytes {ipa : ℕ} {xs : List UInt8} (hlo : guestIpaBase ≤ ipa)
    (hhi : ipa + xs.length ≤ guestIpaBase + guestRamSize)
    (hbytes : g.loaded.mem.HasBytes (g.loaded.out.ramHostPa + (ipa - guestIpaBase)) xs) :
    (guestView g.memory g.mmu.root).HasBytes ipa xs := by
  intro i hi
  have hshift : g.loaded.out.ramHostPa + (ipa + i - guestIpaBase) =
      g.loaded.out.ramHostPa + (ipa - guestIpaBase) + i := by omega
  rw [guestView_ram hup hrun hboot hbase hend hclear (by omega), hshift, hbytes i hi]

/-- **Handover.**  For every memory map on which `SetMemoryMap` returns, with a pool that begins at
a multiple of 2 MiB and ends at 2^48 or below, for every history of the allocator after that, and
for every guest that `hmain` then boots from an archive that lies outside of the memory that is free
at bring-up, with the device windows of its tree inside the 40-bit space and outside of guest RAM:
through stage 2 the guest finds the kernel of the archive at the address in `pc`, the guest tree
with the values of the layout at the address in `x0`, and the initial RAM disk, if there is one, at
the address that these values give.  The other registers are zero. -/
theorem guest_handover {bytes : List UInt8} (hb : m.HasBytes archiveBase bytes)
    (hsize : archiveSize = bytes.length) (haddr : archiveBase < 2 ^ 64)
    (hpaths : board.paths.InMemory m) (hsafe : ∀ e ∈ (System.mk s []).blocks,
      Disjoint e.bytes (Set.Ico archiveBase (archiveBase + bytes.length))) :
    ∃ ps tail kernel tree, IsArchive bytes ps tail ∧ fileAt (ascii "linux/Image") ps = some kernel ∧
      fileAt (ascii "linux/guest.dtb") ps = some tree ∧
      (guestView g.memory g.mmu.root).HasBytes g.world.vm.vcpu.registers.pc.toNat kernel.data ∧
      Patched g.loaded.out tree.data (window (guestView g.memory g.mmu.root)
        (g.world.vm.vcpu.registers.x 0).toNat tree.data.length) ∧
      (∀ p, fileAt (ascii "linux/initrd") ps = some p →
        (guestView g.memory g.mmu.root).HasBytes g.loaded.out.initrdIpa p.data) ∧
      ∀ i ≠ 0, g.world.vm.vcpu.registers.x i = 0 := by
  subst hsize
  obtain ⟨archive, hmake, hload, hok, -, -, hworld⟩ := bootGuest_cases hboot
  have htracks := Pmm.tracks_of_run hup hrun
  obtain ⟨hloaded, hram, -⟩ := run_of_load htracks hload hok
  -- guest RAM was free at bring-up
  have hdisjoint : Disjoint g.loaded.out.ramBytes
      (Set.Ico archiveBase (archiveBase + bytes.length)) := by
    refine Set.disjoint_left.mpr fun a ha hin => ?_
    have hfree : a ∈ bytesOf (System.mk s []).blocks := by
      rw [(Pmm.tracks_of_run hup .refl).bytesOf_blocks, ← (htracks.run hloaded).bytesOf_blocks]
      exact ⟨_, List.mem_append_right _ List.mem_cons_self, ha⟩
    obtain ⟨e, he, hae⟩ := hfree
    exact Set.disjoint_left.mp (hsafe e he) hae hin
  obtain ⟨ps, tail, kernel, tree, harchive, hk, ht, hordered, hksize, htsize, hinitrd, hguest⟩ :=
    files_of_load hb haddr hmake hpaths hload hok hram hdisjoint
  obtain ⟨hkpos, hdpos, hkernel, hdtb, hdend, hibehind, hiend⟩ := hordered
  have hpa {ipa size : ℕ} (hlo : guestIpaBase ≤ ipa)
      (hhi : ipa + size ≤ guestIpaBase + guestRamSize) (hpos : 0 < size) :=
    BootLoader.ipaToHostPa_eq hram hlo hhi hpos
  have hlt {ipa : ℕ} (hipa : ipa ≤ guestIpaBase + guestRamSize) : ipa < 2 ^ 64 :=
    hipa.trans_lt (by decide)
  have hpc : g.world.vm.vcpu.registers.pc.toNat = g.loaded.out.kernelIpa := by
    rw [hworld]
    exact UInt64.toNat_ofNat_of_lt' (hlt (by omega))
  have hx0 : (g.world.vm.vcpu.registers.x 0).toNat = g.loaded.out.dtbIpa := by
    rw [hworld]
    exact UInt64.toNat_ofNat_of_lt' (hlt (by omega))
  refine ⟨ps, tail, kernel, tree, harchive, hk, ht, ?_, ?_, fun p hp => ?_, fun i hi => ?_⟩
  · have hbytes := hguest.kernel
    rw [hpa hkernel (by omega) hkpos] at hbytes
    rw [hpc]
    exact guestView_hasBytes hup hrun hboot hbase hend hclear hkernel (by omega) hbytes
  · have hview : window (guestView g.memory g.mmu.root) g.loaded.out.dtbIpa tree.data.length =
        window g.loaded.mem (g.loaded.out.ipaToHostPa g.loaded.out.dtbIpa) tree.data.length := by
      funext i
      rw [hpa (by omega) hdend hdpos, window, window]
      split_ifs with hi
      · have hshift : g.loaded.out.ramHostPa + (g.loaded.out.dtbIpa + i - guestIpaBase) =
            g.loaded.out.ramHostPa + (g.loaded.out.dtbIpa - guestIpaBase) + i := by omega
        rw [guestView_ram hup hrun hboot hbase hend hclear (by omega), hshift]
      · rfl
    rw [hx0, hview]
    exact hguest.tree
  · obtain ⟨hisize, hne⟩ := hinitrd p hp
    have hpos : 0 < g.loaded.out.initrdSize := by
      rw [hisize]
      exact List.length_pos_iff.mpr hne
    have hge := hibehind hpos.ne'
    have hbytes := hguest.initrd p.data (by rw [hp]; rfl)
    rw [hpa (by omega) hiend hpos] at hbytes
    exact guestView_hasBytes hup hrun hboot hbase hend hclear (by omega) (by omega) hbytes
  · rw [hworld]
    exact Function.update_of_ne hi _ _

end Booted

/-- The guest of the board with a console finds its kernel and its tree. -/
theorem uartBoard_guest_handover :
    ∃ s g, bootGuest uartBoard 0x1000 BootLoader.guestBytes.length BootLoader.guestMemory s =
      .ok g ∧ ∃ kernel tree, (guestView g.memory g.mmu.root).HasBytes
          g.world.vm.vcpu.registers.pc.toNat kernel ∧
        Patched g.loaded.out tree (window (guestView g.memory g.mmu.root)
          (g.world.vm.vcpu.registers.x 0).toNat tree.length) := by
  obtain ⟨s, g, hs, hboot, hdevices⟩ := bootGuest_uartBoard
  have hclear : WindowsClear g.devices guestIpaBase (guestIpaBase + guestRamSize) := by
    rw [hdevices]
    intro window hwindow
    obtain rfl := List.mem_singleton.mp hwindow
    exact .inr (by decide)
  have hsafe : ∀ e ∈ (System.mk s []).blocks,
      Disjoint e.bytes (Set.Ico 0x1000 (0x1000 + BootLoader.guestBytes.length)) := by
    intro e he
    refine Set.disjoint_left.mpr fun a ha hin => ?_
    have hfree : a ∈ bytesOf (System.mk s []).blocks := ⟨e, he, ha⟩
    rw [(Pmm.tracks_of_run hs .refl).bytesOf_blocks] at hfree
    have hge : 0x10000000 ≤ a := hfree.1
    exact absurd (hin.2.trans_le BootLoader.guestBytes_le) (not_lt.mpr hge)
  obtain ⟨-, -, kernel, tree, -, -, -, hkernel, htree, -⟩ := guest_handover (t := ⟨s, []⟩) hs .refl
    hboot (by decide) (by decide) hclear BootLoader.guestMemory_hasBytes rfl (by norm_num)
    BootLoader.guestPaths_inMemory hsafe
  exact ⟨s, g, hboot, kernel.data, tree.data, hkernel, htree⟩

end Main

end HyperBerry
