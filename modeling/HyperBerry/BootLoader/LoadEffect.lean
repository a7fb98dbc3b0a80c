import HyperBerry.BootLoader.LoadRam

/-!
# What `Load` leaves in guest RAM

`load_fills_ram`: when `Load` returns true, the three files of the archive are in guest RAM where
the layout says, the tree with the values of the layout in its three placeholders, and nothing
outside of guest RAM has changed.  The copies do not disturb each other because the stretches of the
layout lie one behind the other (`GuestLayout.Stretches`).
-/

namespace HyperBerry

namespace BootLoader

open Memory DeviceTree
open Cpio (Archive File Parts IsArchive IsFileOf fileAt strip)

variable {m m' m₀ : Memory} {pmm : Pmm} {archive : Archive} {paths : PathLiterals}
  {files : GuestFiles} {layout : GuestLayout} {r : Loaded}

/-- A buffer holds a tree with the values of the layout in its three placeholders, of which there is
one each, and nothing else changed. -/
def Patched (layout : GuestLayout) (tree : List UInt8) (buffer : Memory) : Prop :=
  ∃ f, PatchHeader (fun i => tree[i]?) tree.length f ∧
    (∀ slot, ∃! a, ∃ value,
      Site ((headerBlocks f).blob fun i => tree[i]?) (f .structOff) slot a value) ∧
    (∀ slot a value, Site ((headerBlocks f).blob fun i => tree[i]?) (f .structOff) slot a value →
      value.length = slot.length ∧ buffer.HasBytes (a + 12) (slot.bytes layout)) ∧
    ∀ i, (∀ slot a value,
        Site ((headerBlocks f).blob fun i => tree[i]?) (f .structOff) slot a value →
        ¬ (a + 12 ≤ i ∧ i < a + 12 + value.length)) → buffer i = tree[i]?

/-- The guest files are in guest RAM. -/
structure GuestInRam (m : Memory) (layout : GuestLayout) (kernel tree : List UInt8)
    (initrd : Option (List UInt8)) : Prop where
  kernel : m.HasBytes (layout.ipaToHostPa layout.kernelIpa) kernel
  tree : Patched layout tree (window m (layout.ipaToHostPa layout.dtbIpa) tree.length)
  initrd : ∀ xs, initrd = some xs → m.HasBytes (layout.ipaToHostPa layout.initrdIpa) xs

/-- A patcher that returns true has patched the tree, and has put nothing behind it. -/
lemma patched_of_run {tree : List UInt8} {buffer : Memory} (hsize : layout.dtbSize = tree.length)
    (h : DtbPatcher.run layout (fun i => tree[i]?) = .ok (true, buffer)) :
    Patched layout tree buffer ∧ ∀ i, tree.length ≤ i → buffer i = none := by
  have hread : ∀ i < tree.length, (tree[i]?).isSome := fun i hi => by simp [hi]
  obtain ⟨ok, buffer', hrun, hframe, -, htrue⟩ := run_cases (m := fun i => tree[i]?) hsize hread
  obtain ⟨rfl, rfl⟩ := Prod.mk.inj (Except.ok.inj (hrun.symm.trans h))
  obtain ⟨f, l, e, hf, heffect, -⟩ := htrue rfl
  refine ⟨⟨f, hf, heffect.existsUnique_site, fun _ _ _ => heffect.of_site, fun i hi => ?_⟩,
    fun i hi => ?_⟩
  · refine hframe i fun f' hf' slot a value hsite => ?_
    rw [hf'.unique hf] at hsite
    exact hi slot a value hsite
  · rw [hframe i fun f' hf' slot a value hsite => ?_, List.getElem?_eq_none hi]
    have hle : a + 12 + value.length ≤ f' .structOff + f' .sizeStructs := hsite.le
    have hend := hf'.structEnd_le
    omega

/-! ## The three files -/

/-- A file whose bytes lie outside of guest RAM. -/
structure IsSource (m : Memory) (layout : GuestLayout) (file : File) (xs : List UInt8) : Prop where
  size : file.size = xs.length
  bytes : m.HasBytes file.data xs
  le : file.data + xs.length ≤ 2 ^ 64
  outside : file.data + xs.length ≤ layout.ramHostPa ∨ layout.ramHostPa + guestRamSize ≤ file.data

/-- A file outside of guest RAM does not change with guest RAM. -/
lemma IsSource.congr {file : File} {xs : List UInt8} (h : IsSource m layout file xs)
    (hm : ∀ a ∉ layout.ramBytes, m' a = m a) : IsSource m' layout file xs where
  size := h.size
  le := h.le
  outside := h.outside
  bytes := h.bytes.congr fun a hlo hhi => hm a fun hmem => by
    obtain ⟨hge, hlt⟩ := hmem
    rcases h.outside with hout | hout
    · exact absurd hhi (not_lt.mpr (hout.trans hge))
    · exact absurd hlo (not_le.mpr (hlt.trans_le hout))

/-- Copying a file from outside of guest RAM into it. -/
lemma IsSource.copy {file : File} {xs : List UInt8} {ipa : ℕ} (h : IsSource m layout file xs)
    (hcopy : copyToGuest m layout ipa file = .ok m')
    (hram : layout.ramHostPa + guestRamSize ≤ 2 ^ 64)
    (hge : layout.ramHostPa ≤ layout.ipaToHostPa ipa)
    (hle : layout.ipaToHostPa ipa + xs.length ≤ layout.ramHostPa + guestRamSize) :
    m' = m.store (layout.ipaToHostPa ipa) xs := by
  rw [copyToGuest, h.size] at hcopy
  refine memcpy_eq_store hcopy h.bytes (hle.trans hram) h.le ?_
  rcases h.outside with hout | hout
  · exact .inl (hout.trans hge)
  · exact .inr (hle.trans hout)

/-- Writing inside guest RAM changes nothing outside of it. -/
lemma store_of_not_mem_ramBytes {base a : ℕ} {xs : List UInt8} (hge : layout.ramHostPa ≤ base)
    (hle : base + xs.length ≤ layout.ramHostPa + guestRamSize) (ha : a ∉ layout.ramBytes) :
    m.store base xs a = m a :=
  store_of_not_mem fun hin => ha ⟨hge.trans hin.1, hin.2.trans_le hle⟩

/-- The bytes of a buffer in memory that agrees on it. -/
lemma window_congr {base size : ℕ} (h : AgreeOn m m' base (base + size)) :
    window m' base size = window m base size := by
  funext i
  by_cases hi : i < size
  · rw [window, if_pos hi, window, if_pos hi,
      h _ (Nat.le_add_right base i) (Nat.add_lt_add_left hi base)]
  · rw [window, if_neg hi, window, if_neg hi]

/-- What the copies leave in memory, and the run of the patcher on the tree. -/
lemma fillRam_run {kernel tree : List UInt8} (hfits : layout.Fits files)
    (hkernel : IsSource m₀ layout files.kernel kernel) (htree : IsSource m₀ layout files.dtb tree)
    (h : fillRam files layout m₀ pmm = .ok r) :
    ∃ m₃ buffer, DtbPatcher.run layout (fun i => tree[i]?) = .ok (r.ok, buffer) ∧
      m₃ = place ((m₀.store (layout.ipaToHostPa layout.kernelIpa) kernel).store
        (layout.ipaToHostPa layout.dtbIpa) tree) (layout.ipaToHostPa layout.dtbIpa) tree.length
        buffer ∧
      (r.ok = true → r.out = layout ∧ (files.initrd.size = 0 → r.mem = m₃) ∧
        (files.initrd.size ≠ 0 →
          copyToGuest m₃ layout layout.initrdIpa files.initrd = .ok r.mem)) := by
  have hram := hfits.ram
  obtain ⟨hge, hkle, hdle, -, -⟩ := hfits.stretches
  have hsize : layout.dtbSize = tree.length := hfits.dtb.symm.trans htree.size
  rw [← hfits.kernel, hkernel.size] at hkle
  rw [hsize] at hdle
  obtain ⟨m₁, m₂, m₃, hcopy₁, hcopy₂, hrest⟩ := fillRam_cases h
  obtain rfl := hkernel.copy hcopy₁ hram hge (by omega)
  have hkernel_ram : layout.ipaToHostPa layout.kernelIpa + kernel.length ≤
      layout.ramHostPa + guestRamSize := by omega
  have htree₁ := htree.congr fun a ha => store_of_not_mem_ramBytes hge hkernel_ram ha
  obtain rfl := htree₁.copy hcopy₂ hram (by omega) hdle
  have hpatch : ∀ {isPatched},
        patchTree ((m₀.store (layout.ipaToHostPa layout.kernelIpa) kernel).store
        (layout.ipaToHostPa layout.dtbIpa) tree) layout = .ok (isPatched, m₃) →
      ∃ buffer, DtbPatcher.run layout (fun i => tree[i]?) = .ok (isPatched, buffer) ∧
        m₃ = place ((m₀.store (layout.ipaToHostPa layout.kernelIpa) kernel).store
          (layout.ipaToHostPa layout.dtbIpa) tree) (layout.ipaToHostPa layout.dtbIpa) tree.length
          buffer := by
    intro isPatched hpatch
    obtain ⟨⟨isPatched', buffer⟩, hrun, heq⟩ := bind_eq_ok.mp hpatch
    simp only [pure, Except.pure, Except.ok.injEq, Prod.mk.injEq] at heq
    obtain ⟨rfl, rfl⟩ := heq
    rw [hsize, window_eq hasBytes_store] at hrun
    rw [hsize]
    exact ⟨buffer, hrun, rfl⟩
  rcases hrest with ⟨hfalse, s, -, rfl⟩ | ⟨htrue, m₄, rfl, hzero, hcopy₄⟩
  · obtain ⟨buffer, hrun, hplace⟩ := hpatch hfalse
    exact ⟨m₃, buffer, hrun, hplace, fun hok => absurd hok (by simp)⟩
  · obtain ⟨buffer, hrun, hplace⟩ := hpatch htrue
    exact ⟨m₃, buffer, hrun, hplace, fun _ => ⟨rfl, hzero, hcopy₄⟩⟩

/-- The guest files are in guest RAM when it is kept. -/
lemma fillRam_guestInRam {kernel tree : List UInt8} {initrd : Option (List UInt8)}
    (hfits : layout.Fits files) (hkernel : IsSource m₀ layout files.kernel kernel)
    (htree : IsSource m₀ layout files.dtb tree)
    (hinitrd : ∀ xs, initrd = some xs → IsSource m₀ layout files.initrd xs ∧ files.initrd.size ≠ 0)
    (hnone : initrd = none → files.initrd.size = 0)
    (h : fillRam files layout m₀ pmm = .ok r) (hok : r.ok = true) :
    r.out = layout ∧ GuestInRam r.mem layout kernel tree initrd := by
  have hram := hfits.ram
  obtain ⟨hge, hkle, hdle, hdi, hile⟩ := hfits.stretches
  rw [← hfits.kernel, hkernel.size] at hkle
  rw [← hfits.dtb, htree.size] at hdle hdi
  obtain ⟨m₃, buffer, hrun, hm₃, htrue⟩ := fillRam_run hfits hkernel htree h
  rw [hok] at hrun
  obtain ⟨hout, hzero, hcopy⟩ := htrue hok
  obtain ⟨hpatched, hbeyond⟩ := patched_of_run (hfits.dtb.symm.trans htree.size) hrun
  have hwindow : window m₃ (layout.ipaToHostPa layout.dtbIpa) tree.length = buffer := by
    rw [hm₃]
    exact window_place hbeyond
  have hplace : ∀ a, ¬ (layout.ipaToHostPa layout.dtbIpa ≤ a ∧
      a < layout.ipaToHostPa layout.dtbIpa + tree.length) →
      m₃ a = m₀.store (layout.ipaToHostPa layout.kernelIpa) kernel a := by
    intro a ha
    rw [hm₃, place, if_neg ha, store_of_not_mem ha]
  have hkernel₃ : m₃.HasBytes (layout.ipaToHostPa layout.kernelIpa) kernel :=
    hasBytes_store.congr fun a hlo hhi => hplace a (by omega)
  refine ⟨hout, ?_⟩
  cases initrd with
  | none =>
    rw [hzero (hnone rfl)]
    exact ⟨hkernel₃, hwindow ▸ hpatched, fun xs hxs => absurd hxs (by simp)⟩
  | some xs =>
    -- the initial RAM disk lies behind the tree
    obtain ⟨hsource, hne⟩ := hinitrd xs rfl
    have hne' : layout.initrdSize ≠ 0 := hfits.initrd ▸ hne
    have hdi := hdi hne'
    have hile := hile hne'
    rw [← hfits.initrd, hsource.size] at hile
    have hout₃ : ∀ a ∉ layout.ramBytes, m₃ a = m₀ a := by
      intro a ha
      refine (hplace a fun hin => ha ?_).trans (store_of_not_mem_ramBytes hge (by omega) ha)
      exact ⟨(hge.trans (by omega)).trans hin.1, hin.2.trans_le hdle⟩
    have hbehind : layout.ipaToHostPa layout.kernelIpa + kernel.length ≤
        layout.ipaToHostPa layout.initrdIpa := hkle.trans (le_of_add_le_left hdi)
    rw [(hsource.congr hout₃).copy (hcopy hne) hram (by omega) hile]
    refine ⟨hkernel₃.congr (agreeOn_store (.inl hbehind)), ?_, ?_⟩
    · rw [window_congr (agreeOn_store (.inl hdi)), hwindow]
      exact hpatched
    · intro ys hys
      cases hys
      exact hasBytes_store

/-! ## From the archive -/

/-- A file of an archive that is disjoint from guest RAM is a source. -/
lemma isSource_of_isFileOf {data size : ℕ} {file : File} {p : Parts}
    (h : IsFileOf m data size file p) (hpos : 0 < file.size) (hend : data + size < 2 ^ 64)
    (hdisjoint : Disjoint layout.ramBytes (Set.Ico data (data + size))) :
    IsSource m layout file p.data := by
  have hge := h.ge
  have hle := h.le
  have hsize := h.size_eq
  refine ⟨hsize, h.hasBytes, by omega, ?_⟩
  by_contra hout
  rw [Set.disjoint_left] at hdisjoint
  -- the larger of the two first addresses lies in both
  have hmem : max layout.ramHostPa file.data ∈ layout.ramBytes := by
    constructor
    · exact le_max_left _ _
    · have hpos : 0 < guestRamSize := by decide
      omega
  exact hdisjoint hmem ⟨by omega, by omega⟩

/-- **Success.**  When `Load` returns true for an archive in memory, with an allocated block that is
disjoint from the archive: the block holds the kernel, the patched tree and the initial RAM disk if
there is one; no byte outside of the block has changed, in particular none of the archive; and the
layout is the one that was calculated, with the block as guest RAM. -/
theorem load_fills_ram {data : ℕ} {bytes : List UInt8} (hb : m.HasBytes data bytes)
    (hdata : data < 2 ^ 64) (hmake : Archive.make m data bytes.length = .ok archive)
    (hpaths : paths.InMemory m) (hload : load paths archive m pmm = .ok r) (hok : r.ok = true)
    (hram : r.out.ramHostPa + guestRamSize ≤ 2 ^ 64)
    (hdisjoint : Disjoint r.out.ramBytes (Set.Ico data (data + bytes.length))) :
    ∃ ps t kernel tree, IsArchive bytes ps t ∧ fileAt (ascii "linux/Image") ps = some kernel ∧
      fileAt (ascii "linux/guest.dtb") ps = some tree ∧
      GuestInRam r.mem r.out kernel.data tree.data
        ((fileAt (ascii "linux/initrd") ps).map Parts.data) ∧
      (∀ a ∉ r.out.ramBytes, r.mem a = m a) ∧ r.mem.HasBytes data bytes ∧
      ∃ layout pmm', calculateLayout ⟨.ofNat kernel.data.length, .ofNat tree.data.length,
          .ofNat ((fileAt (ascii "linux/initrd") ps).elim 0 fun p => p.data.length)⟩ =
            (layout, true) ∧
        pmm.allocPages guestRamOrder = some (pmm', r.out.ramHostPa) ∧
        r.out = { layout with ramHostPa := r.out.ramHostPa } := by
  rcases load_cases hload with rfl | ⟨s, -, rfl⟩ | ⟨files, layout, s, ramHostPa, hread, hlayout,
    halloc, hne, hfill⟩
  · exact absurd hok (by simp)
  · exact absurd hok (by simp)
  have hout : r.out = { layout with ramHostPa := ramHostPa } := by
    obtain ⟨m₁, m₂, m₃, -, -, ⟨-, s, -, rfl⟩ | ⟨-, m₄, rfl, -⟩⟩ := fillRam_cases hfill
    · exact absurd hok (by simp)
    · rfl
  rw [hout] at hram hdisjoint
  have hfits := fits_of_calculateLayout hread hlayout hram
  obtain ⟨hnone, hkernel, htree, found, hinitrd, hfound⟩ := readFiles_eq_true hread
  obtain ⟨hpos, hend, ps, t, harchive, rfl⟩ := Cpio.isArchive_of_make hb hdata hmake hnone
  have hkernel' := find_literal hb hpos hend harchive hpaths.image hkernel
  have htree' := find_literal hb hpos hend harchive hpaths.guestDtb htree
  have hinitrd' := find_literal hb hpos hend harchive hpaths.initrd hinitrd
  rw [show strip (ascii "linux/Image") = ascii "linux/Image" by decide] at hkernel'
  rw [show strip (ascii "linux/guest.dtb") = ascii "linux/guest.dtb" by decide] at htree'
  rw [show strip (ascii "linux/initrd") = ascii "linux/initrd" by decide] at hinitrd'
  cases hk : fileAt (ascii "linux/Image") ps with
  | none => rw [hk] at hkernel'; exact absurd hkernel'.1 (by simp)
  | some kernel =>
  cases ht : fileAt (ascii "linux/guest.dtb") ps with
  | none => rw [ht] at htree'; exact absurd htree'.1 (by simp)
  | some tree =>
  rw [hk] at hkernel'
  rw [ht] at htree'
  -- the initial RAM disk is empty exactly when there is none
  have hsome : ∀ p, fileAt (ascii "linux/initrd") ps = some p →
      IsFileOf m data bytes.length files.initrd p ∧ files.initrd.size ≠ 0 := by
    intro p hp
    rw [hp] at hinitrd'
    exact ⟨hinitrd'.2, hfound hinitrd'.1⟩
  have hempty : fileAt (ascii "linux/initrd") ps = none → files.initrd = {} := by
    intro hp
    rw [hp] at hinitrd'
    exact hinitrd'.2
  have hguest := (fillRam_guestInRam hfits
    (isSource_of_isFileOf hkernel'.2 (hfits.kernel ▸ hfits.ordered.kernel_pos) hend hdisjoint)
    (isSource_of_isFileOf htree'.2 (hfits.dtb ▸ hfits.ordered.dtb_pos) hend hdisjoint)
    (show ∀ xs, (fileAt (ascii "linux/initrd") ps).map Parts.data = some xs →
      _ from fun xs hxs => by
      obtain ⟨p, hp, rfl⟩ := Option.map_eq_some_iff.mp hxs
      obtain ⟨hfile, hne⟩ := hsome p hp
      exact ⟨isSource_of_isFileOf hfile (Nat.pos_of_ne_zero hne) hend hdisjoint, hne⟩)
    (fun hp => by rw [hempty (Option.map_eq_none_iff.mp hp)]) hfill hok).2
  have hframe : ∀ a ∉ r.out.ramBytes, r.mem a = m a := by
    rw [hout]
    exact fun a ha => fillRam_frame hfits hfill ha
  have hsize : ((fileAt (ascii "linux/initrd") ps).elim 0 fun p => p.data.length) =
      files.initrd.size := by
    cases hp : fileAt (ascii "linux/initrd") ps with
    | none => rw [hempty hp]; rfl
    | some p => exact (hsome p hp).1.size_eq.symm
  refine ⟨ps, t, kernel, tree, harchive, hk, ht, ?_, hframe, ?_, layout, s, ?_, ?_, ?_⟩
  · rw [hout]
    exact hguest
  · refine hb.congr fun a hlo hhi => hframe a fun hmem => ?_
    rw [hout] at hmem
    exact Set.disjoint_left.mp hdisjoint hmem ⟨hlo, hhi⟩
  · rw [hsize, ← hkernel'.2.size_eq, ← htree'.2.size_eq]
    exact hlayout
  · rw [hout]
    exact halloc
  · rw [hout]

/-! ## A guest -/

/-- A kernel, a tree and an initial RAM disk. -/
def guestSources : List Cpio.Fixture.Source :=
  [⟨ascii "linux/Image", [1, 2, 3, 4], 0o100644⟩, ⟨ascii "linux/guest.dtb", guestTree, 0o100644⟩,
    ⟨ascii "linux/initrd", [5, 6], 0o100644⟩]

/-- The archive of them. -/
def guestBytes : List UInt8 := Cpio.Fixture.encode guestSources ++ List.replicate 3 0

/-- What the archive reader makes of it. -/
def guestArchive : Archive :=
  ⟨0x1000, guestBytes.length, Cpio.offsetOf (guestSources.map Cpio.Fixture.Source.parts), .none⟩

/-- Where the path literals are. -/
def guestPaths : PathLiterals := ⟨0x100, 0x200, 0x300⟩

/-- A memory with the archive and the literals. -/
def guestMemory : Memory :=
  store (store (store (store (fun _ => some 0) 0x1000 guestBytes) 0x100 (ascii "linux/Image" ++
    [0])) 0x200 (ascii "linux/guest.dtb" ++ [0])) 0x300 (ascii "linux/initrd" ++ [0])

/-- The memory map of a pool that is one block of the largest order. -/
def guestMap : MemoryMap := { memBase := 0x10000000, memSize := 0x10000000 }

/-- The files of the guest can be encoded. -/
lemma guestSources_valid : ∀ s ∈ guestSources, s.Valid := by
  intro s hs
  simp only [guestSources, List.mem_cons, List.not_mem_nil, or_false] at hs
  obtain rfl | rfl | rfl := hs
  all_goals
    exact ⟨by decide, by decide, by decide, by decide, by decide +kernel, by decide,
      by decide +kernel, by decide⟩

/-- The archive is in memory. -/
lemma guestMemory_hasBytes : guestMemory.HasBytes 0x1000 guestBytes := by
  have hle : ∀ {a : ℕ} {xs : List UInt8} {m : Memory}, m.HasBytes 0x1000 guestBytes →
      a + xs.length ≤ 0x1000 → (m.store a xs).HasBytes 0x1000 guestBytes := fun h hlt =>
    h.congr (agreeOn_store (.inr hlt))
  exact hle (hle (hle hasBytes_store (by decide)) (by decide)) (by decide)

/-- The literals are in memory. -/
lemma guestPaths_inMemory : guestPaths.InMemory guestMemory where
  image := ⟨⟨by decide, (hasBytes_store.congr (agreeOn_store (.inl (by decide)))).congr
    (agreeOn_store (.inl (by decide)))⟩, by decide, by decide⟩
  guestDtb := ⟨⟨by decide, hasBytes_store.congr (agreeOn_store (.inl (by decide)))⟩, by decide,
    by decide⟩
  initrd := ⟨⟨by decide, hasBytes_store⟩, by decide, by decide⟩

/-- The archive ends below the RAM of the guest. -/
lemma guestBytes_le : 0x1000 + guestBytes.length ≤ 0x10000000 := by decide +kernel

/-- The archive ends in the address space. -/
lemma guestBytes_lt : 0x1000 + guestBytes.length < 2 ^ 64 := guestBytes_le.trans_lt (by norm_num)

/-- The archive is accepted. -/
lemma make_guestBytes : Archive.make guestMemory 0x1000 guestBytes.length = .ok guestArchive :=
  Cpio.make_of_isArchive guestMemory_hasBytes (by norm_num) guestBytes_lt
    (Cpio.Fixture.isArchive_encode guestSources_valid (by decide) 3)

/-- The files of the guest. -/
def guestFiles : GuestFiles :=
  ⟨⟨0x107C, 4⟩, ⟨0x1100, guestTree.length⟩, ⟨0x1258, 2⟩⟩

/-- The files of the guest are found. -/
lemma readFiles_guest : readFiles guestPaths guestArchive guestMemory = .ok (guestFiles, true) := by
  have hfind {addr : ℕ} {s : String} (hlit : IsLiteral guestMemory addr s) :=
    Cpio.find_eq guestMemory_hasBytes (by norm_num) guestBytes_lt
      (Cpio.Fixture.isArchive_encode guestSources_valid (by decide) 3) hlit.string hlit.pos hlit.lt
  have hkernel : guestArchive.find guestMemory guestPaths.image = .ok (true, guestFiles.kernel) :=
    (hfind guestPaths_inMemory.image).trans (congrArg _ (by decide +kernel))
  have hdtb : guestArchive.find guestMemory guestPaths.guestDtb = .ok (true, guestFiles.dtb) :=
    (hfind guestPaths_inMemory.guestDtb).trans (congrArg _ (by decide +kernel))
  have hinitrd : guestArchive.find guestMemory guestPaths.initrd = .ok (true, guestFiles.initrd) :=
    (hfind guestPaths_inMemory.initrd).trans (congrArg _ (by decide +kernel))
  rw [readFiles, if_neg (by decide), hkernel, ok_bind, if_neg (by decide), hdtb, ok_bind,
    if_neg (by decide +kernel), hinitrd, ok_bind]
  rfl

/-- The layout of the guest. -/
def guestLayout : GuestLayout where
  ramHostPa := 0x10000000
  kernelIpa := 0x40200000
  kernelSize := 4
  dtbIpa := 0x4FDF0000
  dtbSize := guestTree.length
  initrdIpa := 0x4FE00000
  initrdSize := 2

/-- The archive is not in the RAM of the guest. -/
lemma disjoint_guestBytes :
    Disjoint guestLayout.ramBytes (Set.Ico 0x1000 (0x1000 + guestBytes.length)) :=
  Set.disjoint_left.mpr fun _ ha hin => absurd (hin.2.trans_le guestBytes_le) (not_lt.mpr ha.1)

/-- The layout that `CalculateLayout` gives the guest, before its RAM is allocated. -/
lemma calculateLayout_guest :
    calculateLayout guestFiles.sizes = ({ guestLayout with ramHostPa := 0 }, true) := by
  decide +kernel

/-- The files of the guest are outside of its RAM. -/
lemma isSource_guest {name : String} {addr : ℕ} {file : File} {p : Parts}
    (hlit : IsLiteral guestMemory addr name)
    (hfind : guestArchive.find guestMemory addr = .ok (true, file)) (hpos : 0 < file.size)
    (hp : fileAt (strip (ascii name)) (guestSources.map Cpio.Fixture.Source.parts) = some p) :
    IsSource guestMemory guestLayout file p.data := by
  have hcase := find_literal guestMemory_hasBytes (by norm_num) guestBytes_lt
    (Cpio.Fixture.isArchive_encode guestSources_valid (by decide) 3) hlit hfind
  rw [hp] at hcase
  exact isSource_of_isFileOf hcase.2 hpos guestBytes_lt disjoint_guestBytes

/-- The patcher accepts the tree of the guest. -/
lemma accepts_guestTree :
    (DtbPatcher.run guestLayout fun i => guestTree[i]?).map Prod.fst = .ok true := by
  decide +kernel

/-- With the block at 256 MiB, the guest is loaded into it. -/
lemma load_fillRam_guest {base n : ℕ} {P : Set ℕ} {s s' : Pmm} (h : Pmm.Tracks base n P ⟨s, []⟩)
    (halloc : s.allocPages guestRamOrder = some (s', 0x10000000)) :
    ∃ r, load guestPaths guestArchive guestMemory s = .ok r ∧
      fillRam guestFiles guestLayout guestMemory s' = .ok r := by
  obtain ⟨r, hload⟩ := load_returns h guestMemory_hasBytes (by norm_num) make_guestBytes
    guestPaths_inMemory fun e _ a _ => isSome_store (isSome_store (isSome_store (isSome_store rfl)))
  refine ⟨r, hload, ?_⟩
  rw [← hload, load, readFiles_guest, ok_bind, if_neg (by simp)]
  simp only [calculateLayout_guest, halloc]
  rfl

/-- Filling the RAM of the guest: the kernel, the patched tree, and behind them the initial RAM
disk. -/
lemma fillRam_guest (hfill : fillRam guestFiles guestLayout guestMemory pmm = .ok r) :
    ∃ buffer, DtbPatcher.run guestLayout (fun i => guestTree[i]?) = .ok (true, buffer) ∧
      r.ok = true ∧ r.out = guestLayout ∧
      copyToGuest (place ((guestMemory.store 0x10200000 [1, 2, 3, 4]).store 0x1FDF0000 guestTree)
        0x1FDF0000 guestTree.length buffer) guestLayout 0x4FE00000 ⟨0x1258, 2⟩ = .ok r.mem := by
  have hfits : guestLayout.Fits guestFiles :=
    fits_of_calculateLayout readFiles_guest calculateLayout_guest (by decide)
  obtain ⟨-, hkernel, hdtb, -⟩ := readFiles_eq_true readFiles_guest
  obtain ⟨m₃, buffer, hpatch, rfl, htrue⟩ := fillRam_run hfits
    (isSource_guest guestPaths_inMemory.image hkernel (by decide) rfl)
    (isSource_guest guestPaths_inMemory.guestDtb hdtb (by decide +kernel) rfl) hfill
  have hpatch : DtbPatcher.run guestLayout (fun i => guestTree[i]?) = .ok (r.ok, buffer) := hpatch
  -- the run of the patcher on the tree decides
  have hok := accepts_guestTree
  rw [hpatch] at hok
  have hok : r.ok = true := Except.ok.inj hok
  obtain ⟨hout, -, hcopy⟩ := htrue hok
  exact ⟨buffer, hok ▸ hpatch, hok, hout, hcopy (by decide)⟩

/-- The guest is loaded from the state of the allocator behind bring-up. -/
lemma load_guest :
    ∃ s r, (Pmm.cleared {} fun _ => 0).setMemoryMap ⟨0x40080000, 0x40090000⟩ guestMap = some s ∧
      load guestPaths guestArchive guestMemory s = .ok r ∧ r.ok = true ∧ r.out = guestLayout := by
  have hrun : (((Pmm.cleared {} fun _ => 0).setMemoryMap ⟨0x40080000, 0x40090000⟩ guestMap).bind
      fun s => (s.allocPages guestRamOrder).map Prod.snd) = some 0x10000000 := by
    decide +kernel
  obtain ⟨s, hs, halloc⟩ := Option.bind_eq_some_iff.mp hrun
  obtain ⟨⟨s', ramHostPa⟩, halloc, rfl⟩ := Option.map_eq_some_iff.mp halloc
  obtain ⟨r, hload, hfill⟩ := load_fillRam_guest (Pmm.tracks_of_run hs .refl) halloc
  obtain ⟨buffer, -, hok, hout, -⟩ := fillRam_guest hfill
  exact ⟨s, r, hs, hload, hok, hout⟩

/-- The guest files are in guest RAM. -/
theorem load_fills_ram_guest :
    ∃ s r, load guestPaths guestArchive guestMemory s = .ok r ∧ r.ok = true ∧ r.out = guestLayout ∧
      r.mem.HasBytes 0x1000 guestBytes ∧ (∀ a ∉ guestLayout.ramBytes, r.mem a = guestMemory a) ∧
      ∃ kernel tree initrd, GuestInRam r.mem guestLayout kernel tree initrd := by
  obtain ⟨s, r, -, hload, hok, hout⟩ := load_guest
  obtain ⟨ps, t, kernel, tree, -, -, -, hguest, hframe, hbytes, -⟩ := load_fills_ram
    guestMemory_hasBytes (by norm_num) make_guestBytes guestPaths_inMemory hload hok
    (by rw [hout]; decide) (hout ▸ disjoint_guestBytes)
  rw [hout] at hguest hframe
  exact ⟨s, r, hload, hok, hout, hbytes, hframe, _, _, _, hguest⟩

end BootLoader

end HyperBerry
