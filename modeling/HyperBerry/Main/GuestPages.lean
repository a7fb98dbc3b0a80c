import HyperBerry.Mmu.Footprint
import HyperBerry.Main.BootGuest

/-!
# The memory of a guest

Guest RAM, the root and the tables of a guest are live blocks of one allocator, so they are disjoint
from each other, from all other live blocks and from the free ones.  This file follows the allocator
through `Load` and the constructor of `GuestMmu` (`run_of_load`, `BuiltMmu.run`) and reads off what
the tables of the guest translate (`BuiltMmu.hwWalk_eq`), also when they are read back from memory.
-/

namespace HyperBerry

open Memory DeviceTree

namespace Pmm

variable {base n : ℕ} {P : Set ℕ} {s s' : Pmm} {live : List Extent} {t : System}

/-- The block of a successful allocation is live. -/
lemma run_alloc {order addr : ℕ} (halloc : s.allocPages order = some (s', addr)) (hne : addr ≠ 0)
    (live : List Extent) : Run ⟨s, live⟩ ⟨s', ⟨addr, order⟩ :: live⟩ := by
  refine .single (.call (.alloc order) ?_)
  rw [System.call, halloc, Option.map_some, if_neg hne]

/-- The pages that were drawn are live. -/
lemma run_drawPages {k : ℕ} {pages : List ℕ} (hdraw : s.drawPages k = some (s', pages))
    (live : List Extent) : Run ⟨s, live⟩ ⟨s', (pages.map fun p => ⟨p, 0⟩).reverse ++ live⟩ := by
  induction k generalizing s live pages with
  | zero =>
    obtain ⟨rfl, rfl⟩ := Prod.mk.inj (Option.some.inj hdraw)
    exact .refl
  | succ k ih =>
    rw [Pmm.drawPages] at hdraw
    obtain ⟨⟨s₁, p⟩, halloc, hrest⟩ := Option.bind_eq_some_iff.mp hdraw
    dsimp only at hrest
    split_ifs at hrest with hzero
    · -- a failed allocation is a call that hands out nothing
      obtain ⟨rfl, rfl⟩ := Prod.mk.inj (Option.some.inj hrest)
      refine .single (.call (.alloc 0) ?_)
      rw [System.call, halloc, Option.map_some, if_pos hzero]
      rfl
    · obtain ⟨⟨s₂, rest⟩, hdrawn, hlast⟩ := Option.bind_eq_some_iff.mp hrest
      obtain ⟨rfl, rfl⟩ := Prod.mk.inj (Option.some.inj hlast)
      rw [List.map_cons, List.reverse_cons, List.append_assoc]
      exact (run_alloc halloc hzero live).trans (ih hdrawn _)

/-- Drawing fewer pages gives the first ones. -/
lemma drawPages_take {k : ℕ} {pages : List ℕ} (hdraw : s.drawPages k = some (s', pages)) {j : ℕ}
    (hj : j ≤ pages.length) {s'' : Pmm} {pages' : List ℕ}
    (hdraw' : s.drawPages j = some (s'', pages')) : pages' = pages.take j := by
  induction k generalizing s pages j pages' with
  | zero =>
    obtain ⟨rfl, rfl⟩ := Prod.mk.inj (Option.some.inj hdraw)
    obtain rfl : j = 0 := Nat.le_zero.mp hj
    obtain ⟨rfl, rfl⟩ := Prod.mk.inj (Option.some.inj hdraw')
    rfl
  | succ k ih =>
    cases j with
    | zero =>
      obtain ⟨rfl, rfl⟩ := Prod.mk.inj (Option.some.inj hdraw')
      rfl
    | succ j =>
      rw [Pmm.drawPages] at hdraw hdraw'
      obtain ⟨⟨s₁, p⟩, halloc, hrest⟩ := Option.bind_eq_some_iff.mp hdraw
      obtain ⟨⟨s₁', p'⟩, halloc', hrest'⟩ := Option.bind_eq_some_iff.mp hdraw'
      obtain ⟨rfl, rfl⟩ := Prod.mk.inj (Option.some.inj (halloc.symm.trans halloc'))
      dsimp only at hrest hrest'
      split_ifs at hrest hrest' with hzero
      · obtain ⟨rfl, rfl⟩ := Prod.mk.inj (Option.some.inj hrest)
        exact absurd hj (by simp)
      · obtain ⟨⟨s₂, rest⟩, hdrawn, hlast⟩ := Option.bind_eq_some_iff.mp hrest
        obtain ⟨rfl, rfl⟩ := Prod.mk.inj (Option.some.inj hlast)
        obtain ⟨⟨s₂', rest'⟩, hdrawn', hlast'⟩ := Option.bind_eq_some_iff.mp hrest'
        obtain ⟨rfl, rfl⟩ := Prod.mk.inj (Option.some.inj hlast')
        rw [List.take_succ_cons, ih hdrawn (Nat.le_of_succ_le_succ hj) hdrawn']

/-- Free and live blocks are pairwise disjoint. -/
lemma Tracks.pairwise_disjoint (h : Tracks base n P t) :
    t.blocks.Pairwise fun e e' => Disjoint e.bytes e'.bytes := by
  obtain ⟨l, hl, htiling, -⟩ := h.exists_blocks_eq
  rw [hl]
  exact List.pairwise_map.mpr (htiling.disjoint.imp disjoint_bytes)

/-- Where a live block is. -/
lemma Tracks.live_cases (h : Tracks base n P t) {e : Extent} (he : e ∈ t.live) :
    pageSize <<< e.order ∣ e.addr - base ∧ base ≤ e.addr ∧
      e.addr + pageSize <<< e.order ≤ base + pageSize * n := by
  obtain ⟨l, hl, htiling, -⟩ := h.exists_blocks_eq
  have hmem : e ∈ t.blocks := List.mem_append_right _ he
  rw [hl] at hmem
  obtain ⟨b, hb, rfl⟩ := List.mem_map.mp hmem
  have hend : pageSize * (b.page + 2 ^ b.order) ≤ pageSize * n :=
    Nat.mul_le_mul_left _ (htiling.bound b hb)
  refine ⟨?_, Nat.le_add_right _ _, ?_⟩
  · rw [extent, pageAddr, Nat.add_sub_cancel_left, pageSize_shiftLeft]
    exact Nat.mul_dvd_mul_left _ (htiling.aligned b hb)
  · change pageAddr base b.page + pageSize <<< b.order ≤ _
    rw [pageAddr_add_blockSize, pageAddr]
    exact Nat.add_le_add_left hend base

/-- Writing outside the free blocks is a step. -/
lemma run_overwrite {m m' : Memory}
    (hm : ∀ e ∈ (System.mk s live).freeBlocks, ∀ a ∈ e.bytes, m' a = m a) :
    Run ⟨s, live⟩ ⟨s.overwrite m m', live⟩ := by
  refine .single (.write fun e he => overwrite_next fun i hi => hm e he _ ?_)
  have hone : pageSize ≤ pageSize * 2 ^ e.order := Nat.le_mul_of_pos_right _ (by positivity)
  refine ⟨Nat.le_add_right _ _, Nat.add_lt_add_left ?_ _⟩
  rw [pageSize_shiftLeft]
  exact hi.trans_le (le_trans (by decide) hone)

/-- Free blocks are disjoint from live ones. -/
lemma Tracks.disjoint_free_live (h : Tracks base n P t) {e e' : Extent} (he : e ∈ t.freeBlocks)
    (he' : e' ∈ t.live) : Disjoint e.bytes e'.bytes :=
  (List.pairwise_append.mp h.pairwise_disjoint).2.2 e he e' he'

end Pmm

/-! ## Words in memory -/

namespace Memory

variable {m m' : Memory}

/-- Memory that agrees on eight bytes holds the same word. -/
lemma word_congr {a : ℕ} (h : ∀ i < 8, m' (a + i) = m (a + i)) : m'.word a = m.word a :=
  List.foldr_ext _ _ _ fun i hi v => by rw [h i (List.mem_range.mp hi)]

/-- Digits in base 256, least significant one first. -/
lemma foldr_bytes_lt (f : ℕ → UInt8) (l : List ℕ) :
    l.foldr (fun i v => (f i).toNat + 256 * v) 0 < 256 ^ l.length := by
  induction l with
  | nil => exact Nat.one_pos
  | cons i l ih =>
    have hbyte := (f i).toNat_lt
    rw [List.foldr_cons, List.length_cons, pow_succ]
    omega

/-- A word has 64 bits. -/
lemma word_lt (m : Memory) (a : ℕ) : m.word a < 2 ^ 64 :=
  foldr_bytes_lt (fun i => (m (a + i)).getD 0) (List.range 8)

end Memory

namespace Main

open BootLoader (Loaded PathLiterals GuestLayout load guestRamSize guestIpaBase)
open Cpio (Archive)
open GuestMmu (construct hwWalk runCalls tablePages)
open Pmm (Extent Tracks System Inv extent pageAddr bytesOf)

variable {base n : ℕ} {P : Set ℕ} {t : System}

/-! ## Guest RAM -/

/-- When `Load` returns true, guest RAM is one more live block, and nothing outside of it has
changed. -/
lemma run_of_load {paths : PathLiterals} {archive : Archive} {m : Memory} {r : Loaded}
    (h : Tracks base n P t) (hload : load paths archive m t.pmm = .ok r) (hok : r.ok = true) :
    Pmm.Run t ⟨r.pmm, ⟨r.out.ramHostPa, maxOrder⟩ :: t.live⟩ ∧
      r.out.ramHostPa + guestRamSize ≤ 2 ^ 64 ∧ ∀ a ∉ r.out.ramBytes, r.mem a = m a := by
  obtain ⟨free, held, hinv, hlive⟩ := h
  rcases BootLoader.load_cases hload with rfl | ⟨s, -, rfl⟩ |
    ⟨files, layout, s, ramHostPa, hread, hlayout, halloc, hne, hfill⟩
  · exact absurd hok (by simp)
  · exact absurd hok (by simp)
  obtain ⟨p, ps, rfl, -, -, hinv', hram⟩ := BootLoader.alloc_ram hinv halloc hne
  have hfits := BootLoader.fits_of_calculateLayout hread hlayout hram
  have hframe : ∀ a ∉ ({ layout with ramHostPa := pageAddr base p } : GuestLayout).ramBytes,
      r.mem a = m a := fun a ha => BootLoader.fillRam_frame hfits hfill ha
  have hfirst : Pmm.Run t ⟨s, ⟨pageAddr base p, maxOrder⟩ :: t.live⟩ := by
    rw [BootLoader.guestRamOrder_eq] at halloc
    exact Pmm.run_alloc halloc hne t.live
  have htracks : Tracks base n P ⟨s, ⟨pageAddr base p, maxOrder⟩ :: t.live⟩ :=
    Tracks.run ⟨free, held, hinv, hlive⟩ hfirst
  obtain ⟨m₁, m₂, m₃, -, -, ⟨-, s, -, rfl⟩ | ⟨-, m₄, rfl, -⟩⟩ := BootLoader.fillRam_cases hfill
  · exact absurd hok (by simp)
  refine ⟨hfirst.trans (Pmm.run_overwrite fun e he a ha => hframe a fun hin => ?_), hram, hframe⟩
  rw [← BootLoader.bytes_extent_eq rfl] at hin
  exact Set.disjoint_left.mp (htracks.disjoint_free_live he List.mem_cons_self) ha hin

/-! ## The tables -/

/-- The blocks that a `GuestMmu` has taken, the last one first. -/
def BuiltMmu.blocks (b : BuiltMmu) : List Extent :=
  ((b.supply.take (b.supply.length - b.tables.supply.length)).map fun p => ⟨p, 0⟩).reverse ++
    [⟨b.root, 1⟩]

/-- The memory behind the device windows. -/
def deviceBytes (devices : MmioMap) : Set ℕ :=
  {a | ∃ window ∈ devices.windows, ∃ i < window.size / size4KB,
    a / pageSize = add64 window.pa (i * size4KB) / pageSize % 2 ^ 36}

/-- The device windows are inside the 40-bit space, and outside the addresses from `lo` to `hi`. -/
def WindowsClear (devices : MmioMap) (lo hi : ℕ) : Prop :=
  ∀ window ∈ devices.windows, window.base + window.size ≤ lo ∨
    hi ≤ window.base ∧ window.base + window.size ≤ 2 ^ 40

section Built

variable {s : Pmm} {live : List Extent} {words : ℕ → ℕ} {ipaBase hostPaBase sizeBytes : ℕ}
  {devices : MmioMap} {b : BuiltMmu}

/-- What the constructor of `GuestMmu` has done when it returns. -/
lemma buildGuestMmu_cases
    (hbuild : buildGuestMmu s words ipaBase hostPaBase sizeBytes devices = some b) :
    ∃ s₁ s₂, s.allocPages 1 = some (s₁, b.root) ∧
      s₁.drawPages (s₁.size / pageSize) = some (s₂, b.supply) ∧
      construct b.root ipaBase hostPaBase sizeBytes devices ⟨words, b.supply⟩ = some b.tables ∧
      ∃ pages, s₁.drawPages (b.supply.length - b.tables.supply.length) = some (b.pmm, pages) := by
  obtain ⟨⟨s₁, root⟩, halloc, hbuild⟩ := Option.bind_eq_some_iff.mp hbuild
  obtain ⟨⟨s₂, supply⟩, hdraw, hbuild⟩ := Option.bind_eq_some_iff.mp hbuild
  obtain ⟨tables, hconstruct, hbuild⟩ := Option.bind_eq_some_iff.mp hbuild
  obtain ⟨⟨s₃, pages⟩, hused, hbuild⟩ := Option.bind_eq_some_iff.mp hbuild
  obtain rfl := Option.some.inj hbuild
  exact ⟨s₁, s₂, halloc, hdraw, hconstruct, pages, hused⟩

/-- The pages in supply are those that are taken and those that are left. -/
lemma BuiltMmu.supply_eq
    (hbuild : buildGuestMmu s words ipaBase hostPaBase sizeBytes devices = some b) :
    b.supply.take (b.supply.length - b.tables.supply.length) ++ b.tables.supply = b.supply := by
  obtain ⟨s₁, s₂, -, -, hconstruct, -⟩ := buildGuestMmu_cases hbuild
  have hnil : runCalls b.root [] b.tables = some b.tables := rfl
  obtain ⟨taken, htaken⟩ := (GuestMmu.supply_of_construct hconstruct hnil).1
  dsimp only at htaken
  rw [← htaken, List.length_append, Nat.add_sub_cancel, List.take_left']
  rfl

/-- The blocks of a `GuestMmu` are live. -/
lemma BuiltMmu.run (hbuild : buildGuestMmu s words ipaBase hostPaBase sizeBytes devices = some b)
    (live : List Extent) : Pmm.Run ⟨s, live⟩ ⟨b.pmm, b.blocks ++ live⟩ := by
  obtain ⟨s₁, s₂, halloc, hdraw, hconstruct, pages, hused⟩ := buildGuestMmu_cases hbuild
  have hroot := Pmm.run_alloc halloc (GuestMmu.root_ne_zero_of_construct hconstruct) live
  have htaken := Pmm.run_drawPages hused (⟨b.root, 1⟩ :: live)
  rw [Pmm.drawPages_take hdraw (Nat.sub_le _ _) hused] at htaken
  rw [BuiltMmu.blocks, List.append_assoc]
  exact hroot.trans htaken

/-- All pages that a `GuestMmu` could get could be live at once. -/
lemma BuiltMmu.run_supply (hbuild : buildGuestMmu s words ipaBase hostPaBase sizeBytes devices =
    some b) (live : List Extent) : ∃ s', Pmm.Run ⟨s, live⟩
      ⟨s', (b.supply.map fun p => ⟨p, 0⟩).reverse ++ ⟨b.root, 1⟩ :: live⟩ := by
  obtain ⟨s₁, s₂, halloc, hdraw, hconstruct, -⟩ := buildGuestMmu_cases hbuild
  exact ⟨s₂, (Pmm.run_alloc halloc (GuestMmu.root_ne_zero_of_construct hconstruct) live).trans
    (Pmm.run_drawPages hdraw _)⟩

/-- The pages that a `GuestMmu` gets are pages of their own. -/
lemma BuiltMmu.rootPages (h : Tracks base n P ⟨s, live⟩)
    (hbuild : buildGuestMmu s words ipaBase hostPaBase sizeBytes devices = some b)
    (hbase : pageSize ∣ base) (hend : base + pageSize * n ≤ 2 ^ 48) :
    RootPages b.root ⟨words, b.supply⟩ := by
  obtain ⟨s', hrun⟩ := BuiltMmu.run_supply hbuild live
  have hall := h.run hrun
  have hpairwise := (List.pairwise_append.mp hall.pairwise_disjoint).2.1
  obtain ⟨hpages, -, hcross⟩ := List.pairwise_append.mp hpairwise
  have hdvd : ∀ e ∈ (b.supply.map fun p => (⟨p, 0⟩ : Extent)).reverse ++ ⟨b.root, 1⟩ :: live,
      pageSize ∣ e.addr ∧ e.addr + pageSize ≤ 2 ^ 48 := by
    intro e he
    obtain ⟨halign, hge, hle⟩ := hall.live_cases he
    rw [Pmm.pageSize_shiftLeft] at halign hle
    have hone : pageSize ≤ pageSize * 2 ^ e.order := Nat.le_mul_of_pos_right _ (by positivity)
    refine ⟨?_, by omega⟩
    rw [← Nat.sub_add_cancel hge]
    exact dvd_add ((dvd_mul_right _ _).trans halign) hbase
  have hmem : ∀ p ∈ b.supply,
      (⟨p, 0⟩ : Extent) ∈ (b.supply.map fun p => (⟨p, 0⟩ : Extent)).reverse :=
    fun p hp => List.mem_reverse.mpr (List.mem_map_of_mem hp)
  have hfirst : ∀ p : ℕ, p ∈ (⟨p, 0⟩ : Extent).bytes := fun p => ⟨le_rfl, by simp [pageSize]⟩
  refine ⟨(hdvd ⟨b.root, 1⟩ (List.mem_append_right _ List.mem_cons_self)).1, fun p hp => ?_, ?_⟩
  · obtain ⟨hdvd, hlt⟩ := hdvd _ (List.mem_append_left _ (hmem p hp))
    have hdisjoint := Set.disjoint_left.mp (hcross _ (hmem p hp) _ List.mem_cons_self) (hfirst p)
    refine ⟨⟨hdvd, by unfold pageSize at hlt; dsimp only at hlt; omega⟩, ?_, ?_⟩
    · rintro rfl
      exact hdisjoint ⟨le_rfl, by simp [pageSize]⟩
    · rintro rfl
      exact hdisjoint ⟨Nat.le_add_right _ _, by simp [pageSize]⟩
  · refine List.Nodup.of_map (fun p => (⟨p, 0⟩ : Extent)) (List.nodup_reverse.mp ?_)
    refine hpages.imp fun {e e'} hdisjoint heq => ?_
    subst heq
    have hne : e.addr ∈ e.bytes := ⟨le_rfl, by
      rw [Pmm.pageSize_shiftLeft]
      have : 0 < pageSize * 2 ^ e.order := by unfold pageSize; positivity
      omega⟩
    exact Set.disjoint_left.mp hdisjoint hne hne

/-- The tables of a `GuestMmu` are in its pages. -/
lemma BuiltMmu.mem_pages_iff (hbuild : buildGuestMmu s words ipaBase hostPaBase sizeBytes devices =
    some b) (hnodup : b.supply.Nodup) (p : ℕ) :
    p ∈ b.pages ↔ p ∈ tablePages b.root ⟨words, b.supply⟩ b.tables := by
  have hsupply := BuiltMmu.supply_eq hbuild
  have htaken : p ∈ b.supply.take (b.supply.length - b.tables.supply.length) ↔
      p ∈ b.supply ∧ p ∉ b.tables.supply := by
    have hall := hnodup
    rw [← hsupply] at hall
    obtain ⟨-, -, hdisjoint⟩ := List.nodup_append'.mp hall
    constructor
    · exact fun hp => ⟨List.mem_of_mem_take hp, fun hleft => hdisjoint hp hleft⟩
    · rintro ⟨hp, hnot⟩
      rw [← hsupply] at hp
      exact (List.mem_append.mp hp).resolve_right hnot
  rw [BuiltMmu.pages, List.mem_cons, List.mem_cons, htaken]
  rfl

/-- The bytes of the tables are bytes of blocks that the `GuestMmu` has taken. -/
lemma BuiltMmu.pageBytes_subset (b : BuiltMmu) {p a : ℕ} (hp : p ∈ b.pages)
    (ha : p ≤ a ∧ a < p + pageSize) : a ∈ bytesOf b.blocks := by
  have hroot : (⟨b.root, 1⟩ : Extent) ∈ b.blocks := List.mem_append_right _ List.mem_cons_self
  have hsize : pageSize <<< 1 = 2 * pageSize := rfl
  rcases List.mem_cons.mp hp with rfl | hp
  · exact ⟨_, hroot, ha.1, by dsimp only; omega⟩
  · rcases List.mem_cons.mp hp with rfl | hp
    · exact ⟨_, hroot, by dsimp only; omega, by dsimp only; omega⟩
    · refine ⟨⟨p, 0⟩, List.mem_append_left _ (List.mem_reverse.mpr (List.mem_map_of_mem hp)),
        ha.1, ?_⟩
      exact ha.2

/-- Outside the blocks that the `GuestMmu` has taken, memory is as before. -/
lemma BuiltMmu.memory_frame (b : BuiltMmu) (m : Memory) {a : ℕ} (ha : a ∉ bytesOf b.blocks) :
    b.memory m a = m a := by
  refine if_neg fun hany => ha ?_
  obtain ⟨p, hp, hin⟩ := List.any_eq_true.mp hany
  rw [Bool.and_eq_true, decide_eq_true_eq, decide_eq_true_eq] at hin
  exact b.pageBytes_subset hp hin

/-- A word is the sum of its bytes. -/
lemma word_bytes {w : ℕ} (hw : w < 2 ^ 64) :
    (List.range 8).foldr (fun i v => (UInt8.ofNat (w >>> (8 * i))).toNat + 256 * v) 0 = w := by
  simp only [List.range_succ, List.range_zero, List.nil_append, List.cons_append, List.foldr_cons,
    List.foldr_nil, UInt8.toNat_ofNat', Nat.shiftRight_eq_div_pow]
  norm_num
  omega

/-- The entries of the tables can be read back from memory. -/
lemma BuiltMmu.word_memory (b : BuiltMmu) (m : Memory) {p k : ℕ} (hp : p ∈ b.pages)
    (hdvd : pageSize ∣ p) (hk : k < 512) (hw : b.tables.mem (p + 8 * k) < 2 ^ 64) :
    (b.memory m).word (p + 8 * k) = b.tables.mem (p + 8 * k) := by
  have hbyte : ∀ i < 8, b.memory m (p + 8 * k + i) =
      some (.ofNat (b.tables.mem (p + 8 * k) >>> (8 * i))) := by
    intro i hi
    have hmod : (p + 8 * k + i) % 8 = i := by
      obtain ⟨x, rfl⟩ := hdvd
      unfold pageSize
      omega
    rw [BuiltMmu.memory, if_pos, hmod, Nat.add_sub_cancel]
    refine List.any_eq_true.mpr ⟨p, hp, ?_⟩
    rw [Bool.and_eq_true, decide_eq_true_eq, decide_eq_true_eq]
    unfold pageSize
    omega
  rw [Memory.word]
  refine (List.foldr_ext _ _ _ fun i hi v => ?_).trans (word_bytes hw)
  rw [hbyte i (List.mem_range.mp hi), Option.getD_some]

section Walk

variable (h : Tracks base n P ⟨s, live⟩) (hbase : pageSize ∣ base)
  (hend : base + pageSize * n ≤ 2 ^ 48) (hram : RamRange ipaBase hostPaBase sizeBytes)
  (hwindows : ∀ window ∈ devices.windows, GuestMmu.PageWindow window)
  (hbuild : buildGuestMmu s words ipaBase hostPaBase sizeBytes devices = some b)

include h hbase hend hram hwindows hbuild

/-- Memory that holds the tables translates as they do. -/
lemma BuiltMmu.hwWalk_eq {m : Memory}
    (hm : ∀ p ∈ b.pages, ∀ k < 512, m.word (p + 8 * k) = b.tables.mem (p + 8 * k)) {ipa : ℕ}
    (hipa : ipa < 2 ^ 40) :
    hwWalk m.word b.root ipa =
      ((GuestMmu.ramCalls ipaBase hostPaBase sizeBytes ++
          devices.windows.flatMap GuestMmu.windowCalls).reverse.findSome? fun c =>
        c.target (ipa / pageSize)).map fun τ =>
          ⟨τ.page * pageSize + ipa % pageSize, GuestMmu.stage2Attributes τ.device⟩ := by
  obtain ⟨s₁, s₂, -, -, hconstruct, -⟩ := buildGuestMmu_cases hbuild
  have hroot := BuiltMmu.rootPages h hbuild hbase hend
  have hal := GuestMmu.aligned_construct_calls hram devices
  have hnil : runCalls b.root [] b.tables = some b.tables := rfl
  have hrun := GuestMmu.construct_runCalls hram hwindows hconstruct hnil
  rw [List.append_nil] at hrun
  rw [hroot.freshRoot.hwWalk_congr hrun, hroot.freshRoot.hwWalk_eq hal hrun hipa]
  intro p hp k hk
  exact hm p ((BuiltMmu.mem_pages_iff hbuild hroot.nodup p).mpr hp) k hk

/-- The tables are in the memory that the guest starts in. -/
lemma BuiltMmu.word_memory_eq (hwords : ∀ a, words a < 2 ^ 64) (m : Memory) :
    ∀ p ∈ b.pages, ∀ k < 512, (b.memory m).word (p + 8 * k) = b.tables.mem (p + 8 * k) := by
  intro p hp k hk
  obtain ⟨s₁, s₂, -, -, hconstruct, -⟩ := buildGuestMmu_cases hbuild
  have hroot := BuiltMmu.rootPages h hbuild hbase hend
  have hnil : runCalls b.root [] b.tables = some b.tables := rfl
  have hrun := GuestMmu.construct_runCalls hram hwindows hconstruct hnil
  have hstart : GuestMmu.Words64 ⟨words, b.supply⟩ :=
    ⟨hwords, fun p hp => lt_trans (hroot.page p hp).1.lt (by norm_num)⟩
  refine b.word_memory m hp ?_ hk (((hstart.clear _ _).runCalls hrun).mem _)
  rcases (BuiltMmu.mem_pages_iff hbuild hroot.nodup p).mp hp with rfl | rfl | ⟨hmem, -⟩
  · exact hroot.root_dvd
  · exact dvd_add hroot.root_dvd dvd_rfl
  · exact (hroot.page p hmem).1.dvd

/-- An address translates to guest RAM, or to a page of a device window. -/
lemma BuiltMmu.pa_cases {m : Memory}
    (hm : ∀ p ∈ b.pages, ∀ k < 512, m.word (p + 8 * k) = b.tables.mem (p + 8 * k)) {ipa : ℕ}
    (hipa : ipa < 2 ^ 40) {τ : GuestMmu.Translation} (hτ : hwWalk m.word b.root ipa = some τ) :
    (hostPaBase ≤ τ.pa ∧ τ.pa < hostPaBase + sizeBytes) ∨ τ.pa ∈ deviceBytes devices := by
  rw [BuiltMmu.hwWalk_eq h hbase hend hram hwindows hbuild hm hipa] at hτ
  obtain ⟨⟨page, device⟩, htarget, rfl⟩ := Option.map_eq_some_iff.mp hτ
  rw [List.reverse_append, List.findSome?_append] at htarget
  rcases Option.or_eq_some_iff.mp htarget with hdevice | ⟨-, hramTarget⟩
  · right
    obtain ⟨c, hc, hct⟩ := List.exists_of_findSome?_eq_some hdevice
    obtain ⟨window, hwindow, hc⟩ := List.mem_flatMap.mp (List.mem_reverse.mp hc)
    obtain ⟨i, hi, rfl⟩ := List.mem_map.mp hc
    refine ⟨window, hwindow, i, List.mem_range.mp hi, ?_⟩
    rw [GuestMmu.MapCall.target] at hct
    split_ifs at hct
    obtain ⟨rfl, -⟩ := GuestMmu.Target.mk.inj (Option.some.inj hct)
    unfold pageSize
    dsimp only
    omega
  · left
    rw [findSome?_ramCalls hram.ipa_dvd hram.host_dvd hram.size_dvd hram.ipa_le hram.host_le,
      ramTarget] at hramTarget
    split_ifs at hramTarget with hin
    obtain ⟨rfl, -⟩ := GuestMmu.Target.mk.inj (Option.some.inj hramTarget)
    obtain ⟨⟨x, rfl⟩, ⟨y, rfl⟩, ⟨z, rfl⟩, -, -⟩ := hram
    unfold size2MB size4KB pageSize at *
    dsimp only
    omega

/-- Where no device window is, guest RAM translates to its block. -/
lemma BuiltMmu.hwWalk_ram {m : Memory}
    (hm : ∀ p ∈ b.pages, ∀ k < 512, m.word (p + 8 * k) = b.tables.mem (p + 8 * k))
    (hclear : WindowsClear devices ipaBase (ipaBase + sizeBytes)) {ipa : ℕ}
    (hipa : ipaBase ≤ ipa ∧ ipa < ipaBase + sizeBytes) :
    hwWalk m.word b.root ipa =
      some ⟨hostPaBase + (ipa - ipaBase), GuestMmu.stage2Attributes false⟩ := by
  have hle := hram.ipa_le
  rw [BuiltMmu.hwWalk_eq h hbase hend hram hwindows hbuild hm (by omega), List.reverse_append,
    List.findSome?_append, findSome?_ramCalls hram.ipa_dvd hram.host_dvd hram.size_dvd hram.ipa_le
      hram.host_le]
  have hnone : ((devices.windows.flatMap GuestMmu.windowCalls).reverse.findSome? fun c =>
      c.target (ipa / pageSize)) = none := by
    rw [List.findSome?_eq_none_iff]
    intro c hc
    obtain ⟨window, hwindow, hc⟩ := List.mem_flatMap.mp (List.mem_reverse.mp hc)
    obtain ⟨i, hi, rfl⟩ := List.mem_map.mp hc
    have hi := List.mem_range.mp hi
    have hbound := hclear window hwindow
    refine if_neg fun hpage => ?_
    obtain ⟨⟨x, rfl⟩, -, ⟨z, rfl⟩, -, -⟩ := hram
    unfold GuestMmu.pageOf add64 size4KB size2MB pageSize at *
    omega
  rw [hnone, Option.none_or, ramTarget]
  obtain ⟨⟨x, rfl⟩, ⟨y, rfl⟩, ⟨z, rfl⟩, -, -⟩ := hram
  unfold size2MB size4KB pageSize at *
  rw [if_pos (by omega), Option.map_some]
  congr 2
  dsimp only
  omega

end Walk

end Built

end Main

end HyperBerry
