import HyperBerry.BootLoader.LoadEffect

/-!
# `Load` and the page allocator

`load_atomic`: a call of `Load` that returns false leaves the layout empty and the allocator as it
was, wherever it fails; one that returns true has taken one block of the largest order off its list.
-/

namespace HyperBerry

namespace BootLoader

open Memory DeviceTree
open Cpio (Archive)
open Pmm (Inv Run System)

variable {m : Memory} {pmm : Pmm} {archive : Archive} {paths : PathLiterals} {files : GuestFiles}
  {layout : GuestLayout} {r : Loaded} {base n : ℕ} {P : Set ℕ} {free : ℕ → List ℕ}
    {held : List Block}

/-- Two states of the allocator have the same free lists, in order, and the same bitmap, over the
same pool. -/
structure SamePages (s s' : Pmm) : Prop where
  base : s'.base = s.base
  size : s'.size = s.size
  bitmap : s'.bitmap = s.bitmap
  freeLists : ∀ o ≤ maxOrder, s'.freeList o = s.freeList o

/-- A state is the same as itself. -/
lemma SamePages.refl (s : Pmm) : SamePages s s := ⟨rfl, rfl, rfl, fun _ _ => rfl⟩

/-- States with the same invariant have the same free lists. -/
lemma samePages_of_inv {s s' : Pmm} (h : Inv base n P s free held) (h' : Inv base n P s' free held)
    (hP : P.Nonempty) (hbitmap : s'.bitmap = s.bitmap) : SamePages s s' where
  base := h'.base_eq.trans h.base_eq.symm
  size := (h'.pool hP).size_eq.trans (h.pool hP).size_eq.symm
  bitmap := hbitmap
  freeLists _ ho := (h'.freeList_eq ho).trans (h.freeList_eq ho).symm

/-- The part of `Load` behind the allocation of the block `b`, which was the first on its list. -/
lemma fillRam_atomic {s : Pmm} {p : ℕ} {ps : List ℕ} (hinv : Inv base n P pmm free held)
    (hinv' : Inv base n P s (Function.update free maxOrder ps) (⟨maxOrder, p⟩ :: held))
    (hfree : free maxOrder = p :: ps)
    (hbitmap : s.bitmap = (pmm.toggled (Pmm.pairBit n maxOrder p)).bitmap)
    (hram : layout.ramHostPa = Pmm.pageAddr base p) (hfits : layout.Fits files)
    (h : fillRam files layout m s = .ok r) :
    (r.ok = false → r.out = {} ∧ SamePages pmm r.pmm) ∧
    (r.ok = true → pmm.freeList maxOrder = r.out.ramHostPa :: r.pmm.freeList maxOrder ∧
      ∀ o < maxOrder, r.pmm.freeList o = pmm.freeList o) := by
  have hwritten : ∀ m' : Memory, (∀ a ∉ layout.ramBytes, m' a = m a) →
      Inv base n P (s.overwrite m m') (Function.update free maxOrder ps) (⟨maxOrder, p⟩ :: held) :=
    fun m' hm' => hinv'.overwrite (by rwa [bytes_extent_eq hram])
  have hframe : ∀ a ∉ layout.ramBytes, r.mem a = m a := fun a ha => fillRam_frame hfits h ha
  obtain ⟨m₁, m₂, m₃, -, -, ⟨-, s', hrelease, rfl⟩ | ⟨-, m₄, rfl, -⟩⟩ := fillRam_cases h
  · -- the block goes back to the head of its list, and its bit is flipped back
    refine ⟨fun _ => ⟨rfl, ?_⟩, fun hok => absurd hok (by simp)⟩
    obtain ⟨s'', hrelease', hbitmap', hinv''⟩ := (hwritten m₃ hframe).freePages_maxOrder
    rw [guestRamOrder_eq, hram, hrelease', Option.some.injEq] at hrelease
    subst hrelease
    rw [Function.update_self, Function.update_idem, ← hfree, Function.update_eq_self] at hinv''
    have hmem : (⟨maxOrder, p⟩ : Block) ∈ blocksOf maxOrder free ++ held :=
      List.mem_append_left _ (mem_blocksOf.mpr ⟨le_rfl, by rw [hfree]; exact List.mem_cons_self⟩)
    refine samePages_of_inv hinv hinv'' ⟨p, hinv.pages_subset hmem (Block.page_mem_pages _)⟩ ?_
    have hwas : (s.overwrite m m₃).bitmap = (pmm.toggled (Pmm.pairBit n maxOrder p)).bitmap :=
      hbitmap
    rw [hbitmap', Pmm.toggled_bitmap_congr hwas, Pmm.toggled_toggled]
  · refine ⟨fun hok => absurd hok (by simp), fun _ => ?_⟩
    have hkept := hwritten m₄ hframe
    refine ⟨?_, fun o ho => ?_⟩
    · rw [hinv.freeList_eq le_rfl, hkept.freeList_eq le_rfl, hfree, Function.update_self, hram,
        List.map_cons]
    · rw [hinv.freeList_eq ho.le, hkept.freeList_eq ho.le, Function.update_of_ne ho.ne]

/-- **Failure.**  In every state of the allocator that is reached from bring-up, for every archive,
valid or not, and every memory: if `Load` returns false, the layout is empty and the allocator is as
it was; if it returns true, one block of the largest order has left its list, at the address of
guest RAM.  With the archive and the free blocks mapped, it returns. -/
theorem load_atomic {s₀ s : Pmm} {image : KernelImage} {map : MemoryMap} {t : System}
    (h : s₀.setMemoryMap image map = some s) (hrun : Run ⟨s, []⟩ t) (paths : PathLiterals)
    (archive : Archive) (m : Memory) :
    (∀ r, load paths archive m t.pmm = .ok r →
      (r.ok = false → r.out = {} ∧ SamePages t.pmm r.pmm) ∧
      (r.ok = true → t.pmm.freeList maxOrder = r.out.ramHostPa :: r.pmm.freeList maxOrder ∧
        ∀ o < maxOrder, r.pmm.freeList o = t.pmm.freeList o)) ∧
    ∀ data bytes, m.HasBytes data bytes → data < 2 ^ 64 →
      Archive.make m data bytes.length = .ok archive → paths.InMemory m →
      (∀ e ∈ t.freeBlocks, ∀ a ∈ e.bytes, (m a).isSome) →
      ∃ r, load paths archive m t.pmm = .ok r := by
  have htracks := Pmm.tracks_of_run h hrun
  refine ⟨fun r hload => ?_, fun data bytes hb hdata hmake hpaths hmapped =>
    load_returns htracks hb hdata hmake hpaths hmapped⟩
  obtain ⟨free, held, hinv, -⟩ := htracks
  rcases load_cases hload with rfl | ⟨s', hzero, rfl⟩ | ⟨files, layout, s', ramHostPa,
    hread, hlayout, halloc, hne, hfill⟩
  · exact ⟨fun _ => ⟨rfl, .refl _⟩, fun hok => absurd hok (by simp)⟩
  · rw [hinv.allocPages_zero hzero]
    exact ⟨fun _ => ⟨rfl, .refl _⟩, fun hok => absurd hok (by simp)⟩
  · obtain ⟨p, ps, rfl, hfree, hbitmap, hinv', hram⟩ := alloc_ram hinv halloc hne
    exact fillRam_atomic hinv hinv' hfree hbitmap rfl (fits_of_calculateLayout hread hlayout hram)
      hfill

/-- A kernel with three bytes that are no tree. -/
def brokenSources : List Cpio.Fixture.Source :=
  [⟨ascii "linux/Image", [1, 2, 3, 4], 0o100644⟩, ⟨ascii "linux/guest.dtb", [1, 2, 3], 0o100644⟩]

/-- The archive of them. -/
def brokenBytes : List UInt8 := Cpio.Fixture.encode brokenSources ++ List.replicate 3 0

/-- What the archive reader makes of it. -/
def brokenArchive : Archive :=
  ⟨0x1000, brokenBytes.length, Cpio.offsetOf (brokenSources.map Cpio.Fixture.Source.parts), .none⟩

/-- A memory with this archive and the literals. -/
def brokenMemory : Memory := guestMemory.store 0x1000 brokenBytes

/-- Loading the guest empties the list of the largest order.  Without a tree, `Load` copies the
kernel into the block and fails then, and the block is back on its list. -/
theorem load_atomic_guest :
    ∃ s r r', (Pmm.cleared {} fun _ => 0).setMemoryMap ⟨0x40080000, 0x40090000⟩ guestMap = some s ∧
      load guestPaths guestArchive guestMemory s = .ok r ∧ r.ok = true ∧
      s.freeList maxOrder = 0x10000000 :: r.pmm.freeList maxOrder ∧
      load guestPaths brokenArchive brokenMemory s = .ok r' ∧ r'.ok = false ∧
      r'.mem 0x10200000 = some 1 ∧ r'.out = {} ∧ SamePages s r'.pmm := by
  obtain ⟨s, r, hs, hload, hok, hout⟩ := load_guest
  obtain ⟨hlist, -⟩ := ((load_atomic hs .refl guestPaths guestArchive guestMemory).1 r hload).2 hok
  rw [hout] at hlist
  have hrun : (((Pmm.cleared {} fun _ => 0).setMemoryMap ⟨0x40080000, 0x40090000⟩ guestMap).map
      fun s => load guestPaths brokenArchive brokenMemory s >>= fun r =>
        pure (r.ok, r.mem 0x10200000)) = some (.ok (false, some 1)) := by
    decide +kernel
  rw [hs, Option.map_some, Option.some.injEq] at hrun
  obtain ⟨r', hload', hresult⟩ := bind_eq_ok.mp hrun
  obtain ⟨hok', hmem⟩ := Prod.mk.inj (Except.ok.inj hresult)
  obtain ⟨hout', hsame⟩ :=
    ((load_atomic hs .refl guestPaths brokenArchive brokenMemory).1 r' hload').1 hok'
  exact ⟨s, r, r', hs, hload, hok, hlist, hload', hok', hmem, hout', hsame⟩

end BootLoader

end HyperBerry
