import HyperBerry.BootLoader.LoadSteps
import HyperBerry.Pmm.Run

/-!
# Guest RAM

Guest RAM is a block of the largest order.  The copies of `Load` write only into it, so the links of
the free blocks stay as they are (`Inv.overwrite`), and the block can be given back.  With the
memory of the free blocks and the archive mapped, `Load` returns (`load_returns`).
-/

namespace HyperBerry

open Memory DeviceTree

/-! ## The allocator -/

namespace Pmm

variable {base n : ℕ} {P : Set ℕ} {s : Pmm} {free : ℕ → List ℕ} {held : List Block} {m m' : Memory}

/-- A link whose word has not changed. -/
lemma overwrite_next {a : ℕ} (h : ∀ i < 8, m' (a + i) = m (a + i)) :
    (s.overwrite m m').next a = s.next a := by
  refine if_pos (List.all_eq_true.mpr fun i hi => ?_)
  rw [h i (List.mem_range.mp hi)]
  exact beq_self_eq_true _

/-- Writing into a held block keeps the invariant. -/
lemma Inv.overwrite {b : Block} (h : Inv base n P s free (b :: held))
    (hm : ∀ a ∉ (extent base b).bytes, m' a = m a) :
    Inv base n P (s.overwrite m m') free (b :: held) := by
  refine h.write fun e he => overwrite_next fun i hi => hm _ fun hmem => ?_
  obtain ⟨c, hc, rfl⟩ := List.mem_map.mp he
  -- the link lies in the first page of a free block
  have hdisjoint : Disjoint (extent base b).bytes (extent base c).bytes := by
    have ht := h.tiling.perm List.perm_middle
    refine disjoint_bytes (Set.disjoint_left.mpr fun p hb hp => ?_)
    exact Set.disjoint_left.mp ht.disjoint_cover hb
      (pages_subset_cover (List.mem_append_left _ hc) hp)
  refine Set.disjoint_left.mp hdisjoint hmem ⟨Nat.le_add_right _ _, Nat.add_lt_add_left ?_ _⟩
  rw [pageSize_shiftLeft]
  exact hi.trans_le (le_trans (by decide) (Nat.le_mul_of_pos_right pageSize (by positivity)))

end Pmm

namespace BootLoader

open Cpio (Archive File Parts IsArchive IsFileOf fileAt strip)
open Pmm (Inv Tracks System extent pageAddr)

variable {m m' m₀ : Memory} {pmm : Pmm} {archive : Archive} {paths : PathLiterals}
  {files : GuestFiles} {layout : GuestLayout} {r : Loaded}

/-- Guest RAM at a block of the largest order. -/
lemma bytes_extent_eq {base p : ℕ} (h : layout.ramHostPa = pageAddr base p) :
    (extent base ⟨maxOrder, p⟩).bytes = layout.ramBytes := by
  rw [GuestLayout.ramBytes, h, ← pageSize_shiftLeft_maxOrder]
  rfl

/-! ## Files that can be read -/

/-- A path literal lies at an address. -/
structure IsLiteral (m : Memory) (addr : ℕ) (s : String) : Prop where
  string : m.CString addr (ascii s)
  pos : 0 < addr
  lt : addr + (ascii s).length < 2 ^ 64

/-- The path literals of `ReadFiles` lie in memory. -/
structure PathLiterals.InMemory (paths : PathLiterals) (m : Memory) : Prop where
  image : IsLiteral m paths.image "linux/Image"
  guestDtb : IsLiteral m paths.guestDtb "linux/guest.dtb"
  initrd : IsLiteral m paths.initrd "linux/initrd"

/-- A file whose bytes can be read. -/
structure IsReadable (m : Memory) (file : File) : Prop where
  bytes : ∀ i < file.size, (m (file.data + i)).isSome
  le : file.data + file.size ≤ 2 ^ 64

/-- Readable files stay readable. -/
lemma IsReadable.mono {file : File} (h : IsReadable m file)
    (hm : ∀ a, (m a).isSome → (m' a).isSome) : IsReadable m' file :=
  ⟨fun i hi => hm _ (h.bytes i hi), h.le⟩

section Archive

variable {data : ℕ} {bytes : List UInt8} {ps : List Parts} {t : Parts} {addr : ℕ} {s : String}
  (hb : m.HasBytes data bytes)

include hb

/-- What is found for a path literal. -/
lemma find_literal {found : Bool} {file : File} (hpos : 0 < data)
    (hend : data + bytes.length < 2 ^ 64)
    (harchive : IsArchive bytes ps t) (hlit : IsLiteral m addr s)
    (h : Archive.find m ⟨data, bytes.length, Cpio.offsetOf ps, .none⟩ addr = .ok (found, file)) :
    match fileAt (strip (ascii s)) ps with
    | none => found = false ∧ file = {}
    | some p => found = true ∧ IsFileOf m data bytes.length file p := by
  obtain ⟨found', file', h', hcase⟩ :=
    Cpio.find_cases hb hpos hend harchive hlit.string hlit.pos hlit.lt
  obtain ⟨rfl, rfl⟩ := Prod.mk.inj (Except.ok.inj (h'.symm.trans h))
  exact hcase

/-- The file that is found for a path literal can be read. -/
lemma isReadable_of_find {found : Bool} {file : File} (hpos : 0 < data)
    (hend : data + bytes.length < 2 ^ 64) (harchive : IsArchive bytes ps t)
    (hlit : IsLiteral m addr s)
    (h : Archive.find m ⟨data, bytes.length, Cpio.offsetOf ps, .none⟩ addr = .ok (found, file)) :
    IsReadable m file := by
  have hcase := find_literal hb hpos hend harchive hlit h
  cases hfile : fileAt (strip (ascii s)) ps with
  | none =>
    rw [hfile] at hcase
    rw [hcase.2]
    exact ⟨fun i hi => absurd hi (Nat.not_lt_zero i), by norm_num⟩
  | some p =>
    rw [hfile] at hcase
    obtain ⟨-, hsize, hbytes, -, hle⟩ := hcase
    refine ⟨fun i hi => ?_, by omega⟩
    rw [hbytes i (hsize ▸ hi), List.getElem?_eq_getElem (hsize ▸ hi)]
    rfl

/-- The reader of the guest files returns, and the files it returns can be read. -/
lemma readFiles_returns (hdata : data < 2 ^ 64)
    (hmake : Archive.make m data bytes.length = .ok archive) (hpaths : paths.InMemory m) :
    ∃ files isRead, readFiles paths archive m = .ok (files, isRead) ∧
      (isRead = true → IsReadable m files.kernel ∧ IsReadable m files.dtb ∧
        IsReadable m files.initrd) := by
  by_cases hnone : archive.error = .none
  swap
  · exact ⟨{}, false, if_pos hnone, fun h => absurd h (by simp)⟩
  obtain ⟨hpos, hend, ps, t, harchive, rfl⟩ := Cpio.isArchive_of_make hb hdata hmake hnone
  have hfind {addr : ℕ} {s : String} (hlit : IsLiteral m addr s) :=
    Cpio.find_cases hb hpos hend harchive hlit.string hlit.pos hlit.lt
  obtain ⟨isKernel, kernel, hkernel, -⟩ := hfind hpaths.image
  obtain ⟨isDtb, dtb, hdtb, -⟩ := hfind hpaths.guestDtb
  obtain ⟨isInitrd, initrd, hinitrd, -⟩ := hfind hpaths.initrd
  rw [readFiles, if_neg (by simp), hkernel, ok_bind]
  split
  · exact ⟨_, _, rfl, fun h => absurd h (by simp)⟩
  rw [hdtb, ok_bind]
  split
  · exact ⟨_, _, rfl, fun h => absurd h (by simp)⟩
  rw [hinitrd, ok_bind]
  exact ⟨_, _, rfl, fun _ => ⟨isReadable_of_find hb hpos hend harchive hpaths.image hkernel,
    isReadable_of_find hb hpos hend harchive hpaths.guestDtb hdtb,
    isReadable_of_find hb hpos hend harchive hpaths.initrd hinitrd⟩⟩

end Archive

/-! ## `Load` returns -/

/-- Copying a readable file into mapped guest RAM returns. -/
lemma copyToGuest_returns (ipa : ℕ) {file : File} (hfile : IsReadable m file)
    (hmapped : ∀ a ∈ layout.ramBytes, (m a).isSome)
    (hram : layout.ramHostPa + guestRamSize ≤ 2 ^ 64)
    (hge : layout.ramHostPa ≤ layout.ipaToHostPa ipa)
    (hle : layout.ipaToHostPa ipa + file.size ≤ layout.ramHostPa + guestRamSize) :
    ∃ m', copyToGuest m layout ipa file = .ok m' ∧ ∀ a, (m a).isSome → (m' a).isSome := by
  obtain ⟨m', h⟩ := memcpy_returns hfile.bytes
    (fun i hi => hmapped _ ⟨hge.trans (Nat.le_add_right _ _),
      (Nat.add_lt_add_left hi _).trans_le hle⟩) hfile.le (hle.trans hram)
  exact ⟨m', h, fun a => memcpy_isSome h⟩

/-- Patching a mapped tree returns. -/
lemma patchTree_returns (hmapped : ∀ a ∈ layout.ramBytes, (m a).isSome)
    (hge : layout.ramHostPa ≤ layout.ipaToHostPa layout.dtbIpa)
    (hle : layout.ipaToHostPa layout.dtbIpa + layout.dtbSize ≤ layout.ramHostPa + guestRamSize) :
    ∃ isPatched m', patchTree m layout = .ok (isPatched, m') ∧ ∀ a, (m a).isSome →
      (m' a).isSome := by
  have hread : ∀ i < layout.dtbSize,
      (window m (layout.ipaToHostPa layout.dtbIpa) layout.dtbSize i).isSome := by
    intro i hi
    rw [window, if_pos hi]
    exact hmapped _ ⟨hge.trans (Nat.le_add_right _ _), (Nat.add_lt_add_left hi _).trans_le hle⟩
  obtain ⟨isPatched, buffer, hrun, -, hsome, -⟩ := run_cases rfl hread
  refine ⟨isPatched, _, by rw [patchTree, hrun]; rfl, fun a ha => ?_⟩
  rw [place]
  split
  case isTrue hin => exact hsome _ (hread _ (by omega))
  case isFalse => exact ha

/-- The part of `Load` behind the allocation returns. -/
lemma fillRam_returns (hfits : layout.Fits files) (hmapped : ∀ a ∈ layout.ramBytes, (m₀ a).isSome)
    (hkernel : IsReadable m₀ files.kernel) (hdtb : IsReadable m₀ files.dtb)
    (hinitrd : IsReadable m₀ files.initrd)
    (hfree : ∀ m' : Memory, (∀ a ∉ layout.ramBytes, m' a = m₀ a) →
      ((pmm.overwrite m₀ m').freePages layout.ramHostPa guestRamOrder).isSome) :
    ∃ r, fillRam files layout m₀ pmm = .ok r := by
  have hram := hfits.ram
  obtain ⟨hge, hkle, hdle, hdi, hile⟩ := hfits.stretches
  obtain ⟨m₁, hcopy₁, hsome₁⟩ := copyToGuest_returns layout.kernelIpa hkernel hmapped hram hge
    (by rw [hfits.kernel]; omega)
  obtain ⟨m₂, hcopy₂, hsome₂⟩ := copyToGuest_returns layout.dtbIpa (hdtb.mono hsome₁)
    (fun a ha => hsome₁ a (hmapped a ha)) hram (by omega) (by rw [hfits.dtb]; exact hdle)
  have hmapped₂ : ∀ a ∈ layout.ramBytes, (m₂ a).isSome := fun a ha =>
    hsome₂ a (hsome₁ a (hmapped a ha))
  obtain ⟨isPatched, m₃, hpatch, hsome₃⟩ := patchTree_returns hmapped₂ (by omega) hdle
  rw [fillRam, hcopy₁, ok_bind, hcopy₂, ok_bind, hpatch, ok_bind]
  cases isPatched with
  | false =>
    obtain ⟨s, hs⟩ := Option.isSome_iff_exists.mp (hfree m₃ fun a ha =>
      patchTree_frame_ram hfits hcopy₁ hcopy₂ hpatch ha)
    refine ⟨⟨false, {}, m₃, s⟩, ?_⟩
    rw [if_pos (by rfl), releaseRam]
    simp only [hs]
  | true =>
    rw [if_neg (by simp), keepRam]
    split
    case isFalse => exact ⟨_, rfl⟩
    case isTrue hne =>
      have hne' : layout.initrdSize ≠ 0 := hfits.initrd ▸ hne
      have hdi := hdi hne'
      obtain ⟨m₄, hcopy₄, -⟩ := copyToGuest_returns layout.initrdIpa
        (hinitrd.mono fun a ha => hsome₃ a (hsome₂ a (hsome₁ a ha)))
        (fun a ha => hsome₃ a (hmapped₂ a ha)) hram (by omega)
        (by rw [hfits.initrd]; exact hile hne')
      rw [hcopy₄]
      exact ⟨_, rfl⟩

/-- The block of guest RAM, in a state with the invariant of the allocator. -/
lemma alloc_ram {base n : ℕ} {P : Set ℕ} {s : Pmm} {free : ℕ → List ℕ} {held : List Block}
    {ramHostPa : ℕ} (h : Inv base n P pmm free held)
    (halloc : pmm.allocPages guestRamOrder = some (s, ramHostPa)) (hne : ramHostPa ≠ 0) :
    ∃ p ps, ramHostPa = pageAddr base p ∧ free maxOrder = p :: ps ∧
      s.bitmap = (pmm.toggled (Pmm.pairBit n maxOrder p)).bitmap ∧
      Inv base n P s (Function.update free maxOrder ps) (⟨maxOrder, p⟩ :: held) ∧
      ramHostPa + guestRamSize ≤ 2 ^ 64 := by
  rw [guestRamOrder_eq] at halloc
  rcases h.allocPages_maxOrder with hfail | ⟨s', p, ps, hfree, hsome, -, hbitmap, hinv⟩
  · rw [hfail, Option.some.injEq, Prod.mk.injEq] at halloc
    exact absurd halloc.2.symm hne
  · rw [hsome, Option.some.injEq, Prod.mk.injEq] at halloc
    obtain ⟨rfl, rfl⟩ := halloc
    refine ⟨p, ps, rfl, hfree, hbitmap, hinv, ?_⟩
    have hend := hinv.block_end_lt (b := ⟨maxOrder, p⟩)
      (List.mem_append_right _ List.mem_cons_self)
    rw [← Pmm.pageAddr_add_blockSize, pageSize_shiftLeft_maxOrder] at hend
    exact hend.le

/-- With the archive and the free blocks mapped, `Load` returns. -/
lemma load_returns {base n : ℕ} {P : Set ℕ} {t : System} {data : ℕ} {bytes : List UInt8}
    (htracks : Tracks base n P t) (hb : m.HasBytes data bytes) (hdata : data < 2 ^ 64)
    (hmake : Archive.make m data bytes.length = .ok archive) (hpaths : paths.InMemory m)
    (hmapped : ∀ e ∈ t.freeBlocks, ∀ a ∈ e.bytes, (m a).isSome) :
    ∃ r, load paths archive m t.pmm = .ok r := by
  obtain ⟨free, held, hinv, -⟩ := htracks
  obtain ⟨files, isRead, hread, hreadable⟩ := readFiles_returns hb hdata hmake hpaths
  rw [load, hread, ok_bind]
  cases isRead with
  | false => exact ⟨_, rfl⟩
  | true =>
  rw [if_neg (by simp)]
  rcases hlayout : calculateLayout files.sizes with ⟨layout, isPlaced⟩
  simp only [hlayout]
  cases isPlaced with
  | false => exact ⟨_, rfl⟩
  | true =>
  rw [if_neg (by simp)]
  rcases halloc : t.pmm.allocPages guestRamOrder with _ | ⟨s, ramHostPa⟩
  · rcases hinv.allocPages guestRamOrder with ⟨hfail, -⟩ | ⟨s, free', p, hsome, -⟩
    · rw [halloc] at hfail
      cases hfail
    · rw [halloc] at hsome
      cases hsome
  simp only
  split
  case isTrue => exact ⟨_, rfl⟩
  case isFalse hne =>
  obtain ⟨p, ps, rfl, hfree, -, hinv', hram⟩ := alloc_ram hinv halloc hne
  obtain ⟨hkernel, hdtb, hinitrd⟩ := hreadable rfl
  have hbytes : (extent base ⟨maxOrder, p⟩).bytes =
      ({ layout with ramHostPa := pageAddr base p } : GuestLayout).ramBytes := bytes_extent_eq rfl
  have hlisted : extent base ⟨maxOrder, p⟩ ∈ t.freeBlocks := by
    rw [show t = ⟨t.pmm, t.live⟩ from rfl, hinv.freeBlocks_eq]
    exact List.mem_map_of_mem (mem_blocksOf.mpr ⟨le_rfl, by rw [hfree]; exact List.mem_cons_self⟩)
  refine fillRam_returns (fits_of_calculateLayout hread hlayout hram) ?_ hkernel hdtb hinitrd ?_
  · exact fun a ha => hmapped _ hlisted a (hbytes ▸ ha)
  · intro m' hm'
    have hframe : ∀ a ∉ (extent base ⟨maxOrder, p⟩).bytes, m' a = m a := hbytes ▸ hm'
    obtain ⟨s', hs', -⟩ := (hinv'.overwrite hframe).freePages_maxOrder
    rw [guestRamOrder_eq, hs']
    rfl

end BootLoader

end HyperBerry
