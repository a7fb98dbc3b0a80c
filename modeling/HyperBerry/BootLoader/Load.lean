import HyperBerry.Pmm.Model
import HyperBerry.BootLoader.DtbPatcher
import HyperBerry.Cpio.Model

/-!
# Loading the guest

A model of `BootLoader::ReadFiles` and `BootLoader::Load` in `core/bootLoader/bootLoader.cpp`.  The
state is the memory, as the archive reader and the copies see it, and the page allocator, which
keeps the links of its free lists in the free blocks.  What the copies write goes into the memory; a
link that they overwrite changes with them (`Pmm.overwrite`).  Physical and virtual addresses are
the same (`HostMmu::PaToVa`), and cleaning the data cache has no effect in the model.
-/

namespace HyperBerry

open Memory DeviceTree

/-- The word of eight bytes at an address, least significant byte first. -/
def Memory.word (m : Memory) (a : ℕ) : ℕ :=
  (List.range 8).foldr (fun i v => ((m (a + i)).getD 0).toNat + 256 * v) 0

/-- The allocator after a change of memory from `m` to `m'`: a link is what its word holds now. -/
def Pmm.overwrite (s : Pmm) (m m' : Memory) : Pmm :=
  { s with
    next := fun a =>
      if (List.range 8).all (fun i => m' (a + i) == m (a + i)) then s.next a else m'.word a }

/-- `memcpy`: copy byte by byte, first to last. -/
def memcpy (m : Memory) (dest src : ℕ) : ℕ → Except Halt Memory
  | 0 => .ok m
  | n + 1 => do
    let x ← load8 m src
    if (m dest).isNone then .error (.fault dest)
    else memcpy (m.store dest [x]) (add64 dest 1) (add64 src 1) n

namespace BootLoader

open Cpio (Archive File)

/-- The number of bits of a number, as `std::bit_width` counts them. -/
def bitWidth (x : ℕ) : ℕ := if x = 0 then 0 else Nat.log2 x + 1

/-- `GUEST_RAM_ORDER`: the smallest order that covers guest RAM. -/
def guestRamOrder : ℕ := bitWidth ((guestRamSize >>> pageShift) - 1)

/-- `GuestFiles`: views of the guest files inside the archive. -/
structure GuestFiles where
  kernel : File := {}
  dtb : File := {}
  /-- Empty when the archive has none. -/
  initrd : File := {}

/-- The sizes of the files. -/
def GuestFiles.sizes (files : GuestFiles) : GuestFileSizes where
  kernel := .ofNat files.kernel.size
  dtb := .ofNat files.dtb.size
  initrd := .ofNat files.initrd.size

/-- Where the path literals of `ReadFiles` lie. -/
structure PathLiterals where
  /-- `linux/Image`. -/
  image : ℕ
  /-- `linux/guest.dtb`. -/
  guestDtb : ℕ
  /-- `linux/initrd`. -/
  initrd : ℕ

/-- `ReadFiles`: find the kernel, the guest tree and the initial RAM disk, and say whether the first
two exist and nothing present is empty. -/
def readFiles (paths : PathLiterals) (archive : Archive) (m : Memory) :
    Except Halt (GuestFiles × Bool) :=
  if archive.error ≠ .none then .ok ({}, false)
  else do
    let kernel ← archive.find m paths.image
    if !kernel.1 || kernel.2.size == 0 then pure ({ kernel := kernel.2 }, false)
    else
      let dtb ← archive.find m paths.guestDtb
      if !dtb.1 || dtb.2.size == 0 then pure ({ kernel := kernel.2, dtb := dtb.2 }, false)
      else
        let initrd ← archive.find m paths.initrd
        pure (⟨kernel.2, dtb.2, initrd.2⟩, !(initrd.1 && initrd.2.size == 0))

/-- `IpaToHostPa`: the host address behind a guest address. -/
def GuestLayout.ipaToHostPa (layout : GuestLayout) (ipa : ℕ) : ℕ :=
  add64 layout.ramHostPa (sub64 ipa guestIpaBase)

/-- Copy a file into guest RAM. -/
def copyToGuest (m : Memory) (layout : GuestLayout) (ipa : ℕ) (file : File) : Except Halt Memory :=
  memcpy m (layout.ipaToHostPa ipa) file.data file.size

/-- A stretch of memory as a buffer. -/
def window (m : Memory) (base size : ℕ) : Memory := fun i => if i < size then m (base + i) else none

/-- Put a buffer back into its stretch of memory. -/
def place (m : Memory) (base size : ℕ) (buffer : Memory) : Memory :=
  fun a => if base ≤ a ∧ a < base + size then buffer (a - base) else m a

/-- Run the patcher on the copy of the guest tree. -/
def patchTree (m : Memory) (layout : GuestLayout) : Except Halt (Bool × Memory) := do
  let guestDtb := layout.ipaToHostPa layout.dtbIpa
  let r ← DtbPatcher.run layout (window m guestDtb layout.dtbSize)
  pure (r.1, place m guestDtb layout.dtbSize r.2)

/-- What a call of `Load` leaves behind. -/
structure Loaded where
  /-- The value that is returned. -/
  ok : Bool
  /-- The layout. -/
  out : GuestLayout
  /-- The memory. -/
  mem : Memory
  /-- The page allocator. -/
  pmm : Pmm

/-- The end of `Load`, when the tree has been patched: copy the initial RAM disk and keep the RAM.
-/
def keepRam (files : GuestFiles) (layout : GuestLayout) (m₀ m : Memory) (pmm : Pmm) :
    Except Halt Loaded :=
  if files.initrd.size ≠ 0 then do
    let m' ← copyToGuest m layout layout.initrdIpa files.initrd
    pure ⟨true, layout, m', pmm.overwrite m₀ m'⟩
  else .ok ⟨true, layout, m, pmm.overwrite m₀ m⟩

/-- `GuestRamDeleter`: the RAM goes back to the allocator when the tree cannot be patched. -/
def releaseRam (layout : GuestLayout) (m₀ m : Memory) (pmm : Pmm) : Except Halt Loaded :=
  match (pmm.overwrite m₀ m).freePages layout.ramHostPa guestRamOrder with
  | none => .error .hang
  | some pmm => .ok ⟨false, {}, m, pmm⟩

/-- The part of `Load` behind the allocation, with the memory `m₀` at that point. -/
def fillRam (files : GuestFiles) (layout : GuestLayout) (m₀ : Memory) (pmm : Pmm) :
    Except Halt Loaded := do
  let m₁ ← copyToGuest m₀ layout layout.kernelIpa files.kernel
  let m₂ ← copyToGuest m₁ layout layout.dtbIpa files.dtb
  let r ← patchTree m₂ layout
  if !r.1 then releaseRam layout m₀ r.2 pmm else keepRam files layout m₀ r.2 pmm

/-- `Load`: allocate guest RAM, copy the files in and patch the guest tree. -/
def load (paths : PathLiterals) (archive : Archive) (m : Memory) (pmm : Pmm) :
    Except Halt Loaded := do
  let r ← readFiles paths archive m
  if !r.2 then pure ⟨false, {}, m, pmm⟩
  else
    let files := r.1
    let (layout, isPlaced) := calculateLayout files.sizes
    if !isPlaced then pure ⟨false, {}, m, pmm⟩
    else
      match pmm.allocPages guestRamOrder with
      | none => .error .hang
      | some (pmm, ramHostPa) =>
        if ramHostPa = 0 then pure ⟨false, {}, m, pmm⟩
        else fillRam files { layout with ramHostPa := ramHostPa } m pmm

end BootLoader

end HyperBerry
