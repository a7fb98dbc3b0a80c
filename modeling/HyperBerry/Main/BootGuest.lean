import HyperBerry.BootLoader.LoadEffect
import HyperBerry.Mmu.Isolation
import HyperBerry.Vmm.Model

/-!
# From the boot archive to a guest

A model of the second half of `hmain` in `core/main.cpp`, between the host MMU and the run loop: the
archive is opened, `Load` fills guest RAM, the guest tree is read back for the device windows, and
the constructor of `Vm` builds the stage-2 tables and the virtual CPU.

`AllocTable` takes its pages from the same allocator as everything else.  In between it only writes
to pages that it has been given, so the pages it gets are those that `AllocPages(0)` returns one
after the other (`drawPages`).
-/

namespace HyperBerry

open Memory DeviceTree
open Cpio (Archive)

namespace Pmm

/-- Up to `k` calls of `AllocPages(0)`, one after the other: the pages that were handed out before
the first failure. -/
def drawPages : ℕ → Pmm → Option (Pmm × List ℕ)
  | 0, s => some (s, [])
  | k + 1, s => do
    let r ← s.allocPages 0
    if r.2 = 0 then pure (r.1, [])
    else
      let q ← drawPages k r.1
      pure (q.1, r.2 :: q.2)

end Pmm

namespace Main

/-- What is fixed when the hypervisor is built, and the reset value of `SCTLR_EL1`. -/
structure Board where
  /-- `BSP_UART_BASE`. -/
  bspUartBase : ℕ
  /-- The path literals of `ReadFiles`. -/
  paths : BootLoader.PathLiterals
  /-- What `vcpu_read_sctlr` returns. -/
  sctlr : UInt64

/-- A `GuestMmu`, with the allocator behind its construction. -/
structure BuiltMmu where
  pmm : Pmm
  /-- `m_rootTable`. -/
  root : ℕ
  /-- The pages that `AllocTable` could get, the first ones first. -/
  supply : List ℕ
  /-- The tables, and the pages that are left. -/
  tables : Tables

/-- The pages of the tables: the two of the root, and those that `AllocTable` has handed out. -/
def BuiltMmu.pages (b : BuiltMmu) : List ℕ :=
  b.root :: (b.root + pageSize) :: b.supply.take (b.supply.length - b.tables.supply.length)

/-- Memory with the tables in it: their pages hold the entries, least significant byte first, and
everything else is as it was before. -/
def BuiltMmu.memory (b : BuiltMmu) (m : Memory) : Memory := fun a =>
  if b.pages.any fun p => p ≤ a && a < p + pageSize then
    some (.ofNat (b.tables.mem (a - a % 8) >>> (8 * (a % 8))))
  else m a

/-- The constructor of `GuestMmu`, with its pages from the allocator: two for the root and one for
each table.  `words` is what memory holds before. -/
def buildGuestMmu (pmm : Pmm) (words : ℕ → ℕ) (ipaBase hostPaBase sizeBytes : ℕ)
    (devices : MmioMap) :
    Option BuiltMmu := do
  let r ← pmm.allocPages 1
  let q ← r.1.drawPages (r.1.size / pageSize)
  let tables ← GuestMmu.construct r.2 ipaBase hostPaBase sizeBytes devices ⟨words, q.2⟩
  let used ← r.1.drawPages (q.2.length - tables.supply.length)
  pure ⟨used.1, r.2, q.2, tables⟩

/-- A guest that is ready to run. -/
structure Booted where
  /-- What `Load` has left behind. -/
  loaded : BootLoader.Loaded
  /-- The device windows of the guest tree. -/
  devices : MmioMap
  mmu : BuiltMmu
  /-- The virtual machine. -/
  world : Vmm.World

/-- The virtual machine that `hmain` constructs. -/
def Board.vm (board : Board) (layout : BootLoader.GuestLayout) : Vmm.World :=
  .make board.sctlr (.ofNat layout.kernelIpa) (.ofNat layout.dtbIpa) 1

/-- `hmain`, from the archive up to the first call of `Vmm::Run`. -/
def bootGuest (board : Board) (archiveBase archiveSize : ℕ) (m : Memory) (pmm : Pmm) :
    Except Halt Booted := do
  let archive ← Archive.make m archiveBase archiveSize
  let loaded ← BootLoader.load board.paths archive m pmm
  if !loaded.ok then .error (.panic "[ERROR][VM] Failed to spin up Linux VM")
  else
    let layout := loaded.out
    let devices ← getGuestMmio board.bspUartBase loaded.mem (layout.ipaToHostPa layout.dtbIpa)
    match buildGuestMmu loaded.pmm loaded.mem.word BootLoader.guestIpaBase layout.ramHostPa
        BootLoader.guestRamSize devices with
    | none => .error .hang
    | some mmu => pure ⟨loaded, devices, mmu, board.vm layout⟩

/-- The memory that the guest starts in. -/
def Booted.memory (g : Booted) : Memory := g.mmu.memory g.loaded.mem

/-! ## The guest in memory -/

/-- Stage 2 as the hardware performs it, with its tables in memory: an address of more than 40 bits
faults. -/
def stage2 (m : Memory) (root ipa : ℕ) : Option GuestMmu.Translation :=
  if ipa < 2 ^ 40 then GuestMmu.hwWalk m.word root ipa else none

/-- Memory as the guest finds it, at guest addresses. -/
def guestView (m : Memory) (root : ℕ) : Memory :=
  fun ipa => (stage2 m root ipa).bind fun τ => m τ.pa

end Main

end HyperBerry
