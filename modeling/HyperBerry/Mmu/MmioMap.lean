import HyperBerry.Mmu.PageTable

/-!
# Device windows

A model of `core/mm/mmu/mmioMap.h`, of `TreeParser::GetGuestMmio`, which fills a map with the
windows a guest may reach, and of `TreeParser::GetHostMmio`, which fills one with the devices of the
hypervisor. `HvPanic` is an error that carries its message.
-/

namespace HyperBerry

/-- `MMIO_MAX_WINDOWS`. -/
def mmioMaxWindows : ℕ := 8

/-- One device window to map. -/
structure MmioWindow where
  /-- Address in the space being mapped. -/
  base : ℕ
  /-- Backing physical address. -/
  pa : ℕ
  /-- Size in bytes. -/
  size : ℕ
  /-- Map in 4 KiB pages rather than 2 MiB blocks. -/
  byPage : Bool
deriving DecidableEq

/-- A fixed capacity set of device windows. -/
structure MmioMap where
  /-- The windows held, in the order in which they were added. -/
  windows : List MmioWindow := []
deriving DecidableEq

namespace MmioMap

/-- Round an address down to a multiple of the granule. -/
def alignDown (addr granule : ℕ) : ℕ := addr &&& not64 (granule - 1)

/-- Round the end of a range up to a multiple of the granule. -/
def alignUp (base size granule : ℕ) : ℕ :=
  sub64 (add64 (add64 base size) granule) 1 &&& not64 (granule - 1)

/-- Rounding an address down, as arithmetic. -/
lemma alignDown_two_pow {addr k : ℕ} (haddr : addr < 2 ^ 64) (hk : k ≤ 64) :
    alignDown addr (2 ^ k) = addr / 2 ^ k * 2 ^ k :=
  and_not64_two_pow_sub_one haddr hk

/-- Rounding an end up, as arithmetic. -/
lemma alignUp_two_pow {base size k : ℕ} (hk : k ≤ 64) (hend : base + size + 2 ^ k < 2 ^ 64 + 1) :
    alignUp base size (2 ^ k) = (base + size + (2 ^ k - 1)) / 2 ^ k * 2 ^ k := by
  have hpos := Nat.two_pow_pos k
  have hsum : sub64 (add64 (add64 base size) (2 ^ k)) 1 = base + size + (2 ^ k - 1) := by
    unfold sub64 add64
    omega
  rw [alignUp, hsum, and_not64_two_pow_sub_one (by omega) hk]

/-- Add a window unless an identical one is already present.  Returns false when the map is full. -/
def add (map : MmioMap) (want : MmioWindow) : MmioMap × Bool :=
  if want ∈ map.windows then (map, true)
  else if map.windows.length = mmioMaxWindows then (map, false)
  else (⟨map.windows ++ [want]⟩, true)

/-- Add an identity window, widened to whole 2 MiB blocks. -/
def addBlocks (map : MmioMap) (base size : ℕ) : MmioMap × Bool :=
  let start := alignDown base size2MB
  let fin := alignUp base size size2MB
  map.add ⟨start, start, sub64 fin start, false⟩

/-- The window that maps `ipa` to `pa` in whole 4 KiB pages. -/
def pageWindow (ipa pa size : ℕ) : MmioWindow :=
  let start := alignDown ipa size4KB
  let fin := alignUp ipa size size4KB
  ⟨start, alignDown pa size4KB, sub64 fin start, true⟩

/-- Add a window in whole 4 KiB pages. -/
def addPages (map : MmioMap) (ipa pa size : ℕ) : MmioMap × Bool :=
  map.add (pageWindow ipa pa size)

/-- Some window already maps the address. -/
def covers (map : MmioMap) (addr : ℕ) : Bool :=
  map.windows.any fun window => addr ≥ window.base ∧ addr < add64 window.base window.size

end MmioMap

namespace DeviceTree

/-- `kBringUpUartIpa`. -/
def kBringUpUartIpa : ℕ := 0x107D001000

/-- Add a window in whole pages, or panic. -/
def addPagesOrPanic (map : MmioMap) (ipa pa size : ℕ) (message : String) : Except String MmioMap :=
  let r := map.addPages ipa pa size
  if r.2 then .ok r.1 else .error message

/-- The windows of the interrupt controller: its first two regions. -/
def addGuestGic (map : MmioMap) (gic : DeviceNode) : Except String MmioMap :=
  if gic.isFound = false ∨ gic.regions = [] then .ok map
  else (gic.regions.take 2).foldlM (fun map region =>
    addPagesOrPanic map region.base.toNat region.base.toNat region.size.toNat
      "[ERROR][DTB] guest GIC mapping failed") map

/-- The window of the console: its first region. -/
def addGuestUart (map : MmioMap) (uart : DeviceNode) : Except String MmioMap :=
  if uart.isFound = false then .ok map
  else
    match uart.regions with
    | [] => .ok map
    | region :: _ =>
      addPagesOrPanic map region.base.toNat region.base.toNat region.size.toNat
        "[ERROR][DTB] guest console mapping failed"

/-- The window of the bring-up console, unless the page is mapped already. -/
def addBringUpUart (map : MmioMap) (bspUartBase : ℕ) : Except String MmioMap :=
  if map.covers kBringUpUartIpa then .ok map
  else
    addPagesOrPanic map kBringUpUartIpa bspUartBase size4KB
      "[ERROR][DTB] bring up console mapping failed"

/-- The body of `GetGuestMmio`, given the nodes that `FindDevice` returned for the interrupt
controller and for the console, and the board constant `BSP_UART_BASE`. -/
def guestMmio (bspUartBase : ℕ) (gic uart : DeviceNode) : Except String MmioMap := do
  let map ← addGuestGic {} gic
  let map ← addGuestUart map uart
  addBringUpUart map bspUartBase

/-- The constants of the board that `GetHostMmio` compares with the device tree: `BSP_UART_BASE` and
`BSP_UART_SIZE`, and those of the four regions of the interrupt controller. -/
structure BspConstants where
  /-- `BSP_UART`. -/
  uart : DeviceRegion
  /-- `BSP_GIC_DISTRIBUTOR`. -/
  gicDistributor : DeviceRegion
  /-- `BSP_GIC_CPU`. -/
  gicCpu : DeviceRegion
  /-- `BSP_GIC_HV`. -/
  gicHv : DeviceRegion
  /-- `BSP_GIC_VCPU`. -/
  gicVcpu : DeviceRegion

/-- The regions that the board constants describe. -/
def BspConstants.expected (bsp : BspConstants) : List DeviceRegion :=
  [bsp.uart, bsp.gicDistributor, bsp.gicCpu, bsp.gicHv, bsp.gicVcpu]

/-- Add the window of a region in whole blocks, or panic. -/
def addBlocksOrPanic (map : MmioMap) (region : DeviceRegion) (message : String) :
    Except String MmioMap :=
  let r := map.addBlocks region.base.toNat region.size.toNat
  if r.2 then .ok r.1 else .error message

/-- The body of `GetHostMmio`, given the nodes that `FindDevice` returned for the console and for
the interrupt controller. -/
def hostMmio (bsp : BspConstants) (uart gic : DeviceNode) : Except String MmioMap :=
  if uart.isFound = false ∨ uart.regions = [] then .error "[ERROR][DTB] host UART is missing"
  else if gic.isFound = false ∨ gic.regions.length < 4 then
    .error "[ERROR][DTB] host GIC is missing required regions"
  else if uart.regions.take 1 ++ gic.regions.take 4 ≠ bsp.expected then
    .error "[ERROR][DTB] BSP constants do not match the firmware device tree"
  else do
    let map ← (uart.regions.take 1).foldlM (fun map region =>
      addBlocksOrPanic map region "[ERROR][DTB] host UART mapping failed") {}
    gic.regions.foldlM (fun map region =>
      addBlocksOrPanic map region "[ERROR][DTB] host GIC mapping failed") map

end DeviceTree

end HyperBerry
