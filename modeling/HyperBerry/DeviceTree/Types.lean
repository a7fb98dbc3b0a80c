import Mathlib

/-!
# What the device tree parser hands to the rest of the hypervisor

The result types of `core/deviceTree/deviceTree.h`: the boot memory map, and a device with the
`reg` regions decoded for it.
-/

namespace HyperBerry

/-- Boot-time physical memory layout parsed from the device tree. -/
structure MemoryMap where
  /-- Base physical address of the main RAM region. -/
  memBase : UInt64 := 0
  /-- Size in bytes of the main RAM region. -/
  memSize : UInt64 := 0
  /-- Base physical address of the TF-A reserved region. -/
  atfBase : UInt64 := 0
  /-- Size in bytes of the TF-A reserved region. -/
  atfSize : UInt64 := 0
  /-- Base physical address of the device tree blob. -/
  dtbBase : UInt64 := 0
  /-- Total size in bytes of the device tree blob. -/
  dtbSize : UInt64 := 0
  /-- Base physical address of the guest archive; zero if absent. -/
  cpioArchiveBase : UInt64 := 0
  /-- Size of the guest archive; zero if absent. -/
  cpioArchiveSize : UInt64 := 0
deriving DecidableEq

/-- `DT_MAX_REGIONS`. -/
def dtMaxRegions : ℕ := 8

/-- One `reg` entry, translated to a CPU-physical address. -/
structure DeviceRegion where
  /-- CPU-physical base address. -/
  base : UInt64
  /-- Region size in bytes. -/
  size : UInt64
deriving DecidableEq

/-- A device located in the device tree by compatible string. -/
structure DeviceNode where
  /-- The decoded regions; their number is `regionCount`. -/
  regions : List DeviceRegion
  /-- A node matched one of the compatible strings. -/
  isFound : Bool
  /-- At most `DT_MAX_REGIONS` regions are recorded. -/
  regionCount_le : regions.length ≤ dtMaxRegions

end HyperBerry
