import HyperBerry.Mmu.MmioMap

/-!
# Stage-2 translation

A model of the mapping operations of `core/mm/mmu/guestMmu/guestMmu.cpp`, and of the walk that the
hardware makes over the tables they build: 40-bit intermediate physical addresses, 4 KiB granules,
two concatenated level 1 tables.  Output addresses have the 48 bits of a descriptor: the walk leaves
out the address size fault that the 40-bit output size in `VTCR_EL2.PS` makes of a larger one.  The
barriers, the cache maintenance and the TLB maintenance are in `Mmu.Coherence`.
-/

namespace HyperBerry

namespace GuestMmu

/-- `kStage2StartLevel`. -/
def kStage2StartLevel : ℕ := 1

/-- `kStage2RootSize`. -/
def kStage2RootSize : ℕ := pageSize * 2

/-- `kStage2RootIndexMask`. -/
def kStage2RootIndexMask : ℕ := 0x3FF

/-- `S2PTE_S2AP_RW`. -/
def s2pteS2apRw : ℕ := 0b11 <<< 6

/-- `S2PTE_MEMATTR_DEVICE_nGnRnE`. -/
def s2pteMemattrDevice : ℕ := 0x0 <<< 2

/-- `S2PTE_MEMATTR_NORMAL_WB`. -/
def s2pteMemattrNormalWb : ℕ := 0xF <<< 2

/-- `S2PTE_SH_INNER`. -/
def s2pteShInner : ℕ := 3 <<< 8

/-- `S2PTE_XN_NONE`. -/
def s2pteXnNone : ℕ := 0 <<< 53

/-- `S2PTE_XN_ALL`. -/
def s2pteXnAll : ℕ := 2 <<< 53

/-- The descriptor of a 2 MiB block. -/
def buildStage2BlockDescriptor (pa : ℕ) (isDevice : Bool) : ℕ :=
  let memAttr := if isDevice then s2pteMemattrDevice else s2pteMemattrNormalWb
  let xn := if isDevice then s2pteXnAll else s2pteXnNone
  (pa &&& pteAddrMask) ||| pteValid ||| pteBlock ||| pteAf ||| s2pteShInner ||| s2pteS2apRw |||
    memAttr ||| xn

/-- The descriptor of a 4 KiB page. -/
def buildStage2PageDescriptor (pa : ℕ) (isDevice : Bool) : ℕ :=
  buildStage2BlockDescriptor pa isDevice ||| pteTable

/-- Replace the level 2 entry at slot `l2`, which points to no table, by a new level 3 table.  A
block is split into the 512 pages it maps. -/
def splitL2 (st : Tables) (l2 : ℕ) : Option Tables := do
  let block := st.mem l2
  let r ← st.allocTable
  let st :=
    if pteIsBlock block then
      let base := block &&& pteAddrMask
      let attributes := (block &&& not64 pteAddrMask) ||| pteTable
      (r.1.fill r.2 (fun i => add64 base (i * size4KB) ||| attributes)
        (size2MB / size4KB)).store l2 0
    else r.1
  pure (st.store l2 (r.2 ||| pteValid ||| pteTable))

/-- Walk to the level 3 entry that covers an address. -/
def walkL3 (table : PageTable) (ipa : ℕ) (st : Tables) : Option (Tables × Option ℕ) := do
  let r ← table.walk ipa true st
  match r.2 with
  | none => pure (r.1, none)
  | some l2 =>
    let st ← if pteIsTable (r.1.mem l2) then pure r.1 else splitL2 r.1 l2
    if pteIsTable (st.mem l2) then
      pure (st, some (pteNextTable (st.mem l2) + 8 * l3Index ipa))
    else pure (st, none)

/-- Install one 2 MiB block descriptor. -/
def mapBlock (table : PageTable) (ipa pa : ℕ) (isDevice : Bool) (st : Tables) : Option Tables := do
  let r ← table.walk ipa true st
  match r.2 with
  | none => pure r.1
  | some pte => pure (r.1.store pte (buildStage2BlockDescriptor pa isDevice))

/-- Install one 4 KiB page descriptor. -/
def mapPage (table : PageTable) (ipa pa : ℕ) (isDevice : Bool) (st : Tables) : Option Tables := do
  let r ← walkL3 table ipa st
  match r.2 with
  | none => pure r.1
  | some pte => pure (r.1.store pte (buildStage2PageDescriptor pa isDevice))

/-- The stage-2 table of a guest. -/
def stage2Table (root : ℕ) : PageTable where
  root := root
  startLevel := kStage2StartLevel
  rootIndexMask := kStage2RootIndexMask

/-! ## Construction -/

/-- Clear the two pages of a new root; halts when the allocator had none (`root = 0`). -/
def allocStage2RootTable (root : ℕ) (st : Tables) : Option Tables :=
  if root = 0 then none else some (st.clear root kStage2RootSize)

/-- A loop over the offsets below `limit` in steps of `granule`. -/
def offsetLoop (limit granule : ℕ) (body : ℕ → Tables → Option Tables) :
    ℕ → ℕ → Tables → Option Tables
  | 0, _, _ => none
  | fuel + 1, off, st =>
    if off < limit then do
      let st ← body off st
      offsetLoop limit granule body fuel (add64 off granule) st
    else some st

/-- Map one device window. -/
def mapWindow (table : PageTable) (window : MmioWindow) (st : Tables) : Option Tables :=
  let granule := if window.byPage then size4KB else size2MB
  offsetLoop window.size granule (fun off st =>
    if window.byPage then mapPage table (add64 window.base off) (add64 window.pa off) true st
    else mapBlock table (add64 window.base off) (add64 window.pa off) true st) loopFuel 0 st

/-- The constructor of `GuestMmu`, with the pages that the allocator returned for the root. -/
def construct (root ipaBase hostPaBase sizeBytes : ℕ) (devices : MmioMap) (st : Tables) :
    Option Tables := do
  let st ← allocStage2RootTable root st
  let table := stage2Table root
  let st ← offsetLoop sizeBytes size2MB (fun off st =>
    mapBlock table (add64 ipaBase off) (add64 hostPaBase off) false st) loopFuel 0 st
  devices.windows.foldlM (fun st window => mapWindow table window st) st

/-! ## The hardware walk -/

/-- The attributes of a stage-2 mapping. -/
structure Attributes where
  /-- `MemAttr`, bits 5 to 2. -/
  memAttr : ℕ
  /-- `S2AP`, bits 7 and 6. -/
  s2ap : ℕ
  /-- `SH`, bits 9 and 8. -/
  sh : ℕ
  /-- `AF`, bit 10. -/
  af : ℕ
  /-- `XN`, bits 54 and 53. -/
  xn : ℕ
deriving DecidableEq

/-- The attribute fields of a descriptor. -/
def attributesOf (entry : ℕ) : Attributes where
  memAttr := entry / 2 ^ 2 % 2 ^ 4
  s2ap := entry / 2 ^ 6 % 2 ^ 2
  sh := entry / 2 ^ 8 % 2 ^ 2
  af := entry / 2 ^ 10 % 2
  xn := entry / 2 ^ 53 % 2 ^ 2

/-- The result of translating an address. -/
structure Translation where
  /-- The output address. -/
  pa : ℕ
  /-- The attributes of the mapping. -/
  attributes : Attributes
deriving DecidableEq

/-- The translation by a descriptor that maps `2 ^ k` bytes. -/
def translateBy (entry k ipa : ℕ) : Translation where
  pa := entry / 2 ^ k % 2 ^ (48 - k) * 2 ^ k + ipa % 2 ^ k
  attributes := attributesOf entry

/-- The address of the next table, bits 47 to 12 of a table descriptor. -/
def nextTable (entry : ℕ) : ℕ := entry / 2 ^ 12 % 2 ^ 36 * 2 ^ 12

/-- The walk at level 3: only page descriptors (`0b11`) are valid. -/
def hwLevel3 (mem : ℕ → ℕ) (table ipa : ℕ) : Option Translation :=
  let entry := mem (table + 8 * (ipa / 2 ^ 12 % 2 ^ 9))
  if entry % 4 = 3 then some (translateBy entry 12 ipa) else none

/-- The walk at level 2: a table (`0b11`), a 2 MiB block (`0b01`) or a fault. -/
def hwLevel2 (mem : ℕ → ℕ) (table ipa : ℕ) : Option Translation :=
  let entry := mem (table + 8 * (ipa / 2 ^ 21 % 2 ^ 9))
  if entry % 4 = 3 then hwLevel3 mem (nextTable entry) ipa
  else if entry % 4 = 1 then some (translateBy entry 21 ipa)
  else none

/-- The walk of a 40-bit address from the concatenated level 1 tables, indexed by bits 39 to 30: a
table (`0b11`), a 1 GiB block (`0b01`) or a fault.  The limit of `VTCR_EL2.PS` on output addresses,
40 bits, is left out. -/
def hwWalk (mem : ℕ → ℕ) (root ipa : ℕ) : Option Translation :=
  let entry := mem (root + 8 * (ipa / 2 ^ 30 % 2 ^ 10))
  if entry % 4 = 3 then hwLevel2 mem (nextTable entry) ipa
  else if entry % 4 = 1 then some (translateBy entry 30 ipa)
  else none

end GuestMmu

end HyperBerry
