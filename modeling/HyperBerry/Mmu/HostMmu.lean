import HyperBerry.Mmu.Descriptor

/-!
# Stage-1 translation of the hypervisor

A model of `core/mm/mmu/hostMmu/hostMmu.cpp`, and of the walk that the hardware makes over the
tables at EL2: 48-bit virtual addresses and 4 KiB granules, from one level 0 table.  Output
addresses have the 48 bits of a descriptor: the walk leaves out the address size fault that the
40-bit output size in `TCR_EL2.PS` makes of a larger one.  Of the system registers that `Enable`
programs, `mair_el2` is a constant here; barriers and TLB maintenance have no counterpart.
-/

namespace HyperBerry

namespace HostMmu

open GuestMmu (nextTable)

/-- `STAGE1_START_LEVEL`. -/
def stage1StartLevel : ℕ := 0

/-- `STAGE1_ROOT_INDEX_MASK`. -/
def stage1RootIndexMask : ℕ := 0x1FF

/-- `SIZE_16GB`. -/
def size16GB : ℕ := 0x400000000

/-! ## Descriptor flags -/

/-- `PTE_SH_INNER`. -/
def pteShInner : ℕ := 3 <<< 8

/-- `PTE_SH_NONE`. -/
def pteShNone : ℕ := 0 <<< 8

/-- `PTE_AP_RW`. -/
def pteApRw : ℕ := 0 <<< 6

/-- `PTE_XN`. -/
def pteXn : ℕ := 1 <<< 54

/-- `MAIR_IDX_NORMAL`. -/
def mairIdxNormal : ℕ := 0

/-- `MAIR_IDX_DEVICE`. -/
def mairIdxDevice : ℕ := 1

/-- `MAIR_IDX_NORMAL_NC`. -/
def mairIdxNormalNc : ℕ := 2

/-- `PTE_ATTRIDX`. -/
def pteAttridx (idx : ℕ) : ℕ := idx <<< 2

/-- `PTE_NORMAL`. -/
def pteNormal : ℕ := pteValid ||| pteAf ||| pteShInner ||| pteAttridx mairIdxNormal

/-- `PTE_DEVICE`. -/
def pteDevice : ℕ := pteValid ||| pteAf ||| pteShNone ||| pteAttridx mairIdxDevice ||| pteXn

/-- `HV_VA_BASE`. -/
def hvVaBase : ℕ := 0

/-- `HV_VA_SIZE`. -/
def hvVaSize : ℕ := size16GB

/-- The value that `Enable` writes to `mair_el2`. -/
def mairEl2 : ℕ :=
  0xFF <<< (mairIdxNormal * 8) ||| 0x00 <<< (mairIdxDevice * 8) ||| 0x44 <<< (mairIdxNormalNc * 8)

/-! ## The mapping operations -/

/-- The stage-1 table. -/
def stage1Table (root : ℕ) : PageTable where
  root := root
  startLevel := stage1StartLevel
  rootIndexMask := stage1RootIndexMask

/-- The loop of `MapRange`. -/
def mapLoop (table : PageTable) (va pa size flags : ℕ) : ℕ → ℕ → Tables → Option Tables
  | 0, _, _ => none
  | fuel + 1, off, st =>
    if off < size then do
      let r ← table.walk (add64 va off) true st
      match r.2 with
      | none => pure r.1
      | some pte =>
        mapLoop table va pa size flags fuel (add64 off size2MB)
          (r.1.store pte ((add64 pa off &&& pteAddrMask) ||| flags ||| pteBlock))
    else pure st

/-- `MapRange`. -/
def mapRange (table : PageTable) (va pa size flags : ℕ) (st : Tables) : Option Tables :=
  mapLoop table va pa size flags loopFuel 0 st

/-- The loop of `UnmapRange`. -/
def unmapLoop (table : PageTable) (va size : ℕ) : ℕ → ℕ → Tables → Option Tables
  | 0, _, _ => none
  | fuel + 1, off, st =>
    if off < size then do
      let r ← table.walk (add64 va off) false st
      match r.2 with
      | none => pure r.1
      | some pte => unmapLoop table va size fuel (add64 off size2MB) (r.1.store pte 0)
    else pure st

/-- `UnmapRange`. -/
def unmapRange (table : PageTable) (va size : ℕ) (st : Tables) : Option Tables :=
  unmapLoop table va size loopFuel 0 st

/-- `Enable`, up to the system registers. -/
def enable (table : PageTable) (devices : MmioMap) (st : Tables) : Option Tables := do
  let st ← mapRange table hvVaBase hvVaBase hvVaSize (pteNormal ||| pteApRw) st
  devices.windows.foldlM
    (fun st window => mapRange table window.base window.pa window.size pteDevice st) st

/-! ## The hardware walk -/

/-- The result of translating an address. -/
structure Translation where
  /-- The output address. -/
  pa : ℕ
  /-- The bits of the descriptor outside the output address. -/
  flags : ℕ
deriving DecidableEq

/-- The translation by a descriptor that maps `2 ^ k` bytes. -/
def translateBy (entry k va : ℕ) : Translation where
  pa := entry / 2 ^ k % 2 ^ (48 - k) * 2 ^ k + va % 2 ^ k
  flags := entry / 2 ^ 48 * 2 ^ 48 + entry % 2 ^ 12

/-- The walk at level 3: only page descriptors (`0b11`) are valid. -/
def hwLevel3 (mem : ℕ → ℕ) (table va : ℕ) : Option Translation :=
  let entry := mem (table + 8 * (va / 2 ^ 12 % 2 ^ 9))
  if entry % 4 = 3 then some (translateBy entry 12 va) else none

/-- The walk at level 2: a table (`0b11`), a 2 MiB block (`0b01`) or a fault. -/
def hwLevel2 (mem : ℕ → ℕ) (table va : ℕ) : Option Translation :=
  let entry := mem (table + 8 * (va / 2 ^ 21 % 2 ^ 9))
  if entry % 4 = 3 then hwLevel3 mem (nextTable entry) va
  else if entry % 4 = 1 then some (translateBy entry 21 va)
  else none

/-- The walk at level 1: a table (`0b11`), a 1 GiB block (`0b01`) or a fault. -/
def hwLevel1 (mem : ℕ → ℕ) (table va : ℕ) : Option Translation :=
  let entry := mem (table + 8 * (va / 2 ^ 30 % 2 ^ 9))
  if entry % 4 = 3 then hwLevel2 mem (nextTable entry) va
  else if entry % 4 = 1 then some (translateBy entry 30 va)
  else none

/-- The walk of a virtual address: those above 48 bits fault, and at level 0 only tables (`0b11`)
are valid.  The limit of `TCR_EL2.PS` on output addresses, 40 bits, is left out. -/
def hwWalk (mem : ℕ → ℕ) (root va : ℕ) : Option Translation :=
  if va < 2 ^ 48 then
    let entry := mem (root + 8 * (va / 2 ^ 39 % 2 ^ 9))
    if entry % 4 = 3 then hwLevel1 mem (nextTable entry) va else none
  else none

/-- The memory attributes of a mapping: the field of `mair_el2` that its flags select. -/
def memoryAttributes (flags : ℕ) : ℕ := mairEl2 / 2 ^ (8 * (flags / 2 ^ 2 % 2 ^ 3)) % 2 ^ 8

/-- Device-nGnRnE memory that cannot be executed. -/
def IsDevice (flags : ℕ) : Prop := memoryAttributes flags = 0x00 ∧ flags / 2 ^ 54 % 2 = 1

/-- Normal write-back memory that can be read and written. -/
def IsNormal (flags : ℕ) : Prop := memoryAttributes flags = 0xFF ∧ flags / 2 ^ 6 % 2 ^ 2 = 0

instance : DecidablePred IsDevice := fun _ => inferInstanceAs (Decidable (_ ∧ _))
instance : DecidablePred IsNormal := fun _ => inferInstanceAs (Decidable (_ ∧ _))

end HostMmu

end HyperBerry
