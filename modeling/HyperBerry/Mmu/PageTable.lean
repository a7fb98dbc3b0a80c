import Mathlib
import HyperBerry.Lib.Word
import HyperBerry.Pmm.Model

/-!
# Translation tables

A model of `core/mm/pageTable/pageTable.cpp`.  The memory of the tables is a map from byte addresses
to 64-bit entries; entry `idx` of the table at `table` is the word at `table + 8 * idx`.  The pages
that `AllocTable` will get from the page allocator are listed in `supply`, in the order in which
they are handed out; when there is none left, `AllocTable` halts and the model returns `none`. The
cache maintenance is in `Mmu.Coherence`.
-/

namespace HyperBerry

/-- `PTE_VALID`. -/
def pteValid : ℕ := 1 <<< 0

/-- `PTE_TABLE`. -/
def pteTable : ℕ := 1 <<< 1

/-- `PTE_BLOCK`. -/
def pteBlock : ℕ := 0 <<< 1

/-- `PTE_AF`. -/
def pteAf : ℕ := 1 <<< 10

/-- `PTE_ADDR_MASK`. -/
def pteAddrMask : ℕ := 0x0000FFFFFFFFF000

/-- `SIZE_4KB`. -/
def size4KB : ℕ := 0x1000

/-- `SIZE_2MB`. -/
def size2MB : ℕ := 0x200000

/-- `L2_INDEX`. -/
def l2Index (addr : ℕ) : ℕ := addr >>> 21 &&& 0x1FF

/-- `L3_INDEX`. -/
def l3Index (addr : ℕ) : ℕ := addr >>> 12 &&& 0x1FF

/-- The table an entry points to. -/
def pteNextTable (entry : ℕ) : ℕ := entry &&& pteAddrMask

/-- The entry is valid. -/
def pteIsValid (entry : ℕ) : Bool := entry &&& pteValid ≠ 0

/-- The entry points to a table. -/
def pteIsTable (entry : ℕ) : Bool := entry &&& (pteValid ||| pteTable) = pteValid ||| pteTable

/-- The entry maps a block. -/
def pteIsBlock (entry : ℕ) : Bool := entry &&& (pteValid ||| pteTable) = pteValid

/-- The memory that holds translation tables, and the pages `AllocTable` will get. -/
structure Tables where
  /-- The 64-bit word at an address. -/
  mem : ℕ → ℕ
  /-- The pages that are handed out next. -/
  supply : List ℕ

namespace Tables

/-- Write one entry. -/
def store (st : Tables) (slot value : ℕ) : Tables :=
  { st with mem := Function.update st.mem slot value }

/-- Clear `size` bytes. -/
def clear (st : Tables) (addr size : ℕ) : Tables :=
  { st with mem := fun a => if addr ≤ a ∧ a < addr + size then 0 else st.mem a }

/-- Write the entries `0`, ..., `n - 1` of a table. -/
def fill (st : Tables) (table : ℕ) (entry : ℕ → ℕ) : ℕ → Tables
  | 0 => st
  | i + 1 => (st.fill table entry i).store (table + 8 * i) (entry i)

/-- Allocate a zeroed table; halts when there is no page. -/
def allocTable (st : Tables) : Option (Tables × ℕ) :=
  match st.supply with
  | [] => none
  | pa :: supply => some (Tables.clear { st with supply := supply } pa pageSize, pa)

end Tables

/-- A translation table rooted at `root`. -/
structure PageTable where
  /-- `m_root`. -/
  root : ℕ
  /-- `m_startLevel`. -/
  startLevel : ℕ
  /-- `m_rootIndexMask`. -/
  rootIndexMask : ℕ

namespace PageTable

/-- The position of the index of a level in an address. -/
def levelShift : ℕ → ℕ
  | 0 => 39
  | 1 => 30
  | 2 => 21
  | _ => 12

/-- The loop of `Walk`, with the number of levels left above level 2.  Returns the slot of the level
2 entry, or `none` for the null pointer. -/
def walkLevels (pt : PageTable) (addr : ℕ) (allocOnMiss : Bool) :
    ℕ → ℕ → Tables → ℕ → Option (Tables × Option ℕ)
  | 0, _, st, table => some (st, some (table + 8 * l2Index addr))
  | k + 1, level, st, table =>
    let mask := if level = pt.startLevel then pt.rootIndexMask else 0x1FF
    let idx := addr >>> levelShift level &&& mask
    let slot := table + 8 * idx
    if pteIsValid (st.mem slot) then
      pt.walkLevels addr allocOnMiss k (level + 1) st (pteNextTable (st.mem slot))
    else if allocOnMiss then do
      let r ← st.allocTable
      let st := r.1.store slot (r.2 ||| pteValid ||| pteTable)
      pt.walkLevels addr allocOnMiss k (level + 1) st (pteNextTable (st.mem slot))
    else some (st, none)

/-- Walk to the level 2 entry that covers an address. -/
def walk (pt : PageTable) (addr : ℕ) (allocOnMiss : Bool) (st : Tables) :
    Option (Tables × Option ℕ) :=
  pt.walkLevels addr allocOnMiss (2 - pt.startLevel) pt.startLevel st pt.root

end PageTable

end HyperBerry
