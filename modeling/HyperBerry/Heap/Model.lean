import HyperBerry.Lib.Bytes
import HyperBerry.Pmm.Run
import HyperBerry.DeviceTree.Fdt

/-!
# The kernel heap

A model of `core/mm/heap/heap.cpp`.  The headers and the links of the free slots lie in memory, next
to the data of the users, so the state is the memory together with the heads of the slab lists.

The page allocator is a parameter: `allocPages order` is what `Pmm::AllocPages(order)` returns, and
the model of a function that calls it says which block it has taken.  `Pmm::FreePages` is modelled
by the block that is given back.  Pointers inside of a page do not wrap around, since the page lies
in the address space; the sizes of a request and the pointer of a large allocation may, and there
the arithmetic is that of 64-bit words.
-/

namespace HyperBerry

open Pmm (Extent)

/-- The heads of the slab lists, and the memory. -/
structure Heap where
  /-- `m_slabs`: the first slab page of each size class, `0` when there is none. -/
  slabs : ℕ → ℕ
  mem : Bytes

namespace Heap

/-- `SLAB_CLASSES`: the slot sizes. -/
def slabClasses : List ℕ := [16, 32, 64, 128, 256, 512, 1024]

/-- `NO_SLAB_CLASS`. -/
def noSlabClass : ℕ := slabClasses.length

/-- `MAX_SLAB_SIZE`. -/
def maxSlabSize : ℕ := 1024

/-- `DEFAULT_NEW_ALIGN`. -/
def defaultNewAlign : ℕ := 16

/-- `SLAB_MAGIC`. -/
def slabMagic : ℕ := 0x534C41425F4D4147

/-- `LARGE_MAGIC`. -/
def largeMagic : ℕ := 0x4C415247455F4D47

/-- `sizeof(SlabHeader)`. -/
def slabHeaderSize : ℕ := 32

/-- `sizeof(LargeHeader)`. -/
def largeHeaderSize : ℕ := 16

/-- The loop of `orderForBytes`, with the number of orders left. -/
def orderFrom (total : ℕ) : ℕ → ℕ → ℕ → ℕ
  | 0, span, order => if span < total then maxOrder + 1 else order
  | k + 1, span, order => if span < total then orderFrom total k (span <<< 1) (order + 1) else order

/-- The least order of a block of this many bytes; `MAX_ORDER + 1` when there is none. -/
def orderForBytes (total : ℕ) : ℕ := orderFrom total maxOrder pageSize 0

/-- `pickClass`: the index of the smallest class whose slots are large enough. -/
def pickClass (size align : ℕ) : ℕ :=
  let need := if size > align then size else align
  if need > maxSlabSize then noSlabClass else slabClasses.findIdx fun slot => need ≤ slot

/-! ## Fields of headers -/

/-- `SlabHeader::magic`, and `LargeHeader::magic`. -/
def magic (m : Bytes) (hdr : ℕ) : ℕ := m.read hdr 8

/-- `SlabHeader::inUse`. -/
def inUse (m : Bytes) (hdr : ℕ) : ℕ := m.read (hdr + 12) 4

/-- `SlabHeader::freeList`. -/
def freeList (m : Bytes) (hdr : ℕ) : ℕ := m.read (hdr + 16) 8

/-- `SlabHeader::next`. -/
def nextSlab (m : Bytes) (hdr : ℕ) : ℕ := m.read (hdr + 24) 8

/-- `FreeSlot::next`. -/
def nextSlot (m : Bytes) (slot : ℕ) : ℕ := m.read slot 8

/-! ## Slabs -/

/-- The size of the slots of a class. -/
def slotSize (classIdx : ℕ) : ℕ := slabClasses.getD classIdx 0

/-- Where the slots of a slab page begin. -/
def firstSlotOffset (classIdx : ℕ) : ℕ :=
  (slabHeaderSize + slotSize classIdx - 1) &&& not64 (slotSize classIdx - 1)

/-- The number of slots of a slab page. -/
def slotCount (classIdx : ℕ) : ℕ := (pageSize - firstSlotOffset classIdx) / slotSize classIdx

/-- The loop of `newSlab`: link the first slots, each to the one before, and return the last. -/
def linkSlots (base size : ℕ) : ℕ → Bytes → Bytes × ℕ
  | 0, m => (m, 0)
  | n + 1, m =>
    let r := linkSlots base size n m
    let slot := base + n * size
    (r.1.write slot 8 r.2, slot)

/-- `newSlab`, in the page that was allocated. -/
def newSlab (m : Bytes) (classIdx page : ℕ) : Bytes :=
  let m := m.write page 8 slabMagic
  let m := m.write (page + 8) 4 classIdx
  let m := m.write (page + 12) 4 0
  let m := m.write (page + 24) 8 0
  let r := linkSlots (page + firstSlotOffset classIdx) (slotSize classIdx) (slotCount classIdx) m
  r.1.write (page + 16) 8 r.2

/-- What a call of `Allocate` leaves behind. -/
structure Allocated where
  heap : Heap
  /-- The pointer that is returned. -/
  ptr : ℕ
  /-- The block that was taken from the page allocator. -/
  pages : Option Extent

/-- The loop of `allocFromSlab`: the first slab with a free slot, `0` if there is none. -/
def findSlab (m : Bytes) : ℕ → ℕ → Except Halt ℕ
  | 0, _ => .error .hang
  | fuel + 1, hdr =>
    if hdr ≠ 0 ∧ freeList m hdr = 0 then findSlab m fuel (nextSlab m hdr) else .ok hdr

/-- The end of `allocFromSlab`: take the first free slot of a slab. -/
def takeSlot (h : Heap) (hdr : ℕ) (pages : Option Extent) : Allocated :=
  let slot := freeList h.mem hdr
  let m := h.mem.write (hdr + 16) 8 (nextSlot h.mem slot)
  let m := m.write (hdr + 12) 4 ((inUse m hdr + 1) % 2 ^ 32)
  ⟨{ h with mem := m }, slot, pages⟩

/-- `allocFromSlab`. -/
def allocFromSlab (h : Heap) (classIdx : ℕ) (allocPages : ℕ → ℕ) : Except Halt Allocated := do
  let hdr ← findSlab h.mem loopFuel (h.slabs classIdx)
  if hdr ≠ 0 then pure (takeSlot h hdr none)
  else
    let page := allocPages 0
    if page = 0 then pure ⟨h, 0, none⟩
    else
      let m := newSlab h.mem classIdx page
      let m := m.write (page + 24) 8 (h.slabs classIdx)
      pure (takeSlot ⟨Function.update h.slabs classIdx page, m⟩ page (some ⟨page, 0⟩))

/-- `freeToSlab`. -/
def freeToSlab (h : Heap) (ptr : ℕ) : Heap :=
  let hdr := ptr &&& not64 (pageSize - 1)
  let m := h.mem.write ptr 8 (freeList h.mem hdr)
  let m := m.write (hdr + 16) 8 ptr
  { h with mem := m.write (hdr + 12) 4 ((inUse m hdr + (2 ^ 32 - 1)) % 2 ^ 32) }

/-! ## Large allocations -/

/-- `allocLarge`. -/
def allocLarge (h : Heap) (size align : ℕ) (allocPages : ℕ → ℕ) : Allocated :=
  let userOffset := sub64 (add64 largeHeaderSize align) 1 &&& not64 (align - 1)
  let order := orderForBytes (add64 userOffset size)
  if order > maxOrder then ⟨h, 0, none⟩
  else
    let addr := allocPages order
    if addr = 0 then ⟨h, 0, none⟩
    else
      let m := h.mem.write addr 8 0
      let userPtr := add64 addr userOffset
      let hdr := sub64 userPtr largeHeaderSize
      let m := m.write hdr 8 largeMagic
      let m := m.write (hdr + 8) 4 order
      let m := m.write (hdr + 12) 4 (userOffset % 2 ^ 32)
      ⟨{ h with mem := m }, userPtr, some ⟨addr, order⟩⟩

/-- `freeLarge`, with the block that is given back. -/
def freeLarge (h : Heap) (ptr : ℕ) : Except Halt (Heap × Option Extent) :=
  let hdr := sub64 ptr largeHeaderSize
  if magic h.mem hdr ≠ largeMagic then .error (.panic "[HEAP] large free: bad magic")
  else
    let order := h.mem.read (hdr + 8) 4
    let userOffset := h.mem.read (hdr + 12) 4
    .ok ({ h with mem := h.mem.write hdr 8 0 }, some ⟨sub64 ptr userOffset, order⟩)

/-! ## The interface -/

/-- The size that a request is served with. -/
def effectiveSize (size : ℕ) : ℕ := if size = 0 then 1 else size

/-- The alignment that a request is served with. -/
def effectiveAlign (align : ℕ) : ℕ := if align < defaultNewAlign then defaultNewAlign else align

/-- `Allocate`. -/
def allocate (h : Heap) (size align : ℕ) (allocPages : ℕ → ℕ) : Except Halt Allocated :=
  let size := effectiveSize size
  let align := effectiveAlign align
  let classIdx := pickClass size align
  if classIdx < noSlabClass then allocFromSlab h classIdx allocPages
  else .ok (allocLarge h size align allocPages)

/-- `Deallocate`, with the block that is given back to the page allocator. -/
def deallocate (h : Heap) (ptr : ℕ) : Except Halt (Heap × Option Extent) :=
  if ptr = 0 then .ok (h, none)
  else if ptr &&& (pageSize - 1) = 0 then freeLarge h ptr
  else if magic h.mem (ptr &&& not64 (pageSize - 1)) = slabMagic then .ok (freeToSlab h ptr, none)
  else if magic h.mem (sub64 ptr largeHeaderSize) = largeMagic then freeLarge h ptr
  else .error (.panic "[HEAP] free: invalid pointer (no recognised header)")

end Heap

end HyperBerry
