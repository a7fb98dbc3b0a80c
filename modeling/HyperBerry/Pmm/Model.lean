import Mathlib
import HyperBerry.Lib.Word
import HyperBerry.Lib.LinkedList
import HyperBerry.DeviceTree.Types

/-!
# The physical page allocator

A model of `core/mm/pmm/pmm.cpp`: a buddy allocator over one contiguous range of physical memory.

The state holds the pool bounds, one free-list head for each order, the pair bitmap, and the links
of the free lists.  A link is written into the first word of each free block, so the links are a map
from block addresses to addresses; the address `0` is the null link.  Addresses are natural numbers
below `2 ^ 64`.

Functions that can halt the machine (`for (;;) wfe`) or loop forever return `none` when they do.
Loops over links or addresses carry a fuel of `2 ^ 64`: a walk over 64-bit addresses that has not
ended after that many steps has met a state twice and never ends.
-/

namespace HyperBerry

open LinkedList

/-- `PAGE_SIZE`. -/
def pageSize : ℕ := 0x1000

/-- `PAGE_SHIFT`. -/
def pageShift : ℕ := 12

/-- `MAX_ORDER`. -/
def maxOrder : ℕ := 16

/-- `NUM_ORDERS`. -/
def numOrders : ℕ := maxOrder + 1

/-- The linker symbols that bound the hypervisor image. -/
structure KernelImage where
  /-- `__text_start`. -/
  textStart : UInt64
  /-- `__uncached_space_end`. -/
  uncachedSpaceEnd : UInt64

/-- The state of the allocator, with the links kept inside the free blocks. -/
structure Pmm where
  /-- `m_base`: base address of the pool. -/
  base : ℕ
  /-- `m_size`: size of the pool in bytes. -/
  size : ℕ
  /-- `m_freeLists`: the first free block of every order, `0` when there is none. -/
  freeLists : ℕ → ℕ
  /-- `m_bitmap`: the bytes of the pair bitmap. -/
  bitmap : ℕ → ℕ
  /-- `FreeNode::next`: the link stored in the first word of a block. -/
  next : ℕ → ℕ

namespace Pmm

/-- `MAX_POOL_SIZE`. -/
def maxPoolSize : ℕ := 0x200000000

/-- The bits that precede those of `order` in the bitmap of a pool of `totalPages` pages. -/
def bitOffset (totalPages : ℕ) : ℕ → ℕ
  | 0 => 0
  | off + 1 => bitOffset totalPages off + totalPages >>> (off + 1)

/-- `BITMAP_BYTES`. -/
def bitmapBytes : ℕ := (bitOffset (maxPoolSize >>> pageShift) (maxOrder + 1) + 7) / 8

/-- The bit that holds the state of the buddy pair of a block. -/
def bitmapIndex (s : Pmm) (addr order : ℕ) : ℕ :=
  let pageIndex := sub64 addr s.base >>> pageShift
  let pairIndex := pageIndex >>> (order + 1)
  let totalPages := s.size >>> pageShift
  bitOffset totalPages order + pairIndex

/-- Flip the bit of a buddy pair and return its new value.  Halts when the bit lies outside the
bitmap. -/
def bitmapToggle (s : Pmm) (addr order : ℕ) : Option (Pmm × ℕ) :=
  let bitIdx := s.bitmapIndex addr order
  let byteIdx := bitIdx >>> 3
  if byteIdx ≥ bitmapBytes then none
  else
    let mask := 1 <<< (bitIdx &&& 7)
    let byte := s.bitmap byteIdx ^^^ mask
    some ({ s with bitmap := Function.update s.bitmap byteIdx byte },
      if byte &&& mask ≠ 0 then 1 else 0)

/-- The free list of one order, as a linked list. -/
def links (s : Pmm) (order : ℕ) : Links where
  head := s.freeLists order
  next := s.next

/-- Put back the free list of one order. -/
def setLinks (s : Pmm) (order : ℕ) (l : Links) : Pmm :=
  { s with freeLists := Function.update s.freeLists order l.head, next := l.next }

/-- Push a block on the free list of its order. -/
def listPush (s : Pmm) (addr order : ℕ) : Pmm :=
  s.setLinks order ((s.links order).push addr)

/-- Pop a block off a free list; `0` when the list is empty. -/
def listPop (s : Pmm) (order : ℕ) : Pmm × ℕ :=
  let r := (s.links order).pop
  (s.setLinks order r.1, r.2)

/-- Unlink a block from the free list of an order and say whether it was there. -/
def listRemove (s : Pmm) (addr order : ℕ) : Option (Pmm × Bool) := do
  let r ← (s.links order).removeFrom addr loopFuel .head
  pure (s.setLinks order r.1, r.2)

/-- The address of the buddy of a block. -/
def buddyOf (s : Pmm) (addr order : ℕ) : ℕ :=
  let offset := sub64 addr s.base
  let size := pageSize <<< order
  add64 (offset ^^^ size) s.base

/-! ## Reservation -/

/-- One pass of the order loop of `reserveRegion` at `addr`, over the orders below the given bound
from the largest down.  Returns by how much the address advances: by the block that was taken off
its free list, or by one page when there was none. -/
def reserveAt (s : Pmm) (addr fin : ℕ) : ℕ → Option (Pmm × ℕ)
  | 0 => some (s, pageSize)
  | o + 1 =>
    let blockSize := pageSize <<< o
    if addr &&& (blockSize - 1) ≠ 0 then s.reserveAt addr fin o
    else if add64 addr blockSize > fin then s.reserveAt addr fin o
    else do
      let r ← s.listRemove addr o
      if r.2 then
        let t ← r.1.bitmapToggle addr o
        pure (t.1, blockSize)
      else r.1.reserveAt addr fin o

/-- The address loop of `reserveRegion`. -/
def reserveLoop (fin : ℕ) : ℕ → Pmm → ℕ → Option Pmm
  | 0, _, _ => none
  | fuel + 1, s, addr =>
    if addr < fin then do
      let r ← s.reserveAt addr fin numOrders
      reserveLoop fin fuel r.1 (add64 addr r.2)
    else some s

/-- The first address of the page-rounded region. -/
def regionStart (base : ℕ) : ℕ := base &&& not64 (pageSize - 1)

/-- The end of the page-rounded region. -/
def regionEnd (base size : ℕ) : ℕ :=
  sub64 (add64 (add64 base size) pageSize) 1 &&& not64 (pageSize - 1)

/-- Take the free blocks inside a region off their lists. -/
def reserveRegion (s : Pmm) (base size : ℕ) : Option Pmm :=
  reserveLoop (regionEnd base size) loopFuel s (regionStart base)

/-! ## Allocation and release -/

/-- Split the block at `addr` from order `order + k` down to `order`, freeing the upper halves. -/
def splitLoop (addr order : ℕ) : ℕ → Pmm → Option Pmm
  | 0, s => some s
  | k + 1, s => do
    let found := order + k
    let split := add64 addr (pageSize <<< found)
    let t ← s.bitmapToggle split found
    splitLoop addr order k (t.1.listPush split found)

/-- The least order from `order` on whose free list is not empty. -/
def findOrder (s : Pmm) (order : ℕ) : Option ℕ :=
  (List.range' order (maxOrder + 1 - order)).find? fun o => s.freeLists o ≠ 0

/-- Allocate a block; the address is `0` on failure. -/
def allocPages (s : Pmm) (order : ℕ) : Option (Pmm × ℕ) :=
  if order > maxOrder then some (s, 0)
  else
    match s.findOrder order with
    | none => some (s, 0)
    | some found => do
      let r := s.listPop found
      let t ← r.1.bitmapToggle r.2 found
      let s' ← splitLoop r.2 order (found - order) t.1
      pure (s', r.2)

/-- The merge loop of `FreePages`, with the number of orders left below `MAX_ORDER`. -/
def freeLoop : ℕ → Pmm → ℕ → ℕ → Option Pmm
  | 0, s, addr, order => do
    let t ← s.bitmapToggle addr order
    pure (t.1.listPush addr order)
  | k + 1, s, addr, order => do
    let buddy := s.buddyOf addr order
    let t ← s.bitmapToggle addr order
    if t.2 ≠ 0 then pure (t.1.listPush addr order)
    else
      let r ← t.1.listRemove buddy order
      if r.2 then freeLoop k r.1 (if buddy < addr then buddy else addr) (order + 1)
      else
        let u ← r.1.bitmapToggle addr order
        pure (u.1.listPush addr order)

/-- Return a block to the free pool. -/
def freePages (s : Pmm) (addr order : ℕ) : Option Pmm :=
  if addr = 0 ∨ order > maxOrder then some s
  else freeLoop (maxOrder - order) s addr order

/-! ## Bring-up -/

/-- The order loop over the tail of the pool: the orders below the given bound, from the largest
down, each used at most once. -/
def seedTail : ℕ → Pmm → ℕ → ℕ → Option (Pmm × ℕ)
  | 0, s, addr, _ => some (s, addr)
  | o + 1, s, addr, remaining =>
    let blockSize := pageSize <<< o
    if remaining ≥ blockSize then do
      let t ← s.bitmapToggle addr o
      seedTail o (t.1.listPush addr o) (add64 addr blockSize) (remaining - blockSize)
    else seedTail o s addr remaining

/-- The seeding loop of `SetMemoryMap`. -/
def seedLoop (poolEnd : ℕ) : ℕ → Pmm → ℕ → Option Pmm
  | 0, _, _ => none
  | fuel + 1, s, addr =>
    if addr < poolEnd then
      let remaining := poolEnd - addr
      let maxBlockSize := pageSize <<< maxOrder
      if remaining ≥ maxBlockSize then do
        let t ← s.bitmapToggle addr maxOrder
        seedLoop poolEnd fuel (t.1.listPush addr maxOrder) (add64 addr maxBlockSize)
      else do
        let r ← seedTail numOrders s addr remaining
        seedLoop poolEnd fuel r.1 r.2
    else some s

/-- The number of blocks on every free list, as printed at the end of bring-up. -/
def dumpState (s : Pmm) : Option (List ℕ) :=
  (List.range numOrders).mapM fun o =>
    (nodes s.next loopFuel (s.freeLists o)).map List.length

/-- The regions `SetMemoryMap` reserves, in its order, as base and size. -/
def reservations (image : KernelImage) (map : MemoryMap) : List (ℕ × ℕ) :=
  [(image.textStart.toNat, sub64 image.uncachedSpaceEnd.toNat image.textStart.toNat),
    (map.atfBase.toNat, map.atfSize.toNat), (map.dtbBase.toNat, map.dtbSize.toNat)] ++
  (if map.cpioArchiveSize ≠ 0 then [(map.cpioArchiveBase.toNat, map.cpioArchiveSize.toNat)]
    else []) ++
  (if map.memBase = 0 ∧ map.memSize.toNat ≥ pageSize then [(0, pageSize)] else [])

/-- Rebuild the pool from a memory map. -/
def setMemoryMap (s : Pmm) (image : KernelImage) (map : MemoryMap) : Option Pmm := do
  let s : Pmm :=
    { base := map.memBase.toNat, size := map.memSize.toNat, freeLists := fun _ => 0,
      bitmap := fun _ => 0, next := s.next }
  if s.size > maxPoolSize then none
  else
    let poolEnd := add64 map.memBase.toNat map.memSize.toNat
    let s ← seedLoop poolEnd loopFuel s map.memBase.toNat
    let s ← (reservations image map).foldlM (fun s r => s.reserveRegion r.1 r.2) s
    let _ ← s.dumpState
    pure s

/-- The blocks on a free list, first to last. -/
def freeList (s : Pmm) (order : ℕ) : List ℕ :=
  (nodes s.next loopFuel (s.freeLists order)).getD []

end Pmm

end HyperBerry
