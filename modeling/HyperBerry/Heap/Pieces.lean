import HyperBerry.Heap.Model

/-!
# What the heap is made of

A block that the heap holds is a slab or a large allocation.  A `Slab` carries the proof that its
free and used slots are exactly the slots of its page and that each used slot is large enough, a
`Large` that its header and data lie in its block.  `Piece` is either of them; everything later
files use about a piece is that its metadata and its allocations lie in its block and do not
overlap.

`Piece.Holds` says that memory has the metadata of a piece; it depends on the bytes of the metadata
alone.
-/

namespace HyperBerry

namespace Heap

open Pmm (Extent)
open LinkedList

/-! ## Requests -/

/-- An allocation that is live: its pointer, the request, and the block it was taken from when it is
not in a slab. -/
structure Allocation where
  ptr : ℕ
  size : ℕ
  align : ℕ
  origin : Option Extent
deriving DecidableEq

/-- The size class of a request. -/
def classOf (size align : ℕ) : ℕ := pickClass (effectiveSize size) (effectiveAlign align)

/-- The bytes of an allocation. -/
def Allocation.bytes (a : Allocation) : Set ℕ := Set.Ico a.ptr (a.ptr + effectiveSize a.size)

/-- A served request has a byte. -/
lemma effectiveSize_pos (size : ℕ) : 0 < effectiveSize size := by
  unfold effectiveSize
  split <;> omega

/-- The bytes that the user asked for. -/
lemma le_effectiveSize (size : ℕ) : size ≤ effectiveSize size := by
  unfold effectiveSize
  split <;> omega

/-- The alignment that the user asked for, and the default. -/
lemma effectiveAlign_eq (align : ℕ) : effectiveAlign align = max align defaultNewAlign := by
  unfold effectiveAlign
  split <;> omega

/-- The alignment of a request is a power of two. -/
lemma exists_effectiveAlign_eq {align : ℕ} (h : ∃ k, align = 2 ^ k) :
    ∃ k, 4 ≤ k ∧ effectiveAlign align = 2 ^ k := by
  obtain ⟨k, rfl⟩ := h
  by_cases hk : 4 ≤ k
  · refine ⟨k, hk, ?_⟩
    have hle : 2 ^ 4 ≤ 2 ^ k := Nat.pow_le_pow_right (by norm_num) hk
    rw [effectiveAlign_eq, max_eq_left (by unfold defaultNewAlign; omega)]
  · refine ⟨4, le_rfl, ?_⟩
    have hle : 2 ^ k ≤ 2 ^ 4 := Nat.pow_le_pow_right (by norm_num) (by omega)
    rw [effectiveAlign_eq, max_eq_right (by unfold defaultNewAlign; omega)]
    rfl

/-! ## Slots -/

/-- The slots of a slab page. -/
def slots (page classIdx : ℕ) : List ℕ :=
  (List.range (slotCount classIdx)).map fun i =>
    page + firstSlotOffset classIdx + i * slotSize classIdx

/-- The layout of the slab pages, for all classes. -/
lemma slab_layout : ∀ c < noSlabClass, slotSize c = 2 ^ (c + 4) ∧
    slabHeaderSize ≤ firstSlotOffset c ∧ slotSize c ∣ firstSlotOffset c ∧ slotSize c ∣ pageSize ∧
    firstSlotOffset c + slotCount c * slotSize c ≤ pageSize ∧ slotCount c < 2 ^ 32 := by
  decide

variable {page c x y : ℕ}

/-- A slot has sixteen bytes at least. -/
lemma le_slotSize (hc : c < noSlabClass) : 16 ≤ slotSize c := by
  rw [(slab_layout c hc).1, pow_add]
  exact Nat.le_mul_of_pos_left 16 (by positivity)

/-- A slot lies in its page behind the header. -/
lemma mem_slots (hc : c < noSlabClass) (hx : x ∈ slots page c) :
    page + slabHeaderSize ≤ x ∧ x + slotSize c ≤ page + pageSize := by
  obtain ⟨i, hi, rfl⟩ := List.mem_map.mp hx
  obtain ⟨-, hfirst, -, -, hend, -⟩ := slab_layout c hc
  have hle : (i + 1) * slotSize c ≤ slotCount c * slotSize c :=
    Nat.mul_le_mul_right _ (List.mem_range.mp hi)
  rw [Nat.add_mul, Nat.one_mul] at hle
  omega

/-- A slot is aligned to its size. -/
lemma slotSize_dvd (hc : c < noSlabClass) (hpage : pageSize ∣ page) (hx : x ∈ slots page c) :
    slotSize c ∣ x := by
  obtain ⟨i, -, rfl⟩ := List.mem_map.mp hx
  obtain ⟨-, -, hfirst, hsize, -⟩ := slab_layout c hc
  exact ((hsize.trans hpage).add hfirst).add (Nat.dvd_mul_left _ _)

/-- Different slots do not overlap. -/
lemma slots_disjoint (hx : x ∈ slots page c) (hy : y ∈ slots page c) (hne : x ≠ y) :
    x + slotSize c ≤ y ∨ y + slotSize c ≤ x := by
  obtain ⟨i, -, rfl⟩ := List.mem_map.mp hx
  obtain ⟨j, -, rfl⟩ := List.mem_map.mp hy
  rcases lt_trichotomy i j with hij | rfl | hij
  · left
    have hle : (i + 1) * slotSize c ≤ j * slotSize c := Nat.mul_le_mul_right _ hij
    rw [Nat.add_mul, Nat.one_mul] at hle
    omega
  · exact absurd rfl hne
  · right
    have hle : (j + 1) * slotSize c ≤ i * slotSize c := Nat.mul_le_mul_right _ hij
    rw [Nat.add_mul, Nat.one_mul] at hle
    omega

/-- No slot is listed twice. -/
lemma slots_nodup (hc : c < noSlabClass) : (slots page c).Nodup := by
  refine List.nodup_range.map fun i j hij => ?_
  have hpos : 0 < slotSize c := lt_of_lt_of_le (by norm_num) (le_slotSize hc)
  have hmul : i * slotSize c = j * slotSize c := by simpa using hij
  exact Nat.eq_of_mul_eq_mul_right hpos hmul

/-- A class that was picked has slots for the request. -/
lemma pickClass_fits {size align : ℕ} (h : pickClass size align = c) (hc : c < noSlabClass) :
    size ≤ slotSize c ∧ align ≤ slotSize c := by
  obtain ⟨need, hneed⟩ : ∃ need, need = if size > align then size else align := ⟨_, rfl⟩
  rw [pickClass, ← hneed] at h
  split at h
  case isTrue => exact absurd hc (h ▸ lt_irrefl _)
  case isFalse hsmall =>
    subst h
    have hslot := List.findIdx_getElem (w := hc)
    rw [decide_eq_true_eq] at hslot
    rw [slotSize, List.getD_eq_getElem _ _ hc]
    split at hneed <;> constructor <;> omega

/-! ## Blocks -/

/-- A block of pages as the page allocator returns it: not null, aligned to its size and inside the
address space. -/
structure IsBlock (e : Extent) : Prop where
  ne_zero : e.addr ≠ 0
  aligned : pageSize <<< e.order ∣ e.addr
  le : e.addr + pageSize <<< e.order ≤ 2 ^ 64

/-- A block is page-aligned. -/
lemma IsBlock.page_dvd {e : Extent} (h : IsBlock e) : pageSize ∣ e.addr := by
  refine dvd_trans ?_ h.aligned
  rw [Nat.shiftLeft_eq]
  exact Nat.dvd_mul_right _ _

/-- A block has a page. -/
lemma pageSize_le_shiftLeft (order : ℕ) : pageSize ≤ pageSize <<< order := by
  rw [Nat.shiftLeft_eq]
  exact Nat.le_mul_of_pos_right _ (by positivity)

/-- The first byte of a block. -/
lemma addr_mem_bytes (e : Extent) : e.addr ∈ e.bytes :=
  ⟨le_rfl, Nat.lt_add_of_pos_right (lt_of_lt_of_le (by decide) (pageSize_le_shiftLeft e.order))⟩

/-! ## Slabs -/

/-- A slab page with its free slots, in the order of the free list, and its used slots. -/
structure Slab where
  page : ℕ
  /-- The size class. -/
  cls : ℕ
  free : List ℕ
  used : List Allocation
  cls_lt : cls < noSlabClass
  block : IsBlock ⟨page, 0⟩
  /-- Free and used slots are the slots of the page. -/
  perm : (free ++ used.map Allocation.ptr).Perm (slots page cls)
  /-- The used slots are those of requests of this class. -/
  fits : ∀ a ∈ used, classOf a.size a.align = cls ∧ a.origin = none ∧ ∃ k, a.align = 2 ^ k

namespace Slab

variable {s : Slab} {m m' : Bytes}

/-- The bytes of the header and the free slots. -/
def metadata (s : Slab) : Set ℕ :=
  {i | i ∈ Set.Ico s.page (s.page + slabHeaderSize) ∨
    ∃ x ∈ s.free, i ∈ Set.Ico x (x + slotSize s.cls)}

/-- A free slot is a slot. -/
lemma mem_slots_of_free (hx : x ∈ s.free) : x ∈ slots s.page s.cls :=
  s.perm.subset (List.mem_append_left _ hx)

/-- A used slot is a slot. -/
lemma mem_slots_of_used {a : Allocation} (ha : a ∈ s.used) : a.ptr ∈ slots s.page s.cls :=
  s.perm.subset (List.mem_append_right _ (List.mem_map_of_mem ha))

/-- No slot occurs twice. -/
lemma nodup (s : Slab) : (s.free ++ s.used.map Allocation.ptr).Nodup :=
  s.perm.nodup_iff.mpr (slots_nodup s.cls_lt)

/-- There are not too many slots for the counter. -/
lemma length_lt (s : Slab) : s.free.length + s.used.length < 2 ^ 32 := by
  have hlen := s.perm.length_eq
  rw [List.length_append, List.length_map, slots, List.length_map, List.length_range] at hlen
  have hcount := (slab_layout s.cls s.cls_lt).2.2.2.2.2
  omega

/-- A request fits into its slot. -/
lemma size_le {a : Allocation} (ha : a ∈ s.used) : effectiveSize a.size ≤ slotSize s.cls := by
  obtain ⟨hcls, -⟩ := s.fits a ha
  exact (pickClass_fits hcls s.cls_lt).1

/-- A used slot is aligned as requested. -/
lemma align_dvd {a : Allocation} (ha : a ∈ s.used) : effectiveAlign a.align ∣ a.ptr := by
  obtain ⟨hcls, -, halign⟩ := s.fits a ha
  obtain ⟨k, -, hk⟩ := exists_effectiveAlign_eq halign
  have hle := (pickClass_fits hcls s.cls_lt).2
  have hdvd := slotSize_dvd s.cls_lt s.block.page_dvd (mem_slots_of_used ha)
  rw [hk, (slab_layout s.cls s.cls_lt).1] at hle
  rw [(slab_layout s.cls s.cls_lt).1] at hdvd
  rw [hk]
  exact (pow_dvd_pow 2 ((Nat.pow_le_pow_iff_right (by norm_num)).mp hle)).trans hdvd

/-- The header has the values of the slab, and the free list goes through its free slots. -/
structure Holds (m : Bytes) (s : Slab) : Prop where
  magic : magic m s.page = slabMagic
  inUse : inUse m s.page = s.used.length
  free : IsChain (nextSlot m) (freeList m s.page) s.free

/-- The slab in a memory that agrees on its metadata. -/
lemma Holds.congr (h : s.Holds m) (hm : ∀ i ∈ s.metadata, m' i = m i) : s.Holds m' := by
  have hheader : ∀ off n, off + n ≤ slabHeaderSize →
      m'.read (s.page + off) n = m.read (s.page + off) n :=
    fun off n hle => Bytes.read_congr fun i hlo hhi => hm i (.inl ⟨by omega, by omega⟩)
  refine ⟨(hheader 0 8 (by decide)).trans h.magic, (hheader 12 4 (by decide)).trans h.inUse, ?_⟩
  have hfree : freeList m' s.page = freeList m s.page := hheader 16 8 (by decide)
  rw [hfree]
  refine h.free.congr fun x hx => Bytes.read_congr fun i hlo hhi => hm i (.inr ⟨x, hx, hlo, ?_⟩)
  have hsize := le_slotSize s.cls_lt
  omega

end Slab

/-! ## Large allocations -/

/-- A large allocation in its block. -/
structure Large where
  addr : ℕ
  order : ℕ
  alloc : Allocation
  block : IsBlock ⟨addr, order⟩
  order_le : order ≤ maxOrder
  ptr_eq : alloc.ptr = addr + effectiveAlign alloc.align
  le : effectiveAlign alloc.align + effectiveSize alloc.size ≤ pageSize <<< order
  origin : alloc.origin = some ⟨addr, order⟩
  align : ∃ k, alloc.align = 2 ^ k
  not_slab : ¬ classOf alloc.size alloc.align < noSlabClass

namespace Large

variable {l : Large} {m m' : Bytes}

/-- Where the header is. -/
def header (l : Large) : ℕ := l.addr + (effectiveAlign l.alloc.align - largeHeaderSize)

/-- There is room for the header. -/
lemma header_add (l : Large) : l.header + largeHeaderSize = l.alloc.ptr ∧ l.addr ≤ l.header := by
  have hle : largeHeaderSize ≤ effectiveAlign l.alloc.align := by
    rw [effectiveAlign_eq]
    exact le_max_right _ _
  rw [l.ptr_eq, header]
  omega

/-- The bytes of the header and the first word of the block. -/
def metadata (l : Large) : Set ℕ :=
  {i | i ∈ Set.Ico l.addr (l.addr + 8) ∨ i ∈ Set.Ico l.header l.alloc.ptr}

/-- The header has the values of the allocation, and the first word is not that of a slab. -/
structure Holds (m : Bytes) (l : Large) : Prop where
  magic : magic m l.header = largeMagic
  order : m.read (l.header + 8) 4 = l.order
  offset : m.read (l.header + 12) 4 = effectiveAlign l.alloc.align
  first : Heap.magic m l.addr ≠ slabMagic

/-- The allocation in a memory that agrees on its metadata. -/
lemma Holds.congr (h : l.Holds m) (hm : ∀ i ∈ l.metadata, m' i = m i) : l.Holds m' := by
  have hptr := l.header_add.1
  have hheader : ∀ off n, off + n ≤ largeHeaderSize →
      m'.read (l.header + off) n = m.read (l.header + off) n :=
    fun off n hle => Bytes.read_congr fun i hlo hhi => hm i (.inr ⟨by omega, by omega⟩)
  have hfirst : Heap.magic m' l.addr = Heap.magic m l.addr :=
    Bytes.read_congr fun i hlo hhi => hm i (.inl ⟨hlo, hhi⟩)
  exact ⟨(hheader 0 8 (by decide)).trans h.magic, (hheader 8 4 (by decide)).trans h.order,
    (hheader 12 4 (by decide)).trans h.offset, hfirst.trans_ne h.first⟩

end Large

/-! ## Pieces -/

/-- A block that the heap holds. -/
inductive Piece
  | slab (s : Slab)
  | large (l : Large)

namespace Piece

variable {p : Piece} {m m' : Bytes} {a b : Allocation}

/-- The block. -/
def extent : Piece → Extent
  | .slab s => ⟨s.page, 0⟩
  | .large l => ⟨l.addr, l.order⟩

/-- The allocations in it. -/
def allocs : Piece → List Allocation
  | .slab s => s.used
  | .large l => [l.alloc]

/-- The bytes that the heap uses itself. -/
def metadata : Piece → Set ℕ
  | .slab s => s.metadata
  | .large l => l.metadata

/-- Memory has the metadata. -/
def Holds (m : Bytes) : Piece → Prop
  | .slab s => s.Holds m
  | .large l => l.Holds m

/-- The page of a slab of the given class. -/
def slabPage (classIdx : ℕ) : Piece → Option ℕ
  | .slab s => if s.cls = classIdx then some s.page else none
  | .large _ => none

/-- The piece in a memory that agrees on its metadata. -/
lemma Holds.congr (h : p.Holds m) (hm : ∀ i ∈ p.metadata, m' i = m i) : p.Holds m' := by
  cases p with
  | slab s => exact Slab.Holds.congr h hm
  | large l => exact Large.Holds.congr h hm

/-- The metadata lies in the block. -/
lemma metadata_subset (p : Piece) : p.metadata ⊆ p.extent.bytes := by
  cases p with
  | slab s =>
    rintro i (hi | ⟨x, hx, hi⟩)
    · exact ⟨hi.1, hi.2.trans_le (Nat.add_le_add_left (show slabHeaderSize ≤ pageSize by decide) _)⟩
    · obtain ⟨hge, hle⟩ := mem_slots s.cls_lt (Slab.mem_slots_of_free hx)
      exact ⟨(Nat.le_of_add_right_le hge).trans hi.1, hi.2.trans_le hle⟩
  | large l =>
    have hpage := pageSize_le_shiftLeft l.order
    have hle := l.le
    have hptr := l.ptr_eq
    obtain ⟨-, hge⟩ := l.header_add
    rintro i (hi | hi)
    · refine ⟨hi.1, hi.2.trans_le ?_⟩
      exact Nat.add_le_add_left (le_trans (by decide) hpage) _
    · refine ⟨hge.trans hi.1, hi.2.trans_le ?_⟩
      change l.alloc.ptr ≤ l.addr + pageSize <<< l.order
      omega

/-- The allocations lie in the block. -/
lemma bytes_subset (ha : a ∈ p.allocs) : a.bytes ⊆ p.extent.bytes := by
  cases p with
  | slab s =>
    obtain ⟨hge, hle⟩ := mem_slots s.cls_lt (Slab.mem_slots_of_used ha)
    have hsize := Slab.size_le ha
    intro i hi
    refine ⟨(Nat.le_of_add_right_le hge).trans hi.1, hi.2.trans_le ?_⟩
    exact (Nat.add_le_add_left hsize _).trans hle
  | large l =>
    obtain rfl := List.mem_singleton.mp ha
    have hptr := l.ptr_eq
    have hle := l.le
    intro i hi
    refine ⟨le_trans ?_ hi.1, hi.2.trans_le ?_⟩
    · change l.addr ≤ l.alloc.ptr
      omega
    · change l.alloc.ptr + effectiveSize l.alloc.size ≤ l.addr + pageSize <<< l.order
      omega

/-- The allocations do not overlap with the metadata. -/
lemma disjoint_metadata (ha : a ∈ p.allocs) : Disjoint a.bytes p.metadata := by
  refine Set.disjoint_left.mpr fun i hi hmeta => ?_
  obtain ⟨hlo, hhi⟩ := hi
  cases p with
  | slab s =>
    have hslot := Slab.mem_slots_of_used ha
    have hsize := Slab.size_le ha
    rcases hmeta with hheader | ⟨x, hx, hfree⟩
    · have hge := (mem_slots s.cls_lt hslot).1
      exact absurd hheader.2 (not_lt.mpr (hge.trans hlo))
    · have hne : a.ptr ≠ x := fun heq => List.disjoint_of_nodup_append s.nodup hx
        (heq ▸ List.mem_map_of_mem ha)
      obtain ⟨hge, hlt⟩ := hfree
      rcases slots_disjoint hslot (Slab.mem_slots_of_free hx) hne with hle | hle <;> omega
  | large l =>
    obtain rfl := List.mem_singleton.mp ha
    have hptr := l.ptr_eq
    have halign : 16 ≤ effectiveAlign l.alloc.align := by
      rw [effectiveAlign_eq]
      exact le_max_right _ _
    rcases hmeta with hfirst | hheader
    · have := hfirst.2
      omega
    · exact absurd hheader.2 (not_lt.mpr hlo)

/-- The allocations of a piece do not overlap. -/
lemma pairwise_allocs (p : Piece) : p.allocs.Pairwise fun a b => Disjoint a.bytes b.bytes := by
  cases p with
  | slab s =>
    have hnodup := List.pairwise_map.mp (List.nodup_append.mp s.nodup).2.1
    refine hnodup.imp_of_mem fun {a b} ha hb hne => Set.disjoint_left.mpr fun i hia hib => ?_
    have hsa := Slab.size_le ha
    have hsb := Slab.size_le hb
    obtain ⟨hloa, hhia⟩ := hia
    obtain ⟨hlob, hhib⟩ := hib
    rcases slots_disjoint (Slab.mem_slots_of_used ha) (Slab.mem_slots_of_used hb)
      hne with hle | hle <;>
      omega
  | large l => exact List.pairwise_singleton _ _

/-- The allocations are aligned as requested. -/
lemma align_dvd (ha : a ∈ p.allocs) : effectiveAlign a.align ∣ a.ptr := by
  cases p with
  | slab s => exact Slab.align_dvd ha
  | large l =>
    obtain rfl := List.mem_singleton.mp ha
    obtain ⟨k, -, hk⟩ := exists_effectiveAlign_eq l.align
    have hle := l.le
    have haligned := l.block.aligned
    have hpos := effectiveSize_pos l.alloc.size
    rw [l.ptr_eq]
    refine Nat.dvd_add ?_ dvd_rfl
    -- the alignment is a smaller power of two than the size of the block
    rw [Nat.shiftLeft_eq, show pageSize = 2 ^ 12 from rfl, ← pow_add] at hle haligned
    rw [hk] at hle ⊢
    have hlt : 2 ^ k < 2 ^ (12 + l.order) := by omega
    exact (pow_dvd_pow 2 ((Nat.pow_lt_pow_iff_right (by norm_num)).mp hlt).le).trans haligned

end Piece

end Heap

end HyperBerry
