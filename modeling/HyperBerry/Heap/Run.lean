import HyperBerry.Heap.Shape

/-!
# Runs of the heap

A `System` is the heap together with the live allocations and the blocks it holds.  Users allocate
and free in any order, write what they like into their allocations, and memory outside of the blocks
of the heap changes freely (`Step`).  The page allocator returns blocks that are aligned to their
size and disjoint from those the heap holds (`Answers`).

`Tracks` ties a system to the pieces of its heap.  Every step keeps it, so it holds along every run
(`tracks_of_run`), and `sound_of_run` reads off what it says about the heap as it is in memory.
-/

namespace HyperBerry

namespace Heap

open Pmm (Extent)
open LinkedList
open DeviceTree (ok_bind)

/-- The heap, the allocations that are live, and the blocks that have been taken from the page
allocator and not given back. -/
structure System where
  heap : Heap
  live : List Allocation
  pages : List Extent

/-- What the page allocator may return for each order, while the heap holds some blocks. -/
def Answers (pages : List Extent) (allocPages : ℕ → ℕ) : Prop :=
  ∀ order ≤ maxOrder, allocPages order ≠ 0 → IsBlock ⟨allocPages order, order⟩ ∧
    ∀ e ∈ pages, Disjoint (⟨allocPages order, order⟩ : Extent).bytes e.bytes

/-- A request: the alignment is a power of two, and the size behind a header that is rounded up to
the alignment does not wrap around. -/
structure IsRequest (size align : ℕ) : Prop where
  pow : ∃ k, align = 2 ^ k
  lt : effectiveAlign align + size < 2 ^ 64

/-- The allocation that a request has led to. -/
def Allocated.allocation (r : Allocated) (size align : ℕ) : Allocation :=
  ⟨r.ptr, size, align, if classOf size align < noSlabClass then none else r.pages⟩

/-- One step of a system. -/
inductive Step : System → System → Prop
  /-- `Allocate` returns. -/
  | allocate {t : System} {size align : ℕ} {allocPages : ℕ → ℕ} {r : Allocated} :
      IsRequest size align → Answers t.pages allocPages →
      t.heap.allocate size align allocPages = .ok r →
      Step t ⟨r.heap, if r.ptr = 0 then t.live else r.allocation size align :: t.live,
        r.pages.toList ++ t.pages⟩
  /-- `Deallocate` returns for a live pointer. -/
  | deallocate {t : System} {a : Allocation} {h : Heap} {released : Option Extent} :
      a ∈ t.live → t.heap.deallocate a.ptr = .ok (h, released) →
      Step t ⟨h, t.live.erase a, released.elim t.pages t.pages.erase⟩
  /-- A user writes into a live allocation. -/
  | write {t : System} {a : Allocation} {m : Bytes} :
      a ∈ t.live → (∀ i ∉ Set.Ico a.ptr (a.ptr + a.size), m i = t.heap.mem i) →
      Step t { t with heap := { t.heap with mem := m } }
  /-- Memory outside of the blocks of the heap changes. -/
  | other {t : System} {m : Bytes} :
      (∀ e ∈ t.pages, ∀ i ∈ e.bytes, m i = t.heap.mem i) →
      Step t { t with heap := { t.heap with mem := m } }

/-- Any number of steps. -/
abbrev Run : System → System → Prop := Relation.ReflTransGen Step

/-- The heap before its first use, in any memory. -/
def start (m : Bytes) : System := ⟨⟨fun _ => 0, m⟩, [], []⟩

/-! ## Calls -/

variable {h : Heap} {ps l₁ l₂ : List Piece} {s : Slab} {a : Allocation} {t t' : System}
  {size align c : ℕ} {allocPages : ℕ → ℕ} {pages : List Extent}

/-- The allocations of a row of pieces, when one piece gets one more. -/
lemma perm_flatMap_cons {p q : Piece} (hp : (a :: p.allocs).Perm q.allocs) :
    (a :: (l₁ ++ p :: l₂).flatMap Piece.allocs).Perm ((l₁ ++ q :: l₂).flatMap Piece.allocs) := by
  rw [List.flatMap_append, List.flatMap_append, List.flatMap_cons, List.flatMap_cons]
  refine List.perm_middle.symm.trans ?_
  rw [← List.cons_append]
  exact (hp.append_right _).append_left _

/-- The head of a slab list is a 64-bit address. -/
lemma Shape.slabs_lt (hs : Shape h ps) (hc : c < noSlabClass) : h.slabs c < 2 ^ 64 := by
  have hchain := hs.chain c hc
  cases hpages : pagesOf c ps with
  | nil =>
    rw [hpages, isChain_nil] at hchain
    rw [hchain]
    norm_num
  | cons page rest =>
    rw [hpages] at hchain
    obtain ⟨s, -, -, hpage⟩ := mem_pagesOf.mp (hpages ▸ List.mem_cons_self : page ∈ pagesOf c ps)
    have hle : s.page + pageSize ≤ 2 ^ 64 := s.block.le
    have hpos : 0 < pageSize := by decide
    rw [hchain.1]
    omega

/-- What a call of `Allocate` does to the pieces: nothing when it returns null, and otherwise there
is one allocation more. -/
def Serves (ps ps' : List Piece) (size align : ℕ) (r : Allocated) : Prop :=
  (r.ptr = 0 ∧ r.pages = none ∧ ps' = ps) ∨
  (r.ptr ≠ 0 ∧ (r.allocation size align :: ps.flatMap Piece.allocs).Perm
    (ps'.flatMap Piece.allocs) ∧
    (r.pages.toList ++ ps.map Piece.extent).Perm (ps'.map Piece.extent))

/-- Taking a slot of a slab serves a request. -/
lemma takeSlot_serves (taken : Option Extent) (hs : Shape h (l₁ ++ .slab s :: l₂))
    (hfree : s.free ≠ []) (hcls : classOf size align = s.cls) (halign : ∃ k, align = 2 ^ k) :
    ∃ s', Shape (takeSlot h s.page taken).heap (l₁ ++ .slab s' :: l₂) ∧ s'.page = s.page ∧
      (takeSlot h s.page taken).ptr ≠ 0 ∧ (takeSlot h s.page taken).pages = taken ∧
      s'.used = (takeSlot h s.page taken).allocation size align :: s.used := by
  obtain ⟨slot, rest, hcons⟩ := List.exists_cons_of_ne_nil hfree
  obtain ⟨hptr, hpages, hshape⟩ := takeSlot_spec (a := ⟨slot, size, align, none⟩) taken hs hcons
    ⟨hcls, rfl, halign⟩
  have hslot : slot ∈ slots s.page s.cls :=
    Slab.mem_slots_of_free (hcons ▸ List.mem_cons_self)
  refine ⟨_, hshape, rfl, hptr ▸ s.slot_ne_zero hslot, hpages, ?_⟩
  have hslab : classOf size align < noSlabClass := hcls ▸ s.cls_lt
  rw [Allocated.allocation, hptr, if_pos hslab]
  rfl

/-- A request of a slab class. -/
lemma allocFromSlab_serves (hs : Shape h ps) (hc : classOf size align < noSlabClass)
    (halign : ∃ k, align = 2 ^ k) (hans : Answers (ps.map Piece.extent) allocPages) :
    ∃ r ps', allocFromSlab h (classOf size align) allocPages = .ok r ∧ Shape r.heap ps' ∧
      Serves ps ps' size align r := by
  rw [allocFromSlab]
  rcases hs.findSlab_cases hc with hnone | ⟨s, hmem, hcls, hfree, hfound⟩
  · rw [hnone, ok_bind, if_neg (by simp)]
    by_cases hzero : allocPages 0 = 0
    · rw [if_pos hzero]
      exact ⟨_, ps, rfl, hs, .inl ⟨rfl, rfl, rfl⟩⟩
    · -- a new slab, whose first free slot is taken
      rw [if_neg hzero]
      obtain ⟨hblock, hdisjoint⟩ := hans 0 (Nat.zero_le _) hzero
      obtain ⟨hholds, hnext, hframe⟩ := newSlab_spec (m := h.mem) hc hblock (hs.slabs_lt hc)
      have hshape := hs.cons_slab (s := .fresh _ _ hc hblock)
        (fun q hq => hdisjoint _ (List.mem_map_of_mem hq)) hframe hnext hholds
      have hnew : (Slab.fresh (allocPages 0) (classOf size align) hc hblock).free ≠ [] := by
        refine List.ne_nil_of_length_pos ?_
        rw [Slab.fresh, List.length_reverse, slots, List.length_map, List.length_range]
        exact slots_ne_nil _ hc
      obtain ⟨s', hshape', hpage, hptr, -, hused⟩ :=
        takeSlot_serves (some ⟨allocPages 0, 0⟩) (show Shape _ ([] ++ _ :: ps) from hshape)
          hnew rfl halign
      refine ⟨_, _, rfl, hshape', .inr ⟨hptr, ?_, ?_⟩⟩
      · rw [List.nil_append, List.flatMap_cons, Piece.allocs, hused]
        exact List.Perm.refl _
      · rw [List.nil_append, List.map_cons, Piece.extent, hpage]
        exact List.Perm.refl _
  · rw [hfound, ok_bind, if_pos s.block.ne_zero]
    obtain ⟨l₁, l₂, rfl⟩ := List.append_of_mem hmem
    obtain ⟨s', hshape, hpage, hptr, hpages, hused⟩ :=
      takeSlot_serves none hs hfree hcls.symm halign
    refine ⟨_, _, rfl, hshape, .inr ⟨hptr, perm_flatMap_cons ?_, ?_⟩⟩
    · rw [Piece.allocs, Piece.allocs, hused]
    · rw [hpages, List.map_append, List.map_cons, List.map_append, List.map_cons, Piece.extent,
        Piece.extent, hpage]
      exact List.Perm.refl _

/-- A request that no slab class is large enough for. -/
lemma allocLarge_serves (hs : Shape h ps) (hc : ¬ classOf size align < noSlabClass)
    (hreq : IsRequest size align) (hans : Answers (ps.map Piece.extent) allocPages) :
    ∃ ps', Shape (allocLarge h (effectiveSize size) (effectiveAlign align) allocPages).heap ps' ∧
      Serves ps ps' size align
        (allocLarge h (effectiveSize size) (effectiveAlign align) allocPages) := by
  obtain ⟨k, hk, halign⟩ := exists_effectiveAlign_eq hreq.pow
  have hlt := hreq.lt
  have hpow : 2 ^ k < 2 ^ 64 := by omega
  have hexp : k < 64 := (Nat.pow_lt_pow_iff_right (by norm_num)).mp hpow
  have hhalf : 2 ^ k ≤ 2 ^ 63 := Nat.pow_le_pow_right (by norm_num) (by omega)
  have hsum : effectiveAlign align + effectiveSize size < 2 ^ 64 := by
    unfold effectiveSize
    split <;> omega
  have hoffset : sub64 (add64 largeHeaderSize (effectiveAlign align)) 1 &&&
      not64 (effectiveAlign align - 1) = effectiveAlign align := by
    rw [halign]
    exact userOffset_eq hk hpow
  rw [allocLarge, hoffset]
  dsimp only
  rw [add64_of_lt hsum]
  by_cases horder : orderForBytes (effectiveAlign align + effectiveSize size) > maxOrder
  · rw [if_pos horder]
    exact ⟨ps, hs, .inl ⟨rfl, rfl, rfl⟩⟩
  rw [if_neg horder]
  obtain ⟨order, horder_eq⟩ :
      ∃ order, order = orderForBytes (effectiveAlign align + effectiveSize size) :=
    ⟨_, rfl⟩
  have hle := le_orderForBytes (Nat.le_of_not_lt horder)
  rw [← horder_eq] at horder hle ⊢
  by_cases hzero : allocPages order = 0
  · rw [if_pos hzero]
    exact ⟨ps, hs, .inl ⟨rfl, rfl, rfl⟩⟩
  rw [if_neg hzero]
  obtain ⟨hblock, hdisjoint⟩ := hans order (Nat.le_of_not_lt horder) hzero
  have hptr : add64 (allocPages order) (effectiveAlign align) =
      allocPages order + effectiveAlign align := by
    have hend : allocPages order + pageSize <<< order ≤ 2 ^ 64 := hblock.le
    have hpos := effectiveSize_pos size
    exact add64_of_lt (by omega)
  rw [hptr]
  -- the new piece
  obtain ⟨l, haddr, hlorder, halloc⟩ : ∃ l : Large, l.addr = allocPages order ∧ l.order = order ∧
      l.alloc = ⟨allocPages order + effectiveAlign align, size, align,
        some ⟨allocPages order, order⟩⟩ :=
    ⟨⟨_, _, ⟨_, size, align, _⟩, hblock, Nat.le_of_not_lt horder, rfl, hle, rfl, hreq.pow, hc⟩,
      rfl, rfl, rfl⟩
  have hheader : sub64 (allocPages order + effectiveAlign align) largeHeaderSize = l.header := by
    have hadd := l.header_add.1
    rw [halloc] at hadd
    simp only at hadd
    rw [sub64_of_le (by omega) (hptr ▸ add64_lt _ _)]
    omega
  have hextent : (Piece.large l).extent = ⟨allocPages order, order⟩ := by
    rw [Piece.extent, haddr, hlorder]
  have hholds := large_holds (m := h.mem) l
  rw [haddr, hlorder, halloc] at hholds
  rw [hheader]
  refine ⟨.large l :: ps, hs.cons_large (fun q hq => ?_) (fun i hi => ?_) hholds, .inr ⟨?_, ?_, ?_⟩⟩
  · rw [hextent]
    exact hdisjoint _ (List.mem_map_of_mem hq)
  · -- the header lies in the block
    obtain ⟨hadd, hge⟩ := l.header_add
    have hfirst := pageSize_le_shiftLeft order
    have hpage : pageSize = 4096 := rfl
    have hlarge : largeHeaderSize = 16 := rfl
    have hpos := effectiveSize_pos size
    rw [halloc] at hadd
    simp only at hadd
    rw [hextent] at hi
    have hout : ¬ (allocPages order ≤ i ∧ i < allocPages order + pageSize <<< order) := hi
    rw [haddr] at hge
    rw [Bytes.write_of_not_mem (by omega), Bytes.write_of_not_mem (by omega),
      Bytes.write_of_not_mem (by omega), Bytes.write_of_not_mem (by omega)]
  · have hne := hblock.ne_zero
    simp only at hne ⊢
    omega
  · rw [List.flatMap_cons, Piece.allocs, halloc, Allocated.allocation, if_neg hc]
    exact List.Perm.refl _
  · rw [List.map_cons, hextent]
    exact List.Perm.refl _

/-- `Allocate` returns, and serves the request or returns null. -/
lemma allocate_serves (hs : Shape h ps) (hreq : IsRequest size align)
    (hans : Answers (ps.map Piece.extent) allocPages) :
    ∃ r ps', h.allocate size align allocPages = .ok r ∧ Shape r.heap ps' ∧
      Serves ps ps' size align r := by
  rw [allocate]
  by_cases hc : classOf size align < noSlabClass
  · rw [if_pos (show pickClass _ _ < noSlabClass from hc)]
    exact allocFromSlab_serves hs hc hreq.pow hans
  · rw [if_neg (show ¬ pickClass _ _ < noSlabClass from hc)]
    obtain ⟨ps', hshape, hserves⟩ := allocLarge_serves hs hc hreq hans
    exact ⟨_, ps', rfl, hshape, hserves⟩

/-- `Deallocate` of an allocation in the heap returns, and gives back the block it came from. -/
lemma deallocate_spec (hs : Shape h ps) (ha : a ∈ ps.flatMap Piece.allocs) :
    ∃ h' ps', h.deallocate a.ptr = .ok (h', a.origin) ∧ Shape h' ps' ∧
      (a :: ps'.flatMap Piece.allocs).Perm (ps.flatMap Piece.allocs) ∧
      (a.origin.toList ++ ps'.map Piece.extent).Perm (ps.map Piece.extent) := by
  obtain ⟨p, hp, hap⟩ := List.mem_flatMap.mp ha
  obtain ⟨l₁, l₂, rfl⟩ := List.append_of_mem hp
  cases p with
  | slab s =>
    have horigin : a.origin = none := (s.fits a hap).2.1
    refine ⟨_, _, ?_, freeToSlab_spec hs hap, perm_flatMap_cons (List.perm_cons_erase hap).symm, ?_⟩
    · rw [horigin]
      exact deallocate_slab hs hap
    · rw [horigin, List.map_append, List.map_append]
      exact List.Perm.refl _
  | large l =>
    obtain rfl := List.mem_singleton.mp hap
    obtain ⟨h', hfree, hshape⟩ := freeLarge_spec hs
    refine ⟨h', _, ?_, hshape, ?_, ?_⟩
    · rw [l.origin, deallocate_large hs, hfree]
    · rw [List.flatMap_append, List.flatMap_append, List.flatMap_cons]
      exact List.perm_middle.symm
    · rw [l.origin, List.map_append, List.map_append, List.map_cons, Option.toList_some,
        List.singleton_append]
      exact List.perm_middle.symm

/-! ## Runs -/

/-- The heap of a system consists of pieces with its live allocations and its blocks. -/
def Tracks (t : System) : Prop :=
  ∃ ps, Shape t.heap ps ∧ t.live.Perm (ps.flatMap Piece.allocs) ∧ t.pages.Perm (ps.map Piece.extent)

/-- At the start there is nothing. -/
lemma tracks_start (m : Bytes) : Tracks (start m) :=
  ⟨[], ⟨fun _ _ => rfl, fun _ hp => absurd hp List.not_mem_nil, .nil⟩, .refl _, .refl _⟩

/-- An allocation does not overlap with the metadata of any piece. -/
lemma Shape.disjoint_metadata {q : Piece} (hs : Shape h ps) (ha : a ∈ ps.flatMap Piece.allocs)
    (hq : q ∈ ps) : Disjoint a.bytes q.metadata := by
  obtain ⟨p, hp, hap⟩ := List.mem_flatMap.mp ha
  obtain ⟨l₁, l₂, rfl⟩ := List.append_of_mem hp
  rcases List.mem_cons.mp (List.perm_middle.mem_iff.mp hq) with rfl | hother
  · exact Piece.disjoint_metadata hap
  · exact (hs.disjoint_of_append q hother).mono (Piece.bytes_subset hap) q.metadata_subset

/-- Answers for the same blocks in another order. -/
lemma Answers.perm {pages' : List Extent} (h : Answers pages allocPages) (hp : pages.Perm pages') :
    Answers pages' allocPages := fun order horder hne =>
  ⟨(h order horder hne).1, fun e he => (h order horder hne).2 e (hp.mem_iff.mpr he)⟩

/-- Every step keeps the pieces in order. -/
lemma Tracks.step (ht : Tracks t) (hstep : Step t t') : Tracks t' := by
  obtain ⟨ps, hshape, hlive, hpages⟩ := ht
  cases hstep with
  | allocate hreq hans hcall =>
    obtain ⟨r, ps', hr, hshape', hserves⟩ := allocate_serves hshape hreq (hans.perm hpages)
    cases Except.ok.inj (hcall.symm.trans hr)
    refine ⟨ps', hshape', ?_⟩
    rcases hserves with ⟨hnull, hnone, rfl⟩ | ⟨hptr, hallocs, hextents⟩
    · rw [if_pos hnull, hnone]
      exact ⟨hlive, hpages⟩
    · rw [if_neg hptr]
      exact ⟨(hlive.cons _).trans hallocs, (hpages.append_left _).trans hextents⟩
  | @deallocate a _ _ ha hcall =>
    obtain ⟨h', ps', hr, hshape', hallocs, hextents⟩ := deallocate_spec hshape (hlive.mem_iff.mp ha)
    obtain ⟨rfl, rfl⟩ := Prod.mk.inj (Except.ok.inj (hcall.symm.trans hr))
    refine ⟨ps', hshape', ?_, ?_⟩
    · have herase := (hlive.trans hallocs.symm).erase a
      rwa [List.erase_cons_head] at herase
    · rcases horigin : a.origin with _ | e
      · rw [horigin] at hextents
        exact hpages.trans hextents.symm
      · rw [horigin] at hextents
        have herase := (hpages.trans hextents.symm).erase e
        rwa [Option.toList_some, List.singleton_append, List.erase_cons_head] at herase
  | @write a _ ha hm =>
    refine ⟨ps, hshape.frame fun q hq i hi => hm i fun hwritten => ?_, hlive, hpages⟩
    have hbytes : i ∈ a.bytes :=
      ⟨hwritten.1, hwritten.2.trans_le (Nat.add_le_add_left (le_effectiveSize _) _)⟩
    exact Set.disjoint_left.mp (hshape.disjoint_metadata (hlive.mem_iff.mp ha) hq) hbytes hi
  | other hm =>
    exact ⟨ps, hshape.frame fun q hq i hi =>
      hm _ (hpages.mem_iff.mpr (List.mem_map_of_mem hq)) i (q.metadata_subset hi), hlive, hpages⟩

/-- The pieces are in order along every run. -/
lemma tracks_of_run {m : Bytes} (h : Run (start m) t) : Tracks t := by
  induction h with
  | refl => exact tracks_start m
  | tail _ hstep ih => exact ih.step hstep

/-! ## What the heap looks like -/

/-- The pages of the slab list of a class, as the links in memory give them. -/
def slabPages (h : Heap) (classIdx : ℕ) : List ℕ :=
  (nodes (nextSlab h.mem) loopFuel (h.slabs classIdx)).getD []

/-- The free slots of a slab page, as the links in memory give them. -/
def freeSlots (h : Heap) (page : ℕ) : List ℕ :=
  (nodes (nextSlot h.mem) loopFuel (freeList h.mem page)).getD []

/-- The pointers of the live allocations in a page. -/
def System.liveIn (t : System) (page : ℕ) : List ℕ :=
  (t.live.filter fun a => page ≤ a.ptr ∧ a.ptr < page + pageSize).map Allocation.ptr

/-- The request is one of a slab class. -/
def Allocation.IsSlab (a : Allocation) : Prop := classOf a.size a.align < noSlabClass

/-- The allocations in a slab are of its class. -/
lemma Slab.isSlab (ha : a ∈ s.used) : a.IsSlab := by
  rw [Allocation.IsSlab, (s.fits a ha).1]
  exact s.cls_lt

/-- The heap serves its live allocations. -/
structure Sound (t : System) : Prop where
  /-- Live allocations do not overlap. -/
  disjoint : t.live.Pairwise fun a b => Disjoint a.bytes b.bytes
  /-- Each has the alignment it was requested with, and the default. -/
  aligned : ∀ a ∈ t.live, max a.align defaultNewAlign ∣ a.ptr
  /-- The slab lists end. -/
  slabs : ∀ c < noSlabClass, IsChain (nextSlab t.heap.mem) (t.heap.slabs c) (slabPages t.heap c)
  /-- No allocation overlaps with a slab header. -/
  slab_header : ∀ a ∈ t.live, ∀ c < noSlabClass, ∀ page ∈ slabPages t.heap c,
    Disjoint a.bytes (Set.Ico page (page + slabHeaderSize))
  /-- No allocation overlaps with a free slot. -/
  free_slot : ∀ a ∈ t.live, ∀ c < noSlabClass, ∀ page ∈ slabPages t.heap c,
    ∀ x ∈ freeSlots t.heap page, Disjoint a.bytes (Set.Ico x (x + slotSize c))
  /-- No allocation overlaps with the header of a large one. -/
  large_header : ∀ a ∈ t.live, ∀ b ∈ t.live, ¬ b.IsSlab →
    Disjoint a.bytes (Set.Ico (b.ptr - largeHeaderSize) b.ptr)
  /-- An allocation of a slab class is in a slot of a slab of its class. -/
  slot : ∀ a ∈ t.live, a.IsSlab → ∃ page ∈ slabPages t.heap (classOf a.size a.align),
    a.ptr ∈ slots page (classOf a.size a.align)
  /-- It is given back on the slab path. -/
  free_slab : ∀ a ∈ t.live, a.IsSlab → t.heap.deallocate a.ptr = .ok (freeToSlab t.heap a.ptr, none)
  /-- Any other allocation gives back the block it was taken from. -/
  free_large : ∀ a ∈ t.live, ¬ a.IsSlab → ∃ e ∈ t.pages, a.origin = some e ∧
    ∃ h, t.heap.deallocate a.ptr = .ok (h, some e)
  /-- The free list of a slab ends. -/
  free_list : ∀ c < noSlabClass, ∀ page ∈ slabPages t.heap c,
    IsChain (nextSlot t.heap.mem) (freeList t.heap.mem page) (freeSlots t.heap page)
  /-- A slab counts its live slots. -/
  inUse : ∀ c < noSlabClass, ∀ page ∈ slabPages t.heap c,
    inUse t.heap.mem page = (t.liveIn page).length
  /-- The free and the live slots of a slab are its slots. -/
  perm : ∀ c < noSlabClass, ∀ page ∈ slabPages t.heap c,
    (freeSlots t.heap page ++ t.liveIn page).Perm (slots page c)
  /-- No slot is free or live twice. -/
  nodup : ∀ c < noSlabClass, ∀ page ∈ slabPages t.heap c,
    (freeSlots t.heap page ++ t.liveIn page).Nodup
  /-- The next request is served, or it returns null. -/
  allocate : ∀ size align allocPages, IsRequest size align → Answers t.pages allocPages →
    ∃ r, t.heap.allocate size align allocPages = .ok r

/-- The slab list of a class. -/
lemma Shape.slabPages_eq (hs : Shape h ps) (hc : c < noSlabClass) :
    slabPages h c = pagesOf c ps := by
  rw [slabPages, (hs.chain c hc).nodes_eq (hs.length_pagesOf_lt hc), Option.getD_some]

/-- The free list of a slab. -/
lemma Shape.freeSlots_eq (hs : Shape h ps) (hmem : .slab s ∈ ps) : freeSlots h s.page = s.free := by
  have hholds : s.Holds h.mem := hs.holds (.slab s) hmem
  have hlen := s.length_lt
  have hfuel : s.free.length < loopFuel := by
    rw [loopFuel]
    exact lt_of_le_of_lt (Nat.le_add_right _ _) (hlen.trans (by norm_num))
  rw [freeSlots, hholds.free.nodes_eq hfuel, Option.getD_some]

/-- The allocations in the page of a slab are those of the slab. -/
lemma Shape.liveIn_perm (hs : Shape h ps) (hmem : .slab s ∈ ps)
    (hlive : t.live.Perm (ps.flatMap Piece.allocs)) :
    (t.liveIn s.page).Perm (s.used.map Allocation.ptr) := by
  obtain ⟨l₁, l₂, rfl⟩ := List.append_of_mem hmem
  have hin : ∀ a ∈ s.used, s.page ≤ a.ptr ∧ a.ptr < s.page + pageSize := fun a ha =>
    (Piece.slab s).bytes_subset ha ⟨le_rfl, Nat.lt_add_of_pos_right (effectiveSize_pos _)⟩
  have hout : ∀ q ∈ l₁ ++ l₂, ∀ a ∈ q.allocs, ¬ (s.page ≤ a.ptr ∧ a.ptr < s.page + pageSize) :=
    fun q hq a ha hpage => Set.disjoint_left.mp (hs.disjoint_of_append q hq) hpage
      (q.bytes_subset ha ⟨le_rfl, Nat.lt_add_of_pos_right (effectiveSize_pos _)⟩)
  have hnil : ∀ l : List Piece, (∀ q ∈ l, q ∈ l₁ ++ l₂) →
      (l.flatMap Piece.allocs).filter
        (fun a => s.page ≤ a.ptr ∧ a.ptr < s.page + pageSize) = [] := by
    intro l hl
    refine List.filter_eq_nil_iff.mpr fun a ha => ?_
    obtain ⟨q, hq, haq⟩ := List.mem_flatMap.mp ha
    rw [decide_eq_true_eq]
    exact hout q (hl q hq) a haq
  refine ((hlive.filter _).trans (.of_eq ?_)).map _
  rw [List.flatMap_append, List.flatMap_cons, List.filter_append, List.filter_append,
    hnil l₁ fun q hq => List.mem_append_left _ hq, hnil l₂ fun q hq => List.mem_append_right _ hq,
    List.nil_append, List.append_nil]
  exact List.filter_eq_self.mpr fun a ha => decide_eq_true (hin a ha)

/-- The pieces say that the heap is sound. -/
lemma Tracks.sound (ht : Tracks t) : Sound t := by
  obtain ⟨ps, hs, hlive, hpages⟩ := ht
  have hpiece : ∀ {a}, a ∈ t.live → ∃ p ∈ ps, a ∈ p.allocs :=
    fun ha => List.mem_flatMap.mp (hlive.mem_iff.mp ha)
  have hslab : ∀ {c page}, c < noSlabClass → page ∈ slabPages t.heap c →
      ∃ s, .slab s ∈ ps ∧ s.cls = c ∧ s.page = page :=
    fun hc hpage => mem_pagesOf.mp (hs.slabPages_eq hc ▸ hpage)
  have hmeta : ∀ {a q}, a ∈ t.live → q ∈ ps → Disjoint a.bytes q.metadata :=
    fun ha hq => hs.disjoint_metadata (hlive.mem_iff.mp ha) hq
  constructor
  case disjoint =>
    refine (hlive.pairwise_iff fun hd => hd.symm).mpr (List.pairwise_flatMap.mpr ⟨fun p _ =>
      p.pairwise_allocs, hs.disjoint.imp fun hd a ha b hb => ?_⟩)
    exact hd.mono (Piece.bytes_subset ha) (Piece.bytes_subset hb)
  case aligned =>
    intro a ha
    obtain ⟨p, -, hap⟩ := hpiece ha
    exact effectiveAlign_eq a.align ▸ p.align_dvd hap
  case slabs =>
    intro c hc
    rw [hs.slabPages_eq hc]
    exact hs.chain c hc
  case slab_header =>
    intro a ha c hc page hpage
    obtain ⟨s, hmem, -, rfl⟩ := hslab hc hpage
    exact (hmeta ha hmem).mono_right fun i hi => .inl hi
  case free_slot =>
    intro a ha c hc page hpage x hx
    obtain ⟨s, hmem, rfl, rfl⟩ := hslab hc hpage
    rw [hs.freeSlots_eq hmem] at hx
    exact (hmeta ha hmem).mono_right fun i hi => .inr ⟨x, hx, hi⟩
  case large_header =>
    intro a ha b hb hlarge
    obtain ⟨p, hp, hbp⟩ := hpiece hb
    cases p with
    | slab s => exact absurd (Slab.isSlab hbp) hlarge
    | large l =>
      obtain rfl := List.mem_singleton.mp hbp
      refine (hmeta ha hp).mono_right fun i hi => .inr ?_
      rwa [← l.header_add.1, Nat.add_sub_cancel, l.header_add.1] at hi
  case slot =>
    intro a ha hclass
    obtain ⟨p, hp, hap⟩ := hpiece ha
    cases p with
    | slab s =>
      refine ⟨s.page, ?_, (s.fits a hap).1 ▸ Slab.mem_slots_of_used hap⟩
      rw [hs.slabPages_eq hclass]
      exact mem_pagesOf.mpr ⟨s, hp, (s.fits a hap).1.symm, rfl⟩
    | large l =>
      obtain rfl := List.mem_singleton.mp hap
      exact absurd hclass l.not_slab
  case free_slab =>
    intro a ha hclass
    obtain ⟨p, hp, hap⟩ := hpiece ha
    obtain ⟨l₁, l₂, rfl⟩ := List.append_of_mem hp
    cases p with
    | slab s => exact deallocate_slab hs hap
    | large l =>
      obtain rfl := List.mem_singleton.mp hap
      exact absurd hclass l.not_slab
  case free_large =>
    intro a ha hlarge
    obtain ⟨p, hp, hap⟩ := hpiece ha
    cases p with
    | slab s => exact absurd (Slab.isSlab hap) hlarge
    | large l =>
      obtain rfl := List.mem_singleton.mp hap
      obtain ⟨h', -, hfree, -⟩ := deallocate_spec hs (hlive.mem_iff.mp ha)
      refine ⟨_, hpages.mem_iff.mpr (List.mem_map_of_mem hp), l.origin, h', ?_⟩
      rw [hfree, l.origin]
      rfl
  case free_list =>
    intro c hc page hpage
    obtain ⟨s, hmem, -, rfl⟩ := hslab hc hpage
    rw [hs.freeSlots_eq hmem]
    exact Slab.Holds.free (hs.holds _ hmem)
  case inUse =>
    intro c hc page hpage
    obtain ⟨s, hmem, -, rfl⟩ := hslab hc hpage
    rw [(hs.liveIn_perm hmem hlive).length_eq, List.length_map]
    exact Slab.Holds.inUse (hs.holds _ hmem)
  case perm =>
    intro c hc page hpage
    obtain ⟨s, hmem, rfl, rfl⟩ := hslab hc hpage
    rw [hs.freeSlots_eq hmem]
    exact ((hs.liveIn_perm hmem hlive).append_left _).trans s.perm
  case nodup =>
    intro c hc page hpage
    obtain ⟨s, hmem, rfl, rfl⟩ := hslab hc hpage
    rw [hs.freeSlots_eq hmem]
    exact ((hs.liveIn_perm hmem hlive).append_left _).nodup_iff.mpr s.nodup
  case allocate =>
    intro size align allocPages hreq hans
    obtain ⟨r, -, hr, -⟩ := allocate_serves hs hreq (hans.perm hpages)
    exact ⟨r, hr⟩

/-- Whatever its users have allocated, freed and written, the heap serves its live allocations: they
do not overlap with each other, with the headers or with the free slots, each can be given back on
its own path, and every slab knows its slots. -/
theorem sound_of_run {m : Bytes} (h : Run (start m) t) : Sound t := (tracks_of_run h).sound

/-- A request that is served. -/
lemma step_of_allocate {r : Allocated} {e : Option Extent} (hreq : IsRequest size align)
    (hans : Answers t.pages allocPages) (hr : t.heap.allocate size align allocPages = .ok r)
    (ha : r.allocation size align = a) (hne : a.ptr ≠ 0) (he : r.pages = e) :
    Step t ⟨r.heap, a :: t.live, e.toList ++ t.pages⟩ := by
  subst ha he
  have hstep := Step.allocate hreq hans hr
  rwa [if_neg (show r.ptr ≠ 0 from hne)] at hstep

/-- What a call has returned, from the value that evaluation gives. -/
lemma exists_ok {ε β γ : Type} {x : Except ε β} {f : β → γ} {v : γ}
    (h : x.toOption.map f = some v) : ∃ y, x = .ok y ∧ f y = v := by
  cases x with
  | error e => cases h
  | ok y => exact ⟨y, rfl, Option.some.inj h⟩

/-- The page allocator has one block. -/
lemma answers_single {e : Extent} (hblock : IsBlock e)
    (hd : ∀ e' ∈ pages, Disjoint e.bytes e'.bytes) :
    Answers pages fun order => if order = e.order then e.addr else 0 := by
  intro order _ hne
  by_cases horder : order = e.order
  · subst horder
    dsimp only
    rw [if_pos rfl]
    exact ⟨hblock, hd⟩
  · exact absurd (if_neg horder) hne

/-- A slab and a large allocation, of which the first is given back. -/
theorem sound_of_run_sample : ∃ t, Run (start fun _ => 0) t ∧
    t.live = [⟨0x200010, 5000, 16, some ⟨0x200000, 1⟩⟩] ∧ slabPages t.heap 6 = [0x100000] ∧
      Sound t := by
  -- the three calls, evaluated
  obtain ⟨r₁, hr₁, hv₁⟩ := exists_ok (show ((start fun _ => 0).heap.allocate 1000 16
    fun order => if order = 0 then 0x100000 else 0).toOption.map
      (fun r => (r.allocation 1000 16, r.pages)) =
      some (⟨0x100C00, 1000, 16, none⟩, some ⟨0x100000, 0⟩) by decide +kernel)
  have hsecond : ((start fun _ => 0).heap.allocate 1000 16
      (fun order => if order = 0 then 0x100000 else 0) >>= fun r₁ =>
        r₁.heap.allocate 5000 16 fun order => if order = 1 then 0x200000 else 0).toOption.map
        (fun r => (r.allocation 5000 16, r.pages)) =
      some (⟨0x200010, 5000, 16, some ⟨0x200000, 1⟩⟩, some ⟨0x200000, 1⟩) := by decide +kernel
  have hthird : ((start fun _ => 0).heap.allocate 1000 16
      (fun order => if order = 0 then 0x100000 else 0) >>= fun r₁ =>
        r₁.heap.allocate 5000 16 (fun order => if order = 1 then 0x200000 else 0) >>= fun r₂ =>
          r₂.heap.deallocate 0x100C00).toOption.map (fun r => (r.2, slabPages r.1 6)) =
      some (none, [0x100000]) := by decide +kernel
  rw [hr₁, ok_bind] at hsecond hthird
  obtain ⟨r₂, hr₂, hv₂⟩ := exists_ok hsecond
  rw [hr₂, ok_bind] at hthird
  obtain ⟨⟨h₃, released⟩, hr₃, hv₃⟩ := exists_ok hthird
  obtain ⟨ha₁, hp₁⟩ := Prod.mk.inj hv₁
  obtain ⟨ha₂, hp₂⟩ := Prod.mk.inj hv₂
  obtain ⟨hnone, hslabs⟩ := Prod.mk.inj hv₃
  dsimp only at hnone hslabs
  subst hnone
  -- the answers of the page allocator
  have hans₁ : Answers [] fun order => if order = 0 then 0x100000 else 0 :=
    answers_single (e := ⟨0x100000, 0⟩) ⟨by decide, by decide, by decide⟩
      fun e he => absurd he List.not_mem_nil
  have hans₂ : Answers [⟨0x100000, 0⟩] fun order => if order = 1 then 0x200000 else 0 :=
    answers_single (e := ⟨0x200000, 1⟩) ⟨by decide, by decide, by decide⟩ fun e he => by
      rw [List.mem_singleton.mp he]
      exact Set.Ico_disjoint_Ico.mpr (by decide)
  have hstep₁ := step_of_allocate (t := start fun _ => 0) ⟨⟨4, rfl⟩, by decide⟩ hans₁ hr₁ ha₁
    (by decide) hp₁
  have hstep₂ := step_of_allocate (t := ⟨r₁.heap, [⟨0x100C00, 1000, 16, none⟩], [⟨0x100000, 0⟩]⟩)
    ⟨⟨4, rfl⟩, by decide⟩ hans₂ hr₂ ha₂ (by decide) hp₂
  have hstep₃ := Step.deallocate (a := ⟨0x100C00, 1000, 16, none⟩)
    (t := ⟨r₂.heap, [⟨0x200010, 5000, 16, some ⟨0x200000, 1⟩⟩, ⟨0x100C00, 1000, 16, none⟩],
      [⟨0x200000, 1⟩, ⟨0x100000, 0⟩]⟩) (List.mem_cons_of_mem _ List.mem_cons_self) hr₃
  have hrun := ((Relation.ReflTransGen.single hstep₁).tail hstep₂).tail hstep₃
  exact ⟨_, hrun, rfl, hslabs, sound_of_run hrun⟩

end Heap

end HyperBerry
