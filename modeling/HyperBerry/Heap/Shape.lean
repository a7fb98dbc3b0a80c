import HyperBerry.Heap.Pieces

/-!
# The shape of the heap

`Shape h ps` says that the heap consists of the pieces `ps`: their blocks are disjoint, memory has
their metadata, and the slab list of each class goes through the pages of that class.  Memory may
change everywhere else (`Shape.frame`).  Pieces are replaced, added and removed one at a time
(`Shape.replace`, `Shape.cons_slab`, `Shape.cons_large`, `Shape.remove_large`), and the second half
shows that the functions of the heap do just that.
-/

namespace HyperBerry

namespace Heap

open Pmm (Extent)
open LinkedList

/-- The pages of the slabs of a class, in order. -/
def pagesOf (classIdx : ℕ) (ps : List Piece) : List ℕ := ps.filterMap (Piece.slabPage classIdx)

/-- The heap consists of the given pieces. -/
structure Shape (h : Heap) (ps : List Piece) : Prop where
  /-- The slab lists. -/
  chain : ∀ c < noSlabClass, IsChain (nextSlab h.mem) (h.slabs c) (pagesOf c ps)
  /-- The metadata. -/
  holds : ∀ p ∈ ps, p.Holds h.mem
  /-- The blocks are disjoint. -/
  disjoint : ps.Pairwise fun p q => Disjoint p.extent.bytes q.extent.bytes

variable {h : Heap} {ps l₁ l₂ : List Piece} {p : Piece} {s s' : Slab} {l : Large} {m m' : Bytes}
  {c x : ℕ} {e : Extent}

/-- The pages of a class are those of its slabs. -/
lemma mem_pagesOf : x ∈ pagesOf c ps ↔ ∃ s, Piece.slab s ∈ ps ∧ s.cls = c ∧ s.page = x := by
  rw [pagesOf, List.mem_filterMap]
  constructor
  · rintro ⟨p, hp, hx⟩
    cases p with
    | slab s =>
      rw [Piece.slabPage] at hx
      split at hx
      case isTrue hc => exact ⟨s, hp, hc, Option.some.inj hx⟩
      case isFalse => cases hx
    | large l => cases hx
  · rintro ⟨s, hs, rfl, rfl⟩
    exact ⟨.slab s, hs, if_pos rfl⟩

/-- The bytes of a link of a slab list are metadata. -/
lemma nextSlab_congr (hm : ∀ i ∈ (Piece.slab s).metadata, m' i = m i) :
    nextSlab m' s.page = nextSlab m s.page := by
  refine Bytes.read_congr fun i hlo hhi => hm i (.inl ⟨by omega, ?_⟩)
  have hsize : slabHeaderSize = 32 := rfl
  omega

/-- Two blocks in a row of pieces. -/
lemma Shape.disjoint_of_append (hs : Shape h (l₁ ++ p :: l₂)) :
    ∀ q ∈ l₁ ++ l₂, Disjoint p.extent.bytes q.extent.bytes := by
  have hsymm : ∀ {p q : Piece}, Disjoint p.extent.bytes q.extent.bytes →
      Disjoint q.extent.bytes p.extent.bytes := fun hd => hd.symm
  exact (List.pairwise_cons.mp ((List.pairwise_middle hsymm).mp hs.disjoint)).1

/-- A piece with a disjoint block does not notice a change of the block. -/
lemma metadata_unchanged (hd : Disjoint e.bytes p.extent.bytes) (hm : ∀ i ∉ e.bytes, m' i = m i) :
    ∀ i ∈ p.metadata, m' i = m i :=
  fun i hi => hm i fun hmem => Set.disjoint_left.mp hd hmem (p.metadata_subset hi)

/-- Memory may change outside of the metadata. -/
lemma Shape.frame (hs : Shape h ps) (hm : ∀ p ∈ ps, ∀ i ∈ p.metadata, m' i = h.mem i) :
    Shape { h with mem := m' } ps where
  chain c hc := by
    refine (hs.chain c hc).congr fun x hx => ?_
    obtain ⟨s, hmem, -, rfl⟩ := mem_pagesOf.mp hx
    exact nextSlab_congr (hm _ hmem)
  holds p hp := (hs.holds p hp).congr (hm p hp)
  disjoint := hs.disjoint

/-- A slab changes in its page. -/
lemma Shape.replace (hs : Shape h (l₁ ++ .slab s :: l₂)) (hpage : s'.page = s.page)
    (hcls : s'.cls = s.cls) (hm : ∀ i ∉ (Piece.slab s).extent.bytes, m' i = h.mem i)
    (hnext : nextSlab m' s.page = nextSlab h.mem s.page) (hs' : s'.Holds m') :
    Shape { h with mem := m' } (l₁ ++ .slab s' :: l₂) := by
  have hothers := hs.disjoint_of_append
  have hextent : (Piece.slab s').extent = (Piece.slab s).extent := by
    rw [Piece.extent, Piece.extent, hpage]
  refine ⟨fun c hc => ?_, fun p hp => ?_, ?_⟩
  · have hpages : pagesOf c (l₁ ++ .slab s' :: l₂) = pagesOf c (l₁ ++ .slab s :: l₂) := by
      simp only [pagesOf, List.filterMap_append, List.filterMap_cons, Piece.slabPage, hpage, hcls]
    rw [hpages]
    refine (hs.chain c hc).congr fun x hx => ?_
    obtain ⟨u, hu, -, rfl⟩ := mem_pagesOf.mp hx
    rcases List.mem_append.mp hu with hu | hu
    · exact nextSlab_congr (metadata_unchanged (hothers _ (List.mem_append_left _ hu)) hm)
    rcases List.mem_cons.mp hu with heq | hu
    · cases heq
      exact hnext
    · exact nextSlab_congr (metadata_unchanged (hothers _ (List.mem_append_right _ hu)) hm)
  · have hother : ∀ q ∈ l₁ ++ l₂, q.Holds h.mem → q.Holds m' := fun q hq hq' =>
      hq'.congr (metadata_unchanged (hothers q hq) hm)
    rcases List.mem_append.mp hp with hp | hp
    · exact hother p (List.mem_append_left _ hp) (hs.holds p (List.mem_append_left _ hp))
    rcases List.mem_cons.mp hp with rfl | hp
    · exact hs'
    · exact hother p (List.mem_append_right _ hp)
        (hs.holds p (List.mem_append_right _ (List.mem_cons_of_mem _ hp)))
  · have hd := hs.disjoint
    rw [List.pairwise_append, List.pairwise_cons] at hd ⊢
    rw [hextent]
    refine ⟨hd.1, hd.2.1, fun p hp q hq => ?_⟩
    rcases List.mem_cons.mp hq with rfl | hq
    · rw [hextent]
      exact hd.2.2 p hp _ List.mem_cons_self
    · exact hd.2.2 p hp q (List.mem_cons_of_mem _ hq)

/-- A slab in a new page, at the head of its list. -/
lemma Shape.cons_slab (hs : Shape h ps)
    (hd : ∀ q ∈ ps, Disjoint (Piece.slab s).extent.bytes q.extent.bytes)
    (hm : ∀ i ∉ (Piece.slab s).extent.bytes, m' i = h.mem i)
    (hnext : nextSlab m' s.page = h.slabs s.cls) (hs' : s.Holds m') :
    Shape ⟨Function.update h.slabs s.cls s.page, m'⟩ (.slab s :: ps) := by
  have hold := hs.frame fun p hp => metadata_unchanged (hd p hp) hm
  refine ⟨fun c hc => ?_, fun p hp => ?_, List.pairwise_cons.mpr ⟨hd, hs.disjoint⟩⟩
  · have hchain := hold.chain c hc
    rw [pagesOf, List.filterMap_cons, Piece.slabPage]
    by_cases hcls : s.cls = c
    · subst hcls
      rw [if_pos rfl]
      dsimp only
      rw [Function.update_self]
      exact ⟨rfl, s.block.ne_zero, hnext ▸ hchain⟩
    · rw [if_neg hcls]
      dsimp only
      rw [Function.update_of_ne (Ne.symm hcls)]
      exact hchain
  · rcases List.mem_cons.mp hp with rfl | hp
    · exact hs'
    · exact hold.holds p hp

/-- A large allocation in a new block. -/
lemma Shape.cons_large (hs : Shape h ps)
    (hd : ∀ q ∈ ps, Disjoint (Piece.large l).extent.bytes q.extent.bytes)
    (hm : ∀ i ∉ (Piece.large l).extent.bytes, m' i = h.mem i) (hl : l.Holds m') :
    Shape { h with mem := m' } (.large l :: ps) := by
  have hold := hs.frame fun p hp => metadata_unchanged (hd p hp) hm
  refine ⟨hold.chain, fun p hp => ?_, List.pairwise_cons.mpr ⟨hd, hs.disjoint⟩⟩
  rcases List.mem_cons.mp hp with rfl | hp
  · exact hl
  · exact hold.holds p hp

/-- A large allocation goes. -/
lemma Shape.remove_large (hs : Shape h (l₁ ++ .large l :: l₂))
    (hm : ∀ i ∉ (Piece.large l).extent.bytes, m' i = h.mem i) :
    Shape { h with mem := m' } (l₁ ++ l₂) := by
  have hothers := hs.disjoint_of_append
  have hrest : Shape h (l₁ ++ l₂) := by
    refine ⟨fun c hc => ?_, fun p hp => hs.holds p ?_, ?_⟩
    · have hchain := hs.chain c hc
      rw [pagesOf, List.filterMap_append, List.filterMap_cons] at hchain
      rw [pagesOf, List.filterMap_append]
      exact hchain
    · rcases List.mem_append.mp hp with hp | hp
      · exact List.mem_append_left _ hp
      · exact List.mem_append_right _ (List.mem_cons_of_mem _ hp)
    · exact hs.disjoint.sublist ((List.sublist_cons_self _ _).append_left l₁)
  exact hrest.frame fun p hp => metadata_unchanged (hothers p hp) hm

/-! ## Looking for a slab -/

/-- No two slabs are in one page. -/
lemma Shape.pagesOf_nodup (hs : Shape h ps) (c : ℕ) : (pagesOf c ps).Nodup := by
  refine List.Pairwise.filterMap _ (fun p q hd x hx y hy hxy => ?_) hs.disjoint
  cases p with
  | large l => cases hx
  | slab s =>
    cases q with
    | large l => cases hy
    | slab u =>
      rw [Piece.slabPage] at hx hy
      split at hx
      case isFalse => cases hx
      case isTrue =>
        split at hy
        case isFalse => cases hy
        case isTrue =>
          have hpage : s.page = u.page :=
            (Option.some.inj hx).trans (hxy.trans (Option.some.inj hy).symm)
          refine Set.disjoint_left.mp hd (addr_mem_bytes _) ?_
          rw [Piece.extent, Piece.extent, hpage]
          exact addr_mem_bytes _

/-- A slab list is shorter than the fuel of its walk. -/
lemma Shape.length_pagesOf_lt (hs : Shape h ps) (hc : c < noSlabClass) :
    (pagesOf c ps).length < loopFuel := by
  have hlt := length_lt_of_nodup (hs.pagesOf_nodup c) (hs.chain c hc).ne_zero fun x hx => by
    obtain ⟨s, -, -, rfl⟩ := mem_pagesOf.mp hx
    have hle := s.block.le
    exact lt_of_lt_of_le (Nat.lt_add_of_pos_right (show 0 < pageSize <<< 0 by decide)) hle
  rwa [loopFuel]

/-- The walk over a slab list ends at a slab with a free slot, or at null. -/
lemma findSlab_walk {pages : List ℕ} {fuel hdr : ℕ} (hchain : IsChain (nextSlab m) hdr pages)
    (hfuel : pages.length < fuel) :
    ∃ r, findSlab m fuel hdr = .ok r ∧ (r = 0 ∨ r ∈ pages ∧ freeList m r ≠ 0) := by
  induction pages generalizing fuel hdr with
  | nil =>
    cases fuel with
    | zero => exact absurd hfuel (Nat.not_lt_zero _)
    | succ fuel =>
      rw [isChain_nil] at hchain
      exact ⟨hdr, if_neg fun h => h.1 hchain, .inl hchain⟩
  | cons page pages ih =>
    cases fuel with
    | zero => exact absurd hfuel (Nat.not_lt_zero _)
    | succ fuel =>
      obtain ⟨rfl, hne, hrest⟩ := hchain
      rw [findSlab]
      by_cases hfull : freeList m hdr = 0
      · rw [if_pos ⟨hne, hfull⟩]
        obtain ⟨r, hr, hcase⟩ := ih hrest (Nat.lt_of_succ_lt_succ hfuel)
        exact ⟨r, hr, hcase.imp_right fun h => ⟨List.mem_cons_of_mem _ h.1, h.2⟩⟩
      · rw [if_neg fun h => hfull h.2]
        exact ⟨hdr, rfl, .inr ⟨List.mem_cons_self, hfull⟩⟩

/-- The slab that `allocFromSlab` finds. -/
lemma Shape.findSlab_cases (hs : Shape h ps) (hc : c < noSlabClass) :
    findSlab h.mem loopFuel (h.slabs c) = .ok 0 ∨
    ∃ s, Piece.slab s ∈ ps ∧ s.cls = c ∧ s.free ≠ [] ∧
      findSlab h.mem loopFuel (h.slabs c) = .ok s.page := by
  obtain ⟨r, hr, rfl | ⟨hmem, hfree⟩⟩ := findSlab_walk (hs.chain c hc) (hs.length_pagesOf_lt hc)
  · exact .inl hr
  · obtain ⟨s, hs', hcls, rfl⟩ := mem_pagesOf.mp hmem
    refine .inr ⟨s, hs', hcls, fun hnil => hfree ?_, hr⟩
    have hchain := (hs.holds _ hs').free
    rwa [hnil] at hchain

/-! ## Taking and giving back a slot -/

/-- The slab without its first free slot, which is used for a request. -/
def Slab.take (s : Slab) (a : Allocation) (rest : List ℕ) (hfree : s.free = a.ptr :: rest)
    (ha : classOf a.size a.align = s.cls ∧ a.origin = none ∧ ∃ k, a.align = 2 ^ k) : Slab where
  page := s.page
  cls := s.cls
  free := rest
  used := a :: s.used
  cls_lt := s.cls_lt
  block := s.block
  perm := by
    have hperm := s.perm
    rw [hfree, List.cons_append] at hperm
    exact List.perm_middle.trans hperm
  fits b hb := by
    rcases List.mem_cons.mp hb with rfl | hb
    · exact ha
    · exact s.fits b hb

/-- The slab with a used slot on its free list again. -/
def Slab.give (s : Slab) (a : Allocation) (ha : a ∈ s.used) : Slab where
  page := s.page
  cls := s.cls
  free := a.ptr :: s.free
  used := s.used.erase a
  cls_lt := s.cls_lt
  block := s.block
  perm := by
    have hused := (List.perm_cons_erase ha).map Allocation.ptr
    rw [List.map_cons] at hused
    exact (List.perm_middle.symm.trans (hused.symm.append_left s.free)).trans s.perm
  fits b hb := s.fits b (List.mem_of_mem_erase hb)

/-- A slot of a slab is a 64-bit address behind the header. -/
lemma Slab.slot_bounds (hx : x ∈ slots s.page s.cls) :
    s.page + 32 ≤ x ∧ x + 16 ≤ s.page + pageSize ∧ x < 2 ^ 64 := by
  obtain ⟨hge, hle⟩ := mem_slots s.cls_lt hx
  have hsize := le_slotSize s.cls_lt
  have hend : s.page + pageSize ≤ 2 ^ 64 := s.block.le
  have hheader : slabHeaderSize = 32 := rfl
  omega

/-- A slot on the free list of a slab is not null. -/
lemma Slab.slot_ne_zero (hx : x ∈ slots s.page s.cls) : x ≠ 0 := by
  have := (s.slot_bounds hx).1
  omega

/-- Taking the first free slot of a slab. -/
lemma takeSlot_spec {a : Allocation} {rest : List ℕ} (pages : Option Extent)
    (hs : Shape h (l₁ ++ .slab s :: l₂)) (hfree : s.free = a.ptr :: rest)
    (ha : classOf a.size a.align = s.cls ∧ a.origin = none ∧ ∃ k, a.align = 2 ^ k) :
    (takeSlot h s.page pages).ptr = a.ptr ∧ (takeSlot h s.page pages).pages = pages ∧
      Shape (takeSlot h s.page pages).heap (l₁ ++ .slab (s.take a rest hfree ha) :: l₂) := by
  have hholds : s.Holds h.mem := hs.holds (.slab s) (List.mem_append_right _ List.mem_cons_self)
  have hchain := hholds.free
  rw [hfree, isChain_cons] at hchain
  obtain ⟨hhead, -, hrest⟩ := hchain
  have hpage : slabHeaderSize ≤ pageSize := by decide
  have hheader : slabHeaderSize = 32 := rfl
  refine ⟨hhead, rfl, hs.replace rfl rfl (fun i hi => ?_) ?_ ⟨?_, ?_, ?_⟩⟩
  · -- only the header changes
    have hout : ¬ (s.page ≤ i ∧ i < s.page + pageSize) := hi
    exact (Bytes.write_of_not_mem (by omega)).trans (Bytes.write_of_not_mem (by omega))
  · exact (Bytes.read_write_of_disjoint (by omega)).trans (Bytes.read_write_of_disjoint (by omega))
  · change Bytes.read _ s.page 8 = _
    rw [Bytes.read_write_of_disjoint (by omega), Bytes.read_write_of_disjoint (by omega)]
    exact hholds.magic
  · have hcount := s.length_lt
    have hused : (s.take a rest hfree ha).used.length = s.used.length + 1 := rfl
    have hlen : s.free.length = rest.length + 1 := by rw [hfree, List.length_cons]
    have hold : inUse (h.mem.write (s.page + 16) 8 (nextSlot h.mem (freeList h.mem s.page)))
        s.page = s.used.length := (Bytes.read_write_of_disjoint (by omega)).trans hholds.inUse
    rw [hused]
    change Bytes.read (Bytes.write _ (s.page + 12) 4 _) (s.page + 12) 4 = _
    rw [Bytes.read_write (by rw [hold]; omega), hold]
    omega
  · have hnew : freeList (takeSlot h s.page pages).heap.mem s.page = nextSlot h.mem a.ptr := by
      change Bytes.read (Bytes.write _ (s.page + 12) 4 _) (s.page + 16) 8 = _
      rw [Bytes.read_write_of_disjoint (by omega),
        Bytes.read_write (v := nextSlot _ _) (Bytes.read_lt _ _ _), hhead]
    change IsChain _ (freeList (takeSlot h s.page pages).heap.mem s.page) rest
    rw [hnew]
    refine hrest.congr fun x hx => ?_
    obtain ⟨hge, -, -⟩ := s.slot_bounds (s.mem_slots_of_free (hfree ▸ List.mem_cons_of_mem _ hx))
    exact (Bytes.read_write_of_disjoint (by omega)).trans (Bytes.read_write_of_disjoint (by omega))

/-- The page of a slot. -/
lemma Slab.page_of_slot (hx : x ∈ slots s.page s.cls) :
    x &&& not64 (pageSize - 1) = s.page ∧ x &&& (pageSize - 1) ≠ 0 := by
  obtain ⟨hge, hle, hlt⟩ := s.slot_bounds hx
  obtain ⟨k, hk⟩ : pageSize ∣ s.page := s.block.page_dvd
  have hpage : pageSize = 2 ^ 12 := rfl
  rw [hpage] at hk hle ⊢
  rw [and_not64_two_pow_sub_one hlt (by norm_num), Nat.and_two_pow_sub_one_eq_mod]
  omega

/-- Giving back a used slot of a slab. -/
lemma freeToSlab_spec {a : Allocation} (hs : Shape h (l₁ ++ .slab s :: l₂)) (ha : a ∈ s.used) :
    Shape (freeToSlab h a.ptr) (l₁ ++ .slab (s.give a ha) :: l₂) := by
  have hholds : s.Holds h.mem := hs.holds (.slab s) (List.mem_append_right _ List.mem_cons_self)
  have hslot := Slab.mem_slots_of_used ha
  obtain ⟨hge, hle, hlt⟩ := s.slot_bounds hslot
  have hpage : slabHeaderSize ≤ pageSize := by decide
  have hheader : slabHeaderSize = 32 := rfl
  have hmem : (freeToSlab h a.ptr).mem =
      ((h.mem.write a.ptr 8 (freeList h.mem s.page)).write (s.page + 16) 8 a.ptr).write
        (s.page + 12) 4
        ((inUse ((h.mem.write a.ptr 8 (freeList h.mem s.page)).write (s.page + 16) 8 a.ptr)
          s.page + (2 ^ 32 - 1)) % 2 ^ 32) := by
    unfold freeToSlab
    rw [(Slab.page_of_slot hslot).1]
  have hheap : freeToSlab h a.ptr = { h with mem := (freeToSlab h a.ptr).mem } := rfl
  rw [hheap, hmem]
  refine hs.replace rfl rfl (fun i hi => ?_) ?_ ⟨?_, ?_, ?_⟩
  · have hout : ¬ (s.page ≤ i ∧ i < s.page + pageSize) := hi
    rw [Bytes.write_of_not_mem (by omega), Bytes.write_of_not_mem (by omega),
      Bytes.write_of_not_mem (by omega)]
  · unfold nextSlab
    rw [Bytes.read_write_of_disjoint (by omega), Bytes.read_write_of_disjoint (by omega),
      Bytes.read_write_of_disjoint (by omega)]
  · change Bytes.read _ s.page 8 = _
    rw [Bytes.read_write_of_disjoint (by omega), Bytes.read_write_of_disjoint (by omega),
      Bytes.read_write_of_disjoint (by omega)]
    exact hholds.magic
  · have hcount := s.length_lt
    have hpos := List.length_pos_of_mem ha
    have hused : (s.give a ha).used.length = s.used.length - 1 := List.length_erase_of_mem ha
    have hold : inUse ((h.mem.write a.ptr 8 (freeList h.mem s.page)).write (s.page + 16) 8 a.ptr)
        s.page = s.used.length := by
      unfold inUse
      rw [Bytes.read_write_of_disjoint (by omega), Bytes.read_write_of_disjoint (by omega)]
      exact hholds.inUse
    rw [hused, hold]
    change Bytes.read _ (s.page + 12) 4 = _
    rw [Bytes.read_write (by omega)]
    omega
  · refine ⟨?_, s.slot_ne_zero hslot, ?_⟩
    · change Bytes.read _ (s.page + 16) 8 = _
      rw [Bytes.read_write_of_disjoint (by omega), Bytes.read_write (by omega)]
    · have hnext : nextSlot (((h.mem.write a.ptr 8 (freeList h.mem s.page)).write (s.page + 16) 8
          a.ptr).write (s.page + 12) 4
          ((inUse ((h.mem.write a.ptr 8 (freeList h.mem s.page)).write (s.page + 16) 8 a.ptr)
            s.page + (2 ^ 32 - 1)) % 2 ^ 32)) a.ptr = freeList h.mem s.page := by
        unfold nextSlot
        rw [Bytes.read_write_of_disjoint (by omega), Bytes.read_write_of_disjoint (by omega),
          Bytes.read_write (v := freeList _ _) (Bytes.read_lt _ _ _)]
      rw [hnext]
      refine hholds.free.congr fun x hx => ?_
      have hne : a.ptr ≠ x := fun heq => List.disjoint_of_nodup_append s.nodup hx
        (heq ▸ List.mem_map_of_mem ha)
      have hxslot := Slab.mem_slots_of_free hx
      obtain ⟨hxge, -, -⟩ := s.slot_bounds hxslot
      have hsize := le_slotSize s.cls_lt
      have hdisjoint : x + 8 ≤ a.ptr ∨ a.ptr + 8 ≤ x := by
        rcases slots_disjoint hslot hxslot hne with hle | hle <;> omega
      unfold nextSlot
      rw [Bytes.read_write_of_disjoint (by omega), Bytes.read_write_of_disjoint (by omega),
        Bytes.read_write_of_disjoint hdisjoint]

/-! ## A new slab -/

/-- The loop of `newSlab` links the slots, last to first, and changes nothing else. -/
lemma linkSlots_spec (base size n : ℕ) (hbase : 0 < base) (hsize : 8 ≤ size)
    (hend : base + n * size ≤ 2 ^ 64) :
    IsChain (nextSlot (linkSlots base size n m).1) (linkSlots base size n m).2
        ((List.range n).map fun i => base + i * size).reverse ∧
      (∀ i, ¬ (base ≤ i ∧ i < base + n * size) → (linkSlots base size n m).1 i = m i) ∧
      (linkSlots base size n m).2 < 2 ^ 64 := by
  induction n with
  | zero => exact ⟨rfl, fun i _ => rfl, by norm_num [linkSlots]⟩
  | succ n ih =>
    rw [Nat.add_mul, Nat.one_mul] at hend ⊢
    obtain ⟨hchain, hframe, hlt⟩ := ih (by omega)
    refine ⟨?_, fun i hi => ?_, ?_⟩
    · rw [List.range_succ, List.map_append, List.map_singleton, List.reverse_append,
        List.reverse_singleton, List.singleton_append]
      refine ⟨rfl, by omega, ?_⟩
      have hnext : nextSlot (linkSlots base size (n + 1) m).1 (base + n * size) =
          (linkSlots base size n m).2 := Bytes.read_write (by omega)
      rw [hnext]
      refine hchain.congr fun x hx => Bytes.read_write_of_disjoint (.inl ?_)
      obtain ⟨i, hi, rfl⟩ := List.mem_map.mp (List.mem_reverse.mp hx)
      have hle : (i + 1) * size ≤ n * size := Nat.mul_le_mul_right _ (List.mem_range.mp hi)
      rw [Nat.add_mul, Nat.one_mul] at hle
      omega
    · exact (Bytes.write_of_not_mem (by omega)).trans (hframe i (by omega))
    · rw [linkSlots]
      omega

/-- A slab in which every slot is free. -/
def Slab.fresh (page c : ℕ) (hc : c < noSlabClass) (block : IsBlock ⟨page, 0⟩) : Slab where
  page := page
  cls := c
  free := (slots page c).reverse
  used := []
  cls_lt := hc
  block := block
  perm := by
    rw [List.map_nil, List.append_nil]
    exact List.reverse_perm _
  fits a ha := absurd ha List.not_mem_nil

/-- `newSlab` makes a slab in which every slot is free, and the link can be set. -/
lemma newSlab_spec {page next : ℕ} (hc : c < noSlabClass) (block : IsBlock ⟨page, 0⟩)
    (hnext : next < 2 ^ 64) :
    (Slab.fresh page c hc block).Holds ((newSlab m c page).write (page + 24) 8 next) ∧
      nextSlab ((newSlab m c page).write (page + 24) 8 next) page = next ∧
      ∀ i ∉ (⟨page, 0⟩ : Extent).bytes, (newSlab m c page).write (page + 24) 8 next i = m i := by
  obtain ⟨-, hfirst, -, -, hend, -⟩ := slab_layout c hc
  have hsize := le_slotSize hc
  have hlimit : page + pageSize ≤ 2 ^ 64 := block.le
  have hheader : slabHeaderSize = 32 := rfl
  have hmagic : slabMagic < 256 ^ 8 := by decide
  obtain ⟨m₄, hm₄⟩ : ∃ m₄,
    m₄ = (((m.write page 8 slabMagic).write (page + 8) 4 c).write (page + 12) 4
    0).write (page + 24) 8 0 := ⟨_, rfl⟩
  obtain ⟨hchain, hframe, hlt⟩ := linkSlots_spec (m := m₄) (page + firstSlotOffset c)
    (slotSize c) (slotCount c) (by omega) (by omega) (by omega)
  obtain ⟨r, hr⟩ : ∃ r, r = linkSlots (page + firstSlotOffset c) (slotSize c) (slotCount c) m₄ :=
    ⟨_, rfl⟩
  rw [← hr] at hchain hframe hlt
  have hnew : newSlab m c page = r.1.write (page + 16) 8 r.2 := by
    rw [hr, hm₄]
    rfl
  -- the loop does not touch the header
  have hread : ∀ off n, off + n ≤ 32 → r.1.read (page + off) n = m₄.read (page + off) n :=
    fun off n hle => Bytes.read_congr fun i hlo hhi => hframe i (by omega)
  rw [hnew]
  refine ⟨⟨?_, ?_, ?_⟩, Bytes.read_write (by omega), fun i hi => ?_⟩
  · change Bytes.read _ (page + 0) 8 = slabMagic
    rw [Bytes.read_write_of_disjoint (by omega), Bytes.read_write_of_disjoint (by omega),
      hread 0 8 (by omega), hm₄, Bytes.read_write_of_disjoint (by omega),
      Bytes.read_write_of_disjoint (by omega), Bytes.read_write_of_disjoint (by omega)]
    exact Bytes.read_write hmagic
  · change Bytes.read _ (page + 12) 4 = 0
    rw [Bytes.read_write_of_disjoint (by omega), Bytes.read_write_of_disjoint (by omega),
      hread 12 4 (by omega), hm₄, Bytes.read_write_of_disjoint (by omega),
      Bytes.read_write (by norm_num)]
  · have hlist : freeList ((r.1.write (page + 16) 8 r.2).write (page + 24) 8 next) page = r.2 := by
      unfold freeList
      rw [Bytes.read_write_of_disjoint (by omega), Bytes.read_write (by omega)]
    change IsChain _ (freeList _ page) (slots page c).reverse
    rw [hlist]
    refine hchain.congr fun x hx => ?_
    have hslot : x ∈ slots page c := List.mem_reverse.mp hx
    obtain ⟨hge, -⟩ := mem_slots hc hslot
    unfold nextSlot
    rw [Bytes.read_write_of_disjoint (by omega), Bytes.read_write_of_disjoint (by omega)]
  · have hout : ¬ (page ≤ i ∧ i < page + pageSize) := hi
    rw [Bytes.write_of_not_mem (by omega), Bytes.write_of_not_mem (by omega),
      hframe i (by omega), hm₄, Bytes.write_of_not_mem (by omega),
      Bytes.write_of_not_mem (by omega), Bytes.write_of_not_mem (by omega),
      Bytes.write_of_not_mem (by omega)]

/-- There is a slot in a new slab. -/
lemma slots_ne_nil : ∀ c < noSlabClass, 0 < slotCount c := by decide

/-! ## Large allocations -/

/-- The order that is picked is large enough. -/
lemma orderFrom_spec {total : ℕ} (k span order : ℕ) (h : orderFrom total k span order ≤ maxOrder)
    (hk : order + k = maxOrder) (hspan : span = pageSize <<< order) :
    total ≤ pageSize <<< orderFrom total k span order := by
  induction k generalizing span order with
  | zero =>
    rw [orderFrom] at h ⊢
    split at h
    case isTrue => exact absurd h (by omega)
    case isFalse hle =>
      rw [if_neg hle, ← hspan]
      omega
  | succ k ih =>
    rw [orderFrom] at h ⊢
    split at h
    case isTrue hlt =>
      rw [if_pos hlt]
      refine ih _ _ h (by omega) ?_
      rw [hspan, Nat.shiftLeft_add]
    case isFalse hle =>
      rw [if_neg hle, ← hspan]
      omega

/-- A block of the order that is picked is large enough. -/
lemma le_orderForBytes {total : ℕ} (h : orderForBytes total ≤ maxOrder) :
    total ≤ pageSize <<< orderForBytes total :=
  orderFrom_spec maxOrder pageSize 0 h (Nat.zero_add _) rfl

/-- The offset of a large allocation is its alignment. -/
lemma userOffset_eq {k : ℕ} (hk : 4 ≤ k) (hlt : 2 ^ k < 2 ^ 64) :
    sub64 (add64 largeHeaderSize (2 ^ k)) 1 &&& not64 (2 ^ k - 1) = 2 ^ k := by
  have hexp : k < 64 := (Nat.pow_lt_pow_iff_right (by norm_num)).mp hlt
  have hle : 2 ^ k ≤ 2 ^ 63 := Nat.pow_le_pow_right (by norm_num) (by omega)
  have hge : 2 ^ 4 ≤ 2 ^ k := Nat.pow_le_pow_right (by norm_num) hk
  have hheader : largeHeaderSize = 16 := rfl
  rw [add64_of_lt (by omega), sub64_of_le (by omega) (by omega),
    and_not64_two_pow_sub_one (by omega) (by omega), hheader,
    show 16 + 2 ^ k - 1 = 15 + 2 ^ k by omega, Nat.add_div_right _ (by positivity),
    Nat.div_eq_of_lt (by omega), Nat.zero_add, Nat.one_mul]

/-- The writes of `allocLarge` make a large allocation. -/
lemma large_holds (l : Large) :
    l.Holds ((((m.write l.addr 8 0).write l.header 8 largeMagic).write (l.header + 8) 4
      l.order).write (l.header + 12) 4 (effectiveAlign l.alloc.align % 2 ^ 32)) := by
  obtain ⟨hptr, hge⟩ := l.header_add
  have hheader : largeHeaderSize = 16 := rfl
  have hmagic : largeMagic < 256 ^ 8 := by decide
  have horder : l.order < 256 ^ 4 := lt_of_le_of_lt l.order_le (by decide)
  have hoffset : effectiveAlign l.alloc.align < 2 ^ 32 := by
    have hle := l.le
    have hblock : pageSize <<< l.order ≤ pageSize <<< maxOrder := by
      rw [Nat.shiftLeft_eq, Nat.shiftLeft_eq]
      exact Nat.mul_le_mul_left _ (Nat.pow_le_pow_right (by norm_num) l.order_le)
    have hsmall : pageSize <<< maxOrder < 2 ^ 32 := by decide
    omega
  refine ⟨?_, ?_, ?_, ?_⟩
  · unfold magic
    rw [Bytes.read_write_of_disjoint (by omega), Bytes.read_write_of_disjoint (by omega),
      Bytes.read_write hmagic]
  · rw [Bytes.read_write_of_disjoint (by omega), Bytes.read_write horder]
  · rw [Nat.mod_eq_of_lt hoffset, Bytes.read_write (by omega)]
  · -- the first word is the magic number of the header, or null
    unfold magic
    rw [Bytes.read_write_of_disjoint (by omega), Bytes.read_write_of_disjoint (by omega)]
    by_cases heq : l.header = l.addr
    · rw [heq, Bytes.read_write hmagic]
      decide
    · have hfar : l.addr + 8 ≤ l.header := by
        obtain ⟨k, hk, halign⟩ := exists_effectiveAlign_eq l.align
        have hne : k ≠ 4 := by
          rintro rfl
          apply heq
          rw [Large.header, halign]
          rfl
        have hle : 2 ^ 5 ≤ 2 ^ k := Nat.pow_le_pow_right (by norm_num) (by omega)
        rw [Large.header, halign]
        omega
      rw [Bytes.read_write_of_disjoint (.inl hfar), Bytes.read_write (by norm_num)]
      decide

/-- `freeLarge` gives back the block of a large allocation. -/
lemma freeLarge_spec (hs : Shape h (l₁ ++ .large l :: l₂)) :
    ∃ h', freeLarge h l.alloc.ptr = .ok (h', some ⟨l.addr, l.order⟩) ∧ Shape h' (l₁ ++ l₂) := by
  have hholds : l.Holds h.mem := hs.holds (.large l) (List.mem_append_right _ List.mem_cons_self)
  obtain ⟨hptr, hge⟩ := l.header_add
  have hheader : largeHeaderSize = 16 := rfl
  have hle := l.le
  have hend : l.addr + pageSize <<< l.order ≤ 2 ^ 64 := l.block.le
  have hpos := effectiveSize_pos l.alloc.size
  have hptreq := l.ptr_eq
  have hhdr : sub64 l.alloc.ptr largeHeaderSize = l.header := by
    rw [sub64_of_le (by omega) (by omega)]
    omega
  have haddr : sub64 l.alloc.ptr (effectiveAlign l.alloc.align) = l.addr := by
    rw [sub64_of_le (by omega) (by omega)]
    omega
  refine ⟨{ h with mem := h.mem.write l.header 8 0 }, ?_, hs.remove_large fun i hi => ?_⟩
  · rw [freeLarge, hhdr, hholds.order, hholds.offset]
    dsimp only
    rw [haddr]
    exact if_neg (not_not.mpr hholds.magic)
  · have hout : ¬ (l.addr ≤ i ∧ i < l.addr + pageSize <<< l.order) := hi
    exact Bytes.write_of_not_mem (by omega)

/-! ## `Deallocate` -/

/-- A slab allocation goes to its slab. -/
lemma deallocate_slab {a : Allocation} (hs : Shape h (l₁ ++ .slab s :: l₂)) (ha : a ∈ s.used) :
    deallocate h a.ptr = .ok (freeToSlab h a.ptr, none) := by
  have hholds : s.Holds h.mem := hs.holds (.slab s) (List.mem_append_right _ List.mem_cons_self)
  have hslot := Slab.mem_slots_of_used ha
  obtain ⟨hpage, hoff⟩ := Slab.page_of_slot hslot
  rw [deallocate, if_neg (s.slot_ne_zero hslot), if_neg hoff, hpage, if_pos hholds.magic]

/-- A large allocation goes to the page allocator. -/
lemma deallocate_large (hs : Shape h (l₁ ++ .large l :: l₂)) :
    deallocate h l.alloc.ptr = freeLarge h l.alloc.ptr := by
  have hholds : l.Holds h.mem := hs.holds (.large l) (List.mem_append_right _ List.mem_cons_self)
  obtain ⟨hptr, hge⟩ := l.header_add
  obtain ⟨k, hk, halign⟩ := exists_effectiveAlign_eq l.align
  obtain ⟨j, hj⟩ : pageSize ∣ l.addr := l.block.page_dvd
  have hheader : largeHeaderSize = 16 := rfl
  have hend : l.addr + pageSize <<< l.order ≤ 2 ^ 64 := l.block.le
  have hle := l.le
  have hpos := effectiveSize_pos l.alloc.size
  have hptreq := l.ptr_eq
  have hlt : l.alloc.ptr < 2 ^ 64 := by omega
  have hhdr : sub64 l.alloc.ptr largeHeaderSize = l.header := by
    rw [sub64_of_le (by omega) hlt]
    omega
  have hpage : pageSize = 2 ^ 12 := rfl
  rw [deallocate, if_neg (by omega)]
  by_cases hbig : 12 ≤ k
  · -- aligned to a page
    obtain ⟨i, hi⟩ : 2 ^ 12 ∣ 2 ^ k := pow_dvd_pow 2 hbig
    rw [if_pos]
    rw [hpage, Nat.and_two_pow_sub_one_eq_mod, hptreq, halign, hj, hi, hpage, ← Nat.mul_add,
      Nat.mul_mod_right]
  · -- in the first page, which has no slab magic
    have hsmall : 2 ^ k ≤ 2 ^ 11 := Nat.pow_le_pow_right (by norm_num) (by omega)
    have hlarge : 2 ^ 4 ≤ 2 ^ k := Nat.pow_le_pow_right (by norm_num) hk
    rw [halign, hj, hpage] at hptreq
    have hfirst : l.alloc.ptr &&& not64 (pageSize - 1) = l.addr := by
      rw [hpage, and_not64_two_pow_sub_one hlt (by norm_num), hj, hpage]
      omega
    have hoff : l.alloc.ptr &&& (pageSize - 1) ≠ 0 := by
      rw [hpage, Nat.and_two_pow_sub_one_eq_mod]
      omega
    rw [if_neg hoff, hfirst, if_neg hholds.first, hhdr, if_pos hholds.magic]

end Heap

end HyperBerry
