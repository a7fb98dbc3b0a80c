import HyperBerry.Heap.Run

/-!
# The bytes behind a pointer of the heap

What `Allocate` returns lies in the slot or in the block that backs it, as long as the size behind
the rounded header does not wrap around; where it does, the block is far smaller than the request.
-/

namespace HyperBerry

namespace Heap

open Pmm (Extent)

/-- The bytes of a request lie in what backs the pointer: a slot of a slab page that the heap holds,
or the block that was taken, whose order and start are recorded in the header. -/
def Backed (t : System) (r : Allocated) (size align : ℕ) : Prop :=
  if classOf size align < noSlabClass then
    ∃ page, ⟨page, 0⟩ ∈ r.pages.toList ++ t.pages ∧ r.ptr ∈ slots page (classOf size align) ∧
      size ≤ slotSize (classOf size align)
  else
    ∃ e, r.pages = some e ∧ e.addr ≤ r.ptr ∧ r.ptr + size ≤ e.addr + pageSize <<< e.order ∧
      r.heap.mem.read (r.ptr - largeHeaderSize + 8) 4 = e.order ∧
      r.ptr - r.heap.mem.read (r.ptr - largeHeaderSize + 12) 4 = e.addr

variable {t : System} {size align : ℕ} {allocPages : ℕ → ℕ} {r : Allocated}

/-- A request that does not wrap around is backed. -/
lemma backed_of_isRequest (ht : Tracks t) (hreq : IsRequest size align)
    (hans : Answers t.pages allocPages) (hrun : t.heap.allocate size align allocPages = .ok r)
    (hptr : r.ptr ≠ 0) : Backed t r size align := by
  obtain ⟨ps, hs, -, hpages⟩ := ht
  obtain ⟨r', ps', hrun', hshape, hserves⟩ := allocate_serves hs hreq (hans.perm hpages)
  obtain rfl : r' = r := Except.ok.inj (hrun'.symm.trans hrun)
  rcases hserves with ⟨hzero, -⟩ | ⟨-, hallocs, hextents⟩
  · exact absurd hzero hptr
  obtain ⟨p, hp, hap⟩ := List.mem_flatMap.mp (hallocs.subset List.mem_cons_self)
  have hmem : p.extent ∈ r'.pages.toList ++ t.pages := by
    refine ((hpages.append_left _).trans hextents).symm.subset ?_
    exact List.mem_map_of_mem hp
  cases p with
  | slab s =>
    have hclass : classOf size align = s.cls := (s.fits _ hap).1
    have hslab : classOf size align < noSlabClass := hclass ▸ s.cls_lt
    rw [Backed, if_pos hslab, hclass]
    refine ⟨s.page, hmem, s.mem_slots_of_used hap, ?_⟩
    exact (le_effectiveSize size).trans (s.size_le hap)
  | large l =>
    have halloc : r'.allocation size align = l.alloc := List.mem_singleton.mp hap
    have hlarge : ¬ classOf size align < noSlabClass := by
      have hnot := l.not_slab
      rw [← halloc] at hnot
      exact hnot
    have horigin : r'.pages = some ⟨l.addr, l.order⟩ := by
      rw [← l.origin, ← halloc, Allocated.allocation, if_neg hlarge]
    have hsize : l.alloc.size = size := by rw [← halloc]; rfl
    have hptr_eq : r'.ptr = l.alloc.ptr := by rw [← halloc]; rfl
    have hholds : l.Holds r'.heap.mem := hshape.holds _ hp
    have hheader : r'.ptr - largeHeaderSize = l.header := by
      have hadd := l.header_add.1
      omega
    have hstart := l.ptr_eq
    have hle := l.le
    have hsz := le_effectiveSize l.alloc.size
    rw [Backed, if_neg hlarge]
    refine ⟨_, horigin, ?_, ?_, ?_, ?_⟩
    · dsimp only
      omega
    · dsimp only
      omega
    · rw [hheader]
      exact hholds.order
    · rw [hheader, hholds.offset]
      dsimp only
      omega

/-- A request of a slab class does not wrap around. -/
lemma sum_lt_of_slab (h : classOf size align < noSlabClass) :
    effectiveAlign align + effectiveSize size < 2 ^ 64 := by
  obtain ⟨hsize, halign⟩ := pickClass_fits rfl h
  have hslots : ∀ c < noSlabClass, slotSize c ≤ maxSlabSize := by decide
  have hmax : maxSlabSize = 1024 := rfl
  have hle : slotSize (classOf size align) ≤ maxSlabSize := hslots _ h
  unfold classOf at hle
  omega

/-- The blocks of the page allocator are small. -/
lemma shiftLeft_lt {order : ℕ} (h : order ≤ maxOrder) : pageSize <<< order < 2 ^ 32 := by
  have hle : pageSize <<< order ≤ pageSize <<< maxOrder := by
    rw [Nat.shiftLeft_eq, Nat.shiftLeft_eq]
    exact Nat.mul_le_mul_left _ (Nat.pow_le_pow_right (by norm_num) h)
  exact lt_of_le_of_lt hle (by decide)

/-- A large request that is not refused: the pointer, and the block that was taken. -/
lemma allocLarge_cases (h : Heap) {k : ℕ} (hk : 4 ≤ k) (hlt : 2 ^ k < 2 ^ 64) {size : ℕ}
    (hptr : (allocLarge h size (2 ^ k) allocPages).ptr ≠ 0) :
    ∃ order ≤ maxOrder, allocPages order ≠ 0 ∧
      (allocLarge h size (2 ^ k) allocPages).ptr = add64 (allocPages order) (2 ^ k) ∧
      (allocLarge h size (2 ^ k) allocPages).pages = some ⟨allocPages order, order⟩ := by
  rw [allocLarge, userOffset_eq hk hlt] at hptr ⊢
  dsimp only at hptr ⊢
  split_ifs at hptr ⊢ with horder hzero
  · exact absurd rfl hptr
  · exact absurd rfl hptr
  · exact ⟨_, Nat.le_of_not_lt horder, hzero, rfl, rfl⟩

/-- A request that wraps around and is not refused has a block that is too small. -/
lemma not_backed_of_wrap (hsize : size < 2 ^ 64) (halign : ∃ k, align = 2 ^ k)
    (hlt : align < 2 ^ 64)
    (hwrap : 2 ^ 64 ≤ effectiveAlign align + effectiveSize size) (hans : Answers t.pages allocPages)
    (hrun : t.heap.allocate size align allocPages = .ok r) (hptr : r.ptr ≠ 0) :
    ¬Backed t r size align := by
  have hlarge : ¬classOf size align < noSlabClass := fun h => absurd (sum_lt_of_slab h) (by omega)
  obtain ⟨k, hk, heff⟩ := exists_effectiveAlign_eq halign
  have hefflt : effectiveAlign align < 2 ^ 64 := by
    rw [effectiveAlign_eq]
    exact max_lt hlt (by decide)
  have hexp : k < 64 := (Nat.pow_lt_pow_iff_right (a := 2) (by norm_num)).mp (heff ▸ hefflt)
  have hhalf : 2 ^ k ≤ 2 ^ 63 := Nat.pow_le_pow_right (by norm_num) (by omega)
  -- the size is not zero, since half of the address space and one byte do not wrap around
  have hsize_eq : effectiveSize size = size := by
    unfold effectiveSize at hwrap ⊢
    split_ifs at hwrap ⊢ <;> omega
  have hr : allocLarge t.heap (effectiveSize size) (2 ^ k) allocPages = r := by
    rw [allocate, if_neg (show ¬pickClass _ _ < noSlabClass from hlarge), heff] at hrun
    exact Except.ok.inj hrun
  obtain ⟨order, horder, hzero, hptr_eq, hpages⟩ :=
    allocLarge_cases t.heap hk (heff ▸ hefflt) (hr ▸ hptr)
  rw [hr] at hptr_eq hpages
  have hend : allocPages order + pageSize <<< order ≤ 2 ^ 64 := (hans order horder hzero).1.le
  have hspan := shiftLeft_lt horder
  rw [Backed, if_neg hlarge]
  rintro ⟨e, he, hlo, hhi, -⟩
  obtain rfl := Option.some.inj (hpages.symm.trans he)
  dsimp only at hlo hhi
  unfold add64 at hptr_eq
  omega

/-- **Bytes behind a pointer.**  For every state that calls without a wrap-around lead to, and every
request that is not refused: the bytes of the request lie in what backs them, and the header leads
back to the block, if and only if the size behind the rounded header does not wrap around. -/
theorem backed_iff {m : Bytes} (ht : Run (start m) t) (hsize : size < 2 ^ 64)
    (halign : ∃ k, align = 2 ^ k) (hlt : align < 2 ^ 64) (hans : Answers t.pages allocPages)
    (hrun : t.heap.allocate size align allocPages = .ok r) (hptr : r.ptr ≠ 0) :
    Backed t r size align ↔ effectiveAlign align + effectiveSize size < 2 ^ 64 := by
  constructor
  · intro hbacked
    by_contra hwrap
    exact not_backed_of_wrap hsize halign hlt (Nat.le_of_not_lt hwrap) hans hrun hptr hbacked
  · intro hsum
    have hle := le_effectiveSize size
    exact backed_of_isRequest (tracks_of_run ht) ⟨halign, by omega⟩ hans hrun hptr

/-- The page allocator has one page. -/
lemma answers_page : Answers [] fun order => if order = 0 then 0x100000 else 0 :=
  answers_single (e := ⟨0x100000, 0⟩) ⟨by decide, by decide, by decide⟩
    fun e he => absurd he List.not_mem_nil

/-- A request of 3000 bytes in a heap that has not been used before. -/
theorem backed_page : ∃ r, (start fun _ => 0).heap.allocate 3000 16
      (fun order => if order = 0 then 0x100000 else 0) = .ok r ∧ r.ptr = 0x100010 ∧
    (Backed (start fun _ => 0) r 3000 16 ↔ effectiveAlign 16 + effectiveSize 3000 < 2 ^ 64) := by
  obtain ⟨r, hr, hptr⟩ := exists_ok (show ((start fun _ => 0).heap.allocate 3000 16
    fun order => if order = 0 then 0x100000 else 0).toOption.map (fun r => r.ptr) =
      some 0x100010 by decide +kernel)
  refine ⟨r, hr, hptr, ?_⟩
  exact backed_iff .refl (by norm_num) ⟨4, rfl⟩ (by norm_num) answers_page hr (by rw [hptr]; decide)

/-- A request of all but 16 bytes of the address space wraps around to nothing: it gets one page. -/
theorem one_page_for_size_max : ∃ r, (start fun _ => 0).heap.allocate (2 ^ 64 - 16) 16
      (fun order => if order = 0 then 0x100000 else 0) = .ok r ∧ r.ptr = 0x100010 ∧
    r.pages = some ⟨0x100000, 0⟩ ∧ ¬Backed (start fun _ => 0) r (2 ^ 64 - 16) 16 := by
  obtain ⟨r, hr, hv⟩ := exists_ok (show ((start fun _ => 0).heap.allocate (2 ^ 64 - 16) 16
    fun order => if order = 0 then 0x100000 else 0).toOption.map (fun r => (r.ptr, r.pages)) =
      some (0x100010, some ⟨0x100000, 0⟩) by decide +kernel)
  obtain ⟨hptr, hpages⟩ := Prod.mk.inj hv
  refine ⟨r, hr, hptr, hpages, ?_⟩
  exact not_backed_of_wrap (by norm_num) ⟨4, rfl⟩ (by norm_num) (by decide) answers_page hr
    (by rw [hptr]; decide)

end Heap

end HyperBerry
