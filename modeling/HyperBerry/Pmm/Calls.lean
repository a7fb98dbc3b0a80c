import HyperBerry.Pmm.Invariant

/-!
# `AllocPages` and `FreePages`

Specifications of the two calls against the allocator invariant.  An allocation turns a free block
into a held one of the requested order, splitting it on the way; it fails exactly when the lists of
the requested order and above are empty, and then changes nothing.  A release turns a held block
into free ones, joining it with its buddy as long as the buddy is free.  Both always return.
-/

namespace HyperBerry

namespace Pmm

@[simp] lemma listPop_base (s : Pmm) (o : ℕ) : (s.listPop o).1.base = s.base := rfl
@[simp] lemma listPop_size (s : Pmm) (o : ℕ) : (s.listPop o).1.size = s.size := rfl
@[simp] lemma listPop_bitmap (s : Pmm) (o : ℕ) : (s.listPop o).1.bitmap = s.bitmap := rfl

variable {base n : ℕ} {P : Set ℕ} {s : Pmm} {free : ℕ → List ℕ} {held : List Block} {b : Block}

/-- The bits only depend on the bytes of the bitmap. -/
lemma bitAt_congr {s s' : Pmm} (h : s'.bitmap = s.bitmap) (i : ℕ) : s'.bitAt i = s.bitAt i := by
  unfold bitAt
  rw [h]

/-- Bytes from the first page of a block to its end. -/
lemma pageSize_shiftLeft (o : ℕ) : pageSize <<< o = pageSize * 2 ^ o := Nat.shiftLeft_eq _ _

/-- The address where a block ends. -/
lemma pageAddr_add_blockSize (base p o : ℕ) :
    pageAddr base p + pageSize <<< o = pageAddr base (p + 2 ^ o) := by
  rw [pageSize_shiftLeft, pageAddr, pageAddr, Nat.mul_add, Nat.add_assoc]

/-- Freeing a held block without joining it, after its bit has been flipped. -/
lemma Inv.give_toggled (h : Inv base n P s free (b :: held))
    (hbuddy : NoAlias n P → b.order < maxOrder → b.buddy.page ∉ free b.order) :
    Inv base n P ((s.toggled (pairBit n b.order b.page)).listPush (pageAddr base b.page) b.order)
      (Function.update free b.order (b.page :: free b.order)) held :=
  h.give (s.toggled (pairBit n b.order b.page)).bitmap (h.bits_give fun _ => rfl) hbuddy

/-! ## Allocation -/

/-- Popping a block and flipping its bit. -/
lemma Inv.pop (h : Inv base n P s free held) {o p : ℕ} {ps : List ℕ} (ho : o ≤ maxOrder)
    (hfree : free o = p :: ps) :
    ∃ s', (s.listPop o).2 = pageAddr base p ∧
      (∃ v, (s.listPop o).1.bitmapToggle (pageAddr base p) o = some (s', v)) ∧
      Inv base n P s' (Function.update free o ps) (⟨o, p⟩ :: held) := by
  have hb : (⟨o, p⟩ : Block) ∈ blocksOf maxOrder free :=
    mem_blocksOf.mpr ⟨ho, by rw [hfree]; exact List.mem_cons_self⟩
  have hbm : (⟨o, p⟩ : Block) ∈ blocksOf maxOrder free ++ held := List.mem_append_left _ hb
  obtain ⟨haddr, hlists⟩ := h.lists.pop ho hfree
  have hpool := h.pool_of_mem hbm
  have herase : (free o).erase p = ps := by rw [hfree, List.erase_cons_head]
  have htoggle := Pool.bitmapToggle_eq (s := (s.listPop o).1) (b := ⟨o, p⟩)
    ⟨hpool.size_eq, hpool.pages_le, hpool.end_lt⟩ h.base_eq ho (h.tiling.bound _ hbm)
  refine ⟨_, haddr, ⟨_, htoggle⟩, ?_⟩
  have htake := h.take hb ((s.listPop o).1.toggled (pairBit n o p)) h.base_eq rfl
    (by rw [herase]; exact hlists)
    (h.bits_take hb fun i => bitAt_congr (toggled_bitmap_congr (listPop_bitmap s o) _) i)
  rw [herase] at htake
  exact htake

/-- The splitting loop frees the upper halves and keeps the lowest block of the requested order.
The lists below that order stay as they are. -/
lemma Inv.splitLoop (order p : ℕ) : ∀ (k : ℕ) {s : Pmm} {free : ℕ → List ℕ},
    Inv base n P s free (⟨order + k, p⟩ :: held) →
    ∃ s' free', Pmm.splitLoop (pageAddr base p) order k s = some s' ∧
      Inv base n P s' free' (⟨order, p⟩ :: held) ∧ ∀ o < order, free' o = free o := by
  intro k
  induction k with
  | zero => exact fun {s free} h => ⟨s, free, rfl, h, fun _ _ => rfl⟩
  | succ k ih =>
    intro s free h
    have hbm : (⟨order + k + 1, p⟩ : Block) ∈
        blocksOf maxOrder free ++ ⟨order + k + 1, p⟩ :: held :=
      List.mem_append_right _ List.mem_cons_self
    have hdvd : 2 ^ (order + k + 1) ∣ p := h.tiling.aligned _ hbm
    have hend : pageAddr base (p + 2 ^ (order + k + 1)) < 2 ^ 64 := h.block_end_lt hbm
    have hup : (⟨order + k, p + 2 ^ (order + k)⟩ : Block).buddy = ⟨order + k, p⟩ := by
      rw [← Block.buddy_lower hdvd, Block.buddy_buddy]
    -- the upper half is freed, the lower half stays held
    have hs : Inv base n P s free
        (⟨order + k, p + 2 ^ (order + k)⟩ :: ⟨order + k, p⟩ :: held) :=
      h.split.held_perm (List.Perm.swap _ _ _)
    have hum : (⟨order + k, p + 2 ^ (order + k)⟩ : Block) ∈ blocksOf maxOrder free ++
        ⟨order + k, p + 2 ^ (order + k)⟩ :: ⟨order + k, p⟩ :: held :=
      List.mem_append_right _ List.mem_cons_self
    have haddr : add64 (pageAddr base p) (pageSize <<< (order + k)) =
        pageAddr base (p + 2 ^ (order + k)) := by
      rw [pageSize_shiftLeft]
      unfold pageAddr at hend ⊢
      have hle : pageSize * (p + 2 ^ (order + k)) ≤ pageSize * (p + 2 ^ (order + k + 1)) :=
        Nat.mul_le_mul_left _ (by rw [pow_succ]; omega)
      rw [Nat.mul_add] at hle ⊢
      rw [add64_of_lt (by omega), Nat.add_assoc]
    have hlow := h.split.held_not_free (order + k) (hs.tiling.order_le _ hum)
    have hgive := hs.give_toggled fun _ _ => by rw [hup]; exact hlow
    obtain ⟨s', free', hrun, hinv, hbelow⟩ := ih hgive
    refine ⟨s', free', ?_, hinv, fun o ho => ?_⟩
    · rw [Pmm.splitLoop, haddr, hs.bitmapToggle_eq hum]
      exact hrun
    · rw [hbelow o ho, Function.update_of_ne (by simp only; omega)]

/-- The order that `AllocPages` takes the block from. -/
lemma Inv.findOrder (h : Inv base n P s free held) (order : ℕ) :
    (∃ found p ps, s.findOrder order = some found ∧ order ≤ found ∧ found ≤ maxOrder ∧
      free found = p :: ps ∧ ∀ o, order ≤ o → o < found → free o = []) ∨
    (s.findOrder order = none ∧ ∀ o, order ≤ o → o ≤ maxOrder → free o = []) := by
  have hhead : ∀ o ≤ maxOrder, s.freeLists o = 0 ↔ free o = [] := by
    intro o ho
    have hchain := h.lists o ho
    cases hf : free o with
    | nil =>
      rw [hf] at hchain
      exact iff_of_true hchain rfl
    | cons p ps =>
      rw [hf, List.map_cons] at hchain
      exact iff_of_false (fun h0 => hchain.2.1 (hchain.1.symm.trans h0)) (by simp)
  cases hfind : s.findOrder order with
  | some found =>
    left
    unfold Pmm.findOrder at hfind
    have hmem := List.mem_of_find?_eq_some hfind
    have hne := List.find?_some hfind
    rw [List.mem_range'_1] at hmem
    simp only [ne_eq, decide_not, Bool.not_eq_true', decide_eq_false_iff_not] at hne
    have hle : found ≤ maxOrder := by omega
    rw [hhead found hle] at hne
    obtain ⟨p, ps, hps⟩ := List.exists_cons_of_ne_nil hne
    refine ⟨found, p, ps, rfl, hmem.1, hle, hps, fun o ho hlt => ?_⟩
    have hnot : ¬ (decide (s.freeLists o ≠ 0) = true) := by
      rw [List.find?_range'_eq_some] at hfind
      simpa using hfind.2.2 o ho hlt
    rw [← hhead o (by omega)]
    simpa using hnot
  | none =>
    right
    refine ⟨rfl, fun o ho hle => ?_⟩
    unfold Pmm.findOrder at hfind
    rw [List.find?_eq_none] at hfind
    have := hfind o (List.mem_range'_1.mpr ⟨ho, by omega⟩)
    rw [← hhead o hle]
    simpa using this

/-- `AllocPages` fails without a change exactly when no large enough block is free, and otherwise
hands out a block of the requested order.  Smaller free blocks stay as they are. -/
theorem Inv.allocPages (h : Inv base n P s free held) (order : ℕ) :
    (s.allocPages order = some (s, 0) ∧ ∀ o, order ≤ o → o ≤ maxOrder → free o = []) ∨
    (∃ s' free' p, s.allocPages order = some (s', pageAddr base p) ∧ pageAddr base p ≠ 0 ∧
      Inv base n P s' free' (⟨order, p⟩ :: held) ∧ ∀ o < order, free' o = free o) := by
  by_cases hord : order > maxOrder
  · left
    refine ⟨by simp [Pmm.allocPages, hord], fun o ho hle => ?_⟩
    omega
  · rcases h.findOrder order with ⟨found, p, ps, hfind, hle, hmax, hps, -⟩ | ⟨hnone, hall⟩
    · right
      obtain ⟨s₁, haddr, ⟨v, htoggle⟩, hinv⟩ := h.pop hmax hps
      obtain ⟨k, rfl⟩ := Nat.exists_eq_add_of_le hle
      obtain ⟨s', free', hrun, hinv', hbelow⟩ := Inv.splitLoop order p k hinv
      refine ⟨s', free', p, ?_, ?_, hinv', fun o ho => ?_⟩
      · have hk : order + k - order = k := by omega
        simp [Pmm.allocPages, hord, hfind, haddr, htoggle, hk, hrun]
      · have hm : (⟨order + k, p⟩ : Block) ∈ blocksOf maxOrder free ++ held :=
          List.mem_append_left _ (mem_blocksOf.mpr ⟨hmax, by rw [hps]; exact List.mem_cons_self⟩)
        exact h.ne_zero p (h.pages_subset hm (Block.page_mem_pages _))
      · rw [hbelow o ho, Function.update_of_ne (by omega)]
    · left
      exact ⟨by simp [Pmm.allocPages, hord, hnone], hall⟩

/-! ## Release -/

/-- The address computed for the buddy of a block. -/
lemma buddyOf_pageAddr (hbase : s.base = base) (hlt : pageAddr base b.page < 2 ^ 64) :
    s.buddyOf (pageAddr base b.page) b.order = add64 (pageSize * b.buddy.page) base := by
  have hsub : sub64 (pageAddr base b.page) s.base = pageSize * b.page := by
    unfold pageAddr at hlt ⊢
    rw [hbase, sub64_of_le (by omega) hlt]
    omega
  have hxor : pageSize * b.page ^^^ pageSize * 2 ^ b.order =
      pageSize * (b.page ^^^ 2 ^ b.order) := by
    have h := Nat.shiftLeft_xor_distrib (a := b.page) (b := 2 ^ b.order) (i := 12)
    simp only [Nat.shiftLeft_eq] at h
    unfold pageSize
    rw [Nat.mul_comm 0x1000, Nat.mul_comm 0x1000, Nat.mul_comm 0x1000]
    exact h.symm
  rw [Pmm.buddyOf, hsub, pageSize_shiftLeft, hxor, hbase]
  rfl

/-- The buddy address is on a free list exactly when the buddy is free, also when it lies outside
the pool or its computation wraps. -/
lemma Inv.buddyOf_mem_iff (h : Inv base n P s free held)
    (hb : b ∈ blocksOf maxOrder free ++ held) :
    s.buddyOf (pageAddr base b.page) b.order ∈ (free b.order).map (pageAddr base) ↔
      b.buddy.page ∈ free b.order := by
  have hpool := h.pool_of_mem hb
  have hend := hpool.end_lt
  have hn := hpool.pages_le
  have ho : b.order ≤ maxOrder := h.tiling.order_le b hb
  rw [buddyOf_pageAddr h.base_eq (h.addr_lt hb)]
  have hbpage := h.tiling.bound b hb
  have hsmall : b.buddy.page < 2 ^ 22 := by
    have hpow : 2 ^ b.order ≤ 2 ^ 16 := Nat.pow_le_pow_right (by norm_num) ho
    have hpos : 0 < 2 ^ b.order := by positivity
    rcases Block.buddy_cases (h.tiling.aligned b hb) with ⟨-, hpage⟩ | ⟨-, hpage⟩
    · omega
    · omega
  have hfree : ∀ r ∈ free b.order, r < n := by
    intro r hr
    have hm : (⟨b.order, r⟩ : Block) ∈ blocksOf maxOrder free ++ held :=
      List.mem_append_left _ (mem_blocksOf.mpr ⟨ho, hr⟩)
    have := h.tiling.bound _ hm
    have hpos : 0 < 2 ^ b.order := by positivity
    simp only at this
    omega
  unfold pageSize at hend
  constructor
  · intro hmem
    obtain ⟨r, hr, heq⟩ := List.mem_map.mp hmem
    have hrn := hfree r hr
    have : r = b.buddy.page := by
      unfold pageAddr pageSize add64 at heq
      omega
    rwa [← this]
  · intro hmem
    have hrn := hfree _ hmem
    refine List.mem_map.mpr ⟨_, hmem, ?_⟩
    unfold pageAddr pageSize
    rw [add64_of_lt (by omega), Nat.add_comm]

/-- With its buddy free, the bit of a held block is set, so flipping it clears it. -/
lemma Inv.bitAt_of_buddy_free (h : Inv base n P s free (b :: held)) (hna : NoAlias n P)
    (ho : b.order < maxOrder) (hbuddy : b.buddy.pages ⊆ P) :
    s.bitAt (pairBit n b.order b.page) = decide (b.buddy.page ∈ free b.order) := by
  have hbm : b ∈ blocksOf maxOrder free ++ b :: held :=
    List.mem_append_right _ List.mem_cons_self
  rw [h.bits hna b (h.tiling.aligned b hbm) ho (h.pages_subset hbm) hbuddy]
  simp [h.held_not_free b.order ho.le]

/-- The bitmap said that the buddy is free, but it is not on its list: the bit is flipped back and
the block is freed as it is. -/
lemma Inv.give_untoggled (h : Inv base n P s free (b :: held)) (hmem : b.buddy.page ∉ free b.order)
    (hbit : (s.toggled (pairBit n b.order b.page)).bitAt (pairBit n b.order b.page) = false)
    (ho : b.order < maxOrder) :
    Inv base n P (((s.toggled (pairBit n b.order b.page)).toggled
        (pairBit n b.order b.page)).listPush (pageAddr base b.page) b.order)
      (Function.update free b.order (b.page :: free b.order)) held := by
  have hbm : b ∈ blocksOf maxOrder free ++ b :: held :=
    List.mem_append_right _ List.mem_cons_self
  refine h.give _ (fun hna => ?_) (fun _ _ => hmem)
  -- the pair of `b` is not inside `P`, since its bit is wrong
  have hout : ¬ b.buddy.pages ⊆ P := by
    intro hsub
    have hold := h.bitAt_of_buddy_free hna ho hsub
    rw [bitAt_toggled, if_pos rfl, hold] at hbit
    simp [hmem] at hbit
  intro c hc hco hcP hcP'
  have hcb : c ≠ b := fun hcb => hout (hcb ▸ hcP')
  have hcb' : c.buddy ≠ b := by
    intro hcb'
    have hbc : b.buddy = c := by rw [← hcb', Block.buddy_buddy]
    exact hout (by rw [hbc]; exact hcP)
  have hold := h.bits hna c hc hco hcP hcP'
  have hmem1 : c.page ∈ Function.update free b.order (b.page :: free b.order) c.order ↔
      c.page ∈ free c.order := by
    rw [mem_update_cons]
    exact ⟨fun hm => hm.resolve_left hcb, Or.inr⟩
  have hmem2 : c.buddy.page ∈ Function.update free b.order (b.page :: free b.order) c.order ↔
      c.buddy.page ∈ free c.order := by
    rw [← Block.buddy_order c, mem_update_cons]
    exact ⟨fun hm => hm.resolve_left hcb', Or.inr⟩
  simp only [hmem1, hmem2, ← hold]
  exact congrArg (fun s : Pmm => s.bitAt _) (toggled_toggled s _)

/-- Taking the free buddy of a held block off its list and joining the two. -/
lemma Inv.join_buddy (h : Inv base n P s free (b :: held)) (hmem : b.buddy.page ∈ free b.order)
    (ho : b.order < maxOrder) :
    ∃ s' free' lo, (s.toggled (pairBit n b.order b.page)).listRemove
        (s.buddyOf (pageAddr base b.page) b.order) b.order = some (s', true) ∧
      (if s.buddyOf (pageAddr base b.page) b.order < pageAddr base b.page then
        s.buddyOf (pageAddr base b.page) b.order else pageAddr base b.page) = pageAddr base lo ∧
      Inv base n P s' free' (⟨b.order + 1, lo⟩ :: held) := by
  have hbm : b ∈ blocksOf maxOrder free ++ b :: held :=
    List.mem_append_right _ List.mem_cons_self
  have hal := h.tiling.aligned b hbm
  have hbuddy : b.buddy ∈ blocksOf maxOrder free := mem_blocksOf.mpr ⟨ho.le, hmem⟩
  have hbm' : b.buddy ∈ blocksOf maxOrder free ++ b :: held := List.mem_append_left _ hbuddy
  have haddr : s.buddyOf (pageAddr base b.page) b.order = pageAddr base b.buddy.page := by
    have hlt := h.addr_lt hbm'
    rw [buddyOf_pageAddr h.base_eq (h.addr_lt hbm)]
    unfold pageAddr at hlt ⊢
    rw [add64_of_lt (by omega), Nat.add_comm]
  have hlists : Lists base (s.toggled (pairBit n b.order b.page)) free := h.lists
  obtain ⟨l, hrun, hl⟩ := hlists.remove_of_mem ho.le hmem (h.free_nodup ho.le)
    (fun o' ho' hne q hq hq' => hne (h.free_order_eq ho' ho.le hq hq')) (h.free_addr_lt ho.le)
  have htake := h.take hbuddy
    ((s.toggled (pairBit n b.order b.page)).setLinks b.order l) h.base_eq rfl hl
    (h.bits_take hbuddy fun i => by rw [Block.buddy_order, pairBit_buddy hal]; rfl)
  rw [haddr]
  have hpos : 0 < 2 ^ b.order := by positivity
  rcases Block.buddy_cases hal with ⟨hdvd, hpage⟩ | ⟨hdvd, hpage⟩
  · -- the buddy is the upper half
    have heq : (⟨b.order, b.page + 2 ^ b.order⟩ : Block) = b.buddy := Block.ext rfl hpage.symm
    have hheld := htake.held_perm (List.Perm.swap _ _ _)
    rw [← heq] at hheld
    refine ⟨_, _, b.page, hrun, ?_, Inv.join hdvd ho hheld⟩
    rw [if_neg]
    unfold pageAddr pageSize
    omega
  · -- the buddy is the lower half
    have heq : (⟨b.order, b.buddy.page + 2 ^ b.order⟩ : Block) = b := Block.ext rfl hpage.symm
    refine ⟨_, Function.update free b.order ((free b.order).erase b.buddy.page), b.buddy.page, hrun,
      ?_, Inv.join hdvd ho ?_⟩
    · rw [if_pos]
      unfold pageAddr pageSize
      omega
    · rw [heq]
      exact htake

/-- The merge loop frees a held block, joined with its buddies as far as they are free. -/
lemma Inv.freeLoop : ∀ (k : ℕ) {s : Pmm} {free : ℕ → List ℕ} {b : Block},
    b.order + k = maxOrder → Inv base n P s free (b :: held) →
    ∃ s' free', Pmm.freeLoop k s (pageAddr base b.page) b.order = some s' ∧
      Inv base n P s' free' held := by
  intro k
  induction k with
  | zero =>
    intro s free b hk h
    refine ⟨_, _, ?_, h.give_toggled fun _ hlt => absurd hlt (by omega)⟩
    rw [Pmm.freeLoop, h.bitmapToggle_eq (List.mem_append_right _ List.mem_cons_self)]
    rfl
  | succ k ih =>
    intro s free b hk h
    have hbm : b ∈ blocksOf maxOrder free ++ b :: held :=
      List.mem_append_right _ List.mem_cons_self
    have ho : b.order < maxOrder := by omega
    rw [Pmm.freeLoop, h.bitmapToggle_eq hbm]
    simp only [Option.bind_eq_bind, Option.bind_some]
    by_cases hbit : (s.toggled (pairBit n b.order b.page)).bitAt (pairBit n b.order b.page) = true
    · -- exactly one of the pair is free now: no join
      rw [hbit]
      refine ⟨_, _, rfl, h.give_toggled fun hna _ hfree => ?_⟩
      have hsub : b.buddy.pages ⊆ P :=
        h.pages_subset (List.mem_append_left _ (mem_blocksOf.mpr ⟨ho.le, hfree⟩))
      have hold := h.bitAt_of_buddy_free hna ho hsub
      rw [bitAt_toggled, if_pos rfl, hold] at hbit
      simp [hfree] at hbit
    · rw [Bool.not_eq_true] at hbit
      rw [hbit]
      simp only [Bool.false_eq_true, if_false, ne_eq, not_true_eq_false]
      by_cases hfree : b.buddy.page ∈ free b.order
      · obtain ⟨s', free', lo, hrun, hmin, hinv⟩ := h.join_buddy hfree ho
        rw [hrun]
        simp only [Option.bind_some, if_true, hmin]
        exact ih (b := ⟨b.order + 1, lo⟩) (by simp only; omega) hinv
      · have hlists : Lists base (s.toggled (pairBit n b.order b.page)) free := h.lists
        have hnot := mt (h.buddyOf_mem_iff hbm).mp hfree
        have hpool := h.pool_of_mem hbm
        have htoggle := Pool.bitmapToggle_eq (s := s.toggled (pairBit n b.order b.page)) (b := b)
          ⟨hpool.size_eq, hpool.pages_le, hpool.end_lt⟩ h.base_eq ho.le (h.tiling.bound b hbm)
        rw [hlists.remove_of_not_mem ho.le hnot (h.free_nodup ho.le) (h.free_addr_lt ho.le)]
        simp only [Option.bind_some, Bool.false_eq_true, if_false, htoggle]
        exact ⟨_, _, rfl, h.give_untoggled hfree hbit ho⟩

/-- `FreePages` returns a held block to the free lists. -/
theorem Inv.freePages (h : Inv base n P s free (b :: held)) :
    ∃ s' free', s.freePages (pageAddr base b.page) b.order = some s' ∧
      Inv base n P s' free' held := by
  have hbm : b ∈ blocksOf maxOrder free ++ b :: held :=
    List.mem_append_right _ List.mem_cons_self
  have ho := h.tiling.order_le b hbm
  have hne := h.ne_zero _ (h.pages_subset hbm b.page_mem_pages)
  obtain ⟨s', free', hrun, hinv⟩ := Inv.freeLoop (maxOrder - b.order) (by omega) h
  refine ⟨s', free', ?_, hinv⟩
  rw [Pmm.freePages, if_neg (by omega)]
  exact hrun

/-! ## Calls without a split or a join -/

/-- A block of the requested order is allocated by taking it off its list and flipping its bit. -/
lemma Inv.allocPages_of_cons (h : Inv base n P s free held) {o p : ℕ} {ps : List ℕ}
    (ho : o ≤ maxOrder) (hfree : free o = p :: ps) :
    ∃ s', s.allocPages o = some (s', pageAddr base p) ∧ pageAddr base p ≠ 0 ∧
      s'.bitmap = (s.toggled (pairBit n o p)).bitmap ∧
      Inv base n P s' (Function.update free o ps) (⟨o, p⟩ :: held) := by
  have hbm : (⟨o, p⟩ : Block) ∈ blocksOf maxOrder free ++ held :=
    List.mem_append_left _ (mem_blocksOf.mpr ⟨ho, by rw [hfree]; exact List.mem_cons_self⟩)
  have hfind : s.findOrder o = some o := by
    rcases h.findOrder o with ⟨found, q, qs, hfind, hle, -, -, hbelow⟩ | ⟨-, hall⟩
    · rcases hle.eq_or_lt with rfl | hlt
      · exact hfind
      · rw [hbelow o le_rfl hlt] at hfree
        cases hfree
    · rw [hall o le_rfl ho] at hfree
      cases hfree
  obtain ⟨s', haddr, ⟨v, htoggle⟩, hinv⟩ := h.pop ho hfree
  refine ⟨s', ?_, h.ne_zero p (h.pages_subset hbm (Block.page_mem_pages _)), ?_, hinv⟩
  · simp [Pmm.allocPages, not_lt.mpr ho, hfind, haddr, htoggle, Pmm.splitLoop]
  · have hpool := h.pool_of_mem hbm
    have hpop := Pool.bitmapToggle_eq (s := (s.listPop o).1) (b := ⟨o, p⟩)
      ⟨hpool.size_eq, hpool.pages_le, hpool.end_lt⟩ h.base_eq ho (h.tiling.bound _ hbm)
    rw [htoggle, Option.some.injEq, Prod.mk.injEq] at hpop
    rw [hpop.1]
    rfl

/-- A block of the largest order is allocated by taking it off its list and flipping its bit. -/
lemma Inv.allocPages_maxOrder (h : Inv base n P s free held) :
    s.allocPages maxOrder = some (s, 0) ∨
    ∃ s' p ps, free maxOrder = p :: ps ∧ s.allocPages maxOrder = some (s', pageAddr base p) ∧
      pageAddr base p ≠ 0 ∧ s'.bitmap = (s.toggled (pairBit n maxOrder p)).bitmap ∧
      Inv base n P s' (Function.update free maxOrder ps) (⟨maxOrder, p⟩ :: held) := by
  cases hfree : free maxOrder with
  | nil =>
    rcases h.findOrder maxOrder with ⟨found, q, qs, -, hle, hmax, hqs, -⟩ | ⟨hnone, -⟩
    · obtain rfl : found = maxOrder := le_antisymm hmax hle
      rw [hfree] at hqs
      cases hqs
    · left
      simp [Pmm.allocPages, hnone]
  | cons p ps =>
    obtain ⟨s', hrun, hne, hbitmap, hinv⟩ := h.allocPages_of_cons le_rfl hfree
    exact .inr ⟨s', p, ps, rfl, hrun, hne, hbitmap, hinv⟩

/-- A block whose bit is clear is released by flipping its bit and putting it on its list, also if
its buddy is free. -/
lemma Inv.freePages_of_bit_clear (h : Inv base n P s free (b :: held)) (ho : b.order < maxOrder)
    (hbit : s.bitAt (pairBit n b.order b.page) = false)
    (hbuddy : NoAlias n P → b.buddy.page ∉ free b.order) :
    ∃ s', s.freePages (pageAddr base b.page) b.order = some s' ∧
      s'.bitAt (pairBit n b.order b.page) = true ∧
      Inv base n P s' (Function.update free b.order (b.page :: free b.order)) held := by
  have hbm : b ∈ blocksOf maxOrder free ++ b :: held :=
    List.mem_append_right _ List.mem_cons_self
  have hne := h.ne_zero _ (h.pages_subset hbm b.page_mem_pages)
  have htoggled : (s.toggled (pairBit n b.order b.page)).bitAt (pairBit n b.order b.page) =
      true := by
    rw [bitAt_toggled, if_pos rfl, hbit]
    rfl
  refine ⟨_, ?_, ?_, h.give_toggled fun hna _ => hbuddy hna⟩
  · obtain ⟨k, hk⟩ := Nat.exists_eq_add_of_lt ho
    have hleft : maxOrder - b.order = k + 1 := by omega
    rw [Pmm.freePages, if_neg (by omega), hleft, Pmm.freeLoop, h.bitmapToggle_eq hbm]
    simp only [Option.bind_eq_bind, Option.bind_some, htoggled, if_true, ne_eq, one_ne_zero,
      not_false_eq_true, Option.pure_def]
  · exact htoggled

/-- A block whose buddy is not free is put on its list, and then its bit is set. -/
lemma Inv.freePages_of_buddy_not_free (h : Inv base n P s free (b :: held))
    (ho : b.order < maxOrder) (hbuddy : b.buddy.page ∉ free b.order) :
    ∃ s', s.freePages (pageAddr base b.page) b.order = some s' ∧
      s'.bitAt (pairBit n b.order b.page) = true ∧
      Inv base n P s' (Function.update free b.order (b.page :: free b.order)) held := by
  have hbm : b ∈ blocksOf maxOrder free ++ b :: held :=
    List.mem_append_right _ List.mem_cons_self
  cases hbit : s.bitAt (pairBit n b.order b.page) with
  | false => exact h.freePages_of_bit_clear ho hbit fun _ => hbuddy
  | true =>
    have hne := h.ne_zero _ (h.pages_subset hbm b.page_mem_pages)
    have htoggled : (s.toggled (pairBit n b.order b.page)).bitAt (pairBit n b.order b.page) =
        false := by
      rw [bitAt_toggled, if_pos rfl, hbit]
      rfl
    have hlists : Lists base (s.toggled (pairBit n b.order b.page)) free := h.lists
    have hnot := mt (h.buddyOf_mem_iff hbm).mp hbuddy
    have hpool := h.pool_of_mem hbm
    have htoggle := Pool.bitmapToggle_eq (s := s.toggled (pairBit n b.order b.page)) (b := b)
      ⟨hpool.size_eq, hpool.pages_le, hpool.end_lt⟩ h.base_eq ho.le (h.tiling.bound b hbm)
    refine ⟨_, ?_, ?_, h.give_untoggled hbuddy htoggled ho⟩
    · obtain ⟨k, hk⟩ := Nat.exists_eq_add_of_lt ho
      have hleft : maxOrder - b.order = k + 1 := by omega
      rw [Pmm.freePages, if_neg (by omega), hleft, Pmm.freeLoop, h.bitmapToggle_eq hbm]
      simp only [Option.bind_eq_bind, Option.bind_some, htoggled, Bool.false_eq_true,
        if_false, ne_eq, not_true_eq_false,
        hlists.remove_of_not_mem ho.le hnot (h.free_nodup ho.le) (h.free_addr_lt ho.le), htoggle,
        Option.pure_def]
    · rw [toggled_toggled]
      exact hbit

/-- A block of the largest order is released by flipping its bit and putting it back on its list. -/
lemma Inv.freePages_maxOrder {p : ℕ} (h : Inv base n P s free (⟨maxOrder, p⟩ :: held)) :
    ∃ s', s.freePages (pageAddr base p) maxOrder = some s' ∧
      s'.bitmap = (s.toggled (pairBit n maxOrder p)).bitmap ∧
      Inv base n P s' (Function.update free maxOrder (p :: free maxOrder)) held := by
  have hbm : (⟨maxOrder, p⟩ : Block) ∈ blocksOf maxOrder free ++ ⟨maxOrder, p⟩ :: held :=
    List.mem_append_right _ List.mem_cons_self
  have hne : pageAddr base p ≠ 0 := h.ne_zero p (h.pages_subset hbm (Block.page_mem_pages _))
  refine ⟨(s.toggled (pairBit n maxOrder p)).listPush (pageAddr base p) maxOrder, ?_, rfl,
    h.give_toggled fun _ hlt => absurd hlt (lt_irrefl _)⟩
  rw [Pmm.freePages, if_neg (by simp [hne]), Nat.sub_self, Pmm.freeLoop, h.bitmapToggle_eq hbm]
  rfl

end Pmm

end HyperBerry
