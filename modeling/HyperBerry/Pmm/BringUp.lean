import HyperBerry.Pmm.Calls

/-!
# Bringing up the pool

`SetMemoryMap` first cuts the whole pool into blocks (`IsSeed`): as many blocks of the largest order
as fit, then one block for each binary digit of the rest.  It then takes the blocks inside the
reserved regions off their lists.

During bring-up the state is described by `Boot`.  Until the first allocation every bit of the pair
bitmap is the parity of the seeded blocks that use it.  A pool at address `0` loses its first block:
pushing address `0` on a list writes the null link to the head, so the block is never listed.  Such
blocks are kept in `lost`.
-/

namespace HyperBerry

open LinkedList

namespace Pmm

/-- The blocks that a pool of `n` pages is cut into. -/
structure IsSeed (n : ℕ) (b : Block) : Prop where
  /-- The block starts at a multiple of its length. -/
  aligned : b.Aligned
  /-- The block lies in the pool. -/
  bound : b.page + 2 ^ b.order ≤ n
  /-- No block exceeds the largest order. -/
  order_le : b.order ≤ maxOrder
  /-- Below the largest order only the tail of the pool is used. -/
  tail : b.order = maxOrder ∨ b.page = tailPage n b.order

/-- The parity of the blocks of a list that use bit `i`. -/
def parityBit (n : ℕ) (l : List Block) (i : ℕ) : Bool :=
  decide (l.countP (fun b => decide (pairBit n b.order b.page = i)) % 2 = 1)

/-- The state during bring-up, with the listed blocks and those lost at address `0`. -/
structure Boot (base n : ℕ) (s : Pmm) (free : ℕ → List ℕ) (lost : List Block) : Prop where
  /-- The base of the pool. -/
  base_eq : s.base = base
  /-- A pool with a listed block is well formed. -/
  pool : ∀ b ∈ blocksOf maxOrder free, Pool base n s
  /-- The links of the free lists. -/
  lists : Lists base s free
  /-- No listed block is at the null address. -/
  ne_zero : ∀ b ∈ blocksOf maxOrder free, pageAddr base b.page ≠ 0
  /-- The blocks at the null address are lost. -/
  lost_zero : ∀ b ∈ lost, pageAddr base b.page = 0
  /-- All blocks are aligned, inside the pool and pairwise disjoint. -/
  tiling : Tiling n maxOrder (blocksOf maxOrder free ++ lost)
  /-- All blocks are among those the pool is cut into. -/
  seeds : ∀ b ∈ blocksOf maxOrder free ++ lost, IsSeed n b
  /-- Every bit is the parity of the blocks that use it. -/
  bits : ∀ i, s.bitAt i = parityBit n (blocksOf maxOrder free ++ lost) i

/-! ## Parities -/

/-- One more block flips its bit. -/
lemma parityBit_cons (n : ℕ) (b : Block) (l : List Block) (i : ℕ) :
    parityBit n (b :: l) i =
      if i = pairBit n b.order b.page then !parityBit n l i else parityBit n l i := by
  unfold parityBit
  by_cases hi : i = pairBit n b.order b.page
  · subst hi
    simp only [List.countP_cons, decide_true, if_true]
    by_cases hodd : l.countP (fun c => decide (pairBit n c.order c.page =
        pairBit n b.order b.page)) % 2 = 1
    · rw [decide_eq_false (by omega), decide_eq_true hodd]
      rfl
    · rw [decide_eq_true (by omega), decide_eq_false hodd]
      rfl
  · have hi' : ¬ pairBit n b.order b.page = i := fun h => hi h.symm
    simp [hi, hi']

/-- The parities do not depend on the order of the list. -/
lemma parityBit_perm {n : ℕ} {l l' : List Block} (h : l.Perm l') (i : ℕ) :
    parityBit n l i = parityBit n l' i := by
  unfold parityBit
  rw [h.countP_eq]

/-- A bit that no block uses is clear. -/
lemma parityBit_eq_false {n i : ℕ} {l : List Block}
    (h : ∀ b ∈ l, pairBit n b.order b.page ≠ i) : parityBit n l i = false := by
  unfold parityBit
  rw [List.countP_eq_zero.mpr fun b hb => by simpa using h b hb]
  rfl

/-- Flipping the bit of a block adds it to the parities. -/
lemma bitAt_toggled_eq_parityBit {n : ℕ} {s : Pmm} {l : List Block} (b : Block)
    (h : ∀ i, s.bitAt i = parityBit n l i) (i : ℕ) :
    (s.toggled (pairBit n b.order b.page)).bitAt i = parityBit n (b :: l) i := by
  rw [bitAt_toggled, parityBit_cons, h, h]
  by_cases hi : i = pairBit n b.order b.page
  · simp [hi]
  · simp [hi]

/-- Flipping the bit of a block takes it out of the parities. -/
lemma bitAt_toggled_eq_parityBit_of_cons {n : ℕ} {s : Pmm} {l : List Block} (b : Block)
    (h : ∀ i, s.bitAt i = parityBit n (b :: l) i) (i : ℕ) :
    (s.toggled (pairBit n b.order b.page)).bitAt i = parityBit n l i := by
  rw [bitAt_toggled, h, h, parityBit_cons, parityBit_cons]
  by_cases hi : i = pairBit n b.order b.page
  · simp [hi]
  · simp [hi]

/-! ## Adding and removing one block -/

section Boot

variable {base n : ℕ} {s : Pmm} {free : ℕ → List ℕ} {lost : List Block} {b : Block}

/-- Seeding one block: its bit is flipped and it is pushed on its list, or lost at address `0`. -/
lemma Boot.seed (h : Boot base n s free lost) (hpool : Pool base n s) (hb : IsSeed n b)
    (hdisj : Disjoint b.pages (cover (blocksOf maxOrder free ++ lost)))
    (hzero : pageAddr base b.page = 0 → free b.order = []) :
    ∃ s' v free' lost', s.bitmapToggle (pageAddr base b.page) b.order = some (s', v) ∧
      Boot base n (s'.listPush (pageAddr base b.page) b.order) free' lost' ∧
      Pool base n (s'.listPush (pageAddr base b.page) b.order) ∧
      (b :: (blocksOf maxOrder free ++ lost)).Perm (blocksOf maxOrder free' ++ lost') := by
  have htoggle := hpool.bitmapToggle_eq h.base_eq hb.order_le hb.bound
  have hpool' : Pool base n (((s.toggled (pairBit n b.order b.page))).listPush
      (pageAddr base b.page) b.order) := ⟨hpool.size_eq, hpool.pages_le, hpool.end_lt⟩
  have htiling : Tiling n maxOrder (b :: (blocksOf maxOrder free ++ lost)) :=
    h.tiling.cons hb.aligned hb.bound hb.order_le hdisj
  have hseeds : ∀ c ∈ b :: (blocksOf maxOrder free ++ lost), IsSeed n c :=
    List.forall_mem_cons.mpr ⟨hb, h.seeds⟩
  have hbits := bitAt_toggled_eq_parityBit b h.bits
  have hlists : Lists base (s.toggled (pairBit n b.order b.page)) free := h.lists
  by_cases h0 : pageAddr base b.page = 0
  · -- the head of the list becomes the null link
    have hperm : (b :: (blocksOf maxOrder free ++ lost)).Perm
        (blocksOf maxOrder free ++ b :: lost) := List.perm_middle.symm
    have hpush := hlists.push_zero (o := b.order) fun o' ho' q hq =>
      h.ne_zero ⟨o', q⟩ (mem_blocksOf.mpr ⟨ho', hq⟩)
    rw [← hzero h0, Function.update_eq_self] at hpush
    refine ⟨_, _, free, b :: lost, htoggle, ?_, hpool', hperm⟩
    exact
      { base_eq := h.base_eq
        pool := fun _ _ => hpool'
        lists := by rw [h0]; exact hpush
        ne_zero := h.ne_zero
        lost_zero := List.forall_mem_cons.mpr ⟨h0, h.lost_zero⟩
        tiling := htiling.perm hperm
        seeds := fun c hc => hseeds c (hperm.mem_iff.mpr hc)
        bits := fun i => (hbits i).trans (parityBit_perm hperm i) }
  · have hperm : (b :: (blocksOf maxOrder free ++ lost)).Perm
        (blocksOf maxOrder (Function.update free b.order (b.page :: free b.order)) ++ lost) :=
      (blocksOf_update_cons hb.order_le).symm.append_right lost
    have hnot : ∀ o' ≤ maxOrder, b.page ∉ free o' := by
      intro o' ho' hmem
      refine Set.disjoint_left.mp hdisj b.page_mem_pages ?_
      exact pages_subset_cover (List.mem_append_left _ (mem_blocksOf.mpr ⟨ho', hmem⟩))
        (Block.page_mem_pages ⟨o', b.page⟩)
    refine ⟨_, _, _, lost, htoggle, ?_, hpool', hperm⟩
    exact
      { base_eq := h.base_eq
        pool := fun _ _ => hpool'
        lists := hlists.push hb.order_le h0 hnot
        ne_zero := by
          intro c hc
          rcases mem_update_cons.mp (mem_blocksOf.mp hc).2 with rfl | hmem
          · exact h0
          · exact h.ne_zero c (mem_blocksOf.mpr ⟨(mem_blocksOf.mp hc).1, hmem⟩)
        lost_zero := h.lost_zero
        tiling := htiling.perm hperm
        seeds := fun c hc => hseeds c (hperm.mem_iff.mpr hc)
        bits := fun i => (hbits i).trans (parityBit_perm hperm i) }

/-- No free list repeats a page. -/
lemma Boot.free_nodup (h : Boot base n s free lost) {o : ℕ} (ho : o ≤ maxOrder) :
    (free o).Nodup :=
  nodup_of_nodup_blocksOf (List.nodup_append.mp h.tiling.nodup).1 ho

/-- The listed blocks lie inside the address space. -/
lemma Boot.block_end_lt (h : Boot base n s free lost) (hb : b ∈ blocksOf maxOrder free) :
    pageAddr base (b.page + 2 ^ b.order) < 2 ^ 64 := by
  have hend := (h.pool b hb).end_lt
  have hbound := h.tiling.bound b (List.mem_append_left _ hb)
  have : pageSize * (b.page + 2 ^ b.order) ≤ pageSize * n := Nat.mul_le_mul_left _ hbound
  unfold pageAddr
  omega

/-- The listed blocks have 64-bit addresses. -/
lemma Boot.free_addr_lt (h : Boot base n s free lost) {o : ℕ} (ho : o ≤ maxOrder) :
    ∀ q ∈ free o, pageAddr base q < 2 ^ 64 := by
  intro q hq
  have hlt := h.block_end_lt (b := ⟨o, q⟩) (mem_blocksOf.mpr ⟨ho, hq⟩)
  have hle : pageSize * q ≤ pageSize * (q + 2 ^ o) :=
    Nat.mul_le_mul_left _ (Nat.le_add_right _ _)
  unfold pageAddr at *
  simp only at hlt
  omega

/-- Reserving one block: it is taken off its list and its bit is flipped. -/
lemma Boot.reserve (h : Boot base n s free lost) (hb : b ∈ blocksOf maxOrder free) :
    ∃ s₁ s' v, s.listRemove (pageAddr base b.page) b.order = some (s₁, true) ∧
      s₁.bitmapToggle (pageAddr base b.page) b.order = some (s', v) ∧
      Boot base n s' (Function.update free b.order ((free b.order).erase b.page)) lost := by
  obtain ⟨ho, hp⟩ := mem_blocksOf.mp hb
  have hbm : b ∈ blocksOf maxOrder free ++ lost := List.mem_append_left _ hb
  have hpool := h.pool b hb
  have hdisj : ∀ o' ≤ maxOrder, o' ≠ b.order → ∀ q ∈ free o', q ∉ free b.order := by
    intro o' ho' hne q hq hq'
    refine hne (congrArg Block.order (h.tiling.eq_of_mem (b := ⟨o', q⟩) (c := ⟨b.order, q⟩) ?_ ?_
      (Block.page_mem_pages _) (Block.page_mem_pages _)))
    · exact List.mem_append_left _ (mem_blocksOf.mpr ⟨ho', hq⟩)
    · exact List.mem_append_left _ (mem_blocksOf.mpr ⟨ho, hq'⟩)
  obtain ⟨l, hrun, hl⟩ := h.lists.remove_of_mem ho hp (h.free_nodup ho) hdisj (h.free_addr_lt ho)
  have htoggle := Pool.bitmapToggle_eq (s := s.setLinks b.order l) (b := b)
    ⟨hpool.size_eq, hpool.pages_le, hpool.end_lt⟩ h.base_eq ho (h.tiling.bound b hbm)
  have hperm : (blocksOf maxOrder free ++ lost).Perm
      (b :: (blocksOf maxOrder (Function.update free b.order ((free b.order).erase b.page)) ++
        lost)) := (blocksOf_update_erase ho hp).append_right lost
  have htiling := h.tiling.perm hperm
  have hsub : ∀ c ∈ blocksOf maxOrder
      (Function.update free b.order ((free b.order).erase b.page)), c ∈ blocksOf maxOrder free := by
    intro c hc
    rw [mem_blocksOf, mem_update_erase (h.free_nodup ho)] at hc
    exact mem_blocksOf.mpr ⟨hc.1, hc.2.2⟩
  refine ⟨_, _, _, hrun, htoggle, ?_⟩
  exact
    { base_eq := h.base_eq
      pool := fun c hc => by
        have hpc := h.pool c (hsub c hc)
        exact ⟨hpc.size_eq, hpc.pages_le, hpc.end_lt⟩
      lists := hl
      ne_zero := fun c hc => h.ne_zero c (hsub c hc)
      lost_zero := h.lost_zero
      tiling := htiling.of_cons
      seeds := fun c hc => h.seeds c (hperm.mem_iff.mpr (List.mem_cons_of_mem _ hc))
      bits := fun i => bitAt_toggled_eq_parityBit_of_cons b
        (fun j => (h.bits j).trans (parityBit_perm hperm j)) i }

end Boot

end Pmm

end HyperBerry
