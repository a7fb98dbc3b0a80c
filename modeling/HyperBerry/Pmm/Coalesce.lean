import HyperBerry.Pmm.Run

/-!
# Coalescing

The bitmap reserves `totalPages >> (o + 1)` bits for the pairs of order `o`, which leaves no bit for
a block of order `o` at the end of the pool that has no buddy.  Such a block uses the first bit of
order `o + 1` instead.  When that block and the first pair of order `o + 1` are both in use,
`FreePages` reads a bit that does not belong to the pair and leaves two buddies unmerged.

Merging is complete in every state exactly if no bit is shared (`coalesced_along_runs`).
-/

namespace HyperBerry

namespace Pmm

/-- Whenever the tail of the pool has a block of order `o` whose bit is that of the first pair of
order `o + 1`, either that block or the first block of the pool is not listed by bring-up. -/
def NoSharedBit (image : KernelImage) (map : MemoryMap) : Prop :=
  ∀ o, o + 1 < maxOrder → 2 ^ o ≤ poolPages map % 2 ^ (o + 1) → 2 ^ (o + 2) ≤ poolPages map →
    ¬ ((∃ k, Listed image map ⟨k, 0⟩) ∧ Listed image map ⟨o, tailPage (poolPages map) o⟩)

/-- The block at the tail page of an order is a seed when the page count has that binary digit. -/
lemma isSeed_tailPage {n o : ℕ} (ho : o ≤ maxOrder) (hdigit : 2 ^ o ≤ n % 2 ^ (o + 1)) :
    IsSeed n ⟨o, tailPage n o⟩ where
  aligned := (pow_dvd_pow 2 (Nat.le_succ o)).trans (Nat.dvd_mul_left _ _)
  bound := by
    have hn : tailPage n o + n % 2 ^ (o + 1) = n := Nat.div_add_mod' n _
    simp only
    omega
  order_le := ho
  tail := Or.inr rfl

/-- The condition on the memory map as a condition on the pages that are free after bring-up. -/
lemma NoSharedBit.noAlias {image : KernelImage} {map : MemoryMap} (h : NoSharedBit image map) :
    NoAlias (poolPages map) (listedPages image map) := by
  rintro o ho hdigit hpair ⟨⟨b, hb, hb0⟩, ⟨c, hc, hct⟩⟩
  refine h o ho hdigit hpair ⟨⟨b.order, ?_⟩, ?_⟩
  · have hpage : b.page = 0 := Nat.le_zero.mp (Block.mem_pages.mp hb0).1
    rw [← hpage]
    exact hb
  · have heq : c = ⟨o, tailPage (poolPages map) o⟩ :=
      hc.2.1.eq_of_mem (isSeed_tailPage (by omega) hdigit) hct (Block.page_mem_pages _)
    exact heq ▸ hc

/-! ## Without a shared bit -/

/-- Without a shared bit, no free list below the largest order holds two buddies in any state that
clients can reach, and whenever no block is live the free lists hold the blocks they held after
bring-up. -/
lemma coalesced_of_noSharedBit {s₀ s : Pmm} {image : KernelImage} {map : MemoryMap}
    (h : s₀.setMemoryMap image map = some s) (hbits : NoSharedBit image map) {t : System}
    (hrun : Run ⟨s, []⟩ t) :
    (∀ o < maxOrder, ∀ a ∈ t.pmm.freeList o, t.pmm.buddyOf a o ∉ t.pmm.freeList o) ∧
    (t.live = [] → ∀ o ≤ maxOrder, ∀ a, a ∈ t.pmm.freeList o ↔ a ∈ s.freeList o) := by
  have hna := hbits.noAlias
  obtain ⟨free, held, hinv, hlive⟩ := tracks_of_run h hrun
  obtain ⟨free₀, hinv₀, -⟩ := inv_of_setMemoryMap h
  constructor
  · intro o ho a ha hbuddy
    rw [hinv.freeList_eq ho.le] at ha hbuddy
    obtain ⟨p, hp, rfl⟩ := List.mem_map.mp ha
    have hb : (⟨o, p⟩ : Block) ∈ blocksOf maxOrder free := mem_blocksOf.mpr ⟨ho.le, hp⟩
    have hmem := (hinv.buddyOf_mem_iff (List.mem_append_left _ hb)).mp hbuddy
    exact hinv.coalesced hna ⟨o, p⟩ hb ho (mem_blocksOf.mpr ⟨ho.le, hmem⟩)
  · intro hnone o ho a
    have hheld : held = [] := List.map_eq_nil_iff.mp (hlive.symm.trans hnone)
    subst hheld
    -- both states are coalesced tilings of the same pages
    have htiling := hinv.tiling
    have htiling₀ := hinv₀.tiling
    have hcover := hinv.cover_eq.trans hinv₀.cover_eq.symm
    rw [List.append_nil] at htiling htiling₀
    rw [List.append_nil, List.append_nil] at hcover
    have hmem : ∀ p, p ∈ free o ↔ p ∈ free₀ o := by
      intro p
      have hiff := htiling.mem_iff_of_coalesced htiling₀ (hinv.coalesced hna)
        (hinv₀.coalesced hna) hcover ⟨o, p⟩
      simpa only [mem_blocksOf, ho, true_and] using hiff
    rw [hinv.freeList_eq ho, hinv₀.freeList_eq ho]
    simp only [List.mem_map, hmem]

/-! ## With a shared bit -/

section Shared

variable {base n : ℕ} {P : Set ℕ} {s s' : Pmm} {free : ℕ → List ℕ} {held : List Block} {b : Block}

/-- A client gets a block. -/
lemma step_alloc {o p : ℕ} (halloc : s.allocPages o = some (s', pageAddr base p))
    (hne : pageAddr base p ≠ 0) : Step ⟨s, held.map (extent base)⟩
      ⟨s', (⟨o, p⟩ :: held).map (extent base)⟩ := by
  refine .call (.alloc o) ?_
  rw [System.call, halloc, Option.map_some, if_neg hne]
  rfl

/-- A client gives a block back. -/
lemma step_free (hb : b ∈ held)
    (hfree : s.freePages (pageAddr base b.page) b.order = some s') :
    Step ⟨s, held.map (extent base)⟩ ⟨s', (held.erase b).map (extent base)⟩ := by
  refine .call (.free (extent base b)) ?_
  rw [System.call, if_pos (List.mem_map_of_mem hb), extent, hfree, Option.map_some,
    List.map_erase (extent_injective base), extent]

/-- Clients can take all blocks of an order and above, in pieces of that order. -/
lemma Inv.exists_drained (order : ℕ) : ∀ (k : ℕ) {s : Pmm} {free : ℕ → List ℕ} {held : List Block},
    Inv base n P s free held → n ≤ held.length + k →
    ∃ s' free' new, Run ⟨s, held.map (extent base)⟩ ⟨s', (new ++ held).map (extent base)⟩ ∧
      Inv base n P s' free' (new ++ held) ∧ (∀ b ∈ new, b.order = order) ∧
      (∀ o < order, free' o = free o) ∧ ∀ o, order ≤ o → o ≤ maxOrder → free' o = [] := by
  intro k
  -- there are at most `n` blocks, so at some time an allocation fails
  induction k with
  | zero =>
    intro s free held h hk
    rcases h.allocPages order with ⟨-, hall⟩ | ⟨s', free', p, -, -, hinv, -⟩
    · exact ⟨s, free, [], .refl, h, by simp, fun _ _ => rfl, hall⟩
    · have hle := hinv.tiling.length_le
      rw [List.length_append, List.length_cons] at hle
      omega
  | succ k ih =>
    intro s free held h hk
    rcases h.allocPages order with ⟨-, hall⟩ | ⟨s₁, free₁, p, hrun, hne, hinv, hbelow⟩
    · exact ⟨s, free, [], .refl, h, by simp, fun _ _ => rfl, hall⟩
    · obtain ⟨s', free', new, hrest, hinv', hnew, hbelow', hempty⟩ := ih hinv (by
        rw [List.length_cons]
        omega)
      have happend : new ++ ⟨order, p⟩ :: held = (new ++ [⟨order, p⟩]) ++ held := by simp
      rw [happend] at hrest hinv'
      refine ⟨s', free', new ++ [⟨order, p⟩], .head (step_alloc hrun hne) hrest, hinv', ?_,
        fun o ho => (hbelow' o ho).trans (hbelow o ho), hempty⟩
      intro b hb
      rcases List.mem_append.mp hb with hb | hb
      · exact hnew b hb
      · rw [List.mem_singleton.mp hb]

/-- Where the orders from `order` on are drained, an aligned page of the pool is the first of a
block that was taken, unless a smaller free block or a block taken earlier has it. -/
lemma Inv.mem_of_drained {order p : ℕ} {new : List Block} (h : Inv base n P s free (new ++ held))
    (hnew : ∀ b ∈ new, b.order = order) (hempty : ∀ o, order ≤ o → o ≤ maxOrder → free o = [])
    (hdvd : 2 ^ order ∣ p) (hp : p ∈ P)
    (hfree : ∀ b ∈ blocksOf maxOrder free, b.order < order → p ∉ b.pages)
    (hheld : ∀ b ∈ held, p ∉ b.pages) : (⟨order, p⟩ : Block) ∈ new := by
  rw [← h.cover_eq] at hp
  obtain ⟨b, hb, hpb⟩ := mem_cover.mp hp
  rcases List.mem_append.mp hb with hmem | hmem
  · exfalso
    obtain ⟨hle, hpage⟩ := mem_blocksOf.mp hmem
    by_cases horder : b.order < order
    · exact hfree b hmem horder hpb
    · rw [hempty _ (not_lt.mp horder) hle] at hpage
      cases hpage
  · rcases List.mem_append.mp hmem with hmem | hmem
    · have heq := Block.eq_of_mem_pages (c := ⟨order, p⟩) (h.tiling.aligned b hb) hdvd
        (hnew b hmem) hpb (Block.page_mem_pages _)
      exact heq ▸ hmem
    · exact absurd hpb (hheld b hmem)

/-- The tail block of order `o` has the bit of the first pair of order `o + 1`. -/
lemma pairBit_tailPage (n o : ℕ) :
    pairBit n o (tailPage n o) = pairBit n (o + 1) (2 ^ (o + 1)) := by
  have hlt : 2 ^ (o + 1) < 2 ^ (o + 1 + 1) := Nat.pow_lt_pow_right (by norm_num) (by omega)
  rw [pairBit, pairBit, tailPage, Nat.mul_div_cancel _ (by positivity), Nat.div_eq_of_lt hlt,
    bitOffset, Nat.shiftRight_eq_div_pow]
  rfl

/-- With the first pair of order `o + 1` and the tail block of order `o` live and nothing of these
orders free, clients bring the pair on the free list: the tail block is freed and allocated between
the two halves, which flips the bit of the pair. -/
lemma Inv.exists_unmerged {o : ℕ} (h : Inv base n P s free held) (ho : o + 1 < maxOrder)
    (hna : ¬ NoAlias n P) (hempty : free o = []) (hempty' : free (o + 1) = [])
    (hlow : (⟨o + 1, 0⟩ : Block) ∈ held) (hhigh : (⟨o + 1, 2 ^ (o + 1)⟩ : Block) ∈ held)
    (htail : (⟨o, tailPage n o⟩ : Block) ∈ held) :
    ∃ t, Run ⟨s, held.map (extent base)⟩ t ∧
      ∃ a ∈ t.pmm.freeList (o + 1), t.pmm.buddyOf a (o + 1) ∈ t.pmm.freeList (o + 1) := by
  have hpos : 0 < 2 ^ (o + 1) := by positivity
  have hne : (⟨o, tailPage n o⟩ : Block) ≠ ⟨o + 1, 0⟩ := fun heq =>
    absurd (congrArg Block.order heq) (by simp)
  have hne' : (⟨o + 1, 2 ^ (o + 1)⟩ : Block) ≠ ⟨o + 1, 0⟩ := fun heq =>
    hpos.ne' (congrArg Block.page heq)
  have hne'' : (⟨o + 1, 2 ^ (o + 1)⟩ : Block) ≠ ⟨o, tailPage n o⟩ := fun heq =>
    absurd (congrArg Block.order heq) (by simp)
  -- the lower half is freed
  obtain ⟨s₁, hrun₁, -, h₁⟩ := (h.held_perm (List.perm_cons_erase hlow)).freePages_of_buddy_not_free
    ho (by simp [hempty'])
  have hstep₁ := step_free hlow hrun₁
  have htail₁ := (List.mem_erase_of_ne hne).mpr htail
  have hhigh₁ := (List.mem_erase_of_ne hne').mpr hhigh
  have hfree₁ : Function.update free (o + 1) (0 :: free (o + 1)) o = [] := by
    rw [Function.update_of_ne (by omega), hempty]
  have hpair₁ : Function.update free (o + 1) (0 :: free (o + 1)) (o + 1) = [0] := by
    rw [Function.update_self, hempty']
  generalize held.erase ⟨o + 1, 0⟩ = held₁ at *
  dsimp only at h₁
  generalize Function.update free (o + 1) (0 :: free (o + 1)) = free₁ at *
  -- the tail block is freed, which sets the bit
  obtain ⟨s₂, hrun₂, hbit₂, h₂⟩ :=
    (h₁.held_perm (List.perm_cons_erase htail₁)).freePages_of_buddy_not_free
      (Nat.lt_of_succ_lt ho) (by simp [hfree₁])
  have hstep₂ := step_free htail₁ hrun₂
  have hhigh₂ := (List.mem_erase_of_ne hne'').mpr hhigh₁
  have hfree₂ : Function.update free₁ o (tailPage n o :: free₁ o) o = [tailPage n o] := by
    rw [Function.update_self, hfree₁]
  have hpair₂ : Function.update free₁ o (tailPage n o :: free₁ o) (o + 1) = [0] := by
    rw [Function.update_of_ne (by omega), hpair₁]
  generalize held₁.erase ⟨o, tailPage n o⟩ = held₂ at *
  dsimp only at h₂
  generalize Function.update free₁ o (tailPage n o :: free₁ o) = free₂ at *
  -- the tail block is allocated, which clears it
  obtain ⟨s₃, hrun₃, hne₃, hbitmap₃, h₃⟩ := h₂.allocPages_of_cons (by omega) hfree₂
  have hbit₃ : s₃.bitAt (pairBit n (o + 1) (2 ^ (o + 1))) = false := by
    rw [← pairBit_tailPage, bitAt_congr hbitmap₃, bitAt_toggled, if_pos rfl, hbit₂]
    rfl
  -- so the upper half is freed as if the lower one were live
  have hhigh₃ : (⟨o + 1, 2 ^ (o + 1)⟩ : Block) ∈ ⟨o, tailPage n o⟩ :: held₂ :=
    List.mem_cons_of_mem _ hhigh₂
  obtain ⟨s₄, hrun₄, -, h₄⟩ :=
    (h₃.held_perm (List.perm_cons_erase hhigh₃)).freePages_of_bit_clear ho hbit₃
      fun halias => absurd halias hna
  have hpair₄ : Function.update (Function.update free₂ o []) (o + 1)
      (2 ^ (o + 1) :: Function.update free₂ o [] (o + 1)) (o + 1) = [2 ^ (o + 1), 0] := by
    rw [Function.update_self, Function.update_of_ne (by omega), hpair₂]
  dsimp only at h₄
  generalize Function.update (Function.update free₂ o []) (o + 1) _ = free₄ at *
  refine ⟨_, .head hstep₁ (.head hstep₂ (.head (step_alloc hrun₃ hne₃) (.single
    (step_free hhigh₃ hrun₄)))), pageAddr base 0, ?_, ?_⟩
  · rw [h₄.freeList_eq ho.le, mem_map_pageAddr, hpair₄]
    simp
  · have hmem : (⟨o + 1, 0⟩ : Block) ∈ blocksOf maxOrder free₄ :=
      mem_blocksOf.mpr ⟨ho.le, by simp [hpair₄]⟩
    have hbuddy := h₄.buddyOf_mem_iff (List.mem_append_left _ hmem)
    rw [Block.buddy_lower (dvd_zero _)] at hbuddy
    rw [h₄.freeList_eq ho.le]
    exact hbuddy.mpr (by simp [hpair₄])

end Shared

/-- The first block of a pool with four blocks of an order has a pair of the next order in it. -/
lemma IsSeed.le_order_of_first {n o k : ℕ} (h : IsSeed n ⟨k, 0⟩) (ho : o + 1 < maxOrder)
    (hpair : 2 ^ (o + 2) ≤ n) : o + 2 ≤ k := by
  rcases h.tail with hmax | hpage
  · have hmax : k = maxOrder := hmax
    omega
  · by_contra hlt
    have hpow : 2 ^ (k + 1) ≤ 2 ^ (o + 2) := Nat.pow_le_pow_right (by norm_num) (by omega)
    have hdiv : 1 ≤ n / 2 ^ (k + 1) := (Nat.one_le_div_iff (by positivity)).mpr (hpow.trans hpair)
    have hpos : 0 < n / 2 ^ (k + 1) * 2 ^ (k + 1) := Nat.mul_pos hdiv (by positivity)
    -- below the largest order the block would be the tail block, which is not at the front
    have hzero : n / 2 ^ (k + 1) * 2 ^ (k + 1) = 0 := hpage.symm
    omega

/-- With a shared bit, clients can reach a state in which two buddies are free. -/
lemma exists_buddies_free {s₀ s : Pmm} {image : KernelImage} {map : MemoryMap}
    (h : s₀.setMemoryMap image map = some s) (hbits : ¬ NoSharedBit image map) :
    ∃ t, Run ⟨s, []⟩ t ∧ ∃ o < maxOrder, ∃ a ∈ t.pmm.freeList o,
      t.pmm.buddyOf a o ∈ t.pmm.freeList o := by
  simp only [NoSharedBit, not_forall, not_not] at hbits
  obtain ⟨o, ho, hdigit, hpair, ⟨k, hfirst⟩, htail⟩ := hbits
  obtain ⟨free, hinv, hmem⟩ := inv_of_setMemoryMap h
  have hseed {b : Block} (hb : b ∈ blocksOf maxOrder free) : IsSeed (poolPages map) b :=
    ((hmem b).mp hb).2.1
  have hk : o + 2 ≤ k := hfirst.2.1.le_order_of_first ho hpair
  have hna : ¬ NoAlias (poolPages map) (listedPages image map) := fun hna =>
    hna o ho hdigit hpair ⟨⟨_, hfirst, by simp⟩, ⟨_, htail, Block.page_mem_pages _⟩⟩
  -- everything of order `o + 1` and above is taken in pieces of that order
  obtain ⟨s₁, free₁, new₁, hrun₁, hinv₁, hnew₁, hbelow₁, hempty₁⟩ :=
    hinv.exists_drained (o + 1) (poolPages map) (Nat.le_add_left _ _)
  have hdrained₁ := hinv₁
  rw [List.append_nil] at hrun₁ hinv₁
  have hpiece {p : ℕ} (hp : p < 2 ^ k) (hdvd : 2 ^ (o + 1) ∣ p) :
      (⟨o + 1, p⟩ : Block) ∈ new₁ := by
    have hfirstp : p ∈ (⟨k, 0⟩ : Block).pages := ⟨Nat.zero_le _, by simpa using hp⟩
    refine hdrained₁.mem_of_drained hnew₁ hempty₁ hdvd ⟨_, hfirst, hfirstp⟩ ?_ (by simp)
    intro b hb horder hpb
    obtain ⟨hle, hpage⟩ := mem_blocksOf.mp hb
    rw [hbelow₁ _ horder] at hpage
    have heq := (hseed (mem_blocksOf.mpr ⟨hle, hpage⟩)).eq_of_mem hfirst.2.1 hpb hfirstp
    rw [heq] at horder
    simp only at horder
    omega
  have hpow : 2 ^ (o + 1) < 2 ^ k := Nat.pow_lt_pow_right (by norm_num) (by omega)
  -- and then everything of order `o`, which is the tail block
  obtain ⟨s₂, free₂, new₂, hrun₂, hinv₂, hnew₂, hbelow₂, hempty₂⟩ :=
    hinv₁.exists_drained o (poolPages map) (Nat.le_add_left _ _)
  have htail₁ : (⟨o, tailPage (poolPages map) o⟩ : Block) ∈ blocksOf maxOrder free₁ := by
    obtain ⟨hle, hpage⟩ := mem_blocksOf.mp ((hmem _).mpr htail)
    rw [← hbelow₁ o (Nat.lt_succ_self o)] at hpage
    exact mem_blocksOf.mpr ⟨hle, hpage⟩
  have hother {b : Block} (hb : b ∈ blocksOf maxOrder free₁ ++ new₁) (hne : b.order ≠ o) :
      tailPage (poolPages map) o ∉ b.pages := by
    intro hpb
    have heq := hinv₁.tiling.eq_of_mem hb (List.mem_append_left _ htail₁) hpb
      (Block.page_mem_pages _)
    exact hne (congrArg Block.order heq)
  have htail₂ : (⟨o, tailPage (poolPages map) o⟩ : Block) ∈ new₂ := by
    refine hinv₂.mem_of_drained hnew₂ hempty₂ htail.2.1.aligned
      ⟨_, htail, Block.page_mem_pages _⟩ (fun b hb horder => ?_) fun b hb => ?_
    · obtain ⟨hle, hpage⟩ := mem_blocksOf.mp hb
      rw [hbelow₂ _ horder] at hpage
      exact hother (List.mem_append_left _ (mem_blocksOf.mpr ⟨hle, hpage⟩)) horder.ne
    · refine hother (List.mem_append_right _ hb) ?_
      rw [hnew₁ b hb]
      exact Nat.succ_ne_self o
  obtain ⟨t, hrun₃, hfree⟩ := hinv₂.exists_unmerged ho hna (hempty₂ o le_rfl (by omega))
    (hempty₂ (o + 1) (Nat.le_succ o) ho.le)
    (List.mem_append_right _ (hpiece (by positivity) (dvd_zero _)))
    (List.mem_append_right _ (hpiece hpow dvd_rfl)) (List.mem_append_left _ htail₂)
  exact ⟨t, hrun₁.trans (hrun₂.trans hrun₃), o + 1, ho, hfree⟩

/-- **Coalescing.**  That no free list below the largest order holds two buddies in any state that
clients can reach, and that whenever no block is live the free lists hold the blocks they held after
bring-up, is the case exactly if no bit is shared. -/
theorem coalesced_along_runs {s₀ s : Pmm} {image : KernelImage} {map : MemoryMap}
    (h : s₀.setMemoryMap image map = some s) :
    (∀ t, Run ⟨s, []⟩ t →
      (∀ o < maxOrder, ∀ a ∈ t.pmm.freeList o, t.pmm.buddyOf a o ∉ t.pmm.freeList o) ∧
      (t.live = [] → ∀ o ≤ maxOrder, ∀ a, a ∈ t.pmm.freeList o ↔ a ∈ s.freeList o)) ↔
    NoSharedBit image map := by
  refine ⟨fun hall => ?_, fun hbits t hrun => coalesced_of_noSharedBit h hbits hrun⟩
  by_contra hbits
  obtain ⟨t, hrun, o, ho, a, ha, hbuddy⟩ := exists_buddies_free h hbits
  exact (hall t hrun).1 o ho a ha hbuddy

/-- A pool of five pages: the fifth page is a block of its own, whose bit is that of the first pair
of order `1`. -/
def fivePages : MemoryMap := { memBase := 0x40000000, memSize := 0x5000 }

/-- With the hypervisor image in the fifth page, that block is reserved and nothing is shared. -/
lemma fivePages_noSharedBit : NoSharedBit ⟨0x40004000, 0x40004800⟩ fivePages := by
  rintro o - - hpair ⟨-, htail⟩
  have ho : o = 0 := by
    by_contra hne
    have h3 : 2 ^ 3 ≤ 2 ^ (o + 2) := Nat.pow_le_pow_right (by norm_num) (by omega)
    have h5 : 2 ^ (o + 2) ≤ 5 := hpair
    omega
  subst ho
  exact htail.2.2.2 (by decide)

/-- Four pages that are allocated one by one and freed are one block of order `2` again. -/
theorem coalesced_fivePages :
    ∃ s t, (cleared {} fun _ => 0).setMemoryMap ⟨0x40004000, 0x40004800⟩ fivePages = some s ∧
      Run ⟨s, []⟩ t ∧ t.live = [] ∧ t.pmm.freeList 2 = [0x40000000] ∧
      (∀ o < maxOrder, ∀ a ∈ t.pmm.freeList o, t.pmm.buddyOf a o ∉ t.pmm.freeList o) ∧
      (t.live = [] → ∀ o ≤ maxOrder, ∀ a, a ∈ t.pmm.freeList o ↔ a ∈ s.freeList o) := by
  have hrun : ((((cleared {} fun _ => 0).setMemoryMap ⟨0x40004000, 0x40004800⟩ fivePages).bind
      fun s => [Call.alloc 0, .alloc 0, .alloc 0, .alloc 0, .free ⟨0x40000000, 0⟩,
        .free ⟨0x40002000, 0⟩, .free ⟨0x40001000, 0⟩, .free ⟨0x40003000, 0⟩].foldlM System.call
          ⟨s, []⟩).map fun t => (t.live, t.pmm.freeList 2)) = some ([], [0x40000000]) := by
    decide +kernel
  obtain ⟨t, ht, hend⟩ := Option.map_eq_some_iff.mp hrun
  obtain ⟨s, hs, hcalls⟩ := Option.bind_eq_some_iff.mp ht
  obtain ⟨hlive, hfree⟩ := Prod.mk.injEq .. ▸ hend
  exact ⟨s, t, hs, run_of_calls _ hcalls, hlive, hfree,
    (coalesced_along_runs hs).mpr fivePages_noSharedBit t (run_of_calls _ hcalls)⟩

/-- In a pool of 256 MiB and one page, a run that ends with no live block leaves two buddies of
order `1` unmerged. -/
theorem buddies_left_unmerged :
    ∃ s t, (cleared {} fun _ => 0).setMemoryMap ⟨0x60000000, 0x60001000⟩
        { memBase := 0x40000000, memSize := 0x10001000 } = some s ∧ Run ⟨s, []⟩ t ∧
      t.live = [] ∧ 0x40000000 ∈ t.pmm.freeList 1 ∧
      t.pmm.buddyOf 0x40000000 1 ∈ t.pmm.freeList 1 ∧ s.freeList 1 = [] := by
  have hrun : (((cleared {} fun _ => 0).setMemoryMap ⟨0x60000000, 0x60001000⟩
      { memBase := 0x40000000, memSize := 0x10001000 }).bind fun s =>
        ([Call.alloc 1, .alloc 1, .free ⟨0x40000000, 1⟩, .alloc 0, .free ⟨0x40002000, 1⟩,
          .free ⟨0x50000000, 0⟩].foldlM System.call ⟨s, []⟩).map fun t =>
            (t.live, t.pmm.freeList 1, t.pmm.buddyOf 0x40000000 1, s.freeList 1)) =
      some ([], [0x40002000, 0x40000000], 0x40002000, []) := by
    decide +kernel
  obtain ⟨s, hs, ht⟩ := Option.bind_eq_some_iff.mp hrun
  obtain ⟨t, hcalls, hend⟩ := Option.map_eq_some_iff.mp ht
  simp only [Prod.mk.injEq] at hend
  obtain ⟨hlive, hfree, hbuddy, hnone⟩ := hend
  refine ⟨s, t, hs, run_of_calls _ hcalls, hlive, ?_, ?_, hnone⟩
  · rw [hfree]
    simp
  · rw [hbuddy, hfree]
    simp

end Pmm

end HyperBerry
