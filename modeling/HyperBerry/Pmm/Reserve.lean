import HyperBerry.Pmm.Seed

/-!
# Reserving regions

`reserveRegion` rounds a region out to pages and walks over it.  It never splits a block: what it
takes off the free lists are exactly the listed blocks that lie inside the rounded region, at an
address that is a multiple of their size (`Inside`).  A larger block that merely overlaps the region
stays where it is.

Once the reservations are made, the state satisfies the allocator invariant for the pages that are
still listed (`Boot.inv`).
-/

namespace HyperBerry

open LinkedList

namespace Pmm

/-- The block at `addr` lies between `start` and `fin`, at a multiple of its size. -/
def Inside (start fin addr order : ℕ) : Prop :=
  pageSize <<< order ∣ addr ∧ start ≤ addr ∧ addr + pageSize <<< order ≤ fin

instance (start fin addr order : ℕ) : Decidable (Inside start fin addr order) :=
  inferInstanceAs (Decidable (_ ∧ _ ∧ _))

/-- The alignment test of `reserveRegion`. -/
lemma and_blockSize_sub_one_eq_zero {addr o : ℕ} :
    addr &&& (pageSize <<< o - 1) = 0 ↔ pageSize <<< o ∣ addr := by
  have hpow : pageSize <<< o = 2 ^ (12 + o) := by
    rw [pageSize_shiftLeft, pow_add]
    rfl
  rw [hpow, Nat.and_two_pow_sub_one_eq_mod, Nat.dvd_iff_mod_eq_zero]

/-- The start of a region is rounded down. -/
lemma regionStart_eq {a : ℕ} (ha : a < 2 ^ 64) : regionStart a = a / pageSize * pageSize :=
  and_not64_two_pow_sub_one ha (k := 12) (by norm_num)

/-- The end of a region is a multiple of the page size. -/
lemma pageSize_dvd_regionEnd (a size : ℕ) : pageSize ∣ regionEnd a size := by
  have h : regionEnd a size = _ / pageSize * pageSize :=
    and_not64_two_pow_sub_one (sub64_lt _ _) (k := 12) (by norm_num)
  rw [h]
  exact Nat.dvd_mul_left _ _

/-- The end of a region is an address. -/
lemma regionEnd_lt (a size : ℕ) : regionEnd a size < 2 ^ 64 :=
  Nat.and_le_left.trans_lt (sub64_lt _ _)

section Reserve

variable {base n : ℕ} {s : Pmm} {free : ℕ → List ℕ} {lost : List Block}

/-- The outcomes of the order loop at `addr`, over the orders below `k`: either no listed block of
these orders starts there and fits, or one is taken off its list. -/
def ReserveAtOutcome (base n : ℕ) (s : Pmm) (free : ℕ → List ℕ) (lost : List Block)
    (addr fin k : ℕ) : Prop :=
  (s.reserveAt addr fin k = some (s, pageSize) ∧
    ∀ b ∈ blocksOf maxOrder free, b.order < k → pageAddr base b.page = addr →
      ¬ Inside addr fin addr b.order) ∨
  ∃ b ∈ blocksOf maxOrder free, ∃ s', pageAddr base b.page = addr ∧
    Inside addr fin addr b.order ∧
    s.reserveAt addr fin k = some (s', pageSize <<< b.order) ∧
    Boot base n s' (Function.update free b.order ((free b.order).erase b.page)) lost

/-- The order loop at one address takes off the block listed there, if it fits. -/
lemma Boot.reserveAt (h : Boot base n s free lost) (addr fin : ℕ) : ∀ k ≤ numOrders,
    ReserveAtOutcome base n s free lost addr fin k := by
  intro k
  induction k with
  | zero =>
    intro _
    exact Or.inl ⟨rfl, fun _ _ hlt => absurd hlt (Nat.not_lt_zero _)⟩
  | succ o ih =>
    intro hk
    have ho : o ≤ maxOrder := by
      unfold numOrders at hk
      omega
    -- when the block of order `o` is not taken, the smaller orders decide
    have hskip : s.reserveAt addr fin (o + 1) = s.reserveAt addr fin o →
        (∀ b ∈ blocksOf maxOrder free, b.order = o → pageAddr base b.page = addr →
          ¬ Inside addr fin addr b.order) →
        ReserveAtOutcome base n s free lost addr fin (o + 1) := by
      intro hrun hnone
      rcases ih (by omega) with ⟨hrun', hall⟩ | ⟨b, hb, s', haddr, hin, hrun', hs'⟩
      · refine Or.inl ⟨hrun.trans hrun', fun b hb hlt haddr => ?_⟩
        rcases Nat.lt_succ_iff_lt_or_eq.mp hlt with hlt' | heq
        · exact hall b hb hlt' haddr
        · exact hnone b hb heq haddr
      · exact Or.inr ⟨b, hb, s', haddr, hin, hrun.trans hrun', hs'⟩
    by_cases halign : pageSize <<< o ∣ addr
    swap
    · refine hskip ?_ fun b _ hbo _ hin => halign (hbo ▸ hin.1)
      rw [Pmm.reserveAt]
      simp only [if_pos (mt and_blockSize_sub_one_eq_zero.mp halign)]
    have hmask : ¬ addr &&& (pageSize <<< o - 1) ≠ 0 :=
      not_not.mpr (and_blockSize_sub_one_eq_zero.mpr halign)
    by_cases hmem : addr ∈ (free o).map (pageAddr base)
    · obtain ⟨p, hp, rfl⟩ := List.mem_map.mp hmem
      have hb : (⟨o, p⟩ : Block) ∈ blocksOf maxOrder free := mem_blocksOf.mpr ⟨ho, hp⟩
      -- the end of a listed block does not wrap
      have hadd : add64 (pageAddr base p) (pageSize <<< o) = pageAddr base p + pageSize <<< o := by
        refine add64_of_lt ?_
        rw [pageAddr_add_blockSize]
        exact h.block_end_lt hb
      by_cases hfit : pageAddr base p + pageSize <<< o ≤ fin
      · obtain ⟨s₁, s', v, hrem, htoggle, hs'⟩ := h.reserve hb
        refine Or.inr ⟨⟨o, p⟩, hb, s', rfl, ⟨halign, le_rfl, hfit⟩, ?_, hs'⟩
        rw [Pmm.reserveAt]
        simp only [if_neg hmask, hadd, if_neg (Nat.not_lt.mpr hfit), hrem, htoggle,
          Option.bind_eq_bind, Option.bind_some, if_true, Option.pure_def]
      · refine hskip ?_ fun b _ hbo _ hin => hfit (hbo ▸ hin.2.2)
        rw [Pmm.reserveAt]
        simp only [if_neg hmask, hadd, if_pos (Nat.not_le.mp hfit)]
    · refine hskip ?_ ?_
      · rw [Pmm.reserveAt]
        have hrem := h.lists.remove_of_not_mem ho hmem (h.free_nodup ho) (h.free_addr_lt ho)
        by_cases hfit : add64 addr (pageSize <<< o) > fin
        · simp only [if_neg hmask, if_pos hfit]
        · simp only [if_neg hmask, if_neg hfit, hrem, Option.bind_eq_bind, Option.bind_some]
          rfl
      · rintro b hb rfl rfl
        exact absurd (mem_map_pageAddr.mpr (mem_blocksOf.mp hb).2) hmem

/-- The address loop takes off the listed blocks inside the rest of the region. -/
lemma Boot.reserveLoop {fin : ℕ} (hfin : pageSize ∣ fin) (hlt : fin < 2 ^ 64) :
    ∀ (fuel : ℕ) {s : Pmm} {free : ℕ → List ℕ} {addr : ℕ}, Boot base n s free lost →
      pageSize ∣ addr → fin - addr < fuel →
      ∃ s' free', reserveLoop fin fuel s addr = some s' ∧ Boot base n s' free' lost ∧
        ∀ b, b ∈ blocksOf maxOrder free' ↔
          b ∈ blocksOf maxOrder free ∧ ¬ Inside addr fin (pageAddr base b.page) b.order := by
  intro fuel
  induction fuel with
  | zero =>
    intro s free addr _ _ hfuel
    omega
  | succ fuel ih =>
    intro s free addr h haddr hfuel
    rw [Pmm.reserveLoop]
    by_cases hend : addr < fin
    swap
    · rw [if_neg hend]
      refine ⟨s, free, rfl, h, fun b => ⟨fun hb => ⟨hb, fun hin => ?_⟩, And.left⟩⟩
      have hpos : 0 < pageSize <<< b.order := by
        rw [pageSize_shiftLeft]
        exact Nat.mul_pos (by decide) (by positivity)
      have h1 := hin.2.1
      have h2 := hin.2.2
      omega
    rw [if_pos hend]
    rcases h.reserveAt addr fin numOrders le_rfl with
      ⟨hrun, hnone⟩ | ⟨b, hb, s', haddrb, hin, hrun, hs'⟩
    · -- nothing to take here: go on with the next page
      have hnext : addr + pageSize ≤ fin := by
        obtain ⟨x, rfl⟩ := hfin
        obtain ⟨y, rfl⟩ := haddr
        have hyx : y + 1 ≤ x := Nat.lt_of_mul_lt_mul_left hend
        calc pageSize * y + pageSize = pageSize * (y + 1) := by ring
          _ ≤ pageSize * x := Nat.mul_le_mul_left _ hyx
      have hpos : 0 < pageSize := by decide
      have hdvd : pageSize ∣ addr + pageSize := dvd_add haddr dvd_rfl
      obtain ⟨s', free', hloop, hboot, hmem⟩ := ih h hdvd (by omega)
      refine ⟨s', free', ?_, hboot, fun c => ?_⟩
      · simp only [hrun, Option.bind_eq_bind, Option.bind_some]
        rw [add64_of_lt (by omega), hloop]
      · rw [hmem]
        refine and_congr_right fun hc => not_congr ⟨fun hin => ?_, fun hin => ?_⟩
        · exact ⟨hin.1, (Nat.le_add_right _ _).trans hin.2.1, hin.2.2⟩
        · refine ⟨hin.1, ?_, hin.2.2⟩
          have hne : pageAddr base c.page ≠ addr := by
            intro heq
            have horder := (mem_blocksOf.mp hc).1
            refine hnone c hc (by unfold numOrders; omega) heq ?_
            rw [heq] at hin
            exact hin
          have hdvd : pageSize ∣ pageAddr base c.page := by
            refine dvd_trans ?_ hin.1
            rw [pageSize_shiftLeft]
            exact dvd_mul_right _ _
          have hle := hin.2.1
          obtain ⟨x, hx⟩ := hdvd
          obtain ⟨y, hy⟩ := haddr
          rw [hx, hy] at hne hle ⊢
          have hyx : y ≤ x := Nat.le_of_mul_le_mul_left hle hpos
          have hyx' : y ≠ x := fun hxy => hne (by rw [hxy])
          calc pageSize * y + pageSize = pageSize * (y + 1) := by ring
            _ ≤ pageSize * x := Nat.mul_le_mul_left _ (by omega)
    · -- the block `b` is taken: no other listed block starts before its end
      have hpos : 0 < pageSize <<< b.order := by
        rw [pageSize_shiftLeft]
        exact Nat.mul_pos (by decide) (by positivity)
      have hfit := hin.2.2
      have hdvd : pageSize ∣ addr + pageSize <<< b.order := by
        refine dvd_add haddr ?_
        rw [pageSize_shiftLeft]
        exact dvd_mul_right _ _
      obtain ⟨s'', free'', hloop, hboot, hmem⟩ :=
        ih hs' hdvd (by omega)
      refine ⟨s'', free'', ?_, hboot, fun c => ?_⟩
      · simp only [hrun, Option.bind_eq_bind, Option.bind_some]
        rw [add64_of_lt (by omega), hloop]
      · have herase : c ∈ blocksOf maxOrder
            (Function.update free b.order ((free b.order).erase b.page)) ↔
            c ∈ blocksOf maxOrder free ∧ c ≠ b := by
          rw [mem_blocksOf, mem_blocksOf, mem_update_erase (h.free_nodup (mem_blocksOf.mp hb).1)]
          tauto
        rw [hmem, herase]
        constructor
        · rintro ⟨⟨hc, hne⟩, hnin⟩
          refine ⟨hc, fun hinc => hnin ⟨hinc.1, ?_, hinc.2.2⟩⟩
          by_contra hlt'
          -- `c` would start inside `b`
          refine hne (h.tiling.eq_of_mem (List.mem_append_left _ hc) (List.mem_append_left _ hb)
            c.page_mem_pages ?_)
          have hle := hinc.2.1
          rw [← haddrb, pageSize_shiftLeft] at hlt'
          rw [← haddrb] at hle
          rw [Block.mem_pages]
          unfold pageAddr pageSize at hlt' hle
          omega
        · rintro ⟨hc, hnin⟩
          refine ⟨⟨hc, ?_⟩, fun hinc => hnin ⟨hinc.1, (Nat.le_add_right _ _).trans hinc.2.1,
            hinc.2.2⟩⟩
          rintro rfl
          rw [haddrb] at hnin
          exact hnin hin

/-- Reserving a region takes off the listed blocks inside it. -/
lemma Boot.reserveRegion (h : Boot base n s free lost) {a : ℕ} (ha : a < 2 ^ 64) (size : ℕ) :
    ∃ s' free', s.reserveRegion a size = some s' ∧ Boot base n s' free' lost ∧
      ∀ b, b ∈ blocksOf maxOrder free' ↔ b ∈ blocksOf maxOrder free ∧
        ¬ Inside (regionStart a) (regionEnd a size) (pageAddr base b.page) b.order := by
  refine Boot.reserveLoop (pageSize_dvd_regionEnd a size) (regionEnd_lt a size) loopFuel h ?_ ?_
  · rw [regionStart_eq ha]
    exact Nat.dvd_mul_left _ _
  · rw [loopFuel]
    exact (Nat.sub_le _ _).trans_lt (regionEnd_lt a size)

/-- The block lies inside one of the regions. -/
def Reserved (regions : List (ℕ × ℕ)) (addr order : ℕ) : Prop :=
  ∃ r ∈ regions, Inside (regionStart r.1) (regionEnd r.1 r.2) addr order

instance (regions : List (ℕ × ℕ)) (addr order : ℕ) : Decidable (Reserved regions addr order) :=
  inferInstanceAs (Decidable (∃ r ∈ regions, _))

/-- Reserving a list of regions takes off the listed blocks inside any of them. -/
lemma Boot.reserveAll : ∀ (regions : List (ℕ × ℕ)) {s : Pmm} {free : ℕ → List ℕ},
    Boot base n s free lost → (∀ r ∈ regions, r.1 < 2 ^ 64) →
    ∃ s' free', regions.foldlM (fun s r => s.reserveRegion r.1 r.2) s = some s' ∧
      Boot base n s' free' lost ∧
      ∀ b, b ∈ blocksOf maxOrder free' ↔
        b ∈ blocksOf maxOrder free ∧ ¬ Reserved regions (pageAddr base b.page) b.order := by
  intro regions
  induction regions with
  | nil =>
    intro s free h _
    exact ⟨s, free, rfl, h, fun b => by simp [Reserved]⟩
  | cons r regions ih =>
    intro s free h hr
    obtain ⟨s₁, free₁, hrun₁, h₁, hmem₁⟩ := h.reserveRegion (hr r List.mem_cons_self) r.2
    obtain ⟨s₂, free₂, hrun₂, h₂, hmem₂⟩ := ih h₁ fun r' hr' => hr r' (List.mem_cons_of_mem _ hr')
    refine ⟨s₂, free₂, ?_, h₂, fun b => ?_⟩
    · rw [List.foldlM_cons, hrun₁]
      exact hrun₂
    · rw [hmem₂, hmem₁, and_assoc]
      simp only [Reserved, List.mem_cons, exists_eq_or_imp, not_or]

/-- Printing the state ends. -/
lemma Boot.dumpState (h : Boot base n s free lost) : ∃ counts, s.dumpState = some counts := by
  have hall : ∀ l : List ℕ, (∀ o ∈ l, o ≤ maxOrder) → ∃ counts,
      l.mapM (fun o => (nodes s.next loopFuel (s.freeLists o)).map List.length) = some counts := by
    intro l
    induction l with
    | nil => exact fun _ => ⟨[], rfl⟩
    | cons o l ih =>
      intro hl
      obtain ⟨counts, hcounts⟩ := ih fun o' ho' => hl o' (List.mem_cons_of_mem _ ho')
      have ho := hl o List.mem_cons_self
      have hnodes := h.lists.freeList_eq ho (h.free_nodup ho) (h.free_addr_lt ho)
      refine ⟨(free o).length :: counts, ?_⟩
      rw [List.mapM_cons, hnodes, hcounts]
      simp
  refine hall _ fun o ho => ?_
  have := List.mem_range.mp ho
  unfold numOrders at this
  omega

/-! ## From bring-up to the allocator invariant -/

/-- A seed below the largest order has no buddy in the pool. -/
lemma IsSeed.buddy_end_gt {b : Block} (hb : IsSeed n b) (ho : b.order < maxOrder) :
    n < b.buddy.page + 2 ^ b.order := by
  have hpage : b.page = tailPage n b.order := hb.tail.resolve_left (Nat.ne_of_lt ho)
  have hdvd : 2 ^ (b.order + 1) ∣ b.page := by
    rw [hpage]
    exact Nat.dvd_mul_left _ _
  have hbuddy : b.buddy = ⟨b.order, b.page + 2 ^ b.order⟩ := Block.buddy_lower hdvd
  have hmod : n % 2 ^ (b.order + 1) < 2 ^ (b.order + 1) := Nat.mod_lt _ (by positivity)
  have hn : tailPage n b.order + n % 2 ^ (b.order + 1) = n := Nat.div_add_mod' n _
  have hpow : 2 ^ (b.order + 1) = 2 * 2 ^ b.order := by rw [pow_succ, Nat.mul_comm]
  rw [hbuddy]
  simp only
  omega

/-- At the end of bring-up the allocator invariant holds for the pages that are still listed. -/
lemma Boot.inv (h : Boot base n s free lost) :
    Inv base n (cover (blocksOf maxOrder free)) s free [] := by
  have htiling : Tiling n maxOrder (blocksOf maxOrder free) :=
    h.tiling.sublist (List.sublist_append_left _ _)
  have hne_zero : ∀ p ∈ cover (blocksOf maxOrder free), pageAddr base p ≠ 0 := by
    rintro p ⟨b, hb, hpb⟩ h0
    refine h.ne_zero b hb ?_
    rw [Block.mem_pages] at hpb
    unfold pageAddr pageSize at h0 ⊢
    omega
  -- a listed block and its buddy are never both in the pool
  have hnot : ∀ b : Block, b.order < maxOrder → b.buddy.pages ⊆ cover (blocksOf maxOrder free) →
      b ∉ blocksOf maxOrder free := by
    intro b ho hsub hb
    have hgt := (h.seeds b (List.mem_append_left _ hb)).buddy_end_gt ho
    have hle := b.buddy.end_le_of_pages_subset (fun _ => htiling.lt_of_mem_cover) hsub
    rw [Block.buddy_order] at hle
    omega
  have hnot' : ∀ b : Block, b.Aligned → b.order < maxOrder →
      b.pages ⊆ cover (blocksOf maxOrder free) → b.buddy ∉ blocksOf maxOrder free := by
    intro b hal ho hsub
    refine hnot b.buddy ho ?_
    rw [Block.buddy_buddy]
    exact hsub
  exact
    { base_eq := h.base_eq
      pool := fun ⟨_, b, hb, _⟩ => h.pool b hb
      ne_zero := hne_zero
      lists := h.lists
      tiling := by rwa [List.append_nil]
      cover_eq := by rw [List.append_nil]
      bits := by
        intro hna b hal ho hsub hsub'
        have hb := hnot b ho hsub'
        have hb' := hnot' b hal ho hsub
        have h1 : b.page ∉ free b.order := fun hmem => hb (mem_blocksOf.mpr ⟨ho.le, hmem⟩)
        have h2 : b.buddy.page ∉ free b.order := fun hmem => hb' (mem_blocksOf.mpr ⟨ho.le, hmem⟩)
        rw [decide_eq_false h1, decide_eq_false h2, h.bits]
        refine parityBit_eq_false fun c hc hbit => ?_
        have hlost : c ∈ lost → (0 : ℕ) ∉ cover (blocksOf maxOrder free) := by
          intro hcl h0
          refine hne_zero 0 h0 ?_
          have := h.lost_zero c hcl
          unfold pageAddr at this ⊢
          omega
        have hpages : 0 ∈ cover (blocksOf maxOrder free) →
            c.pages ⊆ cover (blocksOf maxOrder free) := by
          intro h0
          rcases List.mem_append.mp hc with hcf | hcl
          · exact pages_subset_cover hcf
          · exact absurd h0 (hlost hcl)
        have heq := eq_or_eq_buddy_of_pairBit_eq hna (fun _ => htiling.lt_of_mem_cover) hal ho hsub
          hsub' (h.tiling.aligned c hc) (h.tiling.bound c hc) hpages hbit.symm
        rcases List.mem_append.mp hc with hcf | hcl
        · rcases heq with rfl | rfl
          · exact hb hcf
          · exact hb' hcf
        · -- a lost block starts at page `0`, which is in no listed block
          have hc0 : c.page ∈ cover (blocksOf maxOrder free) := by
            rcases heq with rfl | rfl
            · exact hsub c.page_mem_pages
            · exact hsub' b.buddy.page_mem_pages
          exact hne_zero _ hc0 (h.lost_zero c hcl)
      coalesced := fun _ b hb ho hbuddy => hnot b ho (pages_subset_cover hbuddy) hb }

end Reserve

end Pmm

end HyperBerry
