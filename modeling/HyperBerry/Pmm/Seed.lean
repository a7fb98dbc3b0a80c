import HyperBerry.Pmm.BringUp

/-!
# Seeding the free lists

The seeding loop of `SetMemoryMap` walks over the pool once and frees the blocks `IsSeed`, from the
lowest address up.  `Seeded` is its invariant: the blocks freed so far are the seeds below the
current page, and they fill the pool up to there.

The loop only ends when the size of the pool is a whole number of pages: a remainder shorter than a
page is never used up (`seedLoop_eq_none`).
-/

namespace HyperBerry

namespace Pmm

/-- Seeding has reached page `p`. -/
structure Seeded (base n p : ℕ) (s : Pmm) (free : ℕ → List ℕ) (lost : List Block) : Prop
    extends Boot base n s free lost where
  /-- The pool is well formed. -/
  wf : Pool base n s
  /-- The pages below `p` are in some block. -/
  cover_eq : cover (blocksOf maxOrder free ++ lost) = Set.Iio p
  /-- The blocks are the seeds below `p`. -/
  mem_iff : ∀ b, b ∈ blocksOf maxOrder free ++ lost ↔ IsSeed n b ∧ b.page < p

/-- A seed of larger order lies below the tail block of a smaller one. -/
lemma IsSeed.end_le_tailPage {n o : ℕ} {c : Block} (hc : IsSeed n c) (ho : o < c.order) :
    c.page + 2 ^ c.order ≤ tailPage n o := by
  have hdvd : 2 ^ (o + 1) ∣ c.page + 2 ^ c.order := by
    have hpow : 2 ^ (o + 1) ∣ 2 ^ c.order := pow_dvd_pow 2 ho
    exact dvd_add (hpow.trans hc.aligned) hpow
  obtain ⟨m, hm⟩ := hdvd
  have hbound := hc.bound
  rw [hm] at hbound ⊢
  rw [tailPage, Nat.mul_comm]
  exact Nat.mul_le_mul_right _ ((Nat.le_div_iff_mul_le (by positivity)).mpr
    (by rw [Nat.mul_comm]; exact hbound))

/-- Two seeds with a common page are equal. -/
lemma IsSeed.eq_of_mem {n x : ℕ} {b c : Block} (hb : IsSeed n b) (hc : IsSeed n c)
    (hxb : x ∈ b.pages) (hxc : x ∈ c.pages) : b = c := by
  have hlt : ∀ {b c : Block}, IsSeed n b → IsSeed n c → x ∈ b.pages → x ∈ c.pages →
      ¬ b.order < c.order := by
    intro b c hb hc hxb hxc ho
    have hpage : b.page = tailPage n b.order := by
      refine hb.tail.resolve_left fun hmax => ?_
      have := hc.order_le
      omega
    have hend := hc.end_le_tailPage ho
    rw [Block.mem_pages] at hxb hxc
    omega
  have h1 := hlt hb hc hxb hxc
  have h2 := hlt hc hb hxc hxb
  exact Block.eq_of_mem_pages hb.aligned hc.aligned (by omega) hxb hxc

variable {base n p : ℕ} {s : Pmm} {free : ℕ → List ℕ} {lost : List Block}

/-- One step of seeding. -/
lemma Seeded.step (h : Seeded base n p s free lost) {o : ℕ} (hb : IsSeed n ⟨o, p⟩) :
    ∃ s' v free' lost', s.bitmapToggle (pageAddr base p) o = some (s', v) ∧
      Seeded base n (p + 2 ^ o) (s'.listPush (pageAddr base p) o) free' lost' := by
  have hpos : 0 < 2 ^ o := by positivity
  have hdisj : Disjoint (⟨o, p⟩ : Block).pages (cover (blocksOf maxOrder free ++ lost)) := by
    rw [h.cover_eq, Set.disjoint_left]
    intro x hx hlt
    rw [Block.mem_pages] at hx
    exact absurd hx.1 (not_le.mpr hlt)
  have hzero : pageAddr base p = 0 → free o = [] := by
    -- the block at address `0` is the first one of the pool
    intro h0
    have hp0 : p = 0 := by
      unfold pageAddr pageSize at h0
      omega
    by_contra hne
    obtain ⟨q, hq⟩ := List.exists_mem_of_ne_nil _ hne
    have hmem : (⟨o, q⟩ : Block) ∈ blocksOf maxOrder free ++ lost :=
      List.mem_append_left _ (mem_blocksOf.mpr ⟨hb.order_le, hq⟩)
    have hlt := ((h.mem_iff _).mp hmem).2
    omega
  obtain ⟨s', v, free', lost', htoggle, hboot, hpool, hperm⟩ :=
    h.toBoot.seed (b := ⟨o, p⟩) h.wf hb hdisj hzero
  refine ⟨s', v, free', lost', htoggle, { hboot with wf := hpool, cover_eq := ?_, mem_iff := ?_ }⟩
  · rw [← cover_perm hperm, cover_cons, h.cover_eq]
    ext x
    simp only [Set.mem_union, Block.mem_pages, Set.mem_Iio]
    omega
  · intro c
    rw [← hperm.mem_iff, List.mem_cons, h.mem_iff]
    constructor
    · rintro (rfl | ⟨hc, hlt⟩)
      · exact ⟨hb, by simp only; omega⟩
      · exact ⟨hc, by omega⟩
    · rintro ⟨hc, hlt⟩
      by_cases hcp : c.page < p
      · exact Or.inr ⟨hc, hcp⟩
      · left
        refine hc.eq_of_mem hb c.page_mem_pages ?_
        rw [Block.mem_pages]
        simp only
        omega

/-- Advancing past a block of the pool does not wrap. -/
lemma Pool.add64_pageAddr (h : Pool base n s) {o : ℕ} (hp : p + 2 ^ o ≤ n) :
    add64 (pageAddr base p) (pageSize <<< o) = pageAddr base (p + 2 ^ o) := by
  have hend := h.end_lt
  have hle : pageSize * (p + 2 ^ o) ≤ pageSize * n := Nat.mul_le_mul_left _ hp
  rw [← pageAddr_add_blockSize]
  refine add64_of_lt ?_
  rw [pageAddr_add_blockSize, pageAddr]
  omega

/-- The order loop frees one block for each binary digit of the tail. -/
lemma Seeded.seedTail : ∀ (k : ℕ) {s : Pmm} {free : ℕ → List ℕ} {lost : List Block},
    k ≤ maxOrder → Seeded base n (n / 2 ^ k * 2 ^ k) s free lost →
    ∃ s' free' lost', Pmm.seedTail k s (pageAddr base (n / 2 ^ k * 2 ^ k))
        (pageSize * (n - n / 2 ^ k * 2 ^ k)) = some (s', pageAddr base n) ∧
      Seeded base n n s' free' lost' := by
  intro k
  induction k with
  | zero =>
    intro s free lost _ h
    rw [pow_zero, Nat.div_one, Nat.mul_one] at h ⊢
    exact ⟨s, free, lost, rfl, h⟩
  | succ k ih =>
    intro s free lost hk h
    have hpow : 2 ^ (k + 1) = 2 * 2 ^ k := by rw [pow_succ, Nat.mul_comm]
    have hpos : 0 < 2 ^ k := by positivity
    have hmod : n % 2 ^ k < 2 ^ k := Nat.mod_lt _ hpos
    have hn : n / 2 ^ k * 2 ^ k + n % 2 ^ k = n := Nat.div_add_mod' n _
    have hhalf : n / 2 ^ (k + 1) = n / 2 ^ k / 2 := by rw [pow_succ, Nat.div_div_eq_div_mul]
    rw [Pmm.seedTail]
    rcases Nat.even_or_odd' (n / 2 ^ k) with ⟨j, hj | hj⟩
    · -- digit `k` is zero: the block does not fit
      have hsame : n / 2 ^ (k + 1) * 2 ^ (k + 1) = n / 2 ^ k * 2 ^ k := by
        rw [hhalf, hj, hpow, Nat.mul_div_cancel_left j (by norm_num)]
        ring
      have hfit : ¬ pageSize * (n - n / 2 ^ k * 2 ^ k) ≥ pageSize <<< k := by
        rw [pageSize_shiftLeft, ge_iff_le, not_le]
        exact Nat.mul_lt_mul_of_pos_left (by omega) (by decide)
      rw [hsame] at h ⊢
      rw [if_neg hfit]
      exact ih (by omega) h
    · -- digit `k` is one: the block is freed
      have hnext : n / 2 ^ (k + 1) * 2 ^ (k + 1) + 2 ^ k = n / 2 ^ k * 2 ^ k := by
        rw [hhalf, hj, hpow, show (2 * j + 1) / 2 = j by omega]
        ring
      have hfit : pageSize * (n - n / 2 ^ (k + 1) * 2 ^ (k + 1)) ≥ pageSize <<< k := by
        rw [pageSize_shiftLeft, ge_iff_le]
        exact Nat.mul_le_mul_left _ (by omega)
      have hseed : IsSeed n ⟨k, n / 2 ^ (k + 1) * 2 ^ (k + 1)⟩ :=
        { aligned := (pow_dvd_pow 2 (Nat.le_succ k)).trans (Nat.dvd_mul_left _ _)
          bound := by simp only; omega
          order_le := by simp only; omega
          tail := Or.inr rfl }
      obtain ⟨s', v, free', lost', htoggle, hs'⟩ := h.step hseed
      have hrem : pageSize * (n - n / 2 ^ (k + 1) * 2 ^ (k + 1)) - pageSize <<< k =
          pageSize * (n - n / 2 ^ k * 2 ^ k) := by
        rw [pageSize_shiftLeft, ← Nat.mul_sub]
        congr 1
        omega
      rw [hnext] at hs'
      simp only [if_pos hfit, htoggle, Option.bind_eq_bind, Option.bind_some]
      rw [h.wf.add64_pageAddr (by omega), hnext, hrem]
      exact ih (by omega) hs'

/-- The seeding loop frees all seeds. -/
lemma Seeded.seedLoop : ∀ (fuel : ℕ) {p : ℕ} {s : Pmm} {free : ℕ → List ℕ} {lost : List Block},
    (2 ^ maxOrder ∣ p ∨ p = n) → p ≤ n → n - p + 1 < fuel → Seeded base n p s free lost →
    ∃ s' free' lost', Pmm.seedLoop (pageAddr base n) fuel s (pageAddr base p) = some s' ∧
      Seeded base n n s' free' lost' := by
  intro fuel
  induction fuel with
  | zero =>
    intro p s free lost _ _ hfuel
    omega
  | succ fuel ih =>
    intro p s free lost hp hle hfuel h
    have hmaxpos : 0 < 2 ^ maxOrder := by positivity
    rw [Pmm.seedLoop]
    by_cases hend : p = n
    · subst hend
      rw [if_neg (by omega)]
      exact ⟨s, free, lost, rfl, h⟩
    · have hdvd : 2 ^ maxOrder ∣ p := hp.resolve_right hend
      have hlt : pageAddr base p < pageAddr base n := by
        unfold pageAddr pageSize
        omega
      have hrem : pageAddr base n - pageAddr base p = pageSize * (n - p) := by
        unfold pageAddr
        rw [Nat.mul_sub]
        omega
      simp only [if_pos hlt, hrem]
      by_cases hbig : 2 ^ maxOrder ≤ n - p
      · have hfit : pageSize * (n - p) ≥ pageSize <<< maxOrder := by
          rw [pageSize_shiftLeft]
          exact Nat.mul_le_mul_left _ hbig
        have hseed : IsSeed n ⟨maxOrder, p⟩ :=
          ⟨hdvd, by simp only; omega, le_rfl, Or.inl rfl⟩
        obtain ⟨s', v, free', lost', htoggle, hs'⟩ := h.step hseed
        simp only [if_pos hfit, htoggle, Option.bind_eq_bind, Option.bind_some]
        rw [h.wf.add64_pageAddr (by omega)]
        exact ih (Or.inl (dvd_add hdvd dvd_rfl)) (by omega) (by omega) hs'
      · have hsmall : ¬ pageSize * (n - p) ≥ pageSize <<< maxOrder := by
          rw [pageSize_shiftLeft, ge_iff_le, not_le]
          exact Nat.mul_lt_mul_of_pos_left (by omega) (by decide)
        have hpage : n / 2 ^ maxOrder * 2 ^ maxOrder = p := by
          obtain ⟨m, rfl⟩ := hdvd
          rw [show n / 2 ^ maxOrder = m from ?_, Nat.mul_comm]
          refine Nat.div_eq_of_lt_le (by rw [Nat.mul_comm]; exact hle) ?_
          rw [Nat.add_mul, Nat.one_mul, Nat.mul_comm m]
          omega
        have hs : Seeded base n (n / 2 ^ maxOrder * 2 ^ maxOrder) s free lost := hpage.symm ▸ h
        obtain ⟨s', free', lost', hrun, hs'⟩ := Seeded.seedTail maxOrder le_rfl hs
        rw [hpage] at hrun
        have hrun' : Pmm.seedTail numOrders s (pageAddr base p) (pageSize * (n - p)) =
            some (s', pageAddr base n) := by
          rw [numOrders, Pmm.seedTail, if_neg hsmall, hrun]
        simp only [if_neg hsmall, hrun', Option.bind_eq_bind, Option.bind_some]
        exact ih (Or.inr rfl) le_rfl (by omega) hs'

/-- An empty range is left alone. -/
lemma seedLoop_of_not_lt {poolEnd fuel addr : ℕ} (hfuel : 0 < fuel) (h : ¬ addr < poolEnd) :
    Pmm.seedLoop poolEnd fuel s addr = some s := by
  obtain ⟨k, rfl⟩ : ∃ k, fuel = k + 1 := ⟨fuel - 1, by omega⟩
  rw [Pmm.seedLoop, if_neg h]

/-! ## A remainder shorter than a page -/

/-- The order loop advances by whole pages and stays inside the pool. -/
lemma seedTail_advance : ∀ (k : ℕ) {s s' : Pmm} {addr addr' poolEnd : ℕ}, poolEnd < 2 ^ 64 →
    addr ≤ poolEnd → Pmm.seedTail k s addr (poolEnd - addr) = some (s', addr') →
    addr' ≤ poolEnd ∧ (poolEnd - addr') % pageSize = (poolEnd - addr) % pageSize := by
  intro k
  induction k with
  | zero =>
    intro s s' addr addr' poolEnd _ hle h
    simp only [Pmm.seedTail, Option.some.injEq, Prod.mk.injEq] at h
    rw [← h.2]
    exact ⟨hle, rfl⟩
  | succ k ih =>
    intro s s' addr addr' poolEnd hend hle h
    rw [Pmm.seedTail] at h
    by_cases hfit : poolEnd - addr ≥ pageSize <<< k
    · simp only [if_pos hfit, Option.bind_eq_bind, Option.bind_eq_some_iff] at h
      obtain ⟨t, -, h⟩ := h
      have hadd : add64 addr (pageSize <<< k) = addr + pageSize <<< k := add64_of_lt (by omega)
      rw [hadd, Nat.sub_sub] at h
      obtain ⟨hle', hmod⟩ := ih hend (by omega) h
      refine ⟨hle', hmod.trans ?_⟩
      rw [pageSize_shiftLeft] at hfit ⊢
      have hsplit : poolEnd - addr = poolEnd - (addr + pageSize * 2 ^ k) + pageSize * 2 ^ k := by
        omega
      rw [hsplit, Nat.add_mul_mod_self_left]
    · rw [if_neg hfit] at h
      exact ih hend hle h

/-- The seeding loop never ends on a pool that is not a whole number of pages. -/
lemma seedLoop_eq_none {poolEnd : ℕ} (hend : poolEnd < 2 ^ 64) : ∀ (fuel : ℕ) {s : Pmm} {addr : ℕ},
    addr ≤ poolEnd → (poolEnd - addr) % pageSize ≠ 0 → Pmm.seedLoop poolEnd fuel s addr = none := by
  intro fuel
  induction fuel with
  | zero => intros; rfl
  | succ fuel ih =>
    intro s addr hle hmod
    have hlt : addr < poolEnd := by
      rcases Nat.lt_or_eq_of_le hle with hlt | rfl
      · exact hlt
      · simp at hmod
    rw [Pmm.seedLoop]
    simp only [if_pos hlt]
    by_cases hbig : poolEnd - addr ≥ pageSize <<< maxOrder
    · simp only [if_pos hbig, Option.bind_eq_bind]
      cases htoggle : s.bitmapToggle addr maxOrder with
      | none => rfl
      | some t =>
        have hadd : add64 addr (pageSize <<< maxOrder) = addr + pageSize <<< maxOrder :=
          add64_of_lt (by omega)
        simp only [Option.bind_some, hadd]
        refine ih (by omega) ?_
        rw [pageSize_shiftLeft] at hbig ⊢
        have hsplit : poolEnd - addr =
            poolEnd - (addr + pageSize * 2 ^ maxOrder) + pageSize * 2 ^ maxOrder := by omega
        rwa [hsplit, Nat.add_mul_mod_self_left] at hmod
    · simp only [if_neg hbig, Option.bind_eq_bind]
      cases htail : Pmm.seedTail numOrders s addr (poolEnd - addr) with
      | none => rfl
      | some r =>
        obtain ⟨hle', hmod'⟩ := seedTail_advance numOrders hend hle htail
        exact ih hle' (by rw [hmod']; exact hmod)

end Pmm

end HyperBerry
