import Mathlib
import HyperBerry.Lib.Word

/-!
# Dyadic blocks and tilings

A block of order `o` is a run of `2 ^ o` consecutive pages; it is aligned when its first page is a
multiple of its length.  Two aligned blocks are nested or disjoint, and an aligned block together
with its buddy (the block of the same order whose first page differs in bit `o`) is an aligned block
of the next order.

A `Tiling` is a list of pairwise disjoint aligned blocks, and `cover` is the set of pages it
occupies.  Splitting a block into its halves and joining two buddies are the two moves between
tilings with the same cover.  A tiling without two buddies is determined by its cover
(`Tiling.mem_iff_of_coalesced`).
-/

namespace HyperBerry

/-- `2 ^ order` consecutive pages, starting at `page`. -/
@[ext] structure Block where
  /-- The binary logarithm of the number of pages. -/
  order : ℕ
  /-- The first page. -/
  page : ℕ
deriving DecidableEq

namespace Block

/-- The pages of a block. -/
def pages (b : Block) : Set ℕ := Set.Ico b.page (b.page + 2 ^ b.order)

/-- The first page is a multiple of the number of pages. -/
def Aligned (b : Block) : Prop := 2 ^ b.order ∣ b.page

/-- The block of the same order whose first page differs in bit `order`. -/
def buddy (b : Block) : Block := ⟨b.order, b.page ^^^ 2 ^ b.order⟩

@[simp] lemma mem_pages {b : Block} {x : ℕ} :
    x ∈ b.pages ↔ b.page ≤ x ∧ x < b.page + 2 ^ b.order := Iff.rfl

@[simp] lemma buddy_order (b : Block) : b.buddy.order = b.order := rfl

/-- A block contains its first page. -/
lemma page_mem_pages (b : Block) : b.page ∈ b.pages := by
  have : 0 < 2 ^ b.order := by positivity
  exact ⟨le_rfl, by omega⟩

/-- Multiples of `a` that differ by less than `a` are ordered. -/
private lemma le_of_dvd_of_lt_add {a x y : ℕ} (hx : a ∣ x) (hy : a ∣ y) (h : x < y + a) :
    x ≤ y := by
  obtain ⟨m, rfl⟩ := hx
  obtain ⟨k, rfl⟩ := hy
  have hmk : m < k + 1 := by
    refine lt_of_mul_lt_mul_left (a := a) ?_ (Nat.zero_le a)
    rwa [Nat.mul_add, Nat.mul_one]
  exact Nat.mul_le_mul_left a (Nat.lt_succ_iff.mp hmk)

/-- Of two aligned blocks with a common page the one of smaller order lies inside the other. -/
lemma pages_subset_of_mem {b c : Block} (hb : b.Aligned) (hc : c.Aligned)
    (hle : b.order ≤ c.order) {x : ℕ} (hxb : x ∈ b.pages) (hxc : x ∈ c.pages) :
    b.pages ⊆ c.pages := by
  have hdvd : 2 ^ b.order ∣ 2 ^ c.order := pow_dvd_pow 2 hle
  have hbc : 2 ^ b.order ∣ c.page := hdvd.trans hc
  rw [mem_pages] at hxb hxc
  have h1 : c.page ≤ b.page := le_of_dvd_of_lt_add hbc hb (by omega)
  have h2 : b.page + 2 ^ b.order ≤ c.page + 2 ^ c.order := by
    have hdvd' : 2 ^ b.order ∣ c.page + 2 ^ c.order := dvd_add hbc hdvd
    refine le_of_dvd_of_lt_add (dvd_add hb dvd_rfl) hdvd' ?_
    omega
  intro y hy
  rw [mem_pages] at hy ⊢
  omega

/-- Aligned blocks of one order with a common page are equal. -/
lemma eq_of_mem_pages {b c : Block} (hb : b.Aligned) (hc : c.Aligned) (ho : b.order = c.order)
    {x : ℕ} (hxb : x ∈ b.pages) (hxc : x ∈ c.pages) : b = c := by
  have h1 := pages_subset_of_mem hb hc ho.le hxb hxc b.page_mem_pages
  have h2 := pages_subset_of_mem hc hb ho.ge hxc hxb c.page_mem_pages
  rw [mem_pages] at h1 h2
  exact Block.ext ho (le_antisymm h2.1 h1.1)

/-- A block inside another has at most its order. -/
lemma order_le_of_pages_subset {b c : Block} (h : b.pages ⊆ c.pages) : b.order ≤ c.order := by
  have hpos : 0 < 2 ^ b.order := by positivity
  have h1 := h b.page_mem_pages
  have h2 : b.page + 2 ^ b.order - 1 ∈ c.pages := h ⟨by omega, by omega⟩
  rw [mem_pages] at h1 h2
  have hle : 2 ^ b.order ≤ 2 ^ c.order := by omega
  exact (Nat.pow_le_pow_iff_right (by norm_num)).mp hle

/-- A block inside a set of pages below `n` ends at or below `n`. -/
lemma end_le_of_pages_subset {n : ℕ} {P : Set ℕ} (b : Block) (hP : ∀ x ∈ P, x < n)
    (h : b.pages ⊆ P) : b.page + 2 ^ b.order ≤ n := by
  have hpos : 0 < 2 ^ b.order := by positivity
  have := hP (b.page + 2 ^ b.order - 1) (h ⟨by omega, by omega⟩)
  omega

/-! ## Buddies -/

/-- Of a block and its buddy, one starts at a multiple of the doubled length and the other follows
it. -/
lemma buddy_cases {b : Block} (hb : b.Aligned) :
    (2 ^ (b.order + 1) ∣ b.page ∧ b.buddy.page = b.page + 2 ^ b.order) ∨
      (2 ^ (b.order + 1) ∣ b.buddy.page ∧ b.page = b.buddy.page + 2 ^ b.order) := by
  obtain ⟨m, hm⟩ := hb
  have hbuddy : b.buddy.page = 2 ^ b.order * (m ^^^ 1) := by
    rw [buddy, hm, two_pow_mul_xor_two_pow]
  rcases Nat.even_or_odd' m with ⟨j, rfl | rfl⟩
  · left
    rw [hbuddy, two_mul_xor_one, hm, pow_succ]
    exact ⟨⟨j, by ring⟩, by ring⟩
  · right
    rw [hbuddy, two_mul_add_one_xor_one, hm, pow_succ]
    exact ⟨⟨j, by ring⟩, by ring⟩

/-- A block is not its own buddy. -/
lemma buddy_ne {b : Block} (hb : b.Aligned) : b.buddy ≠ b := by
  intro heq
  have hpos : 0 < 2 ^ b.order := by positivity
  rcases buddy_cases hb with ⟨-, hpage⟩ | ⟨-, hpage⟩ <;> rw [heq] at hpage <;> omega

/-- Being buddies is symmetric. -/
@[simp] lemma buddy_buddy (b : Block) : b.buddy.buddy = b := by
  ext
  · rfl
  · simp [buddy]

/-- The halves of an aligned block are buddies. -/
lemma buddy_lower {k p : ℕ} (h : 2 ^ (k + 1) ∣ p) : (⟨k, p⟩ : Block).buddy = ⟨k, p + 2 ^ k⟩ := by
  have hb : (⟨k, p⟩ : Block).Aligned := (pow_dvd_pow 2 (Nat.le_succ k)).trans h
  rcases buddy_cases hb with ⟨-, hpage⟩ | ⟨hdvd, hpage⟩
  · ext
    · rfl
    · exact hpage
  · -- both first pages would be multiples of the doubled length
    exfalso
    have h2 : 2 ^ (k + 1) ∣ (⟨k, p⟩ : Block).buddy.page + 2 ^ k := hpage ▸ h
    have h3 : 2 ^ (k + 1) ∣ 2 ^ k := (Nat.dvd_add_right hdvd).mp h2
    have hle := Nat.le_of_dvd (by positivity) h3
    rw [pow_succ] at hle
    have : 0 < 2 ^ k := by positivity
    omega

end Block

/-! ## Tilings -/

/-- Pairwise disjoint aligned blocks of order at most `top` inside the first `n` pages. -/
structure Tiling (n top : ℕ) (l : List Block) : Prop where
  /-- Every block starts at a multiple of its length. -/
  aligned : ∀ b ∈ l, b.Aligned
  /-- Every block ends within the first `n` pages. -/
  bound : ∀ b ∈ l, b.page + 2 ^ b.order ≤ n
  /-- No block exceeds the largest order. -/
  order_le : ∀ b ∈ l, b.order ≤ top
  /-- No page lies in two blocks. -/
  disjoint : l.Pairwise fun b c => Disjoint b.pages c.pages

/-- The pages that lie in some block of the list. -/
def cover (l : List Block) : Set ℕ := {x | ∃ b ∈ l, x ∈ b.pages}

/-- No block of order below `top` has its buddy on the list. -/
def Coalesced (top : ℕ) (l : List Block) : Prop := ∀ b ∈ l, b.order < top → b.buddy ∉ l

section Tilings

variable {n top : ℕ} {l l' : List Block} {b c : Block}

lemma mem_cover {x : ℕ} : x ∈ cover l ↔ ∃ b ∈ l, x ∈ b.pages := Iff.rfl

/-- A block of the list is covered. -/
lemma pages_subset_cover (hb : b ∈ l) : b.pages ⊆ cover l := fun _ hx => ⟨b, hb, hx⟩

@[simp] lemma cover_cons : cover (b :: l) = b.pages ∪ cover l := by
  ext x
  simp [mem_cover]

/-- The cover does not depend on the order of the list. -/
lemma cover_perm (h : l.Perm l') : cover l = cover l' := by
  ext x
  simp [mem_cover, h.mem_iff]

/-- Disjointness of blocks is symmetric. -/
private lemma disjoint_symmetric :
    ∀ {b c : Block}, Disjoint b.pages c.pages → Disjoint c.pages b.pages := fun h => h.symm

/-- Being a tiling does not depend on the order of the list. -/
lemma Tiling.perm (ht : Tiling n top l) (h : l.Perm l') : Tiling n top l' where
  aligned b hb := ht.aligned b (h.mem_iff.mpr hb)
  bound b hb := ht.bound b (h.mem_iff.mpr hb)
  order_le b hb := ht.order_le b (h.mem_iff.mpr hb)
  disjoint := (h.pairwise_iff disjoint_symmetric).mp ht.disjoint

/-- A part of a tiling is a tiling. -/
lemma Tiling.sublist (ht : Tiling n top l) (h : l'.Sublist l) : Tiling n top l' where
  aligned c hc := ht.aligned c (h.subset hc)
  bound c hc := ht.bound c (h.subset hc)
  order_le c hc := ht.order_le c (h.subset hc)
  disjoint := ht.disjoint.sublist h

/-- All blocks but the first still form a tiling. -/
lemma Tiling.of_cons (ht : Tiling n top (b :: l)) : Tiling n top l :=
  ht.sublist (List.sublist_cons_self b l)

/-- Adding a block that is disjoint from the tiling. -/
lemma Tiling.cons (ht : Tiling n top l) (hb : b.Aligned) (hn : b.page + 2 ^ b.order ≤ n)
    (ho : b.order ≤ top) (hd : Disjoint b.pages (cover l)) : Tiling n top (b :: l) where
  aligned := List.forall_mem_cons.mpr ⟨hb, ht.aligned⟩
  bound := List.forall_mem_cons.mpr ⟨hn, ht.bound⟩
  order_le := List.forall_mem_cons.mpr ⟨ho, ht.order_le⟩
  disjoint := List.pairwise_cons.mpr
    ⟨fun _ hc => hd.mono_right (pages_subset_cover hc), ht.disjoint⟩

/-- The first block of a tiling is disjoint from the others. -/
lemma Tiling.disjoint_cover (ht : Tiling n top (b :: l)) : Disjoint b.pages (cover l) := by
  rw [Set.disjoint_left]
  rintro x hxb ⟨c, hc, hxc⟩
  exact Set.disjoint_left.mp ((List.pairwise_cons.mp ht.disjoint).1 c hc) hxb hxc

/-- A page lies in at most one block of a tiling. -/
lemma Tiling.eq_of_mem (ht : Tiling n top l) (hb : b ∈ l) (hc : c ∈ l) {x : ℕ}
    (hxb : x ∈ b.pages) (hxc : x ∈ c.pages) : b = c := by
  by_contra hne
  have : Std.Symm fun b c : Block => Disjoint b.pages c.pages := ⟨fun _ _ h => h.symm⟩
  exact Set.disjoint_left.mp (ht.disjoint.forall hb hc hne) hxb hxc

/-- No block of a tiling is listed twice. -/
lemma Tiling.nodup (ht : Tiling n top l) : l.Nodup := by
  refine ht.disjoint.imp fun {b c} h hbc => ?_
  subst hbc
  exact Set.disjoint_left.mp h b.page_mem_pages b.page_mem_pages

/-- A tiling of `n` pages has at most `n` blocks. -/
lemma Tiling.length_le (ht : Tiling n top l) : l.length ≤ n := by
  have hnodup : (l.map Block.page).Nodup := ht.nodup.map_on fun b hb c hc heq =>
    ht.eq_of_mem hb hc b.page_mem_pages (heq ▸ c.page_mem_pages)
  have hsub : l.map Block.page ⊆ List.range n := by
    intro p hp
    obtain ⟨b, hb, rfl⟩ := List.mem_map.mp hp
    have hbound := ht.bound b hb
    have hpos : 0 < 2 ^ b.order := by positivity
    exact List.mem_range.mpr (by omega)
  simpa using (hnodup.subperm hsub).length_le

/-- A covered page lies among the first `n`. -/
lemma Tiling.lt_of_mem_cover (ht : Tiling n top l) {x : ℕ} (hx : x ∈ cover l) : x < n := by
  obtain ⟨b, hb, hxb⟩ := hx
  have := ht.bound b hb
  rw [Block.mem_pages] at hxb
  omega

/-! ## Splitting and joining -/

/-- A block has the pages of its two halves. -/
lemma pages_halves (k p : ℕ) :
    (⟨k + 1, p⟩ : Block).pages = (⟨k, p⟩ : Block).pages ∪ (⟨k, p + 2 ^ k⟩ : Block).pages := by
  ext x
  simp only [Block.mem_pages, Set.mem_union, pow_succ]
  omega

/-- Splitting a block keeps the cover. -/
lemma cover_halves (k p : ℕ) (l : List Block) :
    cover (⟨k, p⟩ :: ⟨k, p + 2 ^ k⟩ :: l) = cover (⟨k + 1, p⟩ :: l) := by
  rw [cover_cons, cover_cons, cover_cons, pages_halves, Set.union_assoc]

/-- The halves of a block are disjoint. -/
private lemma disjoint_halves (k p : ℕ) :
    Disjoint (⟨k, p⟩ : Block).pages (⟨k, p + 2 ^ k⟩ : Block).pages := by
  rw [Set.disjoint_left]
  intro x h1 h2
  simp only [Block.mem_pages] at h1 h2
  omega

/-- Splitting a block of a tiling into its halves. -/
lemma Tiling.split {k p : ℕ} (ht : Tiling n top (⟨k + 1, p⟩ :: l)) :
    Tiling n top (⟨k, p⟩ :: ⟨k, p + 2 ^ k⟩ :: l) := by
  have hal : 2 ^ (k + 1) ∣ p := ht.aligned _ List.mem_cons_self
  have hlow : 2 ^ k ∣ p := (pow_dvd_pow 2 (Nat.le_succ k)).trans hal
  have hbound : p + 2 ^ (k + 1) ≤ n := ht.bound _ List.mem_cons_self
  have hord : k + 1 ≤ top := ht.order_le _ List.mem_cons_self
  have hdisj := ht.disjoint_cover
  rw [pages_halves, Set.disjoint_union_left] at hdisj
  rw [pow_succ] at hbound
  have hup : Tiling n top (⟨k, p + 2 ^ k⟩ :: l) :=
    ht.of_cons.cons (dvd_add hlow dvd_rfl) (by simp only; omega) (by simp only; omega) hdisj.2
  refine hup.cons hlow (by simp only; omega) (by simp only; omega) ?_
  rw [cover_cons, Set.disjoint_union_right]
  exact ⟨disjoint_halves k p, hdisj.1⟩

/-- Joining two halves of a tiling. -/
lemma Tiling.join {k p : ℕ} (hp : 2 ^ (k + 1) ∣ p) (hk : k + 1 ≤ top)
    (ht : Tiling n top (⟨k, p⟩ :: ⟨k, p + 2 ^ k⟩ :: l)) : Tiling n top (⟨k + 1, p⟩ :: l) := by
  have hlow := ht.disjoint_cover
  have hup := ht.of_cons.disjoint_cover
  rw [cover_cons, Set.disjoint_union_right] at hlow
  have hbound : p + 2 ^ k + 2 ^ k ≤ n := ht.of_cons.bound _ List.mem_cons_self
  refine ht.of_cons.of_cons.cons hp (by simp only [pow_succ]; omega) hk ?_
  rw [pages_halves, Set.disjoint_union_left]
  exact ⟨hlow.2, hup⟩

/-! ## Coalesced tilings -/

/-- In a coalesced tiling every covered aligned block lies inside one block of the tiling. -/
lemma Tiling.exists_pages_subset (ht : Tiling n top l) (hco : Coalesced top l) :
    ∀ (k p : ℕ), k ≤ top → 2 ^ k ∣ p → (⟨k, p⟩ : Block).pages ⊆ cover l →
      ∃ d ∈ l, (⟨k, p⟩ : Block).pages ⊆ d.pages := by
  intro k
  induction k with
  | zero =>
    intro p _ _ hsub
    obtain ⟨d, hd, hpd⟩ := hsub (⟨0, p⟩ : Block).page_mem_pages
    refine ⟨d, hd, fun x hx => ?_⟩
    have hxp : x = p := by
      simp only [Block.mem_pages, pow_zero] at hx
      omega
    rw [hxp]
    exact hpd
  | succ k ih =>
    intro p hk hp hsub
    have hlow : 2 ^ k ∣ p := (pow_dvd_pow 2 (Nat.le_succ k)).trans hp
    have hup : 2 ^ k ∣ p + 2 ^ k := dvd_add hlow dvd_rfl
    rw [pages_halves] at hsub
    obtain ⟨hsub0, hsub1⟩ := Set.union_subset_iff.mp hsub
    obtain ⟨d0, hd0, h0⟩ := ih p (by omega) hlow hsub0
    obtain ⟨d1, hd1, h1⟩ := ih (p + 2 ^ k) (by omega) hup hsub1
    -- a block around one half that is longer than the half contains the whole block
    have grow : ∀ (q : ℕ) (d : Block), d ∈ l → (⟨k, q⟩ : Block).pages ⊆ d.pages →
        q ∈ (⟨k + 1, p⟩ : Block).pages → d.order ≠ k →
        ∃ d ∈ l, (⟨k + 1, p⟩ : Block).pages ⊆ d.pages := by
      intro q d hd hsubd hq hne
      have hle : k ≤ d.order := Block.order_le_of_pages_subset hsubd
      exact ⟨d, hd, Block.pages_subset_of_mem hp (ht.aligned d hd) (by simp only; omega) hq
        (hsubd (⟨k, q⟩ : Block).page_mem_pages)⟩
    by_cases hk0 : d0.order = k
    · by_cases hk1 : d1.order = k
      · -- otherwise both halves are on the list, and they are buddies
        exfalso
        have e0 : (⟨k, p⟩ : Block) = d0 :=
          Block.eq_of_mem_pages hlow (ht.aligned d0 hd0) hk0.symm (Block.page_mem_pages _)
            (h0 (Block.page_mem_pages _))
        have e1 : (⟨k, p + 2 ^ k⟩ : Block) = d1 :=
          Block.eq_of_mem_pages hup (ht.aligned d1 hd1) hk1.symm (Block.page_mem_pages _)
            (h1 (Block.page_mem_pages _))
        refine hco d0 hd0 (by omega) ?_
        rw [← e0, Block.buddy_lower hp, e1]
        exact hd1
      · refine grow (p + 2 ^ k) d1 hd1 h1 ?_ hk1
        have : 0 < 2 ^ k := by positivity
        simp only [Block.mem_pages, pow_succ]
        omega
    · exact grow p d0 hd0 h0 (Block.page_mem_pages _) hk0

/-- One half of the uniqueness of coalesced tilings. -/
private lemma Tiling.mem_of_coalesced {n' : ℕ} (ht : Tiling n top l) (ht' : Tiling n' top l')
    (hco : Coalesced top l) (hco' : Coalesced top l') (hcov : cover l = cover l') (hb : b ∈ l) :
    b ∈ l' := by
  obtain ⟨d, hd, hbd⟩ := ht'.exists_pages_subset hco' b.order b.page (ht.order_le b hb)
    (ht.aligned b hb) (hcov ▸ pages_subset_cover hb)
  obtain ⟨e, he, hde⟩ := ht.exists_pages_subset hco d.order d.page (ht'.order_le d hd)
    (ht'.aligned d hd) (hcov ▸ pages_subset_cover hd)
  have hbe : b = e := ht.eq_of_mem hb he b.page_mem_pages (hde (hbd b.page_mem_pages))
  have hord : b.order = d.order :=
    le_antisymm (Block.order_le_of_pages_subset hbd)
      (hbe ▸ Block.order_le_of_pages_subset hde)
  have hbd' : b = d := Block.eq_of_mem_pages (ht.aligned b hb) (ht'.aligned d hd) hord
    b.page_mem_pages (hbd b.page_mem_pages)
  exact hbd' ▸ hd

/-- Coalesced tilings of the same pages have the same blocks. -/
theorem Tiling.mem_iff_of_coalesced {n' : ℕ} (ht : Tiling n top l) (ht' : Tiling n' top l')
    (hco : Coalesced top l) (hco' : Coalesced top l') (hcov : cover l = cover l') (b : Block) :
    b ∈ l ↔ b ∈ l' :=
  ⟨ht.mem_of_coalesced ht' hco hco' hcov, ht'.mem_of_coalesced ht hco' hco hcov.symm⟩

end Tilings

/-! ## Blocks listed by order -/

/-- The blocks given by one list of first pages for each order up to `top`. -/
def blocksOf (top : ℕ) (pagesOf : ℕ → List ℕ) : List Block :=
  (List.range (top + 1)).flatMap fun o => (pagesOf o).map (Block.mk o)

section BlocksOf

variable {top : ℕ} {f g : ℕ → List ℕ} {o p : ℕ}

@[simp] lemma mem_blocksOf {b : Block} :
    b ∈ blocksOf top f ↔ b.order ≤ top ∧ b.page ∈ f b.order := by
  simp only [blocksOf, List.mem_flatMap, List.mem_range, List.mem_map]
  constructor
  · rintro ⟨o, ho, p, hp, rfl⟩
    exact ⟨Nat.lt_succ_iff.mp ho, hp⟩
  · rintro ⟨ho, hp⟩
    exact ⟨b.order, Nat.lt_succ_iff.mpr ho, b.page, hp, rfl⟩

@[simp] lemma blocksOf_nil (top : ℕ) : blocksOf top (fun _ => []) = [] := by
  simp [blocksOf]

/-- If no block is listed twice then no list repeats a page. -/
lemma nodup_of_nodup_blocksOf (h : (blocksOf top f).Nodup) (ho : o ≤ top) : (f o).Nodup :=
  List.Nodup.of_map _ ((List.nodup_flatMap.mp h).1 o (List.mem_range.mpr (Nat.lt_succ_iff.mpr ho)))

/-- Reordering each list reorders the blocks. -/
lemma blocksOf_perm (h : ∀ o, (f o).Perm (g o)) : (blocksOf top f).Perm (blocksOf top g) :=
  List.Perm.flatMap_left _ fun o _ => (h o).map _

/-- Adding a page to one list adds one block. -/
lemma blocksOf_update_cons (ho : o ≤ top) :
    (blocksOf top (Function.update f o (p :: f o))).Perm (⟨o, p⟩ :: blocksOf top f) := by
  -- the orders are distinct, so only one of the concatenated lists changes
  have key : ∀ os : List ℕ, os.Nodup → o ∈ os →
      (os.flatMap fun x => (Function.update f o (p :: f o) x).map (Block.mk x)).Perm
        (⟨o, p⟩ :: os.flatMap fun x => (f x).map (Block.mk x)) := by
    intro os
    induction os with
    | nil => intro _ h; simp at h
    | cons x os ih =>
      intro hnd hmem
      obtain ⟨hx, hnd⟩ := List.nodup_cons.mp hnd
      by_cases hxo : x = o
      · subst hxo
        have hrest : (os.flatMap fun y => (Function.update f x (p :: f x) y).map (Block.mk y)) =
            os.flatMap fun y => (f y).map (Block.mk y) := by
          refine List.flatMap_congr fun y hy => ?_
          have hyx : y ≠ x := fun hyx => hx (hyx ▸ hy)
          simp [hyx]
        simp [hrest]
      · have hmem' : o ∈ os := (List.mem_cons.mp hmem).resolve_left fun h => hxo h.symm
        simp only [List.flatMap_cons, Function.update_of_ne hxo]
        exact ((ih hnd hmem').append_left _).trans List.perm_middle
  exact key _ List.nodup_range (List.mem_range.mpr (Nat.lt_succ_iff.mpr ho))

/-- Taking a page off one list takes away one block. -/
lemma blocksOf_update_erase (ho : o ≤ top) (hp : p ∈ f o) :
    (blocksOf top f).Perm (⟨o, p⟩ :: blocksOf top (Function.update f o ((f o).erase p))) := by
  have hperm : (blocksOf top f).Perm
      (blocksOf top (Function.update f o (p :: (f o).erase p))) := by
    refine blocksOf_perm fun x => ?_
    by_cases hx : x = o
    · subst hx
      simpa using List.perm_cons_erase hp
    · simp [hx]
  have hpush := blocksOf_update_cons (f := Function.update f o ((f o).erase p)) (p := p) ho
  simp only [Function.update_self, Function.update_idem] at hpush
  exact hperm.trans hpush

end BlocksOf

end HyperBerry
