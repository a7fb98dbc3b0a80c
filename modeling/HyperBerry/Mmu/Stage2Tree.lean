import HyperBerry.Mmu.Descriptor

/-!
# The tree of stage-2 tables

`Represents root st L m` says that the tables in memory implement the map `m` from the `2 ^ 28` page
numbers of the 40-bit address space to targets.  The layout `L` records which page holds which
table, so that tables are never shared: level 2 table `i` covers the page numbers with `p / 2 ^ 18 =
i`, and level 3 table `j` those with `p / 512 = j`.

Four steps change the tables: a new level 2 table (`Represents.addLevel2`), a new level 3 table,
with the block it replaces split into pages (`Represents.splitL2`), and writing a block or a page
entry (`Represents.setBlock`, `Represents.setPage`).
-/

namespace HyperBerry

namespace GuestMmu

/-- The role of a page that holds a table. -/
inductive Node where
  /-- One of the two concatenated root pages. -/
  | root (k : ℕ)
  /-- The level 2 table for a level 1 index. -/
  | level2 (i : ℕ)
  /-- The level 3 table for a level 2 entry. -/
  | level3 (j : ℕ)
deriving DecidableEq

/-- Where the tables are. -/
structure Layout where
  /-- The role of a page that holds a table, or once held one. -/
  owner : ℕ → Option Node
  /-- The level 2 tables. -/
  level2 : ℕ → Option ℕ
  /-- The level 3 tables. -/
  level3 : ℕ → Option ℕ

namespace Layout

/-- Tables are pages with one role each, and the supply holds pages without a role. -/
structure Valid (L : Layout) (root : ℕ) (supply : List ℕ) : Prop where
  /-- The root is page-aligned. -/
  root_dvd : pageSize ∣ root
  /-- The two root pages. -/
  owner_root : ∀ k < 2, L.owner (root + pageSize * k) = some (.root k)
  /-- The level 2 tables. -/
  level2 : ∀ i t, L.level2 i = some t → IsPage t ∧ L.owner t = some (.level2 i)
  /-- The level 3 tables. -/
  level3 : ∀ j u, L.level3 j = some u → IsPage u ∧ L.owner u = some (.level3 j)
  /-- The pages that are handed out next. -/
  fresh : ∀ p ∈ supply, IsPage p ∧ L.owner p = none
  /-- No page is handed out twice. -/
  nodup : supply.Nodup

/-- Add a level 2 table. -/
def addLevel2 (L : Layout) (i u : ℕ) : Layout where
  owner := Function.update L.owner u (some (.level2 i))
  level2 := Function.update L.level2 i (some u)
  level3 := L.level3

/-- Add a level 3 table. -/
def addLevel3 (L : Layout) (j u : ℕ) : Layout where
  owner := Function.update L.owner u (some (.level3 j))
  level2 := L.level2
  level3 := Function.update L.level3 j (some u)

/-- Forget a level 3 table. -/
def dropLevel3 (L : Layout) (j : ℕ) : Layout where
  owner := L.owner
  level2 := L.level2
  level3 := Function.update L.level3 j none

variable {L : Layout} {root u : ℕ} {supply : List ℕ}

/-- A page with a role is not the next one of the supply. -/
lemma Valid.ne_of_owner (h : L.Valid root (u :: supply)) {t : ℕ} {ν : Node}
    (ht : L.owner t = some ν) : t ≠ u := by
  rintro rfl
  rw [(h.fresh t List.mem_cons_self).2] at ht
  exact absurd ht (by simp)

/-- Giving a role to the next page of the supply keeps the other roles. -/
lemma Valid.owner_update (h : L.Valid root (u :: supply)) {t : ℕ} {ν ν' : Node}
    (ht : L.owner t = some ν) : Function.update L.owner u (some ν') t = some ν := by
  rw [Function.update_of_ne (h.ne_of_owner ht), ht]

/-- The rest of the supply has no role after the first page got one. -/
lemma Valid.fresh_update (h : L.Valid root (u :: supply)) (ν : Node) : ∀ p ∈ supply,
    IsPage p ∧ Function.update L.owner u (some ν) p = none := by
  intro p hp
  have hne : p ≠ u := by
    rintro rfl
    exact (List.nodup_cons.mp h.nodup).1 hp
  obtain ⟨hpage, howner⟩ := h.fresh p (List.mem_cons_of_mem _ hp)
  exact ⟨hpage, by rw [Function.update_of_ne hne, howner]⟩

/-- The layout stays valid when a level 2 table is added. -/
lemma Valid.addLevel2 (h : L.Valid root (u :: supply)) (i : ℕ) :
    (L.addLevel2 i u).Valid root supply where
  root_dvd := h.root_dvd
  owner_root k hk := h.owner_update (h.owner_root k hk)
  level2 i' t ht := by
    by_cases hi : i' = i
    · subst hi
      have htu : t = u := by simpa [Layout.addLevel2] using ht.symm
      subst htu
      exact ⟨(h.fresh t List.mem_cons_self).1, Function.update_self ..⟩
    · have ht' : L.level2 i' = some t := by simpa [Layout.addLevel2, hi] using ht
      obtain ⟨hpage, howner⟩ := h.level2 i' t ht'
      exact ⟨hpage, h.owner_update howner⟩
  level3 j t ht := by
    obtain ⟨hpage, howner⟩ := h.level3 j t ht
    exact ⟨hpage, h.owner_update howner⟩
  fresh := h.fresh_update _
  nodup := (List.nodup_cons.mp h.nodup).2

/-- The layout stays valid when a level 3 table is added. -/
lemma Valid.addLevel3 (h : L.Valid root (u :: supply)) (j : ℕ) :
    (L.addLevel3 j u).Valid root supply where
  root_dvd := h.root_dvd
  owner_root k hk := h.owner_update (h.owner_root k hk)
  level2 i t ht := by
    obtain ⟨hpage, howner⟩ := h.level2 i t ht
    exact ⟨hpage, h.owner_update howner⟩
  level3 j' t ht := by
    by_cases hj : j' = j
    · subst hj
      have htu : t = u := by simpa [Layout.addLevel3] using ht.symm
      subst htu
      exact ⟨(h.fresh t List.mem_cons_self).1, Function.update_self ..⟩
    · have ht' : L.level3 j' = some t := by simpa [Layout.addLevel3, hj] using ht
      obtain ⟨hpage, howner⟩ := h.level3 j' t ht'
      exact ⟨hpage, h.owner_update howner⟩
  fresh := h.fresh_update _
  nodup := (List.nodup_cons.mp h.nodup).2

/-- The layout stays valid when a level 3 table is forgotten. -/
lemma Valid.dropLevel3 (h : L.Valid root supply) (j : ℕ) : (L.dropLevel3 j).Valid root supply where
  root_dvd := h.root_dvd
  owner_root := h.owner_root
  level2 := h.level2
  level3 j' t ht := by
    by_cases hj : j' = j
    · subst hj
      simp [Layout.dropLevel3] at ht
    · have ht' : L.level3 j' = some t := by simpa [Layout.dropLevel3, hj] using ht
      exact h.level3 j' t ht'
  fresh := h.fresh
  nodup := h.nodup

/-- The page that holds the root entry `i`. -/
lemma Valid.owner_rootPage (h : L.Valid root supply) {i : ℕ} (hi : i < 1024) :
    L.owner (root + pageSize * (i / 512)) = some (.root (i / 512)) :=
  h.owner_root _ (by omega)

end Layout

/-! ## Reading entries after a write -/

/-- The slots of page-aligned tables are distinct. -/
lemma slot_eq_iff {t t' k k' : ℕ} (ht : pageSize ∣ t) (ht' : pageSize ∣ t') (hk : k < 512)
    (hk' : k' < 512) : t' + 8 * k' = t + 8 * k ↔ t' = t ∧ k' = k := by
  obtain ⟨a, rfl⟩ := ht
  obtain ⟨b, rfl⟩ := ht'
  unfold pageSize
  omega

/-- Reading an entry after writing one. -/
lemma store_mem {st : Tables} {t t' k k' v : ℕ} (ht : pageSize ∣ t) (ht' : pageSize ∣ t')
    (hk : k < 512) (hk' : k' < 512) :
    (st.store (t + 8 * k) v).mem (t' + 8 * k') =
      if t' = t ∧ k' = k then v else st.mem (t' + 8 * k') := by
  rw [Tables.store]
  simp only [Function.update_apply, slot_eq_iff ht ht' hk hk']

/-- Reading an entry of another table after writing one. -/
lemma store_mem_of_ne {st : Tables} {t t' k k' v : ℕ} (ht : pageSize ∣ t) (ht' : pageSize ∣ t')
    (hk : k < 512) (hk' : k' < 512) (hne : t' ≠ t) :
    (st.store (t + 8 * k) v).mem (t' + 8 * k') = st.mem (t' + 8 * k') := by
  rw [store_mem ht ht' hk hk', if_neg fun h => hne h.1]

/-- Reading an entry after clearing a page. -/
lemma clear_mem {st : Tables} {u t k : ℕ} (hu : pageSize ∣ u) (ht : pageSize ∣ t) (hk : k < 512) :
    (st.clear u pageSize).mem (t + 8 * k) = if t = u then 0 else st.mem (t + 8 * k) := by
  have hiff : (u ≤ t + 8 * k ∧ t + 8 * k < u + pageSize) ↔ t = u := by
    obtain ⟨a, rfl⟩ := hu
    obtain ⟨b, rfl⟩ := ht
    unfold pageSize
    omega
  simp only [Tables.clear, hiff]

/-- Writing an entry allocates nothing. -/
lemma store_supply (st : Tables) (slot v : ℕ) : (st.store slot v).supply = st.supply := rfl

/-- Filling a table allocates nothing. -/
lemma fill_supply (st : Tables) (u : ℕ) (entry : ℕ → ℕ) (n : ℕ) :
    (st.fill u entry n).supply = st.supply := by
  induction n with
  | zero => rfl
  | succ n ih => exact ih

/-- Reading an entry after filling a table. -/
lemma fill_mem {st : Tables} {u t k : ℕ} {entry : ℕ → ℕ} (hu : pageSize ∣ u) (ht : pageSize ∣ t)
    (hk : k < 512) : ∀ n ≤ 512, (st.fill u entry n).mem (t + 8 * k) =
      if t = u ∧ k < n then entry k else st.mem (t + 8 * k) := by
  intro n
  induction n with
  | zero =>
    intro _
    rw [if_neg (by omega), Tables.fill]
  | succ n ih =>
    intro hn
    rw [Tables.fill, store_mem hu ht (by omega) hk, ih (by omega)]
    by_cases htu : t = u
    · by_cases hkn : k = n
      · simp [htu, hkn]
      · have hiff : k < n + 1 ↔ k < n := by omega
        simp [htu, hkn, hiff]
    · simp [htu]

/-! ## The invariant -/

/-- The tables at `root` implement the page map `m`; see the head of this file. -/
structure Represents (root : ℕ) (st : Tables) (L : Layout) (m : ℕ → Option Target) : Prop where
  /-- The layout is valid. -/
  valid : L.Valid root st.supply
  /-- The entries of level 1. -/
  entry1 : ∀ i < 1024,
    st.mem (root + pageSize * (i / 512) + 8 * (i % 512)) = tableEntry (L.level2 i)
  /-- The entries of level 2 that point to a table. -/
  entry2_table : ∀ j < 2 ^ 19, ∀ t u, L.level2 (j / 512) = some t → L.level3 j = some u →
    st.mem (t + 8 * (j % 512)) = tableEntry (some u)
  /-- The entries of level 2 that map a block or nothing. -/
  entry2_block : ∀ j < 2 ^ 19, ∀ t, L.level2 (j / 512) = some t → L.level3 j = none →
    st.mem (t + 8 * (j % 512)) = blockEntry (m (512 * j))
  /-- The entries of level 3. -/
  entry3 : ∀ p < 2 ^ 28, ∀ u, L.level3 (p / 512) = some u →
    st.mem (u + 8 * (p % 512)) = pageEntry (m p)
  /-- Nothing is mapped below a missing level 2 table. -/
  empty : ∀ j < 2 ^ 19, L.level2 (j / 512) = none → L.level3 j = none ∧ m (512 * j) = none
  /-- Without a level 3 table, 512 consecutive pages are mapped together. -/
  block : ∀ p < 2 ^ 28, L.level3 (p / 512) = none →
    m p = (m (512 * (p / 512))).map fun τ => ⟨τ.page + p % 512, τ.device⟩
  /-- A block starts at a multiple of its size. -/
  block_dvd : ∀ j < 2 ^ 19, L.level3 j = none → ∀ τ, m (512 * j) = some τ → 512 ∣ τ.page
  /-- Targets are 48-bit addresses. -/
  page_lt : ∀ p τ, m p = some τ → τ.page < 2 ^ 36

section Represents

variable {root : ℕ} {st : Tables} {L : Layout} {m : ℕ → Option Target}

/-- What the hardware finds in tables that implement a page map. -/
theorem Represents.hwWalk_eq (h : Represents root st L m) {ipa : ℕ} (hipa : ipa < 2 ^ 40) :
    hwWalk st.mem root ipa = (m (ipa / pageSize)).map fun τ =>
      ⟨τ.page * pageSize + ipa % pageSize, stage2Attributes τ.device⟩ := by
  obtain ⟨p, hp⟩ : ∃ p, ipa / pageSize = p := ⟨_, rfl⟩
  have hplt : p < 2 ^ 28 := by
    unfold pageSize at hp
    omega
  have hslot1 : root + 8 * (ipa / 2 ^ 30 % 2 ^ 10) =
      root + pageSize * (p / 2 ^ 18 / 512) + 8 * (p / 2 ^ 18 % 512) := by
    unfold pageSize at hp ⊢
    omega
  have hidx2 : ipa / 2 ^ 21 % 2 ^ 9 = p / 512 % 512 := by
    unfold pageSize at hp
    omega
  have hidx3 : ipa / 2 ^ 12 % 2 ^ 9 = p % 512 := by
    unfold pageSize at hp
    omega
  have hdir : p / 512 / 512 = p / 2 ^ 18 := by omega
  rw [hwWalk, hslot1, h.entry1 _ (by omega), hp]
  cases h2 : L.level2 (p / 2 ^ 18) with
  | none =>
    obtain ⟨h3, hnone⟩ := h.empty (p / 512) (by omega) (by rw [hdir, h2])
    rw [h.block p hplt h3, hnone]
    rfl
  | some t =>
    have ht := (h.valid.level2 _ _ h2).1
    simp only [tableEntry_mod_four ht, nextTable_tableEntry ht, if_true, hwLevel2, hidx2]
    cases h3 : L.level3 (p / 512) with
    | none =>
      rw [h.entry2_block (p / 512) (by omega) t (by rw [hdir, h2]) h3, h.block p hplt h3]
      cases hm : m (512 * (p / 512)) with
      | none => rfl
      | some τ =>
        have hdvd := h.block_dvd (p / 512) (by omega) h3 τ hm
        simp only [blockEntry_mod_four, translateBy_blockEntry (h.page_lt _ _ hm) hdvd, hp]
        rfl
    | some u =>
      have hu := (h.valid.level3 _ _ h3).1
      rw [h.entry2_table (p / 512) (by omega) t u (by rw [hdir, h2]) h3]
      simp only [tableEntry_mod_four hu, nextTable_tableEntry hu, if_true, hwLevel3, hidx3,
        h.entry3 p hplt u h3]
      cases hm : m p with
      | none => rfl
      | some τ =>
        simp only [pageEntry_mod_four, translateBy_pageEntry (h.page_lt _ _ hm), if_true,
          Option.map_some]

/-! ## The steps -/

/-- A new level 2 table. -/
lemma Represents.addLevel2 (h : Represents root st L m) {i u : ℕ} {supply : List ℕ}
    (hi : i < 1024) (hnone : L.level2 i = none) (hs : st.supply = u :: supply) :
    Represents root ((Tables.clear { st with supply := supply } u pageSize).store
      (root + pageSize * (i / 512) + 8 * (i % 512)) (tableEntry (some u)))
      (L.addLevel2 i u) m := by
  have hvalid := h.valid
  rw [hs] at hvalid
  have hu := (hvalid.fresh u List.mem_cons_self).1
  have hpage : ∀ i, pageSize ∣ root + pageSize * (i / 512) := fun i =>
    dvd_add hvalid.root_dvd (dvd_mul_right _ _)
  -- an entry of an owned page other than the root entry `i` is unchanged
  have hframe : ∀ t k ν, pageSize ∣ t → k < 512 → L.owner t = some ν →
      (t ≠ root + pageSize * (i / 512) ∨ k ≠ i % 512) →
      ((Tables.clear { st with supply := supply } u pageSize).store
        (root + pageSize * (i / 512) + 8 * (i % 512)) (tableEntry (some u))).mem (t + 8 * k) =
      st.mem (t + 8 * k) := by
    intro t k ν ht hk hν hne
    rw [store_mem (hpage i) ht (by omega) hk, if_neg (by tauto), clear_mem hu.dvd ht hk,
      if_neg (hvalid.ne_of_owner hν)]
  have hroot : ∀ t ν, L.owner t = some ν → (∀ k, ν ≠ .root k) →
      t ≠ root + pageSize * (i / 512) := by
    rintro t ν hν hne rfl
    rw [hvalid.owner_rootPage hi, Option.some.injEq] at hν
    exact hne _ hν.symm
  have hlevel2 : ∀ i' t, (L.addLevel2 i u).level2 i' = some t →
      (i' = i ∧ t = u) ∨ (i' ≠ i ∧ L.level2 i' = some t) := by
    intro i' t ht
    by_cases hii : i' = i
    · subst hii
      exact Or.inl ⟨rfl, by simpa [Layout.addLevel2] using ht.symm⟩
    · exact Or.inr ⟨hii, by simpa [Layout.addLevel2, hii] using ht⟩
  refine
    { valid := hvalid.addLevel2 i
      entry1 := ?_
      entry2_table := ?_
      entry2_block := ?_
      entry3 := ?_
      empty := ?_
      block := h.block
      block_dvd := h.block_dvd
      page_lt := h.page_lt }
  · intro i' hi'
    by_cases hii : i' = i
    · subst hii
      rw [store_mem (hpage i') (hpage i') (by omega) (by omega), if_pos ⟨rfl, rfl⟩]
      simp [Layout.addLevel2]
    · rw [hframe _ _ _ (hpage i') (by omega) (hvalid.owner_rootPage hi'), h.entry1 i' hi']
      · simp [Layout.addLevel2, hii]
      · unfold pageSize
        omega
  · intro j hj t v ht hv
    rcases hlevel2 _ _ ht with ⟨hji, -⟩ | ⟨-, ht'⟩
    · have := (h.empty j hj (by rw [hji, hnone])).1
      exact absurd (this.symm.trans hv) (by simp)
    · obtain ⟨htp, hto⟩ := hvalid.level2 _ _ ht'
      rw [hframe t _ _ htp.dvd (by omega) hto (Or.inl (hroot t _ hto (by simp)))]
      exact h.entry2_table j hj t v ht' hv
  · intro j hj t ht hv
    rcases hlevel2 _ _ ht with ⟨hji, rfl⟩ | ⟨-, ht'⟩
    · -- the new table is zero
      have hne : t ≠ root + pageSize * (i / 512) :=
        fun heq => hvalid.ne_of_owner (hvalid.owner_rootPage hi) heq.symm
      rw [store_mem_of_ne (hpage i) hu.dvd (by omega) (by omega) hne,
        clear_mem hu.dvd hu.dvd (by omega), if_pos rfl, (h.empty j hj (by rw [hji, hnone])).2]
      rfl
    · obtain ⟨htp, hto⟩ := hvalid.level2 _ _ ht'
      rw [hframe t _ _ htp.dvd (by omega) hto (Or.inl (hroot t _ hto (by simp)))]
      exact h.entry2_block j hj t ht' hv
  · intro p hp v hv
    obtain ⟨hvp, hvo⟩ := hvalid.level3 _ _ hv
    rw [hframe v _ _ hvp.dvd (by omega) hvo (Or.inl (hroot v _ hvo (by simp)))]
    exact h.entry3 p hp v hv
  · intro j hj hj2
    refine h.empty j hj ?_
    by_cases hji : j / 512 = i
    · simp [Layout.addLevel2, hji] at hj2
    · simpa [Layout.addLevel2, hji] using hj2

/-- Tables with different roles are different. -/
lemma ne_of_owner_ne {t t' : ℕ} {ν ν' : Node} (h : L.owner t = some ν) (h' : L.owner t' = some ν')
    (hne : ν ≠ ν') : t ≠ t' := by
  rintro rfl
  rw [h, Option.some.injEq] at h'
  exact hne h'

/-- The page map after mapping a block. -/
def setBlockMap (m : ℕ → Option Target) (j : ℕ) (τ : Target) (p : ℕ) : Option Target :=
  if p / 512 = j then some ⟨τ.page + p % 512, τ.device⟩ else m p

/-- Writing a block entry. -/
lemma Represents.setBlock (h : Represents root st L m) {j t : ℕ} (hj : j < 2 ^ 19)
    (ht : L.level2 (j / 512) = some t) {τ : Target} (hτ : τ.page < 2 ^ 36) (hdvd : 512 ∣ τ.page) :
    Represents root (st.store (t + 8 * (j % 512)) (blockEntry (some τ))) (L.dropLevel3 j)
      (setBlockMap m j τ) := by
  obtain ⟨htp, hto⟩ := h.valid.level2 _ _ ht
  have hpage : ∀ i, pageSize ∣ root + pageSize * (i / 512) := fun i =>
    dvd_add h.valid.root_dvd (dvd_mul_right _ _)
  have hlevel3 : ∀ j', j' ≠ j → (L.dropLevel3 j).level3 j' = L.level3 j' := by
    intro j' hne
    simp [Layout.dropLevel3, hne]
  have hother : ∀ j', j' ≠ j → setBlockMap m j τ (512 * j') = m (512 * j') := by
    intro j' hne
    rw [setBlockMap, if_neg (by omega)]
  have hself : setBlockMap m j τ (512 * j) = some τ := by
    rw [setBlockMap, if_pos (by omega), Nat.mul_mod_right, Nat.add_zero]
  -- the level 2 entries other than `j` are unchanged
  have hframe : ∀ j', j' ≠ j → ∀ t', L.level2 (j' / 512) = some t' →
      (st.store (t + 8 * (j % 512)) (blockEntry (some τ))).mem (t' + 8 * (j' % 512)) =
        st.mem (t' + 8 * (j' % 512)) := by
    intro j' hne t' ht'
    obtain ⟨htp', hto'⟩ := h.valid.level2 _ _ ht'
    rw [store_mem htp.dvd htp'.dvd (by omega) (by omega), if_neg]
    rintro ⟨rfl, hidx⟩
    rw [hto, Option.some.injEq, Node.level2.injEq] at hto'
    omega
  refine
    { valid := h.valid.dropLevel3 j
      entry1 := ?_
      entry2_table := ?_
      entry2_block := ?_
      entry3 := ?_
      empty := ?_
      block := ?_
      block_dvd := ?_
      page_lt := ?_ }
  · intro i hi
    have hne := ne_of_owner_ne (h.valid.owner_rootPage hi) hto (by simp)
    rw [store_mem_of_ne htp.dvd (hpage i) (by omega) (by omega) hne]
    exact h.entry1 i hi
  · intro j' hj' t' u ht' hu
    by_cases hne : j' = j
    · subst hne
      simp [Layout.dropLevel3] at hu
    · rw [hframe j' hne t' ht']
      exact h.entry2_table j' hj' t' u ht' (by rwa [hlevel3 j' hne] at hu)
  · intro j' hj' t' ht' hnone
    by_cases hne : j' = j
    · subst hne
      have htt : t' = t := Option.some.inj (ht'.symm.trans ht)
      subst htt
      rw [store_mem htp.dvd htp.dvd (by omega) (by omega), if_pos ⟨rfl, rfl⟩, hself]
    · rw [hframe j' hne t' ht', hother j' hne]
      exact h.entry2_block j' hj' t' ht' (by rwa [hlevel3 j' hne] at hnone)
  · intro p hp u hu
    have hne : p / 512 ≠ j := by
      intro heq
      simp [Layout.dropLevel3, heq] at hu
    rw [hlevel3 _ hne] at hu
    obtain ⟨hup, huo⟩ := h.valid.level3 _ _ hu
    rw [store_mem_of_ne htp.dvd hup.dvd (by omega) (by omega) (ne_of_owner_ne huo hto (by simp)),
      h.entry3 p hp u hu, setBlockMap, if_neg hne]
  · intro j' hj' hnone
    have hne : j' ≠ j := by
      rintro rfl
      exact absurd (hnone.symm.trans ht) (by simp)
    rw [hlevel3 j' hne, hother j' hne]
    exact h.empty j' hj' hnone
  · intro p hp hnone
    by_cases hne : p / 512 = j
    · rw [hne, hself, setBlockMap, if_pos hne, Option.map_some]
    · rw [hother _ hne, setBlockMap, if_neg hne]
      exact h.block p hp (by rwa [hlevel3 _ hne] at hnone)
  · intro j' hj' hnone σ hσ
    by_cases hne : j' = j
    · subst hne
      rw [hself, Option.some.injEq] at hσ
      exact hσ ▸ hdvd
    · rw [hother j' hne] at hσ
      exact h.block_dvd j' hj' (by rwa [hlevel3 j' hne] at hnone) σ hσ
  · intro p σ hσ
    rw [setBlockMap] at hσ
    split at hσ
    case isTrue hp =>
      rw [Option.some.injEq] at hσ
      subst hσ
      obtain ⟨k, hk⟩ := hdvd
      simp only
      omega
    case isFalse => exact h.page_lt p σ hσ

/-- Writing a page entry. -/
lemma Represents.setPage (h : Represents root st L m) {p u : ℕ} (hp : p < 2 ^ 28)
    (hu : L.level3 (p / 512) = some u) {τ : Target} (hτ : τ.page < 2 ^ 36) :
    Represents root (st.store (u + 8 * (p % 512)) (pageEntry (some τ))) L
      (Function.update m p (some τ)) := by
  obtain ⟨hup, huo⟩ := h.valid.level3 _ _ hu
  have hpage : ∀ i, pageSize ∣ root + pageSize * (i / 512) := fun i =>
    dvd_add h.valid.root_dvd (dvd_mul_right _ _)
  -- a page outside every level 3 table is another page
  have hother : ∀ q, L.level3 (q / 512) = none → Function.update m p (some τ) q = m q := by
    intro q hq
    refine Function.update_of_ne ?_ _ _
    rintro rfl
    exact absurd (hq.symm.trans hu) (by simp)
  have hother' : ∀ j, L.level3 j = none → Function.update m p (some τ) (512 * j) = m (512 * j) := by
    intro j hj
    exact hother _ (by rwa [Nat.mul_div_cancel_left j (by norm_num)])
  have hframe : ∀ t k ν, pageSize ∣ t → k < 512 → L.owner t = some ν →
      ν ≠ .level3 (p / 512) →
      (st.store (u + 8 * (p % 512)) (pageEntry (some τ))).mem (t + 8 * k) = st.mem (t + 8 * k) :=
    fun t k ν ht hk hν hne =>
      store_mem_of_ne hup.dvd ht (by omega) hk (ne_of_owner_ne hν huo hne)
  refine
    { valid := h.valid
      entry1 := ?_
      entry2_table := ?_
      entry2_block := ?_
      entry3 := ?_
      empty := ?_
      block := ?_
      block_dvd := ?_
      page_lt := ?_ }
  · intro i hi
    rw [hframe _ _ _ (hpage i) (by omega) (h.valid.owner_rootPage hi) (by simp)]
    exact h.entry1 i hi
  · intro j hj t v ht hv
    obtain ⟨htp, hto⟩ := h.valid.level2 _ _ ht
    rw [hframe t _ _ htp.dvd (by omega) hto (by simp)]
    exact h.entry2_table j hj t v ht hv
  · intro j hj t ht hnone
    obtain ⟨htp, hto⟩ := h.valid.level2 _ _ ht
    rw [hframe t _ _ htp.dvd (by omega) hto (by simp), hother' j hnone]
    exact h.entry2_block j hj t ht hnone
  · intro q hq v hv
    obtain ⟨hvp, hvo⟩ := h.valid.level3 _ _ hv
    rw [store_mem hup.dvd hvp.dvd (by omega) (by omega)]
    by_cases hqp : q = p
    · subst hqp
      have hvu : v = u := Option.some.inj (hv.symm.trans hu)
      rw [if_pos ⟨hvu, rfl⟩, Function.update_self]
    · rw [if_neg, Function.update_of_ne hqp]
      · exact h.entry3 q hq v hv
      · rintro ⟨rfl, hidx⟩
        rw [huo, Option.some.injEq, Node.level3.injEq] at hvo
        omega
  · intro j hj hnone
    obtain ⟨h3, hm⟩ := h.empty j hj hnone
    exact ⟨h3, (hother' j h3).trans hm⟩
  · intro q hq hnone
    rw [hother q hnone, hother' _ hnone]
    exact h.block q hq hnone
  · intro j hj hnone σ hσ
    rw [hother' j hnone] at hσ
    exact h.block_dvd j hj hnone σ hσ
  · intro q σ hσ
    by_cases hqp : q = p
    · subst hqp
      rw [Function.update_self, Option.some.injEq] at hσ
      exact hσ ▸ hτ
    · rw [Function.update_of_ne hqp] at hσ
      exact h.page_lt q σ hσ

/-- A new level 3 table, whose contents agree with the page map. -/
lemma Represents.addLevel3 (h : Represents root st L m) {j t u : ℕ} {supply : List ℕ}
    (hj : j < 2 ^ 19) (ht : L.level2 (j / 512) = some t) (hnone : L.level3 j = none)
    (hs : st.supply = u :: supply) {st' : Tables} (hs' : st'.supply = supply)
    (hnew : ∀ k < 512, st'.mem (u + 8 * k) = pageEntry (m (512 * j + k)))
    (hslot : st'.mem (t + 8 * (j % 512)) = tableEntry (some u))
    (hframe : ∀ t' k, pageSize ∣ t' → k < 512 → t' ≠ u → (t' ≠ t ∨ k ≠ j % 512) →
      st'.mem (t' + 8 * k) = st.mem (t' + 8 * k)) :
    Represents root st' (L.addLevel3 j u) m := by
  have hvalid := h.valid
  rw [hs] at hvalid
  obtain ⟨htp, hto⟩ := hvalid.level2 _ _ ht
  have hpage : ∀ i, pageSize ∣ root + pageSize * (i / 512) := fun i =>
    dvd_add hvalid.root_dvd (dvd_mul_right _ _)
  have hlevel3 : ∀ j', j' ≠ j → (L.addLevel3 j u).level3 j' = L.level3 j' := by
    intro j' hne
    simp [Layout.addLevel3, hne]
  have hself : (L.addLevel3 j u).level3 j = some u := by simp [Layout.addLevel3]
  have hentry2 : ∀ j', j' ≠ j → ∀ t', L.level2 (j' / 512) = some t' →
      st'.mem (t' + 8 * (j' % 512)) = st.mem (t' + 8 * (j' % 512)) := by
    intro j' hne t' ht'
    obtain ⟨htp', hto'⟩ := hvalid.level2 _ _ ht'
    refine hframe t' _ htp'.dvd (by omega) (hvalid.ne_of_owner hto') ?_
    by_contra hcon
    push Not at hcon
    obtain ⟨rfl, hidx⟩ := hcon
    rw [hto, Option.some.injEq, Node.level2.injEq] at hto'
    omega
  refine
    { valid := hs' ▸ hvalid.addLevel3 j
      entry1 := ?_
      entry2_table := ?_
      entry2_block := ?_
      entry3 := ?_
      empty := ?_
      block := ?_
      block_dvd := ?_
      page_lt := h.page_lt }
  · intro i hi
    have hne := ne_of_owner_ne (hvalid.owner_rootPage hi) hto (by simp)
    have hframe' := hframe _ _ (hpage i) (Nat.mod_lt i (by norm_num))
      (hvalid.ne_of_owner (hvalid.owner_rootPage hi)) (Or.inl hne)
    exact hframe'.trans (h.entry1 i hi)
  · intro j' hj' t' v ht' hv
    by_cases hne : j' = j
    · subst hne
      have htt : t' = t := Option.some.inj (ht'.symm.trans ht)
      have hvu : v = u := Option.some.inj (hv.symm.trans hself)
      rw [htt, hvu]
      exact hslot
    · rw [hlevel3 j' hne] at hv
      exact (hentry2 j' hne t' ht').trans (h.entry2_table j' hj' t' v ht' hv)
  · intro j' hj' t' ht' hv
    have hne : j' ≠ j := by
      rintro rfl
      exact absurd (hv.symm.trans hself) (by simp)
    rw [hlevel3 j' hne] at hv
    exact (hentry2 j' hne t' ht').trans (h.entry2_block j' hj' t' ht' hv)
  · intro p hp v hv
    by_cases hne : p / 512 = j
    · have hvu : v = u := by
        rw [hne, hself, Option.some.injEq] at hv
        exact hv.symm
      have hpk : 512 * j + p % 512 = p := by omega
      have hval := hnew (p % 512) (by omega)
      rw [hpk] at hval
      rw [hvu]
      exact hval
    · rw [hlevel3 _ hne] at hv
      obtain ⟨hvp, hvo⟩ := hvalid.level3 _ _ hv
      have hframe' := hframe v (p % 512) hvp.dvd (by omega) (hvalid.ne_of_owner hvo)
        (Or.inl (ne_of_owner_ne hvo hto (by simp)))
      exact hframe'.trans (h.entry3 p hp v hv)
  · intro j' hj' hj2
    have hne : j' ≠ j := by
      rintro rfl
      exact absurd (hj2.symm.trans ht) (by simp)
    rw [hlevel3 j' hne]
    exact h.empty j' hj' hj2
  · intro p hp hv
    have hne : p / 512 ≠ j := by
      intro heq
      rw [heq, hself] at hv
      exact absurd hv (by simp)
    rw [hlevel3 _ hne] at hv
    exact h.block p hp hv
  · intro j' hj' hv τ hτ
    have hne : j' ≠ j := by
      rintro rfl
      exact absurd (hv.symm.trans hself) (by simp)
    rw [hlevel3 j' hne] at hv
    exact h.block_dvd j' hj' hv τ hτ

end Represents

end GuestMmu

end HyperBerry
