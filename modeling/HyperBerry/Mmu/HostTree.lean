import HyperBerry.Mmu.HostMmu
import HyperBerry.Mmu.Stage2Tree

/-!
# The tree of stage-1 tables

`Represents root st L e` says that the tables in memory implement the map `e` from the numbers of
the `2 ^ 27` blocks of the 48-bit address space to level 2 entries.  The layout `L` records which
page holds which table: table `i` of level `l` covers the addresses with `va / 2 ^ (48 - 9 * l) =
i`.  All levels are treated alike, so that one lemma adds a table at any level
(`Represents.addTable`) and one says what the walk does (`Represents.walkLevels`).
-/

namespace HyperBerry

namespace HostMmu

open GuestMmu (IsPage tableEntry store_mem store_mem_of_ne clear_mem nextTable)

/-- Where the tables are. -/
structure Layout where
  /-- The level and the number of the table in a page. -/
  owner : ℕ → Option (ℕ × ℕ)
  /-- The tables of each level. -/
  table : ℕ → ℕ → Option ℕ

namespace Layout

/-- Tables are pages with one role each, and the supply holds pages without a role. -/
structure Valid (L : Layout) (root : ℕ) (supply : List ℕ) : Prop where
  /-- The table of level 0. -/
  root : L.table 0 0 = some root
  /-- Every table has its page. -/
  table : ∀ l i t, L.table l i = some t → IsPage t ∧ L.owner t = some (l, i)
  /-- The pages that are handed out next. -/
  fresh : ∀ p ∈ supply, IsPage p ∧ L.owner p = none
  /-- No page is handed out twice. -/
  nodup : supply.Nodup

/-- Add a table. -/
def addTable (L : Layout) (l i u : ℕ) : Layout where
  owner := Function.update L.owner u (some (l, i))
  table := Function.update L.table l (Function.update (L.table l) i (some u))

variable {L : Layout} {root u l i : ℕ} {supply : List ℕ}

/-- The table that was added. -/
lemma addTable_self (L : Layout) (l i u : ℕ) : (L.addTable l i u).table l i = some u := by
  simp [addTable]

/-- The other tables. -/
lemma addTable_of_ne {l' i' : ℕ} (h : (l', i') ≠ (l, i)) :
    (L.addTable l i u).table l' i' = L.table l' i' := by
  by_cases hl : l' = l
  · subst hl
    have hi : i' ≠ i := fun hi => h (by rw [hi])
    simp [addTable, hi]
  · simp [addTable, hl]

/-- The tables that are there after one was added. -/
lemma isSome_addTable (L : Layout) (l i u l' i' : ℕ) :
    ((L.addTable l i u).table l' i').isSome ↔ (L.table l' i').isSome ∨ (l', i') = (l, i) := by
  by_cases h : (l', i') = (l, i)
  · obtain ⟨rfl, rfl⟩ := Prod.mk.inj h
    rw [addTable_self]
    exact iff_of_true rfl (.inr rfl)
  · rw [addTable_of_ne h]
    exact (or_iff_left h).symm

/-- A page with a role is not the next one of the supply. -/
lemma Valid.ne_of_table (h : L.Valid root (u :: supply)) {l i t : ℕ} (ht : L.table l i = some t) :
    t ≠ u := by
  rintro rfl
  have hfresh := (h.fresh t List.mem_cons_self).2
  rw [(h.table l i t ht).2] at hfresh
  cases hfresh

/-- Tables in one page are one table. -/
lemma Valid.table_injective (h : L.Valid root supply) {l l' i i' t : ℕ} (ht : L.table l i = some t)
    (ht' : L.table l' i' = some t) : (l', i') = (l, i) := by
  have heq := (h.table l i t ht).2.symm.trans (h.table l' i' t ht').2
  exact (Option.some.inj heq).symm

/-- The layout stays valid when a table is added. -/
lemma Valid.addTable (h : L.Valid root (u :: supply)) (hnone : L.table l i = none) :
    (L.addTable l i u).Valid root supply where
  root := by
    have hne : (0, 0) ≠ (l, i) := by
      rintro heq
      cases heq
      rw [h.root] at hnone
      cases hnone
    rw [addTable_of_ne hne, h.root]
  table l' i' t ht := by
    by_cases heq : (l', i') = (l, i)
    · cases heq
      rw [addTable_self] at ht
      cases ht
      exact ⟨(h.fresh u List.mem_cons_self).1, Function.update_self ..⟩
    · rw [addTable_of_ne heq] at ht
      obtain ⟨hpage, howner⟩ := h.table l' i' t ht
      exact ⟨hpage, (Function.update_of_ne (h.ne_of_table ht) _ _).trans howner⟩
  fresh p hp := by
    have hne : p ≠ u := by
      rintro rfl
      exact (List.nodup_cons.mp h.nodup).1 hp
    obtain ⟨hpage, howner⟩ := h.fresh p (List.mem_cons_of_mem _ hp)
    exact ⟨hpage, (Function.update_of_ne hne _ _).trans howner⟩
  nodup := (List.nodup_cons.mp h.nodup).2

end Layout

/-! ## The invariant -/

/-- The tables at `root` implement the block map `e`; see the head of this file. -/
structure Represents (root : ℕ) (st : Tables) (L : Layout) (e : ℕ → ℕ) : Prop where
  /-- The layout is valid. -/
  valid : L.Valid root st.supply
  /-- The entries of levels 0 and 1. -/
  entry : ∀ l < 2, ∀ i t, L.table l (i / 512) = some t →
    st.mem (t + 8 * (i % 512)) = tableEntry (L.table (l + 1) i)
  /-- The entries of level 2. -/
  leaf : ∀ b t, L.table 2 (b / 512) = some t → st.mem (t + 8 * (b % 512)) = e b
  /-- There is nothing below a missing table. -/
  parent : ∀ l < 2, ∀ i, L.table l (i / 512) = none → L.table (l + 1) i = none
  /-- Nothing is mapped without a table. -/
  empty : ∀ b, L.table 2 (b / 512) = none → e b = 0

variable {root : ℕ} {st : Tables} {L : Layout} {e : ℕ → ℕ}

/-- A number is its quotient and its remainder. -/
lemma eq_of_div_mod {i j : ℕ} (hdiv : i / 512 = j / 512) (hmod : i % 512 = j % 512) : i = j := by
  omega

/-- A new table below one that is there. -/
lemma Represents.addTable (h : Represents root st L e) {l i t u : ℕ} {supply : List ℕ} (hl : l < 2)
    (ht : L.table l (i / 512) = some t) (hnone : L.table (l + 1) i = none)
    (hs : st.supply = u :: supply) :
    Represents root ((Tables.clear { st with supply := supply } u pageSize).store
      (t + 8 * (i % 512)) (tableEntry (some u))) (L.addTable (l + 1) i u) e := by
  have hvalid := h.valid
  rw [hs] at hvalid
  have hu := (hvalid.fresh u List.mem_cons_self).1
  have htpage := (hvalid.table l _ t ht).1
  have hmod : ∀ k, k % 512 < 512 := fun k => Nat.mod_lt _ (by norm_num)
  -- the entries of the tables that were there, other than the one that is written
  have hframe : ∀ l' i' t' k, k < 512 → L.table l' i' = some t' → (t' ≠ t ∨ k ≠ i % 512) →
      ((Tables.clear { st with supply := supply } u pageSize).store (t + 8 * (i % 512))
        (tableEntry (some u))).mem (t' + 8 * k) = st.mem (t' + 8 * k) := by
    intro l' i' t' k hk ht' hne
    have hpage' := (hvalid.table l' i' t' ht').1
    rw [store_mem htpage.dvd hpage'.dvd (hmod i) hk, if_neg (by tauto),
      clear_mem hu.dvd hpage'.dvd hk, if_neg (hvalid.ne_of_table ht')]
  -- the entries of the new table
  have hnew : ∀ k < 512, ((Tables.clear { st with supply := supply } u pageSize).store
      (t + 8 * (i % 512)) (tableEntry (some u))).mem (u + 8 * k) = 0 := by
    intro k hk
    rw [store_mem htpage.dvd hu.dvd (hmod i) hk, if_neg fun heq => hvalid.ne_of_table ht heq.1.symm,
      clear_mem hu.dvd hu.dvd hk, if_pos rfl]
  refine ⟨hvalid.addTable hnone, fun l' hl' i' t' ht' => ?_, fun b t' ht' => ?_,
    fun l' hl' i' hno => ?_, fun b hno => ?_⟩
  · by_cases hself : (l', i' / 512) = (l + 1, i)
    · -- below the new table there is none
      obtain ⟨rfl, rfl⟩ := Prod.mk.inj hself
      rw [Layout.addTable_self] at ht'
      cases ht'
      have hne : (l + 1 + 1, i') ≠ (l + 1, i' / 512) := by simp
      rw [hnew _ (hmod _), Layout.addTable_of_ne hne, h.parent (l + 1) hl' i' hnone]
      rfl
    · rw [Layout.addTable_of_ne hself] at ht'
      by_cases hentry : (l' + 1, i') = (l + 1, i)
      · obtain ⟨hll, rfl⟩ := Prod.mk.inj hentry
        obtain rfl : l' = l := Nat.succ.inj hll
        obtain rfl : t' = t := Option.some.inj (ht'.symm.trans ht)
        rw [Layout.addTable_self, store_mem htpage.dvd htpage.dvd (hmod _) (hmod _),
          if_pos ⟨rfl, rfl⟩]
      · rw [Layout.addTable_of_ne hentry, ← h.entry l' hl' i' t' ht']
        refine hframe l' _ t' _ (hmod _) ht' ?_
        by_contra hsame
        rw [not_or, not_not, not_not] at hsame
        obtain ⟨rfl, hk⟩ := hsame
        obtain ⟨rfl, hdiv⟩ := Prod.mk.inj (h.valid.table_injective ht ht')
        exact hentry (by rw [eq_of_div_mod hdiv hk])
  · by_cases hself : (2, b / 512) = (l + 1, i)
    · obtain ⟨hl2, rfl⟩ := Prod.mk.inj hself
      rw [← hl2] at hnone ht'
      rw [Layout.addTable_self] at ht'
      cases ht'
      rw [hnew _ (hmod _), h.empty b hnone]
    · rw [Layout.addTable_of_ne hself] at ht'
      rw [← h.leaf b t' ht']
      refine hframe 2 _ t' _ (hmod _) ht' (.inl ?_)
      rintro rfl
      have hlevel := (Prod.mk.inj (h.valid.table_injective ht ht')).1
      omega
  · by_cases hself : (l', i' / 512) = (l + 1, i)
    · obtain ⟨rfl, rfl⟩ := Prod.mk.inj hself
      rw [Layout.addTable_self] at hno
      cases hno
    · rw [Layout.addTable_of_ne hself] at hno
      have hne : (l' + 1, i') ≠ (l + 1, i) := by
        intro heq
        obtain ⟨hll, rfl⟩ := Prod.mk.inj heq
        obtain rfl : l' = l := Nat.succ.inj hll
        rw [ht] at hno
        cases hno
      rw [Layout.addTable_of_ne hne, h.parent l' hl' i' hno]
  · by_cases hself : (2, b / 512) = (l + 1, i)
    · obtain ⟨hl2, rfl⟩ := Prod.mk.inj hself
      rw [← hl2, Layout.addTable_self] at hno
      cases hno
    · rw [Layout.addTable_of_ne hself] at hno
      exact h.empty b hno

/-- Writing a level 2 entry. -/
lemma Represents.setBlock (h : Represents root st L e) {b t : ℕ} (ht : L.table 2 (b / 512) = some t)
    (v : ℕ) : Represents root (st.store (t + 8 * (b % 512)) v) L (Function.update e b v) := by
  have hmod : ∀ k, k % 512 < 512 := fun k => Nat.mod_lt _ (by norm_num)
  have htpage := (h.valid.table 2 _ t ht).1
  refine ⟨h.valid, fun l hl i t' ht' => ?_, fun b' t' ht' => ?_, h.parent, fun b' hno => ?_⟩
  · have hne : t' ≠ t := by
      rintro rfl
      have hlevel := (Prod.mk.inj (h.valid.table_injective ht ht')).1
      omega
    rw [store_mem_of_ne htpage.dvd (h.valid.table l _ t' ht').1.dvd (hmod _) (hmod _) hne,
      h.entry l hl i t' ht']
  · rw [store_mem htpage.dvd (h.valid.table 2 _ t' ht').1.dvd (hmod _) (hmod _),
      Function.update_apply]
    by_cases hb : b' = b
    · subst hb
      obtain rfl : t' = t := Option.some.inj (ht'.symm.trans ht)
      rw [if_pos ⟨rfl, rfl⟩, if_pos rfl]
    · rw [if_neg hb, if_neg, h.leaf b' t' ht']
      rintro ⟨rfl, hk⟩
      obtain ⟨-, hdiv⟩ := Prod.mk.inj (h.valid.table_injective ht ht')
      exact hb (eq_of_div_mod hdiv hk)
  · have hne : b' ≠ b := by
      rintro rfl
      rw [ht] at hno
      cases hno
    rw [Function.update_of_ne hne, h.empty b' hno]

/-! ## The walk -/

/-- The position of the index of a level. -/
lemma levelShift_eq {l : ℕ} (hl : l < 2) : PageTable.levelShift l = 39 - 9 * l := by
  interval_cases l <;> rfl

/-- The index mask of every level of the table. -/
lemma stage1_mask (root l : ℕ) :
    (if l = (stage1Table root).startLevel then (stage1Table root).rootIndexMask else 0x1FF) =
      2 ^ 9 - 1 := by
  split <;> rfl

/-- The index of an address in a table of the levels 0 and 1. -/
lemma index_eq (va l : ℕ) (hl : l < 2) :
    va >>> PageTable.levelShift l &&& (2 ^ 9 - 1) = va / 2 ^ (39 - 9 * l) % 512 := by
  rw [Nat.and_two_pow_sub_one_eq_mod, Nat.shiftRight_eq_div_pow, levelShift_eq hl]

/-- The index of an address in a table of level 2. -/
lemma l2Index_eq (va : ℕ) : l2Index va = va / 2 ^ 21 % 512 := by
  rw [l2Index, show (0x1FF : ℕ) = 2 ^ 9 - 1 from rfl, Nat.and_two_pow_sub_one_eq_mod,
    Nat.shiftRight_eq_div_pow]

/-- The table that covers an address, and the entry that covers it there. -/
lemma div_table (va l : ℕ) (hl : l < 2) : va / 2 ^ (39 - 9 * l) / 512 = va / 2 ^ (48 - 9 * l) := by
  rw [Nat.div_div_eq_div_mul, show 512 = 2 ^ 9 from rfl, ← pow_add]
  congr 2
  omega

/-- One level of the walk, where the next table is there. -/
lemma walkLevels_valid {k l va t t' : ℕ} {alloc : Bool} (hl : l < 2) (ht' : IsPage t')
    (hentry : st.mem (t + 8 * (va / 2 ^ (39 - 9 * l) % 512)) = tableEntry (some t')) :
    (stage1Table root).walkLevels va alloc (k + 1) l st t =
      (stage1Table root).walkLevels va alloc k (l + 1) st t' := by
  have hvalid : pteIsValid (tableEntry (some t')) = true := by
    have hmod := GuestMmu.tableEntry_mod_four ht'
    rw [GuestMmu.pteIsValid_iff]
    omega
  rw [PageTable.walkLevels]
  simp only [stage1_mask, index_eq va l hl, hentry, hvalid, if_true]
  rw [GuestMmu.pteNextTable_eq, GuestMmu.nextTable_tableEntry ht']

/-- One level of the walk, where the next table is missing. -/
lemma walkLevels_missing {k l va t : ℕ} {alloc : Bool} (hl : l < 2)
    (hentry : st.mem (t + 8 * (va / 2 ^ (39 - 9 * l) % 512)) = tableEntry none) :
    (stage1Table root).walkLevels va alloc (k + 1) l st t =
      if alloc then
        st.allocTable.bind fun r =>
          let st := r.1.store (t + 8 * (va / 2 ^ (39 - 9 * l) % 512))
            (r.2 ||| pteValid ||| pteTable)
          (stage1Table root).walkLevels va alloc k (l + 1) st
            (pteNextTable (st.mem (t + 8 * (va / 2 ^ (39 - 9 * l) % 512))))
      else some (st, none) := by
  have hinvalid : pteIsValid (tableEntry none) = false := by decide
  rw [PageTable.walkLevels]
  simp only [stage1_mask, index_eq va l hl, hentry, hinvalid, Bool.false_eq_true, if_false]
  rfl

/-- The walk that allocates returns the slot of the level 2 entry.  The tables of level 2 are those
there were and the one that covers the address, and one page a level is enough. -/
lemma Represents.walkLevels {va : ℕ} : ∀ (k l : ℕ) {st : Tables} {L : Layout} {t : ℕ},
    Represents root st L e → l + k = 2 → L.table l (va / 2 ^ (48 - 9 * l)) = some t →
    ((stage1Table root).walkLevels va true k l st t = none ∧ st.supply.length < k) ∨
    ∃ st' L' t', (stage1Table root).walkLevels va true k l st t =
        some (st', some (t' + 8 * (va / 2 ^ 21 % 512))) ∧
      Represents root st' L' e ∧ L'.table 2 (va / 2 ^ 21 / 512) = some t' ∧
      (∀ g, (L'.table 2 g).isSome ↔ (L.table 2 g).isSome ∨ g = va / 2 ^ 21 / 512) ∧
      st.supply.length ≤ st'.supply.length + k := by
  intro k
  induction k with
  | zero =>
    intro l st L t h hl ht
    obtain rfl : l = 2 := hl
    have hdiv : va / 2 ^ (48 - 9 * 2) = va / 2 ^ 21 / 512 := by omega
    rw [hdiv] at ht
    refine .inr ⟨st, L, t, ?_, h, ht, fun g => ?_, le_rfl⟩
    · rw [PageTable.walkLevels, l2Index_eq]
    · refine ⟨Or.inl, fun hg => ?_⟩
      rcases hg with hg | rfl
      · exact hg
      · rw [ht]
        rfl
  | succ k ih =>
    intro l st L t h hlk ht
    have hl : l < 2 := by omega
    have hdiv := div_table va l hl
    have hnext : 48 - 9 * (l + 1) = 39 - 9 * l := by omega
    have hentry := h.entry l hl (va / 2 ^ (39 - 9 * l)) t (hdiv ▸ ht)
    cases hchild : L.table (l + 1) (va / 2 ^ (39 - 9 * l)) with
    | some t' =>
      rw [hchild] at hentry
      rw [walkLevels_valid hl (h.valid.table _ _ _ hchild).1 hentry]
      rcases ih (l + 1) h (by omega) (hnext ▸ hchild) with ⟨hrun, hlen⟩ |
        ⟨st', L', u, hrun, h', hu, hg, hlen⟩
      · exact .inl ⟨hrun, by omega⟩
      · exact .inr ⟨st', L', u, hrun, h', hu, hg, by omega⟩
    | none =>
      rw [hchild] at hentry
      rw [walkLevels_missing hl hentry, if_pos rfl]
      cases hs : st.supply with
      | nil =>
        left
        simp [Tables.allocTable, hs]
      | cons u supply =>
        have hu := (h.valid.fresh u (by rw [hs]; exact List.mem_cons_self)).1
        have h' := h.addTable hl (hdiv ▸ ht) hchild hs
        have hread : pteNextTable (tableEntry (some u)) = u := by
          rw [GuestMmu.pteNextTable_eq, GuestMmu.nextTable_tableEntry hu]
        simp only [Tables.allocTable, hs, Option.bind_some, GuestMmu.tableDescriptor_eq hu.dvd]
        rw [show ((Tables.clear { st with supply := supply } u pageSize).store
          (t + 8 * (va / 2 ^ (39 - 9 * l) % 512)) (tableEntry (some u))).mem
          (t + 8 * (va / 2 ^ (39 - 9 * l) % 512)) =
            tableEntry (some u) from Function.update_self .., hread]
        have hself : (L.addTable (l + 1) (va / 2 ^ (39 - 9 * l)) u).table (l + 1)
            (va / 2 ^ (48 - 9 * (l + 1))) = some u := by
          rw [hnext, Layout.addTable_self]
        -- a new table of level 2 is the one that covers the address
        have hnew : ∀ g, (2, g) = (l + 1, va / 2 ^ (39 - 9 * l)) → g = va / 2 ^ 21 / 512 := by
          intro g heq
          obtain ⟨hl2, rfl⟩ := Prod.mk.inj heq
          obtain rfl : l = 1 := by omega
          omega
        rcases ih (l + 1) h' (by omega) hself with ⟨hrun, hlen⟩ |
          ⟨st', L', w, hrun, h₂, hw, hg, hlen⟩
        · left
          refine ⟨hrun, ?_⟩
          rw [List.length_cons]
          exact Nat.succ_lt_succ hlen
        · right
          refine ⟨st', L', w, hrun, h₂, hw, fun g => ?_, ?_⟩
          · rw [hg, Layout.isSome_addTable]
            constructor
            · rintro ((hg' | heq) | rfl)
              · exact .inl hg'
              · exact .inr (hnew g heq)
              · exact .inr rfl
            · rintro (hg' | rfl)
              · exact .inl (.inl hg')
              · exact .inr rfl
          · rw [List.length_cons]
            exact Nat.succ_le_succ hlen

/-- The root covers every address of 48 bits. -/
lemma Represents.root_table (h : Represents root st L e) {va : ℕ} (hva : va < 2 ^ 48) :
    L.table 0 (va / 2 ^ (48 - 9 * 0)) = some root := by
  rw [Nat.div_eq_of_lt hva]
  exact h.valid.root

/-- The walk to an address of 48 bits that allocates. -/
lemma Represents.walk_alloc (h : Represents root st L e) {va : ℕ} (hva : va < 2 ^ 48) :
    ((stage1Table root).walk va true st = none ∧ st.supply.length < 2) ∨
    ∃ st' L' t, (stage1Table root).walk va true st =
      some (st', some (t + 8 * (va / 2 ^ 21 % 512))) ∧
      Represents root st' L' e ∧ L'.table 2 (va / 2 ^ 21 / 512) = some t ∧
      (∀ g, (L'.table 2 g).isSome ↔ (L.table 2 g).isSome ∨ g = va / 2 ^ 21 / 512) ∧
      st.supply.length ≤ st'.supply.length + 2 :=
  h.walkLevels 2 0 rfl (h.root_table hva)

/-- Below a missing table there is no table of level 2. -/
lemma Represents.level2_none (h : Represents root st L e) {va l : ℕ} (hl : l < 2)
    (hnone : L.table (l + 1) (va / 2 ^ (39 - 9 * l)) = none) :
      L.table 2 (va / 2 ^ 21 / 512) = none := by
  have hdiv : va / 2 ^ 21 / 512 = va / 2 ^ 30 := by omega
  rw [hdiv]
  obtain rfl | rfl : l = 0 ∨ l = 1 := by omega
  · refine h.parent 1 (by norm_num) _ ?_
    rw [show va / 2 ^ 30 / 512 = va / 2 ^ 39 by omega]
    exact hnone
  · exact hnone

/-- The walk that does not allocate. -/
lemma Represents.walkLevels_lookup (h : Represents root st L e) {va : ℕ} : ∀ (k l : ℕ) {t : ℕ},
    l + k = 2 → L.table l (va / 2 ^ (48 - 9 * l)) = some t →
    (stage1Table root).walkLevels va false k l st t =
      some (st, (L.table 2 (va / 2 ^ 21 / 512)).map fun t => t + 8 * (va / 2 ^ 21 % 512)) := by
  intro k
  induction k with
  | zero =>
    intro l t hl ht
    obtain rfl : l = 2 := hl
    rw [show va / 2 ^ (48 - 9 * 2) = va / 2 ^ 21 / 512 by omega] at ht
    rw [PageTable.walkLevels, l2Index_eq, ht, Option.map_some]
  | succ k ih =>
    intro l t hlk ht
    have hl : l < 2 := by omega
    have hnext : 48 - 9 * (l + 1) = 39 - 9 * l := by omega
    have hentry := h.entry l hl (va / 2 ^ (39 - 9 * l)) t (div_table va l hl ▸ ht)
    cases hchild : L.table (l + 1) (va / 2 ^ (39 - 9 * l)) with
    | some t' =>
      rw [hchild] at hentry
      rw [walkLevels_valid hl (h.valid.table _ _ _ hchild).1 hentry]
      exact ih (l + 1) (by omega) (hnext ▸ hchild)
    | none =>
      rw [hchild] at hentry
      rw [walkLevels_missing hl hentry, h.level2_none hl hchild]
      rfl

/-- The walk to an address of 48 bits that does not allocate. -/
lemma Represents.walk_lookup (h : Represents root st L e) {va : ℕ} (hva : va < 2 ^ 48) :
    (stage1Table root).walk va false st =
      some (st, (L.table 2 (va / 2 ^ 21 / 512)).map fun t => t + 8 * (va / 2 ^ 21 % 512)) :=
  h.walkLevels_lookup 2 0 rfl (h.root_table hva)

/-! ## The hardware -/

/-- What the hardware makes of a level 2 entry that is no table. -/
def translateBlock (entry va : ℕ) : Option Translation :=
  if entry % 4 = 1 then some (translateBy entry 21 va) else none

/-- What the hardware finds in tables that implement a block map. -/
lemma Represents.hwWalk_eq (h : Represents root st L e) {va : ℕ} (hva : va < 2 ^ 48)
    (hblock : e (va / 2 ^ 21) % 4 ≠ 3) :
    hwWalk st.mem root va = translateBlock (e (va / 2 ^ 21)) va := by
  have hroot : L.table 0 (va / 2 ^ 39 / 512) = some root := by
    rw [show va / 2 ^ 39 / 512 = 0 by omega]
    exact h.valid.root
  have hentry₀ := h.entry 0 (by norm_num) (va / 2 ^ 39) root hroot
  have hdiv : va / 2 ^ 21 / 512 = va / 2 ^ 30 := by omega
  have hindex : ∀ x, x % 2 ^ 9 = x % 512 := fun _ => rfl
  rw [hwWalk, if_pos hva]
  simp only [hindex, hentry₀]
  cases h1 : L.table 1 (va / 2 ^ 39) with
  | none =>
    have h2 : L.table 2 (va / 2 ^ 30) = none :=
      h.parent 1 (by norm_num) _ (by rw [show va / 2 ^ 30 / 512 = va / 2 ^ 39 by omega, h1])
    rw [h.empty (va / 2 ^ 21) (by rw [hdiv, h2])]
    rfl
  | some t₁ =>
    have hp₁ := (h.valid.table _ _ _ h1).1
    have hentry₁ := h.entry 1 (by norm_num) (va / 2 ^ 30) t₁
      (by rw [show va / 2 ^ 30 / 512 = va / 2 ^ 39 by omega, h1])
    simp only [GuestMmu.tableEntry_mod_four hp₁, GuestMmu.nextTable_tableEntry hp₁,
      if_true, hwLevel1, hindex, hentry₁]
    cases h2 : L.table 2 (va / 2 ^ 30) with
    | none =>
      rw [h.empty (va / 2 ^ 21) (by rw [hdiv, h2])]
      rfl
    | some t₂ =>
      have hp₂ := (h.valid.table _ _ _ h2).1
      simp only [GuestMmu.tableEntry_mod_four hp₂, GuestMmu.nextTable_tableEntry hp₂,
        if_true, hwLevel2, hindex, h.leaf (va / 2 ^ 21) t₂ (by rw [hdiv, h2]), if_neg hblock]
      rfl

end HostMmu

end HyperBerry
