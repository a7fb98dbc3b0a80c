import HyperBerry.Mmu.Coherence

/-!
# Commits to the tables of a guest

The code changes the tables of a guest in commits: a table is filled and cleaned while nothing
points to it, and then one entry is written and cleaned.  `Snapshot` is the state of the tables
after a commit, and `Next` says what one commit does.  There are six of them: a new level 2 table, a
new level 3 table, the two halves of the split of a block, and the entries of a block and of a page.
-/

namespace HyperBerry

namespace GuestMmu

open Cache Walk

/-! ## Tables that are not in use yet -/

/-- Give a page a role before anything points to it. -/
def Layout.reserve (L : Layout) (u : ℕ) (ν : Node) : Layout :=
  { L with owner := Function.update L.owner u (some ν) }

/-- The page map without the pages of a level 2 entry. -/
def unmapEntry (m : ℕ → Option Target) (j p : ℕ) : Option Target :=
  if p / 512 = j then none else m p

section Represents

variable {root : ℕ} {st st' : Tables} {L : Layout} {m : ℕ → Option Target}

/-- Taking the next page of the supply and writing to it changes nothing that is mapped. -/
lemma Represents.reserve (h : Represents root st L m) {u : ℕ} {supply : List ℕ} (ν : Node)
    (hs : st.supply = u :: supply) (hs' : st'.supply = supply)
    (hframe : ∀ t k, pageSize ∣ t → k < 512 → t ≠ u → st'.mem (t + 8 * k) = st.mem (t + 8 * k)) :
    Represents root st' (L.reserve u ν) m := by
  have hvalid := h.valid
  rw [hs] at hvalid
  have hne {t : ℕ} {μ : Node} (ht : L.owner t = some μ) : t ≠ u := hvalid.ne_of_owner ht
  refine
    { valid := ?_
      entry1 := ?_
      entry2_table := ?_
      entry2_block := ?_
      entry3 := ?_
      empty := h.empty
      block := h.block
      block_dvd := h.block_dvd
      page_lt := h.page_lt }
  · rw [hs']
    exact
      { root_dvd := hvalid.root_dvd
        owner_root := fun k hk => hvalid.owner_update (hvalid.owner_root k hk)
        level2 := fun i t ht =>
          ⟨(hvalid.level2 i t ht).1, hvalid.owner_update (hvalid.level2 i t ht).2⟩
        level3 := fun j t ht =>
          ⟨(hvalid.level3 j t ht).1, hvalid.owner_update (hvalid.level3 j t ht).2⟩
        fresh := hvalid.fresh_update ν
        nodup := (List.nodup_cons.mp hvalid.nodup).2 }
  · intro i hi
    rw [hframe _ _ (dvd_add hvalid.root_dvd (dvd_mul_right _ _)) (Nat.mod_lt _ (by norm_num))
      (hne (hvalid.owner_rootPage hi))]
    exact h.entry1 i hi
  · intro j hj t v ht hv
    obtain ⟨htp, hto⟩ := hvalid.level2 _ _ ht
    rw [hframe t _ htp.dvd (Nat.mod_lt _ (by norm_num)) (hne hto)]
    exact h.entry2_table j hj t v ht hv
  · intro j hj t ht hnone
    obtain ⟨htp, hto⟩ := hvalid.level2 _ _ ht
    rw [hframe t _ htp.dvd (Nat.mod_lt _ (by norm_num)) (hne hto)]
    exact h.entry2_block j hj t ht hnone
  · intro p hp v hv
    obtain ⟨hvp, hvo⟩ := hvalid.level3 _ _ hv
    rw [hframe v _ hvp.dvd (Nat.mod_lt _ (by norm_num)) (hne hvo)]
    exact h.entry3 p hp v hv

/-- Clearing a level 2 entry that points to no table. -/
lemma Represents.unmap (h : Represents root st L m) {j t : ℕ} (hj : j < 2 ^ 19)
    (ht : L.level2 (j / 512) = some t) (hnone : L.level3 j = none) :
    Represents root (st.store (t + 8 * (j % 512)) 0) L (unmapEntry m j) := by
  obtain ⟨htp, hto⟩ := h.valid.level2 _ _ ht
  have hk : j % 512 < 512 := Nat.mod_lt _ (by norm_num)
  have hother : ∀ p, p / 512 ≠ j → unmapEntry m j p = m p := fun p hne => if_neg hne
  have hself : ∀ p, p / 512 = j → unmapEntry m j p = none := fun p heq => if_pos heq
  have hdiv : ∀ j, 512 * j / 512 = j := fun j => Nat.mul_div_cancel_left j (by norm_num)
  refine
    { valid := h.valid
      entry1 := ?_
      entry2_table := ?_
      entry2_block := ?_
      entry3 := ?_
      empty := ?_
      block := ?_
      block_dvd := ?_
      page_lt := ?_ }
  · intro i hi
    have hne := ne_of_owner_ne (h.valid.owner_rootPage hi) hto (by simp)
    rw [store_mem_of_ne htp.dvd (dvd_add h.valid.root_dvd (dvd_mul_right _ _)) hk
      (Nat.mod_lt _ (by norm_num)) hne]
    exact h.entry1 i hi
  · intro j' hj' t' v ht' hv
    obtain ⟨htp', hto'⟩ := h.valid.level2 _ _ ht'
    rw [store_mem htp.dvd htp'.dvd hk (Nat.mod_lt _ (by norm_num)), if_neg]
    · exact h.entry2_table j' hj' t' v ht' hv
    · rintro ⟨rfl, hidx⟩
      rw [hto, Option.some.injEq, Node.level2.injEq] at hto'
      obtain rfl : j' = j := by omega
      exact absurd (hnone.symm.trans hv) (by simp)
  · intro j' hj' t' ht' hv
    obtain ⟨htp', hto'⟩ := h.valid.level2 _ _ ht'
    by_cases hne : j' = j
    · subst hne
      obtain rfl : t' = t := Option.some.inj (ht'.symm.trans ht)
      rw [store_mem htp.dvd htp.dvd hk hk, if_pos ⟨rfl, rfl⟩, hself _ (hdiv j')]
      rfl
    · rw [store_mem htp.dvd htp'.dvd hk (Nat.mod_lt _ (by norm_num)), if_neg,
        hother _ (by rwa [hdiv])]
      · exact h.entry2_block j' hj' t' ht' hv
      · rintro ⟨rfl, hidx⟩
        rw [hto, Option.some.injEq, Node.level2.injEq] at hto'
        omega
  · intro p hp v hv
    obtain ⟨hvp, hvo⟩ := h.valid.level3 _ _ hv
    have hne : p / 512 ≠ j := by
      rintro rfl
      exact absurd (hnone.symm.trans hv) (by simp)
    rw [store_mem_of_ne htp.dvd hvp.dvd hk (Nat.mod_lt _ (by norm_num))
      (ne_of_owner_ne hvo hto (by simp)), hother p hne]
    exact h.entry3 p hp v hv
  · intro j' hj' hj2
    have hne : j' ≠ j := by
      rintro rfl
      exact absurd (hj2.symm.trans ht) (by simp)
    rw [hother _ (by rwa [hdiv])]
    exact h.empty j' hj' hj2
  · intro p hp hp3
    by_cases hne : p / 512 = j
    · rw [hself p hne, hself _ (by rw [hdiv, hne]), Option.map_none]
    · rw [hother p hne, hother _ (by rwa [hdiv])]
      exact h.block p hp hp3
  · intro j' hj' hv τ hτ
    by_cases hne : j' = j
    · rw [hself _ (by rw [hdiv, hne])] at hτ
      exact absurd hτ (by simp)
    · rw [hother _ (by rwa [hdiv])] at hτ
      exact h.block_dvd j' hj' hv τ hτ
  · intro p τ hτ
    by_cases hne : p / 512 = j
    · rw [hself p hne] at hτ
      exact absurd hτ (by simp)
    · rw [hother p hne] at hτ
      exact h.page_lt p τ hτ

end Represents

/-! ## Snapshots -/

/-- The tables after a commit. -/
structure Snapshot where
  st : Tables
  /-- Where the tables are. -/
  layout : Layout
  /-- What they map. -/
  map : ℕ → Option Target
  /-- The level 2 entry of a block that is being split. -/
  split : Option ℕ
  /-- The number of TLB invalidations before. -/
  epoch : ℕ

/-- The entries of the tables of a layout. -/
def tableWords (L : Layout) : Set ℕ :=
  {a | ∃ p k, pageSize ∣ p ∧ L.owner p ≠ none ∧ k < 512 ∧ a = p + 8 * k}

/-- What the walker can see of a snapshot. -/
def Snapshot.stage (x : Snapshot) : Stage ℕ ℕ := ⟨tableWords x.layout, x.st.mem, x.epoch⟩

/-- The events between the two commits of a split. -/
def tlbEvents (hcr : ℕ) : List (Event ℕ ℕ) :=
  .barrier :: if hcr &&& 1 ≠ 0 then [.invalidate, .barrier] else []

/-- What a commit does to the tables. -/
structure Next (hcr root : ℕ) (r : Commit ℕ ℕ) (x y : Snapshot) : Prop where
  /-- It publishes a single entry. -/
  publishes : r.Publishes x.stage y.stage
  /-- The tables implement a page map. -/
  represents : Represents root y.st y.layout y.map
  /-- A level 2 table stays where it is. -/
  level2 : ∀ i t, x.layout.level2 i = some t → y.layout.level2 i = some t
  /-- A page keeps its role. -/
  owner : ∀ p ν, x.layout.owner p = some ν → y.layout.owner p = some ν
  /-- Only a level 3 table that is in use is written to. -/
  level3 : ∀ u j k, pageSize ∣ u → x.layout.owner u = some (.level3 j) → k < 512 →
    y.st.mem (u + 8 * k) = x.st.mem (u + 8 * k) ∨ y.layout.level3 j = some u
  /-- Only a block takes the place of a level 3 table. -/
  table : ∀ j u, x.layout.level3 j = some u → y.layout.level3 j = some u ∨ r.value % 4 = 1
  /-- A block stays one, or its entry is cleared for a split. -/
  block : ∀ j, x.layout.level3 j = none → x.map (512 * j) ≠ none →
    y.layout.level3 j = none ∧ (y.map (512 * j) ≠ none ∨ y.split = some j)
  /-- A split is finished by the next commit, after the TLB was invalidated. -/
  split : x.split ≠ none → y.split = none ∧ r.prep = tlbEvents hcr

/-- Commits one after the other, with the snapshots that they lead to. -/
inductive Path (hcr root : ℕ) : Snapshot → List (Commit ℕ ℕ × Snapshot) → Prop
  | nil (x : Snapshot) : Path hcr root x []
  | cons {x y : Snapshot} {r : Commit ℕ ℕ} {l : List (Commit ℕ ℕ × Snapshot)} :
      Next hcr root r x y → Path hcr root y l → Path hcr root x ((r, y) :: l)

/-- The plan of a path. -/
def stages (l : List (Commit ℕ ℕ × Snapshot)) : List (Commit ℕ ℕ × Stage ℕ ℕ) :=
  l.map fun z => (z.1, z.2.stage)

/-- The last snapshot of a path. -/
def lastOf (x : Snapshot) : List (Commit ℕ ℕ × Snapshot) → Snapshot
  | [] => x
  | z :: l => lastOf z.2 l

section Path

variable {hcr root : ℕ} {x y : Snapshot} {l l' : List (Commit ℕ ℕ × Snapshot)}

lemma lastOf_append : lastOf x (l ++ l') = lastOf (lastOf x l) l' := by
  induction l generalizing x with
  | nil => rfl
  | cons z l ih => exact ih

lemma reached_stages : reached x.stage (stages l) = (lastOf x l).stage := by
  induction l generalizing x with
  | nil => rfl
  | cons z l ih => exact ih

lemma Path.plan (h : Path hcr root x l) : Plan x.stage (stages l) := by
  induction h with
  | nil x => exact .nil x.stage
  | cons hnext _ ih => exact .cons hnext.publishes ih

lemma Path.append (h : Path hcr root x l) (h' : Path hcr root (lastOf x l) l') :
    Path hcr root x (l ++ l') := by
  induction h with
  | nil => exact h'
  | cons hnext _ ih => exact .cons hnext (ih h')

lemma Path.of_append (h : Path hcr root x (l ++ l')) :
    Path hcr root x l ∧ Path hcr root (lastOf x l) l' := by
  induction l generalizing x with
  | nil => exact ⟨.nil x, h⟩
  | cons z l ih =>
    cases h with
    | cons hnext hrest =>
      obtain ⟨hl, hl'⟩ := ih hrest
      exact ⟨.cons hnext hl, hl'⟩

/-- The tables implement a page map all along. -/
lemma Path.represents (h : Path hcr root x l) (hx : Represents root x.st x.layout x.map) :
    Represents root (lastOf x l).st (lastOf x l).layout (lastOf x l).map := by
  induction h with
  | nil => exact hx
  | cons hnext _ ih => exact ih hnext.represents

/-- Level 2 tables stay. -/
lemma Path.level2 (h : Path hcr root x l) {i t : ℕ} (ht : x.layout.level2 i = some t) :
    (lastOf x l).layout.level2 i = some t := by
  induction h with
  | nil => exact ht
  | cons hnext _ ih => exact ih (hnext.level2 i t ht)

/-- Pages keep their roles. -/
lemma Path.owner (h : Path hcr root x l) {p : ℕ} {ν : Node} (hp : x.layout.owner p = some ν) :
    (lastOf x l).layout.owner p = some ν := by
  induction h with
  | nil => exact hp
  | cons hnext _ ih => exact ih (hnext.owner p ν hp)

end Path

/-! ## Commits that publish -/

/-- Write an entry and clean it, after some preparation. -/
def entryCommit (ctr : ℕ) (prep : List (Event ℕ ℕ)) (slot value : ℕ) : Commit ℕ ℕ :=
  ⟨prep, slot, value, PageTable.cleanLines ctr slot 8⟩

/-- The preparation of a page: it is the only one that is written to, and it is cleaned. -/
structure Prepares (u : ℕ) (prep : List (Event ℕ ℕ)) : Prop where
  written_subset : written prep ⊆ Set.Ico u (u + pageSize)
  settles : ∀ a ∈ Set.Ico u (u + pageSize), Settles a prep False False

section Publishes

variable {ctr u slot value : ℕ} {prep es : List (Event ℕ ℕ)} {x y : Snapshot} {L : Layout}

lemma stores_entryCommit (mem : ℕ → ℕ) :
    stores (entryCommit ctr prep slot value).events mem =
      Function.update (stores prep mem) slot value := by
  rw [Commit.events, stores_append, stores, (quiet_flush _).stores_eq]
  rfl

lemma slot_mem_cleanLines (hslot : slot < 2 ^ 63) :
    ∃ t ∈ PageTable.cleanLines ctr slot 8, slot ∈ t :=
  (PageTable.cleanDataCacheRange_eq (β := ℕ) (by decide) (by omega)).2 slot le_rfl (by omega)

/-- A page without a role holds no entry that can be seen. -/
lemma not_mem_page_of_mem_tableWords (hu : pageSize ∣ u) (hfree : L.owner u = none) {a : ℕ}
    (ha : a ∈ tableWords L) : a ∉ Set.Ico u (u + pageSize) := by
  obtain ⟨p, k, hp, howner, hk, rfl⟩ := ha
  rintro ⟨hle, hlt⟩
  obtain rfl : p = u := by
    obtain ⟨q, rfl⟩ := hp
    obtain ⟨v, rfl⟩ := hu
    unfold pageSize at *
    omega
  exact howner hfree

/-- Clearing a page and cleaning it prepares it, also if its entries are written then. -/
lemma prepares_of_written (hu : u < 2 ^ 48) (hes : written es ⊆ Set.Ico u (u + pageSize)) :
    Prepares u (es ++ flush (PageTable.cleanLines ctr u pageSize)) where
  written_subset := by
    rw [written_append, (quiet_flush _).written_eq, Set.union_empty]
    exact hes
  settles := by
    rintro a ⟨hle, hlt⟩
    refine settles_append_flush ?_
    exact (PageTable.cleanDataCacheRange_eq (β := ℕ) (by decide) (by unfold pageSize; omega)).2 a
      hle hlt

lemma written_zeroWrites (addr size : ℕ) :
    written ((Tables.zeroWrites addr size).map fun w => .write w.1 w.2) ⊆
      Set.Ico addr (addr + size) := by
  rw [written_writes]
  rintro a ⟨w, hw, rfl⟩
  obtain ⟨i, hi, rfl⟩ := List.mem_map.mp hw
  have hlt := List.mem_range.mp hi
  exact ⟨Nat.le_add_right _ _, by omega⟩

lemma written_fillWrites (table : ℕ) (entry : ℕ → ℕ) :
    written ((Tables.fillWrites table entry 512).map fun w => .write w.1 w.2) ⊆
      Set.Ico table (table + pageSize) := by
  rw [written_writes]
  rintro a ⟨w, hw, rfl⟩
  obtain ⟨i, hi, rfl⟩ := List.mem_map.mp hw
  have hlt := List.mem_range.mp hi
  refine ⟨Nat.le_add_right _ _, ?_⟩
  unfold pageSize
  dsimp only
  omega

/-- Publishing an entry after preparing a page, which gets a role. -/
lemma publishes_of_prepares {ν : Node} (hprep : Prepares u prep) (hu : pageSize ∣ u)
    (hfree : x.layout.owner u = none)
    (howner : y.layout.owner = Function.update x.layout.owner u (some ν)) (hslot : slot < 2 ^ 63)
    (hmem : y.st.mem = Function.update (stores prep x.st.mem) slot value)
    (hepoch : y.epoch = x.epoch + invalidations prep) :
    (entryCommit ctr prep slot value).Publishes x.stage y.stage where
  prep_private a ha hvis := not_mem_page_of_mem_tableWords hu hfree hvis (hprep.written_subset ha)
  visible_subset := by
    rintro a ⟨p, k, hp, hne, hk, rfl⟩
    refine ⟨p, k, hp, ?_, hk, rfl⟩
    rw [howner]
    by_cases hpu : p = u
    · rw [hpu, Function.update_self]
      simp
    · rwa [Function.update_of_ne hpu]
  settles := by
    intro a ha
    by_cases hin : a ∈ Set.Ico u (u + pageSize)
    · exact (hprep.settles a hin).mono id False.elim
    · have hold : a ∈ tableWords x.layout := by
        obtain ⟨p, k, hp, hne, hk, rfl⟩ := ha
        refine ⟨p, k, hp, ?_, hk, rfl⟩
        rwa [howner, Function.update_of_ne] at hne
        rintro rfl
        exact hin ⟨Nat.le_add_right _ _, by unfold pageSize; omega⟩
      rw [← List.append_nil (entryCommit ctr prep slot value).prep]
      exact Settles.prepend hold fun hwritten => hin (hprep.written_subset hwritten)
  slot_mem := slot_mem_cleanLines hslot
  mem_eq := hmem.trans (stores_entryCommit _).symm
  epoch_eq := hepoch

/-- Publishing an entry when nothing has been written before. -/
lemma publishes_of_unwritten (hprep : written prep = ∅) (howner : y.layout.owner = x.layout.owner)
    (hslot : slot < 2 ^ 63) (hmem : y.st.mem = Function.update x.st.mem slot value)
    (hepoch : y.epoch = x.epoch + invalidations prep) :
    (entryCommit ctr prep slot value).Publishes x.stage y.stage := by
  have hunwritten : ∀ a, a ∉ written prep := fun a => by
    rw [hprep]
    exact Set.notMem_empty a
  have hvisible : y.stage.visible = x.stage.visible := by
    rw [Snapshot.stage, Snapshot.stage, tableWords, tableWords, howner]
  refine
    { prep_private := fun a ha => absurd ha (hunwritten a)
      visible_subset := hvisible.ge
      settles := fun a ha => ?_
      slot_mem := slot_mem_cleanLines hslot
      mem_eq := ?_
      epoch_eq := hepoch }
  · rw [← List.append_nil (entryCommit ctr prep slot value).prep]
    exact Settles.prepend (hvisible ▸ ha) (hunwritten a)
  · rw [stores_entryCommit]
    refine hmem.trans ?_
    congr 1
    exact (funext fun a => stores_of_not_mem (hunwritten a) _).symm

end Publishes

/-! ## The commits of the code -/

section Next

variable {ctr hcr root u : ℕ} {x : Snapshot} {supply : List ℕ}

lemma stores_zeroEvents (st : Tables) :
    stores (Tables.zeroEvents ctr u) st.mem =
      (Tables.clear { st with supply := supply } u pageSize).mem := by
  rw [Tables.zeroEvents, stores_append, Tables.stores_zeroWrites, (quiet_flush _).stores_eq]
  rfl

lemma invalidations_writes (ws : List (ℕ × ℕ)) :
    invalidations (ws.map fun w => (.write w.1 w.2 : Event ℕ ℕ)) = 0 := by
  induction ws with
  | nil => rfl
  | cons w ws ih => exact ih

lemma invalidations_zeroEvents : invalidations (Tables.zeroEvents ctr u) = 0 := by
  rw [Tables.zeroEvents, invalidations_append, invalidations_writes,
    (quiet_flush _).invalidations_eq]

lemma prepares_zeroEvents (hu : u < 2 ^ 48) : Prepares u (Tables.zeroEvents ctr u) :=
  prepares_of_written hu (written_zeroWrites u pageSize)

/-- A new level 2 table. -/
lemma next_addLevel2 (h : Represents root x.st x.layout x.map) (hroot : root < 2 ^ 48)
    (hx : x.split = none) {i : ℕ} (hi : i < 1024) (hnone : x.layout.level2 i = none)
    (hs : x.st.supply = u :: supply) :
    Next hcr root (entryCommit ctr (Tables.zeroEvents ctr u)
        (root + pageSize * (i / 512) + 8 * (i % 512)) (tableEntry (some u))) x
      { st := (Tables.clear { x.st with supply := supply } u pageSize).store
          (root + pageSize * (i / 512) + 8 * (i % 512)) (tableEntry (some u))
        layout := x.layout.addLevel2 i u
        map := x.map
        split := none
        epoch := x.epoch } := by
  have hvalid := h.valid
  rw [hs] at hvalid
  obtain ⟨hu, hfree⟩ := hvalid.fresh u List.mem_cons_self
  have hpage : pageSize ∣ root + pageSize * (i / 512) := dvd_add hvalid.root_dvd (dvd_mul_right _ _)
  refine
    { publishes := publishes_of_prepares (prepares_zeroEvents hu.lt) hu.dvd hfree rfl ?_ ?_ ?_
      represents := h.addLevel2 hi hnone hs
      level2 := fun i' t ht => ?_
      owner := fun p ν hp => hvalid.owner_update hp
      level3 := fun v j k hv howner hk => .inl ?_
      table := fun j v hv => .inl hv
      block := fun j hj hm => ⟨hj, .inl hm⟩
      split := fun hne => absurd hx hne }
  · unfold pageSize
    omega
  · rw [stores_zeroEvents x.st]
    rfl
  · rw [invalidations_zeroEvents]
    rfl
  · have hne : i' ≠ i := by
      rintro rfl
      exact absurd (hnone.symm.trans ht) (by simp)
    exact (Function.update_of_ne hne ..).trans ht
  · rw [store_mem_of_ne hpage hv (by omega) hk
      (ne_of_owner_ne howner (hvalid.owner_rootPage hi) (by simp)), clear_mem hu.dvd hv hk,
      if_neg (hvalid.ne_of_owner howner)]

variable {j t : ℕ}

/-- A level 3 table where nothing was mapped. -/
lemma next_addLevel3 (h : Represents root x.st x.layout x.map) (hx : x.split = none)
    (hj : j < 2 ^ 19) (ht : x.layout.level2 (j / 512) = some t) (hnone : x.layout.level3 j = none)
    (hm : x.map (512 * j) = none) (hs : x.st.supply = u :: supply) :
    Next hcr root (entryCommit ctr (Tables.zeroEvents ctr u) (t + 8 * (j % 512))
      (tableEntry (some u))) x
      { st := (Tables.clear { x.st with supply := supply } u pageSize).store (t + 8 * (j % 512))
          (tableEntry (some u))
        layout := x.layout.addLevel3 j u
        map := x.map
        split := none
        epoch := x.epoch } := by
  have hvalid := h.valid
  rw [hs] at hvalid
  obtain ⟨hu, hfree⟩ := hvalid.fresh u List.mem_cons_self
  obtain ⟨htp, hto⟩ := hvalid.level2 _ _ ht
  have hk : j % 512 < 512 := Nat.mod_lt _ (by norm_num)
  have htu : t ≠ u := hvalid.ne_of_owner hto
  have htlt := htp.lt
  have hframe : ∀ t' k, pageSize ∣ t' → k < 512 → t' ≠ u → (t' ≠ t ∨ k ≠ j % 512) →
      ((Tables.clear { x.st with supply := supply } u pageSize).store (t + 8 * (j % 512))
        (tableEntry (some u))).mem (t' + 8 * k) = x.st.mem (t' + 8 * k) := by
    intro t' k ht' hk' hne hor
    rw [store_mem htp.dvd ht' hk hk', if_neg (by tauto), clear_mem hu.dvd ht' hk', if_neg hne]
  refine
    { publishes := publishes_of_prepares (prepares_zeroEvents hu.lt) hu.dvd hfree rfl
        (by omega) ?_ ?_
      represents := h.addLevel3 hj ht hnone hs rfl (fun k hk' => ?_) ?_ hframe
      level2 := fun i t ht => ht
      owner := fun p ν hp => hvalid.owner_update hp
      level3 := fun v j' k hv howner hk' =>
        .inl (hframe v k hv hk' (hvalid.ne_of_owner howner)
          (.inl (ne_of_owner_ne howner hto (by simp))))
      table := fun j' v hv => .inl ?_
      block := fun j' hj' hm' => ⟨?_, .inl hm'⟩
      split := fun hne => absurd hx hne }
  · rw [stores_zeroEvents x.st]
    rfl
  · rw [invalidations_zeroEvents]
    rfl
  · have hdiv : (512 * j + k) / 512 = j := by omega
    rw [h.block (512 * j + k) (by omega) (by rw [hdiv]; exact hnone), hdiv, hm,
      store_mem_of_ne htp.dvd hu.dvd hk hk' htu.symm, clear_mem hu.dvd hu.dvd hk', if_pos rfl]
    rfl
  · rw [store_mem htp.dvd htp.dvd hk hk, if_pos ⟨rfl, rfl⟩]
  · have hne : j' ≠ j := by
      rintro rfl
      exact absurd (hnone.symm.trans hv) (by simp)
    exact (Function.update_of_ne hne ..).trans hv
  · have hne : j' ≠ j := by
      rintro rfl
      exact hm' hm
    exact (Function.update_of_ne hne ..).trans hj'

/-! ### A split -/

/-- The preparation of a level 3 table for a block. -/
def splitEvents (ctr u : ℕ) (entry : ℕ → ℕ) : List (Event ℕ ℕ) :=
  (Tables.zeroEvents ctr u ++ (Tables.fillWrites u entry 512).map fun w => .write w.1 w.2) ++
    flush (PageTable.cleanLines ctr u pageSize)

/-- The tables while a block is being split: its entry is cleared, and the new table is full. -/
def splitSnapshot (x : Snapshot) (supply : List ℕ) (j u slot : ℕ) (entry : ℕ → ℕ) : Snapshot where
  st := ((Tables.clear { x.st with supply := supply } u pageSize).fill u entry 512).store slot 0
  layout := x.layout.reserve u (.level3 j)
  map := unmapEntry x.map j
  split := some j
  epoch := x.epoch

/-- The tables after the split. -/
def joinSnapshot (hcr : ℕ) (x z : Snapshot) (j u slot : ℕ) : Snapshot where
  st := z.st.store slot (tableEntry (some u))
  layout := x.layout.addLevel3 j u
  map := x.map
  split := none
  epoch := z.epoch + invalidations (tlbEvents hcr)

variable {entry : ℕ → ℕ}

/-- The entries of other pages are as before. -/
lemma splitSnapshot_mem (hu : pageSize ∣ u) (ht : pageSize ∣ t) {t' k : ℕ} (ht' : pageSize ∣ t')
    (hk : k < 512) (hne : t' ≠ u) (hor : t' ≠ t ∨ k ≠ j % 512) :
    (splitSnapshot x supply j u (t + 8 * (j % 512)) entry).st.mem (t' + 8 * k) =
      x.st.mem (t' + 8 * k) := by
  rw [splitSnapshot, store_mem ht ht' (Nat.mod_lt _ (by norm_num)) hk, if_neg (by tauto),
    fill_mem hu ht' hk 512 le_rfl, if_neg fun hcon => hne hcon.1, clear_mem hu ht' hk, if_neg hne]

/-- The first commit of a split. -/
lemma next_unmap (h : Represents root x.st x.layout x.map) (hx : x.split = none) (hj : j < 2 ^ 19)
    (ht : x.layout.level2 (j / 512) = some t) (hnone : x.layout.level3 j = none)
    (hs : x.st.supply = u :: supply) :
    Next hcr root (entryCommit ctr (splitEvents ctr u entry) (t + 8 * (j % 512)) 0) x
      (splitSnapshot x supply j u (t + 8 * (j % 512)) entry) := by
  have hvalid := h.valid
  rw [hs] at hvalid
  obtain ⟨hu, hfree⟩ := hvalid.fresh u List.mem_cons_self
  obtain ⟨htp, hto⟩ := hvalid.level2 _ _ ht
  have htlt := htp.lt
  have hreserve : Represents root
      ((Tables.clear { x.st with supply := supply } u pageSize).fill u entry 512)
      (x.layout.reserve u (.level3 j)) x.map := by
    refine h.reserve _ hs (fill_supply ..) fun t' k ht' hk hne => ?_
    rw [fill_mem hu.dvd ht' hk 512 le_rfl, if_neg fun hcon => hne hcon.1, clear_mem hu.dvd ht' hk,
      if_neg hne]
  have hprep : Prepares u (splitEvents ctr u entry) := by
    refine prepares_of_written hu.lt ?_
    rw [written_append]
    exact Set.union_subset (prepares_zeroEvents hu.lt).written_subset (written_fillWrites u entry)
  refine
    { publishes := publishes_of_prepares hprep hu.dvd hfree rfl (by omega) ?_ ?_
      represents := hreserve.unmap hj ht hnone
      level2 := fun i t ht => ht
      owner := fun p ν hp => hvalid.owner_update hp
      level3 := fun v j' k hv howner hk => .inl (splitSnapshot_mem hu.dvd htp.dvd hv hk
        (hvalid.ne_of_owner howner) (.inl (ne_of_owner_ne howner hto (by simp))))
      table := fun j' v hv => .inl hv
      block := fun j' hj' hm => ⟨hj', ?_⟩
      split := fun hne => absurd hx hne }
  · rw [splitEvents, stores_append, stores_append, stores_zeroEvents x.st, Tables.stores_fillWrites,
      (quiet_flush _).stores_eq]
    rfl
  · rw [splitEvents, invalidations_append, invalidations_append, invalidations_zeroEvents,
      invalidations_writes, (quiet_flush _).invalidations_eq]
    rfl
  · by_cases hne : j' = j
    · exact .inr (by rw [hne]; rfl)
    · refine .inl ?_
      change unmapEntry x.map j (512 * j') ≠ none
      rwa [unmapEntry, if_neg (by omega)]

/-- The second commit of a split, with a table that maps what the block mapped. -/
lemma next_relink (h : Represents root x.st x.layout x.map) (hj : j < 2 ^ 19)
    (ht : x.layout.level2 (j / 512) = some t) (hnone : x.layout.level3 j = none)
    (hs : x.st.supply = u :: supply) (hentry : ∀ k < 512, entry k = pageEntry (x.map (512 * j + k)))
    {z : Snapshot} (hz : splitSnapshot x supply j u (t + 8 * (j % 512)) entry = z) :
    Next hcr root (entryCommit ctr (tlbEvents hcr) (t + 8 * (j % 512)) (tableEntry (some u))) z
      (joinSnapshot hcr x z j u (t + 8 * (j % 512))) := by
  have hvalid := h.valid
  rw [hs] at hvalid
  obtain ⟨hu, hfree⟩ := hvalid.fresh u List.mem_cons_self
  obtain ⟨htp, hto⟩ := hvalid.level2 _ _ ht
  have hk : j % 512 < 512 := Nat.mod_lt _ (by norm_num)
  have htu : t ≠ u := hvalid.ne_of_owner hto
  have htlt := htp.lt
  have hprep : written (tlbEvents hcr) = ∅ := by
    ext a
    unfold tlbEvents
    split <;> simp [written]
  have hlayout : z.layout = x.layout.reserve u (.level3 j) := by rw [← hz, splitSnapshot]
  have hmap : z.map = unmapEntry x.map j := by rw [← hz, splitSnapshot]
  have hsupply : z.st.supply = supply := by
    rw [← hz, splitSnapshot, store_supply, fill_supply]
    rfl
  -- an entry elsewhere is as it was before the split
  have hframe : ∀ t' k, pageSize ∣ t' → k < 512 → t' ≠ u → (t' ≠ t ∨ k ≠ j % 512) →
      (z.st.store (t + 8 * (j % 512)) (tableEntry (some u))).mem (t' + 8 * k) =
        x.st.mem (t' + 8 * k) := by
    intro t' k ht' hk' hne hor
    rw [store_mem htp.dvd ht' hk hk', if_neg (by tauto), ← hz,
      splitSnapshot_mem hu.dvd htp.dvd ht' hk' hne hor]
  have hnew : ∀ k < 512, (z.st.store (t + 8 * (j % 512)) (tableEntry (some u))).mem (u + 8 * k) =
      pageEntry (x.map (512 * j + k)) := by
    intro k hk'
    rw [store_mem_of_ne htp.dvd hu.dvd hk hk' htu.symm, ← hz, splitSnapshot,
      store_mem_of_ne htp.dvd hu.dvd hk hk' htu.symm, fill_mem hu.dvd hu.dvd hk' 512 le_rfl,
      if_pos ⟨rfl, hk'⟩, hentry k hk']
  clear hz
  refine
    { publishes := publishes_of_unwritten hprep ?_ (by omega) rfl rfl
      represents := h.addLevel3 hj ht hnone hs hsupply hnew ?_ hframe
      level2 := fun i t ht => ?_
      owner := fun p ν hp => ?_
      level3 := fun v j' k hv howner hk' => .inl ?_
      table := fun j' v hv => .inl ?_
      block := fun j' hj' hm => ?_
      split := fun _ => ⟨rfl, rfl⟩ }
  · rw [hlayout]
    rfl
  · exact (store_mem htp.dvd htp.dvd hk hk).trans (if_pos ⟨rfl, rfl⟩)
  · rwa [hlayout] at ht
  · rwa [hlayout] at hp
  · rw [hlayout] at howner
    have hvt : v ≠ t := ne_of_owner_ne howner (hvalid.owner_update hto) (by simp)
    exact store_mem_of_ne htp.dvd hv hk hk' hvt
  · rw [hlayout] at hv
    have hne : j' ≠ j := by
      rintro rfl
      exact absurd (hnone.symm.trans hv) (by simp)
    exact (Function.update_of_ne hne ..).trans hv
  · rw [hlayout] at hj'
    rw [hmap] at hm
    have hne : j' ≠ j := by
      rintro rfl
      exact hm (if_pos (by omega))
    rw [unmapEntry, if_neg (by omega)] at hm
    exact ⟨(Function.update_of_ne hne ..).trans hj', .inl hm⟩

/-! ### Leaves -/

/-- A block entry. -/
lemma next_setBlock (h : Represents root x.st x.layout x.map) (hx : x.split = none)
    (hj : j < 2 ^ 19) (ht : x.layout.level2 (j / 512) = some t) {τ : Target} (hτ : τ.page < 2 ^ 36)
    (hdvd : 512 ∣ τ.page) :
    Next hcr root (entryCommit ctr [] (t + 8 * (j % 512)) (blockEntry (some τ))) x
      { st := x.st.store (t + 8 * (j % 512)) (blockEntry (some τ))
        layout := x.layout.dropLevel3 j
        map := setBlockMap x.map j τ
        split := none
        epoch := x.epoch } := by
  obtain ⟨htp, hto⟩ := h.valid.level2 _ _ ht
  have htlt := htp.lt
  refine
    { publishes := publishes_of_unwritten (by simp [written]) rfl (by omega) rfl rfl
      represents := h.setBlock hj ht hτ hdvd
      level2 := fun i t ht => ht
      owner := fun p ν hp => hp
      level3 := fun v j' k hv howner hk => .inl (store_mem_of_ne htp.dvd hv
        (Nat.mod_lt _ (by norm_num)) hk (ne_of_owner_ne howner hto (by simp)))
      table := fun j' v hv => .inr (blockEntry_mod_four τ)
      block := fun j' hj' hm => ?_
      split := fun hne => absurd hx hne }
  by_cases hne : j' = j
  · subst hne
    refine ⟨Function.update_self .., .inl ?_⟩
    dsimp only
    rw [setBlockMap, if_pos (by omega)]
    simp
  · refine ⟨(Function.update_of_ne hne ..).trans hj', .inl ?_⟩
    dsimp only
    rwa [setBlockMap, if_neg (by omega)]

/-- A page entry. -/
lemma next_setPage (h : Represents root x.st x.layout x.map) (hx : x.split = none) {p : ℕ}
    (hp : p < 2 ^ 28) (hu : x.layout.level3 (p / 512) = some u) {τ : Target}
    (hτ : τ.page < 2 ^ 36) :
    Next hcr root (entryCommit ctr [] (u + 8 * (p % 512)) (pageEntry (some τ))) x
      { st := x.st.store (u + 8 * (p % 512)) (pageEntry (some τ))
        layout := x.layout
        map := Function.update x.map p (some τ)
        split := none
        epoch := x.epoch } := by
  obtain ⟨hup, huo⟩ := h.valid.level3 _ _ hu
  have hult := hup.lt
  have hk : p % 512 < 512 := Nat.mod_lt _ (by norm_num)
  refine
    { publishes := publishes_of_unwritten (by simp [written]) rfl (by omega) rfl rfl
      represents := h.setPage hp hu hτ
      level2 := fun i t ht => ht
      owner := fun p ν hp => hp
      level3 := fun v j k hv howner hk' => ?_
      table := fun j v hv => .inl hv
      block := fun j hj hm => ⟨hj, .inl ?_⟩
      split := fun hne => absurd hx hne }
  · by_cases hvu : v = u
    · subst hvu
      rw [huo, Option.some.injEq, Node.level3.injEq] at howner
      exact .inr (howner ▸ hu)
    · exact .inl (store_mem_of_ne hup.dvd hv hk hk' hvu)
  · have hne : 512 * j ≠ p := by
      rintro rfl
      rw [Nat.mul_div_cancel_left j (by norm_num), hj] at hu
      exact absurd hu (by simp)
    exact fun hcon => hm ((Function.update_of_ne hne ..).symm.trans hcon)

end Next

end GuestMmu

end HyperBerry
