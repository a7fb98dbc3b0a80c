import HyperBerry.Mmu.Teardown

/-!
# The pages of stage-2 tables

`MapBlock` and `MapPage` follow the pointers in the tables and write behind them, without a check,
and the hardware follows the same pointers.  Still both stay on the two root pages and the pages
that `AllocTable` has handed out.  The invariant is `Wired`: a pointer leads to a page that was
handed out for a table of the next level, and nothing else has been written.  It holds whatever the
calls map, also where a block is mapped to an address that is no multiple of its size.

So memory that agrees on these pages translates the same (`FreshRoot.hwWalk_congr`).  The last
section shows that entries are words of 64 bits (`Words64.runCalls`), so that tables can be read
back from a memory of bytes.
-/

namespace HyperBerry

namespace GuestMmu

variable {st₀ st st' : Tables} {pt : PageTable} {root : ℕ} {calls : List MapCall}

/-! ## Pages -/

/-- The bytes of a set of pages. -/
def pageBytes (pages : Set ℕ) : Set ℕ := {a | ∃ p ∈ pages, p ≤ a ∧ a < p + pageSize}

/-- The pages of the tables: the root, and what has been handed out. -/
def tablePages (root : ℕ) (st st' : Tables) : Set ℕ :=
  {p | p = root ∨ p = root + pageSize ∨ p ∈ st.supply ∧ p ∉ st'.supply}

/-- Fewer pages have fewer bytes. -/
lemma pageBytes_mono {pages pages' : Set ℕ} (h : pages ⊆ pages') :
    pageBytes pages ⊆ pageBytes pages' :=
  fun _ ⟨p, hp, hmem⟩ => ⟨p, h hp, hmem⟩

/-- Entry `k` of a table lies in its page. -/
lemma mem_pageBytes_slot {pages : Set ℕ} {p k : ℕ} (hp : p ∈ pages) (hk : k < 512) :
    p + 8 * k ∈ pageBytes pages :=
  ⟨p, hp, Nat.le_add_right _ _, by unfold pageSize; omega⟩

/-- When a page is handed out, the pages of the tables stay. -/
lemma tablePages_mono {u : ℕ} (h : st.supply = u :: st'.supply) :
    tablePages root st₀ st ⊆ tablePages root st₀ st' := by
  rintro p (rfl | rfl | ⟨hmem, hnot⟩)
  · exact .inl rfl
  · exact .inr (.inl rfl)
  · exact .inr (.inr ⟨hmem, fun hin => hnot (by rw [h]; exact List.mem_cons_of_mem _ hin)⟩)

/-! ## Tables that are wired -/

/-- The tables `st`, which were `st₀` once, with the level of each page that holds a table. -/
structure Wired (root : ℕ) (st₀ st : Tables) (level : ℕ → Option ℕ) : Prop where
  /-- The two root pages. -/
  level_root : ∀ k < 2, level (root + pageSize * k) = some 1
  /-- Tables are pages, and have been handed out. -/
  page : ∀ p, level p ≠ none → pageSize ∣ p ∧ p ∈ tablePages root st₀ st
  /-- The pages that are handed out next hold no table. -/
  fresh : ∀ p ∈ st.supply, IsPage p ∧ level p = none
  /-- No page is handed out twice. -/
  nodup : st.supply.Nodup
  /-- Pages are handed out in order. -/
  suffix : st.supply <:+ st₀.supply
  /-- Behind a valid entry of level 1 there is a table of level 2. -/
  entry1 : ∀ i < 1024, pteIsValid (st.mem (root + 8 * i)) →
    level (pteNextTable (st.mem (root + 8 * i))) = some 2
  /-- Behind a table entry of level 2 there is a table of level 3. -/
  entry2 : ∀ t, level t = some 2 → ∀ k < 512, pteIsTable (st.mem (t + 8 * k)) →
    level (pteNextTable (st.mem (t + 8 * k))) = some 3
  /-- Nothing else has been written. -/
  frame : ∀ a ∉ pageBytes (tablePages root st₀ st), st.mem a = st₀.mem a

/-- The levels in an empty root. -/
def rootLevel (root p : ℕ) : Option ℕ := if p = root ∨ p = root + pageSize then some 1 else none

/-- An empty root has no pointers. -/
lemma FreshRoot.wired (h : FreshRoot root st) : Wired root st st (rootLevel root) where
  level_root k hk := by
    interval_cases k
    · exact if_pos (.inl rfl)
    · exact if_pos (.inr rfl)
  page p hp := by
    have hroot : p = root ∨ p = root + pageSize := by
      by_contra hne
      exact hp (if_neg hne)
    rcases hroot with rfl | rfl
    · exact ⟨h.root_dvd, .inl rfl⟩
    · exact ⟨dvd_add h.root_dvd dvd_rfl, .inr (.inl rfl)⟩
  fresh p hp := by
    obtain ⟨hpage, hne, hne'⟩ := h.page p hp
    exact ⟨hpage, if_neg (not_or.mpr ⟨hne, hne'⟩)⟩
  nodup := h.nodup
  suffix := List.suffix_refl _
  entry1 i hi hvalid := by
    rw [h.zero i hi] at hvalid
    cases hvalid
  entry2 t ht := by
    rw [rootLevel] at ht
    split_ifs at ht
    simp at ht
  frame _ _ := rfl

section Wired

variable {level : ℕ → Option ℕ}

/-- Entry `i` of the root lies in one of its two pages. -/
lemma rootSlot_eq (root i : ℕ) :
    root + 8 * i = root + pageSize * (i / 512) + 8 * (i % 512) := by
  unfold pageSize
  omega

/-- A table of any level is a page. -/
lemma Wired.dvd (h : Wired root st₀ st level) {p n : ℕ} (hp : level p = some n) : pageSize ∣ p :=
  (h.page p (by simp [hp])).1

/-- Writing an entry of a table.  At levels 1 and 2 a pointer has to lead to the next level. -/
lemma Wired.store (h : Wired root st₀ st level) {p k v : ℕ} (hp : level p ≠ none) (hk : k < 512)
    (h1 : level p = some 1 → pteIsValid v → level (pteNextTable v) = some 2)
    (h2 : level p = some 2 → pteIsTable v → level (pteNextTable v) = some 3) :
    Wired root st₀ (st.store (p + 8 * k) v) level where
  level_root := h.level_root
  page := h.page
  fresh := h.fresh
  nodup := h.nodup
  suffix := h.suffix
  entry1 i hi := by
    have hroot := h.level_root (i / 512) (by omega)
    rw [rootSlot_eq root i,
      store_mem (h.page p hp).1 (h.dvd hroot) hk (Nat.mod_lt _ (by norm_num))]
    split_ifs with hslot
    · exact h1 (by rw [← hslot.1, hroot])
    · rw [← rootSlot_eq root i]
      exact h.entry1 i hi
  entry2 t ht k' hk' := by
    rw [store_mem (h.page p hp).1 (h.dvd ht) hk hk']
    split_ifs with hslot
    · exact h2 (by rw [← hslot.1, ht])
    · exact h.entry2 t ht k' hk'
  frame a ha := by
    have hne : a ≠ p + 8 * k := by
      rintro rfl
      exact ha (mem_pageBytes_slot (h.page p hp).2 hk)
    exact (Function.update_of_ne hne _ _).trans (h.frame a ha)

/-- Filling a table of level 3. -/
lemma Wired.fill (h : Wired root st₀ st level) {u : ℕ} {entry : ℕ → ℕ} (hu : level u = some 3) :
    ∀ n ≤ 512, Wired root st₀ (st.fill u entry n) level := by
  intro n
  induction n with
  | zero => exact fun _ => h
  | succ n ih =>
    intro hn
    exact (ih (by omega)).store (by simp [hu]) (by omega) (by simp [hu]) (by simp [hu])

/-- A new table of any level: it is empty. -/
lemma Wired.allocTable (h : Wired root st₀ st level) {r : Tables × ℕ} (hr : st.allocTable = some r)
    (n : ℕ) : IsPage r.2 ∧ level r.2 = none ∧
      Wired root st₀ r.1 (Function.update level r.2 (some n)) := by
  have hsupply := allocTable_supply hr
  obtain ⟨hpage, hnone⟩ := h.fresh r.2 (by rw [hsupply]; exact List.mem_cons_self)
  have hnodup := h.nodup
  rw [hsupply, List.nodup_cons] at hnodup
  have hnew : r.2 ∈ tablePages root st₀ r.1 :=
    .inr (.inr ⟨h.suffix.subset (by rw [hsupply]; exact List.mem_cons_self), hnodup.1⟩)
  have hmono : tablePages root st₀ st ⊆ tablePages root st₀ r.1 := tablePages_mono hsupply
  have hr1 : r.1 = Tables.clear { st with supply := r.1.supply } r.2 pageSize := by
    rw [Tables.allocTable, hsupply] at hr
    rw [← Option.some.inj hr]
    rfl
  have hkeep {p m : ℕ} (hp : level p = some m) : Function.update level r.2 (some n) p = some m := by
    rw [Function.update_of_ne, hp]
    rintro rfl
    rw [hnone] at hp
    cases hp
  have hmem {t k : ℕ} (ht : pageSize ∣ t) (hk : k < 512) :
      r.1.mem (t + 8 * k) = if t = r.2 then 0 else st.mem (t + 8 * k) := by
    rw [hr1, clear_mem hpage.dvd ht hk]
  refine ⟨hpage, hnone, ?_⟩
  exact
    { level_root := fun k hk => hkeep (h.level_root k hk)
      page := by
        intro p hp
        by_cases heq : p = r.2
        · rw [heq]
          exact ⟨hpage.dvd, hnew⟩
        · rw [Function.update_of_ne heq] at hp
          exact ⟨(h.page p hp).1, hmono (h.page p hp).2⟩
      fresh := by
        intro p hp
        have hne : p ≠ r.2 := by
          rintro rfl
          exact hnodup.1 hp
        rw [Function.update_of_ne hne]
        exact h.fresh p (by rw [hsupply]; exact List.mem_cons_of_mem _ hp)
      nodup := hnodup.2
      suffix := (List.suffix_cons r.2 _).trans (hsupply ▸ h.suffix)
      entry1 := by
        intro i hi hvalid
        have hroot := h.level_root (i / 512) (by omega)
        have hne : root + pageSize * (i / 512) ≠ r.2 := by
          intro heq
          rw [heq, hnone] at hroot
          cases hroot
        rw [rootSlot_eq root i, hmem (h.dvd hroot) (Nat.mod_lt _ (by norm_num)), if_neg hne,
          ← rootSlot_eq root i] at hvalid ⊢
        exact hkeep (h.entry1 i hi hvalid)
      entry2 := by
        intro t ht k hk htable
        by_cases heq : t = r.2
        · rw [hmem (heq ▸ hpage.dvd) hk, if_pos heq] at htable
          cases htable
        · rw [Function.update_of_ne heq] at ht
          rw [hmem (h.dvd ht) hk, if_neg heq] at htable ⊢
          exact hkeep (h.entry2 t ht k hk htable)
      frame := by
        intro a ha
        rw [hr1]
        refine (if_neg fun hin => ha ⟨_, hnew, hin⟩).trans (h.frame a fun hin => ha ?_)
        exact pageBytes_mono hmono hin }

/-- A pointer to a page. -/
lemma pteNextTable_pointer {u : ℕ} (hu : IsPage u) :
    pteNextTable (u ||| pteValid ||| pteTable) = u := by
  rw [tableDescriptor_eq hu.dvd, pteNextTable_eq, nextTable_tableEntry hu]

/-- `Walk` finds an entry of a table of level 2. -/
lemma Wired.walk (h : Wired root st₀ st level) {ipa : ℕ} {slot : Option ℕ}
    (hwalk : (stage2Table root).walk ipa true st = some (st', slot)) :
    ∃ level' t k, Wired root st₀ st' level' ∧ slot = some (t + 8 * k) ∧ k < 512 ∧
      level' t = some 2 := by
  have hi : entryOf ipa / 512 < 1024 := by
    unfold entryOf
    omega
  have hk : entryOf ipa % 512 < 512 := Nat.mod_lt _ (by norm_num)
  rw [walk_eq] at hwalk
  dsimp only at hwalk
  split_ifs at hwalk with hvalid
  · obtain ⟨rfl, rfl⟩ := Prod.mk.inj (Option.some.inj hwalk)
    exact ⟨level, _, _, h, rfl, hk, h.entry1 _ hi hvalid⟩
  · obtain ⟨r, hr, hrest⟩ := Option.bind_eq_some_iff.mp hwalk
    obtain ⟨rfl, rfl⟩ := Prod.mk.inj (Option.some.inj hrest)
    obtain ⟨hpage, -, hwired⟩ := h.allocTable hr 2
    have hroot := hwired.level_root (entryOf ipa / 512 / 512) (by omega)
    have hstore := hwired.store (v := r.2 ||| pteValid ||| pteTable) (by rw [hroot]; simp)
      (Nat.mod_lt (entryOf ipa / 512) (by norm_num))
      (fun _ _ => by rw [pteNextTable_pointer hpage, Function.update_self]) (by rw [hroot]; simp)
    rw [← rootSlot_eq] at hstore
    refine ⟨_, _, _, hstore, rfl, hk, ?_⟩
    simp only [Tables.store, Function.update_self, pteNextTable_pointer hpage]

/-- Splitting the entry of a table of level 2. -/
lemma Wired.splitL2 (h : Wired root st₀ st level) {t k : ℕ} (ht : level t = some 2) (hk : k < 512)
    (hsplit : GuestMmu.splitL2 st (t + 8 * k) = some st') :
    ∃ level', Wired root st₀ st' level' ∧ level' t = some 2 := by
  rw [GuestMmu.splitL2] at hsplit
  obtain ⟨r, hr, hrest⟩ := Option.bind_eq_some_iff.mp hsplit
  obtain ⟨hpage, hnone, hwired⟩ := h.allocTable hr 3
  have ht' : Function.update level r.2 (some 3) t = some 2 := by
    rw [Function.update_of_ne, ht]
    rintro rfl
    rw [hnone] at ht
    cases ht
  have hclear : pteIsTable 0 = false := rfl
  refine ⟨_, ?_, ht'⟩
  rw [← Option.some.inj hrest]
  refine Wired.store ?_ (by rw [ht']; simp) hk (by rw [ht']; simp)
    fun _ _ => by rw [pteNextTable_pointer hpage, Function.update_self]
  split_ifs
  · exact (hwired.fill (Function.update_self ..) _ le_rfl).store (by rw [ht']; simp) hk
      (by rw [ht']; simp) fun _ htable => by rw [hclear] at htable; cases htable
  · exact hwired

/-- `walkL3` finds an entry of a table of level 3, if it finds one. -/
lemma Wired.walkL3 (h : Wired root st₀ st level) {ipa : ℕ} {slot : Option ℕ}
    (hwalk : GuestMmu.walkL3 (stage2Table root) ipa st = some (st', slot)) :
    ∃ level', Wired root st₀ st' level' ∧
      ∀ a, slot = some a → ∃ u k, a = u + 8 * k ∧ k < 512 ∧ level' u = some 3 := by
  obtain ⟨⟨st₁, l2⟩, hfirst, hrest⟩ := Option.bind_eq_some_iff.mp hwalk
  obtain ⟨level₁, t, k, h₁, rfl, hk, ht⟩ := h.walk hfirst
  dsimp only at hrest
  have hwired : ∃ st₂ level₂, Wired root st₀ st₂ level₂ ∧ level₂ t = some 2 ∧
      (if pteIsTable (st₂.mem (t + 8 * k)) then
        some (st₂, some (pteNextTable (st₂.mem (t + 8 * k)) + 8 * l3Index ipa))
      else some (st₂, none)) = some (st', slot) := by
    split_ifs at hrest <;> obtain ⟨st₂, hstep, hlast⟩ := Option.bind_eq_some_iff.mp hrest
    · obtain rfl := Option.some.inj hstep
      exact ⟨_, level₁, h₁, ht, hlast⟩
    · obtain ⟨level₂, h₂, ht₂⟩ := h₁.splitL2 ht hk hstep
      exact ⟨st₂, level₂, h₂, ht₂, hlast⟩
  obtain ⟨st₂, level₂, h₂, ht₂, hlast⟩ := hwired
  split_ifs at hlast with htable <;> obtain ⟨rfl, rfl⟩ := Prod.mk.inj (Option.some.inj hlast)
  · refine ⟨level₂, h₂, fun a ha => ⟨_, l3Index ipa, (Option.some.inj ha).symm, ?_, ?_⟩⟩
    · exact lt_of_le_of_lt Nat.and_le_right (by norm_num)
    · exact h₂.entry2 t ht₂ k hk htable
  · exact ⟨level₂, h₂, fun a ha => by cases ha⟩

end Wired

/-! ## Calls -/

/-- `MapBlock` keeps the tables wired, whatever it maps. -/
lemma preserves_wired_mapBlock (root : ℕ) (st₀ : Tables) (ipa pa : ℕ) (isDevice : Bool) :
    Preserves (fun st => ∃ level, Wired root st₀ st level)
      (mapBlock (stage2Table root) ipa pa isDevice) := by
  rintro st st' ⟨level, h⟩ hrun
  obtain ⟨⟨st₁, slot⟩, hwalk, hrest⟩ := Option.bind_eq_some_iff.mp hrun
  obtain ⟨level', t, k, h', rfl, hk, ht⟩ := h.walk hwalk
  obtain rfl := Option.some.inj hrest
  refine ⟨level', h'.store (by rw [ht]; simp) hk (by rw [ht]; simp) fun _ htable => ?_⟩
  rw [pteIsTable_iff, buildStage2BlockDescriptor_eq, blockEntry_mod_four] at htable
  cases htable

/-- `MapPage` keeps the tables wired, whatever it maps. -/
lemma preserves_wired_mapPage (root : ℕ) (st₀ : Tables) (ipa pa : ℕ) (isDevice : Bool) :
    Preserves (fun st => ∃ level, Wired root st₀ st level)
      (mapPage (stage2Table root) ipa pa isDevice) := by
  rintro st st' ⟨level, h⟩ hrun
  obtain ⟨⟨st₁, slot⟩, hwalk, hrest⟩ := Option.bind_eq_some_iff.mp hrun
  obtain ⟨level', h', hslot⟩ := h.walkL3 hwalk
  cases slot with
  | none =>
    obtain rfl := Option.some.inj hrest
    exact ⟨level', h'⟩
  | some a =>
    obtain ⟨u, k, rfl, hk, hu⟩ := hslot a rfl
    obtain rfl := Option.some.inj hrest
    exact ⟨level', h'.store (by rw [hu]; simp) hk (by rw [hu]; simp) (by rw [hu]; simp)⟩

/-- Calls keep the tables wired. -/
lemma preserves_wired_runCalls (root : ℕ) (st₀ : Tables) (calls : List MapCall) :
    Preserves (fun st => ∃ level, Wired root st₀ st level) (runCalls root calls) := by
  refine preserves_foldlM (fun c => ?_) calls
  cases c with
  | block ipa pa isDevice => exact preserves_wired_mapBlock root st₀ ipa pa isDevice
  | page ipa pa isDevice => exact preserves_wired_mapPage root st₀ ipa pa isDevice

/-! ## The tables that a walk visits -/

/-- Memory that holds the same tables translates the same. -/
lemma FreshRoot.hwWalk_congr (h : FreshRoot root st) (hrun : runCalls root calls st = some st')
    {mem : ℕ → ℕ}
    (hmem : ∀ p ∈ tablePages root st st', ∀ k < 512, mem (p + 8 * k) = st'.mem (p + 8 * k))
    (ipa : ℕ) : hwWalk mem root ipa = hwWalk st'.mem root ipa := by
  obtain ⟨level, hwired⟩ := preserves_wired_runCalls root st calls ⟨_, h.wired⟩ hrun
  have hread {p k : ℕ} (hp : level p ≠ none) (hk : k < 512) :
      mem (p + 8 * k) = st'.mem (p + 8 * k) :=
    hmem p (hwired.page p hp).2 k hk
  have hi : ipa / 2 ^ 30 % 2 ^ 10 < 1024 := Nat.mod_lt _ (by norm_num)
  have hroot : mem (root + 8 * (ipa / 2 ^ 30 % 2 ^ 10)) =
      st'.mem (root + 8 * (ipa / 2 ^ 30 % 2 ^ 10)) := by
    rw [rootSlot_eq]
    exact hread (by rw [hwired.level_root _ (by omega)]; simp) (Nat.mod_lt _ (by norm_num))
  rw [hwWalk, hwWalk, hroot]
  split_ifs with htable
  swap
  · rfl
  swap
  · rfl
  have h2 := hwired.entry1 _ hi ((pteIsValid_iff _).mpr (by omega))
  rw [pteNextTable_eq] at h2
  have hk : ipa / 2 ^ 21 % 2 ^ 9 < 512 := Nat.mod_lt _ (by norm_num)
  have hk' : ipa / 2 ^ 12 % 2 ^ 9 < 512 := Nat.mod_lt _ (by norm_num)
  rw [hwLevel2, hwLevel2, hread (by rw [h2]; simp) hk]
  split_ifs with htable'
  · have h3 := hwired.entry2 _ h2 _ hk ((pteIsTable_iff _).mpr htable')
    rw [pteNextTable_eq] at h3
    rw [hwLevel3, hwLevel3, hread (by rw [h3]; simp) hk']
  · rfl
  · rfl

/-! ## Entries are words -/

/-- Everything in the tables, and every page in supply, is a word. -/
structure Words64 (st : Tables) : Prop where
  mem : ∀ a, st.mem a < 2 ^ 64
  supply : ∀ p ∈ st.supply, p < 2 ^ 64

/-- Writing a word. -/
lemma Words64.store (h : Words64 st) {value : ℕ} (hvalue : value < 2 ^ 64) (slot : ℕ) :
    Words64 (st.store slot value) where
  mem a := by
    change Function.update st.mem slot value a < 2 ^ 64
    rw [Function.update_apply]
    split_ifs
    · exact hvalue
    · exact h.mem a
  supply := h.supply

/-- Clearing. -/
lemma Words64.clear (h : Words64 st) (addr size : ℕ) : Words64 (st.clear addr size) where
  mem a := by
    rw [Tables.clear]
    dsimp only
    split_ifs
    · norm_num
    · exact h.mem a
  supply := h.supply

/-- Filling a table with words. -/
lemma Words64.fill (h : Words64 st) {entry : ℕ → ℕ} (hentry : ∀ i, entry i < 2 ^ 64) (table n : ℕ) :
    Words64 (st.fill table entry n) := by
  induction n with
  | zero => exact h
  | succ n ih => exact ih.store (hentry n) _

/-- A new table, and the descriptor that points to it. -/
lemma Words64.allocTable (h : Words64 st) {r : Tables × ℕ} (hr : st.allocTable = some r) :
    Words64 r.1 ∧ r.2 ||| pteValid ||| pteTable < 2 ^ 64 := by
  have hsupply := allocTable_supply hr
  have hpages := h.supply
  rw [hsupply, List.forall_mem_cons] at hpages
  rw [Tables.allocTable, hsupply] at hr
  refine ⟨?_, Nat.or_lt_two_pow (Nat.or_lt_two_pow hpages.1 (by decide)) (by decide)⟩
  have hwords : Words64 ⟨st.mem, r.1.supply⟩ := ⟨h.mem, hpages.2⟩
  rw [← Option.some.inj hr]
  exact hwords.clear _ _

/-- The loop of `Walk`. -/
lemma Words64.walkLevels (ipa : ℕ) (allocOnMiss : Bool) : ∀ (k level table : ℕ) {st st' : Tables}
    {slot : Option ℕ}, Words64 st →
    pt.walkLevels ipa allocOnMiss k level st table = some (st', slot) → Words64 st' := by
  intro k
  induction k with
  | zero =>
    intro level table st st' slot h hwalk
    obtain ⟨rfl, rfl⟩ := Prod.mk.inj (Option.some.inj hwalk)
    exact h
  | succ k ih =>
    intro level table st st' slot h hwalk
    rw [PageTable.walkLevels] at hwalk
    generalize table + 8 * (ipa >>> PageTable.levelShift level &&&
      if level = pt.startLevel then pt.rootIndexMask else 0x1FF) = entry at hwalk
    split_ifs at hwalk
    · exact ih _ _ h hwalk
    · obtain ⟨r, hr, hrest⟩ := Option.bind_eq_some_iff.mp hwalk
      obtain ⟨hwords, hentry⟩ := h.allocTable hr
      exact ih _ _ (hwords.store hentry _) hrest
    · obtain ⟨rfl, rfl⟩ := Prod.mk.inj (Option.some.inj hwalk)
      exact h

/-- Splitting a block. -/
lemma Words64.splitL2 (h : Words64 st) {l2 : ℕ} (hsplit : GuestMmu.splitL2 st l2 = some st') :
    Words64 st' := by
  rw [GuestMmu.splitL2] at hsplit
  obtain ⟨r, hr, hrest⟩ := Option.bind_eq_some_iff.mp hsplit
  obtain ⟨hwords, hentry⟩ := h.allocTable hr
  have hattributes : (st.mem l2 &&& not64 pteAddrMask) ||| pteTable < 2 ^ 64 :=
    Nat.or_lt_two_pow (Nat.and_lt_two_pow _ (by decide)) (by decide)
  rw [← Option.some.inj hrest]
  refine Words64.store ?_ hentry _
  dsimp only
  split_ifs
  · exact (hwords.fill (fun i => Nat.or_lt_two_pow (add64_lt _ _) hattributes) _ _).store
      (by norm_num) _
  · exact hwords

/-- `walkL3`. -/
lemma Words64.walkL3 (h : Words64 st) {ipa : ℕ} {slot : Option ℕ}
    (hwalk : GuestMmu.walkL3 pt ipa st = some (st', slot)) : Words64 st' := by
  obtain ⟨⟨st₁, l2⟩, hfirst, hrest⟩ := Option.bind_eq_some_iff.mp hwalk
  have hwords := Words64.walkLevels ipa true _ _ _ h hfirst
  cases l2 with
  | none =>
    obtain ⟨rfl, rfl⟩ := Prod.mk.inj (Option.some.inj hrest)
    exact hwords
  | some l2 =>
    dsimp only at hrest
    split_ifs at hrest with htable
    · obtain ⟨st₂, hsame, hlast⟩ := Option.bind_eq_some_iff.mp hrest
      obtain rfl := Option.some.inj hsame
      rw [if_pos htable] at hlast
      obtain ⟨rfl, rfl⟩ := Prod.mk.inj (Option.some.inj hlast)
      exact hwords
    · obtain ⟨st₂, hsplit, hlast⟩ := Option.bind_eq_some_iff.mp hrest
      have hwords₂ := hwords.splitL2 hsplit
      split_ifs at hlast <;> obtain ⟨rfl, rfl⟩ := Prod.mk.inj (Option.some.inj hlast) <;>
        exact hwords₂

/-- The descriptor of a block is a word. -/
lemma buildStage2BlockDescriptor_lt (pa : ℕ) (isDevice : Bool) :
    buildStage2BlockDescriptor pa isDevice < 2 ^ 64 := by
  have hpa : pa &&& pteAddrMask < 2 ^ 64 := Nat.and_lt_two_pow _ (by decide)
  cases isDevice <;> rw [buildStage2BlockDescriptor] <;>
    repeat' apply Nat.or_lt_two_pow
  all_goals first | exact hpa | decide

/-- A call writes words. -/
lemma Words64.run (h : Words64 st) {c : MapCall} (hrun : c.run root st = some st') :
    Words64 st' := by
  cases c with
  | block ipa pa isDevice =>
    obtain ⟨⟨st₁, slot⟩, hwalk, hrest⟩ := Option.bind_eq_some_iff.mp hrun
    have hwords := Words64.walkLevels ipa true _ _ _ h hwalk
    cases slot <;> obtain rfl := Option.some.inj hrest
    · exact hwords
    · exact hwords.store (buildStage2BlockDescriptor_lt pa isDevice) _
  | page ipa pa isDevice =>
    obtain ⟨⟨st₁, slot⟩, hwalk, hrest⟩ := Option.bind_eq_some_iff.mp hrun
    have hwords := h.walkL3 hwalk
    cases slot <;> obtain rfl := Option.some.inj hrest
    · exact hwords
    · exact hwords.store
        (Nat.or_lt_two_pow (buildStage2BlockDescriptor_lt pa isDevice) (by decide)) _

/-- A sequence of calls writes words. -/
lemma Words64.runCalls (h : Words64 st) (hrun : GuestMmu.runCalls root calls st = some st') :
    Words64 st' :=
  preserves_foldlM (f := fun (c : MapCall) => c.run root) (fun _ _ _ hst => hst.run) calls h hrun

end GuestMmu

end HyperBerry
