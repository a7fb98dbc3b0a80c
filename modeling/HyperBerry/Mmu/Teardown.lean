import HyperBerry.Mmu.Construct
import HyperBerry.Pmm.Run

/-!
# Destroying the tables of a guest

A `GuestMmu` takes two pages for its root and one page for each further table.  Its destructor runs
`Stage2RootDeleter`, which gives back the block of the root (`destroy`).  The tables below the root
are given back by nobody, so the free pages are the same as before exactly if nothing was ever
mapped.

`Tables.supply` are the free pages, in the order in which `AllocTable` will get them.
-/

namespace HyperBerry

namespace GuestMmu

open Pmm (Extent)

/-- `Stage2RootDeleter`: the block that is given back to the page allocator. -/
def destroy (root : ℕ) : List Extent := if root ≠ 0 then [⟨root, 1⟩] else []

/-- The pages of some blocks. -/
def pagesOf (blocks : List Extent) : Set ℕ :=
  {p | ∃ e ∈ blocks, ∃ i < 2 ^ e.order, p = e.addr + i * pageSize}

/-- The free pages before the root is allocated. -/
def freeBefore (root : ℕ) (st : Tables) : Set ℕ := pagesOf [⟨root, 1⟩] ∪ {p | p ∈ st.supply}

/-- The free pages after the destructor has run. -/
def freeAfter (root : ℕ) (st : Tables) : Set ℕ := pagesOf (destroy root) ∪ {p | p ∈ st.supply}

variable {st st' : Tables} {pt : PageTable} {root : ℕ}

/-! ## Pages that are taken -/

/-- Tables take pages, and give none back. -/
def Takes (f : Tables → Option Tables) : Prop :=
  ∀ ⦃st st' : Tables⦄, f st = some st' → st'.supply <:+ st.supply

/-- With an empty root, at least one page is taken. -/
def TakesFirst (root : ℕ) (f : Tables → Option Tables) : Prop :=
  ∀ ⦃st st' : Tables⦄, (∀ i < 1024, st.mem (root + 8 * i) = 0) → f st = some st' →
    st'.supply.length < st.supply.length

/-- `AllocTable` takes one page. -/
lemma allocTable_supply {r : Tables × ℕ} (h : st.allocTable = some r) :
    st.supply = r.2 :: r.1.supply := by
  rw [Tables.allocTable] at h
  cases hs : st.supply with
  | nil =>
    rw [hs] at h
    cases h
  | cons p rest =>
    rw [hs] at h
    obtain rfl := Option.some.inj h
    rfl

/-- The loop of `Walk` takes pages. -/
lemma walkLevels_suffix (ipa : ℕ) (allocOnMiss : Bool) : ∀ (k level table : ℕ) {st st' : Tables}
    {slot : Option ℕ}, pt.walkLevels ipa allocOnMiss k level st table = some (st', slot) →
    st'.supply <:+ st.supply := by
  intro k
  induction k with
  | zero =>
    intro level table st st' slot h
    obtain rfl := (Prod.mk.inj (Option.some.inj h)).1
    exact List.suffix_refl _
  | succ k ih =>
    intro level table st st' slot h
    rw [PageTable.walkLevels] at h
    generalize table + 8 * (ipa >>> PageTable.levelShift level &&&
      if level = pt.startLevel then pt.rootIndexMask else 0x1FF) = entry at h
    split_ifs at h with hvalid halloc
    · exact ih _ _ h
    · obtain ⟨r, hr, hrest⟩ := Option.bind_eq_some_iff.mp h
      rw [allocTable_supply hr]
      exact (ih _ _ hrest).trans (List.suffix_cons _ _)
    · obtain rfl := (Prod.mk.inj (Option.some.inj h)).1
      exact List.suffix_refl _

/-- `Walk` takes pages. -/
lemma walk_suffix {ipa : ℕ} {allocOnMiss : Bool} {slot : Option ℕ}
    (h : pt.walk ipa allocOnMiss st = some (st', slot)) : st'.supply <:+ st.supply :=
  walkLevels_suffix ipa allocOnMiss _ _ _ h

/-- With an empty root, `Walk` takes a page. -/
lemma walk_length_lt {ipa : ℕ} {slot : Option ℕ} (hroot : ∀ i < 1024, st.mem (root + 8 * i) = 0)
    (h : (stage2Table root).walk ipa true st = some (st', slot)) :
    st'.supply.length < st.supply.length := by
  have hidx : ipa >>> PageTable.levelShift 1 &&& kStage2RootIndexMask < 1024 :=
    lt_of_le_of_lt Nat.and_le_right (by decide)
  have hzero := hroot _ hidx
  have hmask : (if 1 = (stage2Table root).startLevel then (stage2Table root).rootIndexMask
      else 0x1FF) = kStage2RootIndexMask := rfl
  change PageTable.walkLevels _ ipa true 1 1 st root = _ at h
  rw [PageTable.walkLevels, hmask, hzero, if_neg (by decide), if_pos rfl] at h
  obtain ⟨r, hr, hrest⟩ := Option.bind_eq_some_iff.mp h
  have hle := (walkLevels_suffix _ _ _ _ _ hrest).length_le
  rw [allocTable_supply hr, List.length_cons]
  rw [store_supply] at hle
  omega

/-- `MapBlock` takes pages. -/
lemma takes_mapBlock (ipa pa : ℕ) (isDevice : Bool) : Takes (mapBlock pt ipa pa isDevice) := by
  intro st st' h
  obtain ⟨⟨st₁, slot⟩, hwalk, hrest⟩ := Option.bind_eq_some_iff.mp h
  have hsuffix := walk_suffix hwalk
  cases slot <;> obtain rfl := Option.some.inj hrest <;> exact hsuffix

/-- With an empty root, `MapBlock` takes a page. -/
lemma takesFirst_mapBlock (ipa pa : ℕ) (isDevice : Bool) :
    TakesFirst root (mapBlock (stage2Table root) ipa pa isDevice) := by
  intro st st' hroot h
  obtain ⟨⟨st₁, slot⟩, hwalk, hrest⟩ := Option.bind_eq_some_iff.mp h
  have hlt := walk_length_lt hroot hwalk
  cases slot <;> obtain rfl := Option.some.inj hrest <;> exact hlt

/-- Splitting a block takes a page. -/
lemma splitL2_suffix {l2 : ℕ} (h : splitL2 st l2 = some st') : st'.supply <:+ st.supply := by
  obtain ⟨r, hr, hrest⟩ := Option.bind_eq_some_iff.mp h
  obtain rfl := Option.some.inj hrest
  rw [allocTable_supply hr, store_supply]
  dsimp only
  split_ifs
  · rw [store_supply, fill_supply]
    exact List.suffix_cons _ _
  · exact List.suffix_cons _ _

/-- After its walk, `walkL3` takes pages. -/
lemma walkL3_suffix {ipa : ℕ} {r : Tables × Option ℕ} (h : walkL3 pt ipa st = some r) :
    ∃ st₁ slot, pt.walk ipa true st = some (st₁, slot) ∧ r.1.supply <:+ st₁.supply := by
  obtain ⟨⟨st₁, slot⟩, hwalk, hrest⟩ := Option.bind_eq_some_iff.mp h
  refine ⟨st₁, slot, hwalk, ?_⟩
  cases slot with
  | none =>
    obtain rfl := Option.some.inj hrest
    exact List.suffix_refl _
  | some l2 =>
    dsimp only at hrest
    split_ifs at hrest
    · obtain ⟨st₂, hsplit, hlast⟩ := Option.bind_eq_some_iff.mp hrest
      obtain rfl := Option.some.inj hsplit
      split_ifs at hlast
      obtain rfl := Option.some.inj hlast
      exact List.suffix_refl _
    · obtain ⟨st₂, hsplit, hlast⟩ := Option.bind_eq_some_iff.mp hrest
      have hsuffix := splitL2_suffix hsplit
      split_ifs at hlast <;> obtain rfl := Option.some.inj hlast <;> exact hsuffix

/-- `MapPage` takes pages. -/
lemma takes_mapPage (ipa pa : ℕ) (isDevice : Bool) : Takes (mapPage pt ipa pa isDevice) := by
  intro st st' h
  obtain ⟨⟨st₂, slot⟩, hwalk, hrest⟩ := Option.bind_eq_some_iff.mp h
  obtain ⟨st₁, _, hfirst, hsuffix⟩ := walkL3_suffix hwalk
  have hall := hsuffix.trans (walk_suffix hfirst)
  cases slot <;> obtain rfl := Option.some.inj hrest <;> exact hall

/-- With an empty root, `MapPage` takes a page. -/
lemma takesFirst_mapPage (ipa pa : ℕ) (isDevice : Bool) :
    TakesFirst root (mapPage (stage2Table root) ipa pa isDevice) := by
  intro st st' hroot h
  obtain ⟨⟨st₂, slot⟩, hwalk, hrest⟩ := Option.bind_eq_some_iff.mp h
  obtain ⟨st₁, _, hfirst, hsuffix⟩ := walkL3_suffix hwalk
  have hlt := lt_of_le_of_lt hsuffix.length_le (walk_length_lt hroot hfirst)
  cases slot <;> obtain rfl := Option.some.inj hrest <;> exact hlt

/-! ## Loops -/

/-- A loop over offsets takes pages. -/
lemma takes_offsetLoop {limit granule : ℕ} {body : ℕ → Tables → Option Tables}
    (hbody : ∀ off, Takes (body off)) (fuel off : ℕ) :
      Takes (offsetLoop limit granule body fuel off) := by
  intro st st' h
  exact preserves_offsetLoop (P := fun st' => st'.supply <:+ st.supply)
    (fun off _ _ hst hrun => (hbody off hrun).trans hst) fuel off (List.suffix_refl _) h

/-- A loop that is entered with an empty root takes a page. -/
lemma takesFirst_offsetLoop {limit granule fuel off : ℕ} {body : ℕ → Tables → Option Tables}
    (hbody : ∀ off, Takes (body off)) (hfirst : TakesFirst root (body off)) (hlt : off < limit) :
    TakesFirst root (offsetLoop limit granule body fuel off) := by
  intro st st' hroot h
  cases fuel with
  | zero => cases h
  | succ fuel =>
    rw [offsetLoop, if_pos hlt] at h
    obtain ⟨st₁, hrun, hrest⟩ := Option.bind_eq_some_iff.mp h
    exact lt_of_le_of_lt (takes_offsetLoop hbody _ _ hrest).length_le (hfirst hroot hrun)

/-- A loop over no offsets does nothing. -/
lemma offsetLoop_zero {granule fuel : ℕ} {body : ℕ → Tables → Option Tables} (hfuel : 0 < fuel) :
    offsetLoop 0 granule body fuel 0 st = some st := by
  obtain ⟨fuel, rfl⟩ := Nat.exists_eq_succ_of_ne_zero hfuel.ne'
  rw [offsetLoop, if_neg (lt_irrefl 0)]

lemma takes_window_body (window : MmioWindow) (off : ℕ) : Takes fun st =>
    if window.byPage then mapPage pt (add64 window.base off) (add64 window.pa off) true st
    else mapBlock pt (add64 window.base off) (add64 window.pa off) true st := by
  cases window.byPage
  · exact takes_mapBlock _ _ _
  · exact takes_mapPage _ _ _

/-- A window takes pages. -/
lemma takes_mapWindow (window : MmioWindow) : Takes (mapWindow pt window) :=
  takes_offsetLoop (takes_window_body window) _ _

/-- With an empty root, a window that is not empty takes a page. -/
lemma takesFirst_mapWindow {window : MmioWindow} (hsize : window.size ≠ 0) :
    TakesFirst root (mapWindow (stage2Table root) window) := by
  refine takesFirst_offsetLoop (takes_window_body window) ?_ (Nat.pos_of_ne_zero hsize)
  cases window.byPage
  · exact takesFirst_mapBlock _ _ _
  · exact takesFirst_mapPage _ _ _

/-- A call takes pages. -/
lemma MapCall.takes (c : MapCall) : Takes (c.run root) := by
  cases c
  · exact takes_mapBlock _ _ _
  · exact takes_mapPage _ _ _

/-- With an empty root, a call takes a page. -/
lemma MapCall.takesFirst (c : MapCall) : TakesFirst root (c.run root) := by
  cases c
  · exact takesFirst_mapBlock _ _ _
  · exact takesFirst_mapPage _ _ _

/-- Steps one after the other take pages. -/
lemma takes_foldlM {ι : Type} {f : ι → Tables → Option Tables} (hf : ∀ i, Takes (f i))
    (l : List ι) : Takes fun st => l.foldlM (fun st i => f i st) st := by
  intro st st' h
  exact preserves_foldlM (P := fun st' => st'.supply <:+ st.supply)
    (fun i _ _ hst hrun => (hf i hrun).trans hst) l (List.suffix_refl _) h

/-- Steps of which some do nothing and the others take a page of an empty root: they do nothing, or
take a page. -/
lemma foldlM_cases {ι : Type} {f : ι → Tables → Option Tables} (hf : ∀ i, Takes (f i))
    {P : ι → Prop} (hskip : ∀ i, P i → ∀ st, f i st = some st)
    (hfirst : ∀ i, ¬P i → TakesFirst root (f i))
    (l : List ι) : ((∀ i ∈ l, P i) ∧ ∀ st, l.foldlM (fun st i => f i st) st = some st) ∨
      (¬(∀ i ∈ l, P i) ∧ TakesFirst root fun st => l.foldlM (fun st i => f i st) st) := by
  induction l with
  | nil => exact .inl ⟨fun i hi => absurd hi List.not_mem_nil, fun st => rfl⟩
  | cons i l ih =>
    by_cases hi : P i
    · have hcons : ∀ st, (i :: l).foldlM (fun st i => f i st) st =
          l.foldlM (fun st i => f i st) st := by
        intro st
        rw [List.foldlM_cons, hskip i hi]
        rfl
      rcases ih with ⟨hall, hrun⟩ | ⟨hsome, htakes⟩
      · exact .inl ⟨List.forall_mem_cons.mpr ⟨hi, hall⟩, fun st => (hcons st).trans (hrun st)⟩
      · refine .inr ⟨fun hall => hsome (List.forall_mem_cons.mp hall).2, fun st st' hroot h => ?_⟩
        dsimp only at h
        rw [hcons] at h
        exact htakes hroot h
    · refine .inr ⟨fun hall => hi (List.forall_mem_cons.mp hall).1, fun st st' hroot h => ?_⟩
      dsimp only at h
      rw [List.foldlM_cons] at h
      obtain ⟨st₁, hrun, hrest⟩ := Option.bind_eq_some_iff.mp h
      exact lt_of_le_of_lt (takes_foldlM hf l hrest).length_le (hfirst i hi hroot hrun)

/-! ## The life of a `GuestMmu` -/

/-- Nothing is mapped: there is no RAM, every window is empty, and there is no call. -/
def NothingMapped (sizeBytes : ℕ) (devices : MmioMap) (calls : List MapCall) : Prop :=
  sizeBytes = 0 ∧ (∀ window ∈ devices.windows, window.size = 0) ∧ calls = []

/-- The constructor on a supply of pages, and calls after it: as long as nothing is mapped no page
is taken beside the root, and otherwise there is one more. -/
lemma supply_of_construct {ipaBase hostPaBase sizeBytes : ℕ} {devices : MmioMap} {st₁ st₂ : Tables}
    {calls : List MapCall} (hrun : construct root ipaBase hostPaBase sizeBytes devices st =
    some st₁) (hcalls : runCalls root calls st₁ = some st₂) :
    st₂.supply <:+ st.supply ∧
      (NothingMapped sizeBytes devices calls ↔ st₂.supply.length = st.supply.length) := by
  obtain ⟨st₀, hroot, hrest⟩ := Option.bind_eq_some_iff.mp hrun
  obtain ⟨stRam, hram, hwindows⟩ := Option.bind_eq_some_iff.mp hrest
  have hst₀ : st₀ = st.clear root kStage2RootSize := by
    rw [allocStage2RootTable] at hroot
    split_ifs at hroot
    exact (Option.some.inj hroot).symm
  have hempty : ∀ i < 1024, st₀.mem (root + 8 * i) = 0 := by
    intro i hi
    rw [hst₀]
    exact if_pos ⟨by omega, by unfold kStage2RootSize pageSize; omega⟩
  have hsupply : st₀.supply = st.supply := by
    rw [hst₀]
    rfl
  -- pages are only taken
  have hbody : ∀ off, Takes fun st =>
      mapBlock (stage2Table root) (add64 ipaBase off) (add64 hostPaBase off) false st :=
    fun off => takes_mapBlock _ _ _
  have htakesRam := takes_offsetLoop hbody _ _ hram
  have hcall (c : MapCall) : Takes (c.run root) := c.takes
  have htakesWindows := takes_foldlM takes_mapWindow _ hwindows
  have htakesCalls := takes_foldlM hcall _ hcalls
  rw [← hsupply]
  refine ⟨htakesCalls.trans (htakesWindows.trans htakesRam), ?_⟩
  have hleRam := htakesRam.length_le
  have hleWindows := htakesWindows.length_le
  have hleCalls := htakesCalls.length_le
  -- the first mapping takes a page, wherever it is
  by_cases hsize : sizeBytes = 0
  swap
  · have hlt := takesFirst_offsetLoop hbody (takesFirst_mapBlock _ _ _) (Nat.pos_of_ne_zero hsize)
      hempty hram
    exact ⟨fun h => absurd h.1 hsize, fun h => by omega⟩
  rw [hsize, offsetLoop_zero (by unfold loopFuel; norm_num)] at hram
  obtain rfl := Option.some.inj hram
  rcases foldlM_cases takes_mapWindow
      (fun window hzero st => by
        rw [mapWindow, hzero]
        exact offsetLoop_zero (by unfold loopFuel; norm_num))
      (fun window hne => (takesFirst_mapWindow hne : TakesFirst root _)) devices.windows with
    ⟨hnone, hskip⟩ | ⟨hsome, hfirst⟩
  swap
  · have hlt := hfirst hempty hwindows
    exact ⟨fun h => absurd h.2.1 hsome, fun h => by omega⟩
  rw [hskip] at hwindows
  obtain rfl := Option.some.inj hwindows
  rcases foldlM_cases hcall (P := fun _ => False)
      (fun c hc => hc.elim) (fun c _ => c.takesFirst) calls with ⟨hnil, hskip⟩ | ⟨hne, hfirst⟩
  · have hcalls_nil : calls = [] := List.eq_nil_iff_forall_not_mem.mpr hnil
    rw [runCalls, hskip] at hcalls
    obtain rfl := Option.some.inj hcalls
    exact ⟨fun _ => rfl, fun _ => ⟨hsize, hnone, hcalls_nil⟩⟩
  · have hlt := hfirst hempty hcalls
    refine ⟨fun h => absurd ?_ hne, fun h => by omega⟩
    rw [h.2.2]
    exact fun c hc => absurd hc List.not_mem_nil

/-- **Teardown.**  For every constructor call that returns and all calls after it, the destructor
leaves the free pages as they were before the construction if and only if nothing was mapped. -/
theorem teardown_iff {ipaBase hostPaBase sizeBytes : ℕ} {devices : MmioMap} {st₁ st₂ : Tables}
    {calls : List MapCall} (hroot : ∀ p ∈ st.supply, p ∉ pagesOf [⟨root, 1⟩])
    (hnodup : st.supply.Nodup)
    (hrun : construct root ipaBase hostPaBase sizeBytes devices st = some st₁)
    (hcalls : runCalls root calls st₁ = some st₂) :
    freeAfter root st₂ = freeBefore root st ↔ NothingMapped sizeBytes devices calls := by
  obtain ⟨hsuffix, hlength⟩ := supply_of_construct hrun hcalls
  have hne : root ≠ 0 := by
    rintro rfl
    rw [construct, allocStage2RootTable, if_pos rfl] at hrun
    cases hrun
  rw [hlength, freeAfter, freeBefore, destroy, if_pos hne]
  constructor
  · intro heq
    -- a page that was taken from the supply is free in neither way
    obtain ⟨taken, htaken⟩ := hsuffix
    rcases taken with _ | ⟨p, taken⟩
    · rw [← htaken, List.nil_append]
    · exfalso
      rw [← htaken] at hnodup hroot heq
      have hp : p ∈ pagesOf [⟨root, 1⟩] ∪ {p | p ∈ st₂.supply} := by
        rw [heq]
        exact .inr List.mem_cons_self
      rcases hp with hp | hp
      · exact hroot p List.mem_cons_self hp
      · rw [List.cons_append] at hnodup
        exact (List.nodup_cons.mp hnodup).1 (List.mem_append_right _ hp)
  · intro hlen
    rw [hsuffix.eq_of_length hlen]

/-- Two free pages beside those of the root. -/
def twoPages : Tables where
  mem _ := 0
  supply := [0x200000, 0x201000]

/-- The pages of a block of two pages. -/
lemma mem_pagesOf_root (root p : ℕ) : p ∈ pagesOf [⟨root, 1⟩] ↔ p = root ∨ p = root + pageSize := by
  constructor
  · rintro ⟨e, he, i, hi, rfl⟩
    obtain rfl := List.mem_singleton.mp he
    have hi : i = 0 ∨ i = 1 := by
      dsimp only at hi
      omega
    rcases hi with rfl | rfl
    · exact .inl (by rw [Nat.zero_mul, Nat.add_zero])
    · exact .inr (by rw [Nat.one_mul])
  · rintro (rfl | rfl)
    · exact ⟨_, List.mem_singleton_self _, 0, by norm_num, by rw [Nat.zero_mul, Nat.add_zero]⟩
    · exact ⟨_, List.mem_singleton_self _, 1, by norm_num, by rw [Nat.one_mul]⟩

/-- A guest with 2 MiB of memory needs one table below its root. -/
lemma construct_small : ∃ st', construct 0x100000 0x40000000 0x80000000 size2MB {} twoPages =
    some st' ∧ st'.supply = [0x201000] := by
  have hrun : (construct 0x100000 0x40000000 0x80000000 size2MB {} twoPages).map Tables.supply =
      some [0x201000] := by
    decide +kernel
  exact Option.map_eq_some_iff.mp hrun

/-- The teardown of the small guest. -/
theorem teardown_small :
    ∃ st', construct 0x100000 0x40000000 0x80000000 size2MB {} twoPages = some st' ∧
    (freeAfter 0x100000 st' = freeBefore 0x100000 twoPages ↔ NothingMapped size2MB {} []) := by
  obtain ⟨st', hrun, -⟩ := construct_small
  refine ⟨st', hrun, teardown_iff (fun p hp => ?_) (by decide) hrun rfl⟩
  rw [mem_pagesOf_root]
  rcases List.mem_pair.mp hp with rfl | rfl <;> decide

/-- After the small guest is destroyed, the page of its level 2 table is not free any more. -/
theorem table_page_leaks :
    ∃ st', construct 0x100000 0x40000000 0x80000000 size2MB {} twoPages = some st' ∧
    0x200000 ∈ freeBefore 0x100000 twoPages ∧ 0x200000 ∉ freeAfter 0x100000 st' := by
  obtain ⟨st', hrun, hsupply⟩ := construct_small
  refine ⟨st', hrun, .inr List.mem_cons_self, ?_⟩
  rintro (hroot | hfree)
  · exact absurd ((mem_pagesOf_root _ _).mp hroot) (by decide)
  · have hmem : 0x200000 ∈ st'.supply := hfree
    rw [hsupply] at hmem
    exact absurd hmem (by decide)

end GuestMmu

end HyperBerry
