import HyperBerry.Mmu.Construct

/-!
# Guest isolation

What a guest can reach through the tables that the constructor of `GuestMmu` builds from the windows
of `GetGuestMmio`.

The walk indexes tables with the low 40 bits of an address, and a descriptor holds the low 48 bits
of the output address.  A declared region above the 40-bit space is therefore mapped at the
addresses that agree with it in the low 40 bits, inside the space that the guest sees.  The tables
give exactly the declared access when no such page decides what an address translates to
(`isolation_iff`).
-/

namespace HyperBerry

namespace DeviceTree

open GuestMmu

/-! ## Pages of windows -/

/-- The numbers of the pages of a window, in the order in which they are mapped. -/
def windowPages (window : MmioWindow) : List ℕ :=
  (List.range (window.size / size4KB)).map fun i => window.base / size4KB + i

/-- The call that maps a page to itself as device memory. -/
def identityCall (q : ℕ) : MapCall := .page (q * size4KB) (q * size4KB) true

/-- The first page of a region. -/
def firstPage (region : DeviceRegion) : ℕ := region.base.toNat / size4KB

/-- The number of pages that a region touches. -/
def pageCount (region : DeviceRegion) : ℕ :=
  (region.base.toNat + region.size.toNat + (size4KB - 1)) / size4KB - firstPage region

/-- A region that is not empty and ends inside the address space. -/
structure ProperRegion (region : DeviceRegion) : Prop where
  /-- The region is not empty. -/
  pos : 0 < region.size.toNat
  /-- The region does not wrap. -/
  end_le : region.base.toNat + region.size.toNat ≤ 2 ^ 64

lemma alignDown_size4KB {a : ℕ} (ha : a < 2 ^ 64) :
    MmioMap.alignDown a size4KB = a / size4KB * size4KB :=
  and_not64_two_pow_sub_one ha (k := 12) (by norm_num)

/-- The window of a region, in pages. -/
lemma regionWindow_eq {region : DeviceRegion} (h : ProperRegion region) :
    regionWindow region = ⟨firstPage region * size4KB, firstPage region * size4KB,
      pageCount region * size4KB % 2 ^ 64, true⟩ := by
  have hbase := region.base.toNat_lt
  have hpos := h.pos
  have hend := h.end_le
  have hup : MmioMap.alignUp region.base.toNat region.size.toNat size4KB =
      (region.base.toNat + region.size.toNat + (size4KB - 1)) / size4KB * size4KB % 2 ^ 64 := by
    have hand := and_not64_two_pow_sub_one (a := sub64 (add64 (add64 region.base.toNat
      region.size.toNat) size4KB) 1) (k := 12) (sub64_lt _ _) (by norm_num)
    rw [MmioMap.alignUp]
    refine hand.trans ?_
    unfold sub64 add64 size4KB
    omega
  rw [regionWindow, MmioMap.pageWindow]
  simp only [alignDown_size4KB hbase, hup, MmioWindow.mk.injEq, and_true]
  refine ⟨rfl, rfl, ?_⟩
  unfold sub64 pageCount firstPage size4KB
  omega

/-- The end of a region in pages. -/
lemma firstPage_add_pageCount {region : DeviceRegion} (h : ProperRegion region) :
    (firstPage region + pageCount region) * size4KB ≤ 2 ^ 64 ∧
      firstPage region + pageCount region =
        (region.base.toNat + region.size.toNat + (size4KB - 1)) / size4KB := by
  have hpos := h.pos
  have hend := h.end_le
  unfold pageCount firstPage size4KB
  omega

/-- The windows of regions are windows of whole pages. -/
lemma regionWindow_pageWindow {region : DeviceRegion} (h : ProperRegion region) :
    PageWindow (regionWindow region) := by
  rw [regionWindow_eq h]
  refine ⟨rfl, ?_, Nat.mod_lt _ (by norm_num)⟩
  have hdvd : size4KB ∣ 2 ^ 64 := ⟨2 ^ 52, by norm_num [size4KB]⟩
  exact (Nat.dvd_mod_iff hdvd).mpr (dvd_mul_left _ _)

/-- The calls of the window of a region map its pages to themselves. -/
lemma windowCalls_regionWindow {region : DeviceRegion} (h : ProperRegion region) :
    windowCalls (regionWindow region) = (windowPages (regionWindow region)).map identityCall := by
  obtain ⟨hend, -⟩ := firstPage_add_pageCount h
  rw [windowCalls, windowPages, List.map_map, regionWindow_eq h]
  refine List.map_congr_left fun i hi => ?_
  have hlt : i < pageCount region := by
    have hi' := List.mem_range.mp hi
    have hle : pageCount region * size4KB % 2 ^ 64 ≤ pageCount region * size4KB := Nat.mod_le _ _
    simp only at hi'
    unfold size4KB at *
    omega
  have hadd : add64 (firstPage region * size4KB) (i * size4KB) =
      (firstPage region + i) * size4KB := by
    rw [add64]
    unfold size4KB at *
    omega
  have hdiv : firstPage region * size4KB / size4KB = firstPage region :=
    Nat.mul_div_cancel _ (by decide)
  simp only [Function.comp_apply, identityCall, hadd, hdiv]

/-- The window of the bring-up console is one page. -/
lemma bringUpWindow_eq {bspUartBase : ℕ} (h : bspUartBase < 2 ^ 64) :
    bringUpWindow bspUartBase =
      ⟨kBringUpUartIpa, bspUartBase / size4KB * size4KB, size4KB, true⟩ := by
  rw [bringUpWindow, MmioMap.pageWindow]
  simp only [alignDown_size4KB h, MmioWindow.mk.injEq, and_true]
  refine ⟨by decide, by decide⟩

/-! ## What is declared -/

/-- A page number lies in a declared region. -/
def DeclaredPage (gic uart : DeviceNode) (p : ℕ) : Prop :=
  ∃ region ∈ declaredRegions gic uart,
    firstPage region ≤ p ∧ p * size4KB < region.base.toNat + region.size.toNat

instance (gic uart : DeviceNode) (p : ℕ) : Decidable (DeclaredPage gic uart p) :=
  inferInstanceAs (Decidable (∃ region ∈ declaredRegions gic uart, _))

/-- The declared regions are proper. -/
def ProperNodes (gic uart : DeviceNode) : Prop :=
  ∀ region ∈ declaredRegions gic uart, ProperRegion region

/-- The windows of the declared regions already map the page of the bring-up console. -/
def BringUpCovered (gic uart : DeviceNode) : Prop :=
  MmioMap.covers ⟨declaredWindows gic uart⟩ kBringUpUartIpa = true

instance (gic uart : DeviceNode) : Decidable (BringUpCovered gic uart) :=
  inferInstanceAs (Decidable (_ = true))

/-- The page of the bring-up console. -/
def bringUpPage : ℕ := kBringUpUartIpa / size4KB

/-- A window that was collected is the window of a declared region. -/
lemma mem_declaredWindows {gic uart : DeviceNode} {window : MmioWindow} :
    window ∈ declaredWindows gic uart ↔
      ∃ region ∈ declaredRegions gic uart, regionWindow region = window := by
  rw [declaredWindows, mem_foldl_addWindow, List.mem_map]
  simp

/-- A covered bring-up page is declared. -/
lemma BringUpCovered.declaredPage {gic uart : DeviceNode} (hp : ProperNodes gic uart)
    (h : BringUpCovered gic uart) : DeclaredPage gic uart bringUpPage := by
  rw [BringUpCovered, MmioMap.covers, List.any_eq_true] at h
  obtain ⟨window, hmem, hcov⟩ := h
  obtain ⟨region, hregion, rfl⟩ := mem_declaredWindows.mp hmem
  have hproper := hp region hregion
  obtain ⟨hend, hpage⟩ := firstPage_add_pageCount hproper
  rw [regionWindow_eq hproper, decide_eq_true_iff] at hcov
  obtain ⟨hge, hlt⟩ := hcov
  refine ⟨region, hregion, ?_, ?_⟩
  · unfold bringUpPage kBringUpUartIpa size4KB at *
    simp only at hge
    omega
  · unfold bringUpPage kBringUpUartIpa add64 size4KB at *
    simp only at hlt
    omega

/-! ## What is mapped -/

/-- The last page of the declared windows, in mapping order, that agrees with page `p` of the 40-bit
space. -/
def lastAlias (gic uart : DeviceNode) (p : ℕ) : Option ℕ :=
  ((declaredWindows gic uart).flatMap windowPages).reverse.find? fun q => q % 2 ^ 28 = p

/-- The page of guest RAM behind a page number. -/
def ramTarget (ipaBase hostPaBase sizeBytes p : ℕ) : Option Target :=
  if ipaBase / size4KB ≤ p ∧ p < (ipaBase + sizeBytes) / size4KB then
    some ⟨hostPaBase / size4KB + (p - ipaBase / size4KB), false⟩
  else none

/-- The device page behind a page number. -/
def deviceTarget (bspUartBase : ℕ) (gic uart : DeviceNode) (p : ℕ) : Option Target :=
  if p = bringUpPage ∧ ¬ BringUpCovered gic uart then some ⟨bspUartBase / size4KB, true⟩
  else (lastAlias gic uart p).map fun q => ⟨q % 2 ^ 36, true⟩

/-- Searching for the first element with a property and then computing a value from it. -/
lemma findSome?_ite {α β : Type*} (P : α → Prop) [DecidablePred P] (g : α → β) (l : List α) :
    (l.findSome? fun a => if P a then some (g a) else none) =
      (l.find? fun a => decide (P a)).map g := by
  induction l with
  | nil => rfl
  | cons a l ih =>
    by_cases h : P a
    · simp [h]
    · simp [h, ih]

/-- A search in which all hits give the same value. -/
lemma findSome?_eq_some_of_forall {α β : Type*} {f : α → Option β} {l : List α} {b : β}
    (hex : ∃ a ∈ l, f a = some b) (hall : ∀ a ∈ l, ∀ b', f a = some b' → b' = b) :
    l.findSome? f = some b := by
  cases h : l.findSome? f with
  | none =>
    obtain ⟨a, ha, hfa⟩ := hex
    rw [List.findSome?_eq_none_iff.mp h a ha] at hfa
    exact absurd hfa (by simp)
  | some b' =>
    obtain ⟨a, ha, hfa⟩ := List.exists_of_findSome?_eq_some h
    rw [hall a ha b' hfa]

/-- The target of a page that is mapped to itself. -/
lemma target_identityCall (q p : ℕ) :
    (identityCall q).target p = if q % 2 ^ 28 = p then some ⟨q % 2 ^ 36, true⟩ else none := by
  have hpage : pageOf (q * size4KB) = q % 2 ^ 28 := by
    unfold pageOf size4KB
    omega
  have hpa : q * size4KB / 2 ^ 12 = q := by
    unfold size4KB
    omega
  simp only [identityCall, MapCall.target, hpage, hpa, eq_comm]

/-- The device part of the calls. -/
lemma findSome?_declared {gic uart : DeviceNode} (hp : ProperNodes gic uart) (p : ℕ) :
    (((declaredWindows gic uart).flatMap windowCalls).reverse.findSome? fun c => c.target p) =
      (lastAlias gic uart p).map fun q => ⟨q % 2 ^ 36, true⟩ := by
  have hcalls : (declaredWindows gic uart).flatMap windowCalls =
      ((declaredWindows gic uart).flatMap windowPages).map identityCall := by
    rw [List.map_flatMap]
    refine List.flatMap_congr fun window hmem => ?_
    obtain ⟨region, hregion, rfl⟩ := mem_declaredWindows.mp hmem
    exact windowCalls_regionWindow (hp region hregion)
  rw [hcalls, ← List.map_reverse, List.findSome?_map, lastAlias, ← findSome?_ite]
  congr 1
  funext q
  exact target_identityCall q p

/-- The RAM part of the calls. -/
lemma findSome?_ramCalls {ipaBase hostPaBase sizeBytes p : ℕ} (hipa : size2MB ∣ ipaBase)
    (hhost : size2MB ∣ hostPaBase) (hsize : size2MB ∣ sizeBytes)
    (hend : ipaBase + sizeBytes ≤ 2 ^ 40) (hhostEnd : hostPaBase + sizeBytes ≤ 2 ^ 48) :
    ((ramCalls ipaBase hostPaBase sizeBytes).reverse.findSome? fun c => c.target p) =
      ramTarget ipaBase hostPaBase sizeBytes p := by
  obtain ⟨a, rfl⟩ := hipa
  obtain ⟨b, rfl⟩ := hhost
  obtain ⟨n, rfl⟩ := hsize
  have hcall : ∀ i < n, (MapCall.block (add64 (size2MB * a) (i * size2MB))
      (add64 (size2MB * b) (i * size2MB)) false).target p =
      if p / 512 = a + i then some ⟨(b + i) * 512 + p % 512, false⟩ else none := by
    intro i hi
    have hentry : entryOf (add64 (size2MB * a) (i * size2MB)) = a + i := by
      unfold entryOf add64 size2MB at *
      omega
    have hpa : add64 (size2MB * b) (i * size2MB) / 2 ^ 12 % 2 ^ 36 = (b + i) * 512 := by
      unfold add64 size2MB at *
      omega
    rw [MapCall.target, hentry, hpa]
  have hmem : ∀ c, c ∈ (ramCalls (size2MB * a) (size2MB * b) (size2MB * n)).reverse ↔
      ∃ i < n, .block (add64 (size2MB * a) (i * size2MB)) (add64 (size2MB * b) (i * size2MB)) false
        = c := by
    intro c
    have hdiv : size2MB * n / size2MB = n := Nat.mul_div_cancel_left _ (by decide)
    rw [List.mem_reverse, ramCalls, hdiv]
    simp only [List.mem_map, List.mem_range]
  rw [ramTarget]
  by_cases hin : size2MB * a / size4KB ≤ p ∧ p < (size2MB * a + size2MB * n) / size4KB
  · rw [if_pos hin]
    -- only the call for the block of `p` affects it
    have hi : p / 512 - a < n ∧ p / 512 = a + (p / 512 - a) := by
      unfold size2MB size4KB at hin
      omega
    have hval : (b + (p / 512 - a)) * 512 + p % 512 =
        size2MB * b / size4KB + (p - size2MB * a / size4KB) := by
      unfold size2MB size4KB at *
      omega
    refine findSome?_eq_some_of_forall ⟨_, (hmem _).mpr ⟨_, hi.1, rfl⟩, ?_⟩ ?_
    · rw [hcall _ hi.1, if_pos hi.2, hval]
    · intro c hc τ hτ
      obtain ⟨i, hin', rfl⟩ := (hmem c).mp hc
      rw [hcall i hin'] at hτ
      split at hτ
      case isTrue heq =>
        have : i = p / 512 - a := by omega
        rw [this, hval, Option.some.injEq] at hτ
        exact hτ.symm
      case isFalse => exact absurd hτ (by simp)
  · rw [if_neg hin, List.findSome?_eq_none_iff]
    intro c hc
    obtain ⟨i, hi, rfl⟩ := (hmem c).mp hc
    rw [hcall i hi, if_neg]
    unfold size2MB size4KB at hin
    omega

/-- Guest RAM: 2 MiB aligned, inside the 40-bit space and inside physical memory. -/
structure RamRange (ipaBase hostPaBase sizeBytes : ℕ) : Prop where
  /-- The guest addresses are aligned. -/
  ipa_dvd : size2MB ∣ ipaBase
  /-- The host addresses are aligned. -/
  host_dvd : size2MB ∣ hostPaBase
  /-- The size is aligned. -/
  size_dvd : size2MB ∣ sizeBytes
  /-- The guest range ends inside the 40-bit space. -/
  ipa_le : ipaBase + sizeBytes ≤ 2 ^ 40
  /-- The host range has 48-bit addresses. -/
  host_le : hostPaBase + sizeBytes ≤ 2 ^ 48

/-- The pages that the allocator hands out for the root and for further tables. -/
structure RootPages (root : ℕ) (st : Tables) : Prop where
  /-- The root is page-aligned. -/
  root_dvd : pageSize ∣ root
  /-- `AllocTable` returns pages outside the root. -/
  page : ∀ p ∈ st.supply, IsPage p ∧ p ≠ root ∧ p ≠ root + pageSize
  /-- `AllocTable` returns no page twice. -/
  nodup : st.supply.Nodup

/-- The constructor starts from a zeroed root. -/
lemma RootPages.freshRoot {root : ℕ} {st : Tables} (h : RootPages root st) :
    FreshRoot root (st.clear root kStage2RootSize) where
  root_dvd := h.root_dvd
  zero i hi := by
    simp only [Tables.clear]
    rw [if_pos]
    unfold kStage2RootSize pageSize
    omega
  page := h.page
  nodup := h.nodup

/-- The windows that are mapped. -/
lemma windows_of_guestMmio {bspUartBase : ℕ} {gic uart : DeviceNode} {devices : MmioMap}
    (hbsp : bspUartBase < 2 ^ 48) (h : guestMmio bspUartBase gic uart = .ok devices) :
    devices.windows = declaredWindows gic uart ++
      if BringUpCovered gic uart then [] else [bringUpWindow bspUartBase] := by
  rw [guestMmio_eq, Except.ok.injEq] at h
  subst h
  by_cases hcov : BringUpCovered gic uart
  · have hcov' : MmioMap.covers ⟨declaredWindows gic uart⟩ kBringUpUartIpa = true := hcov
    rw [if_pos hcov, if_pos hcov', List.append_nil]
  · have hcov' : ¬ MmioMap.covers ⟨declaredWindows gic uart⟩ kBringUpUartIpa = true := hcov
    rw [if_neg hcov, if_neg hcov']
    simp only [addWindow]
    rw [if_neg]
    -- a window of the bring-up page itself would cover it
    intro hmem
    refine hcov (List.any_eq_true.mpr ⟨_, hmem, ?_⟩)
    rw [bringUpWindow_eq (by omega), decide_eq_true_iff]
    have hself : kBringUpUartIpa ≥ kBringUpUartIpa ∧
        kBringUpUartIpa < add64 kBringUpUartIpa size4KB := by decide
    exact hself

/-- What the tables of a guest translate a page to. -/
lemma hwWalk_of_construct {bspUartBase root ipaBase hostPaBase sizeBytes : ℕ}
    {gic uart : DeviceNode} {devices : MmioMap} {st st' : Tables} (hnodes : ProperNodes gic uart)
    (hbsp : bspUartBase < 2 ^ 48) (hram : RamRange ipaBase hostPaBase sizeBytes)
    (hroot : RootPages root st) (hmmio : guestMmio bspUartBase gic uart = .ok devices)
    (hbuild : construct root ipaBase hostPaBase sizeBytes devices st = some st') {ipa : ℕ}
    (hipa : ipa < 2 ^ 40) :
    hwWalk st'.mem root ipa = ((deviceTarget bspUartBase gic uart (ipa / pageSize)).or
      (ramTarget ipaBase hostPaBase sizeBytes (ipa / pageSize))).map fun τ =>
        ⟨τ.page * pageSize + ipa % pageSize, stage2Attributes τ.device⟩ := by
  have hroot0 : root ≠ 0 := by
    rintro rfl
    simp [construct, allocStage2RootTable] at hbuild
  have hwindows := windows_of_guestMmio hbsp hmmio
  have hpages : ∀ window ∈ devices.windows, PageWindow window := by
    intro window hmem
    rw [hwindows, List.mem_append] at hmem
    rcases hmem with hmem | hmem
    · obtain ⟨region, hregion, rfl⟩ := mem_declaredWindows.mp hmem
      exact regionWindow_pageWindow (hnodes region hregion)
    · have hw : window = bringUpWindow bspUartBase := by
        split at hmem
        · simp at hmem
        · simpa using hmem
      rw [hw, bringUpWindow_eq (by omega)]
      have hlt : size4KB < 2 ^ 64 := by decide
      exact ⟨rfl, dvd_rfl, hlt⟩
  rw [construct_eq st hroot0 hram.size_dvd (by have := hram.ipa_le; omega) hpages] at hbuild
  have hal : ∀ c ∈ ramCalls ipaBase hostPaBase sizeBytes ++ devices.windows.flatMap windowCalls,
      c.Aligned := by
    intro c hc
    rcases List.mem_append.mp hc with hc | hc
    · obtain ⟨i, -, rfl⟩ := List.mem_map.mp hc
      have hsize : size2MB ∣ 2 ^ 64 := ⟨2 ^ 43, by norm_num [size2MB]⟩
      exact (Nat.dvd_mod_iff hsize).mpr (dvd_add hram.host_dvd (dvd_mul_left _ _))
    · obtain ⟨window, -, hc⟩ := List.mem_flatMap.mp hc
      obtain ⟨i, -, rfl⟩ := List.mem_map.mp hc
      trivial
  rw [hroot.freshRoot.hwWalk_eq hal hbuild hipa, List.reverse_append, List.findSome?_append,
    findSome?_ramCalls hram.ipa_dvd hram.host_dvd hram.size_dvd hram.ipa_le hram.host_le]
  congr 2
  rw [hwindows, deviceTarget, List.flatMap_append, List.reverse_append, List.findSome?_append,
    findSome?_declared hnodes]
  by_cases hcov : BringUpCovered gic uart
  · rw [if_pos hcov, if_neg (by tauto)]
    rfl
  · have hcall : ([bringUpWindow bspUartBase].flatMap windowCalls).reverse =
        [.page kBringUpUartIpa (bspUartBase / size4KB * size4KB) true] := by
      rw [List.flatMap_singleton, windowCalls, bringUpWindow_eq (by omega)]
      have hone : size4KB / size4KB = 1 := by decide
      have hpa : add64 (bspUartBase / size4KB * size4KB) 0 = bspUartBase / size4KB * size4KB := by
        rw [add64]
        unfold size4KB
        omega
      simp only [hone, List.range_one, List.map_cons, List.map_nil, Nat.zero_mul, hpa]
      rfl
    have hpa : bspUartBase / size4KB * size4KB / 2 ^ 12 % 2 ^ 36 = bspUartBase / size4KB := by
      unfold size4KB
      omega
    have hpage : pageOf kBringUpUartIpa = bringUpPage := by decide
    rw [if_neg hcov, hcall]
    simp only [List.findSome?_singleton, MapCall.target, hpage, hpa, hcov, not_false_eq_true,
      and_true]
    by_cases hp : ipa / pageSize = bringUpPage
    · rw [if_pos hp, if_pos hp]
      rfl
    · rw [if_neg hp, if_neg hp]
      rfl

/-! ## Isolation -/

/-- What a 40-bit address may translate to: the pages of the declared regions go to themselves and
the page of the bring-up console, when it is not one of them, to the console of the board, all as
device memory; the rest of guest RAM goes to host RAM; nothing else is mapped. -/
def permittedTranslation (bspUartBase ipaBase hostPaBase sizeBytes : ℕ) (gic uart : DeviceNode)
    (ipa : ℕ) : Option Translation :=
  if DeclaredPage gic uart (ipa / size4KB) then some ⟨ipa, stage2Attributes true⟩
  else if ipa / size4KB = bringUpPage then
    some ⟨bspUartBase / size4KB * size4KB + ipa % size4KB, stage2Attributes true⟩
  else if ipaBase ≤ ipa ∧ ipa < ipaBase + sizeBytes then
    some ⟨hostPaBase + (ipa - ipaBase), stage2Attributes false⟩
  else none

/-- Every page number of the 40-bit space, but for the bring-up page that `GetGuestMmio` adds
itself, is declared exactly when some page of the declared windows agrees with it in the low 40 bits
of the address, and the last such page in mapping order agrees with it in the low 48 bits.  The
bring-up page that is added is not declared, or it is the page of the console of the board. -/
def WindowsFaithful (bspUartBase : ℕ) (gic uart : DeviceNode) : Prop :=
  ∀ p < 2 ^ 28,
    if p = bringUpPage ∧ ¬ BringUpCovered gic uart then
      DeclaredPage gic uart p → bspUartBase / size4KB = p
    else
      match lastAlias gic uart p with
      | none => ¬ DeclaredPage gic uart p
      | some q => DeclaredPage gic uart p ∧ q % 2 ^ 36 = p

/-- The page behind a page number, as it is permitted. -/
def permittedTarget (bspUartBase ipaBase hostPaBase sizeBytes : ℕ) (gic uart : DeviceNode) (p : ℕ) :
    Option Target :=
  if DeclaredPage gic uart p then some ⟨p, true⟩
  else if p = bringUpPage then some ⟨bspUartBase / size4KB, true⟩
  else ramTarget ipaBase hostPaBase sizeBytes p

/-- Permission is given page by page. -/
lemma permittedTranslation_eq {bspUartBase ipaBase hostPaBase sizeBytes : ℕ} {gic uart : DeviceNode}
    (hram : RamRange ipaBase hostPaBase sizeBytes) (ipa : ℕ) :
    permittedTranslation bspUartBase ipaBase hostPaBase sizeBytes gic uart ipa =
      (permittedTarget bspUartBase ipaBase hostPaBase sizeBytes gic uart (ipa / pageSize)).map
        fun τ => ⟨τ.page * pageSize + ipa % pageSize, stage2Attributes τ.device⟩ := by
  have hsizes : pageSize = size4KB := rfl
  have hipa : ipa / size4KB * size4KB + ipa % size4KB = ipa := Nat.div_add_mod' _ _
  rw [permittedTranslation, permittedTarget, hsizes]
  split
  case isTrue => rw [Option.map_some, hipa]
  case isFalse =>
    split
    case isTrue => rfl
    case isFalse =>
      obtain ⟨⟨a, ha⟩, ⟨b, hb⟩, ⟨n, hn⟩, -, -⟩ := hram
      have hin : (ipaBase / size4KB ≤ ipa / size4KB ∧
          ipa / size4KB < (ipaBase + sizeBytes) / size4KB) ↔
          ipaBase ≤ ipa ∧ ipa < ipaBase + sizeBytes := by
        unfold size2MB size4KB at *
        omega
      simp only [ramTarget, hin]
      split
      case isTrue h =>
        rw [Option.map_some, Option.some.injEq, Translation.mk.injEq]
        refine ⟨?_, rfl⟩
        unfold size2MB size4KB at *
        simp only
        omega
      case isFalse => rfl

/-- For one page, the tables give the permitted target exactly under the condition on the windows.
-/
lemma target_eq_iff {bspUartBase : ℕ} (ipaBase hostPaBase sizeBytes : ℕ) {gic uart : DeviceNode}
    (hnodes : ProperNodes gic uart) (p : ℕ) :
    (deviceTarget bspUartBase gic uart p).or (ramTarget ipaBase hostPaBase sizeBytes p) =
        permittedTarget bspUartBase ipaBase hostPaBase sizeBytes gic uart p ↔
      if p = bringUpPage ∧ ¬ BringUpCovered gic uart then
        DeclaredPage gic uart p → bspUartBase / size4KB = p
      else
        match lastAlias gic uart p with
        | none => ¬ DeclaredPage gic uart p
        | some q => DeclaredPage gic uart p ∧ q % 2 ^ 36 = p := by
  have hram : ∀ τ, ramTarget ipaBase hostPaBase sizeBytes p = some τ → τ.device = false := by
    intro τ hτ
    rw [ramTarget] at hτ
    split at hτ
    case isTrue =>
      rw [Option.some.injEq] at hτ
      rw [← hτ]
    case isFalse => exact absurd hτ (by simp)
  rw [deviceTarget, permittedTarget]
  by_cases hbring : p = bringUpPage ∧ ¬ BringUpCovered gic uart
  · rw [if_pos hbring, if_pos hbring, Option.some_or]
    by_cases hdecl : DeclaredPage gic uart p
    · simp [hdecl]
    · rw [if_neg hdecl, if_pos hbring.1]
      exact ⟨fun _ hcon => absurd hcon hdecl, fun _ => rfl⟩
  · -- an undeclared page that is not added is not the bring-up page
    have hne : ¬ DeclaredPage gic uart p → p ≠ bringUpPage := by
      rintro hdecl rfl
      have hcov : BringUpCovered gic uart := by
        by_contra hcov
        exact hbring ⟨rfl, hcov⟩
      exact hdecl (hcov.declaredPage hnodes)
    rw [if_neg hbring, if_neg hbring]
    cases hlast : lastAlias gic uart p with
    | none =>
      rw [Option.map_none, Option.none_or]
      by_cases hdecl : DeclaredPage gic uart p
      · rw [if_pos hdecl]
        refine ⟨fun heq => ?_, fun hcon => absurd hdecl hcon⟩
        exact absurd (hram _ heq) (by simp)
      · rw [if_neg hdecl, if_neg (hne hdecl)]
        exact ⟨fun _ => hdecl, fun _ => rfl⟩
    | some q =>
      rw [Option.map_some, Option.some_or]
      by_cases hdecl : DeclaredPage gic uart p
      · simp [hdecl]
      · rw [if_neg hdecl, if_neg (hne hdecl)]
        refine ⟨fun heq => ?_, fun hcon => absurd hcon.1 hdecl⟩
        exact absurd (hram _ heq.symm) (by simp)

/-- The tables of a guest translate every 40-bit address as permitted exactly when no page of a
declared window outside the 40-bit space decides what an address translates to. -/
theorem isolation_iff {bspUartBase root ipaBase hostPaBase sizeBytes : ℕ}
    {gic uart : DeviceNode} {devices : MmioMap} {st st' : Tables} (hnodes : ProperNodes gic uart)
    (hbsp : bspUartBase < 2 ^ 48) (hram : RamRange ipaBase hostPaBase sizeBytes)
    (hroot : RootPages root st) (hmmio : guestMmio bspUartBase gic uart = .ok devices)
    (hbuild : construct root ipaBase hostPaBase sizeBytes devices st = some st') :
    (∀ ipa < 2 ^ 40, hwWalk st'.mem root ipa =
        permittedTranslation bspUartBase ipaBase hostPaBase sizeBytes gic uart ipa) ↔
      WindowsFaithful bspUartBase gic uart := by
  have hwalk : ∀ ipa < 2 ^ 40, _ := fun ipa (hipa : ipa < 2 ^ 40) =>
    hwWalk_of_construct hnodes hbsp hram hroot hmmio hbuild hipa
  constructor
  · intro h p hp
    rw [← target_eq_iff ipaBase hostPaBase sizeBytes hnodes p]
    have hdiv : p * pageSize / pageSize = p := Nat.mul_div_cancel _ (by decide)
    have hpage := h (p * pageSize) (by unfold pageSize; omega)
    rw [hwalk _ (by unfold pageSize; omega), permittedTranslation_eq hram, hdiv] at hpage
    refine Option.map_injective ?_ hpage
    -- a translation determines the page and whether it is device memory
    rintro ⟨q, d⟩ ⟨q', d'⟩ heq
    simp only [Translation.mk.injEq] at heq
    obtain ⟨hpa, hattr⟩ := heq
    have hq : q = q' := by
      unfold pageSize at hpa
      omega
    rw [hq, stage2Attributes_injective hattr]
  · intro h ipa hipa
    have hp : ipa / pageSize < 2 ^ 28 := by
      unfold pageSize
      omega
    rw [hwalk ipa hipa, permittedTranslation_eq hram, (target_eq_iff _ _ _ hnodes _).mpr (h _ hp)]

/-- The pages of the declared windows are declared. -/
lemma declaredPage_of_mem_windowPages {gic uart : DeviceNode} (hnodes : ProperNodes gic uart)
    {q : ℕ} (h : q ∈ (declaredWindows gic uart).flatMap windowPages) : DeclaredPage gic uart q := by
  obtain ⟨window, hmem, hq⟩ := List.mem_flatMap.mp h
  obtain ⟨region, hregion, rfl⟩ := mem_declaredWindows.mp hmem
  have hproper := hnodes region hregion
  obtain ⟨hend, hpage⟩ := firstPage_add_pageCount hproper
  rw [windowPages, regionWindow_eq hproper] at hq
  obtain ⟨i, hi, rfl⟩ := List.mem_map.mp hq
  have hlt := List.mem_range.mp hi
  have hmod : pageCount region * size4KB % 2 ^ 64 ≤ pageCount region * size4KB := Nat.mod_le _ _
  simp only at hlt ⊢
  unfold size4KB at *
  rw [Nat.mul_div_cancel _ (by norm_num)]
  refine ⟨region, hregion, Nat.le_add_right _ _, ?_⟩
  unfold size4KB
  omega

/-- Windows inside the 40-bit space are faithful. -/
theorem windowsFaithful_of_le {bspUartBase : ℕ} {gic uart : DeviceNode}
    (hnodes : ProperNodes gic uart)
    (hle : ∀ region ∈ declaredRegions gic uart,
      region.base.toNat + region.size.toNat ≤ 2 ^ 40) : WindowsFaithful bspUartBase gic uart := by
  -- a declared page is a page of a window
  have hmem : ∀ p, DeclaredPage gic uart p →
      p ∈ (declaredWindows gic uart).flatMap windowPages := by
    rintro p ⟨region, hregion, hfirst, hlast⟩
    have hproper := hnodes region hregion
    obtain ⟨-, hpage⟩ := firstPage_add_pageCount hproper
    have hend := hle region hregion
    refine List.mem_flatMap.mpr ⟨_, mem_declaredWindows.mpr ⟨region, hregion, rfl⟩, ?_⟩
    rw [windowPages, regionWindow_eq hproper]
    refine List.mem_map.mpr ⟨p - firstPage region, List.mem_range.mpr ?_, ?_⟩
    · unfold size4KB at *
      simp only
      omega
    · unfold size4KB
      simp only
      omega
  have hlt : ∀ q, DeclaredPage gic uart q → q < 2 ^ 28 := by
    rintro q ⟨region, hregion, -, hlast⟩
    have hend := hle region hregion
    unfold size4KB at hlast
    omega
  have hcovered : DeclaredPage gic uart bringUpPage → BringUpCovered gic uart := by
    rintro ⟨region, hregion, hfirst, hlast⟩
    have hproper := hnodes region hregion
    obtain ⟨-, hpage⟩ := firstPage_add_pageCount hproper
    have hend := hle region hregion
    refine List.any_eq_true.mpr ⟨_, mem_declaredWindows.mpr ⟨region, hregion, rfl⟩, ?_⟩
    rw [regionWindow_eq hproper, decide_eq_true_iff]
    unfold bringUpPage kBringUpUartIpa add64 size4KB at *
    simp only
    omega
  intro p hp
  split
  case isTrue hbring =>
    rw [hbring.1]
    exact fun hdecl => absurd (hcovered hdecl) hbring.2
  case isFalse =>
    cases hlast : lastAlias gic uart p with
    | none =>
      intro hdecl
      have hnone := List.find?_eq_none.mp hlast p (List.mem_reverse.mpr (hmem p hdecl))
      rw [Nat.mod_eq_of_lt hp] at hnone
      exact hnone (by simp)
    | some q =>
      have hq := hlt q (declaredPage_of_mem_windowPages hnodes
        (List.mem_reverse.mp (List.mem_of_find?_eq_some hlast)))
      have hqp : q % 2 ^ 28 = p := by simpa using List.find?_some hlast
      rw [Nat.mod_eq_of_lt hq] at hqp
      subst hqp
      exact ⟨declaredPage_of_mem_windowPages hnodes
        (List.mem_reverse.mp (List.mem_of_find?_eq_some hlast)), Nat.mod_eq_of_lt (by omega)⟩

/-- A device with one region. -/
def oneRegion (base size : UInt64) : DeviceNode where
  regions := [⟨base, size⟩]
  isFound := true
  regionCount_le := Nat.le_of_ble_eq_true rfl

/-- A root at 64 KiB, and pages from 128 KiB on for further tables. -/
def guestPages : Tables where
  mem _ := 0
  supply := [0x20000, 0x21000, 0x22000, 0x23000, 0x24000, 0x25000, 0x26000, 0x27000]

/-- The root and the supply are disjoint pages. -/
lemma guestPages_rootPages : RootPages 0x10000 guestPages where
  root_dvd := by decide
  page := by
    have hall : ∀ p ∈ guestPages.supply,
        (pageSize ∣ p ∧ p < 2 ^ 48) ∧ p ≠ 0x10000 ∧ p ≠ 0x10000 + pageSize := by decide
    intro p hp
    obtain ⟨⟨hdvd, hlt⟩, hne⟩ := hall p hp
    exact ⟨⟨hdvd, hlt⟩, hne⟩
  nodup := by decide

/-- The guest of the QEMU board, with 2 MiB of RAM: the console at its own address, the bring-up
page at the console, RAM behind it, and nothing else. -/
theorem isolation_qemu_guest :
    ∃ devices st', guestMmio 0x9000000 (oneRegion 0x8000000 0x1000) (oneRegion 0x9000000 0x1000) =
        .ok devices ∧
      construct 0x10000 0x40000000 0x80000000 0x200000 devices guestPages = some st' ∧
      ∀ ipa < 2 ^ 40, hwWalk st'.mem 0x10000 ipa =
        permittedTranslation 0x9000000 0x40000000 0x80000000 0x200000
          (oneRegion 0x8000000 0x1000) (oneRegion 0x9000000 0x1000) ipa := by
  have hregions : ∀ region ∈ declaredRegions (oneRegion 0x8000000 0x1000)
      (oneRegion 0x9000000 0x1000), 0 < region.size.toNat ∧
        region.base.toNat + region.size.toNat ≤ 2 ^ 40 := by decide
  have hnodes : ProperNodes (oneRegion 0x8000000 0x1000) (oneRegion 0x9000000 0x1000) := by
    intro region hregion
    obtain ⟨hpos, hle⟩ := hregions region hregion
    exact ⟨hpos, by omega⟩
  have hsome : (construct 0x10000 0x40000000 0x80000000 0x200000
      ⟨[⟨0x8000000, 0x8000000, 0x1000, true⟩, ⟨0x9000000, 0x9000000, 0x1000, true⟩,
        ⟨0x107D001000, 0x9000000, 0x1000, true⟩]⟩ guestPages).isSome = true := by
    decide +kernel
  obtain ⟨st', hst'⟩ := Option.isSome_iff_exists.mp hsome
  have hmmio : guestMmio 0x9000000 (oneRegion 0x8000000 0x1000) (oneRegion 0x9000000 0x1000) =
      .ok ⟨[⟨0x8000000, 0x8000000, 0x1000, true⟩, ⟨0x9000000, 0x9000000, 0x1000, true⟩,
        ⟨0x107D001000, 0x9000000, 0x1000, true⟩]⟩ := by
    rw [guestMmio_eq]
    decide +kernel
  refine ⟨_, st', hmmio, hst', ?_⟩
  refine (isolation_iff hnodes (by norm_num) ?_ guestPages_rootPages hmmio hst').mpr
    (windowsFaithful_of_le hnodes fun region hregion => (hregions region hregion).2)
  exact ⟨by decide, by decide, by decide, by norm_num, by norm_num⟩

/-- A guest tree that puts the interrupt controller above the 48 bits of an output address: the
guest reaches the device at the truncated address, where nothing is declared and which also fits the
output size that is programmed. -/
theorem gic_above_ipa_space_is_reachable :
    ∃ devices st', guestMmio 0x9000000 (oneRegion 0x1000008000000 0x1000)
        (oneRegion 0x9000000 0x1000) = .ok devices ∧
      construct 0x10000 0x40000000 0x80000000 0x200000 devices guestPages = some st' ∧
      hwWalk st'.mem 0x10000 0x8000000 = some ⟨0x8000000, stage2Attributes true⟩ ∧
      permittedTranslation 0x9000000 0x40000000 0x80000000 0x200000
        (oneRegion 0x1000008000000 0x1000) (oneRegion 0x9000000 0x1000) 0x8000000 = none := by
  have hmmio : guestMmio 0x9000000 (oneRegion 0x1000008000000 0x1000)
      (oneRegion 0x9000000 0x1000) =
      .ok ⟨[⟨0x1000008000000, 0x1000008000000, 0x1000, true⟩,
        ⟨0x9000000, 0x9000000, 0x1000, true⟩, ⟨0x107D001000, 0x9000000, 0x1000, true⟩]⟩ := by
    rw [guestMmio_eq]
    decide +kernel
  have hrun : ((construct 0x10000 0x40000000 0x80000000 0x200000
      ⟨[⟨0x1000008000000, 0x1000008000000, 0x1000, true⟩, ⟨0x9000000, 0x9000000, 0x1000, true⟩,
        ⟨0x107D001000, 0x9000000, 0x1000, true⟩]⟩ guestPages).map fun st =>
        hwWalk st.mem 0x10000 0x8000000) = some (some ⟨0x8000000, stage2Attributes true⟩) := by
    decide +kernel
  obtain ⟨st', hst', hwalk⟩ := Option.map_eq_some_iff.mp hrun
  exact ⟨_, st', hmmio, hst', hwalk, by decide +kernel⟩

end DeviceTree

end HyperBerry
