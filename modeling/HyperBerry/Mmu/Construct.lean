import HyperBerry.Mmu.Mapping

/-!
# Building the tables of a guest

The constructor of `GuestMmu` as a sequence of mapping calls: the blocks of guest RAM first, then
the pages of every device window.  The windows are those `GetGuestMmio` collects: the declared
regions in order, each window once, and the bring-up console if its page is not covered.
-/

namespace HyperBerry

namespace GuestMmu

/-! ## The loops -/

/-- A loop over offsets runs its body once for each granule. -/
lemma offsetLoop_eq_range' {limit granule n : ℕ} (body : ℕ → Tables → Option Tables)
    (hg : 0 < granule) (hlimit : limit = n * granule) (hmax : limit + granule ≤ 2 ^ 64) :
    ∀ (fuel k : ℕ) (st : Tables), k ≤ n → n - k < fuel →
      offsetLoop limit granule body fuel (k * granule) st =
        (List.range' k (n - k)).foldlM (fun st i => body (i * granule) st) st := by
  intro fuel
  induction fuel with
  | zero =>
    intro k st _ hfuel
    omega
  | succ fuel ih =>
    intro k st hk hfuel
    rw [offsetLoop]
    by_cases hend : k = n
    · subst hend
      rw [if_neg (by rw [hlimit]; omega), Nat.sub_self]
      rfl
    · have hkn : k + 1 ≤ n := by omega
      have hmul : (k + 1) * granule ≤ n * granule := Nat.mul_le_mul_right _ hkn
      have hadd : (k + 1) * granule = k * granule + granule := by ring
      have hlt : k * granule < limit := by
        rw [hlimit]
        omega
      have hcount : n - k = (n - (k + 1)) + 1 := by omega
      rw [if_pos hlt, hcount, List.range'_succ, List.foldlM_cons, add64_of_lt (by omega), ← hadd]
      refine bind_congr fun st' => ?_
      exact ih (k + 1) st' hkn (by omega)

/-- A loop over offsets from the start. -/
lemma offsetLoop_eq {limit granule : ℕ} (body : ℕ → Tables → Option Tables) (hg : 0 < granule)
    (hdvd : granule ∣ limit) (hmax : limit + granule ≤ 2 ^ 64) (st : Tables) :
    offsetLoop limit granule body loopFuel 0 st =
      (List.range (limit / granule)).foldlM (fun st i => body (i * granule) st) st := by
  have hlimit : limit = limit / granule * granule := (Nat.div_mul_cancel hdvd).symm
  have hle : limit / granule ≤ limit := Nat.div_le_self _ _
  have h := offsetLoop_eq_range' body hg hlimit hmax loopFuel 0 st (Nat.zero_le _) (by
    rw [loopFuel]
    omega)
  rw [Nat.zero_mul, Nat.sub_zero] at h
  rw [h, List.range_eq_range']

/-- A step that returns keeps a property of the tables. -/
def Preserves (P : Tables → Prop) (f : Tables → Option Tables) : Prop :=
  ∀ ⦃st st' : Tables⦄, P st → f st = some st' → P st'

section Preserves

variable {P : Tables → Prop}

/-- A loop over offsets keeps what its body keeps. -/
lemma preserves_offsetLoop {limit granule : ℕ} {body : ℕ → Tables → Option Tables}
    (hbody : ∀ off, Preserves P (body off)) :
    ∀ fuel off, Preserves P (offsetLoop limit granule body fuel off) := by
  intro fuel
  induction fuel with
  | zero => exact fun off st st' _ h => nomatch h
  | succ fuel ih =>
    intro off st st' hst h
    rw [offsetLoop] at h
    split_ifs at h
    · obtain ⟨st₁, hfirst, hrest⟩ := Option.bind_eq_some_iff.mp h
      exact ih _ (hbody off hst hfirst) hrest
    · obtain rfl := Option.some.inj h
      exact hst

/-- Steps one after the other keep what each of them keeps. -/
lemma preserves_foldlM {ι : Type} {f : ι → Tables → Option Tables} (hf : ∀ i, Preserves P (f i))
    (l : List ι) : Preserves P fun st => l.foldlM (fun st i => f i st) st := by
  induction l with
  | nil =>
    intro st st' hst h
    obtain rfl := Option.some.inj h
    exact hst
  | cons i l ih =>
    intro st st' hst h
    dsimp only at h
    rw [List.foldlM_cons] at h
    obtain ⟨st₁, hfirst, hrest⟩ := Option.bind_eq_some_iff.mp h
    exact ih (hf i hst hfirst) hrest

/-- The constructor keeps what mapping a block or a page keeps, once the root is clear. -/
lemma preserves_construct {root ipaBase hostPaBase sizeBytes : ℕ} {devices : MmioMap}
    {st st' : Tables} (hblock : ∀ ipa pa isDevice,
    Preserves P (mapBlock (stage2Table root) ipa pa isDevice))
    (hpage : ∀ ipa pa isDevice, Preserves P (mapPage (stage2Table root) ipa pa isDevice))
    (hst : P (st.clear root kStage2RootSize))
    (h : construct root ipaBase hostPaBase sizeBytes devices st = some st') : P st' := by
  have hwindow (window : MmioWindow) : Preserves P (mapWindow (stage2Table root) window) := by
    refine preserves_offsetLoop (fun off => ?_) _ _
    cases window.byPage
    · exact hblock _ _ _
    · exact hpage _ _ _
  obtain ⟨st₁, hroot, hrest⟩ := Option.bind_eq_some_iff.mp h
  obtain ⟨st₂, hram, hwindows⟩ := Option.bind_eq_some_iff.mp hrest
  rw [allocStage2RootTable] at hroot
  split_ifs at hroot
  obtain rfl := Option.some.inj hroot
  refine preserves_foldlM hwindow devices.windows ?_ hwindows
  exact preserves_offsetLoop (fun off => hblock _ _ _) _ _ hst hram

end Preserves

/-! ## The calls of the constructor -/

/-- The calls that map guest RAM. -/
def ramCalls (ipaBase hostPaBase sizeBytes : ℕ) : List MapCall :=
  (List.range (sizeBytes / size2MB)).map fun i =>
    .block (add64 ipaBase (i * size2MB)) (add64 hostPaBase (i * size2MB)) false

/-- The calls that map a window in pages. -/
def windowCalls (window : MmioWindow) : List MapCall :=
  (List.range (window.size / size4KB)).map fun i =>
    .page (add64 window.base (i * size4KB)) (add64 window.pa (i * size4KB)) true

/-- A window of whole pages. -/
structure PageWindow (window : MmioWindow) : Prop where
  /-- The window is mapped in pages. -/
  byPage : window.byPage = true
  /-- The size is a multiple of the page size. -/
  dvd : size4KB ∣ window.size
  /-- The size is a 64-bit number. -/
  lt : window.size < 2 ^ 64

/-- Mapping a window makes its calls. -/
lemma mapWindow_eq {root : ℕ} {window : MmioWindow} (h : PageWindow window) (st : Tables) :
    mapWindow (stage2Table root) window st = runCalls root (windowCalls window) st := by
  have hmax : window.size + size4KB ≤ 2 ^ 64 := by
    obtain ⟨k, hk⟩ := h.dvd
    have hlt := h.lt
    unfold size4KB at *
    omega
  simp only [mapWindow, h.byPage, if_true]
  rw [offsetLoop_eq _ (by decide) h.dvd hmax, runCalls, windowCalls, List.foldlM_map]
  rfl

/-- Mapping a list of windows makes their calls one after the other. -/
lemma foldlM_mapWindow {root : ℕ} {windows : List MmioWindow}
    (h : ∀ window ∈ windows, PageWindow window) (st : Tables) :
    windows.foldlM (fun st window => mapWindow (stage2Table root) window st) st =
      runCalls root (windows.flatMap windowCalls) st := by
  induction windows generalizing st with
  | nil => rfl
  | cons window windows ih =>
    rw [List.foldlM_cons, List.flatMap_cons, runCalls, List.foldlM_append,
      mapWindow_eq (h window List.mem_cons_self)]
    refine bind_congr fun st' => ?_
    exact ih (fun w hw => h w (List.mem_cons_of_mem _ hw)) st'

/-- The constructor clears the root and makes the calls for RAM and for the windows. -/
lemma construct_eq {root ipaBase hostPaBase sizeBytes : ℕ} {devices : MmioMap} (st : Tables)
    (hroot : root ≠ 0) (hdvd : size2MB ∣ sizeBytes) (hsize : sizeBytes ≤ 2 ^ 40)
    (h : ∀ window ∈ devices.windows, PageWindow window) :
    construct root ipaBase hostPaBase sizeBytes devices st =
      runCalls root (ramCalls ipaBase hostPaBase sizeBytes ++ devices.windows.flatMap windowCalls)
        (st.clear root kStage2RootSize) := by
  have hmax : sizeBytes + size2MB ≤ 2 ^ 64 := by
    unfold size2MB
    omega
  simp only [construct, allocStage2RootTable, if_neg hroot, Option.bind_eq_bind, Option.bind_some]
  rw [offsetLoop_eq _ (by decide) hdvd hmax, runCalls, List.foldlM_append, ramCalls,
    List.foldlM_map]
  exact congrArg (Option.bind _) (funext fun st' => foldlM_mapWindow h st')

end GuestMmu

/-! ## The windows of a guest -/

namespace DeviceTree

open GuestMmu

/-- The regions a guest may reach: the first two of the interrupt controller and the first of the
console. -/
def declaredRegions (gic uart : DeviceNode) : List DeviceRegion :=
  (if gic.isFound then gic.regions.take 2 else []) ++
    (if uart.isFound then uart.regions.take 1 else [])

/-- The identity window of a region. -/
def regionWindow (region : DeviceRegion) : MmioWindow :=
  MmioMap.pageWindow region.base.toNat region.base.toNat region.size.toNat

/-- Append a window unless it is there already. -/
def addWindow (windows : List MmioWindow) (window : MmioWindow) : List MmioWindow :=
  if window ∈ windows then windows else windows ++ [window]

/-- The windows of the declared regions, each once. -/
def declaredWindows (gic uart : DeviceNode) : List MmioWindow :=
  ((declaredRegions gic uart).map regionWindow).foldl addWindow []

/-- The window of the bring-up console. -/
def bringUpWindow (bspUartBase : ℕ) : MmioWindow :=
  MmioMap.pageWindow kBringUpUartIpa bspUartBase size4KB

/-- Adding to a map that has room. -/
lemma addPagesOrPanic_eq {map : MmioMap} (ipa pa size : ℕ) (message : String)
    (h : map.windows.length < mmioMaxWindows) :
    addPagesOrPanic map ipa pa size message =
      .ok ⟨addWindow map.windows (MmioMap.pageWindow ipa pa size)⟩ := by
  rw [addPagesOrPanic, MmioMap.addPages, MmioMap.add, addWindow]
  by_cases hmem : MmioMap.pageWindow ipa pa size ∈ map.windows
  · simp [hmem]
  · simp [hmem, Nat.ne_of_lt h]

/-- Each addition holds at most one more window. -/
lemma length_foldl_addWindow_le (windows added : List MmioWindow) :
    (added.foldl addWindow windows).length ≤ windows.length + added.length := by
  induction added generalizing windows with
  | nil => exact le_rfl
  | cons window added ih =>
    have hone : (addWindow windows window).length ≤ windows.length + 1 := by
      rw [addWindow]
      split
      case isTrue => exact Nat.le_succ _
      case isFalse => simp
    have hrest := ih (addWindow windows window)
    rw [List.foldl_cons, List.length_cons]
    omega

/-- Only windows that were there or were added are in the result. -/
lemma mem_foldl_addWindow {windows added : List MmioWindow} {window : MmioWindow} :
    window ∈ added.foldl addWindow windows ↔ window ∈ windows ∨ window ∈ added := by
  induction added generalizing windows with
  | nil => simp
  | cons w added ih =>
    rw [List.foldl_cons, ih, List.mem_cons]
    have hone : window ∈ addWindow windows w ↔ window ∈ windows ∨ window = w := by
      rw [addWindow]
      split
      case isTrue hmem =>
        refine ⟨Or.inl, ?_⟩
        rintro (h | rfl)
        · exact h
        · exact hmem
      case isFalse => simp
    rw [hone, or_assoc]

/-- Adding the windows of a list of regions to a map that has room for them. -/
lemma foldlM_addPagesOrPanic (message : String) (regions : List DeviceRegion) (map : MmioMap)
    (h : map.windows.length + regions.length ≤ mmioMaxWindows) :
    regions.foldlM (fun map region =>
      addPagesOrPanic map region.base.toNat region.base.toNat region.size.toNat message) map =
      .ok ⟨(regions.map regionWindow).foldl addWindow map.windows⟩ := by
  induction regions generalizing map with
  | nil => rfl
  | cons region regions ih =>
    rw [List.length_cons] at h
    have hone := length_foldl_addWindow_le map.windows [regionWindow region]
    rw [List.foldl_cons, List.foldl_nil, List.length_singleton] at hone
    rw [List.foldlM_cons, addPagesOrPanic_eq _ _ _ _ (by omega)]
    exact ih _ (by simp only; unfold regionWindow at hone; omega)

/-- At most `n` regions of a device are used. -/
lemma length_ite_take_le (isFound : Bool) (regions : List DeviceRegion) (n : ℕ) :
    (if isFound then regions.take n else []).length ≤ n := by
  split
  · exact List.length_take_le n _
  · exact Nat.zero_le _

/-- `GetGuestMmio` never panics, and returns the windows of the declared regions, followed by that
of the bring-up console if its page is not covered. -/
theorem guestMmio_eq (bspUartBase : ℕ) (gic uart : DeviceNode) :
    guestMmio bspUartBase gic uart = .ok
      (if MmioMap.covers ⟨declaredWindows gic uart⟩ kBringUpUartIpa then ⟨declaredWindows gic uart⟩
        else ⟨addWindow (declaredWindows gic uart) (bringUpWindow bspUartBase)⟩) := by
  have hgic : addGuestGic {} gic = .ok
      ⟨((if gic.isFound then gic.regions.take 2 else []).map regionWindow).foldl addWindow []⟩ := by
    rw [addGuestGic]
    cases hf : gic.isFound with
    | false => simp
    | true =>
      cases hr : gic.regions with
      | nil => simp
      | cons region regions =>
        simp only [Bool.true_eq_false, reduceCtorEq, or_self, if_false, if_true]
        refine foldlM_addPagesOrPanic _ _ _ ?_
        have := List.length_take_le 2 (region :: regions)
        simp only [List.length_nil, mmioMaxWindows]
        omega
  have huart : addGuestUart ⟨((if gic.isFound then gic.regions.take 2 else []).map
      regionWindow).foldl addWindow []⟩ uart = .ok ⟨declaredWindows gic uart⟩ := by
    rw [addGuestUart, declaredWindows, declaredRegions, List.map_append, List.foldl_append]
    cases hf : uart.isFound with
    | false => simp
    | true =>
      cases hr : uart.regions with
      | nil => simp
      | cons region regions =>
        simp only [Bool.true_eq_false, if_false, if_true, List.take_succ_cons, List.take_zero,
          List.map_cons, List.map_nil, List.foldl_cons, List.foldl_nil]
        refine addPagesOrPanic_eq _ _ _ _ ?_
        have hle := length_foldl_addWindow_le []
          ((if gic.isFound then gic.regions.take 2 else []).map regionWindow)
        have h2 := length_ite_take_le gic.isFound gic.regions 2
        simp only [List.length_map, List.length_nil, mmioMaxWindows] at hle ⊢
        omega
  have hlen : (declaredWindows gic uart).length < mmioMaxWindows := by
    have hle := length_foldl_addWindow_le [] ((declaredRegions gic uart).map regionWindow)
    have h3 : (declaredRegions gic uart).length ≤ 3 := by
      rw [declaredRegions, List.length_append]
      have h2 := length_ite_take_le gic.isFound gic.regions 2
      have h1 := length_ite_take_le uart.isFound uart.regions 1
      omega
    rw [List.length_map, List.length_nil] at hle
    unfold declaredWindows mmioMaxWindows
    omega
  rw [guestMmio, hgic]
  change (addGuestUart _ uart).bind _ = _
  rw [huart]
  change addBringUpUart _ bspUartBase = _
  rw [addBringUpUart]
  split
  case isTrue => rfl
  case isFalse => exact addPagesOrPanic_eq _ _ _ _ hlen

end DeviceTree

end HyperBerry
