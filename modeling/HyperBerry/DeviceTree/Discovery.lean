import HyperBerry.DeviceTree.Archive
import HyperBerry.DeviceTree.Bspgen

/-!
# Discovery at build time and at run time

The addresses of the console and of the interrupt controller are found twice: `bspgen` emits them as
constants, and `FindDevice` reads them from the tree at boot, where `GetHostMmio` compares the two.
The searches go different ways.  The script takes the first compatible node in document order,
whatever its `reg`; `FindDevice` takes the first compatible node whose `reg` is usable, in the order
in which the nodes are completed.  `SameRegions` says for which trees both ways lead to the same
regions.
-/

namespace HyperBerry

namespace DeviceTree

open Memory Bspgen

/-! ## Numbers that fit -/

/-- The numbers in the `ranges` of a bus are below `2 ^ 64`. -/
def RangesBelow (bus parent : Level) : Prop :=
  ∀ r ∈ exactRanges bus parent, r.child < 2 ^ 64 ∧ r.parent < 2 ^ 64 ∧ r.length < 2 ^ 64

instance (bus parent : Level) : Decidable (RangesBelow bus parent) :=
  inferInstanceAs (Decidable (∀ r ∈ exactRanges bus parent, _))

/-- An address and what it is translated to are below `2 ^ 64`, from the innermost bus up, and so
are the numbers in the `ranges` on the way. -/
def UpBelow : List Level → ℕ → Prop
  | bus :: parent :: around, addr => addr < 2 ^ 64 ∧ RangesBelow bus parent ∧
      UpBelow (parent :: around) (exactThrough (exactRanges bus parent) addr)
  | _, addr => addr < 2 ^ 64

instance decidableUpBelow : (around : List Level) → (addr : ℕ) → Decidable (UpBelow around addr)
  | bus :: parent :: around, addr =>
    have := decidableUpBelow (parent :: around) (exactThrough (exactRanges bus parent) addr)
    inferInstanceAs (Decidable (_ ∧ _ ∧ _))
  | [_], addr => inferInstanceAs (Decidable (addr < 2 ^ 64))
  | [], addr => inferInstanceAs (Decidable (addr < 2 ^ 64))

/-- Every address, size and translated sum of the `reg` of a node is below `2 ^ 64`. -/
def Below64 : List Level → Prop
  | [] => True
  | level :: around => 4 * regCellCount around ∣ level.reg.length →
      ∀ i < regCount level around,
        UpBelow around (exactBase level around i) ∧ exactSize level around i < 2 ^ 64

instance : (levels : List Level) → Decidable (Below64 levels)
  | [] => .isTrue trivial
  | _ :: _ => inferInstanceAs (Decidable (_ → _))

section Numbers

variable {bus parent level : Level} {around levels : List Level} {addr : ℕ}

/-- Where the numbers fit, the entries of `ranges` are exact. -/
lemma rangeEntries_exact (h : RangesBelow bus parent) :
    rangeEntries bus parent = exactRanges bus parent := by
  rw [RangesBelow, exactRanges] at h
  rw [rangeEntries, exactRanges]
  split_ifs at h ⊢ with hdvd
  · refine List.map_congr_left fun i hi => ?_
    obtain ⟨hchild, hparent, hlength⟩ := h _ (List.mem_map_of_mem hi)
    rw [rangeAt, exactRange, RangeEntry.mk.injEq]
    exact ⟨Nat.mod_eq_of_lt hchild, Nat.mod_eq_of_lt hparent, Nat.mod_eq_of_lt hlength⟩
  · rfl

/-- Where the sum fits, an address is translated exactly. -/
lemma throughRanges_exact {entries : List RangeEntry} (h : exactThrough entries addr < 2 ^ 64) :
    throughRanges entries addr = exactThrough entries addr := by
  rw [throughRanges, exactThrough] at *
  cases hfind : entries.find? fun r => r.Maps addr with
  | none => rfl
  | some r =>
    rw [hfind] at h
    exact Nat.mod_eq_of_lt h

/-- The address is the first of the numbers that fit. -/
lemma UpBelow.lt (h : UpBelow around addr) : addr < 2 ^ 64 := by
  match around, h with
  | [], h => exact h
  | [_], h => exact h
  | _ :: _ :: _, h => exact h.1

/-- Where all sums fit, an address is translated exactly, and fits. -/
lemma translateUp_exact (h : UpBelow around addr) :
    translateUp around addr = exactUp around addr ∧ exactUp around addr < 2 ^ 64 := by
  induction around generalizing addr with
  | nil => exact ⟨rfl, h⟩
  | cons bus around ih =>
    cases around with
    | nil => exact ⟨rfl, h⟩
    | cons parent around =>
      obtain ⟨-, hranges, hup⟩ := h
      rw [translateUp, rangeEntries_exact hranges, throughRanges_exact hup.lt]
      exact ih hup

/-- A region as two numbers. -/
def regionPair (region : DeviceRegion) : ℕ × ℕ := (region.base.toNat, region.size.toNat)

/-- The regions that are decoded from a device with whole entries are the first eight that it
declares. -/
lemma regionsOf_exact (hdvd : 4 * regCellCount around ∣ level.reg.length)
    (h : Below64 (level :: around)) :
    (regionsOf (level :: around)).map regionPair =
      (declared (level :: around)).take dtMaxRegions := by
  rw [regionsOf, declared, if_pos hdvd, List.map_take, List.map_map]
  congr 1
  refine List.map_congr_left fun i hi => ?_
  obtain ⟨hup, hsize⟩ := h hdvd i (List.mem_range.mp hi)
  have hbase : regBase level around i = exactBase level around i := Nat.mod_eq_of_lt hup.lt
  obtain ⟨htranslate, hlt⟩ := translateUp_exact hup
  refine Prod.ext ?_ ?_
  · rw [Function.comp_apply, regionPair, regionAt, hbase, htranslate]
    exact UInt64.toNat_ofNat_of_lt' hlt
  · rw [Function.comp_apply, regionPair, regionAt]
    have hcells : cellsAt level.reg (i * regCellCount around + (parentCells around).1)
        (parentCells around).2 = exactSize level around i := Nat.mod_eq_of_lt hsize
    rw [hcells]
    exact UInt64.toNat_ofNat_of_lt' hsize

/-- The entries of a decodable device fill its `reg`. -/
lemma dvd_of_isDevice (hdevice : IsDevice (level :: around)) (h : Decodable (level :: around)) :
    4 * regCellCount around ∣ level.reg.length := by
  have hstride : entryStride around = 4 * regCellCount around := by
    rw [entryStride, Nat.mul_comm]
    exact Nat.mod_eq_of_lt h.1
  rw [← hstride]
  exact Nat.dvd_of_mod_eq_zero hdevice.2.2.2

/-- A device whose entries fill its `reg` declares a region. -/
lemma declared_ne_nil (hdvd : 4 * regCellCount around ∣ level.reg.length) (hreg : level.reg ≠ []) :
    declared (level :: around) ≠ [] := by
  have hpos := List.length_pos_iff.mpr hreg
  have hcount : 0 < regCount level around :=
    Nat.div_pos (Nat.le_of_dvd hpos hdvd) (Nat.pos_of_dvd_of_pos hdvd hpos)
  rw [declared, if_pos hdvd]
  simp [hcount.ne']

end Numbers

/-! ## The two searches -/

/-- The element is the first one of the list with the property. -/
def FirstOf {α : Type} (p : α → Prop) (xs : List α) (x : α) : Prop :=
  ∃ before after, xs = before ++ x :: after ∧ p x ∧ ∀ y ∈ before, ¬ p y

/-- A search finds the first one. -/
lemma firstOf_iff {α : Type} {p : α → Prop} [DecidablePred p] {xs : List α} {x : α} :
    FirstOf p xs x ↔ xs.find? (fun x => p x) = some x := by
  rw [List.find?_eq_some_iff_append]
  simp only [decide_eq_true_eq, Bool.not_eq_true', decide_eq_false_iff_not]
  constructor
  · rintro ⟨before, after, hxs, hx, hbefore⟩
    exact ⟨hx, before, after, hxs, hbefore⟩
  · rintro ⟨hx, before, after, hxs, hbefore⟩
    exact ⟨before, after, hxs, hx, hbefore⟩

/-- The first one has the property. -/
lemma FirstOf.holds {α : Type} {p : α → Prop} {xs : List α} {x : α} (h : FirstOf p xs x) : p x := by
  obtain ⟨_, _, _, hx, _⟩ := h
  exact hx

/-- The devices of the hypervisor that are found twice. -/
inductive HostDevice
  /-- The console. -/
  | uart
  /-- The interrupt controller. -/
  | gic

/-- The strings that `bspgen` looks for. -/
def HostDevice.generated : HostDevice → List (List UInt8)
  | .uart => uartCompatible
  | .gic => gicCompatible

/-- The strings that `FindDevice` looks for. -/
def HostDevice.parsed : HostDevice → List (List UInt8)
  | .uart => kUartCompatible
  | .gic => kGicCompatible

/-- The lists of the script and of the parser have the same strings. -/
lemma HostDevice.generated_eq (device : HostDevice) : device.generated = device.parsed := by
  cases device <;> rfl

/-- None of the strings is empty. -/
lemma HostDevice.nil_not_mem (device : HostDevice) : [] ∉ device.generated := by
  cases device <;> decide

/-- The last compatible list of the innermost node names the device. -/
def IsListed (device : HostDevice) : Scope → Prop
  | [] => False
  | props :: _ => (readLevel device.generated props).matched = true

instance (device : HostDevice) : DecidablePred (IsListed device)
  | [] => instDecidableFalse
  | _ :: _ => inferInstanceAs (Decidable (_ = true))

/-- The nodes around a node and itself, as `FindDevice` reads them. -/
def parsedLevels (device : HostDevice) (scope : Scope) : List Level :=
  scope.map (foldLevel device.parsed)

/-- The nodes around a node and itself, as the script reads them. -/
def generatedLevels (device : HostDevice) (scope : Scope) : List Level :=
  scope.map (readLevel device.generated)

/-- The innermost node closes as the device. -/
def ClosesAsDevice (device : HostDevice) (scope : Scope) : Prop :=
  IsDevice (parsedLevels device scope)

instance (device : HostDevice) : DecidablePred (ClosesAsDevice device) := fun scope =>
  inferInstanceAs (Decidable (IsDevice (parsedLevels device scope)))

/-- Both searches lead to the same regions.  Either no node closes as the device, and the first node
in document order that names it, if there is one, declares no regions; or the first node in document
order that names it declares the same first eight regions as the first node that closes as the
device, whose entries are short enough to be decoded. -/
inductive SameRegions (device : HostDevice) (t : Tree) : Prop
  | absent (hclosed : ∀ scope ∈ t.completed [], ¬ ClosesAsDevice device scope)
      (hlisted : ∀ scope, FirstOf (IsListed device) (walk [] t) scope →
        declared (generatedLevels device scope) = [])
  | present (listed closed : Scope) (hlisted : FirstOf (IsListed device) (walk [] t) listed)
      (hclosed : FirstOf (ClosesAsDevice device) (t.completed []) closed)
      (hdecodable : Decodable (parsedLevels device closed))
      (hregions : (declared (generatedLevels device listed)).take dtMaxRegions =
        (declared (parsedLevels device closed)).take dtMaxRegions)

/-- `bspgen` and `FindDevice` agree: `FindDevice` reads only inside of the properties and returns
the first eight regions of the script, and finds the device if there are any. -/
def Agrees (m : Memory) (dtb : ℕ) (t : Tree) (device : HostDevice) : Prop :=
  Safe (findDeviceRun m dtb device.parsed) ∧
    ∃ node, (findDevice m dtb device.parsed).result = .ok node ∧
      node.regions.map regionPair = (regions t device.generated).take dtMaxRegions ∧
      (node.isFound = true ↔ regions t device.generated ≠ [])

section Searches

variable {m : Memory} {dtb : ℕ} {t : Tree} {device : HostDevice}

/-- The script takes the first node in document order that names the device. -/
lemma find_eq (t : Tree) (device : HostDevice) :
    find t device.generated = (walk [] t).find? fun scope => IsListed device scope := by
  rw [find]
  refine List.find?_congr fun scope _ => ?_
  cases scope with
  | nil => rfl
  | cons props around =>
    rw [isWanted_eq device.nil_not_mem]
    exact Bool.decide_eq_true.symm

/-- The regions of the script. -/
lemma regions_eq (t : Tree) (device : HostDevice) :
    regions t device.generated =
      ((walk [] t).find? fun scope => IsListed device scope).elim [] fun scope =>
        declared (generatedLevels device scope) := by
  rw [regions, find_eq]
  congr 1
  funext scope
  exact readReg_eq device.generated scope

/-- The first device in the order of completion, as `FindDevice` reads the tree. -/
def closedDevice (device : HostDevice) (t : Tree) : Option Scope :=
  (t.completed []).find? fun scope => ClosesAsDevice device scope

/-- The walk stops at the first device in the order of completion. -/
lemma deviceLevels_closed {l : List (ℕ × Token)} {last : ℕ} (hl : eventsIn l = t.events) :
    deviceLevels device.parsed [] (l ++ [(last, .finish)]) =
      (closedDevice device t).map (parsedLevels device) := by
  have hevents : eventsIn (l ++ [(last, .finish)]) = t.events ++ [] := by
    rw [eventsIn, List.filterMap_append, ← eventsIn, hl]
    rfl
  have hdevice : deviceIn device.parsed _ _ = _ := deviceIn_events [] [] t
  rw [List.map_nil, deviceIn, Option.or_none, List.find?_map] at hdevice
  rw [deviceLevels_eq, hevents, hdevice]
  rfl

/-- A blob that serialises a tree tells about it. -/
lemma Serialises.tells (h : Serialises m dtb t) :
    Tells m dtb t.events := by
  obtain ⟨f, l, last, hv, -, hrest⟩ := h.exists_tokens
  exact ⟨f, l, last, hv, hrest⟩

/-- Validation accepts a tree that is not too tall. -/
lemma validateHeader_of_tells (h : Tells m dtb t.events) (ht : t.height ≤ maxDepth) :
    (validateHeader m dtb).result = .ok () := by
  obtain ⟨f, l, last, hv, hal, hl, hfin, hevents⟩ := h
  rw [validateHeader_of_tokens hv hl (balanced_of_events hfin hevents)
    ((nesting_of_events hevents).le.trans ht) (.inl hal)]

/-- On a tree that validation accepts, `FindDevice` is safe if the first device in the order of
completion is decodable, and then returns it. -/
lemma returns_closedDevice (h : Tells m dtb t.events)
    (hvalid : (validateHeader m dtb).result = .ok ()) (device : HostDevice) :
    Returns (findDeviceRun m dtb device.parsed)
      (∀ scope, closedDevice device t = some scope → Decodable (parsedLevels device scope))
      (deviceNode ((closedDevice device t).map (parsedLevels device))) := by
  obtain ⟨f, l, last, hv, hal, hl, hfin, hevents⟩ := h
  have hbal : DeviceTree.Balanced [] (l ++ [(last, .finish)]) := balanced_of_events hfin hevents
  have hnest : nesting [] (l ++ [(last, .finish)]) ≤ maxDepth := by
    by_contra hdeep
    rw [validateHeader_of_deep hv hl hbal (by omega) hal] at hvalid
    cases hvalid
  obtain ⟨r, hr, hfound⟩ := findWalk_found device.parsed hv hl hbal hnest (.inl hal)
  have hreturns := returns_findDevice hr hfound fun levels => isDevice_of_deviceLevels
  rw [deviceLevels_closed hevents] at hreturns
  refine hreturns.congr ?_
  simp

/-- What is decoded from a decodable device are the first eight regions that it declares, and it
declares some. -/
lemma regionsOf_closed {scope : Scope} (hclosed : ClosesAsDevice device scope)
    (hdecodable : Decodable (parsedLevels device scope))
    (hbelow : Below64 (parsedLevels device scope)) :
    (regionsOf (parsedLevels device scope)).map regionPair =
        (declared (parsedLevels device scope)).take dtMaxRegions ∧
      declared (parsedLevels device scope) ≠ [] := by
  cases scope with
  | nil => exact absurd hclosed id
  | cons props around =>
    have hdvd := dvd_of_isDevice hclosed hdecodable
    exact ⟨regionsOf_exact hdvd hbelow, declared_ne_nil hdvd hclosed.2.1⟩

/-- Where no node closes as the device, the script must find no regions either. -/
lemma agrees_iff_of_none (h : Tells m dtb t.events)
    (hvalid : (validateHeader m dtb).result = .ok ())
    (hnone : closedDevice device t = none) : Agrees m dtb t device ↔ SameRegions device t := by
  have hreturns := returns_closedDevice h hvalid device
  have hclosed : ∀ scope ∈ t.completed [], ¬ ClosesAsDevice device scope := by
    simpa [closedDevice] using hnone
  rw [hnone] at hreturns
  have hresult := hreturns.result (by simp)
  rw [Agrees, hreturns.safe_iff, ← result_findDeviceRun, regions_eq]
  constructor
  · rintro ⟨-, node, hnode, -, hfound⟩
    obtain rfl := Except.ok.inj (hresult.symm.trans hnode)
    refine .absent hclosed fun scope hscope => ?_
    rw [firstOf_iff.mp hscope] at hfound
    by_contra hne
    exact Bool.false_ne_true (hfound.mpr hne)
  · rintro (⟨-, hlisted⟩ | ⟨listed, closed, -, hfirst, -, -⟩)
    · have hnil : (((walk [] t).find? fun scope => IsListed device scope).elim []
          fun scope => declared (generatedLevels device scope)) = [] := by
        cases hfind : (walk [] t).find? fun scope => IsListed device scope with
        | none => rfl
        | some scope => exact hlisted scope (firstOf_iff.mpr hfind)
      refine ⟨by simp, _, hresult, ?_, ?_⟩
      · rw [hnil]
        rfl
      · rw [hnil]
        simp [deviceNode]
    · exact absurd (hnone.symm.trans (firstOf_iff.mp hfirst)) (by simp)

/-- Where a node closes as the device, the script must find the regions that it declares. -/
lemma agrees_iff_of_some {closed : Scope} (h : Tells m dtb t.events)
    (hvalid : (validateHeader m dtb).result = .ok ())
    (hbelow : ∀ scope ∈ t.completed [], Below64 (parsedLevels device scope))
    (hsome : closedDevice device t = some closed) :
    Agrees m dtb t device ↔ SameRegions device t := by
  have hreturns := returns_closedDevice h hvalid device
  rw [hsome] at hreturns
  have hfirst : FirstOf (ClosesAsDevice device) (t.completed []) closed := firstOf_iff.mpr hsome
  have hmem := List.mem_of_find?_eq_some hsome
  have hclosed := hfirst.holds
  rw [Agrees, hreturns.safe_iff, ← result_findDeviceRun, regions_eq]
  constructor
  · rintro ⟨hsafe, node, hnode, hregions, hfound⟩
    obtain rfl := Except.ok.inj ((hreturns.result hsafe).symm.trans hnode)
    have hdecodable := hsafe closed rfl
    obtain ⟨hdecoded, -⟩ := regionsOf_closed hclosed hdecodable (hbelow closed hmem)
    cases hfind : (walk [] t).find? fun scope => IsListed device scope with
    | none =>
      rw [hfind] at hfound
      exact absurd rfl (hfound.mp rfl)
    | some listed =>
      rw [hfind] at hregions
      exact .present listed closed (firstOf_iff.mpr hfind) hfirst hdecodable
        (hregions.symm.trans hdecoded)
  · rintro (⟨hnone, -⟩ | ⟨listed, closed', hlisted, hfirst', hdecodable, hregions⟩)
    · exact absurd hclosed (hnone closed hmem)
    · obtain rfl := Option.some.inj (hsome.symm.trans (firstOf_iff.mp hfirst'))
      obtain ⟨hdecoded, hne⟩ := regionsOf_closed hclosed hdecodable (hbelow closed hmem)
      have hsafe : ∀ scope, some closed = some scope → Decodable (parsedLevels device scope) := by
        rintro scope ⟨⟩
        exact hdecodable
      refine ⟨hsafe, _, hreturns.result hsafe, ?_, ?_⟩
      · rw [firstOf_iff.mp hlisted]
        exact hdecoded.trans hregions.symm
      · rw [firstOf_iff.mp hlisted]
        refine iff_of_true rfl fun hnil => hne ?_
        rw [Option.elim_some] at hnil
        rw [hnil, List.take_nil] at hregions
        simpa [dtMaxRegions] using hregions.symm

/-- `FindDevice` and the script agree exactly on the trees where both searches lead to the same
regions. -/
lemma agrees_iff (h : Tells m dtb t.events) (hvalid : (validateHeader m dtb).result = .ok ())
    (hbelow : ∀ scope ∈ t.completed [], Below64 (parsedLevels device scope)) :
    Agrees m dtb t device ↔ SameRegions device t := by
  cases hclosed : closedDevice device t with
  | none => exact agrees_iff_of_none h hvalid hclosed
  | some closed => exact agrees_iff_of_some h hvalid hbelow hclosed

end Searches

/-! ## Trees with one node for a device -/

mutual

/-- Document order and the order of completion have the same nodes. -/
theorem mem_walk {scope : Scope} (around : Scope) :
    (t : Tree) → (scope ∈ walk around t ↔ scope ∈ t.completed around)
  | .node name props children => by
    rw [walk, Tree.completed, List.mem_cons, List.mem_append, List.mem_singleton,
      mem_walkOf, or_comm]

/-- The same for some trees. -/
theorem mem_walkOf {scope : Scope} (around : Scope) :
    (ts : List Tree) → (scope ∈ walkOf around ts ↔ scope ∈ completedOf around ts)
  | [] => Iff.rfl
  | t :: ts => by
    rw [walkOf, completedOf, List.mem_append, List.mem_append, mem_walk, mem_walkOf]

end

/-- The properties that both searches read have their usual sizes: a cell count has a cell, and a
compatible list is not empty. -/
def UsualSizes (props : List Property) : Prop :=
  ∀ p ∈ props, (p.name = kAddressCells ∨ p.name = kSizeCells → 4 ≤ p.value.length) ∧
    (p.name = kCompatible → p.value ≠ [])

/-- Where every value is long enough, the last one counts for both. -/
lemma get_eq_valueOf {name : Name} {size : ℕ} {props : List Property}
    (h : ∀ p ∈ props, p.name = name → size ≤ p.value.length) :
    get props name = valueOf name size props := by
  rw [Bspgen.get, valueOf]
  congr 1
  refine List.find?_congr fun p hp => decide_eq_decide.mpr ?_
  exact ⟨fun hname => ⟨hname, h p (List.mem_reverse.mp hp) hname⟩, fun h => h.1⟩

/-- A value of at least the given number of bytes has them. -/
lemma le_length_of_valueOf {name : Name} {size : ℕ} {props : List Property} {value : List UInt8}
    (h : valueOf name size props = some value) : size ≤ value.length := by
  obtain ⟨p, hp, rfl⟩ := Option.map_eq_some_iff.mp h
  have hname : p.name = name ∧ size ≤ p.value.length := by simpa using List.find?_some hp
  exact hname.2

/-- A cell count that has a cell. -/
lemma cell_eq_cellOf {name : Name} {default : ℕ} {props : List Property}
    (h : ∀ p ∈ props, p.name = name → 4 ≤ p.value.length) :
    cell props name default = cellOf name default props := by
  rw [cell, cellOf, get_eq_valueOf h]
  cases hvalue : valueOf name 4 props with
  | none => rfl
  | some value => exact if_neg (not_lt.mpr (le_length_of_valueOf hvalue))

/-- With the usual sizes both read a node in the same way. -/
lemma readLevel_eq_levelOf {devices : List (List UInt8)} {props : List Property}
    (h : UsualSizes props) : readLevel devices props = levelOf devices props := by
  have hcompatible : get props kCompatible = valueOf kCompatible 1 props :=
    get_eq_valueOf fun p hp hname => List.length_pos_iff.mpr ((h p hp).2 hname)
  have hany (name : Name) : get props name = valueOf name 0 props :=
    get_eq_valueOf fun _ _ _ => Nat.zero_le _
  rw [readLevel, levelOf, hcompatible, hany, hany,
    cell_eq_cellOf fun p hp hname => (h p hp).1 (.inl hname),
    cell_eq_cellOf fun p hp hname => (h p hp).1 (.inr hname)]

/-- A node that names the device and declares a region closes as the device. -/
lemma isDevice_of_declared {level : Level} {around : List Level}
    (hcells : ∀ l ∈ level :: around, l.addressCells ≤ 4 ∧ l.sizeCells ≤ 4)
    (hmatched : level.matched = true) (h : declared (level :: around) ≠ []) :
    IsDevice (level :: around) := by
  rw [declared] at h
  by_cases hdvd : 4 * regCellCount around ∣ level.reg.length
  case neg => exact absurd (if_neg hdvd) h
  rw [if_pos hdvd] at h
  have hcount : level.reg.length / (4 * regCellCount around) ≠ 0 := by
    simpa [regCount] using h
  have hpos : regCellCount around ≠ 0 := fun hzero => hcount (by rw [hzero, Nat.div_zero])
  have hreg : level.reg ≠ [] := fun hnil => hcount (by rw [hnil, List.length_nil, Nat.zero_div])
  exact (isDevice_iff_of_le hcells).mpr ⟨hmatched, hreg, Nat.pos_of_ne_zero hpos, hdvd⟩

section Single

variable {m : Memory} {dtb : ℕ} {t : Tree} {device : HostDevice} {scope : Scope}

/-- With the usual sizes, both read the nodes of an ordinary tree in the same way. -/
lemma generatedLevels_eq (ht : t.Ordinary)
    (husual : ∀ scope ∈ t.completed [], ∀ props ∈ scope, UsualSizes props)
    (hscope : scope ∈ t.completed []) :
      generatedLevels device scope = parsedLevels device scope := by
  refine List.map_congr_left fun props hprops => ?_
  rw [readLevel_eq_levelOf (husual scope hscope props hprops), device.generated_eq,
    foldLevel_eq device.parsed props (ht.whole scope hscope props hprops)]

/-- A node that closes as the device names it. -/
lemma isListed_of_closes (hlevels : generatedLevels device scope = parsedLevels device scope)
    (h : ClosesAsDevice device scope) : IsListed device scope := by
  rw [ClosesAsDevice, ← hlevels] at h
  cases scope with
  | nil => exact absurd h id
  | cons props around => exact h.1

/-- On an ordinary tree with the usual sizes, in which the nodes that name the device are alike,
both searches lead to the same regions. -/
lemma sameRegions_of_single (ht : t.Ordinary)
    (husual : ∀ scope ∈ t.completed [], ∀ props ∈ scope, UsualSizes props)
    (hsingle : ∀ s ∈ t.completed [], ∀ s' ∈ t.completed [], IsListed device s → IsListed device s' →
      s = s')
    (hdecodable : ∀ scope, closedDevice device t = some scope →
      Decodable (parsedLevels device scope)) : SameRegions device t := by
  have hlevels {scope : Scope} (hscope : scope ∈ t.completed []) :
      generatedLevels device scope = parsedLevels device scope :=
    generatedLevels_eq ht husual hscope
  cases hclosed : closedDevice device t with
  | none =>
    have hnone : ∀ scope ∈ t.completed [], ¬ ClosesAsDevice device scope := by
      simpa [closedDevice] using hclosed
    refine .absent hnone fun scope hfirst => ?_
    have hmem := (mem_walk [] t).mp (List.mem_of_find?_eq_some (firstOf_iff.mp hfirst))
    by_contra hne
    refine hnone scope hmem ?_
    have hlisted := hfirst.holds
    cases scope with
    | nil => exact absurd hlisted id
    | cons props around =>
      rw [ClosesAsDevice, ← hlevels hmem]
      refine isDevice_of_declared ?_ hlisted hne
      intro level hlevel
      rw [← List.map_cons] at hlevel
      obtain ⟨props', hprops', rfl⟩ := List.mem_map.mp hlevel
      rw [readLevel_eq_levelOf (husual _ hmem props' hprops')]
      exact ht.cells _ hmem props' hprops'
  | some closed =>
    have hfirst : FirstOf (ClosesAsDevice device) (t.completed []) closed := firstOf_iff.mpr hclosed
    have hmem := List.mem_of_find?_eq_some hclosed
    have hlisted := isListed_of_closes (hlevels hmem) hfirst.holds
    cases hfind : (walk [] t).find? fun scope => IsListed device scope with
    | none =>
      have hnone := List.find?_eq_none.mp hfind closed ((mem_walk [] t).mpr hmem)
      exact absurd (decide_eq_true hlisted) hnone
    | some listed =>
      have hfirst' : FirstOf (IsListed device) (walk [] t) listed := firstOf_iff.mpr hfind
      obtain rfl := hsingle listed ((mem_walk [] t).mp (List.mem_of_find?_eq_some hfind)) closed
        hmem hfirst'.holds hlisted
      exact .present listed listed hfirst' hfirst (hdecodable listed hclosed)
        (congrArg _ (congrArg _ (hlevels hmem)))

/-- A blob that serialises an ordinary tree with the usual sizes and with numbers below `2 ^ 64`:
where the nodes that name a device are alike, so in particular where there is only one, the
generated addresses are those that `FindDevice` returns. -/
theorem agrees_of_single (h : Serialises m dtb t) (ht : t.Ordinary)
    (husual : ∀ scope ∈ t.completed [], ∀ props ∈ scope, UsualSizes props)
    (hsingle : ∀ s ∈ t.completed [], ∀ s' ∈ t.completed [], IsListed device s → IsListed device s' →
      s = s')
    (hbelow : ∀ scope ∈ t.completed [], Below64 (parsedLevels device scope)) :
    Agrees m dtb t device := by
  have hvalid := validateHeader_of_tells h.tells ht.height
  refine (agrees_iff h.tells hvalid hbelow).mpr
    (sameRegions_of_single ht husual hsingle fun scope hscope => ?_)
  obtain ⟨f, l, last, hv, hbehind, hal, hl, hfin, hevents⟩ := h.exists_tokens
  have hstop : deviceLevels device.parsed [] (l ++ [(last, .finish)]) = _ :=
    deviceLevels_closed hevents
  rw [deviceLevels_of_events ht hevents, hscope] at hstop
  exact decodable_of_device ht hv hbehind hl hevents hstop

end Single

/-! ## The comparison at boot -/

/-- The panics of `GetHostMmio` when a device of the constants is missing or differs. -/
def comparisonPanics : List String :=
  ["[ERROR][DTB] host UART is missing", "[ERROR][DTB] host GIC is missing required regions",
    "[ERROR][DTB] BSP constants do not match the firmware device tree"]

section Comparison

variable {m : Memory} {dtb : ℕ} {t : Tree} {bsp : BspConstants}

/-- The windows of some regions fail with their message alone. -/
lemma foldlM_addBlocksOrPanic {regions : List DeviceRegion} {message e : String} {map : MmioMap}
    (h : regions.foldlM (fun map region => addBlocksOrPanic map region message) map = .error e) :
    e = message := by
  induction regions generalizing map with
  | nil => cases h
  | cons region regions ih =>
    rw [List.foldlM_cons] at h
    unfold addBlocksOrPanic at h
    simp only at h
    split at h
    · exact ih h
    · cases h
      rfl

/-- A constant is the region that it was made from. -/
lemma constant_regionPair (region : DeviceRegion) : constant (regionPair region) = region := by
  rw [constant, regionPair, UInt64.ofNat_toNat, UInt64.ofNat_toNat]

/-- Where both agree, the regions of `FindDevice` are the first eight constants. -/
lemma regions_of_agrees {node : DeviceNode} {pairs : List (ℕ × ℕ)}
    (h : node.regions.map regionPair = pairs.take dtMaxRegions) :
    node.regions = (pairs.take dtMaxRegions).map constant := by
  rw [← h, List.map_map]
  exact (List.map_id'' constant_regionPair _).symm

/-- All constants are there when the regions are. -/
lemma expected_of_constants (h : constants t = some bsp) :
    regions t uartCompatible ≠ [] ∧ 4 ≤ (regions t gicCompatible).length ∧
      bsp.expected =
        ((regions t uartCompatible).take 1 ++ (regions t gicCompatible).take 4).map constant := by
  rw [constants] at h
  split at h
  case h_1 hgic huart hregions =>
    split_ifs at h
    obtain rfl := Option.some.inj h
    rw [huart, hregions]
    exact ⟨by simp, by simp, rfl⟩
  case h_2 => cases h

/-- With the constants that were generated from the same tree, the comparison of `GetHostMmio`
succeeds if both agree. -/
lemma getHostMmio_ne_panic (hagrees : ∀ device, Agrees m dtb t device)
    (hbsp : constants t = some bsp) {message : String} (hmessage : message ∈ comparisonPanics) :
    getHostMmio bsp m dtb ≠ .error (.panic message) := by
  obtain ⟨-, uart, huart, huartRegions, huartFound⟩ := hagrees .uart
  obtain ⟨-, gic, hgic, hgicRegions, hgicFound⟩ := hagrees .gic
  obtain ⟨huartNe, hgicLength, hexpected⟩ := expected_of_constants hbsp
  have hgicNe : regions t gicCompatible ≠ [] := fun hnil => by simp [hnil] at hgicLength
  have huartEq := regions_of_agrees huartRegions
  have hgicEq := regions_of_agrees hgicRegions
  simp only [HostDevice.parsed, HostDevice.generated] at *
  have hmissing : ¬ (uart.isFound = false ∨ uart.regions = []) := by
    rw [huartFound.mpr huartNe, huartEq]
    simp [dtMaxRegions, huartNe]
  have hfew : ¬ (gic.isFound = false ∨ gic.regions.length < 4) := by
    rw [hgicFound.mpr hgicNe, hgicEq, List.length_map, List.length_take]
    simp [dtMaxRegions, hgicLength]
  have hmatch : uart.regions.take 1 ++ gic.regions.take 4 = bsp.expected := by
    rw [hexpected, huartEq, hgicEq, ← List.map_take, ← List.map_take, List.take_take,
      List.take_take, List.map_append]
    rfl
  intro hpanic
  rw [getHostMmio, huart, hgic] at hpanic
  have hhost : hostMmio bsp uart gic = .error message := by
    cases hresult : hostMmio bsp uart gic with
    | ok map => simp [hresult, bind, Except.bind, pure, Except.pure] at hpanic
    | error e => simpa [hresult, bind, Except.bind] using hpanic
  rw [hostMmio, if_neg hmissing, if_neg hfew, if_neg (not_not.mpr hmatch)] at hhost
  -- only the mapping of the windows is left, which has messages of its own
  cases hmap : (uart.regions.take 1).foldlM (fun map region =>
      addBlocksOrPanic map region "[ERROR][DTB] host UART mapping failed") {} with
  | error e =>
    rw [hmap] at hhost
    obtain rfl := Except.error.inj hhost
    rw [foldlM_addBlocksOrPanic hmap] at hmessage
    exact absurd hmessage (by decide)
  | ok map =>
    rw [hmap] at hhost
    rw [foldlM_addBlocksOrPanic hhost] at hmessage
    exact absurd hmessage (by decide)

end Comparison

/-- On a tree that validation accepts, with numbers below `2 ^ 64`, the generated addresses of a
device are those that `FindDevice` returns exactly if both searches lead to the same regions.  If
they do for both devices, the comparison of `GetHostMmio` with the constants generated from the tree
succeeds. -/
theorem discovery_agrees_iff (m : Memory) (dtb : ℕ) (t : Tree) (h : Tells m dtb t.events)
    (hvalid : (validateHeader m dtb).result = .ok ())
    (hbelow : ∀ device, ∀ scope ∈ t.completed [], Below64 (parsedLevels device scope)) :
    (∀ device, Agrees m dtb t device ↔ SameRegions device t) ∧
      ((∀ device, SameRegions device t) → ∀ bsp, constants t = some bsp →
        ∀ message ∈ comparisonPanics, getHostMmio bsp m dtb ≠ .error (.panic message)) := by
  have hiff (device : HostDevice) : Agrees m dtb t device ↔ SameRegions device t :=
    agrees_iff h hvalid (hbelow device)
  exact ⟨hiff, fun hsame bsp hbsp message hmessage =>
    getHostMmio_ne_panic (fun device => (hiff device).mpr (hsame device)) hbsp hmessage⟩

/-- The console on a bus is found by both, and neither finds an interrupt controller. -/
theorem discovery_agrees_iff_soc :
    Agrees (fun a => some (socContent a)) 0x1000 socTree .uart ∧
      Agrees (fun a => some (socContent a)) 0x1000 socTree .gic := by
  have hbelow : ∀ device, ∀ scope ∈ socTree.completed [], Below64 (parsedLevels device scope) := by
    rintro (- | -) <;> decide +kernel
  have hvalid := validateHeader_of_tells serialises_soc.tells (by decide)
  have hiff := (discovery_agrees_iff _ 0x1000 socTree serialises_soc.tells hvalid hbelow).1
  rw [hiff, hiff]
  constructor
  · have hlisted : (walk [] socTree).find? (fun scope => IsListed .uart scope) =
        (walk [] socTree)[2]? := by decide +kernel
    have hclosed : (socTree.completed []).find? (fun scope => ClosesAsDevice .uart scope) =
        (walk [] socTree)[2]? := by decide +kernel
    refine .present _ _ (firstOf_iff.mpr hlisted) (firstOf_iff.mpr hclosed)
      (decodable_of_le ?_ ?_) ?_
    · decide +kernel
    · decide +kernel
    · decide +kernel
  · have hlisted : (walk [] socTree).find? (fun scope => IsListed .gic scope) = none := by
      decide +kernel
    refine .absent (by decide +kernel) fun scope hscope => ?_
    rw [firstOf_iff, hlisted] at hscope
    cases hscope

/-- A console inside of a console, and an interrupt controller with four regions. -/
def nestedTree : Tree :=
  .node [] [] [
    .node (ascii "serial")
      [⟨kCompatible, ascii "arm,pl011" ++ [0]⟩, ⟨kReg, [0, 0x9000000, 0x1000].flatMap (beBytes 4)⟩]
      [.node (ascii "port")
        [⟨kCompatible, ascii "arm,pl011" ++ [0]⟩,
        ⟨kReg, [0, 0x9040000, 0x1000].flatMap (beBytes 4)⟩] []],
    .node (ascii "intc")
      [⟨kCompatible, ascii "arm,gic-400" ++ [0]⟩,
        ⟨kReg, [0, 0x8000000, 0x10000, 0, 0x8010000, 0x10000, 0, 0x8030000, 0x10000, 0, 0x8040000,
          0x10000].flatMap (beBytes 4)⟩] []]

/-- The strings block of the tree. -/
def nestedStrings : List UInt8 := [kCompatible, kReg].flatMap (· ++ [0])

/-- The tokens of the tree. -/
def nestedTokens : List Token :=
  [.beginNode [], .beginNode (ascii "serial"), .prop 0 kCompatible (ascii "arm,pl011" ++ [0]),
    .prop 11 kReg ([0, 0x9000000, 0x1000].flatMap (beBytes 4)), .beginNode (ascii "port"),
    .prop 0 kCompatible (ascii "arm,pl011" ++ [0]),
    .prop 11 kReg ([0, 0x9040000, 0x1000].flatMap (beBytes 4)), .endNode, .endNode,
    .beginNode (ascii "intc"), .prop 0 kCompatible (ascii "arm,gic-400" ++ [0]),
    .prop 11 kReg ([0, 0x8000000, 0x10000, 0, 0x8010000, 0x10000, 0, 0x8030000, 0x10000,
      0, 0x8040000, 0x10000].flatMap (beBytes 4)), .endNode, .endNode]

/-- A memory with the tree. -/
def nestedMemory : Memory := fun a => some (layOut nestedTokens nestedStrings a)

/-- The script takes the outer console, which comes first, and `FindDevice` the inner one, which is
completed first; the constants that are generated from the tree do not pass the comparison. -/
theorem nested_console_disagrees :
    Tells nestedMemory 0x1000 nestedTree.events ∧
      (validateHeader nestedMemory 0x1000).result = .ok () ∧
      (∀ device, ∀ scope ∈ nestedTree.completed [], Below64 (parsedLevels device scope)) ∧
      ¬ Agrees nestedMemory 0x1000 nestedTree .uart ∧
      ∃ bsp, constants nestedTree = some bsp ∧ getHostMmio bsp nestedMemory 0x1000 =
        .error (.panic "[ERROR][DTB] BSP constants do not match the firmware device tree") := by
  have htells : Tells nestedMemory 0x1000 nestedTree.events :=
    tells_layOut (by decide +kernel) (by decide +kernel) (by decide) (by decide +kernel)
  have hvalid := validateHeader_of_tells htells (by decide)
  have hbelow : ∀ device, ∀ scope ∈ nestedTree.completed [],
      Below64 (parsedLevels device scope) := by
    rintro (- | -) <;> decide +kernel
  refine ⟨htells, hvalid, hbelow, ?_, ?_⟩
  · rw [agrees_iff htells hvalid (hbelow .uart)]
    rintro (⟨hclosed, -⟩ | ⟨listed, closed, hlisted, hclosed, -, hregions⟩)
    · exact absurd hclosed (by decide +kernel)
    · have houter : (walk [] nestedTree).find? (fun scope => IsListed .uart scope) =
          (walk [] nestedTree)[1]? := by decide +kernel
      have hinner : (nestedTree.completed []).find? (fun scope => ClosesAsDevice .uart scope) =
          (walk [] nestedTree)[2]? := by decide +kernel
      obtain rfl := Option.some.inj ((firstOf_iff.mp hlisted).symm.trans houter)
      obtain rfl := Option.some.inj ((firstOf_iff.mp hclosed).symm.trans hinner)
      revert hregions
      decide +kernel
  · refine ⟨⟨⟨0x9000000, 0x1000⟩, ⟨0x8000000, 0x10000⟩, ⟨0x8010000, 0x10000⟩, ⟨0x8030000, 0x10000⟩,
      ⟨0x8040000, 0x10000⟩⟩, rfl, ?_⟩
    decide +kernel

end DeviceTree

end HyperBerry
