import HyperBerry.Lib.Cache
import HyperBerry.Lib.Walk
import HyperBerry.Mmu.Construct

/-!
# What the table code asks of the memory system

The walker of the hardware reads translation tables at the point of coherency, not in the cache of
the core.  Here is the code of `pageTable.cpp` and `guestMmu.cpp` once more, with its writes, its
cache maintenance by `CleanDataCacheRange`, its barriers and its TLB invalidation, in the order of
the source. The writes are those of the word model: `memset` clears the words at all addresses of
its range.

Every `dsb` waits for the `dc cvac` before it.  A run that does not return, because the allocator is
out of pages or because a loop does not end, has no result.
-/

namespace HyperBerry

open Walk

/-- A run of code: its events, and what it returns, if it does. -/
abbrev CacheRun (β α : Type) := Run (Cache.Event ℕ β) Unit α

namespace PageTable

/-! ## Cleaning a range -/

/-- `lineSize`, from `ctr_el0`. -/
def lineSize (ctr : ℕ) : ℕ := 4 <<< (ctr >>> 16 &&& 0xF)

/-- The loop over the lines up to `last`; `none` if it does not end. -/
def lineLoop (size last : ℕ) : ℕ → ℕ → Option (List ℕ)
  | 0, _ => none
  | fuel + 1, line =>
    if line < last then (lineLoop size last fuel (add64 line size)).map (line :: ·) else some []

/-- `CleanDataCacheRange`. -/
def cleanDataCacheRange {β : Type} (ctr addr size : ℕ) : CacheRun β Unit :=
  if size = 0 then ⟨[], .ok ()⟩
  else
    match lineLoop (lineSize ctr) (add64 addr size) loopFuel
        (addr &&& not64 (lineSize ctr - 1)) with
    | none => ⟨[], .error ()⟩
    | some lines => ⟨Cache.flush (lines.map fun line => Set.Ico line (line + lineSize ctr)), .ok ()⟩

lemma lineSize_eq (ctr : ℕ) : ∃ k, 2 ≤ k ∧ k ≤ 17 ∧ lineSize ctr = 2 ^ k := by
  have hlt : ctr >>> 16 &&& 0xF < 2 ^ 4 := Nat.and_lt_two_pow _ (by norm_num)
  refine ⟨2 + (ctr >>> 16 &&& 0xF), by omega, by omega, ?_⟩
  rw [lineSize, Nat.shiftLeft_eq, pow_add]
  norm_num

/-- The loop ends, and its lines cover what lies between its bounds. -/
lemma lineLoop_eq {size last : ℕ} (hsize : 0 < size) (hlast : last + size ≤ 2 ^ 64) :
    ∀ (fuel line : ℕ), last - line < fuel → ∃ lines, lineLoop size last fuel line = some lines ∧
      ∀ a, line ≤ a → a < last → ∃ l ∈ lines, l ≤ a ∧ a < l + size := by
  intro fuel
  induction fuel with
  | zero =>
    intro line hfuel
    omega
  | succ fuel ih =>
    intro line hfuel
    rw [lineLoop]
    by_cases hline : line < last
    · obtain ⟨lines, hlines, hcover⟩ := ih (line + size) (by omega)
      refine ⟨line :: lines, ?_, fun a hle hlt => ?_⟩
      · rw [if_pos hline, add64_of_lt (by omega), hlines, Option.map_some]
      · by_cases hnext : a < line + size
        · exact ⟨line, List.mem_cons_self, hle, hnext⟩
        · obtain ⟨l, hl, hin⟩ := hcover a (not_lt.mp hnext) hlt
          exact ⟨l, List.mem_cons_of_mem _ hl, hin⟩
    · exact ⟨[], if_neg hline, fun a hle hlt => absurd (hle.trans_lt hlt) hline⟩

/-- The lines that are cleaned for a range. -/
def cleanLines (ctr addr size : ℕ) : List (Set ℕ) :=
  ((lineLoop (lineSize ctr) (add64 addr size) loopFuel (addr &&& not64 (lineSize ctr - 1))).getD
    []).map fun line => Set.Ico line (line + lineSize ctr)

variable {β : Type} {ctr addr size : ℕ}

/-- A range that ends 128 KiB before the end of the address space is cleaned. -/
lemma cleanDataCacheRange_eq (hsize : 0 < size) (hend : addr + size + 2 ^ 17 ≤ 2 ^ 64) :
    (cleanDataCacheRange ctr addr size : CacheRun β Unit) =
        ⟨Cache.flush (cleanLines ctr addr size), .ok ()⟩ ∧
      ∀ a, addr ≤ a → a < addr + size → ∃ t ∈ cleanLines ctr addr size, a ∈ t := by
  obtain ⟨k, -, hk, hline⟩ := lineSize_eq ctr
  have hpow : 2 ^ k ≤ 2 ^ 17 := Nat.pow_le_pow_right (by norm_num) hk
  obtain ⟨lines, hlines, hcover⟩ := lineLoop_eq (Nat.two_pow_pos k)
    (show addr + size + 2 ^ k ≤ 2 ^ 64 by omega) loopFuel (addr / 2 ^ k * 2 ^ k) (by
      rw [loopFuel]
      omega)
  have hstart : addr &&& not64 (lineSize ctr - 1) = addr / 2 ^ k * 2 ^ k := by
    rw [hline, and_not64_two_pow_sub_one (by omega) (by omega)]
  have hloop : lineLoop (lineSize ctr) (add64 addr size) loopFuel
      (addr &&& not64 (lineSize ctr - 1)) = some lines := by
    rw [hstart, hline, add64_of_lt (by omega), hlines]
  constructor
  · rw [cleanDataCacheRange, if_neg hsize.ne', cleanLines, hloop]
    rfl
  · intro a hle hlt
    obtain ⟨l, hl, hin⟩ := hcover a ((Nat.div_mul_le_self _ _).trans hle) hlt
    refine ⟨Set.Ico l (l + lineSize ctr), ?_, by rwa [hline]⟩
    rw [cleanLines, hloop, Option.getD_some]
    exact List.mem_map_of_mem hl

end PageTable

/-! ## Tables -/

namespace Tables

/-- The writes of `memset(table, 0, size)`. -/
def zeroWrites (addr size : ℕ) : List (ℕ × ℕ) := (List.range size).map fun i => (addr + i, 0)

/-- The writes of a loop over the entries `0`, ..., `n - 1` of a table. -/
def fillWrites (table : ℕ) (entry : ℕ → ℕ) (n : ℕ) : List (ℕ × ℕ) :=
  (List.range n).map fun i => (table + 8 * i, entry i)

/-- Some writes, one after the other. -/
def writes (ws : List (ℕ × ℕ)) : CacheRun ℕ Unit := ⟨ws.map fun w => .write w.1 w.2, .ok ()⟩

/-- `AllocTable`. -/
def allocTableRun (ctr : ℕ) (st : Tables) : CacheRun ℕ (Tables × ℕ) :=
  match st.supply with
  | [] => ⟨[], .error ()⟩
  | pa :: supply =>
    (writes (zeroWrites pa pageSize)).bind fun _ =>
      (PageTable.cleanDataCacheRange ctr pa pageSize).bind fun _ =>
        ⟨[], .ok (Tables.clear { st with supply := supply } pa pageSize, pa)⟩

/-- Write one entry, and clean it. -/
def storeRun (ctr : ℕ) (st : Tables) (slot value : ℕ) : CacheRun ℕ Tables :=
  (writes [(slot, value)]).bind fun _ =>
    (PageTable.cleanDataCacheRange ctr slot 8).bind fun _ => ⟨[], .ok (st.store slot value)⟩

variable {ctr : ℕ} {st : Tables} {u slot value : ℕ} {supply : List ℕ}

/-- The events that prepare a zeroed table. -/
def zeroEvents (ctr u : ℕ) : List (Cache.Event ℕ ℕ) :=
  (zeroWrites u pageSize).map (fun w => .write w.1 w.2) ++
    Cache.flush (PageTable.cleanLines ctr u pageSize)

/-- A new table is zeroed and cleaned. -/
lemma allocTableRun_eq (hs : st.supply = u :: supply) (hu : u < 2 ^ 48) : st.allocTableRun ctr =
    ⟨zeroEvents ctr u, .ok (Tables.clear { st with supply := supply } u pageSize, u)⟩ := by
  have hclean : (PageTable.cleanDataCacheRange ctr u pageSize : CacheRun ℕ Unit) = _ :=
    (PageTable.cleanDataCacheRange_eq (by decide) (by unfold pageSize; omega)).1
  simp only [allocTableRun, hs, hclean, writes, Run.bind, List.append_nil, zeroEvents]

/-- Without a page in supply nothing happens. -/
lemma allocTableRun_nil (hs : st.supply = []) : st.allocTableRun ctr = ⟨[], .error ()⟩ := by
  simp only [allocTableRun, hs]

/-- An entry is written and cleaned. -/
lemma storeRun_eq (hslot : slot < 2 ^ 63) : st.storeRun ctr slot value =
    ⟨.write slot value :: Cache.flush (PageTable.cleanLines ctr slot 8),
      .ok (st.store slot value)⟩ := by
  have hclean : (PageTable.cleanDataCacheRange ctr slot 8 : CacheRun ℕ Unit) = _ :=
    (PageTable.cleanDataCacheRange_eq (by decide) (by omega)).1
  simp only [storeRun, hclean, writes, Run.bind, List.append_nil, List.map_cons, List.map_nil,
    List.singleton_append]

/-- The memory after the writes of `memset`. -/
lemma stores_zeroWrites (mem : ℕ → ℕ) (addr size : ℕ) :
    Cache.stores ((zeroWrites addr size).map fun w => .write w.1 w.2) mem =
      fun a => if addr ≤ a ∧ a < addr + size then 0 else mem a := by
  induction size generalizing mem with
  | zero =>
    funext a
    rw [if_neg (by omega)]
    rfl
  | succ size ih =>
    have hsucc : zeroWrites addr (size + 1) = zeroWrites addr size ++ [(addr + size, 0)] := by
      simp [zeroWrites, List.range_succ]
    funext a
    rw [hsucc, List.map_append, Cache.stores_append, ih]
    simp only [List.map_cons, List.map_nil, Cache.stores, Function.update_apply]
    by_cases hlast : a = addr + size
    · rw [if_pos hlast, if_pos (by omega)]
    · rw [if_neg hlast]
      exact if_congr (by omega) rfl rfl

/-- The memory after the writes of a loop over entries. -/
lemma stores_fillWrites (st : Tables) (table : ℕ) (entry : ℕ → ℕ) (n : ℕ) :
    Cache.stores ((fillWrites table entry n).map fun w => .write w.1 w.2) st.mem =
      (st.fill table entry n).mem := by
  induction n with
  | zero => rfl
  | succ n ih =>
    have hsucc : fillWrites table entry (n + 1) =
        fillWrites table entry n ++ [(table + 8 * n, entry n)] := by
      simp [fillWrites, List.range_succ]
    rw [hsucc, List.map_append, Cache.stores_append, ih]
    rfl

end Tables

namespace PageTable

/-- The loop of `Walk`. -/
def walkLevelsRun (pt : PageTable) (ctr addr : ℕ) (allocOnMiss : Bool) :
    ℕ → ℕ → Tables → ℕ → CacheRun ℕ (Tables × Option ℕ)
  | 0, _, st, table => ⟨[], .ok (st, some (table + 8 * l2Index addr))⟩
  | k + 1, level, st, table =>
    let mask := if level = pt.startLevel then pt.rootIndexMask else 0x1FF
    let idx := addr >>> levelShift level &&& mask
    let slot := table + 8 * idx
    if pteIsValid (st.mem slot) then
      pt.walkLevelsRun ctr addr allocOnMiss k (level + 1) st (pteNextTable (st.mem slot))
    else if allocOnMiss then
      (st.allocTableRun ctr).bind fun r =>
        (r.1.storeRun ctr slot (r.2 ||| pteValid ||| pteTable)).bind fun st =>
          pt.walkLevelsRun ctr addr allocOnMiss k (level + 1) st (pteNextTable (st.mem slot))
    else ⟨[], .ok (st, none)⟩

/-- `Walk`. -/
def walkRun (pt : PageTable) (ctr addr : ℕ) (allocOnMiss : Bool) (st : Tables) :
    CacheRun ℕ (Tables × Option ℕ) :=
  pt.walkLevelsRun ctr addr allocOnMiss (2 - pt.startLevel) pt.startLevel st pt.root

end PageTable

namespace GuestMmu

/-- What `walkL3` does where the level 2 entry at slot `l2` points to no table; `hcr` is what it
reads from `hcr_el2`. -/
def splitL2Run (ctr hcr : ℕ) (st : Tables) (l2 : ℕ) : CacheRun ℕ Tables :=
  let block := st.mem l2
  (st.allocTableRun ctr).bind fun r =>
    Run.bind
      (if pteIsBlock block then
        let base := block &&& pteAddrMask
        let attributes := (block &&& not64 pteAddrMask) ||| pteTable
        let entry := fun i => add64 base (i * size4KB) ||| attributes
        (Tables.writes (Tables.fillWrites r.2 entry (size2MB / size4KB))).bind fun _ =>
          (PageTable.cleanDataCacheRange ctr r.2 size4KB).bind fun _ =>
            ((r.1.fill r.2 entry (size2MB / size4KB)).storeRun ctr l2 0).bind fun st =>
              ⟨.barrier :: if hcr &&& 1 ≠ 0 then [.invalidate, .barrier] else [], .ok st⟩
      else ⟨[], .ok r.1⟩)
      fun st => st.storeRun ctr l2 (r.2 ||| pteValid ||| pteTable)

/-- `walkL3`. -/
def walkL3Run (ctr hcr : ℕ) (table : PageTable) (ipa : ℕ) (st : Tables) :
    CacheRun ℕ (Tables × Option ℕ) :=
  (table.walkRun ctr ipa true st).bind fun r =>
    match r.2 with
    | none => ⟨[], .ok (r.1, none)⟩
    | some l2 =>
      Run.bind (if pteIsTable (r.1.mem l2) then ⟨[], .ok r.1⟩
        else splitL2Run ctr hcr r.1 l2) fun st =>
        if pteIsTable (st.mem l2) then
          ⟨[], .ok (st, some (pteNextTable (st.mem l2) + 8 * l3Index ipa))⟩
        else ⟨[], .ok (st, none)⟩

/-- `MapBlock`. -/
def mapBlockRun (ctr : ℕ) (table : PageTable) (ipa pa : ℕ) (isDevice : Bool) (st : Tables) :
    CacheRun ℕ Tables :=
  (table.walkRun ctr ipa true st).bind fun r =>
    match r.2 with
    | none => ⟨[], .ok r.1⟩
    | some pte => r.1.storeRun ctr pte (buildStage2BlockDescriptor pa isDevice)

/-- `MapPage`. -/
def mapPageRun (ctr hcr : ℕ) (table : PageTable) (ipa pa : ℕ) (isDevice : Bool) (st : Tables) :
    CacheRun ℕ Tables :=
  (walkL3Run ctr hcr table ipa st).bind fun r =>
    match r.2 with
    | none => ⟨[], .ok r.1⟩
    | some pte => r.1.storeRun ctr pte (buildStage2PageDescriptor pa isDevice)

/-- Run through a list. -/
def foldRun {ι : Type} (body : ι → Tables → CacheRun ℕ Tables) : List ι → Tables → CacheRun ℕ Tables
  | [], st => ⟨[], .ok st⟩
  | i :: l, st => (body i st).bind fun st => foldRun body l st

/-- A call of a mapping operation. -/
def MapCall.cacheRun (ctr hcr root : ℕ) : MapCall → Tables → CacheRun ℕ Tables
  | block ipa pa isDevice, st => mapBlockRun ctr (stage2Table root) ipa pa isDevice st
  | page ipa pa isDevice, st => mapPageRun ctr hcr (stage2Table root) ipa pa isDevice st

/-- A sequence of calls. -/
def callsRun (ctr hcr root : ℕ) (calls : List MapCall) (st : Tables) : CacheRun ℕ Tables :=
  foldRun (MapCall.cacheRun ctr hcr root) calls st

end GuestMmu

end HyperBerry
