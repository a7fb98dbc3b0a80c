import HyperBerry.DeviceTree.Walks

/-!
# Decoding the entries of a device

Once the walk of `FindDevice` has stopped at a device, it decodes the entries of its `reg`, and
`translate` those of the `ranges` of the buses around it.  The strides of the two loops are computed
in 32 bits from cell counts that the tree chooses.

The loops are given once more with a note of every call of `getCombinedCell`: the property that is
decoded and the cells that are combined.  `Decodable` says for which levels all of these cells lie
in their property and both loops end, and `regionsOf` what is decoded then.
-/

namespace HyperBerry

namespace DeviceTree

open Memory Walk

variable {m : Memory} {α : Type} {xs : List UInt8}

/-! ## What the entries say -/

/-- The number in `n` cells, from the given cell on, in 64 bits. -/
def cellsAt (xs : List UInt8) (cell n : ℕ) : ℕ := beNat ((xs.drop (4 * cell)).take (4 * n)) % 2 ^ 64

/-- An entry of `ranges`. -/
structure RangeEntry where
  /-- The first address on the bus. -/
  child : ℕ
  /-- Where it is in the address space of the parent. -/
  parent : ℕ
  /-- The length of the range. -/
  length : ℕ
deriving DecidableEq

/-- The address lies in the range. -/
def RangeEntry.Maps (addr : ℕ) (r : RangeEntry) : Prop := r.child ≤ addr ∧ addr - r.child < r.length

instance (addr : ℕ) (r : RangeEntry) : Decidable (r.Maps addr) :=
  inferInstanceAs (Decidable (_ ∧ _))

/-- The number of cells in an entry of the `ranges` of a bus. -/
def rangeCells (bus parent : Level) : ℕ := bus.addressCells + parent.addressCells + bus.sizeCells

/-- The entry of `ranges` from the given cell on. -/
def rangeAt (bus parent : Level) (cell : ℕ) : RangeEntry where
  child := cellsAt bus.ranges cell bus.addressCells
  parent := cellsAt bus.ranges (cell + bus.addressCells) parent.addressCells
  length := cellsAt bus.ranges (cell + bus.addressCells + parent.addressCells) bus.sizeCells

/-- The entries of the `ranges` of a bus; none if they do not fill it. -/
def rangeEntries (bus parent : Level) : List RangeEntry :=
  if 4 * rangeCells bus parent ∣ bus.ranges.length then
    (List.range (bus.ranges.length / (4 * rangeCells bus parent))).map fun i =>
      rangeAt bus parent (i * rangeCells bus parent)
  else []

/-- An address through the first of some ranges that it lies in. -/
def throughRanges (entries : List RangeEntry) (addr : ℕ) : ℕ :=
  match entries.find? fun r => r.Maps addr with
  | some r => add64 (addr - r.child) r.parent
  | none => addr

/-- An address on the innermost bus, as an address below the root. -/
def translateUp : List Level → ℕ → ℕ
  | bus :: parent :: around, addr =>
    translateUp (parent :: around) (throughRanges (rangeEntries bus parent) addr)
  | _, addr => addr

/-- The number of cells in an entry of the `reg` of a node. -/
def regCellCount (around : List Level) : ℕ := (parentCells around).1 + (parentCells around).2

/-- The number of entries of a `reg`. -/
def regCount (level : Level) (around : List Level) : ℕ :=
  level.reg.length / (4 * regCellCount around)

/-- The base of an entry of `reg`, as it stands there. -/
def regBase (level : Level) (around : List Level) (i : ℕ) : ℕ :=
  cellsAt level.reg (i * regCellCount around) (parentCells around).1

/-- An entry of `reg`. -/
def regionAt (level : Level) (around : List Level) (i : ℕ) : DeviceRegion where
  base := UInt64.ofNat (translateUp around (regBase level around i))
  size := UInt64.ofNat
    (cellsAt level.reg (i * regCellCount around + (parentCells around).1) (parentCells around).2)

/-- The regions of a device: the first eight entries of its `reg`. -/
def regionsOf : List Level → List DeviceRegion
  | [] => []
  | level :: around =>
    ((List.range (regCount level around)).map (regionAt level around)).take dtMaxRegions

/-- There are at most eight regions. -/
lemma length_regionsOf_le (levels : List Level) : (regionsOf levels).length ≤ dtMaxRegions := by
  cases levels with
  | nil => exact Nat.zero_le _
  | cons level around => exact List.length_take_le _ _

/-- The node that is returned for a device, or for none. -/
def deviceNode : Option (List Level) → DeviceNode
  | none => ⟨[], false, Nat.zero_le _⟩
  | some levels => ⟨regionsOf levels, true, length_regionsOf_le levels⟩

/-! ## When the loops are safe -/

/-- The `ranges` of a bus are decoded inside of them: they are not decoded at all, or an entry has
fewer than `2 ^ 32` bytes and the loop finds a range or sees the end of the property. -/
def RangesDecodable (bus parent : Level) (addr : ℕ) : Prop :=
  bus.ranges = [] ∨ 4 * rangeCells bus parent % 2 ^ 32 = 0 ∨
    bus.ranges.length % (4 * rangeCells bus parent % 2 ^ 32) ≠ 0 ∨
    (4 * rangeCells bus parent < 2 ^ 32 ∧
      (bus.ranges.length + 4 * rangeCells bus parent < 2 ^ 32 ∨
        ∃ r ∈ rangeEntries bus parent, r.Maps addr))

/-- The `ranges` of all buses around a device are decoded inside of them. -/
def Translatable : List Level → ℕ → Prop
  | bus :: parent :: around, addr => RangesDecodable bus parent addr ∧
      Translatable (parent :: around) (throughRanges (rangeEntries bus parent) addr)
  | _, _ => True

/-- A device is decoded inside of its `reg` and of the `ranges` around it: an entry of `reg` has
fewer than `2 ^ 32` bytes, there are enough entries or the loop sees the end of the property, and
the bases are translated inside of the `ranges`. -/
def Decodable : List Level → Prop
  | [] => True
  | level :: around => 4 * regCellCount around < 2 ^ 32 ∧
      (dtMaxRegions ≤ regCount level around ∨
        level.reg.length + 4 * regCellCount around < 2 ^ 32) ∧
      ∀ i < min dtMaxRegions (regCount level around), Translatable around (regBase level around i)

/-! ## The loops with their reads -/

/-- A call of `getCombinedCell`. -/
structure Combined where
  /-- The cells of the property that is decoded. -/
  data : CellSpan
  /-- The cells that are combined. -/
  cells : CellSpan
deriving DecidableEq

/-- Every cell that is combined lies in the property. -/
def Combined.Inside (c : Combined) : Prop :=
  ∀ i < c.cells.count, c.data.addr ≤ add64 c.cells.addr (i * cellSizeBytes) ∧
    add64 c.cells.addr (i * cellSizeBytes) + cellSizeBytes ≤ c.data.addr + c.data.sizeBytes

/-- A computation that combines cells. -/
abbrev DecodeRun := Run Combined Halt

/-- Combine some cells of a property and go on. -/
def combine (m : Memory) (data cells : CellSpan) (k : ℕ → DecodeRun α) : DecodeRun α :=
  (Run.after (getCombinedCell m cells) k).log ⟨data, cells⟩

/-- `translateEntries`, with its reads. -/
def translateEntriesRun (m : Memory) (bus : BusLevel) (parentCells stride addr : ℕ) :
    ℕ → ℕ → DecodeRun ℕ
  | 0, _ => ⟨[], .error .hang⟩
  | fuel + 1, off =>
    if (off + stride) % 2 ^ 32 ≤ bus.ranges.sizeBytes then
      let entry := bus.ranges.subspanFrom (off / cellSizeBytes)
      combine m bus.ranges (entry.subspan 0 bus.addressCells) fun child =>
        combine m bus.ranges (entry.subspan bus.addressCells parentCells) fun parent =>
          combine m bus.ranges
            (entry.subspan ((bus.addressCells + parentCells) % 2 ^ 32) bus.sizeCells) fun length =>
              if addr ≥ child ∧ addr - child < length then ⟨[], .ok (add64 (addr - child) parent)⟩
              else translateEntriesRun m bus parentCells stride addr fuel ((off + stride) % 2 ^ 32)
    else ⟨[], .ok addr⟩

/-- `translate`, with its reads. -/
def translateRun (m : Memory) (stack : ℕ → BusLevel) : ℕ → ℕ → DecodeRun ℕ
  | 0, addr => ⟨[], .ok addr⟩
  | level + 1, addr =>
    let bus := stack level
    if bus.ranges.count = 0 ∨ level + 1 < 2 then translateRun m stack level addr
    else
      let parentCells := (stack (level - 1)).addressCells
      let stride := (bus.addressCells + parentCells + bus.sizeCells) * cellSizeBytes % 2 ^ 32
      if stride = 0 ∨ bus.ranges.sizeBytes % stride ≠ 0 then translateRun m stack level addr
      else
        (translateEntriesRun m bus parentCells stride addr loopFuel 0).bind
          (translateRun m stack level)

/-- `decodeRegions`, with its reads. -/
def decodeRegionsRun (m : Memory) (stack : ℕ → BusLevel) (depth : ℕ) :
    (slots : ℕ) → ℕ → DecodeRun { regions : List DeviceRegion // regions.length ≤ slots }
  | 0, _ => ⟨[], .ok ⟨[], Nat.le_refl _⟩⟩
  | slots + 1, off =>
    let reg := (stack depth).reg
    let stride := regStride stack depth
    let cells := regCells stack depth
    if (off + stride) % 2 ^ 32 ≤ reg.sizeBytes then
      let entry := reg.subspanFrom (off / cellSizeBytes)
      combine m reg (entry.subspan 0 cells.1) fun base =>
        combine m reg (entry.subspan cells.1 cells.2) fun size =>
          (translateRun m stack depth base).bind fun base =>
            (decodeRegionsRun m stack depth slots ((off + stride) % 2 ^ 32)).bind fun rest =>
              ⟨[], .ok ⟨⟨UInt64.ofNat base, UInt64.ofNat size⟩ :: rest.1,
                Nat.add_le_add_right rest.2 1⟩⟩
    else ⟨[], .ok ⟨[], List.length_nil.trans_le (Nat.zero_le _)⟩⟩

/-- `decodeDevice`, with its reads. -/
def decodeDeviceRun (m : Memory) : Option FindState → DecodeRun DeviceNode
  | none => ⟨[], .ok ⟨[], false, List.length_nil.trans_le (Nat.zero_le _)⟩⟩
  | some s =>
    (decodeRegionsRun m s.stack s.depth dtMaxRegions 0).bind fun ⟨regions, hlength⟩ =>
      ⟨[], .ok ⟨regions, true, hlength⟩⟩

/-- What `FindDevice` combines, and its result. -/
def findDeviceRun (m : Memory) (dtb : ℕ) (devices : List (List UInt8)) : DecodeRun DeviceNode :=
  Run.after (findWalk m dtb devices).result (decodeDeviceRun m)

/-- The result of combining cells. -/
lemma result_combine (data cells : CellSpan) (k : ℕ → DecodeRun α) :
    (combine m data cells k).result = getCombinedCell m cells >>= fun v => (k v).result := by
  rw [combine, Run.result_log]
  cases getCombinedCell m cells <;> rfl

/-- The result of a run that goes on. -/
lemma result_bind {β : Type} (r : DecodeRun β) (k : β → DecodeRun α) :
    (r.bind k).result = r.result >>= fun v => (k v).result := by
  rcases r.bind_cases k with ⟨e, hr, hbind⟩ | ⟨v, hr, hbind⟩
  · rw [hbind, hr]
    rfl
  · rw [hbind, hr]
    rfl

/-- The loop of `translate` with its reads is the loop. -/
lemma result_translateEntriesRun (bus : BusLevel) (parentCells stride addr fuel off : ℕ) :
    (translateEntriesRun m bus parentCells stride addr fuel off).result =
      translateEntries m bus parentCells stride addr fuel off := by
  induction fuel generalizing off with
  | zero => rfl
  | succ fuel ih =>
    rw [translateEntriesRun, translateEntries]
    split
    · simp only [result_combine]
      refine bind_congr fun child => bind_congr fun parent => bind_congr fun length => ?_
      split
      · rfl
      · exact ih _
    · rfl

/-- `translate` with its reads is `translate`. -/
lemma result_translateRun (stack : ℕ → BusLevel) (level addr : ℕ) :
    (translateRun m stack level addr).result = translate m stack level addr := by
  induction level generalizing addr with
  | zero => rfl
  | succ level ih =>
    rw [translateRun, translate]
    simp only
    split
    · exact ih addr
    · split
      · exact ih addr
      · rw [result_bind, result_translateEntriesRun]
        exact bind_congr ih

/-- `decodeRegions` with its reads is `decodeRegions`. -/
lemma result_decodeRegionsRun (stack : ℕ → BusLevel) (depth slots off : ℕ) :
    (decodeRegionsRun m stack depth slots off).result = decodeRegions m stack depth slots off := by
  induction slots generalizing off with
  | zero => rfl
  | succ slots ih =>
    rw [decodeRegionsRun, decodeRegions]
    simp only
    split
    · simp only [result_combine, result_bind, result_translateRun, ih]
      rfl
    · rfl

/-- `FindDevice` with its reads is `FindDevice`. -/
lemma result_findDeviceRun (m : Memory) (dtb : ℕ) (devices : List (List UInt8)) :
    (findDeviceRun m dtb devices).result = (findDevice m dtb devices).result := by
  rw [findDeviceRun, findDevice, Run.andThen]
  cases (findWalk m dtb devices).result with
  | error e => rfl
  | ok r =>
    cases r with
    | none => rfl
    | some s =>
      rw [Run.after_ok, decodeDeviceRun, result_bind, result_decodeRegionsRun]
      rfl

/-! ## Safe runs -/

/-- Every cell that a run combines lies in its property, and the run ends. -/
def Safe (r : DecodeRun α) : Prop := (∀ c ∈ r.visits, c.Inside) ∧ r.result ≠ .error .hang

/-- A run is safe exactly under a condition, and then returns a value. -/
structure Returns (r : DecodeRun α) (P : Prop) (v : α) : Prop where
  safe_iff : Safe r ↔ P
  result : P → r.result = .ok v

variable {β : Type} {P Q : Prop} {v : α} {w : β}

/-- A run that reads nothing. -/
lemma returns_ok (v : α) : Returns ⟨[], .ok v⟩ True v :=
  ⟨⟨fun _ => trivial, fun _ => ⟨by simp, by simp⟩⟩, fun _ => rfl⟩

/-- An equivalent condition. -/
lemma Returns.congr {r : DecodeRun α} (h : Returns r P v) (hPQ : P ↔ Q) : Returns r Q v :=
  ⟨h.safe_iff.trans hPQ, fun hQ => h.result (hPQ.mpr hQ)⟩

/-- Two runs, one after the other. -/
lemma Returns.bind {r : DecodeRun β} {k : β → DecodeRun α} (hr : Returns r P w)
    (hk : Returns (k w) Q v) : Returns (r.bind k) (P ∧ Q) v := by
  have hresult (hP : P) : r.bind k = ⟨r.visits ++ (k w).visits, (k w).result⟩ := by
    rw [Run.bind, hr.result hP]
  refine ⟨⟨fun hsafe => ?_, fun hboth => ?_⟩, fun hboth => ?_⟩
  · -- the first run is safe whether the second one is reached or not
    have hP : P := by
      rw [← hr.safe_iff]
      rcases r.bind_cases k with ⟨e, he, hbind⟩ | ⟨w', hw, hbind⟩
      · rw [hbind] at hsafe
        refine ⟨hsafe.1, fun hhang => hsafe.2 ?_⟩
        rw [he] at hhang
        rw [Except.error.inj hhang]
      · rw [hbind] at hsafe
        exact ⟨fun c hc => hsafe.1 c (List.mem_append_left _ hc), by simp [hw]⟩
    rw [hresult hP] at hsafe
    exact ⟨hP, hk.safe_iff.mp ⟨fun c hc => hsafe.1 c (List.mem_append_right _ hc), hsafe.2⟩⟩
  · obtain ⟨hP, hQ⟩ := hboth
    rw [hresult hP]
    obtain ⟨hvisits, -⟩ := hr.safe_iff.mpr hP
    obtain ⟨hvisits', hend⟩ := hk.safe_iff.mpr hQ
    refine ⟨fun c hc => ?_, hend⟩
    rcases List.mem_append.mp hc with hc | hc
    · exact hvisits c hc
    · exact hvisits' c hc
  · rw [hresult hboth.1]
    exact hk.result hboth.2

/-- Cells of an entry, by the number of the first one in the property. -/
lemma CellSpan.Holds.subspan_eq {data : CellSpan} {cell off : ℕ} (h : data.Holds m xs)
    (hle : cell + off ≤ data.count) (n : ℕ) :
    (data.subspanFrom (4 * cell / cellSizeBytes)).subspan off n =
      ⟨data.addr + 4 * (cell + off), n⟩ := by
  have hlen := h.length
  have hfits := h.fits
  unfold CellSpan.sizeBytes cellSizeBytes at hlen
  simp only [CellSpan.subspan, CellSpan.subspanFrom, cellSizeBytes, CellSpan.mk.injEq, and_true]
  rw [add64_of_lt (b := 4 * cell / 4 * 4) (by omega), add64_of_lt (by omega)]
  omega

/-- Consecutive cells lie in a property as long as they are not past its end. -/
lemma CellSpan.Holds.inside_iff {data : CellSpan} {cell n : ℕ} (h : data.Holds m xs)
    (hle : cell ≤ data.count) :
    (⟨data, ⟨data.addr + 4 * cell, n⟩⟩ : Combined).Inside ↔ cell + n ≤ data.count := by
  have hlen := h.length
  have hfits := h.fits
  unfold CellSpan.sizeBytes cellSizeBytes at hlen
  simp only [Combined.Inside, CellSpan.sizeBytes, cellSizeBytes]
  constructor
  · intro hinside
    by_contra hgt
    -- the cell at the end of the property
    have hcell := (hinside (data.count - cell) (by omega)).2
    rw [add64_of_lt (by omega)] at hcell
    omega
  · intro hfit i hi
    rw [add64_of_lt (by omega)]
    omega

/-- What is combined from cells that lie in a property. -/
lemma CellSpan.Holds.getCombinedCell_eq {data : CellSpan} {cell n : ℕ} (h : data.Holds m xs)
    (hle : cell + n ≤ data.count) :
    getCombinedCell m ⟨data.addr + 4 * cell, n⟩ = .ok (cellsAt xs cell n) := by
  have hlen := h.length
  have hfits := h.fits
  unfold CellSpan.sizeBytes cellSizeBytes at hlen
  obtain ⟨-, hdrop⟩ := h.bytes.take_drop (4 * cell) (by omega)
  have hdrop_len : (xs.drop (4 * cell)).length = xs.length - 4 * cell := List.length_drop
  obtain ⟨htake, -⟩ := hdrop.take_drop (4 * n) (by omega)
  have htake_len : ((xs.drop (4 * cell)).take (4 * n)).length = 4 * n :=
    List.length_take_of_le (by omega)
  rw [getCombinedCell, combineCells_eq htake htake_len (by omega) (by norm_num),
    Nat.zero_mul, Nat.zero_add]
  rfl

/-- Combining cells that lie in the property. -/
lemma CellSpan.Holds.returns_combine {data : CellSpan} {cell off n : ℕ} {k : ℕ → DecodeRun α}
    (h : data.Holds m xs) (hle : cell + off + n ≤ data.count)
    (hk : Returns (k (cellsAt xs (cell + off) n)) P v) :
    Returns (combine m data ((data.subspanFrom (4 * cell / cellSizeBytes)).subspan off n) k)
      P v := by
  have hspan := h.subspan_eq (by omega : cell + off ≤ data.count) n
  have hrun : combine m data ⟨data.addr + 4 * (cell + off), n⟩ k =
      (k (cellsAt xs (cell + off) n)).log ⟨data, ⟨data.addr + 4 * (cell + off), n⟩⟩ := by
    rw [combine, h.getCombinedCell_eq hle, Run.after_ok]
  rw [hspan, hrun]
  refine ⟨?_, hk.result⟩
  rw [← hk.safe_iff, Safe, Run.visits_log, Run.result_log, List.forall_mem_cons,
    h.inside_iff (by omega)]
  exact and_congr_left fun _ => and_iff_right hle

/-- Combining cells past the end of the property. -/
lemma CellSpan.Holds.returns_combine_past {data : CellSpan} {cell off n : ℕ} {k : ℕ → DecodeRun α}
    (h : data.Holds m xs) (hle : cell + off ≤ data.count) (hlt : data.count < cell + off + n)
    (v : α) :
    Returns (combine m data ((data.subspanFrom (4 * cell / cellSizeBytes)).subspan off n) k)
      False v := by
  refine ⟨iff_false_intro fun hsafe => ?_, False.elim⟩
  have hinside := hsafe.1 _ List.mem_cons_self
  rw [h.subspan_eq hle n, h.inside_iff hle] at hinside
  omega

/-! ## The ranges of one bus -/

section Ranges

variable {bus : BusLevel} {level parent : Level} {addr : ℕ}

/-- One pass of the loop of `translate`, from the given cell on. -/
lemma returns_translateEntries_step {fuel cell stride w : ℕ} (hbus : bus.Holds m level)
    (hcond : (4 * cell + stride) % 2 ^ 32 ≤ bus.ranges.sizeBytes)
    (hle : cell + rangeCells level parent ≤ bus.ranges.count)
    (hno : ¬ (rangeAt level parent cell).Maps addr → Returns (translateEntriesRun m bus
      parent.addressCells stride addr fuel ((4 * cell + stride) % 2 ^ 32)) P w) :
    Returns (translateEntriesRun m bus parent.addressCells stride addr (fuel + 1) (4 * cell))
      ((rangeAt level parent cell).Maps addr ∨ P)
      (if (rangeAt level parent cell).Maps addr then
        add64 (addr - (rangeAt level parent cell).child) (rangeAt level parent cell).parent
      else w) := by
  have hlt := hbus.ranges.lt
  have hlen := hbus.ranges.length
  unfold CellSpan.sizeBytes cellSizeBytes at hlen
  unfold rangeCells at hle
  rw [translateEntriesRun, if_pos hcond]
  simp only
  rw [hbus.addressCells, hbus.sizeCells, Nat.mod_eq_of_lt (by omega)]
  refine hbus.ranges.returns_combine (by omega) ?_
  refine hbus.ranges.returns_combine (by omega) ?_
  refine hbus.ranges.returns_combine (by omega) ?_
  rw [Nat.add_zero, ← Nat.add_assoc]
  change Returns (if (rangeAt level parent cell).Maps addr then
    ⟨[], .ok (add64 (addr - (rangeAt level parent cell).child) (rangeAt level parent cell).parent)⟩
    else _) _ _
  by_cases hmaps : (rangeAt level parent cell).Maps addr
  · rw [if_pos hmaps, if_pos hmaps]
    exact (returns_ok _).congr (by simp [hmaps])
  · rw [if_neg hmaps, if_neg hmaps]
    exact (hno hmaps).congr (by simp [hmaps])

/-- A pass of the loop of `translate` past the end of the ranges. -/
lemma returns_translateEntries_past {fuel cell stride : ℕ} (hbus : bus.Holds m level)
    (hcond : (4 * cell + stride) % 2 ^ 32 ≤ bus.ranges.sizeBytes) (hle : cell ≤ bus.ranges.count)
    (hlt : bus.ranges.count < cell + rangeCells level parent) (v : ℕ) :
    Returns (translateEntriesRun m bus parent.addressCells stride addr (fuel + 1) (4 * cell))
      False v := by
  have hlt' := hbus.ranges.lt
  have hlen := hbus.ranges.length
  unfold CellSpan.sizeBytes cellSizeBytes at hlen
  unfold rangeCells at hlt
  rw [translateEntriesRun, if_pos hcond]
  simp only
  rw [hbus.addressCells, hbus.sizeCells]
  -- the first of the three numbers that does not fit
  by_cases hchild : bus.ranges.count < cell + level.addressCells
  · exact hbus.ranges.returns_combine_past hle hchild v
  refine hbus.ranges.returns_combine (by omega) ?_
  by_cases hparent : bus.ranges.count < cell + level.addressCells + parent.addressCells
  · exact hbus.ranges.returns_combine_past (by omega) hparent v
  refine hbus.ranges.returns_combine (by omega) ?_
  rw [Nat.mod_eq_of_lt (by omega)]
  exact hbus.ranges.returns_combine_past (by omega) (by omega) v

/-- An address through one more range. -/
lemma throughRanges_cons (r : RangeEntry) (entries : List RangeEntry) (addr : ℕ) :
    throughRanges (r :: entries) addr =
      if r.Maps addr then add64 (addr - r.child) r.parent else throughRanges entries addr := by
  by_cases hmaps : r.Maps addr
  · rw [if_pos hmaps, throughRanges, List.find?_cons_of_pos (by simpa using hmaps)]
  · rw [if_neg hmaps, throughRanges, List.find?_cons_of_neg (by simp [hmaps])]
    rfl

/-- The entries of ranges that are filled by them. -/
lemma rangeEntries_eq (h : 4 * rangeCells level parent ∣ level.ranges.length) :
    rangeEntries level parent =
      (List.range (level.ranges.length / (4 * rangeCells level parent))).map fun i =>
        rangeAt level parent (i * rangeCells level parent) := if_pos h

/-- The loop of `translate`, from an entry on: it is safe when the address lies in one of the ranges
that are left, or when adding a stride to the size of the property does not wrap. -/
lemma returns_translateEntries {fuel i : ℕ} (hbus : bus.Holds m level)
    (hpos : 0 < rangeCells level parent) (hlt : 4 * rangeCells level parent < 2 ^ 32)
    (hdvd : 4 * rangeCells level parent ∣ level.ranges.length)
    (hi : i ≤ level.ranges.length / (4 * rangeCells level parent))
    (hfuel : level.ranges.length / (4 * rangeCells level parent) - i < fuel) :
    Returns (translateEntriesRun m bus parent.addressCells (4 * rangeCells level parent) addr fuel
        (4 * (i * rangeCells level parent)))
      ((∃ r ∈ (rangeEntries level parent).drop i, r.Maps addr) ∨
        level.ranges.length + 4 * rangeCells level parent < 2 ^ 32)
      (throughRanges ((rangeEntries level parent).drop i) addr) := by
  have hlen := hbus.ranges.length
  have hlen_lt := hbus.ranges.lt
  rw [rangeEntries_eq hdvd]
  set T := rangeCells level parent with hT
  obtain ⟨N, hN⟩ := hdvd
  have hquot : level.ranges.length / (4 * T) = N := by
    rw [hN]
    exact Nat.mul_div_cancel_left N (by omega)
  have hbytes : level.ranges.length = 4 * (N * T) := by
    rw [hN]
    ring
  have hcount : bus.ranges.count = N * T := by
    unfold CellSpan.sizeBytes cellSizeBytes at hlen
    omega
  rw [hquot] at hi hfuel ⊢
  induction fuel generalizing i with
  | zero => exact absurd hfuel (Nat.not_lt_zero _)
  | succ fuel ih =>
    rcases Nat.lt_or_eq_of_le hi with hiN | rfl
    · -- an entry of the property
      have hle : i * T + T ≤ N * T := by
        have := Nat.mul_le_mul_right T (Nat.succ_le_of_lt hiN)
        rwa [Nat.succ_mul] at this
      have hnext : (4 * (i * T) + 4 * T) % 2 ^ 32 = 4 * ((i + 1) * T) := by
        rw [Nat.succ_mul, Nat.mod_eq_of_lt (by omega)]
        ring
      have hdrop : ((List.range N).map fun i => rangeAt level parent (i * T)).drop i =
          rangeAt level parent (i * T) ::
            ((List.range N).map fun i => rangeAt level parent (i * T)).drop (i + 1) := by
        rw [List.drop_eq_getElem_cons (by simpa using hiN)]
        simp
      rw [hdrop, throughRanges_cons]
      have hcond : (4 * (i * T) + 4 * T) % 2 ^ 32 ≤ bus.ranges.sizeBytes := by
        rw [hnext, ← hlen, hbytes, Nat.succ_mul]
        omega
      have hrest := ih (i := i + 1) (by omega) (by omega)
      rw [← hnext] at hrest
      refine (returns_translateEntries_step hbus hcond (hcount ▸ hle) fun _ => hrest).congr ?_
      rw [List.exists_mem_cons_iff]
      exact or_assoc.symm
    · -- behind the last entry
      have hnil : ((List.range i).map fun i => rangeAt level parent (i * T)).drop i = [] :=
        List.drop_eq_nil_of_le (by simp)
      rw [hnil]
      by_cases hfit : level.ranges.length + 4 * T < 2 ^ 32
      · have hstop : ¬ (4 * (i * T) + 4 * T) % 2 ^ 32 ≤ bus.ranges.sizeBytes := by
          rw [Nat.mod_eq_of_lt (by omega)]
          omega
        rw [translateEntriesRun, if_neg hstop]
        exact (returns_ok addr).congr (iff_of_true trivial (.inr hfit))
      · have hcond : (4 * (i * T) + 4 * T) % 2 ^ 32 ≤ bus.ranges.sizeBytes := by omega
        refine (returns_translateEntries_past hbus hcond hcount.ge (by omega) _).congr ?_
        refine iff_of_false id (not_or.mpr ⟨?_, hfit⟩)
        rintro ⟨r, hr, -⟩
        exact List.not_mem_nil hr

/-- Ranges that the parser skips have no entries. -/
lemma rangeEntries_eq_nil (hlt : level.ranges.length < 2 ^ 32)
    (h : level.ranges = [] ∨ 4 * rangeCells level parent % 2 ^ 32 = 0 ∨
      level.ranges.length % (4 * rangeCells level parent % 2 ^ 32) ≠ 0) :
    rangeEntries level parent = [] := by
  unfold rangeEntries
  split
  case isFalse => rfl
  case isTrue hdvd =>
    have hzero : level.ranges.length = 0 := by
      by_contra hne
      have hle := Nat.le_of_dvd (Nat.pos_of_ne_zero hne) hdvd
      rw [Nat.mod_eq_of_lt (by omega)] at h
      rcases h with h | h | h
      · exact hne (by rw [h, List.length_nil])
      · rw [h, zero_dvd_iff] at hdvd
        exact hne hdvd
      · exact h (Nat.mod_eq_zero_of_dvd hdvd)
    rw [hzero, Nat.zero_div]
    rfl

end Ranges

/-! ## Addresses and regions -/

/-- `translate` from the innermost bus on. -/
lemma returns_translate {stack : ℕ → BusLevel} {around : List Level}
    (hs : StackHolds m stack around) (addr : ℕ) :
    Returns (translateRun m stack around.length addr) (Translatable around addr)
      (translateUp around addr) := by
  induction around generalizing addr with
  | nil => exact returns_ok addr
  | cons bus around ih =>
    cases around with
    | nil =>
      -- the root is no bus
      rw [List.length_singleton, translateRun]
      simp only [Nat.zero_add, Nat.one_lt_two, or_true, if_true]
      exact returns_ok addr
    | cons parent rest =>
      obtain ⟨hbus, hrest⟩ := hs
      have hlt := hbus.ranges.lt
      have hlevel : (parent :: rest).length - 1 = rest.length := rfl
      have hstride : (bus.addressCells + parent.addressCells + bus.sizeCells) * cellSizeBytes =
          4 * rangeCells bus parent := Nat.mul_comm _ _
      have hskip (h : bus.ranges = [] ∨ 4 * rangeCells bus parent % 2 ^ 32 = 0 ∨
          bus.ranges.length % (4 * rangeCells bus parent % 2 ^ 32) ≠ 0) :
          Returns (translateRun m stack (parent :: rest).length addr)
            (Translatable (bus :: parent :: rest) addr)
              (translateUp (bus :: parent :: rest) addr) := by
        have hsame : throughRanges (rangeEntries bus parent) addr = addr := by
          rw [rangeEntries_eq_nil hlt h]
          rfl
        rw [translateUp, hsame]
        refine (ih hrest addr).congr ?_
        rw [Translatable, hsame]
        refine (and_iff_right ?_).symm
        rcases h with h | h | h
        · exact .inl h
        · exact .inr (.inl h)
        · exact .inr (.inr (.inl h))
      have hpos : ¬ (parent :: rest).length + 1 < 2 := by
        rw [List.length_cons]
        omega
      rw [List.length_cons, translateRun]
      simp only [hlevel, hbus.ranges.count_eq_zero, hpos, or_false, hbus.addressCells,
        hbus.sizeCells, hrest.1.addressCells, hstride, ← hbus.ranges.length]
      by_cases hnil : bus.ranges = []
      · rw [if_pos hnil]
        exact hskip (.inl hnil)
      rw [if_neg hnil]
      by_cases hragged : 4 * rangeCells bus parent % 2 ^ 32 = 0 ∨
          bus.ranges.length % (4 * rangeCells bus parent % 2 ^ 32) ≠ 0
      · rw [if_pos hragged]
        exact hskip (.inr hragged)
      rw [if_neg hragged]
      obtain ⟨hne, hmod⟩ := not_or.mp hragged
      have hdvd := Nat.dvd_of_mod_eq_zero (not_not.mp hmod)
      have hcondition : RangesDecodable bus parent addr ↔ 4 * rangeCells bus parent < 2 ^ 32 ∧
          (bus.ranges.length + 4 * rangeCells bus parent < 2 ^ 32 ∨
            ∃ r ∈ rangeEntries bus parent, r.Maps addr) := by
        rw [RangesDecodable, or_iff_right hnil, or_iff_right hne, or_iff_right hmod]
      rw [translateUp, Translatable, hcondition]
      refine Returns.bind ?_ (ih hrest _)
      by_cases hwide : 4 * rangeCells bus parent < 2 ^ 32
      · rw [Nat.mod_eq_of_lt hwide] at hne hdvd ⊢
        have hfuel : bus.ranges.length / (4 * rangeCells bus parent) - 0 < loopFuel := by
          have hdiv := Nat.div_le_self bus.ranges.length (4 * rangeCells bus parent)
          unfold loopFuel
          omega
        have hentries :
            Returns (translateEntriesRun m _ parent.addressCells _ addr loopFuel _) _ _ :=
          returns_translateEntries hbus (by omega) hwide hdvd (Nat.zero_le _) hfuel
        rw [Nat.zero_mul, List.drop_zero] at hentries
        refine hentries.congr ?_
        rw [and_iff_right hwide]
        exact or_comm
      · -- an entry has more cells than there are
        have hle := Nat.le_of_dvd (List.length_pos_iff.mpr hnil) hdvd
        have hlen := hbus.ranges.length
        have hcond : (4 * 0 + 4 * rangeCells bus parent % 2 ^ 32) % 2 ^ 32 ≤
            (stack (parent :: rest).length).ranges.sizeBytes := by
          omega
        have hfuel : loopFuel = (2 ^ 64 - 1) + 1 := by
          unfold loopFuel
          norm_num
        rw [hfuel]
        unfold CellSpan.sizeBytes cellSizeBytes at hlen
        refine (returns_translateEntries_past hbus hcond (Nat.zero_le _) (by omega) _).congr ?_
        exact iff_of_false id fun h => hwide h.1


/-- The first regions of a list, as many as there are slots. -/
def takeRegions (slots : ℕ) (regions : List DeviceRegion) :
    { regions : List DeviceRegion // regions.length ≤ slots } :=
  ⟨regions.take slots, List.length_take_le _ _⟩

section Regions

variable {stack : ℕ → BusLevel} {level : Level} {around : List Level}

/-- The `reg` of a device whose entries have fewer than `2 ^ 32` bytes, from an entry on. -/
lemma returns_decodeRegions {slots i : ℕ} (hs : StackHolds m stack (level :: around))
    (hpos : 0 < regCellCount around) (hlt : 4 * regCellCount around < 2 ^ 32)
    (hdvd : 4 * regCellCount around ∣ level.reg.length) (hi : i ≤ regCount level around) :
    Returns (decodeRegionsRun m stack around.length slots (4 * (i * regCellCount around)))
      ((i + slots ≤ regCount level around ∨
          level.reg.length + 4 * regCellCount around < 2 ^ 32) ∧
        ∀ j, i ≤ j → j < min (i + slots) (regCount level around) →
          Translatable around (regBase level around j))
      (takeRegions slots
        (((List.range (regCount level around)).map (regionAt level around)).drop i)) := by
  obtain ⟨hnode, haround⟩ := hs
  have hlen := hnode.reg.length
  have hlen_lt := hnode.reg.lt
  obtain ⟨N, hN⟩ := hdvd
  have hquot : regCount level around = N := by
    rw [regCount, hN]
    exact Nat.mul_div_cancel_left N (by omega)
  have hbytes : level.reg.length = 4 * (N * regCellCount around) := by
    rw [hN]
    ring
  have hcount : (stack around.length).reg.count = N * regCellCount around := by
    unfold CellSpan.sizeBytes cellSizeBytes at hlen
    omega
  have hstride : regStride stack around.length = 4 * regCellCount around := by
    rw [regStride_eq haround, entryStride, Nat.mul_comm]
    exact Nat.mod_eq_of_lt hlt
  have hcells : (parentCells around).1 + (parentCells around).2 = regCellCount around := rfl
  rw [hquot] at hi ⊢
  induction slots generalizing i with
  | zero =>
    refine (returns_ok _).congr (iff_of_true trivial ⟨.inl hi, fun j hij hj => ?_⟩)
    omega
  | succ slots ih =>
    rw [decodeRegionsRun]
    simp only [hstride, regCells_eq haround]
    rcases Nat.lt_or_eq_of_le hi with hiN | rfl
    · -- an entry of the property
      have hle : i * regCellCount around + regCellCount around ≤ N * regCellCount around := by
        have hmul := Nat.mul_le_mul_right (regCellCount around) (Nat.succ_le_of_lt hiN)
        rwa [Nat.succ_mul] at hmul
      have hnext : (4 * (i * regCellCount around) + 4 * regCellCount around) % 2 ^ 32 =
          4 * ((i + 1) * regCellCount around) := by
        rw [Nat.succ_mul, Nat.mod_eq_of_lt (by omega)]
        ring
      have hcond : (4 * (i * regCellCount around) + 4 * regCellCount around) % 2 ^ 32 ≤
          (stack around.length).reg.sizeBytes := by
        rw [hnext, ← hlen, hbytes, Nat.succ_mul]
        omega
      have hdrop : ((List.range N).map (regionAt level around)).drop i =
          regionAt level around i :: ((List.range N).map (regionAt level around)).drop (i + 1) := by
        rw [List.drop_eq_getElem_cons (by simpa using hiN)]
        simp
      have hrest := ih (i := i + 1) hiN
      rw [if_pos hcond, hdrop]
      refine hnode.reg.returns_combine (by omega) ?_
      refine hnode.reg.returns_combine (by omega) ?_
      rw [hnext, Nat.add_zero (i * regCellCount around)]
      refine Returns.congr (Returns.bind (returns_translate haround _)
        (Returns.bind hrest (returns_ok _))) ?_
      rw [and_true, ← and_assoc, and_comm (a := Translatable _ _), and_assoc]
      refine and_congr (by rw [Nat.add_assoc, Nat.add_comm 1]) ⟨fun ⟨hfirst, hlater⟩ j hij hj => ?_,
        fun hall => ⟨hall i le_rfl (by omega), fun j hij hj => hall j (by omega) (by omega)⟩⟩
      rcases Nat.lt_or_eq_of_le hij with hij | rfl
      · exact hlater j hij (by omega)
      · exact hfirst
    · -- behind the last entry
      have hnil : ((List.range i).map (regionAt level around)).drop i = [] :=
        List.drop_eq_nil_of_le (by simp)
      rw [hnil]
      by_cases hfit : level.reg.length + 4 * regCellCount around < 2 ^ 32
      · have hstop : ¬ (4 * (i * regCellCount around) + 4 * regCellCount around) % 2 ^ 32 ≤
            (stack around.length).reg.sizeBytes := by
          rw [Nat.mod_eq_of_lt (by omega)]
          omega
        rw [if_neg hstop]
        refine (returns_ok _).congr (iff_of_true trivial ⟨.inr hfit, fun j hij hj => ?_⟩)
        omega
      · have hcond : (4 * (i * regCellCount around) + 4 * regCellCount around) % 2 ^ 32 ≤
            (stack around.length).reg.sizeBytes := by
          omega
        rw [if_pos hcond]
        refine Returns.congr (P := False) ?_ (iff_of_false id fun h => ?_)
        · by_cases hbase : (stack around.length).reg.count <
              i * regCellCount around + (parentCells around).1
          · exact hnode.reg.returns_combine_past hcount.ge hbase _
          · refine hnode.reg.returns_combine (by omega) ?_
            exact hnode.reg.returns_combine_past (by omega) (by omega) _
        · rcases h.1 with h | h
          · omega
          · exact hfit h

/-- The `reg` of a device whose entries do not fit in 32 bits. -/
lemma returns_decodeRegions_wide {slots : ℕ} (hs : StackHolds m stack (level :: around))
    (hdevice : IsDevice (level :: around)) (hwide : ¬ 4 * regCellCount around < 2 ^ 32)
    (v : { regions : List DeviceRegion // regions.length ≤ slots + 1 }) :
    Returns (decodeRegionsRun m stack around.length (slots + 1) (4 * 0)) False v := by
  obtain ⟨hnode, haround⟩ := hs
  obtain ⟨-, hne, -, hmod⟩ := hdevice
  have hlen := hnode.reg.length
  have hlt := hnode.reg.lt
  have hcells : (parentCells around).1 + (parentCells around).2 = regCellCount around := rfl
  have hle := Nat.le_of_dvd (List.length_pos_iff.mpr hne) (Nat.dvd_of_mod_eq_zero hmod)
  have hcond : (4 * 0 + entryStride around) % 2 ^ 32 ≤ (stack around.length).reg.sizeBytes := by
    omega
  rw [decodeRegionsRun]
  simp only [regStride_eq haround, regCells_eq haround, if_pos hcond]
  unfold CellSpan.sizeBytes cellSizeBytes at hlen
  -- an entry has more cells than there are
  by_cases hbase : (stack around.length).reg.count < (parentCells around).1
  · exact hnode.reg.returns_combine_past (Nat.zero_le _) (by omega) v
  · refine hnode.reg.returns_combine (by omega) ?_
    exact hnode.reg.returns_combine_past (by omega) (by omega) v

end Regions

/-- What is decoded for a device. -/
lemma returns_decodeDevice {s : FindState} {levels : List Level}
    (hdepth : s.depth + 1 = levels.length)
    (hs : StackHolds m s.stack levels) (hdevice : IsDevice levels) :
    Returns (decodeDeviceRun m (some s)) (Decodable levels) (deviceNode (some levels)) := by
  cases levels with
  | nil => exact absurd hdevice id
  | cons level around =>
    have hdepth' : s.depth = around.length := by
      rw [List.length_cons] at hdepth
      omega
    rw [decodeDeviceRun, hdepth']
    by_cases hwide : 4 * regCellCount around < 2 ^ 32
    · have hstride : entryStride around = 4 * regCellCount around := by
        rw [entryStride, Nat.mul_comm]
        exact Nat.mod_eq_of_lt hwide
      obtain ⟨-, -, hne, hmod⟩ := id hdevice
      rw [hstride] at hne hmod
      have hregions : Returns (decodeRegionsRun m s.stack around.length dtMaxRegions _) _ _ :=
        returns_decodeRegions hs (by omega) hwide (Nat.dvd_of_mod_eq_zero hmod) (Nat.zero_le _)
      rw [Nat.zero_mul] at hregions
      refine (hregions.bind (returns_ok _)).congr ?_
      rw [and_true, Nat.zero_add, Decodable, and_iff_right hwide]
      simp
    · have hregions := returns_decodeRegions_wide hs hdevice hwide
        (takeRegions dtMaxRegions (regionsOf (level :: around)))
      have hnode : takeRegions dtMaxRegions (regionsOf (level :: around)) =
          ⟨regionsOf (level :: around), length_regionsOf_le _⟩ :=
        Subtype.ext (List.take_of_length_le (length_regionsOf_le _))
      rw [hnode] at hregions
      refine (hregions.bind (returns_ok _)).congr ?_
      exact iff_of_false (fun h => h.1) fun h => hwide h.1

/-! ## `FindDevice` -/

/-- The walk stops at a device. -/
lemma isDevice_of_deviceLevels {devices : List (List UInt8)} {levels found : List Level}
    {l : List (ℕ × Token)} (h : deviceLevels devices levels l = some found) : IsDevice found := by
  induction l generalizing levels with
  | nil => cases h
  | cons p l ih =>
    rw [deviceLevels] at h
    split at h
    case isTrue hdevice =>
      obtain rfl := Option.some.inj h
      exact hdevice.2
    case isFalse => exact ih h

/-- A device that is decoded safely, and what is returned for it; without a device nothing is
decoded. -/
lemma returns_findDevice {dtb : ℕ} {devices : List (List UInt8)} {r : Option FindState}
    {found : Option (List Level)} (hwalk : (findWalk m dtb devices).result = .ok r)
    (hfound : Found m found r) (hdevice : ∀ levels, found = some levels → IsDevice levels) :
    Returns (findDeviceRun m dtb devices) (∀ levels, found = some levels → Decodable levels)
      (deviceNode found) := by
  rw [findDeviceRun, hwalk, Run.after_ok]
  cases found with
  | none =>
    cases r with
    | none => exact (returns_ok _).congr (iff_of_true trivial fun _ h => nomatch h)
    | some s => exact absurd hfound id
  | some levels =>
    cases r with
    | none => exact absurd hfound id
    | some s =>
      refine (returns_decodeDevice hfound.1 hfound.2 (hdevice levels rfl)).congr ?_
      simp

/-- On a blob that validation accepts, `FindDevice` combines only cells of the property it decodes,
and its loops end, if and only if the device it stops at is decodable. -/
theorem findDevice_safe_iff (content : ℕ → UInt8) (dtb : UInt64) (visits : List Visit)
    (h : validateHeader (fun a => some (content a)) dtb.toNat = ⟨visits, .ok ()⟩)
    (hdtb : 4 ∣ dtb.toNat) (hstruct : 4 ∣ fieldAt content dtb.toNat .structOff) :
    ∃ l, Tokens (blobOf (fun a => some (content a)) dtb.toNat (fieldAt content dtb.toNat))
        (dtb.toNat + fieldAt content dtb.toNat .structOff) l
        (dtb.toNat + fieldAt content dtb.toNat .structOff +
          fieldAt content dtb.toNat .sizeStructs) ∧
      Balanced [] l ∧
      ∀ m, HasBlocks content dtb.toNat m → ∀ devices,
        (findDeviceRun m dtb.toNat devices).result = (findDevice m dtb.toNat devices).result ∧
        (Safe (findDeviceRun m dtb.toNat devices) ↔
          ∀ levels, deviceLevels devices [] l = some levels → Decodable levels) := by
  obtain ⟨f, hv, htokens⟩ := tokens_of_validateHeader dtb.toNat_lt h
  obtain rfl := hv.eq_fieldAt
  have hal : 4 ∣ dtb.toNat + fieldAt content dtb.toNat .structOff ∨ PropsAfterNode visits :=
    .inl (hdtb.add hstruct)
  obtain ⟨l, hl, hbal, hnest, rfl⟩ := htokens (fun _ _ _ => rfl) hal
  refine ⟨l, hl, hbal, fun m hm devices => ⟨result_findDeviceRun _ _ _, ?_⟩⟩
  have hv' : ValidHeader m dtb.toNat (fieldAt content dtb.toNat) := hv.congr hm.header
  have hl' : Tokens (blobOf m dtb.toNat (fieldAt content dtb.toNat)) _ l _ :=
    tokens_congr hl ⟨rfl, rfl, rfl, hm.strings⟩ hm.structs
  obtain ⟨r, hr, hfound⟩ := findWalk_found devices hv' hl' hbal hnest hal
  exact (returns_findDevice hr hfound fun levels => isDevice_of_deviceLevels).safe_iff

/-- The tree of one device. -/
theorem findDevice_safe_iff_rootDevice :
    ∃ l, Balanced [] l ∧ ∀ m, HasBlocks (contentAt 0x1000 rootDevice) 0x1000 m →
      (Safe (findDeviceRun m 0x1000 [ascii "a"]) ↔
        ∀ levels, deviceLevels [ascii "a"] [] l = some levels → Decodable levels) := by
  have hresult : (validateHeader (fun a => some (contentAt 0x1000 rootDevice a)) 0x1000).result =
      .ok () := by decide +kernel
  have hvalid := Run.eq_mk hresult
  have hdtb : (0x1000 : UInt64).toNat = 0x1000 := rfl
  have hstruct : 4 ∣ fieldAt (contentAt 0x1000 rootDevice) 0x1000 .structOff := by decide +kernel
  have hsafe := findDevice_safe_iff (contentAt 0x1000 rootDevice) 0x1000
    (validateHeader (fun a => some (contentAt 0x1000 rootDevice a)) 0x1000).visits
  rw [hdtb] at hsafe
  obtain ⟨l, -, hbal, hl⟩ := hsafe hvalid (by norm_num) hstruct
  exact ⟨l, hbal, fun m hm => (hl m hm [ascii "a"]).2⟩

/-- A memory that holds the given bytes and nothing else. -/
def memoryOf (base : ℕ) (bytes : List UInt8) : Memory := fun a =>
  if base ≤ a then bytes[a - base]? else none

/-- A bus with `2 ^ 30` address cells and one size cell, and a device `a` on it with a `reg` of one
cell. -/
def wideBus : List UInt8 :=
  blobBytes 0
    (beginNodeBytes [] ++ propBytes 15 (beBytes 4 0x40000000) ++ beginNodeBytes (ascii "d") ++
      propBytes 0 (ascii "a" ++ [0]) ++ propBytes 11 (beBytes 4 0) ++ endNodeBytes ++
      endNodeBytes ++ finishBytes)
    (ascii "compatible" ++ [0] ++ ascii "reg" ++ [0] ++ ascii "#address-cells" ++ [0])

/-- The size of an entry wraps to four bytes, so the `reg` of one cell passes for one entry, and
`FindDevice` goes on to combine the `2 ^ 30` cells from there on. -/
theorem wide_bus_leaves_reg :
    (validateHeader (memoryOf 0x1000 wideBus) 0x1000).result = .ok () ∧
      ∃ c ∈ (findDeviceRun (memoryOf 0x1000 wideBus) 0x1000 [ascii "a"]).visits,
        c.data.count = 1 ∧ c.cells = ⟨c.data.addr, 2 ^ 30⟩ ∧ ¬ c.Inside := by
  have hvisit : (findDeviceRun (memoryOf 0x1000 wideBus) 0x1000 [ascii "a"]).visits.head? =
      some ⟨⟨0x1074, 1⟩, ⟨0x1074, 2 ^ 30⟩⟩ := by decide +kernel
  refine ⟨by decide +kernel, _, List.mem_of_mem_head? hvisit, rfl, rfl, fun hinside => ?_⟩
  have hcell := (hinside 1 (by norm_num)).2
  revert hcell
  decide

end DeviceTree

end HyperBerry
