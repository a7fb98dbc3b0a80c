import HyperBerry.DeviceTree.Tree

/-!
# The address generator

A model of `read_reg`, `cells_to_int`, `translate` and `find` in `scripts/bspgen/bspgen.py`, which
emits the addresses of the UART and the GIC as compile time constants.  A node of the script is a
node of the tree together with the nodes around it (its chain of parents), so it is a `Scope`; the
numbers of the script are not bounded.

The second half says what the script computes, in terms of the levels in which `FindDevice` is
described: a node is read into a `Level` by the rules of the script, and a list of levels declares
regions, as exact numbers.
-/

namespace HyperBerry

namespace DeviceTree

namespace Bspgen

open Memory

/-! ## Nodes -/

/-- `Node.props.get`: the dictionary of a node keeps the last value of a name. -/
def get (props : List Property) (key : Name) : Option (List UInt8) :=
  (props.reverse.find? fun p => p.name = key).map Property.value

/-- `Node.compatible`.  A byte that is not ASCII is decoded to a character that no wanted string
has, so the strings are compared as bytes. -/
def compatible (props : List Property) : List (List UInt8) :=
  match get props kCompatible with
  | none => []
  | some raw => (raw.splitOn 0).filter (· ≠ [])

/-- `Node.cell`. -/
def cell (props : List Property) (name : Name) (default : ℕ) : ℕ :=
  match get props name with
  | none => default
  | some raw => if raw.length < 4 then default else beNat (raw.take 4)

mutual

/-- `Node.walk`: the nodes in document order, below the given ones. -/
def walk (around : Scope) : Tree → List Scope
  | .node _ props children => (props :: around) :: walkOf (props :: around) children

/-- The nodes of some trees in document order. -/
def walkOf (around : Scope) : List Tree → List Scope
  | [] => []
  | t :: ts => walk around t ++ walkOf around ts

end

/-- The node is compatible with one of the wanted strings. -/
def isWanted (compatibles : List (List UInt8)) : Scope → Bool
  | [] => false
  | props :: _ => compatibles.any fun want => want ∈ compatible props

/-- `find`. -/
def find (root : Tree) (compatibles : List (List UInt8)) : Option Scope :=
  (walk [] root).find? (isWanted compatibles)

/-! ## Numbers -/

/-- `range(0, stop, step)`. -/
def steps (stop step : ℕ) : List ℕ :=
  (List.range ((stop + step - 1) / step)).map (· * step)

/-- `cells_to_int`. -/
def cellsToInt (chunk : List UInt8) : ℕ :=
  (steps chunk.length 4).foldl (fun value i => value <<< 32 ||| beNat ((chunk.drop i).take 4)) 0

/-- The loop of `translate` over the entries of a `ranges` at the given offsets. -/
def translateEntries (raw : List UInt8) (childCells parentCells stride addr : ℕ) : List ℕ → ℕ
  | [] => addr
  | off :: rest =>
    let entry := (raw.drop off).take stride
    let child := cellsToInt (entry.take (childCells * 4))
    let parent := cellsToInt ((entry.take ((childCells + parentCells) * 4)).drop (childCells * 4))
    let length := cellsToInt (entry.drop ((childCells + parentCells) * 4))
    if child ≤ addr ∧ addr < child + length then addr - child + parent
    else translateEntries raw childCells parentCells stride addr rest

/-- The body of the loop of `translate` over the buses. -/
def throughBus (bus parent : List Property) (addr : ℕ) : ℕ :=
  match get bus kRanges with
  | none => addr
  | some raw =>
    if raw.length = 0 then addr
    else
      let childCells := cell bus kAddressCells 2
      let parentCells := cell parent kAddressCells 2
      let sizeCells := cell bus kSizeCells 1
      let stride := (childCells + parentCells + sizeCells) * 4
      if stride = 0 ∨ raw.length % stride ≠ 0 then addr
      else translateEntries raw childCells parentCells stride addr (steps raw.length stride)

/-- `translate`, from the bus around a node on; the root is not a bus that is translated. -/
def translate : Scope → ℕ → ℕ
  | bus :: parent :: around, addr => translate (parent :: around) (throughBus bus parent addr)
  | _, addr => addr

/-- `read_reg`. -/
def readReg : Scope → List (ℕ × ℕ)
  | [] => []
  | props :: around =>
    match get props kReg with
    | none => []
    | some raw =>
      let addrCells := around.head?.elim 2 fun parent => cell parent kAddressCells 2
      let sizeCells := around.head?.elim 1 fun parent => cell parent kSizeCells 1
      let stride := (addrCells + sizeCells) * 4
      if stride = 0 ∨ raw.length % stride ≠ 0 then []
      else (steps raw.length stride).map fun off =>
        let entry := (raw.drop off).take stride
        (translate around (cellsToInt (entry.take (addrCells * 4))),
          cellsToInt (entry.drop (addrCells * 4)))

/-- `UART_COMPATIBLE`. -/
def uartCompatible : List (List UInt8) := [ascii "arm,pl011", ascii "brcm,bcm2835-aux-uart"]

/-- `GIC_COMPATIBLE`. -/
def gicCompatible : List (List UInt8) :=
  [ascii "arm,gic-400", ascii "arm,cortex-a15-gic", ascii "arm,gic-v2", ascii "arm,arm11mp-gic"] ++
    [ascii "arm,gic-v3"]

/-- `read_reg(find(root, compatibles))`; without a node there are no regions. -/
def regions (root : Tree) (compatibles : List (List UInt8)) : List (ℕ × ℕ) :=
  (find root compatibles).elim [] readReg

/-- `GICV3_COMPATIBLE`. -/
def gicV3Compatible : List (List UInt8) := [ascii "arm,gic-v3"]

/-- A constant of `regs.inc`. -/
def constant (region : ℕ × ℕ) : DeviceRegion := ⟨UInt64.ofNat region.1, UInt64.ofNat region.2⟩

/-- The constants that `main` emits, if they are all there that `GetHostMmio` needs: the first
region of the console, and the four regions of an interrupt controller that is not of version 3. -/
def constants (root : Tree) : Option BspConstants :=
  match find root gicCompatible, regions root uartCompatible, regions root gicCompatible with
  | some gic, uart :: _, distributor :: cpu :: hv :: vcpu :: _ =>
    if isWanted gicV3Compatible gic then none
    else some ⟨constant uart, constant distributor, constant cpu, constant hv, constant vcpu⟩
  | _, _, _ => none

/-! ## Exact numbers -/

/-- The number in `n` cells, from the given cell on. -/
def number (xs : List UInt8) (cell n : ℕ) : ℕ := beNat ((xs.drop (4 * cell)).take (4 * n))

/-- The entry of `ranges` from the given cell on. -/
def exactRange (bus parent : Level) (cell : ℕ) : RangeEntry where
  child := number bus.ranges cell bus.addressCells
  parent := number bus.ranges (cell + bus.addressCells) parent.addressCells
  length := number bus.ranges (cell + bus.addressCells + parent.addressCells) bus.sizeCells

/-- The entries of the `ranges` of a bus; none if they do not fill it. -/
def exactRanges (bus parent : Level) : List RangeEntry :=
  if 4 * rangeCells bus parent ∣ bus.ranges.length then
    (List.range (bus.ranges.length / (4 * rangeCells bus parent))).map fun i =>
      exactRange bus parent (i * rangeCells bus parent)
  else []

/-- An address through the first of some ranges that it lies in. -/
def exactThrough (entries : List RangeEntry) (addr : ℕ) : ℕ :=
  match entries.find? fun r => r.Maps addr with
  | some r => addr - r.child + r.parent
  | none => addr

/-- An address on the innermost bus, as an address below the root. -/
def exactUp : List Level → ℕ → ℕ
  | bus :: parent :: around, addr =>
    exactUp (parent :: around) (exactThrough (exactRanges bus parent) addr)
  | _, addr => addr

/-- The base of an entry of `reg`, as it stands there. -/
def exactBase (level : Level) (around : List Level) (i : ℕ) : ℕ :=
  number level.reg (i * regCellCount around) (parentCells around).1

/-- The size in an entry of `reg`. -/
def exactSize (level : Level) (around : List Level) (i : ℕ) : ℕ :=
  number level.reg (i * regCellCount around + (parentCells around).1) (parentCells around).2

/-- The regions that a node declares: none if the entries do not fill its `reg`. -/
def declared : List Level → List (ℕ × ℕ)
  | [] => []
  | level :: around =>
    if 4 * regCellCount around ∣ level.reg.length then
      (List.range (regCount level around)).map fun i =>
        (exactUp around (exactBase level around i), exactSize level around i)
    else []

/-- A node as the script reads it. -/
def readLevel (compatibles : List (List UInt8)) (props : List Property) : Level where
  addressCells := cell props kAddressCells 2
  sizeCells := cell props kSizeCells 1
  ranges := (get props kRanges).getD []
  matched := ((get props kCompatible).map fun raw =>
    decide (IsCompatible compatibles raw)).getD false
  reg := (get props kReg).getD []

/-! ## What the script computes -/

variable {xs raw : List UInt8} {n stride : ℕ}

/-- The offsets of the entries that fill a value. -/
lemma steps_mul (hstride : 0 < stride) :
    steps (n * stride) stride = (List.range n).map (· * stride) := by
  have hcount : (n * stride + stride - 1) / stride = n := by
    rw [Nat.add_sub_assoc hstride, Nat.add_comm, Nat.add_mul_div_right _ _ hstride,
      Nat.div_eq_of_lt (by omega), Nat.zero_add]
  rw [steps, hcount]

/-- The number in whole cells. -/
lemma cellsToInt_eq (h : 4 ∣ xs.length) : cellsToInt xs = beNat xs := by
  obtain ⟨n, hn⟩ := h
  rw [Nat.mul_comm] at hn
  have hfold : ∀ k ≤ n, ((List.range k).map (· * 4)).foldl
      (fun value i => value <<< 32 ||| beNat ((xs.drop i).take 4)) 0 = beNat (xs.take (k * 4)) := by
    intro k hk
    induction k with
    | zero => simp [beNat]
    | succ k ih =>
      have hcell : ((xs.drop (k * 4)).take 4).length = 4 := by
        rw [List.length_take, List.length_drop]
        omega
      have hlt := beNat_lt ((xs.drop (k * 4)).take 4)
      rw [hcell] at hlt
      have hsplit : xs.take ((k + 1) * 4) = xs.take (k * 4) ++ (xs.drop (k * 4)).take 4 := by
        rw [Nat.succ_mul, List.take_add]
      rw [List.range_succ, List.map_append, List.foldl_append, ih (by omega), List.map_singleton,
        List.foldl_cons, List.foldl_nil, hsplit, beNat_append, hcell, Nat.shiftLeft_eq,
        mul_two_pow_or (by omega)]
      norm_num
  rw [cellsToInt, hn, steps_mul (by norm_num), hfold n le_rfl, ← hn, List.take_length]

/-- Some cells of an entry, as cells of the whole value. -/
lemma entry_cells {a b cells i : ℕ} (hcells : a + b ≤ cells) :
    (((raw.drop (i * (cells * 4))).take (cells * 4)).take ((a + b) * 4)).drop (a * 4) =
      (raw.drop (4 * (i * cells + a))).take (4 * b) := by
  rw [List.take_take, Nat.min_eq_left (by omega), List.drop_take, List.drop_drop]
  congr 2
  · omega
  · ring

/-- The number in some cells of an entry. -/
lemma cellsToInt_entry {a b cells i count : ℕ} (hcells : a + b ≤ cells) (hi : i < count)
    (hraw : raw.length = count * (cells * 4)) :
    cellsToInt ((((raw.drop (i * (cells * 4))).take (cells * 4)).take ((a + b) * 4)).drop (a * 4)) =
      number raw (i * cells + a) b := by
  have hroom : (i + 1) * (cells * 4) ≤ count * (cells * 4) := Nat.mul_le_mul_right _ hi
  rw [Nat.succ_mul] at hroom
  have hscale : i * (cells * 4) = i * cells * 4 := by ring
  rw [entry_cells hcells, number, cellsToInt_eq]
  rw [List.length_take, List.length_drop, Nat.min_eq_left (by omega)]
  exact Nat.dvd_mul_right _ _

/-- The first cells of an entry. -/
lemma cellsToInt_first {a cells i count : ℕ} (hcells : a ≤ cells) (hi : i < count)
    (hraw : raw.length = count * (cells * 4)) :
    cellsToInt (((raw.drop (i * (cells * 4))).take (cells * 4)).take (a * 4)) =
      number raw (i * cells) a := by
  have h := cellsToInt_entry (a := 0) (b := a) (by omega) hi hraw
  rwa [Nat.zero_add, Nat.zero_mul, List.drop_zero, Nat.add_zero] at h

/-- The last cells of an entry. -/
lemma cellsToInt_last {a b cells i count : ℕ} (hcells : a + b = cells) (hi : i < count)
    (hraw : raw.length = count * (cells * 4)) :
    cellsToInt (((raw.drop (i * (cells * 4))).take (cells * 4)).drop (a * 4)) =
      number raw (i * cells + a) b := by
  have h := cellsToInt_entry hcells.le hi hraw
  rwa [hcells, List.take_take, Nat.min_self] at h

/-- An address through some ranges, the first one first. -/
lemma exactThrough_cons (r : RangeEntry) (entries : List RangeEntry) (addr : ℕ) :
    exactThrough (r :: entries) addr =
      if r.Maps addr then addr - r.child + r.parent else exactThrough entries addr := by
  rw [exactThrough, List.find?_cons]
  by_cases h : r.Maps addr
  · simp [h]
  · simp [h, exactThrough]

/-- The loop of `translate` over the entries of a bus. -/
lemma translateEntries_eq {bus parent : Level} {count : ℕ} {is : List ℕ} (addr : ℕ)
    (hraw : bus.ranges.length = count * (rangeCells bus parent * 4)) (his : ∀ i ∈ is, i < count) :
    translateEntries bus.ranges bus.addressCells parent.addressCells
        (rangeCells bus parent * 4) addr (is.map (· * (rangeCells bus parent * 4))) =
      exactThrough (is.map fun i => exactRange bus parent (i * rangeCells bus parent)) addr := by
  induction is with
  | nil => rfl
  | cons i is ih =>
    obtain ⟨hi, his⟩ := List.forall_mem_cons.mp his
    have hcells : bus.addressCells + parent.addressCells + bus.sizeCells = rangeCells bus parent :=
      rfl
    rw [List.map_cons, List.map_cons, translateEntries, exactThrough_cons, ih his]
    simp only [cellsToInt_first (a := bus.addressCells) (by omega) hi hraw,
      cellsToInt_entry (a := bus.addressCells) (b := parent.addressCells) (by omega) hi hraw,
      cellsToInt_last hcells hi hraw]
    refine if_congr ?_ rfl rfl
    simp only [RangeEntry.Maps, exactRange, Nat.add_assoc]
    omega

/-- The loop body of `translate`. -/
lemma throughBus_eq (compatibles : List (List UInt8)) (bus parent : List Property) (addr : ℕ) :
    throughBus bus parent addr =
      exactThrough (exactRanges (readLevel compatibles bus) (readLevel compatibles parent))
        addr := by
  have hcells : rangeCells (readLevel compatibles bus) (readLevel compatibles parent) =
      cell bus kAddressCells 2 + cell parent kAddressCells 2 + cell bus kSizeCells 1 := rfl
  rw [throughBus]
  cases hget : get bus kRanges with
  | none =>
    have hnil : (readLevel compatibles bus).ranges = [] := by simp [readLevel, hget]
    rw [exactRanges, hnil]
    simp [exactThrough]
  | some raw =>
    have hranges : (readLevel compatibles bus).ranges = raw := by simp [readLevel, hget]
    simp only [← hcells, exactRanges, hranges]
    by_cases hempty : raw.length = 0
    · rw [if_pos hempty, hempty]
      simp [exactThrough]
    rw [if_neg hempty]
    by_cases hragged :
        rangeCells (readLevel compatibles bus) (readLevel compatibles parent) * 4 = 0 ∨
          raw.length %
            (rangeCells (readLevel compatibles bus) (readLevel compatibles parent) * 4) ≠ 0
    · rw [if_pos hragged, if_neg]
      · rfl
      · rw [Nat.mul_comm]
        rintro ⟨k, hk⟩
        rcases hragged with hzero | hrest
        · rw [hzero, Nat.zero_mul] at hk
          exact hempty hk
        · rw [hk, Nat.mul_mod_right] at hrest
          exact hrest rfl
    · rw [if_neg hragged]
      rw [not_or, not_not] at hragged
      obtain ⟨count, hcount⟩ := Nat.dvd_of_mod_eq_zero hragged.2
      rw [Nat.mul_comm] at hcount
      have hpos := Nat.pos_of_ne_zero hragged.1
      have hdvd : 4 * rangeCells (readLevel compatibles bus) (readLevel compatibles parent) ∣
          raw.length := by
        rw [hcount, Nat.mul_comm 4]
        exact Nat.dvd_mul_left _ _
      have hdiv : raw.length /
          (4 * rangeCells (readLevel compatibles bus) (readLevel compatibles parent)) = count := by
        rw [hcount, Nat.mul_comm 4, Nat.mul_div_cancel _ hpos]
      have hentries := translateEntries_eq addr ((congrArg _ hranges).trans hcount)
        fun i hi => List.mem_range.mp hi
      rw [if_pos hdvd, hdiv, hcount, steps_mul hpos, ← hentries, hranges]
      rfl

/-- `translate`. -/
lemma translate_eq (compatibles : List (List UInt8)) (around : Scope) (addr : ℕ) :
    translate around addr = exactUp (around.map (readLevel compatibles)) addr := by
  induction around generalizing addr with
  | nil => rfl
  | cons bus around ih =>
    cases around with
    | nil => rfl
    | cons parent around =>
      rw [translate, throughBus_eq compatibles, ih]
      rfl

/-- `read_reg` gives the regions that the node declares, as the script reads it. -/
theorem readReg_eq (compatibles : List (List UInt8)) (scope : Scope) :
    readReg scope = declared (scope.map (readLevel compatibles)) := by
  cases scope with
  | nil => rfl
  | cons props around =>
    have hcells : parentCells (around.map (readLevel compatibles)) =
        (around.head?.elim 2 fun parent => cell parent kAddressCells 2,
          around.head?.elim 1 fun parent => cell parent kSizeCells 1) := by
      cases around <;> rfl
    rw [readReg, List.map_cons, declared, regCount, regCellCount]
    simp only [exactBase, exactSize, regCellCount, hcells]
    generalize around.head?.elim 2 (fun parent => cell parent kAddressCells 2) = addrCells
    generalize around.head?.elim 1 (fun parent => cell parent kSizeCells 1) = sizeCells
    cases hget : get props kReg with
    | none =>
      have hnil : (readLevel compatibles props).reg = [] := by simp [readLevel, hget]
      simp [hnil]
    | some raw =>
      have hreg : (readLevel compatibles props).reg = raw := by simp [readLevel, hget]
      simp only [hreg]
      rw [Nat.mul_comm 4 (addrCells + sizeCells)]
      generalize hstride : (addrCells + sizeCells) * 4 = stride
      by_cases hzero : stride = 0
      · rw [if_pos (.inl hzero), hzero, Nat.div_zero]
        simp
      by_cases hragged : raw.length % stride = 0
      · obtain ⟨count, hcount⟩ := Nat.dvd_of_mod_eq_zero hragged
        rw [Nat.mul_comm] at hcount
        have hpos := Nat.pos_of_ne_zero hzero
        rw [if_neg (by simp [hzero, hragged]), if_pos (Nat.dvd_of_mod_eq_zero hragged), hcount,
          Nat.mul_div_cancel _ hpos, steps_mul hpos, List.map_map]
        subst hstride
        refine List.map_congr_left fun i hi => ?_
        rw [Function.comp_apply, cellsToInt_first (by omega) (List.mem_range.mp hi) hcount,
          cellsToInt_last rfl (List.mem_range.mp hi) hcount, translate_eq compatibles]
      · rw [if_pos (.inr hragged), if_neg fun h => hragged (Nat.mod_eq_zero_of_dvd h)]

/-! ## The search -/

/-- The pieces between the NULs are the strings of the list; behind the last NUL is one more piece.
-/
lemma splitOn_eq (raw : List UInt8) :
    raw.splitOn 0 = stringList raw ∨ raw.splitOn 0 = stringList raw ++ [[]] := by
  induction raw with
  | nil => exact .inr rfl
  | cons x raw ih =>
    have hsplit : (x :: raw).splitOn 0 =
        if x = 0 then [] :: raw.splitOn 0 else (raw.splitOn 0).modifyHead (List.cons x) := by
      rw [List.splitOn, List.splitOnP_cons_eq_if_modifyHead]
      simp only [beq_iff_eq]
      rfl
    rw [hsplit]
    by_cases hx : x = 0
    · have hstrings : stringList (x :: raw) = [] :: stringList raw := if_pos hx
      rw [if_pos hx, hstrings]
      exact ih.imp (congrArg _) (congrArg _)
    · rw [if_neg hx]
      cases hraw : stringList raw with
      | nil =>
        -- nothing follows, so the only piece is the empty one
        have hstrings : stringList (x :: raw) = [[x]] := by
          rw [stringList] at hraw
          rw [stringList, List.foldr_cons, if_neg hx, hraw]
        rw [hraw] at ih
        rw [hstrings]
        rcases ih with hnil | hone
        · exact absurd hnil (List.splitOnP_ne_nil _ _)
        · exact .inl (by rw [hone]; rfl)
      | cons s rest =>
        have hstrings : stringList (x :: raw) = (x :: s) :: rest := by
          rw [stringList] at hraw
          rw [stringList, List.foldr_cons, if_neg hx, hraw]
        rw [hraw] at ih
        rw [hstrings]
        exact ih.imp (fun h => by rw [h]; rfl) fun h => by rw [h]; rfl

/-- The strings of a compatible list that are not empty are those of the script. -/
lemma mem_splitOn {s raw : List UInt8} (hs : s ≠ []) : s ∈ raw.splitOn 0 ↔ s ∈ stringList raw := by
  rcases splitOn_eq raw with h | h
  · rw [h]
  · rw [h, List.mem_append, List.mem_singleton]
    exact or_iff_left hs

/-- The strings of `Node.compatible`. -/
lemma mem_compatible {s : List UInt8} {props : List Property} (hs : s ≠ []) :
    s ∈ compatible props ↔ ∃ raw, get props kCompatible = some raw ∧ s ∈ stringList raw := by
  rw [compatible]
  cases get props kCompatible with
  | none => simp
  | some raw => simp [hs, mem_splitOn hs]

/-- `find` looks for a node whose compatible list names one of the devices. -/
lemma isWanted_eq {compatibles : List (List UInt8)} (hne : [] ∉ compatibles) (props : List Property)
    (around : Scope) :
    isWanted compatibles (props :: around) = (readLevel compatibles props).matched := by
  have hmatched : (readLevel compatibles props).matched = true ↔
      ∃ raw, get props kCompatible = some raw ∧ IsCompatible compatibles raw := by
    rw [readLevel]
    cases get props kCompatible with
    | none => simp
    | some raw => simp
  rw [Bool.eq_iff_iff, hmatched, isWanted, List.any_eq_true]
  simp only [decide_eq_true_eq]
  constructor
  · rintro ⟨want, hwant, hmem⟩
    obtain ⟨raw, hraw, hmem⟩ := (mem_compatible fun h => hne (h ▸ hwant)).mp hmem
    exact ⟨raw, hraw, want, hmem, hwant⟩
  · rintro ⟨raw, hraw, want, hmem, hwant⟩
    exact ⟨want, hwant, (mem_compatible fun h => hne (h ▸ hwant)).mpr ⟨raw, hraw, hmem⟩⟩

end Bspgen

end DeviceTree

end HyperBerry
