import HyperBerry.DeviceTree.MemoryMap

/-!
# The stack of `FindDevice`

`FindDevice` keeps a slot for every open node, with the cell counts of the node and pointers to its
`reg` and `ranges`.  Here is what the slots stand for: the `Level` of an open node holds the values
of these properties, as they have been read so far.  The levels are listed from the innermost node
outwards; `levelsAfter` is what a token does to them, and `deviceLevels` finds the first node that
closes as a device.  The walk of `FindDevice` keeps its stack in step with the levels.
-/

namespace HyperBerry

namespace DeviceTree

open Memory Walk

variable {m : Memory} {a b c dtb : ℕ} {t : Token} {l : List (ℕ × Token)}
variable {path : List Name} {xs ys : List UInt8} {f : HeaderField → ℕ}

/-! ## The compatible list -/

/-- The strings of a list of NUL-terminated strings; the NUL of the last one may be missing. -/
def stringList (xs : List UInt8) : List (List UInt8) :=
  xs.foldr (fun x strings =>
    if x = 0 then [] :: strings
    else
      match strings with
      | [] => [[x]]
      | s :: rest => (x :: s) :: rest) []

/-- The first string of the list goes up to the first NUL. -/
lemma stringList_eq (h : xs ≠ []) : stringList xs =
    xs.takeWhile (· ≠ 0) :: stringList (xs.drop ((xs.takeWhile (· ≠ 0)).length + 1)) := by
  induction xs with
  | nil => exact absurd rfl h
  | cons x xs ih =>
    by_cases hzero : x = 0
    · rw [List.takeWhile_cons_of_neg (by simp [hzero])]
      simp [stringList, hzero]
    · have hcons : stringList (x :: xs) = match stringList xs with
          | [] => [[x]]
          | s :: rest => (x :: s) :: rest := by
        rw [stringList, List.foldr_cons, if_neg hzero]
        rfl
      rw [hcons, List.takeWhile_cons_of_pos (by simp [hzero]), List.length_cons,
        List.drop_succ_cons]
      by_cases hxs : xs = []
      · subst hxs
        rfl
      · rw [ih hxs]

/-- A compatible list names one of the devices. -/
def IsCompatible (devices : List (List UInt8)) (xs : List UInt8) : Prop :=
  ∃ s ∈ stringList xs, s ∈ devices

instance (devices : List (List UInt8)) (xs : List UInt8) : Decidable (IsCompatible devices xs) :=
  inferInstanceAs (Decidable (∃ s ∈ stringList xs, s ∈ devices))

/-- Comparing an entry with the candidates. -/
lemma entryMatches_eq (devices : List (List UInt8)) (h : m.HasBytes a xs)
    (ha : a + xs.length < 2 ^ 64) :
    entryMatches m a xs.length devices = .ok (decide (xs ∈ devices)) := by
  induction devices with
  | nil => simp [entryMatches]
  | cons candidate rest ih =>
    rw [entryMatches]
    by_cases hlen : candidate.length = xs.length
    · rw [if_neg (not_not.mpr hlen), matchBytes_bytes h ha hlen, ok_bind, ih]
      by_cases heq : xs = candidate
      · simp [heq]
        rfl
      · simp [heq]
    · have hne : xs ≠ candidate := fun heq => hlen (heq ▸ rfl)
      rw [if_pos hlen, ih]
      simp [hne]

/-- Searching a compatible list. -/
lemma matchesCompatible_eq {fuel : ℕ} (devices : List (List UInt8)) (h : m.HasBytes a xs)
    (ha : a + xs.length < 2 ^ 64) (hfuel : xs.length ≤ fuel) :
    matchesCompatible m devices fuel a xs.length = .ok (decide (IsCompatible devices xs)) := by
  induction fuel generalizing a xs with
  | zero =>
    obtain rfl := List.length_eq_zero_iff.mp (Nat.le_zero.mp hfuel)
    rfl
  | succ fuel ih =>
    cases hlen : xs.length with
    | zero =>
      obtain rfl := List.length_eq_zero_iff.mp hlen
      rfl
    | succ n =>
      have hne : xs ≠ [] := List.length_pos_iff.mp (by omega)
      have hnul := nulIndex_bytes h ha
      rw [hlen] at hnul hfuel ha
      rw [matchesCompatible, hnul, ok_bind]
      set entry := xs.takeWhile (· ≠ 0) with hentry
      have hle : entry.length ≤ n + 1 := hlen ▸ (List.takeWhile_prefix _).length_le
      have htake : xs.take entry.length = entry :=
        (List.prefix_iff_eq_take.mp (List.takeWhile_prefix _)).symm
      obtain ⟨hbytes, -⟩ := h.take_drop entry.length (by omega)
      rw [htake] at hbytes
      rw [entryMatches_eq devices hbytes (by omega), ok_bind]
      have hlist := stringList_eq hne
      rw [← hentry] at hlist
      by_cases hmem : entry ∈ devices
      · rw [decide_eq_true hmem, if_pos rfl, decide_eq_true]
        · rfl
        · exact ⟨entry, hlist ▸ List.mem_cons_self, hmem⟩
      · -- the rest of the list decides
        have hiff : IsCompatible devices xs ↔
            IsCompatible devices (xs.drop (entry.length + 1)) := by
          simp only [IsCompatible, hlist, List.mem_cons, exists_eq_or_imp, hmem, false_or]
        obtain ⟨step, hstep, hpos, hstep_le, hdrop⟩ : ∃ step,
            (if entry.length < n + 1 then entry.length + 1 else entry.length) = step ∧ 1 ≤ step ∧
              step ≤ n + 1 ∧ xs.drop (entry.length + 1) = xs.drop step := by
          refine ⟨_, rfl, ?_, ?_, ?_⟩
          · split <;> omega
          · split <;> omega
          · split
            · rfl
            · rw [List.drop_eq_nil_of_le (by omega), List.drop_eq_nil_of_le (by omega)]
        obtain ⟨-, hrest⟩ := h.take_drop step (by omega)
        have hlen' : (xs.drop step).length = n + 1 - step := by rw [List.length_drop, hlen]
        rw [decide_eq_false hmem]
        simp only [Bool.false_eq_true, if_false, hstep]
        rw [add64_of_lt (by omega), ← hlen', ih hrest (by omega) (by omega)]
        congr 1
        rw [decide_eq_decide, hiff, hdrop]

/-! ## Levels -/

/-- The bus properties of an open node, as read so far. -/
structure Level where
  /-- `#address-cells`. -/
  addressCells : ℕ := 2
  /-- `#size-cells`. -/
  sizeCells : ℕ := 1
  /-- The cells of `ranges`. -/
  ranges : List UInt8 := []
  /-- The compatible list names one of the devices. -/
  matched : Bool := false
  /-- The cells of `reg`. -/
  reg : List UInt8 := []
deriving DecidableEq

/-- The whole cells of a property value. -/
def wholeCells (xs : List UInt8) : List UInt8 := xs.take (xs.length / 4 * 4)

/-- What a property does to the level of its node. -/
def Level.set (devices : List (List UInt8)) (name : Name) (value : List UInt8) (level : Level) :
    Level :=
  if name = kAddressCells ∧ 4 ≤ value.length then
    { level with addressCells := beNat (value.take 4) }
  else if name = kSizeCells ∧ 4 ≤ value.length then
    { level with sizeCells := beNat (value.take 4) }
  else if name = kRanges then { level with ranges := wholeCells value }
  else if name = kReg then { level with reg := wholeCells value }
  else if name = kCompatible ∧ value ≠ [] then
    { level with matched := decide (IsCompatible devices value) }
  else level

/-- The levels after one more token, from the innermost node outwards. -/
def levelsAfter (devices : List (List UInt8)) (levels : List Level) : Token → List Level
  | .beginNode _ => {} :: levels
  | .endNode => levels.tail
  | .prop _ name value =>
    match levels with
    | [] => []
    | level :: rest => level.set devices name value :: rest
  | _ => levels

/-- The cell counts that hold for the `reg` of a node below the given ones. -/
def parentCells : List Level → ℕ × ℕ
  | [] => (2, 1)
  | parent :: _ => (parent.addressCells, parent.sizeCells)

/-- The size of an entry of `reg`, in the 32 bits that it is computed in. -/
def entryStride (around : List Level) : ℕ :=
  ((parentCells around).1 + (parentCells around).2) * 4 % 2 ^ 32

/-- The innermost node is a device, when it closes. -/
def IsDevice : List Level → Prop
  | [] => False
  | level :: around => level.matched = true ∧ level.reg ≠ [] ∧ entryStride around ≠ 0 ∧
      level.reg.length % entryStride around = 0

instance : (levels : List Level) → Decidable (IsDevice levels)
  | [] => instDecidableFalse
  | _ :: _ => inferInstanceAs (Decidable (_ ∧ _))

/-- The levels at the end of the first node that closes as a device. -/
def deviceLevels (devices : List (List UInt8)) (levels : List Level) :
    List (ℕ × Token) → Option (List Level)
  | [] => none
  | (_, t) :: l =>
    if t = .endNode ∧ IsDevice levels then some levels
    else deviceLevels devices (levelsAfter devices levels t) l

/-- The levels are those of the open nodes. -/
lemma length_levelsAfter (devices : List (List UInt8)) {levels : List Level}
    (h : levels.length = path.length) (t : Token) :
    (levelsAfter devices levels t).length = (pathAfter path t).length := by
  cases t with
  | beginNode name => simp [levelsAfter, pathAfter, h]
  | endNode => simp [levelsAfter, pathAfter, h]
  | prop nameOff name value => cases levels <;> simpa [levelsAfter, pathAfter] using h
  | nop => exact h
  | finish => exact h

/-- Without devices to look for no node is a device. -/
lemma deviceLevels_nil {levels : List Level} (h : ∀ level ∈ levels, level.matched = false) :
    deviceLevels [] levels l = none := by
  induction l generalizing levels with
  | nil => rfl
  | cons p l ih =>
    obtain ⟨a, t⟩ := p
    have hno : ¬ IsDevice levels := by
      cases levels with
      | nil => exact id
      | cons level around =>
        intro hdevice
        have hmatched := h level List.mem_cons_self
        rw [hdevice.1] at hmatched
        cases hmatched
    rw [deviceLevels, if_neg fun hand => hno hand.2]
    refine ih fun level hlevel => ?_
    cases t with
    | beginNode name =>
      rcases List.mem_cons.mp hlevel with rfl | hlevel
      · rfl
      · exact h level hlevel
    | endNode => exact h level (List.mem_of_mem_tail hlevel)
    | prop nameOff name value =>
      cases levels with
      | nil => cases hlevel
      | cons level' rest =>
        rcases List.mem_cons.mp hlevel with rfl | hlevel
        · have hmatched := h level' List.mem_cons_self
          unfold Level.set
          split_ifs <;> simp [hmatched, IsCompatible]
        · exact h level (List.mem_cons_of_mem level' hlevel)
    | nop => exact h level hlevel
    | finish => exact h level hlevel

/-! ## The stack holds the levels -/

/-- A span of cells that lies in memory, with its bytes. -/
structure CellSpan.Holds (m : Memory) (span : CellSpan) (xs : List UInt8) : Prop where
  /-- The bytes. -/
  bytes : m.HasBytes span.addr xs
  /-- The bytes are those of the cells. -/
  length : xs.length = span.sizeBytes
  /-- The size has 32 bits. -/
  lt : xs.length < 2 ^ 32
  /-- The span ends in the address space. -/
  fits : span.addr + xs.length < 2 ^ 64

/-- A slot of the stack holds the level of a node. -/
structure BusLevel.Holds (m : Memory) (bus : BusLevel) (level : Level) : Prop where
  addressCells : bus.addressCells = level.addressCells
  sizeCells : bus.sizeCells = level.sizeCells
  ranges : bus.ranges.Holds m level.ranges
  matched : bus.matched = level.matched
  reg : bus.reg.Holds m level.reg
  /-- The cell counts have 32 bits. -/
  addressCells_lt : level.addressCells < 2 ^ 32
  sizeCells_lt : level.sizeCells < 2 ^ 32

/-- The stack holds the levels: the outermost one in slot 0, and so on inwards. -/
def StackHolds (m : Memory) (stack : ℕ → BusLevel) : List Level → Prop
  | [] => True
  | level :: around => (stack around.length).Holds m level ∧ StackHolds m stack around

/-- Slots further in do not matter. -/
lemma StackHolds.update {stack : ℕ → BusLevel} {levels : List Level} {i : ℕ} (bus : BusLevel)
    (h : StackHolds m stack levels) (hi : levels.length ≤ i) :
    StackHolds m (Function.update stack i bus) levels := by
  induction levels with
  | nil => trivial
  | cons level around ih =>
    rw [List.length_cons] at hi
    refine ⟨?_, ih h.2 (by omega)⟩
    rw [Function.update_of_ne (by omega)]
    exact h.1

/-- The empty span. -/
lemma CellSpan.holds_nil : CellSpan.Holds m {} [] :=
  ⟨hasBytes_nil, rfl, by norm_num, by norm_num⟩

/-- The slot of a node that opens. -/
lemma BusLevel.holds_default : BusLevel.Holds m { addressCells := 2, sizeCells := 1 } {} :=
  ⟨rfl, rfl, CellSpan.holds_nil, rfl, CellSpan.holds_nil, by norm_num, by norm_num⟩

/-- The cells of a property. -/
lemma holds_wholeCells (h : m.HasBytes a xs) (ha : a + xs.length < 2 ^ 64)
    (hlt : xs.length < 2 ^ 32) :
      CellSpan.Holds m ⟨a, xs.length / cellSizeBytes⟩ (wholeCells xs) := by
  have hle : xs.length / 4 * 4 ≤ xs.length := Nat.div_mul_le_self _ _
  have hlen : (wholeCells xs).length = xs.length / 4 * 4 := List.length_take_of_le hle
  exact ⟨(h.take_drop _ hle).1, hlen, by omega, by simp only; omega⟩

/-- `FindDevice` at a property: it goes on at the same depth, with the level of the innermost node
changed. -/
lemma findProp_eq {nameOff : ℕ} {name : Name} {value : List UInt8} {s : FindState}
    {levels : List Level} (devices : List (List UInt8)) (hv : ValidHeader m dtb f)
    (hname : (blobOf m dtb f).PropName nameOff name) (hvalue : m.HasBytes a value)
    (ha : a + value.length < 2 ^ 64) (hlt : value.length < 2 ^ 32)
    (hdepth : s.depth = levels.length) (hle : levels.length ≤ maxDepth)
    (hs : StackHolds m s.stack levels) :
    ∃ s', findProp m dtb (blobOf m dtb f).strings devices a value.length nameOff s = .ok s' ∧
      s'.depth = s.depth ∧
      StackHolds m s'.stack (levelsAfter devices levels (.prop nameOff name value)) := by
  obtain ⟨span, hspan, hequals⟩ := stringEquals_propName hv hname
  have hcell := loadBe32_take hvalue ha
  have hcell_lt : beNat (value.take 4) < 2 ^ 32 := by
    have hlt := beNat_lt (value.take 4)
    have hpow : 256 ^ (value.take 4).length ≤ 256 ^ 4 :=
      Nat.pow_le_pow_right (by norm_num) (List.length_take_le 4 value)
    omega
  have hcells := holds_wholeCells hvalue ha hlt
  -- the slot of the innermost node, or slot 0 outside of all nodes
  obtain ⟨i, hi, hi_lt, hset⟩ : ∃ i, (if s.depth ≠ 0 then s.depth - 1 else 0) = i ∧ i < maxDepth ∧
      ∀ bus : BusLevel,
        (∀ level : Level, (s.stack i).Holds m level →
          bus.Holds m (level.set devices name value)) →
        StackHolds m (Function.update s.stack i bus)
          (levelsAfter devices levels (.prop nameOff name value)) := by
    cases levels with
    | nil =>
      refine ⟨0, ?_, by decide, fun bus _ => trivial⟩
      rw [hdepth]
      rfl
    | cons level around =>
      rw [List.length_cons] at hdepth hle
      refine ⟨around.length, ?_, by omega, fun bus hbus => ⟨?_, hs.2.update bus le_rfl⟩⟩
      · rw [hdepth, if_pos (by omega)]
        rfl
      · rw [Function.update_self]
        exact hbus level hs.1
  have hsame (h : ∀ level : Level, level.set devices name value = level) :
      StackHolds m s.stack (levelsAfter devices levels (.prop nameOff name value)) := by
    have hstack := hset (s.stack i) fun level hlevel => (h level).symm ▸ hlevel
    rwa [Function.update_eq_self] at hstack
  rw [findProp, hi]
  simp only
  rw [if_pos hi_lt, hspan, ok_bind, hequals _ (by decide), ok_bind]
  by_cases haddr : name = kAddressCells ∧ 4 ≤ value.length
  · rw [if_pos (by simpa using haddr), hcell haddr.2, ok_bind]
    refine ⟨_, rfl, rfl, hset _ fun level h => ?_⟩
    rw [Level.set, if_pos haddr]
    exact ⟨rfl, h.sizeCells, h.ranges, h.matched, h.reg, hcell_lt, h.sizeCells_lt⟩
  rw [if_neg (by simpa using haddr), hequals _ (by decide), ok_bind]
  by_cases hsize : name = kSizeCells ∧ 4 ≤ value.length
  · rw [if_pos (by simpa using hsize), hcell hsize.2, ok_bind]
    refine ⟨_, rfl, rfl, hset _ fun level h => ?_⟩
    rw [Level.set, if_neg haddr, if_pos hsize]
    exact ⟨h.addressCells, rfl, h.ranges, h.matched, h.reg, h.addressCells_lt, hcell_lt⟩
  rw [if_neg (by simpa using hsize), hequals _ (by decide), ok_bind]
  by_cases hranges : name = kRanges
  · rw [if_pos (by simpa using hranges)]
    refine ⟨_, rfl, rfl, hset _ fun level h => ?_⟩
    rw [Level.set, if_neg haddr, if_neg hsize, if_pos hranges]
    exact ⟨h.addressCells, h.sizeCells, hcells, h.matched, h.reg, h.addressCells_lt, h.sizeCells_lt⟩
  rw [if_neg (by simpa using hranges), hequals _ (by decide), ok_bind]
  by_cases hreg : name = kReg
  · rw [if_pos (by simpa using hreg)]
    refine ⟨_, rfl, rfl, hset _ fun level h => ?_⟩
    rw [Level.set, if_neg haddr, if_neg hsize, if_neg hranges, if_pos hreg]
    exact ⟨h.addressCells, h.sizeCells, h.ranges, h.matched, hcells, h.addressCells_lt,
      h.sizeCells_lt⟩
  rw [if_neg (by simpa using hreg), hequals _ (by decide), ok_bind]
  by_cases hcompatible : name = kCompatible ∧ value ≠ []
  · rw [if_pos (by simpa using hcompatible), matchesCompatible_eq devices hvalue ha le_rfl, ok_bind]
    refine ⟨_, rfl, rfl, hset _ fun level h => ?_⟩
    rw [Level.set, if_neg haddr, if_neg hsize, if_neg hranges, if_neg hreg, if_pos hcompatible]
    exact ⟨h.addressCells, h.sizeCells, h.ranges, rfl, h.reg, h.addressCells_lt, h.sizeCells_lt⟩
  · rw [if_neg (by simpa using hcompatible)]
    refine ⟨s, rfl, rfl, hsame fun level => ?_⟩
    rw [Level.set, if_neg haddr, if_neg hsize, if_neg hranges, if_neg hreg, if_neg hcompatible]

/-- The cell counts for a `reg`. -/
lemma regCells_eq {stack : ℕ → BusLevel} {around : List Level} (h : StackHolds m stack around) :
    regCells stack around.length = parentCells around := by
  cases around with
  | nil => rfl
  | cons parent around =>
    have hlen : (parent :: around).length - 1 = around.length := rfl
    rw [regCells, if_pos (by simp), hlen, h.1.addressCells, h.1.sizeCells]
    rfl

/-- The size of an entry of a `reg`. -/
lemma regStride_eq {stack : ℕ → BusLevel} {around : List Level} (h : StackHolds m stack around) :
    regStride stack around.length = entryStride around := by
  rw [regStride, regCells_eq h]
  rfl

/-- A span without cells. -/
lemma CellSpan.Holds.count_eq_zero {span : CellSpan} (h : span.Holds m xs) :
    span.count = 0 ↔ xs = [] := by
  have hlen := h.length
  unfold CellSpan.sizeBytes cellSizeBytes at hlen
  rw [← List.length_eq_zero_iff]
  omega

/-- `FindDevice` at the end of a node. -/
lemma findEndNode_eq {s : FindState} {level : Level} {around : List Level}
    (hdepth : s.depth = (level :: around).length) (hle : (level :: around).length ≤ maxDepth)
    (hs : StackHolds m s.stack (level :: around)) :
    findEndNode s = if IsDevice (level :: around) then .inr (some { s with depth := around.length })
      else .inl { s with depth := around.length } := by
  rw [List.length_cons] at hdepth hle
  have hpred : (if s.depth > 0 then s.depth - 1 else s.depth) = around.length := by
    rw [if_pos (by omega), hdepth]
    rfl
  simp only [findEndNode, hpred, regStride_eq hs.2]
  refine if_congr ?_ rfl rfl
  rw [hs.1.matched, ne_eq, hs.1.reg.count_eq_zero, ← hs.1.reg.length]
  exact and_iff_right (by omega)

/-- The loop body of `FindDevice` at a token: it stops at the end of a device and at the end token,
and otherwise goes on with the levels after the token. -/
lemma findItem_levels {blocks : BlockPointers} {s : FindState} {levels : List Level}
    (devices : List (List UInt8)) (hv : ValidHeader m dtb f)
    (hstrings : blocks.strings = (blobOf m dtb f).strings) (h : TokenAt (blobOf m dtb f) a t b)
    (hdepth : s.depth = levels.length) (hle : levels.length ≤ maxDepth)
    (hle' : (levelsAfter devices levels t).length ≤ maxDepth)
    (hallowed : t = .endNode → levels ≠ []) (hs : StackHolds m s.stack levels) :
    (t = .finish ∧ findItem m dtb blocks devices (t.item a) s = .ok (.inr none)) ∨
      (t = .endNode ∧ IsDevice levels ∧ ∃ s',
        findItem m dtb blocks devices (t.item a) s = .ok (.inr (some s')) ∧
        s'.depth + 1 = levels.length ∧ StackHolds m s'.stack levels) ∨
      (t ≠ .finish ∧ ¬ (t = .endNode ∧ IsDevice levels) ∧ ∃ s',
        findItem m dtb blocks devices (t.item a) s = .ok (.inl s') ∧
        s'.depth = (levelsAfter devices levels t).length ∧
        StackHolds m s'.stack (levelsAfter devices levels t)) := by
  have hend := hv.structEnd_le
  have hfits := hv.fits
  cases h with
  | @beginNode name =>
    refine .inr (.inr ⟨by simp, by simp, _, rfl, ?_, ?_⟩)
    · unfold maxDepth at hle
      rw [findBeginNode, levelsAfter, List.length_cons, ← hdepth]
      exact Nat.mod_eq_of_lt (by omega)
    · rw [levelsAfter, List.length_cons] at hle'
      simp only [findBeginNode, if_pos (by omega : s.depth < maxDepth)]
      refine ⟨?_, hs.update _ hdepth.ge⟩
      rw [hdepth, Function.update_self]
      exact BusLevel.holds_default
  | endNode =>
    right
    cases levels with
    | nil => exact absurd rfl (hallowed rfl)
    | cons level around =>
      have hitem : findItem m dtb blocks devices (Token.endNode.item a) s = .ok (findEndNode s) :=
        rfl
      rw [hitem, findEndNode_eq hdepth hle hs]
      by_cases hdevice : IsDevice (level :: around)
      · rw [if_pos hdevice]
        exact .inl ⟨rfl, hdevice, _, rfl, rfl, hs⟩
      · rw [if_neg hdevice]
        exact .inr ⟨by simp, fun hand => hdevice hand.2, _, rfl, rfl, hs.2⟩
  | @prop nameOff name value hword hlen hoff hname hvalue hdata =>
    obtain ⟨s', hs', hsame, hholds⟩ :=
      findProp_eq devices hv hname hvalue (by omega) hlen.lt hdepth hle hs
    refine .inr (.inr ⟨by simp, by simp, s', ?_, ?_, hholds⟩)
    · simp only [findItem, Token.item, hstrings, hs']
      rfl
    · rw [hsame, hdepth]
      cases levels <;> rfl
  | nop => exact .inr (.inr ⟨by simp, by simp, s, rfl, hdepth, hs⟩)
  | finish => exact .inl ⟨rfl, rfl⟩

/-- What the walk of `FindDevice` stops with, and the levels it stands for. -/
def Found (m : Memory) : Option (List Level) → Option FindState → Prop
  | none, none => True
  | some levels, some s => s.depth + 1 = levels.length ∧ StackHolds m s.stack levels
  | _, _ => False

end DeviceTree

end HyperBerry
