import HyperBerry.Lib.Walk
import HyperBerry.DeviceTree.Fdt
import HyperBerry.DeviceTree.Types
import HyperBerry.Mmu.MmioMap

/-!
# The device tree parser

A model of `core/deviceTree/deviceTree.cpp`.  The parser reads a blob at the physical address `dtb`;
addresses are natural numbers below `2 ^ 64`, and pointer arithmetic wraps there.

Each of the three functions that go through the structure block is a run that notes the tokens it
visits: their addresses, the value of the depth counter when the token is read, and the name or
property header behind the token.  `validateHeader` has a loop of its own; `ParseMemoryMap` and
`FindDevice` read tokens by the same code, `nextItem`, and differ in what they do with them.
-/

namespace HyperBerry

namespace DeviceTree

open Walk

/-- `MAX_DEPTH`. -/
def maxDepth : ℕ := 16

/-- `CELL_SIZE_BYTES`. -/
def cellSizeBytes : ℕ := 4

/-- Subtraction of unsigned 32-bit words. -/
def sub32 (a b : ℕ) : ℕ := (a + (2 ^ 32 - b % 2 ^ 32)) % 2 ^ 32

/-- What a walk reads at a token. -/
inductive Item
  /-- A node opens; where its name is, and its length. -/
  | beginNode (name len : ℕ)
  /-- A node closes. -/
  | endNode
  /-- A property: where its data is, the length of the data, and the offset of its name. -/
  | prop (data len off : ℕ)
  /-- Nothing. -/
  | nop
  /-- The end of the structure block. -/
  | finish
deriving DecidableEq

/-- One token that a walk visits. -/
structure Visit where
  /-- The address of the token. -/
  addr : ℕ
  /-- The depth counter of the walk when it reads the token. -/
  depth : ℕ
  /-- What is read there. -/
  item : Item
deriving DecidableEq

/-- A walk over the structure block. -/
abbrev TokenRun := Run Visit Halt

/-! ## Strings -/

/-- Compare the bytes at an address with the given ones, one by one. -/
def matchBytes (m : Memory) : ℕ → List UInt8 → Except Halt Bool
  | _, [] => .ok true
  | a, x :: xs => do
    let y ← load8 m a
    if y ≠ x then pure false else matchBytes m (add64 a 1) xs

/-- `stringStartsWith`, on the span of `size` bytes at `a`. -/
def stringStartsWith (m : Memory) (a size : ℕ) (expected : List UInt8) : Except Halt Bool :=
  if size < expected.length then .ok false else matchBytes m a expected

/-- `stringEquals`, on the span of `size` bytes at `a`. -/
def stringEquals (m : Memory) (a size : ℕ) (expected : List UInt8) : Except Halt Bool :=
  if size > expected.length then do
    let starts ← stringStartsWith m a size expected
    if starts then
      let x ← load8 m (add64 a expected.length)
      pure (x == 0)
    else pure false
  else .ok false

/-- A chain of `stringEquals(...) || stringEquals(...)`. -/
def stringEqualsAny (m : Memory) (a size : ℕ) : List (List UInt8) → Except Halt Bool
  | [] => .ok false
  | expected :: rest => do
    let equal ← stringEquals m a size expected
    if equal then pure true else stringEqualsAny m a size rest

/-- `kMemory`. -/
def kMemory : List UInt8 := ascii "memory"

/-- `kReservedMemory`. -/
def kReservedMemory : List UInt8 := ascii "reserved-memory"

/-- `kChosen`. -/
def kChosen : List UInt8 := ascii "chosen"

/-- `kAtf`, `kBl31`, `kSecmon`, `kOptee` and `kTee`. -/
def kAtfNames : List (List UInt8) :=
  [ascii "atf", ascii "bl31", ascii "secmon", ascii "optee", ascii "tee"]

/-- `kReg`. -/
def kReg : List UInt8 := ascii "reg"

/-- `kInitrdStart`. -/
def kInitrdStart : List UInt8 := ascii "linux,initrd-start"

/-- `kInitrdEnd`. -/
def kInitrdEnd : List UInt8 := ascii "linux,initrd-end"

/-- `kAddressCells`. -/
def kAddressCells : List UInt8 := ascii "#address-cells"

/-- `kSizeCells`. -/
def kSizeCells : List UInt8 := ascii "#size-cells"

/-- `kRanges`. -/
def kRanges : List UInt8 := ascii "ranges"

/-- `kCompatible`. -/
def kCompatible : List UInt8 := ascii "compatible"

/-- `kUartCompatible`. -/
def kUartCompatible : List (List UInt8) := [ascii "arm,pl011", ascii "brcm,bcm2835-aux-uart"]

/-- `kGicCompatible`. -/
def kGicCompatible : List (List UInt8) :=
  [ascii "arm,gic-400", ascii "arm,cortex-a15-gic", ascii "arm,gic-v2", ascii "arm,arm11mp-gic",
    ascii "arm,gic-v3"]

/-! ## Cells -/

/-- A `std::span<Cell>`. -/
structure CellSpan where
  /-- The address of the first cell. -/
  addr : ℕ := 0
  /-- The number of cells. -/
  count : ℕ := 0
deriving DecidableEq

/-- `size_bytes`. -/
def CellSpan.sizeBytes (s : CellSpan) : ℕ := s.count * cellSizeBytes

/-- `subspan`. -/
def CellSpan.subspan (s : CellSpan) (off count : ℕ) : CellSpan :=
  ⟨add64 s.addr (off * cellSizeBytes), count⟩

/-- `subspan` to the end of the span. -/
def CellSpan.subspanFrom (s : CellSpan) (off : ℕ) : CellSpan :=
  ⟨add64 s.addr (off * cellSizeBytes), s.count - off⟩

/-- The loop of `getCombinedCell` over the cells from an address on. -/
def combineCells (m : Memory) : ℕ → ℕ → ℕ → Except Halt ℕ
  | _, 0, combinedCell => .ok combinedCell
  | a, n + 1, combinedCell => do
    let cell ← loadBe32 m a
    combineCells m (add64 a cellSizeBytes) n ((combinedCell <<< 32) % 2 ^ 64 ||| cell)

/-- Combine big-endian cells into one number. -/
def getCombinedCell (m : Memory) (cells : CellSpan) : Except Halt ℕ :=
  combineCells m cells.addr cells.count 0

/-- The initial RAM disk address in one or two cells. -/
def getInitrdAddress (m : Memory) (cells : CellSpan) : Except Halt ℕ :=
  if cells.count = 2 then getCombinedCell m cells else loadBe32 m cells.addr

/-! ## Validation -/

/-- The header fields that bound the blocks. -/
structure Header where
  total : ℕ
  structOff : ℕ
  structSize : ℕ
  stringsOff : ℕ
  stringsSize : ℕ
deriving DecidableEq

/-- The bounds check of `validateHeader`. -/
def inBounds (total off size : ℕ) : Prop := off ≤ total ∧ size ≤ total - off

instance (total off size : ℕ) : Decidable (inBounds total off size) :=
  inferInstanceAs (Decidable (_ ∧ _))

/-- The header checks of `validateHeader`. -/
def checkHeader (m : Memory) (dtb : ℕ) : Except Halt Header :=
  if dtb = 0 then .error (.panic "[ERROR][DTB] null device tree")
  else do
    let total ← header m dtb .totalSize
    let structOff ← header m dtb .structOff
    let structSize ← header m dtb .sizeStructs
    let stringsOff ← header m dtb .stringsOff
    let stringsSize ← header m dtb .sizeStrings
    let magic ← header m dtb .magic
    if magic ≠ fdtMagic ∨ total < fdtHeaderSize ∨ ¬ inBounds total structOff structSize ∨
        ¬ inBounds total stringsOff stringsSize then
      .error (.panic "[ERROR][DTB] invalid device tree header")
    else
      let memRsvMapOff ← header m dtb .memRsvMapOff
      if ¬ inBounds total memRsvMapOff 16 then
        .error (.panic "[ERROR][DTB] invalid device tree header")
      else pure ⟨total, structOff, structSize, stringsOff, stringsSize⟩

/-- `p - q < n` for pointers, whose difference is signed. -/
def ptrdiffLt (p q n : ℕ) : Prop := sub64 p q < n ∨ 2 ^ 63 ≤ sub64 p q

instance (p q n : ℕ) : Decidable (ptrdiffLt p q n) := inferInstanceAs (Decidable (_ ∨ _))

/-- What the validation loop keeps between tokens. -/
structure ValidateState where
  /-- The address of the next token. -/
  cursor : ℕ
  /-- The number of open nodes. -/
  depth : ℕ
  /-- The end token has been read. -/
  hasEnded : Bool
deriving DecidableEq

/-- The validation of a node name at `cursor`. -/
def validateNode (m : Memory) (structEnd cursor depth : ℕ) :
    Except Halt (Item × ValidateState) := do
  let len ← nulIndex m cursor (structEnd - cursor)
  if add64 cursor len = structEnd then .error (.panic "[ERROR][DTB] unterminated node name")
  else if (depth + 1) % 2 ^ 32 > maxDepth then
    .error (.panic "[ERROR][DTB] device tree nesting is too deep")
  else
    pure (.beginNode cursor len,
      ⟨fdtAlign (add64 (add64 cursor len) 1) 0, (depth + 1) % 2 ^ 32, false⟩)

/-- The validation of a property header and its data at `cursor`. -/
def validateProp (m : Memory) (structEnd strings stringsSize cursor depth : ℕ) :
    Except Halt (Item × ValidateState) :=
  if ptrdiffLt structEnd cursor 8 then .error (.panic "[ERROR][DTB] truncated property header")
  else do
    let len ← loadBe32 m cursor
    let nameOff ← loadBe32 m (add64 cursor 4)
    if nameOff ≥ stringsSize then .error (.panic "[ERROR][DTB] invalid property name")
    else
      let remaining := stringsSize - nameOff
      let i ← nulIndex m (add64 strings nameOff) remaining
      if i = remaining ∨ len > (sub64 (sub64 structEnd cursor) 8) % 2 ^ 32 then
        .error (.panic "[ERROR][DTB] malformed property")
      else
        let next := add64 cursor (8 + (len + 3) % 2 ^ 32 / 4 * 4)
        if next > structEnd then .error (.panic "[ERROR][DTB] truncated property data")
        else pure (.prop (add64 cursor 8) len nameOff, ⟨next, depth, false⟩)

/-- One pass of the validation loop. -/
def validateItem (m : Memory) (structEnd strings stringsSize : ℕ) (s : ValidateState) :
    Except Halt (Item × ValidateState) :=
  if ptrdiffLt structEnd s.cursor 4 then .error (.panic "[ERROR][DTB] truncated structure block")
  else do
    let token ← loadBe32 m s.cursor
    let cursor := add64 s.cursor 4
    if s.hasEnded then .error (.panic "[ERROR][DTB] data follows structure end")
    else
      match FDT.ofWord token with
      | some .beginNode => validateNode m structEnd cursor s.depth
      | some .endNode =>
        if s.depth = 0 then .error (.panic "[ERROR][DTB] unmatched end node")
        else pure (.endNode, ⟨cursor, s.depth - 1, false⟩)
      | some .prop => validateProp m structEnd strings stringsSize cursor s.depth
      | some .nop => pure (.nop, ⟨cursor, s.depth, false⟩)
      | some .finish =>
        if s.depth ≠ 0 then .error (.panic "[ERROR][DTB] unclosed node")
        else pure (.finish, ⟨cursor, s.depth, true⟩)
      | none => .error (.panic "[ERROR][DTB] invalid structure token")

/-- The validation loop. -/
def validateLoop (m : Memory) (structEnd strings stringsSize : ℕ) :
    ℕ → ValidateState → TokenRun ValidateState
  | 0, _ => ⟨[], .error .hang⟩
  | fuel + 1, s =>
    if s.cursor < structEnd then
      Run.after (validateItem m structEnd strings stringsSize s) fun r =>
        (validateLoop m structEnd strings stringsSize fuel r.2).log ⟨s.cursor, s.depth, r.1⟩
    else ⟨[], .ok s⟩

/-- Validate the header and the structure block. -/
def validateHeader (m : Memory) (dtb : ℕ) : TokenRun Unit :=
  Run.after (checkHeader m dtb) fun h =>
    let structEnd := add64 (add64 dtb h.structOff) h.structSize
    (validateLoop m structEnd (add64 dtb h.stringsOff) h.stringsSize loopFuel
      ⟨add64 dtb h.structOff, 0, false⟩).andThen fun s =>
        if s.hasEnded = false ∨ s.cursor ≠ structEnd ∨ add64 dtb h.total < dtb then
          .error (.panic "[ERROR][DTB] malformed structure block")
        else .ok ()

/-! ## The walk of the two parsers -/

/-- Where the blocks are, as both parsers compute it from the header. -/
structure BlockPointers where
  /-- The first token. -/
  tok : ℕ
  /-- The strings block. -/
  strings : ℕ
  /-- The end of the structure block. -/
  structEnd : ℕ
deriving DecidableEq

/-- Read the block pointers from the header. -/
def blockPointers (m : Memory) (dtb : ℕ) : Except Halt BlockPointers := do
  let structOff ← header m dtb .structOff
  let stringsOff ← header m dtb .stringsOff
  let sizeStructs ← header m dtb .sizeStructs
  pure ⟨add64 dtb structOff, add64 dtb stringsOff, add64 (add64 dtb structOff) sizeStructs⟩

/-- Read the token at `tok` with its name or property header, and find the next token. -/
def nextItem (m : Memory) (structEnd tok : ℕ) : Except Halt (Item × ℕ) := do
  let token ← loadBe32 m tok
  let tok := add64 tok 4
  match FDT.ofWord token with
  | some .beginNode =>
    let len ← nulIndex m tok (structEnd - tok)
    if add64 tok len = structEnd then .error (.panic "[ERROR][DTB] unterminated node name")
    else pure (.beginNode tok len, fdtAlign tok (len + 1))
  | some .endNode => pure (.endNode, tok)
  | some .prop =>
    let len ← loadBe32 m tok
    let off ← loadBe32 m (add64 tok 4)
    pure (.prop (add64 tok 8) len off, fdtAlign (add64 tok 8) len)
  | some .nop => pure (.nop, tok)
  | some .finish => pure (.finish, tok)
  | none => .error (.panic "[ERROR][DTB] invalid structure token")

/-- The span of a property name, to the end of the strings block. -/
def propName (m : Memory) (dtb strings off : ℕ) : Except Halt (ℕ × ℕ) := do
  let sizeStrings ← header m dtb .sizeStrings
  pure (add64 strings off, sub32 sizeStrings off)

/-! ## The boot memory map -/

/-- `MemoryParseState`. -/
structure MemoryParseState where
  memory : Bool := false
  reserved : Bool := false
  atf : Bool := false
  chosen : Bool := false
  foundMemory : Bool := false
  initrdStart : ℕ := 0
  initrdEnd : ℕ := 0
  hasInitrdStart : Bool := false
  hasInitrdEnd : Bool := false
  depth : ℕ := 0
deriving DecidableEq

/-- `ParseMemoryMap` at the start of a node. -/
def parseBeginNode (m : Memory) (structEnd name : ℕ) (s : MemoryParseState) :
    Except Halt MemoryParseState :=
  let size := sub64 structEnd name
  let depth := (s.depth + 1) % 2 ^ 32
  if s.depth = 1 then do
    let memory ← stringStartsWith m name size kMemory
    let reserved ← stringEquals m name size kReservedMemory
    let chosen ← stringEquals m name size kChosen
    pure { s with memory := memory, reserved := reserved, chosen := chosen, depth := depth }
  else if s.depth = 2 ∧ s.reserved then do
    let atf ← stringEqualsAny m name size kAtfNames
    pure { s with atf := atf, depth := depth }
  else pure { s with depth := depth }

/-- `ParseMemoryMap` at the end of a node. -/
def parseEndNode (s : MemoryParseState) : MemoryParseState :=
  let depth := sub32 s.depth 1
  if depth = 1 then
    { s with memory := false, reserved := false, chosen := false, depth := depth }
  else if depth = 2 then { s with atf := false, depth := depth }
  else { s with depth := depth }

/-- `ParseMemoryMap` at a property. -/
def parseProp (m : Memory) (dtb strings data len off : ℕ) (s : MemoryParseState) (map : MemoryMap) :
    Except Halt (MemoryParseState × MemoryMap) := do
  let name ← propName m dtb strings off
  let isReg ← stringEquals m name.1 name.2 kReg
  if isReg ∧ len ≥ 16 then
    if s.memory ∧ s.foundMemory = false then
      let memBase ← getCombinedCell m ⟨data, 2⟩
      let memSize ← getCombinedCell m ⟨add64 data 8, 2⟩
      pure ({ s with foundMemory := true },
        { map with memBase := UInt64.ofNat memBase, memSize := UInt64.ofNat memSize })
    else if s.atf then
      let atfBase ← getCombinedCell m ⟨data, 2⟩
      let atfSize ← getCombinedCell m ⟨add64 data 8, 2⟩
      pure (s, { map with atfBase := UInt64.ofNat atfBase, atfSize := UInt64.ofNat atfSize })
    else pure (s, map)
  else if s.chosen ∧ s.depth = 2 ∧ (len = 4 ∨ len = 8) then
    let isStart ← stringEquals m name.1 name.2 kInitrdStart
    if isStart then
      let initrdStart ← getInitrdAddress m ⟨data, len / cellSizeBytes⟩
      pure ({ s with initrdStart := initrdStart, hasInitrdStart := true }, map)
    else
      let isEnd ← stringEquals m name.1 name.2 kInitrdEnd
      if isEnd then
        let initrdEnd ← getInitrdAddress m ⟨data, len / cellSizeBytes⟩
        pure ({ s with initrdEnd := initrdEnd, hasInitrdEnd := true }, map)
      else pure (s, map)
  else pure (s, map)

/-- `ParseMemoryMap` at the end token. -/
def parseEnd (s : MemoryParseState) (map : MemoryMap) : Except Halt MemoryMap :=
  if s.foundMemory = false then .error (.panic "[ERROR][DTB] memory is missing")
  else if s.hasInitrdStart ∧ s.hasInitrdEnd ∧ s.initrdEnd > s.initrdStart then
    .ok { map with
      cpioArchiveBase := UInt64.ofNat s.initrdStart
      cpioArchiveSize := UInt64.ofNat (s.initrdEnd - s.initrdStart) }
  else .ok map

/-- The body of the loop of `ParseMemoryMap`. -/
def parseItem (m : Memory) (dtb : ℕ) (blocks : BlockPointers) :
    Item → MemoryParseState × MemoryMap →
      Except Halt ((MemoryParseState × MemoryMap) ⊕ MemoryMap)
  | .beginNode name _, s => do
    let t ← parseBeginNode m blocks.structEnd name s.1
    pure (.inl (t, s.2))
  | .endNode, s => pure (.inl (parseEndNode s.1, s.2))
  | .prop data len off, s => do
    let t ← parseProp m dtb blocks.strings data len off s.1 s.2
    pure (.inl t)
  | .nop, s => pure (.inl s)
  | .finish, s => do
    let map ← parseEnd s.1 s.2
    pure (.inr map)

/-- Parse the boot memory layout from the device tree. -/
def parseMemoryMap (m : Memory) (dtb : ℕ) : TokenRun MemoryMap :=
  Run.after (validateHeader m dtb).result fun _ =>
    Run.after (header m dtb .totalSize) fun total =>
      Run.after (blockPointers m dtb) fun blocks =>
        walk (nextItem m blocks.structEnd) (parseItem m dtb blocks)
          (fun a s x => ⟨a, s.1.depth, x⟩) .hang loopFuel blocks.tok
          ({}, { dtbBase := UInt64.ofNat dtb, dtbSize := UInt64.ofNat total })

/-! ## Devices -/

/-- Compare one entry of a compatible list with the candidates. -/
def entryMatches (m : Memory) (a entryLen : ℕ) : List (List UInt8) → Except Halt Bool
  | [] => .ok false
  | candidate :: rest =>
    if candidate.length ≠ entryLen then entryMatches m a entryLen rest
    else do
      let isMatch ← matchBytes m a candidate
      if isMatch then pure true else entryMatches m a entryLen rest

/-- The loop of `matchesCompatible` over the `size` bytes from `a` on that are left of the list. -/
def matchesCompatible (m : Memory) (candidates : List (List UInt8)) :
    ℕ → ℕ → ℕ → Except Halt Bool
  | _, _, 0 => .ok false
  | 0, _, _ + 1 => .error .hang
  | fuel + 1, a, size + 1 => do
    let entryLen ← nulIndex m a (size + 1)
    let isMatch ← entryMatches m a entryLen candidates
    if isMatch then pure true
    else
      let step := if entryLen < size + 1 then entryLen + 1 else entryLen
      matchesCompatible m candidates fuel (add64 a step) (size + 1 - step)

/-- `BusLevel`. -/
structure BusLevel where
  addressCells : ℕ := 0
  sizeCells : ℕ := 0
  ranges : CellSpan := {}
  matched : Bool := false
  reg : CellSpan := {}
deriving DecidableEq

/-- The entry loop of `translate` over the ranges of one bus. -/
def translateEntries (m : Memory) (bus : BusLevel) (parentCells stride addr : ℕ) :
    ℕ → ℕ → Except Halt ℕ
  | 0, _ => .error .hang
  | fuel + 1, off =>
    if (off + stride) % 2 ^ 32 ≤ bus.ranges.sizeBytes then do
      let entry := bus.ranges.subspanFrom (off / cellSizeBytes)
      let child ← getCombinedCell m (entry.subspan 0 bus.addressCells)
      let parent ← getCombinedCell m (entry.subspan bus.addressCells parentCells)
      let length ← getCombinedCell m
        (entry.subspan ((bus.addressCells + parentCells) % 2 ^ 32) bus.sizeCells)
      if addr ≥ child ∧ addr - child < length then pure (add64 (addr - child) parent)
      else translateEntries m bus parentCells stride addr fuel ((off + stride) % 2 ^ 32)
    else .ok addr

/-- `translate`, with the levels of the stack still to go through. -/
def translate (m : Memory) (stack : ℕ → BusLevel) : ℕ → ℕ → Except Halt ℕ
  | 0, addr => .ok addr
  | level + 1, addr =>
    let bus := stack level
    if bus.ranges.count = 0 ∨ level + 1 < 2 then translate m stack level addr
    else
      let parentCells := (stack (level - 1)).addressCells
      let stride := (bus.addressCells + parentCells + bus.sizeCells) * cellSizeBytes % 2 ^ 32
      if stride = 0 ∨ bus.ranges.sizeBytes % stride ≠ 0 then translate m stack level addr
      else do
        let addr ← translateEntries m bus parentCells stride addr loopFuel 0
        translate m stack level addr

/-- What the loop of `FindDevice` keeps between tokens. -/
structure FindState where
  /-- `stack`: the bus properties of the open nodes. -/
  stack : ℕ → BusLevel := fun _ => {}
  /-- The number of open nodes. -/
  depth : ℕ := 0

/-- The cell counts that hold for the `reg` of the node at `depth`: those of its parent. -/
def regCells (stack : ℕ → BusLevel) (depth : ℕ) : ℕ × ℕ :=
  if depth ≠ 0 then ((stack (depth - 1)).addressCells, (stack (depth - 1)).sizeCells) else (2, 1)

/-- The size of one entry of the `reg` of the node at `depth`. -/
def regStride (stack : ℕ → BusLevel) (depth : ℕ) : ℕ :=
  ((regCells stack depth).1 + (regCells stack depth).2) * cellSizeBytes % 2 ^ 32

/-- The entry loop over the `reg` of a matched node, with the number of regions still to record. -/
def decodeRegions (m : Memory) (stack : ℕ → BusLevel) (depth : ℕ) :
    (slots : ℕ) → ℕ → Except Halt { regions : List DeviceRegion // regions.length ≤ slots }
  | 0, _ => .ok ⟨[], le_rfl⟩
  | slots + 1, off =>
    let reg := (stack depth).reg
    let stride := regStride stack depth
    let cells := regCells stack depth
    if (off + stride) % 2 ^ 32 ≤ reg.sizeBytes then do
      let entry := reg.subspanFrom (off / cellSizeBytes)
      let base ← getCombinedCell m (entry.subspan 0 cells.1)
      let size ← getCombinedCell m (entry.subspan cells.1 cells.2)
      let base ← translate m stack depth base
      let rest ← decodeRegions m stack depth slots ((off + stride) % 2 ^ 32)
      pure ⟨⟨UInt64.ofNat base, UInt64.ofNat size⟩ :: rest.1, Nat.succ_le_succ rest.2⟩
    else .ok ⟨[], Nat.zero_le _⟩

/-- `FindDevice` at the start of a node. -/
def findBeginNode (s : FindState) : FindState where
  stack := if s.depth < maxDepth then
      Function.update s.stack s.depth { addressCells := 2, sizeCells := 1 }
    else s.stack
  depth := (s.depth + 1) % 2 ^ 32

/-- `FindDevice` at the end of a node: when the node is the device, its stack and depth. -/
def findEndNode (s : FindState) : FindState ⊕ Option FindState :=
  let depth := if s.depth > 0 then s.depth - 1 else s.depth
  let reg := (s.stack depth).reg
  let stride := regStride s.stack depth
  if depth < maxDepth ∧ (s.stack depth).matched ∧ reg.count ≠ 0 ∧ stride ≠ 0 ∧
      reg.sizeBytes % stride = 0 then
    .inr (some { s with depth := depth })
  else .inl { s with depth := depth }

/-- The first of the named bus properties whose name is at hand, with its effect. -/
def findProp (m : Memory) (dtb strings : ℕ) (devices : List (List UInt8)) (data len off : ℕ)
    (s : FindState) : Except Halt FindState :=
  let level := if s.depth ≠ 0 then s.depth - 1 else 0
  let cells : CellSpan := ⟨data, len / cellSizeBytes⟩
  let node := s.stack level
  let set (node : BusLevel) : FindState := { s with stack := Function.update s.stack level node }
  if level < maxDepth then do
    let name ← propName m dtb strings off
    let isAddressCells ← stringEquals m name.1 name.2 kAddressCells
    if isAddressCells ∧ len ≥ 4 then
      let addressCells ← loadBe32 m data
      pure (set { node with addressCells := addressCells })
    else
      let isSizeCells ← stringEquals m name.1 name.2 kSizeCells
      if isSizeCells ∧ len ≥ 4 then
        let sizeCells ← loadBe32 m data
        pure (set { node with sizeCells := sizeCells })
      else
        let isRanges ← stringEquals m name.1 name.2 kRanges
        if isRanges then pure (set { node with ranges := cells })
        else
          let isReg ← stringEquals m name.1 name.2 kReg
          if isReg then pure (set { node with reg := cells })
          else
            let isCompatible ← stringEquals m name.1 name.2 kCompatible
            if isCompatible ∧ len ≠ 0 then
              let matched ← matchesCompatible m devices len data len
              pure (set { node with matched := matched })
            else pure s
  else pure s

/-- The body of the loop of `FindDevice`, up to the decoding of the device. -/
def findItem (m : Memory) (dtb : ℕ) (blocks : BlockPointers) (devices : List (List UInt8)) :
    Item → FindState → Except Halt (FindState ⊕ Option FindState)
  | .beginNode _ _, s => pure (.inl (findBeginNode s))
  | .endNode, s => pure (findEndNode s)
  | .prop data len off, s => do
    let t ← findProp m dtb blocks.strings devices data len off s
    pure (.inl t)
  | .nop, s => pure (.inl s)
  | .finish, _ => pure (.inr none)

/-- The token walk of `FindDevice`: it stops at the end token, or where the device closes. -/
def findWalk (m : Memory) (dtb : ℕ) (devices : List (List UInt8)) : TokenRun (Option FindState) :=
  Run.after (validateHeader m dtb).result fun _ =>
    if devices = [] then ⟨[], .ok none⟩
    else
      Run.after (blockPointers m dtb) fun blocks =>
        walk (nextItem m blocks.structEnd) (findItem m dtb blocks devices)
          (fun a s x => ⟨a, s.depth, x⟩) .hang loopFuel blocks.tok {}

/-- Decode the device that the walk has stopped at. -/
def decodeDevice (m : Memory) : Option FindState → Except Halt DeviceNode
  | none => .ok ⟨[], false, Nat.zero_le _⟩
  | some s => do
    let regions ← decodeRegions m s.stack s.depth dtMaxRegions 0
    pure ⟨regions.1, true, regions.2⟩

/-- Find the first device that matches a compatible string. -/
def findDevice (m : Memory) (dtb : ℕ) (devices : List (List UInt8)) : TokenRun DeviceNode :=
  (findWalk m dtb devices).andThen (decodeDevice m)

/-- Build and validate the host MMIO mappings. -/
def getHostMmio (bsp : BspConstants) (m : Memory) (dtb : ℕ) : Except Halt MmioMap := do
  let uart ← (findDevice m dtb kUartCompatible).result
  let gic ← (findDevice m dtb kGicCompatible).result
  match hostMmio bsp uart gic with
  | .ok map => pure map
  | .error message => .error (.panic message)

/-- Build the guest MMIO mappings. -/
def getGuestMmio (bspUartBase : ℕ) (m : Memory) (dtb : ℕ) : Except Halt MmioMap := do
  let gic ← (findDevice m dtb kGicCompatible).result
  let uart ← (findDevice m dtb kUartCompatible).result
  match guestMmio bspUartBase gic uart with
  | .ok map => pure map
  | .error message => .error (.panic message)

end DeviceTree

end HyperBerry
