import HyperBerry.DeviceTree.Fdt
import HyperBerry.DeviceTree.TreeParser
import HyperBerry.BootLoader.Layout

/-!
# The guest tree patcher

A model of the class `DtbPatcher` in `core/bootLoader/bootLoader.cpp`.  The patcher works on a
buffer; addresses are offsets into it, and the memory is the buffer.  An access outside of the
buffer is a fault.  The member functions return `none` where the source returns false; the loop of
`Run` returns the buffer as it is at that point.
-/

namespace HyperBerry

namespace BootLoader

open Memory DeviceTree

/-- `align4`. -/
def align4 (value : ℕ) : ℕ := add64 value 3 &&& not64 3

/-- `StrEq`, with the second string a literal. -/
def strEq (m : Memory) : ℕ → List UInt8 → Except Halt Bool
  | a, [] => do
    let x ← load8 m a
    pure (x == 0)
  | a, y :: ys => do
    let x ← load8 m a
    if x = 0 then pure (x == y)
    else if x ≠ y then pure false
    else strEq m (add64 a 1) ys

/-- `StrStartsWith`, with the second string a literal. -/
def strStartsWith (m : Memory) (a : ℕ) (literal : List UInt8) : Except Halt Bool :=
  matchBytes m a literal

/-- The source of a `memcpy` of `n` bytes. -/
def readBytes (m : Memory) (a : ℕ) : ℕ → Except Halt (List UInt8)
  | 0 => .ok []
  | n + 1 => do
    let x ← load8 m a
    let xs ← readBytes m (add64 a 1) n
    pure (x :: xs)

/-- `storeBe64`. -/
def storeBe64 (m : Memory) (dst value : ℕ) : Except Halt Memory :=
  if (List.range 8).all fun i => (m (dst + i)).isSome then .ok (m.store dst (beBytes 8 value))
  else .error (.fault dst)

/-- What a depth-1 node is to the patcher. -/
inductive Node
  | other
  /-- A `/memory` node. -/
  | memory
  /-- `/chosen`. -/
  | chosen
deriving DecidableEq

/-- The offsets of the blocks. -/
structure Blocks where
  /-- Offset of the next structure block token. -/
  cursor : ℕ := 0
  structEnd : ℕ := 0
  stringsOff : ℕ := 0
  stringsSize : ℕ := 0
deriving DecidableEq

/-- A property to be filled. -/
structure Placeholder where
  node : Node
  name : List UInt8
  /-- One big-endian 64-bit value for every 8 bytes. -/
  length : ℕ
  values : List ℕ
  found : Bool
deriving DecidableEq

/-- The members of the patcher, with the buffer it works on. -/
structure DtbPatcher where
  mem : Memory
  dtbSize : ℕ
  blocks : Blocks
  depth : ℕ
  hasRoot : Bool
  node : Node
  placeholders : List Placeholder

namespace DtbPatcher

/-- The placeholders of a layout. -/
def initialPlaceholders (layout : GuestLayout) : List Placeholder :=
  [⟨.memory, ascii "reg", 16, [guestIpaBase, guestRamSize], false⟩,
    ⟨.chosen, ascii "linux,initrd-start", 8, [layout.initrdIpa], false⟩,
    ⟨.chosen, ascii "linux,initrd-end", 8, [add64 layout.initrdIpa layout.initrdSize], false⟩]

/-- The constructor. -/
def make (m : Memory) (layout : GuestLayout) : DtbPatcher where
  mem := m
  dtbSize := layout.dtbSize
  blocks := {}
  depth := 0
  hasRoot := false
  node := .other
  placeholders := initialPlaceholders layout

/-- The bounds check of `readHeader`. -/
def inBounds (total off size : ℕ) : Prop :=
  off ≥ fdtHeaderSize ∧ off ≤ total ∧ size ≤ total - off

instance (total off size : ℕ) : Decidable (inBounds total off size) :=
  inferInstanceAs (Decidable (_ ∧ _))

/-- Read and check the header. -/
def readHeader (m : Memory) (dtbSize : ℕ) : Except Halt (Option Blocks) :=
  if dtbSize < fdtHeaderSize then .ok none
  else do
    let _ ← readBytes m 0 fdtHeaderSize
    let total ← header m 0 .totalSize
    let structOff ← header m 0 .structOff
    let structSize ← header m 0 .sizeStructs
    let stringsOff ← header m 0 .stringsOff
    let stringsSize ← header m 0 .sizeStrings
    let magic ← header m 0 .magic
    if magic ≠ fdtMagic ∨ total < fdtHeaderSize ∨ total > dtbSize then pure none
    else if ¬ inBounds total structOff structSize ∨ structOff % 4 ≠ 0 ∨
        ¬ inBounds total stringsOff stringsSize then pure none
    else if structOff ≥ stringsOff + stringsSize ∨ stringsOff ≥ structOff + structSize then
      pure (some ⟨structOff, structOff + structSize, stringsOff, stringsSize⟩)
    else pure none

/-- What kind of node a depth-1 name stands for. -/
def nodeKind (m : Memory) (name : ℕ) : Except Halt Node := do
  let isMemory ← strEq m name (ascii "memory")
  if isMemory then pure .memory
  else
    let isMemoryAt ← strStartsWith m name (ascii "memory@")
    if isMemoryAt then pure .memory
    else
      let isChosen ← strEq m name (ascii "chosen")
      if isChosen then pure .chosen else pure .other

/-- A node starts; its name is at the cursor. -/
def beginNode (p : DtbPatcher) : Except Halt (Option DtbPatcher) := do
  let nameOff := p.blocks.cursor
  let len ← nulIndex p.mem nameOff (p.blocks.structEnd - nameOff)
  let cursor := nameOff + len
  let opened := { p with
    blocks := { p.blocks with cursor := align4 (cursor + 1) }
    depth := (p.depth + 1) % 2 ^ 32 }
  if cursor = p.blocks.structEnd then pure none
  else if p.depth = 0 then
    let first ← load8 p.mem nameOff
    if p.hasRoot ∨ first ≠ 0 then pure none else pure (some { opened with hasRoot := true })
  else if p.depth = 1 then
    let node ← nodeKind p.mem nameOff
    pure (some { opened with node := node })
  else pure (some opened)

/-- The writes of `patch` into a value, for the given values from address `a` on. -/
def storeValues (m : Memory) : ℕ → List ℕ → Except Halt Memory
  | _, [] => .ok m
  | a, v :: vs => do
    let m ← storeBe64 m a v
    storeValues m (add64 a 8) vs

/-- Whether a property of a node is the one of a placeholder. -/
def isPlaceholder (m : Memory) (node : Node) (name : ℕ) (ph : Placeholder) : Except Halt Bool :=
  if ph.node = node then strEq m name ph.name else .ok false

/-- Fill the first of the placeholders that a property is, and mark it; `none` if it was filled
before or has the wrong length. -/
def patch (node : Node) (name value length : ℕ) :
    Memory → List Placeholder → Except Halt (Option (Memory × List Placeholder))
  | m, [] => .ok (some (m, []))
  | m, ph :: rest => do
    let isName ← isPlaceholder m node name ph
    if isName then
      if ph.found ∨ length ≠ ph.length then pure none
      else
        let m ← storeValues m value (ph.values.take (length / 8))
        pure (some (m, { ph with found := true } :: rest))
    else
      let r ← patch node name value length m rest
      pure (r.map fun r => (r.1, ph :: r.2))

/-- A property; its header is at the cursor. -/
def property (p : DtbPatcher) : Except Halt (Option DtbPatcher) :=
  if p.depth = 0 ∨ p.blocks.structEnd - p.blocks.cursor < 8 then .ok none
  else do
    let length ← loadBe32 p.mem p.blocks.cursor
    let nameOff ← loadBe32 p.mem (p.blocks.cursor + 4)
    let cursor := p.blocks.cursor + 8
    if length > p.blocks.structEnd - cursor ∨ nameOff ≥ p.blocks.stringsSize then pure none
    else
      let len ← nulIndex p.mem (p.blocks.stringsOff + nameOff) (p.blocks.stringsSize - nameOff)
      if nameOff + len = p.blocks.stringsSize then pure none
      else
        let stepped := { p with blocks := { p.blocks with cursor := align4 (cursor + length) } }
        if p.depth ≠ 2 then pure (some stepped)
        else
          let r ← patch p.node (p.blocks.stringsOff + nameOff) cursor length p.mem p.placeholders
          pure (r.map fun r => { stepped with mem := r.1, placeholders := r.2 })

/-- `finish`. -/
def finish (p : DtbPatcher) : Bool :=
  p.hasRoot && decide (p.depth = 0) && p.placeholders.all fun ph => ph.found

/-- The body of the loop of `Run`: it goes on, or returns a result. -/
def step (p : DtbPatcher) : Except Halt (DtbPatcher ⊕ Bool) := do
  let token ← loadBe32 p.mem p.blocks.cursor
  let p := { p with blocks := { p.blocks with cursor := p.blocks.cursor + 4 } }
  let goOn : Option DtbPatcher → DtbPatcher ⊕ Bool
    | some p => .inl p
    | none => .inr false
  match FDT.ofWord token with
  | some .beginNode =>
    let r ← p.beginNode
    pure (goOn r)
  | some .endNode =>
    if p.depth = 0 then pure (.inr false)
    else pure (.inl { p with
      depth := p.depth - 1
      node := if p.depth - 1 = 1 then .other else p.node })
  | some .prop =>
    let r ← p.property
    pure (goOn r)
  | some .nop => pure (.inl p)
  | some .finish => pure (.inr p.finish)
  | none => pure (.inr false)

/-- The loop of `Run`. -/
def loop : ℕ → DtbPatcher → Except Halt (Bool × Memory)
  | 0, _ => .error .hang
  | fuel + 1, p =>
    if p.blocks.cursor ≤ p.blocks.structEnd ∧ p.blocks.structEnd - p.blocks.cursor ≥ 4 then do
      let r ← p.step
      match r with
      | .inl p' => loop fuel p'
      | .inr result => pure (result, p.mem)
    else .ok (false, p.mem)

/-- Patch the buffer; returns whether that succeeded, with the buffer afterwards. -/
def run (layout : GuestLayout) (m : Memory) : Except Halt (Bool × Memory) := do
  let blocks ← readHeader m layout.dtbSize
  match blocks with
  | none => pure (false, m)
  | some blocks => loop loopFuel { make m layout with blocks := blocks }

end DtbPatcher

end BootLoader

end HyperBerry
