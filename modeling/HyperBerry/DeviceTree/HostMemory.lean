import HyperBerry.DeviceTree.Tree

/-!
# The memory of the host in a tree

What `ParseMemoryMap` is for: the RAM and the firmware region of the host are entries of `reg`
properties, in the cells that the node around them declares.  `ParseMemoryMap` takes every entry for
two cells of address and two of size, and knows its nodes by their names alone.  Here is exactly
when the two agree on a serialised tree (`Tree.InTwoCells`), and the shape of trees on which they do
(`Tree.Plain`).
-/

namespace HyperBerry

namespace DeviceTree

open Memory Walk PathProp

/-! ## The memory of a tree -/

namespace Tree

/-- The name of a node. -/
def name : Tree → Name
  | .node name _ _ => name

/-- The properties of a node. -/
def props : Tree → List Property
  | .node _ props _ => props

/-- The subnodes of a node. -/
def children : Tree → List Tree
  | .node _ _ children => children

end Tree

/-- The name of a node without its unit address. -/
def baseName (name : Name) : Name := name.takeWhile (· ≠ 0x40)

/-- The first entry of the `reg` of a node below a bus with the given properties, as an address and
a size in the cells that the bus declares. -/
def firstEntry (bus props : List Property) : Option (ℕ × ℕ) :=
  (valueOf kReg 0 props).bind fun value =>
    let address := 4 * cellOf kAddressCells 2 bus
    let size := 4 * cellOf kSizeCells 1 bus
    if address + size ≤ value.length then
      some (beNat (value.take address), beNat ((value.drop address).take size))
    else none

/-- The RAM of the host: the first entry of the first memory node at depth 1 that has one. -/
def Tree.memory (t : Tree) : Option (ℕ × ℕ) :=
  t.children.findSome? fun node =>
    if baseName node.name = kMemory then firstEntry t.props node.props else none

/-- The firmware nodes, each with the first entry of its `reg`. -/
def Tree.firmware (t : Tree) : List (Option (ℕ × ℕ)) :=
  (t.children.filter fun reserved => reserved.name = kReservedMemory).flatMap fun reserved =>
    (reserved.children.filter fun node => baseName node.name ∈ kAtfNames).map fun node =>
      firstEntry reserved.props node.props

/-- The firmware region of the host: the first entry of the last firmware node, or zero. -/
def Tree.atf (t : Tree) : ℕ × ℕ := t.firmware.getLast?.join.getD (0, 0)

/-- The cell counts are declared, as one or two. -/
def DeclaresCells (props : List Property) : Prop :=
  (∃ n, (n = 1 ∨ n = 2) ∧ valueOf kAddressCells 4 props = some (beBytes 4 n)) ∧
    ∃ n, (n = 1 ∨ n = 2) ∧ valueOf kSizeCells 4 props = some (beBytes 4 n)

/-- The root and `/reserved-memory` declare their cell counts. -/
structure Tree.Declared (t : Tree) : Prop where
  root : DeclaresCells t.props
  reserved : ∀ node ∈ t.children, node.name = kReservedMemory → DeclaresCells node.props

/-- The outcome of `ParseMemoryMap` tells the memory of the tree; without a memory it is a panic. -/
def Tree.Tells (t : Tree) (result : Except Halt MemoryMap) : Prop :=
  match t.memory with
  | none => ∃ message, result = .error (.panic message)
  | some (base, size) => ∃ map, result = .ok map ∧
      (map.memBase = UInt64.ofNat base ∧ map.memSize = UInt64.ofNat size) ∧
      map.atfBase = UInt64.ofNat t.atf.1 ∧ map.atfSize = UInt64.ofNat t.atf.2

/-! ## The properties of a tree with their paths -/

mutual

/-- The properties of a tree in document order, each with the path of its node. -/
def Tree.pathProps (path : List Name) : Tree → List PathProp
  | .node name props children =>
    props.map (fun p => ⟨path ++ [name], p.name, p.value⟩) ++ pathPropsOf (path ++ [name]) children

/-- The properties of some trees. -/
def pathPropsOf (path : List Name) : List Tree → List PathProp
  | [] => []
  | t :: ts => t.pathProps path ++ pathPropsOf path ts

end

/-- The properties among some events. -/
def propsAt (path : List Name) : List Event → List PathProp
  | [] => []
  | .has p :: rest => ⟨path, p.name, p.value⟩ :: propsAt path rest
  | .opens name :: rest => propsAt (path ++ [name]) rest
  | .closes :: rest => propsAt path.dropLast rest

variable {path : List Name} {l : List (ℕ × Token)} {last : ℕ} {rest : List Event}

/-- The properties are a matter of the events. -/
lemma propsOf_eq_propsAt : propsOf path l = propsAt path (eventsIn l) := by
  induction l generalizing path with
  | nil => rfl
  | cons p l ih =>
    obtain ⟨a, t⟩ := p
    rw [propsOf, ih]
    cases t <;> rfl

/-- The properties of a node, one after the other. -/
lemma propsAt_props (props : List Property) :
    propsAt path (props.map .has ++ rest) =
      props.map (fun p => ⟨path, p.name, p.value⟩) ++ propsAt path rest := by
  induction props with
  | nil => rfl
  | cons p props ih =>
    rw [List.map_cons, List.cons_append, propsAt, ih, List.map_cons, List.cons_append]

mutual

/-- The events of a tree tell its properties. -/
theorem propsAt_events (path : List Name) (rest : List Event) :
    (t : Tree) → propsAt path (t.events ++ rest) = t.pathProps path ++ propsAt path rest
  | .node name props children => by
    rw [Tree.events, List.cons_append, propsAt, List.append_assoc, propsAt_props, List.append_assoc,
      propsAt_eventsOf, List.singleton_append, propsAt, List.dropLast_concat, Tree.pathProps,
      List.append_assoc]

/-- The events of some trees tell their properties. -/
theorem propsAt_eventsOf (path : List Name) (rest : List Event) :
    (ts : List Tree) → propsAt path (eventsOf ts ++ rest) = pathPropsOf path ts ++ propsAt path rest
  | [] => rfl
  | t :: ts => by
    rw [eventsOf, List.append_assoc, propsAt_events, propsAt_eventsOf, pathPropsOf,
      List.append_assoc]

end

/-! ## Bounds -/

/-- A declared cell count is one or two. -/
lemma DeclaresCells.cells_le {props : List Property} (h : DeclaresCells props) :
    cellOf kAddressCells 2 props ≤ 2 ∧ cellOf kSizeCells 1 props ≤ 2 := by
  obtain ⟨⟨a, ha, haddress⟩, s, hs, hsize⟩ := h
  have hcell {n : ℕ} (hn : n = 1 ∨ n = 2) : beNat ((beBytes 4 n).take 4) ≤ 2 := by
    rcases hn with rfl | rfl <;> decide
  constructor
  · rw [cellOf, haddress, Option.map_some, Option.getD_some]
    exact hcell ha
  · rw [cellOf, hsize, Option.map_some, Option.getD_some]
    exact hcell hs

/-- An entry of at most two cells each fits into 64 bits. -/
lemma firstEntry_lt {bus props : List Property} {e : ℕ × ℕ} (hbus : DeclaresCells bus)
    (h : firstEntry bus props = some e) : e.1 < 2 ^ 64 ∧ e.2 < 2 ^ 64 := by
  obtain ⟨value, -, hentry⟩ := Option.bind_eq_some_iff.mp h
  dsimp only at hentry
  split at hentry
  case isFalse => cases hentry
  case isTrue =>
    obtain rfl := Option.some.inj hentry
    obtain ⟨haddress, hsize⟩ := hbus.cells_le
    have hlt {xs : List UInt8} {n : ℕ} (hn : n ≤ 2) (hxs : xs.length ≤ 4 * n) :
        beNat xs < 2 ^ 64 :=
      (beNat_lt xs).trans_le ((Nat.pow_le_pow_right (by norm_num) (by omega)).trans
        (by norm_num : 256 ^ 8 ≤ 2 ^ 64))
    exact ⟨hlt haddress (List.length_take_le _ _), hlt hsize (List.length_take_le _ _)⟩

variable {t : Tree}

/-- The RAM fits into 64 bits. -/
lemma Tree.Declared.memory_lt (h : t.Declared) {e : ℕ × ℕ} (he : t.memory = some e) :
    e.1 < 2 ^ 64 ∧ e.2 < 2 ^ 64 := by
  obtain ⟨node, -, hentry⟩ := List.exists_of_findSome?_eq_some he
  split at hentry
  · exact firstEntry_lt h.root hentry
  · cases hentry

/-- The firmware region fits into 64 bits. -/
lemma Tree.Declared.atf_lt (h : t.Declared) : t.atf.1 < 2 ^ 64 ∧ t.atf.2 < 2 ^ 64 := by
  rw [Tree.atf]
  cases hlast : t.firmware.getLast?.join with
  | none => exact ⟨by norm_num, by norm_num⟩
  | some e =>
    have hmem := List.mem_of_getLast? (Option.join_eq_some_iff.mp hlast)
    obtain ⟨reserved, hreserved, hnode⟩ := List.mem_flatMap.mp hmem
    obtain ⟨node, -, hentry⟩ := List.mem_map.mp hnode
    obtain ⟨hchild, hname⟩ := List.mem_filter.mp hreserved
    exact firstEntry_lt (h.reserved reserved hchild (of_decide_eq_true hname)) hentry

/-! ## `ParseMemoryMap` on a serialised tree -/

/-- An entry in two cells of address and two cells of size. -/
def twoCells (e : ℕ × ℕ) : List UInt8 := beBytes 8 e.1 ++ beBytes 8 e.2

/-- The properties that `ParseMemoryMap` takes are those of the memory of the tree, in two cells
each: the first `reg` of sixteen bytes in or below a depth-1 node whose name begins with `memory`
begins with the RAM, and the last one in or below a child of `/reserved-memory` with the bare name
of a firmware node begins with the firmware region. -/
def Tree.InTwoCells (t : Tree) : Prop :=
  match t.memory with
  | none => t.height ≤ maxDepth → memoryReg (t.pathProps []) = none
  | some e => t.height ≤ maxDepth ∧
      (∃ p, memoryReg (t.pathProps []) = some p ∧ p.value.take 16 = twoCells e) ∧
      ((atfReg (t.pathProps [])).elim (List.replicate 16 0) fun p => p.value.take 16) =
        twoCells t.atf

/-! ## Trees in two cells -/

/-- A bus of two cells each. -/
def IsTwoCellBus (props : List Property) : Prop :=
  valueOf kAddressCells 4 props = some (beBytes 4 2) ∧
    valueOf kSizeCells 4 props = some (beBytes 4 2)

/-- A node without subnodes that has one `reg`, with room for an entry of two cells each. -/
def Tree.HasEntry (t : Tree) (value : List UInt8) : Prop :=
  t.children = [] ∧ t.props.filter (fun p => p.name = kReg) = [⟨kReg, value⟩] ∧ 16 ≤ value.length

/-- A tree that is written for two cells: the root and `/reserved-memory` are buses of two cells
each, no other depth-1 node has a name that begins like that of a memory node, the firmware nodes
have no unit address, and memory and firmware nodes have an entry and no subnodes. -/
structure Tree.Plain (t : Tree) : Prop where
  height : t.height ≤ maxDepth
  root : IsTwoCellBus t.props
  memory : ∀ node ∈ t.children, kMemory <+: node.name →
    baseName node.name = kMemory ∧ ∃ value, node.HasEntry value
  reserved : ∀ node ∈ t.children, node.name = kReservedMemory → IsTwoCellBus node.props
  firmware : ∀ reserved ∈ t.children, reserved.name = kReservedMemory →
    ∀ node ∈ reserved.children, baseName node.name ∈ kAtfNames →
      node.name ∈ kAtfNames ∧ ∃ value, node.HasEntry value

/-- Two cells are declared. -/
lemma IsTwoCellBus.declaresCells {props : List Property} (h : IsTwoCellBus props) :
    DeclaresCells props :=
  ⟨⟨2, .inr rfl, h.1⟩, 2, .inr rfl, h.2⟩

/-- A tree that is written for two cells declares its cells. -/
lemma Tree.Plain.declared (h : t.Plain) : t.Declared :=
  ⟨h.root.declaresCells, fun node hnode hname => (h.reserved node hnode hname).declaresCells⟩

/-- The first entry of a `reg`, in two cells each. -/
def cellPair (value : List UInt8) : ℕ × ℕ :=
  (beNat (value.take 8), beNat ((value.drop 8).take 8))

/-- The first sixteen bytes are the first entry. -/
lemma twoCells_cellPair {value : List UInt8} (h : 16 ≤ value.length) :
    twoCells (cellPair value) = value.take 16 := by
  have hfirst := beBytes_beNat (value.take 8)
  have hsecond := beBytes_beNat ((value.drop 8).take 8)
  rw [List.length_take_of_le (by omega)] at hfirst
  rw [List.length_take_of_le (by rw [List.length_drop]; omega)] at hsecond
  rw [twoCells, cellPair, hfirst, hsecond, ← List.take_add]

/-- The entry of a node below a bus of two cells. -/
lemma Tree.HasEntry.firstEntry_eq {node : Tree} {value : List UInt8} {bus : List Property}
    (h : node.HasEntry value) (hbus : IsTwoCellBus bus) :
    firstEntry bus node.props = some (cellPair value) := by
  obtain ⟨-, hreg, hlen⟩ := h
  have hvalue : valueOf kReg 0 node.props = some value := by
    rw [valueOf, ← List.head?_filter, List.filter_reverse]
    simp only [Nat.zero_le, and_true, hreg]
    rfl
  have haddress : cellOf kAddressCells 2 bus = 2 := by
    rw [cellOf, hbus.1]
    decide
  have hsize : cellOf kSizeCells 1 bus = 2 := by
    rw [cellOf, hbus.2]
    decide
  rw [firstEntry, hvalue, Option.bind_some, haddress, hsize, if_pos hlen, cellPair]

mutual

/-- The properties of a tree lie below its node. -/
theorem prefix_of_mem_pathProps {p : PathProp} (path : List Name) :
    (t : Tree) → p ∈ t.pathProps path → path ++ [t.name] <+: p.path
  | .node name props children => by
    intro hp
    rw [Tree.pathProps, List.mem_append] at hp
    rcases hp with hp | hp
    · obtain ⟨q, -, rfl⟩ := List.mem_map.mp hp
      exact List.prefix_rfl
    · exact prefix_of_mem_pathPropsOf (path ++ [name]) children hp

/-- The properties of some trees lie below the node around them. -/
theorem prefix_of_mem_pathPropsOf {p : PathProp} (path : List Name) :
    (ts : List Tree) → p ∈ pathPropsOf path ts → path <+: p.path
  | [] => by
    intro hp
    cases hp
  | t :: ts => by
    intro hp
    rw [pathPropsOf, List.mem_append] at hp
    rcases hp with hp | hp
    · exact (List.prefix_append _ _).trans (prefix_of_mem_pathProps path t hp)
    · exact prefix_of_mem_pathPropsOf path ts hp

end

/-- The properties of some trees, tree by tree. -/
lemma pathPropsOf_eq_flatMap (path : List Name) (ts : List Tree) :
    pathPropsOf path ts = ts.flatMap (Tree.pathProps path) := by
  induction ts with
  | nil => rfl
  | cons t ts ih => rw [pathPropsOf, ih, List.flatMap_cons]

/-- The properties of a tree: those of its node, and those of its subnodes. -/
lemma Tree.pathProps_eq (path : List Name) (t : Tree) :
    t.pathProps path = t.props.map (fun p => ⟨path ++ [t.name], p.name, p.value⟩) ++
      t.children.flatMap (Tree.pathProps (path ++ [t.name])) := by
  cases t with
  | node name props children =>
    rw [Tree.pathProps, pathPropsOf_eq_flatMap, Tree.props, Tree.children, Tree.name]

section Regs

variable (Q : List Name → Prop) [DecidablePred Q]

/-- The `reg`s with room for an entry whose path has a property. -/
def regsWhere (ps : List PathProp) : List PathProp := ps.filter fun p => p.IsReg ∧ Q p.path

variable {Q} {node : Tree}

/-- Where the node itself is not meant, the `reg`s are those of its subnodes. -/
lemma regsWhere_pathProps (h : ¬ Q (path ++ [node.name])) :
    regsWhere Q (node.pathProps path) =
      node.children.flatMap fun t => regsWhere Q (t.pathProps (path ++ [node.name])) := by
  have hown :
      regsWhere Q (node.props.map fun p => ⟨path ++ [node.name], p.name, p.value⟩) = [] := by
    refine List.filter_eq_nil_iff.mpr fun p hp => ?_
    obtain ⟨q, -, rfl⟩ := List.mem_map.mp hp
    simp [h]
  rw [Tree.pathProps_eq, regsWhere, List.filter_append, ← regsWhere, hown, List.nil_append,
    List.filter_flatMap]
  rfl

/-- Where no path below the node is meant, there are none. -/
lemma regsWhere_eq_nil (h : ∀ l, path ++ [node.name] <+: l → ¬ Q l) :
    regsWhere Q (node.pathProps path) = [] := by
  refine List.filter_eq_nil_iff.mpr fun p hp => ?_
  have hp' := h p.path (prefix_of_mem_pathProps path node hp)
  simp [hp']

/-- Where a node with an entry is meant, its `reg` is the only one. -/
lemma Tree.HasEntry.regsWhere_eq {value : List UInt8} (h : node.HasEntry value)
    (hQ : Q (path ++ [node.name])) :
    regsWhere Q (node.pathProps path) = [⟨path ++ [node.name], kReg, value⟩] := by
  obtain ⟨hleaf, hreg, hlen⟩ := h
  have hprops : (node.props.filter fun p => (p.name = kReg ∧ 16 ≤ p.value.length) ∧
      Q (path ++ [node.name])) = [⟨kReg, value⟩] := by
    have hsplit := congrArg (List.filter fun p => 16 ≤ p.value.length) hreg
    rw [List.filter_filter, List.filter_cons_of_pos (by simpa using hlen),
      List.filter_nil] at hsplit
    rw [← hsplit]
    simp [hQ, Bool.and_comm]
  rw [Tree.pathProps_eq, hleaf, List.flatMap_nil, List.append_nil, regsWhere, List.filter_map]
  exact congrArg _ hprops

end Regs

/-- The `reg` for the RAM is the first one. -/
lemma memoryReg_eq (ps : List PathProp) : memoryReg ps = (regsWhere InMemory ps).head? :=
  List.head?_filter.symm

/-- The `reg` for the firmware region is the last one. -/
lemma atfReg_eq (ps : List PathProp) : atfReg ps = (regsWhere InAtf ps).getLast? := by
  rw [regsWhere, ← List.head?_reverse, ← List.filter_reverse, List.head?_filter]
  rfl

/-- A path below a subnode of the root has the name of the subnode behind that of the root. -/
lemma getElem?_one_of_below {a b : Name} {l : List Name} (h : [a] ++ [b] <+: l) :
    l[1]? = some b := by
  obtain ⟨rest, rfl⟩ := h
  rfl

/-- The RAM of a tree that is written for two cells. -/
lemma Tree.Plain.memory_eq (h : t.Plain) :
    t.memory = (memoryReg (t.pathProps [])).map fun p => cellPair p.value := by
  rw [memoryReg_eq, ← List.head?_map, Tree.memory, ← List.head?_filterMap,
    List.filterMap_eq_flatMap_toList, regsWhere_pathProps (by simp [InMemory]), List.map_flatMap]
  refine congrArg _ (List.flatMap_congr fun node hnode => ?_)
  by_cases hname : kMemory <+: node.name
  · obtain ⟨hbase, value, hentry⟩ := h.memory node hnode hname
    rw [if_pos hbase, hentry.firstEntry_eq h.root, hentry.regsWhere_eq ⟨node.name, rfl, hname⟩]
    rfl
  · have hbase : baseName node.name ≠ kMemory := fun hbase =>
      hname (hbase ▸ List.takeWhile_prefix _)
    rw [if_neg hbase, regsWhere_eq_nil]
    · rfl
    · rintro l hl ⟨name, hat, hmemory⟩
      obtain rfl := Option.some.inj ((getElem?_one_of_below hl).symm.trans hat)
      exact hname hmemory

/-- Items that are kept one by one. -/
lemma flatMap_eq_of_filter {α β : Type} {l : List α} {q : α → Prop} [DecidablePred q]
    {f g : α → List β} (hkept : ∀ x ∈ l, q x → f x = g x) (hdropped : ∀ x ∈ l, ¬ q x → f x = []) :
    l.flatMap f = (l.filter fun x => q x).flatMap g := by
  induction l with
  | nil => rfl
  | cons x l ih =>
    rw [List.flatMap_cons, ih (fun y hy => hkept y (List.mem_cons_of_mem _ hy))
      fun y hy => hdropped y (List.mem_cons_of_mem _ hy)]
    by_cases hx : q x
    · rw [List.filter_cons_of_pos (by simpa using hx), List.flatMap_cons,
        hkept x List.mem_cons_self hx]
    · rw [List.filter_cons_of_neg (by simpa using hx), hdropped x List.mem_cons_self hx,
        List.nil_append]

/-- The firmware nodes of a tree that is written for two cells. -/
lemma Tree.Plain.firmware_eq (h : t.Plain) :
    t.firmware = (regsWhere InAtf (t.pathProps [])).map fun p => some (cellPair p.value) := by
  symm
  rw [regsWhere_pathProps (by simp [InAtf, InNode]), List.map_flatMap, Tree.firmware]
  refine flatMap_eq_of_filter (fun reserved hreserved hname => ?_) fun node _ hname => ?_
  · rw [regsWhere_pathProps (by simp [InAtf]), List.map_flatMap, List.map_eq_flatMap]
    refine flatMap_eq_of_filter (fun node hnode hbase => ?_) fun node hnode hbase => ?_
    · obtain ⟨hatf, value, hentry⟩ := h.firmware reserved hreserved hname node hnode hbase
      rw [hentry.firstEntry_eq (h.reserved reserved hreserved hname),
        hentry.regsWhere_eq ⟨congrArg some hname, node.name, rfl, hatf⟩]
      rfl
    · rw [regsWhere_eq_nil, List.map_nil]
      rintro l ⟨rest, rfl⟩ ⟨-, name, hat, hatf⟩
      obtain rfl : node.name = name := Option.some.inj hat
      -- the firmware names have no unit address
      have hbare : ∀ name ∈ kAtfNames, baseName name = name := by decide
      exact hbase ((hbare _ hatf).symm ▸ hatf)
  · rw [regsWhere_eq_nil, List.map_nil]
    rintro l hl ⟨hnode, -⟩
    exact hname (Option.some.inj ((getElem?_one_of_below hl).symm.trans hnode))

/-- A tree that is written for two cells has its memory in two cells each. -/
theorem inTwoCells_of_plain (h : t.Plain) : t.InTwoCells := by
  have hmemory := h.memory_eq
  have hlast : t.firmware.getLast?.join =
      (atfReg (t.pathProps [])).map fun p => cellPair p.value := by
    rw [h.firmware_eq, List.getLast?_map, ← atfReg_eq]
    cases atfReg (t.pathProps []) <;> rfl
  have hatf : ((atfReg (t.pathProps [])).elim (List.replicate 16 0) fun p => p.value.take 16) =
      twoCells t.atf := by
    rw [Tree.atf, hlast]
    cases hreg : atfReg (t.pathProps []) with
    | none => decide
    | some p =>
      have hp : IsAtfReg p := by simpa using List.find?_some hreg
      exact (twoCells_cellPair hp.1.2).symm
  rw [Tree.InTwoCells]
  cases hreg : memoryReg (t.pathProps []) with
  | none =>
    rw [hreg, Option.map_none] at hmemory
    rw [hmemory]
    exact fun _ => rfl
  | some p =>
    have hp : IsMemoryReg p := by simpa using List.find?_some hreg
    rw [hreg, Option.map_some] at hmemory
    rw [hmemory]
    exact ⟨h.height, ⟨p, rfl, (twoCells_cellPair hp.1.2).symm⟩, hatf⟩

variable {ps : List PathProp} (dtb total : ℕ)

/-- Without a `reg` for the RAM the memory is missing. -/
lemma memoryMapOf_of_none (h : memoryReg ps = none) :
    memoryMapOf dtb total ps = .error (.panic "[ERROR][DTB] memory is missing") := by
  simp [memoryMapOf, parseEnd, stateOf, h]

/-- With a `reg` for the RAM there is a map. -/
lemma memoryMapOf_of_some {p : PathProp} (h : memoryReg ps = some p) :
    ∃ map, memoryMapOf dtb total ps = .ok map ∧ map.memBase = p.base ∧ map.memSize = p.size ∧
      map.atfBase = (atfReg ps).elim 0 base ∧ map.atfSize = (atfReg ps).elim 0 size := by
  rw [memoryMapOf, parseEnd]
  simp only [stateOf, h, Option.isSome_some, reduceCtorEq, if_false]
  split <;> exact ⟨_, rfl, by simp [mapOf, h], by simp [mapOf, h], rfl, rfl⟩

/-- The region of a `reg` that may be missing. -/
lemma elim_base_size_eq_iff {q : Option PathProp} {e : ℕ × ℕ} (hq : ∀ p ∈ q, 16 ≤ p.value.length)
    (he : e.1 < 2 ^ 64 ∧ e.2 < 2 ^ 64) :
    q.elim 0 base = UInt64.ofNat e.1 ∧ q.elim 0 size = UInt64.ofNat e.2 ↔
      (q.elim (List.replicate 16 0) fun p => p.value.take 16) = twoCells e := by
  cases q with
  | none => exact base_size_eq_iff (p := ⟨[], [], List.replicate 16 0⟩) (by decide) he.1 he.2
  | some p => exact base_size_eq_iff (hq p rfl) he.1 he.2

/-- A blob that serialises a tree whose root and `/reserved-memory` declare one or two cells: the
memory map tells the memory of the tree exactly when `ParseMemoryMap` meets it in two cells each. -/
theorem parseMemoryMap_tells_iff (m : Memory) (dtb : ℕ) (t : Tree) (ht : t.Declared)
    (h : Serialises m dtb t) : t.Tells (parseMemoryMap m dtb).result ↔ t.InTwoCells := by
  obtain ⟨f, l, last, hv, -, hal, hl, hfin, hevents⟩ := h.exists_tokens
  have hbal : Balanced [] (l ++ [(last, .finish)]) := balanced_of_events hfin hevents
  have hnest : nesting [] (l ++ [(last, .finish)]) = t.height := nesting_of_events hevents
  by_cases hheight : t.height ≤ maxDepth
  · have hprops : propsOf [] (l ++ [(last, .finish)]) = t.pathProps [] := by
      have htree := propsAt_events [] [] t
      rw [List.append_nil, propsAt, List.append_nil] at htree
      rw [propsOf_eq_propsAt, eventsIn, List.filterMap_append, ← eventsIn, hevents, ← htree]
      exact congrArg _ (List.append_nil _)
    rw [parseMemoryMap_eq hv hl hbal (hnest.le.trans hheight) (.inl hal), hprops, Tree.Tells,
      Tree.InTwoCells]
    cases hmemory : t.memory with
    | none =>
      simp only [hheight, true_imp_iff]
      cases hreg : memoryReg (t.pathProps []) with
      | none => exact iff_of_true ⟨_, memoryMapOf_of_none _ _ hreg⟩ rfl
      | some p =>
        obtain ⟨map, hmap, -⟩ := memoryMapOf_of_some dtb (f .totalSize) hreg
        rw [hmap]
        simp
    | some e =>
      simp only [hheight, true_and]
      cases hreg : memoryReg (t.pathProps []) with
      | none =>
        rw [memoryMapOf_of_none _ _ hreg]
        simp
      | some p =>
        have hp : IsMemoryReg p := by simpa using List.find?_some hreg
        obtain ⟨map, hmap, hbase, hsize, hatfBase, hatfSize⟩ :=
          memoryMapOf_of_some dtb (f .totalSize) hreg
        have hmem := ht.memory_lt hmemory
        have hatf : ∀ q ∈ atfReg (t.pathProps []), 16 ≤ q.value.length := fun q hq => by
          have hreg : IsAtfReg q := by simpa using List.find?_some hq
          exact hreg.1.2
        rw [hmap, ← elim_base_size_eq_iff hatf ht.atf_lt]
        simp only [Except.ok.injEq, exists_eq_left', hbase, hsize, hatfBase, hatfSize,
          Option.some.injEq, base_size_eq_iff hp.1.2 hmem.1 hmem.2]
        rfl
  · have hpanic := validateHeader_of_deep hv hl hbal (by omega) hal
    rw [parseMemoryMap, hpanic, Run.after_error, Tree.Tells, Tree.InTwoCells]
    cases t.memory with
    | none => exact iff_of_true ⟨_, rfl⟩ fun hle => absurd hle hheight
    | some e => simp [hheight]

/-- A host with the firmware region in its reserved memory, in two cells each. -/
def hostTree : Tree :=
  .node [] [⟨kAddressCells, beBytes 4 2⟩, ⟨kSizeCells, beBytes 4 2⟩]
    [.node (ascii "memory@0") [⟨kReg, twoCells (0, 0x3b400000)⟩] [],
      .node kReservedMemory [⟨kAddressCells, beBytes 4 2⟩, ⟨kSizeCells, beBytes 4 2⟩]
        [.node (ascii "atf") [⟨kReg, twoCells (0, 0x80000)⟩] []]]

/-- The strings block of the host trees. -/
def hostStrings : List UInt8 := [kAddressCells, kSizeCells, kReg].flatMap (· ++ [0])

/-- The tokens of the host. -/
def hostTokens : List Token :=
  [.beginNode [], .prop 0 kAddressCells (beBytes 4 2), .prop 15 kSizeCells (beBytes 4 2),
    .beginNode (ascii "memory@0"), .prop 27 kReg (twoCells (0, 0x3b400000)), .endNode,
    .beginNode kReservedMemory, .prop 0 kAddressCells (beBytes 4 2),
    .prop 15 kSizeCells (beBytes 4 2), .beginNode (ascii "atf"), .nop,
    .prop 27 kReg (twoCells (0, 0x80000)), .endNode, .endNode, .endNode]

/-- The host is written for two cells. -/
lemma plain_hostTree : hostTree.Plain := by
  have hbus : IsTwoCellBus [⟨kAddressCells, beBytes 4 2⟩, ⟨kSizeCells, beBytes 4 2⟩] :=
    ⟨by decide, by decide⟩
  have hentry (name : Name) (e : ℕ × ℕ) :
      (Tree.node name [⟨kReg, twoCells e⟩] []).HasEntry (twoCells e) :=
    ⟨rfl, rfl, le_of_eq rfl⟩
  refine ⟨by decide, hbus, List.forall_mem_cons.mpr ⟨?_, List.forall_mem_singleton.mpr ?_⟩,
    List.forall_mem_cons.mpr ⟨?_, List.forall_mem_singleton.mpr ?_⟩,
    List.forall_mem_cons.mpr ⟨?_, List.forall_mem_singleton.mpr ?_⟩⟩
  · exact fun _ => ⟨by decide, _, hentry _ _⟩
  · exact fun hname => absurd hname (by decide)
  · exact fun hname => absurd hname (by decide)
  · exact fun _ => hbus
  · exact fun hname => absurd hname (by decide)
  · exact fun _ => List.forall_mem_singleton.mpr fun _ => ⟨by decide, _, hentry _ _⟩

/-- The memory of the host is told. -/
theorem parseMemoryMap_tells_iff_hostTree :
    hostTree.memory = some (0, 0x3b400000) ∧ hostTree.atf = (0, 0x80000) ∧
      hostTree.Tells
        (parseMemoryMap (fun a => some (layOut hostTokens hostStrings a)) 0x1000).result := by
  refine ⟨by decide +kernel, by decide +kernel, (parseMemoryMap_tells_iff _ 0x1000 hostTree
    plain_hostTree.declared ?_).mpr (inTwoCells_of_plain plain_hostTree)⟩
  exact serialises_layOut (by decide +kernel) (by decide +kernel) (by decide) (by decide +kernel)

/-- A host whose RAM is in one cell each. -/
def narrowTree : Tree :=
  .node [] [⟨kAddressCells, beBytes 4 1⟩, ⟨kSizeCells, beBytes 4 1⟩]
    [.node (ascii "memory") [⟨kReg, beBytes 4 0 ++ beBytes 4 0x3b400000⟩] []]

/-- Its tokens. -/
def narrowTokens : List Token :=
  [.beginNode [], .prop 0 kAddressCells (beBytes 4 1), .prop 15 kSizeCells (beBytes 4 1),
    .beginNode (ascii "memory"), .prop 27 kReg (beBytes 4 0 ++ beBytes 4 0x3b400000), .endNode,
    .endNode]

/-- The eight bytes of the entry are too few for two cells each, and `ParseMemoryMap` panics. -/
theorem narrow_memory_is_missing :
    narrowTree.Declared ∧
      Serialises (fun a => some (layOut narrowTokens hostStrings a)) 0x1000 narrowTree ∧
      narrowTree.memory = some (0, 0x3b400000) ∧
      (parseMemoryMap (fun a => some (layOut narrowTokens hostStrings a)) 0x1000).result =
        .error (.panic "[ERROR][DTB] memory is missing") := by
  refine ⟨⟨⟨⟨1, .inl rfl, by decide⟩, 1, .inl rfl, by decide⟩, fun node hnode hname => ?_⟩, ?_,
    by decide +kernel, by decide +kernel⟩
  · rw [List.mem_singleton.mp hnode] at hname
    exact absurd hname (by decide)
  · exact serialises_layOut (by decide +kernel) (by decide +kernel) (by decide) (by decide +kernel)

end DeviceTree

end HyperBerry
